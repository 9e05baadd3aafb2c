import DubstepDucks.CMem.Bitset
import DubstepDucks.Torrent.Chunks

/-!
# Torrent — keep-alive messages

A keep-alive is a message of length zero: four zero bytes and no ID.
`get_next_msg` takes the byte behind the length as the ID all the same, and
in a buffer that is otherwise zero that is the ID of `CHOKE`.

What this does to a connection is visible as long as OWNCHOKE would be clear
without it. The proof rests on one fact about the receive branch
(`follows_receive`): it never reads the flag byte of its slot, and what it
makes of that byte is a function of the byte alone. So the runs with and
without the keep-alives go side by side, apart from that byte.
-/

namespace DubstepDucks.Torrent

open CMem Btp

/-! ## Items and how they are handled -/

/-- What a peer sends on a connection, each in a `recv` of its own, with the
environment it is handled in. -/
inductive Item where
  | message (c : Chunk) (e : Env)
  | keepAlive (e : Env)

/-- Four zero bytes. -/
def keepAliveChunk : Chunk := ⟨leBytes 0, by decide, by decide⟩

def Item.chunk : Item → Chunk
  | .message c _ => c
  | .keepAlive _ => keepAliveChunk

def Item.env : Item → Env
  | .message _ e => e
  | .keepAlive e => e

def Item.isMessage : Item → Bool
  | .message _ _ => true
  | .keepAlive _ => false

/-- The items received on slot `k`, one after another. Each finds the buffer
zero. -/
def handleItems (sha1 : List Byte → Digest) (ans : BtInfo) (k : Nat) :
    Client → List Item → Except Stop Client
  | s, [] => .ok s
  | s, it :: its =>
      match receive sha1 ans s.clearBuffer k (.chunk it.chunk) it.env with
      | .error stop => .error stop
      | .ok (s', _) => handleItems sha1 ans k s' its

/-! ## What a message does to OWNCHOKE -/

/-- The buffer with the rest of the stack behind it. -/
def stackFrom (buffer : Mem) (e : Env) : Mem :=
  fun i => if i < bufsiz then buffer i else e.behindBuffer (i - bufsiz)

/-- A zeroed buffer with the chunk in it. -/
def received (c : Chunk) : Mem := Mem.write (fun _ => 0) 0 c.bytes

/-- The block of a `PIECE` passes `verify_piece`. -/
def passesCheck (sha1 : List Byte → Digest) (ans : BtInfo) (k : Nat) (c : Chunk) (e : Env) : Bool :=
  match getNextMsg e.stack (stackFrom (received c) e), ans.hashAt (k * 20) e with
  | some n, some expected =>
      let block := pieceBlock ans (Mem.of n.message e.behindMsg)
      verifyPiece sha1 e.stack ((stackFrom (received c) e).write 0 block) expected e.thirdArg
        = some true
  | _, _ => false

/-- The value a message gives to OWNCHOKE; `none` leaves it as it is. Besides
`CHOKE` these are the messages whose handlers clear a flag, and with it the
whole byte. -/
def ownChokeSet (sha1 : List Byte → Digest) (ans : BtInfo) (k : Nat) (c : Chunk) (e : Env) :
    Option Bool :=
  if c.bytes.length = fullHandshakeLength ∨
      c.bytes.length = fullHandshakeLength + ans.bitfieldMsgLength then none
  else
    match MsgID.ofByte (c.bytes.getD 4 0) with
    | some .choke => some true
    | some .unchoke | some .uninterested => some false
    | some .piece => if passesCheck sha1 ans k c e then some false else none
    | _ => none

/-- Some message sets or clears the flag. -/
def Settled (sha1 : List Byte → Digest) (ans : BtInfo) (k : Nat) (its : List Item) : Prop :=
  ∃ c e, .message c e ∈ its ∧ (ownChokeSet sha1 ans k c e).isSome = true

/-- The keep-alives go unnoticed, `choked` being OWNCHOKE before the items:
each arrives while the flag is set, or some message after it sets or clears
the flag. -/
def Unnoticed (sha1 : List Byte → Digest) (ans : BtInfo) (k : Nat) : Bool → List Item → Prop
  | _, [] => True
  | choked, .keepAlive _ :: its =>
      (choked = true ∨ Settled sha1 ans k its) ∧ Unnoticed sha1 ans k choked its
  | choked, .message c e :: its =>
      Unnoticed sha1 ans k ((ownChokeSet sha1 ans k c e).getD choked) its

/-! ## The flag byte of a slot -/

/-- The state with another flag byte in slot `k`. -/
def Client.withFlags (s : Client) (k : Nat) (b : Byte) : Client :=
  s.modifyConn k fun c => { c with statusFlags := b }

theorem withFlags_self (s : Client) (k : Nat) :
    s.withFlags k (s.connections k).statusFlags = s := by
  rw [Client.withFlags, Client.modifyConn]
  have hsame : (fun j => if j = k then
      { s.connections j with statusFlags := (s.connections k).statusFlags } else s.connections j)
      = s.connections := by
    funext j
    by_cases hj : j = k
    · rw [if_pos hj, hj]
    · rw [if_neg hj]
  rw [hsame]

theorem modifyConn_modifyConn (s : Client) (k : Nat) (f g : Connections → Connections) :
    (s.modifyConn k f).modifyConn k g = s.modifyConn k fun c => g (f c) := by
  simp only [Client.modifyConn]
  congr 1
  funext j
  by_cases hj : j = k
  · simp only [if_pos hj]
  · simp only [if_neg hj]

@[simp] theorem withFlags_withFlags (s : Client) (k : Nat) (b b' : Byte) :
    (s.withFlags k b).withFlags k b' = s.withFlags k b' :=
  modifyConn_modifyConn ..

@[simp] theorem statusFlags_withFlags (s : Client) (k : Nat) (b : Byte) :
    ((s.withFlags k b).connections k).statusFlags = b := by
  simp [Client.withFlags, Client.modifyConn]

@[simp] theorem testFreed_withFlags (s : Client) (k : Nat) (b : Byte) :
    (s.withFlags k b).testFreed = s.testFreed := rfl

/-- A record update that leaves the flags alone can be done before or after. -/
theorem modifyConn_withFlags {f : Connections → Connections}
    (hf : ∀ c b, f { c with statusFlags := b } = { f c with statusFlags := b }) (s : Client)
    (k : Nat) (b : Byte) :
    (s.withFlags k b).modifyConn k f = (s.modifyConn k f).withFlags k b := by
  have hrecord : (fun c => f { c with statusFlags := b })
      = fun c => { f c with statusFlags := b } := funext fun c => hf c b
  simp only [Client.withFlags, modifyConn_modifyConn]
  rw [hrecord]

/-- Apart from the flags the record is the old one. -/
theorem peerBitfield_withFlags (s : Client) (k j : Nat) (b : Byte) :
    ((s.withFlags k b).connections j).peerBitfield = (s.connections j).peerBitfield := by
  simp only [Client.withFlags, Client.modifyConn]
  by_cases hj : j = k
  · rw [if_pos hj]
  · rw [if_neg hj]

/-- The byte with OWNCHOKE raised. -/
def ownChoked (b : Byte) : Byte := b ||| (1 <<< Flag.ownChoke.bit)

/-- A change of the flag byte that gives OWNCHOKE the value `v`, or leaves it
for `none`; in the latter case raising the flag before or after is the same. -/
structure Moves (v : Option Bool) (change : Byte → Byte) : Prop where
  ownChoke : ∀ b : Byte,
    (change b).getLsbD Flag.ownChoke.bit = v.getD (b.getLsbD Flag.ownChoke.bit)
  change_ownChoked : ∀ b : Byte,
    change (ownChoked b) = if v.isSome then change b else ownChoked (change b)

theorem moves_id : Moves none fun b => b := ⟨fun _ => rfl, fun _ => rfl⟩

theorem getLsbD_ownChoked (b : Byte) (f : Flag) :
    (ownChoked b).getLsbD f.bit = if f = .ownChoke then true else b.getLsbD f.bit :=
  getLsbD_or_bit b .ownChoke f

/-- Raising another flag leaves OWNCHOKE. -/
theorem moves_raise {f : Flag} (hf : f ≠ .ownChoke) :
    Moves none fun b => b ||| (1 <<< f.bit) := by
  constructor
  · intro b
    rw [getLsbD_or_bit, if_neg (Ne.symm hf)]
    rfl
  · intro b
    show (ownChoked b) ||| _ = ownChoked (b ||| _)
    rw [ownChoked, ownChoked, BitVec.or_assoc, BitVec.or_assoc, BitVec.or_comm (1 <<< f.bit)]

theorem moves_choke : Moves (some true) ownChoked := by
  constructor
  · intro b
    exact getLsbD_ownChoked b .ownChoke
  · intro b
    show ownChoked (ownChoked b) = ownChoked b
    rw [ownChoked, ownChoked, BitVec.or_assoc, BitVec.or_self]

/-- Clearing a flag clears the byte. -/
theorem moves_clear (f : Flag) : Moves (some false) fun b => b &&& (0 <<< f.bit) := by
  have hzero : ∀ b : Byte, b &&& (0 <<< f.bit) = 0 := by
    intro b
    rw [Nat.zero_shiftLeft]
    exact BitVec.and_zero
  constructor
  · intro b
    rw [hzero]
    rfl
  · intro b
    show ownChoked b &&& _ = b &&& _
    rw [hzero, hzero]

/-! ## The receive branch never reads it -/

/-- What the branch makes of a state does not depend on the flag byte of slot
`k`, apart from the byte itself, which moves as `v` says. -/
def Follows (k : Nat) (v : Option Bool) (branch : Byte → Except Stop (Client × List Event)) :
    Prop :=
  ∃ (change : Byte → Byte) (r : Except Stop (Client × List Event)), Moves v change ∧
    ∀ b, branch b = r.map fun r => (r.1.withFlags k (change b), r.2)

section Follows

variable {sha1 : List Byte → Digest} {ans : BtInfo} {s : Client} {k : Nat} {e : Env}
  {v : Option Bool}

/-- A branch that stops the process makes nothing of the byte. -/
theorem follows_error (stop : Stop) : Follows k v fun _ => .error stop := by
  obtain ⟨change, hmoves⟩ : ∃ change, Moves v change := by
    match v with
    | none => exact ⟨_, moves_id⟩
    | some true => exact ⟨_, moves_choke⟩
    | some false => exact ⟨_, moves_clear .ownChoke⟩
  exact ⟨change, .error stop, hmoves, fun _ => rfl⟩

theorem Follows.log {branch : Byte → Except Stop (Client × List Event)} (h : Follows k v branch)
    (ev : Event) :
    Follows k v fun b => (branch b).map fun r => (r.1, ev :: r.2) := by
  obtain ⟨change, r, hmoves, hbranch⟩ := h
  refine ⟨change, r.map fun r => (r.1, ev :: r.2), hmoves, ?_⟩
  intro b
  dsimp only
  rw [hbranch]
  cases r <;> rfl

/-- A record update that does not look at the flags. -/
theorem follows_modifyConn {f : Connections → Connections} {change : Byte → Byte}
    (hmoves : Moves v change)
    (hf : ∀ c b, f { c with statusFlags := b } = { f c with statusFlags := change b })
    (evs : List Event) :
    Follows k v fun b => .ok ((s.withFlags k b).modifyConn k f, evs) := by
  refine ⟨change, .ok (s.modifyConn k f, evs), hmoves, ?_⟩
  intro b
  show _ = Except.ok ((s.modifyConn k f).withFlags k (change b), evs)
  have hrecord : (fun c => f { c with statusFlags := b })
      = fun c => { f c with statusFlags := change b } := funext fun c => hf c b
  simp only [Client.withFlags, modifyConn_modifyConn]
  rw [hrecord]

theorem follows_keep (evs : List Event) : Follows k none fun b => .ok (s.withFlags k b, evs) :=
  ⟨fun b => b, .ok (s, evs), moves_id, fun _ => rfl⟩

theorem follows_setFlag_one {f : Flag} (hmoves : Moves v fun b => b ||| (1 <<< f.bit)) :
    Follows k v fun b => .ok ((s.withFlags k b).modifyConn k (setFlag · f 1), []) :=
  follows_modifyConn hmoves (fun _ _ => by simp [setFlag]) []

theorem follows_setFlag_zero (f : Flag) (evs : List Event) :
    Follows k (some false) fun b => .ok ((s.withFlags k b).modifyConn k (setFlag · f 0), evs) :=
  follows_modifyConn (moves_clear f) (fun _ _ => by simp [setFlag]) evs

theorem follows_smash : Follows k none fun b => (s.withFlags k b).smash e := by
  simp only [Client.smash]
  cases hsmash : e.smash with
  | none => exact follows_error _
  | some m =>
      refine ⟨fun b => b, s.smash e, moves_id, ?_⟩
      intro b
      rw [Client.smash, hsmash]
      show Except.ok _ = Except.ok _
      simp only [peerBitfield_withFlags]
      congr 2
      simp only [Client.withFlags, Client.modifyConn]
      congr 1
      funext j
      by_cases hj : j = k
      · simp only [if_pos hj]
      · simp only [if_neg hj]

theorem follows_handleHave (p : CInt) :
    Follows k none fun b => handleHave (s.withFlags k b) k p e := by
  simp only [handleHave, peerBitfield_withFlags]
  cases (s.connections k).peerBitfield with
  | none => exact follows_error _
  | some bits =>
      dsimp only
      cases setHave bits p with
      | none => exact follows_smash (s := { s with testFreed := true })
      | some bits' =>
          let s' := s.modifyConn k fun c => { c with peerBitfield := some bits' }
          dsimp only
          have hcomm := modifyConn_withFlags (f := fun c => { c with peerBitfield := some bits' })
            (fun _ _ => rfl) s k
          simp only [hcomm, testFreed_withFlags]
          cases s.testFreed with
          | true => exact follows_smash (s := s')
          | false => exact follows_keep (s := { s' with testFreed := true }) []

theorem follows_handleBitfield (msg : Mem) :
    Follows k none fun b => handleBitfield ans (s.withFlags k b) k msg e := by
  simp only [handleBitfield, peerBitfield_withFlags]
  cases (s.connections k).peerBitfield with
  | none => exact follows_error _
  | some bits =>
      dsimp only
      have hcomm := modifyConn_withFlags (f := fun c => { c with
        peerBitfield := some (((msg.advance 5).read ans.numPieces).take bits.length ++
          bits.drop ans.numPieces) }) (fun _ _ => rfl) s k
      simp only [hcomm]
      by_cases hover : bits.length < ans.numPieces
      · simp only [if_pos hover]
        exact follows_smash
      · simp only [if_neg hover]
        exact follows_keep []

theorem follows_handlePiece (msg : Mem) (accepted : Bool)
    (haccepted : ∀ expected, ans.hashAt (k * 20) e = some expected →
      (verifyPiece sha1 e.stack ((stackFrom s.buffer e).write 0 (pieceBlock ans msg)) expected
        e.thirdArg = some true ↔ accepted = true)) :
    Follows k (if accepted then some false else none) fun b =>
      handlePiece sha1 ans (s.withFlags k b) k msg e := by
  let filled : Client := { s with buffer := pieceBuffer ans s msg e }
  have hbuffer : ∀ b, pieceBuffer ans (s.withFlags k b) msg e = pieceBuffer ans s msg e :=
    fun _ => rfl
  have hfilled : ∀ b, { s.withFlags k b with buffer := pieceBuffer ans s msg e }
      = filled.withFlags k b := fun _ => rfl
  have hfile : ∀ b, (s.withFlags k b).file = s.file := fun _ => rfl
  simp only [handlePiece, hbuffer, hfilled]
  by_cases hlen : e.room < ans.pieceLength
  · simp only [if_pos hlen]
    exact follows_error _
  simp only [if_neg hlen]
  cases hexpected : ans.hashAt (k * 20) e with
  | none => exact follows_error _
  | some expected =>
      have hverdict := haccepted expected hexpected
      dsimp only
      cases hverify : verifyPiece sha1 e.stack (pieceBuffer ans s msg e) expected e.thirdArg with
      | none => exact follows_error _
      | some verified =>
          cases verified with
          | false =>
              have hrejected : ¬ accepted = true := by
                intro h
                rw [← hverdict] at h
                cases hverify.symm.trans h
              rw [if_neg hrejected]
              exact follows_keep []
          | true =>
              rw [if_pos (hverdict.mp hverify)]
              simp only [hfile]
              cases writePiece s.file ((clobber e.heapPtr (msg.advance 5).readInt).setWidth 32)
                ans.pieceSizeBytes (pieceBuffer ans s msg e) e.room e.taken with
              | error stop => exact follows_error stop
              | ok w =>
                  dsimp only
                  cases e.load (clobber e.heapPtr (msg.advance 5).readInt) with
                  | none => exact follows_error _
                  | some shift =>
                      exact follows_setFlag_zero (s := { filled with
                        file := some w.file
                        buffer := w.buffer
                        ownBitfield := setOwn filled.ownBitfield shift }) .pendingRequest _

/-! ## The switch and the branch around it -/

/-- The ID byte of a chunk in a zeroed buffer. -/
theorem msgID_received {c : Chunk} {n : NextMsg}
    (hnext : getNextMsg e.stack (stackFrom (received c) e) = some n) :
    n.msgID = c.bytes.getD 4 0 := by
  have hid : n.msgID = stackFrom (received c) e 4 := by
    rw [getNextMsg] at hnext
    split at hnext
    · cases hnext
    · cases hnext
      rfl
  rw [hid, stackFrom, if_pos (by decide), received]
  by_cases hlong : 4 < c.bytes.length
  · rw [Mem.write_in (by omega) (by omega)]
  · rw [Mem.write_out (by omega), List.getD_eq_default _ _ (by omega)]

theorem passesCheck_eq {c : Chunk} {n : NextMsg} {expected : Digest}
    (hnext : getNextMsg e.stack (stackFrom (received c) e) = some n)
    (hexpected : ans.hashAt (k * 20) e = some expected) :
    verifyPiece sha1 e.stack ((stackFrom (received c) e).write 0
        (pieceBlock ans (Mem.of n.message e.behindMsg))) expected e.thirdArg
      = some true ↔ passesCheck sha1 ans k c e = true := by
  rw [passesCheck, hnext, hexpected]
  exact decide_eq_true_iff.symm

/-- The message switch on a chunk in a zeroed buffer. -/
theorem follows_receiveMsg {c : Chunk} (hbuf : s.buffer = received c)
    (hlen : ¬ (c.bytes.length = fullHandshakeLength ∨
      c.bytes.length = fullHandshakeLength + ans.bitfieldMsgLength)) :
    Follows k (ownChokeSet sha1 ans k c e) fun b =>
      receiveMsg sha1 ans (s.withFlags k b) k c.bytes e := by
  have hptr : ∀ b, (s.withFlags k b).bufPtr e = stackFrom (received c) e := by
    intro b
    show stackFrom s.buffer e = _
    rw [hbuf]
  simp only [receiveMsg, hptr]
  cases hnext : getNextMsg e.stack (stackFrom (received c) e) with
  | none => exact follows_error _
  | some n =>
      dsimp only
      rw [ownChokeSet, if_neg hlen, ← msgID_received hnext]
      cases MsgID.ofByte n.msgID with
      | none => exact (follows_keep []).log _
      | some id =>
          cases id with
          | choke => exact (follows_setFlag_one moves_choke).log _
          | unchoke => exact (follows_setFlag_zero .ownChoke []).log _
          | interested => exact (follows_setFlag_one (moves_raise (by decide))).log _
          | uninterested => exact (follows_setFlag_zero .peerInterested []).log _
          | «have» => exact (follows_handleHave _).log _
          | bitfield => exact (follows_handleBitfield _).log _
          | request => exact (follows_modifyConn moves_id (fun _ _ => rfl) []).log _
          | piece =>
              refine (follows_handlePiece _ _ ?_).log _
              intro expected hexpected
              rw [hbuf]
              exact passesCheck_eq hnext hexpected
          | cancel => exact (follows_modifyConn moves_id (fun _ _ => rfl) []).log _

theorem checkHandshake_withFlags (b : Byte) :
    checkHandshake (s.withFlags k b) e = (checkHandshake s e).map (·.withFlags k b) := by
  have hptr : (s.withFlags k b).bufPtr e = s.bufPtr e := rfl
  rw [checkHandshake, checkHandshake, hptr]
  by_cases hverify : verifyHandshake (s.bufPtr e) fileSha e.freshByte ≠ 0
  · rw [if_pos hverify, if_pos hverify]
    rfl
  · rw [if_neg hverify, if_neg hverify]
    rfl

theorem follows_greet (chunk : List Byte) :
    Follows k none fun b => greet ans (s.withFlags k b) k chunk e := by
  simp only [greet, checkHandshake_withFlags]
  cases checkHandshake s e with
  | error stop => exact follows_error stop
  | ok s1 =>
      have hclear : ∀ b, (s1.withFlags k b).clearBuffer = s1.clearBuffer.withFlags k b :=
        fun _ => rfl
      have hfds : ∀ b, (s1.clearBuffer.withFlags k b).fds = s1.fds := fun _ => rfl
      have hown : ∀ b, (s1.clearBuffer.withFlags k b).ownBitfield = s1.ownBitfield := fun _ => rfl
      simp only [Except.map, hclear, hfds, hown]
      by_cases hsend : (s1.fds k).fd < 0 ∨ e.sendOk = false
      · simp only [if_pos hsend]
        exact follows_error _
      · simp only [if_neg hsend]
        exact follows_keep (s := s1.clearBuffer) _

/-- A state message whose sending raises no flag but OWNINTERESTED. -/
theorem follows_transmit {f : Connections → Connections × WireMsg} {m : WireMsg}
    {change : Byte → Byte} (hmoves : Moves none change)
    (hf : ∀ c b, (f { c with statusFlags := b }).1 = { (f c).1 with statusFlags := change b })
    (hm : ∀ c, (f c).2 = m) :
    Follows k none fun b => (s.withFlags k b).transmit k k f e := by
  have hfds : ∀ b, (s.withFlags k b).fds = s.fds := fun _ => rfl
  simp only [Client.transmit, hfds, hm]
  by_cases hsend : (s.fds k).fd < 0 ∨ e.sendOk = false
  · simp only [if_pos hsend]
    exact follows_error _
  · simp only [if_neg hsend]
    exact follows_modifyConn hmoves hf _

theorem follows_greetWithBitfield (chunk : List Byte) :
    Follows k none fun b => greetWithBitfield ans (s.withFlags k b) k chunk e := by
  simp only [greetWithBitfield, checkHandshake_withFlags]
  cases checkHandshake s e with
  | error stop => exact follows_error stop
  | ok s1 =>
      have hptr : ∀ b, (s1.withFlags k b).bufPtr e = s1.bufPtr e := fun _ => rfl
      have hown : ∀ (b : Byte) f,
          ((s1.modifyConn k f).withFlags k b).ownBitfield = s1.ownBitfield :=
        fun _ _ => rfl
      have hstore := modifyConn_withFlags (f := fun c => { c with
        peerBitfield := some (setPeerBitfield (s1.bufPtr e) ans.bitfieldMsgLength) })
        (fun _ _ => rfl) s1 k
      simp only [Except.map, hptr, hown, hstore]
      -- whichever of the two messages is sent
      obtain ⟨send, hsend, hfollows⟩ : ∃ send, (if 0 < peerContainsUndownloadedPieces
          (Mem.of (setPeerBitfield (s1.bufPtr e) ans.bitfieldMsgLength) e.behindPeer)
          (Mem.of s1.ownBitfield e.behindOwn) ans.bitfieldLen
          then sendInterested else sendUninterested) = send ∧
          ∀ s : Client, Follows k none fun b => (s.withFlags k b).transmit k k send e := by
        split
        · refine ⟨_, rfl, fun s => ?_⟩
          exact follows_transmit (moves_raise (f := .ownInterested) (by decide)) (fun _ _ => rfl)
            (fun _ => rfl)
        · have hmoves : Moves none fun b : Byte => b ||| (0 <<< Flag.ownInterested.bit) := by
            simpa using moves_id
          refine ⟨_, rfl, fun s => ?_⟩
          exact follows_transmit hmoves (fun _ _ => rfl) (fun _ => rfl)
      obtain ⟨change, r, hmoves, hbranch⟩ := hfollows (s1.modifyConn k fun c => { c with
        peerBitfield := some (setPeerBitfield (s1.bufPtr e) ans.bitfieldMsgLength) })
      simp only [hsend, hbranch]
      cases r with
      | error stop => exact follows_error stop
      | ok r => exact ⟨change, .ok (r.1.clearBuffer, .greeted k chunk :: r.2), hmoves, fun _ => rfl⟩

/-- The receive branch on a chunk, the buffer being zero. -/
theorem follows_receive (c : Chunk) (hzero : s.buffer = fun _ => 0) :
    Follows k (ownChokeSet sha1 ans k c e) fun b =>
      receive sha1 ans (s.withFlags k b) k (.chunk c) e := by
  let held : Client := { s with buffer := s.buffer.write 0 c.bytes }
  have hheld : held.buffer = received c := by
    show s.buffer.write 0 c.bytes = _
    rw [hzero]
    rfl
  have hset : ∀ b, { s.withFlags k b with buffer := (s.withFlags k b).buffer.write 0 c.bytes }
      = held.withFlags k b := fun _ => rfl
  simp only [receive, hset]
  by_cases hhandshake : c.bytes.length = fullHandshakeLength
  · simp only [if_pos hhandshake]
    rw [ownChokeSet, if_pos (.inl hhandshake)]
    exact follows_greet (s := held) c.bytes
  by_cases hgreeting : c.bytes.length = fullHandshakeLength + ans.bitfieldMsgLength
  · simp only [if_neg hhandshake, if_pos hgreeting]
    rw [ownChokeSet, if_pos (.inr hgreeting)]
    exact follows_greetWithBitfield (s := held) c.bytes
  · simp only [if_neg hhandshake, if_neg hgreeting]
    exact follows_receiveMsg hheld (not_or.mpr ⟨hhandshake, hgreeting⟩)

end Follows

/-! ## The two runs side by side -/

section Runs

variable {sha1 : List Byte → Digest} {ans : BtInfo} {k : Nat}

/-- OWNCHOKE in the flag byte. -/
theorem ownChoke_eq (c : Connections) :
    c.flag .ownChoke = c.statusFlags.getLsbD Flag.ownChoke.bit := flag_eq_bit c .ownChoke

theorem ownChoked_ownChoked (b : Byte) : ownChoked (ownChoked b) = ownChoked b :=
  moves_choke.change_ownChoked b

/-- Raising the flag changes nothing exactly when it is set. -/
theorem ownChoked_eq_self_iff (b : Byte) :
    ownChoked b = b ↔ b.getLsbD Flag.ownChoke.bit = true := by
  constructor
  · intro h
    rw [← h, getLsbD_ownChoked, if_pos rfl]
  · intro h
    apply BitVec.eq_of_getLsbD_eq
    intro j _
    rw [ownChoked, getLsbD_or_shift b Flag.ownChoke.bit_lt]
    by_cases hj : j = Flag.ownChoke.bit
    · rw [hj, h]
      rfl
    · simp [hj]

theorem clearBuffer_withFlags (s : Client) (k : Nat) (b : Byte) :
    (s.withFlags k b).clearBuffer = s.clearBuffer.withFlags k b := rfl

/-- `t` is `s` but for the buffer and, with `ahead`, for OWNCHOKE raised in
slot `k`. -/
def Beside (k : Nat) (ahead : Bool) (s t : Client) : Prop :=
  t.clearBuffer = s.clearBuffer.withFlags k
    (if ahead then ownChoked (s.connections k).statusFlags else (s.connections k).statusFlags)

theorem connections_beside {ahead : Bool} {s t : Client} (h : Beside k ahead s t) :
    t.connections k = { s.connections k with
      statusFlags := if ahead then ownChoked (s.connections k).statusFlags
        else (s.connections k).statusFlags } := by
  have hrecord : t.clearBuffer.connections k = _ := congrArg (fun c => c.connections k) h
  exact hrecord.trans (if_pos rfl)

/-- With a keep-alive in it, a zeroed buffer is zero. -/
theorem stackFrom_keepAlive (e : Env) {i : Nat} (hi : i < bufsiz) :
    stackFrom (received keepAliveChunk) e i = 0 := by
  rw [stackFrom, if_pos hi, received]
  have hzeros : keepAliveChunk.bytes = List.replicate 4 0 := rfl
  by_cases hin : i < 4
  · rw [hzeros, Mem.write_in (by omega) (by simpa using hin), Nat.sub_zero,
      List.getD_replicate _ hin]
  · rw [hzeros, Mem.write_out (by rw [List.length_replicate]; omega)]

/-- `get_next_msg` finds the ID of `CHOKE` behind the length. -/
theorem getNextMsg_keepAlive (e : Env) :
    ∃ message size, getNextMsg e.stack (stackFrom (received keepAliveChunk) e)
      = some ⟨message, MsgID.choke.byte, size⟩ := by
  have hsize : (stackFrom (received keepAliveChunk) e).readInt + 4 = 4 := by
    rw [Mem.readInt, stackFrom_keepAlive e (by decide), stackFrom_keepAlive e (by decide),
      stackFrom_keepAlive e (by decide), stackFrom_keepAlive e (by decide)]
    rfl
  have hfits : ¬ ((4 : CInt).toInt < 0 ∨ e.stack < max 5 (4 : CInt).toNat) := by
    have hstack := e.bufsiz_le_stack
    have hint : (4 : CInt).toInt = 4 := rfl
    have hnat : (4 : CInt).toNat = 4 := rfl
    rw [bufsiz] at hstack
    omega
  rw [getNextMsg, hsize, stackFrom_keepAlive e (by decide), if_neg hfits]
  exact ⟨_, _, rfl⟩

/-- A keep-alive raises the flag, and the run that sees it goes ahead. -/
theorem receive_keepAlive (sha1 : List Byte → Digest) (ans : BtInfo) {ahead : Bool} {s t : Client}
    (h : Beside k ahead s t) (e : Env) :
    ∃ t' evs, receive sha1 ans t.clearBuffer k (.chunk keepAliveChunk) e = .ok (t', evs) ∧
      Beside k true s t' := by
  have hshort : ¬ (keepAliveChunk.bytes.length = fullHandshakeLength ∨
      keepAliveChunk.bytes.length = fullHandshakeLength + ans.bitfieldMsgLength) := by
    have hlen : keepAliveChunk.bytes.length = 4 := rfl
    rw [hlen, fullHandshakeLength]
    omega
  obtain ⟨hhandshake, hgreeting⟩ := not_or.mp hshort
  have hptr : Client.bufPtr { t.clearBuffer with
      buffer := t.clearBuffer.buffer.write 0 keepAliveChunk.bytes } e
      = stackFrom (received keepAliveChunk) e := rfl
  obtain ⟨message, size, hnext⟩ := getNextMsg_keepAlive e
  rw [receive, if_neg hhandshake, if_neg hgreeting, receiveMsg, hptr, hnext]
  refine ⟨_, _, rfl, ?_⟩
  show t.clearBuffer.modifyConn k (setFlag · .ownChoke 1) = _
  have hraise : (fun c => setFlag c .ownChoke 1)
      = fun c => { c with statusFlags := ownChoked c.statusFlags } := rfl
  rw [Beside] at h
  rw [hraise, h, Client.withFlags, modifyConn_modifyConn, if_pos rfl]
  cases ahead with
  | false => rfl
  | true =>
      simp only [if_true, ownChoked_ownChoked]
      rfl

/-- A message goes the same way in both runs; if it sets or clears the flag,
the runs are together again. -/
theorem receive_beside (sha1 : List Byte → Digest) (ans : BtInfo) {ahead : Bool} {s t : Client}
    (h : Beside k ahead s t) (c : Chunk) (e : Env) :
    (∃ stop, receive sha1 ans s.clearBuffer k (.chunk c) e = .error stop ∧
      receive sha1 ans t.clearBuffer k (.chunk c) e = .error stop) ∨
    ∃ s' t' evs, receive sha1 ans s.clearBuffer k (.chunk c) e = .ok (s', evs) ∧
      receive sha1 ans t.clearBuffer k (.chunk c) e = .ok (t', evs) ∧
      Beside k (ahead && (ownChokeSet sha1 ans k c e).isNone) s' t' ∧
      (s'.connections k).flag .ownChoke
        = (ownChokeSet sha1 ans k c e).getD ((s.connections k).flag .ownChoke) := by
  have hfollows : Follows k (ownChokeSet sha1 ans k c e) fun b =>
      receive sha1 ans (s.clearBuffer.withFlags k b) k (.chunk c) e := follows_receive c rfl
  obtain ⟨change, r, hmoves, hbranch⟩ := hfollows
  dsimp only at hbranch
  have hplain := hbranch (s.connections k).statusFlags
  have hself : s.clearBuffer.withFlags k (s.connections k).statusFlags = s.clearBuffer :=
    withFlags_self s.clearBuffer k
  rw [hself] at hplain
  rw [Beside] at h
  rw [h, hbranch, hplain]
  cases r with
  | error stop => exact .inl ⟨stop, rfl, rfl⟩
  | ok r =>
      refine .inr ⟨_, _, _, rfl, rfl, ?_, ?_⟩
      · rw [Beside, clearBuffer_withFlags, clearBuffer_withFlags, withFlags_withFlags,
          statusFlags_withFlags]
        cases ahead with
        | false => rfl
        | true =>
            rw [if_pos rfl, hmoves.change_ownChoked]
            cases ownChokeSet sha1 ans k c e <;> rfl
      · rw [ownChoke_eq, ownChoke_eq, statusFlags_withFlags, hmoves.ownChoke]

theorem settled_keepAlive {e : Env} {its : List Item} :
    Settled sha1 ans k (.keepAlive e :: its) ↔ Settled sha1 ans k its := by
  simp [Settled]

theorem settled_message {c : Chunk} {e : Env} {its : List Item} :
    Settled sha1 ans k (.message c e :: its) ↔
      (ownChokeSet sha1 ans k c e).isSome = true ∨ Settled sha1 ans k its := by
  simp only [Settled, List.mem_cons, Item.message.injEq]
  constructor
  · rintro ⟨c', e', ⟨rfl, rfl⟩ | hmem, hset⟩
    · exact .inl hset
    · exact .inr ⟨c', e', hmem, hset⟩
  · rintro (hset | ⟨c', e', hmem, hset⟩)
    · exact ⟨c, e, .inl ⟨rfl, rfl⟩, hset⟩
    · exact ⟨c', e', .inr hmem, hset⟩

/-- The condition along the runs: a run that is ahead must not stay so. -/
def Meets (sha1 : List Byte → Digest) (ans : BtInfo) (k : Nat) (ahead choked : Bool)
    (its : List Item) : Prop :=
  (ahead = true → choked = true ∨ Settled sha1 ans k its) ∧ Unnoticed sha1 ans k choked its

theorem meets_keepAlive {ahead choked : Bool} {e : Env} {its : List Item} :
    Meets sha1 ans k ahead choked (.keepAlive e :: its) ↔ Meets sha1 ans k true choked its := by
  rw [Meets, Meets, settled_keepAlive]
  constructor
  · rintro ⟨-, hhere, hlater⟩
    exact ⟨fun _ => hhere, hlater⟩
  · rintro ⟨hhere, hlater⟩
    exact ⟨fun _ => hhere rfl, hhere rfl, hlater⟩

theorem meets_message {ahead choked : Bool} {c : Chunk} {e : Env} {its : List Item} :
    Meets sha1 ans k ahead choked (.message c e :: its) ↔
      Meets sha1 ans k (ahead && (ownChokeSet sha1 ans k c e).isNone)
        ((ownChokeSet sha1 ans k c e).getD choked) its := by
  rw [Meets, Meets, settled_message, Unnoticed]
  cases ownChokeSet sha1 ans k c e with
  | none => simp
  | some v => simp

theorem handleItems_ok {it : Item} {its : List Item} {s s' : Client} {evs : List Event}
    (h : receive sha1 ans s.clearBuffer k (.chunk it.chunk) it.env = .ok (s', evs)) :
    handleItems sha1 ans k s (it :: its) = handleItems sha1 ans k s' its := by
  rw [handleItems, h]

theorem handleItems_error {it : Item} {its : List Item} {s : Client} {stop : Stop}
    (h : receive sha1 ans s.clearBuffer k (.chunk it.chunk) it.env = .error stop) :
    handleItems sha1 ans k s (it :: its) = .error stop := by
  rw [handleItems, h]

/-- Two runs that are together, or apart by the flag, meet at the end exactly
under the condition. By induction over the items. -/
theorem handleItems_beside (sha1 : List Byte → Digest) (ans : BtInfo) :
    ∀ (its : List Item) {ahead : Bool} {s t : Client}, Beside k ahead s t →
      (∃ stop, handleItems sha1 ans k s (its.filter Item.isMessage) = .error stop ∧
        handleItems sha1 ans k t its = .error stop) ∨
      ∃ s' t', handleItems sha1 ans k s (its.filter Item.isMessage) = .ok s' ∧
        handleItems sha1 ans k t its = .ok t' ∧
        (t'.connections k = s'.connections k ↔
          Meets sha1 ans k ahead ((s.connections k).flag .ownChoke) its) := by
  intro its
  induction its with
  | nil =>
      intro ahead s t h
      refine .inr ⟨s, t, rfl, rfl, ?_⟩
      have hmeets : Meets sha1 ans k ahead ((s.connections k).flag .ownChoke) [] ↔
          (ahead = true → (s.connections k).flag .ownChoke = true) := by
        simp [Meets, Settled, Unnoticed]
      rw [hmeets, connections_beside h, ownChoke_eq]
      cases ahead with
      | false => simp
      | true =>
          rw [if_pos rfl, ← ownChoked_eq_self_iff]
          constructor
          · intro hsame _
            exact congrArg Connections.statusFlags hsame
          · intro hsame
            rw [hsame rfl]
  | cons it its ih =>
      intro ahead s t h
      cases it with
      | keepAlive e =>
          obtain ⟨t1, evs, hreceive, hbeside⟩ := receive_keepAlive sha1 ans h e
          have hskip : (Item.keepAlive e :: its).filter Item.isMessage
            = its.filter Item.isMessage := rfl
          rw [hskip, handleItems_ok hreceive, meets_keepAlive]
          exact ih hbeside
      | message c e =>
          have hkeep : (Item.message c e :: its).filter Item.isMessage
            = .message c e :: its.filter Item.isMessage := rfl
          rw [hkeep]
          rcases receive_beside sha1 ans h c e with
            ⟨stop, hs, ht⟩ | ⟨s1, t1, evs, hs, ht, hbeside, hflag⟩
          · exact .inl ⟨stop, handleItems_error hs, handleItems_error ht⟩
          · rw [handleItems_ok hs, handleItems_ok ht, meets_message, ← hflag]
            exact ih hbeside

end Runs

theorem beside_self (k : Nat) (s : Client) : Beside k false s s :=
  (withFlags_self s.clearBuffer k).symm

/-- **When keep-alives are neutral.** Whatever the record and the messages,
keep-alives between them neither cause nor prevent an end of the process; and
where the messages are handled, the record is the same with and without them
exactly when they go unnoticed. -/
theorem keepAlives_neutral_iff (sha1 : List Byte → Digest) (ans : BtInfo) (k : Nat) (s : Client)
    (its : List Item) :
    (∀ stop, handleItems sha1 ans k s (its.filter Item.isMessage) = .error stop →
      handleItems sha1 ans k s its = .error stop) ∧
    ∀ s', handleItems sha1 ans k s (its.filter Item.isMessage) = .ok s' →
      ∃ t', handleItems sha1 ans k s its = .ok t' ∧
        (t'.connections k = s'.connections k ↔
          Unnoticed sha1 ans k ((s.connections k).flag .ownChoke) its) := by
  have hmeets : Meets sha1 ans k false ((s.connections k).flag .ownChoke) its ↔
      Unnoticed sha1 ans k ((s.connections k).flag .ownChoke) its := by
    simp [Meets]
  rw [← hmeets]
  rcases handleItems_beside sha1 ans its (beside_self k s) with
    ⟨stop, hplain, hrun⟩ | ⟨s1, t1, hplain, hrun, hrecord⟩
  · refine ⟨?_, ?_⟩
    · intro stop' hstop
      rwa [hplain, ← hrun] at hstop
    · intro s' hs'
      cases hplain.symm.trans hs'
  · refine ⟨?_, ?_⟩
    · intro stop hstop
      cases hplain.symm.trans hstop
    · intro s' hs'
      cases hplain.symm.trans hs'
      exact ⟨t1, hrun, hrecord⟩

/-- The record of slot 1 when its peer has just sent `UNCHOKE`. -/
def unchoked : Client := (joined eightPieces).withFlags 1 0

def unchokeChunk : Chunk := ⟨constructStateMessage MsgID.unchoke.byte, by decide, by decide⟩

/-- A keep-alive before another `UNCHOKE`. -/
theorem keepAlives_neutral_iff_unchoke :
    ∃ s' t', handleItems (fun _ => ⟨List.replicate 20 0, rfl⟩) eightPieces 1 unchoked
        [.message unchokeChunk .calm] = .ok s' ∧
      handleItems (fun _ => ⟨List.replicate 20 0, rfl⟩) eightPieces 1 unchoked
        [.keepAlive .calm, .message unchokeChunk .calm] = .ok t' ∧
      t'.connections 1 = s'.connections 1 := by
  obtain ⟨s', hs'⟩ : ∃ s', handleItems (fun _ => ⟨List.replicate 20 0, rfl⟩) eightPieces 1 unchoked
      [.message unchokeChunk .calm] = .ok s' := ⟨_, rfl⟩
  obtain ⟨t', ht', hrecord⟩ := (keepAlives_neutral_iff _ eightPieces 1 unchoked
    [.keepAlive .calm, .message unchokeChunk .calm]).2 s' hs'
  refine ⟨s', t', hs', ht', hrecord.mpr ⟨.inr ⟨unchokeChunk, .calm, ?_, rfl⟩, trivial⟩⟩
  exact List.mem_singleton.mpr rfl

/-- A keep-alive behind an `UNCHOKE`: the client takes itself to be choked
again. -/
theorem keepAlives_choke :
    ¬ ∀ (sha1 : List Byte → Digest) (ans : BtInfo) (k : Nat) (s s' t' : Client) (its : List Item),
      handleItems sha1 ans k s (its.filter Item.isMessage) = .ok s' →
      handleItems sha1 ans k s its = .ok t' → t'.connections k = s'.connections k := by
  intro hclaim
  obtain ⟨t', evs, hreceive, hbeside⟩ := receive_keepAlive (fun _ => ⟨List.replicate 20 0, rfl⟩)
    eightPieces (beside_self 1 unchoked) .calm
  have hsame := hclaim _ eightPieces 1 unchoked unchoked t' [.keepAlive .calm] rfl
    (handleItems_ok hreceive)
  rw [connections_beside hbeside] at hsame
  exact absurd (congrArg Connections.statusFlags hsame) (by decide)

end DubstepDucks.Torrent
