import DubstepDucks.Torrent.Chunks
import DubstepDucks.Torrent.Isolation
import DubstepDucks.Torrent.Protocol

/-!
# Torrent — piece indices off the wire

Three messages carry a piece index. A `HAVE` addresses the peer's bitfield
with it at once; an accepted `PIECE` seeks and writes at its offset at once;
a `REQUEST` stores it in `piece_to_send`, and a later send turn seeks and
reads there. None of the three compares it with the number of pieces: the
send turn only looks at its sign. `UsesIndex` says what a pass does with an
index, and `indices_in_file` for which messages that stays inside the file.
-/

namespace DubstepDucks.Torrent

open CMem Btp History

/-- A piece of the file. -/
def InFile (ans : BtInfo) (p : CInt) : Prop := 0 ≤ p.toInt ∧ p.toInt < ans.numPieces

/-- What `get_next_msg` makes of a `recv`, where the message branch gets it. -/
def nextIn (ans : BtInfo) (s : Client) (r : Recv) (e : Env) : Option NextMsg :=
  match r with
  | .error | .closed => none
  | .chunk c =>
      if c.bytes.length = fullHandshakeLength ∨
          c.bytes.length = fullHandshakeLength + ans.bitfieldMsgLength then none
      else getNextMsg e.stack (Client.bufPtr { s with buffer := s.buffer.write 0 c.bytes } e)

/-- The message that the switch sees. -/
def heardIn (ans : BtInfo) (s : Client) (r : Recv) (e : Env) : Option Heard :=
  (nextIn ans s r e).map fun n =>
    heardOf (MsgID.ofByte n.msgID) ((Mem.of n.message e.behindMsg).advance 5).readInt

/-- `verify_piece` gets the block of the message and accepts it. -/
def AcceptedIn (sha1 : List Byte → Digest) (ans : BtInfo) (s : Client) (k : Nat) (r : Recv)
    (e : Env) : Prop :=
  ∃ c n expected, r = .chunk c ∧ nextIn ans s r e = some n ∧ ans.pieceLength ≤ e.room ∧
    ans.hashAt (k * 20) e = some expected ∧
    let s := { s with buffer := s.buffer.write 0 c.bytes }
    verifyPiece sha1 e.stack (pieceBuffer ans s (Mem.of n.message e.behindMsg) e) expected
      e.thirdArg = some true

/-! ## What an index is used for -/

/-- The client with the block `bits` behind the peer bitfield of slot `k`,
and its scratch cell in place. -/
def Client.withBlock (s : Client) (k : Nat) (bits : List Byte) : Client :=
  { s.modifyConn k (fun c => { c with peerBitfield := some bits }) with testFreed := false }

/-- The pass addresses byte `b` of the peer's bitfield: whatever block is
there, the pass writes outside it exactly if the block has no such byte.
Where a stray write kills the process, that is seen by its end. -/
def AddressesByte (sha1 : List Byte → Digest) (ans : BtInfo) (s : Client) (k : Nat) (r : Recv)
    (e : Env) (b : Int) : Prop :=
  ∀ bits : List Byte,
    receive sha1 ans (s.withBlock k bits) k r { e with smash := none } = .error .fault ↔
      ¬ (0 ≤ b ∧ b < bits.length)

/-- The pass seeks to `off` and writes there: it exits on a descriptor that
cannot be seeked, and where it returns, the file is written at `off`. -/
def WritesAt (sha1 : List Byte → Digest) (ans : BtInfo) (s : Client) (k : Nat) (r : Recv)
    (e : Env) (off : Int) : Prop :=
  receive sha1 ans { s with file := none } k r e = .error .exit ∧
    ∀ content s1 evs, receive sha1 ans { s with file := some content } k r e = .ok (s1, evs) →
      0 ≤ off ∧ ∃ bytes, s1.file = some (fileWrite content off.toNat bytes)

/-- The send turn seeks to `off` and reads a piece there: it exits on a
descriptor that cannot be seeked, and returns only if the file has the bytes
of a piece from `off` on. -/
def ReadsAt (ans : BtInfo) (s : Client) (k : Nat) (off : Int) : Prop :=
  (∀ e, serve ans { s with file := none } k e = .error .exit) ∧
    ∀ content e s1 evs, serve ans { s with file := some content } k e = .ok (s1, evs) →
      0 ≤ off ∧ off.toNat + ans.pieceLength ≤ content.length

/-- The pass for slot `k` addresses the peer's bitfield, writes to the file
or reads from it with the index `p`. -/
inductive UsesIndex (sha1 : List Byte → Digest) (ans : BtInfo) (s : Client) (k : Nat) (r : Recv)
    (e : Env) : CInt → Prop where
  | «have» {p} : heardIn ans s r e = some (.have p) →
      AddressesByte sha1 ans s k r e (p.toInt.tdiv 8) → UsesIndex sha1 ans s k r e p
  | piece {p} : heardIn ans s r e = some (.piece p) →
      WritesAt sha1 ans s k r e (p * ans.pieceSizeBytes).toInt → UsesIndex sha1 ans s k r e p
  | upload {s1 evs} : receive sha1 ans s k r e = .ok (s1, evs) → ReachesUpload s1 k →
      ReadsAt ans s1 k ((s1.connections k).pieceToSend * ans.pieceSizeBytes).toInt →
      UsesIndex sha1 ans s k r e (s1.connections k).pieceToSend

/-- The index a message carries. -/
def Heard.index : Heard → Option CInt
  | .have p | .request p | .piece p => some p
  | _ => none

/-- The bitfields and the file are as they were. -/
def LeavesData (s s1 : Client) : Prop :=
  (∀ j, (s1.connections j).peerBitfield = (s.connections j).peerBitfield) ∧
    s1.file = s.file ∧ s1.ownBitfield = s.ownBitfield

/-- **Indices are checked**, in the pass for slot `k` from `s`: they are used
for pieces of the file only, and a message with any other index changes
neither a bitfield nor the file, and makes the client read no piece. -/
def ChecksIndices (sha1 : List Byte → Digest) (ans : BtInfo) (s : Client) (k : Nat) (r : Recv)
    (e : Env) : Prop :=
  (∀ p, UsesIndex sha1 ans s k r e p → InFile ans p) ∧
    ∀ m p, heardIn ans s r e = some m → m.index = some p → ¬ InFile ans p →
      ∀ s1 evs, receive sha1 ans s k r e = .ok (s1, evs) →
        LeavesData s s1 ∧ ¬ (ReachesUpload s1 k ∧ (s1.connections k).pieceToSend = p)

/-- The message received in the pass carries a harmless index: a `HAVE` is
for a piece of the file, a `PIECE` that is accepted too, and a `REQUEST` is
not for a piece behind its end. -/
def Harmless (sha1 : List Byte → Digest) (ans : BtInfo) (s : Client) (k : Nat) (r : Recv)
    (e : Env) : Prop :=
  ∀ m, heardIn ans s r e = some m →
    match m with
    | .have p => InFile ans p
    | .request p => p.toInt < ans.numPieces
    | .piece p => AcceptedIn sha1 ans s k r e → InFile ans p
    | _ => True

/-! ## What a pass hears -/

section Passes

variable {sha1 : List Byte → Digest} {ans : BtInfo} {s s1 : Client} {k : Nat} {e : Env}
  {evs : List Event}

/-- Whatever a pass logs as heard is what the switch saw. -/
theorem receive_heard {r : Recv} {j : Nat} {chunk : List Byte} {m : Heard}
    (h : receive sha1 ans s k r e = .ok (s1, evs)) (hmem : .heard j chunk m ∈ evs) :
    heardIn ans s r e = some m := by
  cases r with
  | error =>
      cases h
      simp at hmem
  | closed =>
      cases h
      simp at hmem
  | chunk c =>
      rw [receive] at h
      split at h
      · obtain ⟨s2, -, -, rfl⟩ := greet_ok h
        simp at hmem
      · next hhandshake =>
        split at h
        · obtain ⟨s2, s3, evs3, bits, f, -, -, hsend, -, rfl⟩ := greetWithBitfield_ok h
          rw [(transmit_ok hsend).2] at hmem
          simp at hmem
        · next hgreeting =>
          have hbranch : ∀ b, nextIn ans s (.chunk c) e = b ↔ getNextMsg e.stack
              (Client.bufPtr { s with buffer := s.buffer.write 0 c.bytes } e) = b := by
            intro b
            rw [nextIn, if_neg (by omega)]
          obtain ⟨n, hnext, evs1, rfl, hafter⟩ := receiveMsg_events h
          rw [heardIn, (hbranch _).mpr hnext, Option.map_some]
          rcases List.mem_cons.mp hmem with heq | hmem
          · cases heq
            rfl
          · rcases hafter _ hmem with ⟨own, hev⟩ | ⟨p, block, written, shift, hev⟩ <;> cases hev

theorem heardOf_have {id : Option MsgID} {index p : CInt} (h : heardOf id index = .have p) :
    id = some .have ∧ index = p := by
  cases id with
  | none => cases h
  | some id =>
      cases id with
      | «have» =>
          cases h
          exact ⟨rfl, rfl⟩
      | _ => cases h

theorem heardOf_piece {id : Option MsgID} {index p : CInt} (h : heardOf id index = .piece p) :
    id = some .piece ∧ index = p := by
  cases id with
  | none => cases h
  | some id =>
      cases id with
      | piece =>
          cases h
          exact ⟨rfl, rfl⟩
      | _ => cases h

/-- The chunk goes to the message branch. -/
theorem receive_of_next (sha1 : List Byte → Digest) (k : Nat) {c : Chunk} {n : NextMsg}
    (hnext : nextIn ans s (.chunk c) e = some n) :
    receive sha1 ans s k (.chunk c) e
      = receiveMsg sha1 ans { s with buffer := s.buffer.write 0 c.bytes } k c.bytes e ∧
    getNextMsg e.stack (Client.bufPtr { s with buffer := s.buffer.write 0 c.bytes } e)
      = some n := by
  rw [nextIn] at hnext
  split at hnext
  · cases hnext
  · next hlen =>
    obtain ⟨hhandshake, hgreeting⟩ := not_or.mp hlen
    exact ⟨by rw [receive, if_neg hhandshake, if_neg hgreeting], hnext⟩

/-- A pass that hears a `HAVE`. -/
theorem receive_heardHave (sha1 : List Byte → Digest) (k : Nat) {r : Recv} {p : CInt}
    (h : heardIn ans s r e = some (.have p)) :
    ∃ c : Chunk, receive sha1 ans s k r e
      = (handleHave { s with buffer := s.buffer.write 0 c.bytes } k p e).map
          fun r => (r.1, .heard k c.bytes (.have p) :: r.2) := by
  obtain ⟨n, hnext, hheard⟩ := Option.map_eq_some_iff.mp h
  obtain ⟨hid, rfl⟩ := heardOf_have hheard
  cases r with
  | error => cases hnext
  | closed => cases hnext
  | chunk c =>
      obtain ⟨hbranch, hmsg⟩ := receive_of_next sha1 k hnext
      refine ⟨c, ?_⟩
      rw [hbranch, receiveMsg, hmsg]
      dsimp only
      rw [hid]

/-- A pass that hears a `PIECE`. -/
theorem receive_heardPiece {c : Chunk} {n : NextMsg} (hnext : nextIn ans s (.chunk c) e = some n)
    (hid : MsgID.ofByte n.msgID = some .piece) :
    receive sha1 ans s k (.chunk c) e
      = (handlePiece sha1 ans { s with buffer := s.buffer.write 0 c.bytes } k
          (Mem.of n.message e.behindMsg) e).map fun r =>
            (r.1, .heard k c.bytes
              (.piece ((Mem.of n.message e.behindMsg).advance 5).readInt) :: r.2) := by
  obtain ⟨hbranch, hmsg⟩ := receive_of_next sha1 k hnext
  rw [hbranch, receiveMsg, hmsg]
  dsimp only
  rw [hid]

/-! ## What a pass addresses -/

/-- `case(HAVE)` addresses the byte of its index, whatever the index is. -/
theorem addressesByte_have {r : Recv} {p : CInt}
    (h : heardIn ans s r e = some (.have p)) :
    AddressesByte sha1 ans s k r e (p.toInt.tdiv 8) := by
  intro bits
  have hheard : heardIn ans (s.withBlock k bits) r { e with smash := none } = some (.have p) := h
  obtain ⟨c, hreceive⟩ := receive_heardHave sha1 k hheard
  have hrecord : (({ s.withBlock k bits with
      buffer := (s.withBlock k bits).buffer.write 0 c.bytes } : Client).connections k).peerBitfield
        = some bits := by
    show ((s.modifyConn k fun c => { c with peerBitfield := some bits }).connections k).peerBitfield
      = _
    rw [Client.modifyConn]
    exact congrArg Connections.peerBitfield (if_pos rfl)
  rw [hreceive, handleHave, hrecord]
  dsimp only
  by_cases hin : 0 ≤ p.toInt.tdiv 8 ∧ p.toInt.tdiv 8 < bits.length
  · -- the byte is there, and `test` is freed for the first time
    rw [setHave, if_pos hin]
    have hfirst : (s.withBlock k bits).testFreed = false := rfl
    simp only [hfirst]
    exact iff_of_false (fun hfault => by cases hfault) (fun hout => hout hin)
  · rw [setHave, if_neg hin]
    exact iff_of_true rfl hin

/-- An accepted block is written to the file: the handler exits where the
descriptor cannot be seeked, and otherwise writes at the offset of its index.
A bit of the own bitfield is set, and no other bitfield changes. -/
theorem handlePiece_writes (msg : Mem) {expected : Digest} (hroom : ans.pieceLength ≤ e.room)
    (hexpected : ans.hashAt (k * 20) e = some expected)
    (hverify : verifyPiece sha1 e.stack (pieceBuffer ans s msg e) expected e.thirdArg
      = some true) :
    (s.file = none → handlePiece sha1 ans s k msg e = .error .exit) ∧
      ∀ s1 evs, handlePiece sha1 ans s k msg e = .ok (s1, evs) →
        (∃ content bytes, s.file = some content ∧
          0 ≤ ((msg.advance 5).readInt * ans.pieceSizeBytes).toInt ∧
          s1.file = some (fileWrite content
            ((msg.advance 5).readInt * ans.pieceSizeBytes).toNat bytes)) ∧
        ∃ v, e.load (clobber e.heapPtr (msg.advance 5).readInt) = some v ∧
          s1.ownBitfield = setOwn s.ownBitfield v ∧
          (s1.connections k).peerBitfield = (s.connections k).peerBitfield := by
  rw [handlePiece]
  dsimp only
  rw [if_neg (Nat.not_lt.mpr hroom), hexpected]
  dsimp only
  rw [hverify, setWidth_clobber]
  dsimp only
  constructor
  · intro hfile
    rw [hfile]
    rfl
  · intro s1 evs hok
    split at hok
    · cases hok
    next w hwrite =>
    split at hok
    · cases hok
    next v hload =>
    cases hok
    obtain ⟨content, hfile, hoff, hw⟩ := writePiece_ok hwrite
    refine ⟨⟨content, w.bytes, hfile, hoff, congrArg some hw⟩, v, hload, rfl, ?_⟩
    rw [modifyConn_self]
    rfl

/-- `case(PIECE)` comes to the file exactly with a block that is accepted. -/
theorem writesAt_iff {r : Recv} {p : CInt} (h : heardIn ans s r e = some (.piece p)) :
    WritesAt sha1 ans s k r e (p * ans.pieceSizeBytes).toInt ↔ AcceptedIn sha1 ans s k r e := by
  obtain ⟨n, hnext, hheard⟩ := Option.map_eq_some_iff.mp h
  obtain ⟨hid, rfl⟩ := heardOf_piece hheard
  cases r with
  | error => cases hnext
  | closed => cases hnext
  | chunk c =>
      let msg := Mem.of n.message e.behindMsg
      -- the handler on the client with one file or another
      have hreceive : ∀ file, receive sha1 ans { s with file := file } k (.chunk c) e
          = (handlePiece sha1 ans { s with file := file, buffer := s.buffer.write 0 c.bytes } k msg
              e).map fun r => (r.1, .heard k c.bytes (.piece (msg.advance 5).readInt) :: r.2) :=
        fun file => receive_heardPiece (s := { s with file := file }) hnext hid
      constructor
      · rintro ⟨hexit, -⟩
        rw [hreceive, handlePiece] at hexit
        dsimp only at hexit
        split at hexit
        · cases hexit
        next hroom =>
        split at hexit
        · cases hexit
        next expected hexpected =>
        split at hexit
        · cases hexit
        · cases hexit
        next hverify =>
        exact ⟨c, n, expected, rfl, hnext, Nat.not_lt.mp hroom, hexpected, hverify⟩
      · rintro ⟨c', n', expected, hc, hnext', hroom, hexpected, hverify⟩
        cases hc
        obtain rfl : n = n' := Option.some.inj (hnext.symm.trans hnext')
        have hwrites := fun file => handlePiece_writes msg
          (s := { s with file := file, buffer := s.buffer.write 0 c.bytes }) hroom hexpected hverify
        refine ⟨by rw [hreceive, (hwrites none).1 rfl]; rfl, ?_⟩
        intro content s1 evs hok
        rw [hreceive] at hok
        obtain ⟨⟨s2, evs2⟩, hstep, heq⟩ := map_ok hok
        cases heq
        obtain ⟨⟨content', bytes, hfile, hoff, hs2⟩, -⟩ := (hwrites (some content)).2 s2 evs2 hstep
        cases hfile
        have hnat : ((msg.advance 5).readInt * ans.pieceSizeBytes).toInt.toNat
            = ((msg.advance 5).readInt * ans.pieceSizeBytes).toNat := by
          rw [toInt_eq_of_nonneg hoff]
          rfl
        exact ⟨hoff, bytes, by rw [hnat]; exact hs2⟩

/-- The send turn that uploads reads at the offset of the stored index. -/
theorem readsAt_upload (hupload : ReachesUpload s k) :
    ReadsAt ans s k ((s.connections k).pieceToSend * ans.pieceSizeBytes).toInt := by
  have hserve : ∀ file e, serve ans { s with file := file } k e
      = uploadPiece ans { s with file := file } k (s.connections k).pieceToSend e := by
    intro file e
    obtain ⟨hready, hinterested, hunchoked, hfree, hasked⟩ := hupload
    have hpriority : (!(s.connections k).flag .ownInterested
        || (s.connections k).flag .pendingRequest) = true := by
      rcases hfree with h | h <;> simp [h]
    rw [serve]
    dsimp only
    rw [hready, hinterested, hpriority, hunchoked]
    exact if_pos hasked
  refine ⟨fun e => by rw [hserve]; rfl, ?_⟩
  intro content e s1 evs hok
  rw [hserve] at hok
  obtain ⟨piece, s2, evs2, evs3, hread, -⟩ := uploadPiece_ok hok
  obtain ⟨content', hcontent, hoff, hwhole⟩ := readPiece_ok hread
  cases hcontent
  have hpositive := ans.pieceLength_pos
  rw [toNat_pieceSizeBytes] at hwhole
  have hnat := toInt_eq_of_nonneg hoff
  exact ⟨hoff, by omega⟩

/-- **What an index is used for**: a `HAVE` is used whatever its index is, a
`PIECE` when its block is accepted, and a stored index when the send turn
uploads. -/
theorem usesIndex_iff {r : Recv} {p : CInt} :
    UsesIndex sha1 ans s k r e p ↔
      heardIn ans s r e = some (.have p) ∨
        (heardIn ans s r e = some (.piece p) ∧ AcceptedIn sha1 ans s k r e) ∨
        ∃ s1 evs, receive sha1 ans s k r e = .ok (s1, evs) ∧ ReachesUpload s1 k ∧
          (s1.connections k).pieceToSend = p := by
  constructor
  · rintro (⟨hheard, -⟩ | ⟨hheard, hwrites⟩ | ⟨h, hupload, -⟩)
    · exact .inl hheard
    · exact .inr (.inl ⟨hheard, (writesAt_iff hheard).mp hwrites⟩)
    · exact .inr (.inr ⟨_, _, h, hupload, rfl⟩)
  · rintro (hheard | ⟨hheard, haccepted⟩ | ⟨s1, evs, h, hupload, rfl⟩)
    · exact .have hheard (addressesByte_have hheard)
    · exact .piece hheard ((writesAt_iff hheard).mpr haccepted)
    · exact .upload h hupload (readsAt_upload hupload)

/-- What the message branch produces, by the case of the switch. -/
theorem observed_receive {c : Chunk} {n : NextMsg}
    (hnext : nextIn ans s (.chunk c) e = some n) :
    observed (receive sha1 ans s k (.chunk c) e)
      = observed (switch sha1 ans { s with buffer := s.buffer.write 0 c.bytes } k e
          (Mem.of n.message e.behindMsg) (MsgID.ofByte n.msgID)) := by
  obtain ⟨hbranch, hmsg⟩ := receive_of_next sha1 k hnext
  rw [hbranch]
  exact observed_receiveMsg c.bytes hmsg

theorem leavesData_of_observed {conns : Nat → Connections} {own : List Byte}
    {file : Option (List Byte)}
    (h : observed (.ok (s1, evs)) = .ok (conns, own, file))
    (hconns : ∀ j, (conns j).peerBitfield = (s.connections j).peerBitfield)
    (hown : own = s.ownBitfield) (hfile : file = s.file) : LeavesData s s1 := by
  have hall : (s1.connections, s1.ownBitfield, s1.file) = (conns, own, file) := Except.ok.inj h
  cases hall
  exact ⟨hconns, hfile, hown⟩

/-- A message whose index is harmless and yet outside the file leaves the
bitfields and the file alone. -/
theorem leavesData_of_harmless {r : Recv} {m : Heard} {p : CInt}
    (hharmless : Harmless sha1 ans s k r e) (hheard : heardIn ans s r e = some m)
    (hindex : m.index = some p) (hout : ¬ InFile ans p)
    (h : receive sha1 ans s k r e = .ok (s1, evs)) : LeavesData s s1 := by
  have hok := hharmless m hheard
  obtain ⟨n, hnext, hm⟩ := Option.map_eq_some_iff.mp hheard
  cases r with
  | error => cases hnext
  | closed => cases hnext
  | chunk c =>
      have hswitch : observed (receive sha1 ans s k (.chunk c) e) = _ := observed_receive hnext
      rw [h] at hswitch
      have hid : m = .request p ∧ MsgID.ofByte n.msgID = some .request ∨
          m = .piece p ∧ MsgID.ofByte n.msgID = some .piece := by
        cases hcase : MsgID.ofByte n.msgID with
        | none =>
            rw [hcase] at hm
            subst hm
            cases hindex
        | some id =>
            rw [hcase] at hm
            subst hm
            cases id with
            | «have» =>
                cases hindex
                exact absurd hok hout
            | request =>
                cases hindex
                exact .inl ⟨rfl, rfl⟩
            | piece =>
                cases hindex
                exact .inr ⟨rfl, rfl⟩
            | _ => cases hindex
      rcases hid with ⟨-, hid⟩ | ⟨rfl, hid⟩ <;> rw [hid] at hswitch
      · refine leavesData_of_observed hswitch ?_ rfl rfl
        intro j
        show (if j = k then _ else _ : Connections).peerBitfield = _
        split <;> rfl
      · -- a block that is not accepted
        simp only [switch] at hswitch
        cases hpiece : handlePiece sha1 ans { s with buffer := s.buffer.write 0 c.bytes } k
            (Mem.of n.message e.behindMsg) e with
        | error stop =>
            rw [hpiece] at hswitch
            cases hswitch
        | ok result =>
            obtain ⟨s2, evs2⟩ := result
            obtain ⟨-, -, hfits, expected, verified, hexpected, hverified, -⟩ :=
              handlePiece_cases hpiece
            cases verified with
            | true =>
                exact absurd (hok ⟨c, n, expected, rfl, hnext, hfits, hexpected, hverified⟩) hout
            | false =>
                rw [handlePiece_rejects hfits hexpected hverified] at hswitch
                exact leavesData_of_observed hswitch (fun _ => rfl) rfl rfl

end Passes

/-! ## The stored index -/

/-- On a slot whose requests stay in the file, so does `piece_to_send`. -/
theorem pieceToSend_lt {ans : BtInfo} {v : View} {log : List Event} {k : Nat}
    (hadmits : (machine ans).Admits v log)
    (hstart : (v.records k).pieceToSend.toInt < ans.numPieces)
    (hrequests : ∀ (chunk : List Byte) (p : CInt), .heard k chunk (.request p) ∈ log →
      p.toInt < ans.numPieces) :
    (((machine ans).after v log).records k).pieceToSend.toInt < ans.numPieces := by
  apply hadmits.invariant (fun _ v => (v.records k).pieceToSend.toInt < ans.numPieces) hstart
  · intro pre ev hpre _ hinv
    show ((effect ((machine ans).after v pre) ev).records k).pieceToSend.toInt < _
    rcases pieceToSend_effect ((machine ans).after v pre) ev k with
      ⟨chunk, p, rfl, hp⟩ | ⟨chunk, -, hp⟩ | ⟨-, -, hp⟩ <;> rw [hp]
    · exact hrequests chunk p (hpre.subset (by simp))
    · have := ans.numPieces_pos
      have hminus : ((-1 : CInt)).toInt = -1 := by decide
      omega
    · exact hinv
  · exact List.prefix_rfl

/-- **Indices are checked**, as far as the messages keep to the file: in every
state that a run reaches in which no `REQUEST` on slot `k` is for a piece
behind the end of the file, a pass on the slot that receives a harmless index
uses pieces of the file only, and leaves everything alone otherwise. -/
theorem indices_in_file {sha1 : List Byte → Digest} {ans : BtInfo} {s₀ s : Client}
    {log : List Event} (k : Nat) (before : Connections)
    (hstart : s₀.connections k = initializeConnection before ans.numPieces)
    (hrun : Run sha1 ans s₀ log s)
    (hrequests : ∀ (chunk : List Byte) (p : CInt), .heard k chunk (.request p) ∈ log →
      p.toInt < ans.numPieces)
    (r : Recv) (e : Env) (hharmless : Harmless sha1 ans s k r e) :
    ChecksIndices sha1 ans s k r e := by
  have hstored : ∀ s1 evs, receive sha1 ans s k r e = .ok (s1, evs) →
      (s1.connections k).pieceToSend.toInt < ans.numPieces := by
    intro s1 evs h
    obtain ⟨hadmits, hview⟩ := (run_traced hrun).append (receive_traced h)
    have hinit : (s₀.view.records k).pieceToSend.toInt < ans.numPieces := by
      show (s₀.connections k).pieceToSend.toInt < _
      have := ans.numPieces_pos
      have hminus : (initializeConnection before ans.numPieces).pieceToSend.toInt = -1 := by rfl
      rw [hstart, hminus]
      omega
    have hall : ∀ (chunk : List Byte) (p : CInt), .heard k chunk (.request p) ∈ log ++ evs →
        p.toInt < ans.numPieces := by
      intro chunk p hmem
      rcases List.mem_append.mp hmem with hmem | hmem
      · exact hrequests chunk p hmem
      · exact hharmless _ (receive_heard h hmem)
    have hlast := pieceToSend_lt hadmits hinit hall
    rw [← hview] at hlast
    exact hlast
  have huses : ∀ p, UsesIndex sha1 ans s k r e p → InFile ans p := by
    intro p huse
    rcases usesIndex_iff.mp huse with hheard | ⟨hheard, haccepted⟩ | ⟨s1, evs, h, hupload, rfl⟩
    · exact hharmless _ hheard
    · exact hharmless _ hheard haccepted
    · exact ⟨hupload.asked, hstored _ _ h⟩
  refine ⟨huses, ?_⟩
  intro m p hheard hindex hout s1 evs h
  refine ⟨leavesData_of_harmless hharmless hheard hindex hout h, ?_⟩
  rintro ⟨hupload, rfl⟩
  exact hout (huses _ (usesIndex_iff.mpr (.inr (.inr ⟨s1, evs, h, hupload, rfl⟩))))

/-- A `HAVE` for the last of eight pieces. -/
theorem indices_in_file_last :
    ChecksIndices (fun _ => ⟨List.replicate 20 0, rfl⟩) eightPieces greeted 1
      (.msg (.have 7) (by decide)) .calm := by
  refine indices_in_file 1 .zeroed rfl (greeted_run _) (by simp) _ _ ?_
  intro m hm
  have hheard : heardIn eightPieces greeted (.msg (.have 7) (by decide)) .calm = some (.have 7) :=
    rfl
  obtain rfl : Heard.have 7 = m := Option.some.inj (hheard.symm.trans hm)
  exact ⟨by decide, by decide⟩

/-- A `HAVE` for a ninth piece: the byte behind the bitfield is addressed. -/
theorem indices_in_file_ninth :
    ¬ ∃ sha1 : List Byte → Digest, ∀ (ans : BtInfo) (s₀ s : Client) (log : List Event) (k : Nat)
      (before : Connections), s₀.connections k = initializeConnection before ans.numPieces →
      Run sha1 ans s₀ log s → ∀ (r : Recv) (e : Env), ChecksIndices sha1 ans s k r e := by
  rintro ⟨sha1, hclaim⟩
  have hchecks := hclaim eightPieces _ greeted [] 1 .zeroed rfl (greeted_run sha1)
    (.msg (.have 8) (by decide)) .calm
  have hheard : heardIn eightPieces greeted (.msg (.have 8) (by decide)) .calm = some (.have 8) :=
    rfl
  have hin := hchecks.1 8 (.have hheard (addressesByte_have hheard))
  exact absurd hin.2 (by decide)

end DubstepDucks.Torrent
