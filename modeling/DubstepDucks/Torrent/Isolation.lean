import DubstepDucks.Torrent.Selection

/-!
# Torrent — what a pass for one slot does to the others

One pass of the loop body is meant to concern one slot: no other record, no
other descriptor, and no way for a peer to end the process. Most ways through
the body keep to that. Those that do not are a handshake that fails its check
(`Verify_handshake` exits), a drop in a round in which the slot is ready for
output (the POLLOUT branch sends on the descriptor just closed), messages
that make a handler read or write outside its objects, a piece that is not in
the file, and a choice loop that stops at another slot. `ReceiveSafe` and
`ServeSafe` list them, for the state in which each part of the pass starts.
-/

namespace DubstepDucks.Torrent

open CMem Btp

/-- Nothing but slot `k` changed. -/
def SameOthers (k : Nat) (s s' : Client) : Prop :=
  ∀ j, j ≠ k → s'.connections j = s.connections j ∧ s'.fds j = s.fds j

/-! ## When the two parts of a pass are safe -/

/-- `case(PIECE)` returns: the block fits the buffer, the hash pointer and as
many bytes of the stack as the missing argument says can be read, and an
accepted block can be written and its pointer followed. -/
def PieceSafe (sha1 : List Byte → Digest) (ans : BtInfo) (s : Client) (k : Nat) (msg : Mem)
    (e : Env) : Prop :=
  let buffer := pieceBuffer ans s msg e
  let index := (msg.advance 5).readInt
  ans.pieceLength ≤ bufsiz ∧ ∃ expected verified, ans.hashAt (k * 20) e = some expected ∧
    verifyPiece sha1 e.stack buffer expected e.thirdArg = some verified ∧
    (verified = true →
      (∃ w, writePiece s.file index ans.pieceSizeBytes buffer e.room e.taken = .ok w) ∧
        ∃ v, e.load (clobber e.heapPtr index) = some v)

/-- The message at the front of the buffer can be handled: its length is not
negative and does not go beyond the stack, a `HAVE` names a bit of the
bitfield and is the first one, and a `BITFIELD` fits the one there is. -/
def MsgSafe (sha1 : List Byte → Digest) (ans : BtInfo) (s : Client) (k : Nat) (e : Env) : Prop :=
  match getNextMsg e.stack (s.bufPtr e) with
  | none => False
  | some n =>
      let msg := Mem.of n.message e.behindMsg
      match MsgID.ofByte n.msgID with
      | some .have => s.testFreed = false ∧
          ∃ bits bits', (s.connections k).peerBitfield = some bits ∧
          setHave bits (msg.advance 5).readInt = some bits'
      | some .bitfield => ∃ bits, (s.connections k).peerBitfield = some bits ∧
          ans.numPieces ≤ bits.length
      | some .piece => PieceSafe sha1 ans s k msg e
      | _ => True

/-- The receive part of the pass for slot `k` is safe: a handshake passes
its check, a message can be handled, and a drop finds the slot not ready for
output. -/
def ReceiveSafe (sha1 : List Byte → Digest) (ans : BtInfo) (s : Client) (k : Nat) (r : Recv)
    (e : Env) : Prop :=
  match r with
  | .error => True
  | .closed => (s.fds k).revents = false
  | .chunk c =>
      let s := { s with buffer := s.buffer.write 0 c.bytes }
      if c.bytes.length = fullHandshakeLength ∨
          c.bytes.length = fullHandshakeLength + ans.bitfieldMsgLength then
        verifyHandshake (s.bufPtr e) fileSha e.freshByte = 0
      else MsgSafe sha1 ans s k e

/-- The choice loop, run in the turn of slot `k`, stops at slot `k`. -/
structure StopsAt (ans : BtInfo) (s : Client) (k : Nat) (e : Env) : Prop where
  bitfields : ∀ m, m < k → (s.connections m).peerBitfield ≠ none
  passed : ∀ m, m < k → wants s e m = false
  inFile : k ≤ ans.numPieces
  stops : k < ans.numPieces → wants s e k = true

/-- The send part of the pass for slot `k` is safe: the piece to upload is in
the file and has a NUL for `strcpy` to stop at, there is a bitfield to
compare, and a request goes to slot `k`. -/
structure ServeSafe (ans : BtInfo) (s : Client) (k : Nat) (e : Env) : Prop where
  upload : ReachesUpload s k → ∃ piece, getPieceFromFile s.file (s.connections k).pieceToSend
    ans.pieceSizeBytes e.freshBlock = .ok piece ∧ piece.overflow = false
  bitfield : (s.fds k).revents = true → (s.connections k).flag .pendingRequest = false →
    (s.connections k).flag .peerInterested = false ∨ (s.connections k).flag .ownInterested = true →
    (s.connections k).peerBitfield ≠ none
  request : ReachesRequest ans s k e → StopsAt ans s k e

section Parts

variable {sha1 : List Byte → Digest} {ans : BtInfo} {s s' s'' : Client} {k : Nat} {e : Env}

/-- The result is a state in which only the record of slot `k` differs. -/
def Keeps (k : Nat) (s : Client) (result : Except Stop (Client × List Event)) : Prop :=
  ∃ s' evs, result = .ok (s', evs) ∧ (∀ j, j ≠ k → s'.connections j = s.connections j) ∧
    s'.fds = s.fds

theorem modifyConn_self (s : Client) (k : Nat) (f : Connections → Connections) :
    (s.modifyConn k f).connections k = f (s.connections k) := by
  rw [Client.modifyConn]
  exact if_pos rfl

theorem modifyConn_others (s : Client) (k : Nat) (f : Connections → Connections) :
    ∀ j, j ≠ k → (s.modifyConn k f).connections j = s.connections j := by
  intro j hj
  rw [Client.modifyConn]
  exact if_neg hj

theorem Keeps.modifyConn (s : Client) (k : Nat) (f : Connections → Connections)
    (evs : List Event) : Keeps k s (.ok (s.modifyConn k f, evs)) :=
  ⟨_, evs, rfl, modifyConn_others s k f, rfl⟩

/-- Only the connections and the descriptors of the state before matter. -/
theorem Keeps.congr {r : Client} {result : Except Stop (Client × List Event)}
    (h : Keeps k r result) (hconnections : r.connections = s.connections)
    (hfds : r.fds = s.fds) : Keeps k s result := by
  obtain ⟨s', evs, hok, hothers, hsame⟩ := h
  rw [hconnections] at hothers
  rw [hfds] at hsame
  exact ⟨s', evs, hok, hothers, hsame⟩

theorem Keeps.map {result : Except Stop (Client × List Event)} (h : Keeps k s result)
    (g : List Event → List Event) : Keeps k s (result.map fun r => (r.1, g r.2)) := by
  obtain ⟨s', evs, rfl, hothers, hfds⟩ := h
  exact ⟨s', g evs, rfl, hothers, hfds⟩

/-- A send on an open descriptor that succeeds. -/
theorem transmit_of_open (turn : Nat) (f : Connections → Connections × WireMsg)
    (hopen : 0 ≤ (s.fds k).fd) (hsend : e.sendOk = true) :
    s.transmit turn k f e
      = .ok (s.modifyConn k fun c => (f c).1, [.sent turn k (f (s.connections k)).2]) := by
  rw [Client.transmit, if_neg]
  rintro (hclosed | hfailed)
  · omega
  · rw [hsend] at hfailed
    cases hfailed

/-! ## The receive part -/

theorem greet_keeps {chunk : List Byte} (hopen : 0 ≤ (s.fds k).fd) (hsend : e.sendOk = true)
    (hcheck : verifyHandshake (s.bufPtr e) fileSha e.freshByte = 0) :
    Keeps k s (greet ans s k chunk e) := by
  rw [greet, checkHandshake, if_neg (by rw [hcheck]; decide)]
  dsimp only
  rw [if_neg]
  · exact ⟨_, _, rfl, fun _ _ => rfl, rfl⟩
  · rintro (hclosed | hfailed)
    · exact absurd hopen (Int.not_le.mpr hclosed)
    · rw [hsend] at hfailed
      cases hfailed

theorem greetWithBitfield_keeps {chunk : List Byte} (hopen : 0 ≤ (s.fds k).fd)
    (hsend : e.sendOk = true) (hcheck : verifyHandshake (s.bufPtr e) fileSha e.freshByte = 0) :
    Keeps k s (greetWithBitfield ans s k chunk e) := by
  rw [greetWithBitfield, checkHandshake, if_neg (by rw [hcheck]; decide)]
  dsimp only
  rw [transmit_of_open _ _ _ hsend]
  · refine ⟨_, _, rfl, ?_, rfl⟩
    intro j hj
    dsimp only [Client.clearBuffer]
    rw [modifyConn_others _ _ _ j hj, modifyConn_others _ _ _ j hj]
  · exact hopen

theorem handlePiece_keeps {msg : Mem} (h : PieceSafe sha1 ans s k msg e) :
    Keeps k s (handlePiece sha1 ans s k msg e) := by
  obtain ⟨hlen, expected, verified, hexpected, hverify, haccept⟩ := h
  have hroom := e.bufsiz_le_room
  rw [handlePiece]
  dsimp only
  rw [if_neg (by omega), hexpected]
  dsimp only
  rw [hverify]
  cases verified with
  | false => exact ⟨_, _, rfl, fun _ _ => rfl, rfl⟩
  | true =>
      obtain ⟨⟨w, hwrite⟩, v, hload⟩ := haccept rfl
      rw [setWidth_clobber, hwrite]
      dsimp only
      rw [hload]
      exact ⟨_, _, rfl, modifyConn_others _ k _, rfl⟩

theorem receiveMsg_keeps {chunk : List Byte} (h : MsgSafe sha1 ans s k e) :
    Keeps k s (receiveMsg sha1 ans s k chunk e) := by
  rw [MsgSafe] at h
  rw [receiveMsg]
  cases hnext : getNextMsg e.stack (s.bufPtr e) with
  | none =>
    rw [hnext] at h
    exact h.elim
  | some n =>
    rw [hnext] at h
    dsimp only at h ⊢
    split at h
    · next hid =>
      obtain ⟨hfirst, bits, bits', hbits, hset⟩ := h
      rw [hid]
      apply Keeps.map
      rw [handleHave, hbits]
      dsimp only
      rw [hset]
      dsimp only
      rw [hfirst]
      refine ⟨_, _, rfl, ?_, rfl⟩
      intro j hj
      exact modifyConn_others s k (fun c => { c with peerBitfield := some bits' }) j hj
    · next hid =>
      obtain ⟨bits, hbits, hfits⟩ := h
      rw [hid]
      apply Keeps.map
      rw [handleBitfield, hbits]
      dsimp only
      rw [if_neg (by omega)]
      exact ⟨_, _, rfl, modifyConn_others s k _, rfl⟩
    · next hid =>
      rw [hid]
      exact (handlePiece_keeps h).map _
    · next hhave hbitfield hpiece =>
      -- the other messages change one field of the record, or nothing
      cases hid : MsgID.ofByte n.msgID with
      | none => exact ⟨_, _, rfl, fun _ _ => rfl, rfl⟩
      | some id =>
          cases id with
          | «have» => exact absurd hid hhave
          | bitfield => exact absurd hid hbitfield
          | piece => exact absurd hid hpiece
          | _ => exact (Keeps.modifyConn s k _ []).map _

/-- A received chunk, or a failed `recv`. -/
theorem receive_keeps {r : Recv} (hopen : 0 ≤ (s.fds k).fd) (hsend : e.sendOk = true)
    (hsafe : ReceiveSafe sha1 ans s k r e) (hr : r ≠ .closed) :
    Keeps k s (receive sha1 ans s k r e) := by
  cases r with
  | error => exact ⟨_, _, rfl, fun _ _ => rfl, rfl⟩
  | closed => exact absurd rfl hr
  | chunk c =>
      rw [ReceiveSafe] at hsafe
      rw [receive]
      by_cases hgreet : c.bytes.length = fullHandshakeLength
      · rw [if_pos (.inl hgreet)] at hsafe
        rw [if_pos hgreet]
        refine Keeps.congr (greet_keeps ?_ hsend hsafe) rfl rfl
        exact hopen
      · rw [if_neg hgreet]
        by_cases hbitfield : c.bytes.length = fullHandshakeLength + ans.bitfieldMsgLength
        · rw [if_pos (.inr hbitfield)] at hsafe
          rw [if_pos hbitfield]
          refine Keeps.congr (greetWithBitfield_keeps ?_ hsend hsafe) rfl rfl
          exact hopen
        · rw [if_neg (by rintro (h | h) <;> contradiction)] at hsafe
          rw [if_neg hbitfield]
          exact (receiveMsg_keeps hsafe).congr rfl rfl

/-! ## The send part -/

theorem requestPiece_keeps (hslot : k < maxPeers) (hopen : 0 ≤ (s.fds k).fd)
    (hsend : e.sendOk = true) (h : StopsAt ans s k e) : Keeps k s (requestPiece ans s k e) := by
  have hend : k ≤ 0 + ans.numPieces := by
    rw [Nat.zero_add]
    exact h.inFile
  have hstop : k < 0 + ans.numPieces → wants s e k = true := by
    rw [Nat.zero_add]
    exact h.stops
  obtain ⟨p, hchoice⟩ := choosePiece_reaches (Nat.zero_le k) hend hslot
    (fun m _ => h.bitfields m) (fun m _ => h.passed m) hstop
  rw [requestPiece, hchoice]
  dsimp only
  rw [if_neg (by omega)]
  have hopen' : 0 ≤ (({ s with i := k } : Client).fds k).fd := hopen
  rw [transmit_of_open _ _ hopen' hsend]
  exact ⟨_, _, rfl, modifyConn_others _ k _, rfl⟩

theorem uploadPiece_keeps {p : CInt} {piece : PieceCopy} (hopen : 0 ≤ (s.fds k).fd)
    (hsend : e.sendOk = true)
    (hpiece : getPieceFromFile s.file p ans.pieceSizeBytes e.freshBlock = .ok piece)
    (hfits : piece.overflow = false) : Keeps k s (uploadPiece ans s k p e) := by
  rw [uploadPiece, hpiece]
  dsimp only
  rw [hfits, if_neg (by decide)]
  apply Keeps.map
  rw [transmit_of_open _ _ hopen hsend]
  exact Keeps.modifyConn s k _ _

theorem serve_keeps (hslot : k < maxPeers) (hopen : 0 ≤ (s.fds k).fd) (hsend : e.sendOk = true)
    (h : ServeSafe ans s k e) : Keeps k s (serve ans s k e) := by
  have hnothing : Keeps k s (.ok (s, [])) := ⟨s, [], rfl, fun _ _ => rfl, rfl⟩
  have hsay : ∀ f, Keeps k s (s.transmit k k f e) := by
    intro f
    rw [transmit_of_open _ _ hopen hsend]
    exact Keeps.modifyConn s k _ _
  rw [serve]
  split
  · exact hnothing
  · next hevents =>
    have hready : (s.fds k).revents = true := by simpa using hevents
    split
    · next hwants =>
      simp only [Bool.and_eq_true, Bool.or_eq_true, Bool.not_eq_true'] at hwants
      split
      · next hchoke =>
        split
        · next hasked =>
          obtain ⟨piece, hpiece, hfits⟩ :=
            h.upload ⟨hready, hwants.1, by simpa using hchoke, hwants.2, hasked⟩
          exact uploadPiece_keeps hopen hsend hpiece hfits
        · exact hnothing
      · exact hsay _
    · next hwants =>
      split
      · next hpending =>
        have hidle : (s.connections k).flag .pendingRequest = false := by simpa using hpending
        have hcompare : (s.connections k).flag .peerInterested = false ∨
            (s.connections k).flag .ownInterested = true := by
          simp only [hidle, Bool.or_false, Bool.and_eq_true, Bool.not_eq_true', not_and,
            Bool.not_eq_false] at hwants
          cases hpeer : (s.connections k).flag .peerInterested with
          | false => exact .inl rfl
          | true => exact .inr (hwants hpeer)
        have hbits := h.bitfield hready hidle hcompare
        split
        · next hnone => exact absurd hnone hbits
        · next bits hbits =>
          split
          · next hwanted =>
            split
            · next hinterested =>
              split
              · next hchoke =>
                exact requestPiece_keeps hslot hopen hsend
                  (h.request
                    ⟨hready, hidle, hinterested, by simpa using hchoke, bits, hbits, hwanted⟩)
              · exact hnothing
            · exact hsay _
          · exact hsay _
      · exact hnothing

end Parts

/-! ## The pass -/

/-- Both parts of the pass for slot `s.i` are safe where they start. -/
structure PassSafe (sha1 : List Byte → Digest) (ans : BtInfo) (s : Client) (r : Recv)
    (eRecv eSend : Env) : Prop where
  receives : ReceiveSafe sha1 ans s s.i r eRecv
  serves : r ≠ .closed → ∀ s1 evs, receive sha1 ans s s.i r eRecv = .ok (s1, evs) →
    ServeSafe ans s1 s.i eSend

/-- The state of the client when a connection was just accepted into slot 1
and everything is ready for output. -/
def greeted : Client := startRound (joined eightPieces) (.ready (fun _ => true) (some 6))

theorem greeted_run (sha1 : List Byte → Digest) :
    Run sha1 eightPieces (joined eightPieces) [] greeted :=
  Run.start.round _ (by decide)

end DubstepDucks.Torrent
