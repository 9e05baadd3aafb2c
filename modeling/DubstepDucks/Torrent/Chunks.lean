import DubstepDucks.Torrent.Trace

/-!
# Torrent — what a chunk says

One receive buffer serves all connections and is cleared once a round, so
behind a short chunk stands what an earlier `recv` left. `get_next_msg` and
the message switch read at fixed offsets and as far as the length field says,
whether those bytes were received or not. `JudgedByOwnBytes` compares two
runs that differ in the rest of the buffer only; `Determined` says when they
cannot differ, kind by kind.

The message is memory, split into bytes that were received and bytes that
were not (`msgMem_congr`); where no byte that counts is missing, the two runs
agree (`judged_of_determined`).
-/

namespace DubstepDucks.Torrent

open CMem Btp

/-- The client with these bytes at the front of its buffer. -/
def Client.holding (s : Client) (bytes : List Byte) : Client :=
  { s with buffer := s.buffer.write 0 bytes }

/-- What the message branch produces: the records, the own bitfield and the
file. -/
def observed (r : Except Stop (Client × List Event)) :
    Except Stop ((Nat → Connections) × List Byte × Option (List Byte)) :=
  r.map fun r => (r.1.connections, r.1.ownBitfield, r.1.file)

/-- Whatever stands in the rest of the buffer, the chunk is handled in the
same way, where `stack` bytes can be read from the buffer on. -/
def JudgedByOwnBytes (ans : BtInfo) (stack : Nat) (c : Chunk) : Prop :=
  ∀ (sha1 : List Byte → Digest) (s : Client) (k : Nat) (e : Env) (rest rest' : List Byte),
    e.stack = stack → (c.bytes ++ rest).length = bufsiz → (c.bytes ++ rest').length = bufsiz →
    observed (receive sha1 ans (s.holding (c.bytes ++ rest)) k (.chunk c) e)
      = observed (receive sha1 ans (s.holding (c.bytes ++ rest')) k (.chunk c) e)

/-- The same of the message branch alone. -/
def JudgedAsMessage (ans : BtInfo) (stack : Nat) (chunk : List Byte) : Prop :=
  ∀ (sha1 : List Byte → Digest) (s : Client) (k : Nat) (e : Env) (rest rest' : List Byte),
    e.stack = stack → (chunk ++ rest).length = bufsiz → (chunk ++ rest').length = bufsiz →
    observed (receiveMsg sha1 ans (s.holding (chunk ++ rest)) k chunk e)
      = observed (receiveMsg sha1 ans (s.holding (chunk ++ rest')) k chunk e)

/-- `*msgSize` after `get_next_msg`, as far as the chunk fixes it. -/
def fieldSize (chunk : List Byte) : CInt := (Mem.of chunk fun _ => 0).readInt + 4

/-- Whatever stands behind the chunk, the size is negative or goes beyond the
stack. -/
def Unreadable (stack : Nat) (chunk : List Byte) : Prop :=
  ∀ rest : Mem, ((Mem.of chunk rest).readInt + 4).toInt < 0 ∨
    stack < ((Mem.of chunk rest).readInt + 4).toNat

/-- Of the first `n` bytes of the message, those that lie in the buffer were
received. -/
def Within (chunk : List Byte) (n : Nat) : Prop :=
  min (min n (fieldSize chunk).toNat) bufsiz ≤ chunk.length

/-- The chunk fixes what `case(PIECE)` does. The check may read the whole
buffer, so the chunk has to fill it, or the block that is copied over it:
then byte 9, which nothing reads, may be missing, and bytes of the index where
the offset is negative whatever they are. A block that is longer than the
stack faults. -/
def PieceDetermined (ans : BtInfo) (stack : Nat) (chunk : List Byte) : Prop :=
  chunk.length = bufsiz ∨ bufsiz ≤ ans.pieceLength ∧
    (stack < ans.pieceLength ∨ Within chunk bufsiz ∨ (fieldSize chunk).toNat ≤ 10 ∧
      (chunk.length = 9 ∨
        ∀ rest : Mem, (((Mem.of chunk rest).advance 5).readInt * ans.pieceSizeBytes).toInt < 0))

/-- The chunk fixes what the message branch does. A size that cannot be read
faults. A `HAVE` or a `REQUEST` needs its index, a `BITFIELD` its bytes. -/
def Determined (ans : BtInfo) (stack : Nat) (chunk : List Byte) : Prop :=
  Unreadable stack chunk ∨ 5 ≤ chunk.length ∧
    match MsgID.ofByte (chunk.getD 4 0) with
    | some .have | some .request => Within chunk 9
    | some .bitfield => Within chunk (5 + ans.numPieces)
    | some .piece => PieceDetermined ans stack chunk
    | _ => True

/-! ## The message as memory -/

/-- The copy that `get_next_msg` makes, and what lies behind it. -/
def msgMem (chunk rest : List Byte) (e : Env) : Mem :=
  Mem.of ((Mem.of (chunk ++ rest) e.behindBuffer).read (fieldSize chunk).toNat) e.behindMsg

section Message

variable {sha1 : List Byte → Digest} {ans : BtInfo} {s : Client} {k : Nat} {e : Env}
  {chunk rest rest' : List Byte}

theorem bufPtr_holding {bytes : List Byte} (h : bytes.length = bufsiz) :
    (s.holding bytes).bufPtr e = Mem.of bytes e.behindBuffer := by
  funext i
  by_cases hi : i < bufsiz
  · rw [Client.bufPtr, if_pos hi, Mem.of_lt (by omega)]
    show s.buffer.write 0 bytes i = _
    rw [Mem.write_in (by omega) (by omega), Nat.sub_zero]
  · rw [Client.bufPtr, if_neg hi, Mem.of_ge (by omega), h]

/-- A byte of the chunk is where it was received. -/
theorem of_append_lt {i : Nat} (behind : Mem) (h : i < chunk.length) :
    Mem.of (chunk ++ rest) behind i = chunk.getD i 0 := by
  rw [Mem.of_append, Mem.of_lt h]

/-- Four received bytes fix the size. -/
theorem readInt_received (behind : Mem) (h : 4 ≤ chunk.length) :
    (Mem.of (chunk ++ rest) behind).readInt + 4 = fieldSize chunk := by
  rw [fieldSize, Mem.readInt, Mem.readInt]
  rw [of_append_lt _ (by omega), of_append_lt _ (by omega), of_append_lt _ (by omega),
    of_append_lt _ (by omega), Mem.of_lt (by omega), Mem.of_lt (by omega), Mem.of_lt (by omega),
    Mem.of_lt (by omega)]

/-- What `get_next_msg` hands back, from the size and the ID. -/
theorem getNextMsg_received {stack : Nat} (hstack : bufsiz ≤ stack) (behind : Mem)
    (h : 4 ≤ chunk.length) :
    getNextMsg stack (Mem.of (chunk ++ rest) behind) =
      if (fieldSize chunk).toInt < 0 ∨ stack < (fieldSize chunk).toNat then none
      else some ⟨(Mem.of (chunk ++ rest) behind).read (fieldSize chunk).toNat,
        Mem.of (chunk ++ rest) behind 4, fieldSize chunk⟩ := by
  rw [bufsiz] at hstack
  have hfive : stack < max 5 (fieldSize chunk).toNat ↔ stack < (fieldSize chunk).toNat := by omega
  rw [getNextMsg, readInt_received behind h]
  simp only [hfive]

/-- Received bytes that leave the size unreadable fault. -/
theorem getNextMsg_unreadable {stack : Nat} (h : Unreadable stack chunk) (behind : Mem) :
    getNextMsg stack (Mem.of (chunk ++ rest) behind) = none := by
  rw [getNextMsg, Mem.of_append, if_pos]
  exact (h (Mem.of rest behind)).imp_right fun hlong => by omega

/-- A size of received bytes is readable unless it is negative or too long. -/
theorem size_of_readable {stack : Nat} (h4 : 4 ≤ chunk.length) (h : ¬ Unreadable stack chunk) :
    0 ≤ (fieldSize chunk).toInt ∧ (fieldSize chunk).toNat ≤ stack := by
  by_contra hbad
  apply h
  intro rest
  have hsize : (Mem.of (chunk ++ []) rest).readInt + 4 = fieldSize chunk := readInt_received rest h4
  rw [List.append_nil] at hsize
  rw [hsize]
  omega

theorem msgMem_eq (chunk rest : List Byte) (e : Env) (i : Nat) :
    msgMem chunk rest e i = if i < (fieldSize chunk).toNat
      then Mem.of (chunk ++ rest) e.behindBuffer i
      else e.behindMsg (i - (fieldSize chunk).toNat) := by
  by_cases hi : i < (fieldSize chunk).toNat
  · rw [if_pos hi, msgMem, Mem.of_lt (by simpa using hi), Mem.getD_read _ hi]
  · rw [if_neg hi, msgMem, Mem.of_ge (by simpa using hi), Mem.length_read]

/-- Two messages agree wherever the byte was received, or is none of the
buffer's. -/
theorem msgMem_congr (hrest : (chunk ++ rest).length = bufsiz)
    (hrest' : (chunk ++ rest').length = bufsiz) {i : Nat}
    (hi : i < chunk.length ∨ (fieldSize chunk).toNat ≤ i ∨ bufsiz ≤ i) :
    msgMem chunk rest e i = msgMem chunk rest' e i := by
  rw [msgMem_eq, msgMem_eq]
  by_cases hsize : i < (fieldSize chunk).toNat
  · rw [if_pos hsize, if_pos hsize]
    by_cases hown : i < chunk.length
    · rw [of_append_lt _ hown, of_append_lt _ hown]
    · rw [Mem.of_ge (by omega), Mem.of_ge (by omega), hrest, hrest']
  · rw [if_neg hsize, if_neg hsize]

/-- A stretch of the message that `Within` covers is the same in both. -/
theorem read_msgMem_congr (hrest : (chunk ++ rest).length = bufsiz)
    (hrest' : (chunk ++ rest').length = bufsiz) {off n : Nat} (h : Within chunk (off + n)) :
    ((msgMem chunk rest e).advance off).read n = ((msgMem chunk rest' e).advance off).read n := by
  apply Mem.read_congr
  intro i hi
  apply msgMem_congr hrest hrest'
  rw [Within] at h
  omega

theorem index_msgMem_congr (hrest : (chunk ++ rest).length = bufsiz)
    (hrest' : (chunk ++ rest').length = bufsiz) (h : Within chunk 9) :
    ((msgMem chunk rest e).advance 5).readInt = ((msgMem chunk rest' e).advance 5).readInt := by
  rw [Within, bufsiz] at h
  simp only [Mem.readInt, Mem.advance]
  rw [msgMem_congr hrest hrest' (by omega), msgMem_congr hrest hrest' (by omega),
    msgMem_congr hrest hrest' (by omega), msgMem_congr hrest hrest' (by omega)]

/-- A chunk of neither handshake length goes to the message branch, and
receiving it again changes nothing in the buffer. -/
theorem receive_message {c : Chunk} (hhandshake : c.bytes.length ≠ fullHandshakeLength)
    (hgreeting : c.bytes.length ≠ fullHandshakeLength + ans.bitfieldMsgLength) :
    receive sha1 ans (s.holding (c.bytes ++ rest)) k (.chunk c) e
      = receiveMsg sha1 ans (s.holding (c.bytes ++ rest)) k c.bytes e := by
  have hbuffer : (s.holding (c.bytes ++ rest)).buffer.write 0 c.bytes
      = (s.holding (c.bytes ++ rest)).buffer := by
    funext i
    by_cases hi : i < c.bytes.length
    · show Mem.write _ 0 c.bytes i = s.buffer.write 0 (c.bytes ++ rest) i
      rw [Mem.write_in (by omega) (by omega), Mem.write_in (by omega) (by simp; omega),
        Nat.sub_zero, List.getD_append _ _ _ _ hi]
    · rw [Mem.write_out (by omega)]
  rw [receive, if_neg hhandshake, if_neg hgreeting, hbuffer]

/-! ## The switch without its log -/

/-- The cases of the switch. -/
def switch (sha1 : List Byte → Digest) (ans : BtInfo) (s : Client) (k : Nat) (e : Env)
    (msg : Mem) : Option MsgID → Except Stop (Client × List Event)
  | some .choke => .ok (s.modifyConn k (setFlag · .ownChoke 1), [])
  | some .unchoke => .ok (s.modifyConn k (setFlag · .ownChoke 0), [])
  | some .interested => .ok (s.modifyConn k (setFlag · .peerInterested 1), [])
  | some .uninterested => .ok (s.modifyConn k (setFlag · .peerInterested 0), [])
  | some .have => handleHave s k (msg.advance 5).readInt e
  | some .bitfield => handleBitfield ans s k msg e
  | some .request => .ok (s.modifyConn k fun c =>
      { c with pieceToSend := (clobber e.heapPtr (msg.advance 5).readInt).setWidth 32 }, [])
  | some .piece => handlePiece sha1 ans s k msg e
  | some .cancel => .ok (s.modifyConn k fun c => { c with pieceToSend := -1 }, [])
  | none => .ok (s, [])

theorem observed_map (r : Except Stop (Client × List Event)) (ev : Event) :
    observed (r.map fun r => (r.1, ev :: r.2)) = observed r := by
  cases r <;> rfl

theorem observed_receiveMsg (chunk : List Byte) {n : NextMsg}
    (hnext : getNextMsg e.stack (s.bufPtr e) = some n) :
    observed (receiveMsg sha1 ans s k chunk e) = observed (switch sha1 ans s k e
      (Mem.of n.message e.behindMsg) (MsgID.ofByte n.msgID)) := by
  rw [receiveMsg, hnext]
  dsimp only
  cases MsgID.ofByte n.msgID with
  | none => exact observed_map _ _
  | some id => cases id <;> exact observed_map _ _

theorem observed_fault (chunk : List Byte) (hnext : getNextMsg e.stack (s.bufPtr e) = none) :
    observed (receiveMsg sha1 ans s k chunk e) = .error .fault := by
  rw [receiveMsg, hnext]
  rfl

/-- The branch on a chunk whose first five bytes were received. -/
theorem observed_holding (h5 : 5 ≤ chunk.length) (hrest : (chunk ++ rest).length = bufsiz)
    (hsize : 0 ≤ (fieldSize chunk).toInt) (hstack : (fieldSize chunk).toNat ≤ e.stack) :
    observed (receiveMsg sha1 ans (s.holding (chunk ++ rest)) k chunk e)
      = observed (switch sha1 ans (s.holding (chunk ++ rest)) k e (msgMem chunk rest e)
          (MsgID.ofByte (chunk.getD 4 0))) := by
  have hnext := bufPtr_holding (s := s) (e := e) hrest
  have hmsg : getNextMsg e.stack (Mem.of (chunk ++ rest) e.behindBuffer) = _ :=
    getNextMsg_received e.bufsiz_le_stack e.behindBuffer (by omega)
  rw [if_neg (by omega), of_append_lt _ (by omega), ← hnext] at hmsg
  rw [observed_receiveMsg chunk hmsg, msgMem, hnext]

/-! ## Chunks that fix what happens -/

theorem observed_smash (a b : List Byte) :
    observed ((s.holding a).smash e) = observed ((s.holding b).smash e) := by
  rw [Client.smash, Client.smash]
  cases e.smash <;> rfl

/-- `case(HAVE)` looks at the buffer through its index only. -/
theorem observed_handleHave (a b : List Byte) (p : CInt) :
    observed (handleHave (s.holding a) k p e) = observed (handleHave (s.holding b) k p e) := by
  have hrecord : ∀ r : List Byte, ((s.holding r).connections k).peerBitfield
      = (s.connections k).peerBitfield := fun _ => rfl
  rw [handleHave, handleHave, hrecord, hrecord]
  cases (s.connections k).peerBitfield with
  | none => rfl
  | some bits =>
      dsimp only
      cases setHave bits p with
      | none => exact observed_smash (s := { s with testFreed := true }) a b
      | some bits' =>
          show observed (if s.testFreed then _ else _) = observed (if s.testFreed then _ else _)
          by_cases hfreed : s.testFreed = true
          · rw [if_pos hfreed, if_pos hfreed]
            exact observed_smash
              (s := s.modifyConn k fun c => { c with peerBitfield := some bits' }) a b
          · rw [if_neg hfreed, if_neg hfreed]
            rfl

/-- `case(BITFIELD)` looks at the buffer through the bytes it stores. -/
theorem observed_handleBitfield (a b : List Byte) {msg msg' : Mem}
    (hbytes : (msg.advance 5).read ans.numPieces = (msg'.advance 5).read ans.numPieces) :
    observed (handleBitfield ans (s.holding a) k msg e)
      = observed (handleBitfield ans (s.holding b) k msg' e) := by
  have hrecord : ∀ r : List Byte, ((s.holding r).connections k).peerBitfield
      = (s.connections k).peerBitfield := fun _ => rfl
  rw [handleBitfield, handleBitfield, hbytes, hrecord, hrecord]
  cases (s.connections k).peerBitfield with
  | none => rfl
  | some bits =>
      dsimp only
      by_cases hshort : bits.length < ans.numPieces
      · rw [if_pos hshort, if_pos hshort]
        exact observed_smash (s := s.modifyConn k fun c => { c with
          peerBitfield := some (((msg'.advance 5).read ans.numPieces).take bits.length
            ++ bits.drop ans.numPieces) }) a b
      · rw [if_neg hshort, if_neg hshort]
        rfl

/-- A block over the whole buffer: nothing of its old content is left. -/
theorem pieceBuffer_congr {a b : List Byte} {msg msg' : Mem}
    (hblock : pieceBlock ans msg = pieceBlock ans msg') (hover : bufsiz ≤ ans.pieceLength)
    (ha : a.length = bufsiz) (hb : b.length = bufsiz) :
    pieceBuffer ans (s.holding a) msg e = pieceBuffer ans (s.holding b) msg' e := by
  have hlen := length_pieceBlock ans msg'
  rw [pieceBuffer, pieceBuffer, hblock, bufPtr_holding ha, bufPtr_holding hb]
  funext i
  by_cases hi : i < ans.pieceLength
  · rw [Mem.write_in (by omega) (by omega), Mem.write_in (by omega) (by omega)]
  · rw [Mem.write_out (by omega), Mem.write_out (by omega), Mem.of_ge (by omega),
      Mem.of_ge (by omega), ha, hb]

/-- `case(PIECE)` with the same index, block and buffer. -/
theorem handlePiece_congr {a b : List Byte} {msg msg' : Mem}
    (hindex : (msg.advance 5).readInt = (msg'.advance 5).readInt)
    (hblock : pieceBlock ans msg = pieceBlock ans msg') (hover : bufsiz ≤ ans.pieceLength)
    (ha : a.length = bufsiz) (hb : b.length = bufsiz) :
    observed (handlePiece sha1 ans (s.holding a) k msg e)
      = observed (handlePiece sha1 ans (s.holding b) k msg' e) := by
  rw [handlePiece, handlePiece, pieceBuffer_congr hblock hover ha hb, hblock, hindex]
  rfl

/-- A block that fails the check changes nothing but the buffer. -/
theorem handlePiece_rejects {msg : Mem} {expected : Digest} (hfits : ans.pieceLength ≤ e.room)
    (hexpected : ans.hashAt (k * 20) e = some expected)
    (hverify : verifyPiece sha1 e.stack (pieceBuffer ans s msg e) expected e.thirdArg
      = some false) :
    handlePiece sha1 ans s k msg e = .ok ({ s with buffer := pieceBuffer ans s msg e }, []) := by
  rw [handlePiece]
  dsimp only
  rw [if_neg (by omega), hexpected]
  dsimp only
  rw [hverify]

/-- An index whose offset is negative never comes to the file: the handler
stops there. -/
theorem writePiece_negative {file : Option (List Byte)} {p len : CInt} {buffer : Mem}
    {size taken : Nat} (h : (p * len).toInt < 0) :
    writePiece file p len buffer size taken = .error .exit := by
  rw [writePiece]
  cases file with
  | none => rfl
  | some content => rw [seekPiece, if_pos h]

/-- `case(PIECE)` with the same block and buffer, where both indices have a
negative offset. -/
theorem handlePiece_negative {a b : List Byte} {msg msg' : Mem}
    (hblock : pieceBlock ans msg = pieceBlock ans msg') (hover : bufsiz ≤ ans.pieceLength)
    (ha : a.length = bufsiz) (hb : b.length = bufsiz)
    (hneg : ((msg.advance 5).readInt * ans.pieceSizeBytes).toInt < 0)
    (hneg' : ((msg'.advance 5).readInt * ans.pieceSizeBytes).toInt < 0) :
    observed (handlePiece sha1 ans (s.holding a) k msg e)
      = observed (handlePiece sha1 ans (s.holding b) k msg' e) := by
  rw [handlePiece, handlePiece, pieceBuffer_congr hblock hover ha hb, hblock]
  dsimp only
  rw [setWidth_clobber, setWidth_clobber, writePiece_negative hneg, writePiece_negative hneg']
  rfl

/-- A block that is longer than the stack faults. -/
theorem handlePiece_long {msg : Mem} (h : e.stack < ans.pieceLength) :
    handlePiece sha1 ans s k msg e = .error .fault := by
  rw [handlePiece]
  dsimp only
  rw [if_pos]
  rw [Env.stack] at h
  omega

/-- The message starts with the chunk. -/
theorem msgMem_starts (h : chunk.length ≤ (fieldSize chunk).toNat) :
    msgMem chunk rest e = Mem.of chunk ((msgMem chunk rest e).advance chunk.length) := by
  funext i
  by_cases hi : i < chunk.length
  · rw [msgMem_eq, if_pos (by omega), of_append_lt _ hi, Mem.of_lt hi]
  · rw [Mem.of_ge (by omega), Mem.advance, Nat.add_sub_cancel' (by omega)]

theorem judged_piece (h : PieceDetermined ans e.stack chunk)
    (hrest : (chunk ++ rest).length = bufsiz) (hrest' : (chunk ++ rest').length = bufsiz) :
    observed (handlePiece sha1 ans (s.holding (chunk ++ rest)) k (msgMem chunk rest e) e)
      = observed (handlePiece sha1 ans (s.holding (chunk ++ rest')) k (msgMem chunk rest' e)
          e) := by
  have hlength : chunk.length + rest.length = bufsiz := by simpa using hrest
  have hlength' : chunk.length + rest'.length = bufsiz := by simpa using hrest'
  rcases h with hfull | ⟨hover, hlong | h⟩
  · -- the chunk fills the buffer: there is no rest
    obtain rfl : rest = [] := List.length_eq_zero_iff.mp (by omega)
    obtain rfl : rest' = [] := List.length_eq_zero_iff.mp (by omega)
    rfl
  · rw [handlePiece_long hlong, handlePiece_long hlong]
  · by_cases hwithin : Within chunk bufsiz
    · have hall : ∀ n, Within chunk n := by
        intro n
        rw [Within] at hwithin ⊢
        omega
      exact handlePiece_congr (index_msgMem_congr hrest hrest' (hall 9))
        (read_msgMem_congr hrest hrest' (hall _)) hover hrest hrest'
    · obtain ⟨hsize, hlen⟩ := h.resolve_left hwithin
      rw [Within, bufsiz] at hwithin
      -- the block lies behind the message
      have hblock :
          pieceBlock ans (msgMem chunk rest e) = pieceBlock ans (msgMem chunk rest' e) := by
        apply Mem.read_congr
        intro i _
        exact msgMem_congr hrest hrest' (by omega)
      rcases hlen with hnine | hneg
      · refine handlePiece_congr (index_msgMem_congr hrest hrest' ?_) hblock hover hrest hrest'
        rw [Within]
        omega
      · apply handlePiece_negative hblock hover hrest hrest'
        · rw [msgMem_starts (by omega)]
          exact hneg _
        · rw [msgMem_starts (by omega)]
          exact hneg _

end Message

/-- A chunk that fixes what happens is judged by its own bytes. -/
theorem judged_of_determined {ans : BtInfo} {stack : Nat} {chunk : List Byte}
    (h : Determined ans stack chunk) : JudgedAsMessage ans stack chunk := by
  rintro sha1 s k e rest rest' rfl hrest hrest'
  by_cases hunreadable : Unreadable e.stack chunk
  · have hnone : ∀ r : List Byte, (chunk ++ r).length = bufsiz →
        getNextMsg e.stack ((s.holding (chunk ++ r)).bufPtr e) = none := by
      intro r hr
      rw [bufPtr_holding hr, getNextMsg_unreadable hunreadable]
    rw [observed_fault chunk (hnone rest hrest), observed_fault chunk (hnone rest' hrest')]
  · obtain ⟨h5, h⟩ := h.resolve_left hunreadable
    obtain ⟨hsize, hstack⟩ := size_of_readable (by omega) hunreadable
    rw [observed_holding h5 hrest hsize hstack, observed_holding h5 hrest' hsize hstack]
    cases hid : MsgID.ofByte (chunk.getD 4 0) with
    | none => rfl
    | some id =>
        rw [hid] at h
        cases id with
        | «have» =>
            simp only [switch]
            rw [index_msgMem_congr hrest hrest' h]
            exact observed_handleHave _ _ _
        | bitfield => exact observed_handleBitfield _ _ (read_msgMem_congr hrest hrest' h)
        | request =>
            simp only [switch]
            rw [index_msgMem_congr hrest hrest' h]
            rfl
        | piece => exact judged_piece h hrest hrest'
        | _ => rfl

end DubstepDucks.Torrent
