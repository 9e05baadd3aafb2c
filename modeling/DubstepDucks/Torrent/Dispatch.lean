import DubstepDucks.Torrent.Trace

/-!
# Torrent — handshakes told from messages by their length

The loop body looks at nothing but the number of bytes `recv` returned: 68 is
a handshake, 68 and a bitfield message's length is a handshake with a
bitfield, and everything else goes to the message switch. Two kinds of
message have a length that depends on the torrent, and for some torrents it
is one of those two numbers.
-/

namespace DubstepDucks.Torrent

open CMem Btp

/-- A message that a peer running this code can send for the torrent: its
`BITFIELD` has `total_pieces_in_file/8` bytes of the own bitfield, its
`PIECE` a block of `piece_size_bytes`. -/
def SentFor (ans : BtInfo) : WireMsg → Prop
  | .bitfield bits bitfieldLen =>
      bits.length = (setInitialBitfield ans.numPieces).length ∧
        bitfieldLen = BitVec.ofNat 32 (ans.numPieces / 8)
  | .piece _ _ pieceLen block => block.length = ans.pieceLength ∧ pieceLen = ans.pieceSizeBytes
  | w => w.Documented

/-- A `recv` that returns exactly these bytes is handled by the message
switch, whatever the state of the client. -/
def TakenAsMessage (ans : BtInfo) (bytes : List Byte) : Prop :=
  ∀ (sha1 : List Byte → Digest) (s : Client) (k : Nat) (c : Chunk) (e : Env), c.bytes = bytes →
    receive sha1 ans s k (.chunk c) e =
      receiveMsg sha1 ans { s with buffer := s.buffer.write 0 bytes } k bytes e

/-- The message has the length of a handshake, or of one with a bitfield. -/
def Collides (ans : BtInfo) : WireMsg → Prop
  | .bitfield _ _ => 504 ≤ ans.numPieces ∧ ans.numPieces ≤ 511
  | .piece _ _ _ _ => ans.pieceLength = 55 ∨ ans.pieceLength = 60 + ans.bitfieldLen
  | _ => False

/-! ## Lengths -/

theorem length_setInitialBitfield (n : Nat) :
    n / 8 ≤ (setInitialBitfield n).length ∧ (setInitialBitfield n).length = (n + 7) / 8 := by
  rw [setInitialBitfield, List.length_replicate]
  split <;> omega

theorem numPieces_le_bitfieldLen (ans : BtInfo) : ans.numPieces ≤ ans.bitfieldLen := by
  rw [BtInfo.bitfieldLen]
  split <;> omega

/-- The number of bytes that `construct_bitfield_message` is told to copy. -/
theorem toNat_bitfieldBytes (ans : BtInfo) :
    (BitVec.ofNat 32 (ans.numPieces / 8)).toNat = ans.numPieces / 8 := by
  have hlt := ans.numPieces_lt
  exact toNat_ofNat (by omega)

/-- The length of a message for the torrent. -/
def messageLength (ans : BtInfo) : WireMsg → Nat
  | .state _ => 5
  | .have _ => 9
  | .bitfield _ _ => 5 + ans.numPieces / 8
  | .request _ _ _ | .cancel _ _ _ => 17
  | .piece _ _ _ _ => 13 + ans.pieceLength

section Lengths

variable {ans : BtInfo} {w : WireMsg}

theorem SentFor.fits (h : SentFor ans w) (hlen : w.bytes.length ≤ bufsiz) : w.Fits := by
  cases w with
  | bitfield bits n =>
      obtain ⟨hbits, rfl⟩ := h
      have hn := toNat_bitfieldBytes ans
      have hfit := (length_setInitialBitfield ans.numPieces).1
      have := ans.numPieces_lt
      refine ⟨?_, ?_⟩ <;> rw [hn]
      · omega
      · omega
  | piece p o n block =>
      obtain ⟨hblock, rfl⟩ := h
      have hn := toNat_pieceSizeBytes ans
      have hbytes : (WireMsg.piece p o ans.pieceSizeBytes block).bytes.length
          = 13 + ans.pieceSizeBytes.toNat := length_constructPieceMessage (by omega)
      rw [bufsiz] at hlen
      exact ⟨by omega, by omega⟩
  | _ => exact WireMsg.Documented.fits h

theorem length_sentFor (h : SentFor ans w) : w.bytes.length = messageLength ans w := by
  cases w with
  | state msgID => rfl
  | «have» p => rfl
  | bitfield bits n =>
      obtain ⟨hbits, rfl⟩ := h
      have hn := toNat_bitfieldBytes ans
      have hfit := (length_setInitialBitfield ans.numPieces).1
      rw [messageLength, WireMsg.bytes, length_constructBitfieldMessage (by omega), hn]
  | request p o n => exact length_blockMessage _ _ _ _
  | piece p o n block =>
      obtain ⟨hblock, rfl⟩ := h
      have hn := toNat_pieceSizeBytes ans
      rw [messageLength, WireMsg.bytes, length_constructPieceMessage (by omega), hn]
  | cancel p o n => exact length_blockMessage _ _ _ _

theorem collides_iff_length (h : SentFor ans w) :
    Collides ans w ↔ w.bytes.length = fullHandshakeLength ∨
      w.bytes.length = fullHandshakeLength + ans.bitfieldMsgLength := by
  have hbitfield := numPieces_le_bitfieldLen ans
  rw [length_sentFor h, BtInfo.bitfieldMsgLength, fullHandshakeLength]
  cases w <;> simp only [Collides, messageLength, false_iff] <;> omega

end Lengths

/-! ## The two ways through the dispatch -/

theorem takenAsMessage_of_length {ans : BtInfo} {bytes : List Byte}
    (h1 : bytes.length ≠ fullHandshakeLength)
    (h2 : bytes.length ≠ fullHandshakeLength + ans.bitfieldMsgLength) :
    TakenAsMessage ans bytes := by
  intro sha1 s k c e hc
  subst hc
  rw [receive, if_neg h1, if_neg h2]

/-- Neither handshake case faults: it exits or it returns. -/
theorem greet_ne_fault {ans : BtInfo} {s : Client} {k : Nat} {chunk : List Byte} {e : Env} :
    greet ans s k chunk e ≠ .error .fault := by
  intro h
  rw [greet, checkHandshake] at h
  by_cases hverify : verifyHandshake (s.bufPtr e) fileSha e.freshByte ≠ 0
  · rw [if_pos hverify] at h
    cases h
  · rw [if_neg hverify] at h
    dsimp only at h
    split at h <;> cases h

theorem greetWithBitfield_ne_fault {ans : BtInfo} {s : Client} {k : Nat} {chunk : List Byte}
    {e : Env} : greetWithBitfield ans s k chunk e ≠ .error .fault := by
  intro h
  rw [greetWithBitfield, checkHandshake] at h
  by_cases hverify : verifyHandshake (s.bufPtr e) fileSha e.freshByte ≠ 0
  · rw [if_pos hverify] at h
    cases h
  · rw [if_neg hverify] at h
    dsimp only [Client.transmit] at h
    split at h
    · next hsend =>
      split at hsend <;> cases hsend
      cases h
    · cases h

/-- Bytes of a handshake's length on which the message switch can fault do
not get there. -/
theorem not_takenAsMessage {sha1 : List Byte → Digest} {ans : BtInfo} {s : Client} {k : Nat}
    {c : Chunk} {e : Env}
    (hlen : c.bytes.length = fullHandshakeLength ∨
      c.bytes.length = fullHandshakeLength + ans.bitfieldMsgLength)
    (hfault : receiveMsg sha1 ans { s with buffer := s.buffer.write 0 c.bytes } k c.bytes e
      = .error .fault) : ¬ TakenAsMessage ans c.bytes := by
  intro htaken
  have hsame := htaken sha1 s k c e rfl
  rw [hfault, receive] at hsame
  by_cases hhandshake : c.bytes.length = fullHandshakeLength
  · rw [if_pos hhandshake] at hsame
    exact greet_ne_fault hsame
  · rw [if_neg hhandshake, if_pos (hlen.resolve_left hhandshake)] at hsame
    exact greetWithBitfield_ne_fault hsame

/-- The switch sees a message that was received whole as it was built. -/
theorem getNextMsg_chunk {s : Client} {e : Env} {w : WireMsg} {old : Mem} (hfits : w.Fits)
    (hlen : w.bytes.length ≤ bufsiz) (hbuf : s.buffer = old.write 0 w.bytes) :
    getNextMsg e.stack (s.bufPtr e) = some ⟨w.bytes, w.id, BitVec.ofNat 32 w.bytes.length⟩ := by
  rw [bufPtr_chunk hbuf hlen]
  have h := getNextMsg_bytes hfits (Nat.le_trans hlen e.bufsiz_le_stack) []
    ((s.bufPtr e).advance w.bytes.length)
  rwa [List.append_nil] at h

section Faults

variable {sha1 : List Byte → Digest} {ans : BtInfo} {s : Client} {k : Nat} {chunk : List Byte}
  {e : Env} {n : NextMsg}

/-- A `PIECE` faults in the switch when the register that holds the missing
argument of `verify_piece` is negative. -/
theorem receiveMsg_piece_fault (hnext : getNextMsg e.stack (s.bufPtr e) = some n)
    (hid : n.msgID = MsgID.piece.byte) (harg : e.thirdArg = -1) :
    receiveMsg sha1 ans s k chunk e = .error .fault := by
  have hcase : ∀ msg, handlePiece sha1 ans s k msg e = .error .fault := by
    intro msg
    rw [handlePiece]
    dsimp only
    split
    · rfl
    · cases ans.hashAt (k * 20) e with
      | none => rfl
      | some expected =>
          dsimp only
          rw [verifyPiece, harg, if_pos (.inl (by decide))]
  rw [receiveMsg, hnext]
  dsimp only
  rw [hid]
  show Except.map _ (handlePiece sha1 ans s k _ e) = _
  rw [hcase]
  rfl

/-- A `BITFIELD` faults in the switch on a slot that was never set up. -/
theorem receiveMsg_bitfield_fault (hnext : getNextMsg e.stack (s.bufPtr e) = some n)
    (hid : n.msgID = MsgID.bitfield.byte) (hslot : (s.connections k).peerBitfield = none) :
    receiveMsg sha1 ans s k chunk e = .error .fault := by
  have hcase : ∀ msg, handleBitfield ans s k msg e = .error .fault := by
    intro msg
    rw [handleBitfield, hslot]
  rw [receiveMsg, hnext]
  dsimp only
  rw [hid]
  show Except.map _ (handleBitfield ans s k _ e) = _
  rw [hcase]
  rfl

end Faults

/-- A message that collides does not get to the switch. -/
theorem not_taken_of_collides {ans : BtInfo} {w : WireMsg} (hw : SentFor ans w)
    (hlen : w.bytes.length ≤ bufsiz) (h : Collides ans w) : ¬ TakenAsMessage ans w.bytes := by
  have hlength := (collides_iff_length hw).mp h
  have hpos : 0 < w.bytes.length := by
    rw [fullHandshakeLength] at hlength
    omega
  have hnext : ∀ (s : Client) (e : Env), getNextMsg e.stack (Client.bufPtr
      { s with buffer := s.buffer.write 0 w.bytes } e)
        = some ⟨w.bytes, w.id, BitVec.ofNat 32 w.bytes.length⟩ := by
    intro s e
    exact getNextMsg_chunk (hw.fits hlen) hlen rfl
  let c : Chunk := ⟨w.bytes, hpos, hlen⟩
  let sha1 : List Byte → Digest := fun _ => ⟨List.replicate 20 0, rfl⟩
  let s : Client := { joined ans with buffer := (joined ans).buffer.write 0 w.bytes }
  cases w with
  | bitfield bits n =>
      -- slot 5 of a client with two peers has no bitfield
      have hfault : receiveMsg sha1 ans s 5 c.bytes .calm = .error .fault :=
        receiveMsg_bitfield_fault (hnext (joined ans) .calm) rfl rfl
      exact not_takenAsMessage (s := joined ans) (c := c) hlength hfault
  | piece p o n block =>
      have hfault : receiveMsg sha1 ans s 1 c.bytes { Env.calm with thirdArg := -1 }
          = .error .fault := receiveMsg_piece_fault (hnext (joined ans) _) rfl rfl
      exact not_takenAsMessage (s := joined ans) (c := c) hlength hfault
  | _ => exact absurd h id

/-- **No confusion between handshakes and messages**, outside the torrents
for which the lengths collide: a `BITFIELD` is as long as a handshake for 504
to 511 pieces, and a `PIECE` for a piece length of 55, or of 60 more than
`bitfieldLen` when it is as long as a handshake with a bitfield. -/
theorem message_dispatch_iff (ans : BtInfo) (w : WireMsg) (hw : SentFor ans w)
    (hlen : w.bytes.length ≤ bufsiz) : TakenAsMessage ans w.bytes ↔ ¬ Collides ans w := by
  constructor
  · intro htaken hcollides
    exact not_taken_of_collides hw hlen hcollides htaken
  · intro hfree
    rw [collides_iff_length hw, not_or] at hfree
    exact takenAsMessage_of_length hfree.1 hfree.2

/-- Eight pieces of 55 bytes. -/
def fiftyFive : BtInfo :=
  { eightPieces with
    pieceLength := 55
    pieceLength_pos := by decide
    pieceLength_lt := by decide }

/-- A `PIECE` for pieces of four bytes is a message. -/
theorem message_dispatch_iff_eight :
    (SentFor eightPieces (.piece 0 0 4 (ascii "ABCD")) ∧
      (WireMsg.piece 0 0 4 (ascii "ABCD")).bytes.length ≤ bufsiz) ∧
    TakenAsMessage eightPieces (WireMsg.piece 0 0 4 (ascii "ABCD")).bytes :=
  ⟨⟨⟨rfl, rfl⟩, by decide⟩,
    (message_dispatch_iff eightPieces (.piece 0 0 4 (ascii "ABCD")) ⟨rfl, rfl⟩ (by decide)).mpr
      (by simp [Collides, eightPieces, BtInfo.bitfieldLen])⟩

/-- A `PIECE` for pieces of 55 bytes is taken for a handshake. -/
theorem message_dispatch_fifty_five :
    ¬ ∀ (ans : BtInfo) (w : WireMsg), SentFor ans w → w.bytes.length ≤ bufsiz →
      TakenAsMessage ans w.bytes := by
  intro hclaim
  have hsent : SentFor fiftyFive (.piece 0 0 55 (List.replicate 55 65)) := ⟨rfl, rfl⟩
  have hlen : (WireMsg.piece 0 0 55 (List.replicate 55 65)).bytes.length ≤ bufsiz := by decide
  exact not_taken_of_collides hsent hlen (.inl rfl) (hclaim _ _ hsent hlen)

end DubstepDucks.Torrent
