import DubstepDucks.CMem.Bytes

/-!
# Btp — the peer-wire messages

The six message constructors of `btp.c` and `get_next_msg`, as byte lists
and memory. Every constructor writes its own length constant and offsets;
`WireMsg` collects one call of each with the arguments the C function
takes, so that a statement about "any message" ranges over all six.

`getNextMsg` trusts the length field. `none` is the call not returning: a
length that is negative after adding four reaches `malloc` as a huge
`size_t`, and the `memcpy` writes through the null pointer it returns; one
that goes beyond the bytes that can be read makes it run off the memory that
there is.
-/

namespace DubstepDucks.Btp

open CMem

/-- The message IDs of `btp.h`. -/
inductive MsgID where
  | choke | unchoke | interested | uninterested | «have» | bitfield | request | piece | cancel
  deriving DecidableEq, Repr

def MsgID.byte : MsgID → Byte
  | .choke => 0
  | .unchoke => 1
  | .interested => 2
  | .uninterested => 3
  | .have => 4
  | .bitfield => 5
  | .request => 6
  | .piece => 7
  | .cancel => 8

/-- The cases of `switch(*msgID)`; `none` is its default. -/
def MsgID.ofByte (b : Byte) : Option MsgID :=
  [.choke, .unchoke, .interested, .uninterested, .have, .bitfield, .request, .piece, .cancel].find?
    fun i => i.byte = b

/-! ## The constructors -/

def constructBitfieldMessage (bitfield : List Byte) (bitfieldLen : CInt) : List Byte :=
  leBytes (bitfieldLen + 1) ++ MsgID.bitfield.byte :: bitfield.take bitfieldLen.toNat

def constructStateMessage (msgID : Byte) : List Byte := leBytes 1 ++ [msgID]

def constructHaveMessage (pieceIndex : CInt) : List Byte :=
  leBytes 5 ++ MsgID.have.byte :: leBytes pieceIndex

/-- The shared body of the request and cancel messages: three ints. -/
def blockMessage (msgID : MsgID) (pieceIndex blockOffset blockLength : CInt) : List Byte :=
  leBytes 13 ++ msgID.byte :: (leBytes pieceIndex ++ leBytes blockOffset ++ leBytes blockLength)

def constructRequestMessage : CInt → CInt → CInt → List Byte := blockMessage .request

def constructPieceMessage (pieceIndex blockOffset pieceLen : CInt) (piece : List Byte) :
    List Byte :=
  leBytes (9 + pieceLen) ++ MsgID.piece.byte ::
    (leBytes pieceIndex ++ leBytes blockOffset ++ piece.take pieceLen.toNat)

def constructCancelMessage : CInt → CInt → CInt → List Byte := blockMessage .cancel

/-- One call of a message constructor. -/
inductive WireMsg where
  | state (msgID : Byte)
  | have (pieceIndex : CInt)
  | bitfield (bits : List Byte) (bitfieldLen : CInt)
  | request (pieceIndex blockOffset blockLength : CInt)
  | piece (pieceIndex blockOffset pieceLen : CInt) (block : List Byte)
  | cancel (pieceIndex blockOffset blockLength : CInt)
  deriving DecidableEq

def WireMsg.bytes : WireMsg → List Byte
  | .state msgID => constructStateMessage msgID
  | .have pieceIndex => constructHaveMessage pieceIndex
  | .bitfield bits bitfieldLen => constructBitfieldMessage bits bitfieldLen
  | .request pieceIndex blockOffset blockLength =>
      constructRequestMessage pieceIndex blockOffset blockLength
  | .piece pieceIndex blockOffset pieceLen block =>
      constructPieceMessage pieceIndex blockOffset pieceLen block
  | .cancel pieceIndex blockOffset blockLength =>
      constructCancelMessage pieceIndex blockOffset blockLength

/-- The ID the constructor puts in. -/
def WireMsg.id : WireMsg → Byte
  | .state msgID => msgID
  | .have _ => MsgID.have.byte
  | .bitfield _ _ => MsgID.bitfield.byte
  | .request _ _ _ => MsgID.request.byte
  | .piece _ _ _ _ => MsgID.piece.byte
  | .cancel _ _ _ => MsgID.cancel.byte

/-- The buffers passed hold the bytes they are said to hold, and the total
length fits a non-negative int. -/
def WireMsg.Fits : WireMsg → Prop
  | .bitfield bits bitfieldLen =>
      bitfieldLen.toNat ≤ bits.length ∧ 5 + bitfieldLen.toNat < 2 ^ 31
  | .piece _ _ pieceLen block => pieceLen.toNat ≤ block.length ∧ 13 + pieceLen.toNat < 2 ^ 31
  | _ => True

instance (m : WireMsg) : Decidable m.Fits := by
  cases m <;> (unfold WireMsg.Fits; infer_instance)

/-- The arguments are those the constructor is documented for: its buffers
fit, and a state message is one of the four. -/
def WireMsg.Documented : WireMsg → Prop
  | .state msgID =>
      msgID = MsgID.choke.byte ∨ msgID = MsgID.unchoke.byte ∨ msgID = MsgID.interested.byte ∨
        msgID = MsgID.uninterested.byte
  | m => m.Fits

instance (m : WireMsg) : Decidable m.Documented := by
  cases m <;> (unfold WireMsg.Documented; infer_instance)

/-! ## The decoder -/

/-- What `get_next_msg` hands back: the copied message, `*msgID` and
`*msgSize`. -/
structure NextMsg where
  message : List Byte
  msgID : Byte
  msgSize : CInt
  deriving DecidableEq

/-- `get_next_msg`, when `readable` bytes can be read from `bufPtr` on. The
length and the ID are read whatever the size. -/
def getNextMsg (readable : Nat) (bufPtr : Mem) : Option NextMsg :=
  let msgSize := bufPtr.readInt + 4
  if msgSize.toInt < 0 ∨ readable < max 5 msgSize.toNat then none
  else some { message := bufPtr.read msgSize.toNat, msgID := bufPtr 4, msgSize := msgSize }

/-- `get_next_msg` repeated `k` times, the pointer advanced by the returned
size after each: the messages and the final pointer. -/
def nextMsgs : Nat → Nat → Mem → Option (List NextMsg × Mem)
  | 0, _, bufPtr => some ([], bufPtr)
  | k + 1, readable, bufPtr =>
      match getNextMsg readable bufPtr with
      | none => none
      | some n =>
          (nextMsgs k (readable - n.msgSize.toNat) (bufPtr.advance n.msgSize.toNat)).map
            fun r => (n :: r.1, r.2)

/-! ## Every constructor writes the length its decoder expects -/

theorem bytes_split (m : WireMsg) :
    ∃ len payload, m.bytes = leBytes len ++ m.id :: payload := by
  cases m with
  | state msgID => exact ⟨1, [], rfl⟩
  | «have» p => exact ⟨5, _, rfl⟩
  | bitfield bf n => exact ⟨n + 1, _, rfl⟩
  | request p o n => exact ⟨13, _, rfl⟩
  | piece p o n d => exact ⟨9 + n, _, rfl⟩
  | cancel p o n => exact ⟨13, _, rfl⟩

theorem WireMsg.Documented.fits {m : WireMsg} (h : m.Documented) : m.Fits := by
  cases m with
  | state msgID => trivial
  | _ => exact h

/-- The first int of the payload, read at `msg + 5`. -/
theorem readInt_payload (len x : CInt) (id : Byte) (rest : List Byte) (behind : Mem) :
    ((Mem.of (leBytes len ++ id :: (leBytes x ++ rest)) behind).advance 5).readInt = x := by
  have hsplit : leBytes len ++ id :: (leBytes x ++ rest)
      = (leBytes len ++ [id]) ++ (leBytes x ++ rest) := by simp
  rw [hsplit, Mem.of_append]
  show ((Mem.of (leBytes len ++ [id]) _).advance (leBytes len ++ [id]).length).readInt = x
  rw [Mem.advance_of, Mem.readInt_of]

theorem length_blockMessage (i : MsgID) (p o n : CInt) : (blockMessage i p o n).length = 17 := by
  simp [blockMessage]

theorem length_constructBitfieldMessage {bf : List Byte} {n : CInt} (h : n.toNat ≤ bf.length) :
    (constructBitfieldMessage bf n).length = 5 + n.toNat := by
  simp [constructBitfieldMessage, h]
  omega

theorem length_constructPieceMessage {p o n : CInt} {d : List Byte} (h : n.toNat ≤ d.length) :
    (constructPieceMessage p o n d).length = 13 + n.toNat := by
  simp [constructPieceMessage, h]
  omega

/-- The length field plus four is the number of bytes written, as an int
and without wrapping. -/
theorem readInt_bytes {m : WireMsg} (h : m.Fits) (rest : List Byte) (behind : Mem) :
    (Mem.of (m.bytes ++ rest) behind).readInt + 4 = BitVec.ofNat 32 m.bytes.length ∧
      m.bytes.length < 2 ^ 31 := by
  have hfield : ∀ (len : CInt) (payload : List Byte), m.bytes = leBytes len ++ m.id :: payload →
      (Mem.of (m.bytes ++ rest) behind).readInt = len := by
    intro len payload hb
    rw [hb, List.append_assoc, Mem.readInt_of]
  cases m with
  | state msgID =>
      rw [hfield 1 [] rfl]
      exact ⟨rfl, by simp [WireMsg.bytes, constructStateMessage]⟩
  | «have» p =>
      rw [hfield 5 _ rfl]
      exact ⟨rfl, by simp [WireMsg.bytes, constructHaveMessage]⟩
  | bitfield bf n =>
      rw [hfield (n + 1) _ rfl]
      have hlen := length_constructBitfieldMessage h.1
      simp only [WireMsg.bytes, hlen]
      refine ⟨?_, h.2⟩
      rw [BitVec.ofNat_add, BitVec.ofNat_toNat, BitVec.setWidth_eq]
      bv_omega
  | request p o n =>
      rw [hfield 13 _ rfl]
      simp only [WireMsg.bytes, constructRequestMessage, length_blockMessage]
      exact ⟨rfl, by decide⟩
  | piece p o n d =>
      rw [hfield (9 + n) _ rfl]
      have hlen := length_constructPieceMessage (p := p) (o := o) h.1
      simp only [WireMsg.bytes, hlen]
      refine ⟨?_, h.2⟩
      rw [BitVec.ofNat_add, BitVec.ofNat_toNat, BitVec.setWidth_eq]
      bv_omega
  | cancel p o n =>
      rw [hfield 13 _ rfl]
      simp only [WireMsg.bytes, constructCancelMessage, length_blockMessage]
      exact ⟨rfl, by decide⟩

theorem five_le_length (m : WireMsg) : 5 ≤ m.bytes.length := by
  obtain ⟨len, payload, hb⟩ := bytes_split m
  rw [hb, List.length_append, length_leBytes, List.length_cons]
  omega

/-- Decoding one message in front of anything gives it back, and reads no
byte behind it. -/
theorem getNextMsg_bytes {m : WireMsg} (h : m.Fits) {readable : Nat}
    (hreadable : m.bytes.length ≤ readable) (rest : List Byte) (behind : Mem) :
    getNextMsg readable (Mem.of (m.bytes ++ rest) behind)
      = some ⟨m.bytes, m.id, BitVec.ofNat 32 m.bytes.length⟩ := by
  have hfive := five_le_length m
  obtain ⟨hsize, hlt⟩ := readInt_bytes h rest behind
  have hid : Mem.of (m.bytes ++ rest) behind 4 = m.id := by
    obtain ⟨len, payload, hb⟩ := bytes_split m
    rw [hb]
    rfl
  rw [getNextMsg, hsize, toNat_ofNat hlt, if_neg (by rw [toInt_ofNat hlt]; omega), hid,
    Mem.read_of_le (by simp), List.take_left]

/-- **Stream framing.** Any list of constructed messages, followed by any
bytes, decodes to exactly those messages, in order, each with its ID and its
total length, and the pointer ends at the trailing bytes; nothing but the
messages need be readable. -/
theorem stream_framing (ms : List WireMsg) (h : ∀ m ∈ ms, m.Fits) (trailing : List Byte)
    (behind : Mem) (more : Nat) :
    ∃ out, nextMsgs ms.length ((ms.map WireMsg.bytes).flatten.length + more)
          (Mem.of ((ms.map WireMsg.bytes).flatten ++ trailing) behind)
        = some (out, Mem.of trailing behind) ∧
      out.map NextMsg.message = ms.map WireMsg.bytes ∧
      out.map NextMsg.msgID = ms.map WireMsg.id ∧
      out.map (fun n => n.msgSize.toInt) = ms.map (fun m => (m.bytes.length : Int)) := by
  induction ms with
  | nil => exact ⟨[], rfl, rfl, rfl, rfl⟩
  | cons m ms ih =>
      obtain ⟨out, hout, hmsg, hid, hsize⟩ := ih fun m' hm' => h m' (by simp [hm'])
      have hm : m.Fits := h m (by simp)
      have hlt := (readInt_bytes hm [] behind).2
      refine ⟨⟨m.bytes, m.id, BitVec.ofNat 32 m.bytes.length⟩ :: out, ?_, ?_, ?_, ?_⟩
      · have htotal : (m.bytes ++ (ms.map WireMsg.bytes).flatten).length + more - m.bytes.length
            = (ms.map WireMsg.bytes).flatten.length + more := by
          rw [List.length_append]
          omega
        rw [List.length_cons, nextMsgs, List.map_cons, List.flatten_cons, List.append_assoc,
          getNextMsg_bytes hm (by rw [List.length_append]; omega)]
        dsimp only
        rw [toNat_ofNat hlt, Mem.of_append, Mem.advance_of, htotal, hout]
        rfl
      · rw [List.map_cons, List.map_cons, hmsg]
      · rw [List.map_cons, List.map_cons, hid]
      · rw [List.map_cons, List.map_cons, hsize, toInt_ofNat hlt]

/-- A request, a choke and a piece on one stream, with a byte left over. -/
theorem stream_framing_three :
    ∃ out, nextMsgs 3 37 (Mem.of (([WireMsg.request 3 0 0, .state 0, .piece 3 0 2 [65, 66]].map
          WireMsg.bytes).flatten ++ [9]) fun _ => 0) = some (out, Mem.of [9] fun _ => 0) ∧
      out.map NextMsg.message
        = [WireMsg.request 3 0 0, .state 0, .piece 3 0 2 [65, 66]].map WireMsg.bytes ∧
      out.map NextMsg.msgID
        = [WireMsg.request 3 0 0, .state 0, .piece 3 0 2 [65, 66]].map WireMsg.id ∧
      out.map (fun n => n.msgSize.toInt)
        = [WireMsg.request 3 0 0, .state 0, .piece 3 0 2 [65, 66]].map
            (fun m => (m.bytes.length : Int)) :=
  stream_framing [.request 3 0 0, .state 0, .piece 3 0 2 [65, 66]] (by decide) [9] (fun _ => 0) 0

end DubstepDucks.Btp
