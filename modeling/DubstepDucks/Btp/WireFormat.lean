import DubstepDucks.Btp.Messages
import DubstepDucks.CMem.ByteOrder

/-!
# Btp — the constructors against the documented format

`protocol.md` describes a message as a length, an ID and a payload, every
integer of it "a 4-byte big-endian number". The constructors copy ints out of
memory. Both are one layout in two byte orders: `bytes_eq_frame` reads every
constructor as the layout with the bytes lowest first, `specified` is the
layout with the bytes highest first, and the two agree exactly when every
integer of the message reads the same from either end.

The lengths 5, 1 and 13 of the short messages do not, so nothing but a
`BITFIELD` or a `PIECE` of the right size can come out as documented.
-/

namespace DubstepDucks.Btp

open CMem

/-! ## The documented format -/

/-- The ID of a message; the four state messages share a constructor. -/
def WireMsg.specifiedId : WireMsg → Byte
  | .state msgID => msgID
  | .have _ => 4
  | .bitfield _ _ => 5
  | .request _ _ _ => 6
  | .piece _ _ _ _ => 7
  | .cancel _ _ _ => 8

/-- The integers of the payload, in order. -/
def WireMsg.ints : WireMsg → List CInt
  | .state _ => []
  | .have pieceIndex => [pieceIndex]
  | .bitfield _ _ => []
  | .request pieceIndex blockOffset blockLength => [pieceIndex, blockOffset, blockLength]
  | .piece pieceIndex blockOffset _ _ => [pieceIndex, blockOffset]
  | .cancel pieceIndex blockOffset blockLength => [pieceIndex, blockOffset, blockLength]

/-- The bytes behind them: a bitfield or a block. -/
def WireMsg.data : WireMsg → List Byte
  | .bitfield bits bitfieldLen => bits.take bitfieldLen.toNat
  | .piece _ _ pieceLen block => block.take pieceLen.toNat
  | _ => []

/-- The number of bytes behind the length field. -/
def WireMsg.specifiedLength (m : WireMsg) : Nat := 1 + 4 * m.ints.length + m.data.length

/-- The bytes `protocol.md` asks for. -/
def WireMsg.specified (m : WireMsg) : List Byte :=
  beBytes (BitVec.ofNat 32 m.specifiedLength) ++ m.specifiedId ::
    (m.ints.flatMap beBytes ++ m.data)

example : (WireMsg.have 1).specified = [0, 0, 0, 5, 4, 0, 0, 0, 1] := by decide

/-- The buffers passed hold the bytes they are said to hold. -/
def WireMsg.Buffered : WireMsg → Prop
  | .bitfield bits bitfieldLen => bitfieldLen.toNat ≤ bits.length
  | .piece _ _ pieceLen block => pieceLen.toNat ≤ block.length
  | _ => True

theorem WireMsg.Documented.buffered {m : WireMsg} (h : m.Documented) : m.Buffered := by
  cases m with
  | bitfield bits bitfieldLen => exact h.1
  | piece pieceIndex blockOffset pieceLen block => exact h.1
  | state msgID => trivial
  | «have» pieceIndex => trivial
  | request pieceIndex blockOffset blockLength => trivial
  | cancel pieceIndex blockOffset blockLength => trivial

/-- In the documented bytes the length field, read as documented, counts what
follows it. -/
theorem beValue_specified {m : WireMsg} (h : m.specifiedLength < 2 ^ 32) :
    beValue (m.specified.take 4) + 4 = m.specified.length := by
  have hlength : m.specified.length = 4 + m.specifiedLength := by
    rw [WireMsg.specified, List.length_append, length_beBytes, List.length_cons,
      List.length_append, length_flatMap_four length_beBytes, WireMsg.specifiedLength]
    omega
  have hfield : m.specified.take 4 = beBytes (BitVec.ofNat 32 m.specifiedLength) := rfl
  rw [hfield, beValue_beBytes, BitVec.toNat_ofNat, Nat.mod_eq_of_lt h, hlength]
  omega

/-! ## The constructors as one layout -/

theorem specifiedLength_bitfield {bits : List Byte} {bitfieldLen : CInt}
    (h : bitfieldLen.toNat ≤ bits.length) :
    BitVec.ofNat 32 (WireMsg.bitfield bits bitfieldLen).specifiedLength = bitfieldLen + 1 := by
  have hlength : (WireMsg.bitfield bits bitfieldLen).specifiedLength = bitfieldLen.toNat + 1 := by
    rw [WireMsg.specifiedLength, WireMsg.data, List.length_take, Nat.min_eq_left h]
    exact Nat.add_comm 1 _
  rw [hlength, BitVec.ofNat_add, BitVec.ofNat_toNat, BitVec.setWidth_eq]
  rfl

theorem specifiedLength_piece {pieceIndex blockOffset pieceLen : CInt} {block : List Byte}
    (h : pieceLen.toNat ≤ block.length) :
    BitVec.ofNat 32 (WireMsg.piece pieceIndex blockOffset pieceLen block).specifiedLength
      = 9 + pieceLen := by
  have hlength : (WireMsg.piece pieceIndex blockOffset pieceLen block).specifiedLength
      = 9 + pieceLen.toNat := by
    rw [WireMsg.specifiedLength, WireMsg.data, List.length_take, Nat.min_eq_left h]
    rfl
  rw [hlength, BitVec.ofNat_add, BitVec.ofNat_toNat, BitVec.setWidth_eq]
  rfl

/-- Every constructor writes the documented fields in the documented order,
as they lie in memory. -/
theorem bytes_eq_frame {m : WireMsg} (h : m.Buffered) :
    m.bytes = frame leBytes (BitVec.ofNat 32 m.specifiedLength) m.specifiedId m.ints m.data := by
  cases m with
  | state msgID => rfl
  | «have» pieceIndex => rfl
  | bitfield bits bitfieldLen =>
      rw [specifiedLength_bitfield h]
      rfl
  | request pieceIndex blockOffset blockLength => rfl
  | piece pieceIndex blockOffset pieceLen block =>
      rw [specifiedLength_piece h]
      rfl
  | cancel pieceIndex blockOffset blockLength => rfl

/-- So the byte order is all that can differ. -/
theorem bytes_specified_iff_symmetric {m : WireMsg} (h : m.Buffered) :
    m.bytes = m.specified ↔
      Symmetric (BitVec.ofNat 32 m.specifiedLength) ∧ ∀ x ∈ m.ints, Symmetric x := by
  rw [bytes_eq_frame h]
  exact frame_eq_iff _ _ _ _

/-- A message of less than 64 KiB never comes out as documented. -/
theorem bytes_ne_specified_of_short {m : WireMsg} (h : m.Buffered)
    (hshort : m.specifiedLength < 2 ^ 16) : m.bytes ≠ m.specified := by
  intro hsame
  have hsymmetric := ((bytes_specified_iff_symmetric h).mp hsame).1
  have hvalue : (BitVec.ofNat 32 m.specifiedLength).toNat = m.specifiedLength :=
    toNat_ofNat (by omega)
  rw [symmetric_iff_of_lt (by omega)] at hsymmetric
  rw [hsymmetric] at hvalue
  have hpos : 0 < m.specifiedLength := by
    rw [WireMsg.specifiedLength]
    omega
  exact absurd hvalue (Nat.ne_of_lt hpos)

/-! ## When the bytes are the documented ones -/

/-- The integers that the message is made of read the same from either end;
the lengths of the other messages do not. -/
def WireMsg.ReadsSame : WireMsg → Prop
  | .bitfield _ bitfieldLen => Symmetric (bitfieldLen + 1)
  | .piece pieceIndex blockOffset pieceLen _ =>
      Symmetric (9 + pieceLen) ∧ Symmetric pieceIndex ∧ Symmetric blockOffset
  | _ => False

/-- **When a constructor follows the documented format.** For all arguments
whose buffers are as long as they are said to be: never for a state message,
`HAVE`, `REQUEST` and `CANCEL`; for `BITFIELD` and `PIECE` exactly when the
length and the integers behind it read the same from either end. -/
theorem bytes_specified_iff (m : WireMsg) (h : m.Buffered) :
    m.bytes = m.specified ↔ m.ReadsSame := by
  have hone : ¬ Symmetric 1 := by decide
  have hfive : ¬ Symmetric 5 := by decide
  have hthirteen : ¬ Symmetric 13 := by decide
  rw [bytes_specified_iff_symmetric h]
  cases m with
  | state msgID => exact iff_of_false (fun hall => hone hall.1) id
  | «have» pieceIndex => exact iff_of_false (fun hall => hfive hall.1) id
  | bitfield bits bitfieldLen =>
      rw [specifiedLength_bitfield h]
      exact and_iff_left (List.forall_mem_nil _)
  | request pieceIndex blockOffset blockLength =>
      exact iff_of_false (fun hall => hthirteen hall.1) id
  | piece pieceIndex blockOffset pieceLen block =>
      rw [specifiedLength_piece h]
      have hints : (∀ x ∈ [pieceIndex, blockOffset], Symmetric x) ↔
          Symmetric pieceIndex ∧ Symmetric blockOffset := by
        rw [List.forall_mem_cons, List.forall_mem_singleton]
      exact and_congr_right fun _ => hints
  | cancel pieceIndex blockOffset blockLength =>
      exact iff_of_false (fun hall => hthirteen hall.1) id

/-- A bitfield of 2^24 bytes: its length field is 01 00 00 01. -/
theorem bytes_specified_iff_longest :
    (0x1000000 : CInt).toNat ≤ (List.replicate 0x1000000 (0 : Byte)).length ∧
    (WireMsg.bitfield (List.replicate 0x1000000 0) 0x1000000).bytes
      = (WireMsg.bitfield (List.replicate 0x1000000 0) 0x1000000).specified := by
  have hlength : (0x1000000 : CInt).toNat ≤ (List.replicate 0x1000000 (0 : Byte)).length := by
    rw [List.length_replicate]
    exact Nat.le_refl _
  have hsymmetric : Symmetric (0x1000000 + 1) := by decide
  exact ⟨hlength, (bytes_specified_iff (.bitfield (List.replicate 0x1000000 0) 0x1000000)
    hlength).mpr hsymmetric⟩

/-- The length field of `HAVE` is 05 00 00 00. -/
theorem bytes_specified_have :
    (WireMsg.have 1).Documented ∧ (WireMsg.have 1).bytes ≠ (WireMsg.have 1).specified :=
  ⟨trivial, by decide⟩

end DubstepDucks.Btp
