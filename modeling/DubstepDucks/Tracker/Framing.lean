import DubstepDucks.Tracker.Memory

/-!
# Tracker — a length in one byte

`buildMsg` puts the length of a text into one byte in front of it, and
`joinTracker` takes it out again. On the way the length is a `size_t`, an
int, the lowest byte of that int, a `char` and an `unsigned int`. The text
comes through as far as all five are the same number, which is up to 127: the
next byte is a negative `char`.

`buildMsg` of `Tracker.Memory` is the message for a length that fits an int;
here the conversion to int is kept (`builtMsg`), so that a text of any length
may be asked about.
-/

namespace DubstepDucks.Tracker

open CMem

/-! ## Both ends -/

/-- What `buildMsg` returns. `none` is the call not returning: a length that
is negative as an int reaches `memcpy` as a huge `size_t`. -/
def builtMsg (msg : CString) : Option (List Byte) :=
  let len : CInt := BitVec.ofNat 32 msg.chars.length
  if len.toInt < 0 then none
  else some ((leBytes len).take 1 ++ msg.chars.take len.toNat)

/-- `unsigned int msg_len = recv_msg[0]`. -/
def msgLen (recvMsg : Mem) : BitVec 32 := (recvMsg 0).signExtend 32

/-- The bytes `recv_msg[i + 1]` for `i < msg_len`. -/
def msgText (recvMsg : Mem) : List Byte := (recvMsg.advance 1).read (msgLen recvMsg).toNat

/-! ## Widths and signs -/

/-- A `char` as an `unsigned int`. -/
theorem toNat_signExtend_byte : ∀ b : Byte, (b.signExtend 32).toNat
    = if b.toNat < 128 then b.toNat else b.toNat + (2 ^ 32 - 2 ^ 8) := by
  decide +kernel

/-- A `char` as a number. -/
theorem toInt_byte (b : Byte) :
    b.toInt = if b.toNat < 128 then (b.toNat : Int) else b.toNat - 256 := by
  have hcond := BitVec.toInt_eq_toNat_cond b
  split at hcond <;> split <;> omega

/-- The message: the lowest byte of the length and as much of the text as the
int says. -/
theorem builtMsg_eq_some {msg : CString} {data : List Byte} :
    builtMsg msg = some data ↔ msg.chars.length % 2 ^ 32 < 2 ^ 31 ∧
      data = BitVec.ofNat 8 msg.chars.length ::
        msg.chars.take (msg.chars.length % 2 ^ 32) := by
  have hsign : (BitVec.ofNat 32 msg.chars.length).toInt < 0 ↔
      ¬ msg.chars.length % 2 ^ 32 < 2 ^ 31 := by
    have hcond := BitVec.toInt_eq_toNat_cond (BitVec.ofNat 32 msg.chars.length)
    rw [BitVec.toNat_ofNat] at hcond
    split at hcond <;> omega
  rw [builtMsg, take_leBytes_one, BitVec.toNat_ofNat]
  by_cases haccepted : msg.chars.length % 2 ^ 32 < 2 ^ 31
  · rw [if_neg (fun hneg => hsign.mp hneg haccepted), Option.some.injEq, eq_comm,
      and_iff_right haccepted]
    rfl
  · rw [if_pos (hsign.mpr haccepted)]
    exact iff_of_false (by simp) fun h => haccepted h.1

/-- For a length that fits an int it is the message of the model without the
conversion. -/
theorem builtMsg_of_lt {msg : CString} (h : msg.chars.length < 2 ^ 31) :
    builtMsg msg = some (buildMsg msg) := by
  rw [builtMsg_eq_some, buildMsg, take_leBytes_one, Nat.mod_eq_of_lt (by omega),
    List.take_length]
  exact ⟨h, rfl⟩

/-! ## What comes through -/

section Through

variable {msg : CString} {data : List Byte}

/-- A short message is decoded whole, whatever lies behind it. -/
theorem decoded_of_short (h : builtMsg msg = some data) (hshort : msg.chars.length < 128)
    (behind : Mem) : msgText (Mem.of data behind) = msg.chars ∧
      (msgLen (Mem.of data behind)).toNat = msg.chars.length := by
  obtain ⟨-, rfl⟩ := builtMsg_eq_some.mp h
  have hbyte : (BitVec.ofNat 8 msg.chars.length).toNat = msg.chars.length := by
    rw [BitVec.toNat_ofNat, Nat.mod_eq_of_lt (by omega)]
  have hlen : (msgLen (Mem.of (BitVec.ofNat 8 msg.chars.length ::
      msg.chars.take (msg.chars.length % 2 ^ 32)) behind)).toNat = msg.chars.length := by
    show ((BitVec.ofNat 8 msg.chars.length).signExtend 32).toNat = _
    rw [toNat_signExtend_byte, hbyte, if_pos hshort]
  refine ⟨?_, hlen⟩
  rw [msgText, hlen, Nat.mod_eq_of_lt (by omega), List.take_length]
  exact Mem.read_advance_of [BitVec.ofNat 8 msg.chars.length] msg.chars behind

/-- The decoded length is that of the text for short texts only. -/
theorem short_of_msgLen (h : builtMsg msg = some data) {behind : Mem}
    (hlen : (msgLen (Mem.of data behind)).toNat = msg.chars.length) :
    msg.chars.length < 128 := by
  obtain ⟨haccepted, rfl⟩ := builtMsg_eq_some.mp h
  have hvalue : ((BitVec.ofNat 8 msg.chars.length).signExtend 32).toNat = msg.chars.length := hlen
  rw [toNat_signExtend_byte, BitVec.toNat_ofNat] at hvalue
  -- a length that is read back from a negative char would not have been accepted
  split at hvalue <;> omega

theorem firstChar_eq_iff (h : builtMsg msg = some data) :
    (data.headD 0).toInt = msg.chars.length ↔ msg.chars.length < 128 := by
  obtain ⟨-, rfl⟩ := builtMsg_eq_some.mp h
  rw [List.headD_cons, toInt_byte, BitVec.toNat_ofNat]
  split <;> omega

end Through

/-- **When a framed message comes through.** For every text that `buildMsg`
accepts, decoding gives back the text and its length exactly when the text
has at most 127 bytes, and so does the first byte alone, read as a `char`. -/
theorem message_framing_iff (msg : CString) (data : List Byte) (h : builtMsg msg = some data) :
    ((∀ behind, msgText (Mem.of data behind) = msg.chars ∧
        (msgLen (Mem.of data behind)).toNat = msg.chars.length) ↔ msg.chars.length < 128) ∧
    ((data.headD 0).toInt = msg.chars.length ↔ msg.chars.length < 128) := by
  refine ⟨⟨?_, fun hshort behind => decoded_of_short h hshort behind⟩, firstChar_eq_iff h⟩
  intro hdecoded
  exact short_of_msgLen h (hdecoded fun _ => 0).2

/-- The message of the unit test. -/
theorem message_framing_iff_test :
    builtMsg (literal "test message please ignore")
      = some (26 :: ascii "test message please ignore") ∧
    msgText (Mem.of (26 :: ascii "test message please ignore") fun _ => 0)
      = ascii "test message please ignore" := by
  have hbuilt : builtMsg (literal "test message please ignore")
      = some (26 :: ascii "test message please ignore") := by decide
  have hframed := (message_framing_iff _ _ hbuilt).1.mpr (by decide)
  exact ⟨hbuilt, (hframed fun _ => 0).1⟩

/-- A text of 128 bytes. -/
def longText : CString := ⟨List.replicate 128 97, by decide⟩

/-- Its length is -128 as a `char`. -/
theorem message_framing_long :
    ¬ ∀ (msg : CString) (data : List Byte), builtMsg msg = some data →
      (∀ behind, msgText (Mem.of data behind) = msg.chars ∧
        (msgLen (Mem.of data behind)).toNat = msg.chars.length) ∧
      (data.headD 0).toInt = msg.chars.length := by
  intro hclaim
  have hbuilt : builtMsg longText = some (128 :: List.replicate 128 97) := by decide +kernel
  have hfirst := (hclaim _ _ hbuilt).2
  exact absurd hfirst (by decide)

end DubstepDucks.Tracker
