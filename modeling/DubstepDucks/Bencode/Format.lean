import DubstepDucks.CMem.Numbers

/-!
# Bencode — the format

What a bencoded text is, apart from any reader or writer: a tree of byte
strings, integers, lists and dictionaries, and the text each tree has. The
markers are the bytes of `i`, `l`, `d`, `e` and `:`.

`Value.Readable` says which trees a reader with `long long` integers can
hold; it asks for at least one entry in every list and dictionary, which the
format itself does not.
-/

namespace DubstepDucks.Bencode

open CMem

/-- A bencoded value. -/
inductive Value where
  | str (s : List Byte)
  | int (n : Int)
  | list (vs : List Value)
  | dict (es : List (List Byte × Value))

/-- The text of a byte string: its length, a colon, its bytes. -/
def strText (s : List Byte) : List Byte := decimal s.length ++ 58#8 :: s

/-- The text of an integer. -/
def intText (n : Int) : List Byte := 105#8 :: (signedDecimal n ++ [101#8])

mutual

def Value.text : Value → List Byte
  | .str s => strText s
  | .int n => intText n
  | .list vs => 108#8 :: (listText vs ++ [101#8])
  | .dict es => 100#8 :: (dictText es ++ [101#8])

def listText : List Value → List Byte
  | [] => []
  | v :: vs => v.text ++ listText vs

def dictText : List (List Byte × Value) → List Byte
  | [] => []
  | (key, v) :: es => strText key ++ (v.text ++ dictText es)

end

mutual

def Value.Readable : Value → Prop
  | .str s => (s.length : Int) ≤ llongMax
  | .int n => llongMin ≤ n ∧ n ≤ llongMax
  | .list vs => vs ≠ [] ∧ ReadableList vs
  | .dict es => es ≠ [] ∧ ReadableDict es

def ReadableList : List Value → Prop
  | [] => True
  | v :: vs => v.Readable ∧ ReadableList vs

def ReadableDict : List (List Byte × Value) → Prop
  | [] => True
  | (key, v) :: es => (key.length : Int) ≤ llongMax ∧ v.Readable ∧ ReadableDict es

end

/-! ## How texts begin -/

/-- A byte string's text begins with a digit. -/
theorem strText_head (s : List Byte) : ∃ b t, strText s = b :: t ∧ isDigit b = true := by
  obtain ⟨d, ds, hds⟩ := List.exists_cons_of_ne_nil (decimal_ne_nil s.length)
  refine ⟨d, ds ++ 58#8 :: s, ?_, isDigit_of_mem_decimal (n := s.length) (by simp [hds])⟩
  rw [strText, hds, List.cons_append]

/-- No value's text begins with the closing marker. -/
theorem Value.text_head (v : Value) : ∃ b t, v.text = b :: t ∧ b ≠ 101#8 := by
  cases v with
  | str s =>
      obtain ⟨b, t, hs, hb⟩ := strText_head s
      refine ⟨b, t, by rw [Value.text, hs], ?_⟩
      intro he
      rw [he] at hb
      exact absurd hb (by decide)
  | int n => exact ⟨105#8, _, by rw [Value.text, intText], by decide⟩
  | list vs => exact ⟨108#8, _, by rw [Value.text], by decide⟩
  | dict es => exact ⟨100#8, _, by rw [Value.text], by decide⟩

theorem Value.length_text_pos (v : Value) : 0 < v.text.length := by
  obtain ⟨b, t, hv, -⟩ := v.text_head
  simp [hv]

theorem length_strText (s : List Byte) :
    (strText s).length = (decimal s.length).length + 1 + s.length := by
  simp only [strText, List.length_append, List.length_cons]
  omega

end DubstepDucks.Bencode
