import Mathlib.Data.List.Basic
import DubstepDucks.CMem.Strings

/-!
# CMem — reading numbers

`strtoll` in base ten, beside the texts `printf` produces for ints. The
bytes from a pointer on are a list here, up to the end of the mapped memory:
a scan that runs off that end does not return (`none`).

The one fact the parsers need is `strtoll_signedDecimal`: a printed number is
read back, and the scan stops at the first byte behind it, provided that
byte is not one more digit.
-/

namespace DubstepDucks.CMem

/-! ## Scanning -/

/-- `isspace`. -/
def isSpace (b : Byte) : Bool := b.toNat == 32 || (9 ≤ b.toNat && b.toNat ≤ 13)

/-- `isdigit`. -/
def isDigit (b : Byte) : Bool := 48 ≤ b.toNat && b.toNat ≤ 57

/-- The value of a run of digits. -/
def digitsValue (ds : List Byte) : Nat := ds.foldl (fun n b => 10 * n + (b.toNat - 48)) 0

def llongMax : Int := 2 ^ 63 - 1

def llongMin : Int := -2 ^ 63

/-- An out-of-range value becomes `LLONG_MAX` or `LLONG_MIN`. -/
def saturate (n : Int) : Int := max llongMin (min n llongMax)

/-- The optional sign: whether it is a minus, and the bytes behind it. -/
def scanSign : List Byte → Bool × List Byte
  | 45#8 :: rest => (true, rest)
  | 43#8 :: rest => (false, rest)
  | data => (false, data)

/-- `strtoll(data, &endp, 10)`: the value, and the bytes from `endp` on.
Without a digit the value is zero and `endp` is `data`. -/
def strtoll (data : List Byte) : Option (Int × List Byte) :=
  let (minus, digits) := scanSign (data.dropWhile isSpace)
  let value : Int := digitsValue (digits.takeWhile isDigit)
  match digits.dropWhile isDigit with
  | [] => none
  | endp =>
      if digits.takeWhile isDigit = [] then some (0, data)
      else some (saturate (if minus then -value else value), endp)

/-! ## Printed numbers -/

/-- The text of `%d` and `%lld`. -/
def signedDecimal (n : Int) : List Byte :=
  if n < 0 then 45#8 :: decimal n.natAbs else decimal n.natAbs

theorem isDigit_of_mem_decimal {n : Nat} {x : Byte} (h : x ∈ decimal n) : isDigit x = true := by
  have := decimal_range h
  simp only [isDigit, Bool.and_eq_true, decide_eq_true_eq]
  exact this

theorem decimal_ne_nil (n : Nat) : decimal n ≠ [] := by
  simp [decimal, Nat.toDigits_ne_nil]

/-- A number's digits have the number as their value. -/
theorem digitsValue_decimal (n : Nat) : digitsValue (decimal n) = n := by
  conv => rhs; rw [← Nat.ofDigitChars_ten_toDigits (n := n)]
  rw [digitsValue, decimal, List.foldl_map, Nat.ofDigitChars_eq_foldl]
  apply List.foldl_ext
  intro acc c hc
  have := isDigit_range (Nat.isDigit_of_mem_toDigits (by decide) (by decide) hc)
  rw [BitVec.toNat_ofNat, Nat.mod_eq_of_lt (by omega)]
  rfl

theorem isSpace_of_isDigit {b : Byte} (h : isDigit b = true) : isSpace b = false := by
  simp only [isDigit, Bool.and_eq_true, decide_eq_true_eq] at h
  simp only [isSpace, Bool.or_eq_false_iff, beq_eq_false_iff_ne, Bool.and_eq_false_iff,
    decide_eq_false_iff_not]
  omega

theorem scanSign_of_isDigit {b : Byte} (h : isDigit b = true) (rest : List Byte) :
    scanSign (b :: rest) = (false, b :: rest) := by
  rw [scanSign.eq_def]
  split
  · next heq =>
    cases heq
    exact absurd h (by decide)
  · next heq =>
    cases heq
    exact absurd h (by decide)
  · rfl

/-- The scan of a run of digits stops at the first byte behind it. -/
theorem scan_decimal (n : Nat) {b : Byte} (hb : isDigit b = false) (rest : List Byte) :
    (decimal n ++ b :: rest).takeWhile isDigit = decimal n ∧
    (decimal n ++ b :: rest).dropWhile isDigit = b :: rest := by
  have hall : ∀ x ∈ decimal n, isDigit x = true := fun x hx => isDigit_of_mem_decimal hx
  constructor
  · rw [List.takeWhile_append_of_pos hall, List.takeWhile_cons_of_neg (by simp [hb]),
      List.append_nil]
  · rw [List.dropWhile_append_of_pos hall, List.dropWhile_cons_of_neg (by simp [hb])]

/-- **A printed number is read back**, whatever follows, as long as no
further digit does. -/
theorem strtoll_signedDecimal {n : Int} (hmin : llongMin ≤ n) (hmax : n ≤ llongMax) {b : Byte}
    (hb : isDigit b = false) (rest : List Byte) :
    strtoll (signedDecimal n ++ b :: rest) = some (n, b :: rest) := by
  obtain ⟨htake, hdrop⟩ := scan_decimal n.natAbs hb rest
  have hsat : saturate n = n := by
    rw [saturate]
    omega
  by_cases hneg : n < 0
  · have hskip : (45#8 :: (decimal n.natAbs ++ b :: rest)).dropWhile isSpace
        = 45#8 :: (decimal n.natAbs ++ b :: rest) := List.dropWhile_cons_of_neg (by decide)
    have habs : -(n.natAbs : Int) = n := by omega
    rw [signedDecimal, if_pos hneg, List.cons_append, strtoll, hskip]
    simp only [scanSign, htake, hdrop, digitsValue_decimal, decimal_ne_nil, if_false, if_true,
      habs, hsat]
  · have habs : (n.natAbs : Int) = n := by omega
    obtain ⟨d, ds, hds⟩ := List.exists_cons_of_ne_nil (decimal_ne_nil n.natAbs)
    have hd : isDigit d = true := isDigit_of_mem_decimal (n := n.natAbs) (by simp [hds])
    have hskip : (decimal n.natAbs ++ b :: rest).dropWhile isSpace
        = decimal n.natAbs ++ b :: rest := by
      rw [hds, List.cons_append]
      exact List.dropWhile_cons_of_neg (by simp [isSpace_of_isDigit hd])
    have hsign : scanSign (decimal n.natAbs ++ b :: rest)
        = (false, decimal n.natAbs ++ b :: rest) := by
      rw [hds, List.cons_append]
      exact scanSign_of_isDigit hd _
    rw [signedDecimal, if_neg hneg, strtoll, hskip, hsign]
    simp only [htake, hdrop, digitsValue_decimal, decimal_ne_nil, if_false, Bool.false_eq_true,
      habs, hsat]

end DubstepDucks.CMem
