import DubstepDucks.CMem.Numbers

/-!
# CMem — `inet_pton`

The reader of dotted addresses, beside `inet_ntoa`, their printer: four
decimal numbers of at most 255 without leading zeros, with a dot between each
two and nothing behind the last. `none` is the answer 0, with which the
address stays as it was.

`inetPton_dotted` says that what `inet_ntoa` printed is read back, and
`length_of_inetPton` that no longer text is read at all: an address never
needs more than fifteen characters.
-/

namespace DubstepDucks.CMem

/-- One octet at the start of a text, and what stands behind it. -/
def scanOctet (text : List Byte) : Option (Byte × List Byte) :=
  let digits := text.takeWhile isDigit
  if digits ≠ [] ∧ digits.length ≤ 3 ∧ digitsValue digits ≤ 255 ∧
      (digits.head? = some 48#8 → digits.length = 1) then
    some (BitVec.ofNat 8 (digitsValue digits), text.dropWhile isDigit)
  else none

/-- The dot between two octets. -/
def scanDot : List Byte → Option (List Byte)
  | [] => none
  | b :: rest => if b = 46#8 then some rest else none

/-- `inet_pton(AF_INET, text, …)`. -/
def inetPton (text : List Byte) : Option InAddr := do
  let (a, text) ← scanOctet text
  let text ← scanDot text
  let (b, text) ← scanOctet text
  let text ← scanDot text
  let (c, text) ← scanOctet text
  let text ← scanDot text
  let (d, text) ← scanOctet text
  if text = [] then some ⟨a, b, c, d⟩ else none

/-- A printed number begins with a zero only if it is one. -/
theorem eq_zero_of_head_decimal (n : Nat) : (decimal n).head? = some 48#8 → n = 0 := by
  induction n using Nat.strongRecOn with
  | ind n ih =>
      intro h
      rcases Nat.lt_or_ge n 10 with hlt | hge
      · have hdigit : ∀ k < 10, BitVec.ofNat 8 k.digitChar.toNat = 48#8 → k = 0 := by decide
        rw [decimal, Nat.toDigits_of_lt_base hlt] at h
        exact hdigit n hlt (Option.some.inj h)
      · have hsplit : decimal n = decimal (n / 10) ++ decimal (n % 10) := by
          rw [decimal, Nat.toDigits_of_base_le (by decide) hge, List.map_append, decimal, decimal,
            Nat.toDigits_of_lt_base (Nat.mod_lt n (by decide))]
        rw [hsplit, List.head?_append_of_ne_nil _ (decimal_ne_nil _)] at h
        have hzero := ih (n / 10) (by omega) h
        omega

theorem scanOctet_decimal (x : Byte) {rest : List Byte}
    (hrest : ∀ b ∈ rest.head?, isDigit b = false) :
    scanOctet (decimal x.toNat ++ rest) = some (x, rest) := by
  have hscan : (decimal x.toNat ++ rest).takeWhile isDigit = decimal x.toNat ∧
      (decimal x.toNat ++ rest).dropWhile isDigit = rest := by
    cases rest with
    | nil =>
        have hall : ∀ b ∈ decimal x.toNat, isDigit b = true := fun b hb => isDigit_of_mem_decimal hb
        rw [List.takeWhile_append_of_pos hall, List.dropWhile_append_of_pos hall]
        exact ⟨List.append_nil _, rfl⟩
    | cons b rest => exact scan_decimal x.toNat (hrest b rfl) rest
  have hlen : (decimal x.toNat).length ≤ 3 :=
    length_decimal_le (by decide) (by have := x.isLt; omega)
  have hvalue : x.toNat ≤ 255 := by
    have := x.isLt
    omega
  have hzero : (decimal x.toNat).head? = some 48#8 → (decimal x.toNat).length = 1 := by
    intro h
    rw [eq_zero_of_head_decimal _ h]
    rfl
  rw [scanOctet]
  simp only [hscan.1, hscan.2, digitsValue_decimal]
  rw [if_pos ⟨decimal_ne_nil _, hlen, hvalue, hzero⟩, BitVec.ofNat_toNat, BitVec.setWidth_eq]

/-- **A printed address is read back.** -/
theorem inetPton_dotted (addr : InAddr) : inetPton (dotted addr) = some addr := by
  have hdot : ∀ (b : Byte) (rest : List Byte), b ∈ (46#8 :: rest).head? → isDigit b = false := by
    intro b rest hb
    cases hb
    decide
  rw [inetPton, dotted, scanOctet_decimal _ fun b hb => hdot b _ hb]
  simp only [Option.bind_eq_bind, Option.bind_some, scanDot, if_true]
  rw [scanOctet_decimal _ fun b hb => hdot b _ hb]
  simp only [Option.bind_some, if_true]
  rw [scanOctet_decimal _ fun b hb => hdot b _ hb]
  simp only [Option.bind_some, if_true]
  rw [← List.append_nil (decimal addr.d.toNat), scanOctet_decimal _ (by simp)]
  rfl

/-! ## How long an address can be -/

theorem length_of_scanOctet {text rest : List Byte} {x : Byte}
    (h : scanOctet text = some (x, rest)) : text.length ≤ rest.length + 3 := by
  rw [scanOctet] at h
  split at h
  · next hdigits =>
    cases h
    have hsplit := congrArg List.length (List.takeWhile_append_dropWhile (p := isDigit) (l := text))
    rw [List.length_append] at hsplit
    omega
  · cases h

theorem length_of_scanDot {text rest : List Byte} (h : scanDot text = some rest) :
    text.length = rest.length + 1 := by
  cases text with
  | nil => cases h
  | cons b text =>
      rw [scanDot] at h
      split at h
      · cases h
        rfl
      · cases h

/-- Four octets and three dots. -/
theorem length_of_inetPton {text : List Byte} {addr : InAddr} (h : inetPton text = some addr) :
    text.length ≤ 15 := by
  simp only [inetPton, Option.bind_eq_bind, Option.bind_eq_some_iff, Prod.exists] at h
  obtain ⟨a, t₁, ha, t₂, hdot₁, b, t₃, hb, t₄, hdot₂, c, t₅, hc, t₆, hdot₃, d, t₇, hd, hend⟩ := h
  have hempty : t₇ = [] := by
    split at hend
    · assumption
    · cases hend
  rw [hempty] at hd
  have := length_of_scanOctet ha
  have := length_of_scanDot hdot₁
  have := length_of_scanOctet hb
  have := length_of_scanDot hdot₂
  have := length_of_scanOctet hc
  have := length_of_scanDot hdot₃
  have := length_of_scanOctet hd
  rw [List.length_nil] at this
  omega

end DubstepDucks.CMem
