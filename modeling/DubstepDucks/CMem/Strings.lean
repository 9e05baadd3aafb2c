import DubstepDucks.CMem.Bytes

/-!
# CMem — C strings

NUL-terminated strings and the library functions that walk them. A
`CString` carries the proof that its characters hold no terminator, so
`strcmp` answering zero IS equality and a string read back out of memory is
the string that was put there.

The decimal and dotted-address texts at the end are what `printf("%d")` and
`inet_ntoa` produce; the facts kept are the ones a reader of such a text
relies on: which characters occur, how many, and that the text determines
the value.
-/

namespace DubstepDucks.CMem

/-- The characters of a C string, without the terminator. -/
structure CString where
  chars : List Byte
  nulFree : (0 : Byte) ∉ chars
  deriving DecidableEq

theorem CString.ext_chars {s t : CString} (h : s.chars = t.chars) : s = t := by
  cases s
  cases t
  simpa using h

/-- The string's object in memory: its characters, the terminator, and
whatever follows the allocation. -/
def CString.mem (s : CString) (behind : Mem) : Mem := Mem.of (s.chars ++ [0]) behind

/-- The string a reader finds at the start of a buffer. -/
def cstr (bs : List Byte) : List Byte := bs.takeWhile (· ≠ 0)

theorem nul_notMem_cstr (bs : List Byte) : (0 : Byte) ∉ cstr bs := by
  intro h
  have := List.all_eq_true.mp List.all_takeWhile _ h
  simp at this

/-- The string runs through a part without NUL. -/
theorem cstr_append {s : List Byte} (h : (0 : Byte) ∉ s) (rest : List Byte) :
    cstr (s ++ rest) = s ++ cstr rest := by
  unfold cstr
  rw [List.takeWhile_append_of_pos]
  intro a ha
  simp only [ne_eq, decide_eq_true_eq]
  exact fun h0 => h (h0 ▸ ha)

theorem cstr_of_nulFree {s : List Byte} (h : (0 : Byte) ∉ s) : cstr s = s := by
  have := cstr_append h []
  simpa [cstr] using this

/-- Bytes with a NUL are their string, a NUL, and what follows it. -/
theorem exists_cstr_append {bs : List Byte} (h : (0 : Byte) ∈ bs) :
    ∃ rest, bs = cstr bs ++ 0 :: rest := by
  induction bs with
  | nil => cases h
  | cons b bs ih =>
      by_cases hb : b = 0
      · exact ⟨bs, by simp [cstr, hb]⟩
      · have hbs : (0 : Byte) ∈ bs := by
          rcases List.mem_cons.mp h with h | h
          · exact absurd h.symm hb
          · exact h
        obtain ⟨rest, hrest⟩ := ih hbs
        refine ⟨rest, ?_⟩
        have hcons : cstr (b :: bs) = b :: cstr bs := List.takeWhile_cons_of_pos (by simpa using hb)
        rw [hcons, List.cons_append, ← hrest]

/-- ASCII text as bytes. -/
def ascii (s : String) : List Byte := s.toList.map fun c => BitVec.ofNat 8 c.toNat

/-- A string literal. -/
def literal (s : String) (h : (0 : Byte) ∉ ascii s := by decide) : CString := ⟨ascii s, h⟩

/-- The empty string. -/
def CString.empty : CString := literal ""

@[simp] theorem chars_literal (s : String) (h : (0 : Byte) ∉ ascii s) :
    (literal s h).chars = ascii s := rfl

/-! ## Concatenation, capacities apart -/

/-- Two strings, one after the other. -/
def CString.append (s t : CString) : CString where
  chars := s.chars ++ t.chars
  nulFree := by
    rw [List.mem_append, not_or]
    exact ⟨s.nulFree, t.nulFree⟩

/-- The first `n` characters. -/
def CString.take (s : CString) (n : Nat) : CString where
  chars := s.chars.take n
  nulFree := fun h => s.nulFree (List.mem_of_mem_take h)

/-- `strncat(dst, src, n)`: at most `n` characters of `src`. -/
def CString.strncat (dst src : CString) (n : Nat) : CString := dst.append (src.take n)

/-- A row of `strncat` calls with one bound. -/
def CString.strncats (dst : CString) (srcs : List CString) (n : Nat) : CString :=
  srcs.foldl (fun dst src => dst.strncat src n) dst

/-- No call of the row cuts its source when the result is shorter than the
bound. -/
theorem CString.chars_strncats {n : Nat} :
    ∀ (srcs : List CString) (dst : CString), (dst.strncats srcs n).chars.length < n →
    (dst.strncats srcs n).chars = dst.chars ++ (srcs.map CString.chars).flatten := by
  intro srcs
  induction srcs with
  | nil =>
      intro dst _
      simp [CString.strncats]
  | cons src srcs ih =>
      intro dst h
      have hrest := ih (dst.strncat src n) h
      have hcut : src.chars.take n = src.chars := by
        apply List.take_of_length_le
        have hlen := congrArg List.length hrest
        have : ((dst.strncat src n).strncats srcs n).chars.length < n := h
        simp only [CString.strncat, CString.append, CString.take, List.length_append,
          List.length_take] at hlen
        simp only [CString.strncat, CString.append, CString.take] at this
        omega
      show ((dst.strncat src n).strncats srcs n).chars = _
      rw [hrest]
      simp [CString.strncat, CString.append, CString.take, hcut]

/-! ## Walking to the terminator -/

/-- The offset of the first NUL among the first `size` bytes. -/
def Mem.findNul (m : Mem) : Nat → Option Nat
  | 0 => none
  | size + 1 => if m 0 = 0 then some 0 else ((m.advance 1).findNul size).map (· + 1)

/-- `strcat(m, t)` in a buffer of `size` bytes; `none` when it writes past
the buffer. -/
def Mem.strcat (m : Mem) (size : Nat) (t : List Byte) : Option Mem :=
  match m.findNul size with
  | none => none
  | some z => if z + t.length < size then some (m.write z (t ++ [0])) else none

/-- The first bytes of a fresh block after `strcpy` from `src`, as many as
`src` has: its characters, the terminator, and what the block held. -/
def strcpy (src : List Byte) (fresh : Mem) : List Byte :=
  (fresh.write 0 (cstr src ++ [0])).read src.length

theorem Mem.findNul_spec {m : Mem} {size z : Nat} (h : m.findNul size = some z) :
    z < size ∧ m z = 0 ∧ ∀ i, i < z → m i ≠ 0 := by
  induction size generalizing m z with
  | zero => simp [Mem.findNul] at h
  | succ size ih =>
      rw [Mem.findNul] at h
      by_cases h0 : m 0 = 0
      · rw [if_pos h0, Option.some.injEq] at h
        subst h
        exact ⟨by omega, h0, by omega⟩
      · rw [if_neg h0, Option.map_eq_some_iff] at h
        obtain ⟨z, hz, rfl⟩ := h
        obtain ⟨hlt, hnul, hbefore⟩ := ih hz
        have hshift : ∀ i, m.advance 1 i = m (i + 1) := fun i => by rw [Mem.advance, Nat.add_comm]
        refine ⟨by omega, by rw [← hshift, hnul], ?_⟩
        intro i hi
        cases i with
        | zero => exact h0
        | succ i =>
            rw [← hshift]
            exact hbefore i (by omega)

/-! ## Comparison -/

/-- `strcmp` on the characters before the terminators. Bytes compare as
`unsigned char`; the shorter string compares its terminator. -/
def strcmpChars : List Byte → List Byte → Int
  | [], [] => 0
  | [], b :: _ => - (b.toNat : Int)
  | a :: _, [] => a.toNat
  | a :: s, b :: t => if a = b then strcmpChars s t else (a.toNat : Int) - b.toNat

def strcmp (s t : CString) : Int := strcmpChars s.chars t.chars

/-- `strncmp(s, t, n)` against a literal `t` (its terminator is implied). -/
def strncmp (s : Mem) : List Byte → Nat → Int
  | _, 0 => 0
  | [], _ + 1 => (s 0).toNat
  | c :: t, n + 1 => if s 0 = c then strncmp (s.advance 1) t n else ((s 0).toNat : Int) - c.toNat

private theorem toNat_ne_of_ne {a b : Byte} (h : a ≠ b) : (a.toNat : Int) - b.toNat ≠ 0 := by
  intro hc
  apply h
  apply BitVec.eq_of_toNat_eq
  omega

private theorem strcmpChars_eq_zero :
    ∀ (s t : List Byte), (0 : Byte) ∉ s → (0 : Byte) ∉ t →
    (strcmpChars s t = 0 ↔ s = t) := by
  intro s
  induction s with
  | nil =>
      intro t _ ht
      cases t with
      | nil => simp [strcmpChars]
      | cons b t =>
          have hb : b ≠ 0 := fun h => ht (by simp [h])
          have := toNat_ne_of_ne hb
          simp only [strcmpChars, reduceCtorEq, iff_false]
          simp only [BitVec.ofNat_eq_ofNat, BitVec.toNat_ofNat] at this
          omega
  | cons a s ih =>
      intro t hs ht
      cases t with
      | nil =>
          have ha : a ≠ 0 := fun h => hs (by simp [h])
          have := toNat_ne_of_ne ha
          simp only [strcmpChars, reduceCtorEq, iff_false]
          simp only [BitVec.ofNat_eq_ofNat, BitVec.toNat_ofNat] at this
          omega
      | cons b t =>
          simp only [List.mem_cons, not_or] at hs ht
          by_cases hab : a = b
          · simp [strcmpChars, hab, ih t hs.2 ht.2]
          · simp [strcmpChars, hab, toNat_ne_of_ne hab]

/-- `strcmp` answers zero exactly on equal strings. -/
theorem strcmp_eq_zero (s t : CString) : strcmp s t = 0 ↔ s = t := by
  rw [strcmp, strcmpChars_eq_zero _ _ s.nulFree t.nulFree]
  exact ⟨CString.ext_chars, fun h => by rw [h]⟩

/-- `strncmp` answers zero exactly when the first `n` bytes are the
literal's, provided the literal has that many. -/
theorem strncmp_eq_zero (t : List Byte) :
    ∀ (s : Mem) (n : Nat), n ≤ t.length → (strncmp s t n = 0 ↔ s.read n = t.take n) := by
  induction t with
  | nil =>
      intro s n hn
      have hn0 : n = 0 := by simpa using hn
      subst hn0
      simp [strncmp]
  | cons c t ih =>
      intro s n hn
      cases n with
      | zero => simp [strncmp]
      | succ n =>
          have hread : s.read (n + 1) = s 0 :: (s.advance 1).read n := by
            rw [Nat.add_comm, Mem.read_add]
            rfl
          rw [hread, List.take_succ_cons, List.cons.injEq]
          by_cases hc : s 0 = c
          · simp [strncmp, hc, ih (s.advance 1) n (by simpa using hn)]
          · simp [strncmp, hc, toNat_ne_of_ne hc]

/-! ## Strings in buffers -/

theorem cstr_append_nul {s : List Byte} (h : (0 : Byte) ∉ s) (rest : List Byte) :
    cstr (s ++ 0 :: rest) = s := by
  rw [cstr_append h]
  simp [cstr]

/-- Copying `n` bytes of a string shorter than `n` copies the string whole,
whatever lies behind its terminator. -/
theorem CString.read_mem {s : CString} {n : Nat} (h : s.chars.length < n) (behind : Mem) :
    (s.mem behind).read n = s.chars ++ 0 :: behind.read (n - (s.chars.length + 1)) := by
  have hsplit : n = (s.chars ++ [0]).length + (n - (s.chars.length + 1)) := by
    simp
    omega
  conv => lhs; rw [hsplit]
  rw [Mem.read_add, CString.mem, Mem.read_of_length, Mem.advance_of]
  simp

theorem CString.cstr_read_mem {s : CString} {n : Nat} (h : s.chars.length < n) (behind : Mem) :
    cstr ((s.mem behind).read n) = s.chars := by
  rw [CString.read_mem h, cstr_append_nul s.nulFree]

/-! ## Decimal and dotted-address texts -/

/-- The text of `%d` for a non-negative number. -/
def decimal (n : Nat) : List Byte := (Nat.toDigits 10 n).map fun c => BitVec.ofNat 8 c.toNat

/-- An IPv4 address, as four octets in network order. -/
structure InAddr where
  a : Byte
  b : Byte
  c : Byte
  d : Byte
  deriving DecidableEq

theorem isDigit_range {c : Char} (h : c.isDigit = true) :
    48 ≤ c.toNat ∧ c.toNat ≤ 57 := by
  simp only [Char.isDigit, Bool.and_eq_true, decide_eq_true_eq] at h
  obtain ⟨h1, h2⟩ := h
  exact ⟨h1, h2⟩

/-- A decimal text holds digits only. -/
theorem decimal_range {n : Nat} {x : Byte} (h : x ∈ decimal n) :
    48 ≤ x.toNat ∧ x.toNat ≤ 57 := by
  simp only [decimal, List.mem_map] at h
  obtain ⟨c, hc, rfl⟩ := h
  have := isDigit_range (Nat.isDigit_of_mem_toDigits (by decide) (by decide) hc)
  rw [BitVec.toNat_ofNat, Nat.mod_eq_of_lt (by omega)]
  exact this

theorem notMem_decimal {n : Nat} {x : Byte} (h : x.toNat < 48) : x ∉ decimal n := by
  intro hc
  have := decimal_range hc
  omega

theorem length_decimal_le {n k : Nat} (hk : 0 < k) (h : n < 10 ^ k) :
    (decimal n).length ≤ k := by
  rw [decimal, List.length_map]
  exact (Nat.length_toDigits_le_iff (by decide) hk).mpr h

/-- The digits are recovered from the text, hence so is the number. -/
theorem map_decimal (n : Nat) :
    (decimal n).map (fun x => Char.ofNat x.toNat) = Nat.toDigits 10 n := by
  rw [decimal, List.map_map]
  conv => rhs; rw [← List.map_id (Nat.toDigits 10 n)]
  apply List.map_congr_left
  intro c hc
  have := isDigit_range (Nat.isDigit_of_mem_toDigits (by decide) (by decide) hc)
  simp only [Function.comp_apply, BitVec.toNat_ofNat, id_eq]
  rw [Nat.mod_eq_of_lt (by omega), Char.ofNat_toNat]

theorem decimal_injective {m n : Nat} (h : decimal m = decimal n) : m = n := by
  have hlist : Nat.toDigits 10 m = Nat.toDigits 10 n := by
    rw [← map_decimal, h, map_decimal]
  rw [← Nat.ofDigitChars_ten_toDigits (n := m), hlist, Nat.ofDigitChars_ten_toDigits]

/-- A text before the first separator is determined by the whole. -/
theorem append_sep_inj {c : Byte} :
    ∀ {x y r s : List Byte}, c ∉ x → c ∉ y → x ++ c :: r = y ++ c :: s → x = y ∧ r = s := by
  intro x
  induction x with
  | nil =>
      intro y r s _ hy h
      cases y with
      | nil => simpa using h
      | cons b y =>
          simp only [List.nil_append, List.cons_append, List.cons.injEq] at h
          exact absurd (by simp [h.1]) hy
  | cons a x ih =>
      intro y r s hx hy h
      cases y with
      | nil =>
          simp only [List.nil_append, List.cons_append, List.cons.injEq] at h
          exact absurd (by simp [h.1]) hx
      | cons b y =>
          simp only [List.cons_append, List.cons.injEq] at h
          simp only [List.mem_cons, not_or] at hx hy
          obtain ⟨hxy, hrs⟩ := ih hx.2 hy.2 h.2
          exact ⟨by rw [h.1, hxy], hrs⟩

/-- The characters of `inet_ntoa`: four octets in decimal, joined by `.`
(byte 46). -/
def dotted (addr : InAddr) : List Byte :=
  decimal addr.a.toNat ++ 46#8 :: (decimal addr.b.toNat ++ 46#8 ::
    (decimal addr.c.toNat ++ 46#8 :: decimal addr.d.toNat))

/-- `inet_ntoa`. -/
def inetNtoa (addr : InAddr) : CString where
  chars := dotted addr
  nulFree := by
    simp only [dotted, List.mem_append, List.mem_cons, not_or]
    have h0 : ∀ n, (0 : Byte) ∉ decimal n := fun n => notMem_decimal (by decide)
    exact ⟨h0 _, by decide, h0 _, by decide, h0 _, by decide, h0 _⟩

theorem length_inetNtoa_le (addr : InAddr) : (inetNtoa addr).chars.length ≤ 15 := by
  have h : ∀ x : Byte, (decimal x.toNat).length ≤ 3 := fun x =>
    length_decimal_le (by decide) (by have := x.isLt; omega)
  have ha := h addr.a
  have hb := h addr.b
  have hc := h addr.c
  have hd := h addr.d
  simp only [inetNtoa, dotted, List.length_append, List.length_cons]
  omega

/-- Distinct addresses print differently. -/
theorem inetNtoa_injective {x y : InAddr} (h : inetNtoa x = inetNtoa y) : x = y := by
  have hdot : ∀ n, (46#8 : Byte) ∉ decimal n := fun n => notMem_decimal (by decide)
  have hoct : ∀ {u v : Byte}, decimal u.toNat = decimal v.toNat → u = v := fun huv =>
    BitVec.eq_of_toNat_eq (decimal_injective huv)
  have hc : dotted x = dotted y := congrArg CString.chars h
  -- peel the octets off one dot at a time: a decimal text holds no dot
  obtain ⟨h1, hc⟩ := append_sep_inj (hdot _) (hdot _) hc
  obtain ⟨h2, hc⟩ := append_sep_inj (hdot _) (hdot _) hc
  obtain ⟨h3, h4⟩ := append_sep_inj (hdot _) (hdot _) hc
  obtain ⟨a, b, c, d⟩ := x
  obtain ⟨a', b', c', d'⟩ := y
  simp only [InAddr.mk.injEq]
  exact ⟨hoct h1, hoct h2, hoct h3, hoct h4⟩

end DubstepDucks.CMem
