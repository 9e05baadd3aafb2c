import DubstepDucks.CMem.Bytes
import Mathlib

/-!
# CMem — cutting an interval into blocks

A length `L` is cut into blocks of `P > 0`, the last one possibly short. How
many there are is settled by one equivalence, `CutsInto`: block `k` is one of
the `n` exactly when it starts before `L`. From it the blocks are non-empty,
disjoint and cover the interval; the same for a list and its slices. The
quotient of C, which rounds towards zero, is compared with the quotient
rounded up. Nothing here knows a particular program.
-/

namespace DubstepDucks.CMem

/-! ## Blocks -/

/-- `n` is the number of blocks of length `P` that start before `L`. -/
def CutsInto (L P n : ℤ) : Prop := ∀ k, k < n ↔ k * P < L

/-- Block `k`. -/
def block (L P k : ℤ) : Set ℤ := Set.Ico (k * P) (min (k * P + P) L)

section Blocks

variable {L P n : ℤ}

/-- The quotient, plus one if something remains. -/
theorem cutsInto_quotient (hP : 0 < P) :
    CutsInto L P (L / P + if 0 < L % P then 1 else 0) := by
  intro k
  have hsplit := Int.mul_ediv_add_emod L P
  have hrem := Int.emod_nonneg L (by omega : P ≠ 0)
  have hlast := Int.emod_lt_of_pos L hP
  by_cases hpos : 0 < L % P
  · rw [if_pos hpos, Int.lt_add_one_iff, Int.le_ediv_iff_mul_le hP]
    constructor
    · intro hle
      by_contra hge
      have hmul : k * P = L := by omega
      rw [← hmul, Int.mul_emod_left] at hpos
      omega
    · exact le_of_lt
  · have hexact : L % P = 0 := by omega
    rw [if_neg hpos, add_zero]
    constructor
    · intro hlt
      have hmul : (k + 1) * P ≤ L := (Int.le_ediv_iff_mul_le hP).mp hlt
      rw [Int.add_mul] at hmul
      omega
    · intro hlt
      rw [Int.lt_ediv_iff_mul_lt hP (Int.dvd_of_emod_eq_zero hexact)]
      exact hlt

theorem CutsInto.nonempty (h : CutsInto L P n) (hP : 0 < P) {k : ℤ} (hk : k < n) :
    (block L P k).Nonempty := by
  have hstart := (h k).mp hk
  exact ⟨k * P, le_refl _, lt_min (by omega) hstart⟩

theorem disjoint_block (hP : 0 < P) {k k' : ℤ} (hne : k ≠ k') :
    Disjoint (block L P k) (block L P k') := by
  -- the block with the smaller number ends where the other one starts, or before
  have hbefore : ∀ {i j : ℤ}, i < j → Disjoint (block L P i) (block L P j) := by
    intro i j hij
    have hmul : (i + 1) * P ≤ j * P := Int.mul_le_mul_of_nonneg_right hij (by omega)
    rw [Int.add_mul] at hmul
    rw [Set.disjoint_left]
    rintro x ⟨-, hx⟩ ⟨hx', -⟩
    have := lt_min_iff.mp hx
    omega
  rcases lt_or_gt_of_ne hne with hlt | hgt
  · exact hbefore hlt
  · exact (hbefore hgt).symm

/-- Together the blocks are the interval. -/
theorem CutsInto.iUnion_block (h : CutsInto L P n) (hP : 0 < P) :
    ⋃ k ∈ Set.Ico 0 n, block L P k = Set.Ico 0 L := by
  ext x
  simp only [Set.mem_iUnion, exists_prop, block, Set.mem_Ico, lt_min_iff]
  constructor
  · rintro ⟨k, ⟨hk0, hk⟩, hx, -, hxL⟩
    have hmul : 0 ≤ k * P := Int.mul_nonneg hk0 (by omega)
    omega
  · rintro ⟨hx0, hxL⟩
    have hsplit := Int.mul_ediv_add_emod x P
    have hrem := Int.emod_nonneg x (by omega : P ≠ 0)
    have hlast := Int.emod_lt_of_pos x hP
    have hcomm := Int.mul_comm P (x / P)
    refine ⟨x / P, ⟨Int.ediv_nonneg hx0 (by omega), (h _).mpr (by omega)⟩, by omega, by omega, hxL⟩

end Blocks

/-! ## Rounding up -/

/-- The quotient rounded up. -/
def ceilDiv (a b : ℤ) : ℤ := -((-a).fdiv b)

/-- Rounding up is rounding down and one more for a remainder. -/
theorem neg_neg_ediv {a b : ℤ} (hb : 0 < b) :
    -(-a / b) = a / b + if 0 < a % b then 1 else 0 := by
  have hsplit := Int.mul_ediv_add_emod a b
  have hlow := Int.emod_nonneg a (show b ≠ 0 by omega)
  have hhigh := Int.emod_lt_of_pos a hb
  by_cases hrem : 0 < a % b
  · have hquot : -a / b = -(a / b) - 1 :=
      ((Int.ediv_emod_unique (r := b - a % b) hb).mpr
        ⟨by rw [Int.mul_sub, Int.mul_neg]; omega, by omega, by omega⟩).1
    rw [if_pos hrem, hquot]
    omega
  · have hquot : -a / b = -(a / b) :=
      ((Int.ediv_emod_unique (r := 0) hb).mpr
        ⟨by rw [Int.mul_neg]; omega, by omega, by omega⟩).1
    rw [if_neg hrem, hquot]
    omega

/-- The quotient of C, plus one if the remainder is positive, is rounded up
exactly for a positive divisor and for one that divides. -/
theorem quotient_eq_ceilDiv_iff {a b : ℤ} (hb : b ≠ 0) :
    a.tdiv b + (if 0 < a.tmod b then 1 else 0) = ceilDiv a b ↔ 0 < b ∨ b ∣ a := by
  rcases Int.lt_or_lt_of_ne hb with hneg | hpos
  · obtain ⟨c, rfl⟩ : ∃ c, b = -c := ⟨-b, by omega⟩
    have hc : 0 < c := by omega
    have hceil : ceilDiv a (-c) = -(a / c) := by
      rw [ceilDiv, Int.neg_fdiv_neg, Int.fdiv_eq_ediv_of_nonneg a (Int.le_of_lt hc)]
    rw [hceil, Int.tdiv_neg, Int.tmod_neg, or_iff_right (by omega), Int.neg_dvd]
    rcases Int.le_total 0 a with ha | ha
    · have hlow := Int.emod_nonneg a (show c ≠ 0 by omega)
      rw [Int.tdiv_eq_ediv_of_nonneg ha, Int.tmod_eq_emod_of_nonneg ha,
        Int.dvd_iff_emod_eq_zero]
      split <;> omega
    · obtain ⟨m, rfl⟩ : ∃ m, a = -m := ⟨-a, by omega⟩
      have hm : 0 ≤ m := by omega
      have hlow := Int.emod_nonneg m (show c ≠ 0 by omega)
      rw [Int.neg_tdiv, Int.neg_tmod, Int.tdiv_eq_ediv_of_nonneg hm,
        Int.tmod_eq_emod_of_nonneg hm, neg_neg_ediv hc, Int.dvd_neg, Int.dvd_iff_emod_eq_zero,
        if_neg (by omega)]
      split <;> omega
  · rw [iff_true_right (.inl hpos), ceilDiv, Int.fdiv_eq_ediv_of_nonneg _ (Int.le_of_lt hpos)]
    rcases Int.le_total 0 a with ha | ha
    · rw [Int.tdiv_eq_ediv_of_nonneg ha, Int.tmod_eq_emod_of_nonneg ha, neg_neg_ediv hpos]
    · obtain ⟨m, rfl⟩ : ∃ m, a = -m := ⟨-a, by omega⟩
      have hm : 0 ≤ m := by omega
      have hlow := Int.emod_nonneg m (show b ≠ 0 by omega)
      rw [Int.neg_tdiv, Int.neg_tmod, Int.tdiv_eq_ediv_of_nonneg hm,
        Int.tmod_eq_emod_of_nonneg hm, if_neg (by omega), Int.neg_neg, Int.add_zero]

/-! ## Slices -/

/-- The first `n` slices of a list are its front. -/
theorem flatMap_slices {α : Type} (bs : List α) (P : ℕ) :
    ∀ n : ℕ, (List.range n).flatMap (fun k => (bs.drop (k * P)).take P) = bs.take (n * P) := by
  intro n
  induction n with
  | zero => simp
  | succ n ih =>
      rw [List.range_succ, List.flatMap_append, ih, List.flatMap_singleton, ← List.take_add,
        Nat.succ_mul]

/-- Put together, the slices are the list. -/
theorem CutsInto.flatMap_slices {α : Type} {bs : List α} {P n : ℕ} (h : CutsInto bs.length P n) :
    (List.range n).flatMap (fun k => (bs.drop (k * P)).take P) = bs := by
  have hend : ¬ (n : ℤ) * P < bs.length := fun hlt => lt_irrefl _ ((h n).mpr hlt)
  have hall : bs.length ≤ n * P := by
    rw [← Nat.cast_mul, Nat.cast_lt] at hend
    omega
  rw [CMem.flatMap_slices, List.take_of_length_le hall]

end DubstepDucks.CMem
