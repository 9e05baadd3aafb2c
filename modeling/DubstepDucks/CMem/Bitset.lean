import DubstepDucks.CMem.Bytes
import Mathlib.Data.Finset.Prod
import Mathlib.Data.Finset.Card

/-!
# CMem — a block of bytes as a set of bits

The bits set in the first `n` bytes behind a pointer, as a finite set of
pairs (byte, bit). An algorithm over bitfields is then a statement about
sets: ANDing two blocks is the intersection, setting a bit is an insertion,
counting bits is the cardinality. Nothing here knows a particular program.

* `Mem.bitSet m n` — the set bits of the block, `Mem.mem_bitSet`;
* `setBits bits` — the same for a list of bytes, `Mem.bitSet_of`;
* `weight b` — the number of bits of one byte;
* `Mem.card_bitSet_succ` — the induction over the bytes;
* `card_setBits_append`, `card_setBits_le` — counting is additive over
  concatenation and monotone.
-/

namespace DubstepDucks.CMem

/-- The bits set in the first `n` bytes. -/
def Mem.bitSet (m : Mem) (n : Nat) : Finset (Nat × Nat) :=
  (Finset.range n ×ˢ Finset.range 8).filter fun q => (m q.1).getLsbD q.2 = true

theorem Mem.mem_bitSet {m : Mem} {n x j : Nat} :
    (x, j) ∈ m.bitSet n ↔ x < n ∧ j < 8 ∧ (m x).getLsbD j = true := by
  simp [Mem.bitSet, and_assoc]

/-- The bits set in a list of bytes. -/
def setBits (bits : List Byte) : Finset (Nat × Nat) :=
  (Finset.range bits.length ×ˢ Finset.range 8).filter fun q =>
    (bits.getD q.1 0).getLsbD q.2 = true

theorem mem_setBits {bits : List Byte} {x j : Nat} :
    (x, j) ∈ setBits bits ↔ x < bits.length ∧ j < 8 ∧ (bits.getD x 0).getLsbD j = true := by
  simp [setBits, and_assoc]

/-- What lies behind the list has no part in it. -/
theorem Mem.bitSet_of (bits : List Byte) (behind : Mem) :
    (Mem.of bits behind).bitSet bits.length = setBits bits := by
  ext ⟨x, j⟩
  rw [Mem.mem_bitSet, mem_setBits]
  constructor
  · intro ⟨hx, hj, hset⟩
    rw [Mem.of_lt hx] at hset
    exact ⟨hx, hj, hset⟩
  · intro ⟨hx, hj, hset⟩
    rw [← Mem.of_lt hx behind] at hset
    exact ⟨hx, hj, hset⟩

/-- The bytes of two blocks ANDed. -/
def Mem.and (m m' : Mem) : Mem := fun i => m i &&& m' i

theorem Mem.bitSet_and (m m' : Mem) (n : Nat) :
    (m.and m').bitSet n = m.bitSet n ∩ m'.bitSet n := by
  ext ⟨x, j⟩
  rw [Finset.mem_inter, Mem.mem_bitSet, Mem.mem_bitSet, Mem.mem_bitSet, Mem.and,
    BitVec.getLsbD_and, Bool.and_eq_true]
  tauto

/-! ## Setting a bit -/

/-- `|= 1 << n` on a byte sets bit `n` and keeps the others. -/
theorem getLsbD_or_shift (b : Byte) {n j : Nat} (hn : n < 8) :
    (b ||| (1 <<< n)).getLsbD j = (b.getLsbD j || decide (j = n)) := by
  rw [BitVec.getLsbD_or]
  congr 1
  by_cases hj : j < 8
  · have hall : ∀ n j : Fin 8, (1 <<< n.val : Byte).getLsbD j.val = decide (j.val = n.val) := by
      decide
    exact hall ⟨n, hn⟩ ⟨j, hj⟩
  · rw [BitVec.getLsbD_of_ge _ _ (by omega)]
    simp
    omega

/-! ## Counting -/

/-- The number of bits set in a byte. -/
def weight (b : Byte) : Nat := ((Finset.range 8).filter fun j => b.getLsbD j = true).card

theorem weight_le (b : Byte) : weight b ≤ 8 := by
  have hsubset := Finset.card_filter_le (Finset.range 8) fun j => b.getLsbD j = true
  rwa [Finset.card_range] at hsubset

@[simp] theorem Mem.bitSet_zero (m : Mem) : m.bitSet 0 = ∅ := by
  simp [Mem.bitSet]

/-- One byte more adds its own bits. -/
theorem Mem.card_bitSet_succ (m : Mem) (n : Nat) :
    (m.bitSet (n + 1)).card = (m.bitSet n).card + weight (m n) := by
  have hsplit : m.bitSet (n + 1) = m.bitSet n ∪
      ({n} ×ˢ (Finset.range 8).filter fun j => (m n).getLsbD j = true) := by
    ext ⟨x, j⟩
    rw [Finset.mem_union, Mem.mem_bitSet, Mem.mem_bitSet, Finset.mem_product, Finset.mem_singleton,
      Finset.mem_filter, Finset.mem_range]
    constructor
    · rintro ⟨hx, hj, hset⟩
      rcases Nat.lt_succ_iff_lt_or_eq.mp hx with hlt | rfl
      · exact .inl ⟨hlt, hj, hset⟩
      · exact .inr ⟨rfl, hj, hset⟩
    · rintro (⟨hx, hj, hset⟩ | ⟨rfl, hj, hset⟩)
      · exact ⟨by omega, hj, hset⟩
      · exact ⟨by omega, hj, hset⟩
  have hdisjoint : Disjoint (m.bitSet n)
      ({n} ×ˢ (Finset.range 8).filter fun j => (m n).getLsbD j = true) := by
    rw [Finset.disjoint_left]
    rintro ⟨x, j⟩ hold hnew
    have hlt := (Mem.mem_bitSet.mp hold).1
    rw [Finset.mem_product, Finset.mem_singleton] at hnew
    exact absurd hnew.1 (Nat.ne_of_lt hlt)
  rw [hsplit, Finset.card_union_of_disjoint hdisjoint, Finset.card_product, Finset.card_singleton,
    Nat.one_mul, weight]

theorem Mem.card_bitSet_le (m : Mem) : ∀ n : Nat, (m.bitSet n).card ≤ 8 * n := by
  intro n
  induction n with
  | zero => simp
  | succ n ih =>
      have hweight := weight_le (m n)
      rw [Mem.card_bitSet_succ]
      omega

/-- A block counted in two parts. -/
theorem Mem.card_bitSet_add (m : Mem) (a b : Nat) :
    (m.bitSet (a + b)).card = (m.bitSet a).card + ((m.advance a).bitSet b).card := by
  induction b with
  | zero => rw [Mem.bitSet_zero, Finset.card_empty, Nat.add_zero, Nat.add_zero]
  | succ b ih =>
      rw [← Nat.add_assoc, Mem.card_bitSet_succ, ih, Mem.card_bitSet_succ, Mem.advance,
        Nat.add_assoc]

/-- Counting is additive over concatenation. -/
theorem card_setBits_append (as bs : List Byte) :
    (setBits (as ++ bs)).card = (setBits as).card + (setBits bs).card := by
  have hparts := (Mem.of (as ++ bs) fun _ => 0).card_bitSet_add as.length bs.length
  rwa [← List.length_append, Mem.bitSet_of, Mem.of_append, Mem.advance_of, Mem.bitSet_of,
    Mem.bitSet_of] at hparts

/-- Setting bits makes the count no smaller. -/
theorem card_setBits_le {bits more : List Byte} (hlength : bits.length = more.length)
    (hset : ∀ x j, (bits.getD x 0).getLsbD j = true → (more.getD x 0).getLsbD j = true) :
    (setBits bits).card ≤ (setBits more).card := by
  apply Finset.card_le_card
  intro ⟨x, j⟩ hmem
  obtain ⟨hx, hj, hbit⟩ := mem_setBits.mp hmem
  exact mem_setBits.mpr ⟨hlength ▸ hx, hj, hset x j hbit⟩

end DubstepDucks.CMem
