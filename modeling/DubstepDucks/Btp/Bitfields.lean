import DubstepDucks.Btp.Handshake
import DubstepDucks.CMem.Bitset

/-!
# Btp — counting and comparing bitfields

`count_char_bits` and `count_bitfield_bits` of `util.c`, and what
`peerContainsUndownloadedPieces` of `btp.c` answers. A bitfield is the set of
its bits (`Mem.bitSet`): the counters compute the size of that set and the
comparison decides whether the peer's set is part of one's own.

The comparison allocates a byte in every round, counts its bits before
anything was written there, and prints the count. `peerContainsPrinting`
keeps those bytes and the printed counts, so that the answer can be seen not
to depend on them.
-/

namespace DubstepDucks.Btp

open CMem

/-! ## The counters -/

/-- `b &= b - 1`: the subtraction and the AND are of ints, the result is cut
to a `char` again. -/
def clearLowestBit (b : Byte) : Byte := (b.signExtend 32 &&& (b.signExtend 32 - 1)).setWidth 8

/-- On a byte the detour over int changes nothing. -/
theorem clearLowestBit_eq : ∀ b : Byte, clearLowestBit b = b &&& (b - 1) := by
  decide +kernel

theorem toNat_clearLowestBit_lt {b : Byte} (h : b ≠ 0) : (clearLowestBit b).toNat < b.toNat := by
  have hpos : b.toNat ≠ 0 := fun h0 => h (BitVec.eq_of_toNat_eq h0)
  have hone : (1 : Byte) ≤ b := by
    rw [BitVec.le_def]
    exact Nat.pos_of_ne_zero hpos
  have hless : (b - 1).toNat = b.toNat - 1 := BitVec.toNat_sub_of_le hone
  have hand : (b &&& (b - 1)).toNat ≤ (b - 1).toNat := by
    rw [BitVec.toNat_and]
    exact Nat.and_le_right
  rw [clearLowestBit_eq]
  omega

/-- The loop of `count_char_bits`. -/
def countCharLoop (b : Byte) (count : CInt) : CInt :=
  if b = 0 then count else countCharLoop (clearLowestBit b) (count + 1)
termination_by b.toNat
decreasing_by exact toNat_clearLowestBit_lt ‹_›

/-- `count_char_bits`. -/
def countCharBits (b : Byte) : CInt := countCharLoop b 0

/-- `count_bitfield_bits`. -/
def countBitfieldBits (bitfield : Mem) (bitfieldLen : Nat) : CInt :=
  (List.range bitfieldLen).foldl (fun count x => count + countCharBits (bitfield x)) 0

/-- Clearing the lowest set bit takes away one bit. -/
theorem weight_clearLowestBit : ∀ b : Byte, b ≠ 0 → weight (clearLowestBit b) + 1 = weight b := by
  decide +kernel

theorem countCharLoop_eq (b : Byte) (count : CInt) :
    countCharLoop b count = count + BitVec.ofNat 32 (weight b) := by
  fun_induction countCharLoop b count with
  | case1 count =>
      show count = count + 0#32
      rw [BitVec.add_zero]
  | case2 b count hb ih =>
      rw [ih, ← weight_clearLowestBit b hb, BitVec.ofNat_add, BitVec.add_assoc]
      exact congrArg (count + ·) (BitVec.add_comm _ _)

/-- `count_char_bits` counts the set bits, of a negative byte too. -/
theorem countCharBits_eq (b : Byte) : countCharBits b = BitVec.ofNat 32 (weight b) := by
  rw [countCharBits, countCharLoop_eq]
  exact BitVec.zero_add _

/-- `count_bitfield_bits` is the size of the set of bits, as an int. -/
theorem countBitfieldBits_eq (bitfield : Mem) :
    ∀ n : Nat, countBitfieldBits bitfield n = BitVec.ofNat 32 (bitfield.bitSet n).card := by
  intro n
  induction n with
  | zero => simp [countBitfieldBits]
  | succ n ih =>
      rw [countBitfieldBits] at ih ⊢
      rw [List.range_succ, List.foldl_append, ih, List.foldl_cons, List.foldl_nil,
        countCharBits_eq, Mem.card_bitSet_succ, BitVec.ofNat_add]

/-- The int does not overflow while eight times the length fits. -/
theorem toInt_countBitfieldBits (bitfield : Mem) {n : Nat} (h : n < 2 ^ 28) :
    (countBitfieldBits bitfield n).toInt = (bitfield.bitSet n).card := by
  have hcard := bitfield.card_bitSet_le n
  rw [countBitfieldBits_eq, toInt_ofNat (by omega)]

/-! ## What the counters count -/

/-- The loop of `count_char_bits` makes as many rounds as the byte has bits:
the byte is zero then and was not before. -/
theorem clearLowestBit_rounds : ∀ {rounds : Nat} {b : Byte}, weight b = rounds →
    clearLowestBit^[rounds] b = 0 ∧ ∀ i, i < rounds → clearLowestBit^[i] b ≠ 0 := by
  intro rounds
  induction rounds with
  | zero =>
      intro b hweight
      have hzero : b = 0 := by
        by_contra hb
        have hless := weight_clearLowestBit b hb
        omega
      exact ⟨hzero, fun i hi => absurd hi (Nat.not_lt_zero i)⟩
  | succ rounds ih =>
      intro b hweight
      have hb : b ≠ 0 := by
        intro hzero
        have hempty : weight 0 = 0 := by decide
        rw [hzero, hempty] at hweight
        cases hweight
      have hless := weight_clearLowestBit b hb
      obtain ⟨hdone, hbefore⟩ := ih (b := clearLowestBit b) (by omega)
      refine ⟨hdone, ?_⟩
      intro i hi
      cases i with
      | zero => exact hb
      | succ i => exact hbefore i (by omega)

theorem toInt_countCharBits (b : Byte) : (countCharBits b).toInt = weight b := by
  have hweight := weight_le b
  rw [countCharBits_eq, toInt_ofNat (by omega)]

/-- The count of a buffer is that of its bytes, whatever lies behind it. -/
theorem toInt_countBitfieldBits_of (bits : List Byte) (behind : Mem)
    (h : 8 * bits.length < 2 ^ 31) :
    (countBitfieldBits (Mem.of bits behind) bits.length).toInt = (setBits bits).card := by
  rw [toInt_countBitfieldBits _ (by omega), Mem.bitSet_of]

/-- **The counters count bits.** The loop on a byte ends, after one round for
each of its bits, the count; and the count of a bitfield whose bits an int can
number is the size of the set of its bits, so that it adds up over a
concatenation and does not fall when bits are set. -/
theorem counters_count_bits (bits : List Byte) (h : 8 * bits.length < 2 ^ 31) :
    (∀ b : Byte, ∃ rounds : Nat, clearLowestBit^[rounds] b = 0 ∧
      (∀ i, i < rounds → clearLowestBit^[i] b ≠ 0) ∧ (countCharBits b).toInt = rounds) ∧
    (∀ behind, (countBitfieldBits (Mem.of bits behind) bits.length).toInt = (setBits bits).card) ∧
    (∀ (front back : List Byte) (behind behind' behind'' : Mem), bits = front ++ back →
      (countBitfieldBits (Mem.of bits behind) bits.length).toInt =
        (countBitfieldBits (Mem.of front behind') front.length).toInt +
          (countBitfieldBits (Mem.of back behind'') back.length).toInt) ∧
    (∀ (more : List Byte) (behind behind' : Mem), bits.length = more.length →
      (∀ x j, (bits.getD x 0).getLsbD j = true → (more.getD x 0).getLsbD j = true) →
      (countBitfieldBits (Mem.of bits behind) bits.length).toInt ≤
        (countBitfieldBits (Mem.of more behind') more.length).toInt) := by
  refine ⟨?_, fun behind => toInt_countBitfieldBits_of bits behind h, ?_, ?_⟩
  · intro b
    obtain ⟨hdone, hbefore⟩ := clearLowestBit_rounds (b := b) rfl
    exact ⟨weight b, hdone, hbefore, toInt_countCharBits b⟩
  · intro front back behind behind' behind'' hbits
    have hlength : bits.length = front.length + back.length := by
      rw [hbits, List.length_append]
    rw [toInt_countBitfieldBits_of bits behind h,
      toInt_countBitfieldBits_of front behind' (by omega),
      toInt_countBitfieldBits_of back behind'' (by omega), hbits, card_setBits_append,
      Int.natCast_add]
  · intro more behind behind' hlength hset
    rw [toInt_countBitfieldBits_of bits behind h,
      toInt_countBitfieldBits_of more behind' (by omega)]
    exact Int.ofNat_le.mpr (card_setBits_le hlength hset)

/-- A negative byte before a positive one: eight bits and one. -/
theorem counters_count_bits_negative :
    8 * ([255, 1] : List Byte).length < 2 ^ 31 ∧
      (countBitfieldBits (Mem.of [255, 1] fun _ => 0) 2).toInt = 9 ∧
      (countBitfieldBits (Mem.of [255, 1] fun _ => 0) 2).toInt =
        (countBitfieldBits (Mem.of [255] fun _ => 7) 1).toInt +
          (countBitfieldBits (Mem.of [1] fun _ => 7) 1).toInt := by
  have hlength : 8 * ([255, 1] : List Byte).length < 2 ^ 31 := by decide
  obtain ⟨-, hcount, hparts, -⟩ := counters_count_bits [255, 1] hlength
  have hcard : (setBits [255, 1]).card = 9 := by decide +kernel
  have hnine := hcount fun _ => 0
  rw [hcard] at hnine
  exact ⟨hlength, hnine, hparts [255] [1] (fun _ => 0) (fun _ => 7) (fun _ => 7) rfl⟩

/-! ## The comparison -/

/-- `peerContainsUndownloadedPieces` with the byte `tester` of every round:
the answer, and the counts it prints on the way. -/
def peerContainsPrinting (peerBuffer ownBuffer tester : Mem) : Nat → Int × List CInt
  | 0 => (0, [])
  | bitPieces + 1 =>
      let commonBits := peerBuffer 0 &&& ownBuffer 0
      if (peerBuffer 0).toInt - commonBits.toInt ≠ 0 then (1, [])
      else
        let rest := peerContainsPrinting (peerBuffer.advance 1) (ownBuffer.advance 1)
          (tester.advance 1) bitPieces
        (rest.1, countCharBits (tester 0) :: rest.2)

/-- What is printed has no bearing on the answer. -/
theorem peerContainsPrinting_fst :
    ∀ {n : Nat} {peer own tester : Mem},
      (peerContainsPrinting peer own tester n).1 = peerContainsUndownloadedPieces peer own n := by
  intro n
  induction n with
  | zero => intro peer own tester; rfl
  | succ n ih =>
      intro peer own tester
      rw [peerContainsPrinting, peerContainsUndownloadedPieces]
      dsimp only
      by_cases hround : (peer 0).toInt - (peer 0 &&& own 0).toInt ≠ 0
      · rw [if_pos hround, if_pos hround]
      · rw [if_neg hround, if_neg hround]
        exact ih

/-- A round goes on when the byte has no bit of the peer's that is missing in
one's own. -/
theorem sub_common_eq_zero (p o : Byte) :
    p.toInt - (p &&& o).toInt = 0 ↔
      ∀ j, j < 8 → p.getLsbD j = true → o.getLsbD j = true := by
  rw [sub_eq_zero, BitVec.toInt_inj]
  constructor
  · intro hsame j _ hset
    rw [hsame, BitVec.getLsbD_and, Bool.and_eq_true] at hset
    exact hset.2
  · intro hall
    apply BitVec.eq_of_getLsbD_eq
    intro j hj
    rw [BitVec.getLsbD_and]
    cases hset : p.getLsbD j with
    | false => rfl
    | true => rw [hall j hj hset]; rfl

/-- The loop answers 0 exactly when the peer's bits are among one's own. -/
theorem peerContains_eq_zero_iff :
    ∀ {n : Nat} {peer own : Mem}, peerContainsUndownloadedPieces peer own n = 0 ↔
      ∀ x, x < n → ∀ j, j < 8 → (peer x).getLsbD j = true → (own x).getLsbD j = true := by
  intro n
  induction n with
  | zero =>
      intro peer own
      exact ⟨fun _ x hx => absurd hx (Nat.not_lt_zero x), fun _ => rfl⟩
  | succ n ih =>
      intro peer own
      rw [peerContainsUndownloadedPieces]
      by_cases hround : (peer 0).toInt - (peer 0 &&& own 0).toInt = 0
      · rw [if_neg (not_not_intro hround), ih]
        constructor
        · intro hrest x hx
          cases x with
          | zero => exact (sub_common_eq_zero _ _).mp hround
          | succ x =>
              have hbyte := hrest x (by omega)
              rwa [Mem.advance, Mem.advance, Nat.add_comm 1 x] at hbyte
        · intro hall x hx
          have hbyte := hall (x + 1) (by omega)
          rwa [Nat.add_comm x 1] at hbyte
      · rw [if_pos hround]
        constructor
        · intro h
          cases h
        · intro hall
          exact absurd ((sub_common_eq_zero _ _).mpr (hall 0 (by omega))) hround

/-- It answers nothing but 0 and 1. -/
theorem peerContains_eq_zero_or_one :
    ∀ (n : Nat) (peer own : Mem), peerContainsUndownloadedPieces peer own n = 0 ∨
      peerContainsUndownloadedPieces peer own n = 1 := by
  intro n
  induction n with
  | zero => intro peer own; exact .inl rfl
  | succ n ih =>
      intro peer own
      rw [peerContainsUndownloadedPieces]
      by_cases hround : (peer 0).toInt - (peer 0 &&& own 0).toInt ≠ 0
      · rw [if_pos hround]; exact .inr rfl
      · rw [if_neg hround]; exact ih _ _

/-- As a statement about sets: the answer is 1 exactly when the peer's bits
are not a subset of one's own. -/
theorem peerContains_eq_one_iff_subset (peer own : Mem) (n : Nat) :
    peerContainsUndownloadedPieces peer own n = 1 ↔ ¬ peer.bitSet n ⊆ own.bitSet n := by
  have hzero : peerContainsUndownloadedPieces peer own n = 0 ↔ peer.bitSet n ⊆ own.bitSet n := by
    rw [peerContains_eq_zero_iff]
    constructor
    · rintro hall ⟨x, j⟩ hmem
      obtain ⟨hx, hj, hset⟩ := Mem.mem_bitSet.mp hmem
      exact Mem.mem_bitSet.mpr ⟨hx, hj, hall x hx j hj hset⟩
    · intro hsubset x hx j hj hset
      exact (Mem.mem_bitSet.mp (hsubset (Mem.mem_bitSet.mpr ⟨hx, hj, hset⟩))).2.2
  rw [← hzero]
  rcases peerContains_eq_zero_or_one n peer own with h | h
  · simp [h]
  · simp [h]

/-- **The wanted-piece test.** For buffers of any length the answer is 1
exactly when some bit is set in the peer's and clear in one's own, and 0
otherwise; while the counters do not overflow, that is when the peer has more
bits than the two have in common; and the bytes counted on the way, whatever
they hold, do not change it. -/
theorem peerContains_decides (peer own tester : Mem) (n : Nat) :
    (peerContainsUndownloadedPieces peer own n = 1 ↔
      ∃ x, x < n ∧ ∃ j, j < 8 ∧ (peer x).getLsbD j = true ∧ (own x).getLsbD j = false) ∧
    (peerContainsUndownloadedPieces peer own n ≠ 1 →
      peerContainsUndownloadedPieces peer own n = 0) ∧
    (n < 2 ^ 28 → (peerContainsUndownloadedPieces peer own n = 1 ↔
      (countBitfieldBits (peer.and own) n).toInt < (countBitfieldBits peer n).toInt)) ∧
    (peerContainsPrinting peer own tester n).1 = peerContainsUndownloadedPieces peer own n := by
  refine ⟨?_, (peerContains_eq_zero_or_one n peer own).resolve_right, ?_, peerContainsPrinting_fst⟩
  · rw [peerContains_eq_one_iff_subset, Finset.not_subset]
    constructor
    · rintro ⟨⟨x, j⟩, hpeer, hown⟩
      obtain ⟨hx, hj, hset⟩ := Mem.mem_bitSet.mp hpeer
      rw [Mem.mem_bitSet] at hown
      exact ⟨x, hx, j, hj, hset, by simpa [hx, hj] using hown⟩
    · rintro ⟨x, hx, j, hj, hset, hclear⟩
      refine ⟨(x, j), Mem.mem_bitSet.mpr ⟨hx, hj, hset⟩, ?_⟩
      rw [Mem.mem_bitSet, hclear]
      simp
  · intro hn
    rw [toInt_countBitfieldBits _ hn, toInt_countBitfieldBits _ hn, Mem.bitSet_and,
      peerContains_eq_one_iff_subset, Int.ofNat_lt]
    constructor
    · intro hmissing
      apply Finset.card_lt_card
      rw [Finset.ssubset_iff_subset_ne]
      refine ⟨Finset.inter_subset_left, ?_⟩
      intro hsame
      exact hmissing (Finset.inter_eq_left.mp hsame)
    · intro hless hsubset
      rw [Finset.inter_eq_left.mpr hsubset] at hless
      exact Nat.lt_irrefl _ hless

/-- A peer with the bit of piece 0, a negative byte, against an empty
bitfield. -/
theorem peerContains_decides_negative :
    (1 : Nat) < 2 ^ 28 ∧
      (countBitfieldBits (Mem.and (fun _ => 128) fun _ => 0) 1).toInt
        < (countBitfieldBits (fun _ => 128) 1).toInt :=
  ⟨by decide, ((peerContains_decides (fun _ => 128) (fun _ => 0) (fun _ => 7) 1).2.2.1
    (by decide)).mp (by decide)⟩

end DubstepDucks.Btp
