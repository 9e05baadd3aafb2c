import DubstepDucks.Bencode.Verify
import DubstepDucks.CMem.Tiling

/-!
# Bencode — how many pieces a file has

`decodeFile` divides the length by the piece length and counts one more if
something remains; the readers and the writer of pieces multiply a piece
number by the piece length. In the domain of a real torrent this never
overflows, and the pieces cut the file without gap or overlap.

`infoDict` counts in its own way: it appends a digest for every full read and
one more behind the loop, so a file that ends with a whole piece gets a
digest too many.
-/

namespace DubstepDucks.Bencode

open CMem Torrent

/-! ## The count of the parser -/

/-- Where the division does not trap, `num_pieces` is the quotient of C, plus
one if the remainder is positive; the increment does not overflow. -/
theorem countPieces_eq {length pieceLength : CInt} (hzero : pieceLength ≠ 0)
    (hmin : ¬ (length = BitVec.intMin 32 ∧ pieceLength = -1)) :
    ∃ n, countPieces length pieceLength = .ok n ∧
      n.toInt = length.toInt.tdiv pieceLength.toInt
        + if 0 < length.toInt.tmod pieceLength.toInt then 1 else 0 := by
  have hquot : (length.sdiv pieceLength).toInt = length.toInt.tdiv pieceLength.toInt :=
    BitVec.toInt_sdiv_of_ne_or_ne _ _ (by tauto)
  have hsplit := Int.mul_tdiv_add_tmod length.toInt pieceLength.toInt
  have hlow := BitVec.le_toInt length
  have hhigh := BitVec.toInt_lt (x := length)
  have hqhigh := BitVec.toInt_lt (x := length.sdiv pieceLength)
  have hqlow := BitVec.le_toInt (length.sdiv pieceLength)
  rw [countPieces, if_neg (not_or.mpr ⟨hzero, hmin⟩), BitVec.toInt_srem]
  by_cases hrem : 0 < length.toInt.tmod pieceLength.toInt
  · rw [if_pos hrem, if_pos hrem]
    refine ⟨_, rfl, ?_⟩
    have hroom : length.toInt.tdiv pieceLength.toInt < 2 ^ 31 - 1 := by
      by_contra hfull
      rw [hquot] at hqhigh
      have hmax : length.toInt.tdiv pieceLength.toInt = 2 ^ 31 - 1 := by omega
      -- a positive remainder is one of a positive length, so the divisor is positive too
      have hpos : 0 < length.toInt := by
        by_contra hneg
        have := Int.tmod_nonneg pieceLength.toInt (by omega : 0 ≤ -length.toInt)
        rw [Int.neg_tmod] at this
        omega
      have hdivisor : 0 < pieceLength.toInt := by
        by_contra hneg
        have := Int.tdiv_nonpos_of_nonneg_of_nonpos (by omega : 0 ≤ length.toInt)
          (by omega : pieceLength.toInt ≤ 0)
        omega
      rw [hmax] at hsplit
      omega
    have hone : (1 : CInt).toInt = 1 := rfl
    rw [hquot] at hqlow
    rw [BitVec.toInt_add, hquot, hone, Int.bmod_eq_of_le (by omega) (by omega)]
  · rw [if_neg hrem, if_neg hrem]
    exact ⟨_, rfl, by rw [hquot, Int.add_zero]⟩

section Domain

variable {length pieceLength : CInt}

/-- For a length and a piece length of a real torrent, the count is the
number of pieces that start inside the file. -/
theorem countPieces_cuts (hlength : 0 ≤ length.toInt) (hpiece : 0 < pieceLength.toInt) :
    ∃ n, countPieces length pieceLength = .ok n ∧
      n.toInt = length.toInt.tdiv pieceLength.toInt
        + (if 0 < length.toInt.tmod pieceLength.toInt then 1 else 0) ∧
      CutsInto length.toInt pieceLength.toInt n.toInt := by
  have hzero : pieceLength ≠ 0 := by
    rintro rfl
    exact absurd hpiece (by decide)
  have hmin : ¬ (length = BitVec.intMin 32 ∧ pieceLength = -1) := by
    rintro ⟨rfl, -⟩
    exact absurd hlength (by decide)
  obtain ⟨n, hcount, hn⟩ := countPieces_eq hzero hmin
  refine ⟨n, hcount, hn, ?_⟩
  rw [hn, Int.tdiv_eq_ediv_of_nonneg hlength, Int.tmod_eq_emod_of_nonneg hlength]
  exact cutsInto_quotient hpiece

/-- The offset of a piece that starts inside the file, as an int product. -/
theorem toInt_offset {k : CInt} (hk : 0 ≤ k.toInt) (hpiece : 0 < pieceLength.toInt)
    (hstart : k.toInt * pieceLength.toInt < length.toInt) :
    (k * pieceLength).toInt = k.toInt * pieceLength.toInt := by
  have hpos : 0 ≤ k.toInt * pieceLength.toInt := Int.mul_nonneg hk (by omega)
  have hmax := BitVec.toInt_lt (x := length)
  rw [BitVec.toInt_mul, Int.bmod_eq_of_le (by omega) (by omega)]

end Domain

/-- **Piece arithmetic.** For every length that is not negative and every
positive piece length, `num_pieces` is computed without overflow; so is the
offset of every piece, which lies inside the file; and the pieces are
non-empty, pairwise disjoint and together the file. -/
theorem piece_arithmetic (length pieceLength : CInt) (hlength : 0 ≤ length.toInt)
    (hpiece : 0 < pieceLength.toInt) :
    ∃ n, countPieces length pieceLength = .ok n ∧
      n.toInt = length.toInt.tdiv pieceLength.toInt
        + (if 0 < length.toInt.tmod pieceLength.toInt then 1 else 0) ∧
      (∀ k : CInt, 0 ≤ k.toInt → k.toInt < n.toInt →
        (k * pieceLength).toInt = k.toInt * pieceLength.toInt ∧
        (k * pieceLength).toInt < length.toInt) ∧
      (∀ k, 0 ≤ k → k < n.toInt → (block length.toInt pieceLength.toInt k).Nonempty) ∧
      (∀ k k', k ≠ k' → Disjoint (block length.toInt pieceLength.toInt k)
        (block length.toInt pieceLength.toInt k')) ∧
      ⋃ k ∈ Set.Ico 0 n.toInt, block length.toInt pieceLength.toInt k
        = Set.Ico 0 length.toInt := by
  obtain ⟨n, hcount, hn, hcuts⟩ := countPieces_cuts hlength hpiece
  refine ⟨n, hcount, hn, ?_, fun k _ hk => hcuts.nonempty hpiece hk,
    fun _ _ hne => disjoint_block hpiece hne, hcuts.iUnion_block hpiece⟩
  intro k hk hlt
  have hstart := (hcuts k.toInt).mp hlt
  have hoffset := toInt_offset hk hpiece hstart
  exact ⟨hoffset, by rwa [hoffset]⟩

/-- The longest file there is, in pieces of two bytes. -/
theorem piece_arithmetic_longest :
    ∃ n, countPieces (BitVec.intMax 32) 2 = .ok n ∧
      ⋃ k ∈ Set.Ico 0 n.toInt, block (2 ^ 31 - 1) 2 k = Set.Ico 0 (2 ^ 31 - 1) := by
  obtain ⟨n, hcount, -, -, -, -, hcover⟩ :=
    piece_arithmetic (BitVec.intMax 32) 2 (by decide) (by decide)
  exact ⟨n, hcount, hcover⟩

/-! ## The count of the encoder -/

/-- The digests, as the strings `strncat` sees, that `infoDict` appends from
one step on: one for every full read, and one for the read that was not. -/
def appendedShas (sha1 : List Byte → Digest) (stack : Stack) (step : Nat) (buffer : Buffer)
    (file : List Byte) : List CString :=
  shaString (sha1 (bufferString (fread buffer file) (stack.behindBuffer step)))
      (stack.behindSha step) ::
    if _h : (file.take pieceLength).length = pieceLength then
      appendedShas sha1 stack (step + 1) (fread buffer file) (file.drop pieceLength)
    else []
termination_by file.length
decreasing_by
  simp only [List.length_take, pieceLength] at _h
  simp only [List.length_drop, pieceLength]
  omega

section Appended

variable (sha1 : List Byte → Digest) (stack : Stack)

/-- The loop of `infoDict` appends just these, one after another. -/
theorem hashLoop_eq_foldlM (step : Nat) (buffer : Buffer) (file : List Byte) (p : CString) :
    hashLoop sha1 stack step buffer file p
      = (appendedShas sha1 stack step buffer file).foldlM appendSha p := by
  fun_induction hashLoop sha1 stack step buffer file p with
  | case1 step buffer file p sha hnone =>
      rw [appendedShas, List.foldlM_cons, hnone]
      rfl
  | case2 step buffer file p sha p' hsome hfull ih =>
      rw [appendedShas, List.foldlM_cons, hsome, dif_pos hfull]
      exact ih
  | case3 step buffer file p sha p' hsome hlast =>
      rw [appendedShas, List.foldlM_cons, hsome, dif_neg hlast]
      rfl

/-- One for each whole piece of the file, and one more. -/
theorem length_appendedShas (step : Nat) (buffer : Buffer) (file : List Byte) :
    (appendedShas sha1 stack step buffer file).length = file.length / 256 + 1 := by
  fun_induction appendedShas sha1 stack step buffer file with
  | case1 step buffer file ih =>
      rw [List.length_cons]
      by_cases hfull : (file.take pieceLength).length = pieceLength
      · rw [dif_pos hfull, ih hfull, List.length_drop]
        rw [List.length_take] at hfull
        simp only [pieceLength] at hfull ⊢
        omega
      · rw [dif_neg hfull, List.length_nil]
        rw [List.length_take] at hfull
        simp only [pieceLength] at hfull
        omega

end Appended

/-- **When the hash count matches the piece count.** For every file that is
not too long for an int, `infoDict` appends as many digests as `decodeFile`
counts pieces exactly when the file does not end with a whole piece; the
empty file ends with none and is one of those that fail. -/
theorem hash_count_iff (sha1 : List Byte → Digest) (stack : Stack) (file : List Byte)
    (hlength : file.length < 2 ^ 31) :
    (∀ p, hashLoop sha1 stack 0 stack.buffer file p
      = (appendedShas sha1 stack 0 stack.buffer file).foldlM appendSha p) ∧
    (countPieces (BitVec.ofNat 32 file.length) (BitVec.ofNat 32 pieceLength)
        = .ok (BitVec.ofNat 32 (appendedShas sha1 stack 0 stack.buffer file).length) ↔
      file.length % pieceLength ≠ 0) := by
  refine ⟨hashLoop_eq_foldlM sha1 stack 0 stack.buffer file, ?_⟩
  rw [length_appendedShas]
  have hpiece : BitVec.ofNat 32 pieceLength = (256 : CInt) := rfl
  rw [hpiece, countPieces_of_lt hlength, Except.ok.injEq, pieceLength]
  constructor
  · intro hsame hwhole
    have hnat := congrArg BitVec.toNat hsame
    rw [toNat_ofNat (by omega), toNat_ofNat (by omega)] at hnat
    omega
  · intro hrest
    congr 1
    omega

/-- A file of 300 bytes has two pieces and two digests. -/
theorem hash_count_iff_two :
    (300 : Nat) < 2 ^ 31 ∧
      countPieces (BitVec.ofNat 32 300) (BitVec.ofNat 32 pieceLength) = .ok 2 := by
  refine ⟨by decide, ?_⟩
  have hcount := ((hash_count_iff (fun _ => constDigest 1) nulStack (List.replicate 300 1)
    (by rw [List.length_replicate]; decide)).2.mpr (by rw [List.length_replicate]; decide))
  rw [length_appendedShas, List.length_replicate] at hcount
  exact hcount

/-- A file of one whole piece has two digests. -/
theorem hash_count_whole_piece :
    ¬ ∀ (sha1 : List Byte → Digest) (stack : Stack) (file : List Byte), file.length < 2 ^ 31 →
      countPieces (BitVec.ofNat 32 file.length) (BitVec.ofNat 32 pieceLength)
        = .ok (BitVec.ofNat 32 (appendedShas sha1 stack 0 stack.buffer file).length) := by
  intro hclaim
  have hcount := hclaim (fun _ => constDigest 1) nulStack (List.replicate 256 1)
    (by rw [List.length_replicate]; decide)
  rw [length_appendedShas, List.length_replicate] at hcount
  exact absurd hcount (by decide)

end DubstepDucks.Bencode
