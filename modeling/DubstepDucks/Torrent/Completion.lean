import DubstepDucks.Torrent.Pieces
import DubstepDucks.Torrent.Sizes

/-!
# Torrent — does the client have the whole file?

The check at the start of a round counts with `bitfield[i] & 255 == 1` and
compares the count with the number of pieces. `==` binds more tightly than
`&`, so the mask is `255 == 1`, which is 0, and nothing is ever counted.
`piecesHeld` is the number the check is for.
-/

namespace DubstepDucks.Torrent

open CMem Btp

/-! ## The number of pieces -/

/-- The number of pieces whose bit is set. -/
def piecesHeld (own : List Byte) (totalPieces : Nat) : Nat :=
  (List.range totalPieces).countP (hasPiece own)

theorem piecesHeld_eq_iff {own : List Byte} {n : Nat} :
    piecesHeld own n = n ↔ ∀ p, p < n → hasPiece own p = true := by
  have hall := List.countP_eq_length (p := hasPiece own) (l := List.range n)
  rw [List.length_range] at hall
  rw [piecesHeld, hall]
  simp only [List.mem_range]

theorem piecesHeld_eq_zero_iff {own : List Byte} {n : Nat} :
    piecesHeld own n = 0 ↔ ∀ p, p < n → hasPiece own p = false := by
  rw [piecesHeld, List.countP_eq_zero]
  simp only [List.mem_range, Bool.not_eq_true]

/-! ## The check -/

/-- The loop counts nothing, whatever the bytes it reads. -/
theorem numHavePieces_eq_zero (own : Mem) (n : Nat) : numHavePieces own n = 0 := by
  rw [numHavePieces, List.countP_eq_zero]
  intro i _
  have hmask : own i &&& 0 = 0 := BitVec.and_zero
  rw [if_neg (by decide), hmask]
  decide

section Check

variable (own : List Byte) (behind : Mem)

/-- The count is right exactly while there is nothing to count. -/
theorem numHavePieces_eq_piecesHeld_iff (n : Nat) :
    numHavePieces (Mem.of own behind) n = piecesHeld own n ↔
      ∀ p, p < n → hasPiece own p = false := by
  rw [numHavePieces_eq_zero, eq_comm, piecesHeld_eq_zero_iff]

/-- In no state of the client does the check find the file complete. -/
theorem completion_never_detected (ans : BtInfo) (s : Client) :
    numHavePieces (Mem.of s.ownBitfield behind) ans.numPieces ≠ ans.numPieces := by
  rw [numHavePieces_eq_zero]
  exact Nat.ne_of_lt ans.numPieces_pos

/-- **When completion is detected.** For every number of pieces and every own
bitfield, whatever lies behind it, the check answers as it should exactly
while a piece is missing. -/
theorem completion_detected_iff {n : Nat} (hn : 1 ≤ n) :
    (numHavePieces (Mem.of own behind) n = n ↔ ∀ p, p < n → hasPiece own p = true) ↔
      ∃ p, p < n ∧ hasPiece own p = false := by
  have hnever : ¬ numHavePieces (Mem.of own behind) n = n := by
    rw [numHavePieces_eq_zero]
    omega
  rw [iff_false_left hnever]
  simp only [not_forall, exists_prop, Bool.not_eq_true]

end Check

/-- Nine pieces, the last of which is missing. -/
theorem completion_detected_iff_nine :
    1 ≤ 9 ∧ (numHavePieces (Mem.of [255, 0] fun _ => 0) 9 = 9 ↔
      ∀ p, p < 9 → hasPiece [255, 0] p = true) :=
  ⟨by decide, (completion_detected_iff [255, 0] (fun _ => 0) (by decide)).mpr
    ⟨8, by decide, by decide⟩⟩

/-- A file of one piece, which is there. -/
theorem completion_detected_single :
    ¬ (numHavePieces (Mem.of [128] fun _ => 0) 1 = 1 ↔ ∀ p, p < 1 → hasPiece [128] p = true) := by
  intro hclaim
  have hheld : ∀ p, p < 1 → hasPiece [128] p = true := by decide
  have hcount := hclaim.mpr hheld
  rw [numHavePieces_eq_zero] at hcount
  cases hcount

end DubstepDucks.Torrent
