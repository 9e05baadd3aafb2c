import DubstepDucks.Torrent.FileConstructor
import Mathlib.Data.List.Nodup

/-!
# Torrent — pieces in any order

Pieces arrive from many peers in any order, and a piece written past the end
of the file leaves a hole that a later one fills. `writePieces` is a row of
calls of `write_piece` on one file. Each call brings the bytes its buffer
holds at that moment; what goes into the file is fixed by the first
`piece_len` of them, although `strcat` alters the buffer first.

Plan: where each byte of a written file comes from (`getElem?_fileWrite`),
that two writes to disjoint ranges commute, and the closed form of a row of
calls as a fold of writes, over which every permutation gives the same file.
-/

namespace DubstepDucks.Torrent

open CMem

/-! ## Writes to a file -/

/-- Where the bytes of a file come from after a write: before the range the
old ones, or zero where there were none; in it the new ones; behind it the
old ones. -/
theorem getElem?_fileWrite (content : List Byte) (off : Nat) {bs : List Byte} (hbs : bs ≠ [])
    (i : Nat) :
    (fileWrite content off bs)[i]? =
      if i < off then some (content[i]?.getD 0)
      else if i < off + bs.length then bs[i - off]? else content[i]? := by
  rw [fileWrite, if_neg hbs]
  have hfront : (content.take off ++ List.replicate (off - content.length) 0).length = off := by
    simp
    omega
  rw [List.append_assoc]
  by_cases hbefore : i < off
  · rw [if_pos hbefore, List.getElem?_append_left (by omega)]
    by_cases hold : i < content.length
    · rw [List.getElem?_append_left (by simp; omega), List.getElem?_take_of_lt hbefore,
        List.getElem?_eq_getElem hold, Option.getD_some]
    · rw [List.getElem?_append_right (by simp; omega), List.getElem?_replicate,
        if_pos (by simp; omega), List.getElem?_eq_none (by omega), Option.getD_none]
  · rw [if_neg hbefore, List.getElem?_append_right (by omega), hfront]
    by_cases hin : i < off + bs.length
    · rw [if_pos hin, List.getElem?_append_left (by omega)]
    · rw [if_neg hin, List.getElem?_append_right (by omega), List.getElem?_drop]
      congr 1
      omega

theorem fileWrite_nil (content : List Byte) (off : Nat) : fileWrite content off [] = content :=
  if_pos rfl

/-- Two writes to ranges one behind the other commute, also when they leave
and fill holes. -/
theorem fileWrite_comm_of_le (content : List Byte) {off off' : Nat} {bs bs' : List Byte}
    (h : off + bs.length ≤ off') :
    fileWrite (fileWrite content off bs) off' bs'
      = fileWrite (fileWrite content off' bs') off bs := by
  by_cases hbs : bs = []
  · subst hbs
    rw [fileWrite_nil, fileWrite_nil]
  by_cases hbs' : bs' = []
  · subst hbs'
    rw [fileWrite_nil, fileWrite_nil]
  apply List.ext_getElem?
  intro i
  simp only [getElem?_fileWrite _ _ hbs, getElem?_fileWrite _ _ hbs']
  -- walk along the file: before both ranges, in the first, between, in the second, behind
  by_cases h1 : i < off
  · rw [if_pos (by omega), if_pos h1, if_pos h1, if_pos (by omega), Option.getD_some]
  · rw [if_neg h1, if_neg h1]
    by_cases h2 : i < off + bs.length
    · have hsome : i - off < bs.length := by omega
      rw [if_pos h2, if_pos h2, if_pos (by omega), List.getElem?_eq_getElem hsome, Option.getD_some]
    · rw [if_neg h2, if_neg h2]

theorem fileWrite_comm (content : List Byte) {off off' : Nat} {bs bs' : List Byte}
    (h : off + bs.length ≤ off' ∨ off' + bs'.length ≤ off) :
    fileWrite (fileWrite content off bs) off' bs'
      = fileWrite (fileWrite content off' bs') off bs := by
  rcases h with h | h
  · exact fileWrite_comm_of_le content h
  · exact (fileWrite_comm_of_le content h).symm

/-! ## A row of calls -/

/-- The arguments of one call of `write_piece`: the piece number, and what
the buffer, an array of `size` bytes, holds when the call is made. -/
structure PieceWrite where
  pieceNum : CInt
  buffer : Mem
  size : Nat

namespace PieceWrite

/-- The offset `piece_num * piece_len` of a piece from the start of the file
on fits an int. -/
def Fits (pieceLen : CInt) (w : PieceWrite) : Prop :=
  0 ≤ w.pieceNum.toInt ∧ w.pieceNum.toInt * pieceLen.toInt < 2 ^ 31

instance (pieceLen : CInt) (w : PieceWrite) : Decidable (w.Fits pieceLen) :=
  inferInstanceAs (Decidable (_ ∧ _))

/-- The buffer holds a string, with room for one more character. -/
def Terminated (w : PieceWrite) : Prop := (w.buffer.strcat w.size (ascii "\n")).isSome = true

instance (w : PieceWrite) : Decidable w.Terminated := inferInstanceAs (Decidable (_ = true))

def offset (pieceLen : CInt) (w : PieceWrite) : Nat := w.pieceNum.toNat * pieceLen.toNat

/-- What the call offers to `write`. -/
def bytes (pieceLen : CInt) (w : PieceWrite) : List Byte :=
  newlined (w.buffer.read pieceLen.toNat)

end PieceWrite

/-- `write_piece` once for each of the given calls, on one file; every
`write` takes all the bytes it is offered. -/
def writePieces (pieceLen : CInt) : List Byte → List PieceWrite → Except Stop (List Byte)
  | content, [] => .ok content
  | content, w :: ws =>
      match writePiece (some content) w.pieceNum pieceLen w.buffer w.size pieceLen.toNat with
      | .error stop => .error stop
      | .ok r => writePieces pieceLen r.file ws

section Calls

variable {pieceLen : CInt} {w v : PieceWrite} {ws ws' : List PieceWrite} {content : List Byte}

/-- The int product is the offset itself. -/
theorem PieceWrite.Fits.product (h : w.Fits pieceLen) (hlen : 0 ≤ pieceLen.toInt) :
    (w.pieceNum * pieceLen).toNat = w.offset pieceLen ∧ 0 ≤ (w.pieceNum * pieceLen).toInt := by
  obtain ⟨hnum, hfits⟩ := h
  rw [toInt_eq_of_nonneg hnum, toInt_eq_of_nonneg hlen] at hfits
  have hlt : w.pieceNum.toNat * pieceLen.toNat < 2 ^ 31 := by exact_mod_cast hfits
  have hnat : (w.pieceNum * pieceLen).toNat = w.offset pieceLen := by
    rw [BitVec.toNat_mul, Nat.mod_eq_of_lt (by omega), PieceWrite.offset]
  have hoff : w.offset pieceLen < 2 ^ 31 := hlt
  refine ⟨hnat, ?_⟩
  rw [toInt_eq_toNat (by omega)]
  omega

@[simp] theorem PieceWrite.length_bytes (pieceLen : CInt) (w : PieceWrite) :
    (w.bytes pieceLen).length = pieceLen.toNat := by
  rw [PieceWrite.bytes, length_newlined, Mem.length_read]

/-- A call whose string takes the newline writes the piece at its offset. -/
theorem writePiece_file (h : w.Fits pieceLen) (hlen : 0 ≤ pieceLen.toInt) {r : Written}
    (hr : writePiece (some content) w.pieceNum pieceLen w.buffer w.size pieceLen.toNat = .ok r) :
    r.file = fileWrite content (w.offset pieceLen) (w.bytes pieceLen) := by
  obtain ⟨hoff, hpos⟩ := h.product hlen
  have hbytes := writePiece_bytes hr
  have htake : (w.bytes pieceLen).take pieceLen.toNat = w.bytes pieceLen :=
    List.take_of_length_le (by simp)
  rw [← PieceWrite.bytes, htake] at hbytes
  rw [← hbytes, ← hoff]
  rw [writePiece, seekPiece, if_neg (by omega)] at hr
  dsimp only at hr
  split at hr
  · cases hr
  · cases hr
    rfl

theorem writePiece_stops (h : w.Fits pieceLen) (hlen : 0 ≤ pieceLen.toInt)
    (hterm : ¬ w.Terminated) :
    writePiece (some content) w.pieceNum pieceLen w.buffer w.size pieceLen.toNat
      = .error .fault := by
  obtain ⟨-, hpos⟩ := h.product hlen
  have hnone : w.buffer.strcat w.size (ascii "\n") = none := by
    rw [PieceWrite.Terminated, Bool.not_eq_true] at hterm
    exact Option.isNone_iff_eq_none.mp (by simpa using hterm)
  rw [writePiece, seekPiece, if_neg (by omega)]
  dsimp only
  rw [hnone]

theorem writePiece_returns (content : List Byte) (h : w.Fits pieceLen) (hlen : 0 ≤ pieceLen.toInt)
    (hterm : w.Terminated) :
    ∃ r, writePiece (some content) w.pieceNum pieceLen w.buffer w.size pieceLen.toNat = .ok r := by
  obtain ⟨-, hpos⟩ := h.product hlen
  obtain ⟨m, hm⟩ := Option.isSome_iff_exists.mp hterm
  rw [writePiece, seekPiece, if_neg (by omega)]
  dsimp only
  rw [hm]
  exact ⟨_, rfl⟩

/-- A row of calls is the fold of its writes, unless a `strcat` runs out of
its buffer. -/
theorem writePieces_eq (hlen : 0 ≤ pieceLen.toInt) :
    ∀ (ws : List PieceWrite) (content : List Byte), (∀ w ∈ ws, w.Fits pieceLen) →
    writePieces pieceLen content ws =
      if ∀ w ∈ ws, w.Terminated then
        .ok (ws.foldl (fun file w => fileWrite file (w.offset pieceLen) (w.bytes pieceLen)) content)
      else .error .fault := by
  intro ws
  induction ws with
  | nil =>
      intro content _
      simp [writePieces]
  | cons w ws ih =>
      intro content hfits
      have hw := hfits w (by simp)
      by_cases hterm : w.Terminated
      · obtain ⟨r, hr⟩ := writePiece_returns content hw hlen hterm
        rw [writePieces, hr]
        dsimp only
        rw [ih r.file fun v hv => hfits v (by simp [hv]), writePiece_file hw hlen hr]
        simp only [List.forall_mem_cons, hterm, true_and, List.foldl_cons]
      · rw [writePieces, writePiece_stops hw hlen hterm, if_neg]
        intro hall
        exact hterm (hall w (by simp))

/-- The ranges of two pieces do not meet. -/
theorem PieceWrite.disjoint (hne : w.pieceNum ≠ v.pieceNum) :
    w.offset pieceLen + pieceLen.toNat ≤ v.offset pieceLen ∨
      v.offset pieceLen + pieceLen.toNat ≤ w.offset pieceLen := by
  have hnat : w.pieceNum.toNat ≠ v.pieceNum.toNat := fun h => hne (BitVec.eq_of_toNat_eq h)
  unfold PieceWrite.offset
  rcases Nat.lt_or_gt_of_ne hnat with hlt | hgt
  · left
    rw [← Nat.succ_mul]
    exact Nat.mul_le_mul_right _ hlt
  · right
    rw [← Nat.succ_mul]
    exact Nat.mul_le_mul_right _ hgt

/-- Pieces of distinct numbers make the same file in every order. -/
theorem foldl_fileWrite_perm (hperm : ws.Perm ws') (hnodup : (ws.map PieceWrite.pieceNum).Nodup)
    (content : List Byte) :
    ws.foldl (fun file w => fileWrite file (w.offset pieceLen) (w.bytes pieceLen)) content
      = ws'.foldl (fun file w => fileWrite file (w.offset pieceLen) (w.bytes pieceLen))
          content := by
  apply hperm.foldl_eq'
  intro w hw v hv file
  by_cases heq : w.pieceNum = v.pieceNum
  · rw [List.inj_on_of_nodup_map hnodup hw hv heq]
  · apply fileWrite_comm
    rw [PieceWrite.length_bytes, PieceWrite.length_bytes]
    exact PieceWrite.disjoint heq

/-- What one call leaves alone: outside the piece's range every byte is as it
was, but for the zeros between the old end of the file and the range. -/
def KeepsOutside (pieceLen : CInt) (w : PieceWrite) (content file : List Byte) : Prop :=
  ∀ i, i < w.pieceNum.toNat * pieceLen.toNat ∨ (w.pieceNum.toNat + 1) * pieceLen.toNat ≤ i →
    file[i]? =
      if content.length ≤ i ∧ i < w.pieceNum.toNat * pieceLen.toNat then some 0 else content[i]?

theorem keepsOutside_fileWrite (pieceLen : CInt) (w : PieceWrite) (content : List Byte) :
    KeepsOutside pieceLen w content
      (fileWrite content (w.offset pieceLen) (w.bytes pieceLen)) := by
  intro i hi
  have hsucc : (w.pieceNum.toNat + 1) * pieceLen.toNat = w.offset pieceLen + pieceLen.toNat :=
    Nat.succ_mul _ _
  rw [hsucc] at hi
  change i < w.offset pieceLen ∨ _ at hi
  show _ = if content.length ≤ i ∧ i < w.offset pieceLen then some 0 else content[i]?
  by_cases hbytes : w.bytes pieceLen = []
  · -- no byte to write: the length is zero, and with it every offset
    have hzero : pieceLen.toNat = 0 := by
      rw [← PieceWrite.length_bytes pieceLen w, hbytes, List.length_nil]
    have hoff : w.offset pieceLen = 0 := by rw [PieceWrite.offset, hzero, Nat.mul_zero]
    rw [hbytes, fileWrite_nil, if_neg (by omega)]
  · rw [getElem?_fileWrite _ _ hbytes, PieceWrite.length_bytes]
    rcases hi with hbefore | hbehind
    · rw [if_pos hbefore]
      by_cases hold : content.length ≤ i
      · rw [if_pos ⟨hold, hbefore⟩, List.getElem?_eq_none hold, Option.getD_none]
      · rw [if_neg (by omega), List.getElem?_eq_getElem (by omega), Option.getD_some]
    · rw [if_neg (by omega), if_neg (by omega), if_neg (by omega)]

end Calls

/-- **Downloads are order-independent.** Whatever the file held, calls of
`write_piece` for distinct pieces end with the same file in every order (and
return in every order exactly when each buffer is a string with room for the
newline); and each call, from whatever content it finds, changes nothing
outside its piece's range but the hole in front of it, which becomes zero. -/
theorem writePieces_order_independent (content : List Byte) (pieceLen : CInt)
    (hlen : 0 ≤ pieceLen.toInt) (ws : List PieceWrite)
    (hnodup : (ws.map PieceWrite.pieceNum).Nodup) (hfits : ∀ w ∈ ws, w.Fits pieceLen) :
    (∀ ws', ws.Perm ws' →
      writePieces pieceLen content ws' = writePieces pieceLen content ws) ∧
    ((∃ file, writePieces pieceLen content ws = .ok file) ↔ ∀ w ∈ ws, w.Terminated) ∧
    ∀ w ∈ ws, ∀ (before : List Byte) (r : Written),
      writePiece (some before) w.pieceNum pieceLen w.buffer w.size pieceLen.toNat = .ok r →
      KeepsOutside pieceLen w before r.file := by
  refine ⟨?_, ?_, ?_⟩
  · intro ws' hperm
    have hfits' : ∀ w ∈ ws', w.Fits pieceLen := fun w hw => hfits w (hperm.mem_iff.mpr hw)
    rw [writePieces_eq hlen ws content hfits, writePieces_eq hlen ws' content hfits',
      foldl_fileWrite_perm hperm hnodup content]
    simp only [hperm.mem_iff]
  · rw [writePieces_eq hlen ws content hfits]
    by_cases hall : ∀ w ∈ ws, w.Terminated
    · rw [if_pos hall]
      exact ⟨fun _ => hall, fun _ => ⟨_, rfl⟩⟩
    · rw [if_neg hall]
      exact ⟨nofun, fun h => absurd h hall⟩
  · intro w hw before r hr
    rw [writePiece_file (hfits w hw) hlen hr]
    exact keepsOutside_fileWrite pieceLen w before

/-- Piece 2 and then piece 0 of a file of two bytes, four bytes a piece. -/
def holeFirst : List PieceWrite :=
  [⟨2, Mem.of (ascii "ab") fun _ => 0, 8⟩, ⟨0, Mem.of (ascii "xyz") fun _ => 0, 8⟩]

theorem writePieces_order_independent_hole :
    ((∀ ws', holeFirst.Perm ws' →
      writePieces 4 (ascii "AB") ws' = writePieces 4 (ascii "AB") holeFirst) ∧
    ((∃ file, writePieces 4 (ascii "AB") holeFirst = .ok file) ↔ ∀ w ∈ holeFirst, w.Terminated) ∧
    ∀ w ∈ holeFirst, ∀ (before : List Byte) (r : Written),
      writePiece (some before) w.pieceNum 4 w.buffer w.size (4 : CInt).toNat = .ok r →
      KeepsOutside 4 w before r.file) ∧
    ∀ w ∈ holeFirst, w.Terminated :=
  ⟨writePieces_order_independent (ascii "AB") 4 (by decide) holeFirst (by decide) (by decide),
    by decide⟩

end DubstepDucks.Torrent
