import DubstepDucks.Bencode.Metainfo

/-!
# Bencode — pieces against their own torrent

Does a piece verify against the hash its own torrent carries? `infoDict`
hashes the string in its buffer and appends the digest as a string;
`decodeFile` cuts the collected text into slices of twenty bytes;
`verify_piece` hashes the piece. The three fit together when every text
hashed is the piece and every text appended is the digest.

1. The loop unrolled: what is hashed (`hashedText`) and appended
   (`shaText`) in each step, and that the collected string is the texts of
   all steps, one after the other.
2. One slice: when the twenty bytes at the start of a text are a digest,
   whatever lies behind the block.
3. The two conditions, on the file and the stack (`Hashable`) and on the
   digests (`DigestsFit`), and that they are exact.
4. The same through the torrent file, from `encodeFile` to `decodeFile`.
-/

namespace DubstepDucks.Bencode

open CMem
open Torrent (Digest verifyPiece)

/-! ## The loop, unrolled -/

/-- Piece `k` of the file. -/
def pieceOf (file : List Byte) (k : Nat) : List Byte :=
  (file.drop (pieceLength * k)).take pieceLength

/-- The number of pieces. -/
def pieceCount (file : List Byte) : Nat := (file.length + 255) / 256

/-- The read buffer when it is hashed in the given step. -/
def bufferAt (stack : Stack) (file : List Byte) : Nat → Buffer
  | 0 => fread stack.buffer file
  | step + 1 => fread (bufferAt stack file step) (file.drop (pieceLength * (step + 1)))

/-- What `infoDict` hashes in the given step. -/
def hashedText (stack : Stack) (file : List Byte) (step : Nat) : List Byte :=
  bufferString (bufferAt stack file step) (stack.behindBuffer step)

/-- What it appends. -/
def shaText (sha1 : List Byte → Digest) (stack : Stack) (file : List Byte) (step : Nat) : CString :=
  shaString (sha1 (hashedText stack file step)) (stack.behindSha step)

/-- The texts of `count` steps from the given one on. -/
def shaTexts (sha1 : List Byte → Digest) (stack : Stack) (file : List Byte) (step count : Nat) :
    List Byte :=
  (List.range' step count).flatMap fun k => (shaText sha1 stack file k).chars

section Unrolled

variable (sha1 : List Byte → Digest) (stack : Stack) (file : List Byte)

theorem shaTexts_succ (step count : Nat) :
    shaTexts sha1 stack file step (count + 1)
      = (shaText sha1 stack file step).chars ++ shaTexts sha1 stack file (step + 1) count := by
  simp [shaTexts, List.range'_succ]

theorem shaTexts_add (step a b : Nat) :
    shaTexts sha1 stack file step (a + b)
      = shaTexts sha1 stack file step a ++ shaTexts sha1 stack file (step + a) b := by
  simp [shaTexts, ← List.range'_append_1]

theorem nul_notMem_shaTexts (step count : Nat) :
    (0 : Byte) ∉ shaTexts sha1 stack file step count := by
  intro h
  obtain ⟨k, -, hk⟩ := List.mem_flatMap.mp h
  exact (shaText sha1 stack file k).nulFree hk

/-- Appending succeeds exactly when the whole string fits the array, and then
nothing was cut. -/
theorem appendSha_eq_some {p s q : CString} :
    appendSha p s = some q ↔ q.chars = p.chars ++ s.chars ∧ q.chars.length < buffSize := by
  have hcat : (p.strncat s buffSize).chars = p.chars ++ s.chars.take buffSize := rfl
  have hlen : (p.chars ++ s.chars.take buffSize).length < buffSize ↔
      (p.chars ++ s.chars).length < buffSize := by
    simp only [List.length_append, List.length_take]
    omega
  have htake : (p.chars ++ s.chars).length < buffSize → s.chars.take buffSize = s.chars := by
    intro h
    rw [List.length_append] at h
    exact List.take_of_length_le (by omega)
  rw [appendSha]
  constructor
  · intro h
    split at h
    · next hfit =>
      cases h
      rw [hcat, hlen] at hfit
      rw [hcat, htake hfit]
      exact ⟨rfl, hfit⟩
    · cases h
  · rintro ⟨hq, hfit⟩
    rw [hq] at hfit
    rw [if_pos (by rw [hcat]; exact hlen.mpr hfit), Option.some.injEq]
    apply CString.ext_chars
    rw [hq, hcat, htake hfit]

/-- One round of the loop. -/
theorem hashLoop_step {step : Nat} {buffer : Buffer} {rest : List Byte} {p q : CString} :
    hashLoop sha1 stack step buffer rest p = some q ↔
      ∃ p', appendSha p (shaString (sha1 (bufferString (fread buffer rest)
          (stack.behindBuffer step))) (stack.behindSha step)) = some p' ∧
        (if (rest.take pieceLength).length = pieceLength then
          hashLoop sha1 stack (step + 1) (fread buffer rest) (rest.drop pieceLength) p'
        else some p') = some q := by
  rw [hashLoop]
  split
  · next hnone => simp [hnone]
  · next p' hp' => simp [hp']

/-- The loop from any step on, `rest` whole pieces before its end. -/
theorem hashLoop_eq_some {q : CString} :
    ∀ (rest step : Nat) (buffer : Buffer) (p : CString), step + rest = file.length / 256 →
    fread buffer (file.drop (pieceLength * step)) = bufferAt stack file step →
    (hashLoop sha1 stack step buffer (file.drop (pieceLength * step)) p = some q ↔
      q.chars = p.chars ++ shaTexts sha1 stack file step (rest + 1) ∧
      q.chars.length < buffSize) := by
  intro rest
  induction rest with
  | zero =>
      intro step buffer p hstep hbuffer
      have hlast : ((file.drop (pieceLength * step)).take pieceLength).length ≠ pieceLength := by
        simp only [List.length_take, List.length_drop, pieceLength]
        omega
      rw [hashLoop_step, hbuffer, shaTexts_succ]
      simp only [if_neg hlast, Option.some.injEq, exists_eq_right]
      rw [appendSha_eq_some]
      simp [shaTexts, shaText, hashedText]
  | succ rest ih =>
      intro step buffer p hstep hbuffer
      have hfull : ((file.drop (pieceLength * step)).take pieceLength).length = pieceLength := by
        simp only [List.length_take, List.length_drop, pieceLength]
        omega
      have hdrop : (file.drop (pieceLength * step)).drop pieceLength
          = file.drop (pieceLength * (step + 1)) := by
        rw [List.drop_drop]
        congr 1
      rw [hashLoop_step, hbuffer, shaTexts_succ, hdrop]
      simp only [if_pos hfull]
      have hih := fun p' => ih (step + 1) (bufferAt stack file step) p' (by omega) rfl
      constructor
      · rintro ⟨p', hp', hq⟩
        obtain ⟨hchars, hfit⟩ := (hih p').mp hq
        rw [(appendSha_eq_some.mp hp').1, List.append_assoc] at hchars
        exact ⟨hchars, hfit⟩
      · rintro ⟨hchars, hfit⟩
        have hlen := congrArg List.length hchars
        simp only [List.length_append] at hlen
        refine ⟨p.append (shaText sha1 stack file step), appendSha_eq_some.mpr ⟨rfl, ?_⟩,
          (hih _).mpr ⟨?_, hfit⟩⟩
        · simp only [CString.append, List.length_append]
          omega
        · rw [hchars, CString.append, List.append_assoc]

/-- **The collected string**: the texts of every step, if they fit the
array. -/
theorem pieceShasOf_eq_some {q : CString} :
    pieceShasOf sha1 stack file = some q ↔
      q.chars = shaTexts sha1 stack file 0 (file.length / 256 + 1) ∧ q.chars.length < buffSize := by
  have h := hashLoop_eq_some sha1 stack file (q := q) (file.length / 256) 0 stack.buffer
    .empty (by omega) (by simp [bufferAt])
  rw [pieceShasOf]
  simpa [CString.empty, ascii] using h

end Unrolled

/-! ## One slice -/

/-- A slice that does not depend on what lies behind the block reaches at
most its terminator. -/
theorem length_of_slice {t : List Byte} {k : Nat} {d : Digest}
    (h : ∀ behind, pieceHash t behind k = d) : 20 * k + 19 ≤ t.length := by
  by_contra hshort
  -- the last byte of the slice lies behind the terminator: two memories tell
  have hread : ∀ b : Byte, d.1.getD 19 0 = b := by
    intro b
    rw [← h fun _ => b]
    show (((Mem.of (t ++ [0]) fun _ => b).advance (20 * k)).read 20).getD 19 0 = b
    rw [Mem.getD_read _ (by omega), Mem.advance, Mem.of_ge (by simp; omega)]
  exact absurd ((hread 0).symm.trans (hread 1)) (by decide)

theorem slice_eq_iff {t : List Byte} {d : Digest} :
    (∀ behind, pieceHash t behind 0 = d) ↔ 19 ≤ t.length ∧ (t ++ [0]).take 20 = d.1 := by
  have hval : 19 ≤ t.length → ∀ behind, (pieceHash t behind 0).1 = (t ++ [0]).take 20 := by
    intro hlen behind
    show ((Mem.of (t ++ [0]) behind).advance (20 * 0)).read 20 = _
    rw [Nat.mul_zero, Mem.advance_zero, Mem.read_of_le (by simp; omega)]
  constructor
  · intro h
    have hlen : 19 ≤ t.length := by simpa using length_of_slice h
    exact ⟨hlen, by rw [← hval hlen fun _ => 0, h]⟩
  · rintro ⟨hlen, htake⟩ behind
    exact Subtype.ext (by rw [hval hlen, htake])

/-- A digest appended as a string is found again exactly when it holds no
NUL, or one as its last byte and nothing was appended after it. -/
theorem slice_digest_iff {d : Digest} (junk : CString) {after : List Byte}
    (hafter : (0 : Byte) ∉ after) :
    (∀ behind, pieceHash ((shaString d junk).chars ++ after) behind 0 = d) ↔
      (0 : Byte) ∉ d.1.take 19 ∧ ((0 : Byte) ∈ d.1 → after = []) := by
  have hd := d.2
  rw [slice_eq_iff, shaString]
  by_cases hnul : (0 : Byte) ∈ d.1
  · obtain ⟨rest, hrest⟩ := exists_cstr_append hnul
    have hfree := nul_notMem_cstr d.1
    generalize cstr d.1 = x at hrest hfree
    have hcut : cstr (d.1 ++ junk.chars) = x := by
      rw [hrest, List.append_assoc, List.cons_append, cstr_append_nul hfree]
    have hsum := congrArg List.length hrest
    simp only [List.length_append, List.length_cons, hd] at hsum
    have hcancel : ((x ++ after ++ [0]).take 20 = d.1) ↔
        (after ++ [0]).take (20 - x.length) = 0 :: rest := by
      rw [hrest, List.append_assoc, List.take_append, List.take_of_length_le (by omega),
        List.append_right_inj]
    have hlast : (0 : Byte) ∉ d.1.take 19 ↔ 19 ≤ x.length := by
      rw [hrest, List.take_append, List.mem_append, not_or]
      constructor
      · rintro ⟨-, hrest⟩
        by_contra hlt
        obtain ⟨n, hn⟩ : ∃ n, 19 - x.length = n + 1 := ⟨18 - x.length, by omega⟩
        rw [hn, List.take_succ_cons] at hrest
        exact hrest (List.mem_cons_self ..)
      · intro hlen
        refine ⟨fun h => hfree (List.mem_of_mem_take h), ?_⟩
        rw [Nat.sub_eq_zero_of_le hlen]
        exact List.not_mem_nil
    simp only [hcut, hnul, true_implies, hcancel, hlast, List.length_append]
    constructor
    · rintro ⟨hlen, heq⟩
      obtain ⟨n, hn⟩ : ∃ n, 20 - x.length = n + 1 := ⟨19 - x.length, by omega⟩
      cases after with
      | nil => exact ⟨by simpa using hlen, rfl⟩
      | cons c after =>
          -- behind x stands c on one side, the NUL on the other
          rw [hn, List.cons_append, List.take_succ_cons, List.cons.injEq] at heq
          exact absurd (by simp [heq.1]) hafter
    · rintro ⟨hlen, rfl⟩
      have hx : x.length = 19 := by omega
      have hnil : rest = [] := List.length_eq_zero_iff.mp (by omega)
      rw [hnil, hx]
      exact ⟨by omega, rfl⟩
  · have hfree : (0 : Byte) ∉ d.1.take 19 := fun h => hnul (List.mem_of_mem_take h)
    have htext : cstr (d.1 ++ junk.chars) = d.1 ++ junk.chars := by
      rw [cstr_append hnul, cstr_of_nulFree junk.nulFree]
    simp only [htext, hnul, false_implies, and_true, hfree, not_false_eq_true, iff_true]
    refine ⟨by simp; omega, ?_⟩
    rw [List.append_assoc, List.append_assoc, List.take_append_of_le_length (by omega),
      List.take_of_length_le (by omega)]

/-! ## What is hashed -/

section Hashed

variable {stack : Stack} {file : List Byte}

/-- A read of a whole piece replaces the whole buffer. -/
theorem fread_full (buffer : Buffer) {rest : List Byte} (h : pieceLength ≤ rest.length) :
    (fread buffer rest).1 = rest.take pieceLength := by
  have hnil : buffer.1.drop (rest.take pieceLength).length = [] :=
    List.drop_eq_nil_of_le (by rw [List.length_take, buffer.2]; omega)
  show rest.take pieceLength ++ buffer.1.drop (rest.take pieceLength).length = _
  rw [hnil, List.append_nil]

theorem bufferAt_full {k : Nat} (hk : 256 * (k + 1) ≤ file.length) :
    (bufferAt stack file k).1 = pieceOf file k := by
  cases k with
  | zero =>
      rw [bufferAt, fread_full _ (by rw [pieceLength]; omega), pieceOf, Nat.mul_zero,
        List.drop_zero]
  | succ k =>
      rw [bufferAt, fread_full _ (by rw [List.length_drop, pieceLength]; omega), pieceOf]

/-- The file's bytes are those of its pieces. -/
theorem mem_file_iff {b : Byte} : b ∈ file ↔ ∃ k, k < pieceCount file ∧ b ∈ pieceOf file k := by
  constructor
  · intro h
    obtain ⟨i, hi, rfl⟩ := List.mem_iff_getElem.mp h
    refine ⟨i / 256, by rw [pieceCount]; omega, ?_⟩
    rw [pieceOf, List.mem_iff_getElem]
    refine ⟨i % 256, ?_, ?_⟩
    · simp only [List.length_take, List.length_drop, pieceLength]
      omega
    · simp only [List.getElem_take, List.getElem_drop, pieceLength, Nat.div_add_mod]
  · rintro ⟨k, -, hb⟩
    exact List.mem_of_mem_drop (List.mem_of_mem_take hb)

theorem nul_notMem_pieceOf (hfree : (0 : Byte) ∉ file) (k : Nat) : (0 : Byte) ∉ pieceOf file k :=
  fun h => hfree (List.mem_of_mem_drop (List.mem_of_mem_take h))

theorem length_pieceOf (k : Nat) : (pieceOf file k).length = min 256 (file.length - 256 * k) := by
  rw [pieceOf, List.length_take, List.length_drop, pieceLength]

theorem pieceOf_short (hlen : file.length < 256) : pieceOf file 0 = file := by
  rw [pieceOf, Nat.mul_zero, List.drop_zero]
  exact List.take_of_length_le (by rw [pieceLength]; omega)

/-- After a whole piece, what lies behind the array is hashed with it. -/
theorem hashedText_full (hfree : (0 : Byte) ∉ file) {k : Nat} (hk : 256 * (k + 1) ≤ file.length) :
    hashedText stack file k = pieceOf file k ++ (stack.behindBuffer k).chars := by
  rw [hashedText, bufferString, bufferAt_full hk, cstr_append (nul_notMem_pieceOf hfree k),
    cstr_of_nulFree (stack.behindBuffer k).nulFree]

/-- After a short piece at the end, the rest of the piece before it. -/
theorem hashedText_stale (hfree : (0 : Byte) ∉ file) {k : Nat}
    (hlo : 256 * (k + 1) ≤ file.length) (hhi : file.length < 256 * (k + 2)) :
    hashedText stack file (k + 1) = pieceOf file (k + 1) ++
      ((pieceOf file k).drop (file.length - 256 * (k + 1)) ++
        (stack.behindBuffer (k + 1)).chars) := by
  have hstale : (0 : Byte) ∉ (pieceOf file k).drop (file.length - 256 * (k + 1)) :=
    fun h => nul_notMem_pieceOf hfree k (List.mem_of_mem_drop h)
  have hbuffer : (bufferAt stack file (k + 1)).1
      = pieceOf file (k + 1) ++ (bufferAt stack file k).1.drop (pieceOf file (k + 1)).length := rfl
  rw [bufferAt_full hlo, length_pieceOf, Nat.min_eq_right (by omega)] at hbuffer
  rw [hashedText, bufferString, hbuffer, List.append_assoc,
    cstr_append (nul_notMem_pieceOf hfree (k + 1)), cstr_append hstale,
    cstr_of_nulFree (stack.behindBuffer (k + 1)).nulFree]

/-- A file shorter than a piece is followed by the buffer's initial
content. -/
theorem hashedText_short (hfree : (0 : Byte) ∉ file) (hlen : file.length < 256) :
    hashedText stack file 0 = file ++
      cstr (stack.buffer.1.drop file.length ++ (stack.behindBuffer 0).chars) := by
  have htake : file.take pieceLength = file :=
    List.take_of_length_le (by rw [pieceLength]; omega)
  have hbuffer : (bufferAt stack file 0).1
      = file.take pieceLength ++ stack.buffer.1.drop (file.take pieceLength).length := rfl
  rw [htake] at hbuffer
  rw [hashedText, bufferString, hbuffer, List.append_assoc, cstr_append hfree]

/-- The string at the buffer's initial content is empty when that begins
with a NUL. -/
theorem cstr_drop_buffer (buffer : Buffer) (behind : CString) {n : Nat} (hn : n < 256) :
    cstr (buffer.1.drop n ++ behind.chars) = [] ↔ buffer.1.getD n 0 = 0 := by
  have hlen : n < buffer.1.length := by rw [buffer.2, pieceLength]; omega
  rw [List.drop_eq_getElem_cons hlen, List.cons_append, List.getD_eq_getElem _ _ hlen, cstr,
    List.takeWhile_cons]
  simp

/-- **Each piece is hashed as it is** exactly when the file holds no NUL and
a NUL follows the bytes read: behind the array after whole pieces, in the
array's initial content after a file shorter than a piece. A short piece
after a whole one is never followed by a NUL, but by the rest of the piece
before it. -/
theorem hashes_pieces_iff :
    (∀ k, k < pieceCount file → hashedText stack file k = pieceOf file k) ↔
      (0 : Byte) ∉ file ∧
      ((256 ∣ file.length ∧ ∀ k, k < pieceCount file → (stack.behindBuffer k).chars = []) ∨
        (file.length < 256 ∧ stack.buffer.1.getD file.length 0 = 0)) := by
  constructor
  · intro h
    have hfree : (0 : Byte) ∉ file := by
      intro hmem
      obtain ⟨k, hk, hmem⟩ := mem_file_iff.mp hmem
      rw [← h k hk] at hmem
      exact nul_notMem_cstr _ hmem
    refine ⟨hfree, ?_⟩
    by_cases hdvd : 256 ∣ file.length
    · refine Or.inl ⟨hdvd, ?_⟩
      intro k hk
      have hfull := h k hk
      rw [pieceCount] at hk
      rw [hashedText_full hfree (by omega)] at hfull
      exact List.append_right_eq_self.mp hfull
    · rcases Nat.lt_or_ge file.length 256 with hshort | hlong
      · refine Or.inr ⟨hshort, ?_⟩
        have hhash := h 0 (by rw [pieceCount]; omega)
        rw [hashedText_short hfree hshort, pieceOf_short hshort] at hhash
        exact (cstr_drop_buffer _ _ hshort).mp (List.append_right_eq_self.mp hhash)
      · exfalso
        obtain ⟨k, hk⟩ : ∃ k, file.length / 256 = k + 1 := ⟨file.length / 256 - 1, by omega⟩
        have hhash := h (k + 1) (by rw [pieceCount]; omega)
        rw [hashedText_stale hfree (by omega) (by omega)] at hhash
        have hstale := congrArg List.length (List.append_right_eq_self.mp hhash)
        simp only [List.length_append, List.length_drop, length_pieceOf, List.length_nil] at hstale
        omega
  · rintro ⟨hfree, ⟨hdvd, hbehind⟩ | ⟨hshort, hnul⟩⟩ k hk
    · have hk' := hk
      rw [pieceCount] at hk'
      rw [hashedText_full hfree (by omega), hbehind k hk, List.append_nil]
    · rw [pieceCount] at hk
      obtain rfl : k = 0 := by omega
      rw [hashedText_short hfree hshort, (cstr_drop_buffer _ _ hshort).mpr hnul, List.append_nil,
        pieceOf_short hshort]

end Hashed

/-! ## When every piece verifies -/

/-- `verify_piece` accepts every piece of the file with the hash `decodeFile`
cuts for it out of the string `infoDict` collects, whatever lies behind the
piece, which it does not read, and behind the hashes. -/
def Verifies (sha1 : List Byte → Digest) (stack : Stack) (file : List Byte) : Prop :=
  ∀ k, k < pieceCount file → ∀ behindPiece behindHashes : Mem, ∃ pieces,
    pieceShasOf sha1 stack file = some pieces ∧
    verifyPiece sha1 (pieceOf file k).length (Mem.of (pieceOf file k) behindPiece)
      (pieceHash pieces.chars behindHashes k) (BitVec.ofNat 32 (pieceOf file k).length) = some true

/-- The length of the collected string when no digest holds a NUL: each takes
along what lies behind `sha`. -/
def collectedLength (stack : Stack) (steps : Nat) : Nat :=
  ((List.range steps).map fun k => 20 + (stack.behindSha k).chars.length).sum

/-- The condition on the file and on the memory of the call: the file holds
no NUL; the string at the buffer ends where the bytes read do; the digests of
all pieces but the last are followed by a NUL; the collected string fits its
array. -/
structure Hashable (stack : Stack) (file : List Byte) : Prop where
  nulFree : (0 : Byte) ∉ file
  ends : (256 ∣ file.length ∧ ∀ k, k < pieceCount file → (stack.behindBuffer k).chars = []) ∨
    (file.length < 256 ∧ stack.buffer.1.getD file.length 0 = 0)
  followed : ∀ k, k + 1 < pieceCount file → (stack.behindSha k).chars = []
  fits : collectedLength stack (file.length / 256 + 1) < buffSize

/-- The condition on the digests: none holds a NUL, except that the last byte
of the last one may be a NUL if nothing is appended after it. Something is
when the file ends with a whole piece: the digest of that piece and what lies
behind the buffer then. -/
def DigestsFit (sha1 : List Byte → Digest) (stack : Stack) (file : List Byte) : Prop :=
  ∀ k, k < pieceCount file →
    (0 : Byte) ∉ (sha1 (pieceOf file k)).1.take 19 ∧
    ((0 : Byte) ∈ (sha1 (pieceOf file k)).1 →
      k + 1 = pieceCount file ∧
      (256 ∣ file.length →
        (sha1 (pieceOf file k ++ (stack.behindBuffer (k + 1)).chars)).1.head? = some 0))

section Verified

variable {sha1 : List Byte → Digest} {stack : Stack} {file : List Byte}

/-- `verify_piece` compares digests; the piece is read no further than its
end. -/
theorem verifyPiece_pieceOf (k : Nat) (behind : Mem) (d : Digest) :
    verifyPiece sha1 (pieceOf file k).length (Mem.of (pieceOf file k) behind) d
        (BitVec.ofNat 32 (pieceOf file k).length)
      = some true ↔ d = sha1 (pieceOf file k) := by
  have hlen : (pieceOf file k).length < 2 ^ 31 := by
    rw [length_pieceOf]
    omega
  rw [verifyPiece, toNat_ofNat hlen, if_neg (by rw [toInt_ofNat hlen]; omega), Mem.read_of_length]
  simp [eq_comm]

/-- The texts before a step, the step's own text, and those after it. -/
theorem shaTexts_split {k : Nat} (hk : k ≤ file.length / 256) :
    shaTexts sha1 stack file 0 (file.length / 256 + 1)
      = shaTexts sha1 stack file 0 k ++ ((shaText sha1 stack file k).chars
        ++ shaTexts sha1 stack file (k + 1) (file.length / 256 - k)) := by
  have hsum : file.length / 256 + 1 = k + (file.length / 256 - k + 1) := by omega
  rw [hsum, shaTexts_add, Nat.zero_add, shaTexts_succ]

/-- Every piece verifies when the string fits and each slice is the digest of
its piece. -/
theorem verifies_iff_slices :
    Verifies sha1 stack file ↔ ∀ k, k < pieceCount file →
      (shaTexts sha1 stack file 0 (file.length / 256 + 1)).length < buffSize ∧
      ∀ behind, pieceHash (shaTexts sha1 stack file 0 (file.length / 256 + 1)) behind k
        = sha1 (pieceOf file k) := by
  constructor
  · intro h k hk
    have hone : ∀ behind, (shaTexts sha1 stack file 0 (file.length / 256 + 1)).length < buffSize ∧
        pieceHash (shaTexts sha1 stack file 0 (file.length / 256 + 1)) behind k
          = sha1 (pieceOf file k) := by
      intro behind
      obtain ⟨pieces, hpieces, hverify⟩ := h k hk (fun _ => 0) behind
      obtain ⟨hchars, hfit⟩ := (pieceShasOf_eq_some sha1 stack file).mp hpieces
      rw [verifyPiece_pieceOf] at hverify
      rw [← hchars]
      exact ⟨hfit, hverify⟩
    exact ⟨(hone fun _ => 0).1, fun behind => (hone behind).2⟩
  · intro h k hk behindPiece behindHashes
    obtain ⟨hfit, hslice⟩ := h k hk
    refine ⟨⟨_, nul_notMem_shaTexts sha1 stack file 0 (file.length / 256 + 1)⟩,
      (pieceShasOf_eq_some sha1 stack file).mpr ⟨rfl, hfit⟩, ?_⟩
    rw [verifyPiece_pieceOf]
    exact hslice behindHashes

/-- A digest without NUL is appended whole, with what follows it. -/
theorem chars_shaText {k : Nat} (h : (0 : Byte) ∉ (sha1 (hashedText stack file k)).1) :
    (shaText sha1 stack file k).chars
      = (sha1 (hashedText stack file k)).1 ++ (stack.behindSha k).chars := by
  show cstr ((sha1 (hashedText stack file k)).1 ++ (stack.behindSha k).chars) = _
  rw [cstr_append h, cstr_of_nulFree (stack.behindSha k).nulFree]

theorem length_shaText_le (sha1 : List Byte → Digest) (stack : Stack) (file : List Byte)
    (k : Nat) :
    (shaText sha1 stack file k).chars.length ≤ 20 + (stack.behindSha k).chars.length := by
  have hd := (sha1 (hashedText stack file k)).2
  have h := (List.takeWhile_prefix (fun b : Byte => decide (b ≠ 0))
    (l := (sha1 (hashedText stack file k)).1 ++ (stack.behindSha k).chars)).length_le
  rw [List.length_append, hd] at h
  exact h

theorem length_shaTexts_succ (n : Nat) :
    (shaTexts sha1 stack file 0 (n + 1)).length
      = (shaTexts sha1 stack file 0 n).length + (shaText sha1 stack file n).chars.length := by
  rw [shaTexts_add, Nat.zero_add, List.length_append]
  simp [shaTexts]

theorem length_shaTexts_le (n : Nat) :
    (shaTexts sha1 stack file 0 n).length ≤ collectedLength stack n := by
  induction n with
  | zero => simp [shaTexts, collectedLength]
  | succ n ih =>
      have := length_shaText_le sha1 stack file n
      rw [length_shaTexts_succ, collectedLength, List.range_succ, List.map_append, List.sum_append]
      rw [collectedLength] at ih
      simp only [List.map_cons, List.map_nil, List.sum_singleton]
      omega

/-- Texts of twenty bytes each keep the slices aligned. -/
theorem length_shaTexts_eq {n : Nat}
    (h : ∀ k, k < n → (shaText sha1 stack file k).chars.length = 20) :
    (shaTexts sha1 stack file 0 n).length = 20 * n := by
  induction n with
  | zero => simp [shaTexts]
  | succ n ih =>
      rw [length_shaTexts_succ, ih fun k hk => h k (by omega), h n (by omega)]
      omega

/-- A slice at an aligned step is the first slice of the text from there. -/
theorem slice_aligned {k : Nat} (hk : k ≤ file.length / 256)
    (hlen : (shaTexts sha1 stack file 0 k).length = 20 * k) (behind : Mem) :
    pieceHash (shaTexts sha1 stack file 0 (file.length / 256 + 1)) behind k
      = pieceHash ((shaText sha1 stack file k).chars
        ++ shaTexts sha1 stack file (k + 1) (file.length / 256 - k)) behind 0 := by
  rw [shaTexts_split hk, pieceHash_append hlen]

theorem lt_pieceCount_le {k : Nat} (hk : k < pieceCount file) : k ≤ file.length / 256 := by
  rw [pieceCount] at hk
  omega

/-- The slice of a piece that was hashed as it is. -/
theorem slice_piece_iff {k : Nat} (hk : k < pieceCount file)
    (hhash : hashedText stack file k = pieceOf file k)
    (hlen : (shaTexts sha1 stack file 0 k).length = 20 * k) :
    (∀ behind, pieceHash (shaTexts sha1 stack file 0 (file.length / 256 + 1)) behind k
        = sha1 (pieceOf file k)) ↔
      (0 : Byte) ∉ (sha1 (pieceOf file k)).1.take 19 ∧
      ((0 : Byte) ∈ (sha1 (pieceOf file k)).1 →
        shaTexts sha1 stack file (k + 1) (file.length / 256 - k) = []) := by
  simp only [slice_aligned (lt_pieceCount_le hk) hlen, shaText, hhash]
  exact slice_digest_iff _ (nul_notMem_shaTexts sha1 stack file _ _)

/-- Nothing is appended after the last piece, unless the file ends with a
whole piece: then its buffer is hashed once more. -/
theorem shaTexts_after_last (hfree : (0 : Byte) ∉ file) {k : Nat} (hk : k + 1 = pieceCount file) :
    shaTexts sha1 stack file (k + 1) (file.length / 256 - k) = [] ↔
      (256 ∣ file.length →
        (sha1 (pieceOf file k ++ (stack.behindBuffer (k + 1)).chars)).1.head? = some 0) := by
  rw [pieceCount] at hk
  by_cases hdvd : 256 ∣ file.length
  · have hone : file.length / 256 - k = 1 := by omega
    have hzero : file.length - 256 * (k + 1) = 0 := by omega
    have hpast : pieceOf file (k + 1) = [] :=
      List.length_eq_zero_iff.mp (by rw [length_pieceOf]; omega)
    have hhash : hashedText stack file (k + 1) = _ :=
      hashedText_stale hfree (by omega) (by omega)
    rw [hpast, hzero, List.drop_zero, List.nil_append] at hhash
    obtain ⟨b, t, hd⟩ : ∃ b t, (sha1 (hashedText stack file (k + 1))).1 = b :: t := by
      apply List.exists_cons_of_ne_nil
      intro hnil
      exact absurd (sha1 (hashedText stack file (k + 1))).2 (by simp [hnil])
    have htext : shaTexts sha1 stack file (k + 1) 1
        = cstr ((sha1 (hashedText stack file (k + 1))).1 ++ (stack.behindSha (k + 1)).chars) := by
      rw [shaTexts_succ]
      simp [shaTexts, shaText, shaString]
    rw [hone, htext, ← hhash, hd]
    simp [cstr, List.takeWhile_cons, hdvd]
  · have hzero : file.length / 256 - k = 0 := by omega
    rw [hzero]
    simp [shaTexts, hdvd]

/-- **On hashable files, every piece verifies exactly when the digests
fit.** -/
theorem verifies_iff_digestsFit (h : Hashable stack file) :
    Verifies sha1 stack file ↔ DigestsFit sha1 stack file := by
  have hhash := hashes_pieces_iff.mpr ⟨h.nulFree, h.ends⟩
  -- a digest without NUL, followed by one, is a text of twenty bytes
  have htext : ∀ k, k + 1 < pieceCount file → (0 : Byte) ∉ (sha1 (pieceOf file k)).1 →
      (shaText sha1 stack file k).chars.length = 20 := by
    intro k hk hfree
    rw [← hhash k (by omega)] at hfree
    rw [chars_shaText hfree, h.followed k hk, List.append_nil]
    exact (sha1 (hashedText stack file k)).2
  rw [verifies_iff_slices]
  constructor
  · intro hv
    have hnext : ∀ k, k + 1 < pieceCount file →
        (shaTexts sha1 stack file 0 k).length = 20 * k →
        (0 : Byte) ∉ (sha1 (pieceOf file k)).1 := by
      intro k hk hlen hnul
      -- the text would end at this digest, before the next slice
      have hafter := ((slice_piece_iff (by omega) (hhash k (by omega)) hlen).mp
        (hv k (by omega)).2).2 hnul
      have hreach := length_of_slice (hv (k + 1) hk).2
      have hlast := length_shaText_le sha1 stack file k
      rw [shaTexts_split (lt_pieceCount_le (Nat.lt_of_succ_lt hk)), hafter, List.append_nil,
        List.length_append, hlen] at hreach
      rw [h.followed k hk, List.length_nil] at hlast
      omega
    have haligned : ∀ k, k < pieceCount file → (shaTexts sha1 stack file 0 k).length = 20 * k := by
      intro k
      induction k with
      | zero => simp [shaTexts]
      | succ k ih =>
          intro hk
          have hlen := ih (by omega)
          rw [length_shaTexts_succ, hlen, htext k hk (hnext k hk hlen)]
          omega
    intro k hk
    obtain ⟨hfirst, hafter⟩ := (slice_piece_iff hk (hhash k hk) (haligned k hk)).mp (hv k hk).2
    refine ⟨hfirst, fun hnul => ?_⟩
    have hend : k + 1 = pieceCount file := by
      by_contra hne
      exact hnext k (by omega) (haligned k hk) hnul
    exact ⟨hend, (shaTexts_after_last h.nulFree hend).mp (hafter hnul)⟩
  · intro hd k hk
    have hlen : (shaTexts sha1 stack file 0 k).length = 20 * k := by
      apply length_shaTexts_eq
      intro j hj
      refine htext j (by omega) fun hnul => ?_
      have := ((hd j (by omega)).2 hnul).1
      omega
    refine ⟨Nat.lt_of_le_of_lt (length_shaTexts_le _) h.fits, ?_⟩
    refine (slice_piece_iff hk (hhash k hk) hlen).mpr ⟨(hd k hk).1, fun hnul => ?_⟩
    obtain ⟨hend, hextra⟩ := (hd k hk).2 hnul
    exact (shaTexts_after_last h.nulFree hend).mpr hextra

/-! ### The condition on file and memory is exact

Where it fails there is a SHA1 without NULs in its digests for which some
piece does not verify: a constant one tells a text that is too long or out
of line, one that is constant but for a single text tells what was hashed. -/

theorem length_shaTexts_of_nulFree (hsha : ∀ x, (0 : Byte) ∉ (sha1 x).1) (n : Nat) :
    (shaTexts sha1 stack file 0 n).length = collectedLength stack n := by
  induction n with
  | zero => simp [shaTexts, collectedLength]
  | succ n ih =>
      rw [length_shaTexts_succ, ih, chars_shaText (hsha _), List.length_append,
        (sha1 (hashedText stack file n)).2, collectedLength, collectedLength, List.range_succ,
        List.map_append, List.sum_append]
      simp

/-- The digest of twenty equal bytes. -/
def constDigest (b : Byte) : Digest := ⟨List.replicate 20 b, List.length_replicate ..⟩

theorem nul_notMem_constDigest {b : Byte} (hb : b ≠ 0) : (0 : Byte) ∉ (constDigest b).1 := by
  intro h
  exact hb (List.eq_of_mem_replicate h).symm

theorem aligned_of_followed (hsha : ∀ x, (0 : Byte) ∉ (sha1 x).1) {k : Nat}
    (h : ∀ j, j < k → (stack.behindSha j).chars = []) :
    (shaTexts sha1 stack file 0 k).length = 20 * k := by
  apply length_shaTexts_eq
  intro j hj
  rw [chars_shaText (hsha _), h j hj, List.append_nil]
  exact (sha1 (hashedText stack file j)).2

/-- A first slice that is a constant digest shows in the first byte. -/
theorem eq_of_slice_const {c b : Byte} {t : List Byte} {behind : Mem}
    (h : pieceHash (c :: t) behind 0 = constDigest b) : c = b := by
  have hfirst : (pieceHash (c :: t) behind 0).1.getD 0 0 = c := by
    show (((Mem.of (c :: t ++ [0]) behind).advance (20 * 0)).read 20).getD 0 0 = c
    rw [Mem.getD_read _ (by omega), Nat.mul_zero, Mem.advance_zero, Mem.of_lt (by simp)]
    rfl
  rw [← hfirst, h]
  rfl

variable (h : ∀ sha1, (∀ x, (0 : Byte) ∉ (sha1 x).1) → Verifies sha1 stack file)

include h

/-- A byte other than NUL behind the digest of a piece shifts the next
slice. -/
theorem followed_of_verifies : ∀ k, k + 1 < pieceCount file → (stack.behindSha k).chars = [] := by
  intro k
  induction k using Nat.strongRecOn with
  | ind k ih =>
      intro hk
      by_contra hne
      obtain ⟨c, junk, hjunk⟩ := List.exists_cons_of_ne_nil hne
      obtain ⟨b, hb, hbc⟩ : ∃ b : Byte, b ≠ 0 ∧ b ≠ c := by
        by_cases hc : c = 1
        · exact ⟨2, by decide, by rw [hc]; decide⟩
        · exact ⟨1, by decide, fun h1 => hc h1.symm⟩
      have hsha : ∀ x : List Byte, (0 : Byte) ∉ ((fun _ => constDigest b) x).1 :=
        fun _ => nul_notMem_constDigest hb
      have hlen : (shaTexts (fun _ => constDigest b) stack file 0 k).length = 20 * k :=
        aligned_of_followed hsha fun j hj => ih j hj (by omega)
      have hslice := (verifies_iff_slices.mp (h _ hsha) (k + 1) hk).2 fun _ => 0
      -- the digest of piece k ends an aligned prefix, and c comes next
      have htext : (shaText (fun _ => constDigest b) stack file k).chars
          = (constDigest b).1 ++ c :: junk := by
        rw [chars_shaText (hsha (hashedText stack file k)), hjunk]
      have hprefix : (shaTexts (fun _ => constDigest b) stack file 0 k ++ (constDigest b).1).length
          = 20 * (k + 1) := by
        rw [List.length_append, hlen, (constDigest b).2]
        omega
      rw [shaTexts_split (lt_pieceCount_le (Nat.lt_of_succ_lt hk)), htext, List.append_assoc,
        ← List.append_assoc, pieceHash_append hprefix] at hslice
      exact hbc (eq_of_slice_const hslice).symm

/-- Each piece is hashed as it is: a SHA1 that sets apart what was hashed
would tell. -/
theorem hashes_of_verifies :
    ∀ k, k < pieceCount file → hashedText stack file k = pieceOf file k := by
  intro k hk
  by_contra hne
  let sha1 : List Byte → Digest := fun x =>
    if x = hashedText stack file k then constDigest 1 else constDigest 2
  have hsha : ∀ x, (0 : Byte) ∉ (sha1 x).1 := by
    intro x
    simp only [sha1]
    split
    · exact nul_notMem_constDigest (by decide)
    · exact nul_notMem_constDigest (by decide)
  have hhashed : sha1 (hashedText stack file k) = constDigest 1 := if_pos rfl
  have hpiece : sha1 (pieceOf file k) = constDigest 2 := if_neg fun heq => hne heq.symm
  have hlen : (shaTexts sha1 stack file 0 k).length = 20 * k :=
    aligned_of_followed hsha fun j hj => followed_of_verifies h j (by omega)
  have hslice := (verifies_iff_slices.mp (h sha1 hsha) k hk).2 fun _ => 0
  rw [slice_aligned (lt_pieceCount_le hk) hlen, chars_shaText (hsha _), hhashed, hpiece] at hslice
  exact absurd (eq_of_slice_const hslice) (by decide)

theorem hashable_of_verifies (hfile : file ≠ []) : Hashable stack file := by
  have hone : 0 < pieceCount file := by
    have := List.length_pos_iff.mpr hfile
    rw [pieceCount]
    omega
  have hsha : ∀ x : List Byte, (0 : Byte) ∉ ((fun _ => constDigest 1) x).1 :=
    fun _ => nul_notMem_constDigest (by decide)
  have hfits := (verifies_iff_slices.mp (h _ hsha) 0 hone).1
  rw [length_shaTexts_of_nulFree hsha] at hfits
  obtain ⟨hfree, hends⟩ := hashes_pieces_iff.mp (hashes_of_verifies h)
  exact ⟨hfree, hends, followed_of_verifies h, hfits⟩

end Verified

/-- **When every piece of a file verifies against its own torrent.** The
condition on file and memory is exact over the SHA1 functions whose digests
hold no NUL; where it holds, the condition on the digests is exact for each
SHA1. -/
theorem own_torrent_verifies_iff (stack : Stack) (file : List Byte) :
    ((∀ sha1, (∀ x, (0 : Byte) ∉ (sha1 x).1) → Verifies sha1 stack file) ↔
      file = [] ∨ Hashable stack file) ∧
    (file = [] ∨ Hashable stack file →
      ∀ sha1, (Verifies sha1 stack file ↔ DigestsFit sha1 stack file)) := by
  have hdigests : file = [] ∨ Hashable stack file →
      ∀ sha1, (Verifies sha1 stack file ↔ DigestsFit sha1 stack file) := by
    intro h sha1
    rcases h with rfl | h
    · have hnone : ∀ k, ¬ k < pieceCount [] := fun k => by simp [pieceCount]
      exact ⟨fun _ k hk => absurd hk (hnone k), fun _ k hk => absurd hk (hnone k)⟩
    · exact verifies_iff_digestsFit h
  refine ⟨⟨?_, ?_⟩, hdigests⟩
  · intro h
    by_cases hfile : file = []
    · exact Or.inl hfile
    · exact Or.inr (hashable_of_verifies h hfile)
  · intro h sha1 hsha
    refine (hdigests h sha1).mpr fun k _ => ⟨fun hnul => ?_, fun hnul => ?_⟩
    · exact hsha _ (List.mem_of_mem_take hnul)
    · exact absurd hnul (hsha _)

/-- A stack with a NUL wherever the loop may look. -/
def nulStack : Stack where
  buffer := ⟨List.replicate 256 0, List.length_replicate ..⟩
  behindBuffer := fun _ => .empty
  behindSha := fun _ => .empty

example : Hashable nulStack (ascii "text") where
  nulFree := by decide
  ends := Or.inr ⟨by decide, by decide⟩
  followed := fun _ _ => rfl
  fits := by decide

/-- A file of one zero byte: the empty string is hashed in its place. -/
theorem own_torrent_verifies_zero :
    [(0 : Byte)].length < 2 ^ 31 ∧
    ¬ Verifies (fun x => if x = [] then constDigest 1 else constDigest 2) nulStack [0] := by
  refine ⟨by decide, fun h => ?_⟩
  have hslice := (verifies_iff_slices.mp h 0 (by decide)).2 fun _ => 0
  have hhash : hashedText nulStack [0] 0 = [] := by
    simp [hashedText, bufferString, bufferAt, fread, pieceLength, cstr]
  rw [slice_aligned (by decide) (by simp [shaTexts]), chars_shaText (by rw [hhash]; decide), hhash]
    at hslice
  exact absurd (eq_of_slice_const hslice) (by decide)

/-! ## Through the torrent file -/

section TorrentFile

variable {sha1 : List Byte → Digest} {stack : Stack} {target address text : CString}
  {file : List Byte}

/-- A file whose pieces verify is accepted through its torrent: the hash
`decodeFile` finds there for a piece is the one `verify_piece` accepts. -/
theorem decoded_piece_verifies (hlen : file.length < 2 ^ 31)
    (htext : encodeFile sha1 stack target address file = some text)
    (hsize : text.chars.length < buffSize) (behind : List Byte) {fuel : Nat}
    (hfuel : text.chars.length ≤ fuel) (heap : Heap) (out : BtInfo)
    (hv : Verifies sha1 stack file) {k : Nat} (hk : k < pieceCount file) (behindPiece : Mem) :
    ∃ info d, decodeFile fuel text.chars behind heap out = some (.ok info) ∧
      info.pieceHashes[k]? = some d ∧
      verifyPiece sha1 (pieceOf file k).length (Mem.of (pieceOf file k) behindPiece) d
        (BitVec.ofNat 32 (pieceOf file k).length) = some true := by
  rw [encodeFile, infoDict, Option.map_map, Option.map_eq_some_iff] at htext
  obtain ⟨pieces, hpieces, rfl⟩ := htext
  obtain ⟨pieces', hpieces', hverify⟩ := hv k hk behindPiece heap.behind
  obtain rfl : pieces = pieces' := Option.some.inj (hpieces.symm.trans hpieces')
  refine ⟨_, _, decodeFile_torrentText hlen hsize behind hfuel heap out, ?_, hverify⟩
  rw [pieceCount] at hk
  rw [torrentInfo, List.getElem?_map, List.getElem?_range hk, Option.map_some]

end TorrentFile

end DubstepDucks.Bencode
