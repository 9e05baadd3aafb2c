import DubstepDucks.Bencode.PieceCount

/-!
# Torrent — pieces that are read back

`get_piece` and `get_piece_from_file` read a whole piece into an array and
copy it with `strcpy`; `write_piece` appends a newline with `strcat` before it
writes. Both treat the piece as a string, so a NUL in it is not just cut off:
it has become a newline in the file.

A seeder reads every piece the metainfo counts. The count rounds up, the
reader exits on a short read, and the two agree on files that are cut into
whole pieces only.
-/

namespace DubstepDucks.Torrent

open CMem Bencode

/-! ## Reading what was written -/

/-- A block that was written is found at its offset. -/
theorem fileRead_fileWrite (content : List Byte) (off : Nat) (bs : List Byte) :
    fileRead (fileWrite content off bs) off bs.length = bs := by
  by_cases hbs : bs = []
  · simp [hbs, fileRead]
  · have hfront : (content.take off ++ List.replicate (off - content.length) 0).length = off := by
      simp
      omega
    rw [fileRead, fileWrite, if_neg hbs, List.append_assoc, List.drop_left' hfront, List.take_left]

section Copies

variable {src front : List Byte} (fresh : Mem)

/-- What stands before the first NUL arrives in the copy. -/
theorem take_strcpy (hfront : (0 : Byte) ∉ front) (rest : List Byte) :
    (strcpy (front ++ rest) fresh).take front.length = front := by
  have hread : (strcpy (front ++ rest) fresh).take front.length
      = (fresh.write 0 (cstr (front ++ rest) ++ [0])).read front.length := by
    rw [strcpy, Mem.read, Mem.read, ← List.map_take, List.take_range, List.length_append]
    congr 2
    omega
  rw [hread, Mem.write_zero, cstr_append hfront, List.append_assoc,
    Mem.read_of_le (by simp), List.take_left]

theorem strcpy_of_nulFree (h : (0 : Byte) ∉ src) : strcpy src fresh = src := by
  have hlen : (strcpy (src ++ []) fresh).length = src.length := by
    rw [strcpy, Mem.length_read, List.append_nil]
  have hfront := take_strcpy fresh h []
  rwa [List.append_nil, List.take_of_length_le (by rw [← hlen, List.append_nil])] at hfront

end Copies

/-- The first NUL of a block becomes a newline, the byte behind it a NUL. -/
theorem newlined_of_nul {front : List Byte} (hfront : (0 : Byte) ∉ front) (rest : List Byte) :
    newlined (front ++ 0 :: rest) = front ++ 10 :: rest.set 0 0 := by
  have hfirst : (front ++ 0 :: rest).findIdx? (· = 0) = some front.length := by
    have hnone : front.findIdx? (· = 0) = none := by
      rw [List.findIdx?_eq_none_iff]
      intro b hb
      exact decide_eq_false fun h0 => hfront (h0 ▸ hb)
    rw [List.findIdx?_append, hnone, List.findIdx?_cons, if_pos (by decide), Option.none_or,
      Option.map_some, Nat.zero_add]
  rw [newlined, hfirst]
  dsimp only
  rw [List.set_append_right _ _ (Nat.le_refl _), Nat.sub_self, List.set_cons_zero,
    List.set_append_right _ _ (by omega), Nat.add_sub_cancel_left, List.set_cons_succ]

theorem newlined_of_nulFree {block : List Byte} (h : (0 : Byte) ∉ block) :
    newlined block = block := by
  have hnone : block.findIdx? (· = 0) = none := by
    rw [List.findIdx?_eq_none_iff]
    intro b hb
    exact decide_eq_false fun h0 => h (h0 ▸ hb)
  rw [newlined, hnone]

/-- Through `strcat` and `strcpy` a block comes back exactly when it has no
NUL. -/
theorem strcpy_newlined_iff (block : List Byte) (fresh : Mem) :
    strcpy (newlined block) fresh = block ↔ (0 : Byte) ∉ block := by
  constructor
  · intro hsame hnul
    obtain ⟨front, rest, hfront, rfl⟩ : ∃ front rest, (0 : Byte) ∉ front ∧
        block = front ++ 0 :: rest := by
      obtain ⟨rest, hblock⟩ := exists_cstr_append hnul
      exact ⟨cstr block, rest, nul_notMem_cstr block, hblock⟩
    -- the newline in the place of the NUL stands before the first NUL of the file
    have hnewline : (0 : Byte) ∉ front ++ [10] := by
      intro hmem
      rcases List.mem_append.mp hmem with hold | hnew
      · exact hfront hold
      · exact absurd (List.mem_singleton.mp hnew) (by decide)
    have hcopied := take_strcpy fresh hnewline (rest.set 0 0)
    rw [newlined_of_nul hfront, List.append_cons] at hsame
    rw [hsame, List.append_cons front 0 rest, List.take_left' (by simp)] at hcopied
    exact absurd (List.append_cancel_left hcopied) (by decide)
  · intro hfree
    rw [newlined_of_nulFree hfree, strcpy_of_nulFree fresh hfree]

/-! ## The two readers after the writer -/

/-- A piece whose offset is not negative is read whole or not at all. -/
theorem readPiece_eq {content : List Byte} {p len : CInt} {fresh : Mem}
    (hoff : ¬ (p * len).toInt < 0) :
    readPiece (some content) p len fresh =
      if (fileRead content (p * len).toNat len.toNat).length ≠ len.toNat then .error .exit
      else .ok { bytes := strcpy (fileRead content (p * len).toNat len.toNat) fresh
                 overflow := decide (0 ∉ fileRead content (p * len).toNat len.toNat) } := by
  rw [readPiece, seekPiece, if_neg hoff]

section Written

variable {content block : List Byte} {behind : Mem} {p len : CInt} {size taken : Nat}
  {w : Written}

/-- What either reader makes of a block that was written whole. -/
theorem readPiece_written (hblock : block.length = len.toNat)
    (hwrite : writePiece (some content) p len (Mem.of block behind) size taken = .ok w)
    (htaken : w.bytes.length = len.toNat) (fresh : Mem) :
    readPiece (some w.file) p len fresh = .ok
      { bytes := strcpy (newlined block) fresh, overflow := decide (0 ∉ newlined block) } := by
  obtain ⟨content', hcontent, hoff, hfile⟩ := writePiece_ok hwrite
  cases hcontent
  have hbytes : w.bytes = newlined block := by
    have hall := writePiece_bytes hwrite
    rw [← hblock, Mem.read_of_length] at hall
    rw [hall, List.length_take, length_newlined] at htaken
    rw [hall, List.take_of_length_le (by rw [length_newlined]; omega)]
  have hfound : fileRead w.file (p * len).toNat len.toNat = newlined block := by
    rw [hfile, ← htaken, fileRead_fileWrite, hbytes]
  have hlength : (newlined block).length = len.toNat := by rw [length_newlined, hblock]
  rw [readPiece_eq (Int.not_lt.mpr hoff), hfound, if_neg (not_not_intro hlength)]

/-- **When a stored piece reads back.** After `write_piece` took a block of
`piece_len` bytes, both readers return the block exactly when it has no NUL. -/
theorem pieces_read_back_iff (hblock : block.length = len.toNat)
    (hwrite : writePiece (some content) p len (Mem.of block behind) size taken = .ok w)
    (htaken : w.bytes.length = len.toNat) (fresh : Mem) :
    ((∃ r, getPiece (some w.file) p len fresh = .ok r ∧ r.bytes = block) ∧
      ∃ r, getPieceFromFile (some w.file) p len fresh = .ok r ∧ r.bytes = block) ↔
      (0 : Byte) ∉ block := by
  have hread := readPiece_written hblock hwrite htaken fresh
  rw [getPiece, getPieceFromFile, and_self, hread, ← strcpy_newlined_iff block fresh]
  constructor
  · rintro ⟨r, hr, hsame⟩
    cases hr
    exact hsame
  · intro hsame
    exact ⟨_, rfl, hsame⟩

/-- But then the `strcpy` of each reader has written past its block. -/
theorem read_back_overflows (hblock : block.length = len.toNat)
    (hwrite : writePiece (some content) p len (Mem.of block behind) size taken = .ok w)
    (htaken : w.bytes.length = len.toNat) (hfree : (0 : Byte) ∉ block) (fresh : Mem) :
    getPiece (some w.file) p len fresh = .ok { bytes := block, overflow := true } ∧
      getPieceFromFile (some w.file) p len fresh = .ok { bytes := block, overflow := true } := by
  have hread := readPiece_written hblock hwrite htaken fresh
  rw [newlined_of_nulFree hfree, strcpy_of_nulFree fresh hfree, decide_eq_true hfree] at hread
  exact ⟨hread, hread⟩

end Written

/-- Four letters in a buffer of eight bytes. -/
theorem pieces_read_back_text :
    ∃ w, writePiece (some []) 1 4 (Mem.of (ascii "duck") fun _ => 0) 8 4 = .ok w ∧
      (∃ r, getPiece (some w.file) 1 4 (fun _ => 0) = .ok r ∧ r.bytes = ascii "duck") ∧
      ∃ r, getPieceFromFile (some w.file) 1 4 (fun _ => 0) = .ok r ∧ r.bytes = ascii "duck" := by
  obtain ⟨w, hwrite, htaken⟩ : ∃ w, writePiece (some []) 1 4 (Mem.of (ascii "duck") fun _ => 0) 8 4
      = .ok w ∧ w.bytes.length = 4 := ⟨_, rfl, by decide⟩
  exact ⟨w, hwrite, (pieces_read_back_iff (by decide) hwrite htaken _).mpr (by decide)⟩

/-- A zero byte in the block comes back as a newline. -/
theorem pieces_read_back_nul :
    ¬ ∀ (content block : List Byte) (behind : Mem) (p len : CInt) (size taken : Nat) (w : Written)
      (fresh : Mem), block.length = len.toNat →
      writePiece (some content) p len (Mem.of block behind) size taken = .ok w →
      w.bytes.length = len.toNat →
      (∃ r, getPiece (some w.file) p len fresh = .ok r ∧ r.bytes = block) ∧
        ∃ r, getPieceFromFile (some w.file) p len fresh = .ok r ∧ r.bytes = block := by
  intro hclaim
  obtain ⟨⟨r, hr, hsame⟩, -⟩ := hclaim [] [0, 1] (fun _ => 0) 0 2 8 2 _ (fun _ => 0) rfl rfl
    (by decide)
  cases hr
  exact absurd hsame (by decide)

/-! ## Serving every piece -/

/-- The bytes of piece `k`, fewer than `pieceLen` at the end of the file. -/
def pieceSlice (file : List Byte) (pieceLen k : Nat) : List Byte :=
  (file.drop (k * pieceLen)).take pieceLen

/-- Every piece the metainfo counts can be read and starts with the bytes of
the file, and put together the pieces are the file. -/
def ServesAll (file : List Byte) (pieceLen : CInt) : Prop :=
  ∃ n, countPieces (BitVec.ofNat 32 file.length) pieceLen = .ok n ∧
    (∀ k : CInt, 0 ≤ k.toInt → k.toInt < n.toInt → ∀ fresh, ∃ r,
      getPieceFromFile (some file) k pieceLen fresh = .ok r ∧
        pieceSlice file pieceLen.toNat k.toNat <+: r.bytes) ∧
    (List.range n.toNat).flatMap (pieceSlice file pieceLen.toNat) = file

section Serving

variable {file : List Byte} {pieceLen k : CInt}

/-- Reading a piece that starts inside the file. -/
theorem getPieceFromFile_inside (hlen : file.length < 2 ^ 31) (hpiece : 0 < pieceLen.toInt)
    (hk : 0 ≤ k.toInt) (hstart : k.toNat * pieceLen.toNat < file.length) (fresh : Mem) :
    getPieceFromFile (some file) k pieceLen fresh =
      if (pieceSlice file pieceLen.toNat k.toNat).length ≠ pieceLen.toNat then .error .exit
      else .ok { bytes := strcpy (pieceSlice file pieceLen.toNat k.toNat) fresh
                 overflow := decide (0 ∉ pieceSlice file pieceLen.toNat k.toNat) } := by
  have hlength : (BitVec.ofNat 32 file.length).toInt = file.length := toInt_ofNat hlen
  have hkInt : k.toInt = k.toNat := toInt_eq_of_nonneg hk
  have hpieceInt : pieceLen.toInt = pieceLen.toNat := toInt_eq_of_nonneg (by omega)
  have hoffset : (k * pieceLen).toInt = ((k.toNat * pieceLen.toNat : Nat) : Int) := by
    rw [Nat.cast_mul, ← hkInt, ← hpieceInt]
    apply toInt_offset hk hpiece
    rw [hlength, hkInt, hpieceInt, ← Nat.cast_mul]
    exact Int.ofNat_lt.mpr hstart
  have hoffsetNat : (k * pieceLen).toNat = k.toNat * pieceLen.toNat := by
    rw [toInt_eq_of_nonneg (by omega)] at hoffset
    exact Int.ofNat_inj.mp hoffset
  rw [getPieceFromFile, readPiece_eq (by omega), hoffsetNat]
  rfl

/-- In a file of whole pieces every slice that starts in it is one. -/
theorem length_pieceSlice_of_whole {P k : Nat} (hwhole : file.length % P = 0)
    (hstart : k * P < file.length) : (pieceSlice file P k).length = P := by
  obtain ⟨m, hm⟩ := Nat.dvd_of_mod_eq_zero hwhole
  rw [hm, Nat.mul_comm P m] at hstart
  have hnext : (k + 1) * P ≤ m * P := Nat.mul_le_mul_right _ (Nat.lt_of_mul_lt_mul_right hstart)
  rw [Nat.succ_mul, Nat.mul_comm m, ← hm] at hnext
  rw [pieceSlice, List.length_take, List.length_drop]
  omega

/-- In any other file the last slice starts inside and is short. -/
theorem lastSlice_short {P : Nat} (hP : 0 < P) (hrest : file.length % P ≠ 0) :
    file.length / P * P < file.length ∧ (pieceSlice file P (file.length / P)).length ≠ P := by
  have hsplit := Nat.div_add_mod' file.length P
  have hshort := Nat.mod_lt file.length hP
  rw [pieceSlice, List.length_take, List.length_drop]
  omega

/-- **When a seeder can serve every piece.** For a file without zero bytes
that is not too long for an int, and any positive piece length, every piece
that the metainfo counts can be read exactly when the file is cut into whole
pieces: the reader exits on a last piece that is short. -/
theorem serves_all_iff (hfree : (0 : Byte) ∉ file) (hlen : file.length < 2 ^ 31)
    (hpiece : 0 < pieceLen.toInt) :
    ServesAll file pieceLen ↔ file.length % pieceLen.toNat = 0 := by
  have hlength : (BitVec.ofNat 32 file.length).toInt = file.length := toInt_ofNat hlen
  have hpieceInt : pieceLen.toInt = pieceLen.toNat := toInt_eq_of_nonneg (by omega)
  obtain ⟨n, hcount, -, hcuts⟩ :=
    countPieces_cuts (by omega : 0 ≤ (BitVec.ofNat 32 file.length).toInt) hpiece
  rw [hlength, hpieceInt] at hcuts
  constructor
  · rintro ⟨n', hcount', hserves, -⟩
    cases hcount'.symm.trans hcount
    by_contra hrest
    have hk : (BitVec.ofNat 32 (file.length / pieceLen.toNat)).toNat
        = file.length / pieceLen.toNat :=
      toNat_ofNat (Nat.lt_of_le_of_lt (Nat.div_le_self _ _) hlen)
    have hkInt : (BitVec.ofNat 32 (file.length / pieceLen.toNat)).toInt
        = (file.length / pieceLen.toNat : Nat) :=
      toInt_ofNat (Nat.lt_of_le_of_lt (Nat.div_le_self _ _) hlen)
    obtain ⟨hstart, hshort⟩ := lastSlice_short (by omega) hrest
    have hlast : (BitVec.ofNat 32 (file.length / pieceLen.toNat)).toInt < n.toInt := by
      rw [hkInt, hcuts, ← Nat.cast_mul]
      exact Int.ofNat_lt.mpr hstart
    obtain ⟨r, hread, -⟩ := hserves _ (by omega) hlast fun _ => 0
    rw [getPieceFromFile_inside hlen hpiece (by omega) (by rwa [hk]), hk, if_pos hshort] at hread
    cases hread
  · intro hwhole
    refine ⟨n, hcount, ?_, ?_⟩
    · intro k hk hkn fresh
      have hkInt : k.toInt = k.toNat := toInt_eq_of_nonneg hk
      have hstart : k.toNat * pieceLen.toNat < file.length := by
        rw [hcuts, hkInt, ← Nat.cast_mul] at hkn
        exact Int.ofNat_lt.mp hkn
      have hfull := length_pieceSlice_of_whole hwhole hstart
      have hslice : (0 : Byte) ∉ pieceSlice file pieceLen.toNat k.toNat :=
        fun h0 => hfree (List.mem_of_mem_drop (List.mem_of_mem_take h0))
      have hread := getPieceFromFile_inside hlen hpiece hk hstart fresh
      rw [if_neg (not_not_intro hfull), strcpy_of_nulFree fresh hslice] at hread
      exact ⟨_, hread, List.prefix_refl _⟩
    · have hn : n.toInt = n.toNat := by
        apply toInt_eq_of_nonneg
        have := (hcuts (-1)).mpr (by omega)
        omega
      rw [hn] at hcuts
      exact hcuts.flatMap_slices

/-- But whatever is served, the `strcpy` has written past its block. -/
theorem served_overflows (hfree : (0 : Byte) ∉ file) {fresh : Mem} {r : PieceCopy}
    (hread : getPieceFromFile (some file) k pieceLen fresh = .ok r) : r.overflow = true := by
  rw [getPieceFromFile, readPiece] at hread
  split at hread
  · cases hread
  next content off hseek =>
  have hcontent : content = file := by
    rw [seekPiece] at hseek
    split at hseek
    · cases hseek
    · cases hseek
      rfl
  dsimp only at hread
  split at hread
  · cases hread
  · cases hread
    rw [hcontent]
    exact decide_eq_true fun h0 => hfree (List.mem_of_mem_drop (List.mem_of_mem_take h0))

end Serving

/-- Twelve bytes in pieces of four. -/
theorem serves_all_whole : ServesAll (List.replicate 12 1) 4 :=
  (serves_all_iff (by decide) (by decide) (by decide)).mpr (by decide)

/-- Three bytes in pieces of two: the second piece is not served. -/
theorem serves_all_short :
    ¬ ∀ (file : List Byte) (pieceLen : CInt), (0 : Byte) ∉ file → 0 < file.length →
      file.length < 2 ^ 31 → 0 < pieceLen.toInt → ServesAll file pieceLen := by
  intro hclaim
  obtain ⟨n, hcount, hserves, -⟩ :=
    hclaim [1, 1, 1] 2 (by decide) (by decide) (by decide) (by decide)
  have hn : n = 2 := Except.ok.inj (hcount.symm.trans (by decide))
  obtain ⟨r, hread, -⟩ := hserves 1 (by decide) (by rw [hn]; decide) fun _ => 0
  cases hread

end DubstepDucks.Torrent
