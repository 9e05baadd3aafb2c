import DubstepDucks.CMem.Strings

/-!
# Torrent — pieces of the file

`file_constructor.c`, and `get_piece_from_file` of `btp.c`, which is
`get_piece` once more. A file is its bytes; a descriptor that cannot be
seeked (never opened, or a socket) is `none`. SHA1 is a parameter.

`set_initial_bitfield` assigns the descriptor it opens to its own parameter,
so the caller's `file_destination` is never set: which file, if any, stands
behind it is a fact about the environment, not about the torrent.

A call that does not return is a `Stop`: the process exits, or it faults.
-/

namespace DubstepDucks.Torrent

open CMem

/-- Why a call does not return. -/
inductive Stop where
  | exit
  | fault
  deriving DecidableEq, Repr

/-- Twenty bytes, `SHA_DIGEST_LENGTH`. -/
abbrev Digest := { d : List Byte // d.length = 20 }

/-! ## Files -/

/-- The file after `write` put `bs` at offset `off`; a gap reads as zero. -/
def fileWrite (content : List Byte) (off : Nat) (bs : List Byte) : List Byte :=
  if bs = [] then content
  else content.take off ++ List.replicate (off - content.length) 0 ++ bs
    ++ content.drop (off + bs.length)

/-- The bytes `read` finds at offset `off`, at most `len`. -/
def fileRead (content : List Byte) (off len : Nat) : List Byte := (content.drop off).take len

/-- `lseek(fd, piece_num * piece_len, SEEK_SET)` with its error exit: the
file and the offset. The product is an int. -/
def seekPiece (file : Option (List Byte)) (pieceNum pieceLen : CInt) :
    Except Stop (List Byte × Nat) :=
  match file with
  | none => .error .exit
  | some content =>
      if (pieceNum * pieceLen).toInt < 0 then .error .exit
      else .ok (content, (pieceNum * pieceLen).toNat)

/-! ## The functions -/

/-- The bitfield `set_initial_bitfield` returns. -/
def setInitialBitfield (numPieces : Nat) : List Byte :=
  List.replicate (numPieces / 8 + if numPieces % 8 ≠ 0 then 1 else 0) 0

/-- `verify_piece`, when `readable` bytes can be read from `piece` on. A
negative length is a huge `size_t` for `SHA1`; past what can be read it is
`none`. -/
def verifyPiece (sha1 : List Byte → Digest) (readable : Nat) (piece : Mem) (expectedSha : Digest)
    (pieceLength : CInt) : Option Bool :=
  if pieceLength.toInt < 0 ∨ readable < pieceLength.toNat then none
  else some (sha1 (piece.read pieceLength.toNat) = expectedSha)

/-- What a returning `write_piece` leaves: the file, the buffer (`strcat`
wrote into it) and the bytes `write` took. -/
structure Written where
  file : List Byte
  buffer : Mem
  bytes : List Byte

/-- `write_piece` from a buffer of `size` bytes; the system takes the first
`taken` of the bytes offered. -/
def writePiece (file : Option (List Byte)) (pieceNum pieceLen : CInt) (buffer : Mem)
    (size taken : Nat) : Except Stop Written :=
  match seekPiece file pieceNum pieceLen with
  | .error stop => .error stop
  | .ok (content, off) =>
      match buffer.strcat size (ascii "\n") with
      | none => .error .fault
      | some buffer =>
          let bytes := (buffer.read pieceLen.toNat).take taken
          .ok { file := fileWrite content off bytes, buffer := buffer, bytes := bytes }

/-- A piece in a fresh heap block of `piece_len` bytes, and whether `strcpy`
wrote past the block's end. -/
structure PieceCopy where
  bytes : List Byte
  overflow : Bool

/-- The shared body of `get_piece` and `get_piece_from_file`; `fresh` is the
content of the block `malloc` returns. -/
def readPiece (file : Option (List Byte)) (pieceNum pieceLen : CInt) (fresh : Mem) :
    Except Stop PieceCopy :=
  match seekPiece file pieceNum pieceLen with
  | .error stop => .error stop
  | .ok (content, off) =>
      let buffer := fileRead content off pieceLen.toNat
      if buffer.length ≠ pieceLen.toNat then .error .exit
      -- without a NUL in the piece, strcpy runs on behind the buffer
      else .ok { bytes := strcpy buffer fresh, overflow := decide (0 ∉ buffer) }

def getPiece := readPiece

def getPieceFromFile := readPiece

/-! ## What goes into the file -/

/-- A block after `strcat(block, "\n")`, cut to its length: the first NUL
becomes a newline and the byte behind it the new NUL. -/
def newlined (block : List Byte) : List Byte :=
  match block.findIdx? (· = 0) with
  | none => block
  | some z => (block.set z 10).set (z + 1) 0

theorem length_newlined (block : List Byte) : (newlined block).length = block.length := by
  unfold newlined
  split <;> simp

/-- `strcat` changes the first bytes of the buffer as `newlined` does. -/
theorem read_strcat {m m' : Mem} {size : Nat} (n : Nat)
    (h : m.strcat size (ascii "\n") = some m') : m'.read n = newlined (m.read n) := by
  rw [Mem.strcat] at h
  split at h
  · cases h
  · next z hz =>
    obtain ⟨-, hnul, hbefore⟩ := Mem.findNul_spec hz
    split at h
    · cases h
      rw [newlined]
      split
      · next hfind =>
        -- no NUL among the first bytes: the write lies behind them
        have hzn : n ≤ z := by
          by_contra hlt
          have hmem : m z ∈ m.read n := List.mem_map_of_mem (List.mem_range.mpr (by omega))
          have hne := List.findIdx?_eq_none_iff.mp hfind _ hmem
          simp [hnul] at hne
        exact Mem.read_congr fun i hi => Mem.write_out (by omega)
      · next y hfind =>
        obtain ⟨hy, hynul, hyfirst⟩ := List.findIdx?_eq_some_iff_getElem.mp hfind
        simp only [Mem.read, List.getElem_map, List.getElem_range,
          decide_eq_true_eq] at hynul hyfirst
        have hyz : y = z := by
          rcases Nat.lt_trichotomy y z with hlt | heq | hgt
          · exact absurd hynul (hbefore y hlt)
          · exact heq
          · exact absurd hnul (hyfirst z hgt)
        subst hyz
        apply ext_getD
        · simp
        · intro i hi
          rw [Mem.length_read] at hi
          rw [Mem.getD_read _ hi]
          simp only [List.getD_eq_getElem?_getD, List.getElem?_set, List.length_set,
            Mem.length_read]
          by_cases h1 : y = i
          · subst h1
            rw [if_neg (by omega), if_pos rfl, if_pos hi, Mem.write_in (by omega) (by simp [ascii])]
            simp [ascii]
          · by_cases h2 : y + 1 = i
            · subst h2
              rw [if_pos rfl, if_pos hi, Mem.write_in (by omega) (by simp [ascii])]
              simp [ascii]
            · rw [if_neg h2, if_neg h1, Mem.write_out (by simp [ascii]; omega),
                ← List.getD_eq_getElem?_getD, Mem.getD_read _ hi]
    · cases h

/-- What a returning `write_piece` put into the file. -/
theorem writePiece_bytes {file : Option (List Byte)} {p len : CInt} {buffer : Mem}
    {size taken : Nat} {w : Written} (h : writePiece file p len buffer size taken = .ok w) :
    w.bytes = (newlined (buffer.read len.toNat)).take taken := by
  rw [writePiece] at h
  split at h
  · cases h
  · split at h
    · cases h
    · next hcat =>
      cases h
      rw [← read_strcat len.toNat hcat]

/-- What a returning `write_piece` did to the file. -/
theorem writePiece_ok {file : Option (List Byte)} {p len : CInt} {buffer : Mem} {size taken : Nat}
    {w : Written} (h : writePiece file p len buffer size taken = .ok w) :
    ∃ content, file = some content ∧ 0 ≤ (p * len).toInt ∧
      w.file = fileWrite content (p * len).toNat w.bytes := by
  cases file with
  | none => cases h
  | some content =>
      rw [writePiece, seekPiece] at h
      by_cases hneg : (p * len).toInt < 0
      · rw [if_pos hneg] at h
        cases h
      · rw [if_neg hneg] at h
        dsimp only at h
        split at h
        · cases h
        · cases h
          exact ⟨content, rfl, Int.not_lt.mp hneg, rfl⟩

/-- A piece that was read lies inside the file. -/
theorem readPiece_ok {file : Option (List Byte)} {p len : CInt} {fresh : Mem} {piece : PieceCopy}
    (h : readPiece file p len fresh = .ok piece) :
    ∃ content, file = some content ∧ 0 ≤ (p * len).toInt ∧
      len.toNat ≤ content.length - (p * len).toNat := by
  cases file with
  | none => cases h
  | some content =>
      rw [readPiece, seekPiece] at h
      by_cases hneg : (p * len).toInt < 0
      · rw [if_pos hneg] at h
        cases h
      · rw [if_neg hneg] at h
        dsimp only at h
        split at h
        · cases h
        next hwhole =>
        rw [fileRead, List.length_take, List.length_drop] at hwhole
        exact ⟨content, rfl, Int.not_lt.mp hneg, by omega⟩

end DubstepDucks.Torrent
