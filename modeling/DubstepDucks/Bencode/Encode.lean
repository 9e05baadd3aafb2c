import DubstepDucks.CMem.Numbers
import DubstepDucks.Torrent.FileConstructor

/-!
# Bencode — the encoder

`encode.c`: the strings `encodeString`, `encodeInt`, `infoDict` and
`encodeFile` assemble. C strings are values here: a string that is built in
a local array or a heap block is its characters, and the arrays' sizes do not
matter, with one exception — `pieceSHAs`, the only string that grows with
the file, stops the run when it outgrows its array.

`infoDict` hashes what `strlen` finds in its read buffer, not what `fread`
put there, and appends the digest as a string. Both walk on behind their
array when it holds no NUL, so what lies there is part of the input
(`Stack`).
-/

namespace DubstepDucks.Bencode

open CMem
open Torrent (Digest)

/-- `BUFFSIZE`. -/
def buffSize : Nat := 10000

/-- `PIECELENGTH`. -/
def pieceLength : Nat := 256

/-! ## Strings and numbers -/

/-- The text of `%zu`. -/
def sizeString (n : Nat) : CString := ⟨decimal n, notMem_decimal (by decide)⟩

/-- The text of `%d`. -/
def intString (n : CInt) : CString where
  chars := signedDecimal n.toInt
  nulFree := by
    rw [signedDecimal]
    split
    · simp only [List.mem_cons, not_or]
      exact ⟨by decide, notMem_decimal (by decide)⟩
    · exact notMem_decimal (by decide)

/-- `encodeString`. -/
def encodeString (input : CString) : CString :=
  (sizeString input.chars.length).strncats [literal ":", input] buffSize

/-- `encodeInt`; `%d` prints the low word of the pointer it is handed. -/
def encodeInt (input : CInt) : CString :=
  (literal "i").strncats [intString input, literal "e"] buffSize

/-! ## The piece hashes -/

/-- `char buffer[PIECELENGTH]`. -/
abbrev Buffer := { b : List Byte // b.length = pieceLength }

/-- What `infoDict` finds on the stack: the initial content of the read
buffer, and the strings that begin right behind `buffer` and right behind
`sha` when the buffer is hashed for the `step`-th time. -/
structure Stack where
  buffer : Buffer
  behindBuffer : Nat → CString
  behindSha : Nat → CString

/-- `fread(buffer, 1, PIECELENGTH, file)`: the bytes read replace the first
ones of the buffer. -/
def fread (buffer : Buffer) (file : List Byte) : Buffer where
  val := file.take pieceLength ++ buffer.1.drop (file.take pieceLength).length
  property := by
    have := buffer.2
    simp only [List.length_append, List.length_drop, List.length_take]
    omega

/-- The string at `buffer`. -/
def bufferString (buffer : Buffer) (behind : CString) : List Byte :=
  cstr (buffer.1 ++ behind.chars)

/-- The string at `sha`. -/
def shaString (sha : Digest) (behind : CString) : CString :=
  ⟨cstr (sha.1 ++ behind.chars), nul_notMem_cstr _⟩

/-- `strncat(pieceSHAs, sha, BUFFSIZE)`; `none` when it writes past
`pieceSHAs[BUFFSIZE]`. -/
def appendSha (pieceShas sha : CString) : Option CString :=
  if (pieceShas.strncat sha buffSize).chars.length < buffSize then
    some (pieceShas.strncat sha buffSize)
  else none

/-- Read, hash, append, and go on while a whole piece was read. The call
behind the source's loop hashes what the read that ended it left. -/
def hashLoop (sha1 : List Byte → Digest) (stack : Stack) (step : Nat) (buffer : Buffer)
    (file : List Byte) (pieceShas : CString) : Option CString :=
  let sha := sha1 (bufferString (fread buffer file) (stack.behindBuffer step))
  match appendSha pieceShas (shaString sha (stack.behindSha step)) with
  | none => none
  | some pieceShas =>
      if _h : (file.take pieceLength).length = pieceLength then
        hashLoop sha1 stack (step + 1) (fread buffer file) (file.drop pieceLength) pieceShas
      else some pieceShas
termination_by file.length
decreasing_by
  simp only [List.length_take, pieceLength] at _h
  simp only [List.length_drop, pieceLength]
  omega

/-- The string `pieceSHAs` once the whole file was hashed. -/
def pieceShasOf (sha1 : List Byte → Digest) (stack : Stack) (file : List Byte) : Option CString :=
  hashLoop sha1 stack 0 stack.buffer file .empty

/-! ## The dictionaries -/

/-- The string `infoDict` assembles around the length of the file (the `long`
of `ftell`) and the piece hashes. -/
def infoText (filename : CString) (length : Nat) (pieceShas : CString) : CString :=
  (literal "d").strncats
    [encodeString (literal "length"), encodeInt (BitVec.ofNat 32 length),
      encodeString (literal "name"), encodeString filename,
      encodeString (literal "piece length"), encodeInt (BitVec.ofNat 32 pieceLength),
      encodeString (literal "pieces"), encodeString pieceShas, literal "e"] buffSize

/-- `infoDict`. -/
def infoDict (sha1 : List Byte → Digest) (stack : Stack) (filename : CString)
    (file : List Byte) : Option CString :=
  (pieceShasOf sha1 stack file).map (infoText filename file.length)

/-- The string `encodeFile` writes, around the info dictionary. -/
def torrentText (address info : CString) : CString :=
  let dict := [encodeString (literal "announce"), encodeString address,
    encodeString (literal "info"), info]
  (literal "d").strncats (dict ++ [literal "e"]) buffSize

/-- `encodeFile`: the content of the torrent file. -/
def encodeFile (sha1 : List Byte → Digest) (stack : Stack) (target address : CString)
    (file : List Byte) : Option CString :=
  (infoDict sha1 stack target file).map (torrentText address)

end DubstepDucks.Bencode
