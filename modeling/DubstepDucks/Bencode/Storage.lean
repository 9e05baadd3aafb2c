import DubstepDucks.Bencode.PieceCount
import DubstepDucks.CMem.Storage

/-!
# Bencode — what the encoder's arrays hold

The strings of `encode.c` in the arrays the code gives them. `encodeString`
answers with a block of 80 bytes, `encodeFile` copies each of four strings
into a row of 80, the last of them the whole info dictionary, and
`output[100]` takes the name of the torrent file; the other arrays have
`BUFFSIZE` bytes, and `BUFFSIZE` is also the bound of every `strncat`, so the
bound is never the room that is left.

`assemblies` lists them in the order of a run. Nothing in `encode.c` looks at
a length, so no run reports an error, and a run that stays within its arrays
is the run of the model without arrays (`encodeFile_of_within`). The narrow
place is the row for the info dictionary: 48 bytes of it are keys and
punctuation, and 31 are left for a file name, a length and the digests.
-/

namespace DubstepDucks.Bencode

open CMem
open Torrent (Digest)

/-! ## The arrays -/

/-- A literal of the source; as every C string it ends at its first NUL. -/
def quoted (s : String) : CString := ⟨cstr (ascii s), nul_notMem_cstr _⟩

/-- The block `encodeString` returns. -/
def stringAssembly (input : CString) : Assembly :=
  ⟨sizeString input.chars.length, [quoted ":", input], 80⟩

/-- `num` of `encodeInt`. -/
def numAssembly (input : CInt) : Assembly := ⟨intString input, [], 80⟩

/-- `ans` of `encodeInt`. -/
def intAssembly (input : CInt) : Assembly := ⟨quoted "i", [intString input, quoted "e"], 80⟩

/-- `pieceSHAs` of `infoDict`. -/
def shasAssembly (sha1 : List Byte → Digest) (stack : Stack) (file : List Byte) : Assembly :=
  ⟨.empty, appendedShas sha1 stack 0 stack.buffer file, buffSize⟩

/-- `ans` of `infoDict`. -/
def infoAssembly (filename : CString) (length : Nat) (pieceShas : CString) : Assembly :=
  ⟨quoted "d",
    [encodeString (quoted "length"), encodeInt (BitVec.ofNat 32 length),
      encodeString (quoted "name"), encodeString filename,
      encodeString (quoted "piece length"), encodeInt (BitVec.ofNat 32 pieceLength),
      encodeString (quoted "pieces"), encodeString pieceShas, quoted "e"], buffSize⟩

/-- `output` of `encodeFile`. -/
def outputAssembly (target : CString) : Assembly := ⟨target, [quoted ".torrent"], 100⟩

/-- A row of `dict`, after the `strcpy`. -/
def rowAssembly (s : CString) : Assembly := ⟨s, [], 80⟩

/-- `finalAns` of `encodeFile`. -/
def finalAssembly (address info : CString) : Assembly :=
  ⟨quoted "d", [encodeString (quoted "announce"), encodeString address,
    encodeString (quoted "info"), info, quoted "e"], buffSize⟩

/-- The info dictionary around the collected digests, arrays apart. -/
def infoOf (sha1 : List Byte → Digest) (stack : Stack) (target : CString) (file : List Byte) :
    CString :=
  infoText target file.length ((shasAssembly sha1 stack file).result buffSize)

/-- What `infoDict` builds. -/
def infoAssemblies (sha1 : List Byte → Digest) (stack : Stack) (target : CString)
    (file : List Byte) : List Assembly :=
  let pieceShas := (shasAssembly sha1 stack file).result buffSize
  [stringAssembly (quoted "length"), numAssembly (BitVec.ofNat 32 file.length),
    intAssembly (BitVec.ofNat 32 file.length), stringAssembly (quoted "name"),
    stringAssembly target, stringAssembly (quoted "piece length"),
    numAssembly (BitVec.ofNat 32 pieceLength), intAssembly (BitVec.ofNat 32 pieceLength),
    stringAssembly (quoted "pieces"), shasAssembly sha1 stack file, stringAssembly pieceShas,
    infoAssembly target file.length pieceShas]

/-- What `encodeFile` builds. -/
def assemblies (sha1 : List Byte → Digest) (stack : Stack) (target address : CString)
    (file : List Byte) : List Assembly :=
  let info := infoOf sha1 stack target file
  [outputAssembly target, stringAssembly (quoted "announce"),
    rowAssembly (encodeString (quoted "announce")), stringAssembly address,
    rowAssembly (encodeString address), stringAssembly (quoted "info"),
    rowAssembly (encodeString (quoted "info"))] ++
  infoAssemblies sha1 stack target file ++ [rowAssembly info, finalAssembly address info]

/-- Every string of the run fits its array, and no `strncat` drops a
suffix. -/
def WithinStorage (sha1 : List Byte → Digest) (stack : Stack) (target address : CString)
    (file : List Byte) : Prop :=
  ∀ a ∈ assemblies sha1 stack target address file, a.Safe buffSize

/-! ## The run without arrays -/

/-- Where every stage fits, appending never stops. -/
theorem foldlM_appendSha : ∀ (shas : List CString) (first : CString),
    (∀ s ∈ shas.scanl (fun dst src => dst.strncat src buffSize) first,
      s.chars.length + 1 ≤ buffSize) →
    shas.foldlM appendSha first = some (first.strncats shas buffSize) := by
  intro shas
  induction shas with
  | nil =>
      intro first _
      rfl
  | cons sha shas ih =>
      intro first h
      rw [List.scanl_cons] at h
      have hrest := fun s hs => h s (List.mem_cons_of_mem _ hs)
      have hnext : (first.strncat sha buffSize).chars.length < buffSize := by
        refine hrest _ ?_
        cases shas with
        | nil => exact List.mem_singleton.mpr rfl
        | cons sha' shas => exact List.scanl_cons ▸ List.mem_cons_self ..
      have happend : appendSha first sha = some (first.strncat sha buffSize) := by
        rw [appendSha, if_pos hnext]
      rw [List.foldlM_cons, happend]
      exact ih _ hrest

section Run

variable {sha1 : List Byte → Digest} {stack : Stack} {target address : CString}
  {file : List Byte}

theorem pieceShasOf_of_safe (h : (shasAssembly sha1 stack file).Safe buffSize) :
    pieceShasOf sha1 stack file = some ((shasAssembly sha1 stack file).result buffSize) := by
  rw [pieceShasOf, hashLoop_eq_foldlM]
  exact foldlM_appendSha _ _ h.fits

/-- A run that stays within its arrays leaves what `encodeFile` writes. -/
theorem encodeFile_of_within (h : WithinStorage sha1 stack target address file) :
    encodeFile sha1 stack target address file
      = some ((finalAssembly address (infoOf sha1 stack target file)).result buffSize) := by
  have hshas : (shasAssembly sha1 stack file).Safe buffSize :=
    h _ (by simp [assemblies, infoAssemblies])
  rw [encodeFile, infoDict, pieceShasOf_of_safe hshas]
  rfl

end Run

/-! ## How long the strings are -/

section Lengths

variable (sha1 : List Byte → Digest) (stack : Stack) (file : List Byte)

/-- The digests of a run, step by step. -/
theorem appendedShas_eq_map : ∀ (rest step : Nat) (buffer : Buffer),
    step + rest = file.length / 256 →
    fread buffer (file.drop (pieceLength * step)) = bufferAt stack file step →
    appendedShas sha1 stack step buffer (file.drop (pieceLength * step))
      = (List.range' step (rest + 1)).map (shaText sha1 stack file) := by
  intro rest
  induction rest with
  | zero =>
      intro step buffer hstep hbuffer
      have hlast : ((file.drop (pieceLength * step)).take pieceLength).length ≠ pieceLength := by
        simp only [List.length_take, List.length_drop, pieceLength]
        omega
      rw [appendedShas, dif_neg hlast, hbuffer]
      rfl
  | succ rest ih =>
      intro step buffer hstep hbuffer
      have hfull : ((file.drop (pieceLength * step)).take pieceLength).length = pieceLength := by
        simp only [List.length_take, List.length_drop, pieceLength]
        omega
      have hdrop : (file.drop (pieceLength * step)).drop pieceLength
          = file.drop (pieceLength * (step + 1)) := by
        rw [List.drop_drop, Nat.mul_succ]
      have hih := ih (step + 1) (bufferAt stack file step) (by omega) rfl
      rw [appendedShas, dif_pos hfull, hbuffer, hdrop, hih, List.range'_succ, List.map_cons]
      rfl

/-- How long the digests are together, each read as a string. -/
def digestsLength : Nat :=
  ((List.range (file.length / 256 + 1)).map fun k => (shaText sha1 stack file k).chars.length).sum

theorem total_shasAssembly :
    (shasAssembly sha1 stack file).total = digestsLength sha1 stack file := by
  have hshas : appendedShas sha1 stack 0 stack.buffer file
      = (List.range' 0 (file.length / 256 + 1)).map (shaText sha1 stack file) :=
    appendedShas_eq_map sha1 stack file (file.length / 256) 0 stack.buffer (Nat.zero_add _) rfl
  have hempty : CString.empty.chars.length = 0 := rfl
  rw [Assembly.total, shasAssembly, hshas, List.map_map, hempty, Nat.zero_add, digestsLength,
    List.range_eq_range']
  rfl

end Lengths

section Parts

/-- None of the arrays is larger than the bound of the calls. -/
theorem safe_iff_of_storage {a : Assembly} {n : Nat} (hn : a.storage = n) (hle : n ≤ buffSize) :
    a.Safe buffSize ↔ a.total < n := by
  subst hn
  exact Assembly.safe_iff hle

variable {input filename pieceShas address info : CString} {length : Nat}

theorem total_stringAssembly : (stringAssembly input).total
    = (decimal input.chars.length).length + 1 + input.chars.length := by
  have hcolon : (quoted ":").chars.length = 1 := rfl
  simp only [stringAssembly, Assembly.total, sizeString, List.map_cons, List.map_nil,
    List.sum_cons, List.sum_nil, hcolon]
  omega

theorem safe_string_iff : (stringAssembly input).Safe buffSize ↔
    (decimal input.chars.length).length + input.chars.length ≤ 78 := by
  have hstorage : (stringAssembly input).storage = 80 := rfl
  rw [safe_iff_of_storage hstorage (by decide), total_stringAssembly]
  omega

theorem length_encodeString (h : (stringAssembly input).Safe buffSize) :
    (encodeString input).chars.length
      = (decimal input.chars.length).length + 1 + input.chars.length :=
  h.length_result.trans total_stringAssembly

theorem length_intString (hlength : length < 2 ^ 31) :
    (intString (BitVec.ofNat 32 length)).chars.length = (decimal length).length := by
  show (signedDecimal (BitVec.ofNat 32 length).toInt).length = _
  rw [toInt_ofNat hlength, signedDecimal, if_neg (by omega), Int.natAbs_natCast]

theorem safe_numAssembly (hlength : length < 2 ^ 31) :
    (numAssembly (BitVec.ofNat 32 length)).Safe buffSize := by
  have hstorage : (numAssembly (BitVec.ofNat 32 length)).storage = 80 := rfl
  have hdigits : (decimal length).length ≤ 10 := length_decimal_le (by decide) (by omega)
  rw [safe_iff_of_storage hstorage (by decide)]
  show (intString (BitVec.ofNat 32 length)).chars.length + 0 < 80
  rw [length_intString hlength]
  omega

theorem total_intAssembly (hlength : length < 2 ^ 31) :
    (intAssembly (BitVec.ofNat 32 length)).total = (decimal length).length + 2 := by
  show 1 + ((intString (BitVec.ofNat 32 length)).chars.length + (1 + 0)) = _
  rw [length_intString hlength]
  omega

theorem safe_intAssembly (hlength : length < 2 ^ 31) :
    (intAssembly (BitVec.ofNat 32 length)).Safe buffSize := by
  have hstorage : (intAssembly (BitVec.ofNat 32 length)).storage = 80 := rfl
  have hdigits : (decimal length).length ≤ 10 := length_decimal_le (by decide) (by omega)
  rw [safe_iff_of_storage hstorage (by decide), total_intAssembly hlength]
  omega

theorem length_encodeInt (hlength : length < 2 ^ 31) :
    (encodeInt (BitVec.ofNat 32 length)).chars.length = (decimal length).length + 2 :=
  (safe_intAssembly hlength).length_result.trans (total_intAssembly hlength)

/-- Keys and punctuation of an info dictionary take 46 bytes. -/
theorem total_infoAssembly (hlength : length < 2 ^ 31) :
    (infoAssembly filename length pieceShas).total = 46 + (decimal length).length
      + (encodeString filename).chars.length + (encodeString pieceShas).chars.length := by
  show 1 + (8 + ((encodeInt (BitVec.ofNat 32 length)).chars.length + (6 +
    ((encodeString filename).chars.length + (15 + (5 + (8 +
      ((encodeString pieceShas).chars.length + (1 + 0))))))))) = _
  rw [length_encodeInt hlength]
  omega

theorem total_finalAssembly : (finalAssembly address info).total
    = 18 + (encodeString address).chars.length + info.chars.length := by
  show 1 + (10 + ((encodeString address).chars.length + (6 + (info.chars.length + (1 + 0))))) = _
  omega

end Parts

/-! ## When a run stays within its arrays -/

section Within

variable {sha1 : List Byte → Digest} {stack : Stack} {target address : CString}
  {file : List Byte}

theorem safe_rowAssembly {s : CString} :
    (rowAssembly s).Safe buffSize ↔ s.chars.length < 80 := by
  have hstorage : (rowAssembly s).storage = 80 := rfl
  rw [safe_iff_of_storage hstorage (by decide)]
  exact Iff.rfl

theorem safe_outputAssembly :
    (outputAssembly target).Safe buffSize ↔ target.chars.length ≤ 91 := by
  have hstorage : (outputAssembly target).storage = 100 := rfl
  rw [safe_iff_of_storage hstorage (by decide)]
  show target.chars.length + (8 + 0) < 100 ↔ _
  omega

/-- The collected digests. -/
theorem length_collected (h : (shasAssembly sha1 stack file).Safe buffSize) :
    ((shasAssembly sha1 stack file).result buffSize).chars.length
      = digestsLength sha1 stack file :=
  h.length_result.trans (total_shasAssembly sha1 stack file)

theorem length_infoOf (hlength : file.length < 2 ^ 31)
    (hshas : (shasAssembly sha1 stack file).Safe buffSize)
    (hpieces : (stringAssembly ((shasAssembly sha1 stack file).result buffSize)).Safe buffSize)
    (htarget : (stringAssembly target).Safe buffSize)
    (hinfo : (infoAssembly target file.length
      ((shasAssembly sha1 stack file).result buffSize)).Safe buffSize) :
    (infoOf sha1 stack target file).chars.length = 48 + (decimal file.length).length
      + (decimal target.chars.length).length + target.chars.length
      + (decimal (digestsLength sha1 stack file)).length + digestsLength sha1 stack file := by
  have hlen : (infoOf sha1 stack target file).chars.length = _ :=
    hinfo.length_result.trans (total_infoAssembly hlength)
  rw [length_encodeString htarget, length_encodeString hpieces, length_collected hshas] at hlen
  omega

/-- What the row for the info dictionary leaves room for. -/
theorem room_of_within (hlength : file.length < 2 ^ 31)
    (h : WithinStorage sha1 stack target address file) :
    (decimal address.chars.length).length + address.chars.length ≤ 78 ∧
    (decimal file.length).length + (decimal target.chars.length).length + target.chars.length
      + (decimal (digestsLength sha1 stack file)).length + digestsLength sha1 stack file ≤ 31 := by
  have hmem : ∀ a ∈ assemblies sha1 stack target address file, a.Safe buffSize := h
  simp only [assemblies, infoAssemblies, List.forall_mem_append, List.forall_mem_cons] at hmem
  obtain ⟨⟨⟨-, -, -, haddress, -⟩, -, -, -, -, htarget, -, -, -, -, hshas, hpieces, hinfo, -⟩,
    hrow, -⟩ := hmem
  have hlen := length_infoOf hlength hshas hpieces htarget hinfo
  have hrow' := safe_rowAssembly.mp hrow
  exact ⟨safe_string_iff.mp haddress, by omega⟩

theorem within_of_room (hlength : file.length < 2 ^ 31)
    (haddress : (decimal address.chars.length).length + address.chars.length ≤ 78)
    (hroom : (decimal file.length).length + (decimal target.chars.length).length
      + target.chars.length + (decimal (digestsLength sha1 stack file)).length
      + digestsLength sha1 stack file ≤ 31) :
    WithinStorage sha1 stack target address file := by
  have hpieceLength : pieceLength < 2 ^ 31 := by decide
  have htarget : (stringAssembly target).Safe buffSize := safe_string_iff.mpr (by omega)
  have haddress' : (stringAssembly address).Safe buffSize := safe_string_iff.mpr haddress
  have haddressLen := length_encodeString haddress'
  have hshas : (shasAssembly sha1 stack file).Safe buffSize := by
    have hstorage : (shasAssembly sha1 stack file).storage = 10000 := rfl
    rw [safe_iff_of_storage hstorage (by decide), total_shasAssembly]
    omega
  have hcollected := length_collected hshas
  have hpieces : (stringAssembly ((shasAssembly sha1 stack file).result buffSize)).Safe buffSize :=
    safe_string_iff.mpr (by rw [hcollected]; omega)
  have hinfo : (infoAssembly target file.length
      ((shasAssembly sha1 stack file).result buffSize)).Safe buffSize := by
    have hstorage : (infoAssembly target file.length
      ((shasAssembly sha1 stack file).result buffSize)).storage = 10000 := rfl
    rw [safe_iff_of_storage hstorage (by decide), total_infoAssembly hlength,
      length_encodeString htarget, length_encodeString hpieces, hcollected]
    omega
  have hinfoLen := length_infoOf hlength hshas hpieces htarget hinfo
  have hfinal : (finalAssembly address (infoOf sha1 stack target file)).Safe buffSize := by
    have hstorage : (finalAssembly address (infoOf sha1 stack target file)).storage = 10000 := rfl
    rw [safe_iff_of_storage hstorage (by decide), total_finalAssembly, haddressLen, hinfoLen]
    omega
  have hkey : ∀ s : CString, (decimal s.chars.length).length + s.chars.length ≤ 78 →
      (stringAssembly s).Safe buffSize := fun s => safe_string_iff.mpr
  simp only [WithinStorage, assemblies, infoAssemblies, List.forall_mem_append,
    List.forall_mem_cons, List.not_mem_nil, false_implies, implies_true, and_true]
  exact ⟨⟨⟨safe_outputAssembly.mpr (by omega), hkey _ (by decide),
      safe_rowAssembly.mpr (by decide), haddress', safe_rowAssembly.mpr (by omega),
      hkey _ (by decide), safe_rowAssembly.mpr (by decide)⟩,
    hkey _ (by decide), safe_numAssembly hlength, safe_intAssembly hlength, hkey _ (by decide),
    htarget, hkey _ (by decide), safe_numAssembly hpieceLength, safe_intAssembly hpieceLength,
    hkey _ (by decide), hshas, hpieces, hinfo⟩, safe_rowAssembly.mpr (by omega), hfinal⟩

/-- The room for a tracker address, counted without its length. -/
theorem address_room {n : Nat} : (decimal n).length + n ≤ 78 ↔ n ≤ 76 := by
  constructor
  · intro h
    by_contra hlong
    have hpos := List.length_pos_of_ne_nil (decimal_ne_nil n)
    obtain rfl : n = 77 := by omega
    exact absurd h (by decide)
  · intro h
    have hdigits : (decimal n).length ≤ 2 := length_decimal_le (by decide) (by omega)
    omega

/-- **When the encoder stays within its arrays.** The address has at most 76
bytes, and the length of the file, the name with its length, and the digests
with theirs take at most the 31 bytes that a row has left for them. -/
theorem within_storage_iff (sha1 : List Byte → Digest) (stack : Stack) (target address : CString)
    (file : List Byte) (hlength : file.length < 2 ^ 31) :
    WithinStorage sha1 stack target address file ↔
      address.chars.length ≤ 76 ∧
      (decimal file.length).length + (decimal target.chars.length).length + target.chars.length
        + (decimal (digestsLength sha1 stack file)).length + digestsLength sha1 stack file
        ≤ 31 := by
  rw [← address_room]
  exact ⟨room_of_within hlength, fun h => within_of_room hlength h.1 h.2⟩

/-- The SHA-1 of no bytes. -/
def emptySha : Digest :=
  ⟨[0xda, 0x39, 0xa3, 0xee, 0x5e, 0x6b, 0x4b, 0x0d, 0x32, 0x55,
    0xbf, 0xef, 0x95, 0x60, 0x18, 0x90, 0xaf, 0xd8, 0x07, 0x09], rfl⟩

/-- A file of one piece with a short name: the row is full to its last
byte. -/
theorem within_storage_iff_piece : (List.replicate 100 (1 : Byte)).length < 2 ^ 31 ∧
    WithinStorage (fun _ => emptySha) nulStack (literal "a.txt") (literal "127.0.0.1")
      (List.replicate 100 1) :=
  ⟨by decide, (within_storage_iff (fun _ => emptySha) nulStack (literal "a.txt")
    (literal "127.0.0.1") (List.replicate 100 1) (by decide)).mpr ⟨by decide, by decide⟩⟩

/-- A name of 32 bytes is too long for the row, whatever is hashed. -/
theorem within_storage_long_name : ¬ ∃ (sha1 : List Byte → Digest) (stack : Stack),
    WithinStorage sha1 stack (literal "a-file-with-a-rather-long-n.text") (literal "127.0.0.1")
      (List.replicate 100 1) := by
  rintro ⟨sha1, stack, h⟩
  have hroom := (room_of_within (by decide) h).2
  have hname : (literal "a-file-with-a-rather-long-n.text").chars.length = 32 := rfl
  omega

end Within

end DubstepDucks.Bencode
