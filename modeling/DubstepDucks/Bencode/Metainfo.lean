import DubstepDucks.Bencode.Decode
import DubstepDucks.Bencode.Encode

/-!
# Bencode — the torrent file

`decodeFile` of `bencode.c`: the loop that fills a `bt_info_t` from the
tree, and the way back from the text `encodeFile` writes. The fields start
out as `malloc` left them; `num_pieces` and `piece_hashes` are computed when
their key is met, from whatever the fields hold at that point, so the result
depends on the order of the entries.

The round trip is two steps. `chars_torrentText` reads the assembled text as
the text of one bencoded value, provided none of the `strncat` calls cut its
source; the decoder's own theorem then gives the tree, and the loop over a
known tree is an evaluation.
-/

namespace DubstepDucks.Bencode

open CMem
open Torrent (Digest Stop)

/-! ## Filling the record -/

/-- `bt_info_t`; the character arrays are the strings they hold. -/
structure BtInfo where
  announce : List Byte
  name : List Byte
  pieceLength : CInt
  length : CInt
  numPieces : CInt
  pieceHashes : List Digest

/-- What the tree's memory holds beyond the tree: the bytes behind a string's
block, and what the union of a node reads as through a member other than the
one it was built with. -/
structure Heap where
  behind : Mem
  strOf : Node → Option (List Byte)
  intOf : Node → Int
  dictOf : Node → Option (List Entry)

/-- `node->val.s`. -/
def Heap.valS (heap : Heap) : Node → Option (List Byte)
  | .str s => s
  | node => heap.strOf node

/-- `node->val.i`. -/
def Heap.valI (heap : Heap) : Node → Int
  | .int i => i
  | node => heap.intOf node

/-- The entries `node->val.d` points to; `none` for a pointer to none. -/
def Heap.valD (heap : Heap) : Node → Option (List Entry)
  | .dict d => some d
  | node => heap.dictOf node

/-- `memcpy(piece_hashes[k], val.s + 20*k, 20)` out of the block of `s`. -/
def pieceHash (s : List Byte) (behind : Mem) (k : Nat) : Digest :=
  ⟨((Mem.of (s ++ [0]) behind).advance (20 * k)).read 20, by simp⟩

/-- `strcmp(key, name) == 0`. -/
def keyIs (key : List Byte) (name : String) : Bool := strcmpChars (cstr key) (ascii name) = 0

/-- `num_pieces` from the two lengths; the division traps on zero and on the
one quotient that does not fit. -/
def countPieces (length pieceLength : CInt) : Except Stop CInt :=
  if pieceLength = 0 ∨ (length = BitVec.intMin 32 ∧ pieceLength = -1) then .error .fault
  else if 0 < (length.srem pieceLength).toInt then .ok (length.sdiv pieceLength + 1)
  else .ok (length.sdiv pieceLength)

/-- The body of the inner loop for one entry of the info dictionary. -/
def fillInfoEntry (heap : Heap) (key : List Byte) (node : Node) (out : BtInfo) :
    Except Stop BtInfo :=
  if keyIs key "name" then
    match heap.valS node with
    | none => .error .fault
    | some s => .ok { out with name := cstr s }
  else if keyIs key "length" then
    .ok { out with length := BitVec.ofInt 32 (heap.valI node) }
  else if keyIs key "piece length" then
    let pieceLength : CInt := BitVec.ofInt 32 (heap.valI node)
    match countPieces out.length pieceLength with
    | .error stop => .error stop
    | .ok numPieces => .ok { out with pieceLength := pieceLength, numPieces := numPieces }
  else if keyIs key "pieces" then
    match heap.valS node with
    | none => .error .fault
    | some s =>
        let count := out.numPieces.toInt.toNat
        -- the int product 20*k overflows for the last k
        if 2 ^ 31 + 20 ≤ 20 * count then .error .fault
        else .ok { out with pieceHashes := (List.range count).map (pieceHash s heap.behind) }
  else .ok out

/-- A loop over a dictionary: it stops at the first NULL value, and `strcmp`
faults on a NULL key. -/
def forEntries {σ : Type} (body : List Byte → Node → σ → Except Stop σ) :
    List Entry → σ → Except Stop σ
  | [], out => .ok out
  | (_, none) :: _, out => .ok out
  | (none, some _) :: _, _ => .error .fault
  | (some key, some node) :: entries, out =>
      match body key node out with
      | .error stop => .error stop
      | .ok out => forEntries body entries out

/-- The body of the outer loop. -/
def fillEntry (heap : Heap) (key : List Byte) (node : Node) (out : BtInfo) :
    Except Stop BtInfo :=
  if keyIs key "announce" then
    match heap.valS node with
    | none => .error .fault
    | some s => .ok { out with announce := cstr s }
  else if keyIs key "info" then
    match heap.valD node with
    | none => .error .fault
    | some entries => forEntries (fillInfoEntry heap) entries out
  else .ok out

/-- The fill loop of `decodeFile` on the tree `node`; `out` is what `malloc`
returned. -/
def fillLoop (heap : Heap) (node : Option Node) (out : BtInfo) : Except Stop BtInfo :=
  match node with
  | none => .error .fault
  | some node =>
      match heap.valD node with
      | none => .error .fault
      | some entries => forEntries (fillEntry heap) entries out

/-- `decodeFile` on a torrent file of the given content, `behind` lying in
memory behind the block it is read into. -/
def decodeFile (fuel : Nat) (file behind : List Byte) (heap : Heap) (out : BtInfo) :
    Option (Except Stop BtInfo) :=
  match beDecoden fuel (file ++ behind) file.length with
  | none => none
  | some (node, _) => some (fillLoop heap node out)

/-! ## The assembled text -/

/-- The value an info dictionary stands for. -/
def infoValue (filename : List Byte) (length : Nat) (pieces : List Byte) : Value :=
  .dict [(ascii "length", .int length), (ascii "name", .str filename),
    (ascii "piece length", .int 256), (ascii "pieces", .str pieces)]

/-- The value a torrent file stands for. -/
def torrentValue (address : List Byte) (info : Value) : Value :=
  .dict [(ascii "announce", .str address), (ascii "info", info)]

/-- A part of a text below the bound is below it itself. -/
theorem length_part_lt {dst : CString} {srcs : List CString} {n : Nat}
    (h : (dst.strncats srcs n).chars.length < n) {s : CString} (hs : s ∈ srcs) :
    s.chars.length < n := by
  have hpart :=
    (List.sublist_flatten_of_mem (List.mem_map_of_mem (f := CString.chars) hs)).length_le
  rw [CString.chars_strncats srcs dst h, List.length_append] at h
  omega

theorem chars_encodeString {input : CString} (h : (encodeString input).chars.length < buffSize) :
    (encodeString input).chars = strText input.chars := by
  rw [encodeString, CString.chars_strncats _ _ h]
  simp [sizeString, strText, ascii]

theorem chars_encodeInt {n : CInt} (h : (encodeInt n).chars.length < buffSize) :
    (encodeInt n).chars = intText n.toInt := by
  rw [encodeInt, CString.chars_strncats _ _ h]
  simp [intString, intText, ascii]

theorem chars_infoText {filename pieceShas : CString} {length : Nat} (hlength : length < 2 ^ 31)
    (h : (infoText filename length pieceShas).chars.length < buffSize) :
    (infoText filename length pieceShas).chars
      = (infoValue filename.chars length pieceShas.chars).text := by
  have hpart : ∀ s ∈ [encodeString (literal "length"), encodeInt (BitVec.ofNat 32 length),
      encodeString (literal "name"), encodeString filename,
      encodeString (literal "piece length"), encodeInt (BitVec.ofNat 32 pieceLength),
      encodeString (literal "pieces"), encodeString pieceShas, literal "e"],
      s.chars.length < buffSize := fun s hs => length_part_lt h hs
  simp only [List.mem_cons, List.not_mem_nil, or_false, forall_eq_or_imp, forall_eq] at hpart
  obtain ⟨h1, h2, h3, h4, h5, h6, h7, h8, -⟩ := hpart
  have hpieceLength : (BitVec.ofNat 32 pieceLength).toInt = 256 := by decide
  rw [infoText, CString.chars_strncats _ _ h]
  simp only [List.map_cons, List.map_nil, chars_encodeString h1, chars_encodeInt h2,
    chars_encodeString h3, chars_encodeString h4, chars_encodeString h5, chars_encodeInt h6,
    chars_encodeString h7, chars_encodeString h8, toInt_ofNat hlength, hpieceLength,
    infoValue, Value.text, dictText, chars_literal, List.flatten_cons, List.flatten_nil]
  simp [ascii]

theorem chars_torrentText {address info : CString}
    (h : (torrentText address info).chars.length < buffSize) {v : Value}
    (hinfo : info.chars = v.text) :
    (torrentText address info).chars = (torrentValue address.chars v).text := by
  have hpart : ∀ s ∈ [encodeString (literal "announce"), encodeString address,
      encodeString (literal "info"), info], s.chars.length < buffSize :=
    fun s hs => length_part_lt h (List.mem_append_left _ hs)
  simp only [List.mem_cons, List.not_mem_nil, or_false, forall_eq_or_imp, forall_eq] at hpart
  obtain ⟨h1, h2, h3, -⟩ := hpart
  rw [torrentText, CString.chars_strncats _ _ h]
  simp only [List.map_cons, List.map_nil, List.cons_append, List.nil_append,
    chars_encodeString h1, chars_encodeString h2, chars_encodeString h3, hinfo, torrentValue,
    Value.text, dictText, chars_literal, List.flatten_cons, List.flatten_nil]
  simp [ascii]

/-! ## The way back -/

/-- The number of pieces is the quotient rounded up. -/
theorem countPieces_of_lt {length : Nat} (h : length < 2 ^ 31) :
    countPieces (BitVec.ofNat 32 length) 256 = .ok (BitVec.ofNat 32 ((length + 255) / 256)) := by
  have hmsb : (BitVec.ofNat 32 length).msb = false := by
    rw [BitVec.msb_eq_decide]
    simp
    omega
  have hmsb' : (256 : CInt).msb = false := by decide
  have hdiv : (BitVec.ofNat 32 length).sdiv 256 = BitVec.ofNat 32 (length / 256) := by
    apply BitVec.eq_of_toNat_eq
    rw [BitVec.sdiv_eq, hmsb, hmsb']
    simp
    omega
  have hrem : ((BitVec.ofNat 32 length).srem 256).toInt = (length % 256 : Nat) := by
    rw [BitVec.srem_eq, hmsb, hmsb']
    have hmod : BitVec.ofNat 32 length % 256 = BitVec.ofNat 32 (length % 256) := by
      apply BitVec.eq_of_toNat_eq
      simp
      omega
    simp only [hmod]
    exact toInt_ofNat (by omega)
  have htraps : ¬((256 : CInt) = 0 ∨
      BitVec.ofNat 32 length = BitVec.intMin 32 ∧ (256 : CInt) = -1) := by
    rintro (h0 | ⟨-, h0⟩) <;> exact absurd h0 (by decide)
  rw [countPieces, if_neg htraps, hrem, hdiv]
  split
  · have hceil : (length + 255) / 256 = length / 256 + 1 := by omega
    rw [hceil, BitVec.ofNat_add]
    rfl
  · have hceil : (length + 255) / 256 = length / 256 := by omega
    rw [hceil]

/-- The slices behind a prefix of whole slices. -/
theorem pieceHash_append {s : List Byte} {k : Nat} (hs : s.length = 20 * k) (t : List Byte)
    (behind : Mem) : pieceHash (s ++ t) behind k = pieceHash t behind 0 := by
  apply Subtype.ext
  show ((Mem.of (s ++ t ++ [0]) behind).advance (20 * k)).read 20
    = ((Mem.of (t ++ [0]) behind).advance (20 * 0)).read 20
  rw [List.append_assoc, Mem.of_append, ← hs, Mem.advance_of, Nat.mul_zero, Mem.advance_zero]

/-- The first slice of a string that is long enough. -/
theorem pieceHash_zero {s : List Byte} (h : 20 ≤ s.length) (behind : Mem) :
    (pieceHash s behind 0).1 = s.take 20 := by
  show ((Mem.of (s ++ [0]) behind).advance (20 * 0)).read 20 = s.take 20
  rw [Nat.mul_zero, Mem.advance_zero, Mem.read_of_le (by simp; omega),
    List.take_append_of_le_length h]

/-- A slice inside the string is a slice of the string. -/
theorem pieceHash_val {s : List Byte} {k : Nat} (h : 20 * k + 20 ≤ s.length) (behind : Mem) :
    (pieceHash s behind k).1 = (s.drop (20 * k)).take 20 := by
  have hlen : (s.take (20 * k)).length = 20 * k := by
    rw [List.length_take]
    omega
  conv => lhs; rw [← List.take_append_drop (20 * k) s]
  rw [pieceHash_append hlen, pieceHash_zero (by rw [List.length_drop]; omega)]

/-- Below the buffers' size every length fits a `long long`. -/
theorem readable_torrentValue {address filename pieces : List Byte} {length : Nat}
    (hlength : length < 2 ^ 31)
    (h : (torrentValue address (infoValue filename length pieces)).text.length < buffSize) :
    (torrentValue address (infoValue filename length pieces)).Readable := by
  simp only [torrentValue, infoValue, Value.text, dictText, length_strText, List.length_cons,
    List.length_append, buffSize] at h
  have hkey : ∀ s : List Byte, s.length ≤ 10000 → (s.length : Int) ≤ llongMax := by
    intro s hs
    rw [llongMax]
    omega
  simp only [torrentValue, infoValue, Value.Readable, ReadableDict, ne_eq, reduceCtorEq,
    not_false_eq_true, true_and, and_true]
  refine ⟨hkey _ (by decide), hkey _ (by omega), hkey _ (by decide), hkey _ (by decide),
    ⟨?_, ?_⟩, hkey _ (by decide), hkey _ (by omega), hkey _ (by decide), ⟨?_, ?_⟩,
    hkey _ (by decide), hkey _ (by omega)⟩ <;> simp only [llongMin, llongMax] <;> omega

/-- The assembled text is decoded whole. -/
theorem beDecoden_torrentText {address filename pieces : CString} {length : Nat}
    (hlength : length < 2 ^ 31)
    (hsize : (torrentText address (infoText filename length pieces)).chars.length < buffSize)
    (behind : List Byte) {fuel : Nat}
    (hfuel : (torrentText address (infoText filename length pieces)).chars.length ≤ fuel) :
    beDecoden fuel ((torrentText address (infoText filename length pieces)).chars ++ behind)
        (torrentText address (infoText filename length pieces)).chars.length
      = some (some (torrentValue address.chars
          (infoValue filename.chars length pieces.chars)).node, ⟨behind, 0⟩) := by
  have hinfo : (infoText filename length pieces).chars.length < buffSize :=
    length_part_lt hsize (by simp)
  have htext := chars_torrentText hsize (chars_infoText hlength hinfo)
  rw [htext] at hsize hfuel ⊢
  rw [beDecoden, beDecode_text _ (readable_torrentValue hlength hsize) fuel behind _ hfuel
    (Int.le_refl _), Int.sub_self]

/-! The entries `infoDict` writes, one by one. -/

theorem forEntries_cons {σ : Type} {body : List Byte → Node → σ → Except Stop σ} {key : List Byte}
    {node : Node} {out out' : σ} (h : body key node out = .ok out') (entries : List Entry) :
    forEntries body ((some key, some node) :: entries) out = forEntries body entries out' := by
  rw [forEntries, h]

theorem fillInfoEntry_length (heap : Heap) (length : Nat) (out : BtInfo) :
    fillInfoEntry heap (ascii "length") (.int length) out
      = .ok { out with length := BitVec.ofNat 32 length } := by
  rw [fillInfoEntry, if_neg (by decide), if_pos (by decide), Heap.valI, BitVec.ofInt_natCast]

theorem fillInfoEntry_name (heap : Heap) (name : CString) (out : BtInfo) :
    fillInfoEntry heap (ascii "name") (.str (some name.chars)) out
      = .ok { out with name := name.chars } := by
  rw [fillInfoEntry, if_pos (by decide)]
  simp only [Heap.valS, cstr_of_nulFree name.nulFree]

theorem fillInfoEntry_pieceLength (heap : Heap) {out : BtInfo} {length : Nat}
    (hlength : length < 2 ^ 31) (hout : out.length = BitVec.ofNat 32 length) :
    fillInfoEntry heap (ascii "piece length") (.int 256) out
      = .ok { out with
          pieceLength := 256
          numPieces := BitVec.ofNat 32 ((length + 255) / 256) } := by
  have hint : BitVec.ofInt 32 256 = (256 : CInt) := by decide
  rw [fillInfoEntry, if_neg (by decide), if_neg (by decide), if_pos (by decide)]
  simp only [Heap.valI, hint, hout, countPieces_of_lt hlength]

theorem fillInfoEntry_pieces (heap : Heap) (pieces : List Byte) {out : BtInfo} {count : Nat}
    (hcount : count ≤ 2 ^ 23) (hout : out.numPieces = BitVec.ofNat 32 count) :
    fillInfoEntry heap (ascii "pieces") (.str (some pieces)) out
      = .ok { out with pieceHashes := (List.range count).map (pieceHash pieces heap.behind) } := by
  rw [fillInfoEntry, if_neg (by decide), if_neg (by decide), if_neg (by decide),
    if_pos (by decide)]
  simp only [Heap.valS, hout, toInt_ofNat (show count < 2 ^ 31 by omega), Int.toNat_natCast]
  rw [if_neg (by omega)]

/-- The record of a torrent file with these entries. -/
def torrentInfo (address filename pieces : List Byte) (length : Nat) (behind : Mem) : BtInfo where
  announce := address
  name := filename
  pieceLength := 256
  length := BitVec.ofNat 32 length
  numPieces := BitVec.ofNat 32 ((length + 255) / 256)
  pieceHashes := (List.range ((length + 255) / 256)).map (pieceHash pieces behind)

/-- The loop over the tree of a torrent file: the length is known when the
piece length comes, and the number of pieces when the hashes do. -/
theorem fillLoop_torrentValue (address filename : CString) (pieces : List Byte) {length : Nat}
    (hlength : length < 2 ^ 31) (heap : Heap) (out : BtInfo) :
    fillLoop heap
        (some (torrentValue address.chars (infoValue filename.chars length pieces)).node) out
      = .ok (torrentInfo address.chars filename.chars pieces length heap.behind) := by
  have hannounce : fillEntry heap (ascii "announce") (.str (some address.chars)) out
      = .ok { out with announce := address.chars } := by
    rw [fillEntry, if_pos (by decide)]
    simp only [Heap.valS, cstr_of_nulFree address.nulFree]
  simp only [torrentValue, infoValue, Value.node, dictEntries, fillLoop, Heap.valD]
  rw [forEntries_cons hannounce, forEntries, fillEntry, if_neg (by decide), if_pos (by decide)]
  simp only [Heap.valD]
  rw [forEntries_cons (fillInfoEntry_length heap length _),
    forEntries_cons (fillInfoEntry_name heap filename _),
    forEntries_cons (fillInfoEntry_pieceLength heap hlength rfl),
    forEntries_cons (fillInfoEntry_pieces heap pieces (by omega) rfl)]
  rfl

theorem decodeFile_torrentText {address filename pieces : CString} {length : Nat}
    (hlength : length < 2 ^ 31)
    (hsize : (torrentText address (infoText filename length pieces)).chars.length < buffSize)
    (behind : List Byte) {fuel : Nat}
    (hfuel : (torrentText address (infoText filename length pieces)).chars.length ≤ fuel)
    (heap : Heap) (out : BtInfo) :
    decodeFile fuel (torrentText address (infoText filename length pieces)).chars behind heap out
      = some (.ok (torrentInfo address.chars filename.chars pieces.chars length heap.behind)) := by
  rw [decodeFile, beDecoden_torrentText hlength hsize behind hfuel]
  exact congrArg some (fillLoop_torrentValue address filename pieces.chars hlength heap out)

/-- **What `encodeFile` writes, `decodeFile` reads.** For every tracker
address, file name, file length and piece hashes, the assembled text is
decoded whole to a dictionary of two entries, and the loop over that tree
fills in what the text was assembled from. -/
theorem metainfo_round_trip (address filename pieces : CString) (length : Nat)
    (hlength : length < 2 ^ 31) (hpieces : 20 * ((length + 255) / 256) ≤ pieces.chars.length)
    (hsize : (torrentText address (infoText filename length pieces)).chars.length < buffSize)
    (behind : List Byte) (fuel : Nat)
    (hfuel : (torrentText address (infoText filename length pieces)).chars.length ≤ fuel)
    (heap : Heap) (out : BtInfo) :
    let text := (torrentText address (infoText filename length pieces)).chars
    let tree := Node.dict
      [(some (ascii "announce"), some (.str (some address.chars))),
        (some (ascii "info"), some (.dict
          [(some (ascii "length"), some (.int length)),
            (some (ascii "name"), some (.str (some filename.chars))),
            (some (ascii "piece length"), some (.int 256)),
            (some (ascii "pieces"), some (.str (some pieces.chars)))]))]
    beDecoden fuel (text ++ behind) text.length = some (some tree, ⟨behind, 0⟩) ∧
    ∃ info, fillLoop heap (some tree) out = .ok info ∧
      decodeFile fuel text behind heap out = some (.ok info) ∧
      info.announce = address.chars ∧ info.name = filename.chars ∧
      info.length.toInt = length ∧ info.pieceLength.toInt = 256 ∧
      info.numPieces.toInt = ((length + 255) / 256 : Nat) ∧
      info.pieceHashes.map Subtype.val = (List.range ((length + 255) / 256)).map
        (fun k => (pieces.chars.drop (20 * k)).take 20) := by
  intro text tree
  have htree : tree
      = (torrentValue address.chars (infoValue filename.chars length pieces.chars)).node := by
    simp only [tree, torrentValue, infoValue, Value.node, dictEntries]
  have hdec := beDecoden_torrentText hlength hsize behind hfuel
  have hfill := fillLoop_torrentValue address filename pieces.chars hlength heap out
  rw [← htree] at hdec hfill
  refine ⟨hdec, _, hfill, decodeFile_torrentText hlength hsize behind hfuel heap out, rfl, rfl,
    toInt_ofNat hlength, rfl, toInt_ofNat (by omega), ?_⟩
  rw [torrentInfo, List.map_map]
  apply List.map_congr_left
  intro k hk
  have := List.mem_range.mp hk
  exact pieceHash_val (by omega) heap.behind

theorem metainfo_round_trip_small :
    ∃ info, decodeFile 200 (torrentText (literal "10.0.0.1")
        (infoText (literal "d1:e") 257 (literal "0123456789abcdefghij9876543210jihgfedcba"))).chars
        [] ⟨fun _ => 0, fun _ => none, fun _ => 0, fun _ => none⟩ ⟨[], [], 0, 0, 0, []⟩
      = some (.ok info) ∧ info.name = ascii "d1:e" ∧
      info.pieceHashes.map Subtype.val
        = [ascii "0123456789abcdefghij", ascii "9876543210jihgfedcba"] := by
  obtain ⟨-, info, -, hdec, -, hname, -, -, -, hhashes⟩ := metainfo_round_trip
    (literal "10.0.0.1") (literal "d1:e") (literal "0123456789abcdefghij9876543210jihgfedcba") 257
    (by decide) (by decide) (by decide +kernel) [] 200 (by decide +kernel)
    ⟨fun _ => 0, fun _ => none, fun _ => 0, fun _ => none⟩ ⟨[], [], 0, 0, 0, []⟩
  exact ⟨info, hdec, hname, hhashes.trans (by decide)⟩

end DubstepDucks.Bencode
