import DubstepDucks.Bencode.Metainfo

/-!
# Bencode — the block of the record

`decodeFile` asks `malloc` for 1000 bytes and uses them as a `bt_info_t`,
which has 2072: the name, the numbers and the pointer to the hashes lie behind
the block. The functions of the last module say what the loop makes of the
values; here its writes have their places too.

A `Vacancy` says which bytes behind the block are nobody's, while so many
hashes have blocks of their own. A write to another byte behind the block
destroys something, and a new block that comes to lie over the numbers
destroys them. Either is taken to end the run.
-/

namespace DubstepDucks.Bencode

open CMem
open Torrent (Stop)

/-! ## Places -/

/-- What `decodeFile` asks `malloc` for. -/
def recordBlock : Nat := 1000

/-- `sizeof(bt_info_t)`. -/
def recordSize : Nat := 2072

def nameOffset : Nat := 1024

def pieceLengthOffset : Nat := 2048

def lengthOffset : Nat := 2052

def numPiecesOffset : Nat := 2056

/-- With the blocks of `n` hashes allocated, `vacant n i` is whether byte `i`,
counted from the start of the record, is nobody's. -/
abbrev Vacancy := Nat → Nat → Bool

/-- The record can have `len` bytes from `off` on. -/
def Vacancy.Holds (vacant : Vacancy) (n off len : Nat) : Prop :=
  ∀ i < len, off + i < recordBlock ∨ vacant n (off + i) = true

instance (vacant : Vacancy) (n off len : Nat) : Decidable (vacant.Holds n off len) :=
  inferInstanceAs (Decidable (∀ i < len, _ ∨ _))

theorem Vacancy.Holds.mono {vacant : Vacancy} {n off len off' len' : Nat}
    (h : vacant.Holds n off len) (hoff : off ≤ off') (hlen : off' + len' ≤ off + len) :
    vacant.Holds n off' len' := by
  intro i hi
  have hin := h (off' - off + i) (by omega)
  rwa [show off + (off' - off + i) = off' + i by omega] at hin

theorem Vacancy.Holds.append {vacant : Vacancy} {n off len len' : Nat}
    (h : vacant.Holds n off len) (h' : vacant.Holds n (off + len) len') :
    vacant.Holds n off (len + len') := by
  intro i hi
  by_cases hlow : i < len
  · exact h i hlow
  · have hin := h' (i - len) (by omega)
    rwa [show off + len + (i - len) = off + i by omega] at hin

/-- There is room for a record with a name of `len` bytes, filled in while no
hash has a block, and for its numbers beside the blocks of `n` hashes. -/
structure Vacancy.Takes (vacant : Vacancy) (len n : Nat) : Prop where
  name : vacant.Holds 0 nameOffset (len + 1)
  numbers : vacant.Holds 0 pieceLengthOffset 12
  numbers_hashed : vacant.Holds n pieceLengthOffset (recordSize - pieceLengthOffset)

/-! ## The loop in its place -/

/-- The record, and how many hashes have blocks by now. -/
structure Filling where
  info : BtInfo
  blocks : Nat

/-- The bytes an entry of the info dictionary needs, as offsets and lengths.
With the blocks of the hashes the numbers have to stay what they are. -/
def infoExtents (heap : Heap) (key : List Byte) (node : Node) : List (Nat × Nat) :=
  if keyIs key "name" then
    match heap.valS node with
    | none => []
    | some s => [(nameOffset, (cstr s).length + 1)]
  else if keyIs key "length" then [(lengthOffset, 4)]
  else if keyIs key "piece length" then [(pieceLengthOffset, 4), (numPiecesOffset, 4)]
  else if keyIs key "pieces" then [(pieceLengthOffset, recordSize - pieceLengthOffset)]
  else []

/-- The body of the inner loop. -/
def placeInfoEntry (vacant : Vacancy) (heap : Heap) (key : List Byte) (node : Node) (s : Filling) :
    Except Stop Filling :=
  match fillInfoEntry heap key node s.info with
  | .error stop => .error stop
  | .ok info =>
      let blocks := if keyIs key "pieces" then info.pieceHashes.length else s.blocks
      if ∀ x ∈ infoExtents heap key node, vacant.Holds blocks x.1 x.2 then .ok ⟨info, blocks⟩
      else .error .fault

/-- The body of the outer loop. -/
def placeEntry (vacant : Vacancy) (heap : Heap) (key : List Byte) (node : Node) (s : Filling) :
    Except Stop Filling :=
  if keyIs key "announce" then
    match heap.valS node with
    | none => .error .fault
    | some announce =>
        if vacant.Holds s.blocks 0 ((cstr announce).length + 1) then
          .ok { s with info := { s.info with announce := cstr announce } }
        else .error .fault
  else if keyIs key "info" then
    match heap.valD node with
    | none => .error .fault
    | some entries => forEntries (placeInfoEntry vacant heap) entries s
  else .ok s

/-- The fill loop of `decodeFile`, in the block it fills. -/
def fillRecord (vacant : Vacancy) (heap : Heap) (node : Option Node) (out : BtInfo) :
    Except Stop BtInfo :=
  match node with
  | none => .error .fault
  | some node =>
      match heap.valD node with
      | none => .error .fault
      | some entries => (forEntries (placeEntry vacant heap) entries ⟨out, 0⟩).map Filling.info

/-- `decodeFile`, in the block it fills. -/
def decodeRecord (vacant : Vacancy) (fuel : Nat) (file behind : List Byte) (heap : Heap)
    (out : BtInfo) : Option (Except Stop BtInfo) :=
  match beDecoden fuel (file ++ behind) file.length with
  | none => none
  | some (node, _) => some (fillRecord vacant heap node out)

/-! ## Blocks directly behind the record -/

/-- What the allocator takes for a block of `n` bytes: a word in front, and all
of it a multiple of sixteen. -/
def chunkSize (n : Nat) : Nat := max 32 ((n + 8 + 15) / 16 * 16)

/-- The blocks of the hashes stand in a row behind that of the record: the
pointers first, then each hash. Behind the last of them stands one more word
of the allocator's own. -/
def stacked : Vacancy := fun n i =>
  decide (recordBlock + 8 + (if n = 0 then 0 else chunkSize (8 * n) + n * chunkSize 20) ≤ i)

/-- **Twenty-five pieces fit.** With the blocks in a row the numbers stay what
they are exactly up to that many hashes. -/
theorem stacked_holds_iff (n : Nat) :
    stacked.Holds n pieceLengthOffset (recordSize - pieceLengthOffset) ↔ n ≤ 25 := by
  have hrow : stacked.Holds n pieceLengthOffset (recordSize - pieceLengthOffset) ↔
      recordBlock + 8 + (if n = 0 then 0 else chunkSize (8 * n) + n * chunkSize 20) ≤ 2048 := by
    constructor
    · intro h
      rcases h 0 (by decide) with hblock | hfree
      · exact absurd hblock (by decide)
      · exact of_decide_eq_true hfree
    · intro h i _
      right
      exact decide_eq_true (by rw [pieceLengthOffset]; omega)
  rw [hrow, recordBlock]
  split
  · omega
  · have hhash : chunkSize 20 = 32 := rfl
    rw [hhash, chunkSize]
    omega

theorem stacked_takes {len n : Nat} (h : n ≤ 25) : stacked.Takes len n where
  name i _ := by
    right
    exact decide_eq_true (by rw [nameOffset, recordBlock, if_pos rfl]; omega)
  numbers i _ := by
    right
    exact decide_eq_true (by rw [pieceLengthOffset, recordBlock, if_pos rfl]; omega)
  numbers_hashed := (stacked_holds_iff n).mpr h

end DubstepDucks.Bencode
