import DubstepDucks.Bencode.Release

/-!
# Bencode — dumping a tree

`be_dump` on what the decoder built: a line for a string or an integer, and
for a container a line to open it, its items indented by one step more, and
a line to close it. The value of an entry stands behind its key, which
`_be_dump` is told with a negative indent.

The printer walks the tree the way `be_free` does. It reads the blocks of the
tree and no others, so its output is a function of the tree (`Node.dump`),
whatever has become of the rest of the heap; it is undefined where it comes
to a string or a key that is NULL (`beDump_decoded`).
-/

namespace DubstepDucks.Bencode

open CMem

/-! ## The functions -/

/-- `_be_dump_indent`; a negative indent is none. -/
def dumpIndent (indent : Int) : List Byte := (List.replicate indent.toNat (ascii "    ")).flatten

/-- The line of a string. -/
def strLine (text : List Byte) (len : Int) : List Byte :=
  ascii "str = " ++ text ++ ascii " (len = " ++ signedDecimal len ++ ascii ")\n"

/-- The line of an integer. -/
def intLine (i : Int) : List Byte := ascii "int = " ++ signedDecimal i ++ ascii "\n"

/-- A container around its items; the last line has the indent of the first
one, without its sign. -/
def listLines (indent : Int) (items : List Byte) : List Byte :=
  dumpIndent indent ++ ascii "list [\n" ++ items ++ dumpIndent indent.natAbs ++ ascii "]\n"

def dictLines (indent : Int) (items : List Byte) : List Byte :=
  dumpIndent indent ++ ascii "dict \x7b\n" ++ items ++ dumpIndent indent.natAbs ++ ascii "\x7d\n"

/-- An entry in front of its value. -/
def keyText (indent : Int) (text : List Byte) : List Byte :=
  dumpIndent indent ++ text ++ ascii " => "

/-- `%s` through a pointer. -/
def printStr (h : BeHeap) : Option Nat → Option (List Byte)
  | none => none
  | some s =>
      match h.get s with
      | some (.str _ bytes) => some (cstr bytes)
      | _ => none

mutual

/-- `_be_dump`. -/
def beDumpAt : Nat → BeHeap → Nat → Int → Option (List Byte)
  | 0, _, _, _ => none
  | fuel + 1, h, node, indent =>
      match record h node with
      | none => none
      | some (.str s) =>
          match printStr h s with
          | none => none
          | some text =>
              (beStrLen h node).map fun len => dumpIndent indent ++ strLine text len
      | some (.int i) => some (dumpIndent indent ++ intLine i)
      | some (.list _) => (dumpListLoop fuel h node (indent.natAbs + 1) 0).map (listLines indent)
      | some (.dict _) => (dumpDictLoop fuel h node (indent.natAbs + 1) 0).map (dictLines indent)

def dumpListLoop : Nat → BeHeap → Nat → Int → Nat → Option (List Byte)
  | 0, _, _, _, _ => none
  | fuel + 1, h, node, indent, i =>
      match getWord h node i with
      | none => none
      | some none => some []
      | some (some p) =>
          match beDumpAt fuel h p indent with
          | none => none
          | some item => (dumpListLoop fuel h node indent (i + 1)).map (item ++ ·)

def dumpDictLoop : Nat → BeHeap → Nat → Int → Nat → Option (List Byte)
  | 0, _, _, _, _ => none
  | fuel + 1, h, node, indent, i =>
      match getWord h node (2 * i + 1) with
      | none => none
      | some none => some []
      | some (some val) =>
          match getWord h node (2 * i) with
          | none => none
          | some key =>
              match printStr h key with
              | none => none
              | some text =>
                  match beDumpAt fuel h val (-indent) with
                  | none => none
                  | some item =>
                      (dumpDictLoop fuel h node indent (i + 1)).map
                        (keyText indent text ++ item ++ ·)

end

/-- `be_dump`. -/
def beDump (fuel : Nat) (h : BeHeap) (node : Nat) : Option (List Byte) := beDumpAt fuel h node 0

/-! ## The dump of a tree -/

mutual

/-- What stands on the lines of a tree. -/
def Node.dump : Node → Int → Option (List Byte)
  | .str s, indent => s.map fun s => dumpIndent indent ++ strLine (cstr s) s.length
  | .int i, indent => some (dumpIndent indent ++ intLine i)
  | .list l, indent => (listDump l (indent.natAbs + 1)).map (listLines indent)
  | .dict d, indent => (dictDump d (indent.natAbs + 1)).map (dictLines indent)

def listDump : List Node → Int → Option (List Byte)
  | [], _ => some []
  | node :: l, indent =>
      match node.dump indent with
      | none => none
      | some item => (listDump l indent).map (item ++ ·)

def dictDump : List Entry → Int → Option (List Byte)
  | [], _ => some []
  | (_, none) :: _, _ => some []
  | (none, some _) :: _, _ => none
  | (some key, some node) :: d, indent =>
      match node.dump (-indent) with
      | none => none
      | some item => (dictDump d indent).map (keyText indent (cstr key) ++ item ++ ·)

end

mutual

/-- No string or key up to the first NULL value is itself NULL. -/
def Node.printable : Node → Bool
  | .str s => s.isSome
  | .int _ => true
  | .list l => listPrintable l
  | .dict d => dictPrintable d

def listPrintable : List Node → Bool
  | [] => true
  | node :: l => node.printable && listPrintable l

def dictPrintable : List Entry → Bool
  | [] => true
  | (_, none) :: _ => true
  | (key, some node) :: d => key.isSome && node.printable && dictPrintable d

end

mutual

theorem Node.isSome_dump : ∀ (node : Node) (indent : Int),
    (node.dump indent).isSome = node.printable
  | .str s, _ => by rw [Node.dump, Option.isSome_map, Node.printable]
  | .int _, _ => rfl
  | .list l, _ => by rw [Node.dump, Option.isSome_map, isSome_listDump l, Node.printable]
  | .dict d, _ => by rw [Node.dump, Option.isSome_map, isSome_dictDump d, Node.printable]

theorem isSome_listDump : ∀ (l : List Node) (indent : Int),
    (listDump l indent).isSome = listPrintable l
  | [], _ => rfl
  | node :: l, indent => by
      have hnode := node.isSome_dump indent
      rw [listDump, listPrintable, ← hnode, ← isSome_listDump l indent]
      cases node.dump indent with
      | none => rfl
      | some item => simp

theorem isSome_dictDump : ∀ (d : List Entry) (indent : Int),
    (dictDump d indent).isSome = dictPrintable d
  | [], _ => rfl
  | (_, none) :: _, _ => by rw [dictDump, dictPrintable]; rfl
  | (none, some _) :: _, _ => by rw [dictDump, dictPrintable]; rfl
  | (some key, some node) :: d, indent => by
      have hnode := node.isSome_dump (-indent)
      rw [dictDump, dictPrintable, ← hnode, ← isSome_dictDump d indent]
      cases node.dump (-indent) with
      | none => rfl
      | some item => simp

end

mutual

/-- Every string of a value is there. -/
theorem Value.printable_node : ∀ v : Value, v.node.printable = true
  | .str _ => rfl
  | .int _ => rfl
  | .list vs => by rw [Value.node, Node.printable, printable_listNodes vs]
  | .dict es => by rw [Value.node, Node.printable, printable_dictEntries es]

theorem printable_listNodes : ∀ vs : List Value, listPrintable (listNodes vs) = true
  | [] => rfl
  | v :: vs => by
      rw [listNodes, listPrintable, v.printable_node, printable_listNodes vs, Bool.and_true]

theorem printable_dictEntries : ∀ es : List (List Byte × Value),
    dictPrintable (dictEntries es) = true
  | [] => rfl
  | (key, v) :: es => by
      rw [dictEntries, dictPrintable, v.printable_node, printable_dictEntries es]
      rfl

end

/-! ## The printer on a tree in memory -/

theorem HoldsStr.printStr {h : BeHeap} {p : Option Nat} {s : Option (List Byte)}
    {own : Finset Nat} (hold : HoldsStr h p s own) : Bencode.printStr h p = s.map cstr := by
  rcases p with _ | a <;> rcases s with _ | s
  · rfl
  · exact hold.elim
  · exact hold.elim
  · obtain ⟨ha, -⟩ := hold
    rw [Bencode.printStr, ha, Option.map_some]

/-- The length in front of a string is the string's. -/
theorem HoldsStr.beStrLen {h : BeHeap} {node a : Nat} {s : List Byte} {own : Finset Nat}
    (hnode : h.get node = some (.node (.str (some a)))) (hold : HoldsStr h (some a) (some s) own) :
    Bencode.beStrLen h node = some (s.length : Int) := by
  obtain ⟨ha, -⟩ := hold
  simp only [Bencode.beStrLen, record, hnode, ha]

-- by recursion on the tree, as for `be_free`
mutual

/-- The printer's output is the dump of the tree. -/
theorem Holds.beDumpAt {h : BeHeap} : ∀ {node : Node} {p : Nat} {own : Finset Nat} {fuel : Nat}
    (indent : Int), Holds h p node own → 2 * node.weight ≤ fuel →
    Bencode.beDumpAt fuel h p indent = node.dump indent
  | .str s, p, own, fuel, indent, hold, hfuel => by
      have hpos := (Node.str s).weight_pos
      obtain ⟨fuel, rfl⟩ : ∃ f, fuel = f + 1 := ⟨fuel - 1, by omega⟩
      rw [Holds] at hold
      obtain ⟨q, o, hp, hs, -, -⟩ := hold
      have hrecord : record h p = some (.str q) := by rw [record, hp]
      rw [Bencode.beDumpAt, hrecord, Node.dump]
      dsimp only
      rw [hs.printStr]
      rcases q with _ | a <;> rcases s with _ | s
      · rfl
      · exact hs.elim
      · exact hs.elim
      · rw [Option.map_some, Option.map_some]
        dsimp only
        rw [hs.beStrLen hp, Option.map_some]
  | .int i, p, own, fuel, indent, hold, hfuel => by
      have hpos := (Node.int i).weight_pos
      obtain ⟨fuel, rfl⟩ : ∃ f, fuel = f + 1 := ⟨fuel - 1, by omega⟩
      rw [Holds] at hold
      obtain ⟨hp, -⟩ := hold
      have hrecord : record h p = some (.int i) := by rw [record, hp]
      rw [Bencode.beDumpAt, hrecord, Node.dump]
  | .list l, p, own, fuel, indent, hold, hfuel => by
      rw [Node.weight] at hfuel
      obtain ⟨fuel, rfl⟩ : ∃ f, fuel = f + 1 := ⟨fuel - 1, by omega⟩
      rw [Holds] at hold
      obtain ⟨a, as, tail, o, hp, ha, hl, -, -, -⟩ := hold
      have hrecord : record h p = some (.list (some a)) := by rw [record, hp]
      have hless : 2 * listWeight l < fuel := by omega
      have hloop := @HoldsList.dumpListLoop h l p a [] as tail o fuel (indent.natAbs + 1) hp ha hl
        hless
      rw [List.length_nil] at hloop
      rw [Bencode.beDumpAt, hrecord, Node.dump, ← hloop]
  | .dict d, p, own, fuel, indent, hold, hfuel => by
      rw [Node.weight] at hfuel
      obtain ⟨fuel, rfl⟩ : ∃ f, fuel = f + 1 := ⟨fuel - 1, by omega⟩
      rw [Holds] at hold
      obtain ⟨a, ws, key, tail, o, hp, ha, hd, -, -, -⟩ := hold
      have hrecord : record h p = some (.dict (some a)) := by rw [record, hp]
      have hless : 2 * dictWeight d < fuel := by omega
      have hloop := @HoldsDict.dumpDictLoop h d p a [] ws key tail o fuel (indent.natAbs + 1) hp ha
        hd hless
      rw [List.length_nil] at hloop
      rw [Bencode.beDumpAt, hrecord, Node.dump, ← hloop]

theorem HoldsList.dumpListLoop {h : BeHeap} : ∀ {l : List Node} {p a : Nat} {done : List Word}
    {as : List Nat} {tail : List Word} {own : Finset Nat} {fuel : Nat} {indent : Int},
    h.get p = some (.node (.list (some a))) →
    h.get a = some (.array (done ++ (as.map (fun x => .ptr (some x)) ++ .ptr none :: tail))) →
    HoldsList h as l own → 2 * listWeight l < fuel →
    Bencode.dumpListLoop fuel h p indent done.length = listDump l indent
  | [], p, a, done, as, tail, own, fuel, indent, hp, ha, hl, hfuel => by
      obtain ⟨fuel, rfl⟩ : ∃ f, fuel = f + 1 := ⟨fuel - 1, by omega⟩
      cases as with
      | cons b as => exact hl.elim
      | nil => simp [Bencode.dumpListLoop, getWord, arrayOf_some container_list hp ha, listDump]
  | node :: l, p, a, done, as, tail, own, fuel, indent, hp, ha, hl, hfuel => by
      rw [listWeight] at hfuel
      have hpos := node.weight_pos
      obtain ⟨fuel, rfl⟩ : ∃ f, fuel = f + 1 := ⟨fuel - 1, by omega⟩
      cases as with
      | nil => exact hl.elim
      | cons b as =>
          rw [HoldsList] at hl
          obtain ⟨o₁, o₂, hnode, hl, -, -⟩ := hl
          have hload : getWord h p done.length = some (some b) := by
            simp [getWord, arrayOf_some container_list hp ha]
          have henough : 2 * node.weight ≤ fuel := by omega
          have hless : 2 * listWeight l < fuel := by omega
          have hrest := @HoldsList.dumpListLoop h l p a (done ++ [.ptr (some b)]) as tail o₂ fuel
            indent hp (by rw [ha]; simp) hl hless
          rw [List.length_append, List.length_singleton] at hrest
          rw [Bencode.dumpListLoop, hload, listDump]
          dsimp only
          rw [hnode.beDumpAt indent henough, hrest]

theorem HoldsDict.dumpDictLoop {h : BeHeap} : ∀ {d : List Entry} {p a : Nat}
    {done ws : List (Option Nat × Option Nat)} {key : Word} {tail : List Word} {own : Finset Nat}
    {fuel : Nat} {indent : Int},
    h.get p = some (.node (.dict (some a))) →
    h.get a = some (.array (entryWords done ++ (entryWords ws ++ key :: .ptr none :: tail))) →
    HoldsDict h ws d own → 2 * dictWeight d < fuel →
    Bencode.dumpDictLoop fuel h p indent done.length = dictDump d indent
  | [], p, a, done, ws, key, tail, own, fuel, indent, hp, ha, hd, hfuel => by
      obtain ⟨fuel, rfl⟩ : ∃ f, fuel = f + 1 := ⟨fuel - 1, by omega⟩
      rcases ws with _ | ⟨⟨k, _ | v⟩, ws⟩
      · rw [Bencode.dumpDictLoop, getWord_val hp ha, dictDump]
      · exact hd.elim
      · exact hd.elim
  | (s, none) :: d, p, a, done, ws, key, tail, own, fuel, indent, hp, ha, hd, hfuel => by
      obtain ⟨fuel, rfl⟩ : ∃ f, fuel = f + 1 := ⟨fuel - 1, by omega⟩
      rcases ws with _ | ⟨⟨k, _ | v⟩, ws⟩
      · exact hd.elim
      · rw [Bencode.dumpDictLoop, getWord_val hp ha, dictDump]
      · exact hd.elim
  | (s, some node) :: d, p, a, done, ws, key, tail, own, fuel, indent, hp, ha, hd, hfuel => by
      have hpos := node.weight_pos
      have hweight : node.weight + dictWeight d ≤ dictWeight ((s, some node) :: d) := by
        cases s <;> simp only [dictWeight] <;> omega
      obtain ⟨fuel, rfl⟩ : ∃ f, fuel = f + 1 := ⟨fuel - 1, by omega⟩
      rcases ws with _ | ⟨⟨k, _ | v⟩, ws⟩
      · exact hd.elim
      · exact hd.elim
      · rw [HoldsDict] at hd
        obtain ⟨o₁, o₂, o₃, hkey, hnode, hd, -, -, -⟩ := hd
        have henough : 2 * node.weight ≤ fuel := by omega
        have hless : 2 * dictWeight d < fuel := by omega
        have hrest := @HoldsDict.dumpDictLoop h d p a (done ++ [(k, some v)]) ws key tail o₃ fuel
          indent hp (by rw [ha]; simp [entryWords]) hd hless
        rw [List.length_append, List.length_singleton] at hrest
        rw [Bencode.dumpDictLoop, getWord_val hp ha, getWord_key hp ha]
        dsimp only
        rw [hkey.printStr]
        cases s with
        | none => rw [Option.map_none, dictDump]
        | some key =>
            rw [Option.map_some, dictDump]
            dsimp only
            rw [hnode.beDumpAt (-indent) henough, hrest]

end

/-! ## Decoding and dumping -/

/-- **`be_dump` prints the tree.** Whatever the text was and whatever becomes
of the other blocks in the meantime, `be_dump` prints the dump of the tree
the decoder answered, from blocks that were allocated for it; it comes to a
NULL string exactly if the tree is not printable. -/
theorem beDump_decoded {fuel : Nat} (h : BeHeap) {data : List Byte} {len : Int} {node : Node}
    {c : Cursor} (hdec : beDecoden fuel data len = some (some node, c)) :
    ((node.dump 0).isSome ↔ node.printable = true) ∧
    ∃ p h₁, ∃ own : Finset Nat, beDecodenMem fuel h data len = some (some p, h₁, c) ∧
      (∀ a ∈ own, h.next ≤ a) ∧
      ∀ fuel' h₂, 2 * node.weight ≤ fuel' → (∀ a ∈ own, h₂.get a = h₁.get a) →
        beDump fuel' h₂ p = node.dump 0 := by
  have href := (allRefine fuel).decode h { data := data, dataLen := len }
  have hdec' : beDecode fuel { data := data, dataLen := len } = some (some node, c) := hdec
  rw [hdec'] at href
  obtain ⟨p, h₁, own, new, hans, hadd, hhold, hsub, -⟩ := href
  refine ⟨by rw [node.isSome_dump], ?_⟩
  cases p with
  | none => exact hhold.elim
  | some p =>
      refine ⟨p, h₁, own, hans, fun a ha => hadd.young a (hsub ha), ?_⟩
      intro fuel' h₂ hfuel hsame
      exact Holds.beDumpAt 0 (Holds.congr hhold hsame) hfuel

/-- A dictionary with a list in it is printed; a string that is cut short
leaves a node with a NULL string, and nothing is. -/
theorem beDump_decoded_nested :
    (∃ p h₁ c, ∃ own : Finset Nat,
      beDecodenMem 20 .empty ((Value.dict [(ascii "a", .list [.int 5])]).text ++ [0#8]) 20
        = some (some p, h₁, c) ∧
      ∀ fuel' h₂, 20 ≤ fuel' → (∀ a ∈ own, h₂.get a = h₁.get a) → beDump fuel' h₂ p
        = some (ascii "dict \x7b\n    a => list [\n        int = 5\n    ]\n\x7d\n")) ∧
    ∃ p h₁ c, ∃ own : Finset Nat, beDecodenMem 9 .empty (ascii "9:be") 4 = some (some p, h₁, c) ∧
      ∀ fuel' h₂, 2 ≤ fuel' → (∀ a ∈ own, h₂.get a = h₁.get a) → beDump fuel' h₂ p = none := by
  have hreadable : (Value.dict [(ascii "a", .list [.int 5])]).Readable := by
    simp [Value.Readable, ReadableDict, ReadableList, llongMin, llongMax, ascii]
  have hnested := beDecode_text _ hreadable 20 [0#8] 20 (by decide) (by decide)
  have hshort : beDecoden 9 (ascii "9:be") 4
      = some (some (.str none), { data := ascii ":be", dataLen := 3 }) := rfl
  obtain ⟨-, p, h₁, own, hdec, -, hdump⟩ := beDump_decoded .empty hnested
  obtain ⟨-, p', h₁', own', hdec', -, hdump'⟩ := beDump_decoded .empty hshort
  have hweight : (Value.dict [(ascii "a", .list [.int 5])]).node.weight ≤ 10 := by decide
  refine ⟨⟨p, h₁, _, own, hdec, ?_⟩, p', h₁', _, own', hdec', hdump'⟩
  intro fuel' h₂ hfuel hsame
  exact hdump fuel' h₂ (by omega) hsame

end DubstepDucks.Bencode
