import DubstepDucks.Bencode.Progress
import DubstepDucks.Heap.Blocks

/-!
# Bencode — the decoder's memory

`bencode.c` once more, with its `malloc`, `realloc` and pointers. A block is
a `be_node`, a byte string behind its eight bytes of length, or an array of
pointer-sized words; a word that was never written is `unset`, and reading
it is a fault like reading outside the array, through NULL or through a
freed block.

An array of `be_dict` is the array of its words, entry `k` at words `2 * k`
(`key`) and `2 * k + 1` (`val`), which is what `ret->val.l[i]` in the loop
for dictionaries reads.

`Holds` says that the blocks at a pointer are a given tree, and which blocks
these are: a set for each part of the tree, no two of them meeting.
-/

namespace DubstepDucks.Bencode

open CMem

/-- `be_type`. -/
inductive BeType where
  | str
  | int
  | list
  | dict

/-- A `be_node`: its type and its union. -/
inductive Rec where
  | str (s : Option Nat)
  | int (i : Int)
  | list (l : Option Nat)
  | dict (d : Option Nat)

/-- A word of an array: a pointer, once it is written. -/
inductive Word where
  | unset
  | ptr (p : Option Nat)

/-- What `malloc` gave room for. -/
inductive Block where
  | node (r : Rec)
  | str (sllen : Int) (bytes : List Byte)
  | array (words : List Word)

abbrev BeHeap := Heap.Blocks Block

/-! ## The functions -/

/-- A node whose union is zero. -/
def BeType.zeroed : BeType → Rec
  | .str => .str none
  | .int => .int 0
  | .list => .list none
  | .dict => .dict none

/-- `be_alloc`. -/
def beAlloc (h : BeHeap) (type : BeType) : Nat × BeHeap := h.alloc (.node type.zeroed)

/-- A node through its pointer. -/
def record (h : BeHeap) (p : Nat) : Option Rec :=
  match h.get p with
  | some (.node r) => some r
  | _ => none

/-- `val.l`, which is `val.d`. -/
def Rec.array : Rec → Option (Option Nat)
  | .list l => some l
  | .dict d => some d
  | _ => none

def Rec.withArray (r : Rec) (a : Nat) : Rec :=
  match r with
  | .list _ => .list (some a)
  | .dict _ => .dict (some a)
  | r => r

/-- `realloc` to `n` words: a new block with the words of the old one, which
is freed. -/
def realloc (h : BeHeap) (p : Option Nat) (n : Nat) : Option (Nat × BeHeap) :=
  match p with
  | none => some (h.alloc (.array (List.replicate n .unset)))
  | some a =>
      match h.get a with
      | some (.array words) =>
          let moved := h.alloc (.array (words.take n ++ List.replicate (n - words.length) .unset))
          (moved.2.free a).map fun h => (moved.1, h)
      | _ => none

/-- `ret->val.l = realloc(ret->val.l, n words)`. -/
def growArray (h : BeHeap) (ret n : Nat) : Option BeHeap :=
  match record h ret with
  | none => none
  | some r =>
      match r.array with
      | none => none
      | some l =>
          match realloc h l n with
          | none => none
          | some (a, h) => h.set ret (.node (r.withArray a))

/-- The array a node points to. -/
def arrayOf (h : BeHeap) (ret : Nat) : Option (Nat × List Word) :=
  match record h ret with
  | none => none
  | some r =>
      match r.array with
      | some (some a) =>
          match h.get a with
          | some (.array words) => some (a, words)
          | _ => none
      | _ => none

/-- `ret->val.l[i] = p`. -/
def setWord (h : BeHeap) (ret i : Nat) (p : Option Nat) : Option BeHeap :=
  match arrayOf h ret with
  | none => none
  | some (a, words) =>
      if i < words.length then h.set a (.array (words.set i (.ptr p))) else none

/-- `ret->val.l[i]`. -/
def getWord (h : BeHeap) (ret i : Nat) : Option (Option Nat) :=
  match arrayOf h ret with
  | none => none
  | some (_, words) =>
      match words[i]? with
      | some (.ptr p) => some p
      | _ => none

/-- `_be_decode_str`. -/
def beDecodeStrMem (h : BeHeap) (c : Cursor) : Option (Option Nat × BeHeap × Cursor) :=
  match beDecodeInt c with
  | none => none
  | some (sllen, c) =>
      if sllen < 0 then some (none, h, c)
      else if c.dataLen - 1 < sllen then some (none, h, c)
      else
        match c.data with
        | [] => none
        | b :: bytes =>
            if b = 58#8 then
              if bytes.length < sllen.toNat then none
              else
                let ret := h.alloc (.str sllen (bytes.take sllen.toNat))
                some (some ret.1, ret.2,
                  { data := bytes.drop sllen.toNat, dataLen := c.dataLen - (sllen + 1) })
            else some (none, h, c)

mutual

/-- `_be_decode`. -/
def beDecodeMem : Nat → BeHeap → Cursor → Option (Option Nat × BeHeap × Cursor)
  | 0, _, _ => none
  | fuel + 1, h, c =>
      if c.dataLen = 0 then some (none, h, c)
      else
        match c.data with
        | [] => none
        | b :: _ =>
            if b = 108#8 then
              let ret := beAlloc h .list
              match listLoopMem fuel ret.2 ret.1 0 c.next with
              | none => none
              | some (i, h, c) => (setWord h ret.1 i none).map fun h => (some ret.1, h, c.next)
            else if b = 100#8 then
              let ret := beAlloc h .dict
              match dictLoopMem fuel ret.2 ret.1 0 c.next with
              | none => none
              | some (i, h, c) =>
                  (setWord h ret.1 (2 * i + 1) none).map fun h => (some ret.1, h, c.next)
            else if b = 105#8 then
              let ret := beAlloc h .int
              match beDecodeInt c.next with
              | none => none
              | some (i, c) =>
                  match ret.2.set ret.1 (.node (.int i)) with
                  | none => none
                  | some h =>
                      match c.data with
                      | [] => none
                      | e :: _ =>
                          -- the node is not freed
                          if e = 101#8 then some (some ret.1, h, c.next) else some (none, h, c)
            else if isDigit b then
              let ret := beAlloc h .str
              match beDecodeStrMem ret.2 c with
              | none => none
              | some (s, h, c) => (h.set ret.1 (.node (.str s))).map fun h => (some ret.1, h, c)
            else some (none, h, c)

/-- The loop of a list. -/
def listLoopMem : Nat → BeHeap → Nat → Nat → Cursor → Option (Nat × BeHeap × Cursor)
  | 0, _, _, _, _ => none
  | fuel + 1, h, ret, i, c =>
      match c.data with
      | [] => none
      | b :: _ =>
          if b = 101#8 then some (i, h, c)
          else
            match growArray h ret (i + 2) with
            | none => none
            | some h =>
                match beDecodeMem fuel h c with
                | none => none
                | some (p, h, c) =>
                    match setWord h ret i p with
                    | none => none
                    | some h =>
                        match getWord h ret i with
                        | none => none
                        | some none => some (i, h, c)
                        | some (some _) => listLoopMem fuel h ret (i + 1) c

/-- The loop of a dictionary. -/
def dictLoopMem : Nat → BeHeap → Nat → Nat → Cursor → Option (Nat × BeHeap × Cursor)
  | 0, _, _, _, _ => none
  | fuel + 1, h, ret, i, c =>
      match c.data with
      | [] => none
      | b :: _ =>
          if b = 101#8 then some (i, h, c)
          else
            match growArray h ret (2 * (i + 2)) with
            | none => none
            | some h =>
                match beDecodeStrMem h c with
                | none => none
                | some (key, h, c) =>
                    match setWord h ret (2 * i) key with
                    | none => none
                    | some h =>
                        match beDecodeMem fuel h c with
                        | none => none
                        | some (val, h, c) =>
                            match setWord h ret (2 * i + 1) val with
                            | none => none
                            | some h =>
                                match getWord h ret i with
                                | none => none
                                | some none => some (i, h, c)
                                | some (some _) => dictLoopMem fuel h ret (i + 1) c

end

/-- `be_decoden`, with the heap and the cursor it leaves. -/
def beDecodenMem (fuel : Nat) (h : BeHeap) (data : List Byte) (len : Int) :
    Option (Option Nat × BeHeap × Cursor) :=
  beDecodeMem fuel h { data := data, dataLen := len }

/-- `be_str_len`: the eight bytes before the string. -/
def beStrLen (h : BeHeap) (node : Nat) : Option Int :=
  match record h node with
  | some (.str none) => some 0
  | some (.str (some s)) =>
      match h.get s with
      | some (.str sllen _) => some sllen
      | _ => none
  | _ => none

/-! ## The tree in the heap -/

/-- The words of the entries of a dictionary. -/
def entryWords (ws : List (Option Nat × Option Nat)) : List Word :=
  ws.flatMap fun e => [.ptr e.1, .ptr e.2]

/-- A pointer to a byte string in the blocks `own`, or NULL. -/
def HoldsStr (h : BeHeap) : Option Nat → Option (List Byte) → Finset Nat → Prop
  | none, none, own => own = ∅
  | some a, some s, own => h.get a = some (.str s.length s) ∧ own = {a}
  | _, _, _ => False

mutual

/-- The node at `p` is the tree, whose blocks are `own`. -/
def Holds (h : BeHeap) (p : Nat) : Node → Finset Nat → Prop
  | .str s, own => ∃ q o, h.get p = some (.node (.str q)) ∧ HoldsStr h q s o ∧ p ∉ o ∧
      own = insert p o
  | .int i, own => h.get p = some (.node (.int i)) ∧ own = {p}
  | .list l, own => ∃ a as tail o, h.get p = some (.node (.list (some a))) ∧
      h.get a = some (.array (as.map (fun x => .ptr (some x)) ++ .ptr none :: tail)) ∧
      HoldsList h as l o ∧ p ∉ o ∧ a ∉ o ∧ own = insert p (insert a o)
  | .dict d, own => ∃ a ws key tail o, h.get p = some (.node (.dict (some a))) ∧
      h.get a = some (.array (entryWords ws ++ key :: .ptr none :: tail)) ∧
      HoldsDict h ws d o ∧ p ∉ o ∧ a ∉ o ∧ own = insert p (insert a o)

/-- The nodes at the addresses are the trees, each in blocks of its own. -/
def HoldsList (h : BeHeap) : List Nat → List Node → Finset Nat → Prop
  | [], [], own => own = ∅
  | a :: as, node :: l, own => ∃ o₁ o₂, Holds h a node o₁ ∧ HoldsList h as l o₂ ∧
      Disjoint o₁ o₂ ∧ own = o₁ ∪ o₂
  | _, _, _ => False

/-- The same for keys and values. -/
def HoldsDict (h : BeHeap) : List (Option Nat × Option Nat) → List Entry → Finset Nat → Prop
  | [], [], own => own = ∅
  | (k, none) :: ws, (key, none) :: d, own => ∃ o₁ o₂, HoldsStr h k key o₁ ∧
      HoldsDict h ws d o₂ ∧ Disjoint o₁ o₂ ∧ own = o₁ ∪ o₂
  | (k, some v) :: ws, (key, some node) :: d, own => ∃ o₁ o₂ o₃, HoldsStr h k key o₁ ∧
      Holds h v node o₂ ∧ HoldsDict h ws d o₃ ∧ Disjoint o₁ o₂ ∧ Disjoint (o₁ ∪ o₂) o₃ ∧
      own = o₁ ∪ o₂ ∪ o₃
  | _, _, _ => False

end

/-- An answer in the heap: NULL, or a pointer to the tree. -/
def HoldsAnswer (h : BeHeap) : Option Nat → Option Node → Finset Nat → Prop
  | none, none, own => own = ∅
  | some p, some node, own => Holds h p node own
  | _, _, _ => False

/-! ## Other blocks do not matter -/

theorem HoldsStr.congr {h h' : BeHeap} {p : Option Nat} {s : Option (List Byte)}
    {own : Finset Nat} (hold : HoldsStr h p s own) (heq : ∀ x ∈ own, h'.get x = h.get x) :
    HoldsStr h' p s own := by
  cases p with
  | none => cases s <;> exact hold
  | some a =>
      cases s with
      | none => exact hold
      | some s =>
          obtain ⟨ha, rfl⟩ := hold
          exact ⟨(heq a (by simp)).trans ha, rfl⟩

mutual

/-- A tree in the heap is there as long as its own blocks are. -/
theorem Holds.congr {h h' : BeHeap} : ∀ {node : Node} {p : Nat} {own : Finset Nat},
    Holds h p node own → (∀ x ∈ own, h'.get x = h.get x) → Holds h' p node own
  | .str s, p, own, hold, heq => by
      rw [Holds] at hold ⊢
      obtain ⟨q, o, hp, hs, hnot, rfl⟩ := hold
      exact ⟨q, o, (heq p (by simp)).trans hp, hs.congr (fun x hx => heq x (by simp [hx])), hnot,
        rfl⟩
  | .int i, p, own, hold, heq => by
      rw [Holds] at hold ⊢
      obtain ⟨hp, rfl⟩ := hold
      exact ⟨(heq p (by simp)).trans hp, rfl⟩
  | .list l, p, own, hold, heq => by
      rw [Holds] at hold ⊢
      obtain ⟨a, as, tail, o, hp, ha, hl, hpo, hao, rfl⟩ := hold
      exact ⟨a, as, tail, o, (heq p (by simp)).trans hp, (heq a (by simp)).trans ha,
        hl.congr (fun x hx => heq x (by simp [hx])), hpo, hao, rfl⟩
  | .dict d, p, own, hold, heq => by
      rw [Holds] at hold ⊢
      obtain ⟨a, ws, key, tail, o, hp, ha, hd, hpo, hao, rfl⟩ := hold
      exact ⟨a, ws, key, tail, o, (heq p (by simp)).trans hp, (heq a (by simp)).trans ha,
        hd.congr (fun x hx => heq x (by simp [hx])), hpo, hao, rfl⟩

theorem HoldsList.congr {h h' : BeHeap} : ∀ {l : List Node} {as : List Nat} {own : Finset Nat},
    HoldsList h as l own → (∀ x ∈ own, h'.get x = h.get x) → HoldsList h' as l own
  | [], as, own, hold, _ => by
      cases as with
      | nil => exact hold
      | cons a as => exact hold.elim
  | node :: l, as, own, hold, heq => by
      cases as with
      | nil => exact hold.elim
      | cons a as =>
          rw [HoldsList] at hold ⊢
          obtain ⟨o₁, o₂, hnode, hl, hdis, rfl⟩ := hold
          exact ⟨o₁, o₂, hnode.congr (fun x hx => heq x (by simp [hx])),
            hl.congr (fun x hx => heq x (by simp [hx])), hdis, rfl⟩

theorem HoldsDict.congr {h h' : BeHeap} : ∀ {d : List Entry} {ws : List (Option Nat × Option Nat)}
    {own : Finset Nat},
    HoldsDict h ws d own → (∀ x ∈ own, h'.get x = h.get x) → HoldsDict h' ws d own
  | [], ws, own, hold, _ => by
      cases ws with
      | nil => exact hold
      | cons w ws => obtain ⟨k, _ | v⟩ := w <;> exact hold.elim
  | (key, none) :: d, ws, own, hold, heq => by
      rcases ws with _ | ⟨⟨k, _ | v⟩, ws⟩
      · exact hold.elim
      · rw [HoldsDict] at hold ⊢
        obtain ⟨o₁, o₂, hkey, hd, hdis, rfl⟩ := hold
        exact ⟨o₁, o₂, hkey.congr (fun x hx => heq x (by simp [hx])),
          hd.congr (fun x hx => heq x (by simp [hx])), hdis, rfl⟩
      · exact hold.elim
  | (key, some node) :: d, ws, own, hold, heq => by
      rcases ws with _ | ⟨⟨k, _ | v⟩, ws⟩
      · exact hold.elim
      · exact hold.elim
      · rw [HoldsDict] at hold ⊢
        obtain ⟨o₁, o₂, o₃, hkey, hnode, hd, hdis, hdis', rfl⟩ := hold
        exact ⟨o₁, o₂, o₃, hkey.congr (fun x hx => heq x (by simp [hx])),
          hnode.congr (fun x hx => heq x (by simp [hx])),
          hd.congr (fun x hx => heq x (by simp [hx])), hdis, hdis', rfl⟩

end

end DubstepDucks.Bencode
