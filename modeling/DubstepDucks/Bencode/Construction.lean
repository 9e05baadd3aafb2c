import DubstepDucks.Bencode.Memory
import Mathlib.Data.Finset.Lattice.Lemmas

/-!
# Bencode — containers under construction

Between two rounds of a loop of the decoder a container is a node, an array
that every `realloc` moves, and the items read so far, which do not move
(`Building`, `Filled`). A round is a `realloc`, calls that allocate
(`Filled.grow`, `Filled.call`), and stores behind the items (`Filled.store`).

Lists and dictionaries differ in the words an item takes and in what the
words point to (`Layout`).
-/

namespace DubstepDucks.Bencode

open CMem

/-! ## A container under construction -/

/-- The two nodes with an array. -/
def Rec.Container (mk : Option Nat → Rec) : Prop :=
  ∀ l, (mk l).array = some l ∧ ∀ a, (mk l).withArray a = mk (some a)

theorem container_list : Rec.Container .list := fun _ => ⟨rfl, fun _ => rfl⟩

theorem container_dict : Rec.Container .dict := fun _ => ⟨rfl, fun _ => rfl⟩

/-- Since `h₀` the node `ret` was allocated, its array with these words (none
at first), and the blocks `rest`. -/
inductive Building (mk : Option Nat → Rec) (h₀ h : BeHeap) (ret : Nat) (rest : Finset Nat) :
    List Word → Prop
  | bare (added : h₀.Adds h (insert ret rest)) (node : h.get ret = some (.node (mk none)))
      (notMem : ret ∉ rest) : Building mk h₀ h ret rest []
  | array {a : Nat} {words : List Word} (added : h₀.Adds h (insert ret (insert a rest)))
      (node : h.get ret = some (.node (mk (some a)))) (block : h.get a = some (.array words))
      (notMem : ret ∉ rest) (notMem' : a ∉ rest) : Building mk h₀ h ret rest words

variable {mk : Option Nat → Rec} {h₀ h : BeHeap} {ret : Nat} {rest : Finset Nat} {words : List Word}

theorem Building.live (hb : Building mk h₀ h ret rest words) {x : Nat} (hx : x ∈ rest) :
    (h.get x).isSome := by
  cases hb with
  | bare added => exact added.live x (by simp [hx])
  | array added => exact added.live x (by simp [hx])

theorem Building.lt_next (hb : Building mk h₀ h ret rest words) {x : Nat} (hx : x ∈ rest) :
    x < h.next := by
  obtain ⟨b, hget⟩ := Option.isSome_iff_exists.mp (hb.live hx)
  exact Heap.Blocks.lt_next hget

theorem building_start (h : BeHeap) (type : BeType) (hmk : type.zeroed = mk none) :
    Building mk h (beAlloc h type).2 (beAlloc h type).1 ∅ [] := by
  refine .bare (Heap.Blocks.Adds.alloc h _) ?_ (by simp)
  rw [← hmk]
  exact Heap.Blocks.alloc_get_self h _

/-- What a call between two stores allocates joins the rest. -/
theorem Building.call {h₁ : BeHeap} {new : Finset Nat} (hb : Building mk h₀ h ret rest words)
    (hadd : h.Adds h₁ new) : Building mk h₀ h₁ ret (rest ∪ new) words := by
  cases hb with
  | bare added node notMem =>
      refine .bare ?_ (hadd.kept node) ?_
      · rw [← Finset.insert_union]
        exact added.trans hadd
      · simp [notMem, hadd.notMem node]
  | array added node block notMem notMem' =>
      refine .array ?_ (hadd.kept node) (hadd.kept block) ?_ ?_
      · rw [← Finset.insert_union, ← Finset.insert_union]
        exact added.trans hadd
      · simp [notMem, hadd.notMem node]
      · simp [notMem', hadd.notMem block]

theorem Building.disjoint {h₁ : BeHeap} {new : Finset Nat} (hb : Building mk h₀ h ret rest words)
    (hadd : h.Adds h₁ new) : Disjoint rest new := by
  rw [Finset.disjoint_left]
  intro x hx
  obtain ⟨b, hget⟩ := Option.isSome_iff_exists.mp (hb.live hx)
  exact hadd.notMem hget

/-- The first `realloc`. -/
theorem grow_bare (hmk : Rec.Container mk) (added : h₀.Adds h (insert ret rest))
    (node : h.get ret = some (.node (mk none))) (notMem : ret ∉ rest) (n : Nat) :
    ∃ h', growArray h ret n = some h' ∧
      Building mk h₀ h' ret rest (List.replicate n .unset) ∧ ∀ x ∈ rest, h'.get x = h.get x := by
  have hlt : ∀ x ∈ rest, x < h.next := fun x hx => added.lt_next (by simp [hx])
  have hne : ret ≠ h.next := Nat.ne_of_lt (Heap.Blocks.lt_next node)
  have hall := added.trans (Heap.Blocks.Adds.alloc h (.array (List.replicate n .unset)))
  have hset : insert ret rest ∪ {h.next} = insert ret (insert h.next rest) := by
    rw [Finset.insert_union, Finset.union_comm, ← Finset.insert_eq]
  rw [hset] at hall
  have hkept : (h.alloc (Block.array (List.replicate n .unset))).2.get ret
      = some (.node (mk none)) := by
    rw [Heap.Blocks.alloc_get_of_ne _ hne, node]
  obtain ⟨h', hstore, hnext, hself, hother⟩ :=
    Heap.Blocks.set_some hkept (.node ((mk none).withArray h.next))
  refine ⟨h', ?_, .array (a := h.next) (hall.set (by simp) hnext (by simp [hself]) hother) ?_ ?_
    notMem (fun hmem => absurd (hlt _ hmem) (Nat.lt_irrefl _)), ?_⟩
  · simp only [growArray, record, node, (hmk none).1, realloc]
    exact hstore
  · rw [hself, (hmk none).2]
  · rw [hother _ hne.symm, Heap.Blocks.alloc_get_self]
  · intro x hx
    have hold := hlt x hx
    rw [hother x (fun heq => notMem (heq ▸ hx)), Heap.Blocks.alloc_get_of_ne _ (by omega)]

/-- Any other one. -/
theorem grow_array {a n : Nat} (hmk : Rec.Container mk)
    (added : h₀.Adds h (insert ret (insert a rest))) (node : h.get ret = some (.node (mk (some a))))
    (block : h.get a = some (.array words)) (notMem : ret ∉ rest) (notMem' : a ∉ rest)
    (hn : words.length ≤ n) :
    ∃ h', growArray h ret n = some h' ∧
      Building mk h₀ h' ret rest (words ++ List.replicate (n - words.length) .unset) ∧
      ∀ x ∈ rest, h'.get x = h.get x := by
  obtain ⟨words', hwords⟩ : ∃ w, w = words ++ List.replicate (n - words.length) .unset := ⟨_, rfl⟩
  have hlt : ∀ x ∈ rest, x < h.next := fun x hx => added.lt_next (by simp [hx])
  have hne : ret ≠ h.next := Nat.ne_of_lt (Heap.Blocks.lt_next node)
  have hne' : a ≠ h.next := Nat.ne_of_lt (Heap.Blocks.lt_next block)
  have haret : a ≠ ret := by
    rintro rfl
    rw [node] at block
    cases block
  have hall := added.trans (Heap.Blocks.Adds.alloc h (.array words'))
  have hkept : (h.alloc (Block.array words')).2.get a = some (.array words) := by
    rw [Heap.Blocks.alloc_get_of_ne _ hne', block]
  obtain ⟨h₁, hfree, hnext₁, hself₁, hother₁⟩ := Heap.Blocks.free_some hkept
  have hrealloc : realloc h (some a) n = some (h.next, h₁) := by
    simp only [realloc, block]
    rw [List.take_of_length_le hn, ← hwords, hfree]
    rfl
  have hset :
      (insert ret (insert a rest) ∪ {h.next}).erase a = insert ret (insert h.next rest) := by
    have hrest : ∀ x ∈ rest, x ≠ a := fun x hx heq => notMem' (heq ▸ hx)
    grind
  have hmoved := hall.erase (by simp) hnext₁ hself₁ hother₁
  rw [hset] at hmoved
  have hnode : h₁.get ret = some (.node (mk (some a))) := by
    rw [hother₁ ret haret.symm, Heap.Blocks.alloc_get_of_ne _ hne, node]
  obtain ⟨h', hstore, hnext, hself, hother⟩ :=
    Heap.Blocks.set_some hnode (.node ((mk (some a)).withArray h.next))
  rw [← hwords]
  refine ⟨h', ?_, .array (a := h.next) (hmoved.set (by simp) hnext (by simp [hself]) hother) ?_ ?_
    notMem (fun hmem => absurd (hlt _ hmem) (Nat.lt_irrefl _)), ?_⟩
  · simp only [growArray, record, node, (hmk (some a)).1, hrealloc]
    exact hstore
  · rw [hself, (hmk (some a)).2]
  · rw [hother _ hne.symm, hother₁ _ hne'.symm, Heap.Blocks.alloc_get_self]
  · intro x hx
    have hold := hlt x hx
    rw [hother x (fun heq => notMem (heq ▸ hx)), hother₁ x (fun heq => notMem' (heq ▸ hx)),
      Heap.Blocks.alloc_get_of_ne _ (by omega)]

/-- The array of a container grows, and nothing that hangs on it moves. -/
theorem Building.grow (hmk : Rec.Container mk) (hb : Building mk h₀ h ret rest words) {n : Nat}
    (hn : words.length ≤ n) :
    ∃ h', growArray h ret n = some h' ∧
      Building mk h₀ h' ret rest (words ++ List.replicate (n - words.length) .unset) ∧
      ∀ x ∈ rest, h'.get x = h.get x := by
  cases hb with
  | bare added node notMem => exact grow_bare hmk added node notMem n
  | array added node block notMem notMem' =>
      exact grow_array hmk added node block notMem notMem' hn

theorem arrayOf_some (hmk : Rec.Container mk) {a : Nat}
    (node : h.get ret = some (.node (mk (some a)))) (block : h.get a = some (.array words)) :
    arrayOf h ret = some (a, words) := by
  simp only [arrayOf, record, node, (hmk (some a)).1, block]

/-- A store into the array. -/
theorem Building.store (hmk : Rec.Container mk) (hb : Building mk h₀ h ret rest words) {i : Nat}
    (hi : i < words.length) (p : Option Nat) :
    ∃ h', setWord h ret i p = some h' ∧ Building mk h₀ h' ret rest (words.set i (.ptr p)) ∧
      ∀ x ∈ rest, h'.get x = h.get x := by
  cases hb with
  | bare => exact absurd hi (Nat.not_lt_zero _)
  | @array a words added node block notMem notMem' =>
      have hne : ret ≠ a := by
        rintro rfl
        rw [node] at block
        cases block
      obtain ⟨h', hstore, hnext, hself, hother⟩ :=
        Heap.Blocks.set_some block (.array (words.set i (.ptr p)))
      refine ⟨h', ?_, .array (added.set (by simp) hnext (by simp [hself]) hother)
        ((hother ret hne).trans node) hself notMem notMem', ?_⟩
      · rw [setWord, arrayOf_some hmk node block]
        dsimp only
        rw [if_pos hi, hstore]
      · intro x hx
        exact hother x (fun heq => notMem' (heq ▸ hx))

/-- A store through NULL. -/
theorem Building.store_null (hmk : Rec.Container mk) (hb : Building mk h₀ h ret rest []) {i : Nat}
    (p : Option Nat) : setWord h ret i p = none := by
  cases hb with
  | bare _ node => simp only [setWord, arrayOf, record, node, (hmk none).1]
  | array _ node block =>
      rw [setWord, arrayOf_some hmk node block]
      exact if_neg (Nat.not_lt_zero _)

theorem Building.load (hmk : Rec.Container mk) (hb : Building mk h₀ h ret rest words) {i : Nat}
    {p : Option Nat} (hi : words[i]? = some (.ptr p)) : getWord h ret i = some p := by
  cases hb with
  | bare => simp at hi
  | array _ node block =>
      rw [getWord, arrayOf_some hmk node block]
      dsimp only
      rw [hi]

/-! ## Items of a container -/

theorem HoldsStr.empty_iff {p : Option Nat} {s : Option (List Byte)} {own : Finset Nat}
    (hold : HoldsStr h p s own) : own = ∅ ↔ s = none := by
  rcases p with _ | a <;> rcases s with _ | s
  · exact iff_of_true hold rfl
  · exact hold.elim
  · exact hold.elim
  · obtain ⟨-, rfl⟩ := hold
    exact iff_of_false (by simp) (by simp)

theorem HoldsStr.isSome_eq {p : Option Nat} {s : Option (List Byte)} {own : Finset Nat}
    (hold : HoldsStr h p s own) : p.isSome = s.isSome := by
  rcases p with _ | a <;> rcases s with _ | s
  · rfl
  · exact hold.elim
  · exact hold.elim
  · rfl

theorem Holds.self_mem {node : Node} {p : Nat} {own : Finset Nat} (hold : Holds h p node own) :
    p ∈ own := by
  cases node with
  | str s =>
      rw [Holds] at hold
      obtain ⟨q, o, -, -, -, rfl⟩ := hold
      simp
  | int i =>
      rw [Holds] at hold
      obtain ⟨-, rfl⟩ := hold
      simp
  | list l =>
      rw [Holds] at hold
      obtain ⟨a, as, tail, o, -, -, -, -, -, rfl⟩ := hold
      simp
  | dict d =>
      rw [Holds] at hold
      obtain ⟨a, ws, key, tail, o, -, -, -, -, -, rfl⟩ := hold
      simp

theorem HoldsAnswer.empty_iff {p : Option Nat} {node : Option Node} {own : Finset Nat}
    (hold : HoldsAnswer h p node own) : own = ∅ ↔ node = none := by
  rcases p with _ | p <;> rcases node with _ | node
  · exact iff_of_true hold rfl
  · exact hold.elim
  · exact hold.elim
  · refine iff_of_false ?_ (by simp)
    rintro rfl
    exact absurd (Holds.self_mem hold) (by simp)

theorem HoldsAnswer.isSome_eq {p : Option Nat} {node : Option Node} {own : Finset Nat}
    (hold : HoldsAnswer h p node own) : p.isSome = node.isSome := by
  rcases p with _ | p <;> rcases node with _ | node
  · rfl
  · exact hold.elim
  · exact hold.elim
  · rfl

theorem HoldsAnswer.congr {h h' : BeHeap} {p : Option Nat} {node : Option Node}
    {own : Finset Nat} (hold : HoldsAnswer h p node own) (heq : ∀ x ∈ own, h'.get x = h.get x) :
    HoldsAnswer h' p node own := by
  rcases p with _ | p <;> rcases node with _ | node
  · exact hold
  · exact hold
  · exact hold
  · exact Holds.congr hold heq

theorem HoldsList.concat {node : Node} {a : Nat} {o : Finset Nat} :
    ∀ {as : List Nat} {l : List Node} {own : Finset Nat}, HoldsList h as l own →
      Holds h a node o → Disjoint own o → HoldsList h (as ++ [a]) (l ++ [node]) (own ∪ o) := by
  intro as
  induction as with
  | nil =>
      intro l own hl hnode hdis
      cases l with
      | nil =>
          rw [HoldsList] at hl
          subst hl
          exact ⟨o, ∅, hnode, rfl, by simp, by simp⟩
      | cons first l => exact hl.elim
  | cons b as ih =>
      intro l own hl hnode hdis
      cases l with
      | nil => exact hl.elim
      | cons first l =>
          obtain ⟨o₁, o₂, hfirst, hl, hdis', rfl⟩ := hl
          rw [Finset.disjoint_union_left] at hdis
          exact ⟨o₁, o₂ ∪ o, hfirst, ih hl hnode hdis.2,
            Finset.disjoint_union_right.mpr ⟨hdis', hdis.1⟩, Finset.union_assoc _ _ _⟩

theorem HoldsDict.concat {key : Option (List Byte)} {val : Option Node} {k v : Option Nat}
    {o₁ o₂ : Finset Nat} :
    ∀ {ws : List (Option Nat × Option Nat)} {d : List Entry} {own : Finset Nat},
      HoldsDict h ws d own → HoldsStr h k key o₁ → HoldsAnswer h v val o₂ → Disjoint o₁ o₂ →
      Disjoint own (o₁ ∪ o₂) →
      HoldsDict h (ws ++ [(k, v)]) (d ++ [(key, val)]) (own ∪ (o₁ ∪ o₂)) := by
  intro ws
  induction ws with
  | nil =>
      intro d own hd hkey hval hdis _
      cases d with
      | nil =>
          rw [HoldsDict] at hd
          subst hd
          rcases v with _ | v <;> rcases val with _ | node
          · refine ⟨o₁, ∅, hkey, rfl, by simp, ?_⟩
            rw [HoldsAnswer] at hval
            simp [hval]
          · exact hval.elim
          · exact hval.elim
          · exact ⟨o₁, o₂, ∅, hkey, hval, rfl, hdis, by simp, by simp⟩
      | cons e d =>
          obtain ⟨ek, _ | ev⟩ := e <;> exact hd.elim
  | cons w ws ih =>
      intro d own hd hkey hval hdis hdis'
      obtain ⟨wk, wv⟩ := w
      cases d with
      | nil => cases wv <;> exact hd.elim
      | cons e d =>
          obtain ⟨ek, ev⟩ := e
          rcases wv with _ | wv <;> rcases ev with _ | node
          · obtain ⟨p₁, p₂, hk, hd, hd', rfl⟩ := hd
            rw [Finset.disjoint_union_left] at hdis'
            exact ⟨p₁, p₂ ∪ (o₁ ∪ o₂), hk, ih hd hkey hval hdis hdis'.2,
              Finset.disjoint_union_right.mpr ⟨hd', hdis'.1⟩, Finset.union_assoc _ _ _⟩
          · exact hd.elim
          · exact hd.elim
          · obtain ⟨p₁, p₂, p₃, hk, hv, hd, hd', hd'', rfl⟩ := hd
            rw [Finset.disjoint_union_left] at hdis'
            exact ⟨p₁, p₂, p₃ ∪ (o₁ ∪ o₂), hk, hv, ih hd hkey hval hdis hdis'.2, hd',
              Finset.disjoint_union_right.mpr ⟨hd'', hdis'.1⟩, Finset.union_assoc _ _ _⟩

/-- Word `i` of the array of entries is the key or the value of entry
`i / 2`. -/
theorem getElem?_entryWords (ws : List (Option Nat × Option Nat)) :
    ∀ i, (entryWords ws)[i]?
      = (ws[i / 2]?).map fun e => .ptr (if i % 2 = 0 then e.1 else e.2) := by
  induction ws with
  | nil => simp [entryWords]
  | cons e ws ih =>
      intro i
      rcases i with _ | _ | i
      · rfl
      · rfl
      · have hhalf : (i + 1 + 1) / 2 = i / 2 + 1 := by omega
        have hmod : (i + 1 + 1) % 2 = i % 2 := by omega
        rw [hhalf, hmod, List.getElem?_cons_succ, ← ih i]
        rfl

theorem length_entryWords (ws : List (Option Nat × Option Nat)) :
    (entryWords ws).length = 2 * ws.length := by
  induction ws with
  | nil => rfl
  | cons e ws ih =>
      rw [List.length_cons, Nat.mul_add, ← ih]
      rfl

/-- The array has a NULL where the entries do. -/
theorem HoldsDict.shape : ∀ {ws : List (Option Nat × Option Nat)} {d : List Entry}
    {own : Finset Nat}, HoldsDict h ws d own →
    ws.map (fun e => (e.1.isSome, e.2.isSome)) = d.map fun e => (e.1.isSome, e.2.isSome) := by
  intro ws
  induction ws with
  | nil =>
      intro d own hd
      cases d with
      | nil => rfl
      | cons e d =>
          obtain ⟨ek, _ | ev⟩ := e <;> exact hd.elim
  | cons w ws ih =>
      intro d own hd
      obtain ⟨wk, wv⟩ := w
      cases d with
      | nil => cases wv <;> exact hd.elim
      | cons e d =>
          obtain ⟨ek, ev⟩ := e
          rcases wv with _ | wv <;> rcases ev with _ | node
          · obtain ⟨p₁, p₂, hk, hd, -⟩ := hd
            rw [List.map_cons, List.map_cons, ih hd, hk.isSome_eq]
            rfl
          · exact hd.elim
          · exact hd.elim
          · obtain ⟨p₁, p₂, p₃, hk, -, hd, -⟩ := hd
            rw [List.map_cons, List.map_cons, ih hd, hk.isSome_eq]
            rfl

theorem HoldsDict.length_eq {ws : List (Option Nat × Option Nat)} {d : List Entry}
    {own : Finset Nat} (hd : HoldsDict h ws d own) : ws.length = d.length := by
  have hlen := congrArg List.length hd.shape
  rwa [List.length_map, List.length_map] at hlen

/-- `ret->val.l[i]` is NULL where the decoder of trees says so. -/
theorem HoldsDict.word {ws : List (Option Nat × Option Nat)} {d : List Entry} {own : Finset Nat}
    (hd : HoldsDict h ws d own) {i : Nat} (hi : i / 2 < d.length) :
    ∃ p, (entryWords ws)[i]? = some (.ptr p) ∧ p.isSome = wordSet d i := by
  have hi' : i / 2 < ws.length := by
    rw [hd.length_eq]
    exact hi
  have hshape := congrArg (fun l => l[i / 2]?) hd.shape
  simp only [List.getElem?_map, List.getElem?_eq_getElem hi, List.getElem?_eq_getElem hi',
    Option.map_some, Option.some.injEq, Prod.mk.injEq] at hshape
  refine ⟨if i % 2 = 0 then ws[i / 2].1 else ws[i / 2].2, ?_, ?_⟩
  · rw [getElem?_entryWords, List.getElem?_eq_getElem hi']
    rfl
  · rw [wordSet, List.getElem?_eq_getElem hi]
    dsimp only
    split
    · exact hshape.1
    · exact hshape.2

/-! ## One round of a loop -/

/-- How a container keeps its items. -/
structure Layout (α β : Type) where
  node : Option Nat → Rec
  width : Nat
  words : List α → List Word
  holds : BeHeap → List α → List β → Finset Nat → Prop

def listLayout : Layout Nat Node :=
  { node := .list, width := 1, words := fun as => as.map (fun x => .ptr (some x)),
    holds := HoldsList }

def dictLayout : Layout (Option Nat × Option Nat) Entry :=
  { node := .dict, width := 2, words := entryWords, holds := HoldsDict }

/-- The items read so far are in the array, in front of `tail`. -/
structure Filled {α β : Type} (y : Layout α β) (h₀ h : BeHeap) (ret : Nat) (as : List α)
    (l : List β) (tail : List Word) (own rest : Finset Nat) : Prop where
  building : Building y.node h₀ h ret rest (y.words as ++ tail)
  holds : y.holds h as l own
  sub : own ⊆ rest

/-- What a round needs to know of a layout. -/
structure Layout.Lawful {α β : Type} (y : Layout α β) : Prop where
  container : Rec.Container y.node
  length_words : ∀ as, (y.words as).length = y.width * as.length
  congr : ∀ {h h' : BeHeap} {as : List α} {l : List β} {own : Finset Nat}, y.holds h as l own →
    (∀ x ∈ own, h'.get x = h.get x) → y.holds h' as l own

theorem lawful_list : listLayout.Lawful where
  container := container_list
  length_words as := by simp [listLayout]
  congr := HoldsList.congr

theorem lawful_dict : dictLayout.Lawful where
  container := container_dict
  length_words := length_entryWords
  congr := HoldsDict.congr

section Round

variable {α β : Type} {y : Layout α β} {as : List α} {l : List β} {tail : List Word}
  {own : Finset Nat}

/-- `realloc` makes room for one more item and the NULL behind it. -/
theorem Filled.grow (hy : y.Lawful) (hfill : Filled y h₀ h ret as l tail own rest)
    (htail : tail.length ≤ y.width) :
    ∃ h₁ slack, growArray h ret (y.width * (as.length + 2)) = some h₁ ∧
      slack.length = y.width * 2 ∧ Filled y h₀ h₁ ret as l slack own rest := by
  have hlen := hy.length_words as
  have hroom : (y.words as ++ tail).length ≤ y.width * (as.length + 2) := by
    rw [List.length_append, hlen, Nat.mul_add]
    omega
  obtain ⟨h₁, hgrow, hbuild, hkeep⟩ := hfill.building.grow hy.container hroom
  refine ⟨h₁, tail ++ List.replicate
    (y.width * (as.length + 2) - (y.words as ++ tail).length) .unset, hgrow, ?_, ?_⟩
  · rw [List.length_append, List.length_append, List.length_replicate, hlen, Nat.mul_add]
    omega
  · rw [List.append_assoc] at hbuild
    exact ⟨hbuild, hy.congr hfill.holds fun x hx => hkeep x (hfill.sub hx), hfill.sub⟩

/-- A call leaves the items alone. -/
theorem Filled.call {h₁ : BeHeap} {new : Finset Nat} (hy : y.Lawful)
    (hfill : Filled y h₀ h ret as l tail own rest) (hadd : h.Adds h₁ new) :
    Filled y h₀ h₁ ret as l tail own (rest ∪ new) where
  building := hfill.building.call hadd
  holds := by
    apply hy.congr hfill.holds
    intro x hx
    exact hadd.old x (Finset.disjoint_left.mp (hfill.building.disjoint hadd) (hfill.sub hx))
  sub := hfill.sub.trans Finset.subset_union_left

/-- So does a store behind them. -/
theorem Filled.store (hy : y.Lawful) (hfill : Filled y h₀ h ret as l tail own rest) {j : Nat}
    (hj : j < tail.length) (p : Option Nat) :
    ∃ h', setWord h ret (y.width * as.length + j) p = some h' ∧
      Filled y h₀ h' ret as l (tail.set j (.ptr p)) own rest ∧
      ∀ x ∈ rest, h'.get x = h.get x := by
  have hlen := hy.length_words as
  obtain ⟨h', hstore, hbuild, hkeep⟩ := hfill.building.store hy.container
    (i := y.width * as.length + j) (by rw [List.length_append, hlen]; omega) p
  have hset : (y.words as ++ tail).set (y.width * as.length + j) (.ptr p)
      = y.words as ++ tail.set j (.ptr p) := by
    rw [List.set_append_right _ _ (by omega), hlen, Nat.add_sub_cancel_left]
  rw [hset] at hbuild
  exact ⟨h', hstore, ⟨hbuild, hy.congr hfill.holds fun x hx => hkeep x (hfill.sub hx), hfill.sub⟩,
    hkeep⟩

end Round

end DubstepDucks.Bencode
