import DubstepDucks.Bencode.Refinement

/-!
# Bencode — freeing a tree

`be_free` on what the decoder built. It walks a list up to its NULL and a
dictionary up to the first entry whose `val` is NULL, frees what hangs on
them, then the array, then the node.

It never frees a block twice, never reads one that is freed and touches no
block that was there before the text was decoded (`beFree_decoded`). It gives
everything back exactly if the decoder lost no block and no dictionary has
anything from its first NULL on (`beFree_restores_iff`); a readable value is
such a case (`beFree_text`).
-/

namespace DubstepDucks.Bencode

open CMem

/-! ## The functions -/

/-- `_be_free_str`. -/
def beFreeStr (h : BeHeap) (str : Option Nat) : Option BeHeap :=
  match str with
  | none => some h
  | some a => h.free a

/-- `free(node->val.l); ... free(node);` -/
def freeContainer (h : BeHeap) (node : Nat) : Option BeHeap :=
  match record h node with
  | none => none
  | some r =>
      match r.array with
      | none => none
      | some none => h.free node
      | some (some a) =>
          match h.free a with
          | none => none
          | some h => h.free node

mutual

/-- `be_free`. -/
def beFree : Nat → BeHeap → Nat → Option BeHeap
  | 0, _, _ => none
  | fuel + 1, h, node =>
      match record h node with
      | none => none
      | some (.str s) =>
          match beFreeStr h s with
          | none => none
          | some h => h.free node
      | some (.int _) => h.free node
      | some (.list _) =>
          match freeListLoop fuel h node 0 with
          | none => none
          | some h => freeContainer h node
      | some (.dict _) =>
          match freeDictLoop fuel h node 0 with
          | none => none
          | some h => freeContainer h node

def freeListLoop : Nat → BeHeap → Nat → Nat → Option BeHeap
  | 0, _, _, _ => none
  | fuel + 1, h, node, i =>
      match getWord h node i with
      | none => none
      | some none => some h
      | some (some p) =>
          match beFree fuel h p with
          | none => none
          | some h => freeListLoop fuel h node (i + 1)

def freeDictLoop : Nat → BeHeap → Nat → Nat → Option BeHeap
  | 0, _, _, _ => none
  | fuel + 1, h, node, i =>
      match getWord h node (2 * i + 1) with
      | none => none
      | some none => some h
      | some (some val) =>
          match getWord h node (2 * i) with
          | none => none
          | some key =>
              match beFreeStr h key with
              | none => none
              | some h =>
                  match beFree fuel h val with
                  | none => none
                  | some h => freeDictLoop fuel h node (i + 1)

end

/-! ## What it comes to -/

/-- Entries that have no blocks. -/
def dictEmpty (d : List Entry) : Bool := d.all fun e => e.1.isNone && e.2.isNone

mutual

/-- Nothing hangs on an entry from the first NULL on. -/
def Node.tidy : Node → Bool
  | .str _ => true
  | .int _ => true
  | .list l => listTidy l
  | .dict d => dictTidy d

def listTidy : List Node → Bool
  | [] => true
  | node :: l => node.tidy && listTidy l

def dictTidy : List Entry → Bool
  | [] => true
  | (key, none) :: d => key.isNone && dictEmpty d
  | (_, some node) :: d => node.tidy && dictTidy d

end

theorem HoldsDict.empty_iff {h : BeHeap} : ∀ {d : List Entry} {ws : List (Option Nat × Option Nat)}
    {own : Finset Nat}, HoldsDict h ws d own → (own = ∅ ↔ dictEmpty d = true) := by
  intro d
  induction d with
  | nil =>
      intro ws own hd
      rcases ws with _ | ⟨⟨k, _ | v⟩, ws⟩
      · exact iff_of_true hd rfl
      · exact hd.elim
      · exact hd.elim
  | cons e d ih =>
      intro ws own hd
      obtain ⟨key, val⟩ := e
      rcases ws with _ | ⟨⟨k, _ | v⟩, ws⟩ <;> rcases val with _ | node
      · exact hd.elim
      · exact hd.elim
      · obtain ⟨o₁, o₂, hkey, hd, -, rfl⟩ := hd
        rw [Finset.union_eq_empty, hkey.empty_iff, ih hd]
        simp [dictEmpty]
      · exact hd.elim
      · exact hd.elim
      · obtain ⟨o₁, o₂, o₃, -, hnode, -, -, -, rfl⟩ := hd
        refine iff_of_false ?_ (by simp [dictEmpty])
        intro hempty
        have hmem : v ∈ o₁ ∪ o₂ ∪ o₃ := by simp [hnode.self_mem]
        rw [hempty] at hmem
        exact absurd hmem (by simp)

theorem beFreeStr_holds {h : BeHeap} {p : Option Nat} {s : Option (List Byte)} {own : Finset Nat}
    (hold : HoldsStr h p s own) : ∃ h', beFreeStr h p = some h' ∧ h.Drops h' own := by
  rcases p with _ | a <;> rcases s with _ | s
  · rw [HoldsStr] at hold
    exact ⟨h, rfl, hold ▸ .rfl⟩
  · exact hold.elim
  · exact hold.elim
  · obtain ⟨ha, rfl⟩ := hold
    exact Heap.Blocks.Drops.free ha

/-- Once the items are freed, so are the array and the node. -/
theorem freeContainer_drops {mk : Option Nat → Rec} (hmk : Rec.Container mk) {h : BeHeap}
    {node a : Nat} {words : List Word} (hnode : h.get node = some (.node (mk (some a))))
    (harray : h.get a = some (.array words)) :
    ∃ h', freeContainer h node = some h' ∧ h.Drops h' {a, node} := by
  have hne : node ≠ a := by
    rintro rfl
    rw [hnode] at harray
    cases harray
  obtain ⟨h₁, hfree₁, hdrop₁⟩ := Heap.Blocks.Drops.free harray
  have hnode₁ : h₁.get node = some (.node (mk (some a))) := by
    rw [hdrop₁.kept node (by simpa using hne), hnode]
  obtain ⟨h₂, hfree₂, hdrop₂⟩ := Heap.Blocks.Drops.free hnode₁
  refine ⟨h₂, ?_, hdrop₁.trans hdrop₂⟩
  simp only [freeContainer, record, hnode, (hmk (some a)).1, hfree₁, hfree₂]

/-- What is freed of a container. -/
theorem insert_gone_iff {gone own : Finset Nat} {p a : Nat} (hsub : gone ⊆ own) (hp : p ∉ own)
    (ha : a ∉ own) : gone ∪ {a, p} = insert p (insert a own) ↔ gone = own := by
  rw [show gone ∪ {a, p} = insert p (insert a gone) by ext x; simp; tauto]
  exact insert_eq_insert_iff hsub hp ha

/-- The two words of an entry. -/
theorem getWord_val {h : BeHeap} {p a : Nat} {done : List (Option Nat × Option Nat)}
    {key : Word} {val : Option Nat} {tail : List Word}
    (hp : h.get p = some (.node (.dict (some a))))
    (ha : h.get a = some (.array (entryWords done ++ key :: .ptr val :: tail))) :
    getWord h p (2 * done.length + 1) = some val := by
  simp [getWord, arrayOf_some container_dict hp ha, ← length_entryWords]

theorem getWord_key {h : BeHeap} {p a : Nat} {done : List (Option Nat × Option Nat)}
    {key : Option Nat} {tail : List Word} (hp : h.get p = some (.node (.dict (some a))))
    (ha : h.get a = some (.array (entryWords done ++ .ptr key :: tail))) :
    getWord h p (2 * done.length) = some key := by
  simp [getWord, arrayOf_some container_dict hp ha, ← length_entryWords]

-- by recursion on the tree: a node costs its loop, a loop costs one round more
-- than it has items
mutual

/-- Some of the blocks of a tree are freed, all of them if it is tidy. -/
theorem Holds.beFree {h : BeHeap} : ∀ {node : Node} {p : Nat} {own : Finset Nat} {fuel : Nat},
    Holds h p node own → 2 * node.weight ≤ fuel →
    ∃ h' gone, Bencode.beFree fuel h p = some h' ∧ h.Drops h' gone ∧ gone ⊆ own ∧
      (gone = own ↔ node.tidy = true)
  | .str s, p, own, fuel, hold, hfuel => by
      have hpos := (Node.str s).weight_pos
      obtain ⟨fuel, rfl⟩ : ∃ f, fuel = f + 1 := ⟨fuel - 1, by omega⟩
      rw [Holds] at hold
      obtain ⟨q, o, hp, hs, hnot, rfl⟩ := hold
      obtain ⟨h₁, hfree₁, hdrop₁⟩ := beFreeStr_holds hs
      obtain ⟨h₂, hfree₂, hdrop₂⟩ := Heap.Blocks.Drops.free ((hdrop₁.kept p hnot).trans hp)
      refine ⟨h₂, o ∪ {p}, ?_, hdrop₁.trans hdrop₂, ?_, ?_⟩
      · simp only [Bencode.beFree, record, hp, hfree₁, hfree₂]
      · rw [Finset.union_comm, ← Finset.insert_eq]
      · rw [Finset.union_comm, ← Finset.insert_eq]
        simp [Node.tidy]
  | .int i, p, own, fuel, hold, hfuel => by
      have hpos := (Node.int i).weight_pos
      obtain ⟨fuel, rfl⟩ : ∃ f, fuel = f + 1 := ⟨fuel - 1, by omega⟩
      rw [Holds] at hold
      obtain ⟨hp, rfl⟩ := hold
      obtain ⟨h₁, hfree₁, hdrop₁⟩ := Heap.Blocks.Drops.free hp
      refine ⟨h₁, {p}, ?_, hdrop₁, Finset.Subset.refl _, by simp [Node.tidy]⟩
      simp only [Bencode.beFree, record, hp, hfree₁]
  | .list l, p, own, fuel, hold, hfuel => by
      rw [Node.weight] at hfuel
      obtain ⟨fuel, rfl⟩ : ∃ f, fuel = f + 1 := ⟨fuel - 1, by omega⟩
      rw [Holds] at hold
      obtain ⟨a, as, tail, o, hp, ha, hl, hpo, hao, rfl⟩ := hold
      have hless : 2 * listWeight l < fuel := by omega
      obtain ⟨h₁, gone, hfree₁, hdrop₁, hsub, htidy⟩ :=
        @HoldsList.freeListLoop l h p a [] as tail o fuel hp ha hl hpo hao hless
      have hp₁ := (hdrop₁.kept p (fun hmem => hpo (hsub hmem))).trans hp
      have ha₁ := (hdrop₁.kept a (fun hmem => hao (hsub hmem))).trans ha
      obtain ⟨h₂, hfree₂, hdrop₂⟩ := freeContainer_drops container_list hp₁ ha₁
      rw [List.length_nil] at hfree₁
      refine ⟨h₂, gone ∪ {a, p}, ?_, hdrop₁.trans hdrop₂, ?_, ?_⟩
      · simp only [Bencode.beFree, record, hp, hfree₁, hfree₂]
      · intro x hx
        have hx := Finset.mem_union.mp hx
        simp only [Finset.mem_insert, Finset.mem_singleton] at hx ⊢
        rcases hx with hx | hx | hx
        · exact .inr (.inr (hsub hx))
        · exact .inr (.inl hx)
        · exact .inl hx
      · rw [insert_gone_iff hsub hpo hao, htidy, Node.tidy]
  | .dict d, p, own, fuel, hold, hfuel => by
      rw [Node.weight] at hfuel
      obtain ⟨fuel, rfl⟩ : ∃ f, fuel = f + 1 := ⟨fuel - 1, by omega⟩
      rw [Holds] at hold
      obtain ⟨a, ws, key, tail, o, hp, ha, hd, hpo, hao, rfl⟩ := hold
      have hless : 2 * dictWeight d < fuel := by omega
      obtain ⟨h₁, gone, hfree₁, hdrop₁, hsub, htidy⟩ :=
        @HoldsDict.freeDictLoop d h p a [] ws key tail o fuel hp ha hd hpo hao hless
      have hp₁ := (hdrop₁.kept p (fun hmem => hpo (hsub hmem))).trans hp
      have ha₁ := (hdrop₁.kept a (fun hmem => hao (hsub hmem))).trans ha
      obtain ⟨h₂, hfree₂, hdrop₂⟩ := freeContainer_drops container_dict hp₁ ha₁
      rw [List.length_nil] at hfree₁
      refine ⟨h₂, gone ∪ {a, p}, ?_, hdrop₁.trans hdrop₂, ?_, ?_⟩
      · simp only [Bencode.beFree, record, hp, hfree₁, hfree₂]
      · intro x hx
        have hx := Finset.mem_union.mp hx
        simp only [Finset.mem_insert, Finset.mem_singleton] at hx ⊢
        rcases hx with hx | hx | hx
        · exact .inr (.inr (hsub hx))
        · exact .inr (.inl hx)
        · exact .inl hx
      · rw [insert_gone_iff hsub hpo hao, htidy, Node.tidy]

theorem HoldsList.freeListLoop : ∀ {l : List Node} {h : BeHeap} {p a : Nat} {done : List Word}
    {as : List Nat} {tail : List Word} {own : Finset Nat} {fuel : Nat},
    h.get p = some (.node (.list (some a))) →
    h.get a = some (.array (done ++ (as.map (fun x => .ptr (some x)) ++ .ptr none :: tail))) →
    HoldsList h as l own → p ∉ own → a ∉ own → 2 * listWeight l < fuel →
    ∃ h' gone, Bencode.freeListLoop fuel h p done.length = some h' ∧ h.Drops h' gone ∧
      gone ⊆ own ∧ (gone = own ↔ listTidy l = true)
  | [], h, p, a, done, as, tail, own, fuel, hp, ha, hl, _, _, hfuel => by
      obtain ⟨fuel, rfl⟩ : ∃ f, fuel = f + 1 := ⟨fuel - 1, by omega⟩
      cases as with
      | cons b as => exact hl.elim
      | nil =>
          rw [HoldsList] at hl
          subst hl
          refine ⟨h, ∅, ?_, .rfl, Finset.Subset.refl _, by simp [listTidy]⟩
          simp [Bencode.freeListLoop, getWord, arrayOf_some container_list hp ha]
  | node :: l, h, p, a, done, as, tail, own, fuel, hp, ha, hl, hpo, hao, hfuel => by
      rw [listWeight] at hfuel
      have hpos := node.weight_pos
      obtain ⟨fuel, rfl⟩ : ∃ f, fuel = f + 1 := ⟨fuel - 1, by omega⟩
      cases as with
      | nil => exact hl.elim
      | cons b as =>
          rw [HoldsList] at hl
          obtain ⟨o₁, o₂, hnode, hl, hdis, rfl⟩ := hl
          rw [Finset.notMem_union] at hpo hao
          have henough : 2 * node.weight ≤ fuel := by omega
          obtain ⟨h₁, gone₁, hfree₁, hdrop₁, hsub₁, htidy₁⟩ := hnode.beFree henough
          have hkept : ∀ x, x ∉ o₁ → h₁.get x = h.get x :=
            fun x hx => hdrop₁.kept x (fun hmem => hx (hsub₁ hmem))
          have hl₁ : HoldsList h₁ as l o₂ :=
            hl.congr fun x hx => hkept x (Finset.disjoint_right.mp hdis hx)
          have hless : 2 * listWeight l < fuel := by omega
          obtain ⟨h₂, gone₂, hfree₂, hdrop₂, hsub₂, htidy₂⟩ :=
            @HoldsList.freeListLoop l h₁ p a (done ++ [.ptr (some b)]) as tail o₂ fuel
              ((hkept p hpo.1).trans hp) (by rw [hkept a hao.1, ha]; simp) hl₁ hpo.2 hao.2 hless
          refine ⟨h₂, gone₁ ∪ gone₂, ?_, hdrop₁.trans hdrop₂,
            Finset.union_subset_union hsub₁ hsub₂, ?_⟩
          · have hload : getWord h p done.length = some (some b) := by
              simp [getWord, arrayOf_some container_list hp ha]
            rw [List.length_append, List.length_singleton] at hfree₂
            rw [Bencode.freeListLoop, hload]
            dsimp only
            rw [hfree₁]
            exact hfree₂
          · rw [union_eq_union_iff hsub₁ hsub₂ hdis, htidy₁, htidy₂, listTidy, Bool.and_eq_true]

theorem HoldsDict.freeDictLoop : ∀ {d : List Entry} {h : BeHeap} {p a : Nat}
    {done : List (Option Nat × Option Nat)} {ws : List (Option Nat × Option Nat)} {key : Word}
    {tail : List Word} {own : Finset Nat} {fuel : Nat},
    h.get p = some (.node (.dict (some a))) →
    h.get a = some (.array (entryWords done ++ (entryWords ws ++ key :: .ptr none :: tail))) →
    HoldsDict h ws d own → p ∉ own → a ∉ own → 2 * dictWeight d < fuel →
    ∃ h' gone, Bencode.freeDictLoop fuel h p done.length = some h' ∧ h.Drops h' gone ∧
      gone ⊆ own ∧ (gone = own ↔ dictTidy d = true)
  | [], h, p, a, done, ws, key, tail, own, fuel, hp, ha, hd, _, _, hfuel => by
      obtain ⟨fuel, rfl⟩ : ∃ f, fuel = f + 1 := ⟨fuel - 1, by omega⟩
      rcases ws with _ | ⟨⟨k, _ | v⟩, ws⟩
      · rw [HoldsDict] at hd
        subst hd
        refine ⟨h, ∅, ?_, .rfl, Finset.Subset.refl _, by simp [dictTidy]⟩
        rw [Bencode.freeDictLoop, getWord_val hp ha]
      · exact hd.elim
      · exact hd.elim
  | (s, none) :: d, h, p, a, done, ws, key, tail, own, fuel, hp, ha, hd, hpo, hao, hfuel => by
      obtain ⟨fuel, rfl⟩ : ∃ f, fuel = f + 1 := ⟨fuel - 1, by omega⟩
      rcases ws with _ | ⟨⟨k, _ | v⟩, ws⟩
      · exact hd.elim
      · have hall := hd.empty_iff
        refine ⟨h, ∅, ?_, .rfl, Finset.empty_subset _, ?_⟩
        · rw [Bencode.freeDictLoop, getWord_val hp ha]
        · rw [eq_comm, hall]
          simp [dictEmpty, dictTidy]
      · exact hd.elim
  | (s, some node) :: d, h, p, a, done, ws, key, tail, own, fuel, hp, ha, hd, hpo, hao, hfuel => by
      have hpos := node.weight_pos
      have hweight : node.weight + dictWeight d ≤ dictWeight ((s, some node) :: d) := by
        cases s <;> simp only [dictWeight] <;> omega
      obtain ⟨fuel, rfl⟩ : ∃ f, fuel = f + 1 := ⟨fuel - 1, by omega⟩
      rcases ws with _ | ⟨⟨k, _ | v⟩, ws⟩
      · exact hd.elim
      · exact hd.elim
      · rw [HoldsDict] at hd
        obtain ⟨o₁, o₂, o₃, hkey, hnode, hd, hdis, hdis', rfl⟩ := hd
        rw [Finset.notMem_union, Finset.notMem_union] at hpo hao
        obtain ⟨h₁, hfree₁, hdrop₁⟩ := beFreeStr_holds hkey
        have hnode₁ := hnode.congr fun x hx =>
          hdrop₁.kept x (Finset.disjoint_right.mp hdis hx)
        have henough : 2 * node.weight ≤ fuel := by omega
        obtain ⟨h₂, gone₂, hfree₂, hdrop₂, hsub₂, htidy₂⟩ := hnode₁.beFree henough
        have hkept : ∀ x, x ∉ o₁ → x ∉ o₂ → h₂.get x = h.get x := by
          intro x hx₁ hx₂
          rw [hdrop₂.kept x (fun hmem => hx₂ (hsub₂ hmem)), hdrop₁.kept x hx₁]
        have hapart := Finset.disjoint_union_left.mp hdis'
        have hd₂ := hd.congr fun x hx => hkept x (Finset.disjoint_right.mp hapart.1 hx)
          (Finset.disjoint_right.mp hapart.2 hx)
        have hless : 2 * dictWeight d < fuel := by omega
        obtain ⟨h₃, gone₃, hfree₃, hdrop₃, hsub₃, htidy₃⟩ :=
          @HoldsDict.freeDictLoop d h₂ p a (done ++ [(k, some v)]) ws key tail o₃ fuel
            ((hkept p hpo.1.1 hpo.1.2).trans hp)
            (by rw [hkept a hao.1.1 hao.1.2, ha]; simp [entryWords]) hd₂ hpo.2 hao.2 hless
        refine ⟨h₃, o₁ ∪ gone₂ ∪ gone₃, ?_, (hdrop₁.trans hdrop₂).trans hdrop₃,
          Finset.union_subset_union (Finset.union_subset_union (Finset.Subset.refl _) hsub₂) hsub₃,
          ?_⟩
        · rw [List.length_append, List.length_singleton] at hfree₃
          rw [Bencode.freeDictLoop, getWord_val hp ha, getWord_key hp ha]
          dsimp only
          rw [hfree₁]
          dsimp only
          rw [hfree₂]
          exact hfree₃
        · rw [union_eq_union_iff (Finset.union_subset_union (Finset.Subset.refl _) hsub₂) hsub₃
            hdis', union_eq_union_iff (Finset.Subset.refl _) hsub₂ hdis, htidy₂, htidy₃, dictTidy,
            Bool.and_eq_true]
          simp

end

/-! ## Decoding and freeing -/

/-- A tree of the decoder, in memory and freed. -/
theorem decoded_freed {fuel : Nat} (h : BeHeap) {data : List Byte} {len : Int} {node : Node}
    {c : Cursor} (hdec : beDecoden fuel data len = some (some node, c)) :
    ∃ p h₁ own, beDecodenMem fuel h data len = some (some p, h₁, c) ∧ Holds h₁ p node own ∧
      ∀ fuel', 2 * node.weight ≤ fuel' → ∃ h₂ new gone, beFree fuel' h₁ p = some h₂ ∧
        h.Adds h₁ new ∧ h₁.Drops h₂ gone ∧ gone ⊆ new ∧
        (gone = new ↔ keepsBlocks fuel { data := data, dataLen := len } = true ∧
          node.tidy = true) := by
  have href := (allRefine fuel).decode h { data := data, dataLen := len }
  have hdec' : beDecode fuel { data := data, dataLen := len } = some (some node, c) := hdec
  rw [hdec'] at href
  obtain ⟨p, h₁, own, new, hans, hadd, hhold, hsub, hkeeps⟩ := href
  cases p with
  | none => exact hhold.elim
  | some p =>
      refine ⟨p, h₁, own, hans, hhold, ?_⟩
      intro fuel' hfuel
      obtain ⟨h₂, gone, hfree, hdrop, hgone, htidy⟩ := Holds.beFree hhold hfuel
      refine ⟨h₂, new, gone, hfree, hadd, hdrop, hgone.trans hsub, ?_⟩
      rw [← hkeeps, ← htidy]
      constructor
      · rintro rfl
        have heq := Finset.Subset.antisymm hsub hgone
        exact ⟨heq, heq.symm⟩
      · rintro ⟨rfl, rfl⟩
        rfl

/-- **`be_free` is safe.** Whatever the text was, a tree the decoder answers
is freed without a fault: no block is freed twice or read after it was freed.
The blocks that were there before the text was decoded are as they were. -/
theorem beFree_decoded {fuel : Nat} (h : BeHeap) {data : List Byte} {len : Int} {node : Node}
    {c : Cursor} (hdec : beDecoden fuel data len = some (some node, c)) :
    ∃ p h₁, beDecodenMem fuel h data len = some (some p, h₁, c) ∧
      ∀ fuel', 2 * node.weight ≤ fuel' →
        ∃ h₂, beFree fuel' h₁ p = some h₂ ∧ ∀ a, a < h.next → h₂.get a = h.get a := by
  obtain ⟨p, h₁, own, hans, -, hall⟩ := decoded_freed h hdec
  refine ⟨p, h₁, hans, ?_⟩
  intro fuel' hfuel
  obtain ⟨h₂, new, gone, hfree, hadd, hdrop, hsub, -⟩ := hall fuel' hfuel
  refine ⟨h₂, hfree, ?_⟩
  intro a ha
  have hold : a ∉ new := fun hmem => absurd (hadd.young a hmem) (Nat.not_le_of_lt ha)
  rw [hdrop.kept a (fun hmem => hold (hsub hmem)), hadd.old a hold]

/-- **What `be_free` gives back.** After it the heap is as it was before the
text was decoded exactly if the decoder kept a pointer to every block it
allocated and the tree is tidy. -/
theorem beFree_restores_iff {fuel : Nat} (h : BeHeap) {data : List Byte} {len : Int} {node : Node}
    {c : Cursor} (hdec : beDecoden fuel data len = some (some node, c)) :
    ∃ p h₁, beDecodenMem fuel h data len = some (some p, h₁, c) ∧
      ∀ fuel', 2 * node.weight ≤ fuel' → ∃ h₂, beFree fuel' h₁ p = some h₂ ∧
        (h₂.get = h.get ↔ keepsBlocks fuel { data := data, dataLen := len } = true ∧
          node.tidy = true) := by
  obtain ⟨p, h₁, own, hans, -, hall⟩ := decoded_freed h hdec
  refine ⟨p, h₁, hans, ?_⟩
  intro fuel' hfuel
  obtain ⟨h₂, new, gone, hfree, hadd, hdrop, hsub, hiff⟩ := hall fuel' hfuel
  exact ⟨h₂, hfree, (hadd.drops_iff hdrop hsub).trans hiff⟩

/-- A dictionary whose value is missing. -/
theorem beFree_decoded_novalue :
    ∃ p h₁, beDecodenMem 9 .empty (ascii "d1:ax") 5
        = some (some p, h₁, { data := [], dataLen := 0 }) ∧
      ∀ fuel', 2 * (Node.dict [(some (ascii "a"), none)]).weight ≤ fuel' →
        ∃ h₂, beFree fuel' h₁ p = some h₂ ∧
          ∀ a, a < (Heap.Blocks.empty : BeHeap).next → h₂.get a = Heap.Blocks.empty.get a := by
  have hdec : beDecoden 9 (ascii "d1:ax") 5
      = some (some (.dict [(some (ascii "a"), none)]), { data := [], dataLen := 0 }) := rfl
  exact beFree_decoded .empty hdec

/-- Its key stays allocated. -/
theorem beFree_restores_iff_novalue :
    ∃ p h₁, beDecodenMem 9 .empty (ascii "d1:ax") 5
        = some (some p, h₁, { data := [], dataLen := 0 }) ∧
      ∀ fuel', 2 * (Node.dict [(some (ascii "a"), none)]).weight ≤ fuel' →
        ∃ h₂, beFree fuel' h₁ p = some h₂ ∧
          (h₂.get = (Heap.Blocks.empty : BeHeap).get ↔
            keepsBlocks 9 { data := ascii "d1:ax", dataLen := 5 } = true ∧
              (Node.dict [(some (ascii "a"), none)]).tidy = true) := by
  have hdec : beDecoden 9 (ascii "d1:ax") 5
      = some (some (.dict [(some (ascii "a"), none)]), { data := [], dataLen := 0 }) := rfl
  exact beFree_restores_iff .empty hdec

example : (Node.dict [(some (ascii "a"), none)]).tidy = false := rfl

/-! ## Readable values -/

mutual

theorem Value.tidy_node : ∀ v : Value, v.node.tidy = true
  | .str _ => rfl
  | .int _ => rfl
  | .list vs => by rw [Value.node, Node.tidy, tidy_listNodes vs]
  | .dict es => by rw [Value.node, Node.tidy, tidy_dictEntries es]

theorem tidy_listNodes : ∀ vs : List Value, listTidy (listNodes vs) = true
  | [] => rfl
  | v :: vs => by rw [listNodes, listTidy, v.tidy_node, tidy_listNodes vs, Bool.and_true]

theorem tidy_dictEntries : ∀ es : List (List Byte × Value), dictTidy (dictEntries es) = true
  | [] => rfl
  | (key, v) :: es => by
      rw [dictEntries, dictTidy, v.tidy_node, tidy_dictEntries es, Bool.and_true]

end

theorem keepsBlocks_digit (fuel : Nat) {c : Cursor} {b : Byte} {t : List Byte}
    (hdata : c.data = b :: t) (hb : isDigit b = true) : keepsBlocks fuel c = true := by
  have hne : ∀ {x : Byte}, isDigit x = false → b ≠ x := by
    intro x hx heq
    rw [heq, hx] at hb
    cases hb
  cases fuel with
  | zero => rw [keepsBlocks]
  | succ fuel =>
      rw [keepsBlocks, hdata]
      dsimp only
      rw [if_neg (hne (x := 108#8) (by decide)), if_neg (hne (x := 100#8) (by decide)),
        if_neg (hne (x := 105#8) (by decide)), ite_self]

-- by recursion on the value, as for the decoder's answer
mutual

theorem keepsBlocks_text : ∀ (v : Value), v.Readable → ∀ (fuel : Nat) (rest : List Byte)
    (len : Int), v.text.length ≤ fuel → (v.text.length : Int) ≤ len →
    keepsBlocks fuel ⟨v.text ++ rest, len⟩ = true
  | .str s, _, fuel, rest, len, _, _ => by
      obtain ⟨b, t, hs, hb⟩ := strText_head s
      exact keepsBlocks_digit (t := t ++ rest) fuel (by rw [Value.text, hs]; rfl) hb
  | .int n, hv, fuel, rest, len, hfuel, hlen => by
      have hpos := (Value.int n).length_text_pos
      rw [Value.Readable] at hv
      obtain ⟨fuel, rfl⟩ : ∃ f, fuel = f + 1 := ⟨fuel - 1, by omega⟩
      have htext : intText n ++ rest = 105#8 :: (signedDecimal n ++ 101#8 :: rest) := by
        simp [intText]
      rw [keepsBlocks, Value.text, htext]
      dsimp only [Cursor.next]
      rw [if_neg (by decide : ¬ (105#8 : Byte) = 108#8),
        if_neg (by decide : ¬ (105#8 : Byte) = 100#8), if_pos rfl, List.drop_one, List.tail_cons,
        beDecodeInt_text hv.1 hv.2 (by decide)]
      simp
  | .list vs, hv, fuel, rest, len, hfuel, hlen => by
      rw [Value.Readable] at hv
      rw [Value.text, List.length_cons, List.length_append, List.length_singleton] at hfuel hlen
      obtain ⟨fuel, rfl⟩ : ∃ f, fuel = f + 1 := ⟨fuel - 1, by omega⟩
      push_cast at hlen
      have hloop := listKeeps_text vs hv.2 fuel rest (len - 1) (by omega) (by omega)
      have htext : (Value.list vs).text ++ rest = 108#8 :: (listText vs ++ 101#8 :: rest) := by
        simp [Value.text]
      rw [keepsBlocks, htext]
      dsimp only [Cursor.next]
      rw [if_pos rfl, List.drop_one, List.tail_cons, hloop, ite_self]
  | .dict es, hv, fuel, rest, len, hfuel, hlen => by
      rw [Value.Readable] at hv
      rw [Value.text, List.length_cons, List.length_append, List.length_singleton] at hfuel hlen
      obtain ⟨fuel, rfl⟩ : ∃ f, fuel = f + 1 := ⟨fuel - 1, by omega⟩
      push_cast at hlen
      have hloop := dictKeeps_text es hv.2 fuel [] rest (len - 1) (by omega) (by omega)
        (by intro e he; cases he)
      have htext : (Value.dict es).text ++ rest = 100#8 :: (dictText es ++ 101#8 :: rest) := by
        simp [Value.text]
      rw [keepsBlocks, htext]
      dsimp only [Cursor.next]
      rw [if_neg (by decide : ¬ (100#8 : Byte) = 108#8), if_pos rfl, List.drop_one,
        List.tail_cons, hloop, ite_self]

theorem listKeeps_text : ∀ (vs : List Value), ReadableList vs →
    ∀ (fuel : Nat) (rest : List Byte) (len : Int),
    (listText vs).length < fuel → ((listText vs).length : Int) ≤ len →
    listKeeps fuel ⟨listText vs ++ 101#8 :: rest, len⟩ = true
  | [], _, fuel, rest, len, hfuel, _ => by
      obtain ⟨fuel, rfl⟩ : ∃ f, fuel = f + 1 := ⟨fuel - 1, by omega⟩
      simp [listKeeps, listText]
  | v :: vs, hv, fuel, rest, len, hfuel, hlen => by
      rw [ReadableList] at hv
      rw [listText, List.length_append] at hfuel hlen
      obtain ⟨b, t, htext, hb⟩ := v.text_head
      have hpos := v.length_text_pos
      obtain ⟨fuel, rfl⟩ : ∃ f, fuel = f + 1 := ⟨fuel - 1, by omega⟩
      push_cast at hlen
      have hdec := beDecode_text v hv.1 fuel (listText vs ++ 101#8 :: rest) len (by omega)
        (by omega)
      have hkeep := keepsBlocks_text v hv.1 fuel (listText vs ++ 101#8 :: rest) len (by omega)
        (by omega)
      have hrest := listKeeps_text vs hv.2 fuel rest (len - v.text.length) (by omega) (by omega)
      have hhead : (v.text ++ (listText vs ++ 101#8 :: rest)).head? ≠ some 101#8 := by
        rw [htext]
        simpa using hb
      rw [listKeeps, listText, List.append_assoc, if_neg hhead, hdec]
      dsimp only
      rw [hkeep, hrest, Bool.and_true]

theorem dictKeeps_text : ∀ (es : List (List Byte × Value)), ReadableDict es →
    ∀ (fuel : Nat) (d : List Entry) (rest : List Byte) (len : Int),
    (dictText es).length < fuel → ((dictText es).length : Int) ≤ len →
    (∀ e ∈ d, e.1.isSome ∧ e.2.isSome) →
    dictKeeps fuel d ⟨dictText es ++ 101#8 :: rest, len⟩ = true
  | [], _, fuel, d, rest, len, hfuel, _, _ => by
      obtain ⟨fuel, rfl⟩ : ∃ f, fuel = f + 1 := ⟨fuel - 1, by omega⟩
      simp [dictKeeps, dictText]
  | (key, v) :: es, hv, fuel, d, rest, len, hfuel, hlen, hd => by
      rw [ReadableDict] at hv
      obtain ⟨hkeyLen, hval, hes⟩ := hv
      rw [dictText, List.length_append, List.length_append] at hfuel hlen
      push_cast at hlen
      obtain ⟨b, t, htext, hb⟩ := (Value.str key).text_head
      rw [Value.text] at htext
      have hpos := v.length_text_pos
      obtain ⟨fuel, rfl⟩ : ∃ f, fuel = f + 1 := ⟨fuel - 1, by omega⟩
      have hkey := beDecodeStr_text hkeyLen (v.text ++ (dictText es ++ 101#8 :: rest)) len
        (by omega)
      have hdec := beDecode_text v hval fuel (dictText es ++ 101#8 :: rest)
        (len - (strText key).length) (by omega) (by omega)
      have hkeep := keepsBlocks_text v hval fuel (dictText es ++ 101#8 :: rest)
        (len - (strText key).length) (by omega) (by omega)
      have hset : ∀ e ∈ d ++ [(some key, some v.node)], e.1.isSome ∧ e.2.isSome := by
        intro e he
        rcases List.mem_append.mp he with he | he
        · exact hd e he
        · rw [List.mem_singleton.mp he]
          exact ⟨rfl, rfl⟩
      have hword : wordSet (d ++ [(some key, some v.node)]) d.length = true := by
        apply wordSet_of_set hset
        rw [List.length_append, List.length_singleton]
        omega
      have hrest := dictKeeps_text es hes fuel (d ++ [(some key, some v.node)]) rest
        (len - (strText key).length - v.text.length) (by omega) (by omega) hset
      have hhead : (strText key ++ (v.text ++ (dictText es ++ 101#8 :: rest))).head?
          ≠ some 101#8 := by
        rw [htext]
        simpa using hb
      rw [dictKeeps, dictText, List.append_assoc, List.append_assoc, if_neg hhead, hkey]
      dsimp only
      rw [hdec]
      dsimp only
      rw [if_pos hword, hkeep, hrest, Bool.and_true]

end

/-- **A readable value leaks nothing.** Its text is decoded to its tree in
memory, the tree is freed, and every block is again what it was. -/
theorem beFree_text {v : Value} (hv : v.Readable) (h : BeHeap) (rest : List Byte) {fuel : Nat}
    {len : Int} (hfuel : v.text.length ≤ fuel) (hlen : (v.text.length : Int) ≤ len) :
    ∃ p h₁ own, beDecodenMem fuel h (v.text ++ rest) len
        = some (some p, h₁, { data := rest, dataLen := len - v.text.length }) ∧
      Holds h₁ p v.node own ∧
      ∀ fuel', 2 * v.node.weight ≤ fuel' → ∃ h₂, beFree fuel' h₁ p = some h₂ ∧ h₂.get = h.get := by
  have hdec : beDecoden fuel (v.text ++ rest) len
      = some (some v.node, { data := rest, dataLen := len - v.text.length }) :=
    beDecode_text v hv fuel rest len hfuel hlen
  obtain ⟨p, h₁, own, hans, hhold, hall⟩ := decoded_freed h hdec
  refine ⟨p, h₁, own, hans, hhold, ?_⟩
  intro fuel' hfuel'
  obtain ⟨h₂, new, gone, hfree, hadd, hdrop, hsub, hiff⟩ := hall fuel' hfuel'
  refine ⟨h₂, hfree, (hadd.drops_iff hdrop hsub).mpr (hiff.mpr ⟨?_, v.tidy_node⟩)⟩
  exact keepsBlocks_text v hv fuel rest len hfuel hlen

/-- A dictionary with a list in it. -/
theorem beFree_text_dict :
    ∃ p h₁ own, beDecodenMem 20 .empty
        ((Value.dict [(ascii "a", .list [.int 5, .str []])]).text ++ [0#8]) 20
        = some (some p, h₁, { data := [0#8], dataLen := 20 - 12 }) ∧
      Holds h₁ p (Value.dict [(ascii "a", .list [.int 5, .str []])]).node own ∧
      ∀ fuel', 2 * (Value.dict [(ascii "a", .list [.int 5, .str []])]).node.weight ≤ fuel' →
        ∃ h₂, beFree fuel' h₁ p = some h₂ ∧ h₂.get = (Heap.Blocks.empty : BeHeap).get := by
  have hreadable : (Value.dict [(ascii "a", .list [.int 5, .str []])]).Readable := by
    simp [Value.Readable, ReadableDict, ReadableList, llongMin, llongMax, ascii]
  exact beFree_text hreadable .empty [0#8] (by decide) (by decide)

end DubstepDucks.Bencode
