import DubstepDucks.Bencode.Construction

/-!
# Bencode — what the decoder leaves in memory

The decoder of `bencode.c` with its memory against the decoder of trees. The
main result is `beDecodenMem_refines`: on every input the decoder with its
memory answers where the decoder of trees does, without a fault of its own,
and what it leaves in new blocks is that tree.

It says as well when a new block belongs to no part of the tree
(`keepsBlocks`): nothing can free such a block any more.
-/

namespace DubstepDucks.Bencode

open CMem

variable {h₀ h : BeHeap} {ret : Nat}

/-! ## What is lost -/

mutual

/-- Whether a pointer is kept to every block a call allocates. It is not to
the node of an integer without its `e`. -/
def keepsBlocks : Nat → Cursor → Bool
  | 0, _ => true
  | fuel + 1, c =>
      if c.dataLen = 0 then true
      else
        match c.data with
        | [] => true
        | b :: _ =>
            if b = 108#8 then listKeeps fuel c.next
            else if b = 100#8 then dictKeeps fuel [] c.next
            else if b = 105#8 then
              match beDecodeInt c.next with
              | none => true
              | some (_, c) => decide (c.data.head? = some 101#8)
            else true

def listKeeps : Nat → Cursor → Bool
  | 0, _ => true
  | fuel + 1, c =>
      if c.data.head? = some 101#8 then true
      else
        match beDecode fuel c with
        | some (some _, c') => keepsBlocks fuel c && listKeeps fuel c'
        | _ => keepsBlocks fuel c

/-- Nor to the key and the value of the entry that ends a dictionary before
its `e`. -/
def dictKeeps : Nat → List Entry → Cursor → Bool
  | 0, _, _ => true
  | fuel + 1, d, c =>
      if c.data.head? = some 101#8 then true
      else
        match beDecodeStr c with
        | none => true
        | some (key, c) =>
            match beDecode fuel c with
            | none => true
            | some (val, c') =>
                if wordSet (d ++ [(key, val)]) d.length then
                  keepsBlocks fuel c && dictKeeps fuel (d ++ [(key, val)]) c'
                else keepsBlocks fuel c && (key.isNone && val.isNone)

end

/-! ## The refinement -/

/-- What an answer of the decoder of trees is in memory: new blocks, of which
`own` are the tree. -/
def Refines (h : BeHeap) (keeps : Bool) :
    Option (Option Node × Cursor) → Option (Option Nat × BeHeap × Cursor) → Prop
  | none, answer => answer = none
  | some (node, c), answer => ∃ p h' own new, answer = some (p, h', c) ∧ h.Adds h' new ∧
      HoldsAnswer h' p node own ∧ own ⊆ new ∧ (own = new ↔ keeps = true)

/-- How a loop of the decoder ends: with room for the last NULL, except for
`bare`. -/
def Outcome {α β : Type} (y : Layout α β) (h₀ : BeHeap) (ret : Nat) (bare kept : Prop) :
    Option (List β × Cursor) → Option (Nat × BeHeap × Cursor) → Prop
  | none, answer => answer = none
  | some (l, c), answer => ∃ h as tail own rest, answer = some (as.length, h, c) ∧
      Filled y h₀ h ret as l tail own rest ∧ (tail.length < y.width → bare) ∧ (own = rest ↔ kept)

theorem Outcome.mono {α β : Type} {y : Layout α β} {bare bare' kept kept' : Prop}
    {pure : Option (List β × Cursor)} {answer : Option (Nat × BeHeap × Cursor)}
    (ho : Outcome y h₀ ret bare kept pure answer) (hbare : bare → bare') (hkept : kept ↔ kept') :
    Outcome y h₀ ret bare' kept' pure answer := by
  rcases pure with _ | ⟨l, c⟩
  · exact ho
  · obtain ⟨h, as, tail, own, rest, heq, hfill, htail, hown⟩ := ho
    exact ⟨h, as, tail, own, rest, heq, hfill, fun ht => hbare (htail ht), hown.trans hkept⟩

/-- Of two steps with different blocks each keeps all of its own. -/
theorem union_eq_union_iff {own rest o n : Finset Nat} (hsub : own ⊆ rest) (hsub' : o ⊆ n)
    (hdis : Disjoint rest n) : own ∪ o = rest ∪ n ↔ own = rest ∧ o = n := by
  constructor
  · intro heq
    constructor
    · apply Finset.Subset.antisymm hsub
      intro x hx
      have hmem : x ∈ own ∪ o := by
        rw [heq]
        exact Finset.mem_union_left _ hx
      exact (Finset.mem_union.mp hmem).resolve_right
        (fun hxo => Finset.disjoint_left.mp hdis hx (hsub' hxo))
    · apply Finset.Subset.antisymm hsub'
      intro x hx
      have hmem : x ∈ own ∪ o := by
        rw [heq]
        exact Finset.mem_union_right _ hx
      exact (Finset.mem_union.mp hmem).resolve_left
        (fun hxo => Finset.disjoint_left.mp hdis (hsub hxo) hx)
  · rintro ⟨rfl, rfl⟩
    rfl

/-- A byte string's block. -/
def copyStr (h : BeHeap) : Option (List Byte) → Option Nat × BeHeap
  | none => (none, h)
  | some s => (some h.next, (h.alloc (.str s.length s)).2)

theorem beDecodeStrMem_eq (h : BeHeap) (c : Cursor) :
    beDecodeStrMem h c
      = (beDecodeStr c).map fun r => ((copyStr h r.1).1, (copyStr h r.1).2, r.2) := by
  rw [beDecodeStrMem, beDecodeStr]
  cases beDecodeInt c with
  | none => rfl
  | some r =>
      obtain ⟨sllen, c⟩ := r
      dsimp only
      by_cases hneg : sllen < 0
      · rw [if_pos hneg, if_pos hneg]
        rfl
      rw [if_neg hneg, if_neg hneg]
      by_cases hlen : c.dataLen - 1 < sllen
      · rw [if_pos hlen, if_pos hlen]
        rfl
      rw [if_neg hlen, if_neg hlen]
      cases c.data with
      | nil => rfl
      | cons b bytes =>
          dsimp only
          by_cases hcolon : b = 58#8
          · rw [if_pos hcolon, if_pos hcolon]
            by_cases hshort : bytes.length < sllen.toNat
            · rw [if_pos hshort, if_pos hshort]
              rfl
            · have hlength : ((bytes.take sllen.toNat).length : Int) = sllen := by
                rw [List.length_take]
                omega
              rw [if_neg hshort, if_neg hshort, Option.map_some, copyStr, hlength]
              rfl
          · rw [if_neg hcolon, if_neg hcolon]
            rfl

/-- A byte string is one new block, or NULL and none. -/
theorem copyStr_holds (h : BeHeap) (s : Option (List Byte)) :
    ∃ own, h.Adds (copyStr h s).2 own ∧ HoldsStr (copyStr h s).2 (copyStr h s).1 s own := by
  cases s with
  | none => exact ⟨∅, .rfl, rfl⟩
  | some s => exact ⟨{h.next}, Heap.Blocks.Adds.alloc h _, Heap.Blocks.alloc_get_self h _, rfl⟩

theorem beDecodeStrMem_none (h : BeHeap) {c : Cursor} (hc : beDecodeStr c = none) :
    beDecodeStrMem h c = none := by
  rw [beDecodeStrMem_eq, hc]
  rfl

theorem beDecodeStrMem_some (h : BeHeap) {c c' : Cursor} {s : Option (List Byte)}
    (hc : beDecodeStr c = some (s, c')) :
    ∃ p h' own, beDecodeStrMem h c = some (p, h', c') ∧ h.Adds h' own ∧ HoldsStr h' p s own := by
  obtain ⟨own, hadd, hold⟩ := copyStr_holds h s
  exact ⟨_, _, own, by rw [beDecodeStrMem_eq, hc]; rfl, hadd, hold⟩

/-- An entry without a pointer to it is kept if it has no blocks. -/
theorem lost_iff {own rest o₁ o₂ n : Finset Nat} (hsub : own ⊆ rest) (hsub' : o₂ ⊆ n)
    (hdis : Disjoint rest (o₁ ∪ n)) :
    own = rest ∪ (o₁ ∪ n) ↔ own = rest ∧ o₁ = ∅ ∧ o₂ = ∅ ∧ o₂ = n := by
  have hiff := union_eq_union_iff hsub (Finset.empty_subset _) hdis
  rw [Finset.union_empty] at hiff
  rw [hiff]
  refine and_congr_right fun _ => ?_
  rw [eq_comm, Finset.union_eq_empty]
  refine and_congr_right fun _ => ?_
  constructor
  · rintro rfl
    have hempty := Finset.subset_empty.mp hsub'
    exact ⟨hempty, hempty⟩
  · rintro ⟨rfl, rfl⟩
    rfl

/-- The three promises for one amount of fuel. -/
structure AllRefine (fuel : Nat) : Prop where
  decode : ∀ (h : BeHeap) (c : Cursor),
    Refines h (keepsBlocks fuel c) (beDecode fuel c) (beDecodeMem fuel h c)
  list : ∀ {h₀ h : BeHeap} {ret : Nat} {as : List Nat} {l : List Node} {tail : List Word}
    {own rest : Finset Nat} (c : Cursor), Filled listLayout h₀ h ret as l tail own rest →
    tail.length ≤ 1 →
    Outcome listLayout h₀ ret (tail.length < 1 ∧ c.data.head? = some 101#8)
      (own = rest ∧ listKeeps fuel c = true) (listLoop fuel l c)
      (listLoopMem fuel h ret as.length c)
  dict : ∀ {h₀ h : BeHeap} {ret : Nat} {ws : List (Option Nat × Option Nat)} {d : List Entry}
    {tail : List Word} {own rest : Finset Nat} (c : Cursor),
    Filled dictLayout h₀ h ret ws d tail own rest → tail.length ≤ 2 →
    Outcome dictLayout h₀ ret (tail.length < 2 ∧ c.data.head? = some 101#8)
      (own = rest ∧ dictKeeps fuel d c = true) (dictLoop fuel d c)
      (dictLoopMem fuel h ret ws.length c)

theorem AllRefine.list_succ {fuel : Nat} (ih : AllRefine fuel) {h₀ h : BeHeap} {ret : Nat}
    {as : List Nat} {l : List Node} {tail : List Word} {own rest : Finset Nat} (c : Cursor)
    (hfill : Filled listLayout h₀ h ret as l tail own rest) (htail : tail.length ≤ 1) :
    Outcome listLayout h₀ ret (tail.length < 1 ∧ c.data.head? = some 101#8)
      (own = rest ∧ listKeeps (fuel + 1) c = true) (listLoop (fuel + 1) l c)
      (listLoopMem (fuel + 1) h ret as.length c) := by
  cases hdata : c.data with
  | nil =>
      rw [listLoop_succ, listLoopMem, hdata]
      exact rfl
  | cons b t =>
      rw [listLoop_succ, listLoopMem, listKeeps, hdata, List.head?_cons]
      dsimp only
      by_cases hb : b = 101#8
      · rw [if_pos hb, if_pos hb, hb]
        exact ⟨h, as, tail, own, rest, rfl, hfill, fun hlt => ⟨hlt, rfl⟩, by simp⟩
      have hopen : ¬ some b = some 101#8 := by simpa using hb
      rw [if_neg hb, if_neg hb, if_neg hopen]
      obtain ⟨h₁, slack, hgrow, hslack, hfill₁⟩ := hfill.grow lawful_list htail
      obtain ⟨x, y, rfl⟩ := List.length_eq_two.mp hslack
      rw [show as.length + 2 = listLayout.width * (as.length + 2) from (Nat.one_mul _).symm, hgrow]
      dsimp only
      have hcall := ih.decode h₁ c
      cases hdec : beDecode fuel c with
      | none =>
          rw [hdec] at hcall
          rw [hcall]
          exact rfl
      | some r =>
          obtain ⟨node, c₁⟩ := r
          rw [hdec] at hcall
          obtain ⟨p, h₂, o, n, hans, hadd, hhold, hsub', hkept⟩ := hcall
          have hdis := hfill₁.building.disjoint hadd
          obtain ⟨h₃, hstore, hfill₃, hkeep₃⟩ :=
            (hfill₁.call lawful_list hadd).store lawful_list (j := 0) (by simp) p
          have hindex : listLayout.width * as.length + 0 = as.length := Nat.one_mul _
          rw [hindex] at hstore
          have hload : getWord h₃ ret as.length = some p :=
            hfill₃.building.load container_list (by simp [listLayout])
          have hhold₃ : HoldsAnswer h₃ p node o :=
            hhold.congr fun z hz => hkeep₃ z (Finset.mem_union_right _ (hsub' hz))
          have hown : own ∪ o = rest ∪ n ↔ own = rest ∧ keepsBlocks fuel c = true :=
            (union_eq_union_iff hfill.sub hsub' hdis).trans (and_congr_right fun _ => hkept)
          rw [hans]
          dsimp only
          rw [hstore]
          dsimp only
          rw [hload]
          rcases p with _ | p <;> rcases node with _ | node
          · dsimp only
            rw [HoldsAnswer] at hhold₃
            rw [hhold₃, Finset.union_empty] at hown
            exact ⟨h₃, as, [.ptr none, y], own, rest ∪ n, rfl, hfill₃,
              fun hlt => absurd hlt (by simp [listLayout]), hown⟩
          · exact hhold₃.elim
          · exact hhold₃.elim
          · have hfill₄ : Filled listLayout h₀ h₃ ret (as ++ [p]) (l ++ [node]) [y] (own ∪ o)
                (rest ∪ n) :=
              { building := by simpa [listLayout] using hfill₃.building
                holds := HoldsList.concat hfill₃.holds hhold₃ (Finset.disjoint_of_subset_left
                  hfill.sub (Finset.disjoint_of_subset_right hsub' hdis))
                sub := Finset.union_subset_union hfill.sub hsub' }
            have hnext := ih.list c₁ hfill₄ (by simp)
            rw [List.length_append, List.length_singleton] at hnext
            dsimp only
            refine hnext.mono (fun hlt => absurd hlt.1 (by simp)) ?_
            rw [hown, Bool.and_eq_true, and_assoc]

theorem AllRefine.dict_succ {fuel : Nat} (ih : AllRefine fuel) {h₀ h : BeHeap} {ret : Nat}
    {ws : List (Option Nat × Option Nat)} {d : List Entry} {tail : List Word}
    {own rest : Finset Nat} (c : Cursor) (hfill : Filled dictLayout h₀ h ret ws d tail own rest)
    (htail : tail.length ≤ 2) :
    Outcome dictLayout h₀ ret (tail.length < 2 ∧ c.data.head? = some 101#8)
      (own = rest ∧ dictKeeps (fuel + 1) d c = true) (dictLoop (fuel + 1) d c)
      (dictLoopMem (fuel + 1) h ret ws.length c) := by
  cases hdata : c.data with
  | nil =>
      rw [dictLoop_succ, dictLoopMem, hdata]
      exact rfl
  | cons b t =>
      rw [dictLoop_succ, dictLoopMem, dictKeeps, hdata, List.head?_cons]
      dsimp only
      by_cases hb : b = 101#8
      · rw [if_pos hb, if_pos hb, hb]
        exact ⟨h, ws, tail, own, rest, rfl, hfill, fun hlt => ⟨hlt, rfl⟩, by simp⟩
      have hopen : ¬ some b = some 101#8 := by simpa using hb
      rw [if_neg hb, if_neg hb, if_neg hopen]
      obtain ⟨h₁, slack, hgrow, hslack, hfill₁⟩ := hfill.grow lawful_dict htail
      obtain ⟨x, y, z, w, rfl⟩ := List.length_eq_four.mp hslack
      rw [show 2 * (ws.length + 2) = dictLayout.width * (ws.length + 2) from rfl, hgrow]
      dsimp only
      cases hstr : beDecodeStr c with
      | none =>
          rw [beDecodeStrMem_none h₁ hstr]
          exact rfl
      | some r =>
          obtain ⟨key, c₁⟩ := r
          obtain ⟨k, h₂, o₁, hans₁, hadd₁, hkey⟩ := beDecodeStrMem_some h₁ hstr
          have hdis₁ := hfill₁.building.disjoint hadd₁
          obtain ⟨h₃, hstore₁, hfill₃, hkeep₃⟩ :=
            (hfill₁.call lawful_dict hadd₁).store lawful_dict (j := 0) (by simp) k
          have hkey₃ := hkey.congr fun q hq => hkeep₃ q (Finset.mem_union_right _ hq)
          rw [hans₁]
          dsimp only
          rw [show 2 * ws.length = dictLayout.width * ws.length + 0 from rfl, hstore₁]
          dsimp only
          have hcall := ih.decode h₃ c₁
          cases hdec : beDecode fuel c₁ with
          | none =>
              rw [hdec] at hcall
              rw [hcall]
              exact rfl
          | some r =>
              obtain ⟨val, c₂⟩ := r
              rw [hdec] at hcall
              obtain ⟨v, h₄, o₂, n, hans₂, hadd₂, hval, hsub', hkept⟩ := hcall
              have hdis₂ := hfill₃.building.disjoint hadd₂
              obtain ⟨h₅, hstore₂, hfill₅, hkeep₅⟩ :=
                (hfill₃.call lawful_dict hadd₂).store lawful_dict (j := 1) (by simp) v
              have hkey₅ : HoldsStr h₅ k key o₁ := by
                apply hkey₃.congr
                intro q hq
                have hqr : q ∈ rest ∪ o₁ := Finset.mem_union_right _ hq
                rw [hkeep₅ q (Finset.mem_union_left _ hqr),
                  hadd₂.old q (Finset.disjoint_left.mp hdis₂ hqr)]
              have hval₅ : HoldsAnswer h₅ v val o₂ :=
                hval.congr fun q hq => hkeep₅ q (Finset.mem_union_right _ (hsub' hq))
              rw [hans₂]
              dsimp only
              rw [hstore₂]
              dsimp only
              have hparts := Finset.disjoint_union_left.mp hdis₂
              have hdis : Disjoint rest (o₁ ∪ n) :=
                Finset.disjoint_union_right.mpr ⟨hdis₁, hparts.1⟩
              have hfull : Filled dictLayout h₀ h₅ ret (ws ++ [(k, v)]) (d ++ [(key, val)]) [z, w]
                  (own ∪ (o₁ ∪ o₂)) (rest ∪ (o₁ ∪ n)) :=
                { building := by
                    rw [← Finset.union_assoc]
                    simpa [dictLayout, entryWords] using hfill₅.building
                  holds := HoldsDict.concat hfill₅.holds hkey₅ hval₅
                    (Finset.disjoint_of_subset_right hsub' hparts.2)
                    (Finset.disjoint_of_subset_left hfill.sub (Finset.disjoint_of_subset_right
                      (Finset.union_subset_union (Finset.Subset.refl _) hsub') hdis))
                  sub := Finset.union_subset_union hfill.sub
                    (Finset.union_subset_union (Finset.Subset.refl _) hsub') }
              obtain ⟨p, hword, hset⟩ := HoldsDict.word hfull.holds (i := d.length) (by
                rw [List.length_append, List.length_singleton]
                omega)
              have hload : getWord h₅ ret ws.length = some p := by
                rw [HoldsDict.length_eq hfill.holds]
                apply hfull.building.load container_dict
                show (entryWords (ws ++ [(k, v)]) ++ [z, w])[d.length]? = _
                rw [List.getElem?_append_left (List.getElem?_eq_some_iff.mp hword).1]
                exact hword
              rw [hload]
              cases p with
              | none =>
                  rw [← hset, if_neg (by simp), if_neg (by simp)]
                  refine ⟨h₅, ws, [.ptr k, .ptr v, z, w], own, rest ∪ o₁ ∪ n, rfl, hfill₅,
                    fun hlt => absurd hlt (by simp [dictLayout]), ?_⟩
                  rw [Finset.union_assoc, lost_iff hfill.sub hsub' hdis, hkey₅.empty_iff,
                    hval₅.empty_iff, hkept]
                  simp only [Bool.and_eq_true, Option.isNone_iff_eq_none]
                  tauto
              | some a =>
                  rw [← hset, if_pos Option.isSome_some, if_pos Option.isSome_some]
                  have hnext := ih.dict c₂ hfull (by simp)
                  rw [List.length_append, List.length_singleton] at hnext
                  refine hnext.mono (fun hlt => absurd hlt.1 (by simp)) ?_
                  rw [union_eq_union_iff hfill.sub (Finset.union_subset_union
                    (Finset.Subset.refl _) hsub') hdis, union_eq_union_iff
                    (Finset.Subset.refl _) hsub' hparts.2, hkept, Bool.and_eq_true]
                  tauto

/-- The array of a container that is not bare. -/
theorem Building.finish (hb : Building mk h₀ h ret rest words) (hne : words ≠ []) :
    ∃ a, h₀.Adds h (insert ret (insert a rest)) ∧ h.get ret = some (.node (mk (some a))) ∧
      h.get a = some (.array words) ∧ ret ∉ rest ∧ a ∉ rest := by
  cases hb with
  | bare => exact absurd rfl hne
  | @array a _ added node block notMem notMem' => exact ⟨a, added, node, block, notMem, notMem'⟩

/-- A container keeps its blocks if its items do. -/
theorem insert_eq_insert_iff {own rest : Finset Nat} {p a : Nat} (hsub : own ⊆ rest)
    (hp : p ∉ rest) (ha : a ∉ rest) :
    insert p (insert a own) = insert p (insert a rest) ↔ own = rest := by
  constructor
  · intro heq
    apply Finset.Subset.antisymm hsub
    intro x hx
    have hmem : x ∈ insert p (insert a own) := by
      rw [heq]
      simp [hx]
    rw [Finset.mem_insert, Finset.mem_insert] at hmem
    rcases hmem with rfl | rfl | hmem
    · exact absurd hx hp
    · exact absurd hx ha
    · exact hmem
  · rintro rfl
    rfl

/-- The NULL behind the items ends a container. -/
theorem Outcome.finish {α β : Type} {y : Layout α β} (hy : y.Lawful) {bare kept : Prop}
    {l : List β} {c : Cursor} {answer : Option (Nat × BeHeap × Cursor)} {j : Nat}
    (ho : Outcome y h₀ ret bare kept (some (l, c)) answer) (hfull : ¬ bare) (hj : j < y.width) :
    ∃ (h₁ h₂ : BeHeap) (a : Nat) (as : List α) (tail : List Word) (own rest : Finset Nat),
      answer = some (as.length, h₁, c) ∧
      setWord h₁ ret (y.width * as.length + j) none = some h₂ ∧
      h₀.Adds h₂ (insert ret (insert a rest)) ∧ h₂.get ret = some (.node (y.node (some a))) ∧
      h₂.get a = some (.array (y.words as ++ tail.set j (.ptr none))) ∧ y.width ≤ tail.length ∧
      y.holds h₂ as l own ∧ own ⊆ rest ∧ ret ∉ rest ∧ a ∉ rest ∧ (own = rest ↔ kept) := by
  obtain ⟨h₁, as, tail, own, rest, hans, hfill, htail, hown⟩ := ho
  have hroom : y.width ≤ tail.length := Nat.le_of_not_lt fun hlt => hfull (htail hlt)
  obtain ⟨h₂, hstore, hfill₂, -⟩ := hfill.store hy (by omega : j < tail.length) none
  have hne : y.words as ++ tail.set j (.ptr none) ≠ [] := by
    apply List.ne_nil_of_length_pos
    rw [List.length_append, List.length_set]
    omega
  obtain ⟨a, hadd, hnode, hblock, hret, ha⟩ := hfill₂.building.finish hne
  exact ⟨h₁, h₂, a, as, tail, own, rest, hans, hstore, hadd, hnode, hblock, hroom, hfill₂.holds,
    hfill₂.sub, hret, ha, hown⟩

theorem AllRefine.decode_list {fuel : Nat} (ih : AllRefine fuel) (h : BeHeap) {c : Cursor}
    {t : List Byte} (hdata : c.data = 108#8 :: t) (hlen : c.dataLen ≠ 0) :
    Refines h (keepsBlocks (fuel + 1) c) (beDecode (fuel + 1) c) (beDecodeMem (fuel + 1) h c) := by
  have hnext : c.next.data = t := by rw [Cursor.next, hdata]; rfl
  have hstart := @building_start .list h .list rfl
  have hfill : Filled listLayout h (beAlloc h .list).2 (beAlloc h .list).1 [] [] [] ∅ ∅ :=
    ⟨hstart, rfl, Finset.Subset.refl _⟩
  have hloop := ih.list c.next hfill (Nat.zero_le _)
  simp only [List.length_nil, hnext] at hloop
  rw [beDecode_succ, beDecodeMem, keepsBlocks, if_neg hlen, if_neg hlen, if_neg hlen, hdata]
  dsimp only
  rw [if_pos rfl, if_pos rfl, if_pos rfl]
  by_cases hempty : t.head? = some 101#8
  · -- the last NULL of an empty list is written through NULL
    rw [if_pos hempty]
    cases fuel with
    | zero => exact rfl
    | succ fuel =>
        obtain ⟨t', rfl⟩ := List.head?_eq_some_iff.mp hempty
        rw [listLoopMem, hnext]
        dsimp only
        rw [if_pos rfl]
        dsimp only
        rw [hstart.store_null container_list]
        rfl
  · rw [if_neg hempty]
    cases hpure : listLoop fuel [] c.next with
    | none =>
        rw [hpure] at hloop
        rw [hloop]
        exact rfl
    | some r =>
        obtain ⟨l, c'⟩ := r
        rw [hpure] at hloop
        obtain ⟨h₁, h₂, a, as, tail, own, rest, hans, hstore, hadd, hnode, hblock, hroom, hholds,
          hsub, hret, ha, hown⟩ := hloop.finish lawful_list (fun hbare => hempty hbare.2)
            (j := 0) (by decide)
        obtain ⟨x, tail, rfl⟩ := List.exists_cons_of_length_pos hroom
        rw [show listLayout.width * as.length + 0 = as.length from Nat.one_mul _] at hstore
        rw [hans]
        dsimp only
        rw [hstore]
        refine ⟨_, h₂, insert (beAlloc h .list).1 (insert a own), _, rfl, hadd, ?_,
          Finset.insert_subset_insert _ (Finset.insert_subset_insert _ hsub), ?_⟩
        · exact ⟨a, as, tail, own, hnode, hblock, hholds, fun hmem => hret (hsub hmem),
            fun hmem => ha (hsub hmem), rfl⟩
        · rw [insert_eq_insert_iff hsub hret ha, hown]
          simp

theorem AllRefine.decode_dict {fuel : Nat} (ih : AllRefine fuel) (h : BeHeap) {c : Cursor}
    {t : List Byte} (hdata : c.data = 100#8 :: t) (hlen : c.dataLen ≠ 0) :
    Refines h (keepsBlocks (fuel + 1) c) (beDecode (fuel + 1) c) (beDecodeMem (fuel + 1) h c) := by
  have hnext : c.next.data = t := by rw [Cursor.next, hdata]; rfl
  have hstart := @building_start .dict h .dict rfl
  have hfill : Filled dictLayout h (beAlloc h .dict).2 (beAlloc h .dict).1 [] [] [] ∅ ∅ :=
    ⟨hstart, rfl, Finset.Subset.refl _⟩
  have hloop := ih.dict c.next hfill (Nat.zero_le _)
  simp only [List.length_nil, hnext] at hloop
  rw [beDecode_succ, beDecodeMem, keepsBlocks, if_neg hlen, if_neg hlen, if_neg hlen, hdata]
  dsimp only
  have hl : ¬ (100#8 : Byte) = 108#8 := by decide
  rw [if_neg hl, if_neg hl, if_neg hl, if_pos rfl, if_pos rfl, if_pos rfl]
  by_cases hempty : t.head? = some 101#8
  · rw [if_pos hempty]
    cases fuel with
    | zero => exact rfl
    | succ fuel =>
        obtain ⟨t', rfl⟩ := List.head?_eq_some_iff.mp hempty
        rw [dictLoopMem, hnext]
        dsimp only
        rw [if_pos rfl]
        dsimp only
        rw [hstart.store_null container_dict]
        rfl
  · rw [if_neg hempty]
    cases hpure : dictLoop fuel [] c.next with
    | none =>
        rw [hpure] at hloop
        rw [hloop]
        exact rfl
    | some r =>
        obtain ⟨d, c'⟩ := r
        rw [hpure] at hloop
        obtain ⟨h₁, h₂, a, ws, tail, own, rest, hans, hstore, hadd, hnode, hblock, hroom, hholds,
          hsub, hret, ha, hown⟩ := hloop.finish lawful_dict (fun hbare => hempty hbare.2)
            (j := 1) (by decide)
        obtain ⟨key, tail, rfl⟩ :=
          List.exists_cons_of_length_pos (Nat.lt_of_lt_of_le Nat.two_pos hroom)
        obtain ⟨x, tail, rfl⟩ := List.exists_cons_of_length_pos (Nat.lt_of_succ_le
          (Nat.le_of_succ_le_succ hroom))
        rw [hans]
        dsimp only
        rw [show 2 * ws.length + 1 = dictLayout.width * ws.length + 1 from rfl, hstore]
        refine ⟨_, h₂, insert (beAlloc h .dict).1 (insert a own), _, rfl, hadd, ?_,
          Finset.insert_subset_insert _ (Finset.insert_subset_insert _ hsub), ?_⟩
        · exact ⟨a, ws, key, tail, own, hnode, hblock, hholds, fun hmem => hret (hsub hmem),
            fun hmem => ha (hsub hmem), rfl⟩
        · rw [insert_eq_insert_iff hsub hret ha, hown]
          simp

theorem decode_int (fuel : Nat) (h : BeHeap) {c : Cursor} {t : List Byte}
    (hdata : c.data = 105#8 :: t) (hlen : c.dataLen ≠ 0) :
    Refines h (keepsBlocks (fuel + 1) c) (beDecode (fuel + 1) c) (beDecodeMem (fuel + 1) h c) := by
  have hadd := Heap.Blocks.Adds.alloc h (Block.node BeType.int.zeroed)
  rw [beDecode_succ, beDecodeMem, keepsBlocks, if_neg hlen, if_neg hlen, if_neg hlen, hdata]
  dsimp only
  have hl : ¬ (105#8 : Byte) = 108#8 := by decide
  have hd : ¬ (105#8 : Byte) = 100#8 := by decide
  rw [if_neg hl, if_neg hl, if_neg hl, if_neg hd, if_neg hd, if_neg hd, if_pos rfl, if_pos rfl,
    if_pos rfl]
  cases hint : beDecodeInt c.next with
  | none => exact rfl
  | some r =>
      obtain ⟨i, c'⟩ := r
      obtain ⟨h', hstore, hnext, hself, hother⟩ :=
        Heap.Blocks.set_some (Heap.Blocks.alloc_get_self h (Block.node BeType.int.zeroed))
          (.node (.int i))
      have hadd' := hadd.set (by simp) hnext (by simp [hself]) hother
      dsimp only [beAlloc]
      rw [show (h.alloc (Block.node BeType.int.zeroed)).1 = h.next from rfl, hstore]
      dsimp only
      cases hend : c'.data with
      | nil => exact rfl
      | cons e t =>
          dsimp only
          rw [List.head?_cons]
          by_cases he : e = 101#8
          · rw [if_pos he, if_pos he]
            exact ⟨_, h', {h.next}, {h.next}, rfl, hadd', ⟨hself, rfl⟩, Finset.Subset.refl _,
              by simp [he]⟩
          · rw [if_neg he, if_neg he]
            exact ⟨none, h', ∅, {h.next}, rfl, hadd', rfl, Finset.empty_subset _, by simp [he]⟩

theorem decode_str (fuel : Nat) (h : BeHeap) {c : Cursor} {b : Byte} {t : List Byte}
    (hdata : c.data = b :: t) (hlen : c.dataLen ≠ 0) (hb : isDigit b = true) :
    Refines h (keepsBlocks (fuel + 1) c) (beDecode (fuel + 1) c) (beDecodeMem (fuel + 1) h c) := by
  have hne : ∀ {x : Byte}, isDigit x = false → b ≠ x := by
    intro x hx heq
    rw [heq, hx] at hb
    cases hb
  have hl : b ≠ 108#8 := hne (by decide)
  have hd : b ≠ 100#8 := hne (by decide)
  have hi : b ≠ 105#8 := hne (by decide)
  have hadd := Heap.Blocks.Adds.alloc h (Block.node BeType.str.zeroed)
  rw [beDecode_succ, beDecodeMem, keepsBlocks, if_neg hlen, if_neg hlen, if_neg hlen, hdata]
  dsimp only
  rw [if_neg hl, if_neg hl, if_neg hl, if_neg hd, if_neg hd, if_neg hd, if_neg hi, if_neg hi,
    if_neg hi, if_pos hb, if_pos hb]
  cases hstr : beDecodeStr c with
  | none =>
      rw [beDecodeStrMem_none _ hstr]
      exact rfl
  | some r =>
      obtain ⟨s, c'⟩ := r
      obtain ⟨q, h₁, o, hans, hadd₁, hold⟩ := beDecodeStrMem_some (beAlloc h .str).2 hstr
      have hnode := hadd₁.kept (Heap.Blocks.alloc_get_self h (Block.node BeType.str.zeroed))
      have hnot := hadd₁.notMem (Heap.Blocks.alloc_get_self h (Block.node BeType.str.zeroed))
      obtain ⟨h₂, hstore, hnext, hself, hother⟩ := Heap.Blocks.set_some hnode (.node (.str q))
      have hadd₂ := (hadd.trans hadd₁).set (by simp) hnext (by simp [hself]) hother
      rw [hans]
      dsimp only [beAlloc]
      rw [show (h.alloc (Block.node BeType.str.zeroed)).1 = h.next from rfl, hstore]
      rw [← Finset.insert_eq] at hadd₂
      refine ⟨_, h₂, insert h.next o, insert h.next o, rfl, hadd₂, ?_, Finset.Subset.refl _,
        by simp⟩
      refine ⟨q, o, hself, hold.congr fun x hx => hother x ?_, hnot, rfl⟩
      rintro rfl
      exact hnot hx

theorem AllRefine.decode_succ {fuel : Nat} (ih : AllRefine fuel) (h : BeHeap) (c : Cursor) :
    Refines h (keepsBlocks (fuel + 1) c) (beDecode (fuel + 1) c) (beDecodeMem (fuel + 1) h c) := by
  by_cases hlen : c.dataLen = 0
  · rw [beDecode_succ, beDecodeMem, keepsBlocks, if_pos hlen, if_pos hlen, if_pos hlen]
    exact ⟨none, h, ∅, ∅, rfl, .rfl, rfl, Finset.Subset.refl _, by simp⟩
  cases hdata : c.data with
  | nil =>
      rw [beDecode_succ, beDecodeMem, keepsBlocks, if_neg hlen, if_neg hlen, if_neg hlen, hdata]
      exact rfl
  | cons b t =>
      by_cases hl : b = 108#8
      · exact ih.decode_list h (by rw [hdata, hl]) hlen
      by_cases hd : b = 100#8
      · exact ih.decode_dict h (by rw [hdata, hd]) hlen
      by_cases hi : b = 105#8
      · exact decode_int fuel h (by rw [hdata, hi]) hlen
      by_cases hb : isDigit b = true
      · exact decode_str fuel h hdata hlen hb
      rw [beDecode_succ, beDecodeMem, keepsBlocks, if_neg hlen, if_neg hlen, if_neg hlen, hdata]
      dsimp only
      rw [if_neg hl, if_neg hl, if_neg hl, if_neg hd, if_neg hd, if_neg hd, if_neg hi, if_neg hi,
        if_neg hi, if_neg hb, if_neg hb]
      exact ⟨none, h, ∅, ∅, rfl, .rfl, rfl, Finset.Subset.refl _, by simp⟩

/-- By induction on the fuel. -/
theorem allRefine (fuel : Nat) : AllRefine fuel := by
  induction fuel with
  | zero => exact ⟨fun _ _ => rfl, fun _ _ _ => rfl, fun _ _ _ => rfl⟩
  | succ fuel ih => exact ⟨ih.decode_succ, ih.list_succ, ih.dict_succ⟩

/-- **The memory of the decoder.** On every input `be_decoden` faults or runs
out of fuel exactly where the decoder of trees does: no word is read before
it is written or outside its array, and no block after it was freed. Where
it answers, the answer is that of the decoder of trees, in blocks that were
not there before, and no block that was is changed. -/
theorem beDecodenMem_refines (fuel : Nat) (h : BeHeap) (data : List Byte) (len : Int) :
    Refines h (keepsBlocks fuel { data := data, dataLen := len }) (beDecoden fuel data len)
      (beDecodenMem fuel h data len) :=
  (allRefine fuel).decode h _

end DubstepDucks.Bencode
