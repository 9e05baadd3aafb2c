import Mathlib.Data.List.Perm.Subperm
import Mathlib.Tactic.Common

/-!
# Heap — singly linked lists

Linked lists through a heap of `malloc`ed nodes: an address is the position
of the allocation, the null pointer is `none`, and a node keeps its payload
and its `next` pointer.

* `Path h p l` — following `next` from `p` visits exactly the entries of
  `l` (address and payload) and then reaches null;
* `scan` — the loop that looks for a payload and stops at the last node;
* `countNodes` — the loop that counts nodes up to the last one;
* `link` — allocate a node and hang it behind the last one;
* `freeNodes` — the loop that frees one node after another.

`Path` is deterministic, hence free of cycles (`Path.nodup`): that bounds
the loops' fuel by the number of allocations, and it makes `link` a local
edit. Generic in the payload.
-/

namespace DubstepDucks.Heap

structure Node (α : Type) where
  val : α
  next : Option Nat
  deriving DecidableEq

abbrev NodeHeap (α : Type) := List (Node α)

variable {α : Type}

/-- From pointer `p` the heap holds the list `l` of addressed payloads. -/
inductive Path (h : NodeHeap α) : Option Nat → List (Nat × α) → Prop
  | nil : Path h none []
  | cons {a v nx l} : h[a]? = some ⟨v, nx⟩ → Path h nx l → Path h (some a) ((a, v) :: l)

/-- From pointer `p` the linked list holds the payloads `vs`, in order. -/
def Chain (h : NodeHeap α) (p : Option Nat) (vs : List α) : Prop :=
  ∃ l, Path h p l ∧ l.map Prod.snd = vs

/-! ## Paths do not repeat an address -/

theorem Path.eq_nil {h : NodeHeap α} {l : List (Nat × α)} (hl : Path h none l) : l = [] := by
  cases hl
  rfl

theorem Path.det {h : NodeHeap α} {p : Option Nat} {l l' : List (Nat × α)}
    (hl : Path h p l) (hl' : Path h p l') : l = l' := by
  induction hl generalizing l' with
  | nil => cases hl'; rfl
  | cons ha _ ih =>
      cases hl' with
      | cons ha' hr =>
          rw [ha] at ha'
          cases ha'
          rw [ih hr]

theorem Chain.det {h : NodeHeap α} {p : Option Nat} {vs vs' : List α}
    (hc : Chain h p vs) (hc' : Chain h p vs') : vs = vs' := by
  obtain ⟨l, hl, rfl⟩ := hc
  obtain ⟨l', hl', rfl⟩ := hc'
  rw [hl.det hl']

/-- A path entered in the middle is a path. -/
theorem Path.drop {h : NodeHeap α} {p : Option Nat} {a : Nat} {v : α} {l₁ l₂ : List (Nat × α)}
    (hl : Path h p (l₁ ++ (a, v) :: l₂)) : Path h (some a) ((a, v) :: l₂) := by
  induction l₁ generalizing p with
  | nil => cases hl with | cons ha hr => exact .cons ha hr
  | cons e l₁ ih => cases hl with | cons _ hr => exact ih hr

theorem Path.nodup {h : NodeHeap α} {p : Option Nat} {l : List (Nat × α)}
    (hl : Path h p l) : (l.map Prod.fst).Nodup := by
  induction hl with
  | nil => simp
  | @cons a v nx l ha hr ih =>
      simp only [List.map_cons, List.nodup_cons]
      refine ⟨?_, ih⟩
      intro hmem
      -- a second visit of `a` would make the path a proper suffix of itself
      obtain ⟨⟨a', v'⟩, he, rfl⟩ := List.mem_map.mp hmem
      obtain ⟨l₁, l₂, rfl⟩ := List.append_of_mem he
      have hlen := congrArg List.length (Path.det (Path.cons ha hr) hr.drop)
      simp at hlen
      omega

theorem Path.mem {h : NodeHeap α} {p : Option Nat} {l : List (Nat × α)}
    (hl : Path h p l) {e : Nat × α} (he : e ∈ l) : ∃ nx, h[e.1]? = some ⟨e.2, nx⟩ := by
  induction hl with
  | nil => cases he
  | cons ha _ ih =>
      rcases List.mem_cons.mp he with rfl | he
      · exact ⟨_, ha⟩
      · exact ih he

theorem Path.lt {h : NodeHeap α} {p : Option Nat} {l : List (Nat × α)}
    (hl : Path h p l) {e : Nat × α} (he : e ∈ l) : e.1 < h.length := by
  obtain ⟨nx, hx⟩ := hl.mem he
  exact (List.getElem?_eq_some_iff.mp hx).1

/-- A list is no longer than the heap that holds it. -/
theorem Path.length_le {h : NodeHeap α} {p : Option Nat} {l : List (Nat × α)}
    (hl : Path h p l) : l.length ≤ h.length := by
  have hsub : l.map Prod.fst ⊆ List.range h.length := by
    intro a ha
    obtain ⟨e, he, rfl⟩ := List.mem_map.mp ha
    exact List.mem_range.mpr (hl.lt he)
  simpa using (hl.nodup.subperm hsub).length_le

/-- A list as long as the heap visits every node. -/
theorem Path.perm_range {h : NodeHeap α} {p : Option Nat} {l : List (Nat × α)}
    (hl : Path h p l) (hall : l.length = h.length) :
    (l.map Prod.fst).Perm (List.range h.length) := by
  have hsub : l.map Prod.fst ⊆ List.range h.length := by
    intro a ha
    obtain ⟨e, he, rfl⟩ := List.mem_map.mp ha
    exact List.mem_range.mpr (hl.lt he)
  apply (hl.nodup.subperm hsub).perm_of_length_le
  exact Nat.le_of_eq (by rw [List.length_map, List.length_range, hall])

/-! ## The loops -/

/-- Where `scan` stopped: at a matching node, or at the last one. -/
inductive Scan where
  | hit (a : Nat)
  | tail (a : Nat)
  deriving DecidableEq

/-- `while (1) { if (match(curr)) return; if (curr->next == 0) break;
curr = curr->next; }`; `none` when a pointer dangles or the fuel is out. -/
def scan (h : NodeHeap α) (hit : α → Bool) : Nat → Nat → Option Scan
  | 0, _ => none
  | fuel + 1, a =>
      match h[a]? with
      | none => none
      | some n =>
          if hit n.val then some (.hit a)
          else
            match n.next with
            | none => some (.tail a)
            | some b => scan h hit fuel b

/-- `while (curr->next != 0) { curr = curr->next; count++; }` from
`count`. -/
def countNodes (h : NodeHeap α) : Nat → Nat → Nat → Option Nat
  | 0, _, _ => none
  | fuel + 1, a, count =>
      match h[a]? with
      | none => none
      | some n =>
          match n.next with
          | none => some count
          | some b => countNodes h fuel b (count + 1)

theorem scan_hit {h : NodeHeap α} (hit : α → Bool) :
    ∀ {l : List (Nat × α)} {a fuel : Nat}, Path h (some a) l → l.length ≤ fuel →
    (∃ e ∈ l, hit e.2 = true) → ∃ b, scan h hit fuel a = some (.hit b) := by
  intro l
  induction l with
  | nil => intro a fuel hl; cases hl
  | cons e l ih =>
      intro a fuel hl hf hex
      obtain ⟨fuel, rfl⟩ : ∃ k, fuel = k + 1 := ⟨fuel - 1, by simp at hf; omega⟩
      cases hl with
      | @cons a v nx _ ha hr =>
          by_cases hv : hit v = true
          · exact ⟨a, by simp [scan, ha, hv]⟩
          · cases nx with
            | none => simp [hr.eq_nil, hv] at hex
            | some b =>
                obtain ⟨c, hc⟩ := ih hr (by simpa using hf) (by simpa [hv] using hex)
                exact ⟨c, by simpa [scan, ha, hv] using hc⟩

/-- With no match the scan stops at the last node. -/
theorem scan_tail {h : NodeHeap α} (hit : α → Bool) :
    ∀ {l : List (Nat × α)} {a fuel : Nat} {t : Nat} {w : α}, Path h (some a) (l ++ [(t, w)]) →
    l.length < fuel → (∀ e ∈ l ++ [(t, w)], hit e.2 = false) →
    scan h hit fuel a = some (.tail t) := by
  intro l
  induction l with
  | nil =>
      intro a fuel t w hl hf hno
      obtain ⟨fuel, rfl⟩ : ∃ k, fuel = k + 1 := ⟨fuel - 1, by simp at hf; omega⟩
      cases hl with
      | cons ha hr =>
          cases hr
          have hw := hno (a, w) (by simp)
          simp [scan, ha, hw]
  | cons e l ih =>
      intro a fuel t w hl hf hno
      obtain ⟨fuel, rfl⟩ : ∃ k, fuel = k + 1 := ⟨fuel - 1, by simp at hf; omega⟩
      cases hl with
      | @cons a v nx _ ha hr =>
          have hv : hit v = false := hno (a, v) (by simp)
          cases nx with
          | none => simpa using hr.eq_nil
          | some b =>
              have hrec := ih hr (by simpa using hf) (fun e he => hno e (List.mem_cons_of_mem _ he))
              simpa [scan, ha, hv] using hrec

theorem countNodes_path {h : NodeHeap α} :
    ∀ {l : List (Nat × α)} {a fuel : Nat} (count : Nat), Path h (some a) l → l.length ≤ fuel →
    countNodes h fuel a (count + 1) = some (count + l.length) := by
  intro l
  induction l with
  | nil => intro a fuel count hl; cases hl
  | cons e l ih =>
      intro a fuel count hl hf
      obtain ⟨fuel, rfl⟩ : ∃ k, fuel = k + 1 := ⟨fuel - 1, by simp at hf; omega⟩
      cases hl with
      | @cons a v nx _ ha hr =>
          cases nx with
          | none =>
              cases hr
              simp [countNodes, ha]
          | some b =>
              have hrec := ih (count + 1) hr (by simpa using hf)
              simp only [countNodes, ha, List.length_cons]
              rw [hrec]
              congr 1
              omega

/-! ## Appending a node -/

/-- `new = malloc(...); new->val = v; new->next = 0; tail->next = new;`.
The new node's address is the next free position. -/
def link (h : NodeHeap α) (t : Nat) (v : α) : NodeHeap α :=
  h.modify t (fun n => { n with next := some h.length }) ++ [⟨v, none⟩]

theorem link_other {h : NodeHeap α} {t a : Nat} {v : α} (hne : a ≠ t) (ha : a < h.length) :
    (link h t v)[a]? = h[a]? := by
  rw [link, List.getElem?_append_left (by simpa using ha), List.getElem?_modify]
  simp [Ne.symm hne]

theorem link_tail {h : NodeHeap α} {t : Nat} {v w : α} {nx : Option Nat}
    (ht : h[t]? = some ⟨w, nx⟩) : (link h t v)[t]? = some ⟨w, some h.length⟩ := by
  have hlt := (List.getElem?_eq_some_iff.mp ht).1
  rw [link, List.getElem?_append_left (by simpa using hlt), List.getElem?_modify]
  simp [ht]

theorem link_new {h : NodeHeap α} {t : Nat} {v : α} :
    (link h t v)[h.length]? = some ⟨v, none⟩ := by
  simp [link]

/-- Linking behind the last node appends to the list and nothing else. -/
theorem Path.link {h : NodeHeap α} {v w : α} {t : Nat} :
    ∀ {l : List (Nat × α)} {p : Option Nat}, Path h p (l ++ [(t, w)]) →
    Path (link h t v) p (l ++ [(t, w), (h.length, v)]) := by
  intro l
  induction l with
  | nil =>
      intro p hl
      cases hl with
      | cons ha _ => exact .cons (link_tail ha) (.cons link_new .nil)
  | cons e l ih =>
      intro p hl
      have hnd := hl.nodup
      cases hl with
      | @cons a u nx _ ha hr =>
          have hne : a ≠ t := by
            simp only [List.cons_append, List.map_cons, List.nodup_cons] at hnd
            rintro rfl
            exact hnd.1 (by simp)
          have hlt := (List.getElem?_eq_some_iff.mp ha).1
          exact .cons (by rw [link_other hne hlt]; exact ha) (ih hr)

/-! ## Freeing the nodes -/

/-- `while (curr->next != 0) { next = curr->next; free(curr); curr = next; }
free(curr);` with the nodes freed so far; `none` when a pointer dangles, be it
to a node of the list that is freed already. -/
def freeNodes (h : NodeHeap α) : Nat → Nat → List Nat → Option (List Nat)
  | 0, _, _ => none
  | fuel + 1, a, freed =>
      if a ∈ freed then none
      else
        match h[a]? with
        | none => none
        | some n =>
            match n.next with
            | none => some (freed ++ [a])
            | some b => freeNodes h fuel b (freed ++ [a])

/-- The nodes of a list are freed in its order. -/
theorem freeNodes_path {h : NodeHeap α} :
    ∀ {l : List (Nat × α)} {a fuel : Nat} {freed : List Nat}, Path h (some a) l →
    l.length ≤ fuel → (∀ e ∈ l, e.1 ∉ freed) →
    freeNodes h fuel a freed = some (freed ++ l.map Prod.fst) := by
  intro l
  induction l with
  | nil => intro a fuel freed hl; cases hl
  | cons e l ih =>
      intro a fuel freed hl hf hfreed
      obtain ⟨fuel, rfl⟩ : ∃ k, fuel = k + 1 := ⟨fuel - 1, by simp at hf; omega⟩
      have hnd := hl.nodup
      cases hl with
      | @cons a v nx _ ha hr =>
          have hlive : a ∉ freed := hfreed (a, v) (by simp)
          rw [freeNodes, if_neg hlive, ha]
          cases nx with
          | none =>
              cases hr
              rfl
          | some b =>
              -- the node freed now is not met again
              have hrest : ∀ e ∈ l, e.1 ∉ freed ++ [a] := by
                intro e he hmem
                rcases List.mem_append.mp hmem with hmem | hmem
                · exact hfreed e (List.mem_cons_of_mem _ he) hmem
                · have hin : e.1 ∈ l.map Prod.fst := List.mem_map_of_mem he
                  rw [List.mem_singleton.mp hmem] at hin
                  exact (List.nodup_cons.mp hnd).1 hin
              show freeNodes h fuel b (freed ++ [a]) = _
              rw [ih hr (by simpa using hf) hrest, List.append_assoc, List.map_cons]
              rfl

end DubstepDucks.Heap
