import Mathlib.Data.Finset.Basic
import Mathlib.Tactic.Common

/-!
# Heap — allocated blocks and who frees them

`malloc` and `free` as bookkeeping: a heap maps addresses to blocks, an
address is handed out once and never again, and storing into or freeing a
block that is not allocated is a fault (`none`). A use after `free` or a
second `free` is therefore never mistaken for a use of a younger block.

A program part is described by what it does to the set of the blocks:

* `Adds h h' new` — it allocated the blocks `new` and changed no other;
* `Drops h h' gone` — it freed the blocks `gone`, each of them once, and
  changed no other.

Both compose, and what is added in later steps is disjoint from what was
there. A program that adds and then drops the same blocks leaks nothing
(`Adds.drops_iff`).
-/

namespace DubstepDucks.Heap

/-- What each address holds. No address from `next` on was handed out. -/
structure Blocks (β : Type*) where
  next : Nat
  get : Nat → Option β
  fresh : ∀ a, next ≤ a → get a = none

variable {β : Type*}

namespace Blocks

/-- Nothing is allocated. -/
def empty : Blocks β := { next := 0, get := fun _ => none, fresh := fun _ _ => rfl }

/-- `malloc`, the block's contents given with it. -/
def alloc (h : Blocks β) (b : β) : Nat × Blocks β :=
  (h.next,
    { next := h.next + 1
      get := fun a => if a = h.next then some b else h.get a
      fresh := by
        intro a ha
        rw [if_neg (by omega)]
        exact h.fresh a (by omega) })

/-- A store into a block. -/
def set (h : Blocks β) (a : Nat) (b : β) : Option (Blocks β) :=
  if hget : (h.get a).isSome then
    some
      { next := h.next
        get := fun x => if x = a then some b else h.get x
        fresh := by
          intro x hx
          have hne : x ≠ a := by
            rintro rfl
            rw [h.fresh x hx] at hget
            cases hget
          rw [if_neg hne]
          exact h.fresh x hx }
  else none

/-- `free`. -/
def free (h : Blocks β) (a : Nat) : Option (Blocks β) :=
  if (h.get a).isSome then
    some
      { next := h.next
        get := fun x => if x = a then none else h.get x
        fresh := by
          intro x hx
          split
          · rfl
          · exact h.fresh x hx }
  else none

theorem lt_next {h : Blocks β} {a : Nat} {b : β} (hb : h.get a = some b) : a < h.next := by
  apply Nat.lt_of_not_le
  intro hle
  rw [h.fresh a hle] at hb
  cases hb

@[simp] theorem alloc_get_self (h : Blocks β) (b : β) : (h.alloc b).2.get h.next = some b :=
  if_pos rfl

theorem alloc_get_of_ne {h : Blocks β} {a : Nat} (b : β) (hne : a ≠ h.next) :
    (h.alloc b).2.get a = h.get a :=
  if_neg hne

theorem set_some {h : Blocks β} {a : Nat} {old : β} (hold : h.get a = some old) (b : β) :
    ∃ h', h.set a b = some h' ∧ h'.next = h.next ∧ h'.get a = some b ∧
      ∀ x, x ≠ a → h'.get x = h.get x := by
  have hget : (h.get a).isSome := by rw [hold]; rfl
  refine ⟨_, dif_pos hget, rfl, if_pos rfl, ?_⟩
  intro x hx
  exact if_neg hx

theorem free_some {h : Blocks β} {a : Nat} {old : β} (hold : h.get a = some old) :
    ∃ h', h.free a = some h' ∧ h'.next = h.next ∧ h'.get a = none ∧
      ∀ x, x ≠ a → h'.get x = h.get x := by
  have hget : (h.get a).isSome := by rw [hold]; rfl
  refine ⟨_, if_pos hget, rfl, if_pos rfl, ?_⟩
  intro x hx
  exact if_neg hx

/-! ## What is added -/

/-- From `h` to `h'` the blocks `new` were allocated and no other changed. -/
structure Adds (h h' : Blocks β) (new : Finset Nat) : Prop where
  later : h.next ≤ h'.next
  young : ∀ a ∈ new, h.next ≤ a
  live : ∀ a ∈ new, (h'.get a).isSome
  old : ∀ a, a ∉ new → h'.get a = h.get a

theorem Adds.rfl {h : Blocks β} : h.Adds h ∅ :=
  { later := Nat.le_refl _
    young := by simp
    live := by simp
    old := fun _ _ => Eq.refl _ }

theorem Adds.alloc (h : Blocks β) (b : β) : h.Adds (h.alloc b).2 {h.next} where
  later := Nat.le_succ _
  young := by simp
  live := by simp
  old := by
    intro a ha
    exact alloc_get_of_ne b (by simpa using ha)

theorem Adds.lt_next {h h' : Blocks β} {new : Finset Nat} (hadd : h.Adds h' new) {a : Nat}
    (ha : a ∈ new) : a < h'.next := by
  obtain ⟨b, hb⟩ := Option.isSome_iff_exists.mp (hadd.live a ha)
  exact Blocks.lt_next hb

/-- Blocks of two steps are different ones. -/
theorem Adds.disjoint {h h₁ h₂ : Blocks β} {new new' : Finset Nat} (hadd : h.Adds h₁ new)
    (hadd' : h₁.Adds h₂ new') : Disjoint new new' := by
  rw [Finset.disjoint_left]
  intro a ha ha'
  have hlt := hadd.lt_next ha
  have hle := hadd'.young a ha'
  omega

/-- A block that was there is none of the new ones. -/
theorem Adds.notMem {h h' : Blocks β} {new : Finset Nat} (hadd : h.Adds h' new) {a : Nat} {b : β}
    (hb : h.get a = some b) : a ∉ new := by
  intro ha
  have hlt := Blocks.lt_next hb
  have hle := hadd.young a ha
  omega

/-- And it is kept. -/
theorem Adds.kept {h h' : Blocks β} {new : Finset Nat} (hadd : h.Adds h' new) {a : Nat} {b : β}
    (hb : h.get a = some b) : h'.get a = some b := by
  rw [hadd.old a (hadd.notMem hb), hb]

theorem Adds.trans {h h₁ h₂ : Blocks β} {new new' : Finset Nat} (hadd : h.Adds h₁ new)
    (hadd' : h₁.Adds h₂ new') : h.Adds h₂ (new ∪ new') where
  later := Nat.le_trans hadd.later hadd'.later
  young := by
    intro a ha
    rcases Finset.mem_union.mp ha with ha | ha
    · exact hadd.young a ha
    · exact Nat.le_trans hadd.later (hadd'.young a ha)
  live := by
    intro a ha
    rcases Finset.mem_union.mp ha with ha | ha
    · rw [hadd'.old a (Finset.disjoint_left.mp (hadd.disjoint hadd') ha)]
      exact hadd.live a ha
    · exact hadd'.live a ha
  old := by
    intro a ha
    rw [Finset.mem_union, not_or] at ha
    rw [hadd'.old a ha.2, hadd.old a ha.1]

/-- A store into a new block. -/
theorem Adds.set {h h₁ h₂ : Blocks β} {new : Finset Nat} {a : Nat} (hadd : h.Adds h₁ new)
    (ha : a ∈ new) (hnext : h₂.next = h₁.next) (hself : (h₂.get a).isSome)
    (hother : ∀ x, x ≠ a → h₂.get x = h₁.get x) : h.Adds h₂ new where
  later := by
    rw [hnext]
    exact hadd.later
  young := hadd.young
  live := by
    intro x hx
    by_cases hxa : x = a
    · rw [hxa]
      exact hself
    · rw [hother x hxa]
      exact hadd.live x hx
  old := by
    intro x hx
    have hxa : x ≠ a := fun heq => hx (heq ▸ ha)
    rw [hother x hxa, hadd.old x hx]

/-- A new block is freed again. -/
theorem Adds.erase {h h₁ h₂ : Blocks β} {new : Finset Nat} {a : Nat} (hadd : h.Adds h₁ new)
    (ha : a ∈ new) (hnext : h₂.next = h₁.next) (hself : h₂.get a = none)
    (hother : ∀ x, x ≠ a → h₂.get x = h₁.get x) : h.Adds h₂ (new.erase a) where
  later := by
    rw [hnext]
    exact hadd.later
  young := fun x hx => hadd.young x (Finset.mem_of_mem_erase hx)
  live := by
    intro x hx
    rw [hother x (Finset.ne_of_mem_erase hx)]
    exact hadd.live x (Finset.mem_of_mem_erase hx)
  old := by
    intro x hx
    by_cases hxa : x = a
    · rw [hxa, hself, h.fresh a (hadd.young a ha)]
    · rw [hother x hxa, hadd.old x (fun hmem => hx (Finset.mem_erase.mpr ⟨hxa, hmem⟩))]

/-! ## What is freed -/

/-- From `h` to `h'` the blocks `gone` were freed and no other changed. -/
structure Drops (h h' : Blocks β) (gone : Finset Nat) : Prop where
  same : h'.next = h.next
  was : ∀ a ∈ gone, (h.get a).isSome
  freed : ∀ a ∈ gone, h'.get a = none
  kept : ∀ a, a ∉ gone → h'.get a = h.get a

theorem Drops.rfl {h : Blocks β} : h.Drops h ∅ :=
  { same := Eq.refl _
    was := by simp
    freed := by simp
    kept := fun _ _ => Eq.refl _ }

theorem Drops.free {h : Blocks β} {a : Nat} {b : β} (hb : h.get a = some b) :
    ∃ h', h.free a = some h' ∧ h.Drops h' {a} := by
  obtain ⟨h', hfree, hnext, hself, hother⟩ := free_some hb
  refine ⟨h', hfree, ?_⟩
  exact
    { same := hnext
      was := by simp [hb]
      freed := by simp [hself]
      kept := fun x hx => hother x (by simpa using hx) }

/-- No block is freed in both steps. -/
theorem Drops.disjoint {h h₁ h₂ : Blocks β} {gone gone' : Finset Nat} (hdrop : h.Drops h₁ gone)
    (hdrop' : h₁.Drops h₂ gone') : Disjoint gone gone' := by
  rw [Finset.disjoint_left]
  intro a ha ha'
  have hlive := hdrop'.was a ha'
  rw [hdrop.freed a ha] at hlive
  cases hlive

theorem Drops.trans {h h₁ h₂ : Blocks β} {gone gone' : Finset Nat} (hdrop : h.Drops h₁ gone)
    (hdrop' : h₁.Drops h₂ gone') : h.Drops h₂ (gone ∪ gone') where
  same := hdrop'.same.trans hdrop.same
  was := by
    intro a ha
    by_cases hmem : a ∈ gone
    · exact hdrop.was a hmem
    · rw [← hdrop.kept a hmem]
      exact hdrop'.was a ((Finset.mem_union.mp ha).resolve_left hmem)
  freed := by
    intro a ha
    by_cases hmem : a ∈ gone'
    · exact hdrop'.freed a hmem
    · rw [hdrop'.kept a hmem]
      exact hdrop.freed a ((Finset.mem_union.mp ha).resolve_right hmem)
  kept := by
    intro a ha
    rw [Finset.mem_union, not_or] at ha
    rw [hdrop'.kept a ha.2, hdrop.kept a ha.1]

/-- Of the new blocks those that were not freed are left. -/
theorem Adds.drops {h h₁ h₂ : Blocks β} {new gone : Finset Nat} (hadd : h.Adds h₁ new)
    (hdrop : h₁.Drops h₂ gone) (hsub : gone ⊆ new) : h.Adds h₂ (new \ gone) where
  later := by
    rw [hdrop.same]
    exact hadd.later
  young := fun a ha => hadd.young a (Finset.mem_sdiff.mp ha).1
  live := by
    intro a ha
    rw [Finset.mem_sdiff] at ha
    rw [hdrop.kept a ha.2]
    exact hadd.live a ha.1
  old := by
    intro a ha
    rw [Finset.mem_sdiff, not_and_not_right] at ha
    by_cases hmem : a ∈ gone
    · rw [hdrop.freed a hmem, h.fresh a (hadd.young a (hsub hmem))]
    · rw [hdrop.kept a hmem, hadd.old a (fun hnew => hmem (ha hnew))]

/-- **Nothing is leaked exactly if all that was allocated was freed.** -/
theorem Adds.drops_iff {h h₁ h₂ : Blocks β} {new gone : Finset Nat} (hadd : h.Adds h₁ new)
    (hdrop : h₁.Drops h₂ gone) (hsub : gone ⊆ new) : h₂.get = h.get ↔ gone = new := by
  have hleft := hadd.drops hdrop hsub
  constructor
  · intro heq
    apply Finset.Subset.antisymm hsub
    intro a ha
    by_contra hkept
    have hlive := hleft.live a (Finset.mem_sdiff.mpr ⟨ha, hkept⟩)
    rw [heq, h.fresh a (hadd.young a ha)] at hlive
    cases hlive
  · rintro rfl
    funext a
    exact hleft.old a (by simp)

end Blocks

end DubstepDucks.Heap
