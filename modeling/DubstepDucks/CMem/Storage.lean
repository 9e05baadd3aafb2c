import DubstepDucks.CMem.Strings
import Mathlib.Algebra.Order.BigOperators.Group.List
import Mathlib.Algebra.Order.Ring.Nat

/-!
# CMem — strings and the arrays they are built in

A string that grows in an array by a row of `strncat` calls with one bound.
The bound is no size of the array, so two things can go wrong: the array is
too small for the string and its terminator, or a call drops the end of its
source. `Assembly.safe_iff` settles both at once when the array is not
larger than the bound: the lengths add up to less than its size. Nothing
here knows a particular program.
-/

namespace DubstepDucks.CMem

/-- What the array holds at first, the sources of the calls, and the size of
the array. -/
structure Assembly where
  first : CString
  sources : List CString
  storage : Nat

namespace Assembly

/-- What the array holds in the end. -/
def result (a : Assembly) (bound : Nat) : CString := a.first.strncats a.sources bound

/-- Everything the array holds on the way. -/
def stages (a : Assembly) (bound : Nat) : List CString :=
  a.sources.scanl (fun dst src => dst.strncat src bound) a.first

/-- The length if nothing is dropped. -/
def total (a : Assembly) : Nat :=
  a.first.chars.length + (a.sources.map fun s => s.chars.length).sum

/-- Every stage fits together with its terminator, and no call drops a
suffix. -/
structure Safe (a : Assembly) (bound : Nat) : Prop where
  fits : ∀ s ∈ a.stages bound, s.chars.length + 1 ≤ a.storage
  whole : ∀ s ∈ a.sources, s.chars.length ≤ bound

/-! ## Lengths along the row -/

theorem length_strncat (dst src : CString) (bound : Nat) :
    (dst.strncat src bound).chars.length = dst.chars.length + min bound src.chars.length := by
  rw [CString.strncat, CString.append, List.length_append, CString.take, List.length_take]

theorem length_le_of_mem_scanl {s : CString} {bound : Nat} :
    ∀ (sources : List CString) (first : CString),
    s ∈ sources.scanl (fun dst src => dst.strncat src bound) first →
    s.chars.length ≤ first.chars.length + (sources.map fun s => s.chars.length).sum := by
  intro sources
  induction sources with
  | nil =>
      intro first h
      rw [List.scanl_nil, List.mem_singleton] at h
      rw [h]
      exact Nat.le_add_right ..
  | cons src sources ih =>
      intro first h
      rw [List.map_cons, List.sum_cons]
      rcases List.mem_cons.mp (List.scanl_cons ▸ h) with rfl | hrest
      · omega
      · have hlen := ih (first.strncat src bound) hrest
        rw [length_strncat] at hlen
        omega

theorem strncats_mem_scanl {bound : Nat} :
    ∀ (sources : List CString) (first : CString), first.strncats sources bound
      ∈ sources.scanl (fun dst src => dst.strncat src bound) first := by
  intro sources
  induction sources with
  | nil =>
      intro first
      exact List.mem_singleton.mpr rfl
  | cons src sources ih =>
      intro first
      rw [List.scanl_cons]
      exact List.mem_cons_of_mem _ (ih (first.strncat src bound))

theorem length_strncats {bound : Nat} :
    ∀ (sources : List CString) (first : CString), (∀ s ∈ sources, s.chars.length ≤ bound) →
    (first.strncats sources bound).chars.length
      = first.chars.length + (sources.map fun s => s.chars.length).sum := by
  intro sources
  induction sources with
  | nil =>
      intro first _
      rfl
  | cons src sources ih =>
      intro first h
      have hsrc : src.chars.length ≤ bound := h src (List.mem_cons_self ..)
      have hrest := ih (first.strncat src bound) fun s hs => h s (List.mem_cons_of_mem _ hs)
      rw [length_strncat, Nat.min_eq_right hsrc] at hrest
      rw [List.map_cons, List.sum_cons, ← Nat.add_assoc, ← hrest]
      rfl

/-! ## When a row is safe -/

variable {a : Assembly} {bound : Nat}

/-- The string a safe row leaves is as long as its parts. -/
theorem Safe.length_result (h : a.Safe bound) : (a.result bound).chars.length = a.total :=
  length_strncats a.sources a.first h.whole

/-- **When a row is safe.** In an array not larger than the bound of the
calls, exactly if all parts and the terminator fit. -/
theorem safe_iff (hbound : a.storage ≤ bound) : a.Safe bound ↔ a.total < a.storage := by
  constructor
  · intro h
    have hresult := h.fits _ (strncats_mem_scanl a.sources a.first)
    have hlen := h.length_result
    rw [result] at hlen
    omega
  · intro h
    refine ⟨fun s hs => ?_, fun s hs => ?_⟩
    · have hlen := length_le_of_mem_scanl a.sources a.first hs
      rw [total] at h
      omega
    · have hpart : s.chars.length ≤ (a.sources.map fun s => s.chars.length).sum :=
        List.le_sum_of_mem (List.mem_map_of_mem hs)
      rw [total] at h
      omega

end Assembly

end DubstepDucks.CMem
