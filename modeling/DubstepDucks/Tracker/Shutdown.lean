import DubstepDucks.Tracker.Discovery

/-!
# Tracker — the end of a run

The accept loop closes none of the sockets it accepts, so a process that may
open `n` more descriptors serves `n` connections, and the next `accept`
answers -1. Only then does `main` leave its loop; it gives the list back with
`destroyClientList` and returns.

`destroyClientList` reads a node before it frees it, and `main` hands it
`c_head`, which is assigned when the first client lists and never before.
`lifetime` says what becomes of a whole run: it is served until the
descriptors are used up, and then every node that was ever allocated is freed
once, unless nobody listed: in that case an uninitialised pointer is followed.
-/

namespace DubstepDucks.Tracker

open CMem Heap

/-! ## The program -/

/-- `destroyClientList(c_head)`: the nodes it frees, in order. -/
def Server.destroyClientList (s : Server) : Option (List Nat) :=
  match s.cHead with
  -- `c_head` was never assigned
  | none => none
  | some head => freeNodes s.heap s.heap.length head []

/-- Where `main` is after a number of connection attempts: in `accept`, or
past its `return`. -/
inductive Stage where
  | accepting (s : Server)
  | returned (freed : List Nat)

/-- `main`, with the number of descriptors that the process may still open.
`none` is the process dying. -/
def Server.main : Nat → Server → List Connection → Option Stage
  | _, s, [] => some (.accepting s)
  | 0, s, _ :: _ => s.destroyClientList.map .returned
  | descriptors + 1, s, c :: cs =>
      match s.handle c with
      | none => none
      | some (s', _) => main descriptors s' cs

/-! ## The list and the heap -/

/-- Registration allocates a node exactly for a new address. -/
theorem register_allocates {s s' : Server} {r : Registry} (hr : Represents s r)
    (hb : r.ips.length ≤ maxReply) {ip : CString} (h : s.register ip = some s')
    (hall : s.heap.length = r.ips.length) : s'.heap.length = (r.register ip).ips.length := by
  have hlt : r.ips.length < 2 ^ 31 := by
    unfold maxReply at hb
    omega
  have hz : s.numClients = 0 ↔ r.ips.length = 0 := by
    rw [hr.count]
    exact ofNat_eq_zero hlt
  by_cases hempty : r.ips.length = 0
  · have hnm : ip ∉ r.ips := by simp [List.length_eq_zero_iff.mp hempty]
    rw [Server.register, if_pos (hz.mpr hempty)] at h
    cases h
    simp [Registry.ips_register_of_notMem hnm, hall]
  · have hne : r.ips ≠ [] := fun hnil => hempty (by simp [hnil])
    obtain ⟨a, l, t, w, hhead, hpath, hvals⟩ := chain_nonempty hr.chain hne
    rw [Server.register, if_neg fun hzero => hempty (hz.mp hzero), hhead] at h
    dsimp only at h
    by_cases hin : ip ∈ r.ips
    · rw [addIfAbsent_present hpath (by rw [hvals]; exact hin)] at h
      cases h
      rw [Registry.register_of_mem hin]
      exact hall
    · rw [addIfAbsent_absent hpath (by rw [hvals]; exact hin)] at h
      cases h
      simp [link, Registry.ips_register_of_notMem hin, hall]

/-- No node is outside the list. -/
structure Whole (s : Server) (r : Registry) : Prop where
  inv : Inv s r
  allocated : s.heap.length = r.ips.length

theorem whole_start : Whole Server.start Registry.empty := ⟨inv_start, rfl⟩

/-- One connection keeps every node in the list, and no registered address
is forgotten. -/
theorem handle_whole {s s' : Server} {r : Registry} {c : Connection} {out : Option Sent}
    (hs : Whole s r) (h : s.handle c = some (s', out)) :
    Whole s' (if c.Lists then r.register c.ip else r) := by
  by_cases hc : c.Lists
  · rw [if_pos hc]
    have hbound : (r.register c.ip).ips.length ≤ maxReply := by
      apply Classical.byContradiction
      intro hover
      rw [handle_overflow hs.inv hc hover] at h
      cases h
    obtain ⟨s₁, out₁, h₁, hi₁⟩ := handle_lists hs.inv hc hbound
    obtain ⟨s₂, head, l, hs₂, hhead, -⟩ := register_lists hs.inv c.ip
    rw [h₁] at h
    cases h
    -- the state behind the reply is the state behind the registration
    obtain rfl : s₂ = s' := by
      rw [handle_eq hc hs₂ hhead, Option.map_eq_some_iff] at h₁
      obtain ⟨sent, -, heq⟩ := h₁
      exact congrArg Prod.fst heq
    exact ⟨hi₁, register_allocates hs.inv.rep hs.inv.bound hs₂ hs.allocated⟩
  · rw [if_neg hc]
    rw [handle_ignored s hc] at h
    cases h
    exact hs

/-! ## Giving the list back -/

theorem destroyClientList_whole {s : Server} {r : Registry} (hs : Whole s r) (hr : r.ips ≠ []) :
    ∃ freed, s.destroyClientList = some freed ∧ freed.Perm (List.range r.ips.length) := by
  obtain ⟨a, l, t, w, hhead, hpath, hvals⟩ := chain_nonempty hs.inv.rep.chain hr
  have hlen : (l ++ [(t, w)]).length = s.heap.length := by
    rw [hs.allocated, ← hvals, List.length_map]
  refine ⟨(l ++ [(t, w)]).map Prod.fst, ?_, ?_⟩
  · rw [Server.destroyClientList, hhead]
    exact freeNodes_path hpath hpath.length_le fun e _ => List.not_mem_nil
  · rw [← hs.allocated]
    exact hpath.perm_range hlen

theorem destroyClientList_empty {s : Server} {r : Registry} (hs : Whole s r) (hr : r.ips = []) :
    s.destroyClientList = none := by
  obtain ⟨l, hl, hvals⟩ := hs.inv.rep.chain
  rw [hr, List.map_eq_nil_iff] at hvals
  rw [hvals] at hl
  rw [Server.destroyClientList]
  cases hhead : s.cHead with
  | none => rfl
  | some a =>
      rw [hhead] at hl
      cases hl

/-! ## Whole runs -/

/-- What a run has come to, for the registry of those it served. -/
def Settled (waiting : Bool) (r : Registry) (stage : Option Stage) : Prop :=
  if waiting then ∃ s, stage = some (.accepting s) ∧ Whole s r
  else if r.ips = [] then stage = none
  else ∃ freed, stage = some (.returned freed) ∧ freed.Perm (List.range r.ips.length)

theorem main_settled :
    ∀ (cs : List Connection) {s : Server} {r : Registry} (descriptors : Nat), Whole s r →
    (registryAfter r (cs.take descriptors)).ips.length ≤ maxReply →
    Settled (cs.length ≤ descriptors) (registryAfter r (cs.take descriptors))
      (s.main descriptors cs) := by
  intro cs
  induction cs with
  | nil =>
      intro s r descriptors hs _
      rw [List.take_nil, Settled, if_pos (by simp), Server.main]
      exact ⟨s, rfl, hs⟩
  | cons c cs ih =>
      intro s r descriptors hs hb
      cases descriptors with
      | zero =>
          have hregistry : registryAfter r ((c :: cs).take 0) = r := rfl
          rw [hregistry, Settled, if_neg (by simp), Server.main]
          split
          · next hempty => rw [destroyClientList_empty hs hempty, Option.map_none]
          · next hlisted =>
            obtain ⟨freed, hfreed, hperm⟩ := destroyClientList_whole hs hlisted
            exact ⟨freed, by rw [hfreed, Option.map_some], hperm⟩
      | succ descriptors =>
          rw [List.take_succ_cons, registryAfter_cons] at hb ⊢
          have hnext : (if c.Lists then r.register c.ip else r).ips.length ≤ maxReply :=
            Nat.le_trans (le_length_registryAfter _ _) hb
          obtain ⟨s', out, hhandle⟩ : ∃ s' out, s.handle c = some (s', out) := by
            by_cases hc : c.Lists
            · rw [if_pos hc] at hnext
              obtain ⟨s', out, h, -⟩ := handle_lists hs.inv hc hnext
              exact ⟨s', _, h⟩
            · exact ⟨s, none, handle_ignored s hc⟩
          rw [Server.main, hhandle]
          have hrest := ih descriptors (handle_whole hs hhandle) hb
          simpa using hrest

end DubstepDucks.Tracker
