import DubstepDucks.Tracker.Server
import Mathlib.Data.List.Induction

/-!
# Tracker — the registry

What the linked list and the counter are for: a duplicate-free sequence of
addresses in order of arrival. `Represents s r` ties the server's heap,
head pointer and counter to a `Registry`; `register_refines` says that both
code paths of `main` (a new head, the tail append of `addIfAbsent`) perform
the one abstract operation.

The counter is an int and the list is not, so the relation only makes sense
while the list is short enough. `maxReply` is the largest registry whose
reply size still fits an int; nothing in the code enforces it.
-/

namespace DubstepDucks.Tracker

open CMem Heap

/-! ## The abstract registry -/

structure Registry where
  ips : List CString
  nodup : ips.Nodup

namespace Registry

def empty : Registry := ⟨[], List.nodup_nil⟩

/-- Add an address behind the others unless it is there. -/
def register (r : Registry) (ip : CString) : Registry :=
  if h : ip ∈ r.ips then r
  else ⟨r.ips ++ [ip], by
    rw [List.nodup_append]
    refine ⟨r.nodup, by simp, ?_⟩
    intro x hx y hy hxy
    rw [List.mem_singleton.mp hy] at hxy
    exact h (hxy ▸ hx)⟩

/-- Everybody but the requester, in order of registration. -/
def others (r : Registry) (ip : CString) : List CString := r.ips.filter (· ≠ ip)

theorem register_of_mem {r : Registry} {ip : CString} (h : ip ∈ r.ips) : r.register ip = r := by
  simp [register, h]

theorem ips_register_of_notMem {r : Registry} {ip : CString} (h : ip ∉ r.ips) :
    (r.register ip).ips = r.ips ++ [ip] := by
  simp [register, h]

theorem mem_register (r : Registry) (ip : CString) : ip ∈ (r.register ip).ips := by
  by_cases h : ip ∈ r.ips
  · rwa [register_of_mem h]
  · simp [ips_register_of_notMem h]

theorem length_register_le (r : Registry) (ip : CString) :
    (r.register ip).ips.length ≤ r.ips.length + 1 := by
  by_cases h : ip ∈ r.ips
  · rw [register_of_mem h]
    omega
  · simp [ips_register_of_notMem h]

/-- A registered requester is one client: the others are one fewer. -/
theorem length_others {r : Registry} {ip : CString} (h : ip ∈ r.ips) :
    (r.others ip).length + 1 = r.ips.length := by
  have herase : r.ips.erase ip = r.others ip := by
    rw [others, r.nodup.erase_eq_filter]
    apply List.filter_congr
    intro x _
    simp [bne, beq_eq_decide]
  rw [← herase, List.length_erase_of_mem h]
  have := List.length_pos_of_mem h
  omega

/-- Registering the requester does not change who the others are. -/
theorem others_register (r : Registry) (ip : CString) :
    (r.register ip).others ip = r.others ip := by
  by_cases h : ip ∈ r.ips
  · rw [register_of_mem h]
  · simp [others, ips_register_of_notMem h]

/-- Registering one after another keeps first occurrences, in order. -/
theorem ips_foldl_register (ips : List CString) :
    (ips.foldl register empty).ips = ips.eraseDups := by
  induction ips using List.reverseRecOn with
  | nil => rfl
  | append_singleton l ip ih =>
      rw [List.foldl_append, List.eraseDups_append]
      simp only [List.foldl_cons, List.foldl_nil]
      by_cases h : ip ∈ l
      · have hm : ip ∈ (l.foldl register empty).ips := by rw [ih]; exact List.mem_eraseDups.mpr h
        rw [register_of_mem hm, ih]
        simp [List.removeAll, h]
      · have hm : ip ∉ (l.foldl register empty).ips := by
          rw [ih]
          exact fun hc => h (List.mem_eraseDups.mp hc)
        rw [ips_register_of_notMem hm, ih]
        simp [List.removeAll, h, List.eraseDups_cons]

end Registry

/-! ## The list represents the registry -/

/-- The largest number of clients whose reply size fits an int. -/
def maxReply : Nat := 2 ^ 27

structure Represents (s : Server) (r : Registry) : Prop where
  chain : Chain s.heap s.cHead r.ips
  count : s.numClients = BitVec.ofNat 32 r.ips.length

theorem represents_start : Represents Server.start Registry.empty :=
  ⟨⟨[], .nil, rfl⟩, rfl⟩

theorem ofNat_eq_zero {n : Nat} (h : n < 2 ^ 31) : BitVec.ofNat 32 n = 0 ↔ n = 0 := by
  constructor
  · intro he
    have := congrArg BitVec.toNat he
    rw [toNat_ofNat h] at this
    simpa using this
  · rintro rfl
    rfl

/-- A non-empty list has a head pointer, and its last node is reached. -/
theorem chain_nonempty {h : NodeHeap CString} {p : Option Nat} {vs : List CString}
    (hc : Chain h p vs) (hne : vs ≠ []) :
    ∃ a l t w, p = some a ∧ Path h (some a) (l ++ [(t, w)]) ∧
      (l ++ [(t, w)]).map Prod.snd = vs := by
  obtain ⟨l, hl, rfl⟩ := hc
  rcases List.eq_nil_or_concat l with rfl | ⟨l', ⟨t, w⟩, rfl⟩
  · simp at hne
  · cases p with
    | none => simpa using hl.eq_nil
    | some a => exact ⟨a, l', t, w, rfl, by simpa using hl, by simp⟩

/-- `addIfAbsent` on a list that already holds the address changes
nothing. -/
theorem addIfAbsent_present {h : NodeHeap CString} {a : Nat} {l : List (Nat × CString)}
    (hl : Path h (some a) l) {ip : CString} (hip : ip ∈ l.map Prod.snd) (n : CInt) :
    addIfAbsent h a ip n = some (h, n) := by
  obtain ⟨e, he, heq⟩ := List.mem_map.mp hip
  obtain ⟨b, hb⟩ := scan_hit (fun v => strcmp v ip == 0) hl hl.length_le
    ⟨e, he, by simp [heq, strcmp_eq_zero]⟩
  simp [addIfAbsent, hb]

/-- `addIfAbsent` on a list without the address appends it and counts it. -/
theorem addIfAbsent_absent {h : NodeHeap CString} {a t : Nat} {w ip : CString}
    {l : List (Nat × CString)} (hl : Path h (some a) (l ++ [(t, w)]))
    (hip : ip ∉ (l ++ [(t, w)]).map Prod.snd) (n : CInt) :
    addIfAbsent h a ip n = some (link h t ip, n + 1) := by
  have hlen := hl.length_le
  simp only [List.length_append, List.length_singleton] at hlen
  have hscan : scan h (fun v => strcmp v ip == 0) h.length a = some (.tail t) := by
    apply scan_tail _ hl (by omega)
    intro e he
    have hne : e.2 ≠ ip := fun hc => hip (List.mem_map.mpr ⟨e, he, hc⟩)
    simp [strcmp_eq_zero, hne]
  simp [addIfAbsent, hscan]

/-- Both registration paths of `main` refine `Registry.register`. -/
theorem register_refines {s : Server} {r : Registry} (hr : Represents s r)
    (hb : r.ips.length ≤ maxReply) (ip : CString) :
    ∃ s', s.register ip = some s' ∧ Represents s' (r.register ip) := by
  have hlt : r.ips.length < 2 ^ 31 := by unfold maxReply at hb; omega
  have hz : s.numClients = 0 ↔ r.ips.length = 0 := by rw [hr.count]; exact ofNat_eq_zero hlt
  by_cases hempty : r.ips.length = 0
  · -- the first client becomes the head
    have hnil : r.ips = [] := List.length_eq_zero_iff.mp hempty
    have hnm : ip ∉ r.ips := by simp [hnil]
    refine ⟨_, by rw [Server.register, if_pos (hz.mpr hempty)], ?_, ?_⟩
    · rw [Registry.ips_register_of_notMem hnm, hnil]
      exact ⟨[(s.heap.length, ip)], .cons (by simp) .nil, rfl⟩
    · simp [Registry.ips_register_of_notMem hnm, hnil]
  · have hne : r.ips ≠ [] := fun h => hempty (by simp [h])
    obtain ⟨a, l, t, w, hhead, hpath, hvals⟩ := chain_nonempty hr.chain hne
    have hreg : s.register ip = (addIfAbsent s.heap a ip s.numClients).map fun p =>
        { s with heap := p.1, numClients := p.2 } := by
      rw [Server.register, if_neg (fun h => hempty (hz.mp h)), hhead]
    by_cases hin : ip ∈ r.ips
    · rw [addIfAbsent_present hpath (by rw [hvals]; exact hin)] at hreg
      refine ⟨s, by simpa using hreg, ?_⟩
      rwa [Registry.register_of_mem hin]
    · rw [addIfAbsent_absent hpath (by rw [hvals]; exact hin)] at hreg
      refine ⟨_, by simpa using hreg, ?_, ?_⟩
      · rw [Registry.ips_register_of_notMem hin, ← hvals]
        refine ⟨l ++ [(t, w), (s.heap.length, ip)], ?_, by simp⟩
        simp only [hhead]
        exact hpath.link
      · simp only [hr.count, Registry.ips_register_of_notMem hin, List.length_append,
          List.length_singleton, BitVec.ofNat_add]

end DubstepDucks.Tracker
