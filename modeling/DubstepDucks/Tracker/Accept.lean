import DubstepDucks.Tracker.Reply

/-!
# Tracker — the accept loop

Whole runs of the server. `handle_lists` and `handle_ignored` say once what
one connection does to a represented registry; `run_refines` carries that
through any sequence of connections, so every reachable server state
represents the registry of its `list` requesters.

Nothing bounds the registry: one requester past `maxReply` and the process
dies while it builds the reply. A run that completes never got there, which
is what keeps the int counter exact.
-/

namespace DubstepDucks.Tracker

open CMem Heap

/-- A `list` request: a non-zero first byte, then the text. -/
def Connection.Lists (c : Connection) : Prop :=
  c.recvMsg 0 ≠ 0 ∧ (c.recvMsg.advance 1).read 4 = ascii "list"

instance (c : Connection) : Decidable c.Lists := by
  unfold Connection.Lists
  infer_instance

/-- The addresses of the `list` requesters, each at its first request. -/
def listers (cs : List Connection) : List CString :=
  ((cs.filter (·.Lists)).map Connection.ip).eraseDups

theorem lists_iff (c : Connection) :
    c.Lists ↔ c.recvMsg 0 ≠ 0 ∧ strncmp (c.recvMsg.advance 1) (ascii "list") 4 = 0 := by
  have htake : (ascii "list").take 4 = ascii "list" := by decide
  rw [Connection.Lists, strncmp_eq_zero _ _ _ (by decide), htake]

/-! ## One connection -/

/-- The invariant of the accept loop: the registry is represented and its
last reply could be built. -/
structure Inv (s : Server) (r : Registry) : Prop where
  rep : Represents s r
  bound : r.ips.length ≤ maxReply

theorem inv_start : Inv Server.start Registry.empty :=
  ⟨represents_start, Nat.zero_le _⟩

/-- Anything but a `list` request is ignored. -/
theorem handle_ignored (s : Server) {c : Connection} (hc : ¬ c.Lists) :
    s.handle c = some (s, none) := by
  rw [lists_iff] at hc
  unfold Server.handle
  split
  · rfl
  · rename_i h0
    rw [if_neg fun h => hc ⟨h0, h⟩]

/-- The requester is registered before the reply is built. -/
theorem register_lists {s : Server} {r : Registry} (hi : Inv s r) (ip : CString) :
    ∃ s' head l, s.register ip = some s' ∧ s'.cHead = some head ∧
      Path s'.heap (some head) l ∧ l.map Prod.snd = (r.register ip).ips ∧
      Represents s' (r.register ip) := by
  obtain ⟨s', hs', hrep⟩ := register_refines hi.rep hi.bound ip
  obtain ⟨l, hl, hvals⟩ := hrep.chain
  cases hhead : s'.cHead with
  | none =>
      rw [hhead] at hl
      have hmem := Registry.mem_register r ip
      rw [← hvals, hl.eq_nil] at hmem
      cases hmem
  | some head => exact ⟨s', head, l, hs', hhead, hhead ▸ hl, hvals, hrep⟩

theorem handle_eq {s s' : Server} {c : Connection} {head : Nat} (hc : c.Lists)
    (hs : s.register c.ip = some s') (hh : s'.cHead = some head) :
    s.handle c = (sendClients s'.heap head s'.numClients c.ip c.behind c.fresh).map
      fun r => (s', some r) := by
  obtain ⟨h0, hcmp⟩ := (lists_iff c).mp hc
  rw [Server.handle, if_neg h0, if_pos hcmp, hs]
  simp only [hh]

theorem handle_sent {s s' : Server} {c : Connection} {head size : Nat} {log : CopyLog}
    {data : List Byte} (hc : c.Lists) (hs : s.register c.ip = some s') (hh : s'.cHead = some head)
    (hsent : sendClients s'.heap head s'.numClients c.ip c.behind c.fresh
      = some (.sent size log data)) : s.handle c = some (s', some (.sent size log data)) := by
  rw [handle_eq hc hs hh, hsent]
  rfl

/-- A `list` request within the bound: the invariant moves to the registry
with the requester, and a reply is sent. -/
theorem handle_lists {s : Server} {r : Registry} (hi : Inv s r) {c : Connection} (hc : c.Lists)
    (hb : (r.register c.ip).ips.length ≤ maxReply) :
    ∃ s' out, s.handle c = some (s', some out) ∧ Inv s' (r.register c.ip) := by
  obtain ⟨s', head, l, hs', hhead, hl, hvals, hrep⟩ := register_lists hi c.ip
  have hsent := sendClients_sent hl hvals (Registry.mem_register r c.ip) hb c.behind c.fresh
  rw [← hrep.count] at hsent
  exact ⟨s', _, handle_sent hc hs' hhead hsent, hrep, hb⟩

/-- A `list` request past the bound kills the server. -/
theorem handle_overflow {s : Server} {r : Registry} (hi : Inv s r) {c : Connection} (hc : c.Lists)
    (hb : ¬ (r.register c.ip).ips.length ≤ maxReply) : s.handle c = none := by
  obtain ⟨s', head, l, hs', hhead, hl, hvals, hrep⟩ := register_lists hi c.ip
  have hlen : (r.register c.ip).ips.length = maxReply + 1 := by
    have := Registry.length_register_le r c.ip
    have := hi.bound
    omega
  rw [handle_eq hc hs' hhead, hrep.count, sendClients_overflow hlen]
  rfl

/-! ## Whole runs -/

/-- The registry after a sequence of connections. -/
def registryAfter (r : Registry) (cs : List Connection) : Registry :=
  ((cs.filter (·.Lists)).map Connection.ip).foldl Registry.register r

theorem registryAfter_cons (r : Registry) (c : Connection) (cs : List Connection) :
    registryAfter r (c :: cs)
      = registryAfter (if c.Lists then r.register c.ip else r) cs := by
  by_cases hc : c.Lists <;> simp [registryAfter, hc]

theorem le_length_registryAfter :
    ∀ (cs : List Connection) (r : Registry), r.ips.length ≤ (registryAfter r cs).ips.length := by
  intro cs
  induction cs with
  | nil => intro r; exact Nat.le_refl _
  | cons c cs ih =>
      intro r
      rw [registryAfter_cons]
      refine Nat.le_trans ?_ (ih _)
      split
      · by_cases h : c.ip ∈ r.ips
        · exact Nat.le_of_eq (by rw [Registry.register_of_mem h])
        · simp [Registry.ips_register_of_notMem h]
      · exact Nat.le_refl _

/-- Every completed run keeps the invariant, at the registry of its `list`
requesters. -/
theorem run_refines :
    ∀ (cs : List Connection) {s s' : Server} {r : Registry}, Inv s r → s.run cs = some s' →
    Inv s' (registryAfter r cs) := by
  intro cs
  induction cs with
  | nil =>
      intro s s' r hi h
      cases h
      exact hi
  | cons c cs ih =>
      intro s s' r hi h
      rw [registryAfter_cons]
      by_cases hc : c.Lists
      · rw [if_pos hc]
        by_cases hb : (r.register c.ip).ips.length ≤ maxReply
        · obtain ⟨s₁, out, h₁, hi₁⟩ := handle_lists hi hc hb
          simp only [Server.run, h₁] at h
          exact ih hi₁ h
        · simp only [Server.run, handle_overflow hi hc hb] at h
          cases h
      · rw [if_neg hc]
        simp only [Server.run, handle_ignored s hc] at h
        exact ih hi h

/-- A run completes as long as its registry stays within the bound. -/
theorem run_completes :
    ∀ (cs : List Connection) {s : Server} {r : Registry}, Inv s r →
    (registryAfter r cs).ips.length ≤ maxReply → ∃ s', s.run cs = some s' := by
  intro cs
  induction cs with
  | nil => intro s r _ _; exact ⟨s, rfl⟩
  | cons c cs ih =>
      intro s r hi hb
      rw [registryAfter_cons] at hb
      by_cases hc : c.Lists
      · rw [if_pos hc] at hb
        obtain ⟨s₁, out, h₁, hi₁⟩ := handle_lists hi hc
          (Nat.le_trans (le_length_registryAfter cs _) hb)
        obtain ⟨s', h'⟩ := ih hi₁ hb
        exact ⟨s', by simp only [Server.run, h₁, h']⟩
      · rw [if_neg hc] at hb
        obtain ⟨s', h'⟩ := ih hi hb
        exact ⟨s', by simp only [Server.run, handle_ignored s hc, h']⟩

theorem ips_registryAfter (cs : List Connection) :
    (registryAfter Registry.empty cs).ips = listers cs :=
  Registry.ips_foldl_register _

theorem Reachable.inv {s : Server} (h : Reachable s) : ∃ r, Inv s r := by
  obtain ⟨cs, hcs⟩ := h
  exact ⟨_, run_refines cs inv_start hcs⟩

/-- **The registry invariant.** After any sequence of connections the
linked list holds the `list` requesters, each once and in order of their
first request, the counter is its length, and a connection with any other
request leaves the state alone. The run does complete while there are no
more than `maxReply` requesters. -/
theorem registry_of_run (cs : List Connection) :
    (∀ s, Server.start.run cs = some s →
      Chain s.heap s.cHead (listers cs) ∧ (listers cs).Nodup ∧
      s.numClients.toInt = (listers cs).length ∧
      ∀ c : Connection, ¬ c.Lists → s.handle c = some (s, none)) ∧
    ((listers cs).length ≤ maxReply → ∃ s, Server.start.run cs = some s) := by
  constructor
  · intro s hs
    have hi := run_refines cs inv_start hs
    have hb := hi.bound
    refine ⟨?_, ?_, ?_, fun c hc => handle_ignored s hc⟩
    · rw [← ips_registryAfter]
      exact hi.rep.chain
    · rw [← ips_registryAfter]
      exact (registryAfter Registry.empty cs).nodup
    · rw [hi.rep.count, toInt_ofNat (by unfold maxReply at hb; omega), ips_registryAfter]
  · intro hb
    exact run_completes cs inv_start (by rwa [ips_registryAfter])

end DubstepDucks.Tracker
