import DubstepDucks.CMem.Inet
import DubstepDucks.Tracker.Exchange

/-!
# Tracker — who finds whom

The way of an address through the system: `accept` gives it to the tracker,
`inet_ntoa` prints it, the list keeps the text, a reply carries it to a later
client, and `inet_pton` makes an address of it again, to which that client
connects. `exchange_told` follows one reply from end to end; the rest of the
module is about whole runs of the tracker.

A reply names the clients that listed before, so clients that list once form
an order: each is given those before it, in that order (`exchange_in_order`),
and of every two the later one is given the earlier (`discovery`). A client
that lists again is told of the same addresses, and of new ones behind them
(`told_again`). The room of the client's own tables is not part of this: its
setup loop has one for nine others.
-/

namespace DubstepDucks.Tracker

open CMem Heap

/-! ## The client's side -/

/-- The addresses in `peers`, where it has room for the entries:
`client_socket_wrapper` reads each with `inet_pton`. -/
def dialledAddrs (r : CInt × Mem) : List (Option InAddr) :=
  (storedPeers r).map fun entry => inetPton (cstr entry)

/-- One connection from the accept on: what the server answers, received
whole into `fresh`, and the addresses that `requestPeers` leaves in `peers`.
`none` is no answer. -/
def Server.exchange (s : Server) (c : Connection) (fresh peers : Mem) :
    Option (List (Option InAddr)) :=
  match s.handle c with
  | some (_, some (.sent _ _ data)) =>
      some (dialledAddrs (requestPeers (recvMsg fresh data) 0 peers))
  | _ => none

/-! ## The abstract side -/

/-- The addresses that listed, in the order of their first request. -/
def listedAddrs (cs : List Connection) : List InAddr :=
  ((cs.filter (·.Lists)).map Connection.addr).eraseDups

/-- Whom a client at `addr` is told of after `cs`. -/
def told (cs : List Connection) (addr : InAddr) : List InAddr :=
  (listedAddrs cs).filter (· ≠ addr)

theorem eraseDups_map {α β : Type} [DecidableEq α] [DecidableEq β] {f : α → β}
    (hf : Function.Injective f) (l : List α) : (l.map f).eraseDups = l.eraseDups.map f := by
  induction l using List.reverseRecOn with
  | nil => rfl
  | append_singleton l x ih =>
      rw [List.map_append, List.eraseDups_append, List.eraseDups_append, List.map_append, ih]
      congr 1
      have hmem : f x ∈ l.map f ↔ x ∈ l := List.mem_map_of_injective hf
      by_cases h : x ∈ l <;>
        simp [List.removeAll, -List.mem_map, hmem, h, List.eraseDups_cons]

theorem nodup_eraseDups {α : Type} [DecidableEq α] (l : List α) : l.eraseDups.Nodup := by
  induction l using List.reverseRecOn with
  | nil => exact List.nodup_nil
  | append_singleton l x ih =>
      rw [List.eraseDups_append]
      by_cases h : x ∈ l
      · have hold : [x].removeAll l = [] := by simp [List.removeAll, h]
        rwa [hold, List.eraseDups_nil, List.append_nil]
      · have hnew : [x].removeAll l = [x] := by simp [List.removeAll, h]
        rw [hnew, eraseDups_of_nodup (List.nodup_singleton x)]
        refine ih.append (List.nodup_singleton x) ?_
        intro y hy hyx
        rw [List.mem_singleton] at hyx
        exact h (hyx ▸ List.mem_eraseDups.mp hy)

theorem eraseDups_mono {α : Type} [DecidableEq α] (l l' : List α) :
    l.eraseDups <+: (l ++ l').eraseDups := by
  rw [List.eraseDups_append]
  exact List.prefix_append _ _

/-- The registry holds the texts of the addresses. -/
theorem listers_eq (cs : List Connection) : listers cs = (listedAddrs cs).map inetNtoa := by
  have htexts : (cs.filter (·.Lists)).map Connection.ip
      = ((cs.filter (·.Lists)).map Connection.addr).map inetNtoa := by
    rw [List.map_map]
    rfl
  rw [listers, htexts, eraseDups_map fun x y h => inetNtoa_injective h]
  rfl

theorem mem_listedAddrs {cs : List Connection} {addr : InAddr} :
    addr ∈ listedAddrs cs ↔ ∃ c ∈ cs, c.Lists ∧ c.addr = addr := by
  simp [listedAddrs, and_assoc]

theorem listedAddrs_mono {cs cs' : List Connection} (h : cs <+: cs') :
    listedAddrs cs <+: listedAddrs cs' := by
  obtain ⟨more, rfl⟩ := h
  rw [listedAddrs, listedAddrs, List.filter_append, List.map_append]
  exact eraseDups_mono _ _

/-! ## One exchange -/

/-- The others in the registry are those that a client is told of. -/
theorem others_told (cs : List Connection) (c : Connection) :
    ((registryAfter Registry.empty cs).register c.ip).ips.filter (· ≠ c.ip)
      = (told cs c.addr).map inetNtoa := by
  have hregister := Registry.others_register (registryAfter Registry.empty cs) c.ip
  rw [Registry.others, Registry.others, ips_registryAfter, listers_eq, List.filter_map]
    at hregister
  rw [hregister, told]
  congr 1
  apply List.filter_congr
  intro addr _
  have hiff : inetNtoa addr = c.ip ↔ addr = c.addr :=
    ⟨fun h => inetNtoa_injective h, fun h => by rw [h, Connection.ip]⟩
  simp [hiff]

/-- The texts of addresses, read as addresses. -/
theorem read_back (l : List InAddr) :
    (l.map inetNtoa).map (fun ip => inetPton ip.chars) = l.map some := by
  rw [List.map_map]
  apply List.map_congr_left
  intro addr _
  exact inetPton_dotted addr

/-- One exchange with a server that represents a registry. -/
theorem exchange_of_inv {s : Server} {r : Registry} (hi : Inv s r) (hd : Dotted r)
    {c : Connection} (hc : c.Lists)
    (hn : ((r.register c.ip).ips.filter (· ≠ c.ip)).length ≤ 255) (fresh peers : Mem) :
    s.exchange c fresh peers
      = some (((r.register c.ip).ips.filter (· ≠ c.ip)).map fun ip => inetPton ip.chars) := by
  obtain ⟨s', head, l, hs', hhead, hl, hvals, hrep⟩ := register_lists hi c.ip
  obtain ⟨size, log, data, hsent, -, hstored, -⟩ := peersDelivered_of_le hl hvals
    (Registry.mem_register _ _) (dotted_register hd c.addr) hn c.behind c.fresh fresh peers
  rw [← hrep.count] at hsent
  rw [Server.exchange, handle_sent hc hs' hhead hsent]
  dsimp only
  have hdialled : dialledAddrs (requestPeers (recvMsg fresh data) 0 peers)
      = ((storedPeers (requestPeers (recvMsg fresh data) 0 peers)).map cstr).map inetPton := by
    rw [List.map_map]
    rfl
  rw [hdialled, hstored, List.map_map]
  rfl

/-- One exchange in a run of the server. -/
theorem exchange_of_run {cs : List Connection} {s : Server} (hrun : Server.start.run cs = some s)
    {c : Connection} (hc : c.Lists) (hn : (told cs c.addr).length ≤ 255) (fresh peers : Mem) :
    s.exchange c fresh peers
      = some (((told cs c.addr).map inetNtoa).map fun ip => inetPton ip.chars) := by
  have hd : Dotted (registryAfter Registry.empty cs) :=
    dotted_registryAfter cs (fun ip h => by cases h)
  have hothers := others_told cs c
  rw [← hothers]
  apply exchange_of_inv (run_refines cs inv_start hrun) hd hc
  rw [hothers, List.length_map]
  exact hn

/-- **From `accept` to `connect`.** In every reachable state, a client that
is told of at most 255 others, receives the reply whole and has room for it
in `peers` reads there exactly the addresses of those that listed before it,
each once and in the order of their first request. -/
theorem exchange_told {cs : List Connection} {s : Server} (hrun : Server.start.run cs = some s)
    {c : Connection} (hc : c.Lists) (hn : (told cs c.addr).length ≤ 255) (fresh peers : Mem) :
    s.exchange c fresh peers = some ((told cs c.addr).map some) := by
  rw [exchange_of_run hrun hc hn, read_back]

theorem listedAddrs_manyLists (n : Nat) :
    listedAddrs (manyLists n) = ((manyLists n).map Connection.addr).eraseDups := by
  have hfilter : (manyLists n).filter (·.Lists) = manyLists n := by
    rw [List.filter_eq_self]
    intro c hc
    obtain ⟨k, -, rfl⟩ := List.mem_map.mp hc
    exact decide_eq_true (lists_listConn _)
  rw [listedAddrs, hfilter]

/-- Two clients list, and a third is told of both. -/
theorem exchange_told_two :
    ∃ s, Server.start.run (manyLists 2) = some s ∧
      s.exchange (listConn (addrOfNat 2)) (fun _ => 0) (fun _ => 0)
        = some [some (addrOfNat 0), some (addrOfNat 1)] := by
  have htwo : 2 ≤ maxReply := by decide
  obtain ⟨s, -, hrun, -⟩ := run_manyLists htwo
  have htold : told (manyLists 2) (listConn (addrOfNat 2)).addr = [addrOfNat 0, addrOfNat 1] := by
    rw [told, listedAddrs_manyLists]
    decide
  have hfew : (told (manyLists 2) (listConn (addrOfNat 2)).addr).length ≤ 255 := by
    rw [htold]
    decide
  refine ⟨s, hrun, ?_⟩
  rw [exchange_told hrun (lists_listConn _) hfew, htold]
  rfl

/-! ## Whole runs -/

/-- `MAXCLIENTS`, which no code reads. -/
def maxClients : Nat := 255

/-- In the run `cs` the client of connection `i` is given `addr`. -/
def Given (cs : List Connection) (i : Nat) (addr : InAddr) (fresh peers : Mem) : Prop :=
  ∃ s c l, Server.start.run (cs.take i) = some s ∧ cs[i]? = some c ∧
    s.exchange c fresh peers = some l ∧ some addr ∈ l

theorem mem_told {cs : List Connection} {addr self : InAddr} :
    addr ∈ told cs self ↔ (∃ c ∈ cs, c.Lists ∧ c.addr = addr) ∧ addr ≠ self := by
  rw [told, List.mem_filter, mem_listedAddrs]
  simp

/-- The connections before the `i`-th one. -/
theorem exists_mem_take {cs : List Connection} {i : Nat} {P : Connection → Prop} :
    (∃ c ∈ cs.take i, P c) ↔ ∃ k c, k < i ∧ cs[k]? = some c ∧ P c := by
  constructor
  · rintro ⟨c, hc, hP⟩
    obtain ⟨k, hk⟩ := List.mem_iff_getElem?.mp hc
    rw [List.getElem?_take] at hk
    split at hk
    · next hlt => exact ⟨k, c, hlt, hk, hP⟩
    · cases hk
  · rintro ⟨k, c, hlt, hk, hP⟩
    refine ⟨c, List.mem_iff_getElem?.mpr ⟨k, ?_⟩, hP⟩
    rw [List.getElem?_take_of_lt hlt, hk]

/-- While no more clients list than `maxClients`, every request is answered
with those before it. -/
theorem exchange_within {cs : List Connection} (hmax : (listedAddrs cs).length ≤ maxClients)
    {c : Connection} (hc : c.Lists) (fresh peers : Mem) :
    ∃ s, Server.start.run cs = some s ∧
      s.exchange c fresh peers = some ((told cs c.addr).map some) := by
  have hreply : (registryAfter Registry.empty cs).ips.length ≤ maxReply := by
    rw [ips_registryAfter, listers_eq, List.length_map]
    exact Nat.le_trans hmax (by decide)
  have htold : (told cs c.addr).length ≤ 255 := Nat.le_trans (List.length_filter_le _ _) hmax
  obtain ⟨s, hs⟩ := run_completes cs inv_start hreply
  refine ⟨s, hs, ?_⟩
  rw [exchange_of_run hs hc htold, read_back]

theorem given_iff {cs : List Connection} (hmax : (listedAddrs cs).length ≤ maxClients) {i : Nat}
    {c : Connection} (hi : cs[i]? = some c) (hc : c.Lists) {addr : InAddr} {fresh peers : Mem} :
    Given cs i addr fresh peers ↔
      (∃ k c', k < i ∧ cs[k]? = some c' ∧ c'.Lists ∧ c'.addr = addr) ∧ addr ≠ c.addr := by
  have hbefore := (listedAddrs_mono (List.take_prefix i cs)).length_le
  obtain ⟨s, hs, hexchange⟩ := exchange_within (Nat.le_trans hbefore hmax) hc fresh peers
  have hmem : Given cs i addr fresh peers ↔ addr ∈ told (cs.take i) c.addr := by
    constructor
    · rintro ⟨s', c', l, hs', hi', hl, hmem⟩
      rw [hs] at hs'
      cases hs'
      rw [hi] at hi'
      cases hi'
      rw [hexchange] at hl
      cases hl
      simpa using hmem
    · intro hmem
      exact ⟨s, c, _, hs, hi, hexchange, by simpa using hmem⟩
  rw [hmem, mem_told, exists_mem_take]

/-- Clients that list once are given the addresses of those before them, in
the order of their requests. -/
theorem exchange_in_order {cs : List Connection} (hlists : ∀ c ∈ cs, c.Lists)
    (hnodup : (cs.map Connection.addr).Nodup) (hmax : cs.length ≤ maxClients) {i : Nat}
    {c : Connection} (hi : cs[i]? = some c) (fresh peers : Mem) :
    ∃ s, Server.start.run (cs.take i) = some s ∧
      s.exchange c fresh peers = some ((cs.take i).map fun c => some c.addr) := by
  have hbefore : (cs.take i).filter (·.Lists) = cs.take i := by
    rw [List.filter_eq_self]
    intro c' hc'
    exact decide_eq_true (hlists c' (List.mem_of_mem_take hc'))
  have hlisted : listedAddrs (cs.take i) = (cs.take i).map Connection.addr := by
    have hfirst : ((cs.map Connection.addr).take i).Nodup :=
      hnodup.sublist (List.take_sublist _ _)
    rw [listedAddrs, hbefore, List.map_take, eraseDups_of_nodup hfirst]
  have htold : told (cs.take i) c.addr = (cs.take i).map Connection.addr := by
    rw [told, hlisted, List.filter_eq_self]
    intro addr haddr
    -- the address of the requester comes only once
    have hne : addr ≠ c.addr := by
      rintro rfl
      rw [List.map_take] at haddr
      obtain ⟨j, hj, heq⟩ := List.mem_take_iff_getElem.mp haddr
      have hat : (cs.map Connection.addr)[i]? = some c.addr := by
        rw [List.getElem?_map, hi]
        rfl
      obtain ⟨hlt, hc⟩ := List.getElem?_eq_some_iff.mp hat
      have hij := hnodup.getElem_inj_iff.mp (heq.trans hc.symm)
      omega
    exact decide_eq_true hne
  have hfew : (listedAddrs (cs.take i)).length ≤ maxClients := by
    rw [hlisted, List.length_map, List.length_take]
    omega
  obtain ⟨s, hs, hexchange⟩ :=
    exchange_within hfew (hlists c (List.mem_of_getElem? hi)) fresh peers
  refine ⟨s, hs, ?_⟩
  rw [hexchange, htold, List.map_map]
  rfl

/-- **Who finds whom.** Of two clients with different addresses, the one
that lists later is given the address of the earlier one; the earlier one is
given the later one's only if that one had listed even before. So of every
two clients that list once, exactly one is given the other's address. -/
theorem discovery {cs : List Connection} (hmax : (listedAddrs cs).length ≤ maxClients) {i j : Nat}
    {c c' : Connection} (hi : cs[i]? = some c) (hj : cs[j]? = some c') (hc : c.Lists)
    (hc' : c'.Lists) (hlt : i < j) (hne : c.addr ≠ c'.addr) (fresh peers : Mem) :
    Given cs j c.addr fresh peers ∧
      (Given cs i c'.addr fresh peers ↔
        ∃ k c'', k < i ∧ cs[k]? = some c'' ∧ c''.Lists ∧ c''.addr = c'.addr) := by
  refine ⟨?_, ?_⟩
  · exact (given_iff hmax hj hc').mpr ⟨⟨i, c, hlt, hi, hc, rfl⟩, hne⟩
  · rw [given_iff hmax hi hc]
    exact ⟨fun h => h.1, fun h => ⟨h, hne.symm⟩⟩

/-- Of three clients the last is given the first, and not the other way. -/
theorem discovery_three :
    Given (manyLists 3) 2 (addrOfNat 0) (fun _ => 0) (fun _ => 0) ∧
      ¬ Given (manyLists 3) 0 (addrOfNat 2) (fun _ => 0) (fun _ => 0) := by
  have hmax : (listedAddrs (manyLists 3)).length ≤ maxClients := by
    rw [listedAddrs_manyLists]
    decide
  have hfirst : (manyLists 3)[0]? = some (listConn (addrOfNat 0)) := rfl
  have hlast : (manyLists 3)[2]? = some (listConn (addrOfNat 2)) := rfl
  obtain ⟨hlater, hearlier⟩ := discovery hmax hfirst hlast (lists_listConn _) (lists_listConn _)
    (by decide) (by decide) (fun _ => 0) fun _ => 0
  refine ⟨hlater, ?_⟩
  intro hgiven
  obtain ⟨k, -, hk, -⟩ := hearlier.mp hgiven
  exact absurd hk (Nat.not_lt_zero k)

theorem told_nodup (cs : List Connection) (addr : InAddr) : (told cs addr).Nodup :=
  (nodup_eraseDups _).filter _

/-- **Asking again.** However many clients come in between, one that lists a
second time is given the addresses of the first reply again, in the same
order, and behind them others that it was not given before. -/
theorem told_again {cs more : List Connection}
    (hmax : (listedAddrs (cs ++ more)).length ≤ maxClients) {c c' : Connection} (hc : c.Lists)
    (hc' : c'.Lists) (hsame : c.addr = c'.addr) (fresh peers fresh' peers' : Mem) :
    ∃ s s' l new, Server.start.run cs = some s ∧ Server.start.run (cs ++ more) = some s' ∧
      s.exchange c fresh peers = some l ∧ s'.exchange c' fresh' peers' = some (l ++ new) ∧
      (l ++ new).Nodup := by
  have hgrows : listedAddrs cs <+: listedAddrs (cs ++ more) :=
    listedAddrs_mono (List.prefix_append cs more)
  obtain ⟨s, hs, hexchange⟩ :=
    exchange_within (Nat.le_trans hgrows.length_le hmax) hc fresh peers
  obtain ⟨s', hs', hexchange'⟩ := exchange_within hmax hc' fresh' peers'
  obtain ⟨new, hnew⟩ : told cs c.addr <+: told (cs ++ more) c'.addr := by
    rw [hsame]
    exact hgrows.filter _
  have hnodup : ((told (cs ++ more) c'.addr).map some).Nodup :=
    (told_nodup _ _).map (Option.some_injective _)
  rw [← hnew, List.map_append] at hnodup
  refine ⟨s, s', _, new.map some, hs, hs', hexchange, ?_, hnodup⟩
  rw [hexchange', ← hnew, List.map_append]

/-- The third client is told of two others, and when it asks again, after two
more, of all four. -/
theorem told_again_third :
    ∃ s s' new, Server.start.run (manyLists 2) = some s ∧
      Server.start.run (manyLists 2 ++ (manyLists 5).drop 2) = some s' ∧
      s.exchange (listConn (addrOfNat 2)) (fun _ => 0) (fun _ => 0)
        = some [some (addrOfNat 0), some (addrOfNat 1)] ∧
      s'.exchange (listConn (addrOfNat 2)) (fun _ => 0) (fun _ => 0)
        = some ([some (addrOfNat 0), some (addrOfNat 1)] ++ new) ∧
      ([some (addrOfNat 0), some (addrOfNat 1)] ++ new).Nodup := by
  have hrequests : manyLists 2 ++ (manyLists 5).drop 2 = manyLists 5 := rfl
  have hmax : (listedAddrs (manyLists 2 ++ (manyLists 5).drop 2)).length ≤ maxClients := by
    rw [hrequests, listedAddrs_manyLists]
    decide
  obtain ⟨s, s', l, new, hs, hs', hl, hagain, hnodup⟩ := told_again hmax
    (lists_listConn (addrOfNat 2)) (lists_listConn (addrOfNat 2)) rfl (fun _ => 0) (fun _ => 0)
    (fun _ => 0) fun _ => 0
  have htold : told (manyLists 2) (listConn (addrOfNat 2)).addr = [addrOfNat 0, addrOfNat 1] := by
    rw [told, listedAddrs_manyLists]
    decide
  have hfirst := exchange_of_run hs (lists_listConn (addrOfNat 2))
    (by rw [htold]; decide) (fun _ => 0) fun _ => 0
  rw [read_back, htold, hl, Option.some.injEq] at hfirst
  subst hfirst
  exact ⟨s, s', new, hs, hs', hl, hagain, hnodup⟩

end DubstepDucks.Tracker
