import DubstepDucks.Torrent.Setup

/-!
# Torrent — sockets, their slots and their records

The table of descriptors together with the sockets that are open. A socket
remembers the record that `initialize_connection` was called on for it: the
setup loop initialises `connections[i]` for the socket it puts into
`fds[i+1]`, the accept branch initialises none. The machine takes any
sequence of accepts and drops that the kernel can produce; the runs of the
client are such sequences (`serving_sockets`).

Two things are said about it. The table is in order only as long as nothing
was connected in the setup loop and at most one connection accepted
(`connection_table_iff`), and no socket is ever served with its own record
(`socket_record_iff`).
-/

namespace DubstepDucks.Torrent

open CMem Btp History

/-- An open socket. -/
structure Sock where
  fd : Nat
  /-- The record initialised for it. -/
  record : Option Nat
  deriving DecidableEq, Repr

structure Sockets where
  table : Table
  live : List Sock

def Sockets.step (x : Sockets) : TableStep → Sockets
  | .accept socket => ⟨x.table.step (.accept socket), ⟨socket, none⟩ :: x.live⟩
  | .drop slot =>
      ⟨x.table.step (.drop slot), x.live.filter fun y => (y.fd : Int) ≠ x.table.fds slot⟩

/-- `accept` returns a descriptor that is not open, and the loop notices a
drop on an open slot that it serves. -/
def Sockets.guard (x : Sockets) : TableStep → Prop
  | .accept socket =>
      0 < socket ∧ (socket : Int) ≠ x.table.fds 0 ∧ ∀ y ∈ x.live, y.fd ≠ socket
  | .drop slot => 1 ≤ slot ∧ slot ≤ x.table.maxPeerIndex ∧ 0 ≤ x.table.fds slot

def socketMachine : Machine Sockets TableStep := ⟨Sockets.step, Sockets.guard⟩

/-- The sockets that the setup loop leaves. -/
def Sockets.connected (listener : Nat) (sockets : List Nat) : Sockets where
  table := Table.connected listener sockets
  live := sockets.mapIdx fun i socket => ⟨socket, some i⟩

/-- The descriptors that `socket` returned in the setup loop. -/
structure Fresh (sockets : List Nat) : Prop where
  pos : ∀ c ∈ sockets, 0 < c
  nodup : sockets.Nodup

/-! ## The client's runs are sequences of such steps -/

theorem after_table (x : Sockets) (steps : List TableStep) :
    (socketMachine.after x steps).table = steps.foldl Table.step x.table := by
  induction steps using List.reverseRecOn with
  | nil => rfl
  | append_singleton steps st ih =>
      rw [Machine.after_concat, List.foldl_append, ← ih]
      cases st <;> rfl

theorem serving_slot_pos {sha1 : List Byte → Digest} {ans : BtInfo} {listener : Nat}
    {dials : List Dial} {steps : List TableStep} {s : Client}
    (h : Serving sha1 ans listener dials steps s) : 1 ≤ s.i := by
  have hfrom : ∀ (dials : List Dial) (s s' : Client) (i : Nat),
      setupFrom ans s i dials = .ok s' → s'.i = 1 := by
    intro dials
    induction dials with
    | nil =>
        intro s s' i h
        cases h
        rfl
    | cons d dials ih =>
        intro s s' i h
        rw [setupFrom] at h
        split at h
        · cases h
        · exact ih _ _ _ h
  cases h with
  | start hsetup => exact Nat.le_of_eq (hfrom _ _ _ _ hsetup).symm
  | round poll hbefore hready =>
      cases poll with
      | nothing =>
          show 1 ≤ _
          exact Nat.lt_of_le_of_lt (Nat.zero_le _) hready
      | ready pollout accepted => cases accepted <;> exact Nat.le_refl 1
  | turn r eRecv eSend hbefore hturn hok =>
      rw [turn] at hok
      split at hok
      · cases hok
      · split at hok
        · cases hok
          exact Nat.succ_le_succ (Nat.zero_le _)
        · split at hok
          · cases hok
          · split at hok
            · cases hok
            · cases hok
              exact Nat.succ_le_succ (Nat.zero_le _)

/-- A run whose accepted descriptors are new is a run of the machine. -/
theorem serving_sockets {sha1 : List Byte → Digest} {ans : BtInfo} {listener : Nat}
    {dials : List Dial} {steps : List TableStep} {s : Client}
    (h : Serving sha1 ans listener dials steps s)
    (hnew : ∀ pre socket, pre ++ [.accept socket] <+: steps →
      (socketMachine.after (.connected listener (dials.map Dial.socket)) pre).guard
        (.accept socket)) :
    socketMachine.Admits (.connected listener (dials.map Dial.socket)) steps := by
  induction h with
  | start => exact Machine.admits_nil _
  | @round steps s poll hbefore hready ih =>
      have hearlier := ih fun pre socket hpre => hnew pre socket
        (hpre.trans (List.prefix_append _ _))
      cases poll with
      | nothing => simpa [pollSteps] using hearlier
      | ready pollout accepted =>
          cases accepted with
          | none => simpa [pollSteps] using hearlier
          | some socket =>
              exact Machine.admits_concat.mpr ⟨hearlier, hnew _ _ List.prefix_rfl⟩
  | @turn steps s s' evs r eRecv eSend hbefore hturn hok ih =>
      have hearlier := ih fun pre socket hpre => hnew pre socket
        (hpre.trans (List.prefix_append _ _))
      cases r with
      | closed =>
          rw [passSteps]
          split
          · simpa using hearlier
          · next hopen =>
            refine Machine.admits_concat.mpr ⟨hearlier, serving_slot_pos hbefore, ?_⟩
            rw [after_table]
            show _ ≤ (List.foldl _ (Table.connected _ _) _).maxPeerIndex ∧
              0 ≤ (List.foldl _ (Table.connected _ _) _).fds _
            rw [← serving_table hbefore]
            exact ⟨hturn, Int.not_lt.mp hopen⟩
      | _ => simpa [passSteps] using hearlier

/-! ## The table in order -/

/-- Every open socket occupies one slot, among those the loop serves, and
every slot that the loop serves holds an open socket or -1. -/
structure TableOk (x : Sockets) : Prop where
  slot : ∀ y ∈ x.live, ∃ i, 1 ≤ i ∧ i ≤ x.table.maxPeerIndex ∧ x.table.fds i = y.fd ∧
    ∀ j, j < maxPeers → x.table.fds j = y.fd → j = i
  bound : x.table.maxPeerIndex < maxPeers
  holds : ∀ i, 1 ≤ i → i ≤ x.table.maxPeerIndex →
    x.table.fds i = -1 ∨ ∃ y ∈ x.live, x.table.fds i = y.fd

def TableStep.isAccept : TableStep → Bool
  | .accept _ => true
  | .drop _ => false

/-- While at most one connection was accepted and none made in the setup
loop: the slots behind the first are as they were zeroed, and slot 1 holds
the one socket or -1. -/
structure Quiet (steps : List TableStep) (x : Sockets) : Prop where
  count : x.table.maxPeerIndex = steps.countP TableStep.isAccept
  once : steps.countP TableStep.isAccept ≤ 1
  zeroed : ∀ j, 2 ≤ j → x.table.fds j = 0
  sockets : x.live = [] ∨ ∃ c, x.live = [c] ∧ 0 < c.fd ∧ x.table.fds 1 = c.fd ∧
    x.table.fds 0 ≠ c.fd ∧ x.table.maxPeerIndex = 1
  first : x.table.maxPeerIndex = 1 → x.live = [] → x.table.fds 1 = -1

theorem Quiet.tableOk {steps : List TableStep} {x : Sockets} (h : Quiet steps x) : TableOk x := by
  have hmax : x.table.maxPeerIndex ≤ 1 := by
    rw [h.count]
    exact h.once
  refine ⟨?_, by rw [maxPeers]; omega, ?_⟩
  · intro y hy
    rcases h.sockets with hnone | ⟨c, hlive, hpos, hfirst, hlistener, hone⟩
    · rw [hnone] at hy
      cases hy
    · rw [hlive] at hy
      obtain rfl := List.mem_singleton.mp hy
      refine ⟨1, Nat.le_refl 1, by omega, hfirst, ?_⟩
      intro j _ hj
      rcases Nat.lt_trichotomy j 1 with hlt | heq | hgt
      · obtain rfl : j = 0 := by omega
        exact absurd hj hlistener
      · exact heq
      · rw [h.zeroed j hgt] at hj
        omega
  · intro i hi hle
    obtain rfl : i = 1 := by omega
    rcases h.sockets with hnone | ⟨c, hlive, -, hfirst, -⟩
    · exact .inl (h.first (by omega) hnone)
    · exact .inr ⟨c, by rw [hlive]; simp, hfirst⟩

/-- A first accept, and the drop of it, leave a quiet table. -/
theorem Quiet.step {steps : List TableStep} {x : Sockets} {st : TableStep} (h : Quiet steps x)
    (hguard : x.guard st) (honce : (steps ++ [st]).countP TableStep.isAccept ≤ 1) :
    Quiet (steps ++ [st]) (x.step st) := by
  have hcount := h.count
  cases st with
  | accept c =>
      obtain ⟨hpos, hlistener, -⟩ := hguard
      have hplus : (steps ++ [TableStep.accept c]).countP TableStep.isAccept
          = steps.countP TableStep.isAccept + 1 := by
        simp [TableStep.isAccept]
      have hlive : x.live = [] := by
        rcases h.sockets with hnone | ⟨_, -, -, -, -, hone⟩
        · exact hnone
        · omega
      refine ⟨?_, honce, ?_, .inr ⟨⟨c, none⟩, ?_, hpos, ?_, ?_, ?_⟩, ?_⟩
      · rw [hplus, ← hcount]
        rfl
      · intro j hj
        rw [← h.zeroed j hj]
        exact if_neg (by omega)
      · rw [Sockets.step, hlive]
      · rfl
      · exact fun heq => hlistener heq.symm
      · show x.table.maxPeerIndex + 1 = 1
        omega
      · intro _ hnil
        cases hnil
  | drop k =>
      obtain ⟨hk, hle, hopen⟩ := hguard
      have hsame : (steps ++ [TableStep.drop k]).countP TableStep.isAccept
          = steps.countP TableStep.isAccept := by
        simp [TableStep.isAccept]
      have honce' := h.once
      obtain rfl : k = 1 := by omega
      refine ⟨?_, honce, ?_, .inl ?_, fun _ _ => rfl⟩
      · rw [hsame, ← hcount]
        rfl
      · intro j hj
        rw [← h.zeroed j hj]
        exact if_neg (by omega)
      · rcases h.sockets with hnone | ⟨c, hlive, -, hfirst, -⟩
        · rw [Sockets.step, hnone]
          rfl
        · rw [Sockets.step, hlive, hfirst]
          simp

theorem quiet_start (listener : Nat) : Quiet [] (Sockets.connected listener []) := by
  refine ⟨rfl, Nat.zero_le 1, ?_, .inl rfl, nofun⟩
  intro j hj
  obtain ⟨i, rfl⟩ : ∃ i, j = i + 1 := ⟨j - 1, by omega⟩
  rfl

/-- After a second accept the loop also serves slot 2, which nothing was put
into: its descriptor is still the zeroed one. -/
theorem Quiet.second_accept {steps : List TableStep} {x : Sockets} {st : TableStep}
    (h : Quiet steps x) (hguard : x.guard st) (hok : TableOk (x.step st)) :
    (steps ++ [st]).countP TableStep.isAccept ≤ 1 := by
  have honce := h.once
  have hcount := h.count
  cases st with
  | drop k => simpa [TableStep.isAccept] using honce
  | accept c =>
      have hplus : (steps ++ [TableStep.accept c]).countP TableStep.isAccept
          = steps.countP TableStep.isAccept + 1 := by
        simp [TableStep.isAccept]
      by_contra htwo
      have hmax : (x.step (.accept c)).table.maxPeerIndex = 2 := by
        show x.table.maxPeerIndex + 1 = 2
        omega
      have hsecond : (x.step (.accept c)).table.fds 2 = 0 := h.zeroed 2 (Nat.le_refl 2)
      rcases hok.holds 2 (by omega) (by omega) with hminus | ⟨y, hy, hfd⟩
      · rw [hsecond] at hminus
        cases hminus
      · have hypos : 0 < y.fd := by
          rcases List.mem_cons.mp hy with rfl | hlive
          · exact hguard.1
          · rcases h.sockets with hnone | ⟨d, hone, hpos, -⟩
            · rw [hnone] at hlive
              cases hlive
            · rw [hone] at hlive
              obtain rfl := List.mem_singleton.mp hlive
              exact hpos
        rw [hsecond] at hfd
        omega

/-- **The connection table.** Over any accepts and drops, the table is in
order in every state exactly when no peer was connected in the setup loop
and at most one connection is accepted. -/
theorem connection_table_iff {listener : Nat} {sockets : List Nat} {steps : List TableStep}
    (hsteps : socketMachine.Admits (.connected listener sockets) steps) :
    (∀ pre, pre <+: steps → TableOk (socketMachine.after (.connected listener sockets) pre)) ↔
      sockets = [] ∧ steps.countP TableStep.isAccept ≤ 1 := by
  constructor
  · intro hok
    have hnone : sockets = [] := by
      cases sockets with
      | nil => rfl
      | cons c rest =>
          -- the first peer is in slot 1, and `max_peer_index` is 0
          obtain ⟨i, hi, hle, -⟩ := (hok [] List.nil_prefix).slot ⟨c, some 0⟩ (by
            simp [Machine.after, Sockets.connected])
          have hmax : (socketMachine.after (.connected listener (c :: rest)) []).table.maxPeerIndex
              = 0 := rfl
          omega
    subst hnone
    refine ⟨rfl, ?_⟩
    have hquiet := hsteps.invariant Quiet (quiet_start listener)
      (fun pre st hpre hguard hinv => hinv.step hguard (hinv.second_accept hguard (by
        have hafter := hok (pre ++ [st]) hpre
        rwa [Machine.after_concat] at hafter)))
    exact (hquiet steps List.prefix_rfl).once
  · rintro ⟨rfl, honce⟩ pre hpre
    have hquiet := hsteps.invariant Quiet (quiet_start listener)
      (fun pre st hpre hguard hinv => hinv.step hguard
        (Nat.le_trans hpre.sublist.countP_le honce))
    exact (hquiet pre hpre).tableOk

/-- One connection, accepted and dropped. -/
theorem connection_table_iff_single :
    socketMachine.Admits (.connected 3 []) [.accept 6, .drop 1] ∧
    ∀ pre, pre <+: [.accept 6, .drop 1] →
      TableOk (socketMachine.after (.connected 3 []) pre) := by
  have hsteps : socketMachine.Admits (.connected 3 []) [.accept 6, .drop 1] := by
    rw [Machine.Admits]
    simp only [forall_prefix_cons, forall_prefix_nil, and_true]
    refine ⟨⟨by decide, by decide, nofun⟩, ⟨Nat.le_refl 1, Nat.le_refl 1, ?_⟩⟩
    exact Int.natCast_nonneg 6
  exact ⟨hsteps, (connection_table_iff hsteps).mpr ⟨rfl, by decide⟩⟩

/-- One peer connected in the setup loop: its slot is 1, and the loop serves
no slot. -/
theorem connection_table_iff_dialled :
    ¬ ∀ (listener : Nat) (sockets : List Nat) (steps : List TableStep), Fresh sockets →
      socketMachine.Admits (.connected listener sockets) steps →
      ∀ pre, pre <+: steps → TableOk (socketMachine.after (.connected listener sockets) pre) := by
  intro hclaim
  have hok := hclaim 3 [4] [] ⟨by decide, by decide⟩ (Machine.admits_nil _) [] List.prefix_rfl
  obtain ⟨i, hi, hle, -⟩ := hok.slot ⟨4, some 0⟩ (List.mem_singleton_self _)
  have hmax : (socketMachine.after (.connected 3 [4]) []).table.maxPeerIndex = 0 := rfl
  omega

/-! ## Records -/

/-- A slot that holds a socket holds one with no record, or with the record
before the slot's number. -/
structure Shifted (x : Sockets) : Prop where
  pos : ∀ y ∈ x.live, 0 < y.fd
  distinct : ∀ y ∈ x.live, ∀ z ∈ x.live, y.fd = z.fd → y = z
  slots : ∀ k, 1 ≤ k → x.table.fds k ≤ 0 ∨
    ∃ y ∈ x.live, x.table.fds k = y.fd ∧ (y.record = none ∨ y.record = some (k - 1))
  apart : ∀ j k, 1 ≤ j → 1 ≤ k → 0 < x.table.fds j → x.table.fds j = x.table.fds k → j = k

theorem mem_connected {listener : Nat} {sockets : List Nat} {y : Sock} :
    y ∈ (Sockets.connected listener sockets).live ↔ ∃ i, sockets[i]? = some y.fd ∧
      y.record = some i := by
  rw [Sockets.connected, List.mem_mapIdx]
  constructor
  · rintro ⟨i, hi, rfl⟩
    exact ⟨i, List.getElem?_eq_getElem hi, rfl⟩
  · rintro ⟨i, hget, hrecord⟩
    obtain ⟨hi, hfd⟩ := List.getElem?_eq_some_iff.mp hget
    refine ⟨i, hi, ?_⟩
    rw [hfd, ← hrecord]

theorem shifted_start {listener : Nat} {sockets : List Nat} (h : Fresh sockets) :
    Shifted (.connected listener sockets) := by
  have hslot : ∀ k, 1 ≤ k → (Sockets.connected listener sockets).table.fds k
      = (sockets[k - 1]?).getD 0 := by
    intro k hk
    obtain ⟨i, rfl⟩ : ∃ i, k = i + 1 := ⟨k - 1, by omega⟩
    rfl
  refine ⟨?_, ?_, ?_, ?_⟩
  · intro y hy
    obtain ⟨i, hget, -⟩ := mem_connected.mp hy
    exact h.pos _ (List.mem_of_getElem? hget)
  · intro y hy z hz hfd
    obtain ⟨i, hi, hyrec⟩ := mem_connected.mp hy
    obtain ⟨j, hj, hzrec⟩ := mem_connected.mp hz
    obtain ⟨hilt, higet⟩ := List.getElem?_eq_some_iff.mp hi
    obtain ⟨hjlt, hjget⟩ := List.getElem?_eq_some_iff.mp hj
    have hij : i = j := (List.getElem_inj h.nodup).mp (by rw [higet, hjget, hfd])
    obtain ⟨yfd, yrecord⟩ := y
    obtain ⟨zfd, zrecord⟩ := z
    dsimp only at hfd hyrec hzrec
    rw [hfd, hyrec, hzrec, hij]
  · intro k hk
    rw [hslot k hk]
    cases hget : sockets[k - 1]? with
    | none => exact .inl (Int.le_refl 0)
    | some c => exact .inr ⟨⟨c, some (k - 1)⟩, mem_connected.mpr ⟨k - 1, hget, rfl⟩, rfl, .inr rfl⟩
  · intro j k hj hk hpos hsame
    rw [hslot j hj] at hpos hsame
    rw [hslot k hk] at hsame
    cases hgetj : sockets[j - 1]? with
    | none =>
        rw [hgetj] at hpos
        exact absurd hpos (Int.lt_irrefl 0)
    | some c =>
        cases hgetk : sockets[k - 1]? with
        | none =>
            rw [hsame, hgetk] at hpos
            exact absurd hpos (Int.lt_irrefl 0)
        | some d =>
            rw [hgetj, hgetk] at hsame
            obtain ⟨hjlt, hjget⟩ := List.getElem?_eq_some_iff.mp hgetj
            obtain ⟨hklt, hkget⟩ := List.getElem?_eq_some_iff.mp hgetk
            have hcd : c = d := Int.ofNat.inj hsame
            have hjk : j - 1 = k - 1 := (List.getElem_inj h.nodup).mp (by rw [hjget, hkget, hcd])
            omega

theorem Shifted.step {x : Sockets} {st : TableStep} (h : Shifted x) (hguard : x.guard st) :
    Shifted (x.step st) := by
  cases st with
  | accept c =>
      obtain ⟨hpos, -, hnew⟩ := hguard
      have hfirst : (x.step (.accept c)).table.fds 1 = c := rfl
      have hother : ∀ k, k ≠ 1 → (x.step (.accept c)).table.fds k = x.table.fds k :=
        fun k hk => if_neg hk
      -- no slot holds the new descriptor yet
      have hunused : ∀ k, 1 ≤ k → x.table.fds k ≠ c := by
        intro k hk heq
        rcases h.slots k hk with hle | ⟨y, hy, hfd, -⟩
        · omega
        · exact hnew y hy (by omega)
      refine ⟨?_, ?_, ?_, ?_⟩
      · intro y hy
        rcases List.mem_cons.mp hy with rfl | hy
        · exact hpos
        · exact h.pos y hy
      · intro y hy z hz hfd
        rcases List.mem_cons.mp hy with rfl | hy <;> rcases List.mem_cons.mp hz with rfl | hz
        · rfl
        · exact absurd hfd.symm (hnew z hz)
        · exact absurd hfd (hnew y hy)
        · exact h.distinct y hy z hz hfd
      · intro k hk
        by_cases hone : k = 1
        · rw [hone, hfirst]
          exact .inr ⟨⟨c, none⟩, List.mem_cons_self .., rfl, .inl rfl⟩
        · rw [hother k hone]
          rcases h.slots k hk with hle | ⟨y, hy, hfd, hrecord⟩
          · exact .inl hle
          · exact .inr ⟨y, List.mem_cons_of_mem _ hy, hfd, hrecord⟩
      · intro j k hj hk hjpos hsame
        by_cases hj1 : j = 1 <;> by_cases hk1 : k = 1
        · rw [hj1, hk1]
        · rw [hj1, hfirst, hother k hk1] at hsame
          exact absurd hsame.symm (hunused k hk)
        · rw [hk1, hfirst, hother j hj1] at hsame
          exact absurd hsame (hunused j hj)
        · rw [hother j hj1] at hjpos hsame
          rw [hother k hk1] at hsame
          exact h.apart j k hj hk hjpos hsame
  | drop slot =>
      obtain ⟨hslot, -, hopen⟩ := hguard
      have hfirst : (x.step (.drop slot)).table.fds slot = -1 := if_pos rfl
      have hother : ∀ k, k ≠ slot → (x.step (.drop slot)).table.fds k = x.table.fds k :=
        fun k hk => if_neg hk
      have hlive : ∀ y, y ∈ (x.step (.drop slot)).live ↔
          y ∈ x.live ∧ (y.fd : Int) ≠ x.table.fds slot := by
        intro y
        simp [Sockets.step]
      refine ⟨?_, ?_, ?_, ?_⟩
      · intro y hy
        exact h.pos y ((hlive y).mp hy).1
      · intro y hy z hz hfd
        exact h.distinct y ((hlive y).mp hy).1 z ((hlive z).mp hz).1 hfd
      · intro k hk
        by_cases hk1 : k = slot
        · rw [hk1, hfirst]
          exact .inl (by decide)
        · rw [hother k hk1]
          rcases h.slots k hk with hle | ⟨y, hy, hfd, hrecord⟩
          · exact .inl hle
          · refine .inr ⟨y, (hlive y).mpr ⟨hy, ?_⟩, hfd, hrecord⟩
            intro heq
            have hypos := h.pos y hy
            exact hk1 (h.apart k slot hk hslot (by omega) (by omega))
      · intro j k hj hk hjpos hsame
        by_cases hj1 : j = slot
        · rw [hj1, hfirst] at hjpos
          exact absurd hjpos (by decide)
        · rw [hother j hj1] at hjpos hsame
          by_cases hk1 : k = slot
          · rw [hk1, hfirst] at hsame
            omega
          · rw [hother k hk1] at hsame
            exact h.apart j k hj hk hjpos hsame

/-- The sockets that are open after the setup loop and the steps. -/
def openSockets (listener : Nat) (dials : List Dial) (steps : List TableStep) : List Sock :=
  (socketMachine.after (.connected listener (dials.map Dial.socket)) steps).live

/-- The kernel hands out no descriptor that is open. -/
def NewSockets (listener : Nat) (dials : List Dial) (steps : List TableStep) : Prop :=
  Fresh (dials.map Dial.socket) ∧ ∀ pre socket, pre ++ [.accept socket] <+: steps →
    (socketMachine.after (.connected listener (dials.map Dial.socket)) pre).guard (.accept socket)

/-- **A socket keeps its record** exactly when it is not served: in every
state of every run, the pass for slot `s.i` finds there the record that was
initialised for the socket in the slot only if there is no socket in it. -/
theorem socket_record_iff {sha1 : List Byte → Digest} {ans : BtInfo} {listener : Nat}
    {dials : List Dial} {steps : List TableStep} {s : Client}
    (h : Serving sha1 ans listener dials steps s) (hnew : NewSockets listener dials steps) :
    (∀ x ∈ openSockets listener dials steps, (s.fds s.i).fd = x.fd → x.record = some s.i) ↔
      ∀ x ∈ openSockets listener dials steps, (s.fds s.i).fd ≠ x.fd := by
  have hadmits := serving_sockets h hnew.2
  have hshifted :
      Shifted (socketMachine.after (.connected listener (dials.map Dial.socket)) steps) :=
    hadmits.invariant (fun _ => Shifted) (shifted_start hnew.1)
      (fun _ _ _ hguard hinv => hinv.step hguard) steps List.prefix_rfl
  have htable : (socketMachine.after (.connected listener (dials.map Dial.socket)) steps).table
      = s.table := by
    rw [after_table, serving_table h]
    rfl
  constructor
  · intro hright x hx hslot
    have hrecord := hright x hx hslot
    have hpos := serving_slot_pos h
    have hfd : (socketMachine.after (.connected listener (dials.map Dial.socket)) steps).table.fds
        s.i = x.fd := by
      rw [htable]
      exact hslot
    rcases hshifted.slots s.i hpos with hle | ⟨y, hy, hyfd, hshift⟩
    · have hxpos := hshifted.pos x hx
      omega
    · have hxy : x = y := hshifted.distinct x hx y hy (by omega)
      rw [← hxy, hrecord] at hshift
      rcases hshift with hnone | hbefore
      · cases hnone
      · have := Option.some.inj hbefore
        omega
  · intro hnone x hx hslot
    exact absurd hslot (hnone x hx)

/-- A client that connected to nobody and has just accepted a connection. -/
def acceptedFirst : Client :=
  startRound { freshClient (fun _ => .zeroed) 3 [0] none (fun _ => 0) with i := 1 }
    (.ready (fun _ => true) (some 6))

theorem acceptedFirst_serving (sha1 : List Byte → Digest) :
    Serving sha1 eightPieces 3 [] [.accept 6] acceptedFirst ∧ NewSockets 3 [] [.accept 6] := by
  refine ⟨.round (.ready (fun _ => true) (some 6)) (.start rfl) (by decide),
    ⟨by decide, by decide⟩, ?_⟩
  intro pre socket hpre
  obtain ⟨rfl, hsocket⟩ : pre = [] ∧ socket = 6 := by
    cases pre with
    | nil => simpa using hpre
    | cons st pre =>
        have hlength := hpre.length_le
        simp at hlength
  subst hsocket
  exact ⟨by decide, by decide, nofun⟩

/-- The first accepted connection is not served with its record. -/
theorem socket_record_iff_accepted :
    ¬ ∀ x ∈ openSockets 3 [] [.accept 6], (acceptedFirst.fds 1).fd = x.fd → x.record = some 1 := by
  obtain ⟨hserving, hnew⟩ := acceptedFirst_serving fun _ => ⟨List.replicate 20 0, rfl⟩
  intro hright
  exact (socket_record_iff hserving hnew).mp hright ⟨6, none⟩ (List.mem_singleton_self _) rfl

/-- The accept branch initialises no record: the socket in slot 1 is served
with whatever `connections[1]` holds. -/
theorem socket_record_iff_uninitialised :
    ¬ ∃ sha1 : List Byte → Digest, ∀ (ans : BtInfo) (listener : Nat) (dials : List Dial)
      (steps : List TableStep) (s : Client), Serving sha1 ans listener dials steps s →
      NewSockets listener dials steps → s.i ≤ s.maxPeerIndex →
      ∀ x ∈ openSockets listener dials steps, (s.fds s.i).fd = x.fd → x.record = some s.i := by
  rintro ⟨sha1, hclaim⟩
  obtain ⟨hserving, hnew⟩ := acceptedFirst_serving sha1
  have hrecord := hclaim _ _ _ _ _ hserving hnew (by decide) ⟨6, none⟩
    (List.mem_singleton_self _) rfl
  cases hrecord

end DubstepDucks.Torrent
