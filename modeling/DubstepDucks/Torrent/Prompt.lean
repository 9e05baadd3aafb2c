import DubstepDucks.Torrent.Ends

/-!
# Torrent — clients that are started one after another

Usually a client is started when those before it have been in their main
loops for a while. `Prompt` is that schedule: nobody dials before all clients
in front of it are running. Then the connections arrive everywhere in the
order of the clients, and each takes slot 1 from the one before it. A client
that has accepted a connection has been passed over by everyone it dialled:
the caller had to be answered by them first (`overtaken`). So what it sends
them from its main loop stays unread, and all that arrives in slot 1 are
greetings and words on the sender's interest (`started_in_turn`).
-/

namespace DubstepDucks.Torrent

open CMem Btp History

variable {n : Nat} {sha1 : List Byte → Digest} {ans : BtInfo} {launch : Fin n → Launch}
  {S : (Fin n → Member n) → Fin n → Action n → Prop} {log : List (Fin n × Action n)}
  {w : Fin n → Member n} {c q r d : Fin n} {s s' : Client} {evs : List Event}
  {m : Member n} {a : Action n}

/-! ## Accepted and passed over -/

/-- The clients whose connection `m` has accepted. -/
def Member.accepted (m : Member n) : List (Fin n) := m.callers.take m.host.client.maxPeerIndex

/-- `m` has accepted the connection of `q`, and one after it. -/
def Member.Overtaken (m : Member n) (q : Fin n) : Prop :=
  ∃ j, m.callers[j]? = some q ∧ j + 1 < m.host.client.maxPeerIndex

/-- The program has had the answer of peer `c`. -/
def Host.Answered (c : Nat) : Host → Prop
  | .dialling _ i | .waiting _ i => c < i
  | .running _ => True

theorem Host.Past.answered {host : Host} {i j : Nat} (h : host.Past j) (hlt : i < j) :
    host.Answered i := by
  cases host with
  | dialling s k => exact Nat.lt_trans hlt h
  | waiting s k => exact Nat.lt_of_lt_of_le hlt h
  | running s => trivial

theorem Host.Running.answered {host : Host} (h : host.Running) (i : Nat) : host.Answered i := by
  cases host with
  | running s => trivial
  | _ => exact h.elim

theorem Host.Running.past {host : Host} (h : host.Running) (i : Nat) : host.Past i := by
  cases host with
  | running s => trivial
  | _ => exact h.elim

theorem Member.Step.running {m' : Member n} (h : Member.Step sha1 ans c m a m')
    (hrunning : m.host.Running) : m'.host.Running := by
  cases h with
  | dial q hhost _ =>
      rw [hhost] at hrunning
      exact hrunning
  | answered q d hhost _ _ _ =>
      rw [hhost] at hrunning
      exact hrunning.elim
  | _ => trivial

theorem Member.Step.maxPeerIndex {m' : Member n} (h : Member.Step sha1 ans c m a m') :
    m.host.client.maxPeerIndex ≤ m'.host.client.maxPeerIndex := by
  cases h with
  | dial q hhost _ =>
      rw [hhost]
      exact Nat.le_refl _
  | answered q d hhost _ _ hpeer =>
      rw [hhost]
      exact Nat.le_of_eq (congrArg Table.maxPeerIndex (setupPeer_table hpeer).2).symm
  | ready hhost =>
      rw [hhost]
      exact Nat.le_refl _
  | round pollout poll hhost _ hpoll =>
      rw [hhost]
      rcases hpoll with rfl | rfl <;> exact Nat.le_refl _
  | accept pollout socket q hhost _ _ _ =>
      rw [hhost]
      exact Nat.le_succ _
  | turn eRecv eSend hhost _ _ hturn =>
      rw [hhost]
      exact Nat.le_of_eq (turn_maxPeerIndex hturn).symm

/-! ## What a step leaves -/

section After

variable (hstep : Member.Step sha1 ans d (w d) a m)

theorem after_host (hq : q ≠ d) :
    ((swarm sha1 ans launch).after w d a m q).host = (w q).host := by
  rw [Network.after_of_ne _ hq]
  rfl

include hstep in
theorem after_callers (launch : Fin n → Launch) (q : Fin n) :
    ∃ new, ((swarm sha1 ans launch).after w d a m q).callers = (w q).callers ++ new := by
  by_cases hq : q = d
  · subst hq
    rw [Network.after_self, hstep.callers]
    exact ⟨[], (List.append_nil _).symm⟩
  · rw [Network.after_of_ne _ hq]
    show ∃ new, (if a.dials = some q then (w q).callers ++ [d] else (w q).callers) = _
    split
    · exact ⟨[d], rfl⟩
    · exact ⟨[], (List.append_nil _).symm⟩

include hstep in
theorem after_maxPeerIndex (launch : Fin n → Launch) (q : Fin n) : (w q).host.client.maxPeerIndex
    ≤ ((swarm sha1 ans launch).after w d a m q).host.client.maxPeerIndex := by
  by_cases hq : q = d
  · subst hq
    rw [Network.after_self]
    exact hstep.maxPeerIndex
  · rw [after_host hq]

include hstep in
theorem after_running (hq : (w q).host.Running) :
    ((swarm sha1 ans launch).after w d a m q).host.Running := by
  by_cases hqd : q = d
  · subst hqd
    rw [Network.after_self]
    exact hstep.running hq
  · rwa [after_host hqd]

include hstep in
theorem after_accepted (hq : q ∈ (w c).accepted) :
    q ∈ ((swarm sha1 ans launch).after w d a m c).accepted := by
  obtain ⟨new, hnew⟩ := after_callers hstep launch c
  have hmax := after_maxPeerIndex hstep launch c
  rw [Member.accepted, hnew, List.take_append]
  exact List.mem_append_left _ (List.take_subset_take_left _ hmax hq)

include hstep in
theorem after_overtaken (hq : (w c).Overtaken q) :
    ((swarm sha1 ans launch).after w d a m c).Overtaken q := by
  obtain ⟨j, hj, hlt⟩ := hq
  obtain ⟨new, hnew⟩ := after_callers hstep launch c
  have hmax := after_maxPeerIndex hstep launch c
  refine ⟨j, ?_, Nat.lt_of_lt_of_le hlt hmax⟩
  rw [hnew, List.getElem?_append_left (List.getElem?_eq_some_iff.mp hj).1]
  exact hj

end After

/-! ## In the order of the clients -/

/-- Slot 1 has the last connection that was accepted, or none. -/
def Member.Latest (m : Member n) : Prop :=
  ∀ q, 1 ≤ m.host.client.maxPeerIndex → m.peer (m.host.client.fds 1).fd = some q →
    m.callers[m.host.client.maxPeerIndex - 1]? = some q

theorem latest (h : (swarm sha1 ans launch).Run S log w) (c : Fin n) : (w c).Latest := by
  apply h.invariant (G := fun _ _ _ => True) (I := fun _ _ m => m.Latest)
  · intro c q hsome
    cases hsome
  · intro log w c a m' hrun hm hstep
    refine ⟨?_, fun _ _ => trivial⟩
    have hwired := (orderly hrun c).wired
    have hhost := (orderly hrun c).host
    unfold Member.Latest at hm
    intro q
    cases hstep with
    | dial p hdialling _ =>
        rw [hdialling] at hm
        exact hm q
    | @answered s s' rest p d hwaiting _ _ hpeer =>
        -- no connection is accepted in the setup loop
        rw [hwaiting] at hhost
        have hmax : s'.maxPeerIndex = s.maxPeerIndex :=
          congrArg Table.maxPeerIndex (setupPeer_table hpeer).2
        have hnone : s.maxPeerIndex = 0 := hhost.1
        intro hsome
        have hsome' : 1 ≤ s'.maxPeerIndex := hsome
        omega
    | ready hdialling =>
        rw [hdialling] at hm
        exact hm q
    | round pollout poll hrunning _ hpoll =>
        rw [hrunning] at hm
        rcases hpoll with rfl | rfl <;> exact hm q
    | accept pollout socket p _ _ hnext _ =>
        intro _ hpeer
        have hslot : Function.update (w c).peer socket (some p) socket = some q := hpeer
        rw [Function.update_self] at hslot
        cases hslot
        exact hnext
    | @turn s s' evs r inbox eRecv eSend hrunning _ _ hturn =>
        rw [hrunning] at hm hwired
        intro hsome hpeer
        have hpeer' : (w c).peer (s'.table.fds 1) = some q := hpeer
        have hmax := turn_maxPeerIndex hturn
        have hbefore : (w c).peer (s.table.fds 1) = some q := by
          rcases turn_table_cases hturn with htable | htable
          · rwa [htable] at hpeer'
          · rw [htable] at hpeer'
            exact hwired.of_drop hpeer'
        show (w c).callers[s'.maxPeerIndex - 1]? = some q
        rw [hmax]
        exact hm q (hmax ▸ hsome) hbefore
  · intro c a p acts m _ _ hm q hsome hpeer
    have hold := hm q hsome hpeer
    show (if a.dials = some p then m.callers ++ [c] else m.callers)[
      m.host.client.maxPeerIndex - 1]? = some q
    split
    · rw [List.getElem?_append_left (List.getElem?_eq_some_iff.mp hold).1]
      exact hold
    · exact hold

/-- Callers come in the order of the clients. -/
theorem callers_sorted (h : (swarm sha1 ans launch).Run Prompt log w) :
    ∀ c, (w c).callers.Pairwise (· < ·) ∧
      ∀ q ∈ (w c).callers, ∀ p, p < q → (w p).host.Running := by
  induction h with
  | start =>
      intro c
      exact ⟨List.Pairwise.nil, fun q hq => by cases hq⟩
  | @step log w d a m hrun hprompt hstep ih =>
      intro c
      obtain ⟨hsorted, hbefore⟩ := ih c
      have hkept : ∀ q ∈ (w c).callers, ∀ p, p < q →
          ((swarm sha1 ans launch).after w d a m p).host.Running :=
        fun q hq p hp => after_running hstep (hbefore q hq p hp)
      by_cases hcd : c = d
      · subst hcd
        rw [Network.after_self, hstep.callers]
        exact ⟨hsorted, hkept⟩
      · rw [Network.after_of_ne _ hcd]
        show (if a.dials = some c then (w c).callers ++ [d] else (w c).callers).Pairwise _ ∧
          ∀ q ∈ (if a.dials = some c then (w c).callers ++ [d] else (w c).callers), _
        split
        · next hdials =>
          have hcalls := hstep.dials hdials
          refine ⟨?_, ?_⟩
          · rw [List.pairwise_append]
            refine ⟨hsorted, List.pairwise_singleton _ _, ?_⟩
            intro q hq d' hd'
            obtain rfl := List.mem_singleton.mp hd'
            -- one behind it would have waited until it was running
            have hpast := ((callers_ordered hrun c).2 q hq).2
            rcases Nat.lt_trichotomy q.val d'.val with hlt | heq | hgt
            · exact hlt
            · obtain rfl : q = d' := Fin.ext heq
              exact absurd hpast hcalls.2.1
            · exact absurd ((hbefore q hq d' hgt).past c) hcalls.2.1
          · intro q hq p hp
            rcases List.mem_append.mp hq with hq | hq
            · exact hkept q hq p hp
            · obtain rfl := List.mem_singleton.mp hq
              have hready := hprompt (by rw [hdials]; simp) p hp
              exact after_running hstep hready
        · exact ⟨hsorted, hkept⟩

/-! ## Answered and overtaken -/

/-- What a client sends to one behind it goes to slot 1, to the last one that
it has accepted. -/
theorem Member.Step.reaches {m' : Member n} (hm : Orderly c m) (hlatest : m.Latest)
    (hpos : ∀ s, m.host = .running s → 1 ≤ s.i) (h : Member.Step sha1 ans c m a m') (hlt : c < r)
    (hsent : a.out r ≠ []) : r ∈ m.accepted := by
  rcases h.sends hm hsent with ⟨hbefore, -⟩ | ⟨s, k, hrunning, hslot, hk⟩
  · exact absurd hlt (Fin.lt_asymm hbefore)
  · have hwired := (hm.running hrunning).1
    have hlast := hlatest r
    rw [hrunning] at hlast
    obtain rfl : k = 1 := by
      rcases hwired.slot k r hk with ⟨hbefore, -⟩ | ⟨-, hone⟩
      · exact absurd hlt (Fin.lt_asymm hbefore)
      · exact hone
    have hsome : 1 ≤ s.maxPeerIndex := Nat.le_trans (hpos s hrunning) hslot
    have hcaller : m.callers[s.maxPeerIndex - 1]? = some r := hlast hsome hk
    rw [Member.accepted, hrunning]
    show r ∈ m.callers.take s.maxPeerIndex
    rw [← List.getElem?_take_of_lt (Nat.sub_one_lt_of_le hsome (Nat.le_refl _))] at hcaller
    exact List.mem_of_getElem? hcaller

theorem setupPeer_answer {i : Nat} {dial : Dial} (h : setupPeer ans s i dial = .ok s') :
    ∃ chunk, dial.answer = .chunk chunk := by
  rw [setupPeer] at h
  split at h
  · cases h
  dsimp only at h
  split at h
  · cases h
  split at h
  · cases h
  · cases h
  next chunk hanswer => exact ⟨chunk, hanswer⟩

/-- An answer that was read was under way. -/
theorem Member.Step.read {m' : Member n} (h : Member.Step sha1 ans r m a m') (hlt : c < r)
    (hor : m'.host.Answered c ∨ m'.inbox c ≠ []) : m.host.Answered c ∨ m.inbox c ≠ [] := by
  rcases hor with hanswered | hinbox
  · cases h with
    | dial q hdialling _ =>
        rw [hdialling]
        exact .inl hanswered
    | answered q dial hwaiting _ harrives hpeer =>
        rw [hwaiting]
        have hle : c.val < q.val + 1 := hanswered
        by_cases hq : c = q
        · subst hq
          obtain ⟨chunk, hchunk⟩ := setupPeer_answer hpeer
          rw [hchunk] at harrives
          right
          intro hnone
          have hfirst := harrives.mem_of_chunk (List.getElem_mem chunk.nonempty)
          rw [hnone] at hfirst
          cases hfirst
        · left
          show c.val < q.val
          have hne : c.val ≠ q.val := fun heq => hq (Fin.ext heq)
          omega
    | ready hdialling =>
        rw [hdialling]
        exact .inl hlt
    | round _ _ hrunning _ _ =>
        rw [hrunning]
        exact .inl trivial
    | accept _ _ _ hrunning _ _ _ =>
        rw [hrunning]
        exact .inl trivial
    | turn _ _ hrunning _ _ _ =>
        rw [hrunning]
        exact .inl trivial
  · right
    intro hnone
    obtain ⟨b, rest, hb⟩ := List.exists_cons_of_ne_nil hinbox
    have hbefore := h.inbox (hb ▸ List.mem_cons_self : b ∈ m'.inbox c)
    rw [hnone] at hbefore
    cases hbefore

/-- Who has had the answer of `c`, or may still read something of it, has
been accepted by it. -/
theorem answered_accepted (h : (swarm sha1 ans launch).Run S log w) :
    ∀ c r, c < r → (w r).host.Answered c ∨ (w r).inbox c ≠ [] → r ∈ (w c).accepted := by
  induction h with
  | start =>
      intro c r _ hor
      rcases hor with hanswered | hinbox
      · exact absurd hanswered (Nat.not_lt_zero _)
      · exact absurd rfl hinbox
  | @step log w d a m hrun _ hstep ih =>
      intro c r hlt hor
      by_cases hrd : r = d
      · -- what `r` has read was under way to it
        subst hrd
        apply after_accepted hstep
        apply ih c r hlt
        rw [Network.after_self] at hor
        exact hstep.read hlt hor
      · rw [Network.after_of_ne _ hrd] at hor
        rcases hor with hanswered | hinbox
        · exact after_accepted hstep (ih c r hlt (.inl hanswered))
        · by_cases hcd : c = d
          · subst hcd
            have hdelivered : Function.update (w r).inbox c ((w r).inbox c ++ a.out r) c ≠ [] :=
              hinbox
            rw [Function.update_self] at hdelivered
            apply after_accepted hstep
            by_cases hsent : a.out r = []
            · rw [hsent, List.append_nil] at hdelivered
              exact ih c r hlt (.inr hdelivered)
            · exact hstep.reaches (orderly hrun c) (latest hrun c)
                (fun s hs => (running_slot hrun s hs).slot) hlt hsent
          · have hkept : Function.update (w r).inbox d ((w r).inbox d ++ a.out r) c ≠ [] := hinbox
            rw [Function.update_of_ne hcd] at hkept
            exact after_accepted hstep (ih c r hlt (.inr hkept))

/-- Once a client has accepted a connection, those it dialled have accepted
one after its own. -/
theorem overtaken (h : (swarm sha1 ans launch).Run Prompt log w) (hlt : c < q)
    (hs : (w q).host = .running s) (hsome : 1 ≤ s.maxPeerIndex) : (w c).Overtaken q := by
  have hnext := ((orderly h q).running hs).2
  -- the first caller of `q`
  obtain ⟨r, hr⟩ : ∃ r, (w q).callers[0]? = some r :=
    ⟨_, List.getElem?_eq_getElem (by omega)⟩
  obtain ⟨hqr, hpast⟩ := (callers_ordered h q).2 r (List.mem_of_getElem? hr)
  have hrunning : (w q).host.Running := by
    rw [hs]
    trivial
  have hr' := answered_accepted h c r (Fin.lt_trans hlt hqr) (.inl (hpast.answered hlt))
  have hq' := answered_accepted h c q hlt (.inl (hrunning.answered c))
  obtain ⟨i, hi, hri⟩ := List.mem_take_iff_getElem.mp hr'
  obtain ⟨j, hj, hqj⟩ := List.mem_take_iff_getElem.mp hq'
  have hsorted := List.pairwise_iff_getElem.mp (callers_sorted h c).1
  have hji : j < i := by
    rcases Nat.lt_trichotomy j i with hlt' | heq | hgt
    · exact hlt'
    · subst heq
      rw [hri] at hqj
      exact absurd hqj.symm (Fin.ne_of_lt hqr)
    · have hrq := hsorted i j (by omega) (by omega) hgt
      rw [hri, hqj] at hrq
      exact absurd hqr (Fin.lt_asymm hrq)
  refine ⟨j, ?_, by omega⟩
  rw [List.getElem?_eq_getElem (by omega), hqj]

/-- What is under way from a client behind is flags, or is never read. -/
theorem flags_or_overtaken (h : (swarm sha1 ans launch).Run Prompt log w) :
    ∀ c q, c < q → (∀ b ∈ (w c).inbox q, FlagByte b) ∨ (w c).Overtaken q := by
  induction h with
  | start =>
      intro c q _
      left
      intro b hb
      cases hb
  | @step log w d a m hrun _ hstep ih =>
      intro c q hlt
      rcases ih c q hlt with hflags | hovertaken
      · by_cases hcd : c = d
        · subst hcd
          left
          rw [Network.after_self]
          intro b hb
          exact hflags b (hstep.inbox hb)
        · rw [Network.after_of_ne _ hcd]
          by_cases hqd : q = d
          · subst hqd
            -- `q` has said something new
            by_cases hsaid : ∀ b ∈ a.out c, FlagByte b
            · left
              intro b hb
              have hdelivered : b ∈ Function.update (w c).inbox q ((w c).inbox q ++ a.out c) q := hb
              rw [Function.update_self] at hdelivered
              rcases List.mem_append.mp hdelivered with hold | hnew
              · exact hflags b hold
              · exact hsaid b hnew
            · right
              have hsent : a.out c ≠ [] := by
                intro hnone
                apply hsaid
                rw [hnone]
                simp
              rcases hstep.sends (orderly hrun q) hsent with ⟨-, hsaid'⟩ | ⟨s, -, hs, hslot, -⟩
              · exact absurd hsaid' hsaid
              · have hpos := (running_slot hrun s hs).slot
                have hpassed := overtaken hrun hlt hs (Nat.le_trans hpos hslot)
                rw [← Network.after_of_ne _ hcd]
                exact after_overtaken hstep hpassed
          · left
            intro b hb
            have hkept : b ∈ Function.update (w c).inbox d ((w c).inbox d ++ a.out c) q := hb
            rw [Function.update_of_ne hqd] at hkept
            exact hflags b hkept
      · exact .inr (after_overtaken hstep hovertaken)

/-! ## What a client hears -/

/-- In slot 1 a client reads no more than flags. -/
theorem prompt_hears (h : (swarm sha1 ans launch).Run Prompt log w) {r : Recv}
    {inbox : Fin n → List Byte} (hs : (w c).host = .running s) (hpos : 1 ≤ s.i)
    (hslot : s.i ≤ s.maxPeerIndex)
    (hvisits : ∀ q, (w c).peer (s.fds s.i).fd = some q → s.i = 1 ∧ c < q)
    (hhears : Hears (w c).inbox ((w c).peer (s.fds s.i).fd) r inbox) : r.Flags := by
  apply hhears.flags
  intro q hpeer
  obtain ⟨hone, hlt⟩ := hvisits q hpeer
  rcases flags_or_overtaken h c q hlt with hflags | ⟨j, hj, hover⟩
  · exact hflags
  · -- slot 1 has the last caller, and `q` is not the last
    have hlast := latest h c q
    rw [hs] at hlast hover
    rw [hone] at hpeer
    have hcaller : (w c).callers[s.maxPeerIndex - 1]? = some q :=
      hlast (Nat.le_trans hpos hslot) hpeer
    have hover' : j + 1 < s.maxPeerIndex := hover
    obtain ⟨hj', hqj⟩ := List.getElem?_eq_some_iff.mp hj
    obtain ⟨hk', hqk⟩ := List.getElem?_eq_some_iff.mp hcaller
    have hsame := (callers_ordered h c).1.getElem_inj_iff.mp (hqj.trans hqk.symm)
    omega

/-- What a logged event says was received from slot `k`. -/
def Event.received (k : Nat) : Event → List Byte
  | .heard j chunk _ => if j = k then chunk else []
  | .greeted j chunk => if j = k then chunk else []
  | _ => []

theorem receive_received {k j : Nat} {r : Recv} {e : Env} {ev : Event} {b : Byte}
    (h : receive sha1 ans s k r e = .ok (s', evs)) (hev : ev ∈ evs) (hb : b ∈ ev.received j) :
    j = k ∧ ∃ chunk, r = .chunk chunk ∧ b ∈ chunk.bytes := by
  cases r with
  | error =>
      cases h
      cases hev
  | closed =>
      cases h
      obtain rfl := List.mem_singleton.mp hev
      cases hb
  | chunk chunk =>
      -- what was received is logged first, and nothing else is
      have hfirst : ∀ {bytes : List Byte}, b ∈ (if k = j then bytes else []) →
          bytes = chunk.bytes → j = k ∧ ∃ chunk', Recv.chunk chunk = .chunk chunk' ∧
            b ∈ chunk'.bytes := by
        rintro bytes hb rfl
        split at hb
        · next hslot => exact ⟨hslot.symm, chunk, rfl, hb⟩
        · cases hb
      rw [receive] at h
      split at h
      · obtain ⟨s1, -, -, rfl⟩ := greet_ok h
        rcases List.mem_cons.mp hev with rfl | hev
        · exact hfirst hb rfl
        · obtain rfl := List.mem_singleton.mp hev
          cases hb
      · split at h
        · obtain ⟨s1, s2, evs2, bits, f, -, -, hsend, -, rfl⟩ := greetWithBitfield_ok h
          obtain ⟨-, rfl⟩ := transmit_ok hsend
          rcases List.mem_cons.mp hev with rfl | hev
          · exact hfirst hb rfl
          · obtain rfl := List.mem_singleton.mp hev
            cases hb
        · obtain ⟨n, -, evs1, rfl, hafter⟩ := receiveMsg_events h
          rcases List.mem_cons.mp hev with rfl | hev
          · exact hfirst hb rfl
          · rcases hafter _ hev with ⟨own, rfl⟩ | ⟨p, block, written, shift, rfl⟩ <;> cases hb

theorem turn_received {j : Nat} {r : Recv} {eRecv eSend : Env} {ev : Event} {b : Byte}
    (h : turn sha1 ans s r eRecv eSend = .ok (s', evs)) (hev : ev ∈ evs)
    (hb : b ∈ ev.received j) : j = s.i ∧ ∃ chunk, r = .chunk chunk ∧ b ∈ chunk.bytes := by
  rw [turn] at h
  split at h
  · cases h
  split at h
  · cases h
    cases hev
  split at h
  · cases h
  next s1 evs1 hreceive =>
  split at h
  · cases h
  next s2 evs2 hserve =>
  cases h
  rcases List.mem_append.mp hev with hev | hev
  · exact receive_received hreceive hev hb
  · rcases serve_emits hserve _ hev with ⟨own, rfl⟩ | ⟨turn, i, m, rfl⟩ <;> cases hb

/-- **Started one after another.** When each client is started with those
before it in their main loops, then however they are interleaved and however
TCP cuts what they send: all that a client receives in its main loop in slot
1, the only place for the clients that connect to it, is no more than flags,
and the first two clients and the last two store nothing. So in a swarm of
four no file ever changes. -/
theorem started_in_turn (h : (swarm sha1 ans launch).Run Prompt log w) (c : Fin n) :
    (∀ ev ∈ logged c log, ∀ b ∈ ev.received 1, FlagByte b) ∧
    (c.val ≤ 1 ∨ n ≤ c.val + 2 → (∀ ev ∈ logged c log, ¬ Stores ev) ∧
      (w c).host.client.file = (launch c).file) := by
  refine ⟨?_, ?_⟩
  · apply h.invariant (G := fun _ _ _ => True) (I := fun c acts _ =>
      ∀ ev ∈ acts.flatMap Action.events, ∀ b ∈ ev.received 1, FlagByte b)
    · intro c ev hev
      cases hev
    · intro log w c a m hrun hm hstep
      refine ⟨?_, fun _ _ => trivial⟩
      intro ev hev b hb
      rw [List.flatMap_append, List.flatMap_singleton] at hev
      rcases List.mem_append.mp hev with hev | hev
      · exact hm ev hev b hb
      · cases hstep with
        | @turn s s' evs r inbox eRecv eSend hrunning hslot hhears hturn =>
            obtain ⟨hone, chunk, hchunk, hmem⟩ := turn_received hturn hev hb
            have hpos := (running_slot hrun s hrunning).slot
            refine prompt_hears hrun hrunning hpos hslot ?_ hhears chunk hchunk b hmem
            intro q hpeer
            have hcallers := callers_length hrun c
            have hvisits := (orderly hrun c).visits hcallers hrunning hpos hslot hpeer
            omega
        | _ => cases hev
    · intro c a q acts m _ _ hm
      exact hm
  · intro hc
    have hspared := spared (c := c) (fun hrun => by
      intro s r inbox hs hpos hslot hhears
      refine prompt_hears hrun hs hpos hslot ?_ hhears
      intro q hpeer
      have hvisits := (orderly hrun c).visits (callers_length hrun c) hs hpos hslot hpeer
      omega) h
    exact ⟨hspared.stores, hspared.file⟩

/-- The meeting of three is such a run. -/
theorem started_in_turn_three :
    ∃ log w, (swarm (n := 3) (fun _ => ⟨List.replicate 20 0, rfl⟩) eightPieces
        fun _ => .plain).Run Prompt log w ∧
      (∀ ev ∈ logged 1 log, ∀ b ∈ ev.received 1, FlagByte b) ∧ logged 1 log ≠ [] ∧
      ∀ c, (w c).host.client.file = none := by
  obtain ⟨log, w, hrun, hlog⟩ := three_meet
  refine ⟨log, w, hrun, (started_in_turn hrun 1).1, by simp [hlog], ?_⟩
  intro c
  exact ((started_in_turn hrun c).2 (by omega)).2

end DubstepDucks.Torrent
