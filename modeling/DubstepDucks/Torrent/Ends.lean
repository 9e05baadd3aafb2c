import DubstepDucks.Torrent.Swarm
import Mathlib.Tactic.FinCases

/-!
# Torrent — where no piece is ever stored

A client stores a piece that came in a `PIECE`, and for that something must
reach it that is more than a flag. This module is about the members of a
swarm whom nothing else reaches. Under every schedule these are the first
client, which serves no slot that it watches, the last one, which serves none
at all, and the one before it, which hears only of the last (`ends_idle`).
-/

namespace DubstepDucks.Torrent

open CMem Btp History

variable {n : Nat} {sha1 : List Byte → Digest} {ans : BtInfo} {launch : Fin n → Launch}
  {S : (Fin n → Member n) → Fin n → Action n → Prop} {log : List (Fin n × Action n)}
  {w : Fin n → Member n} {c q : Fin n} {s s' : Client} {evs : List Event}

/-! ## Whom a client hears -/

/-- The other end of the slot that a client visits: a client behind it in
slot 1, or one before it in a slot of its own that the accepted connections
have come up to. -/
theorem Orderly.visits {m : Member n} (hm : Orderly c m) (hcallers : m.callers.length + c < n)
    (hs : m.host = .running s) (hpos : 1 ≤ s.i) (hslot : s.i ≤ s.maxPeerIndex)
    (hpeer : m.peer (s.fds s.i).fd = some q) :
    (s.i = 1 ∧ c < q) ∨ (2 ≤ s.i ∧ s.i = q + 1 ∧ q < c ∧ s.i + c < n) := by
  obtain ⟨hwired, hmax⟩ := hm.running hs
  rcases hwired.slot s.i q hpeer with ⟨hbefore, hown⟩ | ⟨hbehind, hone⟩
  · by_cases hone : s.i = 1
    · rw [hone] at hpeer
      exact .inl ⟨hone, hwired.accepted (Nat.le_trans hpos hslot) q hpeer⟩
    · exact .inr ⟨by omega, hown, hbefore, by omega⟩
  · exact .inl ⟨hone, hbehind⟩

theorem Hears.flags {inbox inbox' : Fin n → List Byte} {peer : Option (Fin n)} {r : Recv}
    (h : Hears inbox peer r inbox')
    (hflags : ∀ q, peer = some q → ∀ b ∈ inbox q, FlagByte b) : r.Flags := by
  cases h with
  | nobody =>
      intro chunk hr
      cases hr
  | peer harrives =>
      rintro chunk rfl b hb
      exact hflags _ rfl b (harrives.mem_of_chunk hb)

/-- Whatever `recv` returns to a running client is no more than flags. -/
def ReadsFlags (m : Member n) : Prop :=
  ∀ {s r inbox}, m.host = .running s → 1 ≤ s.i → s.i ≤ s.maxPeerIndex →
    Hears m.inbox (m.peer (s.fds s.i).fd) r inbox → r.Flags

/-- The first client hears only clients behind it, and the last but one only
the last. -/
theorem Orderly.readsFlags {m : Member n} (hm : Orderly c m) (hcallers : m.callers.length + c < n)
    (hc : c.val = 0 ∨ n ≤ c.val + 2) : ReadsFlags m := by
  intro s r inbox hs hpos hslot hhears
  apply hhears.flags
  intro q hpeer
  apply hm.flags q
  have hvisits := hm.visits hcallers hs hpos hslot hpeer
  have hq := q.isLt
  rw [Calm]
  omega

/-! ## A client that reads no more than flags -/

/-- What such a client has to show for its run so far. -/
structure Spared (l : Launch) (c : Nat) (log : List Event) (m : Host) : Prop where
  buffer : ∀ s, m = .running s → s.i ≤ s.maxPeerIndex → FlagByte (s.buffer 4)
  file : m.client.file = l.file
  stores : ∀ ev ∈ log, ¬ Stores ev
  first : c = 0 → m.client.store = l.client.store ∧ ∀ ev ∈ log, Idle ev

theorem startRound_clears (s : Client) (poll : Poll) :
    (startRound s poll).buffer = (fun _ => 0) ∧ (startRound s poll).store = s.store := by
  cases poll with
  | nothing => exact ⟨rfl, rfl⟩
  | ready pollout accepted => cases accepted <;> exact ⟨rfl, rfl⟩

theorem Spared.round {l : Launch} {k : Nat} {log : List Event} {poll : Poll}
    (h : Spared l k log (.running s)) : Spared l k log (.running (startRound s poll)) := by
  obtain ⟨hclear, hstore⟩ := startRound_clears s poll
  refine ⟨?_, ?_, h.stores, ?_⟩
  · intro s' hs' _
    cases hs'
    rw [hclear]
    decide
  · exact (congrArg Prod.fst hstore).trans h.file
  · intro hfirst
    exact ⟨hstore.trans (h.first hfirst).1, (h.first hfirst).2⟩

theorem Member.Step.spared {m m' : Member n} {a : Action n} {l : Launch} {log : List Event}
    (hreads : ReadsFlags m) (hm : Orderly c m)
    (hlistens : ∀ s, m.host = .running s → Listening c log s) (hspared : Spared l c log m.host)
    (h : Member.Step sha1 ans c m a m') : Spared l c (log ++ a.events) m'.host := by
  have hhost := hm.host
  cases h with
  | dial q hdialling _ =>
      rw [hdialling] at hspared
      rw [List.append_nil]
      exact ⟨fun s hs => (by cases hs), hspared.file, hspared.stores, hspared.first⟩
  | answered q d hwaiting _ _ hpeer =>
      rw [hwaiting] at hspared
      rw [List.append_nil]
      have hstore := setupPeer_store hpeer
      refine ⟨fun s hs => (by cases hs), ?_, hspared.stores, ?_⟩
      · exact (congrArg Prod.fst hstore).trans hspared.file
      · intro hfirst
        exact ⟨hstore.trans (hspared.first hfirst).1, (hspared.first hfirst).2⟩
  | @ready s hdialling =>
      rw [hdialling] at hspared hhost
      rw [List.append_nil]
      refine ⟨?_, hspared.file, hspared.stores, hspared.first⟩
      intro s' hs' hready
      cases hs'
      have hone : 1 ≤ s.maxPeerIndex := hready
      rw [show s.maxPeerIndex = 0 from hhost] at hone
      omega
  | round pollout poll hrunning _ _ =>
      rw [hrunning] at hspared
      rw [List.append_nil]
      exact hspared.round
  | accept pollout socket q hrunning _ _ _ =>
      rw [hrunning] at hspared
      rw [List.append_nil]
      exact hspared.round
  | @turn s s' evs r inbox eRecv eSend hrunning hslot hhears hturn =>
      have hlisten := hlistens s hrunning
      have hflags := hreads hrunning hlisten.slot hslot hhears
      rw [hrunning] at hspared
      obtain ⟨hbuffer, hstores, hidle⟩ := turn_flag hflags (hspared.buffer s rfl hslot) hturn
      refine ⟨?_, ?_, ?_, ?_⟩
      · intro s'' hs'' _
        cases hs''
        exact hbuffer
      · exact (turn_file hstores hturn).trans hspared.file
      · intro ev hev
        rcases List.mem_append.mp hev with hev | hev
        · exact hspared.stores ev hev
        · exact hstores ev hev
      · intro hfirst
        -- the first client has dialled nobody, and so watches no slot
        have hunwatched := hlisten.unwatched s.i (by have := hlisten.slot; omega)
        obtain ⟨hstore, hbefore⟩ := hspared.first hfirst
        refine ⟨(turn_store (hidle hunwatched) hturn).trans hstore, ?_⟩
        intro ev hev
        rcases List.mem_append.mp hev with hev | hev
        · exact hbefore ev hev
        · exact hidle hunwatched ev hev

/-- By the network's rule, for one client. -/
theorem spared (hreads : ∀ {log w}, (swarm sha1 ans launch).Run S log w → ReadsFlags (w c))
    (h : (swarm sha1 ans launch).Run S log w) : Spared (launch c) c (logged c log) (w c).host := by
  have hinvariant := h.invariant (G := fun _ _ _ => True) (I := fun d acts m =>
    d = c → Spared (launch d) d (acts.flatMap Action.events) m.host)
  refine hinvariant ?_ ?_ ?_ c rfl
  · intro d _
    exact ⟨fun s hs => (by cases hs), rfl, by simp, fun _ => ⟨rfl, by simp⟩⟩
  · intro log w d a m hrun hm hstep
    refine ⟨?_, fun _ _ => trivial⟩
    rintro rfl
    rw [List.flatMap_append, List.flatMap_singleton]
    exact hstep.spared (hreads hrun) (orderly hrun d) (running_slot hrun) (hm rfl)
  · intro d a q acts m _ _ hm
    exact hm

/-! ## The ends of a swarm -/

/-- A client that has accepted no connection has served no slot. -/
theorem run_unaccepted {s₀ : Client} {log : List Event} (hstart : 1 ≤ s₀.i)
    (h : Run sha1 ans s₀ log s) (hnone : s.maxPeerIndex = 0) :
    1 ≤ s.i ∧ log = [] ∧ s.store = s₀.store := by
  induction h with
  | start => exact ⟨hstart, rfl, rfl⟩
  | round poll _ _ ih =>
      cases poll with
      | nothing => exact ih hnone
      | ready pollout accepted =>
          cases accepted with
          | none => exact ⟨Nat.le_refl 1, (ih hnone).2⟩
          | some socket => cases hnone
  | @turn log s s' evs r eRecv eSend _ hslot hturn ih =>
      have hmax := turn_maxPeerIndex hturn
      have hpos := (ih (hmax ▸ hnone)).1
      omega

/-- **The ends are idle.** However the clients of a swarm are interleaved and
however TCP cuts what they send: the first client answers handshakes and
stores nothing, the last one logs nothing at all, and the one before it keeps
its file. So in a swarm of three no file ever changes. -/
theorem ends_idle (h : (swarm sha1 ans launch).Run S log w) (c : Fin n) :
    (c.val = 0 → (∀ ev ∈ logged c log, Idle ev) ∧
      (w c).host.client.store = ((launch c).file, (launch c).own)) ∧
    (c.val + 1 = n → logged c log = [] ∧
      (w c).host.client.store = ((launch c).file, (launch c).own)) ∧
    (c.val + 2 = n → (∀ ev ∈ logged c log, ¬ Stores ev) ∧
      (w c).host.client.file = (launch c).file) := by
  refine ⟨?_, ?_, ?_⟩
  · intro hfirst
    have hspared := spared (fun hrun =>
      (orderly hrun c).readsFlags (callers_length hrun c) (.inl hfirst)) h
    obtain ⟨hstore, hidle⟩ := hspared.first hfirst
    exact ⟨hidle, hstore⟩
  · intro hlast
    have hcallers := callers_length h c
    have hcourse := onCourse h c
    cases hs : (w c).host with
    | running s =>
        rw [hs] at hcourse
        obtain ⟨dials, s₀, -, hsetup, hrun⟩ := hcourse
        have hmax := ((orderly h c).running hs).2
        have hslot := (setup_unwatched hsetup).2
        obtain ⟨-, hlog, hstore⟩ := run_unaccepted (Nat.le_of_eq hslot.symm) hrun (by omega)
        exact ⟨hlog, hstore.trans (setupFrom_store hsetup)⟩
    | _ =>
        rw [hs] at hcourse
        exact ⟨hcourse.1, hcourse.2.store⟩
  · intro hend
    have hspared := spared (fun hrun =>
      (orderly hrun c).readsFlags (callers_length hrun c) (.inr (by omega))) h
    exact ⟨hspared.stores, hspared.file⟩

/-- In that meeting of three, all three keep the file they had. -/
theorem ends_idle_three :
    ∃ log w, (swarm (n := 3) (fun _ => ⟨List.replicate 20 0, rfl⟩) eightPieces
        fun _ => .plain).Run Prompt log w ∧
      logged 1 log ≠ [] ∧ logged 2 log = [] ∧ ∀ c, (w c).host.client.file = none := by
  obtain ⟨log, w, hrun, hlog⟩ := three_meet
  have hfirst := (ends_idle hrun 0).1 rfl
  have hsecond := (ends_idle hrun 1).2.2 rfl
  have hthird := (ends_idle hrun 2).2.1 rfl
  refine ⟨log, w, hrun, by simp [hlog], hthird.1, ?_⟩
  intro c
  fin_cases c
  · exact congrArg Prod.fst hfirst.2
  · exact hsecond.2
  · exact congrArg Prod.fst hthird.2

end DubstepDucks.Torrent
