import DubstepDucks.Torrent.PeerTables

/-!
# Torrent — who a client serves

The setup loop asks `poll` for events on the slots it fills, and nothing else
does: a connection that the listener accepts is put into slot 1 with the
events that slot happens to have. The loop in turn visits only as many slots
as connections were accepted. So the POLLOUT branch is reached on a slot that
was dialled and that the accepts have come up to, and on no other.

`transfers_need_both` says what that means for every run: an `UNCHOKE`, a
`REQUEST` or a `PIECE` is sent only by a client that both dialled a peer and
accepted a connection. The first client of a file dialled nobody, and never
sends one.
-/

namespace DubstepDucks.Torrent

open CMem Btp

variable {sha1 : List Byte → Digest} {ans : BtInfo} {s s' : Client} {k : Nat} {e : Env}
  {evs : List Event}

/-! ## The slots that are watched -/

/-- No slot behind `n` is watched, and `poll` reported none. -/
def Unwatched (n : Nat) (s : Client) : Prop := ∀ j, n < j → s.watch j = (false, false)

theorem setupPeer_unwatched {i : Nat} {d : Dial} (hs : Unwatched i s)
    (h : setupPeer ans s i d = .ok s') : Unwatched (i + 1) s' := by
  have hwatch : ∀ j, i + 1 < j → s'.watch j = s.watch j := by
    rw [setupPeer] at h
    split at h
    · cases h
    · dsimp only at h
      intro j hj
      have hdialled : Client.watch { s with fds := fun j =>
          if j = i + 1 then { s.fds j with fd := d.socket, events := true } else s.fds j } j
          = s.watch j := by
        simp only [Client.watch]
        rw [if_neg (Nat.ne_of_gt hj)]
      split at h
      · cases h
      · split at h
        · cases h
        · cases h
        · split at h
          · obtain ⟨s1, hcheck, rfl⟩ := map_ok h
            exact (congrFun (watch_congr (checkHandshake_ok hcheck).2.1) j).trans hdialled
          · split at h
            · split at h
              · cases h
              · next s1 hcheck =>
                split at h
                · cases h
                · cases h
                  exact (congrFun (watch_congr (checkHandshake_ok hcheck).2.1) j).trans hdialled
            · cases h
              exact hdialled
  intro j hj
  rw [hwatch j hj]
  exact hs j (by omega)

/-- The setup loop watches one slot for each peer it dials. -/
theorem setupFrom_unwatched {dials : List Dial} :
    ∀ {s : Client} {i : Nat}, Unwatched i s → setupFrom ans s i dials = .ok s' →
      Unwatched (i + dials.length) s' ∧ s'.i = 1 := by
  induction dials with
  | nil =>
      intro s i hs h
      cases h
      exact ⟨hs, rfl⟩
  | cons d dials ih =>
      intro s i hs h
      rw [setupFrom] at h
      split at h
      · cases h
      · next s1 hpeer =>
        obtain ⟨hfinal, hslot⟩ := ih (setupPeer_unwatched hs hpeer) h
        rw [List.length_cons, Nat.add_comm dials.length 1, ← Nat.add_assoc]
        exact ⟨hfinal, hslot⟩

theorem setup_unwatched {connections : Nat → Connections} {listener : Nat} {own : List Byte}
    {file : Option (List Byte)} {buffer : Mem} {dials : List Dial}
    (h : setup ans (freshClient connections listener own file buffer) dials = .ok s') :
    Unwatched dials.length s' ∧ s'.i = 1 := by
  have hfresh : Unwatched 0 (freshClient connections listener own file buffer) := by
    intro j hj
    simp only [Client.watch, freshClient]
    rw [if_neg (Nat.ne_of_gt hj)]
  obtain ⟨hunwatched, hslot⟩ := setupFrom_unwatched hfresh h
  refine ⟨?_, hslot⟩
  intro j hj
  apply hunwatched
  rw [List.length_take]
  omega

theorem startRound_unwatched {n : Nat} (hs : Unwatched n s) (poll : Poll) :
    Unwatched n (startRound s poll) := by
  intro j hj
  have hevents : (s.fds j).events = false := congrArg Prod.fst (hs j hj)
  cases poll with
  | nothing => simp [Client.watch, startRound, Client.clearBuffer, hevents]
  | ready pollout accepted =>
      cases accepted with
      | none => simp [Client.watch, startRound, Client.clearBuffer, hevents]
      | some socket =>
          simp only [Client.watch, startRound, Client.clearBuffer]
          split <;> simp [hevents]

/-! ## What a turn sends -/

/-- A message on the client's own interest, as it answers a handshake. -/
def Courtesy (m : WireMsg) : Prop :=
  m = .state MsgID.interested.byte ∨ m = .state MsgID.uninterested.byte

/-- Receiving sends nothing but answers to handshakes, to the same slot. -/
theorem receive_sends {r : Recv} (h : receive sha1 ans s k r e = .ok (s', evs)) {turn k' : Nat}
    {m : WireMsg} (hm : .sent turn k' m ∈ evs) : Courtesy m := by
  cases r with
  | error =>
      cases h
      cases hm
  | closed =>
      cases h
      simp at hm
  | chunk c =>
      rw [receive] at h
      split at h
      · obtain ⟨s1, -, -, rfl⟩ := greet_ok h
        simp at hm
      · split at h
        · obtain ⟨s1, s2, evs2, bits, f, -, hf, hsend, -, rfl⟩ := greetWithBitfield_ok h
          obtain ⟨-, rfl⟩ := transmit_ok hsend
          simp only [List.mem_cons, reduceCtorEq, Event.sent.injEq, List.not_mem_nil, or_false,
            false_or] at hm
          obtain ⟨-, -, rfl⟩ := hm
          rcases hf with rfl | rfl
          · exact .inl rfl
          · exact .inr rfl
        · obtain ⟨n, -, evs1, rfl, hafter⟩ := receiveMsg_events h
          rcases List.mem_cons.mp hm with hm | hm
          · cases hm
          · rcases hafter _ hm with ⟨own, heq⟩ | ⟨p, block, written, shift, heq⟩ <;> cases heq

/-- On a slot that `poll` did not report the POLLOUT branch does nothing. -/
theorem serve_unwatched (hk : s.watch k = (false, false)) (h : serve ans s k e = .ok (s', evs)) :
    s' = s ∧ evs = [] := by
  have hrevents : (s.fds k).revents = false := congrArg Prod.snd hk
  rw [serve, hrevents] at h
  cases h
  exact ⟨rfl, rfl⟩

theorem serve_turn (h : serve ans s k e = .ok (s', evs)) {turn k' : Nat} {m : WireMsg}
    (hm : .sent turn k' m ∈ evs) : turn = k := by
  rcases serve_cases h with ⟨-, rfl⟩ | ⟨-, h⟩ | ⟨-, -, h⟩ | ⟨f, -, h⟩ | ⟨-, h⟩
  · cases hm
  · obtain ⟨piece, s1, evs1, evs2, -, hsmash, hsend, rfl⟩ := uploadPiece_ok h
    obtain ⟨-, rfl⟩ := transmit_ok hsend
    rcases List.mem_append.mp hm with hm | hm
    · rcases hsmash with ⟨-, rfl⟩ | hsmash
      · cases hm
      · rw [(smash_ok hsmash).1] at hm
        simp at hm
    · simp only [List.mem_singleton, Event.sent.injEq] at hm
      exact hm.1
  all_goals
    first
    | obtain ⟨-, rfl⟩ := transmit_ok h
    | obtain ⟨i, p, -, -, hsend⟩ := requestPiece_ok h
      obtain ⟨-, rfl⟩ := transmit_ok hsend
    simp only [List.mem_singleton, Event.sent.injEq] at hm
    exact hm.1

/-- The invariant of the main loop, and what the log says of it. -/
structure Listening (n : Nat) (log : List Event) (s : Client) : Prop where
  unwatched : Unwatched n s
  slot : 1 ≤ s.i
  sends : ∀ turn k m, .sent turn k m ∈ log → ¬ Courtesy m →
    1 ≤ turn ∧ turn ≤ n ∧ turn ≤ s.maxPeerIndex

theorem turn_listening {n : Nat} {log : List Event} {r : Recv} {eRecv eSend : Env}
    (hs : Listening n log s) (hslot : s.i ≤ s.maxPeerIndex)
    (h : turn sha1 ans s r eRecv eSend = .ok (s', evs)) : Listening n (log ++ evs) s' := by
  rw [turn] at h
  split at h
  · cases h
  split at h
  · cases h
    rw [List.append_nil]
    exact ⟨hs.unwatched, Nat.le_succ_of_le hs.slot, hs.sends⟩
  split at h
  · cases h
  next s1 evs1 hreceive =>
  split at h
  · cases h
  next s2 evs2 hserve =>
  cases h
  have hwatch : s2.watch = s.watch := (serve_watch hserve).trans (receive_watch hreceive)
  have hmax : s2.maxPeerIndex = s.maxPeerIndex := by
    have hbefore : s1.maxPeerIndex = s.maxPeerIndex := by
      have htable := congrArg Table.maxPeerIndex (receive_table hreceive)
      cases r <;> exact htable
    exact (congrArg Table.maxPeerIndex (serve_table hserve)).trans hbefore
  refine ⟨?_, Nat.succ_le_succ (Nat.zero_le _), ?_⟩
  · intro j hj
    exact (congrFun hwatch j).trans (hs.unwatched j hj)
  · intro turn k m hm hno
    show 1 ≤ turn ∧ turn ≤ n ∧ turn ≤ s2.maxPeerIndex
    rw [hmax]
    rcases List.mem_append.mp hm with hm | hm
    · exact hs.sends turn k m hm hno
    rcases List.mem_append.mp hm with hm | hm
    · exact absurd (receive_sends hreceive hm) hno
    · obtain rfl := serve_turn hserve hm
      refine ⟨hs.slot, ?_, hslot⟩
      apply Nat.le_of_not_lt
      intro hbehind
      have hquiet := serve_unwatched
        ((congrFun (receive_watch hreceive) _).trans (hs.unwatched _ hbehind)) hserve
      rw [hquiet.2] at hm
      cases hm

theorem startRound_listening {n : Nat} {log : List Event} (hs : Listening n log s) (poll : Poll) :
    Listening n log (startRound s poll) := by
  refine ⟨startRound_unwatched hs.unwatched poll, ?_, ?_⟩
  · cases poll with
    | nothing => exact hs.slot
    | ready pollout accepted => cases accepted <;> exact Nat.le_refl 1
  · intro turn k m hm hno
    obtain ⟨hpos, hdialled, haccepted⟩ := hs.sends turn k m hm hno
    refine ⟨hpos, hdialled, Nat.le_trans haccepted ?_⟩
    cases poll with
    | nothing => exact Nat.le_refl _
    | ready pollout accepted =>
        cases accepted with
        | none => exact Nat.le_refl _
        | some socket => exact Nat.le_succ _

/-- By induction on the run. -/
theorem run_listening {n : Nat} {s₀ : Client} {log : List Event} (hstart : Listening n [] s₀)
    (h : Run sha1 ans s₀ log s) : Listening n log s := by
  induction h with
  | start => exact hstart
  | round poll _ _ ih => exact startRound_listening ih poll
  | turn r eRecv eSend _ hslot hturn ih => exact turn_listening ih hslot hturn

/-- **Transfers need both.** In every run of a client that dialled the peers
`dials`, a message that is not on its own interest was sent in the turn of a
slot that was dialled and that is no higher than the number of accepted
connections; the greeting that answers a handshake is no such message. In
particular a client that dialled nobody, or accepted nobody, never unchokes,
requests or uploads. -/
theorem transfers_need_both {connections : Nat → Connections} {listener : Nat} {own : List Byte}
    {file : Option (List Byte)} {buffer : Mem} {dials : List Dial} {s₀ : Client}
    (hsetup : setup ans (freshClient connections listener own file buffer) dials = .ok s₀)
    {log : List Event} (hrun : Run sha1 ans s₀ log s) :
    ∀ turn k m, .sent turn k m ∈ log → ¬ Courtesy m →
      1 ≤ turn ∧ turn ≤ dials.length ∧ turn ≤ s.maxPeerIndex := by
  obtain ⟨hunwatched, hslot⟩ := setup_unwatched hsetup
  have hstart : Listening dials.length [] s₀ :=
    ⟨hunwatched, Nat.le_of_eq hslot.symm, by simp⟩
  exact (run_listening hstart hrun).sends

/-- One peer dialled, one accepted, and the accepted one unchoked. -/
theorem transfers_need_both_unchoked :
    ∃ s₀ s, Run (fun _ => ⟨List.replicate 20 0, rfl⟩) eightPieces s₀
        [.heard 1 (WireMsg.state MsgID.interested.byte).bytes .interested,
          .sent 1 1 (.state MsgID.unchoke.byte)] s ∧
      1 ≤ 1 ∧ 1 ≤ [Dial.answering].length ∧ 1 ≤ s.maxPeerIndex := by
  obtain ⟨s₀, hsetup⟩ : ∃ s₀, setup eightPieces (freshClient
      (fun _ => initializeConnection .zeroed 8) 3 (setInitialBitfield 8) none fun _ => 0)
      [Dial.answering] = .ok s₀ := ⟨_, rfl⟩
  have hlog : (execute (fun _ => ⟨List.replicate 20 0, rfl⟩) eightPieces s₀
      (session [.msg (.state MsgID.interested.byte) (by decide)])).map Prod.snd
      = some [.heard 1 (WireMsg.state MsgID.interested.byte).bytes .interested,
          .sent 1 1 (.state MsgID.unchoke.byte)] := by
    cases hsetup
    rfl
  obtain ⟨s, hrun⟩ := run_of_log hlog
  refine ⟨s₀, s, hrun, transfers_need_both hsetup hrun 1 1
    (.state MsgID.unchoke.byte) (by simp) ?_⟩
  simp [Courtesy, MsgID.byte]

end DubstepDucks.Torrent
