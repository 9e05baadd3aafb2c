import DubstepDucks.Torrent.Protocol

/-!
# Torrent — requests and their answers

Two books the protocol would have the client keep for one slot `k`, over the
logs of all runs of the main loop.

* Uploads: no more `PIECE`s sent than `REQUEST`s received, index by index.
  `Send_piece` leaves `piece_to_send` as it is, so the same request is
  answered again at the next POLLOUT turn. The count holds for the runs that
  do not get there.
* Downloads: `PENDINGREQUEST` and `requested_piece` say which `REQUEST` of
  this client is still open. `Send_piece` writes both, and every clearing of
  another flag clears the bit. `KeepsPending` says event by event when the
  record stays in step, and it is exact.
-/

namespace DubstepDucks.Torrent

open CMem Btp History

/-! ## Uploads are counted by requests -/

/-- A `PIECE` with index `p` was sent on slot `k`. -/
def pieceSent (k : Nat) (p : CInt) : Event → Bool
  | .sent _ j (.piece q _ _ _) => j = k && q = p
  | _ => false

/-- A `REQUEST` for piece `p` was received on slot `k`. -/
def requestHeard (k : Nat) (p : CInt) : Event → Bool
  | .heard j _ (.request q) => j = k && q = p
  | _ => false

/-- A `PIECE` was sent on slot `k`, and no `REQUEST` received on it since. -/
def Answered (k : Nat) : List Event → Prop :=
  Since (fun ev => ∃ p, pieceSent k p ev) fun ev => ∃ p, requestHeard k p ev

theorem pieceSent_iff {k : Nat} {p : CInt} {ev : Event} :
    pieceSent k p ev ↔ ∃ turn o n block, ev = .sent turn k (.piece p o n block) := by
  cases ev with
  | sent turn j m =>
      cases m with
      | piece q o n block => simp [pieceSent]
      | _ => simp [pieceSent]
  | _ => simp [pieceSent]

theorem requestHeard_iff {k : Nat} {p : CInt} {ev : Event} :
    requestHeard k p ev ↔ HeardOn k (.request p) ev := by
  cases ev with
  | heard j chunk m =>
      cases m with
      | request q => simp [requestHeard, HeardOn]
      | _ => simp [requestHeard, HeardOn]
  | _ => simp [requestHeard, HeardOn]

/-- Every answer so far has its request, and one more request came in for
the piece the slot is about to upload unless it was answered already. -/
def AnswersCounted (k : Nat) (log : List Event) (v : View) : Prop :=
  ∀ p, log.countP (pieceSent k p) ≤ log.countP (requestHeard k p) ∧
    ((v.records k).pieceToSend = p → 0 ≤ p.toInt → ¬ Answered k log →
      log.countP (pieceSent k p) < log.countP (requestHeard k p))

theorem AnswersCounted.step {ans : BtInfo} {k : Nat} {log : List Event} {v : View} {ev : Event}
    (h : AnswersCounted k log v) (hguard : guard ans v ev)
    (hfresh : (∃ p, pieceSent k p ev) → ¬ Answered k log) :
    AnswersCounted k (log ++ [ev]) (effect v ev) := by
  intro p
  obtain ⟨hle, hlt⟩ := h p
  rw [List.countP_append, List.countP_append, List.countP_singleton, List.countP_singleton]
  rcases pieceToSend_effect v ev k with
    ⟨chunk, q, rfl, hp⟩ | ⟨chunk, rfl, hp⟩ | ⟨hrequest, -, hp⟩
  · -- a request for `q` counts for `q`, and `q` is what will be uploaded
    rw [hp]
    by_cases hq : q = p
    · have hsent : pieceSent k p (.heard k chunk (.request q)) = false := rfl
      have hheard : requestHeard k p (.heard k chunk (.request q)) = true := by
        simp [requestHeard, hq]
      rw [hsent, hheard]
      simp only [Bool.false_eq_true, if_false, if_true]
      omega
    · refine ⟨?_, fun heq => absurd heq hq⟩
      simp only [pieceSent, Bool.false_eq_true, if_false]
      omega
  · -- after a cancel nothing will be uploaded
    refine ⟨?_, ?_⟩
    · simp only [pieceSent, Bool.false_eq_true, if_false]
      omega
    · intro heq hpos
      rw [hp] at heq
      rw [← heq] at hpos
      exact absurd hpos (by decide)
  · have hheard : requestHeard k p ev = false := by
      rw [← Bool.not_eq_true, requestHeard_iff]
      exact hrequest p
    rw [hheard, hp]
    by_cases hpiece : ∃ q, pieceSent k q ev
    · -- the upload: it uses up the request
      have hanswered : Answered k (log ++ [ev]) := since_concat.mpr (.inl hpiece)
      refine ⟨?_, fun _ _ hnot => absurd hanswered hnot⟩
      cases hsent : pieceSent k p ev with
      | false => simpa using hle
      | true =>
          obtain ⟨turn, o, n, block, rfl⟩ := pieceSent_iff.mp hsent
          obtain ⟨-, -, -, hnext, hpos⟩ := hguard
          have hone := hlt hnext.symm hpos (hfresh hpiece)
          simp only [Bool.false_eq_true, if_false, if_true]
          omega
    · have hsent : pieceSent k p ev = false := by
        cases hsent : pieceSent k p ev with
        | false => rfl
        | true => exact absurd ⟨p, hsent⟩ hpiece
      have hsame : ¬ Answered k (log ++ [ev]) → ¬ Answered k log := by
        intro hnot hanswered
        apply hnot
        apply since_concat.mpr
        refine .inr ⟨hanswered, ?_⟩
        rintro ⟨q, hq⟩
        exact hrequest q (requestHeard_iff.mp hq)
      rw [hsent]
      exact ⟨by simpa using hle, fun heq hpos hnot => by simpa using hlt heq hpos (hsame hnot)⟩

/-- **Each request is answered at most once**, when a turn comes to the upload
only in a state in which a `REQUEST` was received on the slot since the last
upload, so that `piece_to_send` is not still the index just answered. -/
theorem at_most_one_answer {sha1 : List Byte → Digest} {ans : BtInfo} {s₀ s : Client}
    {log : List Event} (k : Nat) (before : Connections)
    (hstart : s₀.connections k = initializeConnection before ans.numPieces)
    (hrun : Run sha1 ans s₀ log s)
    (hfresh : ∀ pre ev, pre ++ [ev] <+: log → (∃ p, pieceSent k p ev) → ¬ Answered k pre) :
    ∀ pre, pre <+: log → ∀ p,
      pre.countP (pieceSent k p) ≤ pre.countP (requestHeard k p) := by
  intro pre hpre p
  obtain ⟨hadmits, -⟩ := run_traced hrun
  have hcounted : AnswersCounted k pre ((machine ans).after s₀.view pre) := by
    apply hadmits.invariant (AnswersCounted k)
    · intro q
      refine ⟨Nat.le_refl _, ?_⟩
      intro hq hpos
      have hinit : (s₀.view.records k).pieceToSend = -1 := by
        show (s₀.connections k).pieceToSend = -1
        rw [hstart]
        rfl
      rw [hinit] at hq
      rw [← hq] at hpos
      exact absurd hpos (by decide)
    · intro pre ev hpre hguard hinv
      exact hinv.step hguard (hfresh pre ev hpre)
    · exact hpre
  exact (hcounted p).1

/-- The upload of `servedLog` has its request. -/
theorem at_most_one_answer_served :
    let log := servedLog ++ [.sent 1 1 (.piece 0 0 4 (ascii "ABC" ++ [0]))]
    log.countP (pieceSent 1 0) ≤ log.countP (requestHeard 1 0) := by
  obtain ⟨s, hrun⟩ := servedLog_run fun _ => ⟨List.replicate 20 0, rfl⟩
  refine at_most_one_answer 1 .zeroed rfl hrun ?_ _ List.prefix_rfl 0
  simp only [servedLog, List.cons_append, List.nil_append, forall_prefix_cons, forall_prefix_nil]
  refine ⟨?_, ?_, ?_, ?_, ?_, ?_, ?_, trivial⟩ <;> intro hpiece hanswered
  all_goals obtain ⟨ev, hmem, p, hp⟩ := hanswered.exists_mem
  all_goals obtain ⟨turn, o, n, block, rfl⟩ := pieceSent_iff.mp hp
  all_goals simp at hmem

/-- One request, and two POLLOUT turns after it: the piece goes out twice. -/
theorem at_most_one_answer_twice :
    ¬ ∃ sha1 : List Byte → Digest, ∀ (ans : BtInfo) (s₀ s : Client) (log : List Event) (k : Nat)
      (before : Connections), s₀.connections k = initializeConnection before ans.numPieces →
      Run sha1 ans s₀ log s →
      ∀ p, log.countP (pieceSent k p) ≤ log.countP (requestHeard k p) := by
  rintro ⟨sha1, hclaim⟩
  have hlog : (execute sha1 eightPieces (joined eightPieces)
      (session [.msg (.state MsgID.interested.byte) (by decide),
        .msg (.state MsgID.unchoke.byte) (by decide),
        .msg (.state MsgID.interested.byte) (by decide), .msg (.request 0 0 0) (by decide),
        .msg (.state MsgID.interested.byte) (by decide)])).map Prod.snd
      = some (servedLog ++ [.sent 1 1 (.piece 0 0 4 (ascii "ABC" ++ [0])),
          .heard 1 (WireMsg.state MsgID.interested.byte).bytes .interested,
          .sent 1 1 (.piece 0 0 4 (ascii "ABC" ++ [0]))]) := rfl
  obtain ⟨s, hrun⟩ := run_of_log hlog
  have htwo := hclaim eightPieces _ s _ 1 .zeroed rfl hrun 0
  revert htwo
  decide

/-! ## The pending request -/

/-- A `REQUEST` for piece `p` was sent on slot `k`. -/
def RequestSentOn (k : Nat) (p : CInt) (ev : Event) : Prop :=
  ∃ turn o n, ev = .sent turn k (.request p o n)

/-- A `PIECE` received on slot `k` was accepted. -/
def AcceptedOn (k : Nat) (ev : Event) : Prop :=
  ∃ p block written shift, ev = .stored k p block written shift

/-- A `REQUEST` for piece `p` was sent on slot `k`, and no `PIECE` accepted
on it since. -/
def Outstanding (k : Nat) (p : CInt) : List Event → Prop :=
  Since (RequestSentOn k p) (AcceptedOn k)

/-- The record of slot `k` tells the outstanding request. -/
structure PendingRight (k : Nat) (log : List Event) (c : Connections) : Prop where
  bit : c.flag .pendingRequest = true ↔ ∃ p, Outstanding k p log
  index : ∀ p, Outstanding k p log → c.requestedPiece = p

/-- The event keeps a right record `c` of slot `k` right: the flag byte is
wiped by an accepted `PIECE` or while nothing is pending, no second request
is for another piece, and a `PIECE` goes out only while a request for the
piece with its index is pending. -/
def KeepsPending (k : Nat) (c : Connections) (ev : Event) : Prop :=
  (flagChange k ev = .wipe → AcceptedOn k ev ∨ c.flag .pendingRequest = false) ∧
    (∀ p, RequestSentOn k p ev → c.flag .pendingRequest = true → c.requestedPiece = p) ∧
    ∀ p, pieceSent k p ev → c.flag .pendingRequest = true ∧ c.requestedPiece = p

/-- Events that neither ask for, send nor accept a piece on slot `k`. -/
def Unrelated (k : Nat) (ev : Event) : Prop :=
  ¬ AcceptedOn k ev ∧ (∀ p, ¬ RequestSentOn k p ev) ∧ ∀ p, ¬ pieceSent k p ev

/-- `requested_piece` is written by `Send_request` and `Send_piece` only. -/
theorem requestedPiece_effect (v : View) (ev : Event) (k : Nat) :
    (∃ p, RequestSentOn k p ev ∧ ((effect v ev).records k).requestedPiece = p) ∨
      (∃ p, pieceSent k p ev ∧ ((effect v ev).records k).requestedPiece = p) ∨
      (AcceptedOn k ev ∧ flagChange k ev = .wipe ∧
        ((effect v ev).records k).requestedPiece = (v.records k).requestedPiece) ∨
      (Unrelated k ev ∧ flagChange k ev ≠ .raise .pendingRequest ∧
        ((effect v ev).records k).requestedPiece = (v.records k).requestedPiece) := by
  have hmodify : ∀ (j : Nat) (f : Connections → Connections),
      (j = k → (f (v.records k)).requestedPiece = (v.records k).requestedPiece) →
      (v.records.modify j f k).requestedPiece = (v.records k).requestedPiece := by
    intro j f h
    rw [Records.modify]
    split
    · next hj => exact h hj.symm
    · rfl
  cases ev with
  | heard j chunk m =>
      refine .inr (.inr (.inr ⟨by simp [Unrelated, AcceptedOn, RequestSentOn, pieceSent], ?_, ?_⟩))
      · rw [flagChange]
        split
        · cases m <;> simp [Heard.flagChange]
        · simp
      · exact hmodify j _ fun _ => by cases m <;> rfl
  | dropped j =>
      refine .inr (.inr (.inr ⟨by simp [Unrelated, AcceptedOn, RequestSentOn, pieceSent], ?_, ?_⟩))
      · rw [flagChange]
        split <;> simp
      · exact hmodify j _ fun _ => rfl
  | stored j p block written shift =>
      by_cases hj : j = k
      · subst hj
        exact .inr (.inr (.inl ⟨⟨p, block, written, shift, rfl⟩, by simp [flagChange],
          hmodify _ _ fun _ => rfl⟩))
      · refine .inr (.inr (.inr ⟨by simp [Unrelated, AcceptedOn, RequestSentOn, pieceSent, hj],
          by simp [flagChange, hj], hmodify _ _ fun h => absurd h hj⟩))
  | sent turn j m =>
      by_cases hj : j = k
      · subst hj
        cases m with
        | request p o n =>
            refine .inl ⟨p, ⟨turn, o, n, rfl⟩, ?_⟩
            simp [effect, View.modify, Records.modify, sentEffect, markRequested]
        | piece p o n block =>
            refine .inr (.inl ⟨p, by simp [pieceSent], ?_⟩)
            simp [effect, View.modify, Records.modify, sentEffect, markRequested]
        | state msgID =>
            refine .inr (.inr (.inr ⟨by simp [Unrelated, AcceptedOn, RequestSentOn, pieceSent],
              ?_, hmodify _ _ fun _ => ?_⟩))
            · rw [flagChange, if_pos rfl, sentFlagChange]
              split <;> simp
            · rw [sentEffect]
              split
              · rfl
              · split <;> rfl
        | _ =>
            exact .inr (.inr (.inr ⟨by simp [Unrelated, AcceptedOn, RequestSentOn, pieceSent],
              by simp [flagChange, sentFlagChange], hmodify _ _ fun _ => rfl⟩))
      · refine .inr (.inr (.inr ⟨?_, by simp [flagChange, hj],
          hmodify _ _ fun h => absurd h hj⟩))
        cases m <;> simp [Unrelated, AcceptedOn, RequestSentOn, pieceSent, hj]
  | _ =>
      exact .inr (.inr (.inr ⟨by simp [Unrelated, AcceptedOn, RequestSentOn, pieceSent],
        by simp [flagChange], rfl⟩))

/-- An event that is no request and no accepted piece leaves the outstanding
requests as they are. -/
theorem outstanding_unrelated {k : Nat} {p : CInt} {log : List Event} {ev : Event}
    (hrequest : ¬ RequestSentOn k p ev) (haccepted : ¬ AcceptedOn k ev) :
    Outstanding k p (log ++ [ev]) ↔ Outstanding k p log := by
  rw [Outstanding, since_concat]
  simp [hrequest, haccepted]

theorem flag_raised {v : View} {ev : Event} {k : Nat} {f : Flag}
    (h : flagChange k ev = .raise f) : ((effect v ev).records k).flag f = true := by
  show ((effect v ev).records k).flags f = true
  rw [flags_effect, FlagChange.apply_eq_true]
  exact .inl h

theorem flag_wiped {v : View} {ev : Event} {k : Nat} (f : Flag)
    (h : flagChange k ev = .wipe) : ((effect v ev).records k).flag f = false := by
  show ((effect v ev).records k).flags f = false
  rw [flags_effect, h]
  rfl

theorem flag_kept {v : View} {ev : Event} {k : Nat} {f : Flag}
    (hraise : flagChange k ev ≠ .raise f) (hwipe : flagChange k ev ≠ .wipe) :
    ((effect v ev).records k).flag f = (v.records k).flag f := by
  show ((effect v ev).records k).flags f = (v.records k).flags f
  rw [flags_effect, Bool.eq_iff_iff, FlagChange.apply_eq_true]
  simp [hraise, hwipe]

section PendingSteps

variable {k : Nat} {log : List Event} {v : View} {ev : Event}

/-- A request joins the outstanding ones. -/
theorem pendingRight_request_iff {p : CInt} (h : PendingRight k log (v.records k))
    (hsent : RequestSentOn k p ev) (hp : ((effect v ev).records k).requestedPiece = p) :
    PendingRight k (log ++ [ev]) ((effect v ev).records k) ↔ KeepsPending k (v.records k) ev := by
  obtain ⟨turn, o, n, rfl⟩ := hsent
  have hflag : ((effect v (.sent turn k (.request p o n))).records k).flag .pendingRequest
      = true := flag_raised (by simp [flagChange, sentFlagChange])
  have hopen : ∀ q, Outstanding k q (log ++ [.sent turn k (.request p o n)]) ↔
      p = q ∨ Outstanding k q log := by
    intro q
    rw [Outstanding, since_concat]
    simp [RequestSentOn, AcceptedOn]
  have hkeeps : KeepsPending k (v.records k) (.sent turn k (.request p o n)) ↔
      ((v.records k).flag .pendingRequest = true → (v.records k).requestedPiece = p) := by
    simp [KeepsPending, flagChange, sentFlagChange, RequestSentOn, pieceSent]
  rw [hkeeps]
  constructor
  · intro hafter hbit
    obtain ⟨q, hq⟩ := h.bit.mp hbit
    have hpq := hafter.index q ((hopen q).mpr (.inr hq))
    rw [h.index q hq, ← hpq, hp]
  · intro hsame
    refine ⟨⟨fun _ => ⟨p, (hopen p).mpr (.inl rfl)⟩, fun _ => hflag⟩, ?_⟩
    intro q hq
    rw [hp]
    rcases (hopen q).mp hq with heq | hbefore
    · exact heq
    · rw [← hsame (h.bit.mpr ⟨q, hbefore⟩), h.index q hbefore]

/-- An upload marks a request that was never made. -/
theorem pendingRight_piece_iff {p : CInt} (h : PendingRight k log (v.records k))
    (hsent : pieceSent k p ev) (hp : ((effect v ev).records k).requestedPiece = p) :
    PendingRight k (log ++ [ev]) ((effect v ev).records k) ↔ KeepsPending k (v.records k) ev := by
  obtain ⟨turn, o, n, block, rfl⟩ := pieceSent_iff.mp hsent
  have hflag : ((effect v (.sent turn k (.piece p o n block))).records k).flag .pendingRequest
      = true := flag_raised (by simp [flagChange, sentFlagChange])
  have hopen : ∀ q, Outstanding k q (log ++ [.sent turn k (.piece p o n block)]) ↔
      Outstanding k q log := by
    intro q
    exact outstanding_unrelated (by simp [RequestSentOn]) (by simp [AcceptedOn])
  have hkeeps : KeepsPending k (v.records k) (.sent turn k (.piece p o n block)) ↔
      (v.records k).flag .pendingRequest = true ∧ (v.records k).requestedPiece = p := by
    simp [KeepsPending, flagChange, sentFlagChange, RequestSentOn, pieceSent]
  rw [hkeeps]
  constructor
  · intro hafter
    obtain ⟨q, hq⟩ := hafter.bit.mp hflag
    have hbefore := (hopen q).mp hq
    refine ⟨h.bit.mpr ⟨q, hbefore⟩, ?_⟩
    rw [h.index q hbefore, ← hafter.index q hq, hp]
  · rintro ⟨hbit, hindex⟩
    obtain ⟨q, hq⟩ := h.bit.mp hbit
    refine ⟨⟨fun _ => ⟨q, (hopen q).mpr hq⟩, fun _ => hflag⟩, ?_⟩
    intro r hr
    rw [hp, ← hindex]
    exact h.index r ((hopen r).mp hr)

/-- An accepted piece settles whatever was outstanding. -/
theorem pendingRight_accepted (haccepted : AcceptedOn k ev) (hwipe : flagChange k ev = .wipe) :
    PendingRight k (log ++ [ev]) ((effect v ev).records k) ∧ KeepsPending k (v.records k) ev := by
  have hnone : ∀ q, ¬ Outstanding k q (log ++ [ev]) := by
    intro q
    rw [Outstanding, since_concat]
    obtain ⟨r, block, written, shift, rfl⟩ := haccepted
    simp [RequestSentOn, AcceptedOn]
  have hflag := flag_wiped (v := v) .pendingRequest hwipe
  refine ⟨⟨?_, fun q hq => absurd hq (hnone q)⟩, fun _ => .inl haccepted, ?_, ?_⟩
  · rw [hflag]
    exact ⟨nofun, fun ⟨q, hq⟩ => absurd hq (hnone q)⟩
  · obtain ⟨r, block, written, shift, rfl⟩ := haccepted
    simp [RequestSentOn]
  · obtain ⟨r, block, written, shift, rfl⟩ := haccepted
    simp [pieceSent]

/-- Any other event must not wipe the bit while it is set. -/
theorem pendingRight_unrelated_iff (h : PendingRight k log (v.records k))
    (hunrelated : Unrelated k ev) (hraise : flagChange k ev ≠ .raise .pendingRequest)
    (hp : ((effect v ev).records k).requestedPiece = (v.records k).requestedPiece) :
    PendingRight k (log ++ [ev]) ((effect v ev).records k) ↔ KeepsPending k (v.records k) ev := by
  obtain ⟨haccepted, hrequest, hpiece⟩ := hunrelated
  have hopen : ∀ q, Outstanding k q (log ++ [ev]) ↔ Outstanding k q log :=
    fun q => outstanding_unrelated (hrequest q) haccepted
  have hkeeps : KeepsPending k (v.records k) ev ↔
      (flagChange k ev = .wipe → (v.records k).flag .pendingRequest = false) := by
    simp [KeepsPending, haccepted, hrequest, hpiece]
  have hindex : ∀ q, Outstanding k q (log ++ [ev]) →
      ((effect v ev).records k).requestedPiece = q := by
    intro q hq
    rw [hp]
    exact h.index q ((hopen q).mp hq)
  rw [hkeeps]
  by_cases hwipe : flagChange k ev = .wipe
  · have hflag := flag_wiped (v := v) .pendingRequest hwipe
    constructor
    · intro hafter _
      rw [← Bool.not_eq_true, h.bit]
      rintro ⟨q, hq⟩
      have hset := hafter.bit.mpr ⟨q, (hopen q).mpr hq⟩
      rw [hflag] at hset
      cases hset
    · intro hclear
      refine ⟨?_, hindex⟩
      rw [hflag]
      refine ⟨nofun, ?_⟩
      rintro ⟨q, hq⟩
      have hset := h.bit.mpr ⟨q, (hopen q).mp hq⟩
      rw [hclear hwipe] at hset
      cases hset
  · refine iff_of_true ⟨?_, hindex⟩ fun heq => absurd heq hwipe
    rw [flag_kept hraise hwipe, h.bit]
    simp only [hopen]

/-- A right record stays right over an event exactly when the event keeps
it so. -/
theorem pendingRight_step_iff (h : PendingRight k log (v.records k)) :
    PendingRight k (log ++ [ev]) ((effect v ev).records k) ↔ KeepsPending k (v.records k) ev := by
  rcases requestedPiece_effect v ev k with
    ⟨p, hsent, hp⟩ | ⟨p, hsent, hp⟩ | ⟨haccepted, hwipe, -⟩ | ⟨hunrelated, hraise, hp⟩
  · exact pendingRight_request_iff h hsent hp
  · exact pendingRight_piece_iff h hsent hp
  · obtain ⟨hright, hkeeps⟩ := pendingRight_accepted haccepted hwipe
    exact iff_of_true hright hkeeps
  · exact pendingRight_unrelated_iff h hunrelated hraise hp

end PendingSteps

/-- The record of slot `k` after a log, without the bitfield. -/
def recordAfter (ans : BtInfo) (s₀ : Client) (k : Nat) (log : List Event) : Connections :=
  ((machine ans).after s₀.view log).records k

/-- **The pending request.** From a zeroed record set up by
`initialize_connection`, the record of slot `k` tells the outstanding
request after every event of a run exactly when every event finds the record
as `KeepsPending` says. The record so far is the one the loop works with. -/
theorem pending_request_tracked {sha1 : List Byte → Digest} {ans : BtInfo} {s₀ s : Client}
    {log : List Event} (k : Nat)
    (hstart : s₀.connections k = initializeConnection .zeroed ans.numPieces)
    (hrun : Run sha1 ans s₀ log s) :
    stackPart (s.connections k) = recordAfter ans s₀ k log ∧
      ((∀ pre, pre <+: log → PendingRight k pre (recordAfter ans s₀ k pre)) ↔
        ∀ pre ev, pre ++ [ev] <+: log → KeepsPending k (recordAfter ans s₀ k pre) ev) := by
  obtain ⟨hadmits, hview⟩ := run_traced hrun
  refine ⟨congrArg (fun v : View => v.records k) hview, ?_, ?_⟩
  · intro hright pre ev hpre
    have hbefore := hright pre ((List.prefix_append pre [ev]).trans hpre)
    have hafter := hright (pre ++ [ev]) hpre
    rw [recordAfter, Machine.after_concat] at hafter
    exact (pendingRight_step_iff hbefore).mp hafter
  · intro hkeeps
    apply hadmits.invariant fun pre v => PendingRight k pre (v.records k)
    · have hflags := congrFun (flags_view_start hstart) .pendingRequest
      have hnone : ∀ p, ¬ Outstanding k p [] := by
        intro p hp
        obtain ⟨ev, hmem, -⟩ := hp.exists_mem
        simp at hmem
      refine ⟨⟨?_, fun ⟨p, hp⟩ => absurd hp (hnone p)⟩, fun p hp => absurd hp (hnone p)⟩
      intro hbit
      have hclear : (s₀.view.records k).flag .pendingRequest = false := hflags
      rw [hclear] at hbit
      cases hbit
    · intro pre ev hpre _ hinv
      exact (pendingRight_step_iff hinv).mpr (hkeeps pre ev hpre)

/-- A peer with piece 6 unchokes the client, and the request for piece 1
goes out: the record is right all along. -/
theorem pending_request_tracked_unchoked :
    (joined eightPieces).connections 1 = initializeConnection .zeroed eightPieces.numPieces ∧
    ∀ pre, pre <+: unchokedLog ++ [.sent 1 1 (.request 1 0 0)] →
      PendingRight 1 pre (recordAfter eightPieces (joined eightPieces) 1 pre) := by
  have hlog : (execute (fun _ => ⟨List.replicate 20 0, rfl⟩) eightPieces (joined eightPieces)
      (session [.msg (.have 6) (by decide), .msg (.state MsgID.unchoke.byte) (by decide),
        .msg (.state MsgID.interested.byte) (by decide)])).map Prod.snd
      = some (unchokedLog ++ [.sent 1 1 (.request 1 0 0)]) := rfl
  obtain ⟨s, hrun⟩ := run_of_log hlog
  refine ⟨rfl, (pending_request_tracked 1 rfl hrun).2.mpr ?_⟩
  simp only [unchokedLog, List.cons_append, List.nil_append, forall_prefix_cons,
    forall_prefix_nil]
  refine ⟨?_, ?_, ?_, ?_, ?_, ?_, trivial⟩ <;>
    simp [KeepsPending, flagChange, Heard.flagChange, sentFlagChange, RequestSentOn, pieceSent,
      AcceptedOn, MsgID.byte]
  · rfl
  · intro hset
    cases hset

/-- The client never asked for anything, and its first upload sets the bit. -/
theorem pending_request_tracked_upload :
    ¬ ∃ sha1 : List Byte → Digest, ∀ (ans : BtInfo) (s₀ s : Client) (log : List Event) (k : Nat),
      s₀.connections k = initializeConnection .zeroed ans.numPieces → Run sha1 ans s₀ log s →
      PendingRight k log (s.connections k) := by
  rintro ⟨sha1, hclaim⟩
  obtain ⟨s, hrun⟩ := servedLog_run sha1
  have hright := hclaim eightPieces _ s _ 1 rfl hrun
  have hbit : (s.connections 1).flag .pendingRequest = true := by
    have hview := (run_traced hrun).2
    have hrecord := congrArg (fun v : View => (v.records 1).flag .pendingRequest) hview
    exact hrecord
  obtain ⟨p, hp⟩ := hright.bit.mp hbit
  obtain ⟨ev, hmem, turn, o, n, rfl⟩ := hp.exists_mem
  simp [servedLog] at hmem

end DubstepDucks.Torrent
