import DubstepDucks.Torrent.Trace

/-!
# Torrent — what the client may send, and when

Past-time rules of the protocol for one slot `k`, over the logs of all runs
of the main loop. They rest on the event machine of the previous module and
on one fact about it: an event keeps the flag byte of slot `k`, raises one
flag, or wipes the byte (`flags_effect`). The wipes are the calls
`Set_Flag(.., 0)`; whatever a guard reads out of the byte is reliable only
as far as they leave it alone.
-/

namespace DubstepDucks.Torrent

open CMem Btp History

/-! ## The flag byte of one slot -/

/-- What an event does to the flags of a record. -/
inductive FlagChange where
  | keep
  | raise (f : Flag)
  | wipe
  deriving DecidableEq

def FlagChange.apply : FlagChange → Flags → Flags
  | .keep, a => a
  | .raise f, a => a.set f true
  | .wipe, _ => Flags.clear

def Heard.flagChange : Heard → FlagChange
  | .choke => .raise .ownChoke
  | .interested => .raise .peerInterested
  | .unchoke | .uninterested => .wipe
  | .have _ | .bitfield | .request _ | .piece _ | .cancel | .other => .keep

def sentFlagChange : WireMsg → FlagChange
  | .state msgID => if msgID = MsgID.interested.byte then .raise .ownInterested else .keep
  | .request _ _ _ | .piece _ _ _ _ => .raise .pendingRequest
  | .have _ | .bitfield _ _ | .cancel _ _ _ => .keep

/-- What the event does to the flags of slot `k`. -/
def flagChange (k : Nat) : Event → FlagChange
  | .heard j _ m => if j = k then m.flagChange else .keep
  | .dropped j => if j = k then .wipe else .keep
  | .stored j _ _ _ _ => if j = k then .wipe else .keep
  | .sent _ j m => if j = k then sentFlagChange m else .keep
  | .greeted _ _ | .smashed _ | .introduced _ _ => .keep

theorem FlagChange.apply_eq_true {ch : FlagChange} {a : Flags} {f : Flag} :
    ch.apply a f = true ↔ ch = .raise f ∨ (ch ≠ .wipe ∧ a f = true) := by
  cases ch with
  | keep => simp [FlagChange.apply]
  | raise g =>
      by_cases hfg : f = g
      · simp [FlagChange.apply, Flags.set, hfg]
      · simp [FlagChange.apply, Flags.set, hfg, Ne.symm hfg]
  | wipe => simp [FlagChange.apply, Flags.clear]

theorem FlagChange.apply_eq_false {ch : FlagChange} {a : Flags} {f : Flag} :
    ch.apply a f = false ↔ ch ≠ .raise f ∧ (ch = .wipe ∨ a f = false) := by
  rw [← Bool.not_eq_true, FlagChange.apply_eq_true]
  simp only [not_or, not_and_or, not_not, Bool.not_eq_true]

theorem flags_heard (c : Connections) (m : Heard) :
    (m.effect c).flags = m.flagChange.apply c.flags := by
  cases m with
  | choke => exact flags_setFlag_one c _
  | unchoke => exact flags_setFlag_zero c _
  | interested => exact flags_setFlag_one c _
  | uninterested => exact flags_setFlag_zero c _
  | _ => rfl

theorem flags_sent (c : Connections) (m : WireMsg) :
    (sentEffect m c).flags = (sentFlagChange m).apply c.flags := by
  cases m with
  | state msgID =>
      rw [sentEffect, sentFlagChange]
      split
      · exact flags_sendInterested c
      · split
        · exact flags_sendUninterested c
        · exact flags_sendUnchoked c
  | request p o n => exact flags_markRequested c p
  | piece p o n d => exact flags_markRequested c p
  | _ => rfl

/-- Every event keeps, raises or wipes. -/
theorem flags_effect (v : View) (ev : Event) (k : Nat) :
    ((effect v ev).records k).flags = (flagChange k ev).apply (v.records k).flags := by
  have hmodify : ∀ (j : Nat) (f : Connections → Connections) (ch : FlagChange),
      (f (v.records k)).flags = ch.apply (v.records k).flags →
      (v.records.modify j f k).flags = (if j = k then ch else .keep).apply (v.records k).flags := by
    intro j f ch h
    by_cases hj : j = k
    · rw [if_pos hj, ← h, Records.modify, if_pos hj.symm]
    · rw [if_neg hj, Records.modify, if_neg (Ne.symm hj)]
      rfl
  cases ev with
  | heard j chunk m => exact hmodify j _ _ (flags_heard (v.records k) m)
  | dropped j => exact hmodify j _ .wipe (flags_setFlag_zero (v.records k) _)
  | stored j p block written shift => exact hmodify j _ .wipe (flags_setFlag_zero (v.records k) _)
  | sent turn j m => exact hmodify j _ _ (flags_sent (v.records k) m)
  | _ => rfl

/-! ## Past-time vocabulary -/

def HeardOn (k : Nat) (m : Heard) (ev : Event) : Prop := ∃ chunk, ev = .heard k chunk m

def SentOn (k : Nat) (m : WireMsg) (ev : Event) : Prop := ∃ turn, ev = .sent turn k m

theorem flagChange_heard {k : Nat} {m : Heard} {ev : Event} (h : HeardOn k m ev) :
    flagChange k ev = m.flagChange := by
  obtain ⟨chunk, rfl⟩ := h
  rw [flagChange, if_pos rfl]

/-- The only message that raises `ownChoke` or `peerInterested` is the one
named after it, `ownInterested` is raised by sending `INTERESTED` and
`pendingRequest` by sending something, and nothing raises `peerChoke`. -/
theorem raise_cases {k : Nat} {ev : Event} {f : Flag} (h : flagChange k ev = .raise f) :
    f ≠ .peerChoke ∧ (f = .ownChoke → HeardOn k .choke ev) ∧
      (f = .peerInterested → HeardOn k .interested ev) ∧
      (f = .ownInterested → SentOn k (.state MsgID.interested.byte) ev) ∧
      (f = .pendingRequest → ∃ m, SentOn k m ev) := by
  cases ev with
  | heard j chunk m =>
      by_cases hj : j = k
      · subst hj
        rw [flagChange, if_pos rfl] at h
        cases m <;> cases h <;> simp [HeardOn]
      · rw [flagChange, if_neg hj] at h
        cases h
  | sent turn j m =>
      by_cases hj : j = k
      · subst hj
        rw [flagChange, if_pos rfl] at h
        cases m with
        | state msgID =>
            rw [sentFlagChange] at h
            split at h
            · next hid =>
              cases h
              simp [SentOn, hid]
            · cases h
        | request p o n | piece p o n d =>
            cases h
            exact ⟨by simp, by simp, by simp, by simp, fun _ => ⟨_, turn, rfl⟩⟩
        | _ => cases h
      · rw [flagChange, if_neg hj] at h
        cases h
  | dropped j =>
      rw [flagChange] at h
      split at h <;> cases h
  | stored j p block written shift =>
      rw [flagChange] at h
      split at h <;> cases h
  | _ => cases h

/-- A slot set up from a zeroed record starts with the listed defaults. -/
theorem flags_view_start {s₀ : Client} {k n : Nat}
    (hstart : s₀.connections k = initializeConnection .zeroed n) :
    (s₀.view.records k).flags = Flags.initial := by
  show (s₀.connections k).flags = Flags.initial
  rw [hstart, flags_initialize_zeroed]

/-! ## Requests -/

/-- `UNCHOKE` was received, and no `CHOKE` since. -/
def Unchoked (k : Nat) : List Event → Prop := Since (HeardOn k .unchoke) (HeardOn k .choke)

/-- `INTERESTED` was sent, and no `UNINTERESTED` since. -/
def Interested (k : Nat) : List Event → Prop :=
  Since (SentOn k (.state MsgID.interested.byte)) (SentOn k (.state MsgID.uninterested.byte))

/-- The event leaves the download flags of slot `k`, which are `a` before
it, in step with the messages: only an `UNCHOKE` wipes the byte while
`ownChoke` is set, no `UNINTERESTED` is sent while `ownInterested` is, and a
request to slot `k` is made in its own turn. -/
def KeepsOwnFlags (k : Nat) (a : Flags) (ev : Event) : Prop :=
  (flagChange k ev = .wipe → HeardOn k .unchoke ev ∨ a .ownChoke = false) ∧
    (SentOn k (.state MsgID.uninterested.byte) ev → a .ownInterested = false) ∧
    ∀ turn p o n, ev = .sent turn k (.request p o n) → turn = k

/-- The download flags of slot `k` say no more than the log does. -/
def OwnFlagsSound (k : Nat) (log : List Event) (v : View) : Prop :=
  ((v.records k).flags .ownChoke = false → Unchoked k log) ∧
    ((v.records k).flags .ownInterested = true → Interested k log)

theorem OwnFlagsSound.step {k : Nat} {log : List Event} {v : View} {ev : Event}
    (h : OwnFlagsSound k log v) (hkeep : KeepsOwnFlags k (v.records k).flags ev) :
    OwnFlagsSound k (log ++ [ev]) (effect v ev) := by
  obtain ⟨hwipe, huninterested, -⟩ := hkeep
  refine ⟨?_, ?_⟩
  · rw [flags_effect, FlagChange.apply_eq_false]
    rintro ⟨hraise, hclear⟩
    have hchoke : ¬ HeardOn k .choke ev := fun hheard => hraise (flagChange_heard hheard)
    apply since_concat.mpr
    rcases hclear with hev | hbefore
    · rcases hwipe hev with hunchoke | hbefore
      · exact .inl hunchoke
      · exact .inr ⟨h.1 hbefore, hchoke⟩
    · exact .inr ⟨h.1 hbefore, hchoke⟩
  · rw [flags_effect, FlagChange.apply_eq_true]
    rintro (hraise | ⟨-, hbefore⟩) <;> apply since_concat.mpr
    · exact .inl ((raise_cases hraise).2.2.2.1 rfl)
    · refine .inr ⟨h.2 hbefore, ?_⟩
      intro hsent
      rw [huninterested hsent] at hbefore
      cases hbefore

/-- **No request while choked**, as far as the flag byte can tell: in every
run whose events keep the download flags of slot `k` in step, each `REQUEST`
sent on the slot comes after an `UNCHOKE` with no later `CHOKE`, and after
an `INTERESTED` with no later `UNINTERESTED`. -/
theorem no_request_while_choked {sha1 : List Byte → Digest} {ans : BtInfo} {s₀ s : Client}
    {log : List Event} (k : Nat)
    (hstart : s₀.connections k = initializeConnection .zeroed ans.numPieces)
    (hrun : Run sha1 ans s₀ log s)
    (hkeep : ∀ pre ev, pre ++ [ev] <+: log →
      KeepsOwnFlags k (((machine ans).after s₀.view pre).records k).flags ev) :
    ∀ pre turn p o n, pre ++ [.sent turn k (.request p o n)] <+: log →
      Unchoked k pre ∧ Interested k pre := by
  intro pre turn p o n hpre
  obtain ⟨hadmits, -⟩ := run_traced hrun
  have hinit := flags_view_start hstart
  have hsound : OwnFlagsSound k pre ((machine ans).after s₀.view pre) := by
    apply hadmits.invariant (OwnFlagsSound k)
    · constructor <;> rw [hinit] <;> intro h <;> cases h
    · intro pre ev hpre _ hinv
      exact hinv.step (hkeep pre ev hpre)
    · exact (List.prefix_append pre _).trans hpre
  have hturn : turn = k := (hkeep pre _ hpre).2.2 turn p o n rfl
  obtain ⟨-, hinterested, hunchoked⟩ := hadmits pre _ hpre
  rw [hturn] at hinterested hunchoked
  exact ⟨hsound.1 hunchoked, hsound.2 hinterested⟩

/-- A peer with piece 6 unchokes the client: the log up to the request. -/
def unchokedLog : List Event :=
  [.heard 1 (WireMsg.have 6).bytes (.have 6), .sent 1 1 (.state MsgID.interested.byte),
    .heard 1 (WireMsg.state MsgID.unchoke.byte).bytes .unchoke,
    .sent 1 1 (.state MsgID.interested.byte),
    .heard 1 (WireMsg.state MsgID.interested.byte).bytes .interested]

/-- The rule at work: the peer has piece 6, unchokes the client, and the
request goes out. -/
theorem no_request_while_choked_unchoked :
    Unchoked 1 unchokedLog ∧ Interested 1 unchokedLog := by
  have hlog : (execute (fun _ => ⟨List.replicate 20 0, rfl⟩) eightPieces (joined eightPieces)
      (session [.msg (.have 6) (by decide), .msg (.state MsgID.unchoke.byte) (by decide),
        .msg (.state MsgID.interested.byte) (by decide)])).map Prod.snd
      = some (unchokedLog ++ [.sent 1 1 (.request 1 0 0)]) := rfl
  obtain ⟨s, hrun⟩ := run_of_log hlog
  refine no_request_while_choked 1 rfl hrun ?_ unchokedLog 1 1 0 0 List.prefix_rfl
  simp only [unchokedLog, List.cons_append, List.nil_append, forall_prefix_cons,
    forall_prefix_nil]
  refine ⟨?_, ?_, ?_, ?_, ?_, ?_, trivial⟩ <;>
    (refine ⟨?_, ?_, ?_⟩ <;>
      simp [flagChange, HeardOn, SentOn, Heard.flagChange, sentFlagChange, MsgID.byte])
  intro turn p o n hturn _ _ _
  exact hturn.symm

/-- The peer only says that it is not interested. That wipes `ownChoke`
too, and the request goes out to a peer that never unchoked the client. -/
theorem no_request_while_choked_wiped :
    ¬ ∃ sha1 : List Byte → Digest, ∀ (ans : BtInfo) (s₀ s : Client) (log : List Event) (k : Nat),
      s₀.connections k = initializeConnection .zeroed ans.numPieces → Run sha1 ans s₀ log s →
      ∀ pre turn p o n, pre ++ [.sent turn k (.request p o n)] <+: log →
        Unchoked k pre ∧ Interested k pre := by
  rintro ⟨sha1, hclaim⟩
  have hlog : (execute sha1 eightPieces (joined eightPieces)
      (session [.msg (.have 6) (by decide), .msg (.state MsgID.uninterested.byte) (by decide),
        .msg (.state MsgID.interested.byte) (by decide)])).map Prod.snd
      = some ([.heard 1 (WireMsg.have 6).bytes (.have 6),
          .sent 1 1 (.state MsgID.interested.byte),
          .heard 1 (WireMsg.state MsgID.uninterested.byte).bytes .uninterested,
          .sent 1 1 (.state MsgID.interested.byte),
          .heard 1 (WireMsg.state MsgID.interested.byte).bytes .interested] ++
        [.sent 1 1 (.request 1 0 0)]) := rfl
  obtain ⟨s, hrun⟩ := run_of_log hlog
  have hunchoked := (hclaim eightPieces _ s _ 1 rfl hrun _ 1 1 0 0 List.prefix_rfl).1
  obtain ⟨ev, hmem, chunk, rfl⟩ := hunchoked.exists_mem
  simp at hmem

/-! ## Uploads -/

/-- `UNCHOKE` was sent on slot `k`. -/
def UnchokeSent (k : Nat) (log : List Event) : Prop :=
  ∃ ev ∈ log, SentOn k (.state MsgID.unchoke.byte) ev

/-- Of `INTERESTED` and `UNINTERESTED`, the last received is `INTERESTED`. -/
def PeerInterested (k : Nat) : List Event → Prop :=
  Since (HeardOn k .interested) (HeardOn k .uninterested)

theorem UnchokeSent.concat {k : Nat} {log : List Event} (h : UnchokeSent k log) (ev : Event) :
    UnchokeSent k (log ++ [ev]) := by
  obtain ⟨x, hx, hsent⟩ := h
  exact ⟨x, by simp [hx], hsent⟩

/-- The upload flags of slot `k` say no more than the log does. -/
def PeerFlagsSound (k : Nat) (log : List Event) (v : View) : Prop :=
  ((v.records k).flags .peerChoke = false → UnchokeSent k log) ∧
    ((v.records k).flags .peerInterested = true → PeerInterested k log)

theorem PeerFlagsSound.step {k : Nat} {log : List Event} {v : View} {ev : Event}
    (h : PeerFlagsSound k log v) (hwipe : flagChange k ev = .wipe → UnchokeSent k log) :
    PeerFlagsSound k (log ++ [ev]) (effect v ev) := by
  refine ⟨?_, ?_⟩
  · rw [flags_effect, FlagChange.apply_eq_false]
    rintro ⟨-, hev | hbefore⟩
    · exact (hwipe hev).concat ev
    · exact (h.1 hbefore).concat ev
  · rw [flags_effect, FlagChange.apply_eq_true]
    rintro (hraise | ⟨hkept, hbefore⟩) <;> apply since_concat.mpr
    · exact .inl ((raise_cases hraise).2.2.1 rfl)
    · exact .inr ⟨h.2 hbefore, fun hheard => hkept (flagChange_heard hheard)⟩

/-- **Pieces go only to unchoked, interested peers**, when nothing wipes the
flag byte of the slot before the first `UNCHOKE` is sent on it. -/
theorem piece_only_when_unchoked {sha1 : List Byte → Digest} {ans : BtInfo} {s₀ s : Client}
    {log : List Event} (k : Nat)
    (hstart : s₀.connections k = initializeConnection .zeroed ans.numPieces)
    (hrun : Run sha1 ans s₀ log s)
    (hwipe : ∀ pre ev, pre ++ [ev] <+: log → flagChange k ev = .wipe → UnchokeSent k pre) :
    ∀ pre turn p o n block, pre ++ [.sent turn k (.piece p o n block)] <+: log →
      UnchokeSent k pre ∧ PeerInterested k pre := by
  intro pre turn p o n block hpre
  obtain ⟨hadmits, -⟩ := run_traced hrun
  have hinit := flags_view_start hstart
  have hsound : PeerFlagsSound k pre ((machine ans).after s₀.view pre) := by
    apply hadmits.invariant (PeerFlagsSound k)
    · constructor <;> rw [hinit] <;> intro h <;> cases h
    · intro pre ev hpre _ hinv
      exact hinv.step (hwipe pre ev hpre)
    · exact (List.prefix_append pre _).trans hpre
  obtain ⟨-, hinterested, hunchoked, -⟩ := hadmits pre _ hpre
  exact ⟨hsound.1 hunchoked, hsound.2 hinterested⟩

/-- A peer that is unchoked before it unchokes the client, and then asks for
piece 0: the log up to the upload. -/
def servedLog : List Event :=
  [.heard 1 (WireMsg.state MsgID.interested.byte).bytes .interested,
    .sent 1 1 (.state MsgID.unchoke.byte),
    .heard 1 (WireMsg.state MsgID.unchoke.byte).bytes .unchoke,
    .sent 1 1 (.state MsgID.uninterested.byte),
    .heard 1 (WireMsg.state MsgID.interested.byte).bytes .interested,
    .heard 1 (WireMsg.request 0 0 0).bytes (.request 0)]

theorem servedLog_run (sha1 : List Byte → Digest) :
    ∃ s, Run sha1 eightPieces (joined eightPieces)
      (servedLog ++ [.sent 1 1 (.piece 0 0 4 (ascii "ABC" ++ [0]))]) s := by
  have hlog : (execute sha1 eightPieces (joined eightPieces)
      (session [.msg (.state MsgID.interested.byte) (by decide),
        .msg (.state MsgID.unchoke.byte) (by decide),
        .msg (.state MsgID.interested.byte) (by decide), .msg (.request 0 0 0) (by decide)])).map
          Prod.snd
      = some (servedLog ++ [.sent 1 1 (.piece 0 0 4 (ascii "ABC" ++ [0]))]) := rfl
  exact run_of_log hlog

theorem piece_only_when_unchoked_served : UnchokeSent 1 servedLog ∧ PeerInterested 1 servedLog := by
  obtain ⟨s, hrun⟩ := servedLog_run fun _ => ⟨List.replicate 20 0, rfl⟩
  refine piece_only_when_unchoked 1 rfl hrun ?_ servedLog 1 0 0 4 _ List.prefix_rfl
  simp only [servedLog, List.cons_append, List.nil_append, forall_prefix_cons, forall_prefix_nil]
  refine ⟨?_, ?_, ?_, ?_, ?_, ?_, ?_, trivial⟩ <;>
    simp [flagChange, Heard.flagChange, sentFlagChange, UnchokeSent, SentOn, MsgID.byte]

/-- A peer that unchokes the client wipes `peerChoke` too: it is served
though it was never unchoked. -/
theorem piece_only_when_unchoked_wiped :
    ¬ ∃ sha1 : List Byte → Digest, ∀ (ans : BtInfo) (s₀ s : Client) (log : List Event) (k : Nat),
      s₀.connections k = initializeConnection .zeroed ans.numPieces → Run sha1 ans s₀ log s →
      ∀ pre turn p o n block, pre ++ [.sent turn k (.piece p o n block)] <+: log →
        UnchokeSent k pre ∧ PeerInterested k pre := by
  rintro ⟨sha1, hclaim⟩
  have hlog : (execute sha1 eightPieces (joined eightPieces)
      (session [.msg (.state MsgID.unchoke.byte) (by decide),
        .msg (.state MsgID.interested.byte) (by decide), .msg (.request 0 0 0) (by decide)])).map
          Prod.snd
      = some ([.heard 1 (WireMsg.state MsgID.unchoke.byte).bytes .unchoke,
          .sent 1 1 (.state MsgID.uninterested.byte),
          .heard 1 (WireMsg.state MsgID.interested.byte).bytes .interested,
          .heard 1 (WireMsg.request 0 0 0).bytes (.request 0)] ++
        [.sent 1 1 (.piece 0 0 4 (ascii "ABC" ++ [0]))]) := rfl
  obtain ⟨s, hrun⟩ := run_of_log hlog
  obtain ⟨ev, hmem, turn, rfl⟩ := (hclaim eightPieces _ s _ 1 rfl hrun _ 1 0 0 4 _
    List.prefix_rfl).1
  simp [MsgID.byte] at hmem

/-! ## The piece that is uploaded -/

/-- The chunk was received on slot `k`, whichever case took it. -/
def ReceivedOn (k : Nat) (chunk : List Byte) (ev : Event) : Prop :=
  (∃ m, ev = .heard k chunk m) ∨ ev = .greeted k chunk

/-- A `REQUEST` for piece `p` was received. -/
def RequestOn (k : Nat) (p : CInt) (ev : Event) : Prop :=
  ∃ o n, ReceivedOn k (constructRequestMessage p o n) ev

def CancelOn (k : Nat) (ev : Event) : Prop :=
  ∃ p o n, ReceivedOn k (constructCancelMessage p o n) ev

/-- The last of the `REQUEST`s and `CANCEL`s received on slot `k` asks for
piece `p`. -/
def LastRequest (k : Nat) (p : CInt) : List Event → Prop :=
  Since (RequestOn k p) fun ev => (∃ q, RequestOn k q ev) ∨ CancelOn k ev

/-- `piece_to_send` is written by the cases REQUEST and CANCEL only. -/
theorem pieceToSend_effect (v : View) (ev : Event) (k : Nat) :
    (∃ chunk p, ev = .heard k chunk (.request p) ∧ ((effect v ev).records k).pieceToSend = p) ∨
      (∃ chunk, ev = .heard k chunk .cancel ∧ ((effect v ev).records k).pieceToSend = -1) ∨
      ((∀ p, ¬ HeardOn k (.request p) ev) ∧ ¬ HeardOn k .cancel ev ∧
        ((effect v ev).records k).pieceToSend = (v.records k).pieceToSend) := by
  have hmodify : ∀ (j : Nat) (f : Connections → Connections),
      (f (v.records k)).pieceToSend = (v.records k).pieceToSend →
      (v.records.modify j f k).pieceToSend = (v.records k).pieceToSend := by
    intro j f h
    rw [Records.modify]
    split
    · exact h
    · rfl
  cases ev with
  | heard j chunk m =>
      by_cases hj : j = k
      · subst hj
        cases m with
        | request p =>
            refine .inl ⟨chunk, p, rfl, ?_⟩
            simp [effect, View.modify, Records.modify, Heard.effect]
        | cancel =>
            refine .inr (.inl ⟨chunk, rfl, ?_⟩)
            simp [effect, View.modify, Records.modify, Heard.effect]
        | _ => exact .inr (.inr ⟨by simp [HeardOn], by simp [HeardOn], hmodify _ _ rfl⟩)
      · refine .inr (.inr ⟨by simp [HeardOn, hj], by simp [HeardOn, hj], ?_⟩)
        show (v.records.modify j m.effect k).pieceToSend = _
        rw [Records.modify, if_neg (Ne.symm hj)]
  | dropped j => exact .inr (.inr ⟨by simp [HeardOn], by simp [HeardOn], hmodify _ _ rfl⟩)
  | stored j p block written shift =>
      exact .inr (.inr ⟨by simp [HeardOn], by simp [HeardOn], hmodify _ _ rfl⟩)
  | sent turn j m =>
      refine .inr (.inr ⟨by simp [HeardOn], by simp [HeardOn], hmodify _ _ ?_⟩)
      cases m with
      | state msgID =>
          rw [sentEffect]
          split
          · rfl
          · split <;> rfl
      | _ => rfl
  | _ => exact .inr (.inr ⟨by simp [HeardOn], by simp [HeardOn], rfl⟩)

/-- A request or cancel message never has the length of a handshake, so the
switch gets it and reads it for what it is. -/
theorem heard_of_receivedOn {ans : BtInfo} {v : View} {k : Nat} {ev : Event} {w : WireMsg}
    (hguard : guard ans v ev) (hdoc : w.Documented) (hlen : w.bytes.length = 17)
    (h : ReceivedOn k w.bytes ev) : HeardOn k (Heard.of w) ev := by
  rcases h with ⟨m, rfl⟩ | rfl
  · exact ⟨w.bytes, by rw [hguard w hdoc rfl]⟩
  · rw [guard, hlen, fullHandshakeLength] at hguard
    omega

/-- What slot `k` would upload next is what it was last asked for. -/
def UploadSound (k : Nat) (log : List Event) (v : View) : Prop :=
  0 ≤ (v.records k).pieceToSend.toInt → LastRequest k (v.records k).pieceToSend log

theorem UploadSound.step {ans : BtInfo} {k : Nat} {log : List Event} {v : View} {ev : Event}
    (h : UploadSound k log v) (hguard : guard ans v ev)
    (hmsg : ∀ chunk, ReceivedOn k chunk ev → ∃ w : WireMsg, w.Documented ∧ chunk = w.bytes) :
    UploadSound k (log ++ [ev]) (effect v ev) := by
  intro hpos
  apply since_concat.mpr
  rcases pieceToSend_effect v ev k with
    ⟨chunk, p, hev, hp⟩ | ⟨chunk, hev, hp⟩ | ⟨hrequest, hcancel, hp⟩
  · -- the switch saw a request, so a request message was received
    left
    obtain ⟨w, hdoc, hw⟩ := hmsg chunk (.inl ⟨_, hev⟩)
    rw [hev] at hguard
    have hof : Heard.request p = Heard.of w := hguard w hdoc hw
    rw [hp]
    cases w with
    | request q o n =>
        cases hof
        exact ⟨o, n, .inl ⟨.request p, by rw [hev, hw]; rfl⟩⟩
    | state msgID => rcases hdoc with rfl | rfl | rfl | rfl <;> cases hof
    | _ => cases hof
  · rw [hp] at hpos
    exact absurd hpos (by decide)
  · right
    rw [hp] at hpos ⊢
    refine ⟨h hpos, ?_⟩
    rintro (⟨q, o, n, hreceived⟩ | ⟨q, o, n, hreceived⟩)
    · exact hrequest q (heard_of_receivedOn (w := .request q o n) hguard trivial
        (length_blockMessage _ _ _ _) hreceived)
    · exact hcancel (heard_of_receivedOn (w := .cancel q o n) hguard trivial
        (length_blockMessage _ _ _ _) hreceived)

/-- **Uploads follow the last request.** On a slot whose record was set up
by `initialize_connection`, and which receives one documented message a
`recv`, every `PIECE` sent carries the index of the last `REQUEST` received
on the slot, and no `CANCEL` was received after that. -/
theorem upload_follows_last_request {sha1 : List Byte → Digest} {ans : BtInfo} {s₀ s : Client}
    {log : List Event} (k : Nat) (before : Connections)
    (hstart : s₀.connections k = initializeConnection before ans.numPieces)
    (hrun : Run sha1 ans s₀ log s)
    (hmsgs : ∀ ev ∈ log, ∀ chunk, ReceivedOn k chunk ev →
      ∃ w : WireMsg, w.Documented ∧ chunk = w.bytes) :
    ∀ pre turn p o n block, pre ++ [.sent turn k (.piece p o n block)] <+: log →
      LastRequest k p pre := by
  intro pre turn p o n block hpre
  obtain ⟨hadmits, -⟩ := run_traced hrun
  have hsound : UploadSound k pre ((machine ans).after s₀.view pre) := by
    apply hadmits.invariant (UploadSound k)
    · intro hpos
      have hinit : (s₀.view.records k).pieceToSend = -1 := by
        show (s₀.connections k).pieceToSend = -1
        rw [hstart]
        rfl
      rw [hinit] at hpos
      exact absurd hpos (by decide)
    · intro pre ev hpre hguard hinv
      exact hinv.step hguard (hmsgs ev (hpre.subset (by simp)))
    · exact (List.prefix_append pre _).trans hpre
  obtain ⟨-, -, -, hp, hpos⟩ := hadmits pre _ hpre
  rw [hp] at hpos ⊢
  exact hsound hpos

theorem upload_follows_last_request_served : LastRequest 1 0 servedLog := by
  obtain ⟨s, hrun⟩ := servedLog_run fun _ => ⟨List.replicate 20 0, rfl⟩
  refine upload_follows_last_request 1 .zeroed rfl hrun ?_ servedLog 1 0 0 4 _ List.prefix_rfl
  intro ev hev chunk hchunk
  rcases hchunk with ⟨m, rfl⟩ | rfl
  · have hcases : chunk = (WireMsg.state MsgID.interested.byte).bytes ∨
        chunk = (WireMsg.state MsgID.unchoke.byte).bytes ∨
        chunk = (WireMsg.request 0 0 0).bytes := by
      simp only [servedLog, List.cons_append, List.nil_append, List.mem_cons, Event.heard.injEq,
        reduceCtorEq, List.not_mem_nil] at hev
      tauto
    rcases hcases with rfl | rfl | rfl
    · exact ⟨_, by decide, rfl⟩
    · exact ⟨_, by decide, rfl⟩
    · exact ⟨_, by decide, rfl⟩
  · simp [servedLog] at hev

end DubstepDucks.Torrent
