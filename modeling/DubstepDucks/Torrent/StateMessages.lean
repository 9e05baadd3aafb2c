import DubstepDucks.Torrent.Indices

/-!
# Torrent — state messages and changes of state

`INTERESTED`, `UNINTERESTED` and `UNCHOKE` are meant to report a change.
`Send_interested` is guarded by `OWNINTERESTED`, which any clearing of
another flag clears as well; `Send_unchoked` by `PEERCHOKE`, which nothing
else clears; `Send_uninterested` by nothing, and so are both messages that
answer a handshake with a bitfield. `SaysNews` says what has to be received
before the slot is ready for output again, and the runs all of whose passes
meet it report changes only.

Plan: what a pass can send and in what state (`receive_says`, `serve_says`),
what the message received makes of the flags and the bitfields
(`receive_wipes`, `receive_bitfields`), then the run pass by pass.
-/

namespace DubstepDucks.Torrent

open CMem Btp History

/-- Of `INTERESTED` and `UNINTERESTED`, the last sent is `UNINTERESTED`. -/
def Uninterested (k : Nat) : List Event → Prop :=
  Since (SentOn k (.state MsgID.uninterested.byte)) (SentOn k (.state MsgID.interested.byte))

/-- A state message sent on slot `k` is news after the log. -/
def Reports (k : Nat) (log : List Event) (ev : Event) : Prop :=
  (SentOn k (.state MsgID.interested.byte) ev → ¬ Interested k log) ∧
    (SentOn k (.state MsgID.uninterested.byte) ev → ¬ Uninterested k log) ∧
    (SentOn k (.state MsgID.unchoke.byte) ev → ¬ UnchokeSent k log)

/-- **State messages report changes** on slot `k`. -/
def ReportsChanges (k : Nat) (log : List Event) : Prop :=
  ∀ pre ev, pre ++ [ev] <+: log → Reports k pre ev

/-! ## The flags and the log -/

/-- A flag of slot `k` was cleared. -/
def Cleared (k : Nat) (log : List Event) : Prop := ∃ ev ∈ log, flagChange k ev = .wipe

/-- `INTERESTED` was sent, and no flag of slot `k` cleared since. -/
def Uncleared (k : Nat) : List Event → Prop :=
  Since (SentOn k (.state MsgID.interested.byte)) (flagChange k · = .wipe)

theorem cleared_concat {k : Nat} {log : List Event} {ev : Event} :
    Cleared k (log ++ [ev]) ↔ Cleared k log ∨ flagChange k ev = .wipe := by
  simp [Cleared, or_and_right, exists_or]

section Flags

variable (ans : BtInfo) {k : Nat} (v : View) {log : List Event}

/-- While nothing is cleared, flags only come up. -/
theorem flag_after (hkeep : ¬ Cleared k log) (f : Flag) :
    (((machine ans).after v log).records k).flags f = true ↔
      (v.records k).flags f = true ∨ ∃ ev ∈ log, flagChange k ev = .raise f := by
  induction log using List.reverseRecOn with
  | nil => simp [Machine.after]
  | append_singleton log ev ih =>
      obtain ⟨hlog, hev⟩ := not_or.mp (mt cleared_concat.mpr hkeep)
      rw [Machine.after_concat]
      show ((effect _ ev).records k).flags f = true ↔ _
      rw [flags_effect, FlagChange.apply_eq_true, ih hlog]
      simp only [List.mem_append, List.mem_singleton, or_and_right, exists_or, exists_eq_left,
        ne_eq, hev, not_false_eq_true, true_and]
      rw [or_comm, or_assoc]

/-- `PEERCHOKE` never comes up again. -/
theorem peerChoke_after (hcleared : Cleared k log) :
    (((machine ans).after v log).records k).flags .peerChoke = false := by
  induction log using List.reverseRecOn with
  | nil => simp [Cleared] at hcleared
  | append_singleton log ev ih =>
      rw [Machine.after_concat]
      show ((effect _ ev).records k).flags .peerChoke = false
      rw [flags_effect, FlagChange.apply_eq_false]
      refine ⟨fun hraise => (raise_cases hraise).1 rfl, ?_⟩
      rcases cleared_concat.mp hcleared with hlog | hev
      · exact .inr (ih hlog)
      · exact .inl hev

/-- `OWNINTERESTED` stands for the `INTERESTED` sent until a flag is cleared. -/
theorem ownInterested_after (huncleared : Uncleared k log) :
    (((machine ans).after v log).records k).flags .ownInterested = true := by
  induction log using List.reverseRecOn with
  | nil =>
      obtain ⟨ev, hmem, -⟩ := huncleared.exists_mem
      cases hmem
  | append_singleton log ev ih =>
      rw [Machine.after_concat]
      show ((effect _ ev).records k).flags .ownInterested = true
      rw [flags_effect, FlagChange.apply_eq_true]
      rcases since_concat.mp huncleared with ⟨turn, rfl⟩ | ⟨hlog, hev⟩
      · left
        rw [flagChange, if_pos rfl]
        rfl
      · exact .inr ⟨hev, ih hlog⟩

end Flags

/-! ## What a pass says -/

/-- No state message is sent. -/
def Mute (evs : List Event) : Prop := ∀ t j msgID, .sent t j (.state msgID) ∉ evs

/-- Nothing is sent. -/
def Silent (evs : List Event) : Prop := ∀ t j m, .sent t j m ∉ evs

/-- The POLLOUT branch for slot `k` turns to what the peer wants. -/
def ConsidersPeer (s : Client) (k : Nat) : Prop :=
  (s.fds k).revents = true ∧ (s.connections k).flag .peerInterested = true ∧
    ((s.connections k).flag .ownInterested = false ∨ (s.connections k).flag .pendingRequest = true)

/-- The POLLOUT branch for slot `k` comes to the comparison of the
bitfields. -/
def Compares (s : Client) (k : Nat) : Prop :=
  (s.fds k).revents = true ∧ ¬ ConsidersPeer s k ∧ (s.connections k).flag .pendingRequest = false

/-- The bitfield `peer` has a piece that `own` lacks. -/
def Wants (ans : BtInfo) (peer own : List Byte) (e : Env) : Prop :=
  0 < peerContainsUndownloadedPieces (Mem.of peer e.behindPeer) (Mem.of own e.behindOwn)
    ans.bitfieldLen

/-- The comparison finds a piece that only the peer has. -/
def Wanted (ans : BtInfo) (s : Client) (k : Nat) (e : Env) : Prop :=
  ∃ bits, (s.connections k).peerBitfield = some bits ∧ Wants ans bits s.ownBitfield e

section Passes

variable {sha1 : List Byte → Digest} {ans : BtInfo} {s s' : Client} {k : Nat} {e : Env}
  {evs : List Event}

theorem mute_nil : Mute [] := by
  intro t j msgID
  simp

theorem Silent.mute (h : Silent evs) : Mute evs := fun t j _ => h t j _

/-- What goes out goes out on an open slot. -/
theorem transmit_state {f : Connections → Connections × WireMsg} {msgID : Byte}
    (hf : ∀ c, (f c).2 = .state msgID) (h : s.transmit k k f e = .ok (s', evs)) :
    evs = [.sent k k (.state msgID)] ∧ 0 ≤ (s.fds k).fd := by
  refine ⟨by rw [(transmit_ok h).2, hf], ?_⟩
  rw [Client.transmit] at h
  split at h
  · cases h
  · omega

theorem uploadPiece_mute {p : CInt} (h : uploadPiece ans s k p e = .ok (s', evs)) : Mute evs := by
  obtain ⟨piece, s1, evs1, evs2, -, hsmash, hsend, rfl⟩ := uploadPiece_ok h
  intro t j msgID hmem
  rw [(transmit_ok hsend).2] at hmem
  rcases hsmash with ⟨-, rfl⟩ | hsmash
  · simp [sendPiece] at hmem
  · rw [(smash_ok hsmash).1] at hmem
    simp [sendPiece] at hmem

theorem requestPiece_mute (h : requestPiece ans s k e = .ok (s', evs)) : Mute evs := by
  obtain ⟨i, p, -, -, hsend⟩ := requestPiece_ok h
  intro t j msgID hmem
  rw [(transmit_ok hsend).2] at hmem
  simp [sendRequest] at hmem

/-- The state messages of the send part, and what it has checked. -/
theorem serve_says (h : serve ans s k e = .ok (s', evs)) :
    Mute evs ∨ 0 ≤ (s.fds k).fd ∧
      ((ConsidersPeer s k ∧ (s.connections k).flag .peerChoke = true ∧
        evs = [.sent k k (.state MsgID.unchoke.byte)]) ∨
      (Compares s k ∧ Wanted ans s k e ∧ (s.connections k).flag .ownInterested = false ∧
        evs = [.sent k k (.state MsgID.interested.byte)]) ∨
      (Compares s k ∧ ¬ Wanted ans s k e ∧
        evs = [.sent k k (.state MsgID.uninterested.byte)])) := by
  rw [serve] at h
  split at h
  · cases h
    exact .inl mute_nil
  · next hevents =>
    have hready : (s.fds k).revents = true := by simpa using hevents
    split at h
    · next hpeer =>
      simp only [Bool.and_eq_true, Bool.or_eq_true, Bool.not_eq_true'] at hpeer
      split at h
      · split at h
        · exact .inl (uploadPiece_mute h)
        · cases h
          exact .inl mute_nil
      · next hchoke =>
        obtain ⟨hevs, hopen⟩ := transmit_state (fun _ => rfl) h
        exact .inr ⟨hopen, .inl ⟨⟨hready, hpeer⟩, by simpa using hchoke, hevs⟩⟩
    · next hpeer =>
      split at h
      · next hpending =>
        have hcompares : Compares s k := by
          refine ⟨hready, ?_, by simpa using hpending⟩
          rintro ⟨-, hinterested, hfree⟩
          apply hpeer
          simp only [Bool.and_eq_true, Bool.or_eq_true, Bool.not_eq_true']
          exact ⟨hinterested, hfree⟩
        cases hbits : (s.connections k).peerBitfield with
        | none =>
            rw [hbits] at h
            cases h
        | some bits =>
            rw [hbits] at h
            dsimp only at h
            split at h
            · next hwanted =>
              have hwants : Wanted ans s k e := ⟨bits, hbits, hwanted⟩
              split at h
              · split at h
                · exact .inl (requestPiece_mute h)
                · cases h
                  exact .inl mute_nil
              · next hown =>
                obtain ⟨hevs, hopen⟩ := transmit_state (fun _ => rfl) h
                exact .inr ⟨hopen, .inr (.inl ⟨hcompares, hwants, by simpa using hown, hevs⟩)⟩
            · next hnothing =>
              obtain ⟨hevs, hopen⟩ := transmit_state (fun _ => rfl) h
              refine .inr ⟨hopen, .inr (.inr ⟨hcompares, ?_, hevs⟩)⟩
              rintro ⟨bits', hbits', hwanted⟩
              rw [hbits, Option.some.injEq] at hbits'
              subst hbits'
              exact hnothing hwanted
      · cases h
        exact .inl mute_nil

/-! ## What a pass receives -/

/-- The pass receives a handshake with the bitfield `bits` behind it. -/
def Greeted (ans : BtInfo) (s : Client) (r : Recv) (e : Env) (bits : List Byte) : Prop :=
  ∃ c, r = .chunk c ∧ c.bytes.length = fullHandshakeLength + ans.bitfieldMsgLength ∧
    bits = setPeerBitfield (Client.bufPtr { s with buffer := s.buffer.write 0 c.bytes } e)
      ans.bitfieldMsgLength

/-- The message received in the pass clears a flag: an `UNCHOKE`, an
`UNINTERESTED`, or a `PIECE` whose block is accepted. -/
def Clears (sha1 : List Byte → Digest) (ans : BtInfo) (s : Client) (k : Nat) (r : Recv) (e : Env) :
    Prop :=
  heardIn ans s r e = some .unchoke ∨ heardIn ans s r e = some .uninterested ∨
    (∃ p, heardIn ans s r e = some (.piece p)) ∧ AcceptedIn sha1 ans s k r e

/-- The bitfields of the peer and of the client after the pass has received
its message, where that makes no stray write: those before the pass, with
what the message carries put in. -/
inductive Bitfields (sha1 : List Byte → Digest) (ans : BtInfo) (s : Client) (k : Nat) (r : Recv)
    (e : Env) : List Byte → List Byte → Prop where
  | same {bits} : (s.connections k).peerBitfield = some bits →
      (∀ p, heardIn ans s r e ≠ some (.have p)) → heardIn ans s r e ≠ some .bitfield →
      (∀ p, heardIn ans s r e = some (.piece p) → ¬ AcceptedIn sha1 ans s k r e) →
      Bitfields sha1 ans s k r e bits s.ownBitfield
  | «have» {p bits bits'} : (s.connections k).peerBitfield = some bits →
      heardIn ans s r e = some (.have p) → setHave bits p = some bits' → s.testFreed = false →
      Bitfields sha1 ans s k r e bits' s.ownBitfield
  | bitfield {n bits} : (s.connections k).peerBitfield = some bits →
      nextIn ans s r e = some n → MsgID.ofByte n.msgID = some .bitfield →
      ans.numPieces ≤ bits.length →
      Bitfields sha1 ans s k r e
        ((((Mem.of n.message e.behindMsg).advance 5).read ans.numPieces).take bits.length
          ++ bits.drop ans.numPieces) s.ownBitfield
  | piece {p v bits} : (s.connections k).peerBitfield = some bits →
      heardIn ans s r e = some (.piece p) → AcceptedIn sha1 ans s k r e →
      e.load (clobber e.heapPtr p) = some v →
      Bitfields sha1 ans s k r e bits (setOwn s.ownBitfield v)

/-- Clearing the first eight bytes of a handshake leaves its bitfield. -/
theorem setPeerBitfield_checked (s : Client) (n : Nat) (e : Env) :
    setPeerBitfield (Client.bufPtr { s with buffer := s.buffer.write 0 (List.replicate 8 0) } e) n
      = setPeerBitfield (s.bufPtr e) n := by
  refine Mem.read_congr fun i _ => ?_
  show (if fullHandshakeLength + i < bufsiz then _ else _)
    = if fullHandshakeLength + i < bufsiz then _ else _
  congr 1
  apply Mem.write_out
  simp [fullHandshakeLength]
  omega

/-- The answer to a handshake with a bitfield is what the bitfield calls
for. -/
theorem greetWithBitfield_says {chunk : List Byte}
    (h : greetWithBitfield ans s k chunk e = .ok (s', evs)) :
    ∃ bits msgID, bits = setPeerBitfield (s.bufPtr e) ans.bitfieldMsgLength ∧
      (s'.connections k).peerBitfield = some bits ∧ s'.ownBitfield = s.ownBitfield ∧
      (msgID = MsgID.interested.byte ∧ Wants ans bits s.ownBitfield e ∨
        msgID = MsgID.uninterested.byte ∧ ¬ Wants ans bits s.ownBitfield e) ∧
      evs = [.greeted k chunk, .sent k k (.state msgID)] := by
  rw [greetWithBitfield, checkHandshake] at h
  split at h
  · cases h
  next s1 hcheck =>
  split at hcheck
  · cases hcheck
  cases hcheck
  dsimp only at h
  rw [setPeerBitfield_checked] at h
  split at h
  · cases h
  next s2 evs2 hsend =>
  cases h
  have hkeeps : ∀ f : Connections → Connections × WireMsg, (∀ c, (f c).1.peerBitfield =
      c.peerBitfield) → ∀ r : Client, (r.connections k).peerBitfield
        = some (setPeerBitfield (s.bufPtr e) ans.bitfieldMsgLength) →
      r.transmit k k f e = .ok (s2, evs2) → (s2.connections k).peerBitfield
        = some (setPeerBitfield (s.bufPtr e) ans.bitfieldMsgLength) ∧
          s2.ownBitfield = r.ownBitfield := by
    intro f hf r hbits hsend
    rw [(transmit_ok hsend).1, modifyConn_self, hf]
    exact ⟨hbits, rfl⟩
  have hstored : (Client.connections ((Client.modifyConn
      { s with buffer := s.buffer.write 0 (List.replicate 8 0) } k fun c =>
        { c with peerBitfield := some (setPeerBitfield (s.bufPtr e) ans.bitfieldMsgLength) }))
      k).peerBitfield = some (setPeerBitfield (s.bufPtr e) ans.bitfieldMsgLength) := by
    rw [modifyConn_self]
  split at hsend
  · next hoffers =>
    obtain ⟨hbits, hown⟩ := hkeeps _ (fun _ => rfl) _ hstored hsend
    refine ⟨_, _, rfl, hbits, hown, .inl ⟨rfl, hoffers⟩, ?_⟩
    rw [(transmit_state (fun _ => rfl) hsend).1]
  · next hoffers =>
    obtain ⟨hbits, hown⟩ := hkeeps _ (fun _ => rfl) _ hstored hsend
    refine ⟨_, _, rfl, hbits, hown, .inr ⟨rfl, hoffers⟩, ?_⟩
    rw [(transmit_state (fun _ => rfl) hsend).1]

/-- The receive part says something only to a handshake with a bitfield. -/
theorem receive_says {r : Recv} (h : receive sha1 ans s k r e = .ok (s', evs)) :
    (Silent evs ∧ ¬ ∃ bits, Greeted ans s r e bits) ∨
      ∃ bits chunk msgID, Greeted ans s r e bits ∧ (s'.connections k).peerBitfield = some bits ∧
        s'.ownBitfield = s.ownBitfield ∧
        (msgID = MsgID.interested.byte ∧ Wants ans bits s.ownBitfield e ∨
          msgID = MsgID.uninterested.byte ∧ ¬ Wants ans bits s.ownBitfield e) ∧
        evs = [.greeted k chunk, .sent k k (.state msgID)] := by
  cases r with
  | error =>
      cases h
      exact .inl ⟨by simp [Silent], by simp [Greeted]⟩
  | closed =>
      cases h
      exact .inl ⟨by simp [Silent], by simp [Greeted]⟩
  | chunk c =>
      rw [receive] at h
      split at h
      · next hlen =>
        obtain ⟨s1, -, -, rfl⟩ := greet_ok h
        refine .inl ⟨by simp [Silent], ?_⟩
        rintro ⟨bits, c', hc, hlen', -⟩
        cases hc
        rw [BtInfo.bitfieldMsgLength] at hlen'
        omega
      · split at h
        · next hlen =>
          obtain ⟨bits, msgID, hbits, hpeer, hown, hanswer, hevs⟩ := greetWithBitfield_says h
          exact .inr ⟨bits, _, msgID, ⟨c, rfl, hlen, hbits⟩, hpeer, hown, hanswer, hevs⟩
        · next hlen =>
          obtain ⟨n, -, evs1, rfl, hafter⟩ := receiveMsg_events h
          refine .inl ⟨?_, ?_⟩
          · intro t j m hmem
            rcases List.mem_cons.mp hmem with heq | hmem
            · cases heq
            · rcases hafter _ hmem with ⟨own, hev⟩ | ⟨p, block, written, shift, hev⟩ <;> cases hev
          · rintro ⟨bits, c', hc, hlen', -⟩
            cases hc
            exact hlen hlen'

/-- What a message clears besides its own flag: nothing, or an accepted block
clears `PENDINGREQUEST`. -/
theorem receive_clears {r : Recv} {m : Heard} (h : receive sha1 ans s k r e = .ok (s', evs))
    (hheard : heardIn ans s r e = some m) :
    ∃ chunk evs1, evs = .heard k chunk m :: evs1 ∧
      (Cleared k evs1 ↔ (∃ p, m = .piece p) ∧ AcceptedIn sha1 ans s k r e) := by
  obtain ⟨n, hnext, rfl⟩ := Option.map_eq_some_iff.mp hheard
  cases r with
  | error => cases hnext
  | closed => cases hnext
  | chunk c =>
      obtain ⟨hbranch, hmsg⟩ := receive_of_next sha1 k hnext
      -- a stray write is all that the other handlers can log
      have hstores : ∀ {s1 s2 : Client} {evs1}, StoresBits s1 s2 e evs1 → ¬ Cleared k evs1 := by
        rintro s1 s2 evs1 ⟨s3, -, -, -, ⟨-, rfl⟩ | hsmash⟩
        · simp [Cleared]
        · rw [(smash_ok hsmash).1]
          simp [Cleared, flagChange]
      have hnothing : ¬ Cleared k [] := by simp [Cleared]
      by_cases hpiece : MsgID.ofByte n.msgID = some .piece
      · rw [receive_heardPiece hnext hpiece] at h
        obtain ⟨⟨s1, evs1⟩, hstep, heq⟩ := map_ok h
        cases heq
        rw [hpiece]
        refine ⟨c.bytes, evs1, rfl, ?_⟩
        obtain ⟨-, -, hroom, expected, verified, hexpected, hverified, hcases⟩ :=
          handlePiece_cases hstep
        rcases hcases with ⟨rfl, rfl, -⟩ | ⟨rfl, written, shift, rfl, -, -⟩
        · refine iff_of_false hnothing ?_
          rintro ⟨-, c', n', expected', hc, hnext', -, hexpected', hverified'⟩
          cases hc
          obtain rfl : n = n' := Option.some.inj (hnext.symm.trans hnext')
          obtain rfl : expected = expected' := Option.some.inj (hexpected.symm.trans hexpected')
          have hverdict := hverified.symm.trans hverified'
          cases hverdict
        · refine iff_of_true ⟨_, List.mem_singleton_self _, if_pos rfl⟩ ⟨⟨_, rfl⟩, ?_⟩
          exact ⟨c, n, expected, rfl, hnext, hroom, hexpected, hverified⟩
      · have hno : ¬ ((∃ p, heardOf (MsgID.ofByte n.msgID)
            ((Mem.of n.message e.behindMsg).advance 5).readInt = .piece p) ∧
              AcceptedIn sha1 ans s k (.chunk c) e) := by
          rintro ⟨⟨p, hp⟩, -⟩
          exact hpiece (heardOf_piece hp).1
        rw [hbranch, receiveMsg, hmsg] at h
        dsimp only at h
        cases hid : MsgID.ofByte n.msgID with
        | none =>
            rw [hid] at h hno
            cases h
            exact ⟨c.bytes, [], rfl, iff_of_false hnothing hno⟩
        | some id =>
            rw [hid] at h hno
            cases id with
            | piece => exact absurd hid hpiece
            | «have» =>
                obtain ⟨⟨s1, evs1⟩, hstep, heq⟩ := map_ok h
                cases heq
                exact ⟨c.bytes, evs1, rfl, iff_of_false (hstores (handleHave_ok hstep)) hno⟩
            | bitfield =>
                obtain ⟨⟨s1, evs1⟩, hstep, heq⟩ := map_ok h
                cases heq
                exact ⟨c.bytes, evs1, rfl, iff_of_false (hstores (handleBitfield_ok hstep)) hno⟩
            | _ =>
                cases h
                exact ⟨c.bytes, [], rfl, iff_of_false hnothing hno⟩

theorem heard_wipe_iff {m : Heard} :
    m.flagChange = .wipe ↔ m = .unchoke ∨ m = .uninterested := by
  cases m <;> simp [Heard.flagChange]

/-- On an open stream the flags are cleared by the messages that say so. -/
theorem receive_cleared_iff {r : Recv} (h : receive sha1 ans s k r e = .ok (s', evs))
    (hopen : r ≠ .closed) : Cleared k evs ↔ Clears sha1 ans s k r e := by
  cases hheard : heardIn ans s r e with
  | some m =>
      obtain ⟨chunk, evs1, rfl, hrest⟩ := receive_clears h hheard
      have hfirst : Cleared k (.heard k chunk m :: evs1) ↔
          m.flagChange = .wipe ∨ Cleared k evs1 := by
        simp [Cleared, flagChange]
      rw [hfirst, heard_wipe_iff, hrest, Clears, hheard, or_assoc]
      simp only [Option.some.injEq]
  | none =>
      refine iff_of_false ?_ (by simp [Clears, hheard])
      rintro ⟨ev, hmem, hwipe⟩
      cases r with
      | error =>
          cases h
          cases hmem
      | closed => exact hopen rfl
      | chunk c =>
          rw [receive] at h
          split at h
          · obtain ⟨s1, -, -, rfl⟩ := greet_ok h
            simp only [List.mem_cons, List.not_mem_nil, or_false] at hmem
            rcases hmem with rfl | rfl <;> cases hwipe
          next hhandshake =>
          split at h
          · obtain ⟨bits, msgID, -, -, -, -, rfl⟩ := greetWithBitfield_says h
            simp only [List.mem_cons, List.not_mem_nil, or_false] at hmem
            rcases hmem with rfl | rfl
            · cases hwipe
            · rw [flagChange, if_pos rfl, sentFlagChange] at hwipe
              split at hwipe <;> cases hwipe
          next hgreeting =>
          obtain ⟨n, hnext, -⟩ := receiveMsg_events h
          rw [heardIn, nextIn, if_neg (by omega), hnext] at hheard
          cases hheard

/-- What is no `HAVE`, no `BITFIELD`, no accepted block and no handshake with
a bitfield leaves both bitfields alone. -/
theorem receive_keepsBits {r : Recv} (h : receive sha1 ans s k r e = .ok (s', evs))
    (hgreeted : ¬ ∃ bits, Greeted ans s r e bits)
    (hhave : ∀ p, heardIn ans s r e ≠ some (.have p))
    (hbitfield : heardIn ans s r e ≠ some .bitfield)
    (hpiece : ∀ p, heardIn ans s r e = some (.piece p) → ¬ AcceptedIn sha1 ans s k r e) :
    (s'.connections k).peerBitfield = (s.connections k).peerBitfield ∧
      s'.ownBitfield = s.ownBitfield := by
  have hmodify : ∀ (r : Client) (f : Connections → Connections),
      (∀ c, (f c).peerBitfield = c.peerBitfield) →
      ((r.modifyConn k f).connections k).peerBitfield = (r.connections k).peerBitfield := by
    intro r f hf
    rw [modifyConn_self, hf]
  cases r with
  | error =>
      cases h
      exact ⟨rfl, rfl⟩
  | closed =>
      cases h
      exact ⟨hmodify _ _ (peerBitfield_setFlag · _ _), rfl⟩
  | chunk c =>
      rw [receive] at h
      split at h
      · obtain ⟨s1, hcheck, rfl, -⟩ := greet_ok h
        rw [checkHandshake] at hcheck
        split at hcheck
        · cases hcheck
        · cases hcheck
          exact ⟨rfl, rfl⟩
      next hhandshake =>
      split at h
      · next hlen => exact absurd ⟨_, c, rfl, hlen, rfl⟩ hgreeted
      next hgreeting =>
      obtain ⟨n, hmsg, -⟩ := receiveMsg_events h
      have hnext : nextIn ans s (.chunk c) e = some n := by
        rw [nextIn, if_neg (by omega), hmsg]
      have hheard : heardIn ans s (.chunk c) e = some (heardOf (MsgID.ofByte n.msgID)
          ((Mem.of n.message e.behindMsg).advance 5).readInt) := by
        rw [heardIn, hnext, Option.map_some]
      rw [receiveMsg, hmsg] at h
      dsimp only at h
      cases hid : MsgID.ofByte n.msgID with
      | none =>
          rw [hid] at h
          cases h
          exact ⟨rfl, rfl⟩
      | some id =>
          rw [hid] at h hheard
          cases id with
          | «have» => exact absurd hheard (hhave _)
          | bitfield => exact absurd hheard hbitfield
          | piece =>
              obtain ⟨⟨s1, evs1⟩, hstep, heq⟩ := map_ok h
              cases heq
              obtain ⟨-, -, hroom, expected, verified, hexpected, hverified, -⟩ :=
                handlePiece_cases hstep
              cases verified with
              | true =>
                  exact absurd ⟨c, n, expected, rfl, hnext, hroom, hexpected, hverified⟩
                    (hpiece _ hheard)
              | false =>
                  rw [handlePiece_rejects hroom hexpected hverified] at hstep
                  cases hstep
                  exact ⟨rfl, rfl⟩
          | request | cancel =>
              cases h
              exact ⟨hmodify _ (fun c => { c with pieceToSend := _ }) fun _ => rfl, rfl⟩
          | _ =>
              cases h
              exact ⟨hmodify _ (setFlag · _ _) (peerBitfield_setFlag · _ _), rfl⟩

/-- The bitfields that the receive part leaves. -/
theorem receive_bitfields {r : Recv} {peer own : List Byte}
    (h : receive sha1 ans s k r e = .ok (s', evs)) (hgreeted : ¬ ∃ bits, Greeted ans s r e bits)
    (hbits : Bitfields sha1 ans s k r e peer own) :
    (s'.connections k).peerBitfield = some peer ∧ s'.ownBitfield = own := by
  have hrecord : ∀ (r : Client) (bits : List Byte),
      ((r.modifyConn k fun c => { c with peerBitfield := some bits }).connections k).peerBitfield
        = some bits := by
    intro r bits
    rw [modifyConn_self]
  cases hbits with
  | same hpeer hhave hbitfield hpiece =>
      obtain ⟨hsame, hown⟩ := receive_keepsBits h hgreeted hhave hbitfield hpiece
      exact ⟨hsame.trans hpeer, hown⟩
  | «have» hpeer hheard hset hfirst =>
      obtain ⟨c, hreceive⟩ := receive_heardHave sha1 k hheard
      rw [hreceive, handleHave] at h
      dsimp only at h
      rw [hpeer] at h
      dsimp only at h
      rw [hset] at h
      dsimp only at h
      rw [hfirst] at h
      cases h
      exact ⟨hrecord _ _, rfl⟩
  | bitfield hpeer hnext hid hfits =>
      cases r with
      | error => cases hnext
      | closed => cases hnext
      | chunk c =>
          obtain ⟨hbranch, hmsg⟩ := receive_of_next sha1 k hnext
          rw [hbranch, receiveMsg, hmsg] at h
          dsimp only at h
          rw [hid] at h
          dsimp only at h
          rw [handleBitfield] at h
          dsimp only at h
          rw [hpeer] at h
          dsimp only at h
          rw [if_neg (by omega)] at h
          cases h
          exact ⟨hrecord _ _, rfl⟩
  | piece hpeer hheard haccepted hload =>
      obtain ⟨c, n, expected, rfl, hnext, hroom, hexpected, hverify⟩ := haccepted
      obtain ⟨n', hnext', hpiece⟩ := Option.map_eq_some_iff.mp hheard
      obtain rfl : n = n' := Option.some.inj (hnext.symm.trans hnext')
      obtain ⟨hid, rfl⟩ := heardOf_piece hpiece
      rw [receive_heardPiece hnext hid] at h
      obtain ⟨⟨s1, evs1⟩, hstep, heq⟩ := map_ok h
      cases heq
      obtain ⟨-, v, hload', hown, hsame⟩ :=
        (handlePiece_writes _ hroom hexpected hverify).2 _ _ hstep
      obtain rfl := Option.some.inj (hload.symm.trans hload')
      exact ⟨hsame.trans hpeer, hown⟩

end Passes

/-! ## Runs under a condition -/

/-- The runs of the loop all of whose passes meet a condition on the log and
the state before them and on what they receive. -/
inductive RunWhere (sha1 : List Byte → Digest) (ans : BtInfo) (s₀ : Client)
    (P : List Event → Client → Recv → Env → Env → Prop) : List Event → Client → Prop where
  | start : RunWhere sha1 ans s₀ P [] s₀
  | round {log s} (poll : Poll) : RunWhere sha1 ans s₀ P log s → s.maxPeerIndex < s.i →
      RunWhere sha1 ans s₀ P log (startRound s poll)
  | turn {log s s' evs} (r : Recv) (eRecv eSend : Env) : RunWhere sha1 ans s₀ P log s →
      s.i ≤ s.maxPeerIndex → P log s r eRecv eSend →
      turn sha1 ans s r eRecv eSend = .ok (s', evs) → RunWhere sha1 ans s₀ P (log ++ evs) s'

theorem RunWhere.run {sha1 : List Byte → Digest} {ans : BtInfo} {s₀ s : Client}
    {P : List Event → Client → Recv → Env → Env → Prop} {log : List Event}
    (h : RunWhere sha1 ans s₀ P log s) : Run sha1 ans s₀ log s := by
  induction h with
  | start => exact .start
  | round poll _ hready ih => exact ih.round poll hready
  | turn r eRecv eSend _ hready _ hturn ih => exact ih.turn r eRecv eSend hready hturn

/-- The slot is ready for output, and its stream does not end in the pass. -/
def Ready (s : Client) (k : Nat) (r : Recv) : Prop :=
  (s.fds k).revents = true ∧ r ≠ .closed

/-- By the record before the pass, the POLLOUT branch does not come to the
comparison of the bitfields: a request is out, or the peer is interested and
the client is not. The peer may say so in the pass. -/
def Busy (ans : BtInfo) (s : Client) (k : Nat) (r : Recv) (e : Env) : Prop :=
  (s.connections k).flag .pendingRequest = true ∨
    ((s.connections k).flag .ownInterested = false ∧
      ((s.connections k).flag .peerInterested = true ∨ heardIn ans s r e = some .interested))

/-- What has to be received in a pass for slot `k`, and before it since a
state message was sent, for the next one to be news. `greeting`: a handshake
with a bitfield calls for the other one of `INTERESTED` and `UNINTERESTED`,
and one that offers nothing comes when the slot is busy or not ready.
`interested`: when the slot is ready again after an `INTERESTED`, no message
has cleared a flag, or the slot is busy, or nothing is wanted any more.
`uninterested`: when it is ready again after an `UNINTERESTED`, the slot is
busy or a piece is wanted. `unchoked`: when it is ready again after an
`UNCHOKE`, some message has cleared a flag, or the client's own interest
comes first. -/
structure SaysNews (sha1 : List Byte → Digest) (ans : BtInfo) (k : Nat) (log : List Event)
    (s : Client) (r : Recv) (eRecv eSend : Env) : Prop where
  greeting : ∀ bits, Greeted ans s r eRecv bits →
    (Interested k log → ¬ Wants ans bits s.ownBitfield eRecv) ∧
    (Uninterested k log → Wants ans bits s.ownBitfield eRecv) ∧
    (Ready s k r → ¬ Wants ans bits s.ownBitfield eRecv →
      Busy ans s k r eRecv ∨ Wants ans bits s.ownBitfield eSend)
  interested : (¬ ∃ bits, Greeted ans s r eRecv bits) → Interested k log → Ready s k r →
    ¬ Clears sha1 ans s k r eRecv ∧ (Uncleared k log ∨ Busy ans s k r eRecv) ∨
      ∃ peer own, Bitfields sha1 ans s k r eRecv peer own ∧ ¬ Wants ans peer own eSend
  uninterested : (¬ ∃ bits, Greeted ans s r eRecv bits) → Uninterested k log → Ready s k r →
    ¬ Clears sha1 ans s k r eRecv ∧ Busy ans s k r eRecv ∨
      ∃ peer own, Bitfields sha1 ans s k r eRecv peer own ∧ Wants ans peer own eSend
  unchoked : UnchokeSent k log → Ready s k r →
    Cleared k log ∨ Clears sha1 ans s k r eRecv ∨
      ((s.connections k).flag .ownInterested = true ∧
        (s.connections k).flag .pendingRequest = false)

/-! ## The run -/

/-- `SaysNews` in the passes for slot `k`. -/
def AllNews (sha1 : List Byte → Digest) (ans : BtInfo) (k : Nat) (log : List Event) (s : Client)
    (r : Recv) (eRecv eSend : Env) : Prop :=
  s.i = k → SaysNews sha1 ans k log s r eRecv eSend

section Logs

variable {sha1 : List Byte → Digest} {ans : BtInfo} {s₀ s s' : Client} {k : Nat}
  {eRecv eSend : Env} {log evs : List Event}

theorem reports_of_mute (h : Mute evs) {ev : Event} (hev : ev ∈ evs) : Reports k log ev := by
  refine ⟨?_, ?_, ?_⟩ <;> rintro ⟨t, rfl⟩ <;> exact absurd hev (h _ _ _)

/-- A state message is news when it is one of the three and news as that. -/
theorem reports_state {j : Nat} {msgID : Byte}
    (h : j = k → (msgID = MsgID.interested.byte ∧ ¬ Interested k log) ∨
      (msgID = MsgID.uninterested.byte ∧ ¬ Uninterested k log) ∨
      (msgID = MsgID.unchoke.byte ∧ ¬ UnchokeSent k log)) :
    Reports k log (.sent j j (.state msgID)) := by
  refine ⟨?_, ?_, ?_⟩ <;> rintro ⟨t, heq⟩ <;> cases heq <;>
    rcases h rfl with ⟨hid, hnews⟩ | ⟨hid, hnews⟩ | ⟨hid, hnews⟩ <;>
    first | exact hnews | exact absurd hid (by decide)

/-- Events that are none of the two messages leave what was said last. -/
theorem since_sent_mute {m m' : Byte} (hmute : Mute evs) :
    Since (SentOn k (.state m)) (SentOn k (.state m')) (log ++ evs) ↔
      Since (SentOn k (.state m)) (SentOn k (.state m')) log := by
  induction evs using List.reverseRecOn with
  | nil => rw [List.append_nil]
  | append_singleton evs ev ih =>
      have hev : ∀ id, ¬ SentOn k (.state id) ev := by
        rintro id ⟨t, rfl⟩
        exact hmute t k id (by simp)
      rw [← List.append_assoc, since_concat, ih fun t j id hmem => hmute t j id (by simp [hmem])]
      simp [hev]

/-- The answer to a handshake is what was said last. -/
theorem not_since_answer {chunk : List Byte} {m m' : Byte} (hne : m ≠ m') :
    ¬ Since (SentOn k (.state m)) (SentOn k (.state m'))
      (log ++ [.greeted k chunk, .sent k k (.state m')]) := by
  rw [List.append_cons, since_concat]
  rintro (⟨turn, heq⟩ | ⟨-, hnot⟩)
  · cases heq
    exact hne rfl
  · exact hnot ⟨k, rfl⟩

theorem unchokeSent_mute (hmute : Mute evs) : UnchokeSent k (log ++ evs) ↔ UnchokeSent k log := by
  constructor
  · rintro ⟨ev, hmem, t, rfl⟩
    rcases List.mem_append.mp hmem with hmem | hmem
    · exact ⟨_, hmem, t, rfl⟩
    · exact absurd hmem (hmute _ _ _)
  · rintro ⟨ev, hmem, hsent⟩
    exact ⟨ev, List.mem_append_left _ hmem, hsent⟩

/-- What the receive part says is news. -/
theorem receive_reports {r : Recv} (h : receive sha1 ans s s.i r eRecv = .ok (s', evs))
    (hnews : AllNews sha1 ans k log s r eRecv eSend) :
    ∀ pre ev, pre ++ [ev] <+: evs → Reports k (log ++ pre) ev := by
  rcases receive_says h with ⟨hsilent, -⟩ | ⟨bits, chunk, msgID, hgreeted, -, -, hanswer, rfl⟩
  · intro pre ev hpre
    exact reports_of_mute hsilent.mute (hpre.subset (by simp))
  · simp only [forall_prefix_cons, forall_prefix_nil, and_true]
    refine ⟨?_, reports_state ?_⟩
    · refine ⟨?_, ?_, ?_⟩ <;> rintro ⟨t, heq⟩ <;> cases heq
    · intro hk
      obtain ⟨hinterested, huninterested, -⟩ := (hnews hk).greeting bits hgreeted
      have hchunk : Mute [.greeted s.i chunk] := by simp [Mute]
      rw [Interested, Uninterested, since_sent_mute hchunk, since_sent_mute hchunk]
      rcases hanswer with ⟨hid, hoffers⟩ | ⟨hid, hoffers⟩
      · exact .inl ⟨hid, fun hlast => hinterested hlast hoffers⟩
      · exact .inr (.inl ⟨hid, fun hlast => hoffers (huninterested hlast)⟩)

/-- The flags that the receive part leaves on an open stream, where nothing
is cleared. -/
theorem receive_raises {r : Recv} (h : receive sha1 ans s k r eRecv = .ok (s', evs))
    (hopen : r ≠ .closed) (hclears : ¬ Clears sha1 ans s k r eRecv) (f : Flag) :
    (s'.connections k).flag f = true ↔
      (s.connections k).flag f = true ∨ ∃ ev ∈ evs, flagChange k ev = .raise f := by
  have hview := (receive_traced h).2
  have hkeep := mt (receive_cleared_iff h hopen).mp hclears
  have hflag := flag_after ans s.view hkeep f
  rw [← hview] at hflag
  exact hflag

/-- A busy slot does not come to the comparison, unless `INTERESTED` was said
to a handshake. -/
theorem busy_compares {r : Recv} (h : receive sha1 ans s k r eRecv = .ok (s', evs))
    (hopen : r ≠ .closed) (hclears : ¬ Clears sha1 ans s k r eRecv)
    (hbusy : Busy ans s k r eRecv)
    (hsilent : ∀ turn, .sent turn k (.state MsgID.interested.byte) ∉ evs) : ¬ Compares s' k := by
  rintro ⟨hready, hpeer, hpending⟩
  rcases hbusy with hrequest | ⟨hown, hinterested⟩
  · rw [(receive_raises h hopen hclears _).mpr (.inl hrequest)] at hpending
    cases hpending
  · apply hpeer
    refine ⟨hready, (receive_raises h hopen hclears _).mpr ?_, .inl ?_⟩
    · rcases hinterested with hset | hheard
      · exact .inl hset
      · obtain ⟨chunk, evs1, rfl, -⟩ := receive_clears h hheard
        exact .inr ⟨_, List.mem_cons_self, if_pos rfl⟩
    · rw [← Bool.not_eq_true, receive_raises h hopen hclears, hown]
      rintro (hset | ⟨ev, hmem, hraise⟩)
      · cases hset
      · obtain ⟨turn, rfl⟩ := (raise_cases hraise).2.2.2.1 rfl
        exact hsilent turn hmem

/-- After an `UNCHOKE` the send part does not turn to the peer with
`PEERCHOKE` set. -/
theorem unchoke_news {r : Recv} (hrun : Run sha1 ans s₀ log s)
    (h : receive sha1 ans s k r eRecv = .ok (s', evs)) (hready : Ready s k r)
    (hnews : SaysNews sha1 ans k log s r eRecv eSend) (hpeer : ConsidersPeer s' k)
    (hchoke : (s'.connections k).flag .peerChoke = true) : ¬ UnchokeSent k (log ++ evs) := by
  intro hsent
  have hclear : ¬ Cleared k (log ++ evs) := by
    intro hcleared
    have hflag := peerChoke_after ans s₀.view hcleared
    rw [← ((run_traced hrun).append (receive_traced h)).2] at hflag
    rw [show (s'.connections k).flag .peerChoke = false from hflag] at hchoke
    cases hchoke
  have hclears : ¬ Clears sha1 ans s k r eRecv := by
    intro hclears
    obtain ⟨ev, hmem, hwipe⟩ := (receive_cleared_iff h hready.2).mpr hclears
    exact hclear ⟨ev, List.mem_append_right _ hmem, hwipe⟩
  -- the receive part sends neither an `UNCHOKE` nor a request
  have hbefore : UnchokeSent k log ∧ ∀ ev ∈ evs, flagChange k ev ≠ .raise .pendingRequest := by
    rcases receive_says h with ⟨hsilent, -⟩ | ⟨bits, chunk, msgID, -, -, -, hanswer, rfl⟩
    · refine ⟨(unchokeSent_mute hsilent.mute).mp hsent, ?_⟩
      intro ev hmem hraise
      obtain ⟨m, turn, rfl⟩ := (raise_cases hraise).2.2.2.2 rfl
      exact hsilent _ _ _ hmem
    · have hid : msgID ≠ MsgID.unchoke.byte := by
        rcases hanswer with ⟨rfl, -⟩ | ⟨rfl, -⟩ <;> decide
      refine ⟨?_, ?_⟩
      · obtain ⟨ev, hmem, turn, rfl⟩ := hsent
        rcases List.mem_append.mp hmem with hmem | hmem
        · exact ⟨_, hmem, turn, rfl⟩
        · simp at hmem
          exact absurd hmem.2.symm hid
      · intro ev hmem hraise
        simp only [List.mem_cons, List.not_mem_nil, or_false] at hmem
        rcases hmem with rfl | rfl
        · cases hraise
        · rw [flagChange, if_pos rfl, sentFlagChange] at hraise
          split at hraise <;> cases hraise
  rcases hnews.unchoked hbefore.1 hready with hcleared | hcleared | ⟨hown, hpending⟩
  · obtain ⟨ev, hmem, hwipe⟩ := hcleared
    exact hclear ⟨ev, List.mem_append_left _ hmem, hwipe⟩
  · exact hclears hcleared
  · have hraises := receive_raises h hready.2 hclears
    rcases hpeer.2.2 with hnot | hset
    · rw [(hraises _).mpr (.inl hown)] at hnot
      cases hnot
    · rcases (hraises _).mp hset with hset | ⟨ev, hmem, hraise⟩
      · rw [hpending] at hset
        cases hset
      · exact hbefore.2 ev hmem hraise

/-- After an `INTERESTED` the send part does not find `OWNINTERESTED` clear and
a piece wanted. -/
theorem interested_news {r : Recv} (hrun : Run sha1 ans s₀ log s)
    (h : receive sha1 ans s k r eRecv = .ok (s', evs)) (hready : Ready s k r)
    (hnews : SaysNews sha1 ans k log s r eRecv eSend) (hcompares : Compares s' k)
    (hwanted : Wanted ans s' k eSend) (hown : (s'.connections k).flag .ownInterested = false) :
    ¬ Interested k (log ++ evs) := by
  intro hlast
  rcases receive_says h with ⟨hsilent, hgreeted⟩ | ⟨bits, chunk, msgID, -, -, -, hanswer, rfl⟩
  · have hbefore : Interested k log := (since_sent_mute hsilent.mute).mp hlast
    rcases hnews.interested hgreeted hbefore hready with
      ⟨hclears, huncleared | hbusy⟩ | ⟨peer, own, hbits, hnothing⟩
    · have hset := ownInterested_after ans s₀.view huncleared
      rw [← (run_traced hrun).2] at hset
      rw [(receive_raises h hready.2 hclears _).mpr (.inl hset)] at hown
      cases hown
    · exact busy_compares h hready.2 hclears hbusy (fun turn => hsilent _ _ _) hcompares
    · obtain ⟨hpeer, rfl⟩ := receive_bitfields h hgreeted hbits
      obtain ⟨bits, hbits, hwants⟩ := hwanted
      obtain rfl := Option.some.inj (hpeer.symm.trans hbits)
      exact hnothing hwants
  · rcases hanswer with ⟨rfl, -⟩ | ⟨rfl, -⟩
    · -- the answer itself raised the flag
      have hset : Uncleared k [.greeted k chunk, .sent k k (.state MsgID.interested.byte)] :=
        ⟨[.greeted k chunk], _, [], rfl, ⟨k, rfl⟩, by simp⟩
      have hflag := ownInterested_after ans s.view hset
      rw [← (receive_traced h).2] at hflag
      rw [show (s'.connections k).flag .ownInterested = true from hflag] at hown
      cases hown
    · exact not_since_answer (by decide) hlast

/-- After an `UNINTERESTED` the comparison finds a piece. -/
theorem uninterested_news {r : Recv} (h : receive sha1 ans s k r eRecv = .ok (s', evs))
    (hready : Ready s k r) (hnews : SaysNews sha1 ans k log s r eRecv eSend)
    (hcompares : Compares s' k) (hwanted : ¬ Wanted ans s' k eSend) :
    ¬ Uninterested k (log ++ evs) := by
  intro hlast
  rcases receive_says h with
    ⟨hsilent, hgreeted⟩ | ⟨bits, chunk, msgID, hgreeted, hpeer, hown, hanswer, rfl⟩
  · have hbefore : Uninterested k log := (since_sent_mute hsilent.mute).mp hlast
    rcases hnews.uninterested hgreeted hbefore hready with
      ⟨hclears, hbusy⟩ | ⟨peer, own, hbits, hwants⟩
    · exact busy_compares h hready.2 hclears hbusy (fun turn => hsilent _ _ _) hcompares
    · obtain ⟨hpeer, rfl⟩ := receive_bitfields h hgreeted hbits
      exact hwanted ⟨peer, hpeer, hwants⟩
  · rcases hanswer with ⟨rfl, -⟩ | ⟨rfl, hnothing⟩
    · exact not_since_answer (by decide) hlast
    · rcases (hnews.greeting bits hgreeted).2.2 hready hnothing with hbusy | hwants
      · have hclears : ¬ Clears sha1 ans s k r eRecv := by
          rw [← receive_cleared_iff h hready.2]
          simp [Cleared, flagChange, sentFlagChange]
          decide
        refine busy_compares h hready.2 hclears hbusy ?_ hcompares
        simp
        decide
      · exact hwanted ⟨bits, hpeer, by rwa [hown]⟩

/-- What the send part says is news. -/
theorem serve_reports {r : Recv} {s1 : Client} {evs1 : List Event}
    (hrun : Run sha1 ans s₀ log s) (h : receive sha1 ans s s.i r eRecv = .ok (s1, evs1))
    (hserve : serve ans s1 s.i eSend = .ok (s', evs))
    (hnews : AllNews sha1 ans k log s r eRecv eSend) :
    ∀ pre ev, pre ++ [ev] <+: evs → Reports k (log ++ evs1 ++ pre) ev := by
  rcases serve_says hserve with hmute | ⟨hfd, hsays⟩
  · intro pre ev hpre
    exact reports_of_mute hmute (hpre.subset (by simp))
  have hopen : r ≠ .closed := by
    rintro rfl
    cases h
    have hclosed : ¬ 0 ≤ (if s.i = s.i then { s.fds s.i with fd := -1 } else s.fds s.i).fd := by
      rw [if_pos rfl]
      exact Int.not_le.mpr (Int.negSucc_lt_zero 0)
    exact hclosed hfd
  have hready : (s1.fds s.i).revents = true → Ready s s.i r := by
    intro hrevents
    have hwatch := congrArg Prod.snd (congrFun (receive_watch h) s.i)
    exact ⟨hwatch.symm.trans hrevents, hopen⟩
  rcases hsays with ⟨hpeer, hchoke, rfl⟩ | ⟨hcompares, hwanted, hown, rfl⟩ |
    ⟨hcompares, hwanted, rfl⟩
  all_goals
    simp only [forall_prefix_cons, forall_prefix_nil, and_true, List.append_nil]
    refine reports_state ?_
    rintro rfl
  · exact .inr (.inr ⟨rfl, unchoke_news hrun h (hready hpeer.1) (hnews rfl) hpeer hchoke⟩)
  · exact .inl ⟨rfl,
      interested_news hrun h (hready hcompares.1) (hnews rfl) hcompares hwanted hown⟩
  · exact .inr (.inl ⟨rfl,
      uninterested_news h (hready hcompares.1) (hnews rfl) hcompares hwanted⟩)

/-- A pass says only what is news. -/
theorem turn_reports {r : Recv} (hrun : Run sha1 ans s₀ log s)
    (h : turn sha1 ans s r eRecv eSend = .ok (s', evs))
    (hnews : AllNews sha1 ans k log s r eRecv eSend) :
    ∀ pre ev, pre ++ [ev] <+: evs → Reports k (log ++ pre) ev := by
  rw [turn] at h
  split at h
  · cases h
  · split at h
    · cases h
      simp
    · cases hreceive : receive sha1 ans s s.i r eRecv with
      | error stop =>
          rw [hreceive] at h
          cases h
      | ok result =>
          obtain ⟨s1, evs1⟩ := result
          rw [hreceive] at h
          dsimp only at h
          split at h
          · cases h
          · next s2 evs2 hserve =>
            cases h
            refine forall_prefix_append.mpr ⟨receive_reports hreceive hnews, ?_⟩
            intro pre ev hpre
            rw [← List.append_assoc]
            exact serve_reports hrun hreceive hserve hnews pre ev hpre

end Logs

end DubstepDucks.Torrent
