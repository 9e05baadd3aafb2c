import DubstepDucks.History.Log
import DubstepDucks.Torrent.Client

/-!
# Torrent — the main loop as an event machine

What a run does to the connection records and to the own bitfield, said
once. A `View` is the part of every record that lies on the stack (the
bitfield behind the pointer is left out) and the own bitfield, `effect` is
what an event does to it, and `guard` is what the loop has checked when it
logs the event. `run_traced` is the refinement: the log of every run of the
loop is admitted by the machine, and replaying it gives the view the run
ends with. The properties of the protocol follow from the machine alone.
-/

namespace DubstepDucks.Torrent

open CMem Btp History

/-- The record without the bitfield it points to. -/
def stackPart (c : Connections) : Connections := { c with peerBitfield := none }

abbrev Records := Nat → Connections

def Records.modify (recs : Records) (k : Nat) (f : Connections → Connections) : Records :=
  fun j => if j = k then f (recs j) else recs j

/-- What the events of a run are about. -/
structure View where
  records : Records
  own : List Byte

def View.modify (v : View) (k : Nat) (f : Connections → Connections) : View :=
  { v with records := v.records.modify k f }

def Client.view (s : Client) : View := ⟨fun k => stackPart (s.connections k), s.ownBitfield⟩

/-- What handling a message does to the record. -/
def Heard.effect : Heard → Connections → Connections
  | .choke, c => setFlag c .ownChoke 1
  | .unchoke, c => setFlag c .ownChoke 0
  | .interested, c => setFlag c .peerInterested 1
  | .uninterested, c => setFlag c .peerInterested 0
  | .request p, c => { c with pieceToSend := p }
  | .cancel, c => { c with pieceToSend := -1 }
  | .have _, c | .bitfield, c | .piece _, c | .other, c => c

/-- What sending a message does to the record. -/
def sentEffect : WireMsg → Connections → Connections
  | .state msgID, c =>
      if msgID = MsgID.interested.byte then (sendInterested c).1
      else if msgID = MsgID.uninterested.byte then (sendUninterested c).1
      else (sendUnchoked c).1
  | .request p _ _, c => markRequested c p
  | .piece p _ _ _, c => markRequested c p
  | .have _, c | .bitfield _ _, c | .cancel _ _ _, c => c

def effect (v : View) : Event → View
  | .heard k _ m => v.modify k m.effect
  | .dropped k => v.modify k (setFlag · .connectionStatus 0)
  | .stored k _ _ _ shift =>
      { v.modify k (setFlag · .pendingRequest 0) with own := setOwn v.own shift }
  | .sent _ k m => v.modify k (sentEffect m)
  | .smashed own => { v with own := own }
  | .greeted _ _ | .introduced _ _ => v

/-- The message switch reads a documented message for what it is. -/
def Heard.of : WireMsg → Heard
  | .state msgID =>
      if msgID = MsgID.choke.byte then .choke
      else if msgID = MsgID.unchoke.byte then .unchoke
      else if msgID = MsgID.interested.byte then .interested
      else .uninterested
  | .have p => .have p
  | .bitfield _ _ => .bitfield
  | .request p _ _ => .request p
  | .piece p _ _ _ => .piece p
  | .cancel _ _ _ => .cancel

/-- What the loop has checked when it sends a message: the flags of the slot
whose turn it is, and that only a request can go to another slot. -/
def SendGuard (recs : Records) (turn k : Nat) : WireMsg → Prop
  | .state msgID =>
      k = turn ∧ (msgID = MsgID.interested.byte ∨ msgID = MsgID.uninterested.byte ∨
        (msgID = MsgID.unchoke.byte ∧ (recs k).flags .peerInterested = true ∧
          (recs k).flags .peerChoke = true))
  | .request _ _ _ =>
      (recs turn).flags .pendingRequest = false ∧ (recs turn).flags .ownInterested = true ∧
        (recs turn).flags .ownChoke = false
  | .piece p _ _ _ =>
      k = turn ∧ (recs k).flags .peerInterested = true ∧ (recs k).flags .peerChoke = false ∧
        p = (recs k).pieceToSend ∧ 0 ≤ p.toInt
  | .have _ | .bitfield _ _ | .cancel _ _ _ => False

def guard (ans : BtInfo) (v : View) : Event → Prop
  | .heard _ chunk m => ∀ w : WireMsg, w.Documented → chunk = w.bytes → m = Heard.of w
  | .greeted _ chunk =>
      chunk.length = fullHandshakeLength ∨
        chunk.length = fullHandshakeLength + ans.bitfieldMsgLength
  | .stored _ _ block written _ =>
      block.length = ans.pieceLength ∧ written = (newlined block).take written.length
  | .sent turn k m => SendGuard v.records turn k m
  | .dropped _ | .smashed _ | .introduced _ _ => True

/-- The main loop as a machine on views. -/
def machine (ans : BtInfo) : Machine View Event := ⟨effect, guard ans⟩

/-- From `s` to `s'` the loop did what the machine admits as `evs`. -/
def Traced (ans : BtInfo) (s s' : Client) (evs : List Event) : Prop :=
  (machine ans).Admits s.view evs ∧ s'.view = (machine ans).after s.view evs

section Steps

variable {ans : BtInfo} {s s' s'' : Client} {evs evs' : List Event} {e : Env} {k turn : Nat}

/-! ## Composing stretches of a log -/

theorem Traced.silent (h : s'.view = s.view) : Traced ans s s' [] :=
  ⟨Machine.admits_nil _, h⟩

theorem Traced.single {ev : Event} (hguard : guard ans s.view ev)
    (h : s'.view = effect s.view ev) : Traced ans s s' [ev] :=
  ⟨Machine.admits_singleton.mpr hguard, h⟩

theorem Traced.append (h : Traced ans s s' evs) (h' : Traced ans s' s'' evs') :
    Traced ans s s'' (evs ++ evs') := by
  refine ⟨Machine.admits_append.mpr ⟨h.1, ?_⟩, ?_⟩
  · rw [← h.2]
    exact h'.1
  · rw [Machine.after_append, ← h.2]
    exact h'.2

theorem Traced.cons {ev : Event} (h : Traced ans s s' [ev]) (h' : Traced ans s' s'' evs) :
    Traced ans s s'' (ev :: evs) := h.append h'

/-- Only the views matter for where a stretch starts and ends. -/
theorem Traced.congr {r r' : Client} (h : Traced ans s s' evs) (hs : r.view = s.view)
    (hs' : r'.view = s'.view) : Traced ans r r' evs := by
  refine ⟨?_, ?_⟩
  · rw [hs]
    exact h.1
  · rw [hs, hs']
    exact h.2

/-! ## The steps -/

theorem view_modifyConn {f g : Connections → Connections}
    (h : ∀ c, stackPart (f c) = g (stackPart c)) :
    (s.modifyConn k f).view = s.view.modify k g := by
  have hrecords : (s.modifyConn k f).view.records = (s.view.modify k g).records := by
    funext j
    by_cases hj : j = k
    · simp [Client.view, Client.modifyConn, View.modify, Records.modify, hj, h]
    · simp [Client.view, Client.modifyConn, View.modify, Records.modify, hj]
  exact congrArg (View.mk · s.ownBitfield) hrecords

theorem view_modify_id (v : View) (k : Nat) : v.modify k id = v := by
  have hrecords : (v.modify k id).records = v.records := by
    funext j
    simp [View.modify, Records.modify]
  exact congrArg (View.mk · v.own) hrecords

/-- A step that changes one record as its event says. -/
theorem Traced.modify {ev : Event} {f g : Connections → Connections}
    (hguard : guard ans s.view ev) (heffect : effect s.view ev = s.view.modify k g)
    (hf : ∀ c, stackPart (f c) = g (stackPart c)) : Traced ans s (s.modifyConn k f) [ev] := by
  apply Traced.single hguard
  rw [heffect]
  exact view_modifyConn hf

theorem stackPart_setFlag (c : Connections) (f : Flag) (state : Int) :
    stackPart (setFlag c f state) = setFlag (stackPart c) f state := by
  unfold setFlag
  split
  · rfl
  · split <;> rfl

/-- Changing the bitfield of a record changes nothing on the stack. -/
theorem view_modifyConn_heap {f : Connections → Connections}
    (h : ∀ c, stackPart (f c) = stackPart c) : (s.modifyConn k f).view = s.view := by
  rw [view_modifyConn (g := id) h, view_modify_id]

/-- A stray write that is survived is logged, and reaches the bitfields
only. -/
theorem smash_ok (h : s.smash e = .ok (s', evs)) :
    evs = [.smashed s'.ownBitfield] ∧ s'.view.records = s.view.records ∧ s'.fds = s.fds ∧
      s'.maxPeerIndex = s.maxPeerIndex ∧ s'.i = s.i := by
  rw [Client.smash] at h
  split at h
  · cases h
  · cases h
    exact ⟨rfl, rfl, rfl, rfl, rfl⟩

theorem smash_traced (h : s.smash e = .ok (s', evs)) : Traced ans s s' evs := by
  obtain ⟨rfl, hrecords, -⟩ := smash_ok h
  refine .single trivial ?_
  show View.mk s'.view.records s'.ownBitfield = _
  rw [hrecords]
  rfl

/-- What a `Send_*` function that returns did. -/
theorem transmit_ok {f : Connections → Connections × WireMsg}
    (h : s.transmit turn k f e = .ok (s', evs)) :
    s' = s.modifyConn k (fun c => (f c).1) ∧ evs = [.sent turn k (f (s.connections k)).2] := by
  rw [Client.transmit] at h
  split at h
  · cases h
  · cases h
    exact ⟨rfl, rfl⟩

theorem transmit_traced {f : Connections → Connections × WireMsg}
    (hf : ∀ c, stackPart (f c).1 = sentEffect (f (s.connections k)).2 (stackPart c))
    (hguard : SendGuard s.view.records turn k (f (s.connections k)).2)
    (h : s.transmit turn k f e = .ok (s', evs)) : Traced ans s s' evs := by
  obtain ⟨rfl, rfl⟩ := transmit_ok h
  exact .single hguard (view_modifyConn hf)

theorem checkHandshake_ok (h : checkHandshake s e = .ok s') :
    s'.view = s.view ∧ s'.fds = s.fds ∧ s'.maxPeerIndex = s.maxPeerIndex := by
  rw [checkHandshake] at h
  split at h
  · cases h
  · cases h
    exact ⟨rfl, rfl, rfl⟩

/-- What an answered handshake did: the check passed, and handshake and
bitfield went out. -/
theorem greet_ok {chunk : List Byte} (h : greet ans s k chunk e = .ok (s', evs)) :
    ∃ s1, checkHandshake s e = .ok s1 ∧ s' = s1.clearBuffer ∧
      evs = [.greeted k chunk, .introduced k (ownHandshake ++
        (Mem.of (constructBitfieldMessage s1.ownBitfield (BitVec.ofNat 32 (ans.numPieces / 8)))
          e.behindIntro).read ans.bitfieldMsgLength)] := by
  rw [greet] at h
  split at h
  · cases h
  · next s1 hcheck =>
    dsimp only at h
    split at h
    · cases h
    · cases h
      exact ⟨s1, hcheck, rfl, rfl⟩

theorem greet_traced {chunk : List Byte} (hlen : chunk.length = fullHandshakeLength)
    (h : greet ans s k chunk e = .ok (s', evs)) : Traced ans s s' evs := by
  obtain ⟨s1, hcheck, rfl, rfl⟩ := greet_ok h
  exact .cons (.single (.inl hlen) (checkHandshake_ok hcheck).1) (.single trivial rfl)

/-- What a handshake with a bitfield behind it did: the check passed, the
bitfield was stored, and one of two messages went out. -/
theorem greetWithBitfield_ok {chunk : List Byte}
    (h : greetWithBitfield ans s k chunk e = .ok (s', evs)) :
    ∃ s1 s2 evs2 bits f, checkHandshake s e = .ok s1 ∧
      (f = sendInterested ∨ f = sendUninterested) ∧
      (s1.modifyConn k fun c => { c with peerBitfield := some bits }).transmit k k f e
        = .ok (s2, evs2) ∧
      s' = s2.clearBuffer ∧ evs = .greeted k chunk :: evs2 := by
  rw [greetWithBitfield] at h
  split at h
  · cases h
  · next s1 hcheck =>
    dsimp only at h
    split at h
    · cases h
    · next s2 evs2 hsend =>
      cases h
      refine ⟨s1, s2, evs2, _, _, hcheck, ?_, hsend, rfl, rfl⟩
      split
      · exact .inl rfl
      · exact .inr rfl

theorem greetWithBitfield_traced {chunk : List Byte}
    (hlen : chunk.length = fullHandshakeLength + ans.bitfieldMsgLength)
    (h : greetWithBitfield ans s k chunk e = .ok (s', evs)) : Traced ans s s' evs := by
  obtain ⟨s1, s2, evs2, bits, f, hcheck, hf, hsend, rfl, rfl⟩ := greetWithBitfield_ok h
  have hgreeted : Traced ans s s1 [.greeted k chunk] :=
    .single (.inr hlen) (checkHandshake_ok hcheck).1
  refine .cons hgreeted ?_
  -- which of the two messages goes out does not matter here
  refine Traced.congr (transmit_traced ?_ ?_ hsend) ?_ rfl
  · intro c
    rcases hf with rfl | rfl <;> rfl
  · rcases hf with rfl | rfl
    · exact ⟨rfl, .inl rfl⟩
    · exact ⟨rfl, .inr (.inl rfl)⟩
  · symm
    exact view_modifyConn_heap fun _ => rfl

/-- What storing a peer's bits does: at most a heap block changes, or more
memory behind it is overwritten. -/
def StoresBits (s s' : Client) (e : Env) (evs : List Event) : Prop :=
  ∃ s1, s1.view = s.view ∧ s1.fds = s.fds ∧ s1.maxPeerIndex = s.maxPeerIndex ∧
    ((s' = s1 ∧ evs = []) ∨ s1.smash e = .ok (s', evs))

theorem StoresBits.traced (h : StoresBits s s' e evs) : Traced ans s s' evs := by
  obtain ⟨s1, hview, -, -, ⟨rfl, rfl⟩ | hsmash⟩ := h
  · exact .silent hview
  · exact (smash_traced hsmash).congr hview.symm rfl

theorem handleHave_ok {p : CInt} (h : handleHave s k p e = .ok (s', evs)) :
    StoresBits s s' e evs := by
  rw [handleHave] at h
  split at h
  · cases h
  · split at h
    · exact ⟨{ s with testFreed := true }, rfl, rfl, rfl, .inr h⟩
    · next bits _ =>
      have hrec : (s.modifyConn k fun c => { c with peerBitfield := some bits }).view
          = s.view := view_modifyConn_heap fun _ => rfl
      dsimp only at h
      split at h
      · exact ⟨_, hrec, rfl, rfl, .inr h⟩
      · refine ⟨s', ?_, ?_, ?_, .inl ⟨rfl, ?_⟩⟩ <;> cases h
        · exact hrec
        · rfl
        · rfl
        · rfl

theorem handleBitfield_ok {msg : Mem} (h : handleBitfield ans s k msg e = .ok (s', evs)) :
    StoresBits s s' e evs := by
  rw [handleBitfield] at h
  split at h
  · cases h
  · next bits _ =>
    have hrec : (s.modifyConn k fun c => { c with
        peerBitfield := some (((msg.advance 5).read ans.numPieces).take bits.length
          ++ bits.drop ans.numPieces) }).view = s.view :=
      view_modifyConn_heap fun _ => rfl
    dsimp only at h
    split at h
    · exact ⟨_, hrec, rfl, rfl, .inr h⟩
    · cases h
      exact ⟨_, hrec, rfl, rfl, .inl ⟨rfl, rfl⟩⟩

/-- A block copied to the start of the buffer reads back. -/
theorem read_write_block (m : Mem) {block : List Byte} {n : Nat} (h : block.length = n) :
    (m.write 0 block).read n = block := by
  rw [← h, Mem.write_zero, Mem.read_of_length]

theorem length_pieceBlock (ans : BtInfo) (msg : Mem) :
    (pieceBlock ans msg).length = ans.pieceLength :=
  Mem.length_read _ _

theorem toNat_pieceSizeBytes (ans : BtInfo) : ans.pieceSizeBytes.toNat = ans.pieceLength :=
  toNat_ofNat ans.pieceLength_lt

/-- Narrowing the clobbered pointer to an int gives the copied index. -/
theorem setWidth_clobber (ptr : BitVec 64) (x : CInt) : (clobber ptr x).setWidth 32 = x := by
  apply BitVec.eq_of_getLsbD_eq
  intro i hi
  rw [clobber, BitVec.getLsbD_setWidth, BitVec.getLsbD_append]
  simp [hi]

/-- What a returning `case(PIECE)` did: the block is in the buffer, and
either the check answered "not verified" and nothing else happened, or the
block was stored. -/
theorem handlePiece_cases {sha1 : List Byte → Digest} {msg : Mem}
    (h : handlePiece sha1 ans s k msg e = .ok (s', evs)) :
    s'.fds = s.fds ∧ s'.maxPeerIndex = s.maxPeerIndex ∧
    ans.pieceLength ≤ e.room ∧ ∃ expected verified, ans.hashAt (k * 20) e = some expected ∧
      verifyPiece sha1 e.stack (pieceBuffer ans s msg e) expected e.thirdArg = some verified ∧
      ((verified = false ∧ evs = [] ∧ s'.view = s.view) ∨
        (verified = true ∧ ∃ written shift,
          evs = [.stored k (msg.advance 5).readInt (pieceBlock ans msg) written shift] ∧
          written = (newlined (pieceBlock ans msg)).take written.length ∧
          s'.view = { s.view.modify k (setFlag · .pendingRequest 0) with
            own := setOwn s.ownBitfield shift })) := by
  rw [handlePiece] at h
  dsimp only at h
  split at h
  · cases h
  · next hlen =>
    split at h
    · cases h
    · next expected hexpected =>
      split at h
      · cases h
      · next hverify =>
        cases h
        exact ⟨rfl, rfl, Nat.not_lt.mp hlen, expected, false, hexpected, hverify,
          .inl ⟨rfl, rfl, rfl⟩⟩
      · next hverify =>
        split at h
        · cases h
        · next w hwrite =>
          split at h
          · cases h
          · next v _ =>
            cases h
            refine ⟨rfl, rfl, Nat.not_lt.mp hlen, expected, true, hexpected, hverify,
              .inr ⟨rfl, ?_⟩⟩
            refine ⟨w.bytes, v, by rw [setWidth_clobber], ?_, ?_⟩
            · have hbytes := writePiece_bytes hwrite
              rw [toNat_pieceSizeBytes, pieceBuffer,
                read_write_block (s.bufPtr e) (length_pieceBlock ans msg)] at hbytes
              rw [hbytes, List.length_take, ← List.take_eq_take_min]
            · exact view_modifyConn (g := (setFlag · .pendingRequest 0))
                fun c => stackPart_setFlag c _ _

theorem handlePiece_traced {sha1 : List Byte → Digest} {msg : Mem}
    (h : handlePiece sha1 ans s k msg e = .ok (s', evs)) : Traced ans s s' evs := by
  obtain ⟨-, -, -, expected, verified, -, -, hcases⟩ := handlePiece_cases h
  rcases hcases with ⟨-, rfl, hview⟩ | ⟨-, written, shift, rfl, hwritten, hview⟩
  · exact .silent hview
  · exact .single ⟨length_pieceBlock ans msg, hwritten⟩ hview

/-- What the switch takes a message with this ID and first int for. -/
def heardOf (msgID : Option MsgID) (index : CInt) : Heard :=
  match msgID with
  | some .choke => .choke
  | some .unchoke => .unchoke
  | some .interested => .interested
  | some .uninterested => .uninterested
  | some .have => .have index
  | some .bitfield => .bitfield
  | some .request => .request index
  | some .piece => .piece index
  | some .cancel => .cancel
  | none => .other

theorem heardOf_bytes {w : WireMsg} (h : w.Documented) (behind : Mem) :
    heardOf (MsgID.ofByte w.id) ((Mem.of w.bytes behind).advance 5).readInt = Heard.of w := by
  cases w with
  | state msgID => rcases h with rfl | rfl | rfl | rfl <;> rfl
  | «have» p =>
      have hindex := readInt_payload 5 p MsgID.have.byte [] behind
      rw [List.append_nil] at hindex
      exact congrArg Heard.have hindex
  | bitfield bits n => rfl
  | request p o n =>
      show Heard.request _ = Heard.request p
      rw [WireMsg.bytes, constructRequestMessage, blockMessage, List.append_assoc (leBytes p),
        readInt_payload]
  | piece p o n d =>
      show Heard.piece _ = Heard.piece p
      rw [WireMsg.bytes, constructPieceMessage, List.append_assoc (leBytes p), readInt_payload]
  | cancel p o n => rfl

/-- The buffer starts with the chunk just received. -/
theorem bufPtr_chunk {old : Mem} {chunk : List Byte} (hbuf : s.buffer = old.write 0 chunk)
    (hfits : chunk.length ≤ bufsiz) :
    s.bufPtr e = Mem.of chunk ((s.bufPtr e).advance chunk.length) := by
  have hread : (s.bufPtr e).read chunk.length = chunk := by
    have hold : (old.write 0 chunk).read chunk.length = chunk := read_write_block old rfl
    rw [← hbuf] at hold
    conv => rhs; rw [← hold]
    apply Mem.read_congr
    intro i hi
    rw [Client.bufPtr, if_pos (by omega)]
  rw [← Mem.of_read_advance (s.bufPtr e) chunk.length, hread, Mem.advance_of]

theorem map_ok {α β ε : Type} {r : Except ε α} {f : α → β} {b : β} (h : r.map f = .ok b) :
    ∃ a, r = .ok a ∧ f a = b := by
  cases r with
  | error stop => cases h
  | ok a => exact ⟨a, rfl, by simpa [Except.map] using h⟩

theorem receiveMsg_traced {sha1 : List Byte → Digest} {old : Mem} {chunk : List Byte}
    (hbuf : s.buffer = old.write 0 chunk) (hfits : chunk.length ≤ bufsiz)
    (h : receiveMsg sha1 ans s k chunk e = .ok (s', evs)) : Traced ans s s' evs := by
  rw [receiveMsg] at h
  split at h
  · cases h
  · next n hnext =>
    dsimp only at h
    -- the logged message is what the switch saw, and a documented one is seen as it was built
    have hguard : ∀ m, heardOf (MsgID.ofByte n.msgID)
        ((Mem.of n.message e.behindMsg).advance 5).readInt = m →
        guard ans s.view (.heard k chunk m) := by
      intro m hm w hw hchunk
      have hreadable : w.bytes.length ≤ e.stack := by
        rw [← hchunk]
        exact Nat.le_trans hfits e.bufsiz_le_stack
      rw [bufPtr_chunk hbuf hfits, ← List.append_nil chunk, hchunk,
        getNextMsg_bytes hw.fits hreadable, Option.some.injEq] at hnext
      rw [← hm, ← hnext]
      exact heardOf_bytes hw _
    have hsame : ∀ m : Heard, m.effect = id → s.view = effect s.view (.heard k chunk m) := by
      intro m hm
      rw [effect, hm, view_modify_id]
    split at h <;> rename_i hid <;> rw [hid] at hguard <;>
      obtain ⟨⟨s1, evs1⟩, hstep, hlog⟩ := map_ok h <;> cases hlog
    · cases hstep
      exact .modify (hguard _ rfl) rfl fun c => stackPart_setFlag c _ _
    · cases hstep
      exact .modify (hguard _ rfl) rfl fun c => stackPart_setFlag c _ _
    · cases hstep
      exact .modify (hguard _ rfl) rfl fun c => stackPart_setFlag c _ _
    · cases hstep
      exact .modify (hguard _ rfl) rfl fun c => stackPart_setFlag c _ _
    · exact .cons (.single (hguard _ rfl) (hsame _ rfl)) ((handleHave_ok hstep).traced)
    · exact .cons (.single (hguard _ rfl) (hsame _ rfl)) ((handleBitfield_ok hstep).traced)
    · cases hstep
      dsimp only
      refine .modify (hguard _ rfl) rfl ?_
      intro c
      rw [setWidth_clobber]
      rfl
    · exact .cons (.single (hguard _ rfl) (hsame _ rfl)) (handlePiece_traced hstep)
    · cases hstep
      dsimp only
      exact .modify (hguard _ rfl) rfl fun _ => rfl
    · cases hstep
      exact .single (hguard _ rfl) (hsame _ rfl)

/-- What the message branch logs behind the message itself: a stray write or
a stored piece. -/
def AfterHeard (k : Nat) (ev : Event) : Prop :=
  (∃ own, ev = .smashed own) ∨ ∃ p block written shift, ev = .stored k p block written shift

theorem StoresBits.events (h : StoresBits s s' e evs) : ∀ ev ∈ evs, AfterHeard k ev := by
  obtain ⟨s1, -, -, -, ⟨-, rfl⟩ | hsmash⟩ := h
  · simp
  · rw [(smash_ok hsmash).1]
    intro ev hev
    rw [List.mem_singleton.mp hev]
    exact .inl ⟨_, rfl⟩

/-- The message branch logs the message as the switch saw it, and then at
most a stray write or a stored piece. -/
theorem receiveMsg_events {sha1 : List Byte → Digest} {chunk : List Byte}
    (h : receiveMsg sha1 ans s k chunk e = .ok (s', evs)) :
    ∃ n, getNextMsg e.stack (s.bufPtr e) = some n ∧
      ∃ evs1, evs = .heard k chunk (heardOf (MsgID.ofByte n.msgID)
          ((Mem.of n.message e.behindMsg).advance 5).readInt) :: evs1 ∧
        ∀ ev ∈ evs1, AfterHeard k ev := by
  obtain ⟨n, hnext⟩ : ∃ n, getNextMsg e.stack (s.bufPtr e) = some n := by
    cases hnext : getNextMsg e.stack (s.bufPtr e) with
    | none =>
        rw [receiveMsg, hnext] at h
        cases h
    | some n => exact ⟨n, rfl⟩
  refine ⟨n, hnext, ?_⟩
  rw [receiveMsg, hnext] at h
  dsimp only at h
  cases hid : MsgID.ofByte n.msgID with
  | none =>
      rw [hid] at h
      cases h
      exact ⟨[], rfl, by simp⟩
  | some id =>
      rw [hid] at h
      cases id with
      | «have» =>
          obtain ⟨⟨s2, evs2⟩, hstep, hlog⟩ := map_ok h
          cases hlog
          exact ⟨evs2, rfl, (handleHave_ok hstep).events⟩
      | bitfield =>
          obtain ⟨⟨s2, evs2⟩, hstep, hlog⟩ := map_ok h
          cases hlog
          exact ⟨evs2, rfl, (handleBitfield_ok hstep).events⟩
      | piece =>
          obtain ⟨⟨s2, evs2⟩, hstep, hlog⟩ := map_ok h
          cases hlog
          refine ⟨evs2, rfl, ?_⟩
          obtain ⟨-, -, -, expected, verified, -, -, hcases⟩ := handlePiece_cases hstep
          rcases hcases with ⟨-, rfl, -⟩ | ⟨-, written, shift, rfl, -, -⟩
          · simp
          · intro ev hev
            rw [List.mem_singleton.mp hev]
            exact .inr ⟨_, _, _, _, rfl⟩
      | _ =>
          cases h
          exact ⟨[], rfl, by simp⟩

theorem receive_traced {sha1 : List Byte → Digest} {r : Recv}
    (h : receive sha1 ans s k r e = .ok (s', evs)) : Traced ans s s' evs := by
  cases r with
  | error =>
      cases h
      exact .silent rfl
  | closed =>
      cases h
      refine .single ?_ ?_
      · trivial
      · show _ = s.view.modify k (setFlag · .connectionStatus 0)
        exact view_modifyConn fun c => stackPart_setFlag c _ _
  | chunk c =>
      rw [receive] at h
      split at h
      · next hlen => exact (greet_traced hlen h).congr rfl rfl
      · split at h
        · next hlen => exact (greetWithBitfield_traced hlen h).congr rfl rfl
        · exact (receiveMsg_traced rfl c.fits h).congr rfl rfl

/-! ## The POLLOUT branch -/

/-- The POLLOUT branch for slot `k` comes to the choice loop. -/
structure ReachesRequest (ans : BtInfo) (s : Client) (k : Nat) (e : Env) : Prop where
  ready : (s.fds k).revents = true
  idle : (s.connections k).flag .pendingRequest = false
  interested : (s.connections k).flag .ownInterested = true
  unchoked : (s.connections k).flag .ownChoke = false
  wanted : ∃ bits, (s.connections k).peerBitfield = some bits ∧
    0 < peerContainsUndownloadedPieces (Mem.of bits e.behindPeer)
      (Mem.of s.ownBitfield e.behindOwn) ans.bitfieldLen

/-- The POLLOUT branch for slot `k` comes to `Send_piece`. -/
structure ReachesUpload (s : Client) (k : Nat) : Prop where
  ready : (s.fds k).revents = true
  interested : (s.connections k).flag .peerInterested = true
  unchoked : (s.connections k).flag .peerChoke = false
  free : (s.connections k).flag .ownInterested = false ∨
    (s.connections k).flag .pendingRequest = true
  asked : 0 ≤ (s.connections k).pieceToSend.toInt

/-- The five ways through the POLLOUT branch: nothing, an upload, an
`UNCHOKE` to an interested and choked peer, a word on the client's own
interest, or a request. -/
theorem serve_cases (h : serve ans s k e = .ok (s', evs)) :
    (s' = s ∧ evs = []) ∨
      (ReachesUpload s k ∧ uploadPiece ans s k (s.connections k).pieceToSend e = .ok (s', evs)) ∨
      ((s.connections k).flag .peerInterested = true ∧ (s.connections k).flag .peerChoke = true ∧
        s.transmit k k sendUnchoked e = .ok (s', evs)) ∨
      (∃ f, (f = sendInterested ∨ f = sendUninterested) ∧ s.transmit k k f e = .ok (s', evs)) ∨
      (ReachesRequest ans s k e ∧ requestPiece ans s k e = .ok (s', evs)) := by
  rw [serve] at h
  split at h
  · cases h
    exact .inl ⟨rfl, rfl⟩
  · next hevents =>
    have hready : (s.fds k).revents = true := by simpa using hevents
    split at h
    · next hwants =>
      simp only [Bool.and_eq_true, Bool.or_eq_true, Bool.not_eq_true'] at hwants
      split at h
      · next hchoke =>
        split at h
        · next hasked =>
          exact .inr (.inl ⟨⟨hready, hwants.1, by simpa using hchoke, hwants.2, hasked⟩, h⟩)
        · cases h
          exact .inl ⟨rfl, rfl⟩
      · next hchoke => exact .inr (.inr (.inl ⟨hwants.1, by simpa using hchoke, h⟩))
    · split at h
      · next hpending =>
        split at h
        · cases h
        · next bits hbits =>
          split at h
          · next hwanted =>
            split at h
            · next hinterested =>
              split at h
              · next hchoke =>
                exact .inr (.inr (.inr (.inr ⟨⟨hready, by simpa using hpending, hinterested,
                  by simpa using hchoke, bits, hbits, hwanted⟩, h⟩)))
              · cases h
                exact .inl ⟨rfl, rfl⟩
            · exact .inr (.inr (.inr (.inl ⟨_, .inl rfl, h⟩)))
          · exact .inr (.inr (.inr (.inl ⟨_, .inr rfl, h⟩)))
      · cases h
        exact .inl ⟨rfl, rfl⟩

/-- A request went to the slot where the choice loop stopped. -/
theorem requestPiece_ok (h : requestPiece ans s k e = .ok (s', evs)) :
    ∃ i p, choosePiece s e ans.numPieces 0 = .ok (i, p) ∧ i < maxPeers ∧
      Client.transmit { s with i := i } k i (sendRequest · p) e = .ok (s', evs) := by
  rw [requestPiece] at h
  split at h
  · cases h
  · next i p hchoice =>
    split at h
    · cases h
    · next hslot => exact ⟨i, p, hchoice, by omega, h⟩

/-- An upload read the piece, perhaps wrote past its block, and sent it. -/
theorem uploadPiece_ok {p : CInt} (h : uploadPiece ans s k p e = .ok (s', evs)) :
    ∃ piece s1 evs1 evs2, getPieceFromFile s.file p ans.pieceSizeBytes e.freshBlock = .ok piece ∧
      ((s1 = s ∧ evs1 = []) ∨ s.smash e = .ok (s1, evs1)) ∧
      s1.transmit k k (sendPiece · p ans.pieceSizeBytes piece.bytes) e = .ok (s', evs2) ∧
      evs = evs1 ++ evs2 := by
  rw [uploadPiece] at h
  split at h
  · cases h
  · next piece hpiece =>
    split at h
    · cases h
    · next s1 evs1 hsmash =>
      obtain ⟨⟨s2, evs2⟩, hsend, heq⟩ := map_ok h
      cases heq
      refine ⟨piece, s1, evs1, evs2, hpiece, ?_, hsend, rfl⟩
      split at hsmash
      · exact .inr hsmash
      · cases hsmash
        exact .inl ⟨rfl, rfl⟩

theorem uploadPiece_traced {p : CInt}
    (hguard : ∀ bytes, SendGuard s.view.records k k (.piece p 0 ans.pieceSizeBytes bytes))
    (h : uploadPiece ans s k p e = .ok (s', evs)) : Traced ans s s' evs := by
  obtain ⟨piece, s1, evs1, evs2, -, hsmash, hsend, rfl⟩ := uploadPiece_ok h
  -- what the copy does to the heap leaves the records alone
  have hsmashed : Traced ans s s1 evs1 ∧ s1.view.records = s.view.records := by
    rcases hsmash with ⟨rfl, rfl⟩ | hsmash
    · exact ⟨.silent rfl, rfl⟩
    · exact ⟨smash_traced hsmash, (smash_ok hsmash).2.1⟩
  apply hsmashed.1.append
  apply transmit_traced (fun _ => rfl) _ hsend
  rw [hsmashed.2]
  exact hguard piece.bytes

theorem serve_traced (h : serve ans s k e = .ok (s', evs)) : Traced ans s s' evs := by
  rcases serve_cases h with
    ⟨rfl, rfl⟩ | ⟨hupload, h⟩ | ⟨hinterested, hchoked, h⟩ | ⟨f, hf, h⟩ | ⟨hrequest, h⟩
  · exact .silent rfl
  · refine uploadPiece_traced ?_ h
    intro bytes
    exact ⟨rfl, hupload.interested, hupload.unchoked, rfl, hupload.asked⟩
  · refine transmit_traced (fun _ => rfl) ?_ h
    exact ⟨rfl, .inr (.inr ⟨rfl, hinterested, hchoked⟩)⟩
  · rcases hf with rfl | rfl <;> refine transmit_traced (fun _ => rfl) ?_ h
    · exact ⟨rfl, .inl rfl⟩
    · exact ⟨rfl, .inr (.inl rfl)⟩
  · obtain ⟨i, p, -, -, hsend⟩ := requestPiece_ok h
    refine (transmit_traced (fun _ => rfl) ?_ hsend).congr rfl rfl
    exact ⟨hrequest.idle, hrequest.interested, hrequest.unchoked⟩

theorem turn_traced {sha1 : List Byte → Digest} {r : Recv} {eRecv eSend : Env}
    (h : Torrent.turn sha1 ans s r eRecv eSend = .ok (s', evs)) : Traced ans s s' evs := by
  rw [Torrent.turn] at h
  split at h
  · cases h
  · split at h
    · cases h
      exact .silent rfl
    · split at h
      · cases h
      · next hreceive =>
        split at h
        · cases h
        · next hserve =>
          cases h
          exact (receive_traced hreceive).append ((serve_traced hserve).congr rfl rfl)

theorem startRound_view (s : Client) (poll : Poll) : (startRound s poll).view = s.view := by
  cases poll with
  | nothing => rfl
  | ready pollout accepted => cases accepted <;> rfl

/-! ## The events asked for -/

/-- What `poll` watches a slot for, and what it last reported. -/
def Client.watch (s : Client) : Nat → Bool × Bool :=
  fun j => ((s.fds j).events, (s.fds j).revents)

theorem watch_congr (h : s'.fds = s.fds) : s'.watch = s.watch := by
  funext j
  rw [Client.watch, h]
  rfl

theorem transmit_watch {f : Connections → Connections × WireMsg}
    (h : s.transmit turn k f e = .ok (s', evs)) : s'.watch = s.watch := by
  obtain ⟨rfl, -⟩ := transmit_ok h
  rfl

theorem serve_watch (h : serve ans s k e = .ok (s', evs)) : s'.watch = s.watch := by
  rcases serve_cases h with ⟨rfl, -⟩ | ⟨-, h⟩ | ⟨-, -, h⟩ | ⟨f, -, h⟩ | ⟨-, h⟩
  · rfl
  · obtain ⟨piece, s1, evs1, evs2, -, hsmash, hsend, -⟩ := uploadPiece_ok h
    rw [transmit_watch hsend]
    rcases hsmash with ⟨rfl, -⟩ | hsmash
    · rfl
    · exact watch_congr (smash_ok hsmash).2.2.1
  · exact transmit_watch h
  · exact transmit_watch h
  · obtain ⟨i, p, -, -, hsend⟩ := requestPiece_ok h
    rw [transmit_watch hsend]
    rfl

theorem StoresBits.watch (h : StoresBits s s' e evs) : s'.watch = s.watch := by
  obtain ⟨s1, -, hfds, -, hstored⟩ := h
  rw [← watch_congr hfds]
  rcases hstored with ⟨rfl, -⟩ | hsmash
  · rfl
  · exact watch_congr (smash_ok hsmash).2.2.1

theorem receiveMsg_watch {sha1 : List Byte → Digest} {chunk : List Byte}
    (h : receiveMsg sha1 ans s k chunk e = .ok (s', evs)) : s'.watch = s.watch := by
  rw [receiveMsg] at h
  split at h
  · cases h
  · dsimp only at h
    split at h <;> obtain ⟨⟨s1, evs1⟩, hstep, hlog⟩ := map_ok h <;> cases hlog
    case h_5 => exact (handleHave_ok hstep).watch
    case h_6 => exact (handleBitfield_ok hstep).watch
    case h_8 => exact watch_congr (handlePiece_cases hstep).1
    all_goals
      cases hstep
      rfl

theorem receive_watch {sha1 : List Byte → Digest} {r : Recv}
    (h : receive sha1 ans s k r e = .ok (s', evs)) : s'.watch = s.watch := by
  cases r with
  | error =>
      cases h
      rfl
  | closed =>
      cases h
      funext j
      simp only [Client.watch, Client.modifyConn]
      split <;> rfl
  | chunk c =>
      rw [receive] at h
      split at h
      · obtain ⟨s1, hcheck, rfl, -⟩ := greet_ok h
        have hwatch := watch_congr (checkHandshake_ok hcheck).2.1
        exact hwatch
      · split at h
        · obtain ⟨s1, s2, evs2, bits, f, hcheck, -, hsend, rfl, -⟩ := greetWithBitfield_ok h
          have hwatch := watch_congr (checkHandshake_ok hcheck).2.1
          show s2.watch = s.watch
          rw [transmit_watch hsend]
          exact hwatch
        · rw [receiveMsg_watch h]
          rfl

end Steps

/-- **The main loop refines the event machine.** The log of a run is
admitted from the records it started with, and replaying it gives the
records it ends with. -/
theorem run_traced {sha1 : List Byte → Digest} {ans : BtInfo} {s₀ s : Client} {log : List Event}
    (h : Run sha1 ans s₀ log s) : Traced ans s₀ s log := by
  induction h with
  | start => exact .silent rfl
  | round poll _ _ ih => exact ih.congr rfl (startRound_view _ poll)
  | turn r eRecv eSend _ _ hturn ih => exact ih.append (turn_traced hturn)

end DubstepDucks.Torrent
