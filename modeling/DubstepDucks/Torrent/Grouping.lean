import DubstepDucks.Torrent.Isolation

/-!
# Torrent — messages that share a `recv`

TCP may hand several messages to one `recv`. The receive branch takes the
first one, advances `bufPtr` and never looks at it again: what follows in the
chunk is lost. `recordEffect` is what one message does to the record of its
slot, and handling a list of packets comes to the same as handling the
messages one by one as long as every lost message would have done nothing
(`handlePackets_record`).
-/

namespace DubstepDucks.Torrent

open CMem Btp

/-! ## Packets -/

/-- A message, and the environment in which it is handled if it is. -/
abbrev Sent := WireMsg × Env

/-- The bytes of the messages, one behind the other. -/
def wireBytes (ms : List Sent) : List Byte := (ms.map fun m => m.1.bytes).flatten

/-- What one `recv` returns: whole messages built by the constructors, not as
long as a handshake with or without a bitfield. -/
structure Packet (ans : BtInfo) where
  first : Sent
  rest : List Sent
  built : ∀ m ∈ first :: rest, m.1.Fits
  fits : (wireBytes (first :: rest)).length ≤ bufsiz
  noHandshake : (wireBytes (first :: rest)).length ≠ fullHandshakeLength
  noGreeting : (wireBytes (first :: rest)).length ≠ fullHandshakeLength + ans.bitfieldMsgLength

variable {ans : BtInfo}

def Packet.msgs (p : Packet ans) : List Sent := p.first :: p.rest

theorem wireBytes_cons (m : Sent) (ms : List Sent) :
    wireBytes (m :: ms) = m.1.bytes ++ wireBytes ms := by
  simp [wireBytes]

theorem bytes_pos (w : WireMsg) : 0 < w.bytes.length := by
  obtain ⟨len, payload, hbytes⟩ := bytes_split w
  rw [hbytes, List.length_append, length_leBytes]
  omega

def Packet.chunk (p : Packet ans) : Chunk where
  bytes := wireBytes p.msgs
  nonempty := by
    rw [Packet.msgs, wireBytes_cons, List.length_append]
    have := bytes_pos p.first.1
    omega
  fits := p.fits

/-- The packets received on slot `k`, one after another. -/
def handlePackets (sha1 : List Byte → Digest) (k : Nat) :
    Client → List (Packet ans) → Except Stop Client
  | s, [] => .ok s
  | s, p :: ps =>
      match receive sha1 ans s k (.chunk p.chunk) p.first.2 with
      | .error stop => .error stop
      | .ok (s', _) => handlePackets sha1 k s' ps

/-! ## What one message does to the record -/

/-- `verify_piece` on the extracted block, with the length found in the
register of its missing argument. -/
def acceptsPiece (sha1 : List Byte → Digest) (ans : BtInfo) (k : Nat) (msg : Mem) (e : Env) :
    Bool :=
  match ans.hashAt (k * 20) e with
  | none => false
  | some expected => sha1 ((pieceBlock ans msg).take e.thirdArg.toNat) = expected

/-- The record of slot `k` after the message, as the handlers leave it. -/
def recordEffect (sha1 : List Byte → Digest) (ans : BtInfo) (k : Nat) (c : Connections) (m : Sent) :
    Connections :=
  let msg := Mem.of m.1.bytes m.2.behindMsg
  let index := (msg.advance 5).readInt
  match MsgID.ofByte m.1.id with
  | some .choke => setFlag c .ownChoke 1
  | some .unchoke => setFlag c .ownChoke 0
  | some .interested => setFlag c .peerInterested 1
  | some .uninterested => setFlag c .peerInterested 0
  | some .have =>
      { c with peerBitfield := c.peerBitfield.map fun bits => (setHave bits index).getD bits }
  | some .bitfield =>
      { c with peerBitfield := c.peerBitfield.map fun bits =>
          ((msg.advance 5).read ans.numPieces).take bits.length ++ bits.drop ans.numPieces }
  | some .request => { c with pieceToSend := index }
  | some .piece => if acceptsPiece sha1 ans k msg m.2 then setFlag c .pendingRequest 0 else c
  | some .cancel => { c with pieceToSend := -1 }
  | none => c

/-- The check reads the block only, when its length is at most the block's. -/
theorem verifyPiece_block {sha1 : List Byte → Digest} {s : Client} {e : Env} {msg : Mem}
    {expected : Digest} {verified : Bool}
    (harg : e.thirdArg.toNat ≤ ans.pieceLength)
    (h : verifyPiece sha1 e.stack (pieceBuffer ans s msg e) expected e.thirdArg
      = some verified) :
    verified = decide (sha1 ((pieceBlock ans msg).take e.thirdArg.toNat) = expected) := by
  have hblock := length_pieceBlock ans msg
  rw [verifyPiece] at h
  split at h
  · cases h
  · have hread : (pieceBuffer ans s msg e).read e.thirdArg.toNat
        = (pieceBlock ans msg).take e.thirdArg.toNat := by
      rw [pieceBuffer, Mem.write_zero, Mem.read_of_le (by omega)]
    rw [hread] at h
    cases h
    rfl

theorem handlePiece_record {sha1 : List Byte → Digest} {s : Client} {k : Nat} {e : Env} {msg : Mem}
    (h : PieceSafe sha1 ans s k msg e) (harg : e.thirdArg.toNat ≤ ans.pieceLength) :
    ∃ s' evs, handlePiece sha1 ans s k msg e = .ok (s', evs) ∧
      s'.connections k = if acceptsPiece sha1 ans k msg e
        then setFlag (s.connections k) .pendingRequest 0 else s.connections k := by
  obtain ⟨hlen, expected, verified, hexpected, hverify, haccept⟩ := h
  have haccepts : acceptsPiece sha1 ans k msg e = verified := by
    rw [acceptsPiece, hexpected, verifyPiece_block harg hverify]
  have hroom := e.bufsiz_le_room
  rw [haccepts, handlePiece]
  dsimp only
  rw [if_neg (by omega), hexpected]
  dsimp only
  rw [hverify]
  cases verified with
  | false => exact ⟨_, _, rfl, rfl⟩
  | true =>
      obtain ⟨⟨w, hwrite⟩, v, hload⟩ := haccept rfl
      rw [setWidth_clobber, hwrite]
      dsimp only
      rw [hload]
      exact ⟨_, _, rfl, modifyConn_self _ k _⟩

theorem receiveMsg_record {sha1 : List Byte → Digest} {s : Client} {k : Nat} {w : WireMsg} {e : Env}
    {size : CInt} (hnext : getNextMsg e.stack (s.bufPtr e) = some ⟨w.bytes, w.id, size⟩)
    (hsafe : MsgSafe sha1 ans s k e)
    (hblock : MsgID.ofByte w.id = some .piece → e.thirdArg.toNat ≤ ans.pieceLength)
    (chunk : List Byte) :
    ∃ s' evs, receiveMsg sha1 ans s k chunk e = .ok (s', evs) ∧
      s'.connections k = recordEffect sha1 ans k (s.connections k) (w, e) := by
  rw [MsgSafe, hnext] at hsafe
  rw [receiveMsg, hnext, recordEffect]
  dsimp only at hsafe ⊢
  cases hid : MsgID.ofByte w.id with
  | none => exact ⟨_, _, rfl, rfl⟩
  | some id =>
      rw [hid] at hsafe
      cases id with
      | «have» =>
          obtain ⟨hfirst, bits, bits', hbits, hset⟩ := hsafe
          dsimp only
          rw [handleHave, hbits]
          dsimp only
          rw [hset]
          dsimp only
          rw [hfirst]
          refine ⟨_, _, rfl, ?_⟩
          dsimp only
          rw [modifyConn_self, Option.map_some, hset]
          rfl
      | bitfield =>
          obtain ⟨bits, hbits, hfits⟩ := hsafe
          dsimp only
          rw [handleBitfield, hbits]
          dsimp only
          rw [if_neg (by omega)]
          refine ⟨_, _, rfl, ?_⟩
          dsimp only
          rw [modifyConn_self, Option.map_some]
      | piece =>
          obtain ⟨s', evs, hpiece, hrecord⟩ := handlePiece_record hsafe (hblock hid)
          dsimp only
          rw [hpiece]
          exact ⟨_, _, rfl, hrecord⟩
      | request =>
          refine ⟨_, _, rfl, ?_⟩
          dsimp only
          rw [modifyConn_self, setWidth_clobber]
      | _ =>
          refine ⟨_, _, rfl, ?_⟩
          dsimp only
          rw [modifyConn_self]

/-! ## Packets one after another -/

/-- The first message of a packet can be handled where it is received, and
the check of a `PIECE` reads no more than its block. -/
structure Manageable (sha1 : List Byte → Digest) (s : Client) (k : Nat) (p : Packet ans) :
    Prop where
  safe : MsgSafe sha1 ans { s with buffer := s.buffer.write 0 p.chunk.bytes } k p.first.2
  block : MsgID.ofByte p.first.1.id = some .piece → p.first.2.thirdArg.toNat ≤ ans.pieceLength

/-- Of a packet, the first message is handled and nothing else. -/
theorem receive_record {sha1 : List Byte → Digest} {s : Client} {k : Nat} {p : Packet ans}
    (h : Manageable sha1 s k p) :
    ∃ s' evs, receive sha1 ans s k (.chunk p.chunk) p.first.2 = .ok (s', evs) ∧
      s'.connections k = recordEffect sha1 ans k (s.connections k) p.first := by
  have hlong : p.chunk.bytes.length ≠ fullHandshakeLength := p.noHandshake
  have hintro : p.chunk.bytes.length ≠ fullHandshakeLength + ans.bitfieldMsgLength := p.noGreeting
  have hnext : getNextMsg p.first.2.stack
      (Client.bufPtr { s with buffer := s.buffer.write 0 p.chunk.bytes } p.first.2)
      = some ⟨p.first.1.bytes, p.first.1.id, BitVec.ofNat 32 p.first.1.bytes.length⟩ := by
    rw [bufPtr_chunk rfl p.chunk.fits]
    have hfits := p.chunk.fits
    have hbytes : p.chunk.bytes = p.first.1.bytes ++ wireBytes p.rest := wireBytes_cons _ _
    rw [hbytes, List.length_append] at hfits
    have hstack := p.first.2.bufsiz_le_stack
    show getNextMsg _ (Mem.of (wireBytes (p.first :: p.rest)) _) = _
    rw [wireBytes_cons]
    exact getNextMsg_bytes (p.built _ (List.mem_cons_self ..)) (by omega) _ _
  rw [receive, if_neg hlong, if_neg hintro]
  exact receiveMsg_record hnext h.safe h.block p.chunk.bytes

/-- Along the packets, every first message can be handled and every other one
would leave the record as the first one left it. -/
def Lossless (sha1 : List Byte → Digest) (k : Nat) : Client → List (Packet ans) → Prop
  | _, [] => True
  | s, p :: ps =>
      Manageable sha1 s k p ∧
        (∀ m ∈ p.rest, recordEffect sha1 ans k (recordEffect sha1 ans k (s.connections k) p.first) m
          = recordEffect sha1 ans k (s.connections k) p.first) ∧
        ∀ s' evs, receive sha1 ans s k (.chunk p.chunk) p.first.2 = .ok (s', evs) →
          Lossless sha1 k s' ps

theorem foldl_idle {α β : Type} {f : α → β → α} {a : α} {bs : List β}
    (h : ∀ b ∈ bs, f a b = a) : bs.foldl f a = a := by
  induction bs with
  | nil => rfl
  | cons b bs ih =>
      rw [List.foldl_cons, h b (List.mem_cons_self ..)]
      exact ih fun x hx => h x (List.mem_cons_of_mem _ hx)

/-- Without loss the packets do to the record what their messages do one by
one. -/
theorem handlePackets_record {sha1 : List Byte → Digest} {k : Nat} {ps : List (Packet ans)} :
    ∀ {s : Client}, Lossless sha1 k s ps →
      ∃ s', handlePackets sha1 k s ps = .ok s' ∧ s'.connections k
        = (ps.flatMap Packet.msgs).foldl (recordEffect sha1 ans k) (s.connections k) := by
  induction ps with
  | nil =>
      intro s _
      exact ⟨s, rfl, rfl⟩
  | cons p ps ih =>
      rintro s ⟨hfirst, hrest, hnext⟩
      obtain ⟨s1, evs, hreceive, hrecord⟩ := receive_record hfirst
      obtain ⟨s', hhandle, hfinal⟩ := ih (hnext s1 evs hreceive)
      refine ⟨s', ?_, ?_⟩
      · rw [handlePackets, hreceive]
        exact hhandle
      · rw [hfinal, hrecord, List.flatMap_cons, List.foldl_append, Packet.msgs, List.foldl_cons,
          foldl_idle hrest]

/-- Short messages in one packet, handled in a calm environment. -/
def calmPacket (w : WireMsg) (ws : List WireMsg) (hfits : ∀ m ∈ w :: ws, m.Fits)
    (hshort : (wireBytes ((w :: ws).map (·, Env.calm))).length < fullHandshakeLength) :
    Packet eightPieces where
  first := (w, .calm)
  rest := ws.map (·, .calm)
  built := by
    intro m hm
    rw [← List.map_cons (f := (·, Env.calm)), List.mem_map] at hm
    obtain ⟨x, hx, rfl⟩ := hm
    exact hfits x hx
  fits := by
    rw [List.map_cons] at hshort
    exact Nat.le_of_lt (Nat.lt_trans hshort (by decide))
  noHandshake := Nat.ne_of_lt hshort
  noGreeting := by
    rw [List.map_cons] at hshort
    omega

def interestedOnce : Packet eightPieces := calmPacket (.state 2) [] (by decide) (by decide)

def interestedTwice : Packet eightPieces :=
  calmPacket (.state 2) [.state 2] (by decide) (by decide)

end DubstepDucks.Torrent
