import DubstepDucks.Torrent.Isolation

/-!
# Torrent — the bitfield exchange

Peer A answers a bare handshake with its own handshake and a `BITFIELD`
message; peer B takes the bytes behind the handshake for A's bitfield. The
message starts with five bytes that are no bitfield, four of length and the
ID, and `Set_peerBitfield` keeps them: what B stores is A's bitfield shifted
by five bytes behind that header. `bitfield_exchange_iff` says for which own
bitfields the shift does not show.
-/

namespace DubstepDucks.Torrent

open CMem Btp

/-- The five bytes in front of the bitfield: the length field and the ID. -/
def bitfieldHeader (ans : BtInfo) : List Byte :=
  leBytes (BitVec.ofNat 32 (ans.numPieces / 8) + 1) ++ [MsgID.bitfield.byte]

/-- `⌈n/8⌉`. -/
def BtInfo.bitfieldBytes (ans : BtInfo) : Nat := (ans.numPieces + 7) / 8

/-- B takes the chunk in the handshake-plus-bitfield case, and stores `own`
for slot `k`. -/
def TakesBitfield (sha1 : List Byte → Digest) (ans : BtInfo) (b : Client) (k : Nat) (c : Chunk)
    (e : Env) (own : List Byte) : Prop :=
  c.bytes.length = fullHandshakeLength + ans.bitfieldMsgLength ∧
    ∃ b' evs bits, receive sha1 ans b k (.chunk c) e = .ok (b', evs) ∧
      .greeted k c.bytes ∈ evs ∧ (b'.connections k).peerBitfield = some bits ∧
      ∀ j, j < ans.bitfieldBytes → bits[j]? = own[j]?

/-! ## What A sends -/

/-- The bytes behind the handshake: the message, and more behind it. -/
def introPayload (ans : BtInfo) (own : List Byte) (e : Env) : List Byte :=
  (Mem.of (constructBitfieldMessage own (BitVec.ofNat 32 (ans.numPieces / 8))) e.behindIntro).read
    ans.bitfieldMsgLength

theorem length_introPayload (ans : BtInfo) (own : List Byte) (e : Env) :
    (introPayload ans own e).length = ans.bitfieldMsgLength :=
  Mem.length_read _ _

theorem length_ownHandshake : ownHandshake.length = fullHandshakeLength := rfl

theorem intro_of_receive {sha1 : List Byte → Digest} {ans : BtInfo} {a a' : Client} {i : Nat}
    {h : Chunk} {e : Env} {evs : List Event} {intro : List Byte}
    (hhandshake : h.bytes.length = fullHandshakeLength)
    (hreceive : receive sha1 ans a i (.chunk h) e = .ok (a', evs))
    (hintro : .introduced i intro ∈ evs) :
    intro = ownHandshake ++ introPayload ans a.ownBitfield e := by
  rw [receive, if_pos hhandshake] at hreceive
  obtain ⟨a1, hcheck, -, rfl⟩ := greet_ok hreceive
  have hown : a1.ownBitfield = a.ownBitfield := congrArg View.own (checkHandshake_ok hcheck).1
  simp only [List.mem_cons, reduceCtorEq, Event.introduced.injEq, true_and, List.not_mem_nil,
    or_false, false_or] at hintro
  rw [hintro, introPayload, ← hown]

theorem bitfieldBytes_le (ans : BtInfo) :
    ans.bitfieldBytes ≤ ans.numPieces / 8 + 1 ∧ ans.bitfieldBytes ≤ ans.bitfieldMsgLength := by
  have hlen : ans.numPieces ≤ ans.bitfieldLen := by
    rw [BtInfo.bitfieldLen]
    split <;> omega
  rw [BtInfo.bitfieldBytes, BtInfo.bitfieldMsgLength]
  omega

/-- The payload, byte by byte: the header, and then the bitfield. -/
theorem introPayload_getElem? {ans : BtInfo} {own : List Byte} {e : Env} {j : Nat}
    (hown : own.length = ans.bitfieldBytes) (hj : j < ans.bitfieldBytes) :
    (introPayload ans own e)[j]? = if j < 5 then (bitfieldHeader ans)[j]? else own[j - 5]? := by
  obtain ⟨hbytes, hmsg⟩ := bitfieldBytes_le ans
  have hn : ans.numPieces / 8 < 2 ^ 31 := by
    have := ans.numPieces_lt
    omega
  have hmessage : constructBitfieldMessage own (BitVec.ofNat 32 (ans.numPieces / 8))
      = bitfieldHeader ans ++ own.take (ans.numPieces / 8) := by
    rw [constructBitfieldMessage, bitfieldHeader, toNat_ofNat hn]
    simp
  have hheader : (bitfieldHeader ans).length = 5 := rfl
  have hin : j < (bitfieldHeader ans ++ own.take (ans.numPieces / 8)).length := by
    rw [List.length_append, hheader, List.length_take]
    rw [BtInfo.bitfieldBytes] at *
    omega
  have hread : (introPayload ans own e)[j]?
      = (bitfieldHeader ans ++ own.take (ans.numPieces / 8))[j]? := by
    rw [introPayload, hmessage, Mem.read, List.getElem?_map, List.getElem?_range (by omega),
      Option.map_some, Mem.of_lt hin, List.getD_eq_getElem?_getD, List.getElem?_eq_getElem hin]
    rfl
  rw [hread, List.getElem?_append, hheader]
  split
  · rfl
  · rw [List.getElem?_take_of_lt (by omega)]

/-! ## What B makes of it -/

/-- The client's own handshake passes the check when the byte behind the
copied name is zero. -/
theorem verifyHandshake_own (rest : Mem) (fresh : Byte) :
    verifyHandshake (Mem.of ownHandshake rest) fileSha fresh = if fresh = 0 then 0 else -2 := by
  have hlength : NameLengthOk (Mem.of ownHandshake rest) := rfl
  have hname : ProtocolNameOk (Mem.of ownHandshake rest) := rfl
  have hhash : ((Mem.of ownHandshake rest).advance 28).read 20 = fileSha.read 20 := rfl
  by_cases hfresh : fresh = 0
  · rw [hfresh, verifyHandshake_hash fileSha hlength hname, if_neg (not_not_intro hhash),
      if_pos rfl]
  · rw [verifyHandshake_garbage fileSha hlength hfresh, if_neg hfresh]

/-- What B stores is everything behind the handshake. -/
theorem greetWithBitfield_stores {ans : BtInfo} {s : Client} {k : Nat} {e : Env} {old : Mem}
    {payload : List Byte} (hbuf : s.buffer = old.write 0 (ownHandshake ++ payload))
    (hpayload : payload.length = ans.bitfieldMsgLength)
    (hfits : fullHandshakeLength + ans.bitfieldMsgLength ≤ bufsiz) (hfresh : e.freshByte = 0)
    (hopen : 0 ≤ (s.fds k).fd) (hsend : e.sendOk = true) (chunk : List Byte) :
    ∃ s' evs, greetWithBitfield ans s k chunk e = .ok (s', .greeted k chunk :: evs) ∧
      (s'.connections k).peerBitfield = some payload := by
  have hlen : (ownHandshake ++ payload).length ≤ bufsiz := by
    rw [List.length_append, length_ownHandshake, hpayload]
    exact hfits
  have hcheck : verifyHandshake (s.bufPtr e) fileSha e.freshByte = 0 := by
    rw [bufPtr_chunk hbuf hlen, Mem.of_append, verifyHandshake_own, if_pos hfresh]
  -- the eight bytes that the check zeroes lie in the handshake
  have hstored : setPeerBitfield
      (Client.bufPtr { s with buffer := s.buffer.write 0 (List.replicate 8 0) } e)
      ans.bitfieldMsgLength = payload := by
    rw [setPeerBitfield]
    apply ext_getD
    · rw [Mem.length_read, hpayload]
    · intro i hi
      rw [Mem.length_read] at hi
      have hbound : fullHandshakeLength + i < bufsiz := by omega
      have hzeroed : 0 + (List.replicate 8 (0 : Byte)).length ≤ fullHandshakeLength + i := by
        rw [List.length_replicate, fullHandshakeLength]
        omega
      rw [Mem.getD_read _ hi, Mem.advance, Client.bufPtr, if_pos hbound]
      dsimp only
      rw [Mem.write_out (.inr hzeroed), hbuf, Mem.write_zero, Mem.of_append,
        ← length_ownHandshake]
      show (Mem.of ownHandshake _).advance ownHandshake.length i = _
      rw [Mem.advance_of, Mem.of_lt (by omega)]
  have hopen' : ∀ f : Connections → Connections, 0 ≤ ((Client.modifyConn
      { s with buffer := s.buffer.write 0 (List.replicate 8 0) } k f).fds k).fd := fun _ => hopen
  rw [greetWithBitfield, checkHandshake, if_neg (by rw [hcheck]; decide)]
  dsimp only
  rw [hstored, transmit_of_open _ _ (hopen' _) hsend]
  refine ⟨_, _, rfl, ?_⟩
  split <;> simp [Client.clearBuffer, Client.modifyConn, sendInterested, sendUninterested]

/-- The five-byte shift does not show exactly when the bitfield repeats the
header. -/
theorem shift_hidden_iff {header own bits : List Byte} {n : Nat}
    (hbits : ∀ j, j < n → bits[j]? = if j < 5 then header[j]? else own[j - 5]?) :
    (∀ j, j < n → bits[j]? = own[j]?) ↔ ∀ j, j < n → own[j]? = header[j % 5]? := by
  constructor
  · intro hsame j
    induction j using Nat.strongRecOn with
    | ind j ih =>
        intro hj
        rw [← hsame j hj, hbits j hj]
        by_cases hfirst : j < 5
        · rw [if_pos hfirst, Nat.mod_eq_of_lt hfirst]
        · rw [if_neg hfirst, ih (j - 5) (by omega) (by omega), ← Nat.mod_eq_sub_mod (by omega)]
  · intro hrepeat j hj
    rw [hbits j hj, hrepeat j hj]
    by_cases hfirst : j < 5
    · rw [if_pos hfirst, Nat.mod_eq_of_lt hfirst]
    · rw [if_neg hfirst, hrepeat (j - 5) (by omega), ← Nat.mod_eq_sub_mod (by omega)]

/-- **The bitfield exchange.** A answers a handshake, and B receives exactly
those bytes, as far as its buffer holds them. B takes them for a handshake
with a bitfield and stores A's own bitfield exactly when they fit the buffer,
the byte behind B's copy of the protocol name is zero, and A's bitfield is
the repetition of the five header bytes. -/
theorem bitfield_exchange_iff {sha1 : List Byte → Digest} {ans : BtInfo} {a a' b : Client}
    {i k : Nat} {h c : Chunk} {eA eB : Env} {evs : List Event} {intro : List Byte}
    (hown : a.ownBitfield.length = ans.bitfieldBytes)
    (hhandshake : h.bytes.length = fullHandshakeLength)
    (hreceive : receive sha1 ans a i (.chunk h) eA = .ok (a', evs))
    (hintro : .introduced i intro ∈ evs) (hc : c.bytes = intro.take bufsiz)
    (hopen : 0 ≤ (b.fds k).fd) (hsend : eB.sendOk = true) :
    TakesBitfield sha1 ans b k c eB a.ownBitfield ↔
      fullHandshakeLength + ans.bitfieldMsgLength ≤ bufsiz ∧ eB.freshByte = 0 ∧
        ∀ j, j < ans.bitfieldBytes → a.ownBitfield[j]? = (bitfieldHeader ans)[j % 5]? := by
  have hbytes := intro_of_receive hhandshake hreceive hintro
  have hpayload := length_introPayload ans a.ownBitfield eA
  have hlen : intro.length = fullHandshakeLength + ans.bitfieldMsgLength := by
    rw [hbytes, List.length_append, length_ownHandshake, hpayload]
  have hshift := shift_hidden_iff fun j hj => introPayload_getElem? (e := eA) hown hj
  rw [TakesBitfield, ← hshift]
  by_cases hfits : fullHandshakeLength + ans.bitfieldMsgLength ≤ bufsiz
  · have hall : c.bytes = ownHandshake ++ introPayload ans a.ownBitfield eA := by
      rw [hc, List.take_of_length_le (by omega), hbytes]
    have hclen : c.bytes.length = fullHandshakeLength + ans.bitfieldMsgLength := by
      rw [hall, ← hbytes, hlen]
    have hbare : c.bytes.length ≠ fullHandshakeLength := by
      rw [hclen, BtInfo.bitfieldMsgLength]
      omega
    have hcase : receive sha1 ans b k (.chunk c) eB
        = greetWithBitfield ans { b with buffer := b.buffer.write 0 c.bytes } k c.bytes eB := by
      rw [receive, if_neg hbare, if_pos hclen]
    rw [hcase]
    by_cases hfresh : eB.freshByte = 0
    · have hbuf : ({ b with buffer := b.buffer.write 0 c.bytes } : Client).buffer
          = b.buffer.write 0 (ownHandshake ++ introPayload ans a.ownBitfield eA) := by rw [hall]
      obtain ⟨b', evs', hgreet, hstored⟩ :=
        greetWithBitfield_stores hbuf hpayload hfits hfresh hopen hsend c.bytes
      rw [hgreet]
      constructor
      · rintro ⟨-, b'', evs'', bits, hok, -, hbits, hsame⟩
        cases hok
        rw [hstored] at hbits
        cases hbits
        exact ⟨hfits, hfresh, hsame⟩
      · rintro ⟨-, -, hsame⟩
        exact ⟨hclen, b', _, _, rfl, by simp, hstored, hsame⟩
    · -- the check reads one byte too many and exits
      have hcheck : verifyHandshake (Client.bufPtr { b with buffer := b.buffer.write 0 c.bytes } eB)
          fileSha eB.freshByte = -2 := by
        rw [bufPtr_chunk rfl c.fits, hall, Mem.of_append, verifyHandshake_own, if_neg hfresh]
      rw [greetWithBitfield, checkHandshake, if_pos (by rw [hcheck]; decide)]
      constructor
      · rintro ⟨-, b', evs', bits, hok, -⟩
        cases hok
      · rintro ⟨-, hzero, -⟩
        exact absurd hzero hfresh
  · constructor
    · rintro ⟨hclen, -⟩
      rw [hc, List.length_take, hlen] at hclen
      omega
    · rintro ⟨h, -⟩
      exact absurd h hfits

/-- What a client with eight pieces and the own bitfield `own` answers to a
handshake. -/
def answerBytes (own : Byte) : List Byte :=
  ownHandshake ++ [2, 0, 0, 0, MsgID.bitfield.byte, own] ++ List.replicate 8 0

def answerChunk (own : Byte) : Chunk :=
  ⟨answerBytes own, Nat.le_of_ble_eq_true rfl, Nat.le_of_ble_eq_true rfl⟩

theorem answer_sent (sha1 : List Byte → Digest) (own : Byte) :
    ∃ a' evs, receive sha1 eightPieces { greeted with ownBitfield := [own] } 1
        (.chunk ⟨ownHandshake, by decide, by decide⟩) .calm = .ok (a', evs) ∧
      .introduced 1 (answerBytes own) ∈ evs := by
  refine ⟨_, _, rfl, ?_⟩
  exact List.mem_cons_of_mem _ (List.mem_singleton_self _)

/-- With eight pieces the header starts with 2. A client whose bitfield is
that byte is understood. -/
theorem bitfield_exchange_iff_header :
    TakesBitfield (fun _ => ⟨List.replicate 20 0, rfl⟩) eightPieces greeted 1 (answerChunk 2) .calm
      [2] := by
  obtain ⟨a', evs, hreceive, hintro⟩ := answer_sent (fun _ => ⟨List.replicate 20 0, rfl⟩) 2
  refine (bitfield_exchange_iff rfl rfl hreceive hintro rfl ?_ rfl).mpr ⟨?_, rfl, ?_⟩
  · exact Int.natCast_nonneg 6
  · exact Nat.le_of_ble_eq_true rfl
  · intro j hj
    obtain rfl : j = 0 := by
      have hone : eightPieces.bitfieldBytes = 1 := rfl
      omega
    rfl

/-- A client that has all eight pieces is taken for one that has piece 6. -/
theorem bitfield_exchange_iff_full :
    ¬ ∃ sha1 : List Byte → Digest, ∀ (ans : BtInfo) (a a' b : Client) (i k : Nat) (h c : Chunk)
      (eA eB : Env) (evs : List Event) (intro : List Byte),
      a.ownBitfield.length = ans.bitfieldBytes → h.bytes.length = fullHandshakeLength →
      receive sha1 ans a i (.chunk h) eA = .ok (a', evs) → .introduced i intro ∈ evs →
      c.bytes = intro.take bufsiz → 0 ≤ (b.fds k).fd → eB.sendOk = true → eB.freshByte = 0 →
      TakesBitfield sha1 ans b k c eB a.ownBitfield := by
  rintro ⟨sha1, hclaim⟩
  obtain ⟨a', evs, hreceive, hintro⟩ := answer_sent sha1 255
  obtain ⟨-, b', evs', bits, hok, -, hbits, hsame⟩ := hclaim eightPieces _ a' greeted 1 1 _
    (answerChunk 255) _ .calm evs _ rfl rfl hreceive hintro rfl (Int.natCast_nonneg 6) rfl rfl
  have hstored : ∃ rest, bits = 2 :: rest := by
    cases hok
    cases hbits
    exact ⟨_, rfl⟩
  obtain ⟨rest, rfl⟩ := hstored
  have hfirst := hsame 0 (by decide)
  revert hfirst
  simp

end DubstepDucks.Torrent
