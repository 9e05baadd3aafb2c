import DubstepDucks.CMem.Bitset
import DubstepDucks.Torrent.Dispatch
import DubstepDucks.Torrent.Grouping

/-!
# Torrent — what `HAVE` messages add up to

`case(HAVE)` reads an index out of the message and ors one bit into the
peer's bitfield: piece `q` is bit `7 - q % 8` of byte `q / 8`. A sequence of
such messages, built by `construct_have_message` for pieces the bitfield has
room for, adds exactly the named pieces (`handleHaves_spec`), so neither
their order nor a repetition matters.

The handler frees its scratch cell `test` with every message; here the cell
is valid again before each one.
-/

namespace DubstepDucks.Torrent

open CMem Btp

/-! ## The pieces of a bitfield -/

/-- Two bitfields of one length with the same pieces are the same bytes. -/
theorem eq_of_hasPiece {bits bits' : List Byte} (hlen : bits.length = bits'.length)
    (h : ∀ q, q < 8 * bits.length → hasPiece bits q = hasPiece bits' q) : bits = bits' := by
  apply ext_getD hlen
  intro i hi
  apply BitVec.eq_of_getLsbD_eq
  intro j hj
  have hpiece := h (8 * i + (7 - j)) (by omega)
  have hbyte : (8 * i + (7 - j)) / 8 = i := by omega
  have hbit : 7 - (8 * i + (7 - j)) % 8 = j := by omega
  rwa [hasPiece, hasPiece, hbyte, hbit] at hpiece

/-- One step: for a piece in the bitfield the write stays inside it, adds
that piece and leaves every other bit. -/
theorem setHave_spec {bits : List Byte} {p : CInt} (h0 : 0 ≤ p.toInt)
    (hlt : p.toInt < 8 * bits.length) :
    ∃ bits', setHave bits p = some bits' ∧ bits'.length = bits.length ∧
      ∀ q : Nat, q < 8 * bits.length →
        (hasPiece bits' q = true ↔ hasPiece bits q = true ∨ p.toInt = q) := by
  obtain ⟨n, hn⟩ : ∃ n : Nat, p.toInt = n := ⟨p.toInt.toNat, by omega⟩
  have hbyte : p.toInt.tdiv 8 = ((n / 8 : Nat) : Int) := by
    rw [hn, Int.tdiv_eq_ediv_of_nonneg (by omega)]
    rfl
  have hbit : (7 - p.toInt.tmod 8).toNat = 7 - n % 8 := by
    rw [hn, Int.tmod_eq_emod_of_nonneg (by omega)]
    omega
  have hin : n / 8 < bits.length := by omega
  rw [setHave, hbyte, hbit, if_pos (by omega)]
  refine ⟨_, rfl, List.length_modify .., ?_⟩
  intro q hq
  have hqin : q / 8 < bits.length := by omega
  rw [hasPiece, hasPiece, hn, List.getD_eq_getElem?_getD, List.getElem?_modify, Int.toNat_natCast,
    List.getElem?_eq_getElem hqin, List.getD_eq_getElem _ _ hqin]
  by_cases hsame : n / 8 = q / 8
  · simp only [if_pos hsame, Option.map_eq_map, Option.map_some, Option.getD_some]
    rw [getLsbD_or_shift _ (by omega), Bool.or_eq_true, decide_eq_true_eq]
    apply or_congr_right
    omega
  · simp only [if_neg hsame, Option.map_eq_map, Option.map_some, Option.getD_some]
    have hother : ¬ (n : Int) = q := by omega
    simp [hother]

/-! ## The messages one after another -/

theorem length_bytes_have (p : CInt) : (WireMsg.have p).bytes.length = 9 := rfl

theorem bytes_have_pos (p : CInt) : 0 < (WireMsg.have p).bytes.length := bytes_pos _

theorem bytes_have_fits (p : CInt) : (WireMsg.have p).bytes.length ≤ bufsiz := by
  rw [length_bytes_have, bufsiz]
  omega

/-- `construct_have_message(p)` as it is received. -/
def haveChunk (p : CInt) : Chunk := ⟨(WireMsg.have p).bytes, bytes_have_pos p, bytes_have_fits p⟩

/-- The `HAVE` messages received on slot `k`, each with the environment it is
handled in; the scratch cell is valid before each. -/
def handleHaves (sha1 : List Byte → Digest) (ans : BtInfo) (k : Nat) :
    Client → List (CInt × Env) → Except Stop Client
  | s, [] => .ok s
  | s, m :: ms =>
      match receive sha1 ans { s with testFreed := false } k (.chunk (haveChunk m.1)) m.2 with
      | .error stop => .error stop
      | .ok (s', _) => handleHaves sha1 ans k s' ms

variable {sha1 : List Byte → Digest} {ans : BtInfo} {k : Nat}

/-- A `HAVE` for a piece in the bitfield reaches its handler and stores what
`setHave` computes from the index it was built with. -/
theorem receive_have (sha1 : List Byte → Digest) (ans : BtInfo) {s : Client}
    {bits bits' : List Byte} {p : CInt} (e : Env) (hvalid : s.testFreed = false)
    (hbits : (s.connections k).peerBitfield = some bits) (hset : setHave bits p = some bits') :
    ∃ s' evs, receive sha1 ans s k (.chunk (haveChunk p)) e = .ok (s', evs) ∧
      (s'.connections k).peerBitfield = some bits' := by
  have hlen : (haveChunk p).bytes.length = 9 := length_bytes_have p
  have hnext : getNextMsg e.stack
      (Client.bufPtr { s with buffer := s.buffer.write 0 (haveChunk p).bytes } e)
      = some ⟨(WireMsg.have p).bytes, (WireMsg.have p).id,
          BitVec.ofNat 32 (WireMsg.have p).bytes.length⟩ :=
    getNextMsg_chunk trivial (haveChunk p).fits rfl
  have hindex : ((Mem.of (WireMsg.have p).bytes e.behindMsg).advance 5).readInt = p :=
    readInt_payload 5 p MsgID.have.byte [] e.behindMsg
  have hid : MsgID.ofByte (WireMsg.have p).id = some .have := rfl
  have hrecord : ∀ b, (Client.connections { s with buffer := b } k).peerBitfield = some bits :=
    fun _ => hbits
  rw [receive, if_neg (by rw [hlen, fullHandshakeLength]; omega),
    if_neg (by rw [hlen, fullHandshakeLength]; omega), receiveMsg, hnext]
  dsimp only
  rw [hid]
  dsimp only
  rw [hindex, handleHave, hrecord]
  dsimp only
  rw [hset]
  dsimp only
  rw [hvalid]
  refine ⟨_, _, rfl, ?_⟩
  dsimp only
  rw [modifyConn_self]

/-- Every message names a piece that a bitfield of `len` bytes has room for. -/
def InRange (len : Nat) (ms : List (CInt × Env)) : Prop :=
  ∀ m ∈ ms, 0 ≤ m.1.toInt ∧ m.1.toInt < 8 * len

/-- The sequence adds the pieces it names. By induction over the messages,
with the bitfield so far generalised. -/
theorem handleHaves_spec :
    ∀ {ms : List (CInt × Env)} {s : Client} {bits : List Byte},
      (s.connections k).peerBitfield = some bits → InRange bits.length ms →
      ∃ s' bits', handleHaves sha1 ans k s ms = .ok s' ∧
        (s'.connections k).peerBitfield = some bits' ∧ bits'.length = bits.length ∧
        ∀ q : Nat, q < 8 * bits.length →
          (hasPiece bits' q = true ↔ hasPiece bits q = true ∨ ∃ m ∈ ms, m.1.toInt = q) := by
  intro ms
  induction ms with
  | nil =>
      intro s bits hbits _
      refine ⟨s, bits, rfl, hbits, rfl, ?_⟩
      intro q _
      simp
  | cons m ms ih =>
      intro s bits hbits hrange
      obtain ⟨h0, hlt⟩ := hrange m (List.mem_cons_self ..)
      obtain ⟨bits1, hset, hlen1, hpieces1⟩ := setHave_spec h0 hlt
      have hsame : (Client.connections { s with testFreed := false } k).peerBitfield = some bits :=
        hbits
      obtain ⟨s1, evs, hreceive, hbits1⟩ := receive_have sha1 ans m.2 rfl hsame hset
      have hrest : InRange bits1.length ms := by
        intro m' hm'
        rw [hlen1]
        exact hrange m' (List.mem_cons_of_mem _ hm')
      obtain ⟨s', bits', hrun, hbits', hlen', hpieces'⟩ := ih hbits1 hrest
      refine ⟨s', bits', ?_, hbits', hlen'.trans hlen1, ?_⟩
      · rw [handleHaves, hreceive]
        exact hrun
      · intro q hq
        rw [hpieces' q (by omega), hpieces1 q hq, or_assoc]
        simp only [List.mem_cons, exists_eq_or_imp]

/-- **`HAVE` bookkeeping.** Whatever the bitfield of the peer and the sequence
of `HAVE` messages for pieces it has room for, a piece is in the bitfield
afterwards exactly when it was there before or was named; two sequences that
name the same pieces leave the same bytes. -/
theorem haves_add_up (sha1 : List Byte → Digest) (ans : BtInfo) (k : Nat) (s : Client)
    (bits : List Byte) (hbits : (s.connections k).peerBitfield = some bits)
    (ms : List (CInt × Env)) (hms : InRange bits.length ms) :
    ∃ s' bits', handleHaves sha1 ans k s ms = .ok s' ∧
      (s'.connections k).peerBitfield = some bits' ∧ bits'.length = bits.length ∧
      (∀ q : Nat, q < 8 * bits.length →
        (hasPiece bits' q = true ↔ hasPiece bits q = true ∨ ∃ m ∈ ms, m.1.toInt = q)) ∧
      ∀ ms', InRange bits.length ms' → (∀ p, (∃ m ∈ ms, m.1 = p) ↔ ∃ m ∈ ms', m.1 = p) →
        ∃ s'', handleHaves sha1 ans k s ms' = .ok s'' ∧
          (s''.connections k).peerBitfield = some bits' := by
  obtain ⟨s', bits', hrun, hbits', hlen', hpieces'⟩ := handleHaves_spec hbits hms
  refine ⟨s', bits', hrun, hbits', hlen', hpieces', ?_⟩
  intro ms' hms' hnamed
  obtain ⟨s'', bits'', hrun'', hbits'', hlen'', hpieces''⟩ := handleHaves_spec hbits hms'
  refine ⟨s'', hrun'', ?_⟩
  have hsame : bits'' = bits' := by
    apply eq_of_hasPiece (hlen''.trans hlen'.symm)
    intro q hq
    rw [Bool.eq_iff_iff, hpieces'' q (by omega), hpieces' q (by omega)]
    apply or_congr_right
    constructor
    · rintro ⟨m, hm, hq⟩
      obtain ⟨m', hm', hp⟩ := (hnamed m.1).mpr ⟨m, hm, rfl⟩
      exact ⟨m', hm', by rw [hp, hq]⟩
    · rintro ⟨m, hm, hq⟩
      obtain ⟨m', hm', hp⟩ := (hnamed m.1).mp ⟨m, hm, rfl⟩
      exact ⟨m', hm', by rw [hp, hq]⟩
  rw [hbits'', hsame]

/-- Pieces 3, 0 and 3 again, for a bitfield of one byte. -/
theorem haves_add_up_repeated :
    ∃ s' bits', handleHaves (fun _ => ⟨List.replicate 20 0, rfl⟩) eightPieces 1 greeted
        [(3, .calm), (0, .calm), (3, .calm)] = .ok s' ∧
      (s'.connections 1).peerBitfield = some bits' ∧ hasPiece bits' 3 = true ∧
      hasPiece bits' 4 = false := by
  have hbits : (greeted.connections 1).peerBitfield = some [0] := by decide
  have hrange : InRange [(0 : Byte)].length [(3, .calm), (0, .calm), (3, .calm)] := by
    simp [InRange]
  obtain ⟨s', bits', hrun, hbits', -, hpieces, -⟩ :=
    haves_add_up (fun _ => ⟨List.replicate 20 0, rfl⟩) eightPieces 1 greeted [0] hbits _ hrange
  refine ⟨s', bits', hrun, hbits', (hpieces 3 (by decide)).mpr (by simp), ?_⟩
  have hfour := hpieces 4 (by decide)
  simpa [hasPiece] using hfour

end DubstepDucks.Torrent
