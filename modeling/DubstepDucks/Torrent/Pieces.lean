import DubstepDucks.Torrent.Trace

/-!
# Torrent — what the client has, and what it wrote

The `PIECE` case of the main loop against what it is for: a block that
matches the hash of its piece goes into the file, and only then does the own
bitfield announce the piece.

Four things in the handler are computed apart from each other: the block
(from the wrong offset), the hash (picked by the slot), the bytes written
(`strcat` edits them first) and the bit (through a pointer whose low half is
the index). `own_bitfield_sound` says when they fit together over a whole
run; `piece_agreement` says exactly when one message is handled as it was
sent.
-/

namespace DubstepDucks.Torrent

open CMem Btp History

/-! ## The own bitfield -/

/-- The bit of piece `p`: byte `p/8`, bit `7 - p%8`. -/
def hasPiece (own : List Byte) (p : Nat) : Bool := (own.getD (p / 8) 0).getLsbD (7 - p % 8)

/-- `write_piece` put `bytes` into the file for piece `p`. -/
def WroteFor (p : Nat) (bytes : List Byte) (ev : Event) : Prop :=
  ∃ k q block shift, ev = .stored k q block bytes shift ∧ q.toNat = p

/-- The bytes last written for piece `p`. -/
def LastWritten (p : Nat) (bytes : List Byte) : List Event → Prop :=
  Since (WroteFor p bytes) fun ev => ∃ other, WroteFor p other ev

/-- Every piece the bitfield announces was last written with bytes that have
its hash. -/
def OwnSound (sha1 : List Byte → Digest) (ans : BtInfo) (log : List Event) (own : List Byte) :
    Prop :=
  ∀ p, p < ans.numPieces → hasPiece own p = true →
    ∃ bytes, LastWritten p bytes log ∧ ans.pieceHashes[p]? = some (sha1 bytes)

/-- The event announces nothing the file does not hold. A stored block must
be one of the first eight pieces, the int behind the clobbered pointer must
be the number of its bit, and the block, once `strcat` edited it, must have
the hash of the piece and be taken by `write` as a whole. A stray heap write
must set no bit. -/
def KeepsOwnSound (sha1 : List Byte → Digest) (ans : BtInfo) (own : List Byte) : Event → Prop
  | .stored _ p block written shift =>
      p.toNat < 8 ∧ shift.toNat % 32 = 7 - p.toNat ∧ written.length = ans.pieceLength ∧
        ans.pieceHashes[p.toNat]? = some (sha1 (newlined block))
  | .smashed own' => ∀ p, p < ans.numPieces → hasPiece own' p = true → hasPiece own p = true
  | _ => True

/-- A fresh bitfield announces nothing. -/
theorem hasPiece_setInitialBitfield (n p : Nat) : hasPiece (setInitialBitfield n) p = false := by
  have hzero : ∀ m i, (List.replicate m (0 : Byte)).getD i 0 = 0 := by
    intro m i
    rw [List.getD_eq_getElem?_getD, List.getElem?_replicate]
    split <;> rfl
  rw [hasPiece, setInitialBitfield, hzero]
  exact BitVec.getLsbD_zero

/-- The int shift, cut to a byte, sets the bit of its count. -/
theorem getLsbD_shift {c i : Nat} (hi : i < 8) :
    (((1 : CInt) <<< c).setWidth 8).getLsbD i = decide (i = c) := by
  rw [BitVec.getLsbD_setWidth, BitVec.getLsbD_shiftLeft]
  show (decide (i < 8) && (decide (i < 32) && !decide (i < c) && (1#32).getLsbD (i - c))) = _
  rw [BitVec.getLsbD_one]
  by_cases h : i = c
  · simp [h, show c < 8 by omega, show c < 32 by omega]
  · simp [h]
    omega

/-- Or-ing into the first byte announces at most the piece of that bit. -/
theorem hasPiece_setOwn {own : List Byte} {v : CInt} {p : Nat}
    (h : hasPiece (setOwn own v) p = true) :
    hasPiece own p = true ∨ (p < 8 ∧ v.toNat % 32 = 7 - p) := by
  by_cases hp : p < 8
  · have hbyte : p / 8 = 0 := Nat.div_eq_of_lt hp
    have hbit : p % 8 = p := Nat.mod_eq_of_lt hp
    cases own with
    | nil => exact .inl h
    | cons b own =>
        rw [hasPiece, hbyte, hbit, setOwn, List.modify_zero_cons, List.getD_cons_zero,
          BitVec.getLsbD_or, getLsbD_shift (by omega), Bool.or_eq_true, decide_eq_true_eq] at h
        rw [hasPiece, hbyte, hbit, List.getD_cons_zero]
        exact h.imp_right fun h => ⟨hp, h.symm⟩
  · left
    have hbyte : ¬ 0 = p / 8 := by omega
    simpa [hasPiece, setOwn, List.getD_eq_getElem?_getD, List.getElem?_modify, hbyte] using h

theorem OwnSound.step {sha1 : List Byte → Digest} {ans : BtInfo} {log : List Event} {v : View}
    {ev : Event} (h : OwnSound sha1 ans log v.own) (hguard : guard ans v ev)
    (hkeep : KeepsOwnSound sha1 ans v.own ev) :
    OwnSound sha1 ans (log ++ [ev]) (effect v ev).own := by
  -- an event that writes no piece and sets no bit
  have hquiet : ∀ own',
      (∀ p, p < ans.numPieces → hasPiece own' p = true → hasPiece v.own p = true) →
      (∀ p bytes, ¬ WroteFor p bytes ev) → OwnSound sha1 ans (log ++ [ev]) own' := by
    intro own' hown hwrote p hp hset
    obtain ⟨bytes, hlast, hhash⟩ := h p hp (hown p hp hset)
    refine ⟨bytes, since_concat.mpr (.inr ⟨hlast, ?_⟩), hhash⟩
    rintro ⟨other, hother⟩
    exact hwrote p other hother
  cases ev with
  | stored k q block written shift =>
      obtain ⟨hlt, hshift, hfull, hhash⟩ := hkeep
      obtain ⟨hblock, hwritten⟩ := hguard
      have hbytes : written = newlined block := by
        rw [hwritten, hfull, ← hblock, ← length_newlined, List.take_length]
      intro p hp hset
      by_cases hpq : q.toNat = p
      · refine ⟨written, since_concat.mpr (.inl ⟨k, q, block, shift, rfl, hpq⟩), ?_⟩
        rw [← hpq, hbytes, hhash]
      · have hbefore : hasPiece v.own p = true := by
          rcases hasPiece_setOwn hset with hbefore | ⟨hp8, hbit⟩
          · exact hbefore
          · omega
        obtain ⟨bytes, hlast, hp'⟩ := h p hp hbefore
        refine ⟨bytes, since_concat.mpr (.inr ⟨hlast, ?_⟩), hp'⟩
        rintro ⟨other, k', q', block', shift', heq, hq'⟩
        cases heq
        exact hpq hq'
  | smashed own' => exact hquiet own' hkeep fun p bytes ⟨_, _, _, _, heq, _⟩ => by cases heq
  | _ => exact hquiet _ (fun _ _ h => h) fun p bytes ⟨_, _, _, _, heq, _⟩ => by cases heq

/-- **The own bitfield is sound** in every state of a run whose stored
blocks and heap writes keep it so. -/
theorem own_bitfield_sound {sha1 : List Byte → Digest} {ans : BtInfo} {s₀ s : Client}
    {log : List Event} (hstart : s₀.ownBitfield = setInitialBitfield ans.numPieces)
    (hrun : Run sha1 ans s₀ log s)
    (hkeep : ∀ pre ev, pre ++ [ev] <+: log →
      KeepsOwnSound sha1 ans ((machine ans).after s₀.view pre).own ev) :
    OwnSound sha1 ans log s.ownBitfield := by
  obtain ⟨hadmits, hview⟩ := run_traced hrun
  have hsound : OwnSound sha1 ans log ((machine ans).after s₀.view log).own := by
    apply hadmits.invariant fun log v => OwnSound sha1 ans log v.own
    · intro p _ hset
      have hnone : hasPiece s₀.ownBitfield p = false := by
        rw [hstart, hasPiece_setInitialBitfield]
      rw [Client.view, hnone] at hset
      cases hset
    · intro pre ev hpre hguard hinv
      exact OwnSound.step hinv hguard (hkeep pre ev hpre)
    · exact List.prefix_rfl
  rwa [← hview] at hsound

/-- Twenty-one pieces of four bytes with one hash. -/
def alike (d : Digest) : BtInfo where
  numPieces := 21
  pieceLength := 4
  pieceHashes := List.replicate 21 d
  numPieces_pos := by decide
  numPieces_lt := by decide
  pieceLength_pos := eightPieces.pieceLength_pos
  pieceLength_lt := eightPieces.pieceLength_lt
  hashes_length := List.length_replicate

/-- SHA1 of `"ABCD"`. -/
def shaOfABCD : Digest :=
  ⟨[251, 47, 133, 200, 133, 103, 243, 200, 206, 155, 121, 156, 124, 84, 100, 45, 12, 123, 65, 246],
    rfl⟩

/-- SHA1 of the bytes 0, 0, 0, 1. -/
def shaOfOne : Digest :=
  ⟨[71, 158, 4, 243, 209, 45, 17, 43, 92, 4, 201, 238, 103, 228, 177, 230, 226, 1, 234, 78], rfl⟩

/-- The third argument happens to be the piece length, and the index `addr`,
as an address, happens to hold the int `v`. -/
def Env.pointing (addr : BitVec 64) (v : CInt) : Env :=
  { Env.calm with
    heapPtr := addr
    load := fun a => if a = addr then some v else none
    thirdArg := 4 }

/-- Piece 1 is stored: its bytes reach into the block offset, and the int at
the clobbered address is 6. -/
theorem own_bitfield_sound_stored :
    ∃ s, Run (fun _ => shaOfABCD) (alike shaOfABCD) (joined (alike shaOfABCD))
        [.heard 1 (WireMsg.piece 1 0x43424100 4 [68, 0, 0, 0]).bytes (.piece 1),
          .stored 1 1 [65, 66, 67, 68] [65, 66, 67, 68] 6,
          .sent 1 1 (.state MsgID.uninterested.byte)] s ∧
      OwnSound (fun _ => shaOfABCD) (alike shaOfABCD)
        [.heard 1 (WireMsg.piece 1 0x43424100 4 [68, 0, 0, 0]).bytes (.piece 1),
          .stored 1 1 [65, 66, 67, 68] [65, 66, 67, 68] 6,
          .sent 1 1 (.state MsgID.uninterested.byte)] s.ownBitfield := by
  obtain ⟨s, hrun⟩ := run_of_log (show (execute (fun _ => shaOfABCD) (alike shaOfABCD)
      (joined (alike shaOfABCD))
      [.round (.ready (fun _ => true) (some 6)),
        .turn (.msg (.piece 1 0x43424100 4 [68, 0, 0, 0]) (by decide))
          (.pointing 0x7f0000000001 6) .calm]).map Prod.snd = some _ from rfl)
  refine ⟨s, hrun, own_bitfield_sound rfl hrun ?_⟩
  simp only [forall_prefix_cons, forall_prefix_nil]
  exact ⟨trivial, ⟨by decide, by decide, rfl, rfl⟩, trivial, trivial⟩

/-- The index of a `PIECE` message is dereferenced as an address. At
`0x400014` a program that is loaded at `0x400000` holds the version field of
its own header, which is 1: the client announces piece 6, for which nothing
was ever written. -/
theorem own_bitfield_sound_wrong_bit :
    ¬ ∀ (sha1 : List Byte → Digest) (ans : BtInfo) (s₀ s : Client) (log : List Event),
      s₀.ownBitfield = setInitialBitfield ans.numPieces → Run sha1 ans s₀ log s →
        OwnSound sha1 ans log s.ownBitfield := by
  intro hclaim
  have hexecute : (execute (fun _ => shaOfOne) (alike shaOfOne) (joined (alike shaOfOne))
      [.round (.ready (fun _ => true) (some 6)),
        .turn (.msg (.piece 0x400014 0 4 [1, 2, 3, 4]) (by decide)) (.pointing 0x400014 1)
          .calm]).map (fun r => (r.2, r.1.ownBitfield))
      = some ([.heard 1 (WireMsg.piece 0x400014 0 4 [1, 2, 3, 4]).bytes (.piece 0x400014),
          .stored 1 0x400014 [0, 0, 0, 1] [10, 0, 0, 1] 1,
          .sent 1 1 (.state MsgID.uninterested.byte)], [2, 0, 0]) := rfl
  obtain ⟨⟨s, log⟩, hexecute, heq⟩ := Option.map_eq_some_iff.mp hexecute
  obtain ⟨rfl, hown⟩ := Prod.mk.inj heq
  have hsound := hclaim _ _ _ _ _ rfl (Run.start.execute hexecute)
  rw [hown] at hsound
  obtain ⟨bytes, hlast, -⟩ := hsound 6 (by decide) (by decide)
  obtain ⟨ev, hmem, k, q, block, shift, rfl, hq⟩ := hlast.exists_mem
  simp at hmem
  rw [hmem.2.1] at hq
  exact absurd hq (by decide)

/-! ## One message -/

/-- What handling `construct_piece_message(p, 0, piece_len, data)` on slot
`k` should do: extract `data`; write it at its offset if it has the hash of
piece `p`; and otherwise store nothing. -/
structure PieceAgreement (sha1 : List Byte → Digest) (ans : BtInfo) (s : Client) (k : Nat)
    (p : CInt) (data : List Byte) (e : Env) (msg : Mem) : Prop where
  extracts : pieceBlock ans msg = data
  stores : ans.pieceHashes[p.toNat]? = some (sha1 data) →
    ∃ s' block shift content, handlePiece sha1 ans s k msg e
        = .ok (s', [.stored k p block data shift]) ∧
      s.file = some content ∧ s'.file = some (fileWrite content (p.toNat * ans.pieceLength) data)
  rejects : ans.pieceHashes[p.toNat]? ≠ some (sha1 data) →
    ∃ s', handlePiece sha1 ans s k msg e = .ok (s', []) ∧ s'.file = s.file ∧
      s'.ownBitfield = s.ownBitfield ∧ s'.connections k = s.connections k

/-- The message in memory, as `get_next_msg` returns it. -/
def pieceMsg (ans : BtInfo) (p : CInt) (data : List Byte) (e : Env) : Mem :=
  Mem.of (constructPieceMessage p 0 ans.pieceSizeBytes data) e.behindMsg

/-- The check the handler makes answers "not verified": the hash is the one
picked by the slot number, the length is the argument that was not passed. -/
def SlotRejects (sha1 : List Byte → Digest) (ans : BtInfo) (s : Client) (k : Nat)
    (data : List Byte) (e : Env) : Prop :=
  ∃ expected, ans.hashAt (k * 20) e = some expected ∧
    verifyPiece sha1 e.stack ((s.bufPtr e).write 0 data) expected e.thirdArg = some false

/-- The handler starts three bytes too early, inside the block offset. -/
theorem pieceBlock_pieceMsg {ans : BtInfo} {p : CInt} {data : List Byte} {e : Env}
    (hdata : data.length = ans.pieceLength) :
    pieceBlock ans (pieceMsg ans p data e) = ([0, 0, 0] ++ data).take ans.pieceLength := by
  have hbytes : constructPieceMessage p 0 ans.pieceSizeBytes data
      = (leBytes (9 + ans.pieceSizeBytes) ++ MsgID.piece.byte :: (leBytes p ++ [0])) ++
        ([0, 0, 0] ++ data) := by
    have htake : data.take ans.pieceSizeBytes.toNat = data := by
      rw [toNat_pieceSizeBytes, ← hdata, List.take_length]
    rw [constructPieceMessage, htake]
    simp [leBytes]
  rw [pieceBlock, pieceMsg, hbytes, Mem.of_append]
  show ((Mem.of (leBytes (9 + ans.pieceSizeBytes) ++ MsgID.piece.byte :: (leBytes p ++ [0]))
    _).advance (leBytes (9 + ans.pieceSizeBytes) ++ MsgID.piece.byte :: (leBytes p
      ++ [0])).length).read _ = _
  rw [Mem.advance_of, Mem.read_of_le (by simp [hdata]; omega)]

/-- Shifting a block by three zero bytes gives the block back only if it is
all zero. -/
theorem take_shifted_eq_iff (data : List Byte) :
    ([0, 0, 0] ++ data).take data.length = data ↔ data = List.replicate data.length 0 := by
  constructor
  · intro h
    have hget : ∀ i, i < data.length → data.getD i 0 = 0 := by
      intro i
      induction i using Nat.strongRecOn with
      | _ i ih =>
          intro hi
          have hi' : data.getD i 0 = ([0, 0, 0] ++ data).getD i 0 := by
            conv => lhs; rw [← h]
            simp [List.getD_eq_getElem?_getD, hi]
          by_cases h3 : i < 3
          · rw [hi', List.getD_append _ _ _ _ h3]
            rcases i with _ | _ | _ | i
            · rfl
            · rfl
            · rfl
            · omega
          · rw [hi', List.getD_append_right _ _ _ _ (by simp; omega)]
            exact ih (i - 3) (by omega) (by omega)
    apply ext_getD (by simp)
    intro i hi
    rw [hget i hi, List.getD_eq_getElem?_getD, List.getElem?_replicate, if_pos hi]
    rfl
  · intro h
    have hzero : [0, 0, 0] ++ data = List.replicate (3 + data.length) (0 : Byte) := by
      conv => lhs; rw [h]
      rw [← List.replicate_append_replicate]
      rfl
    rw [hzero, List.take_replicate, Nat.min_eq_left (by omega), ← h]

/-- `strcat` turns the first byte of an all-zero block into a newline. -/
theorem newlined_zeros_ne {n : Nat} (hn : 0 < n) :
    newlined (List.replicate n 0) ≠ List.replicate n 0 := by
  obtain ⟨n, rfl⟩ : ∃ m, n = m + 1 := ⟨n - 1, by omega⟩
  intro h
  have hhead := congrArg (·.getD 0 0) h
  simp [newlined, List.replicate_succ, List.findIdx?_cons] at hhead

/-- **PIECE sender and receiver agree** exactly on the all-zero blocks that
do not have the hash of their piece and that the slot's own check rejects:
any other block is extracted shifted by three bytes, and an all-zero one is
written with a newline in front. It has to fit the buffer with the unused
bytes behind it. -/
theorem piece_agreement {sha1 : List Byte → Digest} {ans : BtInfo} {s : Client} {k : Nat}
    {p : CInt} {data : List Byte} {e : Env} (hdata : data.length = ans.pieceLength) :
    PieceAgreement sha1 ans s k p data e (pieceMsg ans p data e) ↔
      data = List.replicate ans.pieceLength 0 ∧ ans.pieceHashes[p.toNat]? ≠ some (sha1 data) ∧
        ans.pieceLength ≤ e.room ∧ SlotRejects sha1 ans s k data e := by
  have hblock := pieceBlock_pieceMsg (p := p) (e := e) hdata
  have hzeros := take_shifted_eq_iff data
  rw [hdata, ← hblock] at hzeros
  constructor
  · intro h
    have hzero := hzeros.mp h.extracts
    have hhash : ans.pieceHashes[p.toNat]? ≠ some (sha1 data) := by
      intro hhash
      obtain ⟨s', block, shift, content, hhandle, -⟩ := h.stores hhash
      obtain ⟨-, -, -, expected, verified, -, -, hcases⟩ := handlePiece_cases hhandle
      rcases hcases with ⟨-, hevs, -⟩ | ⟨-, written, shift', hevs, hwritten, -⟩
      · cases hevs
      · simp only [List.cons.injEq, Event.stored.injEq, and_true] at hevs
        obtain ⟨-, -, -, hdata', -⟩ := hevs
        rw [← hdata', h.extracts, ← length_newlined, List.take_length, hzero] at hwritten
        exact newlined_zeros_ne ans.pieceLength_pos hwritten.symm
    obtain ⟨s', hhandle, -⟩ := h.rejects hhash
    obtain ⟨-, -, hlen, expected, verified, hexpected, hverify, hcases⟩ := handlePiece_cases hhandle
    refine ⟨hzero, hhash, hlen, expected, hexpected, ?_⟩
    rcases hcases with ⟨rfl, -, -⟩ | ⟨-, written, shift, hevs, -⟩
    · rwa [pieceBuffer, h.extracts] at hverify
    · cases hevs
  · rintro ⟨hzero, hhash, hlen, expected, hexpected, hverify⟩
    have hextracts := hzeros.mpr hzero
    refine ⟨hextracts, fun h => absurd h hhash, ?_⟩
    intro _
    refine ⟨{ s with buffer := (s.bufPtr e).write 0 data }, ?_, rfl, rfl, rfl⟩
    rw [handlePiece]
    simp only [pieceBuffer, hextracts, hexpected, hverify, if_neg (Nat.not_lt.mpr hlen)]

/-- SHA1 of four zero bytes. -/
def shaOfZeros : Digest :=
  ⟨[144, 105, 202, 120, 231, 69, 10, 40, 81, 115, 67, 27, 62, 82, 197, 194, 82, 153, 228, 115], rfl⟩

/-- An all-zero block for a piece with another hash is dropped, as it should
be. -/
theorem piece_agreement_zeros :
    PieceAgreement (fun _ => shaOfZeros) (alike shaOfABCD) (joined (alike shaOfABCD)) 1 3
      [0, 0, 0, 0] (.pointing 0 0) (pieceMsg (alike shaOfABCD) 3 [0, 0, 0, 0] (.pointing 0 0)) :=
  (piece_agreement rfl).mpr ⟨rfl, by decide, by decide, _, rfl, rfl⟩

/-- The block `"ABCD"` is extracted as three zero bytes and an `A`. -/
theorem piece_agreement_shifted :
    ¬ ∃ sha1 : List Byte → Digest, ∀ (ans : BtInfo) (s : Client) (k : Nat) (p : CInt)
      (data : List Byte) (e : Env), p.toNat < ans.numPieces → data.length = ans.pieceLength →
        PieceAgreement sha1 ans s k p data e (pieceMsg ans p data e) := by
  rintro ⟨sha1, hclaim⟩
  have hextracts := (hclaim eightPieces (joined eightPieces) 1 0 [65, 66, 67, 68] .calm (by decide)
    rfl).extracts
  revert hextracts
  decide

end DubstepDucks.Torrent
