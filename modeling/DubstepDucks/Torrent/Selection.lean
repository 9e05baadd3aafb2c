import DubstepDucks.Torrent.Pieces

/-!
# Torrent — which piece is asked for, and of whom

The request choice loop counts with the `i` of the loop around it. It looks
at bit `i` of the first byte of the own bitfield and of the bitfield of slot
`i`, least significant bit first, and `Send_request` then goes to slot `i`.
`choosePiece_cases` says where the loop stops and with which index;
`request_selection_iff` says when that is a piece the slot being served has
and the client lacks.
-/

namespace DubstepDucks.Torrent

open CMem Btp

/-- The test of the choice loop in its round `i`. -/
def wants (s : Client) (e : Env) (i : Nat) : Bool :=
  match (s.connections i).peerBitfield with
  | none => false
  | some bits =>
      !shiftedBit (Mem.of s.ownBitfield e.behindOwn 0) i &&
        shiftedBit (Mem.of bits e.behindPeer 0) i

/-! ## The choice loop -/

/-- Where the loop stops: at the first slot it wants, with the slot's number
as the index, or behind the last piece, with `piece_index` as it was. -/
theorem choosePiece_cases {s : Client} {e : Env} {fuel i j : Nat} {p : CInt}
    (h : choosePiece s e fuel i = .ok (j, p)) :
    i ≤ j ∧ (∀ m, i ≤ m → m < j → wants s e m = false) ∧
      ((j < i + fuel ∧ wants s e j = true ∧ p = BitVec.ofNat 32 j) ∨
        (j = i + fuel ∧ p = e.pieceIndex)) := by
  induction fuel generalizing i with
  | zero =>
      cases h
      exact ⟨Nat.le_refl _, fun m hm hlt => by omega, .inr ⟨rfl, rfl⟩⟩
  | succ fuel ih =>
      rw [choosePiece] at h
      split at h
      · cases h
      · split at h
        · cases h
        · next bits hbits =>
          dsimp only at h
          split at h
          · next hwanted =>
            cases h
            refine ⟨Nat.le_refl _, fun m hm hlt => by omega, .inl ⟨by omega, ?_, rfl⟩⟩
            rw [wants, hbits]
            exact hwanted
          · next hpassed =>
            obtain ⟨hle, hbefore, hstop⟩ := ih h
            refine ⟨by omega, ?_, ?_⟩
            · intro m hm hlt
              rcases Nat.eq_or_lt_of_le hm with heq | hgt
              · subst heq
                rw [wants, hbits]
                exact Bool.not_eq_true _ ▸ hpassed
              · exact hbefore m hgt hlt
            · rcases hstop with ⟨hlt, hwanted, hp⟩ | ⟨hend, hp⟩
              · exact .inl ⟨by omega, hwanted, hp⟩
              · exact .inr ⟨by omega, hp⟩

/-- The loop reaches slot `k` when no earlier slot stops or breaks it. -/
theorem choosePiece_reaches {s : Client} {e : Env} {fuel i k : Nat} (hik : i ≤ k)
    (hend : k ≤ i + fuel) (hslot : k < maxPeers)
    (hbits : ∀ m, i ≤ m → m < k → (s.connections m).peerBitfield ≠ none)
    (hbefore : ∀ m, i ≤ m → m < k → wants s e m = false)
    (hstop : k < i + fuel → wants s e k = true) :
    ∃ p, choosePiece s e fuel i = .ok (k, p) := by
  induction fuel generalizing i with
  | zero =>
      obtain rfl : i = k := by omega
      exact ⟨e.pieceIndex, rfl⟩
  | succ fuel ih =>
      rw [choosePiece, if_neg (by omega)]
      rcases Nat.eq_or_lt_of_le hik with heq | hlt
      · subst heq
        have hwanted := hstop (by omega)
        rw [wants] at hwanted
        cases hi : (s.connections i).peerBitfield with
        | none =>
            rw [hi] at hwanted
            cases hwanted
        | some bits =>
            rw [hi] at hwanted
            exact ⟨BitVec.ofNat 32 i, if_pos hwanted⟩
      · have hpassed := hbefore i (Nat.le_refl _) hlt
        cases hi : (s.connections i).peerBitfield with
        | none => exact absurd hi (hbits i (Nat.le_refl _) hlt)
        | some bits =>
            rw [wants, hi] at hpassed
            dsimp only at hpassed ⊢
            rw [hpassed]
            exact ih (by omega) (by omega) (fun m hm => hbits m (by omega))
              (fun m hm => hbefore m (by omega)) (fun hk => hstop (by omega))

/-! ## The calls of `Send_request` -/

/-- Where the guards hold, the send part of the pass is the search for a
piece. -/
theorem serve_of_reachesRequest {ans : BtInfo} {s : Client} {k : Nat} {e : Env}
    (h : ReachesRequest ans s k e) : serve ans s k e = requestPiece ans s k e := by
  obtain ⟨bits, hbits, hwanted⟩ := h.wanted
  simp only [serve, h.ready, h.idle, h.interested, h.unchoked, hbits, hwanted]
  simp

/-- A `REQUEST` goes out in no other branch. -/
theorem reachesRequest_of_sent {ans : BtInfo} {s s' : Client} {k turn j : Nat} {e : Env}
    {evs : List Event} {p o n : CInt} (h : serve ans s k e = .ok (s', evs))
    (hsent : .sent turn j (.request p o n) ∈ evs) :
    ReachesRequest ans s k e ∧ choosePiece s e ans.numPieces 0 = .ok (j, p) ∧ j < maxPeers := by
  rcases serve_cases h with
    ⟨-, rfl⟩ | ⟨-, h⟩ | ⟨-, -, h⟩ | ⟨f, hf, h⟩ | ⟨hrequest, h⟩
  · cases hsent
  · obtain ⟨piece, s1, evs1, evs2, -, hsmash, hsend, rfl⟩ := uploadPiece_ok h
    rcases List.mem_append.mp hsent with hmem | hmem
    · rcases hsmash with ⟨-, rfl⟩ | hsmash
      · cases hmem
      · rw [(smash_ok hsmash).1] at hmem
        simp at hmem
    · rw [(transmit_ok hsend).2] at hmem
      simp [sendPiece] at hmem
  · rw [(transmit_ok h).2] at hsent
    simp [sendUnchoked] at hsent
  · rw [(transmit_ok h).2] at hsent
    rcases hf with rfl | rfl <;> simp [sendInterested, sendUninterested] at hsent
  · obtain ⟨i, q, hchoice, hslot, hsend⟩ := requestPiece_ok h
    rw [(transmit_ok hsend).2] at hsent
    simp only [sendRequest, List.mem_singleton, Event.sent.injEq, WireMsg.request.injEq] at hsent
    obtain ⟨-, rfl, rfl, -, -⟩ := hsent
    exact ⟨hrequest, hchoice, hslot⟩

/-- In a state that the loop reaches from `s₀`, the pass for slot `k` has
received and left `s`, and its POLLOUT branch calls `Send_request` with the
socket and the record of slot `j` and the index `p`. -/
structure RequestCall (sha1 : List Byte → Digest) (ans : BtInfo) (s₀ s : Client) (k : Nat) (e : Env)
    (j : Nat) (p : CInt) : Prop where
  reached : ∃ log before r eRecv evs, Run sha1 ans s₀ log before ∧ before.i = k ∧
    k ≤ before.maxPeerIndex ∧ 0 ≤ (before.fds k).fd ∧
    receive sha1 ans before k r eRecv = .ok (s, evs)
  branch : ReachesRequest ans s k e
  choice : choosePiece s e ans.numPieces 0 = .ok (j, p)
  slot : j < maxPeers

/-- Piece `p` is one of the file, slot `k` has it and the client lacks it. -/
def Useful (ans : BtInfo) (s : Client) (k : Nat) (p : CInt) : Prop :=
  0 ≤ p.toInt ∧ p.toInt < ans.numPieces ∧
    (∃ bits, (s.connections k).peerBitfield = some bits ∧ hasPiece bits p.toNat = true) ∧
    hasPiece s.ownBitfield p.toNat = false

/-- The choice loop passes over every slot before `k`. Then it stops at `k`
and piece `k` is useful; or there is no piece `k`, and `piece_index` happens
to be useful without being set. -/
def ChoosesUseful (ans : BtInfo) (s : Client) (k : Nat) (e : Env) : Prop :=
  (∀ m, m < k → wants s e m = false) ∧
    ((k < ans.numPieces ∧ wants s e k = true ∧ Useful ans s k (BitVec.ofNat 32 k)) ∨
      (k = ans.numPieces ∧ Useful ans s k e.pieceIndex))

/-- **Piece selection.** In every reachable state, a call of `Send_request`
in the turn of slot `k` goes to slot `k` and asks for a useful piece exactly
when the choice loop finds the bitfields as `ChoosesUseful` says. -/
theorem request_selection_iff {sha1 : List Byte → Digest} {ans : BtInfo} {s₀ s : Client}
    {k j : Nat} {e : Env} {p : CInt} (h : RequestCall sha1 ans s₀ s k e j p) :
    j = k ∧ Useful ans s k p ↔ ChoosesUseful ans s k e := by
  obtain ⟨-, hbefore, hstop⟩ := choosePiece_cases h.choice
  rw [Nat.zero_add] at hstop
  constructor
  · rintro ⟨rfl, huseful⟩
    refine ⟨fun m hm => hbefore m (Nat.zero_le m) hm, ?_⟩
    rcases hstop with ⟨hlt, hwanted, rfl⟩ | ⟨hend, rfl⟩
    · exact .inl ⟨hlt, hwanted, huseful⟩
    · exact .inr ⟨hend, huseful⟩
  · rintro ⟨hpassed, hchoice⟩
    -- the loop cannot have stopped before `k`, nor gone past it
    have hle : k ≤ j := by
      rcases hstop with ⟨-, hwanted, -⟩ | ⟨hend, -⟩
      · by_contra hlt
        rw [hpassed j (by omega)] at hwanted
        cases hwanted
      · rcases hchoice with ⟨hlt, -⟩ | ⟨hk, -⟩ <;> omega
    rcases hchoice with ⟨hlt, hwanted, huseful⟩ | ⟨hk, huseful⟩
    · have hjk : j = k := by
        rcases Nat.eq_or_lt_of_le hle with heq | hgt
        · exact heq.symm
        · rw [hbefore k (Nat.zero_le k) hgt] at hwanted
          cases hwanted
      rcases hstop with ⟨-, -, rfl⟩ | ⟨hend, -⟩
      · rw [hjk]
        exact ⟨rfl, huseful⟩
      · omega
    · rcases hstop with ⟨hlt, -, -⟩ | ⟨hend, rfl⟩
      · omega
      · exact ⟨by omega, huseful⟩

/-- The peer of slot 1 sends its handshake with `bits` behind it, unchokes
the client, and the next round starts. -/
def helloInputs (bits : Byte) : List Input :=
  session [.chunk ⟨ownHandshake ++ bits :: List.replicate 13 0, Nat.le_of_ble_eq_true rfl,
        Nat.le_of_ble_eq_true rfl⟩,
      .msg (.state MsgID.unchoke.byte) (by decide)] ++
    [.round (.ready (fun _ => true) none)]

/-- In the turn after that the client asks slot 1 for piece 1, whichever end
of the byte bit 1 is counted from. -/
theorem hello_call (sha1 : List Byte → Digest) {bits : Byte} (h : bits = 66 ∨ bits = 2) :
    ∃ s, RequestCall sha1 eightPieces (joined eightPieces) s 1 .calm 1 1 ∧
      (s.connections 0).peerBitfield = some [0] ∧
      (s.connections 1).peerBitfield = some (bits :: List.replicate 13 0) ∧
      s.ownBitfield = [0] := by
  rcases h with rfl | rfl
  · refine ⟨_, ⟨⟨_, _, .msg (.state MsgID.interested.byte) (by decide), .calm, _,
      Run.start.execute (rfl : execute _ _ _ (helloInputs 66) = some _), rfl, ?_, ?_, rfl⟩,
      ?_, ?_, ?_⟩, rfl, rfl, rfl⟩
    · exact Nat.le_refl 1
    · exact Int.natCast_nonneg 6
    · exact (reachesRequest_of_sent rfl (List.mem_singleton_self
        (Event.sent 1 1 (.request 1 0 0)))).1
    · rfl
    · decide
  · refine ⟨_, ⟨⟨_, _, .msg (.state MsgID.interested.byte) (by decide), .calm, _,
      Run.start.execute (rfl : execute _ _ _ (helloInputs 2) = some _), rfl, ?_, ?_, rfl⟩,
      ?_, ?_, ?_⟩, rfl, rfl, rfl⟩
    · exact Nat.le_refl 1
    · exact Int.natCast_nonneg 6
    · exact (reachesRequest_of_sent rfl (List.mem_singleton_self
        (Event.sent 1 1 (.request 1 0 0)))).1
    · rfl
    · decide

/-- Bits 1 and 6 are set, so it does not matter from which end the byte is
read: slot 1 has piece 1. -/
theorem request_selection_iff_symmetric :
    ∃ s, RequestCall (fun _ => ⟨List.replicate 20 0, rfl⟩) eightPieces (joined eightPieces) s 1
      .calm 1 1 ∧ Useful eightPieces s 1 1 := by
  obtain ⟨s, hcall, hzero, hone, hown⟩ :=
    hello_call (fun _ => ⟨List.replicate 20 0, rfl⟩) (.inl (rfl : (66 : Byte) = 66))
  refine ⟨s, hcall, ((request_selection_iff hcall).mpr ⟨?_, .inl ⟨by decide, ?_, ?_⟩⟩).2⟩
  · intro m hm
    obtain rfl : m = 0 := by omega
    rw [wants, hzero, hown]
    rfl
  · rw [wants, hone, hown]
    rfl
  · refine ⟨by decide, by decide, ⟨_, hone, by decide⟩, ?_⟩
    rw [hown]
    decide

/-- Only bit 1 is set, which announces piece 6. The client asks for piece 1. -/
theorem request_selection_iff_mirrored :
    ¬ ∃ sha1 : List Byte → Digest, ∀ (ans : BtInfo) (s₀ s : Client) (k j : Nat) (e : Env)
      (p : CInt), RequestCall sha1 ans s₀ s k e j p → j = k ∧ Useful ans s k p := by
  rintro ⟨sha1, hclaim⟩
  obtain ⟨s, hcall, -, hone, -⟩ := hello_call sha1 (.inr (rfl : (2 : Byte) = 2))
  obtain ⟨-, -, -, ⟨bits, hbits, hset⟩, -⟩ := hclaim _ _ _ _ _ _ _ hcall
  rw [hone] at hbits
  cases hbits
  revert hset
  decide

end DubstepDucks.Torrent
