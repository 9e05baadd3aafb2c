import DubstepDucks.Torrent.Dispatch

/-!
# Torrent — five sizes for one bitfield

The size of a bitfield of `n` pieces is `⌈n/8⌉` in `set_initial_bitfield`,
`n/8` in `initialize_connection` and in the call of
`construct_bitfield_message`, `n` in `case(BITFIELD)` and in the completeness
loop, and `bitfieldLen`, which is `n` or `n + 1`, everywhere else. `Access`
lists the places that index a bitfield, with the block each of them indexes
and the bytes it touches there.
-/

namespace DubstepDucks.Torrent

open CMem Btp

/-- The completeness loop at the start of a round. The comparison binds more
tightly than the mask: `bitfield[i] & (255 == 1)`. -/
def numHavePieces (ownBitfield : Mem) (totalPieces : Nat) : Nat :=
  (List.range totalPieces).countP fun i => ownBitfield i &&& (if 255 = 1 then 1 else 0) ≠ 0

/-- A place that indexes a bitfield or a message made of one. -/
inductive Access where
  /-- The byte of a piece in `case(HAVE)`. -/
  | «have»
  /-- The bytes stored by `case(BITFIELD)`. -/
  | bitfield
  /-- The peer's bitfield in `peerContainsUndownloadedPieces`. -/
  | comparePeer
  /-- The own bitfield there. -/
  | compareOwn
  /-- The own bitfield in the completeness loop. -/
  | completeness
  /-- `bf_message`, copied into `intro_msg`. -/
  | intro
  deriving DecidableEq, Repr

namespace Access

/-- The peer's bitfield as `initialize_connection` leaves it. -/
def freshPeer (ans : BtInfo) : List Byte :=
  ((initializeConnection .zeroed ans.numPieces).peerBitfield).getD []

/-- The block that is indexed. -/
def block (ans : BtInfo) : Access → List Byte
  | .have | .bitfield | .comparePeer => freshPeer ans
  | .compareOwn | .completeness => setInitialBitfield ans.numPieces
  | .intro => constructBitfieldMessage (setInitialBitfield ans.numPieces)
      (BitVec.ofNat 32 (ans.numPieces / 8))

/-- The offsets that are touched, for all pieces of the file. -/
def touched (ans : BtInfo) : Access → List Nat
  | .have => (List.range ans.numPieces).map (· / 8)
  | .bitfield | .completeness => List.range ans.numPieces
  | .comparePeer | .compareOwn => List.range ans.bitfieldLen
  | .intro => List.range ans.bitfieldMsgLength

/-- Every byte touched lies in the block. -/
def InBounds (ans : BtInfo) (a : Access) : Prop := ∀ i ∈ a.touched ans, i < (a.block ans).length

/-- When that is so. -/
def FitsWhen (ans : BtInfo) : Access → Prop
  | .have => ans.numPieces % 8 = 0
  | .compareOwn | .completeness => ans.numPieces = 1
  | .bitfield | .comparePeer | .intro => False

/-! ## The blocks -/

theorem length_freshPeer (ans : BtInfo) : (freshPeer ans).length = ans.numPieces / 8 :=
  List.length_replicate

theorem length_introBlock (ans : BtInfo) :
    (block ans .intro).length = 5 + ans.numPieces / 8 := by
  have hn := toNat_bitfieldBytes ans
  have hfit := (length_setInitialBitfield ans.numPieces).1
  rw [block, length_constructBitfieldMessage (by omega), hn]

/-- A row of touched bytes from the first on fits when the block is as long. -/
theorem forall_range_lt (m n : Nat) : (∀ i ∈ List.range m, i < n) ↔ m ≤ n := by
  constructor
  · intro h
    by_contra hlt
    have := h n (List.mem_range.mpr (by omega))
    omega
  · intro h i hi
    have := List.mem_range.mp hi
    omega

theorem inBounds_iff (ans : BtInfo) (a : Access) : a.InBounds ans ↔ a.FitsWhen ans := by
  have hpos := ans.numPieces_pos
  have hpeer := length_freshPeer ans
  have hown := (length_setInitialBitfield ans.numPieces).2
  have hlong := numPieces_le_bitfieldLen ans
  cases a with
  | «have» =>
      rw [InBounds, FitsWhen, touched, block, hpeer]
      constructor
      · intro h
        have hlast := h ((ans.numPieces - 1) / 8)
          (List.mem_map_of_mem (List.mem_range.mpr (by omega)))
        omega
      · intro h i hi
        obtain ⟨p, hp, rfl⟩ := List.mem_map.mp hi
        have := List.mem_range.mp hp
        omega
  | bitfield =>
      rw [InBounds, FitsWhen, touched, block, hpeer, forall_range_lt, iff_false]
      omega
  | comparePeer =>
      rw [InBounds, FitsWhen, touched, block, hpeer, forall_range_lt, iff_false]
      omega
  | compareOwn =>
      rw [InBounds, FitsWhen, touched, block, hown, forall_range_lt, BtInfo.bitfieldLen]
      split <;> omega
  | completeness =>
      rw [InBounds, FitsWhen, touched, block, hown, forall_range_lt]
      omega
  | intro =>
      rw [InBounds, FitsWhen, touched, length_introBlock, forall_range_lt, iff_false,
        BtInfo.bitfieldMsgLength]
      omega

/-! ## What the handlers make of it -/

/-- The comparison looks at the touched bytes of both bitfields, and at no
other. -/
theorem peerContains_congr :
    ∀ {n : Nat} {peer peer' own own' : Mem}, (∀ i ∈ List.range n, peer i = peer' i) →
    (∀ i ∈ List.range n, own i = own' i) →
    peerContainsUndownloadedPieces peer own n = peerContainsUndownloadedPieces peer' own' n := by
  intro n
  induction n with
  | zero => intro peer peer' own own' _ _; rfl
  | succ n ih =>
      intro peer peer' own own' hpeer hown
      have hpeer0 : peer 0 = peer' 0 := hpeer 0 (by simp)
      have hown0 : own 0 = own' 0 := hown 0 (by simp)
      have hnext : ∀ {m m' : Mem}, (∀ i ∈ List.range (n + 1), m i = m' i) →
          ∀ i ∈ List.range n, m.advance 1 i = m'.advance 1 i := by
        intro m m' h i hi
        have := List.mem_range.mp hi
        exact h (1 + i) (List.mem_range.mpr (by omega))
      rw [peerContainsUndownloadedPieces, peerContainsUndownloadedPieces, hpeer0, hown0,
        ih (hnext hpeer) (hnext hown)]

/-- So does the completeness loop. -/
theorem numHavePieces_congr {n : Nat} {own own' : Mem} (h : ∀ i ∈ List.range n, own i = own' i) :
    numHavePieces own n = numHavePieces own' n := by
  apply List.countP_congr
  intro i hi
  rw [h i hi]

section Handlers

variable {ans : BtInfo} {s : Client} {k : Nat} {e : Env}

/-- On a slot that was set up, `case(HAVE)` for a piece of the file writes
inside the bitfield exactly when its byte is in bounds. -/
theorem setHave_freshPeer {p : CInt} (hp : 0 ≤ p.toInt) :
    (setHave (freshPeer ans) p).isSome = true ↔ p.toInt.tdiv 8 < (freshPeer ans).length := by
  have hbyte : 0 ≤ p.toInt.tdiv 8 := Int.tdiv_nonneg hp (by decide)
  rw [setHave]
  split
  · next h => exact ⟨fun _ => h.2, fun _ => rfl⟩
  · next h => exact ⟨nofun, fun hlt => absurd ⟨hbyte, hlt⟩ h⟩

/-- And `case(BITFIELD)` always writes behind it. -/
theorem handleBitfield_freshPeer {msg : Mem}
    (hfresh : (s.connections k).peerBitfield = some (freshPeer ans)) :
    handleBitfield ans s k msg e = (s.modifyConn k fun c => { c with
      peerBitfield := some (((msg.advance 5).read ans.numPieces).take (ans.numPieces / 8)) }).smash
        e := by
  have hpos := ans.numPieces_pos
  have hpeer := length_freshPeer ans
  rw [handleBitfield, hfresh]
  dsimp only
  rw [if_pos (by omega), hpeer, List.drop_of_length_le (by omega), List.append_nil]

end Handlers

/-- **The handlers touch what is listed.** On a slot that was set up,
`case(HAVE)` keeps to the bitfield for every piece of the file exactly when
the listed bytes do, and `case(BITFIELD)` stores behind it; the comparison and
the completeness loop read the listed bytes and no others. -/
theorem handlers_touch (ans : BtInfo) :
    ((∀ p : CInt, 0 ≤ p.toInt → p.toInt < ans.numPieces →
        (setHave (freshPeer ans) p).isSome = true) ↔ InBounds ans .have) ∧
    (∀ (s : Client) (k : Nat) (msg : Mem) (e : Env),
      (s.connections k).peerBitfield = some (freshPeer ans) →
        handleBitfield ans s k msg e = (s.modifyConn k fun c => { c with
          peerBitfield :=
            some (((msg.advance 5).read ans.numPieces).take (ans.numPieces / 8)) }).smash e) ∧
    (∀ peer peer' own own' : Mem, (∀ i ∈ touched ans .comparePeer, peer i = peer' i) →
      (∀ i ∈ touched ans .compareOwn, own i = own' i) →
        peerContainsUndownloadedPieces peer own ans.bitfieldLen
          = peerContainsUndownloadedPieces peer' own' ans.bitfieldLen) ∧
    ∀ own own' : Mem, (∀ i ∈ touched ans .completeness, own i = own' i) →
      numHavePieces own ans.numPieces = numHavePieces own' ans.numPieces := by
  refine ⟨?_, fun s k msg e hfresh => handleBitfield_freshPeer hfresh,
    fun peer peer' own own' => peerContains_congr, fun own own' => numHavePieces_congr⟩
  have hlt := ans.numPieces_lt
  constructor
  · intro h i hi
    obtain ⟨p, hp, rfl⟩ := List.mem_map.mp hi
    have hin : p < ans.numPieces := List.mem_range.mp hp
    have hint : (BitVec.ofNat 32 p).toInt = p := toInt_ofNat (by omega)
    have hset := (setHave_freshPeer (by omega)).mp
      (h (BitVec.ofNat 32 p) (by omega) (by omega))
    rw [hint] at hset
    exact Int.ofNat_lt.mp hset
  · intro h p hp hin
    obtain ⟨q, hq⟩ := Int.eq_ofNat_of_zero_le hp
    have hbyte : q / 8 < (freshPeer ans).length :=
      h (q / 8) (List.mem_map_of_mem (List.mem_range.mpr (by omega)))
    refine (setHave_freshPeer hp).mpr ?_
    rw [hq]
    exact Int.ofNat_lt.mpr hbyte

end Access

/-- **Bitfield sizes never agree.** Whatever the number of pieces, the client
touches bytes outside its bitfields: `case(BITFIELD)`, the comparison with
the peer's bitfield and the copy of `bf_message` never keep to their blocks,
`case(HAVE)` only when the number is divisible by eight, and the two loops
over the own bitfield only for a single piece. -/
theorem bitfield_sizes_disagree (ans : BtInfo) :
    (¬ ∀ a : Access, a.InBounds ans) ∧ ∀ a : Access, a.InBounds ans ↔ a.FitsWhen ans := by
  refine ⟨?_, Access.inBounds_iff ans⟩
  intro hall
  exact (Access.inBounds_iff ans .bitfield).mp (hall .bitfield)

/-- Eight pieces: one byte for them, and eight are stored there. -/
theorem bitfield_sizes_eight : ¬ ∀ (ans : BtInfo) (a : Access), a.InBounds ans := by
  intro hclaim
  have hstored := hclaim eightPieces .bitfield 7 (by decide)
  exact absurd hstored (by decide)

end DubstepDucks.Torrent
