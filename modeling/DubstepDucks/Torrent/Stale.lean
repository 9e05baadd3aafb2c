import DubstepDucks.Torrent.Chunks

/-!
# Torrent — what the buffer still says

The other half of `Determined`. Where a byte that counts was not received,
two contents of the rest of the buffer, a client and an environment tell two
runs apart: the missing ID makes a `CHOKE` or an `UNCHOKE`, a missing byte of
an index another piece, a missing byte of a bitfield another bitfield. For a
`PIECE` it is the hash: the check runs over as much of the buffer as the
missing argument says, and over bytes that the block does not cover.
-/

namespace DubstepDucks.Torrent

open CMem Btp

/-! ## Two contents of the rest -/

/-- A cleared rest. -/
def blank (n : Nat) : List Byte := List.replicate (bufsiz - n) 0

/-- A rest with one byte left in it, at position `j` of the buffer. -/
def spot (n j : Nat) (v : Byte) : List Byte := (blank n).set (j - n) v

/-- The stray memory that the message may run into is zero. -/
structure Env.Quiet (e : Env) : Prop where
  buffer : e.behindBuffer = fun _ => 0
  msg : e.behindMsg = fun _ => 0

/-- A calm environment with so many bytes of stack behind the buffer. -/
def Env.still (above : Nat) : Env := { Env.calm with above := above }

theorem Env.still_quiet (above : Nat) : (Env.still above).Quiet := ⟨rfl, rfl⟩

section Rests

variable {chunk : List Byte} {e : Env} {j above stack : Nat} {v : Byte}

theorem length_blank (h : chunk.length ≤ bufsiz) :
    (chunk ++ blank chunk.length).length = bufsiz := by
  rw [List.length_append, blank, List.length_replicate]
  omega

theorem length_spot (h : chunk.length ≤ bufsiz) (j : Nat) (v : Byte) :
    (chunk ++ spot chunk.length j v).length = bufsiz := by
  rw [List.length_append, spot, List.length_set, blank, List.length_replicate]
  omega

theorem getD_blank (i : Nat) : (chunk ++ blank chunk.length).getD i 0 = chunk.getD i 0 := by
  by_cases hi : i < chunk.length
  · rw [List.getD_append _ _ _ _ hi]
  · rw [List.getD_append_right _ _ _ _ (by omega), List.getD_eq_default _ _ (Nat.le_of_not_lt hi)]
    simp only [blank, List.getD_eq_getElem?_getD, List.getElem?_replicate]
    split <;> rfl

theorem getD_spot (hj : chunk.length ≤ j) (hj' : j < bufsiz) (i : Nat) :
    (chunk ++ spot chunk.length j v).getD i 0 = if i = j then v else chunk.getD i 0 := by
  by_cases hi : i < chunk.length
  · rw [List.getD_append _ _ _ _ hi, if_neg (by omega)]
  · rw [List.getD_append_right _ _ _ _ (by omega), List.getD_eq_default _ _ (Nat.le_of_not_lt hi)]
    simp only [spot, blank, List.getD_eq_getElem?_getD, List.getElem?_set, List.length_replicate,
      List.getElem?_replicate]
    by_cases hij : i = j
    · rw [if_pos (by omega), if_pos (by omega), if_pos hij]
      rfl
    · rw [if_neg (by omega), if_neg hij]
      split <;> rfl

theorem of_zeros (bs : List Byte) (i : Nat) : Mem.of bs (fun _ => 0) i = bs.getD i 0 := by
  by_cases hi : i < bs.length
  · rw [Mem.of_lt hi]
  · rw [Mem.of_ge (by omega), List.getD_eq_default _ _ (by omega)]

/-- The message in a cleared buffer is the chunk with zeros behind it. -/
theorem msgMem_blank (he : e.Quiet) (hsize : chunk.length ≤ (fieldSize chunk).toNat) (i : Nat) :
    msgMem chunk (blank chunk.length) e i = chunk.getD i 0 := by
  rw [msgMem_eq, he.buffer, he.msg, of_zeros, getD_blank]
  split
  · rfl
  · rw [List.getD_eq_default _ _ (by omega)]

/-- A byte left within the message's size shows in it. -/
theorem msgMem_spot (he : e.Quiet) (hj : chunk.length ≤ j) (hj' : j < bufsiz)
    (hsize : j < (fieldSize chunk).toNat) (i : Nat) :
    msgMem chunk (spot chunk.length j v) e i = if i = j then v else chunk.getD i 0 := by
  rw [msgMem_eq, he.buffer, he.msg, of_zeros, getD_spot hj hj']
  split
  · rfl
  · rw [if_neg (by omega), List.getD_eq_default _ _ (by omega)]

/-- The chunk is judged differently if one client in one environment shows a
difference for two rests. -/
theorem not_judged (sha1 : List Byte → Digest) {ans : BtInfo} (s : Client) (k : Nat) (e : Env)
    (hstack : e.stack = stack) {rest rest' : List Byte} (h5 : 5 ≤ chunk.length)
    (hreadable : ¬ Unreadable stack chunk)
    (hrest : (chunk ++ rest).length = bufsiz) (hrest' : (chunk ++ rest').length = bufsiz)
    (hne : observed (switch sha1 ans (s.holding (chunk ++ rest)) k e (msgMem chunk rest e)
        (MsgID.ofByte (chunk.getD 4 0)))
      ≠ observed (switch sha1 ans (s.holding (chunk ++ rest')) k e (msgMem chunk rest' e)
        (MsgID.ofByte (chunk.getD 4 0)))) : ¬ JudgedAsMessage ans stack chunk := by
  subst hstack
  intro h
  apply hne
  obtain ⟨hsize, hfits⟩ := size_of_readable (by omega) hreadable
  rw [← observed_holding h5 hrest hsize hfits, ← observed_holding h5 hrest' hsize hfits]
  exact h sha1 s k e rest rest' rfl hrest hrest'

theorem connections_of_observed {s s' : Client} {evs evs' : List Event} (k : Nat)
    (h : observed (.ok (s, evs)) = observed (.ok (s', evs'))) :
    s.connections k = s'.connections k := by
  have hpair : (s.connections, s.ownBitfield, s.file) = (s'.connections, s'.ownBitfield, s'.file) :=
    Except.ok.inj h
  exact congrFun (congrArg Prod.fst hpair) k

/-! ## Too short for an ID -/

/-- A rest that completes the length field as `m` does, with the ID `b`. -/
def completion (chunk : List Byte) (m : Mem) (b : Byte) : List Byte :=
  m.read (4 - chunk.length) ++ b :: List.replicate (bufsiz - 5) 0

theorem length_completion (h : chunk.length < 5) (m : Mem) (b : Byte) :
    (chunk ++ completion chunk m b).length = bufsiz := by
  rw [List.length_append, completion, List.length_append, Mem.length_read, List.length_cons,
    List.length_replicate, bufsiz]
  omega

/-- The message in a completed buffer. -/
theorem of_completion (h : chunk.length < 5) (m : Mem) (b : Byte) (behind : Mem) :
    (∀ i, i < 4 → Mem.of (chunk ++ completion chunk m b) behind i = Mem.of chunk m i) ∧
      Mem.of (chunk ++ completion chunk m b) behind 4 = b := by
  rw [completion, Mem.of_append, Mem.of_append]
  have hmissing : (m.read (4 - chunk.length)).length = 4 - chunk.length := Mem.length_read _ _
  refine ⟨?_, ?_⟩
  · intro i hi
    by_cases hin : i < chunk.length
    · rw [Mem.of_lt hin, Mem.of_lt hin]
    · have hout : chunk.length ≤ i := Nat.le_of_not_lt hin
      rw [Mem.of_ge hout, Mem.of_ge hout, Mem.of_lt (by omega), Mem.getD_read _ (by omega)]
  · have hout : chunk.length ≤ 4 := by omega
    rw [Mem.of_ge hout, Mem.of_ge (by omega), hmissing, Nat.sub_self, Mem.of_lt (by simp)]
    rfl

/-- Without its ID, the chunk is a `CHOKE` or an `UNCHOKE` as the buffer has
it, if its length field can be read with some completion. -/
theorem not_judged_short {ans : BtInfo} (h : chunk.length < 5)
    (hreadable : ¬ Unreadable (bufsiz + above) chunk) :
    ¬ JudgedAsMessage ans (bufsiz + above) chunk := by
  obtain ⟨m, hm⟩ : ∃ m : Mem, ¬ (((Mem.of chunk m).readInt + 4).toInt < 0 ∨
      bufsiz + above < ((Mem.of chunk m).readInt + 4).toNat) := by
    by_contra hnone
    exact hreadable fun m => Classical.byContradiction fun hm => hnone ⟨m, hm⟩
  have hnext : ∀ b, ∃ message, getNextMsg (Env.still above).stack
      (Mem.of (chunk ++ completion chunk m b) (Env.still above).behindBuffer)
        = some ⟨message, b, (Mem.of chunk m).readInt + 4⟩ := by
    intro b
    obtain ⟨hlength, hid⟩ := of_completion h m b (Env.still above).behindBuffer
    have hread : (Mem.of (chunk ++ completion chunk m b) (Env.still above).behindBuffer).readInt
        = (Mem.of chunk m).readInt := by
      rw [Mem.readInt, Mem.readInt, hlength 0 (by omega), hlength 1 (by omega),
        hlength 2 (by omega), hlength 3 (by omega)]
    have hfits : ¬ (((Mem.of chunk m).readInt + 4).toInt < 0 ∨
        (Env.still above).stack < max 5 ((Mem.of chunk m).readInt + 4).toNat) := by
      have hstack : (Env.still above).stack = bufsiz + above := rfl
      rw [hstack, bufsiz] at *
      omega
    rw [getNextMsg, hread, hid, if_neg hfits]
    exact ⟨_, rfl⟩
  intro hjudged
  let s : Client := { joined ans with connections := fun _ => .zeroed }
  obtain ⟨message, hchoke⟩ := hnext 0
  obtain ⟨message', hunchoke⟩ := hnext 1
  have hsame := hjudged (fun _ => ⟨List.replicate 20 0, rfl⟩) s 1 (.still above) _ _ rfl
    (length_completion h m 0) (length_completion h m 1)
  rw [observed_receiveMsg (n := ⟨message, 0, (Mem.of chunk m).readInt + 4⟩) chunk
      (by rw [bufPtr_holding (length_completion h m 0)]; exact hchoke),
    observed_receiveMsg (n := ⟨message', 1, (Mem.of chunk m).readInt + 4⟩) chunk
      (by rw [bufPtr_holding (length_completion h m 1)]; exact hunchoke)] at hsame
  have hflags :
      (setFlag .zeroed .ownChoke 1).statusFlags = (setFlag .zeroed .ownChoke 0).statusFlags :=
    congrArg Connections.statusFlags (connections_of_observed 1 hsame)
  exact absurd hflags (by decide)

/-! ## An index that was not received -/

/-- A byte left in place of the index's first missing byte makes a larger
index. -/
theorem index_spot (he : e.Quiet) (h5 : 5 ≤ chunk.length) (h9 : chunk.length < 9)
    (hsize : chunk.length < (fieldSize chunk).toNat) :
    let p := ((msgMem chunk (blank chunk.length) e).advance 5).readInt
    let q := ((msgMem chunk (spot chunk.length chunk.length 8) e).advance 5).readInt
    p.toNat + 8 ≤ q.toNat ∧ q.toNat < 2 ^ 31 := by
  intro p q
  have hp : p.toNat = (chunk.getD 5 0).toNat + 2 ^ 8 * (chunk.getD 6 0).toNat
      + 2 ^ 16 * (chunk.getD 7 0).toNat + 2 ^ 24 * (chunk.getD 8 0).toNat := by
    show (leInt _ _ _ _).toNat = _
    rw [toNat_leInt]
    simp only [Mem.advance, msgMem_blank he (Nat.le_of_lt hsize), Nat.reduceAdd]
  have hq : q.toNat = (if 5 = chunk.length then (8 : Byte) else chunk.getD 5 0).toNat
      + 2 ^ 8 * (if 6 = chunk.length then (8 : Byte) else chunk.getD 6 0).toNat
      + 2 ^ 16 * (if 7 = chunk.length then (8 : Byte) else chunk.getD 7 0).toNat
      + 2 ^ 24 * (if 8 = chunk.length then (8 : Byte) else chunk.getD 8 0).toNat := by
    show (leInt _ _ _ _).toNat = _
    rw [toNat_leInt]
    simp only [Mem.advance, msgMem_spot he (Nat.le_refl _) (by rw [bufsiz]; omega) hsize,
      Nat.reduceAdd]
  have hbyte : ∀ i, chunk.length ≤ i → (chunk.getD i 0).toNat = 0 := by
    intro i hi
    rw [List.getD_eq_default _ _ hi]
    rfl
  have height : (8 : Byte).toNat = 8 := rfl
  have h8 := hbyte 8 (by omega)
  have hlt5 := (chunk.getD 5 0).isLt
  have hlt6 := (chunk.getD 6 0).isLt
  have hlt7 := (chunk.getD 7 0).isLt
  -- the first missing byte is one of the four
  have hlen : chunk.length = 5 ∨ chunk.length = 6 ∨ chunk.length = 7 ∨ chunk.length = 8 := by omega
  rcases hlen with h | h | h | h <;> rw [hp, hq, h] <;>
    simp only [Nat.reduceEqDiff, if_true, if_false, height, h8]
  · have := hbyte 5 (by omega)
    have := hbyte 6 (by omega)
    have := hbyte 7 (by omega)
    omega
  · have := hbyte 6 (by omega)
    have := hbyte 7 (by omega)
    omega
  · have := hbyte 7 (by omega)
    omega
  · omega

theorem not_judged_request {ans : BtInfo} (h5 : 5 ≤ chunk.length)
    (hreadable : ¬ Unreadable (bufsiz + above) chunk)
    (hid : MsgID.ofByte (chunk.getD 4 0) = some .request)
    (hmissing : ¬ Within chunk 9) : ¬ JudgedAsMessage ans (bufsiz + above) chunk := by
  rw [Within, bufsiz] at hmissing
  have hfits : chunk.length ≤ bufsiz := by rw [bufsiz]; omega
  obtain ⟨hlt, -⟩ := index_spot (Env.still_quiet above) h5 (by omega) (by omega)
  refine not_judged (fun _ => ⟨List.replicate 20 0, rfl⟩) (joined ans) 1 (.still above) rfl h5
    hreadable (length_blank hfits) (length_spot hfits chunk.length 8) ?_
  rw [hid]
  intro hsame
  have hpiece := congrArg Connections.pieceToSend (connections_of_observed 1 hsame)
  have hindex : ((msgMem chunk (blank chunk.length) (.still above)).advance 5).readInt
      = ((msgMem chunk (spot chunk.length chunk.length 8) (.still above)).advance 5).readInt := by
    rw [← setWidth_clobber (Env.still above).heapPtr (Mem.readInt _),
      ← setWidth_clobber (Env.still above).heapPtr
        (Mem.readInt (Mem.advance (msgMem chunk (spot _ _ _) _) 5))]
    exact hpiece
  rw [hindex] at hlt
  omega

theorem not_judged_have {ans : BtInfo} (h5 : 5 ≤ chunk.length)
    (hreadable : ¬ Unreadable (bufsiz + above) chunk)
    (hid : MsgID.ofByte (chunk.getD 4 0) = some .have)
    (hmissing : ¬ Within chunk 9) : ¬ JudgedAsMessage ans (bufsiz + above) chunk := by
  rw [Within, bufsiz] at hmissing
  have hfits : chunk.length ≤ bufsiz := by rw [bufsiz]; omega
  obtain ⟨hle, hlt⟩ := index_spot (Env.still_quiet above) h5 (by omega) (by omega)
  obtain ⟨p, hp⟩ : ∃ p,
      ((msgMem chunk (blank chunk.length) (.still above)).advance 5).readInt = p := ⟨_, rfl⟩
  obtain ⟨q, hq⟩ : ∃ q,
      ((msgMem chunk (spot chunk.length chunk.length 8) (.still above)).advance 5).readInt = q :=
    ⟨_, rfl⟩
  rw [hp, hq] at hle
  rw [hq] at hlt
  -- a bitfield that ends with the byte of the smaller index
  let bits : List Byte := List.replicate (p.toNat / 8 + 1) 0
  let s : Client := { joined ans with
    connections := fun _ => { Connections.zeroed with peerBitfield := some bits } }
  refine not_judged (fun _ => ⟨List.replicate 20 0, rfl⟩) s 1 (.still above) rfl h5 hreadable
    (length_blank hfits) (length_spot hfits chunk.length 8) ?_
  rw [hid]
  simp only [switch]
  rw [hp, hq]
  have hbits : bits.length = p.toNat / 8 + 1 := List.length_replicate
  have hin : ∃ bits', setHave bits p = some bits' := by
    rw [setHave, toInt_eq_toNat (by omega), Int.tdiv_eq_ediv_of_nonneg (by omega),
      if_pos (by omega)]
    exact ⟨_, rfl⟩
  have hout : setHave bits q = none := by
    rw [setHave, toInt_eq_toNat hlt, Int.tdiv_eq_ediv_of_nonneg (by omega), if_neg (by omega)]
  obtain ⟨bits', hin⟩ := hin
  have hrecord : ∀ r : List Byte,
      ((s.holding r).connections 1).peerBitfield = some bits := fun _ => rfl
  rw [handleHave, handleHave, hrecord, hrecord]
  dsimp only
  rw [hin, hout]
  intro hsame
  cases hsame

/-! ## Bits that were not received -/

theorem not_judged_bitfield {ans : BtInfo} (h5 : 5 ≤ chunk.length)
    (hreadable : ¬ Unreadable (bufsiz + above) chunk)
    (hid : MsgID.ofByte (chunk.getD 4 0) = some .bitfield)
    (hmissing : ¬ Within chunk (5 + ans.numPieces)) :
    ¬ JudgedAsMessage ans (bufsiz + above) chunk := by
  rw [Within] at hmissing
  have hfits : chunk.length ≤ bufsiz := by omega
  let bits : List Byte := List.replicate ans.numPieces 0
  let s : Client := { joined ans with
    connections := fun _ => { Connections.zeroed with peerBitfield := some bits } }
  refine not_judged (fun _ => ⟨List.replicate 20 0, rfl⟩) s 1 (.still above) rfl h5 hreadable
    (length_blank hfits) (length_spot hfits chunk.length 1) ?_
  rw [hid]
  simp only [switch]
  have hstored : ∀ (r : List Byte) (msg : Mem), ∃ s',
      handleBitfield ans (s.holding r) 1 msg (.still above) = .ok (s', []) ∧
        (s'.connections 1).peerBitfield = some ((msg.advance 5).read ans.numPieces) := by
    intro r msg
    have hrecord : ((s.holding r).connections 1).peerBitfield = some bits := rfl
    have hbits : bits.length = ans.numPieces := List.length_replicate
    rw [handleBitfield, hrecord]
    dsimp only
    rw [if_neg (by omega)]
    refine ⟨_, rfl, ?_⟩
    show some (List.take _ _ ++ bits.drop _) = _
    rw [hbits, List.take_of_length_le (by simp), List.drop_of_length_le (by omega),
      List.append_nil]
  obtain ⟨s1, hrun1, hbits1⟩ := hstored (chunk ++ blank chunk.length)
    (msgMem chunk (blank chunk.length) (.still above))
  obtain ⟨s2, hrun2, hbits2⟩ := hstored (chunk ++ spot chunk.length chunk.length 1)
    (msgMem chunk (spot chunk.length chunk.length 1) (.still above))
  rw [hrun1, hrun2]
  intro hsame
  rw [connections_of_observed 1 hsame, hbits2, Option.some.injEq] at hbits1
  -- the byte behind the chunk is stored: zero in one run, one in the other
  have hbyte := congrArg (fun l : List Byte => l.getD (chunk.length - 5) 0) hbits1
  rw [Mem.getD_read _ (by omega), Mem.getD_read _ (by omega), Mem.advance, Mem.advance,
    Nat.add_sub_cancel' h5,
    msgMem_spot (Env.still_quiet above) (Nat.le_refl _) (by omega) (by omega),
    msgMem_blank (Env.still_quiet above) (by omega), if_pos rfl,
    List.getD_eq_default _ _ (Nat.le_refl _)]
    at hbyte
  exact absurd hbyte (by decide)

/-! ## A piece behind which bytes are left -/

/-- A client whose records have every flag set. -/
def raised (ans : BtInfo) : Client :=
  { joined ans with connections := fun _ => { Connections.zeroed with statusFlags := 255 } }

/-- Every hash pointer can be read, and the check hashes the whole buffer. -/
def Env.hashing (spare above : Nat) : Env :=
  { Env.calm with
    thirdArg := BitVec.ofNat 32 bufsiz
    beyondHashes := fun _ => eightPieces.pieceHashes.head?
    spare := spare
    above := above }

theorem Env.hashing_quiet (spare above : Nat) : (Env.hashing spare above).Quiet := ⟨rfl, rfl⟩

theorem verifyPiece_hashing (sha1 : List Byte → Digest) (spare above : Nat) (piece : Mem)
    (d : Digest) :
    verifyPiece sha1 (Env.hashing spare above).stack piece d (Env.hashing spare above).thirdArg
      = some (decide (sha1 (piece.read bufsiz) = d)) := by
  have hlen : (Env.hashing spare above).thirdArg.toNat = bufsiz := rfl
  have hpos : ¬ (Env.hashing spare above).thirdArg.toInt < 0 := by
    have hint : (Env.hashing spare above).thirdArg.toInt = bufsiz := rfl
    omega
  have hstack := (Env.hashing spare above).bufsiz_le_stack
  rw [verifyPiece, hlen, if_neg (by omega)]

theorem exists_hashAt (ans : BtInfo) (k spare above : Nat) :
    ∃ d, ans.hashAt k (.hashing spare above) = some d := by
  rw [BtInfo.hashAt]
  split
  · next hk =>
    have hlen := ans.hashes_length
    exact ⟨_, List.getElem?_eq_getElem (by omega)⟩
  · exact ⟨_, rfl⟩

/-- What the check reads when the chunk was received on top of the rest. -/
def copied (ans : BtInfo) (chunk rest : List Byte) (e : Env) : Mem :=
  pieceBuffer ans ((raised ans).holding (chunk ++ rest)) (msgMem chunk rest e) e

/-- Two rests that leave different buffers behind the copy are told apart by
a hash: one block is accepted, the other is not. -/
theorem not_judged_copied {ans : BtInfo} {rest rest' : List Byte} {spare : Nat}
    (hstack : (Env.hashing spare above).stack = stack) (h5 : 5 ≤ chunk.length)
    (hreadable : ¬ Unreadable stack chunk) (hid : MsgID.ofByte (chunk.getD 4 0) = some .piece)
    (hfits : ans.pieceLength ≤ bufsiz + spare)
    (hrest : (chunk ++ rest).length = bufsiz) (hrest' : (chunk ++ rest').length = bufsiz)
    (hne : (copied ans chunk rest (.hashing spare above)).read bufsiz
      ≠ (copied ans chunk rest' (.hashing spare above)).read bufsiz) :
    ¬ JudgedAsMessage ans stack chunk := by
  obtain ⟨d, hd⟩ := exists_hashAt ans (1 * 20) spare above
  obtain ⟨d', hd'⟩ : ∃ d' : Digest, d' ≠ d := by
    by_cases hzero : d = ⟨List.replicate 20 0, rfl⟩
    · exact ⟨⟨List.replicate 20 1, rfl⟩, by rw [hzero]; decide⟩
    · exact ⟨_, Ne.symm hzero⟩
  let content := (copied ans chunk rest (.hashing spare above)).read bufsiz
  let sha1 : List Byte → Digest := fun bytes => if bytes = content then d else d'
  refine not_judged sha1 (raised ans) 1 (.hashing spare above) hstack h5 hreadable hrest hrest' ?_
  rw [hid]
  simp only [switch]
  have hverify : verifyPiece sha1 (Env.hashing spare above).stack
      (copied ans chunk rest (.hashing spare above)) d (Env.hashing spare above).thirdArg
        = some true := by
    have haccept : sha1 content = d := if_pos rfl
    rw [verifyPiece_hashing, decide_eq_true haccept]
  have hverify' : verifyPiece sha1 (Env.hashing spare above).stack
      (copied ans chunk rest' (.hashing spare above)) d (Env.hashing spare above).thirdArg
        = some false := by
    have hreject : sha1 ((copied ans chunk rest' (.hashing spare above)).read bufsiz) = d' :=
      if_neg (Ne.symm hne)
    rw [verifyPiece_hashing, hreject, decide_eq_false hd']
  -- the second block is dropped, and the record keeps its flags
  have hrejected : handlePiece sha1 ans ((raised ans).holding (chunk ++ rest')) 1
      (msgMem chunk rest' (.hashing spare above)) (.hashing spare above)
      = .ok ({ (raised ans).holding (chunk ++ rest') with
          buffer := copied ans chunk rest' (.hashing spare above) }, []) :=
    handlePiece_rejects hfits hd hverify'
  rw [hrejected]
  intro hsame
  cases haccepted : handlePiece sha1 ans ((raised ans).holding (chunk ++ rest)) 1
      (msgMem chunk rest (.hashing spare above)) (.hashing spare above) with
  | error stop =>
      rw [haccepted] at hsame
      cases hsame
  | ok r =>
      obtain ⟨s', evs⟩ := r
      rw [haccepted] at hsame
      obtain ⟨-, -, -, expected, verified, hexpected, hverified, hcases⟩ :=
        handlePiece_cases haccepted
      obtain rfl : d = expected := by
        rw [hd] at hexpected
        exact Option.some.inj hexpected
      obtain rfl : true = verified := Option.some.inj (hverify.symm.trans hverified)
      rcases hcases with ⟨habsurd, -⟩ | ⟨-, written, shift, -, -, hview⟩
      · cases habsurd
      · have hflags : (255 : Byte) = (setFlag { Connections.zeroed with statusFlags := 255 }
            .pendingRequest 0).statusFlags := by
          have hrecord := congrFun (congrArg View.records hview) 1
          have hstack := congrArg stackPart (connections_of_observed 1 hsame)
          exact congrArg Connections.statusFlags (hstack.symm.trans hrecord)
        exact absurd hflags (by decide)

/-- What is left in the buffer is compared byte by byte. -/
theorem read_copied_ne {ans : BtInfo} {rest rest' : List Byte} {i : Nat} (hi : i < bufsiz)
    (hne : copied ans chunk rest e i ≠ copied ans chunk rest' e i) :
    (copied ans chunk rest e).read bufsiz ≠ (copied ans chunk rest' e).read bufsiz := by
  intro hread
  apply hne
  have hbyte := congrArg (fun l : List Byte => l.getD i 0) hread
  rwa [Mem.getD_read _ hi, Mem.getD_read _ hi] at hbyte

/-- A block shorter than the buffer leaves what was behind it. -/
theorem not_judged_behind {ans : BtInfo} (h5 : 5 ≤ chunk.length)
    (hreadable : ¬ Unreadable (bufsiz + above) chunk)
    (hid : MsgID.ofByte (chunk.getD 4 0) = some .piece)
    (hlen : chunk.length < bufsiz) (hpiece : ans.pieceLength < bufsiz) :
    ¬ JudgedAsMessage ans (bufsiz + above) chunk := by
  let j := max chunk.length ans.pieceLength
  have hj : j < bufsiz := by omega
  have hrest := length_blank (Nat.le_of_lt hlen)
  have hrest' := length_spot (Nat.le_of_lt hlen) j 1
  have hstack : (Env.hashing 0 above).stack = bufsiz + above := rfl
  refine not_judged_copied hstack h5 hreadable hid (Nat.le_of_lt hpiece) hrest hrest'
    (read_copied_ne hj ?_)
  -- the byte behind both the chunk and the block
  have hbehind : ∀ rest : List Byte, (chunk ++ rest).length = bufsiz →
      copied ans chunk rest (.hashing 0 above) j = (chunk ++ rest).getD j 0 := by
    intro rest hrest
    have hblock := length_pieceBlock ans (msgMem chunk rest (.hashing 0 above))
    rw [copied, pieceBuffer, Mem.write_out (by omega), bufPtr_holding hrest, Mem.of_lt (by omega)]
  rw [hbehind _ hrest, hbehind _ hrest', getD_blank, getD_spot (by omega) hj, if_pos rfl,
    List.getD_eq_default _ _ (by omega)]
  decide

/-- A block over the whole buffer, of which a byte was not received. Where it
is longer than the buffer, the stack may have room for it. -/
theorem not_judged_block {ans : BtInfo} (h5 : 5 ≤ chunk.length)
    (hreadable : ¬ Unreadable (bufsiz + above) chunk)
    (hid : MsgID.ofByte (chunk.getD 4 0) = some .piece) (hover : bufsiz ≤ ans.pieceLength)
    (hroom : ans.pieceLength ≤ bufsiz + above) {j : Nat} (hj : chunk.length ≤ j) (hten : 10 ≤ j)
    (hj' : j < bufsiz) (hin : j < (fieldSize chunk).toNat) :
    ¬ JudgedAsMessage ans (bufsiz + above) chunk := by
  have hfits : chunk.length ≤ bufsiz := by omega
  let spare := ans.pieceLength - bufsiz
  let beyond := bufsiz + above - ans.pieceLength
  have hstack : (Env.hashing spare beyond).stack = bufsiz + above := by
    show bufsiz + (ans.pieceLength - bufsiz) + (bufsiz + above - ans.pieceLength) = _
    omega
  refine not_judged_copied hstack h5 hreadable hid (by omega) (length_blank hfits)
    (length_spot hfits j 1) (read_copied_ne (i := j - 10) (by omega) ?_)
  have hblock : ∀ rest : List Byte, copied ans chunk rest (.hashing spare beyond) (j - 10)
      = msgMem chunk rest (.hashing spare beyond) j := by
    intro rest
    have hlen := length_pieceBlock ans (msgMem chunk rest (.hashing spare beyond))
    rw [copied, pieceBuffer, Mem.write_in (by omega) (by omega), Nat.sub_zero, pieceBlock,
      Mem.getD_read _ (by omega), Mem.advance, Nat.add_sub_cancel' hten]
  rw [hblock, hblock, msgMem_blank (Env.hashing_quiet _ _) (by omega),
    msgMem_spot (Env.hashing_quiet _ _) hj hj' hin, if_pos rfl, List.getD_eq_default _ _ hj]
  decide

/-- Of all addresses, only the one made from index `p` can be read; behind
the message stands `behindMsg`. -/
def Env.pointingOnly (p : CInt) (behindMsg : Mem) (spare above : Nat) : Env :=
  { Env.hashing spare above with
    thirdArg := 0
    behindMsg := behindMsg
    load := fun address =>
      if address = clobber (Env.hashing spare above).heapPtr p then some 0 else none }

theorem findNul_zero {m : Mem} {size : Nat} (hsize : 0 < size) (h : m 0 = 0) :
    m.findNul size = some 0 := by
  cases size with
  | zero => omega
  | succ size => rw [Mem.findNul, if_pos h]

section Pointing

variable {ans : BtInfo} {d : Digest} {r : List Byte} {p : CInt} {msg behindMsg : Mem}
  {spare beyond : Nat}

/-- With a hash that accepts everything, `case(PIECE)` comes to the file. -/
theorem handlePiece_accepts
    (hd : ans.hashAt (1 * 20) (.pointingOnly p behindMsg spare beyond) = some d)
    (hroom : ans.pieceLength ≤ bufsiz + spare) (s : Client) :
    handlePiece (fun _ => d) ans s 1 msg (.pointingOnly p behindMsg spare beyond) =
      match writePiece s.file (msg.advance 5).readInt ans.pieceSizeBytes
          (pieceBuffer ans s msg (.pointingOnly p behindMsg spare beyond)) (bufsiz + spare)
          Env.calm.taken with
      | .error stop => .error stop
      | .ok w =>
          match (Env.pointingOnly p behindMsg spare beyond).load
              (clobber Env.calm.heapPtr (msg.advance 5).readInt) with
          | none => .error .fault
          | some v => .ok (({ s with
              file := some w.file
              buffer := w.buffer
              ownBitfield := setOwn s.ownBitfield v }).modifyConn 1 (setFlag · .pendingRequest 0),
            [.stored 1 (msg.advance 5).readInt (pieceBlock ans msg) w.bytes v]) := by
  have hfits : ¬ (Env.pointingOnly p behindMsg spare beyond).room < ans.pieceLength := by
    have heq : (Env.pointingOnly p behindMsg spare beyond).room = bufsiz + spare := rfl
    omega
  have hverify : ∀ m : Mem, verifyPiece (fun _ => d)
      (Env.pointingOnly p behindMsg spare beyond).stack m d
      (Env.pointingOnly p behindMsg spare beyond).thirdArg = some true := by
    intro m
    have hzero : (Env.pointingOnly p behindMsg spare beyond).thirdArg = 0 := rfl
    have hread : ¬ ((0 : CInt).toInt < 0 ∨
        (Env.pointingOnly p behindMsg spare beyond).stack < (0 : CInt).toNat) := by simp
    rw [verifyPiece, hzero, if_neg hread, decide_eq_true rfl]
  rw [handlePiece]
  dsimp only
  rw [if_neg hfits, hd]
  dsimp only
  rw [hverify]
  dsimp only
  rw [setWidth_clobber]
  rfl

/-- A block that starts with a zero is written, wherever its offset is one. -/
theorem handlePiece_zeros
    (hd : ans.hashAt (1 * 20) (.pointingOnly p behindMsg spare beyond) = some d)
    (hover : bufsiz ≤ ans.pieceLength) (hroom : ans.pieceLength ≤ bufsiz + spare)
    (hindex : (msg.advance 5).readInt = p)
    (hzero : msg 10 = 0) (hoff : 0 ≤ (p * ans.pieceSizeBytes).toInt) :
    ∃ s' evs, handlePiece (fun _ => d) ans ((raised ans).holding r) 1 msg
      (.pointingOnly p behindMsg spare beyond) = .ok (s', evs) := by
  have hlen := length_pieceBlock ans msg
  rw [bufsiz] at hover
  have hbuf : pieceBuffer ans ((raised ans).holding r) msg
      (.pointingOnly p behindMsg spare beyond) 0 = 0 := by
    rw [pieceBuffer, Mem.write_in (by omega) (by omega), pieceBlock, Mem.getD_read _ (by omega)]
    exact hzero
  have hcat : ∃ m, Mem.strcat (pieceBuffer ans ((raised ans).holding r) msg
      (.pointingOnly p behindMsg spare beyond)) (bufsiz + spare) (ascii "\n") = some m := by
    have hnewline : (ascii "\n").length = 1 := rfl
    rw [Mem.strcat, findNul_zero (by rw [bufsiz]; omega) hbuf]
    exact ⟨_, if_pos (by rw [hnewline, bufsiz]; omega)⟩
  obtain ⟨m, hcat⟩ := hcat
  have hfile : ((raised ans).holding r).file = some (ascii "ABC" ++ [0]) := rfl
  rw [handlePiece_accepts hd hroom, hindex, writePiece, hfile, seekPiece, if_neg (by omega)]
  dsimp only
  rw [hcat]
  dsimp only
  rw [show (Env.pointingOnly p behindMsg spare beyond).load (clobber Env.calm.heapPtr p) = some 0
    from if_pos rfl]
  exact ⟨_, _, rfl⟩

/-- With another index the process stops, at the file or at the pointer. -/
theorem handlePiece_astray
    (hd : ans.hashAt (1 * 20) (.pointingOnly p behindMsg spare beyond) = some d)
    (hroom : ans.pieceLength ≤ bufsiz + spare) (hindex : (msg.advance 5).readInt ≠ p) (s : Client) :
    ∃ stop, handlePiece (fun _ => d) ans s 1 msg (.pointingOnly p behindMsg spare beyond)
      = .error stop := by
  have hload : (Env.pointingOnly p behindMsg spare beyond).load
      (clobber Env.calm.heapPtr (msg.advance 5).readInt) = none := by
    refine if_neg ?_
    intro heq
    apply hindex
    rw [← setWidth_clobber Env.calm.heapPtr (msg.advance 5).readInt, heq]
    exact setWidth_clobber _ p
  rw [handlePiece_accepts hd hroom, hload]
  cases writePiece s.file (msg.advance 5).readInt ans.pieceSizeBytes
      (pieceBuffer ans s msg (.pointingOnly p behindMsg spare beyond)) (bufsiz + spare)
      Env.calm.taken with
  | error stop => exact ⟨stop, rfl⟩
  | ok w => exact ⟨.fault, rfl⟩

end Pointing

/-! ## An index that reaches into the rest -/

/-- The buffer holding the first bytes of `m`, and `m` going on behind the
message. -/
theorem msgMem_filled {m : Mem} (hm : ∀ i, i < chunk.length → m i = chunk.getD i 0)
    (hfits : chunk.length ≤ bufsiz) (hsize : (fieldSize chunk).toNat ≤ bufsiz)
    (he : e.behindMsg = m.advance (fieldSize chunk).toNat) :
    msgMem chunk ((m.advance chunk.length).read (bufsiz - chunk.length)) e = m := by
  have hbytes : chunk ++ (m.advance chunk.length).read (bufsiz - chunk.length) = m.read bufsiz := by
    have hsplit := Mem.read_add m chunk.length (bufsiz - chunk.length)
    have hfront : m.read chunk.length = chunk := by
      apply ext_getD (Mem.length_read _ _)
      intro i hi
      rw [Mem.length_read] at hi
      rw [Mem.getD_read _ hi, hm i hi]
    rw [Nat.add_sub_cancel' hfits, hfront] at hsplit
    exact hsplit.symm
  funext i
  rw [msgMem_eq, hbytes, he]
  split
  · next hi => rw [Mem.of_lt (by rw [Mem.length_read]; omega), Mem.getD_read _ (by omega)]
  · next hi => rw [Mem.advance, Nat.add_sub_cancel' (by omega)]

/-- A byte of the index makes a difference to it. -/
theorem index_ne {m m' : Mem} {j : Nat} (h5 : 5 ≤ j) (h9 : j < 9) (hne : m j ≠ m' j)
    (hsame : ∀ i, i ≠ j → m i = m' i) : (m.advance 5).readInt ≠ (m'.advance 5).readInt := by
  intro heq
  have hbytes := congrArg BitVec.toNat heq
  simp only [Mem.readInt, toNat_leInt, Mem.advance, Nat.reduceAdd, Nat.add_zero] at hbytes
  have hnat : (m j).toNat ≠ (m' j).toNat := fun h => hne (BitVec.eq_of_toNat_eq h)
  have hlt5 := (m 5).isLt
  have hlt6 := (m 6).isLt
  have hlt7 := (m 7).isLt
  have hlt5' := (m' 5).isLt
  have hlt6' := (m' 6).isLt
  have hlt7' := (m' 7).isLt
  have hj : j = 5 ∨ j = 6 ∨ j = 7 ∨ j = 8 := by omega
  rcases hj with rfl | rfl | rfl | rfl
  · have h6 := hsame 6 (by decide)
    have h7 := hsame 7 (by decide)
    have h8 := hsame 8 (by decide)
    rw [h6, h7, h8] at hbytes
    omega
  · have h5 := hsame 5 (by decide)
    have h7 := hsame 7 (by decide)
    have h8 := hsame 8 (by decide)
    rw [h5, h7, h8] at hbytes
    omega
  · have h5 := hsame 5 (by decide)
    have h6 := hsame 6 (by decide)
    have h8 := hsame 8 (by decide)
    rw [h5, h6, h8] at hbytes
    omega
  · have h5 := hsame 5 (by decide)
    have h6 := hsame 6 (by decide)
    have h7 := hsame 7 (by decide)
    rw [h5, h6, h7] at hbytes
    omega

/-- A block over the whole buffer that lies behind the message, and an index
of which a byte was not received and that may have an offset in the file. -/
theorem not_judged_index {ans : BtInfo} (h5 : 5 ≤ chunk.length)
    (hreadable : ¬ Unreadable (bufsiz + above) chunk)
    (hid : MsgID.ofByte (chunk.getD 4 0) = some .piece) (hover : bufsiz ≤ ans.pieceLength)
    (hroom : ans.pieceLength ≤ bufsiz + above) (h9 : chunk.length < 9)
    (hin : chunk.length < (fieldSize chunk).toNat) (hten : (fieldSize chunk).toNat ≤ 10)
    {rest : Mem}
    (hoff : 0 ≤ (((Mem.of chunk rest).advance 5).readInt * ans.pieceSizeBytes).toInt) :
    ¬ JudgedAsMessage ans (bufsiz + above) chunk := by
  have hfits : chunk.length ≤ bufsiz := by rw [bufsiz]; omega
  -- the index of the message, and zeros behind it
  let m : Mem := fun i => if i < 9 then Mem.of chunk rest i else 0
  let m' : Mem := fun i => if i = chunk.length then m i + 1 else m i
  let p := ((Mem.of chunk rest).advance 5).readInt
  have hm : ∀ i, i < chunk.length → m i = chunk.getD i 0 := by
    intro i hi
    show (if i < 9 then Mem.of chunk rest i else 0) = _
    rw [if_pos (by omega), Mem.of_lt hi]
  have hm' : ∀ i, i < chunk.length → m' i = chunk.getD i 0 := by
    intro i hi
    show (if i = chunk.length then m i + 1 else m i) = _
    rw [if_neg (by omega), hm i hi]
  have hp : (m.advance 5).readInt = p := by
    have hlow : ∀ i, i < 9 → m i = Mem.of chunk rest i := fun i hi => if_pos hi
    show leInt _ _ _ _ = leInt _ _ _ _
    simp only [Mem.advance]
    rw [hlow (5 + 0) (by omega), hlow (5 + 1) (by omega), hlow (5 + 2) (by omega),
      hlow (5 + 3) (by omega)]
  have hbehind : m'.advance (fieldSize chunk).toNat = m.advance (fieldSize chunk).toNat := by
    funext i
    show (if _ then _ else _) = _
    rw [if_neg (by omega)]
    rfl
  let spare := ans.pieceLength - bufsiz
  let beyond := bufsiz + above - ans.pieceLength
  let e : Env := .pointingOnly p (m.advance (fieldSize chunk).toNat) spare beyond
  have hstack : e.stack = bufsiz + above := by
    show bufsiz + (ans.pieceLength - bufsiz) + (bufsiz + above - ans.pieceLength) = _
    omega
  have hmsg := msgMem_filled (e := e) hm hfits (by rw [bufsiz]; omega) rfl
  have hmsg' := msgMem_filled (e := e) hm' hfits (by rw [bufsiz]; omega) hbehind.symm
  have hrest : ∀ m : Mem,
      (chunk ++ (m.advance chunk.length).read (bufsiz - chunk.length)).length = bufsiz := by
    intro m
    rw [List.length_append, Mem.length_read]
    omega
  obtain ⟨d, hd⟩ : ∃ d, ans.hashAt (1 * 20) e = some d := exists_hashAt ans _ spare beyond
  refine not_judged (fun _ => d) (raised ans) 1 e hstack h5 hreadable (hrest m) (hrest m') ?_
  rw [hid, hmsg, hmsg']
  simp only [switch]
  have hzero : m 10 = 0 := if_neg (by decide)
  obtain ⟨s', evs, hrun⟩ := handlePiece_zeros
    (r := chunk ++ (m.advance chunk.length).read (bufsiz - chunk.length)) hd hover (by omega) hp
    hzero hoff
  have hq : (m'.advance 5).readInt ≠ p := by
    rw [← hp]
    refine index_ne h5 h9 ?_ fun i hi => if_neg hi
    show (if chunk.length = chunk.length then m chunk.length + 1 else _) ≠ m chunk.length
    rw [if_pos rfl]
    intro heq
    have hnat := congrArg BitVec.toNat heq
    have hlt := (m chunk.length).isLt
    rw [BitVec.toNat_add] at hnat
    simp only [BitVec.ofNat_eq_ofNat, BitVec.toNat_ofNat] at hnat
    omega
  obtain ⟨stop, hrun'⟩ := handlePiece_astray hd (by omega) hq ((raised ans).holding
    (chunk ++ (m'.advance chunk.length).read (bufsiz - chunk.length)))
  rw [hrun, hrun']
  intro hsame
  cases hsame

theorem not_judged_piece {ans : BtInfo} (hfits : chunk.length ≤ bufsiz) (h5 : 5 ≤ chunk.length)
    (hreadable : ¬ Unreadable (bufsiz + above) chunk)
    (hid : MsgID.ofByte (chunk.getD 4 0) = some .piece)
    (hopen : ¬ PieceDetermined ans (bufsiz + above) chunk) :
    ¬ JudgedAsMessage ans (bufsiz + above) chunk := by
  obtain ⟨hfull, hopen⟩ := not_or.mp hopen
  by_cases hover : bufsiz ≤ ans.pieceLength
  · obtain ⟨hroom, hopen⟩ := not_or.mp fun h => hopen ⟨hover, h⟩
    obtain ⟨hwithin, hopen⟩ := not_or.mp hopen
    rw [Within] at hwithin
    by_cases hten : (fieldSize chunk).toNat ≤ 10
    · obtain ⟨hnine, hsome⟩ := not_or.mp fun h => hopen ⟨hten, h⟩
      obtain ⟨rest, hoff⟩ := not_forall.mp hsome
      exact not_judged_index h5 hreadable hid hover (by omega) (by omega) (by omega) hten
        (Int.not_lt.mp hoff)
    · exact not_judged_block h5 hreadable hid hover (by omega) (j := max chunk.length 10)
        (by omega) (by omega) (by rw [bufsiz] at *; omega) (by omega)
  · exact not_judged_behind h5 hreadable hid (by omega) (by omega)

end Rests

/-- A chunk that leaves something open is not judged by its own bytes. -/
theorem determined_of_judged {ans : BtInfo} {above : Nat} {chunk : List Byte}
    (hfits : chunk.length ≤ bufsiz) (h : JudgedAsMessage ans (bufsiz + above) chunk) :
    Determined ans (bufsiz + above) chunk := by
  by_cases hreadable : Unreadable (bufsiz + above) chunk
  · exact .inl hreadable
  · have h5 : 5 ≤ chunk.length := by
      by_contra hshort
      exact not_judged_short (by omega) hreadable h
    refine .inr ⟨h5, ?_⟩
    cases hid : MsgID.ofByte (chunk.getD 4 0) with
    | none => trivial
    | some id =>
        cases id with
        | «have» =>
            by_contra hmissing
            exact not_judged_have h5 hreadable hid hmissing h
        | request =>
            by_contra hmissing
            exact not_judged_request h5 hreadable hid hmissing h
        | bitfield =>
            by_contra hmissing
            exact not_judged_bitfield h5 hreadable hid hmissing h
        | piece =>
            by_contra hopen
            exact not_judged_piece hfits h5 hreadable hid hopen h
        | _ => trivial

/-- **A chunk is judged by its own bytes** exactly when they determine what
the message branch does, however many bytes of stack there are behind the
buffer. -/
theorem chunk_judged_iff (ans : BtInfo) (above : Nat) (c : Chunk)
    (hhandshake : c.bytes.length ≠ fullHandshakeLength)
    (hgreeting : c.bytes.length ≠ fullHandshakeLength + ans.bitfieldMsgLength) :
    JudgedByOwnBytes ans (bufsiz + above) c ↔ Determined ans (bufsiz + above) c.bytes := by
  constructor
  · intro h
    apply determined_of_judged c.fits
    intro sha1 s k e rest rest' hstack hrest hrest'
    rw [← receive_message hhandshake hgreeting, ← receive_message hhandshake hgreeting]
    exact h sha1 s k e rest rest' hstack hrest hrest'
  · intro h sha1 s k e rest rest' hstack hrest hrest'
    rw [receive_message hhandshake hgreeting, receive_message hhandshake hgreeting]
    exact judged_of_determined h sha1 s k e rest rest' hstack hrest hrest'

/-- A `REQUEST` received whole. -/
def wholeRequest : Chunk := ⟨constructRequestMessage 3 0 4, by decide, by decide⟩

/-- It is judged by its own bytes, however much stack there is. -/
theorem chunk_judged_iff_request :
    (wholeRequest.bytes.length ≠ fullHandshakeLength ∧
      wholeRequest.bytes.length ≠ fullHandshakeLength + eightPieces.bitfieldMsgLength) ∧
    ∀ above, JudgedByOwnBytes eightPieces (bufsiz + above) wholeRequest :=
  ⟨⟨by decide, by decide⟩, fun above =>
    (chunk_judged_iff eightPieces above wholeRequest (by decide) (by decide)).mpr
      (.inr ⟨by decide, by
        show min (min 9 _) bufsiz ≤ 17
        omega⟩)⟩

/-- The length field of a state message, cut off before the ID. -/
def cutOff : Chunk := ⟨leBytes 1, by decide, by decide⟩

/-- Whether it chokes or unchokes the client is up to an earlier message. -/
theorem chunk_judged_cut_off :
    (cutOff.bytes.length ≠ fullHandshakeLength ∧
      cutOff.bytes.length ≠ fullHandshakeLength + eightPieces.bitfieldMsgLength) ∧
    ∀ above, ¬ JudgedByOwnBytes eightPieces (bufsiz + above) cutOff := by
  refine ⟨⟨by decide, by decide⟩, ?_⟩
  intro above hjudged
  have hreadable : ¬ Unreadable (bufsiz + above) cutOff.bytes := by
    intro h
    have hfive := h fun _ => 0
    have hsize : (Mem.of cutOff.bytes fun _ => 0).readInt + 4 = 5 := by decide
    rw [hsize, bufsiz] at hfive
    have hint : (5 : CInt).toInt = 5 := rfl
    have hnat : (5 : CInt).toNat = 5 := rfl
    omega
  refine @not_judged_short _ _ eightPieces (by decide) hreadable ?_
  intro sha1 s k e rest rest' hstack hrest hrest'
  have hsame := hjudged sha1 s k e rest rest' hstack hrest hrest'
  rwa [receive_message (by decide) (by decide), receive_message (by decide) (by decide)] at hsame

end DubstepDucks.Torrent
