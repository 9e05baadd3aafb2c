import DubstepDucks.CMem.Strings

/-!
# Btp — handshakes and bitfields

The handshake functions of `btp.c`, `Set_peerBitfield` and the comparison of
two bitfields. `verify_handshake` compares twenty bytes of a nineteen-byte
copy with the protocol name, so its answer depends on the byte `malloc` left
behind the copy.
-/

namespace DubstepDucks.Btp

open CMem

/-- `FULLHANDSHAKELENGTH`. -/
def fullHandshakeLength : Nat := 68

/-- `BTPROTOCOL`. -/
def btProtocol : List Byte := ascii "BitTorrent protocol"

/-- `construct_handshake`: name length, name, eight reserved bytes, hash and
peer ID. -/
def constructHandshake (hash id : Mem) : List Byte :=
  19 :: btProtocol ++ List.replicate 8 0 ++ hash.read 20 ++ id.read 20

/-- `verify_handshake`; `fresh` is the uninitialised last byte of
`peerProtocolName`. -/
def verifyHandshake (handshake : Mem) (clientFileSHA1 : Mem) (fresh : Byte) : Int :=
  if handshake 0 ≠ 19 then -1
  else if (handshake.advance 1).read 19 ++ [fresh] ≠ btProtocol ++ [0] then -2
  else if (handshake.advance 28).read 20 ≠ clientFileSHA1.read 20 then -3
  else 0

/-! ## What a handshake is accepted for

The three checks the comment above `verify_handshake` lists, in its order,
and the answers it gives for the first one that fails. -/

/-- The `Name Length` field. -/
def NameLengthOk (handshake : Mem) : Prop := handshake 0 = 19

/-- The `Protocol Name` field. -/
def ProtocolNameOk (handshake : Mem) : Prop := (handshake.advance 1).read 19 = btProtocol

/-- The `Info Hash` field. -/
def InfoHashOk (handshake clientFileSHA1 : Mem) : Prop :=
  (handshake.advance 28).read 20 = clientFileSHA1.read 20

/-- `answer` is 0 for a handshake that passes all three checks, and names the
first failing check of any other. -/
structure Judges (handshake clientFileSHA1 : Mem) (answer : Int) : Prop where
  accepted : answer = 0 ↔
    NameLengthOk handshake ∧ ProtocolNameOk handshake ∧ InfoHashOk handshake clientFileSHA1
  nameLength : answer = -1 ↔ ¬ NameLengthOk handshake
  protocolName : answer = -2 ↔ NameLengthOk handshake ∧ ¬ ProtocolNameOk handshake
  infoHash : answer = -3 ↔
    NameLengthOk handshake ∧ ProtocolNameOk handshake ∧ ¬ InfoHashOk handshake clientFileSHA1

section Acceptance

variable (handshake clientFileSHA1 : Mem)

/-- The first check does not look at the copied name. -/
theorem verifyHandshake_badLength (fresh : Byte) (hlength : ¬ NameLengthOk handshake) :
    verifyHandshake handshake clientFileSHA1 fresh = -1 := if_pos hlength

variable {handshake} in
/-- Once the name length is right, twenty bytes that differ give -2. -/
theorem verifyHandshake_badCopy {fresh : Byte} (hlength : NameLengthOk handshake)
    (hdiffer : (handshake.advance 1).read 19 ++ [fresh] ≠ btProtocol ++ [0]) :
    verifyHandshake handshake clientFileSHA1 fresh = -2 :=
  (if_neg (not_not_intro hlength)).trans (if_pos hdiffer)

variable {handshake} in
/-- A wrong name is reported whatever the byte behind the copy. -/
theorem verifyHandshake_badName (fresh : Byte) (hlength : NameLengthOk handshake)
    (hname : ¬ ProtocolNameOk handshake) :
    verifyHandshake handshake clientFileSHA1 fresh = -2 := by
  apply verifyHandshake_badCopy clientFileSHA1 hlength
  intro hsame
  exact hname (List.append_inj_left' hsame rfl)

variable {handshake} in
/-- And so is a right name with a byte other than zero behind it. -/
theorem verifyHandshake_garbage {fresh : Byte} (hlength : NameLengthOk handshake)
    (hfresh : fresh ≠ 0) : verifyHandshake handshake clientFileSHA1 fresh = -2 := by
  apply verifyHandshake_badCopy clientFileSHA1 hlength
  intro hsame
  exact hfresh (List.cons.inj (List.append_inj_right' hsame rfl)).1

variable {handshake} in
/-- With a zero there the comparison of twenty bytes is one of nineteen, and
the hash decides. -/
theorem verifyHandshake_hash (hlength : NameLengthOk handshake) (hname : ProtocolNameOk handshake) :
    verifyHandshake handshake clientFileSHA1 0
      = if (handshake.advance 28).read 20 ≠ clientFileSHA1.read 20 then -3 else 0 := by
  have hsame : (handshake.advance 1).read 19 ++ [0] = btProtocol ++ [0] :=
    congrArg (· ++ [0]) hname
  exact (if_neg (not_not_intro hlength)).trans (if_neg (not_not_intro hsame))

/-- The function is right about every buffer if the byte is zero. -/
theorem judges_verifyHandshake_zero :
    Judges handshake clientFileSHA1 (verifyHandshake handshake clientFileSHA1 0) := by
  by_cases hlength : NameLengthOk handshake
  · by_cases hname : ProtocolNameOk handshake
    · rw [verifyHandshake_hash clientFileSHA1 hlength hname]
      by_cases hhash : (handshake.advance 28).read 20 = clientFileSHA1.read 20
      · rw [if_neg (not_not_intro hhash)]
        constructor <;> simp [InfoHashOk, hlength, hname, hhash]
      · rw [if_pos hhash]
        constructor <;> simp [InfoHashOk, hlength, hname, hhash]
    · rw [verifyHandshake_badName clientFileSHA1 0 hlength hname]
      constructor <;> simp [hlength, hname]
  · rw [verifyHandshake_badLength handshake clientFileSHA1 0 hlength]
    constructor <;> simp [hlength]

/-- A field that fails at the name or before it hides the byte. -/
theorem verifyHandshake_of_early_failure (fresh : Byte)
    (h : ¬ NameLengthOk handshake ∨ ¬ ProtocolNameOk handshake) :
    verifyHandshake handshake clientFileSHA1 fresh
      = verifyHandshake handshake clientFileSHA1 0 := by
  by_cases hlength : NameLengthOk handshake
  · have hname := h.resolve_left (not_not_intro hlength)
    rw [verifyHandshake_badName clientFileSHA1 fresh hlength hname,
      verifyHandshake_badName clientFileSHA1 0 hlength hname]
  · rw [verifyHandshake_badLength handshake clientFileSHA1 fresh hlength,
      verifyHandshake_badLength handshake clientFileSHA1 0 hlength]

theorem judges_verifyHandshake_iff (fresh : Byte) :
    Judges handshake clientFileSHA1 (verifyHandshake handshake clientFileSHA1 fresh) ↔
      fresh = 0 ∨ ¬ NameLengthOk handshake ∨ ¬ ProtocolNameOk handshake := by
  constructor
  · intro hjudges
    by_contra hbad
    obtain ⟨hfresh, hearly⟩ := not_or.mp hbad
    obtain ⟨hlength, hname⟩ := not_or.mp hearly
    have hanswer := verifyHandshake_garbage clientFileSHA1 (not_not.mp hlength) hfresh
    exact hname (hjudges.protocolName.mp hanswer).2
  · rintro (rfl | hearly)
    · exact judges_verifyHandshake_zero handshake clientFileSHA1
    · rw [verifyHandshake_of_early_failure handshake clientFileSHA1 fresh hearly]
      exact judges_verifyHandshake_zero handshake clientFileSHA1

/-! ## A handshake of one's own making -/

variable (hash id rest : Mem)

/-- A constructed handshake passes the first two checks, and carries the hash
it was built from where the third one looks. -/
theorem fields_constructHandshake :
    NameLengthOk (Mem.of (constructHandshake hash id) rest) ∧
      ProtocolNameOk (Mem.of (constructHandshake hash id) rest) ∧
      (InfoHashOk (Mem.of (constructHandshake hash id) rest) clientFileSHA1 ↔
        hash.read 20 = clientFileSHA1.read 20) := by
  have hread : ((Mem.of (constructHandshake hash id) rest).advance 28).read 20 = hash.read 20 := rfl
  refine ⟨rfl, rfl, ?_⟩
  rw [InfoHashOk, hread]

end Acceptance

/-- **When a handshake is judged rightly.** `verify_handshake` answers as its
comment says exactly when the byte `malloc` left behind the copied name is
zero or the name check fails anyway; a handshake of one's own making is
accepted for just its own hash unless that byte turns it down. -/
theorem verifyHandshake_judges (fresh : Byte) :
    (∀ handshake clientFileSHA1 : Mem,
      Judges handshake clientFileSHA1 (verifyHandshake handshake clientFileSHA1 fresh) ↔
        fresh = 0 ∨ ¬ NameLengthOk handshake ∨ ¬ ProtocolNameOk handshake) ∧
    ∀ hash hash' id rest : Mem,
      ((verifyHandshake (Mem.of (constructHandshake hash id) rest) hash' fresh = 0 ↔
          hash.read 20 = hash'.read 20) ↔
        fresh = 0 ∨ hash.read 20 ≠ hash'.read 20) := by
  refine ⟨fun handshake hash => judges_verifyHandshake_iff handshake hash fresh, ?_⟩
  intro hash hash' id rest
  obtain ⟨hlength, hname, hhash⟩ := fields_constructHandshake hash' hash id rest
  by_cases hfresh : fresh = 0
  · rw [hfresh, (judges_verifyHandshake_zero _ hash').accepted, hhash]
    simp [hlength, hname]
  · have hrejected : ¬ (-2 : Int) = 0 := by decide
    rw [verifyHandshake_garbage hash' hlength hfresh, or_iff_right hfresh,
      iff_false_left hrejected]

/-- A one behind the copied name: the client turns down its own handshake. -/
theorem verifyHandshake_garbage_byte :
    ¬ ∀ (handshake clientFileSHA1 : Mem) (fresh : Byte),
      Judges handshake clientFileSHA1 (verifyHandshake handshake clientFileSHA1 fresh) := by
  intro hclaim
  have hjudges := hclaim (Mem.of (constructHandshake (fun _ => 0) fun _ => 0) fun _ => 0)
    (fun _ => 0) 1
  have haccepted := hjudges.accepted.mpr ⟨rfl, rfl, rfl⟩
  exact absurd haccepted (by decide)

/-! ## Bitfields -/

/-- `Set_peerBitfield`: everything behind the handshake, header included. -/
def setPeerBitfield (buffer : Mem) (bitfieldMsgLength : Nat) : List Byte :=
  (buffer.advance fullHandshakeLength).read bitfieldMsgLength

/-- `peerContainsUndownloadedPieces`. The bytes are promoted to int before
they are subtracted. -/
def peerContainsUndownloadedPieces (peerBuffer ownBuffer : Mem) : Nat → Int
  | 0 => 0
  | bitPieces + 1 =>
      let commonBits := peerBuffer 0 &&& ownBuffer 0
      if (peerBuffer 0).toInt - commonBits.toInt ≠ 0 then 1
      else peerContainsUndownloadedPieces (peerBuffer.advance 1) (ownBuffer.advance 1) bitPieces

end DubstepDucks.Btp
