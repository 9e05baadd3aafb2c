import DubstepDucks.Btp.Messages

/-!
# Btp — the connection record

`struct connection_info`, `initialize_connection`, `Set_Flag` and the
`Send_*` functions of `btp.c` as functions on the record, exactly as the bit
expressions of the source compute: `|= 0<<F` sets nothing, `&= 0<<F` clears
the whole byte, and `initialize_connection` ors its defaults onto whatever
the record held.

A `Send_*` function returns the record together with the message it passes
to `send`; whether `send` succeeds is the caller's business.
-/

namespace DubstepDucks.Btp

open CMem

/-- The bits of `status_flags` that `btp.h` names. -/
inductive Flag where
  | connectionStatus | ownInterested | ownChoke | peerInterested | peerChoke | pendingRequest
  deriving DecidableEq, Repr

/-- `CONNECTIONSTATUS` … `PENDINGREQUEST`. -/
def Flag.bit : Flag → Nat
  | .connectionStatus => 7
  | .ownInterested => 6
  | .ownChoke => 5
  | .peerInterested => 4
  | .peerChoke => 3
  | .pendingRequest => 2

/-- `Connections`. A `peerBitfield` that was never assigned is `none`. -/
structure Connections where
  statusFlags : Byte
  requestedPiece : CInt
  pieceToSend : CInt
  peerBitfield : Option (List Byte)
  deriving DecidableEq

/-- The record of a zeroed `connections` array. -/
def Connections.zeroed : Connections := ⟨0, 0, 0, none⟩

/-- `(status_flags >> F) & 1`: the `char` is promoted to a signed int first. -/
def Connections.flag (c : Connections) (f : Flag) : Bool :=
  ((c.statusFlags.signExtend 32).sshiftRight f.bit &&& 1) ≠ 0

/-- `Set_Flag`. -/
def setFlag (c : Connections) (f : Flag) (state : Int) : Connections :=
  if state = 1 then { c with statusFlags := c.statusFlags ||| (1 <<< f.bit) }
  else if state = 0 then { c with statusFlags := c.statusFlags &&& (0 <<< f.bit) }
  else c

/-- `initialize_connection`, for a non-negative number of pieces. -/
def initializeConnection (c : Connections) (totalPieces : Nat) : Connections :=
  { statusFlags := c.statusFlags ||| (0 <<< 7 ||| 0 <<< 6 ||| 1 <<< 5 ||| 0 <<< 4 ||| 1 <<< 3 |||
      0 <<< 2)
    requestedPiece := -1
    pieceToSend := -1
    peerBitfield := some (List.replicate (totalPieces / 8) 0) }

def sendInterested (c : Connections) : Connections × WireMsg :=
  ({ c with statusFlags := c.statusFlags ||| (1 <<< Flag.ownInterested.bit) },
    .state MsgID.interested.byte)

def sendUninterested (c : Connections) : Connections × WireMsg :=
  ({ c with statusFlags := c.statusFlags ||| (0 <<< Flag.ownInterested.bit) },
    .state MsgID.uninterested.byte)

def sendUnchoked (c : Connections) : Connections × WireMsg :=
  ({ c with statusFlags := c.statusFlags ||| (0 <<< Flag.peerChoke.bit) },
    .state MsgID.unchoke.byte)

/-- The record update at the end of `Send_request` and of `Send_piece`. -/
def markRequested (c : Connections) (pieceIndex : CInt) : Connections :=
  { c with statusFlags := c.statusFlags ||| (1 <<< Flag.pendingRequest.bit)
           requestedPiece := pieceIndex }

def sendRequest (c : Connections) (pieceIndex : CInt) : Connections × WireMsg :=
  (markRequested c pieceIndex, .request pieceIndex 0 0)

/-- `Send_piece` once `get_piece_from_file` returned `piece`. -/
def sendPiece (c : Connections) (pieceIndex pieceLen : CInt) (piece : List Byte) :
    Connections × WireMsg :=
  (markRequested c pieceIndex, .piece pieceIndex 0 pieceLen piece)

/-! ## The flags of a record -/

theorem Flag.bit_lt (f : Flag) : f.bit < 8 := by
  cases f <;> decide

/-- The shifted and masked int is the bit of the byte. -/
theorem flag_eq_bit (c : Connections) (f : Flag) : c.flag f = c.statusFlags.getLsbD f.bit := by
  have hbit : f.bit < 8 := f.bit_lt
  -- all six bits lie below the sign bit's copies
  have hread : ((c.statusFlags.signExtend 32).sshiftRight f.bit).getLsbD 0
      = c.statusFlags.getLsbD f.bit := by
    rw [BitVec.getLsbD_sshiftRight, Nat.add_zero, if_pos (by omega), BitVec.getLsbD_signExtend,
      if_pos hbit]
    simp [show f.bit < 32 by omega]
  show decide ((c.statusFlags.signExtend 32).sshiftRight f.bit &&& 1#32 ≠ 0) = _
  rw [BitVec.and_one_eq_setWidth_ofBool_getLsbD, hread]
  cases c.statusFlags.getLsbD f.bit <;> rfl

/-- The six flags as independent booleans. -/
abbrev Flags := Flag → Bool

def Connections.flags (c : Connections) : Flags := fun f => c.flag f

/-- No flag set. -/
def Flags.clear : Flags := fun _ => false

def Flags.set (a : Flags) (f : Flag) (b : Bool) : Flags := fun g => if g = f then b else a g

theorem getLsbD_bit (f g : Flag) : (1 <<< f.bit : Byte).getLsbD g.bit = decide (g = f) := by
  cases f <;> cases g <;> rfl

/-- Or-ing one flag's bit into the byte sets that flag only. -/
theorem getLsbD_or_bit (s : Byte) (f g : Flag) :
    (s ||| (1 <<< f.bit)).getLsbD g.bit = if g = f then true else s.getLsbD g.bit := by
  rw [BitVec.getLsbD_or, getLsbD_bit]
  by_cases h : g = f <;> simp [h]

/-- Setting a flag sets that flag only. -/
theorem flags_setFlag_one (c : Connections) (f : Flag) :
    (setFlag c f 1).flags = c.flags.set f true := by
  funext g
  simp only [Connections.flags, Flags.set, flag_eq_bit, setFlag, if_true, getLsbD_or_bit]

/-- Clearing a flag clears every flag: the mask `0<<F` is zero. -/
theorem flags_setFlag_zero (c : Connections) (f : Flag) :
    (setFlag c f 0).flags = Flags.clear := by
  funext g
  simp [Connections.flags, Flags.clear, flag_eq_bit, setFlag]

theorem peerBitfield_setFlag (c : Connections) (f : Flag) (state : Int) :
    (setFlag c f state).peerBitfield = c.peerBitfield := by
  rw [setFlag]
  split
  · rfl
  · split <;> rfl

theorem flags_sendInterested (c : Connections) :
    (sendInterested c).1.flags = c.flags.set .ownInterested true :=
  flags_setFlag_one c .ownInterested

theorem flags_sendUninterested (c : Connections) : (sendUninterested c).1.flags = c.flags := by
  funext g
  simp [Connections.flags, flag_eq_bit, sendUninterested]

theorem flags_sendUnchoked (c : Connections) : (sendUnchoked c).1.flags = c.flags := by
  funext g
  simp [Connections.flags, flag_eq_bit, sendUnchoked]

theorem flags_markRequested (c : Connections) (p : CInt) :
    (markRequested c p).flags = c.flags.set .pendingRequest true :=
  flags_setFlag_one c .pendingRequest

/-- The defaults `initialize_connection` lists. -/
def Flags.initial : Flags
  | .ownChoke => true
  | .peerChoke => true
  | _ => false

/-- `initialize_connection` adds its defaults to the flags that were set. -/
theorem flags_initializeConnection (c : Connections) (n : Nat) :
    (initializeConnection c n).flags = fun f => c.flags f || Flags.initial f := by
  funext f
  simp only [Connections.flags, flag_eq_bit, initializeConnection, BitVec.getLsbD_or]
  cases f <;> rfl

theorem flags_initialize_zeroed (n : Nat) :
    (initializeConnection Connections.zeroed n).flags = Flags.initial := by
  rw [flags_initializeConnection]
  funext f
  cases f <;> rfl

end DubstepDucks.Btp
