import DubstepDucks.Btp.Connection
import DubstepDucks.Btp.Handshake
import DubstepDucks.Torrent.FileConstructor

/-!
# Torrent — the client's main loop

The `while(1)` of `torrent.c`. `Client` is what the loop body reads and
writes, `turn` is one pass of the `for` body for the slot `i`: `receive`
(the `recv` and its dispatch by length) and then `serve` (the POLLOUT
branch). `startRound` is what happens before the `for`, and a `Run` is any
sequence of rounds and turns together with the log of what was received and
sent. The request choice loop of the source counts with the same `i`, so
`serve` returns with the slot it stopped at.

What the source leaves to chance is an `Env`, given anew to every call:
whether `send` succeeds, addresses and uninitialised memory, the bytes
behind an object that is read past its end, the third argument that the call
of `verify_piece` does not pass. A write past the end of a heap block, and
the second `free` of one, may change every other heap block (`Client.smash`)
or kill the process. Behind the receive buffer the stack has some bytes that
nothing uses (`Env.spare`): a write that goes past the buffer and no further
than these goes on as if nothing had happened. Any other write past the end
of an array on the stack ends the run as a fault, and so does a read past
the end of the stack, and an invalid pointer.

`set_initial_bitfield` is called without a declaration, so the pointer it
returns passes through an int; a client that survives its first round has
its heap below `2^31`, and the pointer is the one that was allocated.
-/

namespace DubstepDucks.Torrent

open CMem Btp

/-- `BUFSIZ`. -/
def bufsiz : Nat := 8192

/-- `MAX_PEERS`. -/
def maxPeers : Nat := 10

/-- The fields of `bt_info_t` the loop uses. -/
structure BtInfo where
  numPieces : Nat
  pieceLength : Nat
  pieceHashes : List Digest
  numPieces_pos : 0 < numPieces
  numPieces_lt : numPieces < 2 ^ 31
  pieceLength_pos : 0 < pieceLength
  pieceLength_lt : pieceLength < 2 ^ 31
  hashes_length : pieceHashes.length = numPieces

/-- `bitfieldLen`: a division by `sizeof(char)`, and one more when the number
of pieces is divisible by eight. -/
def BtInfo.bitfieldLen (ans : BtInfo) : Nat :=
  if ans.numPieces / 8 * 8 = ans.numPieces then ans.numPieces + 1 else ans.numPieces

def BtInfo.bitfieldMsgLength (ans : BtInfo) : Nat := 4 + 1 + ans.bitfieldLen

/-- `piece_size_bytes`. -/
def BtInfo.pieceSizeBytes (ans : BtInfo) : CInt := BitVec.ofNat 32 ans.pieceLength

def fileSha : Mem := Mem.of (ascii "AAAAAAAAAAAAAAAAAAA1") fun _ => 0

def ownId : Mem := Mem.of (ascii "00000000000000000001") fun _ => 0

def ownHandshake : List Byte := constructHandshake fileSha ownId

/-- `struct pollfd`; of the event bits only `POLLOUT` decides anything. -/
structure PollFd where
  fd : Int
  events : Bool
  revents : Bool
  deriving DecidableEq

/-- What the loop body reads and writes. -/
structure Client where
  connections : Nat → Connections
  fds : Nat → PollFd
  ownBitfield : List Byte
  /-- What stands behind `file_destination`. -/
  file : Option (List Byte)
  /-- The receive buffer: its first `bufsiz` bytes. -/
  buffer : Mem
  /-- `test` was freed by an earlier `HAVE`. -/
  testFreed : Bool
  maxPeerIndex : Nat
  i : Nat

/-- The heap after a stray write: the bytes now in the bitfields. -/
structure Smash where
  own : Mem
  peer : Nat → Mem

/-- What a call finds in its environment. -/
structure Env where
  sendOk : Bool
  /-- The address of the block allocated for `piece_index`. -/
  heapPtr : BitVec 64
  /-- The int at an address; `none` is an unmapped one. -/
  load : BitVec 64 → Option CInt
  /-- The register that holds the third argument of `verify_piece`. -/
  thirdArg : CInt
  /-- The digests behind the pointers past the end of `piece_hashes`. -/
  beyondHashes : Nat → Option Digest
  behindBuffer : Mem
  /-- How many bytes directly behind the receive buffer are nobody's. -/
  spare : Nat
  /-- How many more bytes the stack has behind those. -/
  above : Nat
  behindMsg : Mem
  behindIntro : Mem
  behindPeer : Mem
  behindOwn : Mem
  /-- The last byte of the block for `peerProtocolName`. -/
  freshByte : Byte
  /-- The block for a piece read from the file. -/
  freshBlock : Mem
  /-- How many bytes `write` takes. -/
  taken : Nat
  /-- The uninitialised `piece_index` of the choice loop. -/
  pieceIndex : CInt
  /-- What a stray heap write does; `none` kills the process. -/
  smash : Option Smash

/-- How many bytes may be written from the receive buffer on. -/
def Env.room (e : Env) : Nat := bufsiz + e.spare

/-- How many bytes can be read from the receive buffer on. -/
def Env.stack (e : Env) : Nat := e.room + e.above

theorem Env.bufsiz_le_room (e : Env) : bufsiz ≤ e.room := Nat.le_add_right _ _

theorem Env.bufsiz_le_stack (e : Env) : bufsiz ≤ e.stack :=
  Nat.le_trans e.bufsiz_le_room (Nat.le_add_right _ _)

/-- A non-empty `recv`. -/
structure Chunk where
  bytes : List Byte
  nonempty : 0 < bytes.length
  fits : bytes.length ≤ bufsiz

/-- The outcome of `recv`. -/
inductive Recv where
  | error
  | closed
  | chunk (c : Chunk)

/-- What the message switch made of a chunk. -/
inductive Heard where
  | choke | unchoke | interested | uninterested
  | have (p : CInt)
  | bitfield
  | request (p : CInt)
  | piece (p : CInt)
  | cancel
  | other
  deriving DecidableEq, Repr

/-- The log of a run. Slots are numbered as in `connections` and `fds`. -/
inductive Event where
  /-- The chunk received on slot `k` went to the message switch as `m`. -/
  | heard (k : Nat) (chunk : List Byte) (m : Heard)
  /-- The chunk received on slot `k` went to one of the handshake cases. -/
  | greeted (k : Nat) (chunk : List Byte)
  | dropped (k : Nat)
  /-- A `PIECE` on slot `k` passed `verify_piece`: of the extracted `block`,
  `write_piece` put `written` into the file for piece `p`, and `1 << shift`
  was or-ed into the own bitfield. -/
  | stored (k : Nat) (p : CInt) (block written : List Byte) (shift : CInt)
  /-- A stray heap write; the own bitfield is now `own`. -/
  | smashed (own : List Byte)
  /-- The handshake and bitfield sent to slot `k`. -/
  | introduced (k : Nat) (bytes : List Byte)
  /-- During the turn of slot `turn`, `m` was sent to the socket of slot `k`. -/
  | sent (turn k : Nat) (m : WireMsg)
  deriving DecidableEq

/-! ## Small steps -/

namespace Client

def modifyConn (s : Client) (k : Nat) (f : Connections → Connections) : Client :=
  { s with connections := fun j => if j = k then f (s.connections j) else s.connections j }

/-- `memset(buffer, 0, sizeof(buffer))`. -/
def clearBuffer (s : Client) : Client := { s with buffer := fun _ => 0 }

/-- The buffer as a pointer: behind it lies the rest of the stack. -/
def bufPtr (s : Client) (e : Env) : Mem :=
  fun i => if i < bufsiz then s.buffer i else e.behindBuffer (i - bufsiz)

/-- A write outside its heap block, or a second `free`. -/
def smash (s : Client) (e : Env) : Except Stop (Client × List Event) :=
  match e.smash with
  | none => .error .fault
  | some m =>
      let own := m.own.read s.ownBitfield.length
      let connections := fun k =>
        { s.connections k with
          peerBitfield := (s.connections k).peerBitfield.map fun bits =>
            (m.peer k).read bits.length }
      .ok ({ s with ownBitfield := own, connections := connections }, [.smashed own])

/-- A `Send_*` function called on slot `k` during the turn of slot `turn`. -/
def transmit (s : Client) (turn k : Nat) (f : Connections → Connections × WireMsg) (e : Env) :
    Except Stop (Client × List Event) :=
  if (s.fds k).fd < 0 ∨ e.sendOk = false then .error .exit
  else .ok (s.modifyConn k fun c => (f c).1, [.sent turn k (f (s.connections k)).2])

end Client

/-! ## Receiving -/

/-- `Verify_handshake`: the buffer with its first eight bytes zeroed
(`sizeof` a pointer). -/
def checkHandshake (s : Client) (e : Env) : Except Stop Client :=
  if verifyHandshake (s.bufPtr e) fileSha e.freshByte ≠ 0 then .error .exit
  else .ok { s with buffer := s.buffer.write 0 (List.replicate 8 0) }

/-- The case of a bare handshake: answer with handshake and bitfield. The
bitfield message is shorter than the number of bytes copied from it. -/
def greet (ans : BtInfo) (s : Client) (k : Nat) (chunk : List Byte) (e : Env) :
    Except Stop (Client × List Event) :=
  match checkHandshake s e with
  | .error stop => .error stop
  | .ok s =>
      let s := s.clearBuffer
      let bfMessage :=
        constructBitfieldMessage s.ownBitfield (BitVec.ofNat 32 (ans.numPieces / 8))
      let introMsg := ownHandshake ++ (Mem.of bfMessage e.behindIntro).read ans.bitfieldMsgLength
      if (s.fds k).fd < 0 ∨ e.sendOk = false then .error .exit
      else .ok (s, [.greeted k chunk, .introduced k introMsg])

/-- The case of a handshake with a bitfield behind it. -/
def greetWithBitfield (ans : BtInfo) (s : Client) (k : Nat) (chunk : List Byte) (e : Env) :
    Except Stop (Client × List Event) :=
  match checkHandshake s e with
  | .error stop => .error stop
  | .ok s =>
      let bits := setPeerBitfield (s.bufPtr e) ans.bitfieldMsgLength
      let s := s.modifyConn k fun c => { c with peerBitfield := some bits }
      let wanted := peerContainsUndownloadedPieces (Mem.of bits e.behindPeer)
        (Mem.of s.ownBitfield e.behindOwn) ans.bitfieldLen
      match s.transmit k k (if 0 < wanted then sendInterested else sendUninterested) e with
      | .error stop => .error stop
      | .ok (s, evs) => .ok (s.clearBuffer, .greeted k chunk :: evs)

/-- `*(peerBitfield + p/8) |= 1 << (7 - p%8)`, with the division of C;
`none` when the byte lies outside the bitfield. -/
def setHave (bits : List Byte) (p : CInt) : Option (List Byte) :=
  let byteOfPiece := p.toInt.tdiv 8
  let bitOfPiece := p.toInt.tmod 8
  if 0 ≤ byteOfPiece ∧ byteOfPiece < bits.length then
    some (bits.modify byteOfPiece.toNat fun b => b ||| (1 <<< (7 - bitOfPiece).toNat))
  else none

/-- `case(HAVE)`. The scratch cell `test` is freed every time. -/
def handleHave (s : Client) (k : Nat) (p : CInt) (e : Env) : Except Stop (Client × List Event) :=
  match (s.connections k).peerBitfield with
  | none => .error .fault
  | some bits =>
      match setHave bits p with
      | none => Client.smash { s with testFreed := true } e
      | some bits =>
          let s' := s.modifyConn k fun c => { c with peerBitfield := some bits }
          if s.testFreed then s'.smash e else .ok ({ s' with testFreed := true }, [])

/-- `case(BITFIELD)`: `total_pieces_in_file` bytes, whatever the size of the
bitfield they are copied into. -/
def handleBitfield (ans : BtInfo) (s : Client) (k : Nat) (msg : Mem) (e : Env) :
    Except Stop (Client × List Event) :=
  match (s.connections k).peerBitfield with
  | none => .error .fault
  | some bits =>
      let bytes := (msg.advance 5).read ans.numPieces
      let s' := s.modifyConn k fun c =>
        { c with peerBitfield := some (bytes.take bits.length ++ bits.drop ans.numPieces) }
      if bits.length < ans.numPieces then s'.smash e else .ok (s', [])

/-- The pointer variable `ptr` after `memcpy(&ptr, &x, 4)`: its low half. -/
def clobber (ptr : BitVec 64) (x : CInt) : BitVec 64 := ptr.extractLsb' 32 32 ++ x

/-- `piece_hashes[n]`, read as twenty bytes. -/
def BtInfo.hashAt (ans : BtInfo) (n : Nat) (e : Env) : Option Digest :=
  if n < ans.numPieces then ans.pieceHashes[n]? else e.beyondHashes n

/-- `*own |= 1 << v`: an int shift, its count taken modulo 32, cut to a
`char`. -/
def setOwn (own : List Byte) (v : CInt) : List Byte :=
  own.modify 0 fun b => b ||| ((1 : CInt) <<< (v.toNat % 32)).setWidth 8

/-- The bytes `case(PIECE)` copies out of the message, from `msg + 5 + 5`. -/
def pieceBlock (ans : BtInfo) (msg : Mem) : List Byte := (msg.advance (5 + 5)).read ans.pieceLength

/-- The receive buffer, and what stands behind it, after the block was copied
over them. -/
def pieceBuffer (ans : BtInfo) (s : Client) (msg : Mem) (e : Env) : Mem :=
  (s.bufPtr e).write 0 (pieceBlock ans msg)

/-- `case(PIECE)`. The block is copied over the buffer, and over what stands
behind it if it is longer. The hash is picked by the slot number, and the bit
by the int that the clobbered pointer happens to point to. -/
def handlePiece (sha1 : List Byte → Digest) (ans : BtInfo) (s : Client) (k : Nat) (msg : Mem)
    (e : Env) : Except Stop (Client × List Event) :=
  let pieceIndex := clobber e.heapPtr (msg.advance 5).readInt
  let block := pieceBlock ans msg
  if e.room < ans.pieceLength then .error .fault
  else
    let buffer := pieceBuffer ans s msg e
    match ans.hashAt (k * 20) e with
    | none => .error .fault
    | some expected =>
        match verifyPiece sha1 e.stack buffer expected e.thirdArg with
        | none => .error .fault
        | some false => .ok ({ s with buffer := buffer }, [])
        | some true =>
            match writePiece s.file (pieceIndex.setWidth 32) ans.pieceSizeBytes buffer e.room
                e.taken with
            | .error stop => .error stop
            | .ok w =>
                match e.load pieceIndex with
                | none => .error .fault
                | some v =>
                    let s := { s with
                      file := some w.file
                      buffer := w.buffer
                      ownBitfield := setOwn s.ownBitfield v }
                    .ok (s.modifyConn k (setFlag · .pendingRequest 0),
                      [.stored k (pieceIndex.setWidth 32) block w.bytes v])

/-- The message switch. -/
def receiveMsg (sha1 : List Byte → Digest) (ans : BtInfo) (s : Client) (k : Nat)
    (chunk : List Byte) (e : Env) : Except Stop (Client × List Event) :=
  match getNextMsg e.stack (s.bufPtr e) with
  | none => .error .fault
  | some n =>
      let msg := Mem.of n.message e.behindMsg
      let index := (msg.advance 5).readInt
      let log := fun (m : Heard) (r : Except Stop (Client × List Event)) =>
        r.map fun r => (r.1, .heard k chunk m :: r.2)
      match MsgID.ofByte n.msgID with
      | some .choke => log .choke <| .ok (s.modifyConn k (setFlag · .ownChoke 1), [])
      | some .unchoke => log .unchoke <| .ok (s.modifyConn k (setFlag · .ownChoke 0), [])
      | some .interested =>
          log .interested <| .ok (s.modifyConn k (setFlag · .peerInterested 1), [])
      | some .uninterested =>
          log .uninterested <| .ok (s.modifyConn k (setFlag · .peerInterested 0), [])
      | some .have => log (.have index) <| handleHave s k index e
      | some .bitfield => log .bitfield <| handleBitfield ans s k msg e
      | some .request =>
          log (.request index) <|
            .ok (s.modifyConn k fun c =>
              { c with pieceToSend := (clobber e.heapPtr index).setWidth 32 }, [])
      | some .piece => log (.piece index) <| handlePiece sha1 ans s k msg e
      | some .cancel =>
          log .cancel <| .ok (s.modifyConn k fun c => { c with pieceToSend := -1 }, [])
      | none => log .other <| .ok (s, [])

/-- The receive part of the loop body for slot `k`. -/
def receive (sha1 : List Byte → Digest) (ans : BtInfo) (s : Client) (k : Nat) (r : Recv)
    (e : Env) : Except Stop (Client × List Event) :=
  match r with
  | .error => .ok (s, [])
  | .closed =>
      let s := { s with fds := fun j => if j = k then { s.fds j with fd := -1 } else s.fds j }
      .ok (s.modifyConn k (setFlag · .connectionStatus 0), [.dropped k])
  | .chunk c =>
      let s := { s with buffer := s.buffer.write 0 c.bytes }
      if c.bytes.length = fullHandshakeLength then greet ans s k c.bytes e
      else if c.bytes.length = fullHandshakeLength + ans.bitfieldMsgLength then
        greetWithBitfield ans s k c.bytes e
      else receiveMsg sha1 ans s k c.bytes e

/-! ## Sending -/

/-- `(*bits >> i) & 1`: an arithmetic shift of the promoted byte, its count
taken modulo 32. -/
def shiftedBit (b : Byte) (i : Nat) : Bool := ((b.signExtend 32).sshiftRight (i % 32) &&& 1) ≠ 0

/-- The request choice loop from `i` on, `fuel` rounds before the number of
pieces is reached: where `i` stands afterwards, and `piece_index`. -/
def choosePiece (s : Client) (e : Env) : Nat → Nat → Except Stop (Nat × CInt)
  | 0, i => .ok (i, e.pieceIndex)
  | fuel + 1, i =>
      if maxPeers ≤ i then .error .fault
      else
        match (s.connections i).peerBitfield with
        | none => .error .fault
        | some bits =>
            let ownHave := shiftedBit (Mem.of s.ownBitfield e.behindOwn 0) i
            let peerHave := shiftedBit (Mem.of bits e.behindPeer 0) i
            if !ownHave && peerHave then .ok (i, BitVec.ofNat 32 i)
            else choosePiece s e fuel (i + 1)

/-- The choice and the request, during the turn of slot `k`. -/
def requestPiece (ans : BtInfo) (s : Client) (k : Nat) (e : Env) :
    Except Stop (Client × List Event) :=
  match choosePiece s e ans.numPieces 0 with
  | .error stop => .error stop
  | .ok (i, pieceIndex) =>
      if maxPeers ≤ i then .error .fault
      else Client.transmit { s with i := i } k i (sendRequest · pieceIndex) e

/-- `Send_piece` on slot `k`. -/
def uploadPiece (ans : BtInfo) (s : Client) (k : Nat) (pieceNum : CInt) (e : Env) :
    Except Stop (Client × List Event) :=
  match getPieceFromFile s.file pieceNum ans.pieceSizeBytes e.freshBlock with
  | .error stop => .error stop
  | .ok piece =>
      match if piece.overflow then s.smash e else .ok (s, []) with
      | .error stop => .error stop
      | .ok (s, evs) =>
          (s.transmit k k (sendPiece · pieceNum ans.pieceSizeBytes piece.bytes) e).map
            fun r => (r.1, evs ++ r.2)

/-- The POLLOUT branch of the loop body for slot `k`. -/
def serve (ans : BtInfo) (s : Client) (k : Nat) (e : Env) : Except Stop (Client × List Event) :=
  let c := s.connections k
  if !(s.fds k).revents then .ok (s, [])
  else if c.flag .peerInterested && (!c.flag .ownInterested || c.flag .pendingRequest) then
    if !c.flag .peerChoke then
      if 0 ≤ c.pieceToSend.toInt then uploadPiece ans s k c.pieceToSend e else .ok (s, [])
    else s.transmit k k sendUnchoked e
  else if !c.flag .pendingRequest then
    match c.peerBitfield with
    | none => .error .fault
    | some bits =>
        if 0 < peerContainsUndownloadedPieces (Mem.of bits e.behindPeer)
            (Mem.of s.ownBitfield e.behindOwn) ans.bitfieldLen then
          if c.flag .ownInterested then
            if !c.flag .ownChoke then requestPiece ans s k e else .ok (s, [])
          else s.transmit k k sendInterested e
        else s.transmit k k sendUninterested e
  else .ok (s, [])

/-! ## The loop -/

/-- One pass of the `for` body: slot `i`, then `i++`. -/
def turn (sha1 : List Byte → Digest) (ans : BtInfo) (s : Client) (r : Recv) (eRecv eSend : Env) :
    Except Stop (Client × List Event) :=
  if maxPeers ≤ s.i then .error .fault
  else if (s.fds s.i).fd < 0 then .ok ({ s with i := s.i + 1 }, [])
  else
    match receive sha1 ans s s.i r eRecv with
    | .error stop => .error stop
    | .ok (s1, evs1) =>
        match serve ans s1 s.i eSend with
        | .error stop => .error stop
        | .ok (s2, evs2) => .ok ({ s2 with i := s2.i + 1 }, evs1 ++ evs2)

/-- The result of `poll`: nothing (a timeout or an error), or the slots ready
for output and the connection accepted on the listener, if any. -/
inductive Poll where
  | nothing
  | ready (pollout : Nat → Bool) (accepted : Option Nat)

/-- Everything before the `for` loop. An accepted connection always goes to
slot 1. -/
def startRound (s : Client) : Poll → Client
  | .nothing =>
      { s.clearBuffer with fds := fun j => { s.fds j with revents := false } }
  | .ready pollout accepted =>
      let fds := fun j =>
        { s.fds j with revents := pollout j && (s.fds j).events && decide (0 ≤ (s.fds j).fd) }
      match accepted with
      | none => { s.clearBuffer with fds := fds, i := 1 }
      | some connectFd =>
          { s.clearBuffer with
            fds := fun j => if j = 1 then { fds j with fd := connectFd } else fds j
            maxPeerIndex := s.maxPeerIndex + 1
            i := 1 }

/-- The states the loop reaches from `s₀`, with the log since then. -/
inductive Run (sha1 : List Byte → Digest) (ans : BtInfo) (s₀ : Client) :
    List Event → Client → Prop where
  | start : Run sha1 ans s₀ [] s₀
  | round {log s} (poll : Poll) : Run sha1 ans s₀ log s → s.maxPeerIndex < s.i →
      Run sha1 ans s₀ log (startRound s poll)
  | turn {log s s' evs} (r : Recv) (eRecv eSend : Env) : Run sha1 ans s₀ log s →
      s.i ≤ s.maxPeerIndex → turn sha1 ans s r eRecv eSend = .ok (s', evs) →
      Run sha1 ans s₀ (log ++ evs) s'

/-! ## Running the loop on given inputs -/

/-- One step of a run, with everything it leaves to chance. -/
inductive Input where
  | round (poll : Poll)
  | turn (r : Recv) (eRecv eSend : Env)

/-- The loop on a list of inputs: `none` when an input does not fit where
the loop stands, or when the process stops. -/
def execute (sha1 : List Byte → Digest) (ans : BtInfo) :
    Client → List Input → Option (Client × List Event)
  | s, [] => some (s, [])
  | s, .round poll :: inputs =>
      if s.maxPeerIndex < s.i then execute sha1 ans (startRound s poll) inputs else none
  | s, .turn r eRecv eSend :: inputs =>
      if s.i ≤ s.maxPeerIndex then
        match turn sha1 ans s r eRecv eSend with
        | .error _ => none
        | .ok (s', evs) => (execute sha1 ans s' inputs).map fun r => (r.1, evs ++ r.2)
      else none

theorem Run.execute {sha1 : List Byte → Digest} {ans : BtInfo} {s₀ s s' : Client}
    {log evs : List Event} {inputs : List Input} (hrun : Run sha1 ans s₀ log s)
    (h : Torrent.execute sha1 ans s inputs = some (s', evs)) : Run sha1 ans s₀ (log ++ evs) s' := by
  induction inputs generalizing s log evs with
  | nil =>
      cases h
      rwa [List.append_nil]
  | cons input inputs ih =>
      cases input with
      | round poll =>
          rw [Torrent.execute] at h
          split at h
          · next hready => exact ih (hrun.round poll hready) h
          · cases h
      | turn r eRecv eSend =>
          rw [Torrent.execute] at h
          split at h
          · next hready =>
            split at h
            · cases h
            · next s1 evs1 hturn =>
              obtain ⟨⟨s2, evs2⟩, hrest, heq⟩ := Option.map_eq_some_iff.mp h
              cases heq
              rw [← List.append_assoc]
              exact ih (hrun.turn r eRecv eSend hready hturn) hrest
          · cases h

/-! ## A client to run -/

/-- Every call succeeds and all stray memory is zero. -/
def Env.calm : Env where
  sendOk := true
  heapPtr := 0
  load := fun _ => none
  thirdArg := 0
  beyondHashes := fun _ => none
  behindBuffer := fun _ => 0
  spare := 0
  above := 0
  behindMsg := fun _ => 0
  behindIntro := fun _ => 0
  behindPeer := fun _ => 0
  behindOwn := fun _ => 0
  freshByte := 0
  freshBlock := fun _ => 0
  taken := bufsiz
  pieceIndex := 0
  smash := none

/-- A file of eight pieces of four bytes. -/
def eightPieces : BtInfo where
  numPieces := 8
  pieceLength := 4
  pieceHashes := List.replicate 8 ⟨List.replicate 20 0, rfl⟩
  numPieces_pos := by decide
  numPieces_lt := by decide
  pieceLength_pos := by decide
  pieceLength_lt := by decide
  hashes_length := rfl

/-- The client when the main loop starts, two peers connected. -/
def joined (ans : BtInfo) : Client where
  connections := fun k => if k < 2 then initializeConnection .zeroed ans.numPieces else .zeroed
  fds := fun k => if k < 3 then ⟨3 + k, true, false⟩ else ⟨0, false, false⟩
  ownBitfield := setInitialBitfield ans.numPieces
  file := some (ascii "ABC" ++ [0])
  buffer := fun _ => 0
  testFreed := false
  maxPeerIndex := 0
  i := 2

/-- `recv` returns exactly one message. -/
def Recv.msg (w : WireMsg) (h : 0 < w.bytes.length ∧ w.bytes.length ≤ bufsiz) : Recv :=
  .chunk ⟨w.bytes, h.1, h.2⟩

/-- A connection accepted into slot 1, then one `recv` a round, every slot
always ready for output. -/
def session : List Recv → List Input
  | [] => []
  | r :: rs =>
      .round (.ready (fun _ => true) (some 6)) :: .turn r .calm .calm ::
        rs.flatMap fun r => [.round (.ready (fun _ => true) none), .turn r .calm .calm]

/-- A log computed by `execute` is the log of a run. -/
theorem run_of_log {sha1 : List Byte → Digest} {ans : BtInfo} {s₀ : Client} {inputs : List Input}
    {log : List Event} (h : (execute sha1 ans s₀ inputs).map Prod.snd = some log) :
    ∃ s, Run sha1 ans s₀ log s := by
  obtain ⟨⟨s, evs⟩, hexecute, rfl⟩ := Option.map_eq_some_iff.mp h
  exact ⟨s, Run.start.execute hexecute⟩

end DubstepDucks.Torrent
