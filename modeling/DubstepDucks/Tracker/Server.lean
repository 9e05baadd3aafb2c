import DubstepDucks.CMem.Strings
import DubstepDucks.Heap.LinkedList

/-!
# Tracker — the server and its client

`tracker.c`, `tracker.h` and the accept loop of `tracker_serv.c`, with the
linked list of clients on a heap of `malloc`ed nodes.

What the C program reads but does not write is a parameter: the request
buffer `recvMsg` filled, the bytes behind each `strdup`ed address
(`sendClients` copies sixteen bytes of strings that are shorter), and the
fresh bytes of the reply buffer. `none` is the process dying: a dangling
pointer, a `malloc` whose size wrapped below zero, a copy past the buffer.

`numClients` and everything computed from it are 32-bit ints. `c_tail` is
assigned once and never read; the model leaves it out.
-/

namespace DubstepDucks.Tracker

open CMem Heap

/-- `BUFSIZ` of the C library. -/
def bufSiz : Nat := 8192

/-- `IP_SIZE`. -/
def ipSize : Nat := 16

/-- The state of `main`: the `Client` nodes, `c_head` (`none` until the
first client is added) and the counter kept beside the list. -/
structure Server where
  heap : NodeHeap CString
  cHead : Option Nat
  numClients : CInt
  deriving DecidableEq

def Server.start : Server := ⟨[], none, 0⟩

/-! ## Adding a client -/

/-- `addIfAbsent`: scan for the address, else link a node behind the tail
and count it. The fuel of the scan is the number of nodes. -/
def addIfAbsent (heap : NodeHeap CString) (head : Nat) (ip : CString) (numClients : CInt) :
    Option (NodeHeap CString × CInt) :=
  match scan heap (fun v => strcmp v ip == 0) heap.length head with
  | none => none
  | some (.hit _) => some (heap, numClients)
  | some (.tail t) => some (link heap t ip, numClients + 1)

/-- The two ways `main` registers the requester: as head of an empty list,
or through `addIfAbsent`. -/
def Server.register (s : Server) (ip : CString) : Option Server :=
  if s.numClients = 0 then
    some { heap := s.heap ++ [⟨ip, none⟩], cHead := some s.heap.length, numClients := 1 }
  else
    match s.cHead with
    | none => none
    | some head =>
        (addIfAbsent s.heap head ip s.numClients).map fun r =>
          { s with heap := r.1, numClients := r.2 }

/-! ## The reply -/

/-- What the copy loop of `sendClients` did: the `memcpy`s into `data`
(offset and bytes), in order, and the number of nodes it passed over. -/
structure CopyLog where
  copies : List (Nat × List Byte)
  skipped : Nat

/-- The copy loop with `k` iterations left, at `curr_node`, after
`numIpsCopied` copies. -/
def copyLoop (heap : NodeHeap CString) (ignoreIp : CString) (behind : Nat → Mem) :
    Nat → Option Nat → Nat → Option CopyLog
  | 0, _, _ => some ⟨[], 0⟩
  | _ + 1, none, _ => none
  | k + 1, some a, numIpsCopied =>
      match heap[a]? with
      | none => none
      | some node =>
          if strcmp node.val ignoreIp ≠ 0 then
            (copyLoop heap ignoreIp behind k node.next (numIpsCopied + 1)).map fun log =>
              { log with copies :=
                  (1 + ipSize * numIpsCopied, (node.val.mem (behind a)).read ipSize) :: log.copies }
          else
            (copyLoop heap ignoreIp behind k node.next numIpsCopied).map fun log =>
              { log with skipped := log.skipped + 1 }

/-- How a call of `sendClients` ends: one of its two early returns, or the
bytes handed to `sendData`. -/
inductive Sent where
  | noClients
  | unexpectedNumber
  | sent (size : Nat) (log : CopyLog) (data : List Byte)

/-- `1 + (IP_SIZE * numClientsToSend)`, in int arithmetic. -/
def replySize (numClients : CInt) : CInt := 1 + 16 * (numClients - 1)

/-- `sendClients`. A negative size reaches `malloc` as a huge `size_t`; the
`memcpy` of the count then writes through its null result. -/
def sendClients (heap : NodeHeap CString) (head : Nat) (numClients : CInt) (ignoreIp : CString)
    (behind : Nat → Mem) (fresh : Mem) : Option Sent :=
  if numClients.toInt ≤ 0 then some .noClients
  else if (replySize numClients).toInt < 0 then none
  else
    match countNodes heap heap.length head 1 with
    | none => none
    | some countedNodes =>
        if BitVec.ofNat 32 countedNodes ≠ numClients then some .unexpectedNumber
        else
          match copyLoop heap ignoreIp behind numClients.toNat (some head) 0 with
          | none => none
          | some log =>
              let size := (replySize numClients).toNat
              if log.copies.all fun c => c.1 + ipSize ≤ size then
                let data := fresh.write 0 ((leBytes (numClients - 1)).take 1)
                some (.sent size log
                  ((log.copies.foldl (fun m c => m.write c.1 c.2) data).read size))
              else none

/-! ## The accept loop -/

/-- One accepted connection: the peer's address, the buffer `recvMsg`
returned for it, and the memory `sendClients` will find. -/
structure Connection where
  addr : InAddr
  recvMsg : Mem
  behind : Nat → Mem
  fresh : Mem

def Connection.ip (c : Connection) : CString := inetNtoa c.addr

/-- One iteration of the accept loop: the new state and what was sent. -/
def Server.handle (s : Server) (c : Connection) : Option (Server × Option Sent) :=
  if c.recvMsg 0 = 0 then some (s, none)
  else if strncmp (c.recvMsg.advance 1) (ascii "list") 4 = 0 then
    match s.register c.ip with
    | none => none
    | some s' =>
        match s'.cHead with
        | none => none
        | some head =>
            (sendClients s'.heap head s'.numClients c.ip c.behind c.fresh).map fun r =>
              (s', some r)
  else some (s, none)

/-- The accept loop over a finite sequence of connections. -/
def Server.run : Server → List Connection → Option Server
  | s, [] => some s
  | s, c :: cs =>
      match s.handle c with
      | none => none
      | some (s', _) => s'.run cs

/-- A state the server is in after handling some connections. -/
def Reachable (s : Server) : Prop := ∃ cs, Server.start.run cs = some s

/-! ## The requesting client -/

/-- `recvMsg`: one `recv` into a fresh buffer of `BUFSIZ` bytes. -/
def recvMsg (fresh : Mem) (received : List Byte) : Mem := fresh.write 0 (received.take bufSiz)

/-- `requestPeers` once `recvMsg` returned: the count byte replaces the
lowest byte of `*numPeers`, then `*numPeers * 16` bytes go to `peers`. -/
def requestPeers (recv : Mem) (numPeers : CInt) (peers : Mem) : CInt × Mem :=
  let n := leInt (recv 0) (numPeers.extractLsb' 8 8) (numPeers.extractLsb' 16 8)
    (numPeers.extractLsb' 24 8)
  (n, peers.write 0 ((recv.advance 1).read (n * 16).toNat))

end DubstepDucks.Tracker
