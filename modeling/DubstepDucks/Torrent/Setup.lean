import DubstepDucks.Torrent.Trace

/-!
# Torrent — the setup loop and the table of descriptors

Before the main loop, `main` connects to the peers the tracker named: peer
`i` gets `fds[i+1]` and `connections[i]`. Afterwards the listener adds
connections and drops take them away. `Table` is what these three places
share, the descriptors and `max_peer_index`; `serving_table` says that the
client's table is what its accepts and drops make of the one the setup loop
left.

Sockets are named by their descriptors. What the kernel promises about them
is in `Sockets.guard`: a new descriptor is positive (standard input stays
open) and not one that is open already.
-/

namespace DubstepDucks.Torrent

open CMem Btp History

/-! ## The setup loop -/

/-- `MAX_CONNECTIONS`. -/
def maxConnections : Nat := 500

/-- What the setup loop meets with one peer: the new socket, whether
`connect` and the `send` of the handshake succeed, and the answer. -/
structure Dial where
  socket : Nat
  connects : Bool
  sends : Bool
  answer : Recv
  env : Env

/-- The arrays of `main` when the loop starts. The records are on the stack
and not initialised; `fds` is zeroed except for the listener. -/
def freshClient (connections : Nat → Connections) (listener : Nat) (ownBitfield : List Byte)
    (file : Option (List Byte)) (buffer : Mem) : Client where
  connections := connections
  fds := fun j => if j = 0 then ⟨listener, true, false⟩ else ⟨0, false, false⟩
  ownBitfield := ownBitfield
  file := file
  buffer := buffer
  testFreed := false
  maxPeerIndex := 0
  i := 0

/-- One round of the setup loop. -/
def setupPeer (ans : BtInfo) (s : Client) (i : Nat) (d : Dial) : Except Stop Client :=
  -- the arrays have `MAX_PEERS` entries, the loop may run to `MAX_CONNECTIONS`
  if maxPeers ≤ i + 1 then .error .fault
  else
    let s := { s with fds := fun j =>
      if j = i + 1 then { s.fds j with fd := d.socket, events := true } else s.fds j }
    let s := s.modifyConn i (initializeConnection · ans.numPieces)
    if !d.connects || !d.sends then .error .exit
    else
      match d.answer with
      | .error | .closed => .error .exit
      | .chunk c =>
          let s := { s with buffer := s.buffer.write 0 c.bytes }
          if c.bytes.length = fullHandshakeLength then
            (checkHandshake s d.env).map Client.clearBuffer
          else if c.bytes.length = fullHandshakeLength + ans.bitfieldMsgLength then
            match checkHandshake s d.env with
            | .error stop => .error stop
            | .ok s =>
                let bits := setPeerBitfield (s.bufPtr d.env) ans.bitfieldMsgLength
                let s := s.modifyConn i fun c => { c with peerBitfield := some bits }
                let wanted := peerContainsUndownloadedPieces (Mem.of bits d.env.behindPeer)
                  (Mem.of s.ownBitfield d.env.behindOwn) ans.bitfieldLen
                let send := if 0 < wanted then sendInterested else sendUninterested
                if d.env.sendOk = false then .error .exit
                else .ok (s.modifyConn i fun c => (send c).1).clearBuffer
          else .ok s

/-- The setup loop from peer `i` on. The main loop starts with no slot to
serve. -/
def setupFrom (ans : BtInfo) : Client → Nat → List Dial → Except Stop Client
  | s, _, [] => .ok { s with i := 1 }
  | s, i, d :: dials =>
      match setupPeer ans s i d with
      | .error stop => .error stop
      | .ok s => setupFrom ans s (i + 1) dials

/-- The setup loop: one dial for each of the peers to connect to. -/
def setup (ans : BtInfo) (s : Client) (dials : List Dial) : Except Stop Client :=
  setupFrom ans s 0 (dials.take (maxConnections - 1))

/-! ## The table -/

structure Table where
  fds : Nat → Int
  maxPeerIndex : Nat

def Client.table (s : Client) : Table := ⟨fun j => (s.fds j).fd, s.maxPeerIndex⟩

inductive TableStep where
  /-- The listener accepted a connection. -/
  | accept (socket : Nat)
  /-- The peer of a slot dropped its connection. -/
  | drop (slot : Nat)
  deriving DecidableEq, Repr

def Table.set (t : Table) (slot : Nat) (fd : Int) : Table :=
  { t with fds := fun j => if j = slot then fd else t.fds j }

def Table.step (t : Table) : TableStep → Table
  | .accept socket => { t.set 1 socket with maxPeerIndex := t.maxPeerIndex + 1 }
  | .drop slot => t.set slot (-1)

/-- The table that the setup loop leaves. -/
def Table.connected (listener : Nat) (sockets : List Nat) : Table where
  fds := fun j =>
    match j with
    | 0 => listener
    | i + 1 => (sockets[i]?).getD 0
  maxPeerIndex := 0

theorem Table.ext {t t' : Table} (hfds : ∀ j, t.fds j = t'.fds j)
    (hmax : t.maxPeerIndex = t'.maxPeerIndex) : t = t' := by
  obtain ⟨fds, maxPeerIndex⟩ := t
  obtain ⟨fds', maxPeerIndex'⟩ := t'
  obtain rfl : fds = fds' := funext hfds
  obtain rfl : maxPeerIndex = maxPeerIndex' := hmax
  rfl

/-- One more socket connected. -/
theorem Table.connected_concat (listener : Nat) (sockets : List Nat) (socket : Nat) :
    Table.connected listener (sockets ++ [socket])
      = (Table.connected listener sockets).set (sockets.length + 1) socket := by
  apply Table.ext
  · intro j
    cases j with
    | zero => rfl
    | succ i =>
        simp only [Table.connected, Table.set, Nat.add_right_cancel_iff]
        rcases Nat.lt_trichotomy i sockets.length with hlt | heq | hgt
        · rw [if_neg (by omega), List.getElem?_append_left hlt]
        · rw [if_pos heq, heq, List.getElem?_concat_length]
          rfl
        · rw [if_neg (by omega), List.getElem?_eq_none (by simp; omega),
            List.getElem?_eq_none (by omega)]
  · rfl

/-! ## The client's table -/

section Tables

variable {sha1 : List Byte → Digest} {ans : BtInfo} {s s' : Client} {k : Nat} {e : Env}
  {evs : List Event}

theorem table_congr (hfds : s'.fds = s.fds) (hmax : s'.maxPeerIndex = s.maxPeerIndex) :
    s'.table = s.table := by
  rw [Client.table, Client.table, hfds, hmax]

theorem checkHandshake_table (h : checkHandshake s e = .ok s') : s'.table = s.table := by
  obtain ⟨-, hfds, hmax⟩ := checkHandshake_ok h
  exact table_congr hfds hmax

theorem setupPeer_table {i : Nat} {d : Dial} (h : setupPeer ans s i d = .ok s') :
    i + 1 < maxPeers ∧ s'.table = s.table.set (i + 1) d.socket := by
  rw [setupPeer] at h
  split at h
  · cases h
  · next hslot =>
    refine ⟨by omega, ?_⟩
    have hdialled : Client.table { s with fds := fun j =>
        if j = i + 1 then { s.fds j with fd := d.socket, events := true } else s.fds j }
        = s.table.set (i + 1) d.socket := by
      apply Table.ext
      · intro j
        simp only [Client.table, Table.set]
        split <;> rfl
      · rfl
    dsimp only at h
    split at h
    · cases h
    · split at h
      · cases h
      · cases h
      · split at h
        · obtain ⟨s1, hcheck, rfl⟩ := map_ok h
          exact (checkHandshake_table hcheck).trans hdialled
        · split at h
          · split at h
            · cases h
            · next s1 hcheck =>
              split at h
              · cases h
              · cases h
                exact (checkHandshake_table hcheck).trans hdialled
          · cases h
            exact hdialled

/-- The setup loop fills the slots from 1 on, as many as there are peers. -/
theorem setupFrom_table {listener : Nat} {dials : List Dial} :
    ∀ {s : Client} {sockets : List Nat}, s.table = Table.connected listener sockets →
      setupFrom ans s sockets.length dials = .ok s' →
      s'.table = Table.connected listener (sockets ++ dials.map Dial.socket) ∧
        (dials ≠ [] → sockets.length + dials.length < maxPeers) := by
  induction dials with
  | nil =>
      intro s sockets htable h
      cases h
      rw [List.map_nil, List.append_nil, ← htable]
      exact ⟨rfl, fun hne => absurd rfl hne⟩
  | cons d dials ih =>
      intro s sockets htable h
      rw [setupFrom] at h
      split at h
      · cases h
      · next s1 hpeer =>
        obtain ⟨hslot, hset⟩ := setupPeer_table hpeer
        have hconcat : s1.table = Table.connected listener (sockets ++ [d.socket]) := by
          rw [Table.connected_concat, hset, htable]
        have hlength : (sockets ++ [d.socket]).length = sockets.length + 1 := by simp
        obtain ⟨hfinal, hbound⟩ := ih hconcat (by rw [hlength]; exact h)
        refine ⟨by rw [hfinal]; simp, fun _ => ?_⟩
        by_cases hnil : dials = []
        · rw [hnil]
          exact hslot
        · have := hbound hnil
          rw [hlength] at this
          simp only [List.length_cons]
          omega

theorem setup_table {connections : Nat → Connections} {listener : Nat} {own : List Byte}
    {file : Option (List Byte)} {buffer : Mem} {dials : List Dial}
    (h : setup ans (freshClient connections listener own file buffer) dials = .ok s') :
    s'.table = Table.connected listener (dials.map Dial.socket) ∧ dials.length < maxPeers := by
  have hfresh : (freshClient connections listener own file buffer).table
      = Table.connected listener [] := by
    apply Table.ext
    · intro j
      cases j <;> rfl
    · rfl
  obtain ⟨htable, hbound⟩ := setupFrom_table hfresh h
  have hlength : dials.length < maxPeers := by
    by_cases hnil : dials.take (maxConnections - 1) = []
    · rcases List.take_eq_nil_iff.mp hnil with hzero | hempty
      · cases hzero
      · rw [hempty]
        decide
    · have := hbound hnil
      rw [List.length_take] at this
      simp only [List.length_nil, maxConnections, maxPeers] at this ⊢
      omega
  rw [List.take_of_length_le (by rw [maxPeers] at hlength; rw [maxConnections]; omega)] at htable
  exact ⟨htable, hlength⟩

/-! ## The main loop's table -/

theorem transmit_table {turn : Nat} {f : Connections → Connections × WireMsg}
    (h : s.transmit turn k f e = .ok (s', evs)) : s'.table = s.table := by
  obtain ⟨rfl, -⟩ := transmit_ok h
  rfl

theorem smash_table (h : s.smash e = .ok (s', evs)) : s'.table = s.table := by
  obtain ⟨-, -, hfds, hmax, -⟩ := smash_ok h
  exact table_congr hfds hmax

theorem serve_table (h : serve ans s k e = .ok (s', evs)) : s'.table = s.table := by
  rcases serve_cases h with ⟨rfl, -⟩ | ⟨-, h⟩ | ⟨-, -, h⟩ | ⟨f, -, h⟩ | ⟨-, h⟩
  · rfl
  · obtain ⟨piece, s1, evs1, evs2, -, hsmash, hsend, -⟩ := uploadPiece_ok h
    rw [transmit_table hsend]
    rcases hsmash with ⟨rfl, -⟩ | hsmash
    · rfl
    · exact smash_table hsmash
  · exact transmit_table h
  · exact transmit_table h
  · obtain ⟨i, p, -, -, hsend⟩ := requestPiece_ok h
    rw [transmit_table hsend]
    rfl

theorem StoresBits.table (h : StoresBits s s' e evs) : s'.table = s.table := by
  obtain ⟨s1, -, hfds, hmax, hstored⟩ := h
  rw [← table_congr hfds hmax]
  rcases hstored with ⟨rfl, -⟩ | hsmash
  · rfl
  · exact smash_table hsmash

theorem receiveMsg_table {chunk : List Byte} (h : receiveMsg sha1 ans s k chunk e = .ok (s', evs)) :
    s'.table = s.table := by
  rw [receiveMsg] at h
  split at h
  · cases h
  · dsimp only at h
    split at h <;> obtain ⟨⟨s1, evs1⟩, hstep, hlog⟩ := map_ok h <;> cases hlog
    case h_5 => exact (handleHave_ok hstep).table
    case h_6 => exact (handleBitfield_ok hstep).table
    case h_8 =>
      obtain ⟨hfds, hmax, -⟩ := handlePiece_cases hstep
      exact table_congr hfds hmax
    all_goals
      cases hstep
      rfl

/-- Receiving leaves the table alone, unless the peer dropped. -/
theorem receive_table {r : Recv} (h : receive sha1 ans s k r e = .ok (s', evs)) :
    s'.table = match r with
      | .closed => s.table.step (.drop k)
      | _ => s.table := by
  cases r with
  | error =>
      cases h
      rfl
  | closed =>
      cases h
      apply Table.ext
      · intro j
        simp only [Client.table, Table.step, Table.set, Client.modifyConn]
        split <;> rfl
      · rfl
  | chunk c =>
      rw [receive] at h
      dsimp only
      split at h
      · obtain ⟨s1, hcheck, rfl, -⟩ := greet_ok h
        have htable := checkHandshake_table hcheck
        exact htable
      · split at h
        · obtain ⟨s1, s2, evs2, bits, f, hcheck, -, hsend, rfl, -⟩ := greetWithBitfield_ok h
          have htable := checkHandshake_table hcheck
          show s2.table = s.table
          rw [transmit_table hsend]
          exact htable
        · rw [receiveMsg_table h]
          rfl

/-- What a pass does to the table. -/
def passSteps (s : Client) (r : Recv) : List TableStep :=
  match r with
  | .closed => if (s.fds s.i).fd < 0 then [] else [.drop s.i]
  | _ => []

theorem turn_table {r : Recv} {eRecv eSend : Env}
    (h : turn sha1 ans s r eRecv eSend = .ok (s', evs)) :
    s.i < maxPeers ∧ s'.table = (passSteps s r).foldl Table.step s.table := by
  rw [turn] at h
  split at h
  · cases h
  · next hslot =>
    refine ⟨by omega, ?_⟩
    split at h
    · next hclosed =>
      cases h
      cases r with
      | closed =>
          rw [passSteps, if_pos hclosed]
          rfl
      | _ => rfl
    · next hopen =>
      split at h
      · cases h
      · next s1 evs1 hreceive =>
        split at h
        · cases h
        · next s2 evs2 hserve =>
          cases h
          show s2.table = _
          rw [serve_table hserve, receive_table hreceive]
          cases r with
          | closed =>
              rw [passSteps, if_neg hopen]
              rfl
          | _ => rfl

/-- What the start of a round does to the table. -/
def pollSteps : Poll → List TableStep
  | .ready _ (some socket) => [.accept socket]
  | _ => []

theorem startRound_table (s : Client) (poll : Poll) :
    (startRound s poll).table = (pollSteps poll).foldl Table.step s.table := by
  cases poll with
  | nothing => rfl
  | ready pollout accepted =>
      cases accepted with
      | none => rfl
      | some socket =>
          apply Table.ext
          · intro j
            show (if j = 1 then _ else _ : PollFd).fd = if j = 1 then (socket : Int) else _
            split <;> rfl
          · rfl

/-- The client after its setup loop and some rounds and passes of the main
loop, with the accepts and drops on the way. -/
inductive Serving (sha1 : List Byte → Digest) (ans : BtInfo) (listener : Nat) (dials : List Dial) :
    List TableStep → Client → Prop where
  | start {connections own file buffer s} :
      setup ans (freshClient connections listener own file buffer) dials = .ok s →
      Serving sha1 ans listener dials [] s
  | round {steps s} (poll : Poll) : Serving sha1 ans listener dials steps s → s.maxPeerIndex < s.i →
      Serving sha1 ans listener dials (steps ++ pollSteps poll) (startRound s poll)
  | turn {steps s s' evs} (r : Recv) (eRecv eSend : Env) : Serving sha1 ans listener dials steps s →
      s.i ≤ s.maxPeerIndex → turn sha1 ans s r eRecv eSend = .ok (s', evs) →
      Serving sha1 ans listener dials (steps ++ passSteps s r) s'

/-- The client's table follows from the setup and the accepts and drops. -/
theorem serving_table {listener : Nat} {dials : List Dial} {steps : List TableStep}
    (h : Serving sha1 ans listener dials steps s) :
    s.table = steps.foldl Table.step (Table.connected listener (dials.map Dial.socket)) := by
  induction h with
  | start hsetup => exact (setup_table hsetup).1
  | round poll _ _ ih => rw [startRound_table, List.foldl_append, ih]
  | turn r eRecv eSend _ _ hturn ih => rw [(turn_table hturn).2, List.foldl_append, ih]

end Tables

end DubstepDucks.Torrent
