import DubstepDucks.Torrent.Setup
import DubstepDucks.Tracker.Exchange

/-!
# Torrent — the tables for the tracker's peers

Between the tracker's reply and the main loop the peers go through five
arrays of `main`: `requestPeers` fills `peer_buf`, a loop copies it to
`peers`, and the setup loop uses `peers`, `peer`, `connections` and, one
further, `fds`. All of them are sized by `MAX_PEERS`; the number of peers is
a byte of the reply, and the only bound on it is `MAX_CONNECTIONS`.

The accesses of the three stretches are listed with what decides how far they
get, and `reply_fits_iff` says for which servers they stay inside.
-/

namespace DubstepDucks.Torrent

open CMem Btp Heap Tracker

/-! ## Accesses -/

/-- The arrays of `main` that the tracker's peers go to. -/
inductive PeerArray where
  | peerBuf | peers | peer | connections | fds
  deriving DecidableEq

/-- Their lengths; that of `peer_buf` in bytes. -/
def PeerArray.length : PeerArray → Nat
  | .peerBuf => maxPeers * 16
  | .peers | .peer | .connections | .fds => maxPeers

/-- An element that the code reads or writes. -/
structure PeerAccess where
  array : PeerArray
  index : Nat

def PeerAccess.Inside (a : PeerAccess) : Prop := a.index < a.array.length

/-- `memcpy(peers, recv_msg + 1, *numPeers*16)` of `requestPeers`. -/
def storeAccesses (numPeers : CInt) : List PeerAccess :=
  (List.range (numPeers * 16).toNat).map fun b => ⟨.peerBuf, b⟩

/-- The loop that copies `peer_buf` to `peers`. -/
def copyAccesses (numOfPeers : CInt) : List PeerAccess :=
  (List.range numOfPeers.toInt.toNat).flatMap fun j =>
    ⟨.peers, j⟩ :: (List.range 16).map fun b => ⟨.peerBuf, 16 * j + b⟩

/-- `peers_to_connect_to`. -/
def peersToConnectTo (numOfPeers : CInt) : Nat :=
  if maxConnections - 1 < numOfPeers.toInt.toNat then maxConnections - 1
  else numOfPeers.toInt.toNat

/-- One round of the setup loop. -/
def dialAccesses (i : Nat) : List PeerAccess :=
  [⟨.peer, i⟩, ⟨.peers, i⟩, ⟨.fds, i + 1⟩, ⟨.connections, i⟩]

/-- The setup loop from peer `i` on, as far as it gets. -/
def setupAccesses (ans : BtInfo) : Client → Nat → List Dial → List PeerAccess
  | _, _, [] => []
  | s, i, d :: dials =>
      dialAccesses i ++
        match setupPeer ans s i d with
        | .error _ => []
        | .ok s => setupAccesses ans s (i + 1) dials

/-- **The reply fits the client**: whatever first part of it `recv` returns,
whatever memory holds and however the dialling goes, every access is inside
its array. -/
def FitsClient (ans : BtInfo) (reply : List Byte) : Prop :=
  ∀ received, received <+: reply → received ≠ [] →
  ∀ (fresh peerBuf buffer : Mem) (connections : Nat → Connections) (listener : Nat)
    (own : List Byte) (file : Option (List Byte)) (dials : List Dial),
    let numOfPeers := (requestPeers (recvMsg fresh received) 0 peerBuf).1
    dials.length = peersToConnectTo numOfPeers →
    ∀ a ∈ storeAccesses numOfPeers ++ copyAccesses numOfPeers ++
        setupAccesses ans (freshClient connections listener own file buffer) 0 dials,
      a.Inside

/-! ## How many peers fit -/

/-- The bytes of `peer_buf` and the pointers of `peers`. -/
theorem stored_inside {n : CInt} (h : n.toNat ≤ maxPeers) :
    ∀ a ∈ storeAccesses n ++ copyAccesses n, a.Inside := by
  rw [maxPeers] at h
  intro a ha
  rcases List.mem_append.mp ha with ha | ha
  · obtain ⟨b, hb, rfl⟩ := List.mem_map.mp ha
    rw [List.mem_range, BitVec.toNat_mul] at hb
    have h16 : (16 : CInt).toNat = 16 := rfl
    show b < 10 * 16
    rw [h16] at hb
    omega
  · obtain ⟨j, hj, ha⟩ := List.mem_flatMap.mp ha
    rw [List.mem_range, toInt_eq_toNat (by omega), Int.toNat_natCast] at hj
    rcases List.mem_cons.mp ha with rfl | ha
    · show j < 10
      omega
    · obtain ⟨b, hb, rfl⟩ := List.mem_map.mp ha
      rw [List.mem_range] at hb
      show 16 * j + b < 10 * 16
      omega

/-- The setup loop stays inside as long as `fds[i+1]` does. -/
theorem setupAccesses_inside {ans : BtInfo} :
    ∀ {dials : List Dial} {s : Client} {i : Nat}, i + dials.length < maxPeers →
      ∀ a ∈ setupAccesses ans s i dials, a.Inside := by
  intro dials
  induction dials with
  | nil =>
      intro s i _ a ha
      cases ha
  | cons d dials ih =>
      intro s i h a ha
      rw [List.length_cons, maxPeers] at h
      rw [setupAccesses, List.mem_append] at ha
      rcases ha with ha | ha
      · have hcases : a = ⟨.peer, i⟩ ∨ a = ⟨.peers, i⟩ ∨ a = ⟨.fds, i + 1⟩ ∨
            a = ⟨.connections, i⟩ := by
          simpa [dialAccesses] using ha
        rcases hcases with rfl | rfl | rfl | rfl <;> show _ < 10 <;> dsimp only <;> omega
      · cases hpeer : setupPeer ans s i d with
        | error stop =>
            rw [hpeer] at ha
            cases ha
        | ok s1 =>
            rw [hpeer] at ha
            exact ih (by rw [maxPeers]; omega) a ha

/-- A peer that can be reached and answers with one byte. -/
def Dial.answering : Dial where
  socket := 4
  connects := true
  sends := true
  answer := .chunk ⟨[0], by decide, by decide⟩
  env := .calm

theorem setupPeer_answering (ans : BtInfo) (s : Client) {i : Nat} (h : i + 1 < maxPeers) :
    ∃ s', setupPeer ans s i .answering = .ok s' := by
  have hslot : ¬ maxPeers ≤ i + 1 := by omega
  have hhandshake : ¬ 1 = fullHandshakeLength := by decide
  have hgreeting : ¬ 1 = fullHandshakeLength + ans.bitfieldMsgLength := by
    rw [fullHandshakeLength]
    omega
  simp [setupPeer, Dial.answering, hslot, hhandshake, hgreeting]

/-- When every peer answers, a tenth one is dialled, and gets `fds[10]`. -/
theorem setupAccesses_tenth (ans : BtInfo) :
    ∀ {k : Nat} {s : Client} {i : Nat}, i < maxPeers → maxPeers ≤ i + k →
      ⟨.fds, maxPeers⟩ ∈ setupAccesses ans s i (List.replicate k .answering) := by
  intro k
  induction k with
  | zero =>
      intro s i hi hk
      omega
  | succ k ih =>
      intro s i hi hk
      rw [List.replicate_succ, setupAccesses, List.mem_append]
      by_cases hlast : i + 1 < maxPeers
      · obtain ⟨s1, hpeer⟩ := setupPeer_answering ans s hlast
        rw [hpeer]
        exact .inr (ih hlast (by omega))
      · have hi' : i + 1 = maxPeers := by omega
        left
        rw [dialAccesses, hi']
        simp

/-- The count that any first part of a reply announces. -/
theorem count_of_prefix {n : Nat} {rest received : List Byte}
    (h : received <+: (leBytes (BitVec.ofNat 32 n)).take 1 ++ rest) (hne : received ≠ [])
    (fresh peerBuf : Mem) :
    (requestPeers (recvMsg fresh received) 0 peerBuf).1.toNat = n % 256 := by
  obtain ⟨first, tail, rfl⟩ := List.exists_cons_of_ne_nil hne
  have hfirst : first = (BitVec.ofNat 32 n).extractLsb' 0 8 := (List.cons_prefix_cons.mp h).1
  rw [requestPeers_count, hfirst]
  exact toNat_countByte tail fresh

/-- `MAX_CONNECTIONS` never cuts a count of one byte. -/
theorem peersToConnectTo_eq {n : CInt} (h : n.toNat < 256) : peersToConnectTo n = n.toNat := by
  rw [peersToConnectTo, toInt_eq_toNat (by omega), Int.toNat_natCast, maxConnections,
    if_neg (by omega)]

/-- Nine peers fit, by the count byte. -/
theorem fitsClient_iff (ans : BtInfo) (n : Nat) (rest : List Byte) :
    FitsClient ans ((leBytes (BitVec.ofNat 32 n)).take 1 ++ rest) ↔ n % 256 ≤ 9 := by
  constructor
  · intro h
    by_contra hmany
    have hne : (leBytes (BitVec.ofNat 32 n)).take 1 ++ rest ≠ [] := by simp [leBytes]
    have hwhole := h _ List.prefix_rfl hne (fun _ => 0) (fun _ => 0) (fun _ => 0)
      (fun _ => .zeroed) 3 [] none
    have hcount := count_of_prefix List.prefix_rfl hne (fun _ => 0) fun _ => 0
    generalize (requestPeers (recvMsg (fun _ => 0) _) 0 fun _ => 0).1 = numOfPeers at hwhole hcount
    have htenth := hwhole (List.replicate (n % 256) .answering)
      (by rw [List.length_replicate, peersToConnectTo_eq (by omega), hcount]) ⟨.fds, maxPeers⟩
      (List.mem_append_right _ (setupAccesses_tenth ans (by decide) (by rw [maxPeers]; omega)))
    exact Nat.lt_irrefl maxPeers htenth
  · intro hfew received hpre hne fresh peerBuf buffer connections listener own file dials
    have hcount := count_of_prefix hpre hne fresh peerBuf
    dsimp only
    generalize (requestPeers (recvMsg fresh received) 0 peerBuf).1 = numOfPeers at hcount
    intro hdials a ha
    rw [peersToConnectTo_eq (by omega), hcount] at hdials
    rcases List.mem_append.mp ha with ha | ha
    · exact stored_inside (by rw [maxPeers]; omega) a ha
    · exact setupAccesses_inside (by rw [maxPeers]; omega) a ha

/-! ## Replies of reachable servers -/

/-- **Tracker replies fit the client** exactly when the number of the other
clients is at most nine modulo 256: for every reachable server and
requester. -/
theorem reply_fits_iff {s : Server} (hs : Reachable s) {c : Connection} (hc : c.Lists)
    (ans : BtInfo) :
    ∃ s' head ips, s.register c.ip = some s' ∧ s'.cHead = some head ∧
      Chain s'.heap s'.cHead ips ∧
      s.handle c = (sendClients s'.heap head s'.numClients c.ip c.behind c.fresh).map
        (fun r => (s', some r)) ∧
      ((∀ size log data, sendClients s'.heap head s'.numClients c.ip c.behind c.fresh
            = some (.sent size log data) → FitsClient ans data)
        ↔ (ips.filter (· ≠ c.ip)).length % 256 ≤ 9) := by
  obtain ⟨s', head, l, r, hs', hhead, hl, hr, hip, hcount, hb, -⟩ := hs.registered c
  refine ⟨s', head, r.ips, hs', hhead, ⟨l, hhead ▸ hl, hr⟩, handle_eq hc hs' hhead, ?_⟩
  rw [hcount]
  by_cases hmax : r.ips.length ≤ maxReply
  · rw [sendClients_sent hl hr hip hmax c.behind c.fresh]
    constructor
    · intro h
      exact (fitsClient_iff ans _ _).mp (h _ _ _ rfl)
    · rintro hfew size log data hsent
      cases hsent
      exact (fitsClient_iff ans _ _).mpr hfew
  · -- no reply, and a multiple of 256 other clients
    have hlo : (r.ips.filter (· ≠ c.ip)).length + 1 = r.ips.length := Registry.length_others hip
    rw [sendClients_overflow (by omega)]
    refine ⟨fun _ => ?_, fun _ size log data hsent => by cases hsent⟩
    unfold maxReply at *
    omega

/-- The third client dials the two before it, inside its tables. -/
theorem reply_fits_iff_third :
    ∃ s s' head ips, Server.start.run (manyLists 2) = some s ∧
      s.register (inetNtoa (addrOfNat 2)) = some s' ∧ s'.cHead = some head ∧
      Chain s'.heap s'.cHead ips ∧ (ips.filter (· ≠ inetNtoa (addrOfNat 2))).length = 2 ∧
      s.handle (listConn (addrOfNat 2))
        = (sendClients s'.heap head s'.numClients (inetNtoa (addrOfNat 2)) (fun _ _ => 0)
            (fun _ => 0)).map (fun r => (s', some r)) ∧
      ∀ size log data, sendClients s'.heap head s'.numClients (inetNtoa (addrOfNat 2))
        (fun _ _ => 0) (fun _ => 0) = some (.sent size log data) → FitsClient eightPieces data := by
  obtain ⟨s, hs, hlist⟩ := chain_manyLists (n := 2) (by decide)
  obtain ⟨s', head, ips, hs', hhead, hchain, hhandle, hfits⟩ :=
    reply_fits_iff ⟨_, hs⟩ (lists_listConn (addrOfNat 2)) eightPieces
  have hlen : (ips.filter (· ≠ inetNtoa (addrOfNat 2))).length = 2 := by
    rw [hlist s' ips hs' hchain]
    decide
  refine ⟨s, s', head, ips, hs, hs', hhead, hchain, hlen, hhandle, hfits.mpr ?_⟩
  show (ips.filter (· ≠ inetNtoa (addrOfNat 2))).length % 256 ≤ 9
  omega

/-- With ten clients registered before it, the requester's setup loop gets
to `fds[10]`. -/
theorem reply_fits_iff_ten :
    ∃ s s' head size log data, Server.start.run (manyLists 10) = some s ∧
      (listConn (addrOfNat 10)).Lists ∧
      s.register (inetNtoa (addrOfNat 10)) = some s' ∧ s'.cHead = some head ∧
      sendClients s'.heap head s'.numClients (inetNtoa (addrOfNat 10)) (fun _ _ => 0)
        (fun _ => 0) = some (.sent size log data) ∧
      ¬ FitsClient eightPieces data := by
  have hten : 10 ≤ maxReply := by unfold maxReply; omega
  obtain ⟨s, s', head, l, r, hs, hs', hhead, hl, hvals, hmem, hrep, hlen⟩ := register_manyLists hten
  have hlo := Registry.length_others hmem
  have hsent := sendClients_sent hl hvals hmem (by unfold maxReply; omega) (fun _ _ => 0) fun _ => 0
  rw [← hrep.count] at hsent
  refine ⟨s, s', head, _, _, _, hs, lists_listConn _, hs', hhead, hsent, ?_⟩
  rw [fitsClient_iff]
  omega

end DubstepDucks.Torrent
