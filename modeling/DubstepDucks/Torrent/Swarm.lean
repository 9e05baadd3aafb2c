import DubstepDucks.History.Network
import DubstepDucks.Torrent.Courtesies
import Mathlib.Order.Interval.Finset.Fin

/-!
# Torrent — all clients of a file

Clients that list once are told of those that listed before them, in that
order (`Tracker.exchange_in_order`). So of the clients `0, …, n - 1` of a
file, in the order of their requests, the client `c` dials `0, …, c - 1` in
its setup loop and is dialled by the others. The `swarm` is the network of
these programs: a `Member` is one client with its connections, and what is
delivered to it are the bytes that TCP carries and the connections that its
listener completes.

A dialled peer is in a slot of its own, but all accepted ones share slot 1,
and a client visits as many slots as it has accepted connections. What comes
of that holds under every schedule, and however TCP cuts what is sent:
`callers_length` counts the connections that a client can accept, `orderly`
says who is in which slot and what is under way, and `transfers_bounded` in
which turns a client transfers anything at all.
-/

namespace DubstepDucks.Torrent

open CMem Btp History

/-! ## The system -/

/-- What a client starts with. -/
structure Launch where
  connections : Nat → Connections
  listener : Nat
  own : List Byte
  file : Option (List Byte)
  buffer : Mem

def Launch.client (l : Launch) : Client :=
  freshClient l.connections l.listener l.own l.file l.buffer

/-- Where the program of a client is. -/
inductive Host where
  /-- In the setup loop, with `i` peers done. -/
  | dialling (s : Client) (i : Nat)
  /-- The handshake to peer `i` is sent, and the `recv` has not returned. -/
  | waiting (s : Client) (i : Nat)
  /-- In the main loop. -/
  | running (s : Client)

def Host.client : Host → Client
  | .dialling s _ | .waiting s _ | .running s => s

/-- A client in a swarm of `n`. -/
structure Member (n : Nat) where
  host : Host
  /-- Who is at the other end of a descriptor. -/
  peer : Int → Option (Fin n)
  /-- Whose connections the listener has completed, in that order. -/
  callers : List (Fin n)
  /-- The bytes under way from each of the others. -/
  inbox : Fin n → List Byte

/-- What a step does that others can see, and what it logs. -/
structure Action (n : Nat) where
  events : List Event
  dials : Option (Fin n)
  out : Fin n → List Byte

/-- The bytes that go out to `q`, when `peer` says who is in which slot. -/
def Event.toPeer {n : Nat} (peer : Nat → Option (Fin n)) (q : Fin n) : Event → List Byte
  | .introduced k bytes => if peer k = some q then bytes else []
  | .sent _ k m => if peer k = some q then m.bytes else []
  | _ => []

/-- A descriptor that is not in the table. -/
def Unused (s : Client) (socket : Nat) : Prop := 0 < socket ∧ ∀ j, (s.fds j).fd ≠ socket

/-- What `recv` may return when `stream` is under way, and what is left. -/
inductive Arrives : List Byte → Recv → List Byte → Prop where
  | error {stream} : Arrives stream .error stream
  | closed {stream} : Arrives stream .closed stream
  | chunk (c : Chunk) (rest : List Byte) : Arrives (c.bytes ++ rest) (.chunk c) rest

theorem Arrives.mem_of_rest {stream rest : List Byte} {r : Recv} (h : Arrives stream r rest)
    {b : Byte} (hb : b ∈ rest) : b ∈ stream := by
  cases h with
  | error => exact hb
  | closed => exact hb
  | chunk c rest => exact List.mem_append_right _ hb

theorem Arrives.mem_of_chunk {stream rest : List Byte} {c : Chunk}
    (h : Arrives stream (.chunk c) rest) {b : Byte} (hb : b ∈ c.bytes) : b ∈ stream := by
  cases h with
  | chunk c rest => exact List.mem_append_left _ hb

/-- What `recv` returns on a connection to the given peer, and what is left.
The listener and standard input are no connections: `recv` fails on them. -/
inductive Hears {n : Nat} (inbox : Fin n → List Byte) :
    Option (Fin n) → Recv → (Fin n → List Byte) → Prop where
  | nobody : Hears inbox none .error inbox
  | peer {q r rest} : Arrives (inbox q) r rest →
      Hears inbox (some q) r (Function.update inbox q rest)

/-- What the setup loop sends to the peer of slot `i + 1` behind its
handshake: an answer to a handshake with a bitfield. -/
def setupReply (ans : BtInfo) (s : Client) (i : Nat) (d : Dial) : List Byte :=
  match d.answer with
  | .error | .closed => []
  | .chunk c =>
      if c.bytes.length = fullHandshakeLength + ans.bitfieldMsgLength then
        match checkHandshake { s with buffer := s.buffer.write 0 c.bytes } d.env with
        | .error _ => []
        | .ok s =>
            let bits := setPeerBitfield (s.bufPtr d.env) ans.bitfieldMsgLength
            let wanted := peerContainsUndownloadedPieces (Mem.of bits d.env.behindPeer)
              (Mem.of s.ownBitfield d.env.behindOwn) ans.bitfieldLen
            let send := if 0 < wanted then sendInterested else sendUninterested
            (send (s.connections i)).2.bytes
      else []

/-- One step of the client `c`. A client that stops makes no more steps. -/
inductive Member.Step {n : Nat} (sha1 : List Byte → Digest) (ans : BtInfo) (c : Fin n) :
    Member n → Action n → Member n → Prop where
  | dial {m s} (q : Fin n) : m.host = .dialling s q → q < c →
      Step sha1 ans c m ⟨[], some q, fun p => if p = q then ownHandshake else []⟩
        { m with host := .waiting s q }
  | answered {m s s' rest} (q : Fin n) (d : Dial) : m.host = .waiting s q → Unused s d.socket →
      Arrives (m.inbox q) d.answer rest → setupPeer ans s q d = .ok s' →
      Step sha1 ans c m ⟨[], none, fun p => if p = q then setupReply ans s q d else []⟩
        { m with host := .dialling s' (q + 1)
                 peer := Function.update m.peer d.socket (some q)
                 inbox := Function.update m.inbox q rest }
  | ready {m s} : m.host = .dialling s c →
      Step sha1 ans c m ⟨[], none, fun _ => []⟩ { m with host := .running { s with i := 1 } }
  | round {m s} (pollout : Nat → Bool) (poll : Poll) : m.host = .running s →
      s.maxPeerIndex < s.i → poll = .nothing ∨ poll = .ready pollout none →
      Step sha1 ans c m ⟨[], none, fun _ => []⟩ { m with host := .running (startRound s poll) }
  | accept {m s} (pollout : Nat → Bool) (socket : Nat) (q : Fin n) : m.host = .running s →
      s.maxPeerIndex < s.i → m.callers[s.maxPeerIndex]? = some q → Unused s socket →
      Step sha1 ans c m ⟨[], none, fun _ => []⟩
        { m with host := .running (startRound s (.ready pollout (some socket)))
                 peer := Function.update m.peer socket (some q) }
  | turn {m s s' evs r inbox} (eRecv eSend : Env) : m.host = .running s →
      s.i ≤ s.maxPeerIndex → Hears m.inbox (m.peer (s.fds s.i).fd) r inbox →
      turn sha1 ans s r eRecv eSend = .ok (s', evs) →
      Step sha1 ans c m
        ⟨evs, none, fun q => evs.flatMap (Event.toPeer (fun k => m.peer (s'.fds k).fd) q)⟩
        { m with host := .running s', inbox := inbox }

/-- The clients of a file, and TCP between them. -/
def swarm {n : Nat} (sha1 : List Byte → Digest) (ans : BtInfo) (launch : Fin n → Launch) :
    Network (Fin n) (Member n) (Action n) where
  start := fun c => ⟨.dialling (launch c).client 0, fun _ => none, [], fun _ => []⟩
  step := Member.Step sha1 ans
  deliver := fun c a q m =>
    { m with callers := if a.dials = some q then m.callers ++ [c] else m.callers
             inbox := Function.update m.inbox c (m.inbox c ++ a.out q) }

def Host.Running : Host → Prop
  | .running _ => True
  | _ => False

instance : DecidablePred Host.Running
  | .running _ => isTrue trivial
  | .dialling _ _ | .waiting _ _ => isFalse fun h => h

/-- The schedule of clients that are started one after another: each dials
when all those before it are in their main loops. -/
def Prompt {n : Nat} (w : Fin n → Member n) (c : Fin n) (a : Action n) : Prop :=
  a.dials ≠ none → ∀ q, q < c → (w q).host.Running

/-- What the client `c` logs. -/
def logged {n : Nat} (c : Fin n) (log : List (Fin n × Action n)) : List Event :=
  (Network.own c log).flatMap Action.events

variable {n : Nat} {sha1 : List Byte → Digest} {ans : BtInfo} {launch : Fin n → Launch}
  {S : (Fin n → Member n) → Fin n → Action n → Prop} {log : List (Fin n × Action n)}
  {w : Fin n → Member n} {c q : Fin n} {s s' : Client}
  {evs : List Event}

/-! ## Every client runs its own program -/

/-- The setup loop has come to peer `i`, in the state `s`. -/
structure DialledTo (ans : BtInfo) (l : Launch) (s : Client) (i : Nat) : Prop where
  slot : i < maxPeers
  store : s.store = l.client.store
  dials : ∃ dials : List Dial, dials.length = i ∧
    ∀ more, setupFrom ans l.client 0 (dials ++ more) = setupFrom ans s i more

theorem DialledTo.next {l : Launch} {i : Nat} {d : Dial} (h : DialledTo ans l s i)
    (hpeer : setupPeer ans s i d = .ok s') : DialledTo ans l s' (i + 1) := by
  obtain ⟨-, hstore, dials, rfl, hsetup⟩ := h
  refine ⟨(setupPeer_table hpeer).1, (setupPeer_store hpeer).trans hstore, dials ++ [d],
    List.length_append, ?_⟩
  intro more
  rw [List.append_assoc, List.singleton_append, hsetup, setupFrom, hpeer]

theorem DialledTo.done {l : Launch} {i : Nat} (h : DialledTo ans l s i) :
    ∃ dials, dials.length = i ∧ setup ans l.client dials = .ok { s with i := 1 } := by
  obtain ⟨hslot, -, dials, hlength, hsetup⟩ := h
  refine ⟨dials, hlength, ?_⟩
  have hall : dials.take (maxConnections - 1) = dials := by
    apply List.take_of_length_le
    rw [maxPeers] at hslot
    rw [maxConnections]
    omega
  have hdone := hsetup []
  rw [List.append_nil] at hdone
  rw [setup, hall, hdone]
  rfl

/-- A client is in its setup loop, or in a run of its main loop. -/
def OnCourse (sha1 : List Byte → Digest) (ans : BtInfo) (l : Launch) (c : Nat) (log : List Event) :
    Host → Prop
  | .dialling s i | .waiting s i => log = [] ∧ DialledTo ans l s i
  | .running s => ∃ dials s₀, dials.length = c ∧ setup ans l.client dials = .ok s₀ ∧
      Run sha1 ans s₀ log s

/-- **One client of a swarm.** Whatever the others do, each client dials
those before it and runs its main loop. -/
theorem onCourse (h : (swarm sha1 ans launch).Run S log w) (c : Fin n) :
    OnCourse sha1 ans (launch c) c (logged c log) (w c).host := by
  apply h.solitary (I := fun c acts m =>
    OnCourse sha1 ans (launch c) c (acts.flatMap Action.events) m.host)
  · intro c
    exact ⟨rfl, by decide, rfl, [], rfl, fun more => rfl⟩
  · intro c acts a m m' hm hstep
    rw [List.flatMap_append, List.flatMap_singleton]
    cases hstep with
    | dial q hhost _ =>
        rw [hhost] at hm
        rw [List.append_nil]
        exact hm
    | answered q d hhost _ _ hpeer =>
        rw [hhost] at hm
        rw [List.append_nil]
        exact ⟨hm.1, hm.2.next hpeer⟩
    | ready hhost =>
        rw [hhost] at hm
        obtain ⟨hnone, hdialled⟩ := hm
        obtain ⟨dials, hlength, hsetup⟩ := hdialled.done
        rw [hnone]
        exact ⟨dials, _, hlength, hsetup, .start⟩
    | round pollout poll hhost hready _ =>
        rw [hhost] at hm
        obtain ⟨dials, s₀, hlength, hsetup, hrun⟩ := hm
        rw [List.append_nil]
        exact ⟨dials, s₀, hlength, hsetup, hrun.round poll hready⟩
    | accept pollout socket q hhost hready _ _ =>
        rw [hhost] at hm
        obtain ⟨dials, s₀, hlength, hsetup, hrun⟩ := hm
        rw [List.append_nil]
        exact ⟨dials, s₀, hlength, hsetup, hrun.round _ hready⟩
    | turn eRecv eSend hhost hslot _ hturn =>
        rw [hhost] at hm
        obtain ⟨dials, s₀, hlength, hsetup, hrun⟩ := hm
        exact ⟨dials, s₀, hlength, hsetup, hrun.turn _ eRecv eSend hslot hturn⟩
  · intro c a q acts m hm
    exact hm

/-! ## Who has connected to whom -/

/-- The program has dialled peer `c`. -/
def Host.Past (c : Nat) : Host → Prop
  | .dialling _ i => c < i
  | .waiting _ i => c ≤ i
  | .running _ => True

section Steps

variable {m m' : Member n} {a : Action n}

/-- Only deliveries bring callers. -/
theorem Member.Step.callers (h : Member.Step sha1 ans c m a m') : m'.callers = m.callers := by
  cases h <;> rfl

theorem Member.Step.past {k : Nat} (h : Member.Step sha1 ans c m a m') (hpast : m.host.Past k) :
    m'.host.Past k := by
  cases h with
  | dial q hhost _ =>
      rw [hhost] at hpast
      exact Nat.le_of_lt hpast
  | answered q d hhost _ _ _ =>
      rw [hhost] at hpast
      exact Nat.lt_succ_of_le hpast
  | _ => trivial

/-- A client dials those before it, and each once. -/
theorem Member.Step.dials (h : Member.Step sha1 ans c m a m') (hdials : a.dials = some q) :
    q < c ∧ ¬ m.host.Past q ∧ m'.host.Past q := by
  cases h with
  | dial q' hhost hlt =>
      cases hdials
      rw [hhost]
      exact ⟨hlt, Nat.lt_irrefl _, Nat.le_refl _⟩
  | _ => cases hdials

end Steps

theorem callers_ordered (h : (swarm sha1 ans launch).Run S log w) :
    ∀ c, (w c).callers.Nodup ∧ ∀ q ∈ (w c).callers, c < q ∧ (w q).host.Past c := by
  induction h with
  | start =>
      intro c
      exact ⟨List.nodup_nil, fun q hq => by cases hq⟩
  | @step log w d a m hrun _ hstep ih =>
      -- what was dialled stays so
      have hpast : ∀ {c : Fin n} (q : Fin n), (w q).host.Past c →
          ((swarm sha1 ans launch).after w d a m q).host.Past c := by
        intro c q hq
        by_cases hqd : q = d
        · subst hqd
          rw [Network.after_self]
          exact hstep.past hq
        · rw [Network.after_of_ne _ hqd]
          exact hq
      intro c
      obtain ⟨hnodup, hcallers⟩ := ih c
      have hkept : ∀ q ∈ (w c).callers,
          c < q ∧ ((swarm sha1 ans launch).after w d a m q).host.Past c :=
        fun q hq => ⟨(hcallers q hq).1, hpast q (hcallers q hq).2⟩
      by_cases hcd : c = d
      · subst hcd
        rw [Network.after_self, hstep.callers]
        exact ⟨hnodup, hkept⟩
      · rw [Network.after_of_ne _ hcd]
        show (if a.dials = some c then (w c).callers ++ [d] else (w c).callers).Nodup ∧
          ∀ q ∈ (if a.dials = some c then (w c).callers ++ [d] else (w c).callers), _
        split
        · next hdials =>
          obtain ⟨hlt, hbefore, hafter⟩ := hstep.dials hdials
          have hnew : d ∉ (w c).callers := fun hmem => hbefore (hcallers d hmem).2
          refine ⟨?_, ?_⟩
          · rw [List.nodup_append_comm]
            exact List.nodup_cons.mpr ⟨hnew, hnodup⟩
          · intro q hq
            rcases List.mem_append.mp hq with hq | hq
            · exact hkept q hq
            · obtain rfl := List.mem_singleton.mp hq
              rw [Network.after_self]
              exact ⟨hlt, hafter⟩
        · exact ⟨hnodup, hkept⟩

/-- Only the clients behind it call a client, and each once. -/
theorem callers_length (h : (swarm sha1 ans launch).Run S log w) (c : Fin n) :
    (w c).callers.length + c < n := by
  obtain ⟨hnodup, hcallers⟩ := callers_ordered h c
  have hsubset : (w c).callers.toFinset ⊆ Finset.Ioi c := by
    intro q hq
    rw [List.mem_toFinset] at hq
    exact Finset.mem_Ioi.mpr (hcallers q hq).1
  have hcard := Finset.card_le_card hsubset
  rw [List.toFinset_card_of_nodup hnodup, Fin.card_Ioi] at hcard
  have hc := c.isLt
  omega

/-! ## Who is in which slot -/

/-- Where the descriptors of the client `c` lead: a dialled peer is in its own
slot, an accepted one in slot 1, and once one was accepted slot 1 has no
other. -/
structure Wired (c : Fin n) (peer : Int → Option (Fin n)) (t : Table) : Prop where
  closed : ∀ fd, fd ≤ 0 → peer fd = none
  slot : ∀ j q, peer (t.fds j) = some q → (q < c ∧ j = q + 1) ∨ (c < q ∧ j = 1)
  accepted : 1 ≤ t.maxPeerIndex → ∀ q, peer (t.fds 1) = some q → c < q

section Wires

variable {peer : Int → Option (Fin n)} {t : Table}

/-- A new descriptor in slot `k`. -/
theorem peer_set {socket : Nat} (hunused : ∀ j, t.fds j ≠ socket) (k j : Nat) :
    Function.update peer socket (some q) ((t.set k socket).fds j)
      = if j = k then some q else peer (t.fds j) := by
  simp only [Table.set]
  split
  · rw [Function.update_self]
  · rw [Function.update_of_ne (hunused j)]

theorem Wired.closed_update (h : Wired c peer t) {socket : Nat} (hpos : 0 < socket) :
    ∀ fd, fd ≤ 0 → Function.update peer socket (some q) fd = none := by
  intro fd hfd
  rw [Function.update_of_ne (by omega)]
  exact h.closed fd hfd

theorem Wired.dial (h : Wired c peer t) {socket : Nat} (hpos : 0 < socket)
    (hunused : ∀ j, t.fds j ≠ socket) (hnone : t.maxPeerIndex = 0) (hlt : q < c) :
    Wired c (Function.update peer socket (some q)) (t.set (q + 1) socket) := by
  refine ⟨h.closed_update hpos, ?_, ?_⟩
  · intro j p hp
    rw [peer_set hunused] at hp
    split at hp
    · next hj =>
      cases hp
      exact .inl ⟨hlt, hj⟩
    · exact h.slot j p hp
  · intro hsome
    have hzero : (t.set (q + 1) socket).maxPeerIndex = 0 := hnone
    omega

theorem Wired.accept (h : Wired c peer t) {socket : Nat} (hpos : 0 < socket)
    (hunused : ∀ j, t.fds j ≠ socket) (hlt : c < q) :
    Wired c (Function.update peer socket (some q)) (t.step (.accept socket)) := by
  refine ⟨h.closed_update hpos, ?_, ?_⟩
  · intro j p hp
    have hset : (if j = 1 then some q else peer (t.fds j)) = some p :=
      (peer_set hunused 1 j).symm.trans hp
    split at hset
    · next hj =>
      cases hset
      exact .inr ⟨hlt, hj⟩
    · exact h.slot j p hset
  · intro _ p hp
    have hset : (if 1 = 1 then some q else peer (t.fds 1)) = some p :=
      (peer_set hunused 1 1).symm.trans hp
    rw [if_pos rfl] at hset
    cases hset
    exact hlt

/-- A slot that has a peer after a drop had it before. -/
theorem Wired.of_drop (h : Wired c peer t) {k j : Nat}
    (hq : peer ((t.step (.drop k)).fds j) = some q) : peer (t.fds j) = some q := by
  simp only [Table.step, Table.set] at hq
  split at hq
  · rw [h.closed _ (by decide)] at hq
    cases hq
  · exact hq

theorem Wired.drop (h : Wired c peer t) (k : Nat) : Wired c peer (t.step (.drop k)) :=
  ⟨h.closed, fun j q hq => h.slot j q (h.of_drop hq),
    fun hsome q hq => h.accepted hsome q (h.of_drop hq)⟩

end Wires

/-- A pass leaves the table alone, or drops the slot it visits. -/
theorem turn_table_cases {r : Recv} {eRecv eSend : Env}
    (h : turn sha1 ans s r eRecv eSend = .ok (s', evs)) :
    s'.table = s.table ∨ s'.table = s.table.step (.drop s.i) := by
  rw [(turn_table h).2]
  cases r with
  | closed =>
      rw [passSteps]
      split
      · exact .inl rfl
      · exact .inr rfl
  | _ => exact .inl rfl

theorem turn_maxPeerIndex {r : Recv} {eRecv eSend : Env}
    (h : turn sha1 ans s r eRecv eSend = .ok (s', evs)) : s'.maxPeerIndex = s.maxPeerIndex := by
  rcases turn_table_cases h with htable | htable <;> exact congrArg Table.maxPeerIndex htable

theorem Wired.turn {peer : Int → Option (Fin n)} {r : Recv} {eRecv eSend : Env}
    (hs : Wired c peer s.table) (h : turn sha1 ans s r eRecv eSend = .ok (s', evs)) :
    Wired c peer s'.table := by
  rcases turn_table_cases h with htable | htable
  · rw [htable]
    exact hs
  · rw [htable]
    exact hs.drop s.i

/-! ## What is under way -/

/-- What `q` sends to `c` is never more than flags: the first client is out
of reach once it has answered, and the last one is never called. -/
def Calm (q c : Fin n) : Prop := c.val = 0 ∨ q.val + 1 = n

def Host.Orderly (c callers : Nat) : Host → Prop
  | .dialling s _ => s.maxPeerIndex = 0
  | .waiting s i => s.maxPeerIndex = 0 ∧ i < c
  | .running s => s.maxPeerIndex ≤ callers

theorem Host.Orderly.mono {host : Host} {k callers callers' : Nat} (h : host.Orderly k callers)
    (hle : callers ≤ callers') : host.Orderly k callers' := by
  cases host with
  | dialling s i => exact h
  | waiting s i => exact h
  | running s => exact Nat.le_trans h hle

structure Orderly (c : Fin n) (m : Member n) : Prop where
  wired : Wired c m.peer m.host.client.table
  host : m.host.Orderly c m.callers.length
  flags : ∀ q, Calm q c → ∀ b ∈ m.inbox q, FlagByte b

theorem Orderly.running {m : Member n} (hm : Orderly c m) (hs : m.host = .running s) :
    Wired c m.peer s.table ∧ s.maxPeerIndex ≤ m.callers.length := by
  have hwired := hm.wired
  have hhost := hm.host
  rw [hs] at hwired hhost
  exact ⟨hwired, hhost⟩

theorem setupReply_flagByte (s : Client) (i : Nat) (d : Dial) :
    ∀ b ∈ setupReply ans s i d, FlagByte b := by
  rw [setupReply]
  split
  · simp
  · simp
  · split
    · split
      · simp
      · dsimp only
        split
        · exact state_flagByte _ (by decide)
        · exact state_flagByte _ (by decide)
    · simp

theorem Hears.mem {inbox inbox' : Fin n → List Byte} {peer : Option (Fin n)} {r : Recv}
    (h : Hears inbox peer r inbox') {b : Byte} (hb : b ∈ inbox' q) : b ∈ inbox q := by
  cases h with
  | nobody => exact hb
  | @peer p r rest harrives =>
      by_cases hq : q = p
      · subst hq
        rw [Function.update_self] at hb
        exact harrives.mem_of_rest hb
      · rwa [Function.update_of_ne hq] at hb

/-- Nothing goes to a client that is in no slot. -/
theorem toPeer_of_ne {peer : Nat → Option (Fin n)} (hnot : ∀ k, peer k ≠ some q) (ev : Event) :
    ev.toPeer peer q = [] := by
  cases ev with
  | introduced k bytes => exact if_neg (hnot k)
  | sent turn k m => exact if_neg (hnot k)
  | _ => rfl

/-- In its main loop a client has something to say to a slot of its own or to
slot 1, so nothing to the first client. -/
theorem Wired.ne_first {peer : Int → Option (Fin n)} {t : Table} (ht : Wired c peer t)
    (hsome : 1 ≤ t.maxPeerIndex) (hq : q.val = 0) (k : Nat) : peer (t.fds k) ≠ some q := by
  intro hk
  rcases ht.slot k q hk with ⟨-, hslot⟩ | ⟨hlt, -⟩
  · have hone : k = 1 := by omega
    subst hone
    have hlt := ht.accepted hsome q hk
    omega
  · omega

section Steps

variable {m m' : Member n} {a : Action n}

theorem Member.Step.wired (hm : Orderly c m) (hcallers : ∀ q ∈ m.callers, c < q)
    (h : Member.Step sha1 ans c m a m') : Wired c m'.peer m'.host.client.table := by
  have hwired := hm.wired
  have hhost := hm.host
  cases h with
  | dial q hdialling _ =>
      rw [hdialling] at hwired
      exact hwired
  | @answered s s' rest q d hwaiting hunused _ hpeer =>
      rw [hwaiting] at hwired hhost
      show Wired c _ s'.table
      rw [(setupPeer_table hpeer).2]
      exact hwired.dial hunused.1 hunused.2 hhost.1 hhost.2
  | ready hdialling =>
      rw [hdialling] at hwired
      exact hwired
  | @round s pollout poll hrunning _ hpoll =>
      rw [hrunning] at hwired
      show Wired c _ (startRound s poll).table
      rw [startRound_table]
      rcases hpoll with rfl | rfl <;> exact hwired
  | @accept s pollout socket q hrunning _ hnext hunused =>
      rw [hrunning] at hwired
      show Wired c _ (startRound s (.ready pollout (some socket))).table
      rw [startRound_table]
      exact hwired.accept hunused.1 hunused.2 (hcallers q (List.mem_of_getElem? hnext))
  | turn eRecv eSend hrunning _ _ hturn =>
      rw [hrunning] at hwired
      exact hwired.turn hturn

theorem Member.Step.host (hm : Orderly c m) (h : Member.Step sha1 ans c m a m') :
    m'.host.Orderly c m'.callers.length := by
  have hhost := hm.host
  cases h with
  | dial q hdialling hlt =>
      rw [hdialling] at hhost
      exact ⟨hhost, hlt⟩
  | answered q d hwaiting _ _ hpeer =>
      rw [hwaiting] at hhost
      have hmax := congrArg Table.maxPeerIndex (setupPeer_table hpeer).2
      exact hmax.trans hhost.1
  | @ready s hdialling =>
      rw [hdialling] at hhost
      show s.maxPeerIndex ≤ _
      rw [show s.maxPeerIndex = 0 from hhost]
      exact Nat.zero_le _
  | round pollout poll hrunning _ hpoll =>
      rw [hrunning] at hhost
      rcases hpoll with rfl | rfl <;> exact hhost
  | accept pollout socket q hrunning _ hnext _ =>
      obtain ⟨hlt, -⟩ := List.getElem?_eq_some_iff.mp hnext
      exact hlt
  | turn eRecv eSend hrunning _ _ hturn =>
      rw [hrunning] at hhost
      show _ ≤ _
      rw [turn_maxPeerIndex hturn]
      exact hhost

theorem Member.Step.inbox (h : Member.Step sha1 ans c m a m') {b : Byte} (hb : b ∈ m'.inbox q) :
    b ∈ m.inbox q := by
  cases h with
  | @answered s s' rest p d _ _ harrives _ =>
      by_cases hq : q = p
      · subst hq
        have hrest : b ∈ Function.update m.inbox q rest q := hb
        rw [Function.update_self] at hrest
        exact harrives.mem_of_rest hrest
      · have hkept : b ∈ Function.update m.inbox p rest q := hb
        rwa [Function.update_of_ne hq] at hkept
  | turn eRecv eSend _ _ hhears _ => exact hhears.mem hb
  | _ => exact hb

/-- What a client sends: greetings and a word on its interest to those it
dials, and in its main loop whatever it likes to a client in one of its
slots. -/
theorem Member.Step.sends (hm : Orderly c m) (h : Member.Step sha1 ans c m a m')
    (hsent : a.out q ≠ []) : (q < c ∧ ∀ b ∈ a.out q, FlagByte b) ∨
      ∃ s k, m.host = .running s ∧ s.i ≤ s.maxPeerIndex ∧ m.peer (s.fds k).fd = some q := by
  have hwired := hm.wired
  have hhost := hm.host
  cases h with
  | dial p hdialling hlt =>
      by_cases hq : q = p
      · subst hq
        refine .inl ⟨hlt, ?_⟩
        show ∀ b ∈ if q = q then ownHandshake else [], FlagByte b
        rw [if_pos rfl]
        exact ownHandshake_flagByte
      · exact absurd (if_neg hq) hsent
  | @answered s s' rest p d hwaiting _ _ _ =>
      rw [hwaiting] at hhost
      by_cases hq : q = p
      · subst hq
        refine .inl ⟨hhost.2, ?_⟩
        show ∀ b ∈ if q = q then setupReply ans s q d else [], FlagByte b
        rw [if_pos rfl]
        exact setupReply_flagByte s q d
      · exact absurd (if_neg hq) hsent
  | @turn s s' evs r inbox eRecv eSend hrunning hslot _ hturn =>
      rw [hrunning] at hwired
      obtain ⟨k, hk⟩ : ∃ k, m.peer (s'.table.fds k) = some q := by
        by_contra hnone
        apply hsent
        apply List.flatMap_eq_nil_iff.mpr
        intro ev _
        exact toPeer_of_ne (fun k hk => hnone ⟨k, hk⟩) ev
      refine .inr ⟨s, k, hrunning, hslot, ?_⟩
      rcases turn_table_cases hturn with htable | htable
      · rwa [htable] at hk
      · rw [htable] at hk
        exact hwired.of_drop hk
  | _ => exact absurd rfl hsent

/-- What a client sends on a calm connection. -/
theorem Member.Step.out (hm : Orderly c m) (hcallers : m.callers.length + c < n)
    (hpos : ∀ s, m.host = .running s → 1 ≤ s.i) (h : Member.Step sha1 ans c m a m')
    (hcalm : Calm c q) : ∀ b ∈ a.out q, FlagByte b := by
  intro b hb
  rcases h.sends hm (List.ne_nil_of_mem hb) with ⟨-, hflags⟩ | ⟨s, k, hrunning, hslot, hk⟩
  · exact hflags b hb
  · obtain ⟨hwired, hmax⟩ := hm.running hrunning
    have hsome : 1 ≤ s.maxPeerIndex := Nat.le_trans (hpos s hrunning) hslot
    rcases hcalm with hfirst | hlast
    · exact absurd hk (hwired.ne_first hsome hfirst k)
    · omega

end Steps

theorem running_slot (h : (swarm sha1 ans launch).Run S log w) {c : Fin n} :
    ∀ s, (w c).host = .running s → Listening c (logged c log) s := by
  intro s hs
  have hcourse := onCourse h c
  rw [hs] at hcourse
  obtain ⟨dials, s₀, hlength, hsetup, hrun⟩ := hcourse
  obtain ⟨hunwatched, hslot⟩ := setup_unwatched hsetup
  rw [hlength] at hunwatched
  exact run_listening ⟨hunwatched, Nat.le_of_eq hslot.symm, by simp⟩ hrun

/-- The invariant of every member, by the network's rule. -/
theorem orderly (h : (swarm sha1 ans launch).Run S log w) (c : Fin n) : Orderly c (w c) := by
  apply h.invariant (I := fun c _ m => Orderly c m)
    (G := fun c a q => Calm c q → ∀ b ∈ a.out q, FlagByte b)
  · intro c
    refine ⟨⟨fun _ _ => rfl, ?_, ?_⟩, rfl, ?_⟩
    · intro j q hq
      cases hq
    · intro _ q hq
      cases hq
    · intro q _ b hb
      cases hb
  · intro log w c a m hrun hm hstep
    refine ⟨⟨?_, hstep.host hm, ?_⟩, ?_⟩
    · exact hstep.wired hm fun q hq => ((callers_ordered hrun c).2 q hq).1
    · intro q hcalm b hb
      exact hm.flags q hcalm b (hstep.inbox hb)
    · intro q _ hcalm
      exact hstep.out hm (callers_length hrun c) (fun s hs => (running_slot hrun s hs).slot) hcalm
  · intro c a q acts m _ hsent hm
    have hgrows : m.callers.length
        ≤ (if a.dials = some q then m.callers ++ [c] else m.callers).length := by
      split
      · rw [List.length_append]
        exact Nat.le_add_right _ _
      · exact Nat.le_refl _
    refine ⟨hm.wired, hm.host.mono hgrows, ?_⟩
    intro p hcalm b hb
    have hdelivered : b ∈ Function.update m.inbox c (m.inbox c ++ a.out q) p := hb
    by_cases hp : p = c
    · subst hp
      rw [Function.update_self] at hdelivered
      rcases List.mem_append.mp hdelivered with hold | hnew
      · exact hm.flags p hcalm b hold
      · exact hsent hcalm b hnew
    · rw [Function.update_of_ne hp] at hdelivered
      exact hm.flags p hcalm b hdelivered

/-! ## Who transfers -/

/-- **Transfers are bounded.** However the clients of a swarm are interleaved
and however TCP cuts what they send, a message of client `c` that is not on
its own interest, nor the greeting that answers a handshake, is sent in the
turn of a slot `1, …, c`, and of one that at least as many clients behind `c`
have connected to. So the first client and the last one transfer nothing. -/
theorem transfers_bounded (h : (swarm sha1 ans launch).Run S log w) (c : Fin n) :
    ∀ turn k m, .sent turn k m ∈ logged c log → ¬ Courtesy m →
      1 ≤ turn ∧ turn ≤ c.val ∧ turn + c.val < n := by
  intro turn k m hm hno
  have hcallers := callers_length h c
  cases hs : (w c).host with
  | running s =>
      obtain ⟨hpos, hdialled, haccepted⟩ := (running_slot h s hs).sends turn k m hm hno
      have hmax := ((orderly h c).running hs).2
      exact ⟨hpos, hdialled, by omega⟩
  | _ =>
      -- nothing is logged in the setup loop
      have hcourse := onCourse h c
      rw [hs] at hcourse
      rw [hcourse.1] at hm
      cases hm

theorem unused_of_few {socket : Nat} (hpos : 0 < socket) (hfew : ∀ j < 3, (s.fds j).fd ≠ socket)
    (hrest : ∀ j, (s.fds (j + 3)).fd = 0) : Unused s socket := by
  refine ⟨hpos, ?_⟩
  intro j
  by_cases hj : j < 3
  · exact hfew j hj
  · obtain ⟨j, rfl⟩ := Nat.exists_eq_add_of_le (Nat.le_of_not_lt hj)
    rw [Nat.add_comm, hrest]
    omega

/-- A new client of a file of eight pieces. -/
def Launch.plain : Launch where
  connections := fun _ => initializeConnection .zeroed 8
  listener := 3
  own := setInitialBitfield 8
  file := none
  buffer := fun _ => 0

/-- Of three clients, the second dials the first and the third both. It says
that it is interested, and the second unchokes it. -/
theorem three_meet :
    ∃ log w, (swarm (n := 3) (fun _ => ⟨List.replicate 20 0, rfl⟩) eightPieces
        fun _ => .plain).Run Prompt log w ∧
      logged 1 log = [.greeted 1 ownHandshake, .introduced 1 (answerBytes 0),
        .heard 1 (WireMsg.state MsgID.interested.byte).bytes .interested,
        .sent 1 1 (.state MsgID.unchoke.byte)] := by
  have h0 : (swarm (n := 3) (fun _ => ⟨List.replicate 20 0, rfl⟩) eightPieces
    fun _ => .plain).Run Prompt _ _ := .start
  -- the second client and the first
  have h1 := h0.step (c := 0) (fun h => absurd rfl h) (.ready rfl)
  have h2 := h1.step (c := 1) (fun _ => by decide) (.dial 0 rfl (by decide))
  have h3 := h2.step (c := 0) (fun h => absurd rfl h)
    (.accept (fun _ => true) 6 1 rfl (by decide) rfl
      (unused_of_few (by decide) (by decide) fun _ => rfl))
  have h4 := h3.step (c := 0) (fun h => absurd rfl h)
    (.turn .calm .calm rfl (by decide)
      (.peer (.chunk ⟨ownHandshake, by decide, by decide⟩ [])) rfl)
  have h5 := h4.step (c := 1) (fun h => absurd rfl h)
    (.answered 0 ⟨7, true, true, .chunk (answerChunk 0), .calm⟩ rfl
      (unused_of_few (by decide) (by decide) fun _ => rfl) (.chunk (answerChunk 0) []) rfl)
  have h6 := h5.step (c := 1) (fun h => absurd rfl h) (.ready rfl)
  -- the third client and the first
  have h7 := h6.step (c := 2) (fun _ => by decide) (.dial 0 rfl (by decide))
  have h8 := h7.step (c := 0) (fun h => absurd rfl h)
    (.accept (fun _ => true) 8 2 rfl (by decide) rfl
      (unused_of_few (by decide) (by decide) fun _ => rfl))
  have h9 := h8.step (c := 0) (fun h => absurd rfl h)
    (.turn .calm .calm rfl (by decide)
      (.peer (.chunk ⟨ownHandshake, by decide, by decide⟩ [])) rfl)
  have h10 := h9.step (c := 2) (fun h => absurd rfl h)
    (.answered 0 ⟨9, true, true, .chunk (answerChunk 0), .calm⟩ rfl
      (unused_of_few (by decide) (by decide) fun _ => rfl) (.chunk (answerChunk 0) []) rfl)
  -- the third client and the second
  have h11 := h10.step (c := 2) (fun _ => by decide) (.dial 1 rfl (by decide))
  have h12 := h11.step (c := 1) (fun h => absurd rfl h)
    (.accept (fun _ => false) 10 2 rfl (by decide) rfl
      (unused_of_few (by decide) (by decide) fun _ => rfl))
  have h13 := h12.step (c := 1) (fun h => absurd rfl h)
    (.turn .calm .calm rfl (by decide)
      (.peer (.chunk ⟨ownHandshake, by decide, by decide⟩ [])) rfl)
  have h14 := h13.step (c := 2) (fun h => absurd rfl h)
    (.answered 1 ⟨11, true, true, .chunk (answerChunk 0), .calm⟩ rfl
      (unused_of_few (by decide) (by decide) fun _ => rfl) (.chunk (answerChunk 0) []) rfl)
  have h15 := h14.step (c := 1) (fun h => absurd rfl h)
    (.round (fun _ => true) (.ready (fun _ => true) none) rfl (by decide) (.inr rfl))
  have h16 := h15.step (c := 1) (fun h => absurd rfl h)
    (.turn .calm .calm rfl (by decide)
      (.peer (.chunk ⟨(WireMsg.state MsgID.interested.byte).bytes, by decide, by decide⟩ [])) rfl)
  exact ⟨_, _, h16, rfl⟩

/-- The second of three clients unchokes the third in the turn of slot 1. -/
theorem transfers_bounded_unchoked :
    ∃ log w, (swarm (n := 3) (fun _ => ⟨List.replicate 20 0, rfl⟩) eightPieces
        fun _ => .plain).Run Prompt log w ∧
      .sent 1 1 (.state MsgID.unchoke.byte) ∈ logged 1 log ∧
      1 ≤ 1 ∧ 1 ≤ (1 : Fin 3).val ∧ 1 + (1 : Fin 3).val < 3 := by
  obtain ⟨log, w, hrun, hlog⟩ := three_meet
  have hsent : .sent 1 1 (.state MsgID.unchoke.byte) ∈ logged 1 log := by
    rw [hlog]
    simp
  exact ⟨log, w, hrun, hsent, transfers_bounded hrun 1 1 1 (.state MsgID.unchoke.byte) hsent
    (by simp [Courtesy, MsgID.byte])⟩

end DubstepDucks.Torrent
