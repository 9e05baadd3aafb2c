import DubstepDucks.Tracker.Exchange

/-!
# Tracker — memory that was never written

Three places of the exchange read bytes that nobody put there. `recvMsg`
calls `recv` once, into a fresh buffer, and its callers never learn how much
arrived; `sendClients` copies sixteen bytes of every address, however short
it is. Each of the three statements compares runs that differ in such bytes
only, and says for which messages or addresses they agree.

Plan: a byte of the buffer is either received or fresh (`recvMsg_received`,
`recvMsg_fresh`); what the server makes of its buffer is decided by five
bytes, what `requestPeers` makes of its own by `1 + 16 n`.
-/

namespace DubstepDucks.Tracker

open CMem Heap

/-! ## The buffer -/

theorem recvMsg_received (fresh : Mem) {received : List Byte} {i : Nat} (h : i < received.length)
    (hfits : i < bufSiz) : recvMsg fresh received i = received.getD i 0 := by
  have hlen : i < (received.take bufSiz).length := by
    rw [List.length_take]
    omega
  rw [recvMsg, Mem.write_zero, Mem.of_lt hlen, List.getD_eq_getElem?_getD,
    List.getElem?_take_of_lt hfits, List.getD_eq_getElem?_getD]

theorem recvMsg_fresh (fresh : Mem) {received : List Byte} {i : Nat} (h : received.length ≤ i) :
    recvMsg fresh received i = fresh i := by
  have hlen : 0 + (received.take bufSiz).length ≤ i := by
    rw [List.length_take]
    omega
  rw [recvMsg, Mem.write_out (.inr hlen)]

/-- A `list` request, byte by byte. -/
theorem lists_iff_bytes (c : Connection) :
    c.Lists ↔ c.recvMsg 0 ≠ 0 ∧ ∀ i, i < 4 → c.recvMsg (1 + i) = (ascii "list").getD i 0 := by
  refine and_congr_right fun _ => ?_
  constructor
  · intro htext i hi
    rw [← htext, Mem.getD_read _ hi]
    rfl
  · intro hchars
    have hlength : ((c.recvMsg.advance 1).read 4).length = (ascii "list").length :=
      Mem.length_read _ _
    apply ext_getD hlength
    intro i hi
    rw [Mem.length_read] at hi
    rw [Mem.getD_read _ hi]
    exact hchars i hi

/-- Two buffers that agree on the first five bytes are the same request. -/
theorem lists_congr {c c' : Connection} (h : ∀ i, i < 5 → c.recvMsg i = c'.recvMsg i) :
    c.Lists ↔ c'.Lists := by
  have htext : (c.recvMsg.advance 1).read 4 = (c'.recvMsg.advance 1).read 4 := by
    apply Mem.read_congr
    intro i hi
    exact h (1 + i) (by omega)
  rw [Connection.Lists, Connection.Lists, h 0 (by omega), htext]

theorem getD_list_ne_zero {i : Nat} (hi : i < 4) : (ascii "list").getD i 0 ≠ 0 := by
  have hall : ∀ i < 4, (ascii "list").getD i 0 ≠ 0 := by decide
  exact hall i hi

/-! ## Segments -/

/-- `buildMsg`: the length of the text in one byte, and the text. -/
def buildMsg (msg : CString) : List Byte :=
  (leBytes (BitVec.ofNat 32 msg.chars.length)).take 1 ++ msg.chars

/-- What `requestPeers` sends. -/
def listRequest : List Byte := buildMsg (literal "list")

/-- A message on its way, as the non-empty parts that `recv` calls return. -/
structure Segments (msg : List Byte) where
  parts : List (List Byte)
  nonempty : ∀ part ∈ parts, part ≠ []
  whole : parts.flatten = msg

/-- `recvMsg` at the other end: it calls `recv` once. -/
def Segments.recvMsg {msg : List Byte} (segments : Segments msg) (fresh : Mem) : Mem :=
  Tracker.recvMsg fresh (segments.parts.headD [])

/-- A non-empty message comes in one part, or its first part is a piece of
it that is shorter. -/
theorem Segments.cases {msg : List Byte} (segments : Segments msg) (hmsg : msg ≠ []) :
    segments.parts = [msg] ∨ ∃ first rest, first ≠ [] ∧ rest ≠ [] ∧
      segments.parts.headD [] = first ∧ msg = first ++ rest := by
  obtain ⟨parts, hne, hwhole⟩ := segments
  match parts with
  | [] => exact absurd hwhole.symm hmsg
  | [part] =>
      have hpart : part = msg := by simpa using hwhole
      exact .inl (congrArg (fun p => [p]) hpart)
  | first :: second :: parts =>
      refine .inr ⟨first, (second :: parts).flatten, hne first (by simp), ?_, rfl, hwhole.symm⟩
      have hsecond := hne second (by simp)
      simp [hsecond]

/-- The request is recognised in every buffer exactly when it comes whole. -/
theorem request_recognised_iff (c : Connection) (request : Segments listRequest) :
    (∀ fresh, Connection.Lists { c with recvMsg := request.recvMsg fresh }) ↔
      request.parts = [listRequest] := by
  constructor
  · intro h
    rcases request.cases (by decide) with hwhole | ⟨first, rest, hfirst, hrest, hhead, hsplit⟩
    · exact hwhole
    · -- a byte of the text is still missing, and the buffer is zeroed
      have hlists := h fun _ => 0
      have hlen : first.length + rest.length = 5 := by
        rw [← List.length_append, ← hsplit]
        rfl
      have hfirst := List.length_pos_iff.mpr hfirst
      have hrest := List.length_pos_iff.mpr hrest
      have hchar := ((lists_iff_bytes _).mp hlists).2 (first.length - 1) (by omega)
      have hzero : request.recvMsg (fun _ => 0) (1 + (first.length - 1)) = 0 := by
        rw [Segments.recvMsg, hhead, recvMsg_fresh _ (by omega)]
      exact absurd (hchar.symm.trans hzero) (getD_list_ne_zero (by omega))
  · intro h fresh
    have hbuffer : request.recvMsg fresh
        = Mem.of ([4#8] ++ ascii "list") (fresh.advance listRequest.length) := by
      rw [Segments.recvMsg, h]
      exact Mem.write_zero fresh listRequest
    refine ⟨?_, ?_⟩
    · show request.recvMsg fresh 0 ≠ 0
      rw [hbuffer]
      exact (by decide : (4#8 : Byte) ≠ 0)
    · show ((request.recvMsg fresh).advance 1).read 4 = ascii "list"
      rw [hbuffer]
      exact Mem.read_advance_of [4#8] (ascii "list") _

/-! ## The other end -/

theorem toNat_requestPeers (recv peers : Mem) :
    ((requestPeers recv 0 peers).1 * 16).toNat = 16 * (recv 0).toNat := by
  have hcount := requestPeers_count recv peers
  have h16 : (16 : CInt).toNat = 16 := rfl
  have hbyte := (recv 0).isLt
  rw [BitVec.toNat_mul, hcount, h16]
  omega

/-- A byte that `requestPeers` stores. -/
theorem requestPeers_stored {recv : Mem} {i : Nat} (h : i < 16 * (recv 0).toNat) (peers : Mem) :
    (requestPeers recv 0 peers).2 i = recv (1 + i) := by
  have hsize := toNat_requestPeers recv peers
  show peers.write 0 ((recv.advance 1).read ((requestPeers recv 0 peers).1 * 16).toNat) i = _
  rw [hsize, Mem.write_in (Nat.zero_le i) (by simpa using h), Nat.sub_zero, Mem.getD_read _ h]
  rfl

/-- `requestPeers` looks at the count and at as many entries. -/
theorem requestPeers_congr {recv recv' : Mem}
    (h : ∀ i, i < 1 + 16 * (recv 0).toNat → recv i = recv' i) (peers : Mem) :
    requestPeers recv 0 peers = requestPeers recv' 0 peers := by
  have hcount : recv 0 = recv' 0 := h 0 (by omega)
  have hsame : (requestPeers recv 0 peers).1 = (requestPeers recv' 0 peers).1 := by
    simp only [requestPeers, hcount]
  refine Prod.ext hsame ?_
  show peers.write 0 ((recv.advance 1).read ((requestPeers recv 0 peers).1 * 16).toNat)
    = peers.write 0 ((recv'.advance 1).read ((requestPeers recv' 0 peers).1 * 16).toNat)
  rw [← hsame, toNat_requestPeers]
  congr 1
  apply Mem.read_congr
  intro i hi
  exact h (1 + i) (by omega)

/-- The reply has the same effect in every buffer exactly when it comes
whole. -/
theorem reply_received_iff {data : List Byte} {n : Nat} (hlen : data.length = 1 + 16 * n)
    (hcount : (data.getD 0 0).toNat = n) (reply : Segments data) :
    (∀ fresh fresh' peers, requestPeers (reply.recvMsg fresh) 0 peers
        = requestPeers (recvMsg fresh' data) 0 peers) ↔ reply.parts = [data] := by
  have hbyte := (data.getD 0 0).isLt
  have hne : data ≠ [] := by
    rintro rfl
    simp at hlen
    omega
  constructor
  · intro h
    rcases reply.cases hne with hwhole | ⟨first, rest, hfirst, hrest, hhead, hsplit⟩
    · exact hwhole
    · -- the first byte that is still missing is stored as it was in the buffer
      have hfirst := List.length_pos_iff.mpr hfirst
      have hrest := List.length_pos_iff.mpr hrest
      have hsum : first.length + rest.length = 1 + 16 * n := by
        rw [← List.length_append, ← hsplit, hlen]
      have hfirstCount : (first.getD 0 0).toNat = n := by
        rw [← hcount, hsplit, List.getD_eq_getElem?_getD, List.getD_eq_getElem?_getD,
          List.getElem?_append_left hfirst]
      have hstored : ∀ b : Byte, (requestPeers (reply.recvMsg fun _ => b) 0 fun _ => 0).2
          (first.length - 1) = b := by
        intro b
        have h0 : reply.recvMsg (fun _ => b) 0 = first.getD 0 0 := by
          rw [Segments.recvMsg, hhead, recvMsg_received _ hfirst (by decide)]
        rw [requestPeers_stored (by rw [h0, hfirstCount]; omega), Segments.recvMsg, hhead,
          recvMsg_fresh _ (by omega)]
      have hsame := (h (fun _ => 0) (fun _ => 0) fun _ => 0).trans
        (h (fun _ => 1) (fun _ => 0) fun _ => 0).symm
      have hbytes := congrFun (congrArg Prod.snd hsame) (first.length - 1)
      rw [hstored, hstored] at hbytes
      exact absurd hbytes (by decide)
  · intro h fresh fresh' peers
    rw [Segments.recvMsg, h]
    apply requestPeers_congr
    have h0 : recvMsg fresh data 0 = data.getD 0 0 :=
      recvMsg_received _ (by omega) (by decide)
    intro i hi
    have hfits : i < bufSiz := by
      rw [bufSiz]
      rw [List.headD_cons, h0, hcount] at hi
      omega
    rw [List.headD_cons, h0, hcount] at hi
    rw [List.headD_cons, recvMsg_received _ (by omega) hfits, recvMsg_received _ (by omega) hfits]

/-! ## The exchange in segments -/

/-- The exchange goes as it does when every message comes whole: the request
is recognised, and `requestPeers` ends with the same. -/
def SameExchange (c : Connection) {data : List Byte} (request : Segments listRequest)
    (reply : Segments data) : Prop :=
  (∀ fresh, Connection.Lists { c with recvMsg := request.recvMsg fresh }) ∧
    ∀ fresh fresh' peers, requestPeers (reply.recvMsg fresh) 0 peers
      = requestPeers (recvMsg fresh' data) 0 peers

theorem length_entries (behind : Nat → Mem) (l : List (Nat × CString)) :
    ((l.map (entryBytes behind)).flatten).length = 16 * l.length := by
  rw [length_flatten_blocks (entries_wide behind l), List.length_map, ipSize]

/-- **The exchange under segmentation**: for every reachable server with at
most 255 clients besides the requester, and every way of splitting the
messages, it goes the same exactly when neither is split. -/
theorem exchange_in_segments_iff {s : Server} (hs : Reachable s) {ips : List CString}
    (hips : Chain s.heap s.cHead ips) (c : Connection)
    (hfew : (ips.filter (· ≠ c.ip)).length ≤ 255) :
    ∃ s' size log data,
      (∀ fresh, s.handle { c with recvMsg := recvMsg fresh listRequest }
        = some (s', some (.sent size log data))) ∧
      ∀ (request : Segments listRequest) (reply : Segments data),
        SameExchange c request reply ↔
          request.parts = [listRequest] ∧ reply.parts = [data] := by
  obtain ⟨r, hi⟩ := hs.inv
  obtain rfl : ips = r.ips := hips.det hi.rep.chain
  obtain ⟨s', head, l, hs', hhead, hl, hvals, hrep⟩ := register_lists hi c.ip
  have hmem := Registry.mem_register r c.ip
  have hlo := Registry.length_others hmem
  have hothers : ((r.register c.ip).others c.ip).length ≤ 255 := by
    rw [Registry.others_register]
    exact hfew
  have hsent := sendClients_sent hl hvals hmem (by unfold maxReply; omega) c.behind c.fresh
  rw [← hrep.count] at hsent
  have hlists : ∀ fresh, Connection.Lists { c with recvMsg := recvMsg fresh listRequest } :=
    (request_recognised_iff c ⟨[listRequest], by decide, rfl⟩).mpr rfl
  refine ⟨s', _, _, _, fun fresh => handle_sent (hlists fresh) hs' hhead hsent, ?_⟩
  intro request reply
  have hfilter := map_snd_others hvals c.ip
  refine and_congr (request_recognised_iff c request)
    (reply_received_iff (n := ((r.register c.ip).others c.ip).length) ?_ ?_ reply)
  · rw [List.length_append, length_entries, Registry.others, ← hfilter, List.length_map]
    rfl
  · have hcount := toNat_countByte (n := ((r.register c.ip).others c.ip).length)
      ((l.filter (·.2 ≠ c.ip)).map (entryBytes c.behind)).flatten fun _ => 0
    rw [Nat.mod_eq_of_lt (by omega)] at hcount
    exact hcount

/-- The third client: its reply has two entries to be split. -/
theorem exchange_in_segments_iff_third :
    ∃ s s' size log data, Server.start.run (manyLists 2) = some s ∧
      (∀ fresh, s.handle { listConn (addrOfNat 2) with recvMsg := recvMsg fresh listRequest }
        = some (s', some (.sent size log data))) ∧
      ∀ (request : Segments listRequest) (reply : Segments data),
        SameExchange (listConn (addrOfNat 2)) request reply ↔
          request.parts = [listRequest] ∧ reply.parts = [data] := by
  obtain ⟨s, r, hs, hi, hips⟩ := run_manyLists (n := 2) (by decide)
  obtain ⟨s', size, log, data, hhandle, hsame⟩ :=
    exchange_in_segments_iff ⟨_, hs⟩ hi.rep.chain (listConn (addrOfNat 2)) (by rw [hips]; decide)
  exact ⟨s, s', size, log, data, hs, hhandle, hsame⟩

/-- The length byte of the request comes alone, into a zeroed buffer: a fresh
server ignores the request. -/
theorem exchange_in_segments_length_byte :
    ∃ request : Segments listRequest, request.parts = [[4#8], ascii "list"] ∧
      Server.start.handle { listConn (addrOfNat 0) with recvMsg := request.recvMsg fun _ => 0 }
        = some (Server.start, none) ∧
      ∀ (data : List Byte) (reply : Segments data),
        ¬ SameExchange (listConn (addrOfNat 0)) request reply := by
  refine ⟨⟨[[4#8], ascii "list"], by decide, rfl⟩, rfl, rfl, ?_⟩
  rintro data reply ⟨hrecognised, -⟩
  have hwhole := (request_recognised_iff _ _).mp hrecognised
  exact absurd hwhole (by decide)

/-! ## Decisions -/

/-- What handling a connection comes to: the state, and whether a reply was
sent; `none` when the process dies. -/
def outcome (r : Option (Server × Option Sent)) : Option (Server × Bool) :=
  r.map fun r => (r.1, match r.2 with
    | some (.sent _ _ _) => true
    | _ => false)

/-- The bytes received decide what the request is. -/
def Decides : List Byte → Prop
  | [] => False
  | first :: rest => first = 0 ∨ 4 ≤ rest.length ∨ ¬ rest <+: ascii "list"

/-- Only whether it is a `list` request matters about the buffer. -/
theorem handle_congr (s : Server) (c : Connection) {recv recv' : Mem}
    (h : Connection.Lists { c with recvMsg := recv } ↔
      Connection.Lists { c with recvMsg := recv' }) :
    s.handle { c with recvMsg := recv } = s.handle { c with recvMsg := recv' } := by
  by_cases hlists : Connection.Lists { c with recvMsg := recv }
  · obtain ⟨h0, hcmp⟩ := (lists_iff _).mp hlists
    obtain ⟨h0', hcmp'⟩ := (lists_iff _).mp (h.mp hlists)
    rw [Server.handle, if_neg h0, if_pos hcmp, Server.handle, if_neg h0', if_pos hcmp']
    rfl
  · rw [handle_ignored s hlists, handle_ignored s (h.not.mp hlists)]

/-- A `list` request is answered, or it kills the server. -/
theorem outcome_lists {s : Server} (hs : Reachable s) {c : Connection} (hc : c.Lists) :
    outcome (s.handle c) ≠ some (s, false) := by
  obtain ⟨s', head, l, r, hs', hhead, hl, hr, hip, hcount, hb, -⟩ := hs.registered c
  by_cases hmax : r.ips.length ≤ maxReply
  · have hsent := sendClients_sent hl hr hip hmax c.behind c.fresh
    rw [← hcount] at hsent
    rw [handle_sent hc hs' hhead hsent]
    intro h
    have hreplied : (s', true) = (s, false) := Option.some.inj h
    cases hreplied
  · rw [handle_eq hc hs' hhead, hcount, sendClients_overflow (by omega)]
    intro h
    cases h

/-- What was received of a `list` request is the start of one. -/
theorem prefix_of_lists {c : Connection} {fresh : Mem} {first : Byte} {rest : List Byte}
    (hrest : rest.length ≤ 4)
    (h : Connection.Lists { c with recvMsg := recvMsg fresh (first :: rest) }) :
    rest <+: ascii "list" := by
  have hrec : rest = (ascii "list").take rest.length := by
    apply ext_getD
    · have hfour : (ascii "list").length = 4 := rfl
      rw [List.length_take, hfour]
      omega
    · intro i hi
      have hchar := ((lists_iff_bytes _).mp h).2 i (by omega)
      have hreceived : recvMsg fresh (first :: rest) (1 + i) = rest.getD i 0 := by
        rw [recvMsg_received _ (by rw [List.length_cons]; omega) (by rw [bufSiz]; omega),
          Nat.add_comm]
        rfl
      have htake : ((ascii "list").take rest.length).getD i 0 = (ascii "list").getD i 0 := by
        simp only [List.getD_eq_getElem?_getD, List.getElem?_take_of_lt hi]
      rw [htake, ← hreceived]
      exact hchar
  rw [hrec]
  exact List.take_prefix _ _

/-- Bytes that decide do so in every buffer. -/
theorem lists_of_decides {received : List Byte} (h : Decides received) (c : Connection)
    (fresh fresh' : Mem) :
    Connection.Lists { c with recvMsg := recvMsg fresh received } ↔
      Connection.Lists { c with recvMsg := recvMsg fresh' received } := by
  cases received with
  | nil => exact h.elim
  | cons first rest =>
      have hfirst : ∀ fresh, recvMsg fresh (first :: rest) 0 = first :=
        fun fresh => recvMsg_received fresh (by simp) (by decide)
      by_cases hlong : 4 ≤ rest.length
      · apply lists_congr
        intro i hi
        have hreceived : i < (first :: rest).length := by
          rw [List.length_cons]
          omega
        have hfits : i < bufSiz := by rw [bufSiz]; omega
        show recvMsg fresh _ i = recvMsg fresh' _ i
        rw [recvMsg_received fresh hreceived hfits, recvMsg_received fresh' hreceived hfits]
      · have hnever : ∀ fresh,
            ¬ Connection.Lists { c with recvMsg := recvMsg fresh (first :: rest) } := by
          intro fresh hlists
          rcases h with hzero | hlong' | hother
          · exact hlists.1 ((hfirst fresh).trans hzero)
          · exact hlong hlong'
          · exact hother (prefix_of_lists (by omega) hlists)
        exact iff_of_false (hnever fresh) (hnever fresh')

/-- Bytes that do not decide are completed to a `list` request by the one
buffer, and to something else by the other. -/
theorem lists_of_not_decides {received : List Byte} (h : ¬ Decides received) (c : Connection) :
    Connection.Lists { c with recvMsg := recvMsg (Mem.of listRequest fun _ => 0) received } ∧
      ¬ Connection.Lists { c with recvMsg := recvMsg (fun _ => 0) received } := by
  have hstale : ∀ i, i < 4 → Mem.of listRequest (fun _ => 0) (1 + i) = (ascii "list").getD i 0 := by
    decide
  cases received with
  | nil =>
      have hnothing : ∀ (fresh : Mem) (i : Nat), recvMsg fresh [] i = fresh i :=
        fun fresh i => recvMsg_fresh fresh (Nat.zero_le i)
      refine ⟨(lists_iff_bytes _).mpr ⟨?_, ?_⟩, ?_⟩
      · have hfour : Mem.of listRequest (fun _ => 0) 0 ≠ 0 := by decide
        exact fun hzero => hfour ((hnothing _ 0).symm.trans hzero)
      · intro i hi
        exact (hnothing _ (1 + i)).trans (hstale i hi)
      · intro hlists
        exact hlists.1 (hnothing (fun _ => 0) 0)
  | cons first rest =>
      simp only [Decides, not_or, not_not, Nat.not_le] at h
      obtain ⟨hfirst, hshort, htail, htext⟩ := h
      refine ⟨(lists_iff_bytes _).mpr ⟨?_, ?_⟩, ?_⟩
      · have hbyte : recvMsg (Mem.of listRequest fun _ => 0) (first :: rest) 0 = first :=
          recvMsg_received _ (by simp) (by decide)
        exact fun hzero => hfirst (hbyte.symm.trans hzero)
      · intro i hi
        show recvMsg (Mem.of listRequest fun _ => 0) (first :: rest) (1 + i) = _
        by_cases hreceived : i < rest.length
        · rw [recvMsg_received _ (by rw [List.length_cons]; omega) (by rw [bufSiz]; omega),
            Nat.add_comm, ← htext, List.getD_eq_getElem?_getD, List.getD_eq_getElem?_getD,
            List.getElem?_cons_succ, List.getElem?_append_left hreceived]
        · rw [recvMsg_fresh _ (by rw [List.length_cons]; omega)]
          exact hstale i hi
      · intro hlists
        have hchar := ((lists_iff_bytes _).mp hlists).2 rest.length hshort
        have hzero : recvMsg (fun _ => 0) (first :: rest) (1 + rest.length) = 0 :=
          recvMsg_fresh _ (by rw [List.length_cons]; omega)
        exact getD_list_ne_zero hshort (hchar.symm.trans hzero)

/-- **Tracker decisions**: on every reachable server, whatever the fresh
buffer holds makes no difference exactly when the bytes received decide. -/
theorem decisions_iff {s : Server} (hs : Reachable s) (c : Connection) (received : List Byte) :
    (∀ fresh fresh', outcome (s.handle { c with recvMsg := recvMsg fresh received })
        = outcome (s.handle { c with recvMsg := recvMsg fresh' received })) ↔ Decides received := by
  constructor
  · intro h
    by_contra hundecided
    obtain ⟨hlists, hignored⟩ := lists_of_not_decides hundecided c
    have hsame := h (Mem.of listRequest fun _ => 0) fun _ => 0
    rw [handle_ignored s hignored] at hsame
    exact outcome_lists hs hlists hsame
  · intro hdecides fresh fresh'
    rw [handle_congr s c (lists_of_decides hdecides c fresh fresh')]

/-- A whole request decides. -/
theorem decisions_iff_whole :
    (∀ fresh fresh',
      outcome (Server.start.handle
          { listConn (addrOfNat 0) with recvMsg := recvMsg fresh listRequest })
        = outcome (Server.start.handle
          { listConn (addrOfNat 0) with recvMsg := recvMsg fresh' listRequest })) ↔
      Decides listRequest :=
  decisions_iff ⟨[], rfl⟩ (listConn (addrOfNat 0)) listRequest

/-- A client that closes without a word, and an earlier request in the
buffer: the server registers it and replies. In a zeroed buffer it does
not. -/
theorem decisions_of_nothing :
    Reachable Server.start ∧
      outcome (Server.start.handle { listConn (addrOfNat 0) with
          recvMsg := recvMsg (Mem.of listRequest fun _ => 0) [] })
        ≠ outcome (Server.start.handle { listConn (addrOfNat 0) with
          recvMsg := recvMsg (fun _ => 0) [] }) := by
  have hstart : Reachable Server.start := ⟨[], rfl⟩
  have hundecided : ¬ Decides [] := id
  obtain ⟨hlists, hignored⟩ := lists_of_not_decides hundecided (listConn (addrOfNat 0))
  refine ⟨hstart, ?_⟩
  rw [handle_ignored _ hignored]
  exact outcome_lists hstart hlists

/-! ## What replies reveal -/

/-- The bytes handed to `sendData`, if any. -/
def sentBytes : Option Sent → Option (List Byte)
  | some (.sent _ _ data) => some data
  | _ => none

/-- An entry does not depend on the bytes behind the address exactly when the
address fills it. -/
theorem entryBytes_fixed_iff {e : Nat × CString} (h : e.2.chars.length ≤ 15) :
    (∀ behind behind', entryBytes behind e = entryBytes behind' e) ↔ e.2.chars.length = 15 := by
  have hlt : e.2.chars.length < ipSize := by unfold ipSize; omega
  constructor
  · intro hsame
    have hrest := hsame (fun _ _ => 0) fun _ _ => 1
    rw [entryBytes, entryBytes, CString.read_mem hlt, CString.read_mem hlt] at hrest
    by_contra hshort
    obtain ⟨n, hn⟩ : ∃ n, ipSize - (e.2.chars.length + 1) = n + 1 :=
      ⟨ipSize - (e.2.chars.length + 1) - 1, by rw [ipSize]; omega⟩
    rw [hn] at hrest
    have hbyte := congrArg (·.getD (e.2.chars.length + 1) 0) hrest
    simp [Mem.read, List.range_succ_eq_map] at hbyte
  · intro hfull behind behind'
    rw [entryBytes, entryBytes, CString.read_mem hlt, CString.read_mem hlt, hfull]
    rfl

/-- Tables of equally wide entries are equal entry by entry. -/
theorem entries_eq {behind behind' : Nat → Mem} {l : List (Nat × CString)}
    (h : (l.map (entryBytes behind)).flatten = (l.map (entryBytes behind')).flatten) :
    ∀ e ∈ l, entryBytes behind e = entryBytes behind' e := by
  intro e he
  obtain ⟨j, hj⟩ := List.mem_iff_getElem?.mp he
  have hentry : ∀ b, (l.map (entryBytes b))[j]? = some (entryBytes b e) := by
    intro b
    rw [List.getElem?_map, hj]
    rfl
  rw [← take_drop_blocks (entries_wide behind l) (hentry behind), h,
    take_drop_blocks (entries_wide behind' l) (hentry behind')]

/-- **Tracker replies reveal only the client list** exactly when every other
client's address has fifteen characters (or no reply is sent, for too many
clients): for every reachable server and requester. -/
theorem reply_reveals_iff {s : Server} (hs : Reachable s) {c : Connection} (hc : c.Lists) :
    ∃ s' head ips, s.register c.ip = some s' ∧ s'.cHead = some head ∧
      Chain s'.heap s'.cHead ips ∧
      s.handle c = (sendClients s'.heap head s'.numClients c.ip c.behind c.fresh).map
        (fun r => (s', some r)) ∧
      ((∀ behind behind' fresh fresh',
          sentBytes (sendClients s'.heap head s'.numClients c.ip behind fresh)
            = sentBytes (sendClients s'.heap head s'.numClients c.ip behind' fresh'))
        ↔ (∀ ip ∈ ips, ip ≠ c.ip → ip.chars.length = 15) ∨ 2 ^ 27 < ips.length) := by
  obtain ⟨s', head, l, r, hs', hhead, hl, hr, hip, hcount, hb, hd⟩ := hs.registered c
  refine ⟨s', head, r.ips, hs', hhead, ⟨l, hhead ▸ hl, hr⟩, handle_eq hc hs' hhead, ?_⟩
  rw [hcount]
  by_cases hmax : r.ips.length ≤ maxReply
  · have hsent : ∀ behind fresh,
        sentBytes (sendClients s'.heap head (BitVec.ofNat 32 r.ips.length) c.ip behind fresh)
          = some ((leBytes (BitVec.ofNat 32 (r.others c.ip).length)).take 1
            ++ ((l.filter (·.2 ≠ c.ip)).map (entryBytes behind)).flatten) := by
      intro behind fresh
      rw [sendClients_sent hl hr hip hmax behind fresh]
      rfl
    have hlist : ∀ e, e ∈ l.filter (·.2 ≠ c.ip) ↔ e ∈ l ∧ e.2 ≠ c.ip := by
      intro e
      rw [List.mem_filter, decide_eq_true_iff]
    simp only [hsent, Option.some.injEq, List.append_cancel_left_eq]
    constructor
    · intro h
      left
      intro ip hmem hne
      rw [← hr] at hmem
      obtain ⟨e, he, rfl⟩ := List.mem_map.mp hmem
      rw [← entryBytes_fixed_iff (hd e.2 (by rw [← hr]; exact List.mem_map_of_mem he))]
      intro behind behind'
      exact entries_eq (h behind behind' (fun _ => 0) fun _ => 0) e ((hlist e).mpr ⟨he, hne⟩)
    · rintro (hfull | hmany) behind behind' fresh fresh'
      · congr 1
        apply List.map_congr_left
        intro e he
        obtain ⟨he, hne⟩ := (hlist e).mp he
        have hmem : e.2 ∈ r.ips := by
          rw [← hr]
          exact List.mem_map_of_mem he
        exact (entryBytes_fixed_iff (hd _ hmem)).mpr (hfull _ hmem hne) behind behind'
      · unfold maxReply at hmax
        omega
  · refine ⟨fun _ => .inr (by unfold maxReply at hmax; omega),
      fun _ behind behind' fresh fresh' => ?_⟩
    rw [sendClients_overflow (by omega), sendClients_overflow (by omega)]

/-- The third client is told what lies behind the two short addresses before
it. -/
theorem reply_reveals_iff_third :
    ∃ s s' head ips, Server.start.run (manyLists 2) = some s ∧
      s.register (inetNtoa (addrOfNat 2)) = some s' ∧ s'.cHead = some head ∧
      Chain s'.heap s'.cHead ips ∧ ips.length = 3 ∧
      s.handle (listConn (addrOfNat 2))
        = (sendClients s'.heap head s'.numClients (inetNtoa (addrOfNat 2)) (fun _ _ => 0)
            (fun _ => 0)).map (fun r => (s', some r)) ∧
      ∃ behind behind' fresh fresh',
        sentBytes (sendClients s'.heap head s'.numClients (inetNtoa (addrOfNat 2)) behind fresh)
          ≠ sentBytes (sendClients s'.heap head s'.numClients (inetNtoa (addrOfNat 2)) behind'
            fresh') := by
  obtain ⟨s, hs, hlist⟩ := chain_manyLists (n := 2) (by decide)
  obtain ⟨s', head, ips, hs', hhead, hchain, hhandle, hreveals⟩ :=
    reply_reveals_iff ⟨_, hs⟩ (lists_listConn (addrOfNat 2))
  have hips := hlist s' ips hs' hchain
  have hlen : ips.length = 3 := by rw [hips]; rfl
  refine ⟨s, s', head, ips, hs, hs', hhead, hchain, hlen, hhandle, ?_⟩
  by_contra hnone
  have hfixed : ∀ behind behind' fresh fresh', sentBytes (sendClients s'.heap head s'.numClients
      (inetNtoa (addrOfNat 2)) behind fresh) = sentBytes (sendClients s'.heap head s'.numClients
      (inetNtoa (addrOfNat 2)) behind' fresh') := by
    intro behind behind' fresh fresh'
    by_contra hne
    exact hnone ⟨behind, behind', fresh, fresh', hne⟩
  rcases hreveals.mp hfixed with hfull | hmany
  · have hshort := hfull (inetNtoa (addrOfNat 0)) (by rw [hips]; decide) (by decide)
    exact absurd hshort (by decide)
  · omega

/-- The client `1.0.0.0` is registered, and `1.0.0.1` is told what lies
behind its address. -/
theorem reply_reveals_short :
    ∃ s s' head, Server.start.run (manyLists 1) = some s ∧ (listConn (addrOfNat 1)).Lists ∧
      s.register (inetNtoa (addrOfNat 1)) = some s' ∧ s'.cHead = some head ∧
      sentBytes (sendClients s'.heap head s'.numClients (inetNtoa (addrOfNat 1)) (fun _ _ => 0)
          fun _ => 0)
        ≠ sentBytes (sendClients s'.heap head s'.numClients (inetNtoa (addrOfNat 1)) (fun _ _ => 1)
          fun _ => 0) :=
  ⟨_, _, _, rfl, lists_listConn _, rfl, rfl, by decide⟩

end DubstepDucks.Tracker
