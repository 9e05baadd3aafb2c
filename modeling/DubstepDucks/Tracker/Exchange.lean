import DubstepDucks.Tracker.Accept

/-!
# Tracker — the exchange with one client

What `sendClients` puts into the reply of a reachable server, and what
`requestPeers` makes of it. The size of the reply is an int, its count
travels in one byte, and `MAXCLIENTS` is enforced nowhere: each of the two
statements comes with the exact number of clients up to which it holds, and
with a server past that number.
-/

namespace DubstepDucks.Tracker

open CMem Heap

/-! ## Servers with many clients -/

/-- The `k`-th address from `1.0.0.0` on. -/
def addrOfNat (k : Nat) : InAddr :=
  ⟨BitVec.ofNat 8 (1 + k / 2 ^ 24), BitVec.ofNat 8 (k / 2 ^ 16), BitVec.ofNat 8 (k / 2 ^ 8),
    BitVec.ofNat 8 k⟩

/-- A `list` request from `addr`, framed as `sendMsg` frames it. -/
def listConn (addr : InAddr) : Connection :=
  { addr := addr
    recvMsg := Mem.of (4#8 :: ascii "list") (fun _ => 0)
    behind := fun _ _ => 0
    fresh := fun _ => 0 }

theorem lists_listConn (addr : InAddr) : (listConn addr).Lists := by
  constructor
  · show (4#8 : Byte) ≠ 0
    decide
  · show ((Mem.of ([4#8] ++ ascii "list") fun _ => 0).advance 1).read 4 = ascii "list"
    exact Mem.read_advance_of [4#8] (ascii "list") _

theorem addrOfNat_injOn {j k : Nat} (hj : j < 2 ^ 31) (hk : k < 2 ^ 31)
    (h : addrOfNat j = addrOfNat k) : j = k := by
  simp only [addrOfNat, InAddr.mk.injEq] at h
  obtain ⟨h1, h2, h3, h4⟩ := h
  have e1 := congrArg BitVec.toNat h1
  have e2 := congrArg BitVec.toNat h2
  have e3 := congrArg BitVec.toNat h3
  have e4 := congrArg BitVec.toNat h4
  simp only [BitVec.toNat_ofNat] at e1 e2 e3 e4
  omega

theorem eraseDups_of_nodup {α : Type} [BEq α] [LawfulBEq α] {l : List α} (h : l.Nodup) :
    l.eraseDups = l := by
  induction l with
  | nil => rfl
  | cons a l ih =>
      obtain ⟨ha, hl⟩ := List.nodup_cons.mp h
      rw [List.eraseDups_cons, List.filter_eq_self.mpr, ih hl]
      intro b hb
      have hne : b ≠ a := fun hc => ha (hc ▸ hb)
      simp [hne]

/-- `list` requests from the first `n` of these addresses. -/
def manyLists (n : Nat) : List Connection := (List.range n).map fun k => listConn (addrOfNat k)

/-- For every number up to `maxReply` there is a run that ends with that
many clients. -/
theorem run_manyLists {n : Nat} (hn : n ≤ maxReply) :
    ∃ s r, Server.start.run (manyLists n) = some s ∧ Inv s r ∧
      r.ips = (List.range n).map fun k => inetNtoa (addrOfNat k) := by
  have hfilter : (manyLists n).filter (fun c => decide c.Lists) = manyLists n := by
    rw [List.filter_eq_self]
    intro c hc
    obtain ⟨k, -, rfl⟩ := List.mem_map.mp hc
    exact decide_eq_true (lists_listConn _)
  have hnodup : ((List.range n).map fun k => inetNtoa (addrOfNat k)).Nodup := by
    rw [List.nodup_map_iff_inj_on List.nodup_range]
    intro j hj k hk hjk
    rw [List.mem_range] at hj hk
    unfold maxReply at hn
    exact addrOfNat_injOn (by omega) (by omega) (inetNtoa_injective hjk)
  have hips : (registryAfter Registry.empty (manyLists n)).ips
      = (List.range n).map fun k => inetNtoa (addrOfNat k) := by
    rw [ips_registryAfter, listers, hfilter, manyLists, List.map_map]
    exact eraseDups_of_nodup hnodup
  obtain ⟨s, hs⟩ := run_completes (manyLists n) inv_start (by rw [hips]; simpa using hn)
  exact ⟨s, _, hs, run_refines _ inv_start hs, hips⟩

/-- The next address after those is new. -/
theorem addr_fresh {n : Nat} (hn : n ≤ maxReply) :
    inetNtoa (addrOfNat n) ∉ (List.range n).map fun k => inetNtoa (addrOfNat k) := by
  intro hc
  obtain ⟨k, hk, hkn⟩ := List.mem_map.mp hc
  rw [List.mem_range] at hk
  unfold maxReply at hn
  have := addrOfNat_injOn (by omega) (by omega) (inetNtoa_injective hkn)
  omega

/-- The server after `n` clients, and once the next one is registered. -/
theorem register_manyLists {n : Nat} (hn : n ≤ maxReply) :
    ∃ s s' head l r, Server.start.run (manyLists n) = some s ∧
      s.register (inetNtoa (addrOfNat n)) = some s' ∧ s'.cHead = some head ∧
      Path s'.heap (some head) l ∧ l.map Prod.snd = r.ips ∧ inetNtoa (addrOfNat n) ∈ r.ips ∧
      Represents s' r ∧ r.ips.length = n + 1 := by
  obtain ⟨s, r, hs, hi, hips⟩ := run_manyLists hn
  have hnew : inetNtoa (addrOfNat n) ∉ r.ips := by
    rw [hips]
    exact addr_fresh hn
  obtain ⟨s', head, l, hs', hhead, hl, hvals, hrep⟩ := register_lists hi (inetNtoa (addrOfNat n))
  refine ⟨s, s', head, l, _, hs, hs', hhead, hl, hvals, Registry.mem_register r _, hrep, ?_⟩
  rw [Registry.ips_register_of_notMem hnew, hips]
  simp

/-- The list once the next client is registered, whoever looks. -/
theorem chain_manyLists {n : Nat} (hn : n ≤ maxReply) :
    ∃ s, Server.start.run (manyLists n) = some s ∧
      ∀ s' ips, s.register (inetNtoa (addrOfNat n)) = some s' → Chain s'.heap s'.cHead ips →
        ips = (List.range (n + 1)).map fun k => inetNtoa (addrOfNat k) := by
  obtain ⟨s, r, hs, hi, hips⟩ := run_manyLists hn
  have hnew : inetNtoa (addrOfNat n) ∉ r.ips := by
    rw [hips]
    exact addr_fresh hn
  refine ⟨s, hs, ?_⟩
  intro s' ips hs' hchain
  obtain ⟨s'', -, -, hs'', -, -, -, hrep⟩ := register_lists hi (inetNtoa (addrOfNat n))
  obtain rfl : s'' = s' := Option.some.inj (hs''.symm.trans hs')
  rw [hchain.det hrep.chain, Registry.ips_register_of_notMem hnew, hips, List.range_succ,
    List.map_append]
  rfl

/-! ## Accounting of the reply -/

/-- The reply is exact: the copy loop passes over one node and fills each
slot of the buffer once, inside the buffer, and slot `j` starts with the
`j`-th of the other clients. -/
def RepliesExactly (numClients : CInt) (others : List CString) (out : Option Sent) : Prop :=
  ∃ size log data, out = some (.sent size log data) ∧
    (size : Int) = 1 + ipSize * (numClients.toInt - 1) ∧
    log.skipped = 1 ∧ (log.copies.length : Int) = numClients.toInt - 1 ∧
    log.copies.map Prod.fst
      = (List.range (numClients.toNat - 1)).map (fun j => 1 + ipSize * j) ∧
    (∀ c ∈ log.copies, c.2.length = ipSize ∧ c.1 + c.2.length ≤ size) ∧
    others.length + 1 = numClients.toNat ∧
    ∀ j ip, others[j]? = some ip → ip.chars <+: (data.drop (1 + ipSize * j)).take ipSize

/-- A copied entry starts with the address: a dotted address is shorter
than a slot. -/
theorem entryBytes_starts {behind : Nat → Mem} {e : Nat × CString}
    (h : e.2.chars.length ≤ 15) : e.2.chars <+: entryBytes behind e := by
  rw [entryBytes, CString.read_mem (by unfold ipSize; omega)]
  exact List.prefix_append _ _

theorem entries_wide (behind : Nat → Mem) (l : List (Nat × CString)) :
    ∀ b ∈ l.map (entryBytes behind), b.length = ipSize := by
  intro b hb
  obtain ⟨e, -, rfl⟩ := List.mem_map.mp hb
  exact length_entryBytes behind e

theorem map_snd_others {l : List (Nat × CString)} {ips : List CString}
    (h : l.map Prod.snd = ips) (ip : CString) :
    (l.filter (·.2 ≠ ip)).map Prod.snd = ips.filter (· ≠ ip) := by
  rw [← h, List.filter_map]
  rfl

/-- Every address a server has registered came out of `inet_ntoa`. -/
def Dotted (r : Registry) : Prop := ∀ ip ∈ r.ips, ip.chars.length ≤ 15

theorem dotted_register {r : Registry} (h : Dotted r) (addr : InAddr) :
    Dotted (r.register (inetNtoa addr)) := by
  intro ip hip
  by_cases hin : inetNtoa addr ∈ r.ips
  · rw [Registry.register_of_mem hin] at hip
    exact h ip hip
  · rw [Registry.ips_register_of_notMem hin, List.mem_append, List.mem_singleton] at hip
    rcases hip with hip | rfl
    · exact h ip hip
    · exact length_inetNtoa_le addr

theorem dotted_registryAfter :
    ∀ (cs : List Connection) {r : Registry}, Dotted r → Dotted (registryAfter r cs) := by
  intro cs
  induction cs with
  | nil => intro r h; exact h
  | cons c cs ih =>
      intro r h
      rw [registryAfter_cons]
      split
      · exact ih (dotted_register h c.addr)
      · exact ih h

/-- What is known of a reachable server once the requester is registered:
the list, the counter, and that every entry fits its slot. -/
theorem Reachable.registered {s : Server} (hs : Reachable s) (c : Connection) :
    ∃ s' head l r, s.register c.ip = some s' ∧ s'.cHead = some head ∧
      Path s'.heap (some head) l ∧ l.map Prod.snd = r.ips ∧ c.ip ∈ r.ips ∧
      s'.numClients = BitVec.ofNat 32 r.ips.length ∧ r.ips.length ≤ maxReply + 1 ∧
      Dotted r := by
  obtain ⟨cs, hcs⟩ := hs
  have hi := run_refines cs inv_start hcs
  have hd : Dotted (registryAfter Registry.empty cs) :=
    dotted_registryAfter cs (fun ip h => by cases h)
  obtain ⟨s', head, l, hs', hhead, hl, hvals, hrep⟩ := register_lists hi c.ip
  have hlen := Registry.length_register_le (registryAfter Registry.empty cs) c.ip
  have hb := hi.bound
  exact ⟨s', head, l, _, hs', hhead, hl, hvals, Registry.mem_register _ _, hrep.count,
    by omega, dotted_register hd c.addr⟩

/-- Within the bound the reply is exact. -/
theorem repliesExactly_of_le {h : NodeHeap CString} {head : Nat} {l : List (Nat × CString)}
    {r : Registry} {ip : CString} (hl : Path h (some head) l) (hr : l.map Prod.snd = r.ips)
    (hip : ip ∈ r.ips) (hmax : r.ips.length ≤ maxReply) (hd : Dotted r) (behind : Nat → Mem)
    (fresh : Mem) :
    RepliesExactly (BitVec.ofNat 32 r.ips.length) (r.ips.filter (· ≠ ip))
      (sendClients h head (BitVec.ofNat 32 r.ips.length) ip behind fresh) := by
  have hlt : r.ips.length < 2 ^ 31 := by unfold maxReply at hmax; omega
  have hlo : (r.ips.filter (· ≠ ip)).length + 1 = r.ips.length := Registry.length_others hip
  have hfilter := map_snd_others hr ip
  have hflen : (l.filter (·.2 ≠ ip)).length = (r.ips.filter (· ≠ ip)).length := by
    rw [← hfilter, List.length_map]
  refine ⟨_, _, _, sendClients_sent hl hr hip hmax behind fresh, ?_, rfl, ?_, ?_, ?_, ?_, ?_⟩
  · rw [toInt_ofNat hlt, Registry.others, ← hlo]
    simp
  · rw [length_slotCopies, hflen, toInt_ofNat hlt]
    omega
  · rw [map_fst_slotCopies, hflen, toNat_ofNat hlt, List.range_eq_range', ← hlo]
    rfl
  · intro c hc
    obtain ⟨h1, h2⟩ := slotCopies_bound hc
    rw [hflen, Nat.zero_add] at h2
    exact ⟨h1, by rw [h1]; exact h2⟩
  · rw [toNat_ofNat hlt, hlo]
  · intro j ipj hj
    obtain ⟨e, he, rfl⟩ : ∃ e, (l.filter (·.2 ≠ ip))[j]? = some e ∧ e.2 = ipj := by
      rw [← hfilter, List.getElem?_map, Option.map_eq_some_iff] at hj
      exact hj
    have hblock := take_drop_blocks (entries_wide behind (l.filter (·.2 ≠ ip)))
      (j := j) (b := entryBytes behind e) (by rw [List.getElem?_map, he]; rfl)
    have hmem : e.2 ∈ r.ips := by
      rw [← hr]
      exact List.mem_map_of_mem (List.mem_of_mem_filter (List.mem_of_getElem? he))
    have hdrop : ((leBytes (BitVec.ofNat 32 (r.others ip).length)).take 1
        ++ ((l.filter (·.2 ≠ ip)).map (entryBytes behind)).flatten).drop (1 + ipSize * j)
          = ((l.filter (·.2 ≠ ip)).map (entryBytes behind)).flatten.drop (ipSize * j) := by
      rw [← List.drop_drop]
      rfl
    rw [hdrop, hblock]
    exact entryBytes_starts (hd _ hmem)

/-- **Reply accounting.** On every reachable server the reply to a `list`
request is exact if and only if no more than `2^27` clients are registered,
the requester included. -/
theorem reply_accounting {s : Server} (hs : Reachable s) {c : Connection} (hc : c.Lists) :
    ∃ s' head ips, s.register c.ip = some s' ∧ s'.cHead = some head ∧
      Chain s'.heap s'.cHead ips ∧
      s.handle c = (sendClients s'.heap head s'.numClients c.ip c.behind c.fresh).map
        (fun r => (s', some r)) ∧
      (RepliesExactly s'.numClients (ips.filter (· ≠ c.ip))
          (sendClients s'.heap head s'.numClients c.ip c.behind c.fresh)
        ↔ ips.length ≤ 2 ^ 27) := by
  obtain ⟨s', head, l, r, hs', hhead, hl, hr, hip, hcount, hb, hd⟩ := hs.registered c
  refine ⟨s', head, r.ips, hs', hhead, ⟨l, hhead ▸ hl, hr⟩, handle_eq hc hs' hhead, ?_⟩
  rw [hcount]
  constructor
  · rintro ⟨size, log, data, hsent, -⟩
    by_contra hgt
    have hn : r.ips.length = maxReply + 1 := by unfold maxReply at *; omega
    rw [sendClients_overflow hn] at hsent
    cases hsent
  · intro hle
    exact repliesExactly_of_le hl hr hip hle hd c.behind c.fresh

/-- The third client is told of the two before it, exactly. -/
theorem reply_accounting_third :
    ∃ s s' head ips, Server.start.run (manyLists 2) = some s ∧
      s.register (inetNtoa (addrOfNat 2)) = some s' ∧ s'.cHead = some head ∧
      Chain s'.heap s'.cHead ips ∧ ips.length = 3 ∧
      s.handle (listConn (addrOfNat 2))
        = (sendClients s'.heap head s'.numClients (inetNtoa (addrOfNat 2)) (fun _ _ => 0)
            (fun _ => 0)).map (fun r => (s', some r)) ∧
      RepliesExactly s'.numClients (ips.filter (· ≠ inetNtoa (addrOfNat 2)))
        (sendClients s'.heap head s'.numClients (inetNtoa (addrOfNat 2)) (fun _ _ => 0)
          (fun _ => 0)) := by
  obtain ⟨s, hs, hlist⟩ := chain_manyLists (n := 2) (by decide)
  obtain ⟨s', head, ips, hs', hhead, hchain, hhandle, hexact⟩ :=
    reply_accounting ⟨_, hs⟩ (lists_listConn (addrOfNat 2))
  have hlen : ips.length = 3 := by rw [hlist s' ips hs' hchain]; rfl
  exact ⟨s, s', head, ips, hs, hs', hhead, hchain, hlen, hhandle, hexact.mpr (by omega)⟩

/-- With `2^27` clients registered, one more requester gets no reply. -/
theorem reply_accounting_overflow :
    ∃ s s' head ips, Server.start.run (manyLists (2 ^ 27)) = some s ∧
      (listConn (addrOfNat (2 ^ 27))).Lists ∧
      s.register (inetNtoa (addrOfNat (2 ^ 27))) = some s' ∧ s'.cHead = some head ∧
      Chain s'.heap s'.cHead ips ∧
      ¬ RepliesExactly s'.numClients (ips.filter (· ≠ inetNtoa (addrOfNat (2 ^ 27))))
          (sendClients s'.heap head s'.numClients (inetNtoa (addrOfNat (2 ^ 27)))
            (fun _ _ => 0) (fun _ => 0)) := by
  obtain ⟨s, s', head, l, r, hs, hs', hhead, -, -, -, hrep, hlen⟩ :=
    register_manyLists (Nat.le_refl maxReply)
  refine ⟨s, s', head, _, hs, lists_listConn _, hs', hhead, hrep.chain, ?_⟩
  rintro ⟨size, log, data, hsent, -⟩
  rw [hrep.count, sendClients_overflow hlen] at hsent
  cases hsent

/-! ## The round trip -/

/-- The sixteen-byte entries `requestPeers` left in `peers`. -/
def storedPeers (r : CInt × Mem) : List (List Byte) :=
  (List.range r.1.toNat).map fun j => (r.2.advance (ipSize * j)).read ipSize

/-- `requestPeers`, called with a zero counter, ends with the number of the
other clients and with their addresses as terminated strings. -/
def PeersDelivered (others : List CString) (out : Option Sent) (fresh peers : Mem) : Prop :=
  ∃ size log data, out = some (.sent size log data) ∧
    (requestPeers (recvMsg fresh data) 0 peers).1.toInt = others.length ∧
    (storedPeers (requestPeers (recvMsg fresh data) 0 peers)).map cstr
      = others.map CString.chars ∧
    ∀ e ∈ storedPeers (requestPeers (recvMsg fresh data) 0 peers), (0 : Byte) ∈ e

/-- The counter after `requestPeers` is the count byte alone. -/
theorem requestPeers_count (recv peers : Mem) :
    (requestPeers recv 0 peers).1.toNat = (recv 0).toNat :=
  toNat_leInt_byte (recv 0)

/-- The count byte is the number of entries modulo 256. -/
theorem toNat_countByte {n : Nat} (rest : List Byte) (fresh : Mem) :
    (recvMsg fresh ((leBytes (BitVec.ofNat 32 n)).take 1 ++ rest) 0).toNat = n % 256 := by
  have hfirst : recvMsg fresh (BitVec.ofNat 8 n :: rest) 0 = BitVec.ofNat 8 n := rfl
  rw [take_leBytes_one, List.singleton_append, hfirst, BitVec.toNat_ofNat]

/-- A reply that fits the receive buffer is received whole. -/
theorem recvMsg_of_le {received : List Byte} (h : received.length ≤ bufSiz) (fresh : Mem) :
    recvMsg fresh received = Mem.of received (fresh.advance received.length) := by
  rw [recvMsg, List.take_of_length_le h, Mem.write_zero]

theorem cstr_entryBytes {behind : Nat → Mem} {e : Nat × CString} (h : e.2.chars.length ≤ 15) :
    cstr (entryBytes behind e) = e.2.chars ∧ (0 : Byte) ∈ entryBytes behind e := by
  have hlt : e.2.chars.length < ipSize := by unfold ipSize; omega
  refine ⟨CString.cstr_read_mem hlt _, ?_⟩
  rw [entryBytes, CString.read_mem hlt]
  simp

/-- A reply of at most 255 entries, received whole, is stored entry by
entry. -/
theorem storedPeers_entries {bs : List (List Byte)} (hw : ∀ b ∈ bs, b.length = ipSize)
    (hn : bs.length ≤ 255) (fresh peers : Mem) :
    (requestPeers (recvMsg fresh ((leBytes (BitVec.ofNat 32 bs.length)).take 1 ++ bs.flatten))
        0 peers).1.toNat = bs.length ∧
    storedPeers (requestPeers
        (recvMsg fresh ((leBytes (BitVec.ofNat 32 bs.length)).take 1 ++ bs.flatten)) 0 peers)
      = bs := by
  have hcount : (requestPeers (recvMsg fresh
      ((leBytes (BitVec.ofNat 32 bs.length)).take 1 ++ bs.flatten)) 0 peers).1.toNat
        = bs.length := by
    rw [requestPeers_count, toNat_countByte]
    omega
  have hflat : bs.flatten.length = ipSize * bs.length := length_flatten_blocks hw
  -- the whole reply fits the receive buffer
  have hrecv : (recvMsg fresh
      ((leBytes (BitVec.ofNat 32 bs.length)).take 1 ++ bs.flatten)).advance 1
        = Mem.of bs.flatten (fresh.advance (1 + bs.flatten.length)) := by
    have hlength : ((leBytes (BitVec.ofNat 32 bs.length)).take 1 ++ bs.flatten).length
        = 1 + bs.flatten.length := List.length_append
    have hfits : 1 + bs.flatten.length ≤ bufSiz := by
      rw [hflat, bufSiz, ipSize]
      omega
    rw [recvMsg_of_le (by rw [hlength]; exact hfits), Mem.of_append, hlength]
    exact Mem.advance_of _ _
  refine ⟨hcount, ?_⟩
  have hbytes : ((requestPeers (recvMsg fresh
      ((leBytes (BitVec.ofNat 32 bs.length)).take 1 ++ bs.flatten)) 0 peers).1 * 16).toNat
        = bs.flatten.length := by
    rw [BitVec.toNat_mul, hcount, hflat]
    simp [ipSize]
    omega
  have hpeers : (requestPeers (recvMsg fresh
      ((leBytes (BitVec.ofNat 32 bs.length)).take 1 ++ bs.flatten)) 0 peers).2
        = Mem.of bs.flatten (peers.advance bs.flatten.length) := by
    have hread : (((recvMsg fresh ((leBytes (BitVec.ofNat 32 bs.length)).take 1
        ++ bs.flatten)).advance 1).read bs.flatten.length) = bs.flatten := by
      rw [hrecv, Mem.read_of_length]
    rw [← Mem.write_zero]
    conv => rhs; rw [← hread]
    rw [← hbytes]
    rfl
  rw [storedPeers, hcount, hpeers]
  exact Mem.read_blocks _ bs hw

theorem peersDelivered_of_le {h : NodeHeap CString} {head : Nat} {l : List (Nat × CString)}
    {r : Registry} {ip : CString} (hl : Path h (some head) l) (hr : l.map Prod.snd = r.ips)
    (hip : ip ∈ r.ips) (hd : Dotted r) (hn : (r.ips.filter (· ≠ ip)).length ≤ 255)
    (behind : Nat → Mem) (buf fresh peers : Mem) :
    PeersDelivered (r.ips.filter (· ≠ ip))
      (sendClients h head (BitVec.ofNat 32 r.ips.length) ip behind buf) fresh peers := by
  have hlo : (r.ips.filter (· ≠ ip)).length + 1 = r.ips.length := Registry.length_others hip
  have hmax : r.ips.length ≤ maxReply := by unfold maxReply; omega
  have hfilter := map_snd_others hr ip
  have hshort : ∀ e ∈ l.filter (·.2 ≠ ip), e.2.chars.length ≤ 15 := by
    intro e he
    apply hd
    rw [← hr]
    exact List.mem_map_of_mem (List.mem_of_mem_filter he)
  have hblen : ((l.filter (·.2 ≠ ip)).map (entryBytes behind)).length
      = (r.ips.filter (· ≠ ip)).length := by
    rw [← hfilter, List.length_map, List.length_map]
  obtain ⟨hcount, hstored⟩ :=
    storedPeers_entries (entries_wide behind (l.filter (·.2 ≠ ip))) (by omega) fresh peers
  rw [hblen] at hcount hstored
  refine ⟨_, _, _, sendClients_sent hl hr hip hmax behind buf, ?_, ?_, ?_⟩
  · rw [Registry.others, toInt_eq_toNat (by omega), hcount]
  · rw [Registry.others, hstored, List.map_map, ← hfilter, List.map_map]
    apply List.map_congr_left
    intro e he
    exact (cstr_entryBytes (hshort e he)).1
  · rw [Registry.others, hstored]
    intro b hb
    obtain ⟨e, he, rfl⟩ := List.mem_map.mp hb
    exact (cstr_entryBytes (hshort e he)).2

/-- More than 255 others do not fit the count byte. -/
theorem peersDelivered_le {h : NodeHeap CString} {head : Nat} {l : List (Nat × CString)}
    {r : Registry} {ip : CString} (hl : Path h (some head) l) (hr : l.map Prod.snd = r.ips)
    (hip : ip ∈ r.ips) (hb : r.ips.length ≤ maxReply + 1) {behind : Nat → Mem}
    {buf fresh peers : Mem}
    (hp : PeersDelivered (r.ips.filter (· ≠ ip))
      (sendClients h head (BitVec.ofNat 32 r.ips.length) ip behind buf) fresh peers) :
    (r.ips.filter (· ≠ ip)).length ≤ 255 := by
  obtain ⟨size, log, data, hsent, hcount, -⟩ := hp
  by_cases hmax : r.ips.length ≤ maxReply
  · rw [sendClients_sent hl hr hip hmax behind buf] at hsent
    cases hsent
    have hnat := requestPeers_count (recvMsg fresh
      ((leBytes (BitVec.ofNat 32 (r.others ip).length)).take 1
        ++ ((l.filter (·.2 ≠ ip)).map (entryBytes behind)).flatten)) peers
    rw [toNat_countByte] at hnat
    rw [toInt_eq_toNat (by omega), hnat] at hcount
    omega
  · rw [sendClients_overflow (by omega)] at hsent
    cases hsent

/-- **The peer-list round trip.** For every reachable server and requester,
`requestPeers` recovers the other clients from the reply if and only if
there are at most 255 of them. -/
theorem peer_list_round_trip {s : Server} (hs : Reachable s) {c : Connection} (hc : c.Lists)
    (fresh peers : Mem) :
    ∃ s' head ips, s.register c.ip = some s' ∧ s'.cHead = some head ∧
      Chain s'.heap s'.cHead ips ∧
      s.handle c = (sendClients s'.heap head s'.numClients c.ip c.behind c.fresh).map
        (fun r => (s', some r)) ∧
      (PeersDelivered (ips.filter (· ≠ c.ip))
          (sendClients s'.heap head s'.numClients c.ip c.behind c.fresh) fresh peers
        ↔ (ips.filter (· ≠ c.ip)).length ≤ 255) := by
  obtain ⟨s', head, l, r, hs', hhead, hl, hr, hip, hcount, hb, hd⟩ := hs.registered c
  refine ⟨s', head, r.ips, hs', hhead, ⟨l, hhead ▸ hl, hr⟩, handle_eq hc hs' hhead, ?_⟩
  rw [hcount]
  exact ⟨peersDelivered_le hl hr hip hb,
    fun hn => peersDelivered_of_le hl hr hip hd hn c.behind c.fresh fresh peers⟩

/-- The third client reads the two addresses before it out of the reply. -/
theorem peer_list_round_trip_third :
    ∃ s s' head ips, Server.start.run (manyLists 2) = some s ∧
      s.register (inetNtoa (addrOfNat 2)) = some s' ∧ s'.cHead = some head ∧
      Chain s'.heap s'.cHead ips ∧ (ips.filter (· ≠ inetNtoa (addrOfNat 2))).length = 2 ∧
      s.handle (listConn (addrOfNat 2))
        = (sendClients s'.heap head s'.numClients (inetNtoa (addrOfNat 2)) (fun _ _ => 0)
            (fun _ => 0)).map (fun r => (s', some r)) ∧
      PeersDelivered (ips.filter (· ≠ inetNtoa (addrOfNat 2)))
        (sendClients s'.heap head s'.numClients (inetNtoa (addrOfNat 2)) (fun _ _ => 0)
          (fun _ => 0)) (fun _ => 0) (fun _ => 0) := by
  obtain ⟨s, hs, hlist⟩ := chain_manyLists (n := 2) (by decide)
  obtain ⟨s', head, ips, hs', hhead, hchain, hhandle, hdelivered⟩ :=
    peer_list_round_trip ⟨_, hs⟩ (lists_listConn (addrOfNat 2)) (fun _ => 0) fun _ => 0
  have hlen : (ips.filter (· ≠ inetNtoa (addrOfNat 2))).length = 2 := by
    rw [hlist s' ips hs' hchain]
    decide
  exact ⟨s, s', head, ips, hs, hs', hhead, hchain, hlen, hhandle, hdelivered.mpr (by
    show (ips.filter (· ≠ inetNtoa (addrOfNat 2))).length ≤ 255
    omega)⟩

/-- With 256 clients registered before it, the requester is told there are
none. -/
theorem peer_list_round_trip_256 :
    ∃ s s' head ips, Server.start.run (manyLists 256) = some s ∧
      (listConn (addrOfNat 256)).Lists ∧
      s.register (inetNtoa (addrOfNat 256)) = some s' ∧ s'.cHead = some head ∧
      Chain s'.heap s'.cHead ips ∧
      ¬ PeersDelivered (ips.filter (· ≠ inetNtoa (addrOfNat 256)))
          (sendClients s'.heap head s'.numClients (inetNtoa (addrOfNat 256))
            (fun _ _ => 0) (fun _ => 0)) (fun _ => 0) (fun _ => 0) := by
  have h256 : 256 ≤ maxReply := by unfold maxReply; omega
  obtain ⟨s, s', head, l, r, hs, hs', hhead, hl, hvals, hmem, hrep, hlen⟩ := register_manyLists h256
  refine ⟨s, s', head, _, hs, lists_listConn _, hs', hhead, hrep.chain, ?_⟩
  intro hp
  rw [hrep.count] at hp
  have hle := peersDelivered_le hl hvals hmem (by omega) hp
  have hlo := Registry.length_others hmem
  rw [Registry.others] at hlo
  omega

end DubstepDucks.Tracker
