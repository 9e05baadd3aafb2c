import DubstepDucks.Tracker.Registry
import Mathlib.Data.List.Nodup

/-!
# Tracker — the reply

`sendClients` walks the list twice, once to count and once to copy. On a
list that represents a registry containing the requester both walks are
computed here in closed form: the counting walk agrees with `numClients`,
the copy loop passes over one node and fills the slots in order, and the
bytes sent are the count byte followed by one sixteen-byte entry for every
other client (`sendClients_sent`). One client more than `maxReply` and the
reply size wraps below zero (`sendClients_overflow`).
-/

namespace DubstepDucks.Tracker

open CMem Heap

/-! ## The copy loop -/

/-- The sixteen bytes copied for one node. -/
def entryBytes (behind : Nat → Mem) (e : Nat × CString) : List Byte :=
  (e.2.mem (behind e.1)).read ipSize

@[simp] theorem length_entryBytes (behind : Nat → Mem) (e : Nat × CString) :
    (entryBytes behind e).length = ipSize := by
  simp [entryBytes]

/-- One copy for each node of the list, into consecutive slots from `n`. -/
def slotCopies (behind : Nat → Mem) : Nat → List (Nat × CString) → List (Nat × List Byte)
  | _, [] => []
  | n, e :: l => (1 + ipSize * n, entryBytes behind e) :: slotCopies behind (n + 1) l

/-- The copy loop on a list: the nodes that differ from the ignored address
are copied to consecutive slots, the rest are passed over. -/
theorem copyLoop_path {h : NodeHeap CString} {ip : CString} {behind : Nat → Mem} :
    ∀ {l : List (Nat × CString)} {p : Option Nat} (n : Nat), Path h p l →
    copyLoop h ip behind l.length p n
      = some ⟨slotCopies behind n (l.filter (·.2 ≠ ip)), l.countP (·.2 = ip)⟩ := by
  intro l
  induction l with
  | nil => intro p n _; rfl
  | cons e l ih =>
      intro p n hl
      cases hl with
      | @cons a v nx _ ha hr =>
          by_cases hv : v = ip
          · subst hv
            have hz : strcmp v v = 0 := (strcmp_eq_zero v v).mpr rfl
            simp [copyLoop, ha, hz, ih n hr]
          · have hz : strcmp v ip ≠ 0 := fun h => hv ((strcmp_eq_zero v ip).mp h)
            simp [copyLoop, ha, hz, ih (n + 1) hr, hv, slotCopies, entryBytes]

theorem length_slotCopies (behind : Nat → Mem) :
    ∀ (l : List (Nat × CString)) (n : Nat), (slotCopies behind n l).length = l.length := by
  intro l
  induction l with
  | nil => intro n; rfl
  | cons e l ih => intro n; simp [slotCopies, ih]

/-- The slots are filled once each, from the first one up. -/
theorem map_fst_slotCopies (behind : Nat → Mem) :
    ∀ (l : List (Nat × CString)) (n : Nat),
    (slotCopies behind n l).map Prod.fst
      = (List.range' n l.length).map fun j => 1 + ipSize * j := by
  intro l
  induction l with
  | nil => intro n; rfl
  | cons e l ih => intro n; simp [slotCopies, ih, List.range'_succ]

theorem slotCopies_bound {behind : Nat → Mem} :
    ∀ {l : List (Nat × CString)} {n : Nat} {c : Nat × List Byte}, c ∈ slotCopies behind n l →
    c.2.length = ipSize ∧ c.1 + ipSize ≤ 1 + ipSize * (n + l.length) := by
  intro l
  induction l with
  | nil => intro n c hc; cases hc
  | cons e l ih =>
      intro n c hc
      simp only [slotCopies, List.mem_cons] at hc
      simp only [ipSize, List.length_cons] at *
      rcases hc with rfl | hc
      · exact ⟨by simp [ipSize], by omega⟩
      · obtain ⟨h1, h2⟩ := ih hc
        exact ⟨h1, by omega⟩

/-- The buffer after the copies: what was before the first slot, then the
entries back to back. -/
theorem read_foldl_slotCopies (behind : Nat → Mem) :
    ∀ (l : List (Nat × CString)) (n : Nat) (m : Mem),
    ((slotCopies behind n l).foldl (fun m c => m.write c.1 c.2) m).read
        (1 + ipSize * (n + l.length))
      = m.read (1 + ipSize * n) ++ (l.map (entryBytes behind)).flatten := by
  intro l
  induction l with
  | nil => intro n m; simp [slotCopies]
  | cons e l ih =>
      intro n m
      have hend : 1 + ipSize * (n + (l.length + 1)) = 1 + ipSize * (n + 1 + l.length) := by
        congr 2
        omega
      have hfirst : (m.write (1 + ipSize * n) (entryBytes behind e)).read (1 + ipSize * (n + 1))
          = m.read (1 + ipSize * n) ++ entryBytes behind e := by
        have := Mem.read_write_append m (1 + ipSize * n) (entryBytes behind e)
        rwa [length_entryBytes, Nat.add_assoc] at this
      simp only [slotCopies, List.foldl_cons, List.length_cons, List.map_cons, List.flatten_cons]
      rw [hend, ih, hfirst, List.append_assoc]

/-! ## Sizes -/

theorem toNat_sub_one {n : Nat} (h1 : 1 ≤ n) (h2 : n < 2 ^ 31) :
    BitVec.ofNat 32 n - 1 = BitVec.ofNat 32 (n - 1) := by
  apply BitVec.eq_of_toNat_eq
  rw [BitVec.toNat_sub, toNat_ofNat h2, toNat_ofNat (by omega)]
  simp
  omega

theorem toNat_replySize {n : Nat} (h1 : 1 ≤ n) (h2 : n ≤ maxReply) :
    (replySize (BitVec.ofNat 32 n)).toNat = 1 + ipSize * (n - 1) := by
  unfold maxReply at h2
  rw [replySize, toNat_sub_one h1 (by omega), BitVec.toNat_add, BitVec.toNat_mul,
    toNat_ofNat (by omega)]
  simp [ipSize]
  omega

theorem toInt_replySize_nonneg {n : Nat} (h1 : 1 ≤ n) (h2 : n ≤ maxReply) :
    ¬ (replySize (BitVec.ofNat 32 n)).toInt < 0 := by
  have hs := toNat_replySize h1 h2
  unfold maxReply at h2
  rw [toInt_eq_toNat (by rw [hs, ipSize]; omega)]
  omega

/-- One client past `maxReply` the size wraps below zero. -/
theorem toInt_replySize_neg : (replySize (BitVec.ofNat 32 (maxReply + 1))).toInt < 0 := by
  decide

/-! ## `sendClients` on a represented registry -/

/-- The reply to a registered requester, in closed form: one node passed
over, one slot for each other client, and the bytes sent. -/
theorem sendClients_sent {h : NodeHeap CString} {head : Nat} {l : List (Nat × CString)}
    {r : Registry} {ip : CString} (hl : Path h (some head) l) (hr : l.map Prod.snd = r.ips)
    (hip : ip ∈ r.ips) (hmax : r.ips.length ≤ maxReply) (behind : Nat → Mem) (fresh : Mem) :
    sendClients h head (BitVec.ofNat 32 r.ips.length) ip behind fresh
      = some (.sent (1 + ipSize * (r.others ip).length)
          ⟨slotCopies behind 0 (l.filter (·.2 ≠ ip)), 1⟩
          ((leBytes (BitVec.ofNat 32 (r.others ip).length)).take 1
            ++ ((l.filter (·.2 ≠ ip)).map (entryBytes behind)).flatten)) := by
  have hlen : l.length = r.ips.length := by rw [← hr, List.length_map]
  have hpos : 1 ≤ r.ips.length := List.length_pos_of_mem hip
  have hothers : (l.filter (·.2 ≠ ip)).length = (r.others ip).length := by
    rw [Registry.others, ← hr, List.filter_map, List.length_map]
    rfl
  have hlo := Registry.length_others hip
  have hlt : r.ips.length < 2 ^ 31 := by unfold maxReply at hmax; omega
  have hsize : (replySize (BitVec.ofNat 32 r.ips.length)).toNat
      = 1 + ipSize * (0 + (l.filter (·.2 ≠ ip)).length) := by
    rw [toNat_replySize hpos hmax, hothers, ← hlo]
    simp
  have hone : l.countP (·.2 = ip) = 1 := by
    have hc : r.ips.count ip = 1 := List.count_eq_one_of_mem r.nodup hip
    rw [← hr, List.count, List.countP_map] at hc
    rw [← hc]
    apply List.countP_congr
    intro e _
    simp
  have hcount : countNodes h h.length head 1 = some r.ips.length := by
    rw [← hlen]
    simpa using countNodes_path 0 hl hl.length_le
  have hcopy : copyLoop h ip behind (BitVec.ofNat 32 r.ips.length).toNat (some head) 0
      = some ⟨slotCopies behind 0 (l.filter (·.2 ≠ ip)), 1⟩ := by
    rw [toNat_ofNat hlt, ← hlen, copyLoop_path 0 hl, hone]
  have hfit : (slotCopies behind 0 (l.filter (·.2 ≠ ip))).all
      (fun c => decide (c.1 + ipSize ≤ (replySize (BitVec.ofNat 32 r.ips.length)).toNat))
        = true := by
    rw [List.all_eq_true, hsize]
    intro c hc
    exact decide_eq_true (slotCopies_bound hc).2
  have hnp : ¬ (BitVec.ofNat 32 r.ips.length).toInt ≤ 0 := by rw [toInt_ofNat hlt]; omega
  rw [sendClients, if_neg hnp, if_neg (toInt_replySize_nonneg hpos hmax), hcount]
  simp only [ne_eq, not_true_eq_false, if_false, hcopy, hfit, if_true]
  rw [hsize, read_foldl_slotCopies, hothers, Nat.zero_add, toNat_sub_one hpos hlt, ← hlo]
  simp only [Nat.add_sub_cancel, Nat.mul_zero, Nat.add_zero]
  rfl

/-- With one client more the reply is never built: its size is negative. -/
theorem sendClients_overflow {h : NodeHeap CString} {head : Nat} {ip : CString} {n : Nat}
    (hn : n = maxReply + 1) (behind : Nat → Mem) (fresh : Mem) :
    sendClients h head (BitVec.ofNat 32 n) ip behind fresh = none := by
  subst hn
  have hnp : ¬ (BitVec.ofNat 32 (maxReply + 1)).toInt ≤ 0 := by
    rw [toInt_ofNat (by unfold maxReply; omega)]
    omega
  rw [sendClients, if_neg hnp, if_pos toInt_replySize_neg]

end DubstepDucks.Tracker
