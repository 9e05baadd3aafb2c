import DubstepDucks.Bencode.Decode
import Mathlib.Tactic.Ring

/-!
# Bencode — the decoder on any input

What can be said about `be_decoden` when nothing is known about the text:
it may be truncated, hold false lengths or no bencoding at all.

Whatever happens, the cursor only moves forward, `data` and `data_len` in
step (`Cursor.forward`), and what was built weighs no more than what was
passed over (`beDecode_moves`). That bounds the loops. A list gains a node a
round, and a node costs a byte. A dictionary may gain entries for nothing,
because its test for NULL looks at the entry half way; but the first entry
without a key is looked at in time, so the rounds that cost nothing are no
more than the ones before them (`roundsLeft`).
-/

namespace DubstepDucks.Bencode

open CMem

/-! ## Moving forward -/

/-- The cursor `k` bytes further on. -/
def Cursor.forward (c : Cursor) (k : Nat) : Cursor :=
  { data := c.data.drop k, dataLen := c.dataLen - k }

@[simp] theorem Cursor.forward_zero (c : Cursor) : c.forward 0 = c := by
  simp [Cursor.forward]

theorem Cursor.next_eq (c : Cursor) : c.next = c.forward 1 := rfl

@[simp] theorem Cursor.forward_forward (c : Cursor) (a b : Nat) :
    (c.forward a).forward b = c.forward (a + b) := by
  simp only [Cursor.forward, List.drop_drop, Cursor.mk.injEq, true_and]
  omega

theorem Cursor.length_forward (c : Cursor) (k : Nat) :
    (c.forward k).data.length = c.data.length - k := List.length_drop

/-- What is left of a non-empty text gets shorter. -/
theorem Cursor.length_forward_lt {c : Cursor} {b : Byte} {t : List Byte} {k : Nat}
    (hdata : c.data = b :: t) (hk : 0 < k) : (c.forward k).data.length < c.data.length := by
  rw [Cursor.length_forward, hdata, List.length_cons]
  omega

theorem scanSign_suffix (data : List Byte) : (scanSign data).2 <:+ data := by
  rw [scanSign.eq_def]
  split
  · exact List.suffix_cons _ _
  · exact List.suffix_cons _ _
  · exact List.suffix_rfl

/-- `endp` points into the text. -/
theorem strtoll_suffix {data endp : List Byte} {n : Int} (h : strtoll data = some (n, endp)) :
    endp <:+ data := by
  have hdigits : (scanSign (data.dropWhile isSpace)).2.dropWhile isDigit <:+ data :=
    (List.dropWhile_suffix _).trans ((scanSign_suffix _).trans (List.dropWhile_suffix _))
  rw [strtoll] at h
  dsimp only at h
  split at h
  · cases h
  · split at h
    · cases h
      exact List.suffix_rfl
    · cases h
      exact hdigits

theorem strtoll_digit {b : Byte} {t endp : List Byte} {n : Int} (hb : isDigit b = true)
    (h : strtoll (b :: t) = some (n, endp)) : endp.length < (b :: t).length := by
  have hskip : (b :: t).dropWhile isSpace = b :: t :=
    List.dropWhile_cons_of_neg (by simp [isSpace_of_isDigit hb])
  rw [strtoll, hskip, scanSign_of_isDigit hb] at h
  dsimp only at h
  rw [List.takeWhile_cons_of_pos hb, List.dropWhile_cons_of_pos hb] at h
  split at h
  · cases h
  · cases h
    have hshort := (List.dropWhile_suffix (l := t) isDigit).length_le
    rw [List.length_cons]
    omega

theorem beDecodeInt_moves {c c' : Cursor} {i : Int} (h : beDecodeInt c = some (i, c')) :
    ∃ k, c' = c.forward k ∧
      ∀ b t, c.data = b :: t → isDigit b = true → 0 < k := by
  rw [beDecodeInt] at h
  split at h
  · cases h
  · next n endp hscan =>
    cases h
    have hsuffix := strtoll_suffix hscan
    have hle := hsuffix.length_le
    refine ⟨c.data.length - endp.length, ?_, ?_⟩
    · rw [Cursor.forward, ← List.suffix_iff_eq_drop.mp hsuffix]
      congr 1
      omega
    · intro b t hdata hb
      rw [hdata] at hscan
      have hlt := strtoll_digit hb hscan
      rw [hdata]
      omega

/-- A byte string costs its bytes and its colon. -/
theorem beDecodeStr_moves {c c' : Cursor} {s : Option (List Byte)}
    (h : beDecodeStr c = some (s, c')) :
    ∃ k, c' = c.forward k ∧ (∀ t, s = some t → t.length + 1 ≤ k) ∧
      ∀ b t, c.data = b :: t → isDigit b = true → 0 < k := by
  rw [beDecodeStr] at h
  split at h
  · cases h
  · next sllen c₁ hint =>
    obtain ⟨k, hk, hdigit⟩ := beDecodeInt_moves hint
    split at h
    · cases h
      exact ⟨k, hk, (by intro t ht; cases ht), hdigit⟩
    · next hnonneg =>
      split at h
      · cases h
        exact ⟨k, hk, (by intro t ht; cases ht), hdigit⟩
      · split at h
        · cases h
        · next b bytes hbytes =>
          split at h
          · split at h
            · cases h
            · cases h
              refine ⟨k + (sllen.toNat + 1), ?_, ?_, fun b t hb hd => by omega⟩
              · rw [← Cursor.forward_forward, ← hk, Cursor.forward, hbytes, List.drop_succ_cons]
                congr 1
                push_cast
                omega
              · intro t ht
                cases ht
                rw [List.length_take]
                omega
          · cases h
            exact ⟨k, hk, (by intro t ht; cases ht), hdigit⟩

/-! ## What a tree weighs -/

mutual

/-- The nodes of a tree, its keys, and the bytes of its strings. -/
def Node.weight : Node → Nat
  | .str none => 1
  | .str (some s) => 1 + s.length
  | .int _ => 1
  | .list l => 1 + listWeight l
  | .dict d => 1 + dictWeight d

def listWeight : List Node → Nat
  | [] => 0
  | node :: l => node.weight + listWeight l

def dictWeight : List Entry → Nat
  | [] => 0
  | (none, none) :: d => dictWeight d
  | (none, some node) :: d => node.weight + dictWeight d
  | (some key, none) :: d => 1 + key.length + dictWeight d
  | (some key, some node) :: d => 1 + key.length + node.weight + dictWeight d

end

theorem Node.weight_pos (node : Node) : 0 < node.weight := by
  cases node with
  | str s => cases s <;> simp only [Node.weight] <;> omega
  | int i => simp [Node.weight]
  | list l =>
      rw [Node.weight]
      omega
  | dict d =>
      rw [Node.weight]
      omega

theorem listWeight_concat (l : List Node) (node : Node) :
    listWeight (l ++ [node]) = listWeight l + node.weight := by
  induction l with
  | nil => simp [listWeight]
  | cons first l ih =>
      rw [List.cons_append, listWeight, ih, listWeight]
      omega

/-- What an entry adds. -/
def entryWeight (e : Entry) : Nat := dictWeight [e]

theorem dictWeight_cons (e : Entry) (d : List Entry) :
    dictWeight (e :: d) = entryWeight e + dictWeight d := by
  obtain ⟨_ | key, _ | node⟩ := e <;> simp [entryWeight, dictWeight]

theorem dictWeight_concat (d : List Entry) (e : Entry) :
    dictWeight (d ++ [e]) = dictWeight d + entryWeight e := by
  induction d with
  | nil => simp [entryWeight, dictWeight]
  | cons first d ih =>
      rw [List.cons_append, dictWeight_cons, ih, dictWeight_cons]
      omega

theorem entryWeight_le {key : Option (List Byte)} {val : Option Node} {a b : Nat}
    (hkey : ∀ t, key = some t → t.length + 1 ≤ a)
    (hval : ∀ node, val = some node → node.weight ≤ b) :
    entryWeight (key, val) ≤ a + b := by
  cases key with
  | none =>
      cases val with
      | none => simp [entryWeight, dictWeight]
      | some node =>
          have hnode := hval node rfl
          simp only [entryWeight, dictWeight]
          omega
  | some t =>
      have ht := hkey t rfl
      cases val with
      | none =>
          simp only [entryWeight, dictWeight]
          omega
      | some node =>
          have hnode := hval node rfl
          simp only [entryWeight, dictWeight]
          omega

/-! ## One call -/

/-- What a call can do: stop at once, build a container from its loop, read an
integer that is closed or one that is not, or read a string. -/
theorem beDecode_cases {fuel : Nat} {c c' : Cursor} {node : Option Node}
    (h : beDecode (fuel + 1) c = some (node, c')) :
    (node = none ∧ c' = c) ∨
    (∃ l c₁, listLoop fuel [] c.next = some (l, c₁) ∧ node = some (.list l) ∧ c' = c₁.next) ∨
    (∃ d c₁, dictLoop fuel [] c.next = some (d, c₁) ∧ node = some (.dict d) ∧ c' = c₁.next) ∨
    (∃ i c₁, beDecodeInt c.next = some (i, c₁) ∧
      (node = some (.int i) ∧ c' = c₁.next ∨ node = none ∧ c' = c₁)) ∨
    (∃ b t s, c.data = b :: t ∧ isDigit b = true ∧ beDecodeStr c = some (s, c') ∧
      node = some (.str s)) := by
  rw [beDecode_succ] at h
  split at h
  · cases h
    exact .inl ⟨rfl, rfl⟩
  split at h
  · cases h
  next b rest hdata =>
  split at h
  · split at h
    · cases h
    split at h
    · cases h
    next l c₁ hloop =>
    cases h
    exact .inr (.inl ⟨l, c₁, hloop, rfl, rfl⟩)
  split at h
  · split at h
    · cases h
    split at h
    · cases h
    next d c₁ hloop =>
    cases h
    exact .inr (.inr (.inl ⟨d, c₁, hloop, rfl, rfl⟩))
  split at h
  · split at h
    · cases h
    next i c₁ hint =>
    split at h
    · cases h
    split at h
    · cases h
      exact .inr (.inr (.inr (.inl ⟨i, c₁, hint, .inl ⟨rfl, rfl⟩⟩)))
    · cases h
      exact .inr (.inr (.inr (.inl ⟨i, _, hint, .inr ⟨rfl, rfl⟩⟩)))
  split at h
  · next hb =>
    split at h
    · cases h
    next s c₁ hstr =>
    cases h
    exact .inr (.inr (.inr (.inr ⟨b, rest, s, hdata, hb, hstr, rfl⟩)))
  · cases h
    exact .inl ⟨rfl, rfl⟩

/-- The cursor moved forward, past at least as many bytes as a weight grew. -/
def Cursor.Moves (c c' : Cursor) (before after : Nat) : Prop :=
  ∃ k, c' = c.forward k ∧ after ≤ before + k

theorem Cursor.Moves.trans {c c₁ c₂ : Cursor} {a b d : Nat} (h : c.Moves c₁ a b)
    (h' : c₁.Moves c₂ b d) : c.Moves c₂ a d := by
  obtain ⟨k, rfl, hk⟩ := h
  obtain ⟨k', rfl, hk'⟩ := h'
  exact ⟨k + k', by simp, by omega⟩

/-- The weight of what a call answers. -/
def answerWeight : Option Node → Nat
  | none => 0
  | some node => node.weight

/-- The three promises for one amount of fuel. -/
structure AllMove (fuel : Nat) : Prop where
  decode : ∀ {c c' : Cursor} {node : Option Node}, beDecode fuel c = some (node, c') →
    c.Moves c' 0 (answerWeight node)
  list : ∀ {l l' : List Node} {c c' : Cursor}, listLoop fuel l c = some (l', c') →
    c.Moves c' (listWeight l) (listWeight l')
  dict : ∀ {d d' : List Entry} {c c' : Cursor}, dictLoop fuel d c = some (d', c') →
    c.Moves c' (dictWeight d) (dictWeight d')

theorem AllMove.decode_succ {fuel : Nat} (ih : AllMove fuel) {c c' : Cursor} {node : Option Node}
    (h : beDecode (fuel + 1) c = some (node, c')) : c.Moves c' 0 (answerWeight node) := by
  rcases beDecode_cases h with ⟨rfl, rfl⟩ | ⟨l, c₁, hloop, rfl, rfl⟩ | ⟨d, c₁, hloop, rfl, rfl⟩ |
    ⟨i, c₁, hint, hend⟩ | ⟨b, t, s, hdata, hb, hstr, rfl⟩
  · exact ⟨0, by simp, Nat.le_refl _⟩
  · obtain ⟨k, rfl, hk⟩ := ih.list hloop
    rw [listWeight] at hk
    refine ⟨1 + k + 1, by simp [Cursor.next_eq], ?_⟩
    rw [answerWeight, Node.weight]
    omega
  · obtain ⟨k, rfl, hk⟩ := ih.dict hloop
    rw [dictWeight] at hk
    refine ⟨1 + k + 1, by simp [Cursor.next_eq], ?_⟩
    rw [answerWeight, Node.weight]
    omega
  · obtain ⟨k, rfl, -⟩ := beDecodeInt_moves hint
    rcases hend with ⟨rfl, rfl⟩ | ⟨rfl, rfl⟩
    · refine ⟨1 + k + 1, by simp [Cursor.next_eq], ?_⟩
      rw [answerWeight, Node.weight]
      omega
    · exact ⟨1 + k, by simp [Cursor.next_eq], Nat.zero_le _⟩
  · obtain ⟨k, rfl, hlength, hdigit⟩ := beDecodeStr_moves hstr
    refine ⟨k, rfl, ?_⟩
    cases s with
    | none =>
        have hpos := hdigit b t hdata hb
        rw [answerWeight, Node.weight]
        omega
    | some t =>
        have hle := hlength t rfl
        rw [answerWeight, Node.weight]
        omega

theorem AllMove.list_succ {fuel : Nat} (ih : AllMove fuel) {l l' : List Node} {c c' : Cursor}
    (h : listLoop (fuel + 1) l c = some (l', c')) :
    c.Moves c' (listWeight l) (listWeight l') := by
  rw [listLoop_succ] at h
  split at h
  · cases h
  split at h
  · cases h
    exact ⟨0, by simp, Nat.le_refl _⟩
  split at h
  · cases h
  · next c₁ hdec =>
    cases h
    obtain ⟨k, rfl, -⟩ := ih.decode hdec
    exact ⟨k, rfl, by omega⟩
  · next node c₁ hdec =>
    obtain ⟨k, rfl, hk⟩ := ih.decode hdec
    rw [answerWeight] at hk
    have hround : c.Moves (c.forward k) (listWeight l) (listWeight (l ++ [node])) := by
      refine ⟨k, rfl, ?_⟩
      rw [listWeight_concat]
      omega
    exact hround.trans (ih.list h)

theorem AllMove.dict_succ {fuel : Nat} (ih : AllMove fuel) {d d' : List Entry} {c c' : Cursor}
    (h : dictLoop (fuel + 1) d c = some (d', c')) :
    c.Moves c' (dictWeight d) (dictWeight d') := by
  rw [dictLoop_succ] at h
  split at h
  · cases h
  split at h
  · cases h
    exact ⟨0, by simp, Nat.le_refl _⟩
  split at h
  · cases h
  next key c₁ hkey =>
  obtain ⟨a, rfl, ha, -⟩ := beDecodeStr_moves hkey
  split at h
  · cases h
  next val c₂ hdec =>
  obtain ⟨b, rfl, hb⟩ := ih.decode hdec
  split at h
  · have hentry : entryWeight (key, val) ≤ a + b := by
      apply entryWeight_le ha
      intro node hnode
      rw [hnode, answerWeight] at hb
      omega
    have hround : c.Moves (c.forward (a + b)) (dictWeight d) (dictWeight (d ++ [(key, val)])) := by
      refine ⟨a + b, rfl, ?_⟩
      rw [dictWeight_concat]
      omega
    rw [Cursor.forward_forward] at h
    exact hround.trans (ih.dict h)
  · cases h
    exact ⟨a + b, by simp, by omega⟩

/-- By induction on the fuel, for the call and both loops at once. -/
theorem allMove (fuel : Nat) : AllMove fuel := by
  induction fuel with
  | zero => exact ⟨nofun, nofun, nofun⟩
  | succ fuel ih => exact ⟨ih.decode_succ, ih.list_succ, ih.dict_succ⟩

/-- **A call moves forward and builds no more than it reads.** On any input
the pointer and the counter are advanced by the same number of bytes, and the
nodes, keys and string bytes of the answer are no more than these bytes. -/
theorem beDecoden_moves {fuel : Nat} {data : List Byte} {len : Int} {node : Option Node}
    {c : Cursor} (h : beDecoden fuel data len = some (node, c)) :
    ∃ k, c.data = data.drop k ∧ c.dataLen = len - k ∧ ∀ n, node = some n → n.weight ≤ k := by
  obtain ⟨k, rfl, hk⟩ := (allMove fuel).decode h
  refine ⟨k, rfl, rfl, ?_⟩
  intro n hn
  rw [hn, answerWeight] at hk
  omega

/-- A list that ends with the text: three weights for five bytes. -/
theorem beDecoden_moves_cut :
    ∃ k, ([] : List Byte) = (ascii "l1:ax").drop k ∧ (0 : Int) = 5 - k ∧
      ∀ n, some (Node.list [.str (some (ascii "a"))]) = some n → n.weight ≤ k := by
  have hcut : beDecoden 9 (ascii "l1:ax") 5
      = some (some (.list [.str (some (ascii "a"))]), ⟨[], 0⟩) := rfl
  exact beDecoden_moves hcut

/-! ## Every call ends -/

/-- The first entry without a key; the number of entries if all have one. -/
def firstKeyless (d : List Entry) : Nat := d.findIdx fun e => e.1.isNone

/-- The test for NULL has not yet come to the key of the first entry without
one. It comes to entry `k`'s key in round `2 * k`. -/
def InTime (d : List Entry) : Prop := firstKeyless d < d.length → d.length ≤ 2 * firstKeyless d

/-- The rounds a dictionary loop has left, `n` bytes before the end. -/
def roundsLeft (d : List Entry) (n : Nat) : Nat :=
  if firstKeyless d < d.length then 2 * firstKeyless d + 1 - d.length else d.length + 2 * n + 1

theorem inTime_nil : InTime [] := fun h => absurd h (Nat.not_lt_zero _)

theorem firstKeyless_le (d : List Entry) : firstKeyless d ≤ d.length := List.findIdx_le_length

theorem firstKeyless_concat (d : List Entry) (e : Entry) :
    firstKeyless (d ++ [e]) = if firstKeyless d < d.length then firstKeyless d
      else if e.1.isNone then d.length else d.length + 1 := by
  rw [firstKeyless, List.findIdx_append, List.findIdx_singleton]
  show (if firstKeyless d < d.length then firstKeyless d else _) = _
  split
  · rfl
  · split <;> omega

/-- A keyless entry in the middle of the array stops the loop. -/
theorem wordSet_keyless {d : List Entry} (e : Entry) (h : firstKeyless d < d.length)
    (hlen : d.length = 2 * firstKeyless d) : wordSet (d ++ [e]) d.length = false := by
  have hnone := List.findIdx_getElem (p := fun e : Entry => e.1.isNone) (w := h)
  have hhalf : d.length / 2 = firstKeyless d := by omega
  rw [wordSet, hhalf, List.getElem?_append_left h, List.getElem?_eq_getElem h]
  dsimp only
  rw [if_pos (by omega)]
  exact Option.isSome_eq_false_iff.mpr hnone

/-- A round that is followed by another one brings the end closer. -/
theorem round_progress {d : List Entry} {e : Entry} {n n' : Nat} (htime : InTime d)
    (hset : wordSet (d ++ [e]) d.length = true) (hle : n' ≤ n) (hkey : e.1.isSome → n' < n) :
    InTime (d ++ [e]) ∧ roundsLeft (d ++ [e]) n' < roundsLeft d n := by
  have hbound := firstKeyless_le d
  rw [InTime, roundsLeft, roundsLeft, firstKeyless_concat, List.length_append,
    List.length_singleton]
  by_cases hkeyless : firstKeyless d < d.length
  · have hlen := htime hkeyless
    have hne : d.length ≠ 2 * firstKeyless d := by
      intro heq
      rw [wordSet_keyless e hkeyless heq] at hset
      cases hset
    rw [if_pos hkeyless, if_pos hkeyless, if_pos (by omega)]
    omega
  · rw [if_neg hkeyless, if_neg hkeyless]
    cases hnone : e.1.isNone with
    | true =>
        have hpos : d ≠ [] := by
          rintro rfl
          simp only [wordSet, List.nil_append, List.length_nil, List.getElem?_cons_zero,
            Nat.zero_div, Nat.zero_mod, if_true] at hset
          simp [Option.isNone_iff_eq_none.mp hnone] at hset
        have hlength := List.length_pos_iff.mpr hpos
        rw [if_pos rfl, if_pos (by omega)]
        omega
    | false =>
        have hless := hkey (by simpa using hnone)
        rw [if_neg (by simp), if_neg (by omega)]
        omega

theorem square_mono {m n : Nat} (h : m ≤ n) : (m + 1) ^ 2 ≤ (n + 1) ^ 2 :=
  Nat.pow_le_pow_left (Nat.succ_le_succ h) 2

theorem square_succ (n : Nat) : (n + 1 + 1) ^ 2 = (n + 1) ^ 2 + 2 * n + 3 := by ring

theorem beDecode_of_run {fuel : Nat} {c : Cursor} {r : Option Node × Cursor}
    (h : beDecodeRun fuel c = .ok r) : beDecode fuel c = some r := by
  rw [beDecode, h]
  rfl

/-- Fuel that is not spent: `n` bytes need `(n + 1) ^ 2`, the loops a little
more. -/
structure Enough (fuel : Nat) : Prop where
  decode : ∀ {c : Cursor}, (c.data.length + 1) ^ 2 ≤ fuel → beDecodeRun fuel c ≠ .error .spent
  list : ∀ {l : List Node} {c : Cursor}, (c.data.length + 1) ^ 2 < fuel →
    listLoopRun fuel l c ≠ .error .spent
  dict : ∀ {d : List Entry} {c : Cursor}, InTime d →
    roundsLeft d c.data.length + (c.data.length + 1) ^ 2 ≤ fuel →
    dictLoopRun fuel d c ≠ .error .spent

theorem Enough.decode_succ {fuel : Nat} (ih : Enough fuel) {c : Cursor}
    (h : (c.data.length + 1) ^ 2 ≤ fuel + 1) : beDecodeRun (fuel + 1) c ≠ .error .spent := by
  rw [beDecodeRun]
  split
  · simp
  cases hdata : c.data with
  | nil => simp
  | cons b t =>
      have hnext : c.next.data.length = t.length := by simp [Cursor.next, hdata]
      rw [hdata, List.length_cons, square_succ] at h
      have hlist : listLoopRun fuel [] c.next ≠ .error .spent := by
        apply ih.list
        rw [hnext]
        omega
      have hdict : dictLoopRun fuel [] c.next ≠ .error .spent := by
        have hrounds : roundsLeft [] t.length = 2 * t.length + 1 := by
          simp [roundsLeft, firstKeyless]
        apply ih.dict inTime_nil
        rw [hnext, hrounds]
        omega
      dsimp only
      split
      · split
        · simp
        · cases hrun : listLoopRun fuel [] c.next with
          | error halt =>
              rw [hrun] at hlist
              simpa using hlist
          | ok r => simp
      split
      · split
        · simp
        · cases hrun : dictLoopRun fuel [] c.next with
          | error halt =>
              rw [hrun] at hdict
              simpa using hdict
          | ok r => simp
      split
      · cases beDecodeInt c.next with
        | none => simp
        | some r =>
            dsimp only
            split
            · simp
            · split <;> simp
      split
      · cases beDecodeStr c <;> simp
      · simp

theorem Enough.list_succ {fuel : Nat} (ih : Enough fuel) {l : List Node} {c : Cursor}
    (h : (c.data.length + 1) ^ 2 < fuel + 1) : listLoopRun (fuel + 1) l c ≠ .error .spent := by
  have hchild : beDecodeRun fuel c ≠ .error .spent := ih.decode (by omega)
  rw [listLoopRun]
  cases hdata : c.data with
  | nil => simp
  | cons b t =>
      dsimp only
      split
      · simp
      rcases hrun : beDecodeRun fuel c with halt | ⟨_ | node, c₁⟩
      · rw [hrun] at hchild
        simpa using hchild
      · simp
      · obtain ⟨k, rfl, hk⟩ := (allMove fuel).decode (beDecode_of_run hrun)
        have hpos := node.weight_pos
        rw [answerWeight] at hk
        have hless := Cursor.length_forward_lt hdata (k := k) (by omega)
        have hstrict : ((c.forward k).data.length + 1) ^ 2 < (c.data.length + 1) ^ 2 :=
          Nat.pow_lt_pow_left (Nat.succ_lt_succ hless) (by decide)
        exact ih.list (by omega)

theorem Enough.dict_succ {fuel : Nat} (ih : Enough fuel) {d : List Entry} {c : Cursor}
    (htime : InTime d) (h : roundsLeft d c.data.length + (c.data.length + 1) ^ 2 ≤ fuel + 1) :
    dictLoopRun (fuel + 1) d c ≠ .error .spent := by
  have hround : 1 ≤ roundsLeft d c.data.length := by
    rw [roundsLeft]
    split
    · next hkeyless =>
      have hlen := htime hkeyless
      omega
    · omega
  rw [dictLoopRun]
  cases hdata : c.data with
  | nil => simp
  | cons b t =>
      dsimp only
      split
      · simp
      rcases hkey : beDecodeStr c with _ | ⟨key, c₁⟩
      · simp
      obtain ⟨a, rfl, ha, -⟩ := beDecodeStr_moves hkey
      have hlength : (c.forward a).data.length ≤ c.data.length := by
        rw [Cursor.length_forward]
        omega
      have hsquare := square_mono hlength
      have hchild : beDecodeRun fuel (c.forward a) ≠ .error .spent := ih.decode (by omega)
      dsimp only
      rcases hrun : beDecodeRun fuel (c.forward a) with halt | ⟨val, c₂⟩
      · rw [hrun] at hchild
        simpa using hchild
      obtain ⟨b, rfl, -⟩ := (allMove fuel).decode (beDecode_of_run hrun)
      dsimp only
      split
      · next hset =>
        have hle : ((c.forward a).forward b).data.length ≤ (c.forward a).data.length := by
          rw [Cursor.length_forward (c.forward a)]
          omega
        obtain ⟨htime', hless⟩ := round_progress (n := c.data.length) htime hset
          (Nat.le_trans hle hlength) (by
            intro hsome
            obtain ⟨t', rfl⟩ := Option.isSome_iff_exists.mp hsome
            have hpos := ha t' rfl
            exact Nat.lt_of_le_of_lt hle (Cursor.length_forward_lt hdata (by omega)))
        have hsquare' := square_mono hle
        exact ih.dict htime' (by omega)
      · simp

/-- By induction on the fuel. -/
theorem enough (fuel : Nat) : Enough fuel := by
  induction fuel with
  | zero =>
      refine ⟨?_, fun h => absurd h (Nat.not_lt_zero _), ?_⟩
      · intro c h
        have hpos : 0 < (c.data.length + 1) ^ 2 := Nat.pow_pos (Nat.succ_pos _)
        omega
      · intro d c htime h
        have hpos : 0 < (c.data.length + 1) ^ 2 := Nat.pow_pos (Nat.succ_pos _)
        omega
  | succ fuel ih => exact ⟨ih.decode_succ, ih.list_succ, ih.dict_succ⟩

/-- A run that has not spent its fuel is the same with more. -/
structure Stays (fuel : Nat) : Prop where
  decode : ∀ {c : Cursor}, beDecodeRun fuel c ≠ .error .spent →
    beDecodeRun (fuel + 1) c = beDecodeRun fuel c
  list : ∀ {l : List Node} {c : Cursor}, listLoopRun fuel l c ≠ .error .spent →
    listLoopRun (fuel + 1) l c = listLoopRun fuel l c
  dict : ∀ {d : List Entry} {c : Cursor}, dictLoopRun fuel d c ≠ .error .spent →
    dictLoopRun (fuel + 1) d c = dictLoopRun fuel d c

theorem Stays.decode_succ {fuel : Nat} (ih : Stays fuel) {c : Cursor}
    (h : beDecodeRun (fuel + 1) c ≠ .error .spent) :
    beDecodeRun (fuel + 1 + 1) c = beDecodeRun (fuel + 1) c := by
  rw [beDecodeRun] at h
  rw [beDecodeRun, beDecodeRun]
  by_cases hlen : c.dataLen = 0
  · rw [if_pos hlen, if_pos hlen]
  rw [if_neg hlen] at h ⊢
  rw [if_neg hlen]
  cases hdata : c.data with
  | nil => rfl
  | cons b t =>
      rw [hdata] at h
      dsimp only at h ⊢
      by_cases hlist : b = 108#8
      · rw [if_pos hlist] at h ⊢
        rw [if_pos hlist]
        by_cases hempty : t.head? = some 101#8
        · rw [if_pos hempty, if_pos hempty]
        · rw [if_neg hempty] at h
          rw [ih.list]
          intro hspent
          rw [hspent] at h
          exact h rfl
      rw [if_neg hlist] at h ⊢
      rw [if_neg hlist]
      by_cases hdict : b = 100#8
      · rw [if_pos hdict] at h ⊢
        rw [if_pos hdict]
        by_cases hempty : t.head? = some 101#8
        · rw [if_pos hempty, if_pos hempty]
        · rw [if_neg hempty] at h
          rw [ih.dict]
          intro hspent
          rw [hspent] at h
          exact h rfl
      · rw [if_neg hdict, if_neg hdict]

theorem Stays.list_succ {fuel : Nat} (ih : Stays fuel) {l : List Node} {c : Cursor}
    (h : listLoopRun (fuel + 1) l c ≠ .error .spent) :
    listLoopRun (fuel + 1 + 1) l c = listLoopRun (fuel + 1) l c := by
  rw [listLoopRun] at h
  rw [listLoopRun, listLoopRun]
  cases hdata : c.data with
  | nil => rfl
  | cons b t =>
      rw [hdata] at h
      dsimp only at h ⊢
      by_cases hend : b = 101#8
      · rw [if_pos hend, if_pos hend]
      rw [if_neg hend] at h ⊢
      rw [if_neg hend]
      have hchild : beDecodeRun (fuel + 1) c = beDecodeRun fuel c := by
        apply ih.decode
        intro hspent
        rw [hspent] at h
        exact h rfl
      rw [hchild]
      rcases hrun : beDecodeRun fuel c with halt | ⟨_ | node, c₁⟩
      · rfl
      · rfl
      · rw [hrun] at h
        exact ih.list h

theorem Stays.dict_succ {fuel : Nat} (ih : Stays fuel) {d : List Entry} {c : Cursor}
    (h : dictLoopRun (fuel + 1) d c ≠ .error .spent) :
    dictLoopRun (fuel + 1 + 1) d c = dictLoopRun (fuel + 1) d c := by
  rw [dictLoopRun] at h
  rw [dictLoopRun, dictLoopRun]
  cases hdata : c.data with
  | nil => rfl
  | cons b t =>
      rw [hdata] at h
      dsimp only at h ⊢
      by_cases hend : b = 101#8
      · rw [if_pos hend, if_pos hend]
      rw [if_neg hend] at h ⊢
      rw [if_neg hend]
      rcases hkey : beDecodeStr c with _ | ⟨key, c₁⟩
      · rfl
      rw [hkey] at h
      dsimp only at h ⊢
      have hchild : beDecodeRun (fuel + 1) c₁ = beDecodeRun fuel c₁ := by
        apply ih.decode
        intro hspent
        rw [hspent] at h
        exact h rfl
      rw [hchild]
      rcases hrun : beDecodeRun fuel c₁ with halt | ⟨val, c₂⟩
      · rfl
      rw [hrun] at h
      dsimp only at h ⊢
      by_cases hset : wordSet (d ++ [(key, val)]) d.length = true
      · rw [if_pos hset] at h ⊢
        rw [if_pos hset]
        exact ih.dict h
      · rw [if_neg hset, if_neg hset]

/-- By induction on the fuel, again. -/
theorem stays (fuel : Nat) : Stays fuel := by
  induction fuel with
  | zero => exact ⟨fun h => absurd rfl h, fun h => absurd rfl h, fun h => absurd rfl h⟩
  | succ fuel ih => exact ⟨ih.decode_succ, ih.list_succ, ih.dict_succ⟩

theorem beDecodeRun_mono {fuel fuel' : Nat} {c : Cursor} (h : beDecodeRun fuel c ≠ .error .spent)
    (hle : fuel ≤ fuel') : beDecodeRun fuel' c = beDecodeRun fuel c := by
  induction fuel', hle using Nat.le_induction with
  | base => rfl
  | succ fuel' hle ih =>
      rw [(stays fuel').decode (by rw [ih]; exact h), ih]

/-- **The decoder ends on every input.** Over `n` bytes of memory no call goes
deeper or round more often than `(n + 1) ^ 2`: that much fuel is not spent,
so the run comes to an answer or a fault, and with more it comes to the
same. -/
theorem beDecoden_ends (data : List Byte) (len : Int) :
    beDecodenRun ((data.length + 1) ^ 2) data len ≠ .error .spent ∧
    ∀ fuel, (data.length + 1) ^ 2 ≤ fuel →
      beDecodenRun fuel data len = beDecodenRun ((data.length + 1) ^ 2) data len := by
  have hends : beDecodenRun ((data.length + 1) ^ 2) data len ≠ .error .spent :=
    (enough _).decode (Nat.le_refl _)
  exact ⟨hends, fun fuel hfuel => beDecodeRun_mono hends hfuel⟩

/-- A dictionary without a closing marker. -/
theorem beDecoden_ends_unclosed :
    beDecodenRun 36 (ascii "di1ex") 5 ≠ .error .spent ∧
      beDecodenRun 1000 (ascii "di1ex") 5 = beDecodenRun 36 (ascii "di1ex") 5 := by
  obtain ⟨hends, hsame⟩ := beDecoden_ends (ascii "di1ex") 5
  exact ⟨hends, hsame 1000 (by decide)⟩

end DubstepDucks.Bencode
