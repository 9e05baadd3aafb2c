import DubstepDucks.Bencode.Record

/-!
# Bencode — containers that are not closed

The decoder has no way to report an error from inside a container: a loop
that cannot read its next element ends as if it had met the closing marker,
and the byte it stopped at is skipped as the marker would be. So a container
is accepted without its marker, whether the text ends there or goes on with a
byte that begins nothing.

For a list the answer is the list. A dictionary's loop does not stop there:
its test for NULL looks at an entry half way down, so `n` entries are followed
by `n` rounds that read nothing (`dictLoop_stuck`). `decodeFile` stops at the
first NULL value and never sees them (`decodeRecord_unclosed`).
-/

namespace DubstepDucks.Bencode

open CMem

/-! ## Where a loop is stuck -/

/-- There is something there, but no value and no closing marker. -/
structure Stuck (c : Cursor) : Prop where
  data : ∃ b t, c.data = b :: t ∧ b ≠ 101#8
  call : ∀ fuel, beDecode (fuel + 1) c = some (none, c)

/-- And no key. -/
structure Keyless (c : Cursor) : Prop extends Stuck c where
  key : beDecodeStr c = some (none, c)

/-- A byte with which nothing begins: no number, no element, no colon and no
closing marker. -/
def Alien (x : Byte) : Prop :=
  isDigit x = false ∧ isSpace x = false ∧ x ∉ [43#8, 45#8, 58#8, 100#8, 101#8, 105#8, 108#8]

instance (x : Byte) : Decidable (Alien x) := inferInstanceAs (Decidable (_ ∧ _ ∧ _))

section Alien

variable {x : Byte}

theorem Alien.ne (h : Alien x) {y : Byte}
    (hy : y ∈ [43#8, 45#8, 58#8, 100#8, 101#8, 105#8, 108#8]) : x ≠ y := by
  rintro rfl
  exact h.2.2 hy

/-- Reading a number there reads nothing. -/
theorem strtoll_alien (h : Alien x) (rest : List Byte) :
    strtoll (x :: rest) = some (0, x :: rest) := by
  have hskip : (x :: rest).dropWhile isSpace = x :: rest :=
    List.dropWhile_cons_of_neg (by simp [h.2.1])
  have hsign : scanSign (x :: rest) = (false, x :: rest) := by
    rw [scanSign.eq_def]
    split
    · next heq =>
      cases heq
      exact absurd rfl (h.ne (y := 45#8) (by decide))
    · next heq =>
      cases heq
      exact absurd rfl (h.ne (y := 43#8) (by decide))
    · rfl
  rw [strtoll, hskip, hsign]
  dsimp only
  rw [List.takeWhile_cons_of_neg (by simp [h.1]), List.dropWhile_cons_of_neg (by simp [h.1])]
  rfl

theorem beDecodeStr_alien (h : Alien x) (rest : List Byte) (len : Int) :
    beDecodeStr ⟨x :: rest, len⟩ = some (none, ⟨x :: rest, len⟩) := by
  rw [beDecodeStr, beDecodeInt, strtoll_alien h]
  dsimp only
  rw [Int.sub_self, Int.sub_zero, if_neg (by decide)]
  split
  · rfl
  · rw [if_neg (h.ne (by decide))]

theorem beDecode_alien (h : Alien x) (fuel : Nat) (rest : List Byte) (len : Int) :
    beDecode (fuel + 1) ⟨x :: rest, len⟩ = some (none, ⟨x :: rest, len⟩) := by
  rw [beDecode_succ]
  split
  · rfl
  · dsimp only
    rw [if_neg (h.ne (by decide)), if_neg (h.ne (by decide)), if_neg (h.ne (by decide)),
      if_neg (by simp [h.1])]

theorem keyless_alien (h : Alien x) (rest : List Byte) (len : Int) : Keyless ⟨x :: rest, len⟩ where
  data := ⟨x, rest, rfl, h.ne (by decide)⟩
  call fuel := beDecode_alien h fuel rest len
  key := beDecodeStr_alien h rest len

end Alien

/-! ## The end of the text

The counter is zero there, and the memory goes on. -/

theorem stuck_end {x : Byte} (hx : x ≠ 101#8) (rest : List Byte) : Stuck ⟨x :: rest, 0⟩ where
  data := ⟨x, rest, rfl, hx⟩
  call fuel := by rw [beDecode_succ, if_pos rfl]

/-- The length of a key is read all the same. -/
theorem keyless_end {x : Byte} {rest : List Byte} (hx : x ≠ 101#8)
    (hnumber : strtoll (x :: rest) = some (0, x :: rest)) : Keyless ⟨x :: rest, 0⟩ where
  toStuck := stuck_end hx rest
  key := by
    rw [beDecodeStr, beDecodeInt, hnumber]
    dsimp only
    rw [Int.sub_self, Int.sub_zero, if_neg (by decide), if_pos (by decide)]

/-! ## The loops up to there -/

section Loops

variable {c : Cursor}

theorem listLoop_stuck (h : Stuck c) (fuel : Nat) (l : List Node) :
    listLoop (fuel + 2) l c = some (l, c) := by
  obtain ⟨b, t, hdata, hb⟩ := h.data
  rw [listLoop_succ, hdata]
  dsimp only
  rw [if_neg hb, h.call]

/-- One round of the dictionary loop adds an empty entry, or is the last. -/
theorem dictLoop_round (h : Keyless c) (fuel : Nat) (d : List Entry) :
    dictLoop (fuel + 2) d c =
      if wordSet (d ++ [(none, none)]) d.length then dictLoop (fuel + 1) (d ++ [(none, none)]) c
      else some (d, c) := by
  obtain ⟨b, t, hdata, hb⟩ := h.data
  rw [dictLoop_succ, hdata]
  dsimp only
  rw [if_neg hb, h.key]
  dsimp only
  rw [h.call]

/-- The test of round `i` looks at a whole entry until `i` is twice their
number, and then at the first empty one. -/
theorem wordSet_empties {d : List Entry} (hd : ∀ e ∈ d, e.1.isSome ∧ e.2.isSome) {k : Nat}
    (hk : k ≤ d.length) :
    wordSet (d ++ List.replicate (k + 1) (none, none)) (d.length + k) = decide (k < d.length) := by
  by_cases hlt : k < d.length
  · have hhalf : (d.length + k) / 2 < d.length := by omega
    have hwhole := wordSet_of_set hd hhalf
    rw [wordSet, List.getElem?_append_left hhalf, decide_eq_true hlt]
    rw [wordSet] at hwhole
    exact hwhole
  · have hhalf : (d.length + k) / 2 = d.length := by omega
    rw [wordSet, hhalf, List.getElem?_append_right (Nat.le_refl _), Nat.sub_self,
      List.replicate_succ, decide_eq_false hlt]
    dsimp only [List.getElem?_cons_zero]
    split <;> rfl

/-- As many rounds that read nothing as there are entries. -/
theorem dictLoop_stuck (h : Keyless c) {d : List Entry}
    (hd : ∀ e ∈ d, e.1.isSome ∧ e.2.isSome) :
    ∀ (left k fuel : Nat), k + left = d.length → left + 2 ≤ fuel →
      dictLoop fuel (d ++ List.replicate k (none, none)) c
        = some (d ++ List.replicate d.length (none, none), c) := by
  intro left
  induction left with
  | zero =>
      intro k fuel hk hfuel
      obtain ⟨fuel, rfl⟩ : ∃ f, fuel = f + 2 := ⟨fuel - 2, by omega⟩
      have htest := wordSet_empties hd (k := k) (by omega)
      rw [List.replicate_succ', ← List.append_assoc] at htest
      rw [dictLoop_round h, List.length_append, List.length_replicate, htest,
        decide_eq_false (by omega), if_neg (by decide)]
      congr 4
  | succ left ih =>
      intro k fuel hk hfuel
      obtain ⟨fuel, rfl⟩ : ∃ f, fuel = f + 2 := ⟨fuel - 2, by omega⟩
      have htest := wordSet_empties hd (k := k) (by omega)
      rw [List.replicate_succ', ← List.append_assoc] at htest
      rw [dictLoop_round h, List.length_append, List.length_replicate, htest,
        decide_eq_true (by omega), if_pos rfl, List.append_assoc, ← List.replicate_succ']
      exact ih (k + 1) (fuel + 1) (by omega) (by omega)

end Loops

/-! ## Elements in front of anything -/

/-- Readable elements are read whatever stands behind them; each costs a
round. -/
theorem listLoop_read : ∀ (vs : List Value), ReadableList vs →
    ∀ (fuel : Nat) (l : List Node) (rest : List Byte) (len : Int),
    (listText vs).length ≤ fuel → ((listText vs).length : Int) ≤ len →
    listLoop (fuel + vs.length + 1) l ⟨listText vs ++ rest, len⟩
      = listLoop (fuel + 1) (l ++ listNodes vs) ⟨rest, len - (listText vs).length⟩ := by
  intro vs
  induction vs with
  | nil => intro _ fuel l rest len _ _; simp [listText, listNodes]
  | cons v vs ih =>
      intro hv fuel l rest len hfuel hlen
      rw [ReadableList] at hv
      rw [listText, List.length_append] at hfuel hlen ⊢
      push_cast at hlen
      obtain ⟨b, t, htext, hb⟩ := v.text_head
      have hdec := beDecode_text v hv.1 (fuel + vs.length + 1) (listText vs ++ rest) len (by omega)
        (by omega)
      have hrest := ih hv.2 fuel (l ++ [v.node]) rest (len - v.text.length) (by omega) (by omega)
      rw [List.append_assoc, List.length_cons, ← Nat.add_assoc,
        listLoop_cons (t := t ++ (listText vs ++ rest)) (by rw [htext]; rfl) hb hdec, hrest,
        listNodes, List.append_assoc, List.singleton_append]
      push_cast
      rw [Int.sub_sub]

theorem entries_set (es : List (List Byte × Value)) :
    ∀ e ∈ dictEntries es, e.1.isSome ∧ e.2.isSome := by
  induction es with
  | nil =>
      intro e he
      rw [dictEntries] at he
      cases he
  | cons entry es ih =>
      obtain ⟨key, v⟩ := entry
      intro e he
      rw [dictEntries] at he
      rcases List.mem_cons.mp he with rfl | he
      · exact ⟨rfl, rfl⟩
      · exact ih e he

theorem length_dictEntries (es : List (List Byte × Value)) :
    (dictEntries es).length = es.length := by
  induction es with
  | nil => rfl
  | cons entry es ih =>
      obtain ⟨key, v⟩ := entry
      rw [dictEntries, List.length_cons, ih, List.length_cons]

/-- So are the entries of a dictionary, while none has a NULL. -/
theorem dictLoop_read : ∀ (es : List (List Byte × Value)), ReadableDict es →
    ∀ (fuel : Nat) (d : List Entry) (rest : List Byte) (len : Int),
    (dictText es).length ≤ fuel → ((dictText es).length : Int) ≤ len →
    (∀ e ∈ d, e.1.isSome ∧ e.2.isSome) →
    dictLoop (fuel + es.length + 1) d ⟨dictText es ++ rest, len⟩
      = dictLoop (fuel + 1) (d ++ dictEntries es) ⟨rest, len - (dictText es).length⟩ := by
  intro es
  induction es with
  | nil => intro _ fuel d rest len _ _ _; simp [dictText, dictEntries]
  | cons entry es ih =>
      obtain ⟨key, v⟩ := entry
      intro hv fuel d rest len hfuel hlen hd
      rw [ReadableDict] at hv
      obtain ⟨hkeyLen, hval, hes⟩ := hv
      rw [dictText, List.length_append, List.length_append] at hfuel hlen ⊢
      push_cast at hlen
      obtain ⟨b, t, htext, hb⟩ := (Value.str key).text_head
      rw [Value.text] at htext
      have hkey := beDecodeStr_text hkeyLen (v.text ++ (dictText es ++ rest)) len (by omega)
      have hdec := beDecode_text v hval (fuel + es.length + 1) (dictText es ++ rest)
        (len - (strText key).length) (by omega) (by omega)
      have hset : ∀ e ∈ d ++ [(some key, some v.node)], e.1.isSome ∧ e.2.isSome := by
        intro e he
        rcases List.mem_append.mp he with he | he
        · exact hd e he
        · rw [List.mem_singleton.mp he]
          exact ⟨rfl, rfl⟩
      have hrest := ih hes fuel (d ++ [(some key, some v.node)]) rest
        (len - (strText key).length - v.text.length) (by omega) (by omega) hset
      rw [List.append_assoc, List.append_assoc, List.length_cons, ← Nat.add_assoc,
        dictLoop_cons (t := t ++ (v.text ++ (dictText es ++ rest))) (by rw [htext]; rfl) hb hkey
          hdec hset, hrest, dictEntries, List.append_assoc, List.singleton_append]
      push_cast
      rw [Int.sub_sub, Int.sub_sub]

theorem length_le_listText (vs : List Value) : vs.length ≤ (listText vs).length := by
  induction vs with
  | nil => exact Nat.zero_le _
  | cons v vs ih =>
      have hpos := v.length_text_pos
      rw [listText, List.length_append, List.length_cons]
      omega

theorem length_le_dictText (es : List (List Byte × Value)) :
    2 * es.length ≤ (dictText es).length := by
  induction es with
  | nil => exact Nat.zero_le _
  | cons entry es ih =>
      obtain ⟨key, v⟩ := entry
      have hpos := v.length_text_pos
      have hkey := (Value.str key).length_text_pos
      rw [Value.text] at hkey
      rw [dictText, List.length_append, List.length_append, List.length_cons]
      omega

/-! ## Unclosed containers -/

theorem dropLast_text_list (vs : List Value) :
    (Value.list vs).text.dropLast = 108#8 :: listText vs := by
  rw [Value.text, ← List.cons_append, List.dropLast_concat]

theorem dropLast_text_dict (es : List (List Byte × Value)) :
    (Value.dict es).text.dropLast = 100#8 :: dictText es := by
  rw [Value.text, ← List.cons_append, List.dropLast_concat]

/-- The elements of a list in front of a cursor where the loop ends. -/
theorem beDecode_open_list {vs : List Value} (hvs : ReadableList vs) {x : Byte} {rest : List Byte}
    {len : Int} (hlen : (listText vs).length + 1 ≤ len) (hhead : vs = [] → x ≠ 101#8) {fuel : Nat}
    (hfuel : 2 * (listText vs).length + 4 ≤ fuel)
    (hend : ∀ fuel l, listLoop (fuel + 2) l ⟨x :: rest, len - 1 - (listText vs).length⟩
      = some (l, ⟨x :: rest, len - 1 - (listText vs).length⟩)) :
    beDecode fuel ⟨108#8 :: (listText vs ++ x :: rest), len⟩
      = some (some (Value.list vs).node, ⟨rest, len - ((listText vs).length + 2)⟩) := by
  have hle := length_le_listText vs
  obtain ⟨extra, rfl⟩ : ∃ f, fuel = (f + 1 + vs.length + 1) + 1 := ⟨fuel - vs.length - 3, by omega⟩
  have hloop := listLoop_read vs hvs (extra + 1) [] (x :: rest) (len - 1) (by omega) (by omega)
  rw [hend, List.nil_append] at hloop
  have hopen : (listText vs ++ x :: rest).head? ≠ some 101#8 := by
    cases vs with
    | nil => simpa [listText] using hhead rfl
    | cons v vs => exact head_listText (List.cons_ne_nil _ _) _
  rw [beDecode_list (by omega) hopen hloop, Value.node]
  simp only [Cursor.next, List.drop_one, List.tail_cons, Option.some.injEq, Prod.mk.injEq,
    Cursor.mk.injEq, true_and]
  omega

/-- The closed empty list is not read at all, and the open one is. -/
theorem beDecoden_empty_list (fuel : Nat) {x : Byte} (hx : x ≠ 101#8) (rest : List Byte) :
    beDecodenRun (fuel + 1) (ascii "le" ++ rest) 2 = .error .fault ∧
    beDecoden (fuel + 3) (108#8 :: x :: rest) 1 = some (some (.list []), ⟨rest, -1⟩) := by
  constructor
  · rfl
  · rw [beDecoden, beDecode_list (by decide) (by simpa using hx)
      (listLoop_stuck (stuck_end hx rest) fuel [])]
    rfl

/-- **A dictionary without its closing marker** gets as many empty entries
behind its own. -/
theorem beDecode_unclosed_dict {es : List (List Byte × Value)} (hes : ReadableDict es) {x : Byte}
    {rest : List Byte} {len : Int} (hlen : (dictText es).length + 1 ≤ len)
    (hstuck : Keyless ⟨x :: rest, len - 1 - (dictText es).length⟩) {fuel : Nat}
    (hfuel : 2 * (dictText es).length + 4 ≤ fuel) :
    beDecode fuel ⟨100#8 :: (dictText es ++ x :: rest), len⟩
      = some (some (.dict (dictEntries es ++ List.replicate es.length (none, none))),
          ⟨rest, len - ((dictText es).length + 2)⟩) := by
  have hle := length_le_dictText es
  obtain ⟨extra, rfl⟩ : ∃ f, fuel = (f + es.length + 1) + 1 := ⟨fuel - es.length - 2, by omega⟩
  have hloop := dictLoop_read es hes extra [] (x :: rest) (len - 1) (by omega) (by omega)
    (by intro e he; cases he)
  have hrounds := dictLoop_stuck hstuck (entries_set es) es.length 0 (extra + 1)
    (by rw [length_dictEntries]; omega) (by omega)
  rw [List.replicate_zero, List.append_nil, length_dictEntries] at hrounds
  rw [List.nil_append, hrounds] at hloop
  have hopen : (dictText es ++ x :: rest).head? ≠ some 101#8 := by
    cases es with
    | nil =>
        obtain ⟨b, t, hdata, hb⟩ := hstuck.data
        cases hdata
        simpa [dictText] using hb
    | cons e es => exact head_dictText (List.cons_ne_nil _ _) _
  rw [beDecode_dict (by omega) hopen hloop]
  simp only [Cursor.next, List.drop_one, List.tail_cons, Option.some.injEq, Prod.mk.injEq,
    Cursor.mk.injEq, true_and]
  omega

/-- Cut off where the memory happens to go on with the marker, it is closed. -/
theorem beDecode_closed_behind {es : List (List Byte × Value)} (hne : es ≠ [])
    (hes : ReadableDict es) (rest : List Byte) {len : Int} (hlen : (dictText es).length + 1 ≤ len)
    {fuel : Nat} (hfuel : 2 * (dictText es).length + 4 ≤ fuel) :
    beDecode fuel ⟨100#8 :: (dictText es ++ 101#8 :: rest), len⟩
      = some (some (.dict (dictEntries es)), ⟨rest, len - ((dictText es).length + 2)⟩) := by
  have hle := length_le_dictText es
  obtain ⟨extra, rfl⟩ : ∃ f, fuel = (f + es.length + 1) + 1 := ⟨fuel - es.length - 2, by omega⟩
  have hloop := dictLoop_read es hes extra [] (101#8 :: rest) (len - 1) (by omega) (by omega)
    (by intro e he; cases he)
  have hclosed : dictLoop (extra + 1) (dictEntries es)
      ⟨101#8 :: rest, len - 1 - (dictText es).length⟩
      = some (dictEntries es, ⟨101#8 :: rest, len - 1 - (dictText es).length⟩) := by
    rw [dictLoop_succ]
    dsimp only
    rw [if_pos rfl]
  rw [List.nil_append, hclosed] at hloop
  rw [beDecode_dict (by omega) (head_dictText hne _) hloop]
  simp only [Cursor.next, List.drop_one, List.tail_cons, Option.some.injEq, Prod.mk.injEq,
    Cursor.mk.injEq, true_and]
  omega

/-! ## Unclosed torrents -/

/-- Entries without a value are not reached behind the first of them. -/
theorem forEntries_empties {σ : Type} (body : List Byte → Node → σ → Except Torrent.Stop σ)
    (d : List Entry) (n : Nat) :
    ∀ out, forEntries body (d ++ List.replicate n (none, none)) out = forEntries body d out := by
  induction d with
  | nil =>
      intro out
      cases n with
      | zero => rfl
      | succ n => rfl
  | cons e d ih =>
      intro out
      obtain ⟨_ | key, _ | node⟩ := e
      · rfl
      · rfl
      · rfl
      · rw [List.cons_append, forEntries, forEntries]
        split
        · rfl
        · exact ih _

/-- The memory behind a block begins with the closing marker or with no
number. -/
def NoNumber (behind : List Byte) : Prop :=
  behind.head? = some 101#8 ∨ strtoll behind = some (0, behind)

instance (behind : List Byte) : Decidable (NoNumber behind) :=
  inferInstanceAs (Decidable (_ ∨ _))

theorem fillRecord_empties (vacant : Vacancy) (heap : Heap) (d : List Entry) (n : Nat)
    (out : BtInfo) :
    fillRecord vacant heap (some (.dict (d ++ List.replicate n (none, none)))) out
      = fillRecord vacant heap (some (.dict d)) out := by
  simp only [fillRecord, Heap.valD, forEntries_empties]

/-- A tracker address and a file of one byte. -/
def oneByteEntries : List (List Byte × Value) :=
  [(ascii "announce", .str (ascii "1.2.3.4")), (ascii "info", .dict [(ascii "length", .int 1)])]

end DubstepDucks.Bencode
