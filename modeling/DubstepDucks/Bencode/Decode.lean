import DubstepDucks.Bencode.Format

/-!
# Bencode — the decoder

`bencode.c` as far as `be_decoden`: a cursor over the data, the recursive
descent, and the tree it builds. The data is the bytes from the pointer to
the end of the mapped memory, so it goes on behind the `data_len` bytes of
the text; only `_be_decode_str` and the first line of `_be_decode` look at
`data_len` at all.

Both container loops read `**data` without looking at `data_len`, and a
container without entries is never allocated: its terminator is written
through a null pointer. That is a fault, and so is a read behind the mapped
memory. The descent and the loops have fuel; a run that has spent it is kept
apart from one that faults.

The main result is `beDecode_text`: every readable value in front of any
bytes is decoded to its tree, and the cursor stands right behind it.
-/

namespace DubstepDucks.Bencode

open CMem

/-- `be_node`. A dictionary's entries are the ones before the entry whose
`val` the decoder sets to NULL; each holds a key and a value, NULL or not. -/
inductive Node where
  | str (s : Option (List Byte))
  | int (i : Int)
  | list (l : List Node)
  | dict (d : List (Option (List Byte) × Option Node))

/-- One `be_dict`. -/
abbrev Entry := Option (List Byte) × Option Node

/-- `*data` and `*data_len`. -/
structure Cursor where
  data : List Byte
  dataLen : Int

/-- `--(*data_len); ++(*data);` -/
def Cursor.next (c : Cursor) : Cursor := { data := c.data.drop 1, dataLen := c.dataLen - 1 }

/-! ## The functions -/

/-- `_be_decode_int`. -/
def beDecodeInt (c : Cursor) : Option (Int × Cursor) :=
  match strtoll c.data with
  | none => none
  | some (ret, endp) =>
      some (ret, { data := endp, dataLen := c.dataLen - (c.data.length - endp.length : Int) })

/-- `_be_decode_str`; the answer NULL is `some (none, _)`. -/
def beDecodeStr (c : Cursor) : Option (Option (List Byte) × Cursor) :=
  match beDecodeInt c with
  | none => none
  | some (sllen, c) =>
      if sllen < 0 then some (none, c)
      else if c.dataLen - 1 < sllen then some (none, c)
      else
        match c.data with
        | [] => none
        | b :: bytes =>
            if b = 58#8 then
              -- memcpy behind the mapped memory
              if bytes.length < sllen.toNat then none
              else some (some (bytes.take sllen.toNat),
                { data := bytes.drop sllen.toNat, dataLen := c.dataLen - (sllen + 1) })
            else some (none, c)

/-- Whether `ret->val.l[i]` is non-NULL after entry `i` of a dictionary was
written. The array holds two pointers an entry, so word `i` is the key
(`i` even) or the value (`i` odd) of entry `i / 2`. -/
def wordSet (entries : List Entry) (i : Nat) : Bool :=
  match entries[i / 2]? with
  | none => false
  | some entry => if i % 2 = 0 then entry.1.isSome else entry.2.isSome

/-- Why a run gives no answer. -/
inductive Halt where
  | fault
  | spent
  deriving DecidableEq, Repr

mutual

/-- `_be_decode`. -/
def beDecodeRun : Nat → Cursor → Except Halt (Option Node × Cursor)
  | 0, _ => .error .spent
  | fuel + 1, c =>
      if c.dataLen = 0 then .ok (none, c)
      else
        match c.data with
        | [] => .error .fault
        | b :: rest =>
            if b = 108#8 then
              -- an empty list: val.l is still NULL when val.l[0] is set
              if rest.head? = some 101#8 then .error .fault
              else
                match listLoopRun fuel [] c.next with
                | .error halt => .error halt
                | .ok (l, c) => .ok (some (.list l), c.next)
            else if b = 100#8 then
              if rest.head? = some 101#8 then .error .fault
              else
                match dictLoopRun fuel [] c.next with
                | .error halt => .error halt
                | .ok (d, c) => .ok (some (.dict d), c.next)
            else if b = 105#8 then
              match beDecodeInt c.next with
              | none => .error .fault
              | some (i, c) =>
                  match c.data with
                  | [] => .error .fault
                  | e :: _ => if e = 101#8 then .ok (some (.int i), c.next) else .ok (none, c)
            else if isDigit b then
              match beDecodeStr c with
              | none => .error .fault
              | some (s, c) => .ok (some (.str s), c)
            else .ok (none, c)

/-- The loop of a list: `l` holds the nodes read so far. -/
def listLoopRun : Nat → List Node → Cursor → Except Halt (List Node × Cursor)
  | 0, _, _ => .error .spent
  | fuel + 1, l, c =>
      match c.data with
      | [] => .error .fault
      | b :: _ =>
          if b = 101#8 then .ok (l, c)
          else
            match beDecodeRun fuel c with
            | .error halt => .error halt
            | .ok (none, c) => .ok (l, c)
            | .ok (some node, c) => listLoopRun fuel (l ++ [node]) c

/-- The loop of a dictionary: `d` holds the entries written so far. The test
for NULL reads the array of entries as an array of pointers. -/
def dictLoopRun : Nat → List Entry → Cursor → Except Halt (List Entry × Cursor)
  | 0, _, _ => .error .spent
  | fuel + 1, d, c =>
      match c.data with
      | [] => .error .fault
      | b :: _ =>
          if b = 101#8 then .ok (d, c)
          else
            match beDecodeStr c with
            | none => .error .fault
            | some (key, c) =>
                match beDecodeRun fuel c with
                | .error halt => .error halt
                | .ok (val, c) =>
                    if wordSet (d ++ [(key, val)]) d.length then
                      dictLoopRun fuel (d ++ [(key, val)]) c
                    else .ok (d, c)

end

/-- `be_decoden`, with the cursor it leaves. -/
def beDecodenRun (fuel : Nat) (data : List Byte) (len : Int) :
    Except Halt (Option Node × Cursor) :=
  beDecodeRun fuel { data := data, dataLen := len }

/-! ## Their answers

Where it does not matter why there is none. -/

def beDecode (fuel : Nat) (c : Cursor) : Option (Option Node × Cursor) :=
  (beDecodeRun fuel c).toOption

def listLoop (fuel : Nat) (l : List Node) (c : Cursor) : Option (List Node × Cursor) :=
  (listLoopRun fuel l c).toOption

def dictLoop (fuel : Nat) (d : List Entry) (c : Cursor) : Option (List Entry × Cursor) :=
  (dictLoopRun fuel d c).toOption

def beDecoden (fuel : Nat) (data : List Byte) (len : Int) : Option (Option Node × Cursor) :=
  beDecode fuel { data := data, dataLen := len }

theorem beDecode_succ (fuel : Nat) (c : Cursor) :
    beDecode (fuel + 1) c =
      if c.dataLen = 0 then some (none, c)
      else
        match c.data with
        | [] => none
        | b :: rest =>
            if b = 108#8 then
              if rest.head? = some 101#8 then none
              else
                match listLoop fuel [] c.next with
                | none => none
                | some (l, c) => some (some (.list l), c.next)
            else if b = 100#8 then
              if rest.head? = some 101#8 then none
              else
                match dictLoop fuel [] c.next with
                | none => none
                | some (d, c) => some (some (.dict d), c.next)
            else if b = 105#8 then
              match beDecodeInt c.next with
              | none => none
              | some (i, c) =>
                  match c.data with
                  | [] => none
                  | e :: _ => if e = 101#8 then some (some (.int i), c.next) else some (none, c)
            else if isDigit b then
              match beDecodeStr c with
              | none => none
              | some (s, c) => some (some (.str s), c)
            else some (none, c) := by
  rw [beDecode, beDecodeRun]
  split
  · rfl
  split
  · rfl
  split
  · split
    · rfl
    · rw [listLoop]
      cases listLoopRun fuel [] c.next <;> rfl
  split
  · split
    · rfl
    · rw [dictLoop]
      cases dictLoopRun fuel [] c.next <;> rfl
  split
  · cases beDecodeInt c.next with
    | none => rfl
    | some r =>
        dsimp only
        split
        · rfl
        · split <;> rfl
  split
  · cases beDecodeStr c <;> rfl
  · rfl

theorem listLoop_succ (fuel : Nat) (l : List Node) (c : Cursor) :
    listLoop (fuel + 1) l c =
      match c.data with
      | [] => none
      | b :: _ =>
          if b = 101#8 then some (l, c)
          else
            match beDecode fuel c with
            | none => none
            | some (none, c) => some (l, c)
            | some (some node, c) => listLoop fuel (l ++ [node]) c := by
  rw [listLoop, listLoopRun, beDecode]
  split
  · rfl
  split
  · rfl
  · rcases beDecodeRun fuel c with halt | ⟨_ | node, c₁⟩ <;> rfl

theorem dictLoop_succ (fuel : Nat) (d : List Entry) (c : Cursor) :
    dictLoop (fuel + 1) d c =
      match c.data with
      | [] => none
      | b :: _ =>
          if b = 101#8 then some (d, c)
          else
            match beDecodeStr c with
            | none => none
            | some (key, c) =>
                match beDecode fuel c with
                | none => none
                | some (val, c) =>
                    if wordSet (d ++ [(key, val)]) d.length then
                      dictLoop fuel (d ++ [(key, val)]) c
                    else some (d, c) := by
  rw [dictLoop, dictLoopRun]
  split
  · rfl
  split
  · rfl
  rcases beDecodeStr c with _ | ⟨key, c₁⟩
  · rfl
  dsimp only
  rw [beDecode]
  rcases beDecodeRun fuel c₁ with halt | ⟨val, c₂⟩
  · rfl
  · show (if _ then _ else _ : Except Halt _).toOption = if _ then _ else _
    split
    · rfl
    · rfl

/-! ## The tree of a value -/

mutual

/-- The tree the decoder builds for a value. -/
def Value.node : Value → Node
  | .str s => .str (some s)
  | .int n => .int n
  | .list vs => .list (listNodes vs)
  | .dict es => .dict (dictEntries es)

def listNodes : List Value → List Node
  | [] => []
  | v :: vs => v.node :: listNodes vs

def dictEntries : List (List Byte × Value) → List Entry
  | [] => []
  | (key, v) :: es => (some key, some v.node) :: dictEntries es

end

/-! ## Numbers and strings -/

/-- A printed number is decoded, and `data_len` shrinks by its length. -/
theorem beDecodeInt_text {n : Int} (hmin : llongMin ≤ n) (hmax : n ≤ llongMax) {b : Byte}
    (hb : isDigit b = false) (rest : List Byte) (len : Int) :
    beDecodeInt ⟨signedDecimal n ++ b :: rest, len⟩
      = some (n, ⟨b :: rest, len - (signedDecimal n).length⟩) := by
  rw [beDecodeInt, strtoll_signedDecimal hmin hmax hb]
  simp only [List.length_append, Option.some.injEq, Prod.mk.injEq, Cursor.mk.injEq, true_and]
  omega

/-- A byte string is decoded whatever its bytes are. -/
theorem beDecodeStr_text {s : List Byte} (hs : (s.length : Int) ≤ llongMax) (rest : List Byte)
    (len : Int) (hlen : ((strText s).length : Int) ≤ len) :
    beDecodeStr ⟨strText s ++ rest, len⟩ = some (some s, ⟨rest, len - (strText s).length⟩) := by
  have htext : strText s ++ rest = signedDecimal s.length ++ 58#8 :: (s ++ rest) := by
    rw [signedDecimal, if_neg (by omega), Int.natAbs_natCast, strText, List.append_assoc,
      List.cons_append]
  have hdigits : (signedDecimal s.length).length = (decimal s.length).length := by
    rw [signedDecimal, if_neg (by omega), Int.natAbs_natCast]
  rw [length_strText] at hlen ⊢
  have hmin : llongMin ≤ (s.length : Int) := by
    rw [llongMin]
    omega
  rw [beDecodeStr, htext, beDecodeInt_text hmin hs (by decide), hdigits]
  dsimp only
  rw [if_neg (by omega), if_neg (by push_cast at hlen; omega), if_pos rfl, Int.toNat_natCast,
    if_neg (by simp), List.take_left, List.drop_left]
  simp only [Option.some.injEq, Prod.mk.injEq, Cursor.mk.injEq, true_and]
  push_cast
  omega

/-! ## Whole values -/

/-- With every key and every value non-NULL, so is each word of the array. -/
theorem wordSet_of_set {d : List Entry} (h : ∀ e ∈ d, e.1.isSome ∧ e.2.isSome) {i : Nat}
    (hi : i / 2 < d.length) : wordSet d i = true := by
  have he := h _ (List.getElem_mem hi)
  rw [wordSet, List.getElem?_eq_getElem hi]
  dsimp only
  split
  · exact he.1
  · exact he.2

theorem beDecode_str {fuel : Nat} {c c' : Cursor} {s : Option (List Byte)} {b : Byte}
    {t : List Byte} (hdata : c.data = b :: t) (hb : isDigit b = true) (hlen : c.dataLen ≠ 0)
    (hdec : beDecodeStr c = some (s, c')) :
    beDecode (fuel + 1) c = some (some (.str s), c') := by
  have hdigit : ∀ {x : Byte}, isDigit x = false → b ≠ x := by
    intro x hx heq
    rw [heq, hx] at hb
    exact absurd hb (by decide)
  rw [beDecode_succ, if_neg hlen, hdata]
  dsimp only
  rw [if_neg (hdigit (by decide)), if_neg (hdigit (by decide)), if_neg (hdigit (by decide)),
    if_pos hb, hdec]

theorem beDecode_int {n : Int} (hmin : llongMin ≤ n) (hmax : n ≤ llongMax) (fuel : Nat)
    (rest : List Byte) {len : Int} (hlen : len ≠ 0) :
    beDecode (fuel + 1) ⟨intText n ++ rest, len⟩
      = some (some (.int n), ⟨rest, len - (intText n).length⟩) := by
  have htext : intText n ++ rest = 105#8 :: (signedDecimal n ++ 101#8 :: rest) := by
    simp [intText]
  rw [beDecode_succ, htext, if_neg hlen]
  dsimp only [Cursor.next]
  rw [if_neg (by decide), if_neg (by decide), if_pos rfl, List.drop_one, List.tail_cons,
    beDecodeInt_text hmin hmax (by decide)]
  simp only [if_true, List.drop_one, List.tail_cons, intText, List.length_cons,
    List.length_append, List.length_nil, Option.some.injEq, Prod.mk.injEq, Cursor.mk.injEq,
    true_and]
  push_cast
  omega

theorem beDecode_list {fuel : Nat} {t : List Byte} {len : Int} {l : List Node} {c' : Cursor}
    (hlen : len ≠ 0) (hne : t.head? ≠ some 101#8)
    (hloop : listLoop fuel [] ⟨t, len - 1⟩ = some (l, c')) :
    beDecode (fuel + 1) ⟨108#8 :: t, len⟩ = some (some (.list l), c'.next) := by
  have hnext : (⟨108#8 :: t, len⟩ : Cursor).next = ⟨t, len - 1⟩ := rfl
  rw [beDecode_succ, if_neg hlen]
  dsimp only
  rw [if_pos rfl, if_neg hne, hnext, hloop]

theorem beDecode_dict {fuel : Nat} {t : List Byte} {len : Int} {d : List Entry} {c' : Cursor}
    (hlen : len ≠ 0) (hne : t.head? ≠ some 101#8)
    (hloop : dictLoop fuel [] ⟨t, len - 1⟩ = some (d, c')) :
    beDecode (fuel + 1) ⟨100#8 :: t, len⟩ = some (some (.dict d), c'.next) := by
  have hnext : (⟨100#8 :: t, len⟩ : Cursor).next = ⟨t, len - 1⟩ := rfl
  rw [beDecode_succ, if_neg hlen]
  dsimp only
  rw [if_neg (by decide), if_pos rfl, if_neg hne, hnext, hloop]

/-- A non-empty list's text does not begin with the closing marker. -/
theorem head_listText {vs : List Value} (hne : vs ≠ []) (rest : List Byte) :
    (listText vs ++ rest).head? ≠ some 101#8 := by
  obtain ⟨v, vs, rfl⟩ := List.exists_cons_of_ne_nil hne
  obtain ⟨b, t, htext, hb⟩ := v.text_head
  rw [listText, htext]
  simpa using hb

/-- Nor does a non-empty dictionary's. -/
theorem head_dictText {es : List (List Byte × Value)} (hne : es ≠ []) (rest : List Byte) :
    (dictText es ++ rest).head? ≠ some 101#8 := by
  obtain ⟨⟨key, v⟩, es, rfl⟩ := List.exists_cons_of_ne_nil hne
  obtain ⟨b, t, htext, hb⟩ := (Value.str key).text_head
  rw [Value.text] at htext
  rw [dictText, htext]
  simpa using hb

/-- The step of the list loop over one value. -/
theorem listLoop_cons {fuel : Nat} {l : List Node} {c c' : Cursor} {node : Node} {b : Byte}
    {t : List Byte} (hdata : c.data = b :: t) (hb : b ≠ 101#8)
    (hdec : beDecode fuel c = some (some node, c')) :
    listLoop (fuel + 1) l c = listLoop fuel (l ++ [node]) c' := by
  rw [listLoop_succ, hdata]
  dsimp only
  rw [if_neg hb, hdec]

/-- The step of the dictionary loop over one entry, no entry up to it having
a NULL. -/
theorem dictLoop_cons {fuel : Nat} {d : List Entry} {c c₁ c₂ : Cursor} {key : List Byte}
    {node : Node} {b : Byte} {t : List Byte} (hdata : c.data = b :: t) (hb : b ≠ 101#8)
    (hkey : beDecodeStr c = some (some key, c₁))
    (hdec : beDecode fuel c₁ = some (some node, c₂))
    (hd : ∀ e ∈ d ++ [(some key, some node)], e.1.isSome ∧ e.2.isSome) :
    dictLoop (fuel + 1) d c = dictLoop fuel (d ++ [(some key, some node)]) c₂ := by
  have hset : wordSet (d ++ [(some key, some node)]) d.length = true := by
    apply wordSet_of_set hd
    rw [List.length_append, List.length_singleton]
    omega
  rw [dictLoop_succ, hdata]
  dsimp only
  rw [if_neg hb, hkey]
  dsimp only
  rw [hdec]
  dsimp only
  rw [if_pos hset]

-- by recursion on the value: the loops decode what is inside a container
-- with one unit of fuel less, and each value spends at least one byte
mutual

/-- **Every readable value is decoded to its tree**, whatever follows it,
with the cursor right behind its text. -/
theorem beDecode_text : ∀ (v : Value), v.Readable → ∀ (fuel : Nat) (rest : List Byte) (len : Int),
    v.text.length ≤ fuel → (v.text.length : Int) ≤ len →
    beDecode fuel ⟨v.text ++ rest, len⟩ = some (some v.node, ⟨rest, len - v.text.length⟩)
  | .str s, hv, fuel, rest, len, hfuel, hlen => by
      have hpos := (Value.str s).length_text_pos
      rw [Value.Readable] at hv
      rw [Value.text] at hfuel hlen hpos ⊢
      obtain ⟨b, t, hs, hb⟩ := strText_head s
      obtain ⟨fuel, rfl⟩ : ∃ f, fuel = f + 1 := ⟨fuel - 1, by omega⟩
      exact beDecode_str (t := t ++ rest) (by rw [hs, List.cons_append]) hb (by dsimp only; omega)
        (beDecodeStr_text hv rest len hlen)
  | .int n, hv, fuel, rest, len, hfuel, hlen => by
      have hpos := (Value.int n).length_text_pos
      rw [Value.Readable] at hv
      rw [Value.text] at hfuel hlen hpos ⊢
      obtain ⟨fuel, rfl⟩ : ∃ f, fuel = f + 1 := ⟨fuel - 1, by omega⟩
      exact beDecode_int hv.1 hv.2 fuel rest (by omega)
  | .list vs, hv, fuel, rest, len, hfuel, hlen => by
      rw [Value.Readable] at hv
      rw [Value.text, List.length_cons, List.length_append, List.length_singleton] at hfuel hlen ⊢
      obtain ⟨fuel, rfl⟩ : ∃ f, fuel = f + 1 := ⟨fuel - 1, by omega⟩
      push_cast at hlen ⊢
      have hloop := listLoop_text vs hv.2 fuel [] rest (len - 1) (by omega) (by omega)
      rw [List.cons_append, List.append_assoc, List.singleton_append,
        beDecode_list (by omega) (head_listText hv.1 _) hloop, Value.node, List.nil_append]
      simp only [Cursor.next, List.drop_one, List.tail_cons, Option.some.injEq, Prod.mk.injEq,
        Cursor.mk.injEq, true_and]
      omega
  | .dict es, hv, fuel, rest, len, hfuel, hlen => by
      rw [Value.Readable] at hv
      rw [Value.text, List.length_cons, List.length_append, List.length_singleton] at hfuel hlen ⊢
      obtain ⟨fuel, rfl⟩ : ∃ f, fuel = f + 1 := ⟨fuel - 1, by omega⟩
      push_cast at hlen ⊢
      have hloop := dictLoop_text es hv.2 fuel [] rest (len - 1) (by omega) (by omega) nofun
      rw [List.cons_append, List.append_assoc, List.singleton_append,
        beDecode_dict (by omega) (head_dictText hv.1 _) hloop, Value.node, List.nil_append]
      simp only [Cursor.next, List.drop_one, List.tail_cons, Option.some.injEq, Prod.mk.injEq,
        Cursor.mk.injEq, true_and]
      omega

theorem listLoop_text : ∀ (vs : List Value), ReadableList vs →
    ∀ (fuel : Nat) (l : List Node) (rest : List Byte) (len : Int),
    (listText vs).length < fuel → ((listText vs).length : Int) ≤ len →
    listLoop fuel l ⟨listText vs ++ 101#8 :: rest, len⟩
      = some (l ++ listNodes vs, ⟨101#8 :: rest, len - (listText vs).length⟩)
  | [], _, fuel, l, rest, len, hfuel, _ => by
      obtain ⟨fuel, rfl⟩ : ∃ f, fuel = f + 1 := ⟨fuel - 1, by omega⟩
      simp [listLoop_succ, listText, listNodes]
  | v :: vs, hv, fuel, l, rest, len, hfuel, hlen => by
      rw [ReadableList] at hv
      rw [listText, List.length_append] at hfuel hlen ⊢
      obtain ⟨b, t, htext, hb⟩ := v.text_head
      have hpos := v.length_text_pos
      obtain ⟨fuel, rfl⟩ : ∃ f, fuel = f + 1 := ⟨fuel - 1, by omega⟩
      have hdec := beDecode_text v hv.1 fuel (listText vs ++ 101#8 :: rest) len (by omega)
        (by push_cast at hlen; omega)
      rw [List.append_assoc,
        listLoop_cons (t := t ++ (listText vs ++ 101#8 :: rest)) (by rw [htext]; rfl) hb hdec,
        listLoop_text vs hv.2 fuel _ rest _ (by omega) (by push_cast at hlen; omega),
        listNodes, List.append_assoc, List.singleton_append]
      push_cast
      rw [Int.sub_sub]

theorem dictLoop_text : ∀ (es : List (List Byte × Value)), ReadableDict es →
    ∀ (fuel : Nat) (d : List Entry) (rest : List Byte) (len : Int),
    (dictText es).length < fuel → ((dictText es).length : Int) ≤ len →
    (∀ e ∈ d, e.1.isSome ∧ e.2.isSome) →
    dictLoop fuel d ⟨dictText es ++ 101#8 :: rest, len⟩
      = some (d ++ dictEntries es, ⟨101#8 :: rest, len - (dictText es).length⟩)
  | [], _, fuel, d, rest, len, hfuel, _, _ => by
      obtain ⟨fuel, rfl⟩ : ∃ f, fuel = f + 1 := ⟨fuel - 1, by omega⟩
      simp [dictLoop_succ, dictText, dictEntries]
  | (key, v) :: es, hv, fuel, d, rest, len, hfuel, hlen, hd => by
      rw [ReadableDict] at hv
      obtain ⟨hkeyLen, hval, hes⟩ := hv
      rw [dictText, List.length_append, List.length_append] at hfuel hlen ⊢
      push_cast at hlen
      obtain ⟨b, t, htext, hb⟩ := (Value.str key).text_head
      rw [Value.text] at htext
      have hpos := v.length_text_pos
      obtain ⟨fuel, rfl⟩ : ∃ f, fuel = f + 1 := ⟨fuel - 1, by omega⟩
      have hkey := beDecodeStr_text hkeyLen (v.text ++ (dictText es ++ 101#8 :: rest)) len
        (by omega)
      have hdec := beDecode_text v hval fuel (dictText es ++ 101#8 :: rest)
        (len - (strText key).length) (by omega) (by omega)
      have hset : ∀ e ∈ d ++ [(some key, some v.node)], e.1.isSome ∧ e.2.isSome := by
        intro e he
        rcases List.mem_append.mp he with he | he
        · exact hd e he
        · rw [List.mem_singleton.mp he]
          exact ⟨rfl, rfl⟩
      have hrest := dictLoop_text es hes fuel (d ++ [(some key, some v.node)]) rest
        (len - (strText key).length - v.text.length) (by omega) (by omega) hset
      rw [List.append_assoc, List.append_assoc,
        dictLoop_cons (t := t ++ (v.text ++ (dictText es ++ 101#8 :: rest))) (by rw [htext]; rfl)
          hb hkey hdec hset, hrest, dictEntries, List.append_assoc, List.singleton_append]
      simp only [Option.some.injEq, Prod.mk.injEq, Cursor.mk.injEq, true_and]
      push_cast
      omega

end

end DubstepDucks.Bencode
