import DubstepDucks.CMem.Bytes

/-!
# CMem — the two byte orders

Four bytes of an int, lowest first (`leBytes`, how a little-endian host holds
it) or highest first (`beBytes`). `beBytes` is tied to the number it stands
for by `beValue_beBytes`. A record that is laid out in both orders comes out
the same exactly when every int in it reads the same from either end
(`frame_eq_iff`). Nothing here knows a particular program.
-/

namespace DubstepDucks.CMem

/-! ## Highest byte first -/

/-- The four bytes of an int, highest first. -/
def beBytes (x : CInt) : List Byte :=
  [x.extractLsb' 24 8, x.extractLsb' 16 8, x.extractLsb' 8 8, x.extractLsb' 0 8]

/-- The number that bytes stand for, highest first. -/
def beValue (bs : List Byte) : Nat := bs.foldl (fun n b => 256 * n + b.toNat) 0

@[simp] theorem length_beBytes (x : CInt) : (beBytes x).length = 4 := rfl

/-- An int as the sum of its bytes. -/
theorem toNat_eq_bytes (x : CInt) :
    x.toNat = (x.extractLsb' 0 8).toNat + 2 ^ 8 * (x.extractLsb' 8 8).toNat
      + 2 ^ 16 * (x.extractLsb' 16 8).toNat + 2 ^ 24 * (x.extractLsb' 24 8).toNat := by
  rw [← toNat_leInt, leInt_leBytes]

theorem beValue_beBytes (x : CInt) : beValue (beBytes x) = x.toNat := by
  rw [toNat_eq_bytes x]
  simp only [beValue, beBytes, List.foldl_cons, List.foldl_nil]
  omega

/-! ## Ints that read the same from either end -/

/-- The outer two bytes are the same, and the inner two. -/
def Symmetric (x : CInt) : Prop :=
  x.extractLsb' 0 8 = x.extractLsb' 24 8 ∧ x.extractLsb' 8 8 = x.extractLsb' 16 8

instance (x : CInt) : Decidable (Symmetric x) := inferInstanceAs (Decidable (_ ∧ _))

theorem leBytes_eq_beBytes_iff (x : CInt) : leBytes x = beBytes x ↔ Symmetric x := by
  simp only [leBytes, beBytes, List.cons.injEq, and_true]
  constructor
  · rintro ⟨houter, hinner, -, -⟩
    exact ⟨houter, hinner⟩
  · rintro ⟨houter, hinner⟩
    exact ⟨houter, hinner, hinner.symm, houter.symm⟩

/-- Among the numbers that fit two bytes that is zero alone. -/
theorem symmetric_iff_of_lt {x : CInt} (h : x.toNat < 2 ^ 16) : Symmetric x ↔ x = 0 := by
  constructor
  · rintro ⟨houter, hinner⟩
    have hsum := toNat_eq_bytes x
    have houter' : (x.extractLsb' 24 8).toNat = 0 := by omega
    have hinner' : (x.extractLsb' 16 8).toNat = 0 := by omega
    rw [houter, hinner, houter', hinner'] at hsum
    exact BitVec.eq_of_toNat_eq hsum
  · rintro rfl
    decide

/-! ## Records -/

/-- A record: its length, a byte, ints and bytes, the ints as `enc` writes
them. -/
def frame (enc : CInt → List Byte) (length : CInt) (id : Byte) (ints : List CInt)
    (data : List Byte) : List Byte :=
  enc length ++ id :: (ints.flatMap enc ++ data)

/-- Two encodings of one width agree on a list exactly if they agree on its
members. -/
theorem flatMap_eq_iff {α β : Type} {enc enc' : α → List β}
    (hlen : ∀ x, (enc x).length = (enc' x).length) :
    ∀ xs : List α, xs.flatMap enc = xs.flatMap enc' ↔ ∀ x ∈ xs, enc x = enc' x := by
  intro xs
  induction xs with
  | nil => simp
  | cons x xs ih =>
      rw [List.flatMap_cons, List.flatMap_cons, List.forall_mem_cons, ← ih]
      constructor
      · exact fun h => List.append_inj h (hlen x)
      · rintro ⟨hx, hxs⟩
        rw [hx, hxs]

/-- **One record in two byte orders.** -/
theorem frame_eq_iff (length : CInt) (id : Byte) (ints : List CInt) (data : List Byte) :
    frame leBytes length id ints data = frame beBytes length id ints data ↔
      Symmetric length ∧ ∀ x ∈ ints, Symmetric x := by
  have hints : ints.flatMap leBytes = ints.flatMap beBytes ↔ ∀ x ∈ ints, Symmetric x := by
    have hwidth : ∀ x, (leBytes x).length = (beBytes x).length := fun _ => rfl
    rw [flatMap_eq_iff hwidth]
    simp only [leBytes_eq_beBytes_iff]
  rw [← leBytes_eq_beBytes_iff length, ← hints, frame, frame]
  constructor
  · intro h
    obtain ⟨hlength, hrest⟩ := List.append_inj h rfl
    exact ⟨hlength, List.append_cancel_right (List.cons.inj hrest).2⟩
  · rintro ⟨hlength, hsame⟩
    rw [hlength, hsame]

/-- The length of a record does not depend on the order. -/
theorem length_flatMap_four {enc : CInt → List Byte} (hlen : ∀ x, (enc x).length = 4)
    (ints : List CInt) : (ints.flatMap enc).length = 4 * ints.length := by
  induction ints with
  | nil => rfl
  | cons x ints ih =>
      rw [List.flatMap_cons, List.length_append, ih, hlen, List.length_cons]
      omega

end DubstepDucks.CMem
