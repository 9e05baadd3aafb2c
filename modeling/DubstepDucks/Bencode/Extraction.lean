import DubstepDucks.Bencode.PieceCount

/-!
# Bencode — the record filled in entry by entry

`decodeFile` fills the record while it walks the dictionaries. Each entry is
handled with what the record holds at that point: `num_pieces` needs the
length, `piece_hashes` needs `num_pieces`, and before that both are what
`malloc` left there. `MetaTree` is a tree with the four entries of the info
dictionary in some order, `Expected` is what the caller may expect of it, and
`MetaTree.Sound` is when the values come out so, whatever the heap holds.
-/

namespace DubstepDucks.Bencode

open CMem
open Torrent (Digest Stop)

/-! ## Runs over a dictionary -/

/-- A key and its value. -/
abbrev Field := List Byte × Node

/-- Around one of the fields stand the others. -/
theorem perm_around {fields others before behind : List Field} {f : Field}
    (hperm : fields.Perm (f :: others)) (h : fields = before ++ f :: behind) :
    (before ++ behind).Perm others := by
  rw [h] at hperm
  exact (List.perm_middle.symm.trans hperm).cons_inv

/-- The fields as the decoder stores them. -/
def entriesOf (fields : List Field) : List Entry := fields.map fun f => (some f.1, some f.2)

/-- The loop over the fields returns `out'`. -/
def Runs {σ : Type} (body : List Byte → Node → σ → Except Stop σ) (fields : List Field)
    (out out' : σ) : Prop :=
  forEntries body (entriesOf fields) out = .ok out'

section Runs

variable {σ : Type} {body : List Byte → Node → σ → Except Stop σ} {fields fields' : List Field}
  {f : Field} {out out' : σ}

theorem runs_nil : Runs body [] out out' ↔ out' = out := by
  rw [Runs, entriesOf, List.map_nil, forEntries, Except.ok.injEq, eq_comm]

theorem runs_cons :
    Runs body (f :: fields) out out' ↔ ∃ mid, body f.1 f.2 out = .ok mid ∧
      Runs body fields mid out' := by
  rw [Runs, entriesOf, List.map_cons, forEntries]
  cases hbody : body f.1 f.2 out with
  | error stop => simp
  | ok mid => simp [Runs, entriesOf]

theorem runs_append :
    Runs body (fields ++ fields') out out' ↔ ∃ mid, Runs body fields out mid ∧
      Runs body fields' mid out' := by
  induction fields generalizing out with
  | nil => simp [runs_nil]
  | cons f fields ih =>
      rw [List.cons_append, runs_cons]
      constructor
      · rintro ⟨mid, hbody, hrest⟩
        obtain ⟨mid', hfields, hfields'⟩ := ih.mp hrest
        exact ⟨mid', runs_cons.mpr ⟨mid, hbody, hfields⟩, hfields'⟩
      · rintro ⟨mid', hfields, hfields'⟩
        obtain ⟨mid, hbody, hrest⟩ := runs_cons.mp hfields
        exact ⟨mid, hbody, ih.mpr ⟨mid', hrest, hfields'⟩⟩

/-- What every field keeps true stays true along the run. -/
theorem Runs.invariant {Q : σ → Prop}
    (hkeep : ∀ f ∈ fields, ∀ a b, Q a → body f.1 f.2 a = .ok b → Q b)
    (h : Runs body fields out out') (hout : Q out) : Q out' := by
  induction fields generalizing out with
  | nil => exact runs_nil.mp h ▸ hout
  | cons f fields ih =>
      obtain ⟨mid, hbody, hrest⟩ := runs_cons.mp h
      have hmid : Q mid := hkeep f (List.mem_cons_self ..) out mid hout hbody
      exact ih (fun f' hf' => hkeep f' (List.mem_cons_of_mem _ hf')) hrest hmid

/-- What the fields leave alone, the run leaves alone. -/
theorem Runs.keeps {α : Type} {g : σ → α}
    (hkeep : ∀ f ∈ fields, ∀ a b, body f.1 f.2 a = .ok b → g b = g a)
    (h : Runs body fields out out') : g out' = g out :=
  h.invariant (Q := fun a => g a = g out)
    (fun f hf a b ha hbody => (hkeep f hf a b hbody).trans ha) rfl

/-- What one field makes true, from what held before, and every field keeps
true holds at the end. -/
theorem Runs.establishes {Q R : σ → Prop} (hf : f ∈ fields)
    (hmakes : ∀ a b, Q a → body f.1 f.2 a = .ok b → R b)
    (hkeepQ : ∀ f' ∈ fields, ∀ a b, Q a → body f'.1 f'.2 a = .ok b → Q b)
    (hkeepR : ∀ f' ∈ fields, ∀ a b, R a → body f'.1 f'.2 a = .ok b → R b)
    (h : Runs body fields out out') (hout : Q out) : R out' := by
  obtain ⟨before, behind, rfl⟩ := List.append_of_mem hf
  obtain ⟨a, hbefore, hrest⟩ := runs_append.mp h
  obtain ⟨b, hbody, hbehind⟩ := runs_cons.mp hrest
  have ha : Q a := hbefore.invariant (fun f' hf' => hkeepQ f' (List.mem_append_left _ hf')) hout
  exact hbehind.invariant
    (fun f' hf' => hkeepR f' (List.mem_append_right _ (List.mem_cons_of_mem _ hf')))
    (hmakes a b ha hbody)

/-- Fields that are handled wherever the invariant holds are run through. -/
theorem runs_of_progress {Q : σ → Prop}
    (hstep : ∀ f ∈ fields, ∀ a, Q a → ∃ b, body f.1 f.2 a = .ok b ∧ Q b) (hout : Q out) :
    ∃ out', Runs body fields out out' ∧ Q out' := by
  induction fields generalizing out with
  | nil => exact ⟨out, runs_nil.mpr rfl, hout⟩
  | cons f fields ih =>
      obtain ⟨mid, hbody, hmid⟩ := hstep f (List.mem_cons_self ..) out hout
      obtain ⟨out', hrun, hout'⟩ :=
        ih (fun f' hf' => hstep f' (List.mem_cons_of_mem _ hf')) hmid
      exact ⟨out', runs_cons.mpr ⟨mid, hbody, hrun⟩, hout'⟩

end Runs

/-! ## Trees with the four entries in some order -/

/-- `FILE_NAME_MAX`. -/
def fileNameMax : Nat := 1024

/-- None of the four keys. -/
def OtherKey (key : List Byte) : Prop :=
  keyIs key "length" = false ∧ keyIs key "piece length" = false ∧ keyIs key "name" = false ∧
    keyIs key "pieces" = false

/-- A dictionary tree whose info dictionary has the four entries once each,
in any order and among any others. -/
structure MetaTree where
  length : Int
  pieceLength : Int
  name : List Byte
  pieces : List Byte
  /-- The other entries of the info dictionary. -/
  others : List Field
  /-- The info dictionary as it stands in the tree. -/
  info : List Field
  /-- The entries of the tree besides the info dictionary. -/
  rest : List Field
  /-- The entries of the tree. -/
  outer : List Field
  otherKeys : ∀ f ∈ others, OtherKey f.1
  oneInfo : ∀ f ∈ rest, keyIs f.1 "info" = false
  info_perm : info.Perm ((ascii "length", .int length) ::
    (ascii "piece length", .int pieceLength) :: (ascii "name", .str (some name)) ::
    (ascii "pieces", .str (some pieces)) :: others)
  outer_perm : outer.Perm ((ascii "info", .dict (entriesOf info)) :: rest)

namespace MetaTree

abbrev lengthField (t : MetaTree) : Field := (ascii "length", .int t.length)

abbrev pieceLengthField (t : MetaTree) : Field := (ascii "piece length", .int t.pieceLength)

abbrev nameField (t : MetaTree) : Field := (ascii "name", .str (some t.name))

abbrev piecesField (t : MetaTree) : Field := (ascii "pieces", .str (some t.pieces))

abbrev infoField (t : MetaTree) : Field := (ascii "info", .dict (entriesOf t.info))

def node (t : MetaTree) : Node := .dict (entriesOf t.outer)

/-- What the caller may expect: the loop returns, its copies stay inside the
arrays of the record and inside the string of hashes, and the record holds
the two values of the tree, the number of pieces and as many hashes. -/
structure Expected (t : MetaTree) (heap : Heap) (info : BtInfo) : Prop where
  length : info.length.toInt = t.length
  pieceLength : info.pieceLength.toInt = t.pieceLength
  numPieces : info.numPieces.toInt = ceilDiv t.length t.pieceLength
  hashes : (info.pieceHashes.length : Int) = info.numPieces.toInt
  inside : 20 * info.pieceHashes.length ≤ t.pieces.length
  nameFits : (cstr t.name).length < fileNameMax
  announceFits : ∀ f ∈ t.outer, keyIs f.1 "announce" = true →
    ∀ s, heap.valS f.2 = some s → (cstr s).length < fileNameMax

/-- The values come out as expected. -/
def Computes (t : MetaTree) (heap : Heap) (out : BtInfo) : Prop :=
  ∃ info, fillLoop heap (some t.node) out = .ok info ∧ t.Expected heap info

/-- The values and the order that the loop can handle. -/
structure Sound (t : MetaTree) : Prop where
  ordered : [t.lengthField, t.pieceLengthField, t.piecesField].Sublist t.info
  length_ge : -2 ^ 31 ≤ t.length
  length_lt : t.length < 2 ^ 31
  pieceLength_ge : -2 ^ 31 ≤ t.pieceLength
  pieceLength_lt : t.pieceLength < 2 ^ 31
  pieceLength_ne : t.pieceLength ≠ 0
  rounds : 0 < t.pieceLength ∨ t.pieceLength ∣ t.length
  count_nonneg : 0 ≤ ceilDiv t.length t.pieceLength
  count_pieces : 20 * ceilDiv t.length t.pieceLength ≤ t.pieces.length
  count_lt : 20 * ceilDiv t.length t.pieceLength < 2 ^ 31 + 20
  nameFits : (cstr t.name).length < fileNameMax
  announces : ∀ f ∈ t.outer, keyIs f.1 "announce" = true →
    ∃ s, f.2 = .str (some s) ∧ (cstr s).length < fileNameMax

/-- The number of hashes that get blocks. -/
def hashes (t : MetaTree) : Nat := (ceilDiv t.length t.pieceLength).toNat

/-! ## What the four entries do -/

section Fields

variable {t : MetaTree} {f : Field} {heap : Heap} {a b : BtInfo}

theorem mem_info : f ∈ t.info ↔ f = t.lengthField ∨ f = t.pieceLengthField ∨ f = t.nameField ∨
    f = t.piecesField ∨ f ∈ t.others := by
  rw [t.info_perm.mem_iff]
  simp only [List.mem_cons]

theorem pieceLengthField_mem : t.pieceLengthField ∈ t.info := mem_info.mpr (.inr (.inl rfl))

theorem piecesField_mem : t.piecesField ∈ t.info :=
  mem_info.mpr (.inr (.inr (.inr (.inl rfl))))

theorem infoField_mem : t.infoField ∈ t.outer :=
  t.outer_perm.mem_iff.mpr (List.mem_cons_self ..)

theorem fill_length : fillInfoEntry heap (ascii "length") (.int t.length) a
    = .ok { a with length := BitVec.ofInt 32 t.length } := by
  rw [fillInfoEntry, if_neg (by decide), if_pos (by decide), Heap.valI]

theorem fill_name : fillInfoEntry heap (ascii "name") (.str (some t.name)) a
    = .ok { a with name := cstr t.name } := by
  rw [fillInfoEntry, if_pos (by decide)]
  rfl

theorem fill_other (hf : f ∈ t.others) : fillInfoEntry heap f.1 f.2 a = .ok a := by
  obtain ⟨hlength, hpiece, hname, hpieces⟩ := t.otherKeys f hf
  simp [fillInfoEntry, hlength, hpiece, hname, hpieces]

theorem fill_pieceLength :
    fillInfoEntry heap (ascii "piece length") (.int t.pieceLength) a = .ok b ↔ ∃ n,
      countPieces a.length (BitVec.ofInt 32 t.pieceLength) = .ok n ∧
      b = { a with pieceLength := BitVec.ofInt 32 t.pieceLength, numPieces := n } := by
  rw [fillInfoEntry, if_neg (by decide), if_neg (by decide), if_pos (by decide)]
  simp only [Heap.valI]
  cases countPieces a.length (BitVec.ofInt 32 t.pieceLength) with
  | error stop => simp
  | ok n => simp [eq_comm]

theorem fill_pieces : fillInfoEntry heap (ascii "pieces") (.str (some t.pieces)) a = .ok b ↔
    20 * a.numPieces.toInt.toNat < 2 ^ 31 + 20 ∧
      b = { a with pieceHashes :=
        (List.range a.numPieces.toInt.toNat).map (pieceHash t.pieces heap.behind) } := by
  rw [fillInfoEntry, if_neg (by decide), if_neg (by decide), if_neg (by decide),
    if_pos (by decide)]
  simp only [Heap.valS]
  by_cases hmany : 2 ^ 31 + 20 ≤ 20 * a.numPieces.toInt.toNat
  · rw [if_pos hmany]
    exact iff_of_false (by simp) fun h => absurd h.1 (Nat.not_lt.mpr hmany)
  · rw [if_neg hmany, Except.ok.injEq, eq_comm, and_iff_right (by omega)]

/-- Everything an entry of the info dictionary can do. -/
theorem fill_cases (hf : f ∈ t.info) (h : fillInfoEntry heap f.1 f.2 a = .ok b) :
    (f = t.lengthField ∧ b = { a with length := BitVec.ofInt 32 t.length }) ∨
    (f = t.pieceLengthField ∧ ∃ n,
      countPieces a.length (BitVec.ofInt 32 t.pieceLength) = .ok n ∧
      b = { a with pieceLength := BitVec.ofInt 32 t.pieceLength, numPieces := n }) ∨
    (f = t.piecesField ∧ 20 * a.numPieces.toInt.toNat < 2 ^ 31 + 20 ∧
      b = { a with pieceHashes :=
        (List.range a.numPieces.toInt.toNat).map (pieceHash t.pieces heap.behind) }) ∨
    ∃ s, b = { a with name := s } := by
  rcases mem_info.mp hf with rfl | rfl | rfl | rfl | hother
  · rw [fill_length] at h
    exact .inl ⟨rfl, (Except.ok.inj h).symm⟩
  · exact .inr (.inl ⟨rfl, fill_pieceLength.mp h⟩)
  · rw [fill_name] at h
    exact .inr (.inr (.inr ⟨_, (Except.ok.inj h).symm⟩))
  · exact .inr (.inr (.inl ⟨rfl, fill_pieces.mp h⟩))
  · rw [fill_other hother] at h
    exact .inr (.inr (.inr ⟨a.name, (Except.ok.inj h).symm⟩))

/-- Only its own entry changes the length. -/
theorem fill_keeps_length (hf : f ∈ t.info) (hne : f ≠ t.lengthField)
    (h : fillInfoEntry heap f.1 f.2 a = .ok b) : b.length = a.length := by
  rcases fill_cases hf h with ⟨heq, -⟩ | ⟨-, n, -, rfl⟩ | ⟨-, -, rfl⟩ | ⟨s, rfl⟩
  · exact absurd heq hne
  · rfl
  · rfl
  · rfl

/-- And only the piece length the count. -/
theorem fill_keeps_numPieces (hf : f ∈ t.info) (hne : f ≠ t.pieceLengthField)
    (h : fillInfoEntry heap f.1 f.2 a = .ok b) : b.numPieces = a.numPieces := by
  rcases fill_cases hf h with ⟨-, rfl⟩ | ⟨heq, -⟩ | ⟨-, -, rfl⟩ | ⟨s, rfl⟩
  · rfl
  · exact absurd heq hne
  · rfl
  · rfl

end Fields

/-! ## What a run has filled in

The three stages in the order the record needs them. A stage that is reached
is kept by every entry, since an entry that comes again writes the same. -/

section Stages

variable {t : MetaTree} {f : Field} {heap : Heap} {a b out out' : BtInfo}

/-- The length is in. -/
def Measured (t : MetaTree) (a : BtInfo) : Prop := a.length = BitVec.ofInt 32 t.length

/-- And the pieces are counted. -/
structure Counted (t : MetaTree) (a : BtInfo) : Prop where
  measured : t.Measured a
  pieceLength : a.pieceLength = BitVec.ofInt 32 t.pieceLength
  count : countPieces (BitVec.ofInt 32 t.length) (BitVec.ofInt 32 t.pieceLength)
    = .ok a.numPieces

/-- And the hashes are copied. -/
structure Hashed (t : MetaTree) (a : BtInfo) : Prop where
  counted : t.Counted a
  hashes : a.pieceHashes.length = a.numPieces.toInt.toNat
  count_lt : 20 * a.numPieces.toInt.toNat < 2 ^ 31 + 20

theorem fill_measured (hf : f ∈ t.info) (ha : t.Measured a)
    (h : fillInfoEntry heap f.1 f.2 a = .ok b) : t.Measured b := by
  rcases fill_cases hf h with ⟨-, rfl⟩ | ⟨-, n, -, rfl⟩ | ⟨-, -, rfl⟩ | ⟨s, rfl⟩
  · exact rfl
  · exact ha
  · exact ha
  · exact ha

theorem fill_counted (hf : f ∈ t.info) (ha : t.Counted a)
    (h : fillInfoEntry heap f.1 f.2 a = .ok b) : t.Counted b := by
  have hmeasured := fill_measured hf ha.measured h
  rcases fill_cases hf h with ⟨-, rfl⟩ | ⟨-, n, hn, rfl⟩ | ⟨-, -, rfl⟩ | ⟨s, rfl⟩
  · exact ⟨hmeasured, ha.pieceLength, ha.count⟩
  · rw [ha.measured] at hn
    exact ⟨hmeasured, rfl, hn⟩
  · exact ⟨hmeasured, ha.pieceLength, ha.count⟩
  · exact ⟨hmeasured, ha.pieceLength, ha.count⟩

theorem fill_hashed (hf : f ∈ t.info) (ha : t.Hashed a)
    (h : fillInfoEntry heap f.1 f.2 a = .ok b) : t.Hashed b := by
  have hcounted := fill_counted hf ha.counted h
  have hsame : b.numPieces = a.numPieces :=
    Except.ok.inj (hcounted.count.symm.trans ha.counted.count)
  refine ⟨hcounted, ?_, by rw [hsame]; exact ha.count_lt⟩
  rcases fill_cases hf h with ⟨-, rfl⟩ | ⟨-, n, hn, rfl⟩ | ⟨-, -, rfl⟩ | ⟨s, rfl⟩
  · exact ha.hashes
  · rw [hsame]
    exact ha.hashes
  · rw [List.length_map, List.length_range]
  · exact ha.hashes

variable {fields before behind : List Field}

theorem subset_around (h : t.info = before ++ f :: behind) :
    before ⊆ t.info ∧ behind ⊆ t.info := by
  rw [h]
  exact ⟨List.subset_append_left _ _, fun f' hf' =>
    List.mem_append_right _ (List.mem_cons_of_mem _ hf')⟩

theorem run_measured (hsub : fields ⊆ t.info) (hlength : t.lengthField ∈ fields)
    (h : Runs (fillInfoEntry heap) fields out out') : t.Measured out' := by
  refine h.establishes (Q := fun _ => True) hlength ?_ (fun _ _ _ _ _ _ => trivial)
    (fun f hf a b => fill_measured (hsub hf)) trivial
  intro a b _ hbody
  rw [fill_length] at hbody
  exact Except.ok.inj hbody ▸ rfl

/-- With the length in front of the piece length and the hashes behind it, a
run goes through the three stages. -/
theorem run_hashed (hinfo : t.info = before ++ t.pieceLengthField :: behind)
    (hlength : t.lengthField ∈ before) (hpieces : t.piecesField ∈ behind)
    (h : Runs (fillInfoEntry heap) t.info out out') : t.Hashed out' := by
  obtain ⟨hbefore, hbehind⟩ := subset_around hinfo
  rw [hinfo] at h
  obtain ⟨a, hrun, hrest⟩ := runs_append.mp h
  obtain ⟨b, hbody, hrun'⟩ := runs_cons.mp hrest
  have ha : t.Measured a := run_measured hbefore hlength hrun
  have hb : t.Counted b := by
    obtain ⟨n, hn, rfl⟩ := fill_pieceLength.mp hbody
    rw [ha] at hn
    exact ⟨ha, rfl, hn⟩
  refine hrun'.establishes hpieces ?_ (fun f hf a b => fill_counted (hbehind hf))
    (fun f hf a b => fill_hashed (hbehind hf)) hb
  intro c d hc hbody'
  obtain ⟨hlt, rfl⟩ := fill_pieces.mp hbody'
  exact ⟨⟨hc.measured, hc.pieceLength, hc.count⟩, by rw [List.length_map, List.length_range], hlt⟩

/-! ## Where the entries stand -/

/-- An entry that the dictionary has once stands nowhere else. -/
theorem notMem_around {key : String} {l : List Field} (hperm : t.info.Perm (f :: l))
    (hf : keyIs f.1 key = true) (hl : ∀ f' ∈ l, keyIs f'.1 key = false)
    (h : t.info = before ++ f :: behind) : f ∉ before ∧ f ∉ behind := by
  have haround := perm_around hperm h
  have hnot : f ∉ l := by
    intro hmem
    rw [hl f hmem] at hf
    cases hf
  rw [← haround.mem_iff, List.mem_append] at hnot
  exact not_or.mp hnot

theorem pieceLengthField_once (h : t.info = before ++ t.pieceLengthField :: behind) :
    t.pieceLengthField ∉ before ∧ t.pieceLengthField ∉ behind := by
  have hothers : ∀ f ∈ t.lengthField :: t.nameField :: t.piecesField :: t.others,
      keyIs f.1 "piece length" = false :=
    List.forall_mem_cons.mpr ⟨rfl, List.forall_mem_cons.mpr ⟨rfl, List.forall_mem_cons.mpr
      ⟨rfl, fun f hf => (t.otherKeys f hf).2.1⟩⟩⟩
  exact notMem_around (t.info_perm.trans (List.Perm.swap ..)) rfl hothers h

theorem piecesField_once (h : t.info = before ++ t.piecesField :: behind) :
    t.piecesField ∉ before ∧ t.piecesField ∉ behind := by
  have hothers : ∀ f ∈ t.lengthField :: t.pieceLengthField :: t.nameField :: t.others,
      keyIs f.1 "pieces" = false :=
    List.forall_mem_cons.mpr ⟨rfl, List.forall_mem_cons.mpr ⟨rfl, List.forall_mem_cons.mpr
      ⟨rfl, fun f hf => (t.otherKeys f hf).2.2.2⟩⟩⟩
  have hmiddle : ([t.lengthField, t.pieceLengthField, t.nameField] ++
      t.piecesField :: t.others).Perm (t.piecesField ::
        ([t.lengthField, t.pieceLengthField, t.nameField] ++ t.others)) := List.perm_middle
  exact notMem_around (t.info_perm.trans hmiddle) rfl hothers h

theorem fill_quiet (hf : f ∈ t.info) (hpiece : f ≠ t.pieceLengthField)
    (hpieces : f ≠ t.piecesField) : ∃ b, fillInfoEntry heap f.1 f.2 a = .ok b := by
  rcases mem_info.mp hf with rfl | rfl | rfl | rfl | hother
  · exact ⟨_, fill_length⟩
  · exact absurd rfl hpiece
  · exact ⟨_, fill_name⟩
  · exact absurd rfl hpieces
  · exact ⟨a, fill_other hother⟩

/-- Once the pieces are counted every entry is handled, if the last product
fits. -/
theorem fill_of_counted (hf : f ∈ t.info) (ha : t.Counted a)
    (hlt : 20 * a.numPieces.toInt.toNat < 2 ^ 31 + 20) :
    ∃ b, fillInfoEntry heap f.1 f.2 a = .ok b := by
  by_cases hpiece : f = t.pieceLengthField
  · subst hpiece
    exact ⟨_, fill_pieceLength.mpr ⟨a.numPieces, by rw [ha.measured, ha.count], rfl⟩⟩
  by_cases hpieces : f = t.piecesField
  · subst hpieces
    exact ⟨_, fill_pieces.mpr ⟨hlt, rfl⟩⟩
  · exact fill_quiet hf hpiece hpieces

/-- In that order the run goes through, if moreover the division does not
trap. -/
theorem exists_run (hinfo : t.info = before ++ t.pieceLengthField :: behind)
    (hlength : t.lengthField ∈ before) (hpieces : t.piecesField ∈ behind) {n : CInt}
    (hcount : countPieces (BitVec.ofInt 32 t.length) (BitVec.ofInt 32 t.pieceLength) = .ok n)
    (hlt : 20 * n.toInt.toNat < 2 ^ 31 + 20) :
    ∃ out', Runs (fillInfoEntry heap) t.info out out' := by
  obtain ⟨hbefore, hbehind⟩ := subset_around hinfo
  have hnotPiece := (pieceLengthField_once hinfo).1
  have hnotPieces : t.piecesField ∉ before := by
    obtain ⟨s, s', hsplit⟩ := List.append_of_mem hpieces
    have hinfo' : t.info = (before ++ t.pieceLengthField :: s) ++ t.piecesField :: s' := by
      rw [hinfo, hsplit, List.append_assoc, List.cons_append]
    exact fun hmem => (piecesField_once hinfo').1 (List.mem_append_left _ hmem)
  obtain ⟨a, hrun, -⟩ : ∃ a, Runs (fillInfoEntry heap) before out a ∧ True := by
    refine runs_of_progress ?_ trivial
    intro f hf a _
    obtain ⟨b, hb⟩ : ∃ b, fillInfoEntry heap f.1 f.2 a = .ok b :=
      fill_quiet (hbefore hf) (ne_of_mem_of_not_mem hf hnotPiece)
        (ne_of_mem_of_not_mem hf hnotPieces)
    exact ⟨b, hb, trivial⟩
  have ha : t.Measured a := run_measured hbefore hlength hrun
  have hbody : fillInfoEntry heap (ascii "piece length") (.int t.pieceLength) a = .ok
      { a with pieceLength := BitVec.ofInt 32 t.pieceLength, numPieces := n } :=
    fill_pieceLength.mpr ⟨n, by rw [ha, hcount], rfl⟩
  have hcounted : t.Counted
      { a with pieceLength := BitVec.ofInt 32 t.pieceLength, numPieces := n } :=
    ⟨ha, rfl, hcount⟩
  obtain ⟨out', hrun', -⟩ : ∃ out', Runs (fillInfoEntry heap) behind
      { a with pieceLength := BitVec.ofInt 32 t.pieceLength, numPieces := n } out' ∧
      t.Counted out' := by
    refine runs_of_progress ?_ hcounted
    intro f hf c hc
    have hsame : c.numPieces = n := Except.ok.inj (hc.count.symm.trans hcount)
    obtain ⟨b, hb⟩ : ∃ b, fillInfoEntry heap f.1 f.2 c = .ok b :=
      fill_of_counted (hbehind hf) hc (hsame ▸ hlt)
    exact ⟨b, hb, fill_counted (hbehind hf) hc hb⟩
  exact ⟨out', hinfo ▸ runs_append.mpr ⟨a, hrun, runs_cons.mpr ⟨_, hbody, hrun'⟩⟩⟩

/-! ## Every other order

If the length comes late, the count is that of what the record held before;
if the hashes come early, the loop over them runs to what it held before. -/

/-- A count that is returned was not one that traps. -/
theorem countPieces_ok {length pieceLength n : CInt}
    (h : countPieces length pieceLength = .ok n) :
    pieceLength ≠ 0 ∧ n.toInt = length.toInt.tdiv pieceLength.toInt
      + if 0 < length.toInt.tmod pieceLength.toInt then 1 else 0 := by
  by_cases htrap : pieceLength = 0 ∨ (length = BitVec.intMin 32 ∧ pieceLength = -1)
  · rw [countPieces, if_pos htrap] at h
    cases h
  · rw [not_or] at htrap
    obtain ⟨m, hm, hvalue⟩ := countPieces_eq htrap.1 htrap.2
    rw [hm] at h
    exact ⟨htrap.1, Except.ok.inj h ▸ hvalue⟩

/-- The count is that of the length the record had in front of the piece
length. -/
theorem run_count (hinfo : t.info = before ++ t.pieceLengthField :: behind)
    (hlate : t.lengthField ∉ before) (h : Runs (fillInfoEntry heap) t.info out out') :
    countPieces out.length (BitVec.ofInt 32 t.pieceLength) = .ok out'.numPieces := by
  obtain ⟨hbefore, hbehind⟩ := subset_around hinfo
  have honce := (pieceLengthField_once hinfo).2
  rw [hinfo] at h
  obtain ⟨a, hrun, hrest⟩ := runs_append.mp h
  obtain ⟨b, hbody, hrun'⟩ := runs_cons.mp hrest
  have ha : a.length = out.length := hrun.keeps (g := BtInfo.length) fun f hf _ _ =>
    fill_keeps_length (hbefore hf) (ne_of_mem_of_not_mem hf hlate)
  have hb : out'.numPieces = b.numPieces := hrun'.keeps (g := BtInfo.numPieces) fun f hf _ _ =>
    fill_keeps_numPieces (hbehind hf) (ne_of_mem_of_not_mem hf honce)
  obtain ⟨n, hn, rfl⟩ := fill_pieceLength.mp hbody
  rw [hb, ← ha, hn]

theorem length_first {c : Int} (hinfo : t.info = before ++ t.pieceLengthField :: behind)
    (hruns : ∀ l : CInt, ∃ a b, a.length = l ∧ Runs (fillInfoEntry heap) t.info a b ∧
      b.numPieces.toInt = c) : t.lengthField ∈ before := by
  by_contra hlate
  obtain ⟨a, b, ha, hrun, hb⟩ := hruns 0
  obtain ⟨a', b', ha', hrun', hb'⟩ := hruns (BitVec.ofInt 32 t.pieceLength)
  obtain ⟨hzero, hnone⟩ := countPieces_ok (run_count hinfo hlate hrun)
  have hone := (countPieces_ok (run_count hinfo hlate hrun')).2
  have hne : (BitVec.ofInt 32 t.pieceLength).toInt ≠ 0 := by
    rw [ne_eq, ← BitVec.toInt_zero (w := 32), BitVec.toInt_inj]
    exact hzero
  -- no pieces of nothing, but one of a length that is the piece length
  have hzero' : (0 : CInt).toInt = 0 := rfl
  rw [ha, hb, hzero', Int.zero_tdiv, Int.zero_tmod, if_neg (by omega)] at hnone
  rw [ha', hb', Int.tdiv_self hne, Int.tmod_self, if_neg (by omega)] at hone
  omega

theorem pieces_last (hinfo : t.info = before ++ t.pieceLengthField :: behind)
    (hruns : ∃ a b, a.numPieces = BitVec.intMax 32 ∧ Runs (fillInfoEntry heap) t.info a b) :
    t.piecesField ∈ behind := by
  by_contra hnot
  have hbefore := (subset_around hinfo).1
  have honce := (pieceLengthField_once hinfo).1
  have hearly : t.piecesField ∈ before := by
    have hmem := piecesField_mem (t := t)
    rw [hinfo, List.mem_append, List.mem_cons] at hmem
    rcases hmem with hmem | heq | hmem
    · exact hmem
    · have hkeys : ascii "pieces" = ascii "piece length" := congrArg Prod.fst heq
      exact absurd hkeys (by decide)
    · exact absurd hmem hnot
  obtain ⟨a, b, ha, h⟩ := hruns
  rw [hinfo] at h
  obtain ⟨m, hrun, -⟩ := runs_append.mp h
  -- the hashes come while the count is what it was
  refine hrun.establishes (Q := fun x => x.numPieces = BitVec.intMax 32) (R := fun _ => False)
    hearly ?_ ?_ (fun _ _ _ _ hx _ => hx) ha
  · intro x y hx hbody
    obtain ⟨hlt, -⟩ := fill_pieces.mp hbody
    rw [hx] at hlt
    exact absurd hlt (by decide)
  · intro f hf x y hx hbody
    rw [fill_keeps_numPieces (hbefore hf) (ne_of_mem_of_not_mem hf honce) hbody]
    exact hx

end Stages

/-! ## The outer loop -/

section Outer

variable {t : MetaTree} {f : Field} {heap : Heap} {a b out out' : BtInfo}

/-- What the info dictionary fills in, apart from the name. -/
def numbers (a : BtInfo) : CInt × CInt × CInt × List Digest :=
  (a.length, a.pieceLength, a.numPieces, a.pieceHashes)

theorem fillEntry_keeps_numbers (hinfo : keyIs f.1 "info" = false)
    (h : fillEntry heap f.1 f.2 a = .ok b) : numbers b = numbers a := by
  rw [fillEntry, hinfo] at h
  by_cases hannounce : keyIs f.1 "announce" = true
  · rw [if_pos hannounce] at h
    cases hs : heap.valS f.2 with
    | none => rw [hs] at h; cases h
    | some s =>
        rw [hs] at h
        exact Except.ok.inj h ▸ rfl
  · rw [if_neg hannounce] at h
    exact Except.ok.inj h ▸ rfl

theorem fillEntry_info (fields : List Field) :
    fillEntry heap (ascii "info") (.dict (entriesOf fields)) a = .ok b ↔
      Runs (fillInfoEntry heap) fields a b := by
  rw [fillEntry, if_neg (by decide), if_pos (by decide)]
  rfl

/-- The run over the tree is a run over the info dictionary, as far as the
numbers go. -/
theorem runs_outer (h : Runs (fillEntry heap) t.outer out out') :
    ∃ a b, Runs (fillInfoEntry heap) t.info a b ∧ numbers a = numbers out ∧
      numbers out' = numbers b := by
  obtain ⟨before, behind, houter⟩ := List.append_of_mem (infoField_mem (t := t))
  have haround := perm_around t.outer_perm houter
  have hrest : ∀ f ∈ before ++ behind, keyIs f.1 "info" = false :=
    fun f hf => t.oneInfo f (haround.mem_iff.mp hf)
  rw [houter] at h
  obtain ⟨a, hrun, hbehind⟩ := runs_append.mp h
  obtain ⟨b, hbody, hrun'⟩ := runs_cons.mp hbehind
  exact ⟨a, b, (fillEntry_info t.info).mp hbody,
    hrun.keeps (g := numbers) fun f hf _ _ =>
      fillEntry_keeps_numbers (hrest f (List.mem_append_left _ hf)),
    hrun'.keeps (g := numbers) fun f hf _ _ =>
      fillEntry_keeps_numbers (hrest f (List.mem_append_right _ hf))⟩

/-- It goes through if that run does and every tracker is a string. -/
theorem exists_runs_outer
    (hannounces : ∀ f ∈ t.outer, keyIs f.1 "announce" = true → ∃ s, f.2 = .str (some s))
    (hinner : ∀ a, ∃ b, Runs (fillInfoEntry heap) t.info a b) :
    ∃ out', Runs (fillEntry heap) t.outer out out' := by
  obtain ⟨out', h, -⟩ : ∃ out', Runs (fillEntry heap) t.outer out out' ∧ True := by
    refine runs_of_progress ?_ trivial
    intro f hf a _
    rcases List.mem_cons.mp (t.outer_perm.mem_iff.mp hf) with rfl | hrest
    · obtain ⟨b, hb⟩ := hinner a
      exact ⟨b, (fillEntry_info t.info).mpr hb, trivial⟩
    · rw [fillEntry, t.oneInfo f hrest]
      by_cases hannounce : keyIs f.1 "announce" = true
      · obtain ⟨s, hs⟩ := hannounces f hf hannounce
        rw [if_pos hannounce, hs]
        exact ⟨_, rfl, trivial⟩
      · rw [if_neg hannounce]
        exact ⟨_, rfl, trivial⟩
  exact ⟨out', h⟩

/-- A tracker that is run through is a string. -/
theorem announce_known (h : Runs (fillEntry heap) t.outer out out') (hf : f ∈ t.outer)
    (hannounce : keyIs f.1 "announce" = true) : ∃ s, heap.valS f.2 = some s := by
  by_contra hnone
  refine h.establishes (Q := fun _ => True) (R := fun _ => False) hf ?_
    (fun _ _ _ _ _ _ => trivial) (fun _ _ _ _ hx _ => hx) trivial
  intro x y _ hbody
  rw [fillEntry, if_pos hannounce] at hbody
  cases hs : heap.valS f.2 with
  | none => rw [hs] at hbody; cases hbody
  | some s => exact hnone ⟨s, hs⟩

end Outer

/-! ## When the extraction is right -/

section Sound

variable {t : MetaTree} {heap : Heap} {a b out info : BtInfo}

theorem numbers_eq : numbers a = numbers b ↔ a.length = b.length ∧
    a.pieceLength = b.pieceLength ∧ a.numPieces = b.numPieces ∧
    a.pieceHashes = b.pieceHashes := by
  simp only [numbers, Prod.mk.injEq]

theorem Hashed.of_numbers (h : t.Hashed a) (hsame : numbers b = numbers a) : t.Hashed b := by
  obtain ⟨hlength, hpiece, hcount, hhashes⟩ := numbers_eq.mp hsame
  exact ⟨⟨hlength.trans h.counted.measured, hpiece.trans h.counted.pieceLength,
    hcount ▸ h.counted.count⟩, by rw [hhashes, hcount, h.hashes], hcount ▸ h.count_lt⟩

theorem ordered_iff : [t.lengthField, t.pieceLengthField, t.piecesField].Sublist t.info ↔
    ∃ before behind, t.info = before ++ t.pieceLengthField :: behind ∧
      t.lengthField ∈ before ∧ t.piecesField ∈ behind := by
  constructor
  · intro h
    obtain ⟨s, s', hs, hlength, h⟩ := List.cons_sublist_iff.mp h
    obtain ⟨u, u', hu, hpiece, h⟩ := List.cons_sublist_iff.mp h
    obtain ⟨v, v', rfl⟩ := List.append_of_mem hpiece
    refine ⟨s ++ v, v' ++ u', ?_, List.mem_append_left _ hlength,
      List.mem_append_right _ (List.singleton_sublist.mp h)⟩
    rw [hs, hu, List.append_assoc, List.append_assoc, List.cons_append]
  · rintro ⟨before, behind, h, hlength, hpieces⟩
    rw [h]
    exact (List.singleton_sublist.mpr hlength).append
      ((List.singleton_sublist.mpr hpieces).cons_cons _)

theorem toInt_ofInt_of_range {v : Int} (hlow : -2 ^ 31 ≤ v) (hhigh : v < 2 ^ 31) :
    (BitVec.ofInt 32 v).toInt = v := by
  rw [BitVec.toInt_ofInt, Int.bmod_eq_of_le (by omega) (by omega)]

/-- What the tree must be like for its numbers to come out right. -/
theorem Hashed.sound_numbers (h : t.Hashed info) (he : t.Expected heap info) :
    t.pieceLength ≠ 0 ∧ (0 < t.pieceLength ∨ t.pieceLength ∣ t.length) ∧
      0 ≤ ceilDiv t.length t.pieceLength ∧
      20 * ceilDiv t.length t.pieceLength ≤ t.pieces.length ∧
      20 * ceilDiv t.length t.pieceLength < 2 ^ 31 + 20 := by
  obtain ⟨hzero, hcount⟩ := countPieces_ok h.counted.count
  rw [← h.counted.measured, ← h.counted.pieceLength, he.length, he.pieceLength,
    he.numPieces] at hcount
  have hne : t.pieceLength ≠ 0 := by
    intro heq
    rw [heq] at hzero
    exact hzero rfl
  have hhashes := he.hashes
  have hinside := he.inside
  have hlt := h.count_lt
  have hlen := h.hashes
  rw [he.numPieces] at hhashes hlt hlen
  exact ⟨hne, (quotient_eq_ceilDiv_iff hne).mp hcount.symm, by omega, by omega, by omega⟩

/-- And that it is enough. -/
theorem Sound.count (h : t.Sound) : ∃ n, countPieces (BitVec.ofInt 32 t.length)
    (BitVec.ofInt 32 t.pieceLength) = .ok n ∧ n.toInt = ceilDiv t.length t.pieceLength := by
  have hlength := toInt_ofInt_of_range h.length_ge h.length_lt
  have hpiece := toInt_ofInt_of_range h.pieceLength_ge h.pieceLength_lt
  have hzero : BitVec.ofInt 32 t.pieceLength ≠ 0 := by
    intro heq
    rw [heq] at hpiece
    exact h.pieceLength_ne hpiece.symm
  have htrap : ¬(BitVec.ofInt 32 t.length = BitVec.intMin 32 ∧
      BitVec.ofInt 32 t.pieceLength = -1) := by
    -- that quotient is too large for the products of the copies
    rintro ⟨hmin, hminus⟩
    rw [hmin] at hlength
    rw [hminus] at hpiece
    have hbig := h.count_lt
    rw [← hlength, ← hpiece] at hbig
    exact absurd hbig (by decide)
  obtain ⟨n, hn, hvalue⟩ := countPieces_eq hzero htrap
  rw [hlength, hpiece, (quotient_eq_ceilDiv_iff h.pieceLength_ne).mpr h.rounds] at hvalue
  exact ⟨n, hn, hvalue⟩

theorem Sound.expected (h : t.Sound) (hinfo : t.Hashed info) : t.Expected heap info := by
  obtain ⟨n, hn, hvalue⟩ := h.count
  have hcount : info.numPieces = n := Except.ok.inj (hinfo.counted.count.symm.trans hn)
  have hnumPieces : info.numPieces.toInt = ceilDiv t.length t.pieceLength := hcount ▸ hvalue
  have hnonneg := h.count_nonneg
  have hpieces := h.count_pieces
  have hlen := hinfo.hashes
  refine ⟨?_, ?_, hnumPieces, by omega, by omega, h.nameFits, ?_⟩
  · rw [hinfo.counted.measured, toInt_ofInt_of_range h.length_ge h.length_lt]
  · rw [hinfo.counted.pieceLength, toInt_ofInt_of_range h.pieceLength_ge h.pieceLength_lt]
  · intro f hf hannounce s hs
    obtain ⟨s', hs', hfits⟩ := h.announces f hf hannounce
    rw [hs'] at hs
    exact Option.some.inj hs ▸ hfits

theorem Sound.computes (h : t.Sound) (heap : Heap) (out : BtInfo) : t.Computes heap out := by
  obtain ⟨before, behind, hinfo, hlength, hpieces⟩ := ordered_iff.mp h.ordered
  obtain ⟨n, hn, hvalue⟩ := h.count
  have hlt : 20 * n.toInt.toNat < 2 ^ 31 + 20 := by
    have := h.count_lt
    omega
  have hannounces : ∀ f ∈ t.outer, keyIs f.1 "announce" = true → ∃ s, f.2 = .str (some s) :=
    fun f hf hannounce => (h.announces f hf hannounce).imp fun _ hs => hs.1
  obtain ⟨out', hrun⟩ : ∃ out', Runs (fillEntry heap) t.outer out out' :=
    exists_runs_outer hannounces fun _ => exists_run hinfo hlength hpieces hn hlt
  obtain ⟨a, b, hinner, -, hnumbers⟩ := runs_outer hrun
  have hhashed : t.Hashed out' := (run_hashed hinfo hlength hpieces hinner).of_numbers hnumbers
  exact ⟨out', hrun, h.expected hhashed⟩

/-- Memory in which no other member of a union reads as a string. -/
def quietHeap : Heap := ⟨fun _ => 0, fun _ => none, fun _ => 0, fun _ => none⟩

/-- A record with this length and this number of pieces. -/
def leftover (length numPieces : CInt) : BtInfo := ⟨[], [], 0, length, numPieces, []⟩

/-- If it comes out right whatever `malloc` returned, the tree is sound. -/
theorem sound_of_computes (h : ∀ heap out, t.Computes heap out) : t.Sound := by
  obtain ⟨before, behind, hinfo⟩ := List.append_of_mem (pieceLengthField_mem (t := t))
  have hrun : ∀ l n : CInt, ∃ a b info, a.length = l ∧ a.numPieces = n ∧
      Runs (fillInfoEntry quietHeap) t.info a b ∧ numbers info = numbers b ∧
      Runs (fillEntry quietHeap) t.outer (leftover l n) info ∧ t.Expected quietHeap info := by
    intro l n
    obtain ⟨info, houter, he⟩ := h quietHeap (leftover l n)
    obtain ⟨a, b, hinner, ha, hnumbers⟩ := runs_outer houter
    obtain ⟨hlength, -, hcount, -⟩ := numbers_eq.mp ha
    exact ⟨a, b, info, hlength, hcount, hinner, hnumbers, houter, he⟩
  have hlength : t.lengthField ∈ before := by
    have hcounts : ∀ l : CInt, ∃ a b, a.length = l ∧ Runs (fillInfoEntry quietHeap) t.info a b ∧
        b.numPieces.toInt = ceilDiv t.length t.pieceLength := by
      intro l
      obtain ⟨a, b, info, ha, -, hinner, hnumbers, -, he⟩ := hrun l 0
      exact ⟨a, b, ha, hinner, (numbers_eq.mp hnumbers).2.2.1 ▸ he.numPieces⟩
    exact length_first hinfo hcounts
  have hpieces : t.piecesField ∈ behind := by
    obtain ⟨a, b, -, -, ha, hinner, -⟩ := hrun 0 (BitVec.intMax 32)
    exact pieces_last hinfo ⟨a, b, ha, hinner⟩
  obtain ⟨a, b, info, -, -, hinner, hnumbers, houter, he⟩ := hrun 0 0
  have hhashed : t.Hashed info := (run_hashed hinfo hlength hpieces hinner).of_numbers hnumbers
  obtain ⟨hne, hrounds, hnonneg, hpiecesFit, hlt⟩ := hhashed.sound_numbers he
  refine ⟨ordered_iff.mpr ⟨before, behind, hinfo, hlength, hpieces⟩,
    he.length ▸ BitVec.le_toInt info.length, he.length ▸ BitVec.toInt_lt,
    he.pieceLength ▸ BitVec.le_toInt info.pieceLength, he.pieceLength ▸ BitVec.toInt_lt,
    hne, hrounds, hnonneg, hpiecesFit, hlt, he.nameFits, ?_⟩
  intro f hf hannounce
  obtain ⟨s, hs⟩ := announce_known houter hf hannounce
  refine ⟨s, ?_, he.announceFits f hf hannounce s hs⟩
  cases hnode : f.2 with
  | str s' =>
      rw [hnode] at hs
      exact congrArg Node.str hs
  | int i => rw [hnode] at hs; cases hs
  | list l => rw [hnode] at hs; cases hs
  | dict d => rw [hnode] at hs; cases hs

/-- The two values stand in front of the hashes. -/
theorem Sound.in_front (h : t.Sound) {before behind : List Field}
    (hinfo : t.info = before ++ t.piecesField :: behind) :
    t.lengthField ∈ before ∧ t.pieceLengthField ∈ before := by
  obtain ⟨s, s', hsplit, hlength, hpieces⟩ := ordered_iff.mp h.ordered
  obtain ⟨u, u', rfl⟩ := List.append_of_mem hpieces
  have hinfo' : t.info = (s ++ t.pieceLengthField :: u) ++ t.piecesField :: u' := by
    rw [hsplit, List.append_assoc, List.cons_append]
  obtain ⟨hnot, hnot'⟩ := piecesField_once hinfo
  have hsame : before = s ++ t.pieceLengthField :: u :=
    ((List.append_cons_inj_of_notMem hnot hnot').mp (hinfo.symm.trans hinfo')).1
  rw [hsame]
  exact ⟨List.mem_append_left _ hlength, List.mem_append_right _ (List.mem_cons_self ..)⟩

end Sound

end MetaTree

end DubstepDucks.Bencode
