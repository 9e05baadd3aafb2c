import DubstepDucks.Bencode.Extraction
import DubstepDucks.Bencode.Record

/-!
# Bencode — the extraction in its block

The run on the values and the block of the record put together. The block has
room for less than half of the record, so a tree whose values come out right
comes out right in memory only if nothing that matters stands where the record
goes on: `MetaTree.Roomy`.
-/

namespace DubstepDucks.Bencode

open CMem
open Torrent (Stop)

namespace MetaTree

/-- The loop returns what is expected, in the block it has for the record. -/
def Extracts (t : MetaTree) (vacant : Vacancy) (heap : Heap) (out : BtInfo) : Prop :=
  ∃ info, fillRecord vacant heap (some t.node) out = .ok info ∧ t.Expected heap info

/-- What the loop writes behind the block of the record is nobody's: the
numbers from the start, and still when the hashes have their blocks; the name
and the trackers when they are copied. -/
structure Roomy (t : MetaTree) (vacant : Vacancy) : Prop where
  numbers : vacant.Holds 0 pieceLengthOffset 12
  numbers_hashed : vacant.Holds t.hashes pieceLengthOffset (recordSize - pieceLengthOffset)
  name : ∀ before behind, t.info = before ++ t.piecesField :: behind →
    (t.nameField ∈ before → vacant.Holds 0 nameOffset ((cstr t.name).length + 1)) ∧
    (t.nameField ∈ behind → vacant.Holds t.hashes nameOffset ((cstr t.name).length + 1))
  announces : ∀ front back, t.outer = front ++ t.infoField :: back →
    ∀ f s, keyIs f.1 "announce" = true → f.2 = .str (some s) →
      (f ∈ front → vacant.Holds 0 0 ((cstr s).length + 1)) ∧
      (f ∈ back → vacant.Holds t.hashes 0 ((cstr s).length + 1))

/-! ## The run in its block -/

section Places

variable {t : MetaTree} {f : Field} {vacant : Vacancy} {heap : Heap} {s s' : Filling}
  {fields before behind : List Field} {out info : BtInfo}

/-- The bytes that an entry of the info dictionary needs can be had. -/
def Held (vacant : Vacancy) (heap : Heap) (n : Nat) (f : Field) : Prop :=
  ∀ x ∈ infoExtents heap f.1 f.2, vacant.Holds n x.1 x.2

/-- And those that a tracker needs. -/
def AnnounceHeld (vacant : Vacancy) (heap : Heap) (n : Nat) (f : Field) : Prop :=
  keyIs f.1 "announce" = true → ∀ announce, heap.valS f.2 = some announce →
    vacant.Holds n 0 ((cstr announce).length + 1)

theorem placeInfo_iff : placeInfoEntry vacant heap f.1 f.2 s = .ok s' ↔
    fillInfoEntry heap f.1 f.2 s.info = .ok s'.info ∧
      s'.blocks = (if keyIs f.1 "pieces" then s'.info.pieceHashes.length else s.blocks) ∧
      Held vacant heap s'.blocks f := by
  obtain ⟨info', blocks'⟩ := s'
  rw [placeInfoEntry]
  cases hfill : fillInfoEntry heap f.1 f.2 s.info with
  | error stop => simp
  | ok info =>
      dsimp only
      by_cases hheld : ∀ x ∈ infoExtents heap f.1 f.2, vacant.Holds
          (if keyIs f.1 "pieces" then info.pieceHashes.length else s.blocks) x.1 x.2
      · rw [if_pos hheld, Except.ok.injEq, Filling.mk.injEq, Except.ok.injEq]
        constructor
        · rintro ⟨rfl, rfl⟩
          exact ⟨rfl, rfl, hheld⟩
        · rintro ⟨rfl, rfl, -⟩
          exact ⟨rfl, rfl⟩
      · rw [if_neg hheld]
        refine iff_of_false (by simp) ?_
        rintro ⟨hsame, rfl, hheld'⟩
        cases hsame
        exact hheld hheld'

/-- Entries that get no hash a block of its own: the run in place is the run on
the values, and each entry holds its bytes. -/
theorem runs_place {place : List Byte → Node → Filling → Except Stop Filling}
    {fill : List Byte → Node → BtInfo → Except Stop BtInfo} {held : Nat → Field → Prop}
    (hstep : ∀ f ∈ fields, ∀ s s', place f.1 f.2 s = .ok s' ↔
      fill f.1 f.2 s.info = .ok s'.info ∧ s'.blocks = s.blocks ∧ held s.blocks f) :
    Runs place fields s s' ↔
      Runs fill fields s.info s'.info ∧ s'.blocks = s.blocks ∧ ∀ f ∈ fields, held s.blocks f := by
  induction fields generalizing s with
  | nil =>
      rw [runs_nil, runs_nil]
      constructor
      · rintro rfl
        exact ⟨rfl, rfl, by simp⟩
      · rintro ⟨hinfo, hblocks, -⟩
        cases s
        cases s'
        exact congrArg₂ Filling.mk hinfo hblocks
  | cons f fields ih =>
      have hrest := fun s => ih (s := s) fun f hf => hstep f (List.mem_cons_of_mem _ hf)
      have hfirst := hstep f (List.mem_cons_self ..)
      rw [runs_cons, runs_cons, List.forall_mem_cons]
      constructor
      · rintro ⟨mid, hbody, hrun⟩
        obtain ⟨hfill, hblocks, hheld⟩ := (hfirst s mid).mp hbody
        obtain ⟨hrun, hsame, hall⟩ := (hrest mid).mp hrun
        rw [hblocks] at hsame hall
        exact ⟨⟨mid.info, hfill, hrun⟩, hsame, hheld, hall⟩
      · rintro ⟨⟨mid, hfill, hrun⟩, hsame, hheld, hall⟩
        exact ⟨⟨mid, s.blocks⟩, (hfirst s _).mpr ⟨hfill, rfl, hheld⟩,
          (hrest _).mpr ⟨hrun, hsame, hall⟩⟩

/-- Where no hashes come, the number of blocks stays. -/
theorem runs_place_quiet (hquiet : ∀ f ∈ fields, keyIs f.1 "pieces" = false) :
    Runs (placeInfoEntry vacant heap) fields s s' ↔
      Runs (fillInfoEntry heap) fields s.info s'.info ∧ s'.blocks = s.blocks ∧
        ∀ f ∈ fields, Held vacant heap s.blocks f := by
  refine @runs_place _ _ _ _ _ (Held vacant heap) fun f hf a b => ?_
  rw [placeInfo_iff, hquiet f hf, if_neg (by simp)]
  constructor
  · rintro ⟨hfill, hblocks, hheld⟩
    exact ⟨hfill, hblocks, hblocks ▸ hheld⟩
  · rintro ⟨hfill, hblocks, hheld⟩
    exact ⟨hfill, hblocks, hblocks ▸ hheld⟩

/-- The entries in front of the hashes are placed before these have blocks,
and the others afterwards. -/
theorem runs_place_info (hinfo : t.info = before ++ t.piecesField :: behind) :
    Runs (placeInfoEntry vacant heap) t.info s s' ↔
      Runs (fillInfoEntry heap) t.info s.info s'.info ∧
        s'.blocks = s'.info.pieceHashes.length ∧ (∀ f ∈ before, Held vacant heap s.blocks f) ∧
        ∀ f ∈ t.piecesField :: behind, Held vacant heap s'.blocks f := by
  have hquiet : ∀ f ∈ t.info, f ≠ t.piecesField → keyIs f.1 "pieces" = false := by
    intro f hf hne
    rcases mem_info.mp hf with rfl | rfl | rfl | rfl | hother
    · rfl
    · rfl
    · rfl
    · exact absurd rfl hne
    · exact (t.otherKeys f hother).2.2.2
  obtain ⟨hbefore, hbehind⟩ := subset_around hinfo
  obtain ⟨hnot, hnot'⟩ := piecesField_once hinfo
  have hfront := fun f hf => hquiet f (hbefore hf) (ne_of_mem_of_not_mem hf hnot)
  have hback := fun f hf => hquiet f (hbehind hf) (ne_of_mem_of_not_mem hf hnot')
  have hkey : keyIs t.piecesField.1 "pieces" = true := rfl
  -- nothing behind the hashes changes them
  have hkeeps : ∀ {a b : BtInfo}, Runs (fillInfoEntry heap) behind a b →
      b.pieceHashes = a.pieceHashes := by
    intro a b hrun
    refine hrun.keeps (g := BtInfo.pieceHashes) ?_
    intro f hf x y hbody
    rcases fill_cases (hbehind hf) hbody with ⟨-, rfl⟩ | ⟨-, n, -, rfl⟩ | ⟨rfl, -⟩ | ⟨name, rfl⟩
    · rfl
    · rfl
    · exact absurd hf hnot'
    · rfl
  rw [hinfo, runs_append, runs_append, List.forall_mem_cons]
  constructor
  · rintro ⟨a, hrun, hrest⟩
    obtain ⟨b, hbody, hrun'⟩ := runs_cons.mp hrest
    obtain ⟨hvalues, hsame, hall⟩ := (runs_place_quiet hfront).mp hrun
    obtain ⟨hfill, hblocks, hheld⟩ := placeInfo_iff.mp hbody
    obtain ⟨hvalues', hsame', hall'⟩ := (runs_place_quiet hback).mp hrun'
    rw [if_pos hkey, ← hkeeps hvalues'] at hblocks
    rw [← hsame'] at hheld hall'
    exact ⟨⟨a.info, hvalues, runs_cons.mpr ⟨b.info, hfill, hvalues'⟩⟩, hsame'.trans hblocks, hall,
      hheld, hall'⟩
  · rintro ⟨⟨a, hvalues, hrest⟩, hblocks, hall, hheld, hall'⟩
    obtain ⟨b, hfill, hvalues'⟩ := runs_cons.mp hrest
    refine ⟨⟨a, s.blocks⟩, (runs_place_quiet hfront).mpr ⟨hvalues, rfl, hall⟩,
      runs_cons.mpr ⟨⟨b, s'.blocks⟩, placeInfo_iff.mpr ⟨hfill, ?_, hheld⟩,
        (runs_place_quiet hback).mpr ⟨hvalues', rfl, hall'⟩⟩⟩
    rw [if_pos hkey, hblocks, hkeeps hvalues']

theorem placeEntry_info {entries : List Field} :
    placeEntry vacant heap (ascii "info") (.dict (entriesOf entries)) s = .ok s' ↔
      Runs (placeInfoEntry vacant heap) entries s s' := by
  rw [placeEntry, if_neg (by decide), if_pos (by decide)]
  rfl

theorem placeEntry_iff (hf : keyIs f.1 "info" = false) :
    placeEntry vacant heap f.1 f.2 s = .ok s' ↔
      fillEntry heap f.1 f.2 s.info = .ok s'.info ∧ s'.blocks = s.blocks ∧
        AnnounceHeld vacant heap s.blocks f := by
  obtain ⟨info', blocks'⟩ := s'
  rw [placeEntry, fillEntry, hf, AnnounceHeld]
  by_cases hannounce : keyIs f.1 "announce" = true
  · rw [if_pos hannounce, if_pos hannounce]
    cases heap.valS f.2 with
    | none => simp
    | some announce =>
        dsimp only
        by_cases hheld : vacant.Holds s.blocks 0 ((cstr announce).length + 1)
        · rw [if_pos hheld, Except.ok.injEq, Filling.mk.injEq, Except.ok.injEq]
          constructor
          · rintro ⟨hinfo, hblocks⟩
            refine ⟨hinfo, hblocks.symm, ?_⟩
            rintro - _ ⟨⟩
            exact hheld
          · rintro ⟨hinfo, hblocks, -⟩
            exact ⟨hinfo, hblocks.symm⟩
        · rw [if_neg hheld]
          refine iff_of_false (by simp) ?_
          rintro ⟨-, -, hheld'⟩
          exact hheld (hheld' hannounce announce rfl)
  · rw [if_neg hannounce, if_neg hannounce, if_neg (by simp), if_neg (by simp), Except.ok.injEq,
      Except.ok.injEq]
    constructor
    · rintro rfl
      exact ⟨rfl, rfl, fun hkey => absurd hkey hannounce⟩
    · rintro ⟨rfl, rfl, -⟩
      rfl

/-- The entries around the info dictionary. -/
theorem runs_place_outer (hrest : ∀ f ∈ fields, keyIs f.1 "info" = false) :
    Runs (placeEntry vacant heap) fields s s' ↔
      Runs (fillEntry heap) fields s.info s'.info ∧ s'.blocks = s.blocks ∧
        ∀ f ∈ fields, AnnounceHeld vacant heap s.blocks f :=
  runs_place fun f hf _ _ => placeEntry_iff (hrest f hf)

/-- The loop over a tree returns in the block of the record what it returns of
the values, if every entry can have its bytes. -/
theorem fillRecord_iff {front back : List Field}
    (hinfo : t.info = before ++ t.piecesField :: behind)
    (houter : t.outer = front ++ t.infoField :: back) :
    fillRecord vacant heap (some t.node) out = .ok info ↔
      fillLoop heap (some t.node) out = .ok info ∧
      ((∀ f ∈ before, Held vacant heap 0 f) ∧
        ∀ f ∈ t.piecesField :: behind, Held vacant heap info.pieceHashes.length f) ∧
      (∀ f ∈ front, AnnounceHeld vacant heap 0 f) ∧
        ∀ f ∈ back, AnnounceHeld vacant heap info.pieceHashes.length f := by
  have haround := perm_around t.outer_perm houter
  have hfront : ∀ f ∈ front, keyIs f.1 "info" = false :=
    fun f hf => t.oneInfo f (haround.mem_iff.mp (List.mem_append_left _ hf))
  have hback : ∀ f ∈ back, keyIs f.1 "info" = false :=
    fun f hf => t.oneInfo f (haround.mem_iff.mp (List.mem_append_right _ hf))
  have hkeeps : ∀ {a b : BtInfo}, Runs (fillEntry heap) back a b →
      b.pieceHashes = a.pieceHashes := by
    intro a b hrun
    have hnumbers := hrun.keeps (g := numbers) fun f hf _ _ =>
      fillEntry_keeps_numbers (hback f hf)
    exact congrArg (fun x => x.2.2.2) hnumbers
  have hrecord : fillRecord vacant heap (some t.node) out = .ok info ↔
      ∃ s', Runs (placeEntry vacant heap) t.outer ⟨out, 0⟩ s' ∧ s'.info = info := by
    show (forEntries (placeEntry vacant heap) (entriesOf t.outer) ⟨out, 0⟩).map Filling.info
      = .ok info ↔ _
    simp only [Runs]
    cases forEntries (placeEntry vacant heap) (entriesOf t.outer) ⟨out, 0⟩ with
    | error stop => simp [Except.map]
    | ok s => simp [Except.map]
  have hloop : fillLoop heap (some t.node) out = .ok info ↔
      Runs (fillEntry heap) t.outer out info := Iff.rfl
  rw [hrecord, hloop, houter]
  simp only [runs_append, runs_cons]
  constructor
  · rintro ⟨s', ⟨a, hrun, b, hbody, hrun'⟩, rfl⟩
    obtain ⟨hvalues, hsame, hall⟩ := (runs_place_outer hfront).mp hrun
    obtain ⟨hfill, hblocks, hheld, hheld'⟩ := (runs_place_info hinfo).mp (placeEntry_info.mp hbody)
    obtain ⟨hvalues', hsame', hall'⟩ := (runs_place_outer hback).mp hrun'
    rw [hkeeps hvalues', ← hblocks]
    rw [hsame] at hheld
    exact ⟨⟨a.info, hvalues, b.info, (fillEntry_info t.info).mpr hfill, hvalues'⟩,
      ⟨hheld, hheld'⟩, hall, hall'⟩
  · rintro ⟨⟨a, hvalues, b, hfill, hvalues'⟩, ⟨hheld, hheld'⟩, hall, hall'⟩
    rw [hkeeps hvalues'] at hheld' hall'
    refine ⟨⟨info, b.pieceHashes.length⟩, ⟨⟨a, 0⟩,
      (runs_place_outer hfront).mpr ⟨hvalues, rfl, hall⟩, ⟨b, b.pieceHashes.length⟩,
      placeEntry_info.mpr ((runs_place_info hinfo).mpr
        ⟨(fillEntry_info t.info).mp hfill, rfl, hheld, hheld'⟩),
      (runs_place_outer hback).mpr ⟨hvalues', rfl, hall'⟩⟩, rfl⟩

end Places

/-! ## When the block has room for it -/

section Roomy

variable {t : MetaTree} {f : Field} {vacant : Vacancy} {heap : Heap} {n : Nat}
  {before behind front back : List Field}

theorem held_length : Held vacant heap n t.lengthField ↔ vacant.Holds n lengthOffset 4 :=
  List.forall_mem_singleton

theorem held_pieceLength : Held vacant heap n t.pieceLengthField ↔
    vacant.Holds n pieceLengthOffset 4 ∧ vacant.Holds n numPiecesOffset 4 := by
  have hextents : infoExtents heap t.pieceLengthField.1 t.pieceLengthField.2
      = [(pieceLengthOffset, 4), (numPiecesOffset, 4)] := rfl
  rw [Held, hextents, List.forall_mem_cons, List.forall_mem_singleton]

theorem held_name : Held vacant heap n t.nameField ↔
    vacant.Holds n nameOffset ((cstr t.name).length + 1) :=
  List.forall_mem_singleton

theorem held_pieces : Held vacant heap n t.piecesField ↔
    vacant.Holds n pieceLengthOffset (recordSize - pieceLengthOffset) :=
  List.forall_mem_singleton

theorem held_other (hf : f ∈ t.others) : Held vacant heap n f := by
  obtain ⟨hlength, hpiece, hname, hpieces⟩ := t.otherKeys f hf
  simp [Held, infoExtents, hlength, hpiece, hname, hpieces]

/-- With room for the numbers and, where it stands, the name every entry has
its bytes. -/
theorem held_of_numbers (hf : f ∈ t.info) (hne : f ≠ t.piecesField)
    (hnumbers : vacant.Holds n pieceLengthOffset 12)
    (hname : f = t.nameField → vacant.Holds n nameOffset ((cstr t.name).length + 1)) :
    Held vacant heap n f := by
  rcases mem_info.mp hf with rfl | rfl | rfl | rfl | hother
  · exact held_length.mpr (hnumbers.mono (by decide) (by decide))
  · exact held_pieceLength.mpr
      ⟨hnumbers.mono (by decide) (by decide), hnumbers.mono (by decide) (by decide)⟩
  · exact held_name.mpr (hname rfl)
  · exact absurd rfl hne
  · exact held_other hother

theorem Roomy.held (h : t.Roomy vacant) (hinfo : t.info = before ++ t.piecesField :: behind) :
    (∀ f ∈ before, Held vacant heap 0 f) ∧
      ∀ f ∈ t.piecesField :: behind, Held vacant heap t.hashes f := by
  obtain ⟨hbefore, hbehind⟩ := subset_around hinfo
  obtain ⟨hnot, hnot'⟩ := piecesField_once hinfo
  obtain ⟨hname, hname'⟩ := h.name before behind hinfo
  refine ⟨fun f hf => ?_, List.forall_mem_cons.mpr
    ⟨held_pieces.mpr h.numbers_hashed, fun f hf => ?_⟩⟩
  · exact held_of_numbers (hbefore hf) (ne_of_mem_of_not_mem hf hnot) h.numbers
      fun heq => hname (heq ▸ hf)
  · exact held_of_numbers (hbehind hf) (ne_of_mem_of_not_mem hf hnot')
      (h.numbers_hashed.mono (by decide) (by decide)) fun heq => hname' (heq ▸ hf)

theorem Expected.hashes_eq {info : BtInfo} (h : t.Expected heap info) :
    info.pieceHashes.length = t.hashes := by
  have hhashes := h.hashes
  rw [h.numPieces] at hhashes
  rw [MetaTree.hashes, ← hhashes, Int.toNat_natCast]

theorem Extracts.computes {out : BtInfo} (h : t.Extracts vacant heap out) :
    t.Computes heap out := by
  obtain ⟨info, hrun, he⟩ := h
  obtain ⟨before, behind, hinfo⟩ := List.append_of_mem (piecesField_mem (t := t))
  obtain ⟨front, back, houter⟩ := List.append_of_mem (infoField_mem (t := t))
  exact ⟨info, ((fillRecord_iff hinfo houter).mp hrun).1, he⟩

/-- A tree whose numbers are all in front of its hashes and which is extracted
has its room. -/
theorem roomy_of_extracts (hsound : t.Sound) {out : BtInfo}
    (h : t.Extracts vacant heap out) : t.Roomy vacant := by
  obtain ⟨info, hrun, he⟩ := h
  have hheld : ∀ {before behind front back}, t.info = before ++ t.piecesField :: behind →
      t.outer = front ++ t.infoField :: back →
      ((∀ f ∈ before, Held vacant heap 0 f) ∧
        ∀ f ∈ t.piecesField :: behind, Held vacant heap t.hashes f) ∧
      (∀ f ∈ front, AnnounceHeld vacant heap 0 f) ∧
        ∀ f ∈ back, AnnounceHeld vacant heap t.hashes f := by
    intro before behind front back hinfo houter
    rw [← he.hashes_eq]
    exact ((fillRecord_iff hinfo houter).mp hrun).2
  obtain ⟨before, behind, hinfo⟩ := List.append_of_mem (piecesField_mem (t := t))
  obtain ⟨front, back, houter⟩ := List.append_of_mem (infoField_mem (t := t))
  obtain ⟨hlength, hpiece⟩ := hsound.in_front hinfo
  obtain ⟨⟨hfront, hbehind⟩, -⟩ := hheld hinfo houter
  obtain ⟨hpieceLength, hnumPieces⟩ := held_pieceLength.mp (hfront _ hpiece)
  refine ⟨?_, held_pieces.mp (hbehind _ (List.mem_cons_self ..)), ?_, ?_⟩
  · exact (hpieceLength.append (held_length.mp (hfront _ hlength))).append hnumPieces
  · intro before behind hinfo
    obtain ⟨⟨hfront, hbehind⟩, -⟩ := hheld hinfo houter
    exact ⟨fun hf => held_name.mp (hfront _ hf),
      fun hf => held_name.mp (hbehind _ (List.mem_cons_of_mem _ hf))⟩
  · intro front back houter f s hannounce hs
    obtain ⟨-, hfront, hback⟩ := hheld hinfo houter
    have hval : heap.valS f.2 = some s := by rw [hs]; rfl
    exact ⟨fun hf => hfront f hf hannounce s hval, fun hf => hback f hf hannounce s hval⟩

/-- With the hashes in a row behind the record there are no more of them than
leave its numbers alone. -/
theorem hashes_le_of_stacked (hsound : t.Sound) {out : BtInfo}
    (h : t.Extracts stacked heap out) : t.hashes ≤ 25 :=
  (stacked_holds_iff t.hashes).mp (roomy_of_extracts hsound h).numbers_hashed

/-- With room for it a sound tree is extracted. -/
theorem Sound.extracts (hsound : t.Sound) (hroomy : t.Roomy vacant) (heap : Heap)
    (out : BtInfo) : t.Extracts vacant heap out := by
  obtain ⟨info, hrun, he⟩ := hsound.computes heap out
  obtain ⟨before, behind, hinfo⟩ := List.append_of_mem (piecesField_mem (t := t))
  obtain ⟨front, back, houter⟩ := List.append_of_mem (infoField_mem (t := t))
  refine ⟨info, (fillRecord_iff hinfo houter).mpr ?_, he⟩
  rw [he.hashes_eq]
  have hannounce : ∀ f ∈ t.outer, ∀ n, (∀ s, keyIs f.1 "announce" = true → f.2 = .str (some s) →
      vacant.Holds n 0 ((cstr s).length + 1)) → AnnounceHeld vacant heap n f := by
    intro f hf n hroom hkey announce hval
    obtain ⟨s, hs, -⟩ := hsound.announces f hf hkey
    have hsame : s = announce := by
      rw [hs] at hval
      exact Option.some.inj hval
    exact hsame ▸ hroom s hkey hs
  refine ⟨hrun, hroomy.held hinfo, fun f hf => ?_, fun f hf => ?_⟩
  · exact hannounce f (houter ▸ List.mem_append_left _ hf) 0
      fun s hkey hs => (hroomy.announces front back houter f s hkey hs).1 hf
  · exact hannounce f (houter ▸ List.mem_append_right _ (List.mem_cons_of_mem _ hf)) t.hashes
      fun s hkey hs => (hroomy.announces front back houter f s hkey hs).2 hf

end Roomy

/-- The same entries, in whatever order. -/
structure Reorders (t' t : MetaTree) : Prop where
  length : t'.length = t.length
  pieceLength : t'.pieceLength = t.pieceLength
  name : t'.name = t.name
  pieces : t'.pieces = t.pieces
  others : t'.others = t.others
  rest : t'.rest = t.rest

/-- The piece length in front. -/
def pieceLengthFirst (t : MetaTree) : MetaTree where
  length := t.length
  pieceLength := t.pieceLength
  name := t.name
  pieces := t.pieces
  others := t.others
  info := t.pieceLengthField :: t.lengthField :: t.nameField :: t.piecesField :: t.others
  rest := t.rest
  outer := (ascii "info", .dict (entriesOf
    (t.pieceLengthField :: t.lengthField :: t.nameField :: t.piecesField :: t.others))) :: t.rest
  otherKeys := t.otherKeys
  oneInfo := t.oneInfo
  info_perm := List.Perm.swap ..
  outer_perm := List.Perm.refl _

theorem not_sound_pieceLengthFirst (t : MetaTree) : ¬ t.pieceLengthFirst.Sound := by
  intro h
  obtain ⟨before, behind, hinfo, hlength, -⟩ := ordered_iff.mp h.ordered
  have honce := (pieceLengthField_once hinfo).1
  cases before with
  | nil => cases hlength
  | cons f before =>
      have hhead : t.pieceLengthFirst.pieceLengthField = f := (List.cons.inj hinfo).1
      rw [hhead] at honce
      exact honce (List.mem_cons_self ..)

/-- **When the extraction is right.** A tree comes out right, whatever is in
memory, exactly if it is sound and the bytes its record has behind the block
are nobody's: the length stands in front of the piece length and the hashes
behind it, the values fit, there are enough hashes, and neither another block
nor those of the hashes come to lie where the record goes on. No values come
out right in every order. -/
theorem extraction_iff (t : MetaTree) (vacant : Vacancy) :
    ((∀ heap out, t.Extracts vacant heap out) ↔ t.Sound ∧ t.Roomy vacant) ∧
    ¬ ∀ t' : MetaTree, t'.Reorders t → ∀ heap out, t'.Extracts vacant heap out := by
  have hsound : ∀ {t : MetaTree}, (∀ heap out, t.Extracts vacant heap out) → t.Sound :=
    fun h => sound_of_computes fun heap out => Extracts.computes (h heap out)
  refine ⟨⟨fun h => ⟨hsound h, ?_⟩, fun h heap out => h.1.extracts h.2 heap out⟩, fun h => ?_⟩
  · exact roomy_of_extracts (hsound h) (h quietHeap (leftover 0 0))
  · have hreorders : t.pieceLengthFirst.Reorders t := ⟨rfl, rfl, rfl, rfl, rfl, rfl⟩
    exact not_sound_pieceLengthFirst t (hsound (h _ hreorders))

/-- A torrent file of one byte whose piece length is zero. -/
def zeroPieceLength : MetaTree where
  length := 1
  pieceLength := 0
  name := ascii "a"
  pieces := List.replicate 20 0
  others := []
  info := [(ascii "length", .int 1), (ascii "name", .str (some (ascii "a"))),
    (ascii "piece length", .int 0), (ascii "pieces", .str (some (List.replicate 20 0)))]
  rest := []
  outer := [(ascii "info", .dict (entriesOf [(ascii "length", .int 1),
    (ascii "name", .str (some (ascii "a"))), (ascii "piece length", .int 0),
    (ascii "pieces", .str (some (List.replicate 20 0)))]))]
  otherKeys := fun _ hf => absurd hf List.not_mem_nil
  oneInfo := fun _ hf => absurd hf List.not_mem_nil
  info_perm := (List.Perm.swap ..).cons _
  outer_perm := List.Perm.refl _

/-- The division traps, however much room there is. -/
theorem extraction_divides_by_zero :
    fillRecord (fun _ _ => true) quietHeap (some zeroPieceLength.node) (leftover 0 0)
        = .error .fault ∧
      ¬ zeroPieceLength.Extracts (fun _ _ => true) quietHeap (leftover 0 0) := by
  have hfault : fillRecord (fun _ _ => true) quietHeap (some zeroPieceLength.node)
      (leftover 0 0) = .error .fault := rfl
  refine ⟨hfault, ?_⟩
  rintro ⟨info, hok, -⟩
  rw [hfault] at hok
  cases hok

/-! ## The torrents of `encodeFile` -/

/-- Their trees. -/
def ofTorrent (address filename pieces : List Byte) (length : Nat) : MetaTree where
  length := length
  pieceLength := 256
  name := filename
  pieces := pieces
  others := []
  info := [(ascii "length", .int length), (ascii "name", .str (some filename)),
    (ascii "piece length", .int 256), (ascii "pieces", .str (some pieces))]
  rest := [(ascii "announce", .str (some address))]
  outer := [(ascii "announce", .str (some address)), (ascii "info", .dict (entriesOf
    [(ascii "length", .int length), (ascii "name", .str (some filename)),
      (ascii "piece length", .int 256), (ascii "pieces", .str (some pieces))]))]
  otherKeys := fun _ hf => absurd hf List.not_mem_nil
  oneInfo := List.forall_mem_singleton.mpr rfl
  info_perm := (List.Perm.swap ..).cons _
  outer_perm := List.Perm.swap ..

theorem node_ofTorrent (address filename pieces : List Byte) (length : Nat) :
    (ofTorrent address filename pieces length).node
      = (torrentValue address (infoValue filename length pieces)).node := by
  simp only [node, ofTorrent, entriesOf, torrentValue, infoValue, Value.node, dictEntries,
    List.map_cons, List.map_nil]

end MetaTree

/-- Where the record has its room, the loop fills it from the tree of a
torrent file. The address is short enough for the block. -/
theorem fillRecord_torrentValue (address filename : CString) (pieces : List Byte) {length : Nat}
    (hlength : length < 2 ^ 31) (haddress : address.chars.length < recordBlock)
    {vacant : Vacancy} (htakes : vacant.Takes filename.chars.length ((length + 255) / 256))
    (heap : Heap) (out : BtInfo) :
    fillRecord vacant heap
        (some (torrentValue address.chars (infoValue filename.chars length pieces)).node) out
      = .ok (torrentInfo address.chars filename.chars pieces length heap.behind) := by
  have hfill := fillLoop_torrentValue address filename pieces hlength heap out
  have hhashes : (torrentInfo address.chars filename.chars pieces length
      heap.behind).pieceHashes.length = (length + 255) / 256 := by
    rw [torrentInfo, List.length_map, List.length_range]
  rw [← MetaTree.node_ofTorrent] at hfill ⊢
  generalize ht : MetaTree.ofTorrent address.chars filename.chars pieces length = t at hfill ⊢
  have hinfo :
      t.info = [t.lengthField, t.nameField, t.pieceLengthField] ++ t.piecesField :: [] := by
    rw [← ht]
    rfl
  have houter : t.outer = [(ascii "announce", .str (some address.chars))] ++ t.infoField :: [] := by
    rw [← ht]
    rfl
  have hname : vacant.Holds 0 nameOffset ((cstr t.name).length + 1) := by
    rw [← ht]
    exact (cstr_of_nulFree filename.nulFree).symm ▸ htakes.name
  refine (MetaTree.fillRecord_iff hinfo houter).mpr ⟨hfill, ⟨?_, ?_⟩, ?_, by simp⟩
  · rw [List.forall_mem_cons, List.forall_mem_cons, List.forall_mem_singleton]
    exact ⟨MetaTree.held_length.mpr (htakes.numbers.mono (by decide) (by decide)),
      MetaTree.held_name.mpr hname, MetaTree.held_pieceLength.mpr
        ⟨htakes.numbers.mono (by decide) (by decide), htakes.numbers.mono (by decide) (by decide)⟩⟩
  · rw [hhashes]
    exact List.forall_mem_singleton.mpr (MetaTree.held_pieces.mpr htakes.numbers_hashed)
  · refine List.forall_mem_singleton.mpr fun _ announce hval i hi => .inl ?_
    cases hval
    rw [cstr_of_nulFree address.nulFree] at hi
    omega

theorem decodeRecord_torrentText {address filename pieces : CString} {length : Nat}
    (hlength : length < 2 ^ 31) (haddress : address.chars.length < recordBlock)
    (hsize : (torrentText address (infoText filename length pieces)).chars.length < buffSize)
    {vacant : Vacancy} (htakes : vacant.Takes filename.chars.length ((length + 255) / 256))
    (behind : List Byte) {fuel : Nat}
    (hfuel : (torrentText address (infoText filename length pieces)).chars.length ≤ fuel)
    (heap : Heap) (out : BtInfo) :
    decodeRecord vacant fuel (torrentText address (infoText filename length pieces)).chars behind
        heap out
      = some (.ok (torrentInfo address.chars filename.chars pieces.chars length heap.behind)) := by
  rw [decodeRecord, beDecoden_torrentText hlength hsize behind hfuel]
  exact congrArg some
    (fillRecord_torrentValue address filename pieces.chars hlength haddress htakes heap out)

end DubstepDucks.Bencode
