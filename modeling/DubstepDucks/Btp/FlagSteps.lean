import Mathlib.Data.List.Basic
import Mathlib.Data.List.Induction
import DubstepDucks.Btp.Connection

/-!
# Btp — the status flags against six booleans

What the record's flags are for is six independent booleans: each receive
or send concerns one of them. `FlagStep.intend` is that reading,
`FlagStep.apply` is what the handlers of `torrent.c` and the `Send_*`
functions do to the byte. The two agree on a step exactly when the step is
`Harmless` where it is taken: a clearing `Set_Flag` wipes the whole byte,
`Send_uninterested` and `Send_unchoked` clear nothing, and
`initialize_connection` keeps the bits it does not list.
-/

namespace DubstepDucks.Btp

open CMem

/-- The steps that concern the flags. -/
inductive FlagStep where
  | recvChoke | recvUnchoke | recvInterested | recvUninterested
  | sendInterested | sendUninterested | sendUnchoked
  | sendRequest (pieceIndex : CInt)
  | acceptPiece
  | drop
  deriving DecidableEq, Repr

/-- The step as the code takes it. -/
def FlagStep.apply (c : Connections) : FlagStep → Connections
  | .recvChoke => setFlag c .ownChoke 1
  | .recvUnchoke => setFlag c .ownChoke 0
  | .recvInterested => setFlag c .peerInterested 1
  | .recvUninterested => setFlag c .peerInterested 0
  | .sendInterested => (Btp.sendInterested c).1
  | .sendUninterested => (Btp.sendUninterested c).1
  | .sendUnchoked => (Btp.sendUnchoked c).1
  | .sendRequest p => (Btp.sendRequest c p).1
  | .acceptPiece => setFlag c .pendingRequest 0
  | .drop => setFlag c .connectionStatus 0

/-- The one flag the step is about, and the value it gives it. -/
def FlagStep.target : FlagStep → Flag × Bool
  | .recvChoke => (.ownChoke, true)
  | .recvUnchoke => (.ownChoke, false)
  | .recvInterested => (.peerInterested, true)
  | .recvUninterested => (.peerInterested, false)
  | .sendInterested => (.ownInterested, true)
  | .sendUninterested => (.ownInterested, false)
  | .sendUnchoked => (.peerChoke, false)
  | .sendRequest _ => (.pendingRequest, true)
  | .acceptPiece => (.pendingRequest, false)
  | .drop => (.connectionStatus, false)

/-- The step on six independent booleans. -/
def FlagStep.intend (a : Flags) (s : FlagStep) : Flags := a.set s.target.1 s.target.2

def applySteps (c : Connections) (steps : List FlagStep) : Connections :=
  steps.foldl FlagStep.apply c

def intendSteps (a : Flags) (steps : List FlagStep) : Flags := steps.foldl FlagStep.intend a

/-- No flag but possibly `f` is set. -/
def Flags.AtMost (a : Flags) (f : Flag) : Prop := ∀ g, g ≠ f → a g = false

/-- The flags in which the byte operation of the step does what it should. -/
def FlagStep.Harmless (a : Flags) : FlagStep → Prop
  | .recvUnchoke => a.AtMost .ownChoke
  | .recvUninterested => a.AtMost .peerInterested
  | .acceptPiece => a.AtMost .pendingRequest
  | .drop => a.AtMost .connectionStatus
  | .sendUninterested => a .ownInterested = false
  | .sendUnchoked => a .peerChoke = false
  | .recvChoke | .recvInterested | .sendInterested | .sendRequest _ => True

/-! ## One step -/

theorem Flags.clear_eq_set_iff (a : Flags) (f : Flag) :
    Flags.clear = a.set f false ↔ a.AtMost f := by
  constructor
  · intro h g hg
    have hclear := congrFun h g
    rw [Flags.set, if_neg hg] at hclear
    exact hclear.symm
  · intro h
    funext g
    by_cases hg : g = f
    · rw [Flags.set, if_pos hg]
      rfl
    · rw [Flags.set, if_neg hg, h g hg]
      rfl

theorem Flags.eq_set_iff (a : Flags) (f : Flag) (b : Bool) : a = a.set f b ↔ a f = b := by
  constructor
  · intro h
    have hf := congrFun h f
    rwa [Flags.set, if_pos rfl] at hf
  · intro h
    funext g
    by_cases hg : g = f
    · rw [Flags.set, if_pos hg, hg, h]
    · rw [Flags.set, if_neg hg]

/-- The byte follows the booleans over a step exactly when it is harmless. -/
theorem flags_apply_eq_intend_iff (c : Connections) (s : FlagStep) :
    (s.apply c).flags = s.intend c.flags ↔ s.Harmless c.flags := by
  cases s with
  | recvChoke => exact iff_of_true (flags_setFlag_one c _) trivial
  | recvInterested => exact iff_of_true (flags_setFlag_one c _) trivial
  | sendInterested => exact iff_of_true (flags_sendInterested c) trivial
  | sendRequest p => exact iff_of_true (flags_markRequested c p) trivial
  | recvUnchoke =>
      rw [FlagStep.apply, flags_setFlag_zero]
      exact Flags.clear_eq_set_iff c.flags _
  | recvUninterested =>
      rw [FlagStep.apply, flags_setFlag_zero]
      exact Flags.clear_eq_set_iff c.flags _
  | acceptPiece =>
      rw [FlagStep.apply, flags_setFlag_zero]
      exact Flags.clear_eq_set_iff c.flags _
  | drop =>
      rw [FlagStep.apply, flags_setFlag_zero]
      exact Flags.clear_eq_set_iff c.flags _
  | sendUninterested =>
      rw [FlagStep.apply, flags_sendUninterested]
      exact Flags.eq_set_iff c.flags _ _
  | sendUnchoked =>
      rw [FlagStep.apply, flags_sendUnchoked]
      exact Flags.eq_set_iff c.flags _ _

/-! ## Whole runs -/

theorem applySteps_concat (c : Connections) (pre : List FlagStep) (s : FlagStep) :
    applySteps c (pre ++ [s]) = s.apply (applySteps c pre) := by
  simp [applySteps]

theorem intendSteps_concat (a : Flags) (pre : List FlagStep) (s : FlagStep) :
    intendSteps a (pre ++ [s]) = s.intend (intendSteps a pre) := by
  simp [intendSteps]

/-- From any record: the byte follows the booleans through a run exactly
when it starts at them and every step is harmless where it is taken. -/
theorem flags_follow_iff (c : Connections) (a : Flags) (steps : List FlagStep) :
    (∀ pre, pre <+: steps → (applySteps c pre).flags = intendSteps a pre) ↔
      c.flags = a ∧ ∀ pre s, pre ++ [s] <+: steps → s.Harmless (intendSteps a pre) := by
  constructor
  · intro h
    refine ⟨h [] (List.nil_prefix), ?_⟩
    intro pre s hpre
    have hbefore := h pre ((List.prefix_append pre [s]).trans hpre)
    have hafter := h (pre ++ [s]) hpre
    rw [applySteps_concat, intendSteps_concat, ← hbefore, flags_apply_eq_intend_iff] at hafter
    rwa [hbefore] at hafter
  · rintro ⟨hstart, hsteps⟩ pre
    induction pre using List.reverseRecOn with
    | nil => intro _; exact hstart
    | append_singleton pre s ih =>
        intro hpre
        have hbefore := ih ((List.prefix_append pre [s]).trans hpre)
        rw [applySteps_concat, intendSteps_concat, ← hbefore, flags_apply_eq_intend_iff, hbefore]
        exact hsteps pre s hpre

/-- `initialize_connection` reaches its listed defaults exactly when none of
the flags it wants clear was set before. -/
theorem flags_initialize_eq_iff (before : Connections) (n : Nat) :
    (initializeConnection before n).flags = Flags.initial ↔
      ∀ f, Flags.initial f = false → before.flags f = false := by
  rw [flags_initializeConnection]
  constructor
  · intro h f hf
    have hor := congrFun h f
    rw [hf, Bool.or_false] at hor
    exact hor
  · intro h
    funext f
    cases hf : Flags.initial f with
    | true => simp
    | false => rw [h f hf, Bool.or_false]

/-- **The status flags refine six independent booleans** after every step of
a run from `initialize_connection` exactly when the record's previous
content had none of the flags set that start clear, and every step of the
run is harmless in the booleans it finds. -/
theorem status_flags_refine (before : Connections) (totalPieces : Nat) (steps : List FlagStep) :
    (∀ pre, pre <+: steps →
        (applySteps (initializeConnection before totalPieces) pre).flags
          = intendSteps Flags.initial pre) ↔
      (∀ f, Flags.initial f = false → before.flags f = false) ∧
        ∀ pre s, pre ++ [s] <+: steps → s.Harmless (intendSteps Flags.initial pre) := by
  rw [flags_follow_iff, flags_initialize_eq_iff]

/-! ## The condition in short

Both choke flags start set, and nothing harmless clears them. -/

/-- The steps that clear the byte or leave a set flag to be cleared. -/
def FlagStep.Clears : FlagStep → Prop
  | .recvUnchoke | .recvUninterested | .acceptPiece | .drop | .sendUnchoked => True
  | .recvChoke | .recvInterested | .sendInterested | .sendUninterested | .sendRequest _ => False

theorem not_harmless_of_clears {a : Flags} (ha : a .peerChoke = true) {s : FlagStep}
    (hs : s.Clears) : ¬ s.Harmless a := by
  have hset : ∀ {f : Flag}, Flag.peerChoke ≠ f → ¬ a.AtMost f := by
    intro f hne hmost
    rw [hmost .peerChoke hne] at ha
    cases ha
  cases s with
  | recvUnchoke => exact hset (by decide)
  | recvUninterested => exact hset (by decide)
  | acceptPiece => exact hset (by decide)
  | drop => exact hset (by decide)
  | sendUnchoked =>
      intro hclear
      rw [FlagStep.Harmless, ha] at hclear
      cases hclear
  | _ => exact hs.elim

/-- A step sets its target and leaves the other booleans alone. -/
theorem FlagStep.intend_apply (a : Flags) (s : FlagStep) (f : Flag) :
    s.intend a f = if f = s.target.1 then s.target.2 else a f := rfl

/-- Along steps none of which clears, the peer stays choked, and the own
interest is set by `Send_interested` alone. -/
theorem intended_quiet {pre : List FlagStep} (hquiet : ∀ s ∈ pre, ¬ s.Clears)
    (horder : ¬ [FlagStep.sendInterested, .sendUninterested].Sublist pre) :
    intendSteps Flags.initial pre .peerChoke = true ∧
      (intendSteps Flags.initial pre .ownInterested = true ↔ .sendInterested ∈ pre) := by
  induction pre using List.reverseRecOn with
  | nil => exact ⟨rfl, by decide⟩
  | append_singleton pre s ih =>
      obtain ⟨hchoked, hinterested⟩ := ih
        (fun s' hs' => hquiet s' (List.mem_append_left _ hs'))
        fun h => horder (h.trans (List.sublist_append_left pre [s]))
      have hs : ¬ s.Clears := hquiet s (List.mem_append_right _ (List.mem_singleton_self s))
      rw [intendSteps_concat, FlagStep.intend_apply, FlagStep.intend_apply, List.mem_append,
        List.mem_singleton]
      cases s with
      | recvChoke => exact ⟨hchoked, by simpa [FlagStep.target] using hinterested⟩
      | recvInterested => exact ⟨hchoked, by simpa [FlagStep.target] using hinterested⟩
      | sendRequest p => exact ⟨hchoked, by simpa [FlagStep.target] using hinterested⟩
      | sendInterested => exact ⟨hchoked, by simp [FlagStep.target]⟩
      | sendUninterested =>
          have hnot : FlagStep.sendInterested ∉ pre := fun hmem =>
            horder ((List.singleton_sublist.mpr hmem).append (List.Sublist.refl _))
          exact ⟨hchoked, by simpa [FlagStep.target] using hnot⟩
      | _ => exact absurd trivial hs

/-- Along such steps the next one is harmless if it clears nothing and is no
`Send_uninterested` behind a `Send_interested`. -/
theorem harmless_quiet_iff {pre : List FlagStep} (hquiet : ∀ s ∈ pre, ¬ s.Clears)
    (horder : ¬ [FlagStep.sendInterested, .sendUninterested].Sublist pre) (s : FlagStep) :
    s.Harmless (intendSteps Flags.initial pre) ↔
      ¬ s.Clears ∧ ¬ (s = .sendUninterested ∧ .sendInterested ∈ pre) := by
  obtain ⟨hchoked, hinterested⟩ := intended_quiet hquiet horder
  by_cases hs : s.Clears
  · exact iff_of_false (not_harmless_of_clears hchoked hs) fun h => h.1 hs
  · rw [and_iff_right hs]
    cases s with
    | sendUninterested =>
        rw [FlagStep.Harmless, ← hinterested, and_iff_right rfl, Bool.not_eq_true]
    | recvChoke => exact iff_of_true trivial (by simp)
    | recvInterested => exact iff_of_true trivial (by simp)
    | sendInterested => exact iff_of_true trivial (by simp)
    | sendRequest p => exact iff_of_true trivial (by simp)
    | _ => exact absurd trivial hs

theorem pair_sublist_concat {α : Type} {a b s : α} {l : List α} :
    [a, b].Sublist (l ++ [s]) ↔ [a, b].Sublist l ∨ b = s ∧ a ∈ l := by
  constructor
  · intro h
    obtain ⟨front, back, heq, hfront, hback⟩ := List.sublist_append_iff.mp h
    rcases List.sublist_singleton.mp hback with rfl | rfl
    · rw [List.append_nil] at heq
      exact .inl (heq ▸ hfront)
    · have heq' : [a] ++ [b] = front ++ [s] := heq
      obtain ⟨rfl, hs⟩ := List.append_inj' heq' rfl
      exact .inr ⟨List.singleton_inj.mp hs, List.singleton_sublist.mp hfront⟩
  · rintro (h | ⟨rfl, hmem⟩)
    · exact h.trans (List.sublist_append_left l [s])
    · exact (List.singleton_sublist.mpr hmem).append (List.Sublist.refl [b])

/-- **What the condition comes to**: no step that clears a flag, and no
`Send_uninterested` behind a `Send_interested`. -/
theorem harmless_run_iff (steps : List FlagStep) :
    (∀ pre s, pre ++ [s] <+: steps → s.Harmless (intendSteps Flags.initial pre)) ↔
      (∀ s ∈ steps, ¬ s.Clears) ∧
        ¬ [FlagStep.sendInterested, .sendUninterested].Sublist steps := by
  induction steps using List.reverseRecOn with
  | nil => simp
  | append_singleton steps s ih =>
      have hsplit : (∀ pre s', pre ++ [s'] <+: steps ++ [s] →
            s'.Harmless (intendSteps Flags.initial pre)) ↔
          (∀ pre s', pre ++ [s'] <+: steps → s'.Harmless (intendSteps Flags.initial pre)) ∧
            s.Harmless (intendSteps Flags.initial steps) := by
        constructor
        · intro h
          exact ⟨fun pre s' hpre => h pre s' (hpre.trans (List.prefix_append steps [s])),
            h steps s List.prefix_rfl⟩
        · rintro ⟨hbefore, hlast⟩ pre s' hpre
          rcases List.prefix_concat_iff.mp hpre with heq | hpre
          · obtain ⟨rfl, hs⟩ := List.append_inj' heq rfl
            cases hs
            exact hlast
          · exact hbefore pre s' hpre
      rw [hsplit, ih, List.forall_mem_append, List.forall_mem_singleton, pair_sublist_concat,
        not_or]
      constructor
      · rintro ⟨⟨hquiet, horder⟩, hlast⟩
        obtain ⟨hs, hnot⟩ := (harmless_quiet_iff hquiet horder s).mp hlast
        exact ⟨⟨hquiet, hs⟩, horder, fun h => hnot ⟨h.1.symm, h.2⟩⟩
      · rintro ⟨⟨hquiet, hs⟩, horder, hnot⟩
        exact ⟨⟨hquiet, horder⟩, (harmless_quiet_iff hquiet horder s).mpr
          ⟨hs, fun h => hnot ⟨h.1.symm, h.2⟩⟩⟩

/-- An `UNCHOKE` right after setting up a zeroed record: the peer is still
choked, the byte says it is not. -/
theorem status_flags_refine_unchoke :
    ¬ ∀ pre, pre <+: [FlagStep.recvUnchoke] →
        (applySteps (initializeConnection Connections.zeroed 8) pre).flags
          = intendSteps Flags.initial pre := by
  intro h
  have hpeer := congrFun (h [.recvUnchoke] List.prefix_rfl) .peerChoke
  revert hpeer
  decide

end DubstepDucks.Btp
