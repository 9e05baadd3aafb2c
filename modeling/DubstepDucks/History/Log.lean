import Mathlib.Data.List.Induction
import Mathlib.Tactic.Common

/-!
# History — guarded event machines and their logs

A system that reacts to events in turn is a state, what each event does to
it (`next`) and when an event may happen (`guard`). A log is the list of the
events so far, the oldest first. Past-time statements about a run are
statements about its log: `Since P Q log` says that a `P` happened and no
`Q` after it.

The rule for proving one is `Machine.Admits.invariant`: what holds of the
empty log and is kept by every admitted event holds of the whole log.
-/

namespace DubstepDucks.History

variable {σ ε : Type*}

/-- A state machine over events that may happen only when their guard holds. -/
structure Machine (σ ε : Type*) where
  next : σ → ε → σ
  guard : σ → ε → Prop

/-! ## Quantifying over the events of a log -/

theorem forall_prefix_nil {P : List ε → ε → Prop} :
    (∀ pre e, pre ++ [e] <+: [] → P pre e) ↔ True := by
  simp

/-- A statement about every event and the log before it, split at the first
event. -/
theorem forall_prefix_cons {P : List ε → ε → Prop} {x : ε} {log : List ε} :
    (∀ pre e, pre ++ [e] <+: x :: log → P pre e) ↔
      P [] x ∧ ∀ pre e, pre ++ [e] <+: log → P (x :: pre) e := by
  constructor
  · intro h
    refine ⟨h [] x (by simp), ?_⟩
    intro pre e hpre
    exact h (x :: pre) e (by simpa using hpre)
  · rintro ⟨hx, hlog⟩ pre e hpre
    cases pre with
    | nil =>
        have he : e = x := by simpa using hpre
        rwa [he]
    | cons y pre =>
        obtain ⟨rfl, htail⟩ : y = x ∧ pre ++ [e] <+: log := by simpa using hpre
        exact hlog pre e htail

/-- The same, split at any point. -/
theorem forall_prefix_append {as bs : List ε} :
    ∀ {P : List ε → ε → Prop}, (∀ pre e, pre ++ [e] <+: as ++ bs → P pre e) ↔
      (∀ pre e, pre ++ [e] <+: as → P pre e) ∧ ∀ pre e, pre ++ [e] <+: bs → P (as ++ pre) e := by
  induction as with
  | nil =>
      intro P
      rw [forall_prefix_nil, true_and]
      rfl
  | cons a as ih =>
      intro P
      rw [List.cons_append, forall_prefix_cons, ih, forall_prefix_cons, and_assoc]
      rfl

namespace Machine

variable (m : Machine σ ε)

/-- The state after a log. -/
def after (s : σ) (log : List ε) : σ := log.foldl m.next s

/-- Every event of the log meets its guard where it happens. -/
def Admits (s : σ) (log : List ε) : Prop :=
  ∀ pre e, pre ++ [e] <+: log → m.guard (m.after s pre) e

theorem after_append (s : σ) (as bs : List ε) :
    m.after s (as ++ bs) = m.after (m.after s as) bs := by
  simp [after]

theorem after_concat (s : σ) (log : List ε) (e : ε) :
    m.after s (log ++ [e]) = m.next (m.after s log) e := by
  rw [after_append]
  rfl

variable {m}

theorem admits_nil (s : σ) : m.Admits s [] := by
  intro pre e h
  simp at h

theorem admits_concat {s : σ} {log : List ε} {e : ε} :
    m.Admits s (log ++ [e]) ↔ m.Admits s log ∧ m.guard (m.after s log) e := by
  constructor
  · intro h
    exact ⟨fun pre x hx => h pre x (hx.trans (List.prefix_append log [e])),
      h log e List.prefix_rfl⟩
  · rintro ⟨hlog, he⟩ pre x hx
    rcases List.prefix_concat_iff.mp hx with heq | hpre
    · obtain ⟨rfl, hlast⟩ := List.append_inj' heq rfl
      rw [List.singleton_inj.mp hlast]
      exact he
    · exact hlog pre x hpre

/-- Two logs in a row: the second one starts where the first one ends. -/
theorem admits_append {s : σ} {as bs : List ε} :
    m.Admits s (as ++ bs) ↔ m.Admits s as ∧ m.Admits (m.after s as) bs := by
  induction bs using List.reverseRecOn with
  | nil =>
      rw [List.append_nil]
      exact ⟨fun h => ⟨h, admits_nil _⟩, fun h => h.1⟩
  | append_singleton bs e ih =>
      rw [← List.append_assoc, admits_concat, ih, admits_concat, after_append, and_assoc]

theorem admits_singleton {s : σ} {e : ε} : m.Admits s [e] ↔ m.guard s e := by
  have h : m.Admits s ([] ++ [e]) ↔ _ := admits_concat
  rw [List.nil_append] at h
  rw [h]
  exact ⟨fun h => h.2, fun h => ⟨admits_nil s, h⟩⟩

/-- **The invariant rule.** What holds at the start and is kept by every
event that meets its guard holds after every admitted log. The step may use
that the log so far is an initial part of the whole. -/
theorem Admits.invariant {s : σ} {log : List ε} (h : m.Admits s log)
    (inv : List ε → σ → Prop) (hstart : inv [] s)
    (hstep : ∀ pre e, pre ++ [e] <+: log → m.guard (m.after s pre) e →
      inv pre (m.after s pre) → inv (pre ++ [e]) (m.next (m.after s pre) e)) :
    ∀ pre, pre <+: log → inv pre (m.after s pre) := by
  intro pre
  induction pre using List.reverseRecOn with
  | nil => intro _; exact hstart
  | append_singleton pre e ih =>
      intro hpre
      have hbefore := ih ((List.prefix_append pre [e]).trans hpre)
      rw [after_concat]
      exact hstep pre e hpre (h pre e hpre) hbefore

end Machine

/-! ## Past-time statements -/

/-- A `P` happened, and no `Q` after it. -/
def Since (P Q : ε → Prop) (log : List ε) : Prop :=
  ∃ pre e post, log = pre ++ e :: post ∧ P e ∧ ∀ x ∈ post, ¬ Q x

theorem Since.exists_mem {P Q : ε → Prop} {log : List ε} (h : Since P Q log) : ∃ e ∈ log, P e := by
  obtain ⟨pre, e, post, rfl, he, -⟩ := h
  exact ⟨e, by simp, he⟩

/-- One more event: either it is the `P`, or it is no `Q` and the statement
held before. -/
theorem since_concat {P Q : ε → Prop} {log : List ε} {e : ε} :
    Since P Q (log ++ [e]) ↔ P e ∨ (Since P Q log ∧ ¬ Q e) := by
  constructor
  · rintro ⟨pre, x, post, h, hx, hpost⟩
    induction post using List.reverseRecOn with
    | nil =>
        obtain ⟨-, he⟩ := List.append_inj' h rfl
        left
        rwa [List.singleton_inj.mp he]
    | append_singleton post y _ =>
        rw [← List.cons_append, ← List.append_assoc] at h
        obtain ⟨hlog, he⟩ := List.append_inj' h rfl
        rw [List.singleton_inj.mp he]
        exact .inr ⟨⟨pre, x, post, hlog, hx, fun z hz => hpost z (by simp [hz])⟩,
          hpost y (by simp)⟩
  · rintro (he | ⟨⟨pre, x, post, h, hx, hpost⟩, hq⟩)
    · exact ⟨log, e, [], rfl, he, by simp⟩
    · refine ⟨pre, x, post ++ [e], by simp [h], hx, ?_⟩
      intro z hz
      rcases List.mem_append.mp hz with hz | hz
      · exact hpost z hz
      · rw [List.mem_singleton.mp hz]
        exact hq

end DubstepDucks.History
