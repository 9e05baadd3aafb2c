import Mathlib.Data.List.Induction
import Mathlib.Tactic.Common

/-!
# History — parties that send to each other

A network is a number of parties, each with a state of its own. A step is
one party's: it changes that party's state, and what it does is delivered to
all the others. A run is an interleaving of steps with a log of who did what;
`own c log` is what the party `c` did itself. A schedule may forbid steps by
the state of the whole network.

The rule for invariants is `Run.invariant`. It looks at one party at a time:
what a party may rely on in the deliveries of the others is `G`, and every
step guarantees it. The invariant of a party may speak of its own part of the
log, and its step may use what is known of reachable states already, so that
invariants can be proved one after another.
-/

namespace DubstepDucks.History

structure Network (ι σ α : Type*) where
  start : ι → σ
  step : ι → σ → α → σ → Prop
  /-- `deliver c a q` is what the action `a` of `c` does to the party `q`. -/
  deliver : ι → α → ι → σ → σ

namespace Network

variable {ι σ α : Type*} [DecidableEq ι] (N : Network ι σ α)

/-- The states when `c` has done `a` and is in the state `s`. -/
def after (w : ι → σ) (c : ι) (a : α) (s : σ) : ι → σ :=
  fun q => if q = c then s else N.deliver c a q (w q)

@[simp] theorem after_self (w : ι → σ) (c : ι) (a : α) (s : σ) : N.after w c a s c = s :=
  if_pos rfl

theorem after_of_ne {w : ι → σ} {c q : ι} {a : α} {s : σ} (h : q ≠ c) :
    N.after w c a s q = N.deliver c a q (w q) :=
  if_neg h

/-- The interleavings of the parties' steps under the schedule `S`. -/
inductive Run (S : (ι → σ) → ι → α → Prop) : List (ι × α) → (ι → σ) → Prop where
  | start : Run S [] N.start
  | step {log w c a s} : Run S log w → S w c a → N.step c (w c) a s →
      Run S (log ++ [(c, a)]) (N.after w c a s)

/-- What the party `c` did. -/
def own (c : ι) (log : List (ι × α)) : List α := (log.filter (·.1 = c)).map Prod.snd

theorem own_concat_self (c : ι) (log : List (ι × α)) (a : α) :
    own c (log ++ [(c, a)]) = own c log ++ [a] := by
  simp [own]

theorem own_concat_of_ne {c q : ι} (h : q ≠ c) (log : List (ι × α)) (a : α) :
    own q (log ++ [(c, a)]) = own q log := by
  simp [own, h.symm]

variable {N} {S : (ι → σ) → ι → α → Prop} {log : List (ι × α)} {w : ι → σ}

/-- **The rule.** By induction on the run; the party that steps and the
others are told apart. -/
theorem Run.invariant {I : ι → List α → σ → Prop} {G : ι → α → ι → Prop}
    (hstart : ∀ c, I c [] (N.start c))
    (hstep : ∀ {log w c a s}, N.Run S log w → I c (own c log) (w c) → N.step c (w c) a s →
      I c (own c log ++ [a]) s ∧ ∀ q, q ≠ c → G c a q)
    (hdeliver : ∀ {c a q acts s}, q ≠ c → G c a q → I q acts s → I q acts (N.deliver c a q s))
    (h : N.Run S log w) (c : ι) : I c (own c log) (w c) := by
  induction h generalizing c with
  | start => exact hstart c
  | @step log w c' a s hrun _ hact ih =>
      obtain ⟨hmoved, hsent⟩ := hstep hrun (ih c') hact
      by_cases hc : c = c'
      · subst hc
        rw [own_concat_self, after_self]
        exact hmoved
      · rw [own_concat_of_ne hc, after_of_ne _ hc]
        exact hdeliver hc (hsent c hc) (ih c)

/-- A party that the deliveries leave alone: only its own steps count. -/
theorem Run.solitary {I : ι → List α → σ → Prop} (hstart : ∀ c, I c [] (N.start c))
    (hstep : ∀ {c acts a s s'}, I c acts s → N.step c s a s' → I c (acts ++ [a]) s')
    (hdeliver : ∀ {c a q acts s}, I q acts s → I q acts (N.deliver c a q s))
    (h : N.Run S log w) (c : ι) : I c (own c log) (w c) :=
  h.invariant (G := fun _ _ _ => True) hstart
    (fun _ hparty hact => ⟨hstep hparty hact, fun _ _ => trivial⟩)
    (fun _ _ hparty => hdeliver hparty) c

end Network

end DubstepDucks.History
