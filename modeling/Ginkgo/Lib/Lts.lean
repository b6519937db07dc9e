import Mathlib.Order.Basic

/-!
# Labelled transition systems with failing steps

A program is run as a labelled transition system: a set of initial states and a step function
that takes the state and the label of a call and either returns the next state or fails.  A step
that fails ends the run, so the reachable states are those that a run of successful steps ends
in.  Safety of every run is proved by `System.ReachableVia.invariant`: what holds initially and
is preserved by each successful step holds in every reachable state.

Statements of the form "in every run whose calls all meet the condition `ok`" are statements
about `System.ReachableVia ok`: the guard is checked in the state before each step.

## Main results

* `Lts.System.ReachableVia.invariant` — the induction rule for invariants.
* `Lts.System.ReachableVia.mono` — a weaker guard reaches more states.
-/

namespace Lts

/-- A transition system with states `σ`, labels `α` and failures `ε`. -/
structure System (σ α ε : Type*) where
  /-- The states a run can start in. -/
  init : σ → Prop
  /-- The effect of a call: the next state, or the failure that ends the run. -/
  step : σ → α → Except ε σ

namespace System

variable {σ α ε : Type*} (M : System σ α ε)

/-- The states in which a run ends whose steps succeed and meet the guard `ok` on the state
before the step and its label. -/
inductive ReachableVia (ok : σ → α → Prop) : σ → Prop
  | init {s : σ} : M.init s → ReachableVia ok s
  | step {s s' : σ} (a : α) : ReachableVia ok s → ok s a → M.step s a = .ok s' →
      ReachableVia ok s'

/-- The states in which a run of successful steps ends. -/
def Reachable : σ → Prop := M.ReachableVia fun _ _ => True

variable {M}

/-- **Invariant rule**: a property of the initial states that every successful step meeting the
guard preserves holds in every state reached that way. -/
theorem ReachableVia.invariant {ok : σ → α → Prop} {I : σ → Prop} (h0 : ∀ s, M.init s → I s)
    (hs : ∀ s a s', I s → ok s a → M.step s a = .ok s' → I s') {s : σ}
    (h : M.ReachableVia ok s) : I s := by
  induction h with
  | init hi => exact h0 _ hi
  | step a _ hok hstep ih => exact hs _ a _ ih hok hstep

/-- A weaker guard reaches more states. -/
theorem ReachableVia.mono {ok ok' : σ → α → Prop} (himp : ∀ s a, ok s a → ok' s a) {s : σ}
    (h : M.ReachableVia ok s) : M.ReachableVia ok' s := by
  induction h with
  | init hi => exact .init hi
  | step a _ hok hstep ih => exact .step a ih (himp _ a hok) hstep

section Guarded

variable (M) (ok : σ → α → Prop) [∀ s a, Decidable (ok s a)]

/-- The calls `as` executed one after the other from `s`, as long as they meet the guard and
succeed. -/
def execVia (s : σ) : List α → Option σ
  | [] => some s
  | a :: as =>
    if ok s a then
      match M.step s a with
      | .ok s' => execVia s' as
      | .error _ => none
    else none

variable {M ok}

/-- A guarded run from a state reached under the guard ends in such a state. -/
theorem ReachableVia.execVia {s s' : σ} {as : List α} (h : M.ReachableVia ok s)
    (he : M.execVia ok s as = some s') : M.ReachableVia ok s' := by
  induction as generalizing s with
  | nil =>
    obtain rfl : s = s' := by simpa [System.execVia] using he
    exact h
  | cons a as ih =>
    rw [System.execVia] at he
    split_ifs at he with hok
    cases hstep : M.step s a with
    | error e => simp [hstep] at he
    | ok t =>
      simp only [hstep] at he
      exact ih (.step a h hok hstep) he

variable (ok) in
theorem exists_reachableVia {s : σ} (as : List α) (h : M.init s) {P : σ → Prop} [DecidablePred P]
    (he : (M.execVia ok s as).any (fun s' => decide (P s')) = true) :
    ∃ s', M.ReachableVia ok s' ∧ P s' := by
  cases hs' : M.execVia ok s as with
  | none => simp [hs'] at he
  | some s' =>
    rw [hs'] at he
    exact ⟨s', ReachableVia.execVia (.init h) hs', of_decide_eq_true he⟩

variable (ok) in
theorem exists_reachableVia_of_map {γ ε' : Type*} {x : Except ε' γ} {st : γ → σ} (as : List α)
    (h : ∀ c, x = .ok c → M.init (st c)) {P : σ → Prop} [DecidablePred P]
    (he : x.map (fun c => (M.execVia ok (st c) as).any fun s' => decide (P s')) = .ok true) :
    ∃ s', M.ReachableVia ok s' ∧ P s' := by
  cases hx : x with
  | error e => simp [hx, Except.map] at he
  | ok c =>
    rw [hx] at he
    exact exists_reachableVia ok as (h c hx) (Except.ok.inj he)

end Guarded

end System

end Lts
