import Mathlib.Logic.Basic

/-!
# Computations that can fail

Rules for taking apart and running computations in `Except ε`.  A computation that returns
normally is a chain of `bind`s whose parts all return normally (`bind_eq_ok`), and an assertion
lets a computation pass exactly if its condition holds (`assert_eq_ok`).

## Main results

* `Fallible.bind_eq_ok`, `Fallible.assert_eq_ok` — inversion.
* `Fallible.ok_bind`, `Fallible.assert_pos` — execution.
-/

namespace Fallible

universe u v

variable {ε : Type u} {α β : Type v}

/-- Fail with `e` unless `c` holds. -/
def assert (e : ε) (c : Prop) [Decidable c] : Except ε Unit := if c then .ok () else .error e

variable {x : Except ε α}

/-- A chain returns normally exactly if both parts do. -/
theorem bind_eq_ok {f : α → Except ε β} {r : β} :
    (x >>= f) = .ok r ↔ ∃ a, x = .ok a ∧ f a = .ok r := by
  cases x with
  | error e => simp [bind, Except.bind]
  | ok a => simp [bind, Except.bind]

theorem bind_eq_error {f : α → Except ε β} {e : ε} :
    x >>= f = .error e ↔ x = .error e ∨ ∃ a, x = .ok a ∧ f a = .error e := by
  cases x with
  | ok a => simp [bind, Except.bind]
  | error e' => simp [bind, Except.bind]

theorem map_eq_ok {f : α → β} {r : β} :
    x.map f = .ok r ↔ ∃ a, x = .ok a ∧ f a = r := by
  cases x with
  | error e => simp [Except.map]
  | ok a => simp [Except.map]

theorem map_eq_error {f : α → β} {e : ε} :
    x.map f = .error e ↔ x = .error e := by
  cases x with
  | error e => simp [Except.map]
  | ok a => simp [Except.map]

/-- Running a chain past a part that returns normally. -/
@[simp] theorem ok_bind (a : α) (f : α → Except ε β) : (Except.ok a >>= f) = f a := rfl

@[simp] theorem error_bind (e : ε) (f : α → Except ε β) :
    ((Except.error e : Except ε α) >>= f) = .error e := rfl

/-- An assertion returns normally exactly if its condition holds. -/
theorem assert_eq_ok {e : ε} {c : Prop} [Decidable c] {u : Unit} :
    assert e c = .ok u ↔ c := by
  by_cases h : c <;> simp [assert, h]

theorem assert_neg {e : ε} {c : Prop} [Decidable c] (h : ¬ c) : assert e c = .error e := if_neg h

/-- An assertion whose condition holds does nothing. -/
@[simp] theorem assert_pos {e : ε} {c : Prop} [Decidable c] (h : c) : assert e c = .ok () :=
  if_pos h

end Fallible
