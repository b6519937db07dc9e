import Mathlib.Logic.Basic

/-!
# Outcomes of computations that fail or do not finish

A computation of type `ExceptT ε Option α` has a value or an error as its outcome, or none, if it
has run out of the steps it was given.

## Main results

* `Outcome.holds_bind` — computations one after the other.
* `Outcome.Post.bind`, `Outcome.Halts.bind`, `Outcome.Matches.bind`, `Outcome.Simulates.bind` — the
  rules for correctness and simulation.
-/

namespace Outcome

variable {ε α β γ δ : Type}

/-- `P` holds of the value of the computation, `E` of its error, and `N` if it has no outcome. -/
def Holds (P : α → Prop) (E : ε → Prop) (N : Prop) (x : ExceptT ε Option α) : Prop :=
  match x.run with
  | some (.ok a) => P a
  | some (.error e) => E e
  | none => N

section

variable {P Q : α → Prop} {E : ε → Prop} {N : Prop} {x : ExceptT ε Option α}

@[simp]
theorem holds_pure (a : α) : Holds P E N (pure a : ExceptT ε Option α) ↔ P a := Iff.rfl

@[simp]
theorem holds_throw (e : ε) : Holds P E N (throw e : ExceptT ε Option α) ↔ E e := Iff.rfl

/-- A computation that is followed by another one. -/
theorem holds_bind {P : β → Prop} (f : α → ExceptT ε Option β) :
    Holds P E N (x >>= f) ↔ Holds (fun a => Holds P E N (f a)) E N x := by
  cases h : x.run with
  | none =>
    have hx : x = ExceptT.mk none := h
    subst hx
    rfl
  | some r =>
    have hx : x = ExceptT.mk (some r) := h
    subst hx
    cases r <;> rfl

theorem Holds.imp (h : Holds P E N x) (himp : ∀ a, P a → Q a) : Holds Q E N x := by
  unfold Holds at h ⊢
  split at h
  · exact himp _ h
  · exact h
  · exact h

end

/-! ## Correctness -/

/-- If the computation has a value, then `P` holds of it. -/
def Post (P : α → Prop) (x : ExceptT ε Option α) : Prop := Holds P (fun _ => True) True x

/-- The computation has an outcome, and if it is a value, then `P` holds of it. -/
def Halts (P : α → Prop) (x : ExceptT ε Option α) : Prop := Holds P (fun _ => True) False x

section

variable {P : β → Prop} {Q : α → Prop} {x : ExceptT ε Option α} {f : α → ExceptT ε Option β}

theorem Post.bind (h : Post Q x) (hf : ∀ a, Q a → Post P (f a)) : Post P (x >>= f) :=
  (holds_bind f).mpr (Holds.imp h hf)

theorem Post.bind_any (hf : ∀ a, Post P (f a)) : Post P (x >>= f) := by
  refine Post.bind (Q := fun _ => True) ?_ fun a _ => hf a
  unfold Post Holds
  split
  · exact trivial
  · exact trivial
  · exact trivial

theorem Halts.bind (h : Halts Q x) (hf : ∀ a, Q a → Halts P (f a)) : Halts P (x >>= f) :=
  (holds_bind f).mpr (Holds.imp h hf)

theorem Halts.ite {c : Prop} [Decidable c] {y : ExceptT ε Option α} (h : c → Halts Q x)
    (h' : ¬ c → Halts Q y) : Halts Q (if c then x else y) := by
  by_cases hc : c
  · rw [if_pos hc]
    exact h hc
  · rw [if_neg hc]
    exact h' hc

theorem Post.pure {a : α} (h : Q a) : Post Q (pure a : ExceptT ε Option α) := h

theorem Halts.pure {a : α} (h : Q a) : Halts Q (pure a : ExceptT ε Option α) := h

theorem Post.throw (e : ε) : Post Q (throw e : ExceptT ε Option α) := trivial

theorem Halts.throw (e : ε) : Halts Q (throw e : ExceptT ε Option α) := trivial

theorem Halts.lift {y : Except ε α} (h : ∀ a, y = .ok a → Q a) :
    Halts Q (liftM y : ExceptT ε Option α) := by
  cases y with
  | ok a => exact h a rfl
  | error e => exact trivial

theorem Post.lift {y : Except ε α} (h : ∀ a, y = .ok a → Q a) :
    Post Q (liftM y : ExceptT ε Option α) := by
  cases y with
  | ok a => exact h a rfl
  | error e => exact trivial

theorem Post.of_run {a : α} (h : Post Q x) (hrun : x.run = some (.ok a)) : Q a := by
  simpa only [Post, Holds, hrun] using h

theorem Halts.exists_run (h : Halts Q x) : ∃ r, x.run = some r := by
  unfold Halts Holds at h
  split at h
  · exact ⟨_, by assumption⟩
  · exact ⟨_, by assumption⟩
  · exact absurd h id

end

/-! ## Simulation -/

/-- A value of `x` is matched by a value of `y`, and an error of `x` for which `E` holds is the
error of `y`. -/
def Matches (E : ε → Prop) (R : α → β → Prop) (x : Except ε α) (y : Except ε β) : Prop :=
  match x with
  | .ok a => ∃ b, y = .ok b ∧ R a b
  | .error e => E e → y = .error e

section

variable {E : ε → Prop} {R : α → β → Prop} {S : γ → δ → Prop} {x : Except ε α} {y : Except ε β}

theorem Matches.ok {a : α} {b : β} (h : R a b) :
    Matches E R (.ok a : Except ε α) (.ok b) := ⟨b, rfl, h⟩

theorem Matches.error (e : ε) : Matches E R (.error e : Except ε α) (.error e) := fun _ => rfl

theorem Matches.of_not {e : ε} (h : ¬ E e) : Matches E R (.error e : Except ε α) y :=
  fun he => absurd he h

theorem Matches.ite {c c' : Prop} [Decidable c] [Decidable c'] {x' : Except ε α} {y' : Except ε β}
    (hc : c ↔ c') (h : c → Matches E R x y) (h' : ¬ c → Matches E R x' y') :
    Matches E R (if c then x else x') (if c' then y else y') := by
  by_cases hpos : c
  · rw [if_pos hpos, if_pos (hc.mp hpos)]
    exact h hpos
  · rw [if_neg hpos, if_neg (mt hc.mpr hpos)]
    exact h' hpos

theorem Matches.bind {f : α → Except ε γ} {g : β → Except ε δ} (h : Matches E R x y)
    (hfg : ∀ a b, R a b → Matches E S (f a) (g b)) : Matches E S (x >>= f) (y >>= g) := by
  cases x with
  | ok a =>
    obtain ⟨b, rfl, hR⟩ := h
    exact hfg a b hR
  | error e =>
    intro he
    rw [h he]
    rfl

theorem Matches.bind_eq {k : α → β} {f : α → Except ε γ} {g : β → Except ε δ}
    (h : Matches E (fun a b => b = k a) x y) (hfg : ∀ a, Matches E S (f a) (g (k a))) :
    Matches E S (x >>= f) (y >>= g) :=
  h.bind fun a _ hb => hb ▸ hfg a

end

/-- A value of `x` is matched by a value of `y`, and an error of `x` for which `E` holds is the
error of `y`.  Nothing is said if `x` has another error or no outcome. -/
def Simulates (E : ε → Prop) (R : α → β → Prop) (x : ExceptT ε Option α)
    (y : ExceptT ε Option β) : Prop :=
  Holds (fun a => ∃ b, y.run = some (.ok b) ∧ R a b) (fun e => E e → y.run = some (.error e)) True x

section

variable {E : ε → Prop} {R : α → β → Prop} {S : γ → δ → Prop} {x : ExceptT ε Option α}
  {y : ExceptT ε Option β}

theorem Simulates.pure {a : α} {b : β} (h : R a b) :
    Simulates E R (pure a : ExceptT ε Option α) (pure b) := ⟨b, rfl, h⟩

theorem Simulates.throw (e : ε) :
    Simulates E R (throw e : ExceptT ε Option α) (throw e) := fun _ => rfl

theorem Simulates.refl {R : α → α → Prop} (h : ∀ a, R a a) (x : ExceptT ε Option α) :
    Simulates E R x x := by
  unfold Simulates Holds
  split
  · exact ⟨_, by assumption, h _⟩
  · exact fun _ => by assumption
  · exact trivial

theorem Simulates.ite {c : Prop} [Decidable c] {x' : ExceptT ε Option α} {y' : ExceptT ε Option β}
    (h : c → Simulates E R x y) (h' : ¬ c → Simulates E R x' y') :
    Simulates E R (if c then x else x') (if c then y else y') := by
  by_cases hpos : c
  · rw [if_pos hpos, if_pos hpos]
    exact h hpos
  · rw [if_neg hpos, if_neg hpos]
    exact h' hpos

theorem Simulates.lift {x : Except ε α} {y : Except ε β} (h : Matches E R x y) :
    Simulates E R (liftM x : ExceptT ε Option α) (liftM y) := by
  cases x with
  | ok a =>
    obtain ⟨b, rfl, hR⟩ := h
    exact ⟨b, rfl, hR⟩
  | error e =>
    intro he
    rw [h he]
    rfl

section

variable {f : α → ExceptT ε Option γ} {g : β → ExceptT ε Option δ}

theorem Simulates.bind (h : Simulates E R x y) (hfg : ∀ a b, R a b → Simulates E S (f a) (g b)) :
    Simulates E S (x >>= f) (y >>= g) := by
  refine (holds_bind f).mpr ?_
  unfold Simulates Holds at h
  unfold Holds
  split at h
  · obtain ⟨b, hrun, hR⟩ := h
    have hy : y = ExceptT.mk (some (.ok b)) := hrun
    subst hy
    exact hfg _ b hR
  · intro hE
    have hy : y = ExceptT.mk (some (.error _)) := h hE
    subst hy
    rfl
  · exact trivial

theorem Simulates.bind_eq {k : α → β} (h : Simulates E (fun a b => b = k a) x y)
    (hfg : ∀ a, Simulates E S (f a) (g (k a))) :
    Simulates E S (x >>= f) (y >>= g) :=
  h.bind fun a _ hb => hb ▸ hfg a

theorem Simulates.bind_lift {k : α → β} {x : Except ε α} {y : Except ε β}
    (h : Matches E (fun a b => b = k a) x y) (hfg : ∀ a, Simulates E S (f a) (g (k a))) :
    Simulates E S (liftM x >>= f) (liftM y >>= g) :=
  (Simulates.lift h).bind_eq hfg

end

theorem Simulates.bind_same {f : α → ExceptT ε Option γ} {g : α → ExceptT ε Option δ}
    (hfg : ∀ a, Simulates E S (f a) (g a)) : Simulates E S (x >>= f) (x >>= g) :=
  (Simulates.refl (R := Eq) (fun _ => rfl) x).bind fun a _ hb => hb ▸ hfg a

theorem Simulates.run_eq {R : α → α → Prop} {y : ExceptT ε Option α} (h : Simulates E R x y)
    (hR : ∀ a b, R a b → a = b) {r : Except ε α} (hrun : x.run = some r)
    (hr : ∀ e, r = .error e → E e) : y.run = some r := by
  simp only [Simulates, Holds, hrun] at h
  cases r with
  | ok a =>
    obtain ⟨b, hy, hab⟩ := h
    rw [hy, hR a b hab]
  | error e => exact h (hr e rfl)

end

end Outcome
