import Mathlib.Logic.Basic

/-!
# Triples for computations with a state

A computation of type `StateT σ (Except ε) α` returns a value and a state, or stops with an error.
A triple says what holds of the value and the state if something held of the state before, and with
which errors the computation may stop.

## Main results

* `Hoare.Triple.bind`, `Hoare.Keeps.bind` — computations one after the other.
-/

namespace Hoare

variable {σ ε α β : Type}

/-- From a state with `pre` the computation returns a value and a state with `post`, or it stops
with an error in `err`. -/
def Triple (pre : σ → Prop) (m : StateT σ (Except ε) α) (post : α → σ → Prop) (err : ε → Prop) :
    Prop :=
  ∀ s, pre s → match m.run s with
    | .ok (a, s') => post a s'
    | .error e => err e

/-- The computation keeps an invariant. -/
def Keeps (inv : σ → Prop) (err : ε → Prop) (m : StateT σ (Except ε) α) : Prop :=
  Triple inv m (fun _ => inv) err

section

variable {pre pre' : σ → Prop} {post post' : α → σ → Prop} {err err' : ε → Prop}
  {m : StateT σ (Except ε) α}

theorem Triple.post_of_ok (h : Triple pre m post err) {s s' : σ} {a : α} (hs : pre s)
    (hrun : m.run s = .ok (a, s')) : post a s' := by
  have hout := h s hs
  rwa [hrun] at hout

theorem Triple.err_of_error (h : Triple pre m post err) {s : σ} {e : ε} (hs : pre s)
    (hrun : m.run s = .error e) : err e := by
  have hout := h s hs
  rwa [hrun] at hout

theorem Triple.of_run (hok : ∀ s a s', pre s → m.run s = .ok (a, s') → post a s')
    (herr : ∀ s e, pre s → m.run s = .error e → err e) : Triple pre m post err := by
  intro s hs
  cases hrun : m.run s with
  | error e => exact herr s e hs hrun
  | ok r => exact hok s r.1 r.2 hs hrun

theorem Triple.imp (h : Triple pre m post err) (hpre : ∀ s, pre' s → pre s)
    (hpost : ∀ a s, post a s → post' a s) (herr : ∀ e, err e → err' e) :
    Triple pre' m post' err' :=
  .of_run (fun _ _ _ hs hrun => hpost _ _ (h.post_of_ok (hpre _ hs) hrun))
    fun _ _ hs hrun => herr _ (h.err_of_error (hpre _ hs) hrun)

theorem Triple.pure {a : α} (h : ∀ s, pre s → post a s) :
    Triple pre (pure a : StateT σ (Except ε) α) post err :=
  h

theorem Triple.throw {e : ε} (h : err e) :
    Triple pre (throw e : StateT σ (Except ε) α) post err :=
  fun _ _ => h

/-- A computation that is followed by another one. -/
theorem Triple.bind {post : β → σ → Prop} {mid : α → σ → Prop} {f : α → StateT σ (Except ε) β}
    (h : Triple pre m mid err) (hf : ∀ a, Triple (mid a) (f a) post err) :
    Triple pre (m >>= f) post err := by
  intro s hs
  have hm := h s hs
  rw [StateT.run_bind]
  cases hrun : m.run s with
  | error e =>
    rw [hrun] at hm
    exact hm
  | ok r =>
    rw [hrun] at hm
    exact hf r.1 r.2 hm

theorem Triple.assume {p : Prop} (h : p → Triple pre m post err) :
    Triple (fun s => pre s ∧ p) m post err :=
  fun s hs => h hs.2 s hs.1

theorem Triple.ite {c : Prop} [Decidable c] {m' : StateT σ (Except ε) α}
    (h : c → Triple pre m post err) (h' : ¬ c → Triple pre m' post err) :
    Triple pre (if c then m else m') post err := by
  split
  next hc => exact h hc
  next hc => exact h' hc

end

/-! ## Invariants -/

section

variable {inv : σ → Prop} {err : ε → Prop} {m : StateT σ (Except ε) α}

theorem Keeps.pure {a : α} : Keeps inv err (pure a : StateT σ (Except ε) α) := fun _ hs => hs

theorem Keeps.throw {e : ε} (h : err e) : Keeps inv err (throw e : StateT σ (Except ε) α) :=
  Triple.throw h

theorem Keeps.bind {f : α → StateT σ (Except ε) β} (h : Keeps inv err m)
    (hf : ∀ a, Keeps inv err (f a)) : Keeps inv err (m >>= f) :=
  Triple.bind h hf

theorem Keeps.get : Keeps inv err (get : StateT σ (Except ε) σ) := fun _ hs => hs

theorem Keeps.ite {c : Prop} [Decidable c] {m' : StateT σ (Except ε) α} (h : Keeps inv err m)
    (h' : Keeps inv err m') : Keeps inv err (if c then m else m') :=
  Triple.ite (fun _ => h) fun _ => h'

end

end Hoare
