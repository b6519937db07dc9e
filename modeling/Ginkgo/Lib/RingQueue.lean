import Mathlib.Data.List.Basic
import Mathlib.Data.Nat.ModEq
import Mathlib.Logic.Function.Basic

/-!
# Queues in a ring with free-running indices

A producer writes to the cell `hi % cap` of a ring and increments `hi`, a consumer reads the cell
`lo % cap` and increments `lo`.  Both indices run freely modulo some multiple of the size of the
ring, so the full ring differs from the empty one.

## Main results

* `RingQueue.Holds.push`, `RingQueue.Holds.pop` — what producer and consumer do to it.
* `RingQueue.Holds.eq_nil_iff` — the indices agree exactly if the queue is empty.
-/

namespace RingQueue

variable {α : Type} {cap modulus : ℕ} {ring : ℕ → α} {lo hi : ℕ} {xs : List α} {a : α}

/-- The ring holds the list `xs` between the indices `lo` and `hi`. -/
structure Holds (cap modulus : ℕ) (ring : ℕ → α) (lo hi : ℕ) (xs : List α) : Prop where
  fits : xs.length ≤ cap
  lo_lt : lo < modulus
  hi_eq : hi = (lo + xs.length) % modulus
  cell : ∀ i x, xs[i]? = some x → ring ((lo + i) % cap) = x

namespace Holds

theorem nil (ring : ℕ → α) (hlo : lo < modulus) : Holds cap modulus ring lo lo [] := by
  refine ⟨Nat.zero_le _, hlo, ?_, ?_⟩
  · simp [Nat.mod_eq_of_lt hlo]
  · intro i x hx
    simp at hx

theorem cell_ne {i j : ℕ} (hij : i < j) (hj : j < i + cap) :
    (lo + i) % cap ≠ (lo + j) % cap := by
  intro he
  have hmod : i % cap = j % cap := Nat.ModEq.add_left_cancel' lo he
  have hdvd : cap ∣ j - i := (Nat.modEq_iff_dvd' hij.le).mp hmod
  have hle := Nat.le_of_dvd (by omega) hdvd
  omega

/-- The producer appends to the list. -/
theorem push (h : Holds cap modulus ring lo hi xs) (hdvd : cap ∣ modulus)
    (hroom : xs.length < cap) :
    Holds cap modulus (Function.update ring (hi % cap) a) lo ((hi + 1) % modulus)
      (xs ++ [a]) := by
  have hcell : hi % cap = (lo + xs.length) % cap := by
    rw [h.hi_eq, Nat.mod_mod_of_dvd _ hdvd]
  refine ⟨?_, h.lo_lt, ?_, ?_⟩
  · rw [List.length_append, List.length_singleton]
    exact hroom
  · rw [h.hi_eq, Nat.mod_add_mod, List.length_append, List.length_singleton, Nat.add_assoc]
  · intro i x hx
    rw [hcell]
    by_cases hi : i < xs.length
    · rw [List.getElem?_append_left hi] at hx
      rw [Function.update_of_ne (cell_ne hi (by omega))]
      exact h.cell i x hx
    · have hlen : i = xs.length := by
        have hsome := (List.getElem?_eq_some_iff.mp hx).1
        rw [List.length_append, List.length_singleton] at hsome
        omega
      rw [hlen, List.getElem?_concat_length] at hx
      rw [hlen, Function.update_self]
      exact Option.some.inj hx

theorem head (h : Holds cap modulus ring lo hi (a :: xs)) : ring (lo % cap) = a :=
  h.cell 0 a rfl

/-- The consumer removes the first element. -/
theorem pop (h : Holds cap modulus ring lo hi (a :: xs)) (hdvd : cap ∣ modulus) :
    Holds cap modulus ring ((lo + 1) % modulus) hi xs := by
  have hfits := h.fits
  rw [List.length_cons] at hfits
  refine ⟨by omega, Nat.mod_lt _ (Nat.zero_lt_of_lt h.lo_lt), ?_, ?_⟩
  · rw [h.hi_eq, List.length_cons, Nat.mod_add_mod]
    congr 1
    omega
  · intro i x hx
    have hcell := h.cell (i + 1) x (by simpa using hx)
    rw [← hcell, ← Nat.mod_mod_of_dvd _ hdvd, Nat.mod_add_mod, Nat.mod_mod_of_dvd _ hdvd]
    congr 2
    omega

/-- The indices agree exactly if the queue is empty. -/
theorem eq_nil_iff (h : Holds cap modulus ring lo hi xs) (hcap : cap < modulus) :
    lo = hi ↔ xs = [] := by
  constructor
  · intro he
    have hfits := h.fits
    have hmod : (lo + xs.length) % modulus = lo := by rw [← h.hi_eq, he]
    have hdvd : modulus ∣ xs.length := by
      have hmod' : lo ≡ lo + xs.length [MOD modulus] := by
        rw [Nat.ModEq, hmod, Nat.mod_eq_of_lt h.lo_lt]
      have hsub := (Nat.modEq_iff_dvd' (Nat.le_add_right lo xs.length)).mp hmod'
      rwa [Nat.add_sub_cancel_left] at hsub
    exact List.length_eq_zero_iff.mp (Nat.eq_zero_of_dvd_of_lt hdvd (by omega))
  · intro he
    rw [h.hi_eq, he, List.length_nil, Nat.add_zero, Nat.mod_eq_of_lt h.lo_lt]

end Holds

end RingQueue
