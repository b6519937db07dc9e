import Mathlib.Data.List.Nodup
import Mathlib.Data.Int.Notation
import Mathlib.Logic.Function.Basic
import Mathlib.Order.Defs.LinearOrder
import Mathlib.Tactic.Common

/-!
# Tables with reference counts

A table maps some keys to an object and the number of references to it.  Taking a reference to a
key that is not in the table puts a new object there; giving the last reference back removes the
object.

## Main results

* `RefTable.dropAll_grabAll` — giving references back in the opposite order restores the table.
* `RefTable.count_grabAll`, `RefTable.count_dropAll` — how the references are counted.
-/

/-- A table from keys to objects and numbers of references. -/
abbrev RefTable (κ α : Type) : Type := κ → Option (α × ℤ)

namespace RefTable

open Function (update update_self update_of_ne update_apply)

variable {κ α : Type} {T : RefTable κ α} {k k' : κ} {a : α}

/-- Every object in the table is referenced. -/
def Positive (T : RefTable κ α) : Prop := ∀ k a c, T k = some (a, c) → 0 < c

/-- The number of references. -/
def count (T : RefTable κ α) (k : κ) : ℤ := (T k).elim 0 Prod.snd

/-- The object of a key. -/
def obj (T : RefTable κ α) (k : κ) : Option α := (T k).map Prod.fst

theorem count_nonneg (h : T.Positive) (k : κ) : 0 ≤ T.count k := by
  cases hk : T k with
  | none => simp [count, hk]
  | some e =>
    obtain ⟨b, c⟩ := e
    have hpos := h k b c hk
    simp only [count, hk, Option.elim]
    omega

theorem count_pos_iff (h : T.Positive) : 0 < T.count k ↔ T k ≠ none := by
  cases hk : T k with
  | none => simp [count, hk]
  | some e =>
    obtain ⟨b, c⟩ := e
    simpa [count, hk] using h k b c hk

theorem obj_eq_none_iff : T.obj k = none ↔ T k = none := by simp [obj]

theorem exists_of_obj (h : T.obj k = some a) : ∃ c, T k = some (a, c) := by
  obtain ⟨⟨b, c⟩, hk, rfl⟩ := Option.map_eq_some_iff.mp h
  exact ⟨c, hk⟩

theorem ne_none_of_obj (h : T.obj k = some a) : T k ≠ none := by
  obtain ⟨c, hk⟩ := exists_of_obj h
  simp [hk]

variable [DecidableEq κ]

/-- Take a reference, with a new object `a` if there is none. -/
def grab (T : RefTable κ α) (k : κ) (a : α) : RefTable κ α :=
  update T k (match T k with
    | some (b, c) => some (b, c + 1)
    | none => some (a, 1))

/-- Give a reference back. -/
def drop (T : RefTable κ α) (k : κ) : RefTable κ α :=
  update T k (match T k with
    | some (b, c) => if c = 1 then none else some (b, c - 1)
    | none => none)

/-- Take references to the keys of a list. -/
def grabAll (new : κ → α) : RefTable κ α → List κ → RefTable κ α
  | T, [] => T
  | T, k :: ks => grabAll new (T.grab k (new k)) ks

/-- Give references to the keys of a list back. -/
def dropAll : RefTable κ α → List κ → RefTable κ α
  | T, [] => T
  | T, k :: ks => dropAll (T.drop k) ks

/-! ### The entries after a key was changed -/

theorem update_eq_some {v : Option (α × ℤ)} {b : α} {c : ℤ} :
    update T k v k' = some (b, c) ↔
      k' = k ∧ v = some (b, c) ∨ k' ≠ k ∧ T k' = some (b, c) := by
  rw [update_apply]
  split_ifs with h <;> simp [h]

section

variable {b : α} {c c' : ℤ} (p : κ → Prop)

theorem exists_update_count (hk : T k = some (a, c)) :
    (∃ k' d, update T k (some (a, c')) k' = some (b, d) ∧ p k') ↔
      ∃ k' d, T k' = some (b, d) ∧ p k' := by
  simp only [update_eq_some, Option.some.injEq, Prod.mk.injEq]
  constructor
  · rintro ⟨k', d, ⟨rfl, rfl, -⟩ | ⟨-, hk'⟩, hp⟩
    · exact ⟨k', c, hk, hp⟩
    · exact ⟨k', d, hk', hp⟩
  · rintro ⟨k', d, hk', hp⟩
    by_cases hkk : k' = k
    · subst hkk
      obtain ⟨rfl, -⟩ := Prod.mk.inj (Option.some.inj (hk.symm.trans hk'))
      exact ⟨k', c', Or.inl ⟨rfl, rfl, rfl⟩, hp⟩
    · exact ⟨k', d, Or.inr ⟨hkk, hk'⟩, hp⟩

theorem exists_update_new (hk : T k = none) :
    (∃ k' d, update T k (some (a, c)) k' = some (b, d) ∧ p k') ↔
      b = a ∧ p k ∨ ∃ k' d, T k' = some (b, d) ∧ p k' := by
  simp only [update_eq_some, Option.some.injEq, Prod.mk.injEq]
  constructor
  · rintro ⟨k', d, ⟨rfl, rfl, -⟩ | ⟨-, hk'⟩, hp⟩
    · exact Or.inl ⟨rfl, hp⟩
    · exact Or.inr ⟨k', d, hk', hp⟩
  · rintro (⟨rfl, hp⟩ | ⟨k', d, hk', hp⟩)
    · exact ⟨k, c, Or.inl ⟨rfl, rfl, rfl⟩, hp⟩
    · have hkk : k' ≠ k := by
        rintro rfl
        cases hk.symm.trans hk'
      exact ⟨k', d, Or.inr ⟨hkk, hk'⟩, hp⟩

theorem exists_update_none (hk : T k = some (a, c)) (hinj : ∀ k' d, T k' = some (a, d) → k' = k) :
    (∃ k' d, update T k none k' = some (b, d) ∧ p k') ↔
      b ≠ a ∧ ∃ k' d, T k' = some (b, d) ∧ p k' := by
  simp only [update_eq_some, reduceCtorEq, and_false, false_or]
  constructor
  · rintro ⟨k', d, ⟨hkk, hk'⟩, hp⟩
    refine ⟨?_, k', d, hk', hp⟩
    rintro rfl
    exact hkk (hinj k' d hk')
  · rintro ⟨hba, k', d, hk', hp⟩
    refine ⟨k', d, ⟨?_, hk'⟩, hp⟩
    rintro rfl
    exact hba (Prod.mk.inj (Option.some.inj (hk'.symm.trans hk))).1

end

theorem Positive.grab (h : T.Positive) (k : κ) (a : α) : (T.grab k a).Positive := by
  intro k' b c hk'
  rcases update_eq_some.mp hk' with ⟨rfl, hv⟩ | ⟨-, hk'⟩
  · cases hT : T k' with
    | none =>
      rw [hT] at hv
      obtain ⟨-, rfl⟩ := Prod.mk.inj (Option.some.inj hv)
      exact Int.one_pos
    | some e =>
      obtain ⟨b', c'⟩ := e
      rw [hT] at hv
      obtain ⟨-, rfl⟩ := Prod.mk.inj (Option.some.inj hv)
      have hpos := h k' b' c' hT
      omega
  · exact h k' b c hk'

theorem Positive.drop (h : T.Positive) (k : κ) : (T.drop k).Positive := by
  intro k' b c hk'
  rcases update_eq_some.mp hk' with ⟨rfl, hv⟩ | ⟨-, hk'⟩
  · cases hT : T k' with
    | none => simp [hT] at hv
    | some e =>
      obtain ⟨b', c'⟩ := e
      rw [hT] at hv
      dsimp only at hv
      split_ifs at hv with hone
      obtain ⟨-, rfl⟩ := Prod.mk.inj (Option.some.inj hv)
      have hpos := h k' b' c' hT
      omega
  · exact h k' b c hk'

/-! ## Giving back what was taken -/

theorem drop_grab (h : T.Positive) : (T.grab k a).drop k = T := by
  funext k'
  by_cases hk : k' = k
  · subst hk
    rw [drop, update_self, grab, update_self]
    cases hT : T k' with
    | none => simp
    | some e =>
      obtain ⟨b, c⟩ := e
      have hpos := h k' b c hT
      have hne : ¬ c + 1 = 1 := by omega
      simp [hne]
  · rw [drop, update_of_ne hk, grab, update_of_ne hk]

theorem dropAll_append (T : RefTable κ α) (ks ks' : List κ) :
    T.dropAll (ks ++ ks') = (T.dropAll ks).dropAll ks' := by
  induction ks generalizing T with
  | nil => rfl
  | cons k ks ih => exact ih (T.drop k)

theorem grabAll_append (new : κ → α) (T : RefTable κ α) (ks ks' : List κ) :
    T.grabAll new (ks ++ ks') = (T.grabAll new ks).grabAll new ks' := by
  induction ks generalizing T with
  | nil => rfl
  | cons k ks ih => exact ih (T.grab k (new k))

/-- **References that are given back in the opposite order leave the table as it was.** -/
theorem dropAll_grabAll (new : κ → α) (h : T.Positive) (ks : List κ) :
    (T.grabAll new ks).dropAll ks.reverse = T := by
  induction ks generalizing T with
  | nil => rfl
  | cons k ks ih =>
    rw [grabAll, List.reverse_cons, dropAll_append, ih (h.grab k (new k))]
    exact drop_grab h

/-! ## Counting -/

theorem count_grab (T : RefTable κ α) (k k' : κ) (a : α) :
    (T.grab k a).count k' = T.count k' + if k' = k then 1 else 0 := by
  by_cases hk : k' = k
  · subst hk
    rw [count, grab, update_self, if_pos rfl]
    cases hT : T k' with
    | none => simp [count, hT]
    | some e => simp [count, hT]
  · simp [count, grab, hk]

theorem count_drop (hin : T k ≠ none) (k' : κ) :
    (T.drop k).count k' = T.count k' - if k' = k then 1 else 0 := by
  by_cases hk : k' = k
  · subst hk
    rw [count, drop, update_self, if_pos rfl]
    cases hT : T k' with
    | none => exact absurd hT hin
    | some e =>
      obtain ⟨b, c⟩ := e
      by_cases hone : c = 1
      · simp [count, hT, hone]
      · simp [count, hT, hone]
  · simp [count, drop, hk]

theorem count_grabAll (new : κ → α) (T : RefTable κ α) (ks : List κ) (k : κ) :
    (T.grabAll new ks).count k = T.count k + ks.count k := by
  induction ks generalizing T with
  | nil => simp [grabAll]
  | cons k' ks ih =>
    rw [grabAll, ih, count_grab, List.count_cons]
    by_cases hk : k' = k
    · subst hk
      simp
      omega
    · simp [hk, Ne.symm hk]

variable {ks : List κ}

theorem count_grabAll_of_mem {new : κ → α} (hnodup : ks.Nodup) (h : k ∈ ks) :
    (T.grabAll new ks).count k = T.count k + 1 := by
  rw [count_grabAll, List.count_eq_one_of_mem hnodup h]
  rfl

theorem count_dropAll (h : T.Positive) (hks : ∀ k, (ks.count k : ℤ) ≤ T.count k)
    (k : κ) : (T.dropAll ks).count k = T.count k - ks.count k := by
  induction ks generalizing T with
  | nil => simp [dropAll]
  | cons k' ks ih =>
    have hin : T k' ≠ none := by
      apply (count_pos_iff h).mp
      have hle := hks k'
      rw [List.count_cons_self] at hle
      omega
    have hstep := count_drop hin
    rw [dropAll, ih (h.drop k')]
    · rw [hstep, List.count_cons]
      by_cases hk : k = k'
      · subst hk
        simp
        omega
      · simp [hk, Ne.symm hk]
    · intro k''
      have hle := hks k''
      rw [hstep]
      rw [List.count_cons] at hle
      by_cases hk : k'' = k'
      · subst hk
        simp at hle ⊢
        omega
      · simpa [hk, Ne.symm hk] using hle

theorem count_dropAll_of_mem (h : T.Positive) (hnodup : ks.Nodup)
    (hin : ∀ k ∈ ks, T k ≠ none) (hk : k ∈ ks) : (T.dropAll ks).count k = T.count k - 1 := by
  rw [count_dropAll h, List.count_eq_one_of_mem hnodup hk]
  · rfl
  · intro k'
    by_cases hk' : k' ∈ ks
    · have hpos := (count_pos_iff h).mpr (hin k' hk')
      rw [List.count_eq_one_of_mem hnodup hk']
      exact hpos
    · rw [List.count_eq_zero_of_not_mem hk']
      exact count_nonneg h k'

/-! ## Objects -/

theorem obj_grab_of_some {b : α} (h : T.obj k' = some b) : (T.grab k a).obj k' = some b := by
  by_cases hk : k' = k
  · subst hk
    cases hT : T k' with
    | none => simp [obj, hT] at h
    | some e =>
      rw [obj, hT] at h
      rw [obj, grab, update_self, hT]
      exact h
  · rwa [obj, grab, update_of_ne hk]

theorem obj_drop (h : (T.drop k).obj k' ≠ none) : (T.drop k).obj k' = T.obj k' := by
  by_cases hk : k' = k
  · subst hk
    rw [obj, drop, update_self] at h ⊢
    cases hT : T k' with
    | none => simp [hT] at h
    | some e =>
      obtain ⟨b, c⟩ := e
      rw [hT] at h
      dsimp only at h ⊢
      split_ifs at h ⊢ with hone
      · simp at h
      · simp [obj, hT]
  · rw [obj, drop, update_of_ne hk]
    rfl

theorem obj_dropAll (h : (T.dropAll ks).obj k ≠ none) :
    (T.dropAll ks).obj k = T.obj k := by
  induction ks generalizing T with
  | nil => rfl
  | cons k' ks ih =>
    rw [dropAll] at h ⊢
    have hrest := ih h
    rw [hrest] at h ⊢
    exact obj_drop h

theorem drop_of_ne (h : k' ≠ k) : (T.drop k) k' = T k' := by
  rw [drop, update_of_ne h]

theorem grabAll_of_notMem {new : κ → α} (h : k ∉ ks) :
    (T.grabAll new ks) k = T k := by
  induction ks generalizing T with
  | nil => rfl
  | cons k' ks ih =>
    rw [List.mem_cons, not_or] at h
    rw [grabAll, ih h.2, grab, update_of_ne h.1]

theorem dropAll_of_notMem (h : k ∉ ks) : (T.dropAll ks) k = T k := by
  induction ks generalizing T with
  | nil => rfl
  | cons k' ks ih =>
    rw [List.mem_cons, not_or] at h
    rw [dropAll, ih h.2, drop_of_ne h.1]

theorem grab_ne_none : (T.grab k a) k ≠ none := by
  rw [grab, update_self]
  cases T k with
  | none => simp
  | some e => simp

theorem grabAll_ne_none {new : κ → α} (h : T k ≠ none ∨ k ∈ ks) :
    (T.grabAll new ks) k ≠ none := by
  induction ks generalizing T with
  | nil =>
    cases h with
    | inl hT => exact hT
    | inr hin => simp at hin
  | cons k' ks ih =>
    rw [grabAll]
    by_cases hk : k = k'
    · subst hk
      exact ih (Or.inl grab_ne_none)
    · apply ih
      cases h with
      | inl hT =>
        rw [grab, update_of_ne hk]
        exact Or.inl hT
      | inr hin => exact Or.inr ((List.mem_cons.mp hin).resolve_left hk)

theorem obj_grabAll (new : κ → α) (T : RefTable κ α) (ks : List κ) (k : κ) :
    (T.grabAll new ks).obj k =
      if T k = none then (if k ∈ ks then some (new k) else none) else T.obj k := by
  induction ks generalizing T with
  | nil =>
    by_cases hT : T k = none
    · simp [grabAll, obj, hT]
    · simp [grabAll, hT]
  | cons k' ks ih =>
    rw [grabAll, ih]
    by_cases hk : k = k'
    · subst hk
      rw [if_neg grab_ne_none, obj, grab, update_self]
      cases hT : T k with
      | none => simp
      | some e => simp [obj, hT]
    · have hsame : (T.grab k' (new k')) k = T k := by rw [grab, update_of_ne hk]
      simp only [obj, hsame, List.mem_cons, hk, false_or]

end RefTable
