import Mathlib.Data.Nat.Notation
import Mathlib.Logic.Function.Basic
import Mathlib.Tactic.SplitIfs

/-!
# Radix trees in memory

A radix tree whose nodes are pages of words.  A key selects one word of a page on each level; a
valid word refers to a page of the next lower level, and on level `0` it is the value.

Memory can hold several trees.  That they do not share pages is stated by an *owner* for every page
that belongs to a tree: the root of the tree, the level of the page, and the label of the keys
that pass through it.  Two operations are considered, writing a word of a page of level `0`, and
grafting an empty page under a word that is not valid.

## Main results

* `Radix.Scheme.Tree.look_write_self`, `Radix.Scheme.Tree.look_write` — writing a value changes the
  keys that select the word, and no other key of any tree.
* `Radix.Scheme.Tree.extends_graft` — grafting an empty page extends the trees.
-/

namespace Radix

open Function (update update_self update_of_ne)

variable {P W K : Type*}

/-- How words and keys are read. -/
structure Scheme (P W K : Type*) where
  /-- The word is in use. -/
  valid : W → Bool
  /-- The page that a word refers to. -/
  child : W → P
  /-- The word that a key selects in a page of a level. -/
  index : ℕ → K → ℕ
  /-- What the keys that pass through a page of a level have in common. -/
  label : ℕ → K → ℕ
  /-- The label of the page under a word. -/
  down : ℕ → ℕ → ℕ
  /-- A key passes through the page under the word that it selects. -/
  label_eq : ∀ L k, label L k = down (label (L + 1) k) (index (L + 1) k)

/-- The owner of a page. -/
@[ext] structure Owner (P : Type*) where
  /-- The root of the tree. -/
  root : P
  /-- The level of the page. -/
  level : ℕ
  /-- The label of the keys that pass through the page. -/
  label : ℕ

/-- Write a word. -/
def write [DecidableEq P] (mem : P → ℕ → W) (q : P) (i : ℕ) (w : W) : P → ℕ → W :=
  update mem q (update (mem q) i w)

theorem write_self [DecidableEq P] (mem : P → ℕ → W) (q : P) (i : ℕ) (w : W) :
    write mem q i w q i = w := by
  simp [write]

variable {p q : P} {mem : P → ℕ → W} {w : W} {i j : ℕ}

theorem write_of_ne [DecidableEq P] (h : ¬ (p = q ∧ j = i)) : write mem q i w p j = mem p j := by
  by_cases hp : p = q
  · subst hp
    have hj : j ≠ i := fun hj => h ⟨rfl, hj⟩
    simp [write, hj]
  · simp [write, hp]

/-- Clear the page `p` and refer to it. -/
def graft [DecidableEq P] (mem : P → ℕ → W) (p : P) (zero : W) (q : P) (i : ℕ) (w : W) :
    P → ℕ → W :=
  write (update mem p fun _ => zero) q i w

theorem graft_self [DecidableEq P] (mem : P → ℕ → W) (p : P) (zero : W) (q : P) (i : ℕ) (w : W) :
    graft mem p zero q i w q i = w :=
  write_self _ q i w

theorem graft_new [DecidableEq P] {zero : W} (h : p ≠ q) (j : ℕ) :
    graft mem p zero q i w p j = zero := by
  rw [graft, write_of_ne fun hp => h hp.1, update_self]

theorem graft_of_ne [DecidableEq P] {p' : P} {zero : W} (hp : p' ≠ p) (h : ¬ (p' = q ∧ j = i)) :
    graft mem p zero q i w p' j = mem p' j := by
  rw [graft, write_of_ne h, update_of_ne hp]

namespace Scheme

variable (S : Scheme P W K)

/-- The value of a key in the tree under a page of a level. -/
def look (mem : P → ℕ → W) (k : K) : ℕ → P → Option W
  | 0, p => if S.valid (mem p (S.index 0 k)) then some (mem p (S.index 0 k)) else none
  | L + 1, p =>
    if S.valid (mem p (S.index (L + 1) k)) then
      look mem k L (S.child (mem p (S.index (L + 1) k)))
    else none

/-- The page of level `0` in which the path of a key ends. -/
def reach (mem : P → ℕ → W) (k : K) : ℕ → P → Option P
  | 0, p => some p
  | L + 1, p =>
    if S.valid (mem p (S.index (L + 1) k)) then
      reach mem k L (S.child (mem p (S.index (L + 1) k)))
    else none

/-- Every valid word of a page above level `0` refers to a page of the next level. -/
def Tree (mem : P → ℕ → W) (owner : P → Option (Owner P)) : Prop :=
  ∀ p r L l, owner p = some ⟨r, L + 1, l⟩ → ∀ i, S.valid (mem p i) = true →
    owner (S.child (mem p i)) = some ⟨r, L, S.down l i⟩

/-- Pages have been added to the trees: those of before keep their place and their valid words
above level `0`, and no value has changed. -/
structure Extends (mem : P → ℕ → W) (owner : P → Option (Owner P)) (mem' : P → ℕ → W)
    (owner' : P → Option (Owner P)) : Prop where
  owned : ∀ p o, owner p = some o → owner' p = some o
  kept : ∀ p r L l i, owner p = some ⟨r, L + 1, l⟩ → S.valid (mem p i) = true →
    mem' p i = mem p i
  look_eq : ∀ k r L p, owner p = some ⟨r, L, S.label L k⟩ →
    S.look mem' k L p = S.look mem k L p

variable {S} {mem mem' mem'' : P → ℕ → W} {owner owner' owner'' : P → Option (Owner P)} {k k' : K}
  {p q r : P} {i l L : ℕ} {w zero : W}

theorem look_eq_reach (mem : P → ℕ → W) (k : K) (L : ℕ) :
    ∀ p : P, S.look mem k L p = (S.reach mem k L p).bind fun q =>
      if S.valid (mem q (S.index 0 k)) then some (mem q (S.index 0 k)) else none := by
  induction L with
  | zero =>
    intro p
    rfl
  | succ L ih =>
    intro p
    simp only [look, reach]
    split_ifs with hv
    · exact ih _
    · rfl

theorem look_congr (hk : ∀ L, S.index L k = S.index L k') (L : ℕ) :
    ∀ p : P, S.look mem k L p = S.look mem k' L p := by
  induction L with
  | zero =>
    intro p
    simp only [look, hk]
  | succ L ih =>
    intro p
    simp only [look, hk, ih]

theorem reach_ne_none (h : S.look mem k L p ≠ none) : S.reach mem k L p ≠ none := by
  intro hr
  rw [look_eq_reach, hr] at h
  exact h rfl

theorem look_clear (hz : S.valid zero = false) (hp : ∀ j, mem p j = zero) (L : ℕ) :
    S.look mem k L p = none := by
  cases L with
  | zero => simp [look, hp, hz]
  | succ L => simp [look, hp, hz]

namespace Tree

theorem child (h : S.Tree mem owner) (hp : owner p = some ⟨r, L + 1, S.label (L + 1) k⟩)
    (hv : S.valid (mem p (S.index (L + 1) k)) = true) :
    owner (S.child (mem p (S.index (L + 1) k))) = some ⟨r, L, S.label L k⟩ := by
  rw [S.label_eq L k]
  exact h p r L _ hp _ hv

theorem ne_of_owner {o o' : Option (Owner P)} (hp : owner p = o) (hq : owner q = o')
    (h : o ≠ o') : p ≠ q := by
  intro he
  rw [← hp, ← hq, he] at h
  exact h rfl

theorem owner_reach (h : S.Tree mem owner) (L : ℕ) :
    ∀ p : P, owner p = some ⟨r, L, S.label L k⟩ → S.reach mem k L p = some q →
      owner q = some ⟨r, 0, S.label 0 k⟩ := by
  induction L with
  | zero =>
    intro p hp hq
    cases hq
    exact hp
  | succ L ih =>
    intro p hp hq
    simp only [reach] at hq
    split_ifs at hq with hv
    exact ih _ (h.child hp hv) hq

variable [DecidableEq P]

section

variable (h : S.Tree mem owner) (hq : owner q = some ⟨r, 0, l⟩)

include h hq

/-- Writing a value keeps the trees. -/
theorem write :
    S.Tree (Radix.write mem q i w) owner := by
  intro p r' L' l' hp j hv
  have hne : p ≠ q := ne_of_owner hp hq (by simp)
  rw [write_of_ne fun hpq => hne hpq.1] at hv ⊢
  exact h p r' L' l' hp j hv

/-- **Writing a value** changes it for the keys of that page that select the word, and for no
other key.

**Proof sketch.** Induction on the level.  The pages above level `0` are not written, so the path
of the key stays the same; the page in which it ends is the written one only for the keys of that
page. -/
theorem look_write {r' : P} (hne : ¬ (r' = r ∧ S.label 0 k = l ∧ S.index 0 k = i)) (L : ℕ) :
    ∀ p : P, owner p = some ⟨r', L, S.label L k⟩ →
      S.look (Radix.write mem q i w) k L p = S.look mem k L p := by
  induction L with
  | zero =>
    intro p hp
    have hsel : ¬ (p = q ∧ S.index 0 k = i) := by
      intro hsel
      rw [hsel.1, hq] at hp
      cases hp
      exact hne ⟨rfl, rfl, hsel.2⟩
    simp only [look, write_of_ne hsel]
  | succ L ih =>
    intro p hp
    have hpq : p ≠ q := ne_of_owner hp hq (by simp)
    simp only [look, write_of_ne fun hsel : p = q ∧ _ => hpq hsel.1]
    split_ifs with hv
    · exact ih _ (h.child hp hv)
    · rfl

theorem reach_write {r' : P} (L : ℕ) :
    ∀ p : P, owner p = some ⟨r', L, S.label L k⟩ →
      S.reach (Radix.write mem q i w) k L p = S.reach mem k L p := by
  induction L with
  | zero =>
    intro p _
    rfl
  | succ L ih =>
    intro p hp
    have hpq : p ≠ q := ne_of_owner hp hq (by simp)
    simp only [reach, write_of_ne fun hsel : p = q ∧ _ => hpq hsel.1]
    split_ifs with hv
    · exact ih _ (h.child hp hv)
    · rfl

end

/-- Writing a value gives it to the keys that select the word. -/
theorem look_write_self (h : S.Tree mem owner) (hp : owner p = some ⟨r, L, S.label L k⟩)
    (hq : S.reach mem k L p = some q) :
    S.look (Radix.write mem q (S.index 0 k) w) k L p = if S.valid w then some w else none := by
  have howner := h.owner_reach L p hp hq
  rw [look_eq_reach, h.reach_write howner L p hp, hq, Option.bind_some, write_self]

theorem look_update (h : S.Tree mem owner) (hq : owner q = none) (f : ℕ → W) {r' : P} (L : ℕ) :
    ∀ p : P, owner p = some ⟨r', L, S.label L k⟩ →
      S.look (update mem q f) k L p = S.look mem k L p := by
  induction L with
  | zero =>
    intro p hp
    have hne : p ≠ q := ne_of_owner hp hq (by simp)
    simp only [look, update_of_ne hne]
  | succ L ih =>
    intro p hp
    have hne : p ≠ q := ne_of_owner hp hq (by simp)
    simp only [look, update_of_ne hne]
    split_ifs with hv
    · exact ih _ (h.child hp hv)
    · rfl

theorem newRoot (h : S.Tree mem owner) (hq : owner q = none) {zero : W}
    (hz : S.valid zero = false) (o : Owner P) :
    S.Tree (update mem q fun _ => zero) (update owner q (some o)) := by
  intro p r' L' l' hp i hv
  by_cases hpq : p = q
  · rw [hpq, update_self, hz] at hv
    cases hv
  · rw [update_of_ne hpq] at hp hv ⊢
    have hchild := h p r' L' l' hp i hv
    rw [update_of_ne (ne_of_owner hchild hq (by simp))]
    exact hchild

section

variable (h : S.Tree mem owner) (hq : owner q = some ⟨r, L + 1, l⟩)

include h hq

theorem look_graft (hv : S.valid (mem q i) = false) (hp : owner p = none)
    (hz : S.valid zero = false) (hw : S.child w = p) {r' : P} (L' : ℕ) :
    ∀ p' : P, owner p' = some ⟨r', L', S.label L' k⟩ →
      S.look (Radix.graft mem p zero q i w) k L' p' = S.look mem k L' p' := by
  induction L' with
  | zero =>
    intro p' hp'
    have hne : p' ≠ p := ne_of_owner hp' hp (by simp)
    have hpq : p' ≠ q := ne_of_owner hp' hq (by simp)
    simp only [look, graft_of_ne hne fun hsel : p' = q ∧ _ => hpq hsel.1]
  | succ L' ih =>
    intro p' hp'
    have hne : p' ≠ p := ne_of_owner hp' hp (by simp)
    by_cases hsel : p' = q ∧ S.index (L' + 1) k = i
    · obtain ⟨rfl, rfl⟩ := hsel
      have hend : S.look (Radix.graft mem p zero p' (S.index (L' + 1) k) w) k L' p = none :=
        look_clear hz (graft_new hne.symm) L'
      simp [look, graft_self, hw, hv, hend]
    · simp only [look, graft_of_ne hne hsel]
      split_ifs with hvalid
      · exact ih _ (h.child hp' hvalid)
      · rfl

/-- Grafting an empty page keeps the trees, with the page as a new node. -/
theorem graft (hp : owner p = none) (hz : S.valid zero = false) (hw : S.child w = p) :
    S.Tree (Radix.graft mem p zero q i w)
      (update owner p (some ⟨r, L, S.down l i⟩)) := by
  intro p' r' L' l' hp' j hvalid
  have hpq : p ≠ q := ne_of_owner hp hq (by simp)
  by_cases hne : p' = p
  · -- the new page has no valid word
    rw [hne, graft_new hpq, hz] at hvalid
    cases hvalid
  · rw [update_of_ne hne] at hp'
    by_cases hsel : p' = q ∧ j = i
    · obtain ⟨rfl, rfl⟩ := hsel
      rw [hq] at hp'
      cases hp'
      rw [graft_self, hw, update_self]
    · rw [graft_of_ne hne hsel] at hvalid ⊢
      have hchild := h p' r' L' l' hp' j hvalid
      rw [update_of_ne (ne_of_owner hchild hp (by simp))]
      exact hchild

/-- Grafting an empty page extends the trees. -/
theorem extends_graft (hv : S.valid (mem q i) = false) (hp : owner p = none)
    (hz : S.valid zero = false) (hw : S.child w = p) :
    S.Extends mem owner (Radix.graft mem p zero q i w)
      (update owner p (some ⟨r, L, S.down l i⟩)) where
  owned := by
    intro p' o hp'
    rw [update_of_ne (ne_of_owner hp' hp (by simp)), hp']
  kept := by
    intro p' r' L' l' j hp' hvalid
    refine graft_of_ne (ne_of_owner hp' hp (by simp)) ?_
    intro hsel
    rw [hsel.1, hsel.2, hv] at hvalid
    cases hvalid
  look_eq := fun k r' L' p' hp' => h.look_graft hq hv hp hz hw L' p' hp'

end

end Tree

namespace Extends

theorem refl (mem : P → ℕ → W) (owner : P → Option (Owner P)) : S.Extends mem owner mem owner :=
  ⟨fun _ _ h => h, fun _ _ _ _ _ _ _ => rfl, fun _ _ _ _ _ => rfl⟩

theorem trans (h : S.Extends mem owner mem' owner') (h' : S.Extends mem' owner' mem'' owner'') :
    S.Extends mem owner mem'' owner'' where
  owned := fun p o hp => h'.owned p o (h.owned p o hp)
  kept := by
    intro p r L l i hp hv
    have hkept := h.kept p r L l i hp hv
    rw [h'.kept p r L l i (h.owned p _ hp) (by rw [hkept, hv]), hkept]
  look_eq := by
    intro k r L p hp
    rw [h'.look_eq k r L p (h.owned p _ hp), h.look_eq k r L p hp]

end Extends

end Scheme

end Radix
