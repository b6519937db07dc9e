import Mathlib.Data.Nat.Find
import Mathlib.Data.Nat.Notation
import Mathlib.Logic.Function.Iterate

/-!
# Rooted trees given by parents

A type whose elements have a parent, such that going up from any element reaches the root.  The
elements on the way are its chain.

## Main results

* `ParentTree.induction` — the induction along parents.
* `ParentTree.mem_chain_total` — of two elements of a chain, one is an ancestor of the other.
* `ParentTree.exists_chain_eq_append` — the chain of an ancestor is the end of the chain.
* `ParentTree.parent_below` — going up from the element below leads back.
-/

/-- A tree given by the parents of its elements; what is above the root does not matter. -/
structure ParentTree (α : Type*) [DecidableEq α] where
  /-- The element above. -/
  parent : α → α
  /-- The root. -/
  root : α
  /-- Going up leads to the root. -/
  rooted : ∀ a, ∃ k, parent^[k] a = root

namespace ParentTree

variable {α : Type*} [DecidableEq α] (t : ParentTree α) {a b c child : α}

/-- The distance from the root. -/
def depth (a : α) : ℕ := Nat.find (t.rooted a)

theorem depth_parent (h : a ≠ t.root) : t.depth a = t.depth (t.parent a) + 1 := by
  have hspec : t.parent^[t.depth a] a = t.root := Nat.find_spec (t.rooted a)
  have hparent : t.parent^[t.depth (t.parent a)] (t.parent a) = t.root :=
    Nat.find_spec (t.rooted (t.parent a))
  apply le_antisymm
  · apply Nat.find_min'
    rw [Function.iterate_succ_apply]
    exact hparent
  · cases hdepth : t.depth a with
    | zero =>
      rw [hdepth] at hspec
      exact absurd hspec h
    | succ n =>
      rw [hdepth, Function.iterate_succ_apply] at hspec
      exact Nat.succ_le_succ (Nat.find_min' _ hspec)

/-- **Induction along parents.** -/
theorem induction {P : α → Prop} (hroot : P t.root)
    (hstep : ∀ a, a ≠ t.root → P (t.parent a) → P a) (a : α) : P a := by
  generalize hn : t.depth a = n
  induction n generalizing a with
  | zero =>
    by_cases h : a = t.root
    · rw [h]
      exact hroot
    · rw [t.depth_parent h] at hn
      cases hn
  | succ n ih =>
    by_cases h : a = t.root
    · rw [h]
      exact hroot
    · rw [t.depth_parent h] at hn
      exact hstep a h (ih _ (Nat.succ.inj hn))

/-- An element and its ancestors, up to the root. -/
def chain (a : α) : List α :=
  if _h : a = t.root then [a]
  else a :: chain (t.parent a)
termination_by t.depth a
decreasing_by
  have := t.depth_parent _h
  omega

@[simp] theorem chain_root : t.chain t.root = [t.root] := by
  rw [chain, dif_pos rfl]

theorem chain_of_ne (h : a ≠ t.root) : t.chain a = a :: t.chain (t.parent a) := by
  rw [chain, dif_neg h]

theorem mem_chain_self (a : α) : a ∈ t.chain a := by
  rw [chain]
  split_ifs
  · exact List.mem_singleton_self a
  · exact List.mem_cons_self

theorem mem_chain_parent (h : b ∈ t.chain a) (hne : b ≠ a) :
    a ≠ t.root ∧ b ∈ t.chain (t.parent a) := by
  by_cases hroot : a = t.root
  · rw [hroot, chain_root] at h
    exact absurd (List.mem_singleton.mp h) (hroot ▸ hne)
  · rw [t.chain_of_ne hroot] at h
    exact ⟨hroot, (List.mem_cons.mp h).resolve_left hne⟩

theorem mem_chain_of_parent (hroot : a ≠ t.root) (h : b ∈ t.chain (t.parent a)) :
    b ∈ t.chain a := by
  rw [t.chain_of_ne hroot]
  exact List.mem_cons_of_mem a h

theorem mem_chain_trans (h : b ∈ t.chain a) (h' : c ∈ t.chain b) : c ∈ t.chain a := by
  induction a using t.induction with
  | hroot =>
    rw [chain_root] at h
    rwa [List.mem_singleton.mp h] at h'
  | hstep a hroot ih =>
    by_cases hne : b = a
    · rwa [hne] at h'
    · exact t.mem_chain_of_parent hroot (ih (t.mem_chain_parent h hne).2)

theorem depth_le_of_mem (h : b ∈ t.chain a) : t.depth b ≤ t.depth a := by
  induction a using t.induction with
  | hroot =>
    rw [chain_root] at h
    rw [List.mem_singleton.mp h]
  | hstep a hroot ih =>
    by_cases hne : b = a
    · rw [hne]
    · have hle := ih (t.mem_chain_parent h hne).2
      have hdepth := t.depth_parent hroot
      omega

theorem not_mem_chain_parent (hroot : a ≠ t.root) : a ∉ t.chain (t.parent a) := by
  intro h
  have hle := t.depth_le_of_mem h
  have hdepth := t.depth_parent hroot
  omega

/-- **Of two elements of a chain, one is an ancestor of the other.** -/
theorem mem_chain_total (hb : b ∈ t.chain a) (hc : c ∈ t.chain a) :
    b ∈ t.chain c ∨ c ∈ t.chain b := by
  induction a using t.induction with
  | hroot =>
    rw [chain_root] at hb hc
    rw [List.mem_singleton.mp hb, List.mem_singleton.mp hc]
    exact Or.inl (t.mem_chain_self _)
  | hstep a hroot ih =>
    by_cases hba : b = a
    · rw [hba]
      exact Or.inr hc
    · by_cases hca : c = a
      · rw [hca]
        exact Or.inl hb
      · exact ih (t.mem_chain_parent hb hba).2 (t.mem_chain_parent hc hca).2

/-- **The chain of an ancestor is the end of the chain**, and what stands before it is not in it. -/
theorem exists_chain_eq_append (h : b ∈ t.chain a) :
    ∃ l, t.chain a = l ++ t.chain b ∧ ∀ c ∈ l, c ∉ t.chain b := by
  induction a using t.induction with
  | hroot =>
    rw [chain_root] at h
    rw [List.mem_singleton.mp h]
    exact ⟨[], rfl, by simp⟩
  | hstep a hroot ih =>
    by_cases hne : b = a
    · rw [hne]
      exact ⟨[], rfl, by simp⟩
    · have hparent := (t.mem_chain_parent h hne).2
      obtain ⟨l, hl, hnot⟩ := ih hparent
      refine ⟨a :: l, by rw [t.chain_of_ne hroot, hl, List.cons_append], ?_⟩
      refine List.forall_mem_cons.mpr ⟨fun ha => ?_, hnot⟩
      exact t.not_mem_chain_parent hroot (t.mem_chain_trans hparent ha)

/-- The element of the chain of `a` under `b`, and `child` for `a` itself. -/
def below (a child b : α) : α :=
  if b = a then child
  else if _h : a = t.root then child
  else below (t.parent a) a b
termination_by t.depth a
decreasing_by
  have := t.depth_parent _h
  omega

theorem below_self (a child : α) : t.below a child a = child := by
  rw [below, if_pos rfl]

theorem below_of_ne (hroot : a ≠ t.root) (hne : b ≠ a) :
    t.below a child b = t.below (t.parent a) a b := by
  rw [below, if_neg hne, dif_neg hroot]

/-- **Going up from the element below leads back.** -/
theorem parent_below (child : α) (hb : b ∈ t.chain a) (hne : b ≠ a) :
    t.below a child b ∈ t.chain a ∧ t.below a child b ≠ t.root ∧
      t.parent (t.below a child b) = b := by
  induction a using t.induction generalizing child with
  | hroot =>
    rw [chain_root] at hb
    exact absurd (List.mem_singleton.mp hb) hne
  | hstep a hroot ih =>
    have hparent := (t.mem_chain_parent hb hne).2
    rw [t.below_of_ne hroot hne]
    by_cases heq : b = t.parent a
    · rw [heq, below_self]
      exact ⟨t.mem_chain_self a, hroot, rfl⟩
    · obtain ⟨hmem, hne', hup⟩ := ih a hparent heq
      exact ⟨t.mem_chain_of_parent hroot hmem, hne', hup⟩

end ParentTree
