import Mathlib.Data.List.Sort
import Mathlib.Data.Tree.Basic

/-!
# Search trees with repeated keys

A binary tree whose values are ordered by a key.  A value is linked into the tree at the leaf that
a descent finds which goes left only for a strictly smaller key, so it comes after the values with
an equal key.  A balanced tree rearranges its nodes when a value is linked or removed; all that is
used of that is that the sequence of the values stays the same.

## Main results

* `SearchTree.inorder_link` — linking inserts the value behind those with a key up to its own.
* `SearchTree.pairwise_orderedInsert` — an order that refines the keys is kept.
-/

namespace SearchTree

variable {α κ : Type*}

/-- The values of a tree from left to right. -/
def inorder : BinaryTree α → List α
  | .nil => []
  | .node x l r => inorder l ++ x :: inorder r

@[simp] theorem inorder_nil : inorder (.nil : BinaryTree α) = [] := rfl

@[simp] theorem inorder_node (x : α) (l r : BinaryTree α) :
    inorder (.node x l r) = inorder l ++ x :: inorder r := rfl

section Link

variable [LinearOrder κ] (key : α → κ)

/-- Link a value at the leaf that is found by going left for a smaller key. -/
def link (x : α) : BinaryTree α → BinaryTree α
  | .nil => .node x .nil .nil
  | .node y l r => if key x < key y then .node y (link x l) r else .node y l (link x r)

variable {key} {x y : α} {l r : List α}

theorem orderedInsert_append_of_lt (h : key x < key y) :
    (l ++ y :: r).orderedInsert (fun a b => key a < key b) x =
      l.orderedInsert (fun a b => key a < key b) x ++ y :: r := by
  induction l with
  | nil => simp [h]
  | cons z l ih =>
    by_cases hz : key x < key z
    · simp [hz]
    · simp [hz, ih]

theorem orderedInsert_append_of_le (h : ∀ a ∈ l, key a ≤ key x) :
    (l ++ r).orderedInsert (fun a b => key a < key b) x =
      l ++ r.orderedInsert (fun a b => key a < key b) x := by
  induction l with
  | nil => simp
  | cons z l ih =>
    have hz : ¬ key x < key z := not_lt.mpr (h z List.mem_cons_self)
    simp [hz, ih fun a ha => h a (List.mem_cons_of_mem z ha)]

/-- **Linking** inserts the value behind those with a key up to its own.

**Proof sketch.** Induction on the tree.  If the descent goes right, the keys on the left are at
most the one of the root, which is at most the new one. -/
theorem inorder_link (x : α) (t : BinaryTree α)
    (hs : (inorder t).Pairwise fun a b => key a ≤ key b) :
    inorder (link key x t) = (inorder t).orderedInsert (fun a b => key a < key b) x := by
  induction t with
  | nil => simp [link]
  | node y l r ihl ihr =>
    rw [inorder_node, List.pairwise_append, List.pairwise_cons] at hs
    obtain ⟨hl, ⟨-, hr⟩, hlr⟩ := hs
    by_cases h : key x < key y
    · rw [link, if_pos h, inorder_node, ihl hl, inorder_node, orderedInsert_append_of_lt h]
    · have hy : key y ≤ key x := not_lt.mp h
      have hle : ∀ a ∈ inorder l, key a ≤ key x := by
        intro a ha
        exact (hlr a ha y List.mem_cons_self).trans hy
      rw [link, if_neg h, inorder_node, ihr hr, inorder_node, orderedInsert_append_of_le hle,
        List.orderedInsert_cons, if_neg h]

/-- An order that refines the keys is kept, if it puts the new value between those with a key up
to its own and those with a larger key. -/
theorem pairwise_orderedInsert {R : α → α → Prop} (hkey : ∀ a b, R a b → key a ≤ key b)
    (hbefore : ∀ a ∈ l, key a ≤ key x → R a x) (hafter : ∀ a ∈ l, key x < key a → R x a)
    (hl : l.Pairwise R) : (l.orderedInsert (fun a b => key a < key b) x).Pairwise R := by
  induction l with
  | nil => simp
  | cons y l ih =>
    rw [List.pairwise_cons] at hl
    by_cases h : key x < key y
    · rw [List.orderedInsert_cons, if_pos h, List.pairwise_cons, List.pairwise_cons]
      refine ⟨?_, hl⟩
      intro a ha
      apply hafter a ha
      cases List.mem_cons.mp ha with
      | inl he => rwa [he]
      | inr ha => exact h.trans_le (hkey y a (hl.1 a ha))
    · rw [List.orderedInsert_cons, if_neg h, List.pairwise_cons]
      refine ⟨?_, ih ?_ ?_ hl.2⟩
      · intro a ha
        cases List.mem_cons.mp ((List.perm_orderedInsert _ x l).subset ha) with
        | inl he =>
          rw [he]
          exact hbefore y List.mem_cons_self (not_lt.mp h)
        | inr ha => exact hl.1 a ha
      · intro a ha
        exact hbefore a (List.mem_cons_of_mem y ha)
      · intro a ha
        exact hafter a (List.mem_cons_of_mem y ha)

theorem head?_orderedInsert (x : α) (l : List α) :
    (l.orderedInsert (fun a b => key a < key b) x).head? =
      match l.head? with
      | none => some x
      | some y => if key x < key y then some x else some y := by
  cases l with
  | nil => rfl
  | cons y l =>
    by_cases h : key x < key y
    · simp [h]
    · simp [h]

end Link

/-! ## Rearranging and removal -/

/-- What a balanced tree does after a value is linked and to remove a value. -/
structure Balance (α : Type*) [DecidableEq α] where
  /-- Rearrange the nodes after a value was linked. -/
  insertColor : BinaryTree α → BinaryTree α
  /-- Remove a value. -/
  erase : BinaryTree α → α → BinaryTree α
  /-- Rearranging keeps the sequence. -/
  inorder_insertColor : ∀ t, inorder (insertColor t) = inorder t
  /-- Removal takes the value from the sequence. -/
  inorder_erase : ∀ t x, inorder (erase t x) = (inorder t).erase x

/-- The tree without left branches that has a given sequence. -/
def spine : List α → BinaryTree α
  | [] => .nil
  | x :: l => .node x .nil (spine l)

@[simp] theorem inorder_spine (l : List α) : inorder (spine l) = l := by
  induction l with
  | nil => rfl
  | cons x l ih => simp [spine, ih]

/-- Trees that are not balanced at all. -/
def Balance.trivial (α : Type*) [DecidableEq α] : Balance α where
  insertColor t := t
  erase t x := spine ((inorder t).erase x)
  inorder_insertColor _ := rfl
  inorder_erase _ _ := inorder_spine _

end SearchTree
