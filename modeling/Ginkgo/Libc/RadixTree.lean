import Ginkgo.Lib.Lts
import Ginkgo.Lib.Radix
import Mathlib.Data.List.Basic
import Mathlib.Data.Nat.Bitwise
import Mathlib.Tactic.Linarith
import Mathlib.Tactic.Ring

/-!
# Radix trees

The model of `radix.c`.  A node is an array of 512 words, which are children above the leaf level
and values on it; the eight indices of a key have nine bits each, but for the last one, which has
a single bit.

The nodes are those of one tree, and the `n`-th node that is allocated has the address `n`.  The
allocator is asked for a node in `radix_set`, and its answers are part of the state.

## Main results

* `radixRuns_map` — a tree is a map of all keys, whatever allocations fail.
* `radixRuns_free` — freeing a tree deletes the value of each key once.
-/

namespace Ginkgo.Libc

open Function (update update_self update_of_ne update_apply)

/-! ## The functions of the source -/

/-- `RADIX_NODE_BITS`. -/
def radixNodeBits : ℕ := 9

/-- `RADIX_NODE_SIZE`. -/
def radixNodeSize : ℕ := 1 <<< radixNodeBits

/-- `RADIX_NODE_MASK`. -/
def radixNodeMask : ℕ := radixNodeSize - 1

/-- `RADIX_LEVELS`, for keys of `RADIX_MAX_BITS = 64` bits. -/
def radixLevels : ℕ := (64 + radixNodeBits - 1) / radixNodeBits

/-- `struct radix`, with its nodes and the allocator. -/
structure RadixTree where
  /-- The address of the root, or zero. -/
  root : ℕ
  /-- `value_deleter` is not `NULL`. -/
  valueDeleter : Bool
  /-- The words of the nodes. -/
  nodes : ℕ → ℕ → ℕ
  /-- The number of nodes that have been allocated. -/
  next : ℕ
  /-- The allocations that are yet to succeed or fail; when there are none left, they fail. -/
  answers : List Bool

/-- `new_radix`, with a deleter installed or not. -/
def newRadix (answers : List Bool) (valueDeleter : Bool) : RadixTree :=
  { root := 0, valueDeleter, nodes := fun _ _ => 0, next := 0, answers }

/-- `new_radix_node`: an empty node, or zero. -/
def newRadixNode (t : RadixTree) : ℕ × RadixTree :=
  match t.answers with
  | true :: answers => (t.next + 1, { t with
      nodes := update t.nodes (t.next + 1) fun _ => 0
      next := t.next + 1
      answers })
  | false :: answers => (0, { t with answers })
  | [] => (0, t)

/-- `index[i]` in `radix_set` and `radix_get`, when the key has been shifted `i` times. -/
def radixIndex (i key : ℕ) : ℕ :=
  key >>> (radixNodeBits * i) &&& radixNodeMask

/-- The first statement of `radix_set`, which allocates the root. -/
def radixRoot (t : RadixTree) : Bool × RadixTree :=
  if t.root = 0 then
    let r := newRadixNode t
    if r.1 = 0 then (false, r.2) else (true, { r.2 with root := r.1 })
  else (true, t)

/-- The loop of `radix_set` over the intermediate levels, which returns the leaf. -/
def radixSetLoop (key : ℕ) : ℕ → ℕ → RadixTree → Option ℕ × RadixTree
  | 0, node, t => (some node, t)
  | i + 1, node, t =>
    let k := radixIndex (i + 1) key
    if t.nodes node k = 0 then
      let r := newRadixNode t
      if r.1 = 0 then (none, r.2)
      else radixSetLoop key i r.1 { r.2 with nodes := Radix.write r.2.nodes node k r.1 }
    else radixSetLoop key i (t.nodes node k) t

/-- `radix_set`. -/
def radixSet (t : RadixTree) (key value : ℕ) : Bool × RadixTree :=
  match radixRoot t with
  | (false, t) => (false, t)
  | (true, t) =>
    match radixSetLoop key (radixLevels - 1) t.root t with
    | (none, t) => (false, t)
    | (some node, t) =>
      (true, { t with nodes := Radix.write t.nodes node (radixIndex 0 key) value })

/-- The loop of `radix_get`. -/
def radixGetLoop (nodes : ℕ → ℕ → ℕ) (key : ℕ) : ℕ → ℕ → ℕ
  | 0, node => nodes node (radixIndex 0 key)
  | i + 1, node =>
    let k := radixIndex (i + 1) key
    if nodes node k = 0 then 0 else radixGetLoop nodes key i (nodes node k)

/-- `radix_get`. -/
def radixGet (t : RadixTree) (key : ℕ) : ℕ :=
  if t.root = 0 then 0 else radixGetLoop t.nodes key (radixLevels - 1) t.root

/-- `radix_clear`. -/
def radixClear (t : RadixTree) (key : ℕ) : Bool × RadixTree := radixSet t key 0

/-- What `radix_free_node` does: it enters a node, or calls the deleter. -/
inductive FreeEvent
  | node (height node : ℕ)
  | value (v : ℕ)
deriving DecidableEq, Repr

/-- `radix_free_node`, for a node at `node_level = RADIX_LEVELS - 1 - height`. -/
def radixFreeNode (nodes : ℕ → ℕ → ℕ) (valueDeleter : Bool) : ℕ → ℕ → List FreeEvent
  | 0, node =>
    if node = 0 then []
    else .node 0 node :: if valueDeleter then
      (List.range radixNodeSize).filterMap fun i =>
        if nodes node i = 0 then none else some (.value (nodes node i))
    else []
  | height + 1, node =>
    if node = 0 then []
    else .node (height + 1) node :: (List.range radixNodeSize).flatMap fun i =>
      if nodes node i = 0 then [] else radixFreeNode nodes valueDeleter height (nodes node i)

/-- `radix_free`. -/
def radixFree (t : RadixTree) : Bool × List FreeEvent :=
  if t.root = 0 then (false, [])
  else (true, radixFreeNode t.nodes t.valueDeleter (radixLevels - 1) t.root)

/-! ## The levels of a tree -/

theorem radixIndex_eq (i key : ℕ) : radixIndex i key = key / 512 ^ i % 512 := by
  unfold radixIndex radixNodeBits
  rw [show radixNodeMask = 2 ^ 9 - 1 from rfl, Nat.and_two_pow_sub_one_eq_mod,
    Nat.shiftRight_eq_div_pow, pow_mul]
  norm_num

/-- How the nodes are read. -/
def radixScheme : Radix.Scheme ℕ ℕ ℕ where
  valid w := w != 0
  child w := w
  index := radixIndex
  label level key := key / 512 ^ (level + 1)
  down l i := l * 512 + i
  label_eq := fun level key => by
    rw [radixIndex_eq, pow_succ 512 (level + 1), ← Nat.div_div_eq_div_mul, Nat.div_add_mod']

theorem radixScheme_valid {w : ℕ} : radixScheme.valid w = true ↔ w ≠ 0 := bne_iff_ne

theorem radixScheme_look_succ (nodes : ℕ → ℕ → ℕ) (key i node : ℕ) :
    radixScheme.look nodes key (i + 1) node = if nodes node (radixIndex (i + 1) key) = 0 then none
      else radixScheme.look nodes key i (nodes node (radixIndex (i + 1) key)) := by
  simp only [Radix.Scheme.look, radixScheme_valid, ite_not]
  rfl

theorem radixScheme_look_zero (nodes : ℕ → ℕ → ℕ) (key node : ℕ) :
    radixScheme.look nodes key 0 node = if nodes node (radixIndex 0 key) = 0 then none
      else some (nodes node (radixIndex 0 key)) := by
  simp only [Radix.Scheme.look, radixScheme_valid, ite_not]
  rfl

theorem radixGetLoop_eq (nodes : ℕ → ℕ → ℕ) (key i : ℕ) : ∀ node,
    radixGetLoop nodes key i node = (radixScheme.look nodes key i node).getD 0 := by
  induction i with
  | zero =>
    intro node
    rw [radixGetLoop, radixScheme_look_zero]
    split_ifs with hw
    · exact hw
    · rfl
  | succ i ih =>
    intro node
    rw [radixGetLoop, radixScheme_look_succ]
    split_ifs
    · rfl
    · exact ih _

/-- **The nodes form a tree of eight levels**, of which the root uses only the children of one
bit. -/
structure RadixInv (t : RadixTree) (owner : ℕ → Option (Radix.Owner ℕ)) : Prop where
  tree : radixScheme.Tree t.nodes owner
  alloc : ∀ p o, owner p = some o → p ≤ t.next
  root : t.root ≠ 0 → owner t.root = some ⟨t.root, 7, 0⟩
  top : ∀ p r l i, owner p = some ⟨r, 7, l⟩ → 2 ≤ i → t.nodes p i = 0

variable {t t' : RadixTree} {owner : ℕ → Option (Radix.Owner ℕ)} {key k value : ℕ}

theorem label_top (hkey : key < 2 ^ 64) : radixScheme.label 7 key = 0 :=
  Nat.div_eq_of_lt (hkey.trans (by norm_num))

theorem radixIndex_top (hkey : key < 2 ^ 64) : radixIndex 7 key < 2 := by
  rw [radixIndex_eq]
  omega

theorem reach_of_word {nodes : ℕ → ℕ → ℕ} {L p q w : ℕ}
    (hw : nodes p (radixIndex (L + 1) key) = w) (hne : w ≠ 0)
    (hq : radixScheme.reach nodes key L w = some q) :
    radixScheme.reach nodes key (L + 1) p = some q := by
  subst hw
  exact (if_pos (radixScheme_valid.mpr hne)).trans hq

theorem newRadixNode_cases (t : RadixTree) :
    (∃ answers, newRadixNode t = (0, { t with answers })) ∨
    ∃ answers, newRadixNode t = (t.next + 1, { t with
      nodes := update t.nodes (t.next + 1) fun _ => 0
      next := t.next + 1
      answers }) := by
  unfold newRadixNode
  split
  · exact Or.inr ⟨_, rfl⟩
  · exact Or.inl ⟨_, rfl⟩
  · exact Or.inl ⟨t.answers, rfl⟩

theorem RadixInv.fresh (h : RadixInv t owner) : owner (t.next + 1) = none := by
  by_contra hne
  obtain ⟨o, ho⟩ := Option.ne_none_iff_exists'.mp hne
  have := h.alloc _ _ ho
  omega

theorem RadixInv.ne_fresh (h : RadixInv t owner) {p : ℕ} {o : Radix.Owner ℕ}
    (hp : owner p = some o) : p ≠ t.next + 1 := by
  have := h.alloc p o hp
  omega

theorem RadixInv.alloc_update (h : RadixInv t owner) (o : Radix.Owner ℕ) (p : ℕ)
    (o' : Radix.Owner ℕ) (hp : update owner (t.next + 1) (some o) p = some o') :
    p ≤ t.next + 1 := by
  by_cases hne : p = t.next + 1
  · exact hne.le
  · rw [update_of_ne hne] at hp
    exact (h.alloc p o' hp).trans (Nat.le_succ _)

theorem RadixInv.graft (h : RadixInv t owner) {p r L : ℕ} (hkey : key < 2 ^ 64)
    (hp : owner p = some ⟨r, L + 1, radixScheme.label (L + 1) key⟩)
    (hzero : t.nodes p (radixIndex (L + 1) key) = 0) (answers : List Bool) :
    let nodes := Radix.graft t.nodes (t.next + 1) 0 p (radixIndex (L + 1) key) (t.next + 1)
    let owner' := update owner (t.next + 1) (some ⟨r, L, radixScheme.label L key⟩)
    RadixInv { t with nodes, next := t.next + 1, answers } owner' ∧
      radixScheme.Extends t.nodes owner nodes owner' := by
  have hzero' : radixScheme.valid 0 = false := rfl
  have hchild : radixScheme.child (t.next + 1) = t.next + 1 := rfl
  have hext := h.tree.extends_graft hp (bne_eq_false_iff_eq.mpr hzero) h.fresh
    hzero' hchild
  have htree := h.tree.graft hp h.fresh hzero' hchild (i := radixIndex (L + 1) key)
  rw [radixScheme.label_eq L key]
  refine ⟨⟨htree, h.alloc_update _, fun hroot => hext.owned _ _ (h.root hroot), ?_⟩, hext⟩
  intro q r' l i hq hi
  dsimp only at hq ⊢
  by_cases hne : q = t.next + 1
  · rw [hne, Radix.graft_new (h.ne_fresh hp).symm]
  · rw [update_of_ne hne] at hq
    rw [Radix.graft_of_ne hne ?_]
    · exact h.top q r' l i hq hi
    · rintro ⟨rfl, rfl⟩
      rw [hp] at hq
      cases hq
      exact absurd (radixIndex_top hkey) (not_lt.mpr hi)

theorem radixSetLoop_spec {r : ℕ} (hkey : key < 2 ^ 64) (L : ℕ) :
    ∀ (node : ℕ) (t : RadixTree) (owner : ℕ → Option (Radix.Owner ℕ)), RadixInv t owner →
      owner node = some ⟨r, L, radixScheme.label L key⟩ →
      ∃ owner', RadixInv (radixSetLoop key L node t).2 owner' ∧
        radixScheme.Extends t.nodes owner (radixSetLoop key L node t).2.nodes owner' ∧
        (radixSetLoop key L node t).2.root = t.root ∧
        ∀ leaf, (radixSetLoop key L node t).1 = some leaf →
          radixScheme.reach (radixSetLoop key L node t).2.nodes key L node = some leaf := by
  induction L with
  | zero => exact fun node t owner h hnode => ⟨owner, h, .refl _ _, rfl, fun leaf hleaf => hleaf⟩
  | succ L ih =>
    intro node t owner h hnode
    rw [radixSetLoop]
    by_cases hzero : t.nodes node (radixIndex (L + 1) key) = 0
    · rw [if_pos hzero]
      rcases newRadixNode_cases t with ⟨answers, heq⟩ | ⟨answers, heq⟩
      · rw [heq, if_pos rfl]
        exact ⟨owner, ⟨h.tree, h.alloc, h.root, h.top⟩, .refl _ _, rfl, fun leaf hleaf => by
          cases hleaf⟩
      · rw [heq, if_neg (Nat.succ_ne_zero _)]
        obtain ⟨hinv, hext⟩ := h.graft hkey hnode hzero answers
        obtain ⟨owner', hinv', hext', hroot, hleaf⟩ := ih (t.next + 1) _ _ hinv
          (update_self _ _ _)
        refine ⟨owner', hinv', hext.trans hext', hroot, fun leaf hsome => ?_⟩
        -- the word of the new node is not written by the rest of the loop
        have hself := Radix.graft_self t.nodes (t.next + 1) 0 node (radixIndex (L + 1) key)
          (t.next + 1)
        have hkept := hext'.kept node _ _ _ (radixIndex (L + 1) key) (hext.owned node _ hnode)
          (radixScheme_valid.mpr (hself.trans_ne (Nat.succ_ne_zero _)))
        exact reach_of_word (hkept.trans hself) (Nat.succ_ne_zero _) (hleaf leaf hsome)
    · rw [if_neg hzero]
      obtain ⟨owner', hinv', hext, hroot, hleaf⟩ := ih _ t owner h
        (h.tree.child hnode (radixScheme_valid.mpr hzero))
      exact ⟨owner', hinv', hext, hroot, fun leaf hsome =>
        reach_of_word (hext.kept node _ _ _ _ hnode (radixScheme_valid.mpr hzero)) hzero
          (hleaf leaf hsome)⟩

/-! ## The operations -/

theorem radixGet_eq (hroot : t.root ≠ 0) :
    radixGet t k = (radixScheme.look t.nodes k 7 t.root).getD 0 := by
  rw [radixGet, if_neg hroot]
  exact radixGetLoop_eq _ _ _ _

theorem RadixInv.root_label (h : RadixInv t owner) (hroot : t.root ≠ 0) (hk : k < 2 ^ 64) :
    owner t.root = some ⟨t.root, 7, radixScheme.label 7 k⟩ := by
  rw [label_top hk]
  exact h.root hroot

theorem radixRoot_spec (h : RadixInv t owner) :
    ∃ owner', RadixInv (radixRoot t).2 owner' ∧
      (∀ k, radixGet (radixRoot t).2 k = radixGet t k) ∧
      ((radixRoot t).1 = true → (radixRoot t).2.root ≠ 0) := by
  unfold radixRoot
  by_cases hroot : t.root = 0
  · rw [if_pos hroot]
    rcases newRadixNode_cases t with ⟨answers, heq⟩ | ⟨answers, heq⟩
    · rw [heq]
      exact ⟨owner, ⟨h.tree, h.alloc, h.root, h.top⟩, fun k => rfl, fun hfalse => by
        cases hfalse⟩
    · rw [heq, if_neg (Nat.succ_ne_zero _)]
      refine ⟨update owner (t.next + 1) (some ⟨t.next + 1, 7, 0⟩),
        ⟨h.tree.newRoot h.fresh rfl _, h.alloc_update _, fun _ => update_self _ _ _, ?_⟩,
        fun k => ?_, fun _ => Nat.succ_ne_zero _⟩
      · intro p r l i hp hi
        dsimp only
        by_cases hne : p = t.next + 1
        · rw [hne, update_self]
        · rw [update_of_ne hne] at hp ⊢
          exact h.top p r l i hp hi
      · rw [radixGet_eq (Nat.succ_ne_zero _), radixGet, if_pos hroot]
        dsimp only
        rw [Radix.Scheme.look_clear (show radixScheme.valid 0 = false from rfl) fun j => by
          rw [update_self]]
        rfl
  · rw [if_neg hroot]
    exact ⟨owner, h, fun k => rfl, fun _ => hroot⟩

theorem key_eq (hlabel : radixScheme.label 0 k = radixScheme.label 0 key)
    (hindex : radixIndex 0 k = radixIndex 0 key) : k = key := by
  simp only [radixIndex_eq, pow_zero, Nat.div_one] at hindex
  have hlabel' : k / 512 = key / 512 := hlabel
  omega

theorem radixSet_spec (h : RadixInv t owner) (hkey : key < 2 ^ 64) (value : ℕ) :
    ∃ owner', RadixInv (radixSet t key value).2 owner' ∧
      ((radixSet t key value).1 = false →
        ∀ k < 2 ^ 64, radixGet (radixSet t key value).2 k = radixGet t k) ∧
      ((radixSet t key value).1 = true → ∀ k < 2 ^ 64,
        radixGet (radixSet t key value).2 k = if k = key then value else radixGet t k) := by
  obtain ⟨owner₁, h₁, hget₁, hroot₁⟩ := radixRoot_spec h
  unfold radixSet
  rcases hr : radixRoot t with ⟨_ | _, t₁⟩
  · rw [hr] at h₁ hget₁
    exact ⟨owner₁, h₁, fun _ k _ => hget₁ k, fun htrue => by cases htrue⟩
  · rw [hr] at h₁ hget₁ hroot₁
    have hroot := hroot₁ rfl
    obtain ⟨owner₂, h₂, hext, hroot₂, hleaf⟩ := radixSetLoop_spec hkey 7 t₁.root t₁ owner₁ h₁
      (h₁.root_label hroot hkey)
    dsimp only at h₂ hext hroot hroot₂ hleaf hget₁ ⊢
    rw [show radixLevels - 1 = 7 from rfl]
    have hget₂ : ∀ k < 2 ^ 64,
        (radixScheme.look (radixSetLoop key 7 t₁.root t₁).2.nodes k 7 t₁.root).getD 0 =
          radixGet t k := fun k hk => by
      rw [← hget₁, radixGet_eq hroot, hext.look_eq k _ 7 _ (h₁.root_label hroot hk)]
    rcases hl : radixSetLoop key 7 t₁.root t₁ with ⟨_ | leaf, t₂⟩
    · rw [hl] at h₂ hroot₂ hget₂
      refine ⟨owner₂, h₂, fun _ k hk => ?_, fun htrue => by cases htrue⟩
      rw [radixGet_eq (hroot₂ ▸ hroot), hroot₂, hget₂ k hk]
    · rw [hl] at h₂ hroot₂ hget₂ hleaf
      dsimp only at h₂ hroot₂ hget₂ hleaf ⊢
      have hown := fun k (hk : k < 2 ^ 64) => h₂.root_label (hroot₂ ▸ hroot) hk
      rw [hroot₂] at hown
      have hown₀ := h₂.tree.owner_reach 7 _ (hown key hkey) (hleaf leaf rfl)
      refine ⟨owner₂, ⟨h₂.tree.write hown₀, h₂.alloc, h₂.root, ?_⟩,
        fun hfalse => (by cases hfalse), fun _ k hk => ?_⟩
      · intro p r l i hp hi
        have hne : p ≠ leaf := Radix.Scheme.Tree.ne_of_owner hp hown₀ (by simp)
        dsimp only
        rw [Radix.write_of_ne fun hsel => hne hsel.1]
        exact h₂.top p r l i hp hi
      · rw [radixGet_eq (hroot₂ ▸ hroot)]
        dsimp only
        rw [hroot₂]
        by_cases hne : k = key
        · rw [if_pos hne, hne]
          refine (congrArg (Option.getD · 0)
            (h₂.tree.look_write_self (hown key hkey) (hleaf leaf rfl))).trans ?_
          by_cases hv : value = 0
          · simp [hv, radixScheme]
          · simp [hv, radixScheme]
        · rw [if_neg hne, ← hget₂ k hk]
          exact congrArg (Option.getD · 0) (h₂.tree.look_write hown₀
            (fun hsel => hne (key_eq hsel.2.1 hsel.2.2)) 7 _ (hown k hk))

/-! ## Runs -/

/-- The calls of a run, with the keys of 64 bits. -/
inductive RadixCall
  | set (key : Fin (2 ^ 64)) (value : ℕ)
  | clear (key : Fin (2 ^ 64))
  | get (key : Fin (2 ^ 64))

/-- A tree, with the value that was set last for each key. -/
structure RadixRun where
  /-- The tree. -/
  tree : RadixTree
  /-- The value of the last successful `radix_set`. -/
  last : Fin (2 ^ 64) → ℕ

/-- A call of `radix_set` that has returned. -/
def RadixRun.returned (s : RadixRun) (key : Fin (2 ^ 64)) (value : ℕ) (r : Bool × RadixTree) :
    RadixRun :=
  ⟨r.2, if r.1 then update s.last key value else s.last⟩

/-- The runs of calls, from a new tree and for any answers of the allocator. -/
def radixRuns : Lts.System RadixRun RadixCall Empty where
  init s := ∃ answers valueDeleter, s = ⟨newRadix answers valueDeleter, fun _ => 0⟩
  step s
    | .set key value => .ok (s.returned key value (radixSet s.tree key value))
    | .clear key => .ok (s.returned key 0 (radixClear s.tree key))
    | .get _ => .ok s

/-- The invariant of a run. -/
structure RadixRun.Inv (s : RadixRun) : Prop where
  tree : ∃ owner, RadixInv s.tree owner
  get : ∀ k : Fin (2 ^ 64), radixGet s.tree k = s.last k

theorem RadixRun.Inv.returned {s : RadixRun} (h : s.Inv) (key : Fin (2 ^ 64)) (value : ℕ) :
    (s.returned key value (radixSet s.tree key value)).Inv := by
  obtain ⟨owner, htree⟩ := h.tree
  obtain ⟨owner', htree', hfalse, htrue⟩ := radixSet_spec htree key.isLt value
  refine ⟨⟨owner', htree'⟩, fun k => ?_⟩
  dsimp only [RadixRun.returned]
  by_cases hok : (radixSet s.tree key value).1 = true
  · rw [htrue hok k k.isLt, if_pos hok, update_apply, h.get k]
    simp only [Fin.val_inj]
  · rw [hfalse (Bool.eq_false_of_not_eq_true hok) k k.isLt, if_neg hok, h.get k]

theorem RadixRun.Inv.of_reachable {s : RadixRun} (h : radixRuns.Reachable s) : s.Inv := by
  refine h.invariant ?_ ?_
  · rintro _ ⟨answers, valueDeleter, rfl⟩
    exact ⟨⟨fun _ => none, ⟨fun p r L l hp => (by cases hp), fun p o hp => (by cases hp),
      fun hroot => absurd rfl hroot, fun p r l i hp => (by cases hp)⟩⟩, fun k => rfl⟩
  · rintro s (⟨key, value⟩ | ⟨key⟩ | ⟨key⟩) s' h - hstep
    · cases hstep
      exact h.returned key value
    · cases hstep
      exact h.returned key 0
    · cases hstep
      exact h

theorem exists_radixRun_one : ∃ s, radixRuns.Reachable s ∧ s.tree.answers = [] ∧
    s.tree.valueDeleter = true ∧ s.last ⟨5, by decide⟩ = 7 := by
  refine ⟨_, .step (.set ⟨5, by decide⟩ 7) (.init ⟨List.replicate 8 true, true, rfl⟩) trivial rfl,
    ?_, ?_, ?_⟩ <;> decide +kernel

/-- **A radix tree is a map of all keys.**  In every run, and whatever allocations fail,
`radix_get` returns the value that was set last, and a call of `radix_set` that returns `FALSE`
changes no value. -/
theorem radixRuns_map {s : RadixRun} (h : radixRuns.Reachable s) :
    (∀ k : Fin (2 ^ 64), radixGet s.tree k = s.last k) ∧
      ∀ (key : Fin (2 ^ 64)) (value : ℕ), (radixSet s.tree key value).1 = false →
        ∀ k : Fin (2 ^ 64), radixGet (radixSet s.tree key value).2 k = radixGet s.tree k := by
  have hinv := RadixRun.Inv.of_reachable h
  obtain ⟨owner, htree⟩ := hinv.tree
  refine ⟨hinv.get, fun key value hfalse k => ?_⟩
  obtain ⟨-, -, hget, -⟩ := radixSet_spec htree key.isLt value
  exact hget hfalse k k.isLt

theorem radixRuns_map_one : ∃ s, radixRuns.Reachable s ∧ s.tree.answers = [] ∧
    s.last ⟨5, by decide⟩ = 7 ∧ (∀ k : Fin (2 ^ 64), radixGet s.tree k = s.last k) ∧
      ∀ (key : Fin (2 ^ 64)) (value : ℕ), (radixSet s.tree key value).1 = false →
        ∀ k : Fin (2 ^ 64), radixGet (radixSet s.tree key value).2 k = radixGet s.tree k := by
  obtain ⟨s, h, hanswers, -, hlast⟩ := exists_radixRun_one
  exact ⟨s, h, hanswers, hlast, radixRuns_map h⟩

/-! ## Freeing a tree -/

/-- The value that an event deletes. -/
def FreeEvent.value? : FreeEvent → Option ℕ
  | .node _ _ => none
  | .value v => some v

/-- The nodes through which a key passes, with their heights. -/
def radixPath (nodes : ℕ → ℕ → ℕ) (key : ℕ) : ℕ → ℕ → List (ℕ × ℕ)
  | 0, node => [(0, node)]
  | i + 1, node => (i + 1, node) :: if nodes node (radixIndex (i + 1) key) = 0 then []
      else radixPath nodes key i (nodes node (radixIndex (i + 1) key))

/-- The keys that pass through a node of a height and a label. -/
def keysUnder (height l : ℕ) : List ℕ :=
  (List.range (512 ^ (height + 1))).map (l * 512 ^ (height + 1) + ·)

theorem range_mul (n m : ℕ) :
    List.range (n * m) = (List.range n).flatMap fun i => (List.range m).map (i * m + ·) := by
  induction n with
  | zero => simp
  | succ n ih => rw [Nat.succ_mul, List.range_add, ih, List.range_succ, List.flatMap_append,
      List.flatMap_singleton]

theorem keysUnder_succ (height l : ℕ) : keysUnder (height + 1) l =
    (List.range 512).flatMap fun i => keysUnder height (l * 512 + i) := by
  unfold keysUnder
  rw [pow_succ' 512 (height + 1), range_mul, List.map_flatMap]
  congr 1
  funext i
  rw [List.map_map]
  congr 1
  funext j
  simp only [Function.comp_apply]
  ring

theorem div_of_mem_keysUnder {height l : ℕ} (hk : k ∈ keysUnder height l) :
    k / 512 ^ (height + 1) = l := by
  obtain ⟨j, hj, rfl⟩ := List.mem_map.mp hk
  have hpos : 0 < 512 ^ (height + 1) := by positivity
  rw [Nat.mul_comm, Nat.mul_add_div hpos, Nat.div_eq_of_lt (List.mem_range.mp hj), add_zero]

theorem index_of_div {height l i : ℕ} (hi : i < 512) (hk : k / 512 ^ (height + 1) = l * 512 + i) :
    radixIndex (height + 1) k = i ∧ k / 512 ^ (height + 1 + 1) = l := by
  rw [radixIndex_eq, pow_succ 512 (height + 1), ← Nat.div_div_eq_div_mul, hk]
  omega

theorem radixFreeNode_values (nodes : ℕ → ℕ → ℕ) (height : ℕ) : ∀ node l, node ≠ 0 →
    (radixFreeNode nodes true height node).filterMap FreeEvent.value? =
      (keysUnder height l).filterMap fun k => radixScheme.look nodes k height node := by
  induction height with
  | zero =>
    intro node l hnode
    rw [radixFreeNode, if_neg hnode, if_pos rfl, List.filterMap_cons_none rfl,
      List.filterMap_filterMap, keysUnder, List.filterMap_map]
    refine List.filterMap_congr fun i hi => ?_
    have hindex : radixIndex 0 (l * 512 ^ (0 + 1) + i) = i := by
      rw [radixIndex_eq]
      have := List.mem_range.mp hi
      unfold radixNodeSize radixNodeBits at this
      omega
    rw [Function.comp_apply, radixScheme_look_zero, hindex]
    split_ifs <;> rfl
  | succ height ih =>
    intro node l hnode
    rw [radixFreeNode, if_neg hnode, List.filterMap_cons_none rfl, List.filterMap_flatMap,
      keysUnder_succ, List.filterMap_flatMap]
    refine List.flatMap_congr fun i hi => ?_
    have hlook : ∀ k ∈ keysUnder height (l * 512 + i), radixScheme.look nodes k (height + 1) node =
        if nodes node i = 0 then none else radixScheme.look nodes k height (nodes node i) := by
      intro k hk
      rw [radixScheme_look_succ, (index_of_div (List.mem_range.mp hi)
        (div_of_mem_keysUnder hk)).1]
    rw [List.filterMap_congr hlook]
    by_cases hzero : nodes node i = 0
    · simp [hzero]
    · simp only [hzero, if_false]
      exact ih _ _ hzero

theorem radixFreeNode_path (nodes : ℕ → ℕ → ℕ) (valueDeleter : Bool) {x n : ℕ} (height : ℕ) :
    ∀ node l, .node x n ∈ radixFreeNode nodes valueDeleter height node →
      ∃ k, k / 512 ^ (height + 1) = l ∧ (x, n) ∈ radixPath nodes k height node := by
  have hlabel : ∀ height l, l * 512 ^ (height + 1) / 512 ^ (height + 1) = l := fun height l =>
    Nat.mul_div_cancel l (by positivity)
  induction height with
  | zero =>
    intro node l hmem
    refine ⟨l * 512 ^ (0 + 1), hlabel 0 l, ?_⟩
    rw [radixFreeNode] at hmem
    split_ifs at hmem
    · cases hmem
    · simpa [radixPath] using hmem
    · simpa [radixPath] using hmem
  | succ height ih =>
    intro node l hmem
    rw [radixFreeNode] at hmem
    split_ifs at hmem with hnode
    · cases hmem
    rcases List.mem_cons.mp hmem with heq | hmem
    · cases heq
      exact ⟨l * 512 ^ (height + 1 + 1), hlabel (height + 1) l, List.mem_cons_self⟩
    · obtain ⟨i, hi, hmem⟩ := List.mem_flatMap.mp hmem
      split_ifs at hmem with hzero
      · cases hmem
      obtain ⟨k, hk, hpath⟩ := ih _ (l * 512 + i) hmem
      obtain ⟨hindex, hk'⟩ := index_of_div (List.mem_range.mp hi) hk
      refine ⟨k, hk', List.mem_cons_of_mem _ ?_⟩
      rw [hindex, if_neg hzero]
      exact hpath

theorem look_ne_zero {nodes : ℕ → ℕ → ℕ} {w : ℕ} (height : ℕ) : ∀ node,
    radixScheme.look nodes k height node = some w → w ≠ 0 := by
  induction height with
  | zero =>
    intro node hlook
    rw [radixScheme_look_zero] at hlook
    split_ifs at hlook with hzero
    exact Option.some.inj hlook ▸ hzero
  | succ height ih =>
    intro node hlook
    rw [radixScheme_look_succ] at hlook
    split_ifs at hlook
    exact ih _ hlook

theorem filterMap_eq_map_filter {α : Type*} (f : α → Option ℕ) (l : List α) :
    l.filterMap f = (l.filter fun a => (f a).isSome).map fun a => (f a).getD 0 := by
  induction l with
  | nil => rfl
  | cons a l ih =>
    cases hfa : f a with
    | none => simp [hfa, ih]
    | some b => simp [hfa, ih]

/-- **Freeing a radix tree visits each value once**: the deleter is called with the values of the
keys that have one, in the order of the keys, and no node is entered but those that keys pass, at
their heights. -/
theorem radixRuns_free {s : RadixRun} (h : radixRuns.Reachable s)
    (hdel : s.tree.valueDeleter = true) :
    (∃ keys : List ℕ, keys.Pairwise (· < ·) ∧
      (∀ k, k ∈ keys ↔ k < 2 ^ 64 ∧ radixGet s.tree k ≠ 0) ∧
      (radixFree s.tree).2.filterMap FreeEvent.value? = keys.map (radixGet s.tree)) ∧
    ∀ height node, .node height node ∈ (radixFree s.tree).2 →
      ∃ k < 2 ^ 64, (height, node) ∈ radixPath s.tree.nodes k 7 s.tree.root := by
  obtain ⟨owner, htree⟩ := (RadixRun.Inv.of_reachable h).tree
  by_cases hroot : s.tree.root = 0
  · have hget : ∀ k, radixGet s.tree k = 0 := fun k => if_pos hroot
    have hfree : radixFree s.tree = (false, []) := if_pos hroot
    simp only [hfree]
    exact ⟨⟨[], .nil, fun k => by simp [hget], rfl⟩, fun height node hmem => by cases hmem⟩
  have hfree : radixFree s.tree = (true, radixFreeNode s.tree.nodes true 7 s.tree.root) := by
    rw [radixFree, if_neg hroot, hdel]
    rfl
  have htop := fun i (hi : 2 ≤ i) => htree.top _ _ _ i (htree.root hroot) hi
  simp only [hfree]
  constructor
  · refine ⟨(List.range (512 ^ 8)).filter fun k =>
      (radixScheme.look s.tree.nodes k 7 s.tree.root).isSome,
      List.pairwise_lt_range.filter _, fun k => ?_, ?_⟩
    · rw [List.mem_filter, List.mem_range, radixGet_eq hroot]
      cases hlook : radixScheme.look s.tree.nodes k 7 s.tree.root with
      | none => simp
      | some w =>
        have hw := look_ne_zero 7 _ hlook
        have hk : k < 512 ^ 8 → k < 2 ^ 64 := by
          intro hlt
          by_contra hge
          rw [radixScheme_look_succ, htop (radixIndex (6 + 1) k)
            (by rw [radixIndex_eq]; omega)] at hlook
          simp at hlook
        simp only [Option.isSome_some, and_true, Option.getD_some, ne_eq, hw, not_false_eq_true]
        exact ⟨hk, fun hlt => hlt.trans (by norm_num)⟩
    · rw [radixFreeNode_values _ 7 _ 0 hroot, filterMap_eq_map_filter, keysUnder]
      simp only [zero_mul, zero_add, List.map_id']
      exact List.map_congr_left fun k _ => (radixGet_eq hroot).symm
  · intro height node hmem
    rw [radixFreeNode, if_neg hroot] at hmem
    rcases List.mem_cons.mp hmem with heq | hmem
    · cases heq
      exact ⟨0, by norm_num, List.mem_cons_self⟩
    obtain ⟨i, hi, hmem⟩ := List.mem_flatMap.mp hmem
    split_ifs at hmem with hzero
    · cases hmem
    have hi2 : i < 2 := not_le.mp fun hge => hzero (htop i hge)
    obtain ⟨k, hk, hpath⟩ := radixFreeNode_path _ _ 6 _ (0 * 512 + i) hmem
    obtain ⟨hindex, -⟩ := index_of_div (List.mem_range.mp hi) hk
    refine ⟨k, ?_, List.mem_cons_of_mem _ ?_⟩
    · rw [Nat.div_eq_iff (by norm_num)] at hk
      omega
    · rw [hindex, if_neg hzero]
      exact hpath

theorem radixRuns_free_one : ∃ s, radixRuns.Reachable s ∧ s.tree.valueDeleter = true ∧
    s.last ⟨5, by decide⟩ = 7 ∧ (∃ keys : List ℕ, keys.Pairwise (· < ·) ∧
      (∀ k, k ∈ keys ↔ k < 2 ^ 64 ∧ radixGet s.tree k ≠ 0) ∧
      (radixFree s.tree).2.filterMap FreeEvent.value? = keys.map (radixGet s.tree)) ∧
    ∀ height node, .node height node ∈ (radixFree s.tree).2 →
      ∃ k < 2 ^ 64, (height, node) ∈ radixPath s.tree.nodes k 7 s.tree.root := by
  obtain ⟨s, h, -, hdel, hlast⟩ := exists_radixRun_one
  exact ⟨s, h, hdel, hlast, radixRuns_free h hdel⟩

end Ginkgo.Libc
