import Ginkgo.Fs.VfsCache
import Ginkgo.Fs.VfsPath

/-!
# Acquiring and releasing paths

`vfs_node_acquire` takes a reference to the root of a mount and to the node of every prefix of a
path, and `vfs_node_release` gives these references back in the opposite order.

## Main results

* `Rep.release` — `vfs_node_release` in terms of the table.
* `Walked.acquireLoop` — the loop of `vfs_node_acquire` in terms of the walk.
-/

namespace Ginkgo.Fs

/-! ## Releasing a path -/

section Release

variable {s : Vfs} {T : NodeTable} {m : ℕ}

theorem Rep.releaseLoop (h : Rep s T) {paths : List Str} (hnodup : paths.Nodup)
    (hin : ∀ path ∈ paths, T (m, path) ≠ none) :
    Rep (vfsNodeReleaseLoop m s paths) (T.dropAll (paths.map fun path => (m, path))) := by
  induction paths generalizing s T with
  | nil => exact h
  | cons path paths ih =>
    rw [List.nodup_cons] at hnodup
    cases hk : T (m, path) with
    | none => exact absurd hk (hin path List.mem_cons_self)
    | some e =>
      obtain ⟨n, c⟩ := e
      have hlookup := h.lookup_some hk
      have href := h.ref hk 0
      have hk' : (T.grab (m, path) 0) (m, path) = some (n, c + 1) := by
        simp [RefTable.grab, hk]
      have hput := href.put hk'
      rw [RefTable.drop_grab h.positive] at hput
      rw [vfsNodeReleaseLoop, hlookup]
      refine ih (hput.put hk) hnodup.2 fun path' hpath' => ?_
      have hne : ((m, path') : ℕ × Str) ≠ (m, path) := by
        intro he
        exact hnodup.1 ((Prod.mk.inj he).2 ▸ hpath')
      rw [RefTable.drop_of_ne hne]
      exact hin path' (List.mem_cons_of_mem _ hpath')

variable {names : List Str}

theorem next_notMem {name : Str}
    (hnames : ∀ name' ∈ names ++ [name], IsName name') :
    keyOf m (names ++ [name]) ∉ chain m names := by
  have hnodup := chain_nodup hnames m
  rw [chain_concat, List.nodup_append'] at hnodup
  intro hc
  exact hnodup.2.2 hc (by simp)

theorem root_notMem_paths (hnames : ∀ name ∈ names, IsName name) :
    keyOf m [] ∉ (pathsFrom [] names).reverse.map fun path => (m, path) := by
  have hnodup := chain_nodup hnames m
  rw [chain, List.nodup_cons] at hnodup
  intro hc
  obtain ⟨path, hp, he⟩ := List.mem_map.mp hc
  have hroot : (m, path) = (m, rootPath) := by simpa [keyOf] using he
  exact hnodup.1 (hroot ▸ List.mem_map_of_mem (List.mem_reverse.mp hp))

theorem root_ne_next {name : Str}
    (hnames : ∀ name' ∈ names ++ [name], IsName name') :
    keyOf m [] ≠ keyOf m (names ++ [name]) := by
  intro he
  apply next_notMem (m := m) hnames
  rw [← he]
  exact mem_chain [] names

section

variable (h : Rep s T) {name : Str} {n root : ℕ} {c c' : ℤ}
  (hnames : ∀ name' ∈ names ++ [name], IsName name')

include h hnames

theorem Rep.root_ne (hk : T (keyOf m (names ++ [name])) = some (n, c))
    (hkr : T (keyOf m []) = some (root, c')) : root ≠ n := by
  rintro rfl
  exact root_ne_next hnames (h.inj hkr hk)

theorem Rep.release_concat (hroot : (s.mount m).root = some root)
    (hkr : T (keyOf m []) = some (root, c')) (hk : T (keyOf m (names ++ [name])) = some (n, c))
    (hin : ∀ k ∈ chain m names, T k ≠ none) :
    ∃ s', vfsNodeRelease s n = .ok s' ∧
      Rep s' (T.dropAll (chain m (names ++ [name])).reverse) := by
  obtain ⟨hmount, hpath, -⟩ := h.node _ n c hk
  have hmount : (s.node n).mount = m := hmount
  have hlast := next_notMem (m := m) hnames
  -- the references to the prefixes are still there after the first one was given back
  have hdrop : ∀ k ∈ chain m names, (T.drop (keyOf m (names ++ [name]))) k = T k :=
    fun k hkc => RefTable.drop_of_ne (ne_of_mem_of_not_mem hkc hlast)
  have hpaths : ∀ path ∈ (pathsFrom [] names).reverse,
      (T.drop (keyOf m (names ++ [name]))) (m, path) ≠ none := by
    intro path hp
    have hmem : (m, path) ∈ chain m names := by
      rw [chain]
      exact List.mem_cons_of_mem _ (List.mem_map_of_mem (List.mem_reverse.mp hp))
    rw [hdrop _ hmem]
    exact hin _ hmem
  have hloop := (h.put hk).releaseLoop
    (List.nodup_reverse.mpr (pathsFrom_nodup [] names)) hpaths
  -- the root comes last
  have hkr' : ((T.drop (keyOf m (names ++ [name]))).dropAll
      ((pathsFrom [] names).reverse.map fun path => (m, path))) (keyOf m []) = some (root, c') := by
    rw [RefTable.dropAll_of_notMem (root_notMem_paths fun name' hname' =>
      hnames name' (List.mem_append_left _ hname')), hdrop _ (mem_chain [] names), hkr]
  refine ⟨vfsNodePut (vfsNodeReleaseLoop m (vfsNodePut s n) (pathsFrom [] names).reverse) root,
    ?_, ?_⟩
  · have hlen : ¬ vfsMaxPath ≤ (s.node n).path.length := by
      rw [hpath]
      exact Nat.not_le.mpr (h.short _ (by simp [hk]))
    have hne : (s.mount m).root ≠ some n := by
      rw [hroot]
      exact fun he => h.root_ne hnames hk hkr (Option.some.inj he)
    have hprefixes : slashPrefixes [] (s.node n).path = pathsFrom [] names := by
      rw [hpath]
      simpa [keyOf] using slashPrefixes_pathOf hnames
    rw [vfsNodeRelease, hmount]
    simp only [if_neg hne, if_neg hlen, hprefixes]
    rw [((Frame.put s n).trans (Frame.releaseLoop m _ _)).root m, hroot]
  · rw [chain_concat, chain]
    simp only [List.reverse_append, List.reverse_cons, List.reverse_nil, List.nil_append,
      List.singleton_append, RefTable.dropAll, RefTable.dropAll_append]
    rw [← List.map_reverse]
    exact hloop.put hkr'

end

/-- **`vfs_node_release`** gives back the references that `vfs_node_acquire` has taken, in the
opposite order. -/
theorem Rep.release (h : Rep s T) {n root : ℕ}
    (hnames : ∀ name ∈ names, IsName name) (hroot : (s.mount m).root = some root)
    (hrootKey : T.obj (keyOf m []) = some root) (hn : T.obj (keyOf m names) = some n)
    (hin : ∀ k ∈ chain m names, T k ≠ none) :
    ∃ s', vfsNodeRelease s n = .ok s' ∧ Rep s' (T.dropAll (chain m names).reverse) := by
  obtain ⟨c, hk⟩ := RefTable.exists_of_obj hn
  rcases List.eq_nil_or_concat names with rfl | ⟨init, name, hconcat⟩
  · -- the root itself
    obtain rfl : n = root := Option.some.inj (hn.symm.trans hrootKey)
    refine ⟨vfsNodePut s n, ?_, ?_⟩
    · rw [vfsNodeRelease, (h.node _ n c hk).1]
      exact if_pos hroot
    · rw [chain_nil]
      exact h.put hk
  · rw [List.concat_eq_append] at hconcat
    subst hconcat
    obtain ⟨c', hkr⟩ := RefTable.exists_of_obj hrootKey
    refine h.release_concat hnames hroot hkr hk fun k hkc => hin k ?_
    rw [chain_concat]
    exact List.mem_append_left _ hkc

end Release

/-! ## Following a path -/

/-- Why the components of a path are not followed any further. -/
inductive WalkEnd
  /-- All of them were followed. -/
  | arrived
  /-- There is no new node: `calloc` or `vget` fails. -/
  | noNode
  /-- The `lookup` of the file system fails with this error. -/
  | refused (err : ℤ)
  /-- A node before a `/` is found not to be a directory when it is created. -/
  | notDir
  /-- The path of the node does not fit into the buffer. -/
  | tooLong
deriving DecidableEq

/-- The node that is cached under a key. -/
def Vfs.cached (s : Vfs) (m : ℕ) (path : Str) : Option ℕ :=
  (s.nodeList (vfsNodeHash m path)).find? fun n => (s.node n).mount = m ∧ (s.node n).path = path

/-- The components of a path that can be followed, and why not further.  A component is followed
if its node is cached, or if it can be created and is a directory or the last component. -/
def walk (cached : Str → Option ℕ) (replies : Str → FsReply) :
    Str → List (Str × Bool) → List Str × WalkEnd
  | _, [] => ([], .arrived)
  | node, (name, slash) :: rest =>
    let node := node ++ '/' :: name
    let followed := walk cached replies node rest
    if vfsMaxPath ≤ node.length then ([], .tooLong)
    else if cached node ≠ none then (name :: followed.1, followed.2)
    else if (replies node).addr = none ∨ (replies node).vget ≠ 0 then ([], .noNode)
    else if (replies node).lookup ≠ 0 then ([], .refused (replies node).lookup)
    else if slash = true ∧ (replies node).type ≠ .dir then ([], .notDir)
    else (name :: followed.1, followed.2)

/-- The new node for a key. -/
def newNode (replies : Str → FsReply) (k : ℕ × Str) : ℕ := (replies k.2).addr.getD 0

/-- The new nodes are different, and different from the cached ones. -/
structure Fresh (s : Vfs) (replies : Str → FsReply) : Prop where
  unused : ∀ path a, (replies path).addr = some a → ∀ b, a ∉ s.nodeList b
  distinct : ∀ path path' a, (replies path).addr = some a → (replies path').addr = some a →
    path = path'

/-- The cache after the components `names` were followed, from the cache `s₀` with the table
`T₀`. -/
structure Walked (s₀ : Vfs) (T₀ : NodeTable) (replies : Str → FsReply) (m : ℕ)
    (names : List Str) (s : Vfs) : Prop where
  rep : Rep s (T₀.grabAll (newNode replies) (chain m names))
  made : ∀ k ∈ chain m names, T₀ k = none → (replies k.2).addr = some (newNode replies k)
  type : ∀ k n, (T₀.grabAll (newNode replies) (chain m names)).obj k = some n →
    (s.node n).type = if T₀ k = none then (replies k.2).type else (s₀.node n).type
  frame : Frame (fun _ => False) s₀ s

/-- What `vfs_node_acquire` does after the components `names` were followed. -/
def Ended (s₀ : Vfs) (T₀ : NodeTable) (replies : Str → FsReply) (m : ℕ)
    (r : Except Fault (Vfs × ℤ × Option ℕ)) (names : List Str) : WalkEnd → Prop
  | .arrived => ∃ s n, r = .ok (s, 0, some n) ∧ Walked s₀ T₀ replies m names s ∧
      (T₀.grabAll (newNode replies) (chain m names)).obj (keyOf m names) = some n
  | .noNode => ∃ s, r = .ok (s, -1, none) ∧
      Rep s ((T₀.grabAll (newNode replies) (chain m names)).drop (keyOf m names))
  | .refused err => ∃ s, err ≠ 0 ∧ r = .ok (s, err, none) ∧ Rep s T₀
  | .notDir => ∃ s, r = .ok (s, 0, none)
  | .tooLong => r = .error .overrun

variable {path p : Str}

section Walk

variable {s₀ s : Vfs} {T₀ : NodeTable} {replies : Str → FsReply} {m root n dn : ℕ}
  {names : List Str} {name : Str}

theorem Rep.cached (h : Rep s T₀) (m : ℕ) (path : Str) : s.cached m path = T₀.obj (m, path) :=
  h.find m path

theorem Rep.fresh (h : Rep s T₀) (hf : Fresh s replies) {a : ℕ} (ha : (replies path).addr = some a)
    (k : ℕ × Str) : T₀.obj k ≠ some a := by
  intro hk
  obtain ⟨c, hT⟩ := RefTable.exists_of_obj hk
  exact hf.unused path a ha _ ((h.mem _ a).mpr ⟨k, c, hT, rfl⟩)

theorem Rep.walked (h : Rep s₀ T₀) (hroot : T₀.obj (keyOf m []) = some root) :
    Walked s₀ T₀ replies m [] (vfsNodeRef s₀ root) := by
  obtain ⟨c, hk⟩ := RefTable.exists_of_obj hroot
  have hne : T₀ (keyOf m []) ≠ none := RefTable.ne_none_of_obj hroot
  have hframe := Frame.setRefcnt s₀ root ((s₀.node root).refcnt + 1)
  refine ⟨?_, ?_, ?_, hframe.mono fun _ hn => hn.elim⟩
  · rw [chain_nil]
    exact h.ref hk _
  · intro k hkc hnone
    rw [chain_nil, List.mem_singleton] at hkc
    exact absurd hnone (hkc ▸ hne)
  · intro k n hn
    have hin : T₀ k ≠ none := by
      intro hnone
      have hkk : k ≠ keyOf m [] := fun he => hne (he ▸ hnone)
      simp [RefTable.obj_grabAll, chain_nil, hnone, hkk] at hn
    rw [if_neg hin]
    exact hframe.type n trivial

theorem vfsNodeGet_none {r : FsReply} (h : r.addr = none ∨ r.vget ≠ 0) :
    vfsNodeGet r s m path = (none, s) := by
  rw [vfsNodeGet]
  cases haddr : r.addr with
  | none => rfl
  | some a =>
    have hvget : r.vget ≠ 0 := h.resolve_left (by simp [haddr])
    dsimp only
    split_ifs
    · rfl
    · rfl

namespace Walked

theorem grabAll_concat (replies : Str → FsReply) (T₀ : NodeTable) (m : ℕ) (names : List Str)
    (name : Str) :
    T₀.grabAll (newNode replies) (chain m (names ++ [name])) =
      (T₀.grabAll (newNode replies) (chain m names)).grab (keyOf m (names ++ [name]))
        (newNode replies (keyOf m (names ++ [name]))) := by
  rw [chain_concat, RefTable.grabAll_append]
  rfl

theorem obj_concat_of_ne {k : ℕ × Str} (hk : k ≠ keyOf m (names ++ [name])) :
    (T₀.grabAll (newNode replies) (chain m (names ++ [name]))).obj k =
      (T₀.grabAll (newNode replies) (chain m names)).obj k := by
  have hmem : k ∈ chain m (names ++ [name]) ↔ k ∈ chain m names := by simp [chain_concat, hk]
  rw [RefTable.obj_grabAll, RefTable.obj_grabAll]
  by_cases hin : k ∈ chain m names
  · rw [if_pos (hmem.mpr hin), if_pos hin]
  · rw [if_neg fun hc => hin (hmem.mp hc), if_neg hin]

theorem obj_concat_of_some (hn : T₀.obj (keyOf m (names ++ [name])) = some n) :
    (T₀.grabAll (newNode replies) (chain m (names ++ [name]))).obj (keyOf m (names ++ [name])) =
      some n := by
  rw [RefTable.obj_grabAll, if_neg (RefTable.ne_none_of_obj hn), hn]

theorem obj_concat_of_none (hk : T₀ (keyOf m (names ++ [name])) = none) :
    (T₀.grabAll (newNode replies) (chain m (names ++ [name]))).obj (keyOf m (names ++ [name])) =
      some (newNode replies (keyOf m (names ++ [name]))) := by
  rw [RefTable.obj_grabAll, if_pos hk, chain_concat, if_pos (by simp)]

theorem hit (h : Walked s₀ T₀ replies m names s)
    (hnames : ∀ name' ∈ names ++ [name], IsName name')
    (hn : T₀.obj (keyOf m (names ++ [name])) = some n) :
    Walked s₀ T₀ replies m (names ++ [name]) (vfsNodeRef s n) := by
  have hnot := next_notMem (m := m) hnames
  have hne : T₀ (keyOf m (names ++ [name])) ≠ none := RefTable.ne_none_of_obj hn
  obtain ⟨c, hk⟩ := RefTable.exists_of_obj hn
  have hframe := Frame.setRefcnt s n ((s.node n).refcnt + 1)
  have hk' : (T₀.grabAll (newNode replies) (chain m names)) (keyOf m (names ++ [name])) =
      some (n, c) := by rw [RefTable.grabAll_of_notMem hnot, hk]
  refine ⟨?_, ?_, ?_, h.frame.trans (hframe.mono fun _ hn => hn.elim)⟩
  · rw [grabAll_concat]
    exact h.rep.ref hk' _
  · intro k hkc hnone
    rw [chain_concat, List.mem_append, List.mem_singleton] at hkc
    cases hkc with
    | inl hin => exact h.made k hin hnone
    | inr he => exact absurd hnone (he ▸ hne)
  · intro k u hu
    rw [show ((vfsNodeRef s n).node u).type = (s.node u).type from hframe.type u trivial]
    apply h.type
    by_cases hkk : k = keyOf m (names ++ [name])
    · rw [hkk, obj_concat_of_some hn] at hu
      rw [hkk, RefTable.obj_grabAll, if_neg hne, hn, hu]
    · rwa [obj_concat_of_ne hkk] at hu

section

variable (h : Walked s₀ T₀ replies m names s) (h₀ : Rep s₀ T₀)

include h h₀

theorem unused (hf : Fresh s₀ replies) (hnames : ∀ name' ∈ names ++ [name], IsName name')
    (haddr : (replies (keyOf m (names ++ [name])).2).addr = some n) (k : ℕ × Str) :
    (T₀.grabAll (newNode replies) (chain m names)).obj k ≠ some n := by
  intro hk
  rw [RefTable.obj_grabAll] at hk
  split_ifs at hk with hnone hin
  · -- a node that was made for a shorter prefix
    have haddr' := h.made k hin hnone
    rw [Option.some.inj hk] at haddr'
    have hfst : k.1 = m := by
      rw [chain] at hin
      cases List.mem_cons.mp hin with
      | inl he => rw [he]
      | inr hmap =>
        obtain ⟨path, -, rfl⟩ := List.mem_map.mp hmap
        rfl
    apply next_notMem (m := m) hnames
    have he : k = keyOf m (names ++ [name]) := Prod.ext hfst (hf.distinct _ _ _ haddr' haddr)
    exact he ▸ hin
  · exact h₀.fresh hf haddr k hk

theorem make (hf : Fresh s₀ replies) (hnames : ∀ name' ∈ names ++ [name], IsName name')
    (hk : T₀ (keyOf m (names ++ [name])) = none)
    (hshort : (keyOf m (names ++ [name])).2.length < vfsMaxPath)
    (haddr : (replies (keyOf m (names ++ [name])).2).addr = some n)
    (hvget : (replies (keyOf m (names ++ [name])).2).vget = 0) :
    ∃ s', vfsNodeGet (replies (keyOf m (names ++ [name])).2) s m
        (keyOf m (names ++ [name])).2 = (some n, s') ∧
      Walked s₀ T₀ replies m (names ++ [name])
        (s'.setType n (replies (keyOf m (names ++ [name])).2).type) := by
  have hnot := next_notMem (m := m) hnames
  have hunused := h.unused h₀ hf hnames haddr
  have hnew : newNode replies (keyOf m (names ++ [name])) = n := by
    rw [newNode, haddr]
    rfl
  have hk' : (T₀.grabAll (newNode replies) (chain m names)) (keyOf m (names ++ [name])) =
      none := by rw [RefTable.grabAll_of_notMem hnot, hk]
  obtain ⟨s', hget, hrep, hframe, -⟩ := h.rep.get hk' haddr hvget hshort hunused
  refine ⟨s', hget, ?_, ?_, ?_, ?_⟩
  · rw [grabAll_concat, hnew]
    exact hrep.setType n _
  · intro k hkc hnone
    rw [chain_concat, List.mem_append, List.mem_singleton] at hkc
    cases hkc with
    | inl hin => exact h.made k hin hnone
    | inr he => rw [he, haddr, hnew]
  · intro k u hu
    by_cases hkk : k = keyOf m (names ++ [name])
    · rw [hkk, obj_concat_of_none hk, hnew] at hu
      cases hu
      rw [hkk, if_pos hk]
      simp [Vfs.setType]
    · rw [obj_concat_of_ne hkk] at hu
      have hun : u ≠ n := fun he => hunused k (he ▸ hu)
      rw [← h.type k u hu, ← hframe.type u hun]
      simp [Vfs.setType, hun]
  · have hmounts := h.frame.trans (hframe.mono fun _ hn => hn.elim)
    exact ⟨hmounts.mntList, hmounts.path, hmounts.root, fun _ hn => hn.elim⟩

/-- Releasing the path that was followed restores the cache. -/
theorem release (hnames : ∀ name' ∈ names, IsName name') (hroot : (s₀.mount m).root = some root)
    (hrootKey : T₀.obj (keyOf m []) = some root)
    (hn : (T₀.grabAll (newNode replies) (chain m names)).obj (keyOf m names) = some n) :
    ∃ s', vfsNodeRelease s n = .ok s' ∧ Rep s' T₀ := by
  have hin : T₀ (keyOf m []) ≠ none := RefTable.ne_none_of_obj hrootKey
  obtain ⟨s', hs', hrep⟩ := h.rep.release hnames ((h.frame.root m).trans hroot)
    (by rw [RefTable.obj_grabAll, if_neg hin, hrootKey]) hn
    (fun k hk => RefTable.grabAll_ne_none (Or.inr hk))
  rw [RefTable.dropAll_grabAll _ h₀.positive] at hrep
  exact ⟨s', hs', hrep⟩

/-- **The loop of `vfs_node_acquire`** follows the components of the path as far as possible.

**Proof sketch.** By induction on the components.  The node of a component is cached exactly if it
was cached before the call, because the prefixes of a path are different. -/
theorem acquireLoop (hf : Fresh s₀ replies) (hroot : (s₀.mount m).root = some root)
    (hrootKey : T₀.obj (keyOf m []) = some root) (comps : List (Str × Bool))
    (hcomps : ∀ c ∈ comps, IsName c.1) (hnames : ∀ name' ∈ names, IsName name')
    (hdn : (T₀.grabAll (newNode replies) (chain m names)).obj (keyOf m names) = some dn) :
    Ended s₀ T₀ replies m (vfsNodeAcquireLoop replies m s dn (pathOf names) comps)
      (names ++ (walk (s₀.cached m) replies (pathOf names) comps).1)
      (walk (s₀.cached m) replies (pathOf names) comps).2 := by
  induction comps generalizing names s dn with
  | nil =>
    rw [walk, List.append_nil]
    exact ⟨s, dn, rfl, h, hdn⟩
  | cons c comps ih =>
    obtain ⟨name, slash⟩ := c
    have hnames' : ∀ name' ∈ names ++ [name], IsName name' := by
      intro name' hname'
      cases List.mem_append.mp hname' with
      | inl hin => exact hnames name' hin
      | inr he =>
        rw [List.mem_singleton.mp he]
        exact hcomps (name, slash) List.mem_cons_self
    have hcomps' : ∀ c ∈ comps, IsName c.1 := fun c hc => hcomps c (List.mem_cons_of_mem _ hc)
    have hpath : pathOf names ++ '/' :: name = pathOf (names ++ [name]) := by
      simp [pathOf]
    have hkey : keyOf m (names ++ [name]) = (m, pathOf (names ++ [name])) := by simp [keyOf]
    have hnot := next_notMem (m := m) hnames'
    have hk : (T₀.grabAll (newNode replies) (chain m names)) (keyOf m (names ++ [name])) =
        T₀ (keyOf m (names ++ [name])) := RefTable.grabAll_of_notMem hnot
    rw [walk, vfsNodeAcquireLoop]
    dsimp only
    rw [hpath, h₀.cached, ← hkey]
    by_cases hlong : vfsMaxPath ≤ (pathOf (names ++ [name])).length
    · rw [if_pos hlong, if_pos hlong]
      rfl
    rw [if_neg hlong, if_neg hlong]
    cases hT : T₀ (keyOf m (names ++ [name])) with
    | some e =>
      -- the node is cached
      obtain ⟨n, c⟩ := e
      have hobj : T₀.obj (keyOf m (names ++ [name])) = some n := by simp [RefTable.obj, hT]
      have hlookup := h.rep.lookup_some (hk.trans hT)
      rw [hkey] at hlookup
      have hrest := ih (h.hit hnames' hobj) hcomps' hnames' (obj_concat_of_some hobj)
      rw [List.append_assoc, List.singleton_append] at hrest
      rw [hlookup, hobj, if_pos (by simp)]
      exact hrest
    | none =>
      have hobj : T₀.obj (keyOf m (names ++ [name])) = none := by simp [RefTable.obj, hT]
      have hlookup := h.rep.lookup_none (hk.trans hT)
      rw [hkey] at hlookup
      rw [hlookup, hobj, if_neg (by simp)]
      dsimp only
      by_cases hget : (replies (pathOf (names ++ [name]))).addr = none ∨
          (replies (pathOf (names ++ [name]))).vget ≠ 0
      · -- there is no new node
        rw [if_pos hget, List.append_nil, vfsNodeGet_none hget]
        obtain ⟨c, hkd⟩ := RefTable.exists_of_obj hdn
        exact ⟨_, rfl, h.rep.put hkd⟩
      · rw [if_neg hget]
        rw [not_or, not_not] at hget
        obtain ⟨a, haddr⟩ := Option.ne_none_iff_exists'.mp hget.1
        have hpath' : (keyOf m (names ++ [name])).2 = pathOf (names ++ [name]) := by rw [hkey]
        obtain ⟨s', hs', hwalked⟩ := h.make h₀ hf hnames' hT (by rw [hpath']; omega)
          (by rw [hpath', haddr]) (by rw [hpath', hget.2])
        have hobj' : (T₀.grabAll (newNode replies) (chain m (names ++ [name]))).obj
            (keyOf m (names ++ [name])) = some a := by
          rw [obj_concat_of_none hT, newNode, hpath', haddr]
          rfl
        rw [hpath'] at hs' hwalked
        have htype : ((s'.setType a (replies (pathOf (names ++ [name]))).type).node a).type =
            (replies (pathOf (names ++ [name]))).type := by simp [Vfs.setType]
        rw [hs']
        dsimp only
        rw [htype]
        obtain ⟨s'', hrelease, hrep⟩ := hwalked.release h₀ hnames' hroot hrootKey hobj'
        by_cases herr : (replies (pathOf (names ++ [name]))).lookup = 0
        · have hno : ¬ (replies (pathOf (names ++ [name]))).lookup ≠ 0 := by simp [herr]
          by_cases hdir : slash = true ∧ (replies (pathOf (names ++ [name]))).type ≠ .dir
          · -- it is not a directory
            rw [if_neg hno, if_pos hdir, if_pos (Or.inr hdir), hrelease, herr]
            exact ⟨s'', rfl⟩
          · have hrest := ih hwalked hcomps' hnames' hobj'
            rw [List.append_assoc, List.singleton_append] at hrest
            rw [if_neg hno, if_neg hdir, if_neg (not_or.mpr ⟨hno, hdir⟩)]
            exact hrest
        · -- the file system does not have it
          rw [if_pos herr, if_pos (Or.inl herr), hrelease]
          exact ⟨s'', herr, rfl, hrep⟩

end

end Walked

theorem vfsFindrootLoop_mem {mounts : List ℕ} {len len' : ℕ} {cur : Option ℕ}
    (h : vfsFindrootLoop s path mounts len cur = (len', some m)) : m ∈ mounts ∨ cur = some m := by
  induction mounts generalizing len cur with
  | nil => exact Or.inr (Prod.mk.inj h).2
  | cons pos mounts ih =>
    rw [vfsFindrootLoop] at h
    split_ifs at h with hlen
    · cases ih h with
      | inl hin => exact Or.inl (List.mem_cons_of_mem _ hin)
      | inr he =>
        cases he
        exact Or.inl List.mem_cons_self
    · cases ih h with
      | inl hin => exact Or.inl (List.mem_cons_of_mem _ hin)
      | inr he => exact Or.inr he

theorem vfsFindroot_mem (h : vfsFindroot s path = some (m, p)) :
    m ∈ s.mntList := by
  rw [vfsFindroot] at h
  split at h
  next => cases h
  next len m' hloop =>
    cases h
    exact (vfsFindrootLoop_mem hloop).resolve_right (by simp)

/-- The roots of the mounts are cached. -/
def Rooted (s : Vfs) (T : NodeTable) : Prop :=
  ∀ m ∈ s.mntList, ∀ root, (s.mount m).root = some root → T.obj (keyOf m []) = some root

theorem Rep.acquire (h : Rep s₀ T₀) (hf : Fresh s₀ replies) (hrooted : Rooted s₀ T₀)
    (hfind : vfsFindroot s₀ path = some (m, p)) (hroot : (s₀.mount m).root = some root) :
    Ended s₀ T₀ replies m (vfsNodeAcquire replies s₀ path)
      (walk (s₀.cached m) replies [] (components p)).1
      (walk (s₀.cached m) replies [] (components p)).2 := by
  have hrootKey := hrooted m (vfsFindroot_mem hfind) root hroot
  have hin : T₀ (keyOf m []) ≠ none := RefTable.ne_none_of_obj hrootKey
  have hloop := (@Rep.walked s₀ T₀ replies m root h hrootKey).acquireLoop h hf hroot hrootKey
    (components p) (components_isName p) (by simp)
    (by rw [RefTable.obj_grabAll, if_neg hin, hrootKey])
  simp only [vfsNodeAcquire, hfind, hroot]
  exact hloop

end Walk

/-! ## The mounts -/

namespace Frame

variable {s s' : Vfs}

theorem acquireLoop {replies : Str → FsReply} {m dn : ℕ} {node : Str}
    {names : List (Str × Bool)} {r : ℤ × Option ℕ}
    (h : vfsNodeAcquireLoop replies m s dn node names = .ok (s', r)) :
    Frame (fun _ => False) s s' := by
  induction names generalizing s dn node with
  | nil =>
    cases h
    exact .refl _
  | cons c rest ih =>
    obtain ⟨name, slash⟩ := c
    have hlookup : Frame (fun _ => False) s (vfsNodeLookup s m (node ++ '/' :: name)).2 :=
      (Frame.lookup s m _).mono fun _ hn => hn.elim
    unfold vfsNodeAcquireLoop at h
    dsimp only at h
    split_ifs at h
    split at h
    next n s₁ heq =>
      rw [heq] at hlookup
      exact hlookup.trans (ih h)
    next s₁ heq =>
      rw [heq] at hlookup
      have hget := Frame.get (replies (node ++ '/' :: name)) s₁ m (node ++ '/' :: name)
      split at h
      next s₂ heq₂ =>
        rw [heq₂] at hget
        cases h
        exact hlookup.trans (hget.trans ((Frame.put s₂ dn).mono fun _ hn => hn.elim))
      next n s₂ heq₂ =>
        rw [heq₂] at hget
        have htype := Frame.setType s₂ n (replies (node ++ '/' :: name)).type
        split_ifs at h
        · obtain ⟨s₃, hrel, h⟩ := Fallible.bind_eq_ok.mp h
          cases h
          exact hlookup.trans (hget.trans (htype.trans ((Frame.release hrel).mono
            fun _ hn => hn.elim)))
        · exact hlookup.trans (hget.trans (htype.trans (ih h)))

theorem acquire {replies : Str → FsReply} {r : ℤ × Option ℕ}
    (h : vfsNodeAcquire replies s path = .ok (s', r)) : Frame (fun _ => False) s s' := by
  unfold vfsNodeAcquire at h
  split at h
  · cases h
    exact .refl s
  · split at h
    · cases h
      exact .refl s
    · exact ((Frame.setRefcnt s _ _).mono fun _ hn => hn.elim).trans (Frame.acquireLoop h)

end Frame

end Ginkgo.Fs
