import Ginkgo.Fs.Vfs
import Ginkgo.Lib.RefTable
import Mathlib.Algebra.BigOperators.Group.Finset.Piecewise

/-!
# The node cache as a table with reference counts

The hash table with its nodes is a table from mounts and paths to nodes and reference counts, and
the functions for single nodes take and give back one reference.

## Main results

* `Rep.lookup`, `Rep.get`, `Rep.ref`, `Rep.put` — the
  functions in terms of the table.
-/

namespace Ginkgo.Fs

open Finset (range)
open Function (update update_self update_of_ne)

/-- A table from mounts and paths to nodes. -/
abbrev NodeTable := RefTable (ℕ × Str) ℕ

/-- The number of nodes of a mount in the hash table. -/
def Vfs.nodesOf (s : Vfs) (m : ℕ) : ℤ :=
  ∑ b ∈ range vfsNodeHashSize, ((s.nodeList b).countP fun n => (s.node n).mount == m : ℤ)

/-- The cache represents the table `T`. -/
structure Rep (s : Vfs) (T : NodeTable) : Prop where
  mem : ∀ b n, n ∈ s.nodeList b ↔ ∃ k c, T k = some (n, c) ∧ vfsNodeHash k.1 k.2 = b
  nodup : ∀ b, (s.nodeList b).Nodup
  node : ∀ k n c, T k = some (n, c) →
    (s.node n).mount = k.1 ∧ (s.node n).path = k.2 ∧ (s.node n).refcnt = c
  positive : T.Positive
  mounts : ∀ m, (s.mount m).refcnt = s.nodesOf m
  short : ∀ k, T k ≠ none → k.2.length < vfsMaxPath

/-- What the functions leave alone: the mounts, and the types of the nodes in `keep`. -/
structure Frame (keep : ℕ → Prop) (s s' : Vfs) : Prop where
  mntList : s'.mntList = s.mntList
  path : ∀ m, (s'.mount m).path = (s.mount m).path
  root : ∀ m, (s'.mount m).root = (s.mount m).root
  type : ∀ n, keep n → (s'.node n).type = (s.node n).type

namespace Frame

variable {keep keep' : ℕ → Prop} {s s' s'' : Vfs}

theorem refl (s : Vfs) : Frame keep s s :=
  ⟨rfl, fun _ => rfl, fun _ => rfl, fun _ _ => rfl⟩

theorem trans (h : Frame keep s s') (h' : Frame keep s' s'') : Frame keep s s'' where
  mntList := h'.mntList.trans h.mntList
  path m := (h'.path m).trans (h.path m)
  root m := (h'.root m).trans (h.root m)
  type n hn := (h'.type n hn).trans (h.type n hn)

theorem mono (h : Frame keep s s') (himp : ∀ n, keep' n → keep n) : Frame keep' s s' :=
  ⟨h.mntList, h.path, h.root, fun n hn => h.type n (himp n hn)⟩

theorem setRefcnt (s : Vfs) (n : ℕ) (c : ℤ) : Frame (fun _ => True) s (s.setRefcnt n c) := by
  refine ⟨rfl, fun _ => rfl, fun _ => rfl, ?_⟩
  intro n' _
  by_cases hn : n' = n
  · simp [Vfs.setRefcnt, hn]
  · simp [Vfs.setRefcnt, hn]

theorem addMountRef (s : Vfs) (m : ℕ) (d : ℤ) : Frame (fun _ => True) s (s.addMountRef m d) := by
  refine ⟨rfl, fun m' => ?_, fun m' => ?_, fun _ _ => rfl⟩
  · by_cases hm : m' = m
    · simp [Vfs.addMountRef, hm]
    · simp [Vfs.addMountRef, hm]
  · by_cases hm : m' = m
    · simp [Vfs.addMountRef, hm]
    · simp [Vfs.addMountRef, hm]

theorem put (s : Vfs) (n : ℕ) : Frame (fun _ => True) s (vfsNodePut s n) := by
  have hcount := Frame.setRefcnt s n ((s.node n).refcnt - 1)
  unfold vfsNodePut
  dsimp only
  split
  · exact hcount
  · refine hcount.trans (.trans ?_ (Frame.addMountRef _ _ _))
    exact ⟨rfl, fun _ => rfl, fun _ => rfl, fun _ _ => rfl⟩

theorem lookup (s : Vfs) (m : ℕ) (path : Str) :
    Frame (fun _ => True) s (vfsNodeLookup s m path).2 := by
  unfold vfsNodeLookup
  split
  · exact .refl s
  · exact .setRefcnt s _ _

theorem setType (s : Vfs) (n : ℕ) (type : NodeType) :
    Frame (fun _ => False) s (s.setType n type) :=
  ⟨rfl, fun _ => rfl, fun _ => rfl, fun _ hn => hn.elim⟩

theorem get (r : FsReply) (s : Vfs) (m : ℕ) (path : Str) :
    Frame (fun _ => False) s (vfsNodeGet r s m path).2 := by
  unfold vfsNodeGet
  split
  · exact .refl s
  · split_ifs
    · exact .refl s
    · exact .refl s
    · have hmounts := Frame.addMountRef s m 1
      exact ⟨rfl, hmounts.path, hmounts.root, fun _ hn => hn.elim⟩

theorem releaseLoop (m : ℕ) (s : Vfs) (paths : List Str) :
    Frame (fun _ => True) s (vfsNodeReleaseLoop m s paths) := by
  induction paths generalizing s with
  | nil => exact .refl s
  | cons path rest ih =>
    have hlookup := Frame.lookup s m path
    unfold vfsNodeReleaseLoop
    split
    next s' heq =>
      rw [heq] at hlookup
      exact hlookup.trans (ih s')
    next n s' heq =>
      rw [heq] at hlookup
      exact hlookup.trans ((Frame.put s' n).trans ((Frame.put _ n).trans (ih _)))

theorem release {n : ℕ} (h : vfsNodeRelease s n = .ok s') : Frame (fun _ => True) s s' := by
  unfold vfsNodeRelease at h
  dsimp only at h
  split_ifs at h
  · cases h
    exact .put s n
  · cases h
    exact .refl s
  · split at h
    · cases h
    · cases h
      exact (Frame.put s n).trans ((Frame.releaseLoop _ _ _).trans (Frame.put _ _))

end Frame

/-! ## Counting the nodes of a mount -/

theorem sum_countP_update (L : ℕ → List ℕ) (p : ℕ → Bool) {N b₀ : ℕ} (hb : b₀ < N)
    (l : List ℕ) :
    ∑ b ∈ range N, ((update L b₀ l b).countP p : ℤ) =
      ∑ b ∈ range N, ((L b).countP p : ℤ) + ((l.countP p : ℤ) - (L b₀).countP p) := by
  have hfun : (fun b => ((update L b₀ l b).countP p : ℤ)) =
      update (fun b => ((L b).countP p : ℤ)) b₀ (l.countP p) := by
    funext b
    by_cases hbb : b = b₀
    · simp [hbb]
    · simp [hbb]
  have hmem : b₀ ∈ range N := Finset.mem_range.mpr hb
  rw [hfun, Finset.sum_update_of_mem hmem, Finset.sdiff_singleton_eq_erase,
    ← Finset.add_sum_erase _ (fun b => ((L b).countP p : ℤ)) hmem]
  ring

theorem vfsNodeHash_lt (m : ℕ) (path : Str) : vfsNodeHash m path < vfsNodeHashSize := by
  rw [vfsNodeHash]
  exact Nat.lt_succ_of_le Nat.and_le_right

namespace Rep

variable {s : Vfs} {T : NodeTable} {k : ℕ × Str} {n a : ℕ} {c : ℤ}

theorem inj (h : Rep s T) {k' : ℕ × Str} {c' : ℤ} (hk : T k = some (n, c))
    (hk' : T k' = some (n, c')) : k = k' := by
  obtain ⟨hm, hp, -⟩ := h.node k n c hk
  obtain ⟨hm', hp', -⟩ := h.node k' n c' hk'
  exact Prod.ext (hm.symm.trans hm') (hp.symm.trans hp')

theorem find (h : Rep s T) (m : ℕ) (path : Str) :
    (s.nodeList (vfsNodeHash m path)).find?
      (fun n => (s.node n).mount = m ∧ (s.node n).path = path) = T.obj (m, path) := by
  cases hfind : (s.nodeList (vfsNodeHash m path)).find?
      (fun n => (s.node n).mount = m ∧ (s.node n).path = path) with
  | none =>
    rw [List.find?_eq_none] at hfind
    cases hT : T (m, path) with
    | none => simp [RefTable.obj, hT]
    | some e =>
      obtain ⟨n, c⟩ := e
      obtain ⟨hm, hp, -⟩ := h.node _ n c hT
      have hin := (h.mem (vfsNodeHash m path) n).mpr ⟨(m, path), c, hT, rfl⟩
      exact absurd (by simp [hm, hp]) (hfind n hin)
  | some n =>
    have hprop := List.find?_some hfind
    have hin := List.mem_of_find?_eq_some hfind
    obtain ⟨k, c, hk, -⟩ := (h.mem _ n).mp hin
    obtain ⟨hm, hp, -⟩ := h.node k n c hk
    simp only [hm, hp, decide_eq_true_eq] at hprop
    have hkey : k = (m, path) := Prod.ext hprop.1 hprop.2
    rw [← hkey]
    simp [RefTable.obj, hk]

/-! ## Changing a count -/

theorem setRefcnt (h : Rep s T) (hk : T k = some (n, c)) {c' : ℤ} (hc' : 0 < c') :
    Rep (s.setRefcnt n c') (update T k (some (n, c'))) := by
  have hmount : ∀ n', ((s.setRefcnt n c').node n').mount = (s.node n').mount := by
    intro n'
    by_cases hn : n' = n
    · simp [Vfs.setRefcnt, hn]
    · simp [Vfs.setRefcnt, hn]
  refine ⟨fun b n' => ?_, h.nodup, fun k' n' d hk' => ?_, fun k' n' d hk' => ?_, fun m => ?_,
    fun k' hk' => ?_⟩
  · rw [show (s.setRefcnt n c').nodeList = s.nodeList from rfl, h.mem]
    exact (RefTable.exists_update_count (fun k' => vfsNodeHash k'.1 k'.2 = b) hk).symm
  · rcases RefTable.update_eq_some.mp hk' with ⟨rfl, hv⟩ | ⟨hkk, hold⟩
    · cases hv
      obtain ⟨hm, hp, -⟩ := h.node k' n c hk
      simp [Vfs.setRefcnt, hm, hp]
    · have hn : n' ≠ n := by
        rintro rfl
        exact hkk (h.inj hold hk)
      simpa [Vfs.setRefcnt, hn] using h.node k' n' d hold
  · rcases RefTable.update_eq_some.mp hk' with ⟨rfl, hv⟩ | ⟨hkk, hk'⟩
    · cases hv
      exact hc'
    · exact h.positive k' n' d hk'
  · have hcount := h.mounts m
    rw [Vfs.nodesOf] at hcount ⊢
    simp only [hmount]
    exact hcount
  · by_cases hkk : k' = k
    · exact h.short k' (by simp [hkk, hk])
    · exact h.short k' (by simpa [hkk] using hk')

/-- `vfs_node_ref` takes a reference. -/
theorem ref (h : Rep s T) (hk : T k = some (n, c)) (a : ℕ) : Rep (vfsNodeRef s n) (T.grab k a) := by
  obtain ⟨-, -, hc⟩ := h.node k n c hk
  have hpos := h.positive k n c hk
  rw [vfsNodeRef, hc, RefTable.grab, hk]
  exact h.setRefcnt hk (by omega)

theorem lookup_some (h : Rep s T) (hk : T k = some (n, c)) :
    vfsNodeLookup s k.1 k.2 = (some n, vfsNodeRef s n) := by
  rw [vfsNodeLookup, h.find]
  simp [RefTable.obj, hk]

theorem lookup_none (h : Rep s T) (hk : T k = none) : vfsNodeLookup s k.1 k.2 = (none, s) := by
  rw [vfsNodeLookup, h.find]
  simp [RefTable.obj, hk]

/-! ## New nodes -/

theorem insert (h : Rep s T) (hk : T k = none) (hshort : k.2.length < vfsMaxPath)
    (hnew : ∀ k' c', T k' ≠ some (a, c')) {s' : Vfs} {type : NodeType}
    (hnode : s'.node = update s.node a ⟨k.1, k.2, 1, type⟩)
    (hlist : s'.nodeList = update s.nodeList (vfsNodeHash k.1 k.2)
      (a :: s.nodeList (vfsNodeHash k.1 k.2)))
    (hrefs : ∀ m, (s'.mount m).refcnt = (s.mount m).refcnt + if m = k.1 then 1 else 0) :
    Rep s' (update T k (some (a, 1))) := by
  have hnot : ∀ b, a ∉ s.nodeList b := by
    intro b hin
    obtain ⟨k', c', hk', -⟩ := (h.mem b a).mp hin
    exact hnew k' c' hk'
  have hold : ∀ b, ∀ n' ∈ s.nodeList b, s'.node n' = s.node n' := by
    intro b n' hn'
    rw [hnode, update_of_ne (ne_of_mem_of_not_mem hn' (hnot b))]
  refine ⟨fun b n' => ?_, fun b => ?_, fun k' n' d hk' => ?_, fun k' n' d hk' => ?_, fun m => ?_,
    fun k' hk' => ?_⟩
  · rw [RefTable.exists_update_new (fun k' => vfsNodeHash k'.1 k'.2 = b) hk, ← h.mem, hlist]
    by_cases hb : b = vfsNodeHash k.1 k.2
    · simp [hb]
    · simp [hb, Ne.symm hb]
  · rw [hlist]
    by_cases hb : b = vfsNodeHash k.1 k.2
    · rw [hb, update_self, List.nodup_cons]
      exact ⟨hnot _, h.nodup _⟩
    · rw [update_of_ne hb]
      exact h.nodup b
  · rcases RefTable.update_eq_some.mp hk' with ⟨rfl, hv⟩ | ⟨-, hk'⟩
    · cases hv
      simp [hnode]
    · rw [hold _ n' ((h.mem _ n').mpr ⟨k', d, hk', rfl⟩)]
      exact h.node k' n' d hk'
  · rcases RefTable.update_eq_some.mp hk' with ⟨-, hv⟩ | ⟨-, hk'⟩
    · cases hv
      exact Int.one_pos
    · exact h.positive k' n' d hk'
  · have hbucket : ∀ b, (s.nodeList b).countP (fun n => (s'.node n).mount == m) =
        (s.nodeList b).countP fun n => (s.node n).mount == m := by
      intro b
      apply List.countP_congr
      intro n' hn'
      rw [hold b n' hn']
    have hcount := h.mounts m
    rw [Vfs.nodesOf] at hcount ⊢
    rw [hrefs, hcount, hlist, sum_countP_update _ _ (vfsNodeHash_lt k.1 k.2)]
    have hmount : (s'.node a).mount = k.1 := by simp [hnode]
    simp only [hbucket, List.countP_cons, hmount]
    by_cases hm : m = k.1
    · subst hm
      simp
    · simp [hm, Ne.symm hm]
  · by_cases hkk : k' = k
    · rw [hkk]
      exact hshort
    · exact h.short k' (by simpa [hkk] using hk')

/-- `vfs_node_get` puts a node with one reference into the table. -/
theorem get (h : Rep s T) {r : FsReply} (hk : T k = none) (haddr : r.addr = some a)
    (hvget : r.vget = 0) (hshort : k.2.length < vfsMaxPath) (hnew : ∀ k', T.obj k' ≠ some a) :
    ∃ s', vfsNodeGet r s k.1 k.2 = (some a, s') ∧ Rep s' (T.grab k a) ∧
      Frame (· ≠ a) s s' ∧ (s'.node a).type = .unk := by
  have hfresh : ∀ k' c', T k' ≠ some (a, c') := by
    intro k' c' hk'
    exact hnew k' (by simp [RefTable.obj, hk'])
  simp only [vfsNodeGet, haddr, Nat.not_le.mpr hshort, if_false, hvget, ne_eq, not_true_eq_false]
  refine ⟨_, rfl, ?_, ?_, ?_⟩
  · rw [RefTable.grab, hk]
    refine h.insert hk hshort hfresh rfl rfl fun m => ?_
    by_cases hm : m = k.1
    · simp [Vfs.addMountRef, hm]
    · simp [Vfs.addMountRef, hm]
  · have hframe := Frame.addMountRef s k.1 1
    refine ⟨rfl, hframe.path, hframe.root, fun n' hn' => ?_⟩
    simp [Vfs.addMountRef, hn']
  · simp [Vfs.addMountRef]

theorem setType (h : Rep s T) (n : ℕ) (type : NodeType) : Rep (s.setType n type) T := by
  have hsame : ∀ n', ((s.setType n type).node n').mount = (s.node n').mount ∧
      ((s.setType n type).node n').path = (s.node n').path ∧
      ((s.setType n type).node n').refcnt = (s.node n').refcnt := by
    intro n'
    by_cases hn : n' = n
    · simp [Vfs.setType, hn]
    · simp [Vfs.setType, hn]
  refine ⟨h.mem, h.nodup, ?_, h.positive, ?_, h.short⟩
  · intro k' n' c' hk'
    obtain ⟨hm, hp, hc⟩ := hsame n'
    rw [hm, hp, hc]
    exact h.node k' n' c' hk'
  · intro m
    have hcount := h.mounts m
    rw [Vfs.nodesOf] at hcount ⊢
    simp only [(hsame _).1]
    exact hcount

/-! ## Giving a reference back -/

theorem remove (h : Rep s T) (hk : T k = some (n, c)) {s' : Vfs}
    (hnode : ∀ n', n' ≠ n → s'.node n' = s.node n')
    (hmount : ∀ n', (s'.node n').mount = (s.node n').mount)
    (hlist : s'.nodeList = update s.nodeList (vfsNodeHash k.1 k.2)
      ((s.nodeList (vfsNodeHash k.1 k.2)).erase n))
    (hrefs : ∀ m, (s'.mount m).refcnt = (s.mount m).refcnt - if m = k.1 then 1 else 0) :
    Rep s' (update T k none) := by
  have hin : n ∈ s.nodeList (vfsNodeHash k.1 k.2) := (h.mem _ n).mpr ⟨k, c, hk, rfl⟩
  have hkey : ∀ k' d, T k' = some (n, d) → k' = k := fun k' d hk' => h.inj hk' hk
  refine ⟨fun b n' => ?_, fun b => ?_, fun k' n' d hk' => ?_, fun k' n' d hk' => ?_, fun m => ?_,
    fun k' hk' => ?_⟩
  · rw [RefTable.exists_update_none (fun k' => vfsNodeHash k'.1 k'.2 = b) hk hkey, ← h.mem, hlist]
    by_cases hb : b = vfsNodeHash k.1 k.2
    · rw [hb, update_self, (h.nodup _).mem_erase_iff]
    · rw [update_of_ne hb, iff_and_self]
      rintro hin' rfl
      obtain ⟨k', d, hk', hb'⟩ := (h.mem b n').mp hin'
      rw [hkey k' d hk'] at hb'
      exact hb hb'.symm
  · rw [hlist]
    by_cases hb : b = vfsNodeHash k.1 k.2
    · rw [hb, update_self]
      exact (h.nodup _).erase n
    · rw [update_of_ne hb]
      exact h.nodup b
  · obtain ⟨-, hv⟩ | ⟨hkk, hk'⟩ := RefTable.update_eq_some.mp hk'
    · cases hv
    · have hn : n' ≠ n := by
        rintro rfl
        exact hkk (hkey k' d hk')
      rw [hnode n' hn]
      exact h.node k' n' d hk'
  · obtain ⟨-, hv⟩ | ⟨-, hk'⟩ := RefTable.update_eq_some.mp hk'
    · cases hv
    · exact h.positive k' n' d hk'
  · have hcount := h.mounts m
    rw [Vfs.nodesOf] at hcount ⊢
    rw [hrefs, hcount, hlist]
    simp only [hmount]
    rw [sum_countP_update _ _ (vfsNodeHash_lt k.1 k.2), List.countP_erase]
    have hpos : 0 < (s.nodeList (vfsNodeHash k.1 k.2)).countP
        fun n => (s.node n).mount == k.1 := by
      rw [List.countP_pos_iff]
      exact ⟨n, hin, by simp [(h.node k n c hk).1]⟩
    by_cases hm : m = k.1
    · subst hm
      simp [hin, (h.node k n c hk).1]
      omega
    · have hne : ¬ k.1 = m := Ne.symm hm
      simp [hm, hne, (h.node k n c hk).1]
  · by_cases hkk : k' = k
    · simp [hkk] at hk'
    · exact h.short k' (by simpa [hkk] using hk')

/-- **`vfs_node_put`** gives a reference back. -/
theorem put (h : Rep s T) (hk : T k = some (n, c)) :
    Rep (vfsNodePut s n) (T.drop k) := by
  obtain ⟨hm, hp, hc⟩ := h.node k n c hk
  have hpos := h.positive k n c hk
  rw [vfsNodePut, hc, RefTable.drop, hk]
  dsimp only
  by_cases hone : c = 1
  · have hzero : ¬ c - 1 ≠ 0 := by omega
    rw [if_neg hzero, if_pos hone]
    have hmount : ((s.setRefcnt n (c - 1)).node n).mount = k.1 := by simp [Vfs.setRefcnt, hm]
    have hpath : ((s.setRefcnt n (c - 1)).node n).path = k.2 := by simp [Vfs.setRefcnt, hp]
    rw [hmount, hpath]
    apply h.remove hk
    · intro n' hn
      simp [Vfs.addMountRef, Vfs.setRefcnt, hn]
    · intro n'
      by_cases hn : n' = n
      · simp [Vfs.addMountRef, Vfs.setRefcnt, hn]
      · simp [Vfs.addMountRef, Vfs.setRefcnt, hn]
    · rfl
    · intro m
      by_cases hmk : m = k.1
      · simp [Vfs.addMountRef, Vfs.setRefcnt, hmk, hm]
        ring
      · simp [Vfs.addMountRef, Vfs.setRefcnt, hmk, hm]
  · have hne : c - 1 ≠ 0 := by omega
    rw [if_pos hne, if_neg hone]
    exact h.setRefcnt hk (by omega)

theorem nodesOf_eq {s' : Vfs} (h : Rep s T) (h' : Rep s' T) (m : ℕ) :
    s'.nodesOf m = s.nodesOf m := by
  rw [Vfs.nodesOf, Vfs.nodesOf]
  apply Finset.sum_congr rfl
  intro b _
  have hperm : (s'.nodeList b).Perm (s.nodeList b) := by
    rw [List.perm_ext_iff_of_nodup (h'.nodup b) (h.nodup b)]
    intro n
    rw [h.mem, h'.mem]
  rw [hperm.countP_eq]
  congr 1
  apply List.countP_congr
  intro n hn
  obtain ⟨k, c, hk, -⟩ := (h.mem b n).mp hn
  rw [(h.node k n c hk).1, (h'.node k n c hk).1]

/-! ## Mounts -/

theorem empty : Rep Vfs.empty (fun _ => none) := by
  refine ⟨?_, ?_, ?_, ?_, ?_, ?_⟩
  · simp [Vfs.empty]
  · simp [Vfs.empty]
  · simp
  · intro k a c hk
    cases hk
  · simp [Vfs.empty, Vfs.nodesOf]
  · simp

theorem setMount (h : Rep s T) {mount : ℕ → Mount} {mntList : List ℕ}
    (hrefs : ∀ m, (mount m).refcnt = (s.mount m).refcnt) :
    Rep { s with mount := mount, mntList := mntList } T :=
  ⟨h.mem, h.nodup, h.node, h.positive, fun m => (hrefs m).trans (h.mounts m), h.short⟩

theorem refcnt_eq_zero (h : Rep s T) {m : ℕ} (hm : ∀ path, T (m, path) = none) :
    (s.mount m).refcnt = 0 := by
  rw [h.mounts, Vfs.nodesOf]
  apply Finset.sum_eq_zero
  intro b _
  rw [Int.natCast_eq_zero, List.countP_eq_zero]
  intro n hn
  obtain ⟨k, c, hk, -⟩ := (h.mem b n).mp hn
  obtain ⟨hmount, -, -⟩ := h.node k n c hk
  rw [hmount]
  intro he
  have hkm : k.1 = m := by simpa using he
  have hnone := hm k.2
  rw [← hkm, hk] at hnone
  cases hnone

theorem mount (h : Rep s T) {m r : ℕ} {dir : Str} (hm : ∀ path, T (m, path) = none)
    (hr : ∀ k, T.obj k ≠ some r) :
    Rep (vfsMount s m r dir) (T.grab (m, rootPath) r) ∧
      (vfsMount s m r dir).mntList = m :: s.mntList ∧
      ((vfsMount s m r dir).mount m).root = some r ∧
      ∀ m', m' ≠ m → ((vfsMount s m r dir).mount m').root = (s.mount m').root := by
  have hzero := h.refcnt_eq_zero hm
  have h₁ : Rep { s with mount := update s.mount m ⟨dir, 0, none⟩ } T := by
    apply h.setMount
    intro m'
    by_cases hmm : m' = m
    · simp [hmm, hzero]
    · simp [hmm]
  obtain ⟨s', hs', hrep, hframe, -⟩ := h₁.get (r := ⟨some r, 0, 0, .dir⟩) (hm rootPath) rfl rfl
    (by simp [rootPath, vfsMaxPath]) hr
  rw [vfsMount]
  dsimp only
  rw [show vfsNodeGet _ _ m rootPath = (some r, s') from hs']
  dsimp only
  refine ⟨?_, ?_, by simp [Vfs.setType], ?_⟩
  · apply (hrep.setType r .dir).setMount
    intro m'
    by_cases hmm : m' = m
    · simp [hmm]
    · simp [hmm]
  · rw [show (s'.setType r .dir).mntList = s'.mntList from rfl, hframe.mntList]
  · intro m' hmm
    rw [update_of_ne hmm]
    change (s'.mount m').root = _
    rw [hframe.root m']
    simp [hmm]

end Rep

end Ginkgo.Fs
