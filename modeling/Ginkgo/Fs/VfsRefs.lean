import Ginkgo.Lib.Lts
import Ginkgo.Fs.VfsTruth

/-!
# References to nodes balance

Runs of `vfs_node_acquire` calls that store a node, of `vfs_node_release` calls for nodes that are
held, and of new mounts.  The reference count of a node is the number of nodes that are held at or
below it, and one more for the root of a mount; so a node is freed exactly when nothing at or
below it is held any more.

## Main results

* `refsRuns_balanced` — the references balance in every state of every run.
-/

namespace Ginkgo.Fs

/-- The node `h` is at or below the path `path` of the mount `m`. -/
def Vfs.below (s : Vfs) (m : ℕ) (path : Str) (h : ℕ) : Bool :=
  (s.node h).mount = m ∧ (path = rootPath ∨ path ++ ['/'] <+: (s.node h).path ++ ['/'])

/-- A cache with the nodes that were acquired and not released. -/
structure RefsRun where
  /-- The cache. -/
  vfs : Vfs
  /-- The nodes that are held. -/
  held : List ℕ

/-- A step. -/
inductive RefsCall
  /-- `vfs_node_acquire`, with what the allocator and the file system answer. -/
  | acquire (replies : Str → FsReply) (path : Str)
  /-- `vfs_node_release`. -/
  | release (n : ℕ)
  /-- `vfs_mount`. -/
  | mount (m r : ℕ) (dir : Str)

namespace RefsRun

/-- The effect of a step.  Only calls of `vfs_node_acquire` that store a node are considered, and
only nodes that are held are released. -/
def step (st : RefsRun) : RefsCall → Except Unit RefsRun
  | .acquire replies path =>
    match vfsNodeAcquire replies st.vfs path with
    | .ok (s, 0, some n) => .ok ⟨s, n :: st.held⟩
    | _ => .error ()
  | .release n =>
    if n ∈ st.held then
      match vfsNodeRelease st.vfs n with
      | .ok s => .ok ⟨s, st.held.erase n⟩
      | .error _ => .error ()
    else .error ()
  | .mount m r dir => .ok ⟨vfsMount st.vfs m r dir, st.held⟩

/-- The allocator returns addresses that are not in use. -/
def Allocated (st : RefsRun) : RefsCall → Prop
  | .acquire replies _ => Fresh st.vfs replies
  | .release _ => True
  | .mount m r _ => m ∉ st.vfs.mntList ∧ ∀ b, r ∉ st.vfs.nodeList b

/-- The references balance. -/
structure Balanced (st : RefsRun) : Prop where
  refcnt : ∀ b, ∀ x ∈ st.vfs.nodeList b, (st.vfs.node x).refcnt =
    (if (st.vfs.mount (st.vfs.node x).mount).root = some x then 1 else 0) +
      st.held.countP (st.vfs.below (st.vfs.node x).mount (st.vfs.node x).path)
  cached : ∀ m ∈ st.vfs.mntList, ∀ names ≠ [], (∀ name ∈ names, IsName name) →
    (st.vfs.cached m (pathOf names) ≠ none ↔
      0 < st.held.countP (st.vfs.below m (pathOf names)))
  mounts : ∀ m ∈ st.vfs.mntList, (st.vfs.mount m).refcnt = st.vfs.nodesOf m
  held : ∀ n ∈ st.held, (∃ b, n ∈ st.vfs.nodeList b) ∧ ∃ s, vfsNodeRelease st.vfs n = .ok s
  undo : ∀ replies path s n, Fresh st.vfs replies →
    vfsNodeAcquire replies st.vfs path = .ok (s, 0, some n) →
    ∃ s', vfsNodeRelease s n = .ok s' ∧ SameCache st.vfs s' ∧
      ∀ m, (s'.mount m).refcnt = (st.vfs.mount m).refcnt

end RefsRun

/-- The runs from an empty cache. -/
def refsRuns : Lts.System RefsRun RefsCall Unit where
  init st := st = ⟨Vfs.empty, []⟩
  step := RefsRun.step

/-! ## Nodes at or below a path -/

section Below

variable {s s' : Vfs} {T T' : NodeTable} {m m' h : ℕ} {names names' : List Str}

theorem Rep.below_iff (hs : Rep s T) (hnames : ∀ name ∈ names, IsName name)
    (hnames' : ∀ name ∈ names', IsName name) (hh : T.obj (keyOf m names) = some h) :
    s.below m' (keyOf m' names').2 h = true ↔ keyOf m' names' ∈ chain m names := by
  obtain ⟨c, hk⟩ := RefTable.exists_of_obj hh
  obtain ⟨hm, hp, -⟩ := hs.node _ h c hk
  rw [keyOf_mem_chain_iff hnames hnames', Vfs.below, decide_eq_true_iff, hm, hp]
  by_cases hroot' : names' = []
  · simp [keyOf, hroot', eq_comm]
  · have hne := pathOf_ne_rootPath hnames' hroot'
    by_cases hroot : names = []
    · have hnot := not_prefix_rootPath hnames' hroot'
      simp [keyOf, hroot, hroot', hne, hnot]
    · simp [keyOf, hroot, hroot', hne, pathOf_prefix_iff hnames' hnames, eq_comm]

theorem Rep.below_congr (hs : Rep s T) (hs' : Rep s' T') {k : ℕ × Str} (hh : T.obj k = some h)
    (hh' : T'.obj k = some h) (m : ℕ) (path : Str) : s'.below m path h = s.below m path h := by
  obtain ⟨c, hk⟩ := RefTable.exists_of_obj hh
  obtain ⟨c', hk'⟩ := RefTable.exists_of_obj hh'
  obtain ⟨hm, hp, -⟩ := hs.node k h c hk
  obtain ⟨hm', hp', -⟩ := hs'.node k h c' hk'
  simp only [Vfs.below, hm, hp, hm', hp']

end Below

/-! ## The invariant -/

variable {names : List Str} {s : Vfs} {m n : ℕ}

namespace RefsRun

/-- The invariant of the runs. -/
structure Inv (st : RefsRun) (T : NodeTable) : Prop where
  rep : Rep st.vfs T
  roots : ∀ m ∈ st.vfs.mntList, ∃ root, (st.vfs.mount m).root = some root ∧
    T.obj (keyOf m []) = some root
  keys : ∀ k, T k ≠ none → ∃ m ∈ st.vfs.mntList, ∃ names, (∀ name ∈ names, IsName name) ∧
    k = keyOf m names
  held : ∀ h ∈ st.held, ∃ m ∈ st.vfs.mntList, ∃ names, (∀ name ∈ names, IsName name) ∧
    T.obj (keyOf m names) = some h
  count : ∀ m ∈ st.vfs.mntList, ∀ names, (∀ name ∈ names, IsName name) →
    T.count (keyOf m names) = (if names = [] then 1 else 0) +
      st.held.countP (st.vfs.below m (keyOf m names).2)

variable {st st' : RefsRun} {T : NodeTable}

theorem inv_initial : Inv ⟨Vfs.empty, []⟩ (fun _ => none) where
  rep := .empty
  roots := by simp [Vfs.empty]
  keys := by simp
  held := by simp
  count := by simp [Vfs.empty]

section

variable (h : st.Inv T)

include h

theorem Inv.rooted : Rooted st.vfs T := by
  intro m hm root hroot
  obtain ⟨root', hroot', hobj⟩ := h.roots m hm
  rw [hroot] at hroot'
  rwa [Option.some.inj hroot']

theorem Inv.chain_ne_none (hm : m ∈ st.vfs.mntList) (hnames : ∀ name ∈ names, IsName name)
    (hn : n ∈ st.held) (hobj : T.obj (keyOf m names) = some n) :
    ∀ k ∈ chain m names, T k ≠ none := by
  intro k hk
  obtain ⟨pre, hpre, rfl⟩ := exists_of_mem_chain hk
  have hpre' : ∀ name ∈ pre, IsName name := fun name hname => hnames name (hpre.subset hname)
  have hbelow := (h.rep.below_iff hnames hpre' hobj).mpr hk
  have hpos : 0 < st.held.countP (st.vfs.below m (keyOf m pre).2) :=
    List.countP_pos_iff.mpr ⟨n, hn, hbelow⟩
  apply (RefTable.count_pos_iff h.rep.positive).mp
  rw [h.count m hm pre hpre']
  split_ifs
  · omega
  · omega

theorem Inv.release_ok (hn : n ∈ st.held) :
    ∃ m ∈ st.vfs.mntList, ∃ names, (∀ name ∈ names, IsName name) ∧
      T.obj (keyOf m names) = some n ∧
      ∃ s, vfsNodeRelease st.vfs n = .ok s ∧ Rep s (T.dropAll (chain m names).reverse) := by
  obtain ⟨m, hm, names, hnames, hobj⟩ := h.held n hn
  obtain ⟨root, hroot, hrootKey⟩ := h.roots m hm
  exact ⟨m, hm, names, hnames, hobj,
    h.rep.release hnames hroot hrootKey hobj (h.chain_ne_none hm hnames hn hobj)⟩

theorem Inv.root_iff (hm : m ∈ st.vfs.mntList) (hnames : ∀ name ∈ names, IsName name)
    (hobj : T.obj (keyOf m names) = some n) :
    (st.vfs.mount m).root = some n ↔ names = [] := by
  obtain ⟨root, hroot, hrootKey⟩ := h.roots m hm
  rw [hroot]
  constructor
  · intro he
    cases he
    obtain ⟨c, hk⟩ := RefTable.exists_of_obj hobj
    obtain ⟨c', hk'⟩ := RefTable.exists_of_obj hrootKey
    exact (keyOf_inj hnames (by simp) (h.rep.inj hk hk')).2
  · intro he
    subst he
    rw [← hrootKey, hobj]

theorem Inv.balanced : st.Balanced where
  refcnt := by
    intro b x hx
    obtain ⟨k, c, hk, -⟩ := (h.rep.mem b x).mp hx
    have hobj : T.obj k = some x := by simp [RefTable.obj, hk]
    obtain ⟨m, hm, names, hnames, rfl⟩ := h.keys k (by simp [hk])
    obtain ⟨hmount, hpath, -⟩ := h.rep.node _ x c hk
    have hmount' : (st.vfs.node x).mount = m := hmount
    rw [h.rep.refcnt hobj, h.count m hm names hnames, hmount', hpath]
    simp only [h.root_iff hm hnames hobj]
  cached := by
    intro m hm names hne hnames
    have hkey : keyOf m names = (m, pathOf names) := by simp [keyOf, hne]
    have hcount := h.count m hm names hnames
    rw [if_neg hne, hkey] at hcount
    rw [h.rep.cached, Ne, RefTable.obj_eq_none_iff, ← Ne, ← RefTable.count_pos_iff h.rep.positive,
      hcount]
    simp
  mounts := fun m _ => h.rep.mounts m
  held := by
    intro n hn
    obtain ⟨m, hm, names, hnames, hobj, s, hs, -⟩ := h.release_ok hn
    obtain ⟨c, hk⟩ := RefTable.exists_of_obj hobj
    exact ⟨⟨_, (h.rep.mem _ n).mpr ⟨_, c, hk, rfl⟩⟩, s, hs⟩
  undo := by
    intro replies path s n hf hacq
    obtain ⟨m, hm, names, hnames, hwalked, hobj⟩ := h.rep.acquire_ok h.rooted hf hacq
    obtain ⟨root, hroot, hrootKey⟩ := h.roots m hm
    obtain ⟨s', hs', hrep⟩ := hwalked.release h.rep hnames hroot hrootKey hobj
    refine ⟨s', hs', h.rep.sameCache hrep, ?_⟩
    intro m'
    rw [hrep.mounts, h.rep.mounts, h.rep.nodesOf_eq hrep]

theorem Inv.countP_congr {s' : Vfs} {T' : NodeTable} (hs' : Rep s' T') {held : List ℕ}
    (hheld : ∀ n ∈ held, n ∈ st.held)
    (hkeep : ∀ n ∈ held, ∀ k, T.obj k = some n → T'.obj k = some n) (m : ℕ) (path : Str) :
    held.countP (s'.below m path) = held.countP (st.vfs.below m path) := by
  apply List.countP_congr
  intro n hn
  obtain ⟨m', -, names, -, hobj⟩ := h.held n (hheld n hn)
  rw [h.rep.below_congr hs' hobj (hkeep n hn _ hobj)]

theorem Inv.acquire {replies : Str → FsReply} {path : Str} (hf : Fresh st.vfs replies)
    (hacq : vfsNodeAcquire replies st.vfs path = .ok (s, 0, some n)) :
    ∃ T', Inv ⟨s, n :: st.held⟩ T' := by
  obtain ⟨m, hm, names, hnames, hwalked, hobj⟩ := h.rep.acquire_ok h.rooted hf hacq
  obtain ⟨T', hT'⟩ : ∃ T', T' = T.grabAll (newNode replies) (chain m names) := ⟨_, rfl⟩
  have hrep := hwalked.rep
  rw [← hT'] at hrep hobj
  have hlist : s.mntList = st.vfs.mntList := hwalked.frame.mntList
  have hkeep : ∀ k u, T.obj k = some u → T'.obj k = some u := by
    intro k u hu
    rw [hT', RefTable.obj_grabAll, if_neg (RefTable.ne_none_of_obj hu), hu]
  refine ⟨T', hrep, ?_, ?_, ?_, ?_⟩
  · intro m' hm'
    obtain ⟨root, hroot, hrootKey⟩ := h.roots m' (hlist ▸ hm')
    exact ⟨root, (hwalked.frame.root m').trans hroot, hkeep _ _ hrootKey⟩
  · intro k hk
    dsimp only
    rw [hlist]
    by_cases hin : k ∈ chain m names
    · obtain ⟨pre, hpre, rfl⟩ := exists_of_mem_chain hin
      exact ⟨m, hm, pre, fun name hname => hnames name (hpre.subset hname), rfl⟩
    · rw [hT', RefTable.grabAll_of_notMem hin] at hk
      exact h.keys k hk
  · intro u hu
    dsimp only
    rw [hlist]
    cases List.mem_cons.mp hu with
    | inl he =>
      rw [he]
      exact ⟨m, hm, names, hnames, hobj⟩
    | inr hin =>
      obtain ⟨m', hm', names', hnames', hobj'⟩ := h.held u hin
      exact ⟨m', hm', names', hnames', hkeep _ _ hobj'⟩
  · intro m' hm' names' hnames'
    have hm₀ : m' ∈ st.vfs.mntList := hlist ▸ hm'
    have hcongr := h.countP_congr hrep (fun u hu => hu) (fun u _ k => hkeep k u) m'
      (keyOf m' names').2
    have hbelow : s.below m' (keyOf m' names').2 n = true ↔ keyOf m' names' ∈ chain m names :=
      hrep.below_iff hnames hnames' hobj
    dsimp only
    rw [List.countP_cons, hcongr]
    by_cases hin : keyOf m' names' ∈ chain m names
    · rw [hT', RefTable.count_grabAll_of_mem (chain_nodup hnames m) hin,
        h.count m' hm₀ names' hnames', if_pos (hbelow.mpr hin)]
      push_cast
      omega
    · rw [hT', RefTable.count, RefTable.grabAll_of_notMem hin]
      change T.count _ = _
      rw [h.count m' hm₀ names' hnames', if_neg fun hc => hin (hbelow.mp hc)]
      simp

theorem Inv.count_dropAll (hm : m ∈ st.vfs.mntList) (hnames : ∀ name ∈ names, IsName name)
    (hn : n ∈ st.held) (hobj : T.obj (keyOf m names) = some n) {m' : ℕ} (hm' : m' ∈ st.vfs.mntList)
    {names' : List Str} (hnames' : ∀ name ∈ names', IsName name) :
    (T.dropAll (chain m names).reverse).count (keyOf m' names') =
      (if names' = [] then 1 else 0) +
        (st.held.erase n).countP (st.vfs.below m' (keyOf m' names').2) := by
  have hbelow : st.vfs.below m' (keyOf m' names').2 n = true ↔
      keyOf m' names' ∈ chain m names := h.rep.below_iff hnames hnames' hobj
  have hold := h.count m' hm' names' hnames'
  rw [(List.perm_cons_erase hn).countP_eq, List.countP_cons] at hold
  by_cases hmem : keyOf m' names' ∈ chain m names
  · rw [RefTable.count_dropAll_of_mem h.rep.positive
      (List.nodup_reverse.mpr (chain_nodup hnames m))
      (fun k hk => h.chain_ne_none hm hnames hn hobj k (List.mem_reverse.mp hk))
      (List.mem_reverse.mpr hmem), hold, if_pos (hbelow.mpr hmem)]
    push_cast
    omega
  · rw [RefTable.count, RefTable.dropAll_of_notMem fun hc => hmem (List.mem_reverse.mp hc)]
    change T.count _ = _
    rw [hold, if_neg fun hc => hmem (hbelow.mp hc)]
    simp

theorem Inv.release (hn : n ∈ st.held) (hs : vfsNodeRelease st.vfs n = .ok s) :
    ∃ T', Inv ⟨s, st.held.erase n⟩ T' := by
  obtain ⟨m, hm, names, hnames, hobj, s', hs', hrep⟩ := h.release_ok hn
  have hframe := Frame.release hs
  obtain rfl : s = s' := Except.ok.inj (hs.symm.trans hs')
  obtain ⟨T', hT'⟩ : ∃ T', T' = T.dropAll (chain m names).reverse := ⟨_, rfl⟩
  rw [← hT'] at hrep
  have hlist : s.mntList = st.vfs.mntList := hframe.mntList
  have hcount : ∀ m' ∈ st.vfs.mntList, ∀ names', (∀ name ∈ names', IsName name) →
      T'.count (keyOf m' names') = (if names' = [] then 1 else 0) +
        (st.held.erase n).countP (st.vfs.below m' (keyOf m' names').2) := by
    intro m' hm' names' hnames'
    rw [hT']
    exact h.count_dropAll hm hnames hn hobj hm' hnames'
  -- nodes that are still referenced stay where they are
  have hkeep : ∀ m' ∈ st.vfs.mntList, ∀ names', (∀ name ∈ names', IsName name) → ∀ u,
      0 < T'.count (keyOf m' names') → T.obj (keyOf m' names') = some u →
      T'.obj (keyOf m' names') = some u := by
    intro m' hm' names' hnames' u hpos hu
    rw [RefTable.count_pos_iff hrep.positive, Ne, ← RefTable.obj_eq_none_iff] at hpos
    rw [hT'] at hpos ⊢
    rw [RefTable.obj_dropAll hpos, hu]
  have hheldKeep : ∀ u ∈ st.held.erase n, ∀ k, T.obj k = some u → T'.obj k = some u := by
    intro u hu k hk
    obtain ⟨m', hm', names', hnames', rfl⟩ := h.keys k (RefTable.ne_none_of_obj hk)
    apply hkeep m' hm' names' hnames' u _ hk
    have hself : st.vfs.below m' (keyOf m' names').2 u = true :=
      (h.rep.below_iff hnames' hnames' hk).mpr (by simpa using mem_chain names' [])
    have hpos : 0 < (st.held.erase n).countP (st.vfs.below m' (keyOf m' names').2) :=
      List.countP_pos_iff.mpr ⟨u, hu, hself⟩
    rw [hcount m' hm' names' hnames']
    split_ifs
    · omega
    · omega
  refine ⟨T', hrep, ?_, ?_, ?_, ?_⟩
  · intro m' hm'
    have hm₀ : m' ∈ st.vfs.mntList := hlist ▸ hm'
    obtain ⟨root, hroot, hrootKey⟩ := h.roots m' hm₀
    refine ⟨root, (hframe.root m').trans hroot, hkeep m' hm₀ [] (by simp) root ?_ hrootKey⟩
    rw [hcount m' hm₀ [] (by simp), if_pos rfl]
    omega
  · intro k hk
    dsimp only
    rw [hlist]
    apply h.keys k
    intro hnone
    apply hk
    rw [← RefTable.obj_eq_none_iff]
    by_contra hc
    rw [hT'] at hc
    rw [RefTable.obj_dropAll hc, RefTable.obj_eq_none_iff] at hc
    exact hc hnone
  · intro u hu
    dsimp only
    rw [hlist]
    obtain ⟨m', hm', names', hnames', hobj'⟩ := h.held u (List.mem_of_mem_erase hu)
    exact ⟨m', hm', names', hnames', hheldKeep u hu _ hobj'⟩
  · intro m' hm' names' hnames'
    dsimp only
    rw [h.countP_congr hrep (fun u hu => List.mem_of_mem_erase hu) hheldKeep]
    exact hcount m' (hlist ▸ hm') names' hnames'

theorem Inv.mount {r : ℕ} {dir : Str} (hm : m ∉ st.vfs.mntList) (hr : ∀ b, r ∉ st.vfs.nodeList b) :
    ∃ T', Inv ⟨vfsMount st.vfs m r dir, st.held⟩ T' := by
  have hnone : ∀ path, T (m, path) = none := by
    intro path
    by_contra hc
    obtain ⟨m', hm', names, -, hk⟩ := h.keys _ hc
    exact hm ((Prod.mk.inj hk).1 ▸ hm')
  have hnew : ∀ k, T.obj k ≠ some r := by
    intro k hk
    obtain ⟨c, hk'⟩ := RefTable.exists_of_obj hk
    exact hr _ ((h.rep.mem _ r).mpr ⟨k, c, hk', rfl⟩)
  obtain ⟨hrep, hlist, hroot, hother⟩ := @Rep.mount _ _ h.rep m r dir hnone hnew
  have hroot' : keyOf m [] = (m, rootPath) := by simp [keyOf]
  have hkeep : ∀ k u, T.obj k = some u → (T.grab (m, rootPath) r).obj k = some u :=
    fun k u hu => RefTable.obj_grab_of_some hu
  refine ⟨T.grab (m, rootPath) r, hrep, ?_, ?_, ?_, ?_⟩
  · intro m' hm'
    by_cases hmm : m' = m
    · subst hmm
      exact ⟨r, hroot, by rw [hroot']; simp [RefTable.obj, RefTable.grab, hnone]⟩
    · rw [hlist] at hm'
      obtain ⟨root, hr', hobj⟩ := h.roots m' ((List.mem_cons.mp hm').resolve_left hmm)
      exact ⟨root, (hother m' hmm).trans hr', hkeep _ _ hobj⟩
  · intro k hk
    dsimp only
    rw [hlist]
    by_cases hkm : k = (m, rootPath)
    · exact ⟨m, by simp, [], by simp, by rw [hkm, hroot']⟩
    · rw [RefTable.grab, Function.update_of_ne hkm] at hk
      obtain ⟨m', hm', names, hnames, hk'⟩ := h.keys k hk
      exact ⟨m', List.mem_cons_of_mem _ hm', names, hnames, hk'⟩
  · intro u hu
    dsimp only
    rw [hlist]
    obtain ⟨m', hm', names, hnames, hobj⟩ := h.held u hu
    exact ⟨m', List.mem_cons_of_mem _ hm', names, hnames, hkeep _ _ hobj⟩
  · intro m' hm' names hnames
    dsimp only
    rw [h.countP_congr hrep (fun u hu => hu) (fun u _ k => hkeep k u), RefTable.count_grab]
    by_cases hmm : m' = m
    · subst hmm
      -- nothing of the new mount is held
      have hzero : st.held.countP (st.vfs.below m' (keyOf m' names).2) = 0 := by
        rw [List.countP_eq_zero]
        intro u hu hbelow
        obtain ⟨m₀, hm₀, names₀, hnames₀, hobj₀⟩ := h.held u hu
        have hin := (h.rep.below_iff hnames₀ hnames hobj₀).mp hbelow
        exact hm (((keyOf_mem_chain_iff hnames₀ hnames).mp hin).1 ▸ hm₀)
      have hcount : T.count (keyOf m' names) = 0 := by
        simp [RefTable.count, keyOf, hnone]
      rw [hzero, hcount, ← hroot']
      by_cases hnil : names = []
      · simp [hnil]
      · have hne : keyOf m' names ≠ keyOf m' [] := by
          intro he
          exact hnil (keyOf_inj hnames (by simp) he).2
        simp [hnil, hne]
    · rw [hlist] at hm'
      have hne : keyOf m' names ≠ (m, rootPath) := fun he => hmm (Prod.mk.inj he).1
      rw [if_neg hne, h.count m' ((List.mem_cons.mp hm').resolve_left hmm) names hnames]
      simp

theorem Inv.step {c : RefsCall} (hok : st.Allocated c) (hstep : st.step c = .ok st') :
    ∃ T', st'.Inv T' := by
  cases c with
  | acquire replies path =>
    rw [RefsRun.step] at hstep
    split at hstep
    next s n hacq =>
      cases hstep
      exact h.acquire hok hacq
    next => cases hstep
  | release n =>
    rw [RefsRun.step] at hstep
    split_ifs at hstep with hn
    split at hstep
    next s hs =>
      cases hstep
      exact h.release hn hs
    next => cases hstep
  | mount m r dir =>
    cases hstep
    exact h.mount hok.1 hok.2

end

end RefsRun

/-- **The references balance in every state of every run.** -/
theorem refsRuns_balanced (st : RefsRun)
    (hr : refsRuns.ReachableVia RefsRun.Allocated st) : st.Balanced := by
  have hinv : ∃ T, st.Inv T := by
    apply hr.invariant (I := fun st => ∃ T, RefsRun.Inv st T)
    · intro st hst
      obtain rfl : st = ⟨Vfs.empty, []⟩ := hst
      exact ⟨_, RefsRun.inv_initial⟩
    · intro st c st' h hok hstep
      obtain ⟨T, h⟩ := h
      exact h.step hok hstep
  obtain ⟨T, h⟩ := hinv
  exact h.balanced

/-- A directory `/a` that is held once: it and the root are cached. -/
theorem refsRuns_balanced_oneFile :
    ∃ st, refsRuns.ReachableVia RefsRun.Allocated st ∧ st.Balanced ∧ st.held = [20] ∧
      (st.vfs.node 10).refcnt = 2 ∧ (st.vfs.node 20).refcnt = 1 := by
  have hmount : refsRuns.ReachableVia RefsRun.Allocated ⟨rootVfs, []⟩ :=
    .step (.mount 1 10 ['/']) (.init rfl) ⟨by simp [Vfs.empty], by simp [Vfs.empty]⟩ rfl
  obtain ⟨s, hs, h10, h20⟩ : ∃ s, vfsNodeAcquire (oneFile .dir) rootVfs ['/', 'a'] =
      .ok (s, 0, some 20) ∧ (s.node 10).refcnt = 2 ∧ (s.node 20).refcnt = 1 :=
    ⟨_, rfl, rfl, rfl⟩
  have hok : RefsRun.Allocated ⟨rootVfs, []⟩ (.acquire (oneFile .dir) ['/', 'a']) :=
    oneFile_fresh .dir
  have hheld : refsRuns.ReachableVia RefsRun.Allocated ⟨s, [20]⟩ :=
    .step _ hmount hok (by simp only [refsRuns, RefsRun.step, hs])
  exact ⟨_, hheld, refsRuns_balanced _ hheld, rfl, h10, h20⟩

end Ginkgo.Fs
