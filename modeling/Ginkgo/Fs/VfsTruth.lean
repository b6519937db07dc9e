import Ginkgo.Fs.VfsWalk

/-!
# What `vfs_node_acquire` reports

`vfs_node_acquire` should return zero only with a referenced node for the whole path, and leave the
cache as it was otherwise.  It does not always:

* if there is no new node for a component other than the first one, only the reference to the
  last prefix is given back;
* if the file system finds a node that is not a directory before a `/`, the result is zero, but no
  node is stored;
* a node that is cached is not checked to be a directory;
* a path that does not fit into the buffer is written beyond its end.

## Main results

* `vfsNodeAcquire_truthful_iff` — it does exactly for these.
* `vfsNodeAcquire_not_truthful` — caches and paths for which it does not.
-/

namespace Ginkgo.Fs

/-- The cache is consistent: it represents a table, in which the roots of the mounts are. -/
def Vfs.Ok (s : Vfs) : Prop := ∃ T, Rep s T ∧ Rooted s T

/-- The same nodes are cached, with the same reference counts. -/
structure SameCache (s s' : Vfs) : Prop where
  cached : ∀ b n, n ∈ s'.nodeList b ↔ n ∈ s.nodeList b
  refcnt : ∀ b n, n ∈ s.nodeList b → (s'.node n).refcnt = (s.node n).refcnt

/-- The node `n` was found for the path with the components `names`. -/
structure Resolved (s s' : Vfs) (m : ℕ) (names : List Str) (n : ℕ) : Prop where
  node : s'.cached m (keyOf m names).2 = some n
  refcnt : (s'.node n).refcnt =
    (match s.cached m (keyOf m names).2 with
      | some n => (s.node n).refcnt
      | none => 0) + 1
  dirs : ∀ pre post, names = pre ++ post → pre ≠ [] → post ≠ [] →
    ∃ d, s'.cached m (pathOf pre) = some d ∧ (s'.node d).type = .dir

/-- `vfs_node_acquire` returns, with zero only if it has found a node for the whole path, and with
another result only if the cache is as it was. -/
def Truthful (s : Vfs) (replies : Str → FsReply) (path : Str) : Prop :=
  ∃ s' ret np, vfsNodeAcquire replies s path = .ok (s', ret, np) ∧
    (ret = 0 → ∃ m p n, vfsFindroot s path = some (m, p) ∧ np = some n ∧
      Resolved s s' m ((components p).map Prod.fst) n) ∧
    (ret ≠ 0 → SameCache s s')

/-! ## The condition -/

/-- There is a new node for a path. -/
def Creatable (replies : Str → FsReply) (path : Str) : Prop :=
  (replies path).addr ≠ none ∧ (replies path).vget = 0

/-- A component with the path `path` is passed: its node is cached, or it is created, and the file
system finds it and, before a `/`, finds a directory. -/
def Passes (s : Vfs) (m : ℕ) (replies : Str → FsReply) (path : Str) (slash : Bool) : Prop :=
  path.length < vfsMaxPath ∧
    (s.cached m path ≠ none ∨
      Creatable replies path ∧ (replies path).lookup = 0 ∧
        (slash = true → (replies path).type = .dir))

/-- All components after `node` are passed. -/
def AllPass (s : Vfs) (m : ℕ) (replies : Str → FsReply) : Str → List (Str × Bool) → Prop
  | _, [] => True
  | node, (name, slash) :: rest =>
    Passes s m replies (node ++ '/' :: name) slash ∧
      AllPass s m replies (node ++ '/' :: name) rest

/-- The path of the last of some components. -/
def pathTo (comps : List (Str × Bool)) : Str := pathOf (comps.map Prod.fst)

/-- Every component whose predecessors are passed has a path that fits into the buffer; if it is
not cached, then a new node can be created for it unless it is the first component, and a node
that is created before a `/` and that the file system finds is a directory.  If all components
are passed, then those before the last one that are cached are directories. -/
structure HonestAt (s : Vfs) (m : ℕ) (replies : Str → FsReply) (comps : List (Str × Bool)) :
    Prop where
  fits : ∀ pre c post, comps = pre ++ c :: post → AllPass s m replies [] pre →
    (pathTo (pre ++ [c])).length < vfsMaxPath
  creatable : ∀ pre c post, comps = pre ++ c :: post → AllPass s m replies [] pre →
    s.cached m (pathTo (pre ++ [c])) = none → ¬ Creatable replies (pathTo (pre ++ [c])) →
    pre = []
  newDir : ∀ pre c post, comps = pre ++ c :: post → AllPass s m replies [] pre →
    s.cached m (pathTo (pre ++ [c])) = none → Creatable replies (pathTo (pre ++ [c])) →
    (replies (pathTo (pre ++ [c]))).lookup = 0 → c.2 = true →
    (replies (pathTo (pre ++ [c]))).type = .dir
  oldDir : AllPass s m replies [] comps → ∀ pre post, comps = pre ++ post → pre ≠ [] →
    post ≠ [] → ∀ d, s.cached m (pathTo pre) = some d → (s.node d).type = .dir

/-- The path is not in a mount with a root, or its components are as in `HonestAt`. -/
def Honest (s : Vfs) (replies : Str → FsReply) (path : Str) : Prop :=
  ∀ m p root, vfsFindroot s path = some (m, p) → (s.mount m).root = some root →
    HonestAt s m replies (components p)

/-! ## The condition in terms of the walk -/

section Condition

variable {s : Vfs} {m : ℕ} {replies : Str → FsReply} {node name path : Str} {slash : Bool}
  {comps pre post rest : List (Str × Bool)} {c : Str × Bool}

/-- Why a component is not passed. -/
def stopEnd (replies : Str → FsReply) (path : Str) : WalkEnd :=
  if vfsMaxPath ≤ path.length then .tooLong
  else if (replies path).addr = none ∨ (replies path).vget ≠ 0 then .noNode
  else if (replies path).lookup ≠ 0 then .refused (replies path).lookup
  else .notDir

theorem not_creatable_iff :
    ¬ Creatable replies path ↔ (replies path).addr = none ∨ (replies path).vget ≠ 0 := by
  rw [Creatable, not_and_or, not_not]

theorem walk_pass (h : Passes s m replies (node ++ '/' :: name) slash) :
    walk (s.cached m) replies node ((name, slash) :: rest) =
      (name :: (walk (s.cached m) replies (node ++ '/' :: name) rest).1,
        (walk (s.cached m) replies (node ++ '/' :: name) rest).2) := by
  obtain ⟨hfits, hnode⟩ := h
  rw [walk, if_neg (Nat.not_le.mpr hfits)]
  by_cases hcached : s.cached m (node ++ '/' :: name) = none
  · obtain ⟨hcreate, hlookup, hdir⟩ := hnode.resolve_left (by simp [hcached])
    have hget := fun hc => not_creatable_iff.mpr hc hcreate
    have hno : ¬ (replies (node ++ '/' :: name)).lookup ≠ 0 := by simp [hlookup]
    rw [if_neg (by simp [hcached]), if_neg hget, if_neg hno,
      if_neg fun hc => hc.2 (hdir hc.1)]
  · rw [if_pos hcached]

theorem walk_stop (h : ¬ Passes s m replies (node ++ '/' :: name) slash) :
    walk (s.cached m) replies node ((name, slash) :: rest) =
      ([], stopEnd replies (node ++ '/' :: name)) := by
  rw [walk, stopEnd]
  by_cases hfits : vfsMaxPath ≤ (node ++ '/' :: name).length
  · rw [if_pos hfits, if_pos hfits]
  · rw [Passes, not_and] at h
    have hnode := h (Nat.not_le.mp hfits)
    rw [not_or, not_not] at hnode
    obtain ⟨hcached, hnew⟩ := hnode
    rw [if_neg hfits, if_neg hfits, if_neg (by simp [hcached])]
    by_cases hget : (replies (node ++ '/' :: name)).addr = none ∨
        (replies (node ++ '/' :: name)).vget ≠ 0
    · rw [if_pos hget, if_pos hget]
    · rw [if_neg hget, if_neg hget]
      by_cases hlookup : (replies (node ++ '/' :: name)).lookup ≠ 0
      · rw [if_pos hlookup, if_pos hlookup]
      · rw [if_neg hlookup, if_neg hlookup, if_pos]
        by_contra hdir
        apply hnew
        rw [not_and, not_not] at hdir
        exact ⟨not_not.mp fun hc => hget (not_creatable_iff.mp hc), not_not.mp hlookup, hdir⟩

theorem pathTo_cons (c : Str × Bool) (comps : List (Str × Bool)) :
    pathTo (c :: comps) = '/' :: c.1 ++ pathTo comps := by
  simp [pathTo, pathOf]

theorem walk_split (s : Vfs) (m : ℕ) (replies : Str → FsReply) (node : Str)
    (comps : List (Str × Bool)) :
    ∃ pre suf, comps = pre ++ suf ∧ AllPass s m replies node pre ∧
      (walk (s.cached m) replies node comps).1 = pre.map Prod.fst ∧
      (suf = [] ∧ (walk (s.cached m) replies node comps).2 = .arrived ∨
        ∃ c post, suf = c :: post ∧
          ¬ Passes s m replies (node ++ pathTo (pre ++ [c])) c.2 ∧
          (walk (s.cached m) replies node comps).2 =
            stopEnd replies (node ++ pathTo (pre ++ [c]))) := by
  induction comps generalizing node with
  | nil => exact ⟨[], [], rfl, trivial, rfl, Or.inl ⟨rfl, rfl⟩⟩
  | cons c comps ih =>
    obtain ⟨name, slash⟩ := c
    by_cases hpass : Passes s m replies (node ++ '/' :: name) slash
    · obtain ⟨pre, suf, hsplit, hall, hnames, hend⟩ := ih (node ++ '/' :: name)
      refine ⟨(name, slash) :: pre, suf, by rw [hsplit]; rfl, ⟨hpass, hall⟩, ?_, ?_⟩
      · rw [walk_pass hpass, hnames]
        rfl
      · rw [walk_pass hpass]
        simpa [pathTo_cons] using hend
    · refine ⟨[], (name, slash) :: comps, rfl, trivial, ?_, Or.inr ?_⟩
      · rw [walk_stop hpass]
        rfl
      · have hpath : pathTo ([] ++ [(name, slash)]) = '/' :: name := by simp [pathTo, pathOf]
        rw [walk_stop hpass]
        exact ⟨(name, slash), comps, rfl, by rwa [hpath], by rw [hpath]⟩

theorem pass_or_stop {pre' post' : List (Str × Bool)} {c' : Str × Bool}
    (hsplit : pre ++ c :: post = pre' ++ c' :: post') (hall : AllPass s m replies node pre)
    (hstop : ¬ Passes s m replies (node ++ pathTo (pre ++ [c])) c.2)
    (hall' : AllPass s m replies node pre') :
    (pre' = pre ∧ c' = c) ∨ Passes s m replies (node ++ pathTo (pre' ++ [c'])) c'.2 := by
  induction pre generalizing node pre' with
  | nil =>
    cases pre' with
    | nil =>
      obtain ⟨rfl, -⟩ := List.cons.inj hsplit
      exact Or.inl ⟨rfl, rfl⟩
    | cons d pre' =>
      obtain ⟨rfl, -⟩ := List.cons.inj hsplit
      have hpath : pathTo ([] ++ [c]) = '/' :: c.1 := by simp [pathTo, pathOf]
      rw [hpath] at hstop
      exact absurd hall'.1 hstop
  | cons d pre ih =>
    cases pre' with
    | nil =>
      obtain ⟨rfl, -⟩ := List.cons.inj hsplit
      have hpath : pathTo ([] ++ [d]) = '/' :: d.1 := by simp [pathTo, pathOf]
      rw [hpath]
      exact Or.inr hall.1
    | cons d' pre' =>
      rw [List.cons_append, List.cons_append] at hsplit
      obtain ⟨rfl, hsplit'⟩ := List.cons.inj hsplit
      have hassoc : ∀ comps, node ++ pathTo (d :: comps) =
          (node ++ '/' :: d.1) ++ pathTo comps := by
        intro comps
        simp [pathTo_cons]
      rw [List.cons_append, hassoc] at hstop
      cases ih hsplit' hall.2 hstop hall'.2 with
      | inl heq => exact Or.inl ⟨by rw [heq.1], heq.2⟩
      | inr hpass =>
        rw [List.cons_append, hassoc]
        exact Or.inr hpass

theorem AllPass.pass (h : AllPass s m replies node (pre ++ c :: post)) :
    Passes s m replies (node ++ pathTo (pre ++ [c])) c.2 := by
  induction pre generalizing node with
  | nil =>
    have hpath : pathTo ([] ++ [c]) = '/' :: c.1 := by simp [pathTo, pathOf]
    rw [hpath]
    exact h.1
  | cons d pre ih =>
    have hrest := ih h.2
    simpa [pathTo_cons] using hrest

/-- The condition, by the end of the walk. -/
def EndHonest (s : Vfs) (m : ℕ) (names : List Str) : WalkEnd → Prop
  | .arrived => ∀ pre post, names = pre ++ post → pre ≠ [] → post ≠ [] →
      ∀ d, s.cached m (pathOf pre) = some d → (s.node d).type = .dir
  | .noNode => names = []
  | .refused _ => True
  | .notDir => False
  | .tooLong => False

theorem Passes.honest (h : Passes s m replies path slash) :
    path.length < vfsMaxPath ∧
      (s.cached m path = none → Creatable replies path ∧
        (slash = true → (replies path).type = .dir)) := by
  refine ⟨h.1, ?_⟩
  intro hcached
  obtain ⟨hcreate, -, hdir⟩ := h.2.resolve_left (by simp [hcached])
  exact ⟨hcreate, hdir⟩

theorem honestAt_arrived (hall : AllPass s m replies [] comps) :
    HonestAt s m replies comps ↔ EndHonest s m (comps.map Prod.fst) .arrived := by
  constructor
  · intro h pre post hsplit hpre hpost d hd
    obtain ⟨pre', post', rfl, rfl, rfl⟩ := List.map_eq_append_iff.mp hsplit
    exact h.oldDir hall pre' post' rfl (by simpa using hpre) (by simpa using hpost) d hd
  · intro h
    refine ⟨?_, ?_, ?_, ?_⟩
    · intro pre c post hsplit _
      rw [hsplit] at hall
      exact hall.pass.honest.1
    · intro pre c post hsplit _ hcached hcreate
      rw [hsplit] at hall
      exact absurd (hall.pass.honest.2 hcached).1 hcreate
    · intro pre c post hsplit _ hcached _ _ hslash
      rw [hsplit] at hall
      exact (hall.pass.honest.2 hcached).2 hslash
    · intro _ pre post hsplit hpre hpost d hd
      exact h (pre.map Prod.fst) (post.map Prod.fst) (by rw [hsplit, List.map_append])
        (by simpa using hpre) (by simpa using hpost) d hd

section

variable (hsplit : comps = pre ++ c :: post) (hall : AllPass s m replies [] pre)
  (hstop : ¬ Passes s m replies (pathTo (pre ++ [c])) c.2)

include hsplit hall hstop

theorem honestAt_of_stop (hfits : (pathTo (pre ++ [c])).length < vfsMaxPath)
    (hcreate : ¬ Creatable replies (pathTo (pre ++ [c])) → pre = [])
    (hdir : Creatable replies (pathTo (pre ++ [c])) → (replies (pathTo (pre ++ [c]))).lookup = 0 →
      c.2 = true → (replies (pathTo (pre ++ [c]))).type = .dir)
    :
    HonestAt s m replies comps := by
  have hcases : ∀ pre' c' post', comps = pre' ++ c' :: post' → AllPass s m replies [] pre' →
      (pre' = pre ∧ c' = c) ∨ Passes s m replies (pathTo (pre' ++ [c'])) c'.2 := by
    intro pre' c' post' hsplit' hall'
    exact pass_or_stop (hsplit.symm.trans hsplit') hall hstop hall'
  refine ⟨?_, ?_, ?_, fun hc => ?_⟩
  · intro pre' c' post' hsplit' hall'
    cases hcases pre' c' post' hsplit' hall' with
    | inl heq =>
      rw [heq.1, heq.2]
      exact hfits
    | inr hpass => exact hpass.honest.1
  · intro pre' c' post' hsplit' hall' hcached' hno
    cases hcases pre' c' post' hsplit' hall' with
    | inl heq =>
      rw [heq.1, heq.2] at hno
      rw [heq.1]
      exact hcreate hno
    | inr hpass => exact absurd (hpass.honest.2 hcached').1 hno
  · intro pre' c' post' hsplit' hall' hcached' hyes hlookup hslash
    cases hcases pre' c' post' hsplit' hall' with
    | inl heq =>
      rw [heq.1, heq.2] at hyes hlookup ⊢
      rw [heq.2] at hslash
      exact hdir hyes hlookup hslash
    | inr hpass => exact (hpass.honest.2 hcached').2 hslash
  · rw [hsplit] at hc
    exact absurd hc.pass hstop

theorem honestAt_stop :
    HonestAt s m replies comps ↔
      EndHonest s m (pre.map Prod.fst) (stopEnd replies (pathTo (pre ++ [c]))) := by
  rw [stopEnd]
  by_cases hlong : vfsMaxPath ≤ (pathTo (pre ++ [c])).length
  · rw [if_pos hlong]
    refine iff_of_false ?_ id
    intro h
    exact absurd (h.fits pre c post hsplit hall) (Nat.not_lt.mpr hlong)
  rw [if_neg hlong]
  have hfits := Nat.not_le.mp hlong
  obtain ⟨hcached, hnew⟩ : s.cached m (pathTo (pre ++ [c])) = none ∧
      ¬ (Creatable replies (pathTo (pre ++ [c])) ∧ (replies (pathTo (pre ++ [c]))).lookup = 0 ∧
        (c.2 = true → (replies (pathTo (pre ++ [c]))).type = .dir)) := by
    rw [Passes, not_and] at hstop
    simpa [not_or] using hstop hfits
  have hbuild := honestAt_of_stop hsplit hall hstop hfits
  by_cases hget : (replies (pathTo (pre ++ [c]))).addr = none ∨
      (replies (pathTo (pre ++ [c]))).vget ≠ 0
  · have hno := not_creatable_iff.mpr hget
    rw [if_pos hget]
    constructor
    · intro h
      rw [h.creatable pre c post hsplit hall hcached hno]
      rfl
    · intro h
      exact hbuild (fun _ => List.map_eq_nil_iff.mp h) (fun hyes => absurd hyes hno)
  · have hyes : Creatable replies (pathTo (pre ++ [c])) :=
      not_not.mp fun hc => hget (not_creatable_iff.mp hc)
    rw [if_neg hget]
    by_cases hlookup : (replies (pathTo (pre ++ [c]))).lookup ≠ 0
    · rw [if_pos hlookup]
      refine iff_of_true ?_ trivial
      exact hbuild (fun hno => absurd hyes hno) (fun _ hzero => absurd hzero hlookup)
    · rw [if_neg hlookup]
      refine iff_of_false ?_ id
      intro h
      rw [ne_eq, not_not] at hlookup
      exact hnew ⟨hyes, hlookup, h.newDir pre c post hsplit hall hcached hyes hlookup⟩

end

theorem honestAt_iff (s : Vfs) (m : ℕ) (replies : Str → FsReply) (comps : List (Str × Bool)) :
    HonestAt s m replies comps ↔
      EndHonest s m (walk (s.cached m) replies [] comps).1
        (walk (s.cached m) replies [] comps).2 := by
  obtain ⟨pre, suf, hsplit, hall, hnames, hend⟩ := walk_split s m replies [] comps
  rw [hnames]
  cases hend with
  | inl harrived =>
    rw [harrived.1, List.append_nil] at hsplit
    rw [harrived.2, ← hsplit]
    exact honestAt_arrived (hsplit ▸ hall)
  | inr hstopped =>
    obtain ⟨c, post, rfl, hstop, hend⟩ := hstopped
    rw [hend]
    exact honestAt_stop hsplit hall hstop

end Condition

/-! ## The result in terms of the walk -/

section Result

variable {s s' : Vfs} {T : NodeTable} {m root n : ℕ} {replies : Str → FsReply} {names : List Str}

theorem Rep.sameCache (h : Rep s T) (h' : Rep s' T) : SameCache s s' := by
  refine ⟨?_, ?_⟩
  · intro b n
    rw [h.mem, h'.mem]
  · intro b n hn
    obtain ⟨k, c, hk, -⟩ := (h.mem b n).mp hn
    rw [(h.node k n c hk).2.2, (h'.node k n c hk).2.2]

theorem Rep.count (h : Rep s T) (m : ℕ) (path : Str) :
    (match s.cached m path with
      | some n => (s.node n).refcnt
      | none => 0) = T.count (m, path) := by
  rw [h.cached]
  cases hk : T (m, path) with
  | none => simp [RefTable.obj, RefTable.count, hk]
  | some e =>
    obtain ⟨n, c⟩ := e
    simpa [RefTable.obj, RefTable.count, hk] using (h.node _ n c hk).2.2

theorem Rep.refcnt (h : Rep s T) {k : ℕ × Str} (hn : T.obj k = some n) :
    (s.node n).refcnt = T.count k := by
  have hcount := h.count k.1 k.2
  rw [h.cached, show T.obj (k.1, k.2) = some n from hn] at hcount
  exact hcount

theorem walk_arrived {comps : List (Str × Bool)}
    (h : (walk (s.cached m) replies [] comps).2 = .arrived) :
    AllPass s m replies [] comps ∧
      (walk (s.cached m) replies [] comps).1 = comps.map Prod.fst := by
  obtain ⟨pre, suf, hsplit, hall, hnames, hend⟩ := walk_split s m replies [] comps
  cases hend with
  | inl harrived =>
    rw [harrived.1, List.append_nil] at hsplit
    rw [hsplit] at hnames ⊢
    exact ⟨hall, hnames⟩
  | inr hstopped =>
    obtain ⟨c, post, -, -, hend⟩ := hstopped
    rw [h, stopEnd] at hend
    split_ifs at hend

theorem newDir_of_allPass {p : Str} (hall : AllPass s m replies [] (components p))
    {pre post : List Str} (hsplit : (components p).map Prod.fst = pre ++ post) (hpre : pre ≠ [])
    (hpost : post ≠ []) (hcached : s.cached m (pathOf pre) = none) :
    (replies (pathOf pre)).type = .dir := by
  obtain ⟨pre', post', hcomps, rfl, rfl⟩ := List.map_eq_append_iff.mp hsplit
  rcases List.eq_nil_or_concat pre' with hnil | ⟨init, c, hconcat⟩
  · simp [hnil] at hpre
  · rw [List.concat_eq_append] at hconcat
    subst hconcat
    have hslash : c.2 = true := by
      apply components_slash p
      cases hp : post' with
      | nil => simp [hp] at hpost
      | cons d post'' =>
        rw [hcomps, hp, List.append_assoc, List.singleton_append, List.dropLast_append_cons,
          List.dropLast_cons_cons]
        simp
    rw [hcomps, List.append_assoc, List.singleton_append] at hall
    exact (hall.pass.honest.2 hcached).2 hslash

theorem Walked.resolved_iff {p : Str} (h : Walked s T replies m ((components p).map Prod.fst) s')
    (h₀ : Rep s T) (hall : AllPass s m replies [] (components p))
    (hn : (T.grabAll (newNode replies) (chain m ((components p).map Prod.fst))).obj
      (keyOf m ((components p).map Prod.fst)) = some n) :
    Resolved s s' m ((components p).map Prod.fst) n ↔
      EndHonest s m ((components p).map Prod.fst) .arrived := by
  have hnames : ∀ name ∈ (components p).map Prod.fst, IsName name := by
    intro name hname
    obtain ⟨c, hc, rfl⟩ := List.mem_map.mp hname
    exact components_isName p c hc
  obtain ⟨names, hnm⟩ : ∃ names, names = (components p).map Prod.fst := ⟨_, rfl⟩
  rw [← hnm] at h hn hnames ⊢
  have hkey : ∀ pre : List Str, pre ≠ [] → keyOf m pre = (m, pathOf pre) := by
    intro pre hpre
    simp [keyOf, hpre]
  constructor
  · intro hres pre post hsplit hpre hpost d hd
    have hT : T.obj (keyOf m pre) = some d := by rw [hkey pre hpre, ← h₀.cached, hd]
    have hin : T (keyOf m pre) ≠ none := RefTable.ne_none_of_obj hT
    have hobj : (T.grabAll (newNode replies) (chain m names)).obj (keyOf m pre) = some d := by
      rw [RefTable.obj_grabAll, if_neg hin, hT]
    obtain ⟨d', hd', hdir⟩ := hres.dirs pre post hsplit hpre hpost
    rw [h.rep.cached, ← hkey pre hpre, hobj] at hd'
    cases hd'
    have htype := h.type _ d hobj
    rw [if_neg hin] at htype
    rw [← htype, hdir]
  · intro hdirs
    refine ⟨?_, ?_, ?_⟩
    · rw [h.rep.cached]
      exact hn
    · have hmem : keyOf m names ∈ chain m names := by simpa using mem_chain names []
      rw [h₀.count, h.rep.refcnt hn, RefTable.count_grabAll_of_mem (chain_nodup hnames m) hmem]
      rfl
    · intro pre post hsplit hpre hpost
      have hmem : keyOf m pre ∈ chain m names := by
        rw [hsplit]
        exact mem_chain pre post
      obtain ⟨d, hd⟩ : ∃ d, (T.grabAll (newNode replies) (chain m names)).obj (keyOf m pre) =
          some d := by
        apply Option.ne_none_iff_exists'.mp
        rw [Ne, RefTable.obj_eq_none_iff]
        exact RefTable.grabAll_ne_none (Or.inr hmem)
      refine ⟨d, by rw [h.rep.cached, ← hkey pre hpre, hd], ?_⟩
      rw [h.type _ d hd]
      by_cases hnone : T (keyOf m pre) = none
      · rw [if_pos hnone, hkey pre hpre]
        apply newDir_of_allPass hall (hnm ▸ hsplit) hpre hpost
        rw [h₀.cached, ← hkey pre hpre, RefTable.obj_eq_none_iff, hnone]
      · rw [if_neg hnone]
        rw [RefTable.obj_grabAll, if_neg hnone] at hd
        exact hdirs pre post hsplit hpre hpost d (by rw [h₀.cached, ← hkey pre hpre, hd])

theorem Rep.sameCache_noNode_iff (h : Rep s T) (hnames : ∀ name ∈ names, IsName name)
    (hrootKey : T.obj (keyOf m []) = some root)
    (h' : Rep s' ((T.grabAll (newNode replies) (chain m names)).drop (keyOf m names))) :
    SameCache s s' ↔ names = [] := by
  constructor
  · intro hsame
    by_contra hne
    obtain ⟨c, hk⟩ := RefTable.exists_of_obj hrootKey
    have hkeys : keyOf m [] ≠ keyOf m names := by
      rcases List.eq_nil_or_concat names with hnil | ⟨init, name, hconcat⟩
      · exact absurd hnil hne
      · rw [List.concat_eq_append] at hconcat
        subst hconcat
        exact root_ne_next hnames
    -- the root keeps the reference that was taken to it
    have hroot : ((T.grabAll (newNode replies) (chain m names)).drop (keyOf m names)).obj
        (keyOf m []) = some root := by
      rw [RefTable.obj, RefTable.drop_of_ne hkeys]
      change (T.grabAll (newNode replies) (chain m names)).obj (keyOf m []) = some root
      rw [RefTable.obj_grabAll, if_neg (RefTable.ne_none_of_obj hrootKey), hrootKey]
    have hcount' := h'.refcnt hroot
    have hcount := h.refcnt hrootKey
    rw [RefTable.count, RefTable.drop_of_ne hkeys] at hcount'
    change _ = (T.grabAll (newNode replies) (chain m names)).count (keyOf m []) at hcount'
    rw [RefTable.count_grabAll_of_mem (chain_nodup hnames m) (mem_chain [] names)] at hcount'
    have hkept := hsame.refcnt _ root ((h.mem _ root).mpr ⟨_, c, hk, rfl⟩)
    rw [hcount', hcount] at hkept
    simp at hkept
  · intro hnil
    subst hnil
    rw [chain_nil, RefTable.grabAll, RefTable.grabAll, RefTable.drop_grab h.positive] at h'
    exact h.sameCache h'

theorem Rep.truthful_iff (h : Rep s T) (hrooted : Rooted s T) (hf : Fresh s replies)
    {path p : Str} (hfind : vfsFindroot s path = some (m, p))
    (hroot : (s.mount m).root = some root) :
    Truthful s replies path ↔
      EndHonest s m (walk (s.cached m) replies [] (components p)).1
        (walk (s.cached m) replies [] (components p)).2 := by
  have hrootKey := hrooted m (vfsFindroot_mem hfind) root hroot
  have hended := h.acquire hf hrooted hfind hroot
  have hnames : ∀ name ∈ (walk (s.cached m) replies [] (components p)).1, IsName name := by
    obtain ⟨pre, suf, hsplit, -, hnames, -⟩ := walk_split s m replies [] (components p)
    rw [hnames]
    intro name hname
    obtain ⟨c, hc, rfl⟩ := List.mem_map.mp hname
    apply components_isName p c
    rw [hsplit]
    exact List.mem_append_left _ hc
  cases hend : (walk (s.cached m) replies [] (components p)).2 with
  | arrived =>
    rw [hend] at hended
    obtain ⟨hall, heq⟩ := walk_arrived hend
    rw [heq] at hended ⊢
    obtain ⟨s', n, hs', hwalked, hn⟩ := hended
    rw [← hwalked.resolved_iff h hall hn]
    constructor
    · intro ht
      obtain ⟨s'', ret, np, hs'', hzero, -⟩ := ht
      rw [hs'] at hs''
      obtain ⟨rfl, rfl, rfl⟩ := by simpa using hs''
      obtain ⟨m', p', n', hfind', hn', hres⟩ := hzero rfl
      rw [hfind] at hfind'
      cases hfind'
      cases hn'
      exact hres
    · intro hres
      exact ⟨s', 0, some n, hs', fun _ => ⟨m, p, n, hfind, rfl, hres⟩, fun hc => absurd rfl hc⟩
  | noNode =>
    rw [hend] at hended
    obtain ⟨s', hs', hrep⟩ := hended
    change _ ↔ _ = []
    rw [← h.sameCache_noNode_iff hnames hrootKey hrep]
    constructor
    · intro ht
      obtain ⟨s'', ret, np, hs'', -, hnz⟩ := ht
      rw [hs'] at hs''
      obtain ⟨rfl, rfl, rfl⟩ := by simpa using hs''
      exact hnz (by decide)
    · intro hsame
      exact ⟨s', -1, none, hs', fun hc => absurd hc (by decide), fun _ => hsame⟩
  | refused err =>
    rw [hend] at hended
    obtain ⟨s', herr, hs', hrep⟩ := hended
    refine iff_of_true ?_ trivial
    exact ⟨s', err, none, hs', fun hc => absurd hc herr, fun _ => h.sameCache hrep⟩
  | notDir =>
    rw [hend] at hended
    obtain ⟨s', hs'⟩ := hended
    refine iff_of_false ?_ id
    intro ht
    obtain ⟨s'', ret, np, hs'', hzero, -⟩ := ht
    rw [hs'] at hs''
    obtain ⟨rfl, rfl, rfl⟩ := by simpa using hs''
    obtain ⟨-, -, n, -, hn, -⟩ := hzero rfl
    cases hn
  | tooLong =>
    rw [hend] at hended
    refine iff_of_false ?_ id
    intro ht
    obtain ⟨s'', ret, np, hs'', -⟩ := ht
    have herr : vfsNodeAcquire replies s path = .error .overrun := hended
    rw [herr] at hs''
    cases hs''

theorem Rep.acquire_ok (h : Rep s T) (hrooted : Rooted s T) (hf : Fresh s replies) {path : Str}
    (hacq : vfsNodeAcquire replies s path = .ok (s', 0, some n)) :
    ∃ m ∈ s.mntList, ∃ names, (∀ name ∈ names, IsName name) ∧ Walked s T replies m names s' ∧
      (T.grabAll (newNode replies) (chain m names)).obj (keyOf m names) = some n := by
  cases hfind : vfsFindroot s path with
  | none => simp [vfsNodeAcquire, hfind] at hacq
  | some mp =>
    obtain ⟨m, p⟩ := mp
    cases hroot : (s.mount m).root with
    | none => simp [vfsNodeAcquire, hfind, hroot] at hacq
    | some root =>
      have hended := h.acquire hf hrooted hfind hroot
      rw [hacq] at hended
      cases hend : (walk (s.cached m) replies [] (components p)).2 with
      | arrived =>
        rw [hend] at hended
        obtain ⟨-, heq⟩ := walk_arrived hend
        obtain ⟨s'', n', hs'', hwalked, hn'⟩ := hended
        obtain ⟨rfl, rfl⟩ : s' = s'' ∧ n = n' := by simpa using hs''
        refine ⟨m, vfsFindroot_mem hfind, _, ?_, hwalked, hn'⟩
        rw [heq]
        intro name hname
        obtain ⟨c, hc, rfl⟩ := List.mem_map.mp hname
        exact components_isName p c hc
      | noNode =>
        rw [hend] at hended
        obtain ⟨s'', hs'', -⟩ := hended
        simp at hs''
      | refused err =>
        rw [hend] at hended
        obtain ⟨s'', -, hs'', -⟩ := hended
        simp at hs''
      | notDir =>
        rw [hend] at hended
        obtain ⟨s'', hs''⟩ := hended
        simp at hs''
      | tooLong =>
        rw [hend] at hended
        cases hended

end Result

/-! ## A file system with one file -/

/-- A file system is mounted at `/`. -/
def rootVfs : Vfs := vfsMount Vfs.empty 1 10 ['/']

/-- The file system has only the file `/a`, and there is room for one new node. -/
def oneFile (type : NodeType) (path : Str) : FsReply :=
  if path = ['/', 'a'] then ⟨some 20, 0, 0, type⟩ else ⟨none, 0, 0, .unk⟩

theorem rootVfs_ok : rootVfs.Ok := by
  obtain ⟨hrep, hlist, hroot, -⟩ := Rep.empty.mount (m := 1) (r := 10) (fun _ => rfl)
    (fun k => by simp [RefTable.obj])
  refine ⟨_, hrep, ?_⟩
  intro m hm root hr
  rw [rootVfs, hlist] at hm
  obtain rfl : m = 1 := by simpa [Vfs.empty] using hm
  rw [rootVfs, hroot] at hr
  simpa [RefTable.obj, RefTable.grab, keyOf] using hr

theorem oneFile_fresh (type : NodeType) : Fresh rootVfs (oneFile type) := by
  have haddr : ∀ path a, (oneFile type path).addr = some a → path = ['/', 'a'] ∧ a = 20 := by
    intro path a ha
    rw [oneFile] at ha
    split_ifs at ha with hpath
    exact ⟨hpath, (Option.some.inj ha).symm⟩
  refine ⟨?_, ?_⟩
  · intro path a ha b
    rw [(haddr path a ha).2]
    have hlist : rootVfs.nodeList = Function.update (fun _ => []) (vfsNodeHash 1 rootPath) [10] :=
      rfl
    rw [hlist]
    by_cases hb : b = vfsNodeHash 1 rootPath
    · simp [hb]
    · simp [hb]
  · intro path path' a ha ha'
    rw [(haddr path a ha).1, (haddr path' a ha').1]

/-- Two outcomes that are not reported truthfully.  For `/a/b`, where `/a` is a file, the result
is zero, but there is no node.  Where `/a` is a directory and there is no new node for `/a/b`, the
root keeps a reference. -/
theorem vfsNodeAcquire_not_truthful :
    rootVfs.Ok ∧
    (Fresh rootVfs (oneFile .reg) ∧ ¬ Truthful rootVfs (oneFile .reg) ['/', 'a', '/', 'b'] ∧
      (vfsNodeAcquire (oneFile .reg) rootVfs ['/', 'a', '/', 'b']).map Prod.snd =
        .ok (0, none)) ∧
    (Fresh rootVfs (oneFile .dir) ∧ ¬ Truthful rootVfs (oneFile .dir) ['/', 'a', '/', 'b'] ∧
      (rootVfs.node 10).refcnt = 1 ∧
      (vfsNodeAcquire (oneFile .dir) rootVfs ['/', 'a', '/', 'b']).map
        (fun r => (r.2.1, (r.1.node 10).refcnt)) = .ok (-1, 2)) := by
  have hreg : (vfsNodeAcquire (oneFile .reg) rootVfs ['/', 'a', '/', 'b']).map Prod.snd =
      .ok (0, none) := by rfl
  have hdir : (vfsNodeAcquire (oneFile .dir) rootVfs ['/', 'a', '/', 'b']).map
      (fun r => (r.2.1, (r.1.node 10).refcnt)) = .ok (-1, 2) := by rfl
  refine ⟨rootVfs_ok, ⟨oneFile_fresh _, ?_, hreg⟩, oneFile_fresh _, ?_, rfl, hdir⟩
  · intro ht
    obtain ⟨s', ret, np, hs', hzero, -⟩ := ht
    rw [hs'] at hreg
    obtain ⟨rfl, rfl⟩ : ret = 0 ∧ np = none := by simpa [Except.map] using hreg
    obtain ⟨-, -, n, -, hn, -⟩ := hzero rfl
    cases hn
  · intro ht
    obtain ⟨s', ret, np, hs', -, hsame⟩ := ht
    rw [hs'] at hdir
    obtain ⟨rfl, hroot⟩ : ret = -1 ∧ (s'.node 10).refcnt = 2 := by simpa [Except.map] using hdir
    have hin : 10 ∈ rootVfs.nodeList (vfsNodeHash 1 rootPath) := by
      rw [show rootVfs.nodeList = Function.update (fun _ => []) (vfsNodeHash 1 rootPath) [10]
        from rfl]
      simp
    have hkept := (hsame (by decide)).refcnt _ 10 hin
    rw [hroot] at hkept
    exact absurd hkept (by decide)

/-- **`vfs_node_acquire` reports its outcome truthfully exactly for honest caches, file systems and
paths.** -/
theorem vfsNodeAcquire_truthful_iff (s : Vfs) (hs : s.Ok) (replies : Str → FsReply)
    (hf : Fresh s replies) (path : Str) : Truthful s replies path ↔ Honest s replies path := by
  obtain ⟨T, hrep, hrooted⟩ := hs
  cases hfind : vfsFindroot s path with
  | none =>
    refine iff_of_true ?_ ?_
    · refine ⟨s, -1, none, ?_, fun hc => absurd hc (by decide), fun _ => hrep.sameCache hrep⟩
      simp [vfsNodeAcquire, hfind]
    · intro m p root hfind'
      rw [hfind] at hfind'
      cases hfind'
  | some mp =>
    obtain ⟨m, p⟩ := mp
    cases hroot : (s.mount m).root with
    | none =>
      refine iff_of_true ?_ ?_
      · refine ⟨s, -1, none, ?_, fun hc => absurd hc (by decide), fun _ => hrep.sameCache hrep⟩
        simp [vfsNodeAcquire, hfind, hroot]
      · intro m' p' root hfind' hroot'
        rw [hfind] at hfind'
        cases hfind'
        rw [hroot] at hroot'
        cases hroot'
    | some root =>
      rw [hrep.truthful_iff hrooted hf hfind hroot, ← honestAt_iff]
      constructor
      · intro h m' p' root' hfind' hroot'
        rw [hfind] at hfind'
        cases hfind'
        exact h
      · intro h
        exact h m p root hfind hroot

/-- The theorem applies to `/a`, where the file system has this directory. -/
theorem vfsNodeAcquire_truthful_iff_oneFile :
    rootVfs.Ok ∧ Fresh rootVfs (oneFile .dir) ∧
      (Truthful rootVfs (oneFile .dir) ['/', 'a'] ↔ Honest rootVfs (oneFile .dir) ['/', 'a']) :=
  ⟨rootVfs_ok, oneFile_fresh .dir,
    vfsNodeAcquire_truthful_iff rootVfs rootVfs_ok (oneFile .dir) (oneFile_fresh .dir) ['/', 'a']⟩

end Ginkgo.Fs
