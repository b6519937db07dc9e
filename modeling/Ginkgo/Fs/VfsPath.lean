import Ginkgo.Fs.Vfs
import Mathlib.Data.List.Nodup

/-!
# Paths of nodes

The path of a node in its mount is `/` for the root, and the components with a `/` before each of
them for the other nodes.  `vfs_node_acquire` goes through the prefixes from left to right, and
`vfs_node_release` finds them from right to left by the last `/`.

## Main results

* `slashPrefixes_pathOf` — `vfs_node_release` finds the prefixes again.
* `chain_nodup` — they are different.
-/

namespace Ginkgo.Fs

/-- The path with the given components. -/
def pathOf (names : List Str) : Str := names.flatMap fun name => '/' :: name

/-- A component of a path is not empty and has no `/`. -/
def IsName (name : Str) : Prop := name ≠ [] ∧ '/' ∉ name

/-- The prefixes of a path after `node`. -/
def pathsFrom (node : Str) : List Str → List Str
  | [] => []
  | name :: names => (node ++ '/' :: name) :: pathsFrom (node ++ '/' :: name) names

/-- The keys of the root and of the prefixes of a path. -/
def chain (m : ℕ) (names : List Str) : List (ℕ × Str) :=
  (m, rootPath) :: (pathsFrom [] names).map fun path => (m, path)

/-- The key of the node with the given components. -/
def keyOf (m : ℕ) (names : List Str) : ℕ × Str :=
  (m, if names = [] then rootPath else pathOf names)

/-! ## Components -/

theorem components_isName (p : Str) : ∀ c ∈ components p, IsName c.1 := by
  induction p with
  | nil => simp [components]
  | cons c p ih =>
    rw [components.eq_def]
    dsimp only
    by_cases hc : c = '/'
    · rw [if_pos hc]
      exact ih
    · rw [if_neg hc]
      have hsingle : IsName [c] := by simp [IsName, Ne.symm hc]
      cases p with
      | nil => simpa using hsingle
      | cons d p =>
        dsimp only
        by_cases hd : d = '/'
        · rw [if_pos hd]
          intro x hx
          cases List.mem_cons.mp hx with
          | inl he =>
            rw [he]
            exact hsingle
          | inr hin => exact ih x hin
        · rw [if_neg hd]
          cases hrest : components (d :: p) with
          | nil => simpa using hsingle
          | cons e rest =>
            obtain ⟨name, slash⟩ := e
            rw [hrest] at ih
            have hname := ih (name, slash) List.mem_cons_self
            intro x hx
            cases List.mem_cons.mp hx with
            | inl he =>
              rw [he]
              exact ⟨by simp, by simp [Ne.symm hc, hname.2]⟩
            | inr hin => exact ih x (List.mem_cons_of_mem _ hin)

theorem components_slash (p : Str) : ∀ c ∈ (components p).dropLast, c.2 = true := by
  induction p with
  | nil => simp [components]
  | cons c p ih =>
    rw [components.eq_def]
    dsimp only
    by_cases hc : c = '/'
    · rw [if_pos hc]
      exact ih
    · rw [if_neg hc]
      cases p with
      | nil => simp
      | cons d p =>
        dsimp only
        by_cases hd : d = '/'
        · rw [if_pos hd]
          intro x hx
          cases hrest : components (d :: p) with
          | nil => simp [hrest] at hx
          | cons e rest =>
            rw [hrest] at hx ih
            rw [List.dropLast_cons_cons] at hx
            cases List.mem_cons.mp hx with
            | inl he => rw [he]
            | inr hin => exact ih x hin
        · rw [if_neg hd]
          cases hrest : components (d :: p) with
          | nil => simp
          | cons e rest =>
            obtain ⟨name, slash⟩ := e
            rw [hrest] at ih
            cases rest with
            | nil => simp
            | cons e' rest =>
              rw [List.dropLast_cons_cons] at ih
              dsimp only
              rw [List.dropLast_cons_cons]
              intro x hx
              cases List.mem_cons.mp hx with
              | inl he =>
                rw [he]
                exact ih (name, slash) List.mem_cons_self
              | inr hin => exact ih x (List.mem_cons_of_mem _ hin)

/-! ## Prefixes -/

theorem pathOf_append (names names' : List Str) :
    pathOf (names ++ names') = pathOf names ++ pathOf names' :=
  List.flatMap_append

theorem pathsFrom_concat (node name : Str) (names : List Str) :
    pathsFrom node (names ++ [name]) =
      pathsFrom node names ++ [node ++ pathOf (names ++ [name])] := by
  induction names generalizing node with
  | nil => simp [pathsFrom, pathOf]
  | cons name' names ih =>
    rw [List.cons_append, pathsFrom, pathsFrom, ih]
    simp [pathOf]

theorem chain_concat (m : ℕ) (names : List Str) (name : Str) :
    chain m (names ++ [name]) = chain m names ++ [keyOf m (names ++ [name])] := by
  simp [chain, keyOf, pathsFrom_concat]

theorem chain_nil (m : ℕ) : chain m [] = [keyOf m []] := by simp [chain, keyOf, pathsFrom]

variable {names : List Str}

theorem length_lt_of_mem_pathsFrom {node path : Str}
    (h : path ∈ pathsFrom node names) : node.length < path.length := by
  induction names generalizing node with
  | nil => simp [pathsFrom] at h
  | cons name names ih =>
    cases List.mem_cons.mp h with
    | inl he =>
      rw [he]
      simp
    | inr hin =>
      have hlt := ih hin
      simp only [List.length_append, List.length_cons] at hlt
      omega

theorem pathsFrom_nodup (node : Str) (names : List Str) : (pathsFrom node names).Nodup := by
  induction names generalizing node with
  | nil => simp [pathsFrom]
  | cons name names ih =>
    rw [pathsFrom, List.nodup_cons]
    refine ⟨?_, ih _⟩
    intro hin
    exact lt_irrefl _ (length_lt_of_mem_pathsFrom hin)

theorem rootPath_notMem (h : ∀ name ∈ names, IsName name) :
    rootPath ∉ pathsFrom [] names := by
  cases names with
  | nil => simp [pathsFrom]
  | cons name names =>
    have hname := (h name List.mem_cons_self).1
    have hlen : 1 ≤ name.length := List.length_pos_iff.mpr hname
    intro hin
    cases List.mem_cons.mp hin with
    | inl he =>
      have hlen' := congrArg List.length he
      simp only [rootPath, List.nil_append, List.length_cons, List.length_nil] at hlen'
      omega
    | inr hin' =>
      have hlt := length_lt_of_mem_pathsFrom hin'
      simp only [rootPath, List.nil_append, List.length_cons, List.length_nil] at hlt
      omega

theorem chain_nodup (h : ∀ name ∈ names, IsName name) (m : ℕ) :
    (chain m names).Nodup := by
  rw [chain, List.nodup_cons]
  refine ⟨?_, ?_⟩
  · intro hin
    obtain ⟨path, hpath, he⟩ := List.mem_map.mp hin
    obtain rfl := (Prod.mk.inj he).2
    exact rootPath_notMem h hpath
  · exact (pathsFrom_nodup [] names).map fun _ _ he => (Prod.mk.inj he).2

theorem mem_pathsFrom {node : Str} {pre post : List Str} (hpre : pre ≠ []) :
    node ++ pathOf pre ∈ pathsFrom node (pre ++ post) := by
  induction pre generalizing node with
  | nil => exact absurd rfl hpre
  | cons name pre ih =>
    rw [List.cons_append, pathsFrom]
    by_cases hnil : pre = []
    · simp [hnil, pathOf]
    · have hin := @ih (node ++ '/' :: name) hnil
      apply List.mem_cons_of_mem
      simpa [pathOf] using hin

theorem mem_chain {m : ℕ} (pre post : List Str) : keyOf m pre ∈ chain m (pre ++ post) := by
  rw [chain]
  by_cases hpre : pre = []
  · simp [keyOf, hpre]
  · have hin := @mem_pathsFrom [] pre post hpre
    rw [List.nil_append] at hin
    simp only [keyOf, if_neg hpre]
    exact List.mem_cons_of_mem _ (List.mem_map_of_mem hin)

/-! ## Prefixes as strings -/

theorem name_prefix {a b p q : Str} (ha : '/' ∉ a) (hb : '/' ∉ b)
    (h : a ++ '/' :: p <+: b ++ '/' :: q) : a = b ∧ '/' :: p <+: '/' :: q := by
  induction a generalizing b with
  | nil =>
    cases b with
    | nil => exact ⟨rfl, h⟩
    | cons d b =>
      have hd := (List.cons_prefix_cons.mp h).1
      simp [← hd] at hb
  | cons c a ih =>
    rw [List.mem_cons, not_or] at ha
    cases b with
    | nil =>
      have hc := (List.cons_prefix_cons.mp h).1
      exact absurd hc.symm ha.1
    | cons d b =>
      rw [List.mem_cons, not_or] at hb
      obtain ⟨hcd, hrest⟩ := List.cons_prefix_cons.mp h
      obtain ⟨hab, hpq⟩ := ih ha.2 hb.2 hrest
      exact ⟨by rw [hcd, hab], hpq⟩

theorem pathOf_slash (names : List Str) : ∃ p, pathOf names ++ ['/'] = '/' :: p := by
  cases names with
  | nil => exact ⟨[], rfl⟩
  | cons name names => exact ⟨name ++ pathOf names ++ ['/'], by simp [pathOf]⟩

variable {names names' : List Str}

section

variable (h : ∀ name ∈ names, IsName name)

include h

theorem pathOf_prefix_iff (h' : ∀ name ∈ names', IsName name) :
    pathOf names ++ ['/'] <+: pathOf names' ++ ['/'] ↔ names <+: names' := by
  constructor
  · intro hpre
    induction names generalizing names' with
    | nil => exact List.nil_prefix
    | cons a names ih =>
      have ha := h a List.mem_cons_self
      cases names' with
      | nil =>
        have hlen := hpre.length_le
        simp [pathOf] at hlen
      | cons b names' =>
        have hb := h' b List.mem_cons_self
        obtain ⟨p, hp⟩ := pathOf_slash names
        obtain ⟨q, hq⟩ := pathOf_slash names'
        have hcons : ∀ (c : Str) (cs : List Str),
            pathOf (c :: cs) ++ ['/'] = '/' :: (c ++ (pathOf cs ++ ['/'])) := by
          intro c cs
          simp [pathOf]
        rw [hcons, hcons, hp, hq, List.cons_prefix_cons] at hpre
        obtain ⟨rfl, hrest⟩ := name_prefix ha.2 hb.2 hpre.2
        rw [← hp, ← hq] at hrest
        rw [List.cons_prefix_cons]
        exact ⟨rfl, ih (fun name hn => h name (List.mem_cons_of_mem _ hn))
          (fun name hn => h' name (List.mem_cons_of_mem _ hn)) hrest⟩
  · intro hpre
    obtain ⟨more, rfl⟩ := hpre
    rw [pathOf_append, List.append_assoc, List.prefix_append_right_inj]
    obtain ⟨p, hp⟩ := pathOf_slash more
    rw [hp, List.cons_prefix_cons]
    exact ⟨rfl, List.nil_prefix⟩

theorem pathOf_inj (h' : ∀ name ∈ names', IsName name) (he : pathOf names = pathOf names') :
    names = names' := by
  have hle := (pathOf_prefix_iff h h').mp (he ▸ List.prefix_rfl)
  have hge := (pathOf_prefix_iff h' h).mp (he ▸ List.prefix_rfl)
  exact hle.eq_of_length_le hge.length_le

theorem not_prefix_rootPath (hne : names ≠ []) : ¬ pathOf names ++ ['/'] <+: rootPath ++ ['/'] := by
  cases names with
  | nil => exact absurd rfl hne
  | cons name names =>
    obtain ⟨hname, hslash⟩ := h name List.mem_cons_self
    intro hpre
    cases name with
    | nil => exact hname rfl
    | cons c name =>
      simp only [pathOf, rootPath, List.flatMap_cons, List.cons_append, List.nil_append,
        List.cons_prefix_cons] at hpre
      simp [hpre.2.1] at hslash

theorem pathOf_ne_rootPath (hne : names ≠ []) : pathOf names ≠ rootPath := by
  intro he
  exact not_prefix_rootPath h hne (he ▸ List.prefix_rfl)

theorem keyOf_inj {m m' : ℕ} (h' : ∀ name ∈ names', IsName name)
    (he : keyOf m names = keyOf m' names') :
    m = m' ∧ names = names' := by
  obtain ⟨hm, hp⟩ := Prod.mk.inj he
  refine ⟨hm, ?_⟩
  by_cases hn : names = []
  · by_cases hn' : names' = []
    · rw [hn, hn']
    · rw [if_pos hn, if_neg hn'] at hp
      exact absurd hp.symm (pathOf_ne_rootPath h' hn')
  · by_cases hn' : names' = []
    · rw [if_neg hn, if_pos hn'] at hp
      exact absurd hp (pathOf_ne_rootPath h hn)
    · rw [if_neg hn, if_neg hn'] at hp
      exact pathOf_inj h h' hp

end

theorem exists_of_mem_pathsFrom {node path : Str}
    (h : path ∈ pathsFrom node names) :
    ∃ pre post, names = pre ++ post ∧ pre ≠ [] ∧ path = node ++ pathOf pre := by
  induction names generalizing node with
  | nil => simp [pathsFrom] at h
  | cons name names ih =>
    cases List.mem_cons.mp h with
    | inl he => exact ⟨[name], names, rfl, by simp, by simp [he, pathOf]⟩
    | inr hin =>
      obtain ⟨pre, post, rfl, -, rfl⟩ := ih hin
      exact ⟨name :: pre, post, rfl, by simp, by simp [pathOf]⟩

theorem exists_of_mem_chain {m : ℕ} {k : ℕ × Str} (h : k ∈ chain m names) :
    ∃ pre, pre <+: names ∧ k = keyOf m pre := by
  cases List.mem_cons.mp h with
  | inl he => exact ⟨[], List.nil_prefix, by simp [he, keyOf]⟩
  | inr hin =>
    obtain ⟨path, hpath, rfl⟩ := List.mem_map.mp hin
    obtain ⟨pre, post, rfl, hpre, rfl⟩ := exists_of_mem_pathsFrom hpath
    exact ⟨pre, List.prefix_append pre post, by simp [keyOf, hpre]⟩

theorem keyOf_mem_chain_iff {m m' : ℕ}
    (h : ∀ name ∈ names, IsName name) (h' : ∀ name ∈ names', IsName name) :
    keyOf m' names' ∈ chain m names ↔ m' = m ∧ names' <+: names := by
  constructor
  · intro hin
    obtain ⟨pre, hpre, hk⟩ := exists_of_mem_chain hin
    obtain ⟨rfl, rfl⟩ := keyOf_inj h' (fun name hn => h name (hpre.subset hn)) hk
    exact ⟨rfl, hpre⟩
  · intro hand
    obtain ⟨rfl, post, rfl⟩ := hand
    exact mem_chain names' post

/-! ## Finding the prefixes again -/

theorem slashPrefixes_name {name : Str} (h : '/' ∉ name) (pre rest : Str) :
    slashPrefixes pre (name ++ rest) = slashPrefixes (pre ++ name) rest := by
  induction name generalizing pre with
  | nil => simp
  | cons c name ih =>
    rw [List.mem_cons, not_or] at h
    rw [List.cons_append, slashPrefixes, if_neg (fun hc => h.1 hc.1.symm), ih h.2]
    simp

theorem slashPrefixes_after {name pre : Str}
    (h : ∀ name' ∈ names ++ [name], IsName name') (hpre : pre ≠ []) :
    slashPrefixes pre (pathOf (names ++ [name])) = pre :: pathsFrom pre names := by
  induction names generalizing pre with
  | nil =>
    have hname := (h name (by simp)).2
    have hskip := slashPrefixes_name hname (pre ++ ['/']) []
    rw [List.append_nil] at hskip
    simp [pathOf, slashPrefixes, pathsFrom, hpre, hskip]
  | cons name' names ih =>
    have hname := (h name' (by simp)).2
    have hrest := @ih (pre ++ '/' :: name') (fun x hx => h x (List.mem_cons_of_mem _ hx))
      (by simp)
    have hpath :
        pathOf (name' :: names ++ [name]) = '/' :: (name' ++ pathOf (names ++ [name])) := by
      simp [pathOf]
    rw [hpath, slashPrefixes, if_pos ⟨rfl, hpre⟩, slashPrefixes_name hname, pathsFrom,
      List.append_assoc, List.singleton_append, hrest]

/-- `vfs_node_release` finds the prefixes of a path that are shorter than the path. -/
theorem slashPrefixes_pathOf {name : Str}
    (h : ∀ name' ∈ names ++ [name], IsName name') :
    slashPrefixes [] (pathOf (names ++ [name])) = pathsFrom [] names := by
  cases names with
  | nil =>
    have hname := (h name (by simp)).2
    have hskip := slashPrefixes_name hname ['/'] []
    rw [List.append_nil] at hskip
    simp [pathOf, slashPrefixes, pathsFrom, hskip]
  | cons name' names =>
    have hname := (h name' (by simp)).2
    have hpath :
        pathOf (name' :: names ++ [name]) = '/' :: (name' ++ pathOf (names ++ [name])) := by
      simp [pathOf]
    rw [hpath, slashPrefixes, if_neg (by simp), slashPrefixes_name hname, pathsFrom]
    exact slashPrefixes_after (fun x hx => h x (List.mem_cons_of_mem _ hx)) (by simp)

end Ginkgo.Fs
