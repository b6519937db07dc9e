import Mathlib.Data.List.Nodup
import Ginkgo.Fs.Vfs

/-!
# The mount of a path

What `vfs_findroot` finds.  A mount contains a path if the components of its directory are the
first components of the path, so that `/a` contains `/a/b`, but not `/ab`.  The components are the
parts between the slashes; between repeated slashes there is an empty one.

## Main results

* `countMatch_eq` — `count_match` returns the length of a directory that contains the
  path, and `0` for any other one.
* `vfsFindroot_longest` — the mount that is found is the one with the longest path.
-/

namespace Ginkgo.Fs

/-- The components of an absolute path. -/
def parts : Str → Option (List Str)
  | '/' :: p => some (p.splitOn '/')
  | _ => none

/-- The components of a directory; the root has none. -/
def dirParts (dir : Str) : Option (List Str) := if dir = rootPath then some [] else parts dir

/-- The components of the directory are the first components of the path. -/
def IsDirPrefix (dir path : Str) : Prop :=
  ∃ names names', dirParts dir = some names ∧ parts path = some names' ∧ names <+: names'

/-! ## Components -/

section Components

variable {dir path : Str}

theorem intercalate_append {l l' : List Str} (hl : l ≠ []) (hl' : l' ≠ []) :
    List.intercalate ['/'] (l ++ l') =
      List.intercalate ['/'] l ++ '/' :: List.intercalate ['/'] l' := by
  induction l with
  | nil => exact absurd rfl hl
  | cons a l ih =>
    rw [List.cons_append, List.intercalate_cons_of_ne_nil (List.append_ne_nil_of_right_ne_nil l hl')]
    by_cases hnil : l = []
    · rw [hnil, List.nil_append, List.intercalate_singleton, List.append_assoc]
      rfl
    · rw [ih hnil, List.intercalate_cons_of_ne_nil hnil, List.append_assoc, List.append_assoc,
        List.append_assoc]

theorem splitOn_prefix_iff {p q : Str} : q.splitOn '/' <+: p.splitOn '/' ↔
    ∃ rest, p = q ++ rest ∧ (rest = [] ∨ rest.head? = some '/') := by
  constructor
  · rintro ⟨l, hl⟩
    have hp : List.intercalate ['/'] (p.splitOn '/') = p := List.intercalate_splitOn '/'
    have hq : List.intercalate ['/'] (q.splitOn '/') = q := List.intercalate_splitOn '/'
    by_cases hnil : l = []
    · rw [hnil, List.append_nil] at hl
      refine ⟨[], ?_, .inl rfl⟩
      rw [List.append_nil, ← hp, ← hl, hq]
    · refine ⟨'/' :: List.intercalate ['/'] l, ?_, .inr rfl⟩
      rw [← hp, ← hl, intercalate_append (List.splitOn_ne_nil '/' q) hnil, hq]
  · rintro ⟨rest, rfl, rfl | hrest⟩
    · simp only [List.append_nil, List.prefix_rfl]
    · obtain ⟨rest', rfl⟩ : ∃ rest', rest = '/' :: rest' := by
        cases rest with
        | nil => simp at hrest
        | cons c rest' => exact ⟨rest', by rw [Option.some.inj hrest]⟩
      rw [List.splitOn_append_cons_self]
      exact List.prefix_append _ _

theorem parts_eq_some_iff {names : List Str} :
    parts path = some names ↔ ∃ p, path = '/' :: p ∧ names = p.splitOn '/' := by
  unfold parts
  split
  · rename_i p
    constructor
    · intro h
      exact ⟨p, rfl, (Option.some.inj h).symm⟩
    · rintro ⟨p', hp, rfl⟩
      rw [(List.cons.inj hp).2]
  · rename_i hne
    refine iff_of_false (by simp) ?_
    rintro ⟨p, hp, -⟩
    exact hne p hp

theorem isDirPrefix_root : IsDirPrefix rootPath path ↔ path.head? = some '/' := by
  unfold IsDirPrefix
  rw [dirParts, if_pos rfl]
  constructor
  · rintro ⟨_, _, _, hparts, -⟩
    obtain ⟨p, rfl, -⟩ := parts_eq_some_iff.mp hparts
    rfl
  · intro hhead
    cases path with
    | nil => simp at hhead
    | cons c p =>
      obtain rfl : c = '/' := Option.some.inj hhead
      exact ⟨[], _, rfl, rfl, List.nil_prefix⟩

theorem isDirPrefix_iff (hdir : dir.head? = some '/') (hroot : dir ≠ rootPath) :
    IsDirPrefix dir path ↔ ∃ rest, path = dir ++ rest ∧ (rest = [] ∨ rest.head? = some '/') := by
  obtain ⟨q, rfl⟩ : ∃ q, dir = '/' :: q := by
    cases dir with
    | nil => simp at hdir
    | cons c q => exact ⟨q, by rw [Option.some.inj hdir]⟩
  have hdirParts : dirParts ('/' :: q) = some (q.splitOn '/') := if_neg hroot
  unfold IsDirPrefix
  rw [hdirParts]
  constructor
  · rintro ⟨_, _, hnames, hparts, hpre⟩
    obtain ⟨p, rfl, rfl⟩ := parts_eq_some_iff.mp hparts
    cases hnames
    obtain ⟨rest, rfl, hrest⟩ := splitOn_prefix_iff.mp hpre
    exact ⟨rest, rfl, hrest⟩
  · rintro ⟨rest, rfl, hrest⟩
    exact ⟨_, _, rfl, rfl, splitOn_prefix_iff.mpr ⟨rest, rfl, hrest⟩⟩

theorem IsDirPrefix.isPrefix (hdir : dir.head? = some '/') (h : IsDirPrefix dir path) :
    dir <+: path := by
  by_cases hroot : dir = rootPath
  · rw [hroot] at h ⊢
    have hhead := isDirPrefix_root.mp h
    cases path with
    | nil => simp at hhead
    | cons c p =>
      rw [Option.some.inj hhead]
      exact List.prefix_append ['/'] p
  · obtain ⟨rest, rfl, -⟩ := (isDirPrefix_iff hdir hroot).mp h
    exact List.prefix_append dir rest

end Components

/-! ## Comparing a path with a mount -/

section Match

variable {dir path rest : Str}

theorem countMatchLoop_append (dir rest : Str) (len : ℕ) :
    countMatchLoop (dir ++ rest) dir len = (len + dir.length, rest, []) := by
  induction dir generalizing len with
  | nil => cases rest <;> rfl
  | cons c dir ih =>
    rw [List.cons_append, countMatchLoop, if_neg (not_not.mpr rfl), ih, List.length_cons,
      Nat.add_right_comm, Nat.add_assoc]

theorem countMatchLoop_ne_nil (h : ¬ dir <+: path) (len : ℕ) :
    (countMatchLoop path dir len).2.2 ≠ [] := by
  induction path generalizing dir len with
  | nil =>
    cases dir with
    | nil => exact absurd List.nil_prefix h
    | cons d dir => simp [countMatchLoop]
  | cons c path ih =>
    cases dir with
    | nil => exact absurd List.nil_prefix h
    | cons d dir =>
      rw [countMatchLoop]
      by_cases hcd : c = d
      · rw [if_neg (not_not.mpr hcd)]
        refine ih (fun hpre => h ?_) (len + 1)
        rw [hcd]
        exact List.cons_prefix_cons.mpr ⟨rfl, hpre⟩
      · rw [if_pos hcd]
        simp

/-- **What `count_match` returns**: the length of a directory that contains the path, and `0` for
any other one. -/
theorem countMatch_eq (hdir : dir.head? = some '/') :
    (IsDirPrefix dir path → countMatch path dir = dir.length) ∧
      (¬ IsDirPrefix dir path → countMatch path dir = 0) := by
  by_cases hpre : dir <+: path
  · obtain ⟨rest, rfl⟩ := hpre
    have hhead : (dir ++ rest).head? = some '/' := by
      rw [List.head?_append, hdir]
      rfl
    unfold countMatch
    rw [countMatchLoop_append, Nat.zero_add]
    dsimp only
    rw [if_neg (not_not.mpr rfl)]
    by_cases hroot : dir = rootPath
    · rw [if_pos ⟨by rw [hroot]; rfl, hhead⟩, hroot]
      refine ⟨fun _ => rfl, fun hno => absurd (isDirPrefix_root.mpr ?_) hno⟩
      rwa [hroot] at hhead
    · have hlen : dir.length ≠ 1 := by
        intro hlen
        obtain ⟨c, rfl⟩ := List.length_eq_one_iff.mp hlen
        exact hroot (by rw [Option.some.inj hdir]; rfl)
      rw [if_neg (fun hone => hlen hone.1)]
      have hiff : IsDirPrefix dir (dir ++ rest) ↔ rest = [] ∨ rest.head? = some '/' := by
        rw [isDirPrefix_iff hdir hroot]
        simp only [List.append_cancel_left_eq, exists_eq_left']
      rw [hiff]
      exact ⟨fun hrest => if_pos hrest, fun hrest => if_neg hrest⟩
  · refine ⟨fun h => absurd (h.isPrefix hdir) hpre, fun _ => ?_⟩
    exact if_pos (countMatchLoop_ne_nil hpre 0)

end Match

/-! ## The longest match -/

section Longest

theorem vfsFindrootLoop_cases (s : Vfs) (path : Str) (mounts : List ℕ) (maxLen : ℕ)
    (cur : Option ℕ) :
    (vfsFindrootLoop s path mounts maxLen cur = (maxLen, cur) ∧
      ∀ m ∈ mounts, countMatch path (s.mount m).path ≤ maxLen) ∨
    ∃ m ∈ mounts, vfsFindrootLoop s path mounts maxLen cur =
        (countMatch path (s.mount m).path, some m) ∧
      maxLen < countMatch path (s.mount m).path ∧
      ∀ m' ∈ mounts, countMatch path (s.mount m').path ≤ countMatch path (s.mount m).path := by
  induction mounts generalizing maxLen cur with
  | nil => exact .inl ⟨rfl, by simp⟩
  | cons pos mounts ih =>
    rw [vfsFindrootLoop]
    by_cases hlt : maxLen < countMatch path (s.mount pos).path
    · rw [if_pos hlt]
      rcases ih (countMatch path (s.mount pos).path) (some pos) with
        ⟨heq, hle⟩ | ⟨m, hm, heq, hmax, hle⟩
      · refine .inr ⟨pos, List.mem_cons_self, heq, hlt, fun m' hm' => ?_⟩
        rcases List.mem_cons.mp hm' with rfl | hm'
        · exact le_rfl
        · exact hle m' hm'
      · refine .inr ⟨m, List.mem_cons_of_mem _ hm, heq, hlt.trans hmax, fun m' hm' => ?_⟩
        rcases List.mem_cons.mp hm' with rfl | hm'
        · exact hmax.le
        · exact hle m' hm'
    · rw [if_neg hlt]
      rcases ih maxLen cur with ⟨heq, hle⟩ | ⟨m, hm, heq, hmax, hle⟩
      · refine .inl ⟨heq, fun m' hm' => ?_⟩
        rcases List.mem_cons.mp hm' with rfl | hm'
        · exact Nat.le_of_not_lt hlt
        · exact hle m' hm'
      · refine .inr ⟨m, List.mem_cons_of_mem _ hm, heq, hmax, fun m' hm' => ?_⟩
        rcases List.mem_cons.mp hm' with rfl | hm'
        · exact (Nat.le_of_not_lt hlt).trans hmax.le
        · exact hle m' hm'

theorem vfsFindroot_cases (s : Vfs) (path : Str) :
    (vfsFindroot s path = none ∧ ∀ m ∈ s.mntList, countMatch path (s.mount m).path = 0) ∨
    ∃ m ∈ s.mntList, vfsFindroot s path =
        some (m, (path.drop (countMatch path (s.mount m).path)).dropWhile (· = '/')) ∧
      0 < countMatch path (s.mount m).path ∧
      ∀ m' ∈ s.mntList, countMatch path (s.mount m').path ≤ countMatch path (s.mount m).path := by
  unfold vfsFindroot
  rcases vfsFindrootLoop_cases s path s.mntList 0 none with
    ⟨heq, hle⟩ | ⟨m, hm, heq, hpos, hle⟩
  · rw [heq]
    exact .inl ⟨rfl, fun m hm => Nat.le_zero.mp (hle m hm)⟩
  · rw [heq]
    exact .inr ⟨m, hm, rfl, hpos, hle⟩

/-- **The mount of a path** is the one with the longest path among those that contain it, and what
remains is the path behind it without its leading slashes.  Nothing is found exactly if no mount
contains the path. -/
theorem vfsFindroot_longest (s : Vfs) (path : Str)
    (hdistinct : (s.mntList.map fun m => (s.mount m).path).Nodup)
    (habsolute : ∀ m ∈ s.mntList, (s.mount m).path.head? = some '/') :
    (vfsFindroot s path = none ↔ ∀ m ∈ s.mntList, ¬ IsDirPrefix (s.mount m).path path) ∧
    ∀ m p, vfsFindroot s path = some (m, p) ↔
      (m ∈ s.mntList ∧ IsDirPrefix (s.mount m).path path ∧
        ∀ m' ∈ s.mntList, m' ≠ m → IsDirPrefix (s.mount m').path path →
          (s.mount m').path.length < (s.mount m).path.length) ∧
      p = (path.drop (s.mount m).path.length).dropWhile (· = '/') := by
  have hlen : ∀ m ∈ s.mntList, IsDirPrefix (s.mount m).path path →
      countMatch path (s.mount m).path = (s.mount m).path.length :=
    fun m hm => (countMatch_eq (habsolute m hm)).1
  have hpos : ∀ m ∈ s.mntList, 0 < countMatch path (s.mount m).path ↔
      IsDirPrefix (s.mount m).path path := by
    intro m hm
    by_cases hin : IsDirPrefix (s.mount m).path path
    · refine iff_of_true ?_ hin
      rw [hlen m hm hin]
      apply List.length_pos_of_ne_nil
      intro hnil
      have hhead := habsolute m hm
      rw [hnil] at hhead
      cases hhead
    · refine iff_of_false ?_ hin
      rw [(countMatch_eq (habsolute m hm)).2 hin]
      exact lt_irrefl 0
  -- Two mounts of the same length that contain the path are the same beginning of it.
  have hshorter : ∀ m ∈ s.mntList, ∀ m' ∈ s.mntList, m' ≠ m →
      IsDirPrefix (s.mount m).path path → IsDirPrefix (s.mount m').path path →
      (s.mount m').path.length ≤ (s.mount m).path.length →
      (s.mount m').path.length < (s.mount m).path.length := by
    intro m hm m' hm' hne hin hin' hle
    refine lt_of_le_of_ne hle fun heq => hne ?_
    have hpre := hin.isPrefix (habsolute m hm)
    have hpre' := hin'.isPrefix (habsolute m' hm')
    have hsame : (s.mount m').path = (s.mount m).path :=
      (List.prefix_of_prefix_length_le hpre' hpre hle).eq_of_length heq
    exact List.inj_on_of_nodup_map hdistinct hm' hm hsame
  rcases vfsFindroot_cases s path with ⟨hfind, hzero⟩ | ⟨m, hm, hfind, hmpos, hmax⟩
  · have hnone : ∀ m ∈ s.mntList, ¬ IsDirPrefix (s.mount m).path path := by
      intro m hm hin
      exact absurd (hzero m hm) ((hpos m hm).mpr hin).ne'
    rw [hfind]
    refine ⟨iff_of_true rfl hnone, fun m p => iff_of_false (by simp) ?_⟩
    rintro ⟨⟨hm, hin, -⟩, -⟩
    exact hnone m hm hin
  · have hin := (hpos m hm).mp hmpos
    have hlongest : ∀ m' ∈ s.mntList, m' ≠ m → IsDirPrefix (s.mount m').path path →
        (s.mount m').path.length < (s.mount m).path.length := by
      intro m' hm' hne hin'
      refine hshorter m hm m' hm' hne hin hin' ?_
      rw [← hlen m hm hin, ← hlen m' hm' hin']
      exact hmax m' hm'
    rw [hfind, hlen m hm hin]
    refine ⟨iff_of_false (by simp) fun hno => hno m hm hin, fun m' p => ?_⟩
    constructor
    · intro heq
      cases heq
      exact ⟨⟨hm, hin, hlongest⟩, rfl⟩
    · rintro ⟨⟨hm', hin', hlongest'⟩, rfl⟩
      have heq : m' = m := by
        by_contra hne
        exact lt_asymm (hlongest m' hm' hne hin') (hlongest' m hm (Ne.symm hne) hin)
      rw [heq]

/-- File systems at `/` and at `/a`. -/
def nestedMounts : Vfs :=
  { Vfs.empty with
    mntList := [1, 2]
    mount := fun m => ⟨if m = 1 then rootPath else ['/', 'a'], 1, none⟩ }

/-- The theorem applies to a path with a repeated slash in the second of them. -/
theorem vfsFindroot_longest_nested :
    vfsFindroot nestedMounts ['/', 'a', '/', '/', 'b'] = some (2, ['b']) := by
  refine ((vfsFindroot_longest nestedMounts _ (by decide) (by decide)).2 2 ['b']).mpr ?_
  refine ⟨⟨by decide, ?_, ?_⟩, by decide⟩
  · exact (isDirPrefix_iff (by decide) (by decide)).mpr ⟨['/', '/', 'b'], rfl, .inr rfl⟩
  · intro m' hm' hne _
    have hone : m' = 1 := by simpa [nestedMounts, hne] using hm'
    rw [hone]
    decide

end Longest

end Ginkgo.Fs
