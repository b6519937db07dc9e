import Ginkgo.Lib.Hoare
import Ginkgo.Fs.VfsRoot
import Ginkgo.Fs.VfsOpen
import Ginkgo.Fs.VfsWalk

/-!
# The buffer for the path

`vfs_node_acquire` copies the components of a path to a buffer of `VFS_MAX_PATH` characters, and
does not check their length.  A path is too long if it does not fit into such a buffer, as
`vfs_lookup_dir` has it.

## Main results

* `staysInBuffer_iff` — that is so exactly for paths that are not too long, and for
  relative ones.
-/

namespace Ginkgo.Fs

open Layout Hoare

/-! ## Calls with a path -/

/-- A call with a path. -/
inductive PathCall
  | open (flags mode : UInt32)
  | stat (rec : Option (Bytes statSize))
  | access (mode : UInt32)
  | mkdir (mode : UInt32)
  | rmdir
  | unlink
  /-- `vfs_rename(path, dst)`. -/
  | renameFrom (dst : Str)
  /-- `vfs_rename(src, path)`. -/
  | renameTo (src : Str)
  | opendir

namespace PathCall

variable {δ : Type}

/-- Make a call. -/
def run (fs : FileSystem δ) (path : Str) : PathCall → ServerM δ Int32
  | .open flags mode => vfsOpen fs (some path) flags mode
  | .stat rec => return (← vfsStat fs (some path) rec).1
  | .access mode => vfsAccess fs (some path) mode
  | .mkdir mode => vfsMkdir fs (some path) mode
  | .rmdir => vfsRmdir fs (some path)
  | .unlink => vfsUnlink fs (some path)
  | .renameFrom dst => vfsRename fs path dst
  | .renameTo src => vfsRename fs src path
  | .opendir => vfsOpendir fs (some path)

/-- The other path of `vfs_rename` is not too long. -/
def OtherShort : PathCall → Prop
  | .renameFrom dst => dst.length < vfsMaxPath
  | .renameTo src => src.length < vfsMaxPath
  | _ => True

/-- The call returns an error.  If it begins with the source of `vfs_rename`, then it may also stop
there. -/
def Fails (r : Except Fault (Int32 × Server δ)) : PathCall → Prop
  | .renameTo _ => ∀ ret st, r = .ok (ret, st) → ret ≠ 0
  | _ => ∃ ret st, r = .ok (ret, st) ∧ ret < 0

end PathCall

/-- The computation does not overrun the buffer. -/
abbrev InBounds {δ α : Type} (m : ServerM δ α) : Prop := Keeps (fun _ => True) (· ≠ .overrun) m

/-- The functions of a file system do not touch the buffer. -/
structure FileSystem.Apart {δ : Type} (fs : FileSystem δ) : Prop where
  truncate : ∀ n len, InBounds (fs.truncate n len)
  sync : ∀ n, InBounds (fs.sync n)
  readdir : ∀ n off, InBounds (fs.readdir n off)
  create : ∀ n name mode, InBounds (fs.create n name mode)
  remove : ∀ d n name, InBounds (fs.remove d n name)
  rename : ∀ s name n d name', InBounds (fs.rename s name n d name')
  mkdir : ∀ n name mode, InBounds (fs.mkdir n name mode)
  rmdir : ∀ d n name, InBounds (fs.rmdir d n name)

/-- The mounts are at absolute paths. -/
def Server.Absolute {δ : Type} (st : Server δ) : Prop :=
  ∀ m ∈ st.vfs.mntList, (st.vfs.mount m).path.head? = some '/'

/-- **The calls with a path stay in the buffer**, and fail if the path is too long. -/
def StaysInBuffer (path : Str) : Prop :=
  ∀ (δ : Type) (fs : FileSystem δ) (st : Server δ) (c : PathCall), fs.Apart → st.Absolute →
    c.OtherShort → (c.run fs path).run st ≠ .error .overrun ∧
      (vfsMaxPath ≤ path.length → c.Fails ((c.run fs path).run st))

/-! ## What is written to the buffer -/

/-- The characters of the components, with a `/` before each of them. -/
def pathLength (names : List (Str × Bool)) : ℕ := (names.map fun c => c.1.length + 1).sum

@[simp] theorem pathLength_nil : pathLength [] = 0 := rfl

@[simp] theorem pathLength_cons (c : Str × Bool) (names : List (Str × Bool)) :
    pathLength (c :: names) = c.1.length + 1 + pathLength names := rfl

theorem pathLength_components (p : Str) :
    pathLength (components p) ≤ p.length + if p.head? = some '/' then 0 else 1 := by
  fun_induction components p with
  | case1 => simp
  | case2 p ih =>
    simp only [List.length_cons, List.head?_cons, if_true]
    split_ifs at ih <;> omega
  | case3 c hc => simp [hc]
  | case4 c hc p ih =>
    simp [hc] at ih ⊢
    omega
  | case5 c hc d p hd name slash rest heq ih =>
    rw [heq] at ih ⊢
    simp [hc, hd] at ih ⊢
    omega
  | case6 c hc d p hd heq ih =>
    rw [heq]
    simp [hc]
theorem pathLength_le_of_findroot {s : Vfs} {path p : Str} {m : ℕ}
    (h : vfsFindroot s path = some (m, p)) : pathLength (components p) ≤ path.length := by
  rcases vfsFindroot_cases s path with ⟨hnone, -⟩ | ⟨m', -, heq, hpos, -⟩
  · rw [hnone] at h
    cases h
  · rw [heq] at h
    obtain ⟨rfl, rfl⟩ := Prod.mk.inj (Option.some.inj h)
    have hne : path ≠ [] := by
      rintro rfl
      cases hdir : (s.mount m').path <;> simp [countMatch, countMatchLoop, hdir] at hpos
    have hlen := List.length_pos_of_ne_nil hne
    have hrest := ((List.dropWhile_suffix (l := path.drop (countMatch path (s.mount m').path))
      (· = '/')).length_le)
    have hparts := pathLength_components
      ((path.drop (countMatch path (s.mount m').path)).dropWhile (· = '/'))
    rw [List.length_drop] at hrest
    split_ifs at hparts <;> omega

theorem vfsNodeRelease_ne_overrun (s : Vfs) (n : ℕ) : vfsNodeRelease s n ≠ .error .overrun := by
  unfold vfsNodeRelease
  dsimp only
  split_ifs
  · simp
  · simp
  · split <;> simp

theorem acquireLoop_ne_overrun {replies : Str → FsReply} {m dn : ℕ} {s : Vfs} {node : Str}
    {names : List (Str × Bool)} (h : node.length + pathLength names < vfsMaxPath) :
    vfsNodeAcquireLoop replies m s dn node names ≠ .error .overrun := by
  induction names generalizing s dn node with
  | nil => simp [vfsNodeAcquireLoop]
  | cons c rest ih =>
    obtain ⟨name, slash⟩ := c
    simp only [pathLength_cons] at h
    have hnode : (node ++ '/' :: name).length + pathLength rest < vfsMaxPath := by
      rw [List.length_append, List.length_cons]
      omega
    unfold vfsNodeAcquireLoop
    dsimp only
    rw [if_neg (by omega)]
    split
    · exact ih hnode
    · split
      · simp
      · split_ifs
        · intro hrun
          rcases Fallible.bind_eq_error.mp hrun with hrel | ⟨s', -, hret⟩
          · exact vfsNodeRelease_ne_overrun _ _ hrel
          · cases hret
        · exact ih hnode

theorem vfsNodeAcquire_ne_overrun {replies : Str → FsReply} {s : Vfs} {path : Str}
    (h : path.length < vfsMaxPath) : vfsNodeAcquire replies s path ≠ .error .overrun := by
  unfold vfsNodeAcquire
  split
  · simp
  next m p hfind =>
    split
    · simp
    · exact acquireLoop_ne_overrun ((Nat.zero_add _).trans_lt
        ((pathLength_le_of_findroot hfind).trans_lt h))

theorem length_le_of_splitLast {path dir name : Str} (h : splitLast path = some (dir, name)) :
    dir.length ≤ path.length := by
  unfold splitLast at h
  dsimp only at h
  split_ifs at h
  rw [← (Prod.mk.inj (Option.some.inj h)).1]
  exact List.length_take_le' _ _

/-! ## Short paths -/

section Short

variable {δ : Type} {fs : FileSystem δ} {path : Str}

section Mounts

variable {P : Server δ → Prop}
  (hP : ∀ st st', Frame (fun _ => False) st.vfs st'.vfs → P st → P st')

include hP

theorem release_keeps (n : ℕ) : Keeps P (· ≠ .overrun) (release n : ServerM δ Unit) := by
  intro st hst
  rw [release_run]
  cases hrel : vfsNodeRelease st.vfs n with
  | error e => exact fun he => vfsNodeRelease_ne_overrun _ _ (hrel.trans (congrArg _ he))
  | ok s => exact hP st _ ((Frame.release hrel).mono fun _ hn => hn.elim) hst

theorem acquire_keeps (h : path.length < vfsMaxPath) :
    Keeps P (· ≠ .overrun) (acquire fs path) := by
  intro st hst
  rw [acquire_run]
  cases hacq : vfsNodeAcquire (fs.replies st) st.vfs path with
  | error e => exact fun he => vfsNodeAcquire_ne_overrun h (hacq.trans (congrArg _ he))
  | ok r => exact hP st _ (Frame.acquire hacq) hst

omit hP in
theorem deref_keeps (np : Option ℕ) : Keeps P (· ≠ .overrun) (deref np : ServerM δ ℕ) := by
  cases np with
  | none => exact .throw (by decide)
  | some n => exact .pure

theorem vfsLookupDir_triple (path : Str) : Triple P (vfsLookupDir fs path)
    (fun r st => P st ∧ ∀ err, r = .error err → err ≠ 0) (· ≠ .overrun) := by
  have hfail : ∀ (err : Int32), err ≠ 0 → Triple P
      (return .error err : ServerM δ (Except Int32 (ℕ × Str)))
      (fun r st => P st ∧ ∀ err, r = .error err → err ≠ 0) (· ≠ .overrun) := by
    refine fun err herr => .pure fun st hst => ⟨hst, ?_⟩
    rintro _ ⟨⟩
    exact herr
  refine .ite (fun _ => hfail _ (by decide)) fun hlen => ?_
  split
  · exact hfail _ (by decide)
  next dir name hsplit =>
    have hdir : (if dir = [] then rootPath else dir).length < vfsMaxPath := by
      have hle := length_le_of_splitLast hsplit
      split_ifs
      · decide
      · omega
    refine .bind (acquire_keeps hP hdir) fun r => .ite (fun herr => hfail _ herr) fun _ => ?_
    refine .bind (deref_keeps _) fun n => .bind Keeps.get fun st => .ite (fun _ => ?_) fun _ => ?_
    · exact .bind (release_keeps hP n) fun _ => hfail _ (by decide)
    · exact .pure fun st hst => ⟨hst, by simp⟩

end Mounts

theorem release_inBounds (n : ℕ) : InBounds (release n : ServerM δ Unit) :=
  release_keeps (fun _ _ _ h => h) n

theorem acquire_inBounds (h : path.length < vfsMaxPath) : InBounds (acquire fs path) :=
  acquire_keeps (fun _ _ _ h => h) h

theorem lookupDir_inBounds (path : Str) : InBounds (vfsLookupDir fs path) :=
  (vfsLookupDir_triple (fun _ _ _ h => h) path).imp (fun _ h => h) (fun _ _ h => h.1) fun _ h => h

theorem andThen_inBounds {f g : ServerM δ Int32} (hf : InBounds f) (hg : InBounds g) :
    InBounds (andThen f g) :=
  .bind hf fun _ => .ite .pure hg

theorem released_inBounds {α : Type} (n : ℕ) (a : α) :
    InBounds (do release n; return a : ServerM δ α) :=
  .bind (release_inBounds n) fun _ => .pure

variable (hfs : fs.Apart) (hpath : path.length < vfsMaxPath)

section

include hfs

theorem vfsClose_inBounds (fd : Int32) : InBounds (vfsClose fs fd) := by
  refine .bind .get fun st => ?_
  split
  · exact .pure
  · refine .bind (hfs.sync _) fun err => .ite .pure ?_
    refine .bind (release_inBounds _) fun _ => .bind ?_ fun _ => .pure
    exact .ite (.bind .get fun st => .ite (fun _ _ => trivial) .pure) .pure

theorem vfsReaddir_inBounds (fd : Int32) (dir : Option (Bytes direntSize)) :
    InBounds (vfsReaddir fs fd dir) := by
  cases dir with
  | none => exact .pure
  | some b =>
    refine .bind .get fun st => ?_
    split
    · exact .pure
    · refine .ite .pure (.bind (hfs.readdir _ _) fun r => ?_)
      exact .ite (.bind (fun _ _ => trivial) fun _ => .pure) .pure

end

include hfs hpath

theorem vfsOpen_inBounds (flags mode : UInt32) :
    InBounds (vfsOpen fs (some path) flags mode) := by
  have hacq : InBounds (acquire fs path) := acquire_inBounds hpath
  have hnode : InBounds (vfsOpenNode fs path flags mode) := by
    refine .bind hacq fun r => .ite (.ite (.bind (lookupDir_inBounds path) fun r => ?_) ?_) ?_
    · rcases r with err | ⟨dn, name⟩
      · exact .pure
      · refine .bind .get fun st => .ite (released_inBounds _ _) ?_
        refine .bind (andThen_inBounds (hfs.create _ _ _) (hfs.sync _)) fun err => ?_
        refine .bind (release_inBounds dn) fun _ => .ite .pure (.bind hacq fun r => ?_)
        exact .ite .pure (.bind (deref_keeps _) fun _ => .pure)
    · exact .bind (deref_keeps _) fun n => .ite (released_inBounds _ _) .pure
    · refine .ite .pure (.bind (deref_keeps _) fun n => .ite (.bind .get fun st => ?_) .pure)
      exact .ite (released_inBounds _ _) (.bind .get fun _ => .ite (released_inBounds _ _) .pure)
  refine .ite .pure (.bind hnode fun r => ?_)
  rcases r with err | ⟨n, flags'⟩
  · exact .pure
  · have htrunc : InBounds (vfsOpenTrunc fs n flags') :=
      .ite (.bind .get fun st => .ite .pure (hfs.truncate _ _)) .pure
    refine .bind htrunc fun err => .ite (released_inBounds _ _) (.bind .get fun st => ?_)
    split
    · exact released_inBounds _ _
    · exact .bind (fun _ _ => trivial) fun _ => .pure

theorem vfsOpendir_inBounds : InBounds (vfsOpendir fs (some path)) := by
  refine .bind (vfsOpen_inBounds hfs hpath _ _) fun fd => .ite .pure (.bind .get fun st => ?_)
  split
  · exact .pure
  · exact .ite (.bind (vfsClose_inBounds hfs fd) fun _ => .pure) .pure

omit hpath in
theorem vfsCheckDirEmptyLoop_inBounds (fd : Int32) (rounds : ℕ) (dir : Bytes direntSize) :
    InBounds (vfsCheckDirEmptyLoop fs fd rounds dir) := by
  induction rounds generalizing dir with
  | zero => exact .throw (by decide)
  | succ rounds ih =>
    exact .bind (vfsReaddir_inBounds hfs fd _) fun r => .ite .pure (.ite .pure (ih _))

theorem vfsRmdir_inBounds : InBounds (vfsRmdir fs (some path)) := by
  have hclosedir : ∀ fd, InBounds (vfsClosedir fs fd) := by
    intro fd
    refine .bind .get fun st => ?_
    split
    · exact .pure
    · exact .ite .pure (vfsClose_inBounds hfs fd)
  have hempty : InBounds (vfsCheckDirEmpty fs path) := by
    refine .bind (vfsOpendir_inBounds hfs hpath) fun fd => .ite .pure ?_
    refine .bind (vfsCheckDirEmptyLoop_inBounds hfs fd _ _) fun found => ?_
    exact .bind (hclosedir fd) fun _ => .ite .pure .pure
  refine .bind hempty fun err => .ite .pure (.bind (acquire_inBounds hpath) fun r => ?_)
  refine .ite .pure (.bind (deref_keeps _) fun n => .bind .get fun st => ?_)
  refine .ite (released_inBounds _ _) (.ite (released_inBounds _ _) ?_)
  refine .bind (lookupDir_inBounds path) fun r => ?_
  rcases r with err | ⟨dn, name⟩
  · exact released_inBounds _ _
  · refine .bind (andThen_inBounds (hfs.rmdir _ _ _)
      (andThen_inBounds (hfs.sync _) (hfs.sync _))) fun err => ?_
    exact .bind (release_inBounds _) fun _ => released_inBounds _ _

theorem vfsMkdir_inBounds (mode : UInt32) : InBounds (vfsMkdir fs (some path) mode) := by
  refine .bind (acquire_inBounds hpath) fun r => .ite ?_ ?_
  · exact .bind (deref_keeps _) fun n => released_inBounds _ _
  · refine .bind (lookupDir_inBounds path) fun r => ?_
    rcases r with err | ⟨dn, name⟩
    · exact .pure
    · refine .bind .get fun st => .ite (released_inBounds _ _) ?_
      exact .bind (andThen_inBounds (hfs.mkdir _ _ _) (hfs.sync _)) fun err =>
        released_inBounds _ _

theorem vfsUnlink_inBounds : InBounds (vfsUnlink fs (some path)) := by
  refine .bind (acquire_inBounds hpath) fun r => .ite .pure (.bind (deref_keeps _) fun n => ?_)
  refine .bind .get fun st => .ite (released_inBounds _ _) (.ite (released_inBounds _ _) ?_)
  refine .bind (lookupDir_inBounds path) fun r => ?_
  rcases r with err | ⟨dn, name⟩
  · exact released_inBounds _ _
  · refine .bind (andThen_inBounds (hfs.truncate _ _) (andThen_inBounds (hfs.sync _)
      (andThen_inBounds (hfs.remove _ _ _) (hfs.sync _)))) fun err => ?_
    exact .bind (release_inBounds _) fun _ => released_inBounds _ _

omit hfs in
theorem vfsAccess_inBounds (mode : UInt32) : InBounds (vfsAccess fs (some path) mode) :=
  .bind (acquire_inBounds hpath) fun _ => .ite .pure (.bind (deref_keeps _) fun _ =>
    .bind .get fun _ => released_inBounds _ _)

omit hfs in
theorem vfsStat_inBounds (rec : Option (Bytes statSize)) :
    InBounds (vfsStat fs (some path) rec) := by
  cases rec with
  | none => exact .pure
  | some b =>
    exact .bind (acquire_inBounds hpath) fun _ => .ite .pure (.bind (deref_keeps _) fun _ =>
      .bind .get fun _ => released_inBounds _ _)

theorem vfsRename_inBounds {dst : Str} (hdst : dst.length < vfsMaxPath) :
    InBounds (vfsRename fs path dst) := by
  have hto : ∀ n₁ sn sname, InBounds (vfsRenameTo fs n₁ sn sname dst) := by
    intro n₁ sn sname
    refine .bind (acquire_inBounds hdst) fun r => .ite ?_ ?_
    · exact .bind (deref_keeps _) fun n => released_inBounds _ _
    · refine .bind (lookupDir_inBounds dst) fun r => ?_
      rcases r with err | ⟨dn, dname⟩
      · exact .pure
      · have hin : InBounds (vfsRenameIn fs n₁ sn sname dn dname) :=
          .bind .get fun st => .ite .pure (andThen_inBounds (hfs.rename _ _ _ _ _)
            (andThen_inBounds (hfs.sync _) (.ite (hfs.sync _) .pure)))
        exact .bind hin fun err => released_inBounds _ _
  have hfrom : ∀ n₁, InBounds (vfsRenameFrom fs n₁ path dst) := by
    intro n₁
    refine .bind .get fun st => .ite .pure (.ite .pure ?_)
    refine .bind (lookupDir_inBounds path) fun r => ?_
    rcases r with err | ⟨sn, sname⟩
    · exact .pure
    · exact .bind (hto _ _ _) fun err => released_inBounds _ _
  refine .ite .pure (.ite .pure (.ite .pure (.bind (acquire_inBounds hpath) fun r => ?_)))
  exact .ite .pure (.bind (deref_keeps _) fun n₁ => .bind (hfrom n₁) fun err =>
    released_inBounds _ _)

theorem PathCall.inBounds {c : PathCall} (hother : c.OtherShort) : InBounds (c.run fs path) := by
  cases c with
  | «open» flags mode => exact vfsOpen_inBounds hfs hpath flags mode
  | stat rec => exact .bind (vfsStat_inBounds hpath rec) fun _ => .pure
  | access mode => exact vfsAccess_inBounds hpath mode
  | mkdir mode => exact vfsMkdir_inBounds hfs hpath mode
  | rmdir => exact vfsRmdir_inBounds hfs hpath
  | unlink => exact vfsUnlink_inBounds hfs hpath
  | renameFrom dst => exact vfsRename_inBounds hfs hpath hother
  | renameTo src => exact vfsRename_inBounds hfs hother hpath
  | opendir => exact vfsOpendir_inBounds hfs hpath

end Short

/-! ## Relative paths -/

section Relative

variable {δ : Type} {fs : FileSystem δ} {path : Str} {st : Server δ}

theorem Server.Absolute.of_frame {st' : Server δ} (h : Frame (fun _ => False) st.vfs st'.vfs)
    (habs : st.Absolute) : st'.Absolute := by
  intro m hm
  rw [h.mntList] at hm
  rw [h.path m]
  exact habs m hm

theorem acquire_relative (habs : st.Absolute) (hpath : path.head? ≠ some '/') :
    ∃ st', (acquire fs path).run st = .ok ((-1, none), st') ∧ st'.Absolute := by
  have hnone : vfsFindroot st.vfs path = none := by
    rcases vfsFindroot_cases st.vfs path with ⟨hnone, -⟩ | ⟨m, hm, -, hpos, -⟩
    · exact hnone
    · have hdir := habs m hm
      by_cases hpre : IsDirPrefix (st.vfs.mount m).path path
      · obtain ⟨rest, rfl⟩ := hpre.isPrefix hdir
        rw [List.head?_append, hdir] at hpath
        exact absurd rfl hpath
      · rw [(countMatch_eq hdir).2 hpre] at hpos
        exact absurd hpos (Nat.lt_irrefl 0)
  exact ⟨st.acquired fs st.vfs, by rw [acquire_run, vfsNodeAcquire, hnone]; rfl, habs⟩

theorem vfsLookupDir_long (hlong : vfsMaxPath ≤ path.length) :
    vfsLookupDir fs path = (return .error (-1)) :=
  if_pos hlong

theorem vfsRename_relative (hpath : path.head? ≠ some '/') (hlong : vfsMaxPath ≤ path.length)
    {src : Str} (hsrc : src.length < vfsMaxPath) :
    Triple Server.Absolute (vfsRename fs src path) (fun ret _ => ret ≠ 0) (· ≠ .overrun) := by
  have hfail : ∀ (err : Int32), err ≠ 0 → Triple Server.Absolute (return err : ServerM δ Int32)
      (fun ret st => st.Absolute ∧ ret ≠ 0) (· ≠ .overrun) :=
    fun err herr => .pure fun st hst => ⟨hst, herr⟩
  have hreleased : ∀ n (err : Int32), Triple (fun st : Server δ => st.Absolute ∧ err ≠ 0)
      (do release n; return err : ServerM δ Int32) (fun ret st => st.Absolute ∧ ret ≠ 0)
      (· ≠ .overrun) :=
    fun n err => .assume fun herr =>
      .bind (release_keeps (fun _ _ => Server.Absolute.of_frame) n) fun _ => hfail err herr
  have hto : ∀ n₁ sn sname, Triple Server.Absolute (vfsRenameTo fs n₁ sn sname path)
      (fun ret st => st.Absolute ∧ ret ≠ 0) (· ≠ .overrun) := by
    intro n₁ sn sname st hst
    obtain ⟨st', hacq, hst'⟩ := @acquire_relative δ fs path st hst hpath
    simp only [vfsRenameTo, vfsLookupDir_long hlong]
    rw [StateT.run_bind, hacq]
    exact ⟨hst', by decide⟩
  have hfrom : ∀ n₁, Triple Server.Absolute (vfsRenameFrom fs n₁ src path)
      (fun ret st => st.Absolute ∧ ret ≠ 0) (· ≠ .overrun) := by
    refine fun n₁ => .bind Keeps.get fun st => .ite (hfail _) fun _ => ?_
    refine .ite (fun _ => hfail _ (by decide)) fun _ => ?_
    refine .bind (vfsLookupDir_triple (fun _ _ => Server.Absolute.of_frame) src) fun r => ?_
    rcases r with err | ⟨sn, sname⟩
    · exact .assume fun herr => hfail err (herr err rfl)
    · exact .assume fun _ => .bind (hto n₁ sn sname) fun err => hreleased sn err
  have hall : Triple Server.Absolute (vfsRename fs src path)
      (fun ret st => st.Absolute ∧ ret ≠ 0) (· ≠ .overrun) := by
    refine .ite (fun _ => hfail _ (by decide)) fun _ => ?_
    refine .ite (fun _ => hfail _ (by decide)) fun _ => ?_
    refine .ite (fun _ => hfail _ (by decide)) fun _ => ?_
    refine .bind (acquire_keeps (fun _ _ => Server.Absolute.of_frame) hsrc) fun r => ?_
    refine .ite (hfail _) fun _ => .bind (deref_keeps _) fun n₁ => ?_
    exact .bind (hfrom n₁) fun err => hreleased n₁ err
  exact hall.imp (fun _ h => h) (fun _ _ h => h.2) fun _ h => h

theorem PathCall.run_relative (habs : st.Absolute) (hpath : path.head? ≠ some '/')
    (hlong : vfsMaxPath ≤ path.length) {c : PathCall} (hc : ∀ src, c ≠ .renameTo src) :
    ∃ st', (c.run fs path).run st = .ok (-1, st') := by
  obtain ⟨st', hacq, -⟩ := @acquire_relative δ fs path st habs hpath
  have hopen : ∀ flags mode, ∃ st', (vfsOpen fs (some path) flags mode).run st = .ok (-1, st') := by
    intro flags mode
    by_cases hflags : flags &&& oAccmode = 0
    · exact ⟨st, by simp [vfsOpen, hflags]; rfl⟩
    · refine ⟨st', vfsOpen_of_error hflags ?_⟩
      simp only [vfsOpenNode, vfsLookupDir_long hlong]
      rw [StateT.run_bind, hacq]
      by_cases hcreat : flags &&& oCreat = 0
      · simp [hcreat]
        rfl
      · simp [hcreat]
        rfl
  have hopendir : ∃ st', (vfsOpendir fs (some path)).run st = .ok (-1, st') := by
    obtain ⟨st₁, hst₁⟩ := hopen oRdonly 0
    refine ⟨st₁, ?_⟩
    simp only [vfsOpendir]
    rw [StateT.run_bind, hst₁]
    rfl
  cases c with
  | «open» flags mode => exact hopen flags mode
  | stat rec =>
    cases rec with
    | none => exact ⟨st, rfl⟩
    | some b =>
      refine ⟨st', ?_⟩
      simp only [PathCall.run, vfsStat]
      rw [StateT.run_bind, StateT.run_bind, hacq]
      rfl
  | access mode =>
    refine ⟨st', ?_⟩
    simp only [PathCall.run, vfsAccess]
    rw [StateT.run_bind, hacq]
    rfl
  | mkdir mode =>
    refine ⟨st', ?_⟩
    simp only [PathCall.run, vfsMkdir, vfsLookupDir_long hlong]
    rw [StateT.run_bind, hacq]
    rfl
  | rmdir =>
    obtain ⟨st₁, hst₁⟩ := hopendir
    refine ⟨st₁, ?_⟩
    simp only [PathCall.run, vfsRmdir, vfsCheckDirEmpty]
    rw [StateT.run_bind, StateT.run_bind, hst₁]
    rfl
  | unlink =>
    refine ⟨st', ?_⟩
    simp only [PathCall.run, vfsUnlink]
    rw [StateT.run_bind, hacq]
    rfl
  | renameFrom dst =>
    simp only [PathCall.run, vfsRename]
    split_ifs
    · exact ⟨st, rfl⟩
    · exact ⟨st, rfl⟩
    · exact ⟨st, rfl⟩
    · refine ⟨st', ?_⟩
      rw [StateT.run_bind, hacq]
      rfl
  | renameTo src => exact absurd rfl (hc src)
  | opendir => exact hopendir

end Relative

/-! ## Absolute paths that are too long -/

/-- A file system in which every path is that of a directory. -/
def everyDir : FileSystem Unit :=
  { readOnlyFile with replies := fun _ path => ⟨some (11 + path.length), 0, 0, .dir⟩ }

theorem everyDir_apart : everyDir.Apart :=
  ⟨fun _ _ => .pure, fun _ => .pure, fun _ _ => .pure, fun _ _ _ => .pure, fun _ _ _ => .pure,
    fun _ _ _ _ _ => .pure, fun _ _ _ => .pure, fun _ _ _ => .pure⟩

theorem readOnlyRoot_absolute : readOnlyRoot.Absolute := by
  rintro m ⟨⟩
  · rfl
  next h => cases h

theorem acquireLoop_everyDir {m dn : ℕ} {s : Vfs} {node : Str} (names : List (Str × Bool)) :
    vfsNodeAcquireLoop (everyDir.replies readOnlyRoot) m s dn node names = .error .overrun ∨
      ∃ s' n, vfsNodeAcquireLoop (everyDir.replies readOnlyRoot) m s dn node names =
        .ok (s', 0, some n) := by
  induction names generalizing s dn node with
  | nil => exact .inr ⟨s, dn, rfl⟩
  | cons c rest ih =>
    obtain ⟨name, slash⟩ := c
    unfold vfsNodeAcquireLoop
    dsimp only
    split_ifs with hlen
    · exact .inl rfl
    · split
      · exact ih
      next s₁ _ =>
        have hget : ∃ s₂, vfsNodeGet (everyDir.replies readOnlyRoot (node ++ '/' :: name)) s₁ m
            (node ++ '/' :: name) = (some (11 + (node ++ '/' :: name).length), s₂) :=
          ⟨_, if_neg hlen⟩
        obtain ⟨s₂, hget⟩ := hget
        rw [hget]
        dsimp only
        rw [if_neg (by simp [everyDir, Vfs.setType])]
        exact ih

theorem vfsFindroot_readOnlyRoot {path : Str} (hpath : path.head? = some '/') :
    vfsFindroot readOnlyRoot.vfs path = some (1, (path.drop 1).dropWhile (· = '/')) := by
  have hcount : countMatch path rootPath = 1 := (countMatch_eq rfl).1 (isDirPrefix_root.mpr hpath)
  rcases vfsFindroot_cases readOnlyRoot.vfs path with ⟨-, hzero⟩ | ⟨m, hm, heq, -⟩
  · exact absurd (hcount.symm.trans (hzero 1 (List.mem_singleton_self 1))) one_ne_zero
  · obtain rfl := List.mem_singleton.mp hm
    rw [heq, show countMatch path (readOnlyRoot.vfs.mount 1).path = 1 from hcount]

theorem acquire_everyDir {path : Str} (hpath : path.head? = some '/') :
    (acquire everyDir path).run readOnlyRoot = .error .overrun ∨
      ∃ s n, (acquire everyDir path).run readOnlyRoot =
        .ok ((0, some n), readOnlyRoot.acquired everyDir s) := by
  rw [acquire_run, vfsNodeAcquire, vfsFindroot_readOnlyRoot hpath]
  rcases @acquireLoop_everyDir 1 10 (vfsNodeRef readOnlyRoot.vfs 10) []
    (components ((path.drop 1).dropWhile (· = '/'))) with herr | ⟨s, n, hok⟩
  · exact .inl (congrArg (Except.map _) herr)
  · exact .inr ⟨s, n, congrArg (Except.map _) hok⟩

theorem vfsOpen_everyDir {path : Str} (hpath : path.head? = some '/') :
    (vfsOpen everyDir (some path) oRdonly 0).run readOnlyRoot = .error .overrun ∨
      ∃ st, (vfsOpen everyDir (some path) oRdonly 0).run readOnlyRoot = .ok (3, st) := by
  rcases acquire_everyDir hpath with hacq | ⟨s, n, hacq⟩
  · left
    apply vfsOpen_of_fault (by decide)
    simp only [vfsOpenNode]
    rw [StateT.run_bind, hacq]
    rfl
  · right
    have hnode : (vfsOpenNode everyDir path oRdonly 0).run readOnlyRoot =
        .ok (.ok (n, oRdonly), readOnlyRoot.acquired everyDir s) := by
      simp only [vfsOpenNode]
      rw [StateT.run_bind, hacq]
      rfl
    rw [vfsOpen_of_node (by decide) hnode]
    exact ⟨_, rfl⟩

/-- **Paths and the buffer.**  The calls with a path stay in the buffer of `vfs_node_acquire`, and
fail if the path is too long, exactly if the path is not too long, or relative.

**Proof sketch.** A component is copied without a check.  If everything fits because the path
has slashes that are skipped, then a path that is too long is opened. -/
theorem staysInBuffer_iff (path : Str) :
    StaysInBuffer path ↔ path.length < vfsMaxPath ∨ path.head? ≠ some '/' := by
  constructor
  · intro hstays
    by_contra hnot
    rw [not_or, not_lt, not_not] at hnot
    obtain ⟨hbounds, hfails⟩ := hstays Unit everyDir readOnlyRoot (.open oRdonly 0) everyDir_apart
      readOnlyRoot_absolute trivial
    rcases vfsOpen_everyDir hnot.2 with hrun | ⟨st, hrun⟩
    · exact hbounds hrun
    · obtain ⟨ret, st', hret, hneg⟩ := hfails hnot.1
      obtain ⟨rfl, -⟩ := Prod.mk.inj (Except.ok.inj (hrun.symm.trans hret))
      exact absurd hneg (by decide)
  · intro hpath δ fs st c hfs habs hother
    by_cases hshort : path.length < vfsMaxPath
    · have hbounds := PathCall.inBounds hfs hshort hother
      exact ⟨fun hrun => hbounds.err_of_error trivial hrun rfl,
        fun hlong => absurd hshort (by omega)⟩
    · have hrel := hpath.resolve_left hshort
      rw [not_lt] at hshort
      by_cases hc : ∀ src, c ≠ .renameTo src
      · obtain ⟨st', hrun⟩ := @PathCall.run_relative δ fs path st habs hrel hshort c hc
        rw [hrun]
        refine ⟨by simp, fun _ => ?_⟩
        cases c with
        | renameTo src => exact absurd rfl (hc src)
        | _ => exact ⟨-1, st', rfl, by decide⟩
      · simp only [not_forall, not_not] at hc
        obtain ⟨src, rfl⟩ := hc
        have htriple := @vfsRename_relative δ fs path hrel hshort src hother
        exact ⟨fun hrun => htriple.err_of_error habs hrun rfl,
          fun _ ret st' hrun => htriple.post_of_ok habs hrun⟩

theorem components_replicate (n : ℕ) :
    components (List.replicate (n + 1) 'a') = [(List.replicate (n + 1) 'a', false)] := by
  induction n with
  | zero => rfl
  | succ n ih =>
    rw [List.replicate_succ]
    rw [List.replicate_succ] at ih ⊢
    rw [components.eq_def]
    simp [ih]

/-- A path with one component that does not fit into the buffer. -/
def longPath : Str := '/' :: List.replicate (vfsMaxPath + 1) 'a'

theorem acquire_longPath : (acquire everyDir longPath).run readOnlyRoot = .error .overrun := by
  have hlen : vfsMaxPath ≤ ([] ++ '/' :: List.replicate (vfsMaxPath + 1) 'a').length := by
    rw [List.nil_append, List.length_cons, List.length_replicate]
    omega
  have hloop : vfsNodeAcquireLoop (everyDir.replies readOnlyRoot) 1 (vfsNodeRef readOnlyRoot.vfs 10)
      10 [] [(List.replicate (vfsMaxPath + 1) 'a', false)] = .error .overrun := by
    rw [vfsNodeAcquireLoop]
    exact if_pos hlen
  have hrest : (longPath.drop 1).dropWhile (· = '/') = List.replicate (vfsMaxPath + 1) 'a' := rfl
  rw [acquire_run, vfsNodeAcquire, vfsFindroot_readOnlyRoot rfl, hrest]
  dsimp only
  rw [components_replicate]
  exact congrArg (Except.map _) hloop

/-- All functions overrun the buffer with this path. -/
theorem pathCalls_overrun : ¬ StaysInBuffer longPath ∧
    ∀ c ∈ [PathCall.open oRdonly 0, .stat (some fun _ => 0), .access 0, .mkdir 0, .rmdir, .unlink,
      .renameFrom ['b'], .opendir],
      (c.run everyDir longPath).run readOnlyRoot = .error .overrun := by
  have hopen : (vfsOpen everyDir (some longPath) oRdonly 0).run readOnlyRoot = .error .overrun := by
    apply vfsOpen_of_fault (by decide)
    simp only [vfsOpenNode]
    rw [StateT.run_bind, acquire_longPath]
    rfl
  have hopendir : (vfsOpendir everyDir (some longPath)).run readOnlyRoot = .error .overrun := by
    simp only [vfsOpendir]
    rw [StateT.run_bind, hopen]
    rfl
  refine ⟨fun hstays => ?_, ?_⟩
  · exact (hstays Unit everyDir readOnlyRoot (.open oRdonly 0) everyDir_apart
      readOnlyRoot_absolute trivial).1 hopen
  · simp only [List.forall_mem_cons, PathCall.run, vfsStat, vfsAccess, vfsMkdir, vfsRmdir,
      vfsCheckDirEmpty, vfsUnlink]
    refine ⟨hopen, ?_, ?_, ?_, ?_, ?_, ?_, hopendir, by simp⟩
    · rw [StateT.run_bind, StateT.run_bind, acquire_longPath]
      rfl
    · rw [StateT.run_bind, acquire_longPath]
      rfl
    · rw [StateT.run_bind, acquire_longPath]
      rfl
    · rw [StateT.run_bind, StateT.run_bind, hopendir]
      rfl
    · rw [StateT.run_bind, acquire_longPath]
      rfl
    · have hdst : longPath.take vfsMaxPath ≠ (['b'] : Str).take vfsMaxPath := by
        intro h
        have hhead := congrArg List.head? h
        rw [List.head?_take, List.head?_take] at hhead
        exact absurd hhead (by decide)
      have hsrc : longPath ≠ rootPath := by
        simp [longPath, rootPath]
      rw [vfsRename, if_neg hdst, if_neg hsrc, if_neg (by simp [longPath])]
      rw [StateT.run_bind, acquire_longPath]
      rfl

end Ginkgo.Fs
