import Ginkgo.Fs.VfsFile

/-!
# Opening for writing

When `vfs_open` checks that a node may be written.  It does so before a plain open for writing or
truncating, and for the directory in which it creates a file, but not for a file that exists and is
opened with `O_CREAT`.

## Main results

* `vfsOpen_checks_iff` — when a call checks what it opens.
-/

namespace Ginkgo.Fs

variable {δ : Type}

/-- The node is not a directory, its mount is not read-only, and someone may write it. -/
def Server.Writable (st : Server δ) (n : ℕ) : Prop :=
  st.type n ≠ .dir ∧ st.mountFlags (st.vfs.node n).mount &&& mountRo = 0 ∧
    (st.attr n).mode &&& sIwugo ≠ 0

instance (st : Server δ) (n : ℕ) : Decidable (st.Writable n) :=
  inferInstanceAs (Decidable (_ ∧ _ ∧ _))

theorem Server.writable_iff (st : Server δ) (n : ℕ) :
    st.Writable n ↔ st.type n ≠ .dir ∧ vfsNodeAccess st n wOk = 0 := by
  have hread : wOk &&& rOk = 0 := by decide
  have hwrite : wOk ≠ 0 := by decide
  have hexec : wOk &&& xOk = 0 := by decide
  unfold Writable vfsNodeAccess
  by_cases hro : st.mountFlags (st.vfs.node n).mount &&& mountRo = 0
  · by_cases hmode : (st.attr n).mode &&& sIwugo = 0
    · simp [hread, hwrite, hro, hmode]
    · simp [hread, hexec, hro, hmode]
  · simp [hread, hwrite, hro]

/-- The part of `vfs_open` after the truncation, which gave `err`. -/
def vfsOpenFd (n : ℕ) (flags : UInt32) (err : Int32) : ServerM δ Int32 := do
  if err ≠ 0 then
    release n
    return err
  else
    match vfsFdAlloc (← get) with
    | none =>
      release n
      return -1
    | some i =>
      modify (Server.setFile · i ⟨some n, 0, flags⟩)
      return Int32.ofNat i

variable (fs : FileSystem δ)

/-- The node that `vfs_open` truncates, and the state in which it does. -/
def vfsOpenTruncates (path : Str) (flags mode : UInt32) (st : Server δ) :
    Option (ℕ × Server δ) :=
  if flags &&& oAccmode = 0 then none
  else
    match (vfsOpenNode fs path flags mode).run st with
    | .ok (.ok (n, flags), st₁) =>
      if flags &&& oTrunc ≠ 0 ∧ flags &&& oWronly ≠ 0 ∧ st₁.type n ≠ .dir then some (n, st₁)
      else none
    | _ => none

/-- Existing nodes that a call opens for writing, and nodes that it truncates, may be written. -/
def ChecksWrite (path : Str) (flags mode : UInt32) (st : Server δ) : Prop :=
  (∀ n st₁ fd st', (acquire fs path).run st = .ok ((0, some n), st₁) →
    (vfsOpen fs (some path) flags mode).run st = .ok (fd, st') → 0 ≤ fd →
    flags &&& oWronly ≠ 0 → st₁.Writable n) ∧
  ∀ n st₁, vfsOpenTruncates fs path flags mode st = some (n, st₁) → st₁.Writable n

/-! ## Values that are returned -/

theorem release_run (n : ℕ) (st : Server δ) : (release n : ServerM δ Unit).run st =
    (vfsNodeRelease st.vfs n).map fun s => ((), { st with vfs := s }) := by
  simp only [release, StateT.run_bind, StateT.run_get, pure_bind]
  cases vfsNodeRelease st.vfs n with
  | error e => rfl
  | ok s => rfl

/-- The state after `vfs_node_acquire`: new nodes get the attributes that the file system gives
them. -/
def Server.acquired (fs : FileSystem δ) (st : Server δ) (s : Vfs) : Server δ :=
  { st with
    vfs := s
    attr := fun n =>
      if st.vfs.holds n then st.attr n else fs.attr st (s.node n).mount (s.node n).path }

theorem acquire_run (fs : FileSystem δ) (path : Str) (st : Server δ) : (acquire fs path).run st =
    (vfsNodeAcquire (fs.replies st) st.vfs path).map fun r =>
      ((Int32.ofInt r.2.1, r.2.2), st.acquired fs r.1) := by
  simp only [acquire, StateT.run_bind, StateT.run_get, pure_bind]
  cases vfsNodeAcquire (fs.replies st) st.vfs path with
  | error e => rfl
  | ok r => rfl
section Returns

variable {α β : Type} {P : β → Prop}

/-- All values that a computation returns have the property. -/
def Returns (x : ServerM δ β) (P : β → Prop) : Prop :=
  ∀ st b st', x.run st = .ok (b, st') → P b

theorem Returns.pure {b : β} (h : P b) : Returns (Pure.pure b : ServerM δ β) P := by
  intro st b' st' heq
  rwa [← (Prod.mk.inj (Except.ok.inj heq)).1]

theorem Returns.bind {x : ServerM δ α} {f : α → ServerM δ β} (h : ∀ a, Returns (f a) P) :
    Returns (x >>= f) P := by
  intro st b st' heq
  rw [StateT.run_bind] at heq
  obtain ⟨⟨a, st₁⟩, _, heq⟩ := Fallible.bind_eq_ok.mp heq
  exact h a st₁ b st' heq

end Returns

/-! ## The parts of the call -/

section

variable {fs} {path : Str} {flags flags' mode : UInt32} {st st₁ st₂ : Server δ} {n : ℕ}

theorem vfsOpen_of_node (hflags : flags &&& oAccmode ≠ 0)
    (hnode : (vfsOpenNode fs path flags mode).run st = .ok (.ok (n, flags'), st₁)) :
    (vfsOpen fs (some path) flags mode).run st =
      (vfsOpenTrunc fs n flags' >>= vfsOpenFd n flags').run st₁ := by
  simp only [vfsOpen, if_neg hflags]
  rw [StateT.run_bind, hnode]
  rfl

theorem vfsOpen_of_error (hflags : flags &&& oAccmode ≠ 0) {err : Int32}
    (hnode : (vfsOpenNode fs path flags mode).run st = .ok (.error err, st₁)) :
    (vfsOpen fs (some path) flags mode).run st = .ok (err, st₁) := by
  simp only [vfsOpen, if_neg hflags]
  rw [StateT.run_bind, hnode]
  rfl

theorem vfsOpen_of_fault (hflags : flags &&& oAccmode ≠ 0) {e : Fault}
    (hnode : (vfsOpenNode fs path flags mode).run st = .error e) :
    (vfsOpen fs (some path) flags mode).run st = .error e := by
  simp only [vfsOpen, if_neg hflags]
  rw [StateT.run_bind, hnode]
  rfl

theorem vfsOpenTrunc_of_not
    (h : ¬ (flags &&& oTrunc ≠ 0 ∧ flags &&& oWronly ≠ 0 ∧ st.type n ≠ .dir)) :
    (vfsOpenTrunc fs n flags).run st = .ok (if flags &&& oTrunc = 0 then 0 else -1, st) := by
  by_cases htrunc : flags &&& oTrunc = 0
  · simp [vfsOpenTrunc, htrunc]
    rfl
  · have hno : flags &&& oWronly = 0 ∨ st.type n = .dir := by
      by_contra hboth
      rw [not_or] at hboth
      exact h ⟨htrunc, hboth.1, hboth.2⟩
    simp [vfsOpenTrunc, htrunc, hno]
    rfl

/-! ## The check -/

theorem vfsNodeAccess_write (st : Server δ) (n : ℕ) :
    vfsNodeAccess st n wOk = 0 ∨ vfsNodeAccess st n wOk = -1 := by
  unfold vfsNodeAccess
  dsimp only
  split_ifs <;> simp

theorem release_error (n : ℕ) (err : Int32) :
    Returns (do release n; return .error err : ServerM δ (Except Int32 (ℕ × UInt32)))
      (· = .error err) :=
  .bind fun _ => .pure rfl

theorem vfsOpenNode_created {err : Int32} {np : Option ℕ} (herr : err ≠ 0)
    (hacq : (acquire fs path).run st = .ok ((err, np), st₁))
    (hnode : (vfsOpenNode fs path flags mode).run st = .ok (.ok (n, flags'), st₂)) :
    flags' &&& oTrunc = 0 := by
  have hclear : flags &&& ~~~oTrunc &&& oTrunc = 0 := by
    rw [UInt32.and_assoc, show ~~~oTrunc &&& oTrunc = 0 by decide, UInt32.and_zero]
  simp only [vfsOpenNode] at hnode
  rw [StateT.run_bind, hacq] at hnode
  change (if flags &&& oCreat ≠ 0 then _ else _ : ServerM δ _).run st₁ = _ at hnode
  refine (?_ : Returns _ fun r => ∀ n flags', r = .ok (n, flags') → flags' &&& oTrunc = 0)
    _ _ _ hnode _ _ rfl
  rw [if_pos herr, if_pos herr]
  split
  · refine .bind fun r => ?_
    cases r with
    | error err => exact .pure (by simp)
    | ok r =>
      obtain ⟨dn, filename⟩ := r
      refine .bind fun st => ?_
      split
      · exact .bind fun _ => .pure (by simp)
      · refine .bind fun err => .bind fun _ => ?_
        split
        · exact .pure (by simp)
        · refine .bind fun r => ?_
          obtain ⟨err, np⟩ := r
          dsimp only
          split
          · exact .pure (by simp)
          · refine .bind fun n => .pure ?_
            rintro _ _ heq
            rw [← (Prod.mk.inj (Except.ok.inj heq)).2, hclear]
  · exact .pure (by simp)

theorem vfsOpenNode_null (hacq : (acquire fs path).run st = .ok ((0, none), st₁)) :
    (vfsOpenNode fs path flags mode).run st = .error .badAccess := by
  simp only [vfsOpenNode]
  rw [StateT.run_bind, hacq]
  by_cases hcreat : flags &&& oCreat = 0
  · simp [hcreat, deref]
    rfl
  · simp [hcreat, deref]
    rfl

variable (hacq : (acquire fs path).run st = .ok ((0, some n), st₁))

include hacq

theorem vfsOpenNode_creat (hcreat : flags &&& oCreat ≠ 0) (hexcl : flags &&& oExcl = 0) :
    (vfsOpenNode fs path flags mode).run st = .ok (.ok (n, flags &&& ~~~oCreat), st₁) := by
  simp only [vfsOpenNode]
  rw [StateT.run_bind, hacq]
  simp [hcreat, hexcl, deref]
  rfl

theorem vfsOpenNode_excl (hcreat : flags &&& oCreat ≠ 0) (hexcl : flags &&& oExcl ≠ 0)
    {r : Except Int32 (ℕ × UInt32)}
    (h : (vfsOpenNode fs path flags mode).run st = .ok (r, st₂)) : r = .error (-1) := by
  simp only [vfsOpenNode] at h
  rw [StateT.run_bind, hacq] at h
  apply release_error n (-1) st₁ r st₂
  simpa [hcreat, hexcl, deref] using h

theorem vfsOpenNode_plain (hcreat : flags &&& oCreat = 0) {r : Except Int32 (ℕ × UInt32)}
    (h : (vfsOpenNode fs path flags mode).run st = .ok (r, st₂)) :
    r = .error (-1) ∨ r = .ok (n, flags) ∧ st₂ = st₁ ∧
      (flags &&& oWronly ≠ 0 ∨ flags &&& oTrunc ≠ 0 → st₁.Writable n) := by
  simp only [vfsOpenNode] at h
  rw [StateT.run_bind, hacq] at h
  by_cases hwrite : flags &&& oWronly ≠ 0 ∨ flags &&& oTrunc ≠ 0
  · rcases vfsNodeAccess_write st₁ n with haccess | haccess
    · by_cases hdir : st₁.type n = .dir
      · left
        apply release_error n (-1) st₁ r st₂
        simpa [hcreat, deref, hwrite, haccess, hdir] using h
      · right
        have heq : (pure (.ok (n, flags), st₁) : Except Fault _) = .ok (r, st₂) := by
          simpa [hcreat, deref, hwrite, haccess, hdir] using h
        cases heq
        exact ⟨rfl, rfl, fun _ => (st₁.writable_iff n).mpr ⟨hdir, haccess⟩⟩
    · left
      apply release_error n (-1) st₁ r st₂
      simpa [hcreat, deref, hwrite, haccess] using h
  · right
    have heq : (pure (.ok (n, flags), st₁) : Except Fault _) = .ok (r, st₂) := by
      simpa [hcreat, deref, hwrite] using h
    cases heq
    exact ⟨rfl, rfl, fun hw => absurd hw hwrite⟩

end

theorem vfsFdAlloc_nonneg {st : Server δ} {i : ℕ} (h : vfsFdAlloc st = some i) :
    0 ≤ Int32.ofNat i := by
  have hmem := List.mem_of_find?_eq_some h
  have hlt : i < 2 ^ 31 := by
    have hrange := (List.mem_range'_1.mp hmem).2
    unfold vfsMaxFd at hrange
    omega
  rw [Int32.le_iff_toInt_le, Int32.toInt_ofNat_of_lt hlt]
  exact Int.natCast_nonneg i

section

variable {fs : FileSystem δ} {path : Str} {flags mode : UInt32} {st st₁ st' : Server δ}
  {n n' : ℕ} {fd : Int32}

theorem accmode_ne_zero (h : flags &&& oWronly ≠ 0) : flags &&& oAccmode ≠ 0 := by
  intro hzero
  apply h
  rw [show oWronly = oAccmode &&& oWronly by decide, ← UInt32.and_assoc, hzero, UInt32.zero_and]

theorem clear_creat (flags : UInt32) :
    flags &&& ~~~oCreat &&& oTrunc = flags &&& oTrunc ∧
      flags &&& ~~~oCreat &&& oWronly = flags &&& oWronly := by
  rw [UInt32.and_assoc, UInt32.and_assoc, show ~~~oCreat &&& oTrunc = oTrunc by decide,
    show ~~~oCreat &&& oWronly = oWronly by decide]
  exact ⟨rfl, rfl⟩

theorem vfsOpenFd_nonneg {err : Int32} (hrun : (vfsOpenFd n flags err).run st = .ok (fd, st'))
    (herr : err = 0 ∨ err = -1) (hfd : 0 ≤ fd) : err = 0 ∧ vfsFdAlloc st ≠ none := by
  have hreleased : ¬ (release n >>= fun _ => pure (-1) : ServerM δ Int32).run st = .ok (fd, st') := by
    intro heq
    have hneg : Returns (release n >>= fun _ => pure (-1) : ServerM δ Int32) (· = -1) :=
      .bind fun _ => .pure rfl
    rw [hneg _ _ _ heq] at hfd
    exact absurd hfd (by decide)
  rcases herr with rfl | rfl
  · refine ⟨rfl, fun hnone => hreleased ?_⟩
    simpa [vfsOpenFd, hnone] using hrun
  · exact absurd hrun hreleased

theorem vfsOpen_inv (hrun : (vfsOpen fs (some path) flags mode).run st = .ok (fd, st'))
    (hflags : flags &&& oAccmode ≠ 0) :
    (∃ st₂, (vfsOpenNode fs path flags mode).run st = .ok (.error fd, st₂)) ∨
    ∃ n flags' st₂, (vfsOpenNode fs path flags mode).run st = .ok (.ok (n, flags'), st₂) ∧
      (vfsOpenTrunc fs n flags' >>= vfsOpenFd n flags').run st₂ = .ok (fd, st') := by
  cases hnode : (vfsOpenNode fs path flags mode).run st with
  | error e =>
    rw [vfsOpen_of_fault hflags hnode] at hrun
    cases hrun
  | ok r =>
    obtain ⟨err | ⟨n, flags'⟩, st₂⟩ := r
    · rw [vfsOpen_of_error hflags hnode] at hrun
      cases hrun
      exact .inl ⟨_, rfl⟩
    · rw [vfsOpen_of_node hflags hnode] at hrun
      exact .inr ⟨n, flags', st₂, rfl, hrun⟩

theorem vfsOpenTruncates_eq_some
    (h : vfsOpenTruncates fs path flags mode st = some (n, st₁)) :
    ∃ flags', (vfsOpenNode fs path flags mode).run st = .ok (.ok (n, flags'), st₁) ∧
      flags' &&& oTrunc ≠ 0 ∧ flags' &&& oWronly ≠ 0 ∧ st₁.type n ≠ .dir := by
  unfold vfsOpenTruncates at h
  split_ifs at h with hflags
  split at h
  · rename_i n' flags' st₂ hnode
    split_ifs at h with htrunc
    cases h
    exact ⟨flags', hnode, htrunc⟩
  · cases h

theorem not_truncated_iff : ¬ (flags &&& ~~~oCreat &&& oTrunc ≠ 0 ∧
    flags &&& ~~~oCreat &&& oWronly ≠ 0 ∧ st₁.type n ≠ .dir) ↔
      (flags &&& oTrunc ≠ 0 → flags &&& oWronly ≠ 0 → st₁.type n = .dir) := by
  rw [(clear_creat flags).1, (clear_creat flags).2]
  tauto

variable (hacq : (acquire fs path).run st = .ok ((0, some n), st₁))

include hacq

theorem vfsOpen_plain_writable (hcreat : flags &&& oCreat = 0) (hwrite : flags &&& oWronly ≠ 0)
    (hrun : (vfsOpen fs (some path) flags mode).run st = .ok (fd, st')) (hfd : 0 ≤ fd) :
    st₁.Writable n := by
  rcases vfsOpen_inv hrun (accmode_ne_zero hwrite) with ⟨st₂, hnode⟩ | ⟨n', flags', st₂, hnode, -⟩
  · rcases vfsOpenNode_plain hacq hcreat hnode with heq | ⟨heq, -⟩
    · rw [Except.error.inj heq] at hfd
      exact absurd hfd (by decide)
    · cases heq
  · rcases vfsOpenNode_plain hacq hcreat hnode with heq | ⟨-, -, hcheck⟩
    · cases heq
    · exact hcheck (.inl hwrite)

theorem vfsOpen_creat_opens (hcreat : flags &&& oCreat ≠ 0) (hexcl : flags &&& oExcl = 0)
    (hwrite : flags &&& oWronly ≠ 0) (htrunc : flags &&& oTrunc = 0) {i : ℕ}
    (hi : vfsFdAlloc st₁ = some i) :
    (vfsOpen fs (some path) flags mode).run st =
      .ok (Int32.ofNat i, st₁.setFile i ⟨some n, 0, flags &&& ~~~oCreat⟩) := by
  rw [vfsOpen_of_node (accmode_ne_zero hwrite) (vfsOpenNode_creat hacq hcreat hexcl),
    StateT.run_bind, vfsOpenTrunc_of_not (not_truncated_iff.mpr fun h => absurd htrunc h),
    (clear_creat flags).1, if_pos htrunc, Fallible.ok_bind]
  simp [vfsOpenFd, hi]
  rfl

theorem vfsOpen_excl_neg (hcreat : flags &&& oCreat ≠ 0) (hexcl : flags &&& oExcl ≠ 0)
    (hwrite : flags &&& oWronly ≠ 0)
    (hrun : (vfsOpen fs (some path) flags mode).run st = .ok (fd, st')) : ¬ 0 ≤ fd := by
  rcases vfsOpen_inv hrun (accmode_ne_zero hwrite) with ⟨st₂, hnode⟩ | ⟨n', flags', st₂, hnode, -⟩
  · rw [Except.error.inj (vfsOpenNode_excl hacq hcreat hexcl hnode)]
    decide
  · cases vfsOpenNode_excl hacq hcreat hexcl hnode

theorem vfsOpen_creat_nonneg (hcreat : flags &&& oCreat ≠ 0) (hexcl : flags &&& oExcl = 0)
    (hwrite : flags &&& oWronly ≠ 0) (hno : flags &&& oTrunc ≠ 0 → st₁.type n = .dir)
    (hrun : (vfsOpen fs (some path) flags mode).run st = .ok (fd, st')) (hfd : 0 ≤ fd) :
    flags &&& oTrunc = 0 ∧ vfsFdAlloc st₁ ≠ none := by
  rw [vfsOpen_of_node (accmode_ne_zero hwrite) (vfsOpenNode_creat hacq hcreat hexcl),
    StateT.run_bind, vfsOpenTrunc_of_not (not_truncated_iff.mpr fun h _ => hno h),
    (clear_creat flags).1, Fallible.ok_bind] at hrun
  dsimp only at hrun
  obtain ⟨herr, hfree⟩ := vfsOpenFd_nonneg hrun (by split_ifs <;> simp) hfd
  refine ⟨?_, hfree⟩
  by_contra htrunc
  rw [if_neg htrunc] at herr
  cases herr

omit hacq

theorem vfsOpenTruncates_inv
    (h : vfsOpenTruncates fs path flags mode st = some (n, st₁)) :
    (acquire fs path).run st = .ok ((0, some n), st₁) ∧
      (st₁.Writable n ∨ flags &&& oCreat ≠ 0 ∧ flags &&& oExcl = 0 ∧ flags &&& oTrunc ≠ 0 ∧
        flags &&& oWronly ≠ 0 ∧ st₁.type n ≠ .dir) := by
  obtain ⟨flags', hnode, htrunc, hwrite, hdir⟩ := vfsOpenTruncates_eq_some h
  cases hacq : (acquire fs path).run st with
  | error e =>
    simp only [vfsOpenNode] at hnode
    rw [StateT.run_bind, hacq] at hnode
    cases hnode
  | ok r =>
    obtain ⟨⟨err, np⟩, st₂⟩ := r
    by_cases herr : err = 0
    · subst herr
      cases np with
      | none =>
        rw [vfsOpenNode_null hacq] at hnode
        cases hnode
      | some n' =>
        by_cases hcreat : flags &&& oCreat = 0
        · rcases vfsOpenNode_plain hacq hcreat hnode with heq | ⟨heq, rfl, hcheck⟩
          · cases heq
          · cases heq
            exact ⟨rfl, .inl (hcheck (.inl hwrite))⟩
        · by_cases hexcl : flags &&& oExcl = 0
          · have heq := hnode.symm.trans (vfsOpenNode_creat hacq hcreat hexcl)
            obtain ⟨hfound, rfl⟩ := Prod.mk.inj (Except.ok.inj heq)
            cases hfound
            rw [(clear_creat flags).1] at htrunc
            rw [(clear_creat flags).2] at hwrite
            exact ⟨rfl, .inr ⟨hcreat, hexcl, htrunc, hwrite, hdir⟩⟩
          · cases vfsOpenNode_excl hacq hcreat hexcl hnode
    · exact absurd (vfsOpenNode_created herr hacq hnode) htrunc

theorem vfsOpenTruncates_creat (hacq : (acquire fs path).run st = .ok ((0, some n), st₁))
    (hcreat : flags &&& oCreat ≠ 0) (hexcl : flags &&& oExcl = 0) (hwrite : flags &&& oWronly ≠ 0)
    (htrunc : flags &&& oTrunc ≠ 0) (hdir : st₁.type n ≠ .dir) :
    vfsOpenTruncates fs path flags mode st = some (n, st₁) := by
  unfold vfsOpenTruncates
  rw [if_neg (accmode_ne_zero hwrite), vfsOpenNode_creat hacq hcreat hexcl]
  dsimp only
  rw [(clear_creat flags).1, (clear_creat flags).2]
  exact if_pos ⟨htrunc, hwrite, hdir⟩

end

/-- **When a call checks what it opens.**  An existing file that is opened with `O_CREAT` is not
checked; then the call does no harm only if it fails for another reason. -/
theorem vfsOpen_checks_iff (fs : FileSystem δ) (path : Str) (flags mode : UInt32)
    (st : Server δ) :
    ChecksWrite fs path flags mode st ↔
      ∀ n st₁, (acquire fs path).run st = .ok ((0, some n), st₁) →
        flags &&& oCreat ≠ 0 → flags &&& oExcl = 0 → flags &&& oWronly ≠ 0 → ¬ st₁.Writable n →
        if flags &&& oTrunc = 0 then vfsFdAlloc st₁ = none else st₁.type n = .dir := by
  constructor
  · rintro ⟨hopen, htruncate⟩ n st₁ hacq hcreat hexcl hwrite hnot
    split_ifs with htrunc
    · by_contra hsome
      obtain ⟨i, hi⟩ := Option.ne_none_iff_exists'.mp hsome
      exact hnot (hopen n st₁ _ _ hacq (vfsOpen_creat_opens hacq hcreat hexcl hwrite htrunc hi)
        (vfsFdAlloc_nonneg hi) hwrite)
    · by_contra hdir
      exact hnot (htruncate n st₁ (vfsOpenTruncates_creat hacq hcreat hexcl hwrite htrunc hdir))
  · intro hcond
    refine ⟨fun n st₁ fd st' hacq hrun hfd hwrite => ?_, fun n st₁ htruncates => ?_⟩
    · by_cases hcreat : flags &&& oCreat = 0
      · exact vfsOpen_plain_writable hacq hcreat hwrite hrun hfd
      · by_contra hnot
        by_cases hexcl : flags &&& oExcl = 0
        · have hcond' := hcond n st₁ hacq hcreat hexcl hwrite hnot
          have hno : flags &&& oTrunc ≠ 0 → st₁.type n = .dir := by
            intro htrunc
            rwa [if_neg htrunc] at hcond'
          obtain ⟨htrunc, hfree⟩ := vfsOpen_creat_nonneg hacq hcreat hexcl hwrite hno hrun hfd
          rw [if_pos htrunc] at hcond'
          exact hfree hcond'
        · exact vfsOpen_excl_neg hacq hcreat hexcl hwrite hrun hfd
    · obtain ⟨hacq, hok | ⟨hcreat, hexcl, htrunc, hwrite, hdir⟩⟩ := vfsOpenTruncates_inv htruncates
      · exact hok
      · by_contra hnot
        have hcond' := hcond n st₁ hacq hcreat hexcl hwrite hnot
        rw [if_neg htrunc] at hcond'
        exact hdir hcond'

/-- A file system with the file `/a`, which nobody may write. -/
def readOnlyFile : FileSystem Unit where
  replies _ _ := ⟨some 11, 0, 0, .reg⟩
  attr _ _ _ := ⟨false, 0, 0, 0, 0o444, 4, 0⟩
  read _ _ _ := return (0, fun _ => none)
  write _ _ _ _ := return 0
  truncate _ _ := return 0
  sync _ := return 0
  readdir _ _ := return (-1, fun _ => none)
  create _ _ _ := return -1
  remove _ _ _ := return -1
  rename _ _ _ _ _ := return -1
  mkdir _ _ _ := return -1
  rmdir _ _ _ := return -1
  chmod _ _ := return -1
  stack := 0
  rounds := 1

/-- It is mounted read-only. -/
def readOnlyRoot : Server Unit where
  vfs := vfsMount Vfs.empty 1 10 rootPath
  attr _ := ⟨true, 0, 0, 0, 0o555, 0, 0⟩
  mountFlags _ := mountRo
  file _ := ⟨none, 0, 0⟩
  disk := ()

/-- With `O_CREAT` the file is opened for writing, and truncated. -/
theorem vfsOpen_unchecked : ∃ st₁,
    (acquire readOnlyFile ['/', 'a']).run readOnlyRoot = .ok ((0, some 11), st₁) ∧
    ¬ st₁.Writable 11 ∧
    (vfsOpen readOnlyFile (some ['/', 'a']) (oCreat ||| oWronly) 0).run readOnlyRoot =
      .ok (3, st₁.setFile 3 ⟨some 11, 0, oWronly⟩) ∧
    vfsOpenTruncates readOnlyFile ['/', 'a'] (oCreat ||| oWronly ||| oTrunc) 0 readOnlyRoot =
      some (11, st₁) ∧
    ¬ ChecksWrite readOnlyFile ['/', 'a'] (oCreat ||| oWronly) 0 readOnlyRoot := by
  obtain ⟨st₁, hacq, hnot, hfree, hdir⟩ : ∃ st₁,
      (acquire readOnlyFile ['/', 'a']).run readOnlyRoot = .ok ((0, some 11), st₁) ∧
      ¬ st₁.Writable 11 ∧ vfsFdAlloc st₁ = some 3 ∧ st₁.type 11 ≠ .dir :=
    ⟨_, rfl, by decide, by decide, by decide⟩
  have hopen : (vfsOpen readOnlyFile (some ['/', 'a']) (oCreat ||| oWronly) 0).run readOnlyRoot =
      .ok (3, st₁.setFile 3 ⟨some 11, 0, oWronly⟩) :=
    vfsOpen_creat_opens hacq (by decide) (by decide) (by decide) (by decide) hfree
  refine ⟨st₁, hacq, hnot, hopen, ?_, ?_⟩
  · exact vfsOpenTruncates_creat hacq (by decide) (by decide) (by decide) (by decide) hdir
  · intro hchecks
    exact hnot (hchecks.1 11 st₁ 3 _ hacq hopen (by decide) (by decide))

end Ginkgo.Fs
