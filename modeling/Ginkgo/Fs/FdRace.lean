import Ginkgo.Fs.VfsFile
import Ginkgo.Lib.Lts

/-!
# Descriptors and the threads of the server

The server answers every connection in a thread of its own, and `mutex_lock` and `mutex_unlock` of
the server are empty.  The model of `vfs_open` and `vfs_close` in which the threads run one
statement at a time, in any order.  `vfs_fd_alloc` looks for a descriptor without a node, and
`vfs_open` stores the node afterwards.

What `vfs_open` does before it calls `vfs_fd_alloc`, and what `vfs_close` does to the node, does not
concern the descriptors; their outcomes are left open.

## Main results

* `FdState.open_alone` — a thread that is not interrupted opens a file as `vfsOpen` does.
* `fdRuns_exclusive` — descriptors are exclusive if opens do not overlap between the
  search and the store.
-/

namespace Ginkgo.Fs

open Function (update update_self update_of_ne update_idem)

/-- The statement that a thread executes next. -/
inductive Pc
  /-- The thread waits for a request. -/
  | idle
  /-- `vfs_open`, before `vfs_fd_alloc`. -/
  | opening (flags : UInt32)
  /-- `fd_file[i].f_node == NULL` in `vfs_fd_alloc`. -/
  | scan (n : ℕ) (flags : UInt32) (i : ℕ)
  /-- `f->f_node = n`. -/
  | store (n : ℕ) (flags : UInt32) (fd : ℕ)
  /-- `f->f_offset = 0`. -/
  | storeOffset (flags : UInt32) (fd : ℕ)
  /-- `f->f_flags = flags`. -/
  | storeFlags (flags : UInt32) (fd : ℕ)
  /-- `n = f->f_node` in `vfs_close`. -/
  | closing (fd : Int32)
  /-- `sync` and `vfs_node_release` in `vfs_close`. -/
  | syncing (fd : Int32) (n : ℕ)
  /-- `fd_file[fd].f_node` in `vfs_fd_free`. -/
  | freeing (fd : Int32)
  /-- `fd_file[fd].f_node = NULL`. -/
  | clear (fd : ℕ)
  /-- `fd_file[fd].f_offset = 0`. -/
  | clearOffset (fd : ℕ)
  /-- `fd_file[fd].f_flags = 0`. -/
  | clearFlags (fd : ℕ)
  /-- The function has returned. -/
  | returned (r : Int32)
deriving DecidableEq

/-- What happened to a descriptor: an open stored its node, or a close cleared it. -/
inductive FdEvent
  | opened (fd n : ℕ)
  | closed (fd : ℕ)
deriving DecidableEq

/-- The descriptors, the threads and the history, the last event first. -/
structure FdState (N : ℕ) where
  file : ℕ → File
  pc : Fin N → Pc
  history : List FdEvent

/-- A request arrives at a thread, or a thread goes on. -/
inductive FdCall (N : ℕ)
  /-- `vfs_open`; the path may be `NULL`. -/
  | openRequest (t : Fin N) (path : Option Str) (flags : UInt32)
  /-- `vfs_close`. -/
  | closeRequest (t : Fin N) (fd : Int32)
  /-- `vfs_open` has found the node and the flags, or fails. -/
  | resolve (t : Fin N) (found : Except Int32 (ℕ × UInt32))
  /-- `sync` has returned. -/
  | sync (t : Fin N) (err : Int32)
  /-- The next statement that concerns the descriptors. -/
  | run (t : Fin N)

namespace FdState

variable {N : ℕ}

/-- The thread goes on to another statement. -/
def goto (st : FdState N) (t : Fin N) (pc : Pc) : FdState N :=
  { st with pc := update st.pc t pc }

/-- Change an entry of `fd_file`. -/
def setFile (st : FdState N) (fd : ℕ) (f : File) : FdState N :=
  { st with file := update st.file fd f }

/-- Record an event. -/
def record (st : FdState N) (e : FdEvent) : FdState N := { st with history := e :: st.history }

/-- One statement of a thread. -/
def run (st : FdState N) (t : Fin N) : FdState N :=
  match st.pc t with
  | .scan n flags i =>
    if vfsMaxFd ≤ i then st.goto t (.returned (-1))
    else if (st.file i).node = none then st.goto t (.store n flags i)
    else st.goto t (.scan n flags (i + 1))
  | .store n flags fd =>
    ((st.setFile fd { st.file fd with node := some n }).record (.opened fd n)).goto t
      (.storeOffset flags fd)
  | .storeOffset flags fd =>
    (st.setFile fd { st.file fd with offset := 0 }).goto t (.storeFlags flags fd)
  | .storeFlags flags fd =>
    (st.setFile fd { st.file fd with flags := flags }).goto t (.returned (Int32.ofNat fd))
  | .closing fd =>
    match vfsFdToFile fd with
    | none => st.goto t (.returned (-1))
    | some i =>
      match (st.file i).node with
      | none => st.goto t (.returned (-1))
      | some n => st.goto t (.syncing fd n)
  | .freeing fd =>
    if (3 ≤ fd.toInt ∧ fd.toInt < vfsMaxFd) ∧ (st.file fd.toInt.toNat).node ≠ none then
      st.goto t (.clear fd.toInt.toNat)
    else st.goto t (.returned 0)
  | .clear fd =>
    ((st.setFile fd { st.file fd with node := none }).record (.closed fd)).goto t (.clearOffset fd)
  | .clearOffset fd => (st.setFile fd { st.file fd with offset := 0 }).goto t (.clearFlags fd)
  | .clearFlags fd => (st.setFile fd { st.file fd with flags := 0 }).goto t (.returned 0)
  | _ => st

/-- The effect of a step; a step that the thread is not ready for changes nothing. -/
def step (st : FdState N) : FdCall N → Except Fault (FdState N)
  | .openRequest t path flags =>
    match st.pc t with
    | .idle | .returned _ =>
      if path = none ∨ flags &&& oAccmode = 0 then .ok (st.goto t (.returned (-1)))
      else .ok (st.goto t (.opening flags))
    | _ => .ok st
  | .closeRequest t fd =>
    match st.pc t with
    | .idle | .returned _ => .ok (st.goto t (.closing fd))
    | _ => .ok st
  | .resolve t found =>
    match st.pc t with
    | .opening _ =>
      match found with
      | .error err => .ok (st.goto t (.returned err))
      | .ok (n, flags) => .ok (st.goto t (.scan n flags 3))
    | _ => .ok st
  | .sync t err =>
    match st.pc t with
    | .syncing fd _ =>
      if err ≠ 0 then .ok (st.goto t (.returned err)) else .ok (st.goto t (.freeing fd))
    | _ => .ok st
  | .run t => .ok (st.run t)

end FdState

/-- The runs of a server with `N` threads; no descriptor is open. -/
def fdRuns (N : ℕ) : Lts.System (FdState N) (FdCall N) Fault where
  init st := (∀ fd, (st.file fd).node = none) ∧ (∀ t, st.pc t = .idle) ∧ st.history = []
  step := FdState.step

/-- **Descriptors are exclusive**: between two opens that are given a descriptor, a close has
cleared it, and the node of an open stays there until then. -/
structure FdState.Exclusive {N : ℕ} (st : FdState N) : Prop where
  between : ∀ fd n n' h₁ h₂ h₃,
    st.history = h₁ ++ .opened fd n :: (h₂ ++ .opened fd n' :: h₃) → .closed fd ∈ h₂
  kept : ∀ fd n h₁ h₂, st.history = h₁ ++ .opened fd n :: h₂ → .closed fd ∉ h₁ →
    (st.file fd).node = some n

/-- The thread is between the search for a descriptor and the store of the node. -/
def Pc.Choosing : Pc → Prop
  | .scan _ _ _ => True
  | .store _ _ _ => True
  | _ => False

instance (pc : Pc) : Decidable pc.Choosing := by
  cases pc <;> simp only [Pc.Choosing] <;> infer_instance

/-- An open begins its search for a descriptor while no other one is between its search and its
store. -/
def FdState.Apart {N : ℕ} (st : FdState N) : FdCall N → Prop
  | .resolve _ (.ok _) => ∀ u, ¬ (st.pc u).Choosing
  | _ => True

instance {N : ℕ} (st : FdState N) (c : FdCall N) : Decidable (st.Apart c) := by
  unfold FdState.Apart
  split <;> infer_instance

/-! ## A thread alone -/

namespace FdState

variable {N : ℕ} {δ : Type} {t : Fin N} {n : ℕ} {flags : UInt32}

theorem goto_goto (st : FdState N) (pc pc' : Pc) : (st.goto t pc).goto t pc' = st.goto t pc' := by
  simp only [goto, update_idem]

theorem scan_alone (m : ℕ) :
    ∀ (st : FdState N) (i : ℕ), i + m = vfsMaxFd → st.pc t = .scan n flags i →
      ∃ k, (fun s => s.run t)^[k] st =
        match (List.range' i m).find? fun i => (st.file i).node = none with
        | none => st.goto t (.returned (-1))
        | some fd => st.goto t (.store n flags fd) := by
  induction m with
  | zero =>
    intro st i hi hpc
    refine ⟨1, ?_⟩
    simp only [Function.iterate_one, FdState.run, hpc, List.range'_zero, List.find?_nil]
    exact if_pos (by omega)
  | succ m ih =>
    intro st i hi hpc
    have hlt : ¬ vfsMaxFd ≤ i := by omega
    by_cases hnode : (st.file i).node = none
    · refine ⟨1, ?_⟩
      simp [FdState.run, hpc, hlt, hnode, List.range'_succ]
    · obtain ⟨k, hk⟩ := ih (st.goto t (.scan n flags (i + 1))) (i + 1) (by omega)
        (update_self _ _ _)
      refine ⟨k + 1, ?_⟩
      have hrun : st.run t = st.goto t (.scan n flags (i + 1)) := by
        simp [FdState.run, hpc, hlt, hnode]
      have hfind : ((i :: List.range' (i + 1) m).find? fun i => (st.file i).node = none) =
          (List.range' (i + 1) m).find? fun i => (st.file i).node = none := by
        simp [hnode]
      simp only [Function.iterate_succ_apply, hrun, hk, goto_goto, List.range'_succ, hfind]
      rfl

/-- **A thread that is not interrupted opens a file as `vfsOpen` does**: it is given the descriptor
of `vfsFdAlloc`, whose entry is set. -/
theorem open_alone (st : FdState N) (server : Server δ) (hfile : server.file = st.file)
    (hpc : st.pc t = .scan n flags 3) :
    ∃ k, (fun s => s.run t)^[k] st =
      match vfsFdAlloc server with
      | none => st.goto t (.returned (-1))
      | some fd => (({ st with file := (server.setFile fd ⟨some n, 0, flags⟩).file }).record
          (.opened fd n)).goto t (.returned (Int32.ofNat fd)) := by
  obtain ⟨k, hk⟩ := scan_alone (vfsMaxFd - 3) st 3 (by decide) hpc
  rw [vfsFdAlloc, hfile]
  cases hfound : (List.range' 3 (vfsMaxFd - 3)).find? fun i => (st.file i).node = none with
  | none =>
    refine ⟨k, ?_⟩
    rw [hk, hfound]
  | some fd =>
    refine ⟨3 + k, ?_⟩
    rw [Function.iterate_add_apply, hk, hfound]
    -- the three stores
    simp [FdState.run, goto, record, FdState.setFile, Server.setFile, hfile]

/-- The first descriptor is given to the only thread. -/
theorem open_alone_first : ∃ k, ((fun s => s.run 0)^[k] (⟨fun _ => ⟨none, 0, 0⟩,
    fun _ => .scan 10 1 3, []⟩ : FdState 1)).history = [.opened 3 10] := by
  obtain ⟨k, hk⟩ := open_alone (N := 1) (t := 0) ⟨fun _ => ⟨none, 0, 0⟩, fun _ => .scan 10 1 3, []⟩
    ⟨Vfs.empty, fun _ => ⟨false, 0, 0, 0, 0, 0, 0⟩, fun _ => 0, fun _ => ⟨none, 0, 0⟩, ()⟩ rfl rfl
  exact ⟨k, by rw [hk]; rfl⟩

end FdState

/-! ## Histories -/

/-- The node that the events leave in a descriptor. -/
def lastNode (fd : ℕ) : List FdEvent → Option ℕ
  | [] => none
  | .opened fd' n :: h => if fd' = fd then some n else lastNode fd h
  | .closed fd' :: h => if fd' = fd then none else lastNode fd h

/-- Every open was given a descriptor without a node. -/
def Alternates (history : List FdEvent) : Prop :=
  ∀ h₁ fd n h₂, history = h₁ ++ .opened fd n :: h₂ → lastNode fd h₂ = none

variable {h' : List FdEvent} {fd n : ℕ}

theorem closed_mem_of_lastNode (h : List FdEvent)
    (hnone : lastNode fd (h ++ .opened fd n :: h') = none) : .closed fd ∈ h := by
  induction h with
  | nil => simp [lastNode] at hnone
  | cons e h ih =>
    cases e with
    | opened fd' n' =>
      rw [List.cons_append, lastNode] at hnone
      split_ifs at hnone
      exact List.mem_cons_of_mem _ (ih hnone)
    | closed fd' =>
      rw [List.cons_append, lastNode] at hnone
      split_ifs at hnone with heq
      · rw [heq]
        exact List.mem_cons_self
      · exact List.mem_cons_of_mem _ (ih hnone)

theorem Alternates.lastNode_eq (h : List FdEvent) (halt : Alternates (h ++ .opened fd n :: h'))
    (hclosed : .closed fd ∉ h) :
    lastNode fd (h ++ .opened fd n :: h') = some n := by
  induction h with
  | nil => simp [lastNode]
  | cons e h ih =>
    rw [List.mem_cons, not_or] at hclosed
    have hrest : Alternates (h ++ .opened fd n :: h') := by
      intro h₁ fd' n' h₂ heq
      exact halt (e :: h₁) fd' n' h₂ (by rw [List.cons_append, List.cons_append, heq])
    have hlast := ih hrest hclosed.2
    cases e with
    | opened fd' n' =>
      rw [List.cons_append, lastNode, if_neg, hlast]
      rintro rfl
      have hempty := halt [] fd' n' (h ++ .opened fd' n :: h') rfl
      rw [hempty] at hlast
      cases hlast
    | closed fd' =>
      rw [List.cons_append, lastNode, if_neg, hlast]
      rintro rfl
      exact hclosed.1 rfl

theorem Alternates.cons {e : FdEvent} {h : List FdEvent} (halt : Alternates h)
    (he : ∀ fd n, e = .opened fd n → lastNode fd h = none) : Alternates (e :: h) := by
  intro h₁ fd n h₂ heq
  cases h₁ with
  | nil =>
    obtain ⟨rfl, rfl⟩ := List.cons.inj heq
    exact he fd n rfl
  | cons e' h₁ => exact halt h₁ fd n h₂ (List.cons.inj heq).2

/-! ## The invariant -/

namespace FdState

variable {N : ℕ} {st st' : FdState N} {t : Fin N}

/-- The descriptors are as the history says, and the thread that chooses a descriptor, of which
there is one at most, has found it empty. -/
structure Inv (st : FdState N) : Prop where
  node : ∀ fd, (st.file fd).node = lastNode fd st.history
  alternates : Alternates st.history
  single : ∀ t u, (st.pc t).Choosing → (st.pc u).Choosing → t = u
  free : ∀ t n flags fd, st.pc t = .store n flags fd → (st.file fd).node = none

theorem Inv.goto (h : st.Inv) {pc : Pc} (hpc : pc.Choosing → (st.pc t).Choosing)
    (hstore : ∀ n flags fd, pc = .store n flags fd → (st.file fd).node = none) :
    (st.goto t pc).Inv := by
  have hchoosing : ∀ u, ((st.goto t pc).pc u).Choosing → (st.pc u).Choosing := by
    intro u hu
    by_cases hut : u = t
    · subst hut
      refine hpc ?_
      simpa [FdState.goto] using hu
    · simpa [FdState.goto, hut] using hu
  refine ⟨h.node, h.alternates, fun u w hu hw => h.single u w (hchoosing u hu) (hchoosing w hw),
    fun u n flags fd hu => ?_⟩
  by_cases hut : u = t
  · subst hut
    exact hstore n flags fd (by simpa [FdState.goto] using hu)
  · exact h.free u n flags fd (by simpa [FdState.goto, hut] using hu)

theorem Inv.setFile (h : st.Inv) {f : File} (hnode : f.node = (st.file fd).node) :
    (st.setFile fd f).Inv := by
  have hsame : ∀ fd', ((st.setFile fd f).file fd').node = (st.file fd').node := by
    intro fd'
    simp only [FdState.setFile]
    by_cases heq : fd' = fd
    · rw [heq, update_self, hnode]
    · rw [update_of_ne heq]
  refine ⟨fun fd' => (hsame fd').trans (h.node fd'), h.alternates, h.single, ?_⟩
  intro u n flags fd' hu
  exact (hsame fd').trans (h.free u n flags fd' hu)

theorem Inv.store (h : st.Inv) {flags : UInt32} (hpc : st.pc t = .store n flags fd) :
    (((st.setFile fd { st.file fd with node := some n }).record (.opened fd n)).goto t
      (.storeOffset flags fd)).Inv := by
  have hother : ∀ u, ((update st.pc t (.storeOffset flags fd)) u).Choosing → False := by
    intro u hu
    by_cases hut : u = t
    · rw [hut, update_self] at hu
      exact hu
    · rw [update_of_ne hut] at hu
      exact hut (h.single u t hu (by rw [hpc]; trivial))
  refine ⟨fun fd' => ?_, ?_, fun u w hu _ => (hother u hu).elim, fun u n' flags' fd' hu => ?_⟩
  · simp only [FdState.goto, FdState.record, FdState.setFile, lastNode]
    by_cases heq : fd' = fd
    · rw [heq, update_self, if_pos rfl]
    · rw [update_of_ne heq, if_neg (Ne.symm heq)]
      exact h.node fd'
  · refine h.alternates.cons fun fd' n' he => ?_
    cases he
    rw [← h.node fd]
    exact h.free t n flags fd hpc
  · refine (hother u ?_).elim
    simp only [FdState.goto, FdState.record, FdState.setFile] at hu
    rw [hu]
    trivial

theorem Inv.clear (h : st.Inv) (fd : ℕ) :
    ((st.setFile fd { st.file fd with node := none }).record (.closed fd)).Inv := by
  refine ⟨fun fd' => ?_, ?_, h.single, fun u n' flags' fd' hu => ?_⟩
  · simp only [FdState.record, FdState.setFile, lastNode]
    by_cases heq : fd' = fd
    · rw [heq, update_self, if_pos rfl]
    · rw [update_of_ne heq, if_neg (Ne.symm heq)]
      exact h.node fd'
  · exact h.alternates.cons fun fd' n' he => nomatch he
  · simp only [FdState.record, FdState.setFile] at hu ⊢
    by_cases heq : fd' = fd
    · rw [heq, update_self]
    · rw [update_of_ne heq]
      exact h.free u n' flags' fd' hu

theorem Inv.run (h : st.Inv) (t : Fin N) : (st.run t).Inv := by
  -- Statements that leave a thread neither choosing nor about to store are all alike.
  have hleave : ∀ {s : FdState N} {pc : Pc}, s.Inv → ¬ pc.Choosing → (s.goto t pc).Inv := by
    intro s pc hs hpc
    refine hs.goto (fun hc => absurd hc hpc) fun n flags fd heq => ?_
    rw [heq] at hpc
    exact absurd trivial hpc
  unfold FdState.run
  cases hpc : st.pc t with
  | idle => exact h
  | opening flags => exact h
  | scan n flags i =>
    have hchoosing : (st.pc t).Choosing := by
      rw [hpc]
      trivial
    dsimp only
    split_ifs with hmax hnode
    · exact hleave h not_false
    · refine h.goto (fun _ => hchoosing) fun n' flags' fd heq => ?_
      cases heq
      exact hnode
    · exact h.goto (fun _ => hchoosing) fun n' flags' fd heq => nomatch heq
  | store n flags fd => exact h.store hpc
  | storeOffset flags fd => exact hleave (h.setFile rfl) not_false
  | storeFlags flags fd => exact hleave (h.setFile rfl) not_false
  | closing fd =>
    dsimp only
    split
    · exact hleave h not_false
    · split
      · exact hleave h not_false
      · exact hleave h not_false
  | syncing fd n => exact h
  | freeing fd =>
    dsimp only
    split_ifs
    · exact hleave h not_false
    · exact hleave h not_false
  | clear fd => exact hleave (h.clear fd) not_false
  | clearOffset fd => exact hleave (h.setFile rfl) not_false
  | clearFlags fd => exact hleave (h.setFile rfl) not_false
  | returned r => exact h

theorem Inv.resolve (h : st.Inv) (halone : ∀ u, ¬ (st.pc u).Choosing) (n : ℕ) (flags : UInt32) :
    (st.goto t (.scan n flags 3)).Inv := by
  have honly : ∀ u, ((st.goto t (.scan n flags 3)).pc u).Choosing → u = t := by
    intro u hu
    by_contra hut
    simp only [FdState.goto, update_of_ne hut] at hu
    exact halone u hu
  refine ⟨h.node, h.alternates, fun u w hu hw => (honly u hu).trans (honly w hw).symm, ?_⟩
  intro u n' flags' fd hu
  obtain rfl := honly u (by rw [hu]; trivial)
  simp [FdState.goto] at hu

theorem Inv.step (h : st.Inv) {c : FdCall N} (hapart : st.Apart c)
    (hstep : st.step c = .ok st') : st'.Inv := by
  have hleave : ∀ (t : Fin N) {pc : Pc}, ¬ pc.Choosing → (st.goto t pc).Inv := by
    intro t pc hpc
    refine h.goto (fun hc => absurd hc hpc) fun n flags fd heq => ?_
    rw [heq] at hpc
    exact absurd trivial hpc
  cases c with
  | openRequest t path flags =>
    unfold FdState.step at hstep
    dsimp only at hstep
    split at hstep <;> try split_ifs at hstep
    all_goals cases hstep
    all_goals first | exact h | exact hleave t not_false
  | closeRequest t fd =>
    unfold FdState.step at hstep
    dsimp only at hstep
    split at hstep
    all_goals cases hstep
    all_goals first | exact h | exact hleave t not_false
  | resolve t found =>
    unfold FdState.step at hstep
    dsimp only at hstep
    split at hstep
    · cases found with
      | error err =>
        cases hstep
        exact hleave t not_false
      | ok found =>
        obtain ⟨n, flags⟩ := found
        cases hstep
        exact h.resolve hapart n flags
    · cases hstep
      exact h
  | sync t err =>
    unfold FdState.step at hstep
    dsimp only at hstep
    split at hstep <;> try split_ifs at hstep
    all_goals cases hstep
    all_goals first | exact h | exact hleave t not_false
  | run t =>
    cases hstep
    exact h.run t

theorem Inv.exclusive (h : st.Inv) : st.Exclusive where
  between fd n n' h₁ h₂ h₃ heq := closed_mem_of_lastNode h₂ (h.alternates h₁ fd n _ heq)
  kept fd n h₁ h₂ heq hclosed := by
    have halt := h.alternates
    rw [heq] at halt
    rw [h.node fd, heq]
    exact halt.lastNode_eq h₁ hclosed

end FdState

/-- **Descriptors are exclusive in every run** in which an open begins its search while no other
one is between its search and its store. -/
theorem fdRuns_exclusive (N : ℕ) (st : FdState N) (hr : (fdRuns N).ReachableVia FdState.Apart st) :
    st.Exclusive := by
  refine (hr.invariant (I := FdState.Inv) ?_ ?_).exclusive
  · rintro st ⟨hfile, hpc, hhistory⟩
    refine ⟨fun fd => ?_, ?_, fun t u ht _ => ?_, fun t n flags fd ht => ?_⟩
    · rw [hfile fd, hhistory, lastNode]
    · rw [hhistory]
      intro h₁ fd n h₂ heq
      simp at heq
    · rw [hpc t] at ht
      exact ht.elim
    · rw [hpc t] at ht
      cases ht
  · intro st c st' hinv hapart hstep
    exact hinv.step hapart hstep

/-- A server whose threads are idle. -/
def idleServer (N : ℕ) : FdState N where
  file := fun _ => ⟨none, 0, 0⟩
  pc := fun _ => .idle
  history := []

/-- The theorem applies to a run in which two threads open and one of them closes. -/
theorem fdRuns_exclusive_reopened :
    ∃ st, (fdRuns 2).ReachableVia FdState.Apart st ∧
      st.history = [.opened 3 11, .closed 3, .opened 3 10] ∧ st.Exclusive := by
  obtain ⟨st, hr, hst⟩ := Lts.System.exists_reachableVia (M := fdRuns 2) FdState.Apart
    (s := idleServer 2) (P := fun st => st.history = [.opened 3 11, .closed 3, .opened 3 10])
    [.openRequest 0 (some ['/']) 1, .openRequest 1 (some ['/']) 1, .resolve 0 (.ok (10, 1)), .run 0,
      .run 0, .run 0, .run 0, .closeRequest 0 3, .run 0, .sync 0 0, .run 0, .run 0,
      .resolve 1 (.ok (11, 1)), .run 1, .run 1]
    ⟨fun _ => rfl, fun _ => rfl, rfl⟩ (by decide +kernel)
  exact ⟨st, hr, hst, fdRuns_exclusive 2 st hr⟩

/-- Two opens find the same descriptor empty and both return it; the node of the first is
overwritten. -/
theorem fdRuns_shared :
    ∃ st, (fdRuns 2).Reachable st ∧ st.history = [.opened 3 11, .opened 3 10] ∧
      st.pc 0 = .returned 3 ∧ st.pc 1 = .returned 3 ∧ (st.file 3).node = some 11 :=
  Lts.System.exists_reachableVia (M := fdRuns 2) (fun _ _ => True) (s := idleServer 2)
    (P := fun st => st.history = [.opened 3 11, .opened 3 10] ∧
      st.pc 0 = .returned 3 ∧ st.pc 1 = .returned 3 ∧ (st.file 3).node = some 11)
    [.openRequest 0 (some ['/']) 1, .openRequest 1 (some ['/']) 1, .resolve 0 (.ok (10, 1)),
      .resolve 1 (.ok (11, 1)), .run 0, .run 1, .run 0, .run 1, .run 0, .run 0, .run 1, .run 1]
    ⟨fun _ => rfl, fun _ => rfl, rfl⟩ (by decide +kernel)

end Ginkgo.Fs
