import Ginkgo.Machine
import Mathlib.Data.List.Nodup
import Mathlib.Logic.Function.Basic

/-!
# Threads and the scheduler

The model of `core/sched.c` and of the scheduling part of `core/thread.c`.  A thread is known by
its address.  Of a `thread_t` the scheduler uses the status and the node on the ready list; the
kernel mutexes and semaphores use the node `mlist`.

The ready list is an intrusive list.  Inserting a node that is linked, or initialising one, leaves
its old neighbours with dangling links; both are modelled as a bad access.

## Main results

* `schedule_moves`, `threadSuspend_moves`,
  `threadDestroy_moves`, `threadResume_moves` — what each function does in
  a consistent state.
* `Sched.Ok.call` — the same for any of these calls.
-/

namespace Ginkgo.Core

open Function (update update_of_ne)

/-- `enum task_status_t`. -/
inductive TaskStatus
  | running
  | ready
  | suspend
  | exit
deriving DecidableEq, Repr

/-- The scheduler and what it keeps of the threads. -/
structure Sched where
  /-- `thread_self()`. -/
  current : ℕ
  /-- The ready list. -/
  ready : List ℕ
  /-- `thread->status`. -/
  status : ℕ → TaskStatus
  /-- The node `thread->mlist` is linked into a wait list. -/
  mlist : ℕ → Bool

namespace Sched

/-- Set the status of a thread. -/
def setStatus (s : Sched) (t : ℕ) (st : TaskStatus) : Sched :=
  { s with status := update s.status t st }

/-- Link or unlink the node `mlist` of a thread. -/
def setMlist (s : Sched) (t : ℕ) (b : Bool) : Sched :=
  { s with mlist := update s.mlist t b }

end Sched

/-! ## The functions of the source -/

/-- `do_task_init`, with the first thread at `idle`.  A thread that has not been created is as
`thread_create` leaves it. -/
def doTaskInit (idle : ℕ) : Sched where
  current := idle
  ready := []
  status := update (fun _ => .suspend) idle .running
  mlist _ := false

/-- `scheduler_enqueue_task`. -/
def schedulerEnqueueTask (s : Sched) (t : ℕ) : Except Fault Sched := do
  access (t ∉ s.ready)
  return { s with ready := s.ready ++ [t] }

/-- `scheduler_dequeue_task`. -/
def schedulerDequeueTask (s : Sched) (t : ℕ) : Sched :=
  { s with ready := s.ready.erase t }

/-- `init_list_head(&current->ready_queue_node)`. -/
def initReadyQueueNode (s : Sched) : Except Fault Sched := do
  access (s.current ∉ s.ready)
  return s

/-- `schedule_to`. -/
def scheduleTo (s : Sched) (t : ℕ) : Except Fault Sched := do
  let s ← initReadyQueueNode (s.setStatus s.current .suspend)
  return ({ s with current := t }).setStatus t .running

/-- `schedule`. -/
def schedule (s : Sched) : Except Fault Sched := do
  let s ←
    if s.status s.current = .suspend ∨ s.status s.current = .exit then initReadyQueueNode s
    else schedulerEnqueueTask s s.current
  match s.ready with
  | [] => throw .panic -- empty thread list
  | t :: _ =>
    let s := schedulerDequeueTask s t
    return ({ s with current := t }).setStatus t .running

/-- `thread_destroy` of the current thread, up to the switch to another thread. -/
def threadDestroy (s : Sched) : Except Fault Sched :=
  schedule (s.setStatus s.current .exit)

/-- `thread_resume`. -/
def threadResume (s : Sched) (t : ℕ) : Except Fault Sched :=
  if s.status t = .suspend then schedulerEnqueueTask (s.setStatus t .ready) t else .ok s

/-- `thread_suspend`. -/
def threadSuspend (s : Sched) (t : ℕ) : Except Fault Sched :=
  if s.status t = .ready then .ok (schedulerDequeueTask (s.setStatus t .suspend) t)
  else if s.status t = .running then schedule (s.setStatus t .suspend)
  else .ok s

/-- `sys_yield`. -/
def sysYield (s : Sched) : Except Fault Sched := threadSuspend s s.current

/-! ## Consistency -/

/-- The current thread and the ready list are consistent with the statuses as far as every
function of the scheduler keeps them so. -/
structure Sched.Ok (s : Sched) : Prop where
  running : s.status s.current = .running
  current : s.current ∉ s.ready
  nodup : s.ready.Nodup
  ready : ∀ t ∈ s.ready, s.status t = .ready ∨ s.status t = .running

theorem doTaskInit_ok (idle : ℕ) : (doTaskInit idle).Ok where
  running := by simp [doTaskInit]
  current := by simp [doTaskInit]
  nodup := by simp [doTaskInit]
  ready := by simp [doTaskInit]

namespace Sched.Ok

variable {s : Sched} {t : ℕ}

theorem not_mem_of_suspend (h : s.Ok) (ht : s.status t = .suspend) : t ∉ s.ready := by
  intro hmem
  cases h.ready t hmem with
  | inl hr => simp [ht] at hr
  | inr hr => simp [ht] at hr

theorem ne_current_of_suspend (h : s.Ok) (ht : s.status t = .suspend) : t ≠ s.current := by
  intro he
  rw [he, h.running] at ht
  cases ht

theorem setMlist (h : s.Ok) (t : ℕ) (b : Bool) : (s.setMlist t b).Ok :=
  ⟨h.running, h.current, h.nodup, h.ready⟩

end Sched.Ok

variable {s : Sched} {t : ℕ} {rest : List ℕ}

/-! ## One equation for each function -/

theorem threadResume_suspend (h : s.Ok) (ht : s.status t = .suspend) :
    threadResume s t = .ok { s with
      ready := s.ready ++ [t]
      status := update s.status t .ready } := by
  have hnot : t ∉ (s.setStatus t .ready).ready := h.not_mem_of_suspend ht
  rw [threadResume, if_pos ht, schedulerEnqueueTask, access_pos hnot, Fallible.ok_bind]
  rfl

theorem threadResume_of_ne (ht : s.status t ≠ .suspend) : threadResume s t = .ok s := by
  rw [threadResume, if_neg ht]

theorem threadResume_ok (h : s.Ok) (ht : s.status t = .suspend) :
    Sched.Ok { s with
      ready := s.ready ++ [t]
      status := update s.status t .ready } where
  running := by
    dsimp only
    rw [update_of_ne (h.ne_current_of_suspend ht).symm]
    exact h.running
  current := by
    have hne := h.ne_current_of_suspend ht
    simp [h.current, hne.symm]
  nodup := by
    have hnot := h.not_mem_of_suspend ht
    simpa [List.nodup_append, h.nodup] using fun a ha => ne_of_mem_of_not_mem ha hnot
  ready := by
    intro u hu
    dsimp only at hu ⊢
    by_cases hut : u = t
    · simp [hut]
    · rw [update_of_ne hut]
      exact h.ready u (by simpa [hut] using hu)

theorem schedule_nil (h : s.Ok) (hr : s.ready = []) : schedule s = .ok s := by
  have hst : ¬ (s.status s.current = .suspend ∨ s.status s.current = .exit) := by
    simp [h.running]
  rw [schedule, if_neg hst, schedulerEnqueueTask, access_pos h.current, Fallible.ok_bind]
  obtain ⟨current, ready, status, mlist⟩ := s
  obtain rfl : ready = [] := hr
  have hsame : update status current .running = status :=
    Function.update_eq_self_iff.mpr h.running.symm
  simp only [pure_bind, List.nil_append, schedulerDequeueTask, List.erase_cons_head,
    Sched.setStatus, hsame]
  rfl

theorem schedule_cons (h : s.Ok) (hr : s.ready = t :: rest) :
    schedule s = .ok { s with
      current := t
      ready := rest ++ [s.current]
      status := update s.status t .running } := by
  have hst : ¬ (s.status s.current = .suspend ∨ s.status s.current = .exit) := by
    simp [h.running]
  rw [schedule, if_neg hst, schedulerEnqueueTask, access_pos h.current, Fallible.ok_bind]
  simp only [pure_bind, hr, List.cons_append, schedulerDequeueTask, List.erase_cons_head,
    Sched.setStatus]
  rfl

theorem schedule_ok (h : s.Ok) (hr : s.ready = t :: rest) :
    Sched.Ok { s with
      current := t
      ready := rest ++ [s.current]
      status := update s.status t .running } := by
  have hnodup := h.nodup
  have hcur := h.current
  rw [hr, List.nodup_cons] at hnodup
  rw [hr, List.mem_cons, not_or] at hcur
  refine ⟨by simp, ?_, ?_, ?_⟩
  · simpa [hnodup.1] using Ne.symm hcur.1
  · simpa [List.nodup_append, hnodup.2] using fun a ha => ne_of_mem_of_not_mem ha hcur.2
  · intro u hu
    dsimp only at hu ⊢
    by_cases hut : u = t
    · simp [hut]
    · rw [update_of_ne hut]
      rcases List.mem_append.mp hu with hu | hu
      · exact h.ready u (by simp [hr, hu])
      · rw [List.mem_singleton.mp hu]
        exact Or.inr h.running

/-- The state after the current thread stopped with status `st` and `t` runs. -/
def Sched.leave (s : Sched) (st : TaskStatus) (t : ℕ) (rest : List ℕ) : Sched :=
  { s with
    current := t
    ready := rest
    status := update (update s.status s.current st) t .running }

theorem Sched.Ok.suspend_leave (h : s.Ok) {u : ℕ} (hu : s.status u = .suspend) (hne : u ≠ t)
    (st : TaskStatus) : (s.leave st t rest).status u = .suspend := by
  rw [Sched.leave]
  dsimp only
  rwa [update_of_ne hne, update_of_ne (h.ne_current_of_suspend hu)]

theorem schedule_setStatus (h : s.Ok) {st : TaskStatus} (hst : st = .suspend ∨ st = .exit) :
    schedule (s.setStatus s.current st) =
      match s.ready with
      | [] => .error .panic
      | t :: rest => .ok (s.leave st t rest) := by
  have hcond : (s.setStatus s.current st).status (s.setStatus s.current st).current = .suspend ∨
      (s.setStatus s.current st).status (s.setStatus s.current st).current = .exit := by
    simpa [Sched.setStatus] using hst
  have hnot : (s.setStatus s.current st).current ∉ (s.setStatus s.current st).ready := h.current
  rw [schedule, if_pos hcond, initReadyQueueNode, access_pos hnot, Fallible.ok_bind]
  cases hr : s.ready with
  | nil =>
    simp only [pure_bind, Sched.setStatus, hr]
    rfl
  | cons t rest =>
    simp only [pure_bind, Sched.setStatus, hr, schedulerDequeueTask, List.erase_cons_head]
    rfl

theorem Sched.Ok.leave (h : s.Ok) (st : TaskStatus) (hr : s.ready = t :: rest) :
    (s.leave st t rest).Ok := by
  have hnodup := h.nodup
  have hcur := h.current
  rw [hr, List.nodup_cons] at hnodup
  rw [hr, List.mem_cons, not_or] at hcur
  refine ⟨by simp [Sched.leave], hnodup.1, hnodup.2, ?_⟩
  intro u hu
  have hut : u ≠ t := ne_of_mem_of_not_mem hu hnodup.1
  have huc : u ≠ s.current := ne_of_mem_of_not_mem hu hcur.2
  rw [Sched.leave]
  dsimp only
  rw [update_of_ne hut, update_of_ne huc]
  exact h.ready u (by rw [hr]; exact List.mem_cons_of_mem t hu)

theorem scheduleTo_eq_ok {s' : Sched} :
    scheduleTo s t = .ok s' ↔ s.current ∉ s.ready ∧ s' = s.leave .suspend t s.ready := by
  simp only [scheduleTo, initReadyQueueNode, Fallible.bind_eq_ok, access_eq_ok, pure, Except.pure,
    Except.ok.injEq]
  constructor
  · rintro ⟨-, ⟨-, hcur, rfl⟩, rfl⟩
    exact ⟨hcur, rfl⟩
  · rintro ⟨hcur, rfl⟩
    exact ⟨_, ⟨(), hcur, rfl⟩, rfl⟩

theorem Sched.Ok.handOver (h : s.Ok) (ht : s.status t = .suspend) :
    (s.leave .suspend t s.ready).Ok := by
  refine ⟨by simp [Sched.leave], h.not_mem_of_suspend ht, h.nodup, fun u hu => ?_⟩
  have hut : u ≠ t := ne_of_mem_of_not_mem hu (h.not_mem_of_suspend ht)
  have huc : u ≠ s.current := ne_of_mem_of_not_mem hu h.current
  rw [Sched.leave]
  dsimp only
  rw [update_of_ne hut, update_of_ne huc]
  exact h.ready u hu

theorem threadSuspend_current (h : s.Ok) (hr : s.ready = t :: rest) :
    threadSuspend s s.current = .ok (s.leave .suspend t rest) := by
  rw [threadSuspend, if_neg (by simp [h.running]), if_pos h.running]
  rw [schedule_setStatus h (Or.inl rfl), hr]

theorem threadSuspend_current_nil (h : s.Ok) (hr : s.ready = []) :
    threadSuspend s s.current = .error .panic := by
  rw [threadSuspend, if_neg (by simp [h.running]), if_pos h.running]
  rw [schedule_setStatus h (Or.inl rfl), hr]

/-! ## What a call does to the other threads -/

/-- The threads that can run: the current one and those on the ready list. -/
def Sched.runnable (s : Sched) : List ℕ := s.current :: s.ready

/-- The effect of a scheduler call on the threads as a whole: the threads `leaves` can no longer
run, the threads `enters` can, and no other thread is affected. -/
structure Sched.Moves (s s' : Sched) (leaves enters : List ℕ) : Prop where
  ok : s'.Ok
  mlist : s'.mlist = s.mlist
  runnable : (s.runnable ++ enters).Perm (leaves ++ s'.runnable)
  suspend : ∀ u, u ∉ enters → s.status u = .suspend → s'.status u = .suspend

namespace Sched.Moves

variable {s' : Sched} {leaves enters : List ℕ} {u : ℕ}

theorem mem (h : s.Moves s' leaves enters) (hu : u ∈ s.runnable) (hl : u ∉ leaves) :
    u ∈ s'.runnable := by
  have hmem := h.runnable.subset (List.mem_append_left enters hu)
  exact (List.mem_append.mp hmem).resolve_left hl

theorem mem_enters (h : s.Moves s' leaves enters) (hu : u ∈ enters) (hl : u ∉ leaves) :
    u ∈ s'.runnable := by
  have hmem := h.runnable.subset (List.mem_append_right s.runnable hu)
  exact (List.mem_append.mp hmem).resolve_left hl

end Sched.Moves

theorem Sched.Ok.refl_moves (h : s.Ok) : s.Moves s [] [] :=
  ⟨h, rfl, by simp, fun _ _ hu => hu⟩

/-- **`schedule`** by a running thread blocks no thread. -/
theorem schedule_moves (h : s.Ok) : ∃ s', schedule s = .ok s' ∧ s.Moves s' [] [] := by
  cases hr : s.ready with
  | nil => exact ⟨s, schedule_nil h hr, h.refl_moves⟩
  | cons t rest =>
    refine ⟨_, schedule_cons h hr, schedule_ok h hr, rfl, ?_, ?_⟩
    · simp only [Sched.runnable, hr, List.append_nil, List.nil_append]
      exact (List.perm_append_singleton s.current (t :: rest)).symm
    · intro u _ hu
      have hut : u ≠ t := by
        intro he
        exact h.not_mem_of_suspend hu (by simp [hr, he])
      dsimp only
      rwa [update_of_ne hut]

theorem leave_moves (h : s.Ok) (st : TaskStatus) (hr : s.ready = t :: rest) :
    s.Moves (s.leave st t rest) [s.current] [] := by
  refine ⟨h.leave st hr, rfl, by simp [Sched.runnable, Sched.leave, hr], ?_⟩
  intro u _ hu
  have hut : u ≠ t := by
    intro he
    exact h.not_mem_of_suspend hu (by simp [hr, he])
  exact h.suspend_leave hu hut st

/-- **`thread_suspend`** of the current thread stops the kernel, or blocks that thread only. -/
theorem threadSuspend_moves (h : s.Ok) :
    threadSuspend s s.current = .error .panic ∨
    ∃ s', threadSuspend s s.current = .ok s' ∧ s.Moves s' [s.current] [] ∧
      s'.status s.current = .suspend := by
  cases hr : s.ready with
  | nil => exact Or.inl (threadSuspend_current_nil h hr)
  | cons t rest =>
    refine Or.inr ⟨_, threadSuspend_current h hr, leave_moves h .suspend hr, ?_⟩
    have hne : s.current ≠ t := by
      intro he
      exact h.current (by simp [hr, he])
    simp [Sched.leave, hne]

/-- **`thread_destroy`** of the current thread stops the kernel, or ends that thread only. -/
theorem threadDestroy_moves (h : s.Ok) :
    threadDestroy s = .error .panic ∨
    ∃ s', threadDestroy s = .ok s' ∧ s.Moves s' [s.current] [] := by
  rw [threadDestroy, schedule_setStatus h (Or.inr rfl)]
  cases hr : s.ready with
  | nil => exact Or.inl rfl
  | cons t rest => exact Or.inr ⟨_, rfl, leave_moves h .exit hr⟩

/-- **`thread_resume`** makes a suspended thread ready. -/
theorem threadResume_moves (h : s.Ok) (ht : s.status t = .suspend) :
    ∃ s', threadResume s t = .ok s' ∧ s.Moves s' [] [t] ∧ s'.current = s.current ∧
      s'.ready = s.ready ++ [t] ∧ s'.status = update s.status t .ready := by
  refine ⟨_, threadResume_suspend h ht, ⟨threadResume_ok h ht, rfl, ?_, ?_⟩, rfl, rfl, rfl⟩
  · simp [Sched.runnable]
  · intro u hu hs
    dsimp only
    rwa [update_of_ne (by simpa using hu)]

/-! ## The other activities of the threads -/

/-- What threads do besides using a particular synchronisation object. -/
inductive ThreadCall
  /-- The current thread is preempted, or calls `schedule`. -/
  | schedule
  /-- The current thread blocks in `thread_suspend`. -/
  | suspend
  /-- A thread is started or woken by `thread_resume`. -/
  | resume (t : ℕ)
  /-- The current thread ends. -/
  | exit
deriving DecidableEq, Repr

/-- The effect of such a call. -/
def Sched.call (s : Sched) : ThreadCall → Except Fault Sched
  | .schedule => Core.schedule s
  | .suspend => threadSuspend s s.current
  | .resume t => threadResume s t
  | .exit => threadDestroy s

/-- The threads that a call blocks. -/
def ThreadCall.leaves (s : Sched) : ThreadCall → List ℕ
  | .schedule => []
  | .suspend => [s.current]
  | .resume _ => []
  | .exit => [s.current]

/-- The threads that a call makes ready. -/
def ThreadCall.enters (s : Sched) : ThreadCall → List ℕ
  | .resume t => if s.status t = .suspend then [t] else []
  | _ => []

/-- The thread that a call is about: the one to be resumed, otherwise the current one. -/
def ThreadCall.subject (s : Sched) : ThreadCall → ℕ
  | .resume t => t
  | _ => s.current

theorem ThreadCall.eq_subject_of_leaves {c : ThreadCall} (h : t ∈ c.leaves s) :
    t = c.subject s := by
  cases c with
  | schedule => simp [leaves] at h
  | suspend => exact List.mem_singleton.mp h
  | resume u => simp [leaves] at h
  | exit => exact List.mem_singleton.mp h

theorem ThreadCall.eq_subject_of_enters {c : ThreadCall} (h : t ∈ c.enters s) :
    t = c.subject s := by
  cases c with
  | schedule => simp [enters] at h
  | suspend => simp [enters] at h
  | resume u =>
    simp only [enters] at h
    split_ifs at h with hu
    · exact List.mem_singleton.mp h
    · cases h
  | exit => simp [enters] at h

/-- **What a call does**, if it returns. -/
theorem Sched.Ok.call (h : s.Ok) {c : ThreadCall} {s' : Sched} (hc : s.call c = .ok s') :
    s.Moves s' (c.leaves s) (c.enters s) := by
  cases c with
  | schedule =>
    obtain ⟨s'', hs, hm⟩ := schedule_moves h
    obtain rfl : s'' = s' := Except.ok.inj (hs.symm.trans hc)
    exact hm
  | suspend =>
    rcases threadSuspend_moves h with hp | ⟨s'', hs, hm, -⟩
    · cases hp.symm.trans hc
    · obtain rfl : s'' = s' := Except.ok.inj (hs.symm.trans hc)
      exact hm
  | resume t =>
    by_cases ht : s.status t = .suspend
    · obtain ⟨s'', hs, hm, -⟩ := threadResume_moves h ht
      obtain rfl : s'' = s' := Except.ok.inj (hs.symm.trans hc)
      simpa [ThreadCall.leaves, ThreadCall.enters, ht] using hm
    · obtain rfl : s = s' := Except.ok.inj ((threadResume_of_ne ht).symm.trans hc)
      simpa [ThreadCall.leaves, ThreadCall.enters, ht] using h.refl_moves
  | exit =>
    rcases threadDestroy_moves h with hp | ⟨s'', hs, hm⟩
    · cases hp.symm.trans hc
    · obtain rfl : s'' = s' := Except.ok.inj (hs.symm.trans hc)
      exact hm

end Ginkgo.Core
