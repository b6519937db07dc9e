import Ginkgo.Core.Futex
import Ginkgo.Core.IpcCall
import Ginkgo.Core.Mutex
import Ginkgo.Core.Semaphore
import Ginkgo.Core.Timer

/-!
# Threads that block

The kernel as the threads see it: the scheduler with all the functions that block and resume
threads, over any number of mutexes, semaphores, futexes, sleep timers and connections.  A thread
that does not run must be found again: it is on the ready list, or whatever it waits for has a
record of it.

A thread that was not created yet is suspended, so that its creation is not a step.

## Main results

* `Sched.Effect` and its lemmas — what the functions of the scheduler do, in states
  that need not be consistent otherwise.
* `Threads.Inv.step` — what a step keeps.
* `threadRuns_noneLost` — no thread is lost in a run without `sys_yield`, in which only
  idle connections are called.
-/

namespace Ginkgo.Core

open Function (update update_self update_of_ne update_apply)
open Fallible (bind_eq_ok map_eq_ok)

/-! ## Sleeping -/

section

variable (B : SearchTree.Balance ℕ) (ce : ClockEvent)

/-- `sys_nanosleep`.  The sleep timer of a thread has the address of the thread.  Initialising a
timer that is in the tree leaves a dangling node, which is modelled as a bad access. -/
def sysNanosleep (s : Sched) (timers : TimerSys) (deadline : ℤ) (r₁ r₂ : Reading) :
    Except Fault (Sched × TimerSys) := do
  let self := s.current
  access ((timers.base.timer self).state = .inactive)
  let timers := { timers with base := timerInit timers.base self }
  let timers := timerStart B ce timers self deadline 0 r₁ r₂
  let s ← threadSuspend s self
  return (s, timers)

/-- One round of the loop of `timer_event_handler`, which was entered at `now`: the first sleep
timer is taken from the tree, and `sleep_callback` resumes its thread. -/
def sleepExpire (s : Sched) (timers : TimerSys) (now : ℤ) : Except Fault (Sched × TimerSys) :=
  match timers.base.next with
  | none => .ok (s, timers)
  | some t =>
    if now < (timers.base.timer t).expires then .ok (s, timers)
    else do
      let base := (delTimer B timers.base t).2.setState t .callback
      let s ← threadResume s t
      return (s, { timers with base := base.setState t .inactive })

end

/-! ## The transition system -/

/-- The threads and everything that they can wait for. -/
structure Threads where
  ipc : Ipc
  timers : TimerSys
  queues : FutexQueues
  /-- The address space of each thread. -/
  vmspace : ℕ → ℕ
  mutex : ℕ → Mutex
  sem : ℕ → Semaphore
  /-- The threads that were started: they have run, or were on the ready list. -/
  started : ℕ → Bool

/-- A step, of the current thread unless it says otherwise. -/
inductive ThreadsCall
  /-- A thread is resumed by `thread_resume`. -/
  | resume (t : ℕ)
  /-- Preemption. -/
  | preempt
  | yield
  | exit
  | nanosleep (deadline : ℤ) (r₁ r₂ : Reading)
  /-- The timer interrupt handles the first timer. -/
  | expire (now : ℤ)
  /-- `sys_futex_wait(uaddr, val)`, where the word holds `uval`. -/
  | futexWait (uaddr uval val : ℕ)
  | futexWake (uaddr : ℕ)
  /-- A pass of the loop of `mutex_lock` for the mutex at `a`. -/
  | mutexLock (a : ℕ)
  | mutexUnlock (a : ℕ)
  /-- A pass of the loop of `semaphore_down` for the semaphore at `a`. -/
  | semaphoreDown (a : ℕ)
  | semaphoreUp (a : ℕ)
  | ipcCall (c : ℕ)
  | ipcReturn (v : ℕ)

namespace Threads

/-- The scheduler. -/
def sched (st : Threads) : Sched := st.ipc.sched

/-- Set the scheduler. -/
def withSched (st : Threads) (s : Sched) : Threads := { st with ipc := { st.ipc with sched := s } }

/-- `get_futex_key`. -/
def key (st : Threads) (uaddr : ℕ) : FutexKey := ⟨st.vmspace st.sched.current, uaddr⟩

/-- The effect of a call. -/
def call (B : SearchTree.Balance ℕ) (ce : ClockEvent) (st : Threads) :
    ThreadsCall → Except Fault Threads
  | .resume t => do
    let s ← threadResume st.sched t
    return st.withSched s
  | .preempt => do
    let s ← schedule st.sched
    return st.withSched s
  | .yield => do
    let s ← sysYield st.sched
    return st.withSched s
  | .exit => do
    let s ← threadDestroy st.sched
    return st.withSched s
  | .nanosleep deadline r₁ r₂ => do
    let (s, timers) ← sysNanosleep B ce st.sched st.timers deadline r₁ r₂
    return { st.withSched s with timers := timers }
  | .expire now => do
    let (s, timers) ← sleepExpire B st.sched st.timers now
    return { st.withSched s with timers := timers }
  | .futexWait uaddr uval val => do
    let (_, s, queues) ← sysFutexWait st.sched st.queues (st.key uaddr) uval val
    return { st.withSched s with queues := queues }
  | .futexWake uaddr => do
    let (s, queues) ← sysFutexWake st.sched st.queues (st.key uaddr)
    return { st.withSched s with queues := queues }
  | .mutexLock a => do
    let (_, s, m) ← mutexTryLock st.sched (st.mutex a)
    return { st.withSched s with mutex := update st.mutex a m }
  | .mutexUnlock a => do
    let (s, m) ← mutexUnlock st.sched (st.mutex a)
    return { st.withSched s with mutex := update st.mutex a m }
  | .semaphoreDown a => do
    let (_, s, m) ← semaphoreTryDown st.sched (st.sem a)
    return { st.withSched s with sem := update st.sem a m }
  | .semaphoreUp a => do
    let (s, m) ← semaphoreUp st.sched (st.sem a)
    return { st.withSched s with sem := update st.sem a m }
  | .ipcCall c => do
    let ipc ← sysIpcCall st.ipc c
    return { st with ipc := ipc }
  | .ipcReturn v => do
    let ipc ← sysIpcReturn st.ipc v
    return { st with ipc := ipc }

/-- The threads that can run are started. -/
def marked (st : Threads) : Threads :=
  { st with started := fun t => st.started t || decide (t ∈ st.sched.runnable) }

/-- The state after `do_task_init`, with all locks initialised, no timers and no calls.  The
connections are those that will be made; their threads are suspended like all others. -/
structure Initial (idle : ℕ) (st : Threads) : Prop where
  sched : st.sched = doTaskInit idle
  active : ∀ t, st.ipc.activeConn t = none
  timers : st.timers = (TimerRun.initial st.timers.fire).sys
  queues : st.queues = doFutexInit
  mutex : ∀ a, st.mutex a = mutexInit
  sem : ∀ a, ∃ count, st.sem a = semaphoreInit count
  started : ∀ t, st.started t = decide (t = idle)

/-- The thread is on the wait list of a mutex or a semaphore. -/
def OnWaitList (st : Threads) (t : ℕ) : Prop :=
  (∃ a, t ∈ (st.mutex a).mwait) ∨ ∃ a, t ∈ (st.sem a).mwait

/-- The thread waits for a call of its connection to return: a server thread has the connection as
its active one. -/
def AwaitsReturn (st : Threads) (t : ℕ) : Prop :=
  ∃ c conn, st.ipc.conn c = some conn ∧ st.ipc.activeConn conn.target = some c ∧
    st.ipc.source c = some t

/-- The thread is the server thread of a connection, and has no active connection. -/
def AwaitsCall (st : Threads) (t : ℕ) : Prop :=
  ∃ c conn, st.ipc.conn c = some conn ∧ conn.target = t ∧ st.ipc.activeConn t = none

/-- **A thread is recorded as a waiter.** -/
inductive Recorded (st : Threads) (t : ℕ) : Prop
  | futex (i : ℕ) (e : FutexQ) (he : e ∈ (st.queues i).chain) (ht : e.task = t)
  | waitList (h : st.OnWaitList t)
  | sleep (h : (st.timers.base.timer t).state = .enqueued)
  | awaitsReturn (h : st.AwaitsReturn t)
  | awaitsCall (h : st.AwaitsCall t)

/-- **No thread is lost**: a thread that was started, has not exited and is not recorded as a waiter
is the current thread or on the ready list. -/
def NoneLost (st : Threads) : Prop :=
  ∀ t, st.started t = true → st.sched.status t ≠ .exit → ¬ st.Recorded t → t ∈ st.sched.runnable

/-- No thread calls `sys_yield`, and a connection is called only while its server thread is idle. -/
def Safe (st : Threads) : ThreadsCall → Prop
  | .yield => False
  | .ipcCall c => (st.ipc.conn c).all (fun conn => (st.ipc.activeConn conn.target).isNone) = true
  | _ => True

instance (st : Threads) (c : ThreadsCall) : Decidable (st.Safe c) := by
  unfold Safe
  cases c <;> infer_instance

end Threads

/-- The runs of all the calls, from any first thread. -/
def threadRuns (B : SearchTree.Balance ℕ) (ce : ClockEvent) :
    Lts.System Threads ThreadsCall Fault where
  init st := ∃ idle, st.Initial idle
  step st c := (st.call B ce c).map Threads.marked

/-! ## The scheduler -/

/-- The threads that can run are those whose status says so. -/
structure Sched.Whole (s : Sched) : Prop where
  runnable : ∀ t, t ∈ s.runnable ↔ s.status t = .ready ∨ s.status t = .running
  running : s.status s.current = .running

/-- **What a function of the scheduler does**: the threads that are suspended afterwards are those
in `stopped`, and those that were suspended before and are not in `woken`. -/
structure Sched.Effect (s s' : Sched) (stopped woken : List ℕ) : Prop where
  whole : s'.Whole
  mlist : s'.mlist = s.mlist
  suspend : ∀ u, s'.status u = .suspend → u ∈ stopped ∨ s.status u = .suspend ∧ u ∉ woken

variable {ce : ClockEvent} {mwait mwait' : List ℕ} {B : SearchTree.Balance ℕ}

section

variable {s s' : Sched} {t : ℕ} {rest : List ℕ}

theorem doTaskInit_whole (idle : ℕ) : (doTaskInit idle).Whole where
  runnable t := by
    by_cases ht : t = idle <;> simp [doTaskInit, Sched.runnable, ht]
  running := by simp [doTaskInit]

theorem Sched.Whole.setMlist (h : s.Whole) (t : ℕ) (b : Bool) : (s.setMlist t b).Whole :=
  ⟨h.runnable, h.running⟩

theorem Sched.Whole.refl_effect (h : s.Whole) : s.Effect s [] [] :=
  ⟨h, rfl, fun _ hu => Or.inr ⟨hu, List.not_mem_nil⟩⟩

theorem Sched.Whole.mem_ready (h : s.Whole) {u : ℕ} (hu : u ≠ s.current) :
    u ∈ s.ready ↔ s.status u = .ready ∨ s.status u = .running := by
  rw [← h.runnable u, Sched.runnable, List.mem_cons, or_iff_right hu]

theorem Sched.Whole.leave (h : s.Whole) (hcur : s.current ∉ s.ready) {st : TaskStatus}
    (hst : st = .suspend ∨ st = .exit) (hrest : ∀ u, u ≠ t → (u ∈ rest ↔ u ∈ s.ready)) :
    (s.leave st t rest).Whole := by
  refine ⟨fun u => ?_, by simp [Sched.leave]⟩
  by_cases hut : u = t
  · simp [Sched.leave, Sched.runnable, hut]
  · simp only [Sched.leave, Sched.runnable, List.mem_cons, hut, false_or, hrest u hut,
      update_of_ne hut]
    by_cases huc : u = s.current
    · subst huc
      rcases hst with rfl | rfl <;> simp [hcur]
    · rw [h.mem_ready huc, update_of_ne huc]

/-- The ready list that `schedule` takes the next thread from. -/
def Sched.candidates (s : Sched) : List ℕ :=
  if s.status s.current = .suspend ∨ s.status s.current = .exit then s.ready
  else s.ready ++ [s.current]

theorem schedule_eq_ok (h : schedule s = .ok s') : s.current ∉ s.ready ∧ ∃ t rest,
    s.candidates = t :: rest ∧
    s' = { s with current := t, ready := rest, status := update s.status t .running } := by
  unfold schedule at h
  unfold Sched.candidates
  dsimp only at h
  split_ifs at h ⊢ with hst
  · obtain ⟨_, hs₁, hs'⟩ := bind_eq_ok.mp h
    obtain ⟨_, hcur, hret⟩ := bind_eq_ok.mp hs₁
    cases hret
    refine ⟨access_eq_ok.mp hcur, ?_⟩
    cases hready : s.ready with
    | nil => simp [hready] at hs'
    | cons t rest =>
      simp only [hready, schedulerDequeueTask, List.erase_cons_head] at hs'
      exact ⟨t, rest, rfl, (Except.ok.inj hs').symm⟩
  · obtain ⟨_, hs₁, hs'⟩ := bind_eq_ok.mp h
    obtain ⟨_, hcur, hret⟩ := bind_eq_ok.mp hs₁
    cases hret
    refine ⟨access_eq_ok.mp hcur, ?_⟩
    cases hready : s.ready ++ [s.current] with
    | nil => simp at hready
    | cons t rest =>
      simp only [hready, schedulerDequeueTask, List.erase_cons_head] at hs'
      exact ⟨t, rest, rfl, (Except.ok.inj hs').symm⟩

section

variable (h : s.Whole)

include h

theorem schedule_effect (hs : schedule s = .ok s') : s.Effect s' [] [] := by
  obtain ⟨-, t, rest, hready, rfl⟩ := schedule_eq_ok hs
  have hmem : ∀ u, u ∈ t :: rest ↔ u ∈ s.runnable := by
    intro u
    rw [← hready, Sched.candidates, if_neg (by simp [h.running]), Sched.runnable, List.mem_append,
      List.mem_singleton, List.mem_cons, or_comm]
  refine ⟨⟨fun u => ?_, by simp⟩, rfl, fun u hu => ?_⟩
  · rw [Sched.runnable, hmem]
    by_cases hut : u = t
    · subst hut
      simpa using (hmem u).mp List.mem_cons_self
    · rw [h.runnable]
      dsimp only
      rw [update_of_ne hut]
  · by_cases hut : u = t
    · simp [hut] at hu
    · dsimp only at hu
      rw [update_of_ne hut] at hu
      exact Or.inr ⟨hu, List.not_mem_nil⟩

theorem stop_effect {st : TaskStatus} (hst : st = .suspend ∨ st = .exit)
    (hs : schedule (s.setStatus s.current st) = .ok s') :
    s.Effect s' (if st = .suspend then [s.current] else []) [] := by
  obtain ⟨hcur, t, rest, hready, rfl⟩ := schedule_eq_ok hs
  have hstop : (s.setStatus s.current st).candidates = s.ready :=
    if_pos (by rcases hst with rfl | rfl <;> simp [Sched.setStatus])
  rw [hstop] at hready
  refine ⟨h.leave hcur hst fun u hu => ?_, rfl, fun u hu => ?_⟩
  · rw [hready, List.mem_cons, or_iff_right hu]
  · simp only [Sched.setStatus, update_apply] at hu
    split_ifs at hu with hut huc
    · exact Or.inl (by rw [if_pos hu, List.mem_singleton, huc])
    · exact Or.inr ⟨hu, List.not_mem_nil⟩

theorem threadSuspend_effect (hs : threadSuspend s s.current = .ok s') :
    s.Effect s' [s.current] [] := by
  rw [threadSuspend, if_neg (by simp [h.running]), if_pos h.running] at hs
  exact stop_effect h (Or.inl rfl) hs

theorem threadDestroy_effect (hs : threadDestroy s = .ok s') : s.Effect s' [] [] :=
  stop_effect h (Or.inr rfl) hs

theorem threadResume_effect (hs : threadResume s t = .ok s') :
    s.Effect s' [] [t] := by
  unfold threadResume at hs
  split_ifs at hs with hst
  · obtain ⟨-, -, hret⟩ := bind_eq_ok.mp hs
    cases hret
    have htc : t ≠ s.current := by
      rintro rfl
      cases h.running.symm.trans hst
    refine ⟨⟨fun u => ?_, ?_⟩, rfl, fun u hu => ?_⟩
    · have hu := h.runnable u
      simp only [Sched.runnable, List.mem_cons] at hu
      by_cases hut : u = t
      · simp [Sched.runnable, Sched.setStatus, hut]
      · simp [Sched.runnable, Sched.setStatus, hut, ← hu]
    · simpa [Sched.setStatus, htc.symm] using h.running
    · simp only [Sched.setStatus, update_apply] at hu
      split_ifs at hu with hut
      exact Or.inr ⟨hu, fun hmem => hut (List.mem_singleton.mp hmem)⟩
  · cases hs
    refine ⟨h, rfl, fun u hu => Or.inr ⟨hu, fun hmem => ?_⟩⟩
    rw [List.mem_singleton.mp hmem] at hu
    exact hst hu

theorem scheduleTo_effect (hcur : s.current ∉ s.ready) (t : ℕ) :
    s.Effect (s.leave .suspend t s.ready) [s.current] [t] := by
  refine ⟨h.leave hcur (Or.inl rfl) fun _ _ => Iff.rfl, rfl, fun u hu => ?_⟩
  simp only [Sched.leave, update_apply] at hu
  split_ifs at hu with hut huc
  · exact Or.inl (List.mem_singleton.mpr huc)
  · exact Or.inr ⟨hu, fun hmem => hut (List.mem_singleton.mp hmem)⟩

theorem resumeAll_effect {wake : List ℕ} (hs : wake.foldlM threadResume s = .ok s') :
    s.Effect s' [] wake := by
  induction wake generalizing s with
  | nil =>
    cases hs
    exact h.refl_effect
  | cons t wake ih =>
    rw [List.foldlM_cons] at hs
    obtain ⟨s₁, hs₁, hs'⟩ := bind_eq_ok.mp hs
    have h₁ := threadResume_effect h hs₁
    have h' := ih h₁.whole hs'
    refine ⟨h'.whole, h'.mlist.trans h₁.mlist, fun u hu => ?_⟩
    obtain ⟨hu₁, hwake⟩ := (h'.suspend u hu).resolve_left List.not_mem_nil
    obtain ⟨hu₀, ht⟩ := (h₁.suspend u hu₁).resolve_left List.not_mem_nil
    exact Or.inr ⟨hu₀, by simpa using ⟨by simpa using ht, hwake⟩⟩

end

/-! ## Wait lists and timers -/

/-- What `waitOn` and `wakeFirst` do to a wait list: the threads in `woken` are taken from it, and
`mlist` says that a thread is linked only if it was before or is on the list. -/
structure WaitEffect (s s' : Sched) (mwait mwait' stopped woken : List ℕ) : Prop where
  whole : s'.Whole
  suspend : ∀ u, s'.status u = .suspend → u ∈ stopped ∨ s.status u = .suspend ∧ u ∉ woken
  keep : ∀ u ∈ mwait, u ∉ woken → u ∈ mwait'
  linked : ∀ u, s'.mlist u = true → u ∈ mwait' ∨ s.mlist u = true ∧ u ∉ woken

theorem Sched.Whole.refl_waitEffect (h : s.Whole) (mwait : List ℕ) :
    WaitEffect s s mwait mwait [] [] :=
  ⟨h, fun _ hu => Or.inr ⟨hu, List.not_mem_nil⟩, fun _ hu _ => hu,
    fun _ hu => Or.inr ⟨hu, List.not_mem_nil⟩⟩

theorem waitOn_effect (h : s.Whole) (hw : waitOn s mwait = .ok (s', mwait')) :
    WaitEffect s s' mwait mwait' [s.current] [] ∧
      (s.mlist s.current = true ∨ s.current ∈ mwait') := by
  unfold waitOn at hw
  cases hlink : s.mlist s.current with
  | true =>
    simp only [hlink, if_true] at hw
    obtain ⟨s₁, hs₁, hret⟩ := bind_eq_ok.mp hw
    cases hret
    have he := threadSuspend_effect h hs₁
    refine ⟨⟨he.whole, he.suspend, fun u hu _ => hu, fun u hu => Or.inr ⟨?_, List.not_mem_nil⟩⟩,
      Or.inl rfl⟩
    rwa [he.mlist] at hu
  | false =>
    simp only [hlink, Bool.false_eq_true, if_false] at hw
    obtain ⟨s₁, hs₁, hret⟩ := bind_eq_ok.mp hw
    cases hret
    have he := threadSuspend_effect (h.setMlist s.current true) hs₁
    refine ⟨⟨he.whole, he.suspend, fun u hu _ => List.mem_append_left _ hu, fun u hu => ?_⟩,
      Or.inr (List.mem_append_right _ (List.mem_singleton_self _))⟩
    rw [he.mlist] at hu
    simp only [Sched.setMlist, update_apply] at hu
    split_ifs at hu with huc
    · exact Or.inl (List.mem_append_right _ (List.mem_singleton.mpr huc))
    · exact Or.inr ⟨hu, List.not_mem_nil⟩

theorem wakeFirst_effect (h : s.Whole) (hw : wakeFirst s mwait = .ok (s', mwait')) :
    ∃ woken, WaitEffect s s' mwait mwait' [] woken := by
  cases mwait with
  | nil =>
    cases hw
    exact ⟨[], h.refl_waitEffect _⟩
  | cons pos rest =>
    rw [wakeFirst] at hw
    obtain ⟨s₁, hs₁, hret⟩ := bind_eq_ok.mp hw
    cases hret
    have he := threadResume_effect (h.setMlist pos false) hs₁
    refine ⟨[pos], he.whole, he.suspend, fun u hu hne => ?_, fun u hu => ?_⟩
    · exact (List.mem_cons.mp hu).resolve_left fun heq => hne (List.mem_singleton.mpr heq)
    · rw [he.mlist] at hu
      simp only [Sched.setMlist, update_apply] at hu
      split_ifs at hu with hup
      exact Or.inr ⟨hu, fun hmem => hup (List.mem_singleton.mp hmem)⟩

theorem sysNanosleep_effect (h : s.Whole) {timers timers' : TimerSys} {deadline : ℤ}
    {r₁ r₂ : Reading} (hs : sysNanosleep B ce s timers deadline r₁ r₂ = .ok (s', timers')) :
    s.Effect s' [s.current] [] ∧ ∀ u, (timers'.base.timer u).state =
      if u = s.current then .enqueued else (timers.base.timer u).state := by
  obtain ⟨_, -, hs⟩ := bind_eq_ok.mp hs
  obtain ⟨s₁, hs₁, hret⟩ := bind_eq_ok.mp hs
  cases hret
  refine ⟨threadSuspend_effect h hs₁, fun u => ?_⟩
  have hinit : ((timerInit timers.base s.current).timer s.current).state = .inactive := by
    simp [timerInit]
  rw [TimerRun.base_timerStart]
  dsimp only
  rw [delTimer_of_ne (by simp [hinit]), (addTimer_eq (by simp [TimerBase.setExpires, hinit])).1]
  by_cases hu : u = s.current
  · simp [hu]
  · simp [hu, TimerBase.setExpires, timerInit]

theorem sleepExpire_effect (h : s.Whole) {timers timers' : TimerSys} {now : ℤ}
    (hs : sleepExpire B s timers now = .ok (s', timers')) :
    ∃ woken, s.Effect s' [] woken ∧ ∀ u, (timers.base.timer u).state = .enqueued → u ∉ woken →
      (timers'.base.timer u).state = .enqueued := by
  unfold sleepExpire at hs
  have hsame : ∀ {r : Sched × TimerSys}, Except.ok (s, timers) = (.ok r : Except Fault _) →
      ∃ woken, s.Effect r.1 [] woken ∧ ∀ u, (timers.base.timer u).state = .enqueued → u ∉ woken →
        (r.2.base.timer u).state = .enqueued := by
    rintro r hr
    cases hr
    exact ⟨[], h.refl_effect, fun u hu _ => hu⟩
  cases hnext : timers.base.next with
  | none =>
    simp only [hnext] at hs
    exact hsame hs
  | some t =>
    simp only [hnext] at hs
    split_ifs at hs with hnow
    · exact hsame hs
    · obtain ⟨s₁, hs₁, hret⟩ := bind_eq_ok.mp hs
      cases hret
      refine ⟨[t], threadResume_effect h hs₁, fun u hu hut => ?_⟩
      have hut : u ≠ t := fun heq => hut (List.mem_singleton.mpr heq)
      have hdel := TimerRun.delTimer_state (B := B) timers.base t u
      simp [TimerBase.setState, hut, hdel, hu]

end

/-! ## The invariant -/

variable {b : Bool} {queues' : FutexQueues} {ipc : Ipc} {t a : ℕ}

namespace Threads

/-- The invariant of the runs. -/
structure Inv (st : Threads) : Prop where
  whole : st.sched.Whole
  started : ∀ t ∈ st.sched.runnable, st.started t = true
  linked : ∀ t, st.sched.mlist t = true → st.OnWaitList t
  target : ∀ s c, st.ipc.activeConn s = some c → ∃ conn, st.ipc.conn c = some conn ∧ conn.target = s
  recorded : ∀ t, st.started t = true → st.sched.status t = .suspend → st.Recorded t

variable {st st' : Threads}

theorem Inv.noneLost (h : st.Inv) : st.NoneLost := by
  intro t hstarted hexit hrec
  rw [h.whole.runnable]
  cases hst : st.sched.status t with
  | running => exact Or.inr rfl
  | ready => exact Or.inl rfl
  | suspend => exact absurd (h.recorded t hstarted hst) hrec
  | exit => exact absurd hst hexit

theorem Initial.inv {idle : ℕ} (h : st.Initial idle) : st.Inv where
  whole := h.sched ▸ doTaskInit_whole idle
  started t ht := by
    rw [h.sched] at ht
    simpa [h.started, doTaskInit, Sched.runnable] using ht
  linked t ht := by
    rw [h.sched] at ht
    cases ht
  target s c hs := by simp [h.active] at hs
  recorded t ht hst := by
    rw [h.started, decide_eq_true_eq] at ht
    simp [h.sched, doTaskInit, ht] at hst

theorem Inv.next (h : st.Inv) {stopped woken : List ℕ} (hwhole : st'.sched.Whole)
    (hsuspend : ∀ u, st'.sched.status u = .suspend →
      u ∈ stopped ∨ st.sched.status u = .suspend ∧ u ∉ woken)
    (hstarted : st'.started = st.started)
    (hlinked : ∀ t, st'.sched.mlist t = true → st'.OnWaitList t)
    (htarget : ∀ s c, st'.ipc.activeConn s = some c →
      ∃ conn, st'.ipc.conn c = some conn ∧ conn.target = s)
    (hstopped : ∀ u ∈ stopped, st'.Recorded u)
    (hkeep : ∀ u, st.Recorded u → u ∉ woken → st'.Recorded u) : st'.marked.Inv where
  whole := hwhole
  started t ht := by
    have ht : t ∈ st'.sched.runnable := ht
    simp [marked, ht]
  linked := hlinked
  target := htarget
  recorded t ht hst := by
    have hst : st'.sched.status t = .suspend := hst
    have hnot : t ∉ st'.sched.runnable := by
      rw [hwhole.runnable, hst]
      decide
    have ht : st.started t = true := by
      simpa [marked, hnot, hstarted] using ht
    have hrec : st'.Recorded t := by
      rcases hsuspend t hst with hmem | ⟨hold, hwoken⟩
      · exact hstopped t hmem
      · exact hkeep t (h.recorded t ht hold) hwoken
    -- the records do not depend on which threads were started
    cases hrec with
    | futex i e he ht => exact .futex i e he ht
    | waitList h => exact .waitList h
    | sleep h => exact .sleep h
    | awaitsReturn h => exact .awaitsReturn h
    | awaitsCall h => exact .awaitsCall h

/-! ## The steps -/

theorem Recorded.imp {t : ℕ} (h : st.Recorded t)
    (hfutex : ∀ i, ∀ e ∈ (st.queues i).chain, e.task = t → e ∈ (st'.queues i).chain)
    (hwait : st.OnWaitList t → st'.OnWaitList t)
    (hsleep : (st.timers.base.timer t).state = .enqueued →
      (st'.timers.base.timer t).state = .enqueued)
    (hreturn : st.AwaitsReturn t → st'.AwaitsReturn t)
    (hcall : st.AwaitsCall t → st'.AwaitsCall t) : st'.Recorded t := by
  cases h with
  | futex i e he ht => exact .futex i e (hfutex i e he ht) ht
  | waitList h => exact .waitList (hwait h)
  | sleep h => exact .sleep (hsleep h)
  | awaitsReturn h => exact .awaitsReturn (hreturn h)
  | awaitsCall h => exact .awaitsCall (hcall h)

variable {s' : Sched} {stopped woken : List ℕ}

section

variable (h : st.Inv)

include h

theorem Inv.sched (he : st.sched.Effect s' [] woken) :
    (st.withSched s').marked.Inv := by
  refine h.next he.whole he.suspend rfl (fun t ht => ?_) h.target nofun
    fun u hu _ => hu.imp (fun _ _ he _ => he) id id id id
  have ht : s'.mlist t = true := ht
  exact h.linked t (he.mlist ▸ ht)

theorem Inv.timers (he : st.sched.Effect s' stopped woken) {timers' : TimerSys}
    (hkeep : ∀ u, (st.timers.base.timer u).state = .enqueued → u ∉ woken →
      (timers'.base.timer u).state = .enqueued)
    (hstopped : ∀ u ∈ stopped, (timers'.base.timer u).state = .enqueued) :
    Inv (marked { st.withSched s' with timers := timers' }) := by
  refine h.next he.whole he.suspend rfl (fun t ht => ?_) h.target
    (fun u hu => .sleep (hstopped u hu))
    fun u hu hw => hu.imp (fun _ _ he _ => he) id (fun hs => hkeep u hs hw) id id
  have ht : s'.mlist t = true := ht
  exact h.linked t (he.mlist ▸ ht)

theorem Inv.futex (he : st.sched.Effect s' stopped woken)
    (hkeep : ∀ i, ∀ e ∈ (st.queues i).chain, e.task ∉ woken → e ∈ (queues' i).chain)
    (hstopped : ∀ u ∈ stopped, ∃ i, ∃ e ∈ (queues' i).chain, e.task = u) :
    Inv (marked { st.withSched s' with queues := queues' }) := by
  refine h.next he.whole he.suspend rfl (fun t ht => ?_) h.target (fun u hu => ?_)
    fun u hu hw => hu.imp (fun i e he ht => hkeep i e he (ht ▸ hw)) id id id id
  · have ht : s'.mlist t = true := ht
    exact h.linked t (he.mlist ▸ ht)
  · obtain ⟨i, e, he, ht⟩ := hstopped u hu
    exact .futex i e he ht

theorem Inv.waitList {mwait mwait' : List ℕ}
    (he : WaitEffect st.sched s' mwait mwait' stopped woken) {mutex' : ℕ → Mutex}
    {sem' : ℕ → Semaphore}
    (hkeep : ∀ u, st.OnWaitList u → u ∉ woken →
      OnWaitList { st.withSched s' with mutex := mutex', sem := sem' } u)
    (hin : ∀ u ∈ mwait', OnWaitList { st.withSched s' with mutex := mutex', sem := sem' } u)
    (hstopped : ∀ u ∈ stopped, u ∉ woken ∧ (st.sched.mlist u = true ∨ u ∈ mwait')) :
    Inv (marked { st.withSched s' with mutex := mutex', sem := sem' }) := by
  refine h.next he.whole he.suspend rfl (fun t ht => ?_) h.target (fun u hu => ?_)
    fun u hu hw => hu.imp (fun _ _ he _ => he) (fun hon => hkeep u hon hw) id id id
  · rcases he.linked t ht with hmem | ⟨hold, hw⟩
    · exact hin t hmem
    · exact hkeep t (h.linked t hold) hw
  · obtain ⟨hw, hlink | hmem⟩ := hstopped u hu
    · exact .waitList (hkeep u (h.linked u hlink) hw)
    · exact .waitList (hin u hmem)

theorem Inv.mutex {m : Mutex} (he : WaitEffect st.sched s' (st.mutex a).mwait m.mwait stopped woken)
    (hstopped : ∀ u ∈ stopped, u ∉ woken ∧ (st.sched.mlist u = true ∨ u ∈ m.mwait)) :
    Inv (marked { st.withSched s' with mutex := update st.mutex a m }) := by
  refine h.waitList he (fun u hu hw => ?_) (fun u hu => Or.inl ⟨a, by simpa using hu⟩) hstopped
  rcases hu with ⟨a', hu⟩ | hu
  · by_cases haa : a' = a
    · subst haa
      exact Or.inl ⟨a', by simpa using he.keep u hu hw⟩
    · exact Or.inl ⟨a', by simpa [haa] using hu⟩
  · exact Or.inr hu

theorem Inv.semaphore {m : Semaphore}
    (he : WaitEffect st.sched s' (st.sem a).mwait m.mwait stopped woken)
    (hstopped : ∀ u ∈ stopped, u ∉ woken ∧ (st.sched.mlist u = true ∨ u ∈ m.mwait)) :
    Inv (marked { st.withSched s' with sem := update st.sem a m }) := by
  refine h.waitList he (fun u hu hw => ?_) (fun u hu => Or.inr ⟨a, by simpa using hu⟩) hstopped
  rcases hu with hu | ⟨a', hu⟩
  · exact Or.inl hu
  · by_cases haa : a' = a
    · subst haa
      exact Or.inr ⟨a', by simpa using he.keep u hu hw⟩
    · exact Or.inr ⟨a', by simpa [haa] using hu⟩

theorem Inv.mutexLock {m : Mutex} (hs : mutexTryLock st.sched (st.mutex a) = .ok (b, s', m)) :
    Inv (marked { st.withSched s' with mutex := update st.mutex a m }) := by
  unfold mutexTryLock at hs
  split_ifs at hs with hfree
  · obtain ⟨-, hs⟩ := Prod.mk.inj (Except.ok.inj hs)
    cases hs
    exact h.mutex (h.whole.refl_waitEffect _) nofun
  · obtain ⟨⟨s₁, mwait⟩, hs₁, hret⟩ := bind_eq_ok.mp hs
    obtain ⟨-, hs⟩ := Prod.mk.inj (Except.ok.inj hret)
    cases hs
    obtain ⟨he, hcur⟩ := waitOn_effect h.whole hs₁
    refine h.mutex he fun u hu => ⟨List.not_mem_nil, ?_⟩
    rwa [List.mem_singleton.mp hu]

theorem Inv.mutexUnlock {m : Mutex} (hs : Core.mutexUnlock st.sched (st.mutex a) = .ok (s', m)) :
    Inv (marked { st.withSched s' with mutex := update st.mutex a m }) := by
  unfold Core.mutexUnlock at hs
  split_ifs at hs with hheld
  · obtain ⟨⟨s₁, mwait⟩, hs₁, hret⟩ := bind_eq_ok.mp hs
    cases hret
    obtain ⟨woken, he⟩ := wakeFirst_effect h.whole hs₁
    exact h.mutex he nofun
  · cases hs
    exact h.mutex (h.whole.refl_waitEffect _) nofun

theorem Inv.semaphoreDown {m : Semaphore}
    (hs : semaphoreTryDown st.sched (st.sem a) = .ok (b, s', m)) :
    Inv (marked { st.withSched s' with sem := update st.sem a m }) := by
  unfold semaphoreTryDown at hs
  split_ifs at hs with hfree
  · obtain ⟨-, hs⟩ := Prod.mk.inj (Except.ok.inj hs)
    cases hs
    exact h.semaphore (h.whole.refl_waitEffect _) nofun
  · obtain ⟨⟨s₁, mwait⟩, hs₁, hret⟩ := bind_eq_ok.mp hs
    obtain ⟨-, hs⟩ := Prod.mk.inj (Except.ok.inj hret)
    cases hs
    obtain ⟨he, hcur⟩ := waitOn_effect h.whole hs₁
    refine h.semaphore he fun u hu => ⟨List.not_mem_nil, ?_⟩
    rwa [List.mem_singleton.mp hu]

theorem Inv.semaphoreUp {m : Semaphore} (hs : Core.semaphoreUp st.sched (st.sem a) = .ok (s', m)) :
    Inv (marked { st.withSched s' with sem := update st.sem a m }) := by
  unfold Core.semaphoreUp at hs
  dsimp only at hs
  split_ifs at hs with hpos
  · obtain ⟨⟨s₁, mwait⟩, hs₁, hret⟩ := bind_eq_ok.mp hs
    cases hret
    obtain ⟨woken, he⟩ := wakeFirst_effect h.whole hs₁
    exact h.semaphore he nofun
  · cases hs
    exact h.semaphore (h.whole.refl_waitEffect _) nofun

theorem Inv.futexWait {key : FutexKey} {uval val : ℕ} {r : ℤ}
    (hs : sysFutexWait st.sched st.queues key uval val = .ok (r, s', queues')) :
    Inv (marked { st.withSched s' with queues := queues' }) := by
  unfold sysFutexWait at hs
  dsimp only at hs
  split_ifs at hs with hstale
  · obtain ⟨-, hs⟩ := Prod.mk.inj (Except.ok.inj hs)
    cases hs
    refine h.futex h.whole.refl_effect (fun i e he _ => ?_) nofun
    by_cases hi : i = hashFutex key
    · subst hi
      simpa using he
    · simpa [hi] using he
  · obtain ⟨s₁, hs₁, hret⟩ := bind_eq_ok.mp hs
    obtain ⟨-, hs⟩ := Prod.mk.inj (Except.ok.inj hret)
    cases hs
    have he := stop_effect h.whole (Or.inl rfl) hs₁
    refine h.futex he (fun i e he _ => ?_) fun u hu => ?_
    · by_cases hi : i = hashFutex key
      · subst hi
        simpa using Or.inr he
      · simpa [hi] using he
    · have hu : u = st.sched.current := List.mem_singleton.mp hu
      exact ⟨hashFutex key, ⟨st.sched.current, key⟩, by simp, hu.symm⟩

theorem Inv.futexWake {key : FutexKey}
    (hs : sysFutexWake st.sched st.queues key = .ok (s', queues')) :
    Inv (marked { st.withSched s' with queues := queues' }) := by
  unfold sysFutexWake at hs
  dsimp only at hs
  split_ifs at hs with hnone
  · cases hs
    exact h.futex h.whole.refl_effect (fun i e he _ => he) nofun
  · rw [markWakeFutex_eq] at hs
    obtain ⟨s₁, hs₁, hret⟩ := bind_eq_ok.mp hs
    cases hret
    refine h.futex (resumeAll_effect h.whole hs₁) (fun i e he hw => ?_) nofun
    by_cases hi : i = hashFutex key
    · subst hi
      rw [update_self]
      refine List.mem_filter.mpr ⟨he, decide_eq_true fun hkey => hw ?_⟩
      exact List.mem_map.mpr ⟨e, List.mem_filter.mpr ⟨he, decide_eq_true hkey⟩, rfl⟩
    · rwa [update_of_ne hi]

theorem Inv.ipcCall {c : ℕ} (hs : sysIpcCall st.ipc c = .ok ipc)
    (hidle : ∀ conn, st.ipc.conn c = some conn → st.ipc.activeConn conn.target = none) :
    Inv (marked { st with ipc := ipc }) := by
  obtain ⟨conn, callback, hconn, hcur, rfl⟩ := sysIpcCall_eq_ok hs
  have hactive := hidle conn hconn
  have he := scheduleTo_effect h.whole hcur conn.target
  refine h.next he.whole he.suspend rfl (fun t ht => ?_) (fun s c' hs => ?_) (fun u hu => ?_)
    fun u hu hw => hu.imp (fun _ _ he _ => he) id id ?_ ?_
  · have ht : st.sched.mlist t = true := ht
    exact h.linked t ht
  · simp only [update_apply] at hs
    split_ifs at hs with hst
    · cases hs
      exact ⟨conn, hconn, hst.symm⟩
    · exact h.target s c' hs
  · rw [List.mem_singleton.mp hu]
    exact .awaitsReturn ⟨c, conn, hconn, update_self .., update_self ..⟩
  · rintro ⟨c', conn', hconn', hactive', hsource⟩
    have hne : conn'.target ≠ conn.target := by
      intro heq
      rw [heq, hactive] at hactive'
      cases hactive'
    have hcc : c' ≠ c := by
      rintro rfl
      exact hne (by rw [Option.some.inj (hconn'.symm.trans hconn)])
    exact ⟨c', conn', hconn', by simpa [hne] using hactive', by simpa [hcc] using hsource⟩
  · rintro ⟨c', conn', hconn', rfl, hnone⟩
    have hne : conn'.target ≠ conn.target := by simpa using hw
    exact ⟨c', conn', hconn', rfl, by simpa [hne] using hnone⟩

theorem Inv.ipcReturn {v : ℕ} (hs : sysIpcReturn st.ipc v = .ok ipc) :
    Inv (marked { st with ipc := ipc }) := by
  obtain ⟨c, source, hactive, hsource, hcur, rfl⟩ := sysIpcReturn_eq_ok.mp hs
  have he := scheduleTo_effect h.whole hcur source
  refine h.next he.whole he.suspend rfl (fun t ht => ?_) (fun s c' hs => ?_) (fun u hu => ?_)
    fun u hu hw => hu.imp (fun _ _ he _ => he) id id ?_ ?_
  · have ht : st.sched.mlist t = true := ht
    exact h.linked t ht
  · simp only [update_apply] at hs
    split_ifs at hs
    exact h.target s c' hs
  · obtain ⟨conn, hconn, htarget⟩ := h.target _ c hactive
    rw [List.mem_singleton.mp hu]
    exact .awaitsCall ⟨c, conn, hconn, htarget, update_self ..⟩
  · rintro ⟨c', conn', hconn', hactive', hsource'⟩
    have hne : conn'.target ≠ st.ipc.sched.current := by
      intro heq
      rw [heq, hactive] at hactive'
      cases hactive'
      obtain rfl := Option.some.inj (hsource'.symm.trans hsource)
      exact hw (List.mem_singleton_self _)
    exact ⟨c', conn', hconn', by simpa [hne] using hactive', hsource'⟩
  · rintro ⟨c', conn', hconn', rfl, hnone⟩
    exact ⟨c', conn', hconn', rfl, by simp [update_apply, hnone]⟩

/-- **Every step keeps the invariant**, if it is not `sys_yield` or the call of a busy
connection. -/
theorem Inv.step {c : ThreadsCall} (hsafe : st.Safe c)
    (hstep : (threadRuns B ce).step st c = .ok st') : st'.Inv := by
  obtain ⟨st₁, hcall, rfl⟩ := map_eq_ok.mp hstep
  cases c with
  | resume t =>
    obtain ⟨s, hs, hret⟩ := bind_eq_ok.mp hcall
    cases hret
    exact h.sched (threadResume_effect h.whole hs)
  | preempt =>
    obtain ⟨s, hs, hret⟩ := bind_eq_ok.mp hcall
    cases hret
    exact h.sched (schedule_effect h.whole hs)
  | yield => exact absurd hsafe id
  | exit =>
    obtain ⟨s, hs, hret⟩ := bind_eq_ok.mp hcall
    cases hret
    exact h.sched (threadDestroy_effect h.whole hs)
  | nanosleep deadline r₁ r₂ =>
    obtain ⟨⟨s, timers'⟩, hs, hret⟩ := bind_eq_ok.mp hcall
    cases hret
    obtain ⟨he, hstate⟩ := sysNanosleep_effect h.whole hs
    refine h.timers he (fun u hu _ => ?_) fun u hu => ?_
    · rw [hstate, hu]
      split_ifs <;> rfl
    · rw [hstate, if_pos (List.mem_singleton.mp hu)]
  | expire now =>
    obtain ⟨⟨s, timers'⟩, hs, hret⟩ := bind_eq_ok.mp hcall
    cases hret
    obtain ⟨woken, he, hkeep⟩ := sleepExpire_effect h.whole hs
    exact h.timers he hkeep nofun
  | futexWait uaddr uval val =>
    obtain ⟨⟨r, s, queues'⟩, hs, hret⟩ := bind_eq_ok.mp hcall
    cases hret
    exact h.futexWait hs
  | futexWake uaddr =>
    obtain ⟨⟨s, queues'⟩, hs, hret⟩ := bind_eq_ok.mp hcall
    cases hret
    exact h.futexWake hs
  | mutexLock a =>
    obtain ⟨⟨b, s, m⟩, hs, hret⟩ := bind_eq_ok.mp hcall
    cases hret
    exact h.mutexLock hs
  | mutexUnlock a =>
    obtain ⟨⟨s, m⟩, hs, hret⟩ := bind_eq_ok.mp hcall
    cases hret
    exact h.mutexUnlock hs
  | semaphoreDown a =>
    obtain ⟨⟨b, s, m⟩, hs, hret⟩ := bind_eq_ok.mp hcall
    cases hret
    exact h.semaphoreDown hs
  | semaphoreUp a =>
    obtain ⟨⟨s, m⟩, hs, hret⟩ := bind_eq_ok.mp hcall
    cases hret
    exact h.semaphoreUp hs
  | ipcCall c =>
    obtain ⟨ipc, hs, hret⟩ := bind_eq_ok.mp hcall
    cases hret
    refine h.ipcCall hs fun conn hconn => ?_
    simpa [Safe, hconn] using hsafe
  | ipcReturn v =>
    obtain ⟨ipc, hs, hret⟩ := bind_eq_ok.mp hcall
    cases hret
    exact h.ipcReturn hs

end

end Threads

/-- **No thread is lost** in a run in which no thread calls `sys_yield`, and a connection is called
only while its server thread has no active connection. -/
theorem threadRuns_noneLost (B : SearchTree.Balance ℕ) (ce : ClockEvent) (st : Threads)
    (hr : (threadRuns B ce).ReachableVia Threads.Safe st) : st.NoneLost := by
  apply Threads.Inv.noneLost
  apply hr.invariant (I := Threads.Inv)
  · rintro st ⟨idle, hinit⟩
    exact hinit.inv
  · exact fun st c st' h hsafe hstep => h.step hsafe hstep

/-- Thread `0` runs, and there is a connection with the server thread `2`. -/
def oneConnection : Threads where
  ipc := {
    sched := doTaskInit 0
    conn := fun c => if c = 10 then some ⟨2, 0, 0x4000, 0x8000, 0xc000⟩ else none
    thread := fun t => if t = 2 then some ⟨0, 0, some ⟨0x100, 0, 0, ⟨0, 0, 0, 0⟩⟩⟩ else none
    source := fun _ => none
    activeConn := fun _ => none
    regs := fun _ => ⟨0, 0, 0⟩ }
  timers := (TimerRun.initial none).sys
  queues := doFutexInit
  vmspace := fun _ => 0
  mutex := fun _ => mutexInit
  sem := fun _ => semaphoreInit 0
  started t := decide (t = 0)

theorem oneConnection_initial : oneConnection.Initial 0 :=
  ⟨rfl, fun _ => rfl, rfl, rfl, fun _ => rfl, fun _ => ⟨0, rfl⟩, fun _ => rfl⟩

/-- The theorem applies to a run in which threads wait for a mutex, a semaphore, a futex, a timer
and a call. -/
theorem threadRuns_noneLost_waiting :
    ∃ st, (threadRuns (.trivial ℕ) ⟨1000, 1000000⟩).ReachableVia Threads.Safe st ∧
      (st.sched.current = 6 ∧ st.sched.ready = [] ∧ (st.mutex 0).mwait = [1] ∧
        (st.sem 0).mwait = [3] ∧ st.started 4 = true) ∧ st.NoneLost := by
  obtain ⟨st, hr, hst⟩ := Lts.System.exists_reachableVia
    (M := threadRuns (.trivial ℕ) ⟨1000, 1000000⟩) Threads.Safe (s := oneConnection)
    (P := fun st => st.sched.current = 6 ∧ st.sched.ready = [] ∧ (st.mutex 0).mwait = [1] ∧
      (st.sem 0).mwait = [3] ∧ st.started 4 = true)
    [.mutexLock 0, .resume 1, .resume 3, .resume 4, .resume 5, .resume 6, .ipcCall 10, .preempt,
      .mutexLock 0, .semaphoreDown 0, .nanosleep 5 ⟨0, 0⟩ ⟨0, 0⟩, .futexWait 8 0 0, .preempt,
      .ipcReturn 0, .exit]
    ⟨0, oneConnection_initial⟩ (by decide +kernel)
  exact ⟨st, hr, hst, threadRuns_noneLost _ _ st hr⟩

theorem recorded_oneConnection {started : ℕ → Bool}
    (h : Threads.Recorded { oneConnection with ipc := ipc, started := started } t) :
    Threads.AwaitsReturn { oneConnection with ipc := ipc, started := started } t ∨
      Threads.AwaitsCall { oneConnection with ipc := ipc, started := started } t := by
  cases h with
  | futex i e he ht => cases he
  | waitList h =>
    rcases h with ⟨a, ha⟩ | ⟨a, ha⟩
    · cases ha
    · cases ha
  | sleep h => cases h
  | awaitsReturn h => exact Or.inl h
  | awaitsCall h => exact Or.inr h

/-- Thread `0` calls `sys_yield`: it is suspended, and nothing has a record of it.  And thread `0`
calls over a connection, its server thread is preempted, and thread `1` calls over the same
connection: the connection has a record of thread `1` only. -/
theorem threadRuns_lost :
    (∃ st, (threadRuns (.trivial ℕ) ⟨1000, 1000000⟩).Reachable st ∧ ¬ st.NoneLost) ∧
    ∃ st, (threadRuns (.trivial ℕ) ⟨1000, 1000000⟩).ReachableVia (fun _ c => c ≠ .yield) st ∧
      ¬ st.NoneLost := by
  have hserver : ∀ c conn, oneConnection.ipc.conn c = some conn → c = 10 ∧ conn.target = 2 := by
    intro c conn hconn
    simp only [oneConnection] at hconn
    split_ifs at hconn with hc
    cases hconn
    exact ⟨hc, rfl⟩
  constructor
  · refine ⟨_, .step .yield (.step (.resume 1) (.init ⟨0, oneConnection_initial⟩) trivial rfl)
      trivial rfl, fun h => ?_⟩
    refine absurd (h 0 rfl (by decide) fun hrec => ?_) (by decide)
    rcases recorded_oneConnection hrec with ⟨c, conn, -, hactive, -⟩ | ⟨c, conn, hconn, htarget, -⟩
    · cases hactive
    · cases (hserver c conn hconn).2.symm.trans htarget
  · refine ⟨_, .step (.ipcCall 10) (.step .preempt (.step (.ipcCall 10) (.step (.resume 1)
      (.init ⟨0, oneConnection_initial⟩) nofun rfl) nofun rfl) nofun rfl) nofun rfl, fun h => ?_⟩
    refine absurd (h 0 rfl (by decide) fun hrec => ?_) (by decide)
    rcases recorded_oneConnection hrec with
      ⟨c, conn, hconn, -, hsource⟩ | ⟨c, conn, hconn, htarget, -⟩
    · obtain ⟨rfl, -⟩ := hserver c conn hconn
      cases hsource
    · cases (hserver c conn hconn).2.symm.trans htarget

end Ginkgo.Core
