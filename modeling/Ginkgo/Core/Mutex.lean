import Ginkgo.Core.WaitList
import Ginkgo.Lib.Lts

/-!
# The kernel mutex

The model of `core/mutex.c` and its runs.  The kernel is not preemptive: a thread inside
`mutex_lock` gives up the processor only in `thread_suspend`, and a thread inside `mutex_unlock`
does not give it up.  A step of the system is therefore one pass of the loop of `mutex_lock`, one
call of `mutex_unlock`, or something that a thread does outside these two functions.

## Main results

* `mutexRuns_safe` — every state of every run is safe.
-/

namespace Ginkgo.Core

open Function (update update_of_ne)

/-- `struct mutex_t`. -/
structure Mutex where
  /-- `1` if the mutex is free. -/
  atomic : ℤ
  /-- The waiting threads. -/
  mwait : List ℕ

/-- `mutex_init`. -/
def mutexInit : Mutex := ⟨1, []⟩

/-- One pass of the loop of `mutex_lock`: take the mutex, or wait.  The loop is left when the
result is `true`; otherwise the thread makes the next pass when it runs again. -/
def mutexTryLock (s : Sched) (m : Mutex) : Except Fault (Bool × Sched × Mutex) :=
  if m.atomic = 1 then .ok (true, s, { m with atomic := 0 })
  else do
    let (s, mwait) ← waitOn s m.mwait
    return (false, s, { m with mwait := mwait })

/-- `mutex_unlock`. -/
def mutexUnlock (s : Sched) (m : Mutex) : Except Fault (Sched × Mutex) :=
  if m.atomic = 0 then do
    let (s, mwait) ← wakeFirst s m.mwait
    return (s, ⟨1, mwait⟩)
  else .ok (s, m)

/-! ## The transition system -/

/-- Where a thread is with respect to the mutex. -/
inductive MutexPhase
  /-- Outside `mutex_lock` and the critical section. -/
  | outside
  /-- In the loop of `mutex_lock`, after a pass that had to wait. -/
  | waiting
  /-- Between a completed `mutex_lock` and `mutex_unlock`. -/
  | holding
deriving DecidableEq, Repr

/-- A mutex and the threads that use it. -/
structure MutexState where
  /-- The scheduler. -/
  sched : Sched
  /-- The mutex. -/
  mutex : Mutex
  /-- The phase of each thread. -/
  phase : ℕ → MutexPhase

/-- A step of the current thread. -/
inductive MutexCall
  /-- A pass of the loop of `mutex_lock`. -/
  | lock
  /-- `mutex_unlock`. -/
  | unlock
  /-- Anything else. -/
  | other (c : ThreadCall)
deriving DecidableEq, Repr

namespace MutexState

/-- The effect of a step. -/
def step (st : MutexState) : MutexCall → Except Fault MutexState
  | .lock => do
    let (locked, s, m) ← mutexTryLock st.sched st.mutex
    let phase := if locked then MutexPhase.holding else .waiting
    return ⟨s, m, update st.phase st.sched.current phase⟩
  | .unlock => do
    let (s, m) ← mutexUnlock st.sched st.mutex
    return ⟨s, m, update st.phase st.sched.current .outside⟩
  | .other c => do
    let s ← st.sched.call c
    return { st with sched := s }

/-- The steps that threads take: a thread in the loop of `mutex_lock` makes the next pass, only the
holder unlocks, and only the mutex wakes the threads that wait for it. -/
def Legal (st : MutexState) : MutexCall → Prop
  | .lock => st.phase st.sched.current ≠ .holding
  | .unlock => st.phase st.sched.current = .holding
  | .other c => st.phase (c.subject st.sched) ≠ .waiting

instance (st : MutexState) (c : MutexCall) : Decidable (st.Legal c) :=
  match c with
  | .lock => inferInstanceAs (Decidable (_ ≠ _))
  | .unlock => inferInstanceAs (Decidable (_ = _))
  | .other _ => inferInstanceAs (Decidable (_ ≠ _))

/-- The state is safe. -/
structure Safe (st : MutexState) : Prop where
  exclusive : ∀ t u, st.phase t = .holding → st.phase u = .holding → t = u
  once : st.mutex.mwait.Nodup
  notStranded : st.mutex.atomic = 1 → st.mutex.mwait ≠ [] →
    ∃ t, st.phase t = .waiting ∧ t ∉ st.mutex.mwait ∧ t ∈ st.sched.runnable

end MutexState

/-- The runs of any number of threads that use one mutex, from `do_task_init` and `mutex_init`. -/
def mutexRuns (idle : ℕ) : Lts.System MutexState MutexCall Fault where
  init st := st = ⟨doTaskInit idle, mutexInit, fun _ => .outside⟩
  step := MutexState.step

/-! ## The invariant -/

namespace MutexState

/-- The invariant of the runs. -/
structure Inv (st : MutexState) : Prop where
  waits : Waits st.sched st.mutex.mwait fun t => st.phase t = .waiting
  bit : st.mutex.atomic = 0 ∨ st.mutex.atomic = 1
  free : st.mutex.atomic = 1 → ∀ t, st.phase t ≠ .holding
  exclusive : ∀ t u, st.phase t = .holding → st.phase u = .holding → t = u
  handed : st.mutex.atomic = 1 → st.mutex.mwait ≠ [] →
    ∃ t, st.phase t = .waiting ∧ t ∉ st.mutex.mwait

variable {st st' : MutexState}

theorem Inv.safe (h : st.Inv) : st.Safe where
  exclusive := h.exclusive
  once := h.waits.nodup
  notStranded hfree hne := by
    obtain ⟨t, ht, hnot⟩ := h.handed hfree hne
    exact ⟨t, ht, hnot, (h.waits.woken t ht).resolve_left hnot⟩

theorem inv_init (idle : ℕ) : Inv ⟨doTaskInit idle, mutexInit, fun _ => .outside⟩ := by
  refine ⟨⟨doTaskInit_ok idle, ?_, ?_, ?_, ?_⟩, Or.inr rfl, ?_, ?_, ?_⟩ <;>
    simp [mutexInit, doTaskInit]

theorem Inv.locked (h : st.Inv) (hfree : st.mutex.atomic = 1) :
    Inv ⟨st.sched, { st.mutex with atomic := 0 },
      update st.phase st.sched.current .holding⟩ where
  waits := by
    apply h.waits.done
    intro t
    by_cases ht : t = st.sched.current
    · simp [ht]
    · simp [ht]
  bit := Or.inl rfl
  free := by simp
  exclusive := by
    -- nobody held the mutex before, so both threads are the current one
    have hcur : ∀ t, update st.phase st.sched.current .holding t = .holding →
        t = st.sched.current := by
      intro t ht
      by_contra hne
      rw [update_of_ne hne] at ht
      exact h.free hfree t ht
    intro t u ht hu
    rw [hcur t ht, hcur u hu]
  handed := by simp

theorem Inv.wait (h : st.Inv) (hheld : st.mutex.atomic = 0) {r : Sched × List ℕ}
    (hr : waitOn st.sched st.mutex.mwait = .ok r) :
    Inv ⟨r.1, { st.mutex with mwait := r.2 },
      update st.phase st.sched.current .waiting⟩ := by
  have hw : ∀ t, update st.phase st.sched.current .waiting t = .waiting ↔
      st.phase t = .waiting ∨ t = st.sched.current := by
    intro t
    by_cases ht : t = st.sched.current
    · simp [ht]
    · simp [ht]
  obtain ⟨-, hwaits, -⟩ := h.waits.waitOn hr hw
  have hold : ∀ t, update st.phase st.sched.current .waiting t = .holding →
      st.phase t = .holding := by
    intro t ht
    by_cases hc : t = st.sched.current
    · simp [hc] at ht
    · simpa [hc] using ht
  refine ⟨hwaits, Or.inl hheld, ?_, ?_, ?_⟩
  · simp [hheld]
  · intro t u ht hu
    exact h.exclusive t u (hold t ht) (hold u hu)
  · simp [hheld]

theorem Inv.unlock (h : st.Inv) (hcur : st.phase st.sched.current = .holding)
    (hstep : st.step .unlock = .ok st') : st'.Inv := by
  have hheld : st.mutex.atomic = 0 := by
    rcases h.bit with h0 | h1
    · exact h0
    · exact absurd hcur (h.free h1 _)
  have hnone : ∀ t, update st.phase st.sched.current .outside t ≠ .holding := by
    intro t ht
    by_cases hc : t = st.sched.current
    · simp [hc] at ht
    · exact hc (h.exclusive t _ (by simpa [hc] using ht) hcur)
  have hphase : ∀ t, st.phase t = .waiting ↔
      update st.phase st.sched.current .outside t = .waiting := by
    intro t
    by_cases hc : t = st.sched.current
    · simp [hc, hcur]
    · simp [hc]
  have hwaits : Waits st.sched st.mutex.mwait
      fun t => update st.phase st.sched.current .outside t = .waiting := by
    simpa only [← hphase] using h.waits
  rw [step, mutexUnlock, if_pos hheld] at hstep
  cases hmwait : st.mutex.mwait with
  | nil =>
    rw [hmwait] at hstep hwaits
    cases hstep
    exact ⟨hwaits, Or.inr rfl, fun _ => hnone, fun t _ ht => absurd ht (hnone t),
      fun _ hne => absurd rfl hne⟩
  | cons pos rest =>
    rw [hmwait] at hstep hwaits
    obtain ⟨s', hs', hw', -⟩ := hwaits.wakeFirst
    rw [hs'] at hstep
    cases hstep
    refine ⟨hw', Or.inr rfl, fun _ => hnone, fun t _ ht => absurd ht (hnone t), fun _ _ => ?_⟩
    exact ⟨pos, (hwaits.blocked pos List.mem_cons_self).1, (List.nodup_cons.mp hwaits.nodup).1⟩

theorem Inv.other (h : st.Inv) {c : ThreadCall} (hlegal : st.Legal (.other c)) {s : Sched}
    (hc : st.sched.call c = .ok s) : Inv { st with sched := s } :=
  ⟨h.waits.call hc hlegal, h.bit, h.free, h.exclusive, h.handed⟩

theorem Inv.step (h : st.Inv) {c : MutexCall} (hlegal : st.Legal c)
    (hstep : st.step c = .ok st') : st'.Inv := by
  cases c with
  | lock =>
    rcases h.bit with hheld | hfree
    · have hne : st.mutex.atomic ≠ 1 := by simp [hheld]
      rw [MutexState.step, mutexTryLock, if_neg hne] at hstep
      obtain ⟨⟨b, s, m⟩, hlock, hret⟩ := Fallible.bind_eq_ok.mp hstep
      obtain ⟨r, hr, hm⟩ := Fallible.bind_eq_ok.mp hlock
      obtain ⟨rfl, rfl, rfl⟩ : false = b ∧ r.1 = s ∧ { st.mutex with mwait := r.2 } = m := by
        simpa using Except.ok.inj hm
      cases hret
      exact h.wait hheld hr
    · rw [MutexState.step, mutexTryLock, if_pos hfree, Fallible.ok_bind] at hstep
      cases hstep
      exact h.locked hfree
  | unlock => exact h.unlock hlegal hstep
  | other c =>
    obtain ⟨s, hs, hret⟩ := Fallible.bind_eq_ok.mp hstep
    cases hret
    exact h.other hlegal hs

end MutexState

/-- **Every state of every run is safe**: at most one thread holds the mutex, no thread is on the
wait list twice, and a free mutex with a non-empty wait list has a thread that will try again. -/
theorem mutexRuns_safe (idle : ℕ) (st : MutexState)
    (hr : (mutexRuns idle).ReachableVia MutexState.Legal st) : st.Safe := by
  apply MutexState.Inv.safe
  apply hr.invariant (I := MutexState.Inv)
  · intro st hst
    rw [hst]
    exact MutexState.inv_init idle
  · intro st c st' h hlegal hstep
    exact h.step hlegal hstep

/-- The theorem applies to a run in which two threads wait and the holder unlocks: the mutex is
free, one thread still waits and the other one will try again. -/
theorem mutexRuns_safe_twoWaiters :
    ∃ st, (mutexRuns 0).ReachableVia MutexState.Legal st ∧
      (st.mutex.atomic = 1 ∧ st.mutex.mwait = [2]) ∧ st.Safe := by
  obtain ⟨st, hr, hst⟩ := Lts.System.exists_reachableVia (M := mutexRuns 0) MutexState.Legal
    (P := fun st => st.mutex.atomic = 1 ∧ st.mutex.mwait = [2])
    [.other (.resume 1), .other (.resume 2), .lock, .other .schedule, .lock, .lock, .unlock] rfl
    (by decide)
  exact ⟨st, hr, hst, mutexRuns_safe 0 st hr⟩

end Ginkgo.Core
