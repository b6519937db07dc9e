import Ginkgo.Core.WaitList
import Ginkgo.Lib.Lts

/-!
# The kernel semaphore

The model of `core/semaphore.c` and its runs.  As for the mutex, a step is one pass of the loop of
`semaphore_down`, one call of `semaphore_up`, or something that a thread does outside these
functions.

The counter is an `int`, so it is negative if `semaphore_init` is given a count of `2 ^ 31` or
more, or if `semaphore_up` is called while it is `2 ^ 31 - 1`.

## Main results

* `semaphoreRuns_accounted` — this holds in every run in which the counter stays in
  the range of `int`.
* `semaphore_counter_negative` — it fails otherwise.
-/

namespace Ginkgo.Core

/-- `struct semaphore_t`. -/
structure Semaphore where
  /-- The counter. -/
  atomic : ℤ
  /-- The waiting threads. -/
  mwait : List ℕ

/-- `semaphore_init`. -/
def semaphoreInit (count : ℕ) : Semaphore := ⟨toInt32 count, []⟩

/-- One pass of the loop of `semaphore_down`: take a unit, or wait.  The loop is left when the
result is `true`; otherwise the thread makes the next pass when it runs again. -/
def semaphoreTryDown (s : Sched) (m : Semaphore) : Except Fault (Bool × Sched × Semaphore) :=
  if 0 < m.atomic then .ok (true, s, { m with atomic := toInt32 (m.atomic - 1) })
  else do
    let (s, mwait) ← waitOn s m.mwait
    return (false, s, { m with mwait := mwait })

/-- `semaphore_up`. -/
def semaphoreUp (s : Sched) (m : Semaphore) : Except Fault (Sched × Semaphore) :=
  let atomic := toInt32 (m.atomic + 1)
  if 0 < atomic then do
    let (s, mwait) ← wakeFirst s m.mwait
    return (s, ⟨atomic, mwait⟩)
  else .ok (s, { m with atomic := atomic })

/-! ## The transition system -/

/-- A semaphore and the threads that use it. -/
structure SemaphoreState where
  /-- The scheduler. -/
  sched : Sched
  /-- The semaphore. -/
  sem : Semaphore
  /-- The thread is in the loop of `semaphore_down`, after a pass that had to wait. -/
  waiting : ℕ → Bool
  /-- The number of completed calls of `semaphore_up`. -/
  ups : ℕ
  /-- The number of completed calls of `semaphore_down`. -/
  downs : ℕ

/-- A step of the current thread. -/
inductive SemaphoreCall
  /-- A pass of the loop of `semaphore_down`. -/
  | down
  /-- `semaphore_up`. -/
  | up
  /-- Anything else. -/
  | other (c : ThreadCall)
deriving DecidableEq, Repr

namespace SemaphoreState

/-- The effect of a step. -/
def step (st : SemaphoreState) : SemaphoreCall → Except Fault SemaphoreState
  | .down => do
    let (taken, s, m) ← semaphoreTryDown st.sched st.sem
    return { st with
      sched := s
      sem := m
      waiting := Function.update st.waiting st.sched.current !taken
      downs := if taken then st.downs + 1 else st.downs }
  | .up => do
    let (s, m) ← semaphoreUp st.sched st.sem
    return { st with sched := s, sem := m, ups := st.ups + 1 }
  | .other c => do
    let s ← st.sched.call c
    return { st with sched := s }

/-- The steps that threads take: a thread in the loop of `semaphore_down` makes the next pass, and
only the semaphore wakes the threads that wait for it. -/
def Legal (st : SemaphoreState) : SemaphoreCall → Prop
  | .down => True
  | .up => st.waiting st.sched.current = false
  | .other d => st.waiting (d.subject st.sched) = false

instance (st : SemaphoreState) (c : SemaphoreCall) : Decidable (st.Legal c) :=
  match c with
  | .down => inferInstanceAs (Decidable True)
  | .up => inferInstanceAs (Decidable (_ = _))
  | .other _ => inferInstanceAs (Decidable (_ = _))

/-- `semaphore_up` is called only while the counter is below the largest `int`. -/
def InRange (st : SemaphoreState) : SemaphoreCall → Prop
  | .up => st.sem.atomic < 2 ^ 31 - 1
  | _ => True

instance (st : SemaphoreState) (c : SemaphoreCall) : Decidable (st.InRange c) :=
  match c with
  | .down => inferInstanceAs (Decidable True)
  | .up => inferInstanceAs (Decidable (_ < _))
  | .other _ => inferInstanceAs (Decidable True)

/-- The threads that have been woken and have not tried again. -/
def woken (st : SemaphoreState) : List ℕ :=
  st.sched.runnable.filter fun t => st.waiting t && !decide (t ∈ st.sem.mwait)

/-- The counter of a semaphore that was set up with `c` units agrees with the calls. -/
structure Accounted (c : ℕ) (st : SemaphoreState) : Prop where
  nonneg : 0 ≤ st.sem.atomic
  balance : st.sem.atomic = c + st.ups - st.downs
  available : st.sem.mwait ≠ [] → st.sem.atomic ≤ st.woken.length

end SemaphoreState

/-- The runs of any number of threads that use one semaphore, from `do_task_init` and
`semaphore_init`. -/
def semaphoreRuns (idle c : ℕ) : Lts.System SemaphoreState SemaphoreCall Fault where
  init st := st = ⟨doTaskInit idle, semaphoreInit c, fun _ => false, 0, 0⟩
  step := SemaphoreState.step

/-- The counter is negative after `semaphore_init` with `2 ^ 31` units, and after `semaphore_up`
on a semaphore with `2 ^ 31 - 1` units. -/
theorem semaphore_counter_negative :
    (∃ st, (semaphoreRuns 0 (2 ^ 31)).ReachableVia SemaphoreState.Legal st ∧
      st.sem.atomic = -2 ^ 31 ∧ st.ups = 0 ∧ st.downs = 0) ∧
    ∃ st, (semaphoreRuns 0 (2 ^ 31 - 1)).ReachableVia SemaphoreState.Legal st ∧
      st.sem.atomic = -2 ^ 31 ∧ st.ups = 1 ∧ st.downs = 0 := by
  constructor
  · exact Lts.System.exists_reachableVia SemaphoreState.Legal [] rfl (by decide)
  · exact Lts.System.exists_reachableVia SemaphoreState.Legal [.up] rfl (by decide)

/-! ## The invariant -/

namespace SemaphoreState

/-- The invariant of the runs. -/
structure Inv (c : ℕ) (st : SemaphoreState) : Prop where
  waits : Waits st.sched st.sem.mwait fun t => st.waiting t = true
  nonneg : 0 ≤ st.sem.atomic
  bound : st.sem.atomic < 2 ^ 31
  balance : st.sem.atomic = c + st.ups - st.downs
  available : st.sem.mwait ≠ [] → st.sem.atomic ≤ st.sched.runnable.countP st.waiting

variable {c : ℕ} {st st' : SemaphoreState}

theorem Inv.accounted (h : st.Inv c) : st.Accounted c where
  nonneg := h.nonneg
  balance := h.balance
  available hne := by
    have hwoken : st.woken = st.sched.runnable.filter st.waiting := by
      apply List.filter_congr
      intro t ht
      simp [h.waits.not_mem_of_runnable ht]
    rw [hwoken, ← List.countP_eq_length_filter]
    exact h.available hne

theorem inv_init (idle : ℕ) (hc : c < 2 ^ 31) :
    Inv c ⟨doTaskInit idle, semaphoreInit c, fun _ => false, 0, 0⟩ := by
  have hcount : toInt32 (c : ℤ) = c := toInt32_of_lt (by omega) (by omega)
  refine ⟨⟨doTaskInit_ok idle, ?_, ?_, ?_, ?_⟩, ?_, ?_, ?_, ?_⟩
  · simp [semaphoreInit, doTaskInit]
  · simp [semaphoreInit]
  · simp
  · simp [semaphoreInit]
  · simp [semaphoreInit, hcount]
  · simp only [semaphoreInit, hcount]
    omega
  · simp [semaphoreInit, hcount]
  · simp [semaphoreInit]

theorem Inv.taken (h : st.Inv c) (hpos : 0 < st.sem.atomic) :
    Inv c { st with
      sem := { st.sem with atomic := toInt32 (st.sem.atomic - 1) }
      waiting := Function.update st.waiting st.sched.current false
      downs := st.downs + 1 } := by
  have hbound := h.bound
  have hbalance := h.balance
  have hdec : toInt32 (st.sem.atomic - 1) = st.sem.atomic - 1 :=
    toInt32_of_lt (by omega) (by omega)
  have hready : st.sched.ready.countP (Function.update st.waiting st.sched.current false) =
      st.sched.ready.countP st.waiting := by
    apply List.countP_congr
    intro t ht
    rw [Function.update_of_ne (ne_of_mem_of_not_mem ht h.waits.ok.current)]
  refine ⟨h.waits.done ?_, ?_, ?_, ?_, ?_⟩
  · intro t
    by_cases ht : t = st.sched.current
    · simp [ht]
    · simp [ht]
  · simp only [hdec]
    omega
  · simp only [hdec]
    omega
  · simp only [hdec]
    push_cast
    omega
  · intro hne
    have hav := h.available hne
    simp only [hdec, Sched.runnable, List.countP_cons, Function.update_self, hready] at hav ⊢
    split_ifs at hav with hw
    · simp only [Bool.false_eq_true, if_false]
      push_cast at hav ⊢
      omega
    · simp only [Bool.false_eq_true, if_false]
      push_cast at hav ⊢
      omega

theorem Inv.wait (h : st.Inv c) (hzero : ¬ 0 < st.sem.atomic) {r : Sched × List ℕ}
    (hr : waitOn st.sched st.sem.mwait = .ok r) :
    Inv c { st with
      sched := r.1
      sem := { st.sem with mwait := r.2 }
      waiting := Function.update st.waiting st.sched.current true } := by
  have hw : ∀ t, Function.update st.waiting st.sched.current true t = true ↔
      st.waiting t = true ∨ t = st.sched.current := by
    intro t
    by_cases ht : t = st.sched.current
    · simp [ht]
    · simp [ht]
  obtain ⟨-, hwaits, -⟩ := h.waits.waitOn hr hw
  refine ⟨hwaits, h.nonneg, h.bound, h.balance, fun _ => ?_⟩
  have := h.nonneg
  dsimp only
  omega

theorem Inv.up (h : st.Inv c) (hrange : st.sem.atomic < 2 ^ 31 - 1)
    (hstep : st.step .up = .ok st') : st'.Inv c := by
  have hnonneg := h.nonneg
  have hbalance := h.balance
  have hinc : toInt32 (st.sem.atomic + 1) = st.sem.atomic + 1 :=
    toInt32_of_lt (by omega) (by omega)
  have hpos : 0 < st.sem.atomic + 1 := by omega
  rw [step, semaphoreUp] at hstep
  simp only [hinc, if_pos hpos] at hstep
  have hwaits := h.waits
  have havail := h.available
  cases hmwait : st.sem.mwait with
  | nil =>
    rw [hmwait] at hstep hwaits
    cases hstep
    refine ⟨hwaits, ?_, ?_, ?_, fun hne => absurd rfl hne⟩
    · dsimp only
      omega
    · dsimp only
      omega
    · push_cast
      omega
  | cons pos rest =>
    rw [hmwait] at hstep hwaits havail
    obtain ⟨s', hs', hw', hm, -⟩ := hwaits.wakeFirst
    rw [hs'] at hstep
    cases hstep
    refine ⟨hw', ?_, ?_, ?_, fun _ => ?_⟩
    · dsimp only
      omega
    · dsimp only
      omega
    · push_cast
      omega
    · -- the woken thread is one more that can run
      have hcount := hm.runnable.countP_eq st.waiting
      have hwpos : st.waiting pos = true := (hwaits.blocked pos List.mem_cons_self).1
      have hav := havail (by simp)
      rw [List.countP_append, List.nil_append, List.countP_singleton, if_pos hwpos] at hcount
      have hrun : (st.sched.setMlist pos false).runnable = st.sched.runnable := rfl
      rw [hrun] at hcount
      dsimp only
      omega

theorem Inv.other (h : st.Inv c) {d : ThreadCall} (hlegal : st.Legal (.other d)) {s : Sched}
    (hd : st.sched.call d = .ok s) : Inv c { st with sched := s } := by
  have hsub : ¬ st.waiting (d.subject st.sched) = true := by simpa [Legal] using hlegal
  have hleave : ∀ t ∈ d.leaves st.sched, ¬ st.waiting t = true := by
    intro t ht
    rwa [d.eq_subject_of_leaves ht]
  have henter : ∀ t ∈ d.enters st.sched, ¬ st.waiting t = true := by
    intro t ht
    rwa [d.eq_subject_of_enters ht]
  refine ⟨h.waits.call hd hsub, h.nonneg, h.bound, h.balance, fun hne => ?_⟩
  have hcount := (h.waits.ok.call hd).runnable.countP_eq st.waiting
  rw [List.countP_append, List.countP_append, List.countP_eq_zero.mpr hleave,
    List.countP_eq_zero.mpr henter, Nat.add_zero, Nat.zero_add] at hcount
  have hav := h.available hne
  rw [hcount] at hav
  exact hav

theorem Inv.step (h : st.Inv c) {d : SemaphoreCall} (hlegal : st.Legal d) (hrange : st.InRange d)
    (hstep : st.step d = .ok st') : st'.Inv c := by
  cases d with
  | down =>
    by_cases hpos : 0 < st.sem.atomic
    · rw [SemaphoreState.step, semaphoreTryDown, if_pos hpos, Fallible.ok_bind] at hstep
      cases hstep
      exact h.taken hpos
    · rw [SemaphoreState.step, semaphoreTryDown, if_neg hpos] at hstep
      obtain ⟨⟨b, s, m⟩, hdown, hret⟩ := Fallible.bind_eq_ok.mp hstep
      obtain ⟨r, hr, hm⟩ := Fallible.bind_eq_ok.mp hdown
      obtain ⟨rfl, rfl, rfl⟩ : false = b ∧ r.1 = s ∧ { st.sem with mwait := r.2 } = m := by
        simpa using Except.ok.inj hm
      cases hret
      exact h.wait hpos hr
  | up => exact h.up hrange hstep
  | other d =>
    obtain ⟨s, hs, hret⟩ := Fallible.bind_eq_ok.mp hstep
    cases hret
    exact h.other hlegal hs

end SemaphoreState

/-- **The semaphore is accounted for in every run** that starts with a count below `2 ^ 31` and
calls `semaphore_up` only while the counter is below `2 ^ 31 - 1`. -/
theorem semaphoreRuns_accounted (idle : ℕ) {c : ℕ} (hc : c < 2 ^ 31) (st : SemaphoreState)
    (hr : (semaphoreRuns idle c).ReachableVia (fun st d => st.Legal d ∧ st.InRange d) st) :
    st.Accounted c := by
  apply SemaphoreState.Inv.accounted
  apply hr.invariant (I := SemaphoreState.Inv c)
  · intro st hst
    rw [hst]
    exact SemaphoreState.inv_init idle hc
  · intro st d st' h hok hstep
    exact h.step hok.1 hok.2 hstep

/-- The theorem applies to a run in which two threads wait and a unit is added: one thread still
waits, and the unit is available to the other one. -/
theorem semaphoreRuns_accounted_twoWaiters :
    ∃ st, (semaphoreRuns 0 0).ReachableVia (fun st d => st.Legal d ∧ st.InRange d) st ∧
      (st.sem.atomic = 1 ∧ st.sem.mwait = [2] ∧ st.woken = [1]) ∧ st.Accounted 0 := by
  obtain ⟨st, hr, hst⟩ := Lts.System.exists_reachableVia (M := semaphoreRuns 0 0)
    (fun st d => st.Legal d ∧ st.InRange d)
    (P := fun st => st.sem.atomic = 1 ∧ st.sem.mwait = [2] ∧ st.woken = [1])
    [.other (.resume 1), .other (.resume 2), .other .schedule, .down, .down, .up] rfl
    (by decide)
  exact ⟨st, hr, hst, semaphoreRuns_accounted 0 (by norm_num) st hr⟩

end Ginkgo.Core
