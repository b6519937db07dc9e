import Ginkgo.Core.Sched
import Ginkgo.Lib.Lts

/-!
# Statuses and the ready list

The runs of the scheduler from `do_task_init`.  `thread_resume` and `thread_suspend` look at the
status of a thread only, and so rely on it to say where the thread is.  `schedule` puts a thread
that is preempted on the ready list and leaves its status at `TASK_STATUS_RUNNING`.

## Main results

* `Sched.Agrees.step_iff` — a call keeps the agreement exactly if it does not preempt
  a thread in favour of another one.
* `schedRuns_agrees` — the agreement in every run without such a preemption.
* `turnRuns_exact` — a ready thread runs when the threads before it on the list have run.
-/

namespace Ginkgo.Core

open Function (update update_self update_of_ne update_apply)

/-- The runs of the scheduler, from any first thread. -/
def schedRuns : Lts.System Sched ThreadCall Fault where
  init s := ∃ idle, s = doTaskInit idle
  step := Sched.call

/-- **Statuses and ready list agree.** -/
structure Sched.Agrees (s : Sched) : Prop where
  ready : ∀ t, t ∈ s.ready ↔ s.status t = .ready
  nodup : s.ready.Nodup
  running : ∀ t, s.status t = .running ↔ t = s.current

/-- `thread_resume` and `thread_suspend` take the branches that the ready list asks for. -/
structure Sched.Matches (s : Sched) : Prop where
  resume : ∀ t, threadResume s t =
    if t ∈ s.ready ∨ t = s.current ∨ s.status t = .exit then .ok s
    else schedulerEnqueueTask (s.setStatus t .ready) t
  suspend : ∀ t, threadSuspend s t =
    if t ∈ s.ready then .ok (schedulerDequeueTask (s.setStatus t .suspend) t)
    else if t = s.current then schedule (s.setStatus t .suspend)
    else .ok s

/-- The call does not preempt a thread in favour of another one. -/
def Sched.Calm (s : Sched) (c : ThreadCall) : Prop := c = .schedule → s.ready = []

instance (s : Sched) (c : ThreadCall) : Decidable (s.Calm c) := by
  unfold Sched.Calm
  infer_instance

section

variable {s s' : Sched} {t : ℕ} {rest : List ℕ}

theorem Sched.Agrees.current_notMem (h : s.Agrees) : s.current ∉ s.ready := by
  intro hmem
  have hready := (h.ready _).mp hmem
  rw [(h.running _).mpr rfl] at hready
  cases hready

theorem Sched.Agrees.ok (h : s.Agrees) : s.Ok where
  running := (h.running _).mpr rfl
  current := h.current_notMem
  nodup := h.nodup
  ready t ht := Or.inl ((h.ready t).mp ht)

theorem doTaskInit_agrees (idle : ℕ) : (doTaskInit idle).Agrees where
  ready t := by
    simp only [doTaskInit, List.not_mem_nil, false_iff, update_apply]
    split_ifs <;> decide
  nodup := List.nodup_nil
  running t := by
    simp only [doTaskInit, update_apply]
    split_ifs with h <;> simp [h]

theorem Sched.Agrees.matches (h : s.Agrees) : s.Matches where
  resume t := by
    have hready := h.ready t
    have hrunning := h.running t
    cases hst : s.status t with
    | running =>
      rw [threadResume_of_ne (by simp [hst]), if_pos (Or.inr (Or.inl (hrunning.mp hst)))]
    | ready => simp [threadResume, hst, hready.mpr hst]
    | suspend =>
      have hnot : t ∉ s.ready := by simp [hready, hst]
      have hne : t ≠ s.current := by simp [← hrunning, hst]
      simp [threadResume, hst, hnot, hne]
    | exit => simp [threadResume, hst]
  suspend t := by
    have hready := h.ready t
    have hrunning := h.running t
    simp only [threadSuspend, hready, hrunning]

theorem Sched.Agrees.leave (h : s.Agrees) {st : TaskStatus} (hst : st = .suspend ∨ st = .exit)
    (hr : s.ready = t :: rest) : (s.leave st t rest).Agrees := by
  have hnodup := h.nodup
  have hcur := h.current_notMem
  have hready := h.ready
  rw [hr, List.nodup_cons] at hnodup
  rw [hr, List.mem_cons, not_or] at hcur
  simp only [hr, List.mem_cons] at hready
  have hstop : st ≠ .ready ∧ st ≠ .running := by
    rcases hst with rfl | rfl <;> decide
  refine ⟨fun u => ?_, hnodup.2, fun u => ?_⟩
  · rw [Sched.leave]
    dsimp only
    by_cases hut : u = t
    · subst hut
      simp [hnodup.1]
    · rw [update_of_ne hut]
      by_cases huc : u = s.current
      · rw [huc, update_self]
        simp [hcur.2, hstop.1]
      · rw [update_of_ne huc, ← hready u]
        simp [hut]
  · rw [Sched.leave]
    dsimp only
    by_cases hut : u = t
    · simp [hut]
    · rw [update_of_ne hut]
      by_cases huc : u = s.current
      · rw [huc, update_self]
        simp [hstop.2, hcur.1]
      · rw [update_of_ne huc, h.running u]
        simp [hut, huc]

theorem Sched.Agrees.resume (h : s.Agrees) (ht : s.status t = .suspend) :
    Sched.Agrees { s with
      ready := s.ready ++ [t]
      status := update s.status t .ready } := by
  have hnot := h.ok.not_mem_of_suspend ht
  have hne := h.ok.ne_current_of_suspend ht
  refine ⟨fun u => ?_, (threadResume_ok h.ok ht).nodup, fun u => ?_⟩
  · dsimp only
    by_cases hut : u = t
    · simp [hut]
    · rw [update_of_ne hut, ← h.ready u]
      simp [hut]
  · dsimp only
    by_cases hut : u = t
    · subst hut
      simp [hne]
    · rw [update_of_ne hut, h.running u]

theorem Sched.Agrees.not_agrees_schedule (h : s.Agrees) (hr : s.ready = t :: rest) :
    ¬ Sched.Agrees { s with
      current := t
      ready := rest ++ [s.current]
      status := update s.status t .running } := by
  intro h'
  have hne : s.current ≠ t := by
    intro heq
    exact h.current_notMem (by rw [hr, heq]; exact List.mem_cons_self)
  have hready := (h'.ready s.current).mp (List.mem_append_right _ (List.mem_singleton_self _))
  dsimp only at hready
  rw [update_of_ne hne, (h.running _).mpr rfl] at hready
  cases hready

/-- **A call keeps the agreement exactly if it does not preempt a thread in favour of another
one.** -/
theorem Sched.Agrees.step_iff (h : s.Agrees) {c : ThreadCall} (hc : s.call c = .ok s') :
    s'.Agrees ↔ s.Calm c := by
  cases c with
  | schedule =>
    cases hr : s.ready with
    | nil =>
      obtain rfl : s = s' := Except.ok.inj ((schedule_nil h.ok hr).symm.trans hc)
      exact iff_of_true h fun _ => hr
    | cons t rest =>
      obtain rfl := Except.ok.inj ((schedule_cons h.ok hr).symm.trans hc)
      refine iff_of_false (h.not_agrees_schedule hr) fun hcalm => ?_
      rw [hcalm rfl] at hr
      cases hr
  | suspend =>
    refine iff_of_true ?_ nofun
    cases hr : s.ready with
    | nil => cases (threadSuspend_current_nil h.ok hr).symm.trans hc
    | cons t rest =>
      obtain rfl := Except.ok.inj ((threadSuspend_current h.ok hr).symm.trans hc)
      exact h.leave (Or.inl rfl) hr
  | resume t =>
    refine iff_of_true ?_ nofun
    by_cases ht : s.status t = .suspend
    · obtain rfl := Except.ok.inj ((threadResume_suspend h.ok ht).symm.trans hc)
      exact h.resume ht
    · obtain rfl : s = s' := Except.ok.inj ((threadResume_of_ne ht).symm.trans hc)
      exact h
  | exit =>
    refine iff_of_true ?_ nofun
    have hc := (schedule_setStatus h.ok (Or.inr rfl)).symm.trans hc
    cases hr : s.ready with
    | nil => simp [hr] at hc
    | cons t rest =>
      rw [hr] at hc
      cases hc
      exact h.leave (Or.inr rfl) hr

end

/-- **Statuses and ready list agree in every run** in which a thread is preempted only while no
other thread is ready; the next call breaks the agreement exactly if it is another preemption. -/
theorem schedRuns_agrees (s : Sched) (hr : schedRuns.ReachableVia Sched.Calm s) :
    s.Agrees ∧ s.Matches ∧ ∀ c s', s.call c = .ok s' → (s'.Agrees ↔ s.Calm c) := by
  have h : s.Agrees := by
    refine hr.invariant (I := Sched.Agrees) ?_ ?_
    · rintro s ⟨idle, rfl⟩
      exact doTaskInit_agrees idle
    · intro s c s' hagrees hcalm hstep
      exact (hagrees.step_iff hstep).mpr hcalm
  exact ⟨h, h.matches, fun c s' hc => h.step_iff hc⟩

/-- The theorem applies to a run in which a thread is preempted, one is resumed and one blocks. -/
theorem schedRuns_agrees_twoThreads :
    ∃ s, schedRuns.ReachableVia Sched.Calm s ∧
      (s.current = 2 ∧ s.ready = [1] ∧ s.status 0 = .suspend) ∧ s.Agrees := by
  obtain ⟨s, hr, hs⟩ := Lts.System.exists_reachableVia (M := schedRuns) Sched.Calm
    (s := doTaskInit 0) (P := fun s => s.current = 2 ∧ s.ready = [1] ∧ s.status 0 = .suspend)
    [.schedule, .resume 2, .resume 1, .suspend] ⟨0, rfl⟩ (by decide)
  exact ⟨s, hr, hs, (schedRuns_agrees s hr).1⟩

/-- A thread is preempted in favour of another one: it is on the ready list with the status
`TASK_STATUS_RUNNING`, which two threads have then. -/
theorem schedRuns_preempted :
    ∃ s, schedRuns.Reachable s ∧ s.current = 1 ∧ s.ready = [0] ∧ s.status 0 = .running ∧
      s.status 1 = .running :=
  Lts.System.exists_reachableVia (M := schedRuns) (fun _ _ => True) (s := doTaskInit 0)
    (P := fun s => s.current = 1 ∧ s.ready = [0] ∧ s.status 0 = .running ∧ s.status 1 = .running)
    [.resume 1, .schedule] ⟨0, rfl⟩ (by decide)

/-! ## Turns -/

/-- A call of the scheduler. -/
inductive TurnCall
  | call (c : ThreadCall)
  /-- `schedule_to`, by which the IPC passes the processor on. -/
  | handOver (t : ℕ)

namespace TurnCall

/-- The effect of a call. -/
def run (s : Sched) : TurnCall → Except Fault Sched
  | .call c => s.call c
  | .handOver t => scheduleTo s t

/-- The processor is passed on to a suspended thread. -/
def Legal (s : Sched) : TurnCall → Prop
  | .call _ => True
  | .handOver t => s.status t = .suspend

/-- The number of threads that the call takes from the ready list. -/
def turns : TurnCall → ℕ
  | .call (.resume _) | .handOver _ => 0
  | .call _ => 1

end TurnCall

/-- The runs from the states `start`, with the number of threads that were taken from the ready
list. -/
def turnRuns (start : Sched → Prop) : Lts.System (Sched × ℕ) TurnCall Fault where
  init x := start x.1 ∧ x.2 = 0
  step x c := (c.run x.1).map fun s => (s, x.2 + c.turns)

section

variable {s s' : Sched} {c : TurnCall} {pre post : List ℕ} {t n : ℕ}

theorem Sched.Ok.run (h : s.Ok) (hc : c.Legal s) (hs : c.run s = .ok s') : s'.Ok := by
  cases c with
  | call c => exact (h.call hs).ok
  | handOver t =>
    obtain ⟨-, rfl⟩ := scheduleTo_eq_ok.mp hs
    exact h.handOver hc

/-- **The ready list is a queue**: threads are put at its end, or its first thread is taken. -/
theorem Sched.Ok.queue (h : s.Ok) (hs : c.run s = .ok s') (hne : s.ready ≠ []) :
    ∃ new, c.turns = 0 ∧ s'.ready = s.ready ++ new ∨
      c.turns = 1 ∧ s.ready ++ new = s'.current :: s'.ready := by
  obtain ⟨u, rest, hr⟩ := List.exists_cons_of_ne_nil hne
  rcases c with (_ | _ | t | _) | t
  · cases (schedule_cons h hr).symm.trans hs
    exact ⟨[s.current], Or.inr ⟨rfl, by simp [hr]⟩⟩
  · cases (threadSuspend_current h hr).symm.trans hs
    exact ⟨[], Or.inr ⟨rfl, by simp [hr, Sched.leave]⟩⟩
  · by_cases ht : s.status t = .suspend
    · cases (threadResume_suspend h ht).symm.trans hs
      exact ⟨[t], Or.inl ⟨rfl, rfl⟩⟩
    · cases (threadResume_of_ne ht).symm.trans hs
      exact ⟨[], Or.inl ⟨rfl, by simp⟩⟩
  · have hexit := (schedule_setStatus h (Or.inr rfl)).symm.trans hs
    rw [hr] at hexit
    cases hexit
    exact ⟨[], Or.inr ⟨rfl, by simp [hr, Sched.leave]⟩⟩
  · obtain ⟨-, rfl⟩ := scheduleTo_eq_ok.mp hs
    exact ⟨[], Or.inl ⟨rfl, by simp [Sched.leave]⟩⟩

/-- The thread `t` is behind the threads `pre` without the first `n`, or runs as the next one. -/
def Sched.InLine (pre : List ℕ) (t : ℕ) (x : Sched × ℕ) : Prop :=
  x.2 ≤ pre.length ∧ (∃ post, x.1.ready = pre.drop x.2 ++ t :: post) ∨
    x.2 = pre.length + 1 ∧ x.1.current = t

/-- **Ready threads take turns.**  In every run in which a thread has not run so far, the threads
before it on the ready list are those that were before it, without as many as have been taken from
the list; and the next one that is taken is the thread itself. -/
theorem turnRuns_exact {m : ℕ}
    (hs : (turnRuns fun s => ∃ idle, s = doTaskInit idle).ReachableVia (fun x c => c.Legal x.1)
      (s, m))
    (hready : s.ready = pre ++ t :: post)
    (hrun : (turnRuns (· = s)).ReachableVia (fun x c => c.Legal x.1 ∧ x.1.current ≠ t) (s', n)) :
    Sched.InLine pre t (s', n) := by
  have hok : s.Ok := by
    refine hs.invariant (I := fun x => x.1.Ok) ?_ ?_
    · rintro x ⟨⟨idle, hx⟩, -⟩
      rw [hx]
      exact doTaskInit_ok idle
    · intro x c x' h hlegal hstep
      obtain ⟨s₁, hs₁, rfl⟩ := Fallible.map_eq_ok.mp hstep
      exact h.run hlegal hs₁
  refine (hrun.invariant (I := fun x => x.1.Ok ∧ Sched.InLine pre t x) ?_ ?_).2
  · rintro x ⟨rfl, hx⟩
    rw [Sched.InLine, hx]
    exact ⟨hok, Or.inl ⟨Nat.zero_le _, post, by simpa using hready⟩⟩
  · rintro ⟨s₁, k⟩ c x' ⟨h, hline⟩ ⟨hlegal, hne⟩ hstep
    obtain ⟨s₂, hs₂, rfl⟩ := Fallible.map_eq_ok.mp hstep
    obtain ⟨hk, post', hr⟩ := hline.resolve_right fun hcur => hne hcur.2
    refine ⟨h.run hlegal hs₂, ?_⟩
    dsimp only at hk hr
    obtain ⟨new, ⟨hc, hnew⟩ | ⟨hc, hnew⟩⟩ := h.queue hs₂ (by simp [hr])
    · rw [Sched.InLine, hc]
      exact Or.inl ⟨hk, post' ++ new, by simp [hnew, hr]⟩
    · rw [Sched.InLine, hc]
      rw [hr] at hnew
      rcases Nat.lt_or_eq_of_le hk with hlt | rfl
      · rw [List.drop_eq_getElem_cons hlt] at hnew
        exact Or.inl ⟨hlt, post' ++ new, by simpa using (List.cons.inj hnew).2.symm⟩
      · rw [List.drop_length] at hnew
        exact Or.inr ⟨rfl, (List.cons.inj hnew).1.symm⟩

end

/-- Threads `1` and `3` are ready. -/
def twoReady : Sched :=
  ⟨0, [1, 3], update (update (doTaskInit 0).status 1 .ready) 3 .ready, fun _ => false⟩

/-- Thread `3` is behind thread `1`, and runs after it. -/
theorem turnRuns_exact_twoReady : ∃ s', s'.current = 3 ∧ Sched.InLine [1] 3 (s', 2) := by
  have hinit : (turnRuns fun s => ∃ idle, s = doTaskInit idle).ReachableVia
    (fun x c => c.Legal x.1) (doTaskInit 0, 0) := .init ⟨⟨0, rfl⟩, rfl⟩
  have hs := (hinit.step (TurnCall.call (.resume 1)) trivial rfl).step (TurnCall.call (.resume 3))
    trivial rfl
  have hstart : (turnRuns (· = twoReady)).ReachableVia
    (fun x c => c.Legal x.1 ∧ x.1.current ≠ 3) (twoReady, 0) := .init ⟨rfl, rfl⟩
  have hrun := (hstart.step (TurnCall.call .schedule) ⟨trivial, by decide⟩ rfl).step
    (TurnCall.call .suspend) ⟨trivial, by decide⟩ rfl
  exact ⟨_, rfl, turnRuns_exact (s := twoReady) hs (show _ = [1] ++ 3 :: [] from rfl) hrun⟩

end Ginkgo.Core
