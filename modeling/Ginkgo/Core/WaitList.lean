import Ginkgo.Core.Sched

/-!
# Wait lists

What `mutex_lock` and `semaphore_down` do when they have to wait, and what `mutex_unlock` and
`semaphore_up` do to wake a waiter.  Both use a list `mwait` that links the nodes `mlist` of the
waiting threads.

## Main results

* `Waits.waitOn`, `Waits.wakeFirst`, `Waits.call` — the
  invariant is kept by waiting, by waking, and by what the other threads do.
-/

namespace Ginkgo.Core

/-- The code of a thread that has to wait: put the current thread on the list unless it is on one
already, and block. -/
def waitOn (s : Sched) (mwait : List ℕ) : Except Fault (Sched × List ℕ) := do
  let self := s.current
  let (s, mwait) :=
    if s.mlist self then (s, mwait) else (s.setMlist self true, mwait ++ [self])
  let s ← threadSuspend s self
  return (s, mwait)

/-- The code that wakes a waiter: take the first thread from the list and resume it. -/
def wakeFirst (s : Sched) : List ℕ → Except Fault (Sched × List ℕ)
  | [] => .ok (s, [])
  | pos :: rest => do
    let s ← threadResume (s.setMlist pos false) pos
    return (s, rest)

/-- The wait list `mwait` and the threads in the waiting loop, `w`, are consistent. -/
structure Waits (s : Sched) (mwait : List ℕ) (w : ℕ → Prop) : Prop where
  ok : s.Ok
  linked : ∀ t, s.mlist t = true ↔ t ∈ mwait
  blocked : ∀ t ∈ mwait, w t ∧ s.status t = .suspend
  woken : ∀ t, w t → t ∈ mwait ∨ t ∈ s.runnable
  nodup : mwait.Nodup

namespace Waits

variable {s s' : Sched} {mwait : List ℕ} {w w' : ℕ → Prop}

theorem not_mem_of_runnable (h : Waits s mwait w) {t : ℕ} (ht : t ∈ s.runnable) : t ∉ mwait := by
  intro hmem
  have hst := (h.blocked t hmem).2
  rcases List.mem_cons.mp ht with he | hr
  · exact h.ok.ne_current_of_suspend hst he
  · exact h.ok.not_mem_of_suspend hst hr

theorem current_not_mem (h : Waits s mwait w) : s.current ∉ mwait :=
  h.not_mem_of_runnable List.mem_cons_self

theorem done (h : Waits s mwait w) (hw : ∀ t, w' t ↔ w t ∧ t ≠ s.current) :
    Waits s mwait w' where
  ok := h.ok
  linked := h.linked
  blocked t ht := by
    have hne : t ≠ s.current := ne_of_mem_of_not_mem ht h.current_not_mem
    exact ⟨(hw t).mpr ⟨(h.blocked t ht).1, hne⟩, (h.blocked t ht).2⟩
  woken t ht := h.woken t ((hw t).mp ht).1
  nodup := h.nodup

/-- **Waiting**: the current thread is put on the list and blocked. -/
theorem waitOn (h : Waits s mwait w) {r : Sched × List ℕ} (hr : Core.waitOn s mwait = .ok r)
    (hw : ∀ t, w' t ↔ w t ∨ t = s.current) :
    r.2 = mwait ++ [s.current] ∧ Waits r.1 r.2 w' ∧
      (s.setMlist s.current true).Moves r.1 [s.current] [] := by
  have hlink : s.mlist s.current = false := by
    have := mt (h.linked s.current).mp h.current_not_mem
    simpa using this
  obtain ⟨s₁, hs₁⟩ : ∃ s₁, s₁ = s.setMlist s.current true := ⟨_, rfl⟩
  have hok : s₁.Ok := hs₁ ▸ h.ok.setMlist _ _
  have hcur : s₁.current = s.current := by rw [hs₁]; rfl
  rw [Core.waitOn] at hr
  simp only [hlink, Bool.false_eq_true, if_false, ← hs₁] at hr
  obtain ⟨s₂, hs₂, hret⟩ := Fallible.bind_eq_ok.mp hr
  obtain rfl : (s₂, mwait ++ [s.current]) = r := Except.ok.inj hret
  rw [← hcur] at hs₂
  rcases threadSuspend_moves hok with hp | ⟨s₃, hs₃, hm, hst⟩
  · cases hp.symm.trans hs₂
  obtain rfl : s₃ = s₂ := Except.ok.inj (hs₃.symm.trans hs₂)
  rw [hcur] at hm hst
  have hkeep : ∀ t ∈ mwait, s₃.status t = .suspend := by
    intro t ht
    apply hm.suspend t (by simp)
    rw [hs₁]
    exact (h.blocked t ht).2
  refine ⟨rfl, ⟨hm.ok, ?_, ?_, ?_, ?_⟩, hs₁ ▸ hm⟩
  · intro t
    rw [hm.mlist, hs₁, Sched.setMlist]
    by_cases ht : t = s.current
    · simp [ht]
    · simp [ht, h.linked t]
  · intro t ht
    rcases List.mem_append.mp ht with ht | ht
    · exact ⟨(hw t).mpr (Or.inl (h.blocked t ht).1), hkeep t ht⟩
    · rw [List.mem_singleton.mp ht]
      exact ⟨(hw _).mpr (Or.inr rfl), hst⟩
  · intro t ht
    by_cases hc : t = s.current
    · simp [hc]
    · have hwt : w t := ((hw t).mp ht).resolve_right hc
      rcases h.woken t hwt with hmem | hrun
      · exact Or.inl (List.mem_append_left _ hmem)
      · right
        apply hm.mem _ (by simpa using hc)
        rw [hs₁]
        exact hrun
  · simpa [List.nodup_append, h.nodup] using
      fun a ha => ne_of_mem_of_not_mem ha h.current_not_mem

/-- **Waking**: the first thread of the list is taken from it and can run. -/
theorem wakeFirst {pos : ℕ} {rest : List ℕ} (h : Waits s (pos :: rest) w) :
    ∃ s', Core.wakeFirst s (pos :: rest) = .ok (s', rest) ∧ Waits s' rest w ∧
      (s.setMlist pos false).Moves s' [] [pos] ∧ s'.current = s.current := by
  have hst : (s.setMlist pos false).status pos = .suspend :=
    (h.blocked pos List.mem_cons_self).2
  have hnodup := List.nodup_cons.mp h.nodup
  obtain ⟨s', hs', hm, hcur, -⟩ := threadResume_moves (h.ok.setMlist pos false) hst
  refine ⟨s', by rw [Core.wakeFirst, hs', Fallible.ok_bind]; rfl,
    ⟨hm.ok, ?_, ?_, ?_, hnodup.2⟩, hm, hcur⟩
  · intro t
    rw [hm.mlist, Sched.setMlist]
    by_cases ht : t = pos
    · simp [ht, hnodup.1]
    · simp [ht, h.linked t]
  · intro t ht
    have hne : t ≠ pos := ne_of_mem_of_not_mem ht hnodup.1
    obtain ⟨hwt, hs⟩ := h.blocked t (List.mem_cons_of_mem pos ht)
    exact ⟨hwt, hm.suspend t (by simpa using hne) hs⟩
  · intro t ht
    rcases h.woken t ht with hmem | hrun
    · rcases List.mem_cons.mp hmem with rfl | hmem
      · exact Or.inr (hm.mem_enters (by simp) (by simp))
      · exact Or.inl hmem
    · exact Or.inr (hm.mem hrun (by simp))

/-- Calls about threads outside the waiting loop keep the invariant. -/
theorem call (h : Waits s mwait w) {c : ThreadCall} (hc : s.call c = .ok s')
    (hw : ¬ w (c.subject s)) : Waits s' mwait w := by
  have hm := h.ok.call hc
  refine ⟨hm.ok, fun t => by rw [hm.mlist]; exact h.linked t, ?_, ?_, h.nodup⟩
  · intro t ht
    obtain ⟨hwt, hs⟩ := h.blocked t ht
    exact ⟨hwt, hm.suspend t (fun hin => hw (c.eq_subject_of_enters hin ▸ hwt)) hs⟩
  · intro t ht
    rcases h.woken t ht with hmem | hrun
    · exact Or.inl hmem
    · exact Or.inr (hm.mem hrun fun hin => hw (c.eq_subject_of_leaves hin ▸ ht))

end Waits

end Ginkgo.Core
