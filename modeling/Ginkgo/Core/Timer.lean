import Ginkgo.Lib.Lts
import Ginkgo.Lib.SearchTree
import Ginkgo.Machine

/-!
# Timers

The model of `core/timer.c`, with the part of `driver/clockevent.c` that programs the clock event
device, and its runs.  A timer is known by its address.

The red-black tree is a binary tree whose helpers, `rb_insert_color` and `rb_erase`, are known by
their effect on the sequence of its timers.  The descent that finds the place of a new timer is
the one of the source.

A run of `timer_event_handler` is a sequence of steps: it is entered with a reading of the clock,
calls back the expired timers one by one, and is left.  Between the entry of a callback and its
return, the steps are those that the callback takes.

## Main results

* `timerRuns_ordered` — every state of every run is ordered.
-/

namespace Ginkgo.Core

open SearchTree
open Function (update update_self update_of_ne)

/-! ## Time -/

/-- `KTIME_MAX`. -/
def ktimeMax : ℤ := 2 ^ 63 - 1

/-- Conversion of a number to an `s64_t`. -/
def toInt64 (x : ℤ) : ℤ := (x + 2 ^ 63) % 2 ^ 64 - 2 ^ 63

/-- `ktime_add_safe`. -/
def ktimeAddSafe (a b : ℤ) : ℤ :=
  let kt := toInt64 (a + b)
  if kt < 0 ∨ kt < a ∨ kt < b then ktimeMax else kt

theorem ktimeAddSafe_eq {a b : ℤ} (ha : 0 ≤ a) (hb : 0 ≤ b) (hamax : a ≤ ktimeMax)
    (hbmax : b ≤ ktimeMax) : ktimeAddSafe a b = min (a + b) ktimeMax := by
  unfold ktimeAddSafe toInt64
  unfold ktimeMax at *
  dsimp only
  split_ifs with h
  · omega
  · omega

/-! ## The functions of the source -/

/-- `enum timer_state_t`. -/
inductive TimerState
  | inactive
  | enqueued
  | callback
deriving DecidableEq, Repr

/-- `timer_t`. -/
structure Timer where
  /-- The state. -/
  state : TimerState
  /-- The time at which the timer expires. -/
  expires : ℤ

/-- `struct timer_base_t`, and the timers. -/
structure TimerBase where
  /-- The tree. -/
  head : BinaryTree ℕ
  /-- The first timer of the tree. -/
  next : Option ℕ
  /-- The timers. -/
  timer : ℕ → Timer

namespace TimerBase

/-- Set the state of a timer. -/
def setState (b : TimerBase) (t : ℕ) (st : TimerState) : TimerBase :=
  { b with timer := update b.timer t { b.timer t with state := st } }

/-- Set the expiry of a timer. -/
def setExpires (b : TimerBase) (t : ℕ) (e : ℤ) : TimerBase :=
  { b with timer := update b.timer t { b.timer t with expires := e } }

/-- `rb_next`. -/
def rbNext (b : TimerBase) (t : ℕ) : Option ℕ :=
  ((inorder b.head).dropWhile fun u => u ≠ t).tail.head?

end TimerBase

variable (B : Balance ℕ)

/-- `add_timer`. -/
def addTimer (b : TimerBase) (t : ℕ) : Bool × TimerBase :=
  if (b.timer t).state ≠ .inactive then (false, b)
  else
    let head := B.insertColor (link (fun u => (b.timer u).expires) t b.head)
    let next :=
      match b.next with
      | none => t
      | some n => if (b.timer t).expires < (b.timer n).expires then t else n
    (t = next, ({ b with head := head, next := some next }).setState t .enqueued)

/-- `del_timer`. -/
def delTimer (b : TimerBase) (t : ℕ) : Bool × TimerBase :=
  if (b.timer t).state ≠ .enqueued then (false, b)
  else
    let (ret, next) := if b.next = some t then (true, b.rbNext t) else (false, b.next)
    (ret, ({ b with head := B.erase b.head t, next := next }).setState t .inactive)

/-- `timer_init`. -/
def timerInit (b : TimerBase) (t : ℕ) : TimerBase :=
  { b with timer := update b.timer t ⟨.inactive, 0⟩ }

/-- `timer_forward`. -/
def timerForward (b : TimerBase) (t : ℕ) (now interval : ℤ) : TimerBase :=
  b.setExpires t (ktimeAddSafe now interval)

/-- `clockevent_t`: the range of delays that the device can be programmed with. -/
structure ClockEvent where
  /-- `min_delta_ns`. -/
  minDelta : ℤ
  /-- `max_delta_ns`. -/
  maxDelta : ℤ

/-- The clock when a device is programmed. -/
structure Reading where
  /-- What the call of `clockevent_set_event_next` is given as the current time. -/
  now : ℤ
  /-- The time that the device adds the delay to. -/
  dev : ℤ

/-- `clockevent_set_event_next`, for a device that is programmed to fire at `fire`.  The device
counts in ticks; here it is programmed with the delay that is converted to them. -/
def clockeventSetEventNext (ce : ClockEvent) (fire : Option ℤ) (r : Reading) (expires : ℤ) :
    Option ℤ :=
  if expires < r.now then fire
  else
    let delta := expires - r.now
    let delta := if ce.maxDelta < delta then ce.maxDelta else delta
    let delta := if delta < ce.minDelta then ce.minDelta else delta
    some (r.dev + delta)

/-- The timers and the time at which the clock event device is programmed to fire. -/
structure TimerSys where
  /-- The timers. -/
  base : TimerBase
  /-- The device. -/
  fire : Option ℤ

variable (ce : ClockEvent)

/-- Program the device for the first timer, if there is one. -/
def TimerSys.programNext (s : TimerSys) (r : Reading) : TimerSys :=
  match s.base.next with
  | none => s
  | some n => { s with fire := clockeventSetEventNext ce s.fire r (s.base.timer n).expires }

/-- `timer_start`, where the clock is read as `r₁` when the device is programmed after
`del_timer`, and as `r₂` after `add_timer`. -/
def timerStart (s : TimerSys) (t : ℕ) (now interval : ℤ) (r₁ r₂ : Reading) : TimerSys :=
  let (del, base) := delTimer B s.base t
  let s := { s with base := base }
  let s := if del then s.programNext ce r₁ else s
  let (add, base) := addTimer B (s.base.setExpires t (ktimeAddSafe now interval)) t
  let s := { s with base := base }
  if add then
    { s with fire := clockeventSetEventNext ce s.fire r₂ (s.base.timer t).expires }
  else s

/-- `timer_cancel`. -/
def timerCancel (s : TimerSys) (t : ℕ) (r : Reading) : TimerSys :=
  let (del, base) := delTimer B s.base t
  let s := { s with base := base }
  if del then s.programNext ce r else s

/-! ## The transition system -/

/-- What the processor is doing. -/
inductive TimerMode
  /-- It runs threads. -/
  | thread
  /-- It runs `timer_event_handler`, which was entered at `now`. -/
  | handler (now : ℤ)
  /-- It runs the callback of the timer `t`. -/
  | callback (now : ℤ) (t : ℕ)
deriving DecidableEq

/-- A state of a run. -/
structure TimerRun where
  /-- The timers and the device. -/
  sys : TimerSys
  /-- What the processor is doing. -/
  mode : TimerMode
  /-- When a timer was put into the tree, counted by insertions. -/
  stamp : ℕ → ℕ
  /-- The number of insertions. -/
  count : ℕ

/-- A step. -/
inductive TimerCall
  /-- `timer_init(t)`. -/
  | init (t : ℕ)
  /-- `timer_start(t, now, interval)`, by a thread or in a callback. -/
  | start (t : ℕ) (now interval : ℤ) (r₁ r₂ : Reading)
  /-- `timer_cancel(t)`, by a thread or in a callback. -/
  | cancel (t : ℕ) (r : Reading)
  /-- The clock event device interrupts, and `timer_event_handler` reads the clock. -/
  | enter (now : ℤ)
  /-- The handler takes the first timer from the tree and enters its callback. -/
  | expire
  /-- The callback calls `timer_forward` for its timer. -/
  | forward (now interval : ℤ)
  /-- The callback returns. -/
  | ret (restart : Bool)
  /-- The handler is left, at the time `dev`. -/
  | leave (dev : ℤ)

namespace TimerRun

/-- The state after a timer may have been put into the tree. -/
def stamped (st : TimerRun) (t : ℕ) (sys : TimerSys) (mode : TimerMode) : TimerRun :=
  if (sys.base.timer t).state = .enqueued then
    ⟨sys, mode, update st.stamp t st.count, st.count + 1⟩
  else { st with sys := sys, mode := mode }

/-- The effect of a step; there is none if the processor is doing something else. -/
def step (st : TimerRun) : TimerCall → Except Unit TimerRun
  | .init t => .ok { st with sys := { st.sys with base := timerInit st.sys.base t } }
  | .start t now interval r₁ r₂ =>
    match st.mode with
    | .handler _ => .error ()
    | _ => .ok (st.stamped t (timerStart B ce st.sys t now interval r₁ r₂) st.mode)
  | .cancel t r =>
    match st.mode with
    | .handler _ => .error ()
    | _ => .ok { st with sys := timerCancel B ce st.sys t r }
  | .enter now =>
    match st.mode with
    | .thread => .ok { st with mode := .handler now }
    | _ => .error ()
  | .expire =>
    match st.mode, st.sys.base.next with
    | .handler now, some t =>
      if now < (st.sys.base.timer t).expires then .error ()
      else
        let base := (delTimer B st.sys.base t).2.setState t .callback
        .ok { st with sys := { st.sys with base := base }, mode := .callback now t }
    | _, _ => .error ()
  | .forward now interval =>
    match st.mode with
    | .callback _ t =>
      .ok { st with sys := { st.sys with base := timerForward st.sys.base t now interval } }
    | _ => .error ()
  | .ret restart =>
    match st.mode with
    | .callback now t =>
      let base := st.sys.base.setState t .inactive
      let base := if restart then (addTimer B base t).2 else base
      .ok (st.stamped t { st.sys with base := base } (.handler now))
    | _ => .error ()
  | .leave dev =>
    match st.mode with
    | .handler now =>
      match st.sys.base.next with
      | none => .ok { st with mode := .thread }
      | some t =>
        if now < (st.sys.base.timer t).expires then
          .ok { st with sys := st.sys.programNext ce ⟨now, dev⟩, mode := .thread }
        else .error ()
    | _ => .error ()

/-- Only timers that are neither in the tree nor in their callback are initialised. -/
def Fresh (st : TimerRun) : TimerCall → Prop
  | .init t => (st.sys.base.timer t).state = .inactive
  | _ => True

instance (st : TimerRun) (c : TimerCall) : Decidable (st.Fresh c) :=
  match c with
  | .init _ => inferInstanceAs (Decidable (_ = _))
  | .start .. => inferInstanceAs (Decidable True)
  | .cancel .. => inferInstanceAs (Decidable True)
  | .enter _ => inferInstanceAs (Decidable True)
  | .expire => inferInstanceAs (Decidable True)
  | .forward .. => inferInstanceAs (Decidable True)
  | .ret _ => inferInstanceAs (Decidable True)
  | .leave _ => inferInstanceAs (Decidable True)

/-- The timers in the tree, from left to right. -/
def queue (st : TimerRun) : List ℕ := inorder st.sys.base.head

/-- The tree is ordered. -/
structure Ordered (st : TimerRun) : Prop where
  member : ∀ t, t ∈ st.queue ↔ (st.sys.base.timer t).state = .enqueued
  sorted : st.queue.Pairwise fun a b =>
    (st.sys.base.timer a).expires < (st.sys.base.timer b).expires ∨
      (st.sys.base.timer a).expires = (st.sys.base.timer b).expires ∧ st.stamp a < st.stamp b
  first : st.sys.base.next = st.queue.head?
  empty : st.sys.base.next = none ↔ st.sys.base.head = .nil

end TimerRun

/-- An empty tree, and a device that is programmed to fire at `fire`. -/
def TimerRun.initial (fire : Option ℤ) : TimerRun :=
  ⟨⟨⟨.nil, none, fun _ => ⟨.inactive, 0⟩⟩, fire⟩, .thread, fun _ => 0, 0⟩

/-- The runs from an empty tree. -/
def timerRuns : Lts.System TimerRun TimerCall Unit where
  init st := ∃ fire, st = TimerRun.initial fire
  step := TimerRun.step B ce

/-! ## The invariant of the tree -/

/-- The order of the tree: by expiry, then by insertion. -/
def TimerBase.Before (b : TimerBase) (stamp : ℕ → ℕ) (t u : ℕ) : Prop :=
  (b.timer t).expires < (b.timer u).expires ∨
    (b.timer t).expires = (b.timer u).expires ∧ stamp t < stamp u

/-- The tree is ordered, and the insertions are counted by `n`. -/
structure TimerBase.Queue (b : TimerBase) (stamp : ℕ → ℕ) (n : ℕ) : Prop where
  member : ∀ t, t ∈ inorder b.head ↔ (b.timer t).state = .enqueued
  sorted : (inorder b.head).Pairwise (b.Before stamp)
  first : b.next = (inorder b.head).head?
  bound : ∀ t ∈ inorder b.head, stamp t < n

namespace TimerBase.Queue

variable {b : TimerBase} {stamp : ℕ → ℕ} {n t : ℕ}

theorem before_le {u : ℕ} (h : b.Before stamp t u) :
    (b.timer t).expires ≤ (b.timer u).expires := by
  cases h with
  | inl hlt => exact hlt.le
  | inr heq => exact heq.1.le

section

variable (h : b.Queue stamp n)

include h

theorem sorted_expires :
    (inorder b.head).Pairwise fun u v => (b.timer u).expires ≤ (b.timer v).expires :=
  h.sorted.imp fun huv => before_le huv

theorem nodup : (inorder b.head).Nodup := by
  apply h.sorted.imp
  intro u v huv he
  subst he
  cases huv with
  | inl hlt => exact lt_irrefl _ hlt
  | inr heq => exact lt_irrefl _ heq.2

theorem first_le {m : ℕ} (hm : b.next = some m) {u : ℕ} (hu : (b.timer u).state = .enqueued) :
    (b.timer m).expires ≤ (b.timer u).expires := by
  have hmem := (h.member u).mpr hu
  have hsorted := h.sorted_expires
  rw [h.first] at hm
  cases hq : inorder b.head with
  | nil =>
    rw [hq] at hm
    cases hm
  | cons v rest =>
    rw [hq] at hm hmem hsorted
    obtain rfl : v = m := Option.some.inj hm
    cases List.mem_cons.mp hmem with
    | inl he => rw [he]
    | inr hin => exact (List.pairwise_cons.mp hsorted).1 u hin

theorem next_enqueued {m : ℕ} (hm : b.next = some m) :
    (b.timer m).state = .enqueued := by
  rw [h.first] at hm
  exact (h.member m).mp (List.mem_of_head? hm)

theorem congr {f : ℕ → Timer} (hin : ∀ u, (b.timer u).state = .enqueued → f u = b.timer u)
    (hout : ∀ u, (b.timer u).state ≠ .enqueued → (f u).state ≠ .enqueued) :
    ({ b with timer := f }).Queue stamp n where
  member u := by
    rw [h.member u]
    by_cases hu : (b.timer u).state = .enqueued
    · simp [hin u hu]
    · simp [hu, hout u hu]
  sorted := by
    apply h.sorted.imp_of_mem
    intro u v hu hv huv
    rw [Before]
    dsimp only
    rwa [hin u ((h.member u).mp hu), hin v ((h.member v).mp hv)]
  first := h.first
  bound := h.bound

end

section

variable (h : b.Queue stamp n) (ht : (b.timer t).state ≠ .enqueued)

include h ht

theorem setState {st : TimerState} (hst : st ≠ .enqueued) : (b.setState t st).Queue stamp n := by
  apply h.congr
  · intro u hu
    have hne : u ≠ t := fun he => ht (he ▸ hu)
    exact update_of_ne hne _ _
  · intro u hu
    by_cases he : u = t
    · simpa [he] using hst
    · simpa [he] using hu

theorem setExpires (e : ℤ) :
    (b.setExpires t e).Queue stamp n := by
  apply h.congr
  · intro u hu
    have hne : u ≠ t := fun he => ht (he ▸ hu)
    exact update_of_ne hne _ _
  · intro u hu
    by_cases he : u = t
    · simpa [he] using ht
    · simpa [he] using hu

theorem init :
    (timerInit b t).Queue stamp n := by
  apply h.congr
  · intro u hu
    have hne : u ≠ t := fun he => ht (he ▸ hu)
    exact update_of_ne hne _ _
  · intro u hu
    by_cases he : u = t
    · simp [he]
    · simpa [he] using hu

end

end TimerBase.Queue

/-! ## Insertion and removal -/

section Ops

variable {B} {b : TimerBase} {stamp : ℕ → ℕ} {n t : ℕ}

theorem addTimer_eq (ht : (b.timer t).state = .inactive) :
    (addTimer B b t).2 = { b with
      head := B.insertColor (link (fun u => (b.timer u).expires) t b.head)
      next := match b.next with
        | none => some t
        | some m => if (b.timer t).expires < (b.timer m).expires then some t else some m
      timer := update b.timer t { b.timer t with state := .enqueued } } ∧
    ((addTimer B b t).1 = true ↔ (addTimer B b t).2.next = some t) := by
  rw [addTimer, if_neg (by simp [ht])]
  cases b.next with
  | none => simp [TimerBase.setState]
  | some m =>
    by_cases hlt : (b.timer t).expires < (b.timer m).expires
    · simp [TimerBase.setState, hlt]
    · simp [TimerBase.setState, hlt, eq_comm]

theorem TimerBase.Queue.inorder_add (h : b.Queue stamp n) (ht : (b.timer t).state = .inactive) :
    inorder (addTimer B b t).2.head =
      (inorder b.head).orderedInsert (fun u v => (b.timer u).expires < (b.timer v).expires) t := by
  rw [(addTimer_eq ht).1]
  dsimp only
  rw [B.inorder_insertColor, inorder_link t b.head h.sorted_expires]

theorem TimerBase.Queue.add (h : b.Queue stamp n) (ht : (b.timer t).state = .inactive) :
    (addTimer B b t).2.Queue (update stamp t n) (n + 1) := by
  have hnot : t ∉ inorder b.head := by simp [h.member, ht]
  have hseq := h.inorder_add (B := B) ht
  have hexp : ∀ u, ((addTimer B b t).2.timer u).expires = (b.timer u).expires := by
    intro u
    rw [(addTimer_eq ht).1]
    by_cases hu : u = t
    · simp [hu]
    · simp [hu]
  have hstamp : ∀ u ∈ inorder b.head, update stamp t n u = stamp u := by
    intro u hu
    exact update_of_ne (ne_of_mem_of_not_mem hu hnot) _ _
  refine ⟨?_, ?_, ?_, ?_⟩
  · intro u
    rw [hseq, List.mem_orderedInsert, (addTimer_eq ht).1]
    by_cases hu : u = t
    · simp [hu]
    · simp [hu, h.member u]
  · rw [hseq]
    apply pairwise_orderedInsert
    · intro u v huv
      have := before_le huv
      rwa [hexp, hexp] at this
    · intro u hu hle
      rw [TimerBase.Before, hexp, hexp, hstamp u hu, update_self]
      rcases hle.lt_or_eq with hlt | heq
      · exact Or.inl hlt
      · exact Or.inr ⟨heq, h.bound u hu⟩
    · intro u hu hlt
      rw [TimerBase.Before, hexp, hexp]
      exact Or.inl hlt
    · apply h.sorted.imp_of_mem
      intro u v hu hv huv
      rwa [TimerBase.Before, hexp, hexp, hstamp u hu, hstamp v hv]
  · rw [hseq, head?_orderedInsert, ← h.first, (addTimer_eq ht).1]
    dsimp only
    cases b.next with
    | none => rfl
    | some m => rfl
  · intro u hu
    rw [hseq, List.mem_orderedInsert] at hu
    cases hu with
    | inl he =>
      rw [he, update_self]
      exact Nat.lt_succ_self n
    | inr hin =>
      rw [hstamp u hin]
      exact Nat.lt_succ_of_lt (h.bound u hin)

theorem delTimer_of_ne (ht : (b.timer t).state ≠ .enqueued) : delTimer B b t = (false, b) := by
  rw [delTimer, if_pos ht]

theorem delTimer_eq (ht : (b.timer t).state = .enqueued) :
    delTimer B b t = (decide (b.next = some t), { b with
      head := B.erase b.head t
      next := if b.next = some t then b.rbNext t else b.next
      timer := update b.timer t { b.timer t with state := .inactive } }) := by
  rw [delTimer, if_neg (by simp [ht])]
  by_cases hnext : b.next = some t
  · simp [hnext, TimerBase.setState]
  · simp [hnext, TimerBase.setState]

theorem inorder_delTimer (ht : (b.timer t).state = .enqueued) :
    inorder (delTimer B b t).2.head = (inorder b.head).erase t := by
  rw [delTimer_eq ht, B.inorder_erase]

theorem delTimer_timer_of_ne {u : ℕ} (hu : u ≠ t) :
    (delTimer B b t).2.timer u = b.timer u := by
  by_cases ht : (b.timer t).state = .enqueued
  · rw [delTimer_eq ht]
    exact update_of_ne hu _ _
  · rw [delTimer_of_ne ht]

theorem TimerBase.Queue.del (h : b.Queue stamp n) (ht : (b.timer t).state = .enqueued) :
    (delTimer B b t).2.Queue stamp n := by
  have hnodup := h.nodup
  have hseq := inorder_delTimer (B := B) ht
  have htimer : ∀ u, u ≠ t → (delTimer B b t).2.timer u = b.timer u :=
    fun u => delTimer_timer_of_ne
  refine ⟨?_, ?_, ?_, ?_⟩
  · intro u
    rw [hseq, hnodup.mem_erase_iff]
    by_cases hu : u = t
    · simp [hu, delTimer_eq ht]
    · rw [htimer u hu, h.member u]
      simp [hu]
  · rw [hseq]
    apply (h.sorted.sublist List.erase_sublist).imp_of_mem
    intro u v hu hv huv
    rw [hnodup.mem_erase_iff] at hu hv
    rwa [TimerBase.Before, htimer u hu.1, htimer v hv.1]
  · have hmem := (h.member t).mpr ht
    have hfirst := h.first
    rw [hseq, delTimer_eq ht, TimerBase.rbNext]
    cases hq : inorder b.head with
    | nil =>
      rw [hq] at hmem
      cases hmem
    | cons v rest =>
      rw [hq] at hfirst
      simp only [List.head?_cons] at hfirst
      rw [hfirst]
      by_cases hv : v = t
      · simp [hv]
      · simp [hv]
  · intro u hu
    rw [hseq] at hu
    exact h.bound u (List.mem_of_mem_erase hu)

end Ops

/-! ## The invariant of the runs -/

variable {r₁ r₂ r : Reading} {now interval : ℤ}

namespace TimerRun

/-- The invariant of the runs. -/
structure Inv (st : TimerRun) : Prop where
  queue : st.sys.base.Queue st.stamp st.count
  callback : ∀ t, (st.sys.base.timer t).state = .callback ↔ ∃ now, st.mode = .callback now t

theorem inv_initial (fire : Option ℤ) : (initial fire).Inv := by
  refine ⟨⟨?_, ?_, ?_, ?_⟩, ?_⟩ <;> simp [initial]

theorem Inv.ordered {st : TimerRun} (h : st.Inv) : st.Ordered where
  member := h.queue.member
  sorted := h.queue.sorted
  first := h.queue.first
  empty := by
    rw [h.queue.first, List.head?_eq_none_iff]
    cases st.sys.base.head with
    | nil => simp
    | node x l r => simp

variable {B ce} {st st' : TimerRun} {t : ℕ}

@[simp] theorem base_programNext (s : TimerSys) (r : Reading) :
    (s.programNext ce r).base = s.base := by
  rw [TimerSys.programNext]
  cases s.base.next with
  | none => rfl
  | some n => rfl

theorem delTimer_state (b : TimerBase) (t u : ℕ) :
    ((delTimer B b t).2.timer u).state =
      if u = t ∧ (b.timer t).state = .enqueued then .inactive else (b.timer u).state := by
  by_cases ht : (b.timer t).state = .enqueued
  · rw [delTimer_eq ht]
    by_cases hu : u = t
    · simp [hu, ht]
    · simp [hu]
  · simp [delTimer_of_ne ht, ht]

theorem queue_delTimer {b : TimerBase} {stamp : ℕ → ℕ} {n : ℕ} (h : b.Queue stamp n) (t : ℕ) :
    (delTimer B b t).2.Queue stamp n := by
  by_cases ht : (b.timer t).state = .enqueued
  · exact h.del ht
  · rwa [delTimer_of_ne ht]

theorem base_timerStart (s : TimerSys) (t : ℕ) (now interval : ℤ) (r₁ r₂ : Reading) :
    (timerStart B ce s t now interval r₁ r₂).base =
      (addTimer B ((delTimer B s.base t).2.setExpires t (ktimeAddSafe now interval)) t).2 := by
  rw [timerStart]
  dsimp only
  split_ifs <;> simp

theorem Inv.start (h : st.Inv) :
    (st.stamped t (timerStart B ce st.sys t now interval r₁ r₂) st.mode).Inv := by
  obtain ⟨b, hb⟩ : ∃ b, b = (delTimer B st.sys.base t).2.setExpires t
    (ktimeAddSafe now interval) := ⟨_, rfl⟩
  have hdel : ((delTimer B st.sys.base t).2.timer t).state ≠ .enqueued := by
    rw [delTimer_state]
    by_cases ht : (st.sys.base.timer t).state = .enqueued
    · simp [ht]
    · simp [ht]
  have hq : b.Queue st.stamp st.count := by
    rw [hb]
    exact (queue_delTimer h.queue t).setExpires hdel _
  have hbstate : ∀ u, (b.timer u).state = ((delTimer B st.sys.base t).2.timer u).state := by
    intro u
    rw [hb, TimerBase.setExpires]
    by_cases hu : u = t
    · simp [hu]
    · simp [hu]
  have hcall : ∀ u, (b.timer u).state = .callback ↔ ∃ now, st.mode = .callback now u := by
    intro u
    rw [hbstate, delTimer_state, ← h.callback u]
    by_cases hu : u = t ∧ (st.sys.base.timer t).state = .enqueued
    · simp [hu]
    · simp [hu]
  have hbase := @base_timerStart B ce st.sys t now interval r₁ r₂
  rw [← hb] at hbase
  by_cases ht : (b.timer t).state = .inactive
  · have henq : ((addTimer B b t).2.timer t).state = .enqueued := by
      rw [(addTimer_eq ht).1]
      simp
    rw [stamped, hbase, if_pos henq]
    refine ⟨?_, ?_⟩
    · dsimp only
      rw [hbase]
      exact hq.add ht
    · intro u
      dsimp only
      rw [hbase, ← hcall u, (addTimer_eq ht).1]
      by_cases hu : u = t
      · simp [hu, ht]
      · simp [hu]
  · have hsame : (addTimer B b t).2 = b := by rw [addTimer, if_pos ht]
    have hnot : (b.timer t).state ≠ .enqueued := by rwa [hbstate]
    rw [stamped, hbase, hsame, if_neg hnot]
    refine ⟨?_, ?_⟩
    · dsimp only
      rw [hbase, hsame]
      exact hq
    · intro u
      dsimp only
      rw [hbase, hsame]
      exact hcall u

@[simp] theorem base_timerCancel (s : TimerSys) (t : ℕ) (r : Reading) :
    (timerCancel B ce s t r).base = (delTimer B s.base t).2 := by
  rw [timerCancel]
  dsimp only
  split_ifs <;> simp

theorem Inv.cancel (h : st.Inv) :
    Inv { st with sys := timerCancel B ce st.sys t r } := by
  refine ⟨?_, ?_⟩
  · dsimp only
    rw [base_timerCancel]
    exact queue_delTimer h.queue t
  · intro u
    dsimp only
    rw [base_timerCancel, delTimer_state, ← h.callback u]
    by_cases hu : u = t ∧ (st.sys.base.timer t).state = .enqueued
    · simp [hu]
    · simp [hu]

theorem Inv.expire (h : st.Inv) (hmode : st.mode = .handler now) (hnext : st.sys.base.next = some t)
    :
    Inv { st with
      sys := { st.sys with base := (delTimer B st.sys.base t).2.setState t .callback }
      mode := .callback now t } := by
  have ht : (st.sys.base.timer t).state = .enqueued := by
    rw [← h.queue.member]
    rw [h.queue.first] at hnext
    exact List.mem_of_head? hnext
  refine ⟨(h.queue.del ht).setState ?_ (by simp), ?_⟩
  · rw [delTimer_state]
    simp [ht]
  · intro u
    dsimp only [TimerBase.setState]
    by_cases hu : u = t
    · simp [hu]
    · have hno : (st.sys.base.timer u).state ≠ .callback := by
        rw [Ne, h.callback u, hmode]
        simp
      rw [update_of_ne hu, delTimer_state]
      simp [hu, hno, Ne.symm hu]

theorem Inv.ret (h : st.Inv) (hmode : st.mode = .callback now t) (restart : Bool) :
    (st.stamped t { st.sys with
      base := if restart then (addTimer B (st.sys.base.setState t .inactive) t).2
        else st.sys.base.setState t .inactive } (.handler now)).Inv := by
  have ht : (st.sys.base.timer t).state = .callback := (h.callback t).mpr ⟨now, hmode⟩
  have hq : (st.sys.base.setState t .inactive).Queue st.stamp st.count :=
    h.queue.setState (by simp [ht]) (by simp)
  have hno : ∀ u, ((st.sys.base.setState t .inactive).timer u).state ≠ .callback := by
    intro u
    by_cases hu : u = t
    · simp [TimerBase.setState, hu]
    · rw [TimerBase.setState]
      dsimp only
      rw [update_of_ne hu, Ne, h.callback u, hmode]
      simp [Ne.symm hu]
  have hin : ((st.sys.base.setState t .inactive).timer t).state = .inactive := by
    simp [TimerBase.setState]
  obtain ⟨b, hb⟩ : ∃ b, b = st.sys.base.setState t .inactive := ⟨_, rfl⟩
  rw [← hb] at hq hno hin ⊢
  cases restart with
  | true =>
    have henq : ((addTimer B b t).2.timer t).state = .enqueued := by
      rw [(addTimer_eq hin).1]
      simp
    rw [stamped, if_pos rfl, if_pos henq]
    refine ⟨hq.add hin, ?_⟩
    intro u
    dsimp only
    rw [(addTimer_eq hin).1]
    by_cases hu : u = t
    · simp [hu]
    · simp [hu, hno u]
  | false =>
    rw [stamped]
    simp only [Bool.false_eq_true, if_false, hin, reduceCtorEq]
    refine ⟨hq, ?_⟩
    intro u
    simp [hno u]

/-! ### What a step does -/

theorem step_start (h : st.step B ce (.start t now interval r₁ r₂) = .ok st') :
    st' = st.stamped t (timerStart B ce st.sys t now interval r₁ r₂) st.mode := by
  rw [TimerRun.step] at h
  split at h
  · cases h
  · exact (Except.ok.inj h).symm

theorem step_cancel (h : st.step B ce (.cancel t r) = .ok st') :
    st' = { st with sys := timerCancel B ce st.sys t r } := by
  rw [TimerRun.step] at h
  split at h
  · cases h
  · exact (Except.ok.inj h).symm

theorem step_enter (h : st.step B ce (.enter now) = .ok st') :
    st.mode = .thread ∧ st' = { st with mode := .handler now } := by
  rw [TimerRun.step] at h
  split at h
  next hmode => exact ⟨hmode, (Except.ok.inj h).symm⟩
  next => cases h

theorem step_expire (h : st.step B ce .expire = .ok st') : ∃ now t, st.mode = .handler now ∧
    st.sys.base.next = some t ∧ ¬ now < (st.sys.base.timer t).expires ∧
    st' = { st with
      sys := { st.sys with base := (delTimer B st.sys.base t).2.setState t .callback }
      mode := .callback now t } := by
  rw [TimerRun.step] at h
  split at h
  next now t hmode hnext =>
    split_ifs at h with hdue
    exact ⟨now, t, hmode, hnext, hdue, (Except.ok.inj h).symm⟩
  next => cases h

theorem step_forward (h : st.step B ce (.forward now interval) = .ok st') :
    ∃ entered t, st.mode = .callback entered t ∧
      st' = { st with sys := { st.sys with base := timerForward st.sys.base t now interval } } := by
  rw [TimerRun.step] at h
  split at h
  next entered t hmode => exact ⟨entered, t, hmode, (Except.ok.inj h).symm⟩
  next => cases h

theorem step_ret {restart : Bool} (h : st.step B ce (.ret restart) = .ok st') :
    ∃ now t, st.mode = .callback now t ∧
      st' = st.stamped t { st.sys with
        base := if restart then (addTimer B (st.sys.base.setState t .inactive) t).2
          else st.sys.base.setState t .inactive } (.handler now) := by
  rw [TimerRun.step] at h
  split at h
  next now t hmode => exact ⟨now, t, hmode, (Except.ok.inj h).symm⟩
  next => cases h

theorem step_leave {dev : ℤ} (h : st.step B ce (.leave dev) = .ok st') :
    ∃ now, st.mode = .handler now ∧
      (∀ t, st.sys.base.next = some t → now < (st.sys.base.timer t).expires) ∧
      st' = { st with sys := st.sys.programNext ce ⟨now, dev⟩, mode := .thread } := by
  rw [TimerRun.step] at h
  split at h
  next now hmode =>
    refine ⟨now, hmode, ?_⟩
    split at h
    next hnext =>
      refine ⟨fun t ht => (by rw [hnext] at ht; cases ht), (Except.ok.inj h).symm.trans ?_⟩
      simp [TimerSys.programNext, hnext]
    next t hnext =>
      split_ifs at h with hdue
      refine ⟨fun u hu => ?_, (Except.ok.inj h).symm⟩
      rw [hnext] at hu
      rwa [← Option.some.inj hu]
  next => cases h

theorem Inv.init (h : st.Inv) (ht : (st.sys.base.timer t).state = .inactive) :
    Inv { st with sys := { st.sys with base := timerInit st.sys.base t } } := by
  refine ⟨h.queue.init (by simp [ht]), fun u => ?_⟩
  dsimp only [timerInit]
  rw [← h.callback u]
  by_cases hu : u = t
  · simp [hu, ht]
  · simp [hu]

theorem Inv.forward (h : st.Inv) {entered : ℤ} (hmode : st.mode = .callback entered t)
    (now interval : ℤ) :
    Inv { st with sys := { st.sys with base := timerForward st.sys.base t now interval } } := by
  have ht : (st.sys.base.timer t).state = .callback := (h.callback t).mpr ⟨entered, hmode⟩
  refine ⟨h.queue.setExpires (by simp [ht]) _, fun u => ?_⟩
  rw [← h.callback u]
  dsimp only [timerForward, TimerBase.setExpires]
  by_cases hu : u = t
  · simp [hu]
  · simp [hu]

theorem Inv.step (h : st.Inv) {c : TimerCall} (hfresh : st.Fresh c)
    (hstep : st.step B ce c = .ok st') : st'.Inv := by
  cases c with
  | init t =>
    cases hstep
    exact h.init hfresh
  | start t now interval r₁ r₂ =>
    obtain rfl := step_start hstep
    exact h.start
  | cancel t r =>
    obtain rfl := step_cancel hstep
    exact h.cancel
  | enter now =>
    obtain ⟨hmode, rfl⟩ := step_enter hstep
    refine ⟨h.queue, fun u => ?_⟩
    rw [h.callback u, hmode]
    simp
  | expire =>
    obtain ⟨now, t, hmode, hnext, -, rfl⟩ := step_expire hstep
    exact h.expire hmode hnext
  | forward now interval =>
    obtain ⟨entered, t, hmode, rfl⟩ := step_forward hstep
    exact h.forward hmode now interval
  | ret restart =>
    obtain ⟨now, t, hmode, rfl⟩ := step_ret hstep
    exact h.ret hmode restart
  | leave dev =>
    obtain ⟨now, hmode, -, rfl⟩ := step_leave hstep
    refine ⟨by simpa using h.queue, fun u => ?_⟩
    rw [base_programNext, h.callback u, hmode]
    simp

end TimerRun

/-- **Every state of every run is ordered**: also while the handler and the callbacks run, and
with callbacks that start and cancel timers. -/
theorem timerRuns_ordered (st : TimerRun)
    (hr : (timerRuns B ce).ReachableVia TimerRun.Fresh st) : st.Ordered := by
  apply TimerRun.Inv.ordered
  apply hr.invariant (I := TimerRun.Inv)
  · intro st hst
    obtain ⟨fire, rfl⟩ := hst
    exact TimerRun.inv_initial fire
  · intro st c st' h hfresh hstep
    exact h.step hfresh hstep

/-- The theorem applies to a run in which two timers with the same expiry are started and the
first of them is called back and re-armed. -/
theorem timerRuns_ordered_rearmed :
    ∃ st, (timerRuns (.trivial ℕ) ⟨1000, 1000000⟩).ReachableVia TimerRun.Fresh st ∧
      st.queue = [2, 1] ∧ st.Ordered := by
  obtain ⟨st, hr, hst⟩ := Lts.System.exists_reachableVia
    (M := timerRuns (.trivial ℕ) ⟨1000, 1000000⟩) (s := TimerRun.initial none) TimerRun.Fresh
    (P := fun st => st.queue = [2, 1])
    [.init 1, .init 2, .start 1 0 5 ⟨0, 0⟩ ⟨0, 0⟩, .start 2 0 5 ⟨0, 0⟩ ⟨0, 0⟩, .enter 5, .expire,
      .forward 5 10, .ret true] ⟨none, rfl⟩ (by decide)
  exact ⟨st, hr, hst, timerRuns_ordered _ _ st hr⟩

end Ginkgo.Core
