import Ginkgo.Core.Sched
import Ginkgo.Include.Jhash
import Ginkgo.Lib.Lts

/-!
# Futexes

The model of `core/futex.c` and its runs.  A futex is known by the address space of the caller and
the address of a word in it.  The waiting threads are kept in hash buckets, in chains that threads
with different keys share; a bucket also counts its waiters.

The kernel is not preemptive, so a system call is one step.  `sys_futex_wait` gives up the
processor in `schedule`; what is left of it when the thread runs again, setting the status that
`schedule` has already set and returning `0`, changes nothing.

The number of waiters of a bucket is an `int` in the source.  A thread waits at most once, so it
stays below the number of threads, and is an integer here.

## Main results

* `futexRuns_exact` — every state of every run is so.
-/

namespace Ginkgo.Core

open Function (update update_self update_of_ne update_idem)

/-- `union futex_key`. -/
structure FutexKey where
  /-- The address space. -/
  vmspace : ℕ
  /-- The address of the word. -/
  address : ℕ
deriving DecidableEq, Repr

/-- `struct futex_q`: a thread that waits. -/
structure FutexQ where
  /-- The thread. -/
  task : ℕ
  /-- What it waits for. -/
  key : FutexKey
deriving DecidableEq, Repr

/-- `struct futex_hash_bucket`. -/
structure FutexBucket where
  /-- The number of waiters. -/
  waiters : ℤ
  /-- The waiters. -/
  chain : List FutexQ

/-- `futex_queues`. -/
abbrev FutexQueues := ℕ → FutexBucket

/-- `futex_hashsize`, with one processor. -/
def futexHashsize : ℕ := 256

/-- `hash_futex`: the index of the bucket of a key. -/
def hashFutex (key : FutexKey) : ℕ :=
  let word (x : ℕ) : List UInt32 := [UInt32.ofNat x, UInt32.ofNat (x >>> 32)]
  (jhash2 (word key.vmspace ++ word key.address) 0).toNat &&& (futexHashsize - 1)

/-- `match_futex`. -/
def matchFutex (key1 key2 : FutexKey) : Bool :=
  key1.address = key2.address ∧ key1.vmspace = key2.vmspace

/-- `do_futex_init`. -/
def doFutexInit : FutexQueues := fun _ => ⟨0, []⟩

/-- `sys_futex_wait` of the current thread for the word with the key `key`, which holds `uval`.
The result is the return value, for a thread that has to wait the one it gets when it runs
again. -/
def sysFutexWait (s : Sched) (q : FutexQueues) (key : FutexKey) (uval val : ℕ) :
    Except Fault (ℤ × Sched × FutexQueues) :=
  let hb := hashFutex key
  -- queue_lock
  let q := update q hb { q hb with waiters := (q hb).waiters + 1 }
  if uval ≠ val then
    -- queue_unlock
    .ok (-1, s, update q hb { q hb with waiters := (q hb).waiters - 1 })
  else do
    -- futex_wait_queue_me
    let self := s.current
    let s := s.setStatus self .suspend
    let q := update q hb { q hb with chain := ⟨self, key⟩ :: (q hb).chain }
    let s ← schedule s
    return (0, s, q)

/-- The loop of `sys_futex_wake` over a chain: the chain and the counter that `mark_wake_futex`
leaves, and the list of threads to resume. -/
def markWakeFutex (key : FutexKey) : List FutexQ → ℤ → List FutexQ × ℤ × List ℕ
  | [], waiters => ([], waiters, [])
  | this :: next, waiters =>
    if matchFutex this.key key then
      let (chain, waiters, wake) := markWakeFutex key next (waiters - 1)
      (chain, waiters, this.task :: wake)
    else
      let (chain, waiters, wake) := markWakeFutex key next waiters
      (this :: chain, waiters, wake)

/-- `sys_futex_wake`. -/
def sysFutexWake (s : Sched) (q : FutexQueues) (key : FutexKey) :
    Except Fault (Sched × FutexQueues) :=
  let hb := hashFutex key
  if (q hb).waiters = 0 then .ok (s, q)
  else do
    let (chain, waiters, wake) := markWakeFutex key (q hb).chain (q hb).waiters
    let s ← wake.foldlM threadResume s
    return (s, update q hb ⟨waiters, chain⟩)

/-! ## The transition system -/

/-- The futexes and the threads that use them. -/
structure FutexState where
  /-- The scheduler. -/
  sched : Sched
  /-- The buckets. -/
  queues : FutexQueues
  /-- The address space of each thread. -/
  vmspace : ℕ → ℕ
  /-- The words in memory, by address space and address. -/
  mem : ℕ → ℕ → ℕ

/-- A step. -/
inductive FutexCall
  /-- `sys_futex_wait(uaddr, val)`. -/
  | wait (uaddr val : ℕ)
  /-- `sys_futex_wake(uaddr)`. -/
  | wake (uaddr : ℕ)
  /-- Threads store to memory, which then holds `mem`. -/
  | store (mem : ℕ → ℕ → ℕ)
  /-- Anything else. -/
  | other (c : ThreadCall)

namespace FutexState

/-- `get_futex_key`. -/
def key (st : FutexState) (uaddr : ℕ) : FutexKey := ⟨st.vmspace st.sched.current, uaddr⟩

/-- `sys_futex_wait` in the state `st`. -/
def futexWait (st : FutexState) (uaddr val : ℕ) : Except Fault (ℤ × Sched × FutexQueues) :=
  sysFutexWait st.sched st.queues (st.key uaddr) (st.mem (st.vmspace st.sched.current) uaddr) val

/-- The effect of a step. -/
def step (st : FutexState) : FutexCall → Except Fault FutexState
  | .wait uaddr val => do
    let (_, s, q) ← st.futexWait uaddr val
    return { st with sched := s, queues := q }
  | .wake uaddr => do
    let (s, q) ← sysFutexWake st.sched st.queues (st.key uaddr)
    return { st with sched := s, queues := q }
  | .store mem => .ok { st with mem := mem }
  | .other c => do
    let s ← st.sched.call c
    return { st with sched := s }

/-- The steps that threads take: only `sys_futex_wake` wakes the threads in the chains. -/
def Legal (st : FutexState) : FutexCall → Prop
  | .other c => ∀ i < futexHashsize, ∀ e ∈ (st.queues i).chain, e.task ≠ c.subject st.sched
  | _ => True

instance (st : FutexState) (c : FutexCall) : Decidable (st.Legal c) :=
  match c with
  | .wait _ _ => inferInstanceAs (Decidable True)
  | .wake _ => inferInstanceAs (Decidable True)
  | .store _ => inferInstanceAs (Decidable True)
  | .other c => inferInstanceAs (Decidable
      (∀ i < futexHashsize, ∀ e ∈ (st.queues i).chain, e.task ≠ c.subject st.sched))

/-- The threads in the bucket of `key` that wait for it, in the order of the chain. -/
def waitersOn (st : FutexState) (key : FutexKey) : List ℕ :=
  ((st.queues (hashFutex key)).chain.filter fun e => e.key = key).map FutexQ.task

/-- The buckets are exact, and so are the system calls made in this state. -/
structure Exact (st : FutexState) : Prop where
  counted : ∀ i, (st.queues i).waiters = (st.queues i).chain.length
  placed : ∀ i, ∀ e ∈ (st.queues i).chain, hashFutex e.key = i
  /-- `sys_futex_wake` takes exactly the threads that wait for the key of the caller from the
  chains, keeps the others in order, and makes exactly the former ready. -/
  wake : ∀ uaddr, ∃ st', st.step (.wake uaddr) = .ok st' ∧
    (∀ i, (st'.queues i).chain = (st.queues i).chain.filter fun e => e.key ≠ st.key uaddr) ∧
    st'.sched.current = st.sched.current ∧
    st'.sched.ready = st.sched.ready ++ st.waitersOn (st.key uaddr) ∧
    ∀ t, st'.sched.status t =
      if t ∈ st.waitersOn (st.key uaddr) then .ready else st.sched.status t
  stale : ∀ uaddr val, st.mem (st.vmspace st.sched.current) uaddr ≠ val →
    st.futexWait uaddr val = .ok (-1, st.sched, st.queues)

end FutexState

/-- The runs of any number of threads, where thread `t` lives in the address space `vmspace t`,
from `do_task_init` and `do_futex_init`. -/
def futexRuns (idle : ℕ) (vmspace : ℕ → ℕ) : Lts.System FutexState FutexCall Fault where
  init st := ∃ mem, st = ⟨doTaskInit idle, doFutexInit, vmspace, mem⟩
  step := FutexState.step

/-! ## One lemma for each loop -/

theorem matchFutex_eq (key1 key2 : FutexKey) : matchFutex key1 key2 = decide (key1 = key2) := by
  cases key1
  cases key2
  simp [matchFutex, and_comm]

theorem markWakeFutex_eq (key : FutexKey) (chain : List FutexQ) (waiters : ℤ) :
    markWakeFutex key chain waiters =
      (chain.filter fun e => e.key ≠ key,
        waiters - (chain.filter fun e => e.key = key).length,
        (chain.filter fun e => e.key = key).map FutexQ.task) := by
  induction chain generalizing waiters with
  | nil => simp [markWakeFutex]
  | cons this next ih =>
    by_cases h : this.key = key
    · simp only [markWakeFutex, matchFutex_eq, h, decide_true, if_true, ih]
      simp [h]
      ring
    · simp [markWakeFutex, matchFutex_eq, h, ih]

theorem foldlM_threadResume (wake : List ℕ) :
    ∀ s : Sched, s.Ok → wake.Nodup → (∀ t ∈ wake, s.status t = .suspend) →
      ∃ s', wake.foldlM threadResume s = .ok s' ∧ s'.Ok ∧ s'.current = s.current ∧
        s'.ready = s.ready ++ wake ∧
        ∀ t, s'.status t = if t ∈ wake then .ready else s.status t := by
  induction wake with
  | nil =>
    intro s hok _ _
    exact ⟨s, rfl, hok, rfl, by simp, by simp⟩
  | cons t wake ih =>
    intro s hok hnodup hst
    obtain ⟨hnot, hnodup⟩ := List.nodup_cons.mp hnodup
    obtain ⟨s₁, hs₁, hm, hcur₁, hready₁, hst₁⟩ :=
      threadResume_moves hok (hst t List.mem_cons_self)
    have hsus : ∀ u ∈ wake, s₁.status u = .suspend := by
      intro u hu
      rw [hst₁, update_of_ne (ne_of_mem_of_not_mem hu hnot)]
      exact hst u (List.mem_cons_of_mem t hu)
    obtain ⟨s', hs', hok', hcur', hready', hst'⟩ := ih s₁ hm.ok hnodup hsus
    refine ⟨s', ?_, hok', hcur'.trans hcur₁, ?_, ?_⟩
    · rw [List.foldlM_cons, hs₁, Fallible.ok_bind, hs']
    · rw [hready', hready₁, List.append_assoc, List.singleton_append]
    · intro u
      rw [hst', hst₁]
      by_cases hut : u = t
      · simp [hut, hnot]
      · simp [hut]

/-! ## The invariant -/

variable {e : FutexQ} {uaddr val i : ℕ}

namespace FutexState

/-- The invariant of the runs. -/
structure Inv (st : FutexState) : Prop where
  ok : st.sched.Ok
  counted : ∀ i, (st.queues i).waiters = (st.queues i).chain.length
  placed : ∀ i, ∀ e ∈ (st.queues i).chain, hashFutex e.key = i
  blocked : ∀ i, ∀ e ∈ (st.queues i).chain, st.sched.status e.task = .suspend
  once : ∀ i, ((st.queues i).chain.map FutexQ.task).Nodup
  one : ∀ i j, ∀ d ∈ (st.queues i).chain, ∀ e ∈ (st.queues j).chain, d.task = e.task → i = j

variable {st st' : FutexState}

theorem inv_init (idle : ℕ) (vmspace : ℕ → ℕ) (mem : ℕ → ℕ → ℕ) :
    Inv ⟨doTaskInit idle, doFutexInit, vmspace, mem⟩ := by
  refine ⟨doTaskInit_ok idle, ?_, ?_, ?_, ?_, ?_⟩ <;> simp [doFutexInit]

theorem futexWait_stale (h : st.mem (st.vmspace st.sched.current) uaddr ≠ val) :
    st.futexWait uaddr val = .ok (-1, st.sched, st.queues) := by
  have hsame : ∀ (q : FutexQueues) (i : ℕ),
      update (update q i { q i with waiters := (q i).waiters + 1 }) i
        { (update q i { q i with waiters := (q i).waiters + 1 }) i with
          waiters := ((update q i { q i with waiters := (q i).waiters + 1 }) i).waiters
            - 1 } = q := by
    intro q i
    funext j
    by_cases hj : j = i
    · subst hj
      simp
    · simp [hj]
  rw [futexWait, sysFutexWait]
  simp only [if_pos h, hsame]

/-- The buckets after the current thread was put into the one of `key`. -/
def enqueue (st : FutexState) (key : FutexKey) : FutexQueues :=
  update st.queues (hashFutex key)
    ⟨(st.queues (hashFutex key)).waiters + 1,
      ⟨st.sched.current, key⟩ :: (st.queues (hashFutex key)).chain⟩

theorem futexWait_eq (h : st.mem (st.vmspace st.sched.current) uaddr = val) :
    st.futexWait uaddr val =
      (schedule (st.sched.setStatus st.sched.current .suspend)).map fun s =>
        (0, s, st.enqueue (st.key uaddr)) := by
  rw [futexWait, sysFutexWait]
  simp only [ne_eq, h, not_true_eq_false, if_false, update_self, update_idem]
  cases schedule (st.sched.setStatus st.sched.current .suspend) with
  | error e => rfl
  | ok s => rfl

theorem mem_enqueue {key : FutexKey} :
    e ∈ (st.enqueue key i).chain ↔
      (i = hashFutex key ∧ e = ⟨st.sched.current, key⟩) ∨ e ∈ (st.queues i).chain := by
  by_cases hi : i = hashFutex key
  · subst hi
    simp [enqueue]
  · simp [enqueue, hi]

theorem Inv.current_not_queued (h : st.Inv) (he : e ∈ (st.queues i).chain) :
    e.task ≠ st.sched.current :=
  h.ok.ne_current_of_suspend (h.blocked i e he)

theorem Inv.wait (h : st.Inv) (key : FutexKey) {t : ℕ} {rest : List ℕ}
    (hr : st.sched.ready = t :: rest) :
    Inv { st with sched := st.sched.leave .suspend t rest, queues := st.enqueue key } := by
  have hm := leave_moves h.ok .suspend hr
  have hself : (st.sched.leave .suspend t rest).status st.sched.current = .suspend := by
    have hne : st.sched.current ≠ t := by
      intro he
      exact h.ok.current (by simp [hr, he])
    simp [Sched.leave, hne]
  refine ⟨hm.ok, ?_, ?_, ?_, ?_, ?_⟩
  · intro i
    by_cases hi : i = hashFutex key
    · subst hi
      simp [enqueue, h.counted]
    · simp [enqueue, hi, h.counted]
  · intro i e he
    rcases mem_enqueue.mp he with ⟨hi, rfl⟩ | he
    · exact hi.symm
    · exact h.placed i e he
  · intro i e he
    rcases mem_enqueue.mp he with ⟨-, rfl⟩ | he
    · exact hself
    · exact hm.suspend _ (by simp) (h.blocked i e he)
  · intro i
    by_cases hi : i = hashFutex key
    · subst hi
      simp only [enqueue, update_self, List.map_cons, List.nodup_cons]
      refine ⟨?_, h.once _⟩
      intro hmem
      obtain ⟨e, he, htask⟩ := List.mem_map.mp hmem
      exact h.current_not_queued he htask
    · simpa [enqueue, hi] using h.once i
  · intro i j d hd e he htask
    rcases mem_enqueue.mp hd with ⟨hi, rfl⟩ | hd
    · rcases mem_enqueue.mp he with ⟨hj, rfl⟩ | he
      · rw [hi, hj]
      · exact absurd htask.symm (h.current_not_queued he)
    · rcases mem_enqueue.mp he with ⟨hj, rfl⟩ | he
      · exact absurd htask (h.current_not_queued hd)
      · exact h.one i j d hd e he htask

theorem Inv.waitersOn (h : st.Inv) (key : FutexKey) :
    (st.waitersOn key).Nodup ∧ ∀ t ∈ st.waitersOn key, st.sched.status t = .suspend := by
  constructor
  · exact (h.once (hashFutex key)).sublist (List.filter_sublist.map _)
  · intro t ht
    obtain ⟨e, he, rfl⟩ := List.mem_map.mp ht
    exact h.blocked _ e (List.mem_of_mem_filter he)

/-- The buckets after the threads that wait for `key` were taken out. -/
def dequeue (st : FutexState) (key : FutexKey) : FutexQueues :=
  let b := st.queues (hashFutex key)
  update st.queues (hashFutex key)
    ⟨b.waiters - (b.chain.filter fun e => e.key = key).length,
      b.chain.filter fun e => e.key ≠ key⟩

theorem Inv.wake (h : st.Inv) (key : FutexKey) :
    ∃ s' q', sysFutexWake st.sched st.queues key = .ok (s', q') ∧ s'.Ok ∧
      (∀ i, (q' i).chain = (st.queues i).chain.filter fun e => e.key ≠ key) ∧
      (∀ i, (q' i).waiters = (q' i).chain.length) ∧
      s'.current = st.sched.current ∧ s'.ready = st.sched.ready ++ st.waitersOn key ∧
      ∀ t, s'.status t = if t ∈ st.waitersOn key then .ready else st.sched.status t := by
  have hother : ∀ i, i ≠ hashFutex key →
      ((st.queues i).chain.filter fun e => e.key ≠ key) = (st.queues i).chain := by
    intro i hi
    apply List.filter_eq_self.mpr
    intro e he
    have hne : e.key ≠ key := by
      intro hk
      exact hi (by rw [← h.placed i e he, hk])
    simpa using hne
  by_cases hzero : (st.queues (hashFutex key)).waiters = 0
  · have hempty : (st.queues (hashFutex key)).chain = [] := by
      have hcount := h.counted (hashFutex key)
      rw [hzero] at hcount
      exact List.length_eq_zero_iff.mp (by omega)
    have hnone : st.waitersOn key = [] := by simp [FutexState.waitersOn, hempty]
    refine ⟨st.sched, st.queues, by rw [sysFutexWake, if_pos hzero], h.ok, ?_, h.counted, rfl, ?_,
      ?_⟩
    · intro i
      by_cases hi : i = hashFutex key
      · simp [hi, hempty]
      · exact (hother i hi).symm
    · simp [hnone]
    · simp [hnone]
  · obtain ⟨hnodup, hsus⟩ := h.waitersOn key
    obtain ⟨s', hs', hok, hcur, hready, hst⟩ :=
      foldlM_threadResume (st.waitersOn key) st.sched h.ok hnodup hsus
    refine ⟨s', st.dequeue key, ?_, hok, ?_, ?_, hcur, hready, hst⟩
    · rw [FutexState.waitersOn] at hs'
      rw [sysFutexWake, if_neg hzero, markWakeFutex_eq]
      dsimp only
      rw [hs', Fallible.ok_bind]
      rfl
    · intro i
      by_cases hi : i = hashFutex key
      · simp [dequeue, hi]
      · rw [dequeue, update_of_ne hi, hother i hi]
    · intro i
      by_cases hi : i = hashFutex key
      · subst hi
        have hlen := List.length_eq_length_filter_add (l := (st.queues (hashFutex key)).chain)
          fun e => decide (e.key = key)
        simp only [dequeue, update_self, h.counted, decide_not]
        omega
      · rw [dequeue, update_of_ne hi]
        exact h.counted i

theorem Inv.step_wake (h : st.Inv) (hstep : st.step (.wake uaddr) = .ok st') :
    st'.Inv := by
  obtain ⟨s', q', hwake, hok, hchain, hcount, -, -, hst⟩ := h.wake (st.key uaddr)
  rw [step, hwake, Fallible.ok_bind] at hstep
  cases hstep
  have hmem : ∀ i, ∀ e ∈ (q' i).chain, e ∈ (st.queues i).chain ∧ e.key ≠ st.key uaddr := by
    intro i e he
    rw [hchain] at he
    simpa using he
  refine ⟨hok, hcount, ?_, ?_, ?_, ?_⟩
  · intro i e he
    exact h.placed i e (hmem i e he).1
  · intro i e he
    have hnot : e.task ∉ st.waitersOn (st.key uaddr) := by
      -- otherwise the thread would be in the chain twice, with different keys
      intro hin
      obtain ⟨d, hd, htask⟩ := List.mem_map.mp hin
      obtain ⟨hd, hkey⟩ := List.mem_filter.mp hd
      have hi := h.one _ i d hd e (hmem i e he).1 htask
      rw [hi] at hd
      have hde := List.inj_on_of_nodup_map (h.once i) hd (hmem i e he).1 htask
      rw [hde] at hkey
      exact (hmem i e he).2 (by simpa using hkey)
    rw [hst, if_neg hnot]
    exact h.blocked i e (hmem i e he).1
  · intro i
    dsimp only
    rw [hchain]
    exact (h.once i).sublist (List.filter_sublist.map _)
  · intro i j d hd e he htask
    exact h.one i j d (hmem i d hd).1 e (hmem j e he).1 htask

theorem Inv.step_wait (h : st.Inv) (hstep : st.step (.wait uaddr val) = .ok st') : st'.Inv := by
  rw [step] at hstep
  by_cases hval : st.mem (st.vmspace st.sched.current) uaddr = val
  · rw [futexWait_eq hval] at hstep
    rw [schedule_setStatus h.ok (Or.inl rfl)] at hstep
    cases hr : st.sched.ready with
    | nil =>
      rw [hr] at hstep
      cases hstep
    | cons t rest =>
      rw [hr] at hstep
      cases hstep
      exact h.wait (st.key uaddr) hr
  · rw [futexWait_stale hval, Fallible.ok_bind] at hstep
    cases hstep
    exact h

theorem Inv.other (h : st.Inv) {c : ThreadCall} (hlegal : st.Legal (.other c)) {s : Sched}
    (hc : st.sched.call c = .ok s) : Inv { st with sched := s } := by
  have hm := h.ok.call hc
  refine ⟨hm.ok, h.counted, h.placed, ?_, h.once, h.one⟩
  intro i e he
  apply hm.suspend _ _ (h.blocked i e he)
  intro hin
  have hi : i < futexHashsize := by
    rw [← h.placed i e he]
    exact Nat.lt_of_le_of_lt Nat.and_le_right (by decide)
  exact hlegal i hi e he (c.eq_subject_of_enters hin)

theorem Inv.step (h : st.Inv) {c : FutexCall} (hlegal : st.Legal c)
    (hstep : st.step c = .ok st') : st'.Inv := by
  cases c with
  | wait uaddr val => exact h.step_wait hstep
  | wake uaddr => exact h.step_wake hstep
  | store mem =>
    cases hstep
    exact ⟨h.ok, h.counted, h.placed, h.blocked, h.once, h.one⟩
  | other c =>
    obtain ⟨s, hs, hret⟩ := Fallible.bind_eq_ok.mp hstep
    cases hret
    exact h.other hlegal hs

theorem Inv.exact (h : st.Inv) : st.Exact where
  counted := h.counted
  placed := h.placed
  wake uaddr := by
    obtain ⟨s', q', hwake, -, hchain, -, hcur, hready, hst⟩ := h.wake (st.key uaddr)
    refine ⟨{ st with sched := s', queues := q' }, ?_, hchain, hcur, hready, hst⟩
    rw [FutexState.step, hwake, Fallible.ok_bind]
    rfl
  stale _ _ hval := futexWait_stale hval

end FutexState

/-- **In every state of every run** each bucket counts its waiters, `sys_futex_wake` takes exactly
the threads that wait for the key of the caller, and `sys_futex_wait` with a stale value changes
nothing. -/
theorem futexRuns_exact (idle : ℕ) (vmspace : ℕ → ℕ) (st : FutexState)
    (hr : (futexRuns idle vmspace).ReachableVia FutexState.Legal st) : st.Exact := by
  apply FutexState.Inv.exact
  apply hr.invariant (I := FutexState.Inv)
  · intro st hst
    obtain ⟨mem, rfl⟩ := hst
    exact FutexState.inv_init idle vmspace mem
  · intro st c st' h hlegal hstep
    exact h.step hlegal hstep

/-- The theorem applies to a run in which two threads wait in one bucket for different words. -/
theorem futexRuns_exact_collision :
    ∃ st, (futexRuns 0 fun _ => 0).ReachableVia FutexState.Legal st ∧
      (st.queues (hashFutex ⟨0, 4096⟩)).chain = [⟨2, ⟨0, 2180⟩⟩, ⟨1, ⟨0, 4096⟩⟩] ∧ st.Exact := by
  obtain ⟨st, hr, hst⟩ := Lts.System.exists_reachableVia (M := futexRuns 0 fun _ => 0)
    (s := ⟨doTaskInit 0, doFutexInit, fun _ => 0, fun _ _ => 0⟩) FutexState.Legal
    (P := fun st => (st.queues (hashFutex ⟨0, 4096⟩)).chain =
      [⟨2, ⟨0, 2180⟩⟩, ⟨1, ⟨0, 4096⟩⟩])
    [.other (.resume 1), .other (.resume 2), .other .schedule, .wait 4096 0, .wait 2180 0]
    ⟨_, rfl⟩ (by decide +kernel)
  exact ⟨st, hr, hst, futexRuns_exact 0 _ st hr⟩

end Ginkgo.Core
