import Ginkgo.Core.IpcConnection
import Ginkgo.Core.Sched

/-!
# Calls over connections

The model of `ipc/call.c` and `ipc/return.c`.  A client that calls hands the processor to the server
thread of the connection, which starts its handler anew; when the handler returns, the processor is
handed to the thread that the connection has as its source.  The transfer of capabilities is in
`IpcCap`.

Requests are numbered.  A run keeps which request a thread waits for, and which request the handler
of a server thread was started for.

## Main results

* `CallState.Inv.step` — what a step keeps.
* `callRuns_matched` — calls and returns match in every run in which a connection is
  called only while its server thread is idle.
-/

namespace Ginkgo.Core

open Function (update update_self update_apply)

/-! ## The functions of the source -/

/-- The fields of `struct pt_regs` that are set. -/
structure PtRegs where
  sp : ℕ
  a0 : ℕ
  sepc : ℕ

/-- The scheduler, the threads and the connections. -/
structure Ipc where
  sched : Sched
  conn : ℕ → Option IpcConnection
  thread : ℕ → Option IpcThread
  /-- `conn->source`. -/
  source : ℕ → Option ℕ
  /-- `thread->active_conn`. -/
  activeConn : ℕ → Option ℕ
  /-- `thread->thread_info.regs`. -/
  regs : ℕ → PtRegs

/-- `thread_migrate_to_server`, for the connection at `c`. -/
def threadMigrateToServer (st : Ipc) (c : ℕ) (conn : IpcConnection) (arg : ℕ) :
    Except Fault Ipc :=
  let target := conn.target
  match (st.thread target).bind IpcThread.serverIpcConfig with
  | none => .error .badAccess
  | some config => do
    let sched ← scheduleTo st.sched target
    return { st with
      sched := sched
      source := update st.source c (some st.sched.current)
      activeConn := update st.activeConn target (some c)
      regs := update st.regs target ⟨conn.serverStackTop, arg, config.callback⟩ }

/-- `sys_ipc_call`, up to the switch to the server thread.  When the caller runs again, the result
is its register `a0`. -/
def sysIpcCall (st : Ipc) (c : ℕ) : Except Fault Ipc :=
  match st.conn c with
  | none => .error .badAccess
  | some conn => threadMigrateToServer st c conn conn.serverUserAddr

/-- `thread_migrate_to_client`. -/
def threadMigrateToClient (st : Ipc) (c retValue : ℕ) : Except Fault Ipc :=
  match st.source c with
  | none => .error .badAccess
  | some source => do
    let sched ← scheduleTo st.sched source
    return { st with
      sched := sched
      activeConn := update st.activeConn st.sched.current none
      regs := update st.regs source { st.regs source with a0 := retValue } }

/-- `sys_ipc_return`. -/
def sysIpcReturn (st : Ipc) (ret : ℕ) : Except Fault Ipc :=
  match st.activeConn st.sched.current with
  | none => .error .badAccess
  | some c => threadMigrateToClient st c ret

theorem sysIpcCall_eq_ok {st st' : Ipc} {c : ℕ} (h : sysIpcCall st c = .ok st') :
    ∃ conn config, st.conn c = some conn ∧ st.sched.current ∉ st.sched.ready ∧
      st' = { st with
        sched := st.sched.leave .suspend conn.target st.sched.ready
        source := update st.source c (some st.sched.current)
        activeConn := update st.activeConn conn.target (some c)
        regs := update st.regs conn.target
          ⟨conn.serverStackTop, conn.serverUserAddr, config⟩ } := by
  unfold sysIpcCall at h
  cases hconn : st.conn c with
  | none => simp [hconn] at h
  | some conn =>
    simp only [hconn, threadMigrateToServer] at h
    cases hconfig : (st.thread conn.target).bind IpcThread.serverIpcConfig with
    | none => simp [hconfig] at h
    | some config =>
      simp only [hconfig] at h
      obtain ⟨sched, hsched, hst⟩ := Fallible.bind_eq_ok.mp h
      obtain ⟨hcur, rfl⟩ := scheduleTo_eq_ok.mp hsched
      exact ⟨conn, config.callback, rfl, hcur, (Except.ok.inj hst).symm⟩

theorem sysIpcReturn_eq_ok {st st' : Ipc} {ret : ℕ} :
    sysIpcReturn st ret = .ok st' ↔
      ∃ c source, st.activeConn st.sched.current = some c ∧ st.source c = some source ∧
        st.sched.current ∉ st.sched.ready ∧
        st' = { st with
          sched := st.sched.leave .suspend source st.sched.ready
          activeConn := update st.activeConn st.sched.current none
          regs := update st.regs source { st.regs source with a0 := ret } } := by
  constructor
  · intro h
    unfold sysIpcReturn at h
    cases hactive : st.activeConn st.sched.current with
    | none => simp [hactive] at h
    | some c =>
      simp only [hactive, threadMigrateToClient] at h
      cases hsource : st.source c with
      | none => simp [hsource] at h
      | some source =>
        simp only [hsource] at h
        obtain ⟨sched, hsched, hst⟩ := Fallible.bind_eq_ok.mp h
        obtain ⟨hcur, rfl⟩ := scheduleTo_eq_ok.mp hsched
        exact ⟨c, source, rfl, hsource, hcur, (Except.ok.inj hst).symm⟩
  · rintro ⟨c, source, hactive, hsource, hcur, rfl⟩
    simp only [sysIpcReturn, hactive, threadMigrateToClient, hsource]
    rw [scheduleTo_eq_ok.mpr ⟨hcur, rfl⟩, Fallible.ok_bind]
    rfl

/-! ## Runs -/

/-- The return of a handler. -/
structure Answer where
  /-- The thread that is resumed. -/
  caller : ℕ
  /-- The request that this thread waits for. -/
  request : Option ℕ
  /-- The request that the handler was started for. -/
  run : Option ℕ
  /-- What the handler returns. -/
  ret : ℕ
  /-- What `sys_ipc_call` returns to the thread that is resumed. -/
  value : ℕ

/-- A state of a run. -/
structure CallState where
  ipc : Ipc
  /-- The number of calls, which number the requests. -/
  calls : ℕ
  /-- The request that a thread waits for. -/
  waiting : ℕ → Option ℕ
  /-- The request that the handler of a thread was started for, until it returns. -/
  run : ℕ → Option ℕ
  answers : List Answer
  /-- The requests whose handlers were started anew before they returned. -/
  overwritten : List ℕ

/-- A step. -/
inductive CallStep
  /-- The current thread calls `sys_ipc_call` with the connection at `c`. -/
  | call (c : ℕ)
  /-- The current thread calls `sys_ipc_return`. -/
  | ret (v : ℕ)
  /-- The current thread is preempted. -/
  | preempt

namespace CallState

/-- The effect of a step. -/
def step (st : CallState) : CallStep → Except Fault CallState
  | .call c => do
    let ipc ← sysIpcCall st.ipc c
    let target := ipc.sched.current
    return { st with
      ipc := ipc
      calls := st.calls + 1
      waiting := update st.waiting st.ipc.sched.current (some st.calls)
      run := update st.run target (some st.calls)
      overwritten := (st.run target).toList ++ st.overwritten }
  | .ret v => do
    let ipc ← sysIpcReturn st.ipc v
    let server := st.ipc.sched.current
    let caller := ipc.sched.current
    return { st with
      ipc := ipc
      waiting := update st.waiting caller none
      run := update st.run server none
      answers := ⟨caller, st.waiting caller, st.run server, v, (ipc.regs caller).a0⟩ :: st.answers }
  | .preempt => do
    let sched ← schedule st.ipc.sched
    return { st with ipc := { st.ipc with sched := sched } }

/-- Server threads are suspended, as `create_connection` leaves them, and nothing was called yet. -/
structure Initial (st : CallState) : Prop where
  ok : st.ipc.sched.Ok
  suspend : ∀ c conn, st.ipc.conn c = some conn → st.ipc.sched.status conn.target = .suspend
  active : ∀ t, st.ipc.activeConn t = none
  calls : st.calls = 0
  waiting : ∀ t, st.waiting t = none
  run : ∀ t, st.run t = none
  answers : st.answers = []
  overwritten : st.overwritten = []

/-- **Calls and returns match.** -/
structure Matched (st : CallState) : Prop where
  own : ∀ a ∈ st.answers, ∃ r, a.request = some r ∧ a.run = some r ∧ a.value = a.ret
  once : (st.answers.map Answer.request).Nodup
  pending : ∀ r < st.calls, (∃ a ∈ st.answers, a.request = some r) ∨
    (∃ t, st.waiting t = some r) ∧ ∃ t, st.run t = some r
  blocked : ∀ t r, st.waiting t = some r → st.ipc.sched.status t = .suspend
  resumes : ∀ r, st.run st.ipc.sched.current = some r → ∀ v, ∃ st' t,
    st.step (.ret v) = .ok st' ∧ st.waiting t = some r ∧ st'.ipc.sched.current = t ∧
      st'.answers = ⟨t, some r, some r, v, v⟩ :: st.answers
  kept : st.overwritten = []

/-- A connection is called only while its server thread is idle. -/
def Idle (st : CallState) : CallStep → Prop
  | .call c => (st.ipc.conn c).all (fun conn => (st.ipc.activeConn conn.target).isNone) = true
  | _ => True

instance (st : CallState) (call : CallStep) : Decidable (st.Idle call) :=
  match call with
  | .call _ => inferInstanceAs (Decidable (_ = true))
  | .ret _ => inferInstanceAs (Decidable True)
  | .preempt => inferInstanceAs (Decidable True)

end CallState

/-- The runs of any number of clients and servers. -/
def callRuns : Lts.System CallState CallStep Fault where
  init := CallState.Initial
  step := CallState.step

/-! ## The invariant -/

/-- No two threads have the same request. -/
def Unshared (f : ℕ → Option ℕ) : Prop := ∀ t u r, f t = some r → f u = some r → t = u

theorem Unshared.update_some {f : ℕ → Option ℕ} (h : Unshared f) {r : ℕ} (hr : ∀ u, f u ≠ some r)
    (t : ℕ) : Unshared (update f t (some r)) := by
  intro u v q hu hv
  rw [update_apply] at hu hv
  split_ifs at hu hv with hut hvt hvt
  · exact hut.trans hvt.symm
  · exact absurd (hv.trans hu.symm) (hr v)
  · exact absurd (hu.trans hv.symm) (hr u)
  · exact h u v q hu hv

theorem Unshared.update_none {f : ℕ → Option ℕ} (h : Unshared f) (t : ℕ) :
    Unshared (update f t none) := by
  intro u v q hu hv
  rw [update_apply] at hu hv
  split_ifs at hu hv
  exact h u v q hu hv

namespace CallState

/-- The state after a call of the connection at `c`. -/
def called (st : CallState) (c : ℕ) (conn : IpcConnection) (callback : ℕ) : CallState where
  ipc := { st.ipc with
    sched := st.ipc.sched.leave .suspend conn.target st.ipc.sched.ready
    source := update st.ipc.source c (some st.ipc.sched.current)
    activeConn := update st.ipc.activeConn conn.target (some c)
    regs := update st.ipc.regs conn.target
      ⟨conn.serverStackTop, conn.serverUserAddr, callback⟩ }
  calls := st.calls + 1
  waiting := update st.waiting st.ipc.sched.current (some st.calls)
  run := update st.run conn.target (some st.calls)
  answers := st.answers
  overwritten := (st.run conn.target).toList ++ st.overwritten

/-- The state after a return that resumes `caller`. -/
def returned (st : CallState) (caller v : ℕ) : CallState where
  ipc := { st.ipc with
    sched := st.ipc.sched.leave .suspend caller st.ipc.sched.ready
    activeConn := update st.ipc.activeConn st.ipc.sched.current none
    regs := update st.ipc.regs caller { st.ipc.regs caller with a0 := v } }
  calls := st.calls
  waiting := update st.waiting caller none
  run := update st.run st.ipc.sched.current none
  answers := ⟨caller, st.waiting caller, st.run st.ipc.sched.current, v, v⟩ :: st.answers
  overwritten := st.overwritten

variable {st st' : CallState}

theorem step_call {c : ℕ} (h : st.step (.call c) = .ok st') :
    ∃ conn callback, st.ipc.conn c = some conn ∧ st' = st.called c conn callback := by
  obtain ⟨ipc, hcall, hst⟩ := Fallible.bind_eq_ok.mp h
  obtain ⟨conn, callback, hconn, -, rfl⟩ := sysIpcCall_eq_ok hcall
  exact ⟨conn, callback, hconn, (Except.ok.inj hst).symm⟩

theorem step_ret {v : ℕ} : st.step (.ret v) = .ok st' ↔
    ∃ c caller, st.ipc.activeConn st.ipc.sched.current = some c ∧ st.ipc.source c = some caller ∧
      st.ipc.sched.current ∉ st.ipc.sched.ready ∧ st' = st.returned caller v := by
  constructor
  · intro h
    obtain ⟨ipc, hret, hst⟩ := Fallible.bind_eq_ok.mp h
    obtain ⟨c, caller, hactive, hsource, hcur, rfl⟩ := sysIpcReturn_eq_ok.mp hret
    refine ⟨c, caller, hactive, hsource, hcur, (Except.ok.inj hst).symm.trans ?_⟩
    simp only [returned, Sched.leave, update_self]
  · rintro ⟨c, caller, hactive, hsource, hcur, rfl⟩
    rw [step, sysIpcReturn_eq_ok.mpr ⟨c, caller, hactive, hsource, hcur, rfl⟩, Fallible.ok_bind]
    simp only [returned, Sched.leave, update_self]
    rfl

/-- **Handlers and callers are linked**: every handler that is running has one caller, which the
active connection leads to. -/
structure Links (st : CallState) : Prop where
  ok : st.ipc.sched.Ok
  target : ∀ s c, st.ipc.activeConn s = some c → ∃ conn, st.ipc.conn c = some conn ∧ conn.target = s
  active : ∀ s, st.run s = none → st.ipc.activeConn s = none
  serves : ∀ s r, st.run s = some r → ∃ c t,
    st.ipc.activeConn s = some c ∧ st.ipc.source c = some t ∧ st.waiting t = some r
  served : ∀ t r, st.waiting t = some r →
    st.ipc.sched.status t = .suspend ∧ ∃ s, st.run s = some r
  idle : ∀ c conn, st.ipc.conn c = some conn → st.run conn.target = none →
    st.ipc.sched.status conn.target = .suspend ∧ st.waiting conn.target = none
  waiting_unshared : Unshared st.waiting
  run_unshared : Unshared st.run

/-- **The requests so far**: they are answered, or waited for. -/
structure History (st : CallState) : Prop where
  lt : ∀ t r, st.waiting t = some r → r < st.calls
  past : ∀ a ∈ st.answers, ∃ r < st.calls,
    (a.request = some r ∧ a.run = some r ∧ a.value = a.ret) ∧ ∀ t, st.waiting t ≠ some r
  once : (st.answers.map Answer.request).Nodup
  pending : ∀ r < st.calls, (∃ a ∈ st.answers, a.request = some r) ∨ ∃ t, st.waiting t = some r
  kept : st.overwritten = []

/-- The invariant of the runs. -/
structure Inv (st : CallState) : Prop where
  links : st.Links
  history : st.History

theorem Initial.inv (h : st.Initial) : st.Inv := by
  constructor
  · refine ⟨h.ok, ?_, fun s _ => h.active s, ?_, ?_, ?_, ?_, ?_⟩
    · simp [h.active]
    · simp [h.run]
    · simp [h.waiting]
    · exact fun c conn hconn _ => ⟨h.suspend c conn hconn, h.waiting _⟩
    · simp [Unshared, h.waiting]
    · simp [Unshared, h.run]
  · refine ⟨?_, ?_, ?_, ?_, h.overwritten⟩
    · simp [h.waiting]
    · simp [h.answers]
    · simp [h.answers]
    · simp [h.calls]

theorem Links.waiting_current (h : st.Links) : st.waiting st.ipc.sched.current = none := by
  cases hw : st.waiting st.ipc.sched.current with
  | none => rfl
  | some r => exact absurd rfl (h.ok.ne_current_of_suspend (h.served _ r hw).1)

theorem Links.ne_current (h : st.Links) {t r : ℕ} (ht : st.waiting t = some r) :
    t ≠ st.ipc.sched.current :=
  h.ok.ne_current_of_suspend (h.served t r ht).1

theorem History.waiting_ne (h : st.History) (t : ℕ) : st.waiting t ≠ some st.calls :=
  fun ht => lt_irrefl _ (h.lt t _ ht)

theorem Inv.run_ne (h : st.Inv) (s : ℕ) : st.run s ≠ some st.calls := by
  intro hs
  obtain ⟨-, t, -, -, ht⟩ := h.links.serves s _ hs
  exact h.history.waiting_ne t ht

theorem Inv.matched (h : st.Inv) : st.Matched where
  own a ha := by
    obtain ⟨r, -, hr, -⟩ := h.history.past a ha
    exact ⟨r, hr⟩
  once := h.history.once
  pending r hr := by
    refine (h.history.pending r hr).imp_right fun ⟨t, ht⟩ => ⟨⟨t, ht⟩, (h.links.served t r ht).2⟩
  blocked t r ht := (h.links.served t r ht).1
  resumes r hr v := by
    obtain ⟨c, t, hactive, hsource, ht⟩ := h.links.serves _ r hr
    refine ⟨st.returned t v, t, ?_, ht, rfl, ?_⟩
    · exact step_ret.mpr ⟨c, t, hactive, hsource, h.links.ok.current, rfl⟩
    · rw [returned, ht, hr]
  kept := h.history.kept

/-! ## A call -/

section

variable {c : ℕ} {conn : IpcConnection} (callback : ℕ)

theorem Links.ne_of_active (h : st.Links) (hconn : st.ipc.conn c = some conn) {s c' : ℕ}
    (hs : s ≠ conn.target) (hactive : st.ipc.activeConn s = some c') : c' ≠ c := by
  rintro rfl
  obtain ⟨conn', hconn', htarget⟩ := h.target s c' hactive
  obtain rfl := Option.some.inj (hconn.symm.trans hconn')
  exact hs htarget.symm

theorem Inv.called_links (h : st.Inv) (hconn : st.ipc.conn c = some conn)
    (hidle : st.run conn.target = none) : (st.called c conn callback).Links := by
  obtain ⟨hsuspend, hwait⟩ := h.links.idle c conn hconn hidle
  have hne : conn.target ≠ st.ipc.sched.current := h.links.ok.ne_current_of_suspend hsuspend
  refine ⟨h.links.ok.handOver hsuspend, ?_, ?_, ?_, ?_, ?_,
    h.links.waiting_unshared.update_some h.history.waiting_ne _,
    h.links.run_unshared.update_some h.run_ne _⟩
  · intro s c' hs
    simp only [called, update_apply] at hs
    split_ifs at hs with hst
    · cases hs
      exact ⟨conn, hconn, hst.symm⟩
    · exact h.links.target s c' hs
  · intro s hs
    simp only [called, update_apply] at hs ⊢
    split_ifs at hs with hst
    rw [if_neg hst, h.links.active s hs]
  · intro s r hs
    simp only [called, update_apply] at hs ⊢
    split_ifs at hs with hst
    · exact ⟨c, st.ipc.sched.current, by rw [if_pos hst], by rw [if_pos rfl],
        by rw [if_pos rfl, hs]⟩
    · obtain ⟨c', t, hactive, hsource, ht⟩ := h.links.serves s r hs
      have hcc := h.links.ne_of_active hconn hst hactive
      have htc := h.links.ne_current ht
      exact ⟨c', t, by rw [if_neg hst, hactive], by rw [if_neg hcc, hsource],
        by rw [if_neg htc, ht]⟩
  · intro t r ht
    simp only [called, update_apply] at ht
    split_ifs at ht with htc
    · refine ⟨?_, conn.target, ?_⟩
      · simp [called, Sched.leave, htc, hne.symm]
      · simp [called, ht]
    · obtain ⟨hs, s, hrun⟩ := h.links.served t r ht
      have htt : t ≠ conn.target := by
        rintro rfl
        cases hwait.symm.trans ht
      have hst : s ≠ conn.target := by
        rintro rfl
        cases hidle.symm.trans hrun
      exact ⟨h.links.ok.suspend_leave hs htt _, s, by simp [called, hst, hrun]⟩
  · intro c₂ conn₂ hconn₂ hrun
    simp only [called, update_apply] at hrun
    split_ifs at hrun with hst
    obtain ⟨hs, hw⟩ := h.links.idle c₂ conn₂ hconn₂ hrun
    refine ⟨h.links.ok.suspend_leave hs hst _, ?_⟩
    simp [called, h.links.ok.ne_current_of_suspend hs, hw]

theorem Inv.called_history (h : st.Inv) (hidle : st.run conn.target = none) :
    (st.called c conn callback).History := by
  refine ⟨fun t r ht => ?_, fun a ha => ?_, h.history.once, fun r hr => ?_, ?_⟩
  · simp only [called, update_apply] at ht ⊢
    split_ifs at ht with htc
    · have := Option.some.inj ht
      omega
    · have := h.history.lt t r ht
      omega
  · obtain ⟨r, hlt, hr, hnone⟩ := h.history.past a ha
    refine ⟨r, Nat.lt_succ_of_lt hlt, hr, fun t ht => ?_⟩
    simp only [called, update_apply] at ht
    split_ifs at ht with htc
    · have := Option.some.inj ht
      omega
    · exact hnone t ht
  · rcases Nat.lt_succ_iff_lt_or_eq.mp hr with hlt | rfl
    · refine (h.history.pending r hlt).imp_right fun ⟨t, ht⟩ => ⟨t, ?_⟩
      simp [called, h.links.ne_current ht, ht]
    · exact Or.inr ⟨st.ipc.sched.current, by simp [called]⟩
  · simp [called, hidle, h.history.kept]

end

/-! ## A return -/

section

variable {c t r : ℕ} (v : ℕ)

theorem Links.returned (h : st.Links) (hrun : st.run st.ipc.sched.current = some r)
    (ht : st.waiting t = some r) : (st.returned t v).Links := by
  have htc := h.ne_current ht
  have hcur := h.waiting_current
  refine ⟨h.ok.handOver (h.served t r ht).1, ?_, ?_, ?_, ?_, ?_,
    h.waiting_unshared.update_none t, h.run_unshared.update_none _⟩
  · intro s c hs
    simp only [CallState.returned, update_apply] at hs
    split_ifs at hs
    exact h.target s c hs
  · intro s hs
    simp only [CallState.returned, update_apply] at hs ⊢
    split_ifs at hs ⊢
    · rfl
    · exact h.active s hs
  · intro s q hs
    simp only [CallState.returned, update_apply] at hs ⊢
    split_ifs at hs with hsc
    obtain ⟨c, u, hactive, hsource, hu⟩ := h.serves s q hs
    have hut : u ≠ t := by
      rintro rfl
      obtain rfl := Option.some.inj (hu.symm.trans ht)
      exact hsc (h.run_unshared s _ q hs hrun)
    exact ⟨c, u, by rw [if_neg hsc, hactive], hsource, by rw [if_neg hut, hu]⟩
  · intro u q hu
    simp only [CallState.returned, update_apply] at hu ⊢
    split_ifs at hu with hut
    obtain ⟨hs, s, hq⟩ := h.served u q hu
    have hsc : s ≠ st.ipc.sched.current := by
      rintro rfl
      obtain rfl := Option.some.inj (hq.symm.trans hrun)
      exact hut (h.waiting_unshared u t q hu ht)
    exact ⟨h.ok.suspend_leave hs hut _, s, by rw [if_neg hsc, hq]⟩
  · intro c conn hconn hnone
    simp only [CallState.returned, update_apply] at hnone ⊢
    by_cases hsc : conn.target = st.ipc.sched.current
    · -- the server thread is idle again
      rw [hsc, if_neg htc.symm]
      refine ⟨?_, h.waiting_current⟩
      simp [Sched.leave, htc.symm]
    · rw [if_neg hsc] at hnone
      obtain ⟨hs, hw⟩ := h.idle c conn hconn hnone
      have hut : conn.target ≠ t := by
        rintro rfl
        cases hw.symm.trans ht
      exact ⟨h.ok.suspend_leave hs hut _, by rw [if_neg hut, hw]⟩

theorem History.returned (h : st.History) (hunshared : Unshared st.waiting)
    (hrun : st.run st.ipc.sched.current = some r) (ht : st.waiting t = some r) :
    (st.returned t v).History := by
  have hwaiting : ∀ u q, (st.returned t v).waiting u = some q → u ≠ t ∧ st.waiting u = some q := by
    intro u q hu
    simp only [CallState.returned, update_apply] at hu
    split_ifs at hu with hut
    exact ⟨hut, hu⟩
  refine ⟨fun u q hu => h.lt u q (hwaiting u q hu).2, fun a ha => ?_, ?_, fun q hq => ?_, h.kept⟩
  · rcases List.mem_cons.mp ha with rfl | ha
    · refine ⟨r, h.lt t r ht, ⟨ht, hrun, rfl⟩, fun u hu => ?_⟩
      obtain ⟨hut, hu⟩ := hwaiting u r hu
      exact hut (hunshared u t r hu ht)
    · obtain ⟨q, hlt, hq, hnone⟩ := h.past a ha
      exact ⟨q, hlt, hq, fun u hu => hnone u (hwaiting u q hu).2⟩
  · refine List.nodup_cons.mpr ⟨fun hmem => ?_, h.once⟩
    obtain ⟨a, ha, hreq⟩ := List.mem_map.mp hmem
    obtain ⟨q, -, hq, hnone⟩ := h.past a ha
    exact hnone t (hreq.symm.trans hq.1)
  · rcases h.pending q hq with ⟨a, ha, hreq⟩ | ⟨u, hu⟩
    · exact Or.inl ⟨a, List.mem_cons_of_mem _ ha, hreq⟩
    · by_cases hut : u = t
      · exact Or.inl ⟨_, List.mem_cons_self, by rw [← hu, hut]⟩
      · exact Or.inr ⟨u, by simp [CallState.returned, hut, hu]⟩

end

/-! ## Steps and runs -/

theorem Links.preempt (h : st.Links) {sched : Sched} (hm : st.ipc.sched.Moves sched [] []) :
    Links { st with ipc := { st.ipc with sched := sched } } where
  ok := hm.ok
  target := h.target
  active := h.active
  serves := h.serves
  served t r ht := ⟨hm.suspend t List.not_mem_nil (h.served t r ht).1, (h.served t r ht).2⟩
  idle c conn hconn hrun := by
    obtain ⟨hs, hw⟩ := h.idle c conn hconn hrun
    exact ⟨hm.suspend _ List.not_mem_nil hs, hw⟩
  waiting_unshared := h.waiting_unshared
  run_unshared := h.run_unshared

theorem Links.run_eq_none (h : st.Links) {s : ℕ} (hs : st.ipc.activeConn s = none) :
    st.run s = none := by
  cases hrun : st.run s with
  | none => rfl
  | some r =>
    obtain ⟨c, -, hactive, -⟩ := h.serves s r hrun
    cases hs.symm.trans hactive

/-- **Every step keeps the invariant**, if it does not call a busy connection. -/
theorem Inv.step (h : st.Inv) {call : CallStep} (hidle : st.Idle call)
    (hstep : st.step call = .ok st') : st'.Inv := by
  cases call with
  | call c =>
    obtain ⟨conn, callback, hconn, rfl⟩ := step_call hstep
    have hactive : st.ipc.activeConn conn.target = none := by
      simpa [Idle, hconn] using hidle
    have hrun := h.links.run_eq_none hactive
    exact ⟨h.called_links callback hconn hrun, h.called_history callback hrun⟩
  | ret v =>
    obtain ⟨c, caller, hactive, hsource, -, rfl⟩ := step_ret.mp hstep
    cases hrun : st.run st.ipc.sched.current with
    | none => cases (h.links.active _ hrun).symm.trans hactive
    | some r =>
      obtain ⟨c', t, hactive', hsource', ht⟩ := h.links.serves _ r hrun
      obtain rfl := Option.some.inj (hactive.symm.trans hactive')
      obtain rfl := Option.some.inj (hsource.symm.trans hsource')
      exact ⟨h.links.returned v hrun ht, h.history.returned v h.links.waiting_unshared hrun ht⟩
  | preempt =>
    obtain ⟨sched, hsched, hst⟩ := Fallible.bind_eq_ok.mp hstep
    obtain ⟨sched', hsched', hm⟩ := schedule_moves h.links.ok
    obtain rfl := Except.ok.inj (hsched'.symm.trans hsched)
    cases hst
    exact ⟨h.links.preempt hm, h.history.lt, h.history.past, h.history.once, h.history.pending,
      h.history.kept⟩

theorem Links.overwritten (h : st.Links) {call : CallStep} (hbusy : ¬ st.Idle call)
    (hstep : st.step call = .ok st') : st'.overwritten ≠ [] := by
  cases call with
  | call c =>
    obtain ⟨conn, callback, hconn, rfl⟩ := step_call hstep
    cases hrun : st.run conn.target with
    | none => exact absurd (by simp [Idle, hconn, h.active _ hrun]) hbusy
    | some r => simp [called, hrun]
  | ret v => exact absurd trivial hbusy
  | preempt => exact absurd trivial hbusy

end CallState

/-- **Calls and returns match** in every run in which a connection is called only while its server
thread has no active connection.  A call that does not meet this condition breaks the match. -/
theorem callRuns_matched (st : CallState) (hr : callRuns.ReachableVia CallState.Idle st) :
    st.Matched ∧ ∀ call st', st.step call = .ok st' → (st'.Matched ↔ st.Idle call) := by
  have h : st.Inv := by
    apply hr.invariant (I := CallState.Inv)
    · exact fun st hinit => CallState.Initial.inv hinit
    · exact fun st call st' hinv hidle hstep => hinv.step hidle hstep
  refine ⟨h.matched, fun call st' hstep => ⟨fun hm => ?_, fun hidle =>
    (h.step hidle hstep).matched⟩⟩
  by_contra hbusy
  exact h.links.overwritten hbusy hstep hm.kept

/-- Two clients, `0` and `1`, and two connections with the server threads `2` and `3`. -/
def twoClients : CallState where
  ipc := {
    sched := ⟨0, [1], fun t => if t = 0 then .running else if t = 1 then .ready else .suspend,
      fun _ => false⟩
    conn := fun c => if c = 10 then some ⟨2, 0, 0x4000, 0x8000, 0xc000⟩
      else if c = 11 then some ⟨3, 0, 0x5000, 0x9000, 0xd000⟩ else none
    thread := fun t => if t = 2 ∨ t = 3 then some ⟨0, 0, some ⟨0x100, 0, 0, ⟨0, 0, 0, 0⟩⟩⟩ else none
    source := fun _ => none
    activeConn := fun _ => none
    regs := fun _ => ⟨0, 0, 0⟩ }
  calls := 0
  waiting _ := none
  run _ := none
  answers := []
  overwritten := []

theorem twoClients_initial : twoClients.Initial := by
  refine ⟨⟨rfl, by decide, by decide, by decide⟩, fun c conn hconn => ?_, fun _ => rfl, rfl,
    fun _ => rfl, fun _ => rfl, rfl, rfl⟩
  simp only [twoClients] at hconn ⊢
  split_ifs at hconn <;> obtain rfl := Option.some.inj hconn <;> rfl

/-- The theorem applies to a run with two calls whose handlers are preempted. -/
theorem callRuns_matched_two :
    ∃ st, callRuns.ReachableVia CallState.Idle st ∧
      st.answers.map (fun a => (a.caller, a.value)) = [(0, 5), (1, 7)] ∧ st.Matched := by
  obtain ⟨st, hr, hst⟩ := Lts.System.exists_reachableVia (M := callRuns) CallState.Idle
    (s := twoClients)
    (P := fun st => st.answers.map (fun a => (a.caller, a.value)) = [(0, 5), (1, 7)])
    [.call 10, .preempt, .call 11, .preempt, .preempt, .ret 7, .preempt, .ret 5] twoClients_initial
    (by decide)
  exact ⟨st, hr, hst, (callRuns_matched st hr).1⟩

/-- The handler for the first client is preempted, and the second client calls the same connection:
the handler is started anew, and its return would resume the second client only. -/
theorem callRuns_overwritten :
    ∃ st, callRuns.Reachable st ∧ (st.overwritten = [0] ∧ st.waiting 0 = some 0 ∧
      st.run 2 = some 1 ∧ st.ipc.activeConn 2 = some 10 ∧ st.ipc.source 10 = some 1) ∧
      ¬ st.Matched := by
  obtain ⟨st, hr, hst⟩ := Lts.System.exists_reachableVia (M := callRuns) (fun _ _ => True)
    (s := twoClients) (P := fun st => st.overwritten = [0] ∧ st.waiting 0 = some 0 ∧
      st.run 2 = some 1 ∧ st.ipc.activeConn 2 = some 10 ∧ st.ipc.source 10 = some 1)
    [.call 10, .preempt, .call 10] twoClients_initial (by decide)
  refine ⟨st, hr, hst, fun hm => ?_⟩
  cases hst.1.symm.trans hm.kept

end Ginkgo.Core
