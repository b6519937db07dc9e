import Ginkgo.Core.Vmo
import Ginkgo.Include.BitScan
import Mathlib.Order.CompletePartialOrder

/-!
# Connections between clients and servers

The model of `ipc/client.c` and `ipc/server.c`.  A server thread has a bitmap of its connections;
the index that a new connection gets from it says which part of the server's address space holds
the stack and the buffer of the connection.

## Main results

* `createConnection_ok` — what a new connection is given.
* `connectionRuns_isolated` — connections are isolated as long as every server has at
  most two of them.
-/

namespace Ginkgo.Core

open Arch
open Function (update update_self update_of_ne)
open Fallible (bind_eq_ok map_eq_ok)

/-! ## Objects -/

/-- `struct ipc_vm_config`. -/
structure IpcVmConfig where
  stackBaseAddr : ℕ
  stackSize : ℕ
  bufBaseAddr : ℕ
  bufSize : ℕ
deriving DecidableEq, Repr

/-- `struct server_ipc_config`. -/
structure ServerIpcConfig where
  callback : ℕ
  maxClient : ℕ
  /-- The bitmap of the indices of connections. -/
  connBmp : ℕ
  vmConfig : IpcVmConfig
deriving DecidableEq, Repr

/-- The fields of `thread_t` that the functions use. -/
structure IpcThread where
  process : ℕ
  vmspace : ℕ
  serverIpcConfig : Option ServerIpcConfig
deriving DecidableEq, Repr

/-- `ipc_connection_t`. -/
structure IpcConnection where
  target : ℕ
  serverConnCap : ℕ
  serverStackTop : ℕ
  clientUserAddr : ℕ
  serverUserAddr : ℕ

/-- What a connection is given of the address space of its server: the index, the stack and the
buffer. -/
structure Share where
  server : ℕ
  connIdx : ℕ
  stackBase : ℕ
  stackSize : ℕ
  bufBase : ℕ
  bufSize : ℕ
deriving DecidableEq, Repr

/-- The kernel, the threads and connections by their addresses, and the shares of the connections
that were made. -/
structure IpcState where
  kernel : Kernel
  thread : ℕ → Option IpcThread
  conn : ℕ → Option IpcConnection
  made : List Share

/-- The addresses that the allocator returns while a connection is made. -/
structure Answers where
  stackVmo : ℕ
  stackData : ℕ
  stackVmr : ℕ
  bufVmo : ℕ
  bufData : ℕ
  clientVmr : ℕ
  serverVmr : ℕ
  conn : ℕ
  thread : ℕ
  kstack : ℕ
  config : ℕ

/-! ## The functions -/

/-- `slot_alloc_install`; it asserts that there is an object. -/
def Kernel.slotAllocInstall (k : Kernel) (p : ℕ) (answer : ℕ) (obj : Kobject) :
    Except Fault (ℤ × Kernel) := do
  kassert (answer ≠ 0)
  let (slot, process) := Core.slotAllocInstall (k.process p) obj
  return (slot, { k with process := update k.process p process })

/-- `vmo_create` of type `VMO_DATA`, with the answers for the object and for its data. -/
def Kernel.vmoCreate (k : Kernel) (answer data size : ℕ) : Kernel :=
  { k with mem := { k.mem with
      vmo := update k.mem.vmo answer ⟨data, pgRoundUp size, .data⟩ } }

/-- `vmspace_map_range_user` for reading and writing, whose result is not used. -/
def Kernel.mapUser (k : Kernel) (v answer va len vmo : ℕ) : Except Fault Kernel := do
  let (_, mem, vmspace) ← vmspaceMapRangeUser k.mem (k.vmspace v) answer va len
    (protWrite ||| protRead) vmo
  return { k with mem := mem, vmspace := update k.vmspace v vmspace }

/-- `THREAD_SIZE`. -/
def threadSize : ℕ := 8192

/-- `thread_create`: the thread at `answer`, with the kernel stack at `kstack`. -/
def threadCreate (k : Kernel) (answer kstack process : ℕ) : Except Fault (IpcThread × Kernel) := do
  access (answer ≠ 0)
  match getVmspace (k.process process) vmspaceObjId with
  | none => .error .badAccess
  | some v =>
    let (_, mmu) ← mapRangeInPgtbl k.mem.mmu (k.vmspace v).pgtbl kstack kstack threadSize
      (pteR ||| pteW)
    return (⟨process, v, none⟩, { k with mem := { k.mem with mmu := mmu } })

/-- `create_server_thread`. -/
def createServerThread (k : Kernel) (a : Answers) (target : IpcThread) (c : ServerIpcConfig) :
    Except Fault (IpcThread × Kernel) := do
  let (thread, k) ← threadCreate k a.thread a.kstack target.process
  access (a.config ≠ 0)
  return ({ thread with serverIpcConfig := some ⟨c.callback, 0, 0, c.vmConfig⟩ }, k)

/-- The share of the connection with an index. -/
def ServerIpcConfig.share (c : ServerIpcConfig) (server connIdx : ℕ) : Share where
  server := server
  connIdx := connIdx
  stackBase := wrap64 (c.vmConfig.stackBaseAddr + wrap64 (connIdx * c.vmConfig.stackSize))
  stackSize := c.vmConfig.stackSize
  bufBase := wrap64 (c.vmConfig.bufBaseAddr + wrap64 (connIdx * c.vmConfig.bufSize))
  bufSize := c.vmConfig.bufSize

/-- The index of the next connection; the bitmap is converted to an `int`. -/
def ServerIpcConfig.nextIdx (c : ServerIpcConfig) : ℕ := ffs (BitVec.ofNat 32 c.connBmp)

/-- The configuration with the bit of an index set. -/
def ServerIpcConfig.taken (c : ServerIpcConfig) (connIdx : ℕ) : ServerIpcConfig :=
  { c with connBmp := c.connBmp ||| 1 <<< connIdx }

/-- `create_connection` from the thread `source` to the thread `target`.  The result is the
capability and the configuration of the client with the size of the buffer. -/
def createConnection (st : IpcState) (a : Answers) (source target : ℕ)
    (clientVmConfig : IpcVmConfig) : Except Fault (ℤ × IpcVmConfig × IpcState) :=
  match st.thread source, st.thread target with
  | some src, some tgt =>
    match tgt.serverIpcConfig with
    | none => .error .badAccess
    | some c => do
      let connIdx := c.nextIdx
      let share := c.share target connIdx
      -- the stack of the server thread
      let k := st.kernel.vmoCreate a.stackVmo a.stackData share.stackSize
      let (_, k) ← k.slotAllocInstall tgt.process a.stackVmo (.vmobject a.stackVmo)
      let k ← k.mapUser tgt.vmspace a.stackVmr share.stackBase share.stackSize a.stackVmo
      -- the buffer
      let bufSize := min share.bufSize clientVmConfig.bufSize
      let k := k.vmoCreate a.bufVmo a.bufData bufSize
      let (_, k) ← k.slotAllocInstall src.process a.bufVmo (.vmobject a.bufVmo)
      let (_, k) ← k.slotAllocInstall tgt.process a.bufVmo (.vmobject a.bufVmo)
      let k ← k.mapUser src.vmspace a.clientVmr clientVmConfig.bufBaseAddr bufSize a.bufVmo
      let k ← k.mapUser tgt.vmspace a.serverVmr share.bufBase bufSize a.bufVmo
      -- the connection and its thread
      access (a.conn ≠ 0)
      let (thread, k) ← createServerThread k a tgt c
      let (connCap, k) ← k.slotAllocInstall src.process a.conn (.connection a.conn)
      let (serverConnCap, k) ← slotCopy k src.process tgt.process (connCap % 2 ^ 32).toNat
      return (connCap, { clientVmConfig with bufSize := bufSize }, {
        kernel := k
        thread := update (update st.thread target
          (some { tgt with serverIpcConfig := some (c.taken connIdx) })) a.thread (some thread)
        conn := update st.conn a.conn (some {
          target := a.thread
          serverConnCap := (serverConnCap % 2 ^ 64).toNat
          serverStackTop := wrap64 (share.stackBase + share.stackSize)
          clientUserAddr := clientVmConfig.bufBaseAddr
          serverUserAddr := share.bufBase })
        made := share :: st.made })
  | _, _ => .error .badAccess

/-- `dynamic_cast(thread_t)(slot_get(process, slot))`. -/
def getThread (process : Process) (slot : ℕ) : Option ℕ :=
  match slotGet process slot with
  | some (.thread t) => some t
  | _ => none

/-- The thread that a capability of the thread `client` refers to. -/
def IpcState.serverOf (st : IpcState) (client serverCap : ℕ) : Option ℕ :=
  (st.thread client).bind fun th => getThread (st.kernel.process th.process) serverCap

/-- `sys_register_client` by the thread `client`. -/
def sysRegisterClient (st : IpcState) (a : Answers) (client serverCap : ℕ)
    (vmConfig : IpcVmConfig) : Except Fault (ℤ × IpcVmConfig × IpcState) :=
  match st.serverOf client serverCap with
  | none => .error .badAccess
  | some server => createConnection st a client server vmConfig

/-- `sys_register_client_by_name`; `server` is what `search_named_server` returns. -/
def sysRegisterClientByName (st : IpcState) (a : Answers) (client : ℕ) (server : Option ℕ)
    (vmConfig : IpcVmConfig) : Except Fault (ℤ × IpcVmConfig × IpcState) :=
  match server with
  | none => .ok (0, vmConfig, st)
  | some server => createConnection st a client server vmConfig

/-- `register_server` by the thread `server`. -/
def registerServer (st : IpcState) (server callback maxClient : ℕ) (vmConfig : IpcVmConfig) :
    Except Fault IpcState :=
  match st.thread server with
  | none => .error .badAccess
  | some th =>
    let th := { th with serverIpcConfig := some ⟨callback, maxClient, 0, vmConfig⟩ }
    .ok { st with thread := update st.thread server (some th) }

/-! ## The transition system -/

/-- A call of a thread. -/
inductive IpcCall
  | registerServer (server callback maxClient : ℕ) (vmConfig : IpcVmConfig)
  | registerClient (a : Answers) (client serverCap : ℕ) (vmConfig : IpcVmConfig)
  | registerClientByName (a : Answers) (client : ℕ) (server : Option ℕ) (vmConfig : IpcVmConfig)

/-- The effect of a call. -/
def IpcState.step (st : IpcState) : IpcCall → Except Fault IpcState
  | .registerServer server callback maxClient vmConfig =>
    Core.registerServer st server callback maxClient vmConfig
  | .registerClient a client serverCap vmConfig =>
    (sysRegisterClient st a client serverCap vmConfig).map fun y => y.2.2
  | .registerClientByName a client server vmConfig =>
    (sysRegisterClientByName st a client server vmConfig).map fun y => y.2.2

/-- The runs from a state without servers. -/
def connectionRuns : Lts.System IpcState IpcCall Fault where
  init st := (∀ t th, st.thread t = some th → th.serverIpcConfig = none) ∧ st.made = []
  step := IpcState.step

/-- The addresses of `size` bytes from `base`. -/
def Span (base size : ℕ) : Set ℕ := { x | ∃ i < size, x = wrap64 (base + i) }

/-- Two connections of one server have different indices, and their stacks and buffers do not
overlap. -/
structure Share.Apart (s s' : Share) : Prop where
  connIdx : s.connIdx ≠ s'.connIdx
  stack : Disjoint (Span s.stackBase s.stackSize) (Span s'.stackBase s'.stackSize)
  buf : Disjoint (Span s.bufBase s.bufSize) (Span s'.bufBase s'.bufSize)

/-- **Connections are isolated.** -/
def IpcState.Isolated (st : IpcState) : Prop :=
  st.made.Pairwise fun s s' => s.server = s'.server → s.Apart s'

/-- The server has fewer than two connections, and room for two stacks and buffers in the address
space. -/
def ServerIpcConfig.Roomy (c : ServerIpcConfig) : Prop :=
  c.connBmp ≤ 1 ∧ 2 * c.vmConfig.stackSize ≤ 2 ^ 64 ∧ 2 * c.vmConfig.bufSize ≤ 2 ^ 64

instance (c : ServerIpcConfig) : Decidable c.Roomy := by
  unfold ServerIpcConfig.Roomy
  infer_instance

/-- The thread may be given another connection. -/
def IpcState.Accepts (st : IpcState) (a : Answers) (server : ℕ) : Prop :=
  st.thread a.thread = none ∧ ∀ th ∈ st.thread server, ∀ c ∈ th.serverIpcConfig, c.Roomy

instance (st : IpcState) (a : Answers) (server : ℕ) : Decidable (st.Accepts a server) := by
  unfold IpcState.Accepts
  infer_instance

/-- A thread registers once, and a server is given another connection only while it has fewer
than two.  The allocator returns memory that is not in use. -/
def IpcState.Careful (st : IpcState) : IpcCall → Prop
  | .registerServer server _ _ _ => ∀ th ∈ st.thread server, th.serverIpcConfig = none
  | .registerClient a client serverCap _ =>
    ∀ server ∈ st.serverOf client serverCap, st.Accepts a server
  | .registerClientByName a _ found _ => ∀ server ∈ found, st.Accepts a server

instance (st : IpcState) (call : IpcCall) : Decidable (st.Careful call) := by
  cases call <;> simp only [IpcState.Careful] <;> infer_instance

section

variable {st st' : IpcState} {a : Answers} {source target : ℕ} {cfg cfg' : IpcVmConfig} {cap : ℤ}

/-- **What a new connection is given**: the share of the next index, whose bit is set. -/
theorem createConnection_ok (h : createConnection st a source target cfg = .ok (cap, cfg', st')) :
    ∃ tgt c thread, st.thread target = some tgt ∧ tgt.serverIpcConfig = some c ∧
      st'.made = c.share target c.nextIdx :: st.made ∧
      st'.thread = update (update st.thread target
        (some { tgt with serverIpcConfig := some (c.taken c.nextIdx) }))
          a.thread (some thread) := by
  unfold createConnection at h
  cases hsrc : st.thread source with
  | none =>
    rw [hsrc] at h
    cases h
  | some src =>
    cases htgt : st.thread target with
    | none =>
      rw [hsrc, htgt] at h
      cases h
    | some tgt =>
      rw [hsrc, htgt] at h
      dsimp only at h
      cases hc : tgt.serverIpcConfig with
      | none =>
        rw [hc] at h
        cases h
      | some c =>
        rw [hc] at h
        dsimp only at h
        -- The stack, the buffer, the connection and its thread leave the other tables alone.
        iterate 7 obtain ⟨_, _, h⟩ := bind_eq_ok.mp h
        obtain ⟨⟨thread, _⟩, _, h⟩ := bind_eq_ok.mp h
        obtain ⟨_, _, h⟩ := bind_eq_ok.mp h
        obtain ⟨_, _, h⟩ := bind_eq_ok.mp h
        obtain ⟨_, hst⟩ := Prod.mk.inj (Except.ok.inj h)
        obtain ⟨_, rfl⟩ := Prod.mk.inj hst
        exact ⟨tgt, c, thread, rfl, hc, rfl, rfl⟩

/-! ## The invariant -/

/-- Every connection has the share of an index whose bit is set in the bitmap of its server. -/
structure IpcState.Inv (st : IpcState) : Prop where
  shares : ∀ s ∈ st.made, ∃ th c, st.thread s.server = some th ∧ th.serverIpcConfig = some c ∧
    c.connBmp.testBit s.connIdx = true ∧ s = c.share s.server s.connIdx
  isolated : st.Isolated

theorem ServerIpcConfig.Roomy.cases {c : ServerIpcConfig} (h : c.Roomy) :
    c.connBmp = 0 ∧ c.nextIdx = 0 ∨ c.connBmp = 1 ∧ c.nextIdx = 1 := by
  have hbmp : c.connBmp = 0 ∨ c.connBmp = 1 := by
    have := h.1
    omega
  refine hbmp.imp (fun hzero => ⟨hzero, ?_⟩) fun hone => ⟨hone, ?_⟩
  · rw [nextIdx, hzero]
    decide
  · rw [nextIdx, hone]
    decide

theorem disjoint_span (base : ℕ) {size : ℕ} (h : 2 * size ≤ 2 ^ 64) :
    Disjoint (Span (wrap64 (base + wrap64 (1 * size))) size)
      (Span (wrap64 (base + wrap64 (0 * size))) size) := by
  rw [Set.disjoint_left]
  rintro x ⟨i, hi, hx⟩ ⟨j, hj, hx'⟩
  rw [hx, Nat.one_mul, Nat.zero_mul] at hx'
  unfold wrap64 at hx'
  omega

theorem ServerIpcConfig.Roomy.apart {c : ServerIpcConfig} (h : c.Roomy) {server i : ℕ}
    (hbit : c.connBmp.testBit i = true) :
    (c.share server c.nextIdx).Apart (c.share server i) := by
  cases h.cases with
  | inl hzero =>
    rw [hzero.1, Nat.zero_testBit] at hbit
    cases hbit
  | inr hone =>
    rw [hone.1, Nat.testBit_one_eq_true_iff_self_eq_zero] at hbit
    obtain rfl : i = 0 := hbit
    rw [hone.2]
    exact ⟨Nat.one_ne_zero, disjoint_span _ h.2.1, disjoint_span _ h.2.2⟩

theorem IpcState.Inv.create (hinv : st.Inv) (haccepts : st.Accepts a target)
    (hcall : createConnection st a source target cfg = .ok (cap, cfg', st')) : st'.Inv := by
  obtain ⟨tgt, c, thread, htgt, hc, hmade, hthread⟩ := createConnection_ok hcall
  have hroomy : c.Roomy := haccepts.2 tgt htgt c hc
  have hfresh : target ≠ a.thread := by
    rintro rfl
    rw [haccepts.1] at htgt
    cases htgt
  have htarget : st'.thread target =
      some { tgt with serverIpcConfig := some (c.taken c.nextIdx) } := by
    rw [hthread, update_of_ne hfresh, update_self]
  have htaken : ∀ i, (c.taken c.nextIdx).connBmp.testBit i =
      (c.connBmp.testBit i || decide (c.nextIdx = i)) := by
    intro i
    rw [ServerIpcConfig.taken, Nat.testBit_or, Nat.one_shiftLeft, Nat.testBit_two_pow]
  -- The connections that exist keep their bits; those of the same server have the same shares.
  have hold : ∀ s ∈ st.made, s.server = target →
      c.connBmp.testBit s.connIdx = true ∧ s = c.share target s.connIdx := by
    intro s hs hserver
    obtain ⟨th, c', hth, hc', hbit, hshare⟩ := hinv.shares s hs
    rw [hserver, htgt] at hth
    cases hth
    rw [hc] at hc'
    cases hc'
    rw [hserver] at hshare
    exact ⟨hbit, hshare⟩
  refine ⟨fun s hs => ?_, ?_⟩
  · rw [hmade] at hs
    cases hs with
    | head =>
      refine ⟨_, _, htarget, rfl, ?_, rfl⟩
      rw [htaken]
      simp [ServerIpcConfig.share]
    | tail _ hs =>
      by_cases hserver : s.server = target
      · obtain ⟨hbit, hshare⟩ := hold s hs hserver
        refine ⟨_, _, by rw [hserver]; exact htarget, rfl, ?_, by rw [hserver]; exact hshare⟩
        rw [htaken, hbit, Bool.true_or]
      · obtain ⟨th, c', hth, hc', hbit, hshare⟩ := hinv.shares s hs
        have hne : s.server ≠ a.thread := by
          intro heq
          rw [heq, haccepts.1] at hth
          cases hth
        refine ⟨th, c', ?_, hc', hbit, hshare⟩
        rw [hthread, update_of_ne hne, update_of_ne hserver, hth]
  · rw [IpcState.Isolated, hmade, List.pairwise_cons]
    refine ⟨fun s hs hserver => ?_, hinv.isolated⟩
    obtain ⟨hbit, hshare⟩ := hold s hs hserver.symm
    rw [hshare]
    exact hroomy.apart hbit

theorem IpcState.Inv.step (hinv : st.Inv) {call : IpcCall} (hcareful : st.Careful call)
    (hstep : st.step call = .ok st') : st'.Inv := by
  cases call with
  | registerServer server callback maxClient vmConfig =>
    rw [IpcState.step, Core.registerServer] at hstep
    cases hth : st.thread server with
    | none =>
      rw [hth] at hstep
      cases hstep
    | some th =>
      rw [hth] at hstep
      cases hstep
      refine ⟨fun s hs => ?_, hinv.isolated⟩
      obtain ⟨th', c, hth', hc, hrest⟩ := hinv.shares s hs
      have hne : s.server ≠ server := by
        intro heq
        rw [heq] at hth'
        rw [hcareful th' hth'] at hc
        cases hc
      refine ⟨th', c, ?_, hc, hrest⟩
      dsimp only
      rw [update_of_ne hne, hth']
  | registerClient a client serverCap vmConfig =>
    obtain ⟨⟨cap, cfg, st₁⟩, hcall, rfl⟩ := map_eq_ok.mp hstep
    rw [sysRegisterClient] at hcall
    cases hserver : st.serverOf client serverCap with
    | none =>
      rw [hserver] at hcall
      cases hcall
    | some server =>
      rw [hserver] at hcall
      exact hinv.create (hcareful server hserver) hcall
  | registerClientByName a client server vmConfig =>
    obtain ⟨⟨cap, cfg, st₁⟩, hcall, rfl⟩ := map_eq_ok.mp hstep
    cases server with
    | none =>
      cases hcall
      exact hinv
    | some server => exact hinv.create (hcareful server rfl) hcall

end

/-- **Connections are isolated in every run** in which no server is given a third one. -/
theorem connectionRuns_isolated (st : IpcState)
    (hr : connectionRuns.ReachableVia IpcState.Careful st) : st.Isolated := by
  refine (hr.invariant (I := IpcState.Inv) ?_ ?_).isolated
  · rintro st ⟨_, hmade⟩
    refine ⟨?_, ?_⟩
    · simp [hmade]
    · simp [IpcState.Isolated, hmade]
  · intro st call st' hinv hcareful hstep
    exact hinv.step hcareful hstep

/-- Thread `1` of process `0`, and thread `2` of process `1`, which has a capability of it. -/
def twoProcesses : IpcState where
  kernel := {
    mem := ⟨emptyTable [0x2000, 0x3000, 0x5000, 0x6000], fun _ => none, fun _ => ⟨0, 0, .anonym⟩⟩
    process := fun p => if p = 0 then
        ⟨[some (.process 0), some (.vmspace 0)] ++ List.replicate 12 none⟩
      else ⟨[some (.process 1), some (.vmspace 1), some (.thread 1)] ++ List.replicate 12 none⟩
    vmspace := fun v => if v = 0 then ⟨[], 0x1000⟩ else ⟨[], 0x4000⟩ }
  thread := fun t => if t = 1 then some ⟨0, 0, none⟩ else if t = 2 then some ⟨1, 1, none⟩ else none
  conn := fun _ => none
  made := []

theorem twoProcesses_init : connectionRuns.init twoProcesses := by
  refine ⟨fun t th hth => ?_, rfl⟩
  simp only [twoProcesses] at hth
  split_ifs at hth <;> cases hth <;> rfl

/-- Addresses for the `n`th connection. -/
def nthAnswers (n : ℕ) : Answers :=
  let page := 0x100000 + 0x10000 * n
  ⟨page, page + 0x1000, page + 0x100, page + 0x200, page + 0x2000, page + 0x300, page + 0x400,
    page + 0x500, page + 0x600, page + 0x4000, page + 0x700⟩

/-- The stacks of a server are at `0x10000`, its buffers at `0x20000`. -/
def serverConfig : IpcVmConfig := ⟨0x10000, 0x1000, 0x20000, 0x1000⟩

/-- The buffer of a client is at `0x30000`. -/
def clientConfig : IpcVmConfig := ⟨0, 0, 0x30000, 0x1000⟩

/-- The theorem applies to a server with two connections. -/
theorem connectionRuns_isolated_twoConnections :
    ∃ st, connectionRuns.ReachableVia IpcState.Careful st ∧
      st.made.map Share.connIdx = [1, 0] ∧ st.Isolated := by
  obtain ⟨st, hr, hmade⟩ := Lts.System.exists_reachableVia (M := connectionRuns) IpcState.Careful
    (s := twoProcesses) (P := fun st => st.made.map Share.connIdx = [1, 0])
    [.registerServer 1 0x8000 32 serverConfig,
      .registerClient (nthAnswers 0) 2 2 clientConfig,
      .registerClientByName (nthAnswers 1) 2 (some 1) clientConfig]
    twoProcesses_init (by decide +kernel)
  exact ⟨st, hr, hmade, connectionRuns_isolated st hr⟩

/-- The third connection of a server gets the index, the stack and the buffer of the second. -/
theorem connectionRuns_third :
    ∃ st, connectionRuns.Reachable st ∧ ∃ s s' : Share, st.made = [s, s, s'] ∧ s.connIdx = 1 ∧
      s.server = 1 ∧ 0 < s.stackSize ∧ 0 < s.bufSize := by
  obtain ⟨st, hr, hmade⟩ := Lts.System.exists_reachableVia (M := connectionRuns) (fun _ _ => True)
    (s := twoProcesses)
    (P := fun st => st.made = [⟨1, 1, 0x11000, 0x1000, 0x21000, 0x1000⟩,
      ⟨1, 1, 0x11000, 0x1000, 0x21000, 0x1000⟩, ⟨1, 0, 0x10000, 0x1000, 0x20000, 0x1000⟩])
    [.registerServer 1 0x8000 32 serverConfig,
      .registerClientByName (nthAnswers 0) 2 (some 1) clientConfig,
      .registerClientByName (nthAnswers 1) 2 (some 1) clientConfig,
      .registerClientByName (nthAnswers 2) 2 (some 1) clientConfig]
    twoProcesses_init (by decide +kernel)
  exact ⟨st, hr, _, _, hmade, rfl, rfl, by decide, by decide⟩

end Ginkgo.Core
