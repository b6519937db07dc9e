import Ginkgo.Core.IpcConnection
import Ginkgo.Core.SlotTable

/-!
# Connections and slot tables

`create_connection` installs five objects: two memory objects and the connection in the table of the
server, and a memory object and the connection in that of the client.

## Main results

* `createConnection_eq` — the two parts do not depend on each other.
* `connectionSlots_spec` — the outcomes of the installations.
* `createConnection_clean_iff` — when a connection is made cleanly.
-/

namespace Ginkgo.Core

open Arch
open Fallible (bind_eq_ok ok_bind map_eq_ok map_eq_error)

/-! ## The two parts of `create_connection` -/

/-- What `create_connection` does to memory: the objects, the mappings and the server thread. -/
def connectionMemory (k : Kernel) (a : Answers) (src tgt : IpcThread) (c : ServerIpcConfig)
    (target : ℕ) (clientVmConfig : IpcVmConfig) : Except Fault (IpcThread × Kernel) := do
  let share := c.share target c.nextIdx
  let bufSize := min share.bufSize clientVmConfig.bufSize
  let k := k.vmoCreate a.stackVmo a.stackData share.stackSize
  kassert (a.stackVmo ≠ 0)
  let k ← k.mapUser tgt.vmspace a.stackVmr share.stackBase share.stackSize a.stackVmo
  let k := k.vmoCreate a.bufVmo a.bufData bufSize
  kassert (a.bufVmo ≠ 0)
  let k ← k.mapUser src.vmspace a.clientVmr clientVmConfig.bufBaseAddr bufSize a.bufVmo
  let k ← k.mapUser tgt.vmspace a.serverVmr share.bufBase bufSize a.bufVmo
  access (a.conn ≠ 0)
  createServerThread k a tgt c

/-- What `create_connection` does to the slot tables: the capabilities of the connection for the
client and for the server. -/
def connectionSlots (k : Kernel) (a : Answers) (client server : ℕ) :
    Except Fault (ℤ × ℤ × Kernel) := do
  let (_, k) ← k.slotAllocInstall server a.stackVmo (.vmobject a.stackVmo)
  let (_, k) ← k.slotAllocInstall client a.bufVmo (.vmobject a.bufVmo)
  let (_, k) ← k.slotAllocInstall server a.bufVmo (.vmobject a.bufVmo)
  let (connCap, k) ← k.slotAllocInstall client a.conn (.connection a.conn)
  let (serverConnCap, k) ← slotCopy k client server (connCap % 2 ^ 32).toNat
  return (connCap, serverConnCap, k)

/-- The kernel with other slot tables. -/
def Kernel.withTables (k : Kernel) (process : ℕ → Process) : Kernel := { k with process := process }

variable {k k₁ k' : Kernel} {a : Answers} {p q s client server answer : ℕ} {obj : Kobject}

theorem Kernel.mapUser_withTables (k : Kernel) (process : ℕ → Process) (v answer va len vmo : ℕ) :
    (k.withTables process).mapUser v answer va len vmo =
      (k.mapUser v answer va len vmo).map fun k' => k'.withTables process := by
  unfold Kernel.mapUser Kernel.withTables
  dsimp only
  cases vmspaceMapRangeUser k.mem (k.vmspace v) answer va len (protWrite ||| protRead) vmo <;> rfl

theorem Kernel.vmoCreate_withTables (k : Kernel) (process : ℕ → Process) (answer data size : ℕ) :
    (k.withTables process).vmoCreate answer data size =
      (k.vmoCreate answer data size).withTables process := rfl

theorem threadCreate_withTables (k : Kernel) (process : ℕ → Process) (answer kstack p : ℕ)
    (h : getVmspace (process p) vmspaceObjId = getVmspace (k.process p) vmspaceObjId) :
    threadCreate (k.withTables process) answer kstack p =
      (threadCreate k answer kstack p).map fun y => (y.1, y.2.withTables process) := by
  have hspace : getVmspace ((k.withTables process).process p) vmspaceObjId =
      getVmspace (k.process p) vmspaceObjId := h
  unfold threadCreate
  rw [hspace]
  cases access (answer ≠ 0) with
  | error e => rfl
  | ok u =>
    cases getVmspace (k.process p) vmspaceObjId with
    | none => rfl
    | some v =>
      simp only [ok_bind, Kernel.withTables]
      cases mapRangeInPgtbl k.mem.mmu (k.vmspace v).pgtbl kstack kstack threadSize
        (pteR ||| pteW) <;> rfl

theorem createServerThread_withTables (k : Kernel) (process : ℕ → Process) (tgt : IpcThread)
    (c : ServerIpcConfig) (h : getVmspace (process tgt.process) vmspaceObjId =
      getVmspace (k.process tgt.process) vmspaceObjId) :
    createServerThread (k.withTables process) a tgt c =
      (createServerThread k a tgt c).map fun y => (y.1, y.2.withTables process) := by
  unfold createServerThread
  rw [threadCreate_withTables k process _ _ _ h]
  cases threadCreate k a.thread a.kstack tgt.process with
  | error e => rfl
  | ok y => cases access (a.config ≠ 0) <;> rfl

/-! ## One installation -/

/-- The object `obj` has been installed in the table of the process `p`, in the slot `r`; `r` is
negative if the table was full. -/
structure Kernel.Installed (k k' : Kernel) (p : ℕ) (obj : Kobject) (r : ℤ) : Prop where
  tables : k' = k.withTables k'.process
  sized : k'.Sized
  keeps : ∀ q s obj', k.slot q s = some (some obj') → k'.slot q s = some (some obj')
  new : ∀ q s obj', k'.slot q s = some (some obj') → k.slot q s = some (some obj') ∨ obj' = obj
  room : ∀ q, k'.room q = if q = p then k.room q - 1 else k.room q
  result : (k.room p = 0 ∧ r = -1) ∨
    (0 < k.room p ∧ ∃ n : ℕ, r = n ∧ k'.slot p n = some (some obj))

theorem Kernel.installed_full (hsized : k.Sized) (hroom : k.room p = 0) :
    k.Installed k p obj (-1) where
  tables := rfl
  sized := hsized
  keeps _ _ _ h := h
  new _ _ _ h := Or.inl h
  room q := by
    split_ifs with hq
    · rw [hq]
      omega
    · rfl
  result := Or.inl ⟨hroom, rfl⟩

theorem Kernel.installed_install {n : ℕ} (hsized : k.Sized) (hn : k.slot p n = some none) :
    k.Installed (k.install p n obj) p obj n where
  tables := rfl
  sized := hsized.install
  keeps q s obj' hs := ((Kernel.Grown.refl hsized).install hn).keeps hs
  new q s obj' hs := by
    by_cases hp : q = p
    · by_cases hne : s = n
      · rw [hp, hne, Kernel.slot_install_self hn] at hs
        exact Or.inr (Option.some.inj (Option.some.inj hs)).symm
      · rw [Kernel.slot_install_of_slot_ne hne] at hs
        exact Or.inl hs
    · rw [Kernel.slot_install_of_ne hp] at hs
      exact Or.inl hs
  room q := by
    have hroom := Kernel.room_install hn obj
    split_ifs with hq
    · rw [hq]
      omega
    · exact Kernel.room_install_of_ne hq
  result := by
    have hroom := Kernel.room_install hn obj
    exact Or.inr ⟨by omega, n, rfl, Kernel.slot_install_self hn⟩

theorem Kernel.slotAllocInstall_spec (hsized : k.Sized) (h0 : answer ≠ 0) (p : ℕ) (obj : Kobject) :
    ∃ r k', k.slotAllocInstall p answer obj = .ok (r, k') ∧ k.Installed k' p obj r := by
  unfold Kernel.slotAllocInstall
  rw [kassert_pos h0, ok_bind]
  rcases Core.slotAllocInstall_spec (k.process p) obj with ⟨hroom, hinstall⟩ | ⟨n, hn, hinstall⟩
  · simp only [hinstall, Function.update_eq_self]
    exact ⟨_, _, rfl, Kernel.installed_full hsized hroom⟩
  · simp only [hinstall]
    exact ⟨_, _, rfl, Kernel.installed_install hsized hn⟩

theorem slotCopy_installed (slot : ℕ) (hsized : k.Sized)
    (hobj : k.slot p (slot % 2 ^ 32) = some (some obj)) (dest : ℕ) :
    ∃ r k', slotCopy k p dest slot = .ok (r, k') ∧ k.Installed k' dest obj r := by
  rcases slotCopy_spec k p dest slot with ⟨hnone, -⟩ | ⟨obj', hobj', hcopy⟩
  · exact absurd ⟨obj, hobj⟩ hnone
  · obtain rfl := Option.some.inj (Option.some.inj (hobj'.symm.trans hobj))
    rcases hcopy with ⟨hroom, hcopy⟩ | ⟨n, hn, hcopy⟩
    · exact ⟨_, _, hcopy, Kernel.installed_full hsized hroom⟩
    · exact ⟨_, _, hcopy, Kernel.installed_install hsized hn⟩

theorem Kernel.Installed.getVmspace_eq {r : ℤ} (h : k.Installed k' p obj r)
    (hobj : ∀ v, obj ≠ .vmspace v) (q slot : ℕ) :
    getVmspace (k'.process q) slot = getVmspace (k.process q) slot := by
  have hget : ∀ {k : Kernel} {v}, getVmspace (k.process q) slot = some v ↔
      k.slot q (slot % 2 ^ 32) = some (some (.vmspace v)) := by
    intro k v
    rw [Kernel.slot, ← slotGet_eq_some, getVmspace]
    split
    · simp_all
    · simp_all
  ext v
  rw [hget, hget]
  constructor
  · intro hv
    exact (h.new _ _ _ hv).resolve_right fun heq => hobj v heq.symm
  · exact h.keeps _ _ _

/-! ## Slot tables and memory apart -/

theorem Kernel.slotAllocInstall_withTables (k k₀ : Kernel) (p answer : ℕ) (obj : Kobject) :
    (k.withTables k₀.process).slotAllocInstall p answer obj =
      (k₀.slotAllocInstall p answer obj).map fun y => (y.1, k.withTables y.2.process) := by
  unfold Kernel.slotAllocInstall
  cases kassert (answer ≠ 0) <;> rfl

theorem slotCopy_withTables (k k₀ : Kernel) (src dest slot : ℕ) :
    slotCopy (k.withTables k₀.process) src dest slot =
      (slotCopy k₀ src dest slot).map fun y => (y.1, k.withTables y.2.process) := by
  unfold slotCopy Kernel.withTables
  dsimp only
  cases slotGet (k₀.process src) slot <;> rfl

theorem Kernel.mapUser_process {v va len vmo : ℕ} (h : k.mapUser v answer va len vmo = .ok k') :
    k'.process = k.process := by
  obtain ⟨_, _, h⟩ := bind_eq_ok.mp h
  cases h
  rfl

theorem Kernel.slotAllocInstall_apart (hsized : k.Sized) (h0 : answer ≠ 0) (p : ℕ)
    (obj : Kobject) (hobj : ∀ v, obj ≠ .vmspace v) :
    ∃ r k', k.slotAllocInstall p answer obj = .ok (r, k') ∧ k'.Sized ∧
      (∀ q slot, getVmspace (k'.process q) slot = getVmspace (k.process q) slot) ∧
      ∀ km : Kernel, (km.withTables k.process).slotAllocInstall p answer obj =
        .ok (r, km.withTables k'.process) := by
  obtain ⟨r, k', hcall, hinst⟩ := Kernel.slotAllocInstall_spec hsized h0 p obj
  refine ⟨r, k', hcall, hinst.sized, hinst.getVmspace_eq hobj, fun km => ?_⟩
  rw [Kernel.slotAllocInstall_withTables, hcall]
  rfl

/-- The new connection. -/
def newConnection (a : Answers) (share : Share) (clientVmConfig : IpcVmConfig)
    (serverConnCap : ℤ) : IpcConnection where
  target := a.thread
  serverConnCap := (serverConnCap % 2 ^ 64).toNat
  serverStackTop := wrap64 (share.stackBase + share.stackSize)
  clientUserAddr := clientVmConfig.bufBaseAddr
  serverUserAddr := share.bufBase

/-- The state with a new connection. -/
def IpcState.connected (st : IpcState) (a : Answers) (target : ℕ) (tgt : IpcThread)
    (c : ServerIpcConfig) (clientVmConfig : IpcVmConfig) (thread : IpcThread) (k : Kernel)
    (serverConnCap : ℤ) : IpcState where
  kernel := k
  thread := Function.update (Function.update st.thread target
    (some { tgt with serverIpcConfig := some (c.taken c.nextIdx) })) a.thread (some thread)
  conn := Function.update st.conn a.conn
    (some (newConnection a (c.share target c.nextIdx) clientVmConfig serverConnCap))
  made := c.share target c.nextIdx :: st.made

theorem IpcState.connected_conn (st : IpcState) (a : Answers) (target : ℕ) (tgt : IpcThread)
    (c : ServerIpcConfig) (cfg : IpcVmConfig) (thread : IpcThread) (k : Kernel)
    (serverConnCap : ℤ) :
    (st.connected a target tgt c cfg thread k serverConnCap).conn a.conn =
      some (newConnection a (c.share target c.nextIdx) cfg serverConnCap) :=
  Function.update_self _ _ _

variable {src tgt : IpcThread} {cfg : IpcVmConfig} {c : ServerIpcConfig} {target : ℕ}

/-- **`create_connection` in two parts**: what it does to memory and what it does to the slot
tables do not depend on each other. -/
theorem createConnection_eq {st : IpcState} {source : ℕ} (hsized : st.kernel.Sized)
    (hsrc : st.thread source = some src) (htgt : st.thread target = some tgt)
    (hc : tgt.serverIpcConfig = some c) :
    createConnection st a source target cfg =
      (connectionMemory st.kernel a src tgt c target cfg).bind fun y =>
        (connectionSlots st.kernel a src.process tgt.process).map fun z =>
          (z.1, { cfg with bufSize := min c.vmConfig.bufSize cfg.bufSize },
            st.connected a target tgt c cfg y.1 (y.2.withTables z.2.2.process) z.2.1) := by
  unfold createConnection connectionMemory connectionSlots
  rw [hsrc, htgt]
  dsimp only
  rw [hc]
  dsimp only
  obtain ⟨share, hshare⟩ : ∃ share, share = c.share target c.nextIdx := ⟨_, rfl⟩
  rw [← hshare]
  by_cases hstack : a.stackVmo = 0
  · rw [hstack]
    rfl
  -- the stack
  obtain ⟨r₁, k₁, hcall₁, hsized₁, hspace₁, happart₁⟩ :=
    Kernel.slotAllocInstall_apart hsized hstack tgt.process (.vmobject a.stackVmo) (by simp)
  generalize hm₁ : st.kernel.vmoCreate a.stackVmo a.stackData share.stackSize = m₁
  have hprocess₁ : m₁.process = st.kernel.process := by rw [← hm₁]; rfl
  have hstep₁ := happart₁ m₁
  rw [← hprocess₁, show m₁.withTables m₁.process = m₁ from rfl] at hstep₁
  rw [hcall₁, hstep₁, kassert_pos hstack]
  simp only [ok_bind, Kernel.mapUser_withTables]
  cases hmap₁ : m₁.mapUser tgt.vmspace a.stackVmr share.stackBase share.stackSize a.stackVmo with
  | error e => rfl
  | ok m₂ =>
    simp only [Except.map, ok_bind]
    by_cases hbuf : a.bufVmo = 0
    · rw [hbuf]
      rfl
    -- the buffer
    obtain ⟨r₂, k₂, hcall₂, hsized₂, hspace₂, happart₂⟩ :=
      Kernel.slotAllocInstall_apart hsized₁ hbuf src.process (.vmobject a.bufVmo) (by simp)
    obtain ⟨r₃, k₃, hcall₃, hsized₃, hspace₃, happart₃⟩ :=
      Kernel.slotAllocInstall_apart hsized₂ hbuf tgt.process (.vmobject a.bufVmo) (by simp)
    rw [kassert_pos hbuf, hcall₂]
    simp only [ok_bind, Kernel.vmoCreate_withTables, happart₂, happart₃, hcall₃]
    have hprocess₂ : m₂.process = st.kernel.process :=
      (Kernel.mapUser_process hmap₁).trans hprocess₁
    generalize hm₃ : m₂.vmoCreate a.bufVmo a.bufData (min share.bufSize cfg.bufSize) = m₃
    have hprocess₃ : m₃.process = st.kernel.process := by rw [← hm₃]; exact hprocess₂
    simp only [Kernel.mapUser_withTables]
    cases hmap₂ : m₃.mapUser src.vmspace a.clientVmr cfg.bufBaseAddr
        (min share.bufSize cfg.bufSize) a.bufVmo with
    | error e => rfl
    | ok m₄ =>
      simp only [Except.map, ok_bind, Kernel.mapUser_withTables]
      cases hmap₃ : m₄.mapUser tgt.vmspace a.serverVmr share.bufBase
          (min share.bufSize cfg.bufSize) a.bufVmo with
      | error e => rfl
      | ok m₅ =>
        simp only [ok_bind]
        by_cases hconn : a.conn = 0
        · rw [hconn]
          rfl
        -- the connection
        obtain ⟨r₄, k₄, hcall₄, -, -, happart₄⟩ := Kernel.slotAllocInstall_apart hsized₃ hconn
          src.process (.connection a.conn) (by simp)
        have hprocess₅ : m₅.process = st.kernel.process :=
          (Kernel.mapUser_process hmap₃).trans ((Kernel.mapUser_process hmap₂).trans hprocess₃)
        have hspace : getVmspace (k₃.process tgt.process) vmspaceObjId =
            getVmspace (m₅.process tgt.process) vmspaceObjId := by
          rw [hspace₃, hspace₂, hspace₁, hprocess₅]
        rw [access_pos hconn, hcall₄]
        simp only [ok_bind, createServerThread_withTables m₅ k₃.process tgt c hspace]
        cases createServerThread m₅ a tgt c with
        | error e => rfl
        | ok y =>
          simp only [Except.map, ok_bind, happart₄, slotCopy_withTables]
          subst hshare
          cases slotCopy k₄ src.process tgt.process (r₄ % 2 ^ 32).toNat <;> rfl

/-! ## The installations -/

/-- There are free slots for all objects of a connection. -/
def Kernel.HasRoom (k : Kernel) (client server : ℕ) : Prop :=
  if client = server then 5 ≤ k.room client else 2 ≤ k.room client ∧ 3 ≤ k.room server

instance (k : Kernel) (client server : ℕ) : Decidable (k.HasRoom client server) :=
  inferInstanceAs (Decidable (if client = server then _ else _))

/-- **The outcomes of the installations.**  With free slots for all objects, the connection is in
both tables.  Otherwise either there is no slot for it in the table of the client, and the copy
fails an assertion; or there is none in the table of the server, and the call goes on. -/
theorem connectionSlots_spec (hsized : k.Sized) (hstack : a.stackVmo ≠ 0) (hbuf : a.bufVmo ≠ 0)
    (hconn : a.conn ≠ 0) (client server : ℕ) :
    (k.HasRoom client server ∧ ∃ (n n' : ℕ) (k' : Kernel),
      connectionSlots k a client server = .ok ((n : ℤ), (n' : ℤ), k') ∧ k'.Sized ∧
      k'.slot client n = some (some (.connection a.conn)) ∧
      k'.slot server n' = some (some (.connection a.conn))) ∨
    (¬ k.HasRoom client server ∧
      (connectionSlots k a client server = .error .panic ∨ ∃ (n : ℕ) (k' : Kernel),
        connectionSlots k a client server = .ok ((n : ℤ), -1, k') ∧ k'.Sized)) := by
  obtain ⟨r₁, k₁, hcall₁, h₁⟩ := Kernel.slotAllocInstall_spec hsized hstack server
    (.vmobject a.stackVmo)
  obtain ⟨r₂, k₂, hcall₂, h₂⟩ := Kernel.slotAllocInstall_spec h₁.sized hbuf client
    (.vmobject a.bufVmo)
  obtain ⟨r₃, k₃, hcall₃, h₃⟩ := Kernel.slotAllocInstall_spec h₂.sized hbuf server
    (.vmobject a.bufVmo)
  obtain ⟨r₄, k₄, hcall₄, h₄⟩ := Kernel.slotAllocInstall_spec h₃.sized hconn client
    (.connection a.conn)
  -- the free slots that are left for the connection
  have hclient : k₃.room client =
      if client = server then k.room client - 3 else k.room client - 1 := by
    rw [h₃.room, h₂.room, h₁.room]
    split_ifs <;> omega
  have hserver : k₄.room server =
      if client = server then k.room client - 4 else k.room server - 2 := by
    rw [h₄.room, h₃.room, h₂.room, h₁.room]
    by_cases hcs : client = server
    · subst hcs
      simp only [if_true]
      omega
    · rw [if_neg hcs, if_neg (Ne.symm hcs), if_pos rfl, if_neg (Ne.symm hcs), if_pos rfl]
      omega
  have hslots : connectionSlots k a client server =
      (slotCopy k₄ client server (r₄ % 2 ^ 32).toNat).map fun y => (r₄, y.1, y.2) := by
    unfold connectionSlots
    simp only [hcall₁, hcall₂, hcall₃, hcall₄, ok_bind]
    cases slotCopy k₄ client server (r₄ % 2 ^ 32).toNat <;> rfl
  rw [hslots]
  rcases h₄.result with ⟨hroom, rfl⟩ | ⟨hroom, n, rfl, hn⟩
  · refine Or.inr ⟨?_, Or.inl ?_⟩
    · rw [hclient] at hroom
      unfold Kernel.HasRoom
      split_ifs at hroom ⊢ <;> omega
    · rcases slotCopy_spec k₄ client server (-1 % 2 ^ 32 : ℤ).toNat with
        ⟨-, hpanic⟩ | ⟨obj, hobj, -⟩
      · rw [hpanic]
        rfl
      · exact absurd (h₄.sized.lt hobj) (by decide)
  · have hlt := h₄.sized.lt hn
    have hslot : ((n : ℤ) % 2 ^ 32).toNat = n := by
      unfold maxSlotsSize at hlt
      omega
    have hmod : n % 2 ^ 32 = n := Nat.mod_eq_of_lt (hlt.trans (by decide))
    rw [hslot]
    obtain ⟨r₅, k₅, hcopy, h₅⟩ := slotCopy_installed n h₄.sized (by rw [hmod, hn]) server
    rw [hcopy]
    rcases h₅.result with ⟨hroom', rfl⟩ | ⟨hroom', n', rfl, hn'⟩
    · refine Or.inr ⟨?_, Or.inr ⟨n, k₅, rfl, h₅.sized⟩⟩
      rw [hserver] at hroom'
      unfold Kernel.HasRoom
      split_ifs at hroom' ⊢ <;> omega
    · refine Or.inl ⟨?_, n, n', k₅, rfl, h₅.sized, h₅.keeps _ _ _ hn, hn'⟩
      rw [hclient] at hroom
      rw [hserver] at hroom'
      unfold Kernel.HasRoom
      split_ifs at hroom hroom' ⊢ <;> omega

/-! ## Clean connections -/

/-- `conn_bmp` of a server thread. -/
def IpcState.connBmp (st : IpcState) (t : ℕ) : Option ℕ :=
  (st.thread t).bind fun th => th.serverIpcConfig.map ServerIpcConfig.connBmp

/-- **A connection is made cleanly**: the call returns, and either its result is a slot of the
client that holds the connection, which is also in the slot `server_conn_cap` of the server, or it
is negative, and the slot tables and the bitmap are as before. -/
def IpcState.ConnectsCleanly (st : IpcState) (a : Answers) (source target : ℕ)
    (cfg : IpcVmConfig) : Prop :=
  ∃ src tgt connCap cfg' st', st.thread source = some src ∧ st.thread target = some tgt ∧
    createConnection st a source target cfg = .ok (connCap, cfg', st') ∧
    ((0 ≤ connCap ∧
      slotGet (st'.kernel.process src.process) connCap.toNat = some (.connection a.conn) ∧
      ∃ conn, st'.conn a.conn = some conn ∧
        slotGet (st'.kernel.process tgt.process) conn.serverConnCap =
          some (.connection a.conn)) ∨
    (connCap < 0 ∧ st'.kernel.process src.process = st.kernel.process src.process ∧
      st'.kernel.process tgt.process = st.kernel.process tgt.process ∧
      st'.connBmp target = st.connBmp target))

/-- Memory for a connection can be allocated and mapped. -/
def IpcState.HasMemory (st : IpcState) (a : Answers) (src tgt : IpcThread) (target : ℕ)
    (cfg : IpcVmConfig) : Prop :=
  ∃ c, tgt.serverIpcConfig = some c ∧
    (connectionMemory st.kernel a src tgt c target cfg).toOption.isSome

theorem connectionMemory_answers {y : IpcThread × Kernel}
    (h : connectionMemory k a src tgt c target cfg = .ok y) :
    a.stackVmo ≠ 0 ∧ a.bufVmo ≠ 0 ∧ a.conn ≠ 0 := by
  obtain ⟨_, hstack, h⟩ := bind_eq_ok.mp h
  obtain ⟨_, -, h⟩ := bind_eq_ok.mp h
  obtain ⟨_, hbuf, h⟩ := bind_eq_ok.mp h
  obtain ⟨_, -, h⟩ := bind_eq_ok.mp h
  obtain ⟨_, -, h⟩ := bind_eq_ok.mp h
  obtain ⟨_, hconn, -⟩ := bind_eq_ok.mp h
  exact ⟨kassert_eq_ok.mp hstack, kassert_eq_ok.mp hbuf, access_eq_ok.mp hconn⟩

section

variable {st st₀ : IpcState} {source target : ℕ} {src tgt : IpcThread} {c : ServerIpcConfig}
  {cfg : IpcVmConfig} {x : ℤ × IpcVmConfig × IpcState}

theorem createConnection_threads (h : createConnection st a source target cfg = .ok x) :
    ∃ src tgt c, st.thread source = some src ∧ st.thread target = some tgt ∧
      tgt.serverIpcConfig = some c := by
  obtain ⟨connCap, cfg', st'⟩ := x
  obtain ⟨tgt, c, -, htgt, hc, -⟩ := createConnection_ok h
  cases hsrc : st.thread source with
  | none =>
    unfold createConnection at h
    rw [hsrc] at h
    cases h
  | some src => exact ⟨src, tgt, c, rfl, htgt, hc⟩

theorem createConnection_inv (hsized : st.kernel.Sized) (hsrc : st.thread source = some src)
    (htgt : st.thread target = some tgt) (hc : tgt.serverIpcConfig = some c)
    (h : createConnection st a source target cfg = .ok x) :
    ∃ y z, connectionMemory st.kernel a src tgt c target cfg = .ok y ∧
      connectionSlots st.kernel a src.process tgt.process = .ok z ∧ x.1 = z.1 ∧
      x.2.2 = st.connected a target tgt c cfg y.1 (y.2.withTables z.2.2.process) z.2.1 := by
  rw [createConnection_eq hsized hsrc htgt hc] at h
  obtain ⟨y, hmemory, h⟩ := bind_eq_ok.mp h
  obtain ⟨z, hslots, rfl⟩ := map_eq_ok.mp h
  exact ⟨y, z, hmemory, hslots, rfl, rfl⟩

theorem createConnection_sized (hsized : st.kernel.Sized)
    (h : createConnection st a source target cfg = .ok x) : x.2.2.kernel.Sized := by
  obtain ⟨src, tgt, c, hsrc, htgt, hc⟩ := createConnection_threads h
  obtain ⟨y, z, hmemory, hslots, -, hst⟩ := createConnection_inv hsized hsrc htgt hc h
  obtain ⟨hstack, hbuf, hconn⟩ := connectionMemory_answers hmemory
  rw [hst]
  show z.2.2.Sized
  rcases connectionSlots_spec hsized hstack hbuf hconn src.process tgt.process with
    ⟨-, n, n', k', hcall, hk', -⟩ | ⟨-, hpanic | ⟨n, k', hcall, hk'⟩⟩
  · obtain rfl := Except.ok.inj (hcall.symm.trans hslots)
    exact hk'
  · cases hpanic.symm.trans hslots
  · obtain rfl := Except.ok.inj (hcall.symm.trans hslots)
    exact hk'

theorem IpcState.connectsCleanly_iff (hsized : st.kernel.Sized) :
    st.ConnectsCleanly a source target cfg ↔
      ∃ src tgt, st.thread source = some src ∧ st.thread target = some tgt ∧
        st.HasMemory a src tgt target cfg ∧ st.kernel.HasRoom src.process tgt.process := by
  constructor
  · rintro ⟨src, tgt, connCap, cfg', st', hsrc, htgt, hcall, hclean⟩
    obtain ⟨_, _, c, -, htgt', hc⟩ := createConnection_threads hcall
    obtain rfl := Option.some.inj (htgt'.symm.trans htgt)
    obtain ⟨y, z, hmemory, hslots, hcap, hst⟩ := createConnection_inv hsized hsrc htgt hc hcall
    obtain ⟨hstack, hbuf, hconn⟩ := connectionMemory_answers hmemory
    refine ⟨src, _, hsrc, htgt, ⟨c, hc, by rw [hmemory]; rfl⟩, ?_⟩
    rcases connectionSlots_spec hsized hstack hbuf hconn src.process _ with
      ⟨hroom, -⟩ | ⟨-, hpanic | ⟨n, k', hcall', hk'⟩⟩
    · exact hroom
    · cases hpanic.symm.trans hslots
    -- the server has no slot for the connection, and the call does not say so
    · obtain rfl := Except.ok.inj (hcall'.symm.trans hslots)
      dsimp only at hcap hst
      subst hcap hst
      rcases hclean with ⟨-, -, conn, hget, hserver⟩ | ⟨hneg, -⟩
      · rw [IpcState.connected_conn] at hget
        cases hget
        have hlt := hk'.lt (slotGet_eq_some.mp hserver)
        exact absurd hlt (show ¬ ((-1 : ℤ) % 2 ^ 64).toNat % 2 ^ 32 < maxSlotsSize by decide)
      · omega
  · rintro ⟨src, tgt, hsrc, htgt, ⟨c, hc, hmemory⟩, hroom⟩
    cases hmem : connectionMemory st.kernel a src tgt c target cfg with
    | error e =>
      rw [hmem] at hmemory
      cases hmemory
    | ok y =>
      obtain ⟨hstack, hbuf, hconn⟩ := connectionMemory_answers hmem
      rcases connectionSlots_spec hsized hstack hbuf hconn src.process tgt.process with
        ⟨-, n, n', k', hslots, hk', hclient, hserver⟩ | ⟨hnot, -⟩
      · have hcall : createConnection st a source target cfg =
            .ok ((n : ℤ), { cfg with bufSize := min c.vmConfig.bufSize cfg.bufSize },
              st.connected a target tgt c cfg y.1 (y.2.withTables k'.process) n') := by
          rw [createConnection_eq hsized hsrc htgt hc, hmem, hslots]
          rfl
        refine ⟨src, tgt, n, _, _, hsrc, htgt, hcall, Or.inl ⟨Int.natCast_nonneg n, ?_, _,
          IpcState.connected_conn _ _ _ _ _ _ _ _ _, ?_⟩⟩
        · refine slotGet_eq_some.mpr ?_
          rw [Int.toNat_natCast, Nat.mod_eq_of_lt ((hk'.lt hclient).trans (by decide))]
          exact hclient
        · refine slotGet_eq_some.mpr ?_
          have hlt := hk'.lt hserver
          have hcap : ((n' : ℤ) % 2 ^ 64).toNat % 2 ^ 32 = n' := by
            unfold maxSlotsSize at hlt
            omega
          show k'.slot tgt.process (((n' : ℤ) % 2 ^ 64).toNat % 2 ^ 32) = _
          rw [hcap]
          exact hserver
      · exact absurd hroom hnot

/-- The runs from any state. -/
def registerRuns (st₀ : IpcState) : Lts.System IpcState IpcCall Fault where
  init st := st = st₀
  step := IpcState.step

theorem registerRuns_sized (hsized : st₀.kernel.Sized) (hr : (registerRuns st₀).Reachable st) :
    st.kernel.Sized := by
  refine hr.invariant (I := fun st => st.kernel.Sized) ?_ ?_
  · rintro st rfl
    exact hsized
  · intro st call st' hst _ hstep
    cases call with
    | registerServer server callback maxClient vmConfig =>
      have hcall : registerServer st server callback maxClient vmConfig = .ok st' := hstep
      unfold registerServer at hcall
      cases hth : st.thread server with
      | none =>
        rw [hth] at hcall
        cases hcall
      | some th =>
        rw [hth] at hcall
        cases hcall
        exact hst
    | registerClient a client serverCap vmConfig =>
      obtain ⟨x, hcall, rfl⟩ := map_eq_ok.mp hstep
      unfold sysRegisterClient at hcall
      cases hserver : st.serverOf client serverCap with
      | none =>
        rw [hserver] at hcall
        cases hcall
      | some server =>
        rw [hserver] at hcall
        exact createConnection_sized hst hcall
    | registerClientByName a client server vmConfig =>
      obtain ⟨x, hcall, rfl⟩ := map_eq_ok.mp hstep
      cases server with
      | none =>
        cases hcall
        exact hst
      | some server => exact createConnection_sized hst hcall

end

/-- Thread `1` of process `0`, a server, and thread `2` of process `1`, with tables that have some
free slots. -/
def withFreeSlots (client server : ℕ) : IpcState where
  kernel := { twoProcesses.kernel with
    process := fun p =>
      let free := if p = 0 then server else client
      ⟨[some (.process p), some (.vmspace p)] ++ List.replicate (62 - free) (some (.timer 0)) ++
        List.replicate free none⟩ }
  thread := fun t =>
    if t = 1 then some ⟨0, 0, some ⟨0x8000, 32, 0, serverConfig⟩⟩
    else if t = 2 then some ⟨1, 1, none⟩ else none
  conn := fun _ => none
  made := []

theorem withFreeSlots_sized {client server : ℕ} (hclient : client ≤ 62) (hserver : server ≤ 62) :
    (withFreeSlots client server).kernel.Sized := by
  intro p
  have hlength : ∀ free ≤ 62, ([some (Kobject.process p), some (.vmspace p)] ++
      List.replicate (62 - free) (some (Kobject.timer 0)) ++
        List.replicate free none).length = 64 := by
    intro free hfree
    simp only [List.length_append, List.length_replicate, List.length_cons, List.length_nil]
    omega
  refine hlength (if p = 0 then server else client) ?_
  split_ifs <;> assumption

end Ginkgo.Core
