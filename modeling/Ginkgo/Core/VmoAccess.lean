import Ginkgo.Core.Vmo
import Ginkgo.Mm.HeapRun

/-!
# Access to memory objects

The model of `sys_vmo_create`, `sys_vmo_read` and `sys_vmo_write`.  A memory object of type
`VMO_DATA` has its memory from `malloc`; a process that holds the object in a slot copies between
that memory and its own.  The heap is the one of `Ginkgo.Mm`, and other parts of the kernel use it
between the calls.

## Main results

* `Ginkgo.Core.VmoState.Inv.step` — every step keeps the invariant if the heap serves the request.
* `Ginkgo.Core.vmoRuns_confined` — accesses are confined in every such run.
-/

open Function (update update_self update_of_ne)
open Fallible (bind_eq_ok ok_bind map_eq_ok)

namespace Ginkgo.Mm


/-- `malloc`, with the record of the allocations. -/
def HeapState.alloc (h : HeapState) (size : ℕ) : Except Fault (Option ℕ × HeapState) := do
  let (ptr, heap) ← malloc h.heap size
  match ptr with
  | none => return (none, { h with heap := heap })
  | some ptr => return (some ptr, { heap := heap, live := (ptr, size) :: h.live })

end Ginkgo.Mm

namespace Ginkgo.Core

open Arch Mm

/-- A copy between the memory of an object and the memory of a process. -/
structure Transfer where
  /-- The copy goes to the memory of the object. -/
  write : Bool
  kernelBuf : ℕ
  userBuf : ℕ
  size : ℕ
deriving DecidableEq, Repr

/-- The heap, the memory objects and the processes by their addresses, and the copies that have
been made, with the objects. -/
structure VmoState where
  heap : HeapState
  vmo : ℕ → Option Vmobject
  process : ℕ → Process
  log : List (ℕ × Transfer)

/-! ## The functions -/

/-- The `full_size` of `vmobject_t`: three headers, `kobject_t` and the object itself. -/
def vmobjectFullSize : ℕ := 8 + (4 + 8) + (32 + 8)

/-- The offset of the object in its block, `full_size - size`. -/
def vmobjectOffset : ℕ := vmobjectFullSize - 32

/-- `sizeof(struct radix)`. -/
def sizeofRadix : ℕ := 16

/-- `new(vmobject_t)`. -/
def newVmobject (h : HeapState) : Except Fault (Option ℕ × HeapState) := do
  let (base, h) ← h.alloc vmobjectFullSize
  return (base.map (· + vmobjectOffset), h)

/-- `delete(vmo)`; the class has no destructor. -/
def deleteVmobject (h : HeapState) (vmo : ℕ) : Except Fault HeapState :=
  h.step (.free (vmo - vmobjectOffset))

/-- `vmo_init`. -/
def vmoInit (h : HeapState) (type : VmoType) (len paddr : ℕ) :
    Except Fault (Vmobject × HeapState) :=
  let len := pgRoundUp len
  match type with
  | .data => do
    let (start, h) ← h.alloc len
    return (⟨start.getD 0, len, .data⟩, h)
  | .device => return (⟨paddr, len, .device⟩, h)
  | type => do
    let (radix, h) ← h.alloc sizeofRadix
    kassert (radix ≠ none)
    return (⟨0, len, type⟩, h)

/-- `sys_vmo_create` by a thread of the process `caller`. -/
def sysVmoCreate (st : VmoState) (caller size : ℕ) (type : VmoType) :
    Except Fault (ℤ × VmoState) := do
  let (vmo, heap) ← newVmobject st.heap
  match vmo with
  | none => return (-1, { st with heap := heap })
  | some vmo =>
    let (obj, heap) ← vmoInit heap type size 0
    let (slot, process) := slotAllocInstall (st.process caller) (.vmobject vmo)
    if slot = -1 then
      let heap ← deleteVmobject heap vmo
      return (-1, { st with heap := heap })
    else
      return (slot, { st with
        heap := heap
        vmo := update st.vmo vmo (some obj)
        process := update st.process caller process })

/-- `copy_from_user` and `copy_to_user` for the object `o`. -/
def VmoState.copied (st : VmoState) (o : ℕ) (t : Transfer) : VmoState :=
  { st with log := (o, t) :: st.log }

/-- `WRITE_PMO`. -/
def writePmo : ℕ := 0

/-- `READ_PMO`. -/
def readPmo : ℕ := 1

/-- `read_write_vmo`; `phys_to_virt` is the identity. -/
def readWriteVmo (st : VmoState) (caller slot offset userBuf size type : ℕ) :
    Except Fault (ℤ × VmoState) :=
  match getVmobject (st.process caller) slot with
  | none => .ok (-1, st)
  | some o =>
    match st.vmo o with
    | none => .error .badAccess
    | some vmo =>
      if vmo.type ≠ .data then .ok (-1, st)
      else if wrap64 (offset + size) < offset ∨ vmo.size < wrap64 (offset + size) then .ok (-1, st)
      else if type = writePmo then
        .ok (0, st.copied o ⟨true, wrap64 (vmo.start + offset), userBuf, size⟩)
      else if type = readPmo then
        .ok (0, st.copied o ⟨false, wrap64 (vmo.start + offset), userBuf, size⟩)
      else .error .panic

/-- `sys_vmo_write`. -/
def sysVmoWrite (st : VmoState) (caller slot offset userPtr len : ℕ) :
    Except Fault (ℤ × VmoState) :=
  readWriteVmo st caller slot offset userPtr len writePmo

/-- `sys_vmo_read`. -/
def sysVmoRead (st : VmoState) (caller slot offset userPtr len : ℕ) :
    Except Fault (ℤ × VmoState) :=
  readWriteVmo st caller slot offset userPtr len readPmo

/-! ## The transition system -/

/-- A call of a process, or a use of the heap by another part of the kernel. -/
inductive VmoCall
  | create (caller size : ℕ) (type : VmoType)
  | write (caller slot offset userPtr len : ℕ)
  | read (caller slot offset userPtr len : ℕ)
  | other (call : HeapCall)

/-- The effect of a call. -/
def VmoState.step (st : VmoState) : VmoCall → Except Fault VmoState
  | .create caller size type => (sysVmoCreate st caller size type).map Prod.snd
  | .write caller slot offset userPtr len =>
    (sysVmoWrite st caller slot offset userPtr len).map Prod.snd
  | .read caller slot offset userPtr len =>
    (sysVmoRead st caller slot offset userPtr len).map Prod.snd
  | .other call => (st.heap.step call).map fun heap => { st with heap := heap }

/-- The runs on a heap in the region `R`, which other parts of the kernel have used already. -/
def vmoRuns (R : Region) (old : ℕ → Page) : Lts.System VmoState VmoCall Fault where
  init st := (heapRuns R old).ReachableVia HeapState.Legal st.heap ∧ st.vmo = (fun _ => none) ∧
    (∀ p o, some (.vmobject o) ∉ (st.process p).slots) ∧ st.log = []
  step := VmoState.step

/-- The object has memory of its own. -/
def Vmobject.Data (v : Vmobject) : Prop := v.type = .data ∧ v.size ≠ 0

/-- **Objects are accessed within blocks of their own**, and what is outside is refused. -/
structure VmoState.Confined (st : VmoState) : Prop where
  inside : ∀ e ∈ st.log, 0 < e.2.size → ∃ v, st.vmo e.1 = some v ∧
    (v.start, v.size) ∈ st.heap.live ∧
    v.start ≤ e.2.kernelBuf ∧ e.2.kernelBuf + e.2.size ≤ v.start + v.size
  apart : ∀ o o' v v', st.vmo o = some v → st.vmo o' = some v' → v.Data → v'.Data → o ≠ o' →
    Apart v.start v.size v'.start v'.size
  refuses : ∀ caller slot offset userBuf size type o v, offset < 2 ^ 64 → size < 2 ^ 64 →
    getVmobject (st.process caller) slot = some o → st.vmo o = some v →
    v.size < offset + size → readWriteVmo st caller slot offset userBuf size type = .ok (-1, st)
  returns : ∀ caller slot offset userBuf size type, type = writePmo ∨ type = readPmo →
    ∃ r st', readWriteVmo st caller slot offset userBuf size type = .ok (r, st')

/-- After the object itself, the heap has memory for its data. -/
def HasMemory (h : HeapState) (len : ℕ) : Prop :=
  match newVmobject h with
  | .ok (some _, h) =>
    match h.alloc len with
    | .ok (some _, _) => True
    | _ => False
  | _ => True

instance (h : HeapState) (len : ℕ) : Decidable (HasMemory h len) := by
  unfold HasMemory
  split
  · split <;> infer_instance
  · infer_instance

/-- The heap has memory for the data of a new object, which is not larger than the largest block.
The arguments are words, and the other parts of the kernel leave the blocks of the objects. -/
def VmoState.Served (st : VmoState) : VmoCall → Prop
  | .create _ size type => type = .data → pgRoundUp size ≤ 2 ^ maxOrder * pageSize ∧
    (pgRoundUp size ≠ 0 → HasMemory st.heap (pgRoundUp size))
  | .write _ _ offset _ len => offset < 2 ^ 64 ∧ len < 2 ^ 64
  | .read _ _ offset _ len => offset < 2 ^ 64 ∧ len < 2 ^ 64
  | .other call => st.heap.Legal call ∧ ∀ ptr, call = .free ptr → ∀ o v, st.vmo o = some v →
    o ≠ ptr + vmobjectOffset ∧ (v.Data → v.start ≠ ptr)

/-! ## The heap -/

section

variable {R : Region} {old : ℕ → Page} {start n : ℕ} {h h' : HeapState} {size : ℕ}

theorem alloc_spec (hlayout : buddyLayout R.mem R.size = .ok (start, n))
    (hn : n < 2 ^ (maxOrder + 1)) (hr : (heapRuns R old).ReachableVia HeapState.Legal h)
    (h0 : 1 ≤ size) (hle : size ≤ 2 ^ maxOrder * pageSize) :
    ∃ ptr h', h.alloc size = .ok (ptr, h') ∧
      (heapRuns R old).ReachableVia HeapState.Legal h' ∧
      ((ptr = none ∧ h' = h) ∨ ∃ x, ptr = some x ∧ h'.live = (x, size) :: h.live ∧
        ∀ e ∈ h.live, e.1 ≠ x) := by
  have hlegal : h.Legal (.malloc size) := ⟨h0, hle⟩
  cases malloc_spec (HeapInv.of_reachable hlayout hn hr) h0 hle with
  | inl hnone =>
    refine ⟨none, h, ?_, hr, Or.inl ⟨rfl, rfl⟩⟩
    rw [HeapState.alloc, hnone.1]
    rfl
  | inr hsome =>
    obtain ⟨c, x, hsome, hinv, -⟩ := hsome
    refine ⟨some x, ⟨c, (x, size) :: h.live⟩, ?_, ?_, Or.inr ⟨x, rfl, rfl, fun e he => ?_⟩⟩
    · rw [HeapState.alloc, hsome]
      rfl
    · refine .step (.malloc size) hr hlegal ?_
      show h.step (.malloc size) = _
      rw [HeapState.step, hsome]
      rfl
    · rintro rfl
      exact (List.nodup_cons.mp hinv.distinct).1 (List.mem_map.mpr ⟨e, he, rfl⟩)

theorem alloc_zero (h : HeapState) : h.alloc 0 = .ok (none, h) := rfl

theorem pgRoundUp_mod (sz : ℕ) : pgRoundUp sz % 4096 = 0 := by
  rw [pgRoundUp, show pgSize - 1 = 2 ^ 12 - 1 from rfl, and_not64 (wrap64_lt _) (by decide)]
  exact Nat.mul_mod_right _ _

theorem release_spec (hlayout : buddyLayout R.mem R.size = .ok (start, n))
    (hn : n < 2 ^ (maxOrder + 1)) (hr : (heapRuns R old).ReachableVia HeapState.Legal h)
    {e : ℕ × ℕ} (he : e ∈ h.live) :
    ∃ h', h.step (.free e.1) = .ok h' ∧ (heapRuns R old).ReachableVia HeapState.Legal h' ∧
      ∀ d ∈ h.live, d.1 ≠ e.1 → d ∈ h'.live := by
  obtain ⟨c, hc, _⟩ := free_spec (HeapInv.of_reachable hlayout hn hr) he
  have hstep : h.step (.free e.1) = .ok ⟨c, h.live.filter fun d => d.1 ≠ e.1⟩ := by
    rw [HeapState.step, hc]
    rfl
  refine ⟨_, hstep, .step (.free e.1) hr ⟨e, he, rfl⟩ hstep, fun d hd hne => ?_⟩
  exact List.mem_filter.mpr ⟨hd, decide_eq_true hne⟩

end

/-! ## The invariant -/

/-- The heap is that of a run.  Every object, and its data, is an allocation of its own; slots hold
objects that exist, and the copies are in the data. -/
structure VmoState.Inv (R : Region) (old : ℕ → Page) (st : VmoState) : Prop where
  heap : (heapRuns R old).ReachableVia HeapState.Legal st.heap
  object : ∀ o v, st.vmo o = some v →
    ∃ base, o = base + vmobjectOffset ∧ (base, vmobjectFullSize) ∈ st.heap.live
  data : ∀ o v, st.vmo o = some v → v.Data →
    (v.start, v.size) ∈ st.heap.live ∧ v.size % 4096 = 0
  distinct : ∀ o o' v v', st.vmo o = some v → st.vmo o' = some v' → v.Data → v'.Data → o ≠ o' →
    v.start ≠ v'.start
  slots : ∀ p o, some (.vmobject o) ∈ (st.process p).slots → ∃ v, st.vmo o = some v
  log : ∀ e ∈ st.log, 0 < e.2.size → ∃ v, st.vmo e.1 = some v ∧ v.Data ∧
    v.start ≤ e.2.kernelBuf ∧ e.2.kernelBuf + e.2.size ≤ v.start + v.size

variable {h' : HeapState} {process : Process} {v : Vmobject}
  {caller len paddr size offset userBuf : ℕ} {r : ℤ}

section

variable {R : Region} {old : ℕ → Page} {start n : ℕ} {st st' : VmoState} {h : HeapState}

theorem VmoState.Inv.withHeap (hinv : st.Inv R old)
    (hr : (heapRuns R old).ReachableVia HeapState.Legal h)
    (hlive : ∀ e ∈ st.heap.live,
      (∀ o v, st.vmo o = some v → o ≠ e.1 + vmobjectOffset ∧ (v.Data → v.start ≠ e.1)) ∨
        e ∈ h.live) :
    { st with heap := h }.Inv R old where
  heap := hr
  object o v hv := by
    obtain ⟨base, rfl, hmem⟩ := hinv.object o v hv
    refine ⟨base, rfl, (hlive _ hmem).resolve_left fun hother => ?_⟩
    exact (hother _ v hv).1 rfl
  data o v hv hdata := by
    obtain ⟨hmem, hmod⟩ := hinv.data o v hv hdata
    refine ⟨(hlive _ hmem).resolve_left fun hother => ?_, hmod⟩
    exact (hother _ v hv).2 hdata rfl
  distinct := hinv.distinct
  slots := hinv.slots
  log := hinv.log

theorem VmoState.Inv.install (hinv : st.Inv R old)
    (hr : (heapRuns R old).ReachableVia HeapState.Legal h) {base caller : ℕ} {v : Vmobject}
    {process : Process} (hnew : ∀ e ∈ st.heap.live, e.1 ≠ base)
    (hlive : ∀ e ∈ st.heap.live, e ∈ h.live) (hbase : (base, vmobjectFullSize) ∈ h.live)
    (hdata : v.Data → (v.start, v.size) ∈ h.live ∧ v.size % 4096 = 0 ∧
      ∀ e ∈ st.heap.live, e.1 ≠ v.start)
    (hslots : ∀ obj ∈ process.slots, obj ∈ (st.process caller).slots ∨
      obj = some (.vmobject (base + vmobjectOffset))) :
    ({ st with
      heap := h
      vmo := update st.vmo (base + vmobjectOffset) (some v)
      process := update st.process caller process } : VmoState).Inv R old := by
  have hfresh : st.vmo (base + vmobjectOffset) = none := by
    cases hv : st.vmo (base + vmobjectOffset) with
    | none => rfl
    | some w =>
      obtain ⟨base', heq, hmem⟩ := hinv.object _ w hv
      exact absurd (Nat.add_right_cancel heq).symm (hnew _ hmem)
  have hold : ∀ {o w}, o ≠ base + vmobjectOffset →
      update st.vmo (base + vmobjectOffset) (some v) o = some w → st.vmo o = some w := by
    intro o w hne hw
    rwa [update_of_ne hne] at hw
  have hself : ∀ {w}, update st.vmo (base + vmobjectOffset) (some v)
      (base + vmobjectOffset) = some w → v = w := by
    intro w hw
    rw [update_self] at hw
    exact Option.some.inj hw
  have hkeep : ∀ {o w}, st.vmo o = some w →
      update st.vmo (base + vmobjectOffset) (some v) o = some w := by
    intro o w hw
    rw [update_of_ne, hw]
    rintro rfl
    rw [hfresh] at hw
    cases hw
  refine ⟨hr, ?_, ?_, ?_, ?_, ?_⟩
  · intro o w hw
    by_cases ho : o = base + vmobjectOffset
    · exact ⟨base, ho, hbase⟩
    · obtain ⟨base', heq, hmem⟩ := hinv.object o w (hold ho hw)
      exact ⟨base', heq, hlive _ hmem⟩
  · intro o w hw hwd
    by_cases ho : o = base + vmobjectOffset
    · subst ho
      obtain rfl := hself hw
      exact ⟨(hdata hwd).1, (hdata hwd).2.1⟩
    · obtain ⟨hmem, hmod⟩ := hinv.data o w (hold ho hw) hwd
      exact ⟨hlive _ hmem, hmod⟩
  · intro o o' w w' hw hw' hwd hwd' hne
    by_cases ho : o = base + vmobjectOffset
    · subst ho
      obtain rfl := hself hw
      have hmem := (hinv.data o' w' (hold hne.symm hw') hwd').1
      exact fun heq => (hdata hwd).2.2 _ hmem heq.symm
    · by_cases ho' : o' = base + vmobjectOffset
      · subst ho'
        obtain rfl := hself hw'
        have hmem := (hinv.data o w (hold ho hw) hwd).1
        exact (hdata hwd').2.2 _ hmem
      · exact hinv.distinct o o' w w' (hold ho hw) (hold ho' hw') hwd hwd' hne
  · intro p o hmem
    dsimp only at hmem
    by_cases ho : o = base + vmobjectOffset
    · exact ⟨v, by rw [ho]; exact update_self _ _ _⟩
    · obtain ⟨w, hw⟩ : ∃ w, st.vmo o = some w := by
        by_cases hp : p = caller
        · subst hp
          rw [update_self] at hmem
          refine hinv.slots p o ((hslots _ hmem).resolve_right fun heq => ?_)
          cases heq
          exact ho rfl
        · rw [update_of_ne hp] at hmem
          exact hinv.slots p o hmem
      exact ⟨w, hkeep hw⟩
  · intro e he hpos
    obtain ⟨w, hw, hin⟩ := hinv.log e he hpos
    exact ⟨w, hkeep hw, hin⟩

/-! ## Steps -/

section

variable (hlayout : buddyLayout R.mem R.size = .ok (start, n)) (hn : n < 2 ^ (maxOrder + 1))
  (hr : (heapRuns R old).ReachableVia HeapState.Legal h)

include hlayout hn hr

theorem newVmobject_spec :
    ∃ vmo h', newVmobject h = .ok (vmo, h') ∧ (heapRuns R old).ReachableVia HeapState.Legal h' ∧
      ((vmo = none ∧ h' = h) ∨ ∃ base, vmo = some (base + vmobjectOffset) ∧
        h'.live = (base, vmobjectFullSize) :: h.live ∧ ∀ e ∈ h.live, e.1 ≠ base) := by
  obtain ⟨ptr, h', halloc, hr', hcases⟩ := alloc_spec hlayout hn hr
    (show 1 ≤ vmobjectFullSize by decide) (by decide)
  refine ⟨ptr.map (· + vmobjectOffset), h', ?_, hr', ?_⟩
  · rw [newVmobject, halloc]
    rfl
  · cases hcases with
    | inl hnone => exact Or.inl ⟨by rw [hnone.1]; rfl, hnone.2⟩
    | inr hsome =>
      obtain ⟨base, rfl, hlive, hfresh⟩ := hsome
      exact Or.inr ⟨base, rfl, hlive, hfresh⟩

theorem vmoInit_lazy {type : VmoType} (hdata : type ≠ .data) (hdevice : type ≠ .device)
    (hinit : vmoInit h type len paddr = .ok (v, h')) :
    (heapRuns R old).ReachableVia HeapState.Legal h' ∧ (∀ e ∈ h.live, e ∈ h'.live) ∧
      ¬ v.Data := by
  obtain ⟨ptr, h'', halloc, hr'', hcases⟩ := alloc_spec hlayout hn hr
    (show 1 ≤ sizeofRadix by decide) (by decide)
  unfold vmoInit at hinit
  dsimp only at hinit
  split at hinit
  next => exact absurd rfl hdata
  next => exact absurd rfl hdevice
  next =>
    rw [halloc, ok_bind] at hinit
    obtain ⟨_, _, hret⟩ := bind_eq_ok.mp hinit
    cases hret
    refine ⟨hr'', fun e he => ?_, fun hd => hdata hd.1⟩
    cases hcases with
    | inl hnone => rwa [hnone.2]
    | inr hsome =>
      obtain ⟨x, _, hlive, _⟩ := hsome
      rw [hlive]
      exact List.mem_cons_of_mem _ he

theorem vmoInit_spec {type : VmoType} {len paddr : ℕ} {v : Vmobject} {h' : HeapState}
    (hserved : type = .data → pgRoundUp len ≤ 2 ^ maxOrder * pageSize ∧
      (pgRoundUp len ≠ 0 → ∃ x h', h.alloc (pgRoundUp len) = .ok (some x, h')))
    (hinit : vmoInit h type len paddr = .ok (v, h')) :
    (heapRuns R old).ReachableVia HeapState.Legal h' ∧ (∀ e ∈ h.live, e ∈ h'.live) ∧
      (v.Data → (v.start, v.size) ∈ h'.live ∧ v.size % 4096 = 0 ∧
        ∀ e ∈ h.live, e.1 ≠ v.start) := by
  by_cases hdata : type = .data
  · subst hdata
    obtain ⟨hle, hsome⟩ := hserved rfl
    rw [vmoInit] at hinit
    dsimp only at hinit
    by_cases hzero : pgRoundUp len = 0
    · rw [hzero, alloc_zero, ok_bind] at hinit
      cases hinit
      exact ⟨hr, fun e he => he, fun hd => absurd rfl hd.2⟩
    · obtain ⟨x, h'', halloc⟩ := hsome hzero
      obtain ⟨ptr, h₁, halloc', hr', hcases⟩ := alloc_spec hlayout hn hr (by omega) hle
      obtain ⟨rfl, rfl⟩ := Prod.mk.inj (Except.ok.inj (halloc.symm.trans halloc'))
      rw [halloc, ok_bind] at hinit
      cases hinit
      obtain ⟨y, hy, hlive, hfresh⟩ := hcases.resolve_left fun hnone => by cases hnone.1
      cases hy
      rw [hlive]
      exact ⟨hr', fun e he => List.mem_cons_of_mem _ he,
        fun _ => ⟨List.mem_cons_self, pgRoundUp_mod len, hfresh⟩⟩
  · by_cases hdevice : type = .device
    · subst hdevice
      cases hinit
      exact ⟨hr, fun e he => he, fun hd => absurd hd.1 hdata⟩
    · obtain ⟨hr', hlive, hd⟩ := vmoInit_lazy hlayout hn hr hdata hdevice hinit
      exact ⟨hr', hlive, fun hvd => absurd hvd hd⟩

end

theorem mem_slotAllocInstall {obj : Kobject} {slot : Option Kobject}
    (hmem : slot ∈ (slotAllocInstall process obj).2.slots) :
    slot ∈ process.slots ∨ slot = some obj := by
  unfold slotAllocInstall at hmem
  dsimp only at hmem
  split_ifs at hmem
  · exact Or.inl hmem
  · exact List.mem_or_eq_of_mem_set hmem

theorem mem_slots_of_getVmobject {slot o : ℕ} (hget : getVmobject process slot = some o) :
    some (.vmobject o) ∈ process.slots := by
  unfold getVmobject at hget
  split at hget
  · rename_i hslot
    cases hget
    unfold slotGet at hslot
    split_ifs at hslot with hlt
    rw [List.getD_eq_getElem _ _ hlt] at hslot
    rw [← hslot]
    exact List.getElem_mem hlt
  · cases hget

theorem VmoState.Inv.create (hlayout : buddyLayout R.mem R.size = .ok (start, n))
    (hn : n < 2 ^ (maxOrder + 1)) (hinv : st.Inv R old) {type : VmoType}
    (hserved : st.Served (.create caller size type))
    (hcall : sysVmoCreate st caller size type = .ok (r, st')) : st'.Inv R old := by
  obtain ⟨vmo, h₁, hnew, hr₁, hcases⟩ := newVmobject_spec hlayout hn hinv.heap
  rw [sysVmoCreate, hnew, ok_bind] at hcall
  cases hcases with
  | inl hnone =>
    obtain ⟨rfl, rfl⟩ := hnone
    cases hcall
    exact hinv
  | inr hsome =>
    obtain ⟨base, rfl, hlive₁, hfresh⟩ := hsome
    obtain ⟨⟨obj, h₂⟩, hinit, hcall⟩ := bind_eq_ok.mp hcall
    have halloc : type = .data → pgRoundUp size ≤ 2 ^ maxOrder * pageSize ∧
        (pgRoundUp size ≠ 0 → ∃ x h', h₁.alloc (pgRoundUp size) = .ok (some x, h')) := by
      intro htype
      refine ⟨(hserved htype).1, fun hne => ?_⟩
      have hmemory := (hserved htype).2 hne
      rw [HasMemory, hnew] at hmemory
      dsimp only at hmemory
      split at hmemory
      · exact ⟨_, _, by assumption⟩
      · exact hmemory.elim
    obtain ⟨hr₂, hlive₂, hdata⟩ := vmoInit_spec hlayout hn hr₁ halloc hinit
    have hbase : (base, vmobjectFullSize) ∈ h₂.live := by
      refine hlive₂ _ ?_
      rw [hlive₁]
      exact List.mem_cons_self
    have hkeep : ∀ e ∈ st.heap.live, e ∈ h₂.live := by
      intro e he
      refine hlive₂ e ?_
      rw [hlive₁]
      exact List.mem_cons_of_mem _ he
    dsimp only at hcall
    split_ifs at hcall
    · -- There is no slot for the object: its block is released, that of its data is not.
      obtain ⟨h₃, hdelete, hcall⟩ := bind_eq_ok.mp hcall
      cases hcall
      obtain ⟨h₄, hfree, hr₄, hlive₄⟩ := release_spec hlayout hn hr₂ hbase
      rw [deleteVmobject, Nat.add_sub_cancel, hfree] at hdelete
      cases hdelete
      exact hinv.withHeap hr₄ fun e he => Or.inr (hlive₄ e (hkeep e he) (hfresh e he))
    · cases hcall
      refine hinv.install hr₂ hfresh hkeep hbase (fun hd => ?_) fun slot hmem =>
        mem_slotAllocInstall hmem
      obtain ⟨hmem, hmod, hother⟩ := hdata hd
      refine ⟨hmem, hmod, fun e he => hother e ?_⟩
      rw [hlive₁]
      exact List.mem_cons_of_mem _ he

theorem live_end (hlayout : buddyLayout R.mem R.size = .ok (start, n))
    (hn : n < 2 ^ (maxOrder + 1)) (hr : (heapRuns R old).ReachableVia HeapState.Legal h)
    {e : ℕ × ℕ} (he : e ∈ h.live) (hlarge : memPoolMaxSize < e.2) : e.1 + e.2 ≤ 2 ^ 64 := by
  have hheap := HeapInv.of_reachable hlayout hn hr
  have hsep := hheap.separated (live_sizes hr)
  have hplaced := hheap.owned.placed (mem_heapEntries_of_live he hlarge)
  have hinside := (hsep.inside e he).2
  have hsize := hsep.size e he
  have hend := hplaced.fits
  omega

theorem readWriteVmo_cases {slot type : ℕ} (hoffset : offset < 2 ^ 64) (hsize : size < 2 ^ 64)
    (hcall : readWriteVmo st caller slot offset userBuf size type = .ok (r, st')) :
    st' = st ∨ ∃ o v write, st.vmo o = some v ∧ v.type = .data ∧ offset + size ≤ v.size ∧
      st' = st.copied o ⟨write, wrap64 (v.start + offset), userBuf, size⟩ := by
  unfold readWriteVmo at hcall
  split at hcall
  · exact Or.inl (Prod.mk.inj (Except.ok.inj hcall)).2.symm
  split at hcall
  · cases hcall
  rename_i _ o _ _ v hv
  split_ifs at hcall with htype hrange
  · exact Or.inl (Prod.mk.inj (Except.ok.inj hcall)).2.symm
  · exact Or.inl (Prod.mk.inj (Except.ok.inj hcall)).2.symm
  all_goals
    have hin : offset + size ≤ v.size := by
      unfold wrap64 at hrange
      omega
    have hst := (Prod.mk.inj (Except.ok.inj hcall)).2.symm
    exact Or.inr ⟨o, v, _, hv, not_not.mp htype, hin, hst⟩

section

variable (hlayout : buddyLayout R.mem R.size = .ok (start, n)) (hn : n < 2 ^ (maxOrder + 1))
  (hinv : st.Inv R old)

include hlayout hn hinv

theorem VmoState.Inv.readWrite {slot type : ℕ} (hoffset : offset < 2 ^ 64) (hsize : size < 2 ^ 64)
    (hcall : readWriteVmo st caller slot offset userBuf size type = .ok (r, st')) :
    st'.Inv R old := by
  cases readWriteVmo_cases hoffset hsize hcall with
  | inl hsame =>
    rw [hsame]
    exact hinv
  | inr hcopy =>
    obtain ⟨o, v, write, hv, htype, hin, rfl⟩ := hcopy
    refine ⟨hinv.heap, hinv.object, hinv.data, hinv.distinct, hinv.slots, ?_⟩
    intro e he hpos
    cases he with
    | tail _ he => exact hinv.log e he hpos
    | head =>
      dsimp only at hpos ⊢
      have hdata : v.Data := ⟨htype, by omega⟩
      obtain ⟨hmem, hmod⟩ := hinv.data o v hv hdata
      have hend := live_end hlayout hn hinv.heap hmem
        (show memPoolMaxSize < v.size by have := hdata.2; unfold memPoolMaxSize; omega)
      dsimp only at hend
      rw [wrap64_of_lt (by omega)]
      exact ⟨v, hv, hdata, by omega, by omega⟩

/-- **Every step keeps the invariant**, if the heap serves it. -/
theorem VmoState.Inv.step {c : VmoCall} (hserved : st.Served c) (hstep : st.step c = .ok st') :
    st'.Inv R old := by
  cases c with
  | create caller size type =>
    obtain ⟨⟨r, st₁⟩, hcall, rfl⟩ := map_eq_ok.mp hstep
    exact hinv.create hlayout hn hserved hcall
  | write caller slot offset userPtr len =>
    obtain ⟨⟨r, st₁⟩, hcall, rfl⟩ := map_eq_ok.mp hstep
    exact hinv.readWrite hlayout hn hserved.1 hserved.2 hcall
  | read caller slot offset userPtr len =>
    obtain ⟨⟨r, st₁⟩, hcall, rfl⟩ := map_eq_ok.mp hstep
    exact hinv.readWrite hlayout hn hserved.1 hserved.2 hcall
  | other call =>
    obtain ⟨h', hcall, rfl⟩ := map_eq_ok.mp hstep
    have hr' : (heapRuns R old).ReachableVia HeapState.Legal h' :=
      .step call hinv.heap hserved.1 hcall
    refine hinv.withHeap hr' fun e he => ?_
    cases call with
    | malloc size =>
      obtain ⟨⟨ptr, heap⟩, _, hret⟩ := bind_eq_ok.mp hcall
      cases ptr with
      | none =>
        cases hret
        exact Or.inr he
      | some ptr =>
        cases hret
        exact Or.inr (List.mem_cons_of_mem _ he)
    | free ptr =>
      obtain ⟨heap, _, hret⟩ := bind_eq_ok.mp hcall
      cases hret
      by_cases hptr : e.1 = ptr
      · refine Or.inl fun o v hv => ?_
        rw [hptr]
        exact hserved.2 ptr rfl o v hv
      · exact Or.inr (List.mem_filter.mpr ⟨he, decide_eq_true hptr⟩)

theorem VmoState.Inv.confined : st.Confined where
  inside e he hpos := by
    obtain ⟨v, hv, hdata, hlo, hhi⟩ := hinv.log e he hpos
    exact ⟨v, hv, (hinv.data _ v hv hdata).1, hlo, hhi⟩
  apart o o' v v' hv hv' hdata hdata' hne := by
    have hheap := HeapInv.of_reachable hlayout hn hinv.heap
    have hsize := (hheap.separated (live_sizes hinv.heap)).size
    have hmem := (hinv.data o v hv hdata).1
    have hmem' := (hinv.data o' v' hv' hdata').1
    refine (hheap.live_apart hmem hmem' (hinv.distinct o o' v v' hv hv' hdata hdata' hne)).mono
      ⟨le_rfl, Nat.add_le_add_left (hsize _ hmem) _⟩ ⟨le_rfl, Nat.add_le_add_left (hsize _ hmem') _⟩
  refuses caller slot offset userBuf size type o v hoffset hsize ho hv hout := by
    have hrange : wrap64 (offset + size) < offset ∨ v.size < wrap64 (offset + size) := by
      unfold wrap64
      omega
    simp only [readWriteVmo, ho, hv, hrange, if_true, ite_self]
  returns caller slot offset userBuf size type htype := by
    unfold readWriteVmo
    cases ho : getVmobject (st.process caller) slot with
    | none => exact ⟨_, _, rfl⟩
    | some o =>
      obtain ⟨v, hv⟩ := hinv.slots caller o (mem_slots_of_getVmobject ho)
      dsimp only
      rw [hv]
      dsimp only
      split_ifs with h₁ h₂ h₃ h₄
      · exact ⟨_, _, rfl⟩
      · exact ⟨_, _, rfl⟩
      · exact ⟨_, _, rfl⟩
      · exact ⟨_, _, rfl⟩
      · exact absurd htype (by simp only [h₃, h₄, or_self, not_false_eq_true])

end

end

/-- **Accesses are confined in every run** in which the heap serves the requests: every copy is
inside the block of the object, and a request outside it is refused. -/
theorem vmoRuns_confined (R : Region) (old : ℕ → Page) {start n : ℕ}
    (hlayout : buddyLayout R.mem R.size = .ok (start, n)) (hn : n < 2 ^ (maxOrder + 1))
    (st : VmoState) (hr : (vmoRuns R old).ReachableVia VmoState.Served st) : st.Confined := by
  refine VmoState.Inv.confined hlayout hn (hr.invariant (I := VmoState.Inv R old) ?_ ?_)
  · rintro st ⟨hheap, hvmo, hslots, hlog⟩
    refine ⟨hheap, ?_, ?_, ?_, fun p o hmem => absurd hmem (hslots p o), ?_⟩
    · simp [hvmo]
    · simp [hvmo]
    · simp [hvmo]
    · simp [hlog]
  · intro st c st' hinv hserved hstep
    exact hinv.step hlayout hn hserved hstep

/-- A process with two free slots on a new heap. -/
def twoSlots (c : MemPoolControl) : VmoState where
  heap := ⟨c, []⟩
  vmo := fun _ => none
  process := fun _ => ⟨[none, none]⟩
  log := []

theorem twoSlots_init {c : MemPoolControl}
    (hc : heapCreate fourPages.mem fourPages.size (fun _ => ⟨0, 0⟩) = .ok c) :
    (vmoRuns fourPages fun _ => ⟨0, 0⟩).init (twoSlots c) := by
  refine ⟨.init ⟨hc, rfl⟩, rfl, fun p o hmem => ?_, rfl⟩
  simp [twoSlots] at hmem

/-- The calls of processes that the heap serves. -/
def VmoState.ServedCall (st : VmoState) : VmoCall → Prop
  | .other _ => False
  | c => st.Served c

instance (st : VmoState) (c : VmoCall) : Decidable (st.ServedCall c) := by
  cases c <;> simp only [VmoState.ServedCall, VmoState.Served] <;> infer_instance

/-- The theorem applies to an object of one page of which the last bytes have been written. -/
theorem vmoRuns_confined_onePage :
    ∃ st, (vmoRuns fourPages fun _ => ⟨0, 0⟩).ReachableVia VmoState.Served st ∧
      st.log.map (fun e => (e.2.write, e.2.size)) = [(true, 8)] ∧ st.Confined := by
  obtain ⟨c, hc, _⟩ := heapCreate_spec fourPages buddyLayout_fourPages (by decide) fun _ => ⟨0, 0⟩
  have hrun : (heapCreate fourPages.mem fourPages.size fun _ => ⟨0, 0⟩).map (fun c =>
      ((vmoRuns fourPages fun _ => ⟨0, 0⟩).execVia VmoState.ServedCall (twoSlots c)
        [.create 0 100 .data, .write 0 0 4088 0x5000 8, .read 0 0 4090 0x5000 8]).any
      fun st => decide (st.log.map (fun e => (e.2.write, e.2.size)) = [(true, 8)])) = .ok true := by
    decide +kernel
  rw [hc] at hrun
  obtain ⟨st, hr, hlog⟩ := Lts.System.exists_reachableVia VmoState.ServedCall
    (P := fun st : VmoState => st.log.map (fun e => (e.2.write, e.2.size)) = [(true, 8)]) _
    (twoSlots_init hc) (Except.ok.inj hrun)
  have hserved : (vmoRuns fourPages fun _ => ⟨0, 0⟩).ReachableVia VmoState.Served st := by
    refine hr.mono fun s a hsa => ?_
    cases a with
    | other call => exact hsa.elim
    | create caller size type => exact hsa
    | write caller slot offset userPtr len => exact hsa
    | read caller slot offset userPtr len => exact hsa
  exact ⟨st, hserved, hlog,
    vmoRuns_confined fourPages _ buddyLayout_fourPages (by decide) st hserved⟩

/-- If `malloc` has no memory for the data of an object, the object is created nevertheless, at
address `0`: a write to it is accepted that is in no block of the heap.  For an object larger than
the largest block, `malloc` reads behind its tables. -/
theorem vmoRuns_nullData :
    ∃ st, (vmoRuns fourPages fun _ => ⟨0, 0⟩).Reachable st ∧
      (st.log.map fun e => (e.2.kernelBuf, e.2.size)) = [(16, 8)] ∧
      (∀ b ∈ st.heap.live, ¬ (b.1 ≤ 16 ∧ 16 + 8 ≤ b.1 + b.2)) ∧
      ∃ st₀, (vmoRuns fourPages fun _ => ⟨0, 0⟩).Reachable st₀ ∧
        sysVmoCreate st₀ 0 (2 ^ 32 + 1) .data = .error .badAccess := by
  obtain ⟨c, hc, _⟩ := heapCreate_spec fourPages buddyLayout_fourPages (by decide) fun _ => ⟨0, 0⟩
  have hrun : (heapCreate fourPages.mem fourPages.size fun _ => ⟨0, 0⟩).map (fun c =>
      (((vmoRuns fourPages fun _ => ⟨0, 0⟩).execVia (fun _ _ => True) (twoSlots c)
        [.create 0 8192 .data, .write 0 0 16 0x5000 8]).any
        fun st => decide ((st.log.map fun e => (e.2.kernelBuf, e.2.size)) = [(16, 8)] ∧
          ∀ b ∈ st.heap.live, ¬ (b.1 ≤ 16 ∧ 16 + 8 ≤ b.1 + b.2)),
      match sysVmoCreate (twoSlots c) 0 (2 ^ 32 + 1) .data with
        | .error .badAccess => true
        | _ => false)) = .ok (true, true) := by
    decide +kernel
  rw [hc] at hrun
  obtain ⟨hnull, hlarge⟩ := Prod.mk.inj (Except.ok.inj hrun)
  obtain ⟨st, hr, hlog, hlive⟩ := Lts.System.exists_reachableVia (fun _ _ => True)
    (P := fun st : VmoState => (st.log.map fun e => (e.2.kernelBuf, e.2.size)) = [(16, 8)] ∧
      ∀ b ∈ st.heap.live, ¬ (b.1 ≤ 16 ∧ 16 + 8 ≤ b.1 + b.2)) _ (twoSlots_init hc) hnull
  refine ⟨st, hr, hlog, hlive, twoSlots c, .init (twoSlots_init hc), ?_⟩
  split at hlarge
  · assumption
  · cases hlarge

end Ginkgo.Core
