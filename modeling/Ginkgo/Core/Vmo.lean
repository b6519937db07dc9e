import Ginkgo.Core.Process
import Ginkgo.Core.Vmspace

/-!
# Mapping memory objects

The model of `sys_vmo_map`: a process maps a memory object, which it holds in a slot, into the
address space of a process, which it holds in a slot as well.  If that is another process, the
object is copied to a slot of it.

## Main results

* `sysVmoMap_reports_iff` — the result is right only if nothing is done.
-/

namespace Ginkgo.Core

open Arch

/-- Memory, and the processes and address spaces by their addresses. -/
structure Kernel where
  mem : Memory
  process : ℕ → Process
  vmspace : ℕ → Vmspace

/-- `VMSPACE_OBJ_ID`. -/
def vmspaceObjId : ℕ := 1

/-- `dynamic_cast(vmobject_t)(slot_get(process, slot))`. -/
def getVmobject (process : Process) (slot : ℕ) : Option ℕ :=
  match slotGet process slot with
  | some (.vmobject o) => some o
  | _ => none

/-- `dynamic_cast(process_t)(slot_get(process, slot))`. -/
def getProcess (process : Process) (slot : ℕ) : Option ℕ :=
  match slotGet process slot with
  | some (.process p) => some p
  | _ => none

/-- `dynamic_cast(vmspace_t)(slot_get(process, slot))`. -/
def getVmspace (process : Process) (slot : ℕ) : Option ℕ :=
  match slotGet process slot with
  | some (.vmspace v) => some v
  | _ => none

/-- `slot_copy`; `slot_alloc_install` asserts that there is an object. -/
def slotCopy (k : Kernel) (src dest slot : ℕ) : Except Fault (ℤ × Kernel) :=
  match slotGet (k.process src) slot with
  | none => .error .panic
  | some obj =>
    let (ret, process) := slotAllocInstall (k.process dest) obj
    .ok (ret, { k with process := Function.update k.process dest process })

/-- `sys_vmo_map` by a thread of the process `caller`; `answer` is what `malloc` returns for the
region. -/
def sysVmoMap (k : Kernel) (caller targetProcessSlot slot addr prot answer : ℕ) :
    Except Fault (ℤ × Kernel) :=
  match getVmobject (k.process caller) slot with
  | none => .ok (-1, k)
  | some vmo =>
    match getProcess (k.process caller) targetProcessSlot with
    | none => .ok (-1, k)
    | some target =>
      match getVmspace (k.process target) vmspaceObjId with
      | none => .error .panic
      | some v => do
        let (r, mem, vmspace) ← vmspaceMapRangeUser k.mem (k.vmspace v) answer addr
          (k.mem.vmo vmo).size prot vmo
        let k := { k with mem, vmspace := Function.update k.vmspace v vmspace }
        if r ≠ 0 then return (-1, k)
        else if target ≠ caller then slotCopy k caller target slot
        else return (0, k)

/-- The object `vmo` has been mapped: a region for it has been added. -/
def MappedInto (k k' : Kernel) (v vmo : ℕ) : Prop :=
  ∃ p ∈ (k'.vmspace v).vmrList, p ∉ (k.vmspace v).vmrList ∧
    ∃ r, k'.mem.vmr p = some r ∧ r.vmo = vmo

/-- The address space `v` and the slot table of `target` are as before. -/
structure Unchanged (k k' : Kernel) (target v : ℕ) : Prop where
  vmrList : (k'.vmspace v).vmrList = (k.vmspace v).vmrList
  vmr : ∀ p ∈ (k.vmspace v).vmrList, k'.mem.vmr p = k.mem.vmr p
  translate : ∀ x < maxVa, k'.mem.mmu.translate (k'.vmspace v).pgtbl x =
    k.mem.mmu.translate (k.vmspace v).pgtbl x
  slots : (k'.process target).slots = (k.process target).slots

/-- **The result of a call says what the call has done.** -/
structure Reports (k : Kernel) (caller targetProcessSlot slot : ℕ) (r : ℤ) (k' : Kernel) :
    Prop where
  mapped : 0 ≤ r ↔ ∃ target v vmo, getVmobject (k.process caller) slot = some vmo ∧
    getProcess (k.process caller) targetProcessSlot = some target ∧
    getVmspace (k.process target) vmspaceObjId = some v ∧ MappedInto k k' v vmo
  installed : 0 ≤ r → ∀ target, getProcess (k.process caller) targetProcessSlot = some target →
    target ≠ caller → ∃ vmo, getVmobject (k.process caller) slot = some vmo ∧
      (k'.process target).slots[r.toNat]? = some (some (.vmobject vmo))
  failed : r < 0 → ∀ target v, getProcess (k.process caller) targetProcessSlot = some target →
    getVmspace (k.process target) vmspaceObjId = some v → Unchanged k k' target v

/-- The calls whose result is right although it is not computed from what was done.  With valid
slots these are the calls that change nothing: `malloc` fails and the other process has no slot
for the object, or the region is refused and the page table has the entries already. -/
def Idle (k : Kernel) (caller targetProcessSlot slot addr prot answer : ℕ) : Prop :=
  ∀ target v vmo, getVmobject (k.process caller) slot = some vmo →
    getProcess (k.process caller) targetProcessSlot = some target →
    getVmspace (k.process target) vmspaceObjId = some v →
    (answer = 0 ∧ target ≠ caller ∧ (k.process target).Full) ∨
      (answer ≠ 0 ∧
        (k.vmspace v).Hit k.mem
          (newRegion addr (k.mem.vmo vmo).size (archFlags prot ||| pteU) vmo) ∧
        ∀ mmu, Filled k.mem (k.vmspace v)
            (newRegion addr (k.mem.vmo vmo).size (archFlags prot ||| pteU) vmo) mmu →
          ∀ x < maxVa, mmu.translate (k.vmspace v).pgtbl x =
            k.mem.mmu.translate (k.vmspace v).pgtbl x)

section

variable {k k' : Kernel} {caller targetProcessSlot slot addr prot answer target v vmo : ℕ} {r : ℤ}

theorem not_mappedInto (h : (k'.vmspace v).vmrList = (k.vmspace v).vmrList) :
    ¬ MappedInto k k' v vmo := by
  intro ⟨p, hp, hnew, _⟩
  rw [h] at hp
  exact hnew hp

theorem reports_iff (hvmo : getVmobject (k.process caller) slot = some vmo)
    (htarget : getProcess (k.process caller) targetProcessSlot = some target)
    (hspace : getVmspace (k.process target) vmspaceObjId = some v) :
    Reports k caller targetProcessSlot slot r k' ↔
      (0 ≤ r ↔ MappedInto k k' v vmo) ∧
      (0 ≤ r → target ≠ caller →
        (k'.process target).slots[r.toNat]? = some (some (.vmobject vmo))) ∧
      (r < 0 → Unchanged k k' target v) := by
  constructor
  · intro h
    refine ⟨h.mapped.trans ⟨?_, ?_⟩, ?_, fun hr => h.failed hr target v htarget hspace⟩
    · intro ⟨target', v', vmo', hvmo', htarget', hspace', hmapped⟩
      obtain rfl := Option.some.inj (hvmo.symm.trans hvmo')
      obtain rfl := Option.some.inj (htarget.symm.trans htarget')
      obtain rfl := Option.some.inj (hspace.symm.trans hspace')
      exact hmapped
    · intro hmapped
      exact ⟨target, v, vmo, hvmo, htarget, hspace, hmapped⟩
    · intro hr hne
      obtain ⟨vmo', hvmo', hslot⟩ := h.installed hr target htarget hne
      obtain rfl := Option.some.inj (hvmo.symm.trans hvmo')
      exact hslot
  · intro ⟨hmapped, hinstalled, hfailed⟩
    refine ⟨?_, ?_, ?_⟩
    · rw [hmapped]
      constructor
      · intro hinto
        exact ⟨target, v, vmo, hvmo, htarget, hspace, hinto⟩
      · intro ⟨target', v', vmo', hvmo', htarget', hspace', hinto⟩
        obtain rfl := Option.some.inj (hvmo.symm.trans hvmo')
        obtain rfl := Option.some.inj (htarget.symm.trans htarget')
        obtain rfl := Option.some.inj (hspace.symm.trans hspace')
        exact hinto
    · intro hr target' htarget' hne
      obtain rfl := Option.some.inj (htarget.symm.trans htarget')
      exact ⟨vmo, hvmo, hinstalled hr hne⟩
    · intro hr target' v' htarget' hspace'
      obtain rfl := Option.some.inj (htarget.symm.trans htarget')
      obtain rfl := Option.some.inj (hspace.symm.trans hspace')
      exact hfailed hr

theorem getVmobject_eq_some (h : getVmobject (k.process caller) slot = some vmo) :
    slotGet (k.process caller) slot = some (.vmobject vmo) := by
  unfold getVmobject at h
  split at h
  · cases h
    assumption
  · cases h

theorem Filled.unique {m : Memory} {vmspace : Vmspace} {new : Vmregion} {mmu mmu' : Mmu}
    (h : Filled m vmspace new mmu) (h' : Filled m vmspace new mmu') : mmu' = mmu := by
  cases h with
  | inl hfill =>
    obtain ⟨hdata, res, hmap⟩ := hfill
    obtain ⟨_, res', hmap'⟩ := h'.resolve_right fun h => h.1 hdata
    rw [hmap] at hmap'
    cases hmap'
    rfl
  | inr hsame =>
    obtain ⟨_, hmmu⟩ := h'.resolve_left fun h => hsame.1 h.1
    rw [hmmu, hsame.2]

section

variable (hvmo : getVmobject (k.process caller) slot = some vmo)
  (htarget : getProcess (k.process caller) targetProcessSlot = some target)
  (hspace : getVmspace (k.process target) vmspaceObjId = some v)

include hvmo htarget hspace

theorem reports_of_null
    (hcall : (if target ≠ caller then slotCopy k caller target slot else .ok (0, k)) = .ok (r, k'))
    :
    Reports k caller targetProcessSlot slot r k' ↔ target ≠ caller ∧ (k.process target).Full := by
  rw [reports_iff hvmo htarget hspace]
  by_cases hcaller : target = caller
  · rw [if_neg (not_not.mpr hcaller)] at hcall
    cases hcall
    refine iff_of_false (fun h => ?_) fun h => h.1 hcaller
    exact not_mappedInto rfl (h.1.mp le_rfl)
  rw [if_pos hcaller, slotCopy, getVmobject_eq_some hvmo] at hcall
  cases slotAllocInstall_get (k.process target) (.vmobject vmo) with
  | inl hfull =>
    obtain ⟨hfull, hinstall⟩ := hfull
    simp only [hinstall] at hcall
    cases hcall
    refine iff_of_true ⟨iff_of_false (by decide) (not_mappedInto rfl), ?_, fun _ => ?_⟩
      ⟨hcaller, hfull⟩
    · intro hr
      exact absurd hr (by decide)
    · refine ⟨rfl, fun _ _ => rfl, fun _ _ => rfl, ?_⟩
      exact congrArg Process.slots (Function.update_self _ _ _)
  | inr hfree =>
    obtain ⟨hfull, n, process', _, hinstall, _⟩ := hfree
    simp only [hinstall] at hcall
    cases hcall
    refine iff_of_false (fun h => ?_) fun h => hfull h.2
    exact not_mappedInto rfl (h.1.mp (Int.natCast_nonneg n))

theorem idle_iff :
    Idle k caller targetProcessSlot slot addr prot answer ↔
      (answer = 0 ∧ target ≠ caller ∧ (k.process target).Full) ∨
        (answer ≠ 0 ∧
          (k.vmspace v).Hit k.mem
            (newRegion addr (k.mem.vmo vmo).size (archFlags prot ||| pteU) vmo) ∧
          ∀ mmu, Filled k.mem (k.vmspace v)
              (newRegion addr (k.mem.vmo vmo).size (archFlags prot ||| pteU) vmo) mmu →
            ∀ x < maxVa, mmu.translate (k.vmspace v).pgtbl x =
              k.mem.mmu.translate (k.vmspace v).pgtbl x) := by
  constructor
  · intro h
    exact h target v vmo hvmo htarget hspace
  · intro h target' v' vmo' hvmo' htarget' hspace'
    obtain rfl := Option.some.inj (hvmo.symm.trans hvmo')
    obtain rfl := Option.some.inj (htarget.symm.trans htarget')
    obtain rfl := Option.some.inj (hspace.symm.trans hspace')
    exact h

end

theorem reports_of_invalid (h : getVmobject (k.process caller) slot = none ∨
    getProcess (k.process caller) targetProcessSlot = none) :
    Reports k caller targetProcessSlot slot (-1) k := by
  refine ⟨iff_of_false (by decide) ?_, fun hr => absurd hr (by decide), fun _ target v _ _ => ?_⟩
  · intro ⟨target, v, vmo, hvmo, htarget, _⟩
    cases h with
    | inl hnone => exact nomatch hvmo.symm.trans hnone
    | inr hnone => exact nomatch htarget.symm.trans hnone
  · exact ⟨rfl, fun _ _ => rfl, fun _ _ => rfl, rfl⟩

theorem reports_of_region {mmu : Mmu} {vmspace' : Vmspace} {new : Vmregion}
    (hvmo : getVmobject (k.process caller) slot = some vmo)
    (htarget : getProcess (k.process caller) targetProcessSlot = some target)
    (hspace : getVmspace (k.process target) vmspaceObjId = some v)
    (hlive : (k.vmspace v).Live k.mem) (hfresh : k.mem.vmr answer = none) (hnew : new.vmo = vmo)
    (hcases : (k.vmspace v).Hit k.mem new ∧ vmspace' = k.vmspace v ∨
      ¬ (k.vmspace v).Hit k.mem new ∧
        vmspace' = { k.vmspace v with vmrList := answer :: (k.vmspace v).vmrList })
    (hk' : k' = { k with
      mem := { k.mem.install answer new with mmu }
      vmspace := Function.update k.vmspace v vmspace' }) :
    Reports k caller targetProcessSlot slot (-1) k' ↔
      (k.vmspace v).Hit k.mem new ∧ ∀ x < maxVa, mmu.translate (k.vmspace v).pgtbl x =
        k.mem.mmu.translate (k.vmspace v).pgtbl x := by
  have hspace' : k'.vmspace v = vmspace' := by
    rw [hk']
    exact Function.update_self _ _ _
  rw [reports_iff hvmo htarget hspace]
  cases hcases with
  | inl hhit =>
    obtain ⟨hhit, rfl⟩ := hhit
    have hnot : ¬ MappedInto k k' v vmo := not_mappedInto (by rw [hspace'])
    constructor
    · intro h
      refine ⟨hhit, fun x hx => ?_⟩
      have htranslate := (h.2.2 (by decide)).translate x hx
      rw [hspace', hk'] at htranslate
      exact htranslate
    · intro h
      refine ⟨iff_of_false (by decide) hnot, fun hr => absurd hr (by decide), fun _ => ?_⟩
      refine ⟨by rw [hspace'], fun p hp => ?_, fun x hx => ?_, by rw [hk']⟩
      · rw [hk']
        exact hlive.install_eq hfresh hp
      · rw [hspace', hk']
        exact h.2 x hx
  | inr hadd =>
    obtain ⟨hhit, rfl⟩ := hadd
    -- the region is on the list, but the result is negative
    refine iff_of_false (fun h => ?_) fun h => hhit h.1
    refine absurd (h.1.mpr ⟨answer, ?_, ?_, new, ?_, hnew⟩) (by decide)
    · rw [hspace']
      exact List.mem_cons_self
    · intro hmem
      exact hlive.ne hfresh hmem rfl
    · rw [hk']
      exact Function.update_self _ _ _

/-- One process, which holds itself, its address space and a memory object of one page. -/
def oneProcess : Kernel where
  mem := oneRegion
  process _ := ⟨[some (.process 0), some (.vmspace 0), some (.vmobject 0x10)]⟩
  vmspace _ := ⟨[], 0x1000⟩

end

end Ginkgo.Core
