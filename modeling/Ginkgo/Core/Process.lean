import Mathlib.Data.Nat.Notation
import Mathlib.Tactic.Cases
import Ginkgo.Machine

/-!
# Slots of processes

The model of the slot table of `process.c`.  A process refers to kernel objects by the numbers of
slots; a slot holds an object or `NULL`.

## Main results

* `slotAlloc_spec` — the slot that is found is free, and none is found if all are in
  use.
* `slotAllocInstall_spec` — an object is installed in a free slot, if there is one.
* `slotAllocInstall_get` — an object is found in the slot that it was installed in.
-/

namespace Ginkgo.Core

/-- A kernel object: its class and its address. -/
inductive Kobject
  | process (p : ℕ)
  | vmspace (v : ℕ)
  | vmobject (o : ℕ)
  | thread (t : ℕ)
  | timer (t : ℕ)
  | connection (c : ℕ)
deriving DecidableEq, Repr

/-- `process_t`: its slot table. -/
structure Process where
  slots : List (Option Kobject)

/-- The loop of `slot_alloc` over the slots from number `i` on. -/
def slotScan {α : Type} : List (Option α) → ℕ → ℤ
  | [], _ => -1
  | none :: _, i => i
  | some _ :: slots, i => slotScan slots (i + 1)

/-- `slot_alloc`. -/
def slotAlloc (process : Process) : ℤ := slotScan process.slots 0

/-- `slot_get`; the slot number becomes an `int` and is compared as an `unsigned int`. -/
def slotGet (process : Process) (slot : ℕ) : Option Kobject :=
  if slot % 2 ^ 32 < process.slots.length then process.slots.getD (slot % 2 ^ 32) none else none

/-- `slot_install`. -/
def slotInstall (process : Process) (slot : ℕ) (obj : Kobject) : Process :=
  ⟨process.slots.set slot (some obj)⟩

/-- `slot_alloc_install`. -/
def slotAllocInstall (process : Process) (obj : Kobject) : ℤ × Process :=
  let slot := slotAlloc process
  if slot < 0 then (-1, process) else (slot, slotInstall process slot.toNat obj)

/-- Every slot is in use. -/
def Process.Full (process : Process) : Prop := none ∉ process.slots

/-- `MAX_SLOTS_SIZE`. -/
def maxSlotsSize : ℕ := 64

/-- The number of free slots. -/
def Process.room (process : Process) : ℕ := process.slots.count none

theorem Process.full_iff {process : Process} : process.Full ↔ process.room = 0 :=
  List.count_eq_zero.symm

theorem slotGet_eq_some {process : Process} {slot : ℕ} {obj : Kobject} :
    slotGet process slot = some obj ↔ process.slots[slot % 2 ^ 32]? = some (some obj) := by
  unfold slotGet
  rw [List.getD_eq_getElem?_getD]
  split_ifs with hlt
  · rw [List.getElem?_eq_getElem hlt, Option.getD_some, Option.some.injEq]
  · rw [List.getElem?_eq_none (Nat.le_of_not_lt hlt)]
    simp

theorem room_slotInstall {process : Process} {n : ℕ} (h : process.slots[n]? = some none)
    (obj : Kobject) : (slotInstall process n obj).room + 1 = process.room := by
  obtain ⟨hn, hget⟩ := List.getElem?_eq_some_iff.mp h
  have hpos : 0 < process.slots.count none := List.count_pos_iff.mpr (List.mem_of_getElem? h)
  unfold slotInstall Process.room
  rw [List.count_set hn, hget]
  simp only [BEq.rfl, if_true]
  rw [if_neg (by simp)]
  omega

theorem slotScan_spec {α : Type} (slots : List (Option α)) (i : ℕ) :
    (slotScan slots i = -1 ∧ none ∉ slots) ∨
      ∃ n < slots.length, slotScan slots i = (i + n : ℕ) ∧ slots[n]? = some none := by
  induction slots generalizing i with
  | nil => exact Or.inl ⟨rfl, List.not_mem_nil⟩
  | cons slot slots ih =>
    cases slot with
    | none => exact Or.inr ⟨0, Nat.zero_lt_succ _, rfl, rfl⟩
    | some obj =>
      cases ih (i + 1) with
      | inl hfull =>
        refine Or.inl ⟨hfull.1, fun hmem => ?_⟩
        cases hmem with
        | tail _ hmem => exact hfull.2 hmem
      | inr hfree =>
        obtain ⟨n, hn, hscan, hnone⟩ := hfree
        refine Or.inr ⟨n + 1, Nat.succ_lt_succ hn, ?_, hnone⟩
        rw [slotScan, hscan]
        congr 1
        omega

/-- **The slot that is found is free**, and none is found if all slots are in use. -/
theorem slotAlloc_spec (process : Process) :
    (slotAlloc process = -1 ∧ process.Full) ∨
      ∃ n < process.slots.length, slotAlloc process = (n : ℕ) ∧ process.slots[n]? = some none := by
  cases slotScan_spec process.slots 0 with
  | inl hfull => exact Or.inl hfull
  | inr hfree =>
    obtain ⟨n, hn, hscan, hnone⟩ := hfree
    rw [Nat.zero_add] at hscan
    exact Or.inr ⟨n, hn, hscan, hnone⟩

/-- **An object is installed in a free slot**; with all slots in use nothing is installed. -/
theorem slotAllocInstall_spec (process : Process) (obj : Kobject) :
    (process.room = 0 ∧ slotAllocInstall process obj = (-1, process)) ∨
      ∃ n : ℕ, process.slots[n]? = some none ∧
        slotAllocInstall process obj = ((n : ℤ), slotInstall process n obj) := by
  rcases slotAlloc_spec process with ⟨halloc, hfull⟩ | ⟨n, -, halloc, hnone⟩
  · refine Or.inl ⟨Process.full_iff.mp hfull, ?_⟩
    simp only [slotAllocInstall, halloc]
    rfl
  · refine Or.inr ⟨n, hnone, ?_⟩
    simp only [slotAllocInstall, halloc, Int.toNat_natCast]
    exact if_neg (by omega)

/-- **An object is found in the slot that it was installed in**; with all slots in use nothing is
installed. -/
theorem slotAllocInstall_get (process : Process) (obj : Kobject) :
    (process.Full ∧ slotAllocInstall process obj = (-1, process)) ∨
      (¬ process.Full ∧ ∃ (n : ℕ) (process' : Process), n < process.slots.length ∧
        slotAllocInstall process obj = ((n : ℤ), process') ∧
        process'.slots[n]? = some (some obj)) := by
  rcases slotAllocInstall_spec process obj with ⟨hroom, hinstall⟩ | ⟨n, hnone, hinstall⟩
  · exact Or.inl ⟨Process.full_iff.mpr hroom, hinstall⟩
  · obtain ⟨hn, -⟩ := List.getElem?_eq_some_iff.mp hnone
    exact Or.inr ⟨fun hfull => hfull (List.mem_of_getElem? hnone), n, _, hn, hinstall,
      List.getElem?_set_self hn⟩

end Ginkgo.Core
