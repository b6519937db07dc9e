import Ginkgo.Core.Class
import Ginkgo.Core.Process

/-!
# Objects of kernel classes in slots

A slot holds a pointer to the `kobject_t` of an object.  `slot_alloc_install` casts an object to
`kobject_t` and asserts that there is one; who takes the object out of the slot casts it back to its
class.  Both casts go by the class table, which is built from the definitions with `class_impl`, not
by the declarations with `class`.

## Main results

* `KernelTable.kobject_mem_chain` — the objects with a `kobject_t`.
* `KernelTable.slotAllocInstall_eq` — what `slot_alloc_install` does with an object.
* `KernelTable.givesBack_iff` — slots give back the objects of all classes but
  `thread_t`.
-/

namespace Ginkgo.Core

open Layout
open Fallible (bind_eq_ok ok_bind)

/-- The classes of kernel objects, with `object_t` and `kobject_t`. -/
inductive KernelClass
  | object
  | kobject
  | process
  | vmspace
  | vmobject
  | timer
  | ipcConnection
  | thread
deriving DecidableEq, Repr

namespace KernelClass

/-- The parent in the declaration with `class`. -/
def declParent : KernelClass → KernelClass
  | object | kobject => object
  | process | vmspace | vmobject | timer | ipcConnection | thread => kobject

/-- The parent in the definition with `class_impl`, which is `object_t` if none is given. -/
def implParent : KernelClass → KernelClass
  | object | kobject | thread => object
  | process | vmspace | vmobject | timer | ipcConnection => kobject

end KernelClass

/-- A class table with the kernel classes.  The linker decides on their numbers. -/
structure KernelTable extends ClassTable where
  /-- `class_type`. -/
  type : KernelClass → TypeIndex
  type_injective : Function.Injective type
  type_object : type .object = root
  parent_type : ∀ c, c ≠ .object → parent (type c) = type c.implParent
  /-- The objects are far smaller than `4 GiB`. -/
  fits : ∀ c, toClassTable.blockSize (type c) < 2 ^ 32

namespace KernelTable

variable (table : KernelTable)

/-! ## Slots with pointers -/

/-- `dynamic_cast`, with the number of iterations that the loops are given; `NULL` is `0`. -/
def dynamicCast (fuel : ℕ) (m : Memory) (c : KernelClass) (obj : ℕ) : Except Fault ℕ :=
  match table.classCast fuel m (table.type c) obj with
  | none => .error .badAccess
  | some none => .ok 0
  | some (some obj) => .ok obj

/-- `slot_get`, in a table of pointers. -/
def slotGet (slots : List (Option ℕ)) (slot : ℕ) : ℕ :=
  if slot % 2 ^ 32 < slots.length then (slots.getD (slot % 2 ^ 32) none).getD 0 else 0

/-- `slot_alloc_install`, which casts, and `slot_install`, which casts once more. -/
def slotAllocInstall (fuel : ℕ) (m : Memory) (slots : List (Option ℕ)) (obj : ℕ) :
    Except Fault (ℤ × List (Option ℕ)) := do
  let obj ← table.dynamicCast fuel m .kobject obj
  kassert (obj ≠ 0)
  let slot := slotScan slots 0
  if slot < 0 then return (-1, slots)
  else
    let obj ← table.dynamicCast fuel m .kobject obj
    kassert (obj ≠ 0)
    return (slot, slots.set slot.toNat (some obj))

/-- `sys_thread_create` by a thread of the process at `self`.  The slot tables are given by the
addresses of the processes, `base` is the block that is allocated for the thread, and `fill` is what
`thread_create` does with it: it sets the fields of the thread, and maps its stack in its address
space. -/
def sysThreadCreate (fuel : ℕ) (m : Memory) (slots : ℕ → List (Option ℕ))
    (self processSlot base : ℕ) (fill : ℕ → ℕ → Memory → Except Fault Memory) :
    Except Fault (ℤ × Memory × (ℕ → List (Option ℕ))) := do
  let process ← table.dynamicCast fuel m .process (slotGet (slots self) processSlot)
  access (base ≠ 0)
  let (thread, m) := table.newClassObject (table.type .thread) base m
  access (process ≠ 0)
  let vmspace ← table.dynamicCast fuel m .vmspace (slotGet (slots process) 1)
  access (vmspace ≠ 0)
  let m ← fill thread vmspace m
  let (slot, selfSlots) ← table.slotAllocInstall fuel m (slots self) thread
  return (slot, m, Function.update slots self selfSlots)

/-- **A slot gives back the object that was put in**: a new object of class `c` is installed, and
the cast of what is found in the slot returns it. -/
def GivesBack (c : KernelClass) (base : ℕ) (m : Memory) (slots : List (Option ℕ)) (fuel : ℕ) :
    Prop :=
  ∃ (slot : ℕ) (slots' : List (Option ℕ)),
    table.slotAllocInstall fuel (table.newClassObject (table.type c) base m).2 slots
      (table.newClassObject (table.type c) base m).1 = .ok ((slot : ℤ), slots') ∧
    table.dynamicCast fuel (table.newClassObject (table.type c) base m).2 c (slotGet slots' slot) =
      .ok (table.newClassObject (table.type c) base m).1

/-! ## The class table -/

variable {table} {c : KernelClass} {base fuel : ℕ} {m : Memory} {slots : List (Option ℕ)}

theorem type_ne_root (h : c ≠ .object) : table.type c ≠ table.root := by
  rw [← table.type_object]
  exact table.type_injective.ne h

theorem chain_type (h : c ≠ .object) :
    table.chain (table.type c) = table.type c :: table.chain (table.type c.implParent) := by
  rw [table.chain_of_ne (type_ne_root h), table.parent_type c h]

theorem chain_object : table.chain (table.type .object) = [table.type .object] := by
  rw [table.type_object]
  exact table.chain_root

/-- **The objects with a `kobject_t`** are those of the classes that are defined with it. -/
theorem kobject_mem_chain (hc : c.declParent = .kobject) :
    table.type .kobject ∈ table.chain (table.type c) ↔ c ≠ .thread := by
  have hkobject : table.type .kobject ∈ table.chain (table.type .kobject) :=
    table.mem_chain_self _
  cases c with
  | object => cases hc
  | kobject => cases hc
  | thread =>
    rw [chain_type (by decide), show KernelClass.thread.implParent = .object from rfl, chain_object]
    simp [table.type_injective.eq_iff]
  | process | vmspace | vmobject | timer | ipcConnection =>
    refine iff_of_true ?_ (by decide)
    rw [chain_type (by decide)]
    exact List.mem_cons_of_mem _ hkobject

/-! ## Casts and slots -/

section

variable {T A : TypeIndex}

theorem subobject_ne_zero (table : KernelTable) (base : ℕ) (A : TypeIndex) :
    table.subobject base A ≠ 0 := by
  have hhead := ClassTable.headSize_le_subobject table.toClassTable base A
  unfold headSize at hhead
  omega

theorem dynamicCast_eq (hheads : table.Heads T base m) (hA : A ∈ table.chain T)
    (hfuel : table.depth T < fuel) (c : KernelClass) :
    table.dynamicCast fuel m c (table.subobject base A) =
      .ok (if table.type c ∈ table.chain T then table.subobject base (table.type c) else 0) := by
  unfold dynamicCast
  rw [ClassTable.classCast_spec hheads hA hfuel]
  split_ifs <;> rfl

/-- **What `slot_alloc_install` does with an object**: it installs the `kobject_t` in a free slot,
and fails an assertion if there is none in the object. -/
theorem slotAllocInstall_eq (hheads : table.Heads T base m) (hfuel : table.depth T < fuel)
    (hfree : none ∈ slots) :
    (table.type .kobject ∈ table.chain T ∧ ∃ n : ℕ, slots[n]? = some none ∧
      table.slotAllocInstall fuel m slots (table.subobject base T) =
        .ok ((n : ℤ), slots.set n (some (table.subobject base (table.type .kobject))))) ∨
    (table.type .kobject ∉ table.chain T ∧
      table.slotAllocInstall fuel m slots (table.subobject base T) = .error .panic) := by
  unfold slotAllocInstall
  rw [dynamicCast_eq hheads (table.mem_chain_self T) hfuel, ok_bind]
  by_cases hmem : table.type .kobject ∈ table.chain T
  · refine Or.inl ⟨hmem, ?_⟩
    have hne := subobject_ne_zero table base (table.type .kobject)
    rcases slotScan_spec slots 0 with ⟨-, hfull⟩ | ⟨n, -, hscan, hnone⟩
    · exact absurd hfree hfull
    refine ⟨n, hnone, ?_⟩
    rw [Nat.zero_add] at hscan
    rw [if_pos hmem, kassert_pos hne, ok_bind]
    dsimp only
    rw [hscan, if_neg (by omega), dynamicCast_eq hheads hmem hfuel, ok_bind, if_pos hmem,
      kassert_pos hne, ok_bind, Int.toNat_natCast]
    rfl
  · refine Or.inr ⟨hmem, ?_⟩
    rw [if_neg hmem]
    rfl

end

/-- The writes of a function keep the headers of the thread at `base`. -/
def KeepsThread (table : KernelTable) (base : ℕ) (fill : ℕ → ℕ → Memory → Except Fault Memory) :
    Prop :=
  ∀ thread vmspace m m', fill thread vmspace m = .ok m' →
    ∀ x, table.IsHeadByte (table.type .thread) base x → m' x = m x

theorem sysThreadCreate_ne_ok {slots : ℕ → List (Option ℕ)} {self processSlot : ℕ}
    {fill : ℕ → ℕ → Memory → Except Fault Memory}
    (hkeep : table.KeepsHeads (table.type .thread) base) (hfill : table.KeepsThread base fill)
    (hfuel : table.depth (table.type .thread) < fuel) (hfree : none ∈ slots self)
    (r : ℤ × Memory × (ℕ → List (Option ℕ))) :
    table.sysThreadCreate fuel m slots self processSlot base fill ≠ .ok r := by
  intro hcall
  obtain ⟨hobj, hheads⟩ := ClassTable.newClassObject_spec (table.fits .thread) hkeep m
  unfold sysThreadCreate at hcall
  generalize table.newClassObject (table.type .thread) base m = new at hcall hobj hheads
  obtain ⟨thread, m₁⟩ := new
  dsimp only at hcall hobj hheads
  obtain ⟨process, -, hcall⟩ := bind_eq_ok.mp hcall
  obtain ⟨_, -, hcall⟩ := bind_eq_ok.mp hcall
  obtain ⟨_, -, hcall⟩ := bind_eq_ok.mp hcall
  obtain ⟨vmspace, -, hcall⟩ := bind_eq_ok.mp hcall
  obtain ⟨_, -, hcall⟩ := bind_eq_ok.mp hcall
  obtain ⟨m', hm', hcall⟩ := bind_eq_ok.mp hcall
  obtain ⟨x, hinstall, -⟩ := bind_eq_ok.mp hcall
  have hheads' : table.Heads (table.type .thread) base m' := fun A hA =>
    (hheads A hA).congr fun x hlo hhi => hfill _ _ _ _ hm' x ⟨A, hA, hlo, hhi⟩
  rw [hobj] at hinstall
  rcases slotAllocInstall_eq hheads' hfuel hfree with ⟨hmem, -⟩ | ⟨-, hpanic⟩
  · exact (kobject_mem_chain rfl).mp hmem rfl
  · cases hinstall.symm.trans hpanic

/-- **Slots give back the objects of all classes but `thread_t`**, which is declared with
`kobject_t` as its parent but defined without; and `sys_thread_create` never returns. -/
theorem givesBack_iff (table : KernelTable) {c : KernelClass} (hc : c.declParent = .kobject)
    {base fuel : ℕ} {slots : List (Option ℕ)} (hkeep : table.KeepsHeads (table.type c) base)
    (hfree : none ∈ slots) (hsize : slots.length = maxSlotsSize)
    (hfuel : table.depth (table.type c) < fuel) (m : Memory) :
    (table.GivesBack c base m slots fuel ↔ c ≠ .thread) ∧
      (c = .thread → ∀ tables self processSlot fill, none ∈ tables self →
        table.KeepsThread base fill →
        ∀ r, table.sysThreadCreate fuel m tables self processSlot base fill ≠ .ok r) := by
  obtain ⟨hobj, hheads⟩ := ClassTable.newClassObject_spec (table.fits c) hkeep m
  refine ⟨?_, ?_⟩
  · unfold GivesBack
    rw [hobj]
    rcases slotAllocInstall_eq hheads hfuel hfree with ⟨hmem, n, hn, hinstall⟩ | ⟨hmem, hpanic⟩
    · refine iff_of_true ⟨n, _, hinstall, ?_⟩ ((kobject_mem_chain hc).mp hmem)
      obtain ⟨hlt, -⟩ := List.getElem?_eq_some_iff.mp hn
      have hmod : n % 2 ^ 32 = n := by
        rw [hsize, maxSlotsSize] at hlt
        omega
      have hget : slotGet (slots.set n (some (table.subobject base (table.type .kobject)))) n =
          table.subobject base (table.type .kobject) := by
        unfold slotGet
        rw [hmod, List.length_set, if_pos hlt, List.getD_eq_getElem?_getD,
          List.getElem?_set_self hlt]
        rfl
      rw [hget, dynamicCast_eq hheads hmem hfuel, if_pos (table.mem_chain_self _)]
    · refine iff_of_false ?_ fun hne => hmem ((kobject_mem_chain hc).mpr hne)
      rintro ⟨n, slots', hcall, -⟩
      cases hpanic.symm.trans hcall
  · rintro rfl tables self processSlot fill hself hfill r
    exact sysThreadCreate_ne_ok hkeep hfill hfuel hself r

/-- The kernel classes in the order of `KernelClass`, with objects of eight bytes. -/
def linkedClasses : ClassTable where
  parent t := if 2 ≤ t ∧ t ≤ 6 then 1 else 0
  root := 0
  rooted t := ⟨2, by
    show (if 2 ≤ (if 2 ≤ t ∧ t ≤ 6 then (1 : TypeIndex) else 0) ∧ _ then (1 : TypeIndex) else 0) = 0
    split_ifs <;> simp_all⟩
  size _ := 8
  initObj _ := 0
  construct _ _ m := m

/-- The number of a class. -/
def linkedType : KernelClass → TypeIndex
  | .object => 0
  | .kobject => 1
  | .process => 2
  | .vmspace => 3
  | .vmobject => 4
  | .timer => 5
  | .ipcConnection => 6
  | .thread => 7

theorem blockSize_linkedClasses (t : TypeIndex) : linkedClasses.blockSize t ≤ 48 := by
  have hroot : linkedClasses.blockSize 0 = 16 := ClassTable.blockSize_root
  have hchild : ∀ t, linkedClasses.parent t = 0 → linkedClasses.blockSize t ≤ 32 := by
    intro t ht
    by_cases h : t = 0
    · rw [h, hroot]
      decide
    · rw [ClassTable.blockSize_of_ne h, ht, hroot]
      exact le_refl 32
  by_cases ht : 2 ≤ t ∧ t ≤ 6
  · have hne : t ≠ linkedClasses.root := by
      rintro rfl
      exact absurd ht.1 (by decide)
    have hparent : linkedClasses.parent t = 1 := if_pos ht
    have hle := hchild 1 rfl
    rw [ClassTable.blockSize_of_ne hne, hparent]
    show linkedClasses.blockSize 1 + 8 + 8 ≤ 48
    omega
  · exact (hchild t (if_neg ht)).trans (by decide)

/-- A table of the kernel classes. -/
def linkedTable : KernelTable where
  toClassTable := linkedClasses
  type := linkedType
  type_injective := by
    intro a b h
    cases a <;> cases b <;> first | rfl | exact absurd h (by decide)
  type_object := rfl
  parent_type := by
    intro c hc
    cases c <;> first | exact absurd rfl hc | rfl
  fits c := (blockSize_linkedClasses _).trans_lt (by decide)

/-- The theorem applies to a process in a table with free slots. -/
theorem givesBack_iff_process :
    linkedTable.GivesBack .process 0x100 (fun _ => 0) (List.replicate 64 none)
      (linkedTable.depth (linkedTable.type .process) + 1) :=
  (givesBack_iff linkedTable rfl (fun _ _ _ _ _ => rfl) (by decide) rfl (Nat.lt_succ_self _)
    fun _ => 0).1.mpr (by decide)

/-- The assertion of `slot_alloc_install` fails for a new thread. -/
theorem slotAllocInstall_thread :
    linkedTable.slotAllocInstall (linkedTable.depth (linkedTable.type .thread) + 1)
      (linkedTable.newClassObject (linkedTable.type .thread) 0x100 fun _ => 0).2
      (List.replicate 64 none)
      (linkedTable.newClassObject (linkedTable.type .thread) 0x100 fun _ => 0).1 =
        .error .panic := by
  have hkeep : linkedTable.KeepsHeads (linkedTable.type .thread) 0x100 := fun _ _ _ _ _ => rfl
  obtain ⟨hobj, hheads⟩ :=
    ClassTable.newClassObject_spec (linkedTable.fits .thread) hkeep fun _ => 0
  rw [hobj]
  have hfree : none ∈ List.replicate 64 (none : Option ℕ) := by decide
  rcases slotAllocInstall_eq hheads (Nat.lt_succ_self _) hfree with ⟨hmem, -⟩ | ⟨-, hpanic⟩
  · exact absurd rfl ((kobject_mem_chain rfl).mp hmem)
  · exact hpanic

end KernelTable

end Ginkgo.Core
