import Ginkgo.Core.Vmo

/-!
# Slot tables in the kernel

What `slot_copy` does to the slot tables of all processes: it fills one free slot of one table.

## Main results

* `slotCopy_spec` — the outcomes of `slot_copy`.
* `Kernel.Grown.install` — installing an object adds to a table.
-/

namespace Ginkgo.Core

/-- What the slot `s` of the process `p` holds. -/
def Kernel.slot (k : Kernel) (p s : ℕ) : Option (Option Kobject) := (k.process p).slots[s]?

/-- The slot `s` of the process `p` holds an object. -/
def Kernel.Occupied (k : Kernel) (p s : ℕ) : Prop := ∃ obj, k.slot p s = some (some obj)

/-- The number of free slots of the process `p`. -/
def Kernel.room (k : Kernel) (p : ℕ) : ℕ := (k.process p).room

/-- The tables have the size that the constructor of `process_t` gives them. -/
def Kernel.Sized (k : Kernel) : Prop := ∀ p, (k.process p).slots.length = maxSlotsSize

/-- The kernel with an object in the slot `s` of the process `p`. -/
def Kernel.install (k : Kernel) (p s : ℕ) (obj : Kobject) : Kernel :=
  { k with process := Function.update k.process p (slotInstall (k.process p) s obj) }

variable {k k₀ k' : Kernel} {p q s n src dest slot : ℕ} {obj : Kobject}

theorem Kernel.process_install_self (k : Kernel) (p s : ℕ) (obj : Kobject) :
    (k.install p s obj).process p = slotInstall (k.process p) s obj :=
  Function.update_self _ _ _

theorem Kernel.process_install_of_ne (h : q ≠ p) :
    (k.install p s obj).process q = k.process q :=
  Function.update_of_ne h _ _

theorem Kernel.slot_install_of_ne (h : q ≠ p) : (k.install p n obj).slot q s = k.slot q s := by
  rw [Kernel.slot, Kernel.process_install_of_ne h, Kernel.slot]

theorem Kernel.slot_install_of_slot_ne (h : s ≠ n) :
    (k.install p n obj).slot q s = k.slot q s := by
  by_cases hq : q = p
  · rw [Kernel.slot, hq, Kernel.process_install_self, slotInstall, List.getElem?_set_ne h.symm,
      Kernel.slot]
  · exact Kernel.slot_install_of_ne hq

theorem Kernel.slot_install_self (h : k.slot p n = some none) :
    (k.install p n obj).slot p n = some (some obj) := by
  rw [Kernel.slot, Kernel.process_install_self]
  exact List.getElem?_set_self (List.getElem?_eq_some_iff.mp h).1

theorem Kernel.room_install (h : k.slot p n = some none) (obj : Kobject) :
    (k.install p n obj).room p + 1 = k.room p := by
  rw [Kernel.room, Kernel.process_install_self]
  exact room_slotInstall h obj

theorem Kernel.room_install_of_ne (h : q ≠ p) : (k.install p n obj).room q = k.room q := by
  rw [Kernel.room, Kernel.process_install_of_ne h, Kernel.room]

theorem Kernel.Sized.install (h : k.Sized) : (k.install p n obj).Sized := by
  intro q
  by_cases hq : q = p
  · rw [hq, Kernel.process_install_self, slotInstall, List.length_set]
    exact h p
  · rw [Kernel.process_install_of_ne hq]
    exact h q

theorem Kernel.Sized.lt (h : k.Sized) {x : Option Kobject} (hs : k.slot p s = some x) :
    s < maxSlotsSize := by
  rw [← h p]
  exact (List.getElem?_eq_some_iff.mp hs).1

theorem Kernel.Sized.occupied (h : k.Sized) (hroom : k.room p = 0) (hs : s < maxSlotsSize) :
    k.Occupied p s := by
  have hlt : s < (k.process p).slots.length := by rwa [h p]
  cases hget : (k.process p).slots[s] with
  | none =>
    refine absurd (List.mem_of_getElem hget) ?_
    exact Process.full_iff.mpr hroom
  | some obj => exact ⟨obj, List.getElem?_eq_some_iff.mpr ⟨hlt, hget⟩⟩

/-- **The outcomes of `slot_copy`**: there is no object, which is an assertion that fails; the table
is full; or the object is installed in a free slot. -/
theorem slotCopy_spec (k : Kernel) (src dest slot : ℕ) :
    (¬ k.Occupied src (slot % 2 ^ 32) ∧ slotCopy k src dest slot = .error .panic) ∨
      ∃ obj, k.slot src (slot % 2 ^ 32) = some (some obj) ∧
        ((k.room dest = 0 ∧ slotCopy k src dest slot = .ok (-1, k)) ∨
          ∃ n : ℕ, k.slot dest n = some none ∧
            slotCopy k src dest slot = .ok ((n : ℤ), k.install dest n obj)) := by
  unfold slotCopy
  cases hget : slotGet (k.process src) slot with
  | none =>
    refine Or.inl ⟨fun ⟨obj, hobj⟩ => ?_, rfl⟩
    rw [slotGet_eq_some.mpr hobj] at hget
    cases hget
  | some obj =>
    refine Or.inr ⟨obj, slotGet_eq_some.mp hget, ?_⟩
    rcases slotAllocInstall_spec (k.process dest) obj with ⟨hroom, hinstall⟩ | ⟨n, hn, hinstall⟩
    · refine Or.inl ⟨hroom, ?_⟩
      simp only [hinstall, Function.update_eq_self]
    · refine Or.inr ⟨n, hn, ?_⟩
      simp only [hinstall]
      rfl

/-- Objects have been added to the table of the process `p`. -/
structure Kernel.Grown (p : ℕ) (k₀ k : Kernel) : Prop where
  sized : k.Sized
  other : ∀ q s, q ≠ p → k.slot q s = k₀.slot q s
  kept : ∀ s obj, k₀.slot p s = some (some obj) → k.slot p s = some (some obj)
  free : ∀ s, k.slot p s = some none → k₀.slot p s = some none

theorem Kernel.Grown.refl (h : k.Sized) : Kernel.Grown p k k :=
  ⟨h, fun _ _ _ => rfl, fun _ _ h => h, fun _ h => h⟩

/-- **Installing an object adds to a table.** -/
theorem Kernel.Grown.install (h : Kernel.Grown p k₀ k) (hn : k.slot p n = some none) :
    Kernel.Grown p k₀ (k.install p n obj) where
  sized := h.sized.install
  other q s hq := (Kernel.slot_install_of_ne hq).trans (h.other q s hq)
  kept s obj' hs := by
    have hk := h.kept s obj' hs
    have hne : s ≠ n := by
      rintro rfl
      rw [hn] at hk
      cases hk
    exact (Kernel.slot_install_of_slot_ne hne).trans hk
  free s hs := by
    refine h.free s ?_
    by_cases hne : s = n
    · rw [hne, Kernel.slot_install_self hn] at hs
      cases hs
    · rwa [Kernel.slot_install_of_slot_ne hne] at hs

theorem Kernel.Grown.keeps (h : Kernel.Grown p k₀ k) (hq : k₀.slot q s = some (some obj)) :
    k.slot q s = some (some obj) := by
  by_cases hp : q = p
  · subst hp
    exact h.kept s obj hq
  · rw [h.other q s hp, hq]

end Ginkgo.Core
