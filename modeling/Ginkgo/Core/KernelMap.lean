import Ginkgo.Core.Vmo
import Ginkgo.Mm.MemPool

/-!
# The mapping of the kernel

Every address space starts with the memory and the devices of the kernel, mapped to themselves by
`map_kernel_page`; the kernel runs on the page table of the current process.  The model of this
mapping, and of runs in which processes map memory objects beside it.

## Main results

* `Ginkgo.Core.sysVmoMap_mmu` — which page table a call changes, and where.
* `Ginkgo.Core.mapRuns_preserved` — the mapping of the kernel is kept as long as no request meets
  it.
-/

open Function (update update_self update_of_ne)

namespace Ginkgo.Arch

open Mm (kernbase phystop)

/-- `CLINT`. -/
def clint : ℕ := 0x2000000

/-- `UART0`. -/
def uart0 : ℕ := 0x10000000

/-- `VIRTIO0`. -/
def virtio0 : ℕ := 0x10001000

/-- `PLIC_ADDR`. -/
def plicAddr : ℕ := 0x0c000000

/-- The ranges that `map_kernel_page` maps to themselves, with their sizes and permissions, for
kernel code that ends at `etext`. -/
def kernelRanges (etext : ℕ) : List (ℕ × ℕ × ℕ) :=
  [(clint, 0x10000, pteR ||| pteW),
    (uart0, pgSize, pteR ||| pteW),
    (virtio0, pgSize * 8, pteR ||| pteW),
    (plicAddr, 0x400000, pteR ||| pteW),
    (kernbase, sub64 etext kernbase, pteR ||| pteX),
    (etext, sub64 phystop etext, pteR ||| pteW)]

/-- Ranges mapped to themselves one after the other; the results are not used. -/
def mapRanges (pagetable : ℕ) : List (ℕ × ℕ × ℕ) → Mmu → Except Fault Mmu
  | [], s => return s
  | (va, size, perm) :: ranges, s => do
    let (_, s) ← mapRangeInPgtbl s pagetable va va size perm
    mapRanges pagetable ranges s

/-- `map_kernel_page`. -/
def mapKernelPage (s : Mmu) (pagetable etext : ℕ) : Except Fault Mmu :=
  mapRanges pagetable (kernelRanges etext) s

variable {s s' : Mmu} {owner : ℕ → Option (Radix.Owner ℕ)} {pagetable etext : ℕ}

theorem mapRanges_ok (ranges : List (ℕ × ℕ × ℕ)) :
    ∀ (s : Mmu) (owner : ℕ → Option (Radix.Owner ℕ)), Paged s owner → IsRoot owner pagetable →
      (∀ range ∈ ranges, range.1 < 2 ^ 64) → mapRanges pagetable ranges s = .ok s' →
      ∃ owner', Paged s' owner' ∧ (∀ q o, owner q = some o → owner' q = some o) ∧
        ∀ r, IsRoot owner r → r ≠ pagetable → ∀ v < maxVa, s'.translate r v = s.translate r v := by
  induction ranges with
  | nil =>
    intro s owner hs _ _ hmap
    cases hmap
    exact ⟨owner, hs, fun _ _ h => h, fun _ _ _ _ _ => rfl⟩
  | cons range ranges ih =>
    obtain ⟨va, size, perm⟩ := range
    intro s owner hs hroot hword hmap
    obtain ⟨⟨res, s₁⟩, hrange, hmap⟩ := Fallible.bind_eq_ok.mp hmap
    have hva : va < 2 ^ 64 := hword _ List.mem_cons_self
    obtain ⟨_, _, n, hmapped, _⟩ := mapRangeInPgtbl_ok hs hroot hva hva hrange
    obtain ⟨owner₁, hs₁, howned₁⟩ := hmapped.paged
    obtain ⟨owner', hs', howned', hframe⟩ := ih s₁ owner₁ hs₁ (howned₁ _ _ hroot)
      (fun range hmem => hword range (List.mem_cons_of_mem _ hmem)) hmap
    refine ⟨owner', hs', fun q o hq => howned' q o (howned₁ q o hq), fun r hr hne v hv => ?_⟩
    rw [hframe r (howned₁ _ _ hr) hne v hv, hmapped.frame r hr hne v hv]

theorem Paged.newRoot {page : ℕ} {rest : List ℕ} (hs : Paged s owner)
    (hfree : s.free = page :: rest) :
    Paged ((⟨s.mem, rest⟩ : Mmu).clear page) (update owner page (some ⟨page, 2, 0⟩)) ∧
      ∀ r, IsRoot owner r → ∀ v < maxVa,
        ((⟨s.mem, rest⟩ : Mmu).clear page).translate r v = s.translate r v := by
  have hnodup := hs.nodup
  have hfresh := hs.fresh
  rw [hfree] at hnodup hfresh
  have hpage := (hfresh page List.mem_cons_self).1
  refine ⟨⟨hs.tree.newRoot hpage valid_zero _, (List.nodup_cons.mp hnodup).2, fun q hq => ?_⟩,
    fun r hr v hv => hs.tree.look_update hpage _ 2 r (hr.label hv)⟩
  have hne : q ≠ page := by
    intro heq
    rw [heq] at hq
    exact (List.nodup_cons.mp hnodup).1 hq
  rw [update_of_ne hne]
  exact hfresh q (List.mem_cons_of_mem page hq)

end Ginkgo.Arch

namespace Ginkgo.Core

open Arch

/-! ## The transition system -/

/-- The kernel, the address spaces that exist, and the entries that `map_kernel_page` has left in
them. -/
structure MapState where
  kernel : Kernel
  spaces : List ℕ
  installed : ℕ → ℕ → Option ℕ

/-- The constructor of `vmspace_t` for an object at `v`. -/
def newVmspace (etext : ℕ) (st : MapState) (v : ℕ) : Except Fault MapState := do
  let (pgtbl, mmu) := allocPage st.kernel.mem.mmu
  access (pgtbl ≠ 0)
  let mmu ← mapKernelPage (mmu.clear pgtbl) pgtbl etext
  return {
    kernel := { st.kernel with
      mem := { st.kernel.mem with mmu := mmu }
      vmspace := update st.kernel.vmspace v ⟨[], pgtbl⟩ }
    spaces := v :: st.spaces
    installed := update st.installed v (mmu.translate pgtbl) }

/-- A step: an address space is created, or a process maps an object. -/
inductive MapCall
  | newVmspace (v : ℕ)
  | vmoMap (caller targetProcessSlot slot addr prot answer : ℕ)

/-- The effect of a step. -/
def MapState.step (etext : ℕ) (st : MapState) : MapCall → Except Fault MapState
  | .newVmspace v => Core.newVmspace etext st v
  | .vmoMap caller targetProcessSlot slot addr prot answer =>
    (sysVmoMap st.kernel caller targetProcessSlot slot addr prot answer).map fun y =>
      { st with kernel := y.2 }

/-- The runs of a kernel whose code ends at `etext`, from a state without address spaces. -/
def mapRuns (etext : ℕ) : Lts.System MapState MapCall Fault where
  init st := st.spaces = [] ∧ (∃ owner, Paged st.kernel.mem.mmu owner) ∧
    ∀ o, (st.kernel.mem.vmo o).start < 2 ^ 64 ∧ (st.kernel.mem.vmo o).size < 2 ^ 64
  step := MapState.step etext

/-- **The mapping of the kernel is as `map_kernel_page` left it**: the address and the permissions
in the entry of every virtual address that it installed. -/
def MapState.Preserved (st : MapState) : Prop :=
  ∀ v ∈ st.spaces, ∀ x < maxVa, ∀ pte, st.installed v x = some pte →
    st.kernel.mem.mmu.translate (st.kernel.vmspace v).pgtbl x = some pte

/-- No page of the range belongs to the mapping of the kernel. -/
def MapState.Free (st : MapState) (v va size : ℕ) : Prop :=
  ∀ i < (size + pgSize - 1) / pgSize, st.installed v (va + i * pgSize) = none

instance (st : MapState) (v va size : ℕ) : Decidable (st.Free v va size) := by
  unfold MapState.Free
  infer_instance

/-- A request is for a range that does not meet the mapping of the kernel.  Address spaces are
created at new addresses, and slots hold address spaces that exist. -/
def MapState.Harmless (st : MapState) : MapCall → Prop
  | .newVmspace v => v ∉ st.spaces
  | .vmoMap caller targetProcessSlot slot addr _ _ =>
    ∀ vmo ∈ getVmobject (st.kernel.process caller) slot,
    ∀ target ∈ getProcess (st.kernel.process caller) targetProcessSlot,
    ∀ v ∈ getVmspace (st.kernel.process target) vmspaceObjId,
      v ∈ st.spaces ∧ st.Free v (pgRoundUp addr) (st.kernel.mem.vmo vmo).size

instance (st : MapState) (c : MapCall) : Decidable (st.Harmless c) := by
  cases c <;> simp only [MapState.Harmless] <;> infer_instance

section

variable {st st' : MapState} {k k' : Kernel} {r : ℤ} {etext : ℕ}
  {caller targetProcessSlot slot addr prot answer : ℕ}

/-- **Which page table a call changes, and where**: that of the target, in the range of the
object. -/
theorem sysVmoMap_mmu
    (hcall : sysVmoMap k caller targetProcessSlot slot addr prot answer = .ok (r, k')) :
    k'.mem.vmo = k.mem.vmo ∧ (∀ v, (k'.vmspace v).pgtbl = (k.vmspace v).pgtbl) ∧
      (k'.mem.mmu = k.mem.mmu ∨ ∃ vmo target v perm res,
        getVmobject (k.process caller) slot = some vmo ∧
        getProcess (k.process caller) targetProcessSlot = some target ∧
        getVmspace (k.process target) vmspaceObjId = some v ∧ 0 < (k.mem.vmo vmo).size ∧
        mapRangeInPgtbl k.mem.mmu (k.vmspace v).pgtbl (pgRoundUp addr) (k.mem.vmo vmo).start
          (k.mem.vmo vmo).size perm = .ok (res, k'.mem.mmu)) := by
  unfold sysVmoMap at hcall
  cases hvmo : getVmobject (k.process caller) slot with
  | none =>
    simp only [hvmo] at hcall
    cases hcall
    exact ⟨rfl, fun _ => rfl, Or.inl rfl⟩
  | some vmo =>
  cases htarget : getProcess (k.process caller) targetProcessSlot with
  | none =>
    simp only [hvmo, htarget] at hcall
    cases hcall
    exact ⟨rfl, fun _ => rfl, Or.inl rfl⟩
  | some target =>
  cases hspace : getVmspace (k.process target) vmspaceObjId with
  | none =>
    simp only [hvmo, htarget, hspace] at hcall
    cases hcall
  | some v =>
    simp only [hvmo, htarget, hspace] at hcall
    obtain ⟨⟨ret, mem, vmspace'⟩, hmap, hcall⟩ := Fallible.bind_eq_ok.mp hcall
    obtain ⟨_, hlen, hmap⟩ := Fallible.bind_eq_ok.mp hmap
    have hpos := kassert_eq_ok.mp hlen
    -- What follows the mapping changes a slot table only.
    have hkept : k'.mem = mem ∧ k'.vmspace = update k.vmspace v vmspace' := by
      dsimp only at hcall
      split_ifs at hcall
      · cases hcall
        exact ⟨rfl, rfl⟩
      · unfold slotCopy at hcall
        split at hcall
        · cases hcall
        · cases hcall
          exact ⟨rfl, rfl⟩
      · cases hcall
        exact ⟨rfl, rfl⟩
    have hmapped : mem.vmo = k.mem.vmo ∧ vmspace'.pgtbl = (k.vmspace v).pgtbl ∧
        (mem.mmu = k.mem.mmu ∨ ∃ perm res,
          mapRangeInPgtbl k.mem.mmu (k.vmspace v).pgtbl (pgRoundUp addr) (k.mem.vmo vmo).start
            (k.mem.vmo vmo).size perm = .ok (res, mem.mmu)) := by
      cases archVmspaceMapRange_ok hmap with
      | inl hnull =>
        obtain ⟨_, _, rfl, rfl⟩ := hnull
        exact ⟨rfl, rfl, Or.inl rfl⟩
      | inr hregion =>
        obtain ⟨_, _, hit, mmu, _, hfill, rfl, rfl⟩ := hregion
        refine ⟨rfl, by cases hit <;> rfl, ?_⟩
        cases hfill with
        | inl hdata =>
          obtain ⟨_, res, hfill⟩ := hdata
          exact Or.inr ⟨_, res, hfill⟩
        | inr hlazy => exact Or.inl hlazy.2
    obtain ⟨hobjects, hpgtbl, hmmu⟩ := hmapped
    rw [hkept.1, hkept.2]
    refine ⟨hobjects, fun w => ?_, hmmu.imp_right ?_⟩
    · by_cases hw : w = v
      · rw [hw, update_self, hpgtbl]
      · rw [update_of_ne hw]
    · intro ⟨perm, res, hfill⟩
      exact ⟨vmo, target, v, perm, res, rfl, rfl, hspace, hpos, hfill⟩

/-! ## The invariant -/

/-- The page tables are in order, each address space has one of its own, and the mapping of the
kernel is preserved. -/
structure MapState.Inv (st : MapState) : Prop where
  paged : ∃ owner, Paged st.kernel.mem.mmu owner ∧
    ∀ v ∈ st.spaces, IsRoot owner (st.kernel.vmspace v).pgtbl
  distinct : ∀ v ∈ st.spaces, ∀ w ∈ st.spaces, v ≠ w →
    (st.kernel.vmspace v).pgtbl ≠ (st.kernel.vmspace w).pgtbl
  page : ∀ v ∈ st.spaces, ∀ x y, x / pgSize = y / pgSize → st.installed v x = st.installed v y
  preserved : st.Preserved
  words : ∀ o, (st.kernel.mem.vmo o).start < 2 ^ 64 ∧ (st.kernel.mem.vmo o).size < 2 ^ 64

theorem kernelRanges_word (hetext : etext < 2 ^ 64) :
    ∀ range ∈ kernelRanges etext, range.1 < 2 ^ 64 := by
  have hconst : clint < 2 ^ 64 ∧ uart0 < 2 ^ 64 ∧ virtio0 < 2 ^ 64 ∧ plicAddr < 2 ^ 64 ∧
      Mm.kernbase < 2 ^ 64 := by decide
  simp only [kernelRanges, List.forall_mem_cons]
  exact ⟨hconst.1, hconst.2.1, hconst.2.2.1, hconst.2.2.2.1, hconst.2.2.2.2, hetext, nofun⟩

/-- **A new address space** leaves the others as they are. -/
theorem MapState.Inv.newVmspace (hinv : st.Inv) (hetext : etext < 2 ^ 64) {v : ℕ}
    (hnew : v ∉ st.spaces) (hcall : Core.newVmspace etext st v = .ok st') : st'.Inv := by
  obtain ⟨owner, hpaged, hroots⟩ := hinv.paged
  unfold Core.newVmspace at hcall
  cases hfree : st.kernel.mem.mmu.free with
  | nil =>
    simp only [allocPage, hfree] at hcall
    obtain ⟨_, hpage, _⟩ := Fallible.bind_eq_ok.mp hcall
    exact absurd rfl (access_eq_ok.mp hpage)
  | cons page rest =>
    simp only [allocPage, hfree] at hcall
    obtain ⟨_, _, hcall⟩ := Fallible.bind_eq_ok.mp hcall
    obtain ⟨mmu, hmap, hcall⟩ := Fallible.bind_eq_ok.mp hcall
    cases hcall
    obtain ⟨hcleared, hsame⟩ := hpaged.newRoot hfree
    have hpage : owner page = none :=
      (hpaged.fresh page (by rw [hfree]; exact List.mem_cons_self)).1
    have hroot : IsRoot (update owner page (some ⟨page, 2, 0⟩)) page :=
      update_self _ _ _
    obtain ⟨owner', hpaged', howned, hframe⟩ :=
      mapRanges_ok _ _ _ hcleared hroot (kernelRanges_word hetext) hmap
    have hother : ∀ w ∈ st.spaces, (st.kernel.vmspace w).pgtbl ≠ page := by
      intro w hw heq
      have := hroots w hw
      rw [heq, IsRoot, hpage] at this
      cases this
    have hkeep : ∀ w ∈ st.spaces,
        IsRoot (update owner page (some ⟨page, 2, 0⟩)) (st.kernel.vmspace w).pgtbl := by
      intro w hw
      rw [IsRoot, update_of_ne (hother w hw)]
      exact hroots w hw
    have hne : ∀ w ∈ st.spaces, w ≠ v := fun w hw heq => hnew (heq ▸ hw)
    refine ⟨⟨owner', hpaged', fun w hw => ?_⟩, fun w hw u hu hwu => ?_, fun w hw x y hxy => ?_,
      fun w hw x hx pte hpte => ?_, hinv.words⟩
    · dsimp only
      cases hw with
      | head =>
        rw [update_self]
        exact howned _ _ hroot
      | tail _ hw =>
        rw [update_of_ne (hne w hw)]
        exact howned _ _ (hkeep w hw)
    · dsimp only
      cases hw with
      | head =>
        cases hu with
        | head => exact absurd rfl hwu
        | tail _ hu =>
          rw [update_self, update_of_ne (hne u hu)]
          exact (hother u hu).symm
      | tail _ hw =>
        rw [update_of_ne (hne w hw)]
        cases hu with
        | head =>
          rw [update_self]
          exact hother w hw
        | tail _ hu =>
          rw [update_of_ne (hne u hu)]
          exact hinv.distinct w hw u hu hwu
    · dsimp only
      cases hw with
      | head =>
        rw [update_self]
        exact mmu.translate_page page hxy
      | tail _ hw =>
        rw [update_of_ne (hne w hw)]
        exact hinv.page w hw x y hxy
    · dsimp only at hpte ⊢
      cases hw with
      | head =>
        rw [update_self] at hpte ⊢
        exact hpte
      | tail _ hw =>
        rw [update_of_ne (hne w hw)] at hpte ⊢
        rw [hframe _ (hkeep w hw) (hother w hw) x hx, hsame _ (hroots w hw) x hx]
        exact hinv.preserved w hw x hx pte hpte

theorem MapState.Inv.installed_of_free (hinv : st.Inv) {v va size x : ℕ} (hv : v ∈ st.spaces)
    (hva : va % pgSize = 0) (hfree : st.Free v va size) (hlo : va ≤ x) (hhi : x < va + size) :
    st.installed v x = none := by
  have hpage : x / pgSize = (va + (x - va) / pgSize * pgSize) / pgSize := by
    unfold pgSize at *
    omega
  rw [hinv.page v hv _ _ hpage]
  refine hfree _ ?_
  unfold pgSize
  omega

theorem MapState.Inv.vmoMap (hinv : st.Inv)
    (hharmless : st.Harmless (.vmoMap caller targetProcessSlot slot addr prot answer))
    (hcall : sysVmoMap st.kernel caller targetProcessSlot slot addr prot answer = .ok (r, k')) :
    MapState.Inv { st with kernel := k' } := by
  obtain ⟨owner, hpaged, hroots⟩ := hinv.paged
  obtain ⟨hobjects, hpgtbl, hmmu⟩ := sysVmoMap_mmu hcall
  have hwords : ∀ o, (k'.mem.vmo o).start < 2 ^ 64 ∧ (k'.mem.vmo o).size < 2 ^ 64 := by
    rw [hobjects]
    exact hinv.words
  -- It is enough to know the new page tables.
  suffices h : (∃ owner', Paged k'.mem.mmu owner' ∧ ∀ q o, owner q = some o → owner' q = some o) ∧
      ∀ v ∈ st.spaces, ∀ x < maxVa, ∀ pte, st.installed v x = some pte →
        k'.mem.mmu.translate (st.kernel.vmspace v).pgtbl x =
          st.kernel.mem.mmu.translate (st.kernel.vmspace v).pgtbl x by
    obtain ⟨⟨owner', hpaged', howned⟩, hsame⟩ := h
    refine ⟨⟨owner', hpaged', fun v hv => ?_⟩, fun v hv w hw hne => ?_, hinv.page,
      fun v hv x hx pte hpte => ?_, hwords⟩
    · rw [hpgtbl]
      exact howned _ _ (hroots v hv)
    · rw [hpgtbl, hpgtbl]
      exact hinv.distinct v hv w hw hne
    · rw [hpgtbl, hsame v hv x hx pte hpte]
      exact hinv.preserved v hv x hx pte hpte
  cases hmmu with
  | inl hsame =>
    rw [hsame]
    exact ⟨⟨owner, hpaged, fun _ _ h => h⟩, fun _ _ _ _ _ _ => rfl⟩
  | inr hmap =>
    obtain ⟨vmo, target, v, perm, res, hvmo, htarget, hspace, hpos, hmap⟩ := hmap
    obtain ⟨hv, hfree⟩ := hharmless vmo hvmo target htarget v hspace
    have hva : pgRoundUp addr < 2 ^ 64 := lt_of_le_of_lt Nat.and_le_left (wrap64_lt _)
    obtain ⟨halign, _⟩ := mapRangeInPgtbl_ok hpaged (hroots v hv) hva (hinv.words vmo).1 hmap
    obtain ⟨n, hmapped, hle⟩ := mapRangeInPgtbl_within hpaged (hroots v hv) hva
      (hinv.words vmo).1 (hinv.words vmo).2 hpos hmap
    refine ⟨hmapped.paged, fun w hw x hx pte hpte => ?_⟩
    by_cases hwv : w = v
    · subst hwv
      rw [hmapped.translate_eq x hx, mapPages, if_neg]
      rintro ⟨hlo, hhi⟩
      rw [hinv.installed_of_free hv halign hfree hlo (by omega)] at hpte
      cases hpte
    · exact hmapped.frame _ (hroots w hw) (hinv.distinct w hw v hv hwv) x hx

theorem MapState.Inv.step (hinv : st.Inv) (hetext : etext < 2 ^ 64) {c : MapCall}
    (hharmless : st.Harmless c) (hstep : st.step etext c = .ok st') : st'.Inv := by
  cases c with
  | newVmspace v => exact hinv.newVmspace hetext hharmless hstep
  | vmoMap caller targetProcessSlot slot addr prot answer =>
    obtain ⟨⟨r, k'⟩, hcall, rfl⟩ := Fallible.map_eq_ok.mp hstep
    exact hinv.vmoMap hharmless hcall

end

/-- **The mapping of the kernel is preserved in every run** in which no request meets it. -/
theorem mapRuns_preserved (etext : ℕ) (hetext : etext < 2 ^ 64) (st : MapState)
    (hr : (mapRuns etext).ReachableVia MapState.Harmless st) : st.Preserved := by
  refine (hr.invariant (I := MapState.Inv) ?_ ?_).preserved
  · rintro st ⟨hspaces, ⟨owner, hpaged⟩, hwords⟩
    refine ⟨⟨owner, hpaged, ?_⟩, ?_, ?_, ?_, hwords⟩
    · simp [hspaces]
    · simp [hspaces]
    · simp [hspaces]
    · simp [MapState.Preserved, hspaces]
  · intro st c st' hinv hharmless hstep
    exact hinv.step hetext hharmless hstep

/-- One process, whose address space is `0`, with an object of one page; there are three pages for
page tables. -/
def oneObject : MapState where
  kernel := { oneProcess with
    mem := { oneRegion with mmu := emptyTable [0x1000, 0x2000, 0x3000] } }
  spaces := []
  installed := fun _ _ => none

theorem oneObject_init (etext : ℕ) : (mapRuns etext).init oneObject := by
  have hpaged : Paged (emptyTable [0x1000, 0x2000, 0x3000]) fun _ => none := by
    refine ⟨?_, by decide, by decide⟩
    intro p r L l howner
    cases howner
  have hobject : 0x8000 < 2 ^ 64 ∧ 0x1000 < 2 ^ 64 := by decide
  exact ⟨rfl, ⟨_, hpaged⟩, fun _ => hobject⟩

/-- The theorem applies to a process that maps its object behind the registers of the `CLINT`. -/
theorem mapRuns_preserved_behindClint :
    ∃ st, (mapRuns 0x80001000).ReachableVia MapState.Harmless st ∧
      (st.installed 0 0x2000000 = some (mapEntry 0x2000000 (pteR ||| pteW)) ∧
        (st.kernel.vmspace 0).vmrList = [0x200]) ∧ st.Preserved := by
  obtain ⟨st, hr, hst⟩ := Lts.System.exists_reachableVia (M := mapRuns 0x80001000)
    MapState.Harmless (s := oneObject)
    (P := fun st => st.installed 0 0x2000000 = some (mapEntry 0x2000000 (pteR ||| pteW)) ∧
      (st.kernel.vmspace 0).vmrList = [0x200])
    [.newVmspace 0, .vmoMap 0 0 2 0x2010000 3 0x200] (oneObject_init _) (by decide +kernel)
  exact ⟨st, hr, hst, mapRuns_preserved _ (by decide) st hr⟩

/-- A process maps its object over the registers of the `CLINT`: their page is remapped to the
object, and accessible for the process. -/
theorem mapRuns_clint :
    ∃ st, (mapRuns 0x80001000).Reachable st ∧ 0 ∈ st.spaces ∧
      st.installed 0 0x2000000 = some (mapEntry 0x2000000 (pteR ||| pteW)) ∧
      st.kernel.mem.mmu.translate (st.kernel.vmspace 0).pgtbl 0x2000000 =
        some (mapEntry 0x8000 (pteX ||| pteW ||| pteR ||| pteU)) :=
  Lts.System.exists_reachableVia (M := mapRuns 0x80001000) (fun _ _ => True) (s := oneObject)
    (P := fun st => 0 ∈ st.spaces ∧
      st.installed 0 0x2000000 = some (mapEntry 0x2000000 (pteR ||| pteW)) ∧
      st.kernel.mem.mmu.translate (st.kernel.vmspace 0).pgtbl 0x2000000 =
        some (mapEntry 0x8000 (pteX ||| pteW ||| pteR ||| pteU)))
    [.newVmspace 0, .vmoMap 0 0 2 0x2000000 3 0x200] (oneObject_init _) (by decide +kernel)

end Ginkgo.Core
