import Mathlib.Data.List.Pairwise
import Ginkgo.Core.Vmspace

/-!
# Runs of an address space

The calls that map and unmap regions of one address space, in any order, from the empty list that
the constructor leaves.  A region is refused only if its first or its last address is in a region of
the list, so a region that encloses another one is added; regions that are freed stay on the list.

## Main results

* `spaceRuns_disjoint` — runs of such calls keep the regions disjoint.
-/

namespace Ginkgo.Core

open Arch

/-- The memory and the address space. -/
structure SpaceState where
  m : Memory
  space : Vmspace

/-- The calls; `answer` is what `malloc` returns. -/
inductive SpaceCall
  | mapUser (answer va len prot vmo : ℕ)
  | mapKernel (answer va len prot vmo : ℕ)
  | unmap (va len : ℕ)

/-- The effect of a call. -/
def SpaceState.step (st : SpaceState) : SpaceCall → Except Fault SpaceState
  | .mapUser answer va len prot vmo =>
    (vmspaceMapRangeUser st.m st.space answer va len prot vmo).map fun y => ⟨y.2.1, y.2.2⟩
  | .mapKernel answer va len prot vmo =>
    (vmspaceMapRangeKernel st.m st.space answer va len prot vmo).map fun y => ⟨y.2.1, y.2.2⟩
  | .unmap va len => (vmspaceUnmapRange st.m st.space va len).map fun y => ⟨y.2.1, y.2.2⟩

/-- The runs of an address space. -/
def spaceRuns : Lts.System SpaceState SpaceCall Fault where
  init st := st.space.vmrList = []
  step := SpaceState.step

/-- `find_vmr_for_va` can return the region for the address. -/
def Memory.Answers (m : Memory) (p addr : ℕ) : Prop :=
  ∃ r ∈ m.vmr p, r.start ≤ addr ∧ addr < wrap64 (r.start + r.size)

/-- Two regions, given by their addresses, share no address. -/
def Memory.Apart (m : Memory) (p q : ℕ) : Prop :=
  ∀ r r', m.vmr p = some r → m.vmr q = some r' → ¬ r.Intersects r'

/-- The regions of the list are pairwise disjoint, and every address has at most one. -/
structure SpaceState.Disjoint (st : SpaceState) : Prop where
  apart : st.space.vmrList.Pairwise st.m.Apart
  answer : ∀ addr, ∀ p ∈ st.space.vmrList, ∀ q ∈ st.space.vmrList, st.m.Answers p addr →
    st.m.Answers q addr → p = q

/-- A new region is at an address that is free, ends below the last address, and has no region of
the list inside. -/
def SpaceState.Admits (st : SpaceState) (answer va len : ℕ) : Prop :=
  answer ≠ 0 → st.m.vmr answer = none ∧ pgRoundUp va + max len pgSize < 2 ^ 64 ∧
    ∀ p ∈ st.space.vmrList, ∀ r ∈ st.m.vmr p,
      ¬ (pgRoundUp va < r.start ∧ r.start + r.size < pgRoundUp va + max len pgSize)

/-- A call that encloses no region and reaches no end of the addresses, or that unmaps nothing. -/
def SpaceState.Plain (st : SpaceState) : SpaceCall → Prop
  | .mapUser answer va len _ _ | .mapKernel answer va len _ _ => st.Admits answer va len
  | .unmap va _ => ∀ p ∈ st.space.vmrList, ¬ st.m.Answers p va

instance (m : Memory) (p addr : ℕ) : Decidable (m.Answers p addr) := by
  unfold Memory.Answers
  infer_instance

instance (st : SpaceState) (answer va len : ℕ) : Decidable (st.Admits answer va len) := by
  unfold SpaceState.Admits
  infer_instance

instance (st : SpaceState) (c : SpaceCall) : Decidable (st.Plain c) := by
  cases c <;> unfold SpaceState.Plain <;> infer_instance

/-- What every such call preserves. -/
structure SpaceState.Inv (st : SpaceState) : Prop where
  ends : ∀ p ∈ st.space.vmrList, ∃ r, st.m.vmr p = some r ∧ r.start + r.size < 2 ^ 64
  apart : st.space.vmrList.Pairwise st.m.Apart

section

variable {st st' : SpaceState} {m : Memory} {r r' new : Vmregion} {answer va len flags vmo x : ℕ}

theorem Vmregion.covers_iff (h : r.start + r.size < 2 ^ 64) :
    r.Covers x ↔ r.start ≤ x ∧ x < r.start + r.size := by
  constructor
  · intro ⟨i, hi, hx⟩
    rw [wrap64_of_lt (by omega)] at hx
    omega
  · intro hx
    exact ⟨x - r.start, by omega, by rw [wrap64_of_lt (by omega)]; omega⟩

theorem Vmregion.not_intersects (hr : r.start + r.size < 2 ^ 64)
    (hnew : new.start + new.size < 2 ^ 64) (hhit : ¬ r.Hits new)
    (hencl : ¬ (new.start < r.start ∧ r.start + r.size < new.start + new.size)) :
    ¬ new.Intersects r := by
  intro ⟨x, hx, hx'⟩
  rw [covers_iff hnew] at hx
  rw [covers_iff hr] at hx'
  apply hhit
  have hlast : sub64 (new.start + new.size) 1 = new.start + new.size - 1 :=
    sub64_of_le (by omega) hnew
  simp only [Vmregion.Hits, wrap64_of_lt hr, wrap64_of_lt hnew, hlast]
  omega

instance (m : Memory) : Std.Symm m.Apart where
  symm _ _ h r r' hr hr' := fun ⟨x, hx, hx'⟩ => h r' r hr' hr ⟨x, hx', hx⟩

theorem SpaceState.Inv.live (h : st.Inv) : st.space.Live st.m := by
  intro p hp
  obtain ⟨r, hr, hend⟩ := h.ends p hp
  exact ⟨r, hr, by omega, by omega⟩

theorem SpaceState.Inv.disjoint (h : st.Inv) : st.Disjoint := by
  refine ⟨h.apart, ?_⟩
  intro addr p hp q hq hanswer hanswer'
  by_contra hne
  obtain ⟨r, hr, hlo, hhi⟩ := hanswer
  obtain ⟨r', hr', hlo', hhi'⟩ := hanswer'
  obtain ⟨_, hr₁, hword⟩ := h.live p hp
  obtain ⟨_, hr₂, hword'⟩ := h.live q hq
  rw [hr] at hr₁
  rw [hr'] at hr₂
  cases hr₁
  cases hr₂
  have hcovers := Vmregion.covers_of_bounds hword hlo hhi
  have hcovers' := Vmregion.covers_of_bounds hword' hlo' hhi'
  exact h.apart.forall hp hq hne r r' hr hr' ⟨addr, hcovers, hcovers'⟩

theorem SpaceState.Inv.congr (h : st.Inv) (hlist : st'.space.vmrList = st.space.vmrList)
    (hsame : ∀ p ∈ st.space.vmrList, st'.m.vmr p = st.m.vmr p) : st'.Inv := by
  constructor
  · intro p hp
    rw [hlist] at hp
    rw [hsame p hp]
    exact h.ends p hp
  · rw [hlist]
    refine h.apart.imp_of_mem ?_
    intro p q hp hq hpq r r' hr hr'
    rw [hsame p hp] at hr
    rw [hsame q hq] at hr'
    exact hpq r r' hr hr'

theorem SpaceState.Inv.add (h : st.Inv) (hfresh : st.m.vmr answer = none)
    (hend : new.start + new.size < 2 ^ 64) (hhit : ¬ st.space.Hit st.m new)
    (hencl : ∀ p ∈ st.space.vmrList, ∀ r, st.m.vmr p = some r →
      ¬ (new.start < r.start ∧ r.start + r.size < new.start + new.size))
    (hlist : st'.space.vmrList = answer :: st.space.vmrList)
    (hm : st'.m.vmr = (st.m.install answer new).vmr) : st'.Inv := by
  have hsame : ∀ p ∈ st.space.vmrList, st'.m.vmr p = st.m.vmr p := by
    intro p hp
    rw [hm]
    exact h.live.install_eq hfresh hp
  have hself : st'.m.vmr answer = some new := by
    rw [hm]
    exact Function.update_self _ _ _
  have htail : Inv ⟨st'.m, st.space⟩ := h.congr rfl hsame
  constructor
  · intro p hp
    rw [hlist] at hp
    cases List.mem_cons.mp hp with
    | inl heq => exact ⟨new, heq ▸ hself, hend⟩
    | inr hp => exact htail.ends p hp
  · rw [hlist, List.pairwise_cons]
    refine ⟨?_, htail.apart⟩
    intro p hp r r' hr hr'
    rw [hself] at hr
    cases hr
    rw [hsame p hp] at hr'
    obtain ⟨r₁, hr₁, hend₁⟩ := h.ends p hp
    rw [hr'] at hr₁
    cases hr₁
    exact Vmregion.not_intersects hend₁ hend (fun hh => hhit ⟨p, hp, r', hr', hh⟩)
      (hencl p hp r' hr')

theorem newRegion_size (va len flags vmo : ℕ) :
    (newRegion va len flags vmo).size = max len pgSize := by
  show (if len < pgSize then pgSize else len) = max len pgSize
  split_ifs <;> omega

theorem SpaceState.Inv.map (h : st.Inv) (hadmits : st.Admits answer va len) {ret : ℤ}
    (hmap : archVmspaceMapRange st.m st.space answer va len flags vmo =
      .ok (ret, st'.m, st'.space)) : st'.Inv := by
  cases archVmspaceMapRange_cases h.live (fun hz => (hadmits hz).1) hmap with
  | inl hnone => exact h.congr (by rw [hnone.2.2.2]) (fun p _ => by rw [hnone.2.2.1])
  | inr hsome =>
    obtain ⟨hz, _, mmu, _, hm, hspace⟩ := hsome
    obtain ⟨hfresh, hend, hencl⟩ := hadmits hz
    rw [← newRegion_size va len flags vmo] at hend hencl
    cases hspace with
    | inl hhit =>
      refine h.congr (by rw [hhit.2]) fun p hp => ?_
      rw [hm]
      exact h.live.install_eq hfresh hp
    | inr hadd =>
      exact h.add hfresh hend hadd.1 hencl (by rw [hadd.2]) (by rw [hm])

theorem map_eq_ok_state {call : Except Fault (ℤ × Memory × Vmspace)}
    (h : (call.map fun y => (⟨y.2.1, y.2.2⟩ : SpaceState)) = .ok st') :
    ∃ ret, call = .ok (ret, st'.m, st'.space) := by
  cases call with
  | error e => cases h
  | ok y =>
    cases h
    exact ⟨y.1, rfl⟩

theorem findVmrForVa_answers {ps : List ℕ} {p : ℕ} (h : findVmrForVa m va ps = .ok (some p)) :
    m.Answers p va := by
  induction ps with
  | nil => cases h
  | cons q ps ih =>
    rw [findVmrForVa] at h
    obtain ⟨r, hr, h⟩ := Fallible.bind_eq_ok.mp h
    simp only at h
    split_ifs at h with hin
    · cases h
      exact ⟨r, region_eq_ok.mp hr, hin⟩
    · exact ih h

theorem SpaceState.Inv.step {c : SpaceCall} (h : st.Inv) (hplain : st.Plain c)
    (hstep : st.step c = .ok st') : st'.Inv := by
  cases c with
  | mapUser answer va len prot vmo =>
    obtain ⟨ret, hcall⟩ := map_eq_ok_state hstep
    obtain ⟨_, _, hcall⟩ := Fallible.bind_eq_ok.mp hcall
    exact h.map hplain hcall
  | mapKernel answer va len prot vmo =>
    obtain ⟨ret, hcall⟩ := map_eq_ok_state hstep
    obtain ⟨_, _, hcall⟩ := Fallible.bind_eq_ok.mp hcall
    exact h.map hplain hcall
  | unmap va len =>
    obtain ⟨ret, hcall⟩ := map_eq_ok_state hstep
    obtain ⟨hspace, _, hdone⟩ := vmspaceUnmapRange_ok h.live hcall
    refine h.congr (by rw [hspace]) ?_
    cases hdone with
    | inl hm => exact fun p _ => by rw [hm]
    | inr hfound =>
      obtain ⟨p, _, hfind, _⟩ := hfound
      exact absurd (findVmrForVa_answers hfind) (hplain p (findVmrForVa_mem hfind))

end

/-- **The regions of an address space stay disjoint** in every run whose mappings enclose no region
and end below the last address, and whose unmappings find none. -/
theorem spaceRuns_disjoint (st : SpaceState)
    (hr : spaceRuns.ReachableVia SpaceState.Plain st) : st.Disjoint := by
  apply SpaceState.Inv.disjoint
  apply hr.invariant (I := SpaceState.Inv)
  · intro st hst
    have hempty : st.space.vmrList = [] := hst
    constructor
    · rw [hempty]
      exact fun p hp => absurd hp List.not_mem_nil
    · rw [hempty]
      exact List.Pairwise.nil
  · intro st c st' h hplain hstep
    exact h.step hplain hstep

/-- Memory objects that are not mapped at once. -/
def lazyObjects : SpaceState where
  m := ⟨emptyTable [], fun _ => none, fun _ => ⟨0, 0, .anonym⟩⟩
  space := ⟨[], 0x1000⟩

theorem spaceRuns_disjoint_twoRegions :
    ∃ st, spaceRuns.ReachableVia SpaceState.Plain st ∧
      (st.space.vmrList = [0x200, 0x100] ∧ st.m.Answers 0x200 0x5000) ∧ st.Disjoint := by
  obtain ⟨st, hr, hst⟩ := Lts.System.exists_reachableVia (M := spaceRuns) SpaceState.Plain
    (s := lazyObjects)
    (P := fun st => st.space.vmrList = [0x200, 0x100] ∧ st.m.Answers 0x200 0x5000)
    [.mapUser 0x100 0x2000 0x1000 1 0, .mapKernel 0x200 0x4800 0x2000 1 0, .unmap 0x9000 0x1000] rfl
    (by decide +kernel)
  exact ⟨st, hr, hst, spaceRuns_disjoint st hr⟩

/-- A region that encloses another one is added, and an address is then in two regions. -/
theorem spaceRuns_enclosing :
    ∃ st, spaceRuns.Reachable st ∧ st.space.vmrList = [0x200, 0x100] ∧
      st.m.Answers 0x100 0x2000 ∧ st.m.Answers 0x200 0x2000 :=
  Lts.System.exists_reachableVia (M := spaceRuns) (fun _ _ => True) (s := lazyObjects)
    (P := fun st => st.space.vmrList = [0x200, 0x100] ∧ st.m.Answers 0x100 0x2000 ∧
      st.m.Answers 0x200 0x2000)
    [.mapUser 0x100 0x2000 0x1000 1 0, .mapUser 0x200 0x1000 0x3000 1 0] rfl (by decide +kernel)

end Ginkgo.Core
