import Ginkgo.Lib.Lts
import Ginkgo.Mm.BuddyCreate

/-!
# Runs of the buddy system

The buddy system as a transition system.  A run starts with `buddy_create`; its calls are
`buddy_alloc_page` and `buddy_free_page` of a block that is allocated at the time.

## Main results

* `buddyRuns_wellFormed` — the representations agree in every state of every run.
* `buddyRuns_coalesced` — free memory is coalesced in every state of every run.
* `buddyRuns_available` — when an allocation succeeds.
* `buddyRuns_ordered` — the orders stay within the tables in every state of every run.
-/

namespace Ginkgo.Mm

open Dyadic Dyadic.Block

/-! ## Ownership -/

/-- The block of the allocation `e`, an address and a page count: the next power of two pages
from the address on. -/
def liveBlock (s : BuddySystem) (e : ℕ × ℕ) : Block :=
  around (Nat.clog 2 e.2) ((e.1 - s.pageStart) / pageSize)

/-- The clients of a buddy system own the allocations `E`. -/
structure Owned (n : ℕ) (old : ℕ → Page) (E : Set (ℕ × ℕ)) (s : BuddySystem) : Prop where
  sound : Sound n old { b | ∃ e ∈ E, liveBlock s e = b } s
  head : ∀ e ∈ E, e.1 = pageToPtr s (liveBlock s e).start
  distinct : ∀ d ∈ E, ∀ e ∈ E, d.1 = e.1 → d = e

/-- An address of a block of `2 ^ ⌈log₂ count⌉` free pages. -/
def FreshBlock (s : BuddySystem) (count ptr : ℕ) : Prop :=
  ptr % pageSize = 0 ∧ ∃ c : Block, c.order = Nat.clog 2 count ∧
    ptr = s.pageStart + c.start * pageSize ∧ ∀ p ∈ c, ∃ b ∈ freeBlocks s, p ∈ b

variable {n : ℕ} {old : ℕ → Page} {E : Set (ℕ × ℕ)} {s s' : BuddySystem}

theorem liveBlock_congr (h : s'.pageStart = s.pageStart) (e : ℕ × ℕ) :
    liveBlock s' e = liveBlock s e := by
  rw [liveBlock, h, liveBlock]

theorem pageToPtr_congr (h : s'.pageStart = s.pageStart) (p : ℕ) :
    pageToPtr s' p = pageToPtr s p := by
  rw [pageToPtr, h, pageToPtr]

namespace Owned

private theorem mem_used (s : BuddySystem) {e : ℕ × ℕ} (he : e ∈ E) :
    liveBlock s e ∈ freeBlocks s ∪ { b | ∃ e ∈ E, liveBlock s e = b } :=
  Or.inr ⟨e, he, rfl⟩

section

variable (h : Owned n old E s)

include h

theorem address {e : ℕ × ℕ} (he : e ∈ E) :
    e.1 = s.pageStart + (liveBlock s e).start * pageSize := by
  rw [← h.sound.pageToPtr_eq (mem_used s he)]
  exact h.head e he

theorem placed {e : ℕ × ℕ} (he : e ∈ E) : Placed n s.pageStart :=
  h.sound.placed (Nat.zero_lt_of_lt (h.sound.inv.part.start_lt (mem_used s he)))

theorem range {e : ℕ × ℕ} (he : e ∈ E) :
    pageSize ∣ e.1 ∧ s.pageStart ≤ e.1 ∧
      e.1 + 2 ^ Nat.clog 2 e.2 * pageSize ≤ s.pageStart + n * pageSize := by
  have haddr := h.address he
  have hbound := h.sound.inv.part.bound _ (mem_used s he)
  have hmul := Nat.mul_le_mul_right pageSize hbound
  rw [stop_eq, Nat.add_mul] at hmul
  have hord : (liveBlock s e).order = Nat.clog 2 e.2 := rfl
  rw [hord] at hmul
  refine ⟨?_, by omega, by omega⟩
  rw [haddr]
  exact Nat.dvd_add (h.placed he).aligned (Nat.dvd_mul_left _ _)

theorem apart {d e : ℕ × ℕ} (hd : d ∈ E) (he : e ∈ E) (hne : d.1 ≠ e.1) :
    d.1 + 2 ^ Nat.clog 2 d.2 * pageSize ≤ e.1 ∨ e.1 + 2 ^ Nat.clog 2 e.2 * pageSize ≤ d.1 := by
  have hb : liveBlock s d ≠ liveBlock s e := fun hb => hne (by rw [h.head d hd, h.head e he, hb])
  have hda := h.address hd
  have hea := h.address he
  have hdo : (liveBlock s d).order = Nat.clog 2 d.2 := rfl
  have heo : (liveBlock s e).order = Nat.clog 2 e.2 := rfl
  rcases h.sound.inv.part.apart (mem_used s hd) (mem_used s he) hb with hle | hle
  · have hmul := Nat.mul_le_mul_right pageSize hle
    rw [stop_eq, Nat.add_mul, hdo] at hmul
    omega
  · have hmul := Nat.mul_le_mul_right pageSize hle
    rw [stop_eq, Nat.add_mul, heo] at hmul
    omega

theorem alloc {count : ℕ} (h0 : count ≠ 0) (hle : count ≤ 2 ^ maxOrder) :
    (buddyAllocPage s count = .ok (none, s) ∧ ∀ b ∈ freeBlocks s, b.order < Nat.clog 2 count) ∨
      ∃ ptr s', buddyAllocPage s count = .ok (some ptr, s') ∧
        (∃ b ∈ freeBlocks s, Nat.clog 2 count ≤ b.order) ∧ FreshBlock s count ptr ∧
        (∀ e ∈ E, e.1 ≠ ptr) ∧ Owned n old (insert (ptr, count) E) s' ∧
        s'.pageStart = s.pageStart := by
  rcases h.sound.alloc h0 hle with hnone | ⟨s', b, c, hsome, hb, ho, hcU, hsub, hsound, hps⟩
  · exact Or.inl hnone
  right
  have haddr : pageToPtr s c.start = s.pageStart + c.start * pageSize := by
    rw [← pageToPtr_congr hps, hsound.pageToPtr_eq (Or.inr (Or.inl rfl)), hps]
  have hc : liveBlock s (pageToPtr s c.start, count) = c := by
    rw [liveBlock, haddr, Nat.add_sub_cancel_left,
      Nat.mul_div_cancel _ (by decide), ← ho]
    exact (eq_around c.start_mem).symm
  have hplaced := h.sound.placed (Nat.zero_lt_of_lt (h.sound.inv.part.start_lt (Or.inl hb)))
  have hfresh : FreshBlock s count (pageToPtr s c.start) := by
    rw [haddr]
    exact ⟨Nat.mod_eq_zero_of_dvd (Nat.dvd_add hplaced.aligned (Nat.dvd_mul_left _ _)), c, ho, rfl,
      fun p hp => ⟨b, hb, hsub p hp⟩⟩
  have hnew : ∀ e ∈ E, e.1 ≠ pageToPtr s c.start := by
    intro e he hptr
    rw [haddr, h.address he] at hptr
    have hstart : (liveBlock s e).start = c.start :=
      Nat.eq_of_mul_eq_mul_right (show 0 < pageSize by decide) (Nat.add_left_cancel hptr)
    have hin : liveBlock s e ∈ { b | ∃ e ∈ E, liveBlock s e = b } := ⟨e, he, rfl⟩
    exact hcU (hsound.inv.part.eq_of_start (Or.inr (Or.inr hin)) (Or.inr (Or.inl rfl)) hstart ▸ hin)
  refine ⟨_, s', hsome, ⟨b, hb, ho ▸ order_le_of_subset hsub⟩, hfresh, hnew, ⟨?_, ?_, ?_⟩, hps⟩
  · convert hsound using 1
    ext d
    simp [hc, liveBlock_congr hps, eq_comm (a := d)]
  · rintro e (rfl | he)
    · rw [liveBlock_congr hps, hc, pageToPtr_congr hps]
    · rw [liveBlock_congr hps, pageToPtr_congr hps]
      exact h.head e he
  · rintro d (rfl | hd) e (rfl | he) hptr
    · rfl
    · exact absurd hptr.symm (hnew e he)
    · exact absurd hptr (hnew d hd)
    · exact h.distinct d hd e he hptr

theorem free {e : ℕ × ℕ} (he : e ∈ E) :
    ∃ s', buddyFreePage s e.1 = .ok s' ∧ Owned n old (E \ {e}) s' ∧
      s'.pageStart = s.pageStart := by
  obtain ⟨s', hs', hsound, hps⟩ := h.sound.free ⟨e, he, rfl⟩
  rw [← h.head e he] at hs'
  refine ⟨s', hs', ⟨?_, ?_, ?_⟩, hps⟩
  · convert hsound using 1
    ext b
    simp only [liveBlock_congr hps, Set.mem_ofPred_eq, Set.mem_sdiff, Set.mem_singleton_iff]
    constructor
    · rintro ⟨d, ⟨hd, hne⟩, rfl⟩
      refine ⟨⟨d, hd, rfl⟩, fun hb => hne (h.distinct d hd e he ?_)⟩
      rw [h.head d hd, h.head e he, hb]
    · rintro ⟨⟨d, hd, rfl⟩, hne⟩
      exact ⟨d, ⟨hd, fun hde => hne (by rw [hde])⟩, rfl⟩
  · intro d hd
    rw [liveBlock_congr hps, pageToPtr_congr hps]
    exact h.head d hd.1
  · exact fun d hd e he => h.distinct d hd.1 e he.1

end

end Owned

theorem buddyCreate_owned (R : Region) {start : ℕ}
    (h : buddyLayout R.mem R.size = .ok (start, n)) (hn : n < 2 ^ (maxOrder + 1))
    (old : ℕ → Page) :
    ∃ s, buddyCreate R.mem R.size old = .ok s ∧ Owned n old ∅ s := by
  obtain ⟨s, hs, hsound, -⟩ := buddyCreate_spec R h hn old
  refine ⟨s, hs, ?_, fun e he => he.elim, fun e he => he.elim⟩
  simpa using hsound

/-! ## The transition system -/

/-- A buddy system and its clients. -/
structure BuddyState where
  /-- The system. -/
  sys : BuddySystem
  /-- The blocks that are allocated: the address and the number of pages asked for. -/
  live : List (ℕ × ℕ)

/-- A call of the interface. -/
inductive BuddyCall
  /-- `buddy_alloc_page(system, count)`. -/
  | allocPage (count : ℕ)
  /-- `buddy_free_page(system, ptr)`. -/
  | freePage (ptr : ℕ)
deriving DecidableEq, Repr

namespace BuddyState

/-- The effect of a call. -/
def step (st : BuddyState) : BuddyCall → Except Fault BuddyState
  | .allocPage count => do
    let (ptr, sys) ← buddyAllocPage st.sys count
    match ptr with
    | none => return { st with sys := sys }
    | some ptr => return { sys := sys, live := (ptr, count) :: st.live }
  | .freePage ptr => do
    let sys ← buddyFreePage st.sys ptr
    return { sys := sys, live := st.live.filter fun e => e.1 ≠ ptr }

/-- The calls that clients make: an allocation of at most the largest block, and the release of
an allocated block. -/
def Legal (st : BuddyState) : BuddyCall → Prop
  | .allocPage count => count ≤ 2 ^ maxOrder
  | .freePage ptr => ∃ e ∈ st.live, e.1 = ptr

instance (st : BuddyState) (c : BuddyCall) : Decidable (st.Legal c) :=
  match c with
  | .allocPage _ => inferInstanceAs (Decidable (_ ≤ _))
  | .freePage ptr => inferInstanceAs (Decidable (∃ e ∈ st.live, e.1 = ptr))

/-- The allocated blocks. -/
def liveBlocks (st : BuddyState) : Set Block := { b | ∃ e ∈ st.live, liveBlock st.sys e = b }

end BuddyState

/-- The runs of a buddy system created in the region `R`, whose page map held `old`. -/
def buddyRuns (R : Region) (old : ℕ → Page) : Lts.System BuddyState BuddyCall Fault where
  init st := buddyCreate R.mem R.size old = .ok st.sys ∧ st.live = []
  step := BuddyState.step

/-! ## The invariant -/

variable {st : BuddyState}

/-- The invariant of a run. -/
structure BuddyState.Ok (n : ℕ) (old : ℕ → Page) (st : BuddyState) : Prop where
  owned : Owned n old { e | e ∈ st.live } st.sys
  nodup : (st.live.map Prod.fst).Nodup

theorem BuddyState.Ok.allocPage (h : st.Ok n old) {count : ℕ} (hle : count ≤ 2 ^ maxOrder)
    {st' : BuddyState} (hstep : st.step (.allocPage count) = .ok st') :
    st'.Ok n old ∧ st'.sys.pageStart = st.sys.pageStart ∧
      (st' = st ∨ ∃ ptr, st'.live = (ptr, count) :: st.live) := by
  obtain ⟨⟨ptr, sys⟩, halloc, hstep⟩ := Fallible.bind_eq_ok.mp hstep
  have h0 : count ≠ 0 := by
    obtain ⟨_, hc, -⟩ := Fallible.bind_eq_ok.mp halloc
    exact kassert_eq_ok.mp hc
  rcases h.owned.alloc h0 hle with ⟨hnone, -⟩ | ⟨ptr', s', hsome, -, -, hnew, howned, hps⟩
  · obtain ⟨rfl, rfl⟩ := Prod.mk.inj (Except.ok.inj (halloc.symm.trans hnone))
    cases hstep
    exact ⟨h, rfl, Or.inl rfl⟩
  · obtain ⟨rfl, rfl⟩ := Prod.mk.inj (Except.ok.inj (halloc.symm.trans hsome))
    cases hstep
    refine ⟨⟨?_, ?_⟩, hps, Or.inr ⟨_, rfl⟩⟩
    · convert howned using 1
      ext e
      simp
    · rw [List.map_cons, List.nodup_cons]
      refine ⟨fun hmem => ?_, h.nodup⟩
      obtain ⟨e, he, hptr⟩ := List.mem_map.mp hmem
      exact hnew e he hptr

theorem BuddyState.Ok.freePage (h : st.Ok n old) {e : ℕ × ℕ} (he : e ∈ st.live) :
    ∃ sys, buddyFreePage st.sys e.1 = .ok sys ∧ sys.pageStart = st.sys.pageStart ∧
      BuddyState.Ok n old ⟨sys, st.live.filter fun d => d.1 ≠ e.1⟩ := by
  obtain ⟨sys, hsys, howned, hps⟩ := h.owned.free he
  refine ⟨sys, hsys, hps, ?_, ?_⟩
  · convert howned using 1
    ext d
    simp only [List.mem_filter, decide_eq_true_eq, Set.mem_ofPred_eq, Set.mem_sdiff,
      Set.mem_singleton_iff]
    refine and_congr_right fun hd => not_congr ⟨h.owned.distinct d hd e he, ?_⟩
    rintro rfl
    rfl
  · exact h.nodup.sublist (List.filter_sublist.map _)

theorem BuddyState.Ok.of_reachable {R : Region} {start : ℕ}
    (hlayout : buddyLayout R.mem R.size = .ok (start, n)) (hn : n < 2 ^ (maxOrder + 1))
    (hr : (buddyRuns R old).ReachableVia BuddyState.Legal st) : st.Ok n old := by
  refine hr.invariant ?_ ?_
  · rintro ⟨sys, live⟩ ⟨hcreate, hlive⟩
    obtain ⟨s, hs, howned⟩ := buddyCreate_owned R hlayout hn old
    obtain rfl : s = sys := Except.ok.inj (hs.symm.trans hcreate)
    obtain rfl : live = [] := hlive
    refine ⟨?_, by simp⟩
    simpa using howned
  · rintro s (count | ptr) s' h hlegal hstep
    · exact (h.allocPage hlegal hstep).1
    · obtain ⟨e, he, rfl⟩ := hlegal
      obtain ⟨sys, hsys, -, hok⟩ := h.freePage he
      obtain ⟨sys', hsys', hret⟩ := Fallible.bind_eq_ok.mp hstep
      obtain rfl : sys = sys' := Except.ok.inj (hsys.symm.trans hsys')
      cases hret
      exact hok

/-! ## The representations agree -/

/-- The free memory as the lists, the counters, the bitmap and the page map describe it, for `n`
managed pages whose page map held `old` before the creation. -/
structure BuddyState.WellFormed (n : ℕ) (old : ℕ → Page) (st : BuddyState) : Prop where
  last : 0 < n → st.sys.maxPfn + 1 = n
  partition : Partition n (freeBlocks st.sys) st.liveBlocks
  aligned : ∀ k ≤ maxOrder, ∀ p ∈ st.sys.pageBuddy k, 2 ^ k ∣ p
  nodup : ∀ k ≤ maxOrder, (st.sys.pageBuddy k).Nodup
  address : ∀ e ∈ st.live, e.1 = st.sys.pageStart + (liveBlock st.sys e).start * pageSize
  distinct : (st.live.map Prod.fst).Nodup
  bitmap : ∀ k ≤ maxOrder, st.sys.bitmap.testBit k = true ↔ st.sys.pageBuddy k ≠ []
  count : ∀ k ≤ maxOrder, st.sys.count k = (st.sys.pageBuddy k).length
  isFree : ∀ b ∈ freeBlocks st.sys ∪ st.liveBlocks,
    (st.sys.map b.start).isFree = true ↔ b ∈ freeBlocks st.sys
  interior_isFree : ∀ p < n, (∀ b ∈ freeBlocks st.sys ∪ st.liveBlocks, b.start ≠ p) →
    (st.sys.map p).isFree = true → (old p).isFree = true
  order : ∀ b ∈ freeBlocks st.sys ∪ st.liveBlocks, (st.sys.map b.start).order = b.order
  interior_order : ∀ p < n, (∀ b ∈ freeBlocks st.sys ∪ st.liveBlocks, b.start ≠ p) →
    (st.sys.map p).order = invalidOrder

theorem BuddyState.Ok.wellFormed (h : st.Ok n old) : st.WellFormed n old where
  last h0 := by
    have hn := h.owned.sound.inv.small.trans (show 2 ^ (maxOrder + 1) < 2 ^ 64 by decide)
    rw [h.owned.sound.inv.last, sub64_of_le h0 hn]
    omega
  partition := h.owned.sound.inv.part
  aligned := h.owned.sound.inv.lists.aligned
  nodup := h.owned.sound.inv.lists.nodup
  address e he := h.owned.address he
  distinct := h.nodup
  bitmap k hk := by
    rw [h.owned.sound.inv.lists.bitmap k]
    tauto
  count := h.owned.sound.inv.lists.count
  isFree b hb := by
    rcases hb with hb | hb
    · simp [h.owned.sound.inv.pages.free b hb, Page.isFree, hb]
    · simp [Page.isFree, h.owned.sound.inv.pages.used b hb, h.owned.sound.inv.part.notMem_free hb]
  interior_isFree p hp hno hfree := by
    rcases (h.owned.sound.inv.pages.interior p hp hno).2 with h0 | hold
    · simp [Page.isFree, h0] at hfree
    · rwa [Page.isFree, hold] at hfree
  order b hb := by
    rcases hb with hb | hb
    · rw [h.owned.sound.inv.pages.free b hb]
    · exact h.owned.sound.inv.pages.order b hb (by simp)
  interior_order p hp hno := (h.owned.sound.inv.pages.interior p hp hno).1

theorem BuddyState.Ok.alloc_fresh (h : st.Ok n old) {count : ℕ} (h0 : 1 ≤ count)
    (hle : count ≤ 2 ^ maxOrder) :
    ∃ r s', buddyAllocPage st.sys count = .ok (r, s') ∧ ∀ ptr, r = some ptr →
      FreshBlock st.sys count ptr := by
  rcases h.owned.alloc (by omega) hle with ⟨hnone, -⟩ | ⟨ptr, s', hsome, -, hfresh, -⟩
  · exact ⟨none, st.sys, hnone, by simp⟩
  · refine ⟨some ptr, s', hsome, fun ptr' hptr => ?_⟩
    cases hptr
    exact hfresh

/-- **The representations of the free memory agree in every state of every run**, no call of a
run faults, and an allocation returns memory that was free. -/
theorem buddyRuns_wellFormed (R : Region) (old : ℕ → Page) {start n : ℕ}
    (hlayout : buddyLayout R.mem R.size = .ok (start, n)) (hn : n < 2 ^ (maxOrder + 1)) :
    (∃ s, buddyCreate R.mem R.size old = .ok s) ∧
    ∀ st, (buddyRuns R old).ReachableVia BuddyState.Legal st →
      st.WellFormed n old ∧
      (∀ count, 1 ≤ count → count ≤ 2 ^ maxOrder →
        ∃ r s', buddyAllocPage st.sys count = .ok (r, s') ∧
          ∀ ptr, r = some ptr → FreshBlock st.sys count ptr) ∧
      ∀ e ∈ st.live, ∃ s', buddyFreePage st.sys e.1 = .ok s' := by
  obtain ⟨s, hs, -, -⟩ := buddyCreate_spec R hlayout hn old
  refine ⟨⟨s, hs⟩, fun st hr => ?_⟩
  have hok := BuddyState.Ok.of_reachable hlayout hn hr
  refine ⟨hok.wellFormed, fun count h0 hle => hok.alloc_fresh h0 hle, fun e he => ?_⟩
  obtain ⟨s', hs', -⟩ := hok.owned.free he
  exact ⟨s', hs'⟩

/-- Four pages of memory, of which two are left to manage. -/
def fourPages : Region := ⟨4096, 16384, by decide, by decide, by decide⟩

theorem buddyLayout_fourPages :
    buddyLayout fourPages.mem fourPages.size = .ok (12288, 2) := by decide +kernel

/-- The theorem applies to `fourPages` with memory that was cleared. -/
theorem buddyRuns_wellFormed_fourPages :
    ∃ st, (buddyRuns fourPages fun _ => ⟨0, 0⟩).ReachableVia BuddyState.Legal st ∧
      st.WellFormed 2 fun _ => ⟨0, 0⟩ := by
  obtain ⟨⟨s, hs⟩, hall⟩ :=
    buddyRuns_wellFormed fourPages (fun _ => ⟨0, 0⟩) buddyLayout_fourPages (by decide)
  have hinit : (buddyRuns fourPages fun _ => ⟨0, 0⟩).ReachableVia BuddyState.Legal ⟨s, []⟩ :=
    .init ⟨hs, rfl⟩
  exact ⟨⟨s, []⟩, hinit, (hall _ hinit).1⟩

/-- In memory that was not cleared, a page inside a free block can be marked free: the flag of
`page_t` is written for heads only. -/
theorem interior_page_marked_free :
    ∃ st, (buddyRuns fourPages fun _ => ⟨1, 0⟩).ReachableVia BuddyState.Legal st ∧
      ¬ ∀ p < 2, (st.sys.map p).isFree = true ↔ ∃ b ∈ freeBlocks st.sys, b.start = p := by
  have hrun : (buddyCreate fourPages.mem fourPages.size fun _ => ⟨1, 0⟩).map (fun s =>
      ((s.map 1).isFree, decide (∀ k ≤ maxOrder, 1 ∉ s.pageBuddy k))) = .ok (true, true) := by
    decide +kernel
  obtain ⟨s, hs, -⟩ := buddyCreate_spec fourPages buddyLayout_fourPages (by decide) fun _ => ⟨1, 0⟩
  rw [hs] at hrun
  obtain ⟨h1, h0⟩ := Prod.mk.inj (Except.ok.inj hrun)
  rw [decide_eq_true_eq] at h0
  refine ⟨⟨s, []⟩, .init ⟨hs, rfl⟩, fun hall => ?_⟩
  obtain ⟨b, hb, hstart⟩ := (hall 1 (by decide)).mp h1
  exact h0 b.order hb.1 (hstart ▸ hb.2)

/-! ## Coalescing -/

/-- **Free memory is coalesced in every state of every run**: no two buddies are free, a run that
has released everything has the free blocks that `buddy_create` made, and an allocation fails
exactly if no free block is large enough. -/
theorem buddyRuns_coalesced (R : Region) (old : ℕ → Page) {start n : ℕ}
    (hlayout : buddyLayout R.mem R.size = .ok (start, n)) (hn : n < 2 ^ (maxOrder + 1))
    {st : BuddyState} (hr : (buddyRuns R old).ReachableVia BuddyState.Legal st) :
    (∀ b ∈ freeBlocks st.sys, ∀ c ∈ freeBlocks st.sys, b.order < maxOrder → c ≠ b.buddy) ∧
    (st.live = [] → ∀ s, buddyCreate R.mem R.size old = .ok s →
      freeBlocks st.sys = freeBlocks s) ∧
    ∀ count, 1 ≤ count → count ≤ 2 ^ maxOrder →
      ∃ r s', buddyAllocPage st.sys count = .ok (r, s') ∧
        (r = none ↔ ¬ ∃ b ∈ freeBlocks st.sys, Nat.clog 2 count ≤ b.order) := by
  have hok := BuddyState.Ok.of_reachable hlayout hn hr
  refine ⟨fun b hb c hc ho he => ?_, fun hlive s hs => ?_, fun count h0 hle => ?_⟩
  · exact hok.owned.sound.coalesced b hb ho (he ▸ hc)
  · obtain ⟨s', hs', hsound, -⟩ := buddyCreate_spec R hlayout hn old
    obtain rfl : s' = s := Except.ok.inj (hs'.symm.trans hs)
    have hp := hok.owned.sound.inv.part
    simp only [hlive, List.not_mem_nil, Set.mem_ofPred_eq, false_and, exists_false] at hp
    have hp' := hsound.inv.part
    exact Set.Subset.antisymm
      (Coalesced.subset_of_partition hp hp' hok.owned.sound.coalesced hsound.coalesced
        (fun b hb => hb.1) fun b hb => hb.1)
      (Coalesced.subset_of_partition hp' hp hsound.coalesced hok.owned.sound.coalesced
        (fun b hb => hb.1) fun b hb => hb.1)
  · rcases hok.owned.alloc (by omega) hle with ⟨hnone, hall⟩ | ⟨ptr, s', hsome, hlarge, -⟩
    · refine ⟨none, st.sys, hnone, ?_⟩
      simpa using hall
    · refine ⟨some ptr, s', hsome, ?_⟩
      simpa using hlarge

/-- The theorem applies to `fourPages`, whose free memory is one block of two pages. -/
theorem buddyRuns_coalesced_fourPages :
    ∃ st, (buddyRuns fourPages fun _ => ⟨0, 0⟩).ReachableVia BuddyState.Legal st ∧
      ∀ b ∈ freeBlocks st.sys, ∀ c ∈ freeBlocks st.sys, b.order < maxOrder → c ≠ b.buddy := by
  obtain ⟨s, hs, -, -⟩ :=
    buddyCreate_spec fourPages buddyLayout_fourPages (by decide) fun _ => ⟨0, 0⟩
  have hinit : (buddyRuns fourPages fun _ => ⟨0, 0⟩).ReachableVia BuddyState.Legal ⟨s, []⟩ :=
    .init ⟨hs, rfl⟩
  exact ⟨_, hinit, (buddyRuns_coalesced fourPages _ buddyLayout_fourPages (by decide) hinit).1⟩

theorem reachable_fourPages :
    ∃ s, (buddyRuns fourPages fun _ => ⟨0, 0⟩).ReachableVia BuddyState.Legal ⟨s, []⟩ := by
  obtain ⟨s, hs, -, -⟩ :=
    buddyCreate_spec fourPages buddyLayout_fourPages (by decide) fun _ => ⟨0, 0⟩
  exact ⟨s, .init ⟨hs, rfl⟩⟩

/-- **An allocation succeeds** in every state of every run exactly if the pages of some aligned
block of its size belong to no client. -/
theorem buddyRuns_available (R : Region) (old : ℕ → Page) {start n : ℕ}
    (hlayout : buddyLayout R.mem R.size = .ok (start, n)) (hn : n < 2 ^ (maxOrder + 1))
    {st : BuddyState} (hr : (buddyRuns R old).ReachableVia BuddyState.Legal st) {count : ℕ}
    (h0 : 1 ≤ count) (hle : count ≤ 2 ^ maxOrder) :
    (∃ ptr s', buddyAllocPage st.sys count = .ok (some ptr, s')) ↔
      ∃ b : Block, b.order = Nat.clog 2 count ∧ b.stop ≤ n ∧
        ∀ p ∈ b, ∀ c ∈ st.liveBlocks, p ∉ c := by
  have hok := BuddyState.Ok.of_reachable hlayout hn hr
  have hpart := hok.owned.sound.inv.part
  rcases hok.owned.alloc (by omega) hle with ⟨hnone, hall⟩ | ⟨ptr, s', hsome, -, hfresh, -⟩
  · simp only [hnone, Except.ok.injEq, Prod.mk.injEq, reduceCtorEq, false_and, exists_false,
      false_iff]
    rintro ⟨b, ho, hstop, hb⟩
    -- the pages of the block are in free blocks, so the block is inside of one of these
    obtain ⟨c, hc, hbc⟩ := hok.owned.sound.coalesced.exists_subset b.order b rfl
      (ho ▸ clog_le_maxOrder hle) fun p hp => by
        obtain ⟨c, hc | hc, hpc⟩ := hpart.cover p ((mem_iff.mp hp).2.trans_le hstop)
        · exact ⟨c, hc, hpc⟩
        · exact (hb p hp c hc hpc).elim
    have := hall c hc
    have := order_le_of_subset hbc
    omega
  · obtain ⟨-, b, ho, -, hb⟩ := hfresh
    refine iff_of_true ⟨ptr, s', hsome⟩ ⟨b, ho, ?_, ?_⟩
    · obtain ⟨c, hc, hp⟩ := hb (b.stop - 1) (mem_iff.mpr (by have := b.start_lt_stop; omega))
      have := hpart.lt_of_mem (Or.inl hc) hp
      omega
    · intro p hp c hc hpc
      obtain ⟨d, hd, hpd⟩ := hb p hp
      exact hpart.notMem_used hd (hpart.inj d (Or.inl hd) c (Or.inr hc) p hpd hpc ▸ hc)

/-- The theorem applies to `fourPages`: both its pages can be allocated at once. -/
theorem buddyRuns_available_fourPages :
    ∃ st, (buddyRuns fourPages fun _ => ⟨0, 0⟩).ReachableVia BuddyState.Legal st ∧
      ∃ ptr s', buddyAllocPage st.sys 2 = .ok (some ptr, s') := by
  obtain ⟨s, hinit⟩ := reachable_fourPages
  refine ⟨_, hinit, ?_⟩
  rw [buddyRuns_available fourPages _ buddyLayout_fourPages (by decide) hinit (by decide)
    (by decide)]
  exact ⟨⟨1, 0⟩, by decide, by decide, fun p _ c hc => by simp [BuddyState.liveBlocks] at hc⟩

/-! ## Orders -/

/-- The orders stay within the tables: every head has one, and a call that meets the interface
returns normally, so that it has used no other order as an index. -/
structure BuddyState.Ordered (n : ℕ) (st : BuddyState) : Prop where
  head : ∀ p < n, (st.sys.map p).order ≤ maxOrder ∨ (st.sys.map p).order = invalidOrder ∧
    ∀ b ∈ freeBlocks st.sys ∪ st.liveBlocks, b.start ≠ p
  block : ∀ b ∈ freeBlocks st.sys ∪ st.liveBlocks, b.order ≤ maxOrder
  call : ∀ c, st.Legal c → c ≠ .allocPage 0 → ∃ st', st.step c = .ok st'

/-- A request for more pages than the largest block has reads behind the tables. -/
theorem buddyAllocPage_beyond :
    ∃ st, (buddyRuns fourPages fun _ => ⟨0, 0⟩).ReachableVia BuddyState.Legal st ∧
      buddyAllocPage st.sys (2 ^ maxOrder + 1) = .error .badAccess := by
  obtain ⟨s, hs, -, -⟩ :=
    buddyCreate_spec fourPages buddyLayout_fourPages (by decide) fun _ => ⟨0, 0⟩
  exact ⟨⟨s, []⟩, .init ⟨hs, rfl⟩, buddyAllocPage_large s (Nat.lt_succ_self _) (by decide)⟩

/-- **The orders stay within the tables in every state of every run.** -/
theorem buddyRuns_ordered (R : Region) (old : ℕ → Page) {start n : ℕ}
    (hlayout : buddyLayout R.mem R.size = .ok (start, n)) (hn : n < 2 ^ (maxOrder + 1))
    {st : BuddyState} (hr : (buddyRuns R old).ReachableVia BuddyState.Legal st) :
    st.Ordered n := by
  have hok := BuddyState.Ok.of_reachable hlayout hn hr
  have hwf := hok.wellFormed
  have hblock : ∀ b ∈ freeBlocks st.sys ∪ st.liveBlocks, b.order ≤ maxOrder := by
    intro b hb
    cases hb with
    | inl hfree => exact hfree.1
    | inr hlive => exact hok.owned.sound.inv.order_le hlive
  refine ⟨?_, hblock, ?_⟩
  · intro p hp
    by_cases hhead : ∃ b ∈ freeBlocks st.sys ∪ st.liveBlocks, b.start = p
    · obtain ⟨b, hb, rfl⟩ := hhead
      left
      rw [hwf.order b hb]
      exact hblock b hb
    · have hno : ∀ b ∈ freeBlocks st.sys ∪ st.liveBlocks, b.start ≠ p :=
        fun b hb he => hhead ⟨b, hb, he⟩
      exact Or.inr ⟨hwf.interior_order p hp hno, hno⟩
  · intro c hc hne
    cases c with
    | allocPage count =>
      have h0 : 1 ≤ count := Nat.one_le_iff_ne_zero.mpr fun h0 => hne (h0 ▸ rfl)
      obtain ⟨r, s', hs', -⟩ := hok.alloc_fresh h0 hc
      cases r with
      | none => exact ⟨_, by rw [BuddyState.step, hs']; rfl⟩
      | some ptr => exact ⟨_, by rw [BuddyState.step, hs']; rfl⟩
    | freePage ptr =>
      obtain ⟨e, he, rfl⟩ := hc
      obtain ⟨sys, hsys, -⟩ := hok.freePage he
      exact ⟨_, by rw [BuddyState.step, hsys]; rfl⟩

/-- The theorem applies to `fourPages`. -/
theorem buddyRuns_ordered_fourPages :
    ∃ st, (buddyRuns fourPages fun _ => ⟨0, 0⟩).ReachableVia BuddyState.Legal st ∧
      st.Ordered 2 := by
  obtain ⟨s, hs, -, -⟩ :=
    buddyCreate_spec fourPages buddyLayout_fourPages (by decide) fun _ => ⟨0, 0⟩
  have hinit : (buddyRuns fourPages fun _ => ⟨0, 0⟩).ReachableVia BuddyState.Legal ⟨s, []⟩ :=
    .init ⟨hs, rfl⟩
  exact ⟨_, hinit, buddyRuns_ordered fourPages _ buddyLayout_fourPages (by decide) hinit⟩

end Ginkgo.Mm
