import Ginkgo.Mm.BuddyRun

/-!
# Double frees

`buddy_free_page` reports a double free and returns if the page it is given is marked free.  Only
the first page of a free block is marked, so this finds a block that has been released and is still
the start of a free block.  A block that has been merged with a free buddy in front of it is not
found: its first page is not marked and has the order `INVALID_ORDER`, with which `page_merge`
goes on.

## Main results

* `freedRuns_doubleFree_iff` — a second release changes nothing exactly if the block
  starts a free block.
-/

namespace Ginkgo.Mm

open Dyadic Dyadic.Block

/-- A buddy system, its clients, and what they have released. -/
structure FreedState where
  /-- The system and the allocated blocks. -/
  st : BuddyState
  /-- The released blocks of which no page has been allocated again: the address and the number of
  pages asked for. -/
  freed : List (ℕ × ℕ)

/-- Some page of the block of `e` is allocated. -/
def BuddyState.Reused (st : BuddyState) (e : ℕ × ℕ) : Prop :=
  ∃ d ∈ st.live, (liveBlock st.sys d).start < (liveBlock st.sys e).stop ∧
    (liveBlock st.sys e).start < (liveBlock st.sys d).stop

instance (st : BuddyState) (e : ℕ × ℕ) : Decidable (st.Reused e) :=
  inferInstanceAs (Decidable (∃ d ∈ st.live,
    (liveBlock st.sys d).start < (liveBlock st.sys e).stop ∧
    (liveBlock st.sys e).start < (liveBlock st.sys d).stop))

namespace FreedState

/-- The released blocks after a call, before those that are in use again are dropped. -/
def released (f : FreedState) : BuddyCall → List (ℕ × ℕ)
  | .allocPage _ => f.freed
  | .freePage ptr => f.st.live.filter (fun e => e.1 = ptr) ++ f.freed

/-- The effect of a call. -/
def step (f : FreedState) (c : BuddyCall) : Except Fault FreedState := do
  let st ← f.st.step c
  return ⟨st, (f.released c).filter fun e => ¬ st.Reused e⟩

/-- The calls that clients make. -/
def Legal (f : FreedState) (c : BuddyCall) : Prop := f.st.Legal c

instance (f : FreedState) (c : BuddyCall) : Decidable (f.Legal c) :=
  inferInstanceAs (Decidable (f.st.Legal c))

end FreedState

/-- The runs of a buddy system created in the region `R`, whose page map held `old`, with the
released blocks. -/
def freedRuns (R : Region) (old : ℕ → Page) : Lts.System FreedState BuddyCall Fault where
  init f := buddyCreate R.mem R.size old = .ok f.st.sys ∧ f.st.live = [] ∧ f.freed = []
  step := FreedState.step

/-! ## The invariant -/

variable {n : ℕ} {old : ℕ → Page} {st st' : BuddyState} {f : FreedState}

theorem BuddyState.Ok.forget (h : st.Ok n old) {e : ℕ × ℕ} (he : e ∈ st.live) (page : Page) :
    st.Ok n (Function.update old (liveBlock st.sys e).start page) := by
  have hinv := h.owned.sound.inv
  have hpages := hinv.pages.forget (b := liveBlock st.sys e) (Or.inr ⟨e, he, rfl⟩) page
  exact ⟨⟨⟨⟨hinv.small, hinv.last, hinv.lists, hinv.part, hpages⟩, h.owned.sound.coalesced,
    h.owned.sound.placed⟩, h.owned.head, h.owned.distinct⟩, h.nodup⟩

/-- The invariant of a run, in which the flags of the first pages of the blocks in `live` and
`freed` count as cleared by the creation. -/
structure FreedState.Inv (n : ℕ) (old : ℕ → Page) (f : FreedState) : Prop where
  ok : f.st.Ok n old
  cleared : ∀ e, e ∈ f.st.live ∨ e ∈ f.freed → (old (liveBlock f.st.sys e).start).u32Flags = 0
  head : ∀ e ∈ f.freed, e.1 = pageToPtr f.st.sys (liveBlock f.st.sys e).start
  inside : ∀ e ∈ f.freed, (liveBlock f.st.sys e).start < n
  idle : ∀ e ∈ f.freed, ¬ f.st.Reused e

namespace FreedState.Inv

theorem allocPage (h : f.Inv n old) {count : ℕ} (hle : count ≤ 2 ^ maxOrder) {f' : FreedState}
    (hstep : f.step (.allocPage count) = .ok f') : ∃ old', f'.Inv n old' := by
  obtain ⟨st', hst', hret⟩ := Fallible.bind_eq_ok.mp hstep
  cases hret
  obtain ⟨hok, hps, hlive⟩ := h.ok.allocPage hle hst'
  have hfreed : ∀ e, e ∈ (f.released (.allocPage count)).filter (fun e => ¬ st'.Reused e) →
      e ∈ f.freed ∧ ¬ st'.Reused e := by
    intro e he
    simpa [FreedState.released] using he
  have hhead : ∀ e ∈ f.freed, e.1 = pageToPtr st'.sys (liveBlock st'.sys e).start := by
    intro e he
    rw [liveBlock_congr hps, pageToPtr_congr hps]
    exact h.head e he
  have hinside : ∀ e ∈ f.freed, (liveBlock st'.sys e).start < n := by
    intro e he
    rw [liveBlock_congr hps]
    exact h.inside e he
  have hcleared : ∀ e, e ∈ f.st.live ∨ e ∈ f.freed →
      (old (liveBlock st'.sys e).start).u32Flags = 0 := by
    intro e he
    rw [liveBlock_congr hps]
    exact h.cleared e he
  rcases hlive with rfl | ⟨ptr, hlive⟩
  · exact ⟨old, hok, fun e he => hcleared e (he.imp_right fun he => (hfreed e he).1),
      fun e he => hhead e (hfreed e he).1, fun e he => hinside e (hfreed e he).1,
      fun e he => (hfreed e he).2⟩
  · have hnew : (ptr, count) ∈ st'.live := by simp [hlive]
    refine ⟨_, hok.forget hnew ⟨0, 0⟩, fun e he => ?_, fun e he => hhead e (hfreed e he).1,
      fun e he => hinside e (hfreed e he).1, fun e he => (hfreed e he).2⟩
    by_cases hpage : (liveBlock st'.sys e).start = (liveBlock st'.sys (ptr, count)).start
    · rw [hpage, Function.update_self]
    · rw [Function.update_of_ne hpage]
      refine hcleared e ?_
      rcases he with he | he
      · rw [hlive, List.mem_cons] at he
        refine Or.inl (he.resolve_left ?_)
        rintro rfl
        exact hpage rfl
      · exact Or.inr (hfreed e he).1

theorem freePage (h : f.Inv n old) {d : ℕ × ℕ} (hd : d ∈ f.st.live) {f' : FreedState}
    (hstep : f.step (.freePage d.1) = .ok f') : f'.Inv n old := by
  obtain ⟨st', hst', hret⟩ := Fallible.bind_eq_ok.mp hstep
  cases hret
  obtain ⟨sys, hsys, hps, hok⟩ := h.ok.freePage hd
  obtain ⟨sys', hsys', hret'⟩ := Fallible.bind_eq_ok.mp hst'
  obtain rfl : sys = sys' := Except.ok.inj (hsys.symm.trans hsys')
  cases hret'
  have hmem : ∀ e, e ∈ (f.released (.freePage d.1)).filter
      (fun e => ¬ BuddyState.Reused ⟨sys, f.st.live.filter fun e => e.1 ≠ d.1⟩ e) →
      ((e ∈ f.st.live ∧ e.1 = d.1) ∨ e ∈ f.freed) ∧
        ¬ BuddyState.Reused ⟨sys, f.st.live.filter fun e => e.1 ≠ d.1⟩ e := by
    intro e he
    rw [FreedState.released, List.mem_filter, List.mem_append, List.mem_filter] at he
    simpa using he
  refine ⟨hok, fun e he => ?_, fun e he => ?_, fun e he => ?_, fun e he => (hmem e he).2⟩
  · rw [liveBlock_congr hps]
    refine h.cleared e ?_
    rcases he with he | he
    · exact Or.inl (List.mem_of_mem_filter he)
    · exact (hmem e he).1.imp_left And.left
  · rw [liveBlock_congr hps, pageToPtr_congr hps]
    rcases (hmem e he).1 with hlive | hfreed
    · exact h.ok.owned.head e hlive.1
    · exact h.head e hfreed
  · rw [liveBlock_congr hps]
    rcases (hmem e he).1 with hlive | hfreed
    · exact h.ok.owned.sound.inv.part.start_lt (Or.inr ⟨e, hlive.1, rfl⟩)
    · exact h.inside e hfreed

theorem of_reachable {R : Region} {start : ℕ}
    (hlayout : buddyLayout R.mem R.size = .ok (start, n)) (hn : n < 2 ^ (maxOrder + 1))
    (hr : (freedRuns R old).ReachableVia FreedState.Legal f) : ∃ old', f.Inv n old' := by
  refine hr.invariant (I := fun f => ∃ old', f.Inv n old') ?_ ?_
  · rintro ⟨⟨sys, live⟩, freed⟩ ⟨hcreate, hlive, hfreed⟩
    have hinit : (buddyRuns R old).ReachableVia BuddyState.Legal ⟨sys, live⟩ :=
      .init ⟨hcreate, hlive⟩
    obtain rfl : live = [] := hlive
    obtain rfl : freed = [] := hfreed
    exact ⟨old, BuddyState.Ok.of_reachable hlayout hn hinit, by simp, by simp, by simp, by simp⟩
  · rintro f (count | ptr) f' ⟨old', h⟩ hlegal hstep
    · exact h.allocPage hlegal hstep
    · obtain ⟨e, he, rfl⟩ := hlegal
      exact ⟨old', h.freePage he hstep⟩

section

variable (h : f.Inv n old) {e : ℕ × ℕ} (he : e ∈ f.freed)

include h he

theorem exists_free :
    ∃ b ∈ freeBlocks f.st.sys, (liveBlock f.st.sys e).start ∈ b := by
  obtain ⟨b, hb | ⟨d, hd, rfl⟩, hp⟩ := h.ok.owned.sound.inv.part.cover _ (h.inside e he)
  · exact ⟨b, hb, hp⟩
  · refine absurd ⟨d, hd, ?_⟩ (h.idle e he)
    have hd := mem_iff.mp hp
    have he := (liveBlock f.st.sys e).start_lt_stop
    omega

theorem pageFromPtr_eq :
    e.1 ≠ 0 ∧ pageFromPtr f.st.sys e.1 = .ok (liveBlock f.st.sys e).start := by
  have hlt := h.inside e he
  have hplaced := h.ok.owned.sound.placed (by omega)
  have hpos := hplaced.pos
  refine ⟨?_, ?_⟩
  · rw [h.head e he, hplaced.pageToPtr_eq hlt]
    omega
  · rw [h.head e he]
    exact hplaced.pageFromPtr_pageToPtr hlt

theorem recognised {b : Block} (hb : b ∈ freeBlocks f.st.sys)
    (hstart : b.start = (liveBlock f.st.sys e).start) :
    buddyFreePage f.st.sys e.1 = .ok f.st.sys := by
  obtain ⟨h0, hpfn⟩ := h.pageFromPtr_eq he
  have hfree : (f.st.sys.map (liveBlock f.st.sys e).start).isFree = true := by
    rw [← hstart, h.ok.owned.sound.inv.pages.free b hb]
    simp [Page.isFree]
  rw [buddyFreePage, kassert_pos h0, Fallible.ok_bind, hpfn, Fallible.ok_bind, if_pos hfree]
  rfl

theorem unrecognised {b : Block} (hb : b ∈ freeBlocks f.st.sys)
    (hp : (liveBlock f.st.sys e).start ∈ b) (hstart : b.start ≠ (liveBlock f.st.sys e).start) :
    buddyFreePage f.st.sys e.1 = .error .badAccess := by
  obtain ⟨h0, hpfn⟩ := h.pageFromPtr_eq he
  have hinv := h.ok.owned.sound.inv
  have hno : ∀ c ∈ freeBlocks f.st.sys ∪ {b | ∃ e ∈ {e | e ∈ f.st.live}, liveBlock f.st.sys e = b},
      c.start ≠ (liveBlock f.st.sys e).start := by
    intro c hc heq
    refine hstart (heq ▸ congrArg Block.start ?_)
    exact hinv.part.inj b (Or.inl hb) c hc _ hp (heq ▸ c.start_mem)
  obtain ⟨horder, hflags⟩ := hinv.pages.interior _ (h.inside e he) hno
  have hzero : (f.st.sys.map (liveBlock f.st.sys e).start).u32Flags = 0 := by
    rcases hflags with hflags | hflags
    · exact hflags
    · rw [hflags, h.cleared e (Or.inr he)]
  have hused : (f.st.sys.map (liveBlock f.st.sys e).start).isFree = false := by
    rw [Page.isFree, hzero, Nat.zero_testBit]
  rw [buddyFreePage, kassert_pos h0, Fallible.ok_bind, hpfn, Fallible.ok_bind, hused, pageMerge,
    horder]
  rfl

end

end FreedState.Inv

/-! ## The second release -/

/-- **A second release of a block changes nothing exactly if the block starts a free block.** -/
theorem freedRuns_doubleFree_iff (R : Region) (old : ℕ → Page) {start n : ℕ}
    (hlayout : buddyLayout R.mem R.size = .ok (start, n)) (hn : n < 2 ^ (maxOrder + 1))
    {f : FreedState} (hr : (freedRuns R old).ReachableVia FreedState.Legal f) {e : ℕ × ℕ}
    (he : e ∈ f.freed) :
    buddyFreePage f.st.sys e.1 = .ok f.st.sys ↔
      ∃ b ∈ freeBlocks f.st.sys, pageToPtr f.st.sys b.start = e.1 := by
  obtain ⟨old', h⟩ := FreedState.Inv.of_reachable hlayout hn hr
  obtain ⟨b, hb, hp⟩ := h.exists_free he
  constructor
  · intro hfree
    by_cases hstart : b.start = (liveBlock f.st.sys e).start
    · exact ⟨b, hb, by rw [hstart, h.head e he]⟩
    · rw [h.unrecognised he hb hp hstart] at hfree
      cases hfree
  · rintro ⟨c, hc, hptr⟩
    refine h.recognised he hc ?_
    have h1 := h.ok.owned.sound.pageFromPtr_eq (Or.inl hc)
    rw [hptr, (h.pageFromPtr_eq he).2] at h1
    exact (Except.ok.inj h1).symm

/-- The theorem applies to a block of one page that has been released while its buddy is
allocated. -/
theorem freedRuns_doubleFree_iff_twoPages :
    ∃ f, (freedRuns fourPages fun _ => ⟨0, 0⟩).ReachableVia FreedState.Legal f ∧
      (16384, 1) ∈ f.freed ∧ (buddyFreePage f.st.sys 16384 = .ok f.st.sys ↔
        ∃ b ∈ freeBlocks f.st.sys, pageToPtr f.st.sys b.start = 16384) := by
  obtain ⟨f, hr, hf⟩ := Lts.System.exists_reachableVia_of_map
    (M := freedRuns fourPages fun _ => ⟨0, 0⟩) FreedState.Legal
    (x := buddyCreate fourPages.mem fourPages.size fun _ => ⟨0, 0⟩)
    (P := fun f => (16384, 1) ∈ f.freed) [.allocPage 1, .allocPage 1, .freePage 16384]
    (fun s hs => (⟨hs, rfl, rfl⟩ : (freedRuns _ _).init ⟨⟨s, []⟩, []⟩)) (by decide +kernel)
  exact ⟨f, hr, hf, freedRuns_doubleFree_iff fourPages _ buddyLayout_fourPages (by decide) hr hf⟩

/-- Two blocks of one page are released and merged: the second release of the upper one is not
recognised. -/
theorem buddyFreePage_merged :
    ∃ f, (freedRuns fourPages fun _ => ⟨0, 0⟩).ReachableVia FreedState.Legal f ∧
      (16384, 1) ∈ f.freed ∧ buddyFreePage f.st.sys 16384 = .error .badAccess := by
  obtain ⟨f, hr, hf, hmap⟩ := Lts.System.exists_reachableVia_of_map
    (M := freedRuns fourPages fun _ => ⟨0, 0⟩) FreedState.Legal
    (x := buddyCreate fourPages.mem fourPages.size fun _ => ⟨0, 0⟩)
    (P := fun f => (16384, 1) ∈ f.freed ∧
      (buddyFreePage f.st.sys 16384).map (fun _ => ()) = .error .badAccess)
    [.allocPage 1, .allocPage 1, .freePage 12288, .freePage 16384]
    (fun s hs => (⟨hs, rfl, rfl⟩ : (freedRuns _ _).init ⟨⟨s, []⟩, []⟩)) (by decide +kernel)
  exact ⟨f, hr, hf, Fallible.map_eq_error.mp hmap⟩

end Ginkgo.Mm
