import Ginkgo.Mm.HeapRun

/-!
# Pages of the pools

`mem_pool_alloc` takes a page from the buddy system when the pool for the size has no free block.
`mem_pool_recycle` returns the page of a block when the free count of the page is zero, but it has
just counted the block it was given, so this never happens: a page that a pool has taken stays with
the pool.

## Main results

* `poolRuns_givenBack_iff` — a sequence of calls leaves the number of free pages as it was
  exactly if none of its calls takes a page.
-/

namespace Ginkgo.Mm

/-- A call of the pool allocator. -/
inductive PoolCall
  /-- `mem_pool_alloc(control, size)`. -/
  | alloc (size : ℕ)
  /-- `mem_pool_free(control, ptr)`. -/
  | free (ptr : ℕ)
deriving DecidableEq, Repr

namespace HeapState

/-- The effect of a call. -/
def poolStep (st : HeapState) : PoolCall → Except Fault HeapState
  | .alloc size => do
    let (ptr, heap) ← memPoolAlloc st.heap size
    match ptr with
    | none => return { st with heap := heap }
    | some ptr => return { heap := heap, live := (ptr, size) :: st.live }
  | .free ptr => do
    let heap ← memPoolFree st.heap ptr
    return { heap := heap, live := st.live.filter fun e => e.1 ≠ ptr }

/-- The calls that clients make: any request, and the release of an allocated block of a pool. -/
def PoolLegal (st : HeapState) : PoolCall → Prop
  | .alloc _ => True
  | .free ptr => ∃ e ∈ st.live, e.1 = ptr ∧ e.2 ≤ memPoolMaxSize

instance (st : HeapState) (a : PoolCall) : Decidable (st.PoolLegal a) :=
  match a with
  | .alloc _ => inferInstanceAs (Decidable True)
  | .free ptr => inferInstanceAs (Decidable (∃ e ∈ st.live, e.1 = ptr ∧ e.2 ≤ memPoolMaxSize))

/-- The call takes no page: the request is none for the pools, the pool for it has a free block, or
no page is free. -/
def Stocked (st : HeapState) : PoolCall → Prop
  | .alloc size => size = 0 ∨ memPoolMaxSize < size ∨ st.heap.stock size ≠ [] ∨
      st.heap.system.NoBlock 0
  | .free _ => True

instance (st : HeapState) (a : PoolCall) : Decidable (st.Stocked a) :=
  match a with
  | .alloc size => inferInstanceAs (Decidable (size = 0 ∨ memPoolMaxSize < size ∨
      st.heap.stock size ≠ [] ∨ st.heap.system.NoBlock 0))
  | .free _ => inferInstanceAs (Decidable True)

end HeapState

/-- Sequences of calls of the pool allocator, from any state of the heap set up in the region `R`,
whose page map held `old`. -/
def poolRuns (R : Region) (old : ℕ → Page) : Lts.System HeapState PoolCall Fault where
  init st := (heapRuns R old).ReachableVia HeapState.Legal st
  step := HeapState.poolStep

/-! ## One call -/

variable {n : ℕ} {old : ℕ → Page} {st st' : HeapState}

theorem HeapInv.poolAlloc (h : HeapInv n old st.heap st.live) {size : ℕ}
    (hstep : st.poolStep (.alloc size) = .ok st') :
    HeapInv n old st'.heap st'.live ∧ freePages st.heap.system =
      freePages st'.heap.system + if st.Stocked (.alloc size) then 0 else 1 := by
  obtain ⟨⟨r, heap⟩, halloc, hret⟩ := Fallible.bind_eq_ok.mp hstep
  by_cases hsize : size = 0 ∨ memPoolMaxSize < size
  · have hnone : memPoolAlloc st.heap size = .ok (none, st.heap) := by
      rw [memPoolAlloc, if_pos hsize]
      rfl
    obtain ⟨rfl, rfl⟩ := Prod.mk.inj (Except.ok.inj (halloc.symm.trans hnone))
    cases hret
    have hstocked : st.Stocked (.alloc size) := hsize.imp_right Or.inl
    rw [if_pos hstocked, Nat.add_zero]
    exact ⟨h, rfl⟩
  push Not at hsize
  rcases memPoolAlloc_spec h hsize.1 hsize.2 with ⟨hnone, -, hno⟩ | ⟨c', x, hsome, h', hcharged⟩
  · obtain ⟨rfl, rfl⟩ := Prod.mk.inj (Except.ok.inj (halloc.symm.trans hnone))
    cases hret
    have hstocked : st.Stocked (.alloc size) := Or.inr (Or.inr (Or.inr hno))
    rw [if_pos hstocked, Nat.add_zero]
    exact ⟨h, rfl⟩
  obtain ⟨rfl, rfl⟩ := Prod.mk.inj (Except.ok.inj (halloc.symm.trans hsome))
  cases hret
  refine ⟨h', ?_⟩
  rcases hcharged with ⟨hstock, hsys⟩ | ⟨hstock, hblock, hpages⟩
  · have hstocked : st.Stocked (.alloc size) := Or.inr (Or.inr (Or.inl hstock))
    rw [if_pos hstocked, Nat.add_zero, hsys]
  · have htakes : ¬ st.Stocked (.alloc size) := by
      rintro (hz | hl | hs | hno)
      · exact hsize.1 hz
      · omega
      · exact hs hstock
      · exact hblock hno
    rw [if_neg htakes]
    exact hpages

theorem HeapInv.poolFree (h : HeapInv n old st.heap st.live) {ptr : ℕ}
    (ha : st.PoolLegal (.free ptr)) (hstep : st.poolStep (.free ptr) = .ok st') :
    HeapInv n old st'.heap st'.live ∧ freePages st.heap.system = freePages st'.heap.system := by
  obtain ⟨e, he, rfl, hl⟩ := ha
  obtain ⟨heap, hfree, hret⟩ := Fallible.bind_eq_ok.mp hstep
  obtain ⟨c', hc', h', hsys⟩ := memPoolFree_spec h he hl
  obtain rfl : c' = heap := Except.ok.inj (hc'.symm.trans hfree)
  cases hret
  exact ⟨h', by rw [hsys]⟩

theorem HeapInv.poolStep (h : HeapInv n old st.heap st.live) {a : PoolCall} (ha : st.PoolLegal a)
    (hstep : st.poolStep a = .ok st') :
    HeapInv n old st'.heap st'.live ∧ freePages st.heap.system =
      freePages st'.heap.system + if st.Stocked a then 0 else 1 := by
  cases a with
  | alloc size => exact h.poolAlloc hstep
  | free ptr =>
    have hstocked : st.Stocked (.free ptr) := trivial
    rw [if_pos hstocked, Nat.add_zero]
    exact h.poolFree ha hstep

/-! ## Sequences of calls -/

theorem HeapInv.execVia {R : Region} (calls : List PoolCall) {st : HeapState}
    (h : HeapInv n old st.heap st.live)
    (hrun : (poolRuns R old).execVia HeapState.PoolLegal st calls = some st') :
    freePages st'.heap.system ≤ freePages st.heap.system ∧
      (freePages st'.heap.system = freePages st.heap.system ↔
        (poolRuns R old).execVia (fun s a => s.PoolLegal a ∧ s.Stocked a) st calls = some st') := by
  induction calls generalizing st with
  | nil =>
    obtain rfl : st = st' := by simpa [Lts.System.execVia] using hrun
    exact ⟨le_rfl, by simp [Lts.System.execVia]⟩
  | cons a calls ih =>
    rw [Lts.System.execVia] at hrun ⊢
    split_ifs at hrun with ha
    cases hstep : (poolRuns R old).step st a with
    | error e => simp [hstep] at hrun
    | ok t =>
      simp only [hstep] at hrun ⊢
      obtain ⟨ht, hpages⟩ := h.poolStep ha hstep
      obtain ⟨hle, hiff⟩ := ih ht hrun
      by_cases hstocked : st.Stocked a
      · rw [if_pos hstocked, Nat.add_zero] at hpages
        rw [if_pos ⟨ha, hstocked⟩, hpages]
        exact ⟨hle, hiff⟩
      · rw [if_neg hstocked] at hpages
        rw [if_neg (fun hboth => hstocked hboth.2)]
        refine ⟨by omega, ?_⟩
        have hne : freePages st'.heap.system ≠ freePages st.heap.system := by omega
        simp [hne]

/-- **A sequence of calls of the pool allocator leaves the number of free pages as it was exactly if
none of its calls takes a page**, whether or not it releases all that it allocates. -/
theorem poolRuns_givenBack_iff (R : Region) (old : ℕ → Page) {start n : ℕ}
    (hlayout : buddyLayout R.mem R.size = .ok (start, n)) (hn : n < 2 ^ (maxOrder + 1))
    {st st' : HeapState} (hr : (heapRuns R old).ReachableVia HeapState.Legal st)
    {calls : List PoolCall}
    (hrun : (poolRuns R old).execVia HeapState.PoolLegal st calls = some st') :
    freePages st'.heap.system = freePages st.heap.system ↔
      (poolRuns R old).execVia (fun s a => s.PoolLegal a ∧ s.Stocked a) st calls = some st' :=
  (HeapInv.execVia calls (HeapInv.of_reachable hlayout hn hr) hrun).2

/-- The theorem applies to a request that finds a free block in its pool, and to its release. -/
theorem poolRuns_givenBack_iff_stocked :
    ∃ st st', (heapRuns fourPages fun _ => ⟨0, 0⟩).ReachableVia HeapState.Legal st ∧
      (poolRuns fourPages fun _ => ⟨0, 0⟩).execVia HeapState.PoolLegal st
        [.alloc 16, .free 16352] = some st' ∧
      (freePages st'.heap.system = freePages st.heap.system ↔
        (poolRuns fourPages fun _ => ⟨0, 0⟩).execVia (fun s a => s.PoolLegal a ∧ s.Stocked a) st
          [.alloc 16, .free 16352] = some st') := by
  obtain ⟨st, hr, hsome⟩ := Lts.System.exists_reachableVia_of_map
    (M := heapRuns fourPages fun _ => ⟨0, 0⟩) HeapState.Legal
    (x := heapCreate fourPages.mem fourPages.size fun _ => ⟨0, 0⟩)
    (P := fun st => ((poolRuns fourPages fun _ => ⟨0, 0⟩).execVia HeapState.PoolLegal st
      [.alloc 16, .free 16352]).isSome = true) [.malloc 16]
    (fun c hc => (⟨hc, rfl⟩ : (heapRuns _ _).init ⟨c, []⟩)) (by decide +kernel)
  obtain ⟨st', hst'⟩ := Option.isSome_iff_exists.mp hsome
  exact ⟨st, st', hr, hst',
    poolRuns_givenBack_iff fourPages _ buddyLayout_fourPages (by decide) hr hst'⟩

/-- A block is allocated and released, and its page stays with the pool. -/
theorem memPoolFree_keepsPage :
    ∃ st st', (heapRuns fourPages fun _ => ⟨0, 0⟩).ReachableVia HeapState.Legal st ∧
      (poolRuns fourPages fun _ => ⟨0, 0⟩).execVia HeapState.PoolLegal st
        [.alloc 16, .free 16368] = some st' ∧
      st.live = [] ∧ st'.live = [] ∧ freePages st.heap.system = 2 ∧
      freePages st'.heap.system = 1 := by
  obtain ⟨st, hr, hsome, hlive, hpages⟩ := Lts.System.exists_reachableVia_of_map
    (M := heapRuns fourPages fun _ => ⟨0, 0⟩) HeapState.Legal
    (x := heapCreate fourPages.mem fourPages.size fun _ => ⟨0, 0⟩)
    (P := fun st => ((poolRuns fourPages fun _ => ⟨0, 0⟩).execVia HeapState.PoolLegal st
      [.alloc 16, .free 16368]).any (fun st' => decide (st'.live = [] ∧
        freePages st'.heap.system = 1)) = true ∧ st.live = [] ∧ freePages st.heap.system = 2) []
    (fun c hc => (⟨hc, rfl⟩ : (heapRuns _ _).init ⟨c, []⟩)) (by decide +kernel)
  obtain ⟨st', hst', hend⟩ := (Option.any_eq_true _ _).mp hsome
  obtain ⟨hlive', hpages'⟩ := of_decide_eq_true hend
  exact ⟨st, st', hr, hst', hlive, hlive', hpages, hpages'⟩

end Ginkgo.Mm
