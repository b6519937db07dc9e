import Ginkgo.Libc.Memory
import Ginkgo.Mm.HeapRun

/-!
# `calloc` and `realloc`

The functions of `mm/kalloc.c` that write the memory they return.  The contents of the memory are
modelled beside the heap: what the allocators store in pages that nobody has allocated is part of
the heap, and the allocations are apart from it.

The sizes are 64-bit words, but `nmemb * size` is reduced, `align_up` wraps around for the largest
sizes, and `memset` and `memcpy` take 32-bit lengths.

## Main results

* `kalloc_sound_iff` — the requests that `malloc` and `calloc` serve.
* `realloc_preserves_iff` — the requests for which `realloc` keeps the contents.
-/

namespace Ginkgo.Mm

open Libc

/-- `calloc`. -/
def calloc (c : MemPoolControl) (mem : Memory) (nmemb size : ℕ) :
    Except Fault (Option ℕ × MemPoolControl × Memory) := do
  let (ptr, c) ← malloc c (wrap64 (nmemb * size))
  match ptr with
  | none => return (none, c, mem)
  | some ptr => return (some ptr, c, memset mem ptr 0 (wrap64 (nmemb * size)))

/-- `realloc`, with the addresses that the copy reads. -/
def realloc (c : MemPoolControl) (mem : Memory) (old size : ℕ) :
    Except Fault (Option ℕ × MemPoolControl × Memory × List ℕ) := do
  let (new, c) ← malloc c size
  match new with
  | none => return (none, c, mem, [])
  | some new =>
    let (mem, reads) := memcpy mem new old size
    let c ← free c old
    return (some new, c, mem, reads)

/-- The length of the block at `ptr`: for the start of a page what the page map says, and otherwise
the block size of the pool that the page belongs to. -/
def capacity (c : MemPoolControl) (ptr : ℕ) : ℕ :=
  if ptr &&& (pageSize - 1) = 0 then
    2 ^ (c.system.map (sub64 ptr c.system.pageStart / pageSize)).order * pageSize
  else
    match c.header (pageOf ptr) with
    | some header => ((c.pool header.pool.1 header.pool.2).map MemPool.size).getD 0
    | none => 0

variable {n : ℕ} {old : ℕ → Page} {c c' : MemPoolControl} {live : List (ℕ × ℕ)}

/-! ## The length of a block -/

theorem HeapInv.capacity_eq (h : HeapInv n old c live) {e : ℕ × ℕ} (he : e ∈ live) :
    capacity c e.1 = extent e.2 := by
  have hand : e.1 &&& (pageSize - 1) = e.1 % pageSize := Nat.and_two_pow_sub_one_eq_mod e.1 12
  unfold capacity
  rw [hand]
  rcases Nat.lt_or_ge memPoolMaxSize e.2 with hl | hl
  · have hmem : (e.1, pageCount e.2) ∈ heapEntries c live := mem_heapEntries_of_live he hl
    have haddr : e.1 = c.system.pageStart +
        (liveBlock c.system (e.1, pageCount e.2)).start * pageSize :=
      h.owned.address (e := (e.1, pageCount e.2)) hmem
    have hfits := (h.owned.placed hmem).fits
    have hrange := (h.owned.range hmem).2
    dsimp only at hrange
    have hpos := Nat.two_pow_pos (Nat.clog 2 (pageCount e.2))
    have hsub : sub64 e.1 c.system.pageStart = e.1 - c.system.pageStart := by
      refine sub64_of_le hrange.1 ?_
      have hone : 1 * pageSize ≤ 2 ^ Nat.clog 2 (pageCount e.2) * pageSize :=
        Nat.mul_le_mul_right _ hpos
      unfold pageSize at *
      omega
    have hpfn : sub64 e.1 c.system.pageStart / pageSize =
        (liveBlock c.system (e.1, pageCount e.2)).start := by
      have hdiff : e.1 - c.system.pageStart =
          (liveBlock c.system (e.1, pageCount e.2)).start * pageSize := by omega
      rw [hsub, hdiff, Nat.mul_div_cancel _ (by decide)]
    rw [if_pos (h.large_mod he hl), hpfn,
      h.owned.sound.inv.pages.order _ ⟨_, hmem, rfl⟩ (by simp), extent_large hl]
    rfl
  · obtain ⟨f, s, hx, -, hz⟩ := h.small e he hl
    obtain ⟨hd, hhd, hpool, hvalid, hmod, -⟩ := h.pools.isSlot_facts hx
    obtain ⟨p, hp⟩ := h.pools.complete f s hvalid
    rw [if_neg hmod, hhd, extent_small hl hz]
    dsimp only
    rw [hpool, hp, ← (h.pools.valid f s p hp).2]
    rfl

theorem HeapInv.fits (h : HeapInv n old c live) {e : ℕ × ℕ} (he : e ∈ live) :
    0 < e.1 ∧ e.1 + extent e.2 ≤ 2 ^ 64 := by
  obtain ⟨hlo, hhi, hplaced⟩ := h.inside he
  have hpos := hplaced.pos
  have hfits := hplaced.fits
  exact ⟨by omega, by omega⟩

theorem extent_le {size : ℕ} (hle : size ≤ 2 ^ maxOrder * pageSize) :
    extent size ≤ 2 ^ maxOrder * pageSize := by
  rcases Nat.lt_or_ge memPoolMaxSize size with hl | hl
  · rw [HeapInv.extent_large hl]
    have h0 : 1 ≤ size := by omega
    refine Nat.mul_le_mul_right _ (Nat.pow_le_pow_right (by norm_num) ?_)
    exact clog_le_maxOrder (pageCount_bounds h0 hle).2.1
  · obtain ⟨z, hz, -, -, hmax, -⟩ := adjustRequestSize_spec hl
    rw [HeapInv.extent_small hl hz]
    exact hmax.trans (by decide)

/-! ## `malloc` -/

theorem malloc_beyond (c : MemPoolControl) {size : ℕ} (hlo : 2 ^ maxOrder * pageSize < size)
    (hhi : size < 2 ^ 64) : ∃ e, malloc c size = .error e := by
  have hmax : 2 ^ maxOrder * pageSize = 2 ^ 32 := by decide
  have hl : memPoolMaxSize < size := by
    unfold memPoolMaxSize
    omega
  have hshift : (2 ^ 12 * (wrap64 (size + (2 ^ 12 - 1)) / 2 ^ 12)) >>> pageShift =
      wrap64 (size + (2 ^ 12 - 1)) / 2 ^ 12 := by
    rw [Nat.shiftRight_eq_div_pow]
    exact Nat.mul_div_cancel_left _ (by decide)
  rw [malloc, if_pos hl, show pageSize = 2 ^ 12 from rfl, alignUp_two_pow size (by decide),
    Fallible.ok_bind, hshift, allocPage]
  rcases Nat.lt_or_ge (size + (2 ^ 12 - 1)) (2 ^ 64) with hfit | hwrap
  · have hlarge : buddyAllocPage c.system (wrap64 (size + (2 ^ 12 - 1)) / 2 ^ 12) =
        .error .badAccess := by
      have hpow : 2 ^ maxOrder = 2 ^ 20 := rfl
      rw [wrap64_of_lt hfit]
      exact buddyAllocPage_large _ (by omega) (by omega)
    exact ⟨.badAccess, by rw [hlarge]; rfl⟩
  · -- the rounding wraps around, and no page is left
    have hzero : wrap64 (size + (2 ^ 12 - 1)) / 2 ^ 12 = 0 := by
      unfold wrap64
      omega
    exact ⟨.panic, by rw [hzero]; rfl⟩

/-- `malloc` returns, and what it returns is at least as long as asked for. -/
def MallocSound (c : MemPoolControl) (size : ℕ) : Prop :=
  ∃ r c', malloc c size = .ok (r, c') ∧ ∀ x, r = some x → size ≤ capacity c' x

theorem HeapInv.mallocSound_iff (h : HeapInv n old c live) {size : ℕ} (hsize : size < 2 ^ 64) :
    MallocSound c size ↔ size ≤ 2 ^ maxOrder * pageSize := by
  constructor
  · rintro ⟨r, c', hmalloc, -⟩
    by_contra hlarge
    obtain ⟨e, he⟩ := malloc_beyond c (Nat.lt_of_not_le hlarge) hsize
    cases hmalloc.symm.trans he
  · intro hle
    rcases Nat.eq_zero_or_pos size with rfl | h0
    · exact ⟨none, c, rfl, by simp⟩
    · rcases malloc_spec h h0 hle with ⟨hnone, -⟩ | ⟨c', x, hsome, h', -⟩
      · exact ⟨none, c, hnone, by simp⟩
      · refine ⟨some x, c', hsome, fun y hy => ?_⟩
        cases hy
        rw [h'.capacity_eq List.mem_cons_self]
        exact le_extent h0 hle

/-! ## `calloc` -/

/-- `calloc` returns, and what it returns is long enough for `nmemb * size` bytes, which are zero
whatever the memory held. -/
def CallocSound (c : MemPoolControl) (nmemb size : ℕ) : Prop :=
  ∀ mem, ∃ r c' mem', calloc c mem nmemb size = .ok (r, c', mem') ∧ ∀ x, r = some x →
    nmemb * size ≤ capacity c' x ∧ ∀ i < nmemb * size, mem' (x + i) = 0

theorem callocSound_of_none {nmemb size : ℕ}
    (hnone : malloc c (wrap64 (nmemb * size)) = .ok (none, c)) : CallocSound c nmemb size := by
  intro mem
  refine ⟨none, c, mem, ?_, by simp⟩
  rw [calloc, hnone]
  rfl

theorem HeapInv.callocSound (h : HeapInv n old c live) {nmemb size : ℕ}
    (hshort : nmemb * size ≤ 2 ^ 31) : CallocSound c nmemb size := by
  have hmax : 2 ^ maxOrder * pageSize = 2 ^ 32 := by decide
  have hw : wrap64 (nmemb * size) = nmemb * size := wrap64_of_lt (by omega)
  rcases Nat.eq_zero_or_pos (nmemb * size) with hzero | hpos
  · exact callocSound_of_none (by rw [hw, hzero]; rfl)
  have hle : nmemb * size ≤ 2 ^ maxOrder * pageSize := by omega
  rcases malloc_spec h hpos hle with ⟨hnone, -⟩ | ⟨c', x, hsome, h', -⟩
  · exact callocSound_of_none (hw.symm ▸ hnone)
  intro mem
  refine ⟨some x, c', memset mem x 0 (nmemb * size), ?_, fun y hy => ?_⟩
  · rw [calloc, hw, hsome]
    rfl
  cases hy
  have hcap := h'.capacity_eq List.mem_cons_self
  have hlen := le_extent hpos hle
  obtain ⟨-, hfit⟩ := h'.fits List.mem_cons_self
  dsimp only at hcap hfit
  exact ⟨by omega, fun i hi => memset_apply hshort (by omega) hi⟩

theorem HeapInv.le_of_callocSound (h : HeapInv n old c live) {nmemb size : ℕ}
    (hsound : CallocSound c nmemb size) (h0 : wrap64 (nmemb * size) ≠ 0)
    (hroom : wrap64 (nmemb * size) ≤ 2 ^ maxOrder * pageSize →
      ¬ c.Exhausted (wrap64 (nmemb * size))) :
    nmemb * size ≤ 2 ^ 31 := by
  have hmax : 2 ^ maxOrder * pageSize = 2 ^ 32 := by decide
  obtain ⟨r, c', mem', hcalloc, hblock⟩ := hsound fun _ => 1
  obtain ⟨⟨ptr, c₁⟩, hmalloc, hret⟩ := Fallible.bind_eq_ok.mp hcalloc
  have hle : wrap64 (nmemb * size) ≤ 2 ^ maxOrder * pageSize := by
    by_contra hlarge
    obtain ⟨e, he⟩ := malloc_beyond c (Nat.lt_of_not_le hlarge) (wrap64_lt _)
    cases hmalloc.symm.trans he
  rcases malloc_spec h (Nat.pos_of_ne_zero h0) hle with ⟨-, hex⟩ | ⟨c₂, x, hsome, h', -⟩
  · exact absurd hex (hroom hle)
  obtain ⟨rfl, rfl⟩ := Prod.mk.inj (Except.ok.inj (hmalloc.symm.trans hsome))
  obtain ⟨rfl, hrest⟩ := Prod.mk.inj (Except.ok.inj hret)
  cases hrest
  obtain ⟨hlen, hzero⟩ := hblock x rfl
  have hcap := h'.capacity_eq List.mem_cons_self
  have hext := extent_le hle
  obtain ⟨-, hfit⟩ := h'.fits List.mem_cons_self
  dsimp only at hcap hfit
  by_contra hlong
  have hfar := hzero (2 ^ 31) (by omega)
  rw [memset_far (by omega)] at hfar
  exact absurd hfar (by decide)

theorem HeapInv.callocSound_iff (h : HeapInv n old c live) (nmemb size : ℕ) :
    CallocSound c nmemb size ↔
      wrap64 (nmemb * size) = 0 ∨
      (wrap64 (nmemb * size) ≤ 2 ^ maxOrder * pageSize ∧ c.Exhausted (wrap64 (nmemb * size))) ∨
      nmemb * size ≤ 2 ^ 31 := by
  constructor
  · intro hsound
    by_cases h0 : wrap64 (nmemb * size) = 0
    · exact Or.inl h0
    by_cases hfull : wrap64 (nmemb * size) ≤ 2 ^ maxOrder * pageSize ∧
        c.Exhausted (wrap64 (nmemb * size))
    · exact Or.inr (Or.inl hfull)
    · exact Or.inr (Or.inr (h.le_of_callocSound hsound h0 fun hle hex => hfull ⟨hle, hex⟩))
  · have hnull : malloc c 0 = .ok (none, c) := rfl
    rintro (h0 | ⟨hle, hex⟩ | hshort)
    · exact callocSound_of_none (h0.symm ▸ hnull)
    · rcases Nat.eq_zero_or_pos (wrap64 (nmemb * size)) with h0 | hpos
      · exact callocSound_of_none (h0.symm ▸ hnull)
      · rcases malloc_spec h hpos hle with ⟨hnone, -⟩ | ⟨-, -, -, -, hno⟩
        · exact callocSound_of_none hnone
        · exact absurd hex hno
    · exact h.callocSound hshort

/-- **The requests that `malloc` and `calloc` serve**: `malloc` those up to the largest block, and
`calloc` those up to `2 ^ 31` bytes; `calloc` also returns `NULL` if the reduced product is zero, or
if there is no memory for it. -/
theorem kalloc_sound_iff (R : Region) (old : ℕ → Page) {start n : ℕ}
    (hlayout : buddyLayout R.mem R.size = .ok (start, n)) (hn : n < 2 ^ (maxOrder + 1))
    {st : HeapState} (hr : (heapRuns R old).ReachableVia HeapState.Legal st) :
    (∀ size < 2 ^ 64, MallocSound st.heap size ↔ size ≤ 2 ^ maxOrder * pageSize) ∧
    ∀ nmemb < 2 ^ 64, ∀ size < 2 ^ 64, CallocSound st.heap nmemb size ↔
      wrap64 (nmemb * size) = 0 ∨
      (wrap64 (nmemb * size) ≤ 2 ^ maxOrder * pageSize ∧
        st.heap.Exhausted (wrap64 (nmemb * size))) ∨
      nmemb * size ≤ 2 ^ 31 := by
  have hinv := HeapInv.of_reachable hlayout hn hr
  exact ⟨fun size hsize => hinv.mallocSound_iff hsize,
    fun nmemb _ size _ => hinv.callocSound_iff nmemb size⟩

theorem exists_freshHeap (P : HeapState → Prop) [DecidablePred P]
    (h : (heapCreate fourPages.mem fourPages.size fun _ => ⟨0, 0⟩).map
      (fun c => decide (P ⟨c, []⟩)) = .ok true) :
    ∃ st, (heapRuns fourPages fun _ => ⟨0, 0⟩).ReachableVia HeapState.Legal st ∧ P st := by
  obtain ⟨c, hc, hP⟩ := Fallible.map_eq_ok.mp h
  exact ⟨⟨c, []⟩, .init ⟨hc, rfl⟩, of_decide_eq_true hP⟩

/-- The theorem applies to a new heap over two pages. -/
theorem kalloc_sound_iff_twoPages :
    ∃ st, (heapRuns fourPages fun _ => ⟨0, 0⟩).ReachableVia HeapState.Legal st ∧
      (MallocSound st.heap 100 ↔ 100 ≤ 2 ^ maxOrder * pageSize) ∧
      (CallocSound st.heap 3 8 ↔ wrap64 (3 * 8) = 0 ∨
        (wrap64 (3 * 8) ≤ 2 ^ maxOrder * pageSize ∧ st.heap.Exhausted (wrap64 (3 * 8))) ∨
        3 * 8 ≤ 2 ^ 31) := by
  obtain ⟨st, hr, -⟩ := exists_freshHeap (fun _ => True) (by decide +kernel)
  obtain ⟨hmalloc, hcalloc⟩ := kalloc_sound_iff fourPages _ buddyLayout_fourPages (by decide) hr
  exact ⟨st, hr, hmalloc 100 (by decide), hcalloc 3 (by decide) 8 (by decide)⟩

/-- The request of `2 ^ 64 - 1` bytes is rounded up to no page, which is an assertion that fails;
and of the `2 ^ 64 + 2` bytes of an array `calloc` allocates two. -/
theorem kalloc_wraps :
    ∃ st, (heapRuns fourPages fun _ => ⟨0, 0⟩).ReachableVia HeapState.Legal st ∧
      malloc st.heap (2 ^ 64 - 1) = .error .panic ∧
      ∀ mem, ∃ c', calloc st.heap mem (2 ^ 63 + 1) 2 = .ok (some 16368, c', memset mem 16368 0 2) ∧
        capacity c' 16368 = 16 := by
  obtain ⟨st, hr, hpanic, htwo⟩ := exists_freshHeap
    (fun st => (malloc st.heap (2 ^ 64 - 1)).map (fun _ => ()) = .error .panic ∧
      (malloc st.heap 2).map (fun r => (r.1, capacity r.2 16368)) = .ok (some 16368, 16))
    (by decide +kernel)
  refine ⟨st, hr, Fallible.map_eq_error.mp hpanic, fun mem => ?_⟩
  obtain ⟨⟨r, c'⟩, hmalloc, hcap⟩ := Fallible.map_eq_ok.mp htwo
  obtain ⟨rfl, hcap⟩ := Prod.mk.inj hcap
  have hw : wrap64 ((2 ^ 63 + 1) * 2) = 2 := by decide +kernel
  refine ⟨c', ?_, hcap⟩
  rw [calloc, hw, hmalloc]
  rfl

/-! ## `realloc` -/

/-- `realloc(old, size)` returns, and has kept what its caller relies on: the first bytes of the
contents, with reads inside the block only, and the other allocations; or, if it returns `NULL`,
everything. -/
def HeapState.Preserves (st : HeapState) (mem : Memory) (old size : ℕ) : Prop :=
  ∃ r c' mem' reads, realloc st.heap mem old size = .ok (r, c', mem', reads) ∧
    match r with
    | none => c' = st.heap ∧ mem' = mem
    | some new =>
      (∀ i < min (capacity st.heap old) size, mem' (new + i) = mem (old + i)) ∧
      (∀ a ∈ reads, old ≤ a ∧ a < old + capacity st.heap old) ∧
      ∀ e ∈ st.live, e.1 ≠ old → ∀ i < capacity st.heap e.1, mem' (e.1 + i) = mem (e.1 + i)

section Realloc

variable {st : HeapState} {e : ℕ × ℕ} {size : ℕ} {mem : Memory}

theorem preserves_of_none (hnone : malloc st.heap size = .ok (none, st.heap)) :
    st.Preserves mem e.1 size := by
  refine ⟨none, st.heap, mem, [], ?_, rfl, rfl⟩
  rw [realloc, hnone]
  rfl

theorem HeapInv.realloc_eq {x : ℕ} (he : e ∈ st.live)
    (hsome : malloc st.heap size = .ok (some x, c')) (h' : HeapInv n old c' ((x, size) :: st.live))
    (mem : Memory) : ∃ c'', realloc st.heap mem e.1 size =
      .ok (some x, c'', (memcpy mem x e.1 size).1, (memcpy mem x e.1 size).2) := by
  obtain ⟨c'', hc'', -⟩ := free_spec h' (List.mem_cons_of_mem _ he)
  refine ⟨c'', ?_⟩
  rw [realloc, hsome, Fallible.ok_bind]
  dsimp only
  rw [hc'']
  rfl

theorem HeapInv.preserves (h : HeapInv n old st.heap st.live) (he : e ∈ st.live) (h0 : 1 ≤ size)
    (hcap : size ≤ capacity st.heap e.1) (h32 : size < 2 ^ 32) : st.Preserves mem e.1 size := by
  have hmax : 2 ^ maxOrder * pageSize = 2 ^ 32 := by decide
  rcases malloc_spec h h0 (by omega) with ⟨hnone, -⟩ | ⟨c', x, hsome, h', -⟩
  · exact preserves_of_none hnone
  obtain ⟨c'', hrun⟩ := HeapInv.realloc_eq he hsome h' mem
  have hnew : (x, size) ∈ (x, size) :: st.live := List.mem_cons_self
  -- the new block is apart from all others
  have hapart : ∀ d ∈ st.live, Apart x (extent size) d.1 (extent d.2) := by
    intro d hd
    refine h'.live_apart hnew (List.mem_cons_of_mem _ hd) fun hptr => ?_
    refine (List.nodup_cons.mp h'.distinct).1 ?_
    rw [List.mem_map]
    exact ⟨d, hd, hptr.symm⟩
  have hlen := le_extent h0 (show size ≤ 2 ^ maxOrder * pageSize by omega)
  obtain ⟨hxpos, hxfit⟩ := h'.fits hnew
  obtain ⟨hepos, hefit⟩ := h.fits he
  dsimp only at hxpos hxfit
  rw [h.capacity_eq he] at hcap
  refine ⟨some x, c'', _, _, hrun, ?_, ?_, ?_⟩
  · intro i hi
    have hdisj : x + size ≤ e.1 ∨ e.1 + size ≤ x := by
      have := hapart e he
      unfold Apart at this
      omega
    exact memcpy_copies h32 (by omega) (by omega) hdisj (hi.trans_le (min_le_right _ _))
  · intro a ha
    rw [memcpy_reads (by omega) (by omega), Nat.mod_eq_of_lt h32] at ha
    obtain ⟨i, hi, rfl⟩ := ha
    rw [h.capacity_eq he, wrap64_of_lt (by omega)]
    omega
  · intro d hd hne i hi
    rw [h.capacity_eq hd] at hi
    refine memcpy_frame (by omega) (by omega) fun j hj => ?_
    have := hapart d hd
    unfold Apart at this
    rw [Nat.mod_eq_of_lt h32] at hj
    rw [wrap64_of_lt (by omega)]
    omega

theorem HeapInv.le_of_preserves (h : HeapInv n old st.heap st.live) (he : e ∈ st.live)
    (h1 : 1 ≤ e.2 ∧ e.2 ≤ 2 ^ maxOrder * pageSize) (h0 : 1 ≤ size) (hsize : size < 2 ^ 64)
    (hall : ∀ mem, st.Preserves mem e.1 size)
    (hroom : size ≤ 2 ^ maxOrder * pageSize → ¬ st.heap.Exhausted size) :
    size ≤ capacity st.heap e.1 ∧ size < 2 ^ 32 := by
  have hmax : 2 ^ maxOrder * pageSize = 2 ^ 32 := by decide
  obtain ⟨r, c₁, mem', reads, hrun, hpres⟩ := hall fun a => if a = e.1 then 1 else 0
  have hle : size ≤ 2 ^ maxOrder * pageSize := by
    by_contra hlarge
    obtain ⟨f, hf⟩ := malloc_beyond st.heap (Nat.lt_of_not_le hlarge) hsize
    obtain ⟨_, hmalloc, -⟩ := Fallible.bind_eq_ok.mp hrun
    cases hmalloc.symm.trans hf
  rcases malloc_spec h h0 hle with ⟨-, hex⟩ | ⟨c', x, hsome, h', -⟩
  · exact absurd hex (hroom hle)
  obtain ⟨c'', hrun'⟩ := HeapInv.realloc_eq he hsome h'
    fun a => if a = e.1 then 1 else 0
  rw [hrun'] at hrun
  obtain ⟨rfl, hrest⟩ := Prod.mk.inj (Except.ok.inj hrun)
  obtain ⟨-, hrest⟩ := Prod.mk.inj hrest
  cases hrest
  obtain ⟨hcopied, hinside, -⟩ := hpres
  have hnew : (x, size) ∈ (x, size) :: st.live := List.mem_cons_self
  obtain ⟨hxpos, hxfit⟩ := h'.fits hnew
  obtain ⟨hepos, hefit⟩ := h.fits he
  have hlen := le_extent h0 hle
  have hlen' := le_extent h1.1 h1.2
  dsimp only at hxpos hxfit
  have h32 : size < 2 ^ 32 := by
    by_contra hlong
    have hzero : size % 2 ^ 32 = 0 := by omega
    have hne : x ≠ e.1 := by
      rintro rfl
      exact (List.nodup_cons.mp h'.distinct).1 (List.mem_map.mpr ⟨e, he, rfl⟩)
    have hfirst := hcopied 0 (by rw [h.capacity_eq he]; omega)
    rw [Nat.add_zero, Nat.add_zero, memcpy_frame (by omega) (by omega)
      (fun j hj => absurd hj (by omega))] at hfirst
    simp [hne] at hfirst
  refine ⟨?_, h32⟩
  by_contra hgrow
  have hread := hinside (wrap64 (e.1 + capacity st.heap e.1)) (by
    rw [memcpy_reads (by omega) (by omega), Nat.mod_eq_of_lt h32]
    exact ⟨capacity st.heap e.1, by omega, rfl⟩)
  rw [h.capacity_eq he] at hread
  rcases hefit.lt_or_eq with hlt | heq
  · rw [wrap64_of_lt hlt] at hread
    omega
  · rw [heq, wrap64] at hread
    omega

end Realloc

/-- **The requests for which `realloc` keeps the contents**: those that do not exceed the block they
are made for and are shorter than `2 ^ 32` bytes, and those for which there is no memory. -/
theorem realloc_preserves_iff (R : Region) (old : ℕ → Page) {start n : ℕ}
    (hlayout : buddyLayout R.mem R.size = .ok (start, n)) (hn : n < 2 ^ (maxOrder + 1))
    {st : HeapState} (hr : (heapRuns R old).ReachableVia HeapState.Legal st) {e : ℕ × ℕ}
    (he : e ∈ st.live) {size : ℕ} (h0 : 1 ≤ size) (hsize : size < 2 ^ 64) :
    (∀ mem, st.Preserves mem e.1 size) ↔
      (size ≤ 2 ^ maxOrder * pageSize ∧ st.heap.Exhausted size) ∨
      (size ≤ capacity st.heap e.1 ∧ size < 2 ^ 32) := by
  have hinv := HeapInv.of_reachable hlayout hn hr
  constructor
  · intro hall
    by_cases hfull : size ≤ 2 ^ maxOrder * pageSize ∧ st.heap.Exhausted size
    · exact Or.inl hfull
    · exact Or.inr (hinv.le_of_preserves he (live_sizes hr e he) h0 hsize hall
        fun hle hex => hfull ⟨hle, hex⟩)
  · rintro (⟨hle, hex⟩ | ⟨hcap, h32⟩) mem
    · rcases malloc_spec hinv h0 hle with ⟨hnone, -⟩ | ⟨-, -, -, -, hno⟩
      · exact preserves_of_none hnone
      · exact absurd hex hno
    · exact hinv.preserves he h0 hcap h32

/-- The theorem applies to a block of 32 bytes that is made smaller. -/
theorem realloc_preserves_iff_shrunk :
    ∃ st, (heapRuns fourPages fun _ => ⟨0, 0⟩).ReachableVia HeapState.Legal st ∧
      (16352, 24) ∈ st.live ∧ ((∀ mem, st.Preserves mem 16352 16) ↔
        (16 ≤ 2 ^ maxOrder * pageSize ∧ st.heap.Exhausted 16) ∨
        (16 ≤ capacity st.heap 16352 ∧ 16 < 2 ^ 32)) := by
  obtain ⟨st, hr, he⟩ := Lts.System.exists_reachableVia_of_map
    (M := heapRuns fourPages fun _ => ⟨0, 0⟩) HeapState.Legal
    (x := heapCreate fourPages.mem fourPages.size fun _ => ⟨0, 0⟩)
    (P := fun st => (16352, 24) ∈ st.live) [.malloc 24]
    (fun c hc => (⟨hc, rfl⟩ : (heapRuns _ _).init ⟨c, []⟩)) (by decide +kernel)
  exact ⟨st, hr, he,
    realloc_preserves_iff fourPages _ buddyLayout_fourPages (by decide) hr he (by decide)
      (by decide)⟩

/-- A block of 16 bytes at the end of its page is made larger: the copy reads the page behind it. -/
theorem realloc_overreads :
    ∃ st, (heapRuns fourPages fun _ => ⟨0, 0⟩).ReachableVia HeapState.Legal st ∧
      (16368, 16) ∈ st.live ∧ capacity st.heap 16368 = 16 ∧
      ∀ mem, ∃ new c' mem' reads, realloc st.heap mem 16368 100 = .ok (some new, c', mem', reads) ∧
        16384 ∈ reads := by
  obtain ⟨st, hr, he, hcap, hmalloc⟩ := Lts.System.exists_reachableVia_of_map
    (M := heapRuns fourPages fun _ => ⟨0, 0⟩) HeapState.Legal
    (x := heapCreate fourPages.mem fourPages.size fun _ => ⟨0, 0⟩)
    (P := fun st => (16368, 16) ∈ st.live ∧ capacity st.heap 16368 = 16 ∧
      (malloc st.heap 100).map Prod.fst = .ok (some 20336)) [.malloc 16]
    (fun c hc => (⟨hc, rfl⟩ : (heapRuns _ _).init ⟨c, []⟩)) (by decide +kernel)
  refine ⟨st, hr, he, hcap, fun mem => ?_⟩
  have hinv := HeapInv.of_reachable buddyLayout_fourPages (by decide) hr
  obtain ⟨⟨r, c₁⟩, hsome, hr₁⟩ := Fallible.map_eq_ok.mp hmalloc
  obtain rfl : r = some 20336 := hr₁
  rcases malloc_spec hinv (show 1 ≤ 100 by decide) (by decide) with ⟨hnone, -⟩ | ⟨c', x, hx, h', -⟩
  · cases hnone.symm.trans hsome
  obtain ⟨c'', hrun⟩ := HeapInv.realloc_eq he hx h' mem
  obtain ⟨hx, -⟩ := Prod.mk.inj (Except.ok.inj (hx.symm.trans hsome))
  cases hx
  refine ⟨20336, c'', _, _, hrun, ?_⟩
  rw [memcpy_reads (by decide) (by decide)]
  exact ⟨16, by decide, wrap64_of_lt (by decide)⟩

end Ginkgo.Mm
