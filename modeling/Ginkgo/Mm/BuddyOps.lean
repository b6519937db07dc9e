import Ginkgo.Mm.BuddyInvariant

/-!
# The buddy operations keep the invariant

One specification for each function of `mm/buddy.c`.  An operation that starts in a state with
the invariant returns normally, ends in a state with the invariant for the changed set of used
blocks, and keeps the free blocks coalesced.

## Main results

* `buddyLocateFree_spec` — the search finds a block of sufficient order if there is one.
* `pageSplitLoop_spec`, `pageMergeLoop_spec` — the two loops.
* `buddyAllocPage_spec`, `buddyFreePage_spec` — the two operations.
-/

namespace Ginkgo.Mm

open Dyadic Dyadic.Block
open Fallible (ok_bind error_bind)

variable {n : ℕ} {old : ℕ → Page} {U : Set Block} {hand : Option Block} {s : BuddySystem}
  {b : Block}

/-! ## Locating a free block -/

theorem lastEntry_spec (h : ListInv n s) {k : ℕ} (hk : k ≤ maxOrder) (hne : s.pageBuddy k ≠ []) :
    ∃ b ∈ freeBlocks s, b.order = k ∧ lastEntry s k = .ok b.start := by
  have hmem := List.getLast_mem hne
  refine ⟨around k ((s.pageBuddy k).getLast hne), h.around_mem_freeBlocks hk hmem, rfl, ?_⟩
  rw [h.start_around hk hmem, lastEntry, access_pos hk, ok_bind,
    List.getLast?_eq_some_getLast hne]
  rfl

private theorem testBit_and_shifted (x k i : ℕ) (hx : i < 64) :
    (x &&& wrap64 (not64 0 <<< k)).testBit i = (x.testBit i && decide (k ≤ i)) := by
  have hmask : (wrap64 (not64 0 <<< k)).testBit i = decide (k ≤ i) := by
    rw [wrap64, Nat.testBit_mod_two_pow, Nat.testBit_shiftLeft, not64, Nat.sub_zero,
      Nat.testBit_two_pow_sub_one]
    simp [hx]
    omega
  rw [Nat.testBit_and, hmask]

/-- **`buddy_locate_free`** returns a free block of at least the order asked for, and `NULL`
exactly if there is none.

**Proof sketch.** If the list of the order itself is empty, the masked bitmap has a bit set
exactly for the larger orders with a non-empty list, and `ffs` returns the lowest of them. -/
theorem buddyLocateFree_spec (h : ListInv n s) {k : ℕ} (hk : k ≤ maxOrder) :
    (buddyLocateFree s k = .ok none ∧ ∀ b ∈ freeBlocks s, b.order < k) ∨
      ∃ b ∈ freeBlocks s, k ≤ b.order ∧ buddyLocateFree s k = .ok (some b.start) := by
  have hcount : s.pageBuddy k = [] ↔ s.count k = 0 := by
    rw [h.count k hk, List.length_eq_zero_iff]
  unfold buddyLocateFree
  simp only [kassert_pos (Int.natCast_nonneg k), ok_bind, Int.toNat_natCast,
    access_pos hk, kassert_pos hcount]
  by_cases he : s.pageBuddy k = []
  swap
  · right
    obtain ⟨b, hb, hbk, hlast⟩ := lastEntry_spec h hk he
    exact ⟨b, hb, hbk.ge, by simp only [he, ↓reduceIte, hlast]; rfl⟩
  obtain ⟨m, hm⟩ : ∃ m, s.bitmap &&& wrap64 (not64 0 <<< k) = m := ⟨_, rfl⟩
  simp only [he, ↓reduceIte, hm]
  have hm64 : m < 2 ^ 64 := hm ▸ Nat.and_lt_two_pow _ (wrap64_lt _)
  have hbit : ∀ i, m.testBit i = true ↔ (k ≤ i ∧ i ≤ maxOrder) ∧ s.pageBuddy i ≠ [] := by
    intro i
    rcases Nat.lt_or_ge i 64 with hi | hi
    · rw [← hm, testBit_and_shifted _ _ _ hi, Bool.and_eq_true, h.bitmap i, decide_eq_true_eq]
      tauto
    · have hlow := Nat.testBit_lt_two_pow (hm64.trans_le (Nat.pow_le_pow_right (by norm_num) hi))
      simp only [hlow, Bool.false_eq_true, false_iff]
      unfold maxOrder
      omega
  by_cases hz : m = 0
  · left
    refine ⟨by simp only [hz, ↓reduceIte]; rfl, fun b hb => ?_⟩
    by_contra hlt
    have := (hbit b.order).mpr ⟨⟨by omega, hb.1⟩, List.ne_nil_of_mem hb.2⟩
    rw [hz, Nat.zero_testBit] at this
    exact absurd this (by decide)
  · right
    have hex : ∃ i, m.testBit i = true := Nat.exists_testBit_of_ne_zero hz
    have hfind := (hbit _).mp (Nat.find_spec hex)
    have hffs : buddyFfsSizet m = Nat.find hex :=
      buddyFfsSizet_eq hm64 (Nat.find_spec hex) fun i hi => by simpa using Nat.find_min hex hi
    obtain ⟨b, hb, hbk, hlast⟩ := lastEntry_spec h hfind.1.2 hfind.2
    refine ⟨b, hb, by omega, ?_⟩
    simp only [hz, ↓reduceIte, hffs, kassert_pos (Int.natCast_nonneg _), ok_bind,
      Int.toNat_natCast, hlast]
    rfl

/-! ## Splitting -/

theorem ListInv.setOrder (h : ListInv n s) (p k : ℕ) : ListInv n (s.setOrder p k) :=
  ⟨h.aligned, h.bounded, h.nodup, h.bitmap, h.count⟩

@[simp] theorem freeBlocks_setOrder (s : BuddySystem) (p k : ℕ) :
    freeBlocks (s.setOrder p k) = freeBlocks s := rfl

private theorem Inv.lt64 (h : Inv n old U hand s) : n < 2 ^ 64 - 1 :=
  h.small.trans (by decide)

theorem Inv.notMem_of_order_ne (h : Inv n old U hand s) (hb : b ∈ U) {c : Block} {p : ℕ}
    (hpc : p ∈ c) (hpb : p ∈ b) (ho : c.order ≠ b.order) : c ∉ freeBlocks s ∧ c ∉ U := by
  constructor <;> intro hc
  · exact ho (congrArg order (h.part.inj c (Or.inl hc) b (Or.inr hb) p hpc hpb))
  · exact ho (congrArg order (h.part.inj c (Or.inr hc) b (Or.inr hb) p hpc hpb))

private theorem insert_sdiff_insert {x y z : Block} {V : Set Block} (hy : y ∉ V \ {x}) :
    insert z (insert y (V \ {x}) \ {y}) = insert z (V \ {x}) := by
  rw [Set.insert_sdiff_of_mem _ (Set.mem_singleton y), Set.sdiff_singleton_eq_self hy]

/-- **The loop of `page_split`** halves the hand `m` times and frees the upper halves.

**Proof sketch.** Induction on `m`.  One iteration is one split of the partition: the page it
writes is the head of the upper half, whose buddy, the lower half, is the new hand and therefore
not free. -/
theorem pageSplitLoop_spec {k : ℕ} : ∀ (m : ℕ) (s : BuddySystem) (U : Set Block) (b : Block),
    Inv n old U (some b) s → b ∈ U → b.order = k + m → Coalesced maxOrder (freeBlocks s) →
    ∃ s', pageSplitLoop b.start k m s = .ok s' ∧
      Inv n old (insert (around k b.start) (U \ {b})) (some (around k b.start)) s' ∧
      Coalesced maxOrder (freeBlocks s') ∧ s'.pageStart = s.pageStart := by
  intro m
  induction m with
  | zero =>
    intro s U b h hb ho hc
    have he : around k b.start = b := by
      rw [← Nat.add_zero k, ← ho]
      exact (eq_around b.start_mem).symm
    refine ⟨s, rfl, ?_, hc, rfl⟩
    rw [he, Set.insert_sdiff_singleton, Set.insert_eq_of_mem hb]
    exact h
  | succ m ih =>
    intro s U b h hb ho hc
    have hpos : 0 < b.order := by omega
    have hup : b.upper.start = b.start + 1 <<< (k + m) := by
      rw [start_upper hpos, Nat.one_shiftLeft, ho]
      rfl
    have hupo : b.upper.order = k + m := by simp [ho]
    have hnup := h.notMem_of_order_ne hb b.upper.start_mem
      ((mem_iff_halves hpos).mpr (Or.inr b.upper.start_mem)) (by simp; omega)
    have hnlo := h.notMem_of_order_ne hb b.lower.start_mem
      ((mem_iff_halves hpos).mpr (Or.inl b.lower.start_mem)) (by simp; omega)
    have hpart := h.part.split hb hpos
    have hpages := h.pages.split h.part hb hpos
    obtain ⟨s₁, hs₁, hl₁, hf₁, hm₁, hps₁, hmx₁⟩ := buddyAddPage_spec (b := b.upper)
      (h.lists.setOrder b.upper.start (k + m)) h.lt64
      (by have := h.order_le hb; simp; omega) (hpart.start_lt (Or.inl (Or.inl rfl))) hnup.1
      (by simp [BuddySystem.setOrder, ho])
    have hmap : s₁.map = Function.update s.map b.upper.start ⟨1, b.order - 1⟩ := by
      rw [hm₁]
      exact Function.update_idem _ _ _
    rw [freeBlocks_setOrder] at hf₁
    have hinv : Inv n old (insert b.lower (U \ {b})) (some b.lower) s₁ :=
      ⟨h.small, hmx₁.trans h.last, hl₁, hf₁ ▸ hpart, by rw [hf₁, hmap]; exact hpages⟩
    have hco : Coalesced maxOrder (freeBlocks s₁) := by
      rw [hf₁]
      exact hc.insert fun _ => by rw [buddy_upper]; exact hnlo.1
    obtain ⟨s', hs', hinv', hco', hps'⟩ := ih s₁ _ b.lower hinv (Or.inl rfl) (by simp; omega) hco
    rw [start_lower hpos] at hs' hinv'
    refine ⟨s', ?_, ?_, hco', hps'.trans hps₁⟩
    · rw [pageSplitLoop, ← hup]
      simp only [hs₁, ok_bind]
      exact hs'
    · rwa [insert_sdiff_insert fun hl => hnlo.2 hl.1] at hinv'

theorem pageSplit_spec (h : Inv n old U none s) (hb : b ∈ U) {k : ℕ} (hk : k ≤ b.order)
    (hc : Coalesced maxOrder (freeBlocks s)) :
    ∃ s', pageSplit s b.start k = .ok s' ∧ Inv n old (insert (around k b.start) (U \ {b})) none s' ∧
      Coalesced maxOrder (freeBlocks s') ∧ s'.pageStart = s.pageStart := by
  have hord : (s.map b.start).order = b.order := h.pages.order b hb (by simp)
  obtain ⟨s₁, hs₁, h₁, hc₁, hps₁⟩ := pageSplitLoop_spec (k := k) (b.order - k) s U b
    ⟨h.small, h.last, h.lists, h.part, h.pages.toHand _⟩ hb (by omega) hc
  have hstart : (around k b.start).start = b.start :=
    start_around ((pow_dvd_pow 2 hk).trans b.dvd_start)
  refine ⟨s₁.setOrder b.start k, ?_, ?_, hc₁, hps₁⟩
  · rw [pageSplit, hord, hs₁]
    rfl
  · have hpages := h₁.pages.setHand h₁.part (Or.inl rfl)
    rw [hstart] at hpages
    exact ⟨h₁.small, h₁.last, h₁.lists.setOrder _ _, h₁.part, hpages⟩

theorem pagePrepareUsed_spec (h : Inv n old U none s) (hb : b ∈ freeBlocks s) {k : ℕ}
    (hk : k ≤ b.order) (hc : Coalesced maxOrder (freeBlocks s)) :
    ∃ s', pagePrepareUsed s b.start k = .ok (pageToPtr s b.start, s') ∧
      Inv n old (insert (around k b.start) U) none s' ∧
      Coalesced maxOrder (freeBlocks s') ∧ s'.pageStart = s.pageStart := by
  have hord : (s.map b.start).order = b.order := by rw [h.pages.free b hb]
  obtain ⟨s₁, hs₁, hl₁, hf₁, hm₁, hps₁, hmx₁⟩ := buddyDelPage_spec h.lists
    (by have := h.lt64; omega) hb hord
  have h₁ : Inv n old (insert b U) none s₁ :=
    ⟨h.small, hmx₁.trans h.last, hl₁, hf₁ ▸ h.part.take hb,
      by rw [hf₁, hm₁]; exact h.pages.take h.part hb⟩
  have hc₁ : Coalesced maxOrder (freeBlocks s₁) := hf₁ ▸ hc.mono Set.sdiff_subset
  have hord₁ : (s₁.map b.start).order = b.order := h₁.pages.order b (Or.inl rfl) (by simp)
  have hset : insert b U \ {b} = U := Set.insert_sdiff_self_of_notMem (h.part.notMem_used hb)
  rcases hk.lt_or_eq with hlt | heq
  · obtain ⟨s₂, hs₂, h₂, hc₂, hps₂⟩ := pageSplit_spec h₁ (Or.inl rfl) hk hc₁
    rw [hset] at h₂
    refine ⟨s₂, ?_, h₂, hc₂, hps₂.trans hps₁⟩
    rw [pagePrepareUsed, hs₁]
    simp only [ok_bind, hord₁, hlt, ↓reduceIte, hs₂, pageToPtr, hps₂.trans hps₁]
    rfl
  · have he : around k b.start = b := heq ▸ (eq_around b.start_mem).symm
    refine ⟨s₁, ?_, he.symm ▸ h₁, hc₁, hps₁⟩
    rw [pagePrepareUsed, hs₁]
    simp only [ok_bind, hord₁, heq, lt_irrefl, ↓reduceIte, pageToPtr, ← hps₁]
    rfl

/-! ## Allocation -/

theorem allocOrder_eq {count : ℕ} (h0 : count ≠ 0) (h : count ≤ 2 ^ 62) :
    buddyFlsSizet (wrap64 (count + sub64 (1 <<< (buddyFlsSizet count).toNat) 1)) =
      Nat.clog 2 count := by
  have hlog : 2 ^ Nat.log 2 count ≤ count := Nat.pow_log_le_self 2 h0
  have hpos := Nat.two_pow_pos (Nat.log 2 count)
  rw [buddyFlsSizet_eq h0 (by omega), Int.toNat_natCast, Nat.one_shiftLeft, sub64_of_le hpos
    (by omega), wrap64_of_lt (by omega), buddyFlsSizet_eq (by omega) (by omega),
    Bits.log_add_two_pow_log h0]

theorem clog_le_maxOrder {count : ℕ} (h : count ≤ 2 ^ maxOrder) : Nat.clog 2 count ≤ maxOrder :=
  Nat.clog_le_of_le_pow h

/-- **`buddy_alloc_page`** returns the first pages of a free block as a new used block, or `NULL`
if no free block is large enough. -/
theorem buddyAllocPage_spec (h : Inv n old U none s) (hc : Coalesced maxOrder (freeBlocks s))
    {count : ℕ} (h0 : count ≠ 0) (hle : count ≤ 2 ^ maxOrder) :
    (buddyAllocPage s count = .ok (none, s) ∧ ∀ b ∈ freeBlocks s, b.order < Nat.clog 2 count) ∨
      ∃ s' b c, buddyAllocPage s count = .ok (some (pageToPtr s c.start), s') ∧
        b ∈ freeBlocks s ∧ c.order = Nat.clog 2 count ∧ c ∉ U ∧ (∀ p ∈ c, p ∈ b) ∧
        Inv n old (insert c U) none s' ∧ Coalesced maxOrder (freeBlocks s') ∧
        s'.pageStart = s.pageStart := by
  unfold buddyAllocPage
  simp only [kassert_pos h0, ok_bind, allocOrder_eq h0 (hle.trans (by decide))]
  rcases buddyLocateFree_spec h.lists (clog_le_maxOrder hle) with ⟨hnone, hall⟩ | ⟨b, hb, hk, hsome⟩
  · left
    rw [hnone]
    exact ⟨rfl, hall⟩
  · right
    obtain ⟨s', hs', h', hc', hps'⟩ := pagePrepareUsed_spec h hb hk hc
    have hstart : (around (Nat.clog 2 count) b.start).start = b.start :=
      start_around ((pow_dvd_pow 2 hk).trans b.dvd_start)
    have hsub : ∀ p ∈ around (Nat.clog 2 count) b.start, p ∈ b :=
      fun _ hp => subset_of_mem (mem_around _ _) b.start_mem hk hp
    refine ⟨s', b, around (Nat.clog 2 count) b.start, ?_, hb, rfl, fun hU => ?_, hsub, h', hc',
      hps'⟩
    · rw [hsome, hstart]
      simp only [ok_bind, Int.toNat_natCast, hs']
      rfl
    · have := h.part.inj _ (Or.inr hU) b (Or.inl hb) b.start (mem_around _ _) b.start_mem
      exact h.part.notMem_used hb (this ▸ hU)

theorem buddyAllocPage_large (s : BuddySystem) {count : ℕ} (hlo : 2 ^ maxOrder < count)
    (hhi : count ≤ 2 ^ 62) : buddyAllocPage s count = .error .badAccess := by
  have h0 : count ≠ 0 := Nat.ne_zero_of_lt hlo
  have hord : ¬ Nat.clog 2 count ≤ maxOrder := by
    rw [Nat.clog_le_iff_le_pow (by norm_num)]
    omega
  have hlocate : buddyLocateFree s (Nat.clog 2 count : ℕ) = .error .badAccess := by
    rw [buddyLocateFree, kassert_pos (Int.natCast_nonneg _), ok_bind]
    simp only [Int.toNat_natCast]
    rw [access_neg hord, error_bind]
  unfold buddyAllocPage
  simp only [kassert_pos h0, ok_bind, allocOrder_eq h0 hhi, hlocate]
  rfl

/-! ## Merging -/

theorem start_buddy_eq_xor (b : Block) : b.start ^^^ 1 <<< b.order = b.buddy.start := by
  rw [Nat.one_shiftLeft]
  exact Bits.mul_two_pow_xor _ _

theorem start_parent_eq_and (b : Block) : b.buddy.start &&& b.start = b.parent.start :=
  Bits.mul_two_pow_and _ _

theorem start_upper_parent_eq_or (b : Block) :
    b.buddy.start ||| b.start = b.parent.upper.start := by
  refine (Bits.mul_two_pow_or _ _).trans ?_
  rw [Nat.mul_comm (b.index / 2) 2]
  rfl

theorem Inv.mem_freeBlocks_of_isFree (h : Inv n old U hand s) {c : Block} (hlt : c.start < n)
    (hle : c.order ≤ maxOrder) (ho : (s.map c.start).order = c.order)
    (hf : (s.map c.start).isFree = true) : c ∈ freeBlocks s := by
  by_cases hhead : ∃ d ∈ freeBlocks s ∪ U, d.start = c.start
  · obtain ⟨d, hd | hd, hs⟩ := hhead
    · have hdo : d.order = c.order := by rw [← ho, ← hs, h.pages.free d hd]
      have hdc : d = c := eq_of_mem d.start_mem (hs ▸ c.start_mem) hdo
      exact hdc ▸ hd
    · rw [← hs, Page.isFree, h.pages.used d hd] at hf
      simp at hf
  · have hint := (h.pages.interior c.start hlt fun d hd he => hhead ⟨d, hd, he⟩).1
    rw [ho, invalidOrder] at hint
    unfold maxOrder at hle
    omega

/-- **The loop of `page_merge`** merges the hand with its buddy until the buddy is not free.

**Proof sketch.** Induction on the number of orders left.  The tests of an iteration succeed
exactly if the buddy is a free block, and then the iteration is one merge of the partition. -/
theorem pageMergeLoop_spec : ∀ (m : ℕ) (s : BuddySystem) (U : Set Block) (b : Block),
    Inv n old U (some b) s → b ∈ U → m + b.order = maxOrder + 1 →
    Coalesced maxOrder (freeBlocks s) →
    ∃ s' c, pageMergeLoop m s b.start b.order = .ok (s', c.start, c.order) ∧
      Inv n old (insert c (U \ {b})) (some c) s' ∧ c ∉ U \ {b} ∧ c.buddy ∉ freeBlocks s' ∧
      Coalesced maxOrder (freeBlocks s') ∧ s'.pageStart = s.pageStart := by
  intro m
  induction m with
  | zero =>
    intro s U b h hb hm _
    have := h.order_le hb
    omega
  | succ m ih =>
    intro s U b h hb hm hc
    have hle := h.order_le hb
    have hlt := h.part.start_lt (Or.inr hb)
    have hlast : s.maxPfn = n - 1 := by
      rw [h.last, sub64_of_le (by omega) (by have := h.lt64; omega)]
    rw [pageMergeLoop, start_buddy_eq_xor]
    by_cases hF : b.buddy ∈ freeBlocks s
    · have hpage := h.pages.free _ hF
      have hblt := h.part.start_lt (Or.inl hF)
      have hnpar := h.notMem_of_order_ne hb (c := b.parent)
        (mem_parent_iff.mpr (Or.inl b.start_mem)) b.start_mem (by simp)
      obtain ⟨s₁, hs₁, hl₁, hf₁, hm₁, hps₁, hmx₁⟩ := buddyDelPage_spec h.lists
        (by have := h.lt64; omega) hF (by rw [hpage])
      have hpages := h.pages.merge h.part hb hF
      have hinv : Inv n old (insert b.parent (U \ {b})) (some b.parent)
          (s₁.setOrder b.parent.upper.start invalidOrder) := by
        refine ⟨h.small, hmx₁.trans h.last, hl₁.setOrder _ _, ?_, ?_⟩
        · rw [freeBlocks_setOrder, hf₁]
          exact h.part.merge hb hF
        · rw [freeBlocks_setOrder, hf₁, BuddySystem.setOrder, hm₁]
          exact hpages
      have hco : Coalesced maxOrder
          (freeBlocks (s₁.setOrder b.parent.upper.start invalidOrder)) := by
        rw [freeBlocks_setOrder, hf₁]
        exact hc.mono Set.sdiff_subset
      obtain ⟨s', c, hs', h', hcU, hbd, hco', hps'⟩ :=
        ih _ _ b.parent hinv (Or.inl rfl) (by simp; omega) hco
      have hset : insert b.parent (U \ {b}) \ {b.parent} = U \ {b} :=
        Set.insert_sdiff_self_of_notMem fun hp => hnpar.2 hp.1
      rw [hset] at h' hcU
      refine ⟨s', c, ?_, h', hcU, hbd, hco', hps'.trans hps₁⟩
      have hvalid : pfnValid s b.buddy.start := by
        rw [pfnValid, hlast]
        omega
      simp only [hvalid, not_true_eq_false, ↓reduceIte, hpage, order_buddy, ne_eq, Page.isFree,
        show Nat.testBit 1 0 = true from rfl, Bool.true_eq_false, hs₁, ok_bind,
        start_upper_parent_eq_or, start_parent_eq_and]
      exact hs'
    · refine ⟨s, b, ?_, ?_, fun hmem => hmem.2 rfl, hF, hc, rfl⟩
      · split_ifs with hv ho hfree
        · rfl
        · rfl
        · refine absurd (h.mem_freeBlocks_of_isFree (c := b.buddy) ?_ hle
            (not_not.mp ho) ?_) hF
          · rw [pfnValid, hlast] at hv
            omega
          · simpa using hfree
        · rfl
      · rwa [Set.insert_sdiff_singleton, Set.insert_eq_of_mem hb]

/-! ## Release -/

/-- Pages `0 … n - 1` lie behind a non-null page boundary and do not wrap around. -/
structure Placed (n start : ℕ) : Prop where
  aligned : pageSize ∣ start
  pos : 0 < start
  fits : start + n * pageSize ≤ 2 ^ 64

theorem Placed.pageToPtr_eq (hp : Placed n s.pageStart) {p : ℕ} (h : p < n) :
    pageToPtr s p = s.pageStart + p * pageSize := by
  have h1 := hp.fits
  have h2 : (p + 1) * pageSize ≤ n * pageSize := Nat.mul_le_mul_right _ h
  exact wrap64_of_lt (by unfold pageSize at *; omega)

theorem Placed.pageFromPtr_pageToPtr (hp : Placed n s.pageStart) {p : ℕ} (h : p < n) :
    pageFromPtr s (pageToPtr s p) = .ok p := by
  have h1 := hp.fits
  have h2 : (p + 1) * pageSize ≤ n * pageSize := Nat.mul_le_mul_right _ h
  have hal : (s.pageStart + p * pageSize) % pageSize = 0 :=
    Nat.mod_eq_zero_of_dvd (Nat.dvd_add hp.aligned (Nat.dvd_mul_left _ _))
  rw [pageFromPtr, hp.pageToPtr_eq h, kassert_pos hal, ok_bind,
    sub64_of_le (by omega) (by unfold pageSize at *; omega), Nat.add_sub_cancel_left,
    Nat.mul_div_cancel _ (by decide)]
  rfl

/-- **`buddy_free_page`** of a used block makes its pages free. -/
theorem buddyFreePage_spec (h : Inv n old U none s) (hc : Coalesced maxOrder (freeBlocks s))
    (hp : Placed n s.pageStart) (hb : b ∈ U) :
    ∃ s', buddyFreePage s (pageToPtr s b.start) = .ok s' ∧ Inv n old (U \ {b}) none s' ∧
      Coalesced maxOrder (freeBlocks s') ∧ s'.pageStart = s.pageStart := by
  have hlt := h.part.start_lt (Or.inr hb)
  have hord : (s.map b.start).order = b.order := h.pages.order b hb (by simp)
  have hle := h.order_le hb
  have hnull : pageToPtr s b.start ≠ 0 := by
    have := hp.pos
    rw [hp.pageToPtr_eq hlt]
    omega
  have hused : (s.map b.start).isFree = false := by
    rw [Page.isFree, h.pages.used b hb, Nat.zero_testBit]
  obtain ⟨s₁, c, hs₁, h₁, hcU, hbd, hc₁, hps₁⟩ := pageMergeLoop_spec (maxOrder + 1 - b.order) s U b
    ⟨h.small, h.last, h.lists, h.part, h.pages.toHand _⟩ hb (by omega) hc
  have hcin : c ∈ insert c (U \ {b}) := Or.inl rfl
  obtain ⟨s₂, hs₂, hl₂, hf₂, hm₂, hps₂, hmx₂⟩ := buddyAddPage_spec
    (h₁.lists.setOrder c.start c.order) h₁.lt64 (h₁.order_le hcin)
    (h₁.part.start_lt (Or.inr hcin)) (h₁.part.notMem_free hcin) (by simp [BuddySystem.setOrder])
  rw [freeBlocks_setOrder] at hf₂
  have hmap : s₂.map = Function.update s₁.map c.start ⟨1, c.order⟩ := by
    rw [hm₂]
    exact Function.update_idem _ _ _
  have hset : insert c (U \ {b}) \ {c} = U \ {b} := Set.insert_sdiff_self_of_notMem hcU
  have hpart := h₁.part.put hcin
  have hpages := h₁.pages.put h₁.part hcin
  rw [hset] at hpart hpages
  refine ⟨s₂, ?_, ⟨h.small, hmx₂.trans h₁.last, hl₂, hf₂ ▸ hpart, ?_⟩, ?_, hps₂.trans hps₁⟩
  · have h31 : b.order < 2 ^ 31 := hle.trans_lt (by decide)
    rw [buddyFreePage, kassert_pos hnull, ok_bind, hp.pageFromPtr_pageToPtr hlt,
      ok_bind, hused, pageMerge, hord, access_pos h31, ok_bind, hs₁]
    exact hs₂
  · rw [hf₂, hmap]
    exact hpages
  · rw [hf₂]
    exact hc₁.insert fun _ => hbd

end Ginkgo.Mm
