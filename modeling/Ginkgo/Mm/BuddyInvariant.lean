import Ginkgo.Lib.Dyadic
import Ginkgo.Mm.Buddy
import Mathlib.Data.Finset.Card
import Mathlib.Data.Finset.Range
import Mathlib.Data.Finset.Dedup

/-!
# The invariant of the buddy system

The buddy system stores the same information five times: in the lists, the counters, the bitmap,
and the order and the flag of every page.  The invariant has three parts.

* `ListInv`: lists, counters and bitmap agree, and a list of order `k` holds multiples of `2 ^ k`.
* `Dyadic.Partition`: the free blocks, read off the lists, and a set `U` of used blocks tile the
  managed pages.
* `PageInv`: the page map agrees with the two sets of blocks.

The loops of `page_split` and `page_merge` work on a block that is on no list and whose `order`
field is written only after the loop.  This block is the *hand*: it counts as used, and `PageInv`
says nothing about the order of its head.

## Main results

* `buddyAddPage_spec`, `buddyDelPage_spec` — linking and unlinking.
* `PageInv.take`, `put`, `split`, `merge`, `setHand` — the page map under the moves.
-/

namespace Ginkgo.Mm

open Dyadic Dyadic.Block
open Function (update update_self update_of_ne)

/-- The blocks on the lists `page_buddy[0..MAX_ORDER]`. -/
def freeBlocks (s : BuddySystem) : Set Block :=
  {b | b.order ≤ maxOrder ∧ b.start ∈ s.pageBuddy b.order}

theorem mem_freeBlocks {s : BuddySystem} {b : Block} :
    b ∈ freeBlocks s ↔ b.order ≤ maxOrder ∧ b.start ∈ s.pageBuddy b.order := Iff.rfl

/-! ## Lists, counters and bitmap -/

/-- The lists, counters and bitmap of a system that manages `n` pages agree. -/
structure ListInv (n : ℕ) (s : BuddySystem) : Prop where
  aligned : ∀ k ≤ maxOrder, ∀ p ∈ s.pageBuddy k, 2 ^ k ∣ p
  bounded : ∀ k ≤ maxOrder, ∀ p ∈ s.pageBuddy k, p < n
  nodup : ∀ k ≤ maxOrder, (s.pageBuddy k).Nodup
  bitmap : ∀ k, s.bitmap.testBit k = true ↔ k ≤ maxOrder ∧ s.pageBuddy k ≠ []
  count : ∀ k ≤ maxOrder, s.count k = (s.pageBuddy k).length

private theorem length_le_of_nodup {l : List ℕ} {n : ℕ} (hd : l.Nodup) (hb : ∀ p ∈ l, p < n) :
    l.length ≤ n := by
  rw [← List.toFinset_card_of_nodup hd, ← Finset.card_range n]
  refine Finset.card_le_card fun p hp => ?_
  rw [List.mem_toFinset] at hp
  exact Finset.mem_range.mpr (hb p hp)

private theorem testBit_or_one_shiftLeft (x k i : ℕ) :
    (x ||| 1 <<< k).testBit i = (x.testBit i || decide (k = i)) := by
  rw [Nat.testBit_or, Nat.one_shiftLeft, Nat.testBit_two_pow]

private theorem testBit_and_not64 {k : ℕ} (hk : k < 64) (x i : ℕ) :
    (x &&& not64 (1 <<< k)).testBit i = (x.testBit i && (decide (i < 64) && !decide (k = i))) := by
  have hlt : 2 ^ k < 2 ^ 64 := Nat.pow_lt_pow_right (by norm_num) hk
  rw [Nat.testBit_and, not64, Nat.one_shiftLeft,
    show 2 ^ 64 - 1 - 2 ^ k = 2 ^ 64 - (2 ^ k + 1) by omega,
    Nat.testBit_two_pow_sub_succ hlt, Nat.testBit_two_pow]

section Lists

variable {n : ℕ} {s : BuddySystem} {b : Block}

theorem ListInv.start_around (h : ListInv n s) {k p : ℕ} (hk : k ≤ maxOrder)
    (hp : p ∈ s.pageBuddy k) : (around k p).start = p :=
  Block.start_around (h.aligned k hk p hp)

theorem ListInv.around_mem_freeBlocks (h : ListInv n s) {k p : ℕ} (hk : k ≤ maxOrder)
    (hp : p ∈ s.pageBuddy k) : around k p ∈ freeBlocks s :=
  ⟨hk, by rw [h.start_around hk hp]; exact hp⟩

private theorem eq_of_order_start {b c : Block} (ho : b.order = c.order)
    (hs : b.start = c.start) : b = c :=
  eq_of_mem b.start_mem (hs ▸ c.start_mem) ho

theorem ListInv.replace (h : ListInv n s) {s' : BuddySystem} {k : ℕ} {l : List ℕ}
    (hk : k ≤ maxOrder) (hlist : s'.pageBuddy = update s.pageBuddy k l)
    (hcount : s'.count = update s.count k l.length)
    (hbit : s'.bitmap.testBit k = true ↔ l ≠ [])
    (hbits : ∀ j, j ≠ k → (s'.bitmap.testBit j = true ↔ s.bitmap.testBit j = true))
    (hl : ∀ p ∈ l, 2 ^ k ∣ p ∧ p < n) (hnodup : l.Nodup) : ListInv n s' := by
  have hself : s'.pageBuddy k = l := by rw [hlist, update_self]
  have hother : ∀ j, j ≠ k → s'.pageBuddy j = s.pageBuddy j := by
    intro j hj
    rw [hlist, update_of_ne hj]
  refine ⟨fun j hj p hp => ?_, fun j hj p hp => ?_, fun j hj => ?_, fun j => ?_, fun j hj => ?_⟩
  · by_cases hjk : j = k
    · rw [hjk, hself] at hp
      exact hjk ▸ (hl p hp).1
    · rw [hother j hjk] at hp
      exact h.aligned j hj p hp
  · by_cases hjk : j = k
    · rw [hjk, hself] at hp
      exact (hl p hp).2
    · rw [hother j hjk] at hp
      exact h.bounded j hj p hp
  · by_cases hjk : j = k
    · rw [hjk, hself]
      exact hnodup
    · rw [hother j hjk]
      exact h.nodup j hj
  · by_cases hjk : j = k
    · rw [hjk, hself, hbit]
      exact (and_iff_right hk).symm
    · rw [hother j hjk, hbits j hjk, h.bitmap j]
  · by_cases hjk : j = k
    · rw [hjk, hself, hcount, update_self]
    · rw [hother j hjk, hcount, update_of_ne hjk, h.count j hj]

theorem ListInv.link (h : ListInv n s) (hn : n < 2 ^ 64 - 1) (ho : b.order ≤ maxOrder)
    (hb : b.start < n) (hnew : b ∉ freeBlocks s) : ListInv n (s.link b.start b.order) := by
  have hnot : b.start ∉ s.pageBuddy b.order := fun hm => hnew ⟨ho, hm⟩
  have hlen := length_le_of_nodup (h.nodup _ ho) (h.bounded _ ho)
  refine h.replace ho rfl ?_ ?_ (fun j hj => ?_) (fun p hp => ?_) ?_
  · have hwrap : wrap64 (s.count b.order + 1) = (s.pageBuddy b.order ++ [b.start]).length := by
      rw [List.length_append, List.length_singleton, h.count _ ho]
      exact wrap64_of_lt (by omega)
    rw [← hwrap]
    rfl
  · simp [BuddySystem.link]
  · dsimp only [BuddySystem.link]
    rw [testBit_or_one_shiftLeft]
    simp [Ne.symm hj]
  · rcases List.mem_append.mp hp with hp | hp
    · exact ⟨h.aligned _ ho p hp, h.bounded _ ho p hp⟩
    · obtain rfl := List.mem_singleton.mp hp
      exact ⟨b.dvd_start, hb⟩
  · rw [← List.concat_eq_append, List.nodup_concat]
    exact ⟨hnot, h.nodup _ ho⟩

theorem freeBlocks_link (ho : b.order ≤ maxOrder) :
    freeBlocks (s.link b.start b.order) = insert b (freeBlocks s) := by
  ext c
  simp only [mem_freeBlocks, Set.mem_insert_iff, BuddySystem.link]
  by_cases hcb : c.order = b.order
  · rw [hcb, update_self, List.mem_append, List.mem_singleton]
    constructor
    · rintro ⟨hk, hc | hc⟩
      · exact Or.inr ⟨hk, hc⟩
      · exact Or.inl (eq_of_order_start hcb hc)
    · rintro (rfl | ⟨hk, hc⟩)
      · exact ⟨ho, Or.inr rfl⟩
      · exact ⟨hk, Or.inl hc⟩
  · rw [update_of_ne hcb]
    have hne : c ≠ b := fun e => hcb (e ▸ rfl)
    simp [hne]

/-- **`buddy_add_page`** links a block that is not free into the list of its order. -/
theorem buddyAddPage_spec (h : ListInv n s) (hn : n < 2 ^ 64 - 1) (ho : b.order ≤ maxOrder)
    (hb : b.start < n) (hnew : b ∉ freeBlocks s) (hord : (s.map b.start).order = b.order) :
    ∃ s', buddyAddPage s b.start = .ok s' ∧ ListInv n s' ∧
      freeBlocks s' = insert b (freeBlocks s) ∧
      s'.map = update s.map b.start ⟨1, b.order⟩ ∧
      s'.pageStart = s.pageStart ∧ s'.maxPfn = s.maxPfn := by
  have hok : buddyAddPage s b.start = .ok (s.link b.start b.order) := by
    rw [buddyAddPage, hord, access_pos ho]
    rfl
  refine ⟨_, hok, h.link hn ho hb hnew, freeBlocks_link ho, ?_, rfl, rfl⟩
  rw [← hord]
  rfl

private theorem testBit_unlink (h : ListInv n s) {k : ℕ} (hk : k ≤ maxOrder) (p j : ℕ) :
    (s.unlink p k).bitmap.testBit j = true ↔
      s.bitmap.testBit j = true ∧ (j = k → (s.pageBuddy k).erase p ≠ []) := by
  have hk64 : k < 64 := hk.trans_lt (by decide)
  have himp : s.bitmap.testBit j = true → j < 64 := fun hbit =>
    ((h.bitmap j).mp hbit).1.trans_lt (by decide)
  dsimp only [BuddySystem.unlink]
  by_cases he : (s.pageBuddy k).erase p = []
  · rw [if_pos he, testBit_and_not64 hk64]
    simp only [Bool.and_eq_true, decide_eq_true_eq, Bool.not_eq_eq_eq_not, Bool.not_true,
      decide_eq_false_iff_not]
    exact ⟨fun ⟨hbit, _, hne⟩ => ⟨hbit, fun hjk => absurd hjk.symm hne⟩,
      fun ⟨hbit, hne⟩ => ⟨hbit, himp hbit, fun hkj => hne hkj.symm he⟩⟩
  · rw [if_neg he]
    exact ⟨fun hbit => ⟨hbit, fun _ => he⟩, fun hbit => hbit.1⟩

theorem ListInv.unlink (h : ListInv n s) (hn : n < 2 ^ 64) (hb : b ∈ freeBlocks s) :
    ListInv n (s.unlink b.start b.order) := by
  obtain ⟨ho, hm⟩ := hb
  have hlen := length_le_of_nodup (h.nodup _ ho) (h.bounded _ ho)
  have hpos := List.length_pos_of_mem hm
  refine h.replace ho rfl ?_ ?_ (fun j hj => ?_) (fun p hp => ?_) ((h.nodup _ ho).erase _)
  · have hsub : sub64 (s.count b.order) 1 = ((s.pageBuddy b.order).erase b.start).length := by
      rw [List.length_erase_of_mem hm, h.count _ ho]
      exact sub64_of_le (by omega) (by omega)
    rw [← hsub]
    rfl
  · rw [testBit_unlink h ho, h.bitmap]
    exact ⟨fun hbit => hbit.2 rfl, fun hne => ⟨⟨ho, List.ne_nil_of_mem hm⟩, fun _ => hne⟩⟩
  · rw [testBit_unlink h ho]
    exact and_iff_left fun hjk => absurd hjk hj
  · have hp' := List.mem_of_mem_erase hp
    exact ⟨h.aligned _ ho p hp', h.bounded _ ho p hp'⟩

theorem ListInv.freeBlocks_unlink (h : ListInv n s) (ho : b.order ≤ maxOrder) :
    freeBlocks (s.unlink b.start b.order) = freeBlocks s \ {b} := by
  ext c
  simp only [mem_freeBlocks, Set.mem_sdiff, Set.mem_singleton_iff, BuddySystem.unlink]
  by_cases hcb : c.order = b.order
  · rw [hcb, update_self, (h.nodup _ ho).mem_erase_iff]
    constructor
    · rintro ⟨hk, hne, hc⟩
      exact ⟨⟨hk, hc⟩, fun e => hne (e ▸ rfl)⟩
    · rintro ⟨⟨hk, hc⟩, hne⟩
      exact ⟨hk, fun e => hne (eq_of_order_start hcb e), hc⟩
  · rw [update_of_ne hcb]
    have hne : c ≠ b := fun e => hcb (e ▸ rfl)
    simp [hne]

/-- **`buddy_del_page`** unlinks a free block. -/
theorem buddyDelPage_spec (h : ListInv n s) (hn : n < 2 ^ 64) (hb : b ∈ freeBlocks s)
    (hord : (s.map b.start).order = b.order) :
    ∃ s', buddyDelPage s b.start = .ok s' ∧ ListInv n s' ∧
      freeBlocks s' = freeBlocks s \ {b} ∧
      s'.map = update s.map b.start ⟨0, b.order⟩ ∧
      s'.pageStart = s.pageStart ∧ s'.maxPfn = s.maxPfn := by
  have hok : buddyDelPage s b.start = .ok (s.unlink b.start b.order) := by
    rw [buddyDelPage, hord, access_pos ⟨hb.1, hb.2⟩]
    rfl
  refine ⟨_, hok, h.unlink hn hb, h.freeBlocks_unlink hb.1, ?_, rfl, rfl⟩
  rw [← hord]
  rfl

end Lists

/-! ## The page map -/

/-- The page map agrees with the free blocks `F` and the used blocks `U`, except for the order of
the head of the hand. -/
structure PageInv (n : ℕ) (old map : ℕ → Page) (F U : Set Block) (hand : Option Block) :
    Prop where
  free : ∀ b ∈ F, map b.start = ⟨1, b.order⟩
  used : ∀ b ∈ U, (map b.start).u32Flags = 0
  order : ∀ b ∈ U, some b ≠ hand → (map b.start).order = b.order
  interior : ∀ p < n, (∀ b ∈ F ∪ U, b.start ≠ p) → (map p).order = invalidOrder ∧
    ((map p).u32Flags = 0 ∨ (map p).u32Flags = (old p).u32Flags)

namespace PageInv

variable {n : ℕ} {old map : ℕ → Page} {F U : Set Block} {hand : Option Block} {b c : Block}

private theorem start_ne (hp : Partition n F U) (hb : b ∈ F ∪ U) (hc : c ∈ F ∪ U) (hne : b ≠ c) :
    b.start ≠ c.start :=
  fun he => hne (hp.eq_of_start hb hc he)

theorem toHand (h : PageInv n old map F U none) (hand : Option Block) :
    PageInv n old map F U hand where
  free := h.free
  used := h.used
  order b hb _ := h.order b hb (by simp)
  interior := h.interior

theorem forget (h : PageInv n old map F U hand) (hb : b ∈ F ∪ U) (page : Page) :
    PageInv n (update old b.start page) map F U hand where
  free := h.free
  used := h.used
  order := h.order
  interior p hp hno := by
    rw [update_of_ne (hno b hb).symm]
    exact h.interior p hp hno

theorem setHand (hp : Partition n F U) (hb : b ∈ U) (h : PageInv n old map F U (some b)) :
    PageInv n old (update map b.start { map b.start with order := b.order }) F U none := by
  refine ⟨fun c hc => ?_, fun c hc => ?_, fun c hc _ => ?_, fun p hn hno => ?_⟩
  · have hne : c ≠ b := fun e => hp.notMem_free hb (e ▸ hc)
    rw [update_of_ne (start_ne hp (Or.inl hc) (Or.inr hb) hne)]
    exact h.free c hc
  · by_cases hcb : c = b
    · subst hcb
      rw [update_self]
      exact h.used c hb
    · rw [update_of_ne (start_ne hp (Or.inr hc) (Or.inr hb) hcb)]
      exact h.used c hc
  · by_cases hcb : c = b
    · subst hcb
      rw [update_self]
    · rw [update_of_ne (start_ne hp (Or.inr hc) (Or.inr hb) hcb)]
      exact h.order c hc (by simpa using hcb)
  · rw [update_of_ne (hno b (Or.inr hb)).symm]
    exact h.interior p hn hno

/-- The page map after a free block has been taken. -/
theorem take (hp : Partition n F U) (hb : b ∈ F) (h : PageInv n old map F U hand) :
    PageInv n old (update map b.start ⟨0, b.order⟩) (F \ {b}) (insert b U) hand := by
  have hbU := hp.notMem_used hb
  refine ⟨fun c hc => ?_, fun c hc => ?_, fun c hc hh => ?_, fun p hn hno => ?_⟩
  · rw [update_of_ne (start_ne hp (Or.inl hc.1) (Or.inl hb) hc.2)]
    exact h.free c hc.1
  · rcases hc with rfl | hc
    · rw [update_self]
    · rw [update_of_ne (start_ne hp (Or.inr hc) (Or.inl hb) fun e => hbU (e ▸ hc))]
      exact h.used c hc
  · rcases hc with rfl | hc
    · rw [update_self]
    · rw [update_of_ne (start_ne hp (Or.inr hc) (Or.inl hb) fun e => hbU (e ▸ hc))]
      exact h.order c hc hh
  · have hall : ∀ c ∈ F ∪ U, c.start ≠ p := by
      intro c hc
      refine hno c ?_
      by_cases hcb : c = b
      · exact Or.inr (Or.inl hcb)
      · rcases hc with hc | hc
        · exact Or.inl ⟨hc, hcb⟩
        · exact Or.inr (Or.inr hc)
    rw [update_of_ne (hall b (Or.inl hb)).symm]
    exact h.interior p hn hall

theorem put (hp : Partition n F U) (hb : b ∈ U) (h : PageInv n old map F U (some b)) :
    PageInv n old (update map b.start ⟨1, b.order⟩) (insert b F) (U \ {b}) none := by
  have hbF := hp.notMem_free hb
  refine ⟨fun c hc => ?_, fun c hc => ?_, fun c hc _ => ?_, fun p hn hno => ?_⟩
  · rcases hc with rfl | hc
    · rw [update_self]
    · rw [update_of_ne (start_ne hp (Or.inl hc) (Or.inr hb) fun e => hbF (e ▸ hc))]
      exact h.free c hc
  · rw [update_of_ne (start_ne hp (Or.inr hc.1) (Or.inr hb) hc.2)]
    exact h.used c hc.1
  · rw [update_of_ne (start_ne hp (Or.inr hc.1) (Or.inr hb) hc.2)]
    exact h.order c hc.1 (by simpa using hc.2)
  · have hall : ∀ c ∈ F ∪ U, c.start ≠ p := by
      intro c hc
      refine hno c ?_
      by_cases hcb : c = b
      · exact Or.inl (Or.inl hcb)
      · rcases hc with hc | hc
        · exact Or.inl (Or.inr hc)
        · exact Or.inr ⟨hc, hcb⟩
    rw [update_of_ne (hall b (Or.inr hb)).symm]
    exact h.interior p hn hall

/-- The page map after the upper half of the hand has been split off and freed.

**Proof sketch.** The only page written is the first one of the upper half.  It lies inside the
hand but is not its head, so no block of the old partition starts there. -/
theorem split (hp : Partition n F U) (hb : b ∈ U) (ho : 0 < b.order)
    (h : PageInv n old map F U (some b)) :
    PageInv n old (update map b.upper.start ⟨1, b.order - 1⟩) (insert b.upper F)
      (insert b.lower (U \ {b})) (some b.lower) := by
  have hmid : b.start ≠ b.upper.start := by
    have := Nat.two_pow_pos (b.order - 1)
    rw [start_upper ho]
    omega
  have hfar : ∀ c ∈ F ∪ U, c.start ≠ b.upper.start := by
    intro c hc he
    have hcb : c = b := hp.inj c hc b (Or.inr hb) c.start c.start_mem
      (he ▸ (mem_iff_halves ho).mpr (Or.inr b.upper.start_mem))
    exact hmid (hcb ▸ he)
  refine ⟨fun c hc => ?_, fun c hc => ?_, fun c hc hh => ?_, fun p hn hno => ?_⟩
  · rcases hc with rfl | hc
    · rw [update_self]
      rfl
    · rw [update_of_ne (hfar c (Or.inl hc))]
      exact h.free c hc
  · rcases hc with rfl | hc
    · rw [start_lower ho, update_of_ne hmid]
      exact h.used b hb
    · rw [update_of_ne (hfar c (Or.inr hc.1))]
      exact h.used c hc.1
  · rcases hc with rfl | hc
    · exact absurd rfl hh
    · rw [update_of_ne (hfar c (Or.inr hc.1))]
      exact h.order c hc.1 (by simpa using hc.2)
  · have hup : p ≠ b.upper.start := (hno b.upper (Or.inl (Or.inl rfl))).symm
    have hlo : b.start ≠ p := by
      rw [← start_lower ho]
      exact hno b.lower (Or.inr (Or.inl rfl))
    rw [update_of_ne hup]
    refine h.interior p hn fun c hc => ?_
    by_cases hcb : c = b
    · rw [hcb]
      exact hlo
    · refine hno c ?_
      rcases hc with hc | hc
      · exact Or.inl (Or.inr hc)
      · exact Or.inr (Or.inr ⟨hc, hcb⟩)

/-- The page map after the hand has been merged with its free buddy.

**Proof sketch.** One of the two blocks starts where the parent does, the other one at the upper
half of the parent.  Both heads are unmarked afterwards, and the upper one gets the invalid order
that an interior page has; no other page is written. -/
theorem merge (hp : Partition n F U) (hb : b ∈ U) (hf : b.buddy ∈ F)
    (h : PageInv n old map F U (some b)) :
    let map₁ := update map b.buddy.start ⟨0, b.order⟩
    let up := b.parent.upper.start
    PageInv n old (update map₁ up { map₁ up with order := invalidOrder })
      (F \ {b.buddy}) (insert b.parent (U \ {b})) (some b.parent) := by
  intro map₁ up
  have hpos : 0 < b.parent.order := by simp
  have hbd : b.start ≠ b.buddy.start :=
    start_ne hp (Or.inr hb) (Or.inl hf) fun e => hp.notMem_free hb (e.symm ▸ hf)
  -- the heads of the parent and of its upper half are the heads of the two old blocks
  have hheads : (b.parent.start = b.start ∧ up = b.buddy.start) ∨
      (b.parent.start = b.buddy.start ∧ up = b.start) := by
    rcases halves_parent b with ⟨h1, h2⟩ | ⟨h1, h2⟩
    · exact Or.inl ⟨by rw [← start_lower hpos, ← h1], by simp only [up]; rw [← h2]⟩
    · exact Or.inr ⟨by rw [← start_lower hpos, ← h2], by simp only [up]; rw [← h1]⟩
  have hflag : (map₁ b.start).u32Flags = 0 ∧ (map₁ b.buddy.start).u32Flags = 0 := by
    refine ⟨?_, by simp [map₁]⟩
    rw [show map₁ b.start = map b.start from update_of_ne hbd _ _]
    exact h.used b hb
  have hother : ∀ p, p ≠ b.start → p ≠ b.buddy.start →
      update map₁ up { map₁ up with order := invalidOrder } p = map p := by
    intro p h1 h2
    have hup : p ≠ up := by rcases hheads with ⟨-, he⟩ | ⟨-, he⟩ <;> rw [he] <;> assumption
    rw [update_of_ne hup, show map₁ p = map p from update_of_ne h2 _ _]
  have hstart : ∀ c ∈ F ∪ U, c ≠ b → c ≠ b.buddy → c.start ≠ b.start ∧ c.start ≠ b.buddy.start :=
    fun c hc h1 h2 => ⟨start_ne hp hc (Or.inr hb) h1, start_ne hp hc (Or.inl hf) h2⟩
  refine ⟨fun c hc => ?_, fun c hc => ?_, fun c hc hh => ?_, fun p hn hno => ?_⟩
  · obtain ⟨h1, h2⟩ := hstart c (Or.inl hc.1) (fun e => hp.notMem_free hb (e ▸ hc.1)) hc.2
    rw [hother _ h1 h2]
    exact h.free c hc.1
  · rcases hc with rfl | hc
    · rcases hheads with ⟨h1, h2⟩ | ⟨h1, h2⟩
      · rw [h1, h2, update_of_ne hbd]
        exact hflag.1
      · rw [h1, h2, update_of_ne hbd.symm]
        exact hflag.2
    · obtain ⟨h1, h2⟩ := hstart c (Or.inr hc.1) hc.2 fun e => hp.notMem_used hf (e ▸ hc.1)
      rw [hother _ h1 h2]
      exact h.used c hc.1
  · rcases hc with rfl | hc
    · exact absurd rfl hh
    · obtain ⟨h1, h2⟩ := hstart c (Or.inr hc.1) hc.2 fun e => hp.notMem_used hf (e ▸ hc.1)
      rw [hother _ h1 h2]
      exact h.order c hc.1 (by simpa using hc.2)
  · by_cases hup : p = up
    · subst hup
      rw [update_self]
      refine ⟨rfl, Or.inl ?_⟩
      rcases hheads with ⟨-, he⟩ | ⟨-, he⟩
      · rw [he]; exact hflag.2
      · rw [he]; exact hflag.1
    · have hpar : b.parent.start ≠ p := hno b.parent (Or.inr (Or.inl rfl))
      have hboth : p ≠ b.start ∧ p ≠ b.buddy.start := by
        rcases hheads with ⟨h1, h2⟩ | ⟨h1, h2⟩
        · exact ⟨fun e => hpar (h1.trans e.symm), fun e => hup (e.trans h2.symm)⟩
        · exact ⟨fun e => hup (e.trans h2.symm), fun e => hpar (h1.trans e.symm)⟩
      rw [hother p hboth.1 hboth.2]
      refine h.interior p hn fun c hc => ?_
      by_cases h1 : c = b
      · rw [h1]; exact hboth.1.symm
      by_cases h2 : c = b.buddy
      · rw [h2]; exact hboth.2.symm
      refine hno c ?_
      rcases hc with hc | hc
      · exact Or.inl ⟨hc, h2⟩
      · exact Or.inr (Or.inr ⟨hc, h1⟩)

end PageInv

/-! ## The invariant -/

/-- The invariant of a buddy system that manages `n` pages of memory that held `old`, with used
blocks `U` of which `hand` is being worked on. -/
structure Inv (n : ℕ) (old : ℕ → Page) (U : Set Block) (hand : Option Block) (s : BuddySystem) :
    Prop where
  small : n < 2 ^ (maxOrder + 1)
  last : s.maxPfn = sub64 n 1
  lists : ListInv n s
  part : Partition n (freeBlocks s) U
  pages : PageInv n old s.map (freeBlocks s) U hand

theorem Inv.order_le {n : ℕ} {old : ℕ → Page} {U : Set Block} {hand : Option Block}
    {s : BuddySystem} (h : Inv n old U hand s) {b : Block} (hb : b ∈ U) : b.order ≤ maxOrder := by
  have h1 := h.part.bound b (Or.inr hb)
  have h2 := h.small
  by_contra hlt
  have h3 : 2 ^ (maxOrder + 1) ≤ 2 ^ b.order := Nat.pow_le_pow_right (by norm_num) (by omega)
  rw [stop_eq] at h1
  omega

end Ginkgo.Mm
