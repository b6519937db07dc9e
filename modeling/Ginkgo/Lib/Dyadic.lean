import Ginkgo.Lib.Bits
import Mathlib.Data.Set.Insert

/-!
# Dyadic blocks and the partitions a buddy system keeps

A dyadic block of order `k` is an interval `[q * 2 ^ k, (q + 1) * 2 ^ k)` of page numbers.  It is
given by its order and its index `q`, so that alignment holds by construction and page `p` lies
in the block exactly if `p / 2 ^ k = q`.  Two blocks that share a page are nested, so the blocks
form a forest: every block has a parent, and the parent's other half is its buddy.

A buddy system keeps two sets of blocks, the free and the used ones, that together tile an
initial segment `[0, n)` of the page numbers (`Partition`).  It changes them by four moves: a
free block is taken, a used block is given back, a used block is split with one half freed, and a
used block is merged with its free buddy.  Each move keeps the partition.

A set of free blocks is coalesced below order `m` if it does not contain a block of order below
`m` together with its buddy.  Two coalesced tilings of the same segment are equal, whatever the
moves that produced them.

## Main results

* `Dyadic.Block.subset_of_mem` — blocks that share a page are nested.
* `Dyadic.Partition.take`, `put`, `split`, `merge` — the four moves.
* `Dyadic.Coalesced.subset_of_partition` — the coalesced tiling of a segment is unique.
-/

namespace Dyadic

/-- The dyadic block `[index * 2 ^ order, (index + 1) * 2 ^ order)`. -/
@[ext]
structure Block where
  /-- The binary logarithm of the number of pages. -/
  order : ℕ
  /-- The position among the blocks of this order. -/
  index : ℕ
deriving DecidableEq, Repr

namespace Block

/-- The first page. -/
def start (b : Block) : ℕ := b.index * 2 ^ b.order

/-- The page after the last one. -/
def stop (b : Block) : ℕ := (b.index + 1) * 2 ^ b.order

instance : Membership ℕ Block := ⟨fun b p => p / 2 ^ b.order = b.index⟩

/-- The other half of the parent. -/
def buddy (b : Block) : Block := ⟨b.order, b.index ^^^ 1⟩

/-- The block of the next order around `b`. -/
def parent (b : Block) : Block := ⟨b.order + 1, b.index / 2⟩

/-- The lower half of a block of positive order. -/
def lower (b : Block) : Block := ⟨b.order - 1, 2 * b.index⟩

/-- The upper half of a block of positive order. -/
def upper (b : Block) : Block := ⟨b.order - 1, 2 * b.index + 1⟩

/-- The block of order `k` that page `p` lies in. -/
def around (k p : ℕ) : Block := ⟨k, p / 2 ^ k⟩

variable {b c : Block} {p k : ℕ}

theorem mem_def : p ∈ b ↔ p / 2 ^ b.order = b.index := Iff.rfl

theorem mem_iff : p ∈ b ↔ b.start ≤ p ∧ p < b.stop := by
  rw [mem_def, Nat.div_eq_iff (Nat.two_pow_pos _), start, stop, Nat.add_mul]
  have := Nat.two_pow_pos b.order
  omega

theorem start_mem (b : Block) : b.start ∈ b := by
  rw [mem_def, start, Nat.mul_div_cancel _ (Nat.two_pow_pos _)]

theorem stop_eq (b : Block) : b.stop = b.start + 2 ^ b.order := by
  rw [stop, start, Nat.add_mul, Nat.one_mul]

theorem start_lt_stop (b : Block) : b.start < b.stop := by
  have := Nat.two_pow_pos b.order
  rw [stop_eq]
  omega

theorem dvd_start (b : Block) : 2 ^ b.order ∣ b.start := Dvd.intro_left _ rfl

@[simp] theorem order_around : (around k p).order = k := rfl

theorem start_around (h : 2 ^ k ∣ p) : (around k p).start = p := Nat.div_mul_cancel h

theorem mem_around (k p : ℕ) : p ∈ around k p := mem_def.mpr rfl

theorem eq_around (h : p ∈ b) : b = around b.order p := Block.ext rfl (mem_def.mp h).symm

theorem eq_of_mem (hb : p ∈ b) (hc : p ∈ c) (h : b.order = c.order) : b = c := by
  rw [eq_around hb, eq_around hc, h]

/-- Blocks that share a page are nested: the one of smaller order lies in the other. -/
theorem subset_of_mem (hb : p ∈ b) (hc : p ∈ c) (h : b.order ≤ c.order) {q : ℕ} (hq : q ∈ b) :
    q ∈ c := by
  have hpow : 2 ^ c.order = 2 ^ b.order * 2 ^ (c.order - b.order) := by
    rw [← pow_add, Nat.add_sub_cancel' h]
  rw [mem_def] at hb hc hq ⊢
  rw [← hc, hpow, ← Nat.div_div_eq_div_mul, ← Nat.div_div_eq_div_mul, hq, hb]

theorem order_le_of_subset (h : ∀ q ∈ b, q ∈ c) : b.order ≤ c.order := by
  by_contra hlt
  have hsize : 2 ^ c.order < 2 ^ b.order := Nat.pow_lt_pow_right (by norm_num) (by omega)
  have h1 := mem_iff.mp (h b.start b.start_mem)
  have h2 := mem_iff.mp (h (b.stop - 1) (mem_iff.mpr (by have := b.start_lt_stop; omega)))
  have h3 := b.stop_eq
  have h4 := c.stop_eq
  omega

/-! ### Halves, buddies and parents -/

theorem mem_iff_halves (hb : 0 < b.order) : p ∈ b ↔ p ∈ b.lower ∨ p ∈ b.upper := by
  have hpow : 2 ^ b.order = 2 ^ (b.order - 1) * 2 := by
    rw [← pow_succ, Nat.sub_add_cancel hb]
  simp only [mem_def, lower, upper, hpow, ← Nat.div_div_eq_div_mul]
  omega

theorem not_mem_upper_of_lower (h : p ∈ b.lower) : p ∉ b.upper := by
  simp only [mem_def, lower, upper] at h ⊢
  omega

theorem lower_ne_upper (b : Block) : b.lower ≠ b.upper := by
  intro h
  exact not_mem_upper_of_lower b.lower.start_mem (h ▸ b.lower.start_mem)

@[simp] theorem order_lower (b : Block) : b.lower.order = b.order - 1 := rfl

@[simp] theorem order_upper (b : Block) : b.upper.order = b.order - 1 := rfl

@[simp] theorem order_buddy (b : Block) : b.buddy.order = b.order := rfl

@[simp] theorem order_parent (b : Block) : b.parent.order = b.order + 1 := rfl

theorem start_lower (hb : 0 < b.order) : b.lower.start = b.start := by
  have hpow : 2 ^ b.order = 2 * 2 ^ (b.order - 1) := by
    rw [← pow_succ', Nat.sub_add_cancel hb]
  simp only [start, lower, hpow]
  ring

theorem start_upper (hb : 0 < b.order) : b.upper.start = b.start + 2 ^ (b.order - 1) := by
  have hpow : 2 ^ b.order = 2 * 2 ^ (b.order - 1) := by
    rw [← pow_succ', Nat.sub_add_cancel hb]
  simp only [start, upper, hpow]
  ring

theorem stop_upper (hb : 0 < b.order) : b.upper.stop = b.stop := by
  have hpow : 2 ^ b.order = 2 * 2 ^ (b.order - 1) := by
    rw [← pow_succ', Nat.sub_add_cancel hb]
  rw [stop_eq, stop_eq, start_upper hb, order_upper, hpow]
  omega

theorem stop_lower_le (hb : 0 < b.order) : b.lower.stop ≤ b.stop := by
  have hpow : 2 ^ b.order = 2 * 2 ^ (b.order - 1) := by
    rw [← pow_succ', Nat.sub_add_cancel hb]
  rw [stop_eq, stop_eq, start_lower hb, order_lower, hpow]
  omega

theorem buddy_upper (b : Block) : b.upper.buddy = b.lower := by
  refine Block.ext rfl ?_
  simp only [buddy, upper, lower, Bits.xor_one_eq]
  split_ifs <;> omega

@[simp] theorem buddy_buddy (b : Block) : b.buddy.buddy = b := by
  refine Block.ext rfl ?_
  simp [buddy]

theorem halves_parent (b : Block) :
    (b = b.parent.lower ∧ b.buddy = b.parent.upper) ∨
      (b = b.parent.upper ∧ b.buddy = b.parent.lower) := by
  have hx := Bits.xor_one_eq b.index
  rcases Nat.mod_two_eq_zero_or_one b.index with h | h
  · refine Or.inl ⟨Block.ext rfl ?_, Block.ext rfl ?_⟩
    · simp only [parent, lower]; omega
    · simp only [buddy, parent, upper, hx, h, ↓reduceIte]; omega
  · refine Or.inr ⟨Block.ext rfl ?_, Block.ext rfl ?_⟩
    · simp only [parent, upper]; omega
    · simp only [buddy, parent, lower, hx, h, one_ne_zero, ↓reduceIte]; omega

theorem mem_parent_iff : p ∈ b.parent ↔ p ∈ b ∨ p ∈ b.buddy := by
  rw [mem_iff_halves (b := b.parent) (by simp)]
  rcases halves_parent b with ⟨h1, h2⟩ | ⟨h1, h2⟩
  · rw [← h1, ← h2]
  · rw [← h1, ← h2, or_comm]

theorem not_mem_buddy (h : p ∈ b) : p ∉ b.buddy := by
  intro h'
  rcases halves_parent b with ⟨h1, h2⟩ | ⟨h1, h2⟩
  · rw [h1] at h
    rw [h2] at h'
    exact not_mem_upper_of_lower h h'
  · rw [h1] at h
    rw [h2] at h'
    exact not_mem_upper_of_lower h' h

end Block

open Block

/-! ## Partitions -/

/-- The blocks of `F` and `U` tile the pages `[0, n)`, and no block is in both sets. -/
structure Partition (n : ℕ) (F U : Set Block) : Prop where
  cover : ∀ p < n, ∃ b ∈ F ∪ U, p ∈ b
  bound : ∀ b ∈ F ∪ U, b.stop ≤ n
  inj : ∀ b ∈ F ∪ U, ∀ c ∈ F ∪ U, ∀ p, p ∈ b → p ∈ c → b = c
  disj : ∀ b ∈ F, b ∉ U

namespace Partition

variable {n : ℕ} {F U : Set Block} {b c : Block} {p : ℕ}

section

variable (h : Partition n F U) (hb : b ∈ F ∪ U)

include h hb

theorem eq_of_start (hc : c ∈ F ∪ U) (hs : b.start = c.start) : b = c :=
  h.inj b hb c hc _ b.start_mem (hs ▸ c.start_mem)

theorem start_lt : b.start < n :=
  b.start_lt_stop.trans_le (h.bound b hb)

theorem lt_of_mem (hp : p ∈ b) : p < n :=
  (mem_iff.mp hp).2.trans_le (h.bound b hb)

theorem apart (hc : c ∈ F ∪ U) (hne : b ≠ c) :
    b.stop ≤ c.start ∨ c.stop ≤ b.start := by
  by_contra hover
  push Not at hover
  rcases Nat.le_total b.start c.start with hle | hle
  · exact hne (h.inj b hb c hc c.start (mem_iff.mpr ⟨hle, hover.1⟩) c.start_mem)
  · exact hne (h.inj b hb c hc b.start b.start_mem (mem_iff.mpr ⟨hle, hover.2⟩))

end

theorem notMem_used (h : Partition n F U) (hb : b ∈ F) : b ∉ U :=
  h.disj b hb

theorem notMem_free (h : Partition n F U) (hb : b ∈ U) : b ∉ F :=
  fun hf => h.disj b hf hb

private theorem of_union_eq (h : Partition n F U) {F' U' : Set Block} (he : F' ∪ U' = F ∪ U)
    (hd : ∀ b ∈ F', b ∉ U') : Partition n F' U' where
  cover := he ▸ h.cover
  bound := he ▸ h.bound
  inj := he ▸ h.inj
  disj := hd

theorem empty : Partition 0 ∅ ∅ where
  cover p hp := absurd hp (Nat.not_lt_zero p)
  bound b hb := by simp at hb
  inj b hb := by simp at hb
  disj b hb := hb.elim

section

variable (h : Partition n F U)

include h

theorem extend (hs : b.start = n) : Partition b.stop (insert b F) U := by
  have hfar : ∀ c ∈ F ∪ U, ∀ q, q ∈ b → q ∉ c := fun c hc q hq hqc => by
    have h1 := (mem_iff.mp hq).1
    have h2 := h.lt_of_mem hc hqc
    omega
  have hle : n ≤ b.stop := hs ▸ b.start_lt_stop.le
  refine ⟨?_, ?_, ?_, ?_⟩
  · intro q hq
    rcases Nat.lt_or_ge q n with hlt | hge
    · obtain ⟨c, hc, hqc⟩ := h.cover q hlt
      exact ⟨c, hc.imp Or.inr id, hqc⟩
    · exact ⟨b, Or.inl (Or.inl rfl), mem_iff.mpr ⟨hs ▸ hge, hq⟩⟩
  · rintro c ((rfl | hc) | hc)
    · exact le_rfl
    · exact (h.bound c (Or.inl hc)).trans hle
    · exact (h.bound c (Or.inr hc)).trans hle
  · intro c hc d hd q hqc hqd
    rw [Set.insert_union] at hc hd
    rcases hc with rfl | hc <;> rcases hd with rfl | hd
    · rfl
    · exact absurd hqd (hfar d hd q hqc)
    · exact absurd hqc (hfar c hc q hqd)
    · exact h.inj c hc d hd q hqc hqd
  · rintro c (rfl | hc) hu
    · exact hfar c (Or.inr hu) _ c.start_mem c.start_mem
    · exact h.disj c hc hu

/-- **Taking** a free block keeps the partition. -/
theorem take (hb : b ∈ F) : Partition n (F \ {b}) (insert b U) := by
  refine h.of_union_eq ?_ ?_
  · ext c
    by_cases hc : c = b <;> simp [hc, hb]
  · rintro c ⟨hc, hne⟩ (rfl | hu)
    · exact hne rfl
    · exact h.disj c hc hu

/-- **Giving back** a used block keeps the partition. -/
theorem put (hb : b ∈ U) : Partition n (insert b F) (U \ {b}) := by
  refine h.of_union_eq ?_ ?_
  · ext c
    by_cases hc : c = b <;> simp [hc, hb]
  · rintro c (rfl | hc) ⟨hu, hne⟩
    · exact hne rfl
    · exact h.disj c hc hu

/-- **Splitting** a used block, with the upper half freed, keeps the partition.

**Proof sketch.** The halves have together the pages of the block.  A half shares no page with
another block, since such a page would lie in the old block too, and the halves share none. -/
theorem split (hb : b ∈ U) (ho : 0 < b.order) :
    Partition n (insert b.upper F) (insert b.lower (U \ {b})) := by
  have hold : ∀ {c}, c ∈ F ∪ (U \ {b}) ↔ c ∈ F ∪ U ∧ c ≠ b := by
    intro c
    by_cases hc : c = b
    · simp [hc, h.notMem_free hb]
    · simp [hc]
  have hmem : ∀ {c}, c ∈ insert b.upper F ∪ insert b.lower (U \ {b}) ↔
      c = b.lower ∨ c = b.upper ∨ c ∈ F ∪ (U \ {b}) := by
    intro c
    simp only [Set.mem_union, Set.mem_insert_iff]
    tauto
  -- a half that shares a page with another block contradicts the old tiling
  have hfar : ∀ c ∈ F ∪ (U \ {b}), ∀ q, q ∈ b.lower ∨ q ∈ b.upper → q ∉ c := by
    intro c hc q hq hqc
    exact (hold.mp hc).2 (h.inj c (hold.mp hc).1 b (Or.inr hb) q hqc ((mem_iff_halves ho).mpr hq))
  refine ⟨?_, ?_, ?_, ?_⟩
  · intro q hq
    obtain ⟨c, hc, hqc⟩ := h.cover q hq
    by_cases hcb : c = b
    · subst hcb
      rcases (mem_iff_halves ho).mp hqc with hl | hu
      · exact ⟨_, hmem.mpr (Or.inl rfl), hl⟩
      · exact ⟨_, hmem.mpr (Or.inr (Or.inl rfl)), hu⟩
    · exact ⟨c, hmem.mpr (Or.inr (Or.inr (hold.mpr ⟨hc, hcb⟩))), hqc⟩
  · intro c hc
    have hbn := h.bound b (Or.inr hb)
    rcases hmem.mp hc with rfl | rfl | hc
    · exact (stop_lower_le ho).trans hbn
    · exact (stop_upper ho).trans_le hbn
    · exact h.bound c (hold.mp hc).1
  · intro c hc d hd q hqc hqd
    rcases hmem.mp hc with rfl | rfl | hc <;> rcases hmem.mp hd with rfl | rfl | hd
    · rfl
    · exact absurd hqd (not_mem_upper_of_lower hqc)
    · exact absurd hqd (hfar d hd q (Or.inl hqc))
    · exact absurd hqc (not_mem_upper_of_lower hqd)
    · rfl
    · exact absurd hqd (hfar d hd q (Or.inr hqc))
    · exact absurd hqc (hfar c hc q (Or.inl hqd))
    · exact absurd hqc (hfar c hc q (Or.inr hqd))
    · exact h.inj c (hold.mp hc).1 d (hold.mp hd).1 q hqc hqd
  · rintro c (rfl | hc) (hl | hu)
    · exact lower_ne_upper b hl.symm
    · exact hfar _ (Or.inr hu) _ (Or.inr b.upper.start_mem) b.upper.start_mem
    · exact hfar _ (Or.inl (hl ▸ hc)) _ (Or.inl b.lower.start_mem) b.lower.start_mem
    · exact h.disj c hc hu.1

/-- **Merging** a used block with its free buddy keeps the partition.

**Proof sketch.** The parent has the pages of the two blocks it replaces, so a page it shares
with a third block is one that block shares with one of the two. -/
theorem merge (hb : b ∈ U) (hf : b.buddy ∈ F) :
    Partition n (F \ {b.buddy}) (insert b.parent (U \ {b})) := by
  have hold : ∀ {c}, c ∈ (F \ {b.buddy}) ∪ (U \ {b}) ↔ c ∈ F ∪ U ∧ c ≠ b ∧ c ≠ b.buddy := by
    intro c
    have h1 := h.notMem_free hb
    have h2 := h.notMem_used hf
    simp only [Set.mem_union, Set.mem_sdiff, Set.mem_singleton_iff]
    constructor
    · rintro (⟨hc, hne⟩ | ⟨hc, hne⟩)
      · exact ⟨Or.inl hc, fun e => h1 (e ▸ hc), hne⟩
      · exact ⟨Or.inr hc, hne, fun e => h2 (e ▸ hc)⟩
    · rintro ⟨hc | hc, hne, hne'⟩
      · exact Or.inl ⟨hc, hne'⟩
      · exact Or.inr ⟨hc, hne⟩
  have hmem : ∀ {c}, c ∈ (F \ {b.buddy}) ∪ insert b.parent (U \ {b}) ↔
      c = b.parent ∨ c ∈ (F \ {b.buddy}) ∪ (U \ {b}) := by
    intro c
    simp only [Set.mem_union, Set.mem_insert_iff]
    tauto
  have hfar : ∀ c ∈ (F \ {b.buddy}) ∪ (U \ {b}), ∀ q, q ∈ b.parent → q ∉ c := by
    intro c hc q hq hqc
    obtain ⟨hc, hne, hne'⟩ := hold.mp hc
    rcases mem_parent_iff.mp hq with hq | hq
    · exact hne (h.inj c hc b (Or.inr hb) q hqc hq)
    · exact hne' (h.inj c hc b.buddy (Or.inl hf) q hqc hq)
  refine ⟨?_, ?_, ?_, ?_⟩
  · intro q hq
    obtain ⟨c, hc, hqc⟩ := h.cover q hq
    by_cases hp : q ∈ b.parent
    · exact ⟨_, hmem.mpr (Or.inl rfl), hp⟩
    · refine ⟨c, hmem.mpr (Or.inr (hold.mpr ⟨hc, ?_, ?_⟩)), hqc⟩
      · rintro rfl
        exact hp (mem_parent_iff.mpr (Or.inl hqc))
      · rintro rfl
        exact hp (mem_parent_iff.mpr (Or.inr hqc))
  · intro c hc
    rcases hmem.mp hc with rfl | hc
    · rcases halves_parent b with ⟨_, he⟩ | ⟨he, _⟩
      · rw [← stop_upper (b := b.parent) (by simp), ← he]
        exact h.bound _ (Or.inl hf)
      · rw [← stop_upper (b := b.parent) (by simp), ← he]
        exact h.bound _ (Or.inr hb)
    · exact h.bound c (hold.mp hc).1
  · intro c hc d hd q hqc hqd
    rcases hmem.mp hc with rfl | hc <;> rcases hmem.mp hd with rfl | hd
    · rfl
    · exact absurd hqd (hfar d hd q hqc)
    · exact absurd hqc (hfar c hc q hqd)
    · exact h.inj c (hold.mp hc).1 d (hold.mp hd).1 q hqc hqd
  · rintro c hc (rfl | hu)
    · exact hfar _ (Or.inl hc) _ b.parent.start_mem b.parent.start_mem
    · exact h.disj c hc.1 hu.1

end

/-! ## Coalesced partitions -/

end Partition

/-- No two buddies of order below `m` are both in `F`. -/
def Coalesced (m : ℕ) (F : Set Block) : Prop :=
  ∀ b ∈ F, b.order < m → b.buddy ∉ F

namespace Coalesced

variable {n m : ℕ} {F U : Set Block} {b : Block}

theorem mono {F' : Set Block} (h : Coalesced m F) (hs : F' ⊆ F) : Coalesced m F' :=
  fun b hb ho hbd => h b (hs hb) ho (hs hbd)

theorem insert (h : Coalesced m F) (hb : b.order < m → b.buddy ∉ F) :
    Coalesced m (insert b F) := by
  intro c hc ho hcd
  have hne : c.buddy ≠ c := fun e =>
    not_mem_buddy c.start_mem (e.symm ▸ c.start_mem)
  rcases hc with rfl | hc
  · rcases hcd with hcd | hcd
    · exact hne hcd
    · exact hb ho hcd
  · rcases hcd with hcd | hcd
    · exact hb (by rw [← hcd]; exact ho) (by rw [← hcd, buddy_buddy]; exact hc)
    · exact h c hc ho hcd

/-- A block whose pages are all covered is inside one of the blocks. -/
theorem exists_subset (hc : Coalesced m F) : ∀ (k : ℕ) (b : Block), b.order = k → k ≤ m →
    (∀ p ∈ b, ∃ c ∈ F, p ∈ c) → ∃ c ∈ F, ∀ p ∈ b, p ∈ c := by
  intro k
  induction k with
  | zero =>
    intro b hb _ hn
    obtain ⟨c, hcF, hpc⟩ := hn b.start b.start_mem
    exact ⟨c, hcF, fun p hp => subset_of_mem b.start_mem hpc (by omega) hp⟩
  | succ k ih =>
    intro b hb hk hn
    have hpos : 0 < b.order := by omega
    obtain ⟨c, hcF, hcs⟩ := ih b.lower (by simp [hb]) (by omega) fun p hp =>
      hn p ((mem_iff_halves hpos).mpr (Or.inl hp))
    obtain ⟨d, hdF, hds⟩ := ih b.upper (by simp [hb]) (by omega) fun p hp =>
      hn p ((mem_iff_halves hpos).mpr (Or.inr hp))
    have hcl := hcs _ b.lower.start_mem
    have hdu := hds _ b.upper.start_mem
    have hlb : b.lower.start ∈ b := (mem_iff_halves hpos).mpr (Or.inl b.lower.start_mem)
    have hub : b.upper.start ∈ b := (mem_iff_halves hpos).mpr (Or.inr b.upper.start_mem)
    rcases Nat.lt_or_ge k c.order with hlt | hle
    · exact ⟨c, hcF, fun p hp => subset_of_mem hlb hcl (by omega) hp⟩
    rcases Nat.lt_or_ge k d.order with hlt' | hle'
    · exact ⟨d, hdF, fun p hp => subset_of_mem hub hdu (by omega) hp⟩
    -- both blocks are the halves of `b`
    exfalso
    have hcb := order_le_of_subset (b := b.lower) (c := c) hcs
    have hdb := order_le_of_subset (b := b.upper) (c := d) hds
    have hce : c = b.lower := (eq_of_mem b.lower.start_mem hcl (by simp at hcb ⊢; omega)).symm
    have hde : d = b.upper := (eq_of_mem b.upper.start_mem hdu (by simp at hdb ⊢; omega)).symm
    refine hc d hdF (by rw [hde]; simp; omega) ?_
    rw [hde, buddy_upper, ← hce]
    exact hcF

/-- **Uniqueness of the coalesced tiling**: two tilings of `[0, n)` by free blocks of order at
most `m`, both coalesced below `m`, have the same blocks. -/
theorem subset_of_partition {F' : Set Block} (h : Partition n F ∅) (h' : Partition n F' ∅)
    (hc : Coalesced m F) (hc' : Coalesced m F') (ho : ∀ b ∈ F, b.order ≤ m)
    (ho' : ∀ b ∈ F', b.order ≤ m) : F ⊆ F' := by
  intro b hb
  obtain ⟨c, hcF, hbc⟩ := exists_subset hc' b.order b rfl (ho b hb) fun p hp => by
    simpa using h'.cover p (h.lt_of_mem (Or.inl hb) hp)
  obtain ⟨d, hdF, hcd⟩ := exists_subset hc c.order c rfl (ho' c hcF) fun p hp => by
    simpa using h.cover p (h'.lt_of_mem (Or.inl hcF) hp)
  have hbd : b = d := h.inj b (Or.inl hb) d (Or.inl hdF) b.start b.start_mem
    (hcd _ (hbc _ b.start_mem))
  have hle := order_le_of_subset hbc
  have hle' := order_le_of_subset hcd
  have hbc' : b = c := eq_of_mem b.start_mem (hbc _ b.start_mem) (by rw [← hbd] at hle'; omega)
  exact hbc' ▸ hcF

end Coalesced

end Dyadic
