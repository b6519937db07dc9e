import Ginkgo.Mm.BuddyCreate
import Ginkgo.Mm.MemPool
import Mathlib.Tactic.IntervalCases

/-!
# Size classes and the pool invariant

Three functions of `mm/mem_pool.c` compute with size classes: `mem_pool_create` gives every pool
its size, `adjust_request_size` rounds a request up to the size of a pool, and
`mem_pool_locate_free` finds that pool again.  This file shows that they agree, and states the
invariant that ties the free lists of the pools to the headers of their pages.

## Main results

* `adjustRequestSize_spec`, `poolSize_classIndex` — the size classes agree.
* `memPoolDelBlock_spec`, `memPoolAddBlock_spec` — the block operations keep
  the invariant.
-/

namespace Ginkgo.Mm

open Fallible (ok_bind)

/-! ## Size classes -/

/-- The binary logarithm of the distance between neighbouring size classes from `2 ^ L` on. -/
def granuleLog (L : ℕ) : ℕ := L - min (L - 4) 2

/-- The indices that `mem_pool_locate_free` computes for blocks of size `z`. -/
def classIndex (z : ℕ) : ℕ × ℕ :=
  (Nat.log 2 z - 4, z / 2 ^ granuleLog (Nat.log 2 z) % 2 ^ min (Nat.log 2 z - 4) 2)

/-- A pool that `mem_pool_create` sets up. -/
def ValidPool (f s : ℕ) : Prop := f < memPoolFIndexCount ∧ s < sIndexCount f

instance (f s : ℕ) : Decidable (ValidPool f s) :=
  inferInstanceAs (Decidable (f < memPoolFIndexCount ∧ s < sIndexCount f))

theorem sizeShift_natCast {L : ℕ} (h : 4 ≤ L) : sizeShift L = (min (L - 4) 2 : ℕ) := by
  unfold sizeShift memPoolAlignSizeLog2 memPoolSIndexCountLog2
  omega

theorem poolSize_spec {f s : ℕ} (h : ValidPool f s) :
    16 ∣ poolSize f s ∧ 16 ≤ poolSize f s ∧ poolSize f s ≤ memPoolMaxSize := by
  have hall : ∀ f < memPoolFIndexCount, ∀ s < sIndexCount f,
      16 ∣ poolSize f s ∧ 16 ≤ poolSize f s ∧ poolSize f s ≤ memPoolMaxSize := by decide
  exact hall f h.1 s h.2

theorem ValidPool.lt {f s : ℕ} (h : ValidPool f s) : s < memPoolSIndexCount := by
  have hall : ∀ f < memPoolFIndexCount, sIndexCount f ≤ memPoolSIndexCount := by decide
  exact h.2.trans_le (hall f h.1)

private theorem log_block_bounds {z : ℕ} (hlo : memPoolMinSize ≤ z) (hhi : z ≤ memPoolMaxSize) :
    4 ≤ Nat.log 2 z ∧ Nat.log 2 z ≤ 11 ∧ 2 ^ Nat.log 2 z ≤ z ∧ z < 2 ^ (Nat.log 2 z + 1) := by
  unfold memPoolMinSize at hlo
  unfold memPoolMaxSize at hhi
  have h1 : 2 ^ Nat.log 2 z ≤ z := Nat.pow_log_le_self 2 (by omega)
  have h2 : z < 2 ^ (Nat.log 2 z + 1) := Nat.lt_pow_succ_log_self (by norm_num) z
  refine ⟨Nat.le_log_of_pow_le (by norm_num) (by omega), ?_, h1, h2⟩
  exact Nat.lt_succ_iff.mp (Nat.log_lt_of_lt_pow (by omega) (by omega))

/-- **`mem_pool_locate_free` finds the pool of a size class.** -/
theorem poolSize_classIndex {z : ℕ} (hlo : memPoolMinSize ≤ z) (hhi : z ≤ memPoolMaxSize)
    (hdvd : 2 ^ granuleLog (Nat.log 2 z) ∣ z) :
    ValidPool (classIndex z).1 (classIndex z).2 ∧
      poolSize (classIndex z).1 (classIndex z).2 = z := by
  obtain ⟨h4, h11, h1, h2⟩ := log_block_bounds hlo hhi
  unfold classIndex
  generalize Nat.log 2 z = L at *
  -- eight powers of two, each with one, two or four classes
  interval_cases L <;>
    simp [ValidPool, poolSize, sIndexCount, memPoolFIndexCount, memPoolMinSizeLog2, sizeShift,
      memPoolAlignSizeLog2, memPoolSIndexCountLog2, granuleLog] at * <;> omega

/-- **`adjust_request_size`** rounds a request up to a size class. -/
theorem adjustRequestSize_spec {size : ℕ} (hhi : size ≤ memPoolMaxSize) :
    ∃ z, adjustRequestSize size = .ok z ∧ size ≤ z ∧ memPoolMinSize ≤ z ∧ z ≤ memPoolMaxSize ∧
      2 ^ granuleLog (Nat.log 2 z) ∣ z := by
  obtain ⟨x, hx⟩ : ∃ x, x = if size < memPoolMinSize then memPoolMinSize else size := ⟨_, rfl⟩
  have hsx : size ≤ x := by rw [hx]; split <;> omega
  have hlo : memPoolMinSize ≤ x := by rw [hx]; split <;> omega
  have hxhi : x ≤ memPoolMaxSize := by
    rw [hx]
    split
    · decide
    · exact hhi
  obtain ⟨h4, h11, h1, h2⟩ := log_block_bounds hlo hxhi
  have hk : granuleLog (Nat.log 2 x) < 64 := by unfold granuleLog; omega
  have h64 : x < 2 ^ 64 := hxhi.trans_lt (by decide)
  have h0 : x ≠ 0 := by unfold memPoolMinSize at hlo; omega
  have hgran : ((Nat.log 2 x : ℤ) - (min (Nat.log 2 x - 4) 2 : ℕ)).toNat =
      granuleLog (Nat.log 2 x) := by
    unfold granuleLog
    omega
  have hrun : adjustRequestSize size = .ok (2 ^ granuleLog (Nat.log 2 x) *
      ((x + (2 ^ granuleLog (Nat.log 2 x) - 1)) / 2 ^ granuleLog (Nat.log 2 x))) := by
    have hw : x + (2 ^ granuleLog (Nat.log 2 x) - 1) < 2 ^ 64 := by
      have : 2 ^ granuleLog (Nat.log 2 x) ≤ 2 ^ 11 :=
        Nat.pow_le_pow_right (by norm_num) (by unfold granuleLog; omega)
      unfold memPoolMaxSize at hxhi
      omega
    simp only [adjustRequestSize, ← hx, buddyFlsSizet_eq h0 h64, sizeShift_natCast h4, hgran,
      Nat.one_shiftLeft, alignUp_two_pow _ hk, wrap64_of_lt hw]
  refine ⟨_, hrun, ?_⟩
  obtain ⟨z, hz⟩ : ∃ z, z = 2 ^ granuleLog (Nat.log 2 x) *
    ((x + (2 ^ granuleLog (Nat.log 2 x) - 1)) / 2 ^ granuleLog (Nat.log 2 x)) := ⟨_, rfl⟩
  rw [← hz]
  have hbounds : x ≤ z ∧ z ≤ memPoolMaxSize ∧ z ≤ 2 ^ (Nat.log 2 x + 1) := by
    unfold memPoolMaxSize at *
    generalize Nat.log 2 x = L at *
    interval_cases L <;> simp [granuleLog] at * <;> omega
  refine ⟨hsx.trans hbounds.1, hlo.trans hbounds.1, hbounds.2.1, ?_⟩
  rcases hbounds.2.2.lt_or_eq with hlt | heq
  · rw [Nat.log_eq_of_pow_le_of_lt_pow (h1.trans hbounds.1) hlt, hz]
    exact Nat.dvd_mul_right _ _
  · rw [heq, Nat.log_pow (by norm_num)]
    exact pow_dvd_pow 2 (Nat.sub_le _ _)

/-! ## The blocks of a page -/

/-- The number of blocks of size `z` in a page. -/
def slotCount (z : ℕ) : ℕ := (pageSize - sizeofHeader) / z

/-- The address of block `k` of the page at `a`. -/
def slot (a z k : ℕ) : ℕ := a + sizeofHeader + z * k

/-- The address of the page that contains `x`. -/
def pageOf (x : ℕ) : ℕ := x - x % pageSize

variable {a z k : ℕ}

theorem slot_bounds (hk : k < slotCount z) :
    a + sizeofHeader ≤ slot a z k ∧ slot a z k + z ≤ a + pageSize := by
  have hz : 0 < z := by
    rcases Nat.eq_zero_or_pos z with rfl | hz
    · simp [slotCount] at hk
    · exact hz
  have hle : z * (k + 1) ≤ pageSize - sizeofHeader := by
    rw [Nat.mul_comm]
    exact (Nat.le_div_iff_mul_le hz).mp hk
  rw [Nat.mul_succ] at hle
  unfold slot pageSize sizeofHeader at *
  omega

theorem pageOf_slot (ha : pageSize ∣ a) (hz : 0 < z) (hk : k < slotCount z) :
    pageOf (slot a z k) = a ∧ slot a z k % pageSize ≠ 0 := by
  obtain ⟨h1, h2⟩ := slot_bounds (a := a) hk
  unfold pageOf pageSize sizeofHeader at *
  omega

theorem slot_apart {i j : ℕ} (hne : slot a z i ≠ slot a z j) :
    slot a z i + z ≤ slot a z j ∨ slot a z j + z ≤ slot a z i := by
  unfold slot at *
  rcases Nat.lt_trichotomy i j with hlt | rfl | hlt
  · left
    have := Nat.mul_le_mul_left z (Nat.succ_le_of_lt hlt)
    rw [Nat.mul_succ] at this
    omega
  · exact absurd rfl hne
  · right
    have := Nat.mul_le_mul_left z (Nat.succ_le_of_lt hlt)
    rw [Nat.mul_succ] at this
    omega

theorem headerFromBlock_eq {x : ℕ} (hx : x % pageSize ≠ 0) (h64 : x < 2 ^ 64) :
    headerFromBlock x = .ok (pageOf x) := by
  have hand : x &&& (pageSize - 1) = x % pageSize := Nat.and_two_pow_sub_one_eq_mod x 12
  rw [headerFromBlock, hand, kassert_pos hx, ok_bind]
  exact alignDown_two_pow (k := 12) h64 (by decide)

theorem countP_pageOf_le {l : List ℕ} (hd : l.Nodup)
    (hl : ∀ x ∈ l, pageOf x = a → ∃ k < slotCount z, x = slot a z k) :
    l.countP (fun x => pageOf x = a) ≤ slotCount z := by
  have hsub : l.filter (fun x => pageOf x = a) ⊆ (List.range (slotCount z)).map (slot a z) := by
    intro x hx
    obtain ⟨hxl, hxa⟩ := List.mem_filter.mp hx
    obtain ⟨k, hk, rfl⟩ := hl x hxl (of_decide_eq_true hxa)
    exact List.mem_map.mpr ⟨k, List.mem_range.mpr hk, rfl⟩
  have hlen := ((hd.filter _).subperm hsub).length_le
  rwa [List.length_map, List.length_range, ← List.countP_eq_length_filter] at hlen

/-! ## The invariant -/

/-- The address `x` is a block of a page of the pool. -/
def MemPoolControl.IsSlot (c : MemPoolControl) (f s x : ℕ) : Prop :=
  ∃ a h k, c.header a = some h ∧ h.pool = (f, s) ∧ k < slotCount (poolSize f s) ∧
    x = slot a (poolSize f s) k

/-- The invariant of the pools. -/
structure PoolInv (c : MemPoolControl) : Prop where
  valid : ∀ f s p, c.pool f s = some p → ValidPool f s ∧ p.size = poolSize f s
  complete : ∀ f s, ValidPool f s → ∃ p, c.pool f s = some p
  page : ∀ a h, c.header a = some h →
    pageSize ∣ a ∧ a + pageSize ≤ 2 ^ 64 ∧ ValidPool h.pool.1 h.pool.2
  count : ∀ a h, c.header a = some h →
    h.freeCount = (c.freeBlock h.pool.1 h.pool.2).countP fun x => pageOf x = a
  block : ∀ f s, ∀ x ∈ c.freeBlock f s, c.IsSlot f s x
  nodup : ∀ f s, (c.freeBlock f s).Nodup

variable {c c' : MemPoolControl} {f s x : ℕ}

/-- The pages of the pools are the same. -/
def SamePages (c c' : MemPoolControl) : Prop :=
  ∀ a, (c'.header a).map MemPoolHeader.pool = (c.header a).map MemPoolHeader.pool

namespace SamePages

theorem header (h : SamePages c c') {hd : MemPoolHeader} (ha : c.header a = some hd) :
    ∃ hd', c'.header a = some hd' ∧ hd'.pool = hd.pool := by
  have := h a
  rw [ha] at this
  simpa using this

theorem symm (h : SamePages c c') : SamePages c' c := fun a => (h a).symm

theorem isSlot (h : SamePages c c') (hx : c.IsSlot f s x) : c'.IsSlot f s x := by
  obtain ⟨a, hd, k, ha, hp, hk, rfl⟩ := hx
  obtain ⟨hd', ha', hp'⟩ := h.header ha
  exact ⟨a, hd', k, ha', hp'.trans hp, hk, rfl⟩

theorem setHeader {hd : MemPoolHeader} (ha : c.header a = some hd) (count : ℕ) :
    SamePages c (c.setHeader a { hd with freeCount := count }) := by
  intro b
  by_cases hb : b = a
  · subst hb
    simp [MemPoolControl.setHeader, ha]
  · simp [MemPoolControl.setHeader, hb]

end SamePages

theorem PoolInv.isSlot_facts (h : PoolInv c) (hx : c.IsSlot f s x) :
    ∃ hd, c.header (pageOf x) = some hd ∧ hd.pool = (f, s) ∧ ValidPool f s ∧
      x % pageSize ≠ 0 ∧ x < 2 ^ 64 ∧ x ≠ 0 := by
  obtain ⟨a, hd, k, ha, hp, hk, rfl⟩ := hx
  obtain ⟨hdvd, h64, hvalid⟩ := h.page a hd ha
  replace hvalid : ValidPool f s := by
    rw [hp] at hvalid
    exact hvalid
  have hz := (poolSize_spec hvalid).2.1
  obtain ⟨hpage, hmod⟩ := pageOf_slot hdvd (by omega) hk
  obtain ⟨hlo, hhi⟩ := slot_bounds (a := a) hk
  refine ⟨hd, by rw [hpage]; exact ha, hp, hvalid, hmod, by omega, ?_⟩
  unfold sizeofHeader at hlo
  omega

theorem PoolInv.dvd_slot (h : PoolInv c) (hx : c.IsSlot f s x) : memPoolAlignSize ∣ x := by
  obtain ⟨a, hd, k, ha, hpool, hk, rfl⟩ := hx
  obtain ⟨hdvd, -, hvalid⟩ := h.page a hd ha
  rw [hpool] at hvalid
  refine Nat.dvd_add (Nat.dvd_add (Nat.dvd_trans (by decide) hdvd) (by decide)) ?_
  exact Nat.dvd_trans (poolSize_spec hvalid).1 (Nat.dvd_mul_right _ _)

theorem PoolInv.slot_of_pageOf (h : PoolInv c) {hd : MemPoolHeader} (ha : c.header a = some hd)
    (hx : c.IsSlot hd.pool.1 hd.pool.2 x) (hpage : pageOf x = a) :
    ∃ k < slotCount (poolSize hd.pool.1 hd.pool.2),
      x = slot a (poolSize hd.pool.1 hd.pool.2) k := by
  obtain ⟨b, hd', k, hb, hp, hk, rfl⟩ := hx
  have hz := (poolSize_spec (h.page a hd ha).2.2).2.1
  have hab : b = a := by
    rw [← hpage]
    exact (pageOf_slot (h.page b hd' hb).1 (by omega) hk).1.symm
  exact ⟨k, hk, by rw [hab]⟩

theorem slotCount_lt (h : ValidPool f s) :
    slotCount (poolSize f s) < pageSize / memPoolAlignSize := by
  have hz := (poolSize_spec h).2.1
  have hle : slotCount (poolSize f s) ≤ (pageSize - sizeofHeader) / 16 :=
    Nat.div_le_div_left hz (by norm_num)
  exact hle.trans_lt (by decide)

theorem PoolInv.freeCount_lt (h : PoolInv c) {hd : MemPoolHeader} (ha : c.header a = some hd) :
    hd.freeCount < pageSize / memPoolAlignSize := by
  rw [h.count a hd ha]
  refine (countP_pageOf_le (h.nodup _ _) fun x hx hpage => ?_).trans_lt
    (slotCount_lt (h.page a hd ha).2.2)
  exact h.slot_of_pageOf ha (h.block _ _ x hx) hpage

/-- The pools have the same sizes. -/
def SameSizes (c c' : MemPoolControl) : Prop :=
  ∀ f s, (c'.pool f s).map MemPool.size = (c.pool f s).map MemPool.size

theorem PoolInv.of_same (h : PoolInv c) (hsizes : SameSizes c c') (hpages : SamePages c c')
    (hcount : ∀ a hd, c'.header a = some hd →
      hd.freeCount = (c'.freeBlock hd.pool.1 hd.pool.2).countP fun x => pageOf x = a)
    (hblock : ∀ f s, ∀ x ∈ c'.freeBlock f s, c.IsSlot f s x)
    (hnodup : ∀ f s, (c'.freeBlock f s).Nodup) : PoolInv c' where
  valid f s p hp := by
    have hmap := hsizes f s
    rw [hp, Option.map_some] at hmap
    obtain ⟨q, hq, hqp⟩ := Option.map_eq_some_iff.mp hmap.symm
    rw [← hqp]
    exact h.valid f s q hq
  complete f s hfs := by
    obtain ⟨p, hp⟩ := h.complete f s hfs
    have hmap := hsizes f s
    rw [hp, Option.map_some] at hmap
    obtain ⟨q, hq, -⟩ := Option.map_eq_some_iff.mp hmap
    exact ⟨q, hq⟩
  page a hd ha := by
    obtain ⟨hd₀, ha₀, hp₀⟩ := hpages.symm.header ha
    rw [← hp₀]
    exact h.page a hd₀ ha₀
  count := hcount
  block f s x hx := hpages.isSlot (hblock f s x hx)
  nodup := hnodup

/-! ## Freeing and taking a block -/

@[simp] theorem freeBlock_setHeader (hd : MemPoolHeader) (i j : ℕ) :
    (c.setHeader a hd).freeBlock i j = c.freeBlock i j := rfl

@[simp] theorem freeBlock_unlink (i j : ℕ) :
    (c.unlink x).freeBlock i j = (c.freeBlock i j).erase x := by
  cases hp : c.pool i j with
  | none => simp [MemPoolControl.freeBlock, MemPoolControl.unlink, hp]
  | some p => simp [MemPoolControl.freeBlock, MemPoolControl.unlink, hp]

theorem freeBlock_setFreeBlock {p : MemPool} (hp : c.pool f s = some p) (l : List ℕ) (i j : ℕ) :
    (c.setFreeBlock f s l).freeBlock i j = if i = f ∧ j = s then l else c.freeBlock i j := by
  by_cases hij : i = f ∧ j = s
  · obtain ⟨rfl, rfl⟩ := hij
    simp [MemPoolControl.freeBlock, MemPoolControl.setFreeBlock, hp]
  · simp only [MemPoolControl.freeBlock, MemPoolControl.setFreeBlock, hij, ↓reduceIte]

private theorem countP_erase_block {l : List ℕ} (hx : x ∈ l) (b : ℕ) :
    l.countP (fun y => pageOf y = b) =
      (l.erase x).countP (fun y => pageOf y = b) + if pageOf x = b then 1 else 0 := by
  rw [(List.perm_cons_erase hx).countP_eq, List.countP_cons]
  simp only [decide_eq_true_eq]

/-- **`mem_pool_del_block`** takes a free block off its list.

**Proof sketch.** The block is on the list of one pool only, since its page has one header.  The
header of that page loses one block, and the count of every other page is unchanged. -/
theorem memPoolDelBlock_spec (h : PoolInv c) (hx : x ∈ c.freeBlock f s) :
    ∃ c', memPoolDelBlock c x = .ok c' ∧ PoolInv c' ∧ c'.system = c.system ∧ SamePages c c' ∧
      ∀ i j, c'.freeBlock i j = (c.freeBlock i j).erase x := by
  obtain ⟨hd, hhd, hpool, hvalid, hmod, h64, h0⟩ := h.isSlot_facts (h.block f s x hx)
  have hcount := h.count _ hd hhd
  rw [hpool] at hcount
  have hpos : 0 < hd.freeCount := by
    rw [hcount, List.countP_pos_iff]
    exact ⟨x, hx, by simp⟩
  have hlt := h.freeCount_lt hhd
  have hsub : sub64 hd.freeCount 1 = hd.freeCount - 1 :=
    sub64_of_le hpos (hlt.trans (by decide))
  have hlinked : c.Linked x := ⟨f, hvalid.1, s, hvalid.lt, hx⟩
  have hpages : SamePages c
      ((c.unlink x).setHeader (pageOf x) { hd with freeCount := hd.freeCount - 1 }) :=
    SamePages.setHeader (c := c.unlink x) hhd _
  have hfar : ∀ i j b, b ≠ pageOf x → (c.freeBlock i j).countP (fun y => pageOf y = b) =
      ((c.freeBlock i j).erase x).countP fun y => pageOf y = b := by
    intro i j b hb
    by_cases hij : x ∈ c.freeBlock i j
    · rw [countP_erase_block hij, if_neg hb.symm, Nat.add_zero]
    · rw [List.erase_of_not_mem hij]
  have hsizes : SameSizes c
      ((c.unlink x).setHeader (pageOf x) { hd with freeCount := hd.freeCount - 1 }) := by
    intro i j
    cases hp : c.pool i j with
    | none => simp [MemPoolControl.setHeader, MemPoolControl.unlink, hp]
    | some p => simp [MemPoolControl.setHeader, MemPoolControl.unlink, hp]
  refine ⟨(c.unlink x).setHeader (pageOf x) { hd with freeCount := hd.freeCount - 1 }, ?_,
    h.of_same hsizes hpages ?_ ?_ ?_, rfl, hpages, fun i j => freeBlock_unlink i j⟩
  · have hhd' : (c.unlink x).getHeader (pageOf x) = .ok hd := by
      simp [MemPoolControl.getHeader, MemPoolControl.unlink, hhd]
    unfold memPoolDelBlock
    rw [kassert_pos h0, ok_bind, access_pos hlinked, ok_bind]
    dsimp only
    rw [headerFromBlock_eq hmod h64, ok_bind, hhd', ok_bind, hsub,
      kassert_pos ((Nat.sub_le _ _).trans_lt hlt), ok_bind]
    rfl
  · intro b hd' hb
    rw [freeBlock_setHeader, freeBlock_unlink]
    by_cases hbx : b = pageOf x
    · subst hbx
      obtain rfl : _ = hd' := by simpa [MemPoolControl.setHeader] using hb
      rw [countP_erase_block hx, if_pos rfl] at hcount
      dsimp only
      rw [hpool]
      dsimp only
      omega
    · rw [← hfar _ _ b hbx]
      refine h.count b hd' ?_
      simpa [MemPoolControl.setHeader, MemPoolControl.unlink, hbx] using hb
  · intro i j y hy
    rw [freeBlock_setHeader, freeBlock_unlink] at hy
    exact h.block i j y (List.mem_of_mem_erase hy)
  · intro i j
    rw [freeBlock_setHeader, freeBlock_unlink]
    exact (h.nodup i j).erase x

/-- **`mem_pool_add_block`** links a block of a pool that is not free.

**Proof sketch.** The header of the page leads to the list of the pool.  With the new block the
list still has no more blocks of the page than the page has, so the counter stays in range. -/
theorem memPoolAddBlock_spec (h : PoolInv c) (hx : c.IsSlot f s x) (hnot : x ∉ c.freeBlock f s) :
    ∃ c', memPoolAddBlock c x = .ok c' ∧ PoolInv c' ∧ c'.system = c.system ∧ SamePages c c' ∧
      (∀ i j, c'.freeBlock i j =
        if i = f ∧ j = s then c.freeBlock f s ++ [x] else c.freeBlock i j) ∧
      ∃ hd, c'.header (pageOf x) = some hd ∧ hd.freeCount ≠ 0 := by
  obtain ⟨hd, hhd, hpool, hvalid, hmod, h64, h0⟩ := h.isSlot_facts hx
  obtain ⟨p, hp⟩ := h.complete f s hvalid
  have hlist : p.freeBlock = c.freeBlock f s := by simp [MemPoolControl.freeBlock, hp]
  have hcount := h.count _ hd hhd
  rw [hpool] at hcount
  have hwrap : wrap64 (hd.freeCount + 1) = hd.freeCount + 1 := by
    have := (h.freeCount_lt hhd).trans (show pageSize / memPoolAlignSize < 2 ^ 32 by decide)
    exact wrap64_of_lt (by omega)
  set c' := (c.setFreeBlock f s (c.freeBlock f s ++ [x])).setHeader (pageOf x)
    { hd with freeCount := hd.freeCount + 1 } with hc'
  have hfree : ∀ i j, c'.freeBlock i j =
      if i = f ∧ j = s then c.freeBlock f s ++ [x] else c.freeBlock i j :=
    freeBlock_setFreeBlock hp _
  have hpages : SamePages c c' :=
    SamePages.setHeader (c := c.setFreeBlock f s (c.freeBlock f s ++ [x])) hhd _
  have hsizes : SameSizes c c' := by
    intro i j
    by_cases hij : i = f ∧ j = s
    · obtain ⟨rfl, rfl⟩ := hij
      simp [hc', MemPoolControl.setHeader, MemPoolControl.setFreeBlock, hp]
    · simp [hc', MemPoolControl.setHeader, MemPoolControl.setFreeBlock, hij]
  have hinv : PoolInv c' := by
    refine h.of_same hsizes hpages (fun b hd' hb => ?_) (fun i j y hy => ?_) fun i j => ?_
    · rw [hfree]
      by_cases hbx : b = pageOf x
      · subst hbx
        obtain rfl : _ = hd' := by simpa [hc', MemPoolControl.setHeader] using hb
        simp [hpool, hcount]
      · have hb' : c.header b = some hd' := by
          simpa [hc', MemPoolControl.setHeader, MemPoolControl.setFreeBlock, hbx] using hb
        rw [h.count b hd' hb']
        split_ifs with hij
        · simp [hij, Ne.symm hbx]
        · rfl
    · rw [hfree] at hy
      split_ifs at hy with hij
      · obtain ⟨rfl, rfl⟩ := hij
        rcases List.mem_append.mp hy with hy | hy
        · exact h.block _ _ y hy
        · rw [List.mem_singleton.mp hy]
          exact hx
      · exact h.block i j y hy
    · rw [hfree]
      split_ifs with hij
      · exact List.nodup_append.mpr ⟨h.nodup f s, List.nodup_singleton x, by
          rintro y hy z hz rfl
          exact hnot (List.mem_singleton.mp hz ▸ hy)⟩
      · exact h.nodup i j
  have hhd' : c'.header (pageOf x) = some { hd with freeCount := hd.freeCount + 1 } := by
    simp [hc', MemPoolControl.setHeader]
  refine ⟨c', ?_, hinv, rfl, hpages, hfree, _, hhd', by simp⟩
  have hget : c.getHeader (pageOf x) = .ok hd := by simp [MemPoolControl.getHeader, hhd]
  have hgetp : c.getPool f s = .ok p := by simp [MemPoolControl.getPool, hp]
  have hlt : hd.freeCount + 1 < pageSize / memPoolAlignSize := hinv.freeCount_lt hhd'
  unfold memPoolAddBlock
  rw [kassert_pos h0, ok_bind, headerFromBlock_eq hmod h64, ok_bind, hget,
    ok_bind, hpool, hgetp, ok_bind, hlist, hwrap]
  dsimp only
  rw [kassert_pos hlt, ok_bind, hc', hpool]
  rfl

theorem memPoolRecycle_spec (h : PoolInv c) (hx : c.IsSlot f s x) (hnot : x ∉ c.freeBlock f s) :
    ∃ c', memPoolRecycle c x = .ok c' ∧ PoolInv c' ∧ c'.system = c.system ∧ SamePages c c' ∧
      ∀ i j, c'.freeBlock i j =
        if i = f ∧ j = s then c.freeBlock f s ++ [x] else c.freeBlock i j := by
  obtain ⟨-, -, -, -, hmod, h64, -⟩ := h.isSlot_facts hx
  obtain ⟨c', hc', hinv, hsys, hpages, hfree, hd, hhd, hne⟩ := memPoolAddBlock_spec h hx hnot
  refine ⟨c', ?_, hinv, hsys, hpages, hfree⟩
  have hget : c'.getHeader (pageOf x) = .ok hd := by simp [MemPoolControl.getHeader, hhd]
  rw [memPoolRecycle, hc', ok_bind, headerFromBlock_eq hmod h64, ok_bind, hget,
    ok_bind, if_neg hne]
  rfl

end Ginkgo.Mm
