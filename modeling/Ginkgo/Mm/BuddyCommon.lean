import Ginkgo.Include.BitScan
import Ginkgo.Machine

/-!
# `mm/buddy-common.h`

The 64-bit versions of the bit scans and the alignment helpers that the two allocators share.
The scans return an `int`, which is `-1` on the zero word.

## Main results

* `buddyFlsSizet_eq` — the highest set bit is the binary logarithm.
* `buddyFfsSizet_eq` — the lowest set bit.
* `alignUp_two_pow` — the value of `align_up` at a power of two.
-/

namespace Ginkgo.Mm

open Bits

/-- `buddy_ffs`. -/
def buddyFfs (word : BitVec 32) : ℤ := (ffs word : ℤ) - 1

/-- `buddy_fls`. -/
def buddyFls (word : BitVec 32) : ℤ := (fls word : ℤ) - 1

/-- `buddy_fls_sizet`: the high half decides unless it is zero. -/
def buddyFlsSizet (size : ℕ) : ℤ :=
  let high := BitVec.ofNat 32 (size >>> 32)
  if high ≠ 0 then 32 + buddyFls high else buddyFls (BitVec.ofNat 32 size)

/-- `buddy_ffs_sizet`: the low half decides unless it is zero. -/
def buddyFfsSizet (size : ℕ) : ℤ :=
  let low := BitVec.ofNat 32 size
  if low ≠ 0 then buddyFfs low else 32 + buddyFfs (BitVec.ofNat 32 (size >>> 32))

/-- `align_up`. -/
def alignUp (x align : ℕ) : Except Fault ℕ := do
  kassert (align &&& sub64 align 1 = 0)
  return wrap64 (x + sub64 align 1) &&& not64 (sub64 align 1)

/-- `align_down`. -/
def alignDown (x align : ℕ) : Except Fault ℕ := do
  kassert (align &&& sub64 align 1 = 0)
  return sub64 x (x &&& sub64 align 1)

/-- `align_ptr`. -/
def alignPtr (ptr align : ℕ) : Except Fault ℕ := do
  kassert (ptr ≠ 0 ∧ align ≠ 0)
  let aligned := wrap64 (ptr + sub64 align 1) &&& not64 (sub64 align 1)
  kassert (align &&& sub64 align 1 = 0)
  return aligned

/-! ## Bit scans -/

/-- **`buddy_fls_sizet` is the binary logarithm** of a non-zero word. -/
theorem buddyFlsSizet_eq {size : ℕ} (h0 : size ≠ 0) (h : size < 2 ^ 64) :
    buddyFlsSizet size = Nat.log 2 size := by
  have hhigh : (BitVec.ofNat 32 (size >>> 32)).toNat = size / 2 ^ 32 := by
    rw [BitVec.toNat_ofNat, Nat.shiftRight_eq_div_pow, Nat.mod_eq_of_lt (by omega)]
  unfold buddyFlsSizet buddyFls
  by_cases hz : size / 2 ^ 32 = 0
  · have hlow : (BitVec.ofNat 32 size).toNat = size := by
      rw [BitVec.toNat_ofNat, Nat.mod_eq_of_lt (by omega)]
    have hne : BitVec.ofNat 32 size ≠ 0 := by
      intro he
      exact h0 (by rw [← hlow, he]; rfl)
    have hzero : BitVec.ofNat 32 (size >>> 32) = 0 := by
      rw [← BitVec.toNat_inj, hhigh, hz]
      rfl
    simp only [hzero, ne_eq, not_true_eq_false, ↓reduceIte, fls_eq hne, hlow]
    push_cast
    ring
  · have hne : BitVec.ofNat 32 (size >>> 32) ≠ 0 := by
      intro he
      exact hz (by rw [← hhigh, he]; rfl)
    have hlog : Nat.log 2 size = Nat.log 2 (size / 2 ^ 32) + 32 := by
      have hH := isHighest_log hz
      refine Nat.log_eq_of_pow_le_of_lt_pow ?_ ?_
      · rw [pow_add]
        exact (Nat.mul_le_mul_right _ hH.1).trans (Nat.div_mul_le_self _ _)
      · rw [show Nat.log 2 (size / 2 ^ 32) + 32 + 1 = Nat.log 2 (size / 2 ^ 32) + 1 + 32 by omega,
          pow_add]
        exact (Nat.div_lt_iff_lt_mul (Nat.two_pow_pos 32)).mp hH.2
    simp only [hne, ne_eq, not_false_eq_true, ↓reduceIte, fls_eq hne, hhigh, hlog]
    push_cast
    ring

/-- **`buddy_ffs_sizet` finds the lowest set bit** of a non-zero word. -/
theorem buddyFfsSizet_eq {size L : ℕ} (h : size < 2 ^ 64) (hL : size.testBit L = true)
    (hmin : ∀ i < L, size.testBit i = false) : buddyFfsSizet size = L := by
  have hL64 : L < 64 := by
    by_contra hge
    have := Nat.testBit_lt_two_pow (h.trans_le (Nat.pow_le_pow_right (by norm_num)
      (Nat.le_of_not_lt hge)))
    rw [hL] at this
    exact absurd this (by decide)
  unfold buddyFfsSizet buddyFfs
  rcases Nat.lt_or_ge L 32 with h32 | h32
  · have hlow : IsLowest (BitVec.ofNat 32 size) L := by
      refine ⟨?_, fun i hi => ?_⟩
      · simp [BitVec.getLsbD_ofNat, h32, hL]
      · simp [BitVec.getLsbD_ofNat, hmin i hi]
    have hne : BitVec.ofNat 32 size ≠ 0 := by
      intro he
      have := hlow.1
      rw [he] at this
      simp at this
    simp only [hne, ne_eq, not_false_eq_true, ↓reduceIte, ffs_eq hlow]
    omega
  · have hzero : BitVec.ofNat 32 size = 0 := by
      refine BitVec.eq_of_getLsbD_eq fun i hi => ?_
      simp [BitVec.getLsbD_ofNat, hmin i (by omega)]
    have hhigh : IsLowest (BitVec.ofNat 32 (size >>> 32)) (L - 32) := by
      refine ⟨?_, fun i hi => ?_⟩
      · simp only [BitVec.getLsbD_ofNat, Nat.testBit_shiftRight,
          show 32 + (L - 32) = L by omega, hL]
        simp
        omega
      · simp [BitVec.getLsbD_ofNat, hmin (32 + i) (by omega)]
    simp only [hzero, ne_eq, not_true_eq_false, ↓reduceIte, ffs_eq hhigh]
    omega

/-! ## Alignment -/

private theorem two_pow_and_pred (k : ℕ) : 2 ^ k &&& (2 ^ k - 1) = 0 := by
  rw [Nat.and_two_pow_sub_one_eq_mod, Nat.mod_self]

private theorem sub64_two_pow {k : ℕ} (hk : k < 64) : sub64 (2 ^ k) 1 = 2 ^ k - 1 :=
  sub64_of_le Nat.one_le_two_pow (Nat.pow_lt_pow_right (by norm_num) hk)

/-- The value of `align_up` at a power of two. -/
theorem alignUp_two_pow (x : ℕ) {k : ℕ} (hk : k < 64) :
    alignUp x (2 ^ k) = .ok (2 ^ k * (wrap64 (x + (2 ^ k - 1)) / 2 ^ k)) := by
  rw [alignUp, sub64_two_pow hk, kassert_pos (two_pow_and_pred k), Fallible.ok_bind,
    and_not64 (wrap64_lt _) hk.le]
  rfl

theorem alignPtr_two_pow {ptr k : ℕ} (hp : ptr ≠ 0) (hk : k < 64) :
    alignPtr ptr (2 ^ k) = .ok (2 ^ k * (wrap64 (ptr + (2 ^ k - 1)) / 2 ^ k)) := by
  rw [alignPtr, kassert_pos ⟨hp, (Nat.two_pow_pos k).ne'⟩, sub64_two_pow hk,
    kassert_pos (two_pow_and_pred k), and_not64 (wrap64_lt _) hk.le]
  rfl

theorem alignPtr_eq_ok {ptr k r : ℕ} (hk : k < 64) (h : alignPtr ptr (2 ^ k) = .ok r) :
    ptr ≠ 0 ∧ r = 2 ^ k * (wrap64 (ptr + (2 ^ k - 1)) / 2 ^ k) := by
  have hp : ptr ≠ 0 := by
    obtain ⟨_, hc, -⟩ := Fallible.bind_eq_ok.mp h
    exact (kassert_eq_ok.mp hc).1
  rw [alignPtr_two_pow hp hk] at h
  exact ⟨hp, (Except.ok.inj h).symm⟩

theorem alignDown_two_pow {x k : ℕ} (hx : x < 2 ^ 64) (hk : k < 64) :
    alignDown x (2 ^ k) = .ok (x - x % 2 ^ k) := by
  rw [alignDown, sub64_two_pow hk, kassert_pos (two_pow_and_pred k), Fallible.ok_bind,
    Nat.and_two_pow_sub_one_eq_mod, sub64_of_le (Nat.mod_le _ _) hx]
  rfl

end Ginkgo.Mm
