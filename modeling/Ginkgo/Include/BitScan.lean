import Ginkgo.Lib.Bits

/-!
# `ffs` and `fls`

The bit scans of `include/ffs.h` and `include/fls.h`.  Both do a binary search with five tests:
each test looks at half of the bits that are left, and shifts the word if that half is empty.
`ffs` takes a signed `int`, so its right shift is arithmetic.

## Main results

* `ffs_eq` — `ffs` returns one plus the lowest set bit.
* `fls_eq` — `fls` returns one plus the binary logarithm.
-/

namespace Ginkgo

open Bits

/-- One test of `ffs`: if the low bits in `mask` are clear, shift them out and count them. -/
def ffsStep (mask : BitVec 32) (m : ℕ) (s : BitVec 32 × ℕ) : BitVec 32 × ℕ :=
  if s.1 &&& mask = 0 then (s.1.sshiftRight m, s.2 + m) else s

/-- `ffs`: find first bit set. -/
def ffs (x : BitVec 32) : ℕ :=
  if x = 0 then 0
  else
    (ffsStep 1 1 (ffsStep 3 2 (ffsStep 0xf 4 (ffsStep 0xff 8 (ffsStep 0xffff 16 (x, 1)))))).2

/-- One test of `fls`: if the high bits in `mask` are clear, shift them out and discount them. -/
def flsStep (mask : BitVec 32) (m : ℕ) (s : BitVec 32 × ℕ) : BitVec 32 × ℕ :=
  if s.1 &&& mask = 0 then (s.1 <<< m, s.2 - m) else s

/-- `fls`: find last (most-significant) bit set. -/
def fls (x : BitVec 32) : ℕ :=
  if x = 0 then 0
  else
    (flsStep 0x80000000 1 (flsStep 0xc0000000 2 (flsStep 0xf0000000 4 (flsStep 0xff000000 8
      (flsStep 0xffff0000 16 (x, 32)))))).2

/-- The state of an `ffs` scan that still has to find `L₀`: the lowest set bit of the shifted
word is below `j`, and it is `L₀` less what the count says was shifted out. -/
private def FfsInv (L₀ j : ℕ) (s : BitVec 32 × ℕ) : Prop :=
  ∃ L, IsLowest s.1 L ∧ L < j ∧ L + s.2 = L₀ + 1

private theorem ffsStep_inv {L₀ m : ℕ} {s : BitVec 32 × ℕ} (h : FfsInv L₀ (2 * m) s) :
    FfsInv L₀ m (ffsStep (BitVec.ofNat 32 (2 ^ m - 1)) m s) := by
  obtain ⟨L, hL, hlt, hsum⟩ := h
  unfold ffsStep
  split_ifs with hz
  · have hle := hL.and_lowMask.mp hz
    exact ⟨L - m, hL.sshiftRight hle, by omega, by simp only; omega⟩
  · have hle := mt hL.and_lowMask.mpr hz
    exact ⟨L, hL, by omega, hsum⟩

/-- **`ffs` finds the lowest set bit**: on a word whose lowest set bit is `L` it returns
`L + 1`. -/
theorem ffs_eq {x : BitVec 32} {L : ℕ} (h : IsLowest x L) : ffs x = L + 1 := by
  have hne : x ≠ 0 := by
    rintro rfl
    simpa using h.1
  have h32 : FfsInv L 32 (x, 1) := ⟨L, h, h.lt, rfl⟩
  obtain ⟨L', _, hlt, hsum⟩ := ffsStep_inv (m := 1) (ffsStep_inv (m := 2) (ffsStep_inv (m := 4)
    (ffsStep_inv (m := 8) (ffsStep_inv (m := 16) h32))))
  obtain rfl : L' = 0 := by omega
  rw [ffs, if_neg hne]
  simpa using hsum

/-- The state of an `fls` scan that still has to find `H₀`: the highest set bit of the shifted
word is among the `j` top bits, and it is `H₀` plus what the count says was shifted out. -/
private def FlsInv (H₀ j : ℕ) (s : BitVec 32 × ℕ) : Prop :=
  ∃ H, IsHighest s.1.toNat H ∧ 32 - j ≤ H ∧ H < 32 ∧ H + s.2 = H₀ + 32

private theorem flsStep_inv {H₀ m : ℕ} {s : BitVec 32 × ℕ} (hm : 2 * m ≤ 32)
    (h : FlsInv H₀ (2 * m) s) :
    FlsInv H₀ m (flsStep (BitVec.ofNat 32 (2 ^ 32 - 2 ^ (32 - m))) m s) := by
  obtain ⟨H, hH, hle, hlt, hsum⟩ := h
  unfold flsStep
  split_ifs with hz
  · have hj := hH.lt_two_pow.mp ((and_highMask_eq_zero (by omega)).mp hz)
    exact ⟨H + m, hH.shiftLeft (by omega), by omega, by omega, by simp only; omega⟩
  · have hj := mt hH.lt_two_pow.mpr (mt (and_highMask_eq_zero (by omega)).mpr hz)
    exact ⟨H, hH, by omega, hlt, hsum⟩

/-- **`fls` finds the highest set bit**: on a non-zero word it returns one plus the binary
logarithm. -/
theorem fls_eq {x : BitVec 32} (h : x ≠ 0) : fls x = Nat.log 2 x.toNat + 1 := by
  have hx : x.toNat ≠ 0 := by simpa [← BitVec.toNat_inj] using h
  have hlog := isHighest_log hx
  have h32 : FlsInv (Nat.log 2 x.toNat) 32 (x, 32) :=
    ⟨_, hlog, by omega, hlog.lt_two_pow.mp x.isLt, rfl⟩
  obtain ⟨H, _, hle, hlt, hsum⟩ := flsStep_inv (m := 1) (by omega) (flsStep_inv (m := 2) (by omega)
    (flsStep_inv (m := 4) (by omega) (flsStep_inv (m := 8) (by omega)
      (flsStep_inv (m := 16) (by omega) h32))))
  obtain rfl : H = 31 := by omega
  have hfls : 31 + fls x = Nat.log 2 x.toNat + 32 := by
    rw [fls, if_neg h]
    exact hsum
  omega

end Ginkgo
