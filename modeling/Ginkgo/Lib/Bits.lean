import Mathlib.Data.Nat.Bitwise
import Mathlib.Data.Nat.Find
import Mathlib.Data.Nat.Log
import Mathlib.Tactic.NormNum
import Mathlib.Tactic.Ring

/-!
# Masks, bit scans and buddy indices

Bit-level arithmetic of C code, over the natural numbers (a word is a number below `2 ^ w`) and
over `BitVec`: a low or high mask tests a range of bits, clearing the low bits of a word rounds
it down, and flipping bit `k` of a multiple of `2 ^ k` steps to the neighbouring multiple.

## Main results

* `Bits.and_highMask` — `x & ~(2 ^ k - 1)` rounds `x` down to a multiple of `2 ^ k`.
* `Bits.IsLowest.sshiftRight`, `Bits.IsHighest.shiftLeft` — one step of a binary-search scan.
* `Bits.mul_two_pow_xor`, `Bits.mul_two_pow_and`, `Bits.mul_two_pow_or` — the buddy of a
  multiple of `2 ^ k`, and the lower and the upper one of the two.
-/

namespace Bits

/-! ## Rounding with masks -/

/-- Clearing the low `k` bits of a `w`-bit word rounds it down to a multiple of `2 ^ k`. -/
theorem and_highMask {x w k : ℕ} (hx : x < 2 ^ w) (hk : k ≤ w) :
    x &&& (2 ^ w - 2 ^ k) = 2 ^ k * (x / 2 ^ k) := by
  have hmask : 2 ^ w - 2 ^ k = (2 ^ (w - k) - 1) <<< k := by
    rw [Nat.shiftLeft_eq, Nat.sub_mul, one_mul, ← pow_add, Nat.sub_add_cancel hk]
  have hdiv : x / 2 ^ k < 2 ^ (w - k) := by
    rw [Nat.div_lt_iff_lt_mul (Nat.two_pow_pos k), ← pow_add, Nat.sub_add_cancel hk]
    exact hx
  calc x &&& (2 ^ w - 2 ^ k) = ((x >>> k) &&& (2 ^ (w - k) - 1)) <<< k := by
        rw [hmask]
        refine Nat.eq_of_testBit_eq fun i => ?_
        by_cases hi : k ≤ i <;> simp [hi, Bool.and_comm]
    _ = (x / 2 ^ k) <<< k := by
        rw [Nat.and_two_pow_sub_one_eq_mod, Nat.shiftRight_eq_div_pow, Nat.mod_eq_of_lt hdiv]
    _ = 2 ^ k * (x / 2 ^ k) := by rw [Nat.shiftLeft_eq, mul_comm]

/-! ## Scanning for the lowest set bit -/

/-- Bit `L` is the lowest set bit of `x`. -/
def IsLowest {w : ℕ} (x : BitVec w) (L : ℕ) : Prop :=
  x.getLsbD L = true ∧ ∀ i < L, x.getLsbD i = false

theorem IsLowest.lt {w : ℕ} {x : BitVec w} {L : ℕ} (h : IsLowest x L) : L < w := by
  by_contra hw
  have := BitVec.getLsbD_of_ge x L (by omega)
  rw [h.1] at this
  exact absurd this (by decide)

theorem getLsbD_lowMask {w m i : ℕ} :
    (BitVec.ofNat w (2 ^ m - 1)).getLsbD i = (decide (i < w) && decide (i < m)) := by
  rw [BitVec.getLsbD_ofNat, Nat.testBit_two_pow_sub_one]

theorem IsLowest.and_lowMask {w m L : ℕ} {x : BitVec w} (h : IsLowest x L) :
    x &&& BitVec.ofNat w (2 ^ m - 1) = 0 ↔ m ≤ L := by
  constructor
  · intro hz
    by_contra hlt
    have hbit : (x &&& BitVec.ofNat w (2 ^ m - 1)).getLsbD L = false := by simp [hz]
    rw [BitVec.getLsbD_and, h.1, getLsbD_lowMask] at hbit
    simp [h.lt] at hbit
    omega
  · intro hle
    refine BitVec.eq_of_getLsbD_eq fun i hi => ?_
    by_cases him : i < m
    · simp [h.2 i (by omega)]
    · simp [getLsbD_lowMask, him]

/-- An arithmetic right shift by at most `L` moves the lowest set bit down. -/
theorem IsLowest.sshiftRight {w m L : ℕ} {x : BitVec w} (h : IsLowest x L) (hm : m ≤ L) :
    IsLowest (x.sshiftRight m) (L - m) := by
  have hL := h.lt
  constructor
  · rw [BitVec.getLsbD_sshiftRight]
    simp [show ¬ w ≤ L - m by omega, show m + (L - m) = L by omega, hL, h.1]
  · intro i hi
    rw [BitVec.getLsbD_sshiftRight, h.2 (m + i) (by omega)]
    simp [show ¬ w ≤ i by omega, show m + i < w by omega]

/-! ## Scanning for the highest set bit -/

/-- Bit `H` is the highest set bit of `n`. -/
def IsHighest (n H : ℕ) : Prop := 2 ^ H ≤ n ∧ n < 2 ^ (H + 1)

theorem isHighest_log {n : ℕ} (h : n ≠ 0) : IsHighest n (Nat.log 2 n) :=
  ⟨Nat.pow_log_le_self 2 h, Nat.lt_pow_succ_log_self (by norm_num) n⟩

theorem IsHighest.lt_two_pow {n H j : ℕ} (h : IsHighest n H) : n < 2 ^ j ↔ H < j := by
  constructor
  · intro hn
    by_contra hj
    have := Nat.pow_le_pow_right (n := 2) (by norm_num) (Nat.le_of_not_lt hj)
    exact absurd (h.1.trans_lt hn) (by omega)
  · intro hj
    exact h.2.trans_le (Nat.pow_le_pow_right (by norm_num) hj)

theorem and_highMask_eq_zero {w j : ℕ} {x : BitVec w} (hj : j ≤ w) :
    x &&& BitVec.ofNat w (2 ^ w - 2 ^ j) = 0 ↔ x.toNat < 2 ^ j := by
  have hpow : 2 ^ w - 2 ^ j < 2 ^ w := Nat.sub_lt (Nat.two_pow_pos w) (Nat.two_pow_pos j)
  rw [← BitVec.toNat_inj, BitVec.toNat_and, BitVec.toNat_ofNat, Nat.mod_eq_of_lt hpow,
    and_highMask x.isLt hj]
  simp

/-- A left shift that drops no set bit moves the highest set bit up. -/
theorem IsHighest.shiftLeft {w m H : ℕ} {x : BitVec w} (h : IsHighest x.toNat H)
    (hm : H + m < w) : IsHighest (x <<< m).toNat (H + m) := by
  have hlt : x.toNat * 2 ^ m < 2 ^ (H + 1 + m) := by
    rw [pow_add]
    exact Nat.mul_lt_mul_of_pos_right h.2 (Nat.two_pow_pos m)
  have hw : 2 ^ (H + 1 + m) ≤ 2 ^ w := Nat.pow_le_pow_right (by norm_num) (by omega)
  have hval : (x <<< m).toNat = x.toNat * 2 ^ m := by
    rw [BitVec.toNat_shiftLeft, Nat.shiftLeft_eq, Nat.mod_eq_of_lt (hlt.trans_le hw)]
  rw [hval]
  refine ⟨?_, by rwa [show H + m + 1 = H + 1 + m by omega]⟩
  rw [pow_add]
  exact Nat.mul_le_mul_right _ h.1

/-! ## Buddies

A multiple of `2 ^ k` is written `q * 2 ^ k`; flipping its bit `k` flips the last bit of `q`. -/

/-- The buddy of the multiple `q` of `2 ^ k`. -/
theorem mul_two_pow_xor (q k : ℕ) : (q * 2 ^ k) ^^^ 2 ^ k = (q ^^^ 1) * 2 ^ k := by
  rw [← Nat.shiftLeft_eq, ← Nat.shiftLeft_eq, Nat.shiftLeft_xor_distrib, Nat.one_shiftLeft]

/-- The lower one of a multiple of `2 ^ k` and its buddy. -/
theorem mul_two_pow_and (q k : ℕ) :
    ((q ^^^ 1) * 2 ^ k) &&& (q * 2 ^ k) = q / 2 * 2 ^ (k + 1) := by
  have h : (q ^^^ 1) &&& q = q / 2 * 2 := by
    refine Nat.eq_of_testBit_eq fun i => ?_
    cases i with
    | zero => simp; omega
    | succ i =>
      rw [Nat.testBit_succ, Nat.testBit_succ, Nat.and_div_two, Nat.xor_div_two]
      simp [show q / 2 * 2 / 2 = q / 2 by omega]
  rw [← Nat.shiftLeft_eq, ← Nat.shiftLeft_eq, ← Nat.shiftLeft_and_distrib, h, Nat.shiftLeft_eq,
    pow_succ]
  ring

/-- The upper one of a multiple of `2 ^ k` and its buddy. -/
theorem mul_two_pow_or (q k : ℕ) :
    ((q ^^^ 1) * 2 ^ k) ||| (q * 2 ^ k) = (q / 2 * 2 + 1) * 2 ^ k := by
  have h : (q ^^^ 1) ||| q = q / 2 * 2 + 1 := by
    refine Nat.eq_of_testBit_eq fun i => ?_
    cases i with
    | zero => simp; omega
    | succ i =>
      rw [Nat.testBit_succ, Nat.testBit_succ, Nat.or_div_two, Nat.xor_div_two]
      simp [show (q / 2 * 2 + 1) / 2 = q / 2 by omega]
  rw [← Nat.shiftLeft_eq, ← Nat.shiftLeft_eq, ← Nat.shiftLeft_or_distrib, h, Nat.shiftLeft_eq]

theorem xor_one_eq (q : ℕ) : q ^^^ 1 = if q % 2 = 0 then q + 1 else q - 1 := by
  have h2 : (q ^^^ 1) / 2 = q / 2 := by simp [Nat.xor_div_two]
  have h1 : (q ^^^ 1) % 2 = 1 ↔ ¬ q % 2 = 1 := by
    rw [Nat.xor_mod_two_eq_one]
    simp
  split_ifs with h <;> omega

theorem log_add_two_pow_log {c : ℕ} (h : c ≠ 0) :
    Nat.log 2 (c + (2 ^ Nat.log 2 c - 1)) = Nat.clog 2 c := by
  have hlo : 2 ^ Nat.log 2 c ≤ c := Nat.pow_log_le_self 2 h
  have hhi : c < 2 ^ (Nat.log 2 c + 1) := Nat.lt_pow_succ_log_self (by norm_num) c
  have hpos := Nat.two_pow_pos (Nat.log 2 c)
  rcases hlo.eq_or_lt with heq | hlt
  · have hclog : Nat.clog 2 c = Nat.log 2 c := by
      conv_lhs => rw [← heq]
      exact Nat.clog_pow 2 _ (by norm_num)
    rw [hclog]
    refine Nat.log_eq_of_pow_le_of_lt_pow (by omega) ?_
    rw [pow_succ] at hhi ⊢
    omega
  · have hclog : Nat.clog 2 c = Nat.log 2 c + 1 := by
      refine le_antisymm (Nat.clog_le_of_le_pow hhi.le) ?_
      exact (Nat.lt_clog_iff_pow_lt (by norm_num)).mpr hlt
    rw [hclog]
    rw [pow_succ] at hhi
    refine Nat.log_eq_of_pow_le_of_lt_pow ?_ ?_
    · rw [pow_succ]
      omega
    · rw [pow_succ, pow_succ]
      omega

end Bits
