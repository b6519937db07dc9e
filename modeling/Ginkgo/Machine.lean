import Ginkgo.Lib.Bits
import Ginkgo.Lib.Fallible

/-!
# Faults and machine words

Kernel functions are modelled as computations in `Except Fault`.  A failed `assert` and a `PANIC`
print a message and loop forever, so no state follows them; an access through a dangling or
out-of-range pointer is undefined.  Addresses and the `size_t` and `u64_t` values are natural
numbers below `2 ^ 64`, and every operation that can leave this range reduces modulo `2 ^ 64`.

-/

namespace Ginkgo

/-- The ways in which kernel code stops without a next state. -/
inductive Fault
  /-- A failed `assert` or a `PANIC`: the kernel loops forever. -/
  | panic
  /-- An access outside the object a pointer or an index refers to. -/
  | badAccess
  /-- A write behind the end of a buffer on the stack, where it is told apart from other accesses. -/
  | overrun
deriving DecidableEq, Repr

/-- The `assert` macro. -/
def kassert (c : Prop) [Decidable c] : Except Fault Unit := Fallible.assert .panic c

/-- An access that is defined only if `c` holds. -/
def access (c : Prop) [Decidable c] : Except Fault Unit := Fallible.assert .badAccess c

variable {c : Prop}

theorem kassert_eq_ok [Decidable c] {u : Unit} : kassert c = .ok u ↔ c :=
  Fallible.assert_eq_ok

@[simp] theorem kassert_pos [Decidable c] (h : c) : kassert c = .ok () :=
  Fallible.assert_pos h

theorem kassert_neg [Decidable c] (h : ¬ c) : kassert c = .error .panic :=
  Fallible.assert_neg h

theorem access_eq_ok [Decidable c] {u : Unit} : access c = .ok u ↔ c :=
  Fallible.assert_eq_ok

@[simp] theorem access_pos [Decidable c] (h : c) : access c = .ok () :=
  Fallible.assert_pos h

theorem access_neg [Decidable c] (h : ¬ c) : access c = .error .badAccess :=
  Fallible.assert_neg h

/-- Reduction of a `u64_t` result. -/
def wrap64 (x : ℕ) : ℕ := x % 2 ^ 64

/-- `u64_t` subtraction. -/
def sub64 (x y : ℕ) : ℕ := wrap64 (x + 2 ^ 64 - y)

/-- `u64_t` complement. -/
def not64 (x : ℕ) : ℕ := 2 ^ 64 - 1 - x

/-- Conversion of a number to an `int`. -/
def toInt32 (x : ℤ) : ℤ := (x + 2 ^ 31) % 2 ^ 32 - 2 ^ 31

theorem toInt32_of_lt {x : ℤ} (hlo : -2 ^ 31 ≤ x) (hhi : x < 2 ^ 31) : toInt32 x = x := by
  unfold toInt32
  omega

theorem wrap64_of_lt {x : ℕ} (h : x < 2 ^ 64) : wrap64 x = x := Nat.mod_eq_of_lt h

theorem wrap64_lt (x : ℕ) : wrap64 x < 2 ^ 64 := Nat.mod_lt _ (Nat.two_pow_pos 64)

theorem sub64_lt (x y : ℕ) : sub64 x y < 2 ^ 64 := wrap64_lt _

theorem sub64_of_le {x y : ℕ} (h : y ≤ x) (hx : x < 2 ^ 64) : sub64 x y = x - y := by
  unfold sub64 wrap64
  omega

theorem and_not64 {x k : ℕ} (hx : x < 2 ^ 64) (hk : k ≤ 64) :
    x &&& not64 (2 ^ k - 1) = 2 ^ k * (x / 2 ^ k) := by
  have hpos := Nat.two_pow_pos k
  have hle : 2 ^ k ≤ 2 ^ 64 := Nat.pow_le_pow_right (by norm_num) hk
  rw [← Bits.and_highMask hx hk, not64]
  congr 1
  omega

-- Unfolding these during unification compares numbers of the size of `2 ^ 64`.
attribute [irreducible] wrap64 sub64 not64

end Ginkgo
