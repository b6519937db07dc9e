import Mathlib.Data.Nat.Notation

/-!
# The Jenkins hash

The model of `jhash2` of `include/jhash.h`.

-/

namespace Ginkgo

/-- `rol32`. -/
def rol32 (word shift : UInt32) : UInt32 :=
  (word <<< (shift &&& 31)) ||| (word >>> ((-shift) &&& 31))

/-- `__jhash_mix`. -/
def jhashMix (a b c : UInt32) : UInt32 × UInt32 × UInt32 :=
  let a := (a - c) ^^^ rol32 c 4
  let c := c + b
  let b := (b - a) ^^^ rol32 a 6
  let a := a + c
  let c := (c - b) ^^^ rol32 b 8
  let b := b + a
  let a := (a - c) ^^^ rol32 c 16
  let c := c + b
  let b := (b - a) ^^^ rol32 a 19
  let a := a + c
  let c := (c - b) ^^^ rol32 b 4
  let b := b + a
  (a, b, c)

/-- `__jhash_final`, of which only `c` is used. -/
def jhashFinal (a b c : UInt32) : UInt32 :=
  let c := (c ^^^ b) - rol32 b 14
  let a := (a ^^^ c) - rol32 c 11
  let b := (b ^^^ a) - rol32 a 25
  let c := (c ^^^ b) - rol32 b 16
  let a := (a ^^^ c) - rol32 c 4
  let b := (b ^^^ a) - rol32 a 14
  (c ^^^ b) - rol32 b 24

/-- The loop of `jhash2` and the switch behind it. -/
def jhash2Loop (a b c : UInt32) : List UInt32 → UInt32
  | [] => c
  | [k0] => jhashFinal (a + k0) b c
  | [k0, k1] => jhashFinal (a + k0) (b + k1) c
  | [k0, k1, k2] => jhashFinal (a + k0) (b + k1) (c + k2)
  | k0 :: k1 :: k2 :: k3 :: ks =>
    let (a, b, c) := jhashMix (a + k0) (b + k1) (c + k2)
    jhash2Loop a b c (k3 :: ks)

/-- `jhash2`. -/
def jhash2 (k : List UInt32) (initval : UInt32) : UInt32 :=
  let init := (0xdeadbeef : UInt32) + (UInt32.ofNat k.length) <<< (2 : UInt32) + initval
  jhash2Loop init init init k

end Ginkgo
