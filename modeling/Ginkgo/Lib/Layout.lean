import Mathlib.Algebra.BigOperators.Fin
import Mathlib.Data.List.OfFn
import Mathlib.Data.UInt
import Mathlib.Tactic.Ring

/-!
# Records in memory

A memory of bytes, records whose fields stand at fixed offsets of it, and buffers of which a
function may store only a part.

## Main results

* `Layout.Slot.get_put`, `Layout.Slot.get_put_of_disjoint` — a store changes one field.
* `Layout.Patch.apply_eq_apply_iff` — when a patch hides the difference of two buffers.
-/

namespace Layout

/-- A buffer of `n` bytes. -/
abbrev Bytes (n : ℕ) := Fin n → UInt8

/-- A memory. -/
abbrev Memory := ℕ → UInt8

/-! ## Loads and stores -/

section Store

variable {n k : ℕ}

/-- The `n` bytes from `a` on. -/
def load (m : Memory) (a n : ℕ) : Bytes n := fun i => m (a + i)

/-- Store `b` from `a` on. -/
def store (m : Memory) (a : ℕ) (b : Bytes n) : Memory :=
  fun x => if h : a ≤ x ∧ x < a + n then b ⟨x - a, by omega⟩ else m x

@[simp] theorem load_store (m : Memory) (a : ℕ) (b : Bytes n) : load (store m a b) a n = b := by
  funext i
  have hi : a ≤ a + i.val ∧ a + i.val < a + n := by omega
  simp [load, store, hi]

theorem load_store_of_disjoint (m : Memory) {a c : ℕ} (b : Bytes n)
    (h : a + n ≤ c ∨ c + k ≤ a) : load (store m a b) c k = load m c k := by
  funext i
  have hi : ¬ (a ≤ c + i.val ∧ c + i.val < a + n) := by omega
  simp [load, store, hi]

theorem load_store_zero (m : Memory) {a c : ℕ} (h : a ≤ c) (h' : c + k ≤ a + n) :
    load (store m a (0 : Bytes n)) c k = 0 := by
  funext i
  have hi : a ≤ c + i.val ∧ c + i.val < a + n := by omega
  simp [load, store, hi]

end Store

/-! ## Patches -/

section Patch

variable {n : ℕ}

/-- What a function stores in a buffer of `n` bytes: `none` where it stores nothing. -/
abbrev Patch (n : ℕ) := Fin n → Option UInt8

/-- The buffer afterwards. -/
def Patch.apply (p : Patch n) (b : Bytes n) : Bytes n := fun i => (p i).getD (b i)

/-- A patch hides the difference of two buffers exactly if they agree wherever nothing is
stored. -/
theorem Patch.apply_eq_apply_iff {p : Patch n} {b c : Bytes n} :
    p.apply b = p.apply c ↔ ∀ i, p i = none → b i = c i := by
  constructor
  · intro h i hi
    have hb := congrFun h i
    simpa [Patch.apply, hi] using hb
  · intro h
    funext i
    cases hi : p i with
    | none => simp [Patch.apply, hi, h i hi]
    | some x => simp [Patch.apply, hi]

end Patch

/-! ## Numbers -/

section Number

/-- The `n` low bytes of a number, the lowest first. -/
def encode (n x : ℕ) : Bytes n := fun i => UInt8.ofNat (x / 256 ^ i.val)

/-- The number of which these are the bytes. -/
def decode {n : ℕ} (b : Bytes n) : ℕ := ∑ i, (b i).toNat * 256 ^ i.val

theorem decode_encode (n x : ℕ) : decode (encode n x) = x % 256 ^ n := by
  induction n generalizing x with
  | zero => simp [decode, Nat.mod_one]
  | succ n ih =>
    have htail : ∑ i : Fin n, (encode (n + 1) x i.succ).toNat * 256 ^ (i.succ : Fin (n + 1)).val =
        256 * decode (encode n (x / 256)) := by
      rw [decode, Finset.mul_sum]
      apply Finset.sum_congr rfl
      intro i _
      simp only [encode, Fin.val_succ, pow_succ', Nat.div_div_eq_div_mul]
      ring
    have hmod := Nat.mod_mul (x := x) (a := 256) (b := 256 ^ n)
    rw [decode, Fin.sum_univ_succ, htail, ih, pow_succ', hmod]
    simp [encode]

end Number

/-! ## Strings -/

section Strings

variable {n : ℕ}

/-- A string that fits an array of `n` characters together with its terminator. -/
structure CStr (n : ℕ) where
  /-- The characters. -/
  chars : List UInt8
  /-- The terminator is not among the characters. -/
  nonzero : 0 ∉ chars
  /-- There is room for the terminator. -/
  short : chars.length < n

/-- An array with the characters of a string, filled up with zeros. -/
def pad (n : ℕ) (s : List UInt8) : Bytes n := fun i => s.getD i.val 0

/-- The characters of an array before its terminator. -/
def unpad (b : Bytes n) : List UInt8 := (List.ofFn b).takeWhile (· != 0)

theorem ofFn_pad {s : List UInt8} (h : s.length ≤ n) :
    List.ofFn (pad n s) = s ++ List.replicate (n - s.length) 0 := by
  apply List.ext_getElem
  · simp
    omega
  · intro i hi hi'
    simp only [List.getElem_ofFn, pad, List.getElem_append, List.getElem_replicate]
    split_ifs with hlt
    · simp [List.getD_eq_getElem?_getD, hlt]
    · simp [List.getD_eq_getElem?_getD, hlt]

theorem unpad_pad (s : CStr n) : unpad (pad n s.chars) = s.chars := by
  have hpos : ∀ c ∈ s.chars, (c != 0) = true := by
    intro c hc
    simp only [bne_iff_ne, ne_eq]
    intro h0
    exact s.nonzero (h0 ▸ hc)
  have hshort := s.short
  obtain ⟨d, hd⟩ : ∃ d, n - s.chars.length = d + 1 := ⟨n - s.chars.length - 1, by omega⟩
  rw [unpad, ofFn_pad hshort.le, List.takeWhile_append_of_pos hpos, hd, List.replicate_succ]
  simp

end Strings

/-! ## Fields of records -/

section Slots

/-- A field of a record. -/
structure Slot (α : Type) where
  /-- The offset in the record. -/
  offset : ℕ
  /-- The number of bytes. -/
  size : ℕ
  /-- The bytes of a value. -/
  enc : α → Bytes size
  /-- The value of the bytes. -/
  dec : Bytes size → α

namespace Slot

variable {α β : Type}

/-- The field of the record at `base`. -/
def get (f : Slot α) (base : ℕ) (m : Memory) : α := f.dec (load m (base + f.offset) f.size)

/-- Store the field of the record at `base`. -/
def put (f : Slot α) (base : ℕ) (a : α) (m : Memory) : Memory :=
  store m (base + f.offset) (f.enc a)

/-- The end of the field. -/
def stop (f : Slot α) : ℕ := f.offset + f.size

theorem get_put (f : Slot α) (base : ℕ) (a : α) (m : Memory) :
    f.get base (f.put base a m) = f.dec (f.enc a) := by
  simp [get, put]

theorem get_put_of_disjoint (f : Slot α) (g : Slot β) (base base' : ℕ) (b : β) (m : Memory)
    (h : base' + g.stop ≤ base + f.offset ∨ base + f.stop ≤ base' + g.offset) :
    f.get base (g.put base' b m) = f.get base m := by
  rw [get, put, load_store_of_disjoint, get]
  rw [stop, stop] at h
  omega

/-- A `u32` field. -/
def u32 (offset : ℕ) : Slot UInt32 where
  offset := offset
  size := 4
  enc x := encode 4 x.toNat
  dec b := UInt32.ofNat (decode b)

/-- A `u64` field. -/
def u64 (offset : ℕ) : Slot UInt64 where
  offset := offset
  size := 8
  enc x := encode 8 x.toNat
  dec b := UInt64.ofNat (decode b)

/-- A signed field of four bytes. -/
def s32 (offset : ℕ) : Slot Int32 where
  offset := offset
  size := 4
  enc x := encode 4 x.toUInt32.toNat
  dec b := (UInt32.ofNat (decode b)).toInt32

/-- A signed field of eight bytes. -/
def s64 (offset : ℕ) : Slot Int64 where
  offset := offset
  size := 8
  enc x := encode 8 x.toUInt64.toNat
  dec b := (UInt64.ofNat (decode b)).toInt64

/-- An array of characters. -/
def str (offset n : ℕ) : Slot (List UInt8) where
  offset := offset
  size := n
  enc := pad n
  dec := unpad

/-- An array of bytes. -/
def raw (offset n : ℕ) : Slot (Bytes n) where
  offset := offset
  size := n
  enc := id
  dec := id

@[simp] theorem u32_dec_enc (offset : ℕ) (x : UInt32) :
    (u32 offset).dec ((u32 offset).enc x) = x := by
  have hx := x.toNat_lt
  simp only [u32, decode_encode]
  rw [Nat.mod_eq_of_lt (by omega), UInt32.ofNat_toNat]

@[simp] theorem u64_dec_enc (offset : ℕ) (x : UInt64) :
    (u64 offset).dec ((u64 offset).enc x) = x := by
  have hx := x.toNat_lt
  simp only [u64, decode_encode]
  rw [Nat.mod_eq_of_lt (by omega), UInt64.ofNat_toNat]

@[simp] theorem s32_dec_enc (offset : ℕ) (x : Int32) :
    (s32 offset).dec ((s32 offset).enc x) = x := by
  have h := u32_dec_enc offset x.toUInt32
  simp only [u32] at h
  simp only [s32, h]
  rfl

@[simp] theorem s64_dec_enc (offset : ℕ) (x : Int64) :
    (s64 offset).dec ((s64 offset).enc x) = x := by
  have h := u64_dec_enc offset x.toUInt64
  simp only [u64] at h
  simp only [s64, h]
  rfl

@[simp] theorem str_dec_enc (offset : ℕ) {n : ℕ} (s : CStr n) :
    (str offset n).dec ((str offset n).enc s.chars) = s.chars :=
  unpad_pad s

@[simp] theorem raw_dec_enc (offset n : ℕ) (b : Bytes n) :
    (raw offset n).dec ((raw offset n).enc b) = b := rfl

end Slot

end Slots

end Layout
