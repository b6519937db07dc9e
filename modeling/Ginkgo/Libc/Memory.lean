import Ginkgo.Machine
import Mathlib.Data.List.Nodup
import Mathlib.Logic.Function.Basic

/-!
# `memset` and `memmove`

The functions of `lib/libc/string.c` that write memory.  Their length is a `uint32`, so a longer
`size_t` is cut off.  The index of `memset` is an `int`: past `2 ^ 31` bytes it is negative.

## Main results

* `memset_apply` — `memset` writes up to `2 ^ 31` bytes.
* `memset_far` — it never writes the byte behind these.
* `memcpy_reads`, `memcpy_copies`, `memcpy_frame` — what
  `memcpy` reads and writes.
-/

namespace Ginkgo.Libc

/-- The bytes of the memory, by address. -/
abbrev Memory := ℕ → UInt8

/-- The address of `p[i]` for an array of bytes and an index of type `int`. -/
def byteAddr (p : ℕ) (i : ℤ) : ℕ := ((p + i) % 2 ^ 64).toNat

/-- `memset`.  The index `i` is compared as an unsigned number and used as a signed one. -/
def memset (mem : Memory) (dst : ℕ) (c : UInt8) (n : ℕ) : Memory :=
  (List.range (n % 2 ^ 32)).foldl
    (fun (mem : Memory) (i : ℕ) => Function.update mem (byteAddr dst (toInt32 i)) c) mem

/-- `*d = *s`, with the addresses that have been read. -/
def copyByte (st : Memory × List ℕ) (d s : ℕ) : Memory × List ℕ :=
  (Function.update st.1 d (st.1 s), s :: st.2)

/-- `while (n-- > 0) *d++ = *s++;`. -/
def copyForward : ℕ → Memory × List ℕ → ℕ → ℕ → Memory × List ℕ
  | 0, st, _, _ => st
  | n + 1, st, d, s => copyForward n (copyByte st d s) (wrap64 (d + 1)) (wrap64 (s + 1))

/-- `s += n; d += n; while (n-- > 0) *--d = *--s;`: while `n` bytes are left, the pointers are at
`dst + n` and `src + n`. -/
def copyBackward (dst src : ℕ) : ℕ → Memory × List ℕ → Memory × List ℕ
  | 0, st => st
  | n + 1, st => copyBackward dst src n (copyByte st (wrap64 (dst + n)) (wrap64 (src + n)))

/-- `memmove`: the memory afterwards, and the addresses that have been read. -/
def memmove (mem : Memory) (dst src n : ℕ) : Memory × List ℕ :=
  let n := n % 2 ^ 32
  if src < dst ∧ dst < wrap64 (src + n) then
    copyBackward dst src n (mem, [])
  else copyForward n (mem, []) dst src

/-- `memcpy`. -/
def memcpy (mem : Memory) (dst src n : ℕ) : Memory × List ℕ := memmove mem dst src n

/-! ## `memset` -/

section Fill

variable {β : Type*} {v : β}

private theorem foldl_update_apply (f : ℕ → ℕ) (v : β) (idx : List ℕ) (mem : ℕ → β) (a : ℕ) :
    idx.foldl (fun mem i => Function.update mem (f i) v) mem a =
      if ∃ i ∈ idx, f i = a then v else mem a := by
  induction idx generalizing mem with
  | nil => simp
  | cons j idx ih =>
    rw [List.foldl_cons, ih]
    by_cases hlater : ∃ i ∈ idx, f i = a
    · obtain ⟨i, hi, hia⟩ := hlater
      rw [if_pos ⟨i, hi, hia⟩, if_pos ⟨i, List.mem_cons_of_mem j hi, hia⟩]
    · rw [if_neg hlater]
      by_cases hj : f j = a
      · rw [if_pos ⟨j, List.mem_cons_self, hj⟩, hj, Function.update_self]
      · rw [Function.update_of_ne (Ne.symm hj), if_neg]
        rintro ⟨i, hi, hia⟩
        rcases List.mem_cons.mp hi with rfl | hi
        · exact hj hia
        · exact hlater ⟨i, hi, hia⟩

end Fill

variable {mem : Memory} {dst src n a : ℕ} {c : UInt8}

theorem memset_eq : memset mem dst c n a =
    if ∃ i < n % 2 ^ 32, byteAddr dst (toInt32 i) = a then c else mem a := by
  rw [memset, foldl_update_apply fun i => byteAddr dst (toInt32 i)]
  simp only [List.mem_range]

/-- **`memset` fills up to `2 ^ 31` bytes.** -/
theorem memset_apply (hn : n ≤ 2 ^ 31) (hfit : dst + n ≤ 2 ^ 64) {i : ℕ} (hi : i < n) :
    memset mem dst c n (dst + i) = c := by
  rw [memset_eq, if_pos]
  refine ⟨i, by omega, ?_⟩
  rw [toInt32_of_lt (by omega) (by omega), byteAddr]
  omega

/-- **`memset` never reaches the byte `2 ^ 31`**: the index that follows `2 ^ 31 - 1` is
negative. -/
theorem memset_far (hdst : dst + 2 ^ 31 < 2 ^ 64) :
    memset mem dst c n (dst + 2 ^ 31) = mem (dst + 2 ^ 31) := by
  rw [memset_eq, if_neg]
  rintro ⟨i, -, hi⟩
  unfold byteAddr toInt32 at hi
  omega

/-! ## `memmove` -/

/-- The copies of the bytes with the indices `idx`, one after the other. -/
def copyAll (st : Memory × List ℕ) (dst src : ℕ) (idx : List ℕ) : Memory × List ℕ :=
  idx.foldl (fun st i => copyByte st (wrap64 (dst + i)) (wrap64 (src + i))) st

private theorem wrap64_wrap64_add (x y : ℕ) : wrap64 (wrap64 x + y) = wrap64 (x + y) := by
  unfold wrap64
  omega

theorem copyForward_eq (n : ℕ) (st : Memory × List ℕ) (d s : ℕ) :
    copyForward n st (wrap64 d) (wrap64 s) = copyAll st d s (List.range n) := by
  induction n generalizing st d s with
  | zero => rfl
  | succ n ih =>
    rw [copyForward, wrap64_wrap64_add, wrap64_wrap64_add, ih, copyAll, copyAll,
      List.range_succ_eq_map, List.foldl_cons, List.foldl_map]
    simp only [Nat.add_zero, Nat.succ_eq_add_one, Nat.add_assoc, Nat.add_comm 1]

theorem copyBackward_eq (n : ℕ) (st : Memory × List ℕ) :
    copyBackward dst src n st = copyAll st dst src (List.range n).reverse := by
  induction n generalizing st with
  | zero => rfl
  | succ n ih =>
    rw [copyBackward, ih, copyAll, copyAll, List.range_succ, List.reverse_append,
      List.reverse_singleton, List.singleton_append, List.foldl_cons]

theorem memmove_eq (mem : Memory) (n : ℕ) (hdst : dst < 2 ^ 64) (hsrc : src < 2 ^ 64) :
    memmove mem dst src n = copyAll (mem, []) dst src (List.range (n % 2 ^ 32)) ∨
      memmove mem dst src n = copyAll (mem, []) dst src (List.range (n % 2 ^ 32)).reverse := by
  unfold memmove
  dsimp only
  split_ifs with hover
  · exact Or.inr (copyBackward_eq _ _)
  · have h := copyForward_eq (n % 2 ^ 32) (mem, []) dst src
    rw [wrap64_of_lt hdst, wrap64_of_lt hsrc] at h
    exact Or.inl h

theorem copyAll_reads (st : Memory × List ℕ) (idx : List ℕ) :
    a ∈ (copyAll st dst src idx).2 ↔ a ∈ st.2 ∨ ∃ i ∈ idx, wrap64 (src + i) = a := by
  induction idx generalizing st with
  | nil => simp [copyAll]
  | cons j idx ih =>
    rw [copyAll, List.foldl_cons]
    refine (ih _).trans ?_
    simp only [copyByte, List.mem_cons, exists_eq_or_imp]
    tauto

theorem copyAll_frame (st : Memory × List ℕ) (idx : List ℕ)
    (ha : ∀ i ∈ idx, wrap64 (dst + i) ≠ a) : (copyAll st dst src idx).1 a = st.1 a := by
  induction idx generalizing st with
  | nil => rfl
  | cons j idx ih =>
    rw [copyAll, List.foldl_cons]
    refine (ih _ fun i hi => ha i (List.mem_cons_of_mem j hi)).trans ?_
    exact Function.update_of_ne (ha j List.mem_cons_self).symm _ _

theorem copyAll_copies (st : Memory × List ℕ) (dst src : ℕ) {idx : List ℕ} (hidx : idx.Nodup)
    (hinj : ∀ i ∈ idx, ∀ j ∈ idx, wrap64 (dst + i) = wrap64 (dst + j) → i = j)
    (hapart : ∀ i ∈ idx, ∀ j ∈ idx, wrap64 (dst + i) ≠ wrap64 (src + j)) {i : ℕ} (hi : i ∈ idx) :
    (copyAll st dst src idx).1 (wrap64 (dst + i)) = st.1 (wrap64 (src + i)) := by
  induction idx generalizing st with
  | nil => simp at hi
  | cons j idx ih =>
    obtain ⟨hj, hidx⟩ := List.nodup_cons.mp hidx
    rw [copyAll, List.foldl_cons]
    rcases List.mem_cons.mp hi with rfl | hi
    · -- the later copies do not touch this byte
      refine (copyAll_frame _ idx fun k hk heq => ?_).trans (Function.update_self _ _ _)
      exact hj (hinj k (List.mem_cons_of_mem i hk) i List.mem_cons_self heq ▸ hk)
    · refine (ih _ hidx (fun k hk l hl => hinj k (List.mem_cons_of_mem j hk) l
        (List.mem_cons_of_mem j hl)) (fun k hk l hl => hapart k (List.mem_cons_of_mem j hk) l
        (List.mem_cons_of_mem j hl)) hi).trans ?_
      exact Function.update_of_ne
        (hapart j List.mem_cons_self i (List.mem_cons_of_mem j hi)).symm _ _

/-- **What `memcpy` reads**: the bytes from `src` on, as many as the cut-off length says. -/
theorem memcpy_reads (hdst : dst < 2 ^ 64) (hsrc : src < 2 ^ 64) :
    a ∈ (memcpy mem dst src n).2 ↔ ∃ i < n % 2 ^ 32, wrap64 (src + i) = a := by
  rw [memcpy]
  rcases memmove_eq mem n hdst hsrc with h | h
  · rw [h, copyAll_reads]
    simp
  · rw [h, copyAll_reads]
    simp

/-- **What `memcpy` leaves alone**: everything outside the destination. -/
theorem memcpy_frame (hdst : dst < 2 ^ 64) (hsrc : src < 2 ^ 64)
    (ha : ∀ i < n % 2 ^ 32, wrap64 (dst + i) ≠ a) : (memcpy mem dst src n).1 a = mem a := by
  rw [memcpy]
  rcases memmove_eq mem n hdst hsrc with h | h
  · rw [h]
    exact copyAll_frame _ _ fun i hi => ha i (List.mem_range.mp hi)
  · rw [h]
    exact copyAll_frame _ _ fun i hi => ha i (List.mem_range.mp (List.mem_reverse.mp hi))

/-- **What `memcpy` writes** between memory that is apart. -/
theorem memcpy_copies (hn : n < 2 ^ 32) (hdst : dst + n ≤ 2 ^ 64) (hsrc : src + n ≤ 2 ^ 64)
    (hapart : dst + n ≤ src ∨ src + n ≤ dst) {i : ℕ} (hi : i < n) :
    (memcpy mem dst src n).1 (dst + i) = mem (src + i) := by
  have hd : ∀ j < n, wrap64 (dst + j) = dst + j := fun j hj => wrap64_of_lt (by omega)
  have hs : ∀ j < n, wrap64 (src + j) = src + j := fun j hj => wrap64_of_lt (by omega)
  have hcopies : ∀ idx : List ℕ, idx.Nodup → (∀ j, j ∈ idx ↔ j < n) →
      (copyAll (mem, []) dst src idx).1 (dst + i) = mem (src + i) := by
    intro idx hidx hmem
    have h := copyAll_copies (mem, []) dst src hidx
      (fun j hj k hk heq => by
        rw [hd j ((hmem j).mp hj), hd k ((hmem k).mp hk)] at heq
        omega)
      (fun j hj k hk heq => by
        have hj := (hmem j).mp hj
        have hk := (hmem k).mp hk
        rw [hd j hj, hs k hk] at heq
        omega) ((hmem i).mpr hi)
    rwa [hd i hi, hs i hi] at h
  rw [memcpy]
  rcases memmove_eq mem n (show dst < 2 ^ 64 by omega)
    (show src < 2 ^ 64 by omega) with h | h
  · rw [h, Nat.mod_eq_of_lt hn]
    exact hcopies _ List.nodup_range fun j => List.mem_range
  · rw [h, Nat.mod_eq_of_lt hn]
    exact hcopies _ (List.nodup_reverse.mpr List.nodup_range) fun j => by simp

end Ginkgo.Libc
