import Mathlib.Data.Nat.Notation
import Ginkgo.Machine

/-!
# Strings and characters of the C library

The functions of `lib/libc` that the readers of text use.  A C string is the list of its characters
without the `NUL` that ends it, so reading after the last character gives `0`.

## Main results

* `strncmp_eq_zero`, `strcmp_eq_zero` — what the comparisons find.
* `strtoul_hex` — `strtoul` reads up to sixteen digits to the base 16.
-/

namespace Ginkgo.Libc

/-! ## Classes of characters -/

/-- `isspace`. -/
def isspace (c : UInt8) : Bool := (9 ≤ c && c ≤ 13) || c == 32 || c == 160

/-- `isdigit`. -/
def isdigit (c : UInt8) : Bool := 48 ≤ c && c ≤ 57

/-- `isupper`. -/
def isupper (c : UInt8) : Bool := (65 ≤ c && c ≤ 90) || (192 ≤ c && c ≤ 222 && c != 215)

/-- `islower`. -/
def islower (c : UInt8) : Bool := (97 ≤ c && c ≤ 122) || (223 ≤ c && c != 247)

/-- `isalpha`. -/
def isalpha (c : UInt8) : Bool := isupper c || islower c

/-- `isalnum`. -/
def isalnum (c : UInt8) : Bool := isalpha c || isdigit c

/-- `isxdigit`. -/
def isxdigit (c : UInt8) : Bool := isdigit c || (65 ≤ c && c ≤ 70) || (97 ≤ c && c ≤ 102)

/-! ## Comparisons -/

/-- `strncmp`. -/
def strncmp : List UInt8 → List UInt8 → ℕ → ℤ
  | _, _, 0 => 0
  | p, q, n + 1 =>
    if p.headD 0 ≠ 0 ∧ p.headD 0 = q.headD 0 then strncmp p.tail q.tail n
    else (p.headD 0).toNat - (q.headD 0).toNat

/-- `strcmp`. -/
def strcmp : List UInt8 → List UInt8 → ℤ
  | [], s2 => 0 - (s2.headD 0).toNat
  | c :: s1, s2 =>
    if (c.toNat : ℤ) - (s2.headD 0).toNat ≠ 0 then c.toNat - (s2.headD 0).toNat
    else strcmp s1 s2.tail

theorem toNat_sub_eq_zero {a b : UInt8} : (a.toNat : ℤ) - b.toNat = 0 ↔ a = b := by
  rw [Int.sub_eq_zero, Int.natCast_inj, UInt8.toNat_inj]

/-- A string without `NUL` begins with the characters of `q` exactly if the comparison of that many
characters finds no difference. -/
theorem strncmp_eq_zero {q : List UInt8} (hq : 0 ∉ q) (p : List UInt8) :
    strncmp p q q.length = 0 ↔ q <+: p := by
  induction q generalizing p with
  | nil => simp [strncmp]
  | cons b q ih =>
    have hb : b ≠ 0 := fun h => hq (h ▸ List.mem_cons_self)
    have hq' : 0 ∉ q := fun h => hq (List.mem_cons_of_mem b h)
    cases p with
    | nil =>
      have hzero : ¬ ((0 : UInt8).toNat : ℤ) - b.toNat = 0 := by
        rw [toNat_sub_eq_zero]
        exact fun h => hb h.symm
      rw [List.length_cons, strncmp, if_neg (by simp)]
      simpa using hzero
    | cons a p =>
      rw [List.length_cons, strncmp]
      by_cases hab : a = b
      · rw [if_pos ⟨by simpa [hab] using hb, by simp [hab]⟩]
        simp only [List.tail_cons, hab, List.prefix_cons_inj]
        exact ih hq' p
      · rw [if_neg (by simp [hab])]
        simp only [List.headD_cons, toNat_sub_eq_zero, hab, List.cons_prefix_cons, false_iff]
        exact fun h => hab h.1.symm

theorem strncmp_length_eq_zero {p : List UInt8} (hp : 0 ∉ p) (q : List UInt8) :
    strncmp p q p.length = 0 ↔ p <+: q := by
  induction p generalizing q with
  | nil => simp [strncmp]
  | cons a p ih =>
    have ha : a ≠ 0 := fun h => hp (h ▸ List.mem_cons_self)
    have hp' : 0 ∉ p := fun h => hp (List.mem_cons_of_mem a h)
    rw [List.length_cons, strncmp, List.headD_cons, List.tail_cons]
    by_cases hab : a = q.headD 0
    · rw [if_pos ⟨ha, hab⟩, ih hp']
      cases q with
      | nil => exact absurd hab ha
      | cons b q =>
        have hb : a = b := hab
        rw [List.tail_cons, hb, List.prefix_cons_inj]
    · rw [if_neg (fun h => hab h.2), toNat_sub_eq_zero]
      constructor
      · exact fun h => absurd h hab
      · intro h
        cases q with
        | nil => exact absurd (List.prefix_nil.mp h) (List.cons_ne_nil a p)
        | cons b q => exact absurd (List.cons_prefix_cons.mp h).1 hab

/-- Strings without `NUL` are equal exactly if the comparison finds no difference. -/
theorem strcmp_eq_zero {p q : List UInt8} (hp : 0 ∉ p) (hq : 0 ∉ q) :
    strcmp p q = 0 ↔ p = q := by
  induction p generalizing q with
  | nil =>
    cases q with
    | nil => simp [strcmp]
    | cons b q =>
      have hb : b ≠ 0 := fun h => hq (h ▸ List.mem_cons_self)
      have hzero : ¬ ((0 : UInt8).toNat : ℤ) - b.toNat = 0 := by
        rw [toNat_sub_eq_zero]
        exact fun h => hb h.symm
      simpa [strcmp] using hzero
  | cons a p ih =>
    have ha : a ≠ 0 := fun h => hp (h ▸ List.mem_cons_self)
    have hp' : 0 ∉ p := fun h => hp (List.mem_cons_of_mem a h)
    rw [strcmp]
    by_cases hab : a = q.headD 0
    · cases q with
      | nil => exact absurd hab ha
      | cons b q =>
        have hq' : 0 ∉ q := fun h => hq (List.mem_cons_of_mem b h)
        rw [if_neg (not_not.mpr (toNat_sub_eq_zero.mpr hab)), List.tail_cons, ih hp' hq']
        simpa using fun _ : p = q => hab
    · rw [if_pos (fun h => hab (toNat_sub_eq_zero.mp h)), toNat_sub_eq_zero]
      constructor
      · exact fun h => absurd h hab
      · intro h
        rw [← h] at hab
        exact absurd rfl hab

/-! ## Numbers -/

/-- The value of a digit, or `none` for another character. -/
def digitValue (c : UInt8) : Option ℕ :=
  if isdigit c then some (c.toNat - 48)
  else if isalpha c then
    if isupper c then some (c.toNat - 55) else some (c.toNat - 87)
  else none

/-- The loop of `strtoul`; `any` is `0` before the first digit and `-1` after an overflow. -/
def strtoulLoop (base : ℕ) : List UInt8 → ℕ → ℤ → ℕ × ℤ
  | [], acc, any => (acc, any)
  | c :: s, acc, any =>
    match digitValue c with
    | none => (acc, any)
    | some d =>
      if base ≤ d then (acc, any)
      else if any < 0 then strtoulLoop base s acc any
      else
        let cutoff := (2 ^ 64 - 1) / base
        let cutlim := (2 ^ 64 - 1) % base
        if cutoff < acc ∨ acc = cutoff ∧ cutlim < d then strtoulLoop base s (2 ^ 64 - 1) (-1)
        else strtoulLoop base s (acc * base + d) 1

/-- `strtoul`, without the position where it stopped. -/
def strtoul (nptr : List UInt8) (base : ℕ) : ℕ :=
  let s := nptr.dropWhile isspace
  let neg := s.headD 0 == 45
  let s := if s.headD 0 = 45 ∨ s.headD 0 = 43 then s.tail else s
  let hex := (base = 0 ∨ base = 16) ∧ s.headD 0 = 48 ∧ (s.tail.headD 0 = 120 ∨ s.tail.headD 0 = 88)
  let base' := if hex then 16 else base
  let s := if hex then s.drop 2 else s
  let base'' := if base' = 0 then (if s.headD 0 = 48 then 8 else 10) else base'
  let (acc, any) := strtoulLoop base'' s 0 0
  if neg ∧ 0 < any then wrap64 (2 ^ 64 - acc) else acc

/-- The number with the given digits to the base 16, after the digits of `acc`. -/
def hexValue : List UInt8 → ℕ → ℕ
  | [], acc => acc
  | c :: s, acc => hexValue s (acc * 16 + (digitValue c).getD 0)

/-- The string has the digits of `n` to the base 16. -/
def IsHex (s : List UInt8) (n : ℕ) : Prop := (∀ c ∈ s, isxdigit c = true) ∧ hexValue s 0 = n

variable {c : UInt8}

theorem isxdigit_iff : isxdigit c = true ↔
    (48 ≤ c.toNat ∧ c.toNat ≤ 57) ∨ (65 ≤ c.toNat ∧ c.toNat ≤ 70) ∨
      (97 ≤ c.toNat ∧ c.toNat ≤ 102) := by
  simp [isxdigit, isdigit, UInt8.le_iff_toNat_le, or_assoc]

theorem isdigit_iff : isdigit c = true ↔ 48 ≤ c.toNat ∧ c.toNat ≤ 57 := by
  simp [isdigit, UInt8.le_iff_toNat_le]

theorem isupper_iff (hc : c.toNat < 128) :
    isupper c = true ↔ 65 ≤ c.toNat ∧ c.toNat ≤ 90 := by
  simp [isupper, UInt8.le_iff_toNat_le]
  omega

theorem isalpha_iff (hc : c.toNat < 128) :
    isalpha c = true ↔ (65 ≤ c.toNat ∧ c.toNat ≤ 90) ∨ (97 ≤ c.toNat ∧ c.toNat ≤ 122) := by
  simp [isalpha, isupper_iff hc, islower, UInt8.le_iff_toNat_le]
  omega

theorem digitValue_of_isxdigit (h : isxdigit c = true) :
    ∃ d < 16, digitValue c = some d := by
  rw [isxdigit_iff] at h
  have hc : c.toNat < 128 := by omega
  unfold digitValue
  by_cases hdigit : isdigit c = true
  · have hrange := isdigit_iff.mp hdigit
    exact ⟨c.toNat - 48, by omega, if_pos hdigit⟩
  · rw [isdigit_iff] at hdigit
    have halpha : isalpha c = true := (isalpha_iff hc).mpr (by omega)
    rw [if_neg (fun hd => hdigit (isdigit_iff.mp hd)), if_pos halpha]
    by_cases hupper : isupper c = true
    · have hrange := (isupper_iff hc).mp hupper
      exact ⟨c.toNat - 55, by omega, if_pos hupper⟩
    · rw [isupper_iff hc] at hupper
      exact ⟨c.toNat - 87, by omega, if_neg (fun hu => hupper ((isupper_iff hc).mp hu))⟩

theorem strtoulLoop_hex (s : List UInt8) (hs : ∀ c ∈ s, isxdigit c = true) (acc : ℕ) (any : ℤ)
    (hany : 0 ≤ any) (hacc : (acc + 1) * 16 ^ s.length ≤ 2 ^ 64) :
    (strtoulLoop 16 s acc any).1 = hexValue s acc := by
  induction s generalizing acc any with
  | nil => rfl
  | cons c s ih =>
    obtain ⟨d, hd, hc⟩ := digitValue_of_isxdigit (hs c List.mem_cons_self)
    rw [List.length_cons, pow_succ] at hacc
    have hpos : 0 < 16 ^ s.length := pow_pos (by norm_num) _
    have hle : (acc + 1) * 16 ≤ 2 ^ 64 :=
      calc (acc + 1) * 16 ≤ (acc + 1) * (16 ^ s.length * 16) :=
            Nat.mul_le_mul_left _ (Nat.le_mul_of_pos_left 16 hpos)
        _ ≤ 2 ^ 64 := hacc
    have hnext : (acc * 16 + d + 1) * 16 ^ s.length ≤ 2 ^ 64 :=
      calc (acc * 16 + d + 1) * 16 ^ s.length ≤ ((acc + 1) * 16) * 16 ^ s.length :=
            Nat.mul_le_mul_right _ (by omega)
        _ = (acc + 1) * (16 ^ s.length * 16) := by rw [Nat.mul_assoc, Nat.mul_comm 16]
        _ ≤ 2 ^ 64 := hacc
    rw [hexValue, strtoulLoop, hc]
    simp only [Option.getD_some]
    rw [if_neg (by omega), if_neg (by omega), if_neg (by omega)]
    exact ih (fun c' hc' => hs c' (List.mem_cons_of_mem c hc')) _ 1 (by norm_num) hnext

theorem ne_of_isxdigit (h : isxdigit c = true) :
    isspace c = false ∧ c ≠ 45 ∧ c ≠ 43 ∧ c ≠ 120 ∧ c ≠ 88 := by
  rw [isxdigit_iff] at h
  refine ⟨?_, ?_, ?_, ?_, ?_⟩
  · rw [Bool.eq_false_iff]
    simp [isspace, UInt8.le_iff_toNat_le, ← UInt8.toNat_inj]
    omega
  all_goals
    intro hc
    rw [hc] at h
    revert h
    decide

/-- **`strtoul` reads up to sixteen digits to the base 16.** -/
theorem strtoul_hex {s : List UInt8} {n : ℕ} (h : IsHex s n) (hlen : s.length ≤ 16) :
    strtoul s 16 = n := by
  obtain ⟨hs, rfl⟩ := h
  have hloop := strtoulLoop_hex s hs 0 0 le_rfl (by
    rw [Nat.zero_add, Nat.one_mul]
    exact (Nat.pow_le_pow_right (by norm_num) hlen).trans (by norm_num))
  cases s with
  | nil => rfl
  | cons c s =>
    obtain ⟨hspace, hminus, hplus, _, _⟩ := ne_of_isxdigit (hs c List.mem_cons_self)
    -- the second character is not an `x`
    have hx : ¬ (s.headD 0 = 120 ∨ s.headD 0 = 88) := by
      cases s with
      | nil => decide
      | cons c' s =>
        obtain ⟨_, _, _, hx, hX⟩ :=
          ne_of_isxdigit (hs c' (List.mem_cons_of_mem c List.mem_cons_self))
        exact fun h => h.elim hx hX
    have hdrop : (c :: s).dropWhile isspace = c :: s := by
      rw [List.dropWhile_cons, hspace]
      rfl
    simp only [strtoul, hdrop, List.headD_cons, List.tail_cons, hminus, hplus, hx, or_self,
      and_false, if_false, beq_iff_eq, false_and]
    exact hloop

end Ginkgo.Libc
