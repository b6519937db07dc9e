import Ginkgo.Lib.Terminated
import Ginkgo.Libc.CString

/-!
# Strings in memory

The functions of `lib/libc/string.c` on memory that need not hold a string.  A pointer is the list
of the bytes that can be read from it on; reading behind its end is a fault.  The second argument of
the comparisons is a string.

## Main results

* `strcmp_decides`, `strncmp_decides` — what the comparisons find,
  and how far they read.
-/

namespace Ginkgo.Libc.Raw

open Terminated

/-- `*p`. -/
def first : List UInt8 → Except Fault UInt8
  | [] => .error .badAccess
  | c :: _ => .ok c

theorem first_of_ne_nil {p : List UInt8} (h : p ≠ []) : first p = .ok (p.headD 0) := by
  cases p with
  | nil => exact absurd rfl h
  | cons c p => rfl

/-- `strncmp`. -/
def strncmp : List UInt8 → List UInt8 → ℕ → Except Fault ℤ
  | _, _, 0 => .ok 0
  | p, q, n + 1 => do
    let c ← first p
    if c ≠ 0 ∧ c = q.headD 0 then strncmp p.tail q.tail n
    else return c.toNat - (q.headD 0).toNat

/-- `strcmp`. -/
def strcmp : List UInt8 → List UInt8 → Except Fault ℤ
  | [], _ => .error .badAccess
  | c :: s1, s2 =>
    if (c.toNat : ℤ) - (s2.headD 0).toNat ≠ 0 then .ok (c.toNat - (s2.headD 0).toNat)
    else if c = 0 then .ok 0
    else strcmp s1 s2.tail

/-- `strchr`: how many bytes precede the character. -/
def strchr (c : UInt8) : List UInt8 → Except Fault (Option ℕ)
  | [] => .error .badAccess
  | a :: s =>
    if a = c then .ok (some 0)
    else if a = 0 then .ok none
    else (strchr c s).map (Option.map (· + 1))

/-- `strlen`. -/
def strlen : List UInt8 → Except Fault ℕ
  | [] => .error .badAccess
  | a :: s => if a = 0 then .ok 0 else (strlen s).map (· + 1)

theorem strncmp_string {s : List UInt8} (hs : 0 ∉ s) (rest q : List UInt8) (n : ℕ) :
    strncmp (s ++ 0 :: rest) q n = .ok (Libc.strncmp s q n) := by
  induction n generalizing s q with
  | zero => rfl
  | succ n ih =>
    cases s with
    | nil =>
      show (if (0 : UInt8) ≠ 0 ∧ 0 = q.headD 0 then strncmp rest q.tail n
        else .ok ((0 : UInt8).toNat - (q.headD 0).toNat)) = _
      rw [if_neg (by simp), Libc.strncmp, if_neg (by simp)]
      rfl
    | cons c s =>
      obtain ⟨_, hs⟩ := List.ne_and_not_mem_of_not_mem_cons hs
      show (if c ≠ 0 ∧ c = q.headD 0 then strncmp (s ++ 0 :: rest) q.tail n
        else .ok (c.toNat - (q.headD 0).toNat)) = _
      rw [Libc.strncmp, List.headD_cons, List.tail_cons, ih hs]
      split_ifs <;> rfl

theorem strcmp_of_ne {c : UInt8} {name : List UInt8} (h : c ≠ name.headD 0) (m : List UInt8) :
    (strcmp (c :: m) name).map (fun r => decide (r = 0)) = .ok false := by
  have hne : (c.toNat : ℤ) - (name.headD 0).toNat ≠ 0 := fun heq => h (toNat_sub_eq_zero.mp heq)
  rw [strcmp, if_pos hne]
  exact congrArg Except.ok (decide_eq_false hne)

theorem strncmp_of_ne {c : UInt8} {q : List UInt8} (h : c ≠ q.headD 0) (m : List UInt8) (n : ℕ) :
    ∃ r ≠ 0, strncmp (c :: m) q (n + 1) = .ok r := by
  have hne : (c.toNat : ℤ) - (q.headD 0).toNat ≠ 0 := fun heq => h (toNat_sub_eq_zero.mp heq)
  refine ⟨_, hne, ?_⟩
  rw [strncmp, first, Fallible.ok_bind, if_neg fun hand => h hand.2]
  rfl

/-- **The comparison with a string** reads until it finds a difference or the end of the string. -/
theorem strcmp_decides {name : List UInt8} (hname : 0 ∉ name) :
    Decides 0 .badAccess false (fun m => (strcmp m name).map fun r => decide (r = 0))
      (fun s => decide (s = name)) := by
  induction name with
  | nil =>
    refine .cons rfl (fun m => rfl) ⟨[], List.not_mem_nil, by simp⟩ fun c hc => ?_
    refine .dead (strcmp_of_ne hc) ?_
    exact fun s => decide_eq_false (List.cons_ne_nil c s)
  | cons b name ih =>
    obtain ⟨hb, hname'⟩ := List.ne_and_not_mem_of_not_mem_cons hname
    refine .cons rfl (fun m => ?_) ⟨b :: name, hname, by simp⟩ fun c hc => ?_
    · rw [strcmp_of_ne hb]
      rfl
    · by_cases hcb : c = b
      · have hsame : ¬ ((c.toNat : ℤ) - ((b :: name).headD 0).toNat ≠ 0) :=
          not_not.mpr (toNat_sub_eq_zero.mpr hcb)
        simp only [strcmp, if_neg hsame, if_neg hc]
        refine (ih hname').congr fun s _ => ?_
        rw [hcb]
        simp
      · exact .dead (strcmp_of_ne hcb) fun s => decide_eq_false fun h => hcb (List.cons.inj h).1

/-- **The comparison with the beginning of a string**, before the rest is read. -/
theorem strncmp_decides {β : Type} {no : β} {f : List UInt8 → Except Fault β}
    {L : List UInt8 → β} {q : List UInt8} (hq : 0 ∉ q) (hf : Decides 0 .badAccess no f L)
    (hlive : ∃ s, 0 ∉ s ∧ L s ≠ no) :
    Decides 0 .badAccess no (fun m => do
        if (← strncmp m q q.length) ≠ 0 then return no
        f (m.drop q.length))
      (fun s => if q <+: s then L (s.drop q.length) else no) := by
  induction q with
  | nil => exact hf.congr fun s _ => (if_pos List.nil_prefix).symm
  | cons b q ih =>
    obtain ⟨hb, hq'⟩ := List.ne_and_not_mem_of_not_mem_cons hq
    have hdiffer : ∀ c m, c ≠ b → (do
        if (← strncmp (c :: m) (b :: q) (b :: q).length) ≠ 0 then return no
        f ((c :: m).drop (b :: q).length)) = .ok no := by
      intro c m hcb
      obtain ⟨r, hr, heq⟩ := strncmp_of_ne (q := b :: q) hcb m q.length
      rw [List.length_cons, heq, Fallible.ok_bind, if_pos hr]
      rfl
    refine .cons rfl (fun m => ?_) ?_ fun c hc => ?_
    · rw [hdiffer 0 m hb, if_neg (by simp)]
    · obtain ⟨s, hs, hne⟩ := hlive
      refine ⟨b :: q ++ s, List.not_mem_append hq hs, ?_⟩
      rwa [if_pos (List.prefix_append _ _), List.drop_left]
    · by_cases hcb : c = b
      · have hstep : ∀ m, strncmp (c :: m) (b :: q) (b :: q).length = strncmp m q q.length := by
          intro m
          rw [List.length_cons, strncmp, first, Fallible.ok_bind, if_pos ⟨hc, hcb⟩]
          rfl
        simp only [hstep]
        refine (ih hq').congr fun s _ => ?_
        simp only [hcb, List.prefix_cons_inj, List.length_cons, List.drop_succ_cons]
      · refine .dead (fun m => hdiffer c m hcb) fun s => if_neg fun h => ?_
        exact hcb (List.cons_prefix_cons.mp h).1.symm

theorem strncmp_cases {q : List UInt8} (hq : 0 ∉ q) (m : List UInt8) :
    (q <+: m ∧ strncmp m q q.length = .ok 0) ∨
    (m <+: q ∧ m ≠ q ∧ strncmp m q q.length = .error .badAccess) ∨
    (¬ q <+: m ∧ ¬ m <+: q ∧ ∃ r ≠ 0, strncmp m q q.length = .ok r) := by
  induction q generalizing m with
  | nil => exact .inl ⟨List.nil_prefix, rfl⟩
  | cons b q ih =>
    obtain ⟨hb, hq'⟩ := List.ne_and_not_mem_of_not_mem_cons hq
    cases m with
    | nil => exact .inr (.inl ⟨List.nil_prefix, (List.cons_ne_nil b q).symm, rfl⟩)
    | cons c m =>
      by_cases hcb : c = b
      · subst hcb
        have hstep : strncmp (c :: m) (c :: q) (c :: q).length = strncmp m q q.length := by
          rw [List.length_cons, strncmp, first, Fallible.ok_bind, if_pos ⟨hb.symm, rfl⟩]
          rfl
        rw [hstep]
        simpa only [List.prefix_cons_inj, ne_eq, List.cons.injEq, true_and] using ih hq' m
      · refine .inr (.inr ⟨?_, ?_, strncmp_of_ne hcb m q.length⟩)
        · exact fun h => hcb (List.cons_prefix_cons.mp h).1.symm
        · exact fun h => hcb (List.cons_prefix_cons.mp h).1

end Ginkgo.Libc.Raw
