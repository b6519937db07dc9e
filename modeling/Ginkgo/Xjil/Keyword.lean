import Ginkgo.Xjil.Lexer

/-!
# Keywords

The words `true` and `false` are keywords, and every other word should be an identifier.  `next`
compares a word with the keywords by `strncmp` and the length of the word, so that a word is taken
for a keyword that only begins like it.

## Main results

* `matchedWhole_iff` — the words for which this is the case.
-/

namespace Ginkgo.Xjil

open Libc

/-- A letter or `_`, and then letters, digits, `_` and `-`. -/
def IsWord (s : List UInt8) : Prop :=
  ∃ c t, s = c :: t ∧ isIdentStart c = true ∧ ∀ d ∈ t, isIdentChar d = true

/-- The keywords. -/
def IsKeyword (s : List UInt8) : Prop := s = trueName ∨ s = falseName

instance (s : List UInt8) : Decidable (IsKeyword s) :=
  inferInstanceAs (Decidable (s = trueName ∨ s = falseName))

/-- What `parser_object` and `parser_tag` ask for: `peek` finds an identifier, and `expect` leaves
it in `ctx->str`. -/
def Usable (ctx : Context) (s : List UInt8) : Prop :=
  (∃ ctx', peek ctx = .ok (.id, ctx')) ∧ ∃ ctx', expect ctx .id = .ok ctx' ∧ ctx'.str = s

/-- Whatever follows the word, `next` reads it as a whole.  It is a boolean if it is a keyword, and
an identifier, which can be a key or a tag, otherwise. -/
def MatchedWhole (s : List UInt8) : Prop :=
  ∀ (rest : List UInt8) (line : ℤ) (num : ℕ) (str : List UInt8), Stops rest →
    ∃ type ctx', next ⟨s ++ rest, 0, line, num, str⟩ = .ok (type, ctx') ∧ ctx'.pos = s.length ∧
      (type = .bool ↔ IsKeyword s) ∧ (type = .id ∧ ctx'.str = s ↔ ¬ IsKeyword s) ∧
      (¬ IsKeyword s → Usable ⟨s ++ rest, 0, line, num, str⟩ s)

theorem IsWord.zero_notMem {s : List UInt8} (h : IsWord s) : 0 ∉ s := by
  obtain ⟨c, t, rfl, hc, ht⟩ := h
  intro hmem
  cases List.mem_cons.mp hmem with
  | inl heq => exact absurd (heq ▸ hc) (by decide)
  | inr hmem => exact absurd (ht 0 hmem) (by decide)

theorem wordType_eq {s : List UInt8} (h : IsWord s) (num : ℕ) :
    (wordType s num).1 = if s <+: trueName ∨ s <+: falseName then .bool else .id := by
  have hcmp := strncmp_length_eq_zero h.zero_notMem
  unfold wordType
  simp only [hcmp]
  by_cases htrue : s <+: trueName
  · rw [if_pos htrue, if_pos (Or.inl htrue)]
  · by_cases hfalse : s <+: falseName
    · rw [if_neg htrue, if_pos hfalse, if_pos (Or.inr hfalse)]
    · rw [if_neg htrue, if_neg hfalse, if_neg (not_or.mpr ⟨htrue, hfalse⟩)]

theorem next_word {s rest : List UInt8} (h : IsWord s) (hrest : Stops rest) (line : ℤ) (num : ℕ)
    (str : List UInt8) :
    next ⟨s ++ rest, 0, line, num, str⟩ =
      .ok ((wordType s num).1, ⟨s ++ rest, toInt32 s.length, line, (wordType s num).2, s⟩) := by
  obtain ⟨c, t, rfl, hc, ht⟩ := h
  have hblank : c ≠ 9 ∧ c ≠ 10 ∧ c ≠ 13 ∧ c ≠ 32 ∧ c ≠ 47 := by
    refine ⟨?_, ?_, ?_, ?_, ?_⟩ <;>
    · intro heq
      rw [heq] at hc
      exact absurd hc (by decide)
  have hskip : skipBlanks false (c :: t ++ rest) line = .ok (c :: t ++ rest, line) :=
    skipBlanks_token hblank _ _
  have hlen : (((c :: t ++ rest).length : ℤ) - rest.length) = (c :: t).length := by
    rw [List.length_append]
    push_cast
    ring
  rw [next, access_pos ⟨le_rfl, Int.natCast_nonneg _⟩, Fallible.ok_bind]
  show (skipBlanks false (c :: t ++ rest) line >>= _) = _
  rw [hskip, Fallible.ok_bind]
  dsimp only
  rw [lexToken_word hc ht hrest, Fallible.ok_bind]
  dsimp only
  rw [hlen]
  rfl

theorem toInt32_eq_iff (n : ℕ) : toInt32 n = n ↔ n < 2 ^ 31 := by
  unfold toInt32
  omega

/-- **Keywords are matched whole** exactly for the words of fewer than `2 ^ 31` characters with
which no keyword begins, but for the keywords themselves. -/
theorem matchedWhole_iff {s : List UInt8} (h : IsWord s) :
    MatchedWhole s ↔ s.length < 2 ^ 31 ∧ (s <+: trueName ∨ s <+: falseName → IsKeyword s) := by
  have hkey : IsKeyword s → s <+: trueName ∨ s <+: falseName :=
    Or.imp (fun heq => heq ▸ List.prefix_rfl) (fun heq => heq ▸ List.prefix_rfl)
  constructor
  · intro hwhole
    have hstops : Stops [0] := ⟨0, [], rfl, rfl⟩
    obtain ⟨type, ctx', hnext, hpos, hbool, _, _⟩ := hwhole [0] 1 0 [] hstops
    rw [next_word h hstops, wordType_eq h] at hnext
    obtain ⟨htype, hctx⟩ := Prod.mk.inj (Except.ok.inj hnext)
    rw [← hctx] at hpos
    refine ⟨(toInt32_eq_iff _).mp hpos, fun hbegin => hbool.mp ?_⟩
    rw [← htype, if_pos hbegin]
  · intro hcond rest line num str hstops
    have hpos := (toInt32_eq_iff s.length).mpr hcond.1
    have hnext := next_word h hstops line num str
    by_cases hword : IsKeyword s
    · have htype : (wordType s num).1 = .bool := by rw [wordType_eq h, if_pos (hkey hword)]
      rw [htype] at hnext
      exact ⟨.bool, _, hnext, hpos, by simp [hword], by simp [hword], fun hno => absurd hword hno⟩
    · have htype : (wordType s num).1 = .id := by
        rw [wordType_eq h, if_neg fun hbegin => hword (hcond.2 hbegin)]
      rw [htype] at hnext
      refine ⟨.id, _, hnext, hpos, by simp [hword], by simp [hword], fun _ => ?_⟩
      constructor
      · rw [peek, hnext]
        exact ⟨_, rfl⟩
      · rw [expect, hnext, Fallible.ok_bind]
        exact ⟨_, if_neg (not_not.mpr rfl), rfl⟩

/-- The word `truth` is an identifier. -/
theorem matchedWhole_truth :
    IsWord [116, 114, 117, 116, 104] ∧
      (MatchedWhole [116, 114, 117, 116, 104] ↔ [116, 114, 117, 116, 104].length < 2 ^ 31 ∧
        ([116, 114, 117, 116, 104] <+: trueName ∨ [116, 114, 117, 116, 104] <+: falseName →
          IsKeyword [116, 114, 117, 116, 104])) :=
  have h : IsWord [116, 114, 117, 116, 104] :=
    ⟨116, [114, 117, 116, 104], rfl, by decide, List.all_eq_true.mp rfl⟩
  ⟨h, matchedWhole_iff h⟩

/-- The word `t` is no keyword, but `next` takes it for `true`, and it can not be a key. -/
theorem next_t :
    IsWord [116] ∧ ¬ IsKeyword [116] ∧
      (∃ ctx', next ⟨[116, 0], 0, 1, 0, []⟩ = .ok (.bool, ctx') ∧ ctx'.num = 1) ∧
      expect ⟨[116, 0], 0, 1, 0, []⟩ .id = .error .panic := by
  refine ⟨⟨116, [], rfl, by decide, fun d hd => absurd hd List.not_mem_nil⟩, by decide,
    ⟨_, rfl, rfl⟩, rfl⟩

end Ginkgo.Xjil
