import Ginkgo.Lib.Outcome
import Ginkgo.Xjil.Member

/-!
# Bounds of the parser

`xjil_parse` gets the length of its text, but looks at it only to see whether it is zero.  What ends
the text is a `NUL`, and a token ends where a character is read that does not belong to it.  So the
parser can read behind the text.

What is read is told by running the parser on the bytes of the text alone, without anything readable
behind them.  If this run does not read behind the text, then every run with something behind it has
the same outcome, by a simulation of the one run by the other.  A run on fewer than `2 ^ 31` bytes
always ends, since the parser makes no round of a loop without reading a token.

## Main results

* `xjilParseMem_extends` — the run with something behind the text has the outcome of the
  run on the text alone.
* `xjilParseMem_halts` — the parser ends.
* `staysInside_iff` — when the parser stays inside a text.
-/

namespace Ginkgo.Xjil

open Libc Outcome
open Fallible (bind_eq_ok ok_bind)

/-- The faults that are not reads of memory that must not be read, and nothing undefined. -/
def Reported (e : Fault) : Prop := e ≠ .badAccess

theorem not_reported_badAccess : ¬ Reported .badAccess := fun h => h rfl

/-! ## What is behind the text -/

section

variable {after : List UInt8}

theorem matches_access {α β : Type} {R : α → β → Prop} {c : Prop} [Decidable c]
    {f : Unit → Except Fault α} {y : Except Fault β} (h : c → Matches Reported R (f ()) y) :
    Matches Reported R (access c >>= f) y := by
  by_cases hc : c
  · rw [access_pos hc]
    exact h hc
  · rw [access_neg hc]
    exact Matches.of_not not_reported_badAccess

theorem skipBlanks_extends (comment : Bool) (s : List UInt8) (line : ℤ) :
    Matches Reported (fun r r' => r' = (r.1 ++ after, r.2)) (skipBlanks comment s line)
      (skipBlanks comment (s ++ after) line) := by
  induction s generalizing comment line with
  | nil => cases comment <;> exact Matches.of_not not_reported_badAccess
  | cons c s ih =>
    cases comment with
    | true => exact ih _ line
    | false =>
      rw [List.cons_append, skipBlanks, skipBlanks]
      refine .ite Iff.rfl (fun _ => .ok rfl) fun _ => ?_
      refine .ite Iff.rfl (fun _ => ih false _) fun _ => ?_
      refine .ite Iff.rfl (fun _ => ih false line) fun _ => ?_
      cases s with
      | nil =>
        by_cases hslash : c = 47
        · rw [if_pos ⟨hslash, rfl⟩]
          exact Matches.of_not not_reported_badAccess
        · rw [if_neg fun h => hslash h.1, if_neg fun h => hslash h.1, if_neg fun h => hslash h.1,
            if_neg fun h => hslash h.1]
          exact Matches.ok rfl
      | cons d s =>
        refine .ite (by simp) (fun h => absurd h.2 (List.cons_ne_nil d s)) fun _ => ?_
        exact .ite Iff.rfl (fun _ => ih true line) fun _ => .ok rfl

theorem decimalLoop_extends (s : List UInt8) (val : ℕ) :
    Matches Reported (fun r r' => r' = (r.1, r.2 ++ after)) (decimalLoop s val)
      (decimalLoop (s ++ after) val) := by
  induction s generalizing val with
  | nil => exact Matches.of_not not_reported_badAccess
  | cons c s ih =>
    rw [List.cons_append, decimalLoop, decimalLoop]
    split_ifs
    · exact ih _
    · exact Matches.ok rfl

theorem hexLoop_extends (s : List UInt8) (val count : ℕ) :
    Matches Reported (fun r r' => r' = (r.1, r.2.1, r.2.2 ++ after)) (hexLoop s val count)
      (hexLoop (s ++ after) val count) := by
  induction s generalizing val count with
  | nil => exact Matches.of_not not_reported_badAccess
  | cons c s ih =>
    rw [List.cons_append, hexLoop, hexLoop, hexTest_eq]
    by_cases hc : isalnum c = true
    · rw [if_pos hc, if_pos hc]
      exact ih _ _
    · rw [if_neg hc, if_neg hc]
      exact Matches.ok rfl

theorem lexNumber_extends (c : UInt8) (s : List UInt8) :
    Matches Reported (fun r r' => r' = (r.1, r.2 ++ after)) (lexNumber c s)
      (lexNumber c (s ++ after)) := by
  refine .ite Iff.rfl (fun _ => decimalLoop_extends s _) fun _ => ?_
  cases s with
  | nil => exact Matches.of_not not_reported_badAccess
  | cons d s =>
    refine matches_access fun _ => ?_
    rw [List.cons_append, access_pos (List.cons_ne_nil d (s ++ after))]
    refine .ite Iff.rfl (fun _ => (hexLoop_extends s 0 0).bind ?_) fun _ => .ok rfl
    rintro ⟨val, count, rest⟩ _ rfl
    exact .ite Iff.rfl (fun _ => .error _) fun _ => .ok rfl

theorem lexString_extends (s str : List UInt8) :
    Matches Reported (fun r r' => r' = (r.1, r.2 ++ after)) (lexString s str)
      (lexString (s ++ after) str) := by
  fun_induction lexString s str with
  | case1 => exact Matches.of_not not_reported_badAccess
  | case2 str s =>
    rw [List.cons_append, lexString.eq_def]
    exact Matches.ok rfl
  | case3 str s =>
    rw [List.cons_append, lexString_quote]
    exact Matches.ok rfl
  | case4 => exact Matches.of_not not_reported_badAccess
  | case5 str c s _ _ ih =>
    rw [List.cons_append, List.cons_append, lexString_backslash]
    exact ih
  | case6 c s str hnul hquote hback ih =>
    rw [List.cons_append, lexString_other hnul hquote hback]
    exact ih

theorem word_append {s : List UInt8} (h : s.dropWhile isWordChar ≠ []) (after : List UInt8) :
    (s ++ after).takeWhile isWordChar = s.takeWhile isWordChar ∧
      (s ++ after).dropWhile isWordChar = s.dropWhile isWordChar ++ after := by
  induction s with
  | nil => exact absurd rfl h
  | cons c s ih =>
    rw [List.cons_append, List.takeWhile_cons, List.takeWhile_cons, List.dropWhile_cons,
      List.dropWhile_cons]
    cases hc : isWordChar c with
    | true =>
      rw [List.dropWhile_cons, hc] at h
      exact ⟨congrArg (c :: ·) (ih h).1, (ih h).2⟩
    | false => exact ⟨rfl, rfl⟩

theorem lexToken_extends (s : List UInt8) (num : ℕ) (str : List UInt8) :
    Matches Reported (fun r r' => r' = (r.1, r.2.1 ++ after, r.2.2)) (lexToken s num str)
      (lexToken (s ++ after) num str) := by
  cases s with
  | nil => exact Matches.of_not not_reported_badAccess
  | cons c s =>
    rw [List.cons_append, lexToken, lexToken]
    refine .ite Iff.rfl (fun _ => .ok rfl) fun _ => ?_
    refine .ite Iff.rfl (fun _ => ?_) fun _ => ?_
    · refine matches_access fun hend => ?_
      -- The word ends in the text, and so it is the same with what is behind.
      obtain ⟨htake, hdrop⟩ := word_append hend after
      have hend' : (s ++ after).dropWhile isWordChar ≠ [] := by
        rw [hdrop]
        exact fun h => hend (List.append_eq_nil_iff.mp h).1
      rw [access_pos hend', htake, hdrop]
      exact .ok rfl
    refine .ite Iff.rfl (fun _ => (lexNumber_extends c s).bind ?_) fun _ => ?_
    · rintro ⟨val, rest⟩ _ rfl
      exact .ok rfl
    refine .ite Iff.rfl (fun _ => (lexString_extends s []).bind ?_) fun _ => ?_
    · rintro ⟨w, rest⟩ _ rfl
      exact .ok rfl
    cases punctuation.lookup c with
    | some type => exact .ok rfl
    | none => exact .ite Iff.rfl (fun _ => .ok rfl) fun _ => .error _

end

/-! ## Contexts with something behind the text -/

/-- The context with something behind the text. -/
def Context.extend (ctx : Context) (after : List UInt8) : Context :=
  { ctx with src := ctx.src ++ after }

section

variable {after : List UInt8}

theorem next_extends (ctx : Context) :
    Matches Reported (fun r r' => r' = (r.1, r.2.extend after)) (next ctx)
      (next (ctx.extend after)) := by
  refine matches_access fun hin => ?_
  have hin' : 0 ≤ ctx.pos ∧ ctx.pos ≤ (ctx.src ++ after).length := by
    rw [List.length_append]
    omega
  have hdrop : (ctx.src ++ after).drop ctx.pos.toNat = ctx.src.drop ctx.pos.toNat ++ after :=
    List.drop_append_of_le_length (by omega)
  rw [next, Context.extend, access_pos hin', ok_bind, hdrop]
  refine .bind_eq (skipBlanks_extends false _ _) ?_
  rintro ⟨s, line⟩
  refine .bind_eq (lexToken_extends s _ _) ?_
  rintro ⟨type, rest, num, str⟩
  have hpos : ((ctx.src ++ after).length : ℤ) - (rest ++ after).length =
      ctx.src.length - rest.length := by
    rw [List.length_append, List.length_append]
    omega
  dsimp only
  rw [hpos]
  exact .ok rfl

theorem expect_extends (ctx : Context) (type : TokenType) :
    Matches Reported (fun r r' => r' = r.extend after) (expect ctx type)
      (expect (ctx.extend after) type) := by
  refine .bind_eq (next_extends ctx) ?_
  rintro ⟨t, ctx₁⟩
  exact .ite Iff.rfl (fun _ => .error _) fun _ => .ok rfl

theorem nextIf_extends (ctx : Context) (type : TokenType) :
    Matches Reported (fun r r' => r' = (r.1, r.2.extend after)) (nextIf ctx type)
      (nextIf (ctx.extend after) type) := by
  refine .bind_eq (next_extends ctx) ?_
  rintro ⟨t, ctx₁⟩
  exact .ite Iff.rfl (fun _ => .ok rfl) fun _ => .ok rfl

theorem peek_extends (ctx : Context) :
    Matches Reported (fun r r' => r' = (r.1, r.2.extend after)) (peek ctx)
      (peek (ctx.extend after)) := by
  refine .bind_eq (next_extends ctx) ?_
  rintro ⟨t, ctx₁⟩
  exact .ok rfl

theorem parserTag_extends (ctx : Context) (value : Value) :
    Matches Reported (fun r r' => r' = (r.1.extend after, r.2)) (parserTag ctx value)
      (parserTag (ctx.extend after) value) := by
  refine .bind_eq (expect_extends ctx .lt) fun ctx₁ => ?_
  refine .bind_eq (expect_extends ctx₁ .id) fun ctx₂ => ?_
  refine .bind_eq (expect_extends ctx₂ .gt) fun ctx₃ => ?_
  exact .ok rfl

end

/-! ## Expressions -/

/-- The functions for expressions do the same with something behind the text, and with further
steps. -/
structure ExpExtends (after : List UInt8) (fuel fuel' : ℕ) : Prop where
  factor : ∀ ctx, Simulates Reported (fun r r' => r' = (r.1, r.2.extend after))
    (parserFactor fuel ctx) (parserFactor fuel' (ctx.extend after))
  term : ∀ ctx, Simulates Reported (fun r r' => r' = (r.1, r.2.extend after))
    (parserTerm fuel ctx) (parserTerm fuel' (ctx.extend after))
  termLoop : ∀ ctx type value, Simulates Reported (fun r r' => r' = (r.1, r.2.extend after))
    (termLoop fuel ctx type value) (termLoop fuel' (ctx.extend after) type value)
  exp : ∀ ctx, Simulates Reported (fun r r' => r' = (r.1, r.2.extend after))
    (parserExp fuel ctx) (parserExp fuel' (ctx.extend after))
  expLoop : ∀ ctx type value, Simulates Reported (fun r r' => r' = (r.1, r.2.extend after))
    (expLoop fuel ctx type value) (expLoop fuel' (ctx.extend after) type value)

variable {fuel fuel' : ℕ}

section

variable {after : List UInt8} {fuel fuel' : ℕ}

theorem ExpExtends.succ (ih : ExpExtends after fuel fuel') :
    ExpExtends after (fuel + 1) (fuel' + 1) where
  factor ctx := by
    rw [parserFactor, parserFactor]
    refine .bind_lift (peek_extends ctx) ?_
    rintro ⟨type, ctx₁⟩
    refine .ite (fun _ => ?_) fun _ => .ite (fun _ => ?_) fun _ => .throw _
    · refine .bind_lift (expect_extends ctx₁ _) fun ctx₂ => ?_
      refine .bind_eq (ih.exp ctx₂) ?_
      rintro ⟨value, ctx₃⟩
      refine .bind_lift (expect_extends ctx₃ _) fun ctx₄ => ?_
      exact .pure rfl
    · refine .bind_lift (next_extends ctx₁) ?_
      rintro ⟨_, ctx₂⟩
      exact .pure rfl
  term ctx := by
    rw [parserTerm, parserTerm]
    refine .bind_eq (ih.factor ctx) ?_
    rintro ⟨value, ctx₁⟩
    refine .bind_lift (peek_extends ctx₁) ?_
    rintro ⟨type, ctx₂⟩
    exact ih.termLoop ctx₂ type value
  termLoop ctx type value := by
    rw [Xjil.termLoop, Xjil.termLoop]
    refine .ite (fun _ => .pure rfl) fun _ => ?_
    refine .bind_lift (next_extends ctx) ?_
    rintro ⟨_, ctx₁⟩
    refine .bind_eq (ih.factor ctx₁) ?_
    rintro ⟨v, ctx₂⟩
    refine .ite (fun _ => .throw _) fun _ => ?_
    refine .bind_lift (peek_extends ctx₂) ?_
    rintro ⟨type', ctx₃⟩
    exact ih.termLoop ctx₃ type' _
  exp ctx := by
    rw [parserExp, parserExp]
    refine .bind_eq (ih.term ctx) ?_
    rintro ⟨value, ctx₁⟩
    refine .bind_lift (peek_extends ctx₁) ?_
    rintro ⟨type, ctx₂⟩
    exact ih.expLoop ctx₂ type value
  expLoop ctx type value := by
    rw [Xjil.expLoop, Xjil.expLoop]
    refine .ite (fun _ => .pure rfl) fun _ => ?_
    refine .bind_lift (next_extends ctx) ?_
    rintro ⟨_, ctx₁⟩
    refine .bind_eq (ih.term ctx₁) ?_
    rintro ⟨v, ctx₂⟩
    refine .bind_lift (peek_extends ctx₂) ?_
    rintro ⟨type', ctx₃⟩
    exact ih.expLoop ctx₃ type' _

theorem expExtends (after : List UInt8) (h : fuel ≤ fuel') :
    ExpExtends after fuel fuel' := by
  induction fuel generalizing fuel' with
  | zero =>
    exact ⟨fun _ => trivial, fun _ => trivial, fun _ _ _ => trivial, fun _ => trivial,
      fun _ _ _ => trivial⟩
  | succ fuel ih =>
    obtain ⟨fuel', rfl⟩ : ∃ n, fuel' = n + 1 := ⟨fuel' - 1, by omega⟩
    exact (ih (by omega)).succ

end

/-! ## Values -/

/-- The functions for values do the same with something behind the text, and with further steps. -/
structure ValueExtends (after : List UInt8) (fuel fuel' : ℕ) : Prop where
  value : ∀ ctx v, Simulates Reported (fun r r' => r' = (r.1.extend after, r.2))
    (parserValue fuel ctx v) (parserValue fuel' (ctx.extend after) v)
  body : ∀ ctx v type tag, Simulates Reported (fun r r' => r' = (r.1.extend after, r.2))
    (parserBody fuel ctx v type tag) (parserBody fuel' (ctx.extend after) v type tag)
  object : ∀ ctx v, Simulates Reported (fun r r' => r' = (r.1.extend after, r.2))
    (parserObject fuel ctx v) (parserObject fuel' (ctx.extend after) v)
  members : ∀ ctx v, Simulates Reported (fun r r' => r' = (r.1.extend after, r.2))
    (objectLoop fuel ctx v) (objectLoop fuel' (ctx.extend after) v)
  array : ∀ ctx v, Simulates Reported (fun r r' => r' = (r.1.extend after, r.2))
    (parserArray fuel ctx v) (parserArray fuel' (ctx.extend after) v)
  elements : ∀ ctx v, Simulates Reported (fun r r' => r' = (r.1.extend after, r.2))
    (arrayLoop fuel ctx v) (arrayLoop fuel' (ctx.extend after) v)

section

variable {after : List UInt8} {fuel fuel' : ℕ}

theorem ValueExtends.succ (ih : ValueExtends after fuel fuel') (h : fuel ≤ fuel') :
    ValueExtends after (fuel + 1) (fuel' + 1) where
  value ctx v := by
    rw [parserValue, parserValue]
    refine .bind_lift (peek_extends ctx) ?_
    rintro ⟨type, ctx₁⟩
    refine .ite (fun _ => ?_) fun _ => ih.body ctx₁ v type false
    refine .bind_lift (parserTag_extends ctx₁ v) ?_
    rintro ⟨ctx₂, v'⟩
    refine .bind_lift (peek_extends ctx₂) ?_
    rintro ⟨type', ctx₃⟩
    exact ih.body ctx₃ v' type' true
  body ctx v type tag := by
    rw [parserBody, parserBody]
    refine .ite (fun _ => ?_) fun _ => .ite (fun _ => ?_) fun _ => .ite (fun _ => ?_) fun _ =>
      .ite (fun _ => ?_) fun _ => .ite (fun _ => ?_) fun _ => .ite (fun _ => .pure rfl) fun _ =>
      .throw _
    · refine .bind_same fun v₁ => ?_
      refine .bind_eq (ih.object ctx v₁) ?_
      rintro ⟨ctx₂, v₂⟩
      refine .bind_lift (peek_extends ctx₂) ?_
      rintro ⟨type', ctx₃⟩
      refine .ite (fun _ => ?_) fun _ => .pure rfl
      refine .bind_same fun v₃ => ?_
      exact ih.array ctx₃ v₃
    · refine .bind_same fun v₁ => ?_
      exact ih.array ctx v₁
    · refine .bind_same fun v₁ => ?_
      refine .bind_eq ((expExtends after h).exp ctx) ?_
      rintro ⟨num, ctx₂⟩
      exact .pure rfl
    · refine .bind_same fun v₁ => ?_
      refine .bind_lift (next_extends ctx) ?_
      rintro ⟨_, ctx₂⟩
      exact .pure rfl
    · refine .bind_same fun v₁ => ?_
      refine .bind_lift (next_extends ctx) ?_
      rintro ⟨_, ctx₂⟩
      exact .pure rfl
  object ctx v := by
    rw [parserObject, parserObject]
    refine .bind_lift (expect_extends ctx _) fun ctx₁ => ?_
    refine .bind_eq (ih.members ctx₁ v) ?_
    rintro ⟨ctx₂, v'⟩
    refine .bind_lift (expect_extends ctx₂ _) fun ctx₃ => ?_
    exact .pure rfl
  members ctx v := by
    rw [objectLoop, objectLoop]
    refine .bind_lift (peek_extends ctx) ?_
    rintro ⟨type, ctx₁⟩
    refine .ite (fun _ => .pure rfl) fun _ => ?_
    refine .bind_lift (expect_extends ctx₁ _) fun ctx₂ => ?_
    refine .bind_lift (expect_extends ctx₂ _) fun ctx₃ => ?_
    refine .bind_eq (ih.value ctx₃ valueNew) ?_
    rintro ⟨ctx₄, w⟩
    refine .bind_same fun v' => ?_
    refine .bind_lift (nextIf_extends ctx₄ _) ?_
    rintro ⟨comma, ctx₅⟩
    exact .ite (fun _ => ih.members ctx₅ v') fun _ => .pure rfl
  array ctx v := by
    rw [parserArray, parserArray]
    refine .bind_lift (expect_extends ctx _) fun ctx₁ => ?_
    refine .bind_eq (ih.elements ctx₁ v) ?_
    rintro ⟨ctx₂, v'⟩
    refine .bind_lift (expect_extends ctx₂ _) fun ctx₃ => ?_
    exact .pure rfl
  elements ctx v := by
    rw [arrayLoop, arrayLoop]
    refine .bind_lift (peek_extends ctx) ?_
    rintro ⟨type, ctx₁⟩
    refine .ite (fun _ => .pure rfl) fun _ => ?_
    refine .bind_eq (ih.value ctx₁ valueNew) ?_
    rintro ⟨ctx₂, w⟩
    refine .bind_same fun v' => ?_
    refine .bind_lift (nextIf_extends ctx₂ _) ?_
    rintro ⟨comma, ctx₃⟩
    exact .ite (fun _ => ih.elements ctx₃ v') fun _ => .pure rfl

theorem valueExtends (after : List UInt8) (h : fuel ≤ fuel') :
    ValueExtends after fuel fuel' := by
  induction fuel generalizing fuel' with
  | zero =>
    exact ⟨fun _ _ => trivial, fun _ _ _ _ => trivial, fun _ _ => trivial, fun _ _ => trivial,
      fun _ _ => trivial, fun _ _ => trivial⟩
  | succ fuel ih =>
    obtain ⟨fuel', rfl⟩ : ∃ n, fuel' = n + 1 := ⟨fuel' - 1, by omega⟩
    have hle : fuel ≤ fuel' := by omega
    exact (ih hle).succ hle

/-- **The outcome does not depend on what is behind the text**, nor on the number of steps, if the
run on the text alone has an outcome that is not a fault of memory. -/
theorem xjilParseMem_extends (h : fuel ≤ fuel') (v : Value) (b : List UInt8) (len : ℕ)
    {r : Except Fault (ℤ × Value)} (hrun : (xjilParseMem fuel v b len).run = some r)
    (hr : r ≠ .error .badAccess) (after : List UInt8) :
    (xjilParseMem fuel' v (b ++ after) len).run = some r := by
  have hsim : Simulates Reported Eq (xjilParseMem fuel v b len)
      (xjilParseMem fuel' v (b ++ after) len) := by
    refine .ite (fun _ => .pure rfl) fun _ => ?_
    refine .bind_eq ((valueExtends after h).value ⟨b, 0, 1, 0, []⟩ v) ?_
    rintro ⟨_, v'⟩
    exact .pure rfl
  refine hsim.run_eq (fun _ _ heq => heq) hrun fun e he => ?_
  rintro rfl
  exact hr he

end

/-! ## The parser ends -/

/-- How much remains of the text. -/
def Context.left (ctx : Context) : ℕ := ctx.src.length - ctx.pos.toNat

/-- The second context is in the same text, and at least `n` characters have been read. -/
def Past (ctx : Context) (n : ℕ) (ctx' : Context) : Prop :=
  ctx'.src = ctx.src ∧ ctx'.left + n ≤ ctx.left

section

variable {ctx ctx₁ ctx₂ : Context} {type type' : TokenType} {n m : ℕ}

theorem Past.trans (h : Past ctx n ctx₁) (h' : Past ctx₁ m ctx₂) : Past ctx (n + m) ctx₂ :=
  ⟨h'.1.trans h.1, by have := h.2; have := h'.2; omega⟩

theorem Past.mono (h : Past ctx n ctx₁) (hle : m ≤ n) : Past ctx m ctx₁ :=
  ⟨h.1, by have := h.2; omega⟩

theorem past_refl (ctx : Context) : Past ctx 0 ctx := ⟨rfl, le_rfl⟩

theorem next_inv (h : next ctx = .ok (type, ctx₁)) :
    ∃ s line rest, (0 ≤ ctx.pos ∧ ctx.pos ≤ ctx.src.length) ∧
      skipBlanks false (ctx.src.drop ctx.pos.toNat) ctx.line = .ok (s, line) ∧
      lexToken s ctx.num ctx.str = .ok (type, rest, ctx₁.num, ctx₁.str) ∧
      ctx₁.src = ctx.src ∧ ctx₁.pos = toInt32 (ctx.src.length - rest.length) := by
  obtain ⟨_, hin, h⟩ := bind_eq_ok.mp h
  obtain ⟨⟨s, line⟩, hskip, h⟩ := bind_eq_ok.mp h
  obtain ⟨⟨type', rest, num, str⟩, hlex, h⟩ := bind_eq_ok.mp h
  cases h
  exact ⟨s, line, rest, access_eq_ok.mp hin, hskip, hlex, rfl, rfl⟩

theorem next_past (hlen : ctx.src.length < 2 ^ 31) (h : next ctx = .ok (type, ctx₁)) :
    Past ctx (if type = .max then 0 else 1) ctx₁ := by
  obtain ⟨s, line, rest, hin, hskip, hlex, hsrc, hpos⟩ := next_inv h
  have hs := (skipBlanks_suffix hskip).length_le
  rw [List.length_drop] at hs
  have hrest : rest.length + (if type = .max then 0 else 1) ≤ s.length := by
    rcases lexToken_suffix hlex with ⟨-, rfl, rfl⟩ | ⟨c, t, -, rfl, hsuffix⟩
    · exact le_rfl
    · have hle := hsuffix.length_le
      rw [List.length_cons]
      split_ifs <;> omega
  rw [toInt32_of_lt (by omega) (by omega)] at hpos
  refine ⟨hsrc, ?_⟩
  rw [Context.left, Context.left, hsrc, hpos]
  omega

theorem peek_past (h : peek ctx = .ok (type, ctx₁)) : Past ctx 0 ctx₁ := by
  obtain ⟨⟨t, ctx₂⟩, hnext, h⟩ := bind_eq_ok.mp h
  cases h
  obtain ⟨_, _, _, _, _, _, hsrc, _⟩ := next_inv hnext
  refine ⟨hsrc, ?_⟩
  rw [Context.left, Context.left, hsrc]
  exact le_rfl

theorem expect_past (hlen : ctx.src.length < 2 ^ 31) (htype : type ≠ .max)
    (h : expect ctx type = .ok ctx₁) : Past ctx 1 ctx₁ := by
  obtain ⟨⟨t, ctx₂⟩, hnext, h⟩ := bind_eq_ok.mp h
  dsimp only at h
  split_ifs at h with ht
  cases h
  have hpast := next_past hlen hnext
  rwa [not_not.mp ht, if_neg htype] at hpast

theorem nextIf_past {b : Bool} (hlen : ctx.src.length < 2 ^ 31) (htype : type ≠ .max)
    (h : nextIf ctx type = .ok (b, ctx₁)) : Past ctx (if b then 1 else 0) ctx₁ := by
  obtain ⟨⟨t, ctx₂⟩, hnext, h⟩ := bind_eq_ok.mp h
  dsimp only at h
  split_ifs at h with ht
  · cases h
    obtain ⟨_, _, _, _, _, _, hsrc, _⟩ := next_inv hnext
    refine ⟨hsrc, ?_⟩
    rw [Context.left, Context.left, hsrc]
    exact le_rfl
  · cases h
    have hpast := next_past hlen hnext
    rwa [not_not.mp ht, if_neg htype] at hpast

theorem next_past_of_peek (hlen : ctx.src.length < 2 ^ 31) (hpeek : peek ctx = .ok (type, ctx₁))
    (htype : type ≠ .max) (h : next ctx₁ = .ok (type', ctx₂)) : Past ctx₁ 1 ctx₂ := by
  obtain ⟨⟨t, ctx₃⟩, hnext, hpeek⟩ := bind_eq_ok.mp hpeek
  cases hpeek
  obtain ⟨s, line, rest, -, hskip, hlex, hsrc, -⟩ := next_inv hnext
  obtain ⟨s', line', rest', hin, hskip', hlex', hsrc', hpos⟩ := next_inv h
  dsimp only at hin hskip' hlex' hsrc' hpos
  rw [hsrc, hskip] at hskip'
  cases hskip'
  -- both read the same character, and the first one was not the end of the text
  obtain ⟨c, u, hc, rfl, -⟩ := (lexToken_suffix hlex).resolve_left fun h => htype h.2.1
  obtain ⟨c', t', -, he, hrest⟩ := (lexToken_suffix hlex').resolve_left fun h =>
    hc (Option.some.inj h.1)
  cases he
  have hle := hrest.length_le
  have hs := (skipBlanks_suffix hskip).length_le
  rw [List.length_drop, List.length_cons] at hs
  rw [hsrc] at hpos
  rw [toInt32_of_lt (by omega) (by omega)] at hpos
  refine ⟨hsrc', ?_⟩
  rw [Context.left, Context.left, hsrc', hpos]
  dsimp only
  rw [hsrc]
  omega

end

/-- The functions for expressions end. -/
structure ExpHalts (fuel : ℕ) : Prop where
  factor : ∀ ctx : Context, ctx.src.length < 2 ^ 31 → 3 * ctx.left + 1 ≤ fuel →
    Halts (fun r => Past ctx 1 r.2) (parserFactor fuel ctx)
  term : ∀ ctx : Context, ctx.src.length < 2 ^ 31 → 3 * ctx.left + 2 ≤ fuel →
    Halts (fun r => Past ctx 1 r.2) (parserTerm fuel ctx)
  termLoop : ∀ (ctx : Context) type value, ctx.src.length < 2 ^ 31 → 3 * ctx.left + 2 ≤ fuel →
    Halts (fun r => Past ctx 0 r.2) (termLoop fuel ctx type value)
  exp : ∀ ctx : Context, ctx.src.length < 2 ^ 31 → 3 * ctx.left + 3 ≤ fuel →
    Halts (fun r => Past ctx 1 r.2) (parserExp fuel ctx)
  expLoop : ∀ (ctx : Context) type value, ctx.src.length < 2 ^ 31 → 3 * ctx.left + 3 ≤ fuel →
    Halts (fun r => Past ctx 0 r.2) (expLoop fuel ctx type value)

variable {ctx' ctx₁ : Context} {type : TokenType} {n : ℕ}

section

variable {fuel : ℕ} {ctx : Context}

theorem Past.length_lt (h : Past ctx n ctx') (hlen : ctx.src.length < 2 ^ 31) :
    ctx'.src.length < 2 ^ 31 := by
  rw [h.1]
  exact hlen

theorem halts_peek (ctx : Context) :
    Halts (fun r => Past ctx 0 r.2) (liftM (peek ctx) : Parse (TokenType × Context)) :=
  .lift fun _ h => peek_past h

theorem halts_next (hlen : ctx.src.length < 2 ^ 31) :
    Halts (fun r => Past ctx 0 r.2) (liftM (next ctx) : Parse (TokenType × Context)) :=
  .lift fun _ h => (next_past hlen h).mono (Nat.zero_le _)

theorem halts_expect (hlen : ctx.src.length < 2 ^ 31) (htype : type ≠ .max) :
    Halts (Past ctx 1) (liftM (expect ctx type) : Parse Context) :=
  .lift fun _ h => expect_past hlen htype h

theorem halts_nextIf (hlen : ctx.src.length < 2 ^ 31) (htype : type ≠ .max) :
    Halts (fun r => Past ctx (if r.1 then 1 else 0) r.2)
      (liftM (nextIf ctx type) : Parse (Bool × Context)) :=
  .lift fun _ h => nextIf_past hlen htype h

theorem halts_peek_loop (loop : Context → TokenType → Parse (ℤ × Context)) (hpast : Past ctx n ctx₁)
    (hloop : ∀ ctx₂ type, Past ctx n ctx₂ → Halts (fun r => Past ctx₂ 0 r.2) (loop ctx₂ type)) :
    Halts (fun r => Past ctx n r.2)
      ((liftM (peek ctx₁) : Parse (TokenType × Context)) >>= fun r => loop r.2 r.1) :=
  (halts_peek ctx₁).bind fun r hr => (hloop r.2 r.1 (hpast.trans hr)).imp fun _ hr' =>
    (hpast.trans hr).trans hr'

theorem ExpHalts.succ (ih : ExpHalts fuel) : ExpHalts (fuel + 1) where
  factor ctx hlen hfuel := by
    rw [parserFactor]
    refine Halts.bind (Halts.lift fun r (h : peek ctx = .ok r) => h) ?_
    rintro ⟨type, ctx₁⟩ hpeek
    have hpast := peek_past hpeek
    have hlen₁ := hpast.length_lt hlen
    dsimp only
    split_ifs with hopen hnum
    · refine (halts_expect hlen₁ (by decide)).bind fun ctx₂ hpast₂ => ?_
      have hlen₂ := hpast₂.length_lt hlen₁
      have hleft := (hpast.trans hpast₂).2
      refine (ih.exp ctx₂ hlen₂ (by omega)).bind ?_
      rintro ⟨value, ctx₃⟩ (hpast₃ : Past ctx₂ 1 ctx₃)
      refine (halts_expect (hpast₃.length_lt hlen₂) (by decide)).bind fun ctx₄ hpast₄ => ?_
      exact .pure (((hpast.trans hpast₂).trans (hpast₃.trans hpast₄)).mono (by omega))
    · refine Halts.bind (Halts.lift fun r (h : next ctx₁ = .ok r) => h) ?_
      rintro ⟨type', ctx₂⟩ hnext
      have hpast₂ := next_past_of_peek hlen hpeek (by rw [hnum]; decide) hnext
      exact .pure ((hpast.trans hpast₂).mono (by omega))
    · exact .throw _
  term ctx hlen hfuel := by
    rw [parserTerm]
    refine (ih.factor ctx hlen (by omega)).bind ?_
    rintro ⟨value, ctx₁⟩ hpast
    refine halts_peek_loop (Xjil.termLoop fuel · · value) hpast fun ctx₂ type hpast₂ => ?_
    have hleft := hpast₂.2
    exact ih.termLoop ctx₂ type _ (hpast₂.length_lt hlen) (by omega)
  termLoop ctx type value hlen hfuel := by
    rw [Xjil.termLoop]
    refine .ite (fun _ => .pure (past_refl ctx)) fun _ => (halts_next hlen).bind ?_
    rintro ⟨_, ctx₁⟩ (hpast₁ : Past ctx 0 ctx₁)
    have hleft₁ := hpast₁.2
    refine (ih.factor ctx₁ (hpast₁.length_lt hlen) (by omega)).bind ?_
    rintro ⟨v, ctx₁⟩ hpast
    refine .ite (fun _ => .throw _) fun _ => ?_
    refine (halts_peek_loop (Xjil.termLoop fuel · · _) (hpast₁.trans hpast)
      fun ctx₂ type' hpast₂ => ?_).imp fun r hr => hr.mono (Nat.zero_le _)
    have hleft := hpast₂.2
    exact ih.termLoop ctx₂ type' _ (hpast₂.length_lt hlen) (by omega)
  exp ctx hlen hfuel := by
    rw [parserExp]
    refine (ih.term ctx hlen (by omega)).bind ?_
    rintro ⟨value, ctx₁⟩ hpast
    refine halts_peek_loop (Xjil.expLoop fuel · · value) hpast fun ctx₂ type hpast₂ => ?_
    have hleft := hpast₂.2
    exact ih.expLoop ctx₂ type _ (hpast₂.length_lt hlen) (by omega)
  expLoop ctx type value hlen hfuel := by
    rw [Xjil.expLoop]
    refine .ite (fun _ => .pure (past_refl ctx)) fun _ => (halts_next hlen).bind ?_
    rintro ⟨_, ctx₁⟩ (hpast₁ : Past ctx 0 ctx₁)
    have hleft₁ := hpast₁.2
    refine (ih.term ctx₁ (hpast₁.length_lt hlen) (by omega)).bind ?_
    rintro ⟨v, ctx₁⟩ hpast
    refine (halts_peek_loop (Xjil.expLoop fuel · · _) (hpast₁.trans hpast)
      fun ctx₂ type' hpast₂ => ?_).imp fun r hr => hr.mono (Nat.zero_le _)
    have hleft := hpast₂.2
    exact ih.expLoop ctx₂ type' _ (hpast₂.length_lt hlen) (by omega)

theorem expHalts (fuel : ℕ) : ExpHalts fuel := by
  induction fuel with
  | zero => constructor <;> intros <;> omega
  | succ fuel ih => exact ih.succ

end

/-- The functions for values end. -/
structure ValueHalts (fuel : ℕ) : Prop where
  value : ∀ (ctx : Context) v, ctx.src.length < 2 ^ 31 → 4 * ctx.left + 6 ≤ fuel →
    Halts (fun r => Past ctx 0 r.1) (parserValue fuel ctx v)
  body : ∀ (ctx : Context) v type tag, ctx.src.length < 2 ^ 31 → 4 * ctx.left + 5 ≤ fuel →
    Halts (fun r => Past ctx 0 r.1) (parserBody fuel ctx v type tag)
  object : ∀ (ctx : Context) v, ctx.src.length < 2 ^ 31 → 4 * ctx.left + 4 ≤ fuel →
    Halts (fun r => Past ctx 0 r.1) (parserObject fuel ctx v)
  members : ∀ (ctx : Context) v, ctx.src.length < 2 ^ 31 → 4 * ctx.left + 7 ≤ fuel →
    Halts (fun r => Past ctx 0 r.1) (objectLoop fuel ctx v)
  array : ∀ (ctx : Context) v, ctx.src.length < 2 ^ 31 → 4 * ctx.left + 4 ≤ fuel →
    Halts (fun r => Past ctx 0 r.1) (parserArray fuel ctx v)
  elements : ∀ (ctx : Context) v, ctx.src.length < 2 ^ 31 → 4 * ctx.left + 7 ≤ fuel →
    Halts (fun r => Past ctx 0 r.1) (arrayLoop fuel ctx v)

section

variable {fuel : ℕ} {ctx : Context}

theorem halts_from {α : Type} {x : Parse (Context × α)} (h : Halts (fun r => Past ctx₁ 0 r.1) x)
    (hpast : Past ctx n ctx₁) :
    Halts (fun r => Past ctx 0 r.1) x :=
  h.imp fun _ hr => (hpast.trans hr).mono (Nat.zero_le _)

theorem parserTag_past {v v' : Value} (hlen : ctx.src.length < 2 ^ 31)
    (h : parserTag ctx v = .ok (ctx', v')) : Past ctx 0 ctx' := by
  obtain ⟨ctx₁, hlt, h⟩ := bind_eq_ok.mp h
  obtain ⟨ctx₂, hid, h⟩ := bind_eq_ok.mp h
  obtain ⟨ctx₃, hgt, h⟩ := bind_eq_ok.mp h
  cases h
  have hpast₁ := expect_past hlen (by decide) hlt
  have hlen₁ := hpast₁.length_lt hlen
  have hpast₂ := expect_past hlen₁ (by decide) hid
  have hpast₃ := expect_past (hpast₂.length_lt hlen₁) (by decide) hgt
  exact (hpast₁.trans (hpast₂.trans hpast₃)).mono (Nat.zero_le _)

theorem halts_comma {v : Value} (loop : Context → Parse (Context × Value))
    (hlen : ctx.src.length < 2 ^ 31) (hpast : Past ctx 0 ctx₁)
    (hloop : ∀ ctx₂, Past ctx 1 ctx₂ → Halts (fun r => Past ctx₂ 0 r.1) (loop ctx₂)) :
    Halts (fun r => Past ctx 0 r.1)
      ((liftM (nextIf ctx₁ .comma) : Parse (Bool × Context)) >>= fun r =>
        if r.1 then loop r.2 else pure (r.2, v)) := by
  refine (halts_nextIf (hpast.length_lt hlen) (by decide)).bind ?_
  rintro ⟨comma, ctx₂⟩ (hpast₂ : Past ctx₁ (if comma then 1 else 0) ctx₂)
  cases comma with
  | true => exact halts_from (hloop ctx₂ (hpast.trans hpast₂)) (hpast.trans hpast₂)
  | false => exact .pure (hpast.trans hpast₂)

theorem halts_brackets {opening closing : TokenType} {loop : Context → Parse (Context × Value)}
    (hlen : ctx.src.length < 2 ^ 31) (hopening : opening ≠ .max) (hclosing : closing ≠ .max)
    (hloop : ∀ ctx₁, Past ctx 1 ctx₁ → Halts (fun r => Past ctx₁ 0 r.1) (loop ctx₁)) :
    Halts (fun r => Past ctx 0 r.1) (do
      let ctx₁ ← (liftM (expect ctx opening) : Parse Context)
      let (ctx₂, v) ← loop ctx₁
      let ctx₃ ← (liftM (expect ctx₂ closing) : Parse Context)
      return (ctx₃, v)) := by
  refine (halts_expect hlen hopening).bind fun ctx₁ hpast₁ => (hloop ctx₁ hpast₁).bind ?_
  rintro ⟨ctx₂, v'⟩ (hpast₂ : Past ctx₁ 0 ctx₂)
  have hpast := hpast₁.trans hpast₂
  refine (halts_expect (hpast.length_lt hlen) hclosing).bind fun ctx₃ hpast₃ => ?_
  exact .pure ((hpast.trans hpast₃).mono (Nat.zero_le _))

theorem ValueHalts.succ (ih : ValueHalts fuel) : ValueHalts (fuel + 1) where
  value ctx v hlen hfuel := by
    rw [parserValue]
    refine (halts_peek ctx).bind ?_
    rintro ⟨type, ctx₁⟩ (hpast₁ : Past ctx 0 ctx₁)
    have hlen₁ := hpast₁.length_lt hlen
    have hleft₁ := hpast₁.2
    dsimp only
    split_ifs
    · have htag : Halts (fun r => Past ctx₁ 0 r.1) (liftM (parserTag ctx₁ v) : Parse _) :=
        .lift fun _ h => parserTag_past hlen₁ h
      refine htag.bind ?_
      rintro ⟨ctx₂, v'⟩ (hpast₂ : Past ctx₁ 0 ctx₂)
      refine (halts_peek ctx₂).bind ?_
      rintro ⟨type', ctx₃⟩ (hpast₃ : Past ctx₂ 0 ctx₃)
      have hpast := hpast₁.trans (hpast₂.trans hpast₃)
      have hleft := hpast.2
      exact halts_from (ih.body ctx₃ v' type' true (hpast.length_lt hlen) (by omega)) hpast
    · exact halts_from (ih.body ctx₁ v type false hlen₁ (by omega)) hpast₁
  body ctx v type tag hlen hfuel := by
    have hinit : ∀ (w : Value) (t : ValueType) {f : Value → Parse (Context × Value)},
        (∀ w', Halts (fun r => Past ctx 0 r.1) (f w')) →
        Halts (fun r => Past ctx 0 r.1) ((liftM (valueInit w t) : Parse Value) >>= f) :=
      fun w t _ hf => Halts.bind (Halts.lift fun _ _ => trivial) fun w' (_ : True) => hf w'
    rw [parserBody]
    split_ifs
    · refine hinit _ _ fun v₁ => (ih.object ctx v₁ hlen (by omega)).bind ?_
      rintro ⟨ctx₂, v₂⟩ (hpast₂ : Past ctx 0 ctx₂)
      refine (halts_peek ctx₂).bind ?_
      rintro ⟨type', ctx₃⟩ (hpast₃ : Past ctx₂ 0 ctx₃)
      have hpast := hpast₂.trans hpast₃
      have hleft := hpast.2
      dsimp only
      split_ifs
      · refine hinit _ _ fun v₃ => ?_
        exact halts_from (ih.array ctx₃ v₃ (hpast.length_lt hlen) (by omega)) hpast
      · exact .pure hpast
    · exact hinit _ _ fun v₁ => ih.array ctx v₁ hlen (by omega)
    · refine hinit _ _ fun v₁ => ?_
      refine ((expHalts fuel).exp ctx hlen (by omega)).bind ?_
      rintro ⟨num, ctx₂⟩ (hpast₂ : Past ctx 1 ctx₂)
      exact .pure (hpast₂.mono (Nat.zero_le _))
    · refine hinit _ _ fun v₁ => (halts_next hlen).bind ?_
      rintro ⟨_, ctx₂⟩ hpast₂
      exact .pure hpast₂
    · refine hinit _ _ fun v₁ => (halts_next hlen).bind ?_
      rintro ⟨_, ctx₂⟩ hpast₂
      exact .pure hpast₂
    · exact .pure (past_refl ctx)
    · exact .throw _
  object ctx v hlen hfuel := by
    rw [parserObject]
    refine halts_brackets hlen (by decide) (by decide) fun ctx₁ hpast₁ => ?_
    have hleft₁ := hpast₁.2
    exact ih.members ctx₁ v (hpast₁.length_lt hlen) (by omega)
  members ctx v hlen hfuel := by
    rw [objectLoop]
    refine (halts_peek ctx).bind ?_
    rintro ⟨type, ctx₁⟩ (hpast₁ : Past ctx 0 ctx₁)
    have hlen₁ := hpast₁.length_lt hlen
    dsimp only
    split_ifs
    · exact .pure hpast₁
    refine (halts_expect hlen₁ (by decide)).bind fun ctx₂ hpast₂ => ?_
    have hlen₂ := hpast₂.length_lt hlen₁
    refine (halts_expect hlen₂ (by decide)).bind fun ctx₃ hpast₃ => ?_
    have hlen₃ := hpast₃.length_lt hlen₂
    have hpast := hpast₁.trans (hpast₂.trans hpast₃)
    have hleft := hpast.2
    refine (ih.value ctx₃ valueNew hlen₃ (by omega)).bind ?_
    rintro ⟨ctx₄, w⟩ (hpast₄ : Past ctx₃ 0 ctx₄)
    refine Halts.bind (Halts.lift fun _ _ => trivial) fun v' (_ : True) => ?_
    have hpast₀ : Past ctx 0 ctx₄ := (hpast.trans hpast₄).mono (Nat.zero_le _)
    refine halts_comma (objectLoop fuel · v') hlen hpast₀ fun ctx₅ hpast₅ => ?_
    have hleft₅ := hpast₅.2
    exact ih.members ctx₅ v' (hpast₅.length_lt hlen) (by omega)
  array ctx v hlen hfuel := by
    rw [parserArray]
    refine halts_brackets hlen (by decide) (by decide) fun ctx₁ hpast₁ => ?_
    have hleft₁ := hpast₁.2
    exact ih.elements ctx₁ v (hpast₁.length_lt hlen) (by omega)
  elements ctx v hlen hfuel := by
    rw [arrayLoop]
    refine (halts_peek ctx).bind ?_
    rintro ⟨type, ctx₁⟩ (hpast₁ : Past ctx 0 ctx₁)
    have hlen₁ := hpast₁.length_lt hlen
    have hleft₁ := hpast₁.2
    dsimp only
    split_ifs
    · exact .pure hpast₁
    refine (ih.value ctx₁ valueNew hlen₁ (by omega)).bind ?_
    rintro ⟨ctx₂, w⟩ (hpast₂ : Past ctx₁ 0 ctx₂)
    refine Halts.bind (Halts.lift fun _ _ => trivial) fun v' (_ : True) => ?_
    refine halts_comma (arrayLoop fuel · v') hlen (hpast₁.trans hpast₂) fun ctx₃ hpast₃ => ?_
    have hleft₃ := hpast₃.2
    exact ih.elements ctx₃ v' (hpast₃.length_lt hlen) (by omega)

theorem valueHalts (fuel : ℕ) : ValueHalts fuel := by
  induction fuel with
  | zero => constructor <;> intros <;> omega
  | succ fuel ih => exact ih.succ

/-- **The parser ends** on fewer than `2 ^ 31` bytes, after a number of steps that is linear in
their number. -/
theorem xjilParseMem_halts (v : Value) {mem : List UInt8} (hlen : mem.length < 2 ^ 31) (len : ℕ)
    (hfuel : 4 * mem.length + 6 ≤ fuel) : ∃ r, (xjilParseMem fuel v mem len).run = some r := by
  have hhalts : Halts (fun _ => True) (xjilParseMem fuel v mem len) := by
    unfold xjilParseMem
    split_ifs
    · exact .pure trivial
    · exact ((valueHalts fuel).value ⟨mem, 0, 1, 0, []⟩ v hlen hfuel).bind fun _ _ => .pure trivial
  exact hhalts.exists_run

end

/-! ## Staying inside -/

/-- The parser reads nothing behind the text `b`, and it ends with a value or with a syntax error:
whatever is behind the text, the outcome is the same. -/
def StaysInside (v : Value) (b : List UInt8) : Prop :=
  ∃ r : Except Fault (ℤ × Value), r ≠ .error .badAccess ∧ ∃ k, ∀ fuel, k ≤ fuel →
    ∀ after, (xjilParseMem fuel v (b ++ after) b.length).run = some r

example : StaysInside valueNew [91, 93] := by
  have hrun : (xjilParseMem 4 valueNew [91, 93] 2).run =
      some (.ok (0, ⟨.arr (.new 1), none, none, ValueType.array.code⟩)) := rfl
  have hok : (.ok (0, ⟨.arr (.new 1), none, none, ValueType.array.code⟩) :
      Except Fault (ℤ × Value)) ≠ .error .badAccess := nofun
  exact ⟨_, hok, 4, fun _ hfuel after => xjilParseMem_extends hfuel _ _ _ hrun hok after⟩

theorem xjilParseMem_num {s : List UInt8} (hs : IsLiteral s n) (hn : n < 2 ^ 64)
    (hlen : s.length < 2 ^ 31) (fuel : ℕ) :
    (xjilParseMem (fuel + 5) valueNew (s ++ [0]) 1).run = some (.ok (0, numberValue n)) := by
  have hat : Context.At ⟨s ++ [0], 0, 1, 0, []⟩ [.num n] := by
    have hstops : StopsNumber [0] := ⟨0, [], rfl, rfl⟩
    have hend : Ahead [] [0] := fun line => ⟨[], line, skipBlanks_nul [] line⟩
    refine ⟨?_, s ++ [0], ⟨[], rfl, rfl⟩, [0], reads_num hs hn hstops, hend⟩
    rw [List.length_append, List.length_singleton]
    omega
  have hnum : ∃ ctx' v, parserValue (fuel + 5) ⟨s ++ [0], 0, 1, 0, []⟩ valueNew = pure (ctx', v) ∧
      ctx'.At [] ∧ v = numberValue n := parserValue_num hat trivial
  obtain ⟨ctx', v, hval, _, rfl⟩ := hnum
  rw [xjilParseMem, if_neg (by decide), hval, pure_bind]
  rfl

end Ginkgo.Xjil
