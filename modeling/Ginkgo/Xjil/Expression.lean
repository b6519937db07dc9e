import Ginkgo.Xjil.RoundTrip

/-!
# Constant expressions

Expressions over numbers with `+`, `-`, `*` and `/`.  A text of an expression has parentheses where
the precedence of the operators or their associativity to the left requires them, further ones
around any part, and blanks before any token.  `parser_exp` evaluates every text of an expression
and stops where it ends.

The functions of the parser look one token ahead.  `parser_term` and `parser_exp` read operands and
operators in loops, so what is proved about a part of an expression is the state in which it leaves
the loop that has read it, not the value that the loop returns.

## Main results

* `parserExp_renders` — `parser_exp` evaluates every text of an expression.
* `Exp.renders_print` — every expression has a text.
-/

namespace Ginkgo.Xjil

open Libc

/-! ## Expressions -/

/-- The operators. -/
inductive Op
  | add | sub | mul | div
deriving DecidableEq

namespace Op

/-- How an operator is written. -/
def char : Op → UInt8
  | add => 43
  | sub => 45
  | mul => 42
  | div => 47

/-- The token of an operator. -/
def type : Op → TokenType
  | add => .plus
  | sub => .minus
  | mul => .mul
  | div => .div

/-- The value of an operation; the quotient is rounded towards zero. -/
def apply : Op → ℤ → ℤ → ℤ
  | add, x, y => x + y
  | sub, x, y => x - y
  | mul, x, y => x * y
  | div, x, y => x.tdiv y

end Op

/-- Expressions. -/
inductive Exp
  | lit (n : ℕ)
  | bin (op : Op) (l r : Exp)

/-- The values of an `int`. -/
def InInt (x : ℤ) : Prop := -2 ^ 31 ≤ x ∧ x < 2 ^ 31

namespace Exp

/-- The value of an expression. -/
def eval : Exp → ℤ
  | lit n => n
  | bin op l r => op.apply l.eval r.eval

/-- Every number and every intermediate value is an `int`, and no divisor is zero. -/
def Fits : Exp → Prop
  | lit n => n < 2 ^ 31
  | bin op l r => l.Fits ∧ r.Fits ∧ (op = .div → r.eval ≠ 0) ∧ InInt (op.apply l.eval r.eval)

end Exp

/-! ## Texts of expressions -/

/-- The functions of the parser that read expressions. -/
inductive Level
  | exp | term | factor
deriving DecidableEq

/-- The function whose loop reads an operator. -/
def Op.level : Op → Level
  | add | sub => .exp
  | mul | div => .term

/-- The function that reads the operand after an operator. -/
def Level.below : Level → Level
  | exp => term
  | term | factor => factor

/-- Blanks and newlines. -/
def IsBlank (b : List UInt8) : Prop := ∀ c ∈ b, c = 9 ∨ c = 10 ∨ c = 13 ∨ c = 32

/-- The texts of an expression that the function of a level reads. -/
inductive Renders : Level → Exp → List UInt8 → Prop
  | lit {n : ℕ} {b s : List UInt8} (hb : IsBlank b) (hs : IsLiteral s n) :
    Renders .factor (.lit n) (b ++ s)
  | paren {e : Exp} {b s b' : List UInt8} (hb : IsBlank b) (hs : Renders .exp e s)
    (hb' : IsBlank b') : Renders .factor e (b ++ 40 :: (s ++ (b' ++ [41])))
  | factor {e : Exp} {s : List UInt8} (hs : Renders .factor e s) : Renders .term e s
  | term {e : Exp} {s : List UInt8} (hs : Renders .term e s) : Renders .exp e s
  | bin {op : Op} {l r : Exp} {s b t : List UInt8} (hs : Renders op.level l s) (hb : IsBlank b)
    (ht : Renders op.level.below r t) : Renders op.level (.bin op l r) (s ++ (b ++ op.char :: t))

/-- What follows a text does not continue the number it ends with. -/
def Ends (text rest : List UInt8) : Prop :=
  (∃ c ∈ text.getLast?, isalnum c = true) → StopsNumber rest

/-- The next token can be read, and it is no operator. -/
def NoOperator (rest : List UInt8) : Prop :=
  ∃ (tok : Token) (rest' : List UInt8), tok.Reads rest rest' ∧ ∀ op : Op, tok.type ≠ op.type

/-! ### Tokens -/

theorem IsBlank.blanks {b : List UInt8} (h : IsBlank b) : Blanks b := by
  induction b with
  | nil => exact .nil
  | cons c b ih =>
    exact .blank (h c List.mem_cons_self) (ih fun d hd => h d (List.mem_cons_of_mem c hd))

variable {s rest : List UInt8}

theorem reads_blanks {tok : Token} {b : List UInt8} (hb : IsBlank b) (h : tok.Reads s rest) :
    tok.Reads (b ++ s) rest := by
  intro line num str
  obtain ⟨line', hskip⟩ := skipBlanks_blanks hb.blanks s line
  rw [hskip]
  exact h line' num str

theorem reads_div {c : UInt8} (hc : c ≠ 47) :
    (Token.sym .div).Reads (47 :: c :: rest) (c :: rest) := by
  intro line num str
  refine ⟨47 :: c :: rest, line, num, str, ?_, rfl, trivial⟩
  simp [skipBlanks, hc]

theorem reads_op (op : Op) {c : UInt8} (hc : c ≠ 47) :
    (Token.sym op.type).Reads (op.char :: c :: rest) (c :: rest) := by
  cases op with
  | add => exact reads_sym rfl _
  | sub => exact reads_sym rfl _
  | mul => exact reads_sym rfl _
  | div => exact reads_div hc

/-! ### The ends of texts -/

theorem IsLiteral.head {n : ℕ} (h : IsLiteral s n) :
    ∃ c t, s = c :: t ∧ isdigit c = true := by
  cases h with
  | inl hdec =>
    obtain ⟨hdigits, _, hs⟩ := hdec
    rcases hs with rfl | ⟨c, t, rfl, _⟩
    · exact ⟨48, [], rfl, by decide⟩
    · exact ⟨c, t, rfl, hdigits c List.mem_cons_self⟩
  | inr hhex =>
    obtain ⟨x, digits, _, _, _, rfl⟩ := hhex
    exact ⟨48, x :: digits, rfl, by decide⟩

theorem IsLiteral.last {n : ℕ} (h : IsLiteral s n) :
    ∃ c ∈ s.getLast?, isalnum c = true := by
  obtain ⟨c₀, t₀, hs₀, _⟩ := h.head
  have hne : s ≠ [] := by
    rw [hs₀]
    exact List.cons_ne_nil _ _
  refine ⟨s.getLast hne, List.getLast?_eq_some_getLast hne, ?_⟩
  cases h with
  | inl hdec =>
    rw [isalnum, hdec.1 _ (List.getLast_mem hne), Bool.or_true]
  | inr hhex =>
    obtain ⟨x, digits, _, hdigits, hhex, rfl⟩ := hhex
    have hlast : (48 :: x :: digits).getLast hne = digits.getLast hdigits := by
      rw [List.getLast_cons (List.cons_ne_nil _ _), List.getLast_cons hdigits]
    rw [hlast]
    exact isalnum_of_isxdigit (hhex.1 _ (List.getLast_mem hdigits))

theorem ne_slash_of_blanks {b : List UInt8} (hb : IsBlank b) (hs : ∃ c t, s = c :: t ∧ c ≠ 47) :
    ∃ c t, b ++ s = c :: t ∧ c ≠ 47 := by
  cases b with
  | nil => exact hs
  | cons c b =>
    refine ⟨c, b ++ s, rfl, ?_⟩
    rintro rfl
    exact absurd (hb 47 List.mem_cons_self) (by decide)

variable {e : Exp} {level : Level}

theorem Renders.head (h : Renders level e s) :
    ∃ c t, s = c :: t ∧ c ≠ 47 := by
  induction h with
  | lit hb hs =>
    obtain ⟨c, t, hs, hc⟩ := hs.head
    exact ne_slash_of_blanks hb ⟨c, t, hs, (ne_of_isdigit hc).2.2.2.2.2⟩
  | paren hb _ _ _ => exact ne_slash_of_blanks hb ⟨40, _, rfl, by decide⟩
  | factor _ ih => exact ih
  | term _ ih => exact ih
  | bin _ _ _ ihs _ =>
    obtain ⟨c, t, rfl, hc⟩ := ihs
    exact ⟨c, _, rfl, hc⟩

theorem stopsNumber_blanks {b : List UInt8} {c : UInt8} (hb : IsBlank b) (hc : isalnum c = false) :
    StopsNumber (b ++ c :: rest) := by
  cases b with
  | nil => exact ⟨c, rest, rfl, hc⟩
  | cons d b =>
    refine ⟨d, b ++ c :: rest, rfl, ?_⟩
    rcases hb d List.mem_cons_self with rfl | rfl | rfl | rfl <;> rfl

theorem Op.isalnum_char (op : Op) : isalnum op.char = false := by
  cases op <;> rfl

theorem ends_of_append {t : List UInt8} (h : Ends (s ++ t) rest) : Ends t rest := by
  rintro ⟨c, hc, halnum⟩
  refine h ⟨c, ?_, halnum⟩
  rw [List.getLast?_append, Option.mem_def.mp hc]
  rfl

/-! ## Shortest texts -/

/-- The decimal digit of a number. -/
def digitChar (n : ℕ) : UInt8 := UInt8.ofNat (48 + n % 10)

/-- The decimal digits of a number. -/
def decimal (n : ℕ) : List UInt8 :=
  if n < 10 then [digitChar n] else decimal (n / 10) ++ [digitChar n]

theorem toNat_digitChar (n : ℕ) : (digitChar n).toNat = 48 + n % 10 := by
  rw [digitChar, UInt8.toNat_ofNat']
  omega

theorem isdigit_digitChar (n : ℕ) : isdigit (digitChar n) = true := by
  rw [isdigit_iff, toNat_digitChar]
  omega

theorem decimalValue_concat (s : List UInt8) (c : UInt8) (acc : ℕ) :
    decimalValue (s ++ [c]) acc = decimalValue s acc * 10 + (c.toNat - 48) := by
  induction s generalizing acc with
  | nil => rfl
  | cons d s ih => exact ih _

theorem isdigit_of_mem_decimal {n : ℕ} {c : UInt8} (h : c ∈ decimal n) : isdigit c = true := by
  fun_induction decimal n with
  | case1 n hn => exact List.mem_singleton.mp h ▸ isdigit_digitChar n
  | case2 n hn ih =>
    cases List.mem_append.mp h with
    | inl hmem => exact ih hmem
    | inr hmem => exact List.mem_singleton.mp hmem ▸ isdigit_digitChar n

theorem decimalValue_decimal (n : ℕ) : decimalValue (decimal n) 0 = n := by
  fun_induction decimal n with
  | case1 n hn =>
    rw [decimalValue, decimalValue, toNat_digitChar]
    omega
  | case2 n hn ih =>
    rw [decimalValue_concat, ih, toNat_digitChar]
    omega

theorem decimal_head {n : ℕ} (hpos : 0 < n) : ∃ c t, decimal n = c :: t ∧ c ≠ 48 := by
  fun_induction decimal n with
  | case1 n hn =>
    refine ⟨digitChar n, [], rfl, fun heq => ?_⟩
    have hnat := congrArg UInt8.toNat heq
    rw [toNat_digitChar] at hnat
    have h48 : (48 : UInt8).toNat = 48 := rfl
    omega
  | case2 n hn ih =>
    obtain ⟨c, t, heq, hc⟩ := ih (by omega)
    exact ⟨c, t ++ [digitChar n], by rw [heq, List.cons_append], hc⟩

theorem isDecimal_decimal (n : ℕ) : IsDecimal (decimal n) n := by
  refine ⟨fun c hc => isdigit_of_mem_decimal hc, decimalValue_decimal n, ?_⟩
  cases Nat.eq_zero_or_pos n with
  | inl hzero =>
    left
    rw [hzero, decimal]
    rfl
  | inr hpos => exact Or.inr (decimal_head hpos)

/-- The function of a level reads the operators of another one without parentheses. -/
def Level.admits : Level → Level → Bool
  | exp, _ => true
  | term, term | term, factor => true
  | factor, factor => true
  | _, _ => false

/-- The text of an expression with parentheses only where they are required. -/
def Exp.print : Level → Exp → List UInt8
  | _, lit n => decimal n
  | level, bin op l r =>
    let s := l.print op.level ++ op.char :: r.print op.level.below
    if level.admits op.level then s else 40 :: (s ++ [41])

theorem isBlank_nil : IsBlank [] := fun _ h => absurd h List.not_mem_nil

theorem Renders.weaken {level' : Level} (h : Renders level' e s)
    (hadmits : level.admits level' = true) : Renders level e s := by
  cases level with
  | exp =>
    cases level' with
    | exp => exact h
    | term => exact .term h
    | factor => exact .term (.factor h)
  | term =>
    cases level' with
    | exp => exact absurd hadmits (by decide)
    | term => exact h
    | factor => exact .factor h
  | factor =>
    cases level' with
    | exp | term => exact absurd hadmits (by decide)
    | factor => exact h

theorem Level.admits_factor (level : Level) : level.admits .factor = true := by
  cases level <;> rfl

/-- **Every expression has a text.** -/
theorem Exp.renders_print (e : Exp) (level : Level) : Renders level e (e.print level) := by
  induction e generalizing level with
  | lit n =>
    have hlit : Renders .factor (.lit n) ([] ++ decimal n) :=
      .lit isBlank_nil (.inl (isDecimal_decimal n))
    exact hlit.weaken level.admits_factor
  | bin op l r ihl ihr =>
    have hbin := Renders.bin (ihl op.level) isBlank_nil (ihr op.level.below)
    rw [Exp.print]
    by_cases hadmits : level.admits op.level = true
    · rw [if_pos hadmits]
      exact hbin.weaken hadmits
    · rw [if_neg hadmits]
      have hexp : Renders .exp (.bin op l r) _ := hbin.weaken rfl
      exact (Renders.paren isBlank_nil hexp isBlank_nil).weaken level.admits_factor

/-! ## Steps of the parser -/

section

variable {ctx : Context} {tok : Token} {s rest : List UInt8}

theorem peek_reads (h : ctx.Before s) (hreads : tok.Reads s rest) :
    ∃ ctx', peek ctx = .ok (tok.type, ctx') ∧ ctx'.Before s ∧ ctx'.src = ctx.src := by
  obtain ⟨s', line, num, str, hskip, hlex, _⟩ := hreads ctx.line ctx.num ctx.str
  refine ⟨⟨ctx.src, ctx.pos, ctx.line, num, str⟩, ?_, h, rfl⟩
  rw [peek, next_eq h hskip hlex]
  rfl

theorem expect_reads (h : ctx.Before s) (hreads : tok.Reads s rest)
    (hlt : ctx.src.length < 2 ^ 31 + rest.length) :
    ∃ ctx', expect ctx tok.type = .ok ctx' ∧ ctx'.Before rest ∧ ctx'.src = ctx.src := by
  obtain ⟨ctx', hnext, hbefore, _, hsrc⟩ := next_reads h hreads hlt
  refine ⟨ctx', ?_, hbefore, hsrc⟩
  rw [expect, hnext, Fallible.ok_bind]
  exact if_neg (not_not.mpr rfl)

end

/-- `parser_exp`, `parser_term` and `parser_factor`. -/
def Level.parser : Level → ℕ → Context → Parse (ℤ × Context)
  | exp => parserExp
  | term => parserTerm
  | factor => parserFactor

/-- What the function of a level does after it has read an expression with the given value. -/
def Level.after : Level → ℕ → Context → ℤ → Parse (ℤ × Context)
  | exp, fuel, ctx, value => do
    let (type, ctx) ← peek ctx
    expLoop fuel ctx type value
  | term, fuel, ctx, value => do
    let (type, ctx) ← peek ctx
    termLoop fuel ctx type value
  | factor, _, ctx, value => pure (value, ctx)

theorem toInt32_of_inInt {x : ℤ} (h : InInt x) : toInt32 x = x := toInt32_of_lt h.1 h.2

/-- The loop of the level, if it has one, ends: the next token can be read, and it is not one of the
operators of the level. -/
def Level.Stops (level : Level) (rest : List UInt8) : Prop :=
  level ≠ .factor → ∃ (tok : Token) (rest' : List UInt8), tok.Reads rest rest' ∧
    ∀ op : Op, op.level = level → tok.type ≠ op.type

section

variable {ctx ctx₁ ctx₂ ctx' : Context} {x y : ℤ} {op : Op} {rest : List UInt8} {fuel : ℕ}

theorem after_op (hpeek : peek ctx = .ok (op.type, ctx₁)) (hnext : next ctx₁ = .ok (op.type, ctx₂))
    (hoperand : op.level.below.parser fuel ctx₂ = pure (y, ctx')) (hzero : op = .div → y ≠ 0)
    (hint : InInt (op.apply x y)) :
    op.level.after (fuel + 1) ctx x = op.level.after fuel ctx' (op.apply x y) := by
  have hint := toInt32_of_inInt hint
  cases op with
  | add | sub =>
    simp only [Op.level, Level.below, Level.parser, Op.type, Op.apply] at hoperand hpeek hnext hint
    simp only [Op.level, Level.after, hpeek, lift_ok, pure_bind]
    rw [expLoop]
    simp [hnext, lift_ok, hoperand, hint, Op.apply]
  | mul | div =>
    simp only [Op.level, Level.below, Level.parser, Op.type, Op.apply] at hoperand hpeek hnext hint
    simp only [reduceCtorEq, false_implies, true_implies] at hzero
    simp only [Op.level, Level.after, hpeek, lift_ok, pure_bind]
    rw [termLoop]
    simp [hnext, lift_ok, hoperand, hint, hzero, Op.apply]

theorem after_stop (hctx : ctx.Before rest) (hrest : level.Stops rest) (x : ℤ) :
    ∃ ctx', (∀ fuel, level.after (fuel + 1) ctx x = pure (x, ctx')) ∧ ctx'.Before rest ∧
      ctx'.src = ctx.src := by
  cases level with
  | exp =>
    obtain ⟨tok, rest', hreads, hno⟩ := hrest (by decide)
    obtain ⟨ctx', hpeek, hbefore, hsrc⟩ := peek_reads hctx hreads
    refine ⟨ctx', fun fuel => ?_, hbefore, hsrc⟩
    have hplus : tok.type ≠ .plus := hno .add rfl
    have hminus : tok.type ≠ .minus := hno .sub rfl
    simp only [Level.after, hpeek, lift_ok, pure_bind]
    rw [expLoop, if_pos (not_or.mpr ⟨hplus, hminus⟩)]
  | term =>
    obtain ⟨tok, rest', hreads, hno⟩ := hrest (by decide)
    obtain ⟨ctx', hpeek, hbefore, hsrc⟩ := peek_reads hctx hreads
    refine ⟨ctx', fun fuel => ?_, hbefore, hsrc⟩
    have hmul : tok.type ≠ .mul := hno .mul rfl
    have hdiv : tok.type ≠ .div := hno .div rfl
    simp only [Level.after, hpeek, lift_ok, pure_bind]
    rw [termLoop, if_pos (not_or.mpr ⟨hmul, hdiv⟩)]
  | factor => exact ⟨ctx, fun _ => rfl, hctx, rfl⟩

end

/-! ## Texts are evaluated -/

/-- The function of a level reads the expression from the text, and goes on with its value. -/
def Parsed (level : Level) (e : Exp) (text : List UInt8) : Prop :=
  ∀ (rest : List UInt8) (ctx : Context), Ends text rest →
    (level = .exp → Level.term.Stops rest) → ctx.Before (text ++ rest) →
    ctx.src.length < 2 ^ 31 + rest.length →
    ∃ k j ctx', (∀ fuel, level.parser (fuel + k) ctx = level.after (fuel + j) ctx' e.eval) ∧
      ctx'.Before rest ∧ ctx'.src = ctx.src

section

variable {e l r : Exp} {b b' s t : List UInt8} {op : Op} {n : ℕ}

theorem parsed_lit (hb : IsBlank b) (hs : IsLiteral s n) (hn : n < 2 ^ 31) :
    Parsed .factor (.lit n) (b ++ s) := by
  intro rest ctx hends _ hctx hlt
  have hstops := ends_of_append hends hs.last
  have hreads : (Token.num n).Reads (b ++ (s ++ rest)) rest :=
    reads_blanks hb (reads_num hs (hn.trans (by norm_num)) hstops)
  rw [List.append_assoc] at hctx
  obtain ⟨ctx₁, hpeek, hctx₁, hsrc₁⟩ := peek_reads hctx hreads
  obtain ⟨ctx₂, hnext, hctx₂, hread, hsrc₂⟩ := next_reads hctx₁ hreads (hsrc₁ ▸ hlt)
  have hnum : ctx₂.num = n := hread
  refine ⟨1, 0, ctx₂, fun fuel => ?_, hctx₂, hsrc₂.trans hsrc₁⟩
  simp only [Level.parser, Level.after, parserFactor, hpeek, Token.type, lift_ok, pure_bind,
    reduceCtorEq, if_false, if_true, hnext, hnum, Exp.eval]
  rw [toInt32_of_lt (by omega) (by omega)]

theorem parsed_paren (hb : IsBlank b) (hb' : IsBlank b') (ih : Parsed .exp e s) :
    Parsed .factor e (b ++ 40 :: (s ++ (b' ++ [41]))) := by
  intro rest ctx _ _ hctx hlt
  have hopen : (Token.sym .parenOpen).Reads (b ++ 40 :: (s ++ (b' ++ 41 :: rest)))
      (s ++ (b' ++ 41 :: rest)) := reads_blanks hb (reads_sym rfl _)
  have hclose : (Token.sym .parenClose).Reads (b' ++ 41 :: rest) rest :=
    reads_blanks hb' (reads_sym rfl _)
  have hstop : ∀ level : Level, level.Stops (b' ++ 41 :: rest) :=
    fun level _ => ⟨_, _, hclose, fun op _ => by cases op <;> exact nofun⟩
  have hends : Ends s (b' ++ 41 :: rest) := fun _ => stopsNumber_blanks hb' rfl
  have htext : b ++ 40 :: (s ++ (b' ++ [41])) ++ rest =
      b ++ 40 :: (s ++ (b' ++ 41 :: rest)) := by simp
  rw [htext] at hctx
  obtain ⟨ctx₁, hpeek, hctx₁, hsrc₁⟩ := peek_reads hctx hopen
  have hlen : rest.length ≤ (b' ++ 41 :: rest).length := by simp; omega
  have hlen' : rest.length ≤ (s ++ (b' ++ 41 :: rest)).length := by simp; omega
  obtain ⟨ctx₂, hexpect, hctx₂, hsrc₂⟩ := expect_reads hctx₁ hopen (by rw [hsrc₁]; omega)
  obtain ⟨k, j, ctx₃, hexp, hctx₃, hsrc₃⟩ := ih _ ctx₂ hends (fun _ => hstop .term) hctx₂
    (by rw [hsrc₂, hsrc₁]; omega)
  obtain ⟨ctx₄, hend, hctx₄, hsrc₄⟩ := after_stop hctx₃ (hstop .exp) e.eval
  have hsrc : ctx₄.src = ctx.src := by rw [hsrc₄, hsrc₃, hsrc₂, hsrc₁]
  obtain ⟨ctx₅, hexpect', hctx₅, hsrc₅⟩ := expect_reads hctx₄ hclose (by rw [hsrc]; exact hlt)
  refine ⟨k + 2, 0, ctx₅, fun fuel => ?_, hctx₅, hsrc₅.trans hsrc⟩
  have hexp : parserExp (fuel + k + 1) ctx₂ = pure (e.eval, ctx₄) := by
    rw [show fuel + k + 1 = fuel + 1 + k by omega]
    refine (hexp (fuel + 1)).trans ?_
    rw [show fuel + 1 + j = fuel + j + 1 by omega]
    exact hend (fuel + j)
  simp only [Token.type] at hpeek hexpect hexpect'
  simp only [Level.parser, Level.after]
  rw [← Nat.add_assoc, parserFactor]
  simp only [hpeek, lift_ok, pure_bind, if_true, hexpect, hexp, hexpect']

theorem parsed_term (ih : Parsed .factor e s) : Parsed .term e s := by
  intro rest ctx hends _ hctx hlt
  obtain ⟨k, j, ctx', hparse, hctx', hsrc⟩ := ih rest ctx hends nofun hctx hlt
  refine ⟨k + 1, k, ctx', fun fuel => ?_, hctx', hsrc⟩
  have hparse : parserFactor (fuel + k) ctx = pure (e.eval, ctx') := hparse fuel
  simp only [Level.parser, Level.after]
  rw [← Nat.add_assoc, parserTerm, hparse, pure_bind]

theorem Parsed.operand {ctx : Context} (ih : Parsed level e s) (hlevel : level ≠ .exp)
    (hends : Ends s rest) (hstop : level.Stops rest) (hctx : ctx.Before (s ++ rest))
    (hlt : ctx.src.length < 2 ^ 31 + rest.length) :
    ∃ k ctx', (∀ fuel, level.parser (fuel + k) ctx = pure (e.eval, ctx')) ∧ ctx'.Before rest ∧
      ctx'.src = ctx.src := by
  obtain ⟨k, j, ctx₁, hparse, hctx₁, hsrc₁⟩ := ih rest ctx hends (fun h => absurd h hlevel) hctx hlt
  obtain ⟨ctx₂, hend, hctx₂, hsrc₂⟩ := after_stop hctx₁ hstop e.eval
  refine ⟨k + 1, ctx₂, fun fuel => ?_, hctx₂, hsrc₂.trans hsrc₁⟩
  rw [show fuel + (k + 1) = fuel + 1 + k by omega, hparse,
    show fuel + 1 + j = fuel + j + 1 by omega]
  exact hend (fuel + j)

theorem parsed_exp (ih : Parsed .term e s) : Parsed .exp e s := by
  intro rest ctx hends hstop hctx hlt
  obtain ⟨k, ctx', hparse, hctx', hsrc⟩ :=
    ih.operand (by decide) hends (hstop rfl) hctx hlt
  refine ⟨k + 1, k, ctx', fun fuel => ?_, hctx', hsrc⟩
  have hparse : parserTerm (fuel + k) ctx = pure (e.eval, ctx') := hparse fuel
  simp only [Level.parser, Level.after]
  rw [← Nat.add_assoc, parserExp, hparse, pure_bind]

theorem below_ne_exp (level : Level) : level.below ≠ .exp := by
  cases level <;> decide

theorem Op.type_ne {op op' : Op} (h : op'.level ≠ op.level) : op.type ≠ op'.type := by
  cases op <;> cases op' <;> first | decide | exact absurd rfl h

theorem parsed_bin (hfits : (Exp.bin op l r).Fits) (hb : IsBlank b)
    (ht : Renders op.level.below r t) (ihs : Parsed op.level l s)
    (iht : Parsed op.level.below r t) :
    Parsed op.level (.bin op l r) (s ++ (b ++ op.char :: t)) := by
  intro rest ctx hends hstop hctx hlt
  obtain ⟨c, t', htext, hc⟩ := ht.head
  have hreads : (Token.sym op.type).Reads (b ++ op.char :: (t ++ rest)) (t ++ rest) := by
    rw [htext]
    exact reads_blanks hb (reads_op op hc)
  have hendl : Ends s (b ++ op.char :: (t ++ rest)) :=
    fun _ => stopsNumber_blanks hb op.isalnum_char
  have hendr : Ends t rest := by
    refine ends_of_append (s := s ++ (b ++ [op.char])) ?_
    simpa using hends
  have hlen : rest.length ≤ (b ++ op.char :: (t ++ rest)).length := by simp; omega
  have hlen' : rest.length ≤ (t ++ rest).length := by simp
  have hassoc : s ++ (b ++ op.char :: t) ++ rest = s ++ (b ++ op.char :: (t ++ rest)) := by simp
  rw [hassoc] at hctx
  obtain ⟨k, j, ctx₁, hleft, hctx₁, hsrc₁⟩ := ihs _ ctx hendl
    (fun hexp _ => ⟨_, _, hreads, fun op' hop' => Op.type_ne (by rw [hop', hexp]; decide)⟩) hctx
    (by omega)
  obtain ⟨ctx₂, hpeek, hctx₂, hsrc₂⟩ := peek_reads hctx₁ hreads
  obtain ⟨ctx₃, hnext, hctx₃, _, hsrc₃⟩ := next_reads hctx₂ hreads (by rw [hsrc₂, hsrc₁]; omega)
  have hsrc : ctx₃.src = ctx.src := by rw [hsrc₃, hsrc₂, hsrc₁]
  have hstop' : op.level.below.Stops rest := by
    cases hlevel : op.level with
    | exp => exact hstop hlevel
    | term | factor => exact fun hne => absurd rfl hne
  obtain ⟨k', ctx₄, hright, hctx₄, hsrc₄⟩ := iht.operand (below_ne_exp _) hendr hstop' hctx₃
    (by rw [hsrc]; exact hlt)
  refine ⟨k' + 1 + k, j + k', ctx₄, fun fuel => ?_, hctx₄, hsrc₄.trans hsrc⟩
  have hround := after_op (x := l.eval) hpeek hnext (hright (fuel + j)) hfits.2.2.1 hfits.2.2.2
  rw [show fuel + (k' + 1 + k) = fuel + (k' + 1) + k by omega, hleft,
    show fuel + (k' + 1) + j = fuel + j + k' + 1 by omega, hround, ← Nat.add_assoc]
  rfl

end

theorem Renders.parsed {text : List UInt8} (h : Renders level e text) (hfits : e.Fits) :
    Parsed level e text := by
  induction h with
  | lit hb hs => exact parsed_lit hb hs hfits
  | paren hb _ hb' ih => exact parsed_paren hb hb' (ih hfits)
  | factor _ ih => exact parsed_term (ih hfits)
  | term _ ih => exact parsed_exp (ih hfits)
  | bin _ hb ht ihs iht => exact parsed_bin hfits hb ht (ihs hfits.1) (iht hfits.2.1)

theorem NoOperator.stops (h : NoOperator rest) (level : Level) :
    level.Stops rest := by
  obtain ⟨tok, rest', hreads, hno⟩ := h
  exact fun _ => ⟨tok, rest', hreads, fun op _ => hno op⟩

/-- **Constant expressions are evaluated.**  Let the text of an expression whose intermediate values
are all of the type `int` begin at the position of a context and end before the position `2 ^ 31`,
and let something follow that does not continue it.  Then `parser_exp` returns the value of the
expression, and the position after it is the end of the text. -/
theorem parserExp_renders {e : Exp} (hfits : e.Fits) {text rest : List UInt8}
    (htext : Renders .exp e text) (hends : Ends text rest) (hrest : NoOperator rest)
    {ctx : Context} (hctx : ctx.Before (text ++ rest)) (hpos : ctx.pos + text.length < 2 ^ 31) :
    ∃ k ctx', (∀ fuel, k ≤ fuel → (parserExp fuel ctx).run = some (.ok (e.eval, ctx'))) ∧
      ctx'.src = ctx.src ∧ ctx'.pos = ctx.pos + text.length := by
  obtain ⟨pre, hsrc, hpre⟩ := hctx
  have hlt : ctx.src.length < 2 ^ 31 + rest.length := by
    rw [hsrc, List.length_append, List.length_append]
    omega
  obtain ⟨k, j, ctx₁, hparse, hctx₁, hsrc₁⟩ := htext.parsed hfits rest ctx hends
    (fun _ => hrest.stops .term) ⟨pre, hsrc, hpre⟩ hlt
  obtain ⟨ctx₂, hend, ⟨pre', hsrc', hpos'⟩, hsrc₂⟩ := after_stop hctx₁ (hrest.stops .exp) e.eval
  refine ⟨k + 1, ctx₂, fun fuel hfuel => ?_, hsrc₂.trans hsrc₁, ?_⟩
  · obtain ⟨fuel, rfl⟩ : ∃ n, fuel = n + 1 + k := ⟨fuel - (k + 1), by omega⟩
    have hrun : parserExp (fuel + 1 + k) ctx = pure (e.eval, ctx₂) := by
      refine (hparse (fuel + 1)).trans ?_
      rw [show fuel + 1 + j = fuel + j + 1 by omega]
      exact hend (fuel + j)
    rw [hrun]
    rfl
  · have hlen : (pre' ++ rest).length = (pre ++ (text ++ rest)).length := by
      rw [← hsrc', hsrc₂, hsrc₁, hsrc]
    simp only [List.length_append] at hlen
    rw [hpos', hpre]
    omega

/-- The expression `8 / (1 + 1) - 3`. -/
def smallExp : Exp := .bin .sub (.bin .div (.lit 8) (.bin .add (.lit 1) (.lit 1))) (.lit 3)

theorem print_smallExp : smallExp.print .exp = [56, 47, 40, 49, 43, 49, 41, 45, 51] := by
  simp [smallExp, Exp.print, decimal, digitChar, Op.char, Op.level, Level.below, Level.admits]

theorem noOperator_end : NoOperator [0] :=
  ⟨.sym .max, [0], fun line num str => ⟨[0], line, num, str, rfl, rfl, trivial⟩,
    fun op => by cases op <;> exact nofun⟩

theorem parserExp_smallExp :
    ∃ k ctx', (∀ fuel, k ≤ fuel →
      (parserExp fuel ⟨[56, 47, 40, 49, 43, 49, 41, 45, 51] ++ [0], 0, 1, 0, []⟩).run =
        some (.ok (1, ctx'))) ∧
      ctx'.src = [56, 47, 40, 49, 43, 49, 41, 45, 51] ++ [0] ∧ ctx'.pos = 0 + (9 : ℕ) := by
  have hfits : smallExp.Fits := by
    simp [smallExp, Exp.Fits, Exp.eval, Op.apply, InInt]
  have hrenders := smallExp.renders_print .exp
  rw [print_smallExp] at hrenders
  exact parserExp_renders hfits hrenders (fun _ => ⟨0, [], rfl, rfl⟩) noOperator_end
    ⟨[], rfl, rfl⟩ (by decide)

/-- After a number that ends at position `2 ^ 31` or later, the text is read before its
beginning. -/
theorem parserExp_longText :
    (Exp.lit 1).Fits ∧ Renders .exp (.lit 1) longText ∧ Ends longText [0] ∧ NoOperator [0] ∧
      ∀ fuel, 3 ≤ fuel → (parserExp fuel ⟨longText ++ [0], 0, 1, 0, []⟩).run =
        some (.error .badAccess) := by
  refine ⟨by norm_num [Exp.Fits], ?_, fun _ => ⟨0, [], rfl, rfl⟩, noOperator_end, ?_⟩
  · have hblank : IsBlank (List.replicate (2 ^ 31) 32) :=
      fun c hc => Or.inr (Or.inr (Or.inr (List.eq_of_mem_replicate hc)))
    have hone : IsLiteral [49] 1 :=
      .inl ⟨List.all_eq_true.mp rfl, rfl, .inr ⟨49, [], rfl, by decide⟩⟩
    exact .term (.factor (.lit hblank hone))
  · intro fuel hfuel
    obtain ⟨fuel, rfl⟩ : ∃ n, fuel = n + 3 := ⟨fuel - 3, by omega⟩
    rw [parserExp, parserTerm_longText]
    rfl

end Ginkgo.Xjil
