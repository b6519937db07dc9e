import Mathlib.Data.List.TakeWhile
import Ginkgo.Libc.CString

/-!
# The tokens of device descriptions

The model of `next` and of the functions of `xjil.c` that call it.  A context has the memory that
can be read from the beginning of the text on: a `NUL` ends the text, and what comes after the end
of the memory must not be read.  The position in the text is an `int`.

The buffer `ctx->str` is the list of its characters: with texts of fewer than `2 ^ 31` characters
no length that `realloc` copies reaches `2 ^ 32`.  Allocations succeed.

## Main results

* `Text.ahead` — the tokens of a text are read from it.
* `next_reads`, `next_at` — `next` reads the first token.
-/

namespace Ginkgo.Xjil

open Libc
open Fallible (bind_eq_ok ok_bind)

/-- `token_type_t`. -/
inductive TokenType
  | parenOpen | parenClose | mul | plus | comma | minus | div | colon | lt | gt
  | bracketOpen | bracketClose | braceOpen | braceClose
  | num | id | bool | string
  /-- `TOKEN_TYPE_MAX`: the end of the text. -/
  | max
deriving DecidableEq

/-- `context_t`; the length of the text is not used. -/
structure Context where
  /-- The memory from the beginning of the text on. -/
  src : List UInt8
  pos : ℤ
  line : ℤ
  num : ℕ
  str : List UInt8

/-! ## Reading tokens -/

/-- The blanks and the comments before a token; `comment` says whether the loop is in a comment.
The character that ends a comment is skipped, also if it is the `NUL` at the end of the text. -/
def skipBlanks : Bool → List UInt8 → ℤ → Except Fault (List UInt8 × ℤ)
  | _, [], _ => .error .badAccess
  | true, c :: s, line => skipBlanks (c ≠ 10 ∧ c ≠ 0) s line
  | false, c :: s, line =>
    if c = 0 then .ok (c :: s, line)
    else if c = 10 then skipBlanks false s (line + 1)
    else if c = 9 ∨ c = 13 ∨ c = 32 then skipBlanks false s line
    else if c = 47 ∧ s = [] then .error .badAccess
    else if c = 47 ∧ s.headD 0 = 47 then skipBlanks true s line
    else .ok (c :: s, line)

/-- The characters of a word after the first one. -/
def isWordChar (c : UInt8) : Bool := isalnum c || c == 95 || c == 45

/-- `"true"`. -/
def trueName : List UInt8 := [116, 114, 117, 101]

/-- `"false"`. -/
def falseName : List UInt8 := [102, 97, 108, 115, 101]

/-- The type of a word, and `ctx->num` after it. -/
def wordType (str : List UInt8) (num : ℕ) : TokenType × ℕ :=
  if strncmp str trueName str.length = 0 then (.bool, 1)
  else if strncmp str falseName str.length = 0 then (.bool, 0)
  else (.id, num)

/-- The digits of a decimal number after the first one. -/
def decimalLoop : List UInt8 → ℕ → Except Fault (ℕ × List UInt8)
  | [], _ => .error .badAccess
  | c :: s, val =>
    if isalnum c then decimalLoop s (wrap64 (val * 10 + c.toNat + (2 ^ 64 - 48)))
    else .ok (val, c :: s)

/-- The digits of a hexadecimal number, and how many there are. -/
def hexLoop : List UInt8 → ℕ → ℕ → Except Fault (ℕ × ℕ × List UInt8)
  | [], _, _ => .error .badAccess
  | c :: s, val, count =>
    if isalnum c || (65 ≤ c && c ≤ 70) || (97 ≤ c && c ≤ 102) then
      hexLoop s (wrap64 (val * 16 + (c &&& 15).toNat + if 65 ≤ c then 9 else 0)) (count + 1)
    else .ok (val, count, c :: s)

/-- A number, with the first digit `c`. -/
def lexNumber (c : UInt8) (s : List UInt8) : Except Fault (ℕ × List UInt8) :=
  if 0 < c.toNat - 48 then decimalLoop s (c.toNat - 48)
  else do
    access (s ≠ [])
    if s.headD 0 = 120 ∨ s.headD 0 = 88 then
      let (val, count, rest) ← hexLoop s.tail 0 0
      if count = 0 then .error .panic else .ok (val, rest)
    else .ok (0, s)

/-- The character after a backslash. -/
def unescape (c : UInt8) : UInt8 :=
  if c = 110 then 10 else if c = 114 then 13 else if c = 102 then 12 else if c = 116 then 9 else c

/-- The characters of a string after the quote. -/
def lexString : List UInt8 → List UInt8 → Except Fault (List UInt8 × List UInt8)
  | [], _ => .error .badAccess
  | c :: s, str =>
    if c = 0 then .ok (str, c :: s)
    else if c = 34 then .ok (str, s)
    else if c = 92 then
      match s with
      | [] => .error .badAccess
      -- A `NUL` is pushed like any other character, and the loop goes on after it.
      | c :: s => lexString s (str ++ [unescape c])
    else lexString s (str ++ [c])

/-- The characters that are tokens, but for `/`. -/
def punctuation : List (UInt8 × TokenType) :=
  [(123, .braceOpen), (125, .braceClose), (58, .colon), (44, .comma), (91, .bracketOpen),
    (93, .bracketClose), (62, .gt), (60, .lt), (43, .plus), (45, .minus), (42, .mul),
    (40, .parenOpen), (41, .parenClose)]

/-- The token at the beginning of `s`: its type, what follows it, `ctx->num` and `ctx->str`. -/
def lexToken (s : List UInt8) (num : ℕ) (str : List UInt8) :
    Except Fault (TokenType × List UInt8 × ℕ × List UInt8) :=
  match s with
  | [] => .error .badAccess
  | c :: s =>
    if c = 0 then .ok (.max, c :: s, num, str)
    else if isalpha c || c == 95 then do
      access (s.dropWhile isWordChar ≠ [])
      let str := c :: s.takeWhile isWordChar
      let (type, num) := wordType str num
      return (type, s.dropWhile isWordChar, num, str)
    else if isdigit c then do
      let (val, rest) ← lexNumber c s
      return (.num, rest, val, str)
    else if c = 34 then do
      let (str, rest) ← lexString s []
      return (.string, rest, num, str)
    else match punctuation.lookup c with
      | some type => .ok (type, s, num, str)
      | none => if c = 47 then .ok (.div, s, num, str) else .error .panic

/-- `next`. -/
def next (ctx : Context) : Except Fault (TokenType × Context) := do
  access (0 ≤ ctx.pos ∧ ctx.pos ≤ ctx.src.length)
  let (s, line) ← skipBlanks false (ctx.src.drop ctx.pos.toNat) ctx.line
  let (type, rest, num, str) ← lexToken s ctx.num ctx.str
  return (type, ⟨ctx.src, toInt32 (ctx.src.length - rest.length), line, num, str⟩)

/-- `expect`. -/
def expect (ctx : Context) (type : TokenType) : Except Fault Context := do
  let (t, ctx) ← next ctx
  if t ≠ type then .error .panic else .ok ctx

/-- `next_if`. -/
def nextIf (ctx : Context) (type : TokenType) : Except Fault (Bool × Context) := do
  let (t, ctx') ← next ctx
  if t ≠ type then .ok (false, ⟨ctx'.src, ctx.pos, ctx.line, ctx'.num, ctx'.str⟩)
  else .ok (true, ctx')

/-- `peek`. -/
def peek (ctx : Context) : Except Fault (TokenType × Context) := do
  let (t, ctx') ← next ctx
  return (t, ⟨ctx'.src, ctx.pos, ctx.line, ctx'.num, ctx'.str⟩)

/-! ## Texts -/

/-- Blanks, newlines and comments that a newline ends. -/
inductive Blanks : List UInt8 → Prop
  | nil : Blanks []
  | blank {c : UInt8} {b : List UInt8} (hc : c = 9 ∨ c = 10 ∨ c = 13 ∨ c = 32) (hb : Blanks b) :
    Blanks (c :: b)
  | comment {body b : List UInt8} (hnul : 0 ∉ body) (hbody : 10 ∉ body) (hb : Blanks b) :
    Blanks (47 :: 47 :: body ++ 10 :: b)

/-- The first characters of identifiers. -/
def isIdentStart (c : UInt8) : Bool := (65 ≤ c && c ≤ 90) || (97 ≤ c && c ≤ 122) || c == 95

/-- The other characters of identifiers. -/
def isIdentChar (c : UInt8) : Bool := isIdentStart c || (48 ≤ c && c ≤ 57) || c == 45

/-- Identifiers, but for the prefixes of `true` and `false`. -/
structure IsIdent (w : List UInt8) : Prop where
  start : ∃ c t, w = c :: t ∧ isIdentStart c = true ∧ ∀ d ∈ t, isIdentChar d = true
  not_true : ¬ w <+: trueName
  not_false : ¬ w <+: falseName

/-- The number with the given digits to the base 10, after the digits of `acc`. -/
def decimalValue : List UInt8 → ℕ → ℕ
  | [], acc => acc
  | c :: s, acc => decimalValue s (acc * 10 + (c.toNat - 48))

/-- The string has the decimal digits of `n`, without leading zeros. -/
def IsDecimal (s : List UInt8) (n : ℕ) : Prop :=
  (∀ c ∈ s, isdigit c = true) ∧ decimalValue s 0 = n ∧
    (s = [48] ∨ ∃ c t, s = c :: t ∧ c ≠ 48)

/-- The ways to write a number. -/
def IsLiteral (s : List UInt8) (n : ℕ) : Prop :=
  IsDecimal s n ∨ ∃ x digits, (x = 120 ∨ x = 88) ∧ digits ≠ [] ∧ IsHex digits n ∧
    s = 48 :: x :: digits

/-- A character of a string, with a backslash before a quote and before a backslash. -/
def escape (c : UInt8) : List UInt8 := if c = 34 ∨ c = 92 then [92, c] else [c]

/-- Tokens. -/
inductive Token
  | sym (t : TokenType)
  | num (n : ℕ)
  | id (w : List UInt8)
  | bool (b : Bool)
  | str (w : List UInt8)

namespace Token

/-- The type of a token. -/
def type : Token → TokenType
  | sym t => t
  | num _ => .num
  | id _ => .id
  | bool _ => .bool
  | str _ => .string

/-- The ways to write a token. -/
def Spells : Token → List UInt8 → Prop
  | sym t, s => ∃ c, punctuation.lookup c = some t ∧ s = [c]
  | num n, s => n < 2 ^ 31 ∧ (IsDecimal s n ∨
      ∃ x digits, (x = 120 ∨ x = 88) ∧ digits ≠ [] ∧ IsHex digits n ∧ s = 48 :: x :: digits)
  | id w, s => IsIdent w ∧ s = w
  | bool b, s => s = if b then trueName else falseName
  | str w, s => 0 ∉ w ∧ s = 34 :: (w.flatMap escape ++ [34])

/-- What `next` leaves in `ctx->num` and `ctx->str` after a token. -/
def Read : Token → ℕ → List UInt8 → Prop
  | sym _, _, _ => True
  | num n, val, _ => val = n
  | id w, _, chars => chars = w
  | bool b, val, _ => val = b.toNat
  | str w, _, chars => chars = w

/-- A token that ends where no character of a word follows. -/
def IsWord : Token → Prop
  | sym _ | str _ => False
  | num _ | id _ | bool _ => True

end Token

/-- The texts with the given tokens: anything can stand between two tokens that `Blanks` allows. -/
inductive Text : List Token → List UInt8 → Prop
  | nil {b : List UInt8} (hb : Blanks b) : Text [] b
  | cons {tok : Token} {toks : List Token} {b s rest : List UInt8} (hb : Blanks b)
    (hs : tok.Spells s) (hrest : Text toks rest) : Text (tok :: toks) (b ++ (s ++ rest))

/-- No word follows: the tokens are at their end, or begin with a symbol other than `-`. -/
def EndsWord : List Token → Prop
  | [] => True
  | .sym t :: _ => t ≠ .minus
  | _ :: _ => False

/-- After every word there is a symbol other than `-`. -/
def Separated : List Token → Prop
  | [] => True
  | tok :: toks => (tok.IsWord → EndsWord toks) ∧ Separated toks

/-- The type of the first token. -/
def headType : List Token → TokenType
  | [] => .max
  | tok :: _ => tok.type

/-- The token is read from the bytes `s`, and `rest` remains. -/
def Token.Reads (tok : Token) (s rest : List UInt8) : Prop :=
  ∀ line num str, ∃ s' line' num' str', skipBlanks false s line = .ok (s', line') ∧
    lexToken s' num str = .ok (tok.type, rest, num', str') ∧ tok.Read num' str'

/-- The tokens are read from the bytes one after the other, and then the text ends. -/
def Ahead : List Token → List UInt8 → Prop
  | [], s => ∀ line, ∃ t line', skipBlanks false s line = .ok (0 :: t, line')
  | tok :: toks, s => ∃ rest, tok.Reads s rest ∧ Ahead toks rest

/-- The bytes from the position on are `s`. -/
def Context.Before (ctx : Context) (s : List UInt8) : Prop :=
  ∃ pre, ctx.src = pre ++ s ∧ ctx.pos = pre.length

/-- What remains of the text has the given tokens, and every position in the memory is an
`int`. -/
def Context.At (ctx : Context) (toks : List Token) : Prop :=
  ctx.src.length ≤ 2 ^ 31 ∧ ∃ s, ctx.Before s ∧ Ahead toks s

/-! ## Blanks -/

variable {s : List UInt8}

theorem skipBlanks_comment {body : List UInt8} (h : 10 ∉ body) (h0 : 0 ∉ body) (line : ℤ) :
    skipBlanks true (body ++ 10 :: s) line = skipBlanks false s line := by
  induction body with
  | nil => rfl
  | cons c body ih =>
    have hc : c ≠ 10 ∧ c ≠ 0 :=
      ⟨fun heq => h (heq ▸ List.mem_cons_self), fun heq => h0 (heq ▸ List.mem_cons_self)⟩
    rw [List.cons_append, skipBlanks, decide_eq_true hc]
    exact ih (fun hmem => h (List.mem_cons_of_mem c hmem))
      (fun hmem => h0 (List.mem_cons_of_mem c hmem))

theorem skipBlanks_blanks {b : List UInt8} (h : Blanks b) (s : List UInt8) (line : ℤ) :
    ∃ line', skipBlanks false (b ++ s) line = skipBlanks false s line' := by
  induction h generalizing line with
  | nil => exact ⟨line, rfl⟩
  | @blank c b hc hb ih =>
    have h0 : c ≠ 0 := by
      rintro rfl
      exact absurd hc (by decide)
    rw [List.cons_append, skipBlanks, if_neg h0]
    by_cases h10 : c = 10
    · rw [if_pos h10]
      exact ih (line + 1)
    · rw [if_neg h10, if_pos (hc.imp_right fun h => h.resolve_left h10)]
      exact ih line
  | @comment body b hnul hbody hb ih =>
    have hskip : skipBlanks false (47 :: 47 :: body ++ 10 :: b ++ s) line =
        skipBlanks true (body ++ 10 :: (b ++ s)) line := by
      simp [skipBlanks]
    rw [hskip, skipBlanks_comment hbody hnul]
    exact ih line

variable {c : UInt8}

theorem skipBlanks_token (h : c ≠ 9 ∧ c ≠ 10 ∧ c ≠ 13 ∧ c ≠ 32 ∧ c ≠ 47)
    (s : List UInt8) (line : ℤ) : skipBlanks false (c :: s) line = .ok (c :: s, line) := by
  by_cases h0 : c = 0
  · rw [h0, skipBlanks, if_pos rfl]
  · rw [skipBlanks, if_neg h0, if_neg h.2.1, if_neg (by simp [h]), if_neg (by simp [h]),
      if_neg (by simp [h])]

theorem skipBlanks_nul (s : List UInt8) (line : ℤ) :
    skipBlanks false (0 :: s) line = .ok (0 :: s, line) := rfl

/-! ## Words -/

/-- No character of a word follows. -/
def Stops (rest : List UInt8) : Prop := ∃ c t, rest = c :: t ∧ isWordChar c = false

/-- No character of a number follows. -/
def StopsNumber (rest : List UInt8) : Prop := ∃ c t, rest = c :: t ∧ isalnum c = false

variable {rest : List UInt8}

theorem Stops.stopsNumber (h : Stops rest) : StopsNumber rest := by
  obtain ⟨c, t, hrest, hc⟩ := h
  simp only [isWordChar, Bool.or_eq_false_iff] at hc
  exact ⟨c, t, hrest, hc.1.1⟩

theorem isIdentStart_iff : isIdentStart c = true ↔
    (65 ≤ c.toNat ∧ c.toNat ≤ 90) ∨ (97 ≤ c.toNat ∧ c.toNat ≤ 122) ∨ c.toNat = 95 := by
  simp [isIdentStart, UInt8.le_iff_toNat_le, ← UInt8.toNat_inj, or_assoc]

theorem isIdentChar_iff : isIdentChar c = true ↔
    (65 ≤ c.toNat ∧ c.toNat ≤ 90) ∨ (97 ≤ c.toNat ∧ c.toNat ≤ 122) ∨ c.toNat = 95 ∨
      (48 ≤ c.toNat ∧ c.toNat ≤ 57) ∨ c.toNat = 45 := by
  simp [isIdentChar, isIdentStart, UInt8.le_iff_toNat_le, ← UInt8.toNat_inj, or_assoc]

theorem isWordChar_of_isIdentChar (h : isIdentChar c = true) :
    isWordChar c = true := by
  rw [isIdentChar_iff] at h
  have hc : c.toNat < 128 := by omega
  simp only [isWordChar, isalnum, Bool.or_eq_true, isalpha_iff hc, isdigit_iff, beq_iff_eq,
    ← UInt8.toNat_inj]
  simp
  omega

theorem isalpha_or_of_isIdentStart (h : isIdentStart c = true) :
    (isalpha c || c == 95) = true := by
  rw [isIdentStart_iff] at h
  have hc : c.toNat < 128 := by omega
  simp only [Bool.or_eq_true, isalpha_iff hc, beq_iff_eq, ← UInt8.toNat_inj]
  simp
  omega

theorem word_span {t : List UInt8} (ht : ∀ c ∈ t, isWordChar c = true) (hrest : Stops rest) :
    (t ++ rest).takeWhile isWordChar = t ∧ (t ++ rest).dropWhile isWordChar = rest := by
  obtain ⟨c, r, rfl, hc⟩ := hrest
  rw [List.takeWhile_append_of_pos ht, List.dropWhile_append_of_pos ht]
  simp [hc]

theorem ne_zero_of_isIdentStart (h : isIdentStart c = true) : c ≠ 0 := by
  rintro rfl
  exact absurd h (by decide)

theorem lexToken_word {t : List UInt8} (hc : isIdentStart c = true)
    (ht : ∀ d ∈ t, isIdentChar d = true) (hrest : Stops rest) (num : ℕ) (str : List UInt8) :
    lexToken (c :: t ++ rest) num str =
      .ok ((wordType (c :: t) num).1, rest, (wordType (c :: t) num).2, c :: t) := by
  obtain ⟨htake, hdrop⟩ := word_span (fun d hd => isWordChar_of_isIdentChar (ht d hd)) hrest
  have hne : rest ≠ [] := by
    obtain ⟨d, r, rfl, _⟩ := hrest
    exact List.cons_ne_nil d r
  rw [List.cons_append, lexToken, if_neg (ne_zero_of_isIdentStart hc),
    if_pos (isalpha_or_of_isIdentStart hc)]
  simp only [htake, hdrop, access_pos hne, ok_bind]
  rfl

theorem IsIdent.zero_notMem {w : List UInt8} (h : IsIdent w) : 0 ∉ w := by
  obtain ⟨c, t, hw, hc, ht⟩ := h.start
  intro hmem
  rw [hw] at hmem
  cases List.mem_cons.mp hmem with
  | inl heq => exact absurd (heq ▸ hc) (by decide)
  | inr hmem => exact absurd (ht 0 hmem) (by decide)

theorem wordType_ident {w : List UInt8} (h : IsIdent w) (num : ℕ) :
    wordType w num = (.id, num) := by
  have hcmp := strncmp_length_eq_zero h.zero_notMem
  rw [wordType, if_neg (fun heq => h.not_true ((hcmp _).mp heq)),
    if_neg (fun heq => h.not_false ((hcmp _).mp heq))]

theorem wordType_bool (b : Bool) (num : ℕ) :
    wordType (if b then trueName else falseName) num = (.bool, b.toNat) := by
  cases b
  · rfl
  · rfl

/-! ## Numbers -/

theorem le_decimalValue (s : List UInt8) (acc : ℕ) : acc ≤ decimalValue s acc := by
  induction s generalizing acc with
  | nil => exact le_rfl
  | cons c s ih => exact le_trans (by omega) (ih _)

theorem le_hexValue (s : List UInt8) (acc : ℕ) : acc ≤ hexValue s acc := by
  induction s generalizing acc with
  | nil => exact le_rfl
  | cons c s ih => exact le_trans (by omega) (ih _)

theorem decimalLoop_eq {t : List UInt8} (ht : ∀ c ∈ t, isdigit c = true) (hrest : StopsNumber rest)
    (val : ℕ) (hval : decimalValue t val < 2 ^ 64) :
    decimalLoop (t ++ rest) val = .ok (decimalValue t val, rest) := by
  induction t generalizing val with
  | nil =>
    obtain ⟨c, r, rfl, hc⟩ := hrest
    rw [List.nil_append, decimalLoop, hc]
    rfl
  | cons c t ih =>
    have hc := ht c List.mem_cons_self
    have hrange := isdigit_iff.mp hc
    have hle := le_decimalValue t (val * 10 + (c.toNat - 48))
    rw [decimalValue] at hval
    have hwrap : wrap64 (val * 10 + c.toNat + (2 ^ 64 - 48)) = val * 10 + (c.toNat - 48) := by
      unfold wrap64
      omega
    rw [List.cons_append, decimalLoop, isalnum, hc, Bool.or_true, if_pos rfl, hwrap,
      ih (fun d hd => ht d (List.mem_cons_of_mem c hd)) _ hval, decimalValue]

theorem hexDigit_eq (h : isxdigit c = true) :
    (c &&& 15).toNat + (if 65 ≤ c then 9 else 0) = (digitValue c).getD 0 := by
  rw [isxdigit_iff] at h
  have hlow : (c &&& 15).toNat = c.toNat % 16 := by
    rw [UInt8.toNat_and]
    exact Nat.and_two_pow_sub_one_eq_mod c.toNat 4
  have hc : c.toNat < 128 := by omega
  rw [hlow]
  simp only [digitValue, isdigit_iff, isalpha_iff hc, isupper_iff hc, UInt8.le_iff_toNat_le]
  have h65 : (65 : UInt8).toNat = 65 := rfl
  rw [h65]
  split_ifs <;> simp only [Option.getD_some, Option.getD_none] <;> omega

theorem isalnum_of_isxdigit (h : isxdigit c = true) : isalnum c = true := by
  rw [isxdigit_iff] at h
  have hc : c.toNat < 128 := by omega
  rw [isalnum, Bool.or_eq_true, isalpha_iff hc, isdigit_iff]
  omega

theorem hexTest_eq (c : UInt8) :
    (isalnum c || (65 ≤ c && c ≤ 70) || (97 ≤ c && c ≤ 102)) = isalnum c := by
  cases hc : isxdigit c with
  | true => rw [isalnum_of_isxdigit hc, Bool.true_or, Bool.true_or]
  | false =>
    rw [isxdigit, Bool.or_eq_false_iff, Bool.or_eq_false_iff] at hc
    rw [hc.1.2, hc.2, Bool.or_false, Bool.or_false]

theorem hexLoop_eq {t : List UInt8} (ht : ∀ c ∈ t, isxdigit c = true) (hrest : StopsNumber rest)
    (val count : ℕ) (hval : hexValue t val < 2 ^ 64) :
    hexLoop (t ++ rest) val count = .ok (hexValue t val, count + t.length, rest) := by
  induction t generalizing val count with
  | nil =>
    obtain ⟨c, r, rfl, hc⟩ := hrest
    rw [List.nil_append, hexLoop, hexTest_eq, hc]
    rfl
  | cons c t ih =>
    have hc := ht c List.mem_cons_self
    have hle := le_hexValue t (val * 16 + (digitValue c).getD 0)
    rw [hexValue] at hval
    have hwrap : wrap64 (val * 16 + (c &&& 15).toNat + if 65 ≤ c then 9 else 0) =
        val * 16 + (digitValue c).getD 0 := by
      rw [Nat.add_assoc, hexDigit_eq hc, wrap64_of_lt (by omega)]
    rw [List.cons_append, hexLoop, hexTest_eq, if_pos (isalnum_of_isxdigit hc), hwrap,
      ih (fun d hd => ht d (List.mem_cons_of_mem c hd)) _ _ hval, hexValue, List.length_cons]
    congr 3
    omega

theorem isdigit_token (h : isdigit c = true) : (isalpha c || c == 95) = false := by
  rw [isdigit_iff] at h
  have hc : c.toNat < 128 := by omega
  rw [Bool.eq_false_iff, ne_eq, Bool.or_eq_true, isalpha_iff hc, beq_iff_eq, ← UInt8.toNat_inj]
  have h95 : (95 : UInt8).toNat = 95 := rfl
  omega

theorem lexNumber_eq {n : ℕ} (h : IsLiteral s n) (hn : n < 2 ^ 64) (hrest : StopsNumber rest) :
    ∃ c t, s = c :: t ∧ isdigit c = true ∧ lexNumber c (t ++ rest) = .ok (n, rest) := by
  have hne : ∀ t, t ++ rest ≠ [] := by
    obtain ⟨d, r, rfl, _⟩ := hrest
    intro t
    simp
  cases h with
  | inl hdec =>
    obtain ⟨hdigits, hval, hs⟩ := hdec
    have hshape : ∃ c t, s = c :: t := by
      cases hs with
      | inl h => exact ⟨48, [], h⟩
      | inr h =>
        obtain ⟨c, t, h, _⟩ := h
        exact ⟨c, t, h⟩
    obtain ⟨c, t, rfl⟩ := hshape
    have hc := hdigits c List.mem_cons_self
    have hrange := isdigit_iff.mp hc
    refine ⟨c, t, rfl, hc, ?_⟩
    by_cases hzero : c = 48
    · have ht : t = [] := by
        cases hs with
        | inl h => exact (List.cons.inj h).2
        | inr h =>
          obtain ⟨c', t', h, hc'⟩ := h
          exact absurd ((List.cons.inj h).1 ▸ hzero) hc'
      subst hzero ht
      have hx : ¬ (rest.headD 0 = 120 ∨ rest.headD 0 = 88) := by
        obtain ⟨d, r, rfl, hd⟩ := hrest
        intro hd'
        cases hd' with
        | inl h => exact absurd (h ▸ hd : isalnum 120 = false) (by decide)
        | inr h => exact absurd (h ▸ hd : isalnum 88 = false) (by decide)
      rw [lexNumber, if_neg (by decide), access_pos (hne []), ok_bind, List.nil_append,
        if_neg hx, ← hval]
      rfl
    · have hpos : 0 < c.toNat - 48 := by
        have hne : c.toNat ≠ 48 := fun h => hzero (UInt8.toNat_inj.mp h)
        omega
      rw [decimalValue, Nat.zero_mul, Nat.zero_add] at hval
      rw [lexNumber, if_pos hpos,
        decimalLoop_eq (fun d hd => hdigits d (List.mem_cons_of_mem c hd)) hrest _ (by omega), hval]
  | inr hhex =>
    obtain ⟨x, digits, hx, hdigits, hhex, hs⟩ := hhex
    refine ⟨48, x :: digits, hs, by decide, ?_⟩
    have hlen : 0 + digits.length ≠ 0 := by
      rw [Nat.zero_add]
      exact fun h => hdigits (List.length_eq_zero_iff.mp h)
    have hloop := hexLoop_eq hhex.1 hrest 0 0 (by rw [hhex.2]; omega)
    rw [hhex.2] at hloop
    rw [lexNumber, if_neg (by decide), access_pos (hne _), ok_bind, List.cons_append,
      List.headD_cons, if_pos hx, List.tail_cons, hloop, ok_bind]
    exact if_neg hlen

/-! ## Strings -/

theorem lexString_quote (s acc : List UInt8) : lexString (34 :: s) acc = .ok (acc, s) := by
  rw [lexString.eq_def]
  exact (if_neg (by decide)).trans (if_pos rfl)

theorem lexString_backslash (c : UInt8) (s acc : List UInt8) :
    lexString (92 :: c :: s) acc = lexString s (acc ++ [unescape c]) := by
  rw [lexString.eq_def]
  exact (if_neg (by decide)).trans ((if_neg (by decide)).trans (if_pos rfl))

theorem lexString_other (hnul : c ≠ 0) (hquote : c ≠ 34) (hback : c ≠ 92)
    (s acc : List UInt8) : lexString (c :: s) acc = lexString s (acc ++ [c]) := by
  rw [lexString.eq_def]
  exact (if_neg hnul).trans ((if_neg hquote).trans (if_neg hback))

theorem lexString_escape {w : List UInt8} (hw : 0 ∉ w) (rest acc : List UInt8) :
    lexString (w.flatMap escape ++ (34 :: rest)) acc = .ok (acc ++ w, rest) := by
  induction w generalizing acc with
  | nil => rw [List.flatMap_nil, List.nil_append, lexString_quote, List.append_nil]
  | cons c w ih =>
    have hnul : c ≠ 0 := fun heq => hw (heq ▸ List.mem_cons_self)
    have ih := ih fun hmem => hw (List.mem_cons_of_mem c hmem)
    rw [List.flatMap_cons, List.append_assoc, escape]
    by_cases hc : c = 34 ∨ c = 92
    · have hun : unescape c = c := by
        cases hc with
        | inl h => rw [h]; rfl
        | inr h => rw [h]; rfl
      rw [if_pos hc, List.cons_append, List.cons_append, List.nil_append, lexString_backslash, hun,
        ih, List.append_assoc, List.singleton_append]
    · rw [not_or] at hc
      rw [if_neg (by simp [hc]), List.singleton_append, lexString_other hnul hc.1 hc.2, ih,
        List.append_assoc, List.singleton_append]

/-! ## The first token -/

theorem mem_punctuation {t : TokenType} (h : punctuation.lookup c = some t) :
    (c, t) ∈ punctuation := by
  obtain ⟨l₁, l₂, heq, _⟩ := List.lookup_eq_some_iff.mp h
  rw [heq]
  exact List.mem_append_right _ List.mem_cons_self

theorem punctuation_spec : ∀ p ∈ punctuation, p.1 ≠ 0 ∧ (isalpha p.1 || p.1 == 95) = false ∧
    isdigit p.1 = false ∧ p.1 ≠ 34 ∧ (p.1 ≠ 9 ∧ p.1 ≠ 10 ∧ p.1 ≠ 13 ∧ p.1 ≠ 32 ∧ p.1 ≠ 47) ∧
    (p.2 ≠ .minus → isWordChar p.1 = false) ∧ isalnum p.1 = false := by
  decide

theorem lexToken_sym {t : TokenType} (hc : punctuation.lookup c = some t)
    (rest : List UInt8) (num : ℕ) (str : List UInt8) :
    lexToken (c :: rest) num str = .ok (t, rest, num, str) := by
  obtain ⟨hnul, halpha, hdigit, hquote, _⟩ := punctuation_spec _ (mem_punctuation hc)
  rw [lexToken, if_neg hnul, halpha, hdigit, if_neg (by decide), if_neg (by decide),
    if_neg hquote, hc]

theorem ne_of_isdigit (h : isdigit c = true) :
    c ≠ 0 ∧ c ≠ 9 ∧ c ≠ 10 ∧ c ≠ 13 ∧ c ≠ 32 ∧ c ≠ 47 := by
  refine ⟨?_, ?_, ?_, ?_, ?_, ?_⟩ <;>
  · intro heq
    rw [heq] at h
    exact absurd h (by decide)

theorem lexToken_num {n : ℕ} (h : IsLiteral s n) (hn : n < 2 ^ 64) (hrest : StopsNumber rest)
    (num : ℕ) (str : List UInt8) :
    lexToken (s ++ rest) num str = .ok (.num, rest, n, str) := by
  obtain ⟨c, t, rfl, hc, hnum⟩ := lexNumber_eq h hn hrest
  rw [List.cons_append, lexToken, if_neg (ne_of_isdigit hc).1, isdigit_token hc,
    if_neg (by decide), if_pos hc, hnum]
  rfl

theorem lexToken_eq {tok : Token} (h : tok.Spells s) (hrest : tok.IsWord → Stops rest) (num : ℕ)
    (str : List UInt8) :
    ∃ num' str', lexToken (s ++ rest) num str = .ok (tok.type, rest, num', str') ∧
      tok.Read num' str' := by
  cases tok with
  | sym t =>
    obtain ⟨c, hc, rfl⟩ := h
    exact ⟨num, str, lexToken_sym hc rest num str, trivial⟩
  | num n =>
    have hn : n < 2 ^ 64 := h.1.trans (by norm_num)
    exact ⟨n, str, lexToken_num h.2 hn (hrest trivial).stopsNumber num str, rfl⟩
  | id w =>
    obtain ⟨hw, rfl⟩ := h
    obtain ⟨c, t, rfl, hc, ht⟩ := hw.start
    refine ⟨num, c :: t, ?_, rfl⟩
    rw [lexToken_word hc ht (hrest trivial), wordType_ident hw]
    rfl
  | bool b =>
    have hs : s = if b then trueName else falseName := h
    have hshape : ∃ c t, s = c :: t ∧ isIdentStart c = true ∧ ∀ d ∈ t, isIdentChar d = true := by
      cases b with
      | false => exact ⟨102, [97, 108, 115, 101], hs, by decide, List.all_eq_true.mp rfl⟩
      | true => exact ⟨116, [114, 117, 101], hs, by decide, List.all_eq_true.mp rfl⟩
    obtain ⟨c, t, rfl, hc, ht⟩ := hshape
    refine ⟨b.toNat, c :: t, ?_, rfl⟩
    rw [lexToken_word hc ht (hrest trivial), hs, wordType_bool]
    rfl
  | str w =>
    obtain ⟨hw, rfl⟩ := h
    refine ⟨num, w, ?_, rfl⟩
    rw [List.cons_append, List.append_assoc, List.singleton_append, lexToken, if_neg (by decide),
      if_neg (by decide), if_neg (by decide), if_pos rfl, lexString_escape hw]
    rfl

theorem Token.Spells.head {tok : Token} (h : tok.Spells s) :
    ∃ c t, s = c :: t ∧ c ≠ 9 ∧ c ≠ 10 ∧ c ≠ 13 ∧ c ≠ 32 ∧ c ≠ 47 := by
  cases tok with
  | sym t =>
    obtain ⟨c, hc, rfl⟩ := h
    exact ⟨c, [], rfl, (punctuation_spec _ (mem_punctuation hc)).2.2.2.2.1⟩
  | num n =>
    have hn : n < 2 ^ 64 := h.1.trans (by norm_num)
    have hstops : StopsNumber [0] := ⟨0, [], rfl, by decide⟩
    obtain ⟨c, t, hs, hc, _⟩ := lexNumber_eq h.2 hn hstops
    exact ⟨c, t, hs, (ne_of_isdigit hc).2⟩
  | id w =>
    obtain ⟨hw, rfl⟩ := h
    obtain ⟨c, t, hs, hc, _⟩ := hw.start
    refine ⟨c, t, hs, ?_⟩
    refine ⟨?_, ?_, ?_, ?_, ?_⟩ <;>
    · intro heq
      rw [heq] at hc
      exact absurd hc (by decide)
  | bool b =>
    cases b with
    | false => exact ⟨102, _, h, by decide⟩
    | true => exact ⟨116, _, h, by decide⟩
  | str w => exact ⟨34, _, h.2, by decide⟩

theorem reads_sym {t : TokenType} (hc : punctuation.lookup c = some t)
    (rest : List UInt8) : (Token.sym t).Reads (c :: rest) rest := by
  intro line num str
  obtain ⟨_, _, _, _, hblank, _⟩ := punctuation_spec _ (mem_punctuation hc)
  exact ⟨c :: rest, line, num, str, skipBlanks_token hblank _ _, lexToken_sym hc _ _ _, trivial⟩

theorem reads_num {n : ℕ} (hs : IsLiteral s n) (hn : n < 2 ^ 64) (hrest : StopsNumber rest) :
    (Token.num n).Reads (s ++ rest) rest := by
  intro line num str
  obtain ⟨c, t, rfl, hc, _⟩ := lexNumber_eq hs hn hrest
  exact ⟨c :: t ++ rest, line, n, str, skipBlanks_token (ne_of_isdigit hc).2 _ _,
    lexToken_num hs hn hrest _ _, rfl⟩

theorem Blanks.stops {b : List UInt8} (h : Blanks b) (hrest : Stops rest) :
    Stops (b ++ rest) := by
  cases h with
  | nil => exact hrest
  | @blank c b hc _ =>
    refine ⟨c, b ++ rest, rfl, ?_⟩
    rcases hc with h | h | h | h <;> rw [h] <;> rfl
  | @comment body b _ _ _ => exact ⟨47, _, rfl, rfl⟩

variable {toks toks' : List Token} {s' : List UInt8}

theorem Text.stops (h : Text toks s) (hends : EndsWord (toks ++ toks'))
    (hs' : EndsWord toks' → Stops s') : Stops (s ++ s') := by
  cases h with
  | nil hb => exact hb.stops (hs' hends)
  | @cons tok toks b s rest hb hs _ =>
    rw [List.append_assoc]
    apply hb.stops
    cases tok with
    | sym t =>
      obtain ⟨c, hc, rfl⟩ := hs
      exact ⟨c, _, rfl, (punctuation_spec _ (mem_punctuation hc)).2.2.2.2.2.1 hends⟩
    | num | id | bool | str => exact absurd hends id

theorem Ahead.blanks {b : List UInt8} (h : Ahead toks s) (hb : Blanks b) :
    Ahead toks (b ++ s) := by
  cases toks with
  | nil =>
    intro line
    obtain ⟨line', hskip⟩ := skipBlanks_blanks hb s line
    rw [hskip]
    exact h line'
  | cons tok toks =>
    obtain ⟨rest, hreads, hahead⟩ := h
    refine ⟨rest, fun line num str => ?_, hahead⟩
    obtain ⟨line', hskip⟩ := skipBlanks_blanks hb s line
    rw [hskip]
    exact hreads line' num str

theorem Token.Spells.reads {tok : Token} {b : List UInt8} (h : tok.Spells s) (hb : Blanks b)
    (hrest : tok.IsWord → Stops rest) : tok.Reads (b ++ (s ++ rest)) rest := by
  intro line num str
  obtain ⟨line', hskip⟩ := skipBlanks_blanks hb (s ++ rest) line
  obtain ⟨c, t, hshape, hc⟩ := h.head
  obtain ⟨num', str', hlex, hread⟩ := lexToken_eq h hrest num str
  refine ⟨s ++ rest, line', num', str', ?_, hlex, hread⟩
  rw [hskip, hshape]
  exact skipBlanks_token hc _ _

theorem Text.ahead_append (h : Text toks s) (hsep : Separated (toks ++ toks'))
    (hs' : EndsWord toks' → Stops s') (hahead : Ahead toks' s') :
    Ahead (toks ++ toks') (s ++ s') := by
  induction h with
  | nil hb => exact hahead.blanks hb
  | @cons tok toks b s rest hb hs hrest ih =>
    refine ⟨rest ++ s', ?_, ih hsep.2⟩
    have hstops : tok.IsWord → Stops (rest ++ s') := fun hword => hrest.stops (hsep.1 hword) hs'
    simpa only [List.append_assoc] using hs.reads hb hstops

/-- **The tokens of a text are read from it.** -/
theorem Text.ahead (h : Text toks s) (hsep : Separated toks) (after : List UInt8) :
    Ahead toks (s ++ 0 :: after) := by
  have hend : Ahead [] (0 :: after) := fun line => ⟨after, line, skipBlanks_nul after line⟩
  rw [← List.append_nil toks] at hsep ⊢
  exact h.ahead_append hsep (fun _ => ⟨0, after, rfl, rfl⟩) hend

/-! ## What remains -/

theorem skipBlanks_suffix {comment : Bool} {line line' : ℤ}
    (h : skipBlanks comment s line = .ok (s', line')) : s' <:+ s := by
  induction s generalizing comment line with
  | nil => cases comment <;> cases h
  | cons c s ih =>
    have hcons : s <:+ c :: s := List.suffix_cons c s
    cases comment with
    | true => exact (ih h).trans hcons
    | false =>
      rw [skipBlanks] at h
      split_ifs at h
      · exact (Prod.mk.inj (Except.ok.inj h)).1 ▸ List.suffix_rfl
      · exact (ih h).trans hcons
      · exact (ih h).trans hcons
      · exact (ih h).trans hcons
      · exact (Prod.mk.inj (Except.ok.inj h)).1 ▸ List.suffix_rfl

variable {str : List UInt8} {type : TokenType} {val num : ℕ}

section

variable {s rest : List UInt8}

theorem decimalLoop_suffix {n : ℕ} (h : decimalLoop s val = .ok (n, rest)) : rest <:+ s := by
  induction s generalizing val with
  | nil => cases h
  | cons c s ih =>
    rw [decimalLoop] at h
    split_ifs at h
    · exact (ih h).trans (List.suffix_cons c s)
    · exact (Prod.mk.inj (Except.ok.inj h)).2 ▸ List.suffix_rfl

theorem hexLoop_suffix {count n k : ℕ} (h : hexLoop s val count = .ok (n, k, rest)) :
    rest <:+ s := by
  induction s generalizing val count with
  | nil => cases h
  | cons c s ih =>
    rw [hexLoop, hexTest_eq] at h
    by_cases hc : isalnum c = true
    · rw [if_pos hc] at h
      exact (ih h).trans (List.suffix_cons c s)
    · rw [if_neg hc] at h
      exact (Prod.mk.inj (Prod.mk.inj (Except.ok.inj h)).2).2 ▸ List.suffix_rfl

theorem lexNumber_suffix {n : ℕ} (h : lexNumber c s = .ok (n, rest)) : rest <:+ s := by
  unfold lexNumber at h
  split_ifs at h with hpos hx
  · exact decimalLoop_suffix h
  · obtain ⟨_, _, h⟩ := bind_eq_ok.mp h
    obtain ⟨⟨val, count, rest'⟩, hloop, h⟩ := bind_eq_ok.mp h
    dsimp only at h
    split_ifs at h
    cases h
    exact (hexLoop_suffix hloop).trans (List.tail_suffix s)
  · obtain ⟨_, _, h⟩ := bind_eq_ok.mp h
    exact (Prod.mk.inj (Except.ok.inj h)).2 ▸ List.suffix_rfl

theorem lexString_suffix {acc w : List UInt8} (h : lexString s acc = .ok (w, rest)) :
    rest <:+ s := by
  fun_induction lexString s acc with
  | case1 => cases h
  | case2 acc s => exact (Prod.mk.inj (Except.ok.inj h)).2 ▸ List.suffix_rfl
  | case3 acc s => exact (Prod.mk.inj (Except.ok.inj h)).2 ▸ List.suffix_cons _ _
  | case4 => cases h
  | case5 _ c s _ _ ih => exact (ih h).trans ((List.suffix_cons c s).trans (List.suffix_cons _ _))
  | case6 c s _ _ _ _ ih => exact (ih h).trans (List.suffix_cons c s)

theorem lexToken_suffix {num' : ℕ} {str' : List UInt8}
    (h : lexToken s num str = .ok (type, rest, num', str')) :
    (s.head? = some 0 ∧ type = .max ∧ rest = s) ∨ ∃ c t, c ≠ 0 ∧ s = c :: t ∧ rest <:+ t := by
  cases s with
  | nil => cases h
  | cons c s =>
    rw [lexToken] at h
    by_cases hnul : c = 0
    · rw [if_pos hnul] at h
      cases h
      exact Or.inl ⟨congrArg some hnul, rfl, rfl⟩
    rw [if_neg hnul] at h
    refine Or.inr ⟨c, s, hnul, rfl, ?_⟩
    split at h
    · obtain ⟨_, _, h⟩ := bind_eq_ok.mp h
      cases h
      exact List.dropWhile_suffix _
    split at h
    · obtain ⟨⟨val, rest'⟩, hnum, h⟩ := bind_eq_ok.mp h
      cases h
      exact lexNumber_suffix hnum
    split at h
    · obtain ⟨⟨w, rest'⟩, hstr, h⟩ := bind_eq_ok.mp h
      cases h
      exact lexString_suffix hstr
    split at h
    · cases h
      exact List.suffix_rfl
    split at h
    · cases h
      exact List.suffix_rfl
    · cases h

theorem Token.Reads.suffix {tok : Token} (h : tok.Reads s rest) :
    rest <:+ s := by
  obtain ⟨s', _, _, _, hskip, hlex, _⟩ := h 0 0 []
  refine List.IsSuffix.trans ?_ (skipBlanks_suffix hskip)
  cases lexToken_suffix hlex with
  | inl hend => exact hend.2.2 ▸ List.suffix_rfl
  | inr htok =>
    obtain ⟨c, t, -, rfl, hrest⟩ := htok
    exact hrest.trans (List.suffix_cons c t)

end

/-! ## The functions of the parser that read tokens -/

section

variable {ctx : Context} {tok : Token} {toks : List Token} {s rest : List UInt8}

theorem Context.Before.drop_eq (h : ctx.Before s) :
    (0 ≤ ctx.pos ∧ ctx.pos ≤ ctx.src.length) ∧ ctx.src.drop ctx.pos.toNat = s := by
  obtain ⟨pre, hsrc, hpos⟩ := h
  rw [hpos, hsrc, Int.toNat_natCast, List.drop_left, List.length_append]
  exact ⟨⟨by omega, by omega⟩, rfl⟩

theorem next_eq {line : ℤ} (h : ctx.Before s) (hskip : skipBlanks false s ctx.line = .ok (s', line))
    (hlex : lexToken s' ctx.num ctx.str = .ok (type, rest, num, str)) :
    next ctx =
      .ok (type, ⟨ctx.src, toInt32 (ctx.src.length - rest.length), line, num, str⟩) := by
  obtain ⟨hin, hdrop⟩ := h.drop_eq
  rw [next, access_pos hin, ok_bind, hdrop, hskip, ok_bind]
  dsimp only
  rw [hlex]
  rfl

theorem Context.Before.advance (h : ctx.Before s) (hrest : rest <:+ s)
    (hlt : ctx.src.length < 2 ^ 31 + rest.length) (line : ℤ) (num : ℕ) (str : List UInt8) :
    Context.Before ⟨ctx.src, toInt32 (ctx.src.length - rest.length), line, num, str⟩ rest := by
  obtain ⟨pre, hsrc, _⟩ := h
  obtain ⟨t, rfl⟩ := hrest
  refine ⟨pre ++ t, ?_, ?_⟩
  · show ctx.src = pre ++ t ++ rest
    rw [hsrc, List.append_assoc]
  · show toInt32 (ctx.src.length - rest.length) = (pre ++ t).length
    have hlen : ctx.src.length = (pre ++ t).length + rest.length := by
      rw [hsrc, ← List.append_assoc, List.length_append]
    rw [hlen, toInt32_of_lt (by omega) (by omega)]
    push_cast
    omega

/-- **`next` reads the first token**, if it ends where the position is still an `int`. -/
theorem next_reads (h : ctx.Before s) (hreads : tok.Reads s rest)
    (hlt : ctx.src.length < 2 ^ 31 + rest.length) :
    ∃ ctx', next ctx = .ok (tok.type, ctx') ∧ ctx'.Before rest ∧ tok.Read ctx'.num ctx'.str ∧
      ctx'.src = ctx.src := by
  obtain ⟨s', line, num, str, hskip, hlex, hread⟩ := hreads ctx.line ctx.num ctx.str
  exact ⟨_, next_eq h hskip hlex, h.advance hreads.suffix hlt _ _ _, hread, rfl⟩

theorem Ahead.ne_nil (h : Ahead toks s) : s ≠ [] := by
  rintro rfl
  cases toks with
  | nil =>
    obtain ⟨_, _, hskip⟩ := h 0
    cases hskip
  | cons tok toks =>
    obtain ⟨rest, hreads, _⟩ := h
    obtain ⟨_, _, _, _, hskip, _⟩ := hreads 0 0 []
    cases hskip

/-- `next` reads the first token of a text. -/
theorem next_at (h : ctx.At (tok :: toks)) :
    ∃ ctx', next ctx = .ok (tok.type, ctx') ∧ ctx'.At toks ∧ tok.Read ctx'.num ctx'.str ∧
      ctx'.src = ctx.src := by
  obtain ⟨hlen, s, hbefore, rest, hreads, hahead⟩ := h
  have hpos := List.length_pos_iff.mpr hahead.ne_nil
  obtain ⟨ctx', hnext, hbefore', hread, hsrc⟩ := next_reads hbefore hreads (by omega)
  exact ⟨ctx', hnext, ⟨hsrc.symm ▸ hlen, rest, hbefore', hahead⟩, hread, hsrc⟩

theorem next_at_end (h : ctx.At []) :
    ∃ ctx', next ctx = .ok (.max, ctx') ∧ ctx'.src = ctx.src := by
  obtain ⟨_, s, hbefore, hahead⟩ := h
  obtain ⟨t, line, hskip⟩ := hahead ctx.line
  exact ⟨_, next_eq hbefore hskip rfl, rfl⟩

theorem next_headType (h : ctx.At toks) :
    ∃ ctx', next ctx = .ok (headType toks, ctx') ∧ ctx'.src = ctx.src := by
  cases toks with
  | nil => exact next_at_end h
  | cons tok toks =>
    obtain ⟨ctx', hnext, _, _, hsrc⟩ := next_at h
    exact ⟨ctx', hnext, hsrc⟩

theorem Context.At.clobber (h : ctx.At toks) (num : ℕ) (str : List UInt8) :
    Context.At ⟨ctx.src, ctx.pos, ctx.line, num, str⟩ toks := h

theorem peek_at (h : ctx.At toks) :
    ∃ ctx', peek ctx = .ok (headType toks, ctx') ∧ ctx'.At toks := by
  obtain ⟨ctx', hnext, hsrc⟩ := next_headType h
  refine ⟨⟨ctx'.src, ctx.pos, ctx.line, ctx'.num, ctx'.str⟩, ?_, ?_⟩
  · rw [peek, hnext]
    rfl
  · rw [hsrc]
    exact h.clobber _ _

theorem expect_at (h : ctx.At (tok :: toks)) :
    ∃ ctx', expect ctx tok.type = .ok ctx' ∧ ctx'.At toks ∧ tok.Read ctx'.num ctx'.str := by
  obtain ⟨ctx', hnext, hat, hread, _⟩ := next_at h
  refine ⟨ctx', ?_, hat, hread⟩
  rw [expect, hnext, ok_bind]
  exact if_neg (not_not.mpr rfl)

theorem nextIf_at (h : ctx.At (tok :: toks)) :
    ∃ ctx', nextIf ctx tok.type = .ok (true, ctx') ∧ ctx'.At toks := by
  obtain ⟨ctx', hnext, hat, _, _⟩ := next_at h
  refine ⟨ctx', ?_, hat⟩
  rw [nextIf, hnext, ok_bind]
  exact if_neg (not_not.mpr rfl)

theorem nextIf_at_other (h : ctx.At toks) (hne : headType toks ≠ type) :
    ∃ ctx', nextIf ctx type = .ok (false, ctx') ∧ ctx'.At toks := by
  obtain ⟨ctx', hnext, hsrc⟩ := next_headType h
  refine ⟨⟨ctx'.src, ctx.pos, ctx.line, ctx'.num, ctx'.str⟩, ?_, ?_⟩
  · rw [nextIf, hnext, ok_bind]
    exact if_pos hne
  · rw [hsrc]
    exact h.clobber _ _

end

end Ginkgo.Xjil
