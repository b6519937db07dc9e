import Ginkgo.Xjil.Parser

/-!
# Device descriptions are read back

A device description is a tree: numbers, booleans, strings, arrays and objects, with tags.  A text
of a tree has its tokens, and `xjil_parse` reads the tree back from every text of it.

## Main results

* `xjilParse_tree` — every text of a tree gives the tree.
-/

namespace Ginkgo.Xjil

/-- An identifier that is no prefix of `true` or `false`. -/
structure Ident where
  chars : List UInt8
  valid : IsIdent chars

mutual

/-- A device description: a tag alone, or a value with an optional tag. -/
inductive Tree
  | tagOnly (tag : Ident)
  | plain (tag : Option Ident) (body : Body)

/-- What a value is, but for its tag. -/
inductive Body
  | num (n : ℕ) (hn : n < 2 ^ 31)
  | bool (b : Bool)
  | str (w : List UInt8) (hw : 0 ∉ w)
  | arr (es : List Tree)
  | obj (ms : List (Ident × Tree))
  | objArr (ms : List (Ident × Tree)) (es : List Tree)

end

/-! ## The tokens of a tree -/

/-- The tokens of a tag. -/
def Ident.tagTokens (tag : Ident) : List Token := [.sym .lt, .id tag.chars, .sym .gt]

mutual

/-- The tokens of a tree. -/
def Tree.Tokens : Tree → List Token → Prop
  | .tagOnly tag, ts => ts = tag.tagTokens
  | .plain tag body, ts => ∃ bs, body.Tokens bs ∧ ts = (tag.map Ident.tagTokens).getD [] ++ bs

/-- The tokens of a value without its tag. -/
def Body.Tokens : Body → List Token → Prop
  | .num n _, ts => ts = [.num n]
  | .bool b, ts => ts = [.bool b]
  | .str w _, ts => ts = [.str w]
  | .arr es, ts => ∃ inner, elemsTokens es inner ∧
      ts = .sym .bracketOpen :: inner ++ [.sym .bracketClose]
  | .obj ms, ts => ∃ inner, membersTokens ms inner ∧
      ts = .sym .braceOpen :: inner ++ [.sym .braceClose]
  | .objArr ms es, ts => ∃ inner inner', membersTokens ms inner ∧ elemsTokens es inner' ∧
      ts = .sym .braceOpen :: inner ++ .sym .braceClose ::
        (.sym .bracketOpen :: inner' ++ [.sym .bracketClose])

/-- The tokens of the elements of an array; the comma after the last one is optional. -/
def elemsTokens : List Tree → List Token → Prop
  | [], ts => ts = []
  | t :: es, ts => ∃ s rest, t.Tokens s ∧ elemsTokens es rest ∧
      (es = [] ∧ ts = s ∨ ts = s ++ .sym .comma :: rest)

/-- The tokens of the members of an object; the comma after the last one is optional. -/
def membersTokens : List (Ident × Tree) → List Token → Prop
  | [], ts => ts = []
  | (key, t) :: ms, ts => ∃ s rest, t.Tokens s ∧ membersTokens ms rest ∧
      (ms = [] ∧ ts = .id key.chars :: .sym .colon :: s ∨
        ts = .id key.chars :: .sym .colon :: s ++ .sym .comma :: rest)

end

/-! ## The value of a tree -/

mutual

/-- The value is the tree. -/
def Tree.Represented : Tree → Value → Prop
  | .tagOnly tag, v => v = ⟨.num 0, none, some tag.chars, 0⟩
  | .plain tag body, v => v.tag = tag.map Ident.chars ∧ body.Represented v

/-- The value is the tree, but for its tag. -/
def Body.Represented : Body → Value → Prop
  | .num n _, v => v.word = .num n ∧ v.obj = none ∧ v.type = ValueType.number.code
  | .bool b, v => v.word = .num b.toNat ∧ v.obj = none ∧ v.type = ValueType.bool.code
  | .str w _, v => v.word = .str w ∧ v.obj = none ∧ v.type = ValueType.string.code
  | .arr es, v => (∃ a, v.word = .arr a ∧ elemsRepresented es a.arr) ∧ v.obj = none ∧
      v.type = ValueType.array.code
  | .obj ms, v => v.word = .num 0 ∧ (∃ o, v.obj = some o ∧ membersRepresented ms o.arr) ∧
      v.type = ValueType.object.code
  | .objArr ms es, v => (∃ a, v.word = .arr a ∧ elemsRepresented es a.arr) ∧
      (∃ o, v.obj = some o ∧ membersRepresented ms o.arr) ∧
      v.type = ValueType.object.code + ValueType.array.code

/-- The values are the elements, in their order. -/
def elemsRepresented : List Tree → List (Option Value) → Prop
  | [], vs => vs = []
  | t :: es, vs => ∃ v vs', vs = some v :: vs' ∧ t.Represented v ∧ elemsRepresented es vs'

/-- The values are the members with their keys, in their order. -/
def membersRepresented : List (Ident × Tree) → List (Option (Member Value)) → Prop
  | [], vs => vs = []
  | (key, t) :: ms, vs => ∃ v vs', vs = some ⟨key.chars, v⟩ :: vs' ∧ t.Represented v ∧
      membersRepresented ms vs'

end

mutual

/-- No array and no object of the tree has more than `2 ^ 28` elements. -/
def Tree.Fits : Tree → Prop
  | .tagOnly _ => True
  | .plain _ body => body.Fits

def Body.Fits : Body → Prop
  | .num _ _ | .bool _ | .str _ _ => True
  | .arr es => es.length ≤ 2 ^ 28 ∧ elemsFit es
  | .obj ms => ms.length ≤ 2 ^ 28 ∧ membersFit ms
  | .objArr ms es => (ms.length ≤ 2 ^ 28 ∧ membersFit ms) ∧ es.length ≤ 2 ^ 28 ∧ elemsFit es

def elemsFit : List Tree → Prop
  | [] => True
  | t :: es => t.Fits ∧ elemsFit es

def membersFit : List (Ident × Tree) → Prop
  | [] => True
  | (_, t) :: ms => t.Fits ∧ membersFit ms

end

/-! ## What follows a value -/

/-- The tokens after a value. -/
def Follows : List Token → Prop
  | [] => True
  | .sym t :: _ => t = .comma ∨ t = .bracketClose ∨ t = .braceClose
  | _ :: _ => False

theorem Follows.endsWord {rest : List Token} (h : Follows rest) : EndsWord rest := by
  cases rest with
  | nil => trivial
  | cons tok rest =>
    cases tok with
    | sym t =>
      intro heq
      rw [heq] at h
      exact absurd h (by simp [Follows])
    | num | id | bool | str => exact h

theorem follows_comma (rest : List Token) : Follows (.sym .comma :: rest) := .inl rfl

theorem follows_bracketClose (rest : List Token) : Follows (.sym .bracketClose :: rest) :=
  .inr (.inl rfl)

theorem follows_braceClose (rest : List Token) : Follows (.sym .braceClose :: rest) :=
  .inr (.inr rfl)

theorem Follows.headType_ne {rest : List Token} (h : Follows rest) :
    headType rest ≠ .mul ∧ headType rest ≠ .div ∧ headType rest ≠ .plus ∧
      headType rest ≠ .minus ∧ headType rest ≠ .bracketOpen := by
  cases rest with
  | nil => decide
  | cons tok rest =>
    cases tok with
    | sym t =>
      show t ≠ _ ∧ t ≠ _ ∧ t ≠ _ ∧ t ≠ _ ∧ t ≠ _
      rcases h with rfl | rfl | rfl <;> decide
    | num | id | bool | str => exact absurd h id

theorem separated_sym {t : TokenType} {toks : List Token} (h : Separated toks) :
    Separated (.sym t :: toks) :=
  ⟨fun hword => absurd hword id, h⟩

theorem separated_ident {w : List UInt8} {t : TokenType} {toks : List Token} (ht : t ≠ .minus)
    (h : Separated toks) : Separated (.id w :: .sym t :: toks) :=
  ⟨fun _ => ht, separated_sym h⟩

theorem separated_tagTokens (tag : Ident) {toks : List Token} (h : Separated toks) :
    Separated (tag.tagTokens ++ toks) :=
  separated_sym (separated_ident (by decide) h)

mutual

theorem Tree.separated : ∀ (t : Tree) {ts rest : List Token}, t.Tokens ts → Follows rest →
    Separated rest → Separated (ts ++ rest)
  | .tagOnly tag, ts, rest, h, _, hsep => by
    have hts : ts = tag.tagTokens := h
    rw [hts]
    exact separated_tagTokens tag hsep
  | .plain tag body, ts, rest, h, hrest, hsep => by
    obtain ⟨bs, hbs, rfl⟩ := h
    have hbody := body.separated hbs hrest hsep
    rw [List.append_assoc]
    cases tag with
    | none => exact hbody
    | some tag => exact separated_tagTokens tag hbody

theorem Body.separated : ∀ (b : Body) {ts rest : List Token}, b.Tokens ts → Follows rest →
    Separated rest → Separated (ts ++ rest)
  | .num n hn, ts, rest, h, hrest, hsep => by
    have hts : ts = [.num n] := h
    rw [hts]
    exact ⟨fun _ => hrest.endsWord, hsep⟩
  | .bool b, ts, rest, h, hrest, hsep => by
    have hts : ts = [.bool b] := h
    rw [hts]
    exact ⟨fun _ => hrest.endsWord, hsep⟩
  | .str w hw, ts, rest, h, _, hsep => by
    have hts : ts = [.str w] := h
    rw [hts]
    exact ⟨fun hword => absurd hword id, hsep⟩
  | .arr es, ts, rest, h, hrest, hsep => by
    obtain ⟨inner, hinner, rfl⟩ := h
    rw [List.append_assoc]
    exact separated_sym (elems_separated es hinner (follows_bracketClose rest) (separated_sym hsep))
  | .obj ms, ts, rest, h, hrest, hsep => by
    obtain ⟨inner, hinner, rfl⟩ := h
    rw [List.append_assoc]
    exact separated_sym (members_separated ms hinner (follows_braceClose rest) (separated_sym hsep))
  | .objArr ms es, ts, rest, h, hrest, hsep => by
    obtain ⟨inner, inner', hinner, hinner', rfl⟩ := h
    have harr : Separated (inner' ++ .sym .bracketClose :: rest) :=
      elems_separated es hinner' (follows_bracketClose rest) (separated_sym hsep)
    have hobj : Separated (inner ++ .sym .braceClose :: .sym .bracketOpen ::
        (inner' ++ .sym .bracketClose :: rest)) :=
      members_separated ms hinner (follows_braceClose _) (separated_sym (separated_sym harr))
    simpa using separated_sym hobj

theorem elems_separated : ∀ (es : List Tree) {ts rest : List Token}, elemsTokens es ts →
    Follows rest → Separated rest → Separated (ts ++ rest)
  | [], ts, rest, h, _, hsep => by
    have hts : ts = [] := h
    rw [hts]
    exact hsep
  | t :: es, ts, rest, h, hrest, hsep => by
    obtain ⟨s, rest', hs, hrest', hcase⟩ := h
    cases hcase with
    | inl hlast =>
      rw [hlast.2]
      exact t.separated hs hrest hsep
    | inr hcomma =>
      rw [hcomma, List.append_assoc]
      exact t.separated hs (follows_comma _) (separated_sym (elems_separated es hrest' hrest hsep))

theorem members_separated : ∀ (ms : List (Ident × Tree)) {ts rest : List Token},
    membersTokens ms ts → Follows rest → Separated rest → Separated (ts ++ rest)
  | [], ts, rest, h, _, hsep => by
    have hts : ts = [] := h
    rw [hts]
    exact hsep
  | (key, t) :: ms, ts, rest, h, hrest, hsep => by
    obtain ⟨s, rest', hs, hrest', hcase⟩ := h
    cases hcase with
    | inl hlast =>
      rw [hlast.2]
      exact separated_ident (by decide) (t.separated hs hrest hsep)
    | inr hcomma =>
      have hnext : Separated (s ++ .sym .comma :: (rest' ++ rest)) :=
        t.separated hs (follows_comma _) (separated_sym (members_separated ms hrest' hrest hsep))
      rw [hcomma]
      simpa using separated_ident (w := key.chars) (t := .colon) (by decide) hnext

end

/-! ## Numbers -/

theorem lift_ok {α : Type} (a : α) : (liftM (Except.ok a : Except Fault α) : Parse α) = pure a :=
  rfl

section

variable {ctx : Context} {rest : List Token}

section

variable {n : ℕ} (fuel : ℕ) (h : ctx.At (.num n :: rest))

include fuel h

theorem parserFactor_num :
    ∃ ctx', parserFactor (fuel + 1) ctx = pure (toInt32 n, ctx') ∧ ctx'.At rest := by
  obtain ⟨ctx₁, hpeek, hat₁⟩ := peek_at h
  obtain ⟨ctx₂, hnext, hat₂, hread, _⟩ := next_at hat₁
  refine ⟨ctx₂, ?_, hat₂⟩
  have hnum : ctx₂.num = n := hread
  rw [parserFactor, hpeek]
  simp only [lift_ok, pure_bind, headType, Token.type, reduceCtorEq, if_false, if_true, hnext, hnum]

theorem parserTerm_num (hrest : Follows rest) :
    ∃ ctx', parserTerm (fuel + 2) ctx = pure (toInt32 n, ctx') ∧ ctx'.At rest := by
  obtain ⟨ctx₁, hfactor, hat₁⟩ := parserFactor_num fuel h
  obtain ⟨ctx₂, hpeek, hat₂⟩ := peek_at hat₁
  have hhead := hrest.headType_ne
  refine ⟨ctx₂, ?_, hat₂⟩
  rw [parserTerm, hfactor, pure_bind]
  simp only [hpeek, lift_ok, pure_bind]
  rw [termLoop, if_pos (not_or.mpr ⟨hhead.1, hhead.2.1⟩)]

theorem parserExp_num (hrest : Follows rest) :
    ∃ ctx', parserExp (fuel + 3) ctx = pure (toInt32 n, ctx') ∧ ctx'.At rest := by
  obtain ⟨ctx₁, hterm, hat₁⟩ := parserTerm_num fuel h hrest
  obtain ⟨ctx₂, hpeek, hat₂⟩ := peek_at hat₁
  have hhead := hrest.headType_ne
  refine ⟨ctx₂, ?_, hat₂⟩
  rw [parserExp, hterm, pure_bind]
  simp only [hpeek, lift_ok, pure_bind]
  rw [expLoop, if_pos (not_or.mpr ⟨hhead.2.2.1, hhead.2.2.2.1⟩)]

end

/-! ## Tags -/

theorem parserTag_at {tag : Ident} (h : ctx.At (tag.tagTokens ++ rest)) (value : Value) :
    ∃ ctx', parserTag ctx value = .ok (ctx', { value with tag := some tag.chars }) ∧
      ctx'.At rest := by
  obtain ⟨ctx₁, hlt, hat₁, _⟩ := expect_at h
  obtain ⟨ctx₂, hid, hat₂, hread⟩ := expect_at hat₁
  obtain ⟨ctx₃, hgt, hat₃, _⟩ := expect_at hat₂
  have hstr : ctx₂.str = tag.chars := hread
  refine ⟨ctx₃, ?_, hat₃⟩
  simp only [Token.type] at hlt hid hgt
  rw [parserTag, hlt, Fallible.ok_bind, hid, Fallible.ok_bind, hstr, hgt, Fallible.ok_bind]
  rfl

/-! ## Arrays -/

/-- The capacity of an array is a power of two that its size does not exceed. -/
def XArray.Good {α : Type} (a : XArray α) : Prop :=
  ∃ k, a.capacity = 2 ^ k ∧ a.arr.length ≤ 2 ^ k

theorem XArray.good_new {α : Type} : (XArray.new 1 : XArray α).Good := ⟨0, rfl, Nat.zero_le _⟩

theorem XArray.push_arr {α : Type} {a : XArray α} (h : a.Good) (hlt : a.arr.length < 2 ^ 28)
    (x : α) : (a.push x).arr = a.arr ++ [some x] ∧ (a.push x).Good := by
  obtain ⟨k, hcap, hle⟩ := h
  unfold XArray.push
  by_cases hfull : a.capacity ≤ a.arr.length
  · have hlen : a.arr.length = 2 ^ k := by omega
    have hk : 2 ^ k < 2 ^ 28 := by omega
    have hcopied : 8 * (2 ^ k * 2) % 2 ^ 32 / 8 = 2 ^ k * 2 := by omega
    have harr : (a.resize (a.capacity * 2)).arr = a.arr := by
      simp only [XArray.resize, hcap, hcopied, hlen]
      rw [Nat.sub_eq_zero_of_le (by omega), List.replicate_zero, List.append_nil,
        List.take_take, Nat.min_self, List.take_of_length_le (by omega)]
    simp only [if_pos hfull, harr]
    refine ⟨trivial, k + 1, ?_, ?_⟩
    · show a.capacity * 2 = 2 ^ (k + 1)
      rw [hcap, pow_succ]
    · simp only [List.length_append, List.length_singleton, hlen]
      have hpos := Nat.two_pow_pos k
      rw [pow_succ]
      omega
  · simp only [if_neg hfull]
    refine ⟨trivial, k, hcap, ?_⟩
    simp only [List.length_append, List.length_singleton]
    omega

theorem Body.Tokens.head {b : Body} {bs : List Token} (h : b.Tokens bs) (rest : List Token) :
    0 < bs.length ∧ headType (bs ++ rest) ≠ .bracketClose ∧ headType (bs ++ rest) ≠ .lt := by
  cases b with
  | num n hn => rw [show bs = [.num n] from h]; simp [headType, Token.type]
  | bool b => rw [show bs = [.bool b] from h]; simp [headType, Token.type]
  | str w hw => rw [show bs = [.str w] from h]; simp [headType, Token.type]
  | arr es =>
    obtain ⟨inner, _, rfl⟩ := h
    simp [headType, Token.type]
  | obj ms =>
    obtain ⟨inner, _, rfl⟩ := h
    simp [headType, Token.type]
  | objArr ms es =>
    obtain ⟨inner, inner', _, _, rfl⟩ := h
    simp [headType, Token.type]

theorem Tree.Tokens.head {t : Tree} {ts : List Token} (h : t.Tokens ts) (rest : List Token) :
    headType (ts ++ rest) ≠ .bracketClose := by
  cases t with
  | tagOnly tag =>
    rw [show ts = tag.tagTokens from h]
    simp [Ident.tagTokens, headType, Token.type]
  | plain tag body =>
    obtain ⟨bs, hbs, rfl⟩ := h
    cases tag with
    | none => exact (hbs.head rest).2.1
    | some tag => simp [Ident.tagTokens, headType, Token.type]

/-! ## Steps of the parser -/

variable {fuel : ℕ} {value value' v : Value} {type : TokenType} {b : Bool}
  {ctx₁ ctx₂ ctx₃ : Context}

theorem parserValue_body (h : peek ctx = .ok (type, ctx₁)) (hne : type ≠ .lt) :
    parserValue (fuel + 1) ctx value = parserBody fuel ctx₁ value type false := by
  rw [parserValue, h]
  simp only [lift_ok, pure_bind]
  rw [if_neg hne]

theorem parserValue_tag {tag : Ident} (h : ctx.At (tag.tagTokens ++ rest)) :
    ∃ ctx', parserValue (fuel + 1) ctx value =
      parserBody fuel ctx' { value with tag := some tag.chars } (headType rest) true ∧
      ctx'.At rest := by
  obtain ⟨ctx₁, hpeek, hat₁⟩ := peek_at h
  obtain ⟨ctx₂, htag, hat₂⟩ := parserTag_at hat₁ value
  obtain ⟨ctx₃, hpeek₃, hat₃⟩ := peek_at hat₂
  refine ⟨ctx₃, ?_, hat₃⟩
  rw [parserValue, hpeek]
  simp only [lift_ok, pure_bind, htag, hpeek₃]
  exact if_pos rfl

theorem parserArray_new {inner : List Token} {obj : Option (XArray (Member Value))}
    {tag : Option (List UInt8)} {bits : ℕ} {es : List Tree}
    (hloop : ∀ {ctx₁ : Context}, ctx₁.At (inner ++ .sym .bracketClose :: rest) → ∃ ctx₂ a vs,
      arrayLoop fuel ctx₁ ⟨.arr (.new 1), obj, tag, bits⟩ = pure (ctx₂, ⟨.arr a, obj, tag, bits⟩) ∧
        ctx₂.At (.sym .bracketClose :: rest) ∧ a.arr = [] ++ vs ∧ elemsRepresented es vs)
    (h : ctx.At (.sym .bracketOpen :: (inner ++ .sym .bracketClose :: rest))) :
    ∃ ctx' a, parserArray (fuel + 1) ctx ⟨.arr (.new 1), obj, tag, bits⟩ =
        pure (ctx', ⟨.arr a, obj, tag, bits⟩) ∧
      ctx'.At rest ∧ elemsRepresented es a.arr := by
  obtain ⟨ctx₁, hopen, hat₁, _⟩ := expect_at h
  obtain ⟨ctx₂, a, vs, hrun, hat₂, harr, hrep⟩ := hloop hat₁
  obtain ⟨ctx₃, hclose, hat₃, _⟩ := expect_at hat₂
  refine ⟨ctx₃, a, ?_, hat₃, ?_⟩
  · simp only [Token.type] at hopen hclose
    rw [parserArray, hopen]
    simp only [lift_ok, pure_bind, hrun, hclose]
  · rw [harr]
    exact hrep

theorem parserObject_new {inner : List Token} {word : Word Value} {tag : Option (List UInt8)}
    {bits : ℕ} {P : List (Option (Member Value)) → Prop}
    (hloop : ∀ {ctx₁ : Context}, ctx₁.At (inner ++ .sym .braceClose :: rest) → ∃ ctx₂ a vs,
      objectLoop fuel ctx₁ ⟨word, some (.new 1), tag, bits⟩ =
          pure (ctx₂, ⟨word, some a, tag, bits⟩) ∧
        ctx₂.At (.sym .braceClose :: rest) ∧ a.arr = [] ++ vs ∧ P vs)
    (h : ctx.At (.sym .braceOpen :: (inner ++ .sym .braceClose :: rest))) :
    ∃ ctx' a, parserObject (fuel + 1) ctx ⟨word, some (.new 1), tag, bits⟩ =
        pure (ctx', ⟨word, some a, tag, bits⟩) ∧
      ctx'.At rest ∧ P a.arr := by
  obtain ⟨ctx₁, hopen, hat₁, _⟩ := expect_at h
  obtain ⟨ctx₂, a, vs, hrun, hat₂, harr, hrep⟩ := hloop hat₁
  obtain ⟨ctx₃, hclose, hat₃, _⟩ := expect_at hat₂
  refine ⟨ctx₃, a, ?_, hat₃, ?_⟩
  · simp only [Token.type] at hopen hclose
    rw [parserObject, hopen]
    simp only [lift_ok, pure_bind, hrun, hclose]
  · rw [harr]
    exact hrep

theorem arrayLoop_end (h : ctx.At (.sym .bracketClose :: rest)) :
    ∃ ctx', arrayLoop (fuel + 1) ctx value = pure (ctx', value) ∧
      ctx'.At (.sym .bracketClose :: rest) := by
  obtain ⟨ctx₁, hpeek, hat₁⟩ := peek_at h
  refine ⟨ctx₁, ?_, hat₁⟩
  rw [arrayLoop, hpeek]
  simp only [lift_ok, pure_bind]
  exact if_pos rfl

theorem arrayLoop_step (hpeek : peek ctx = .ok (type, ctx₁)) (hne : type ≠ .bracketClose)
    (hval : parserValue fuel ctx₁ valueNew = pure (ctx₂, v))
    (hpush : pushElement value v = .ok value') (hcomma : nextIf ctx₂ .comma = .ok (b, ctx₃)) :
    arrayLoop (fuel + 1) ctx value =
      if b then arrayLoop fuel ctx₃ value' else pure (ctx₃, value') := by
  rw [arrayLoop, hpeek]
  simp only [lift_ok, pure_bind, hval, hpush, hcomma]
  rw [if_neg hne]

theorem pushElement_eq {a : XArray Value} (htype : value.type &&& ValueType.array.code ≠ 0)
    (hword : value.word = .arr a) :
    pushElement value v = .ok { value with word := .arr (a.push v) } := by
  rw [pushElement, kassert_pos htype, Fallible.ok_bind, hword]

theorem objectLoop_end (h : ctx.At (.sym .braceClose :: rest)) :
    ∃ ctx', objectLoop (fuel + 1) ctx value = pure (ctx', value) ∧
      ctx'.At (.sym .braceClose :: rest) := by
  obtain ⟨ctx₁, hpeek, hat₁⟩ := peek_at h
  refine ⟨ctx₁, ?_, hat₁⟩
  rw [objectLoop, hpeek]
  simp only [lift_ok, pure_bind]
  exact if_pos (by simp [headType, Token.type])

theorem objectLoop_key {key : Ident} (h : ctx.At (.id key.chars :: .sym .colon :: rest)) :
    ∃ ctx', ctx'.At rest ∧ ∀ {value' v : Value} {b : Bool} {ctx₂ ctx₃ : Context},
      parserValue fuel ctx' valueNew = pure (ctx₂, v) →
      pushMember value ⟨key.chars, v⟩ = .ok value' → nextIf ctx₂ .comma = .ok (b, ctx₃) →
      objectLoop (fuel + 1) ctx value =
        if b then objectLoop fuel ctx₃ value' else pure (ctx₃, value') := by
  obtain ⟨ctx₁, hpeek, hat₁⟩ := peek_at h
  obtain ⟨ctx₂, hid, hat₂, hread⟩ := expect_at hat₁
  obtain ⟨ctx₃, hcolon, hat₃, _⟩ := expect_at hat₂
  have hstr : ctx₂.str = key.chars := hread
  simp only [Token.type] at hid hcolon
  refine ⟨ctx₃, hat₃, ?_⟩
  intro value' v b ctx₄ ctx₅ hval hpush hcomma
  rw [objectLoop, hpeek]
  simp only [lift_ok, pure_bind, headType, Token.type, ne_eq, not_true, if_false, hid, hcolon, hstr,
    hval, hpush, hcomma]

section

variable {o : XArray (Member Value)} (htype : value.type &&& ValueType.object.code ≠ 0)
  (hobj : value.obj = some o)

include htype hobj

theorem pushMember_eq {mem : Member Value} :
    pushMember value mem = .ok { value with obj := some (o.push mem) } := by
  rw [pushMember, kassert_pos htype, Fallible.ok_bind, hobj]

theorem objectLoop_comma {key : Ident} {s : List Token} {P : Value → Prop}
    (hval : ∀ {ctx₁ : Context}, ctx₁.At (s ++ .sym .comma :: rest) →
      ∃ ctx₂ v, parserValue fuel ctx₁ valueNew = pure (ctx₂, v) ∧
        ctx₂.At (.sym .comma :: rest) ∧ P v)
    (h : ctx.At (.id key.chars :: .sym .colon :: (s ++ .sym .comma :: rest))) :
    ∃ ctx' v, objectLoop (fuel + 1) ctx value =
        objectLoop fuel ctx' { value with obj := some (o.push ⟨key.chars, v⟩) } ∧
      ctx'.At rest ∧ P v := by
  obtain ⟨ctx₁, hat₁, hstep⟩ := objectLoop_key h
  obtain ⟨ctx₂, v, hval, hat₂, hP⟩ := hval hat₁
  obtain ⟨ctx₃, hcomma, hat₃⟩ := nextIf_at hat₂
  exact ⟨ctx₃, v, hstep hval (pushMember_eq htype hobj) hcomma, hat₃, hP⟩

theorem objectLoop_last {key : Ident} {s : List Token} {P : Value → Prop}
    (hval : ∀ {ctx₁ : Context}, ctx₁.At (s ++ .sym .braceClose :: rest) →
      ∃ ctx₂ v, parserValue fuel ctx₁ valueNew = pure (ctx₂, v) ∧
        ctx₂.At (.sym .braceClose :: rest) ∧ P v)
    (h : ctx.At (.id key.chars :: .sym .colon :: (s ++ .sym .braceClose :: rest))) :
    ∃ ctx' v, objectLoop (fuel + 1) ctx value =
        pure (ctx', { value with obj := some (o.push ⟨key.chars, v⟩) }) ∧
      ctx'.At (.sym .braceClose :: rest) ∧ P v := by
  obtain ⟨ctx₁, hat₁, hstep⟩ := objectLoop_key h
  obtain ⟨ctx₂, v, hval, hat₂, hP⟩ := hval hat₁
  obtain ⟨ctx₃, hcomma, hat₃⟩ :=
    nextIf_at_other hat₂ (show TokenType.braceClose ≠ .comma by decide)
  exact ⟨ctx₃, v, hstep hval (pushMember_eq htype hobj) hcomma, hat₃, hP⟩

end

theorem parserBody_tagOnly (hrest : Follows rest) :
    parserBody (fuel + 1) ctx value (headType rest) true = pure (ctx, value) := by
  cases rest with
  | nil => rfl
  | cons tok rest =>
    cases tok with
    | sym t =>
      rcases hrest with rfl | rfl | rfl
      · rfl
      · rfl
      · rfl
    | num | id | bool | str => exact absurd hrest id

/-- The value of a number: the `int` is extended to 64 bits with its sign. -/
def signExtended (n : ℕ) : ℕ := (toInt32 n % 2 ^ 64).toNat

theorem signExtended_of_lt {n : ℕ} (hn : n < 2 ^ 31) : signExtended n = n := by
  rw [signExtended, toInt32_of_lt (by omega) (by omega)]
  omega

theorem parserBody_num {n : ℕ} {tag : Option (List UInt8)} (h : ctx.At (.num n :: rest))
    (hrest : Follows rest) :
    ∃ ctx', parserBody (fuel + 4) ctx { valueNew with tag := tag } .num b =
      pure (ctx', ⟨.num (signExtended n), none, tag, ValueType.number.code⟩) ∧ ctx'.At rest := by
  obtain ⟨ctx₁, hexp, hat₁⟩ := parserExp_num fuel h hrest
  refine ⟨ctx₁, ?_, hat₁⟩
  rw [parserBody]
  simp only [reduceCtorEq, if_false, true_or, if_true, valueInit, lift_ok, pure_bind, hexp]
  rfl

theorem parserBody_bool {c : Bool} {tag : Option (List UInt8)} (h : ctx.At (.bool c :: rest)) :
    ∃ ctx', parserBody (fuel + 1) ctx { valueNew with tag := tag } .bool b =
      pure (ctx', ⟨.num c.toNat, none, tag, ValueType.bool.code⟩) ∧ ctx'.At rest := by
  obtain ⟨ctx₁, hnext, hat₁, hread, _⟩ := next_at h
  have hnum : ctx₁.num = c.toNat := hread
  refine ⟨ctx₁, ?_, hat₁⟩
  rw [parserBody, hnext]
  simp only [reduceCtorEq, if_false, or_self, if_true, valueInit, lift_ok, pure_bind, hnum]
  rfl

theorem parserBody_str {w : List UInt8} {tag : Option (List UInt8)} (h : ctx.At (.str w :: rest)) :
    ∃ ctx', parserBody (fuel + 1) ctx { valueNew with tag := tag } .string b =
      pure (ctx', ⟨.str w, none, tag, ValueType.string.code⟩) ∧ ctx'.At rest := by
  obtain ⟨ctx₁, hnext, hat₁, hread, _⟩ := next_at h
  have hstr : ctx₁.str = w := hread
  refine ⟨ctx₁, ?_, hat₁⟩
  rw [parserBody, hnext]
  simp only [reduceCtorEq, if_false, or_self, if_true, valueInit, lift_ok, pure_bind, hstr]
  rfl

theorem valueInit_array (obj : Option (XArray (Member Value))) (tag : Option (List UInt8))
    (bits : ℕ) : valueInit ⟨.num 0, obj, tag, bits⟩ .array =
      .ok ⟨.arr (.new 1), obj, tag, bits ||| ValueType.array.code⟩ := rfl

theorem parserBody_bracketOpen {tag : Option (List UInt8)} :
    parserBody (fuel + 1) ctx { valueNew with tag := tag } .bracketOpen b =
      parserArray fuel ctx ⟨.arr (.new 1), none, tag, ValueType.array.code⟩ := by
  have hinit : valueInit { valueNew with tag := tag } .array =
      .ok ⟨.arr (.new 1), none, tag, ValueType.array.code⟩ :=
    valueInit_array none tag ValueType.null.code
  rw [parserBody, if_neg (by decide), if_pos rfl, hinit]
  rfl

theorem parserBody_braceOpen {tag : Option (List UInt8)} {o : XArray (Member Value)}
    (hobj : parserObject fuel ctx ⟨.num 0, some (.new 1), tag, ValueType.object.code⟩ =
      pure (ctx₁, ⟨.num 0, some o, tag, ValueType.object.code⟩))
    (hpeek : peek ctx₁ = .ok (type, ctx₂)) :
    parserBody (fuel + 1) ctx { valueNew with tag := tag } .braceOpen b =
      if type = .bracketOpen then
        parserArray fuel ctx₂
          ⟨.arr (.new 1), some o, tag, ValueType.object.code + ValueType.array.code⟩
      else pure (ctx₂, ⟨.num 0, some o, tag, ValueType.object.code⟩) := by
  have hinit : valueInit { valueNew with tag := tag } .object =
      .ok ⟨.num 0, some (.new 1), tag, ValueType.object.code⟩ := by
    simp [valueInit, valueNew, ValueType.code]
  have hcode : ValueType.object.code ||| ValueType.array.code =
      ValueType.object.code + ValueType.array.code := by decide
  rw [parserBody, if_pos rfl, hinit]
  simp only [lift_ok, pure_bind, hobj, hpeek, valueInit_array, hcode]

end

/-! ## Trees -/

mutual

theorem Tree.parse : ∀ (t : Tree) {ts rest : List Token} {ctx : Context} (fuel : ℕ), t.Tokens ts →
    t.Fits → Follows rest → ctx.At (ts ++ rest) → 6 * ts.length ≤ fuel →
    ∃ ctx' v, parserValue fuel ctx valueNew = pure (ctx', v) ∧ ctx'.At rest ∧ t.Represented v
  | .tagOnly tag, ts, rest, ctx, fuel, h, _, hrest, hat, hfuel => by
    have hts : ts = tag.tagTokens := h
    subst hts
    have hlen : tag.tagTokens.length = 3 := rfl
    obtain ⟨fuel, rfl⟩ : ∃ n, fuel = n + 2 := ⟨fuel - 2, by omega⟩
    obtain ⟨ctx', hval, hat'⟩ := parserValue_tag hat
    exact ⟨ctx', _, hval.trans (parserBody_tagOnly hrest), hat', rfl⟩
  | .plain tag body, ts, rest, ctx, fuel, h, hfits, hrest, hat, hfuel => by
    obtain ⟨bs, hbs, rfl⟩ := h
    rw [List.length_append] at hfuel
    obtain ⟨fuel, rfl⟩ : ∃ n, fuel = n + 1 := ⟨fuel - 1, by have := (hbs.head rest).1; omega⟩
    cases tag with
    | none =>
      obtain ⟨ctx₁, hpeek, hat₁⟩ := peek_at hat
      obtain ⟨ctx', v, hrun, hat', htag, hrep⟩ :=
        body.parse fuel none false hbs hfits hrest hat₁ (by omega)
      exact ⟨ctx', v, (parserValue_body hpeek (hbs.head rest).2.2).trans hrun, hat', htag, hrep⟩
    | some tag =>
      rw [List.append_assoc] at hat
      obtain ⟨ctx₁, hval, hat₁⟩ := parserValue_tag hat
      obtain ⟨ctx', v, hrun, hat', htag, hrep⟩ :=
        body.parse fuel (some tag.chars) true hbs hfits hrest hat₁ (by omega)
      exact ⟨ctx', v, hval.trans hrun, hat', htag, hrep⟩

theorem Body.parse : ∀ (b : Body) {bs rest : List Token} {ctx : Context} (fuel : ℕ)
    (tag : Option (List UInt8)) (withTag : Bool), b.Tokens bs → b.Fits → Follows rest →
    ctx.At (bs ++ rest) → 6 * bs.length ≤ fuel + 1 →
    ∃ ctx' v, parserBody fuel ctx { valueNew with tag := tag } (headType (bs ++ rest)) withTag =
      pure (ctx', v) ∧ ctx'.At rest ∧ v.tag = tag ∧ b.Represented v
  | .num n hn, bs, rest, ctx, fuel, tag, withTag, h, _, hrest, hat, hfuel => by
    have hbs : bs = [.num n] := h
    subst hbs
    rw [List.length_singleton] at hfuel
    obtain ⟨fuel, rfl⟩ : ∃ n, fuel = n + 4 := ⟨fuel - 4, by omega⟩
    obtain ⟨ctx', hrun, hat'⟩ := parserBody_num hat hrest
    exact ⟨ctx', _, hrun, hat', rfl, congrArg Word.num (signExtended_of_lt hn), rfl, rfl⟩
  | .bool b, bs, rest, ctx, fuel, tag, withTag, h, _, hrest, hat, hfuel => by
    have hbs : bs = [.bool b] := h
    subst hbs
    rw [List.length_singleton] at hfuel
    obtain ⟨fuel, rfl⟩ : ∃ n, fuel = n + 1 := ⟨fuel - 1, by omega⟩
    obtain ⟨ctx', hrun, hat'⟩ := parserBody_bool hat
    exact ⟨ctx', _, hrun, hat', rfl, rfl, rfl, rfl⟩
  | .str w hw, bs, rest, ctx, fuel, tag, withTag, h, _, hrest, hat, hfuel => by
    have hbs : bs = [.str w] := h
    subst hbs
    rw [List.length_singleton] at hfuel
    obtain ⟨fuel, rfl⟩ : ∃ n, fuel = n + 1 := ⟨fuel - 1, by omega⟩
    obtain ⟨ctx', hrun, hat'⟩ := parserBody_str hat
    exact ⟨ctx', _, hrun, hat', rfl, rfl, rfl, rfl⟩
  | .arr es, bs, rest, ctx, fuel, tag, withTag, h, hfits, hrest, hat, hfuel => by
    obtain ⟨inner, hinner, rfl⟩ := h
    simp only [List.cons_append, List.length_cons, List.length_append, List.length_nil] at hfuel
    obtain ⟨fuel, rfl⟩ : ∃ n, fuel = n + 2 := ⟨fuel - 2, by omega⟩
    rw [List.append_assoc, List.singleton_append, List.cons_append] at hat
    obtain ⟨ctx', a, hrun, hat', hrep⟩ := parserArray_new (fun hat₁ =>
      elems_parse es fuel ⟨.arr (.new 1), none, tag, ValueType.array.code⟩ hinner hfits.2 hat₁
        (by omega) (show 4 &&& 4 ≠ 0 by decide) rfl XArray.good_new
        (by simpa [XArray.new] using hfits.1)) hat
    exact ⟨ctx', _, parserBody_bracketOpen.trans hrun, hat', rfl, ⟨a, rfl, hrep⟩, rfl, rfl⟩
  | .obj ms, bs, rest, ctx, fuel, tag, withTag, h, hfits, hrest, hat, hfuel => by
    obtain ⟨inner, hinner, rfl⟩ := h
    simp only [List.cons_append, List.length_cons, List.length_append, List.length_nil] at hfuel
    obtain ⟨fuel, rfl⟩ : ∃ n, fuel = n + 2 := ⟨fuel - 2, by omega⟩
    rw [List.append_assoc, List.singleton_append, List.cons_append] at hat
    obtain ⟨ctx₁, o, hobj, hat₁, hrep⟩ := parserObject_new (fun hat₁ =>
      members_parse ms fuel ⟨.num 0, some (.new 1), tag, ValueType.object.code⟩ hinner hfits.2 hat₁
        (by omega) (show 8 &&& 8 ≠ 0 by decide) rfl XArray.good_new
        (by simpa [XArray.new] using hfits.1)) hat
    obtain ⟨ctx₂, hpeek, hat₂⟩ := peek_at hat₁
    refine ⟨ctx₂, ⟨.num 0, some o, tag, ValueType.object.code⟩, ?_, hat₂, rfl, rfl, ⟨o, rfl, hrep⟩,
      rfl⟩
    exact (parserBody_braceOpen hobj hpeek).trans (if_neg hrest.headType_ne.2.2.2.2)
  | .objArr ms es, bs, rest, ctx, fuel, tag, withTag, h, hfits, hrest, hat, hfuel => by
    obtain ⟨inner, inner', hinner, hinner', rfl⟩ := h
    simp only [List.cons_append, List.length_cons, List.length_append, List.length_nil] at hfuel
    obtain ⟨fuel, rfl⟩ : ∃ n, fuel = n + 2 := ⟨fuel - 2, by omega⟩
    have hat₀ : ctx.At (.sym .braceOpen :: (inner ++ .sym .braceClose ::
        (.sym .bracketOpen :: (inner' ++ .sym .bracketClose :: rest)))) := by simpa using hat
    obtain ⟨ctx₁, o, hobj, hat₁, hrep⟩ := parserObject_new (fun hat₁ =>
      members_parse ms fuel ⟨.num 0, some (.new 1), tag, ValueType.object.code⟩ hinner hfits.1.2
        hat₁ (by omega) (show 8 &&& 8 ≠ 0 by decide) rfl XArray.good_new
        (by simpa [XArray.new] using hfits.1.1)) hat₀
    obtain ⟨ctx₂, hpeek, hat₂⟩ := peek_at hat₁
    obtain ⟨ctx', a, hrun, hat', hrep'⟩ := parserArray_new (fun hat₁ =>
      elems_parse es fuel
        ⟨.arr (.new 1), some o, tag, ValueType.object.code + ValueType.array.code⟩ hinner' hfits.2.2
        hat₁ (by omega) (show 12 &&& 4 ≠ 0 by decide) rfl XArray.good_new
        (by simpa [XArray.new] using hfits.2.1)) hat₂
    refine ⟨ctx', _, (parserBody_braceOpen hobj hpeek).trans ((if_pos rfl).trans hrun), hat', rfl,
      ⟨a, rfl, hrep'⟩, ⟨o, rfl, hrep⟩, rfl⟩

theorem elems_parse : ∀ (es : List Tree) {ts rest : List Token} {ctx : Context} (fuel : ℕ)
    (value : Value) {a : XArray Value}, elemsTokens es ts → elemsFit es →
    ctx.At (ts ++ .sym .bracketClose :: rest) → 6 * ts.length + 1 ≤ fuel →
    value.type &&& ValueType.array.code ≠ 0 → value.word = .arr a → a.Good →
    a.arr.length + es.length ≤ 2 ^ 28 →
    ∃ ctx' a' vs, arrayLoop fuel ctx value = pure (ctx', { value with word := .arr a' }) ∧
      ctx'.At (.sym .bracketClose :: rest) ∧ a'.arr = a.arr ++ vs ∧ elemsRepresented es vs
  | [], ts, rest, ctx, fuel, value, a, h, _, hat, hfuel, htype, hword, hgood, hlen => by
    have hts : ts = [] := h
    subst hts
    obtain ⟨fuel, rfl⟩ : ∃ n, fuel = n + 1 := ⟨fuel - 1, by omega⟩
    obtain ⟨ctx', hrun, hat'⟩ := arrayLoop_end hat
    refine ⟨ctx', a, [], ?_, hat', (List.append_nil _).symm, rfl⟩
    rw [hrun, ← hword]
    cases value
    rfl
  | t :: es, ts, rest, ctx, fuel, value, a, h, hfit, hat, hfuel, htype, hword, hgood, hlen => by
    obtain ⟨s, rest', hs, hrest', hcase⟩ := h
    obtain ⟨fuel, rfl⟩ : ∃ n, fuel = n + 1 := ⟨fuel - 1, by omega⟩
    rw [List.length_cons] at hlen
    obtain ⟨ctx₁, hpeek, hat₁⟩ := peek_at hat
    cases hcase with
    | inl hlast =>
      obtain ⟨rfl, rfl⟩ := hlast
      obtain ⟨ctx₂, v, hval, hat₂, hrep⟩ :=
        t.parse fuel hs hfit.1 (follows_bracketClose rest) hat₁ (by omega)
      obtain ⟨ctx₃, hcomma, hat₃⟩ :=
        nextIf_at_other hat₂ (show TokenType.bracketClose ≠ .comma by decide)
      have hstep := arrayLoop_step hpeek (hs.head _) hval (pushElement_eq htype hword) hcomma
      refine ⟨ctx₃, a.push v, [some v], hstep, hat₃, (a.push_arr hgood (by omega) v).1, ?_⟩
      exact ⟨v, [], rfl, hrep, rfl⟩
    | inr hcons =>
      subst hcons
      rw [List.length_append, List.length_cons] at hfuel
      rw [List.append_assoc] at hpeek hat₁
      obtain ⟨ctx₂, v, hval, hat₂, hrep⟩ :=
        t.parse fuel hs hfit.1 (follows_comma _) hat₁ (by omega)
      obtain ⟨ctx₃, hcomma, hat₃⟩ := nextIf_at hat₂
      have hstep := arrayLoop_step hpeek (hs.head _) hval (pushElement_eq htype hword) hcomma
      obtain ⟨hpush, hgood'⟩ := a.push_arr hgood (by omega) v
      have hlen' : (a.push v).arr.length + es.length ≤ 2 ^ 28 := by
        rw [hpush, List.length_append, List.length_singleton]
        omega
      obtain ⟨ctx', a', vs, hloop, hat', harr, hreps⟩ :=
        elems_parse es fuel { value with word := .arr (a.push v) } hrest' hfit.2 hat₃ (by omega)
          htype rfl hgood' hlen'
      refine ⟨ctx', a', some v :: vs, hstep.trans hloop, hat', ?_, v, vs, rfl, hrep, hreps⟩
      rw [harr, hpush, List.append_assoc, List.singleton_append]

theorem members_parse : ∀ (ms : List (Ident × Tree)) {ts rest : List Token} {ctx : Context}
    (fuel : ℕ) (value : Value) {o : XArray (Member Value)}, membersTokens ms ts → membersFit ms →
    ctx.At (ts ++ .sym .braceClose :: rest) → 6 * ts.length + 1 ≤ fuel →
    value.type &&& ValueType.object.code ≠ 0 → value.obj = some o → o.Good →
    o.arr.length + ms.length ≤ 2 ^ 28 →
    ∃ ctx' o' vs, objectLoop fuel ctx value = pure (ctx', { value with obj := some o' }) ∧
      ctx'.At (.sym .braceClose :: rest) ∧ o'.arr = o.arr ++ vs ∧ membersRepresented ms vs
  | [], ts, rest, ctx, fuel, value, o, h, _, hat, hfuel, htype, hobj, hgood, hlen => by
    have hts : ts = [] := h
    subst hts
    obtain ⟨fuel, rfl⟩ : ∃ n, fuel = n + 1 := ⟨fuel - 1, by omega⟩
    obtain ⟨ctx', hrun, hat'⟩ := objectLoop_end hat
    refine ⟨ctx', o, [], ?_, hat', (List.append_nil _).symm, rfl⟩
    rw [hrun, ← hobj]
    cases value
    rfl
  | (key, t) :: ms, ts, rest, ctx, fuel, value, o, h, hfit, hat, hfuel, htype, hobj, hgood,
      hlen => by
    obtain ⟨s, rest', hs, hrest', hcase⟩ := h
    obtain ⟨fuel, rfl⟩ : ∃ n, fuel = n + 1 := ⟨fuel - 1, by omega⟩
    rw [List.length_cons] at hlen
    cases hcase with
    | inl hlast =>
      obtain ⟨rfl, rfl⟩ := hlast
      rw [List.length_cons, List.length_cons] at hfuel
      obtain ⟨ctx', v, hstep, hat', hrep⟩ := objectLoop_last htype hobj
        (fun hat₁ => t.parse fuel hs hfit.1 (follows_braceClose rest) hat₁ (by omega)) hat
      exact ⟨ctx', o.push ⟨key.chars, v⟩, [some ⟨key.chars, v⟩], hstep, hat',
        (o.push_arr hgood (by omega) _).1, v, [], rfl, hrep, rfl⟩
    | inr hcons =>
      subst hcons
      simp only [List.length_append, List.length_cons] at hfuel
      rw [List.append_assoc] at hat
      obtain ⟨ctx₁, v, hstep, hat₁, hrep⟩ := objectLoop_comma htype hobj
        (fun hat₁ => t.parse fuel hs hfit.1 (follows_comma _) hat₁ (by omega)) hat
      obtain ⟨hpush, hgood'⟩ := o.push_arr hgood (by omega) ⟨key.chars, v⟩
      have hlen' : (o.push ⟨key.chars, v⟩).arr.length + ms.length ≤ 2 ^ 28 := by
        rw [hpush, List.length_append, List.length_singleton]
        omega
      obtain ⟨ctx', o', vs, hloop, hat', harr, hreps⟩ :=
        members_parse ms fuel { value with obj := some (o.push ⟨key.chars, v⟩) } hrest' hfit.2 hat₁
          (by omega) htype rfl hgood' hlen'
      refine ⟨ctx', o', some ⟨key.chars, v⟩ :: vs, hstep.trans hloop, hat', ?_, v, vs, rfl, hrep,
        hreps⟩
      rw [harr, hpush, List.append_assoc, List.singleton_append]

end

/-! ## Texts -/

theorem Text.length_le {toks : List Token} {s : List UInt8} (h : Text toks s) :
    toks.length ≤ s.length := by
  induction h with
  | nil => exact Nat.zero_le _
  | @cons tok toks b s rest _ hs _ ih =>
    obtain ⟨c, t, rfl, _⟩ := hs.head
    simp only [List.length_append, List.length_cons]
    omega

theorem Tree.Tokens.length_pos {t : Tree} {ts : List Token} (h : t.Tokens ts) : 0 < ts.length := by
  cases t with
  | tagOnly tag =>
    rw [show ts = tag.tagTokens from h]
    exact Nat.succ_pos 2
  | plain tag body =>
    obtain ⟨bs, hbs, rfl⟩ := h
    have hpos := (hbs.head []).1
    rw [List.length_append]
    omega

/-- **Device descriptions are read back.**  For every tree and every text of it that is shorter than
`2 ^ 31` characters, `xjil_parse` returns `0`, and the value is the tree. -/
theorem xjilParse_tree (t : Tree) (hfits : t.Fits) {ts : List Token} (hts : t.Tokens ts)
    {text : List UInt8} (htext : Text ts text) (hlen : text.length < 2 ^ 31) (fuel : ℕ)
    (hfuel : 6 * text.length ≤ fuel) :
    ∃ v, (xjilParse fuel valueNew text text.length).run = some (.ok (0, v)) ∧
      t.Represented v := by
  have htokens := htext.length_le
  have hpos := hts.length_pos
  have hsep : Separated ts := by
    have hsep : Separated (ts ++ []) := t.separated hts trivial trivial
    rwa [List.append_nil] at hsep
  have hat : Context.At ⟨text ++ [0], 0, 1, 0, []⟩ (ts ++ []) := by
    have hlen' : (text ++ [0]).length ≤ 2 ^ 31 := by
      rw [List.length_append, List.length_singleton]
      omega
    rw [List.append_nil]
    exact ⟨hlen', text ++ [0], ⟨[], rfl, rfl⟩, htext.ahead hsep []⟩
  obtain ⟨ctx, v, hrun, _, hrep⟩ := t.parse fuel hts hfits (show Follows [] from trivial) hat
    (by omega)
  refine ⟨v, ?_, hrep⟩
  rw [xjilParse, xjilParseMem, if_neg (by omega), hrun, pure_bind]
  rfl

/-- The description `[5]`. -/
def smallTree : Tree := .plain none (.arr [.plain none (.num 5 (by decide))])

theorem text_smallTree : Text [.sym .bracketOpen, .num 5, .sym .bracketClose] [91, 53, 93] := by
  have hopen : (Token.sym .bracketOpen).Spells [91] := ⟨91, rfl, rfl⟩
  have hnum : (Token.num 5).Spells [53] :=
    ⟨by norm_num, .inl ⟨List.all_eq_true.mp rfl, rfl, .inr ⟨53, [], rfl, by decide⟩⟩⟩
  have hclose : (Token.sym .bracketClose).Spells [93] := ⟨93, rfl, rfl⟩
  exact .cons .nil hopen (.cons .nil hnum (.cons .nil hclose (.nil .nil)))

theorem xjilParse_smallTree :
    ∃ v, (xjilParse 18 valueNew [91, 53, 93] 3).run = some (.ok (0, v)) ∧
      smallTree.Represented v := by
  refine xjilParse_tree smallTree ⟨by decide, trivial, trivial⟩ ?_ text_smallTree (by decide) 18
    (by decide)
  exact ⟨_, ⟨[.num 5], ⟨[.num 5], [], ⟨[.num 5], rfl, rfl⟩, rfl, .inl ⟨rfl, rfl⟩⟩, rfl⟩, rfl⟩

/-! ## Long texts -/

theorem lift_error {α : Type} (e : Fault) :
    (liftM (Except.error e : Except Fault α) : Parse α) = throw e := rfl

theorem throw_bind {α β : Type} (e : Fault) (f : α → Parse β) :
    ((throw e : Parse α) >>= f) = throw e := rfl

theorem blanks_replicate (n : ℕ) : Blanks (List.replicate n 32) := by
  induction n with
  | zero => exact .nil
  | succ n ih => exact .blank (.inr (.inr (.inr rfl))) ih

/-- The number after `2 ^ 31` blanks. -/
def longText : List UInt8 := List.replicate (2 ^ 31) 32 ++ [49]

theorem length_longText : longText.length = 2 ^ 31 + 1 := by
  rw [longText, List.length_append, List.length_replicate, List.length_singleton]

theorem next_longText (line : ℤ) (num : ℕ) (str : List UInt8) : ∃ line',
    next ⟨longText ++ [0], 0, line, num, str⟩ =
      .ok (.num, ⟨longText ++ [0], 1 - 2 ^ 31, line', 1, str⟩) := by
  obtain ⟨line', hskip⟩ := skipBlanks_blanks (blanks_replicate (2 ^ 31)) [49, 0] line
  have htoken : skipBlanks false [49, 0] line' = .ok ([49, 0], line') := rfl
  have hlen : (longText ++ [0]).length = 2 ^ 31 + 2 := by
    rw [List.length_append, length_longText, List.length_singleton]
  have hpos : toInt32 ((longText ++ [0]).length - ([0] : List UInt8).length) = 1 - 2 ^ 31 := by
    rw [hlen]
    decide
  have hdrop : (longText ++ [0]).drop (Int.toNat 0) =
      List.replicate (2 ^ 31) 32 ++ [49, 0] := by
    rw [longText, List.append_assoc]
    rfl
  have hlex : lexToken [49, 0] num str = .ok (.num, [0], 1, str) := rfl
  refine ⟨line', ?_⟩
  rw [next, access_pos ⟨le_rfl, Int.natCast_nonneg _⟩, Fallible.ok_bind]
  simp only [hdrop, hskip, htoken, Fallible.ok_bind, hlex, hpos]
  rfl

theorem next_before {ctx : Context} (h : ctx.pos < 0) : next ctx = .error .badAccess := by
  have hno : ¬ (0 ≤ ctx.pos ∧ ctx.pos ≤ ctx.src.length) := fun hin => absurd hin.1 (by omega)
  rw [next, access_neg hno, Fallible.error_bind]

theorem peek_longText (line : ℤ) (num : ℕ) (str : List UInt8) :
    peek ⟨longText ++ [0], 0, line, num, str⟩ =
      .ok (.num, ⟨longText ++ [0], 0, line, 1, str⟩) := by
  obtain ⟨line', hnext⟩ := next_longText line num str
  rw [peek, hnext]
  rfl

theorem parserTerm_longText (fuel : ℕ) (line : ℤ) (num : ℕ) (str : List UInt8) :
    parserTerm (fuel + 2) ⟨longText ++ [0], 0, line, num, str⟩ = throw .badAccess := by
  obtain ⟨line', hnext⟩ := next_longText line 1 str
  have hafter : peek ⟨longText ++ [0], 1 - 2 ^ 31, line', 1, str⟩ = .error .badAccess := by
    have hneg : (1 - 2 ^ 31 : ℤ) < 0 := by norm_num
    rw [peek, next_before hneg]
    rfl
  rw [parserTerm, parserFactor, peek_longText]
  simp only [lift_ok, pure_bind, reduceCtorEq, if_false, if_true, hnext, hafter, lift_error,
    throw_bind]

/-- After a number that ends at position `2 ^ 31` or later, the text is read before its
beginning. -/
theorem xjilParse_longText :
    (Tree.plain none (.num 1 (by decide))).Tokens [.num 1] ∧ Text [.num 1] longText ∧
      ∀ fuel, 5 ≤ fuel → (xjilParse fuel valueNew longText longText.length).run =
        some (.error .badAccess) := by
  refine ⟨⟨[.num 1], rfl, rfl⟩, ?_, ?_⟩
  · have hnum : (Token.num 1).Spells [49] :=
      ⟨by norm_num, .inl ⟨List.all_eq_true.mp rfl, rfl, .inr ⟨49, [], rfl, by decide⟩⟩⟩
    exact .cons (blanks_replicate (2 ^ 31)) hnum (.nil .nil)
  · intro fuel hfuel
    obtain ⟨fuel, rfl⟩ : ∃ n, fuel = n + 5 := ⟨fuel - 5, by omega⟩
    have hlen : longText.length ≠ 0 := by
      rw [length_longText]
      norm_num
    rw [xjilParse, xjilParseMem, if_neg hlen, parserValue_body (peek_longText 1 0 []) (by decide),
      parserBody, parserExp, parserTerm_longText]
    rfl

end Ginkgo.Xjil
