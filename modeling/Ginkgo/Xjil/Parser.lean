import Ginkgo.Xjil.Lexer

/-!
# The parser of device descriptions

The model of `xjil_parse`.  Values are trees, since the parser writes to values it has just
allocated only.  The functions of the parser take the number of calls and of rounds of loops that
they may still nest, and give no result if it does not suffice.

An array grows by `realloc`, which copies with `memcpy`, whose length is a 32-bit number: of an
array that grows to `2 ^ 29` pointers nothing is copied, and the elements that were in it are
unknown.

-/

namespace Ginkgo.Xjil

/-! ## Values -/

/-- `array_t`: the elements that are in use, `none` for one that is unknown, and the capacity. -/
structure XArray (α : Type) where
  arr : List (Option α)
  capacity : ℕ

namespace XArray

variable {α : Type}

/-- `array_new`. -/
def new (capacity : ℕ) : XArray α := ⟨[], capacity⟩

/-- `array_clear`. -/
def clear (a : XArray α) : XArray α := ⟨[], a.capacity⟩

/-- `array_resize`: `realloc` copies as many pointers as a 32-bit number of bytes holds. -/
def resize (a : XArray α) (capacity : ℕ) : XArray α :=
  let copied := 8 * capacity % 2 ^ 32 / 8
  ⟨(a.arr.take copied ++ List.replicate (a.arr.length - copied) none).take capacity, capacity⟩

/-- `array_push`. -/
def push (a : XArray α) (ele : α) : XArray α :=
  let a := if a.capacity ≤ a.arr.length then a.resize (a.capacity * 2) else a
  ⟨a.arr ++ [some ele], a.capacity⟩

end XArray

/-- The first word of the union of `xjil_value_t`: a number, which stands for `NULL` if it is `0`,
or a pointer. -/
inductive Word (α : Type)
  | num (n : ℕ)
  | str (s : List UInt8)
  | arr (a : XArray α)

/-- `member_t`. -/
structure Member (α : Type) where
  key : List UInt8
  v : α

/-- `value_type_t`. -/
inductive ValueType
  | null | bool | number | string | array | object
deriving DecidableEq

/-- The bits of a type. -/
def ValueType.code : ValueType → ℕ
  | null => 0
  | bool => 1
  | number => 2
  | string => 3
  | array => 4
  | object => 8

/-- `xjil_value_t`; the types of a value are collected with `|=`. -/
structure Value where
  word : Word Value
  obj : Option (XArray (Member Value))
  tag : Option (List UInt8)
  type : ℕ

/-- `value_new(TYPE_NULL)`. -/
def valueNew : Value := ⟨.num 0, none, none, ValueType.null.code⟩

/-- `value_init`; a word that is not a pointer to what is cleared must not be used as one. -/
def valueInit (value : Value) (type : ValueType) : Except Fault Value :=
  let value := { value with type := value.type ||| type.code }
  match type with
  | .array =>
    match value.word with
    | .arr a => .ok { value with word := .arr a.clear }
    | .num 0 => .ok { value with word := .arr (.new 1) }
    | _ => .error .badAccess
  | .object =>
    match value.obj with
    | some a => .ok { value with obj := some a.clear }
    | none => .ok { value with obj := some (.new 1) }
  | .string =>
    match value.word with
    | .str _ => .ok { value with word := .str [] }
    | .num 0 => .ok { value with word := .str [] }
    | _ => .error .badAccess
  | .number => .ok { value with word := .num 0 }
  | .bool => .ok { value with word := .num 0 }
  | .null => .ok value

/-- `push_element`. -/
def pushElement (arr value : Value) : Except Fault Value := do
  kassert (arr.type &&& ValueType.array.code ≠ 0)
  match arr.word with
  | .arr a => .ok { arr with word := .arr (a.push value) }
  | .num 0 => .error .panic
  | _ => .error .badAccess

/-- `push_member`. -/
def pushMember (obj : Value) (mem : Member Value) : Except Fault Value := do
  kassert (obj.type &&& ValueType.object.code ≠ 0)
  match obj.obj with
  | some a => .ok { obj with obj := some (a.push mem) }
  | none => .error .panic

/-! ## Expressions -/

/-- Computations that fail or give no result in the number of steps they have. -/
abbrev Parse := ExceptT Fault Option

/-- The number of steps does not suffice. -/
def outOfFuel {α : Type} : Parse α := ExceptT.mk none

mutual

/-- `parser_factor`. -/
def parserFactor : ℕ → Context → Parse (ℤ × Context)
  | 0, _ => outOfFuel
  | fuel + 1, ctx => do
    let (type, ctx) ← peek ctx
    if type = .parenOpen then
      let ctx ← expect ctx .parenOpen
      let (value, ctx) ← parserExp fuel ctx
      let ctx ← expect ctx .parenClose
      return (value, ctx)
    else if type = .num then
      let (_, ctx) ← next ctx
      return (toInt32 ctx.num, ctx)
    else throw .panic

/-- `parser_term`. -/
def parserTerm : ℕ → Context → Parse (ℤ × Context)
  | 0, _ => outOfFuel
  | fuel + 1, ctx => do
    let (value, ctx) ← parserFactor fuel ctx
    let (type, ctx) ← peek ctx
    termLoop fuel ctx type value

/-- The loop of `parser_term`; a division by zero is undefined. -/
def termLoop : ℕ → Context → TokenType → ℤ → Parse (ℤ × Context)
  | 0, _, _, _ => outOfFuel
  | fuel + 1, ctx, type, value => do
    if ¬ (type = .mul ∨ type = .div) then return (value, ctx)
    let (_, ctx) ← next ctx
    let (v, ctx) ← parserFactor fuel ctx
    if type = .div ∧ v = 0 then throw .badAccess
    let value := if type = .mul then toInt32 (value * v) else toInt32 (value.tdiv v)
    let (type, ctx) ← peek ctx
    termLoop fuel ctx type value

/-- `parser_exp`. -/
def parserExp : ℕ → Context → Parse (ℤ × Context)
  | 0, _ => outOfFuel
  | fuel + 1, ctx => do
    let (value, ctx) ← parserTerm fuel ctx
    let (type, ctx) ← peek ctx
    expLoop fuel ctx type value

/-- The loop of `parser_exp`. -/
def expLoop : ℕ → Context → TokenType → ℤ → Parse (ℤ × Context)
  | 0, _, _, _ => outOfFuel
  | fuel + 1, ctx, type, value => do
    if ¬ (type = .plus ∨ type = .minus) then return (value, ctx)
    let (_, ctx) ← next ctx
    let (v, ctx) ← parserTerm fuel ctx
    let value := if type = .plus then toInt32 (value + v) else toInt32 (value - v)
    let (type, ctx) ← peek ctx
    expLoop fuel ctx type value

end

/-! ## Values in the text -/

/-- `parser_tag`. -/
def parserTag (ctx : Context) (value : Value) : Except Fault (Context × Value) := do
  let ctx ← expect ctx .lt
  let ctx ← expect ctx .id
  let value := { value with tag := some ctx.str }
  let ctx ← expect ctx .gt
  return (ctx, value)

mutual

/-- `parser_value`. -/
def parserValue : ℕ → Context → Value → Parse (Context × Value)
  | 0, _, _ => outOfFuel
  | fuel + 1, ctx, value => do
    let (type, ctx) ← peek ctx
    if type = .lt then
      let (ctx, value) ← parserTag ctx value
      let (type, ctx) ← peek ctx
      parserBody fuel ctx value type true
    else parserBody fuel ctx value type false

/-- `parser_value`, after the tag; `type` is the type of the next token. -/
def parserBody : ℕ → Context → Value → TokenType → Bool → Parse (Context × Value)
  | 0, _, _, _, _ => outOfFuel
  | fuel + 1, ctx, value, type, withTag => do
    if type = .braceOpen then
      let value ← valueInit value .object
      let (ctx, value) ← parserObject fuel ctx value
      let (type, ctx) ← peek ctx
      if type = .bracketOpen then
        let value ← valueInit value .array
        parserArray fuel ctx value
      else return (ctx, value)
    else if type = .bracketOpen then
      let value ← valueInit value .array
      parserArray fuel ctx value
    else if type = .num ∨ type = .parenOpen then
      let value ← valueInit value .number
      let (num, ctx) ← parserExp fuel ctx
      return (ctx, { value with word := .num (num % 2 ^ 64).toNat })
    else if type = .string then
      let value ← valueInit value .string
      let (_, ctx) ← next ctx
      return (ctx, { value with word := .str ctx.str })
    else if type = .bool then
      let value ← valueInit value .bool
      let (_, ctx) ← next ctx
      return (ctx, { value with word := .num ctx.num })
    else if withTag then return (ctx, value)
    else throw .panic

/-- `parser_object`. -/
def parserObject : ℕ → Context → Value → Parse (Context × Value)
  | 0, _, _ => outOfFuel
  | fuel + 1, ctx, value => do
    let ctx ← expect ctx .braceOpen
    let (ctx, value) ← objectLoop fuel ctx value
    let ctx ← expect ctx .braceClose
    return (ctx, value)

/-- The loop of `parser_object`. -/
def objectLoop : ℕ → Context → Value → Parse (Context × Value)
  | 0, _, _ => outOfFuel
  | fuel + 1, ctx, value => do
    let (type, ctx) ← peek ctx
    if type ≠ .id then return (ctx, value)
    let ctx ← expect ctx .id
    let key := ctx.str
    let ctx ← expect ctx .colon
    let (ctx, v) ← parserValue fuel ctx valueNew
    let value ← pushMember value ⟨key, v⟩
    let (comma, ctx) ← nextIf ctx .comma
    if comma then objectLoop fuel ctx value else return (ctx, value)

/-- `parser_array`. -/
def parserArray : ℕ → Context → Value → Parse (Context × Value)
  | 0, _, _ => outOfFuel
  | fuel + 1, ctx, value => do
    let ctx ← expect ctx .bracketOpen
    let (ctx, value) ← arrayLoop fuel ctx value
    let ctx ← expect ctx .bracketClose
    return (ctx, value)

/-- The loop of `parser_array`. -/
def arrayLoop : ℕ → Context → Value → Parse (Context × Value)
  | 0, _, _ => outOfFuel
  | fuel + 1, ctx, value => do
    let (type, ctx) ← peek ctx
    if type = .bracketClose then return (ctx, value)
    let (ctx, v) ← parserValue fuel ctx valueNew
    let value ← pushElement value v
    let (comma, ctx) ← nextIf ctx .comma
    if comma then arrayLoop fuel ctx value else return (ctx, value)

end

/-- `xjil_parse`: what it returns, and the value.  The memory from `json` on holds `mem`. -/
def xjilParseMem (fuel : ℕ) (v : Value) (mem : List UInt8) (len : ℕ) : Parse (ℤ × Value) := do
  if len = 0 then return (-1, v)
  let (_, v) ← parserValue fuel ⟨mem, 0, 1, 0, []⟩ v
  return (0, v)

/-- `xjil_parse` for a string, which a `NUL` ends. -/
def xjilParse (fuel : ℕ) (v : Value) (json : List UInt8) (len : ℕ) : Parse (ℤ × Value) :=
  xjilParseMem fuel v (json ++ [0]) len

end Ginkgo.Xjil
