import Ginkgo.Xjil.RoundTrip

/-!
# Numbers as members of objects

The texts of objects in which one member is a number of up to 64 bits, and what `xjil_parse` makes
of them.  `parser_exp` returns an `int`, so that the value keeps the lowest 32 bits of the number
and is extended with the sign of what they are as an `int`.

## Main results

* `ObjectText.parse` — the members of the object are read back, but for the number.
-/

namespace Ginkgo.Xjil

/-! ## Texts -/

/-- The tokens of members, each of them with a comma after it. -/
def leadingTokens : List (Ident × Tree) → List Token → Prop
  | [], ts => ts = []
  | (key, t) :: ms, ts => ∃ s rest, t.Tokens s ∧ leadingTokens ms rest ∧
      ts = .id key.chars :: .sym .colon :: (s ++ .sym .comma :: rest)

/-- The tokens after a member: nothing, or a comma and further members. -/
def trailingTokens (ms : List (Ident × Tree)) (ts : List Token) : Prop :=
  ms = [] ∧ ts = [] ∨ ∃ inner, membersTokens ms inner ∧ ts = .sym .comma :: inner

/-- The tokens of an object up to the value of the member with the given key. -/
def openTokens (tag : Option Ident) (key : Ident) (ts : List Token) : List Token :=
  (tag.map Ident.tagTokens).getD [] ++
    .sym .braceOpen :: (ts ++ [.id key.chars, .sym .colon])

/-- The texts of an object whose member `key` is written as `lit`; the members `ms` are before it
and the members `ms'` after it. -/
def ObjectText (tag : Option Ident) (ms : List (Ident × Tree)) (key : Ident) (lit : List UInt8)
    (ms' : List (Ident × Tree)) (text : List UInt8) : Prop :=
  ∃ ts ts' s s', leadingTokens ms ts ∧ trailingTokens ms' ts' ∧ Text (openTokens tag key ts) s ∧
    Text (ts' ++ [.sym .braceClose]) s' ∧ text = s ++ (lit ++ s')

/-- What the parser makes of a number. -/
def numberValue (n : ℕ) : Value := ⟨.num (signExtended n), none, none, ValueType.number.code⟩

/-! ## Tokens -/

theorem leading_separated : ∀ (ms : List (Ident × Tree)) {ts rest : List Token},
    leadingTokens ms ts → Separated rest → Separated (ts ++ rest)
  | [], ts, rest, h, hsep => by
    have hts : ts = [] := h
    rw [hts]
    exact hsep
  | (key, t) :: ms, ts, rest, h, hsep => by
    obtain ⟨s, rest', hs, hrest', rfl⟩ := h
    have hnext : Separated (s ++ .sym .comma :: (rest' ++ rest)) :=
      t.separated hs (follows_comma _) (separated_sym (leading_separated ms hrest' hsep))
    simpa using separated_ident (w := key.chars) (t := .colon) (by decide) hnext

theorem trailing_follows {ms : List (Ident × Tree)} {ts : List Token} (h : trailingTokens ms ts)
    (rest : List Token) : Follows (ts ++ .sym .braceClose :: rest) := by
  rcases h with ⟨_, rfl⟩ | ⟨inner, _, rfl⟩
  · exact follows_braceClose rest
  · exact follows_comma _

theorem trailing_separated {ms : List (Ident × Tree)} {ts : List Token} (h : trailingTokens ms ts) :
    Separated (ts ++ [.sym .braceClose]) := by
  have hclose : Separated [.sym .braceClose] := separated_sym trivial
  rcases h with ⟨_, rfl⟩ | ⟨inner, hinner, rfl⟩
  · exact hclose
  · exact separated_sym (members_separated ms hinner (follows_braceClose []) hclose)

section

variable {tag : Option Ident} {ms ms' : List (Ident × Tree)} {key : Ident} {n : ℕ}

theorem open_separated {ts toks : List Token} (hts : leadingTokens ms ts) (htoks : Separated toks) :
    Separated (openTokens tag key ts ++ toks) := by
  have hobj : Separated (.sym .braceOpen :: (ts ++ (.id key.chars :: .sym .colon :: toks))) :=
    separated_sym (leading_separated ms hts (separated_ident (by decide) htoks))
  cases tag with
  | none => simpa [openTokens] using hobj
  | some tag => simpa [openTokens] using separated_tagTokens tag hobj

theorem ObjectText.ahead {lit text : List UInt8} (h : ObjectText tag ms key lit ms' text)
    (hlit : IsLiteral lit n) (hn : n < 2 ^ 64) (after : List UInt8) :
    ∃ ts ts', leadingTokens ms ts ∧ trailingTokens ms' ts' ∧
      Ahead (openTokens tag key ts ++ .num n :: (ts' ++ [.sym .braceClose])) (text ++ 0 :: after) ∧
      (openTokens tag key ts).length + ts'.length + 2 ≤ text.length := by
  obtain ⟨ts, ts', s, s', hts, hts', hs, hs', rfl⟩ := h
  have hsep := trailing_separated hts'
  have hends := (trailing_follows hts' []).endsWord
  have hsep' : Separated (.num n :: (ts' ++ [.sym .braceClose])) := ⟨fun _ => hends, hsep⟩
  rw [← List.append_nil (ts' ++ _)] at hends
  have hstops : Stops (s' ++ 0 :: after) := hs'.stops hends fun _ => ⟨0, after, rfl, rfl⟩
  have hnum : Ahead (.num n :: (ts' ++ [.sym .braceClose])) (lit ++ (s' ++ 0 :: after)) :=
    ⟨s' ++ 0 :: after, reads_num hlit hn hstops.stopsNumber, hs'.ahead hsep after⟩
  refine ⟨ts, ts', hts, hts', ?_, ?_⟩
  · have hahead := hs.ahead_append (open_separated hts hsep') (fun h => absurd h id) hnum
    simpa using hahead
  · have hlen := hs.length_le
    have hlen' := hs'.length_le
    have hzero : StopsNumber [0] := ⟨0, [], rfl, rfl⟩
    obtain ⟨c, t, rfl, _⟩ := lexNumber_eq hlit hn hzero
    simp only [List.length_append, List.length_cons, List.length_nil] at hlen' ⊢
    omega

end

/-! ## What the parser makes of the tokens -/

section

variable {tag : Option Ident} {ms ms' : List (Ident × Tree)} {key : Ident} {n fuel : ℕ}
  {ctx : Context} {rest : List Token}

theorem parserValue_num (h : ctx.At (.num n :: rest)) (hrest : Follows rest) :
    ∃ ctx' v, parserValue (fuel + 5) ctx valueNew = pure (ctx', v) ∧ ctx'.At rest ∧
      v = numberValue n := by
  obtain ⟨ctx₁, hpeek, hat₁⟩ := peek_at h
  obtain ⟨ctx₂, hbody, hat₂⟩ := parserBody_num hat₁ hrest
  have hvalue := (parserValue_body hpeek (show TokenType.num ≠ .lt by decide)).trans hbody
  exact ⟨ctx₂, _, hvalue, hat₂, rfl⟩

theorem leading_parse : ∀ (ms : List (Ident × Tree)) {ts : List Token} {ctx : Context} (fuel : ℕ)
    (value : Value) {o : XArray (Member Value)}, leadingTokens ms ts → membersFit ms →
    ctx.At (ts ++ rest) → 6 * ts.length ≤ fuel →
    value.type &&& ValueType.object.code ≠ 0 → value.obj = some o → o.Good →
    o.arr.length + ms.length ≤ 2 ^ 28 →
    ∃ fuel' ctx' o' vs, fuel ≤ fuel' + ts.length ∧
      objectLoop fuel ctx value = objectLoop fuel' ctx' { value with obj := some o' } ∧
      ctx'.At rest ∧ o'.arr = o.arr ++ vs ∧ o'.Good ∧ membersRepresented ms vs
  | [], ts, ctx, fuel, value, o, h, _, hat, _, _, hobj, hgood, _ => by
    have hts : ts = [] := h
    subst hts
    refine ⟨fuel, ctx, o, [], le_rfl, ?_, hat, (List.append_nil _).symm, hgood, rfl⟩
    rw [← hobj]
    cases value
    rfl
  | (key, t) :: ms, ts, ctx, fuel, value, o, h, hfit, hat, hfuel, htype, hobj, hgood, hlen => by
    obtain ⟨s, rest', hs, hrest', rfl⟩ := h
    simp only [List.length_append, List.length_cons] at hfuel hlen
    obtain ⟨fuel, rfl⟩ : ∃ n, fuel = n + 1 := ⟨fuel - 1, by omega⟩
    have hat : ctx.At (.id key.chars :: .sym .colon :: (s ++ .sym .comma :: (rest' ++ rest))) := by
      simpa using hat
    obtain ⟨ctx₁, v, hstep, hat₁, hrep⟩ := objectLoop_comma htype hobj
      (fun hat₁ => t.parse fuel hs hfit.1 (follows_comma _) hat₁ (by omega)) hat
    obtain ⟨hpush, hgood'⟩ := o.push_arr hgood (by omega) ⟨key.chars, v⟩
    have hlen' : (o.push ⟨key.chars, v⟩).arr.length + ms.length ≤ 2 ^ 28 := by
      rw [hpush, List.length_append, List.length_singleton]
      omega
    obtain ⟨fuel', ctx', o', vs, hle, hloop, hat', harr, hgood'', hreps⟩ :=
      leading_parse ms fuel { value with obj := some (o.push ⟨key.chars, v⟩) } hrest' hfit.2 hat₁
        (by omega) htype rfl hgood' hlen'
    refine ⟨fuel', ctx', o', some ⟨key.chars, v⟩ :: vs, ?_, hstep.trans hloop, hat', ?_, hgood'',
      v, vs, rfl, hrep, hreps⟩
    · simp only [List.length_append, List.length_cons]
      omega
    · rw [harr, hpush, List.append_assoc, List.singleton_append]

theorem number_parse (fuel : ℕ) (value : Value) {o : XArray (Member Value)} {ts' : List Token}
    (hts' : trailingTokens ms' ts') (hfit' : membersFit ms')
    (hat : ctx.At (.id key.chars :: .sym .colon :: .num n :: (ts' ++ .sym .braceClose :: rest)))
    (hfuel : 6 * ts'.length + 6 ≤ fuel) (htype : value.type &&& ValueType.object.code ≠ 0)
    (hobj : value.obj = some o) (hgood : o.Good) (hlen : o.arr.length + 1 + ms'.length ≤ 2 ^ 28) :
    ∃ ctx' o' vs, objectLoop fuel ctx value = pure (ctx', { value with obj := some o' }) ∧
      ctx'.At (.sym .braceClose :: rest) ∧
      o'.arr = o.arr ++ some ⟨key.chars, numberValue n⟩ :: vs ∧ membersRepresented ms' vs := by
  obtain ⟨fuel, rfl⟩ : ∃ n, fuel = n + 6 := ⟨fuel - 6, by omega⟩
  obtain ⟨hpush, hgood'⟩ := o.push_arr hgood (by omega) ⟨key.chars, numberValue n⟩
  rcases hts' with ⟨rfl, rfl⟩ | ⟨inner, hinner, rfl⟩
  · have hat : ctx.At
        (.id key.chars :: .sym .colon :: ([.num n] ++ .sym .braceClose :: rest)) := hat
    obtain ⟨ctx', v, hloop, hat', rfl⟩ := objectLoop_last htype hobj
      (fun hat₁ => parserValue_num hat₁ (follows_braceClose rest)) hat
    exact ⟨ctx', _, [], hloop, hat', hpush, rfl⟩
  · have hat : ctx.At (.id key.chars :: .sym .colon :: ([.num n] ++ .sym .comma ::
        (inner ++ .sym .braceClose :: rest))) := hat
    obtain ⟨ctx₁, v, hstep, hat₁, rfl⟩ := objectLoop_comma htype hobj
      (fun hat₁ => parserValue_num hat₁ (follows_comma _)) hat
    have hlen' : (o.push ⟨key.chars, numberValue n⟩).arr.length + ms'.length ≤ 2 ^ 28 := by
      rw [hpush, List.length_append, List.length_singleton]
      omega
    rw [List.length_cons] at hfuel
    obtain ⟨ctx', o', vs, hloop, hat', harr, hreps⟩ :=
      members_parse ms' (fuel + 5) { value with obj := some (o.push ⟨key.chars, numberValue n⟩) }
        hinner hfit' hat₁ (by omega) htype rfl hgood' hlen'
    refine ⟨ctx', o', vs, hstep.trans hloop, hat', ?_, hreps⟩
    rw [harr, hpush, List.append_assoc, List.singleton_append]

/-- The members are those of the text, with the number among them. -/
def MembersAre (ms : List (Ident × Tree)) (key : Ident) (n : ℕ) (ms' : List (Ident × Tree))
    (vs : List (Option (Member Value))) : Prop :=
  ∃ before after, vs = before ++ some ⟨key.chars, numberValue n⟩ :: after ∧
    membersRepresented ms before ∧ membersRepresented ms' after

theorem membersRepresented_length :
    ∀ (ms : List (Ident × Tree)) {vs : List (Option (Member Value))},
      membersRepresented ms vs → vs.length = ms.length
  | [], vs, h => by
    have hvs : vs = [] := h
    rw [hvs]
    rfl
  | (_, _) :: ms, vs, h => by
    obtain ⟨_, vs', rfl, _, hrest⟩ := h
    rw [List.length_cons, List.length_cons, membersRepresented_length ms hrest]

theorem parserObject_number {ts ts' : List Token} {bits : Option (List UInt8)}
    (hts : leadingTokens ms ts) (hts' : trailingTokens ms' ts') (hfit : membersFit ms)
    (hfit' : membersFit ms') (hlen : ms.length + 1 + ms'.length ≤ 2 ^ 28)
    (hfuel : 7 * ts.length + 6 * ts'.length + 6 ≤ fuel)
    (hat : ctx.At (.sym .braceOpen :: ((ts ++ .id key.chars :: .sym .colon :: .num n :: ts') ++
      .sym .braceClose :: rest))) :
    ∃ ctx' o, parserObject (fuel + 1) ctx ⟨.num 0, some (.new 1), bits, ValueType.object.code⟩ =
        pure (ctx', ⟨.num 0, some o, bits, ValueType.object.code⟩) ∧ ctx'.At rest ∧
      MembersAre ms key n ms' o.arr := by
  refine parserObject_new (fun {ctx₁} hat₁ => ?_) hat
  have hat₁ : ctx₁.At (ts ++ (.id key.chars :: .sym .colon :: .num n ::
      (ts' ++ .sym .braceClose :: rest))) := by simpa using hat₁
  obtain ⟨fuel', ctx₂, o₂, before, hle, hloop, hat₂, harr, hgood, hbefore⟩ :=
    leading_parse ms fuel ⟨.num 0, some (.new 1), bits, ValueType.object.code⟩ hts hfit hat₁
      (by omega) (show 8 &&& 8 ≠ 0 by decide) rfl XArray.good_new
      (by simp only [XArray.new, List.length_nil]; omega)
  rw [show (XArray.new 1 : XArray (Member Value)).arr = [] from rfl, List.nil_append] at harr
  have hlength := membersRepresented_length ms hbefore
  obtain ⟨ctx₃, o₃, after, hloop', hat₃, harr', hafter⟩ :=
    number_parse fuel' ⟨.num 0, some o₂, bits, ValueType.object.code⟩ hts' hfit' hat₂
      (by omega) (show 8 &&& 8 ≠ 0 by decide) rfl hgood (by rw [harr, hlength]; exact hlen)
  rw [harr] at harr'
  exact ⟨ctx₃, o₃, _, hloop.trans hloop', hat₃, harr', before, after, rfl, hbefore, hafter⟩

theorem parserBody_number {ts ts' : List Token} (fuel : ℕ) (bits : Option (List UInt8)) (b : Bool)
    (hts : leadingTokens ms ts) (hts' : trailingTokens ms' ts') (hfit : membersFit ms)
    (hfit' : membersFit ms') (hlen : ms.length + 1 + ms'.length ≤ 2 ^ 28)
    (hfuel : 7 * ts.length + 6 * ts'.length + 6 ≤ fuel)
    (hat : ctx.At (.sym .braceOpen :: ((ts ++ .id key.chars :: .sym .colon :: .num n :: ts') ++
      [.sym .braceClose]))) :
    ∃ ctx' o, parserBody (fuel + 2) ctx { valueNew with tag := bits } .braceOpen b =
        pure (ctx', ⟨.num 0, some o, bits, ValueType.object.code⟩) ∧
      MembersAre ms key n ms' o.arr := by
  obtain ⟨ctx₁, o, hobj, hat₁, hmembers⟩ := parserObject_number hts hts' hfit hfit' hlen hfuel hat
  obtain ⟨ctx₂, hpeek, _⟩ := peek_at hat₁
  exact ⟨ctx₂, o, (parserBody_braceOpen hobj hpeek).trans (if_neg (by decide)), hmembers⟩

/-- **The object of a text.**  Its members are those of the text; the value of the number is its
lowest 32 bits as an `int`. -/
theorem ObjectText.parse {lit text : List UInt8} (h : ObjectText tag ms key lit ms' text)
    (hlit : IsLiteral lit n) (hn : n < 2 ^ 64) (hfit : membersFit ms) (hfit' : membersFit ms')
    (hlen : ms.length + 1 + ms'.length ≤ 2 ^ 28) (htext : text.length < 2 ^ 31)
    (hfuel : 7 * text.length ≤ fuel) :
    ∃ v, (xjilParse fuel valueNew text text.length).run = some (.ok (0, v)) ∧
      v.type = ValueType.object.code ∧ ∃ o, v.obj = some o ∧ MembersAre ms key n ms' o.arr := by
  obtain ⟨ts, ts', hts, hts', hahead, hcount⟩ := h.ahead hlit hn []
  have hat : Context.At ⟨text ++ [0], 0, 1, 0, []⟩
      (openTokens tag key ts ++ .num n :: (ts' ++ [.sym .braceClose])) := by
    refine ⟨?_, text ++ [0], ⟨[], rfl, rfl⟩, hahead⟩
    rw [List.length_append, List.length_singleton]
    omega
  have hrun : ∀ {ctx' v}, parserValue fuel ⟨text ++ [0], 0, 1, 0, []⟩ valueNew = pure (ctx', v) →
      (xjilParse fuel valueNew text text.length).run = some (.ok (0, v)) := by
    intro ctx' v hval
    rw [xjilParse, xjilParseMem, if_neg (by omega), hval, pure_bind]
    rfl
  obtain ⟨fuel, rfl⟩ : ∃ n, fuel = n + 3 := ⟨fuel - 3, by omega⟩
  cases tag with
  | none =>
    have hat : Context.At ⟨text ++ [0], 0, 1, 0, []⟩ (.sym .braceOpen ::
        ((ts ++ .id key.chars :: .sym .colon :: .num n :: ts') ++ [.sym .braceClose])) := by
      simpa [openTokens] using hat
    simp only [openTokens, Option.map_none, Option.getD_none, List.nil_append, List.length_cons,
      List.length_append, List.length_nil] at hcount
    obtain ⟨ctx₁, hpeek, hat₁⟩ := peek_at hat
    obtain ⟨ctx₂, o, hbody, hmembers⟩ :=
      parserBody_number fuel none false hts hts' hfit hfit' hlen (by omega) hat₁
    have hne : TokenType.braceOpen ≠ .lt := by decide
    exact ⟨_, hrun ((parserValue_body hpeek hne).trans hbody), rfl, o, rfl, hmembers⟩
  | some tag =>
    have hat : Context.At ⟨text ++ [0], 0, 1, 0, []⟩ (tag.tagTokens ++ .sym .braceOpen ::
        ((ts ++ .id key.chars :: .sym .colon :: .num n :: ts') ++ [.sym .braceClose])) := by
      simpa [openTokens] using hat
    simp only [openTokens, Option.map_some, Option.getD_some, List.length_cons,
      List.length_append, List.length_nil] at hcount
    obtain ⟨ctx₁, hval, hat₁⟩ := parserValue_tag hat
    obtain ⟨ctx₂, o, hbody, hmembers⟩ :=
      parserBody_number fuel (some tag.chars) true hts hts' hfit hfit' hlen (by omega) hat₁
    exact ⟨_, hrun (hval.trans hbody), rfl, o, rfl, hmembers⟩

end

end Ginkgo.Xjil
