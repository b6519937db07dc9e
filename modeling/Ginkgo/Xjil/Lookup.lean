import Ginkgo.Lib.Outcome
import Ginkgo.Xjil.Member

/-!
# Members of objects

The model of `xjil_find_object_value` and of the functions that read members.  A key is copied to a
buffer that has exactly its length, without a `NUL`, and is compared with `strcmp`, so the
comparison goes on with what memory holds behind the key.

## Main results

* `Produced.wellFormed` — the keys of objects have no `NUL`.
* `xjilFindObjectValue_exact_iff` — when the lookup finds the first member with a key.
* `xjilReadU64_iff` — the numbers that are read back.
-/

namespace Ginkgo.Xjil

open Libc Outcome
open Fallible (bind_eq_ok ok_bind)

/-! ## Lookup -/

/-- The memory from an address on: the bytes of a buffer, and then what is behind it. -/
def bytesAt : List UInt8 → (ℕ → UInt8) → ℕ → UInt8
  | [], behind, i => behind i
  | c :: _, _, 0 => c
  | _ :: s, behind, i + 1 => bytesAt s behind i

/-- `strcmp` of the bytes in memory with a string. -/
def strcmpMem (s1 : ℕ → UInt8) : List UInt8 → ℤ
  | [] => (s1 0).toNat
  | c :: s2 =>
    if (s1 0).toNat - (c.toNat : ℤ) ≠ 0 ∨ s1 0 = 0 then (s1 0).toNat - c.toNat
    else strcmpMem (fun i => s1 (i + 1)) s2

/-- The loop of `xjil_find_object_value` from the member `i` on; `behind i` is what memory holds
after the key of that member.  The result is the value of a member, and the place of the member,
which tells its pointer from the others.  The counter of the loop is an `int`. -/
def findLoop (behind : ℕ → ℕ → UInt8) (key : List UInt8) :
    ℕ → List (Option (Member Value)) → Except Fault (Option (ℕ × Value))
  | _, [] => .ok none
  | _, none :: _ => .error .badAccess
  | i, some m :: ms =>
    if strcmpMem (bytesAt m.key (behind i)) key = 0 then .ok (some (i, m.v))
    else if i + 1 < 2 ^ 31 then findLoop behind key (i + 1) ms
    else .error .badAccess

/-- `xjil_find_object_value`. -/
def xjilFindObjectValue (behind : ℕ → ℕ → UInt8) (v : Value) (key : List UInt8) :
    Except Fault (Option (ℕ × Value)) := do
  kassert (v.type &&& ValueType.object.code ≠ 0)
  match v.obj with
  | some obj => findLoop behind key 0 obj.arr
  | none => .error .badAccess

/-- `xjil_is_number`. -/
def xjilIsNumber (v : Value) : Bool := v.type == ValueType.number.code

/-- `xjil_get_number`. -/
def xjilGetNumber (v : Value) : Except Fault ℕ := do
  kassert (v.type = ValueType.number.code)
  match v.word with
  | .num n => .ok n
  | _ => .error .badAccess

/-- `xjil_read_u64`. -/
def xjilReadU64 (behind : ℕ → ℕ → UInt8) (v : Value) (name : List UInt8) (dflt : ℕ) :
    Except Fault ℕ := do
  match ← xjilFindObjectValue behind v name with
  | some (_, t) => if xjilIsNumber t then xjilGetNumber t else .ok dflt
  | none => .ok dflt

/-! ## Values of the parser -/

namespace Value

/-- The elements of the array of a value. -/
def elements (v : Value) : List (Option Value) :=
  match v.word with
  | .arr a => a.arr
  | _ => []

/-- The members of the object of a value. -/
def members (v : Value) : List (Option (Member Value)) :=
  match v.obj with
  | some obj => obj.arr
  | none => []

/-- `u` is `v`, or a value in it. -/
inductive Part : Value → Value → Prop
  | refl (v : Value) : Part v v
  | element {v w u : Value} (hw : some w ∈ v.elements) (hu : Part w u) : Part v u
  | member {v u : Value} {m : Member Value} (hm : some m ∈ v.members) (hu : Part m.v u) : Part v u

/-- A value that is marked as an object has one, and no key of its members has a `NUL`. -/
structure KeysOk (v : Value) : Prop where
  obj_ne_none : v.type &&& ValueType.object.code ≠ 0 → v.obj ≠ none
  zero_notMem : ∀ m, some m ∈ v.members → 0 ∉ m.key

/-- Every value in `v` is as it should be. -/
def WellFormed (v : Value) : Prop := ∀ u, Part v u → u.KeysOk

theorem wellFormed_iff {v : Value} : v.WellFormed ↔ v.KeysOk ∧
    (∀ w, some w ∈ v.elements → w.WellFormed) ∧ ∀ m, some m ∈ v.members → m.v.WellFormed := by
  constructor
  · exact fun h => ⟨h v (.refl v), fun w hw u hu => h u (.element hw hu),
      fun m hm u hu => h u (.member hm hu)⟩
  · rintro ⟨hv, helements, hmembers⟩ u hu
    cases hu with
    | refl => exact hv
    | element hw hu => exact helements _ hw u hu
    | member hm hu => exact hmembers _ hm u hu

end Value

theorem XArray.mem_push {α : Type} {a : XArray α} {x y : α} (h : some y ∈ (a.push x).arr) :
    some y ∈ a.arr ∨ y = x := by
  have hresize : ∀ capacity, some y ∈ (a.resize capacity).arr → some y ∈ a.arr := by
    intro capacity hmem
    have hmem := List.mem_of_mem_take hmem
    cases List.mem_append.mp hmem with
    | inl hold => exact List.mem_of_mem_take hold
    | inr hnew => exact absurd (List.eq_of_mem_replicate hnew) nofun
  unfold XArray.push at h
  cases List.mem_append.mp h with
  | inl hold =>
    split_ifs at hold
    · exact Or.inl (hresize _ hold)
    · exact Or.inl hold
  | inr hnew => exact Or.inr (Option.some.inj (List.mem_singleton.mp hnew))

section

variable {v v' w : Value} {ctx ctx' : Context} {type : TokenType}

theorem Value.WellFormed.of_parts (h : v.WellFormed)
    (hobj : v'.type &&& ValueType.object.code ≠ 0 → v'.obj ≠ none)
    (helements : ∀ w, some w ∈ v'.elements → some w ∈ v.elements ∨ w.WellFormed)
    (hmembers : ∀ m, some m ∈ v'.members → some m ∈ v.members ∨ 0 ∉ m.key ∧ m.v.WellFormed) :
    v'.WellFormed := by
  obtain ⟨hkeys, hold, hold'⟩ := wellFormed_iff.mp h
  refine wellFormed_iff.mpr ⟨⟨hobj, fun m hm => ?_⟩, fun w hw => ?_, fun m hm => ?_⟩
  · exact (hmembers m hm).elim (hkeys.zero_notMem m) And.left
  · exact (helements w hw).elim (hold w) id
  · exact (hmembers m hm).elim (hold' m) And.right

theorem Value.WellFormed.withWord (h : v.WellFormed) {word : Word Value}
    (hword : ∀ a, word = .arr a → a.arr = []) :
    Value.WellFormed { v with word := word } := by
  refine h.of_parts (h v (.refl v)).obj_ne_none (fun w hw => ?_) (fun m hm => Or.inl hm)
  cases word with
  | arr a =>
    rw [show Value.elements { v with word := .arr a } = a.arr from rfl, hword a rfl] at hw
    exact absurd hw List.not_mem_nil
  | num | str => exact absurd hw List.not_mem_nil

theorem object_code_ne {bits : ℕ} {type : ValueType} (htype : type ≠ .object)
    (h : (bits ||| type.code) &&& ValueType.object.code ≠ 0) :
    bits &&& ValueType.object.code ≠ 0 := by
  have hcode : type.code &&& ValueType.object.code = 0 := by
    cases type <;> first | rfl | exact absurd rfl htype
  rwa [Nat.and_or_distrib_right, hcode, Nat.or_zero] at h

theorem Value.WellFormed.withType (h : v.WellFormed) (type : ValueType) (htype : type ≠ .object) :
    Value.WellFormed { v with type := v.type ||| type.code } :=
  h.of_parts (fun hbits => (h v (.refl v)).obj_ne_none (object_code_ne htype hbits))
    (fun _ hw => Or.inl hw) (fun _ hm => Or.inl hm)

theorem valueInit_wellFormed (h : v.WellFormed) {type : ValueType}
    (hinit : valueInit v type = .ok v') : v'.WellFormed := by
  cases type with
  | null =>
    cases hinit
    exact h.withType _ (by decide)
  | bool | number =>
    cases hinit
    exact (h.withType _ (by decide)).withWord nofun
  | string =>
    unfold valueInit at hinit
    dsimp only at hinit
    split at hinit
    · cases hinit
      exact (h.withType .string (by decide)).withWord nofun
    · cases hinit
      exact (h.withType .string (by decide)).withWord nofun
    · cases hinit
  | array =>
    unfold valueInit at hinit
    dsimp only at hinit
    split at hinit
    · cases hinit
      exact (h.withType .array (by decide)).withWord
        (fun a ha => Word.arr.inj ha ▸ rfl)
    · cases hinit
      exact (h.withType .array (by decide)).withWord
        (fun a ha => Word.arr.inj ha ▸ rfl)
    · cases hinit
  | object =>
    have hnew : ∀ (obj : XArray (Member Value)), obj.arr = [] →
        Value.WellFormed { v with type := v.type ||| ValueType.object.code, obj := some obj } := by
      intro obj hempty
      refine h.of_parts (fun _ => nofun) (fun _ hw => Or.inl hw) (fun m hm => ?_)
      rw [show Value.members { v with type := v.type ||| ValueType.object.code, obj := some obj } =
        obj.arr from rfl, hempty] at hm
      exact absurd hm List.not_mem_nil
    unfold valueInit at hinit
    dsimp only at hinit
    split at hinit
    · cases hinit
      exact hnew _ rfl
    · cases hinit
      exact hnew _ rfl

theorem pushElement_wellFormed (h : v.WellFormed) (hw : w.WellFormed)
    (hpush : pushElement v w = .ok v') : v'.WellFormed := by
  obtain ⟨_, _, hpush⟩ := bind_eq_ok.mp hpush
  split at hpush
  · next a harr =>
    cases hpush
    refine h.of_parts (h v (.refl v)).obj_ne_none (fun u hu => ?_) (fun _ hm => Or.inl hm)
    have helements : v.elements = a.arr := by rw [Value.elements, harr]
    have hu : some u ∈ (a.push w).arr := hu
    rw [helements]
    exact (XArray.mem_push hu).elim Or.inl fun heq => Or.inr (heq ▸ hw)
  · cases hpush
  · cases hpush

theorem pushMember_wellFormed (h : v.WellFormed) {m : Member Value} (hkey : 0 ∉ m.key)
    (hm : m.v.WellFormed) (hpush : pushMember v m = .ok v') : v'.WellFormed := by
  obtain ⟨_, _, hpush⟩ := bind_eq_ok.mp hpush
  split at hpush
  · next a hobj =>
    cases hpush
    refine h.of_parts (fun _ => nofun) (fun _ hw => Or.inl hw) (fun u hu => ?_)
    have hmembers : v.members = a.arr := by rw [Value.members, hobj]
    have hu : some u ∈ (a.push m).arr := hu
    rw [hmembers]
    exact (XArray.mem_push hu).elim Or.inl fun heq => Or.inr (heq ▸ ⟨hkey, hm⟩)
  · cases hpush

theorem lexToken_id {s rest : List UInt8} {num num' : ℕ} {str str' : List UInt8}
    (h : lexToken s num str = .ok (.id, rest, num', str')) : 0 ∉ str' := by
  cases s with
  | nil => cases h
  | cons c s =>
    rw [lexToken] at h
    split_ifs at h with hnul hword hdigit hquote
    · cases h
    · obtain ⟨_, _, h⟩ := bind_eq_ok.mp h
      have hstr : c :: s.takeWhile isWordChar = str' := by
        have hpair := (Prod.mk.inj (Except.ok.inj h)).2
        exact (Prod.mk.inj (Prod.mk.inj hpair).2).2
      rw [← hstr, List.mem_cons, not_or]
      refine ⟨fun heq => hnul heq.symm, fun hmem => ?_⟩
      exact absurd (List.mem_takeWhile_imp hmem) (by decide)
    · obtain ⟨⟨_, _⟩, _, h⟩ := bind_eq_ok.mp h
      cases h
    · obtain ⟨⟨_, _⟩, _, h⟩ := bind_eq_ok.mp h
      cases h
    all_goals
      cases hlookup : punctuation.lookup c with
      | some t =>
        rw [hlookup] at h
        have ht : t = .id := (Prod.mk.inj (Except.ok.inj h)).1
        have hno : ∀ p ∈ punctuation, p.2 ≠ .id := by decide
        exact absurd ht (hno _ (mem_punctuation hlookup))
      | none =>
        rw [hlookup] at h
        cases h

theorem expect_id (h : expect ctx .id = .ok ctx') : 0 ∉ ctx'.str := by
  obtain ⟨⟨type, ctx₁⟩, hnext, h⟩ := bind_eq_ok.mp h
  dsimp only at h
  split_ifs at h with htype
  cases h
  obtain ⟨_, _, hnext⟩ := bind_eq_ok.mp hnext
  obtain ⟨⟨s, line⟩, _, hnext⟩ := bind_eq_ok.mp hnext
  obtain ⟨⟨type', rest, num, str⟩, hlex, hnext⟩ := bind_eq_ok.mp hnext
  cases hnext
  rw [not_not.mp htype] at hlex
  exact lexToken_id hlex

end

/-! ### The parser -/

/-- The functions of the parser keep values as they should be. -/
structure KeepsKeys (fuel : ℕ) : Prop where
  value : ∀ ctx v, v.WellFormed → Post (fun r => r.2.WellFormed) (parserValue fuel ctx v)
  body : ∀ ctx v type withTag, v.WellFormed →
    Post (fun r => r.2.WellFormed) (parserBody fuel ctx v type withTag)
  object : ∀ ctx v, v.WellFormed → Post (fun r => r.2.WellFormed) (parserObject fuel ctx v)
  members : ∀ ctx v, v.WellFormed → Post (fun r => r.2.WellFormed) (objectLoop fuel ctx v)
  array : ∀ ctx v, v.WellFormed → Post (fun r => r.2.WellFormed) (parserArray fuel ctx v)
  elements : ∀ ctx v, v.WellFormed → Post (fun r => r.2.WellFormed) (arrayLoop fuel ctx v)

section

variable {fuel : ℕ} {v : Value}

theorem wellFormed_valueNew : valueNew.WellFormed :=
  Value.wellFormed_iff.mpr ⟨⟨fun h => absurd rfl h, nofun⟩, nofun, nofun⟩

theorem parserTag_wellFormed {ctx ctx' : Context} {v' : Value} (hv : v.WellFormed)
    (h : parserTag ctx v = .ok (ctx', v')) : v'.WellFormed := by
  iterate 3 obtain ⟨_, _, h⟩ := bind_eq_ok.mp h
  cases h
  exact hv.of_parts (hv v (.refl v)).obj_ne_none (fun _ hw => Or.inl hw) (fun _ hm => Or.inl hm)

section

variable (ih : KeepsKeys fuel) (ctx : Context) (hv : v.WellFormed)

include ih ctx hv

theorem KeepsKeys.value_succ :
    Post (fun r => r.2.WellFormed) (parserValue (fuel + 1) ctx v) := by
  rw [parserValue]
  refine Post.bind_any ?_
  rintro ⟨type, ctx₁⟩
  dsimp only
  split_ifs
  · refine (Post.lift fun r hr => parserTag_wellFormed hv hr).bind ?_
    rintro ⟨ctx₂, v'⟩ hv'
    refine Post.bind_any ?_
    rintro ⟨type', ctx₃⟩
    exact ih.body _ _ _ _ hv'
  · exact ih.body _ _ _ _ hv

theorem KeepsKeys.object_succ :
    Post (fun r => r.2.WellFormed) (parserObject (fuel + 1) ctx v) := by
  rw [parserObject]
  refine Post.bind_any fun ctx₁ => (ih.members _ _ hv).bind ?_
  rintro ⟨ctx₂, v'⟩ hv'
  exact Post.bind_any fun _ => Post.pure hv'

theorem KeepsKeys.array_succ :
    Post (fun r => r.2.WellFormed) (parserArray (fuel + 1) ctx v) := by
  rw [parserArray]
  refine Post.bind_any fun ctx₁ => (ih.elements _ _ hv).bind ?_
  rintro ⟨ctx₂, v'⟩ hv'
  exact Post.bind_any fun _ => Post.pure hv'

theorem KeepsKeys.elements_succ :
    Post (fun r => r.2.WellFormed) (arrayLoop (fuel + 1) ctx v) := by
  rw [arrayLoop]
  refine Post.bind_any ?_
  rintro ⟨type, ctx₁⟩
  dsimp only
  split_ifs
  · exact Post.pure hv
  · refine (ih.value _ _ wellFormed_valueNew).bind ?_
    rintro ⟨ctx₂, w⟩ hw
    refine (Post.lift fun _ hpush => pushElement_wellFormed hv hw hpush).bind fun v' hv' => ?_
    refine Post.bind_any ?_
    rintro ⟨comma, ctx₃⟩
    dsimp only
    split_ifs
    · exact ih.elements _ _ hv'
    · exact Post.pure hv'

theorem KeepsKeys.members_succ :
    Post (fun r => r.2.WellFormed) (objectLoop (fuel + 1) ctx v) := by
  rw [objectLoop]
  refine Post.bind_any ?_
  rintro ⟨type, ctx₁⟩
  dsimp only
  split_ifs
  · exact Post.pure hv
  · refine (Post.lift fun _ hid => expect_id hid).bind fun ctx₂ hkey => ?_
    refine Post.bind_any fun ctx₃ => ?_
    refine (ih.value _ _ wellFormed_valueNew).bind ?_
    rintro ⟨ctx₄, w⟩ hw
    refine (Post.lift fun _ hpush => pushMember_wellFormed hv hkey hw hpush).bind fun v' hv' => ?_
    refine Post.bind_any ?_
    rintro ⟨comma, ctx₅⟩
    dsimp only
    split_ifs
    · exact ih.members _ _ hv'
    · exact Post.pure hv'

end

theorem KeepsKeys.body_succ (ih : KeepsKeys fuel) (ctx : Context) (type : TokenType)
    (withTag : Bool) (hv : v.WellFormed) :
    Post (fun r => r.2.WellFormed) (parserBody (fuel + 1) ctx v type withTag) := by
  have hinit : ∀ {w : Value} (t : ValueType), w.WellFormed →
      Post Value.WellFormed (liftM (valueInit w t) : Parse Value) :=
    fun t hw => Post.lift fun _ hok => valueInit_wellFormed hw hok
  rw [parserBody]
  split_ifs
  · refine (hinit .object hv).bind fun v₁ hv₁ => (ih.object _ _ hv₁).bind ?_
    rintro ⟨ctx₂, v₂⟩ hv₂
    refine Post.bind_any ?_
    rintro ⟨type', ctx₃⟩
    dsimp only
    split_ifs
    · exact (hinit .array hv₂).bind fun v₃ hv₃ => ih.array _ _ hv₃
    · exact Post.pure hv₂
  · exact (hinit .array hv).bind fun v₁ hv₁ => ih.array _ _ hv₁
  · refine (hinit .number hv).bind fun v₁ hv₁ => ?_
    refine Post.bind_any ?_
    rintro ⟨num, ctx₂⟩
    exact Post.pure (hv₁.withWord (by simp))
  · refine (hinit .string hv).bind fun v₁ hv₁ => ?_
    refine Post.bind_any ?_
    rintro ⟨_, ctx₂⟩
    exact Post.pure (hv₁.withWord (by simp))
  · refine (hinit .bool hv).bind fun v₁ hv₁ => ?_
    refine Post.bind_any ?_
    rintro ⟨_, ctx₂⟩
    exact Post.pure (hv₁.withWord (by simp))
  · exact Post.pure hv
  · exact Post.throw _

theorem keepsKeys (fuel : ℕ) : KeepsKeys fuel := by
  induction fuel with
  | zero =>
    exact ⟨fun _ _ _ => trivial, fun _ _ _ _ _ => trivial, fun _ _ _ => trivial,
      fun _ _ _ => trivial, fun _ _ _ => trivial, fun _ _ _ => trivial⟩
  | succ fuel ih =>
    exact ⟨fun ctx _ => ih.value_succ ctx, fun ctx _ type tag => ih.body_succ ctx type tag,
      fun ctx _ => ih.object_succ ctx, fun ctx _ => ih.members_succ ctx,
      fun ctx _ => ih.array_succ ctx, fun ctx _ => ih.elements_succ ctx⟩

/-- The values that `xjil_parse` makes of a new one, in one call or in several ones. -/
inductive Produced : Value → Prop
  | new : Produced valueNew
  | parse {v v' : Value} {fuel len : ℕ} {mem : List UInt8} {r : ℤ} (hv : Produced v)
    (hrun : (xjilParseMem fuel v mem len).run = some (.ok (r, v'))) : Produced v'

theorem Produced.wellFormed (h : Produced v) : v.WellFormed := by
  induction h with
  | new => exact wellFormed_valueNew
  | @parse v v' fuel len mem r _ hrun ih =>
    have hpost : Post (fun r => r.2.WellFormed) (xjilParseMem fuel v mem len) := by
      unfold xjilParseMem
      split_ifs
      · exact Post.pure ih
      · refine ((keepsKeys fuel).value _ _ ih).bind ?_
        rintro ⟨_, v'⟩ hv'
        exact Post.pure hv'
    exact hpost.of_run hrun

end

/-! ## Exact lookup -/

/-- The memory begins with the given bytes. -/
def Begins (mem : ℕ → UInt8) : List UInt8 → Prop
  | [] => True
  | c :: s => mem 0 = c ∧ Begins (fun i => mem (i + 1)) s

theorem strcmpMem_eq_zero (mem : ℕ → UInt8) {q : List UInt8} (hq : 0 ∉ q) :
    strcmpMem mem q = 0 ↔ Begins mem (q ++ [0]) := by
  induction q generalizing mem with
  | nil =>
    rw [strcmpMem]
    simp [Begins, ← UInt8.toNat_inj]
  | cons c q ih =>
    have hc : c ≠ 0 := fun h => hq (h ▸ List.mem_cons_self)
    have hq' : 0 ∉ q := fun h => hq (List.mem_cons_of_mem c h)
    rw [strcmpMem, List.cons_append, Begins, ← ih _ hq']
    by_cases heq : mem 0 = c
    · rw [if_neg (by simp [heq, hc])]
      exact (and_iff_right heq).symm
    · have hne : ((mem 0).toNat : ℤ) - c.toNat ≠ 0 := fun h => heq (toNat_sub_eq_zero.mp h)
      rw [if_pos (Or.inl hne)]
      exact ⟨fun h => absurd h hne, fun h => absurd h.1 heq⟩

theorem strcmpMem_bytesAt {k q : List UInt8} (hk : 0 ∉ k) (hq : 0 ∉ q) (behind : ℕ → UInt8) :
    strcmpMem (bytesAt k behind) q = 0 ↔ ∃ r, q = k ++ r ∧ Begins behind (r ++ [0]) := by
  rw [strcmpMem_eq_zero _ hq]
  induction k generalizing q with
  | nil => simp [bytesAt]
  | cons c k ih =>
    have hc : c ≠ 0 := fun h => hk (h ▸ List.mem_cons_self)
    have hk' : 0 ∉ k := fun h => hk (List.mem_cons_of_mem c h)
    cases q with
    | nil => simp [Begins, bytesAt, hc]
    | cons d q =>
      have hq' : 0 ∉ q := fun h => hq (List.mem_cons_of_mem d h)
      rw [List.cons_append, Begins]
      show c = d ∧ Begins (bytesAt k behind) (q ++ [0]) ↔ _
      rw [ih hk' hq']
      simp [eq_comm, and_assoc]

/-- The place and the value of the first member with the key. -/
def firstWith (key : List UInt8) : ℕ → List (Option (Member Value)) → Option (ℕ × Value)
  | _, [] => none
  | i, none :: ms => firstWith key (i + 1) ms
  | i, some m :: ms => if m.key = key then some (i, m.v) else firstWith key (i + 1) ms

/-- The `i`-th member has the key. -/
def HasKey (key : List UInt8) (ms : List (Option (Member Value))) (i : ℕ) : Prop :=
  ∃ m, ms[i]? = some (some m) ∧ m.key = key

/-- The lookup passes the member `m` at the place `i` rightly: if it has the key, then a `NUL`
follows, and otherwise what is behind its own key does not complete it to the key that is looked
for, and the counter of the loop can be increased. -/
def PassedRightly (behind : ℕ → ℕ → UInt8) (key : List UInt8) (i : ℕ) (m : Member Value) : Prop :=
  if m.key = key then behind i 0 = 0
  else (¬ ∃ r, key = m.key ++ r ∧ Begins (behind i) (r ++ [0])) ∧ i + 1 < 2 ^ 31

section

variable (behind : ℕ → ℕ → UInt8) {key : List UInt8} {ms : List (Option (Member Value))}

theorem findLoop_member {i j : ℕ} {w : Value}
    (h : findLoop behind key i ms = .ok (some (j, w))) :
    ∃ k m, j = i + k ∧ ms[k]? = some (some m) ∧ w = m.v := by
  induction ms generalizing i with
  | nil => cases h
  | cons m ms ih =>
    cases m with
    | none => cases h
    | some m =>
      rw [findLoop] at h
      split_ifs at h
      · obtain ⟨rfl, rfl⟩ := Prod.mk.inj (Option.some.inj (Except.ok.inj h))
        exact ⟨0, m, rfl, rfl, rfl⟩
      · obtain ⟨k, m', rfl, hget, hw⟩ := ih h
        exact ⟨k + 1, m', by omega, hget, hw⟩

theorem le_of_firstWith {i j : ℕ} {w : Value} (h : firstWith key i ms = some (j, w)) : i ≤ j := by
  induction ms generalizing i with
  | nil => cases h
  | cons m ms ih =>
    cases m with
    | none => exact (Nat.le_succ i).trans (ih h)
    | some m =>
      rw [firstWith] at h
      split_ifs at h
      · exact (Prod.mk.inj (Option.some.inj h)).1.le
      · exact (Nat.le_succ i).trans (ih h)

theorem hasKey_cons_zero (m : Member Value) : HasKey key (some m :: ms) 0 ↔ m.key = key := by
  simp [HasKey]

theorem forall_passed_cons (m : Option (Member Value)) {P : ℕ → Member Value → Prop} :
    (∀ j < (m :: ms).length, (∀ k < j, ¬ HasKey key (m :: ms) k) →
        ∃ m', (m :: ms)[j]? = some (some m') ∧ P j m') ↔
      (∃ m', m = some m' ∧ P 0 m') ∧ (¬ HasKey key (m :: ms) 0 →
        ∀ j < ms.length, (∀ k < j, ¬ HasKey key ms k) →
          ∃ m', ms[j]? = some (some m') ∧ P (j + 1) m') := by
  constructor
  · intro h
    refine ⟨?_, fun hno j hj hbefore => ?_⟩
    · obtain ⟨m', hm, hP⟩ := h 0 (Nat.succ_pos _) fun k hk => absurd hk (Nat.not_lt_zero k)
      exact ⟨m', Option.some.inj hm, hP⟩
    · refine h (j + 1) (Nat.succ_lt_succ hj) fun k hk => ?_
      cases k with
      | zero => exact hno
      | succ k => exact hbefore k (Nat.lt_of_succ_lt_succ hk)
  · rintro ⟨⟨m', hm, hP⟩, hrest⟩ j hj hbefore
    cases j with
    | zero => exact ⟨m', by rw [hm]; rfl, hP⟩
    | succ j =>
      exact hrest (hbefore 0 (Nat.succ_pos j)) j (Nat.lt_of_succ_lt_succ hj)
        fun k hk => hbefore (k + 1) (Nat.succ_lt_succ hk)

theorem findLoop_eq_firstWith_iff (hkey : 0 ∉ key) (hms : ∀ m, some m ∈ ms → 0 ∉ m.key) (i : ℕ) :
    findLoop behind key i ms = .ok (firstWith key i ms) ↔
      ∀ j < ms.length, (∀ k < j, ¬ HasKey key ms k) →
        ∃ m, ms[j]? = some (some m) ∧ PassedRightly behind key (i + j) m := by
  induction ms generalizing i with
  | nil => simp [findLoop, firstWith]
  | cons m ms ih =>
    have ih := ih (fun m hm => hms m (List.mem_cons_of_mem _ hm)) (i + 1)
    rw [forall_passed_cons]
    cases m with
    | none => simp [findLoop]
    | some m =>
      have hm := hms m List.mem_cons_self
      have hcmp := strcmpMem_bytesAt hm hkey (behind i)
      have hshift : ∀ j m', PassedRightly behind key (i + (j + 1)) m' =
          PassedRightly behind key (i + 1 + j) m' :=
        fun j m' => by rw [show i + (j + 1) = i + 1 + j by omega]
      simp only [Option.some.injEq, exists_eq_left', hasKey_cons_zero, Nat.add_zero, hshift]
      rw [findLoop, firstWith]
      by_cases heq : m.key = key
      · have hnul : (∃ r, key = m.key ++ r ∧ Begins (behind i) (r ++ [0])) ↔ behind i 0 = 0 := by
          rw [heq]
          simp [Begins]
        rw [if_pos heq, PassedRightly, if_pos heq, ← hnul, ← hcmp]
        by_cases hzero : strcmpMem (bytesAt m.key (behind i)) key = 0
        · rw [if_pos hzero]
          exact iff_of_true rfl ⟨hzero, fun hno => absurd heq hno⟩
        · rw [if_neg hzero]
          refine iff_of_false (fun hfind => ?_) fun h => hzero h.1
          split_ifs at hfind
          obtain ⟨k, _, hk, _⟩ := findLoop_member behind hfind
          omega
      · rw [if_neg heq, PassedRightly, if_neg heq, ← hcmp]
        by_cases hzero : strcmpMem (bytesAt m.key (behind i)) key = 0
        · rw [if_pos hzero]
          refine iff_of_false (fun hfind => ?_) fun h => h.1.1 hzero
          exact absurd (le_of_firstWith (Except.ok.inj hfind).symm) (by omega)
        · rw [if_neg hzero]
          by_cases hint : i + 1 < 2 ^ 31
          · rw [if_pos hint, ih]
            exact ⟨fun h => ⟨⟨hzero, hint⟩, fun _ => h⟩, fun h => h.2 heq⟩
          · rw [if_neg hint]
            exact iff_of_false nofun fun h => hint h.1.2

end

/-- **Members are found by their keys** exactly if every member up to the first one with the key is
passed rightly.  The value is one in a value that `xjil_parse` has made, the key is any string, and
memory holds anything behind the keys. -/
theorem xjilFindObjectValue_exact_iff {v u : Value} (hv : Produced v) (hu : v.Part u)
    (htype : u.type &&& ValueType.object.code ≠ 0) {key : List UInt8} (hkey : 0 ∉ key)
    (behind : ℕ → ℕ → UInt8) :
    xjilFindObjectValue behind u key = .ok (firstWith key 0 u.members) ↔
      ∀ i < u.members.length, (∀ j < i, ¬ HasKey key u.members j) →
        ∃ m, u.members[i]? = some (some m) ∧ PassedRightly behind key i m := by
  have hkeys := hv.wellFormed u hu
  cases hobj : u.obj with
  | none => exact absurd hobj (hkeys.obj_ne_none htype)
  | some obj =>
    have hmembers : u.members = obj.arr := by rw [Value.members, hobj]
    have hloop := findLoop_eq_firstWith_iff behind hkey hkeys.zero_notMem 0
    simp only [Nat.zero_add] at hloop
    rw [← hloop, hmembers, xjilFindObjectValue, kassert_pos htype, ok_bind, hobj]

/-- The key `a`. -/
def keyA : Ident := ⟨[97], ⟨97, [], rfl, by decide, fun _ h => absurd h List.not_mem_nil⟩,
  by decide, by decide⟩

theorem objectText_keyA (lit : List UInt8) :
    ObjectText none [] keyA lit [] ([123, 97, 58] ++ (lit ++ [125])) := by
  have hopen : (Token.sym .braceOpen).Spells [123] := ⟨123, rfl, rfl⟩
  have hkey : (Token.id [97]).Spells [97] := ⟨keyA.valid, rfl⟩
  have hcolon : (Token.sym .colon).Spells [58] := ⟨58, rfl, rfl⟩
  have hclose : (Token.sym .braceClose).Spells [125] := ⟨125, rfl, rfl⟩
  exact ⟨[], [], [123, 97, 58], [125], rfl, .inl ⟨rfl, rfl⟩,
    .cons .nil hopen (.cons .nil hkey (.cons .nil hcolon (.nil .nil))),
    .cons .nil hclose (.nil .nil), rfl⟩

theorem isLiteral_one : IsLiteral [49] 1 :=
  .inl ⟨List.all_eq_true.mp rfl, rfl, .inr ⟨49, [], rfl, by decide⟩⟩

section

variable {lit : List UInt8} {n : ℕ}

theorem xjilParse_keyA (hlit : IsLiteral lit n) (hn : n < 2 ^ 64) (hlen : lit.length < 2 ^ 30) :
    ∃ v, (xjilParse (7 * (lit.length + 4)) valueNew ([123, 97, 58] ++ (lit ++ [125]))
        (lit.length + 4)).run = some (.ok (0, v)) ∧ v.members = [some ⟨[97], numberValue n⟩] ∧
      ∀ behind key, xjilFindObjectValue behind v key =
        findLoop behind key 0 [some ⟨[97], numberValue n⟩] := by
  have htext : ([123, 97, 58] ++ (lit ++ [125])).length = lit.length + 4 := by simp
  obtain ⟨v, hrun, htype, o, hobj, before, after, harr, hbefore, hafter⟩ :=
    (objectText_keyA lit).parse hlit hn trivial trivial (by decide) (by omega) le_rfl
  have hbefore : before = [] := hbefore
  have hafter : after = [] := hafter
  rw [hbefore, hafter] at harr
  have hbits : v.type &&& ValueType.object.code ≠ 0 := by
    rw [htype]
    decide
  rw [htext] at hrun
  refine ⟨v, hrun, ?_, fun behind key => ?_⟩
  · rw [Value.members, hobj]
    exact harr
  · rw [xjilFindObjectValue, kassert_pos hbits, ok_bind, hobj]
    exact congrArg (findLoop behind key 0) harr

end

theorem xjilFindObjectValue_exact_small : ∃ v, Produced v ∧
    v.type &&& ValueType.object.code ≠ 0 ∧
      xjilFindObjectValue (fun _ _ => 0) v [97] = .ok (firstWith [97] 0 v.members) := by
  obtain ⟨v, hrun, hmembers, hfind⟩ := xjilParse_keyA isLiteral_one (by decide) (by decide)
  have hbits : v.type &&& ValueType.object.code ≠ 0 := by
    intro hno
    have hfault := hfind (fun _ _ => 0) [97]
    rw [xjilFindObjectValue, hno] at hfault
    cases hfault
  have hv : Produced v := .parse .new hrun
  refine ⟨v, hv, hbits, ?_⟩
  refine (xjilFindObjectValue_exact_iff hv (.refl v) hbits (by decide) _).mpr fun i hi _ => ?_
  rw [hmembers] at hi ⊢
  obtain rfl : i = 0 := Nat.lt_one_iff.mp hi
  exact ⟨_, rfl, rfl⟩

/-- The object `{a:1}`, with a `b` behind its key: its member is not found by the key `a`, and it is
found by the key `ab` if a `NUL` follows. -/
theorem xjilFindObjectValue_small : ∃ v, Produced v ∧
    firstWith [97] 0 v.members = some (0, numberValue 1) ∧
    xjilFindObjectValue (fun _ _ => 98) v [97] = .ok none ∧
    firstWith [97, 98] 0 v.members = none ∧
    xjilFindObjectValue (fun _ i => if i = 0 then 98 else 0) v [97, 98] =
      .ok (some (0, numberValue 1)) := by
  obtain ⟨v, hrun, hmembers, hfind⟩ := xjilParse_keyA isLiteral_one (by decide) (by decide)
  refine ⟨v, .parse .new hrun, ?_, ?_, ?_, ?_⟩
  · rw [hmembers]
    rfl
  · rw [hfind]
    rfl
  · rw [hmembers]
    rfl
  · rw [hfind]
    rfl

/-! ## Numbers -/

theorem signExtended_eq_iff {n : ℕ} (hn : n < 2 ^ 64) :
    signExtended n = n ↔ n < 2 ^ 31 ∨ 2 ^ 64 - 2 ^ 31 ≤ n := by
  unfold signExtended toInt32
  omega

/-- The lookup reaches the member with the key after the members `ms`: no key before it is completed
to the key by what is behind it, and a `NUL` is behind the key itself. -/
def Reached (behind : ℕ → ℕ → UInt8) (ms : List (Ident × Tree)) (key : Ident) : Prop :=
  (∀ i t, ms[i]? = some t →
    ¬ ∃ r, key.chars = t.1.chars ++ r ∧ Begins (behind i) (r ++ [0])) ∧ behind ms.length 0 = 0

theorem reached_cons {behind : ℕ → ℕ → UInt8} {k key : Ident} {t : Tree}
    {ms : List (Ident × Tree)} : Reached behind ((k, t) :: ms) key ↔
      (¬ ∃ r, key.chars = k.chars ++ r ∧ Begins (behind 0) (r ++ [0])) ∧
        Reached (fun i => behind (i + 1)) ms key := by
  constructor
  · exact fun h => ⟨h.1 0 (k, t) rfl, fun i t' ht' => h.1 (i + 1) t' ht', h.2⟩
  · rintro ⟨hfirst, hrest⟩
    refine ⟨fun i t' ht' => ?_, hrest.2⟩
    cases i with
    | zero =>
      cases ht'
      exact hfirst
    | succ i => exact hrest.1 i t' ht'

section

variable {key : Ident} {w : Value} {after : List (Option (Member Value))}

theorem findLoop_reached_iff (behind : ℕ → ℕ → UInt8) : ∀ (ms : List (Ident × Tree))
    {before : List (Option (Member Value))} (i : ℕ), membersRepresented ms before →
    i + ms.length < 2 ^ 31 →
    (findLoop behind key.chars i (before ++ some ⟨key.chars, w⟩ :: after) =
        .ok (some (i + ms.length, w)) ↔ Reached (fun j => behind (i + j)) ms key)
  | [], before, i, h, _ => by
    have hbefore : before = [] := h
    have hkey := key.valid.zero_notMem
    have hcmp : strcmpMem (bytesAt key.chars (behind i)) key.chars = 0 ↔ behind i 0 = 0 := by
      rw [strcmpMem_bytesAt hkey hkey]
      simp [Begins]
    have hreached : Reached (fun j => behind (i + j)) [] key ↔ behind i 0 = 0 :=
      ⟨fun h => h.2, fun h => ⟨nofun, h⟩⟩
    rw [hbefore, hreached, ← hcmp, List.nil_append, findLoop]
    by_cases hzero : strcmpMem (bytesAt key.chars (behind i)) key.chars = 0
    · rw [if_pos hzero]
      exact iff_of_true rfl hzero
    · rw [if_neg hzero]
      refine iff_of_false (fun hfind => ?_) hzero
      split_ifs at hfind
      obtain ⟨k, _, hk, _⟩ := findLoop_member behind hfind
      rw [List.length_nil] at hk
      omega
  | (k, t) :: ms, before, i, h, hlen => by
    obtain ⟨v, before, rfl, _, hrest⟩ := h
    rw [List.length_cons] at hlen
    have hcmp := strcmpMem_bytesAt k.valid.zero_notMem key.valid.zero_notMem (behind i)
    have ih := findLoop_reached_iff behind ms (i + 1) hrest (by omega)
    have hshift : (fun j => behind (i + (j + 1))) = fun j => behind (i + 1 + j) := by
      funext j
      rw [Nat.add_assoc, Nat.add_comm 1 j]
    rw [reached_cons, hshift, Nat.add_zero, ← hcmp, List.cons_append, findLoop]
    by_cases hzero : strcmpMem (bytesAt k.chars (behind i)) key.chars = 0
    · rw [if_pos hzero]
      refine iff_of_false (fun hfind => ?_) fun hno => hno.1 hzero
      have hplace := (Prod.mk.inj (Option.some.inj (Except.ok.inj hfind))).1
      rw [List.length_cons] at hplace
      omega
    · rw [if_neg hzero, if_pos (by omega), List.length_cons, ← Nat.add_assoc,
        Nat.add_right_comm, ih, and_iff_right hzero]

end

section

variable {tag : Option Ident} {ms ms' : List (Ident × Tree)} {key : Ident} {n fuel : ℕ}
  {lit text : List UInt8}

/-- **Numbers keep their values** exactly if they are numbers of the type `int`, extended to 64 bits
with their sign.  For every text of an object with a number of up to 64 bits as a member,
`xjil_parse` returns `0`.  The lookup finds the member, and `xjil_read_u64` returns the number,
exactly if the member is reached and the number is below `2 ^ 31` or not below `2 ^ 64 - 2 ^ 31`. -/
theorem xjilReadU64_iff (htext : ObjectText tag ms key lit ms' text) (hlit : IsLiteral lit n)
    (hn : n < 2 ^ 64) (hfit : membersFit ms) (hfit' : membersFit ms')
    (hcount : ms.length + 1 + ms'.length ≤ 2 ^ 28) (hlen : text.length < 2 ^ 31)
    (hfuel : 7 * text.length ≤ fuel) (behind : ℕ → ℕ → UInt8) :
    ∃ v, (xjilParse fuel valueNew text text.length).run = some (.ok (0, v)) ∧
      ((∃ w, xjilFindObjectValue behind v key.chars = .ok (some (ms.length, w)) ∧
        ∀ dflt, xjilReadU64 behind v key.chars dflt = .ok n) ↔
          Reached behind ms key ∧ (n < 2 ^ 31 ∨ 2 ^ 64 - 2 ^ 31 ≤ n)) := by
  obtain ⟨v, hrun, htype, o, hobj, before, after, harr, hbefore, _⟩ :=
    htext.parse hlit hn hfit hfit' hcount hlen hfuel
  refine ⟨v, hrun, ?_⟩
  have hbits : v.type &&& ValueType.object.code ≠ 0 := by
    rw [htype]
    decide
  have hfind : xjilFindObjectValue behind v key.chars =
      findLoop behind key.chars 0 (before ++ some ⟨key.chars, numberValue n⟩ :: after) := by
    rw [xjilFindObjectValue, kassert_pos hbits, ok_bind, hobj, ← harr]
  have hreached : findLoop behind key.chars 0 (before ++ some ⟨key.chars, numberValue n⟩ :: after) =
      .ok (some (ms.length, numberValue n)) ↔ Reached behind ms key := by
    simpa only [Nat.zero_add] using findLoop_reached_iff behind ms 0 hbefore (by omega)
  have hread : ∀ dflt, xjilFindObjectValue behind v key.chars =
      .ok (some (ms.length, numberValue n)) →
      xjilReadU64 behind v key.chars dflt = .ok (signExtended n) := by
    intro dflt hfound
    rw [xjilReadU64, hfound, ok_bind]
    rfl
  constructor
  · rintro ⟨w, hfound, hreads⟩
    -- The member at the place of the number is the number.
    have hw : w = numberValue n := by
      obtain ⟨k, m, hk, hget, rfl⟩ := findLoop_member behind (hfind.symm.trans hfound)
      rw [Nat.zero_add] at hk
      rw [← hk, ← membersRepresented_length ms hbefore, List.getElem?_append_right le_rfl,
        Nat.sub_self] at hget
      exact congrArg Member.v (Option.some.inj (Option.some.inj hget)).symm
    rw [hw] at hfound
    refine ⟨hreached.mp (hfind.symm.trans hfound), (signExtended_eq_iff hn).mp ?_⟩
    exact Except.ok.inj ((hread 0 hfound).symm.trans (hreads 0))
  · rintro ⟨hreach, hrange⟩
    have hfound := hfind.trans (hreached.mpr hreach)
    refine ⟨numberValue n, hfound, fun dflt => ?_⟩
    rw [hread dflt hfound, (signExtended_eq_iff hn).mpr hrange]

end

theorem xjilReadU64_one : ∃ v,
    (xjilParse 35 valueNew [123, 97, 58, 49, 125] 5).run = some (.ok (0, v)) ∧
      ∀ dflt, xjilReadU64 (fun _ _ => 0) v [97] dflt = .ok 1 := by
  obtain ⟨v, hrun, hiff⟩ := xjilReadU64_iff (objectText_keyA [49]) isLiteral_one (by decide)
    trivial trivial (by decide) (by decide) (le_refl 35) (fun _ _ => 0)
  obtain ⟨_, _, hread⟩ := hiff.mpr ⟨⟨nofun, rfl⟩, Or.inl (by decide)⟩
  exact ⟨v, hrun, hread⟩

/-- The object `{a:2147483648}`, with a `NUL` behind its key: the number that is read has the upper
32 bits set. -/
theorem xjilReadU64_two_pow_31 : ∃ v,
    (xjilParse 98 valueNew
      [123, 97, 58, 50, 49, 52, 55, 52, 56, 51, 54, 52, 56, 125] 14).run = some (.ok (0, v)) ∧
      ∀ dflt, xjilReadU64 (fun _ _ => 0) v [97] dflt = .ok (2 ^ 64 - 2 ^ 31) := by
  have hlit : IsLiteral [50, 49, 52, 55, 52, 56, 51, 54, 52, 56] (2 ^ 31) :=
    .inl ⟨List.all_eq_true.mp rfl, rfl, .inr ⟨50, _, rfl, by decide⟩⟩
  obtain ⟨v, hrun, _, hfind⟩ := xjilParse_keyA hlit (by decide) (by decide)
  refine ⟨v, hrun, fun dflt => ?_⟩
  rw [xjilReadU64, hfind]
  rfl

end Ginkgo.Xjil
