import Mathlib.Data.Nat.Notation
import Mathlib.Data.List.TakeDrop
import Mathlib.Logic.Function.Basic
import Mathlib.Logic.Nontrivial.Basic
import Ginkgo.Lib.Lts
import Ginkgo.Machine

/-!
# The growable arrays

The model of `array-template.h`, which is instantiated for pointers and for characters.  A buffer is
the list of its elements; a block that has just been allocated holds anything, and so does the word
for the size of a new array.  What `realloc` copies from behind the old buffer is anything, too.
The allocation of the array itself succeeds, since a failure is asserted.

The arrays are compared with lists.  In every state in which the arrays are lists, the calls that
keep them so are those that meet a condition on the state before the call.

## Main results

* `ArrayCall.right_iff` — the condition is exact.
* `arrayRuns_refine` — the arrays are lists in every run whose calls meet the condition.
-/

namespace Ginkgo.Xjil

open Function (update update_self update_of_ne)
open Fallible (bind_eq_ok ok_bind error_bind)

/-- The instances of the template: `array_t` and `string_t`. -/
inductive Template
  | array | string
deriving DecidableEq

/-- `sizeof(E)`. -/
def Template.width : Template → ℕ
  | array => 8
  | string => 1

/-- `T`; the buffer is `none` if its pointer is `NULL`. -/
structure Growable (E : Type) where
  arr : Option (List E)
  capacity : ℕ
  size : ℕ

/-! ## The functions of the source -/

section

variable {E : Type} (t : Template)

/-- `malloc`: no block if there is no memory or if it would be empty.  `fresh` is what the block
holds. -/
def malloc (bytes : ℕ) (fresh : Option (ℕ → E)) : Option (List E) :=
  if bytes = 0 then none else fresh.map fun f => (List.range (bytes / t.width)).map f

/-- `memcpy` of the first `n` elements of a buffer to another one that is not shorter than that. -/
def overwrite (dst src : List E) (n : ℕ) : List E := src.take n ++ dst.drop (src.take n).length

/-- `realloc`; the length of `memcpy` is a 32-bit number.  From `NULL` nothing can be copied, and it
can not be freed. -/
def realloc (old : Option (List E)) (bytes : ℕ) (fresh : Option (ℕ → E)) :
    Except Fault (Option (List E)) :=
  match malloc t bytes fresh with
  | none => .ok none
  | some new =>
    match old with
    | some old => .ok (some (overwrite new old (bytes % 2 ^ 32 / t.width)))
    | none => .error (if bytes % 2 ^ 32 = 0 then .panic else .badAccess)

/-- `_array_new`; the size is not set. -/
def arrayNew (capacity garbage : ℕ) (fresh : Option (ℕ → E)) : Growable E :=
  ⟨malloc t (wrap64 (t.width * capacity)) fresh, capacity, garbage⟩

/-- `_array_resize`. -/
def arrayResize (a : Growable E) (capacity : ℕ) (fresh : Option (ℕ → E)) :
    Except Fault (Growable E) := do
  let arr ← realloc t a.arr (wrap64 (t.width * capacity)) fresh
  return ⟨arr, capacity, if capacity < a.size then capacity else a.size⟩

/-- `_array_clear`. -/
def arrayClear (a : Growable E) : Growable E := { a with size := 0 }

/-- The last statement of `_array_push`. -/
def storeElement (a : Growable E) (ele : E) : Except Fault (Growable E) :=
  match a.arr with
  | none => .error .badAccess
  | some b => do
    access (a.size < b.length)
    return ⟨some (b.set a.size ele), a.capacity, a.size + 1⟩

/-- `_array_push`. -/
def arrayPush (a : Growable E) (ele : E) (fresh : Option (ℕ → E)) : Except Fault (Growable E) := do
  let a ← if a.capacity ≤ a.size then arrayResize t a (wrap64 (a.capacity * 2)) fresh else .ok a
  storeElement a ele

/-- The `memcpy` of `_array_copy`. -/
def copyElements (dst src : Option (List E)) (n : ℕ) : Except Fault (Option (List E)) :=
  if n = 0 then .ok dst
  else match dst, src with
    | some d, some s => do
      access (n ≤ d.length ∧ n ≤ s.length)
      return some (overwrite d s n)
    | _, _ => .error .badAccess

/-- `_array_copy` of the array at `src` to the one at `dst`, which can be the same. -/
def arrayCopy (arrays : ℕ → Option (Growable E)) (dst src : ℕ) (fresh : Option (ℕ → E)) :
    Except Fault (Growable E) :=
  match arrays dst, arrays src with
  | some d, some s => do
    let d ← arrayResize t d s.size fresh
    let s := if src = dst then d else s
    let arr ← copyElements d.arr s.arr (wrap64 (t.width * s.size) % 2 ^ 32 / t.width)
    return ⟨arr, d.capacity, s.size⟩
  | _, _ => .error .panic

/-- `_array_get`. -/
def arrayGet (a : Growable E) (index : ℕ) : Except Fault E := do
  kassert (index < a.size)
  match a.arr with
  | none => .error .badAccess
  | some b =>
    match b[index]? with
    | some e => .ok e
    | none => .error .badAccess

end

/-! ## Calls -/

/-- The calls; `garbage` is what the word for the size of a new array holds. -/
inductive ArrayCall (E : Type)
  | new (id capacity garbage : ℕ)
  | push (id : ℕ) (ele : E)
  | clear (id : ℕ)
  | copy (dst src : ℕ)
  | get (id index : ℕ)

section

variable {E : Type} (t : Template)

namespace ArrayCall

/-- What a call does with the arrays, and what it returns; every function asserts that its arrays
exist. -/
def exec (arrays : ℕ → Option (Growable E)) (call : ArrayCall E) (fresh : Option (ℕ → E)) :
    Except Fault ((ℕ → Option (Growable E)) × Option E) :=
  match call with
  | new id capacity garbage =>
    .ok (update arrays id (some (arrayNew t capacity garbage fresh)), none)
  | push id ele =>
    match arrays id with
    | none => .error .panic
    | some a => do
      let a ← arrayPush t a ele fresh
      return (update arrays id (some a), none)
  | clear id =>
    match arrays id with
    | none => .error .panic
    | some a => .ok (update arrays id (some (arrayClear a)), none)
  | copy dst src => do
    let a ← arrayCopy t arrays dst src fresh
    return (update arrays dst (some a), none)
  | get id index =>
    match arrays id with
    | none => .error .panic
    | some a => do
      let e ← arrayGet a index
      return (arrays, some e)

/-- What a call does with lists; nothing, if a list or an element does not exist. -/
def spec (lists : ℕ → Option (List E)) : ArrayCall E → Option ((ℕ → Option (List E)) × Option E)
  | new id _ _ => some (update lists id (some []), none)
  | push id ele => do
    let l ← lists id
    return (update lists id (some (l ++ [ele])), none)
  | clear id => do
    let _ ← lists id
    return (update lists id (some []), none)
  | copy dst src => do
    let _ ← lists dst
    let l ← lists src
    return (update lists dst (some l), none)
  | get id index => do
    let l ← lists id
    let e ← l[index]?
    return (lists, some e)

end ArrayCall

/-- The elements that are in use. -/
def Growable.contents (a : Growable E) : List E := (a.arr.getD []).take a.size

/-- The array is the list, and its size does not exceed its capacity. -/
structure Growable.Holds (a : Growable E) (l : List E) : Prop where
  contents_eq : a.contents = l
  size_eq : a.size = l.length
  size_le : a.size ≤ a.capacity

/-- The arrays are the lists. -/
def Refines (arrays : ℕ → Option (Growable E)) (lists : ℕ → Option (List E)) : Prop :=
  ∀ id, Option.Rel Growable.Holds (arrays id) (lists id)

namespace ArrayCall

/-- The call does with the arrays what it does with the lists, and it returns the same.  If it can
not be made with the lists, then an assertion fails. -/
def Right (arrays : ℕ → Option (Growable E)) (lists : ℕ → Option (List E)) (call : ArrayCall E)
    (fresh : Option (ℕ → E)) : Prop :=
  match call.spec lists with
  | some (lists', r) => ∃ arrays', call.exec t arrays fresh = .ok (arrays', r) ∧
      Refines arrays' lists'
  | none => call.exec t arrays fresh = .error .panic

/-- The condition for a call; `memory` says whether there is memory for a block.

A new array has to find a zero in the word for its size.  An element is pushed to a buffer that has
room for it, or the array grows: it must have had room for an element, and the new buffer must have
fewer than `2 ^ 32` bytes.  An array that is not empty is copied to an array with a buffer, and has
fewer than `2 ^ 32` bytes. -/
def Safe (arrays : ℕ → Option (Growable E)) (memory : Bool) : ArrayCall E → Prop
  | new _ _ garbage => garbage = 0
  | push id _ => ∀ a, arrays id = some a →
      if a.size < a.capacity then ∃ b, a.arr = some b ∧ a.size < b.length
      else memory = true ∧ a.capacity ≠ 0 ∧ t.width * (a.capacity * 2) < 2 ^ 32
  | clear _ => True
  | copy dst src => ∀ d, arrays dst = some d → ∀ s, arrays src = some s →
      s.size = 0 ∨ (memory = true ∧ d.arr ≠ none ∧ t.width * s.size < 2 ^ 32)
  | get _ _ => True

end ArrayCall

end

/-! ## Buffers -/

namespace Template

variable (t : Template)

/-- The number of elements in a block for `n` elements. -/
def held (n : ℕ) : ℕ := wrap64 (t.width * n) / t.width

/-- The number of elements that `memcpy` copies of `n`. -/
def kept (n : ℕ) : ℕ := wrap64 (t.width * n) % 2 ^ 32 / t.width

theorem kept_le_held (n : ℕ) : t.kept n ≤ t.held n :=
  Nat.div_le_div_right (Nat.mod_le _ _)

theorem kept_le (n : ℕ) : t.kept n ≤ n := by
  cases t <;> simp only [kept, width, wrap64] <;> omega

theorem held_le (n : ℕ) : t.held n ≤ n := by
  cases t <;> simp only [held, width, wrap64] <;> omega

theorem le_kept_iff (n : ℕ) : n ≤ t.kept n ↔ t.width * n < 2 ^ 32 := by
  cases t <;> simp only [kept, width, wrap64] <;> omega

theorem le_kept_double_iff (c : ℕ) :
    c ≤ t.kept (wrap64 (c * 2)) ↔ t.width * (c * 2) < 2 ^ 32 := by
  cases t <;> simp only [kept, width, wrap64] <;> omega

theorem held_eq {n : ℕ} (h : t.width * n < 2 ^ 32) : t.held n = n :=
  le_antisymm (t.held_le n) (((t.le_kept_iff n).mpr h).trans (t.kept_le_held n))

theorem bytes_eq_zero_iff (n : ℕ) : wrap64 (t.width * n) = 0 ↔ t.held n = 0 := by
  cases t <;> simp only [held, width, wrap64] <;> omega

end Template

section

variable {E : Type} {t : Template} {b src dst : List E} {n m k : ℕ}

theorem malloc_some (n : ℕ) (f : ℕ → E) : malloc t (wrap64 (t.width * n)) (some f) =
    if t.held n = 0 then none else some ((List.range (t.held n)).map f) := by
  unfold malloc
  simp only [t.bytes_eq_zero_iff]
  rfl

theorem realloc_none (old : Option (List E)) (bytes : ℕ) : realloc t old bytes none = .ok none := by
  unfold realloc malloc
  split_ifs <;> rfl

theorem realloc_some (b : List E) (n : ℕ) (f : ℕ → E) :
    realloc t (some b) (wrap64 (t.width * n)) (some f) = .ok (if t.held n = 0 then none
      else some (overwrite ((List.range (t.held n)).map f) b (t.kept n))) := by
  rw [realloc, malloc_some]
  split_ifs <;> rfl

theorem length_overwrite (h : k ≤ dst.length) : (overwrite dst src k).length = dst.length := by
  rw [overwrite, List.length_append, List.length_drop, List.length_take]
  omega

theorem take_overwrite (hk : m ≤ k) (hm : m ≤ src.length) :
    (overwrite dst src k).take m = src.take m := by
  rw [overwrite, List.take_append_of_le_length (by rw [List.length_take]; omega), List.take_take,
    Nat.min_eq_left hk]

theorem getElem?_overwrite (hk : k ≤ src.length) : (overwrite dst src k)[k]? = dst[k]? := by
  have hlen : (src.take k).length = k := by
    rw [List.length_take]
    omega
  rw [overwrite, List.getElem?_append_right (by omega), List.getElem?_drop, hlen, Nat.sub_self,
    Nat.add_zero]

theorem take_overwrite_iff [Nontrivial E] (hm : m ≤ b.length) (hn : m ≤ n) :
    (∀ f : ℕ → E, (overwrite ((List.range n).map f) b k).take m = b.take m) ↔ m ≤ k := by
  refine ⟨fun h => ?_, fun hk f => take_overwrite hk hm⟩
  by_contra hlt
  have hkb : k < b.length := by omega
  -- A block that holds something else where nothing is copied to.
  obtain ⟨x, hx⟩ := exists_ne b[k]
  have hget := congrArg (fun l => l[k]?) (h fun _ => x)
  simp only [List.getElem?_take_of_lt (show k < m by omega)] at hget
  rw [getElem?_overwrite hkb.le, List.getElem?_map, List.getElem?_range (by omega),
    List.getElem?_eq_getElem hkb] at hget
  exact hx (Option.some.inj hget)

end

/-! ## Pushing -/

section

variable {E : Type} {t : Template} {a : Growable E} {l : List E} {ele : E}

theorem Growable.Holds.length_le (h : a.Holds l) {b : List E} (hb : a.arr = some b) :
    l.length ≤ b.length ∧ b.take l.length = l := by
  have hcontents := h.contents_eq
  rw [Growable.contents, hb, Option.getD_some, h.size_eq] at hcontents
  refine ⟨?_, hcontents⟩
  have hlen := congrArg List.length hcontents
  rw [List.length_take] at hlen
  omega

theorem Growable.Holds.eq_nil (h : a.Holds l) (ha : a.arr = none) : l = [] := by
  rw [← h.contents_eq, Growable.contents, ha, Option.getD_none, List.take_nil]

theorem take_set {b : List E} {i : ℕ} (h : i < b.length) (e : E) :
    (b.set i e).take (i + 1) = b.take i ++ [e] := by
  rw [List.take_set, List.take_succ_eq_append_getElem h, List.set_append_right _ _ (by simp)]
  simp [Nat.min_eq_left h.le]

theorem storeElement_holds_iff : (∃ a', storeElement a ele = .ok a' ∧ a'.Holds (l ++ [ele])) ↔
    a.Holds l ∧ a.size < a.capacity ∧ ∃ b, a.arr = some b ∧ a.size < b.length := by
  unfold storeElement
  cases harr : a.arr with
  | none => simp
  | some b =>
    dsimp only
    by_cases hlt : a.size < b.length
    · rw [access_pos hlt, ok_bind]
      constructor
      · rintro ⟨_, heq, hcontents, hsize, hle⟩
        cases heq
        have hcontents : (b.set a.size ele).take (a.size + 1) = l ++ [ele] := hcontents
        rw [take_set hlt] at hcontents
        have hsize : a.size + 1 = (l ++ [ele]).length := hsize
        rw [List.length_append, List.length_singleton] at hsize
        refine ⟨⟨?_, by omega, ?_⟩, hle, b, rfl, hlt⟩
        · rw [Growable.contents, harr]
          exact List.append_cancel_right hcontents
        · have hle : a.size + 1 ≤ a.capacity := hle
          omega
      · rintro ⟨h, hroom, _⟩
        refine ⟨_, rfl, ?_, ?_, hroom⟩
        · have hcontents := h.contents_eq
          rw [Growable.contents, harr] at hcontents
          rw [← hcontents]
          exact take_set hlt ele
        · show a.size + 1 = (l ++ [ele]).length
          rw [List.length_append, h.size_eq, List.length_singleton]
    · rw [access_neg hlt, error_bind]
      refine iff_of_false (fun ⟨_, heq, _⟩ => nomatch heq) ?_
      rintro ⟨_, _, _, heq, hlt'⟩
      exact hlt (Option.some.inj heq ▸ hlt')

theorem arrayResize_some {b : List E} (hb : a.arr = some b) (n : ℕ) (f : ℕ → E) :
    arrayResize t a n (some f) = .ok ⟨if t.held n = 0 then none
      else some (overwrite ((List.range (t.held n)).map f) b (t.kept n)), n,
        if n < a.size then n else a.size⟩ := by
  rw [arrayResize, hb, realloc_some]
  rfl

theorem arrayResize_none (n : ℕ) :
    arrayResize t a n none = .ok ⟨none, n, if n < a.size then n else a.size⟩ := by
  rw [arrayResize, realloc_none]
  rfl

theorem arrayResize_zero (fresh : Option (ℕ → E)) :
    arrayResize t a 0 fresh = .ok ⟨none, 0, 0⟩ := by
  have hbytes : wrap64 (t.width * 0) = 0 := wrap64_of_lt (Nat.two_pow_pos 64)
  have hsize : (if 0 < a.size then 0 else a.size) = 0 := by
    split_ifs with hpos
    · rfl
    · exact Nat.eq_zero_of_not_pos hpos
  rw [arrayResize, hbytes, hsize]
  rfl

theorem storeElement_null (n m : ℕ) : storeElement (⟨none, n, m⟩ : Growable E) ele =
    .error .badAccess := rfl

theorem grown_holds_iff [Nontrivial E] (h : a.Holds l) {b : List E} (hb : a.arr = some b)
    (hfull : a.size = a.capacity) :
    (∀ f : ℕ → E, ∃ r, arrayResize t a (wrap64 (a.capacity * 2)) (some f) = .ok r ∧
      r.Holds l ∧ r.size < r.capacity ∧ ∃ b', r.arr = some b' ∧ r.size < b'.length) ↔
      a.capacity ≠ 0 ∧ t.width * (a.capacity * 2) < 2 ^ 32 := by
  obtain ⟨hlen, htake⟩ := h.length_le hb
  have hsize := h.size_eq
  set n := wrap64 (a.capacity * 2) with hn
  have hkept := t.kept_le_held n
  constructor
  · intro hgrown
    have hfacts : ∀ f : ℕ → E, a.capacity < n ∧ l.length < t.held n ∧
        (overwrite ((List.range (t.held n)).map f) b (t.kept n)).take l.length =
          b.take l.length := by
      intro f
      obtain ⟨r, hr, hholds, hroom, b', hb', hlt⟩ := hgrown f
      rw [arrayResize_some hb] at hr
      cases hr
      have hrsize := hholds.size_eq
      dsimp only at hrsize hroom hb' hlt
      rw [hrsize] at hlt hroom
      split_ifs at hb' with hheld
      cases hb'
      obtain ⟨_, htake'⟩ := hholds.length_le (if_neg hheld)
      rw [length_overwrite (by simpa using hkept), List.length_map, List.length_range] at hlt
      exact ⟨by omega, hlt, htake'.trans htake.symm⟩
    obtain ⟨x, _⟩ := exists_pair_ne E
    obtain ⟨hlt, hheld, _⟩ := hfacts fun _ => x
    have hcopied := (take_overwrite_iff hlen hheld.le).mp fun f => (hfacts f).2.2
    refine ⟨fun hzero => ?_, (t.le_kept_double_iff _).mp (by rw [← hn]; omega)⟩
    rw [hn, hzero, wrap64] at hlt
    omega
  · rintro ⟨hne, hbytes⟩ f
    have hdouble : n = a.capacity * 2 := by
      rw [hn]
      refine wrap64_of_lt ?_
      cases t <;> simp only [Template.width] at hbytes <;> omega
    have hheld : t.held n = n := t.held_eq (by rw [hdouble]; exact hbytes)
    have hcopied : n ≤ t.kept n := (t.le_kept_iff n).mpr (by rw [hdouble]; exact hbytes)
    rw [arrayResize_some hb, if_neg (by omega), if_neg (by omega)]
    refine ⟨_, rfl, ⟨?_, hsize, ?_⟩, ?_, _, rfl, ?_⟩
    · rw [Growable.contents, Option.getD_some, hsize, take_overwrite (by omega) hlen, htake]
    · show a.size ≤ n
      omega
    · show a.size < n
      omega
    · rw [length_overwrite (by simpa using hkept), List.length_map, List.length_range]
      show a.size < t.held n
      omega

theorem arrayPush_holds_iff [Nontrivial E] (h : a.Holds l) (memory : Bool) :
    (∀ f : ℕ → E, ∃ a', arrayPush t a ele (if memory then some f else none) = .ok a' ∧
      a'.Holds (l ++ [ele])) ↔
      if a.size < a.capacity then ∃ b, a.arr = some b ∧ a.size < b.length
      else memory = true ∧ a.capacity ≠ 0 ∧ t.width * (a.capacity * 2) < 2 ^ 32 := by
  obtain ⟨x, _⟩ := exists_pair_ne E
  by_cases hroom : a.size < a.capacity
  · have hpush : ∀ fresh, arrayPush t a ele fresh = storeElement a ele := by
      intro fresh
      rw [arrayPush, if_neg (by omega)]
      rfl
    simp only [hpush, forall_const, if_pos hroom]
    rw [storeElement_holds_iff]
    exact ⟨fun hstore => hstore.2.2, fun hb => ⟨h, hroom, hb⟩⟩
  · have hfull : a.size = a.capacity := le_antisymm h.size_le (not_lt.mp hroom)
    have hpush : ∀ fresh, arrayPush t a ele fresh =
        arrayResize t a (wrap64 (a.capacity * 2)) fresh >>= fun r => storeElement r ele := by
      intro fresh
      rw [arrayPush, if_pos (by omega)]
    rw [if_neg hroom]
    cases memory with
    | false =>
      refine iff_of_false (fun hright => ?_) fun hno => nomatch hno.1
      obtain ⟨_, heq, _⟩ := hright fun _ => x
      rw [if_neg (by decide), hpush, arrayResize_none, ok_bind, storeElement_null] at heq
      cases heq
    | true =>
      simp only [if_true, true_and, hpush]
      cases harr : a.arr with
      | none =>
        -- Without a buffer the capacity is zero, and no block is allocated.
        have hzero : a.capacity = 0 := by
          rw [← hfull, h.size_eq, h.eq_nil harr]
          rfl
        refine iff_of_false (fun hright => ?_) fun hno => hno.1 hzero
        obtain ⟨_, heq, _⟩ := hright fun _ => x
        have hdouble : wrap64 (a.capacity * 2) = 0 := by
          rw [hzero]
          exact wrap64_of_lt (Nat.two_pow_pos 64)
        rw [hdouble, arrayResize_zero, ok_bind, storeElement_null] at heq
        cases heq
      | some b =>
        rw [← grown_holds_iff h harr hfull]
        refine forall_congr' fun f => ?_
        rw [arrayResize_some harr, ok_bind, storeElement_holds_iff]
        simp only [Except.ok.injEq, exists_eq_left']

end

/-! ## Copying -/

section

variable {E : Type} {t : Template} {d s : Growable E} {l : List E} {dst src : ℕ}
  {arrays : ℕ → Option (Growable E)}

theorem overwrite_zero (b b' : List E) : overwrite b b' 0 = b := by
  rw [overwrite, List.take_zero, List.length_nil, List.drop_zero, List.nil_append]

theorem overwrite_self (b : List E) (k : ℕ) : overwrite b b k = b := by
  rw [overwrite, List.length_take]
  rcases Nat.le_total k b.length with h | h
  · rw [Nat.min_eq_left h, List.take_append_drop]
  · rw [Nat.min_eq_right h, List.take_of_length_le h, List.drop_length, List.append_nil]

theorem overwrite_overwrite (b b' : List E) {b'' : List E} {k : ℕ} (hk : k ≤ b''.length) :
    overwrite (overwrite b b' k) b'' k = overwrite b b'' k := by
  have hlen : (b''.take k).length = k := by
    rw [List.length_take]
    omega
  have hlen' : (b'.take k).length ≤ k := by
    rw [List.length_take]
    omega
  rw [overwrite, overwrite, overwrite, hlen, List.drop_append, List.drop_drop,
    List.drop_eq_nil_of_le hlen', List.nil_append, Nat.add_sub_cancel' hlen']

theorem copyElements_some {b b' : List E} {k : ℕ} (hk : k ≤ b.length) (hk' : k ≤ b'.length) :
    copyElements (some b) (some b') k = .ok (some (overwrite b b' k)) := by
  unfold copyElements
  split_ifs with hzero
  · rw [hzero, overwrite_zero]
  · dsimp only
    rw [access_pos ⟨hk, hk'⟩]
    rfl

theorem copyElements_resized {new old b : List E} {n : ℕ} (arr : Option (List E))
    (hnew : t.kept n ≤ new.length)
    (harr : t.held n ≠ 0 → ∃ b₁, arr = some b₁ ∧ t.kept n ≤ b₁.length ∧
      overwrite (overwrite new old (t.kept n)) b₁ (t.kept n) = overwrite new b (t.kept n)) :
    copyElements (if t.held n = 0 then none else some (overwrite new old (t.kept n))) arr
      (t.kept n) = .ok (if t.held n = 0 then none else some (overwrite new b (t.kept n))) := by
  by_cases hheld : t.held n = 0
  · have hzero : t.kept n = 0 := by
      have hle := t.kept_le_held n
      omega
    rw [if_pos hheld, if_pos hheld, hzero]
    rfl
  · obtain ⟨b₁, rfl, hlen, heq⟩ := harr hheld
    have hlen' : t.kept n ≤ (overwrite new old (t.kept n)).length := by
      rw [length_overwrite hnew]
      exact hnew
    rw [if_neg hheld, if_neg hheld, copyElements_some hlen' hlen, heq]

theorem arrayCopy_some (hd : arrays dst = some d) (hs : arrays src = some s) (h : s.Holds l)
    {b b' : List E} (hb : d.arr = some b) (hb' : s.arr = some b') (f : ℕ → E) :
    arrayCopy t arrays dst src (some f) = .ok ⟨if t.held s.size = 0 then none
      else some (overwrite ((List.range (t.held s.size)).map f) b' (t.kept s.size)), s.size,
        s.size⟩ := by
  have hnew : t.kept s.size ≤ ((List.range (t.held s.size)).map f).length := by
    rw [List.length_map, List.length_range]
    exact t.kept_le_held s.size
  have hlen : t.kept s.size ≤ b'.length := by
    have hle := (h.length_le hb').1
    have hsize := h.size_eq
    have hkept := t.kept_le s.size
    omega
  rw [arrayCopy, hd, hs]
  dsimp only
  rw [arrayResize_some hb, ok_bind]
  by_cases hsame : src = dst
  · -- The array has been given its new buffer before the elements are copied.
    subst hsame
    obtain rfl := Option.some.inj (hd.symm.trans hs)
    obtain rfl := Option.some.inj (hb.symm.trans hb')
    rw [if_pos rfl]
    dsimp only
    rw [if_neg (lt_irrefl d.size)]
    change copyElements _ _ (t.kept d.size) >>= _ = _
    rw [copyElements_resized (b := b) _ hnew]
    · rfl
    · intro hheld
      refine ⟨_, if_neg hheld, ?_, overwrite_self _ _⟩
      rw [length_overwrite hnew]
      exact hnew
  · rw [if_neg hsame]
    change copyElements _ _ (t.kept s.size) >>= _ = _
    rw [copyElements_resized (b := b') _ hnew]
    · rfl
    · exact fun _ => ⟨b', hb', hlen, overwrite_overwrite _ _ hlen⟩

theorem arrayResize_null {a r : Growable E} {n : ℕ} {fresh : Option (ℕ → E)}
    (hnull : fresh = none ∨ a.arr = none) (heq : arrayResize t a n fresh = .ok r) :
    r.arr = none := by
  obtain ⟨arr, hrealloc, hr⟩ := bind_eq_ok.mp heq
  cases hr
  show arr = none
  unfold realloc at hrealloc
  cases hmalloc : malloc t (wrap64 (t.width * n)) fresh with
  | none =>
    rw [hmalloc] at hrealloc
    exact (Except.ok.inj hrealloc).symm
  | some new =>
    rcases hnull with rfl | harr
    · rw [malloc, Option.map_none, ite_self] at hmalloc
      cases hmalloc
    · rw [hmalloc, harr] at hrealloc
      cases hrealloc

theorem copyElements_null {b arr : Option (List E)} {n : ℕ}
    (heq : copyElements none b n = .ok arr) : arr = none := by
  unfold copyElements at heq
  by_cases hn : n = 0
  · rw [if_pos hn] at heq
    exact (Except.ok.inj heq).symm
  · rw [if_neg hn] at heq
    cases heq

section

variable (hd : arrays dst = some d) (hs : arrays src = some s)

include hd hs

theorem arrayCopy_null {a : Growable E} {fresh : Option (ℕ → E)}
    (hnull : fresh = none ∨ d.arr = none) (heq : arrayCopy t arrays dst src fresh = .ok a) :
    a.arr = none := by
  rw [arrayCopy, hd, hs] at heq
  obtain ⟨r, hr, heq⟩ := bind_eq_ok.mp heq
  obtain ⟨arr, harr, ha⟩ := bind_eq_ok.mp heq
  cases ha
  rw [arrayResize_null hnull hr] at harr
  exact copyElements_null harr

theorem arrayCopy_empty (hzero : s.size = 0) (fresh : Option (ℕ → E)) :
    arrayCopy t arrays dst src fresh = .ok ⟨none, 0, 0⟩ := by
  rw [arrayCopy, hd, hs]
  dsimp only
  rw [hzero, arrayResize_zero, ok_bind]
  have hsize : (if src = dst then (⟨none, 0, 0⟩ : Growable E) else s).size = 0 := by
    split_ifs
    · rfl
    · exact hzero
  have hbytes : wrap64 (t.width * 0) % 2 ^ 32 / t.width = 0 := Nat.eq_zero_of_le_zero (t.kept_le 0)
  rw [hsize, hbytes]
  rfl

theorem arrayCopy_holds_iff [Nontrivial E] (h : s.Holds l) (memory : Bool) :
    (∀ f : ℕ → E, ∃ a, arrayCopy t arrays dst src (if memory then some f else none) = .ok a ∧
      a.Holds l) ↔ s.size = 0 ∨ (memory = true ∧ d.arr ≠ none ∧ t.width * s.size < 2 ^ 32) := by
  obtain ⟨x, _⟩ := exists_pair_ne E
  have hsize := h.size_eq
  by_cases hzero : s.size = 0
  · have hnil : l = [] := List.eq_nil_of_length_eq_zero (hsize.symm.trans hzero)
    refine iff_of_true (fun f => ⟨_, arrayCopy_empty hd hs hzero _, ?_⟩) (.inl hzero)
    rw [hnil]
    exact ⟨rfl, rfl, le_rfl⟩
  have hne : l ≠ [] := by
    rintro rfl
    exact hzero hsize
  simp only [hzero, false_or]
  by_cases hbuf : memory = true ∧ d.arr ≠ none
  · obtain ⟨rfl, hdarr⟩ := hbuf
    obtain ⟨b, hb⟩ := Option.ne_none_iff_exists'.mp hdarr
    obtain ⟨b', hb'⟩ := Option.ne_none_iff_exists'.mp fun hnone => hne (h.eq_nil hnone)
    obtain ⟨hlen, htake⟩ := h.length_le hb'
    have hkept := t.kept_le_held s.size
    simp only [if_true, true_and, arrayCopy_some hd hs h hb hb', Except.ok.injEq, exists_eq_left']
    constructor
    · intro hright
      refine ⟨hdarr, (t.le_kept_iff _).mp ?_⟩
      have hheld : t.held s.size ≠ 0 := by
        intro hheld
        exact hne ((hright fun _ => x).eq_nil (if_pos hheld))
      have hfacts : ∀ f : ℕ → E, l.length ≤ t.held s.size ∧
          (overwrite ((List.range (t.held s.size)).map f) b' (t.kept s.size)).take l.length =
            b'.take l.length := by
        intro f
        obtain ⟨hle, htake'⟩ := (hright f).length_le (if_neg hheld)
        rw [length_overwrite (by simpa using hkept), List.length_map, List.length_range] at hle
        exact ⟨hle, htake'.trans htake.symm⟩
      rw [hsize] at hfacts ⊢
      exact (take_overwrite_iff hlen (hfacts fun _ => x).1).mp fun f => (hfacts f).2
    · rintro ⟨_, hbytes⟩ f
      have hheld := t.held_eq hbytes
      have hcopied := (t.le_kept_iff _).mpr hbytes
      rw [if_neg (by omega)]
      refine ⟨?_, hsize, le_rfl⟩
      rw [Growable.contents, Option.getD_some, take_overwrite hcopied (by omega), hsize, htake]
  · refine iff_of_false (fun hright => ?_) fun hsafe => hbuf ⟨hsafe.1, hsafe.2.1⟩
    obtain ⟨a, heq, ha⟩ := hright fun _ => x
    refine hne (ha.eq_nil (arrayCopy_null hd hs ?_ heq))
    by_contra hboth
    rw [not_or] at hboth
    refine hbuf ⟨?_, hboth.2⟩
    by_contra hmemory
    exact hboth.1 (if_neg hmemory)

end

end

/-! ## Calls that are right -/

section

variable {E : Type} {t : Template} {arrays : ℕ → Option (Growable E)} {lists : ℕ → Option (List E)}
  {id : ℕ} {a : Growable E} {l : List E}

section

variable (h : Refines arrays lists)

include h

theorem Refines.of_none (hl : lists id = none) : arrays id = none := by
  have hid := h id
  rw [hl] at hid
  cases harr : arrays id with
  | none => rfl
  | some a =>
    rw [harr] at hid
    cases hid

theorem Refines.of_some (hl : lists id = some l) :
    ∃ a, arrays id = some a ∧ a.Holds l := by
  have hid := h id
  rw [hl] at hid
  cases harr : arrays id with
  | none =>
    rw [harr] at hid
    cases hid
  | some a =>
    rw [harr] at hid
    cases hid with
    | some hholds => exact ⟨a, rfl, hholds⟩

theorem Refines.update_iff :
    Refines (update arrays id (some a)) (update lists id (some l)) ↔
      a.Holds l := by
  constructor
  · intro hupdate
    have hid := hupdate id
    rw [update_self, update_self] at hid
    cases hid with
    | some hholds => exact hholds
  · intro hholds i
    by_cases hi : i = id
    · rw [hi, update_self, update_self]
      exact .some hholds
    · rw [update_of_ne hi, update_of_ne hi]
      exact h i

theorem Refines.update_bind_iff (m : Except Fault (Growable E)) :
    (∃ arrays', (do
        let a ← m
        return (update arrays id (some a), (none : Option E))) = .ok (arrays', none) ∧
      Refines arrays' (update lists id (some l))) ↔ ∃ a, m = .ok a ∧ a.Holds l := by
  cases m with
  | error e => exact iff_of_false (fun ⟨_, heq, _⟩ => nomatch heq) fun ⟨_, heq, _⟩ => nomatch heq
  | ok a =>
    rw [ok_bind]
    constructor
    · rintro ⟨_, heq, hrefines⟩
      cases heq
      exact ⟨a, rfl, h.update_iff.mp hrefines⟩
    · rintro ⟨_, heq, hholds⟩
      cases heq
      exact ⟨_, rfl, h.update_iff.mpr hholds⟩

end

theorem arrayNew_holds_iff (capacity garbage : ℕ) (fresh : Option (ℕ → E)) :
    (arrayNew t capacity garbage fresh).Holds [] ↔ garbage = 0 := by
  refine ⟨fun h => h.size_eq, ?_⟩
  rintro rfl
  exact ⟨List.take_zero, rfl, Nat.zero_le _⟩

theorem Growable.Holds.clear (a : Growable E) : (arrayClear a).Holds [] :=
  ⟨List.take_zero, rfl, Nat.zero_le _⟩

theorem Growable.Holds.get (h : a.Holds l) (index : ℕ) :
    arrayGet a index = l[index]?.elim (.error .panic) .ok := by
  unfold arrayGet
  by_cases hlt : index < a.size
  · have hlen : index < l.length := h.size_eq ▸ hlt
    rw [kassert_pos hlt, ok_bind, List.getElem?_eq_getElem hlen]
    cases harr : a.arr with
    | none =>
      rw [h.eq_nil harr] at hlen
      cases hlen
    | some b =>
      obtain ⟨_, htake⟩ := h.length_le harr
      have hget : b[index]? = l[index]? := by
        rw [← List.getElem?_take_of_lt hlen, htake]
      dsimp only
      rw [hget, List.getElem?_eq_getElem hlen]
      rfl
  · have hlen : l.length ≤ index := by
      have hsize := h.size_eq
      omega
    rw [kassert_neg hlt, error_bind, List.getElem?_eq_none hlen]
    rfl

/-- **The condition is exact**: if the arrays are lists, then a call does with the arrays what it
does with the lists, whatever a new block holds, exactly if it meets the condition. -/
theorem ArrayCall.right_iff [Nontrivial E] (h : Refines arrays lists) (call : ArrayCall E)
    (memory : Bool) :
    (∀ f : ℕ → E, call.Right t arrays lists (if memory then some f else none)) ↔
      call.Safe t arrays memory := by
  cases call with
  | new id capacity garbage =>
    simp only [Right, spec, exec, Except.ok.injEq, Prod.mk.injEq, and_true, exists_eq_left',
      h.update_iff, arrayNew_holds_iff, forall_const, Safe]
  | push id ele =>
    cases hl : lists id with
    | none => simp [Right, spec, exec, Safe, hl, h.of_none hl]
    | some l =>
      obtain ⟨a, ha, hholds⟩ := h.of_some hl
      simp only [Right, spec, exec, Safe, hl, ha, Option.bind_eq_bind, Option.bind_some,
        Option.pure_def, Option.some.injEq, forall_eq']
      rw [← arrayPush_holds_iff hholds memory]
      exact forall_congr' fun f => h.update_bind_iff _
  | clear id =>
    cases hl : lists id with
    | none => simp [Right, spec, exec, Safe, hl, h.of_none hl]
    | some l =>
      obtain ⟨a, ha, _⟩ := h.of_some hl
      simp [Right, spec, exec, Safe, hl, ha, h.update_iff, Growable.Holds.clear]
  | copy dst src =>
    cases hld : lists dst with
    | none => simp [Right, spec, exec, Safe, hld, h.of_none hld, arrayCopy]
    | some ld =>
      obtain ⟨d, hd, _⟩ := h.of_some hld
      cases hls : lists src with
      | none => simp [Right, spec, exec, Safe, hld, hls, hd, h.of_none hls, arrayCopy]
      | some l =>
        obtain ⟨s, hs, hholds⟩ := h.of_some hls
        simp only [Right, spec, exec, Safe, hld, hls, hd, hs, Option.bind_eq_bind,
          Option.bind_some, Option.pure_def, Option.some.injEq, forall_eq']
        rw [← arrayCopy_holds_iff hd hs hholds memory]
        exact forall_congr' fun f => h.update_bind_iff _
  | get id index =>
    refine iff_of_true (fun f => ?_) trivial
    cases hl : lists id with
    | none => simp [Right, spec, exec, hl, h.of_none hl]
    | some l =>
      obtain ⟨a, ha, hholds⟩ := h.of_some hl
      cases hget : l[index]? with
      | none => simp [Right, spec, exec, hl, ha, hget, hholds.get]
      | some e => simp [Right, spec, exec, hl, ha, hget, hholds.get, h]

end

/-! ## Runs -/

section

variable (E : Type) (t : Template)

/-- The arrays of a run, and the lists that the same calls make. -/
structure ArrayState where
  arrays : ℕ → Option (Growable E)
  lists : ℕ → Option (List E)

/-- The runs of calls; what a new block holds is part of the label, and without it there is no
memory. -/
def arrayRuns : Lts.System (ArrayState E) (ArrayCall E × Option (ℕ → E)) Fault where
  init st := st = ⟨fun _ => none, fun _ => none⟩
  step st call := do
    let (arrays, _) ← call.1.exec t st.arrays call.2
    return ⟨arrays, ((call.1.spec st.lists).map Prod.fst).getD st.lists⟩

variable {E}

/-- The condition for a call of a run. -/
def ArrayState.Safe (st : ArrayState E) (call : ArrayCall E × Option (ℕ → E)) : Prop :=
  call.1.Safe t st.arrays call.2.isSome

instance (arrays : ℕ → Option (Growable E)) (memory : Bool) :
    ∀ call : ArrayCall E, Decidable (call.Safe t arrays memory)
  | .new _ _ garbage => inferInstanceAs (Decidable (garbage = 0))
  | .push id _ => inferInstanceAs (Decidable (∀ a ∈ arrays id,
      if a.size < a.capacity then ∃ b ∈ a.arr, a.size < b.length
      else memory = true ∧ a.capacity ≠ 0 ∧ t.width * (a.capacity * 2) < 2 ^ 32))
  | .clear _ => inferInstanceAs (Decidable True)
  | .copy dst src => inferInstanceAs (Decidable (∀ d ∈ arrays dst, ∀ s ∈ arrays src,
      s.size = 0 ∨ (memory = true ∧ d.arr ≠ none ∧ t.width * s.size < 2 ^ 32)))
  | .get _ _ => inferInstanceAs (Decidable True)

instance (st : ArrayState E) (call : ArrayCall E × Option (ℕ → E)) : Decidable (st.Safe t call) :=
  inferInstanceAs (Decidable (call.1.Safe t st.arrays call.2.isSome))

variable {t}

theorem Refines.step [Nontrivial E] {st st' : ArrayState E} {call : ArrayCall E × Option (ℕ → E)}
    (h : Refines st.arrays st.lists) (hsafe : st.Safe t call)
    (hstep : (arrayRuns E t).step st call = .ok st') : Refines st'.arrays st'.lists := by
  obtain ⟨call, fresh⟩ := call
  have hright : call.Right t st.arrays st.lists fresh := by
    obtain ⟨x, _⟩ := exists_pair_ne E
    cases fresh with
    | none => exact (ArrayCall.right_iff h call false).mpr hsafe fun _ => x
    | some f => exact (ArrayCall.right_iff h call true).mpr hsafe f
  obtain ⟨⟨arrays, r⟩, hexec, hst⟩ := bind_eq_ok.mp hstep
  cases hst
  unfold ArrayCall.Right at hright
  have hexec : call.exec t st.arrays fresh = .ok (arrays, r) := hexec
  cases hspec : call.spec st.lists with
  | none =>
    rw [hspec] at hright
    cases hexec.symm.trans hright
  | some result =>
    obtain ⟨lists, r'⟩ := result
    rw [hspec] at hright
    obtain ⟨arrays', hexec', hrefines⟩ := hright
    obtain ⟨rfl, _⟩ := Prod.mk.inj (Except.ok.inj (hexec.symm.trans hexec'))
    exact hrefines

/-- **The arrays behave as lists** in every run whose calls meet the condition, and the next call
does what it does with lists, whatever a new block holds, exactly if it meets the condition. -/
theorem arrayRuns_refine [Nontrivial E] (st : ArrayState E)
    (hr : (arrayRuns E t).ReachableVia (ArrayState.Safe t) st) :
    Refines st.arrays st.lists ∧ ∀ (call : ArrayCall E) (memory : Bool),
      (∀ f : ℕ → E, call.Right t st.arrays st.lists (if memory then some f else none)) ↔
        call.Safe t st.arrays memory := by
  have h : Refines st.arrays st.lists := by
    apply hr.invariant (I := fun st => Refines st.arrays st.lists)
    · rintro st rfl id
      exact .none
    · exact fun st call st' h hsafe hstep => h.step hsafe hstep
  exact ⟨h, fun call memory => ArrayCall.right_iff h call memory⟩

/-- The theorem applies to a run in which an array grows and is copied. -/
theorem arrayRuns_refine_copy :
    ∃ st, (arrayRuns UInt8 .string).ReachableVia (ArrayState.Safe .string) st ∧
      st.lists 1 = some [5, 6] ∧ Refines st.arrays st.lists := by
  obtain ⟨st, hr, hst⟩ := Lts.System.exists_reachableVia (M := arrayRuns UInt8 .string)
    (ArrayState.Safe .string) (P := fun st => st.lists 1 = some [5, 6])
    [(.new 0 1 0, some fun _ => 9), (.push 0 5, none), (.push 0 6, some fun _ => 9),
      (.new 1 1 0, some fun _ => 9), (.copy 1 0, some fun _ => 9), (.get 1 1, none)] rfl
    (by decide +kernel)
  have : Nontrivial UInt8 := ⟨0, 1, by decide⟩
  exact ⟨st, hr, hst, (arrayRuns_refine st hr).1⟩

/-- An element is pushed to a new array of the capacity zero, which has no buffer; and a new array
whose word for the size is not zero is not empty. -/
theorem arrayRuns_faulty :
    (∃ st, (arrayRuns UInt8 .string).Reachable st ∧ st.lists 0 = some [] ∧
      (ArrayCall.push 0 5).exec .string st.arrays (some fun _ => 0) = .error .badAccess) ∧
    ∃ st, (arrayRuns UInt8 .string).Reachable st ∧ st.lists 0 = some [] ∧
      (st.arrays 0).map Growable.contents = some [9] := by
  refine ⟨⟨_, .step (.new 0 0 0, some fun _ => 0) (.init rfl) trivial rfl, rfl, ?_⟩,
    _, .step (.new 0 1 1, some fun _ => 9) (.init rfl) trivial rfl, rfl, ?_⟩
  · with_unfolding_all rfl
  · with_unfolding_all rfl

end

end Ginkgo.Xjil
