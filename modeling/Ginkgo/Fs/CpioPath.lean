import Ginkgo.Fs.Vfs
import Ginkgo.Libc.Raw

/-!
# Paths of archives

The model of `check_path` and `get_next_token`, which compare the path of an entry with the path of
a directory.  The path of an entry is what a buffer holds, and need not be a string; `checkPath` is
what `check_path` returns for a string.

## Main results

* `checkPath_iff`, `checkPath_iff_join` — which paths a directory and a name
  stand for.
* `checkPathRaw_decides`, `nextToken_decides` — what the functions return, and
  how far they read.
-/

namespace Ginkgo.Fs

open Libc Terminated

/-! ## Strings -/

/-- A path without one leading `/`. -/
def stripSlash (s : List UInt8) : List UInt8 := if s.headD 0 = 47 then s.tail else s

/-- `check_path`; `pre` is the path of the directory. -/
def checkPath (path pre name : List UInt8) : Bool :=
  let path := stripSlash path
  let pre := stripSlash pre
  let l := pre.length
  if l ≠ 0 ∧ strncmp path pre l ≠ 0 then false
  else
    let path := stripSlash (path.drop l)
    if strcmp path name ≠ 0 then false else true

theorem stripSlash_cons (c : UInt8) (s : List UInt8) :
    stripSlash (c :: s) = if c = 47 then s else c :: s := rfl

theorem stripSlash_length_le (s : List UInt8) : (stripSlash s).length ≤ s.length := by
  unfold stripSlash
  split_ifs
  · rw [List.length_tail]
    omega
  · exact le_rfl

theorem zero_notMem_stripSlash {s : List UInt8} (h : 0 ∉ s) : 0 ∉ stripSlash s := by
  unfold stripSlash
  split_ifs
  · exact fun hmem => h (List.mem_of_mem_tail hmem)
  · exact h

variable {path pre name : List UInt8}

/-- **The paths of a name in a directory**: the path of the directory, at most one `/`, and the
name. -/
theorem checkPath_iff (hpath : 0 ∉ path) (hpre : 0 ∉ pre) (hname : 0 ∉ name) :
    checkPath path pre name = true ↔
      ∃ rest, stripSlash path = stripSlash pre ++ rest ∧ stripSlash rest = name := by
  have hbegin : ¬ ((stripSlash pre).length ≠ 0 ∧
      strncmp (stripSlash path) (stripSlash pre) (stripSlash pre).length ≠ 0) ↔
      stripSlash pre <+: stripSlash path := by
    rw [not_and_not_right, strncmp_eq_zero (zero_notMem_stripSlash hpre)]
    constructor
    · intro h
      by_cases hl : (stripSlash pre).length = 0
      · rw [List.length_eq_zero_iff.mp hl]
        exact List.nil_prefix
      · exact h hl
    · intro h _
      exact h
  unfold checkPath
  by_cases h : stripSlash pre <+: stripSlash path
  · obtain ⟨rest, hrest⟩ := h
    have hdrop : (stripSlash path).drop (stripSlash pre).length = rest := by
      rw [← hrest, List.drop_left]
    simp only [hdrop]
    rw [if_neg (hbegin.mpr ⟨rest, hrest⟩)]
    have hrest0 : 0 ∉ rest := fun h =>
      zero_notMem_stripSlash hpath (hrest ▸ List.mem_append_right _ h)
    have hcmp := strcmp_eq_zero (zero_notMem_stripSlash hrest0) hname
    simp only [ne_eq, hcmp, ite_not]
    constructor
    · intro heq
      exact ⟨rest, hrest.symm, by simpa using heq⟩
    · intro hex
      obtain ⟨rest', heq, hstrip⟩ := hex
      rw [← hrest] at heq
      rw [List.append_cancel_left heq, if_pos hstrip]
  · simp only
    rw [if_pos (not_not.mp fun hn => h (hbegin.mp hn))]
    constructor
    · exact fun hfalse => absurd hfalse (by simp)
    · intro hex
      obtain ⟨rest, heq, _⟩ := hex
      exact absurd ⟨rest, heq.symm⟩ h

/-- The path of a name in a directory. -/
def joinPath (vPath name : List UInt8) : List UInt8 :=
  if vPath = [47] then name else stripSlash vPath ++ 47 :: name

/-- The other path that `check_path` accepts: the `/` is missing, or there is one too many. -/
def gluedPath (vPath name : List UInt8) : List UInt8 :=
  if vPath = [47] then 47 :: name else stripSlash vPath ++ name

theorem joinPath_ne_gluedPath (vPath name : List UInt8) :
    joinPath vPath name ≠ gluedPath vPath name := by
  unfold joinPath gluedPath
  intro heq
  have hlen := congrArg List.length heq
  split_ifs at hlen <;> simp at hlen

theorem stripSlash_eq_iff {s : List UInt8} (hname : 47 ∉ name) :
    stripSlash s = name ↔ s = name ∨ s = 47 :: name := by
  cases s with
  | nil =>
    show [] = name ↔ _
    simp
  | cons c s =>
    rw [stripSlash_cons]
    split_ifs with hslash
    · subst hslash
      have hne : 47 :: s ≠ name := by
        rintro rfl
        exact hname List.mem_cons_self
      rw [or_iff_right hne, List.cons.injEq, and_iff_right rfl]
    · simp [hslash]

/-- **The two paths of a name** that has no `/`. -/
theorem checkPath_iff_join {vPath : List UInt8} (hpath : 0 ∉ path) (hvPath : 0 ∉ vPath)
    (hname : 0 ∉ name) (hslash : 47 ∉ name) :
    checkPath path vPath name = true ↔
      stripSlash path = joinPath vPath name ∨ stripSlash path = gluedPath vPath name := by
  have hsplit : checkPath path vPath name = true ↔ stripSlash path = stripSlash vPath ++ name ∨
      stripSlash path = stripSlash vPath ++ 47 :: name := by
    rw [checkPath_iff hpath hvPath hname]
    constructor
    · rintro ⟨rest, heq, hrest⟩
      rcases (stripSlash_eq_iff hslash).mp hrest with rfl | rfl
      · exact .inl heq
      · exact .inr heq
    · rintro (heq | heq)
      · exact ⟨_, heq, (stripSlash_eq_iff hslash).mpr (.inl rfl)⟩
      · exact ⟨_, heq, (stripSlash_eq_iff hslash).mpr (.inr rfl)⟩
  rw [hsplit, joinPath, gluedPath]
  by_cases hroot : vPath = [47]
  · rw [if_pos hroot, if_pos hroot, hroot]
    rfl
  · rw [if_neg hroot, if_neg hroot, or_comm]

/-! ## Buffers -/

/-- `if (*p == '/') p++`. -/
def skipSlash (p : List UInt8) : Except Fault (List UInt8) := do
  if (← Raw.first p) = 47 then return p.tail
  return p

/-- `check_path` for the bytes of a buffer. -/
def checkPathRaw (path pre name : List UInt8) : Except Fault Bool := do
  let path ← skipSlash path
  let pre := stripSlash pre
  let l := pre.length
  let r ← (if l ≠ 0 then Raw.strncmp path pre l else .ok 0)
  if r ≠ 0 then return false
  let path ← skipSlash (path.drop l)
  (Raw.strcmp path name).map fun r => decide (r = 0)

/-- The last part of `get_next_token`: the token at `p`, unless a `/` in front of something else
follows it. -/
def lastToken (p : List UInt8) : Except Fault (Option (List UInt8)) := do
  match ← Raw.strchr 47 p with
  | some q =>
    if (← Raw.first (p.drop (q + 1))) ≠ 0 then return none
    return some (p.take q)
  | none =>
    let l ← Raw.strlen p
    return some (p.take l)

/-- What `get_next_token` reads. -/
def nextToken (path pre : List UInt8) : Except Fault (Option (List UInt8)) := do
  let path ← skipSlash path
  let pre := stripSlash pre
  let l := pre.length
  if (← Raw.strncmp path pre l) ≠ 0 then return none
  let p := path.drop l
  if (← Raw.first p) = 0 then return none
  let p ← skipSlash p
  if (← Raw.first p) = 0 then return none
  lastToken p

/-- `get_next_token`, for a result that has room for `VFS_MAX_NAME` bytes. -/
def getNextToken (path pre : List UInt8) : Except Fault (Option (List UInt8)) := do
  match ← nextToken path pre with
  | none => return none
  | some token =>
    access (token.length < vfsMaxName)
    return some token

/-! ## What the functions decide -/

/-- A string without a `/` at its end; none if there is a `/` elsewhere. -/
def withoutSlash (s : List UInt8) : Option (List UInt8) :=
  if s.dropWhile (· ≠ 47) = [] ∨ s.dropWhile (· ≠ 47) = [47] then some (s.takeWhile (· ≠ 47))
  else none

/-- The name under which a directory lists a path. -/
def listedAs (pre path : List UInt8) : Option (List UInt8) :=
  if stripSlash pre <+: stripSlash path then
    let rest := (stripSlash path).drop (stripSlash pre).length
    if rest = [] then none
    else if stripSlash rest = [] then none
    else withoutSlash (stripSlash rest)
  else none

section

variable {β : Type} {no : β} {f : List UInt8 → Except Fault β} {L : List UInt8 → β}

theorem skipSlash_cons (c : UInt8) (m : List UInt8) :
    skipSlash (c :: m) = .ok (if c = 47 then m else c :: m) := by
  rw [skipSlash, Raw.first, Fallible.ok_bind]
  split_ifs <;> rfl

theorem skipSlash_decides (hf : Decides 0 .badAccess no f L) (hlive : ∃ s, 0 ∉ s ∧ L s ≠ no) :
    Decides 0 .badAccess no (fun m => skipSlash m >>= f) (fun s => L (stripSlash s)) := by
  refine .cons rfl (fun m => ?_) ?_ fun c hc => ?_
  · rw [skipSlash_cons, if_neg (by decide)]
    exact hf.ended [] m List.not_mem_nil
  · obtain ⟨s, hs, hne⟩ := hlive
    refine ⟨47 :: s, List.not_mem_cons_of_ne_of_not_mem (by decide) hs, ?_⟩
    rwa [stripSlash_cons, if_pos rfl]
  · simp only [skipSlash_cons, stripSlash_cons, Fallible.ok_bind]
    by_cases hslash : c = 47
    · simp only [if_pos hslash]
      exact hf
    · simp only [if_neg hslash]
      exact hf.derive hc

theorem nonempty_decides (hf : Decides 0 .badAccess no f L)
    (hlive : ∃ s, s ≠ [] ∧ 0 ∉ s ∧ L s ≠ no) :
    Decides 0 .badAccess no (fun m => do
        if (← Raw.first m) = 0 then return no
        f m)
      (fun s => if s = [] then no else L s) := by
  refine .cons rfl (fun m => rfl) ?_ fun c hc => ?_
  · obtain ⟨s, hnil, hs, hne⟩ := hlive
    exact ⟨s, hs, by rwa [if_neg hnil]⟩
  · simp only [Raw.first, Fallible.ok_bind, if_neg hc, List.cons_ne_nil, if_false]
    exact hf.derive hc

end

/-- **What `check_path` returns, and how far it reads.** -/
theorem checkPathRaw_decides (hpre : 0 ∉ pre) (hname : 0 ∉ name) :
    Decides 0 .badAccess false (fun path => checkPathRaw path pre name)
      (fun path => checkPath path pre name) := by
  have hname_live : ∃ s, 0 ∉ s ∧ decide (s = name) ≠ false := ⟨name, hname, by simp⟩
  have hrest := skipSlash_decides (Raw.strcmp_decides hname) hname_live
  have hrest_live : ∃ s, 0 ∉ s ∧ decide (stripSlash s = name) ≠ false := by
    refine ⟨47 :: name, List.not_mem_cons_of_ne_of_not_mem (by decide) hname, ?_⟩
    rw [stripSlash_cons, if_pos rfl, decide_eq_true rfl]
    decide
  have hpre' := zero_notMem_stripSlash hpre
  have hbegin := Raw.strncmp_decides hpre' hrest hrest_live
  have hbegin_live : ∃ s, 0 ∉ s ∧ (if stripSlash pre <+: s then
      decide (stripSlash (s.drop (stripSlash pre).length) = name) else false) ≠ false := by
    obtain ⟨s, hs, hne⟩ := hrest_live
    refine ⟨stripSlash pre ++ s, List.not_mem_append hpre' hs, ?_⟩
    rwa [if_pos (List.prefix_append _ _), List.drop_left]
  have hcompare : ∀ path, (if (stripSlash pre).length ≠ 0 then
      Raw.strncmp path (stripSlash pre) (stripSlash pre).length else .ok 0) =
      Raw.strncmp path (stripSlash pre) (stripSlash pre).length := by
    intro path
    split_ifs with hl
    · rfl
    · rw [not_not.mp hl, Raw.strncmp]
  simp only [checkPathRaw, hcompare]
  refine (skipSlash_decides hbegin hbegin_live).congr fun path hpath => ?_
  rw [Bool.eq_iff_iff, checkPath_iff hpath hpre hname]
  constructor
  · intro h
    split_ifs at h with hprefix
    obtain ⟨rest, hrest⟩ := hprefix
    rw [← hrest, List.drop_left] at h
    exact ⟨rest, hrest.symm, of_decide_eq_true h⟩
  · rintro ⟨rest, heq, hstrip⟩
    rw [heq, if_pos (List.prefix_append _ _), List.drop_left, hstrip]
    exact decide_eq_true rfl

theorem lastToken_cons {c : UInt8} (hslash : c ≠ 47) (hzero : c ≠ 0) (m : List UInt8) :
    lastToken (c :: m) = (lastToken m).map (Option.map (c :: ·)) := by
  simp only [lastToken, Raw.strchr, Raw.strlen, if_neg hslash, if_neg hzero]
  cases Raw.strchr 47 m with
  | error e => rfl
  | ok r =>
    cases r with
    | none =>
      show (do
        let l ← (Raw.strlen m).map (· + 1)
        return some ((c :: m).take l)) = _
      cases Raw.strlen m <;> rfl
    | some q =>
      show (Raw.first (m.drop (q + 1)) >>= fun a =>
        if a ≠ 0 then .ok none else .ok (some (c :: m.take q))) =
          (Raw.first (m.drop (q + 1)) >>= fun a =>
            if a ≠ 0 then .ok none else .ok (some (m.take q))).map (Option.map (c :: ·))
      cases Raw.first (m.drop (q + 1)) with
      | error e => rfl
      | ok a =>
        rw [Fallible.ok_bind, Fallible.ok_bind]
        split_ifs <;> rfl

theorem withoutSlash_cons {c : UInt8} (hslash : c ≠ 47) (s : List UInt8) :
    withoutSlash (c :: s) = (withoutSlash s).map (c :: ·) := by
  rw [withoutSlash, List.dropWhile_cons_of_pos (by simpa using hslash),
    List.takeWhile_cons_of_pos (by simpa using hslash), withoutSlash]
  split_ifs <;> rfl

theorem withoutSlash_slash (s : List UInt8) :
    withoutSlash (47 :: s) = if s = [] then some [] else none := by
  rw [withoutSlash, List.dropWhile_cons_of_neg (by simp), List.takeWhile_cons_of_neg (by simp)]
  simp

theorem withoutSlash_eq_some {s : List UInt8} :
    withoutSlash s = some name ↔ 47 ∉ name ∧ (s = name ∨ s = name ++ [47]) := by
  induction s generalizing name with
  | nil =>
    have hnil : withoutSlash [] = some [] := rfl
    rw [hnil, Option.some.injEq]
    constructor
    · rintro rfl
      exact ⟨List.not_mem_nil, .inl rfl⟩
    · rintro ⟨_, heq | heq⟩
      · exact heq
      · simp at heq
  | cons c s ih =>
    by_cases hslash : c = 47
    · subst hslash
      rw [withoutSlash_slash]
      constructor
      · intro h
        split_ifs at h with hs
        cases h
        exact ⟨List.not_mem_nil, .inr (by rw [hs]; rfl)⟩
      · rintro ⟨hname, heq | heq⟩
        · exact absurd (heq ▸ List.mem_cons_self) hname
        · cases name with
          | nil => rw [if_pos (List.cons.inj heq).2]
          | cons b name =>
            obtain ⟨rfl, _⟩ := List.cons.inj heq
            exact absurd List.mem_cons_self hname
    · rw [withoutSlash_cons hslash, Option.map_eq_some_iff]
      constructor
      · rintro ⟨name', h, rfl⟩
        obtain ⟨hname, heq⟩ := ih.mp h
        refine ⟨List.not_mem_cons_of_ne_of_not_mem (Ne.symm hslash) hname, ?_⟩
        rcases heq with rfl | rfl
        · exact .inl rfl
        · exact .inr rfl
      · rintro ⟨hname, heq⟩
        cases name with
        | nil =>
          rcases heq with heq | heq
          · cases heq
          · exact absurd (List.cons.inj heq).1 hslash
        | cons b name =>
          obtain ⟨_, hname⟩ := List.ne_and_not_mem_of_not_mem_cons hname
          rw [List.cons_append, List.cons.injEq, List.cons.injEq, ← and_or_left] at heq
          exact ⟨name, ih.mpr ⟨hname, heq.2⟩, by rw [heq.1]⟩

theorem lastToken_decides : Decides 0 .badAccess none lastToken withoutSlash := by
  refine .loop rfl (fun m => rfl) ⟨[], List.not_mem_nil, Option.some_ne_none _⟩ fun c hc => ?_
  by_cases hslash : c = 47
  · -- The character after the `/` must end the string.
    subst hslash
    simp only [withoutSlash_slash]
    refine .inl (.cons rfl (fun m => rfl) ⟨[], List.not_mem_nil, Option.some_ne_none _⟩ ?_)
    intro a ha
    refine .dead (fun m => ?_) fun s => if_neg (List.cons_ne_nil a s)
    show (if a ≠ 0 then Except.ok none else Except.ok (some [])) = _
    rw [if_pos ha]
  · exact .inr ⟨Option.map (c :: ·), fun b => Option.map_eq_none_iff, lastToken_cons hslash hc,
      withoutSlash_cons hslash⟩

/-- **What `get_next_token` returns, and how far it reads.** -/
theorem nextToken_decides (hpre : 0 ∉ pre) :
    Decides 0 .badAccess none (fun path => nextToken path pre) (listedAs pre) := by
  have htoken := nonempty_decides lastToken_decides ⟨[1], by decide, by decide, by decide⟩
  have hrest := nonempty_decides (skipSlash_decides htoken ⟨[1], by decide, by decide⟩)
    ⟨[1], by decide, by decide, by decide⟩
  have hpre' := zero_notMem_stripSlash hpre
  have hbegin := Raw.strncmp_decides hpre' hrest ⟨[1], by decide, by decide⟩
  refine (skipSlash_decides hbegin ⟨stripSlash pre ++ [1], ?_, ?_⟩).congr fun path hpath => rfl
  · exact List.not_mem_append hpre' (by decide)
  · rw [if_pos (List.prefix_append _ _), List.drop_left]
    decide

end Ginkgo.Fs
