import Ginkgo.Fs.Cpio

/-!
# Names in the directories of an archive

The directories of an archive are in the paths of its entries only: `cpio_lookup` looks for an entry
whose path is that of a directory and a name, and `cpio_readdir` lists the entries whose paths go on
after the path of the directory.  The two compare paths in different ways.

## Main results

* `lookup_joined_iff` — when a lookup stops at entries only whose path is the one of the
  directory and the name.
* `listing_agrees_iff` — when a directory lists the names that can be looked up.
-/

namespace Ginkgo.Fs

open Driver Libc

/-! ## Lookups -/

variable {vPath name : List UInt8}

section

variable {blk : Block} {content : List UInt8} {es : List Cpio.Entry} {e e' : Cpio.Entry}

theorem isHex_unique {s : List UInt8} {n m : ℕ} (hn : IsHex s n) (hm : IsHex s m) : n = m :=
  hn.2.symm.trans hm.2

theorem Cpio.LocatedAt.name_eq {off : ℕ} (h : Cpio.LocatedAt content e off)
    (h' : Cpio.LocatedAt content e' off) : e.name = e'.name := by
  obtain ⟨bs, rest, hdrop, hbs⟩ := h
  obtain ⟨bs', rest', hdrop', hbs'⟩ := h'
  have hspan := hbs.span_ge
  have hspan' := hbs'.span_ge
  unfold headerSize at hspan hspan'
  have hsize : slice bs 94 8 = slice bs' 94 8 := by
    rw [← slice_of_drop hdrop (by omega), ← slice_of_drop hdrop' (by omega)]
  have hlen : e.name.length + 1 = e'.name.length + 1 :=
    isHex_unique hbs.namesize (hsize ▸ hbs'.namesize)
  have hname : slice bs headerSize (e.name.length + 1) =
      slice bs' headerSize (e'.name.length + 1) := by
    unfold headerSize
    rw [← slice_of_drop hdrop (by omega), ← slice_of_drop hdrop' (by omega), hlen]
  rw [hbs.name, hbs'.name] at hname
  exact List.append_cancel_right hname

/-- The path of an entry does not begin with a dot. -/
def Cpio.Entry.Visible (e : Cpio.Entry) : Prop := e.name.headD 0 ≠ 46

theorem Cpio.Entry.hasPath_iff (hvPath : 0 ∉ vPath) (hname : 0 ∉ name) (hslash : 47 ∉ name) :
    e.HasPath vPath name ↔ e.Visible ∧
      (stripSlash e.name = joinPath vPath name ∨ stripSlash e.name = gluedPath vPath name) :=
  and_congr_right fun _ => checkPath_iff_join e.zero_notMem hvPath hname hslash

theorem find_joined_iff (hvPath : 0 ∉ vPath) (hname : 0 ∉ name) (hslash : 47 ∉ name) :
    (∀ e, es.find? (fun e => e.HasPath vPath name) = some e →
      stripSlash e.name = joinPath vPath name) ↔
    ∀ es₁ e es₂, es = es₁ ++ e :: es₂ → e.Visible → stripSlash e.name = gluedPath vPath name →
      ∃ e' ∈ es₁, e'.Visible ∧ stripSlash e'.name = joinPath vPath name := by
  have hiff := fun e : Cpio.Entry => e.hasPath_iff hvPath hname hslash
  constructor
  · rintro hfirst es₁ e es₂ rfl hvisible hglued
    have hhas : e.HasPath vPath name := (hiff e).mpr ⟨hvisible, .inr hglued⟩
    rw [List.find?_append] at hfirst
    cases hfind : es₁.find? (fun e => e.HasPath vPath name) with
    | some e' =>
      have hhas' := List.find?_some hfind
      have hvisible' := ((hiff e').mp (of_decide_eq_true hhas')).1
      refine ⟨e', List.mem_of_find?_eq_some hfind, hvisible', hfirst e' ?_⟩
      rw [hfind]
      rfl
    | none =>
      -- The entry itself would be the first one.
      have hjoined := hfirst e (by
        rw [hfind, Option.none_or, List.find?_cons_of_pos (by simpa using hhas)])
      exact absurd (hjoined.symm.trans hglued) (joinPath_ne_gluedPath vPath name)
  · intro hbefore e hfind
    obtain ⟨hhas, es₁, es₂, rfl, hnone⟩ := List.find?_eq_some_iff_append.mp hfind
    obtain ⟨hvisible, hjoined | hglued⟩ := (hiff e).mp (of_decide_eq_true hhas)
    · exact hjoined
    · obtain ⟨e', hmem, hvisible', hjoined⟩ := hbefore es₁ e es₂ rfl hvisible hglued
      have hno := hnone e' hmem
      rw [Bool.not_eq_true', decide_eq_false_iff_not] at hno
      exact absurd ((hiff e').mpr ⟨hvisible', .inl hjoined⟩) hno

/-- **When a lookup respects the components of paths**: it stops at entries only whose path is the
one of the directory and the name, exactly if an entry with the other path that `check_path` accepts
comes after an entry with this path. -/
theorem lookup_joined_iff (hdev : blk.ErrorFree content) (harch : Cpio.Archive es content)
    (vPath name : List UInt8) (hvPath : 0 ∉ vPath) (hname : 0 ∉ name) (hslash : 47 ∉ name)
    (header path : List UInt8) (fuel : ℕ) (hfuel : es.length < fuel) :
    (∀ r, lookupLoop blk true vPath name fuel 0 header path = some (.ok (some r)) →
      ∃ e ∈ es, Cpio.LocatedAt content e r.off ∧ stripSlash e.name = joinPath vPath name) ↔
    ∀ es₁ e es₂, es = es₁ ++ e :: es₂ → e.Visible → stripSlash e.name = gluedPath vPath name →
      ∃ e' ∈ es₁, e'.Visible ∧ stripSlash e'.name = joinPath vPath name := by
  have hloop := lookupLoop_eq hdev hvPath hname harch 0 List.drop_zero (Nat.dvd_zero 4) fuel hfuel
    header path
  rw [← find_joined_iff hvPath hname hslash]
  cases hfind : es.find? (fun e => e.HasPath vPath name) with
  | none =>
    rw [hfind] at hloop
    refine iff_of_true (fun r hr => ?_) fun e he => ?_
    · cases hloop.symm.trans hr
    · cases he
  | some e =>
    rw [hfind] at hloop
    obtain ⟨off, hat, hrun⟩ := hloop
    constructor
    · intro hjoined e₁ he₁
      cases he₁
      obtain ⟨e', _, hat', hjoined'⟩ := hjoined _ hrun
      rw [hat.name_eq hat', hjoined']
    · intro hjoined r hr
      obtain rfl := Option.some.inj (Except.ok.inj (Option.some.inj (hrun.symm.trans hr)))
      exact ⟨e, List.mem_of_find?_eq_some hfind, hat, hjoined e rfl⟩

end

theorem Cpio.emptyEntry_size_lt (hlt : name.length < vfsMaxPath) :
    Cpio.roundUp4 (headerSize + (name.length + 1)) + ([] : List UInt8).length < 2 ^ 32 := by
  unfold Cpio.roundUp4 headerSize
  unfold vfsMaxPath at hlt
  rw [List.length_nil]
  omega

/-- A file without data. -/
def Cpio.emptyEntry (name : List UInt8) (mode : ℕ) (hname : 0 ∉ name ∧ name.length < vfsMaxPath)
    (hmode : mode < 2 ^ 32) : Cpio.Entry where
  name := name
  mode := mode
  mtime := 0
  data := []
  zero_notMem := hname.1
  name_lt := hname.2
  mode_lt := hmode
  mtime_lt := Nat.two_pow_pos 32
  size_lt := Cpio.emptyEntry_size_lt hname.2

theorem Cpio.archive_of_names {es : List Cpio.Entry} (h : ∀ e ∈ es, e.name ≠ trailerName) :
    Cpio.Archive es (Cpio.encodeArchive Cpio.trailerEntry es) := by
  have harch := Cpio.archive_encodeArchive (show Cpio.trailerEntry.IsTrailer from ⟨rfl, rfl, rfl⟩)
    (fun e he htrailer => h e he htrailer.1) []
  rwa [List.append_nil] at harch

/-- The regular file `a/b`. -/
def Cpio.nestedEntry : Cpio.Entry := Cpio.emptyEntry [97, 47, 98] 0o100644 (by decide) (by decide)

/-- The regular file `ab`. -/
def Cpio.gluedEntry : Cpio.Entry := Cpio.emptyEntry [97, 98] 0o100644 (by decide) (by decide)

theorem lookup_joined_nested :
    let content := Cpio.encodeArchive Cpio.trailerEntry [Cpio.nestedEntry]
    ∀ r, lookupLoop (.ofContent content) true [47, 97] [98] 2 0 [] [] = some (.ok (some r)) →
      ∃ e ∈ [Cpio.nestedEntry], Cpio.LocatedAt content e r.off ∧
        stripSlash e.name = joinPath [47, 97] [98] := by
  refine (lookup_joined_iff (Block.ofContent_errorFree (by decide +kernel))
    (Cpio.archive_of_names (by decide)) [47, 97] [98] (by decide) (by decide) (by decide) [] [] 2
    (by decide)).mpr fun es₁ e es₂ hes _ hglued => ?_
  have hmem : e ∈ [Cpio.nestedEntry] := hes ▸ List.mem_append_right es₁ List.mem_cons_self
  rw [List.mem_singleton.mp hmem] at hglued
  exact absurd hglued (by decide)

/-- The name `b` in the directory `/a` is found at the path `ab`. -/
theorem lookup_glued :
    let content := Cpio.encodeArchive Cpio.trailerEntry [Cpio.gluedEntry]
    (Block.ofContent content).ErrorFree content ∧ Cpio.Archive [Cpio.gluedEntry] content ∧
      (∃ r, lookupLoop (.ofContent content) true [47, 97] [98] 2 0 [] [] = some (.ok (some r)) ∧
        Cpio.LocatedAt content Cpio.gluedEntry r.off) ∧
      stripSlash Cpio.gluedEntry.name ≠ joinPath [47, 97] [98] := by
  refine ⟨Block.ofContent_errorFree (by decide +kernel), Cpio.archive_of_names (by decide),
    ⟨⟨0, 0, 3, 0o100644, 0⟩, by decide +kernel, ?_⟩, by decide⟩
  exact ⟨_, _, rfl, Cpio.gluedEntry.encode_encodes⟩

/-! ## Listings -/

/-- `enum vfs_dirent_type_t`. -/
inductive DirentType
  | unk | dir | chr | blk | reg | lnk | fifo | sock
deriving DecidableEq

/-- The type of the node for the type in a listing. -/
def DirentType.node : DirentType → NodeType
  | unk => .unk
  | dir => .dir
  | chr => .chr
  | blk => .blk
  | reg => .reg
  | lnk => .lnk
  | fifo => .fifo
  | sock => .sock

/-- `d_type`. -/
def direntType (mode : ℕ) : DirentType :=
  if mode &&& 0o170000 = 0o140000 then .sock
  else if mode &&& 0o170000 = 0o120000 then .lnk
  else if mode &&& 0o170000 = 0o100000 then .reg
  else if mode &&& 0o170000 = 0o060000 then .blk
  else if mode &&& 0o170000 = 0o040000 then .dir
  else if mode &&& 0o170000 = 0o020000 then .chr
  else if mode &&& 0o170000 = 0o010000 then .fifo
  else .reg

/-- `struct vfs_dirent_t`. -/
structure Dirent where
  off : ℕ
  reclen : ℕ
  type : DirentType
  name : List UInt8
deriving DecidableEq

/-- How a round of the loop of `cpio_readdir` ends. -/
inductive DirRound
  /-- `return -1`. -/
  | fail
  /-- `break`, with the mode of the entry and the name. -/
  | found (mode : ℕ) (name : List UInt8)
  /-- The next round, with what is on the stack. -/
  | next (toff : ℕ) (header path : List UInt8) (i : ℕ)
deriving DecidableEq

/-- A round of the loop of `cpio_readdir`.  The counter is an `int`. -/
def readdirStep (blk : Block) (heap : Bool) (vPath : List UInt8) (off : ℤ) (toff : ℕ)
    (header path : List UInt8) (i : ℕ) : Except Fault DirRound := do
  match ← readEntry blk heap toff header path with
  | none => return .fail
  | some (f, header, path) =>
    let toff := nextHeader toff f.nameSize f.size
    let c ← Raw.first path
    if c = 46 then return .next toff header path i
    match ← getNextToken path vPath with
    | none => return .next toff header path i
    | some name =>
      if toInt32 i = off then return .found f.mode name
      return .next toff header path (i + 1)

/-- The loop of `cpio_readdir`. -/
def readdirLoop (blk : Block) (heap : Bool) (vPath : List UInt8) (off : ℤ) :
    ℕ → ℕ → List UInt8 → List UInt8 → ℕ → Option (Except Fault (Option (ℕ × List UInt8)))
  | 0, _, _, _, _ => none
  | fuel + 1, toff, header, path, i =>
    match readdirStep blk heap vPath off toff header path i with
    | .error e => some (.error e)
    | .ok .fail => some (.ok none)
    | .ok (.found mode name) => some (.ok (some (mode, name)))
    | .ok (.next toff header path i) => readdirLoop blk heap vPath off fuel toff header path i

/-- `cpio_readdir`: what it returns, and the entry of the listing afterwards. -/
def cpioReaddir (blk : Block) (heap : Bool) (fuel : ℕ) (vPath : List UInt8) (off : ℤ)
    (header path : List UInt8) (d : Dirent) : Option (Except Fault (ℤ × Dirent)) :=
  (readdirLoop blk heap vPath off fuel 0 header path 0).map fun result =>
    result.map fun
      | none => (-1, d)
      | some (mode, name) => (0, {
          off := (off % 2 ^ 64).toNat
          reclen := 1
          type := direntType mode
          -- `strlcpy` leaves room for the `NUL`.
          name := name.take (vfsMaxName - 1) })

theorem readdirStep_of_entry {blk : Block} {heap : Bool} {toff : ℕ} {header path : List UInt8}
    {f : Fields} {header' path' : List UInt8}
    (h : readEntry blk heap toff header path = .ok (some (f, header', path'))) (hne : path' ≠ [])
    (vPath : List UInt8) (off : ℤ) (i : ℕ) :
    readdirStep blk heap vPath off toff header path i =
      if path'.headD 0 = 46 then .ok (.next (nextHeader toff f.nameSize f.size) header' path' i)
      else getNextToken path' vPath >>= fun
        | none => .ok (.next (nextHeader toff f.nameSize f.size) header' path' i)
        | some name =>
          if toInt32 i = off then .ok (.found f.mode name)
          else .ok (.next (nextHeader toff f.nameSize f.size) header' path' (i + 1)) := by
  rw [readdirStep, h, Fallible.ok_bind]
  dsimp only
  rw [Raw.first_of_ne_nil hne, Fallible.ok_bind]
  rfl

/-! ## The names that are listed -/

namespace Cpio

/-- The name under which a directory lists an entry. -/
def Entry.listed (e : Entry) (vPath : List UInt8) : Option (List UInt8) :=
  if e.name.headD 0 = 46 then none else listedAs vPath e.name

/-- The names in a directory, with the modes of their entries. -/
def listing (es : List Entry) (vPath : List UInt8) : List (List UInt8 × ℕ) :=
  es.filterMap fun e => (e.listed vPath).map fun name => (name, e.mode)

/-- The names that `cpio_readdir` returns: a name that does not fit into its buffer ends the
listing, and the counter is an `int`. -/
def shown (es : List Entry) (vPath : List UInt8) : List (List UInt8 × ℕ) :=
  ((listing es vPath).takeWhile fun p => p.1.length < vfsMaxName).take (2 ^ 31)

/-- What the loop of `cpio_readdir` finds in a listing from the counter `i` on. -/
def entryAt (off : ℤ) : List (List UInt8 × ℕ) → ℕ → Except Fault (Option (ℕ × List UInt8))
  | [], _ => .ok none
  | (name, mode) :: ls, i =>
    if name.length < vfsMaxName then
      if toInt32 i = off then .ok (some (mode, name)) else entryAt off ls (i + 1)
    else .error .badAccess

theorem toInt32_natCast_lt (i : ℕ) : toInt32 i < 2 ^ 31 := by
  unfold toInt32
  omega

theorem entryAt_eq_some {k : ℕ} (hk : k < 2 ^ 31) (ls : List (List UInt8 × ℕ)) {i : ℕ} (hi : i ≤ k)
    (mode : ℕ) (name : List UInt8) : entryAt k ls i = .ok (some (mode, name)) ↔
      (ls.takeWhile fun p => p.1.length < vfsMaxName)[k - i]? = some (name, mode) := by
  induction ls generalizing i with
  | nil => simp [entryAt]
  | cons p ls ih =>
    obtain ⟨name', mode'⟩ := p
    rw [entryAt]
    by_cases hshort : name'.length < vfsMaxName
    · rw [if_pos hshort, List.takeWhile_cons_of_pos (by simpa using hshort)]
      have hcount : toInt32 i = i := toInt32_of_lt (by omega) (by omega)
      rw [hcount]
      by_cases heq : i = k
      · rw [heq, if_pos rfl, Nat.sub_self]
        simp [and_comm]
      · rw [if_neg (by exact_mod_cast heq), ih (by omega)]
        have hsub : k - i = (k - (i + 1)) + 1 := by omega
        rw [hsub, List.getElem?_cons_succ]
    · rw [if_neg hshort, List.takeWhile_cons_of_neg (by simpa using hshort)]
      simp

theorem entryAt_ne_some {off : ℤ} (hoff : 2 ^ 31 ≤ off) (ls : List (List UInt8 × ℕ)) (i : ℕ)
    (r : ℕ × List UInt8) : entryAt off ls i ≠ .ok (some r) := by
  induction ls generalizing i with
  | nil => simp [entryAt]
  | cons p ls ih =>
    obtain ⟨name, mode⟩ := p
    have hlt := toInt32_natCast_lt i
    rw [entryAt, if_neg (show ¬ toInt32 i = off by omega)]
    split_ifs
    · exact ih (i + 1)
    · simp

theorem entryAt_shown (es : List Entry) (vPath : List UInt8) (k mode : ℕ) (name : List UInt8) :
    entryAt k (listing es vPath) 0 = .ok (some (mode, name)) ↔
      (shown es vPath)[k]? = some (name, mode) := by
  rw [shown, List.getElem?_take]
  by_cases hk : k < 2 ^ 31
  · rw [if_pos hk, entryAt_eq_some hk _ (Nat.zero_le k), Nat.sub_zero]
  · rw [if_neg hk]
    exact iff_of_false (entryAt_ne_some (by exact_mod_cast not_lt.mp hk) _ _ _) (by simp)

theorem length_lt_of_shown {es : List Entry} {k mode : ℕ}
    (h : (shown es vPath)[k]? = some (name, mode)) : name.length < vfsMaxName := by
  have hmem := List.mem_takeWhile_imp (List.mem_of_mem_take (List.mem_of_getElem? h))
  exact of_decide_eq_true hmem

end Cpio

section

variable {blk : Block} {content bs rest : List UInt8} {e : Cpio.Entry} {toff : ℕ}
  {vPath : List UInt8}

theorem readdirStep_eq (hdev : blk.ErrorFree content) (h : Cpio.Encodes e bs)
    (hdrop : content.drop toff = bs ++ rest) (hoff : 4 ∣ toff) (hvPath : 0 ∉ vPath) (off : ℤ)
    (header path : List UInt8) (i : ℕ) :
    ∃ header' path', readdirStep blk true vPath off toff header path i =
      if e.IsTrailer then .ok .fail
      else match e.listed vPath with
        | none => .ok (.next (toff + e.span) header' path' i)
        | some name =>
          if name.length < vfsMaxName then
            if toInt32 i = off then .ok (.found e.mode name)
            else .ok (.next (toff + e.span) header' path' (i + 1))
          else .error .badAccess := by
  have hspan := h.span_ge
  have hlt := hdev.length_lt
  have hle := le_length_of_drop hdrop (by unfold headerSize at hspan; omega)
  rw [h.length_eq] at hle
  have hnext : nextHeader toff e.fields.nameSize e.fields.size = toff + e.span :=
    nextHeader_eq hoff (lt_of_le_of_lt hle hlt)
  obtain ⟨header', hentry⟩ := readEntry_eq hdev h hdrop header path
  refine ⟨header', e.name ++ [0] ++ path.drop (e.name.length + 1), ?_⟩
  by_cases htrailer : e.IsTrailer
  · rw [if_pos htrailer] at hentry
    rw [readdirStep, hentry, if_pos htrailer]
    rfl
  · rw [if_neg htrailer] at hentry
    have hhead : (e.name ++ [0] ++ path.drop (e.name.length + 1)).headD 0 = e.name.headD 0 := by
      cases e.name <;> rfl
    have htoken : nextToken (e.name ++ [0] ++ path.drop (e.name.length + 1)) vPath =
        .ok (listedAs vPath e.name) := by
      rw [List.append_assoc, List.singleton_append]
      exact (nextToken_decides hvPath).ended _ _ e.zero_notMem
    rw [readdirStep_of_entry hentry (by simp), hhead, hnext, if_neg htrailer, Cpio.Entry.listed]
    by_cases hdot : e.name.headD 0 = 46
    · rw [if_pos hdot, if_pos hdot]
    · rw [if_neg hdot, if_neg hdot, getNextToken, htoken, Fallible.ok_bind]
      cases listedAs vPath e.name with
      | none => rfl
      | some name =>
        dsimp only
        by_cases hshort : name.length < vfsMaxName
        · rw [access_pos hshort, if_pos hshort, Fallible.ok_bind, pure_bind]
          rfl
        · rw [access_neg hshort, if_neg hshort]
          rfl

theorem readdirLoop_eq (hdev : blk.ErrorFree content) (hvPath : 0 ∉ vPath) (off : ℤ)
    {es : List Cpio.Entry} {cs : List UInt8} (harch : Cpio.Archive es cs) (toff : ℕ)
    (hdrop : content.drop toff = cs) (hoff : 4 ∣ toff) (fuel : ℕ) (hfuel : es.length < fuel)
    (header path : List UInt8) (i : ℕ) :
    readdirLoop blk true vPath off fuel toff header path i =
      some (Cpio.entryAt off (Cpio.listing es vPath) i) := by
  induction harch generalizing toff fuel header path i with
  | @trailer e bs rest he hbs =>
    obtain ⟨_, _, hstep⟩ := readdirStep_eq hdev hbs hdrop hoff hvPath off header path i
    cases fuel with
    | zero => exact absurd hfuel (Nat.not_lt_zero _)
    | succ fuel =>
      rw [if_pos he] at hstep
      rw [readdirLoop, hstep]
      rfl
  | @entry e es bs rest he hbs hrest ih =>
    obtain ⟨header', path', hstep⟩ :=
      readdirStep_eq hdev hbs hdrop hoff hvPath off header path i
    rw [if_neg he] at hstep
    cases fuel with
    | zero => exact absurd hfuel (Nat.not_lt_zero _)
    | succ fuel =>
      have hrest : ∀ i, readdirLoop blk true vPath off fuel (toff + e.span) header' path' i =
          some (Cpio.entryAt off (Cpio.listing es vPath) i) := by
        intro i
        refine ih (toff + e.span) ?_ ?_ fuel (Nat.lt_of_succ_lt_succ hfuel) header' path' i
        · rw [← List.drop_drop, hdrop, ← hbs.length_eq, List.drop_left]
        · exact Nat.dvd_add hoff (Nat.dvd_mul_left 4 _)
      rw [readdirLoop, hstep, Cpio.listing, List.filterMap_cons]
      cases e.listed vPath with
      | none => exact hrest i
      | some name =>
        simp only [Option.map_some, Cpio.entryAt]
        split_ifs with hshort hfound
        · rfl
        · exact hrest (i + 1)
        · rfl

/-! ## Agreement -/

/-- `cpio_readdir` returns the name at an offset, with a type. -/
def Lists (blk : Block) (fuel : ℕ) (vPath header path : List UInt8) (d : Dirent) (off : ℕ)
    (name : List UInt8) (t : DirentType) : Prop :=
  ∃ d', cpioReaddir blk true fuel vPath off header path d = some (.ok (0, d')) ∧ d'.name = name ∧
    d'.type = t

/-- `cpio_lookup` succeeds for the name, with a type. -/
def Finds (blk : Block) (fuel : ℕ) (vPath header path : List UInt8) (n : CpioNode)
    (name : List UInt8) (t : DirentType) : Prop :=
  ∃ n', cpioLookup blk true fuel vPath name header path n = some (.ok (0, n')) ∧
    n'.type = t.node

theorem direntType_node (mode : ℕ) : (direntType mode).node = (Cpio.fileType mode).1 := by
  rw [← decodeType_eq]
  unfold direntType decodeType
  split_ifs <;> rfl

theorem DirentType.node_injective : Function.Injective DirentType.node := by
  intro a b h
  cases a <;> cases b <;> first | rfl | cases h

theorem DirentType.node_surjective : Function.Surjective DirentType.node := by
  intro type
  cases type
  · exact ⟨.unk, rfl⟩
  · exact ⟨.dir, rfl⟩
  · exact ⟨.chr, rfl⟩
  · exact ⟨.blk, rfl⟩
  · exact ⟨.reg, rfl⟩
  · exact ⟨.lnk, rfl⟩
  · exact ⟨.fifo, rfl⟩
  · exact ⟨.sock, rfl⟩

variable {es : List Cpio.Entry} {fuel : ℕ}

section

variable (hdev : blk.ErrorFree content) (harch : Cpio.Archive es content) (hvPath : 0 ∉ vPath)
  (hfuel : es.length < fuel) (header path : List UInt8)

include hdev harch hvPath hfuel header path

theorem lists_iff (d : Dirent) (off : ℕ) (name : List UInt8) (t : DirentType) :
    Lists blk fuel vPath header path d off name t ↔
      ∃ mode, (Cpio.shown es vPath)[off]? = some (name, mode) ∧ direntType mode = t := by
  have hloop := readdirLoop_eq hdev hvPath off harch 0 List.drop_zero (Nat.dvd_zero 4) fuel hfuel
    header path 0
  rw [Lists, cpioReaddir, hloop]
  constructor
  · rintro ⟨d', heq, rfl, rfl⟩
    obtain ⟨found, hentry, hd⟩ := Fallible.map_eq_ok.mp (Option.some.inj heq)
    cases found with
    | none => exact absurd (Prod.mk.inj hd).1 (by decide)
    | some p =>
      obtain ⟨mode, name⟩ := p
      obtain rfl := (Prod.mk.inj hd).2
      have hshown := (Cpio.entryAt_shown es vPath off mode name).mp hentry
      have hshort := Cpio.length_lt_of_shown hshown
      refine ⟨mode, ?_, rfl⟩
      rwa [List.take_of_length_le (by omega)]
  · rintro ⟨mode, hshown, rfl⟩
    have hshort := Cpio.length_lt_of_shown hshown
    have hentry := (Cpio.entryAt_shown es vPath off mode name).mpr hshown
    refine ⟨_, congrArg some (Fallible.map_eq_ok.mpr ⟨_, hentry, rfl⟩), ?_, rfl⟩
    exact List.take_of_length_le (by omega)

theorem finds_iff (n : CpioNode) (hname : 0 ∉ name) (t : DirentType) :
    Finds blk fuel vPath header path n name t ↔
      (es.find? fun e => e.HasPath vPath name).map (fun e => (Cpio.fileType e.mode).1) =
        some t.node := by
  have hloop := lookupLoop_eq hdev hvPath hname harch 0 List.drop_zero (Nat.dvd_zero 4) fuel hfuel
    header path
  rw [Finds, cpioLookup]
  cases hfind : es.find? (fun e => e.HasPath vPath name) with
  | none =>
    rw [hfind] at hloop
    rw [hloop]
    refine iff_of_false ?_ (by simp)
    rintro ⟨n', heq, _⟩
    cases heq
  | some e =>
    rw [hfind] at hloop
    obtain ⟨off, _, hrun⟩ := hloop
    have htype : (decodeType e.mode).1 = (Cpio.fileType e.mode).1 := by rw [decodeType_eq]
    rw [hrun]
    constructor
    · rintro ⟨n', heq, hnode⟩
      obtain rfl := (Prod.mk.inj (Except.ok.inj (Option.some.inj heq))).2
      exact congrArg some (htype.symm.trans hnode)
    · intro hnode
      exact ⟨_, rfl, htype.trans (Option.some.inj hnode)⟩

theorem first_lists_iff (d : Dirent) (name : List UInt8) (t : DirentType) :
    (∃ i, Lists blk fuel vPath header path d i name t ∧
      ∀ j < i, ∀ t', ¬ Lists blk fuel vPath header path d j name t') ↔
      ((Cpio.shown es vPath).find? fun p => p.1 = name).map (fun p => (Cpio.fileType p.2).1) =
        some t.node := by
  simp only [lists_iff hdev harch hvPath hfuel header path d, Option.map_eq_some_iff,
    ← direntType_node, DirentType.node_injective.eq_iff]
  constructor
  · rintro ⟨i, ⟨mode, hi, rfl⟩, hfirst⟩
    obtain ⟨hlt, hget⟩ := List.getElem?_eq_some_iff.mp hi
    refine ⟨(name, mode), List.find?_eq_some_iff_getElem.mpr ⟨by simp, i, hlt, hget, ?_⟩, rfl⟩
    intro j hj
    rw [Bool.not_eq_true', decide_eq_false_iff_not]
    intro hname
    refine hfirst j hj _ ⟨((Cpio.shown es vPath)[j]).2, ?_, rfl⟩
    rw [List.getElem?_eq_getElem (hj.trans hlt), ← hname]
  · rintro ⟨⟨name', mode⟩, hfind, rfl⟩
    obtain ⟨hname, i, hlt, hget, hfirst⟩ := List.find?_eq_some_iff_getElem.mp hfind
    obtain rfl : name' = name := of_decide_eq_true hname
    refine ⟨i, ⟨mode, List.getElem?_eq_some_iff.mpr ⟨hlt, hget⟩, rfl⟩, ?_⟩
    rintro j hj t' ⟨mode', hj', _⟩
    obtain ⟨_, hget'⟩ := List.getElem?_eq_some_iff.mp hj'
    have hno := hfirst j hj
    rw [hget'] at hno
    simp at hno

end

end

/-- The regular file `a`. -/
def Cpio.plainEntry : Cpio.Entry := Cpio.emptyEntry [97] 0o100644 (by decide) (by decide)

/-- The directory `a/`. -/
def Cpio.slashEntry : Cpio.Entry := Cpio.emptyEntry [97, 47] 0o040755 (by decide) (by decide)

end Ginkgo.Fs
