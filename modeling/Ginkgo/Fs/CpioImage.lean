import Mathlib.Data.List.DropRight
import Ginkgo.Fs.CpioDir

/-!
# Images that need not be archives

The loops of `cpio_lookup` and `cpio_readdir` on any content of a device.  They take the sizes and
the path of an entry from the device and go on from header to header; the header after one at `off`
is at a larger offset, whatever its fields are.

## Main results

* `scans_end` — the loops end on every image.
* `scansInside_iff` — the images on which every call stays inside the buffers.
-/

namespace Ginkgo.Fs

open Driver Libc
open Fallible (bind_eq_ok ok_bind error_bind)

/-! ## The loops end -/

variable {buf header path vPath name header' path' : List UInt8} {count off' toff toff' i i' : ℕ}

section

variable {blk : Block} {heap : Bool}

theorem lt_nextHeader {off : ℕ} (hoff : off < 2 ^ 63) (nameSize size : ℕ) :
    off < nextHeader off nameSize size := by
  have hsum : (nameSpan nameSize + size) % 2 ^ 32 < 2 ^ 32 := Nat.mod_lt _ (Nat.two_pow_pos 32)
  rw [nextHeader, headerSize]
  generalize (nameSpan nameSize + size) % 2 ^ 32 = span at hsum ⊢
  rw [wrap64_of_lt (x := off + 110) (by omega), wrap64_of_lt (x := off + 110 + span) (by omega),
    wrap64_of_lt (by omega)]
  have hand := and_not64 (x := off + 110 + span + 3) (k := 2) (by omega) (by norm_num)
  norm_num at hand
  rw [hand]
  omega

theorem lt_capacity_of_blockRead {off : ℕ} (h : (blockRead blk heap off count).1 ≠ 0) :
    off < blk.capacity := by
  by_contra hle
  refine h ?_
  rw [blockRead, blockReadRun, if_pos (c := blk.capacity ≤ off) (not_lt.mp hle), ite_self, ite_self]
  rfl

theorem readInto_eq_ok {room off : ℕ} {r : ℕ × List UInt8} :
    readInto blk heap room buf off count = .ok r ↔
      (blockRead blk heap off count).2.length ≤ room ∧
        r = ((blockRead blk heap off count).1,
          storeBytes buf (blockRead blk heap off count).2) := by
  rw [readInto, bind_eq_ok]
  constructor
  · rintro ⟨_, hroom, hr⟩
    exact ⟨access_eq_ok.mp hroom, (Except.ok.inj hr).symm⟩
  · rintro ⟨hroom, rfl⟩
    exact ⟨(), access_pos hroom, rfl⟩

theorem lt_capacity_of_readEntry {off : ℕ} {r : Fields × List UInt8 × List UInt8}
    (h : readEntry blk heap off header path = .ok (some r)) :
    off < blk.capacity := by
  obtain ⟨⟨rd, header₁⟩, hread, h⟩ := bind_eq_ok.mp h
  obtain ⟨_, heq⟩ := readInto_eq_ok.mp hread
  by_cases hrd : rd = headerSize
  · apply lt_capacity_of_blockRead
    rw [← (Prod.mk.inj heq).1, hrd]
    decide
  · dsimp only at h
    rw [if_pos hrd] at h
    cases h

theorem lookupStep_next {off : ℕ}
    (h : lookupStep blk heap vPath name off header path = .ok (.next off' header' path')) :
    ∃ f, readEntry blk heap off header path = .ok (some (f, header', path')) ∧
      off' = nextHeader off f.nameSize f.size := by
  obtain ⟨entry, hentry, h⟩ := bind_eq_ok.mp h
  cases entry with
  | none => cases h
  | some r =>
    obtain ⟨f, header₁, path₁⟩ := r
    obtain ⟨c, _, h⟩ := bind_eq_ok.mp h
    obtain ⟨found, _, h⟩ := bind_eq_ok.mp h
    cases found with
    | true => cases h
    | false =>
      cases h
      exact ⟨f, hentry, rfl⟩

theorem readdirStep_next {off : ℤ}
    (h : readdirStep blk heap vPath off toff header path i = .ok (.next toff' header' path' i')) :
    ∃ f, readEntry blk heap toff header path = .ok (some (f, header', path')) ∧
      toff' = nextHeader toff f.nameSize f.size := by
  obtain ⟨entry, hentry, h⟩ := bind_eq_ok.mp h
  cases entry with
  | none => cases h
  | some r =>
    obtain ⟨f, header₁, path₁⟩ := r
    obtain ⟨c, _, h⟩ := bind_eq_ok.mp h
    by_cases hdot : c = 46
    · rw [if_pos hdot] at h
      cases h
      exact ⟨f, hentry, rfl⟩
    · rw [if_neg hdot] at h
      obtain ⟨token, _, h⟩ := bind_eq_ok.mp h
      cases token with
      | none =>
        cases h
        exact ⟨f, hentry, rfl⟩
      | some name =>
        dsimp only at h
        by_cases hoff : toInt32 i = off
        · rw [if_pos hoff] at h
          cases h
        · rw [if_neg hoff] at h
          cases h
          exact ⟨f, hentry, rfl⟩

theorem next_advances (hcap : blk.capacity < 2 ^ 63) {off off' : ℕ} {header path : List UInt8}
    (h : ∃ f header' path', readEntry blk heap off header path = .ok (some (f, header', path')) ∧
      off' = nextHeader off f.nameSize f.size) : off < off' ∧ off < blk.capacity := by
  obtain ⟨f, header', path', hentry, rfl⟩ := h
  have hlt := lt_capacity_of_readEntry hentry
  exact ⟨lt_nextHeader (hlt.trans hcap) _ _, hlt⟩

variable (hcap : blk.capacity < 2 ^ 63) (vPath name : List UInt8) (off : ℤ)

include hcap

theorem lookupStep_advances
    (h : lookupStep blk heap vPath name toff header path = .ok (.next toff' header' path')) :
    toff < toff' ∧ toff < blk.capacity := by
  obtain ⟨f, hentry, hnext⟩ := lookupStep_next h
  exact next_advances hcap ⟨f, header', path', hentry, hnext⟩

theorem readdirStep_advances
    (h : readdirStep blk heap vPath off toff header path i = .ok (.next toff' header' path' i')) :
    toff < toff' ∧ toff < blk.capacity := by
  obtain ⟨f, hentry, hnext⟩ := readdirStep_next h
  exact next_advances hcap ⟨f, header', path', hentry, hnext⟩

theorem lookupLoop_ends (fuel toff : ℕ) (hfuel : blk.capacity - toff < fuel)
    (header path : List UInt8) :
    ∃ r, lookupLoop blk heap vPath name fuel toff header path = some r := by
  induction fuel generalizing toff header path with
  | zero => exact absurd hfuel (Nat.not_lt_zero _)
  | succ fuel ih =>
    rw [lookupLoop]
    cases hstep : lookupStep blk heap vPath name toff header path with
    | error e => exact ⟨_, rfl⟩
    | ok round =>
      cases round with
      | fail => exact ⟨_, rfl⟩
      | found r => exact ⟨_, rfl⟩
      | next toff' header' path' =>
        have hadvance := lookupStep_advances hcap vPath name hstep
        exact ih toff' (by omega) header' path'

theorem readdirLoop_ends (fuel toff : ℕ) (hfuel : blk.capacity - toff < fuel)
    (header path : List UInt8) (i : ℕ) :
    ∃ r, readdirLoop blk heap vPath off fuel toff header path i = some r := by
  induction fuel generalizing toff header path i with
  | zero => exact absurd hfuel (Nat.not_lt_zero _)
  | succ fuel ih =>
    rw [readdirLoop]
    cases hstep : readdirStep blk heap vPath off toff header path i with
    | error e => exact ⟨_, rfl⟩
    | ok round =>
      cases round with
      | fail => exact ⟨_, rfl⟩
      | found mode name => exact ⟨_, rfl⟩
      | next toff' header' path' i' =>
        have hadvance := readdirStep_advances hcap vPath off hstep
        exact ih toff' (by omega) header' path' i'

omit hcap

end

namespace Cpio

/-- The fields of the header at an offset, if there is one. -/
def headerAt (content : List UInt8) (off : ℕ) : Option Fields :=
  let header := slice content off headerSize
  if header.length = headerSize ∧ slice header 0 6 = newcMagic then
    some ⟨headerField header 54, headerField header 94, headerField header 14,
      headerField header 46⟩
  else none

/-- The bytes that are read for a path; the end of the device can cut them off. -/
def pathAt (content : List UInt8) (off : ℕ) (f : Fields) : List UInt8 :=
  slice content (off + headerSize) f.nameSize

/-- A buffer after bytes have been stored from its beginning on. -/
def overlay (buf new : List UInt8) : List UInt8 := new ++ buf.drop new.length

/-- The entry ends the archive. -/
def EndsArchive (f : Fields) (path : List UInt8) : Prop :=
  f.size = 0 ∧ f.mode = 0 ∧ f.nameSize = 11 ∧ trailerName <+: path

/-- A loop that finds nothing reaches the offset, with these bytes in the buffer for paths. -/
inductive Scanned (content : List UInt8) : ℕ → List UInt8 → Prop
  | start : Scanned content 0 []
  | next {off : ℕ} {buf : List UInt8} {f : Fields} (h : Scanned content off buf)
    (hheader : headerAt content off = some f) (hpath : pathAt content off f ≠ [])
    (hend : ¬ EndsArchive f (overlay buf (pathAt content off f))) :
    Scanned content (nextHeader off f.nameSize f.size) (overlay buf (pathAt content off f))

/-- The last component of a path, which a `/` may follow. -/
def lastComponent (s : List UInt8) : List UInt8 :=
  (if s.getLast? = some 47 then s.dropLast else s).rtakeWhile (· ≠ 47)

/-- The entry fits the buffers: `new` is what has been read for its path, and `path` is what the
buffer holds then. -/
structure Fits (f : Fields) (new path : List UInt8) : Prop where
  length_le : new.length ≤ vfsMaxPath
  trailer : f.size = 0 → f.mode = 0 → f.nameSize = 11 → path <+: trailerName → path = trailerName
  ended : ¬ EndsArchive f path → path.headD 0 ≠ 46 →
    0 ∈ path ∧ (lastComponent (stripSlash (cstr path))).length < vfsMaxName

/-- Every entry that a loop can reach fits the buffers. -/
def AllFit (content : List UInt8) : Prop :=
  ∀ off buf f, Scanned content off buf → headerAt content off = some f →
    pathAt content off f ≠ [] → Fits f (pathAt content off f) (overlay buf (pathAt content off f))

end Cpio

/-- No call of `cpio_lookup` or `cpio_readdir` stores a byte behind a buffer, or compares one that
has not been stored. -/
def ScansInside (blk : Block) : Prop :=
  ∀ (heap : Bool) (vPath : List UInt8), 0 ∉ vPath → vPath.length < vfsMaxPath → ∀ fuel e,
    (∀ name, 0 ∉ name → lookupLoop blk heap vPath name fuel 0 [] [] ≠ some (.error e)) ∧
    ∀ off, readdirLoop blk heap vPath off fuel 0 [] [] 0 ≠ some (.error e)

/-! ## What is read of an entry -/

section

open Cpio

variable {blk : Block} {content buf : List UInt8} {off : ℕ} {f : Fields}

theorem endsArchive_cases (f : Fields) (path : List UInt8) :
    EndsArchive f path ∧ endsArchive f path = .ok true ∨
    (f.size = 0 ∧ f.mode = 0 ∧ f.nameSize = 11) ∧ path <+: trailerName ∧ path ≠ trailerName ∧
      endsArchive f path = .error .badAccess ∨
    ¬ EndsArchive f path ∧
      (f.size = 0 ∧ f.mode = 0 ∧ f.nameSize = 11 → ¬ path <+: trailerName) ∧
      endsArchive f path = .ok false := by
  unfold endsArchive
  by_cases htest : f.size = 0 ∧ f.mode = 0 ∧ f.nameSize = 11
  · rw [if_pos htest, show (10 : ℕ) = trailerName.length from rfl]
    rcases Raw.strncmp_cases (q := trailerName) (by decide) path with
      ⟨hpre, heq⟩ | ⟨hpre, hne, heq⟩ | ⟨hnot, hpre, r, hr, heq⟩
    · rw [heq]
      exact .inl ⟨⟨htest.1, htest.2.1, htest.2.2, hpre⟩, rfl⟩
    · rw [heq]
      exact .inr (.inl ⟨htest, hpre, hne, rfl⟩)
    · rw [heq]
      exact .inr (.inr ⟨fun hend => hnot hend.2.2.2, fun _ => hpre,
        congrArg Except.ok (decide_eq_false hr)⟩)
  · rw [if_neg htest]
    exact .inr (.inr ⟨fun hend => htest ⟨hend.1, hend.2.1, hend.2.2.1⟩,
      fun h => absurd h htest, rfl⟩)

theorem endsArchive_eq_ok {b : Bool} (h : endsArchive f path = .ok b) :
    b = true ↔ EndsArchive f path := by
  rcases endsArchive_cases f path with ⟨hend, heq⟩ | ⟨_, _, _, heq⟩ | ⟨hend, _, heq⟩
  · obtain rfl := Except.ok.inj (heq.symm.trans h)
    exact iff_of_true rfl hend
  · cases heq.symm.trans h
  · obtain rfl := Except.ok.inj (heq.symm.trans h)
    exact iff_of_false Bool.false_ne_true hend

theorem endsArchive_ne_error_iff : (∀ e, endsArchive f path ≠ .error e) ↔
    (f.size = 0 → f.mode = 0 → f.nameSize = 11 → path <+: trailerName → path = trailerName) := by
  rcases endsArchive_cases f path with ⟨hend, heq⟩ | ⟨htest, hpre, hne, heq⟩ | ⟨_, hpre, heq⟩
  · rw [heq]
    refine iff_of_true (by simp) fun _ _ _ hpre => ?_
    exact hpre.eq_of_length (le_antisymm hpre.length_le hend.2.2.2.length_le)
  · rw [heq]
    exact iff_of_false (fun h => h _ rfl) fun h => hne (h htest.1 htest.2.1 htest.2.2 hpre)
  · rw [heq]
    refine iff_of_true (by simp) fun hsize hmode hname hpre' => ?_
    exact absurd hpre' (hpre ⟨hsize, hmode, hname⟩)

theorem headerField_lt (header : List UInt8) (i : ℕ) : headerField header i < 2 ^ 32 :=
  Nat.mod_lt _ (Nat.two_pow_pos 32)

theorem magic_iff {s : List UInt8} (hlen : s.length = 6) :
    strncmp s newcMagic 6 = 0 ↔ s = newcMagic := by
  have hcmp := strncmp_eq_zero (q := newcMagic) (by decide) s
  rw [show newcMagic.length = 6 from rfl] at hcmp
  rw [hcmp]
  constructor
  · exact fun hpre => (hpre.eq_of_length hlen.symm).symm
  · rintro rfl
    exact List.prefix_rfl

theorem slice_overlay {new : List UInt8} (hlen : new.length = headerSize) {k : ℕ}
    (hik : i + k ≤ headerSize) : slice (overlay header new) i k = slice new i k :=
  Cpio.slice_append_left (by omega)

theorem headerField_overlay {new : List UInt8} (hlen : new.length = headerSize)
    (hi : i + 8 ≤ headerSize) : headerField (overlay header new) i = headerField new i := by
  rw [headerField, slice_overlay hlen hi, headerField]

theorem readInto_image (hdev : blk.ErrorFree content) (room off count : ℕ) (hlt : count < 2 ^ 32)
    (buf : List UInt8) : readInto blk true room buf off count = (do
      access ((slice content off count).length ≤ room)
      return ((slice content off count).length, overlay buf (slice content off count))) := by
  rw [readInto, blockRead_slice hdev hlt]
  simp only [List.length_map, storeBytes_map_some]
  rfl

theorem readEntry_image (hdev : blk.ErrorFree content) (off : ℕ) (header buf : List UInt8) :
    readEntry blk true off header buf = match headerAt content off with
      | none => .ok none
      | some f => do
        access ((pathAt content off f).length ≤ vfsMaxPath)
        if pathAt content off f = [] then return none
        if ← endsArchive f (overlay buf (pathAt content off f)) then return none
        return some (f, overlay header (slice content off headerSize),
          overlay buf (pathAt content off f)) := by
  have hlt := hdev.length_lt
  have hle : (slice content off headerSize).length ≤ headerSize := by
    rw [slice, List.length_take]
    omega
  rw [readEntry, readInto_image hdev headerSize off headerSize (by decide) header, access_pos hle,
    ok_bind, pure_bind]
  dsimp only
  by_cases hlen : (slice content off headerSize).length = headerSize
  · have hsix : (slice (slice content off headerSize) 0 6).length = 6 := slice_length (by
      rw [hlen]
      decide)
    rw [if_neg (not_not.mpr hlen), slice_overlay hlen (show 0 + 6 ≤ headerSize by decide)]
    by_cases hmagic : slice (slice content off headerSize) 0 6 = newcMagic
    · have hon : off + headerSize ≤ content.length := by
        rw [slice, List.length_take, List.length_drop] at hlen
        unfold headerSize at hlen ⊢
        omega
      let f : Fields := ⟨headerField (slice content off headerSize) 54,
        headerField (slice content off headerSize) 94,
        headerField (slice content off headerSize) 14,
        headerField (slice content off headerSize) 46⟩
      have hheader : headerAt content off = some f := if_pos ⟨hlen, hmagic⟩
      rw [if_neg (not_not.mpr ((magic_iff hsix).mpr hmagic)), hheader,
        headerField_overlay hlen (show 54 + 8 ≤ headerSize by decide),
        headerField_overlay hlen (show 94 + 8 ≤ headerSize by decide),
        headerField_overlay hlen (show 14 + 8 ≤ headerSize by decide),
        headerField_overlay hlen (show 46 + 8 ≤ headerSize by decide), wrap64_of_lt (by omega),
        readInto_image hdev vfsMaxPath _ _ (headerField_lt _ 94) buf]
      change ((access ((pathAt content off f).length ≤ vfsMaxPath) >>= fun _ =>
        pure ((pathAt content off f).length, overlay buf (pathAt content off f))) >>= _) = _
      rw [bind_assoc]
      simp only [pure_bind, List.length_eq_zero_iff]
      rfl
    · have hheader : headerAt content off = none := if_neg fun h => hmagic h.2
      rw [if_pos (fun h => hmagic ((magic_iff hsix).mp h)), hheader]
      rfl
  · have hheader : headerAt content off = none := if_neg fun h => hlen h.1
    rw [if_pos hlen, hheader]
    rfl

variable (hdev : blk.ErrorFree content) (hheader : headerAt content off = some f)
  (hpath : pathAt content off f ≠ [])

include hdev hheader hpath

theorem readEntry_eq_bind (hfit : (pathAt content off f).length ≤ vfsMaxPath)
    (header : List UInt8) : readEntry blk true off header buf = (do
      if ← endsArchive f (overlay buf (pathAt content off f)) then return none
      return some (f, overlay header (slice content off headerSize),
        overlay buf (pathAt content off f))) := by
  rw [readEntry_image hdev, hheader]
  dsimp only
  rw [access_pos hfit, ok_bind, if_neg hpath]

theorem readEntry_ne_error (header : List UInt8)
    (h : ∀ e, readEntry blk true off header buf ≠ .error e) :
    (pathAt content off f).length ≤ vfsMaxPath ∧
      ∀ e, endsArchive f (overlay buf (pathAt content off f)) ≠ .error e := by
  have hfit : (pathAt content off f).length ≤ vfsMaxPath := by
    by_contra hlong
    refine h .badAccess ?_
    rw [readEntry_image hdev, hheader]
    dsimp only
    rw [access_neg hlong, error_bind]
  refine ⟨hfit, fun e heq => h e ?_⟩
  rw [readEntry_eq_bind hdev hheader hpath hfit, heq, error_bind]

theorem readEntry_eq_some (header : List UInt8)
    (h : ∀ e, readEntry blk true off header buf ≠ .error e)
    (hend : ¬ EndsArchive f (overlay buf (pathAt content off f))) :
    readEntry blk true off header buf = .ok (some (f, overlay header (slice content off headerSize),
      overlay buf (pathAt content off f))) := by
  obtain ⟨hfit, htest⟩ := readEntry_ne_error hdev hheader hpath header h
  rw [readEntry_eq_bind hdev hheader hpath hfit]
  cases hb : endsArchive f (overlay buf (pathAt content off f)) with
  | error e => exact absurd hb (htest e)
  | ok b =>
    have hfalse : ¬ b = true := fun htrue => hend ((endsArchive_eq_ok hb).mp htrue)
    rw [ok_bind, if_neg hfalse]
    rfl

omit hdev hheader hpath

theorem overlay_ne_nil {new : List UInt8} (h : new ≠ []) (buf : List UInt8) :
    overlay buf new ≠ [] := List.append_ne_nil_of_left_ne_nil h _

theorem Cpio.AllFit.reads (hall : AllFit content) (hdev : blk.ErrorFree content)
    (hscan : Scanned content off buf) (header : List UInt8) :
    readEntry blk true off header buf = .ok none ∨ ∃ f header' path,
      readEntry blk true off header buf = .ok (some (f, header', path)) ∧ path ≠ [] ∧
      Scanned content (nextHeader off f.nameSize f.size) path ∧
      (path.headD 0 ≠ 46 → 0 ∈ path ∧
        (lastComponent (stripSlash (cstr path))).length < vfsMaxName) := by
  cases hheader : headerAt content off with
  | none =>
    rw [readEntry_image hdev, hheader]
    exact .inl rfl
  | some f =>
    by_cases hpath : pathAt content off f = []
    · rw [readEntry_image hdev, hheader]
      dsimp only
      rw [hpath, access_pos (by decide)]
      exact .inl rfl
    · obtain ⟨hfit, htrailer, hended⟩ := hall off buf f hscan hheader hpath
      rw [readEntry_eq_bind hdev hheader hpath hfit]
      cases hb : endsArchive f (overlay buf (pathAt content off f)) with
      | error e => exact absurd hb (endsArchive_ne_error_iff.mpr htrailer e)
      | ok b =>
        rw [ok_bind]
        cases b with
        | true => exact .inl rfl
        | false =>
          have hend : ¬ EndsArchive f (overlay buf (pathAt content off f)) := fun hend =>
            Bool.noConfusion ((endsArchive_eq_ok hb).mpr hend)
          exact .inr ⟨f, _, _, rfl, overlay_ne_nil hpath buf, hscan.next hheader hpath hend,
            hended hend⟩

end

/-! ## Components of paths -/

section

open Cpio

theorem rtakeWhile_append (hname : 47 ∉ name) (front : List UInt8) :
    name.length ≤ ((front ++ name).rtakeWhile (· ≠ 47)).length := by
  have hall : ∀ c ∈ name.reverse, decide (c ≠ 47) = true := by
    intro c hc
    refine decide_eq_true fun heq => hname ?_
    rw [← heq]
    exact List.mem_reverse.mp hc
  rw [List.rtakeWhile, List.reverse_append, List.takeWhile_append_of_pos hall, List.length_reverse,
    List.length_append, List.length_reverse]
  exact Nat.le_add_right _ _

theorem lastComponent_append (hname : 47 ∉ name) (front : List UInt8) :
    name.length ≤ (lastComponent (front ++ name)).length ∧
      name.length ≤ (lastComponent (front ++ name ++ [47])).length := by
  constructor
  · unfold lastComponent
    split_ifs with hlast
    · cases name using List.reverseRecOn with
      | nil => exact Nat.zero_le _
      | append_singleton name c =>
        rw [← List.append_assoc, List.getLast?_append, List.getLast?_singleton, Option.some_or,
          Option.some.injEq] at hlast
        exact absurd (List.mem_append_right name (hlast ▸ List.mem_singleton_self c)) hname
    · exact rtakeWhile_append hname front
  · unfold lastComponent
    rw [if_pos (by simp), List.dropLast_concat]
    exact rtakeWhile_append hname front

theorem length_le_lastComponent (h : listedAs vPath path = some name) :
    name.length ≤ (lastComponent (stripSlash path)).length := by
  unfold listedAs at h
  split_ifs at h with hprefix
  obtain ⟨rest, hrest⟩ := hprefix
  rw [← hrest, List.drop_left] at h
  dsimp only at h
  split_ifs at h with hnil hstrip
  obtain ⟨hslash, hname⟩ := withoutSlash_eq_some.mp h
  -- The path is `front`, then the name, and perhaps a `/`.
  obtain ⟨front, hfront⟩ : ∃ front, stripSlash path = front ++ stripSlash rest := by
    cases rest with
    | nil => exact absurd rfl hnil
    | cons c rest =>
      rw [stripSlash_cons, ← hrest]
      split_ifs
      · exact ⟨stripSlash vPath ++ [c], by simp⟩
      · exact ⟨stripSlash vPath, rfl⟩
  rw [hfront]
  rcases hname with heq | heq
  · rw [heq]
    exact (lastComponent_append hslash front).1
  · rw [heq, ← List.append_assoc]
    exact (lastComponent_append hslash front).2

theorem exists_listedAs (hpath : 0 ∉ path) (hne : lastComponent (stripSlash path) ≠ []) :
    ∃ vPath, 0 ∉ vPath ∧
      vPath.length + (lastComponent (stripSlash path)).length ≤ path.length + 1 ∧
      listedAs vPath path = some (lastComponent (stripSlash path)) := by
  set name := lastComponent (stripSlash path) with hname
  have hslash : 47 ∉ name := by
    intro hmem
    rw [hname, lastComponent] at hmem
    exact absurd (List.mem_rtakeWhile_imp hmem) (by simp)
  obtain ⟨front, tail, hsplit, htail⟩ : ∃ front tail, stripSlash path = front ++ (name ++ tail) ∧
      (tail = [] ∨ tail = [47]) := by
    rw [hname, lastComponent]
    split_ifs with hlast
    · refine ⟨((stripSlash path).dropLast).rdropWhile (· ≠ 47), [47], ?_, .inr rfl⟩
      rw [← List.append_assoc, List.rdropWhile_append_rtakeWhile]
      exact (List.dropLast_append_getLast? 47 hlast).symm
    · refine ⟨(stripSlash path).rdropWhile (· ≠ 47), [], ?_, .inl rfl⟩
      rw [List.append_nil, List.rdropWhile_append_rtakeWhile]
  have hlen := stripSlash_length_le path
  refine ⟨47 :: front, ?_, ?_, ?_⟩
  · refine List.not_mem_cons_of_ne_of_not_mem (by decide) fun hmem => ?_
    exact zero_notMem_stripSlash hpath (hsplit ▸ List.mem_append_left _ hmem)
  · rw [hsplit] at hlen
    simp only [List.length_append, List.length_cons] at hlen ⊢
    omega
  · have hrest : stripSlash (name ++ tail) = name ++ tail := by
      cases hcases : name with
      | nil => exact absurd hcases hne
      | cons c name' =>
        rw [List.cons_append, stripSlash_cons, if_neg]
        rintro rfl
        exact hslash (hcases ▸ List.mem_cons_self)
    have hnonempty : name ++ tail ≠ [] := List.append_ne_nil_of_left_ne_nil hne _
    rw [listedAs, stripSlash_cons, if_pos rfl, hsplit, if_pos (List.prefix_append _ _),
      List.drop_left]
    dsimp only
    rw [if_neg hnonempty, hrest, if_neg hnonempty, withoutSlash_eq_some]
    rcases htail with rfl | rfl
    · exact ⟨hslash, .inl (List.append_nil _)⟩
    · exact ⟨hslash, .inr rfl⟩

theorem getNextToken_ended (hvPath : 0 ∉ vPath) (hzero : 0 ∈ path)
    (hshort : (lastComponent (stripSlash (cstr path))).length < vfsMaxName) :
    getNextToken path vPath = .ok (listedAs vPath (cstr path)) := by
  have htoken : nextToken path vPath = .ok (listedAs vPath (cstr path)) :=
    (nextToken_decides hvPath).eq_ok hzero
  rw [getNextToken, htoken, ok_bind]
  cases hlisted : listedAs vPath (cstr path) with
  | none => rfl
  | some name =>
    have hle := length_le_lastComponent hlisted
    dsimp only
    rw [access_pos (hle.trans_lt hshort)]
    rfl

end

/-! ## Images that fit -/

section

open Cpio

variable {blk : Block} {content : List UInt8} (hdev : blk.ErrorFree content)
  (hall : AllFit content) {vPath : List UInt8} (hvPath : 0 ∉ vPath)

include hdev hall hvPath

theorem lookupStep_inside (hname : 0 ∉ name) {off : ℕ} (hscan : Scanned content off buf)
    (header : List UInt8) :
    ∃ round, lookupStep blk true vPath name off header buf = .ok round := by
  rcases hall.reads hdev hscan header with hentry | ⟨f, header', path, hentry, hne, _, hended⟩
  · rw [lookupStep, hentry]
    exact ⟨_, rfl⟩
  · have hfound : ∃ found, (if path.headD 0 ≠ 46 then checkPathRaw path vPath name
        else .ok false) = .ok found := by
      by_cases hdot : path.headD 0 ≠ 46
      · rw [if_pos hdot]
        exact ⟨_, (checkPathRaw_decides hvPath hname).eq_ok (hended hdot).1⟩
      · rw [if_neg hdot]
        exact ⟨false, rfl⟩
    obtain ⟨found, hfound⟩ := hfound
    rw [lookupStep_of_entry hentry hne, hfound, ok_bind]
    cases found with
    | true => exact ⟨_, rfl⟩
    | false => exact ⟨_, rfl⟩

theorem readdirStep_inside (hscan : Scanned content toff buf) (off : ℤ) (header : List UInt8)
    (i : ℕ) :
    ∃ round, readdirStep blk true vPath off toff header buf i = .ok round := by
  rcases hall.reads hdev hscan header with hentry | ⟨f, header', path, hentry, hne, _, hended⟩
  · rw [readdirStep, hentry]
    exact ⟨_, rfl⟩
  · rw [readdirStep_of_entry hentry hne]
    by_cases hdot : path.headD 0 = 46
    · rw [if_pos hdot]
      exact ⟨_, rfl⟩
    · obtain ⟨hzero, hshort⟩ := hended hdot
      rw [if_neg hdot, getNextToken_ended hvPath hzero hshort, ok_bind]
      cases listedAs vPath (cstr path) with
      | none => exact ⟨_, rfl⟩
      | some name =>
        dsimp only
        split_ifs <;> exact ⟨_, rfl⟩

omit hvPath

theorem scanned_next {off : ℕ} {f : Fields} (hscan : Scanned content off buf)
    (hentry : readEntry blk true off header buf = .ok (some (f, header', path)))
    (hoff : off' = nextHeader off f.nameSize f.size) : Scanned content off' path := by
  rcases hall.reads hdev hscan header with hnone | ⟨f₁, header₁, path₁, hsome, _, hnext, _⟩
  · cases hnone.symm.trans hentry
  · cases hsome.symm.trans hentry
    rw [hoff]
    exact hnext

include hvPath

theorem lookupLoop_inside (hname : 0 ∉ name) (fuel off : ℕ) (header buf : List UInt8)
    (hscan : Scanned content off buf) (e : Fault) :
    lookupLoop blk true vPath name fuel off header buf ≠ some (.error e) := by
  induction fuel generalizing off header buf with
  | zero => simp [lookupLoop]
  | succ fuel ih =>
    obtain ⟨round, hstep⟩ := lookupStep_inside hdev hall hvPath hname hscan header
    rw [lookupLoop, hstep]
    cases round with
    | fail => simp
    | found r => simp
    | next off' header' path' =>
      obtain ⟨f, hentry, hoff⟩ := lookupStep_next hstep
      exact ih off' header' path' (scanned_next hdev hall hscan hentry hoff)

theorem readdirLoop_inside (off : ℤ) (fuel toff : ℕ) (header buf : List UInt8) (i : ℕ)
    (hscan : Scanned content toff buf) (e : Fault) :
    readdirLoop blk true vPath off fuel toff header buf i ≠ some (.error e) := by
  induction fuel generalizing toff header buf i with
  | zero => simp [readdirLoop]
  | succ fuel ih =>
    obtain ⟨round, hstep⟩ := readdirStep_inside hdev hall hvPath hscan off header i
    rw [readdirLoop, hstep]
    cases round with
    | fail => simp
    | found mode name => simp
    | next toff' header' path' i' =>
      obtain ⟨f, hentry, hoff⟩ := readdirStep_next hstep
      exact ih toff' header' path' i' (scanned_next hdev hall hscan hentry hoff)

end

/-! ## Images that do not fit -/

section

open Cpio

variable {blk : Block} {content : List UInt8} {off : ℕ} {buf header vPath name : List UInt8}

theorem lookupStep_ne_error (fuel : ℕ)
    (h : ∀ e, lookupLoop blk true vPath name (fuel + 1) off header buf ≠ some (.error e))
    (e : Fault) : lookupStep blk true vPath name off header buf ≠ .error e := by
  intro heq
  refine h e ?_
  rw [lookupLoop, heq]

theorem readdirStep_ne_error (fuel : ℕ) {k : ℤ}
    (h : ∀ e, readdirLoop blk true vPath k (fuel + 1) off header buf i ≠ some (.error e))
    (e : Fault) : readdirStep blk true vPath k off header buf i ≠ .error e := by
  intro heq
  refine h e ?_
  rw [readdirLoop, heq]

theorem readEntry_of_lookupStep
    (h : ∀ e, lookupStep blk true vPath name off header buf ≠ .error e) (e : Fault) :
    readEntry blk true off header buf ≠ .error e := by
  intro heq
  refine h e ?_
  rw [lookupStep, heq, error_bind]

theorem readEntry_of_readdirStep {k : ℤ}
    (h : ∀ e, readdirStep blk true vPath k off header buf i ≠ .error e) (e : Fault) :
    readEntry blk true off header buf ≠ .error e := by
  intro heq
  refine h e ?_
  rw [readdirStep, heq, error_bind]

theorem root_notMem : (0 : UInt8) ∉ [47] := by decide

theorem checkPathRaw_ne_true (hname : 0 ∉ name) (hlong : vfsMaxPath ≤ name.length)
    (hpath : path.length ≤ vfsMaxPath) :
    checkPathRaw path [47] name ≠ .ok true := by
  have hdecides := checkPathRaw_decides root_notMem hname
  intro heq
  by_cases hzero : 0 ∈ path
  · obtain ⟨s, rest, rfl, hs⟩ := List.eq_append_cons_of_mem hzero
    have hcheck := Except.ok.inj ((hdecides.ended s rest hs).symm.trans heq)
    obtain ⟨rest', hrest, hstrip⟩ := (checkPath_iff hs root_notMem hname).mp hcheck
    have hroot : stripSlash [47] = [] := rfl
    rw [hroot, List.nil_append] at hrest
    have hle := stripSlash_length_le rest'
    have hle' := stripSlash_length_le s
    rw [List.length_append, List.length_cons] at hpath
    rw [hstrip] at hle
    rw [hrest] at hle'
    omega
  · by_cases hlive : ∃ s, 0 ∉ s ∧ checkPath (path ++ s) [47] name ≠ false
    · cases (hdecides.cut_live path hzero hlive).symm.trans heq
    · have hdead : ∀ s, 0 ∉ s → checkPath (path ++ s) [47] name = false :=
        fun s hs => not_not.mp fun hne => hlive ⟨s, hs, hne⟩
      cases (hdecides.cut_dead path hzero hdead).symm.trans heq

theorem overlay_length_le {new : List UInt8} (hbuf : buf.length ≤ vfsMaxPath)
    (hnew : new.length ≤ vfsMaxPath) : (overlay buf new).length ≤ vfsMaxPath := by
  rw [overlay, List.length_append, List.length_drop]
  omega

theorem lookup_reaches (hdev : blk.ErrorFree content) (hinside : ScansInside blk) (hname : 0 ∉ name)
    (hlong : vfsMaxPath ≤ name.length) (hscan : Scanned content off buf) :
    buf.length ≤ vfsMaxPath ∧ ∀ fuel, ∃ k header,
      lookupLoop blk true [47] name (k + fuel) 0 [] [] =
        lookupLoop blk true [47] name fuel off header buf := by
  induction hscan with
  | start => exact ⟨by decide, fun fuel => ⟨0, [], by rw [Nat.zero_add]⟩⟩
  | @next off buf f hscan hheader hpath hend ih =>
    obtain ⟨hbuf, hreach⟩ := ih
    have hstep : ∀ fuel, ∃ k header, (pathAt content off f).length ≤ vfsMaxPath ∧
        lookupLoop blk true [47] name (k + fuel) 0 [] [] =
          lookupLoop blk true [47] name fuel (nextHeader off f.nameSize f.size) header
            (overlay buf (pathAt content off f)) := by
      intro fuel
      obtain ⟨k, header, heq⟩ := hreach (fuel + 1)
      have hloop := fun e =>
        (hinside true [47] (by decide) (by decide) (k + (fuel + 1)) e).1 name hname
      rw [heq] at hloop
      have hround := lookupStep_ne_error fuel hloop
      have hentry := readEntry_of_lookupStep hround
      have hfit := (readEntry_ne_error hdev hheader hpath header hentry).1
      have hsome := readEntry_eq_some hdev hheader hpath header hentry hend
      have hnext : lookupStep blk true [47] name off header buf =
          .ok (.next (nextHeader off f.nameSize f.size)
            (overlay header (slice content off headerSize))
            (overlay buf (pathAt content off f))) := by
        rw [lookupStep_of_entry hsome (overlay_ne_nil hpath buf)] at hround ⊢
        have hmiss := checkPathRaw_ne_true hname hlong (overlay_length_le hbuf hfit)
        cases hfound : (if (overlay buf (pathAt content off f)).headD 0 ≠ 46 then
            checkPathRaw (overlay buf (pathAt content off f)) [47] name else .ok false) with
        | error e =>
          rw [hfound] at hround
          exact absurd rfl (hround e)
        | ok found =>
          cases found with
          | false => rfl
          | true =>
            split_ifs at hfound
            · exact absurd hfound hmiss
            · cases hfound
      refine ⟨k + 1, overlay header (slice content off headerSize), hfit, ?_⟩
      rw [Nat.add_assoc, Nat.add_comm 1 fuel, heq, lookupLoop, hnext]
    refine ⟨?_, fun fuel => ?_⟩
    · obtain ⟨_, _, hfit, _⟩ := hstep 0
      exact overlay_length_le hbuf hfit
    · obtain ⟨k, header, _, heq⟩ := hstep fuel
      exact ⟨k, header, heq⟩

theorem readdir_reaches (hdev : blk.ErrorFree content) (hinside : ScansInside blk)
    (hvPath : 0 ∉ vPath) (hshort : vPath.length < vfsMaxPath) {never : ℤ}
    (hnever : ∀ i : ℕ, toInt32 i ≠ never) (hscan : Scanned content off buf) :
    ∀ fuel, ∃ k header i, readdirLoop blk true vPath never (k + fuel) 0 [] [] 0 =
      readdirLoop blk true vPath never fuel off header buf i := by
  induction hscan with
  | start => exact fun fuel => ⟨0, [], 0, by rw [Nat.zero_add]⟩
  | @next off buf f hscan hheader hpath hend ih =>
    intro fuel
    obtain ⟨k, header, i, heq⟩ := ih (fuel + 1)
    have hloop := fun e => (hinside true vPath hvPath hshort (k + (fuel + 1)) e).2 never
    rw [heq] at hloop
    have hround := readdirStep_ne_error fuel hloop
    have hentry := readEntry_of_readdirStep hround
    have hsome := readEntry_eq_some hdev hheader hpath header hentry hend
    obtain ⟨i', hnext⟩ : ∃ i', readdirStep blk true vPath never off header buf i =
        .ok (.next (nextHeader off f.nameSize f.size)
          (overlay header (slice content off headerSize))
          (overlay buf (pathAt content off f)) i') := by
      rw [readdirStep_of_entry hsome (overlay_ne_nil hpath buf)] at hround ⊢
      by_cases hdot : (overlay buf (pathAt content off f)).headD 0 = 46
      · exact ⟨i, if_pos hdot⟩
      · rw [if_neg hdot] at hround ⊢
        cases htoken : getNextToken (overlay buf (pathAt content off f)) vPath with
        | error e =>
          rw [htoken] at hround
          exact absurd rfl (hround e)
        | ok token =>
          cases token with
          | none => exact ⟨i, rfl⟩
          | some name =>
            refine ⟨i + 1, ?_⟩
            rw [ok_bind]
            dsimp only
            rw [if_neg (hnever i)]
    refine ⟨k + 1, overlay header (slice content off headerSize), i', ?_⟩
    rw [Nat.add_assoc, Nat.add_comm 1 fuel, heq, readdirLoop, hnext]

theorem stripSlash_append (s : List UInt8) {t : List UInt8} (ht : t.headD 0 ≠ 47) :
    stripSlash (s ++ t) = stripSlash s ++ t := by
  cases s with
  | nil => exact if_neg ht
  | cons c s =>
    rw [List.cons_append, stripSlash_cons, stripSlash_cons]
    split_ifs <;> rfl

theorem zero_notMem_long : 0 ∉ List.replicate vfsMaxPath (1 : UInt8) :=
  fun hmem => absurd (List.eq_of_mem_replicate hmem) (by decide)

theorem checkPathRaw_error (hzero : 0 ∉ path) :
    ∃ name, 0 ∉ name ∧ vfsMaxPath ≤ name.length ∧
      checkPathRaw path [47] name = .error .badAccess := by
  have hname : 0 ∉ stripSlash (stripSlash path) ++ List.replicate vfsMaxPath 1 :=
    List.not_mem_append (zero_notMem_stripSlash (zero_notMem_stripSlash hzero)) zero_notMem_long
  refine ⟨_, hname, ?_, ?_⟩
  · rw [List.length_append, List.length_replicate]
    exact Nat.le_add_left _ _
  · refine (checkPathRaw_decides root_notMem hname).cut_live path hzero ⟨_, zero_notMem_long, ?_⟩
    have hlong := List.not_mem_append hzero zero_notMem_long
    have hcheck := (checkPath_iff hlong root_notMem hname).mpr
      ⟨stripSlash (path ++ List.replicate vfsMaxPath 1), rfl, by
        rw [stripSlash_append _ (by decide), stripSlash_append _ (by decide)]⟩
    rw [hcheck]
    decide

theorem cstr_length_lt (h : 0 ∈ path) :
    0 ∉ cstr path ∧ (cstr path).length < path.length := by
  obtain ⟨s, rest, rfl, hs⟩ := List.eq_append_cons_of_mem h
  have hcstr : cstr (s ++ 0 :: rest) = s := by
    have hsplit := cstr_append_zero hs rest
    rwa [List.append_assoc, List.singleton_append] at hsplit
  rw [hcstr, List.length_append, List.length_cons]
  exact ⟨hs, by omega⟩

theorem getNextToken_error {token : List UInt8} (hvPath : 0 ∉ vPath) (hzero : 0 ∈ path)
    (hlisted : listedAs vPath (cstr path) = some token) (hlong : ¬ token.length < vfsMaxName) :
    getNextToken path vPath = .error .badAccess := by
  have htoken : nextToken path vPath = .ok (some token) :=
    ((nextToken_decides hvPath).eq_ok hzero).trans (congrArg Except.ok hlisted)
  rw [getNextToken, htoken, ok_bind]
  dsimp only
  rw [access_neg hlong, error_bind]

variable (hdev : blk.ErrorFree content) (hinside : ScansInside blk)
  (hscan : Scanned content off buf)

include hdev hinside hscan

theorem lookupStep_atEntry (hname : 0 ∉ name) (hlong : vfsMaxPath ≤ name.length) :
    ∃ header, ∀ e, lookupStep blk true [47] name off header buf ≠ .error e := by
  obtain ⟨k, header, heq⟩ := (lookup_reaches hdev hinside hname hlong hscan).2 1
  refine ⟨header, lookupStep_ne_error 0 fun e => ?_⟩
  rw [Nat.zero_add, ← heq]
  exact (hinside true [47] root_notMem (by decide) (k + 1) e).1 name hname

theorem readdirStep_atEntry (hvPath : 0 ∉ vPath) (hshort : vPath.length < vfsMaxPath) :
    ∃ header i, ∀ e, readdirStep blk true vPath (2 ^ 31) off header buf i ≠ .error e := by
  obtain ⟨k, header, i, heq⟩ := readdir_reaches hdev hinside hvPath hshort
    (fun i => (toInt32_natCast_lt i).ne) hscan 1
  refine ⟨header, i, readdirStep_ne_error 0 fun e => ?_⟩
  rw [Nat.zero_add, ← heq]
  exact (hinside true vPath hvPath hshort (k + 1) e).2 _

omit hscan

theorem allFit_of_scansInside : AllFit content := by
  intro off buf f hscan hheader hpath
  obtain ⟨header, hround⟩ :=
    lookupStep_atEntry hdev hinside hscan zero_notMem_long List.length_replicate.ge
  have hentry := readEntry_of_lookupStep hround
  obtain ⟨hfit, htest⟩ := readEntry_ne_error hdev hheader hpath header hentry
  refine ⟨hfit, endsArchive_ne_error_iff.mp htest, fun hend hdot => ?_⟩
  have hne := overlay_ne_nil hpath buf
  have hzero : 0 ∈ overlay buf (pathAt content off f) := by
    by_contra hzero
    obtain ⟨name, hname, hlong, hfault⟩ := checkPathRaw_error hzero
    obtain ⟨header, hround⟩ := lookupStep_atEntry hdev hinside hscan hname hlong
    have hsome := readEntry_eq_some hdev hheader hpath header (readEntry_of_lookupStep hround) hend
    refine hround .badAccess ?_
    rw [lookupStep_of_entry hsome hne, if_pos hdot, hfault, error_bind]
  refine ⟨hzero, ?_⟩
  by_contra hlong
  obtain ⟨hcstr, hended⟩ := cstr_length_lt hzero
  have hbuf : buf.length ≤ vfsMaxPath :=
    (lookup_reaches hdev hinside zero_notMem_long List.length_replicate.ge hscan).1
  have hpath_le := overlay_length_le hbuf hfit
  obtain ⟨vPath, hvPath, hlen, hlisted⟩ := exists_listedAs hcstr fun hnil => hlong (by
    rw [hnil]
    decide)
  have hshort : vPath.length < vfsMaxPath := by
    unfold vfsMaxName at hlong
    unfold vfsMaxPath at hpath_le ⊢
    omega
  obtain ⟨header, i, hround⟩ := readdirStep_atEntry hdev hinside hscan hvPath hshort
  have hsome := readEntry_eq_some hdev hheader hpath header (readEntry_of_readdirStep hround) hend
  refine hround .badAccess ?_
  rw [readdirStep_of_entry hsome hne, if_neg hdot, getNextToken_error hvPath hzero hlisted hlong,
    error_bind]

end

theorem readEntry_noHeap (blk : Block) : readEntry blk false 0 [] [] = .ok none := by
  have hread : blockRead blk false 0 headerSize = (0, []) := by
    simp [blockRead, blockReadRun, ReadRun.start]
  rw [readEntry, readInto, hread]
  rfl

theorem Cpio.scanned_plain {off : ℕ} (h : Scanned (encodeArchive trailerEntry [plainEntry]) off buf)
    :
    (off = 0 ∧ buf = []) ∨ (off = 112 ∧ buf = [97, 0]) := by
  induction h with
  | start => exact .inl ⟨rfl, rfl⟩
  | @next off buf f _ hheader hpath hend ih =>
    rcases ih with ⟨rfl, rfl⟩ | ⟨rfl, rfl⟩
    · have hplain : headerAt (encodeArchive trailerEntry [plainEntry]) 0 =
          some plainEntry.fields := by decide +kernel
      obtain rfl := Option.some.inj (hplain.symm.trans hheader)
      right
      constructor <;> decide +kernel
    · have htrailer : headerAt (encodeArchive trailerEntry [plainEntry]) 112 =
          some trailerEntry.fields := by decide +kernel
      obtain rfl := Option.some.inj (htrailer.symm.trans hheader)
      exact absurd ⟨rfl, rfl, rfl, by decide +kernel⟩ hend

/-- An image with the header of a regular file, a size for its path, and other bytes. -/
def Cpio.image (nameSize : ℕ) (bytes : List UInt8) : List UInt8 :=
  newcMagic ++ hex8 0 ++ hex8 0o100644 ++ (hex8 0 ++ hex8 0 ++ hex8 1) ++ hex8 0 ++ hex8 0 ++
    (hex8 0 ++ hex8 0 ++ hex8 0 ++ hex8 0) ++ hex8 nameSize ++ hex8 0 ++ bytes

end Ginkgo.Fs
