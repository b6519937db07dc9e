import Ginkgo.Driver.Block
import Ginkgo.Fs.CpioPath

/-!
# Archives as file systems

The model of `cpio_lookup` and `cpio_read`: a mounted archive in the newc format is a list of
files.  Every entry has a header of 110 characters, whose numbers have eight hexadecimal digits, a
path and the data; path and data are padded to multiples of four, and an entry `TRAILER!!!` ends
the archive.

A buffer on the stack is the list of its bytes that have been stored, from its beginning on; a
function that reads behind them, or that stores bytes behind the buffer, ends with a fault.  What
the loop of `cpio_lookup` does in one round is `lookupStep`; `cpioLookup` gives `none` if the loop
has not ended after the given number of rounds.

## Main results

* `cpioLookup_refines` — a lookup finds the first entry of the list that has the path,
  and a read delivers its data if it is a regular file.
-/

namespace Ginkgo.Fs

open Driver Libc

/-! ## Headers -/

/-- The bytes of a buffer after others have been stored from its beginning on. -/
def storeBytes : List UInt8 → List (Option UInt8) → List UInt8
  | buf, [] => buf
  | c :: buf, b :: stored => b.getD c :: storeBytes buf stored
  | [], some b :: stored => b :: storeBytes [] stored
  -- Behind a byte that has never been stored the others can not be told apart from it.
  | [], none :: _ => []

/-- What `block_read` leaves in a buffer that has room for `room` bytes. -/
def readInto (blk : Block) (heap : Bool) (room : ℕ) (buf : List UInt8) (off count : ℕ) :
    Except Fault (ℕ × List UInt8) := do
  let (rd, stored) := blockRead blk heap off count
  access (stored.length ≤ room)
  return (rd, storeBytes buf stored)

/-- `sizeof(struct cpio_newc_header_t)`. -/
def headerSize : ℕ := 110

/-- The string that begins at the beginning of a buffer. -/
def cstr (buf : List UInt8) : List UInt8 := buf.takeWhile (· ≠ 0)

/-- The number in the eight characters of the header from `i` on, as an `u32_t`. -/
def headerField (header : List UInt8) (i : ℕ) : ℕ := strtoul (cstr (slice header i 8)) 16 % 2 ^ 32

/-- `"070701"`. -/
def newcMagic : List UInt8 := [48, 55, 48, 55, 48, 49]

/-- `"TRAILER!!!"`. -/
def trailerName : List UInt8 := [84, 82, 65, 73, 76, 69, 82, 33, 33, 33]

/-- `((name_size + 1) & ~3) + 2`, an `u32_t`. -/
def nameSpan (nameSize : ℕ) : ℕ := (((nameSize + 1) % 2 ^ 32 &&& 0xFFFFFFFC) + 2) % 2 ^ 32

/-- The header after the one at `off`. -/
def nextHeader (off nameSize size : ℕ) : ℕ :=
  let off := wrap64 (off + headerSize)
  let off := wrap64 (off + (nameSpan nameSize + size) % 2 ^ 32)
  wrap64 (off + 3) &&& not64 3

/-! ## Modes -/

/-- `v_type` and the bit of `v_mode` for the type of the file. -/
def decodeType (mode : ℕ) : NodeType × ℕ :=
  if mode &&& 0o170000 = 0o140000 then (.sock, 1 <<< 22)
  else if mode &&& 0o170000 = 0o120000 then (.lnk, 1 <<< 20)
  else if mode &&& 0o170000 = 0o100000 then (.reg, 1 <<< 19)
  else if mode &&& 0o170000 = 0o060000 then (.blk, 1 <<< 18)
  else if mode &&& 0o170000 = 0o040000 then (.dir, 1 <<< 16)
  else if mode &&& 0o170000 = 0o020000 then (.chr, 1 <<< 17)
  else if mode &&& 0o170000 = 0o010000 then (.fifo, 1 <<< 21)
  else (.reg, 0)

/-- `(mode & mask) ? bit : 0`. -/
def permission (mode mask bit : ℕ) : ℕ := if mode &&& mask ≠ 0 then bit else 0

/-- `v_mode`. -/
def decodeMode (mode : ℕ) : ℕ :=
  (decodeType mode).2 ||| permission mode 0o400 (1 <<< 8) ||| permission mode 0o200 (1 <<< 7) |||
    permission mode 0o100 (1 <<< 6) ||| permission mode 0o040 (1 <<< 5) |||
    permission mode 0o020 (1 <<< 4) ||| permission mode 0o010 (1 <<< 3) |||
    permission mode 0o004 (1 <<< 2) ||| permission mode 0o002 (1 <<< 1) |||
    permission mode 0o001 (1 <<< 0)

/-! ## Lookups and reads -/

/-- What the loop of `cpio_lookup` has read when it stops at an entry. -/
structure Found where
  off : ℕ
  size : ℕ
  nameSize : ℕ
  mode : ℕ
  mtime : ℕ
deriving DecidableEq

/-- How a round of the loop of `cpio_lookup` ends. -/
inductive Round
  /-- `return -1`. -/
  | fail
  /-- `break`. -/
  | found (r : Found)
  /-- The next round, with what is on the stack. -/
  | next (off : ℕ) (header path : List UInt8)
deriving DecidableEq

/-- The fields of a header that the loops use. -/
structure Fields where
  size : ℕ
  nameSize : ℕ
  mode : ℕ
  mtime : ℕ
deriving DecidableEq

/-- The test for the entry that ends an archive. -/
def endsArchive (f : Fields) (path : List UInt8) : Except Fault Bool :=
  if f.size = 0 ∧ f.mode = 0 ∧ f.nameSize = 11 then
    (Raw.strncmp path trailerName 10).map fun r => decide (r = 0)
  else .ok false

/-- The part that the loops of `cpio_lookup` and `cpio_readdir` have in common: the header at `off`
and the path after it; nothing for `return -1`. -/
def readEntry (blk : Block) (heap : Bool) (off : ℕ) (header path : List UInt8) :
    Except Fault (Option (Fields × List UInt8 × List UInt8)) := do
  let (rd, header) ← readInto blk heap headerSize header off headerSize
  if rd ≠ headerSize then return none
  if strncmp (slice header 0 6) newcMagic 6 ≠ 0 then return none
  let f : Fields := {
    size := headerField header 54
    nameSize := headerField header 94
    mode := headerField header 14
    mtime := headerField header 46 }
  let (rd, path) ← readInto blk heap vfsMaxPath path (wrap64 (off + headerSize)) f.nameSize
  if rd = 0 then return none
  if ← endsArchive f path then return none
  return some (f, header, path)

/-- A round of the loop of `cpio_lookup`. -/
def lookupStep (blk : Block) (heap : Bool) (vPath name : List UInt8) (off : ℕ)
    (header path : List UInt8) : Except Fault Round := do
  match ← readEntry blk heap off header path with
  | none => return .fail
  | some (f, header, path) =>
    let c ← Raw.first path
    let found ← (if c ≠ 46 then checkPathRaw path vPath name else .ok false)
    if found then return .found ⟨off, f.size, f.nameSize, f.mode, f.mtime⟩
    return .next (nextHeader off f.nameSize f.size) header path

/-- The loop of `cpio_lookup`. -/
def lookupLoop (blk : Block) (heap : Bool) (vPath name : List UInt8) :
    ℕ → ℕ → List UInt8 → List UInt8 → Option (Except Fault (Option Found))
  | 0, _, _, _ => none
  | fuel + 1, off, header, path =>
    match lookupStep blk heap vPath name off header path with
    | .error e => some (.error e)
    | .ok .fail => some (.ok none)
    | .ok (.found r) => some (.ok (some r))
    | .ok (.next off header path) => lookupLoop blk heap vPath name fuel off header path

/-- `struct vfs_node_t`, as far as the file system of an archive is concerned. -/
structure CpioNode where
  atime : ℕ
  mtime : ℕ
  ctime : ℕ
  mode : ℕ
  type : NodeType
  size : ℤ
  data : ℕ
deriving DecidableEq

/-- The node of an entry. -/
def Found.node (r : Found) : CpioNode where
  atime := r.mtime
  mtime := r.mtime
  ctime := r.mtime
  mode := decodeMode r.mode
  type := (decodeType r.mode).1
  size := r.size
  data := wrap64 (wrap64 (r.off + headerSize) + nameSpan r.nameSize)

/-- `cpio_lookup`: what it returns, and the node afterwards.  `vPath` is the path of the directory;
`header` and `path` are on the stack. -/
def cpioLookup (blk : Block) (heap : Bool) (fuel : ℕ) (vPath name header path : List UInt8)
    (n : CpioNode) : Option (Except Fault (ℤ × CpioNode)) :=
  (lookupLoop blk heap vPath name fuel 0 header path).map fun result =>
    result.map fun
      | none => (-1, n)
      | some r => (0, r.node)

/-- `cpio_read`: the number of bytes and what has been stored. -/
def cpioRead (blk : Block) (heap : Bool) (n : CpioNode) (off : ℤ) (len : ℕ) :
    ℕ × List (Option UInt8) :=
  if n.type ≠ .reg then (0, [])
  else if n.size ≤ off then (0, [])
  else
    -- The difference and the offset become `u64_t` values.
    let rest := ((n.size - off) % 2 ^ 64).toNat
    let sz := if rest < len then rest else len
    blockRead blk heap (wrap64 (n.data + (off % 2 ^ 64).toNat)) sz

/-! ## The format -/

namespace Cpio

/-- The next multiple of four. -/
def roundUp4 (n : ℕ) : ℕ := (n + 3) / 4 * 4

/-- A file of an archive. -/
structure Entry where
  name : List UInt8
  mode : ℕ
  mtime : ℕ
  data : List UInt8
  /-- The path is a string. -/
  zero_notMem : 0 ∉ name
  /-- The path fits into the buffer for it. -/
  name_lt : name.length < vfsMaxPath
  mode_lt : mode < 2 ^ 32
  mtime_lt : mtime < 2 ^ 32
  /-- The size of the entry up to the end of its data is an `u32_t`. -/
  size_lt : roundUp4 (headerSize + (name.length + 1)) + data.length < 2 ^ 32

namespace Entry

variable (e : Entry)

/-- Where the data of an entry begin: after the header and the path with its `NUL`. -/
def dataOffset : ℕ := roundUp4 (headerSize + (e.name.length + 1))

/-- The size of an entry. -/
def span : ℕ := roundUp4 (e.dataOffset + e.data.length)

/-- The entry is the one that ends an archive. -/
def IsTrailer : Prop := e.name = trailerName ∧ e.mode = 0 ∧ e.data = []

instance : Decidable e.IsTrailer := by
  unfold IsTrailer
  infer_instance

/-- The entry is the file with the given name in a directory. -/
def HasPath (vPath name : List UInt8) : Prop :=
  e.name.headD 0 ≠ 46 ∧ checkPath e.name vPath name = true

instance (vPath name : List UInt8) : Decidable (e.HasPath vPath name) := by
  unfold HasPath
  infer_instance

end Entry

/-- The bytes are an entry of an archive: the fields of the header, the path and the data. -/
structure Encodes (e : Entry) (bs : List UInt8) : Prop where
  length_eq : bs.length = e.span
  magic : slice bs 0 6 = newcMagic
  mode : IsHex (slice bs 14 8) e.mode
  mtime : IsHex (slice bs 46 8) e.mtime
  filesize : IsHex (slice bs 54 8) e.data.length
  namesize : IsHex (slice bs 94 8) (e.name.length + 1)
  name : slice bs headerSize (e.name.length + 1) = e.name ++ [0]
  data : slice bs e.dataOffset e.data.length = e.data

/-- The bytes begin with the archive of a list of files. -/
inductive Archive : List Entry → List UInt8 → Prop
  | trailer {e : Entry} {bs rest : List UInt8} (he : e.IsTrailer) (hbs : Encodes e bs) :
    Archive [] (bs ++ rest)
  | entry {e : Entry} {es : List Entry} {bs rest : List UInt8} (he : ¬ e.IsTrailer)
    (hbs : Encodes e bs) (hrest : Archive es rest) : Archive (e :: es) (bs ++ rest)

/-- The type of a file and the bit of `v_mode` for it, by the highest digit of its mode to the base
16; other digits stand for regular files. -/
def fileType (mode : ℕ) : NodeType × ℕ :=
  match mode / 2 ^ 12 % 16 with
  | 12 => (.sock, 2 ^ 22)
  | 10 => (.lnk, 2 ^ 20)
  | 8 => (.reg, 2 ^ 19)
  | 6 => (.blk, 2 ^ 18)
  | 4 => (.dir, 2 ^ 16)
  | 2 => (.chr, 2 ^ 17)
  | 1 => (.fifo, 2 ^ 21)
  | _ => (.reg, 0)

/-- The node describes the file, and a read delivers its data if it is a regular file. -/
structure Represents (blk : Block) (n : CpioNode) (e : Entry) : Prop where
  size_eq : n.size = e.data.length
  type_eq : n.type = (fileType e.mode).1
  mode_eq : n.mode = (fileType e.mode).2 ||| e.mode % 2 ^ 9
  mtime_eq : n.mtime = e.mtime
  read_eq : ∀ off len : ℕ, n.type = .reg →
    cpioRead blk true n off len =
      ((slice e.data off len).length, (slice e.data off len).map some)
  read_other : ∀ off len : ℕ, n.type ≠ .reg → cpioRead blk true n off len = (0, [])

end Cpio

/-! ## Decoding of modes -/

theorem and_fileType (mode : ℕ) : mode &&& 0o170000 = mode / 2 ^ 12 % 16 * 2 ^ 12 := by
  have hmask : mode &&& 0o170000 = mode % 2 ^ 16 &&& (2 ^ 16 - 2 ^ 12) := by
    rw [← Nat.and_two_pow_sub_one_eq_mod, Nat.and_assoc]
    rfl
  rw [hmask, Bits.and_highMask (Nat.mod_lt _ (by norm_num)) (by norm_num)]
  omega

theorem decodeType_eq (mode : ℕ) : decodeType mode = Cpio.fileType mode := by
  unfold decodeType Cpio.fileType
  rw [and_fileType]
  generalize hd : mode / 2 ^ 12 % 16 = d
  have hlt : d < 16 := by omega
  clear hd
  revert d
  decide

theorem permission_two_pow (mode i : ℕ) : permission mode (2 ^ i) (2 ^ i) = mode &&& 2 ^ i := by
  rw [permission, Nat.and_two_pow]
  cases mode.testBit i <;> simp

theorem decodeMode_eq (mode : ℕ) :
    decodeMode mode = (Cpio.fileType mode).2 ||| mode % 2 ^ 9 := by
  have hperm : ∀ i, permission mode (2 ^ i) (1 <<< i) = mode &&& 2 ^ i := by
    intro i
    rw [Nat.one_shiftLeft, permission_two_pow]
  have hmask : mode % 2 ^ 9 = mode &&& (2 ^ 8 ||| 2 ^ 7 ||| 2 ^ 6 ||| 2 ^ 5 ||| 2 ^ 4 ||| 2 ^ 3 |||
      2 ^ 2 ||| 2 ^ 1 ||| 2 ^ 0) := by
    rw [← Nat.and_two_pow_sub_one_eq_mod]
    rfl
  calc decodeMode mode
      = (decodeType mode).2 ||| permission mode (2 ^ 8) (1 <<< 8) |||
          permission mode (2 ^ 7) (1 <<< 7) ||| permission mode (2 ^ 6) (1 <<< 6) |||
          permission mode (2 ^ 5) (1 <<< 5) ||| permission mode (2 ^ 4) (1 <<< 4) |||
          permission mode (2 ^ 3) (1 <<< 3) ||| permission mode (2 ^ 2) (1 <<< 2) |||
          permission mode (2 ^ 1) (1 <<< 1) ||| permission mode (2 ^ 0) (1 <<< 0) := rfl
    _ = (Cpio.fileType mode).2 ||| mode % 2 ^ 9 := by
        simp only [hperm, decodeType_eq, hmask, Nat.and_or_distrib_left, Nat.or_assoc]

/-! ## Rounds of a lookup -/

theorem lookupStep_of_entry {blk : Block} {heap : Bool} {off : ℕ} {header path : List UInt8}
    {f : Fields} {header' path' : List UInt8}
    (h : readEntry blk heap off header path = .ok (some (f, header', path'))) (hne : path' ≠ [])
    (vPath name : List UInt8) : lookupStep blk heap vPath name off header path =
      (if path'.headD 0 ≠ 46 then checkPathRaw path' vPath name else .ok false) >>= fun found =>
        if found then .ok (.found ⟨off, f.size, f.nameSize, f.mode, f.mtime⟩)
        else .ok (.next (nextHeader off f.nameSize f.size) header' path') := by
  rw [lookupStep, h, Fallible.ok_bind]
  dsimp only
  rw [Raw.first_of_ne_nil hne, Fallible.ok_bind]
  rfl

theorem cstr_append_zero {t : List UInt8} (h : 0 ∉ t) (rest : List UInt8) :
    cstr (t ++ [0] ++ rest) = t := by
  have hall : ∀ c ∈ t, (decide (c ≠ 0)) = true := by
    intro c hc
    exact decide_eq_true fun hzero => h (hzero ▸ hc)
  rw [cstr, List.append_assoc, List.takeWhile_append_of_pos hall]
  simp

theorem headerField_eq {header : List UInt8} {i n : ℕ} (h : IsHex (slice header i 8) n)
    (hn : n < 2 ^ 32) : headerField header i = n := by
  have hall : ∀ c ∈ slice header i 8, (decide (c ≠ 0)) = true := by
    intro c hc
    refine decide_eq_true fun hzero => ?_
    have hdigit := h.1 c hc
    rw [hzero] at hdigit
    exact absurd hdigit (by decide)
  have hlen : (slice header i 8).length ≤ 16 := by
    rw [slice, List.length_take]
    omega
  rw [headerField, cstr, List.takeWhile_eq_self_iff.mpr hall, strtoul_hex h hlen,
    Nat.mod_eq_of_lt hn]

theorem nameSpan_eq {nameSize : ℕ} (h : nameSize ≤ vfsMaxPath) :
    headerSize + nameSpan nameSize = Cpio.roundUp4 (headerSize + nameSize) := by
  have hle : nameSize + 1 < 2 ^ 32 := by
    unfold vfsMaxPath at h
    omega
  have hand := Bits.and_highMask hle (show 2 ≤ 32 by norm_num)
  norm_num at hand
  unfold nameSpan Cpio.roundUp4 headerSize vfsMaxPath at *
  rw [Nat.mod_eq_of_lt hle, hand]
  omega

section

variable {blk : Block} {content bs rest : List UInt8} {e : Cpio.Entry} {off : ℕ}

theorem nextHeader_eq (hoff : 4 ∣ off) (hlt : off + e.span < 2 ^ 64) :
    nextHeader off (e.name.length + 1) e.data.length = off + e.span := by
  have hdata : e.dataOffset = headerSize + nameSpan (e.name.length + 1) :=
    (nameSpan_eq (Nat.succ_le_of_lt e.name_lt)).symm
  have hsize : e.dataOffset + e.data.length < 2 ^ 32 := e.size_lt
  have hspan : e.span = Cpio.roundUp4 (e.dataOffset + e.data.length) := rfl
  rw [hdata] at hspan hsize
  unfold Cpio.roundUp4 headerSize at *
  rw [nextHeader, headerSize, wrap64_of_lt (x := off + 110) (by omega),
    Nat.mod_eq_of_lt (by omega), wrap64_of_lt (x := off + 110 + _) (by omega),
    wrap64_of_lt (by omega)]
  have hand := and_not64 (x := off + 110 + (nameSpan (e.name.length + 1) + e.data.length) + 3)
    (k := 2) (by omega) (by norm_num)
  norm_num at hand
  rw [hand]
  omega

theorem slice_of_drop {i k : ℕ} (hdrop : content.drop off = bs ++ rest) (h : i + k ≤ bs.length) :
    slice content (off + i) k = slice bs i k := by
  rw [slice, ← List.drop_drop, hdrop, List.drop_append_of_le_length (by omega),
    List.take_append_of_le_length (by rw [List.length_drop]; omega), slice]

theorem le_length_of_drop (hdrop : content.drop off = bs ++ rest) (h : 0 < bs.length) :
    off + bs.length ≤ content.length := by
  have hlen := congrArg List.length hdrop
  rw [List.length_drop, List.length_append] at hlen
  omega

theorem storeBytes_map_some (buf bs : List UInt8) :
    storeBytes buf (bs.map some) = bs ++ buf.drop bs.length := by
  induction bs generalizing buf with
  | nil => simp [storeBytes]
  | cons b bs ih => cases buf <;> simp [storeBytes, ih]

theorem readInto_eq (hdev : blk.ErrorFree content) {room : ℕ} (buf : List UInt8) {count : ℕ}
    (hlt : count < 2 ^ 32) (hfit : off + count ≤ content.length) (hroom : count ≤ room) :
    readInto blk true room buf off count =
      .ok (count, slice content off count ++ buf.drop count) := by
  have hlen : ((slice content off count).map some).length = count := by
    rw [List.length_map, slice_length hfit]
  rw [readInto, blockRead_eq hdev hlt hfit]
  simp only [hlen, access_pos hroom, Fallible.ok_bind, storeBytes_map_some, slice_length hfit]
  rfl

theorem Cpio.Encodes.span_ge (h : Cpio.Encodes e bs) :
    headerSize + (e.name.length + 1) ≤ e.dataOffset ∧
      e.dataOffset + e.data.length ≤ bs.length := by
  rw [h.length_eq, Cpio.Entry.span, Cpio.Entry.dataOffset]
  unfold Cpio.roundUp4
  omega

section

variable (hdev : blk.ErrorFree content) (h : Cpio.Encodes e bs)
  (hdrop : content.drop off = bs ++ rest)

include hdev h hdrop

theorem readInto_header (header : List UInt8) :
    readInto blk true headerSize header off headerSize =
      .ok (headerSize, slice bs 0 headerSize ++ header.drop headerSize) := by
  have hspan := h.span_ge
  have hle := le_length_of_drop hdrop (by unfold headerSize at hspan; omega)
  rw [readInto_eq hdev header (by decide) (by omega) le_rfl]
  have hslice := slice_of_drop (i := 0) (k := headerSize) hdrop (by omega)
  rw [Nat.add_zero] at hslice
  rw [hslice]

theorem readInto_path (path : List UInt8) :
    readInto blk true vfsMaxPath path (wrap64 (off + headerSize)) (e.name.length + 1) =
      .ok (e.name.length + 1, e.name ++ [0] ++ path.drop (e.name.length + 1)) := by
  have hspan := h.span_ge
  have hle := le_length_of_drop hdrop (by unfold headerSize at hspan; omega)
  have hlt := hdev.length_lt
  have hname := e.name_lt
  have hshort : vfsMaxPath < 2 ^ 32 := by decide
  rw [wrap64_of_lt (by omega), readInto_eq hdev path (by omega) (by omega) (by omega),
    slice_of_drop hdrop (by omega), h.name]

end

/-- The fields of the header of an entry. -/
def Cpio.Entry.fields (e : Cpio.Entry) : Fields where
  size := e.data.length
  nameSize := e.name.length + 1
  mode := e.mode
  mtime := e.mtime

theorem endsArchive_eq (e : Cpio.Entry) (old : List UInt8) :
    endsArchive e.fields (e.name ++ [0] ++ old) = .ok (decide e.IsTrailer) := by
  have hcmp := strncmp_eq_zero (q := trailerName) (by decide) e.name
  have hten : trailerName.length = 10 := rfl
  rw [hten] at hcmp
  rw [List.append_assoc, endsArchive, List.singleton_append, Raw.strncmp_string e.zero_notMem]
  show (if e.data.length = 0 ∧ e.mode = 0 ∧ e.name.length + 1 = 11 then
    Except.ok (decide (strncmp e.name trailerName 10 = 0)) else .ok false) = _
  by_cases htest : e.data.length = 0 ∧ e.mode = 0 ∧ e.name.length + 1 = 11
  · rw [if_pos htest]
    refine congrArg Except.ok (decide_eq_decide.mpr (hcmp.trans ⟨fun h => ?_, fun h => ?_⟩))
    · have hlen : trailerName.length = e.name.length := by omega
      exact ⟨(h.eq_of_length hlen).symm, htest.2.1, List.length_eq_zero_iff.mp htest.1⟩
    · exact h.1 ▸ List.prefix_rfl
  · rw [if_neg htest]
    refine congrArg Except.ok (decide_eq_false fun h => htest ⟨?_, h.2.1, ?_⟩).symm
    · rw [h.2.2]
      rfl
    · rw [h.1]
      rfl

section

variable (hdev : blk.ErrorFree content) (h : Cpio.Encodes e bs)
  (hdrop : content.drop off = bs ++ rest)

include hdev h hdrop

theorem readEntry_eq (header path : List UInt8) :
    ∃ header', readEntry blk true off header path = .ok (if e.IsTrailer then none
      else some (e.fields, header', e.name ++ [0] ++ path.drop (e.name.length + 1))) := by
  have hspan := h.span_ge
  have hname := e.name_lt
  have hfield : ∀ i k, i + k ≤ headerSize →
      slice (slice bs 0 headerSize ++ header.drop headerSize) i k = slice bs i k := by
    intro i k hi
    have hlen : (slice bs 0 headerSize).length = headerSize := slice_length (by omega)
    have hdrop : (slice bs 0 headerSize ++ header.drop headerSize).drop 0 =
        slice bs 0 headerSize ++ header.drop headerSize := rfl
    have hslice := slice_of_drop hdrop (i := i) (k := k) (by omega)
    rw [Nat.zero_add] at hslice
    rw [hslice, slice_slice bs 0 hi, Nat.zero_add]
  have hmagic : slice (slice bs 0 headerSize ++ header.drop headerSize) 0 6 = newcMagic := by
    rw [hfield 0 6 (by decide), h.magic]
  have hsize : headerField (slice bs 0 headerSize ++ header.drop headerSize) 54 = e.data.length :=
    headerField_eq (by rw [hfield 54 8 (by decide)]; exact h.filesize)
      (lt_of_le_of_lt (Nat.le_add_left _ _) e.size_lt)
  have hnameSize :
      headerField (slice bs 0 headerSize ++ header.drop headerSize) 94 = e.name.length + 1 :=
    headerField_eq (by rw [hfield 94 8 (by decide)]; exact h.namesize)
      (lt_of_le_of_lt (Nat.succ_le_of_lt hname) (by decide))
  have hmode : headerField (slice bs 0 headerSize ++ header.drop headerSize) 14 = e.mode :=
    headerField_eq (by rw [hfield 14 8 (by decide)]; exact h.mode) e.mode_lt
  have hmtime : headerField (slice bs 0 headerSize ++ header.drop headerSize) 46 = e.mtime :=
    headerField_eq (by rw [hfield 46 8 (by decide)]; exact h.mtime) e.mtime_lt
  refine ⟨slice bs 0 headerSize ++ header.drop headerSize, ?_⟩
  unfold readEntry
  simp only [readInto_header hdev h hdrop header, Fallible.ok_bind, hmagic, hsize, hnameSize,
    hmode, hmtime, readInto_path hdev h hdrop path]
  rw [if_neg (by simp), if_neg (by decide), if_neg (Nat.succ_ne_zero _)]
  change (endsArchive e.fields _ >>= _) = _
  rw [endsArchive_eq, Fallible.ok_bind]
  by_cases htrailer : e.IsTrailer
  · rw [if_pos htrailer, if_pos (decide_eq_true htrailer)]
    rfl
  · rw [if_neg htrailer, if_neg (by simpa using htrailer)]
    rfl

theorem lookupStep_eq (hoff : 4 ∣ off) {vPath name : List UInt8} (hvPath : 0 ∉ vPath)
    (hname : 0 ∉ name) (header path : List UInt8) :
    ∃ header' path', lookupStep blk true vPath name off header path = .ok
        (if e.IsTrailer then .fail
        else if e.HasPath vPath name then
          .found ⟨off, e.data.length, e.name.length + 1, e.mode, e.mtime⟩
        else .next (off + e.span) header' path') := by
  have hspan := h.span_ge
  have hlt := hdev.length_lt
  have hle := le_length_of_drop hdrop (by unfold headerSize at hspan; omega)
  rw [h.length_eq] at hle
  obtain ⟨header', hentry⟩ := readEntry_eq hdev h hdrop header path
  refine ⟨header', e.name ++ [0] ++ path.drop (e.name.length + 1), ?_⟩
  by_cases htrailer : e.IsTrailer
  · rw [if_pos htrailer] at hentry
    rw [lookupStep, hentry, if_pos htrailer]
    rfl
  · rw [if_neg htrailer] at hentry
    have hhead : (e.name ++ [0] ++ path.drop (e.name.length + 1)).headD 0 = e.name.headD 0 := by
      cases e.name <;> rfl
    have hcheck : checkPathRaw (e.name ++ [0] ++ path.drop (e.name.length + 1)) vPath name =
        .ok (checkPath e.name vPath name) := by
      rw [List.append_assoc, List.singleton_append]
      exact (checkPathRaw_decides hvPath hname).ended _ _ e.zero_notMem
    have hfound : (if e.name.headD 0 ≠ 46 then Except.ok (checkPath e.name vPath name)
        else .ok false) = (.ok (decide (e.HasPath vPath name)) : Except Fault Bool) := by
      by_cases hdot : e.name.headD 0 ≠ 46
      · rw [if_pos hdot]
        refine congrArg Except.ok (Bool.eq_iff_iff.mpr ?_)
        rw [decide_eq_true_iff]
        exact ⟨fun hmatch => ⟨hdot, hmatch⟩, fun hhas => hhas.2⟩
      · rw [if_neg hdot]
        exact congrArg Except.ok (decide_eq_false fun hhas => hdot hhas.1).symm
    rw [lookupStep_of_entry hentry (by simp), hhead, hcheck, hfound, Fallible.ok_bind,
      if_neg htrailer]
    by_cases hhas : e.HasPath vPath name
    · rw [if_pos (decide_eq_true hhas), if_pos hhas]
      rfl
    · rw [if_neg (by simpa using hhas), if_neg hhas]
      exact congrArg (fun off' => Except.ok (Round.next off' _ _))
        (nextHeader_eq hoff (lt_of_le_of_lt hle hlt))

end

/-- The entry is at an offset of the content. -/
def Cpio.LocatedAt (content : List UInt8) (e : Cpio.Entry) (off : ℕ) : Prop :=
  ∃ bs rest, content.drop off = bs ++ rest ∧ Cpio.Encodes e bs

theorem lookupLoop_eq (hdev : blk.ErrorFree content) {vPath name : List UInt8}
    (hvPath : 0 ∉ vPath) (hname : 0 ∉ name) {es : List Cpio.Entry} {cs : List UInt8}
    (harch : Cpio.Archive es cs) (off : ℕ)
    (hdrop : content.drop off = cs) (hoff : 4 ∣ off) (fuel : ℕ) (hfuel : es.length < fuel)
    (header path : List UInt8) :
    match es.find? (fun e => e.HasPath vPath name) with
    | none => lookupLoop blk true vPath name fuel off header path = some (.ok none)
    | some e => ∃ off', Cpio.LocatedAt content e off' ∧
        lookupLoop blk true vPath name fuel off header path =
          some (.ok (some ⟨off', e.data.length, e.name.length + 1, e.mode, e.mtime⟩)) := by
  induction harch generalizing off fuel header path with
  | @trailer e bs rest he hbs =>
    obtain ⟨_, _, hstep⟩ := lookupStep_eq hdev hbs hdrop hoff hvPath hname header path
    cases fuel with
    | zero => exact absurd hfuel (Nat.not_lt_zero _)
    | succ fuel =>
      rw [if_pos he] at hstep
      simp only [List.find?_nil, lookupLoop, hstep]
  | @entry e es bs rest he hbs hrest ih =>
    obtain ⟨header', path', hstep⟩ :=
      lookupStep_eq hdev hbs hdrop hoff hvPath hname header path
    rw [if_neg he] at hstep
    cases fuel with
    | zero => exact absurd hfuel (Nat.not_lt_zero _)
    | succ fuel =>
      rw [lookupLoop, hstep, List.find?_cons]
      by_cases hfound : e.HasPath vPath name
      · simp only [hfound, if_true, decide_true]
        exact ⟨off, ⟨bs, rest, hdrop, hbs⟩, rfl⟩
      · simp only [hfound, if_false, decide_false]
        refine ih (off + e.span) ?_ ?_ fuel (Nat.lt_of_succ_lt_succ hfuel) header' path'
        · rw [← List.drop_drop, hdrop, ← hbs.length_eq, List.drop_left]
        · exact Nat.dvd_add hoff (Nat.dvd_mul_left 4 _)

theorem blockRead_data (hdev : blk.ErrorFree content) (h : Cpio.LocatedAt content e off)
    {i sz : ℕ} (hsz : i + sz ≤ e.data.length) :
    blockRead blk true (off + (e.dataOffset + i)) sz = (sz, (slice e.data i sz).map some) := by
  obtain ⟨bs, rest, hdrop, hbs⟩ := h
  have hspan := hbs.span_ge
  have hle := le_length_of_drop hdrop (by unfold headerSize at hspan; omega)
  have hsize : e.dataOffset + e.data.length < 2 ^ 32 := e.size_lt
  have hslice := slice_slice bs e.dataOffset hsz
  rw [hbs.data] at hslice
  rw [blockRead_eq hdev (by omega) (by omega), slice_of_drop hdrop (by omega), hslice]

theorem represents_of_locatedAt (hdev : blk.ErrorFree content)
    (h : Cpio.LocatedAt content e off) :
    Cpio.Represents blk
      (Found.node ⟨off, e.data.length, e.name.length + 1, e.mode, e.mtime⟩) e := by
  obtain ⟨bs, rest, hdrop, hbs⟩ := id h
  have hspan := hbs.span_ge
  have hle := le_length_of_drop hdrop (by unfold headerSize at hspan; omega)
  have hlt := hdev.length_lt
  have hspan_eq : headerSize + nameSpan (e.name.length + 1) = e.dataOffset :=
    nameSpan_eq (Nat.succ_le_of_lt e.name_lt)
  have hdata : wrap64 (wrap64 (off + headerSize) + nameSpan (e.name.length + 1)) =
      off + e.dataOffset := by
    rw [wrap64_of_lt (x := off + headerSize) (by omega), Nat.add_assoc, hspan_eq,
      wrap64_of_lt (by omega)]
  refine ⟨rfl, congrArg Prod.fst (decodeType_eq e.mode), decodeMode_eq e.mode, rfl, ?_, ?_⟩
  · intro i len hreg
    rw [cpioRead, if_neg (not_not.mpr hreg)]
    simp only [Found.node, hdata]
    by_cases hi : e.data.length ≤ i
    · rw [if_pos (by exact_mod_cast hi), slice, List.drop_eq_nil_of_le hi, List.take_nil]
      rfl
    · have hsize : e.dataOffset + e.data.length < 2 ^ 32 := e.size_lt
      have hrest : (((e.data.length : ℤ) - i) % 2 ^ 64).toNat = e.data.length - i := by omega
      have hoff : ((i : ℤ) % 2 ^ 64).toNat = i := by omega
      rw [if_neg (by exact_mod_cast hi), hrest, hoff, wrap64_of_lt (by omega), Nat.add_assoc]
      -- The number of bytes is the smaller one of the request and of what remains.
      have hmin : (if e.data.length - i < len then e.data.length - i else len) =
          (slice e.data i len).length := by
        rw [slice, List.length_take, List.length_drop]
        split_ifs <;> omega
      have hsame : slice e.data i (slice e.data i len).length = slice e.data i len := by
        rw [slice, slice, List.length_take, ← List.take_eq_take_min]
      rw [hmin, blockRead_data hdev h, hsame]
      rw [slice, List.length_take, List.length_drop]
      omega
  · intro i len hreg
    rw [cpioRead, if_pos hreg]

end

/-! ## Archives exist -/

namespace Cpio

/-- A digit to the base 16. -/
def hexDigit (d : ℕ) : UInt8 := if d < 10 then .ofNat (48 + d) else .ofNat (87 + d)

/-- The eight digits of a number. -/
def hex8 (n : ℕ) : List UInt8 :=
  [hexDigit (n / 16 ^ 7 % 16), hexDigit (n / 16 ^ 6 % 16), hexDigit (n / 16 ^ 5 % 16),
    hexDigit (n / 16 ^ 4 % 16), hexDigit (n / 16 ^ 3 % 16), hexDigit (n / 16 ^ 2 % 16),
    hexDigit (n / 16 % 16), hexDigit (n % 16)]

/-- The header of an entry. -/
def Entry.header (e : Entry) : List UInt8 :=
  newcMagic ++ hex8 0 ++ hex8 e.mode ++ (hex8 0 ++ hex8 0 ++ hex8 1) ++ hex8 e.mtime ++
    hex8 e.data.length ++ (hex8 0 ++ hex8 0 ++ hex8 0 ++ hex8 0) ++ hex8 (e.name.length + 1) ++
    hex8 0

/-- An entry, padded with zeros. -/
def Entry.encode (e : Entry) : List UInt8 :=
  e.header ++ (e.name ++ [0]) ++
    List.replicate (e.dataOffset - (headerSize + (e.name.length + 1))) 0 ++ e.data ++
    List.replicate (e.span - (e.dataOffset + e.data.length)) 0

theorem hexDigit_spec : ∀ d < 16,
    isxdigit (hexDigit d) = true ∧ digitValue (hexDigit d) = some d := by
  decide

theorem isHex_hex8 {n : ℕ} (h : n < 2 ^ 32) : IsHex (hex8 n) n := by
  have hdigit : ∀ m, isxdigit (hexDigit (m % 16)) = true ∧
      digitValue (hexDigit (m % 16)) = some (m % 16) :=
    fun m => hexDigit_spec _ (Nat.mod_lt _ (by norm_num))
  constructor
  · simp only [hex8, List.forall_mem_cons, hdigit, true_and]
    exact fun c hc => absurd hc (by simp)
  · simp only [hex8, hexValue, hdigit, Option.getD_some]
    omega

@[simp] theorem hex8_length (n : ℕ) : (hex8 n).length = 8 := rfl

theorem Entry.header_length (e : Entry) : e.header.length = headerSize := rfl

theorem slice_append_left {a b : List UInt8} {i k : ℕ} (h : i + k ≤ a.length) :
    slice (a ++ b) i k = slice a i k := by
  have hdrop : (a ++ b).drop 0 = a ++ b := rfl
  rw [← slice_of_drop hdrop h, Nat.zero_add]

theorem slice_append_right {a b c : List UInt8} {i k : ℕ} (hi : a.length = i)
    (hk : b.length = k) : slice (a ++ b ++ c) i k = b := by
  rw [slice, List.append_assoc, ← hi, List.drop_left, ← hk, List.take_left]

theorem Entry.encode_encodes (e : Entry) : Encodes e e.encode := by
  have hname : headerSize + (e.name.length + 1) ≤ e.dataOffset := by
    unfold Entry.dataOffset roundUp4
    omega
  have hdata : e.dataOffset + e.data.length ≤ e.span := by
    unfold Entry.span roundUp4
    omega
  have hsize : e.dataOffset + e.data.length < 2 ^ 32 := e.size_lt
  have hshort : e.name.length < 1024 := e.name_lt
  have hheader := e.header_length
  -- The fields of the header are found by evaluation.
  have hfield : ∀ i k, i + k ≤ headerSize → slice e.encode i k = slice e.header i k := by
    intro i k hik
    rw [Entry.encode, List.append_assoc, List.append_assoc, List.append_assoc,
      slice_append_left (by rw [hheader]; exact hik)]
  refine ⟨?_, ?_, ?_, ?_, ?_, ?_, ?_, ?_⟩
  · simp only [Entry.encode, List.length_append, List.length_replicate, List.length_singleton,
      hheader]
    omega
  · rw [hfield 0 6 (by decide)]
    rfl
  · rw [hfield 14 8 (by decide)]
    exact isHex_hex8 e.mode_lt
  · rw [hfield 46 8 (by decide)]
    exact isHex_hex8 e.mtime_lt
  · rw [hfield 54 8 (by decide)]
    exact isHex_hex8 (by omega)
  · rw [hfield 94 8 (by decide)]
    exact isHex_hex8 (by omega)
  · rw [Entry.encode, List.append_assoc, List.append_assoc]
    exact slice_append_right hheader (by simp)
  · refine slice_append_right ?_ rfl
    simp only [List.length_append, List.length_replicate, List.length_singleton, hheader]
    omega

/-- The archive of a list of files. -/
def encodeArchive (trailer : Entry) : List Entry → List UInt8
  | [] => trailer.encode
  | e :: es => e.encode ++ encodeArchive trailer es

theorem archive_encodeArchive {trailer : Entry} (htrailer : trailer.IsTrailer) {es : List Entry}
    (hes : ∀ e ∈ es, ¬ e.IsTrailer) (rest : List UInt8) :
    Archive es (encodeArchive trailer es ++ rest) := by
  induction es with
  | nil => exact .trailer htrailer trailer.encode_encodes
  | cons e es ih =>
    rw [encodeArchive, List.append_assoc]
    exact .entry (hes e List.mem_cons_self) e.encode_encodes
      (ih fun e' he' => hes e' (List.mem_cons_of_mem e he'))

end Cpio

/-! ## The file system of an archive -/

/-- **The file system of an archive is the list of its files.**  On an error-free device, a lookup
returns `0` exactly if a file has the path, and the node then represents the first such file; it
returns `-1` and leaves the node as it was otherwise. -/
theorem cpioLookup_refines {blk : Block} {content : List UInt8} {es : List Cpio.Entry}
    (hdev : blk.ErrorFree content)
    (harch : Cpio.Archive es content) (vPath name : List UInt8) (hvPath : 0 ∉ vPath)
    (hname : 0 ∉ name) (header path : List UInt8) (n : CpioNode) (fuel : ℕ)
    (hfuel : es.length < fuel) :
    ∃ result n', cpioLookup blk true fuel vPath name header path n = some (.ok (result, n')) ∧
      (result = 0 ↔ ∃ e ∈ es, e.HasPath vPath name) ∧
      (result ≠ 0 → result = -1 ∧ n' = n) ∧
      ∀ e, es.find? (fun e => e.HasPath vPath name) = some e → Cpio.Represents blk n' e := by
  have hloop := lookupLoop_eq hdev hvPath hname harch 0 List.drop_zero (Nat.dvd_zero 4) fuel hfuel
    header path
  unfold cpioLookup
  cases hfind : es.find? (fun e => e.HasPath vPath name) with
  | none =>
    rw [hfind] at hloop
    have hnone := List.find?_eq_none.mp hfind
    refine ⟨-1, n, by rw [hloop]; rfl, ?_, fun _ => ⟨rfl, rfl⟩, fun e he => absurd he (by simp)⟩
    constructor
    · exact fun h => absurd h (by decide)
    · intro hex
      obtain ⟨e, he, hhas⟩ := hex
      exact absurd (decide_eq_true hhas) (hnone e he)
  | some e =>
    rw [hfind] at hloop
    obtain ⟨off, hat, hrun⟩ := hloop
    refine ⟨0, _, by rw [hrun]; rfl, ?_, fun h => absurd rfl h, ?_⟩
    · have hhas := List.find?_some hfind
      exact ⟨fun _ => ⟨e, List.mem_of_find?_eq_some hfind, of_decide_eq_true hhas⟩, fun _ => rfl⟩
    · intro e' he'
      rw [← Option.some.inj he']
      exact represents_of_locatedAt hdev hat

/-- The entry that ends archives. -/
def Cpio.trailerEntry : Cpio.Entry where
  name := trailerName
  mode := 0
  mtime := 0
  data := []
  zero_notMem := by decide
  name_lt := by decide
  mode_lt := by decide
  mtime_lt := by decide
  size_lt := by decide

/-- A file `a` with the data `b`. -/
def Cpio.smallEntry (mode : ℕ) (hmode : mode < 2 ^ 32) : Cpio.Entry where
  name := [97]
  mode := mode
  mtime := 0
  data := [98]
  zero_notMem := by decide
  name_lt := by decide
  mode_lt := hmode
  mtime_lt := by decide
  size_lt := by decide

/-- The archive with this file only. -/
def Cpio.smallArchive (mode : ℕ) (hmode : mode < 2 ^ 32) : List UInt8 :=
  Cpio.encodeArchive Cpio.trailerEntry [Cpio.smallEntry mode hmode]

theorem Cpio.archive_smallArchive (mode : ℕ) (hmode : mode < 2 ^ 32) :
    Cpio.Archive [Cpio.smallEntry mode hmode] (Cpio.smallArchive mode hmode) := by
  have hname : ∀ e ∈ [Cpio.smallEntry mode hmode], ¬ e.IsTrailer := by
    intro e he h
    rw [List.mem_singleton.mp he] at h
    exact absurd h.1 (show [97] ≠ trailerName by decide)
  have harch := Cpio.archive_encodeArchive (show Cpio.trailerEntry.IsTrailer from ⟨rfl, rfl, rfl⟩)
    hname []
  rwa [List.append_nil] at harch

theorem Cpio.errorFree_smallArchive (mode : ℕ) (hmode : mode < 2 ^ 32) :
    (Block.ofContent (Cpio.smallArchive mode hmode)).ErrorFree (Cpio.smallArchive mode hmode) := by
  apply Block.ofContent_errorFree
  rw [Cpio.smallArchive, Cpio.encodeArchive, Cpio.encodeArchive, List.length_append,
    (Cpio.Entry.encode_encodes _).length_eq, (Cpio.Entry.encode_encodes _).length_eq]
  show Cpio.roundUp4 (Cpio.roundUp4 (headerSize + 2) + 1) + Cpio.trailerEntry.span < 2 ^ 64
  decide

theorem cpioLookup_refines_file :
    ∃ result n', cpioLookup (.ofContent (Cpio.smallArchive 0o100644 (by decide))) true 2 [] [97]
        (List.replicate headerSize 0) (List.replicate vfsMaxPath 0) ⟨0, 0, 0, 0, .unk, 0, 0⟩ =
        some (.ok (result, n')) ∧
      (result = 0 ↔ ∃ e ∈ [Cpio.smallEntry 0o100644 (by decide)], e.HasPath [] [97]) ∧
      (result ≠ 0 → result = -1 ∧ n' = ⟨0, 0, 0, 0, .unk, 0, 0⟩) ∧
      ∀ e, [Cpio.smallEntry 0o100644 (by decide)].find? (fun e => e.HasPath [] [97]) = some e →
        Cpio.Represents (.ofContent (Cpio.smallArchive 0o100644 (by decide))) n' e :=
  cpioLookup_refines (Cpio.errorFree_smallArchive 0o100644 (by decide))
    (Cpio.archive_smallArchive 0o100644 (by decide)) [] [97] (by decide) (by decide) _ _ _ 2
    (by decide)

/-- A symbolic link with data is found, and its size is set, but nothing can be read from it. -/
theorem cpioRead_symlink :
    let e := Cpio.smallEntry 0o120777 (by decide)
    let content := Cpio.smallArchive 0o120777 (by decide)
    (Block.ofContent content).ErrorFree content ∧ Cpio.Archive [e] content ∧ e.HasPath [] [97] ∧
      ∃ n', cpioLookup (.ofContent content) true 2 [] [97] (List.replicate headerSize 0)
          (List.replicate vfsMaxPath 0) ⟨0, 0, 0, 0, .unk, 0, 0⟩ = some (.ok (0, n')) ∧
        n'.size = 1 ∧ slice e.data 0 1 = [98] ∧
        cpioRead (.ofContent content) true n' 0 1 = (0, []) := by
  refine ⟨Cpio.errorFree_smallArchive _ _, Cpio.archive_smallArchive _ _, by decide, ?_⟩
  refine ⟨⟨0, 0, 0, 0o777 + 2 ^ 20, .lnk, 1, 112⟩, ?_, rfl, rfl, rfl⟩
  decide +kernel

end Ginkgo.Fs
