import Mathlib.Data.Nat.Notation
import Ginkgo.Machine

/-!
# Reading from block devices

The model of `block_read`: a range of bytes is read from a device that reads whole blocks.  The
parts of the first and of the last block go through a buffer of one block; the blocks between them
are read in place.

What a read stores is the list of the bytes from the beginning of the buffer on, with `none` for
bytes that are not stored: `memcpy` takes its length as a 32-bit number.  The blocks that the driver
is asked for are recorded.

## Main results

* `readParts_ends` — what a read stores, for every device.
* `blockRead_exact_iff` — reads are exact unless a part of a block has `2 ^ 32` bytes
  or more.
* `blockRead_eq`, `blockRead_slice` — a read from an error-free device
  stores the bytes of the range.
-/

namespace Ginkgo.Driver

/-! ## The source function -/

/-- `block_t`; `read` gives the number of blocks that have been read and the bytes stored. -/
structure Block where
  blksz : ℕ
  blkcnt : ℕ
  read : ℕ → ℕ → ℕ × List UInt8

/-- `block_capacity`. -/
def Block.capacity (blk : Block) : ℕ := wrap64 (blk.blksz * blk.blkcnt)

/-- What `memcpy` stores for a length that becomes a 32-bit number. -/
def memcpy32 (src : List UInt8) (len : ℕ) : List (Option UInt8) :=
  (src.take (len % 2 ^ 32)).map some ++ List.replicate (len - len % 2 ^ 32) none

/-- How far a transfer has got. -/
structure Progress where
  /-- The next block. -/
  blkno : ℕ
  /-- The bytes that remain. -/
  count : ℕ
  /-- The bytes that have been transferred. -/
  ret : ℕ

/-- `len` more bytes are transferred. -/
def Progress.advance (s : Progress) (blocks len : ℕ) : Progress :=
  ⟨s.blkno + blocks, s.count - len, s.ret + len⟩

/-- How far a read has got. -/
structure ReadRun extends Progress where
  /-- What has been stored from the beginning of the buffer on. -/
  stored : List (Option UInt8)
  /-- The first block and the number of blocks of each call of the driver. -/
  requests : List (ℕ × ℕ)

namespace ReadRun

/-- A read that begins. -/
def start (blkno count : ℕ) : ReadRun := ⟨⟨blkno, count, 0⟩, [], []⟩

/-- The driver is called. -/
def ask (s : ReadRun) (n : ℕ) : ReadRun := { s with requests := s.requests ++ [(s.blkno, n)] }

/-- `len` bytes are stored. -/
def store (s : ReadRun) (blocks len : ℕ) (bytes : List (Option UInt8)) : ReadRun :=
  ⟨s.advance blocks len, s.stored ++ bytes, s.requests⟩

/-- The state at a `return`: an error ends the read. -/
def returned : Except ReadRun ReadRun → ReadRun
  | .ok s => s
  | .error s => s

end ReadRun

/-- The part of the first block. -/
def readHead (blk : Block) (offset : ℕ) (s : ReadRun) : Except ReadRun ReadRun :=
  let tmp := offset % blk.blksz
  if 0 < tmp then
    let len := if s.count < blk.blksz - tmp then s.count else blk.blksz - tmp
    let r := blk.read s.blkno 1
    if r.1 ≠ 1 then .error (s.ask 1)
    else .ok ((s.ask 1).store 1 len (memcpy32 (r.2.drop tmp) len))
  else .ok s

/-- The blocks that are read as a whole.  What the driver stores before it fails stays there. -/
def readBody (blk : Block) (s : ReadRun) : Except ReadRun ReadRun :=
  let tmp := s.count / blk.blksz
  if 0 < tmp then
    let len := tmp * blk.blksz
    let r := blk.read s.blkno tmp
    if r.1 ≠ tmp then .error { s.ask tmp with stored := s.stored ++ r.2.map some }
    else .ok ((s.ask tmp).store tmp len (r.2.map some))
  else .ok s

/-- The part of the last block. -/
def readTail (blk : Block) (s : ReadRun) : Except ReadRun ReadRun :=
  if 0 < s.count then
    let r := blk.read s.blkno 1
    if r.1 ≠ 1 then .error (s.ask 1)
    else .ok ((s.ask 1).store 0 s.count (memcpy32 r.2 s.count))
  else .ok s

/-- The three parts of a read. -/
def readParts (blk : Block) (offset count : ℕ) : Except ReadRun ReadRun := do
  readTail blk (← readBody blk (← readHead blk offset (.start (offset / blk.blksz) count)))

/-- `block_read`, with its requests.  `heap` says whether `malloc` has memory for the buffer of a
block. -/
def blockReadRun (blk : Block) (heap : Bool) (offset count : ℕ) : ReadRun :=
  if count = 0 then .start 0 0
  else if blk.blksz = 0 ∨ blk.blkcnt = 0 then .start 0 0
  else if blk.capacity ≤ offset then .start 0 0
  else
    let tmp := blk.capacity - offset
    let count := if tmp < count then tmp else count
    if !heap then .start 0 0
    else .returned (readParts blk offset count)

/-- `block_read`: the number of bytes and what has been stored. -/
def blockRead (blk : Block) (heap : Bool) (offset count : ℕ) : ℕ × List (Option UInt8) :=
  ((blockReadRun blk heap offset count).ret, (blockReadRun blk heap offset count).stored)

/-! ## Devices -/

/-- `len` bytes of the content from `a` on. -/
def slice (content : List UInt8) (a len : ℕ) : List UInt8 := (content.drop a).take len

/-- The device returns the blocks of its content. -/
structure Block.ErrorFree (blk : Block) (content : List UInt8) : Prop where
  length_eq : content.length = blk.blksz * blk.blkcnt
  length_lt : content.length < 2 ^ 64
  read_eq : ∀ blkno n, blkno + n ≤ blk.blkcnt →
    blk.read blkno n = (n, slice content (blkno * blk.blksz) (n * blk.blksz))

/-- The driver does not read the `n` blocks from `blkno` on. -/
def Block.Fails (blk : Block) (blkno n : ℕ) : Prop := (blk.read blkno n).1 ≠ n

/-- The device returns the blocks that it is asked for, or nothing. -/
structure Block.AllOrNothing (blk : Block) (content : List UInt8) : Prop where
  length_eq : content.length = blk.blksz * blk.blkcnt
  length_lt : content.length < 2 ^ 64
  read_eq : ∀ blkno n, blkno + n ≤ blk.blkcnt →
    blk.read blkno n = (n, slice content (blkno * blk.blksz) (n * blk.blksz)) ∨
      blk.Fails blkno n ∧ (blk.read blkno n).2 = []

/-- A device with blocks of one byte. -/
def Block.ofContent (content : List UInt8) : Block where
  blksz := 1
  blkcnt := content.length
  read blkno n := (n, slice content blkno n)

theorem Block.ofContent_errorFree {content : List UInt8} (h : content.length < 2 ^ 64) :
    (Block.ofContent content).ErrorFree content := by
  refine ⟨(Nat.one_mul _).symm, h, ?_⟩
  intro blkno n _
  show (n, slice content blkno n) = (n, slice content (blkno * 1) (n * 1))
  rw [Nat.mul_one, Nat.mul_one]

variable {stored : List (Option UInt8)} {src : List UInt8} {blkcnt : ℕ}

section

variable {blk : Block} {content : List UInt8} {a b n k offset count : ℕ}

theorem Block.ErrorFree.allOrNothing (h : blk.ErrorFree content) : blk.AllOrNothing content :=
  ⟨h.length_eq, h.length_lt, fun blkno n hin => .inl (h.read_eq blkno n hin)⟩

theorem Block.AllOrNothing.capacity_eq (h : blk.AllOrNothing content) :
    blk.capacity = content.length := by
  rw [Block.capacity, ← h.length_eq, wrap64_of_lt h.length_lt]

theorem slice_length (h : a + n ≤ content.length) : (slice content a n).length = n := by
  rw [slice, List.length_take, List.length_drop]
  omega

@[simp] theorem slice_zero (content : List UInt8) (a : ℕ) : slice content a 0 = [] :=
  List.take_zero

theorem slice_slice (content : List UInt8) (a : ℕ) (h : b + k ≤ n) :
    slice (slice content a n) b k = slice content (a + b) k := by
  rw [slice, slice, slice, List.drop_take, List.drop_drop, List.take_take,
    Nat.min_eq_left (by omega)]

theorem slice_append (content : List UInt8) (a n k : ℕ) :
    slice content a n ++ slice content (a + n) k = slice content a (n + k) := by
  rw [slice, slice, slice, ← List.drop_drop, ← List.take_add]

theorem memcpy32_of_lt (h : n < 2 ^ 32) :
    memcpy32 src n = (src.take n).map some := by
  rw [memcpy32, Nat.mod_eq_of_lt h, Nat.sub_self, List.replicate_zero, List.append_nil]

theorem memcpy32_take (src : List UInt8) (n : ℕ) : memcpy32 (src.take n) n = memcpy32 src n := by
  rw [memcpy32, memcpy32, List.take_take, Nat.min_eq_left (Nat.mod_le _ _)]

@[simp] theorem memcpy32_zero (src : List UInt8) : memcpy32 src 0 = [] := by simp [memcpy32]

theorem none_mem_memcpy32 : none ∈ memcpy32 src n ↔ 2 ^ 32 ≤ n := by
  have hmod := Nat.div_add_mod n (2 ^ 32)
  simp only [memcpy32, List.mem_append, List.mem_map, reduceCtorEq, and_false, exists_false,
    false_or, List.mem_replicate, and_true]
  omega

/-! ## The parts of a range -/

/-- The bytes of a range that are in the part of a first block. -/
def headPart (blksz offset count : ℕ) : ℕ :=
  if 0 < offset % blksz then
    if count < blksz - offset % blksz then count else blksz - offset % blksz
  else 0

/-- The bytes of a range that are in whole blocks. -/
def bodyPart (blksz offset count : ℕ) : ℕ :=
  (count - headPart blksz offset count) / blksz * blksz

/-- The bytes of a range that are in the part of a last block. -/
def tailPart (blksz offset count : ℕ) : ℕ := (count - headPart blksz offset count) % blksz

variable {blksz : ℕ}

theorem headPart_le : headPart blksz offset count ≤ count := by
  unfold headPart
  split_ifs <;> omega

theorem parts_add : headPart blksz offset count + bodyPart blksz offset count +
    tailPart blksz offset count = count := by
  have hle := @headPart_le offset count blksz
  have hsplit := Nat.div_add_mod' (count - headPart blksz offset count) blksz
  unfold bodyPart tailPart
  omega

theorem headPart_end (hblk : 0 < blksz) (hrest : headPart blksz offset count < count)
    (htmp : 0 < offset % blksz) : offset % blksz + headPart blksz offset count = blksz := by
  have := Nat.mod_lt offset hblk
  unfold headPart at hrest ⊢
  split_ifs at hrest ⊢ <;> omega

theorem headPart_of_le {r : ℕ} (hle : headPart blksz offset count ≤ r) (hr : r ≤ count) :
    headPart blksz offset r = headPart blksz offset count := by
  unfold headPart at hle ⊢
  split_ifs at hle ⊢ <;> omega

theorem blocks_le (hlen : content.length = blksz * blkcnt) (hblk : 0 < blksz)
    (hfit : a * blksz + n * blksz ≤ content.length) : a + n ≤ blkcnt := by
  rw [hlen, ← Nat.add_mul, Nat.mul_comm blksz] at hfit
  exact Nat.le_of_mul_le_mul_right hfit hblk

theorem block_le (hlen : content.length = blksz * blkcnt) (hfit : a * blksz < content.length) :
    a + 1 ≤ blkcnt := by
  rw [hlen, Nat.mul_comm blksz] at hfit
  exact Nat.lt_of_mul_lt_mul_right hfit

/-- A transfer of `count` bytes is at a boundary of blocks, unless it has ended. -/
structure Progress.Aligned (s : Progress) (blksz offset count : ℕ) : Prop where
  total : s.ret + s.count = count
  next : 0 < s.count → s.blkno * blksz = offset + s.ret

namespace Progress.Aligned

theorem start (htmp : ¬ 0 < offset % blksz) :
    (Progress.mk (offset / blksz) count 0).Aligned blksz offset count := by
  refine ⟨Nat.zero_add _, fun _ => ?_⟩
  have := Nat.div_add_mod' offset blksz
  show offset / blksz * blksz = offset + 0
  omega

theorem head (hblk : 0 < blksz) (htmp : 0 < offset % blksz) :
    ((Progress.mk (offset / blksz) count 0).advance 1
      (headPart blksz offset count)).Aligned blksz offset count := by
  have hle := @headPart_le offset count blksz
  have hsplit := Nat.div_add_mod' offset blksz
  refine ⟨?_, fun hrest => ?_⟩
  · show 0 + headPart blksz offset count + (count - headPart blksz offset count) = count
    omega
  · have hlt : headPart blksz offset count < count := Nat.lt_of_sub_pos hrest
    have hend := headPart_end hblk hlt htmp
    show (offset / blksz + 1) * blksz = offset + (0 + headPart blksz offset count)
    rw [Nat.add_mul, Nat.one_mul]
    omega

variable {s : Progress}

theorem body (h : s.Aligned blksz offset count) (hpos : 0 < s.count / blksz) :
    (s.advance (s.count / blksz) (s.count / blksz * blksz)).Aligned blksz offset count := by
  have hsplit := Nat.div_add_mod' s.count blksz
  have htotal := h.total
  have hcount : 0 < s.count := Nat.pos_of_div_pos hpos
  refine ⟨?_, fun _ => ?_⟩
  · show s.ret + s.count / blksz * blksz + (s.count - s.count / blksz * blksz) = count
    omega
  · have hnext := h.next hcount
    show (s.blkno + s.count / blksz) * blksz = offset + (s.ret + s.count / blksz * blksz)
    rw [Nat.add_mul]
    omega

theorem tail (h : s.Aligned blksz offset count) :
    (s.advance 0 s.count).Aligned blksz offset count := by
  refine ⟨?_, fun hrest => ?_⟩
  · show s.ret + s.count + (s.count - s.count) = count
    rw [Nat.sub_self]
    exact h.total
  · exact absurd hrest (by simp [Progress.advance])

end Progress.Aligned

/-! ## What a read stores -/

/-- All requests are for blocks of the device. -/
def ReadRun.Inside (s : ReadRun) (blk : Block) : Prop :=
  ∀ q ∈ s.requests, 0 < q.2 ∧ q.1 + q.2 ≤ blk.blkcnt

/-- The driver has failed. -/
def ReadRun.Failed (s : ReadRun) (blk : Block) : Prop := ∃ q ∈ s.requests, blk.Fails q.1 q.2

/-- A part of a read stores `bytes`, or the driver fails. -/
def Leads (blk : Block) (offset count : ℕ) (s : ReadRun) (len : ℕ) (bytes : List (Option UInt8))
    (r : Except ReadRun ReadRun) : Prop :=
  (∃ s', r = .ok s' ∧ s'.Inside blk ∧ s'.Aligned blk.blksz offset count ∧ s'.ret = s.ret + len ∧
    s'.stored = s.stored ++ bytes) ∨
  ∃ s', r = .error s' ∧ s'.Inside blk ∧ s'.Failed blk ∧ s'.ret = s.ret ∧ s'.stored = s.stored

section Parts

variable {s : ReadRun}

theorem ReadRun.Inside.ask (hs : s.Inside blk) (hpos : 0 < n) (hin : s.blkno + n ≤ blk.blkcnt) :
    (s.ask n).Inside blk := by
  intro q hq
  rcases List.mem_append.mp hq with hold | hnew
  · exact hs q hold
  · rw [List.mem_singleton.mp hnew]
    exact ⟨hpos, hin⟩

theorem ReadRun.failed_ask (h : blk.Fails s.blkno n) : (s.ask n).Failed blk :=
  ⟨(s.blkno, n), List.mem_append_right _ (List.mem_singleton_self _), h⟩

theorem readHead_leads (h : blk.AllOrNothing content) (hblk : 0 < blk.blksz)
    (hoff : offset < content.length) :
    Leads blk offset count (.start (offset / blk.blksz) count) (headPart blk.blksz offset count)
      (memcpy32 (slice content offset (headPart blk.blksz offset count))
        (headPart blk.blksz offset count))
      (readHead blk offset (.start (offset / blk.blksz) count)) := by
  have hstart : (ReadRun.start (offset / blk.blksz) count).Inside blk := by
    intro q hq
    cases hq
  have hsplit := Nat.div_add_mod' offset blk.blksz
  by_cases htmp : 0 < offset % blk.blksz
  · have hlen : (if count < blk.blksz - offset % blk.blksz then count
        else blk.blksz - offset % blk.blksz) = headPart blk.blksz offset count := by
      rw [headPart, if_pos htmp]
    have hin : offset / blk.blksz + 1 ≤ blk.blkcnt := block_le h.length_eq (by omega)
    have hask := hstart.ask one_pos hin
    simp only [readHead, if_pos htmp]
    rcases h.read_eq _ _ hin with hread | ⟨hfail, -⟩
    · left
      have hread' : blk.read (ReadRun.start (offset / blk.blksz) count).blkno 1 =
          (1, slice content (offset / blk.blksz * blk.blksz) (1 * blk.blksz)) := hread
      rw [hread', if_neg (by simp)]
      refine ⟨_, rfl, hask, ?_, ?_, ?_⟩
      · show Progress.Aligned (Progress.advance _ 1 (if count < _ then count else _)) _ _ _
        rw [hlen]
        exact .head hblk htmp
      · show 0 + (if count < _ then count else _) = 0 + _
        rw [hlen]
      · show [] ++ memcpy32 _ (if count < _ then count else _) = [] ++ _
        rw [hlen, ← memcpy32_take]
        have hroom : offset % blk.blksz + headPart blk.blksz offset count ≤ 1 * blk.blksz := by
          have := Nat.mod_lt offset hblk
          rw [← hlen]
          split_ifs <;> omega
        have hslice := slice_slice content (offset / blk.blksz * blk.blksz) hroom
        rw [hsplit] at hslice
        rw [← hslice]
        rfl
    · right
      exact ⟨_, if_pos hfail, hask, ReadRun.failed_ask hfail, rfl, rfl⟩
  · left
    have hzero : headPart blk.blksz offset count = 0 := if_neg htmp
    rw [readHead, if_neg htmp, hzero]
    exact ⟨_, rfl, hstart, .start htmp, rfl, by simp⟩

theorem readBody_leads (h : blk.AllOrNothing content) (hblk : 0 < blk.blksz)
    (hfit : offset + count ≤ content.length) (hin : s.Inside blk)
    (hs : s.Aligned blk.blksz offset count) :
    Leads blk offset count s (s.count / blk.blksz * blk.blksz)
      ((slice content (offset + s.ret) (s.count / blk.blksz * blk.blksz)).map some)
      (readBody blk s) := by
  have hsplit := Nat.div_add_mod' s.count blk.blksz
  have htotal := hs.total
  by_cases hpos : 0 < s.count / blk.blksz
  · have hnext := hs.next (Nat.pos_of_div_pos hpos)
    have hblocks : s.blkno + s.count / blk.blksz ≤ blk.blkcnt :=
      blocks_le h.length_eq hblk (by omega)
    have hask := hin.ask hpos hblocks
    simp only [readBody, if_pos hpos]
    rcases h.read_eq _ _ hblocks with hread | ⟨hfail, hnil⟩
    · left
      rw [hread, if_neg (by simp), hnext]
      exact ⟨_, rfl, hask, hs.body hpos, rfl, rfl⟩
    · right
      exact ⟨_, if_pos hfail, hask, ReadRun.failed_ask hfail, rfl, by simp [hnil]⟩
  · left
    have hzero : s.count / blk.blksz = 0 := Nat.eq_zero_of_not_pos hpos
    rw [readBody, if_neg hpos, hzero, Nat.zero_mul]
    exact ⟨_, rfl, hin, hs, rfl, by simp⟩

theorem readTail_leads (h : blk.AllOrNothing content) (hfit : offset + count ≤ content.length)
    (hin : s.Inside blk) (hs : s.Aligned blk.blksz offset count) (hrest : s.count ≤ blk.blksz) :
    Leads blk offset count s s.count (memcpy32 (slice content (offset + s.ret) s.count) s.count)
      (readTail blk s) := by
  have htotal := hs.total
  by_cases hpos : 0 < s.count
  · have hnext := hs.next hpos
    have hblock : s.blkno + 1 ≤ blk.blkcnt := block_le h.length_eq (by omega)
    have hask := hin.ask one_pos hblock
    simp only [readTail, if_pos hpos]
    rcases h.read_eq _ _ hblock with hread | ⟨hfail, -⟩
    · left
      rw [hread, if_neg (by simp), hnext]
      refine ⟨_, rfl, hask, hs.tail, rfl, ?_⟩
      have hslice : slice content (offset + s.ret) s.count =
          (slice content (offset + s.ret) (1 * blk.blksz)).take s.count := by
        rw [slice, slice, List.take_take, Nat.min_eq_left (by omega)]
      rw [hslice, memcpy32_take]
      rfl
    · right
      exact ⟨_, if_pos hfail, hask, ReadRun.failed_ask hfail, rfl, rfl⟩
  · left
    have hzero : s.count = 0 := Nat.eq_zero_of_not_pos hpos
    rw [readTail, if_neg hpos, hzero]
    exact ⟨_, rfl, hin, hs, rfl, by simp⟩

end Parts

/-- What `memcpy` stores of the part of the first block. -/
def headBytes (content : List UInt8) (blksz offset count : ℕ) : List (Option UInt8) :=
  memcpy32 (slice content offset (headPart blksz offset count)) (headPart blksz offset count)

/-- What the driver stores of the whole blocks. -/
def bodyBytes (content : List UInt8) (blksz offset count : ℕ) : List (Option UInt8) :=
  (slice content (offset + headPart blksz offset count) (bodyPart blksz offset count)).map some

/-- What `memcpy` stores of the part of the last block. -/
def tailBytes (content : List UInt8) (blksz offset count : ℕ) : List (Option UInt8) :=
  memcpy32 (slice content (offset + (headPart blksz offset count + bodyPart blksz offset count))
    (tailPart blksz offset count)) (tailPart blksz offset count)

/-- What has been stored when a read of `count` bytes returns a number. -/
inductive Stored (content : List UInt8) (blksz offset count : ℕ) : ℕ → List (Option UInt8) → Prop
  | nothing : Stored content blksz offset count 0 []
  | head : Stored content blksz offset count (headPart blksz offset count)
      (headBytes content blksz offset count)
  | body : Stored content blksz offset count
      (headPart blksz offset count + bodyPart blksz offset count)
      (headBytes content blksz offset count ++ bodyBytes content blksz offset count)
  | tail : Stored content blksz offset count count
      (headBytes content blksz offset count ++ bodyBytes content blksz offset count ++
        tailBytes content blksz offset count)

/-- A read ends with some of the parts, and with all of them unless the driver has failed. -/
structure ReadRun.Ends (s : ReadRun) (blk : Block) (content : List UInt8) (offset count : ℕ) :
    Prop where
  inside : s.Inside blk
  stored : Stored content blk.blksz offset count s.ret s.stored
  complete : s.ret = count ∨ s.Failed blk

theorem Leads.ends {s : ReadRun} {len : ℕ} {bytes : List (Option UInt8)}
    {r : Except ReadRun ReadRun} {f : ReadRun → Except ReadRun ReadRun}
    (h : Leads blk offset count s len bytes r)
    (hstored : Stored content blk.blksz offset count s.ret s.stored)
    (hrest : ∀ s', s'.Inside blk → s'.Aligned blk.blksz offset count → s'.ret = s.ret + len →
      s'.stored = s.stored ++ bytes → (ReadRun.returned (f s')).Ends blk content offset count) :
    (ReadRun.returned (r >>= f)).Ends blk content offset count := by
  rcases h with ⟨s', hr, hin, hal, hret, hst⟩ | ⟨s', hr, hin, hfail, hret, hst⟩
  · rw [hr, Fallible.ok_bind]
    exact hrest s' hin hal hret hst
  · rw [hr, Fallible.error_bind]
    refine ⟨hin, ?_, .inr hfail⟩
    show Stored content blk.blksz offset count s'.ret s'.stored
    rw [hret, hst]
    exact hstored

/-- **What a read stores** that begins on the device. -/
theorem readParts_ends (h : blk.AllOrNothing content) (hpos : 0 < count)
    (hfit : offset + count ≤ content.length) :
    (ReadRun.returned (readParts blk offset count)).Ends blk content offset count := by
  have hblk : 0 < blk.blksz := by
    apply Nat.pos_of_ne_zero
    intro hzero
    have hlen := h.length_eq
    rw [hzero, Nat.zero_mul] at hlen
    omega
  have hparts := @parts_add offset count blk.blksz
  rw [readParts]
  refine (readHead_leads h hblk (by omega)).ends .nothing ?_
  intro s₁ hin₁ hal₁ hret₁ hst₁
  replace hret₁ : s₁.ret = headPart blk.blksz offset count := hret₁.trans (Nat.zero_add _)
  replace hst₁ : s₁.stored = headBytes content blk.blksz offset count :=
    hst₁.trans (List.nil_append _)
  have hcount₁ : s₁.count = count - headPart blk.blksz offset count := by
    have := hal₁.total
    omega
  refine (readBody_leads h hblk hfit hin₁ hal₁).ends (by rw [hret₁, hst₁]; exact .head) ?_
  intro s₂ hin₂ hal₂ hret₂ hst₂
  rw [hret₁, hcount₁] at hret₂ hst₂
  rw [hst₁] at hst₂
  replace hret₂ : s₂.ret = headPart blk.blksz offset count + bodyPart blk.blksz offset count :=
    hret₂
  replace hst₂ : s₂.stored =
      headBytes content blk.blksz offset count ++ bodyBytes content blk.blksz offset count := hst₂
  have hcount₂ : s₂.count = tailPart blk.blksz offset count := by
    have := hal₂.total
    omega
  have hrest : s₂.count ≤ blk.blksz := by
    rw [hcount₂]
    exact (Nat.mod_lt _ hblk).le
  rw [← bind_pure (readTail blk s₂)]
  refine (readTail_leads h hfit hin₂ hal₂ hrest).ends (by rw [hret₂, hst₂]; exact .body) ?_
  intro s₃ hin₃ hal₃ hret₃ hst₃
  have hret : s₃.ret = count := by
    rw [hret₃, hret₂, hcount₂]
    exact hparts
  refine ⟨hin₃, ?_, .inl hret⟩
  show Stored content blk.blksz offset count s₃.ret s₃.stored
  rw [hret, hst₃, hst₂, hret₂, hcount₂]
  exact .tail

/-! ## Exact reads -/

theorem Stored.eq_slice {r : ℕ} (h : Stored content blksz offset count r stored)
    (hhead : headPart blksz offset count < 2 ^ 32) (htail : tailPart blksz offset count < 2 ^ 32) :
    r ≤ count ∧ stored = (slice content offset r).map some := by
  have hparts := @parts_add offset count blksz
  have hheadBytes : headBytes content blksz offset count =
      (slice content offset (headPart blksz offset count)).map some := by
    rw [headBytes, memcpy32_of_lt hhead, slice, List.take_take, Nat.min_self]
  have htailBytes : tailBytes content blksz offset count =
      (slice content (offset + (headPart blksz offset count + bodyPart blksz offset count))
        (tailPart blksz offset count)).map some := by
    rw [tailBytes, memcpy32_of_lt htail, slice, List.take_take, Nat.min_self]
  cases h with
  | nothing => simp
  | head => exact ⟨by omega, hheadBytes⟩
  | body =>
    refine ⟨by omega, ?_⟩
    rw [hheadBytes, bodyBytes, ← List.map_append, slice_append]
  | tail =>
    refine ⟨le_rfl, ?_⟩
    rw [hheadBytes, htailBytes, bodyBytes, ← List.map_append, slice_append, ← List.map_append,
      slice_append, hparts]

theorem Stored.none_mem {r : ℕ} (h : Stored content blksz offset count r stored) (hr : r = count)
    (hlong : 2 ^ 32 ≤ headPart blksz offset count ∨ 2 ^ 32 ≤ tailPart blksz offset count) :
    none ∈ stored := by
  have hparts := @parts_add offset count blksz
  cases h with
  | nothing => omega
  | head => exact none_mem_memcpy32.mpr (by omega)
  | body => exact List.mem_append_left _ (none_mem_memcpy32.mpr (by omega))
  | tail =>
    cases hlong with
    | inl hhead =>
      exact List.mem_append_left _ (List.mem_append_left _ (none_mem_memcpy32.mpr hhead))
    | inr htail => exact List.mem_append_right _ (none_mem_memcpy32.mpr htail)

/-- **An exact read.**  The bytes that are reported are those of the range, as far as it is on the
device, and nothing else is stored.  Only blocks of the device are asked for.  All bytes are
reported if there is memory and the driver does not fail. -/
structure ReadsExactly (blk : Block) (content : List UInt8) (heap : Bool) (offset count : ℕ) :
    Prop where
  ret_le : (blockReadRun blk heap offset count).ret ≤ min count (blk.capacity - offset)
  stored : (blockReadRun blk heap offset count).stored =
    (slice content offset (blockReadRun blk heap offset count).ret).map some
  inside : (blockReadRun blk heap offset count).Inside blk
  complete : heap = true → ¬ (blockReadRun blk heap offset count).Failed blk →
    (blockReadRun blk heap offset count).ret = min count (blk.capacity - offset)

theorem blockReadRun_eq (h : blk.AllOrNothing content) (hpos : 0 < count)
    (hoff : offset < content.length) : blockReadRun blk true offset count =
      .returned (readParts blk offset (min count (content.length - offset))) := by
  have hlen := h.length_eq
  have hgeo : ¬(blk.blksz = 0 ∨ blk.blkcnt = 0) := by
    rintro (hzero | hzero)
    · rw [hzero, Nat.zero_mul] at hlen
      omega
    · rw [hzero, Nat.mul_zero] at hlen
      omega
  have hmin : (if content.length - offset < count then content.length - offset else count) =
      min count (content.length - offset) := by
    split_ifs <;> omega
  rw [blockReadRun, if_neg hpos.ne', if_neg hgeo, h.capacity_eq, if_neg (by omega)]
  simp only [hmin, Bool.not_true, Bool.false_eq_true, if_false]

theorem blockReadRun_nothing (h : blk.AllOrNothing content) {heap : Bool}
    (hno : count = 0 ∨ content.length ≤ offset ∨ heap = false) :
    blockReadRun blk heap offset count = .start 0 0 := by
  rw [blockReadRun]
  split_ifs with hzero hgeo hoff hheap
  · rfl
  · rfl
  · rfl
  · rfl
  · rw [h.capacity_eq] at hoff
    rcases hno with hcount | hend | hmem
    · exact absurd hcount hzero
    · exact absurd hend hoff
    · exact absurd hmem (by simpa using hheap)

theorem readsExactly (h : blk.AllOrNothing content) (heap : Bool)
    (hhead : headPart blk.blksz offset (min count (content.length - offset)) < 2 ^ 32)
    (htail : tailPart blk.blksz offset (min count (content.length - offset)) < 2 ^ 32) :
    ReadsExactly blk content heap offset count := by
  by_cases hno : count = 0 ∨ content.length ≤ offset ∨ heap = false
  · have hrun := blockReadRun_nothing h hno
    refine ⟨?_, ?_, ?_, ?_⟩
    · rw [hrun]
      exact Nat.zero_le _
    · rw [hrun]
      simp [ReadRun.start]
    · rw [hrun]
      intro q hq
      cases hq
    · intro hheap _
      rw [hrun, h.capacity_eq]
      show 0 = min count (content.length - offset)
      rcases hno with hcount | hend | hmem
      · omega
      · omega
      · exact absurd hheap (by simp [hmem])
  · rw [not_or, not_or, not_le, Bool.not_eq_false] at hno
    obtain ⟨hcount, hoff, rfl⟩ := hno
    have hrun := blockReadRun_eq h (Nat.pos_of_ne_zero hcount) hoff
    have hends : (ReadRun.returned (readParts blk offset
        (min count (content.length - offset)))).Ends blk content offset
        (min count (content.length - offset)) := readParts_ends h (by omega) (by omega)
    rw [← hrun] at hends
    obtain ⟨hle, hstored⟩ := hends.stored.eq_slice hhead htail
    refine ⟨by rw [h.capacity_eq]; exact hle, hstored, hends.inside, fun _ hok => ?_⟩
    rw [h.capacity_eq]
    exact hends.complete.resolve_right hok

theorem Block.ErrorFree.not_failed (h : blk.ErrorFree content) {s : ReadRun}
    (hin : s.Inside blk) : ¬ s.Failed blk := by
  rintro ⟨q, hq, hfail⟩
  apply hfail
  rw [h.read_eq q.1 q.2 (hin q hq).2]

/-- An error-free device of any geometry. -/
def Block.zeros (blksz blkcnt : ℕ) : Block where
  blksz := blksz
  blkcnt := blkcnt
  read blkno n := (n, slice (List.replicate (blksz * blkcnt) 0) (blkno * blksz) (n * blksz))

theorem Block.zeros_errorFree (h : blksz * blkcnt < 2 ^ 64) :
    (Block.zeros blksz blkcnt).ErrorFree (List.replicate (blksz * blkcnt) 0) :=
  ⟨List.length_replicate, by rwa [List.length_replicate], fun _ _ _ => rfl⟩

theorem Block.zeros_none_mem {blkcnt : ℕ} (hcap : blksz * blkcnt < 2 ^ 64)
    (hlong : 2 ^ 32 ≤ headPart blksz offset (min count (blksz * blkcnt - offset)) ∨
      2 ^ 32 ≤ tailPart blksz offset (min count (blksz * blkcnt - offset))) :
    (blockReadRun (Block.zeros blksz blkcnt) true offset count).ret =
        min count (blksz * blkcnt - offset) ∧
      none ∈ (blockReadRun (Block.zeros blksz blkcnt) true offset count).stored := by
  have hfree := Block.zeros_errorFree hcap
  have hlen : (List.replicate (blksz * blkcnt) (0 : UInt8)).length = blksz * blkcnt :=
    List.length_replicate
  have hparts := @parts_add offset (min count (blksz * blkcnt - offset)) blksz
  have hends : (ReadRun.returned (readParts (Block.zeros blksz blkcnt) offset
      (min count (blksz * blkcnt - offset)))).Ends (Block.zeros blksz blkcnt) _ offset
      (min count (blksz * blkcnt - offset)) :=
    readParts_ends hfree.allOrNothing (by omega) (by omega)
  rw [blockReadRun_eq hfree.allOrNothing (by omega) (by omega), hlen]
  have hret := hends.complete.resolve_right (hfree.not_failed hends.inside)
  exact ⟨hret, hends.stored.none_mem hret hlong⟩

/-- **Any read from an error-free device** stores the bytes of the range that are on it. -/
theorem blockRead_slice (h : blk.ErrorFree content) (hlt : count < 2 ^ 32) :
    blockRead blk true offset count =
      ((slice content offset count).length, (slice content offset count).map some) := by
  have hall := h.allOrNothing
  have hparts := @parts_add offset (min count (content.length - offset)) blk.blksz
  have hexact : ReadsExactly blk content true offset count :=
    readsExactly hall true (by omega) (by omega)
  have hret := hexact.complete rfl (h.not_failed hexact.inside)
  rw [hall.capacity_eq] at hret
  have hslice : slice content offset (min count (content.length - offset)) =
      slice content offset count := by
    rw [slice, slice, ← List.length_drop, ← List.take_eq_take_min]
  have hlen : (slice content offset count).length = min count (content.length - offset) := by
    rw [slice, List.length_take, List.length_drop]
  rw [blockRead, hexact.stored, hret, hslice, hlen]

/-- **A read of a range** of an error-free device. -/
theorem blockRead_eq (h : blk.ErrorFree content) (hlt : count < 2 ^ 32)
    (hfit : offset + count ≤ content.length) :
    blockRead blk true offset count = (count, (slice content offset count).map some) := by
  rw [blockRead_slice h hlt, slice_length hfit]

end

end Ginkgo.Driver
