import Ginkgo.Fs.VfsFile

/-!
# Seeking in open files

What `vfs_lseek` computes with signed 64-bit numbers, compared with the integers: the sum of the
base and the offset, clamped to the file.  The only sum that can leave the range is the one for
`VFS_SEEK_CUR`; it is then taken for a negative one.

## Main results

* `vfsLseek_exact_iff` — a seek is exact exactly if the sum does not overflow.
-/

namespace Ginkgo.Fs

/-- `VFS_SEEK_SET`. -/
def vfsSeekSet : Int32 := 0

/-- `VFS_SEEK_CUR`. -/
def vfsSeekCur : Int32 := 1

/-- `VFS_SEEK_END`. -/
def vfsSeekEnd : Int32 := 2

/-- What an offset is relative to. -/
def seekBase (size cur : Int64) (whence : Int32) : Option ℤ :=
  if whence = vfsSeekSet then some 0
  else if whence = vfsSeekCur then some cur.toInt
  else if whence = vfsSeekEnd then some size.toInt
  else none

/-- Where a seek goes: the sum of the base and the offset, clamped to the file. -/
def seekTarget (size cur off : Int64) (whence : Int32) : ℤ :=
  match seekBase size cur whence with
  | some base => max 0 (min (base + off.toInt) size.toInt)
  | none => cur.toInt

/-- The seek goes to its target and returns it, and changes nothing else. -/
def SeeksExactly {δ : Type} (st : Server δ) (fd : Int32) (i n : ℕ) (off : Int64)
    (whence : Int32) : Prop :=
  ∃ r : Int64,
    (vfsLseek fd off whence).run st = .ok (r, st.setFile i { st.file i with offset := r }) ∧
      r.toInt = seekTarget (st.attr n).size (st.file i).offset off whence

section Offsets

variable {size cur off : Int64} {whence : Int32}

theorem toInt_add_of_lt (hcur : 0 ≤ cur.toInt) (h : cur.toInt + off.toInt < 2 ^ 63) :
    (cur + off).toInt = cur.toInt + off.toInt := by
  have hoff := off.le_toInt
  rw [Int64.toInt_add, Int.bmod_eq_of_le]
  · omega
  · omega

theorem toInt_add_of_le (h : 2 ^ 63 ≤ cur.toInt + off.toInt) :
    (cur + off).toInt = cur.toInt + off.toInt - 2 ^ 64 := by
  have hcur := cur.toInt_lt
  have hoff := off.toInt_lt
  rw [Int64.toInt_add, Int.bmod_def]
  omega

theorem seekOffset_eq_some {base : ℤ} (hcur : 0 ≤ cur.toInt) (hle : cur.toInt ≤ size.toInt)
    (hsum : whence = vfsSeekCur → cur.toInt + off.toInt < 2 ^ 63)
    (hbase : seekBase size cur whence = some base) :
    ∃ r, seekOffset size cur off whence = some r ∧
      r.toInt = max 0 (min (base + off.toInt) size.toInt) := by
  have hzero : (0 : Int64).toInt = 0 := rfl
  unfold seekBase vfsSeekSet vfsSeekCur vfsSeekEnd at hbase
  unfold vfsSeekCur at hsum
  unfold seekOffset
  simp only [Int64.lt_iff_toInt_lt, hzero]
  split_ifs at hbase with hset hcurrent hend
  · cases hbase
    rw [if_pos hset]
    split_ifs with hneg hlarge
    · exact ⟨0, rfl, by omega⟩
    · exact ⟨size, rfl, by omega⟩
    · exact ⟨off, rfl, by omega⟩
  · cases hbase
    rw [if_neg hset, if_pos hcurrent, toInt_add_of_lt hcur (hsum hcurrent)]
    split_ifs with hlarge hneg
    · exact ⟨size, rfl, by omega⟩
    · exact ⟨0, rfl, by omega⟩
    · refine ⟨cur + off, rfl, ?_⟩
      rw [toInt_add_of_lt hcur (hsum hcurrent)]
      omega
  · cases hbase
    rw [if_neg hset, if_neg hcurrent, if_pos hend]
    by_cases hpos : 0 < off.toInt
    · rw [if_pos hpos]
      exact ⟨size, rfl, by omega⟩
    · have hadd : (size + off).toInt = size.toInt + off.toInt := by
        have hlt := size.toInt_lt
        exact toInt_add_of_lt (by omega) (by omega)
      rw [if_neg hpos, hadd]
      split_ifs with hneg
      · exact ⟨0, rfl, by omega⟩
      · exact ⟨size + off, rfl, by omega⟩

theorem seekOffset_eq_none (hbase : seekBase size cur whence = none) :
    seekOffset size cur off whence = none := by
  unfold seekBase vfsSeekSet vfsSeekCur vfsSeekEnd at hbase
  unfold seekOffset
  split_ifs at hbase with hset hcurrent hend
  rw [if_neg hset, if_neg hcurrent, if_neg hend]

theorem seekOffset_overflow (hle : cur.toInt ≤ size.toInt)
    (hsum : 2 ^ 63 ≤ cur.toInt + off.toInt) :
    seekOffset size cur off vfsSeekCur = some 0 := by
  have hzero : (0 : Int64).toInt = 0 := rfl
  have hlt := cur.toInt_lt
  have hoff := off.toInt_lt
  unfold seekOffset
  rw [if_neg (by decide), if_pos (c := vfsSeekCur = 1) rfl]
  simp only [Int64.lt_iff_toInt_lt, hzero, toInt_add_of_le hsum]
  rw [if_neg (by omega), if_pos (by omega)]

end Offsets

section Seek

variable {δ : Type} {st : Server δ} {fd : Int32} {i n : ℕ} {off : Int64} {whence : Int32}

theorem vfsLseek_eq_some (hopen : st.opened fd = some (i, n)) {r : Int64}
    (hr : seekOffset (st.attr n).size (st.file i).offset off whence = some r)
    (hle : r ≤ (st.attr n).size) :
    (vfsLseek fd off whence).run st = .ok (r, st.setFile i { st.file i with offset := r }) := by
  simp [vfsLseek, hopen, hr, hle]
  rfl

theorem vfsLseek_eq_none (hopen : st.opened fd = some (i, n))
    (hr : seekOffset (st.attr n).size (st.file i).offset off whence = none) :
    (vfsLseek fd off whence).run st = .ok ((st.file i).offset, st) := by
  simp [vfsLseek, hopen, hr]
  rfl

theorem setFile_offset (st : Server δ) (i : ℕ) :
    st.setFile i { st.file i with offset := (st.file i).offset } = st := by
  simp [Server.setFile]

variable (hopen : st.opened fd = some (i, n)) (hcur : 0 ≤ (st.file i).offset.toInt)
  (hle : (st.file i).offset.toInt ≤ (st.attr n).size.toInt)

include hopen hcur hle

theorem seeksExactly
    (hsum : whence = vfsSeekCur → (st.file i).offset.toInt + off.toInt < 2 ^ 63) :
    SeeksExactly st fd i n off whence := by
  unfold SeeksExactly seekTarget
  cases hbase : seekBase (st.attr n).size (st.file i).offset whence with
  | none =>
    refine ⟨(st.file i).offset, ?_, rfl⟩
    rw [setFile_offset, vfsLseek_eq_none hopen (seekOffset_eq_none hbase)]
  | some base =>
    obtain ⟨r, hr, hmax⟩ := seekOffset_eq_some hcur hle hsum hbase
    refine ⟨r, vfsLseek_eq_some hopen hr ?_, hmax⟩
    rw [Int64.le_iff_toInt_le]
    omega

/-- **Seeking is exact** exactly if the sum for `VFS_SEEK_CUR` does not overflow.

**Proof sketch.** Without an overflow, each case compares the integers it adds.  With one, the sum
is negative and the seek goes to the beginning of the file; the file is not empty, because the sum
of its offset and a number below `2 ^ 63` is not below `2 ^ 63`. -/
theorem vfsLseek_exact_iff : SeeksExactly st fd i n off whence ↔
    (whence = vfsSeekCur → (st.file i).offset.toInt + off.toInt < 2 ^ 63) := by
  refine ⟨?_, seeksExactly hopen hcur hle⟩
  rintro ⟨r, hrun, hr⟩ rfl
  by_contra hsum
  have hsum' : 2 ^ 63 ≤ (st.file i).offset.toInt + off.toInt := by omega
  have hrun' := vfsLseek_eq_some hopen (seekOffset_overflow hle hsum') (by
    rw [Int64.le_iff_toInt_le]
    exact hcur.trans hle)
  obtain rfl : r = 0 := (Prod.mk.inj (Except.ok.inj (hrun.symm.trans hrun'))).1
  have hbase : seekBase (st.attr n).size (st.file i).offset vfsSeekCur =
      some (st.file i).offset.toInt := rfl
  rw [seekTarget, hbase] at hr
  have hzero : (0 : Int64).toInt = 0 := rfl
  have hlt := (st.attr n).size.toInt_lt
  have hoff := off.toInt_lt
  dsimp only at hr
  omega

end Seek

/-- A file of `size` bytes that is open at `cur` with the descriptor `3`. -/
def oneOpenFile (size cur : Int64) : Server Unit where
  vfs := Vfs.empty
  attr := fun _ => ⟨false, 0, 0, 0, 0, size, 0⟩
  mountFlags := fun _ => 0
  file := fun i => if i = 3 then ⟨some 0, cur, oRdonly⟩ else ⟨none, 0, 0⟩
  disk := ()

/-- The theorem applies to a seek to the end of a file. -/
theorem vfsLseek_exact_iff_end : SeeksExactly (oneOpenFile 10 4) 3 3 0 100 vfsSeekEnd :=
  (vfsLseek_exact_iff (by decide) (by decide) (by decide)).mpr fun h => absurd h (by decide)

/-- A seek far beyond the end goes to the beginning. -/
theorem vfsLseek_overflows :
    (vfsLseek 3 0x7fffffffffffffff vfsSeekCur).run (oneOpenFile 10 4) =
        .ok (0, (oneOpenFile 10 4).setFile 3 ⟨some 0, 0, oRdonly⟩) ∧
      seekTarget 10 4 0x7fffffffffffffff vfsSeekCur = 10 ∧
      ¬ SeeksExactly (oneOpenFile 10 4) 3 3 0 0x7fffffffffffffff vfsSeekCur := by
  have hrun : (vfsLseek 3 0x7fffffffffffffff vfsSeekCur).run (oneOpenFile 10 4) =
      .ok (0, (oneOpenFile 10 4).setFile 3 ⟨some 0, 0, oRdonly⟩) :=
    vfsLseek_eq_some (n := 0) (by decide) (by decide) (by decide)
  have htarget : seekTarget 10 4 0x7fffffffffffffff vfsSeekCur = 10 := by decide
  refine ⟨hrun, htarget, ?_⟩
  rintro ⟨r, hr, hexact⟩
  obtain rfl : r = 0 := (Prod.mk.inj (Except.ok.inj (hr.symm.trans hrun))).1
  exact absurd (hexact.trans htarget) (by decide)

end Ginkgo.Fs
