import Ginkgo.Fs.CpioImage
import Ginkgo.Fs.VfsOpen
import Ginkgo.Fs.VfsSeek

/-!
# Reading files of an archive

A file of an archive that is read through a descriptor: `vfs_read` and `vfs_lseek` with the
functions of the file system for archives.  What the calls do is compared with a reader that is
known by its position in the data of the file only.

The data of a file are the bytes of the device that the header announces.  The search in the
archive is that of `cpio_lookup`; here it is known by the node that it has filled in.

## Main results

* `runCalls_reading` — the calls on a file of an archive do what the reader does.
* `cpioFile_reads` — so do they after `vfs_open`, and reads without seeks return the data
  of the file.
-/

namespace Ginkgo.Fs

open Layout Driver
open Fallible (bind_eq_ok ok_bind error_bind map_eq_ok)

variable {δ : Type}

/-! ## The file system -/

/-- The fields of a node that `cpio_lookup` sets. -/
def Server.cpioNode (st : Server δ) (n : ℕ) : CpioNode where
  atime := (st.attr n).atime.toNat
  mtime := (st.attr n).mtime.toNat
  ctime := (st.attr n).ctime.toNat
  mode := (st.attr n).mode.toNat
  type := st.type n
  size := (st.attr n).size.toInt
  data := (st.attr n).data.toNat

/-- `cpio_read`, called for a node. -/
def cpioFileRead (blk : Block) (heap : Bool) (n : ℕ) (off : Int64) (len : UInt64) :
    ServerM δ (UInt64 × Patch len.toNat) := do
  let st ← get
  let r := cpioRead blk heap (st.cpioNode n) off.toInt len.toNat
  return (UInt64.ofNat r.1, fun j => r.2[j.val]?.join)

variable {blk : Block} {heap : Bool} {st : Server δ} {len : UInt64}

theorem cpioFileRead_run {n : ℕ} {off : Int64} {ret : ℕ} {buf : List (Option UInt8)}
    (h : cpioRead blk heap (st.cpioNode n) off.toInt len.toNat = (ret, buf)) :
    (cpioFileRead blk heap n off len).run st =
      .ok ((UInt64.ofNat ret, fun j => buf[j.val]?.join), st) := by
  simp only [cpioFileRead, StateT.run_bind, StateT.run_get, pure_bind, h]
  rfl

/-- The functions of the file system for archives, on a device.  Those that search the archive are
the ones of `base`. -/
def cpioFileSystem (blk : Block) (heap : Bool) (base : FileSystem δ) : FileSystem δ :=
  { base with
    read := cpioFileRead blk heap
    write := fun _ _ _ _ => return 0
    truncate := fun _ _ => return -1
    sync := fun _ => return 0
    create := fun _ _ _ => return -1
    remove := fun _ _ _ => return -1
    rename := fun _ _ _ _ _ => return -1
    mkdir := fun _ _ _ => return -1
    rmdir := fun _ _ _ => return -1
    chmod := fun _ _ => return -1 }

/-! ## Calls on a descriptor -/

/-- A call on a descriptor. -/
inductive FileCall
  /-- `vfs_read(fd, buf, len)`. -/
  | read (len : UInt64) (buf : Bytes len.toNat)
  /-- `vfs_lseek(fd, off, whence)`. -/
  | seek (off : Int64) (whence : Int32)

/-- What a call returns. -/
inductive FileReply
  /-- The number of bytes, and the buffer afterwards. -/
  | read (ret : UInt64) (buf : List UInt8)
  /-- The offset. -/
  | seek (offset : Int64)
deriving DecidableEq

/-- Make a call. -/
def FileCall.run (fs : FileSystem δ) (fd : Int32) : FileCall → ServerM δ FileReply
  | .read len buf => do
    let (ret, buf) ← vfsRead fs fd len (some buf)
    return .read ret (buf.elim [] List.ofFn)
  | .seek off whence => return .seek (← vfsLseek fd off whence)

/-- Make several calls. -/
def runCalls (fs : FileSystem δ) (fd : Int32) (calls : List FileCall) :
    ServerM δ (List FileReply) :=
  calls.mapM (FileCall.run fs fd)

/-- **The reader**: what a call returns at a position in the data, and the position afterwards. -/
def FileCall.spec (data : List UInt8) (pos : ℕ) : FileCall → FileReply × ℕ
  | .read len buf =>
    let bytes := slice data pos len.toNat
    (.read (UInt64.ofNat bytes.length) (bytes ++ (List.ofFn buf).drop bytes.length),
      pos + bytes.length)
  | .seek off whence =>
    let p := (seekTarget (Int64.ofNat data.length) (Int64.ofNat pos) off whence).toNat
    (.seek (Int64.ofNat p), p)

/-- Several calls of the reader. -/
def specCalls (data : List UInt8) : ℕ → List FileCall → List FileReply × ℕ
  | pos, [] => ([], pos)
  | pos, c :: calls =>
    let rest := specCalls data (c.spec data pos).2 calls
    ((c.spec data pos).1 :: rest.1, rest.2)

/-- The sum of the position and an offset does not overflow. -/
def FileCall.NoOverflow (pos : ℕ) : FileCall → Prop
  | .read _ _ => True
  | .seek off whence => whence = vfsSeekCur → pos + off.toInt < 2 ^ 63

/-- No sum overflows in several calls. -/
def NoOverflows (data : List UInt8) : ℕ → List FileCall → Prop
  | _, [] => True
  | pos, c :: calls => c.NoOverflow pos ∧ NoOverflows data (c.spec data pos).2 calls

/-! ## Reads of a node -/

theorem size_lt_of_readEntry {off : ℕ} {header path : List UInt8} {f : Fields}
    {rest : List UInt8 × List UInt8} (h : readEntry blk heap off header path = .ok (some (f, rest)))
    : f.size < 2 ^ 32 := by
  obtain ⟨⟨rd, header₁⟩, _, h⟩ := bind_eq_ok.mp h
  dsimp only at h
  split_ifs at h
  · cases h
  · cases h
  obtain ⟨⟨rd₂, path₂⟩, _, h⟩ := bind_eq_ok.mp h
  dsimp only at h
  split_ifs at h
  · cases h
  obtain ⟨ended, _, h⟩ := bind_eq_ok.mp h
  split_ifs at h
  · cases h
  obtain ⟨rfl, -⟩ := Prod.mk.inj (Option.some.inj (Except.ok.inj h))
  exact headerField_lt header₁ 54

theorem size_lt_of_lookupLoop {vPath name : List UInt8} {fuel : ℕ} :
    ∀ {off : ℕ} {header path : List UInt8} {r : Found},
      lookupLoop blk heap vPath name fuel off header path = some (.ok (some r)) →
      r.size < 2 ^ 32 := by
  induction fuel with
  | zero =>
    intro off header path r h
    cases h
  | succ fuel ih =>
    intro off header path r h
    rw [lookupLoop] at h
    split at h
    · cases h
    · cases h
    · next r' hstep =>
      obtain rfl := Option.some.inj (Except.ok.inj (Option.some.inj h))
      obtain ⟨entry, hentry, hstep⟩ := bind_eq_ok.mp hstep
      cases entry with
      | none => cases hstep
      | some e =>
        obtain ⟨f, header₁, path₁⟩ := e
        obtain ⟨c, _, hstep⟩ := bind_eq_ok.mp hstep
        obtain ⟨found, _, hstep⟩ := bind_eq_ok.mp hstep
        cases found with
        | true =>
          cases hstep
          exact size_lt_of_readEntry hentry
        | false => cases hstep
    · exact ih h

theorem size_of_cpioLookup {fuel : ℕ} {vPath name header path : List UInt8} {n node : CpioNode}
    (h : cpioLookup blk heap fuel vPath name header path n = some (.ok (0, node))) :
    ∃ size : ℕ, node.size = size ∧ size < 2 ^ 32 := by
  rw [cpioLookup, Option.map_eq_some_iff] at h
  obtain ⟨result, hloop, h⟩ := h
  obtain ⟨found, rfl, hnode⟩ := map_eq_ok.mp h
  cases found with
  | none => exact absurd (Prod.mk.inj hnode).1 (by decide)
  | some r =>
    obtain rfl := (Prod.mk.inj hnode).2
    exact ⟨r.size, rfl, size_lt_of_lookupLoop hloop⟩

/-- The data of a file: the bytes of the device that its node announces. -/
def CpioNode.bytes (node : CpioNode) (content : List UInt8) : List UInt8 :=
  slice content node.data node.size.toNat

section Read

variable {blk : Block} {content : List UInt8} {node : CpioNode} {size pos : ℕ}

theorem CpioNode.length_bytes (hsize : node.size = size)
    (hfit : node.data + size ≤ content.length) : (node.bytes content).length = size := by
  rw [CpioNode.bytes, hsize, Int.toNat_natCast, slice_length hfit]

theorem cpioRead_bytes (hdev : blk.ErrorFree content) (hreg : node.type = .reg)
    (hsize : node.size = size) (hlt : size < 2 ^ 32) (hfit : node.data + size ≤ content.length)
    (hpos : pos ≤ size) (len : ℕ) : cpioRead blk true node pos len =
      ((slice (node.bytes content) pos len).length,
        (slice (node.bytes content) pos len).map some) := by
  have hcap := hdev.length_lt
  have hlen := node.length_bytes hsize hfit
  have hmin : slice (node.bytes content) pos len =
      slice content (node.data + pos) (min (size - pos) len) := by
    rw [← slice_slice content node.data (show pos + min (size - pos) len ≤ size by omega)]
    have hbytes : slice content node.data size = node.bytes content := by
      rw [CpioNode.bytes, hsize, Int.toNat_natCast]
    rw [hbytes, slice, slice, ← hlen, ← List.length_drop, Nat.min_comm, ← List.take_eq_take_min]
  rw [cpioRead, if_neg (not_not.mpr hreg), hsize]
  by_cases hend : size ≤ pos
  · rw [if_pos (by exact_mod_cast hend), hmin, Nat.sub_eq_zero_of_le hend, Nat.zero_min]
    simp
  · rw [if_neg (by exact_mod_cast hend)]
    have hrest : (((size : ℤ) - pos) % 2 ^ 64).toNat = size - pos := by omega
    have hoff : ((pos : ℤ) % 2 ^ 64).toNat = pos := by omega
    have hsz : (if size - pos < len then size - pos else len) = min (size - pos) len := by
      split_ifs <;> omega
    simp only [hrest, hoff, hsz, wrap64_of_lt (show node.data + pos < 2 ^ 64 by omega)]
    rw [hmin, blockRead_slice hdev (by omega)]

end Read

/-! ## One call -/

/-- A descriptor for reading is at a position of a file. -/
structure Server.At (st : Server δ) (fd : Int32) (i n : ℕ) (node : CpioNode) (pos : ℕ) :
    Prop where
  opened : st.opened fd = some (i, n)
  flags : (st.file i).flags &&& oRdonly ≠ 0
  node_eq : st.cpioNode n = node
  offset : (st.file i).offset.toInt = pos

section Calls

variable {st : Server δ} {fd : Int32} {i n : ℕ} {node : CpioNode} {pos : ℕ}

theorem Server.At.setOffset (h : st.At fd i n node pos) {o : Int64} {pos' : ℕ}
    (ho : o.toInt = pos') :
    (st.setFile i { st.file i with offset := o }).At fd i n node pos' := by
  refine ⟨?_, ?_, h.node_eq, ?_⟩
  · have hopened := h.opened
    simp only [Server.opened, Option.bind_eq_bind, Option.bind_eq_some_iff] at hopened ⊢
    obtain ⟨j, hj, m, hm, heq⟩ := hopened
    obtain ⟨rfl, rfl⟩ := Prod.mk.inj (Option.some.inj heq)
    exact ⟨j, hj, m, by simpa [Server.setFile] using hm, rfl⟩
  · simpa [Server.setFile] using h.flags
  · simpa [Server.setFile] using ho

theorem ofFn_apply_stored {k : ℕ} (buf : Bytes k) {bytes : List UInt8} (hle : bytes.length ≤ k) :
    List.ofFn (Patch.apply (fun j => (bytes.map some)[j.val]?.join) buf) =
      bytes ++ (List.ofFn buf).drop bytes.length := by
  apply List.ext_getElem?
  intro j
  by_cases hin : j < bytes.length
  · rw [List.getElem?_append_left hin, List.getElem?_ofFn, dif_pos (by omega)]
    simp [Patch.apply, hin]
  · rw [List.getElem?_append_right (by omega), List.getElem?_drop, List.getElem?_ofFn,
      List.getElem?_ofFn]
    have hj : bytes.length + (j - bytes.length) = j := by omega
    simp only [hj]
    split_ifs with hlt
    · simp [Patch.apply, hin]
    · rfl

theorem toInt_toInt64_ofNat {k : ℕ} (h : k < 2 ^ 63) : (UInt64.ofNat k).toInt64.toInt = k := by
  have hnat : (UInt64.ofNat k).toNat = k :=
    UInt64.toNat_ofNat_of_lt' (by show k < 2 ^ 64; omega)
  rw [← Int64.toInt_toBitVec, UInt64.toBitVec_toInt64, BitVec.toInt_eq_toNat_of_lt]
  · rw [UInt64.toNat_toBitVec, hnat]
  · rw [UInt64.toNat_toBitVec, hnat]
    omega

theorem vfsRead_eq {fs : FileSystem δ} {ret : UInt64} {p : Patch len.toNat}
    (hopen : st.opened fd = some (i, n)) (htype : st.type n = .reg)
    (hflags : (st.file i).flags &&& oRdonly ≠ 0) (hlen : len ≠ 0)
    (hread : (fs.read n (st.file i).offset len).run st = .ok ((ret, p), st)) (buf : Bytes len.toNat)
    :
    (vfsRead fs fd len (some buf)).run st = .ok ((ret, some (p.apply buf)),
      st.setFile i { st.file i with offset := (st.file i).offset + ret.toInt64 }) := by
  simp [vfsRead, hlen, hopen, htype, hflags, hread]

variable {blk : Block} {content : List UInt8} {size : ℕ} (base : FileSystem δ)
  (hdev : blk.ErrorFree content) (hreg : node.type = .reg) (hsize : node.size = size)
  (hlt : size < 2 ^ 32) (hfit : node.data + size ≤ content.length)

include hdev hreg hsize hlt hfit

theorem read_at (h : st.At fd i n node pos) (hpos : pos ≤ size) (len : UInt64)
    (buf : Bytes len.toNat) :
    ∃ st', ((FileCall.read len buf).run (cpioFileSystem blk true base) fd).run st =
        .ok (((FileCall.read len buf).spec (node.bytes content) pos).1, st') ∧
      st'.At fd i n node ((FileCall.read len buf).spec (node.bytes content) pos).2 ∧
      ((FileCall.read len buf).spec (node.bytes content) pos).2 ≤ size := by
  have hbytes := node.length_bytes hsize hfit
  have hlen : (slice (node.bytes content) pos len.toNat).length ≤ len.toNat := by
    rw [slice, List.length_take]
    omega
  have hend : pos + (slice (node.bytes content) pos len.toNat).length ≤ size := by
    rw [slice, List.length_take, List.length_drop]
    omega
  by_cases hzero : len = 0
  · subst hzero
    refine ⟨st, ?_, ?_, hend⟩
    · simp [FileCall.run, vfsRead, FileCall.spec]
      rfl
    · simpa [FileCall.spec] using h
  · have hread := cpioRead_bytes hdev hreg hsize hlt hfit hpos len.toNat
    have hstored := ofFn_apply_stored buf hlen
    simp only [FileCall.spec]
    generalize slice (node.bytes content) pos len.toNat = bytes at *
    have htype : st.type n = .reg := by
      rw [← hreg, ← h.node_eq]
      rfl
    have hrun : ((cpioFileSystem blk true base).read n (st.file i).offset len).run st =
        .ok ((UInt64.ofNat bytes.length, fun j => (bytes.map some)[j.val]?.join), st) :=
      cpioFileRead_run (by rw [h.node_eq, h.offset, hread])
    have hret : (UInt64.ofNat bytes.length).toInt64.toInt = bytes.length :=
      toInt_toInt64_ofNat (by omega)
    have hoffset : ((st.file i).offset + (UInt64.ofNat bytes.length).toInt64).toInt =
        (pos + bytes.length : ℕ) := by
      rw [toInt_add_of_lt (by rw [h.offset]; omega) (by rw [h.offset, hret]; omega), h.offset,
        hret]
      rfl
    refine ⟨_, ?_, h.setOffset hoffset, hend⟩
    rw [FileCall.run, StateT.run_bind, vfsRead_eq h.opened htype h.flags hzero hrun,
      ok_bind]
    show Except.ok _ = Except.ok _
    rw [← hstored]
    rfl

omit hdev hreg in
theorem seek_at (h : st.At fd i n node pos) (hpos : pos ≤ size) {off : Int64} {whence : Int32}
    (hsum : (FileCall.seek off whence).NoOverflow pos) {fs : FileSystem δ} :
    ∃ st', ((FileCall.seek off whence).run fs fd).run st =
        .ok (((FileCall.seek off whence).spec (node.bytes content) pos).1, st') ∧
      st'.At fd i n node ((FileCall.seek off whence).spec (node.bytes content) pos).2 ∧
      ((FileCall.seek off whence).spec (node.bytes content) pos).2 ≤ size := by
  have hnode : (st.attr n).size.toInt = size := by
    rw [← hsize, ← h.node_eq]
    rfl
  have hoffset := h.offset
  have hexact : SeeksExactly st fd i n off whence := by
    apply seeksExactly h.opened
    · omega
    · omega
    · intro hcur
      rw [hoffset]
      exact hsum hcur
  have hsz : Int64.ofNat (node.bytes content).length = (st.attr n).size := by
    rw [node.length_bytes hsize hfit]
    apply Int64.toInt.inj
    rw [hnode, Int64.toInt_ofNat_of_lt (by omega)]
  have hcur : Int64.ofNat pos = (st.file i).offset := by
    apply Int64.toInt.inj
    rw [hoffset, Int64.toInt_ofNat_of_lt (by omega)]
  obtain ⟨o, hrun, ho⟩ := hexact
  have hrange : 0 ≤ o.toInt ∧ o.toInt ≤ size := by
    rw [ho, seekTarget]
    split
    · omega
    · omega
  simp only [FileCall.spec, hsz, hcur, ← ho]
  have htarget : o.toInt = (o.toInt.toNat : ℤ) := by omega
  refine ⟨_, ?_, h.setOffset htarget, by omega⟩
  have hreply : Int64.ofNat o.toInt.toNat = o := by
    apply Int64.toInt.inj
    rw [Int64.toInt_ofNat_of_lt (by omega)]
    omega
  rw [FileCall.run, StateT.run_bind, hrun, ok_bind, hreply]
  rfl

theorem call_at (h : st.At fd i n node pos) (hpos : pos ≤ size) {c : FileCall}
    (hsum : c.NoOverflow pos) :
    ∃ st', (c.run (cpioFileSystem blk true base) fd).run st =
        .ok ((c.spec (node.bytes content) pos).1, st') ∧
      st'.At fd i n node (c.spec (node.bytes content) pos).2 ∧
      (c.spec (node.bytes content) pos).2 ≤ size := by
  cases c with
  | read len buf => exact read_at base hdev hreg hsize hlt hfit h hpos len buf
  | seek off whence => exact seek_at hsize hlt hfit h hpos hsum

/-- **The calls on a file of an archive** do what the reader does. -/
theorem runCalls_reading (h : st.At fd i n node pos) (hpos : pos ≤ size) {calls : List FileCall}
    (hsum : NoOverflows (node.bytes content) pos calls) :
    ∃ st', (runCalls (cpioFileSystem blk true base) fd calls).run st =
        .ok ((specCalls (node.bytes content) pos calls).1, st') ∧
      st'.At fd i n node (specCalls (node.bytes content) pos calls).2 ∧
      (specCalls (node.bytes content) pos calls).2 ≤ size := by
  induction calls generalizing st pos with
  | nil => exact ⟨st, rfl, h, hpos⟩
  | cons c calls ih =>
    obtain ⟨st₁, hrun₁, hat₁, hle₁⟩ := call_at base hdev hreg hsize hlt hfit h hpos hsum.1
    obtain ⟨st₂, hrun₂, hat₂, hle₂⟩ := ih hat₁ hle₁ hsum.2
    refine ⟨st₂, ?_, hat₂, hle₂⟩
    rw [runCalls] at hrun₂ ⊢
    rw [List.mapM_cons, StateT.run_bind, hrun₁, ok_bind, StateT.run_bind, hrun₂,
      ok_bind]
    rfl

end Calls

/-! ## Reads without seeks -/

/-- The call is a read. -/
def FileCall.IsRead : FileCall → Prop
  | .read _ _ => True
  | .seek _ _ => False

/-- The number of bytes that a call asks for. -/
def FileCall.length : FileCall → ℕ
  | .read len _ => len.toNat
  | .seek _ _ => 0

/-- The bytes that a call has returned. -/
def FileReply.bytes : FileReply → List UInt8
  | .read ret buf => buf.take ret.toNat
  | .seek _ => []

section Reads

variable {data : List UInt8} {pos : ℕ}

theorem slice_append_rest (data : List UInt8) (pos len k : ℕ) :
    slice data pos len ++ slice data (pos + (slice data pos len).length) k =
      slice data pos (len + k) := by
  by_cases hfit : pos + len ≤ data.length
  · rw [slice_length hfit, slice_append]
  · have hnil : ∀ a, data.length ≤ a → slice data a k = [] := by
      intro a ha
      rw [slice, List.drop_eq_nil_of_le ha, List.take_nil]
    rw [← slice_append, hnil (pos + len) (by omega), hnil]
    rw [slice, List.length_take, List.length_drop]
    omega

theorem specCalls_reads {calls : List FileCall} (hreads : ∀ c ∈ calls, c.IsRead)
    (hpos : pos ≤ data.length) :
    ((specCalls data pos calls).1.map FileReply.bytes).flatten =
        slice data pos (calls.map FileCall.length).sum ∧
      (specCalls data pos calls).2 = min (pos + (calls.map FileCall.length).sum) data.length := by
  induction calls generalizing pos with
  | nil => simp [specCalls, hpos]
  | cons c calls ih =>
    cases c with
    | seek off whence => exact (hreads _ List.mem_cons_self).elim
    | read len buf =>
      have hlen : (slice data pos len.toNat).length = min len.toNat (data.length - pos) := by
        rw [slice, List.length_take, List.length_drop]
      have hret : (UInt64.ofNat (slice data pos len.toNat).length).toNat =
          (slice data pos len.toNat).length :=
        UInt64.toNat_ofNat_of_lt' (by
          have := len.toNat_lt
          show _ < 2 ^ 64
          omega)
      have hnext : pos + (slice data pos len.toNat).length ≤ data.length := by omega
      obtain ⟨hbytes, hend⟩ := ih (fun c hc => hreads c (List.mem_cons_of_mem _ hc)) hnext
      refine ⟨?_, ?_⟩
      · simp only [specCalls, FileCall.spec, List.map_cons, List.flatten_cons, hbytes,
          FileReply.bytes, hret, List.take_left, FileCall.length, List.sum_cons]
        exact slice_append_rest _ _ _ _
      · simp only [specCalls, FileCall.spec, List.map_cons, hend, FileCall.length, List.sum_cons]
        omega

end Reads

/-! ## Opening -/

theorem vfsNodeAcquireLoop_result {replies : Str → FsReply}
    (hlookup : ∀ path, (replies path).lookup = 0 ∨ (replies path).lookup = -1) {m : ℕ}
    {names : List (Str × Bool)} {s s' : Vfs} {dn : ℕ} {node : Str} {err : ℤ} {np : Option ℕ}
    (h : vfsNodeAcquireLoop replies m s dn node names = .ok (s', err, np)) :
    err = 0 ∨ err = -1 := by
  induction names generalizing s dn node with
  | nil =>
    obtain ⟨-, heq⟩ := Prod.mk.inj (Except.ok.inj h)
    exact .inl (Prod.mk.inj heq).1.symm
  | cons name rest ih =>
    obtain ⟨name, slash⟩ := name
    rw [vfsNodeAcquireLoop] at h
    dsimp only at h
    split_ifs at h with hlong
    split at h
    · exact ih h
    · split at h
      · obtain ⟨-, heq⟩ := Prod.mk.inj (Except.ok.inj h)
        exact .inr (Prod.mk.inj heq).1.symm
      · split_ifs at h with hbad
        · obtain ⟨s₁, _, h⟩ := bind_eq_ok.mp h
          obtain ⟨-, heq⟩ := Prod.mk.inj (Except.ok.inj h)
          rw [← (Prod.mk.inj heq).1]
          exact hlookup _
        · exact ih h

theorem acquire_result {fs : FileSystem δ} {path : Str} {st₁ : Server δ} {err : Int32}
    {np : Option ℕ}
    (hlookup : ∀ st path, (fs.replies st path).lookup = 0 ∨ (fs.replies st path).lookup = -1)
    (h : (acquire fs path).run st = .ok ((err, np), st₁)) : err = 0 ∨ err = -1 := by
  obtain ⟨vfs, e, hacq, rfl⟩ : ∃ vfs e,
      vfsNodeAcquire (fs.replies st) st.vfs path = .ok (vfs, e, np) ∧ err = Int32.ofInt e := by
    cases hacq : vfsNodeAcquire (fs.replies st) st.vfs path with
    | error f => simp [acquire, hacq] at h
    | ok r =>
      obtain ⟨vfs, e, np'⟩ := r
      have heq : Int32.ofInt e = err ∧ np' = np := by
        simp [acquire, hacq] at h
        exact h.1
      obtain ⟨rfl, rfl⟩ := heq
      exact ⟨vfs, e, rfl, rfl⟩
  have he : e = 0 ∨ e = -1 := by
    rw [vfsNodeAcquire] at hacq
    split at hacq
    · exact .inr (Prod.mk.inj (Prod.mk.inj (Except.ok.inj hacq)).2).1.symm
    · split at hacq
      · exact .inr (Prod.mk.inj (Prod.mk.inj (Except.ok.inj hacq)).2).1.symm
      · exact vfsNodeAcquireLoop_result (hlookup st) hacq
  rcases he with rfl | rfl
  · exact .inl rfl
  · exact .inr rfl

theorem vfsOpenFd_opened {st' : Server δ} {n : ℕ} {flags : UInt32} {fd : Int32}
    (h : (vfsOpenFd n flags 0).run st = .ok (fd, st')) (hfd : 0 ≤ fd) :
    ∃ i n, st'.opened fd = some (i, n) ∧ st'.file i = ⟨some n, 0, flags⟩ := by
  obtain ⟨-, hfree⟩ := vfsOpenFd_nonneg h (.inl rfl) hfd
  obtain ⟨i, hi⟩ := Option.ne_none_iff_exists'.mp hfree
  have hopen : (.ok (Int32.ofNat i, st.setFile i ⟨some n, 0, flags⟩) : Except Fault _) =
      .ok (fd, st') := by
    rw [← h]
    simp [vfsOpenFd, hi]
    rfl
  obtain ⟨rfl, rfl⟩ := Prod.mk.inj (Except.ok.inj hopen)
  have hrange := (List.mem_range'_1.mp (List.mem_of_find?_eq_some hi)).2
  have hindex : vfsFdToFile (Int32.ofNat i) = some i := by
    unfold vfsMaxFd at hrange
    rw [vfsFdToFile, Int32.toInt_ofNat_of_lt (by omega), if_pos (by unfold vfsMaxFd; omega)]
    rfl
  have hfile : (st.setFile i ⟨some n, 0, flags⟩).file i = ⟨some n, 0, flags⟩ := by
    simp [Server.setFile]
  refine ⟨i, n, ?_, hfile⟩
  simp [Server.opened, hindex, hfile]

theorem vfsOpen_rdonly {fs : FileSystem δ} {path : Str} {mode : UInt32} {st₀ : Server δ}
    {fd : Int32} (hrun : (vfsOpen fs (some path) oRdonly mode).run st₀ = .ok (fd, st))
    (hfd : 0 ≤ fd)
    (hlookup : ∀ st path, (fs.replies st path).lookup = 0 ∨ (fs.replies st path).lookup = -1) :
    ∃ i n, st.opened fd = some (i, n) ∧ st.file i = ⟨some n, 0, oRdonly⟩ := by
  have hneg : ¬ (0 : Int32) ≤ -1 := by decide
  cases hacq : (acquire fs path).run st₀ with
  | error e =>
    have hnode : (vfsOpenNode fs path oRdonly mode).run st₀ = .error e := by
      simp only [vfsOpenNode]
      rw [StateT.run_bind, hacq, error_bind]
    rw [vfsOpen_of_fault (by decide) hnode] at hrun
    cases hrun
  | ok r =>
    obtain ⟨⟨err, np⟩, st₁⟩ := r
    rcases acquire_result hlookup hacq with rfl | rfl
    swap
    · have hnode : (vfsOpenNode fs path oRdonly mode).run st₀ = .ok (.error (-1), st₁) := by
        simp only [vfsOpenNode]
        rw [StateT.run_bind, hacq, ok_bind]
        rfl
      rw [vfsOpen_of_error (by decide) hnode] at hrun
      obtain ⟨rfl, -⟩ := Prod.mk.inj (Except.ok.inj hrun)
      exact absurd hfd hneg
    cases np with
    | none =>
      rw [vfsOpen_of_fault (by decide) (vfsOpenNode_null hacq)] at hrun
      cases hrun
    | some n =>
      rcases vfsOpen_inv hrun (by decide) with ⟨st₂, hnode⟩ | ⟨n', flags', st₂, hnode, hrest⟩
      · rcases vfsOpenNode_plain hacq (by decide) hnode with heq | ⟨heq, -⟩
        · rw [Except.error.inj heq] at hfd
          exact absurd hfd hneg
        · cases heq
      · rcases vfsOpenNode_plain hacq (by decide) hnode with heq | ⟨heq, rfl, -⟩
        · cases heq
        · obtain ⟨rfl, rfl⟩ := Prod.mk.inj (Except.ok.inj heq)
          rw [StateT.run_bind, vfsOpenTrunc_of_not fun h => h.1 rfl, ok_bind] at hrest
          change (vfsOpenFd n' oRdonly 0).run st₂ = .ok (fd, st) at hrest
          exact vfsOpenFd_opened hrest hfd

/-- **Sequential reads reproduce the file.**  For a regular file that `cpio_lookup` has found on an
error-free device, whose data are on the device, and that has been opened with `O_RDONLY`, if there
is memory for the buffer of a block:

* calls of `vfs_read` and `vfs_lseek` without an overflow return what the reader returns, `f_offset`
  is the position of the reader, and it stays in the file;
* reads without seeks return the data of the file, and nothing at their end. -/
theorem cpioFile_reads {blk : Block} {content : List UInt8} (hdev : blk.ErrorFree content)
    {heap : Bool} {fuel : ℕ} {vPath name header buf : List UInt8} {n₀ node : CpioNode}
    (hfound : cpioLookup blk heap fuel vPath name header buf n₀ = some (.ok (0, node)))
    (hreg : node.type = .reg) (hfit : node.data + node.size ≤ content.length)
    (base : FileSystem δ) (hlookup : ∀ st path,
      (base.replies st path).lookup = 0 ∨ (base.replies st path).lookup = -1)
    {path : Str} {mode : UInt32} {st₀ st : Server δ} {fd : Int32}
    (hopen : (vfsOpen (cpioFileSystem blk true base) (some path) oRdonly mode).run st₀ =
      .ok (fd, st)) (hfd : 0 ≤ fd)
    (hnode : ∀ i n, st.opened fd = some (i, n) → st.cpioNode n = node) :
    ∃ i n, st.opened fd = some (i, n) ∧ ∀ calls, NoOverflows (node.bytes content) 0 calls →
      ∃ st', (runCalls (cpioFileSystem blk true base) fd calls).run st =
          .ok ((specCalls (node.bytes content) 0 calls).1, st') ∧
        (st'.file i).offset.toInt = (specCalls (node.bytes content) 0 calls).2 ∧
        ((specCalls (node.bytes content) 0 calls).2 : ℤ) ≤ node.size ∧
        ((∀ c ∈ calls, c.IsRead) →
          ((specCalls (node.bytes content) 0 calls).1.map FileReply.bytes).flatten =
              (node.bytes content).take (calls.map FileCall.length).sum ∧
            (node.size ≤ (calls.map FileCall.length).sum → ∀ len (b : Bytes len.toNat),
              ∃ st'', ((FileCall.read len b).run (cpioFileSystem blk true base) fd).run st' =
                .ok (.read 0 (List.ofFn b), st''))) := by
  obtain ⟨size, hsize, hlt⟩ := size_of_cpioLookup hfound
  replace hfit : node.data + size ≤ content.length := by
    rw [hsize] at hfit
    exact_mod_cast hfit
  have hlen := node.length_bytes hsize hfit
  obtain ⟨i, n, hopened, hfile⟩ := vfsOpen_rdonly hopen hfd hlookup
  have hat : st.At fd i n node 0 := by
    refine ⟨hopened, ?_, hnode i n hopened, ?_⟩
    · rw [hfile]
      show oRdonly &&& oRdonly ≠ 0
      decide
    · rw [hfile]
      rfl
  refine ⟨i, n, hopened, fun calls hsum => ?_⟩
  obtain ⟨st', hrun, hat', hle⟩ :=
    runCalls_reading base hdev hreg hsize hlt hfit hat (Nat.zero_le size) hsum
  refine ⟨st', hrun, hat'.offset, by rw [hsize]; exact_mod_cast hle, fun hreads => ?_⟩
  obtain ⟨hbytes, hend⟩ := specCalls_reads hreads (Nat.zero_le (node.bytes content).length)
  refine ⟨hbytes, fun htotal len b => ?_⟩
  have hpos : (specCalls (node.bytes content) 0 calls).2 = size := by
    rw [hend, hlen]
    omega
  obtain ⟨st'', hread, -⟩ := read_at base hdev hreg hsize hlt hfit hat' hle len b
  refine ⟨st'', ?_⟩
  have hnil : slice (node.bytes content) size len.toNat = [] := by
    rw [slice, List.drop_eq_nil_of_le hlen.le, List.take_nil]
  rw [hread, hpos]
  simp [FileCall.spec, hnil]


/-- The node of the file of `Cpio.smallArchive`. -/
def archiveNode : CpioNode :=
  ⟨0, 0, 0, 0o644 + 2 ^ 19, .reg, 1, 112⟩

/-- A file system that finds this file. -/
def archiveFile : FileSystem Unit :=
  { readOnlyFile with attr := fun _ _ _ => ⟨false, 0, 0, 0, 0o644 + 2 ^ 19, 1, 112⟩ }

theorem archiveFile_opens (blk : Block) (heap : Bool) : ∃ st,
    (vfsOpen (cpioFileSystem blk heap archiveFile) (some ['/', 'a']) oRdonly 0).run readOnlyRoot =
      .ok (3, st) ∧ st.opened 3 = some (3, 11) ∧ st.cpioNode 11 = archiveNode ∧
      st.file 3 = ⟨some 11, 0, oRdonly⟩ :=
  ⟨_, rfl, rfl, rfl, rfl⟩

theorem cpioLookup_smallArchive :
    cpioLookup (.ofContent (Cpio.smallArchive 0o100644 (by decide))) true 2 [] [97]
      (List.replicate headerSize 0) (List.replicate vfsMaxPath 0) ⟨0, 0, 0, 0, .unk, 0, 0⟩ =
        some (.ok (0, archiveNode)) := by
  decide +kernel

theorem cpioFile_reads_small : ∃ st,
    (vfsOpen (cpioFileSystem (.ofContent (Cpio.smallArchive 0o100644 (by decide))) true archiveFile)
      (some ['/', 'a']) oRdonly 0).run readOnlyRoot = .ok (3, st) ∧
    ∃ i n, st.opened 3 = some (i, n) ∧ ∀ calls,
      NoOverflows (archiveNode.bytes (Cpio.smallArchive 0o100644 (by decide))) 0 calls →
      ∃ st', (runCalls (cpioFileSystem (.ofContent (Cpio.smallArchive 0o100644 (by decide))) true
          archiveFile) 3 calls).run st =
        .ok ((specCalls (archiveNode.bytes (Cpio.smallArchive 0o100644 (by decide))) 0 calls).1,
          st') := by
  obtain ⟨st, hopen, hopened, hnode, -⟩ := archiveFile_opens
    (.ofContent (Cpio.smallArchive 0o100644 (by decide))) true
  obtain ⟨i, n, hin, hcalls⟩ := cpioFile_reads (Cpio.errorFree_smallArchive 0o100644 (by decide))
    cpioLookup_smallArchive rfl (by decide +kernel) archiveFile (fun _ _ => .inl rfl) hopen
    (by decide) (by
      intro i n h
      rw [hopened] at h
      rw [← hnode, (Prod.mk.inj (Option.some.inj h)).2])
  refine ⟨st, hopen, i, n, hin, fun calls hsum => ?_⟩
  obtain ⟨st', hrun, -⟩ := hcalls calls hsum
  exact ⟨st', hrun⟩

theorem archiveFile_reads_nothing (hread : cpioRead blk heap archiveNode 0 1 = (0, [])) : ∃ st st',
    (vfsOpen (cpioFileSystem blk heap archiveFile) (some ['/', 'a']) oRdonly 0).run readOnlyRoot =
      .ok (3, st) ∧ st.cpioNode 11 = archiveNode ∧
    (vfsRead (cpioFileSystem blk heap archiveFile) 3 1 (some fun _ => 0)).run st =
      .ok ((0, some fun _ => 0), st') := by
  obtain ⟨st, hopen, hopened, hnode, hfile⟩ := archiveFile_opens blk heap
  have hcall : cpioRead blk heap (st.cpioNode 11) (st.file 3).offset.toInt (1 : UInt64).toNat =
      (0, []) := by
    rw [hnode, hfile]
    exact hread
  have hzero : ((cpioFileSystem blk heap archiveFile).read 11 (st.file 3).offset 1).run st =
      .ok ((0, fun _ => none), st) := cpioFileRead_run hcall
  have hflags : (st.file 3).flags &&& oRdonly ≠ 0 := by
    rw [hfile]
    show oRdonly &&& oRdonly ≠ 0
    decide
  have hone : (1 : UInt64) ≠ 0 := by decide
  exact ⟨st, _, hopen, hnode, vfsRead_eq hopened (congrArg CpioNode.type hnode) hflags hone hzero
    fun _ => 0⟩

/-- Reads return nothing if the device does not have the data of the file, or if there is no memory
for the buffer of a block. -/
theorem cpioFile_reads_not :
    let content := Cpio.smallArchive 0o100644 (by decide)
    archiveNode.size = 1 ∧ ∀ image ∈ [(content.take 112, true), (content, false)],
      (Block.ofContent image.1).ErrorFree image.1 ∧
      cpioLookup (.ofContent image.1) true 2 [] [97] (List.replicate headerSize 0)
        (List.replicate vfsMaxPath 0) ⟨0, 0, 0, 0, .unk, 0, 0⟩ = some (.ok (0, archiveNode)) ∧
      ∃ st st', (vfsOpen (cpioFileSystem (.ofContent image.1) image.2 archiveFile)
          (some ['/', 'a']) oRdonly 0).run readOnlyRoot = .ok (3, st) ∧
        st.cpioNode 11 = archiveNode ∧
        (vfsRead (cpioFileSystem (.ofContent image.1) image.2 archiveFile) 3 1
          (some fun _ => 0)).run st = .ok ((0, some fun _ => 0), st') := by
  refine ⟨rfl, ?_⟩
  intro image himage
  rcases List.mem_pair.mp himage with rfl | rfl
  · refine ⟨Block.ofContent_errorFree (by decide +kernel), by decide +kernel, ?_⟩
    exact archiveFile_reads_nothing (by decide +kernel)
  · refine ⟨Cpio.errorFree_smallArchive 0o100644 (by decide), cpioLookup_smallArchive, ?_⟩
    exact archiveFile_reads_nothing (by decide +kernel)

end Ginkgo.Fs
