import Ginkgo.Lib.Layout
import Ginkgo.Fs.Vfs

/-!
# File operations

The operations of `vfs.c` on open files and on paths, above the node cache.  A file system is a
table of functions, and nothing is assumed of them: each of them may change the state, and may
fail.  The functions `lookup` and `vget` are those answers that the node cache asks for.

Where `vfs_node_acquire` returns `0` without storing a node, its callers go on with a pointer that
was never initialised; this is a bad access here.  The mutexes are left out.  The loop of
`vfs_check_dir_empty` ends when the file system has no more entries; it is given a number of
rounds.

-/

namespace Ginkgo.Fs

open Layout

/-! ## Constants -/

/-- `VFS_MAX_FD`. -/
def vfsMaxFd : ℕ := 256

/-- `O_RDONLY`. -/
def oRdonly : UInt32 := 1

/-- `O_WRONLY`. -/
def oWronly : UInt32 := 2

/-- `O_ACCMODE`. -/
def oAccmode : UInt32 := oRdonly ||| oWronly

/-- `O_CREAT`. -/
def oCreat : UInt32 := 0x100

/-- `O_EXCL`. -/
def oExcl : UInt32 := 0x200

/-- `O_TRUNC`. -/
def oTrunc : UInt32 := 0x800

/-- `S_IFDIR`, …: the type bits of a mode. -/
def typeBits : NodeType → Option UInt32
  | .unk => none
  | .dir => some 0x10000
  | .chr => some 0x20000
  | .blk => some 0x40000
  | .reg => some 0x80000
  | .lnk => some 0x100000
  | .fifo => some 0x200000
  | .sock => some 0x400000

/-- `S_IFMT`. -/
def sIfmt : UInt32 := 0x7f0000

/-- `S_IFREG`. -/
def sIfreg : UInt32 := 0x80000

/-- `S_IFDIR`. -/
def sIfdir : UInt32 := 0x10000

/-- `S_IRWXU | S_IRWXG | S_IRWXO`. -/
def sIrwxugo : UInt32 := 0x1ff

/-- `S_IRUSR | S_IRGRP | S_IROTH`. -/
def sIrugo : UInt32 := 0x124

/-- `S_IWUSR | S_IWGRP | S_IWOTH`. -/
def sIwugo : UInt32 := 0x92

/-- `S_IXUSR | S_IXGRP | S_IXOTH`. -/
def sIxugo : UInt32 := 0x49

/-- `R_OK`. -/
def rOk : UInt32 := 4

/-- `W_OK`. -/
def wOk : UInt32 := 2

/-- `X_OK`. -/
def xOk : UInt32 := 1

/-- `MOUNT_RO`. -/
def mountRo : UInt32 := 1

/-! ## Records -/

namespace StatT

/-- `st_ino`. -/
def ino : Slot UInt64 := .u64 0

/-- `st_size`. -/
def size : Slot Int64 := .s64 8

/-- `st_mode`. -/
def mode : Slot UInt32 := .u32 16

/-- `st_dev`. -/
def dev : Slot UInt64 := .u64 24

/-- `st_ctime`. -/
def ctime : Slot UInt64 := .u64 40

/-- `st_atime`. -/
def atime : Slot UInt64 := .u64 48

/-- `st_mtime`. -/
def mtime : Slot UInt64 := .u64 56

end StatT

/-- `sizeof(struct vfs_stat_t)`. -/
def statSize : ℕ := 64

namespace DirentT

/-- `d_reclen`. -/
def reclen : Slot UInt32 := .u32 8

/-- `d_name`. -/
def name : Slot (List UInt8) := .str 16 vfsMaxName

end DirentT

/-- `sizeof(struct vfs_dirent_t)`. -/
def direntSize : ℕ := 16 + vfsMaxName

/-- A field of a record that is held as bytes. -/
def slot {α : Type} {n : ℕ} (f : Slot α) (b : Bytes n) : α := f.get 0 (store (fun _ => 0) 0 b)

/-- A string of the source. -/
def toStr (s : List UInt8) : Str := s.map fun c => Char.ofNat c.toNat

/-! ## The state -/

/-- The attributes of a node. -/
structure Attr where
  /-- `v_flags == VNF_ROOT`. -/
  root : Bool
  /-- `v_ctime`. -/
  ctime : UInt64
  /-- `v_atime`. -/
  atime : UInt64
  /-- `v_mtime`. -/
  mtime : UInt64
  /-- `v_mode`. -/
  mode : UInt32
  /-- `v_size`. -/
  size : Int64
  /-- `v_data`. -/
  data : UInt64
deriving DecidableEq

/-- `struct vfs_file_t`. -/
structure File where
  /-- `f_node`. -/
  node : Option ℕ
  /-- `f_offset`. -/
  offset : Int64
  /-- `f_flags`. -/
  flags : UInt32
deriving DecidableEq

/-- The state of `vfs.c`. -/
structure Server (δ : Type) where
  /-- The mounts and the nodes. -/
  vfs : Vfs
  /-- The attributes of the nodes. -/
  attr : ℕ → Attr
  /-- `m_flags` of the mounts. -/
  mountFlags : ℕ → UInt32
  /-- `fd_file`. -/
  file : ℕ → File
  /-- What the file systems keep for themselves. -/
  disk : δ

/-- Computations on the state. -/
abbrev ServerM (δ : Type) := StateT (Server δ) (Except Fault)

/-- `struct filesystem_t`: the functions of the mounted file systems.  They find the file system
of a node by its mount. -/
structure FileSystem (δ : Type) where
  /-- What `calloc`, `vget` and `lookup` answer for a path of a mount. -/
  replies : Server δ → Str → FsReply
  /-- The attributes that `lookup` gives to a node. -/
  attr : Server δ → ℕ → Str → Attr
  /-- `read`, with what it stores in the buffer. -/
  read : ℕ → Int64 → (len : UInt64) → ServerM δ (UInt64 × Patch len.toNat)
  /-- `write`. -/
  write : ℕ → Int64 → (len : UInt64) → Bytes len.toNat → ServerM δ UInt64
  /-- `truncate`. -/
  truncate : ℕ → Int64 → ServerM δ Int32
  /-- `sync`. -/
  sync : ℕ → ServerM δ Int32
  /-- `readdir`, with what it stores in the entry. -/
  readdir : ℕ → Int64 → ServerM δ (Int32 × Patch direntSize)
  /-- `create`. -/
  create : ℕ → Str → UInt32 → ServerM δ Int32
  /-- `remove`. -/
  remove : ℕ → ℕ → Str → ServerM δ Int32
  /-- `rename`. -/
  rename : ℕ → Str → ℕ → ℕ → Str → ServerM δ Int32
  /-- `mkdir`. -/
  mkdir : ℕ → Str → UInt32 → ServerM δ Int32
  /-- `rmdir`. -/
  rmdir : ℕ → ℕ → Str → ServerM δ Int32
  /-- `chmod`. -/
  chmod : ℕ → UInt32 → ServerM δ Int32
  /-- What a directory entry on the stack holds before it is initialised. -/
  stack : Bytes direntSize
  /-- The number of entries that are looked at for an empty directory. -/
  rounds : ℕ

section Operations

variable {δ : Type}

/-- A node is in the cache. -/
def Vfs.holds (s : Vfs) (n : ℕ) : Bool :=
  n ∈ s.nodeList (vfsNodeHash (s.node n).mount (s.node n).path)

/-- Set an entry of `fd_file`. -/
def Server.setFile (st : Server δ) (i : ℕ) (f : File) : Server δ :=
  { st with file := Function.update st.file i f }

/-- `vfs_fd_to_file`, as an index of `fd_file`. -/
def vfsFdToFile (fd : Int32) : Option ℕ :=
  if 0 ≤ fd.toInt ∧ fd.toInt < vfsMaxFd then some fd.toInt.toNat else none

/-- The entry of `fd_file` for a descriptor, and the node, if the descriptor is open. -/
def Server.opened (st : Server δ) (fd : Int32) : Option (ℕ × ℕ) := do
  let i ← vfsFdToFile fd
  let n ← (st.file i).node
  return (i, n)

/-- `v_type`. -/
def Server.type (st : Server δ) (n : ℕ) : NodeType := (st.vfs.node n).type

/-- `vfs_fd_alloc`. -/
def vfsFdAlloc (st : Server δ) : Option ℕ :=
  (List.range' 3 (vfsMaxFd - 3)).find? fun i => (st.file i).node = none

/-- `vfs_fd_free`. -/
def vfsFdFree (fd : Int32) : ServerM δ Unit := do
  if 3 ≤ fd.toInt ∧ fd.toInt < vfsMaxFd then
    let i := fd.toInt.toNat
    if ((← get).file i).node ≠ none then modify (Server.setFile · i ⟨none, 0, 0⟩)

/-- The second function, if the first one succeeds. -/
def andThen (f g : ServerM δ Int32) : ServerM δ Int32 := do
  let err ← f
  if err ≠ 0 then return err else g

/-! ## Nodes -/

/-- `vfs_node_stat`: the result and the bytes of the record. -/
def vfsNodeStat (st : Server δ) (n : ℕ) : Int32 × Bytes statSize :=
  let a := st.attr n
  let mem := StatT.ino.put 0 (UInt64.ofNat n) fun _ => 0
  let mem := StatT.size.put 0 a.size mem
  let mem := StatT.ctime.put 0 a.ctime mem
  let mem := StatT.atime.put 0 a.atime mem
  let mem := StatT.mtime.put 0 a.mtime mem
  match typeBits (st.type n) with
  | none => (-1, load mem 0 statSize)
  | some bits =>
    let mem := StatT.mode.put 0 (a.mode &&& sIrwxugo ||| bits) mem
    let mem :=
      if st.type n = .chr ∨ st.type n = .blk then StatT.dev.put 0 a.data mem else mem
    (0, load mem 0 statSize)

/-- `vfs_node_access`. -/
def vfsNodeAccess (st : Server δ) (n : ℕ) (mode : UInt32) : Int32 :=
  let m := (st.attr n).mode
  if mode &&& rOk ≠ 0 ∧ m &&& sIrugo = 0 then -1
  else if mode &&& wOk ≠ 0 ∧ st.mountFlags (st.vfs.node n).mount &&& mountRo ≠ 0 then -1
  else if mode &&& wOk ≠ 0 ∧ m &&& sIwugo = 0 then -1
  else if mode &&& xOk ≠ 0 ∧ m &&& sIxugo = 0 then -1
  else 0

/-- The node that a pointer refers to. -/
def deref (np : Option ℕ) : ServerM δ ℕ :=
  match np with
  | some n => return n
  | none => throw .badAccess

/-- `vfs_node_release`. -/
def release (n : ℕ) : ServerM δ Unit := do
  let st ← get
  let vfs ← vfsNodeRelease st.vfs n
  set { st with vfs := vfs }

variable (fs : FileSystem δ)

/-- `vfs_node_acquire`: the result, and the node that was stored in `*np`. -/
def acquire (path : Str) : ServerM δ (Int32 × Option ℕ) := do
  let st ← get
  let (vfs, err, np) ← vfsNodeAcquire (fs.replies st) st.vfs path
  let attr n :=
    if st.vfs.holds n then st.attr n else fs.attr st (vfs.node n).mount (vfs.node n).path
  set { st with vfs := vfs, attr := attr }
  return (Int32.ofInt err, np)

/-- The parts of a path before and after its last `/`. -/
def splitLast (path : Str) : Option (Str × Str) :=
  let name := (path.reverse.takeWhile (· ≠ '/')).reverse
  if name.length = path.length then none
  else some (path.take (path.length - name.length - 1), name)

/-- `vfs_lookup_dir`: an error, or the directory and the name in it. -/
def vfsLookupDir (path : Str) : ServerM δ (Except Int32 (ℕ × Str)) := do
  if vfsMaxPath ≤ path.length then return .error (-1)
  else
    match splitLast path with
    | none => return .error (-1)
    | some (dir, name) =>
      let (err, np) ← acquire fs (if dir = [] then rootPath else dir)
      if err ≠ 0 then return .error err
      else
        let n ← deref np
        if (← get).type n ≠ .dir then
          release n
          return .error (-1)
        else return .ok (n, name)

/-! ## Opening and closing -/

/-- The part of `vfs_open` that finds the node: an error, or the node and the flags. -/
def vfsOpenNode (path : Str) (flags mode : UInt32) :
    ServerM δ (Except Int32 (ℕ × UInt32)) := do
  let (err, np) ← acquire fs path
  if flags &&& oCreat ≠ 0 then
    if err ≠ 0 then
      match ← vfsLookupDir fs path with
      | .error err => return .error err
      | .ok (dn, filename) =>
        let err := vfsNodeAccess (← get) dn wOk
        if err ≠ 0 then
          release dn
          return .error err
        else
          let err ← andThen (fs.create dn filename (mode &&& ~~~sIfmt ||| sIfreg)) (fs.sync dn)
          release dn
          if err ≠ 0 then return .error err
          else
            let (err, np) ← acquire fs path
            if err ≠ 0 then return .error err
            else return .ok (← deref np, flags &&& ~~~oTrunc)
    else
      let n ← deref np
      if flags &&& oExcl ≠ 0 then
        release n
        return .error (-1)
      else return .ok (n, flags &&& ~~~oCreat)
  else
    if err ≠ 0 then return .error err
    else
      let n ← deref np
      if flags &&& oWronly ≠ 0 ∨ flags &&& oTrunc ≠ 0 then
        let err := vfsNodeAccess (← get) n wOk
        if err ≠ 0 then
          release n
          return .error err
        else if (← get).type n = .dir then
          release n
          return .error (-1)
        else return .ok (n, flags)
      else return .ok (n, flags)

/-- The part of `vfs_open` that truncates the file. -/
def vfsOpenTrunc (n : ℕ) (flags : UInt32) : ServerM δ Int32 := do
  if flags &&& oTrunc ≠ 0 then
    if flags &&& oWronly = 0 ∨ (← get).type n = .dir then return -1
    else fs.truncate n 0
  else return 0

/-- `vfs_open`. -/
def vfsOpen (path : Option Str) (flags mode : UInt32) : ServerM δ Int32 := do
  match path with
  | none => return -1
  | some path =>
    if flags &&& oAccmode = 0 then return -1
    else
      match ← vfsOpenNode fs path flags mode with
      | .error err => return err
      | .ok (n, flags) =>
        let err ← vfsOpenTrunc fs n flags
        if err ≠ 0 then
          release n
          return err
        else
          match vfsFdAlloc (← get) with
          | none =>
            release n
            return -1
          | some i =>
            modify (Server.setFile · i ⟨some n, 0, flags⟩)
            return Int32.ofNat i

/-- `vfs_close`. -/
def vfsClose (fd : Int32) : ServerM δ Int32 := do
  match (← get).opened fd with
  | none => return -1
  | some (_, n) =>
    let err ← fs.sync n
    if err ≠ 0 then return err
    else
      release n
      vfsFdFree fd
      return 0

/-! ## Open files -/

/-- `vfs_read`: the result, and the buffer afterwards. -/
def vfsRead (fd : Int32) (len : UInt64) (buf : Option (Bytes len.toNat)) :
    ServerM δ (UInt64 × Option (Bytes len.toNat)) := do
  match buf with
  | none => return (0, none)
  | some b =>
    if len = 0 then return (0, some b)
    else
      let st ← get
      match st.opened fd with
      | none => return (0, some b)
      | some (i, n) =>
        if st.type n ≠ .reg then return (0, some b)
        else if (st.file i).flags &&& oRdonly = 0 then return (0, some b)
        else
          let (ret, p) ← fs.read n (st.file i).offset len
          modify fun st =>
            st.setFile i { st.file i with offset := (st.file i).offset + ret.toInt64 }
          return (ret, some (p.apply b))

/-- `vfs_write`. -/
def vfsWrite (fd : Int32) (len : UInt64) (buf : Option (Bytes len.toNat)) :
    ServerM δ UInt64 := do
  match buf with
  | none => return 0
  | some b =>
    if len = 0 then return 0
    else
      let st ← get
      match st.opened fd with
      | none => return 0
      | some (i, n) =>
        if st.type n ≠ .reg then return 0
        else if (st.file i).flags &&& oWronly = 0 then return 0
        else
          let ret ← fs.write n (st.file i).offset len b
          modify fun st =>
            st.setFile i { st.file i with offset := (st.file i).offset + ret.toInt64 }
          return ret

/-- The offset that `vfs_lseek` computes, if `whence` is known. -/
def seekOffset (size cur off : Int64) (whence : Int32) : Option Int64 :=
  if whence = 0 then
    if off < 0 then some 0 else if size < off then some size else some off
  else if whence = 1 then
    if size < cur + off then some size
    else if cur + off < 0 then some 0
    else some (cur + off)
  else if whence = 2 then
    if 0 < off then some size else if size + off < 0 then some 0 else some (size + off)
  else none

/-- `vfs_lseek`. -/
def vfsLseek (fd : Int32) (off : Int64) (whence : Int32) : ServerM δ Int64 := do
  let st ← get
  match st.opened fd with
  | none => return 0
  | some (i, n) =>
    match seekOffset (st.attr n).size (st.file i).offset off whence with
    | none => return (st.file i).offset
    | some off =>
      if off ≤ (st.attr n).size then
        set (st.setFile i { st.file i with offset := off })
        return off
      else return (st.file i).offset

/-- `vfs_fsync`. -/
def vfsFsync (fd : Int32) : ServerM δ Int32 := do
  let st ← get
  match st.opened fd with
  | none => return -1
  | some (i, n) => if (st.file i).flags &&& oWronly = 0 then return -1 else fs.sync n

/-- `vfs_fchmod`. -/
def vfsFchmod (fd : Int32) (mode : UInt32) : ServerM δ Int32 := do
  match (← get).opened fd with
  | none => return -1
  | some (_, n) => fs.chmod n (mode &&& sIrwxugo)

/-- `vfs_fstat`: the result, and the record afterwards. -/
def vfsFstat (fd : Int32) (rec : Option (Bytes statSize)) :
    ServerM δ (Int32 × Option (Bytes statSize)) := do
  match rec with
  | none => return (-1, none)
  | some b =>
    let st ← get
    match st.opened fd with
    | none => return (-1, some b)
    | some (_, n) =>
      let (err, b) := vfsNodeStat st n
      return (err, some b)

/-! ## Directories -/

/-- `vfs_opendir`. -/
def vfsOpendir (name : Option Str) : ServerM δ Int32 := do
  match name with
  | none => return -1
  | some name =>
    let fd ← vfsOpen fs (some name) oRdonly 0
    if fd < 0 then return fd
    else
      let st ← get
      match st.opened fd with
      | none => return -1
      | some (_, n) =>
        if st.type n ≠ .dir then
          let _ ← vfsClose fs fd
          return -1
        else return fd

/-- `vfs_closedir`. -/
def vfsClosedir (fd : Int32) : ServerM δ Int32 := do
  let st ← get
  match st.opened fd with
  | none => return -1
  | some (_, n) => if st.type n ≠ .dir then return -1 else vfsClose fs fd

/-- `vfs_readdir`: the result, and the entry afterwards. -/
def vfsReaddir (fd : Int32) (dir : Option (Bytes direntSize)) :
    ServerM δ (Int32 × Option (Bytes direntSize)) := do
  match dir with
  | none => return (-1, none)
  | some b =>
    let st ← get
    match st.opened fd with
    | none => return (-1, some b)
    | some (i, n) =>
      if st.type n ≠ .dir then return (-1, some b)
      else
        let (err, p) ← fs.readdir n (st.file i).offset
        let b := p.apply b
        if err = 0 then
          let reclen := (slot DirentT.reclen b).toUInt64.toInt64
          modify fun st => st.setFile i { st.file i with offset := (st.file i).offset + reclen }
        return (err, some b)

/-- `vfs_rewinddir`. -/
def vfsRewinddir (fd : Int32) : ServerM δ Int32 := do
  let st ← get
  match st.opened fd with
  | none => return -1
  | some (i, n) =>
    if st.type n ≠ .dir then return -1
    else
      set (st.setFile i { st.file i with offset := 0 })
      return 0

/-- `vfs_mkdir`. -/
def vfsMkdir (path : Option Str) (mode : UInt32) : ServerM δ Int32 := do
  match path with
  | none => return -1
  | some path =>
    let (err, np) ← acquire fs path
    if err = 0 then
      release (← deref np)
      return -1
    else
      match ← vfsLookupDir fs path with
      | .error err => return err
      | .ok (dn, name) =>
        let err := vfsNodeAccess (← get) dn wOk
        if err ≠ 0 then
          release dn
          return err
        else
          let err ← andThen (fs.mkdir dn name (mode &&& ~~~sIfmt ||| sIfdir)) (fs.sync dn)
          release dn
          return err

/-- The loop of `vfs_check_dir_empty`: whether an entry was found. -/
def vfsCheckDirEmptyLoop (fd : Int32) : ℕ → Bytes direntSize → ServerM δ Bool
  | 0, _ => throw .panic
  | rounds + 1, dir => do
    let (err, out) ← vfsReaddir fs fd (some dir)
    let dir := out.getD dir
    if err ≠ 0 then return false
    else
      let name := toStr (slot DirentT.name dir)
      if name ≠ ['.'] ∧ name ≠ ['.', '.'] then return true
      else vfsCheckDirEmptyLoop fd rounds dir

/-- `vfs_check_dir_empty`. -/
def vfsCheckDirEmpty (path : Str) : ServerM δ Int32 := do
  let fd ← vfsOpendir fs (some path)
  if fd < 0 then return fd
  else
    let found ← vfsCheckDirEmptyLoop fs fd fs.rounds fs.stack
    let _ ← vfsClosedir fs fd
    if found then return -1 else return 0

/-- `vfs_rmdir`. -/
def vfsRmdir (path : Option Str) : ServerM δ Int32 := do
  match path with
  | none => return -1
  | some path =>
    let err ← vfsCheckDirEmpty fs path
    if err ≠ 0 then return err
    else
      let (err, np) ← acquire fs path
      if err ≠ 0 then return err
      else
        let n ← deref np
        let st ← get
        if (st.attr n).root ∨ 2 ≤ (st.vfs.node n).refcnt then
          release n
          return -1
        else
          let err := vfsNodeAccess st n wOk
          if err ≠ 0 then
            release n
            return err
          else
            match ← vfsLookupDir fs path with
            | .error err =>
              release n
              return err
            | .ok (dn, name) =>
              let err ← andThen (fs.rmdir dn n name) (andThen (fs.sync n) (fs.sync dn))
              release n
              release dn
              return err

/-! ## Paths -/

/-- The part of `vfs_rename` between the directories `sn` and `dn`. -/
def vfsRenameIn (n₁ sn : ℕ) (sname : Str) (dn : ℕ) (dname : Str) : ServerM δ Int32 := do
  let st ← get
  if (st.vfs.node sn).mount ≠ (st.vfs.node dn).mount then return -1
  else
    andThen (fs.rename sn sname n₁ dn dname)
      (andThen (fs.sync sn) (if dn ≠ sn then fs.sync dn else return 0))

/-- The part of `vfs_rename` after the source directory `sn` was found. -/
def vfsRenameTo (n₁ sn : ℕ) (sname dst : Str) : ServerM δ Int32 := do
  let (err, np) ← acquire fs dst
  if err = 0 then
    release (← deref np)
    return -1
  else
    match ← vfsLookupDir fs dst with
    | .error err => return err
    | .ok (dn, dname) =>
      let err ← vfsRenameIn fs n₁ sn sname dn dname
      release dn
      return err

/-- The part of `vfs_rename` after the source `n₁` was found. -/
def vfsRenameFrom (n₁ : ℕ) (src dst : Str) : ServerM δ Int32 := do
  let st ← get
  let err := vfsNodeAccess st n₁ wOk
  if err ≠ 0 then return err
  else if 2 ≤ (st.vfs.node n₁).refcnt then return -1
  else
    match ← vfsLookupDir fs src with
    | .error err => return err
    | .ok (sn, sname) =>
      let err ← vfsRenameTo fs n₁ sn sname dst
      release sn
      return err

/-- `vfs_rename`. -/
def vfsRename (src dst : Str) : ServerM δ Int32 := do
  if src.take vfsMaxPath = dst.take vfsMaxPath then return -1
  else if src = rootPath then return -1
  else if src.length < dst.length ∧ src = dst.take src.length ∧ dst[src.length]? = some '/' then
    return -1
  else
    let (err, np) ← acquire fs src
    if err ≠ 0 then return err
    else
      let n₁ ← deref np
      let err ← vfsRenameFrom fs n₁ src dst
      release n₁
      return err

/-- `vfs_unlink`. -/
def vfsUnlink (path : Option Str) : ServerM δ Int32 := do
  match path with
  | none => return -1
  | some path =>
    let (err, np) ← acquire fs path
    if err ≠ 0 then return err
    else
      let n ← deref np
      let st ← get
      if st.type n = .dir ∨ (st.attr n).root ∨ 2 ≤ (st.vfs.node n).refcnt then
        release n
        return -1
      else
        let err := vfsNodeAccess st n wOk
        if err ≠ 0 then
          release n
          return err
        else
          match ← vfsLookupDir fs path with
          | .error err =>
            release n
            return err
          | .ok (dn, name) =>
            let err ← andThen (fs.truncate n 0) (andThen (fs.sync n)
              (andThen (fs.remove dn n name) (fs.sync dn)))
            release dn
            release n
            return err

/-- `vfs_access`. -/
def vfsAccess (path : Option Str) (mode : UInt32) : ServerM δ Int32 := do
  match path with
  | none => return -1
  | some path =>
    let (err, np) ← acquire fs path
    if err ≠ 0 then return err
    else
      let n ← deref np
      let err := vfsNodeAccess (← get) n mode
      release n
      return err

/-- `vfs_chmod`. -/
def vfsChmod (path : Option Str) (mode : UInt32) : ServerM δ Int32 := do
  match path with
  | none => return -1
  | some path =>
    let (err, np) ← acquire fs path
    if err ≠ 0 then return err
    else
      let n ← deref np
      let err ← andThen (fs.chmod n (mode &&& sIrwxugo)) (fs.sync n)
      release n
      return err

/-- `vfs_stat`: the result, and the record afterwards. -/
def vfsStat (path : Option Str) (rec : Option (Bytes statSize)) :
    ServerM δ (Int32 × Option (Bytes statSize)) := do
  match path, rec with
  | some path, some b =>
    let (err, np) ← acquire fs path
    if err ≠ 0 then return (err, some b)
    else
      let n ← deref np
      let (err, b) := vfsNodeStat (← get) n
      release n
      return (err, some b)
  | _, rec => return (-1, rec)

end Operations

end Ginkgo.Fs
