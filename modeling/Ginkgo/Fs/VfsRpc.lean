import Ginkgo.Fs.VfsFile
import Ginkgo.User.IpcMsg

/-!
# File operations of another process

The functions of `user-test/lib/vfs.c` store a request in the buffer that a process shares with the
server, call the server, and read the answer from the buffer; `fs_dispatch` of the server reads
the request and calls the operation.  The call delivers the buffer as it is, and returns the 64-bit
result of the handler.

A call through the buffer is compared with a direct call of the operation: the result, the state
of the server, and the buffers of the caller.  Every argument of a request arrives, except the
mode of `vfs_fchmod`, which is always `0`.  On the way back `vfs_read`, `vfs_readdir` and `vfs_stat`
copy the whole buffer, which was cleared before the call, and not only what the operation stored
in it; and `vfs_fstat` copies nothing.

## Main results

* `remote_eq_direct_iff` — both calls are the same exactly under this condition.
-/

namespace Ginkgo.Fs

open Layout User

/-! ## Requests -/

/-- `enum VFS_REQ`. -/
inductive VfsReq
  | vfsOpen | vfsClose | vfsRead | vfsWrite | vfsLseek | vfsFsync | vfsFchmod | vfsFstat
  | vfsOpendir | vfsClosedir | vfsReaddir | vfsRewinddir | vfsMkdir | vfsRmdir | vfsRename
  | vfsUnlink | vfsAccess | vfsChmod | vfsStat
deriving DecidableEq

namespace VfsReq

/-- The requests in the order of their numbers. -/
def all : List VfsReq :=
  [vfsOpen, vfsClose, vfsRead, vfsWrite, vfsLseek, vfsFsync, vfsFchmod, vfsFstat, vfsOpendir,
    vfsClosedir, vfsReaddir, vfsRewinddir, vfsMkdir, vfsRmdir, vfsRename, vfsUnlink, vfsAccess,
    vfsChmod, vfsStat]

/-- The number of a request. -/
def code (req : VfsReq) : UInt32 := UInt32.ofNat (all.idxOf req)

/-- The request of a number. -/
def ofCode (c : UInt32) : Option VfsReq := all[c.toNat]?

theorem ofCode_code (req : VfsReq) : ofCode req.code = some req := by
  cases req with
  | _ => rfl

end VfsReq

/-- `req` of `struct fs_request`. -/
def reqSlot : Slot UInt32 := .u32 0

/-- The offset of the arguments in `struct fs_request`. -/
def argsOffset : ℕ := 8

/-- The arguments of a request that has only a descriptor.  The descriptor also comes first in the
arguments of `vfs_read` and the others that have one. -/
def fdSlot : Slot Int32 := .s32 0

/-- The arguments of a request that has only a path.  The path also comes first in the arguments of
`vfs_open` and the others that have one. -/
def pathSlot : Slot (List UInt8) := .str 0 vfsMaxPath

/-- `mode` behind a path. -/
def modeSlot : Slot UInt32 := .u32 vfsMaxPath

/-- `flags` of `struct VFS_OPEN_T`. -/
def openFlags : Slot UInt32 := .u32 vfsMaxPath

/-- `mode` of `struct VFS_OPEN_T`. -/
def openMode : Slot UInt32 := .u32 (vfsMaxPath + 4)

/-- `len` of `struct VFS_READ_T` and of `struct VFS_WRITE_T`. -/
def lenSlot : Slot UInt64 := .u64 8

/-- `buf` of `struct VFS_READ_T` and of `struct VFS_WRITE_T`. -/
def bufSlot (len : ℕ) : Slot (Bytes len) := .raw 16 len

/-- `off` of `struct VFS_LSEEK_T`. -/
def offSlot : Slot Int64 := .s64 8

/-- `whence` of `struct VFS_LSEEK_T`. -/
def whenceSlot : Slot Int32 := .s32 16

/-- `mode` of `struct VFS_FCHMOD_T`. -/
def fchmodMode : Slot UInt32 := .u32 4

/-- `st` of `struct VFS_FSTAT_T`. -/
def fstatSt : Slot (Bytes statSize) := .raw 8 statSize

/-- `dir` of `struct VFS_READDIR_T`. -/
def readdirDir : Slot (Bytes direntSize) := .raw 8 direntSize

/-- `dst` of `struct VFS_RENAME_T`. -/
def renameDst : Slot (List UInt8) := .str vfsMaxPath vfsMaxPath

/-- `st` of `struct VFS_STAT_T`. -/
def statSt : Slot (Bytes statSize) := .raw vfsMaxPath statSize

/-- The size of the arguments of a request. -/
def VfsReq.argsSize : VfsReq → ℕ
  | vfsOpen => openMode.stop
  | vfsClose | vfsFsync | vfsClosedir | vfsRewinddir => fdSlot.stop
  | vfsRead | vfsWrite => lenSlot.stop
  | vfsLseek => 24
  | vfsFchmod => fchmodMode.stop
  | vfsFstat => fstatSt.stop
  | vfsOpendir | vfsRmdir | vfsUnlink => pathSlot.stop
  | vfsReaddir => readdirDir.stop
  | vfsMkdir | vfsAccess | vfsChmod => modeSlot.stop
  | vfsRename => renameDst.stop
  | vfsStat => statSt.stop

/-- `GET_FS_REQUEST_SIZE`. -/
def VfsReq.size (req : VfsReq) : UInt64 := UInt64.ofNat (argsOffset + req.argsSize)

/-! ## The server -/

variable {fd : Int32} {m : Memory} {size : UInt64} {req : VfsReq} {param : ℕ}

section Rpc

variable {δ : Type} (fs : FileSystem δ)

/-- An `int` as the result of the handler. -/
def ofInt (x : Int32) : UInt64 := x.toInt64.toUInt64

/-- The result of the handler as an `int`. -/
def toInt (x : UInt64) : Int32 := x.toInt64.toInt32

/-- An operation with an `int` result and no output. -/
def answer (m : Memory) (f : ServerM δ Int32) : ServerM δ (UInt64 × Memory) := do
  let ret ← f
  return (ofInt ret, m)

/-- An operation that stores a record of the caller. -/
def answerRecord {n : ℕ} (m : Memory) (param : ℕ) (s : Slot (Bytes n))
    (f : Option (Bytes n) → ServerM δ (Int32 × Option (Bytes n))) :
    ServerM δ (UInt64 × Memory) := do
  let b := s.get param m
  let (ret, out) ← f (some b)
  return (ofInt ret, s.put param (out.getD b) m)

/-- The cases of `fs_dispatch`, for the arguments at `param`; other numbers are refused. -/
def serve (req : Option VfsReq) (param : ℕ) (m : Memory) : ServerM δ (UInt64 × Memory) :=
  let fd := fdSlot.get param m
  let path := some (toStr (pathSlot.get param m))
  match req with
  | none => return (-1, m)
  | some .vfsOpen => answer m (vfsOpen fs path (openFlags.get param m) (openMode.get param m))
  | some .vfsClose => answer m (vfsClose fs fd)
  | some .vfsRead => do
    let len := lenSlot.get param m
    let b := (bufSlot len.toNat).get param m
    let (ret, out) ← vfsRead fs fd len (some b)
    return (ret, (bufSlot len.toNat).put param (out.getD b) m)
  | some .vfsWrite => do
    let len := lenSlot.get param m
    let ret ← vfsWrite fs fd len (some ((bufSlot len.toNat).get param m))
    return (ret, m)
  | some .vfsLseek => do
    let ret ← vfsLseek fd (offSlot.get param m) (whenceSlot.get param m)
    return (ret.toUInt64, m)
  | some .vfsFsync => answer m (vfsFsync fs fd)
  | some .vfsFchmod => answer m (vfsFchmod fs fd (fchmodMode.get param m))
  | some .vfsFstat => answerRecord m param fstatSt (vfsFstat fd)
  | some .vfsOpendir => answer m (vfsOpendir fs path)
  | some .vfsClosedir => answer m (vfsClosedir fs fd)
  | some .vfsReaddir => answerRecord m param readdirDir (vfsReaddir fs fd)
  | some .vfsRewinddir => answer m (vfsRewinddir fd)
  | some .vfsMkdir => answer m (vfsMkdir fs path (modeSlot.get param m))
  | some .vfsRmdir => answer m (vfsRmdir fs path)
  | some .vfsRename =>
    answer m (vfsRename fs (toStr (pathSlot.get param m)) (toStr (renameDst.get param m)))
  | some .vfsUnlink => answer m (vfsUnlink fs path)
  | some .vfsAccess => answer m (vfsAccess fs path (modeSlot.get param m))
  | some .vfsChmod => answer m (vfsChmod fs path (modeSlot.get param m))
  | some .vfsStat => answerRecord m param statSt (vfsStat fs path)

/-- `fs_dispatch`, with the message in the buffer `m`. -/
def fsDispatch (m : Memory) : ServerM δ (UInt64 × Memory) :=
  serve fs (VfsReq.ofCode (reqSlot.get (ipcGetMsgData m) m)) (ipcGetMsgData m + argsOffset) m

/-! ## The client -/

/-- A path of a caller. -/
abbrev Path := CStr vfsMaxPath

/-- Computations of the client: the shared buffer, and the server. -/
abbrev ClientM (δ : Type) := StateT Memory (ServerM δ)

namespace Client

/-- A new request: the address of its arguments. -/
def request (req : VfsReq) (size : UInt64) : ClientM δ ℕ := do
  let m ← ipcCreateMsg size 0 (← get)
  set (reqSlot.put (ipcGetMsgData m) req.code m)
  return ipcGetMsgData m + argsOffset

/-- Store an argument. -/
def put {α : Type} (s : Slot α) (param : ℕ) (a : α) : ClientM δ Unit := modify (s.put param a)

/-- `strncpy`. -/
def strncpy (s : Slot (List UInt8)) (param : ℕ) (path : Option Path) : ClientM δ Unit :=
  match path with
  | none => throw .badAccess
  | some path => put s param path.chars

/-- `ipc_call`. -/
def ipcCall : ClientM δ UInt64 := do
  let (ret, m) ← fsDispatch fs (← get)
  set m
  return ret

/-- The functions whose only argument is a descriptor. -/
def fdStub (req : VfsReq) (fd : Int32) : ClientM δ Int32 := do
  let param ← request req req.size
  put fdSlot param fd
  return toInt (← ipcCall fs)

/-- The functions whose only argument is a path. -/
def pathStub (req : VfsReq) (path : Option Path) : ClientM δ Int32 := do
  let param ← request req req.size
  strncpy pathSlot param path
  return toInt (← ipcCall fs)

/-- The functions whose arguments are a path and a mode. -/
def pathModeStub (req : VfsReq) (path : Option Path) (mode : UInt32) : ClientM δ Int32 := do
  let param ← request req req.size
  strncpy pathSlot param path
  put modeSlot param mode
  return toInt (← ipcCall fs)

/-- `vfs_open`. -/
def vfsOpen (path : Option Path) (flags mode : UInt32) : ClientM δ Int32 := do
  let param ← request .vfsOpen VfsReq.vfsOpen.size
  strncpy pathSlot param path
  put openFlags param flags
  put openMode param mode
  return toInt (← ipcCall fs)

/-- `vfs_close`. -/
def vfsClose (fd : Int32) : ClientM δ Int32 := fdStub fs .vfsClose fd

/-- `vfs_read`: the result, and the buffer afterwards. -/
def vfsRead (fd : Int32) (len : UInt64) (buf : Option (Bytes len.toNat)) :
    ClientM δ (UInt64 × Option (Bytes len.toNat)) := do
  let param ← request .vfsRead (VfsReq.vfsRead.size + len)
  put fdSlot param fd
  put lenSlot param len
  let ret ← ipcCall fs
  match buf with
  | none => if len = 0 then return (ret, none) else throw .badAccess
  | some _ => return (ret, some ((bufSlot len.toNat).get param (← get)))

/-- `vfs_write`. -/
def vfsWrite (fd : Int32) (len : UInt64) (buf : Option (Bytes len.toNat)) :
    ClientM δ UInt64 := do
  let param ← request .vfsWrite (VfsReq.vfsWrite.size + len)
  put fdSlot param fd
  put lenSlot param len
  match buf with
  | none => if len = 0 then ipcCall fs else throw .badAccess
  | some b =>
    put (bufSlot len.toNat) param b
    ipcCall fs

/-- `vfs_lseek`. -/
def vfsLseek (fd : Int32) (off : Int64) (whence : Int32) : ClientM δ Int64 := do
  let param ← request .vfsLseek VfsReq.vfsLseek.size
  put fdSlot param fd
  put offSlot param off
  put whenceSlot param whence
  return (← ipcCall fs).toInt64

/-- `vfs_fsync`. -/
def vfsFsync (fd : Int32) : ClientM δ Int32 := fdStub fs .vfsFsync fd

/-- `vfs_fchmod`, which does not store the mode. -/
def vfsFchmod (fd : Int32) (_mode : UInt32) : ClientM δ Int32 := fdStub fs .vfsFchmod fd

/-- `vfs_fstat`, which does not copy the record. -/
def vfsFstat (fd : Int32) (rec : Option (Bytes statSize)) :
    ClientM δ (Int32 × Option (Bytes statSize)) := do
  let ret ← fdStub fs .vfsFstat fd
  return (ret, rec)

/-- `vfs_opendir`. -/
def vfsOpendir (name : Option Path) : ClientM δ Int32 := pathStub fs .vfsOpendir name

/-- `vfs_closedir`. -/
def vfsClosedir (fd : Int32) : ClientM δ Int32 := fdStub fs .vfsClosedir fd

/-- A record of the caller after the call. -/
def copyRecord {n : ℕ} (s : Slot (Bytes n)) (param : ℕ) (rec : Option (Bytes n)) :
    ClientM δ (Option (Bytes n)) := do
  match rec with
  | none => throw .badAccess
  | some _ => return some (s.get param (← get))

/-- `vfs_readdir`. -/
def vfsReaddir (fd : Int32) (dir : Option (Bytes direntSize)) :
    ClientM δ (Int32 × Option (Bytes direntSize)) := do
  let param ← request .vfsReaddir VfsReq.vfsReaddir.size
  put fdSlot param fd
  let ret ← ipcCall fs
  return (toInt ret, ← copyRecord readdirDir param dir)

/-- `vfs_rewinddir`. -/
def vfsRewinddir (fd : Int32) : ClientM δ Int32 := fdStub fs .vfsRewinddir fd

/-- `vfs_mkdir`. -/
def vfsMkdir (path : Option Path) (mode : UInt32) : ClientM δ Int32 :=
  pathModeStub fs .vfsMkdir path mode

/-- `vfs_rmdir`. -/
def vfsRmdir (path : Option Path) : ClientM δ Int32 := pathStub fs .vfsRmdir path

/-- `vfs_rename`. -/
def vfsRename (src dst : Path) : ClientM δ Int32 := do
  let param ← request .vfsRename VfsReq.vfsRename.size
  strncpy pathSlot param (some src)
  strncpy renameDst param (some dst)
  return toInt (← ipcCall fs)

/-- `vfs_unlink`. -/
def vfsUnlink (path : Option Path) : ClientM δ Int32 := pathStub fs .vfsUnlink path

/-- `vfs_access`. -/
def vfsAccess (path : Option Path) (mode : UInt32) : ClientM δ Int32 :=
  pathModeStub fs .vfsAccess path mode

/-- `vfs_chmod`. -/
def vfsChmod (path : Option Path) (mode : UInt32) : ClientM δ Int32 :=
  pathModeStub fs .vfsChmod path mode

/-- `vfs_stat`. -/
def vfsStat (path : Option Path) (rec : Option (Bytes statSize)) :
    ClientM δ (Int32 × Option (Bytes statSize)) := do
  let param ← request .vfsStat VfsReq.vfsStat.size
  strncpy pathSlot param path
  let ret ← ipcCall fs
  return (toInt ret, ← copyRecord statSt param rec)

end Client

/-! ## Both ways to call an operation -/

/-- The operations with their arguments, by the type of their results. -/
inductive Op : Type → Type
  | vfsOpen (path : Option Path) (flags mode : UInt32) : Op Int32
  | vfsClose (fd : Int32) : Op Int32
  | vfsRead (fd : Int32) (len : UInt64) (buf : Option (Bytes len.toNat)) :
      Op (UInt64 × Option (Bytes len.toNat))
  | vfsWrite (fd : Int32) (len : UInt64) (buf : Option (Bytes len.toNat)) : Op UInt64
  | vfsLseek (fd : Int32) (off : Int64) (whence : Int32) : Op Int64
  | vfsFsync (fd : Int32) : Op Int32
  | vfsFchmod (fd : Int32) (mode : UInt32) : Op Int32
  | vfsFstat (fd : Int32) (rec : Option (Bytes statSize)) : Op (Int32 × Option (Bytes statSize))
  | vfsOpendir (name : Option Path) : Op Int32
  | vfsClosedir (fd : Int32) : Op Int32
  | vfsReaddir (fd : Int32) (dir : Option (Bytes direntSize)) :
      Op (Int32 × Option (Bytes direntSize))
  | vfsRewinddir (fd : Int32) : Op Int32
  | vfsMkdir (path : Option Path) (mode : UInt32) : Op Int32
  | vfsRmdir (path : Option Path) : Op Int32
  | vfsRename (src dst : Path) : Op Int32
  | vfsUnlink (path : Option Path) : Op Int32
  | vfsAccess (path : Option Path) (mode : UInt32) : Op Int32
  | vfsChmod (path : Option Path) (mode : UInt32) : Op Int32
  | vfsStat (path : Option Path) (rec : Option (Bytes statSize)) :
      Op (Int32 × Option (Bytes statSize))

/-- The path as the server sees it. -/
def Path.str (path : Path) : Str := toStr path.chars

/-- A direct call of the operation of the server. -/
def direct : {α : Type} → Op α → ServerM δ α
  | _, .vfsOpen path flags mode => vfsOpen fs (path.map Path.str) flags mode
  | _, .vfsClose fd => vfsClose fs fd
  | _, .vfsRead fd len buf => vfsRead fs fd len buf
  | _, .vfsWrite fd len buf => vfsWrite fs fd len buf
  | _, .vfsLseek fd off whence => vfsLseek fd off whence
  | _, .vfsFsync fd => vfsFsync fs fd
  | _, .vfsFchmod fd mode => vfsFchmod fs fd mode
  | _, .vfsFstat fd rec => vfsFstat fd rec
  | _, .vfsOpendir name => vfsOpendir fs (name.map Path.str)
  | _, .vfsClosedir fd => vfsClosedir fs fd
  | _, .vfsReaddir fd dir => vfsReaddir fs fd dir
  | _, .vfsRewinddir fd => vfsRewinddir fd
  | _, .vfsMkdir path mode => vfsMkdir fs (path.map Path.str) mode
  | _, .vfsRmdir path => vfsRmdir fs (path.map Path.str)
  | _, .vfsRename src dst => vfsRename fs src.str dst.str
  | _, .vfsUnlink path => vfsUnlink fs (path.map Path.str)
  | _, .vfsAccess path mode => vfsAccess fs (path.map Path.str) mode
  | _, .vfsChmod path mode => vfsChmod fs (path.map Path.str) mode
  | _, .vfsStat path rec => vfsStat fs (path.map Path.str) rec

/-- The function of the client. -/
def Op.client : {α : Type} → Op α → ClientM δ α
  | _, .vfsOpen path flags mode => Client.vfsOpen fs path flags mode
  | _, .vfsClose fd => Client.vfsClose fs fd
  | _, .vfsRead fd len buf => Client.vfsRead fs fd len buf
  | _, .vfsWrite fd len buf => Client.vfsWrite fs fd len buf
  | _, .vfsLseek fd off whence => Client.vfsLseek fs fd off whence
  | _, .vfsFsync fd => Client.vfsFsync fs fd
  | _, .vfsFchmod fd mode => Client.vfsFchmod fs fd mode
  | _, .vfsFstat fd rec => Client.vfsFstat fs fd rec
  | _, .vfsOpendir name => Client.vfsOpendir fs name
  | _, .vfsClosedir fd => Client.vfsClosedir fs fd
  | _, .vfsReaddir fd dir => Client.vfsReaddir fs fd dir
  | _, .vfsRewinddir fd => Client.vfsRewinddir fs fd
  | _, .vfsMkdir path mode => Client.vfsMkdir fs path mode
  | _, .vfsRmdir path => Client.vfsRmdir fs path
  | _, .vfsRename src dst => Client.vfsRename fs src dst
  | _, .vfsUnlink path => Client.vfsUnlink fs path
  | _, .vfsAccess path mode => Client.vfsAccess fs path mode
  | _, .vfsChmod path mode => Client.vfsChmod fs path mode
  | _, .vfsStat path rec => Client.vfsStat fs path rec

/-- A call through the shared buffer, which holds `m` before the call. -/
def remote (m : Memory) {α : Type} (op : Op α) : ServerM δ α := (op.client fs).run' m

/-- The request fits the shared buffer. -/
def Op.Fits : {α : Type} → Op α → Prop
  | _, .vfsRead _ len _ =>
    msgSize.toNat + (VfsReq.vfsRead.size.toNat + len.toNat) ≤ clientBufSize.toNat
  | _, .vfsWrite _ len _ =>
    msgSize.toNat + (VfsReq.vfsWrite.size.toNat + len.toNat) ≤ clientBufSize.toNat
  | _, _ => True

/-! ## When both are the same -/

/-- What a direct call of `vfs_read` stores in the buffer: what the file system delivers for an
open regular file that can be read, and otherwise nothing. -/
def readStores (st : Server δ) (fd : Int32) (len : UInt64) : Except Fault (Patch len.toNat) :=
  match st.opened fd with
  | none => .ok fun _ => none
  | some (i, n) =>
    if st.type n = .reg ∧ (st.file i).flags &&& oRdonly ≠ 0 then
      ((fs.read n (st.file i).offset len).run st).map fun r => r.1.2
    else .ok fun _ => none

/-- What a direct call of `vfs_readdir` stores in the entry. -/
def readdirStores (st : Server δ) (fd : Int32) : Except Fault (Patch direntSize) :=
  match st.opened fd with
  | none => .ok fun _ => none
  | some (i, n) =>
    if st.type n = .dir then ((fs.readdir n (st.file i).offset).run st).map fun r => r.1.2
    else .ok fun _ => none

/-- The call through the buffer and the direct call in the state `st` are the same.

* The pointers that the function of the client follows are not null.
* The bytes of the buffer of `vfs_read`, and of the entry of `vfs_readdir`, are zero where nothing
  is stored in them.
* The file system does for the mode `0` what it does for the mode of `vfs_fchmod`.
* The record of `vfs_fstat` is already what it should become.
* The record of `vfs_stat` is zero if the path is not found. -/
def Op.Intact (st : Server δ) : {α : Type} → Op α → Prop
  | _, .vfsOpen path _ _ => path ≠ none
  | _, .vfsRead _ len none => len = 0
  | _, .vfsRead fd len (some b) =>
    ∀ p, readStores fs st fd len = .ok p → ∀ i, p i = none → b i = 0
  | _, .vfsWrite _ len buf => buf = none → len = 0
  | _, .vfsFchmod fd mode =>
    ∀ i n, st.opened fd = some (i, n) →
      (fs.chmod n (mode &&& sIrwxugo)).run st = (fs.chmod n 0).run st
  | _, .vfsFstat fd none => ∀ i n, st.opened fd = some (i, n) → st.type n = .unk
  | _, .vfsFstat fd (some b) => ∀ i n, st.opened fd = some (i, n) → b = (vfsNodeStat st n).2
  | _, .vfsOpendir name => name ≠ none
  | _, .vfsReaddir _ none => False
  | _, .vfsReaddir fd (some b) =>
    ∀ p, readdirStores fs st fd = .ok p → ∀ i, p i = none → b i = 0
  | _, .vfsMkdir path _ => path ≠ none
  | _, .vfsRmdir path => path ≠ none
  | _, .vfsUnlink path => path ≠ none
  | _, .vfsAccess path _ => path ≠ none
  | _, .vfsChmod path _ => path ≠ none
  | _, .vfsStat (some path) (some b) =>
    ∀ err np st', (acquire fs path.str).run st = .ok ((err, np), st') → err ≠ 0 → b = 0
  | _, .vfsStat _ _ => False
  | _, .vfsClose _ | _, .vfsLseek _ _ _ | _, .vfsFsync _ | _, .vfsClosedir _
  | _, .vfsRewinddir _ | _, .vfsRename _ _ => True

/-! ## Requests in the buffer -/

@[simp] theorem toInt_ofInt (x : Int32) : toInt (ofInt x) = x := by
  simp [toInt, ofInt]

/-- The address of the arguments. -/
def argsBase : ℕ := msgSize.toNat + argsOffset

/-- The buffer holds a request. -/
def IsRequest (m : Memory) (req : VfsReq) : Prop :=
  ipcGetMsgData m = msgSize.toNat ∧ reqSlot.get msgSize.toNat m = req.code

/-- A request whose arguments are cleared. -/
def newRequest (req : VfsReq) (size : UInt64) (m : Memory) : Memory :=
  reqSlot.put msgSize.toNat req.code (clearedMsg size m)

theorem newRequest_isRequest (req : VfsReq) (size : UInt64) (m : Memory) :
    IsRequest (newRequest req size m) req := by
  constructor
  · rw [newRequest, Slot.put, ipcGetMsgData_store _ (Nat.le_add_right _ _),
      ipcGetMsgData_clearedMsg]
  · rw [newRequest, Slot.get_put, reqSlot, Slot.u32_dec_enc]

theorem IsRequest.put (h : IsRequest m req) {α : Type} (s : Slot α) (a : α) :
    IsRequest (s.put argsBase a m) req := by
  have hbase : msgSize.toNat ≤ argsBase + s.offset := by
    rw [argsBase]
    omega
  constructor
  · rw [Slot.put, ipcGetMsgData_store _ hbase]
    exact h.1
  · rw [Slot.get_put_of_disjoint, h.2]
    right
    rw [argsBase]
    have hstop : reqSlot.stop ≤ argsOffset := by decide
    omega

theorem get_newRequest {α : Type} (s : Slot α) (req : VfsReq) (size : UInt64) (m : Memory)
    (h : argsOffset + s.stop ≤ size.toNat) : s.get argsBase (newRequest req size m) = s.dec 0 := by
  have hstop : reqSlot.stop ≤ argsOffset := by decide
  rw [Slot.stop] at h
  rw [newRequest, Slot.get_put_of_disjoint, Slot.get, clearedMsg, load_store_zero]
  · rw [argsBase]
    omega
  · rw [argsBase]
    omega
  · left
    rw [argsBase]
    omega

namespace Client

@[simp] theorem lift_ok {α : Type} (a : α) :
    (monadLift (Except.ok a : Except Fault α) : ServerM δ α) = pure a := rfl

@[simp] theorem throw_bind {α β : Type} (e : Fault) (f : α → ServerM δ β) :
    (throw e >>= f : ServerM δ β) = throw e := rfl

@[simp] theorem map_throw {α β : Type} (e : Fault) (f : α → β) :
    (f <$> (throw e : ServerM δ α)) = throw e := rfl

theorem run_request (h : msgSize.toNat + size.toNat ≤ clientBufSize.toNat) (req : VfsReq)
    (m : Memory) :
    (request req size : ClientM δ ℕ).run m = pure (argsBase, newRequest req size m) := by
  simp [request, ipcCreateMsg_eq h, newRequest, argsBase]

@[simp] theorem run_put {α : Type} (s : Slot α) (param : ℕ) (a : α) (m : Memory) :
    (put s param a : ClientM δ Unit).run m = pure ((), s.put param a m) := rfl

@[simp] theorem run_strncpy (s : Slot (List UInt8)) (param : ℕ) (path : Path) (m : Memory) :
    (strncpy s param (some path) : ClientM δ Unit).run m = pure ((), s.put param path.chars m) :=
  rfl

theorem run_ipcCall (h : IsRequest m req) :
    (ipcCall fs).run m = serve fs (some req) argsBase m := by
  have hserve : fsDispatch fs m = serve fs (some req) argsBase m := by
    rw [fsDispatch, h.1, h.2, VfsReq.ofCode_code, argsBase]
  simp [ipcCall, hserve]

theorem size_fits (req : VfsReq) : msgSize.toNat + req.size.toNat ≤ clientBufSize.toNat := by
  cases req with
  | _ => decide

@[simp] theorem toInt_answer (m : Memory) (f : ServerM δ Int32) :
    (fun r => toInt r.1) <$> answer m f = f := by
  simp [answer]

theorem run'_fdStub (req : VfsReq) (fd : Int32) (m : Memory) : (fdStub fs req fd).run' m =
    (fun r => toInt r.1) <$>
      serve fs (some req) argsBase (fdSlot.put argsBase fd (newRequest req req.size m)) := by
  have hreq := (newRequest_isRequest req req.size m).put fdSlot fd
  simp [fdStub, StateT.run'_eq, run_request (size_fits req), run_ipcCall fs hreq]

theorem run'_fdStub_answer (req : VfsReq) (f : Int32 → ServerM δ Int32)
    (h : ∀ param m, serve fs (some req) param m = answer m (f (fdSlot.get param m))) (fd : Int32)
    (m : Memory) : (fdStub fs req fd).run' m = f fd := by
  rw [run'_fdStub, h, toInt_answer, Slot.get_put, fdSlot, Slot.s32_dec_enc]

theorem run'_pathStub (req : VfsReq) (f : Option Str → ServerM δ Int32)
    (h : ∀ param m, serve fs (some req) param m =
      answer m (f (some (toStr (pathSlot.get param m))))) (path : Path) (m : Memory) :
    (pathStub fs req (some path)).run' m = f (some path.str) := by
  have hreq := (newRequest_isRequest req req.size m).put pathSlot path.chars
  have hrun : (pathStub fs req (some path)).run' m = (fun r => toInt r.1) <$>
      serve fs (some req) argsBase
        (pathSlot.put argsBase path.chars (newRequest req req.size m)) := by
    simp [pathStub, StateT.run'_eq, run_request (size_fits req), run_ipcCall fs hreq]
  rw [hrun, h, toInt_answer, Slot.get_put, pathSlot, Slot.str_dec_enc, Path.str]

theorem run'_pathModeStub (req : VfsReq) (f : Option Str → UInt32 → ServerM δ Int32)
    (h : ∀ param m, serve fs (some req) param m =
      answer m (f (some (toStr (pathSlot.get param m))) (modeSlot.get param m)))
    (path : Path) (mode : UInt32) (m : Memory) :
    (pathModeStub fs req (some path) mode).run' m = f (some path.str) mode := by
  have hreq := ((newRequest_isRequest req req.size m).put pathSlot path.chars).put modeSlot mode
  have hrun : (pathModeStub fs req (some path) mode).run' m = (fun r => toInt r.1) <$>
      serve fs (some req) argsBase (modeSlot.put argsBase mode
        (pathSlot.put argsBase path.chars (newRequest req req.size m))) := by
    simp [pathModeStub, StateT.run'_eq, run_request (size_fits req), run_ipcCall fs hreq]
  rw [hrun, h, toInt_answer, Slot.get_put_of_disjoint pathSlot _ _ _ _ _ (by decide),
    Slot.get_put, Slot.get_put, pathSlot, Slot.str_dec_enc, modeSlot, Slot.u32_dec_enc, Path.str]

theorem run'_strncpy_none {α : Type} (req : VfsReq) (s : Slot (List UInt8))
    (f : ℕ → ClientM δ α) (m : Memory) :
    StateT.run' (do
      let param ← request req req.size
      strncpy s param none
      f param) m = throw .badAccess := by
  simp [strncpy, StateT.run'_eq, run_request (size_fits req)]

theorem run'_vfsOpen (path : Path) (flags mode : UInt32) (m : Memory) :
    (vfsOpen fs (some path) flags mode).run' m = Fs.vfsOpen fs (some path.str) flags mode := by
  obtain ⟨m', hm'⟩ : ∃ m', m' = openMode.put argsBase mode (openFlags.put argsBase flags
    (pathSlot.put argsBase path.chars (newRequest .vfsOpen VfsReq.vfsOpen.size m))) := ⟨_, rfl⟩
  have hreq : IsRequest m' .vfsOpen := by
    rw [hm']
    exact (((newRequest_isRequest _ _ m).put _ _).put _ _).put _ _
  have hrun : (vfsOpen fs (some path) flags mode).run' m =
      (fun r => toInt r.1) <$> serve fs (some .vfsOpen) argsBase m' := by
    simp [vfsOpen, StateT.run'_eq, run_request (size_fits .vfsOpen), ← hm', run_ipcCall fs hreq]
  rw [hrun, hm']
  simp (disch := decide) [serve, pathSlot, openFlags, openMode, Slot.get_put,
    Slot.get_put_of_disjoint, Path.str]

theorem run'_vfsLseek (fd : Int32) (off : Int64) (whence : Int32) (m : Memory) :
    (vfsLseek fs fd off whence).run' m = Fs.vfsLseek fd off whence := by
  obtain ⟨m', hm'⟩ : ∃ m', m' = whenceSlot.put argsBase whence (offSlot.put argsBase off
    (fdSlot.put argsBase fd (newRequest .vfsLseek VfsReq.vfsLseek.size m))) := ⟨_, rfl⟩
  have hreq : IsRequest m' .vfsLseek := by
    rw [hm']
    exact (((newRequest_isRequest _ _ m).put _ _).put _ _).put _ _
  have hrun : (vfsLseek fs fd off whence).run' m =
      (fun r => r.1.toInt64) <$> serve fs (some .vfsLseek) argsBase m' := by
    simp [vfsLseek, StateT.run'_eq, run_request (size_fits .vfsLseek), ← hm', run_ipcCall fs hreq]
  rw [hrun, hm']
  simp (disch := decide) [serve, fdSlot, offSlot, whenceSlot, Slot.get_put,
    Slot.get_put_of_disjoint]

theorem run'_vfsRename (src dst : Path) (m : Memory) :
    (vfsRename fs src dst).run' m = Fs.vfsRename fs src.str dst.str := by
  obtain ⟨m', hm'⟩ : ∃ m', m' = renameDst.put argsBase dst.chars
    (pathSlot.put argsBase src.chars (newRequest .vfsRename VfsReq.vfsRename.size m)) := ⟨_, rfl⟩
  have hreq : IsRequest m' .vfsRename := by
    rw [hm']
    exact ((newRequest_isRequest _ _ m).put _ _).put _ _
  have hrun : (vfsRename fs src dst).run' m =
      (fun r => toInt r.1) <$> serve fs (some .vfsRename) argsBase m' := by
    simp [vfsRename, StateT.run'_eq, run_request (size_fits .vfsRename), ← hm',
      run_ipcCall fs hreq]
  rw [hrun, hm']
  simp (disch := decide) [serve, pathSlot, renameDst, Slot.get_put, Slot.get_put_of_disjoint,
    Path.str]

theorem run'_vfsFchmod (fd : Int32) (mode : UInt32) (m : Memory) :
    (vfsFchmod fs fd mode).run' m = Fs.vfsFchmod fs fd 0 := by
  have hmode := get_newRequest fchmodMode .vfsFchmod VfsReq.vfsFchmod.size m (by decide)
  have hzero : fchmodMode.dec 0 = 0 := by decide
  have hfd : fdSlot.get argsBase
      (fdSlot.put argsBase fd (newRequest .vfsFchmod VfsReq.vfsFchmod.size m)) = fd := by
    rw [Slot.get_put, fdSlot, Slot.s32_dec_enc]
  rw [vfsFchmod, run'_fdStub, serve, toInt_answer, hfd,
    Slot.get_put_of_disjoint fchmodMode _ _ _ _ _ (by decide), hmode, hzero]

theorem run'_vfsFstat (fd : Int32) (rec : Option (Bytes statSize)) (m : Memory) :
    (vfsFstat fs fd rec).run' m = (fun r => (r.1, rec)) <$> Fs.vfsFstat fd (some 0) := by
  have hst := get_newRequest fstatSt .vfsFstat VfsReq.vfsFstat.size m (by decide)
  have hzero : fstatSt.dec 0 = 0 := rfl
  have hfd : fdSlot.get argsBase
      (fdSlot.put argsBase fd (newRequest .vfsFstat VfsReq.vfsFstat.size m)) = fd := by
    rw [Slot.get_put, fdSlot, Slot.s32_dec_enc]
  have hrun : (vfsFstat fs fd rec).run' m =
      (fun r => (r, rec)) <$> (fdStub fs .vfsFstat fd).run' m := by
    simp [vfsFstat, StateT.run'_eq]
  rw [hrun, run'_fdStub, serve, answerRecord, hfd,
    Slot.get_put_of_disjoint fstatSt _ _ _ _ _ (by decide), hst, hzero]
  simp

theorem run'_vfsReaddir (fd : Int32) (dir : Option (Bytes direntSize)) (m : Memory) :
    (vfsReaddir fs fd dir).run' m = (do
      let (ret, out) ← Fs.vfsReaddir fs fd (some 0)
      match dir with
      | none => throw .badAccess
      | some _ => return (ret, some (out.getD 0))) := by
  obtain ⟨m', hm'⟩ : ∃ m', m' = fdSlot.put argsBase fd
    (newRequest .vfsReaddir VfsReq.vfsReaddir.size m) := ⟨_, rfl⟩
  have hreq : IsRequest m' .vfsReaddir := by
    rw [hm']
    exact (newRequest_isRequest _ _ m).put _ _
  have hdir : readdirDir.get argsBase m' = 0 := by
    rw [hm', Slot.get_put_of_disjoint readdirDir _ _ _ _ _ (by decide),
      get_newRequest _ _ _ _ (by decide)]
    rfl
  have hfd : fdSlot.get argsBase m' = fd := by
    rw [hm', Slot.get_put, fdSlot, Slot.s32_dec_enc]
  have hcall := run_ipcCall fs hreq
  rw [serve, answerRecord, hfd, hdir] at hcall
  cases dir with
  | none =>
    simp [vfsReaddir, StateT.run'_eq, run_request (size_fits .vfsReaddir), ← hm', hcall,
      copyRecord]
  | some b =>
    simp [vfsReaddir, StateT.run'_eq, run_request (size_fits .vfsReaddir), ← hm', hcall,
      copyRecord, Slot.get_put]
    rfl

theorem run'_vfsStat (path : Path) (rec : Option (Bytes statSize)) (m : Memory) :
    (vfsStat fs (some path) rec).run' m = (do
      let (ret, out) ← Fs.vfsStat fs (some path.str) (some 0)
      match rec with
      | none => throw .badAccess
      | some _ => return (ret, some (out.getD 0))) := by
  obtain ⟨m', hm'⟩ : ∃ m', m' = pathSlot.put argsBase path.chars
    (newRequest .vfsStat VfsReq.vfsStat.size m) := ⟨_, rfl⟩
  have hreq : IsRequest m' .vfsStat := by
    rw [hm']
    exact (newRequest_isRequest _ _ m).put _ _
  have hst : statSt.get argsBase m' = 0 := by
    rw [hm', Slot.get_put_of_disjoint statSt _ _ _ _ _ (by decide),
      get_newRequest _ _ _ _ (by decide)]
    rfl
  have hpath : pathSlot.get argsBase m' = path.chars := by
    rw [hm', Slot.get_put, pathSlot, Slot.str_dec_enc]
  have hcall := run_ipcCall fs hreq
  rw [serve, answerRecord, hpath, hst] at hcall
  cases rec with
  | none =>
    simp [vfsStat, StateT.run'_eq, run_request (size_fits .vfsStat), ← hm', hcall, copyRecord,
      Path.str]
  | some b =>
    simp [vfsStat, StateT.run'_eq, run_request (size_fits .vfsStat), ← hm', hcall, copyRecord,
      Slot.get_put, Path.str]
    rfl

theorem size_add {len : UInt64} (h : msgSize.toNat + (size.toNat + len.toNat) ≤ clientBufSize.toNat)
    :
    (size + len).toNat = size.toNat + len.toNat := by
  have hlt : clientBufSize.toNat < 2 ^ 64 := by decide
  rw [UInt64.toNat_add, Nat.mod_eq_of_lt]
  omega

variable {len : UInt64}

theorem serve_vfsRead (h : lenSlot.get param m = len) :
    serve fs (some .vfsRead) param m = (do
      let b := (bufSlot len.toNat).get param m
      let (ret, out) ← Fs.vfsRead fs (fdSlot.get param m) len (some b)
      return (ret, (bufSlot len.toNat).put param (out.getD b) m)) := by
  subst h
  rfl

theorem serve_vfsWrite (h : lenSlot.get param m = len) :
    serve fs (some .vfsWrite) param m = (do
      let ret ← Fs.vfsWrite fs (fdSlot.get param m) len
        (some ((bufSlot len.toNat).get param m))
      return (ret, m)) := by
  subst h
  rfl

theorem get_put_bufSlot {α : Type} {s : Slot α} {len : ℕ} (h : s.stop ≤ 16) (b : Bytes len)
    (m : Memory) : s.get argsBase ((bufSlot len).put argsBase b m) = s.get argsBase m := by
  apply Slot.get_put_of_disjoint
  right
  exact Nat.add_le_add_left h _

theorem bufSlot_get_put {α : Type} {s : Slot α} {len : ℕ} (h : s.stop ≤ 16) (a : α)
    (m : Memory) :
    (bufSlot len).get argsBase (s.put argsBase a m) = (bufSlot len).get argsBase m := by
  apply Slot.get_put_of_disjoint
  left
  exact Nat.add_le_add_left h _

theorem run'_vfsRead {buf : Option (Bytes len.toNat)} (hfit : (Op.vfsRead fd len buf).Fits)
    (m : Memory) :
    (vfsRead fs fd len buf).run' m = (do
      let (ret, out) ← Fs.vfsRead fs fd len (some 0)
      match buf with
      | none => if len = 0 then return (ret, none) else throw .badAccess
      | some _ => return (ret, some (out.getD 0))) := by
  have hsum := size_add hfit
  have hfit' : msgSize.toNat + (VfsReq.vfsRead.size + len).toNat ≤ clientBufSize.toNat := by
    rw [hsum]
    exact hfit
  obtain ⟨m', hm'⟩ : ∃ m', m' = lenSlot.put argsBase len
    (fdSlot.put argsBase fd (newRequest .vfsRead (VfsReq.vfsRead.size + len) m)) := ⟨_, rfl⟩
  have hreq : IsRequest m' .vfsRead := by
    rw [hm']
    exact ((newRequest_isRequest _ _ m).put _ _).put _ _
  have hlen : lenSlot.get argsBase m' = len := by
    rw [hm', Slot.get_put, lenSlot, Slot.u64_dec_enc]
  have hfd : fdSlot.get argsBase m' = fd := by
    rw [hm', Slot.get_put_of_disjoint _ _ _ _ _ _ (by decide), Slot.get_put, fdSlot,
      Slot.s32_dec_enc]
  have hbuf : (bufSlot len.toNat).get argsBase m' = 0 := by
    rw [hm', bufSlot_get_put (by decide), bufSlot_get_put (by decide), get_newRequest]
    · rfl
    · have hsize : VfsReq.vfsRead.size.toNat = 24 := by decide
      rw [hsum, hsize]
      change 8 + (16 + len.toNat) ≤ _
      omega
  have hcall := run_ipcCall fs hreq
  rw [serve_vfsRead fs hlen, hfd, hbuf] at hcall
  cases buf with
  | none =>
    by_cases h0 : len = 0
    · simp [vfsRead, StateT.run'_eq, run_request hfit', ← hm', hcall, if_pos h0]
    · simp [vfsRead, StateT.run'_eq, run_request hfit', ← hm', hcall, h0]
  | some b =>
    simp [vfsRead, StateT.run'_eq, run_request hfit', ← hm', hcall, Slot.get_put]
    rfl

theorem run'_vfsWrite {b : Bytes len.toNat} (hfit : (Op.vfsWrite fd len (some b)).Fits) (m : Memory)
    :
    (vfsWrite fs fd len (some b)).run' m = Fs.vfsWrite fs fd len (some b) := by
  have hfit' : msgSize.toNat + (VfsReq.vfsWrite.size + len).toNat ≤ clientBufSize.toNat := by
    rw [size_add hfit]
    exact hfit
  obtain ⟨m', hm'⟩ : ∃ m', m' = (bufSlot len.toNat).put argsBase b (lenSlot.put argsBase len
    (fdSlot.put argsBase fd (newRequest .vfsWrite (VfsReq.vfsWrite.size + len) m))) := ⟨_, rfl⟩
  have hreq : IsRequest m' .vfsWrite := by
    rw [hm']
    exact (((newRequest_isRequest _ _ m).put _ _).put _ _).put _ _
  have hlen : lenSlot.get argsBase m' = len := by
    rw [hm', get_put_bufSlot (by decide), Slot.get_put, lenSlot, Slot.u64_dec_enc]
  have hfd : fdSlot.get argsBase m' = fd := by
    rw [hm', get_put_bufSlot (by decide), Slot.get_put_of_disjoint _ _ _ _ _ _ (by decide),
      Slot.get_put, fdSlot, Slot.s32_dec_enc]
  have hbuf : (bufSlot len.toNat).get argsBase m' = b := by
    rw [hm', Slot.get_put, bufSlot, Slot.raw_dec_enc]
  have hcall := run_ipcCall fs hreq
  rw [serve_vfsWrite fs hlen, hfd, hbuf] at hcall
  simp [vfsWrite, StateT.run'_eq, run_request hfit', ← hm', hcall]

theorem run'_vfsWrite_none (hfit : (Op.vfsWrite fd len none).Fits) (m : Memory) :
    (vfsWrite fs fd len none).run' m = if len = 0 then pure 0 else throw .badAccess := by
  have hfit' : msgSize.toNat + (VfsReq.vfsWrite.size + len).toNat ≤ clientBufSize.toNat := by
    rw [size_add hfit]
    exact hfit
  obtain ⟨m', hm'⟩ : ∃ m', m' = lenSlot.put argsBase len
    (fdSlot.put argsBase fd (newRequest .vfsWrite (VfsReq.vfsWrite.size + len) m)) := ⟨_, rfl⟩
  have hreq : IsRequest m' .vfsWrite := by
    rw [hm']
    exact ((newRequest_isRequest _ _ m).put _ _).put _ _
  have hlen : lenSlot.get argsBase m' = len := by
    rw [hm', Slot.get_put, lenSlot, Slot.u64_dec_enc]
  have hcall := run_ipcCall fs hreq
  rw [serve_vfsWrite fs hlen] at hcall
  by_cases h0 : len = 0
  · simp [vfsWrite, StateT.run'_eq, run_request hfit', ← hm', hcall, if_pos h0, Fs.vfsWrite]
  · simp [vfsWrite, StateT.run'_eq, run_request hfit', h0]

end Client

/-! ## Buffers of the caller -/

section Buffers

variable {st : Server δ}

@[simp] theorem pure_eq_pure {α : Type} {x y : α} :
    (pure x : Except Fault α) = pure y ↔ x = y := by
  constructor
  · exact fun h => Except.ok.inj h
  · exact fun h => h ▸ rfl

theorem vfsRead_zero_iff (fd : Int32) (len : UInt64) (b : Bytes len.toNat) :
    ((fun r => (r.1, some (r.2.getD 0))) <$> vfsRead fs fd len (some 0)).run st =
        (vfsRead fs fd len (some b)).run st ↔
      ∀ p, readStores fs st fd len = .ok p → ∀ i, p i = none → b i = 0 := by
  by_cases h0 : len = 0
  · subst h0
    have hb : b = 0 := funext fun i => i.elim0
    simp [vfsRead, hb]
  have hzero : (0 : Bytes len.toNat) = b ↔ ∀ i, b i = 0 := by
    rw [funext_iff]
    exact forall_congr' fun i => eq_comm
  cases hopen : st.opened fd with
  | none => simp [vfsRead, h0, hopen, readStores, hzero]
  | some e =>
    obtain ⟨i, n⟩ := e
    by_cases htype : st.type n = .reg
    · by_cases hflags : (st.file i).flags &&& oRdonly = 0
      · simp [vfsRead, h0, hopen, readStores, htype, hflags, hzero]
      · cases hread : (fs.read n (st.file i).offset len).run st with
        | error e => simp [vfsRead, h0, hopen, readStores, htype, hflags, hread, Except.map]
        | ok r =>
          obtain ⟨⟨ret, p⟩, st'⟩ := r
          have happly := Patch.apply_eq_apply_iff (p := p) (b := b) (c := 0)
          simp [vfsRead, h0, hopen, readStores, htype, hflags, hread, Except.map,
            eq_comm (b := p.apply b), happly]
    · simp [vfsRead, h0, hopen, readStores, htype, hzero]

theorem vfsReaddir_zero_iff (fd : Int32) (b : Bytes direntSize) :
    ((fun r => (r.1, some (r.2.getD 0))) <$> vfsReaddir fs fd (some 0)).run st =
        (vfsReaddir fs fd (some b)).run st ↔
      ∀ p, readdirStores fs st fd = .ok p → ∀ i, p i = none → b i = 0 := by
  have hzero : (0 : Bytes direntSize) = b ↔ ∀ i, b i = 0 := by
    rw [funext_iff]
    exact forall_congr' fun i => eq_comm
  cases hopen : st.opened fd with
  | none => simp [vfsReaddir, hopen, readdirStores, hzero]
  | some e =>
    obtain ⟨i, n⟩ := e
    by_cases htype : st.type n = .dir
    · cases hread : (fs.readdir n (st.file i).offset).run st with
      | error e => simp [vfsReaddir, hopen, readdirStores, htype, hread, Except.map]
      | ok r =>
        obtain ⟨⟨err, p⟩, st'⟩ := r
        have happly := Patch.apply_eq_apply_iff (p := p) (b := b) (c := 0)
        have hstores : readdirStores fs st fd = .ok p := by
          simp [readdirStores, hopen, htype, hread, Except.map]
        have hout : ∀ c, ∃ st'', (vfsReaddir fs fd (some c)).run st =
            .ok ((err, some (p.apply c)), st'') := by
          intro c
          by_cases herr : err = 0
          · exact ⟨_, by simp [vfsReaddir, hopen, htype, hread, herr]; rfl⟩
          · exact ⟨_, by simp [vfsReaddir, hopen, htype, hread, herr]; rfl⟩
        rw [hstores]
        constructor
        · intro h p' hp'
          obtain ⟨st₀, h₀⟩ := hout 0
          obtain ⟨st₁, h₁⟩ := hout b
          cases hp'
          have heq : p.apply 0 = p.apply b ∧ st₀ = st₁ := by
            simpa [h₀, h₁] using h
          exact happly.mp heq.1.symm
        · intro h
          have heq := happly.mpr (h p rfl)
          have hsame : (vfsReaddir fs fd (some b)).run st = (vfsReaddir fs fd (some 0)).run st := by
            simp [vfsReaddir, hopen, htype, hread, heq]
          obtain ⟨st₀, h₀⟩ := hout 0
          rw [hsame, StateT.run_map, h₀]
          rfl
    · simp [vfsReaddir, hopen, readdirStores, htype, hzero]

theorem vfsStat_zero_iff (path : Str) (b : Bytes statSize) :
    ((fun r => (r.1, some (r.2.getD 0))) <$> vfsStat fs (some path) (some 0)).run st =
        (vfsStat fs (some path) (some b)).run st ↔
      ∀ err np st', (acquire fs path).run st = .ok ((err, np), st') → err ≠ 0 → b = 0 := by
  cases hacq : (acquire fs path).run st with
  | error e => simp [vfsStat, hacq]
  | ok r =>
    obtain ⟨⟨err, np⟩, st'⟩ := r
    by_cases herr : err = 0
    · simp [vfsStat, hacq, herr]
    · simp [vfsStat, hacq, herr, eq_comm (a := b)]

theorem vfsNodeStat_eq_neg_one (n : ℕ) : (vfsNodeStat st n).1 = -1 ↔ st.type n = .unk := by
  rw [vfsNodeStat]
  cases st.type n with
  | _ => simp [typeBits]

theorem vfsFstat_iff (fd : Int32) (rec : Option (Bytes statSize)) :
    ((fun r => (r.1, rec)) <$> vfsFstat fd (some 0)).run st = (vfsFstat fd rec).run st ↔
      (Op.vfsFstat fd rec).Intact fs st := by
  cases hopen : st.opened fd with
  | none =>
    cases rec with
    | none => simp [vfsFstat, hopen, Op.Intact]
    | some b => simp [vfsFstat, hopen, Op.Intact]
  | some e =>
    obtain ⟨i, n⟩ := e
    cases rec with
    | none => simp [vfsFstat, hopen, Op.Intact, vfsNodeStat_eq_neg_one]
    | some b => simp [vfsFstat, hopen, Op.Intact]

theorem vfsFchmod_iff (fd : Int32) (mode : UInt32) :
    (vfsFchmod fs fd 0).run st = (vfsFchmod fs fd mode).run st ↔
      (Op.vfsFchmod fd mode).Intact fs st := by
  cases hopen : st.opened fd with
  | none => simp [vfsFchmod, hopen, Op.Intact]
  | some e =>
    obtain ⟨i, n⟩ := e
    simp [vfsFchmod, hopen, Op.Intact, eq_comm]

end Buffers

theorem throw_run_ne {α : Type} {st : Server δ} (e : Fault) (x : α) :
    (throw e : ServerM δ α).run st ≠ (pure x : ServerM δ α).run st := by
  intro h
  cases h

theorem bind_throw_run_ne {α β : Type} {st : Server δ} (f : ServerM δ α) (e : Fault) (x : β) :
    (f >>= fun _ => throw e : ServerM δ β).run st ≠ (pure x : ServerM δ β).run st := by
  intro h
  rw [StateT.run_bind] at h
  cases hf : f.run st with
  | error e' =>
    rw [hf] at h
    cases h
  | ok r =>
    rw [hf] at h
    cases h

theorem path_iff {st : Server δ} {α : Type} (c : Option Path → ServerM δ α)
    (f : Option Str → ServerM δ α) {x : α} (hnone : c none = throw .badAccess)
    (hnull : f none = pure x) (hsome : ∀ path, c (some path) = f (some path.str))
    (path : Option Path) : (c path).run st = (f (path.map Path.str)).run st ↔ path ≠ none := by
  cases path with
  | none =>
    rw [hnone, Option.map_none, hnull]
    simpa using throw_run_ne _ x
  | some path => simp [hsome]

end Rpc

/-! ## A file system without files -/

/-- There are no files; `chmod` stores its mode. -/
def noFiles : FileSystem UInt32 where
  replies _ _ := ⟨none, 0, 0, .unk⟩
  attr _ _ _ := ⟨false, 0, 0, 0, 0, 0, 0⟩
  read _ _ _ := return (0, fun _ => none)
  write _ _ _ _ := return 0
  truncate _ _ := return -1
  sync _ := return 0
  readdir _ _ := return (-1, fun _ => none)
  create _ _ _ := return -1
  remove _ _ _ := return -1
  rename _ _ _ _ _ := return -1
  mkdir _ _ _ := return -1
  rmdir _ _ _ := return -1
  chmod _ mode := do
    modify ({ · with disk := mode })
    return 0
  stack := 0
  rounds := 1

/-- The root directory is open as the descriptor `3`. -/
def rootOpen : Server UInt32 where
  vfs := vfsMount Vfs.empty 1 10 ['/']
  attr _ := ⟨true, 0, 0, 0, 0, 0, 0⟩
  mountFlags _ := 0
  file i := if i = 3 then ⟨some 10, 0, oRdonly⟩ else ⟨none, 0, 0⟩
  disk := 0

theorem vfsRead_one_fits : (Op.vfsRead 4 1 (some 1)).Fits := by
  rw [Op.Fits]
  decide

/-- Reading from a descriptor that is not open clears the buffer of the caller, `vfs_fstat` leaves
the record as it was, and `vfs_fchmod` sets the mode `0`. -/
theorem remote_ne_direct :
    ((remote noFiles 0 (.vfsRead 4 1 (some 1))).run rootOpen = .ok ((0, some 0), rootOpen) ∧
      (direct noFiles (.vfsRead 4 1 (some 1))).run rootOpen = .ok ((0, some 1), rootOpen)) ∧
    ((remote noFiles 0 (.vfsFstat 3 (some 0))).run rootOpen = .ok ((0, some 0), rootOpen) ∧
      ∃ b, (direct noFiles (.vfsFstat 3 (some 0))).run rootOpen = .ok ((0, some b), rootOpen) ∧
        b ≠ 0) ∧
    ((remote noFiles 0 (.vfsFchmod 3 0x1ff)).run rootOpen = .ok (0, rootOpen) ∧
      (direct noFiles (.vfsFchmod 3 0x1ff)).run rootOpen =
        .ok (0, { rootOpen with disk := 0x1ff })) := by
  have h4 : rootOpen.opened 4 = none := by decide
  have h3 : rootOpen.opened 3 = some (3, 10) := by decide
  have hstat : (vfsNodeStat rootOpen 10).1 = 0 := by decide
  refine ⟨⟨?_, ?_⟩, ⟨?_, (vfsNodeStat rootOpen 10).2, ?_, ?_⟩, ?_, ?_⟩
  · have hrun : remote noFiles 0 (.vfsRead 4 1 (some 1)) = _ :=
      Client.run'_vfsRead noFiles vfsRead_one_fits 0
    rw [hrun]
    simp [vfsRead, h4]
    rfl
  · simp [direct, vfsRead, h4]
    rfl
  · have hrun : remote noFiles 0 (.vfsFstat 3 (some 0)) = _ :=
      Client.run'_vfsFstat noFiles 3 (some 0) 0
    rw [hrun]
    simp [vfsFstat, h3, hstat]
    rfl
  · simp [direct, vfsFstat, h3, hstat]
    rfl
  · intro h
    have hbyte := congrFun h ⟨0, by decide⟩
    revert hbyte
    decide
  · have hrun : remote noFiles 0 (.vfsFchmod 3 0x1ff) = _ :=
      Client.run'_vfsFchmod noFiles 3 0x1ff 0
    rw [hrun]
    simp [vfsFchmod, h3, noFiles]
    rfl
  · simp [direct, vfsFchmod, h3, noFiles]
    rfl

section Main

variable {δ : Type} (fs : FileSystem δ)

/-- **A call through the buffer is the direct call** exactly if the operation is intact. -/
theorem remote_eq_direct_iff (st : Server δ) (m : Memory) {α : Type} (op : Op α) (hfit : op.Fits) :
    (remote fs m op).run st = (direct fs op).run st ↔ op.Intact fs st := by
  cases op with
  | vfsOpen path flags mode =>
    exact path_iff (fun path => (Client.vfsOpen fs path flags mode).run' m)
      (fun path => vfsOpen fs path flags mode) (Client.run'_strncpy_none _ _ _ m) rfl
      (fun path => Client.run'_vfsOpen fs path flags mode m) path
  | vfsClose fd =>
    have hrun := Client.run'_fdStub_answer fs .vfsClose (vfsClose fs) (fun _ _ => rfl) fd m
    rw [remote, Op.client, Client.vfsClose, hrun, direct, Op.Intact, iff_true]
  | vfsRead fd len buf =>
    rw [remote, Op.client, Client.run'_vfsRead fs hfit]
    cases buf with
    | none =>
      by_cases h0 : len = 0
      · subst h0
        simp [direct, Op.Intact, vfsRead]
      · simp only [h0, if_false, direct, Op.Intact, iff_false]
        exact bind_throw_run_ne _ _ _
    | some b =>
      rw [direct, Op.Intact, ← vfsRead_zero_iff fs fd len b]
      simp
  | vfsWrite fd len buf =>
    cases buf with
    | none =>
      rw [remote, Op.client, Client.run'_vfsWrite_none fs hfit, direct, Op.Intact]
      by_cases h0 : len = 0
      · simp [h0, vfsWrite]
      · simp only [h0, if_false, forall_const, iff_false]
        exact throw_run_ne _ _
    | some b =>
      rw [remote, Op.client, Client.run'_vfsWrite fs hfit, direct]
      simp [Op.Intact]
  | vfsLseek fd off whence =>
    rw [remote, Op.client, Client.run'_vfsLseek, direct, Op.Intact, iff_true]
  | vfsFsync fd =>
    have hrun := Client.run'_fdStub_answer fs .vfsFsync (vfsFsync fs) (fun _ _ => rfl) fd m
    rw [remote, Op.client, Client.vfsFsync, hrun, direct, Op.Intact, iff_true]
  | vfsFchmod fd mode =>
    rw [remote, Op.client, Client.run'_vfsFchmod, direct, vfsFchmod_iff]
  | vfsFstat fd rec =>
    rw [remote, Op.client, Client.run'_vfsFstat, direct, vfsFstat_iff]
  | vfsOpendir name =>
    exact path_iff (fun path => (Client.vfsOpendir fs path).run' m) (vfsOpendir fs)
      (Client.run'_strncpy_none _ _ _ m) rfl
      (fun path => Client.run'_pathStub fs _ (vfsOpendir fs) (fun _ _ => rfl) path m) name
  | vfsClosedir fd =>
    have hrun := Client.run'_fdStub_answer fs .vfsClosedir (vfsClosedir fs) (fun _ _ => rfl) fd m
    rw [remote, Op.client, Client.vfsClosedir, hrun, direct, Op.Intact, iff_true]
  | vfsReaddir fd dir =>
    rw [remote, Op.client, Client.run'_vfsReaddir]
    cases dir with
    | none =>
      rw [direct, Op.Intact, iff_false]
      exact bind_throw_run_ne _ _ _
    | some b =>
      rw [direct, Op.Intact, ← vfsReaddir_zero_iff fs fd b]
      simp
  | vfsRewinddir fd =>
    have hrun := Client.run'_fdStub_answer fs .vfsRewinddir vfsRewinddir (fun _ _ => rfl) fd m
    rw [remote, Op.client, Client.vfsRewinddir, hrun, direct, Op.Intact, iff_true]
  | vfsMkdir path mode =>
    exact path_iff (fun path => (Client.vfsMkdir fs path mode).run' m)
      (fun path => vfsMkdir fs path mode) (Client.run'_strncpy_none _ _ _ m) rfl
      (fun path => Client.run'_pathModeStub fs _ (vfsMkdir fs) (fun _ _ => rfl) path mode m) path
  | vfsRmdir path =>
    exact path_iff (fun path => (Client.vfsRmdir fs path).run' m) (vfsRmdir fs)
      (Client.run'_strncpy_none _ _ _ m) rfl
      (fun path => Client.run'_pathStub fs _ (vfsRmdir fs) (fun _ _ => rfl) path m) path
  | vfsRename src dst =>
    rw [remote, Op.client, Client.run'_vfsRename, direct, Op.Intact, iff_true]
  | vfsUnlink path =>
    exact path_iff (fun path => (Client.vfsUnlink fs path).run' m) (vfsUnlink fs)
      (Client.run'_strncpy_none _ _ _ m) rfl
      (fun path => Client.run'_pathStub fs _ (vfsUnlink fs) (fun _ _ => rfl) path m) path
  | vfsAccess path mode =>
    exact path_iff (fun path => (Client.vfsAccess fs path mode).run' m)
      (fun path => vfsAccess fs path mode) (Client.run'_strncpy_none _ _ _ m) rfl
      (fun path => Client.run'_pathModeStub fs _ (vfsAccess fs) (fun _ _ => rfl) path mode m) path
  | vfsChmod path mode =>
    exact path_iff (fun path => (Client.vfsChmod fs path mode).run' m)
      (fun path => vfsChmod fs path mode) (Client.run'_strncpy_none _ _ _ m) rfl
      (fun path => Client.run'_pathModeStub fs _ (vfsChmod fs) (fun _ _ => rfl) path mode m) path
  | vfsStat path rec =>
    cases path with
    | none =>
      have hrun : (Client.vfsStat fs none rec).run' m = throw .badAccess :=
        Client.run'_strncpy_none _ _ _ m
      rw [remote, Op.client, hrun, direct]
      simp only [Op.Intact, iff_false]
      exact throw_run_ne _ _
    | some path =>
      rw [remote, Op.client, Client.run'_vfsStat]
      cases rec with
      | none =>
        simp only [direct, Op.Intact, iff_false]
        exact bind_throw_run_ne _ _ _
      | some b =>
        rw [direct, Op.Intact, Option.map, ← vfsStat_zero_iff fs path.str b]
        simp

end Main

/-- A read of one byte fits the buffer. -/
theorem remote_eq_direct_iff_read :
    (Op.vfsRead 4 1 (some 1)).Fits ∧
      ((remote noFiles 0 (.vfsRead 4 1 (some 1))).run rootOpen =
          (direct noFiles (.vfsRead 4 1 (some 1))).run rootOpen ↔
        (Op.vfsRead 4 1 (some 1)).Intact noFiles rootOpen) :=
  ⟨vfsRead_one_fits,
    remote_eq_direct_iff noFiles rootOpen 0 (.vfsRead 4 1 (some 1)) vfsRead_one_fits⟩

end Ginkgo.Fs
