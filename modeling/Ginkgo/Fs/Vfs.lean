import Ginkgo.Machine
import Mathlib.Logic.Function.Basic

/-!
# The node cache of the virtual file system

The functions of `fs/vfs.c` that look up, create, reference and free the nodes of the mounted file
systems; the server in `user-test/vfs_server/vfs.c` has the same functions.  A node is cached in
a hash table under its mount and its path in that mount, and `vfs_node_acquire` takes a reference
to the node of every prefix of a path.

The calls of a file system and of the allocator are not modelled, only what they answer.  The
counters are integers without a bound.  What the source does with a `NULL` path is left out.

-/

namespace Ginkgo.Fs

open Function (update)

/-- A string of the source, without the terminating zero. -/
abbrev Str := List Char

/-- `VFS_MAX_PATH`. -/
def vfsMaxPath : ℕ := 1024

/-- `VFS_MAX_NAME`. -/
def vfsMaxName : ℕ := 256

/-- `VFS_NODE_HASH_SIZE`. -/
def vfsNodeHashSize : ℕ := 256

/-- `enum vfs_node_type_t`. -/
inductive NodeType
  | unk | dir | chr | blk | reg | lnk | fifo | sock
deriving DecidableEq

/-- `struct vfs_node_t`, as far as the cache is concerned. -/
structure VNode where
  /-- `v_mount`. -/
  mount : ℕ
  /-- `v_path`. -/
  path : Str
  /-- `v_refcnt`. -/
  refcnt : ℤ
  /-- `v_type`. -/
  type : NodeType
deriving DecidableEq

/-- `struct vfs_mount_t`, as far as the cache is concerned. -/
structure Mount where
  /-- `m_path`. -/
  path : Str
  /-- `m_refcnt`. -/
  refcnt : ℤ
  /-- `m_root`. -/
  root : Option ℕ
deriving DecidableEq

/-- The mounts and the nodes, by their addresses. -/
structure Vfs where
  /-- `mnt_list`. -/
  mntList : List ℕ
  /-- The mounts. -/
  mount : ℕ → Mount
  /-- `node_list`. -/
  nodeList : ℕ → List ℕ
  /-- The nodes. -/
  node : ℕ → VNode

namespace Vfs

/-- Set `v_refcnt`. -/
def setRefcnt (s : Vfs) (n : ℕ) (c : ℤ) : Vfs :=
  { s with node := update s.node n { s.node n with refcnt := c } }

/-- Set `v_type`. -/
def setType (s : Vfs) (n : ℕ) (type : NodeType) : Vfs :=
  { s with node := update s.node n { s.node n with type := type } }

/-- Add to `m_refcnt`. -/
def addMountRef (s : Vfs) (m : ℕ) (d : ℤ) : Vfs :=
  let mount := { s.mount m with refcnt := (s.mount m).refcnt + d }
  { s with mount := update s.mount m mount }

end Vfs

/-! ## Paths -/

/-- The loop of `count_match`: the number of equal characters, and what is left of the strings. -/
def countMatchLoop : Str → Str → ℕ → ℕ × Str × Str
  | c :: path, d :: root, len =>
    if c ≠ d then (len, c :: path, d :: root) else countMatchLoop path root (len + 1)
  | path, root, len => (len, path, root)

/-- `count_match`. -/
def countMatch (path mountRoot : Str) : ℕ :=
  let (len, path', root') := countMatchLoop path mountRoot 0
  if root' ≠ [] then 0
  else if len = 1 ∧ path.head? = some '/' then 1
  else if path' = [] ∨ path'.head? = some '/' then len
  else 0

/-- The loop of `vfs_findroot` over the mounts. -/
def vfsFindrootLoop (s : Vfs) (path : Str) : List ℕ → ℕ → Option ℕ → ℕ × Option ℕ
  | [], maxLen, m => (maxLen, m)
  | pos :: rest, maxLen, m =>
    let len := countMatch path (s.mount pos).path
    if maxLen < len then vfsFindrootLoop s path rest len (some pos)
    else vfsFindrootLoop s path rest maxLen m

/-- `vfs_findroot`: the mount of a path, and the rest of the path. -/
def vfsFindroot (s : Vfs) (path : Str) : Option (ℕ × Str) :=
  match vfsFindrootLoop s path s.mntList 0 none with
  | (_, none) => none
  | (maxLen, some m) => some (m, (path.drop maxLen).dropWhile (· = '/'))

/-- The components of a path, as the loop of `vfs_node_acquire` finds them.  The flag says whether
the component is followed by a `/`. -/
def components : Str → List (Str × Bool)
  | [] => []
  | c :: p =>
    if c = '/' then components p
    else
      match p with
      | [] => [([c], false)]
      | d :: _ =>
        if d = '/' then ([c], true) :: components p
        else
          match components p with
          | (name, slash) :: rest => (c :: name, slash) :: rest
          | [] => [([c], false)]

/-- The non-empty prefixes of a path that end before a `/`, from left to right. -/
def slashPrefixes (pre : Str) : Str → List Str
  | [] => []
  | c :: p =>
    if c = '/' ∧ pre ≠ [] then pre :: slashPrefixes (pre ++ [c]) p
    else slashPrefixes (pre ++ [c]) p

/-! ## Nodes -/

/-- `vfs_node_hash`. -/
def vfsNodeHash (m : ℕ) (path : Str) : ℕ :=
  let val := path.foldl (fun val c => ((val <<< 5) + val + c.toNat) % 2 ^ 32) 0
  (val ^^^ (m % 2 ^ 32)) &&& (vfsNodeHashSize - 1)

/-- What the allocator and the file system answer when a node is created. -/
structure FsReply where
  /-- The result of `calloc`. -/
  addr : Option ℕ
  /-- The result of `vget`. -/
  vget : ℤ
  /-- The result of `lookup`. -/
  lookup : ℤ
  /-- The type that `lookup` gives to the node. -/
  type : NodeType

/-- `vfs_node_get`. -/
def vfsNodeGet (r : FsReply) (s : Vfs) (m : ℕ) (path : Str) : Option ℕ × Vfs :=
  match r.addr with
  | none => (none, s)
  | some n =>
    if vfsMaxPath ≤ path.length then (none, s)
    else if r.vget ≠ 0 then (none, s)
    else
      let s := { s with node := update s.node n ⟨m, path, 1, .unk⟩ }
      let s := s.addMountRef m 1
      let hash := vfsNodeHash m path
      (some n, { s with nodeList := update s.nodeList hash (n :: s.nodeList hash) })

/-- `vfs_node_ref`. -/
def vfsNodeRef (s : Vfs) (n : ℕ) : Vfs := s.setRefcnt n ((s.node n).refcnt + 1)

/-- `vfs_node_lookup`. -/
def vfsNodeLookup (s : Vfs) (m : ℕ) (path : Str) : Option ℕ × Vfs :=
  match (s.nodeList (vfsNodeHash m path)).find?
      (fun n => (s.node n).mount = m ∧ (s.node n).path = path) with
  | none => (none, s)
  | some n => (some n, vfsNodeRef s n)

/-- `vfs_node_put`. -/
def vfsNodePut (s : Vfs) (n : ℕ) : Vfs :=
  let c := (s.node n).refcnt - 1
  let s := s.setRefcnt n c
  if c ≠ 0 then s
  else
    let hash := vfsNodeHash (s.node n).mount (s.node n).path
    let s := { s with nodeList := update s.nodeList hash ((s.nodeList hash).erase n) }
    s.addMountRef (s.node n).mount (-1)

/-- The loop of `vfs_node_release` over the prefixes of the path. -/
def vfsNodeReleaseLoop (m : ℕ) : Vfs → List Str → Vfs
  | s, [] => s
  | s, path :: rest =>
    match vfsNodeLookup s m path with
    | (none, s) => vfsNodeReleaseLoop m s rest
    | (some n, s) => vfsNodeReleaseLoop m (vfsNodePut (vfsNodePut s n) n) rest

/-- `vfs_node_release`. -/
def vfsNodeRelease (s : Vfs) (n : ℕ) : Except Fault Vfs :=
  let m := (s.node n).mount
  if (s.mount m).root = some n then .ok (vfsNodePut s n)
  else
    let path := (s.node n).path
    if vfsMaxPath ≤ path.length then .ok s
    else
      let s := vfsNodePut s n
      let s := vfsNodeReleaseLoop m s (slashPrefixes [] path).reverse
      match (s.mount m).root with
      | none => .error .badAccess
      | some root => .ok (vfsNodePut s root)

/-- The loop of `vfs_node_acquire` over the components of the path.  The buffer of the source has
room for `VFS_MAX_PATH` characters; the last index that is written for a component is that of the
zero behind it, before it is looked up.  The last component of the result is what was stored in
`*np`. -/
def vfsNodeAcquireLoop (replies : Str → FsReply) (m : ℕ) :
    Vfs → ℕ → Str → List (Str × Bool) → Except Fault (Vfs × ℤ × Option ℕ)
  | s, dn, _, [] => .ok (s, 0, some dn)
  | s, dn, node, (name, slash) :: rest =>
    let node := node ++ '/' :: name
    if vfsMaxPath ≤ node.length then .error .overrun
    else
      match vfsNodeLookup s m node with
      | (some n, s) => vfsNodeAcquireLoop replies m s n node rest
      | (none, s) =>
        match vfsNodeGet (replies node) s m node with
        | (none, s) => .ok (vfsNodePut s dn, -1, none)
        | (some n, s) =>
          let s := s.setType n (replies node).type
          let err := (replies node).lookup
          if err ≠ 0 ∨ (slash = true ∧ (s.node n).type ≠ .dir) then do
            let s ← vfsNodeRelease s n
            return (s, err, none)
          else vfsNodeAcquireLoop replies m s n node rest

/-- `vfs_node_acquire`. -/
def vfsNodeAcquire (replies : Str → FsReply) (s : Vfs) (path : Str) :
    Except Fault (Vfs × ℤ × Option ℕ) :=
  match vfsFindroot s path with
  | none => .ok (s, -1, none)
  | some (m, p) =>
    match (s.mount m).root with
    | none => .ok (s, -1, none)
    | some root => vfsNodeAcquireLoop replies m (vfsNodeRef s root) root [] (components p)

/-- The path of the root of a mount. -/
def rootPath : Str := ['/']

/-- `vfs_mount`, as far as the cache is concerned: the new mount `m` for the directory `dir` with
its root `r`, after the covered directory was acquired, and if the file system can be mounted. -/
def vfsMount (s : Vfs) (m r : ℕ) (dir : Str) : Vfs :=
  let s := { s with mount := update s.mount m ⟨dir, 0, none⟩ }
  let (_, s) := vfsNodeGet ⟨some r, 0, 0, .dir⟩ s m rootPath
  let s := s.setType r .dir
  let s := { s with mount := update s.mount m { s.mount m with root := some r } }
  { s with mntList := m :: s.mntList }

/-- No mounts and no nodes. -/
def Vfs.empty : Vfs :=
  { mntList := []
    mount := fun _ => ⟨[], 0, none⟩
    nodeList := fun _ => []
    node := fun _ => ⟨0, [], 0, .unk⟩ }

end Ginkgo.Fs
