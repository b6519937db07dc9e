import Ginkgo.Mm.Buddy

/-!
# The pool allocator and the kernel heap

The functions of `mm/mem_pool.c` and `mm/kalloc.c`.  A pool cuts pages of the buddy system into
blocks of one size.  The first bytes of such a page are a header that refers to the pool and
counts the free blocks of the page; a free block is linked into the list of its pool through its
own first bytes.

A pool is named by its two indices in the control structure.  A list is the sequence of the
addresses on it, first entry first.  The headers are kept by the address of their page.

-/

namespace Ginkgo.Mm

/-- `MEM_POOL_MIN_SIZE_LOG2`. -/
def memPoolMinSizeLog2 : ℕ := 4

/-- `MEM_POOL_MIN_SIZE`. -/
def memPoolMinSize : ℕ := 16

/-- `MEM_POOL_ALIGN_SIZE_LOG2`. -/
def memPoolAlignSizeLog2 : ℕ := 4

/-- `MEM_POOL_ALIGN_SIZE`. -/
def memPoolAlignSize : ℕ := 16

/-- `MEM_POOL_S_INDEX_COUNT_LOG2`. -/
def memPoolSIndexCountLog2 : ℕ := 2

/-- `MEM_POOL_S_INDEX_COUNT`. -/
def memPoolSIndexCount : ℕ := 4

/-- `MEM_POOL_F_INDEX_COUNT`. -/
def memPoolFIndexCount : ℕ := 8

/-- `MEM_POOL_MAX_SIZE`. -/
def memPoolMaxSize : ℕ := 3584

/-- `sizeof(mem_pool_header_t)`. -/
def sizeofHeader : ℕ := 32

/-- `mem_pool_t`. -/
structure MemPool where
  /-- The addresses of the free blocks. -/
  freeBlock : List ℕ
  /-- The size of a block. -/
  size : ℕ
deriving DecidableEq, Repr

/-- `mem_pool_header_t`. -/
structure MemPoolHeader where
  /-- The pool the page belongs to. -/
  pool : ℕ × ℕ
  /-- The number of free blocks of the page. -/
  freeCount : ℕ
deriving DecidableEq, Repr

/-- `mem_pool_control_t`, with the headers of the pages that the pools have taken. -/
structure MemPoolControl where
  /-- The buddy system. -/
  system : BuddySystem
  /-- The pools that `mem_pool_create` has set up. -/
  pool : ℕ → ℕ → Option MemPool
  /-- The header at the start of a page. -/
  header : ℕ → Option MemPoolHeader

namespace MemPoolControl

/-- The free blocks of a pool. -/
def freeBlock (c : MemPoolControl) (f s : ℕ) : List ℕ :=
  ((c.pool f s).map MemPool.freeBlock).getD []

/-- A pool that is set up. -/
def getPool (c : MemPoolControl) (f s : ℕ) : Except Fault MemPool :=
  match c.pool f s with
  | some pool => .ok pool
  | none => .error .badAccess

/-- The header at the start of a page of a pool. -/
def getHeader (c : MemPoolControl) (page : ℕ) : Except Fault MemPoolHeader :=
  match c.header page with
  | some header => .ok header
  | none => .error .badAccess

/-- Replace the free blocks of a pool. -/
def setFreeBlock (c : MemPoolControl) (f s : ℕ) (blocks : List ℕ) : MemPoolControl :=
  { c with pool := fun i j =>
      if i = f ∧ j = s then (c.pool i j).map fun pool => { pool with freeBlock := blocks }
      else c.pool i j }

/-- Replace the header of a page. -/
def setHeader (c : MemPoolControl) (page : ℕ) (header : MemPoolHeader) : MemPoolControl :=
  { c with header := Function.update c.header page (some header) }

/-- The block is linked into the list of a pool. -/
def Linked (c : MemPoolControl) (block : ℕ) : Prop :=
  ∃ f < memPoolFIndexCount, ∃ s < memPoolSIndexCount, block ∈ c.freeBlock f s

instance (c : MemPoolControl) (block : ℕ) : Decidable (c.Linked block) :=
  inferInstanceAs (Decidable (∃ f < memPoolFIndexCount, ∃ s < memPoolSIndexCount,
    block ∈ c.freeBlock f s))

/-- `list_del(&block->list)`: the block leaves the list it is linked into. -/
def unlink (c : MemPoolControl) (block : ℕ) : MemPoolControl :=
  { c with pool := fun f s =>
      (c.pool f s).map fun pool => { pool with freeBlock := pool.freeBlock.erase block } }

end MemPoolControl

/-! ## Size classes -/

/-- `min(size_log2 - MEM_POOL_ALIGN_SIZE_LOG2, MEM_POOL_S_INDEX_COUNT_LOG2)`. -/
def sizeShift (sizeLog2 : ℤ) : ℤ := min (sizeLog2 - memPoolAlignSizeLog2) memPoolSIndexCountLog2

/-- The size that `mem_pool_create` gives to the pool with indices `i` and `j`. -/
def poolSize (i j : ℕ) : ℕ :=
  let sizeLog2 := i + memPoolMinSizeLog2
  let shift := (sizeShift sizeLog2).toNat
  1 <<< sizeLog2 + 1 <<< (sizeLog2 - shift) * j

/-- The number of pools that `mem_pool_create` sets up for the first index `i`. -/
def sIndexCount (i : ℕ) : ℕ := 1 <<< (sizeShift (i + memPoolMinSizeLog2 : ℕ)).toNat

/-- The pools as the two loops of `mem_pool_create` set them up, independently of each other. -/
def emptyPools (system : BuddySystem) : MemPoolControl where
  system := system
  pool i j := if i < memPoolFIndexCount ∧ j < sIndexCount i then some ⟨[], poolSize i j⟩ else none
  header _ := none

/-- `mem_pool_create`. -/
def memPoolCreate (system : BuddySystem) : Except Fault MemPoolControl := do
  kassert (∀ i < memPoolFIndexCount, ∀ j < sIndexCount i,
    poolSize i j &&& (memPoolAlignSize - 1) = 0)
  return emptyPools system

/-- `adjust_request_size`. -/
def adjustRequestSize (size : ℕ) : Except Fault ℕ := do
  let size := if size < memPoolMinSize then memPoolMinSize else size
  let sizeLog2 := buddyFlsSizet size
  let shift := sizeShift sizeLog2
  alignUp size (1 <<< (sizeLog2 - shift).toNat)

/-! ## Pages -/

/-- `mem_pool_alloc_page`: take a page for a pool and link its blocks. -/
def memPoolAllocPage (c : MemPoolControl) (f s : ℕ) : Except Fault (Bool × MemPoolControl) := do
  let pool ← c.getPool f s
  let (ptr, system) ← buddyAllocPage c.system 1
  let c := { c with system := system }
  match ptr with
  | none => return (false, c)
  | some ptr =>
    access (pool.size ≠ 0)
    let freeCount := (pageSize - sizeofHeader) / pool.size
    let blockStart := ptr + sizeofHeader
    let blocks := (List.range freeCount).map fun k => blockStart + pool.size * k
    return (true, (c.setHeader ptr ⟨(f, s), freeCount⟩).setFreeBlock f s (pool.freeBlock ++ blocks))

/-- `mem_pool_free_page`. -/
def memPoolFreePage (c : MemPoolControl) (page : ℕ) : Except Fault MemPoolControl := do
  let header ← c.getHeader page
  if header.freeCount ≠ 0 then return c
  else
    let system ← buddyFreePage c.system page
    return { c with system := system, header := Function.update c.header page none }

/-! ## Blocks -/

/-- `mem_pool_locate_free`: the last free block of the pool for blocks of a size, from a new page
if there is none. -/
def memPoolLocateFree (c : MemPoolControl) (size : ℕ) :
    Except Fault (Option ℕ × MemPoolControl) := do
  kassert (size ≠ 0)
  let sizeLog2 := buddyFlsSizet size
  let shift := sizeShift sizeLog2
  access (0 ≤ shift)
  let fIndex := (sizeLog2 - memPoolMinSizeLog2).toNat
  let sIndex := (size >>> (sizeLog2 - shift).toNat) &&& (1 <<< shift.toNat - 1)
  let pool ← c.getPool fIndex sIndex
  let (ok, c) ← if pool.freeBlock = [] then memPoolAllocPage c fIndex sIndex else pure (true, c)
  if ok then
    match (c.freeBlock fIndex sIndex).getLast? with
    | some block => return (some block, c)
    | none => throw .badAccess
  else return (none, c)

/-- `header_from_block`. -/
def headerFromBlock (block : ℕ) : Except Fault ℕ := do
  kassert (block &&& (pageSize - 1) ≠ 0)
  alignDown block pageSize

/-- `mem_pool_add_block`. -/
def memPoolAddBlock (c : MemPoolControl) (block : ℕ) : Except Fault MemPoolControl := do
  kassert (block ≠ 0)
  let page ← headerFromBlock block
  let header ← c.getHeader page
  let pool ← c.getPool header.pool.1 header.pool.2
  let c := c.setFreeBlock header.pool.1 header.pool.2 (pool.freeBlock ++ [block])
  let freeCount := wrap64 (header.freeCount + 1)
  kassert (freeCount < pageSize / memPoolAlignSize)
  return c.setHeader page { header with freeCount := freeCount }

/-- `mem_pool_del_block`. -/
def memPoolDelBlock (c : MemPoolControl) (block : ℕ) : Except Fault MemPoolControl := do
  kassert (block ≠ 0)
  access (c.Linked block)
  let c := c.unlink block
  let page ← headerFromBlock block
  let header ← c.getHeader page
  let freeCount := sub64 header.freeCount 1
  kassert (freeCount < pageSize / memPoolAlignSize)
  return c.setHeader page { header with freeCount := freeCount }

/-- `mem_pool_prepare_used`. -/
def memPoolPrepareUsed (c : MemPoolControl) (block : ℕ) : Except Fault (ℕ × MemPoolControl) := do
  let c ← memPoolDelBlock c block
  return (block, c)

/-- `mem_pool_recycle`. -/
def memPoolRecycle (c : MemPoolControl) (block : ℕ) : Except Fault MemPoolControl := do
  let c ← memPoolAddBlock c block
  let page ← headerFromBlock block
  let header ← c.getHeader page
  if header.freeCount = 0 then memPoolFreePage c page else return c

/-- `mem_pool_alloc`. -/
def memPoolAlloc (c : MemPoolControl) (size : ℕ) : Except Fault (Option ℕ × MemPoolControl) := do
  if size = 0 ∨ memPoolMaxSize < size then return (none, c)
  else
    let adjust ← adjustRequestSize size
    let (block, c) ← memPoolLocateFree c adjust
    match block with
    | none => return (none, c)
    | some block =>
      kassert (block &&& (memPoolAlignSize - 1) = 0)
      let (ptr, c) ← memPoolPrepareUsed c block
      return (some ptr, c)

/-- `mem_pool_free`. -/
def memPoolFree (c : MemPoolControl) (ptr : ℕ) : Except Fault MemPoolControl := do
  kassert (ptr ≠ 0)
  memPoolRecycle c ptr

/-! ## The kernel heap -/

/-- `alloc_page`. -/
def allocPage (c : MemPoolControl) (count : ℕ) : Except Fault (Option ℕ × MemPoolControl) := do
  let (ptr, system) ← buddyAllocPage c.system count
  return (ptr, { c with system := system })

/-- `free_page`. -/
def freePage (c : MemPoolControl) (ptr : ℕ) : Except Fault MemPoolControl := do
  let system ← buddyFreePage c.system ptr
  return { c with system := system }

/-- `malloc`. -/
def malloc (c : MemPoolControl) (size : ℕ) : Except Fault (Option ℕ × MemPoolControl) := do
  if memPoolMaxSize < size then
    let bytes ← alignUp size pageSize
    allocPage c (bytes >>> pageShift)
  else memPoolAlloc c size

/-- `free`. -/
def free (c : MemPoolControl) (ptr : ℕ) : Except Fault MemPoolControl :=
  if ptr &&& (pageSize - 1) = 0 then freePage c ptr else memPoolFree c ptr

/-- A heap in a piece of memory whose page map held `old`. -/
def heapCreate (mem size : ℕ) (old : ℕ → Page) : Except Fault MemPoolControl := do
  let system ← buddyCreate mem size old
  memPoolCreate system

/-- `KERNBASE`. -/
def kernbase : ℕ := 0x80000000

/-- `PHYSTOP`. -/
def phystop : ℕ := kernbase + 128 * 1024 * 1024

/-- `do_mem_init`, for a kernel image that ends at `kend`. -/
def doMemInit (kend : ℕ) (old : ℕ → Page) : Except Fault MemPoolControl :=
  heapCreate kend (phystop - kend) old

end Ginkgo.Mm
