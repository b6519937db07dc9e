import Ginkgo.Mm.BuddyCommon
import Mathlib.Logic.Function.Basic

/-!
# The buddy system of `mm/buddy.c`

The page allocator.  A page is identified by its page frame number, the index of its `page_t` in
`system->map`, so the pointer arithmetic of the source on `page_t *` is arithmetic on page frame
numbers.  A list `page_buddy[order]` is the list of the page frame numbers linked into it, from
`next` of the head on: `list_add_tail` appends, `list_last_entry` is the last element and
`list_del` erases.  Unlinking a page that is not linked, reading the last entry of an empty list
and indexing past `MAX_ORDER` are undefined in C and fail here with `Fault.badAccess`.

The memory that `buddy_create` receives holds arbitrary values.  The source initialises the
`order` of every page but its flags only when the page becomes the head of a block, so the old
contents of the page map are a parameter of `buddyCreate`.

-/

namespace Ginkgo.Mm

/-- `MAX_ORDER`. -/
def maxOrder : ℕ := 20

/-- `PAGE_SHIFT`. -/
def pageShift : ℕ := 12

/-- `PAGE_SIZE`. -/
def pageSize : ℕ := 4096

/-- `PAGE_MASK`. -/
def pageMask : ℕ := 4095

/-- `INVALID_ORDER`, as stored in the `u32_t` field `order`. -/
def invalidOrder : ℕ := 2 ^ 32 - 1

/-- `sizeof(buddy_system_t)`. -/
def sizeofBuddySystem : ℕ := 528

/-- `sizeof(page_t)`. -/
def sizeofPage : ℕ := 24

/-- `page_t` without its list node. -/
structure Page where
  /-- The flag word; `is_free` is its lowest bit. -/
  u32Flags : ℕ
  /-- The order of the block the page is the head of. -/
  order : ℕ
deriving DecidableEq, Repr

/-- The flag `is_free`. -/
def Page.isFree (p : Page) : Bool := p.u32Flags.testBit 0

/-- `buddy_system_t`. -/
structure BuddySystem where
  /-- The free blocks of each order, by the page frame number of the head. -/
  pageBuddy : ℕ → List ℕ
  /-- The number of free blocks of each order. -/
  count : ℕ → ℕ
  /-- The orders that have a free block. -/
  bitmap : ℕ
  /-- The address of page `0`. -/
  pageStart : ℕ
  /-- The largest page frame number. -/
  maxPfn : ℕ
  /-- The page map. -/
  map : ℕ → Page

namespace BuddySystem

/-- `page->order = order`. -/
def setOrder (s : BuddySystem) (pfn order : ℕ) : BuddySystem :=
  { s with map := Function.update s.map pfn { s.map pfn with order := order } }

/-- The writes of `buddy_add_page` for a block of order `order`. -/
def link (s : BuddySystem) (pfn order : ℕ) : BuddySystem :=
  { s with
    map := Function.update s.map pfn { s.map pfn with u32Flags := 1 }
    pageBuddy := Function.update s.pageBuddy order (s.pageBuddy order ++ [pfn])
    bitmap := s.bitmap ||| 1 <<< order
    count := Function.update s.count order (wrap64 (s.count order + 1)) }

/-- The writes of `buddy_del_page` for a block of order `order`. -/
def unlink (s : BuddySystem) (pfn order : ℕ) : BuddySystem :=
  let list := (s.pageBuddy order).erase pfn
  { s with
    map := Function.update s.map pfn { s.map pfn with u32Flags := 0 }
    pageBuddy := Function.update s.pageBuddy order list
    bitmap := if list = [] then s.bitmap &&& not64 (1 <<< order) else s.bitmap
    count := Function.update s.count order (sub64 (s.count order) 1) }

end BuddySystem

/-- `buddy_add_page`: link a block into the list of its order. -/
def buddyAddPage (s : BuddySystem) (pfn : ℕ) : Except Fault BuddySystem := do
  let order := (s.map pfn).order
  access (order ≤ maxOrder)
  return s.link pfn order

/-- `buddy_del_page`: unlink a block from the list of its order. -/
def buddyDelPage (s : BuddySystem) (pfn : ℕ) : Except Fault BuddySystem := do
  let order := (s.map pfn).order
  access (order ≤ maxOrder ∧ pfn ∈ s.pageBuddy order)
  return s.unlink pfn order

/-- `page_to_ptr`. -/
def pageToPtr (s : BuddySystem) (pfn : ℕ) : ℕ := wrap64 (s.pageStart + pfn * pageSize)

/-- `page_from_ptr`. -/
def pageFromPtr (s : BuddySystem) (ptr : ℕ) : Except Fault ℕ := do
  kassert (ptr % pageSize = 0)
  return sub64 ptr s.pageStart / pageSize

/-- `pfn_valid`. -/
def pfnValid (s : BuddySystem) (pfn : ℕ) : Prop := pfn ≤ s.maxPfn

instance (s : BuddySystem) (pfn : ℕ) : Decidable (pfnValid s pfn) :=
  inferInstanceAs (Decidable (pfn ≤ s.maxPfn))

/-! ## Creation -/

/-- `buddy_new`, in memory whose page map holds `old`. -/
def buddyNew (old : ℕ → Page) : BuddySystem where
  pageBuddy _ := []
  count _ := 0
  bitmap := 0
  pageStart := 0
  maxPfn := 0
  map := old

/-- The address arithmetic of `buddy_create`: the address of page `0` and the number of pages
left behind the system record and the page map. -/
def buddyLayout (mem size : ℕ) : Except Fault (ℕ × ℕ) := do
  kassert (mem ≠ 0 ∧ size ≠ 0)
  -- Alloc buddy_system_t
  let mem := wrap64 (mem + sizeofBuddySystem)
  let size := sub64 size sizeofBuddySystem
  let pageCount := size >>> pageShift
  -- Alloc page map
  let mapSize ← alignUp (wrap64 (pageCount * sizeofPage)) pageSize
  let mem := wrap64 (mem + mapSize)
  let size := sub64 size mapSize
  -- Alloc page
  let aligned ← alignPtr mem pageSize
  let memDiff := sub64 aligned mem
  let mem := wrap64 (mem + memDiff)
  let size := sub64 size memDiff
  kassert (mem &&& pageMask = 0)
  return (mem, size >>> pageShift)

/-- The loop of `buddy_create` that frees the largest blocks that fit, from page `i` on with
`count` pages left.  Each iteration uses up at least one page, so `fuel ≥ count` iterations are
never exhausted. -/
def buddyCreateLoop : ℕ → BuddySystem → ℕ → ℕ → Except Fault BuddySystem
  | 0, s, _, _ => .ok s
  | fuel + 1, s, i, count =>
    if count = 0 then .ok s
    else do
      let order := buddyFlsSizet count
      kassert (0 ≤ order)
      let order := if (maxOrder : ℤ) < order then maxOrder else order.toNat
      let s ← buddyAddPage (s.setOrder i order) i
      buddyCreateLoop fuel s (i + 1 <<< order) (count - 1 <<< order)

/-- `buddy_create`, in memory whose page map holds `old`. -/
def buddyCreate (mem size : ℕ) (old : ℕ → Page) : Except Fault BuddySystem := do
  let (pageStart, pageCount) ← buddyLayout mem size
  let s : BuddySystem := { buddyNew old with
    pageStart := pageStart
    maxPfn := sub64 pageCount 1
    map := fun i => if i < pageCount then { old i with order := invalidOrder } else old i }
  buddyCreateLoop pageCount s 0 pageCount

/-! ## Allocation -/

/-- `list_last_entry(&system->page_buddy[order], page_t, list)`. -/
def lastEntry (s : BuddySystem) (order : ℕ) : Except Fault ℕ := do
  access (order ≤ maxOrder)
  match (s.pageBuddy order).getLast? with
  | some pfn => return pfn
  | none => throw .badAccess

/-- `buddy_locate_free`: a free block of the order, or of the smallest larger order that has
one. -/
def buddyLocateFree (s : BuddySystem) (order : ℤ) : Except Fault (Option ℕ) := do
  kassert (0 ≤ order)
  let order := order.toNat
  access (order ≤ maxOrder)
  kassert (s.pageBuddy order = [] ↔ s.count order = 0)
  if s.pageBuddy order = [] then
    let bitmap := s.bitmap &&& wrap64 (not64 0 <<< order)
    if bitmap = 0 then return none
    else
      let order := buddyFfsSizet bitmap
      kassert (0 ≤ order)
      return some (← lastEntry s order.toNat)
  else return some (← lastEntry s order)

/-- The loop of `page_split`, with `n = i - order` halvings left. -/
def pageSplitLoop (pfn order : ℕ) : ℕ → BuddySystem → Except Fault BuddySystem
  | 0, s => .ok s
  | n + 1, s => do
    let new := order + n
    let buddy := pfn + 1 <<< new
    let s ← buddyAddPage (s.setOrder buddy new) buddy
    pageSplitLoop pfn order n s

/-- `page_split`. -/
def pageSplit (s : BuddySystem) (pfn order : ℕ) : Except Fault BuddySystem := do
  let s ← pageSplitLoop pfn order ((s.map pfn).order - order) s
  return s.setOrder pfn order

/-- `page_prepare_used`. -/
def pagePrepareUsed (s : BuddySystem) (pfn order : ℕ) : Except Fault (ℕ × BuddySystem) := do
  let s ← buddyDelPage s pfn
  let s ← if order < (s.map pfn).order then pageSplit s pfn order else pure s
  return (pageToPtr s pfn, s)

/-- `buddy_alloc_page`: the address of a block of at least `count` pages, or `NULL`. -/
def buddyAllocPage (s : BuddySystem) (count : ℕ) : Except Fault (Option ℕ × BuddySystem) := do
  kassert (count ≠ 0)
  let order := buddyFlsSizet (wrap64 (count + sub64 (1 <<< (buddyFlsSizet count).toNat) 1))
  match ← buddyLocateFree s order with
  | none => return (none, s)
  | some pfn =>
    let (ptr, s) ← pagePrepareUsed s pfn order.toNat
    return (some ptr, s)

/-! ## Release -/

/-- The loop of `page_merge`, with `n` values of `order` up to `MAX_ORDER` left: merge with the
buddy as long as it is a free block of the same order. -/
def pageMergeLoop : ℕ → BuddySystem → ℕ → ℕ → Except Fault (BuddySystem × ℕ × ℕ)
  | 0, s, pfn, order => .ok (s, pfn, order)
  | n + 1, s, pfn, order =>
    let buddyPfn := pfn ^^^ 1 <<< order
    if ¬ pfnValid s buddyPfn then .ok (s, pfn, order)
    else if (s.map buddyPfn).order ≠ order then .ok (s, pfn, order)
    else if (s.map buddyPfn).isFree = false then .ok (s, pfn, order)
    else do
      let s ← buddyDelPage s buddyPfn
      let privatePfn := buddyPfn ||| pfn
      let combinedPfn := buddyPfn &&& pfn
      pageMergeLoop n (s.setOrder privatePfn invalidOrder) combinedPfn (order + 1)

/-- `page_merge`.  The shift by an `order` that is negative as an `int` is undefined. -/
def pageMerge (s : BuddySystem) (pfn : ℕ) : Except Fault (BuddySystem × ℕ) := do
  let order := (s.map pfn).order
  access (order < 2 ^ 31)
  let (s, pfn, order) ← pageMergeLoop (maxOrder + 1 - order) s pfn order
  return (s.setOrder pfn order, pfn)

/-- `buddy_free_page`. -/
def buddyFreePage (s : BuddySystem) (ptr : ℕ) : Except Fault BuddySystem := do
  kassert (ptr ≠ 0)
  let pfn ← pageFromPtr s ptr
  if (s.map pfn).isFree then
    return s -- Double free!
  else
    let (s, pfn) ← pageMerge s pfn
    buddyAddPage s pfn

end Ginkgo.Mm
