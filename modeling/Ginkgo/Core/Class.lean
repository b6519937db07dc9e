import Ginkgo.Lib.Layout
import Ginkgo.Lib.ParentTree
import Ginkgo.Machine

/-!
# Classes and dynamic casts

The model of `class.c`.  An object of a class is one block of memory that holds a subobject for
every class of the inheritance chain, from `object_t` to the class itself.  Before each subobject
stands a header with its class and with the class of the next subobject; the last one names itself
twice.  A cast goes to the end of the block and back, with the sizes of the class table.

## Main results

* `ClassTable.objectInit_headers` — what `object_init` leaves in the headers.
* `ClassTable.castDown_spec`, `ClassTable.castUp_spec` — the two loops of a
  cast.
* `ClassTable.classCast_exact` — a cast finds the subobject of every class of the chain,
  and no other.
-/

namespace Ginkgo.Core

open Layout

/-- `type_index`. -/
abbrev TypeIndex := UInt32

/-- The class table.  The parents lead to `object_t`. -/
structure ClassTable extends ParentTree TypeIndex where
  /-- `size`, an `unsigned int`. -/
  size : TypeIndex → ℕ
  /-- The initial object. -/
  initObj : ∀ c, Bytes (size c)
  /-- The constructor, called with the address of the subobject. -/
  construct : TypeIndex → ℕ → Memory → Memory

/-- `sizeof(struct class_head_info)`. -/
def headSize : ℕ := 8

/-- `info->type`. -/
def headType : Slot TypeIndex := .u32 0

/-- `info->child`. -/
def headChild : Slot TypeIndex := .u32 4

namespace ClassTable

variable (table : ClassTable)

/-- `set_class_table_info`: the `full_size` of a class, an `unsigned int`. -/
def setClassTableInfo (c : TypeIndex) : Except Fault ℕ :=
  if _h : c = table.root then return (0 + headSize + table.size c) % 2 ^ 32
  else if table.parent c = c then .error .panic
  else do
    let size ← setClassTableInfo (table.parent c)
    return (size + headSize + table.size c) % 2 ^ 32
termination_by table.depth c
decreasing_by
  have := table.depth_parent _h
  omega

/-- The field `full_size` after `do_class_init`. -/
def fullSize (c : TypeIndex) : ℕ :=
  match table.setClassTableInfo c with
  | .ok size => size
  | .error _ => 0

/-- `object_init`. -/
def objectInit (type child : TypeIndex) (obj : ℕ) (m : Memory) : Memory :=
  let info := obj - headSize
  let m := headType.put info type m
  let m := headChild.put info child m
  if _h : type = table.root then m
  else
    let m := objectInit (table.parent type) type (info - table.size (table.parent type)) m
    let m := store m obj (table.initObj type)
    table.construct type obj m
termination_by table.depth type
decreasing_by
  have := table.depth_parent _h
  omega

/-- `new_class_object`, with the block at `base` that `calloc` returns. -/
def newClassObject (type : TypeIndex) (base : ℕ) (m : Memory) : ℕ × Memory :=
  let m := store m base (0 : Bytes (table.fullSize type))
  let obj := base + table.fullSize type - table.size type
  (obj, table.objectInit type type obj m)

/-- The first loop of `class_cast`, towards the end of the block: the subobject that it has found,
or the last one.  It is given a number of iterations. -/
def castDown (m : Memory) (type : TypeIndex) : ℕ → ℕ → Option (Bool × ℕ)
  | 0, _ => none
  | fuel + 1, obj =>
    let info := obj - headSize
    if headType.get info m = type then some (true, obj)
    else if headType.get info m = headChild.get info m then some (false, obj)
    else castDown m type fuel (obj + table.size (headType.get info m) + headSize)

/-- The second loop of `class_cast`, towards the beginning of the block. -/
def castUp (m : Memory) (type : TypeIndex) : ℕ → ℕ → Option (Option ℕ)
  | 0, _ => none
  | fuel + 1, obj =>
    let info := obj - headSize
    if headType.get info m = type then some (some obj)
    else if headType.get info m = table.root then some none
    else castUp m type fuel (info - table.size (table.parent (headType.get info m)))

/-- `class_cast`; the result is `none` if the loops need more iterations. -/
def classCast (fuel : ℕ) (m : Memory) (type : TypeIndex) (obj : ℕ) : Option (Option ℕ) :=
  if obj = 0 then some none
  else
    match table.castDown m type fuel obj with
    | none => none
    | some (true, obj) => some (some obj)
    | some (false, obj) => table.castUp m type fuel obj

/-! ## Layout of a block -/

/-- The bytes of the subobjects of a class and of its ancestors, with their headers. -/
def blockSize (c : TypeIndex) : ℕ :=
  if _h : c = table.root then headSize + table.size c
  else blockSize (table.parent c) + headSize + table.size c
termination_by table.depth c
decreasing_by
  have := table.depth_parent _h
  omega

/-- The address of the subobject of class `c` in the block at `base`. -/
def subobject (base : ℕ) (c : TypeIndex) : ℕ := base + table.blockSize c - table.size c

variable {table} {T A B c child : TypeIndex} {base x fuel : ℕ} {m m' : Memory}

theorem blockSize_root : table.blockSize table.root = headSize + table.size table.root := by
  rw [blockSize, dif_pos rfl]

theorem blockSize_of_ne (h : c ≠ table.root) :
    table.blockSize c = table.blockSize (table.parent c) + headSize + table.size c := by
  rw [blockSize, dif_neg h]

theorem le_blockSize (table : ClassTable) (c : TypeIndex) :
    headSize + table.size c ≤ table.blockSize c := by
  rw [blockSize]
  split_ifs <;> omega

theorem blockSize_le (h : A ∈ table.chain c) : table.blockSize A ≤ table.blockSize c := by
  induction c using table.induction with
  | hroot =>
    rw [table.chain_root] at h
    rw [List.mem_singleton.mp h]
  | hstep c hroot ih =>
    by_cases hne : A = c
    · rw [hne]
    · have hle := ih (table.mem_chain_parent h hne).2
      rw [blockSize_of_ne hroot]
      omega

theorem setClassTableInfo_eq (table : ClassTable) (c : TypeIndex) :
    table.setClassTableInfo c = .ok (table.blockSize c % 2 ^ 32) := by
  induction c using table.induction with
  | hroot =>
    rw [blockSize_root, setClassTableInfo, dif_pos rfl, Nat.zero_add]
    rfl
  | hstep c hroot ih =>
    have hself : table.parent c ≠ c := by
      intro heq
      exact table.not_mem_chain_parent hroot (by rw [heq]; exact table.mem_chain_self c)
    rw [blockSize_of_ne hroot, setClassTableInfo, dif_neg hroot, if_neg hself, ih,
      Fallible.ok_bind]
    exact congrArg Except.ok (by omega)

theorem fullSize_eq_mod (table : ClassTable) (c : TypeIndex) :
    table.fullSize c = table.blockSize c % 2 ^ 32 := by
  rw [fullSize, setClassTableInfo_eq]

theorem fullSize_eq (hfit : table.blockSize c < 2 ^ 32) : table.fullSize c = table.blockSize c := by
  rw [fullSize_eq_mod, Nat.mod_eq_of_lt hfit]

theorem subobject_add_size (table : ClassTable) (base : ℕ) (c : TypeIndex) :
    table.subobject base c + table.size c = base + table.blockSize c := by
  have hle := le_blockSize table c
  rw [subobject]
  omega

theorem headSize_le_subobject (table : ClassTable) (base : ℕ) (c : TypeIndex) :
    base + headSize ≤ table.subobject base c := by
  have hle := le_blockSize table c
  rw [subobject]
  omega

theorem subobject_of_ne (h : c ≠ table.root) (base : ℕ) :
    table.subobject base c = base + table.blockSize (table.parent c) + headSize := by
  rw [subobject, blockSize_of_ne h]
  omega

theorem subobject_parent (h : c ≠ table.root) (base : ℕ) :
    table.subobject base c - headSize - table.size (table.parent c) =
      table.subobject base (table.parent c) := by
  rw [subobject_of_ne h, Nat.add_sub_cancel, subobject]

/-! ## Headers -/

/-- The header of the subobject of class `c` names the class and `child`. -/
def HeadAt (table : ClassTable) (base : ℕ) (m : Memory) (c child : TypeIndex) : Prop :=
  headType.get (table.subobject base c - headSize) m = c ∧
    headChild.get (table.subobject base c - headSize) m = child

/-- A byte of a header in the block of an object of class `T`. -/
def IsHeadByte (table : ClassTable) (T : TypeIndex) (base x : ℕ) : Prop :=
  ∃ A ∈ table.chain T, table.subobject base A - headSize ≤ x ∧ x < table.subobject base A

/-- The constructors do not write the headers of the object. -/
def KeepsHeads (table : ClassTable) (T : TypeIndex) (base : ℕ) : Prop :=
  ∀ c ∈ table.chain T, ∀ m x, table.IsHeadByte T base x →
    table.construct c (table.subobject base c) m x = m x

theorem HeadAt.congr (h : table.HeadAt base m c child)
    (hm : ∀ x, table.subobject base c - headSize ≤ x → x < table.subobject base c →
      m' x = m x) : table.HeadAt base m' c child := by
  have hle := headSize_le_subobject table base c
  have htype : load m' (table.subobject base c - headSize + 0) 4 =
      load m (table.subobject base c - headSize + 0) 4 := by
    funext i
    apply hm
    all_goals unfold headSize at *; omega
  have hchild : load m' (table.subobject base c - headSize + 4) 4 =
      load m (table.subobject base c - headSize + 4) 4 := by
    funext i
    apply hm
    all_goals unfold headSize at *; omega
  exact ⟨(congrArg headType.dec htype).trans h.1, (congrArg headChild.dec hchild).trans h.2⟩

theorem headAt_put (base : ℕ) (c child : TypeIndex) (m : Memory) :
    table.HeadAt base (headChild.put (table.subobject base c - headSize) child
      (headType.put (table.subobject base c - headSize) c m)) c child := by
  constructor
  · rw [Slot.get_put_of_disjoint headType headChild _ _ _ _ (Or.inr le_rfl), Slot.get_put]
    exact Slot.u32_dec_enc 0 c
  · rw [Slot.get_put]
    exact Slot.u32_dec_enc 4 child

theorem put_heads_of_le (h : base + table.blockSize c ≤ x) (m : Memory) :
    headChild.put (table.subobject base c - headSize) child
      (headType.put (table.subobject base c - headSize) c m) x = m x := by
  have hhead := headSize_le_subobject table base c
  have hsize := subobject_add_size table base c
  have hout : ∀ offset, offset ≤ 4 →
      ¬ (table.subobject base c - headSize + offset ≤ x ∧
        x < table.subobject base c - headSize + offset + 4) := by
    intro offset hoffset
    unfold headSize at *
    omega
  exact (dif_neg (hout 4 le_rfl)).trans (dif_neg (hout 0 (Nat.zero_le 4)))

theorem objectInit_of_ne (h : c ≠ table.root) (base : ℕ) (child : TypeIndex) (m : Memory) :
    table.objectInit c child (table.subobject base c) m =
      table.construct c (table.subobject base c)
        (store (table.objectInit (table.parent c) c (table.subobject base (table.parent c))
          (headChild.put (table.subobject base c - headSize) child
            (headType.put (table.subobject base c - headSize) c m)))
          (table.subobject base c) (table.initObj c)) := by
  rw [objectInit, dif_neg h, subobject_parent h]

theorem objectInit_frame (hkeep : table.KeepsHeads T base) (hx : table.IsHeadByte T base x)
    (hc : c ∈ table.chain T) (hle : base + table.blockSize c ≤ x) (child : TypeIndex)
    (m : Memory) : table.objectInit c child (table.subobject base c) m x = m x := by
  induction c using table.induction generalizing child m with
  | hroot =>
    rw [objectInit, dif_pos rfl]
    exact put_heads_of_le hle m
  | hstep c hroot ih =>
    have hparent : table.parent c ∈ table.chain T := table.mem_chain_trans hc
      (table.mem_chain_of_parent hroot (table.mem_chain_self _))
    have hblock := blockSize_of_ne hroot
    have hend := subobject_add_size table base c
    rw [objectInit_of_ne hroot, hkeep c hc _ x hx]
    refine (dif_neg (by omega)).trans ?_
    rw [ih hparent (by omega), put_heads_of_le hle]

/-- **What `object_init` leaves in the headers**: every subobject names its class and the class of
the next subobject, the last one the class that was passed.

**Proof sketch.** Induction along the parents.  The header of the class is written first; neither
the call for the parent, by `objectInit_frame`, nor the copy of the initial object, nor the
constructor writes it again.  The other headers are those of the call for the parent. -/
theorem objectInit_headers (hkeep : table.KeepsHeads T base) (hc : c ∈ table.chain T)
    (hA : A ∈ table.chain c) (child : TypeIndex) (m : Memory) :
    table.HeadAt base (table.objectInit c child (table.subobject base c) m) A
      (table.below c child A) := by
  induction c using table.induction generalizing child m with
  | hroot =>
    rw [table.chain_root] at hA
    obtain rfl := List.mem_singleton.mp hA
    rw [objectInit, dif_pos rfl, table.below_self]
    exact headAt_put base table.root child m
  | hstep c hroot ih =>
    have hparent : table.parent c ∈ table.chain T := table.mem_chain_trans hc
      (table.mem_chain_of_parent hroot (table.mem_chain_self _))
    have hhead := subobject_of_ne hroot base
    rw [objectInit_of_ne hroot]
    -- the copy and the constructor keep the header of `A`
    have hlast : ∀ m' : Memory, ∀ x, table.subobject base A - headSize ≤ x →
        x < table.subobject base A →
        table.construct c (table.subobject base c)
          (store m' (table.subobject base c) (table.initObj c)) x = m' x := by
      intro m' x hlo hhi
      rw [hkeep c hc _ x ⟨A, table.mem_chain_trans hc hA, hlo, hhi⟩]
      refine dif_neg fun hin => ?_
      by_cases hne : A = c
      · rw [hne] at hhi
        omega
      · have hle := blockSize_le (table.mem_chain_parent hA hne).2
        have hend := subobject_add_size table base A
        omega
    refine HeadAt.congr ?_ (hlast _)
    by_cases hne : A = c
    · rw [hne, table.below_self]
      refine (headAt_put base c child m).congr fun x hlo hhi => ?_
      exact objectInit_frame hkeep ⟨c, hc, hlo, hhi⟩ hparent (by omega) _ _
    · rw [table.below_of_ne hroot hne]
      exact ih hparent (table.mem_chain_parent hA hne).2 c _

/-! ## Casts -/

/-- The headers of an object of class `T`. -/
def Heads (table : ClassTable) (T : TypeIndex) (base : ℕ) (m : Memory) : Prop :=
  ∀ A ∈ table.chain T, table.HeadAt base m A (table.below T T A)

/-- **The second loop** finds the subobject of an ancestor, or none. -/
theorem castUp_spec (hheads : table.Heads T base m) (hc : c ∈ table.chain T)
    (hfuel : table.depth c < fuel) :
    table.castUp m B fuel (table.subobject base c) =
      some (if B ∈ table.chain c then some (table.subobject base B) else none) := by
  induction c using table.induction generalizing fuel with
  | hroot =>
    cases fuel with
    | zero => omega
    | succ fuel =>
      rw [castUp, (hheads table.root hc).1, table.chain_root]
      by_cases hB : table.root = B
      · rw [if_pos hB, if_pos (List.mem_singleton.mpr hB.symm), hB]
      · rw [if_neg hB, if_pos rfl, if_neg fun h => hB (List.mem_singleton.mp h).symm]
  | hstep c hroot ih =>
    cases fuel with
    | zero => omega
    | succ fuel =>
      have hparent : table.parent c ∈ table.chain T := table.mem_chain_trans hc
        (table.mem_chain_of_parent hroot (table.mem_chain_self _))
      have hdepth := table.depth_parent hroot
      rw [castUp, (hheads c hc).1, subobject_parent hroot]
      by_cases hB : c = B
      · rw [if_pos hB, ← hB, if_pos (table.mem_chain_self c)]
      · have hmem : B ∈ table.chain c ↔ B ∈ table.chain (table.parent c) :=
          ⟨fun h => (table.mem_chain_parent h fun h => hB h.symm).2,
            table.mem_chain_of_parent hroot⟩
        rw [if_neg hB, if_neg hroot, ih hparent (by omega)]
        simp only [hmem]

/-- **The first loop** finds the subobject, or ends with that of the class of the object.

**Proof sketch.** Induction on the number of subobjects that follow.  A subobject that is not the
last one names the next, which begins one header after its end. -/
theorem castDown_spec (hheads : table.Heads T base m) (hA : A ∈ table.chain T)
    (hfuel : table.depth T - table.depth A < fuel) :
    (table.castDown m B fuel (table.subobject base A) = some (true, table.subobject base B) ∧
        B ∈ table.chain T) ∨
      table.castDown m B fuel (table.subobject base A) = some (false, table.subobject base T) := by
  induction fuel generalizing A with
  | zero => omega
  | succ fuel ih =>
    obtain ⟨htype, hchild⟩ := hheads A hA
    rw [castDown, htype, hchild]
    by_cases hB : A = B
    · rw [if_pos hB]
      rw [← hB]
      exact Or.inl ⟨rfl, hA⟩
    rw [if_neg hB]
    by_cases hT : A = T
    · rw [hT, table.below_self, if_pos rfl]
      exact Or.inr rfl
    · obtain ⟨hmem, hroot, hup⟩ := table.parent_below T hA hT
      have hne : A ≠ table.below T T A := by
        intro heq
        have hdepth := table.depth_parent hroot
        rw [hup, ← heq] at hdepth
        omega
      have hnext : table.subobject base A + table.size A + headSize =
          table.subobject base (table.below T T A) := by
        rw [subobject_of_ne hroot, hup, subobject_add_size]
      rw [if_neg hne, hnext]
      apply ih hmem
      have hdepth := table.depth_parent hroot
      have hle := table.depth_le_of_mem hmem
      rw [hup] at hdepth
      omega

theorem classCast_spec (hheads : table.Heads T base m) (hA : A ∈ table.chain T)
    (hfuel : table.depth T < fuel) :
    table.classCast fuel m B (table.subobject base A) =
      some (if B ∈ table.chain T then some (table.subobject base B) else none) := by
  have hzero : table.subobject base A ≠ 0 := by
    have hhead := headSize_le_subobject table base A
    unfold headSize at hhead
    omega
  rw [classCast, if_neg hzero]
  cases castDown_spec (B := B) hheads hA (lt_of_le_of_lt (Nat.sub_le _ _) hfuel) with
  | inl hfound => rw [hfound.1, if_pos hfound.2]
  | inr hend =>
    rw [hend]
    exact castUp_spec hheads (table.mem_chain_self T) hfuel

theorem subobject_disjoint (hA : A ∈ table.chain T) (hB : B ∈ table.chain T) (hne : A ≠ B)
    (base : ℕ) :
    table.subobject base A + table.size A ≤ table.subobject base B - headSize ∨
      table.subobject base B + table.size B ≤ table.subobject base A - headSize := by
  -- the subobject of a proper ancestor ends before the header
  have hbefore : ∀ {A B : TypeIndex}, A ∈ table.chain B → A ≠ B →
      table.subobject base A + table.size A ≤ table.subobject base B - headSize := by
    intro A B hAB hne
    obtain ⟨hroot, hparent⟩ := table.mem_chain_parent hAB hne
    have hle := blockSize_le hparent
    rw [subobject_add_size, subobject_of_ne hroot]
    omega
  cases table.mem_chain_total hA hB with
  | inl hAB => exact Or.inl (hbefore hAB hne)
  | inr hBA => exact Or.inr (hbefore hBA hne.symm)

theorem newClassObject_heads {start : ℕ}
    (hobj : base + table.fullSize T - table.size T = table.subobject start T)
    (hkeep : table.KeepsHeads T start) (m : Memory) :
    table.Heads T start (table.newClassObject T base m).2 := by
  intro A hA
  have hhead := objectInit_headers hkeep (table.mem_chain_self T) hA T
    (store m base (0 : Bytes (table.fullSize T)))
  rw [← hobj] at hhead
  exact hhead

theorem newClassObject_spec (hfit : table.blockSize T < 2 ^ 32) (hkeep : table.KeepsHeads T base)
    (m : Memory) :
    (table.newClassObject T base m).1 = table.subobject base T ∧
      table.Heads T base (table.newClassObject T base m).2 := by
  have hobj : base + table.fullSize T - table.size T = table.subobject base T := by
    rw [fullSize_eq hfit, subobject]
  exact ⟨hobj, newClassObject_heads hobj hkeep m⟩

/-- A table with a class that is too large for `full_size`. -/
def largeClass : ClassTable where
  parent _ := 0
  root := 0
  rooted _ := ⟨1, rfl⟩
  size c := if c = 1 then 2 ^ 32 - 8 else 0
  initObj _ := 0
  construct _ _ m := m

/-- The size of the block is reduced to an `unsigned int`, and the object does not lie in the
block. -/
theorem newClassObject_outside :
    largeClass.KeepsHeads 1 (2 ^ 33) ∧
      (largeClass.newClassObject 1 (2 ^ 33) fun _ => 0).1 < 2 ^ 33 := by
  refine ⟨fun _ _ _ _ _ => rfl, ?_⟩
  have hroot : largeClass.setClassTableInfo 0 = .ok 8 := by
    rw [setClassTableInfo, dif_pos (show (0 : TypeIndex) = largeClass.root from rfl)]
    rfl
  have hfull : largeClass.setClassTableInfo 1 = .ok 8 := by
    rw [setClassTableInfo, dif_neg (by decide), if_neg (by decide)]
    rw [show largeClass.parent 1 = 0 from rfl, hroot]
    rfl
  show 2 ^ 33 + largeClass.fullSize 1 - (2 ^ 32 - 8) < 2 ^ 33
  rw [fullSize, hfull]
  norm_num

/-- **A cast is exact.**  In an object that `new_class_object` has made, a cast of any of its
subobjects returns the subobject of every class of the chain and `NULL` for every other class;
the subobjects lie in the block, apart from each other. -/
theorem classCast_exact (hfit : table.blockSize T < 2 ^ 32) (hkeep : table.KeepsHeads T base)
    (m : Memory) :
    ∃ m', table.newClassObject T base m = (table.subobject base T, m') ∧
      table.Heads T base m' ∧
      (∀ A ∈ table.chain T, ∀ B fuel, table.depth T < fuel →
        table.classCast fuel m' B (table.subobject base A) =
          some (if B ∈ table.chain T then some (table.subobject base B) else none)) ∧
      (∀ A ∈ table.chain T, base ≤ table.subobject base A - headSize ∧
        table.subobject base A + table.size A ≤ base + table.fullSize T) ∧
      ∀ A ∈ table.chain T, ∀ B ∈ table.chain T, A ≠ B →
        table.subobject base A + table.size A ≤ table.subobject base B - headSize ∨
          table.subobject base B + table.size B ≤ table.subobject base A - headSize := by
  obtain ⟨hobj, hheads⟩ := newClassObject_spec hfit hkeep m
  refine ⟨_, Prod.ext hobj rfl, hheads, fun A hA B fuel => classCast_spec hheads hA, ?_,
    fun A hA B hB hne => subobject_disjoint hA hB hne base⟩
  intro A hA
  have hhead := headSize_le_subobject table base A
  have hle := blockSize_le hA
  rw [subobject_add_size, fullSize_eq hfit]
  omega

/-- Class `1`, of four bytes, derived from `object_t`. -/
def oneClass : ClassTable where
  parent _ := 0
  root := 0
  rooted _ := ⟨1, rfl⟩
  size c := if c = 1 then 4 else 0
  initObj _ := 0
  construct _ _ m := m

theorem chain_oneClass : oneClass.chain 1 = [1, 0] := by
  rw [oneClass.chain_of_ne (by decide)]
  exact congrArg _ oneClass.chain_root

theorem blockSize_oneClass : oneClass.blockSize 1 = 20 := by
  rw [blockSize_of_ne (by decide)]
  rw [show oneClass.parent 1 = oneClass.root from rfl, blockSize_root]
  rfl

theorem classCast_exact_oneClass :
    ∃ m', oneClass.newClassObject 1 0x100 (fun _ => 0) = (oneClass.subobject 0x100 1, m') ∧
      ∀ fuel, oneClass.depth 1 < fuel →
        oneClass.classCast fuel m' 0 (oneClass.subobject 0x100 1) =
          some (some (oneClass.subobject 0x100 0)) := by
  have hfit : oneClass.blockSize 1 < 2 ^ 32 := by
    rw [blockSize_oneClass]
    decide
  obtain ⟨m', hnew, _, hcast, _⟩ :=
    @classCast_exact oneClass 1 0x100 hfit (fun _ _ _ _ _ => rfl) (fun _ => 0)
  refine ⟨m', hnew, fun fuel hfuel => ?_⟩
  rw [hcast 1 (oneClass.mem_chain_self 1) 0 fuel hfuel, if_pos]
  rw [chain_oneClass]
  decide

end ClassTable

end Ginkgo.Core
