import Ginkgo.Core.Class

/-!
# Deleting objects

The model of `delete_class_object` of `class.c`.  It begins with the subobject that the pointer
refers to, and goes on with those of the ancestors.

## Main results

* `DestructorTable.objectExit_spec` — the destructors that are called.
* `DestructorTable.destroys_iff` — when a deletion destroys the whole object.
-/

namespace Ginkgo.Core

open Layout

/-- A class table with destructors, which are called with the address of the subobject. -/
structure DestructorTable extends ClassTable where
  destruct : TypeIndex → Option (ℕ → Memory → Memory)

namespace DestructorTable

variable (table : DestructorTable)

/-- The call of the destructor of a class, if there is one. -/
def runDestructor (type : TypeIndex) (obj : ℕ) (m : Memory) : List (TypeIndex × ℕ) × Memory :=
  match table.destruct type with
  | none => ([], m)
  | some destructor => ([(type, obj)], destructor obj m)

/-- `object_exit`, with the calls of destructors.  It is given a number of calls of itself. -/
def objectExit : ℕ → ℕ → Memory → Except Fault (List (TypeIndex × ℕ) × Memory)
  | 0, _, _ => .error .badAccess
  | fuel + 1, obj, m => do
    let info := obj - headSize
    let type := headType.get info m
    let (calls, m) := table.runDestructor type obj m
    if type = table.root then return (calls, m)
    else
      -- the class is read again after the call of the destructor
      let parentObj := info - table.size (table.parent (headType.get info m))
      let (calls', m) ← objectExit fuel parentObj m
      return (calls ++ calls', m)

/-- `delete_class_object`: the calls of destructors, and the address that is passed to `free`. -/
def deleteClassObject (fuel obj : ℕ) (m : Memory) :
    Except Fault (List (TypeIndex × ℕ) × ℕ) := do
  kassert (obj ≠ 0)
  let (calls, m) ← table.objectExit fuel obj m
  let type := headType.get (obj - headSize) m
  return (calls, obj + table.size type - table.fullSize type)

/-! ## What a deletion is for -/

/-- Where the subobjects of an object of class `T` begin, for the block at `base`.  This is `base`,
unless the size of the block has been reduced to an `unsigned int`. -/
def start (T : TypeIndex) (base : ℕ) : ℕ := base + table.fullSize T - table.blockSize T

/-- The destructors of a class and its ancestors, from the class up to `object_t`. -/
def destructors (start : ℕ) (T : TypeIndex) : List (TypeIndex × ℕ) :=
  ((table.chain T).filter fun c => (table.destruct c).isSome).map fun c =>
    (c, table.subobject start c)

/-- **A deletion destroys the whole object**: for a new object of class `T` in the block at `base`,
and the pointer to its subobject of class `A`, all destructors are called, and the block is
freed. -/
def Destroys (fuel : ℕ) (T A : TypeIndex) (base : ℕ) (m : Memory) : Prop :=
  ∃ obj, table.classCast fuel (table.newClassObject T base m).2 A
      (table.newClassObject T base m).1 = some (some obj) ∧
    table.deleteClassObject fuel obj (table.newClassObject T base m).2 =
      .ok (table.destructors (table.start T base) T, base)

/-- The destructors do not write the headers of the object. -/
def ExitKeepsHeads (T : TypeIndex) (start : ℕ) : Prop :=
  ∀ c ∈ table.chain T, ∀ destructor ∈ table.destruct c, ∀ m x, table.IsHeadByte T start x →
    destructor (table.subobject start c) m x = m x

/-! ## The destructors that are called -/

variable {table} {T A c : TypeIndex} {base start fuel : ℕ} {m : Memory}

theorem runDestructor_spec (hexit : table.ExitKeepsHeads T start) (hheads : table.Heads T start m)
    (hc : c ∈ table.chain T) :
    (table.runDestructor c (table.subobject start c) m).1 =
        (if (table.destruct c).isSome then [(c, table.subobject start c)] else []) ∧
      table.Heads T start (table.runDestructor c (table.subobject start c) m).2 := by
  unfold runDestructor
  cases hd : table.destruct c with
  | none => exact ⟨rfl, hheads⟩
  | some destructor =>
    refine ⟨rfl, fun A hA => (hheads A hA).congr fun x hlo hhi => ?_⟩
    exact hexit c hc destructor hd m x ⟨A, hA, hlo, hhi⟩

theorem destructors_root : table.destructors start table.root =
    if (table.destruct table.root).isSome then [(table.root, table.subobject start table.root)]
    else [] := by
  unfold destructors
  rw [table.chain_root, List.filter_cons, List.filter_nil]
  split_ifs <;> rfl

theorem destructors_of_ne (h : c ≠ table.root) : table.destructors start c =
    (if (table.destruct c).isSome then [(c, table.subobject start c)] else []) ++
      table.destructors start (table.parent c) := by
  unfold destructors
  rw [table.chain_of_ne h, List.filter_cons]
  split_ifs <;> rfl

/-- **The destructors that `object_exit` calls** are those of the class of the subobject and of its
ancestors.

**Proof sketch.** Induction along the parents.  The headers stay, so that the class that is read
again after the call of the destructor is the same, and leads to the subobject of the parent. -/
theorem objectExit_spec (hexit : table.ExitKeepsHeads T start) (hheads : table.Heads T start m)
    (hc : c ∈ table.chain T) (hfuel : table.depth c < fuel) :
    ∃ m', table.objectExit fuel (table.subobject start c) m =
        .ok (table.destructors start c, m') ∧ table.Heads T start m' := by
  induction c using table.induction generalizing fuel m with
  | hroot =>
    cases fuel with
    | zero => omega
    | succ fuel =>
      obtain ⟨hcalls, hheads'⟩ := runDestructor_spec hexit hheads hc
      refine ⟨_, ?_, hheads'⟩
      rw [objectExit]
      dsimp only
      rw [(hheads table.root hc).1, if_pos rfl, destructors_root, ← hcalls]
      rfl
  | hstep c hroot ih =>
    cases fuel with
    | zero => omega
    | succ fuel =>
      have hparent : table.parent c ∈ table.chain T := table.mem_chain_trans hc
        (table.mem_chain_of_parent hroot (table.mem_chain_self _))
      have hdepth := table.depth_parent hroot
      obtain ⟨hcalls, hheads'⟩ := runDestructor_spec hexit hheads hc
      obtain ⟨m', hrest, hheads''⟩ := ih hheads' hparent (show _ < fuel by omega)
      refine ⟨m', ?_, hheads''⟩
      rw [objectExit]
      dsimp only
      rw [(hheads c hc).1, if_neg hroot, (hheads' c hc).1, ClassTable.subobject_parent hroot, hrest,
        Fallible.ok_bind, destructors_of_ne hroot, ← hcalls]
      rfl

theorem deleteClassObject_eq (hexit : table.ExitKeepsHeads T start)
    (hheads : table.Heads T start m) (hA : A ∈ table.chain T) (hfuel : table.depth T < fuel) :
    table.deleteClassObject fuel (table.subobject start A) m =
      .ok (table.destructors start A, start + table.blockSize A - table.fullSize A) := by
  have hne : table.subobject start A ≠ 0 := by
    have hhead := ClassTable.headSize_le_subobject table.toClassTable start A
    unfold headSize at hhead
    omega
  obtain ⟨m', hcall, hheads'⟩ := objectExit_spec hexit hheads hA
    ((table.depth_le_of_mem hA).trans_lt hfuel)
  unfold deleteClassObject
  rw [kassert_pos hne, Fallible.ok_bind, hcall, Fallible.ok_bind]
  dsimp only
  rw [(hheads' A hA).1, ClassTable.subobject_add_size]
  rfl

theorem destructors_eq_iff (hA : A ∈ table.chain T) :
    table.destructors start A = table.destructors start T ↔
      ∀ c ∈ table.chain T, c ∉ table.chain A → table.destruct c = none := by
  obtain ⟨l, hl, hnot⟩ := table.exists_chain_eq_append hA
  have hsplit : table.destructors start T =
      (l.filter fun c => (table.destruct c).isSome).map (fun c => (c, table.subobject start c)) ++
        table.destructors start A := by
    unfold destructors
    rw [hl, List.filter_append, List.map_append]
  rw [hsplit, eq_comm, List.append_left_eq_self, List.map_eq_nil_iff, List.filter_eq_nil_iff, hl]
  constructor
  · intro h c hc hcA
    have hcl : c ∈ l := (List.mem_append.mp hc).resolve_right hcA
    simpa using h c hcl
  · intro h c hc
    simp [h c (List.mem_append_left _ hc) (hnot c hc)]

/-- **When a deletion destroys the whole object**: no class under that of the pointer has a
destructor, and the size of the block has been reduced as often for the one class as for the
other. -/
theorem destroys_iff (table : DestructorTable) {T A : TypeIndex} {base fuel : ℕ}
    (hA : A ∈ table.chain T) (hroom : table.blockSize T ≤ base + table.fullSize T)
    (hkeep : table.KeepsHeads T (table.start T base))
    (hexit : table.ExitKeepsHeads T (table.start T base)) (hfuel : table.depth T < fuel)
    (m : Memory) :
    table.Destroys fuel T A base m ↔
      (∀ c ∈ table.chain T, c ∉ table.chain A → table.destruct c = none) ∧
        table.blockSize A / 2 ^ 32 = table.blockSize T / 2 ^ 32 := by
  have hobj : base + table.fullSize T - table.size T =
      table.subobject (table.start T base) T := by
    unfold start ClassTable.subobject
    omega
  have hheads := ClassTable.newClassObject_heads hobj hkeep m
  have hcast : table.classCast fuel (table.newClassObject T base m).2 A
      (table.newClassObject T base m).1 = some (some (table.subobject (table.start T base) A)) := by
    have hspec := ClassTable.classCast_spec (B := A) hheads (table.mem_chain_self T) hfuel
    rw [if_pos hA, ← hobj] at hspec
    exact hspec
  have hbase : table.start T base + table.blockSize A - table.fullSize A = base ↔
      table.blockSize A / 2 ^ 32 = table.blockSize T / 2 ^ 32 := by
    unfold start
    rw [ClassTable.fullSize_eq_mod] at hroom
    rw [ClassTable.fullSize_eq_mod, ClassTable.fullSize_eq_mod]
    omega
  rw [← destructors_eq_iff hA, ← hbase]
  constructor
  · rintro ⟨obj, hptr, hdelete⟩
    obtain rfl := Option.some.inj (Option.some.inj (hcast.symm.trans hptr))
    rw [deleteClassObject_eq hexit hheads hA hfuel] at hdelete
    exact Prod.mk.inj (Except.ok.inj hdelete)
  · rintro ⟨hcalls, hfreed⟩
    refine ⟨_, hcast, ?_⟩
    rw [deleteClassObject_eq hexit hheads hA hfuel, hcalls, hfreed]

/-- Class `1` has a destructor, and `object_t` has none. -/
def oneDestructor : DestructorTable where
  toClassTable := ClassTable.oneClass
  destruct c := if c = 1 then some fun _ m => m else none

theorem oneDestructor_exitKeepsHeads (start : ℕ) : oneDestructor.ExitKeepsHeads 1 start := by
  intro c _ destructor hd m x _
  by_cases hc : c = 1
  · rw [show oneDestructor.destruct c = some fun _ m => m from if_pos hc] at hd
    cases hd
    rfl
  · rw [show oneDestructor.destruct c = none from if_neg hc] at hd
    cases hd

theorem fullSize_oneDestructor : oneDestructor.fullSize 1 = 20 := by
  have hblock : oneDestructor.blockSize 1 = 20 := ClassTable.blockSize_oneClass
  rw [ClassTable.fullSize_eq (by rw [hblock]; decide), hblock]

/-- The theorem applies to a deletion with a pointer to the object itself. -/
theorem destroys_iff_self :
    oneDestructor.Destroys (oneDestructor.depth 1 + 1) 1 1 0x100 fun _ => 0 := by
  refine (destroys_iff oneDestructor (oneDestructor.mem_chain_self 1) ?_ (fun _ _ _ _ _ => rfl)
    (oneDestructor_exitKeepsHeads _) (Nat.lt_succ_self _) _).mpr
    ⟨fun c hc hnot => absurd hc hnot, rfl⟩
  rw [fullSize_oneDestructor, show oneDestructor.blockSize 1 = 20 from
    ClassTable.blockSize_oneClass]
  decide

/-- A deletion with a pointer to the `object_t` does not call the destructor of the class. -/
theorem deleteClassObject_base :
    oneDestructor.deleteClassObject (oneDestructor.depth 1 + 1) (oneDestructor.subobject 0x100 0)
        (oneDestructor.newClassObject 1 0x100 fun _ => 0).2 = .ok ([], 0x100) ∧
      oneDestructor.destructors 0x100 1 = [(1, oneDestructor.subobject 0x100 1)] := by
  have hblock : oneDestructor.blockSize 1 = 20 := ClassTable.blockSize_oneClass
  have hchain : oneDestructor.chain 1 = [1, 0] := ClassTable.chain_oneClass
  have hchain₀ : oneDestructor.chain 0 = [0] := oneDestructor.chain_root
  have hfit : oneDestructor.blockSize 1 < 2 ^ 32 := by
    rw [hblock]
    decide
  have hkeep : oneDestructor.KeepsHeads 1 0x100 := fun _ _ _ _ _ => rfl
  obtain ⟨-, hheads⟩ := ClassTable.newClassObject_spec hfit hkeep fun _ => 0
  refine ⟨?_, ?_⟩
  · rw [deleteClassObject_eq (oneDestructor_exitKeepsHeads _) hheads (by rw [hchain]; decide)
      (Nat.lt_succ_self _), destructors, hchain₀, ClassTable.fullSize_eq_mod,
      show oneDestructor.blockSize 0 = 8 from ClassTable.blockSize_root]
    rfl
  · rw [destructors, hchain]
    rfl

end DestructorTable

end Ginkgo.Core
