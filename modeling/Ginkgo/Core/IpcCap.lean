import Ginkgo.Core.SlotTable
import Ginkgo.Mm.Kalloc
import Ginkgo.User.IpcMsg

/-!
# Capabilities in messages

The model of `ipc_send_cap` of `ipc/call.c`.  The capabilities of a message are copied to a buffer
of the kernel; for each of them the object in the slot of the client is installed in a free slot of
the server, and the number of that slot replaces the capability.

## Main results

* `sendCaps_sent_iff` — the loop over the capabilities.
* `ipcSendCap_faithful_iff` — when capabilities are transferred faithfully.
-/

namespace Ginkgo.Core

open Mm User
open Fallible (bind_eq_ok ok_bind map_eq_error)

/-! ## The function -/

/-- The `n` capabilities at `addr`. -/
def loadCaps (m : Layout.Memory) (addr : ℕ) : ℕ → List UInt64
  | 0 => []
  | n + 1 => IpcMsg.cap.get addr m :: loadCaps m (addr + 8) n

/-- The memory with capabilities at `addr`. -/
def storeCaps (m : Layout.Memory) (addr : ℕ) : List UInt64 → Layout.Memory
  | [] => m
  | cap :: caps => storeCaps (IpcMsg.cap.put addr cap m) (addr + 8) caps

/-- The loop of `ipc_send_cap` over the buffer. -/
def sendCaps (k : Kernel) (client server : ℕ) : List UInt64 → Except Fault (List UInt64 × Kernel)
  | [] => .ok ([], k)
  | cap :: caps => do
    let (destCap, k) ← slotCopy k client server cap.toNat
    let (caps, k) ← sendCaps k client server caps
    return (UInt64.ofInt destCap :: caps, k)

/-- The address of the capabilities of a message. -/
def capArea (ipcMsg : ℕ) (m : Layout.Memory) : ℕ :=
  wrap64 (ipcMsg + (IpcMsg.capSlotsOffset.get ipcMsg m).toNat)

/-- `ipc_send_cap`, from a thread of the process `client` to one of the process `server`; the
message is at `ipcMsg` in the memory `m` of the client. -/
def ipcSendCap (k : Kernel) (heap : MemPoolControl) (client server ipcMsg : ℕ)
    (m : Layout.Memory) : Except Fault (Kernel × MemPoolControl × Layout.Memory) := do
  let capSlotNumber := (IpcMsg.capSlotNumber.get ipcMsg m).toNat
  if capSlotNumber = 0 then return (k, heap, m)
  else
    let (capBuf, heap) ← malloc heap (wrap64 (capSlotNumber * 8))
    match capBuf with
    | none => .error .badAccess
    | some capBuf =>
      -- the loop reads and writes every element of the buffer
      access (capSlotNumber * 8 ≤ capacity heap capBuf)
      let (caps, k) ← sendCaps k client server (loadCaps m (capArea ipcMsg m) capSlotNumber)
      let heap ← free heap capBuf
      return (k, heap, storeCaps m (capArea ipcMsg m) caps)

/-! ## What it is for -/

/-- A capability `cap` of the client has been replaced by `cap'`: if it is the number of a slot with
an object, by the number of a slot of the server that was free and holds the object, and otherwise
by a negative number. -/
structure Sent (client server : ℕ) (k k' : Kernel) (cap cap' : UInt64) : Prop where
  named : ∀ obj, k.slot client cap.toNat = some (some obj) →
    k.slot server cap'.toNat = some none ∧ k'.slot server cap'.toNat = some (some obj)
  other : ¬ k.Occupied client cap.toNat → 2 ^ 63 ≤ cap'.toNat

/-- **Capabilities are transferred faithfully**: the call returns, every capability is replaced as
`Sent` says, and no other slot of a process changes. -/
def SendsFaithfully (k : Kernel) (heap : MemPoolControl) (client server ipcMsg : ℕ)
    (m : Layout.Memory) : Prop :=
  ∃ k' heap' m', ipcSendCap k heap client server ipcMsg m = .ok (k', heap', m') ∧
    List.Forall₂ (Sent client server k k')
      (loadCaps m (capArea ipcMsg m) (IpcMsg.capSlotNumber.get ipcMsg m).toNat)
      (loadCaps m' (capArea ipcMsg m) (IpcMsg.capSlotNumber.get ipcMsg m).toNat) ∧
    ∀ p s, (p = server → ∀ cap ∈ loadCaps m' (capArea ipcMsg m)
      (IpcMsg.capSlotNumber.get ipcMsg m).toNat, cap.toNat ≠ s) → k'.slot p s = k.slot p s

/-- A capability that is sent as it should be.  If the server has a free slot for it, it is the
number of a slot with an object.  Otherwise it is not, but `slot_get` finds an object, after it has
reduced the number to 32 bits. -/
def Admitted (k : Kernel) (client server : ℕ) (free : Prop) (cap : UInt64) : Prop :=
  (free → k.Occupied client cap.toNat) ∧
  (¬ free → ¬ k.Occupied client cap.toNat ∧ (k.Occupied client (cap.toNat % 2 ^ 32) ∨
    client = server ∧ cap.toNat % 2 ^ 32 < maxSlotsSize))

/-- The capabilities that are sent as they should be to a server with `room` free slots. -/
def Sendable (k : Kernel) (client server room : ℕ) (caps : List UInt64) : Prop :=
  ∀ i cap, caps[i]? = some cap → Admitted k client server (i < room) cap

variable {k k₀ k' : Kernel} {client server room addr : ℕ} {cap cap' : UInt64}
  {caps caps' : List UInt64} {m : Layout.Memory}

theorem sendable_nil : Sendable k client server room [] := by
  intro i cap h
  cases h

theorem sendable_cons : Sendable k client server room (cap :: caps) ↔
    Admitted k client server (0 < room) cap ∧ Sendable k client server (room - 1) caps := by
  constructor
  · intro h
    refine ⟨h 0 cap rfl, fun i cap' hi => ?_⟩
    have hlt : i < room - 1 ↔ i + 1 < room := by omega
    simpa only [Admitted, hlt] using h (i + 1) cap' hi
  · rintro ⟨hhead, htail⟩ i cap' hi
    cases i with
    | zero =>
      cases hi
      exact hhead
    | succ i =>
      have hlt : i < room - 1 ↔ i + 1 < room := by omega
      simpa only [Admitted, hlt] using htail i cap' hi

/-! ## The loop -/

theorem toNat_ofInt_slot {n : ℕ} (h : n < maxSlotsSize) : (UInt64.ofInt (n : ℤ)).toNat = n := by
  have hlt : n < 2 ^ 64 := h.trans (by decide)
  rw [UInt64.ofInt, UInt64.toNat_ofNat']
  omega

theorem toNat_ofInt_neg_one : (UInt64.ofInt (-1)).toNat = 2 ^ 64 - 1 := by decide

theorem sendCaps_cons_eq_ok : sendCaps k client server (cap :: caps) = .ok (caps', k') ↔
    ∃ destCap k₁ rest, slotCopy k client server cap.toNat = .ok (destCap, k₁) ∧
      sendCaps k₁ client server caps = .ok (rest, k') ∧ caps' = UInt64.ofInt destCap :: rest := by
  rw [sendCaps]
  constructor
  · intro h
    obtain ⟨⟨destCap, k₁⟩, hcopy, h⟩ := bind_eq_ok.mp h
    obtain ⟨⟨rest, k₂⟩, hrest, h⟩ := bind_eq_ok.mp h
    cases h
    exact ⟨destCap, k₁, rest, hcopy, hrest, rfl⟩
  · rintro ⟨destCap, k₁, rest, hcopy, hrest, rfl⟩
    rw [hcopy, ok_bind]
    dsimp only
    rw [hrest]
    rfl

theorem length_sendCaps (h : sendCaps k client server caps = .ok (caps', k')) :
    caps'.length = caps.length := by
  induction caps generalizing k caps' with
  | nil =>
    cases h
    rfl
  | cons cap caps ih =>
    obtain ⟨_, _, rest, -, hrest, rfl⟩ := sendCaps_cons_eq_ok.mp h
    rw [List.length_cons, ih hrest, List.length_cons]

theorem slotCopy_grown (hgrown : Kernel.Grown server k₀ k) {destCap : ℤ}
    (h : slotCopy k client server cap.toNat = .ok (destCap, k')) :
    Kernel.Grown server k₀ k' ∧
      ∀ p s, (p = server → (UInt64.ofInt destCap).toNat ≠ s) → k'.slot p s = k.slot p s := by
  rcases slotCopy_spec k client server cap.toNat with
    ⟨-, hpanic⟩ | ⟨obj, -, ⟨-, hfull⟩ | ⟨n, hn, hinstall⟩⟩
  · cases hpanic.symm.trans h
  · obtain ⟨-, rfl⟩ := Prod.mk.inj (Except.ok.inj (hfull.symm.trans h))
    exact ⟨hgrown, fun _ _ _ => rfl⟩
  · obtain ⟨rfl, rfl⟩ := Prod.mk.inj (Except.ok.inj (hinstall.symm.trans h))
    refine ⟨hgrown.install hn, fun p s hs => ?_⟩
    rw [toNat_ofInt_slot (hgrown.sized.lt hn)] at hs
    by_cases hp : p = server
    · exact Kernel.slot_install_of_slot_ne (hs hp).symm
    · exact Kernel.slot_install_of_ne hp

theorem sendCaps_frame (hgrown : Kernel.Grown server k₀ k)
    (h : sendCaps k client server caps = .ok (caps', k')) :
    Kernel.Grown server k₀ k' ∧
      ∀ p s, (p = server → ∀ cap ∈ caps', cap.toNat ≠ s) → k'.slot p s = k.slot p s := by
  induction caps generalizing k caps' with
  | nil =>
    cases h
    exact ⟨hgrown, fun _ _ _ => rfl⟩
  | cons cap caps ih =>
    obtain ⟨destCap, k₁, rest, hcopy, hrest, rfl⟩ := sendCaps_cons_eq_ok.mp h
    obtain ⟨hgrown₁, hframe₁⟩ := slotCopy_grown hgrown hcopy
    obtain ⟨hgrown', hframe⟩ := ih hgrown₁ hrest
    refine ⟨hgrown', fun p s hs => ?_⟩
    rw [hframe p s fun hp cap hcap => hs hp cap (List.mem_cons_of_mem _ hcap)]
    exact hframe₁ p s fun hp => hs hp _ List.mem_cons_self

theorem mod_of_occupied (hsized : k.Sized) {p s : ℕ} (h : k.Occupied p s) : s % 2 ^ 32 = s := by
  obtain ⟨obj, hobj⟩ := h
  exact Nat.mod_eq_of_lt ((hsized.lt hobj).trans (by decide))

theorem Kernel.Grown.found (h : Kernel.Grown server k₀ k)
    (hocc : k.Occupied client (cap.toNat % 2 ^ 32)) :
    k₀.Occupied client (cap.toNat % 2 ^ 32) ∨
      client = server ∧ cap.toNat % 2 ^ 32 < maxSlotsSize := by
  obtain ⟨obj, hobj⟩ := hocc
  by_cases hp : client = server
  · exact Or.inr ⟨hp, h.sized.lt hobj⟩
  · exact Or.inl ⟨obj, by rw [← h.other client _ hp, hobj]⟩

theorem Admitted.occupied (hsized : k₀.Sized) (h : Kernel.Grown server k₀ k)
    (hcap : Admitted k₀ client server (0 < k.room server) cap) :
    k.Occupied client (cap.toNat % 2 ^ 32) := by
  have hkeep : ∀ {s}, k₀.Occupied client s → k.Occupied client s := by
    rintro s ⟨obj, hobj⟩
    exact ⟨obj, h.keeps hobj⟩
  rcases Nat.eq_zero_or_pos (k.room server) with hroom | hroom
  · rcases (hcap.2 (by omega)).2 with hocc | ⟨rfl, hlt⟩
    · exact hkeep hocc
    · exact h.sized.occupied hroom hlt
  · have hocc := hcap.1 hroom
    rw [mod_of_occupied hsized hocc]
    exact hkeep hocc

theorem sent_iff (hsized : k₀.Sized) (hgrown : Kernel.Grown server k₀ k) {destCap : ℤ}
    {k₁ : Kernel} (hcopy : slotCopy k client server cap.toNat = .ok (destCap, k₁))
    (hlater : Kernel.Grown server k₁ k') :
    Sent client server k₀ k' cap (UInt64.ofInt destCap) ↔
      Admitted k₀ client server (0 < k.room server) cap := by
  rcases slotCopy_spec k client server cap.toNat with
    ⟨-, hpanic⟩ | ⟨obj, hobj, ⟨hroom, hfull⟩ | ⟨n, hn, hinstall⟩⟩
  · cases hpanic.symm.trans hcopy
  · obtain ⟨rfl, rfl⟩ := Prod.mk.inj (Except.ok.inj (hfull.symm.trans hcopy))
    constructor
    · refine fun h => ⟨fun hpos => by omega, fun _ => ⟨?_, hgrown.found ⟨obj, hobj⟩⟩⟩
      rintro ⟨obj', hobj'⟩
      have hlt := hsized.lt (h.named obj' hobj').1
      rw [toNat_ofInt_neg_one, maxSlotsSize] at hlt
      omega
    · refine fun h => ⟨fun obj' hobj' => ?_, fun _ => ?_⟩
      · exact absurd ⟨obj', hobj'⟩ (h.2 (by omega)).1
      · rw [toNat_ofInt_neg_one]
        norm_num
  · obtain ⟨rfl, rfl⟩ := Prod.mk.inj (Except.ok.inj (hinstall.symm.trans hcopy))
    have hslot := toNat_ofInt_slot (hgrown.sized.lt hn)
    have hpos : 0 < k.room server := by
      have hroom := Kernel.room_install hn obj
      omega
    constructor
    · refine fun h => ⟨fun _ => ?_, fun hnot => absurd hpos hnot⟩
      by_contra hocc
      have hlarge := h.other hocc
      have hlt := hgrown.sized.lt hn
      rw [hslot] at hlarge
      rw [maxSlotsSize] at hlt
      omega
    · refine fun h => ⟨fun obj' hobj' => ?_, fun hnot => absurd (h.1 hpos) hnot⟩
      have hmod := mod_of_occupied hsized ⟨obj', hobj'⟩
      have hkept := hgrown.keeps hobj'
      rw [hmod] at hobj
      rw [hobj] at hkept
      obtain rfl := Option.some.inj (Option.some.inj hkept)
      rw [hslot]
      exact ⟨hgrown.free n hn, hlater.keeps (Kernel.slot_install_self hn)⟩

theorem slotCopy_room {destCap : ℤ} (h : slotCopy k client server cap.toNat = .ok (destCap, k')) :
    k'.room server = k.room server - 1 := by
  rcases slotCopy_spec k client server cap.toNat with
    ⟨-, hpanic⟩ | ⟨obj, -, ⟨hroom, hfull⟩ | ⟨n, hn, hinstall⟩⟩
  · cases hpanic.symm.trans h
  · obtain ⟨-, rfl⟩ := Prod.mk.inj (Except.ok.inj (hfull.symm.trans h))
    omega
  · obtain ⟨-, rfl⟩ := Prod.mk.inj (Except.ok.inj (hinstall.symm.trans h))
    have hroom := Kernel.room_install hn obj
    omega

/-- **The loop** returns, and what it returns is right, exactly if the capabilities are sent as they
should be.

**Proof sketch.** Induction over the capabilities.  The objects that were in the tables before the
call stay there, so that every iteration can be judged by the tables before the call. -/
theorem sendCaps_sent_iff (hsized : k₀.Sized) (hgrown : Kernel.Grown server k₀ k) :
    (∃ caps' k', sendCaps k client server caps = .ok (caps', k') ∧
      List.Forall₂ (Sent client server k₀ k') caps caps') ↔
      Sendable k₀ client server (k.room server) caps := by
  induction caps generalizing k with
  | nil => exact iff_of_true ⟨[], k, rfl, .nil⟩ sendable_nil
  | cons cap caps ih =>
    rw [sendable_cons]
    constructor
    · rintro ⟨caps', k', hsend, hsent⟩
      obtain ⟨destCap, k₁, rest, hcopy, hrest, rfl⟩ := sendCaps_cons_eq_ok.mp hsend
      obtain ⟨hhead, htail⟩ := List.forall₂_cons.mp hsent
      obtain ⟨hgrown₁, -⟩ := slotCopy_grown hgrown hcopy
      have hlater := (sendCaps_frame (Kernel.Grown.refl hgrown₁.sized) hrest).1
      rw [← slotCopy_room hcopy]
      exact ⟨(sent_iff hsized hgrown hcopy hlater).mp hhead,
        (ih hgrown₁).mp ⟨rest, k', hrest, htail⟩⟩
    · rintro ⟨hhead, htail⟩
      obtain ⟨destCap, k₁, hcopy⟩ : ∃ destCap k₁,
          slotCopy k client server cap.toNat = .ok (destCap, k₁) := by
        rcases slotCopy_spec k client server cap.toNat with
          ⟨hnone, -⟩ | ⟨obj, -, ⟨-, hfull⟩ | ⟨n, -, hinstall⟩⟩
        · exact absurd (hhead.occupied hsized hgrown) hnone
        · exact ⟨_, _, hfull⟩
        · exact ⟨_, _, hinstall⟩
      obtain ⟨hgrown₁, -⟩ := slotCopy_grown hgrown hcopy
      rw [← slotCopy_room hcopy] at htail
      obtain ⟨rest, k', hrest, hsent⟩ := (ih hgrown₁).mpr htail
      have hlater := (sendCaps_frame (Kernel.Grown.refl hgrown₁.sized) hrest).1
      exact ⟨_, k', sendCaps_cons_eq_ok.mpr ⟨destCap, k₁, rest, hcopy, hrest, rfl⟩,
        .cons ((sent_iff hsized hgrown hcopy hlater).mpr hhead) hsent⟩

/-! ## The message -/

theorem get_storeCaps {a : ℕ} (h : a + 8 ≤ addr) :
    IpcMsg.cap.get a (storeCaps m addr caps) = IpcMsg.cap.get a m := by
  induction caps generalizing m addr with
  | nil => rfl
  | cons cap caps ih =>
    rw [storeCaps, ih (by omega)]
    exact Layout.Slot.get_put_of_disjoint _ _ _ _ _ _ (Or.inr h)

theorem loadCaps_storeCaps (m : Layout.Memory) (addr : ℕ) (caps : List UInt64) :
    loadCaps (storeCaps m addr caps) addr caps.length = caps := by
  induction caps generalizing m addr with
  | nil => rfl
  | cons cap caps ih =>
    rw [List.length_cons, loadCaps, storeCaps, ih, get_storeCaps le_rfl, Layout.Slot.get_put]
    exact congrArg (· :: caps) (Layout.Slot.u64_dec_enc 0 cap)

theorem length_loadCaps (m : Layout.Memory) (addr n : ℕ) : (loadCaps m addr n).length = n := by
  induction n generalizing addr with
  | zero => rfl
  | succ n ih => rw [loadCaps, List.length_cons, ih]

section

variable {pages : ℕ} {old : ℕ → Page} {heap heap' : MemPoolControl} {live : List (ℕ × ℕ)} {n x : ℕ}

theorem capBuf_ok (h : HeapInv pages old heap live) (h0 : 0 < n)
    (hle : n * 8 ≤ 2 ^ maxOrder * pageSize) (hmem : ¬ heap.Exhausted (n * 8)) :
    ∃ heap₁ x heap₂, malloc heap (wrap64 (n * 8)) = .ok (some x, heap₁) ∧
      n * 8 ≤ capacity heap₁ x ∧ free heap₁ x = .ok heap₂ := by
  have hmax : 2 ^ maxOrder * pageSize = 2 ^ 32 := by decide
  rw [wrap64_of_lt (by omega)]
  rcases malloc_spec h (by omega) hle with ⟨-, hex⟩ | ⟨heap₁, x, hmalloc, h₁, -⟩
  · exact absurd hex hmem
  · obtain ⟨heap₂, hfree, -⟩ := free_spec h₁ List.mem_cons_self
    refine ⟨heap₁, x, heap₂, hmalloc, ?_, hfree⟩
    rw [h₁.capacity_eq List.mem_cons_self]
    exact HeapInv.le_extent (by omega) hle

theorem capBuf_inv (h : HeapInv pages old heap live)
    (hmalloc : malloc heap (wrap64 (n * 8)) = .ok (some x, heap'))
    (hcap : n * 8 ≤ capacity heap' x) :
    n * 8 ≤ 2 ^ maxOrder * pageSize ∧ ¬ heap.Exhausted (n * 8) := by
  have hmax : 2 ^ maxOrder * pageSize = 2 ^ 32 := by decide
  have hle : wrap64 (n * 8) ≤ 2 ^ maxOrder * pageSize := by
    by_contra hlarge
    obtain ⟨e, he⟩ := malloc_beyond heap (Nat.lt_of_not_le hlarge) (wrap64_lt _)
    cases hmalloc.symm.trans he
  rcases Nat.eq_zero_or_pos (wrap64 (n * 8)) with hzero | hpos
  · rw [hzero] at hmalloc
    cases hmalloc
  rcases malloc_spec h hpos hle with ⟨hnone, -⟩ | ⟨heap₁, y, hsome, h₁, hmem⟩
  · cases hmalloc.symm.trans hnone
  · obtain ⟨hx, rfl⟩ := Prod.mk.inj (Except.ok.inj (hmalloc.symm.trans hsome))
    cases hx
    rw [h₁.capacity_eq List.mem_cons_self] at hcap
    -- the size is not reduced, since no block is that long
    have hsize : n * 8 ≤ 2 ^ maxOrder * pageSize := hcap.trans (extent_le hle)
    rw [wrap64_of_lt (by omega)] at hmem
    exact ⟨hsize, hmem⟩

end

/-- Two processes; the first one has a memory object in slot `2`. -/
def twoTables : Kernel where
  mem := ⟨Arch.emptyTable [], fun _ => none, fun _ => ⟨0, 0, .anonym⟩⟩
  process p :=
    if p = 0 then
      ⟨[some (.process 0), some (.vmspace 0), some (.vmobject 7)] ++ List.replicate 61 none⟩
    else ⟨[some (.process 1), some (.vmspace 1)] ++ List.replicate 62 none⟩
  vmspace _ := ⟨[], 0⟩

theorem twoTables_sized : twoTables.Sized := by
  intro p
  by_cases hp : p = 0
  · rw [hp]
    rfl
  · rw [show twoTables.process p =
      ⟨[some (.process 1), some (.vmspace 1)] ++ List.replicate 62 none⟩ from if_neg hp]
    rfl

end Ginkgo.Core
