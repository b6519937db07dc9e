import Ginkgo.Lib.Lts
import Ginkgo.User.IpcMsg

/-!
# The life of a message

What a client does with a message in the shared buffer: it is created, and then its data and its
capabilities are set.

## Main results

* `ipcCreateMsg_msg` — what a new message holds.
* `MsgState.Inv.step` — what a call leaves in a message.
* `msgSound_iff` — which messages are sound.
-/

namespace Ginkgo.User

open Layout

/-! ## The functions -/

/-- `ipc_clear_msg_data`. -/
def ipcClearMsgData (offset len : UInt64) (m : Memory) : ℤ × Memory :=
  if offset + len < offset ∨ IpcMsg.dataLen.get 0 m < offset + len then (-1, m)
  else (0, store m (ipcGetMsgData m + offset.toNat) (0 : Bytes len.toNat))

/-- `ipc_set_msg_data`; `data` are the bytes at the pointer that is passed. -/
def ipcSetMsgData (data : ℕ → UInt8) (offset len : UInt64) (m : Memory) : ℤ × Memory :=
  if offset + len < offset ∨ IpcMsg.dataLen.get 0 m < offset + len then (-1, m)
  else (0, store m (ipcGetMsgData m + offset.toNat) (fun i : Fin len.toNat => data i))

/-- `ipc_get_msg_cap`. -/
def ipcGetMsgCap (capSlotIndex : UInt64) (m : Memory) : UInt64 :=
  if IpcMsg.capSlotNumber.get 0 m ≤ capSlotIndex then -1
  else IpcMsg.cap.get ((IpcMsg.capSlotsOffset.get 0 m).toNat + 8 * capSlotIndex.toNat) m

/-- `ipc_create_msg`, in a memory that ends `mapped` bytes behind the start of the buffer. -/
def ipcCreateMsgIn (mapped dataLen capSlotNumber : UInt64) (m : Memory) : Except Fault Memory := do
  let m ← ipcCreateMsg dataLen capSlotNumber m
  -- the header, the data and the capabilities are written
  access (msgSize.toNat + dataLen.toNat ≤ mapped.toNat ∧
    (msgSize + dataLen).toNat + 8 * capSlotNumber.toNat ≤ mapped.toNat)
  return m

/-! ## Runs -/

/-- A message, with what was written last at every offset of its data, and what was set last as
each of its capabilities. -/
structure MsgState where
  m : Memory
  data : ℕ → UInt8
  caps : ℕ → Option UInt32

/-- A call that changes a message. -/
inductive MsgCall
  | setData (data : ℕ → UInt8) (offset len : UInt64)
  | clearData (offset len : UInt64)
  | setCap (capSlotIndex : UInt64) (cap : UInt32)

/-- What a call returns, and the memory that it leaves. -/
def MsgCall.run (m : Memory) : MsgCall → ℤ × Memory
  | .setData data offset len => ipcSetMsgData data offset len m
  | .clearData offset len => ipcClearMsgData offset len m
  | .setCap capSlotIndex cap =>
    (if IpcMsg.capSlotNumber.get 0 m ≤ capSlotIndex then -1 else 0,
      ipcSetMsgCap capSlotIndex.toNat cap m)

/-- The data with `len` bytes written at `offset`. -/
def writeData (data : ℕ → UInt8) (new : ℕ → UInt8) (offset len : ℕ) : ℕ → UInt8 :=
  fun x => if offset ≤ x ∧ x < offset + len then new (x - offset) else data x

/-- The effect of a call.  One that is rejected has written nothing. -/
def MsgState.step (st : MsgState) (call : MsgCall) : Except Unit MsgState :=
  let m := (call.run st.m).2
  if (call.run st.m).1 ≠ 0 then .ok { st with m := m }
  else
    match call with
    | .setData data offset len =>
      .ok { st with m := m, data := writeData st.data data offset.toNat len.toNat }
    | .clearData offset len =>
      .ok { st with m := m, data := writeData st.data (fun _ => 0) offset.toNat len.toNat }
    | .setCap capSlotIndex cap =>
      .ok { st with m := m, caps := Function.update st.caps capSlotIndex.toNat (some cap) }

/-- The runs of a message that `ipc_create_msg` has returned, with its data cleared. -/
def msgRuns (m : Memory) : Lts.System MsgState MsgCall Unit where
  init st := st = ⟨m, fun _ => 0, fun _ => none⟩
  step := MsgState.step

/-! ## Sound messages -/

/-- The addresses of an area of a message. -/
def Area (offset size : ℕ) : Set ℕ := { x | offset ≤ x ∧ x < offset + size }

/-- **The areas of a message** lie in the first `sharedBufLen` bytes of the buffer, apart from each
other. -/
structure LaidOut (sharedBufLen : UInt64) (m : Memory) : Prop where
  header : ∀ x ∈ Area 0 msgSize.toNat, x < sharedBufLen.toNat
  data : ∀ x ∈ Area (ipcGetMsgData m) (IpcMsg.dataLen.get 0 m).toNat, x < sharedBufLen.toNat
  caps : ∀ x ∈ Area (IpcMsg.capSlotsOffset.get 0 m).toNat
    (8 * (IpcMsg.capSlotNumber.get 0 m).toNat), x < sharedBufLen.toNat
  header_data : ∀ x ∈ Area 0 msgSize.toNat,
    x ∉ Area (ipcGetMsgData m) (IpcMsg.dataLen.get 0 m).toNat
  header_caps : ∀ x ∈ Area 0 msgSize.toNat,
    x ∉ Area (IpcMsg.capSlotsOffset.get 0 m).toNat (8 * (IpcMsg.capSlotNumber.get 0 m).toNat)
  data_caps : ∀ x ∈ Area (ipcGetMsgData m) (IpcMsg.dataLen.get 0 m).toNat,
    x ∉ Area (IpcMsg.capSlotsOffset.get 0 m).toNat (8 * (IpcMsg.capSlotNumber.get 0 m).toNat)

/-- **A message holds what was written last**; `unset` is what a capability is that was not set. -/
structure MsgState.Holds (dataLen capSlotNumber unset : UInt64) (st : MsgState) : Prop where
  data : ∀ x < dataLen.toNat, st.m (ipcGetMsgData st.m + x) = st.data x
  caps : ∀ i : UInt64, ipcGetMsgCap i st.m = match st.caps i.toNat with
    | some cap => cap.toUInt64
    | none => if i < capSlotNumber then unset else -1
  rejected : ∀ call : MsgCall, (call.run st.m).1 ≠ 0 → (call.run st.m).2 = st.m

/-- **A message is sound**: if `ipc_create_msg` returns it, it is laid out in the part of the buffer
that the kernel has returned the size of, and after any calls it holds what was written last. -/
def MsgSound (mapped serverBufSize dataLen capSlotNumber unset : UInt64) (m : Memory) : Prop :=
  ∀ m', ipcCreateMsgIn mapped dataLen capSlotNumber m = .ok m' →
    LaidOut (min serverBufSize clientBufSize) m' ∧
    ∀ st, (msgRuns m').Reachable st → st.Holds dataLen capSlotNumber unset

/-! ## The header -/

/-- The header of a message. -/
structure Msg (len slots : UInt64) (m : Memory) : Prop where
  dataLen : IpcMsg.dataLen.get 0 m = len
  capSlotNumber : IpcMsg.capSlotNumber.get 0 m = slots
  dataOffset : ipcGetMsgData m = msgSize.toNat
  capSlotsOffset : IpcMsg.capSlotsOffset.get 0 m = msgSize + len

/-- The size of a message. -/
def msgTotal (dataLen capSlotNumber : UInt64) : ℕ :=
  msgSize.toNat + dataLen.toNat + 8 * capSlotNumber.toNat

section

variable {dataLen capSlotNumber mapped serverBufSize : UInt64} {m m' : Memory}

theorem Msg.store (h : Msg dataLen capSlotNumber m) {a n : ℕ} (b : Bytes n)
    (ha : msgSize.toNat ≤ a) : Msg dataLen capSlotNumber (Layout.store m a b) := by
  have hkeep : ∀ f : Slot UInt64, f.offset + f.size ≤ msgSize.toNat →
      f.get 0 (Layout.store m a b) = f.get 0 m := by
    intro f hf
    rw [Slot.get, load_store_of_disjoint, Slot.get]
    omega
  refine ⟨?_, ?_, ?_, ?_⟩
  · rw [hkeep _ (by decide), h.dataLen]
  · rw [hkeep _ (by decide), h.capSlotNumber]
  · rw [ipcGetMsgData_store b ha, h.dataOffset]
  · rw [hkeep _ (by decide), h.capSlotsOffset]

theorem msg_msgHeader (dataLen capSlotNumber : UInt64) (m : Memory) :
    Msg dataLen capSlotNumber (msgHeader dataLen capSlotNumber m) := by
  refine ⟨?_, ?_, ipcGetMsgData_msgHeader _ _ _, ?_⟩
  · rw [msgHeader, Slot.get_put_of_disjoint _ _ _ _ _ _ (by decide),
      Slot.get_put_of_disjoint _ _ _ _ _ _ (by decide),
      Slot.get_put_of_disjoint _ _ _ _ _ _ (by decide), Slot.get_put]
    exact Slot.u64_dec_enc _ _
  · rw [msgHeader, Slot.get_put_of_disjoint _ _ _ _ _ _ (by decide),
      Slot.get_put_of_disjoint _ _ _ _ _ _ (by decide), Slot.get_put]
    exact Slot.u64_dec_enc _ _
  · rw [msgHeader, Slot.get_put]
    exact Slot.u64_dec_enc _ _

theorem toNat_add_eq {a b : UInt64} (h : a.toNat + b.toNat < 2 ^ 64) :
    (a + b).toNat = a.toNat + b.toNat := by
  rw [UInt64.toNat_add, Nat.mod_eq_of_lt h]

theorem toNat_capSlotsOffset (hfit : msgTotal dataLen capSlotNumber < 2 ^ 64) :
    (msgSize + dataLen).toNat = msgSize.toNat + dataLen.toNat :=
  toNat_add_eq ((Nat.le_add_right _ _).trans_lt hfit)

theorem toNat_msgTotal (hfit : msgTotal dataLen capSlotNumber < 2 ^ 64) :
    (msgSize + dataLen + 8 * capSlotNumber).toNat = msgTotal dataLen capSlotNumber := by
  have hslots : (8 * capSlotNumber).toNat = 8 * capSlotNumber.toNat := by
    rw [UInt64.toNat_mul, show (8 : UInt64).toNat = 8 by rfl, Nat.mod_eq_of_lt]
    unfold msgTotal at hfit
    omega
  rw [msgTotal] at hfit
  rw [toNat_add_eq, toNat_capSlotsOffset hfit, hslots, msgTotal]
  rw [toNat_capSlotsOffset hfit, hslots]
  exact hfit

section

variable (h : Msg dataLen capSlotNumber m) (hfit : msgTotal dataLen capSlotNumber < 2 ^ 64)

include h hfit

theorem Msg.setCap {i : ℕ} (hi : i < capSlotNumber.toNat) (cap : UInt32) :
    ipcSetMsgCap i cap m =
      IpcMsg.cap.put (msgSize.toNat + dataLen.toNat + 8 * i) cap.toUInt64 m := by
  rw [ipcSetMsgCap, h.capSlotNumber, if_neg (by omega), h.capSlotsOffset, toNat_capSlotsOffset hfit]

theorem Msg.getCap (i : UInt64) :
    ipcGetMsgCap i m = if i < capSlotNumber then
      IpcMsg.cap.get (msgSize.toNat + dataLen.toNat + 8 * i.toNat) m else -1 := by
  rw [ipcGetMsgCap, h.capSlotNumber, h.capSlotsOffset, toNat_capSlotsOffset hfit]
  by_cases hi : i < capSlotNumber
  · rw [if_pos hi, if_neg (UInt64.not_le.mpr hi)]
  · rw [if_neg hi, if_pos (UInt64.not_lt.mp hi)]

end

/-! ## A new message -/

/-- The capability that `ipc_create_msg` leaves in every slot: `-1`, as a number of 32 bits. -/
def placeholder : UInt64 := 0xffffffff

theorem fold_setMsgCap (h : Msg dataLen capSlotNumber m)
    (hfit : msgTotal dataLen capSlotNumber < 2 ^ 64) {k : ℕ} (hk : k ≤ capSlotNumber.toNat) :
    Msg dataLen capSlotNumber ((List.range k).foldl (fun m i => ipcSetMsgCap i (-1) m) m) ∧
      (∀ x < msgSize.toNat + dataLen.toNat,
        (List.range k).foldl (fun m i => ipcSetMsgCap i (-1) m) m x = m x) ∧
      ∀ i < k, IpcMsg.cap.get (msgSize.toNat + dataLen.toNat + 8 * i)
        ((List.range k).foldl (fun m i => ipcSetMsgCap i (-1) m) m) = placeholder := by
  induction k with
  | zero => exact ⟨h, fun _ _ => rfl, fun i hi => absurd hi (Nat.not_lt_zero i)⟩
  | succ k ih =>
    obtain ⟨hmsg, hkeep, hcaps⟩ := ih (by omega)
    rw [List.range_succ, List.foldl_append, List.foldl_cons, List.foldl_nil,
      hmsg.setCap hfit (by omega)]
    refine ⟨hmsg.store _ (by simp only [IpcMsg.cap, Slot.u64]; omega), fun x hx => ?_,
      fun i hi => ?_⟩
    · rw [← hkeep x hx]
      exact dif_neg (by simp only [IpcMsg.cap, Slot.u64]; omega)
    · rcases Nat.lt_succ_iff_lt_or_eq.mp hi with hlt | rfl
      · rw [Slot.get_put_of_disjoint _ _ _ _ _ _
          (Or.inr (by simp only [IpcMsg.cap, Slot.u64, Slot.stop]; omega)), hcaps i hlt]
      · rw [Slot.get_put]
        exact Slot.u64_dec_enc _ _

/-! ## What the calls keep -/

/-- The invariant of a message. -/
structure MsgState.Inv (dataLen capSlotNumber : UInt64) (st : MsgState) : Prop where
  msg : Msg dataLen capSlotNumber st.m
  data : ∀ x < dataLen.toNat, st.m (msgSize.toNat + x) = st.data x
  caps : ∀ i < capSlotNumber.toNat,
    IpcMsg.cap.get (msgSize.toNat + dataLen.toNat + 8 * i) st.m =
      ((st.caps i).map UInt32.toUInt64).getD placeholder
  unset : ∀ i, capSlotNumber.toNat ≤ i → st.caps i = none

/-- **What a new message holds**: its header, cleared data, and a placeholder in every slot. -/
theorem ipcCreateMsg_msg (hfit : msgTotal dataLen capSlotNumber < 2 ^ 64)
    (hm : ipcCreateMsg dataLen capSlotNumber m = .ok m') :
    (MsgState.mk m' (fun _ => 0) (fun _ => none)).Inv dataLen capSlotNumber := by
  unfold ipcCreateMsg at hm
  split_ifs at hm with hlarge
  cases hm
  simp only [ipcGetMsgData_msgHeader]
  obtain ⟨hmsg, hkeep, hcaps⟩ := fold_setMsgCap
    ((msg_msgHeader dataLen capSlotNumber m).store (0 : Bytes dataLen.toNat) le_rfl) hfit le_rfl
  refine ⟨hmsg, fun x hx => ?_, hcaps, fun _ _ => rfl⟩
  exact (hkeep _ (by omega)).trans (dif_pos (by omega))

theorem range_le_dataLen {offset len : UInt64}
    (h : ¬(offset + len < offset ∨ dataLen < offset + len)) :
    offset.toNat + len.toNat ≤ dataLen.toNat := by
  rw [UInt64.lt_iff_toNat_lt, UInt64.lt_iff_toNat_lt, UInt64.toNat_add] at h
  have := offset.toNat_lt
  have := len.toNat_lt
  omega

variable {st st' : MsgState}

theorem MsgState.Inv.write (h : st.Inv dataLen capSlotNumber) (data : ℕ → UInt8) {offset len : ℕ}
    (hrange : offset + len ≤ dataLen.toNat) :
    (MsgState.mk (Layout.store st.m (ipcGetMsgData st.m + offset) fun i : Fin len => data i)
      (writeData st.data data offset len) st.caps).Inv dataLen capSlotNumber := by
  rw [h.msg.dataOffset]
  have hmsg := h.msg.store (fun i : Fin len => data i) (Nat.le_add_right msgSize.toNat offset)
  refine ⟨hmsg, fun x hx => ?_, fun i hi => ?_, h.unset⟩
  · simp only [Layout.store, writeData]
    by_cases hin : offset ≤ x ∧ x < offset + len
    · rw [dif_pos (by omega), if_pos hin]
      congr 1
      omega
    · rw [dif_neg (by omega), if_neg hin, h.data x hx]
  · -- the capabilities lie behind the data
    rw [← h.caps i hi, Slot.get, load_store_of_disjoint, Slot.get]
    omega

theorem MsgState.Inv.cap (h : st.Inv dataLen capSlotNumber)
    (hfit : msgTotal dataLen capSlotNumber < 2 ^ 64) {i : ℕ} (hi : i < capSlotNumber.toNat)
    (cap : UInt32) :
    (MsgState.mk (ipcSetMsgCap i cap st.m) st.data
      (Function.update st.caps i (some cap))).Inv dataLen capSlotNumber := by
  rw [h.msg.setCap hfit hi]
  have hoffset : IpcMsg.cap.offset = 0 := rfl
  have hstop : IpcMsg.cap.stop = 8 := rfl
  refine ⟨h.msg.store _ (by omega), fun x hx => ?_, fun j hj => ?_, fun j hj => ?_⟩ <;>
    dsimp only
  · rw [← h.data x hx]
    exact dif_neg (by omega)
  · by_cases hij : j = i
    · subst hij
      rw [Slot.get_put, Function.update_self]
      exact Slot.u64_dec_enc _ _
    · rw [Slot.get_put_of_disjoint _ _ _ _ _ _ (by omega), h.caps j hj,
        Function.update_of_ne hij]
  · rw [Function.update_of_ne (by omega), h.unset j hj]

theorem MsgCall.run_of_ne (call : MsgCall) (h : (call.run m).1 ≠ 0) : (call.run m).2 = m := by
  cases call with
  | setData data offset len =>
    simp only [MsgCall.run, ipcSetMsgData] at h ⊢
    split_ifs at h ⊢ with hrej
    · rfl
    · exact absurd rfl h
  | clearData offset len =>
    simp only [MsgCall.run, ipcClearMsgData] at h ⊢
    split_ifs at h ⊢ with hrej
    · rfl
    · exact absurd rfl h
  | setCap i cap =>
    simp only [MsgCall.run, ipcSetMsgCap] at h ⊢
    split_ifs at h with hrej
    · exact if_pos (UInt64.le_iff_toNat_le.mp hrej)
    · exact absurd rfl h

section

variable (h : st.Inv dataLen capSlotNumber) (hfit : msgTotal dataLen capSlotNumber < 2 ^ 64)

include h hfit

/-- **What a call leaves in a message**: what was written last. -/
theorem MsgState.Inv.step {call : MsgCall} (hstep : st.step call = .ok st') :
    st'.Inv dataLen capSlotNumber := by
  unfold MsgState.step at hstep
  by_cases hret : (call.run st.m).1 ≠ 0
  · rw [if_pos hret, call.run_of_ne hret] at hstep
    exact Except.ok.inj hstep ▸ h
  rw [if_neg hret] at hstep
  cases call with
  | setData data offset len =>
    cases hstep
    simp only [MsgCall.run, ipcSetMsgData, h.msg.dataLen] at hret ⊢
    split_ifs at hret ⊢ with hrej
    · exact absurd (show (-1 : ℤ) ≠ 0 by decide) hret
    · exact h.write data (range_le_dataLen hrej)
  | clearData offset len =>
    cases hstep
    simp only [MsgCall.run, ipcClearMsgData, h.msg.dataLen] at hret ⊢
    split_ifs at hret ⊢ with hrej
    · exact absurd (show (-1 : ℤ) ≠ 0 by decide) hret
    · exact h.write (fun _ => 0) (range_le_dataLen hrej)
  | setCap i cap =>
    cases hstep
    simp only [MsgCall.run, h.msg.capSlotNumber] at hret ⊢
    split_ifs at hret with hrej
    · exact absurd (by decide) hret
    · exact h.cap hfit (UInt64.lt_iff_toNat_lt.mp (UInt64.not_le.mp hrej)) cap

theorem MsgState.Inv.holds :
    st.Holds dataLen capSlotNumber placeholder := by
  refine ⟨fun x hx => ?_, fun i => ?_, fun call hret => call.run_of_ne hret⟩
  · rw [h.msg.dataOffset, h.data x hx]
  · rw [h.msg.getCap hfit]
    by_cases hi : i < capSlotNumber
    · rw [if_pos hi, h.caps _ (UInt64.lt_iff_toNat_lt.mp hi), if_pos hi]
      cases st.caps i.toNat <;> rfl
    · have hle := UInt64.le_iff_toNat_le.mp (UInt64.not_lt.mp hi)
      rw [if_neg hi, h.unset _ hle, if_neg hi]

end

theorem Msg.laidOut_iff (h : Msg dataLen capSlotNumber m)
    (hfit : msgTotal dataLen capSlotNumber < 2 ^ 64) {sharedBufLen : UInt64} :
    LaidOut sharedBufLen m ↔ msgTotal dataLen capSlotNumber ≤ sharedBufLen.toNat := by
  have hcaps := toNat_capSlotsOffset hfit
  have hsize : msgSize.toNat = 40 := rfl
  constructor
  · intro hl
    have hheader := hl.header 39 ⟨Nat.zero_le _, by omega⟩
    have hdata := hl.data
    have hslots := hl.caps
    rw [h.dataOffset, h.dataLen] at hdata
    rw [h.capSlotsOffset, h.capSlotNumber, hcaps] at hslots
    unfold msgTotal
    -- the last byte of the last area that is not empty
    by_cases hn : capSlotNumber.toNat = 0
    · by_cases hd : dataLen.toNat = 0
      · omega
      · have := hdata (msgSize.toNat + dataLen.toNat - 1) ⟨by omega, by omega⟩
        omega
    · have := hslots (msgSize.toNat + dataLen.toNat + 8 * capSlotNumber.toNat - 1)
        ⟨by omega, by omega⟩
      omega
  · unfold msgTotal
    intro hle
    refine ⟨?_, ?_, ?_, ?_, ?_, ?_⟩ <;>
      simp only [h.dataOffset, h.dataLen, h.capSlotsOffset, h.capSlotNumber, hcaps, Area,
        Set.mem_ofPred_eq] <;> omega

theorem exists_ipcCreateMsg_iff (hfit : msgTotal dataLen capSlotNumber < 2 ^ 64) :
    (∃ m', ipcCreateMsg dataLen capSlotNumber m = .ok m') ↔
      msgTotal dataLen capSlotNumber ≤ clientBufSize.toNat := by
  have htotal := toNat_msgTotal hfit
  unfold ipcCreateMsg
  split_ifs with hlarge <;> rw [UInt64.lt_iff_toNat_lt, htotal] at hlarge
  · simp only [exists_false, false_iff]
    omega
  · simp only [Except.ok.injEq, exists_eq', true_iff]
    omega

theorem ipcCreateMsgIn_eq_ok : ipcCreateMsgIn mapped dataLen capSlotNumber m = .ok m' ↔
    ipcCreateMsg dataLen capSlotNumber m = .ok m' ∧
      msgTotal dataLen capSlotNumber ≤ mapped.toNat := by
  have hmapped : (msgSize.toNat + dataLen.toNat ≤ mapped.toNat ∧
      (msgSize + dataLen).toNat + 8 * capSlotNumber.toNat ≤ mapped.toNat) ↔
      msgTotal dataLen capSlotNumber ≤ mapped.toNat := by
    constructor
    · rintro ⟨hdata, hcaps⟩
      rw [toNat_add_eq (hdata.trans_lt mapped.toNat_lt)] at hcaps
      exact hcaps
    · intro hle
      rw [toNat_capSlotsOffset (hle.trans_lt mapped.toNat_lt)]
      exact ⟨(Nat.le_add_right _ _).trans hle, hle⟩
  simp only [ipcCreateMsgIn, Fallible.bind_eq_ok, access_eq_ok, pure, Except.pure,
    Except.ok.injEq, hmapped]
  constructor
  · rintro ⟨m₁, hm, -, hle, rfl⟩
    exact ⟨hm, hle⟩
  · rintro ⟨hm, hle⟩
    exact ⟨m', hm, (), hle, rfl⟩

/-- **`ipc_create_msg` returns** if the message is not larger than `CLIENT_BUF_SIZE`, and its memory
is mapped. -/
def Returns (mapped dataLen capSlotNumber : UInt64) : Prop :=
  msgTotal dataLen capSlotNumber ≤ clientBufSize.toNat ∧
    msgTotal dataLen capSlotNumber ≤ mapped.toNat

instance : Decidable (Returns mapped dataLen capSlotNumber) :=
  inferInstanceAs (Decidable (_ ∧ _))

/-- **A message fits the shared buffer** of a connection. -/
def Fits (serverBufSize dataLen capSlotNumber : UInt64) : Prop :=
  msgTotal dataLen capSlotNumber ≤ (min serverBufSize clientBufSize).toNat

instance : Decidable (Fits serverBufSize dataLen capSlotNumber) :=
  inferInstanceAs (Decidable (_ ≤ _))

theorem exists_ipcCreateMsgIn_iff : (∃ m', ipcCreateMsgIn mapped dataLen capSlotNumber m = .ok m') ↔
    Returns mapped dataLen capSlotNumber := by
  simp only [ipcCreateMsgIn_eq_ok, exists_and_right]
  constructor
  · rintro ⟨hex, hle⟩
    exact ⟨(exists_ipcCreateMsg_iff (hle.trans_lt mapped.toNat_lt)).mp hex, hle⟩
  · rintro ⟨hbuf, hle⟩
    exact ⟨(exists_ipcCreateMsg_iff (hle.trans_lt mapped.toNat_lt)).mpr hbuf, hle⟩

/-! ## Which messages are sound -/

theorem msgRuns_inv (hm : ipcCreateMsgIn mapped dataLen capSlotNumber m = .ok m')
    (hr : (msgRuns m').Reachable st) : st.Inv dataLen capSlotNumber := by
  obtain ⟨hm, hle⟩ := ipcCreateMsgIn_eq_ok.mp hm
  have hfit := hle.trans_lt mapped.toNat_lt
  refine hr.invariant (fun st₀ hinit => ?_) (fun st₀ call st₁ hinv _ hstep => ?_)
  · exact hinit ▸ ipcCreateMsg_msg hfit hm
  · exact hinv.step hfit hstep

theorem msgSound_unset_iff (unset : UInt64) :
    MsgSound mapped serverBufSize dataLen capSlotNumber unset m ↔
      ¬ Returns mapped dataLen capSlotNumber ∨
        Fits serverBufSize dataLen capSlotNumber ∧ (capSlotNumber = 0 ∨ unset = placeholder) := by
  by_cases hret : Returns mapped dataLen capSlotNumber
  swap
  · refine iff_of_true (fun m' hm => ?_) (Or.inl hret)
    exact absurd (exists_ipcCreateMsgIn_iff.mp ⟨m', hm⟩) hret
  have hfit : msgTotal dataLen capSlotNumber < 2 ^ 64 := hret.2.trans_lt mapped.toNat_lt
  rw [or_iff_right (not_not.mpr hret)]
  constructor
  · intro hs
    obtain ⟨m', hm⟩ := exists_ipcCreateMsgIn_iff.mpr hret
    have hinit : (msgRuns m').Reachable ⟨m', fun _ => 0, fun _ => none⟩ := .init rfl
    have hinv := msgRuns_inv hm hinit
    obtain ⟨hl, hh⟩ := hs m' hm
    refine ⟨(hinv.msg.laidOut_iff hfit).mp hl, ?_⟩
    -- the first capability right after the message was created
    by_cases hn : capSlotNumber = 0
    · exact Or.inl hn
    have hpos : 0 < capSlotNumber := UInt64.pos_iff_ne_zero.mpr hn
    have hleft := (hh _ hinit).caps 0
    have hright := (hinv.holds hfit).caps 0
    simp only [if_pos hpos] at hleft hright
    exact Or.inr (hleft.symm.trans hright)
  · rintro ⟨hbuf, hunset⟩ m' hm
    refine ⟨((msgRuns_inv hm (.init rfl)).msg.laidOut_iff hfit).mpr hbuf, fun st hr => ?_⟩
    have hh := (msgRuns_inv hm hr).holds hfit
    rcases hunset with rfl | rfl
    · refine ⟨hh.data, fun i => ?_, hh.rejected⟩
      rw [hh.caps i]
      simp only [UInt64.not_lt_zero, if_false]
    · exact hh

/-- **Which messages are sound.**  A message that is returned is sound if it fits the shared buffer
and has no capabilities.  If the slots that were not set are expected to hold the placeholder, it
is enough that it fits.

**Proof sketch.** No size wraps around, or the message would reach over the end of the memory.  Then
the areas follow each other, and the last one ends where the message does.  The capabilities are
`-1` of 32 bits after the message was created, which is not `-1` of 64 bits. -/
theorem msgSound_iff (mapped serverBufSize dataLen capSlotNumber : UInt64) (m : Memory) :
    (MsgSound mapped serverBufSize dataLen capSlotNumber (-1) m ↔
      ¬ Returns mapped dataLen capSlotNumber ∨
        Fits serverBufSize dataLen capSlotNumber ∧ capSlotNumber = 0) ∧
    (MsgSound mapped serverBufSize dataLen capSlotNumber placeholder m ↔
      ¬ Returns mapped dataLen capSlotNumber ∨ Fits serverBufSize dataLen capSlotNumber) := by
  constructor
  · rw [msgSound_unset_iff, or_iff_left (show (-1 : UInt64) ≠ placeholder by decide)]
  · rw [msgSound_unset_iff]
    simp only [or_true, and_true]

/-- A message with one capability: the slot that was not set reads as `0xffffffff`.  And a message
of 8232 bytes, with a server that has offered a buffer of 4096 bytes: it is returned, where an
earlier connection has left more memory mapped. -/
theorem not_msgSound :
    (∃ m', ipcCreateMsgIn 0x4000 0 1 (fun _ => 0) = .ok m' ∧ ipcGetMsgCap 0 m' = 0xffffffff) ∧
    ¬ MsgSound 0x4000 0x4000 0 1 (-1) (fun _ => 0) ∧
    Returns 0x4000 0x2000 0 ∧ ¬ MsgSound 0x4000 0x1000 0x2000 0 (-1) (fun _ => 0) := by
  have hone : Returns 0x4000 0 1 := by decide
  have htwo : Returns 0x4000 0x2000 0 := by decide
  refine ⟨⟨_, rfl, by decide⟩, ?_, htwo, ?_⟩
  · rw [msgSound_unset_iff]
    rintro (hret | ⟨-, hzero | hunset⟩)
    · exact hret hone
    · exact absurd hzero (by decide)
    · exact absurd hunset (by decide)
  · rw [msgSound_unset_iff]
    rintro (hret | ⟨hbuf, -⟩)
    · exact hret htwo
    · exact absurd hbuf (by decide)

end

end Ginkgo.User
