import Ginkgo.Lib.Layout
import Ginkgo.Machine

/-!
# Messages in the shared buffer

The part of `user-test/lib/ipc.c` that lays out a message in the buffer that a client shares with
a server: a header, the data, and the capabilities.  Addresses are offsets in the buffer.

## Main results

* `ipcCreateMsg_eq` — a message without capabilities that fits the buffer is created
  with its data cleared.
-/

namespace Ginkgo.User

open Layout

/-- `CLIENT_BUF_SIZE`. -/
def clientBufSize : UInt64 := 0x4000

/-- `sizeof(ipc_msg_t)`. -/
def msgSize : UInt64 := 40

namespace IpcMsg

/-- `data_len`. -/
def dataLen : Slot UInt64 := .u64 8

/-- `cap_slot_number`. -/
def capSlotNumber : Slot UInt64 := .u64 16

/-- `data_offset`. -/
def dataOffset : Slot UInt64 := .u64 24

/-- `cap_slots_offset`. -/
def capSlotsOffset : Slot UInt64 := .u64 32

/-- A capability. -/
def cap : Slot UInt64 := .u64 0

end IpcMsg

/-- `ipc_get_msg_data`. -/
def ipcGetMsgData (m : Memory) : ℕ := (IpcMsg.dataOffset.get 0 m).toNat

/-- `ipc_set_msg_cap`, which takes a capability of 32 bits. -/
def ipcSetMsgCap (capSlotIndex : ℕ) (cap : UInt32) (m : Memory) : Memory :=
  if (IpcMsg.capSlotNumber.get 0 m).toNat ≤ capSlotIndex then m
  else
    IpcMsg.cap.put ((IpcMsg.capSlotsOffset.get 0 m).toNat + 8 * capSlotIndex) cap.toUInt64 m

/-- The header of a message. -/
def msgHeader (dataLen capSlotNumber : UInt64) (m : Memory) : Memory :=
  let m := IpcMsg.dataLen.put 0 dataLen m
  let m := IpcMsg.capSlotNumber.put 0 capSlotNumber m
  let m := IpcMsg.dataOffset.put 0 msgSize m
  IpcMsg.capSlotsOffset.put 0 (msgSize + dataLen) m

/-- `ipc_create_msg`.  Where the message is too large the source loops forever. -/
def ipcCreateMsg (dataLen capSlotNumber : UInt64) (m : Memory) : Except Fault Memory :=
  if clientBufSize < msgSize + dataLen + 8 * capSlotNumber then .error .panic
  else
    let m := msgHeader dataLen capSlotNumber m
    let m := store m (ipcGetMsgData m) (0 : Bytes dataLen.toNat)
    .ok ((List.range capSlotNumber.toNat).foldl (fun m i => ipcSetMsgCap i (-1) m) m)

/-- A message without capabilities, with its data cleared. -/
def clearedMsg (dataLen : UInt64) (m : Memory) : Memory :=
  store (msgHeader dataLen 0 m) msgSize.toNat (0 : Bytes dataLen.toNat)

theorem ipcGetMsgData_msgHeader (dataLen capSlotNumber : UInt64) (m : Memory) :
    ipcGetMsgData (msgHeader dataLen capSlotNumber m) = msgSize.toNat := by
  rw [ipcGetMsgData, msgHeader, Slot.get_put_of_disjoint _ _ _ _ _ _ (by decide), Slot.get_put,
    IpcMsg.dataOffset, Slot.u64_dec_enc]

/-- **A message is created** if it fits the buffer. -/
theorem ipcCreateMsg_eq {dataLen : UInt64} (h : msgSize.toNat + dataLen.toNat ≤ clientBufSize.toNat)
    (m : Memory) : ipcCreateMsg dataLen 0 m = .ok (clearedMsg dataLen m) := by
  have hfit : ¬ clientBufSize < msgSize + dataLen + 8 * 0 := by
    have hsum : (msgSize + dataLen).toNat = msgSize.toNat + dataLen.toNat := by
      rw [UInt64.toNat_add, Nat.mod_eq_of_lt]
      exact h.trans_lt (by decide)
    rw [UInt64.mul_zero, UInt64.add_zero, UInt64.lt_iff_toNat_lt, hsum]
    omega
  rw [ipcCreateMsg, if_neg hfit]
  simp only [ipcGetMsgData_msgHeader]
  rfl

theorem ipcGetMsgData_store {m : Memory} {a n : ℕ} (b : Bytes n) (ha : msgSize.toNat ≤ a) :
    ipcGetMsgData (store m a b) = ipcGetMsgData m := by
  have hstop : IpcMsg.dataOffset.offset + IpcMsg.dataOffset.size ≤ msgSize.toNat := by decide
  rw [ipcGetMsgData, Slot.get, load_store_of_disjoint, ipcGetMsgData, Slot.get]
  omega

@[simp] theorem ipcGetMsgData_clearedMsg (dataLen : UInt64) (m : Memory) :
    ipcGetMsgData (clearedMsg dataLen m) = msgSize.toNat := by
  rw [clearedMsg, ipcGetMsgData_store _ le_rfl, ipcGetMsgData_msgHeader]

end Ginkgo.User
