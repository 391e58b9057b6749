import Mathlib.Tactic
import FpgaMl.UnimemMessages

/-! # UnimemManager (unimem_utils.h, unimem_manager.cc)

The library's side of the device file. All messages are packed into one static buffer; the address
record that the driver answers with is opaque here, and is only sent back. -/
namespace FpgaMl
open ByteMemory MachineInt
set_option autoImplicit false

/-- `UnimemPtr`: the bytes of the address record, `none` is NULL, and their number. -/
structure UnimemPtr where
  ptr : Option (List UInt8)
  ptrSize : ℕ
  deriving DecidableEq, Repr

/-- The static message buffer and the driver behind the open file. -/
structure Unimem where
  readWriteBuffer : List UInt8
  driver : Driver

namespace Unimem

/-! ## The messages (unimem_utils.h) -/

def writeAllocRequest (u : Unimem) (env : KernelEnv) (allocRequest : ℕ) : ℤ × Unimem :=
  let buffer := overlay (overlay u.readWriteBuffer 0 ['C'.toUInt8]) 1 (le 8 allocRequest)
  let (rc, driver) := u.driver.devWrite env (buffer.take 9)
  if rc = 0 then (-1, ⟨buffer, driver⟩)
  else if rc < 0 then (-1, ⟨buffer, driver⟩)
  else (rc, ⟨buffer, driver⟩)

/-- `read_alloc_response`: the record it copies out, `none` is the return code -1. -/
def readAllocResponse (u : Unimem) (unimemAddrLen : ℕ) : Option (List UInt8) × Unimem :=
  let (rc, bs, driver) := u.driver.devRead 100
  let buffer := overlay u.readWriteBuffer 0 bs
  if rc = 0 then (none, ⟨buffer, driver⟩)
  else if rc < 0 then (none, ⟨buffer, driver⟩)
  else if buffer.head? ≠ some 'z'.toUInt8 then (none, ⟨buffer, driver⟩)
  else if (unimemAddrLen : ℤ) < rc then (none, ⟨buffer, driver⟩)
  else (some (slice buffer 1 (rc.toNat - 1)), ⟨buffer, driver⟩)

/-- `write_destroy_request`; the answer is only logged. -/
def writeDestroyRequest (u : Unimem) (env : KernelEnv) (addr : UnimemPtr) : Unimem :=
  let buffer := overlay (overlay u.readWriteBuffer 0 ['D'.toUInt8]) 1 (addr.ptr.getD [])
  ⟨buffer, (u.driver.devWrite env (buffer.take (addr.ptrSize + 1))).2⟩

/-- The two requests that move user data differ in their type only. -/
def dataRequest (type : UInt8) (u : Unimem) (env : KernelEnv) (addr : UnimemPtr)
    (userBuffer userBufferLen : ℕ) : ℤ × Unimem :=
  let buffer := overlay u.readWriteBuffer 0 [type]
  let buffer := overlay buffer 1 (addr.ptr.getD [])
  let buffer := overlay buffer (1 + addr.ptrSize) (le 8 userBuffer)
  let buffer := overlay buffer (1 + addr.ptrSize + 8) (le 8 userBufferLen)
  let (rc, driver) := u.driver.devWrite env (buffer.take (1 + addr.ptrSize + 8 + 8))
  (rc, ⟨buffer, driver⟩)

def copyUserBufferToUnimem (u : Unimem) (env : KernelEnv) (addr : UnimemPtr)
    (userBuffer userBufferLen : ℕ) : ℤ × Unimem :=
  dataRequest 'W'.toUInt8 u env addr userBuffer userBufferLen

def copyUnimemBufferToUser (u : Unimem) (env : KernelEnv) (userBuffer userBufferLen : ℕ)
    (addr : UnimemPtr) : ℤ × Unimem :=
  dataRequest 'R'.toUInt8 u env addr userBuffer userBufferLen

/-! ## The manager (unimem_manager.cc) -/

def allocateUnimem (u : Unimem) (env : KernelEnv) (size : ℕ) : UnimemPtr × Unimem :=
  let (rc, u) := u.writeAllocRequest env size
  if rc < 0 then (⟨none, 0⟩, u)
  else
    let (record, u) := u.readAllocResponse 100
    match record with
    | none => (⟨none, 0⟩, u)
    | some record => (⟨some record, record.length⟩, u)

def releaseUnimem (u : Unimem) (env : KernelEnv) (ptr : UnimemPtr) : Unimem :=
  u.writeDestroyRequest env ptr

def copyToUnimem (u : Unimem) (env : KernelEnv) (ptr : UnimemPtr) (bufPtr bufSize : ℕ) :
    Bool × Unimem :=
  let (rc, u) := u.copyUserBufferToUnimem env ptr bufPtr bufSize
  if rc < 0 then (false, u) else (true, u)

def copyFromUnimem (u : Unimem) (env : KernelEnv) (bufPtr : ℕ) (ptr : UnimemPtr) (bufSize : ℕ) :
    Bool × Unimem :=
  let (rc, u) := u.copyUnimemBufferToUser env bufPtr bufSize ptr
  if rc < 0 then (false, u) else (true, u)

end Unimem

/-! ## What the calls do -/

namespace UnimemPtr

def of (a : UnimemAddr) : UnimemPtr := ⟨some a.encode, 24⟩

end UnimemPtr

namespace Unimem

variable {u : Unimem} {env : KernelEnv} {size : ℕ}

/-- What is packed into the buffer is sent, whatever the buffer held. -/
theorem take_packed (buffer a b : List UInt8) {off len : ℕ} (hoff : off = a.length)
    (hlen : len = a.length + b.length) :
    (overlay (overlay buffer 0 a) off b).take len = a ++ b := by
  rw [overlay_overlay buffer a b hoff]
  exact take_overlay _ _ (by rw [List.length_append, hlen])

theorem take_dataRequest (buffer : List UInt8) (type : UInt8) (a : UnimemAddr) (ptr len : ℕ) :
    (overlay (overlay (overlay (overlay buffer 0 [type]) 1 a.encode) (1 + 24) (le 8 ptr))
      (1 + 24 + 8) (le 8 len)).take (1 + 24 + 8 + 8) = Driver.dataMessage type a ptr len := by
  rw [overlay_overlay buffer [type] a.encode (show 1 = [type].length from rfl),
    overlay_overlay buffer _ (le 8 ptr) (by simp), take_packed buffer _ _ (by simp) (by simp)]
  simp [Driver.dataMessage]

/-- An allocation request passes on the driver's answer, where an empty one is an error. -/
theorem writeAllocRequest_of {rc : ℤ} {d : Driver}
    (h : u.driver.devWrite env ('C'.toUInt8 :: le 8 size) = (rc, d)) :
    ∃ v : Unimem, u.writeAllocRequest env size = (if rc ≤ 0 then -1 else rc, v) ∧ v.driver = d := by
  have hsent := take_packed u.readWriteBuffer ['C'.toUInt8] (le 8 size) (show 1 = _ from rfl)
    (show 9 = _ by simp)
  unfold writeAllocRequest
  dsimp only
  rw [hsent, List.singleton_append, h]
  obtain hneg | rfl | hpos := lt_trichotomy rc 0
  · rw [if_pos hneg.le, if_neg hneg.ne, if_pos hneg]
    exact ⟨_, rfl, rfl⟩
  · exact ⟨_, rfl, rfl⟩
  · rw [if_neg hpos.not_ge, if_neg hpos.ne', if_neg hpos.not_gt]
    exact ⟨_, rfl, rfl⟩

theorem readAllocResponse_driver (u : Unimem) (len : ℕ) :
    (u.readAllocResponse len).2.driver = (u.driver.devRead 100).2.2 := by
  unfold readAllocResponse
  dsimp only
  split
  · rfl
  split
  · rfl
  split
  · rfl
  split <;> rfl

theorem readAllocResponse_record {u : Unimem} {len : ℕ} {rc : ℤ} {record : List UInt8} {d : Driver}
    (hlen : 25 ≤ len) (h : u.driver.devRead 100 = (rc, 'z'.toUInt8 :: record, d)) :
    (u.readAllocResponse len).1 = some record ∧ (u.readAllocResponse len).2.driver = d := by
  refine ⟨?_, by rw [readAllocResponse_driver, h]⟩
  obtain ⟨rfl, hrecord, -⟩ := Driver.devRead_record h
  have hcopied : slice (overlay u.readWriteBuffer 0 ('z'.toUInt8 :: record)) 1
      ((25 : ℤ).toNat - 1) = record := by
    rw [overlay_zero, List.cons_append, slice_cons]
    exact slice_left (by rw [hrecord, UnimemAddr.length_encode]; rfl)
  unfold readAllocResponse
  rw [h]
  dsimp only
  rw [hcopied, if_neg (by norm_num), if_neg (by norm_num), if_neg (by rw [overlay_zero]; simp),
    if_neg (by omega)]

theorem readAllocResponse_pending (hz : u.driver.returnMsg.type = 'z'.toUInt8) :
    ∃ v : Unimem, u.readAllocResponse 100 = (some u.driver.returnMsg.unidress.encode, v) ∧
      v.driver = { u.driver with returnMsg.type := 0 } := by
  have hread := Driver.devRead_pending hz (show 25 ≤ 100 by norm_num)
  obtain ⟨hrecord, hdriver⟩ := readAllocResponse_record (show 25 ≤ 100 by norm_num) hread
  exact ⟨_, Prod.ext hrecord rfl, hdriver⟩

theorem allocateUnimem_refused (u : Unimem) (hs : size < 2 ^ 64) (hv : env.vmalloc = none) :
    ∃ v : Unimem, u.allocateUnimem env size = (⟨none, 0⟩, v) ∧
      v.driver = { u.driver with returnMsg.unidress :=
        { u.driver.returnMsg.unidress with kernelVirtAddr := 0, busAddr := 13 } } := by
  have hwrite := u.driver.devWrite_encode env (q := .alloc size) hs
  rw [Driver.perform] at hwrite
  rw [hv] at hwrite
  obtain ⟨v, hv, hdriver⟩ := writeAllocRequest_of hwrite
  refine ⟨v, ?_, hdriver⟩
  unfold allocateUnimem
  rw [hv]
  rfl

theorem allocateUnimem_granted (u : Unimem) {base : ℕ} {fill : ℕ → UInt8} (hs : size < 2 ^ 64)
    (hv : env.vmalloc = some (base, fill)) :
    ∃ v : Unimem, u.allocateUnimem env size = (UnimemPtr.of ⟨base, 13, size⟩, v) ∧
      v.driver = { u.driver with
        returnMsg := ⟨0, ⟨base, 13, size⟩⟩
        memory := copy u.driver.memory fill base base size
        live := (base, size) :: u.driver.live } := by
  have hwrite := u.driver.devWrite_encode env (q := .alloc size) hs
  rw [Driver.perform] at hwrite
  rw [hv] at hwrite
  obtain ⟨v, hv, hdriver⟩ := writeAllocRequest_of hwrite
  obtain ⟨w, hw, hreply⟩ := readAllocResponse_pending (u := v) (by rw [hdriver])
  refine ⟨w, ?_, ?_⟩
  · unfold allocateUnimem
    rw [hv]
    dsimp only
    rw [if_neg (by norm_num), hw, hdriver]
    simp [UnimemPtr.of]
  · rw [hreply, hdriver]

theorem releaseUnimem_driver (u : Unimem) (env : KernelEnv) {a : UnimemAddr}
    (ha : UnimemAddr.decode a.encode = a) :
    (u.releaseUnimem env (UnimemPtr.of a)).driver =
      { u.driver with live := u.driver.live.filter fun block => block.1 != a.kernelVirtAddr } := by
  have hsent := take_packed u.readWriteBuffer ['D'.toUInt8] a.encode (show 1 = _ from rfl)
    (show 24 + 1 = _ by simp)
  unfold releaseUnimem writeDestroyRequest UnimemPtr.of
  dsimp only [Option.getD_some]
  have hwrite := u.driver.devWrite_encode env (q := .destroy a) (UnimemAddr.inRange_of_decode ha)
  rw [hsent]
  exact congrArg Prod.snd hwrite

theorem dataRequest_of (u : Unimem) (env : KernelEnv) (type : UInt8) (a : UnimemAddr) (ptr len : ℕ) :
    ∃ v : Unimem, dataRequest type u env (UnimemPtr.of a) ptr len =
        ((u.driver.devWrite env (Driver.dataMessage type a ptr len)).1, v) ∧
      v.driver = (u.driver.devWrite env (Driver.dataMessage type a ptr len)).2 := by
  unfold dataRequest UnimemPtr.of
  dsimp only [Option.getD_some]
  rw [take_dataRequest]
  exact ⟨_, rfl, rfl⟩

/-- The manager reports a copy to a buffer as good when the truncated fault count is zero. -/
theorem copyToUnimem_of (u : Unimem) (env : KernelEnv) {a : UnimemAddr} {ptr : ℕ}
    (ha : UnimemAddr.decode a.encode = a) (hp : ptr < 2 ^ 64) (hs : size < 2 ^ 64) :
    ∃ v : Unimem, u.copyToUnimem env (UnimemPtr.of a) ptr size =
        (decide (u32 env.uncopied = 0), v) ∧
      v.driver = { u.driver with
        memory := u.driver.copyFromUser a.kernelVirtAddr ptr size env.uncopied } := by
  obtain ⟨v, hv, hdriver⟩ := dataRequest_of u env 'W'.toUInt8 a ptr size
  have hwrite := u.driver.devWrite_encode env (q := .write a ptr size)
    ⟨UnimemAddr.inRange_of_decode ha, hp, hs⟩
  rw [Request.encode, Driver.perform] at hwrite
  rw [hwrite] at hv hdriver
  refine ⟨v, ?_, hdriver⟩
  unfold copyToUnimem copyUserBufferToUnimem
  rw [hv]
  by_cases h : u32 env.uncopied = 0
  · simp [h]
  · simp [h]

theorem copyFromUnimem_of (u : Unimem) (env : KernelEnv) {a : UnimemAddr} {ptr : ℕ}
    (ha : UnimemAddr.decode a.encode = a) (hp : ptr < 2 ^ 64) (hs : size < 2 ^ 64) :
    ∃ v : Unimem, u.copyFromUnimem env ptr (UnimemPtr.of a) size =
        (decide (u32 env.uncopied = 0), v) ∧
      v.driver = { u.driver with
        user := u.driver.copyToUser ptr a.kernelVirtAddr size env.uncopied } := by
  obtain ⟨v, hv, hdriver⟩ := dataRequest_of u env 'R'.toUInt8 a ptr size
  have hwrite := u.driver.devWrite_encode env (q := .read a ptr size)
    ⟨UnimemAddr.inRange_of_decode ha, hp, hs⟩
  rw [Request.encode, Driver.perform] at hwrite
  rw [hwrite] at hv hdriver
  refine ⟨v, ?_, hdriver⟩
  unfold copyFromUnimem copyUnimemBufferToUser
  rw [hv]
  by_cases h : u32 env.uncopied = 0
  · simp [h]
  · simp [h]

end Unimem

end FpgaMl
