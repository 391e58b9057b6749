import Mathlib.Tactic
import FpgaMl.UnimemManager

/-! # The two ends of the device file

What the library packs for a request is the request's encoding, `dev_write` routes it to the handler
of its type and finds the same fields there, and the record of a reply comes back unchanged. -/
namespace FpgaMl
open MachineInt ByteMemory
set_option autoImplicit false

namespace Driver

/-- The handler of a request. -/
def handler (d : Driver) (env : KernelEnv) : Request → List UInt8 → ℕ → ℤ × Driver
  | .alloc _ => d.handleWriteC env
  | .destroy _ => d.handleWriteD
  | .write _ _ _ => d.handleWriteW env
  | .read _ _ _ => d.handleWriteR env

/-- The message as it stands in `k_buf`. -/
def kBuf (message : List UInt8) : List UInt8 := message ++ List.replicate (41 - message.length) 0

theorem kBuf_cons (type : UInt8) (body : List UInt8) :
    kBuf (type :: body) = type :: (body ++ List.replicate (40 - body.length) 0) := by
  have hpad : 41 - (body.length + 1) = 40 - body.length := by omega
  rw [kBuf, List.length_cons, List.cons_append, hpad]

theorem devWrite_routed (d : Driver) (env : KernelEnv) (q : Request) :
    d.devWrite env q.encode = d.handler env q (kBuf q.encode) q.encode.length := by
  cases q with
  | alloc size =>
    rw [Request.encode, devWrite_cons _ _ _ (by simp), kBuf_cons]
    exact if_pos rfl
  | destroy addr =>
    rw [Request.encode, devWrite_cons _ _ _ (by simp), kBuf_cons]
    dsimp only
    rw [if_neg (by decide), if_pos rfl]
    rfl
  | write addr userBuffer userBufferLen =>
    rw [Request.encode, dataMessage, devWrite_cons _ _ _ (by simp), kBuf_cons]
    dsimp only
    rw [if_neg (by decide), if_neg (by decide), if_pos rfl]
    rfl
  | read addr userBuffer userBufferLen =>
    rw [Request.encode, dataMessage, devWrite_cons _ _ _ (by simp), kBuf_cons]
    dsimp only
    rw [if_neg (by decide), if_neg (by decide), if_neg (by decide), if_pos rfl]
    rfl

end Driver

namespace Unimem

/-! ## The bytes passed to `write`, packed over what the buffer holds -/

def allocBytes (buffer : List UInt8) (allocRequest : ℕ) : List UInt8 :=
  (overlay (overlay buffer 0 ['C'.toUInt8]) 1 (le 8 allocRequest)).take 9

def destroyBytes (buffer : List UInt8) (addr : UnimemPtr) : List UInt8 :=
  (overlay (overlay buffer 0 ['D'.toUInt8]) 1 (addr.ptr.getD [])).take (addr.ptrSize + 1)

def dataBytes (type : UInt8) (buffer : List UInt8) (addr : UnimemPtr)
    (userBuffer userBufferLen : ℕ) : List UInt8 :=
  let buffer := overlay buffer 0 [type]
  let buffer := overlay buffer 1 (addr.ptr.getD [])
  let buffer := overlay buffer (1 + addr.ptrSize) (le 8 userBuffer)
  let buffer := overlay buffer (1 + addr.ptrSize + 8) (le 8 userBufferLen)
  buffer.take (1 + addr.ptrSize + 8 + 8)

def sent (buffer : List UInt8) : Request → List UInt8
  | .alloc size => allocBytes buffer size
  | .destroy addr => destroyBytes buffer (UnimemPtr.of addr)
  | .write addr userBuffer userBufferLen =>
    dataBytes 'W'.toUInt8 buffer (UnimemPtr.of addr) userBuffer userBufferLen
  | .read addr userBuffer userBufferLen =>
    dataBytes 'R'.toUInt8 buffer (UnimemPtr.of addr) userBuffer userBufferLen

/-- The library's call for a request. -/
def issue (u : Unimem) (env : KernelEnv) : Request → Unimem
  | .alloc size => (u.writeAllocRequest env size).2
  | .destroy addr => u.writeDestroyRequest env (UnimemPtr.of addr)
  | .write addr userBuffer userBufferLen =>
    (u.copyUserBufferToUnimem env (UnimemPtr.of addr) userBuffer userBufferLen).2
  | .read addr userBuffer userBufferLen =>
    (u.copyUnimemBufferToUser env userBuffer userBufferLen (UnimemPtr.of addr)).2

theorem writeAllocRequest_driver (u : Unimem) (env : KernelEnv) (size : ℕ) :
    (u.writeAllocRequest env size).2.driver =
      (u.driver.devWrite env (allocBytes u.readWriteBuffer size)).2 := by
  unfold writeAllocRequest allocBytes
  dsimp only
  split
  · rfl
  · split <;> rfl

theorem dataRequest_driver (type : UInt8) (u : Unimem) (env : KernelEnv) (addr : UnimemPtr)
    (ptr len : ℕ) : (dataRequest type u env addr ptr len).2.driver =
      (u.driver.devWrite env (dataBytes type u.readWriteBuffer addr ptr len)).2 := by
  unfold dataRequest dataBytes
  dsimp only

theorem issue_driver (u : Unimem) (env : KernelEnv) (q : Request) :
    (u.issue env q).driver = (u.driver.devWrite env (sent u.readWriteBuffer q)).2 := by
  cases q with
  | alloc size => exact u.writeAllocRequest_driver env size
  | destroy addr => rfl
  | write addr userBuffer userBufferLen =>
    rw [issue, copyUserBufferToUnimem, sent, dataRequest_driver]
  | read addr userBuffer userBufferLen =>
    rw [issue, copyUnimemBufferToUser, sent, dataRequest_driver]

theorem sent_eq (buffer : List UInt8) (q : Request) : sent buffer q = q.encode := by
  cases q with
  | alloc size =>
    exact take_packed buffer ['C'.toUInt8] (le 8 size) (show 1 = _ from rfl) (show 9 = _ by simp)
  | destroy addr =>
    exact take_packed buffer ['D'.toUInt8] addr.encode (show 1 = _ from rfl)
      (show 24 + 1 = _ by simp)
  | write addr userBuffer userBufferLen =>
    exact take_dataRequest buffer 'W'.toUInt8 addr userBuffer userBufferLen
  | read addr userBuffer userBufferLen =>
    exact take_dataRequest buffer 'R'.toUInt8 addr userBuffer userBufferLen

/-- The messages of the two ends agree: what is sent for a request is its encoding whatever the
buffer held; it reaches the handler of the request, which does what the fields say; no other bytes
reach a handler's work; and the record of a pending reply is emitted, and read as it was emitted.
The record's reader wants room for the whole reply. -/
structure RoundTrip (u : Unimem) (env : KernelEnv) : Prop where
  issued : ∀ q : Request, sent u.readWriteBuffer q = q.encode ∧
    (u.issue env q).driver = (u.driver.devWrite env q.encode).2
  routed : ∀ q : Request, u.driver.devWrite env q.encode =
    u.driver.handler env q (Driver.kBuf q.encode) q.encode.length
  decoded : ∀ q : Request, q.InRange → Request.parse q.encode = some q ∧
    u.driver.handler env q (Driver.kBuf q.encode) q.encode.length = u.driver.perform env q
  only : ∀ buf : List UInt8, (∀ q : Request, q.InRange → q.encode ≠ buf) →
    u.driver.devWrite env buf = (-1, u.driver)
  emitted : u.driver.returnMsg.type = 'z'.toUInt8 → u.driver.devRead 100 =
    (25, 'z'.toUInt8 :: u.driver.returnMsg.unidress.encode,
      { u.driver with returnMsg.type := 0 })
  record : ∀ (len : ℕ) (rc : ℤ) (record : List UInt8) (d : Driver), 25 ≤ len →
    u.driver.devRead 100 = (rc, 'z'.toUInt8 :: record, d) →
      (u.readAllocResponse len).1 = some record ∧ (u.readAllocResponse len).2.driver = d

theorem round_trip (u : Unimem) (env : KernelEnv) : u.RoundTrip env := by
  refine ⟨fun q => ⟨sent_eq _ q, ?_⟩, u.driver.devWrite_routed env, fun q hq => ⟨?_, ?_⟩, ?_,
    fun hz => Driver.devRead_pending hz (by norm_num), fun _ _ _ _ => readAllocResponse_record⟩
  · rw [issue_driver, sent_eq]
  · exact Request.parse_encode hq
  · rw [← Driver.devWrite_routed, Driver.devWrite_encode _ _ hq]
  · intro buf h
    rw [Driver.devWrite_eq]
    cases hparse : Request.parse buf with
    | none => rfl
    | some q =>
      obtain ⟨hq, henc⟩ := Request.encode_of_parse hparse
      exact absurd henc (h q hq)

end Unimem

end FpgaMl
