import Mathlib.Tactic
import FpgaMl.Foundation.ByteMemory
import FpgaMl.Foundation.MachineInt

/-! # The buffer driver (unimem_buffer_alloc.c, buffer_ops.h)

The kernel module behind the device file: one slot for a pending reply, the memory of the kernel
with the buffers that are allocated, and the memory of the process it copies from and to. Control
messages come from a static array of the library, so copying them does not fault; the copy of user
data may. -/
namespace FpgaMl
open MachineInt ByteMemory
set_option autoImplicit false

structure UnimemAddr where
  kernelVirtAddr : ℕ
  busAddr : ℕ
  size : ℕ
  deriving DecidableEq, Repr

namespace UnimemAddr

/-- The 24 bytes of the structure in memory. -/
def encode (a : UnimemAddr) : List UInt8 := le 8 a.kernelVirtAddr ++ (le 8 a.busAddr ++ le 8 a.size)

def decode (bs : List UInt8) : UnimemAddr :=
  ⟨ofLe (slice bs 0 8), ofLe (slice bs 8 8), ofLe (slice bs 16 8)⟩

@[simp] theorem length_encode (a : UnimemAddr) : a.encode.length = 24 := by simp [encode]

theorem decode_encode {a : UnimemAddr} (hv : a.kernelVirtAddr < 2 ^ 64) (hb : a.busAddr < 2 ^ 64)
    (hs : a.size < 2 ^ 64) : decode a.encode = a := by
  have h₁ : slice a.encode 0 8 = le 8 a.kernelVirtAddr := slice_left (length_le 8 _).symm
  have h₂ : slice a.encode 8 8 = le 8 a.busAddr := by
    rw [encode, slice_right (show 8 = (le 8 a.kernelVirtAddr).length + 0 by simp),
      slice_left (length_le 8 _).symm]
  have h₃ : slice a.encode 16 8 = le 8 a.size := by
    rw [encode, slice_right (show 16 = (le 8 a.kernelVirtAddr).length + 8 by simp),
      slice_right (show 8 = (le 8 a.busAddr).length + 0 by simp)]
    simp [slice]
  unfold decode
  rw [h₁, h₂, h₃, ofLe_le (by norm_num; omega), ofLe_le (by norm_num; omega),
    ofLe_le (by norm_num; omega)]

end UnimemAddr

/-- `struct unimem_return_msg`; the type 0 means that no reply is pending. -/
structure ReturnMsg where
  type : UInt8
  unidress : UnimemAddr
  deriving DecidableEq, Repr

structure Driver where
  returnMsg : ReturnMsg
  memory : ℕ → UInt8
  live : List (ℕ × ℕ)
  user : ℕ → UInt8

/-- What the kernel decides while a message is handled: the block `vmalloc` returns, with what it
holds, or NULL; and the number of bytes that the copy of user data leaves uncopied. -/
structure KernelEnv where
  vmalloc : Option (ℕ × (ℕ → UInt8))
  uncopied : ℕ

namespace Driver

/-- `copy_from_user` of `n` bytes, of which the last `uncopied` are zeroed instead. -/
def copyFromUser (d : Driver) (target origin n uncopied : ℕ) : ℕ → UInt8 :=
  copy (copy d.memory (fun _ => 0) target target n) d.user target origin (n - uncopied)

/-- `copy_to_user` of `n` bytes, of which the last `uncopied` are not written. -/
def copyToUser (d : Driver) (target origin n uncopied : ℕ) : ℕ → UInt8 :=
  copy d.user d.memory target origin (n - uncopied)

def handleWriteC (d : Driver) (env : KernelEnv) (kBuf : List UInt8) (len : ℕ) : ℤ × Driver :=
  if len ≠ 9 then (-1, d)
  else
    let allocLen := ofLe (slice kBuf 1 8)
    match env.vmalloc with
    | none =>
      (-12, { d with returnMsg.unidress := { d.returnMsg.unidress with
        kernelVirtAddr := 0, busAddr := 13 } })
    | some (base, fill) =>
      (len, { d with
        returnMsg := ⟨'z'.toUInt8, ⟨base, 13, allocLen⟩⟩
        memory := copy d.memory fill base base allocLen
        live := (base, allocLen) :: d.live })

def handleWriteD (d : Driver) (kBuf : List UInt8) (len : ℕ) : ℤ × Driver :=
  if len ≠ 25 then (-1, d)
  else
    let unidress := UnimemAddr.decode (slice kBuf 1 24)
    (len, { d with live := d.live.filter fun block => block.1 != unidress.kernelVirtAddr })

/-- The uncopied count is kept in an `unsigned`. -/
def handleWriteW (d : Driver) (env : KernelEnv) (kBuf : List UInt8) (len : ℕ) : ℤ × Driver :=
  if len ≠ 41 then (-1, d)
  else
    let unidress := UnimemAddr.decode (slice kBuf 1 24)
    let memory := d.copyFromUser unidress.kernelVirtAddr (ofLe (slice kBuf 25 8))
      (ofLe (slice kBuf 33 8)) env.uncopied
    if u32 env.uncopied ≠ 0 then (-1, { d with memory := memory })
    else (41, { d with memory := memory })

/-- The uncopied count is kept in an `unsigned`. -/
def handleWriteR (d : Driver) (env : KernelEnv) (kBuf : List UInt8) (len : ℕ) : ℤ × Driver :=
  if len ≠ 41 then (-1, d)
  else
    let unidress := UnimemAddr.decode (slice kBuf 1 24)
    let user := d.copyToUser (ofLe (slice kBuf 25 8)) unidress.kernelVirtAddr
      (ofLe (slice kBuf 33 8)) env.uncopied
    if u32 env.uncopied ≠ 0 then (-1, { d with user := user })
    else (41, { d with user := user })

/-- `dev_write` of the message `buf`. -/
def devWrite (d : Driver) (env : KernelEnv) (buf : List UInt8) : ℤ × Driver :=
  if 41 < buf.length then (-1, d)
  else
    let kBuf := buf ++ List.replicate (41 - buf.length) 0
    if kBuf.head? = some 'C'.toUInt8 then d.handleWriteC env kBuf buf.length
    else if kBuf.head? = some 'D'.toUInt8 then d.handleWriteD kBuf buf.length
    else if kBuf.head? = some 'W'.toUInt8 then d.handleWriteW env kBuf buf.length
    else if kBuf.head? = some 'R'.toUInt8 then d.handleWriteR env kBuf buf.length
    else (-1, d)

/-- `dev_read` into a buffer of `len` bytes, with the bytes it writes there. -/
def devRead (d : Driver) (len : ℕ) : ℤ × List UInt8 × Driver :=
  if d.returnMsg.type = 0 then (-1, [], d)
  else if d.returnMsg.type ≠ 'z'.toUInt8 then (-1, [], d)
  else if len < 25 then (-1, [], d)
  else (25, 'z'.toUInt8 :: d.returnMsg.unidress.encode, { d with returnMsg.type := 0 })

end Driver

end FpgaMl
