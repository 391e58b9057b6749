import Mathlib.Tactic
import FpgaMl.Foundation.TransitionSystem
import FpgaMl.CommandQueue
import FpgaMl.UnimemManager

/-! # Write and read commands (dispatcher.cc)

The handlers of the dispatcher over the manager of the buffers, and the system they make with the
process whose memory they copy from and to. -/
namespace FpgaMl
open ByteMemory MachineInt TransitionSystem
set_option autoImplicit false

/-! ## The codes of cl.h -/

def clSuccess : ℤ := 0
def clMemObjectAllocationFailure : ℤ := -4
def clInvalidValue : ℤ := -30
def clInvalidMemObject : ℤ := -38

/-! ## The handlers -/

structure ClMem where
  unimemPtr : UnimemPtr
  size : ℕ
  deriving DecidableEq, Repr

/-- All `cl_mem` objects, by number, and the manager. -/
structure Buffers where
  mems : ℕ → ClMem
  unimem : Unimem

def checkReadWriteParams (mem : Option ℕ) (size : ℕ) : ℤ :=
  if mem = none then clInvalidMemObject
  else if size < 1 then clInvalidValue
  else clSuccess

namespace Buffers

def handleReadCommand (b : Buffers) (env : KernelEnv) (cmd : ReadArgs) : ℤ × Buffers :=
  -- the code returned is the value of the comparison
  let rc : ℤ := if checkReadWriteParams cmd.mem cmd.size ≠ clSuccess then 1 else 0
  match cmd.mem with
  | none => (rc, b)
  | some m =>
    let mem := b.mems m
    if rc ≠ 0 then (rc, b)
    else if mem.unimemPtr.ptr = none then (clInvalidMemObject, b)
    else if cmd.ptr = 0 then (clInvalidValue, b)
    else if cmd.size ≠ mem.size then (clInvalidValue, b)
    else
      let (copied, unimem) := b.unimem.copyFromUnimem env cmd.ptr mem.unimemPtr mem.size
      if !copied then (clMemObjectAllocationFailure, { b with unimem := unimem })
      else (clSuccess, { b with unimem := unimem })

def handleWriteCommand (b : Buffers) (env : KernelEnv) (cmd : WriteArgs) : ℤ × Buffers :=
  -- the code returned is the value of the comparison
  let rc : ℤ := if checkReadWriteParams cmd.mem cmd.size ≠ clSuccess then 1 else 0
  match cmd.mem with
  | none => (rc, b)
  | some m =>
    if rc ≠ 0 then (rc, b)
    else
      let (ptr, unimem) := b.unimem.allocateUnimem env cmd.size
      if ptr.ptr = none then (clMemObjectAllocationFailure, { b with unimem := unimem })
      else if cmd.ptr ≠ 0 then
        let (copied, unimem) := unimem.copyToUnimem env ptr cmd.ptr cmd.size
        if !copied then
          (clMemObjectAllocationFailure, { b with unimem := unimem.releaseUnimem env ptr })
        else (clSuccess, ⟨Function.update b.mems m ⟨ptr, cmd.size⟩, unimem⟩)
      else (clSuccess, ⟨Function.update b.mems m ⟨ptr, cmd.size⟩, unimem⟩)

/-! ## The system -/

def live (b : Buffers) : List (ℕ × ℕ) := b.unimem.driver.live
def memory (b : Buffers) : ℕ → UInt8 := b.unimem.driver.memory
def user (b : Buffers) : ℕ → UInt8 := b.unimem.driver.user

/-- No `cl_mem` has a buffer, and no reply is pending. -/
def new (memory user : ℕ → UInt8) : Buffers :=
  ⟨fun _ => ⟨⟨none, 0⟩, 0⟩, ⟨List.replicate 100 0, ⟨⟨0, ⟨0, 0, 0⟩⟩, memory, [], user⟩⟩⟩

end Buffers

inductive BufferLabel
  | write (cmd : WriteArgs) (env : KernelEnv)
  | read (cmd : ReadArgs) (env : KernelEnv)
  | process (user : ℕ → UInt8)

namespace Buffers

def handle (b : Buffers) : BufferLabel → ℤ × Buffers
  | .write cmd env => b.handleWriteCommand env cmd
  | .read cmd env => b.handleReadCommand env cmd
  | .process user => (clSuccess, { b with unimem.driver.user := user })

/-- What the kernel grants: arguments are 64 bit wide, a copy leaves at most what there is to copy,
and `vmalloc` returns NULL or a block apart from all live ones. -/
def Admissible (b : Buffers) : BufferLabel → Prop
  | .write cmd env => cmd.size < 2 ^ 64 ∧ cmd.ptr < 2 ^ 64 ∧ env.uncopied ≤ cmd.size ∧
      ∀ block ∈ env.vmalloc, 0 < block.1 ∧ block.1 + cmd.size ≤ 2 ^ 64 ∧
        ∀ other ∈ b.live, Apart (block.1, cmd.size) other
  | .read cmd env => cmd.size < 2 ^ 64 ∧ cmd.ptr < 2 ^ 64 ∧ env.uncopied ≤ cmd.size
  | .process _ => True

instance (b : Buffers) (l : BufferLabel) : Decidable (b.Admissible l) :=
  match l with
  | .write cmd env => inferInstanceAs (Decidable (_ < _ ∧ _ < _ ∧ _ ≤ _ ∧
      ∀ block ∈ env.vmalloc, 0 < block.1 ∧ block.1 + cmd.size ≤ 2 ^ 64 ∧
        ∀ other ∈ b.live, Apart (block.1, cmd.size) other))
  | .read _ _ => inferInstanceAs (Decidable (_ < _ ∧ _ < _ ∧ _ ≤ _))
  | .process _ => inferInstanceAs (Decidable True)

end Buffers

def bufferSystem : Machine Buffers BufferLabel where
  start b := ∃ memory user, b = Buffers.new memory user
  next b l := if b.Admissible l then some (b.handle l).2 else none

end FpgaMl
