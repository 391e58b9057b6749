import Mathlib.Tactic
import FpgaMl.Dispatcher
import FpgaMl.RefCounter

/-! # Programs and kernels of the client

The objects that `clCreateProgramWithSource` and `clCreateKernel` make (ocl_ds.h), with their
arguments and reference counters, around the library at run time. A command and an `NDRange` count
a reference to their kernel; a kernel keeps the pointer to its program. -/
namespace FpgaMl
open MachineInt TransitionSystem
set_option autoImplicit false

/-! ## Arguments -/

structure KernelArg where
  value : Option (List UInt8)
  valueSize : ℤ
  deriving DecidableEq, Repr

/-- The arguments of `clSetKernelArg`; the value is the memory at the pointer, `none` for NULL. -/
structure ArgCall where
  argIndex : ℕ
  argSize : ℕ
  argValue : Option (List UInt8)
  deriving DecidableEq, Repr

/-- The constructor with `set_values`. The size goes into an `int`. -/
def KernelArg.new (argSize : ℕ) (argValue : Option (List UInt8)) : KernelArg :=
  ⟨if argSize < 1 then none else argValue.map (List.take argSize), i32 argSize⟩

/-- `set_args`; `none` is an access outside the vector, when `arg_index + 1` wraps. -/
def setArgs (args : List (Option KernelArg)) (call : ArgCall) : Option (List (Option KernelArg)) :=
  let size := u32 (call.argIndex + 1)
  let args := if args.length < size then args ++ List.replicate (size - args.length) none else args
  if call.argIndex < args.length then
    some (args.set call.argIndex (some (.new call.argSize call.argValue)))
  else none

/-! ## Objects -/

structure ClProgram where
  counter : RefCounter
  xmlName : String

structure ClKernel where
  counter : RefCounter
  program : ℕ
  argsVector : List (Option KernelArg)

/-- The kernel that an ND-range command counts. -/
def CommandBody.kernel : CommandBody → Option ℕ
  | ndrange args => args.kernel.map Prod.fst
  | _ => none

/-- The kernel for which `handle_ndrange_command` makes an `NDRange`. -/
def CommandBody.launched : CommandBody → Option ℕ
  | ndrange ⟨some (kernel, some _), _, _⟩ => some kernel
  | _ => none

/-- The ND-range that deletes itself when the timer of scheduler `i` fires. -/
def Global.finishing {n : ℕ} (g : Global n) (i : Fin n) : Option NDRange := do
  let (wgr, _) ← (g.schedulers i).inQueue.popFront
  let ndrange ← g.ndranges (← wgr.parentNdrange)
  if ndrange.decrementWgrsCounter.2 then some ndrange else none

/-- The library with the client's programs and kernels. `handles` are the references that the client
holds, at most one to each object, since there is no call that retains one. `current` is the kernel
of the ND-range command that the callback under way has popped and not deleted. A deleted object
keeps its contents, as freed memory may. -/
structure ClientRun (n : ℕ) where
  runtime : Runtime n
  programs : ℕ → ClProgram
  kernels : ℕ → ClKernel
  programHandles : ℕ → Bool
  kernelHandles : ℕ → Bool
  nextProgram : ℕ
  nextKernel : ℕ
  current : Option ℕ

inductive ClientLabel (n : ℕ)
  | createProgram (xmlName : String)
  | createKernel (program : ℕ)
  | setKernelArg (kernel : ℕ) (call : ArgCall)
  | enqueueNdrange (q kernel globalWorkSize localWorkSize : ℕ)
  | enqueue (q : ℕ) (body : CommandBody)
  | releaseKernel (kernel : ℕ)
  | releaseProgram (program : ℕ)
  | releaseQueue (q : ℕ)
  | loop (q : ℕ) (now : ℚ) (env : KernelEnv)
  | fire (i : Fin n) (now : ℚ)

namespace ClientRun

variable {n : ℕ}

def new (r : Runtime n) : ClientRun n :=
  ⟨r, fun _ => ⟨.absent, ""⟩, fun _ => ⟨.absent, 0, []⟩, fun _ => false, fun _ => false, 0, 0, none⟩

def queue (s : ClientRun n) (q : ℕ) : QueueRun := s.runtime.queues q

def setKernel (s : ClientRun n) (k : ℕ) (kernel : ClKernel) : ClientRun n :=
  { s with kernels := Function.update s.kernels k kernel }

def upKernel (s : ClientRun n) (k : ℕ) : ClientRun n :=
  s.setKernel k { s.kernels k with counter := (s.kernels k).counter.refCntUp }

def downKernel (s : ClientRun n) (k : ℕ) : ClientRun n :=
  s.setKernel k { s.kernels k with counter := (s.kernels k).counter.refCntDown }

/-! ### Calls of the client -/

def createProgram (s : ClientRun n) (xmlName : String) : ClientRun n :=
  { s with
    programs := Function.update s.programs s.nextProgram ⟨.new, xmlName⟩
    programHandles := Function.update s.programHandles s.nextProgram true
    nextProgram := s.nextProgram + 1 }

def createKernel (s : ClientRun n) (program : ℕ) : ClientRun n :=
  { s.setKernel s.nextKernel ⟨.new, program, []⟩ with
    kernelHandles := Function.update s.kernelHandles s.nextKernel true
    nextKernel := s.nextKernel + 1 }

def setKernelArg (s : ClientRun n) (k : ℕ) (call : ArgCall) : Option (ClientRun n) :=
  (setArgs (s.kernels k).argsVector call).map fun args =>
    s.setKernel k { s.kernels k with argsVector := args }

/-- The command that `clEnqueueNDRangeKernel` makes; it names the program by its xml name. -/
def ndrangeBody (s : ClientRun n) (k globalWorkSize localWorkSize : ℕ) : CommandBody :=
  .ndrange ⟨some (k, some (s.programs (s.kernels k).program).xmlName), globalWorkSize, localWorkSize⟩

def submit (s : ClientRun n) (q : ℕ) (body : CommandBody) : ClientRun n :=
  { s with runtime := s.runtime.setQueue q ((s.queue q).submit body) }

/-- The constructor of the command counts the kernel, whatever the queue answers. -/
def enqueueNdrange (s : ClientRun n) (bits : Bitstreams) (q k globalWorkSize localWorkSize : ℕ) :
    Option (ClientRun n) :=
  let body := s.ndrangeBody k globalWorkSize localWorkSize
  if bits.accepts body then some ((s.upKernel k).submit q body) else none

def releaseKernel (s : ClientRun n) (k : ℕ) : ClientRun n :=
  { s.downKernel k with kernelHandles := Function.update s.kernelHandles k false }

def releaseProgram (s : ClientRun n) (p : ℕ) : ClientRun n :=
  { s with
    programs := Function.update s.programs p
      { s.programs p with counter := (s.programs p).counter.refCntDown }
    programHandles := Function.update s.programHandles p false }

def releaseQueue (s : ClientRun n) (q : ℕ) : ClientRun n :=
  { s with runtime :=
      s.runtime.setQueue q { s.queue q with queue := (s.queue q).queue.refCntDown } }

/-! ### The loop thread -/

/-- From `pop_front` to `handle_a_cmd`; the constructor of `NDRange` counts the kernel. -/
def handOver (s : ClientRun n) (bits : Bitstreams) (now : ℚ) (env : KernelEnv) (q : ℕ) :
    Option (ClientRun n) := do
  let cmd ← (s.queue q).ring.head?
  let runtime ← s.runtime.handOver bits now env q
  let counted := cmd.body.launched.elim s s.upKernel
  return { counted with runtime := runtime, current := cmd.body.kernel }

/-- `delete cmd`, at the end of a callback that has popped an ND-range command. -/
def deleteCommand (s : ClientRun n) : ClientRun n :=
  { s.current.elim s s.downKernel with current := none }

def loopStep (s : ClientRun n) (bits : Bitstreams) (now : ℚ) (env : KernelEnv) (q : ℕ) :
    Option (ClientRun n) :=
  match (s.queue q).point with
  | .popping => s.handOver bits now env q
  | _ => (s.runtime.loopStep bits now env q).map fun runtime =>
    if runtime.busy = none then { s.deleteCommand with runtime := runtime }
    else { s with runtime := runtime }

/-- The timer of scheduler `i`; the destructor of the `NDRange` drops the kernel. -/
def fire (s : ClientRun n) (now : ℚ) (i : Fin n) : Option (ClientRun n) :=
  (s.runtime.fire now i).map fun runtime =>
    { (s.runtime.global.finishing i).elim s (fun r => s.downKernel r.kernel.handle) with
      runtime := runtime }

/-- `WorkGroupRange::get_kernel_args`. -/
def getKernelArgs (s : ClientRun n) (w : WorkGroupRange) : List (Option KernelArg) :=
  match w.parentNdrange.bind s.runtime.global.ndranges with
  | some ndrange => (s.kernels ndrange.kernel.handle).argsVector
  | none => []

end ClientRun

/-- Clients, callbacks and timers in any order. A queue that has deleted itself is not used again. -/
def clientSystem (n : ℕ) (bits : Bitstreams) : Machine (ClientRun n) (ClientLabel n) where
  start s := ∃ r, (library n bits).start r ∧ s = ClientRun.new r
  next s
    | .createProgram xmlName => some (s.createProgram xmlName)
    | .createKernel p => if s.programHandles p then some (s.createKernel p) else none
    | .setKernelArg k call => if s.kernelHandles k then s.setKernelArg k call else none
    | .enqueueNdrange q k globalWorkSize localWorkSize =>
      if s.kernelHandles k ∧ (s.queue q).deleted = false then
        s.enqueueNdrange bits q k globalWorkSize localWorkSize
      else none
    | .enqueue q body =>
      if bits.accepts body ∧ body.isNdrange = false ∧ (s.queue q).deleted = false then
        some (s.submit q body)
      else none
    | .releaseKernel k => if s.kernelHandles k then some (s.releaseKernel k) else none
    | .releaseProgram p => if s.programHandles p then some (s.releaseProgram p) else none
    | .releaseQueue q => if (s.queue q).deleted then none else some (s.releaseQueue q)
    | .loop q now env =>
      if (s.runtime.busy = none ∨ s.runtime.busy = some q) ∧ (s.queue q).deleted = false then
        s.loopStep bits now env q
      else none
    | .fire i now =>
      if s.runtime.busy = none ∧ (s.runtime.global.schedulers i).timer.isActive then s.fire now i
      else none

end FpgaMl
