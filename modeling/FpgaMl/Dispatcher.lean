import Mathlib.Tactic
import FpgaMl.BufferCommands
import FpgaMl.RouteSimple

/-! # The dispatcher (dispatcher.cc) and the library around it

`handle_a_cmd` with its switch, and the library at run time: any number of command queues, one
loop thread that runs their callbacks and the timers, and the clients that enqueue (ocl_api.cc). -/
namespace FpgaMl
open MachineInt TransitionSystem
set_option autoImplicit false

/-- What the loaded bitstream files say under the name of a kernel's program. -/
structure Bitstreams where
  resourceString : String → Option String
  workGroupSizes : String → Option ℕ

namespace Bitstreams

/-- `get_resource_string` into an empty string, which an unknown name leaves empty. -/
def getResourceString (b : Bitstreams) (fname : String) : String := (b.resourceString fname).getD ""

def checkWgSize (b : Bitstreams) (xmlFileName : String) (wgSize : ℕ) : Bool :=
  b.workGroupSizes xmlFileName == some wgSize

/-- What the enqueueing functions and `clFinish` accept for a queue. A kernel always has a program,
since `clCreateKernel` refuses NULL. -/
def accepts (b : Bitstreams) : CommandBody → Bool
  | .writeBuffer args => args.mem.isSome
  | .readBuffer args => args.mem.isSome
  | .ndrange args =>
    match args.kernel with
    | some (_, some xmlName) =>
      1 ≤ args.localWorkSize && b.checkWgSize xmlName args.localWorkSize &&
        args.globalWorkSize % args.localWorkSize == 0
    | _ => false
  | .empty => true

end Bitstreams

/-- The number of work-groups of a launch, an `unsigned`. -/
def NdrArgs.numWgs (args : NdrArgs) : ℕ := u32 (args.globalWorkSize / args.localWorkSize)

/-- The library at run time; `busy` is the queue whose callback the loop thread is in, and `errors`
holds the error code of every event. -/
structure Runtime (n : ℕ) where
  queues : ℕ → QueueRun
  busy : Option ℕ
  algo : AlgoSimple n
  global : Global n
  buffers : Buffers
  errors : EventRef → ℤ

namespace Runtime

variable {n : ℕ}

def new (g : Global n) (memory user : ℕ → UInt8) : Runtime n :=
  ⟨fun _ => .new, none, .new n, g, .new memory user, fun _ => clSuccess⟩

def setQueue (r : Runtime n) (q : ℕ) (s : QueueRun) : Runtime n :=
  { r with queues := Function.update r.queues q s }

def setError (r : Runtime n) (e : EventRef) (errCode : ℤ) : Runtime n :=
  { r with errors := Function.update r.errors e errCode }

def setAsComplete (r : Runtime n) (e : EventRef) : Runtime n :=
  r.setQueue e.queue ((r.queues e.queue).setAsComplete e.command)

/-- `none` is a failed assertion or an exception. -/
def handleNdrangeCommand (r : Runtime n) (bits : Bitstreams) (now : ℚ) (event : EventRef)
    (cmd : NdrArgs) : Option (Runtime n) :=
  match cmd.kernel with
  | none => some r
  | some (_, none) => some r
  | some (handle, some xmlName) => do
    let ndrange ← NDRange.new ⟨handle, xmlName⟩ event (bits.getResourceString xmlName) cmd.numWgs 1 1
    let (algo, global) ←
      r.algo.routeNdrange (r.global.newNdrange ndrange) checkResourceString now r.global.nextCell
    return { r with algo := algo, global := global }

def handleACmd (r : Runtime n) (bits : Bitstreams) (now : ℚ) (env : KernelEnv) (event : EventRef)
    (body : CommandBody) : Option (Runtime n) :=
  match body with
  | .writeBuffer cmd =>
    let (errCode, buffers) := r.buffers.handleWriteCommand env cmd
    some (({ r with buffers := buffers }.setError event errCode).setAsComplete event)
  | .readBuffer cmd =>
    let (errCode, buffers) := r.buffers.handleReadCommand env cmd
    some (({ r with buffers := buffers }.setError event errCode).setAsComplete event)
  | .ndrange cmd => r.handleNdrangeCommand bits now event cmd
  | .empty => some r

/-- The part of `on_new_cmd_cb` from `pop_front` to `handle_a_cmd`. -/
def handOver (r : Runtime n) (bits : Bitstreams) (now : ℚ) (env : KernelEnv) (q : ℕ) :
    Option (Runtime n) := do
  let (cmd, queue) ← (r.queues q).queue.popFront
  (r.setQueue q ((r.queues q).take cmd queue)).handleACmd bits now env ⟨q, cmd.event⟩ cmd.body

def loopStep (r : Runtime n) (bits : Bitstreams) (now : ℚ) (env : KernelEnv) (q : ℕ) :
    Option (Runtime n) :=
  match (r.queues q).point with
  | .popping => r.handOver bits now env q
  | _ => (r.queues q).loopStep.map fun s =>
    { r.setQueue q s with busy := if s.point = .idle then none else some q }

def fire (r : Runtime n) (now : ℚ) (i : Fin n) : Option (Runtime n) :=
  (r.global.onTimer now i).map fun (g, event) =>
    match event with
    | none => { r with global := g }
    | some event => { r with global := g }.setAsComplete event

end Runtime

inductive RuntimeLabel (n : ℕ)
  | enqueue (q : ℕ) (body : CommandBody)
  | loop (q : ℕ) (now : ℚ) (env : KernelEnv)
  | fire (i : Fin n) (now : ℚ)

/-- All queues exist from the start; one that is created later has not been used before. The timer of
the free schedulers, which finds nothing to do, comes in with the `eventLoop`. -/
def library (n : ℕ) (bits : Bitstreams) : Machine (Runtime n) (RuntimeLabel n) where
  start r := ∃ prs cost ends g memory user, Global.new prs cost ends = some g ∧
    r = Runtime.new g memory user
  next r
    | .enqueue q body =>
      if bits.accepts body then some (r.setQueue q ((r.queues q).submit body)) else none
    | .loop q now env =>
      if r.busy = none ∨ r.busy = some q then r.loopStep bits now env q else none
    | .fire i now =>
      if r.busy = none ∧ (r.global.schedulers i).timer.isActive then r.fire now i else none

end FpgaMl
