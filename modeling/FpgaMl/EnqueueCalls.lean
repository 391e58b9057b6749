import Mathlib.Tactic
import FpgaMl.Foundation.Holders
import FpgaMl.Dispatcher
import FpgaMl.RefCounter

/-! # Enqueueing calls and their events

The enqueueing functions and `clFinish` (ocl_api.cc) with `on_new_cmd_cb` (cmd_q.cc), one step for
each change of an event's counter. Any number of calls are under way, each in a thread of its own,
beside the loop thread. A call makes one command, and the command its event; all three have the
number of the event. -/
namespace FpgaMl
open MachineInt TransitionSystem Holders
set_option autoImplicit false

def clInvalidCommandQueue : ℤ := -36

/-! ## The client's side -/

/-- How far a call is: before `ref_cnt_up`, before `ml_submit_cmd`, after the queue has refused or
taken the command, after `wait_until_complete`, with the code to return, and returned, with that code
and whether the caller was given the event. -/
inductive CallPoint
  | created
  | counted
  | refused
  | submitted
  | waited
  | answered (errCode : ℤ)
  | returned (errCode : ℤ) (handle : Bool)
  deriving DecidableEq, Repr

namespace CallPoint

def isSubmitted : CallPoint → Bool
  | created => false
  | counted => false
  | _ => true

/-- The call, or the caller afterwards, has a reference to the event. -/
def holds : CallPoint → Bool
  | created => false
  | returned _ handle => handle
  | _ => true

end CallPoint

/-- A call with its arguments; `clFinish` is the call with an empty command. -/
structure EnqueueCall where
  queue : ℕ
  body : CommandBody
  blocking : Bool
  userEvent : Bool
  point : CallPoint
  deriving DecidableEq, Repr

/-- `_cl_event`; the callback is `on_event_complete` with the watcher of a queue, once it is
registered. -/
structure ClEvent where
  counter : RefCounter
  complete : Bool
  errorCode : ℤ
  callback : Option ℕ
  deriving DecidableEq, Repr

namespace ClEvent

def absent : ClEvent := ⟨.absent, false, clSuccess, none⟩
def new : ClEvent := ⟨.new, false, clSuccess, none⟩

end ClEvent

/-! ## The loop's side -/

/-- Where the loop thread is in `on_new_cmd_cb`: before the first `is_empty`, before `pop_front`, in
`set_last_event` before each of its two changes, before the dispatcher, before `set_as_complete`,
before the second `is_empty`, before `check_self_destroy`, before `delete cmd`. `finishing` is
`decrement_wgrs_counter` before `delete this`. -/
inductive CallbackPoint
  | idle
  | entered (q : ℕ)
  | popping (q : ℕ)
  | retiring (q : ℕ) (cmd : MLCLCommand)
  | installing (q : ℕ) (cmd : MLCLCommand)
  | dispatching (q : ℕ) (cmd : MLCLCommand)
  | completing (q : ℕ) (cmd : MLCLCommand)
  | rechecking (q : ℕ) (cmd : MLCLCommand)
  | checking (q : ℕ) (cmd : Option MLCLCommand)
  | deleting (cmd : MLCLCommand)
  | finishing (e : ℕ)
  deriving DecidableEq, Repr

/-- The command that the callback has popped and not deleted. -/
def CallbackPoint.command : CallbackPoint → Option MLCLCommand
  | idle => none
  | entered _ => none
  | popping _ => none
  | retiring _ cmd => some cmd
  | installing _ cmd => some cmd
  | dispatching _ cmd => some cmd
  | completing _ cmd => some cmd
  | rechecking _ cmd => some cmd
  | checking _ cmd => cmd
  | deleting cmd => some cmd
  | finishing _ => none

/-- The end of the callback, which returns early from an empty queue. -/
def CallbackPoint.leaving : Option MLCLCommand → CallbackPoint
  | some cmd => deleting cmd
  | none => idle

/-- The command that goes to the dispatcher next. -/
def CallbackPoint.dispatched : CallbackPoint → Option MLCLCommand
  | dispatching _ cmd => some cmd
  | _ => none

def CommandBody.transfer (env : KernelEnv) : CommandBody → Option BufferLabel
  | writeBuffer args => some (.write args env)
  | readBuffer args => some (.read args env)
  | _ => none

/-! ## The system -/

/-- `commands` and `ndranges` say whether the command and the `NDRange` of an event exist; `handled`
keeps what the dispatcher found and met when it handled the transfer of an event. -/
structure EventRun where
  queues : ℕ → CommandQueue
  destroyed : ℕ → Bool
  point : CallbackPoint
  events : ℕ → ClEvent
  commands : ℕ → Bool
  ndranges : ℕ → Bool
  calls : ℕ → Option EnqueueCall
  nextEvent : ℕ
  buffers : Buffers
  handled : ℕ → Option (Buffers × KernelEnv)

inductive EventLabel
  | enqueue (q : ℕ) (body : CommandBody) (blocking userEvent : Bool)
  | client (e : ℕ)
  | releaseQueue (q : ℕ)
  | callback (q : ℕ)
  | loop (env : KernelEnv)
  | finish (e : ℕ)
  | process (user : ℕ → UInt8)

namespace EventRun

def new (memory user : ℕ → UInt8) : EventRun :=
  ⟨fun _ => .new, fun _ => false, .idle, fun _ => .absent, fun _ => false, fun _ => false,
    fun _ => none, 0, .new memory user, fun _ => none⟩

def setEvent (s : EventRun) (e : ℕ) (event : ClEvent) : EventRun :=
  { s with events := Function.update s.events e event }

def setQueue (s : EventRun) (q : ℕ) (queue : CommandQueue) : EventRun :=
  { s with queues := Function.update s.queues q queue }

def setCall (s : EventRun) (e : ℕ) (call : EnqueueCall) : EventRun :=
  { s with calls := Function.update s.calls e (some call) }

def goto (s : EventRun) (point : CallbackPoint) : EventRun := { s with point := point }

def refCntUp (s : EventRun) (e : ℕ) : EventRun :=
  s.setEvent e { s.events e with counter := (s.events e).counter.refCntUp }

def refCntDown (s : EventRun) (e : ℕ) : EventRun :=
  s.setEvent e { s.events e with counter := (s.events e).counter.refCntDown }

def setError (s : EventRun) (e : ℕ) (errCode : ℤ) : EventRun :=
  s.setEvent e { s.events e with errorCode := errCode }

/-- `set_as_complete` with `on_event_complete`, which writes to freed memory once the queue is
destroyed; `none` is the call of a callback that was never set. -/
def setAsComplete (s : EventRun) (e : ℕ) : Option EventRun :=
  (s.events e).callback.map fun q =>
    let done := s.setEvent e { s.events e with complete := true }
    if s.destroyed q then done else done.setQueue q (s.queues q).feed

/-! ### Calls -/

/-- The command with its event. `clFinish` blocks, and has no event to give. -/
def enqueue (s : EventRun) (q : ℕ) (body : CommandBody) (blocking userEvent : Bool) : EventRun :=
  { s.setEvent s.nextEvent .new with
    commands := Function.update s.commands s.nextEvent true
    calls := Function.update s.calls s.nextEvent
      (if body = .empty then some ⟨q, body, true, false, .created⟩
        else some ⟨q, body, blocking, userEvent, .created⟩)
    nextEvent := s.nextEvent + 1 }

/-- `ml_submit_cmd`, to a queue that has not deleted itself. -/
def submit (s : EventRun) (e : ℕ) (call : EnqueueCall) (released taken : CallPoint) :
    Option EventRun :=
  if s.destroyed call.queue then none
  else
    let (rc, queue) := (s.queues call.queue).pushBack ⟨e, call.body⟩
    let point := if rc = some .mlErrorCmdqReleased then released else taken
    some ((s.setQueue call.queue queue).setCall e { call with point := point })

/-- `handle_blocking_non_blocking` in three steps, with the return on its branch for a refusal. -/
def clientStep (s : EventRun) (e : ℕ) (call : EnqueueCall) : Option EventRun :=
  match call.point with
  | .created =>
    if call.body.isNdrange then
      s.submit e call (.returned clInvalidCommandQueue false) (.returned clSuccess false)
    else some ((s.refCntUp e).setCall e { call with point := .counted })
  | .counted => s.submit e call .refused .submitted
  | .refused =>
    some ((s.refCntDown e).setCall e { call with point := .returned clInvalidCommandQueue false })
  | .submitted =>
    if !call.blocking then some (s.setCall e { call with point := .answered clSuccess })
    else if (s.events e).complete then some (s.setCall e { call with point := .waited })
    else none
  | .waited => some (s.setCall e { call with point := .answered (s.events e).errorCode })
  | .answered errCode =>
    if call.userEvent then some (s.setCall e { call with point := .returned errCode true })
    else some ((s.refCntDown e).setCall e { call with point := .returned errCode false })
  | .returned _ _ => none

/-! ### The callback -/

def lastDone (s : EventRun) (q : ℕ) : Bool :=
  (s.queues q).lastEvent.all fun e => (s.events e).complete

/-- `handle_a_cmd` up to `set_as_complete`. An `NDRange` lives until its ranges are done. -/
def dispatch (s : EventRun) (q : ℕ) (cmd : MLCLCommand) (env : KernelEnv) : EventRun :=
  match cmd.body with
  | .writeBuffer args =>
    let (errCode, buffers) := s.buffers.handleWriteCommand env args
    { (s.goto (.completing q cmd)).setError cmd.event errCode with
      buffers := buffers
      handled := Function.update s.handled cmd.event (some (s.buffers, env)) }
  | .readBuffer args =>
    let (errCode, buffers) := s.buffers.handleReadCommand env args
    { (s.goto (.completing q cmd)).setError cmd.event errCode with
      buffers := buffers
      handled := Function.update s.handled cmd.event (some (s.buffers, env)) }
  | .ndrange args =>
    match args.kernel with
    | none => s.goto (.rechecking q cmd)
    | some (_, none) => s.goto (.rechecking q cmd)
    | some (_, some _) =>
      { (s.goto (.rechecking q cmd)).refCntUp cmd.event with
        ndranges := Function.update s.ndranges cmd.event true }
  | .empty => s.goto (.rechecking q cmd)

/-- What the kernel may do while a command is handled. -/
def Admissible (s : EventRun) (env : KernelEnv) : Prop :=
  ∀ cmd ∈ s.point.dispatched, ∀ l ∈ cmd.body.transfer env, s.buffers.Admissible l

instance (s : EventRun) (env : KernelEnv) : Decidable (s.Admissible env) :=
  inferInstanceAs (Decidable (∀ cmd ∈ s.point.dispatched, ∀ l ∈ cmd.body.transfer env,
    s.buffers.Admissible l))

def loopStep (s : EventRun) (env : KernelEnv) : Option EventRun :=
  match s.point with
  | .idle => none
  | .entered q =>
    if (s.queues q).isEmpty then some (s.goto (.checking q none))
    else if s.lastDone q then some (s.goto (.popping q))
    else some (s.goto .idle)
  | .popping q => (s.queues q).popFront.map fun (cmd, queue) =>
    (s.setQueue q queue).goto (.retiring q cmd)
  | .retiring q cmd =>
    match (s.queues q).lastEvent with
    | some e => some ((s.refCntDown e).goto (.installing q cmd))
    | none => some (s.goto (.installing q cmd))
  | .installing q cmd =>
    let counted := (s.setQueue q ((s.queues q).setLastEvent cmd.event)).refCntUp cmd.event
    some ((counted.setEvent cmd.event { counted.events cmd.event with callback := some q }).goto
      (.dispatching q cmd))
  | .dispatching q cmd => some (s.dispatch q cmd env)
  | .completing q cmd => (s.setAsComplete cmd.event).map fun t => t.goto (.rechecking q cmd)
  | .rechecking q cmd => (s.queues q).lastEvent.map fun e =>
    if !(s.queues q).isEmpty && (s.events e).complete then
      (s.setQueue q (s.queues q).feed).goto (.deleting cmd)
    else s.goto (.checking q (some cmd))
  | .checking q cmd =>
    if (s.queues q).checkSelfDestroy then
      some ({ s.setQueue q { s.queues q with pending := false } with
        destroyed := Function.update s.destroyed q true }.goto (.leaving cmd))
    else some (s.goto (.leaving cmd))
  | .deleting cmd =>
    some ({ s.refCntDown cmd.event with
      commands := Function.update s.commands cmd.event false }.goto .idle)
  | .finishing e =>
    some ({ s.refCntDown e with ndranges := Function.update s.ndranges e false }.goto .idle)

end EventRun

/-- Labels of clients and of the loop in any order. The ranges of an `NDRange` may be done at any
time between two callbacks. -/
def eventSystem (bits : Bitstreams) : Machine EventRun EventLabel where
  start s := ∃ memory user, s = EventRun.new memory user
  next s
    | .enqueue q body blocking userEvent =>
      if bits.accepts body then some (s.enqueue q body blocking userEvent) else none
    | .client e => (s.calls e).bind (s.clientStep e)
    | .releaseQueue q =>
      if s.destroyed q then none else some (s.setQueue q (s.queues q).refCntDown)
    | .callback q =>
      if s.point = .idle ∧ s.destroyed q = false ∧ (s.queues q).pending then
        some ((s.setQueue q { s.queues q with pending := false }).goto (.entered q))
      else none
    | .loop env => if s.Admissible env then s.loopStep env else none
    | .finish e =>
      if s.point = .idle ∧ s.ndranges e then
        (s.setAsComplete e).map fun t => t.goto (.finishing e)
      else none
    | .process user => some { s with buffers := { s.buffers with unimem.driver.user := user } }

/-! ## Holders -/

/-- Who may hold an event: its command, the client, the slot of a queue, the `NDRange`. -/
inductive Party
  | command
  | client
  | slot (q : ℕ)
  | ndrange
  deriving DecidableEq, Repr

namespace EventRun

/-- The slot of a queue holds nothing between the two changes that `set_last_event` makes; that of a
destroyed queue keeps its reference. -/
def Holds (s : EventRun) (e : ℕ) : Party → Prop
  | .command => s.commands e = true
  | .client => ∃ call, s.calls e = some call ∧ call.point.holds = true
  | .slot q => (s.queues q).lastEvent = some e ∧ ∀ cmd, s.point ≠ .installing q cmd
  | .ndrange => s.ndranges e = true

/-- The events that a step reads or changes. -/
def uses (s : EventRun) : EventLabel → List ℕ
  | .enqueue _ _ _ _ => []
  | .client e => [e]
  | .releaseQueue _ => []
  | .callback _ => []
  | .loop _ =>
    match s.point with
    | .entered q => (s.queues q).lastEvent.toList
    | .retiring q cmd => cmd.event :: (s.queues q).lastEvent.toList
    | .rechecking q cmd => cmd.event :: (s.queues q).lastEvent.toList
    | .finishing e => [e]
    | point => point.command.toList.map MLCLCommand.event
  | .finish e => [e]
  | .process _ => []

end EventRun

end FpgaMl
