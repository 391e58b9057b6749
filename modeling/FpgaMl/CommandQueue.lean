import Mathlib.Tactic
import FpgaMl.Foundation.TransitionSystem
import FpgaMl.CircArray
import FpgaMl.NDRange

/-! # The command queue (cmd_q.cc) and its callback

One queue between its clients and the loop thread. Every method that takes the mutex is a step of
its own, so pushes and releases fall anywhere between the separate calls of `on_new_cmd_cb`. The
commands of a queue and their events are numbered in the order of submission. -/
namespace FpgaMl
open TransitionSystem
set_option autoImplicit false

/-! ## Commands -/

/-- `MLCLCommandWB`; a host pointer is an address of the process, 0 is NULL. -/
structure WriteArgs where
  mem : Option ℕ
  offset : ℕ
  size : ℕ
  ptr : ℕ
  deriving DecidableEq, Repr

structure ReadArgs where
  mem : Option ℕ
  offset : ℕ
  size : ℕ
  ptr : ℕ
  deriving DecidableEq, Repr

/-- `MLCLCommandNDR`: the kernel with the `m_xml_name` of its program, if it has one, and the first
components of the work sizes. -/
structure NdrArgs where
  kernel : Option (ℕ × Option String)
  globalWorkSize : ℕ
  localWorkSize : ℕ
  deriving DecidableEq, Repr

/-- `MLCLCommand::Type` with the fields of the derived class. -/
inductive CommandBody
  | writeBuffer (args : WriteArgs)
  | readBuffer (args : ReadArgs)
  | ndrange (args : NdrArgs)
  | empty
  deriving DecidableEq, Repr, Inhabited

namespace CommandBody

/-- `handle_a_cmd` sets the event of these complete itself, whatever the outcome is. -/
def completesInline : CommandBody → Bool
  | writeBuffer _ => true
  | readBuffer _ => true
  | ndrange _ => false
  | empty => false

def isNdrange : CommandBody → Bool
  | ndrange _ => true
  | _ => false

end CommandBody

/-- `MLCLCommand`: the number of its event, and the rest. -/
structure MLCLCommand where
  event : ℕ
  body : CommandBody
  deriving DecidableEq, Repr, Inhabited

/-! ## The queue object -/

/-- `_cl_command_queue`; `pending` is the pending flag of its async watcher. -/
structure CommandQueue where
  ringBuffer : CircArray MLCLCommand
  refCounter : ℕ
  lastEvent : Option ℕ
  pending : Bool

namespace CommandQueue

def new : CommandQueue := ⟨.new 100, 1, none, false⟩
def isEmpty (q : CommandQueue) : Bool := q.ringBuffer.empty
/-- `ev_async_send` and `ev_feed_event` alike. -/
def feed (q : CommandQueue) : CommandQueue := { q with pending := true }

/-- `push_back`; `none` is the fall off its end without an answer. -/
def pushBack (q : CommandQueue) (cmd : MLCLCommand) : Option RC × CommandQueue :=
  if q.refCounter < 1 then (some .mlErrorCmdqReleased, q)
  else (none, { q with ringBuffer := (q.ringBuffer.pushBack cmd).2 }.feed)

/-- `pop_front`; `none` is the NULL of an empty queue. -/
def popFront (q : CommandQueue) : Option (MLCLCommand × CommandQueue) :=
  q.ringBuffer.popFront.map fun p => (p.1, { q with ringBuffer := p.2 })

def refCntDown (q : CommandQueue) : CommandQueue :=
  if 0 < q.refCounter then { q with refCounter := q.refCounter - 1 } else q

/-- `check_self_destroy`, whether it deletes. -/
def checkSelfDestroy (q : CommandQueue) : Bool := q.refCounter < 1
def setLastEvent (q : CommandQueue) (event : ℕ) : CommandQueue := { q with lastEvent := some event }

end CommandQueue

/-! ## The queue at run time -/

/-- How far the loop thread is in `on_new_cmd_cb`: outside, before the first `is_empty`, before
`pop_front`, before the second `is_empty`, before `check_self_destroy`. -/
inductive LoopPoint
  | idle
  | entered
  | popping
  | rechecking
  | checking
  deriving DecidableEq, Repr

/-- The queue with the states of its events, and the history: the commands that push_back did not
refuse, that entered the ring, that were handed to the dispatcher, and whether the completion
callback was ever called after the deletion. -/
structure QueueRun where
  queue : CommandQueue
  point : LoopPoint
  complete : ℕ → Bool
  deleted : Bool
  nextCommand : ℕ
  accepted : List MLCLCommand
  entered : List MLCLCommand
  handed : List MLCLCommand
  calledDead : Bool

namespace QueueRun

def new : QueueRun := ⟨.new, .idle, fun _ => false, false, 0, [], [], [], false⟩

def ring (s : QueueRun) : List MLCLCommand := s.queue.ringBuffer.toList

def lastDone (s : QueueRun) : Bool := s.queue.lastEvent.all s.complete

def submit (s : QueueRun) (body : CommandBody) : QueueRun :=
  let cmd : MLCLCommand := ⟨s.nextCommand, body⟩
  let (rc, queue) := s.queue.pushBack cmd
  { s with
    queue := queue
    nextCommand := s.nextCommand + 1
    accepted := if rc = some .mlErrorCmdqReleased then s.accepted else s.accepted ++ [cmd]
    entered := if rc = some .mlErrorCmdqReleased ∨ s.queue.ringBuffer.isFull then s.entered
      else s.entered ++ [cmd] }

/-- `set_as_complete` with the callback that `set_last_event` registered, `on_event_complete`. -/
def setAsComplete (s : QueueRun) (event : ℕ) : QueueRun :=
  { s with
    complete := Function.update s.complete event true
    queue := if s.deleted then s.queue else s.queue.feed
    calledDead := s.calledDead || s.deleted }

/-- The command is popped, its event is the last one, and it goes to the dispatcher. -/
def take (s : QueueRun) (cmd : MLCLCommand) (queue : CommandQueue) : QueueRun :=
  { s with
    queue := queue.setLastEvent cmd.event
    point := .rechecking
    handed := s.handed ++ [cmd] }

/-- The part of `on_new_cmd_cb` from `pop_front` to `handle_a_cmd`; `none` is the use of a NULL. -/
def handOver (s : QueueRun) : Option QueueRun :=
  s.queue.popFront.map fun (cmd, queue) =>
    if cmd.body.completesInline then (s.take cmd queue).setAsComplete cmd.event
    else s.take cmd queue

def loopStep (s : QueueRun) : Option QueueRun :=
  match s.point with
  | .idle =>
    if s.queue.pending then
      some { s with queue := { s.queue with pending := false }, point := .entered }
    else none
  | .entered =>
    if s.queue.isEmpty then some { s with point := .checking }
    else if s.lastDone then some { s with point := .popping }
    else some { s with point := .idle }
  | .popping => s.handOver
  | .rechecking => s.queue.lastEvent.map fun event =>
    if !s.queue.isEmpty && s.complete event then { s with queue := s.queue.feed, point := .idle }
    else { s with point := .checking }
  | .checking =>
    if s.queue.checkSelfDestroy then
      some { s with queue := { s.queue with pending := false }, deleted := true, point := .idle }
    else some { s with point := .idle }

end QueueRun

inductive QueueLabel
  | submit (body : CommandBody)
  | release
  | loop
  | complete (event : ℕ)
  deriving DecidableEq, Repr

/-- The queue and its environment. Events are written in the loop thread, so that an ND-range
completes between two callbacks; what does not depend on this is proved with `anywhere`, where it
may complete at any point. -/
def queueLoop (anywhere : Bool) : Machine QueueRun QueueLabel where
  start s := s = QueueRun.new
  next s
    | .submit body => if s.deleted then none else some (s.submit body)
    | .release => if s.deleted then none else some { s with queue := s.queue.refCntDown }
    | .loop => if s.deleted then none else s.loopStep
    | .complete event =>
      if (anywhere ∨ s.point = .idle) ∧ s.complete event = false ∧
          (∃ c ∈ s.handed, c.event = event ∧ c.body.isNdrange = true) then
        some (s.setAsComplete event)
      else none

end FpgaMl
