import Mathlib.Tactic
import FpgaMl.ClientObjects
import FpgaMl.EventLifetimes

/-! # Calls that a released queue refuses

The enqueueing functions and `clFinish` (ocl_api.cc) from the first check up to the answer of
`ml_submit_cmd`, with the objects that the constructors of the commands (ocl_ds.h) make and count. -/
namespace FpgaMl
open MachineInt TransitionSystem
set_option autoImplicit false

def clInvalidKernel : ℤ := -48
def clInvalidWorkDimension : ℤ := -53
def clInvalidWorkGroupSize : ℤ := -54
def clInvalidGlobalWorkSize : ℤ := -63

inductive FpmlRc
  | fpmlSuccess
  | fpmlErrWrongParams
  | fpmlErrInvalidCmdq
  deriving DecidableEq, Repr

/-- The `m_mem` of a command, which the constructors of the two transfers count. -/
def CommandBody.mem : CommandBody → Option ℕ
  | writeBuffer args => args.mem
  | readBuffer args => args.mem
  | _ => none

/-- The objects; `xmlNames` has those of the programs of the kernels. A command has the number of
its event. -/
structure EnqueueState where
  queues : ℕ → CommandQueue
  mems : ℕ → RefCounter
  kernels : ℕ → RefCounter
  xmlNames : ℕ → String
  commands : ℕ → Option MLCLCommand
  events : ℕ → RefCounter
  nextEvent : ℕ

/-- A function returns, or it goes on with the event in `handle_blocking_non_blocking`. -/
inductive EnqueueAnswer
  | returned (errCode : ℤ)
  | goesOn (event : ℕ) (blocking userEvent : Bool)
  deriving DecidableEq, Repr

namespace EnqueueState

/-! ## Commands -/

def eventUp (s : EnqueueState) (e : ℕ) : EnqueueState :=
  { s with events := Function.update s.events e (s.events e).refCntUp }

def eventDown (s : EnqueueState) (e : ℕ) : EnqueueState :=
  { s with events := Function.update s.events e (s.events e).refCntDown }

def memUp (s : EnqueueState) (m : ℕ) : EnqueueState :=
  { s with mems := Function.update s.mems m (s.mems m).refCntUp }

def memDown (s : EnqueueState) (m : ℕ) : EnqueueState :=
  { s with mems := Function.update s.mems m (s.mems m).refCntDown }

def kernelUp (s : EnqueueState) (k : ℕ) : EnqueueState :=
  { s with kernels := Function.update s.kernels k (s.kernels k).refCntUp }

def kernelDown (s : EnqueueState) (k : ℕ) : EnqueueState :=
  { s with kernels := Function.update s.kernels k (s.kernels k).refCntDown }

/-- The constructor of `MLCLCommand`, with a new event. -/
def newCommand (s : EnqueueState) (body : CommandBody) : EnqueueState :=
  { s with
    commands := Function.update s.commands s.nextEvent (some ⟨s.nextEvent, body⟩)
    events := Function.update s.events s.nextEvent .new
    nextEvent := s.nextEvent + 1 }

/-- `MLCLCommandWB`, `MLCLCommandRB`, `MLCLCommandNDR` and the base class. -/
def construct (s : EnqueueState) (body : CommandBody) : EnqueueState :=
  let s := s.newCommand body
  let s := body.mem.elim s s.memUp
  body.kernel.elim s s.kernelUp

/-- `delete cmd`. -/
def destruct (s : EnqueueState) (cmd : MLCLCommand) : EnqueueState :=
  let s := cmd.body.mem.elim s s.memDown
  let s := cmd.body.kernel.elim s s.kernelDown
  { s.eventDown cmd.event with commands := Function.update s.commands cmd.event none }

def mlSubmitCmd (s : EnqueueState) (cmdq : Option ℕ) (cmd : Option MLCLCommand) :
    FpmlRc × EnqueueState :=
  match cmdq, cmd with
  | some q, some cmd =>
    let (rc, queue) := (s.queues q).pushBack cmd
    (if rc = some .mlErrorCmdqReleased then .fpmlErrInvalidCmdq else .fpmlSuccess,
      { s with queues := Function.update s.queues q queue })
  | _, _ => (.fpmlErrWrongParams, s)

/-! ## The functions -/

/-- What the two transfers and `clFinish` do with their command. -/
def submitCounted (s : EnqueueState) (q : ℕ) (body : CommandBody) (blocking userEvent : Bool) :
    EnqueueAnswer × EnqueueState :=
  let e := s.nextEvent
  match ((s.construct body).eventUp e).mlSubmitCmd (some q) (some ⟨e, body⟩) with
  | (.fpmlErrInvalidCmdq, t) => (.returned clInvalidCommandQueue, t.eventDown e)
  | (_, t) => (.goesOn e blocking userEvent, t)

def clEnqueueWriteBuffer (s : EnqueueState) (commandQueue buffer : Option ℕ) (blockingWrite : Bool)
    (offset size ptr : ℕ) (event : Bool) : EnqueueAnswer × EnqueueState :=
  match commandQueue with
  | none => (.returned clInvalidCommandQueue, s)
  | some q =>
    if buffer = none then (.returned clInvalidMemObject, s)
    else s.submitCounted q (.writeBuffer ⟨buffer, offset, size, ptr⟩) blockingWrite event

def clEnqueueReadBuffer (s : EnqueueState) (commandQueue buffer : Option ℕ) (blockingRead : Bool)
    (offset size ptr : ℕ) (event : Bool) : EnqueueAnswer × EnqueueState :=
  match commandQueue with
  | none => (.returned clInvalidCommandQueue, s)
  | some q =>
    if buffer = none then (.returned clInvalidMemObject, s)
    else s.submitCounted q (.readBuffer ⟨buffer, offset, size, ptr⟩) blockingRead event

def clFinish (s : EnqueueState) (commandQueue : Option ℕ) : EnqueueAnswer × EnqueueState :=
  match commandQueue with
  | none => (.returned clInvalidCommandQueue, s)
  | some q => s.submitCounted q .empty true false

/-- The command of a launch: null sizes stay zero. -/
def ndrBody (s : EnqueueState) (kernel : ℕ) (globalWorkSize localWorkSize : Option ℕ) :
    CommandBody :=
  .ndrange ⟨some (kernel, some (s.xmlNames kernel)), globalWorkSize.getD 0, localWorkSize.getD 0⟩

/-- The sizes are the first components; `none` is the read of a null `global_work_size`. -/
def clEnqueueNDRangeKernel (bits : Bitstreams) (s : EnqueueState) (commandQueue kernel : Option ℕ)
    (workDim : ℕ) (globalWorkSize localWorkSize : Option ℕ) :
    Option (EnqueueAnswer × EnqueueState) :=
  match commandQueue, kernel with
  | none, _ => some (.returned clInvalidCommandQueue, s)
  | some _, none => some (.returned clInvalidKernel, s)
  | some q, some k =>
    if 1 < workDim then some (.returned clInvalidWorkDimension, s)
    else if localWorkSize.getD 0 < 1 then some (.returned clInvalidWorkGroupSize, s)
    else if !bits.checkWgSize (s.xmlNames k) (localWorkSize.getD 0) then
      some (.returned clInvalidWorkGroupSize, s)
    else globalWorkSize.map fun size =>
      if size % localWorkSize.getD 0 ≠ 0 then (.returned clInvalidGlobalWorkSize, s)
      else
        let body := s.ndrBody k globalWorkSize localWorkSize
        match (s.construct body).mlSubmitCmd (some q) (some ⟨s.nextEvent, body⟩) with
        | (.fpmlErrInvalidCmdq, t) => (.returned clInvalidCommandQueue, t)
        | (_, t) => (.returned clSuccess, t)

end EnqueueState

/-- A call on some queue; the lists of events to wait for are not looked at. -/
inductive QueueCall
  | clEnqueueWriteBuffer (buffer : Option ℕ) (blockingWrite : Bool) (offset size ptr : ℕ)
    (event : Bool)
  | clEnqueueReadBuffer (buffer : Option ℕ) (blockingRead : Bool) (offset size ptr : ℕ)
    (event : Bool)
  | clEnqueueNDRangeKernel (kernel : Option ℕ) (workDim : ℕ)
    (globalWorkSize localWorkSize : Option ℕ)
  | clFinish
  deriving DecidableEq, Repr

namespace QueueCall

def perform (bits : Bitstreams) (s : EnqueueState) (commandQueue : Option ℕ) :
    QueueCall → Option (EnqueueAnswer × EnqueueState)
  | clEnqueueWriteBuffer buffer blockingWrite offset size ptr event =>
    some (s.clEnqueueWriteBuffer commandQueue buffer blockingWrite offset size ptr event)
  | clEnqueueReadBuffer buffer blockingRead offset size ptr event =>
    some (s.clEnqueueReadBuffer commandQueue buffer blockingRead offset size ptr event)
  | clEnqueueNDRangeKernel kernel workDim globalWorkSize localWorkSize =>
    s.clEnqueueNDRangeKernel bits commandQueue kernel workDim globalWorkSize localWorkSize
  | clFinish => some (s.clFinish commandQueue)

/-- The arguments other than the queue. -/
def Valid (bits : Bitstreams) (s : EnqueueState) : QueueCall → Prop
  | clEnqueueWriteBuffer buffer .. => buffer.isSome
  | clEnqueueReadBuffer buffer .. => buffer.isSome
  | clEnqueueNDRangeKernel kernel workDim globalWorkSize localWorkSize =>
    ∃ k size, kernel = some k ∧ globalWorkSize = some size ∧ workDim ≤ 1 ∧
      1 ≤ localWorkSize.getD 0 ∧ bits.checkWgSize (s.xmlNames k) (localWorkSize.getD 0) = true ∧
      size % localWorkSize.getD 0 = 0
  | clFinish => True

/-- The command that the call makes. -/
def body (s : EnqueueState) : QueueCall → CommandBody
  | clEnqueueWriteBuffer buffer _ offset size ptr _ => .writeBuffer ⟨buffer, offset, size, ptr⟩
  | clEnqueueReadBuffer buffer _ offset size ptr _ => .readBuffer ⟨buffer, offset, size, ptr⟩
  | clEnqueueNDRangeKernel kernel _ globalWorkSize localWorkSize =>
    kernel.elim .empty fun k => s.ndrBody k globalWorkSize localWorkSize
  | clFinish => .empty

end QueueCall

/-! ## What a refused call leaves -/

theorem CommandQueue.pushBack_released {queue : CommandQueue} (h : queue.refCounter = 0)
    (cmd : MLCLCommand) : queue.pushBack cmd = (some .mlErrorCmdqReleased, queue) := by
  unfold CommandQueue.pushBack
  apply if_pos
  omega

namespace EnqueueState

variable {s : EnqueueState} {q : ℕ} {cmd : MLCLCommand}

section Construct

variable (s : EnqueueState) (body : CommandBody)

theorem construct_eq : s.construct body =
    { s with
      mems := body.mem.elim s.mems fun m => Function.update s.mems m (s.mems m).refCntUp
      kernels := body.kernel.elim s.kernels fun k =>
        Function.update s.kernels k (s.kernels k).refCntUp
      commands := Function.update s.commands s.nextEvent (some ⟨s.nextEvent, body⟩)
      events := Function.update s.events s.nextEvent .new
      nextEvent := s.nextEvent + 1 } := by
  unfold construct
  cases body.mem <;> cases body.kernel <;> rfl

@[simp] theorem queues_construct : (s.construct body).queues = s.queues := by
  rw [construct_eq]

@[simp] theorem commands_construct : (s.construct body).commands =
    Function.update s.commands s.nextEvent (some ⟨s.nextEvent, body⟩) := by
  rw [construct_eq]

@[simp] theorem events_construct :
    (s.construct body).events = Function.update s.events s.nextEvent .new := by
  rw [construct_eq]

end Construct

theorem mlSubmitCmd_released (h : (s.queues q).refCounter = 0) :
    s.mlSubmitCmd (some q) (some cmd) = (.fpmlErrInvalidCmdq, s) := by
  unfold mlSubmitCmd
  dsimp only
  rw [CommandQueue.pushBack_released h, if_pos rfl, Function.update_eq_self]

/-- The reference that the function takes to a new event is given back. -/
theorem eventDown_eventUp {e : ℕ} (h : s.events e = .new) : (s.eventUp e).eventDown e = s := by
  unfold eventUp eventDown
  dsimp only
  rw [Function.update_self, Function.update_idem, h]
  have hcount : RefCounter.new.refCntUp.refCntDown = s.events e := by
    rw [h]
    exact RefCounter.refCntDown_refCntUp (by decide) (by decide)
  rw [hcount, Function.update_eq_self]

theorem submitCounted_released (h : (s.queues q).refCounter = 0) (body : CommandBody)
    (blocking userEvent : Bool) : s.submitCounted q body blocking userEvent =
      (.returned clInvalidCommandQueue, s.construct body) := by
  have hqueue : (((s.construct body).eventUp s.nextEvent).queues q).refCounter = 0 := by
    change ((s.construct body).queues q).refCounter = 0
    rw [queues_construct, h]
  unfold submitCounted
  dsimp only
  rw [mlSubmitCmd_released hqueue]
  dsimp only
  rw [eventDown_eventUp]
  rw [events_construct, Function.update_self]

end EnqueueState

namespace QueueCall
open EnqueueState

variable {bits : Bitstreams} {s : EnqueueState} {q : ℕ} {call : QueueCall}

/-- The constructor of its command is all that is left of a refused call. -/
theorem perform_released (hvalid : call.Valid bits s) (h : (s.queues q).refCounter = 0) :
    call.perform bits s (some q) =
      some (.returned clInvalidCommandQueue, s.construct (call.body s)) := by
  cases call with
  | clEnqueueWriteBuffer buffer _ offset size ptr _ =>
    have hbuffer : buffer ≠ none := Option.isSome_iff_ne_none.mp hvalid
    unfold perform EnqueueState.clEnqueueWriteBuffer
    dsimp only
    rw [if_neg hbuffer, submitCounted_released h]
    rfl
  | clEnqueueReadBuffer buffer _ offset size ptr _ =>
    have hbuffer : buffer ≠ none := Option.isSome_iff_ne_none.mp hvalid
    unfold perform EnqueueState.clEnqueueReadBuffer
    dsimp only
    rw [if_neg hbuffer, submitCounted_released h]
    rfl
  | clEnqueueNDRangeKernel kernel workDim globalWorkSize localWorkSize =>
    obtain ⟨k, size, rfl, rfl, hdim, hlocal, hcheck, hmod⟩ := hvalid
    have hqueue : ((s.construct (s.ndrBody k (some size) localWorkSize)).queues q).refCounter = 0 := by
      rw [queues_construct, h]
    unfold perform EnqueueState.clEnqueueNDRangeKernel
    dsimp only
    rw [if_neg (not_lt.mpr hdim), if_neg (not_lt.mpr hlocal), hcheck, Option.map_some,
      if_neg (not_not.mpr hmod), mlSubmitCmd_released hqueue]
    rfl
  | clFinish =>
    unfold perform EnqueueState.clFinish
    dsimp only
    rw [submitCounted_released h]
    rfl

/-! ## The law -/

/-- The counters of the `cl_mem` and of the kernel that the command of the call counts. -/
def KeepsCounters (s t : EnqueueState) (body : CommandBody) : Prop :=
  (∀ m ∈ body.mem, (t.mems m).counter = (s.mems m).counter) ∧
    ∀ k ∈ body.kernel, (t.kernels k).counter = (s.kernels k).counter

/-- None of the commands and events that were made are there. -/
def NothingSurvives (s t : EnqueueState) : Prop :=
  ∀ e, s.nextEvent ≤ e → e < t.nextEvent → t.commands e = none ∧ (t.events e).deleted = true

/-- The call is refused with its code and leaves no trace. -/
def LeavesNoTrace (bits : Bitstreams) (s : EnqueueState) (q : ℕ) (call : QueueCall) : Prop :=
  ∃ t, call.perform bits s (some q) = some (.returned clInvalidCommandQueue, t) ∧
    (t.queues q).ringBuffer = (s.queues q).ringBuffer ∧ KeepsCounters s t (call.body s) ∧
    NothingSurvives s t

theorem keepsCounters_construct_iff (s : EnqueueState) (body : CommandBody) :
    KeepsCounters s (s.construct body) body ↔ body.mem = none ∧ body.kernel = none := by
  unfold KeepsCounters
  rw [construct_eq]
  dsimp only
  constructor
  · intro ⟨hmem, hkernel⟩
    constructor
    · cases hbody : body.mem with
      | none => rfl
      | some m =>
        have hkept := hmem m hbody
        rw [hbody, Option.elim_some, Function.update_self] at hkept
        exact absurd hkept (RefCounter.counter_refCntUp_ne _)
    · cases hbody : body.kernel with
      | none => rfl
      | some k =>
        have hkept := hkernel k hbody
        rw [hbody, Option.elim_some, Function.update_self] at hkept
        exact absurd hkept (RefCounter.counter_refCntUp_ne _)
  · rintro ⟨hmem, hkernel⟩
    rw [hmem, hkernel]
    exact ⟨nofun, nofun⟩

theorem counts_nothing_iff (hvalid : call.Valid bits s) :
    ((call.body s).mem = none ∧ (call.body s).kernel = none) ↔ call = clFinish := by
  cases call with
  | clEnqueueWriteBuffer buffer _ offset size ptr _ =>
    have hbuffer : buffer ≠ none := Option.isSome_iff_ne_none.mp hvalid
    exact iff_of_false (fun h => hbuffer h.1) nofun
  | clEnqueueReadBuffer buffer _ offset size ptr _ =>
    have hbuffer : buffer ≠ none := Option.isSome_iff_ne_none.mp hvalid
    exact iff_of_false (fun h => hbuffer h.1) nofun
  | clEnqueueNDRangeKernel kernel workDim globalWorkSize localWorkSize =>
    obtain ⟨k, size, rfl, -⟩ := hvalid
    exact iff_of_false (fun h => Option.some_ne_none _ h.2) nofun
  | clFinish => exact iff_of_true ⟨rfl, rfl⟩ rfl

/-- A released queue refuses each of the calls with its code and keeps its ring. The counters stay
only where the call is `clFinish`; the command is never deleted, and its event with it. -/
theorem refused_call_leaks (hvalid : call.Valid bits s) (hreleased : (s.queues q).refCounter = 0) :
    (∃ t, call.perform bits s (some q) = some (.returned clInvalidCommandQueue, t) ∧
      t.queues = s.queues ∧ (KeepsCounters s t (call.body s) ↔ call = clFinish) ∧
      t.commands s.nextEvent = some ⟨s.nextEvent, call.body s⟩ ∧ t.events s.nextEvent = .new) ∧
    ¬ LeavesNoTrace bits s q call := by
  have hperform := perform_released hvalid hreleased
  have hcommand : (s.construct (call.body s)).commands s.nextEvent =
      some ⟨s.nextEvent, call.body s⟩ := by
    rw [commands_construct, Function.update_self]
  refine ⟨⟨_, hperform, queues_construct _ _, ?_, hcommand, ?_⟩, ?_⟩
  · rw [keepsCounters_construct_iff]
    exact counts_nothing_iff hvalid
  · rw [events_construct, Function.update_self]
  · rintro ⟨t, ht, -, -, hnone⟩
    obtain rfl : s.construct (call.body s) = t := by
      rw [hperform] at ht
      exact (Prod.mk.inj (Option.some.inj ht)).2
    have hmade : s.nextEvent < (s.construct (call.body s)).nextEvent := by
      rw [construct_eq]
      exact Nat.lt_succ_self _
    have hgone := (hnone s.nextEvent le_rfl hmade).1
    rw [hcommand] at hgone
    cases hgone

/-- One released queue, one buffer and one kernel. -/
def releasedQueue : EnqueueState :=
  ⟨fun _ => CommandQueue.new.refCntDown, fun _ => .new, fun _ => .new, fun _ => "one.xml",
    fun _ => none, fun _ => .absent, 0⟩

theorem refused_call_leaks_launch : ¬ LeavesNoTrace ⟨fun _ => none, fun _ => some 4⟩ releasedQueue 0
    (.clEnqueueNDRangeKernel (some 0) 1 (some 8) (some 4)) := by
  have hvalid : (clEnqueueNDRangeKernel (some 0) 1 (some 8) (some 4)).Valid
      ⟨fun _ => none, fun _ => some 4⟩ releasedQueue :=
    ⟨0, 8, rfl, rfl, le_rfl, by decide, by decide, rfl⟩
  have hreleased : (releasedQueue.queues 0).refCounter = 0 := rfl
  exact (refused_call_leaks hvalid hreleased).2

/-- After a refused write the buffer has a second reference, and the command and its event stay. -/
theorem refused_write_traced :
    ((clEnqueueWriteBuffer (some 0) true 0 1 16 false).perform ⟨fun _ => none, fun _ => none⟩
      releasedQueue (some 0)).map (fun r => (r.1, (r.2.mems 0).counter, r.2.commands 0,
        r.2.events 0)) = some (.returned clInvalidCommandQueue, 2,
          some ⟨0, .writeBuffer ⟨some 0, 0, 1, 16⟩⟩, .new) ∧
    ¬ LeavesNoTrace ⟨fun _ => none, fun _ => none⟩ releasedQueue 0
      (.clEnqueueWriteBuffer (some 0) true 0 1 16 false) := by
  have hcall : ((clEnqueueWriteBuffer (some 0) true 0 1 16 false).perform
      ⟨fun _ => none, fun _ => none⟩ releasedQueue (some 0)).map (fun r => (r.1, (r.2.mems 0).counter,
        r.2.commands 0, r.2.events 0)) = some (.returned clInvalidCommandQueue, 2,
          some ⟨0, .writeBuffer ⟨some 0, 0, 1, 16⟩⟩, .new) := by
    decide +kernel
  refine ⟨hcall, ?_⟩
  rintro ⟨t, ht, -, ⟨hmem, -⟩, -⟩
  rw [ht] at hcall
  have hcounter : (t.mems 0).counter = 2 := congrArg (fun r => r.2.1) (Option.some.inj hcall)
  have hkept : (t.mems 0).counter = 1 := hmem 0 rfl
  rw [hcounter] at hkept
  cases hkept

end QueueCall

/-! ## What is missing -/

namespace EnqueueState

theorem destruct_eq (s : EnqueueState) (cmd : MLCLCommand) : s.destruct cmd =
    { s with
      mems := cmd.body.mem.elim s.mems fun m => Function.update s.mems m (s.mems m).refCntDown
      kernels := cmd.body.kernel.elim s.kernels fun k =>
        Function.update s.kernels k (s.kernels k).refCntDown
      commands := Function.update s.commands cmd.event none
      events := Function.update s.events cmd.event (s.events cmd.event).refCntDown } := by
  unfold destruct
  cases cmd.body.mem <;> cases cmd.body.kernel <;> rfl

/-- A reference that is taken and given back. -/
theorem update_down_up (counters : ℕ → RefCounter) (holder : Option ℕ)
    (h : ∀ x ∈ holder, 0 < (counters x).counter ∧ (counters x).counter + 1 < 2 ^ 32) :
    (holder.elim (holder.elim counters fun x => Function.update counters x (counters x).refCntUp)
      fun x => Function.update
        (holder.elim counters fun x => Function.update counters x (counters x).refCntUp) x
        (holder.elim counters (fun x => Function.update counters x (counters x).refCntUp)
          x).refCntDown) = counters := by
  cases holder with
  | none => rfl
  | some x =>
    obtain ⟨hpos, hbound⟩ := h x rfl
    simp only [Option.elim_some]
    rw [Function.update_self, Function.update_idem, RefCounter.refCntDown_refCntUp hpos hbound,
      Function.update_eq_self]

/-- `delete cmd` after the constructor of a command leaves no trace of it, as long as the objects are
referred to and their counters have room. -/
theorem destruct_construct {s : EnqueueState} (body : CommandBody)
    (hmem : ∀ m ∈ body.mem, 0 < (s.mems m).counter ∧ (s.mems m).counter + 1 < 2 ^ 32)
    (hkernel : ∀ k ∈ body.kernel, 0 < (s.kernels k).counter ∧ (s.kernels k).counter + 1 < 2 ^ 32) :
    ((s.construct body).destruct ⟨s.nextEvent, body⟩).queues = s.queues ∧
      ((s.construct body).destruct ⟨s.nextEvent, body⟩).mems = s.mems ∧
      ((s.construct body).destruct ⟨s.nextEvent, body⟩).kernels = s.kernels ∧
      ((s.construct body).destruct ⟨s.nextEvent, body⟩).commands =
        Function.update s.commands s.nextEvent none ∧
      (((s.construct body).destruct ⟨s.nextEvent, body⟩).events s.nextEvent).deleted = true := by
  rw [destruct_eq, construct_eq]
  refine ⟨rfl, update_down_up s.mems body.mem hmem, update_down_up s.kernels body.kernel hkernel,
    Function.update_idem .., ?_⟩
  dsimp only
  rw [Function.update_self, Function.update_self]
  rfl

end EnqueueState

/-! ## The same calls among others -/

namespace EventRun

variable {s : EventRun} {q e : ℕ} {call : EnqueueCall} {body : CommandBody}

theorem submit_released (e : ℕ) (call : EnqueueCall) (halive : s.destroyed call.queue = false)
    (hreleased : (s.queues call.queue).refCounter = 0) (released taken : CallPoint) :
    s.submit e call released taken = some (s.setCall e { call with point := released }) := by
  unfold submit
  rw [halive, if_neg Bool.false_ne_true, CommandQueue.pushBack_released hreleased]
  dsimp only
  rw [if_pos rfl]
  unfold setQueue
  rw [Function.update_eq_self]

theorem next_client {bits : Bitstreams} {t : EventRun} (hcall : s.calls e = some call)
    (h : s.clientStep e call = some t) : (eventSystem bits).next s (.client e) = some t := by
  change (s.calls e).bind (s.clientStep e) = some t
  rw [hcall, Option.bind_some, h]

theorem counter_enqueue (s : EventRun) (q : ℕ) (body : CommandBody) (blocking userEvent : Bool) :
    ((s.enqueue q body blocking userEvent).events s.nextEvent).counter = .new := by
  change (Function.update s.events s.nextEvent ClEvent.new s.nextEvent).counter = _
  rw [Function.update_self]
  rfl

section Refused

variable (bits : Bitstreams) (hcall : s.calls e = some call) (hpoint : call.point = .created)
  (halive : s.destroyed call.queue = false) (hreleased : (s.queues call.queue).refCounter = 0)
include hcall hpoint halive hreleased

/-- A launch is refused in its first step. -/
theorem run_refused_launch (hbody : call.body.isNdrange = true) :
    (eventSystem bits).run s [.client e] =
      some (s.setCall e { call with point := .returned clInvalidCommandQueue false }) := by
  have hreturn : s.clientStep e call =
      some (s.setCall e { call with point := .returned clInvalidCommandQueue false }) := by
    unfold clientStep
    rw [hpoint]
    dsimp only
    rw [if_pos hbody, submit_released e call halive hreleased]
  rw [Machine.run, next_client hcall hreturn, Option.bind_some, Machine.run]

/-- The other calls take a reference to their event before, and give it back after the refusal. -/
theorem run_refused_counted (hbody : call.body.isNdrange = false)
    (hnew : (s.events e).counter = .new) : ∃ t, (eventSystem bits).run s
      [.client e, .client e, .client e] = some t ∧ t.queues = s.queues ∧
      t.commands = s.commands ∧ (t.events e).counter = .new ∧
      t.calls e = some { call with point := .returned clInvalidCommandQueue false } := by
  let counted := (s.refCntUp e).setCall e { call with point := .counted }
  let refused := counted.setCall e { call with point := .refused }
  have hcount : s.clientStep e call = some counted := by
    unfold clientStep
    rw [hpoint]
    dsimp only
    rw [if_neg (Bool.not_eq_true _ ▸ hbody)]
  have hrefuse : counted.clientStep e { call with point := .counted } = some refused :=
    submit_released (s := counted) e { call with point := .counted } halive hreleased .refused
      .submitted
  refine ⟨(refused.refCntDown e).setCall e
    { call with point := .returned clInvalidCommandQueue false }, ?_, rfl, rfl, ?_,
    Function.update_self ..⟩
  · simp only [Machine.run]
    rw [next_client hcall hcount, Option.bind_some,
      next_client (s := counted) (Function.update_self ..) hrefuse, Option.bind_some,
      next_client (s := refused) (Function.update_self ..) rfl, Option.bind_some]
  · change ((refused.refCntDown e).events e).counter = _
    rw [counter_refCntDown, if_pos rfl]
    change ((s.refCntUp e).events e).counter.refCntDown = _
    rw [counter_refCntUp, if_pos rfl, hnew]
    exact RefCounter.refCntDown_refCntUp (by decide) (by decide)

end Refused

/-- The steps of a refused call, when no other thread steps in between: they change queues, commands
and events as the function does. -/
theorem run_released (bits : Bitstreams) (haccepts : bits.accepts body = true)
    (halive : s.destroyed q = false) (hreleased : (s.queues q).refCounter = 0)
    (blocking userEvent : Bool) : ∃ t call, (eventSystem bits).run s
      (.enqueue q body blocking userEvent ::
        List.replicate (if body.isNdrange then 1 else 3) (.client s.nextEvent)) = some t ∧
      t.queues = s.queues ∧ t.commands = Function.update s.commands s.nextEvent true ∧
      (t.events s.nextEvent).counter = .new ∧ t.calls s.nextEvent = some call ∧
      call.point = .returned clInvalidCommandQueue false := by
  have hmade : (eventSystem bits).next s (.enqueue q body blocking userEvent) =
      some (s.enqueue q body blocking userEvent) := if_pos haccepts
  obtain ⟨call, rfl, rfl, hpoint, hcalls⟩ := s.calls_enqueue q body blocking userEvent
  have hcall := (congrFun hcalls s.nextEvent).trans (Function.update_self ..)
  have hnew := counter_enqueue s call.queue call.body blocking userEvent
  rw [Machine.run, hmade, Option.bind_some]
  cases hbody : call.body.isNdrange with
  | true =>
    exact ⟨_, _, run_refused_launch bits hcall hpoint halive hreleased hbody, rfl, rfl, hnew,
      Function.update_self .., rfl⟩
  | false =>
    obtain ⟨t, hrun, hqueues, hcommands, hcounter, hlast⟩ :=
      run_refused_counted bits hcall hpoint halive hreleased hbody hnew
    exact ⟨t, _, hrun, hqueues, hcommands, hcounter, hlast, rfl⟩

end EventRun

end FpgaMl
