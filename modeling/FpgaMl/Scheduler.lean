import Mathlib.Tactic
import Mathlib.Algebra.BigOperators.Fin
import FpgaMl.CircArray
import FpgaMl.NDRange

/-! # Schedulers and the objects behind `Global`

The emulated schedulers (scheduler_emu.cc), their timers (ev_timer.cc), the manager of free
schedulers (free_sched_mgr.cc), the tracker of costs (tracker.cc) and `Global` (centrum.cc) with
the heap of ND-ranges. Times are rational seconds; `now` is `ev_now`. A `none` is a run that
stops: a failed assertion, an exception or the use of a deleted object. -/
namespace FpgaMl
open MachineInt
set_option autoImplicit false

/-- `EvTimerBase`: whether the watcher is active, and the two times it was last set to. -/
structure EvTimer where
  active : Bool
  after : ℚ
  period : ℚ

namespace EvTimer

def new : EvTimer := ⟨false, 0, 0⟩
def isActive (t : EvTimer) : Bool := t.active
def startTimer (_ : EvTimer) (after period : ℚ) : EvTimer := ⟨true, after, period⟩
def stopTimer (t : EvTimer) : EvTimer := { t with active := false }

/-- What libev does to an active timer before it calls back: one that does not repeat stops. -/
def expire (t : EvTimer) : EvTimer := if t.period = 0 then t.stopTimer else t

end EvTimer

structure FreeSchedulersManager where
  freeSchedulers : CircArray ℕ
  freeSchedTimer : EvTimer

namespace FreeSchedulersManager

def new (freeScSize : ℕ) : FreeSchedulersManager := ⟨.new freeScSize, .new⟩

def addFreeScheduler (m : FreeSchedulersManager) (id : ℕ) : Option FreeSchedulersManager :=
  if m.freeSchedulers.isFull then none
  else some
    { freeSchedulers := (m.freeSchedulers.pushBack id).2
      freeSchedTimer :=
        if m.freeSchedTimer.isActive then m.freeSchedTimer
        else m.freeSchedTimer.startTimer 0 (1 / 1000000) }

def removeFreeScheduler (m : FreeSchedulersManager) (id : ℕ) : FreeSchedulersManager :=
  let found := (List.range m.freeSchedulers.occupancy).find? fun i =>
    m.freeSchedulers.get i == some id
  let free := match found.bind m.freeSchedulers.popAt with
    | some (_, free) => free
    | none => m.freeSchedulers
  { freeSchedulers := free
    freeSchedTimer := if free.empty then m.freeSchedTimer.stopTimer else m.freeSchedTimer }

end FreeSchedulersManager

structure Scheduler where
  id : ℕ
  timer : EvTimer
  inQueue : CircArray WorkGroupRange
  mockWouldNeedReconf : Bool
  endTime : ℚ
  isLocal : Bool

namespace Scheduler

/-- The constructor; `none` is the `runtime_error` for a board beyond the third. It leaves the end time
unset: `endTime` is whatever is in its place until the first range comes. -/
def new (boardId fpgaId prId : ℕ) (endTime : ℚ) : Option Scheduler :=
  if boardId ≤ 3 then some
    { id := u32 (boardId * 16 + u32 (sub32 fpgaId 1 * 4) + prId)
      timer := .new
      inQueue := .new 100
      mockWouldNeedReconf := false
      endTime := endTime
      isLocal := boardId == 0 && fpgaId == 1 }
  else none

def getRemainingTime (s : Scheduler) (now : ℚ) : ℕ :=
  if s.endTime - now < 0 then 0 else u32 ⌊s.endTime - now⌋.toNat

def wouldNeedReconf (s : Scheduler) (_kernelName : String) : Bool := s.mockWouldNeedReconf

/-- The part of `submit_wgr` that concerns the scheduler itself. The return code of the ring is
not looked at. -/
def enqueue (s : Scheduler) (now : ℚ) (wgr : WorkGroupRange) : Scheduler :=
  let queue := (s.inQueue.pushBack wgr).2
  if s.timer.isActive = false ∧ queue.occupancy < 2 then
    { s with
      inQueue := queue
      endTime := now + wgr.executionCost / 1000
      timer := s.timer.startTimer (wgr.executionCost / 1000) 0 }
  else { s with inQueue := queue }

/-- The part of `on_timer` after the head range was finished, for the queue `rest` that remains. -/
def restart (s : Scheduler) (now : ℚ) (rest : CircArray WorkGroupRange) : Scheduler :=
  if rest.empty then { s with inQueue := rest, timer := s.timer.expire, endTime := 0 }
  else
    { s with
      inQueue := rest
      endTime := now + (rest.cell 0).executionCost / 1000
      timer := s.timer.expire.startTimer ((rest.cell 0).executionCost / 1000) 0 }

end Scheduler

/-- The costs per kernel and scheduler; the map of reconfiguration costs is never filled. -/
structure Tracker (n : ℕ) where
  wgCostMapping : String → Option (Fin n → ℕ)
  reconfCostMapping : String → Option (Fin n → ℕ)

namespace Tracker

variable {n : ℕ}

/-- The constructor, from the local and the remote cost of every known bitstream. -/
def new (bits : String → Option (ℕ × ℕ)) (schedulers : Fin n → Scheduler) : Tracker n where
  wgCostMapping name := (bits name).map fun cost i =>
    if (schedulers i).isLocal then cost.1 else cost.2
  reconfCostMapping _ := none

def getWgCostOnIsland (t : Tracker n) (i : Fin n) (kernelName : String) : ℤ :=
  match t.wgCostMapping kernelName with
  | none => 1000
  | some costs => i32 (costs i)

def getReconfCostOnIsland (t : Tracker n) (i : Fin n) (kernelName : String) : ℤ :=
  match t.reconfCostMapping kernelName with
  | none => 1000
  | some costs => i32 (costs i)

end Tracker

/-- `ReconfController::check_resource_string`. -/
def checkResourceString (_islandNum : ℕ) (_resourceString _kernelName : String) : Bool := true

/-- What has happened so far to each ND-range: how many of its ranges were carved, finished and
lost, how often its event was set complete, and what the object was when it deleted itself. No
step of the program reads it. -/
structure History where
  carved : ℕ → ℕ
  finished : ℕ → ℕ
  dropped : ℕ → ℕ
  completed : ℕ → ℕ
  deleted : ℕ → Option NDRange

def bump (count : ℕ → ℕ) (d : ℕ) : ℕ → ℕ := Function.update count d (count d + 1)

/-- `Global`, with the heap of ND-ranges and their history. -/
structure Global (n : ℕ) where
  schedulers : Fin n → Scheduler
  tracker : Tracker n
  freeScMgr : FreeSchedulersManager
  ndranges : ℕ → Option NDRange
  nextCell : ℕ
  history : History

namespace Global

variable {n : ℕ}

/-- The constructor: every configured region gets a scheduler, and all of them are free. The loop
that frees them counts in an `int`. -/
def new (prs : Fin n → ℕ × ℕ × ℕ) (bits : String → Option (ℕ × ℕ)) (ends : Fin n → ℚ) :
    Option (Global n) :=
  if 2 ^ 31 ≤ n then none
  else if h : ∀ i, (Scheduler.new (prs i).1 (prs i).2.1 (prs i).2.2 (ends i)).isSome then
    let schedulers : Fin n → Scheduler := fun i => Option.get _ (h i)
    ((List.finRange n).foldlM (fun (m : FreeSchedulersManager) i =>
      m.addFreeScheduler (schedulers i).id)
      (FreeSchedulersManager.new n)).map fun freeScMgr =>
        { schedulers := schedulers
          tracker := Tracker.new bits schedulers
          freeScMgr := freeScMgr
          ndranges := fun _ => none
          nextCell := 0
          history := ⟨fun _ => 0, fun _ => 0, fun _ => 0, fun _ => 0, fun _ => none⟩ }
  else none

def newNdrange (g : Global n) (d : NDRange) : Global n :=
  { g with ndranges := Function.update g.ndranges g.nextCell (some d), nextCell := g.nextCell + 1 }

@[simp] theorem newNdrange_self (g : Global n) (r : NDRange) :
    (g.newNdrange r).ndranges g.nextCell = some r := Function.update_self ..

theorem newNdrange_of_ne (g : Global n) (r : NDRange) {d : ℕ} (hd : d ≠ g.nextCell) :
    (g.newNdrange r).ndranges d = g.ndranges d := Function.update_of_ne hd ..

def carveWgs (g : Global n) (d numWgs : ℕ) : Option (WorkGroupRange × Global n) :=
  (g.ndranges d).map fun ndrange =>
    ((ndrange.carveWgs d numWgs).1,
      { g with
        ndranges := Function.update g.ndranges d (some (ndrange.carveWgs d numWgs).2)
        history := { g.history with carved := bump g.history.carved d } })

/-- `submit_wgr` on scheduler `i`; a range the full ring refuses is lost, and so counted. -/
def submitWgr (g : Global n) (now : ℚ) (i : Fin n) (wgr : WorkGroupRange) : Global n :=
  { g with
    schedulers := Function.update g.schedulers i ((g.schedulers i).enqueue now wgr)
    freeScMgr := g.freeScMgr.removeFreeScheduler (g.schedulers i).id
    history :=
      if (g.schedulers i).inQueue.isFull then
        { g.history with dropped := wgr.parentNdrange.elim g.history.dropped (bump g.history.dropped) }
      else g.history }

/-- What both routing algorithms do with a chosen scheduler `i`: carve `numWgs` work-groups, set
the cost of the range and submit it. -/
def carveAndSubmit (g : Global n) (now : ℚ) (d : ℕ) (i : Fin n) (numWgs : ℕ)
    (cost : WorkGroupRange → ℕ) : Option (Global n) :=
  (g.carveWgs d numWgs).map fun carved =>
    carved.2.submitWgr now i (carved.1.setExecutionCost (cost carved.1))

/-- `mark_as_finished` for a range of the ND-range in cell `d`, with the event that is set
complete. -/
def markAsFinished (g : Global n) (d : ℕ) : Option (Global n × Option EventRef) :=
  (g.ndranges d).map fun ndrange =>
    let (ndrange', last) := ndrange.decrementWgrsCounter
    let history := { g.history with finished := bump g.history.finished d }
    if last then
      ({ g with
          ndranges := Function.update g.ndranges d none
          history := { history with
            completed := bump g.history.completed d
            deleted := Function.update g.history.deleted d (some ndrange') } },
        some ndrange.event)
    else ({ g with ndranges := Function.update g.ndranges d (some ndrange'), history := history },
      none)

def onTimer (g : Global n) (now : ℚ) (i : Fin n) : Option (Global n × Option EventRef) := do
  let (wgr, rest) ← (g.schedulers i).inQueue.popFront
  let (g₁, event) ← g.markAsFinished (← wgr.parentNdrange)
  let freeScMgr ←
    (if rest.empty then g₁.freeScMgr.addFreeScheduler (g.schedulers i).id else some g₁.freeScMgr)
  return ({ g₁ with
    schedulers := Function.update g.schedulers i ((g.schedulers i).restart now rest)
    freeScMgr := freeScMgr }, event)

end Global

end FpgaMl
