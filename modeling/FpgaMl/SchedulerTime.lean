import Mathlib.Tactic
import FpgaMl.Foundation.TransitionSystem
import FpgaMl.Foundation.SingleServer
import FpgaMl.Accounting

/-! # A scheduler in time

One emulated scheduler with a clock, whose timer fires exactly when it is due. Ranges arrive at
any time up to then, also at the instant of the firing. The scheduler is a queue with a single
server, and `m_end_time` is the time at which the range in front will leave. -/
namespace FpgaMl
open TransitionSystem SingleServer
set_option autoImplicit false

/-- `due` is when the active timer fires; the logs say which range was submitted when, and which
was marked as finished when. -/
structure TimedScheduler where
  scheduler : Scheduler
  clock : ℚ
  due : ℚ
  submitted : List (ℚ × WorkGroupRange)
  finished : List (ℚ × WorkGroupRange)

inductive TimeLabel
  | submit (now : ℚ) (wgr : WorkGroupRange)
  | fire

/-- When the timer is due after a step at `now`, if it was due at `due` before. -/
def EvTimer.dueAfter (before after : EvTimer) (now due : ℚ) : ℚ :=
  if before.isActive then due else now + after.after

namespace TimedScheduler

def submit (t : TimedScheduler) (now : ℚ) (wgr : WorkGroupRange) : TimedScheduler where
  scheduler := t.scheduler.enqueue now wgr
  clock := now
  due := EvTimer.dueAfter t.scheduler.timer (t.scheduler.enqueue now wgr).timer now t.due
  submitted := t.submitted ++ [(now, wgr)]
  finished := t.finished

/-- The timer fires with `rest` behind the range `wgr` in front; it is inactive by then. -/
def fire (t : TimedScheduler) (wgr : WorkGroupRange) (rest : CircArray WorkGroupRange) :
    TimedScheduler where
  scheduler := t.scheduler.restart t.due rest
  clock := t.due
  due := EvTimer.dueAfter t.scheduler.timer.expire (t.scheduler.restart t.due rest).timer t.due t.due
  submitted := t.submitted
  finished := t.finished ++ [(t.due, wgr)]

end TimedScheduler

/-- A scheduler from its construction on, whatever its unset end time is. At most 100 ranges are
outstanding. -/
def timedScheduler : Machine TimedScheduler TimeLabel where
  start t := t.scheduler.inQueue = .new 100 ∧ t.scheduler.timer = .new ∧ t.submitted = [] ∧
    t.finished = []
  next t
    | .submit now wgr =>
      if t.clock ≤ now ∧ (t.scheduler.timer.isActive = true → now ≤ t.due) ∧
        t.scheduler.inQueue.isFull = false then some (t.submit now wgr) else none
    | .fire =>
      if t.scheduler.timer.isActive then
        t.scheduler.inQueue.popFront.map fun p => t.fire p.1 p.2
      else none

/-! ## The scheduler's own part -/

namespace Scheduler

def queue (s : Scheduler) : List WorkGroupRange := s.inQueue.toList

/-- How long a range is on the island, in seconds. -/
def duration (w : WorkGroupRange) : ℚ := w.executionCost / 1000

theorem duration_nonneg (w : WorkGroupRange) : 0 ≤ duration w := by
  unfold duration
  positivity

theorem queue_enqueue {s : Scheduler} (hroom : s.inQueue.isFull = false) (now : ℚ)
    (w : WorkGroupRange) : (s.enqueue now w).queue = s.queue ++ [w] := by
  unfold queue
  rw [enqueue_inQueue, CircArray.toList_pushBack _ _ hroom]

theorem queue_restart (s : Scheduler) (now : ℚ) (rest : CircArray WorkGroupRange) :
    (s.restart now rest).queue = rest.toList := by
  unfold queue
  rw [restart_inQueue]

/-- With ranges left, the one in front is timed. -/
theorem restart_next {s : Scheduler} (now : ℚ) {rest : CircArray WorkGroupRange}
    {w : WorkGroupRange} {ws : List WorkGroupRange} (hrest : rest.toList = w :: ws) :
    (s.restart now rest).endTime = now + duration w ∧
      (s.restart now rest).timer.after = duration w := by
  have hne : ¬ rest.empty = true := by
    rw [CircArray.empty_iff, hrest]
    exact List.cons_ne_nil w ws
  have hsize : rest.size ≠ 0 := by
    rw [← CircArray.length_toList, hrest]
    exact Nat.succ_ne_zero _
  have hfront : rest.cell 0 = w := by
    have hcons := CircArray.toList_eq_cons rest hsize
    rw [hrest] at hcons
    exact (List.cons.inj hcons).1.symm
  unfold restart
  rw [if_neg hne, hfront]
  exact ⟨rfl, rfl⟩

end Scheduler

/-! ## The invariant -/

namespace TimedScheduler

def jobs (t : TimedScheduler) : List (Job ℚ) :=
  t.submitted.map fun p => ⟨p.1, Scheduler.duration p.2⟩

def departures (t : TimedScheduler) : List ℚ := SingleServer.departures none t.jobs

/-- The queue holds what was submitted and is not finished, and the range in front leaves when the
timer is due. -/
structure Timely (t : TimedScheduler) : Prop where
  ticking : t.scheduler.Ticking
  order : t.submitted.map Prod.snd = t.finished.map Prod.snd ++ t.scheduler.queue
  arrivals : ∀ p ∈ t.submitted, p.1 ≤ t.clock
  past : ∀ p ∈ t.finished, p.1 ≤ t.clock
  times : t.finished.map Prod.fst = t.departures.take t.finished.length
  front : t.scheduler.queue ≠ [] → t.departures[t.finished.length]? = some t.scheduler.endTime ∧
    t.due = t.scheduler.endTime ∧ t.clock ≤ t.due

theorem Timely.length {t : TimedScheduler} (h : t.Timely) :
    t.submitted.length = t.finished.length + t.scheduler.queue.length := by
  have hlen := congrArg List.length h.order
  rwa [List.length_append, List.length_map, List.length_map] at hlen

theorem length_departures (t : TimedScheduler) : t.departures.length = t.submitted.length := by
  unfold departures jobs
  rw [SingleServer.length_departures, List.length_map]

/-- A range in front is the one that the timer waits for. -/
theorem Timely.head {t : TimedScheduler} (h : t.Timely) {w : WorkGroupRange}
    {ws : List WorkGroupRange} (hqueue : t.scheduler.queue = w :: ws) :
    t.scheduler.timer.isActive = true ∧
      t.departures[t.finished.length]? = some t.scheduler.endTime ∧
        t.due = t.scheduler.endTime ∧ t.clock ≤ t.due := by
  have hne : t.scheduler.queue ≠ [] := by
    rw [hqueue]
    exact List.cons_ne_nil w ws
  exact ⟨h.ticking.active.mpr hne, h.front hne⟩

theorem Timely.finished_all {t : TimedScheduler} (h : t.Timely) (hnil : t.scheduler.queue = []) :
    t.finished.map Prod.snd = t.submitted.map Prod.snd ∧ t.finished.map Prod.fst = t.departures := by
  have hlen := h.length
  rw [hnil, List.length_nil, Nat.add_zero, ← length_departures] at hlen
  constructor
  · rw [h.order, hnil, List.append_nil]
  · rw [h.times, ← hlen, List.take_length]

theorem departures_submit (t : TimedScheduler) (now : ℚ) (w : WorkGroupRange) :
    (t.submit now w).departures =
      t.departures ++ [leave t.departures.getLast? ⟨now, Scheduler.duration w⟩] := by
  have hjobs : (t.submit now w).jobs = t.jobs ++ [⟨now, Scheduler.duration w⟩] := by
    unfold jobs submit
    rw [List.map_append]
    rfl
  unfold departures
  rw [hjobs, departures_concat]

/-- An idle scheduler has finished everything by now, and starts on a new range at once. -/
theorem Timely.leave_idle {t : TimedScheduler} (h : t.Timely) (hnil : t.scheduler.queue = [])
    {now : ℚ} (hnow : t.clock ≤ now) (c : ℚ) : leave t.departures.getLast? ⟨now, c⟩ = now + c := by
  unfold leave
  rw [← (h.finished_all hnil).2]
  cases hlast : (t.finished.map Prod.fst).getLast? with
  | none => rfl
  | some d =>
    obtain ⟨p, hp, rfl⟩ := List.mem_map.mp (List.mem_of_getLast? hlast)
    rw [Option.elim_some, max_eq_left ((h.past p hp).trans hnow)]

theorem Timely.submit {t : TimedScheduler} (h : t.Timely) {now : ℚ} (hnow : t.clock ≤ now)
    (hdue : t.scheduler.timer.isActive = true → now ≤ t.due)
    (hroom : t.scheduler.inQueue.isFull = false) (w : WorkGroupRange) : (t.submit now w).Timely := by
  have hlen := h.length
  have hqueue := Scheduler.queue_enqueue hroom now w
  have hdep := departures_submit t now w
  refine ⟨Scheduler.enqueue_ticking h.ticking now w, ?_, ?_, ?_, ?_, fun _ => ?_⟩
  · change (t.submitted ++ [(now, w)]).map Prod.snd = _ ++ (t.scheduler.enqueue now w).queue
    rw [List.map_append, h.order, hqueue, List.append_assoc]
    rfl
  · exact List.forall_mem_append.mpr ⟨fun p hp => (h.arrivals p hp).trans hnow,
      List.forall_mem_singleton.mpr le_rfl⟩
  · exact fun p hp => (h.past p hp).trans hnow
  · change t.finished.map Prod.fst = (t.submit now w).departures.take t.finished.length
    rw [hdep, List.take_append_of_le_length (by rw [length_departures]; omega)]
    exact h.times
  · change (t.submit now w).departures[t.finished.length]? = _ ∧ _ ∧ now ≤ _
    rw [hdep]
    unfold TimedScheduler.submit EvTimer.dueAfter
    dsimp only
    by_cases hnil : t.scheduler.queue = []
    · have hidle : ¬ t.scheduler.timer.isActive = true := fun ha => h.ticking.active.mp ha hnil
      rw [hnil, List.length_nil, Nat.add_zero, ← length_departures] at hlen
      rw [if_neg hidle, Scheduler.enqueue_idle h.ticking hnil, ← hlen, List.getElem?_concat_length,
        h.leave_idle hnil hnow]
      refine ⟨rfl, rfl, ?_⟩
      change now ≤ now + Scheduler.duration w
      have hcost := Scheduler.duration_nonneg w
      linarith
    · have hbusy : t.scheduler.timer.isActive = true := h.ticking.active.mpr hnil
      obtain ⟨hfront, hend, -⟩ := h.front hnil
      have hpos := List.length_pos_iff.mpr hnil
      rw [if_pos hbusy, Scheduler.enqueue_busy h.ticking hnil,
        List.getElem?_append_left (by rw [length_departures]; omega)]
      exact ⟨hfront, hend, hdue hbusy⟩

theorem Timely.fire {t : TimedScheduler} (h : t.Timely) {w : WorkGroupRange}
    {rest : CircArray WorkGroupRange} (hpop : t.scheduler.inQueue.popFront = some (w, rest)) :
    (t.fire w rest).Timely := by
  obtain ⟨hcons, hcap⟩ := CircArray.toList_popFront hpop
  have hqueue : t.scheduler.queue = w :: rest.toList := hcons
  obtain ⟨-, hfront, hend, hclock⟩ := h.head hqueue
  refine ⟨Scheduler.restart_ticking h.ticking _ hcap, ?_, ?_, ?_, ?_, fun hne => ?_⟩
  · change _ = (t.finished ++ [(t.due, w)]).map Prod.snd ++ (t.scheduler.restart t.due rest).queue
    rw [Scheduler.queue_restart, List.map_append, List.append_assoc]
    exact h.order.trans (by rw [hqueue]; rfl)
  · exact fun p hp => (h.arrivals p hp).trans hclock
  · exact List.forall_mem_append.mpr ⟨fun p hp => (h.past p hp).trans hclock,
      List.forall_mem_singleton.mpr le_rfl⟩
  · change (t.finished ++ [(t.due, w)]).map Prod.fst =
      t.departures.take (t.finished ++ [(t.due, w)]).length
    rw [List.map_append, List.length_append, List.length_singleton, List.take_add_one, h.times,
      hfront, hend]
    rfl
  · change (t.scheduler.restart t.due rest).queue ≠ [] at hne
    rw [Scheduler.queue_restart] at hne
    obtain ⟨v, vs, hrest⟩ := List.exists_cons_of_ne_nil hne
    obtain ⟨hend', hafter⟩ := Scheduler.restart_next (s := t.scheduler) t.due hrest
    -- the range behind the one that leaves arrived before this, and so leaves after its duration
    have hnext : (t.submitted.map Prod.snd)[t.finished.length + 1]? = some v := by
      rw [h.order, hqueue, hrest, List.getElem?_append_right (by rw [List.length_map]; omega),
        List.length_map, Nat.add_sub_cancel_left]
      rfl
    rw [List.getElem?_map] at hnext
    obtain ⟨p, hp, rfl⟩ := Option.map_eq_some_iff.mp hnext
    have harrived : p.1 ≤ t.due := (h.arrivals p (List.mem_of_getElem? hp)).trans hclock
    have hjob : t.jobs[t.finished.length + 1]? = some ⟨p.1, Scheduler.duration p.2⟩ := by
      unfold jobs
      rw [List.getElem?_map, hp]
      rfl
    have hleave := departures_succ hfront hjob
    unfold leave at hleave
    rw [Option.elim_some, ← hend, max_eq_right harrived] at hleave
    have hcost := Scheduler.duration_nonneg p.2
    change t.departures[(t.finished ++ [(t.due, w)]).length]? =
      some (t.scheduler.restart t.due rest).endTime ∧
        EvTimer.dueAfter t.scheduler.timer.expire (t.scheduler.restart t.due rest).timer t.due
          t.due = (t.scheduler.restart t.due rest).endTime ∧ t.due ≤ EvTimer.dueAfter _ _ _ _
    unfold EvTimer.dueAfter
    rw [List.length_append, List.length_singleton, Scheduler.expire_inactive h.ticking,
      if_neg Bool.false_ne_true, hend', hafter]
    exact ⟨hleave, rfl, by linarith⟩

theorem timely {t : TimedScheduler} (h : timedScheduler.Reachable t) : t.Timely := by
  apply h.invariant
  · rintro t ⟨hqueue, htimer, hsub, hfin⟩
    have hnil : t.scheduler.queue = [] := by
      unfold Scheduler.queue
      rw [hqueue, CircArray.toList_new]
    refine ⟨⟨?_, ?_, ?_⟩, ?_, ?_, ?_, ?_, fun hne => absurd hnil hne⟩
    · exact iff_of_false (by rw [htimer]; exact Bool.false_ne_true) (not_not.mpr hnil)
    · rw [htimer]
      rfl
    · rw [hqueue, CircArray.capacity_new]
      norm_num
    · rw [hsub, hfin, hnil]
      rfl
    · rw [hsub]
      exact List.forall_mem_nil _
    · rw [hfin]
      exact List.forall_mem_nil _
    · rw [hfin]
      rfl
  · intro t l u ht hn
    cases l with
    | submit now wgr =>
      obtain ⟨⟨hnow, hdue, hroom⟩, hn⟩ := Option.ite_none_right_eq_some.mp hn
      exact Option.some.inj hn ▸ ht.submit hnow hdue hroom wgr
    | fire =>
      obtain ⟨-, hn⟩ := Option.ite_none_right_eq_some.mp hn
      obtain ⟨⟨w, rest⟩, hpop, rfl⟩ := Option.map_eq_some_iff.mp hn
      exact ht.fire hpop

/-- A busy scheduler's timer can fire, which takes the range in front off the queue. -/
theorem Timely.next_fire {t : TimedScheduler} (h : t.Timely) {w : WorkGroupRange}
    {ws : List WorkGroupRange} (hqueue : t.scheduler.queue = w :: ws) :
    ∃ rest, rest.toList = ws ∧ t.scheduler.inQueue.popFront = some (w, rest) ∧
      timedScheduler.next t .fire = some (t.fire w rest) := by
  obtain ⟨rest, hpop, hrest, -⟩ := CircArray.popFront_cons hqueue
  refine ⟨rest, hrest, hpop, ?_⟩
  change (if t.scheduler.timer.isActive = true then _ else none) = _
  rw [if_pos (h.head hqueue).1, hpop]
  rfl

/-! ## Every run -/

/-- The ranges leave in the order of their submission, at the departures of the queue with a
single server; the range in front, if there is one, leaves at `m_end_time`, which is when the
next firing takes it, and only it, off the queue. -/
structure SingleServerLaw (t : TimedScheduler) : Prop where
  order : t.submitted.map Prod.snd = t.finished.map Prod.snd ++ t.scheduler.inQueue.toList
  times : t.finished.map Prod.fst =
    (SingleServer.departures none (t.submitted.map fun p => ⟨p.1, (p.2.executionCost : ℚ) / 1000⟩)).take
      t.finished.length
  endTime : t.scheduler.inQueue.toList ≠ [] →
    (SingleServer.departures none
      (t.submitted.map fun p => ⟨p.1, (p.2.executionCost : ℚ) / 1000⟩))[t.finished.length]? =
        some t.scheduler.endTime
  fires : ∀ w ws, t.scheduler.inQueue.toList = w :: ws → ∃ u,
    timedScheduler.next t .fire = some u ∧ u.scheduler.inQueue.toList = ws ∧
      u.finished = t.finished ++ [(t.scheduler.endTime, w)]

theorem single_server {t : TimedScheduler} (h : timedScheduler.Reachable t) :
    SingleServerLaw t := by
  have ht := timely h
  refine ⟨ht.order, ht.times, fun hne => (ht.front hne).1, fun w ws hqueue => ?_⟩
  obtain ⟨rest, hrest, -, hnext⟩ := ht.next_fire hqueue
  obtain ⟨-, -, hend, -⟩ := ht.head hqueue
  refine ⟨_, hnext, (Scheduler.queue_restart _ _ _).trans hrest, ?_⟩
  change t.finished ++ [(t.due, w)] = _
  rw [hend]

/-- Whatever the region, the constructor builds a start. -/
theorem start_new {b f p : ℕ} {e : ℚ} {s : Scheduler} (h : Scheduler.new b f p e = some s)
    (clock due : ℚ) : timedScheduler.start ⟨s, clock, due, [], []⟩ := by
  obtain ⟨-, h⟩ := Option.ite_none_right_eq_some.mp h
  obtain rfl := Option.some.inj h
  exact ⟨rfl, rfl, rfl, rfl⟩

def idleRange (cost : ℕ) : WorkGroupRange := (WorkGroupRange.new 0 0 1 0 1 0 1).setExecutionCost cost

/-- Two ranges of a second: the second arrives at the instant at which the first leaves. -/
theorem single_server_two : ∃ t : TimedScheduler, SingleServerLaw t ∧
    t.finished.map Prod.fst = [1, 2] ∧ t.submitted.map Prod.fst = [0, 1] := by
  have hrun : ((Scheduler.new 0 1 0 7).bind fun s =>
      timedScheduler.run ⟨s, 0, 0, [], []⟩
        [.submit 0 (idleRange 1000), .submit 1 (idleRange 1000), .fire, .fire]).map
          (fun t => (t.finished.map Prod.fst, t.submitted.map Prod.fst)) =
            some ([1, 2], [0, 1]) := by
    decide +kernel
  obtain ⟨t, hrun, hview⟩ := Option.map_eq_some_iff.mp hrun
  obtain ⟨s, hs, hrun⟩ := Option.bind_eq_some_iff.mp hrun
  obtain ⟨hfinished, hsubmitted⟩ := Prod.mk.inj hview
  exact ⟨t, single_server (Machine.Reachable.run (.start (start_new hs 0 0)) hrun), hfinished,
    hsubmitted⟩

end TimedScheduler

end FpgaMl
