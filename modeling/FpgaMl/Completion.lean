import Mathlib.Tactic
import FpgaMl.Foundation.Calendar
import FpgaMl.Foundation.Histories
import FpgaMl.AlgoSimpleOptimal
import FpgaMl.FreeRoom
import FpgaMl.RouteCost

/-! # When an ND-range is complete

The event of an ND-range is set complete when the last of its ranges is finished. That time is
known as soon as the ND-range is routed: the greatest, over the islands that got a range, of what
their queues take. On islands without work it is the value that the search minimises. -/
namespace FpgaMl
open MachineInt TransitionSystem Calendar
set_option autoImplicit false

variable {n : ℕ}

/-! ## The calendar of a scheduler -/

namespace Scheduler

/-- The ranges in the queue with the times at which they will be finished. -/
def calendar (s : Scheduler) : List (ℚ × WorkGroupRange) :=
  match s.queue with
  | [] => []
  | w :: ws => (s.endTime, w) :: after duration s.endTime ws

/-- When a range of `cost` milliseconds that arrives at `now` will be finished. -/
def leaves (s : Scheduler) (now : ℚ) (cost : ℕ) : ℚ := now + (s.backlog now + cost) / 1000

variable {s : Scheduler}

theorem calendar_cons {w : WorkGroupRange} {ws : List WorkGroupRange} (h : s.queue = w :: ws) :
    s.calendar = (s.endTime, w) :: after duration s.endTime ws := by
  unfold calendar
  rw [h]

theorem calendar_nil (h : s.queue = []) : s.calendar = [] := by
  unfold calendar
  rw [h]

theorem map_snd_calendar (s : Scheduler) : s.calendar.map Prod.snd = s.queue := by
  cases h : s.queue with
  | nil => rw [calendar_nil h, List.map_nil]
  | cons w ws => rw [calendar_cons h, List.map_cons, map_snd_after]

theorem mem_queue {e : ℚ × WorkGroupRange} (h : e ∈ s.calendar) : e.2 ∈ s.queue := by
  rw [← map_snd_calendar]
  exact List.mem_map_of_mem h

theorem endTime_le {e : ℚ × WorkGroupRange} (h : e ∈ s.calendar) : s.endTime ≤ e.1 := by
  cases hq : s.queue with
  | nil =>
    rw [calendar_nil hq] at h
    exact absurd h List.not_mem_nil
  | cons w ws =>
    rw [calendar_cons hq] at h
    obtain rfl | h := List.mem_cons.mp h
    · exact le_rfl
    · exact le_of_mem_after duration_nonneg h

theorem calendar_enqueue (hs : s.Ticking) (hroom : s.inQueue.isFull = false) (now : ℚ)
    (w : WorkGroupRange) :
    (s.enqueue now w).calendar = s.calendar ++ [(s.leaves now w.executionCost, w)] := by
  have hqueue := queue_enqueue hroom now w
  cases hq : s.queue with
  | nil =>
    have hidle := enqueue_idle hs hq now w
    rw [hq, List.nil_append] at hqueue
    have hend : (s.enqueue now w).endTime = now + w.executionCost / 1000 := by rw [hidle]
    have hbacklog : s.backlog now = 0 := by
      unfold backlog
      rw [show s.inQueue.toList = [] from hq]
    rw [calendar_cons hqueue, calendar_nil hq, hend, leaves, hbacklog, zero_add]
    rfl
  | cons v vs =>
    have hbusy := enqueue_busy hs (by rw [show s.inQueue.toList = v :: vs from hq]; simp) now w
    rw [hq, List.cons_append] at hqueue
    have hend : (s.enqueue now w).endTime = s.endTime := by rw [hbusy]
    have hbacklog : s.backlog now =
        1000 * (s.endTime - now) + (vs.map fun w => (w.executionCost : ℚ)).sum := by
      unfold backlog
      rw [show s.inQueue.toList = v :: vs from hq]
    have hsum := sum_durations vs
    rw [calendar_cons hqueue, calendar_cons hq, hend, after_concat, List.cons_append]
    congr 4
    rw [leaves, hbacklog, ← hsum]
    unfold duration
    ring

/-- The timer of a scheduler fires at its end time. -/
theorem calendar_restart {w : WorkGroupRange} {rest : CircArray WorkGroupRange}
    (h : s.queue = w :: rest.toList) :
    s.calendar = (s.endTime, w) :: (s.restart s.endTime rest).calendar := by
  have hqueue := queue_restart s s.endTime rest
  rw [calendar_cons h]
  congr 1
  cases hrest : rest.toList with
  | nil =>
    rw [calendar_nil (hqueue.trans hrest)]
    rfl
  | cons v vs =>
    rw [calendar_cons (hqueue.trans hrest), (restart_next s.endTime hrest).1]
    rfl

end Scheduler

/-! ## The loop in time -/

/-- A firing of a timer. -/
def SimpleLabel.IsFire : SimpleLabel n → Prop
  | route _ _ _ _ _ => False
  | fire _ _ => True

namespace TimedSimple

variable {check : ℕ → String → String → Bool} {s t : TimedSimple n} {now : ℚ} {i : Fin n}

def calendar (s : TimedSimple n) (i : Fin n) : List (ℚ × WorkGroupRange) :=
  (s.state.global.schedulers i).calendar

/-- Every timer is due when the range in front of its queue will be finished. -/
structure Punctual (s : TimedSimple n) : Prop where
  ticking : ∀ j, (s.state.global.schedulers j).Ticking
  due : ∀ j, s.state.global.queue j ≠ [] →
    s.due j = (s.state.global.schedulers j).endTime ∧ s.clock ≤ s.due j

theorem Punctual.active (h : s.Punctual) (j : Fin n) :
    (s.state.global.schedulers j).timer.isActive = true ↔ s.state.global.queue j ≠ [] :=
  (h.ticking j).active

theorem Punctual.clock_le (h : s.Punctual) {j : Fin n} {e : ℚ × WorkGroupRange}
    (he : e ∈ s.calendar j) : s.clock ≤ e.1 := by
  have hne : s.state.global.queue j ≠ [] := List.ne_nil_of_mem (Scheduler.mem_queue he)
  obtain ⟨hdue, hclock⟩ := h.due j hne
  rw [hdue] at hclock
  exact hclock.trans (Scheduler.endTime_le he)

theorem punctual_start (h : (timedLoop n check).start s) : s.Punctual := by
  obtain ⟨-, prs, bits, ends, hg⟩ := h
  have hnew : ∀ j, (s.state.global.schedulers j).Ticking ∧ s.state.global.queue j = [] := by
    intro j
    obtain ⟨u, hu, hj⟩ := (Global.new_spec hg).1 j
    unfold Global.queue
    rw [hj]
    exact Scheduler.new_ticking hu
  exact ⟨fun j => (hnew j).1, fun j hne => absurd (hnew j).2 hne⟩

/-- A timer that fires takes the earliest range off the calendar. -/
theorem Punctual.fire (h : s.Punctual) (hn : (timedLoop n check).next s (.fire now i) = some t) :
    t.Punctual ∧ t.clock = now ∧ ∃ w rest event,
      (s.state.global.schedulers i).inQueue.popFront = some (w, rest) ∧
      s.state.global.onTimer now i = some (t.state.global, event) ∧
      Takes s.calendar t.calendar i (now, w) := by
  obtain ⟨⟨⟨hclock, hup⟩, hnow⟩, hn⟩ := Option.ite_none_right_eq_some.mp hn
  obtain ⟨g, hg, rfl⟩ := Option.map_eq_some_iff.mp hn
  obtain ⟨-, event, hfire⟩ := fire_cases hg
  obtain ⟨w, rest, hpop, hsched, -⟩ := Global.onTimer_freeScMgr hfire
  have hcons := Global.queue_popFront hpop
  have hend : now = (s.state.global.schedulers i).endTime :=
    hnow.trans (h.due i (by rw [hcons]; exact List.cons_ne_nil _ _)).1
  have hself : g.global.schedulers i = (s.state.global.schedulers i).restart now rest := by
    rw [hsched, Function.update_self]
  have hother : ∀ j, j ≠ i → g.global.schedulers j = s.state.global.schedulers j := fun j hj => by
    rw [hsched, Function.update_of_ne hj]
  have hticking : ∀ j, (g.global.schedulers j).Ticking := by
    rw [hsched]
    exact Global.ticking_update h.ticking i
      (Scheduler.restart_ticking (h.ticking i) now (CircArray.toList_popFront hpop).2)
  refine ⟨⟨hticking, fun j hne => ?_⟩, rfl, w, rest, event, hpop, hfire, ?_⟩
  · obtain rfl | hj := eq_or_ne j i
    · have hbefore : (SimpleLabel.fire now j).timerBefore s.state.global j =
          (s.state.global.schedulers j).timer.expire := if_pos rfl
      have hexpired := Scheduler.expire_inactive (h.ticking j)
      have hrest : rest.toList ≠ [] := by
        rw [← (Global.queue_of_restart hsched).1]
        exact hne
      obtain ⟨v, vs, hv⟩ := List.exists_cons_of_ne_nil hrest
      obtain ⟨hend', hafter⟩ := Scheduler.restart_next (s := s.state.global.schedulers j) now hv
      change EvTimer.dueAfter ((SimpleLabel.fire now j).timerBefore s.state.global j) _ now _ =
          (g.global.schedulers j).endTime ∧
        now ≤ EvTimer.dueAfter ((SimpleLabel.fire now j).timerBefore s.state.global j) _ now _
      unfold EvTimer.dueAfter
      rw [hbefore, hexpired, if_neg Bool.false_ne_true, hself, hafter, hend']
      exact ⟨rfl, le_add_of_nonneg_right (Scheduler.duration_nonneg v)⟩
    · have hne' : s.state.global.queue j ≠ [] := by
        unfold Global.queue at hne ⊢
        rwa [hother j hj] at hne
      have hactive := (h.active j).mpr hne'
      have hbefore : (SimpleLabel.fire now i).timerBefore s.state.global j =
          (s.state.global.schedulers j).timer := if_neg hj
      change EvTimer.dueAfter ((SimpleLabel.fire now i).timerBefore s.state.global j) _ now _ =
          (g.global.schedulers j).endTime ∧
        now ≤ EvTimer.dueAfter ((SimpleLabel.fire now i).timerBefore s.state.global j) _ now _
      unfold EvTimer.dueAfter
      rw [hbefore, if_pos hactive, hother j hj]
      exact ⟨(h.due j hne').1, hup j hactive⟩
  · refine ⟨?_, fun j hj => ?_, fun j e he => ?_⟩
    · change (s.state.global.schedulers i).calendar = (now, w) :: (g.global.schedulers i).calendar
      rw [hself, hend]
      exact Scheduler.calendar_restart hcons
    · change (g.global.schedulers j).calendar = (s.state.global.schedulers j).calendar
      rw [hother j hj]
    · have hne : s.state.global.queue j ≠ [] := List.ne_nil_of_mem (Scheduler.mem_queue he)
      have hle := hup j ((h.active j).mpr hne)
      rw [(h.due j hne).1] at hle
      exact hle.trans (Scheduler.endTime_le he)

end TimedSimple

/-! ## A route -/

namespace AlgoSimple

variable {o : AlgoSimple n} {now : ℚ} {d : ℕ} {g g' : Global n}

/-- What the parts of the islands in `l` do to the schedulers: those that are served get one range of
the ND-range each, and none is lost where the rings have room. -/
structure Submitted (o : AlgoSimple n) (now : ℚ) (d : ℕ) (l : List (Fin n)) (g g' : Global n) :
    Prop where
  served : ∀ i ∈ l, o.Serves i → ∃ w : WorkGroupRange, w.parentNdrange = some d ∧
    w.executionCost = toU64 (o.price i) ∧ g'.schedulers i = (g.schedulers i).enqueue now w
  skipped : ∀ i, (i ∈ l → ¬ o.Serves i) → g'.schedulers i = g.schedulers i
  dropped : (∀ i ∈ l, o.Serves i → (g.schedulers i).inQueue.isFull = false) →
    g'.history.dropped = g.history.dropped
  others : ∀ e, e ≠ d → g'.history.dropped e = g.history.dropped e

theorem submitPart_served {i : Fin n} (hi : o.Serves i) (h : o.submitPart now d g i = some g') :
    ∃ w : WorkGroupRange, w.parentNdrange = some d ∧ w.executionCost = toU64 (o.price i) ∧
      g'.schedulers = Function.update g.schedulers i ((g.schedulers i).enqueue now w) ∧
      ((g.schedulers i).inQueue.isFull = false → g'.history.dropped = g.history.dropped) ∧
      ∀ e, e ≠ d → g'.history.dropped e = g.history.dropped e := by
  unfold submitPart at h
  rw [if_neg hi] at h
  obtain ⟨p, hp, rfl⟩ := Option.map_eq_some_iff.mp h
  obtain ⟨r, hr, rfl⟩ := Option.map_eq_some_iff.mp hp
  refine ⟨_, rfl, rfl, rfl, fun hroom => ?_, fun e he => ?_⟩
  · have hroom' : ¬ (g.schedulers i).inQueue.isFull = true := by
      rw [hroom]
      exact Bool.false_ne_true
    unfold Global.submitWgr
    dsimp only
    rw [if_neg hroom']
  · unfold Global.submitWgr
    dsimp only
    split
    · exact Function.update_of_ne he _ _
    · rfl

theorem submitted (l : List (Fin n)) (hl : l.Nodup) {g g' : Global n}
    (h : l.foldlM (o.submitPart now d) g = some g') : o.Submitted now d l g g' := by
  induction l generalizing g with
  | nil =>
    obtain rfl := Option.some.inj h
    exact ⟨fun i hi => absurd hi List.not_mem_nil, fun _ _ => rfl, fun _ => rfl, fun _ _ => rfl⟩
  | cons j l ih =>
    obtain ⟨hjl, hl⟩ := List.nodup_cons.mp hl
    rw [List.foldlM_cons] at h
    obtain ⟨g₁, hj, hfold⟩ := Option.bind_eq_some_iff.mp h
    have hrest := ih hl hfold
    have hne : ∀ i ∈ l, i ≠ j := fun i hi he => hjl (he ▸ hi)
    by_cases hserves : o.Serves j
    · obtain ⟨w, hparent, hcost, hsched, hroom, hothers⟩ := submitPart_served hserves hj
      have hkept : ∀ i, i ≠ j → g₁.schedulers i = g.schedulers i := fun i hi => by
        rw [hsched, Function.update_of_ne hi]
      refine ⟨fun i hi hs => ?_, fun i hi => ?_, fun hfull => ?_, fun e he => ?_⟩
      · obtain rfl | hil := List.mem_cons.mp hi
        · refine ⟨w, hparent, hcost, ?_⟩
          rw [hrest.skipped i (fun hmem => absurd hmem hjl), hsched, Function.update_self]
        · obtain ⟨v, hv, hvcost, hvsched⟩ := hrest.served i hil hs
          exact ⟨v, hv, hvcost, by rw [hvsched, hkept i (hne i hil)]⟩
      · have hij : i ≠ j := by
          rintro rfl
          exact hi List.mem_cons_self hserves
        rw [hrest.skipped i fun hmem => hi (List.mem_cons_of_mem j hmem), hkept i hij]
      · rw [hrest.dropped fun i hi hs => by
          rw [hkept i (hne i hi)]
          exact hfull i (List.mem_cons_of_mem j hi) hs]
        exact hroom (hfull j List.mem_cons_self hserves)
      · rw [hrest.others e he, hothers e he]
    · unfold submitPart at hj
      rw [if_pos (not_not.mp hserves)] at hj
      obtain rfl := Option.some.inj hj
      refine ⟨fun i hi hs => ?_, fun i hi => ?_, fun hfull => ?_, hrest.others⟩
      · obtain rfl | hil := List.mem_cons.mp hi
        · exact absurd hs hserves
        · exact hrest.served i hil hs
      · exact hrest.skipped i fun hmem => hi (List.mem_cons_of_mem j hmem)
      · exact hrest.dropped fun i hi hs => hfull i (List.mem_cons_of_mem j hi) hs

end AlgoSimple

namespace TimedSimple

variable {check : ℕ → String → String → Bool} {s t : TimedSimple n} {now : ℚ} {i : Fin n} {d : ℕ}
  {T : ℚ}

/-- The loop after a route at `now` that leaves the object as `o` and the schedulers as in `g`. -/
def routed (s : TimedSimple n) (now : ℚ) (o : AlgoSimple n) (g : Global n) : TimedSimple n where
  state := ⟨o, g⟩
  clock := now
  due j := EvTimer.dueAfter (s.state.global.schedulers j).timer (g.schedulers j).timer now (s.due j)

theorem next_route {kernel : KernelRef} {event : EventRef} {res : String} {N : ℕ}
    (hn : (timedLoop n check).next s (.route now kernel event res N) = some t) :
    s.UpTo now ∧ ∃ x, NDRange.new kernel event res N 1 1 = some x ∧
      s.state.algo.routeNdrange (s.state.global.newNdrange x) check now s.state.global.nextCell =
        some (t.state.algo, t.state.global) ∧
      t = s.routed now t.state.algo t.state.global := by
  obtain ⟨hup, hn⟩ := Option.ite_none_right_eq_some.mp hn
  obtain ⟨g, hg, rfl⟩ := Option.map_eq_some_iff.mp hn
  obtain ⟨x, hx, hroute⟩ := route_cases hg
  exact ⟨hup, x, hx, hroute, rfl⟩

section Routed

variable {o : AlgoSimple n} {g : Global n} {x : NDRange}

theorem Punctual.routed (h : s.Punctual) (hup : s.UpTo now)
    (hg : o.Submitted now d (List.finRange n) (s.state.global.newNdrange x) g) :
    (s.routed now o g).Punctual := by
  have hserved : ∀ j, o.Serves j → ∃ w : WorkGroupRange,
      g.schedulers j = (s.state.global.schedulers j).enqueue now w := fun j hj =>
    let ⟨w, _, _, hw⟩ := hg.served j (List.mem_finRange j) hj
    ⟨w, hw⟩
  have hskipped : ∀ j, ¬ o.Serves j → g.schedulers j = s.state.global.schedulers j :=
    fun j hj => hg.skipped j fun _ => hj
  refine ⟨fun j => ?_, fun j hne => ?_⟩
  · change (g.schedulers j).Ticking
    by_cases hj : o.Serves j
    · obtain ⟨w, hw⟩ := hserved j hj
      rw [hw]
      exact Scheduler.enqueue_ticking (h.ticking j) now w
    · rw [hskipped j hj]
      exact h.ticking j
  · change EvTimer.dueAfter (s.state.global.schedulers j).timer (g.schedulers j).timer now (s.due j) =
        (g.schedulers j).endTime ∧
      now ≤ EvTimer.dueAfter (s.state.global.schedulers j).timer (g.schedulers j).timer now (s.due j)
    change (g.schedulers j).inQueue.toList ≠ [] at hne
    unfold EvTimer.dueAfter
    by_cases hold : s.state.global.queue j = []
    · have hidle : ¬ (s.state.global.schedulers j).timer.isActive = true := fun hact =>
        (h.active j).mp hact hold
      rw [if_neg hidle]
      by_cases hj : o.Serves j
      · obtain ⟨w, hw⟩ := hserved j hj
        rw [hw, Scheduler.enqueue_idle (h.ticking j) hold now w]
        exact ⟨rfl, le_add_of_nonneg_right (Scheduler.duration_nonneg w)⟩
      · rw [hskipped j hj] at hne
        exact absurd hold hne
    · have hact := (h.active j).mpr hold
      rw [if_pos hact]
      have hend : (g.schedulers j).endTime = (s.state.global.schedulers j).endTime := by
        by_cases hj : o.Serves j
        · obtain ⟨w, hw⟩ := hserved j hj
          rw [hw, Scheduler.enqueue_busy (h.ticking j) hold now w]
        · rw [hskipped j hj]
      rw [hend]
      exact ⟨(h.due j hold).1, hup.2 j hact⟩

/-- The times of the new ND-range: those at which the islands that are served leave their parts. -/
theorem times_routed (h : s.Punctual)
    (hg : o.Submitted now d (List.finRange n) (s.state.global.newNdrange x) g)
    (hroom : ∀ i, o.Serves i → (s.state.global.schedulers i).inQueue.isFull = false)
    (hfresh : ∀ i, ∀ w ∈ s.state.global.queue i, w.parentNdrange ≠ some d) :
    times (fun w : WorkGroupRange => w.parentNdrange = some d) (s.routed now o g).calendar =
      {f | ∃ i, o.Serves i ∧
        f = (s.state.global.schedulers i).leaves now (toU64 (o.price i))} := by
  have hserved : ∀ i, o.Serves i → ∃ w : WorkGroupRange, w.parentNdrange = some d ∧
      (s.routed now o g).calendar i = s.calendar i ++
        [((s.state.global.schedulers i).leaves now (toU64 (o.price i)), w)] := by
    intro i hi
    obtain ⟨w, hparent, hcost, hw⟩ := hg.served i (List.mem_finRange i) hi
    refine ⟨w, hparent, ?_⟩
    change (g.schedulers i).calendar = _
    rw [hw, ← hcost]
    exact Scheduler.calendar_enqueue (h.ticking i) (hroom i hi) now w
  ext f
  constructor
  · rintro ⟨i, w, hmem, hparent⟩
    by_cases hi : o.Serves i
    · obtain ⟨v, -, hcal⟩ := hserved i hi
      rw [hcal] at hmem
      obtain hmem | hmem := List.mem_append.mp hmem
      · exact absurd hparent (hfresh i w (Scheduler.mem_queue hmem))
      · exact ⟨i, hi, (Prod.mk.inj (List.mem_singleton.mp hmem)).1⟩
    · change (f, w) ∈ (g.schedulers i).calendar at hmem
      rw [hg.skipped i fun _ => hi] at hmem
      exact absurd hparent (hfresh i w (Scheduler.mem_queue hmem))
  · rintro ⟨i, hi, rfl⟩
    obtain ⟨w, hparent, hcal⟩ := hserved i hi
    exact ⟨i, w, by rw [hcal]; simp, hparent⟩

end Routed

/-! ## Completion -/

/-- What every run of the loop keeps. -/
structure Sound (s : TimedSimple n) : Prop where
  punctual : s.Punctual
  accounted : s.state.global.Accounted
  roomy : s.state.global.Roomy

theorem Sound.fire (h : s.Sound) (hn : (timedLoop n check).next s (.fire now i) = some t) :
    t.Sound := by
  obtain ⟨hpunctual, -, w, rest, event, -, hfire, -⟩ := h.punctual.fire hn
  exact ⟨hpunctual, Global.accounted_onTimer h.accounted hfire, h.roomy.onTimer hfire⟩

theorem Sound.routed (h : s.Sound) (hup : s.UpTo now) {o : AlgoSimple n} {x : NDRange} {g : Global n}
    (hfold : (List.finRange n).foldlM (o.submitPart now d) (s.state.global.newNdrange x) = some g)
    (hacc : g.Accounted) : (s.routed now o g).Sound := by
  have hroomy : (s.state.global.newNdrange x).Roomy := h.roomy.congr rfl rfl
  exact ⟨h.punctual.routed hup (AlgoSimple.submitted _ (List.nodup_finRange n) hfold), hacc,
    (hroomy.parts _ hfold).1⟩

/-- The parts of the route that the search gives. -/
theorem route_parts {o o' : AlgoSimple n} {g g' : Global n} (hg : g.Accounted) {x : NDRange}
    (hx : g.ndranges d = some x) (hnext : x.nextWgr = 0) (htot : x.totalSize < 2 ^ 32)
    (h : o.routeNdrange g check now d = some (o', g')) :
    o.search (g.islandQuery check now x) (i32 x.totalSize) = some o' ∧
      (List.finRange n).foldlM (o'.submitPart now d) g = some g' ∧ g'.Accounted := by
  obtain ⟨r, hr, hsearch, -, hout⟩ := AlgoSimple.routeNdrange_cases h
  obtain rfl : x = r := Option.some.inj (hx.symm.trans hr)
  exact ⟨hsearch, (AlgoSimple.handOut_cases hout).1,
    AlgoSimple.routeNdrange_accounted hg hx hnext htot h⟩

theorem new_ndrange {kernel : KernelRef} {event : EventRef} {res : String} {N : ℕ} {x : NDRange}
    (h : s.Sound) (hx : NDRange.new kernel event res N 1 1 = some x) :
    (s.state.global.newNdrange x).Accounted ∧ x.nextWgr = 0 ∧ x.totalSize < 2 ^ 32 := by
  rw [NDRange.new_eq_some hx]
  exact ⟨Global.accounted_newNdrange h.accounted rfl rfl, rfl, u32_lt _⟩

theorem sound (h : (timedLoop n check).Reachable s) : s.Sound := by
  apply h.invariant
  · intro s hs
    have hpunctual := punctual_start hs
    obtain ⟨-, prs, bits, ends, hg⟩ := hs
    exact ⟨hpunctual, Global.accounted_new hg, Global.roomy_new hg⟩
  · intro s l t hs hn
    cases l with
    | fire now i => exact hs.fire hn
    | route now kernel event res N =>
      obtain ⟨hup, x, hx, hroute, ht⟩ := next_route hn
      obtain ⟨hacc, hnext, htot⟩ := new_ndrange hs hx
      obtain ⟨-, hfold, hacc'⟩ :=
        route_parts hacc (Global.newNdrange_self _ x) hnext htot hroute
      rw [ht]
      exact hs.routed hup hfold hacc'

/-- ND-range `d` exists, none of its ranges was lost, and the last of them will be finished at
`T`. -/
structure Awaits (s : TimedSimple n) (d : ℕ) (T : ℚ) : Prop where
  cell : ∃ x, s.state.global.ndranges d = some x
  dropped : s.state.global.history.dropped d = 0
  latest : IsGreatest (times (fun w : WorkGroupRange => w.parentNdrange = some d) s.calendar) T

/-- The event of ND-range `d` was set complete, and the ND-range is gone. -/
structure Completed (s : TimedSimple n) (d : ℕ) : Prop where
  cell : s.state.global.ndranges d = none
  once : s.state.global.history.completed d = 1

theorem times_nonempty (s : TimedSimple n) (d : ℕ) :
    (times (fun w : WorkGroupRange => w.parentNdrange = some d) s.calendar).Nonempty ↔
      0 < s.state.global.queued d := by
  constructor
  · rintro ⟨f, i, w, hmem, hparent⟩
    exact Global.mem_queued (Scheduler.mem_queue hmem) hparent
  · intro hpos
    obtain ⟨i, w, hmem, hparent⟩ := Global.queued_pos hpos
    change w ∈ (s.state.global.schedulers i).queue at hmem
    rw [← Scheduler.map_snd_calendar] at hmem
    obtain ⟨⟨f, v⟩, he, rfl⟩ := List.mem_map.mp hmem
    exact ⟨f, i, v, he, hparent⟩

theorem Awaits.open' (h : s.Awaits d T) (hs : s.Sound) :
    s.state.global.history.completed d = 0 ∧ s.clock ≤ T := by
  obtain ⟨x, hx⟩ := h.cell
  obtain ⟨i, w, hmem, -⟩ := h.latest.1
  exact ⟨(hs.accounted.live d x hx).intact.1, hs.punctual.clock_le hmem⟩

/-- A firing before the last range of the ND-range, or that of its last range. -/
theorem Awaits.fire (h : s.Awaits d T) (hs : s.Sound)
    (hn : (timedLoop n check).next s (.fire now i) = some t) :
    t.Awaits d T ∨ t.Completed d ∧ t.clock = T := by
  have ht := hs.fire hn
  obtain ⟨-, hclock, w, rest, event, hpop, hfire, htakes⟩ := hs.punctual.fire hn
  obtain ⟨v, rest', e, y, hpop', hparent, hy, -, -, -, hdropped, -, hcases⟩ :=
    Global.onTimer_spec hfire
  obtain ⟨rfl, rfl⟩ := Prod.mk.inj (Option.some.inj (hpop'.symm.trans hpop))
  have hdropped' : t.state.global.history.dropped d = 0 := by
    rw [hdropped]
    exact h.dropped
  obtain rfl | he := eq_or_ne e d
  · obtain ⟨-, -, hheap, hcompleted, -⟩ | ⟨hmore, -, hheap, -⟩ := hcases
    · right
      have hgone : t.state.global.ndranges e = none := by rw [hheap, Function.update_self]
      have hnone := (ht.accounted.gone e hgone).queued
      have hlast := htakes.last h.latest fun hne => by
        rw [times_nonempty, hnone] at hne
        exact absurd hne (lt_irrefl 0)
      refine ⟨⟨hgone, ?_⟩, hclock.trans hlast⟩
      rw [hcompleted, bump, Function.update_self, (h.open' hs).1]
    · left
      have hcell : t.state.global.ndranges e = some y.decrementWgrsCounter.1 := by
        rw [hheap, Function.update_self]
      refine ⟨⟨_, hcell⟩, hdropped', htakes.greatest h.latest ((times_nonempty t e).mpr ?_)⟩
      have hwild := (ht.accounted.live e _ hcell).wild
      rw [hdropped', Nat.add_zero] at hwild
      rw [← hwild]
      refine Nat.pos_of_ne_zero fun hzero => ?_
      have hlast : y.decrementWgrsCounter.2 = true := beq_iff_eq.mpr hzero
      rw [hmore] at hlast
      cases hlast
  · left
    have hcell : t.state.global.ndranges d = s.state.global.ndranges d := by
      obtain ⟨-, -, hheap, -⟩ | ⟨-, -, hheap, -⟩ := hcases <;>
        rw [hheap, Function.update_of_ne he.symm]
    refine ⟨by rw [hcell]; exact h.cell, hdropped', htakes.greatest h.latest ?_⟩
    obtain ⟨j, u, hmem, hu⟩ := h.latest.1
    obtain heq | hmem := htakes.mem_new hmem
    · obtain ⟨-, rfl⟩ := Prod.mk.inj heq
      exact absurd (Option.some.inj (hparent.symm.trans hu)) he
    · exact ⟨T, j, u, hmem, hu⟩

/-- Later routes leave the times of an ND-range alone: their ranges go behind its own. -/
theorem Awaits.route (h : s.Awaits d T) (hs : s.Sound) {o : AlgoSimple n} {x : NDRange}
    {g : Global n} (hfold : (List.finRange n).foldlM (o.submitPart now s.state.global.nextCell)
      (s.state.global.newNdrange x) = some g) : (s.routed now o g).Awaits d T := by
  obtain ⟨y, hy⟩ := h.cell
  have hd : d ≠ s.state.global.nextCell := (hs.accounted.used hy).ne
  have hg := AlgoSimple.submitted _ (List.nodup_finRange n) hfold
  have hcell : g.ndranges d = s.state.global.ndranges d := by
    rw [(AlgoSimple.foldlM_spares _ hfold).cells d hd, Global.newNdrange_of_ne _ x hd]
  have htimes : times (fun w : WorkGroupRange => w.parentNdrange = some d)
      (s.routed now o g).calendar =
        times (fun w : WorkGroupRange => w.parentNdrange = some d) s.calendar := by
    ext f
    refine exists_congr fun i => exists_congr fun w => and_congr_left fun hparent => ?_
    change (f, w) ∈ (g.schedulers i).calendar ↔ (f, w) ∈ (s.state.global.schedulers i).calendar
    by_cases hi : o.Serves i
    · obtain ⟨v, hv, -, hsched⟩ := hg.served i (List.mem_finRange i) hi
      change g.schedulers i = (s.state.global.schedulers i).enqueue now v at hsched
      rw [hsched]
      cases hfull : (s.state.global.schedulers i).inQueue.isFull with
      | true => rw [Scheduler.enqueue_full (hs.punctual.ticking i) hfull]
      | false =>
        rw [Scheduler.calendar_enqueue (hs.punctual.ticking i) hfull, List.mem_append,
          List.mem_singleton]
        refine or_iff_left fun heq => ?_
        obtain ⟨-, rfl⟩ := Prod.mk.inj heq
        exact hd (Option.some.inj (hparent.symm.trans hv))
    · rw [hg.skipped i fun _ => hi]
      rfl
  exact ⟨⟨y, hcell.trans hy⟩, (hg.others d hd).trans h.dropped, htimes ▸ h.latest⟩

theorem Completed.fire (h : s.Completed d) (hs : s.Sound)
    (hn : (timedLoop n check).next s (.fire now i) = some t) : t.Completed d := by
  obtain ⟨-, -, w, rest, event, -, hfire, -⟩ := hs.punctual.fire hn
  obtain ⟨-, -, e, y, -, -, hy, -, -, -, -, -, hcases⟩ := Global.onTimer_spec hfire
  have he : d ≠ e := by
    rintro rfl
    rw [h.cell] at hy
    cases hy
  obtain ⟨-, -, hheap, hcompleted, -⟩ | ⟨-, -, hheap, hcompleted, -⟩ := hcases
  · refine ⟨by rw [hheap, Function.update_of_ne he]; exact h.cell, ?_⟩
    rw [hcompleted]
    exact (Function.update_of_ne he _ _).trans h.once
  · refine ⟨by rw [hheap, Function.update_of_ne he]; exact h.cell, ?_⟩
    rw [hcompleted]
    exact h.once

theorem Completed.route (h : s.Completed d) (hs : s.Sound) {o : AlgoSimple n} {x : NDRange}
    {g : Global n} (hfold : (List.finRange n).foldlM (o.submitPart now s.state.global.nextCell)
      (s.state.global.newNdrange x) = some g) : (s.routed now o g).Completed d := by
  have hspares := AlgoSimple.foldlM_spares _ hfold
  have hd : d ≠ s.state.global.nextCell := by
    rintro rfl
    have hzero := (hs.accounted.gone _ h.cell)
    have hone := hzero.completed
    rw [h.once, (hzero.fresh le_rfl).2] at hone
    cases hone
  refine ⟨?_, ?_⟩
  · change g.ndranges d = none
    rw [hspares.cells d hd, Global.newNdrange_of_ne _ x hd]
    exact h.cell
  · change g.history.completed d = 1
    rw [hspares.completed]
    exact h.once

/-- One step of the loop, whichever it is. -/
theorem Sound.step (hs : s.Sound) {l : SimpleLabel n}
    (hn : (timedLoop n check).next s l = some t) : t.Sound ∧
      (s.Awaits d T → t.Awaits d T ∨ t.Completed d ∧ t.clock = T) ∧
      (s.Completed d → t.Completed d) := by
  cases l with
  | fire now i => exact ⟨hs.fire hn, fun h => h.fire hs hn, fun h => h.fire hs hn⟩
  | route now kernel event res N =>
    obtain ⟨hup, x, hx, hroute, ht⟩ := next_route hn
    obtain ⟨hacc, hnext, htot⟩ := new_ndrange hs hx
    obtain ⟨-, hfold, hacc'⟩ := route_parts hacc (Global.newNdrange_self _ x) hnext htot hroute
    rw [ht]
    exact ⟨hs.routed hup hfold hacc', fun h => Or.inl (h.route hs hfold), fun h => h.route hs hfold⟩

theorem Sound.run (hs : s.Sound) (h : s.Awaits d T) {ls : List (SimpleLabel n)}
    (hrun : (timedLoop n check).run s ls = some t) :
    t.Sound ∧ (t.Awaits d T ∨ t.Completed d) := by
  refine Machine.run_invariant (I := fun u => u.Sound ∧ (u.Awaits d T ∨ u.Completed d)) ?_
    ⟨hs, Or.inl h⟩ hrun
  rintro u l v ⟨hu, hcase⟩ hn
  obtain ⟨hv, hawaits, hcompleted⟩ := hu.step (d := d) (T := T) hn
  refine ⟨hv, ?_⟩
  obtain hawait | hdone := hcase
  · exact (hawaits hawait).imp_right fun h => h.1
  · exact Or.inr (hcompleted hdone)

/-- While a queue holds a range, the timer that is due first can fire. -/
theorem Sound.progress (hs : s.Sound) {j : Fin n} (hne : s.state.global.queue j ≠ [])
    (check : ℕ → String → String → Bool) :
    ∃ l, SimpleLabel.IsFire l ∧ (timedLoop n check).next s l ≠ none := by
  obtain ⟨i, hi, hmin⟩ := Finset.exists_min_image
    (Finset.univ.filter fun j => s.state.global.queue j ≠ []) s.due ⟨j, by simp [hne]⟩
  have hbusy : s.state.global.queue i ≠ [] := (Finset.mem_filter.mp hi).2
  have hactive := (hs.punctual.active i).mpr hbusy
  have hup : s.UpTo (s.due i) := ⟨(hs.punctual.due i hbusy).2, fun k hk =>
    hmin k (Finset.mem_filter.mpr ⟨Finset.mem_univ k, (hs.punctual.active k).mp hk⟩)⟩
  obtain ⟨g, event, hg⟩ := hs.roomy.fires hs.accounted hactive (s.due i)
  refine ⟨.fire (s.due i) i, trivial, ?_⟩
  have hon : s.OnTime (.fire (s.due i) i) := ⟨hup, rfl⟩
  simp [timedLoop, simpleLoop, hon, hactive, hg]

/-- Whatever comes after `s`, the event of ND-range `d` is not set complete before `T`, and no later;
and it is set complete if only the timers go on. -/
structure CompletesAt (check : ℕ → String → String → Bool) (s : TimedSimple n) (d : ℕ) (T : ℚ) :
    Prop where
  open' : ∀ ls t, (timedLoop n check).run s ls = some t → t.state.global.history.completed d = 0 →
    t.clock ≤ T
  once : ∀ ls t, (timedLoop n check).run s ls = some t → t.state.global.history.completed d ≤ 1
  at' : ∀ ls t l u, (timedLoop n check).run s ls = some t → (timedLoop n check).next t l = some u →
    t.state.global.history.completed d = 0 → u.state.global.history.completed d = 1 → u.clock = T
  happens : ∃ ls t, (∀ l ∈ ls, SimpleLabel.IsFire l) ∧ (timedLoop n check).run s ls = some t ∧
    t.state.global.history.completed d = 1

theorem Awaits.completesAt (h : s.Awaits d T) (hs : s.Sound)
    (check : ℕ → String → String → Bool) : CompletesAt check s d T := by
  have hopen : ∀ ls t, (timedLoop n check).run s ls = some t →
      t.state.global.history.completed d = 0 → t.Awaits d T := by
    intro ls t hrun hzero
    obtain ⟨-, hcase⟩ := hs.run h hrun
    refine hcase.resolve_right fun hdone => ?_
    rw [hdone.once] at hzero
    cases hzero
  refine ⟨fun ls t hrun hzero => ?_, fun ls t hrun => ?_, fun ls t l u hrun hn hzero hone => ?_, ?_⟩
  · exact ((hopen ls t hrun hzero).open' (hs.run h hrun).1).2
  · obtain ⟨ht, hcase⟩ := hs.run h hrun
    obtain hawaits | hdone := hcase
    · rw [(hawaits.open' ht).1]
      exact Nat.zero_le 1
    · exact hdone.once.le
  · have ht := (hs.run h hrun).1
    obtain ⟨hu, hstep, -⟩ := ht.step (d := d) (T := T) hn
    obtain hawaits | ⟨-, hclock⟩ := hstep (hopen ls t hrun hzero)
    · rw [(hawaits.open' hu).1] at hone
      cases hone
    · exact hclock
  · obtain ⟨ls, t, hls, hrun, hend⟩ := Machine.exists_exhausted (M := timedLoop n check)
      (Q := SimpleLabel.IsFire) (I := Sound) (μ := fun u => u.state.global.ranges)
      (fun u l v hu hl hn => by
        cases l with
        | route now kernel event res N => exact hl.elim
        | fire now i =>
          obtain ⟨-, -, w, rest, event, -, hfire, -⟩ := hu.punctual.fire hn
          have hranges := Global.ranges_onTimer hfire
          exact ⟨hu.fire hn, by omega⟩) hs
    refine ⟨ls, t, hls, hrun, ?_⟩
    obtain ⟨ht, hawaits | hdone⟩ := hs.run h hrun
    · obtain ⟨i, w, hmem, -⟩ := hawaits.latest.1
      obtain ⟨l, hl, hn⟩ := ht.progress (List.ne_nil_of_mem (Scheduler.mem_queue hmem)) check
      exact absurd (hend l hl) hn
    · exact hdone.once

/-- The parts of a new ND-range settle when it is complete. -/
theorem Sound.completes (hs : s.Sound) (hup : s.UpTo now) {o : AlgoSimple n} {x y : NDRange}
    {g : Global n} (hacc : (s.state.global.newNdrange x).Accounted) (hwild : x.wgrsInTheWild = 0)
    (hfold : (List.finRange n).foldlM (o.submitPart now s.state.global.nextCell)
      (s.state.global.newNdrange x) = some g) (hacc' : g.Accounted)
    (hcell : g.ndranges s.state.global.nextCell = some y)
    (hroom : ∀ i, o.Serves i → (s.state.global.schedulers i).inQueue.isFull = false)
    (hT : IsGreatest {f | ∃ i, o.Serves i ∧
      f = (s.state.global.schedulers i).leaves now (toU64 (o.price i))} T) :
    CompletesAt check (s.routed now o g) s.state.global.nextCell T := by
  have hg := AlgoSimple.submitted _ (List.nodup_finRange n) hfold
  have hnew := (hacc.live _ x (Global.newNdrange_self _ x)).wild
  rw [hwild] at hnew
  have hfresh : ∀ i, ∀ w ∈ s.state.global.queue i,
      w.parentNdrange ≠ some s.state.global.nextCell := by
    intro i w hw hparent
    have hpos := Global.mem_queued (g := s.state.global.newNdrange x) hw hparent
    omega
  have hdropped : g.history.dropped s.state.global.nextCell = 0 := by
    rw [hg.dropped fun i _ hi => hroom i hi]
    omega
  refine Awaits.completesAt ⟨⟨y, hcell⟩, hdropped, ?_⟩ (hs.routed hup hfold hacc') check
  rw [times_routed hs.punctual hg hroom hfresh]
  exact hT

/-- The ND-range is complete when the last of the islands that got a part has worked off its queue
and then the part, at the price that was set for it. -/
theorem route_completes (h : (timedLoop n check).Reachable s) {kernel : KernelRef} {event : EventRef}
    {res : String} {N : ℕ} (hn : (timedLoop n check).next s (.route now kernel event res N) = some t)
    (hroom : ∀ i, t.state.algo.Serves i → (s.state.global.schedulers i).inQueue.isFull = false)
    (hT : IsGreatest {f | ∃ i, t.state.algo.Serves i ∧
      f = (s.state.global.schedulers i).leaves now (toU64 (t.state.algo.price i))} T) :
    CompletesAt check t s.state.global.nextCell T := by
  have hs := sound h
  obtain ⟨hup, x, hx, hroute, ht⟩ := next_route hn
  obtain ⟨hacc, hnext, htot⟩ := new_ndrange hs hx
  obtain ⟨-, hfold, hacc'⟩ := route_parts hacc (Global.newNdrange_self _ x) hnext htot hroute
  obtain ⟨y, hy, -⟩ := (AlgoSimple.foldlM_spares _ hfold).event x (Global.newNdrange_self _ x)
  rw [ht]
  exact hs.completes hup hacc (by rw [NDRange.new_eq_some hx]) hfold hacc' hy hroom hT

/-- Three work-groups of a second each, half a second after two others. -/
theorem route_completes_five : ∃ t : TimedSimple 1, (t.state.global.queue 0).length = 2 ∧
    CompletesAt checkResourceString t 1 5 := by
  have hrun : (Global.new (fun _ : Fin 1 => (0, 1, 0)) (fun _ => none) fun _ => 0).bind (fun g =>
      ((timedLoop 1 checkResourceString).run ⟨⟨AlgoSimple.new 1, g⟩, 0, fun _ => 0⟩
        [.route 0 default default "" 2]).bind fun s =>
      ((timedLoop 1 checkResourceString).next s (.route (1 / 2) default default "" 3)).map fun t =>
        (s.state.global.nextCell, decide (t.state.algo.Serves 0),
          (s.state.global.schedulers 0).inQueue.isFull,
          (s.state.global.schedulers 0).leaves (1 / 2) (toU64 (t.state.algo.price 0)),
          (t.state.global.queue 0).length)) = some (1, true, false, 5, 2) := by
    decide +kernel
  obtain ⟨g, hg, hrun⟩ := Option.bind_eq_some_iff.mp hrun
  obtain ⟨s, hs, hrun⟩ := Option.bind_eq_some_iff.mp hrun
  obtain ⟨t, ht, hview⟩ := Option.map_eq_some_iff.mp hrun
  simp only [Prod.mk.injEq, decide_eq_true_eq] at hview
  obtain ⟨hcell, hserves, hroom, hleaves, hlength⟩ := hview
  have hreach : (timedLoop 1 checkResourceString).Reachable s :=
    Machine.Reachable.run (.start ⟨rfl, _, _, _, hg⟩) hs
  have hzero : ∀ i : Fin 1, i = 0 := fun i => Subsingleton.elim i 0
  have hdone : CompletesAt checkResourceString t s.state.global.nextCell 5 := by
    refine route_completes hreach ht (fun i _ => by rw [hzero i]; exact hroom)
      ⟨⟨0, hserves, hleaves.symm⟩, ?_⟩
    rintro f ⟨i, -, rfl⟩
    rw [hzero i, hleaves]
  rw [hcell] at hdone
  exact ⟨t, hlength, hdone⟩

end TimedSimple

end FpgaMl
