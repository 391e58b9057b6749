import Mathlib.Tactic
import FpgaMl.SchedulerTime
import FpgaMl.RouteSimple

/-! # The cost that AlgoSimple minimises, in time

The value of `calculate_total` for an island against the time that its scheduler takes for the
range submitted to it. `get_remaining_time` speaks of the range in front only, and in seconds,
where the other two summands are milliseconds: the two agree for an island without a backlog. -/
namespace FpgaMl
open MachineInt TransitionSystem SingleServer
set_option autoImplicit false

variable {n : ℕ}

namespace Scheduler

/-- What the ranges in the queue still take, in milliseconds. -/
def backlog (s : Scheduler) (now : ℚ) : ℚ :=
  match s.inQueue.toList with
  | [] => 0
  | _ :: ws => 1000 * (s.endTime - now) + (ws.map fun w => (w.executionCost : ℚ)).sum

theorem sum_durations (ws : List WorkGroupRange) :
    1000 * (ws.map duration).sum = (ws.map fun w => (w.executionCost : ℚ)).sum := by
  induction ws with
  | nil => simp
  | cons w ws ih =>
    simp only [List.map_cons, List.sum_cons, mul_add, ih, duration]
    ring

end Scheduler

/-! ## A scheduler left to itself -/

namespace TimedScheduler

/-- Without further submissions, the range `w`, the last one, is finished at `f`. -/
def Finishes (t : TimedScheduler) (w : WorkGroupRange) (f : ℚ) : Prop :=
  ∃ m u, timedScheduler.run t (List.replicate m .fire) = some u ∧
    u.finished.length = t.submitted.length ∧ u.finished.getLast? = some (f, w)

/-- The last range leaves when those in the queue have had their durations one after another. -/
theorem Timely.last_departure (ws : List WorkGroupRange) {w : WorkGroupRange} {t : TimedScheduler}
    (h : t.Timely) (hqueue : t.scheduler.queue = w :: ws) :
    t.departures.getLast? = some (t.scheduler.endTime + (ws.map Scheduler.duration).sum) := by
  obtain ⟨-, hfront, hend, -⟩ := h.head hqueue
  induction ws generalizing w t with
  | nil =>
    have hlen := h.length
    rw [hqueue, List.length_singleton, ← length_departures] at hlen
    rw [List.getLast?_eq_getElem?, hlen, Nat.add_sub_cancel, hfront]
    simp
  | cons v vs ih =>
    obtain ⟨rest, hrest, hpop, -⟩ := h.next_fire hqueue
    obtain ⟨hend', -⟩ := Scheduler.restart_next (s := t.scheduler) t.due hrest
    have hu := h.fire hpop
    have hqueue' : (t.fire w rest).scheduler.queue = v :: vs :=
      (Scheduler.queue_restart _ _ _).trans hrest
    obtain ⟨-, hfront', hdue', -⟩ := hu.head hqueue'
    have hlast := ih hu hqueue' hfront' hdue'
    change t.departures.getLast? = some ((t.scheduler.restart t.due rest).endTime + _) at hlast
    rw [hlast, hend', hend, List.map_cons, List.sum_cons]
    ring_nf

/-- A job that arrives now leaves after the backlog and its own duration. -/
theorem Timely.leave_eq {t : TimedScheduler} (h : t.Timely) {now : ℚ} (hnow : t.clock ≤ now)
    (hdue : t.scheduler.timer.isActive = true → now ≤ t.due) (c : ℚ) :
    leave t.departures.getLast? ⟨now, c⟩ = now + t.scheduler.backlog now / 1000 + c := by
  unfold Scheduler.backlog
  cases hqueue : t.scheduler.inQueue.toList with
  | nil =>
    rw [h.leave_idle hqueue hnow]
    simp
  | cons w ws =>
    obtain ⟨hbusy, -, hend, -⟩ := h.head hqueue
    have hlate : now ≤ t.scheduler.endTime + (ws.map Scheduler.duration).sum := by
      have hsum : 0 ≤ (ws.map Scheduler.duration).sum := List.sum_nonneg (by
        intro x hx
        obtain ⟨v, -, rfl⟩ := List.mem_map.mp hx
        exact Scheduler.duration_nonneg v)
      have := hdue hbusy
      linarith
    have hsum := Scheduler.sum_durations ws
    unfold leave
    rw [h.last_departure ws hqueue, Option.elim_some, max_eq_right hlate]
    dsimp only
    linarith

theorem Timely.backlog_nonneg {t : TimedScheduler} (h : t.Timely) {now : ℚ}
    (hdue : t.scheduler.timer.isActive = true → now ≤ t.due) : 0 ≤ t.scheduler.backlog now := by
  unfold Scheduler.backlog
  cases hqueue : t.scheduler.inQueue.toList with
  | nil => exact le_rfl
  | cons w ws =>
    obtain ⟨hbusy, -, hend, -⟩ := h.head hqueue
    have hnow := hdue hbusy
    have hsum : 0 ≤ (ws.map fun w => (w.executionCost : ℚ)).sum := List.sum_nonneg (by simp)
    dsimp only
    linarith

/-- Firings alone keep the log of submissions. -/
theorem Timely.fires {t : TimedScheduler} (h : t.Timely) (m : ℕ) {u : TimedScheduler}
    (hrun : timedScheduler.run t (List.replicate m .fire) = some u) :
    u.Timely ∧ u.submitted = t.submitted := by
  induction m generalizing t with
  | zero =>
    cases hrun
    exact ⟨h, rfl⟩
  | succ m ih =>
    obtain ⟨v, hv, hrun⟩ := Option.bind_eq_some_iff.mp hrun
    obtain ⟨-, hv⟩ := Option.ite_none_right_eq_some.mp hv
    obtain ⟨⟨w, rest⟩, hpop, rfl⟩ := Option.map_eq_some_iff.mp hv
    have hu := ih (h.fire hpop) hrun
    exact hu

/-- The timer fires until the queue is empty. -/
theorem Timely.drain (ws : List WorkGroupRange) {t : TimedScheduler} (h : t.Timely)
    (hqueue : t.scheduler.queue = ws) :
    ∃ u, timedScheduler.run t (List.replicate ws.length .fire) = some u ∧
      u.scheduler.queue = [] := by
  induction ws generalizing t with
  | nil => exact ⟨t, rfl, hqueue⟩
  | cons w ws ih =>
    obtain ⟨rest, hrest, hpop, hnext⟩ := h.next_fire hqueue
    obtain ⟨u, hrun, hnil⟩ := ih (h.fire hpop) ((Scheduler.queue_restart _ _ _).trans hrest)
    refine ⟨u, ?_, hnil⟩
    rw [List.length_cons, List.replicate_succ, Machine.run, hnext]
    exact hrun

theorem Timely.finishes_iff {t : TimedScheduler} (h : t.Timely) (w : WorkGroupRange) (f : ℚ) :
    t.Finishes w f ↔ (t.submitted.map Prod.snd).getLast? = some w ∧
      t.departures.getLast? = some f := by
  -- at the end of a run that empties the queue, the last range is the last departure
  have hlast : ∀ u : TimedScheduler, u.Timely → u.submitted = t.submitted →
      u.scheduler.queue = [] → (u.finished.getLast? = some (f, w) ↔
        (t.submitted.map Prod.snd).getLast? = some w ∧ t.departures.getLast? = some f) := by
    intro u hu hsub hnil
    obtain ⟨hsnd, hfst⟩ := hu.finished_all hnil
    have hdep : u.departures = t.departures := by
      unfold departures jobs
      rw [hsub]
    rw [← hsub, ← hsnd, ← hdep, ← hfst, List.getLast?_map, List.getLast?_map]
    cases u.finished.getLast? with
    | none => simp
    | some p => simp [Prod.ext_iff, and_comm]
  constructor
  · rintro ⟨m, u, hrun, hlen, hu⟩
    obtain ⟨hut, hsub⟩ := h.fires m hrun
    have hnil : u.scheduler.queue = [] := by
      have := hut.length
      rw [hsub, hlen] at this
      exact List.length_eq_zero_iff.mp (by omega)
    exact (hlast u hut hsub hnil).mp hu
  · intro hw
    obtain ⟨u, hrun, hnil⟩ := h.drain _ rfl
    obtain ⟨hut, hsub⟩ := h.fires _ hrun
    refine ⟨_, u, hrun, ?_, (hlast u hut hsub hnil).mpr hw⟩
    have := hut.length
    rw [hnil, List.length_nil] at this
    rw [← hsub, this, Nat.add_zero]

end TimedScheduler

/-! ## The two values -/

/-- What `k` work-groups cost on island `i`, with the reconfiguration, in `int` arithmetic. -/
def IslandQuery.rangeCost (q : IslandQuery n) (i : Fin n) (k : ℤ) : ℤ :=
  i32 (i32 (k * q.wgCost i) + q.reconf i)

namespace AlgoSimple

/-- The value that `calculate_total` uses for island `i` in the distribution of the result. -/
def resultCost (o : AlgoSimple n) (i : Fin n) : ℤ := { o with wgsPerIslands := o.result }.wgsCost i

theorem Keeps.price {q : IslandQuery n} {o : AlgoSimple n} (h : Keeps q o) {i : Fin n}
    (hi : 0 < o.result i) : o.price i = q.rangeCost i (o.result i) := by
  unfold AlgoSimple.price IslandQuery.rangeCost
  rw [h.costs.2.1, h.costs.2.2]
  unfold IslandQuery.prepared
  dsimp only
  rw [if_pos (h.fits hi), if_pos (h.fits hi)]

theorem Keeps.resultCost {q : IslandQuery n} {o : AlgoSimple n} (h : Keeps q o) {i : Fin n}
    (hi : 0 < o.result i) : o.resultCost i =
      i32 (i32 (i32 (o.result i * q.wgCost i) + q.remainingTime i) + q.reconf i) := by
  unfold AlgoSimple.resultCost wgsCost
  dsimp only
  rw [h.costs.1, h.costs.2.1, h.costs.2.2]
  unfold IslandQuery.prepared
  dsimp only
  rw [if_pos (h.fits hi), if_pos (h.fits hi), if_pos (h.fits hi)]

end AlgoSimple

/-- A prediction from `R` seconds against a backlog of `B` milliseconds: the two are within a unit
only without either. `s` is the time that the range in front has left. -/
theorem close_iff {a r : ℤ} {R : ℕ} {B : ℚ} (hB : 0 ≤ B)
    (hrem : B = 0 ∧ R < 2 ^ 32 ∨ ∃ s : ℚ, 0 ≤ s ∧ 1000 * s ≤ B ∧ R = u32 ⌊s⌋.toNat) :
    |(i32 (i32 (a + i32 R) + r) : ℚ) - (B + toU64 (i32 (a + r)))| < 1 ↔
      0 ≤ i32 (a + r) ∧ B < 1 ∧ R = 0 := by
  set V := i32 (i32 (a + i32 R) + r) with hV
  set P := i32 (a + r) with hP
  have hVlo : -2 ^ 31 ≤ V := i32_lower _
  have hVlt : V < 2 ^ 31 := i32_upper _
  have hPlo : -2 ^ 31 ≤ P := i32_lower _
  have hPlt : P < 2 ^ 31 := i32_upper _
  have hmod : (V - P - R) % 2 ^ 32 = 0 := by
    rw [hV, hP]
    unfold i32
    omega
  rw [abs_lt]
  constructor
  · rintro ⟨hlo, hhi⟩
    have hpos : 0 ≤ P := by
      by_contra hneg
      have hhuge := toU64_of_neg hPlo (not_le.mp hneg)
      have hcost : (2 ^ 32 : ℚ) ≤ toU64 P := by
        exact_mod_cast (show 2 ^ 32 ≤ toU64 P by omega)
      have hV' : (V : ℚ) < 2 ^ 31 := by exact_mod_cast hVlt
      linarith
    obtain ⟨p, hp⟩ := Int.eq_ofNat_of_zero_le hpos
    have hcost : toU64 P = p := by
      rw [hp]
      exact toU64_natCast (by omega)
    rw [hcost] at hlo hhi
    obtain ⟨rfl, hR⟩ | ⟨s, hs, hsB, rfl⟩ := hrem
    · have h₁ : V < p + 1 := by exact_mod_cast (show (V : ℚ) < p + 1 by linarith)
      have h₂ : p < V + 1 := by exact_mod_cast (show (p : ℚ) < V + 1 by linarith)
      exact ⟨hpos, one_pos, by omega⟩
    · obtain ⟨q, hq⟩ := Int.eq_ofNat_of_zero_le (Int.floor_nonneg.mpr hs)
      have hqs : (q : ℚ) ≤ s := by
        have := Int.floor_le s
        rw [hq] at this
        exact_mod_cast this
      rw [hq, Int.toNat_natCast] at hmod ⊢
      have h₁ : (p : ℤ) < V + 1 := by exact_mod_cast (show (p : ℚ) < V + 1 by linarith)
      have h₂ : 1000 * (q : ℤ) < V - p + 1 := by
        exact_mod_cast (show 1000 * (q : ℚ) < V - p + 1 by linarith)
      have hqlt : q < 2 ^ 32 := by omega
      rw [u32_of_lt hqlt] at hmod ⊢
      have hVp : V = p := by omega
      refine ⟨hpos, ?_, by omega⟩
      have hVp' : (V : ℚ) = p := by exact_mod_cast hVp
      linarith
  · rintro ⟨hpos, hlt, rfl⟩
    obtain ⟨p, hp⟩ := Int.eq_ofNat_of_zero_le hpos
    have hcost : toU64 P = p := by
      rw [hp]
      exact toU64_natCast (by omega)
    have hVp : V = p := by
      rw [Nat.cast_zero] at hmod
      omega
    rw [hcost, hVp]
    push_cast
    constructor <;> linarith

/-! ## The prediction -/

/-- At `now`, the scheduler `s` is that of `t`, which is the history it has had so far, and its
timer is not overdue. -/
structure Scheduler.AtTime (s : Scheduler) (now : ℚ) (t : TimedScheduler) : Prop where
  reachable : timedScheduler.Reachable t
  scheduler : t.scheduler = s
  clock : t.clock ≤ now
  due : s.timer.isActive = true → now ≤ t.due

/-- The cost used for island `i` is, up to less than a cost unit, the time from `now` until the
scheduler, which `route_ndrange` left as `s`, has finished the range it was given. -/
def CostReal (o : AlgoSimple n) (i : Fin n) (now : ℚ) (t : TimedScheduler) (s : Scheduler) : Prop :=
  ∃ w u f, timedScheduler.next t (.submit now w) = some u ∧ u.scheduler = s ∧ u.Finishes w f ∧
    |(o.resultCost i : ℚ) - 1000 * (f - now)| < 1

/-! ## The event loop in time -/

def SimpleLabel.time : SimpleLabel n → ℚ
  | .route now _ _ _ _ => now
  | .fire now _ => now

/-- The timer of scheduler `j` as the step finds it: the one that fires has expired. -/
def SimpleLabel.timerBefore (g : Global n) (j : Fin n) : SimpleLabel n → EvTimer
  | .route _ _ _ _ _ => (g.schedulers j).timer
  | .fire _ i => if j = i then (g.schedulers j).timer.expire else (g.schedulers j).timer

structure TimedSimple (n : ℕ) where
  state : SimpleState n
  clock : ℚ
  due : Fin n → ℚ

namespace TimedSimple

/-- At `now`, no active timer is overdue. -/
def UpTo (s : TimedSimple n) (now : ℚ) : Prop :=
  s.clock ≤ now ∧ ∀ j, (s.state.global.schedulers j).timer.isActive = true → now ≤ s.due j

instance (s : TimedSimple n) (now : ℚ) : Decidable (s.UpTo now) :=
  inferInstanceAs (Decidable (_ ∧ _))

/-- Timers fire exactly when they are due. -/
def OnTime (s : TimedSimple n) : SimpleLabel n → Prop
  | .route now _ _ _ _ => s.UpTo now
  | .fire now i => s.UpTo now ∧ now = s.due i

instance (s : TimedSimple n) (l : SimpleLabel n) : Decidable (s.OnTime l) :=
  match l with
  | .route now _ _ _ _ => inferInstanceAs (Decidable (s.UpTo now))
  | .fire now i => inferInstanceAs (Decidable (s.UpTo now ∧ now = s.due i))

end TimedSimple

def timedLoop (n : ℕ) (check : ℕ → String → String → Bool) :
    Machine (TimedSimple n) (SimpleLabel n) where
  start s := (simpleLoop n check).start s.state
  next s l :=
    if s.OnTime l then
      ((simpleLoop n check).next s.state l).map fun t =>
        { state := t
          clock := l.time
          due := fun j => EvTimer.dueAfter (l.timerBefore s.state.global j)
            (t.global.schedulers j).timer l.time (s.due j) }
    else none

/-- The scheduler of an island has the history of some run of its own. -/
def TimedSimple.Follows (s : TimedSimple n) (j : Fin n) : Prop :=
  ∃ t, (s.state.global.schedulers j).AtTime s.clock t ∧
    ((s.state.global.schedulers j).timer.isActive = true → t.due = s.due j)

namespace Scheduler

theorem enqueue_full {s : Scheduler} (hs : s.Ticking) (hfull : s.inQueue.isFull = true) (now : ℚ)
    (w : WorkGroupRange) : s.enqueue now w = s := by
  have hne : s.queue ≠ [] := s.inQueue.toList_ne_nil hs.room hfull
  rw [enqueue_busy hs hne, CircArray.pushBack_full _ _ hfull]

end Scheduler

theorem TimedScheduler.Timely.clock_le {t : TimedScheduler} (h : t.Timely)
    (hact : t.scheduler.timer.isActive = true) : t.clock ≤ t.due :=
  (h.front (h.ticking.active.mp hact)).2.2

/-- Time passes for a scheduler that a step does not touch. -/
theorem Scheduler.AtTime.wait {s : Scheduler} {now now' : ℚ} {t : TimedScheduler}
    (h : s.AtTime now t) (hle : now ≤ now') (hdue : s.timer.isActive = true → now' ≤ t.due) :
    s.AtTime now' t :=
  ⟨h.reachable, h.scheduler, h.clock.trans hle, hdue⟩

theorem Scheduler.AtTime.submit {s : Scheduler} {now now' : ℚ} {t : TimedScheduler}
    (h : s.AtTime now t) (hle : now ≤ now') (hdue : s.timer.isActive = true → now' ≤ t.due)
    (hroom : s.inQueue.isFull = false) (w : WorkGroupRange) :
    (s.enqueue now' w).AtTime now' (t.submit now' w) := by
  obtain ⟨hreach, rfl, hclock, -⟩ := h
  have hnext : timedScheduler.next t (.submit now' w) = some (t.submit now' w) :=
    if_pos ⟨hclock.trans hle, hdue, hroom⟩
  have hreach' := hreach.next hnext
  exact ⟨hreach', rfl, le_rfl, (TimedScheduler.timely hreach').clock_le⟩

theorem Scheduler.AtTime.fire {s : Scheduler} {now : ℚ} {t : TimedScheduler} (h : s.AtTime now t)
    (hact : s.timer.isActive = true) {w : WorkGroupRange} {rest : CircArray WorkGroupRange}
    (hpop : s.inQueue.popFront = some (w, rest)) :
    (s.restart t.due rest).AtTime t.due (t.fire w rest) := by
  obtain ⟨hreach, rfl, -, -⟩ := h
  have hnext : timedScheduler.next t .fire = some (t.fire w rest) := by
    change (if t.scheduler.timer.isActive = true then _ else none) = _
    rw [if_pos hact, hpop]
    rfl
  have hreach' := hreach.next hnext
  exact ⟨hreach', rfl, le_rfl, (TimedScheduler.timely hreach').clock_le⟩

theorem TimedSimple.follows_start {check : ℕ → String → String → Bool} {s : TimedSimple n}
    (h : (timedLoop n check).start s) (j : Fin n) : s.Follows j := by
  obtain ⟨-, prs, bits, ends, hnew⟩ := h
  obtain ⟨s', hs', hj⟩ := (Global.new_spec hnew).1 j
  have hstart := TimedScheduler.start_new hs' s.clock (s.due j)
  have htimer : s'.timer = .new := hstart.2.1
  have hidle : ¬ (s.state.global.schedulers j).timer.isActive = true := by
    rw [hj, htimer]
    exact Bool.false_ne_true
  exact ⟨_, ⟨.start hstart, hj.symm, le_rfl, fun hact => absurd hact hidle⟩,
    fun hact => absurd hact hidle⟩

theorem TimedSimple.follows_step {check : ℕ → String → String → Bool} {s s' : TimedSimple n}
    {l : SimpleLabel n} (hs : ∀ j, s.Follows j) (hn : (timedLoop n check).next s l = some s')
    (j : Fin n) : s'.Follows j := by
  obtain ⟨hon, hn⟩ := Option.ite_none_right_eq_some.mp hn
  obtain ⟨g, hg, rfl⟩ := Option.map_eq_some_iff.mp hn
  obtain ⟨t, ht, hsame⟩ := hs j
  -- a scheduler that the step leaves alone
  have hwait : ∀ now, s.UpTo now → (g.global.schedulers j) = s.state.global.schedulers j →
      l.time = now → l.timerBefore s.state.global j = (s.state.global.schedulers j).timer →
      (g.global.schedulers j).AtTime l.time t ∧
        ((g.global.schedulers j).timer.isActive = true →
          t.due = EvTimer.dueAfter (l.timerBefore s.state.global j) (g.global.schedulers j).timer
            l.time (s.due j)) := by
    rintro now ⟨hclock, hdue⟩ hkept rfl hbefore
    rw [hkept, hbefore]
    refine ⟨ht.wait hclock fun hact => (hsame hact).symm ▸ hdue j hact, fun hact => ?_⟩
    unfold EvTimer.dueAfter
    rw [if_pos hact]
    exact hsame hact
  cases l with
  | route now kernel event res numWgs =>
    obtain ⟨r, -, hroute⟩ := route_cases hg
    obtain ⟨hserved, hskipped, -⟩ := AlgoSimple.routeNdrange_schedulers hroute
    by_cases hj : g.algo.Serves j
    · obtain ⟨w, -, hsched⟩ := hserved j hj
      change g.global.schedulers j = (s.state.global.schedulers j).enqueue now w at hsched
      cases hroom : (s.state.global.schedulers j).inQueue.isFull with
      | true =>
        have hticking := (TimedScheduler.timely ht.reachable).ticking
        rw [ht.scheduler] at hticking
        exact ⟨t, hwait now hon (hsched.trans (Scheduler.enqueue_full hticking hroom now w)) rfl rfl⟩
      | false =>
        have hnew := ht.submit hon.1 (fun hact => (hsame hact).symm ▸ hon.2 j hact) hroom w
        refine ⟨t.submit now w, ?_, fun _ => ?_⟩
        · change (g.global.schedulers j).AtTime now _
          rw [hsched]
          exact hnew
        · change EvTimer.dueAfter t.scheduler.timer (t.scheduler.enqueue now w).timer now t.due =
            EvTimer.dueAfter (s.state.global.schedulers j).timer (g.global.schedulers j).timer now
              (s.due j)
          rw [hsched, ht.scheduler]
          unfold EvTimer.dueAfter
          split
          · rename_i hact
            exact hsame hact
          · rfl
    · exact ⟨t, hwait now hon (hskipped j hj) rfl rfl⟩
  | fire now i =>
    obtain ⟨hup, hdue⟩ := hon
    obtain ⟨-, event, hfire⟩ := fire_cases hg
    obtain ⟨w, rest, d, r, hpop, -, -, hsched, -⟩ := Global.onTimer_spec hfire
    by_cases hj : j = i
    · subst hj
      have hact : (s.state.global.schedulers j).timer.isActive = true :=
        (Option.ite_none_right_eq_some.mp hg).1
      have hnow : now = t.due := hdue.trans (hsame hact).symm
      have hnew := ht.fire hact hpop
      refine ⟨t.fire w rest, ?_, fun _ => ?_⟩
      · change (g.global.schedulers j).AtTime now _
        rw [hsched, Function.update_self, hnow]
        exact hnew
      · change EvTimer.dueAfter t.scheduler.timer.expire (t.scheduler.restart t.due rest).timer
          t.due t.due = EvTimer.dueAfter (if j = j then _ else _) (g.global.schedulers j).timer now
            (s.due j)
        rw [if_pos rfl, hsched, Function.update_self, ht.scheduler, hnow, hsame hact]
    · refine ⟨t, hwait now hup ?_ rfl (if_neg hj)⟩
      rw [hsched, Function.update_of_ne hj]

/-- In every run of the loop each scheduler is, at any time, one that a history of its own has
led to. -/
theorem TimedSimple.follows {check : ℕ → String → String → Bool} {s : TimedSimple n}
    (h : (timedLoop n check).Reachable s) (j : Fin n) : s.Follows j :=
  h.invariant (I := fun s => ∀ j, s.Follows j) (fun _ hs => follows_start hs)
    (fun _ _ _ hs hn => follows_step hs hn) j

section Route

variable {g g' : Global n} {now : ℚ} {i : Fin n} {t : TimedScheduler} {o o' : AlgoSimple n}
  {check : ℕ → String → String → Bool} {d : ℕ} {r : NDRange}

/-- The range leaves after the backlog and its own cost. -/
theorem costReal_iff_close (h : (g.schedulers i).AtTime now t)
    (hroute : o.routeNdrange g check now d = some (o', g')) (hi : 0 < o'.result i) :
    CostReal o' i now t (g'.schedulers i) ↔ (g.schedulers i).inQueue.isFull = false ∧
      |(o'.resultCost i : ℚ) - ((g.schedulers i).backlog now + toU64 (o'.price i))| < 1 := by
  obtain ⟨hserved, -⟩ := AlgoSimple.routeNdrange_schedulers hroute
  obtain ⟨w, hcost, hsched⟩ := hserved i (AlgoSimple.serves_of_pos hi)
  obtain ⟨hreach, hsame, hclock, hdue⟩ := h
  have ht := TimedScheduler.timely hreach
  rw [← hsame] at hdue hsched ⊢
  have hleaves : ∀ u : TimedScheduler, u.Timely → u = t.submit now w → ∀ f,
      u.Finishes w f ↔ 1000 * (f - now) = t.scheduler.backlog now + toU64 (o'.price i) := by
    rintro u hu rfl f
    rw [hu.finishes_iff, TimedScheduler.departures_submit, List.getLast?_concat,
      ht.leave_eq hclock hdue, ← hcost, Option.some.injEq, Scheduler.duration]
    have hlast : ((t.submit now w).submitted.map Prod.snd).getLast? = some w := by
      change ((t.submitted ++ [(now, w)]).map Prod.snd).getLast? = some w
      rw [List.map_append]
      exact List.getLast?_concat
    constructor
    · rintro ⟨-, rfl⟩
      ring
    · intro hf
      exact ⟨hlast, by linarith⟩
  constructor
  · rintro ⟨v, u, f, hnext, hu, hf, hclose⟩
    obtain ⟨⟨hnow, hact, hroom⟩, hnext⟩ := Option.ite_none_right_eq_some.mp hnext
    obtain rfl := Option.some.inj hnext
    -- the ring had room, so that what is behind the old queue tells which range was submitted
    obtain rfl : v = w := by
      have hq := congrArg Scheduler.queue (hu.trans hsched)
      change (t.scheduler.enqueue now v).queue = _ at hq
      rw [Scheduler.queue_enqueue hroom, Scheduler.queue_enqueue hroom] at hq
      exact List.singleton_inj.mp (List.append_cancel_left hq)
    rw [(hleaves _ (ht.submit hnow hact hroom v) rfl f).mp hf] at hclose
    exact ⟨hroom, hclose⟩
  · rintro ⟨hroom, hclose⟩
    have hf : ∀ x : ℚ, 1000 * (now + x / 1000 - now) = x := fun x => by ring
    refine ⟨w, t.submit now w, now + (t.scheduler.backlog now + toU64 (o'.price i)) / 1000,
      if_pos ⟨hclock, hdue, hroom⟩, hsched.symm, ?_, ?_⟩
    · exact (hleaves _ (ht.submit hclock hdue hroom w) rfl _).mpr (hf _)
    · rw [hf]
      exact hclose

theorem TimedScheduler.Timely.remaining (h : t.Timely)
    (hdue : t.scheduler.timer.isActive = true → now ≤ t.due) :
    t.scheduler.backlog now = 0 ∧ t.scheduler.getRemainingTime now < 2 ^ 32 ∨
      ∃ s : ℚ, 0 ≤ s ∧ 1000 * s ≤ t.scheduler.backlog now ∧
        t.scheduler.getRemainingTime now = u32 ⌊s⌋.toNat := by
  unfold Scheduler.getRemainingTime Scheduler.backlog
  cases hqueue : t.scheduler.inQueue.toList with
  | nil =>
    left
    refine ⟨rfl, ?_⟩
    split
    · norm_num
    · exact u32_lt _
  | cons w ws =>
    right
    obtain ⟨hbusy, -, hend, -⟩ := h.head hqueue
    have hnow := hdue hbusy
    have hsum : 0 ≤ (ws.map fun w => (w.executionCost : ℚ)).sum := List.sum_nonneg (by simp)
    refine ⟨t.scheduler.endTime - now, by linarith, ?_, if_neg (by linarith)⟩
    dsimp only
    linarith

/-- The prediction is right exactly for an island without a backlog: its queue takes, in all, less
than a cost unit, and no time is left of an earlier range. The ring must have room for the range,
whose cost must not be negative as an `int`. -/
theorem cost_real_iff (h : (g.schedulers i).AtTime now t) (hr : g.ndranges d = some r)
    (hroute : o.routeNdrange g check now d = some (o', g')) (hi : 0 < o'.result i) :
    CostReal o' i now t (g'.schedulers i) ↔ (g.schedulers i).inQueue.isFull = false ∧
      0 ≤ (g.islandQuery check now r).rangeCost i (o'.result i) ∧
      (g.schedulers i).backlog now < 1 ∧ (g.schedulers i).getRemainingTime now = 0 := by
  have hkept := (AlgoSimple.routeNdrange_schedulers hroute).2.2 r hr
  have ht := TimedScheduler.timely h.reachable
  have hdue := h.due
  have hvalue : o'.resultCost i = i32 (i32 (i32 (o'.result i *
      (g.islandQuery check now r).wgCost i) + i32 ((g.schedulers i).getRemainingTime now)) +
        (g.islandQuery check now r).reconf i) := hkept.resultCost hi
  rw [costReal_iff_close h hroute hi, hkept.price hi, hvalue]
  rw [← h.scheduler] at hdue ⊢
  exact and_congr_right fun _ => close_iff (ht.backlog_nonneg hdue) (ht.remaining hdue)

end Route

/-- Two work-groups for an island that is free. -/
theorem cost_real_iff_free : ∃ (g g' : Global 1) (o' : AlgoSimple 1) (t : TimedScheduler),
    (AlgoSimple.new 1).routeNdrange g checkResourceString 0 0 = some (o', g') ∧
      o'.resultCost 0 = 2000 ∧ CostReal o' 0 0 t (g'.schedulers 0) := by
  have hrun : ((Global.new (fun _ : Fin 1 => (0, 1, 0)) (fun _ => none) fun _ => 0).bind fun g =>
      (NDRange.new default default "" 2 1 1).bind fun r =>
        ((AlgoSimple.new 1).routeNdrange (g.newNdrange r) checkResourceString 0 0).map fun p =>
          (decide (0 < p.1.result 0), p.1.resultCost 0, (g.schedulers 0).inQueue.isFull,
            decide (0 ≤ ((g.newNdrange r).islandQuery checkResourceString 0 r).rangeCost 0
              (p.1.result 0)),
            (g.schedulers 0).backlog 0, (g.schedulers 0).getRemainingTime 0)) =
        some (true, 2000, false, true, 0, 0) := by
    decide +kernel
  obtain ⟨g, hg, hrun⟩ := Option.bind_eq_some_iff.mp hrun
  obtain ⟨r, -, hrun⟩ := Option.bind_eq_some_iff.mp hrun
  obtain ⟨⟨o', g'⟩, hroute, hview⟩ := Option.map_eq_some_iff.mp hrun
  simp only [Prod.mk.injEq, decide_eq_true_eq] at hview
  obtain ⟨hpos, hvalue, hroom, hcost, hbacklog, hremaining⟩ := hview
  have hstart : (timedLoop 1 checkResourceString).start ⟨⟨AlgoSimple.new 1, g⟩, 0, fun _ => 0⟩ :=
    ⟨rfl, _, _, _, hg⟩
  obtain ⟨t, ht, -⟩ := TimedSimple.follows_start hstart 0
  have hcell : (g.newNdrange r).ndranges 0 = some r := by
    have hnext := (Global.new_spec hg).2.2.1
    exact hnext ▸ Global.newNdrange_self g r
  have ht' : ((g.newNdrange r).schedulers 0).AtTime 0 t := ht
  refine ⟨_, g', o', t, hroute, hvalue, (cost_real_iff ht' hcell hroute hpos).mpr
    ⟨hroom, hcost, ?_, hremaining⟩⟩
  change (g.schedulers 0).backlog 0 < 1
  rw [hbacklog]
  exact one_pos

/-- An island with a range of two seconds before it counts as one with two milliseconds. -/
theorem seconds_as_milliseconds : ∃ (s s' : TimedSimple 1) (t : TimedScheduler),
    (timedLoop 1 checkResourceString).Reachable s ∧
      (timedLoop 1 checkResourceString).next s (.route 0 default default "" 2) = some s' ∧
      (s.state.global.schedulers 0).AtTime 0 t ∧ s'.state.algo.result 0 = 2 ∧
      s'.state.algo.resultCost 0 = 2002 ∧
      ¬ CostReal s'.state.algo 0 0 t (s'.state.global.schedulers 0) := by
  have hrun : ((Global.new (fun _ : Fin 1 => (0, 1, 0)) (fun _ => none) fun _ => 0).bind fun g =>
      ((timedLoop 1 checkResourceString).run ⟨⟨AlgoSimple.new 1, g⟩, 0, fun _ => 0⟩
        [.route 0 default default "" 2]).bind fun s =>
      ((timedLoop 1 checkResourceString).next s (.route 0 default default "" 2)).map fun s' =>
        (s.clock, s'.state.algo.result 0, s'.state.algo.resultCost 0, s'.state.algo.price 0,
          (s.state.global.schedulers 0).backlog 0)) = some (0, 2, 2002, 2000, 2000) := by
    decide +kernel
  obtain ⟨g, hg, hrun⟩ := Option.bind_eq_some_iff.mp hrun
  obtain ⟨s, hs, hrun⟩ := Option.bind_eq_some_iff.mp hrun
  obtain ⟨s', hs', hview⟩ := Option.map_eq_some_iff.mp hrun
  simp only [Prod.mk.injEq] at hview
  obtain ⟨hclock, hresult, hvalue, hprice, hbacklog⟩ := hview
  have hreach : (timedLoop 1 checkResourceString).Reachable s :=
    Machine.Reachable.run (.start ⟨rfl, _, _, _, hg⟩) hs
  obtain ⟨t, ht, -⟩ := TimedSimple.follows hreach 0
  rw [hclock] at ht
  refine ⟨s, s', t, hreach, hs', ht, hresult, hvalue, fun hreal => ?_⟩
  obtain ⟨-, hnext⟩ := Option.ite_none_right_eq_some.mp hs'
  obtain ⟨u, hu, rfl⟩ := Option.map_eq_some_iff.mp hnext
  obtain ⟨r, -, hroute⟩ := route_cases hu
  have hpos : 0 < u.algo.result 0 := by
    change u.algo.result 0 = 2 at hresult
    rw [hresult]
    norm_num
  obtain ⟨-, hclose⟩ := (costReal_iff_close (g := s.state.global.newNdrange r) ht hroute hpos).mp hreal
  change |(u.algo.resultCost 0 : ℚ) - ((s.state.global.schedulers 0).backlog 0 +
    toU64 (u.algo.price 0))| < 1 at hclose
  change u.algo.resultCost 0 = 2002 at hvalue
  change u.algo.price 0 = 2000 at hprice
  have hcost : toU64 2000 = 2000 := toU64_natCast (n := 2000) (by norm_num)
  rw [hvalue, hprice, hbacklog, hcost] at hclose
  norm_num at hclose

end FpgaMl
