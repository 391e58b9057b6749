import Mathlib.Tactic
import FpgaMl.Foundation.Histories
import FpgaMl.EventLoop
import FpgaMl.FreeRoom
import FpgaMl.ReleasedQueues

/-! # The event loop comes to rest

Between two calls of the clients the loop thread has only so much to do. In runs in which every
command launches, its work bounds the callback steps and the timers of schedulers that can still
come, however often the timer of the free schedulers fires in between. They go on until none is left,
and then every command is complete, unless a full scheduler lost a range. -/
namespace FpgaMl
open MachineInt TransitionSystem
set_option autoImplicit false

variable {n : ℕ}

namespace QueueRun

variable {s : QueueRun}

theorem Running.ne_new {event : ℕ} (h : s.Running event) : s ≠ .new := by
  rintro rfl
  cases h.last

end QueueRun

/-- A step of the loop thread, in a callback or a timer. -/
def RuntimeLabel.Internal : RuntimeLabel n → Prop
  | enqueue _ _ => False
  | loop _ _ _ => True
  | fire _ _ => True

/-- The same in the event loop. -/
def LoopLabel.Internal : LoopLabel n → Prop
  | library l => l.Internal
  | freeTimer _ => True

/-- Such a step, and not of the timer of the free schedulers. -/
def LoopLabel.Works : LoopLabel n → Prop
  | library l => l.Internal
  | freeTimer _ => False

instance : DecidablePred (RuntimeLabel.Internal (n := n))
  | .enqueue _ _ => inferInstanceAs (Decidable False)
  | .loop _ _ _ => inferInstanceAs (Decidable True)
  | .fire _ _ => inferInstanceAs (Decidable True)

instance : DecidablePred (LoopLabel.Works (n := n))
  | .library l => inferInstanceAs (Decidable l.Internal)
  | .freeTimer _ => inferInstanceAs (Decidable False)

namespace Runtime

variable {bits : Bitstreams} {r t : Runtime n} {S : Finset ℕ}

/-- The work of the loop thread, where only the queues in `S` have been used. -/
def work (S : Finset ℕ) (r : Runtime n) : ℕ :=
  ∑ q ∈ S, (r.queues q).work n + 4 * r.global.ranges

theorem sum_work (queues : ℕ → QueueRun) {q : ℕ} (hq : q ∈ S) (s : QueueRun) :
    ∑ p ∈ S, (Function.update queues q s p).work n + (queues q).work n =
      ∑ p ∈ S, (queues p).work n + s.work n := by
  have hrest : ∑ p ∈ S.erase q, (Function.update queues q s p).work n =
      ∑ p ∈ S.erase q, (queues p).work n :=
    Finset.sum_congr rfl fun p hp => by rw [Function.update_of_ne (Finset.ne_of_mem_erase hp)]
  rw [← Finset.add_sum_erase S _ hq, ← Finset.add_sum_erase S (fun p => (queues p).work n) hq, hrest,
    Function.update_self]
  omega

/-- Queues outside `S` have not been used. -/
def UsedWithin (S : Finset ℕ) (r : Runtime n) : Prop := ∀ q, q ∉ S → r.queues q = .new

theorem UsedWithin.update (h : r.UsedWithin S) {q : ℕ} {s : QueueRun}
    (hqueues : t.queues = Function.update r.queues q s) : t.UsedWithin (insert q S) := by
  intro p hp
  obtain ⟨hpq, hp⟩ := not_or.mp (fun h => hp (Finset.mem_insert.mpr h))
  rw [hqueues, Function.update_of_ne hpq]
  exact h p hp

theorem UsedWithin.step (h : r.UsedWithin S) {l : RuntimeLabel n}
    (hn : (library n bits).next r l = some t) : ∃ S', t.UsedWithin S' := by
  cases libraryMove hn with
  | enqueue q body hacc => exact ⟨_, h.update rfl⟩
  | callback hbusy hp hs => exact ⟨_, h.update rfl⟩
  | hand hp ht =>
    obtain ⟨cmd, s, -, -, hqueues, -⟩ := handOver_split ht
    exact ⟨_, h.update hqueues⟩
  | fire hidle hactive ht =>
    obtain ⟨g, event, d, x, -, -, ⟨rfl, -⟩ | ⟨rfl, -⟩⟩ := fire_split ht
    · exact ⟨S, h⟩
    · exact ⟨_, h.update rfl⟩

/-! ## The steps -/

/-- What the steps of the loop thread keep. -/
structure Working (bits : Bitstreams) (S : Finset ℕ) (r : Runtime n) : Prop where
  steady : r.Steady bits
  roomy : r.global.Roomy
  within : r.UsedWithin S

theorem Working.mem (h : r.Working bits S) {q : ℕ} (hne : r.queues q ≠ .new) : q ∈ S := by
  by_contra hq
  exact hne (h.within q hq)

theorem Working.keep (h : r.Working bits S) {q : ℕ} (hq : q ∈ S) {s : QueueRun}
    (hqueues : t.queues = Function.update r.queues q s) : t.UsedWithin S := by
  have hused := h.within.update hqueues
  rwa [Finset.insert_eq_of_mem hq] at hused

/-- Each step of the loop thread leaves less work. -/
theorem Working.step (h : r.Working bits S) {l : RuntimeLabel n} (hl : l.Internal)
    (hn : (library n bits).next r l = some t) : t.Working bits S ∧ t.work S < r.work S := by
  have hlaunch : r.AllLaunch l := by
    cases l with
    | enqueue q body => exact hl.elim
    | loop q now env => trivial
    | fire i now => trivial
  have hsteady := h.steady.step hlaunch hn
  cases libraryMove hn with
  | enqueue q body hacc => exact hl.elim
  | @callback q now env s hbusy hp hs =>
    have hq : q ∈ S := h.mem fun hnew => by
      rw [hnew] at hs
      cases hs
    refine ⟨⟨hsteady, h.roomy, h.keep hq rfl⟩, ?_⟩
    have hsum := sum_work (n := n) r.queues hq s
    have hless := QueueRun.work_loop (QueueRun.loopMove hs) hp n
    change ∑ p ∈ S, (Function.update r.queues q s p).work n + 4 * r.global.ranges < _
    unfold work
    omega
  | @hand q now env t hp ht =>
    have hq : q ∈ S := h.mem fun hnew => by
      rw [hnew] at hp
      cases hp
    obtain ⟨cmd, s, hs, -, hqueues, -, hglobal⟩ := handOver_split ht
    have hroomy : t.global.Roomy ∧ t.global.ranges ≤ r.global.ranges + n := by
      obtain hglobal | ⟨args, handle, xmlName, x, -, -, hroute⟩ := hglobal
      · rw [hglobal]
        exact ⟨h.roomy, Nat.le_add_right _ _⟩
      · have hnew : (r.global.newNdrange x).Roomy := h.roomy.congr rfl rfl
        exact hnew.route hroute
    refine ⟨⟨hsteady, hroomy.1, h.keep hq hqueues⟩, ?_⟩
    have hsum := sum_work (n := n) r.queues hq s
    have hless := QueueRun.work_hand hs hp n
    unfold work
    rw [hqueues]
    omega
  | @fire i now t hidle hactive ht =>
    obtain ⟨g, event, d, x, hfire, hx, ⟨rfl, -⟩ | ⟨rfl, -⟩⟩ := fire_split ht
    · have hranges := Global.ranges_onTimer hfire
      refine ⟨⟨hsteady, h.roomy.onTimer hfire, h.within⟩, ?_⟩
      change ∑ q ∈ S, (r.queues q).work n + 4 * g.ranges < _
      unfold work
      omega
    · have hranges := Global.ranges_onTimer hfire
      have hq : x.event.queue ∈ S := h.mem (h.steady.running d x hx).ne_new
      refine ⟨⟨hsteady, h.roomy.onTimer hfire, h.keep hq rfl⟩, ?_⟩
      have hsum := sum_work (n := n) r.queues hq
        ((r.queues x.event.queue).setAsComplete x.event.command)
      have hmore := (r.queues x.event.queue).work_setAsComplete x.event.command n
      change ∑ p ∈ S, (Function.update r.queues x.event.queue
        ((r.queues x.event.queue).setAsComplete x.event.command) p).work n + 4 * g.ranges < _
      unfold work
      omega

theorem roomy_start (h : (library n bits).start r) : r.global.Roomy := by
  obtain ⟨prs, cost, ends, g, memory, user, hg, rfl⟩ := h
  exact Global.roomy_new hg

theorem roomy_step (h : r.global.Roomy) {l : RuntimeLabel n}
    (hn : (library n bits).next r l = some t) : t.global.Roomy := by
  cases libraryMove hn with
  | enqueue q body hacc => exact h
  | callback hbusy hp hs => exact h
  | hand hp ht =>
    obtain ⟨cmd, s, -, -, -, -, hglobal | ⟨args, handle, xmlName, x, -, -, hroute⟩⟩ :=
      handOver_split ht
    · rw [hglobal]
      exact h
    · have hnew : (r.global.newNdrange x).Roomy := h.congr rfl rfl
      exact (hnew.route hroute).1
  | fire hidle hactive ht =>
    obtain ⟨g, event, d, x, hfire, -, ⟨rfl, -⟩ | ⟨rfl, -⟩⟩ := fire_split ht
    · exact h.onTimer hfire
    · exact h.onTimer hfire

/-- The list of free schedulers has room for each scheduler that works, so that the assertion of
`add_free_scheduler` holds, and whenever the loop thread is in no callback an active timer can fire. -/
structure TimersRun (bits : Bitstreams) (r : Runtime n) : Prop where
  listed : (r.global.freeScMgr.ids : Multiset ℕ) ≤ r.global.idleIds
  room : ∀ i, r.global.queue i ≠ [] →
    r.global.freeScMgr.ids.length < r.global.freeScMgr.capacity
  fires : r.busy = none → ∀ i, (r.global.schedulers i).timer.isActive = true → ∀ now,
    ∃ t, (library n bits).next r (.fire i now) = some t

/-- Whatever ids the configuration gives and whatever is enqueued, no timer stops the program. -/
theorem timers_run (h : (library n bits).Reachable r) : TimersRun bits r := by
  have hroomy := h.invariant (fun _ => roomy_start) fun _ _ _ hr hn => roomy_step hr hn
  refine ⟨hroomy.listed, fun i => hroomy.length_lt, fun hidle i hactive now => ?_⟩
  obtain ⟨g, event, hg⟩ := hroomy.fires (paired h).accounted hactive now
  change ∃ t, (if r.busy = none ∧ (r.global.schedulers i).timer.isActive = true then r.fire now i
    else none) = some t
  rw [if_pos ⟨hidle, hactive⟩]
  unfold fire
  rw [hg]
  exact ⟨_, rfl⟩

/-- Two schedulers of one id, both at work. -/
theorem timers_run_twins : ∃ (bits : Bitstreams) (r : Runtime 2), TimersRun bits r ∧
    (r.global.schedulers 0).id = (r.global.schedulers 1).id ∧ r.global.freeScMgr.ids = [] ∧
      r.global.queue 1 ≠ [] := by
  let bits : Bitstreams := ⟨fun _ => none, fun _ => some 2⟩
  have hrun : (Global.new (fun _ : Fin 2 => (0, 1, 1)) (fun _ => none) fun _ => 0).bind (fun g =>
      ((library 2 bits).run (Runtime.new g (fun _ => 0) fun _ => 0)
        (.enqueue 0 (.ndrange ⟨some (0, some ""), 6, 2⟩) ::
          List.replicate 5 (.loop 0 0 ⟨none, 0⟩))).map fun r =>
        (decide ((r.global.schedulers 0).id = (r.global.schedulers 1).id),
          r.global.freeScMgr.ids, decide (r.global.queue 1 ≠ []))) = some (true, [], true) := by
    decide +kernel
  obtain ⟨g, hg, hrun⟩ := Option.bind_eq_some_iff.mp hrun
  obtain ⟨r, hr, hfields⟩ := Machine.exists_reachable hrun ⟨_, _, _, g, _, _, hg, rfl⟩
  simp only [Prod.mk.injEq, decide_eq_true_eq] at hfields
  obtain ⟨hid, hids, hne⟩ := hfields
  exact ⟨bits, r, timers_run hr, hid, hids, hne⟩

/-! ## Rest -/

/-- Nothing waits, runs or is left to do. -/
structure AtRest (r : Runtime n) : Prop where
  idle : r.busy = none
  rings : ∀ q, (r.queues q).ring = []
  done : ∀ q, ∀ c ∈ (r.queues q).entered, (r.queues q).complete c.event = true
  queues : ∀ i, r.global.queue i = []
  timers : ∀ i, (r.global.schedulers i).timer.isActive = false
  ndranges : ∀ d, r.global.ndranges d = none

/-- Where the loop thread has no step left, all is done. -/
theorem Working.atRest (h : r.Working bits S)
    (hend : ∀ l : RuntimeLabel n, l.Internal → (library n bits).next r l = none)
    (hdrop : ∀ d, r.global.history.dropped d = 0) : r.AtRest := by
  have hidle : r.busy = none := by
    by_contra hne
    obtain ⟨q, hq⟩ := Option.ne_none_iff_exists'.mp hne
    obtain ⟨t, ht⟩ := h.steady.within hq 0 ⟨none, 0⟩
    rw [hend (.loop q 0 ⟨none, 0⟩) trivial] at ht
    cases ht
  have hpoint : ∀ q, (r.queues q).point = .idle := by
    intro q
    by_contra hne
    rw [(h.steady.alone q).mp hne] at hidle
    cases hidle
  have hpending : ∀ q, (r.queues q).queue.pending = false := by
    intro q
    by_contra hne
    have hstep := hend (.loop q 0 ⟨none, 0⟩) trivial
    simp [library, loopStep, QueueRun.loopStep, hidle, hpoint, hne] at hstep
  have htimers : ∀ i, (r.global.schedulers i).timer.isActive = false := by
    intro i
    by_contra hne
    obtain ⟨g, event, hg⟩ := h.roomy.fires h.steady.accounted (Bool.eq_true_of_not_eq_false hne) 0
    have hstep := hend (.fire i 0) trivial
    simp [library, fire, hidle, hne, hg] at hstep
  have hqueues : ∀ i, r.global.queue i = [] := by
    intro i
    by_contra hne
    have hactive := (h.roomy.ticking i).active.mpr hne
    rw [show (r.global.schedulers i).timer.active = false from htimers i] at hactive
    cases hactive
  have hnone : ∀ q, ¬ r.Waits q := by
    intro q hwait
    have hnot : r.busy ≠ some q := by
      rw [hidle]
      exact (Option.some_ne_none q).symm
    obtain hp | ⟨i, w, hw, -⟩ := h.steady.between hdrop hnot hwait
    · rw [hpending q] at hp
      cases hp
    · rw [hqueues i] at hw
      exact absurd hw List.not_mem_nil
  have hdone : ∀ q, ∀ c ∈ (r.queues q).entered, (r.queues q).complete c.event = true := by
    intro q c hc
    by_contra hopen
    exact hnone q ⟨c, hc, Bool.eq_false_of_not_eq_true hopen⟩
  refine ⟨hidle, fun q => ?_, hdone, hqueues, htimers, fun d => ?_⟩
  · by_contra hne
    obtain ⟨c, rest, hring⟩ := List.exists_cons_of_ne_nil hne
    have hopen := (h.steady.tended q).fresh hring
    have hentered : c ∈ (r.queues q).entered := by
      rw [(h.steady.tended q).served.order, hring]
      simp
    rw [hdone q c hentered] at hopen
    cases hopen
  · by_contra hne
    obtain ⟨x, hx⟩ := Option.ne_none_iff_exists'.mp hne
    have hrun := h.steady.running d x hx
    obtain ⟨c, hc, hce, -⟩ := hrun.handed
    have hentered : c ∈ (r.queues x.event.queue).entered := by
      rw [(h.steady.tended _).served.order]
      exact List.mem_append_left _ hc
    have hopen := hrun.open'
    rw [← hce, hdone _ c hentered] at hopen
    cases hopen

/-! ## The timer of the free schedulers -/

theorem accounted_withFreeTimer {r : Runtime n} (h : r.global.Accounted) (timer : EvTimer) :
    (r.withFreeTimer timer).global.Accounted := by
  refine ⟨h.ticking, h.parents, fun d x hx => ?_, fun d hd => ?_, h.unused⟩
  · obtain ⟨hwild, hbook, hcarved, hnext, hintact⟩ := h.live d x hx
    exact ⟨hwild, hbook, hcarved, hnext, hintact⟩
  · obtain ⟨hqueued, hdropped, hbook, hcompleted, hfresh⟩ := h.gone d hd
    exact ⟨hqueued, hdropped, hbook, hcompleted, hfresh⟩

theorem Steady.withFreeTimer (h : r.Steady bits) (timer : EvTimer) :
    (r.withFreeTimer timer).Steady bits :=
  ⟨h.tended, h.alone, accounted_withFreeTimer h.accounted timer, h.running, h.single, h.awaited⟩

theorem roomy_withFreeTimer (h : r.global.Roomy) (timer : EvTimer) :
    (r.withFreeTimer timer).global.Roomy := ⟨h.ticking, h.small, h.capacity, h.listed⟩

end Runtime

namespace EventLoop

variable {bits : Bitstreams} {s t : EventLoop n} {S : Finset ℕ}

/-- The condition on a step: the command that is enqueued launches. -/
def AllLaunch (s : EventLoop n) : LoopLabel n → Prop
  | .library l => s.runtime.AllLaunch l
  | .freeTimer _ => True

/-- What the steps of the loop thread keep, with its timer. -/
structure Working (bits : Bitstreams) (S : Finset ℕ) (s : EventLoop n) : Prop where
  runtime : s.runtime.Working bits S
  calm : s.Calm

/-- Each step of the loop thread leaves less work, or is one of the timer of the free schedulers. -/
theorem Working.step (h : s.Working bits S) {l : LoopLabel n} (hl : l.Internal)
    (hn : (eventLoop n bits).next s l = some t) : t.Working bits S ∧
      t.runtime.work S ≤ s.runtime.work S ∧ (l.Works → t.runtime.work S < s.runtime.work S) := by
  have hcalm := h.calm.step hn
  cases l with
  | library l =>
    obtain ⟨r, hr, rfl⟩ := Option.map_eq_some_iff.mp hn
    obtain ⟨hworking, hless⟩ := h.runtime.step hl hr
    exact ⟨⟨hworking, hcalm⟩, hless.le, fun _ => hless⟩
  | freeTimer now =>
    rw [h.calm.next_freeTimer] at hn
    obtain ⟨-, hn⟩ := Option.ite_none_right_eq_some.mp hn
    obtain rfl := Option.some.inj hn
    refine ⟨⟨⟨h.runtime.steady.withFreeTimer _, Runtime.roomy_withFreeTimer h.runtime.roomy _,
      h.runtime.within⟩, hcalm⟩, le_rfl, False.elim⟩

theorem exists_working (h : (eventLoop n bits).ReachableWhere AllLaunch s) :
    ∃ S, s.Working bits S := by
  apply h.invariant
  · intro s hs
    refine ⟨∅, ⟨Runtime.steady_start hs.1, Runtime.roomy_start hs.1, ?_⟩, calm_start hs⟩
    obtain ⟨⟨prs, cost, ends, g, memory, user, -, hr⟩, -⟩ := hs
    rw [hr]
    exact fun _ _ => rfl
  · rintro s l t ⟨S, hS⟩ hlaunch hn
    cases l with
    | library l =>
      have hcalm := hS.calm.step hn
      obtain ⟨r, hr, rfl⟩ := Option.map_eq_some_iff.mp hn
      obtain ⟨S', hwithin⟩ := hS.runtime.within.step hr
      exact ⟨S', ⟨hS.runtime.steady.step hlaunch hr, Runtime.roomy_step hS.runtime.roomy hr,
        hwithin⟩, hcalm⟩
    | freeTimer now =>
      have hinternal : (LoopLabel.freeTimer now : LoopLabel n).Internal := trivial
      exact ⟨S, (hS.step hinternal hn).1⟩

/-- Whatever the loop thread does, it takes at most `work` steps besides those of the timer of the
free schedulers, and can always go on until it has no such step left; where it has none and no range
was lost, all is done. That timer is active exactly if a scheduler is free, and changes only itself. -/
structure ComesToRest (bits : Bitstreams) (S : Finset ℕ) (s : EventLoop n) : Prop where
  used : s.runtime.UsedWithin S
  bounded : ∀ ls t, (∀ l ∈ ls, l.Internal) → (eventLoop n bits).run s ls = some t →
    ls.countP (fun l => l.Works) + t.runtime.work S ≤ s.runtime.work S
  ends : ∀ ls t, (∀ l ∈ ls, l.Internal) → (eventLoop n bits).run s ls = some t →
    ∃ more u, (∀ l ∈ more, l.Works) ∧ (eventLoop n bits).run t more = some u ∧
      ∀ l : LoopLabel n, l.Works → (eventLoop n bits).next u l = none
  rests : ∀ ls t, (∀ l ∈ ls, l.Internal) → (eventLoop n bits).run s ls = some t →
    (∀ l : LoopLabel n, l.Works → (eventLoop n bits).next t l = none) →
    (∀ d, t.runtime.global.history.dropped d = 0) → t.runtime.AtRest
  ticks : ∀ ls t, (∀ l ∈ ls, l.Internal) → (eventLoop n bits).run s ls = some t →
    (t.runtime.global.freeScMgr.freeSchedTimer.isActive = true ↔
      t.runtime.global.freeScMgr.ids ≠ []) ∧
    ∀ now, (eventLoop n bits).next t (.freeTimer now) =
      if t.runtime.busy = none ∧ t.runtime.global.freeScMgr.ids ≠ [] then
        some { t with runtime := t.runtime.withFreeTimer ⟨true, 0, 0⟩ } else none

theorem comes_to_rest (h : (eventLoop n bits).ReachableWhere AllLaunch s) :
    ∃ S, ComesToRest bits S s := by
  obtain ⟨S, hS⟩ := exists_working h
  have hstep : ∀ s l t, s.Working bits S → l.Internal → (eventLoop n bits).next s l = some t →
      t.Working bits S ∧ t.runtime.work S ≤ s.runtime.work S ∧
        (l.Works → t.runtime.work S < s.runtime.work S) := fun _ _ _ hs hl hn => hs.step hl hn
  have hworks : ∀ s l t, s.Working bits S → l.Works → (eventLoop n bits).next s l = some t →
      t.Working bits S ∧ t.runtime.work S < s.runtime.work S := by
    intro s l t hs hl hn
    have hinternal : l.Internal := by
      cases l with
      | library l => exact hl
      | freeTimer now => trivial
    obtain ⟨ht, -, hless⟩ := hs.step hinternal hn
    exact ⟨ht, hless hl⟩
  have hrun : ∀ ls t, (∀ l ∈ ls, l.Internal) → (eventLoop n bits).run s ls = some t →
      t.Working bits S ∧
        ls.countP (fun l => l.Works) + t.runtime.work S ≤ s.runtime.work S :=
    fun ls t hls hrun => Machine.run_countP_le hstep hS hls hrun
  refine ⟨S, hS.runtime.within, fun ls t hls h => (hrun ls t hls h).2, fun ls t hls h => ?_,
    fun ls t hls h hend hdrop => ?_, fun ls t hls h => ?_⟩
  · exact Machine.exists_exhausted hworks (hrun ls t hls h).1
  · refine (hrun ls t hls h).1.runtime.atRest (fun l hl => ?_) hdrop
    exact Option.map_eq_none_iff.mp (hend (.library l) hl)
  · have hcalm := (hrun ls t hls h).1.calm
    exact ⟨hcalm.active_iff, hcalm.next_freeTimer bits⟩

/-- An ND-range is enqueued, with a write behind it, and the timer of the free schedulers fires. -/
theorem comes_to_rest_two : ∃ (bits : Bitstreams) (s : EventLoop 1) (S : Finset ℕ),
    (s.runtime.queues 0).ring.length = 2 ∧ ComesToRest bits S s := by
  let bits : Bitstreams := ⟨fun _ => none, fun _ => some 2⟩
  have hrun : (Global.new (fun _ : Fin 1 => (0, 1, 1)) (fun _ => none) fun _ => 0).bind (fun g =>
      ((eventLoop 1 bits).run ⟨Runtime.new g (fun _ => 0) fun _ => 0, .new 30 2⟩
        [.library (.enqueue 0 (.ndrange ⟨some (0, some ""), 6, 2⟩)), .freeTimer 0,
          .library (.enqueue 0 (.writeBuffer ⟨some 0, 0, 3, 16⟩))]).map fun s =>
            (s.runtime.queues 0).ring.length) = some 2 := by
    decide +kernel
  obtain ⟨g, hg, hrun⟩ := Option.bind_eq_some_iff.mp hrun
  obtain ⟨s, hs, hring⟩ := Option.map_eq_some_iff.mp hrun
  have hreach : (eventLoop 1 bits).ReachableWhere AllLaunch s :=
    Machine.ReachableWhere.run (.start ⟨⟨_, _, _, g, _, _, hg, rfl⟩, rfl⟩) (fun _ l hl => by
      simp only [List.mem_cons, List.not_mem_nil, or_false] at hl
      obtain rfl | rfl | rfl := hl
      · exact ⟨by decide +kernel, by decide +kernel, by decide +kernel, one_pos,
          logRoom_of_le (by norm_num) _⟩
      · trivial
      · trivial) hs
  obtain ⟨S, hS⟩ := comes_to_rest hreach
  exact ⟨bits, s, S, hring, hS⟩

end EventLoop

end FpgaMl
