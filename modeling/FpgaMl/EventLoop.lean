import Mathlib.Tactic
import FpgaMl.FreeTimer
import FpgaMl.LibraryQueues

/-! # The event loop (ev_timer.cc, dispatcher.cc)

The library with the timer of the free schedulers, which calls `on_free_schedulers` of the slicing
algorithm. The dispatcher registers that algorithm and routes nothing to it: its ring stays empty, and
the timer goes on for as long as a scheduler is free and changes nothing but itself. -/
namespace FpgaMl
open TransitionSystem
set_option autoImplicit false

variable {n : ℕ}

structure EventLoop (n : ℕ) where
  runtime : Runtime n
  slicing : AlgoSlicing

inductive LoopLabel (n : ℕ)
  | library (l : RuntimeLabel n)
  | freeTimer (now : ℚ)

/-- Only the timer is set. -/
def Runtime.withFreeTimer (r : Runtime n) (timer : EvTimer) : Runtime n :=
  { r with global :=
    { r.global with freeScMgr := { r.global.freeScMgr with freeSchedTimer := timer } } }

/-- `FreeSchedulersEvTimer::on_timer`, once libev has found that the timer expired. -/
def EventLoop.fireFree (s : EventLoop n) (now : ℚ) : Option (EventLoop n) :=
  let expired := { s.runtime.global with freeScMgr := s.runtime.global.freeScMgr.expire }
  (s.slicing.onFreeSchedulers expired checkResourceString now).map fun (slicing, g) =>
    ⟨{ s.runtime with global := { g with freeScMgr := g.freeScMgr.rearm } }, slicing⟩

/-- One thread runs all callbacks. -/
def eventLoop (n : ℕ) (bits : Bitstreams) : Machine (EventLoop n) (LoopLabel n) where
  start s := (library n bits).start s.runtime ∧ s.slicing = .new 30 2
  next s
    | .library l => ((library n bits).next s.runtime l).map fun r => { s with runtime := r }
    | .freeTimer now =>
      if s.runtime.busy = none ∧ s.runtime.global.freeScMgr.freeSchedTimer.isActive then
        s.fireFree now
      else none

/-! ## The calls of the list -/

/-- From `g` to `g'` the list changes by calls of the manager. -/
def Global.ListCalled (g g' : Global n) : Prop :=
  ∃ calls : List ListCall, calls.foldlM ListCall.perform g.freeScMgr = some g'.freeScMgr

namespace Global

theorem ListCalled.refl (g : Global n) : g.ListCalled g := ⟨[], rfl⟩

theorem ListCalled.trans {g g₁ g' : Global n} (h : g.ListCalled g₁) (h' : g₁.ListCalled g') :
    g.ListCalled g' := by
  obtain ⟨calls, hcalls⟩ := h
  obtain ⟨more, hmore⟩ := h'
  refine ⟨calls ++ more, ?_⟩
  rw [List.foldlM_append, hcalls]
  exact hmore

/-- A route takes each scheduler that gets a part. -/
theorem listCalled_parts {o : AlgoSimple n} {now : ℚ} {d : ℕ} (l : List (Fin n)) {g g' : Global n}
    (h : l.foldlM (o.submitPart now d) g = some g') : g.ListCalled g' := by
  refine Loops.foldlM_invariant (fun i _ g₁ g₂ hi hcalled => ?_) h (.refl g)
  unfold AlgoSimple.submitPart at hi
  split at hi
  · obtain rfl := Option.some.inj hi
    exact hcalled
  · refine hcalled.trans ⟨[.removeFreeScheduler (g₁.schedulers i).id], ?_⟩
    rw [carveAndSubmit_freeScMgr hi]
    rfl

theorem listCalled_onTimer {g g' : Global n} {now : ℚ} {i : Fin n} {event : Option EventRef}
    (h : g.onTimer now i = some (g', event)) : g.ListCalled g' := by
  obtain ⟨calls, -, hcalls⟩ := onTimer_calls h
  exact ⟨calls, hcalls⟩

end Global

theorem listCalled_library {bits : Bitstreams} {r t : Runtime n} {l : RuntimeLabel n}
    (h : (library n bits).next r l = some t) : r.global.ListCalled t.global := by
  cases Runtime.libraryMove h with
  | enqueue q body hacc => exact .refl _
  | callback hbusy hp hs => exact .refl _
  | hand hp ht =>
    obtain ⟨cmd, s, -, -, -, -, hglobal | ⟨args, handle, xmlName, x, -, -, hroute⟩⟩ :=
      Runtime.handOver_split ht
    · rw [hglobal]
      exact .refl _
    · obtain ⟨_, -, -, -, hout⟩ := AlgoSimple.routeNdrange_cases hroute
      obtain ⟨calls, hcalls⟩ := Global.listCalled_parts _ (AlgoSimple.handOut_cases hout).1
      exact ⟨calls, hcalls⟩
  | fire hidle hactive ht =>
    obtain ⟨g, event, d, x, hfire, -, ⟨rfl, -⟩ | ⟨rfl, -⟩⟩ := Runtime.fire_split ht
    · exact Global.listCalled_onTimer hfire
    · exact Global.listCalled_onTimer hfire

/-! ## The timer of the free schedulers -/

namespace EventLoop

/-- The slicing algorithm has no ND-range, and the timer is active exactly if a scheduler is free. -/
structure Calm (s : EventLoop n) : Prop where
  slicing : s.slicing = .new 30 2
  live : s.runtime.global.freeScMgr.Live false

variable {s t : EventLoop n}

theorem Calm.active_iff (h : s.Calm) :
    s.runtime.global.freeScMgr.freeSchedTimer.isActive = true ↔
      s.runtime.global.freeScMgr.ids ≠ [] := by
  have hlive := h.live
  unfold FreeSchedulersManager.Live at hlive
  rwa [or_iff_left Bool.false_ne_true] at hlive

/-- The timer starts again at once. -/
theorem Calm.fireFree (h : s.Calm) (hne : s.runtime.global.freeScMgr.ids ≠ []) (now : ℚ) :
    s.fireFree now = some { s with runtime := s.runtime.withFreeTimer ⟨true, 0, 0⟩ } := by
  have hcount : s.runtime.global.freeScMgr.freeSchedulers.occupancy ≠ 0 := fun hzero => hne (by
    have hlen : s.runtime.global.freeScMgr.ids.length = 0 := by
      rw [← hzero]
      exact CircArray.length_toList _
    exact List.length_eq_zero_iff.mp hlen)
  have hnone : ∀ g : Global n, s.slicing.onFreeSchedulers g checkResourceString now =
      some (s.slicing, g) := fun g => by
    rw [h.slicing]
    rfl
  unfold EventLoop.fireFree
  dsimp only
  rw [hnone, Option.map_some]
  unfold FreeSchedulersManager.rearm FreeSchedulersManager.expire
  rw [if_pos hcount]
  rfl

theorem Calm.next_freeTimer (h : s.Calm) (bits : Bitstreams) (now : ℚ) :
    (eventLoop n bits).next s (.freeTimer now) =
      if s.runtime.busy = none ∧ s.runtime.global.freeScMgr.ids ≠ [] then
        some { s with runtime := s.runtime.withFreeTimer ⟨true, 0, 0⟩ } else none := by
  change (if s.runtime.busy = none ∧
    s.runtime.global.freeScMgr.freeSchedTimer.isActive = true then s.fireFree now else none) = _
  by_cases hfires : s.runtime.busy = none ∧ s.runtime.global.freeScMgr.ids ≠ []
  · rw [if_pos hfires, if_pos ⟨hfires.1, h.active_iff.mpr hfires.2⟩]
    exact h.fireFree hfires.2 now
  · rw [if_neg hfires, if_neg fun hactive => hfires ⟨hactive.1, h.active_iff.mp hactive.2⟩]

theorem Calm.step {bits : Bitstreams} (h : s.Calm) {l : LoopLabel n}
    (hn : (eventLoop n bits).next s l = some t) : t.Calm := by
  cases l with
  | library l =>
    obtain ⟨r, hr, rfl⟩ := Option.map_eq_some_iff.mp hn
    obtain ⟨calls, hcalls⟩ := listCalled_library hr
    exact ⟨h.slicing, FreeSchedulersManager.performs_live h.live hcalls⟩
  | freeTimer now =>
    rw [h.next_freeTimer] at hn
    obtain ⟨⟨-, hne⟩, hn⟩ := Option.ite_none_right_eq_some.mp hn
    obtain rfl := Option.some.inj hn
    exact ⟨h.slicing, iff_of_true (Or.inl rfl) hne⟩

theorem calm_start {bits : Bitstreams} (h : (eventLoop n bits).start s) : s.Calm := by
  obtain ⟨⟨prs, cost, ends, g, memory, user, hg, hr⟩, hslicing⟩ := h
  have hlive : FreeTimer.Built ⟨g.freeScMgr, true⟩ := ⟨rfl, n, prs, cost, ends, g, hg, rfl⟩
  refine ⟨hslicing, ?_⟩
  rw [hr]
  exact hlive.live

end EventLoop

end FpgaMl
