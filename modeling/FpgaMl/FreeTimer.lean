import Mathlib.Tactic
import FpgaMl.AlgoSlicing
import FpgaMl.FreeList

/-! # The timer of the free schedulers (ev_timer.cc, free_sched_mgr.cc)

`FreeSchedulersEvTimer` with the manager that starts and stops it. Schedulers are freed and taken
between two callbacks, and from inside `on_free_schedulers`. -/
namespace FpgaMl
open TransitionSystem
set_option autoImplicit false

/-- A call of the manager. -/
inductive ListCall
  | addFreeScheduler (id : ℕ)
  | removeFreeScheduler (id : ℕ)
  deriving DecidableEq, Repr

def ListCall.perform (m : FreeSchedulersManager) : ListCall → Option FreeSchedulersManager
  | addFreeScheduler id => m.addFreeScheduler id
  | removeFreeScheduler id => some (m.removeFreeScheduler id)

namespace FreeSchedulersManager

/-- The end of `on_timer`, which may find the timer active. -/
def rearm (m : FreeSchedulersManager) : FreeSchedulersManager :=
  if m.freeSchedulers.occupancy ≠ 0 then
    { m with freeSchedTimer := m.freeSchedTimer.startTimer 0 0 }
  else m

/-- `on_timer`; `cb` says whether `m_cb` is set, and `calls` is what `on_free_schedulers` does. -/
def onTimer (m : FreeSchedulersManager) (cb : Bool) (calls : List ListCall) :
    Option FreeSchedulersManager :=
  if cb then (calls.foldlM ListCall.perform m).map rearm else some m

/-- libev finds that the timer has expired. -/
def expire (m : FreeSchedulersManager) : FreeSchedulersManager :=
  { m with freeSchedTimer := m.freeSchedTimer.expire }

end FreeSchedulersManager

/-! ## The two machines -/

structure FreeTimer where
  manager : FreeSchedulersManager
  cb : Bool

/-- What `Global` builds; the dispatcher registers its callback. -/
def FreeTimer.Built (s : FreeTimer) : Prop :=
  s.cb = true ∧ ∃ (n : ℕ) (prs : Fin n → ℕ × ℕ × ℕ) (bits : String → Option (ℕ × ℕ))
    (ends : Fin n → ℚ) (g : Global n), Global.new prs bits ends = some g ∧ s.manager = g.freeScMgr

inductive FireLabel
  | call (c : ListCall)
  | fire (calls : List ListCall)

/-- The timer expires and calls back at once. -/
def freeTimers : Machine FreeTimer FireLabel where
  start := FreeTimer.Built
  next s
    | .call c => (c.perform s.manager).map fun m => { s with manager := m }
    | .fire calls =>
      if s.manager.freeSchedTimer.isActive then
        (s.manager.expire.onTimer s.cb calls).map fun m => { s with manager := m }
      else none

/-- The timer with the pending flag of its watcher. -/
structure PendingTimer extends FreeTimer where
  pending : Bool

inductive BatchLabel
  | call (c : ListCall)
  | expire
  | invoke (calls : List ListCall)

/-- The flag after a call: `ev_timer_stop` clears it, `ev_timer_start` leaves it. -/
def ListCall.pendingAfter (m : FreeSchedulersManager) (pending : Bool) : ListCall → Bool
  | addFreeScheduler _ => pending
  | removeFreeScheduler id => pending && !(m.removeFreeScheduler id).freeSchedulers.empty

/-- libev collects the expired timers first, and other callbacks may run before that of this one. -/
def batchedTimers : Machine PendingTimer BatchLabel where
  start s := s.toFreeTimer.Built ∧ s.pending = false
  next s
    | .call c => (c.perform s.manager).map fun m =>
      ⟨⟨m, s.cb⟩, c.pendingAfter s.manager s.pending⟩
    | .expire =>
      if s.manager.freeSchedTimer.isActive then some ⟨⟨s.manager.expire, s.cb⟩, true⟩ else none
    | .invoke calls =>
      if s.pending then (s.manager.onTimer s.cb calls).map fun m => ⟨⟨m, s.cb⟩, false⟩ else none

/-! ## What a call keeps -/

namespace FreeSchedulersManager

variable {m m' : FreeSchedulersManager} {c : ListCall} {pending : Bool}

/-- The timer runs, or its callback waits, as long as there are free schedulers. -/
def Live (m : FreeSchedulersManager) (pending : Bool) : Prop :=
  (m.freeSchedTimer.isActive = true ∨ pending = true) ↔ m.ids ≠ []

/-- What holds inside the callback, whose timer may have stopped. -/
def Quiet (m : FreeSchedulersManager) : Prop := m.ids = [] → m.freeSchedTimer.isActive = false

theorem addFreeScheduler_active {id : ℕ} (h : m.addFreeScheduler id = some m') :
    m'.freeSchedTimer.isActive = true := by
  obtain ⟨-, h⟩ := Option.ite_none_left_eq_some.mp h
  rw [← Option.some.inj h]
  dsimp only
  split
  · rename_i hactive
    exact hactive
  · rfl

/-- A search of the empty list finds nothing. -/
theorem ids_removeFreeScheduler_nil (hnil : m.ids = []) (id : ℕ) :
    (m.removeFreeScheduler id).ids = [] := by
  have hsize : m.freeSchedulers.occupancy = 0 := by
    rw [CircArray.occupancy, ← CircArray.length_toList]
    exact congrArg List.length hnil
  unfold removeFreeScheduler
  rw [hsize]
  exact hnil

theorem perform_live (hlive : m.Live pending) (h : c.perform m = some m') :
    m'.Live (c.pendingAfter m pending) := by
  cases c with
  | addFreeScheduler id =>
    refine iff_of_true (Or.inl (addFreeScheduler_active h)) ?_
    rw [(addFreeScheduler_eq_some h).1]
    exact List.append_ne_nil_of_right_ne_nil _ (List.cons_ne_nil _ _)
  | removeFreeScheduler id =>
    obtain rfl := Option.some.inj h
    have htimer : (m.removeFreeScheduler id).freeSchedTimer =
        if (m.removeFreeScheduler id).freeSchedulers.empty then m.freeSchedTimer.stopTimer
        else m.freeSchedTimer := rfl
    unfold Live ListCall.pendingAfter
    dsimp only
    rw [htimer]
    by_cases hempty : (m.removeFreeScheduler id).freeSchedulers.empty = true
    · have hnil : (m.removeFreeScheduler id).ids = [] := (CircArray.empty_iff _).mp hempty
      rw [if_pos hempty, hempty, Bool.not_true, Bool.and_false]
      exact iff_of_false (fun h => h.elim nofun nofun) (not_not.mpr hnil)
    · have hne : (m.removeFreeScheduler id).ids ≠ [] := mt (CircArray.empty_iff _).mpr hempty
      rw [if_neg hempty, Bool.eq_false_of_not_eq_true hempty, Bool.not_false, Bool.and_true]
      exact iff_of_true (hlive.mpr fun hnil => hne (ids_removeFreeScheduler_nil hnil id)) hne

/-- Where no callback waits, none waits after it. -/
theorem perform_live_idle (hlive : m.Live false) (h : c.perform m = some m') : m'.Live false := by
  have hcall := perform_live hlive h
  cases c <;> exact hcall

theorem performs_live {calls : List ListCall} (hlive : m.Live false)
    (h : calls.foldlM ListCall.perform m = some m') : m'.Live false :=
  Loops.foldlM_invariant (fun _ _ _ _ hcall hlive => perform_live_idle hlive hcall) h hlive

theorem adds_live {ι : Type} (id : ι → ℕ) (l : List ι) (hlive : m.Live false)
    (h : l.foldlM (fun (m : FreeSchedulersManager) i => m.addFreeScheduler (id i)) m = some m') :
    m'.Live false := by
  have hcalls : (l.map fun i => ListCall.addFreeScheduler (id i)).foldlM ListCall.perform m =
      some m' := by
    rw [List.foldlM_map]
    exact h
  exact performs_live hlive hcalls

theorem perform_quiet (h : c.perform m = some m') : m'.Quiet := by
  intro hnil
  cases c with
  | addFreeScheduler id =>
    rw [(addFreeScheduler_eq_some h).1] at hnil
    exact absurd hnil (List.append_ne_nil_of_right_ne_nil _ (List.cons_ne_nil _ _))
  | removeFreeScheduler id =>
    obtain rfl := Option.some.inj h
    have hempty : (m.removeFreeScheduler id).freeSchedulers.empty = true :=
      (CircArray.empty_iff _).mpr hnil
    change EvTimer.isActive (if (m.removeFreeScheduler id).freeSchedulers.empty then _ else _) = _
    rw [if_pos hempty]
    rfl

theorem performs_quiet {calls : List ListCall} (hquiet : m.Quiet)
    (h : calls.foldlM ListCall.perform m = some m') : m'.Quiet :=
  Loops.foldlM_invariant (fun _ _ _ _ hcall _ => perform_quiet hcall) h hquiet

theorem rearm_live (hquiet : m.Quiet) : m.rearm.Live false := by
  have hlen : m.freeSchedulers.occupancy = m.ids.length := (CircArray.length_toList _).symm
  unfold rearm
  rw [hlen]
  by_cases hnil : m.ids = []
  · rw [if_neg (by simp [hnil])]
    refine iff_of_false (fun h => ?_) (not_not.mpr hnil)
    simp [hquiet hnil] at h
  · rw [if_pos (by simp [hnil])]
    exact iff_of_true (Or.inl rfl) hnil

/-- Whatever the callback does, and whether the timer repeats or not. -/
theorem onTimer_live {calls : List ListCall} (hquiet : m.Quiet)
    (h : m.onTimer true calls = some m') : m'.Live false := by
  obtain ⟨m₁, hcalls, rfl⟩ := Option.map_eq_some_iff.mp h
  exact rearm_live (performs_quiet hquiet hcalls)

end FreeSchedulersManager

open FreeSchedulersManager

theorem FreeTimer.Built.live {s : FreeTimer} (h : s.Built) : s.manager.Live false := by
  obtain ⟨-, n, prs, bits, ends, g, hnew, hmanager⟩ := h
  have hempty : (FreeSchedulersManager.new n).Live false := by
    refine iff_of_false (fun h => h.elim nofun nofun) (not_not.mpr ?_)
    simp [FreeSchedulersManager.new, FreeSchedulersManager.ids]
  unfold Global.new at hnew
  obtain ⟨-, hnew⟩ := Option.ite_none_left_eq_some.mp hnew
  split at hnew
  · obtain ⟨m, hm, rfl⟩ := Option.map_eq_some_iff.mp hnew
    rw [hmanager]
    exact adds_live _ _ hempty hm
  · cases hnew

/-! ## Every run -/

/-- An active timer has free schedulers, so that it may stop for its callback. -/
theorem live_of_reachable {s : FreeTimer} (h : freeTimers.Reachable s) :
    s.cb = true ∧ s.manager.Live false := by
  apply h.invariant
  · intro s hs
    exact ⟨hs.1, hs.live⟩
  · rintro s l t ⟨hcb, hlive⟩ hn
    cases l with
    | call c =>
      obtain ⟨m, hm, rfl⟩ := Option.map_eq_some_iff.mp hn
      exact ⟨hcb, perform_live_idle hlive hm⟩
    | fire calls =>
      obtain ⟨hactive, hn⟩ := Option.ite_none_right_eq_some.mp hn
      obtain ⟨m, hm, rfl⟩ := Option.map_eq_some_iff.mp hn
      have hne : s.manager.ids ≠ [] := hlive.mp (Or.inl hactive)
      rw [hcb] at hm
      exact ⟨hcb, onTimer_live (m := s.manager.expire) (fun hnil => absurd hnil hne) hm⟩

/-- Between two callbacks the timer is active exactly if there are free schedulers. -/
theorem free_timer_active_iff {s : FreeTimer} (h : freeTimers.Reachable s) :
    s.manager.freeSchedTimer.isActive = true ↔ s.manager.ids ≠ [] := by
  have hlive := (live_of_reachable h).2
  unfold FreeSchedulersManager.Live at hlive
  rwa [or_iff_left Bool.false_ne_true] at hlive

/-- Two regions: both are taken inside the first callback, and one comes back. -/
theorem free_timer_active_iff_two : ∃ s : FreeTimer, (s.manager.freeSchedTimer.isActive = true ↔
    s.manager.ids ≠ []) ∧ s.manager.ids = [2] ∧ s.manager.freeSchedTimer.isActive = true := by
  have hrun : ((Global.new (fun i : Fin 2 => (0, 1, i.val + 1)) (fun _ => none)
      fun _ => 0).bind fun g =>
      (freeTimers.run ⟨g.freeScMgr, true⟩ [.fire [.removeFreeScheduler 1, .removeFreeScheduler 2],
        .call (.addFreeScheduler 2), .fire []]).map fun s =>
          (s.manager.ids, s.manager.freeSchedTimer.isActive)) = some ([2], true) := by
    decide +kernel
  obtain ⟨g, hg, hrun⟩ := Option.bind_eq_some_iff.mp hrun
  obtain ⟨s, hs, hview⟩ := Machine.exists_reachable hrun ⟨rfl, 2, _, _, _, g, hg, rfl⟩
  obtain ⟨hids, hactive⟩ := Prod.mk.inj hview
  exact ⟨s, free_timer_active_iff hs, hids, hactive⟩

/-! ## Other callbacks between the expiry and the callback -/

/-- A firing is an expiry with the callback right behind it. -/
theorem fire_batched {s t : FreeTimer} {calls : List ListCall}
    (h : freeTimers.next s (.fire calls) = some t) :
    batchedTimers.run ⟨s, false⟩ [.expire, .invoke calls] = some ⟨t, false⟩ := by
  obtain ⟨hactive, h⟩ := Option.ite_none_right_eq_some.mp h
  obtain ⟨m, hm, rfl⟩ := Option.map_eq_some_iff.mp h
  have hexpire : batchedTimers.next ⟨s, false⟩ .expire =
      some ⟨⟨s.manager.expire, s.cb⟩, true⟩ := if_pos hactive
  have hinvoke : batchedTimers.next ⟨⟨s.manager.expire, s.cb⟩, true⟩ (.invoke calls) =
      some ⟨⟨m, s.cb⟩, false⟩ := by
    change Option.map _ _ = _
    rw [hm]
    rfl
  rw [Machine.run, hexpire, Option.bind_some, Machine.run, hinvoke, Option.bind_some, Machine.run]

theorem live_of_batches {s : PendingTimer} (h : batchedTimers.Reachable s) :
    s.cb = true ∧ s.manager.Live s.pending := by
  apply h.invariant
  · rintro s ⟨hs, hpending⟩
    rw [hpending]
    exact ⟨hs.1, hs.live⟩
  · rintro s l t ⟨hcb, hlive⟩ hn
    cases l with
    | call c =>
      obtain ⟨m, hm, rfl⟩ := Option.map_eq_some_iff.mp hn
      exact ⟨hcb, perform_live hlive hm⟩
    | expire =>
      obtain ⟨hactive, hn⟩ := Option.ite_none_right_eq_some.mp hn
      rw [← Option.some.inj hn]
      exact ⟨hcb, iff_of_true (Or.inr rfl) (hlive.mp (Or.inl hactive))⟩
    | invoke calls =>
      obtain ⟨hpending, hn⟩ := Option.ite_none_right_eq_some.mp hn
      obtain ⟨m, hm, rfl⟩ := Option.map_eq_some_iff.mp hn
      have hne : s.manager.ids ≠ [] := hlive.mp (Or.inr hpending)
      rw [hcb] at hm
      exact ⟨hcb, onTimer_live (fun hnil => absurd hnil hne) hm⟩

/-- Where other callbacks run in between, the timer may be inactive, and then its callback waits:
as long as there are free schedulers, it can expire or call back. -/
theorem batched_timer_fires {s : PendingTimer} (h : batchedTimers.Reachable s)
    (hne : s.manager.ids ≠ []) : (batchedTimers.next s .expire).isSome = true ∨
      (batchedTimers.next s (.invoke [])).isSome = true := by
  obtain ⟨hcb, hlive⟩ := live_of_batches h
  obtain hactive | hpending := hlive.mpr hne
  · left
    change (if s.manager.freeSchedTimer.isActive then _ else none : Option PendingTimer).isSome = _
    rw [if_pos hactive]
    rfl
  · right
    change (if s.pending then _ else none : Option PendingTimer).isSome = _
    rw [if_pos hpending, hcb]
    rfl

/-! ## The slicing loop -/

namespace Global

variable {n : ℕ}

theorem carveAndSubmit_freeScMgr {g g' : Global n} {now : ℚ} {d k : ℕ} {i : Fin n}
    {cost : WorkGroupRange → ℕ} (h : g.carveAndSubmit now d i k cost = some g') :
    g'.freeScMgr = g.freeScMgr.removeFreeScheduler (g.schedulers i).id := by
  obtain ⟨p, hp, rfl⟩ := Option.map_eq_some_iff.mp h
  obtain ⟨r, -, rfl⟩ := Option.map_eq_some_iff.mp hp
  rfl

/-- A scheduler's timer frees at most its own scheduler. -/
theorem onTimer_calls {g g' : Global n} {now : ℚ} {i : Fin n} {event : Option EventRef}
    (h : g.onTimer now i = some (g', event)) : ∃ calls : List ListCall, calls.length ≤ 1 ∧
      calls.foldlM ListCall.perform g.freeScMgr = some g'.freeScMgr := by
  obtain ⟨w, rest, -, -, hlist, -⟩ := onTimer_freeScMgr h
  split at hlist
  · refine ⟨[.addFreeScheduler (g.schedulers i).id], le_rfl, ?_⟩
    rw [List.foldlM_cons]
    change (g.freeScMgr.addFreeScheduler _).bind _ = _
    rw [hlist]
    rfl
  · exact ⟨[], Nat.zero_le 1, hlist⟩

end Global

/-- What the loop does with the list is a series of these calls: the callback takes at most one
scheduler, and a scheduler's timer frees at most its own. -/
theorem slicing_calls {n : ℕ} {check : ℕ → String → String → Bool} {s t : SlicingState n}
    {l : SlicingLabel n} (h : (slicingLoop n check).next s l = some t) :
    ∃ calls : List ListCall, calls.length ≤ 1 ∧
      calls.foldlM ListCall.perform s.global.freeScMgr = some t.global.freeScMgr := by
  cases l with
  | route kernel event resourceString sizeX sizeY sizeZ =>
    obtain ⟨r, -, rfl⟩ := Option.map_eq_some_iff.mp h
    exact ⟨[], Nat.zero_le 1, rfl⟩
  | offer now =>
    obtain ⟨⟨a, g⟩, hturn, rfl⟩ := Option.map_eq_some_iff.mp h
    obtain ⟨-, rfl⟩ | ⟨d, rest, r, -, -, ⟨-, rfl⟩ | ⟨c, -, hslice⟩⟩ :=
      AlgoSlicing.onFreeSchedulers_cases hturn
    · exact ⟨[], Nat.zero_le 1, rfl⟩
    · exact ⟨[], Nat.zero_le 1, rfl⟩
    · unfold AlgoSlicing.slice at hslice
      split at hslice
      · rename_i hidx
        obtain ⟨g₁, hcarve, hslice⟩ := Option.bind_eq_some_iff.mp hslice
        obtain ⟨r', -, hslice⟩ := Option.bind_eq_some_iff.mp hslice
        obtain rfl : g₁ = g := (Prod.mk.inj (Option.some.inj hslice)).2
        refine ⟨[.removeFreeScheduler (s.global.schedulers ⟨c.schedulerIdx, hidx⟩).id], le_rfl, ?_⟩
        rw [Global.carveAndSubmit_freeScMgr hcarve]
        rfl
      · cases hslice
  | fire now i =>
    obtain ⟨-, h⟩ := Option.ite_none_right_eq_some.mp h
    obtain ⟨⟨g, event⟩, hfire, rfl⟩ := Option.map_eq_some_iff.mp h
    exact Global.onTimer_calls hfire

end FpgaMl
