import Mathlib.Tactic
import FpgaMl.LibraryQueues

/-! # The ND-ranges of the library

Whatever the queues do, what the library does with its ND-ranges is a run of the loop around
AlgoSimple: one route for each launch that a queue hands over, in the order of the queue. The event of
a launch is complete exactly if that loop has completed its ND-range. -/
namespace FpgaMl
open MachineInt TransitionSystem
set_option autoImplicit false

variable {n : ℕ}

/-! ## Launches -/

/-- What `handle_ndrange_command` makes an ND-range of. -/
structure Launch where
  kernel : KernelRef
  event : EventRef
  resourceString : String
  numWgs : ℕ

/-- The launch of a command when queue `q` hands it over. -/
def MLCLCommand.launch (bits : Bitstreams) (q : ℕ) (cmd : MLCLCommand) : Option Launch :=
  match cmd.body with
  | .ndrange ⟨some (handle, some xmlName), globalWorkSize, localWorkSize⟩ =>
    some ⟨⟨handle, xmlName⟩, ⟨q, cmd.event⟩, bits.getResourceString xmlName,
      NdrArgs.numWgs ⟨some (handle, some xmlName), globalWorkSize, localWorkSize⟩⟩
  | _ => none

/-- The route of a launch. -/
def Launch.label (l : Launch) (now : ℚ) : SimpleLabel n :=
  .route now l.kernel l.event l.resourceString l.numWgs

def SimpleLabel.launch : SimpleLabel n → Option Launch
  | .route _ kernel event resourceString numWgs => some ⟨kernel, event, resourceString, numWgs⟩
  | .fire _ _ => none

/-- The launches of a run, in order; the `d`-th one has heap cell `d`. -/
def launches (ks : List (SimpleLabel n)) : List Launch := ks.filterMap SimpleLabel.launch

theorem launches_append (ks more : List (SimpleLabel n)) :
    launches (ks ++ more) = launches ks ++ launches more := List.filterMap_append

theorem MLCLCommand.launch_numWgs {bits : Bitstreams} {q : ℕ} {cmd : MLCLCommand} {l : Launch}
    (h : cmd.launch bits q = some l) : l.numWgs < 2 ^ 32 := by
  unfold MLCLCommand.launch at h
  split at h
  · obtain rfl := Option.some.inj h
    exact u32_lt _
  · cases h

/-- The ND-range of a launch, with nothing left to carve. -/
structure Launch.Carved (l : Launch) (x : NDRange) : Prop where
  kernel : x.kernel = l.kernel
  event : x.event = l.event
  totalSize : x.totalSize = l.numWgs
  whole : x.hasMoreWgs = false

theorem Launch.Carved.decrement {l : Launch} {x : NDRange} (h : l.Carved x) :
    l.Carved x.decrementWgrsCounter.1 :=
  ⟨h.kernel, h.event, h.totalSize, h.whole⟩

theorem MLCLCommand.launch_event {bits : Bitstreams} {q : ℕ} {cmd : MLCLCommand} {l : Launch}
    (h : cmd.launch bits q = some l) : l.event = ⟨q, cmd.event⟩ := by
  unfold MLCLCommand.launch at h
  split at h
  · obtain rfl := Option.some.inj h
    rfl
  · cases h

namespace AlgoSimple

variable {o o' : AlgoSimple n} {g g' : Global n} {now : ℚ} {d : ℕ} {x : NDRange}

/-- Carving changes the counters of an ND-range only. -/
theorem foldlM_keeps (l : List (Fin n)) (h : l.foldlM (o.submitPart now d) g = some g')
    (hx : g.ndranges d = some x) : g'.history.deleted = g.history.deleted ∧
      ∃ y, g'.ndranges d = some y ∧ y.kernel = x.kernel ∧ y.event = x.event ∧
        y.totalSize = x.totalSize := by
  refine Loops.foldlM_invariant (P := fun t => t.history.deleted = g.history.deleted ∧
    ∃ y, t.ndranges d = some y ∧ y.kernel = x.kernel ∧ y.event = x.event ∧ y.totalSize = x.totalSize)
    (fun i _ g₁ g₂ hi hsame => ?_) h ⟨rfl, x, hx, rfl, rfl, rfl⟩
  unfold submitPart at hi
  split at hi
  · cases hi
    exact hsame
  · obtain ⟨r, w, hr, -, hheap, -, -, -, -, hdeleted, -⟩ := Global.carveAndSubmit_spec hi
    obtain ⟨hdel, y, hy, hkernel, hevent, htotal⟩ := hsame
    obtain rfl := Option.some.inj (hy.symm.trans hr)
    have hnew : g₂.ndranges d = some (y.carveWgs d (toU64 (o.result i))).2 := by
      rw [hheap, Function.update_self]
    exact ⟨hdeleted.trans hdel, _, hnew, hkernel, hevent, htotal⟩

/-- A route that returns has carved all of its ND-range. -/
theorem routeNdrange_carved {check : ℕ → String → String → Bool}
    (h : o.routeNdrange g check now d = some (o', g')) (hx : g.ndranges d = some x) :
    g'.history.deleted = g.history.deleted ∧ ∃ y, g'.ndranges d = some y ∧ y.kernel = x.kernel ∧
      y.event = x.event ∧ y.totalSize = x.totalSize ∧ y.hasMoreWgs = false := by
  obtain ⟨r, -, -, -, hout⟩ := routeNdrange_cases h
  obtain ⟨hfold, y, hy, hdone⟩ := handOut_cases hout
  obtain ⟨hdeleted, z, hz, hkernel, hevent, htotal⟩ := foldlM_keeps _ hfold hx
  obtain rfl := Option.some.inj (hz.symm.trans hy)
  exact ⟨hdeleted, z, hz, hkernel, hevent, htotal, hdone⟩

end AlgoSimple

namespace Runtime

variable {bits : Bitstreams} {r t : Runtime n}

/-- The part of the library that the loop around AlgoSimple works on. -/
def simple (r : Runtime n) : SimpleState n := ⟨r.algo, r.global⟩

theorem handOver_launch {now : ℚ} {env : KernelEnv} {q : ℕ} (h : r.handOver bits now env q = some t)
    {cmd : MLCLCommand} {rest : List MLCLCommand} (hring : (r.queues q).ring = cmd :: rest) :
    (cmd.launch bits q = none ∧ t.simple = r.simple) ∨ ∃ l, cmd.launch bits q = some l ∧
      (simpleLoop n checkResourceString).next r.simple (l.label now) = some t.simple := by
  obtain ⟨c, u, s, -, hc, -, h⟩ := handOver_pops h
  obtain ⟨rfl, -⟩ := List.cons.inj (hring.symm.trans hc)
  unfold MLCLCommand.launch
  cases hbody : cmd.body with
  | writeBuffer args | readBuffer args | empty =>
    rw [hbody] at h
    simp only [handleACmd] at h
    obtain rfl := Option.some.inj h
    exact Or.inl ⟨rfl, rfl⟩
  | ndrange args =>
    rw [hbody] at h
    change (r.setQueue q u).handleNdrangeCommand bits now ⟨q, cmd.event⟩ args = some t at h
    obtain ⟨kernel, globalWorkSize, localWorkSize⟩ := args
    obtain _ | ⟨handle, _ | xmlName⟩ := kernel
    · obtain rfl := Option.some.inj h
      exact Or.inl ⟨rfl, rfl⟩
    · obtain rfl := Option.some.inj h
      exact Or.inl ⟨rfl, rfl⟩
    · obtain ⟨x, hx, h⟩ := Option.bind_eq_some_iff.mp h
      obtain ⟨⟨algo, g⟩, hroute, h⟩ := Option.bind_eq_some_iff.mp h
      obtain rfl := Option.some.inj h
      refine Or.inr ⟨_, rfl, ?_⟩
      exact Option.bind_eq_some_iff.mpr ⟨x, hx, Option.bind_eq_some_iff.mpr ⟨_, hroute, rfl⟩⟩

/-! ## The steps -/

/-- The ND-range `x` of cell `d` has deleted itself, and its event is complete. -/
structure Finished (r : Runtime n) (d : ℕ) (x : NDRange) : Prop where
  gone : r.global.ndranges d = none
  completed : r.global.history.completed d = 1
  deleted : r.global.history.deleted d = some x
  complete : (r.queues x.event.queue).complete x.event.command = true

theorem Finished.keep {d : ℕ} {x : NDRange} (h : r.Finished d x)
    (hgone : t.global.ndranges d = r.global.ndranges d)
    (hcompleted : t.global.history.completed d = r.global.history.completed d)
    (hdeleted : t.global.history.deleted d = r.global.history.deleted d)
    (hcomp : ∀ q e, (r.queues q).complete e = true → (t.queues q).complete e = true) :
    t.Finished d x :=
  ⟨hgone.trans h.gone, hcompleted.trans h.completed, hdeleted.trans h.deleted,
    hcomp _ _ h.complete⟩

/-- A step that leaves cell `d` alone leaves the ND-range of its launch as it was. -/
theorem settled_keep {d : ℕ} {l : Launch}
    (h : ∃ x, l.Carved x ∧ (r.global.ndranges d = some x ∨ r.Finished d x))
    (hcell : t.global.ndranges d = r.global.ndranges d)
    (hcompleted : t.global.history.completed d = r.global.history.completed d)
    (hdeleted : t.global.history.deleted d = r.global.history.deleted d)
    (hcomp : ∀ q e, (r.queues q).complete e = true → (t.queues q).complete e = true) :
    ∃ x, l.Carved x ∧ (t.global.ndranges d = some x ∨ t.Finished d x) := by
  obtain ⟨x, hx, hcase⟩ := h
  refine ⟨x, hx, hcase.imp (fun hlive => hcell.trans hlive) fun hfin => ?_⟩
  exact hfin.keep hcell hcompleted hdeleted hcomp

/-- The launch of a cell that lives has the ND-range that lives there. -/
theorem carved_of_live {d : ℕ} {l : Launch} {x : NDRange} (hx : r.global.ndranges d = some x)
    (h : ∃ y, l.Carved y ∧ (r.global.ndranges d = some y ∨ r.Finished d y)) : l.Carved x := by
  obtain ⟨y, hy, hlive | hfin⟩ := h
  · obtain rfl := Option.some.inj (hx.symm.trans hlive)
    exact hy
  · rw [hfin.gone] at hx
    cases hx

/-- The run `ks` of the loop around AlgoSimple, with what the steps rest on. -/
structure Routed (bits : Bitstreams) (s₀ : SimpleState n) (r : Runtime n) (ks : List (SimpleLabel n)) :
    Prop where
  paired : r.Paired
  led : (simpleLoop n checkResourceString).run s₀ ks = some r.simple
  order : ∀ q, (launches ks).filter (fun l => decide (l.event.queue = q)) =
    (r.queues q).handed.filterMap fun c => c.launch bits q
  cells : (launches ks).length = r.global.nextCell
  settled : ∀ d l, (launches ks)[d]? = some l →
    ∃ x, l.Carved x ∧ (r.global.ndranges d = some x ∨ r.Finished d x)

variable {s₀ : SimpleState n} {ks : List (SimpleLabel n)}

/-- A step that leaves the ND-ranges alone. -/
theorem Routed.keep (h : Routed bits s₀ r ks) (hpaired : t.Paired) (hsimple : t.simple = r.simple)
    (horder : ∀ q, ((t.queues q).handed.filterMap fun c => c.launch bits q) =
      (r.queues q).handed.filterMap fun c => c.launch bits q)
    (hcomp : ∀ q e, (r.queues q).complete e = true → (t.queues q).complete e = true) :
    Routed bits s₀ t ks := by
  have hglobal : t.global = r.global := congrArg SimpleState.global hsimple
  refine ⟨hpaired, hsimple ▸ h.led, fun q => (h.order q).trans (horder q).symm, hglobal ▸ h.cells,
    fun d l hd => ?_⟩
  exact settled_keep (h.settled d l hd) (by rw [hglobal]) (by rw [hglobal]) (by rw [hglobal]) hcomp

/-- A launch is handed over. -/
theorem Routed.route (h : Routed bits s₀ r ks) (hpaired : t.Paired) {q : ℕ} {s : QueueRun}
    (hqueues : t.queues = Function.update r.queues q s) {cmd : MLCLCommand}
    (hhanded : s.handed = (r.queues q).handed ++ [cmd])
    (hcomp : ∀ e, (r.queues q).complete e = true → s.complete e = true) {l : Launch} {now : ℚ}
    (hl : cmd.launch bits q = some l)
    (hn : (simpleLoop n checkResourceString).next r.simple (l.label now) = some t.simple) :
    Routed bits s₀ t (ks ++ [l.label now]) := by
  have hevent := MLCLCommand.launch_event hl
  have hlist : launches (ks ++ [l.label now]) = launches ks ++ [l] := launches_append ks _
  obtain ⟨x, hx, hroute⟩ := route_cases hn
  obtain ⟨-, hcells, -⟩ :=
    route_fresh h.paired.accounted (MLCLCommand.launch_numWgs hl) hx hroute
  have hspares := AlgoSimple.routeNdrange_spares hroute
  have hcompleted : t.global.history.completed = r.global.history.completed := hspares.completed
  obtain ⟨hdel, y, hy, hykernel, hyevent, hytotal, hywhole⟩ :=
    AlgoSimple.routeNdrange_carved hroute (Global.newNdrange_self _ x)
  have hdeleted : t.global.history.deleted = r.global.history.deleted := hdel
  have hobj := NDRange.new_eq_some hx
  have hcarved : l.Carved y := by
    refine ⟨by rw [hykernel, hobj], by rw [hyevent, hobj], ?_, hywhole⟩
    rw [hytotal, (NDRange.new_fields (MLCLCommand.launch_numWgs hl) hx).2]
  refine ⟨hpaired, Machine.run_append h.led (Machine.run_single hn), fun p => ?_, ?_, fun d k hd => ?_⟩
  · rw [hlist, List.filter_append, h.order p, hqueues]
    obtain rfl | hp := eq_or_ne p q
    · rw [Function.update_self, hhanded, List.filterMap_append]
      congr 1
      simp [hl, hevent]
    · rw [Function.update_of_ne hp, List.filter_cons_of_neg (by simpa [hevent] using hp.symm)]
      exact List.append_nil _
  · rw [hlist, List.length_append, h.cells]
    exact hspares.nextCell.symm
  · rw [hlist] at hd
    obtain hlt | hge := lt_or_ge d (launches ks).length
    · rw [List.getElem?_append_left hlt] at hd
      have hne : d ≠ r.global.nextCell := (hlt.trans_eq h.cells).ne
      exact settled_keep (h.settled d k hd) (hcells d hne) (by rw [hcompleted]) (by rw [hdeleted])
        (complete_of_queue hqueues hcomp)
    · rw [List.getElem?_append_right hge, List.getElem?_singleton] at hd
      split at hd
      · rename_i hzero
        obtain rfl := Option.some.inj hd
        obtain rfl : d = r.global.nextCell := by
          rw [← h.cells]
          omega
        exact ⟨y, hcarved, Or.inl hy⟩
      · cases hd

/-- A timer fires; the last range of an ND-range completes it. -/
theorem Routed.fire (h : Routed bits s₀ r ks) (hidle : r.busy = none) {now : ℚ} {i : Fin n}
    (hactive : (r.global.schedulers i).timer.isActive = true) (ht : r.fire now i = some t) :
    Routed bits s₀ t (ks ++ [.fire now i]) := by
  have hpaired := h.paired.fire hidle ht
  have hlist : launches (ks ++ [.fire now i]) = launches ks := by
    rw [launches_append]
    exact List.append_nil _
  obtain ⟨⟨g, event⟩, hfire, rfl⟩ := Option.map_eq_some_iff.mp ht
  have hnext : (simpleLoop n checkResourceString).next r.simple (.fire now i) =
      some ⟨r.algo, g⟩ := by
    change (if (r.global.schedulers i).timer.isActive then
      (r.global.onTimer now i).map fun fired => (⟨r.algo, fired.1⟩ : SimpleState n) else none) = _
    rw [if_pos hactive, hfire, Option.map_some]
  have hled := Machine.run_append h.led (Machine.run_single hnext)
  obtain ⟨w, rest, d, x, -, -, hx, -, hcell, -, -, -, hlast⟩ := Global.onTimer_spec hfire
  have hcells : (launches (ks ++ [.fire now i])).length = g.nextCell := by
    rw [hlist, h.cells, hcell]
  obtain ⟨-, rfl, hheap, hcompleted, hdeleted⟩ | ⟨-, rfl, hheap, hcompleted, hdeleted⟩ := hlast
  · -- the last range: the event of `x` is set complete
    have hhanded : ∀ q, ((Runtime.setAsComplete { r with global := g } x.event).queues q).handed =
        (r.queues q).handed :=
      same_of_queue QueueRun.handed (q := x.event.queue)
        (s := (r.queues x.event.queue).setAsComplete x.event.command) rfl rfl
    have hcomp : ∀ q e, (r.queues q).complete e = true →
        ((Runtime.setAsComplete { r with global := g } x.event).queues q).complete e = true := by
      refine complete_of_queue (q := x.event.queue) rfl fun e he => ?_
      change Function.update (r.queues x.event.queue).complete x.event.command true e = true
      rw [Function.update_apply]
      split
      · rfl
      · exact he
    refine ⟨hpaired, hled, fun q => ?_, hcells, fun k l hk => ?_⟩
    · rw [hlist, h.order q]
      exact congrArg _ (hhanded q).symm
    · rw [hlist] at hk
      have hcase := h.settled k l hk
      obtain rfl | hne := eq_or_ne k d
      · refine ⟨_, (carved_of_live hx hcase).decrement, Or.inr ⟨?_, ?_, ?_, ?_⟩⟩
        · exact (congrFun hheap k).trans (Function.update_self ..)
        · refine (congrFun hcompleted k).trans ?_
          rw [bump, Function.update_self, (h.paired.accounted.live k x hx).intact.1]
        · exact (congrFun hdeleted k).trans (Function.update_self ..)
        · change (Function.update r.queues x.event.queue _ x.event.queue).complete _ = true
          rw [Function.update_self]
          exact Function.update_self ..
      · refine settled_keep hcase ?_ ?_ ?_ hcomp
        · exact (congrFun hheap k).trans (Function.update_of_ne hne _ _)
        · exact (congrFun hcompleted k).trans (Function.update_of_ne hne _ _)
        · exact (congrFun hdeleted k).trans (Function.update_of_ne hne _ _)
  · refine ⟨hpaired, hled, fun q => by rw [hlist]; exact h.order q, hcells, fun k l hk => ?_⟩
    rw [hlist] at hk
    have hcase := h.settled k l hk
    obtain rfl | hne := eq_or_ne k d
    · exact ⟨_, (carved_of_live hx hcase).decrement,
        Or.inl ((congrFun hheap k).trans (Function.update_self ..))⟩
    · have hcell : g.ndranges k = r.global.ndranges k :=
        (congrFun hheap k).trans (Function.update_of_ne hne _ _)
      exact settled_keep hcase hcell (congrFun hcompleted k) (congrFun hdeleted k) fun _ _ he => he

theorem Routed.step (h : Routed bits s₀ r ks) {l : RuntimeLabel n} (hm : LibraryMove bits r l t) :
    ∃ more, Routed bits s₀ t (ks ++ more) := by
  have hpaired := h.paired.step hm
  cases hm with
  | enqueue q body hacc =>
    obtain ⟨-, -, -, hcomp, -, hhanded, -⟩ := (r.queues q).submit_frame body
    refine ⟨[], ?_⟩
    rw [List.append_nil]
    exact h.keep hpaired rfl (fun p => congrArg _ (same_of_queue QueueRun.handed rfl hhanded p))
      (complete_of_queue rfl fun e he => by rw [hcomp]; exact he)
  | @callback q now env s hbusy hp hs =>
    obtain ⟨-, -, -, hcomp, hhanded⟩ := QueueRun.loop_frame (QueueRun.loopMove hs) hp
    refine ⟨[], ?_⟩
    rw [List.append_nil]
    exact h.keep hpaired rfl (fun p => congrArg _ (same_of_queue QueueRun.handed rfl hhanded p))
      (complete_of_queue rfl fun e he => by rw [hcomp]; exact he)
  | @hand q now env t hp ht =>
    obtain ⟨cmd, s, hs, hring, hqueues, -⟩ := handOver_split ht
    obtain ⟨c, hc, hhanded, -, -, -, -, -, -, -, hcomp, -⟩ := QueueRun.handOver_spec hs
    obtain ⟨rfl, -⟩ := List.cons.inj (hring.symm.trans hc)
    have hkept : ∀ e, (r.queues q).complete e = true → s.complete e = true := by
      intro e he
      rw [hcomp]
      split
      · rw [Function.update_apply]
        split
        · rfl
        · exact he
      · exact he
    obtain ⟨hnone, hsimple⟩ | ⟨k, hk, hn⟩ := handOver_launch ht hring
    · refine ⟨[], ?_⟩
      rw [List.append_nil]
      refine h.keep hpaired hsimple (fun p => ?_) (complete_of_queue hqueues hkept)
      rw [hqueues]
      obtain rfl | hpq := eq_or_ne p q
      · rw [Function.update_self, hhanded, List.filterMap_append]
        simp [hnone]
      · rw [Function.update_of_ne hpq]
    · exact ⟨_, h.route hpaired hqueues hhanded hkept hk hn⟩
  | fire hidle hactive ht => exact ⟨_, h.fire hidle hactive ht⟩

theorem routed_start (h : (library n bits).start r) :
    (simpleLoop n checkResourceString).start r.simple ∧ Routed bits r.simple r [] := by
  have hpaired := paired_start h
  obtain ⟨prs, cost, ends, g, memory, user, hg, rfl⟩ := h
  refine ⟨⟨rfl, prs, cost, ends, hg⟩, hpaired, rfl, fun q => rfl, ?_, fun d l hd => by cases hd⟩
  exact (Global.new_spec hg).2.2.1.symm

theorem routed (h : (library n bits).Reachable r) :
    ∃ s₀ ks, (simpleLoop n checkResourceString).start s₀ ∧ Routed bits s₀ r ks := by
  apply h.invariant
  · intro r hr
    obtain ⟨hstart, hrouted⟩ := routed_start hr
    exact ⟨_, [], hstart, hrouted⟩
  · rintro r l t ⟨s₀, ks, hstart, hr⟩ hn
    obtain ⟨more, ht⟩ := hr.step (libraryMove hn)
    exact ⟨s₀, ks ++ more, hstart, ht⟩

theorem Routed.run (h : Routed bits s₀ r ks) {ls : List (RuntimeLabel n)}
    (hrun : (library n bits).run r ls = some t) : ∃ more, Routed bits s₀ t (ks ++ more) := by
  induction ls generalizing r ks with
  | nil =>
    obtain rfl := Option.some.inj hrun
    exact ⟨[], by rw [List.append_nil]; exact h⟩
  | cons l ls ih =>
    obtain ⟨m, hm, hrun⟩ := Option.bind_eq_some_iff.mp hrun
    obtain ⟨first, hfirst⟩ := h.step (libraryMove hm)
    obtain ⟨more, hmore⟩ := ih hfirst hrun
    exact ⟨first ++ more, by rw [← List.append_assoc]; exact hmore⟩

/-! ## Every run -/

/-- The ND-ranges of the library are those of the run `ks` of the loop around AlgoSimple. `order` says
which launches it routes, `complete` and `settled` what the event of one says about its ND-range, and
`behind` that a queue has waited for an event when it hands over more. -/
structure RunsLaunches (bits : Bitstreams) (s₀ : SimpleState n) (r : Runtime n)
    (ks : List (SimpleLabel n)) : Prop where
  led : (simpleLoop n checkResourceString).run s₀ ks = some r.simple
  order : ∀ q, (launches ks).filter (fun l => decide (l.event.queue = q)) =
    (r.queues q).handed.filterMap fun c => c.launch bits q
  complete : ∀ d l, (launches ks)[d]? = some l →
    ((r.queues l.event.queue).complete l.event.command = true ↔
      r.global.history.completed d = 1)
  settled : ∀ d l, (launches ks)[d]? = some l →
    (r.queues l.event.queue).complete l.event.command = true →
      (∃ x, r.global.history.deleted d = some x ∧ l.Carved x) ∧
        r.global.history.finished d = r.global.history.carved d ∧
        r.global.history.dropped d = 0 ∧ ∀ i, ∀ w ∈ r.global.queue i, w.parentNdrange ≠ some d
  behind : ∀ q, ∀ c ∈ (r.queues q).handed.dropLast, (r.queues q).complete c.event = true

theorem Routed.runsLaunches (h : Routed bits s₀ r ks) : RunsLaunches bits s₀ r ks := by
  have hopen : ∀ {d : ℕ} {l : Launch} {x : NDRange}, l.Carved x → r.global.ndranges d = some x →
      (r.queues l.event.queue).complete l.event.command = false ∧
        r.global.history.completed d = 0 := by
    intro d l x hcarved hx
    rw [← hcarved.event]
    exact ⟨(h.paired.running d x hx).open', (h.paired.accounted.live d x hx).intact.1⟩
  refine ⟨h.led, h.order, fun d l hd => ?_, fun d l hd hdone => ?_,
    fun q => (h.paired.attended q).served.done⟩
  · obtain ⟨x, hcarved, hx | hfin⟩ := h.settled d l hd
    · obtain ⟨hevent, hzero⟩ := hopen hcarved hx
      rw [hevent, hzero]
      exact iff_of_false Bool.false_ne_true Nat.zero_ne_one
    · rw [← hcarved.event]
      exact iff_of_true hfin.complete hfin.completed
  · obtain ⟨x, hcarved, hx | hfin⟩ := h.settled d l hd
    · rw [(hopen hcarved hx).1] at hdone
      cases hdone
    · have hgone := h.paired.accounted.gone d hfin.gone
      refine ⟨⟨x, hfin.deleted, hcarved⟩, hgone.book.symm, hgone.dropped, fun i w hw hparent => ?_⟩
      exact (Global.mem_queued hw hparent).ne' hgone.queued

/-- In every run of the library the ND-ranges run as with AlgoSimple alone, and what comes later in the
library's run comes later in that one. -/
theorem library_runs_launches (h : (library n bits).Reachable r) {ls : List (RuntimeLabel n)}
    (hrun : (library n bits).run r ls = some t) : ∃ s₀ ks more,
    (simpleLoop n checkResourceString).start s₀ ∧ RunsLaunches bits s₀ r ks ∧
      RunsLaunches bits s₀ t (ks ++ more) := by
  obtain ⟨s₀, ks, hstart, hr⟩ := routed h
  obtain ⟨more, ht⟩ := hr.run hrun
  exact ⟨s₀, ks, more, hstart, hr.runsLaunches, ht.runsLaunches⟩

/-- A launch that runs, with a write behind it, and then its timer. -/
theorem library_runs_launches_one : ∃ (bits : Bitstreams) (s₀ : SimpleState 1) (r t : Runtime 1)
    (ks more : List (SimpleLabel 1)),
    RunsLaunches bits s₀ r ks ∧ RunsLaunches bits s₀ t (ks ++ more) ∧
      (r.queues 0).handed.length = 1 ∧ (r.queues 0).complete 0 = false ∧
        (t.queues 0).complete 0 = true := by
  let bits : Bitstreams := ⟨fun _ => none, fun _ => some 2⟩
  have hrun : ((Global.new (fun _ : Fin 1 => (0, 1, 1)) (fun _ => none) fun _ => 0).bind fun g =>
      ((library 1 bits).run (Runtime.new g (fun _ => 0) fun _ => 0)
        (.enqueue 0 (.ndrange ⟨some (0, some ""), 6, 2⟩) ::
          .enqueue 0 (.writeBuffer ⟨some 0, 0, 3, 16⟩) ::
          List.replicate 5 (.loop 0 0 ⟨none, 0⟩))).bind fun r =>
        ((library 1 bits).run r [.fire 0 0]).map fun t =>
          decide ((r.queues 0).handed.length = 1 ∧ (r.queues 0).complete 0 = false ∧
            (t.queues 0).complete 0 = true)) = some true := by
    decide +kernel
  obtain ⟨g, hg, hrun⟩ := Option.bind_eq_some_iff.mp hrun
  obtain ⟨r, hr, hrun⟩ := Option.bind_eq_some_iff.mp hrun
  obtain ⟨t, ht, hview⟩ := Option.map_eq_some_iff.mp hrun
  have hreach : (library 1 bits).Reachable r :=
    Machine.Reachable.run (.start ⟨_, _, _, g, _, _, hg, rfl⟩) hr
  obtain ⟨s₀, ks, more, -, hbefore, hafter⟩ := library_runs_launches hreach ht
  exact ⟨bits, s₀, r, t, ks, more, hbefore, hafter, of_decide_eq_true hview⟩

end Runtime

end FpgaMl
