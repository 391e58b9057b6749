import Mathlib.Tactic
import FpgaMl.Foundation.InOrderExecutor
import FpgaMl.NoStall

/-! # The queues of the library

What every run of the library keeps, whatever is enqueued: each queue is in a state that its own
loop can reach, and the ND-ranges that exist belong to the commands that run. From it, the library
is a family of in-order executors, one per queue. -/
namespace FpgaMl
open MachineInt TransitionSystem
set_option autoImplicit false

variable {n : ℕ}

/-! ## One queue -/

namespace QueueRun

/-- A queue in a run in which nobody releases it, and only commands that were handed over are
complete. -/
structure Attended (s : QueueRun) : Prop where
  reached : (queueLoop false).Reachable s
  held : s.queue.refCounter = 1
  known : ∀ e, s.complete e = true → ∃ c ∈ s.handed, c.event = e

variable {s t : QueueRun}

theorem Attended.served (h : s.Attended) : Served s := QueueRun.served h.reached

theorem Attended.live (h : s.Attended) : s.deleted = false := by
  cases hd : s.deleted with
  | false => rfl
  | true =>
    have hzero := h.served.dead hd
    rw [h.held] at hzero
    cases hzero

theorem Attended.next (h : s.Attended) {l : QueueLabel} (hn : (queueLoop false).next s l = some t) :
    (queueLoop false).Reachable t := Machine.Reachable.next h.reached hn

theorem attended_new : QueueRun.new.Attended := ⟨.start rfl, rfl, fun _ => (nomatch ·)⟩

theorem Attended.submit (h : s.Attended) (body : CommandBody) : (s.submit body).Attended := by
  obtain ⟨-, href, -, hcomp, -, hhanded, -⟩ := submit_frame s body
  refine ⟨h.next (l := .submit body) (by simp [queueLoop, h.live]), href.trans h.held, ?_⟩
  rw [hcomp, hhanded]
  exact h.known

theorem Attended.loop (h : s.Attended) (hs : s.loopStep = some t) (hp : s.point ≠ .popping) :
    t.Attended := by
  obtain ⟨-, href, -, hcomp, hhanded⟩ := loop_frame (loopMove hs) hp
  refine ⟨h.next (l := .loop) (by simp [queueLoop, h.live, hs]), href.trans h.held, ?_⟩
  rw [hcomp, hhanded]
  exact h.known

/-- A command that waits in the ring is not complete. -/
theorem Attended.fresh (h : s.Attended) {cmd : MLCLCommand} (hmem : cmd ∈ s.ring) :
    s.complete cmd.event = false := by
  cases hc : s.complete cmd.event with
  | false => rfl
  | true =>
    obtain ⟨c, hc, he⟩ := h.known _ hc
    have hnodup := h.served.distinct
    rw [h.served.order, List.map_append] at hnodup
    exact absurd he ((List.nodup_append.mp hnodup).2.2 _ (List.mem_map_of_mem hc) _
      (List.mem_map_of_mem hmem))

theorem Attended.hand (h : s.Attended) (hp : s.point = .popping) (ht : s.handOver = some t) :
    t.Attended := by
  obtain ⟨cmd, -, hhanded, -, -, -, href, -, -, -, hcomp, -⟩ := handOver_spec ht
  have hn : (queueLoop false).next s .loop = some t := by
    simp [queueLoop, h.live, loopStep, hp, ht]
  refine ⟨h.next hn, href.trans h.held, fun e he => ?_⟩
  rw [hhanded]
  by_cases hec : e = cmd.event
  · exact ⟨cmd, by simp, hec.symm⟩
  · have hold : s.complete e = true := by
      rw [hcomp] at he
      split at he
      · rwa [Function.update_of_ne hec] at he
      · exact he
    obtain ⟨d, hd, hde⟩ := h.known e hold
    exact ⟨d, List.mem_append_left _ hd, hde⟩

theorem Attended.complete (h : s.Attended) (hidle : s.point = .idle) {event : ℕ}
    (hrun : s.Running event) : (s.setAsComplete event).Attended := by
  have hn : (queueLoop false).next s (.complete event) = some (s.setAsComplete event) :=
    if_pos ⟨Or.inr hidle, hrun.open', hrun.handed⟩
  refine ⟨h.next hn, (refCounter_setAsComplete s event).trans h.held, fun e he => ?_⟩
  by_cases hee : e = event
  · obtain ⟨c, hc, hce, -⟩ := hrun.handed
    exact ⟨c, hc, hce.trans hee.symm⟩
  · exact h.known e ((Function.update_of_ne hee _ _).symm.trans he)

end QueueRun

/-! ## A new ND-range -/

/-- Whatever a new ND-range is, its route leaves the others alone. -/
theorem route_fresh {o o' : AlgoSimple n} {g g' : Global n} (hg : g.Accounted) {kernel : KernelRef}
    {event : EventRef} {res : String} {N : ℕ} {x : NDRange} (hN : N < 2 ^ 32)
    (hx : NDRange.new kernel event res N 1 1 = some x) {now : ℚ}
    (h : o.routeNdrange (g.newNdrange x) checkResourceString now g.nextCell = some (o', g')) :
    g'.Accounted ∧ (∀ e, e ≠ g.nextCell → g'.ndranges e = g.ndranges e) ∧
      ∃ y, g'.ndranges g.nextCell = some y ∧ y.event = event := by
  obtain ⟨hnext, htot⟩ := NDRange.new_fields hN hx
  have hobj := NDRange.new_eq_some hx
  have hacc : (g.newNdrange x).Accounted := Global.accounted_newNdrange hg hnext (by rw [hobj])
  have hself := Global.newNdrange_self g x
  have hspares := AlgoSimple.routeNdrange_spares h
  obtain ⟨y, hy, hevent⟩ := hspares.event x hself
  refine ⟨?_, fun e he => ?_, y, hy, hevent.trans (by rw [hobj])⟩
  · exact AlgoSimple.routeNdrange_accounted hacc hself hnext (htot ▸ hN) h
  · rw [hspares.cells e he, Global.newNdrange_of_ne g x he]

/-! ## The library -/

namespace Runtime

variable {bits : Bitstreams} {r t : Runtime n}

/-- The queues are attended, the loop thread is in one callback at most, and every ND-range that
exists is that of the incomplete last command of a queue, one for each. -/
structure Paired (r : Runtime n) : Prop where
  attended : ∀ q, (r.queues q).Attended
  alone : ∀ q, (r.queues q).point ≠ .idle ↔ r.busy = some q
  accounted : r.global.Accounted
  running : ∀ d x, r.global.ndranges d = some x →
    (r.queues x.event.queue).Running x.event.command
  single : ∀ d e x y, r.global.ndranges d = some x → r.global.ndranges e = some y →
    x.event.queue = y.event.queue → d = e

theorem paired_start (h : (library n bits).start r) : r.Paired := by
  obtain ⟨prs, cost, ends, g, memory, user, hg, rfl⟩ := h
  have hnone : ∀ d x, g.ndranges d ≠ some x := by
    intro d x
    rw [(Global.new_spec hg).2.1]
    exact (nomatch ·)
  refine ⟨fun _ => QueueRun.attended_new, fun _ => ?_, Global.accounted_new hg,
    fun d x hx => absurd hx (hnone d x), fun d _ x _ hx => absurd hx (hnone d x)⟩
  exact ⟨fun h => absurd rfl h, (nomatch ·)⟩

theorem attended_update (h : r.Paired) {q : ℕ} {s : QueueRun} (hs : s.Attended) :
    ∀ p, (Function.update r.queues q s p).Attended :=
  (Function.forall_update_iff r.queues fun _ s => s.Attended).mpr ⟨hs, fun p _ => h.attended p⟩

/-- What a step of one queue leaves of each of them. -/
theorem same_of_queue {β : Type*} (f : QueueRun → β) {q : ℕ} {s : QueueRun}
    (hqueues : t.queues = Function.update r.queues q s) (hs : f s = f (r.queues q)) (p : ℕ) :
    f (t.queues p) = f (r.queues p) := by
  rw [hqueues]
  obtain rfl | hp := eq_or_ne p q
  · rw [Function.update_self, hs]
  · rw [Function.update_of_ne hp]

theorem complete_of_queue {q : ℕ} {s : QueueRun} (hqueues : t.queues = Function.update r.queues q s)
    (hcomp : ∀ e, (r.queues q).complete e = true → s.complete e = true) (p e : ℕ)
    (he : (r.queues p).complete e = true) : (t.queues p).complete e = true := by
  rw [hqueues]
  obtain rfl | hp := eq_or_ne p q
  · rw [Function.update_self]
    exact hcomp e he
  · rw [Function.update_of_ne hp]
    exact he

/-- The loop thread's place after a step of the callback of queue `q`. -/
theorem alone_update (h : r.Paired) {q : ℕ} (hbusy : r.busy = none ∨ r.busy = some q) (s : QueueRun)
    (p : ℕ) : (Function.update r.queues q s p).point ≠ .idle ↔
      (if s.point = .idle then none else some q) = some p := by
  obtain rfl | hpq := eq_or_ne p q
  · rw [Function.update_self]
    split <;> simp [*]
  · rw [Function.update_of_ne hpq, h.alone p]
    refine iff_of_false (fun hp => ?_) fun hp => ?_
    · rw [hp] at hbusy
      obtain hb | hb := hbusy
      · cases hb
      · exact hpq (Option.some.inj hb)
    · obtain ⟨-, hp⟩ := Option.ite_none_left_eq_some.mp hp
      exact hpq (Option.some.inj hp).symm

/-- A step of a queue that keeps its last command and what is complete. -/
theorem Paired.setQueue (h : r.Paired) {q : ℕ} {s : QueueRun} (hs : s.Attended)
    (hlast : s.queue.lastEvent = (r.queues q).queue.lastEvent)
    (hcomp : s.complete = (r.queues q).complete) (hhanded : s.handed = (r.queues q).handed)
    {busy : Option ℕ} (halone : ∀ p, (Function.update r.queues q s p).point ≠ .idle ↔
      busy = some p) : Paired { r.setQueue q s with busy := busy } := by
  have hrun : ∀ e, (r.queues q).Running e → s.Running e := fun e ⟨h₁, h₂, h₃⟩ =>
    ⟨hlast.trans h₁, by rw [hcomp]; exact h₂, by rw [hhanded]; exact h₃⟩
  refine ⟨attended_update h hs, halone, h.accounted, fun d x hx => ?_, h.single⟩
  change (Function.update r.queues q s x.event.queue).Running _
  have hold := h.running d x hx
  obtain heq | hne := eq_or_ne x.event.queue q
  · rw [heq, Function.update_self]
    exact hrun _ (heq ▸ hold)
  · rwa [Function.update_of_ne hne]

theorem Paired.enqueue (h : r.Paired) (q : ℕ) (body : CommandBody) :
    (r.setQueue q ((r.queues q).submit body)).Paired := by
  obtain ⟨hlast, -, hpoint, hcomp, -, hhanded, -⟩ := (r.queues q).submit_frame body
  refine h.setQueue ((h.attended q).submit body) hlast hcomp hhanded fun p => ?_
  obtain rfl | hpq := eq_or_ne p q
  · rw [Function.update_self, hpoint]
    exact h.alone p
  · rw [Function.update_of_ne hpq]
    exact h.alone p

theorem Paired.callback (h : r.Paired) {q : ℕ} (hbusy : r.busy = none ∨ r.busy = some q)
    (hpoint : (r.queues q).point ≠ .popping) {s : QueueRun} (hs : (r.queues q).loopStep = some s) :
    Paired { r.setQueue q s with busy := if s.point = .idle then none else some q } := by
  obtain ⟨hlast, -, -, hcomp, hhanded⟩ := QueueRun.loop_frame (QueueRun.loopMove hs) hpoint
  exact h.setQueue ((h.attended q).loop hs hpoint) hlast hcomp hhanded (alone_update h hbusy s)

/-- The hand-over of a command: the queue's own part is `QueueRun.handOver`, and only an ND-range
that is new reaches the schedulers. -/
theorem handOver_split {now : ℚ} {env : KernelEnv} {q : ℕ} (h : r.handOver bits now env q = some t) :
    ∃ cmd s, (r.queues q).handOver = some s ∧ (r.queues q).ring = cmd :: s.ring ∧
      t.queues = Function.update r.queues q s ∧ t.busy = r.busy ∧
      (t.global = r.global ∨ ∃ args handle xmlName x, cmd.body = .ndrange args ∧
        NDRange.new ⟨handle, xmlName⟩ ⟨q, cmd.event⟩ (bits.getResourceString xmlName)
          args.numWgs 1 1 = some x ∧
        r.algo.routeNdrange (r.global.newNdrange x) checkResourceString now r.global.nextCell =
          some (t.algo, t.global)) := by
  obtain ⟨cmd, u, s, hs, hring, hseq, h⟩ := handOver_pops h
  refine ⟨cmd, s, hs, hring, ?_⟩
  cases hin : cmd.body.completesInline with
  | true =>
    obtain ⟨hqueues, hbusy, hglobal⟩ := handleACmd_inline hin h
    rw [setAsComplete_setQueue] at hqueues
    rw [hin, if_pos rfl] at hseq
    rw [hseq]
    exact ⟨hqueues, hbusy, Or.inl hglobal⟩
  | false =>
    rw [hin, if_neg Bool.false_ne_true] at hseq
    subst hseq
    cases hbody : cmd.body with
    | writeBuffer args | readBuffer args =>
      rw [hbody] at hin
      cases hin
    | empty =>
      rw [hbody] at h
      obtain rfl := Option.some.inj h
      exact ⟨rfl, rfl, Or.inl rfl⟩
    | ndrange args =>
      rw [hbody] at h
      change (r.setQueue q s).handleNdrangeCommand bits now ⟨q, cmd.event⟩ args = some t at h
      unfold handleNdrangeCommand at h
      split at h
      · obtain rfl := Option.some.inj h
        exact ⟨rfl, rfl, Or.inl rfl⟩
      · obtain rfl := Option.some.inj h
        exact ⟨rfl, rfl, Or.inl rfl⟩
      · rename_i handle xmlName _
        obtain ⟨x, hx, h⟩ := Option.bind_eq_some_iff.mp h
        obtain ⟨⟨algo, g⟩, hroute, h⟩ := Option.bind_eq_some_iff.mp h
        obtain rfl := Option.some.inj h
        exact ⟨rfl, rfl, Or.inr ⟨args, handle, xmlName, x, rfl, hx, hroute⟩⟩

theorem Paired.noRange (h : r.Paired) {q : ℕ} (hdone : (r.queues q).lastDone = true) {d : ℕ}
    {x : NDRange} (hx : r.global.ndranges d = some x) : x.event.queue ≠ q := by
  rintro rfl
  have := (h.running d x hx).lastDone
  rw [hdone] at this
  cases this

theorem Paired.hand (h : r.Paired) {q : ℕ} (hp : (r.queues q).point = .popping) {now : ℚ}
    {env : KernelEnv} (ht : r.handOver bits now env q = some t) : t.Paired := by
  obtain ⟨cmd, s, hs, hring, hqueues, hbusy, hglobal⟩ := handOver_split ht
  obtain ⟨c, hc, hhanded, hpoint, hlast, -, -, -, -, -, hcomp, -⟩ := QueueRun.handOver_spec hs
  obtain ⟨rfl, -⟩ := List.cons.inj (hring.symm.trans hc)
  have hnone := fun {d x} => h.noRange (d := d) (x := x) ((h.attended q).served.gate hp)
  have hself : t.queues q = s := by rw [hqueues, Function.update_self]
  have hother : ∀ p, p ≠ q → t.queues p = r.queues p := fun p hpq => by
    rw [hqueues, Function.update_of_ne hpq]
  have hattended : ∀ p, (t.queues p).Attended := by
    rw [hqueues]
    exact attended_update h ((h.attended q).hand hp hs)
  have halone : ∀ p, (t.queues p).point ≠ .idle ↔ t.busy = some p := by
    intro p
    rw [hbusy]
    obtain rfl | hpq := eq_or_ne p q
    · rw [hself, hpoint]
      exact iff_of_true (by simp) ((h.alone p).mp (by simp [hp]))
    · rw [hother p hpq]
      exact h.alone p
  obtain hglobal | ⟨args, handle, xmlName, x, hbody, hx, hroute⟩ := hglobal
  · refine ⟨hattended, halone, hglobal ▸ h.accounted, fun d y hy => ?_, hglobal ▸ h.single⟩
    rw [hglobal] at hy
    rw [hother _ (hnone hy)]
    exact h.running d y hy
  · obtain ⟨hacc, hcells, y, hy, hevent⟩ := route_fresh h.accounted (u32_lt _) hx hroute
    have hrunning : (t.queues q).Running cmd.event := by
      rw [hself]
      refine ⟨hlast, ?_, cmd, by simp [hhanded], rfl, by rw [hbody]; rfl⟩
      rw [hcomp, hbody]
      exact (h.attended q).fresh (by rw [hring]; exact List.mem_cons_self)
    -- a cell other than the new one belongs to another queue
    have hold : ∀ e z, t.global.ndranges e = some z → e ≠ r.global.nextCell →
        r.global.ndranges e = some z ∧ z.event.queue ≠ q := fun e z hz he =>
      have hz' := (hcells e he).symm.trans hz
      ⟨hz', hnone hz'⟩
    have hnew : ∀ z, t.global.ndranges r.global.nextCell = some z → z.event.queue = q := by
      intro z hz
      obtain rfl := Option.some.inj (hy.symm.trans hz)
      rw [hevent]
    refine ⟨hattended, halone, hacc, fun e z hz => ?_, fun d e y' z hy' hz hyz => ?_⟩
    · by_cases he : e = r.global.nextCell
      · subst he
        obtain rfl := Option.some.inj (hy.symm.trans hz)
        rw [hevent]
        exact hrunning
      · obtain ⟨hz', hne⟩ := hold e z hz he
        rw [hother _ hne]
        exact h.running e z hz'
    · by_cases hd : d = r.global.nextCell
      · by_cases he : e = r.global.nextCell
        · rw [hd, he]
        · exact absurd (hyz.symm.trans (hnew y' (hd ▸ hy'))) (hold e z hz he).2
      · by_cases he : e = r.global.nextCell
        · exact absurd (hyz.trans (hnew z (he ▸ hz))) (hold d y' hy' hd).2
        · exact h.single d e y' z (hold d y' hy' hd).1 (hold e z hz he).1 hyz

/-- A firing takes a range off the schedulers; the last one of an ND-range completes its command. -/
theorem fire_split {now : ℚ} {i : Fin n} (h : r.fire now i = some t) :
    ∃ g event d x, r.global.onTimer now i = some (g, event) ∧ r.global.ndranges d = some x ∧
      ((t = { r with global := g } ∧ event = none ∧
          g.ndranges = Function.update r.global.ndranges d (some x.decrementWgrsCounter.1)) ∨
        t = Runtime.setAsComplete { r with global := g } x.event ∧ event = some x.event ∧
          g.ndranges = Function.update r.global.ndranges d none) := by
  obtain ⟨⟨g, event⟩, hfire, rfl⟩ := Option.map_eq_some_iff.mp h
  obtain ⟨w, rest, d, x, -, -, hx, -, -, -, -, -, hlast⟩ := Global.onTimer_spec hfire
  refine ⟨g, event, d, x, hfire, hx, ?_⟩
  obtain ⟨-, rfl, hheap, -⟩ | ⟨-, rfl, hheap, -⟩ := hlast
  · exact Or.inr ⟨rfl, rfl, hheap⟩
  · exact Or.inl ⟨rfl, rfl, hheap⟩

theorem Paired.idle (h : r.Paired) (hidle : r.busy = none) (q : ℕ) : (r.queues q).point = .idle := by
  by_contra hne
  rw [(h.alone q).mp hne] at hidle
  cases hidle

theorem Paired.fire (h : r.Paired) (hidle : r.busy = none) {now : ℚ} {i : Fin n}
    (ht : r.fire now i = some t) : t.Paired := by
  obtain ⟨g, event, d, x, hfire, hx, ⟨rfl, -, hheap⟩ | ⟨rfl, -, hheap⟩⟩ := fire_split ht
  · have hacc := Global.accounted_onTimer h.accounted hfire
    have hevent : ∀ e y, g.ndranges e = some y →
        ∃ z, r.global.ndranges e = some z ∧ y.event = z.event := by
      intro e y hy
      rw [hheap] at hy
      obtain rfl | he := eq_or_ne e d
      · rw [Function.update_self] at hy
        cases hy
        exact ⟨x, hx, rfl⟩
      · rw [Function.update_of_ne he] at hy
        exact ⟨y, hy, rfl⟩
    refine ⟨h.attended, h.alone, hacc, fun e y hy => ?_, fun e k y z hy hz heq => ?_⟩
    · obtain ⟨z, hz, hyz⟩ := hevent e y hy
      rw [hyz]
      exact h.running e z hz
    · obtain ⟨y', hy', hyy⟩ := hevent e y hy
      obtain ⟨z', hz', hzz⟩ := hevent k z hz
      exact h.single e k y' z' hy' hz' (by rw [← hyy, ← hzz, heq])
  · have hacc := Global.accounted_onTimer h.accounted hfire
    have hcells : ∀ e y, g.ndranges e = some y →
        r.global.ndranges e = some y ∧ y.event.queue ≠ x.event.queue := by
      intro e y hy
      rw [hheap] at hy
      obtain rfl | he := eq_or_ne e d
      · rw [Function.update_self] at hy
        cases hy
      · rw [Function.update_of_ne he] at hy
        exact ⟨hy, fun hq => he (h.single e d y x hy hx hq)⟩
    refine ⟨attended_update h ((h.attended _).complete (h.idle hidle _) (h.running d x hx)),
      fun p => ?_, hacc, fun e y hy => ?_, fun e k y z hy hz => ?_⟩
    · change (Function.update r.queues x.event.queue _ p).point ≠ .idle ↔ r.busy = some p
      rw [← h.alone p]
      obtain rfl | hp := eq_or_ne p x.event.queue
      · rw [Function.update_self]
        rfl
      · rw [Function.update_of_ne hp]
    · obtain ⟨hy', hne⟩ := hcells e y hy
      change (Function.update r.queues x.event.queue _ y.event.queue).Running _
      rw [Function.update_of_ne hne]
      exact h.running e y hy'
    · exact h.single e k y z (hcells e y hy).1 (hcells k z hz).1

/-- The steps of the library, the hand-over apart from the rest of a callback. -/
inductive LibraryMove (bits : Bitstreams) (r : Runtime n) : RuntimeLabel n → Runtime n → Prop
  | enqueue (q : ℕ) (body : CommandBody) : bits.accepts body = true →
      LibraryMove bits r (.enqueue q body) (r.setQueue q ((r.queues q).submit body))
  | callback {q : ℕ} {now : ℚ} {env : KernelEnv} {s : QueueRun} :
      (r.busy = none ∨ r.busy = some q) → (r.queues q).point ≠ .popping →
      (r.queues q).loopStep = some s → LibraryMove bits r (.loop q now env)
        { r.setQueue q s with busy := if s.point = .idle then none else some q }
  | hand {q : ℕ} {now : ℚ} {env : KernelEnv} {t : Runtime n} : (r.queues q).point = .popping →
      r.handOver bits now env q = some t → LibraryMove bits r (.loop q now env) t
  | fire {i : Fin n} {now : ℚ} {t : Runtime n} : r.busy = none →
      (r.global.schedulers i).timer.isActive = true → r.fire now i = some t →
      LibraryMove bits r (.fire i now) t

theorem libraryMove {l : RuntimeLabel n} (h : (library n bits).next r l = some t) :
    LibraryMove bits r l t := by
  cases l with
  | enqueue q body =>
    obtain ⟨hacc, h⟩ := Option.ite_none_right_eq_some.mp h
    exact Option.some.inj h ▸ .enqueue q body hacc
  | loop q now env =>
    obtain ⟨hbusy, h⟩ := Option.ite_none_right_eq_some.mp h
    by_cases hp : (r.queues q).point = .popping
    · unfold loopStep at h
      rw [hp] at h
      exact .hand hp h
    · have hmap : (r.queues q).loopStep.map (fun s =>
          { r.setQueue q s with busy := if s.point = .idle then none else some q }) = some t := by
        unfold loopStep at h
        split at h
        · rename_i hpop
          exact absurd hpop hp
        · exact h
      obtain ⟨s, hs, rfl⟩ := Option.map_eq_some_iff.mp hmap
      exact .callback hbusy hp hs
  | fire i now =>
    obtain ⟨⟨hidle, hactive⟩, h⟩ := Option.ite_none_right_eq_some.mp h
    exact .fire hidle hactive h

theorem Paired.step (h : r.Paired) {l : RuntimeLabel n} (hm : LibraryMove bits r l t) :
    t.Paired := by
  cases hm with
  | enqueue q body hacc => exact h.enqueue q body
  | callback hbusy hp hs => exact h.callback hbusy hp hs
  | hand hp ht => exact h.hand hp ht
  | fire hidle hactive ht => exact h.fire hidle ht

theorem paired {P : Runtime n → RuntimeLabel n → Prop} (h : (library n bits).ReachableWhere P r) :
    r.Paired :=
  h.invariant (fun _ => paired_start) fun _ _ _ hs _ hn => hs.step (libraryMove hn)

end Runtime

end FpgaMl
