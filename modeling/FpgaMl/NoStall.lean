import Mathlib.Tactic
import FpgaMl.Dispatcher
import FpgaMl.CommandQueueLaws

/-! # No stall

Every command that entered a queue is waited for by something that will happen: the callback of
the queue, its pending watcher, or a timer of a scheduler that holds work of the running ND-range.
This fails for the command of `clFinish`, which the dispatcher drops, and for ND-ranges of which
nothing is carved. -/
namespace FpgaMl
open MachineInt TransitionSystem
set_option autoImplicit false

variable {n : ℕ}

/-- The commands that complete: no EMPTY command, and ND-ranges with work-groups, whose number is not
the last `int` and does not read as the mark of an unsuitable island, on at least one island and few
enough of them for the log of the route. -/
def Launches (n : ℕ) : CommandBody → Prop
  | .writeBuffer _ => True
  | .readBuffer _ => True
  | .ndrange args => args.numWgs ≠ 0 ∧ args.numWgs ≠ 2 ^ 31 - 1 ∧ args.numWgs ≠ 2 ^ 32 - 13 ∧
    0 < n ∧ LogRoom n args.numWgs
  | .empty => False

/-! ## One queue -/

namespace QueueRun

structure Running (s : QueueRun) (event : ℕ) : Prop where
  last : s.queue.lastEvent = some event
  open' : s.complete event = false
  handed : ∃ c ∈ s.handed, c.event = event ∧ c.body.isNdrange = true

theorem Running.lastDone {s : QueueRun} {event : ℕ} (h : s.Running event) : s.lastDone = false := by
  unfold QueueRun.lastDone
  rw [h.last]
  exact h.open'

/-- A queue in a run in which nobody releases it, whose commands all complete. -/
structure Tended (n : ℕ) (bits : Bitstreams) (s : QueueRun) : Prop where
  reached : (queueLoop false).Reachable s
  held : s.queue.refCounter = 1
  popping : s.point = .popping → s.ring ≠ []
  rechecking : s.point = .rechecking → s.queue.lastEvent ≠ none
  known : ∀ e, s.complete e = true → ∃ c ∈ s.handed, c.event = e
  launches : ∀ c ∈ s.ring, bits.accepts c.body = true ∧ Launches n c.body

variable {bits : Bitstreams} {s t : QueueRun}

theorem Tended.served (h : s.Tended n bits) : Served s := QueueRun.served h.reached

theorem Tended.live (h : s.Tended n bits) : s.deleted = false := by
  cases hd : s.deleted with
  | false => rfl
  | true =>
    have hzero := h.served.dead hd
    rw [h.held] at hzero
    cases hzero

theorem Tended.next (h : s.Tended n bits) {l : QueueLabel}
    (hn : (queueLoop false).next s l = some t) : (queueLoop false).Reachable t :=
  Machine.Reachable.next h.reached hn

theorem tended_new (bits : Bitstreams) : QueueRun.new.Tended n bits := by
  have hring : QueueRun.new.ring = [] := CircArray.toList_new 100
  refine ⟨.start rfl, rfl, (nomatch ·), (nomatch ·), fun _ => (nomatch ·), fun c hc => ?_⟩
  rw [hring] at hc
  cases hc

theorem Tended.submit (h : s.Tended n bits) {body : CommandBody} (hacc : bits.accepts body = true)
    (hlaunch : Launches n body) : (s.submit body).Tended n bits := by
  obtain ⟨hlast, href, hpoint, hcomp, -, hhanded, -⟩ := submit_frame s body
  have hreached := h.next (l := .submit body) (t := s.submit body)
    (by simp [queueLoop, h.live])
  obtain ⟨hrel, -⟩ | ⟨-, -, -, hring⟩ := submit_cases s body
  · have := h.held
    omega
  refine ⟨hreached, href.trans h.held, fun hp => ?_, ?_, ?_, ?_⟩
  · have hne := h.popping (hpoint.symm.trans hp)
    obtain ⟨-, hring, -⟩ | ⟨-, hring, -⟩ := hring <;> simp [hring, hne]
  · rw [hpoint, hlast]
    exact h.rechecking
  · rw [hcomp, hhanded]
    exact h.known
  · intro c hc
    obtain ⟨-, hring, -⟩ | ⟨-, hring, -⟩ := hring
    · exact h.launches c (hring ▸ hc)
    · rw [hring] at hc
      obtain hc | hc := List.mem_append.mp hc
      · exact h.launches c hc
      · rw [List.mem_singleton.mp hc]
        exact ⟨hacc, hlaunch⟩

theorem loop_frame (h : LoopMove s t) (hp : s.point ≠ .popping) :
    t.queue.lastEvent = s.queue.lastEvent ∧ t.queue.refCounter = s.queue.refCounter ∧
      t.ring = s.ring ∧ t.complete = s.complete ∧ t.handed = s.handed := by
  cases h with
  | hand hpop _ => exact absurd hpop hp
  | invoke | findEmpty | pass | wait | feedItself | leave | destroy | live =>
    exact ⟨rfl, rfl, rfl, rfl, rfl⟩

theorem Tended.loop (h : s.Tended n bits) (hs : s.loopStep = some t) (hp : s.point ≠ .popping) :
    t.Tended n bits := by
  have hmove := loopMove hs
  obtain ⟨hlast, href, hring, hcomp, hhanded⟩ := loop_frame hmove hp
  refine ⟨h.next (l := .loop) (by simp [queueLoop, h.live, hs]), href.trans h.held, ?_, ?_, ?_, ?_⟩
  · rw [hring]
    cases hmove with
    | hand hpop _ => exact absurd hpop hp
    | pass _ hne _ => exact fun _ => hne
    | invoke | findEmpty | wait | feedItself | leave | destroy | live => exact (nomatch ·)
  · cases hmove with
    | hand hpop _ => exact absurd hpop hp
    | invoke | findEmpty | pass | wait | feedItself | leave | destroy | live => exact (nomatch ·)
  · rw [hcomp, hhanded]
    exact h.known
  · rw [hring]
    exact h.launches

theorem Tended.fresh (h : s.Tended n bits) {cmd : MLCLCommand} {rest : List MLCLCommand}
    (hring : s.ring = cmd :: rest) : s.complete cmd.event = false := by
  cases hc : s.complete cmd.event with
  | false => rfl
  | true =>
    obtain ⟨c, hc, he⟩ := h.known _ hc
    have hnodup := h.served.distinct
    rw [h.served.order, hring, List.map_append] at hnodup
    refine absurd he ((List.nodup_append.mp hnodup).2.2 _ (List.mem_map_of_mem hc) _ ?_)
    simp

theorem Tended.hand (h : s.Tended n bits) (hp : s.point = .popping) (ht : s.handOver = some t) :
    t.Tended n bits := by
  obtain ⟨cmd, hring, hhanded, htp, hlast, -, href, -, -, -, hcomp, -⟩ := handOver_spec ht
  have hn : (queueLoop false).next s .loop = some t := by
    simp [queueLoop, h.live, loopStep, hp, ht]
  refine ⟨h.next hn, href.trans h.held, fun hpop => ?_, fun _ => ?_, fun e he => ?_, fun c hc => ?_⟩
  · rw [htp] at hpop
    cases hpop
  · rw [hlast]
    exact Option.some_ne_none _
  · rw [hhanded]
    by_cases hec : e = cmd.event
    · exact ⟨cmd, by simp, hec.symm⟩
    · have hold : s.complete e = true := by
        rw [hcomp] at he
        split at he
        · rwa [Function.update_of_ne hec] at he
        · exact he
      obtain ⟨d, hd, hde⟩ := h.known e hold
      exact ⟨d, List.mem_append_left _ hd, hde⟩
  · exact h.launches c (by rw [hring]; exact List.mem_cons_of_mem _ hc)

theorem Tended.complete (h : s.Tended n bits) (hidle : s.point = .idle) {event : ℕ}
    (hrun : s.Running event) : (s.setAsComplete event).Tended n bits := by
  have hn : (queueLoop false).next s (.complete event) = some (s.setAsComplete event) :=
    if_pos ⟨Or.inr hidle, hrun.open', hrun.handed⟩
  refine ⟨h.next hn, (refCounter_setAsComplete s event).trans h.held, ?_, ?_, fun e he => ?_, ?_⟩
  · rw [ring_setAsComplete]
    exact h.popping
  · rw [lastEvent_setAsComplete]
    exact h.rechecking
  · by_cases hee : e = event
    · obtain ⟨c, hc, hce, -⟩ := hrun.handed
      exact ⟨c, hc, hce.trans hee.symm⟩
    · exact h.known e ((Function.update_of_ne hee _ _).symm.trans he)
  · rw [ring_setAsComplete]
    exact h.launches

end QueueRun

/-! ## A new ND-range -/

/-- A new ND-range is routed, has ranges in the wild afterwards, and the others stay. -/
theorem route_new (o : AlgoSimple n) {g : Global n} (hg : g.Accounted) {kernel : KernelRef}
    {event : EventRef} {res : String} {N : ℕ} {x : NDRange} (hN : N < 2 ^ 32) (hpos : N ≠ 0)
    (hlast : N ≠ 2 ^ 31 - 1) (hmark : N ≠ 2 ^ 32 - 13) (hn : 0 < n) (hroom : LogRoom n N)
    (hx : NDRange.new kernel event res N 1 1 = some x) (now : ℚ) : ∃ o' g' y,
      o.routeNdrange (g.newNdrange x) checkResourceString now g.nextCell = some (o', g') ∧
      g'.Accounted ∧ (∀ e, e ≠ g.nextCell → g'.ndranges e = g.ndranges e) ∧
      g'.ndranges g.nextCell = some y ∧ y.event = event ∧ 0 < y.wgrsInTheWild := by
  obtain ⟨hnext, htot⟩ := NDRange.new_fields hN hx
  have hobj := NDRange.new_eq_some hx
  have hacc : (g.newNdrange x).Accounted :=
    Global.accounted_newNdrange hg hnext (by rw [hobj])
  have hself := Global.newNdrange_self g x
  obtain ⟨o', hsearch, hlog⟩ := hroom.search hN hlast hn o
    (q := (g.newNdrange x).islandQuery checkResourceString now x) fun _ => rfl
  rw [← htot] at hsearch
  obtain ⟨g', y, hout, hacc', hy, hytot, hynext, hspares⟩ := AlgoSimple.handOut_total hacc now hself
    hnext (by omega) (by omega) hsearch ⟨⟨0, hn⟩, rfl⟩
  have hroute := AlgoSimple.routeNdrange_eq hself hsearch hlog hout
  obtain ⟨z, hz, hevent⟩ := hspares.event x hself
  obtain rfl : y = z := Option.some.inj (hy.symm.trans hz)
  refine ⟨o', g', y, hroute, hacc', fun e he => ?_, hy, hevent.trans (by rw [hobj]), ?_⟩
  · rw [hspares.cells e he, Global.newNdrange_of_ne g x he]
  · refine hspares.wild_pos (hg.gone _ (hg.unused _ le_rfl)).book ?_ hacc' hy
    rintro rfl
    obtain rfl : x = y := Option.some.inj (hself.symm.trans hy)
    omega

/-! ## The library -/

namespace Runtime

variable {bits : Bitstreams} {r : Runtime n}

/-- The queues are tended, the loop thread is in one callback at most, and the ND-ranges that exist
are the incomplete last commands of the queues, one of each, with ranges in the wild. -/
structure Steady (bits : Bitstreams) (r : Runtime n) : Prop where
  tended : ∀ q, (r.queues q).Tended n bits
  alone : ∀ q, (r.queues q).point ≠ .idle ↔ r.busy = some q
  accounted : r.global.Accounted
  running : ∀ d x, r.global.ndranges d = some x →
    (r.queues x.event.queue).Running x.event.command
  single : ∀ d e x y, r.global.ndranges d = some x → r.global.ndranges e = some y →
    x.event.queue = y.event.queue → d = e
  awaited : ∀ q, (r.queues q).lastDone = false → ∃ d x, r.global.ndranges d = some x ∧
    x.event.queue = q ∧ 0 < x.wgrsInTheWild

theorem steady_start (h : (library n bits).start r) : r.Steady bits := by
  obtain ⟨prs, cost, ends, g, memory, user, hg, rfl⟩ := h
  have hnone : ∀ d x, g.ndranges d ≠ some x := by
    intro d x
    rw [(Global.new_spec hg).2.1]
    exact (nomatch ·)
  refine ⟨fun _ => QueueRun.tended_new bits, fun _ => ?_, Global.accounted_new hg,
    fun d x hx => absurd hx (hnone d x), fun d _ x _ hx => absurd hx (hnone d x), fun _ => ?_⟩
  · exact ⟨fun h => absurd rfl h, (nomatch ·)⟩
  · exact (nomatch ·)

theorem Steady.tended_update (h : r.Steady bits) {q : ℕ} {s : QueueRun} (hs : s.Tended n bits) :
    ∀ p, (Function.update r.queues q s p).Tended n bits :=
  (Function.forall_update_iff r.queues fun _ s => s.Tended n bits).mpr ⟨hs, fun p _ => h.tended p⟩

theorem Steady.setQueue (h : r.Steady bits) {q : ℕ} {s : QueueRun} (hs : s.Tended n bits)
    (hlast : s.queue.lastEvent = (r.queues q).queue.lastEvent)
    (hcomp : s.complete = (r.queues q).complete) (hhanded : s.handed = (r.queues q).handed)
    {busy : Option ℕ} (halone : ∀ p, (Function.update r.queues q s p).point ≠ .idle ↔
      busy = some p) : Steady bits { r.setQueue q s with busy := busy } := by
  have hrun : ∀ e, (r.queues q).Running e → s.Running e := fun e ⟨h₁, h₂, h₃⟩ =>
    ⟨hlast.trans h₁, by rw [hcomp]; exact h₂, by rw [hhanded]; exact h₃⟩
  refine ⟨h.tended_update hs, halone, h.accounted, fun d x hx => ?_, h.single, fun p hp => ?_⟩
  · change (Function.update r.queues q s x.event.queue).Running _
    have hold := h.running d x hx
    obtain heq | hne := eq_or_ne x.event.queue q
    · rw [heq, Function.update_self]
      exact hrun _ (heq ▸ hold)
    · rwa [Function.update_of_ne hne]
  · apply h.awaited p
    change (Function.update r.queues q s p).lastDone = false at hp
    obtain rfl | hpq := eq_or_ne p q
    · rw [Function.update_self] at hp
      unfold QueueRun.lastDone at hp ⊢
      rwa [← hlast, ← hcomp]
    · rwa [Function.update_of_ne hpq] at hp

/-! ### The steps -/

theorem Steady.enqueue (h : r.Steady bits) {q : ℕ} {body : CommandBody}
    (hacc : bits.accepts body = true) (hlaunch : Launches n body) :
    (r.setQueue q ((r.queues q).submit body)).Steady bits := by
  obtain ⟨hlast, -, hpoint, hcomp, -, hhanded, -⟩ := (r.queues q).submit_frame body
  refine h.setQueue ((h.tended q).submit hacc hlaunch) hlast hcomp hhanded fun p => ?_
  obtain rfl | hpq := eq_or_ne p q
  · rw [Function.update_self, hpoint]
    exact h.alone p
  · rw [Function.update_of_ne hpq]
    exact h.alone p

theorem Steady.callback (h : r.Steady bits) {q : ℕ} (hbusy : r.busy = none ∨ r.busy = some q)
    (hpoint : (r.queues q).point ≠ .popping) {s : QueueRun} (hs : (r.queues q).loopStep = some s) :
    Steady bits { r.setQueue q s with busy := if s.point = .idle then none else some q } := by
  obtain ⟨hlast, -, -, hcomp, hhanded⟩ := QueueRun.loop_frame (QueueRun.loopMove hs) hpoint
  refine h.setQueue ((h.tended q).loop hs hpoint) hlast hcomp hhanded fun p => ?_
  obtain rfl | hpq := eq_or_ne p q
  · rw [Function.update_self]
    split <;> simp [*]
  · rw [Function.update_of_ne hpq, h.alone p]
    constructor
    · intro hp
      obtain hb | hb := hbusy <;> rw [hp] at hb
      · cases hb
      · exact absurd (Option.some.inj hb) hpq
    · intro hp
      split at hp
      · cases hp
      · exact absurd (Option.some.inj hp).symm hpq

theorem handleNdrangeCommand_some {t : Runtime n} {now : ℚ} {event : EventRef} {args : NdrArgs}
    {handle : ℕ} {xmlName : String} (hk : args.kernel = some (handle, some xmlName))
    (h : r.handleNdrangeCommand bits now event args = some t) : ∃ x algo g,
      NDRange.new ⟨handle, xmlName⟩ event (bits.getResourceString xmlName) args.numWgs 1 1 = some x ∧
      r.algo.routeNdrange (r.global.newNdrange x) checkResourceString now r.global.nextCell =
        some (algo, g) ∧ t = { r with algo := algo, global := g } := by
  unfold handleNdrangeCommand at h
  rw [hk] at h
  obtain ⟨x, hx, h⟩ := Option.bind_eq_some_iff.mp h
  obtain ⟨⟨algo, g⟩, hroute, h⟩ := Option.bind_eq_some_iff.mp h
  exact ⟨x, algo, g, hx, hroute, (Option.some.inj h).symm⟩

theorem setAsComplete_setQueue (r : Runtime n) (q e : ℕ) (s : QueueRun) :
    ((r.setQueue q s).setAsComplete ⟨q, e⟩).queues =
      Function.update r.queues q (s.setAsComplete e) := by
  change Function.update (Function.update r.queues q s) q
    ((Function.update r.queues q s q).setAsComplete e) = _
  rw [Function.update_self, Function.update_idem]

theorem handleACmd_inline {t : Runtime n} {now : ℚ} {env : KernelEnv} {event : EventRef}
    {body : CommandBody} (hin : body.completesInline = true)
    (h : r.handleACmd bits now env event body = some t) :
    t.queues = (r.setAsComplete event).queues ∧ t.busy = r.busy ∧ t.global = r.global := by
  unfold handleACmd at h
  cases body with
  | writeBuffer cmd =>
    generalize r.buffers.handleWriteCommand env cmd = p at h
    cases h
    exact ⟨rfl, rfl, rfl⟩
  | readBuffer cmd =>
    generalize r.buffers.handleReadCommand env cmd = p at h
    cases h
    exact ⟨rfl, rfl, rfl⟩
  | ndrange _ => cases hin
  | empty => cases hin

theorem kernel_of_accepts {args : NdrArgs} (h : bits.accepts (.ndrange args) = true) :
    ∃ handle xmlName, args.kernel = some (handle, some xmlName) := by
  unfold Bitstreams.accepts at h
  dsimp only at h
  split at h
  · rename_i handle xmlName hk
    exact ⟨handle, xmlName, hk⟩
  · cases h

/-- The queue pops its head `cmd` and is `u` when the dispatcher gets the command. -/
theorem handOver_pops {t : Runtime n} {now : ℚ} {env : KernelEnv} {q : ℕ}
    (h : r.handOver bits now env q = some t) : ∃ cmd u s, (r.queues q).handOver = some s ∧
      (r.queues q).ring = cmd :: s.ring ∧
      s = (if cmd.body.completesInline then u.setAsComplete cmd.event else u) ∧
      (r.setQueue q u).handleACmd bits now env ⟨q, cmd.event⟩ cmd.body = some t := by
  obtain ⟨⟨cmd, queue⟩, hpop, h⟩ := Option.bind_eq_some_iff.mp h
  obtain ⟨s, hs⟩ : ∃ s, (r.queues q).handOver = some s :=
    ⟨_, by unfold QueueRun.handOver; rw [hpop]; rfl⟩
  have hseq : s = if cmd.body.completesInline then
      ((r.queues q).take cmd queue).setAsComplete cmd.event else (r.queues q).take cmd queue := by
    unfold QueueRun.handOver at hs
    rw [hpop] at hs
    exact (Option.some.inj hs).symm
  obtain ⟨c, hring, hhanded, -⟩ := QueueRun.handOver_spec hs
  have htaken : s.handed = (r.queues q).handed ++ [cmd] := by
    rw [hseq]
    split <;> rfl
  obtain rfl : cmd = c := by simpa using htaken.symm.trans hhanded
  exact ⟨cmd, _, s, hs, hring, hseq, h⟩

/-- What the hand-over does to the queue is `QueueRun.handOver`; only ND-ranges reach the
schedulers. -/
theorem handOver_cases {t : Runtime n} {now : ℚ} {env : KernelEnv} {q : ℕ}
    (hok : ∀ c ∈ (r.queues q).ring, bits.accepts c.body = true ∧ Launches n c.body)
    (h : r.handOver bits now env q = some t) : ∃ cmd s, (r.queues q).handOver = some s ∧
      (r.queues q).ring = cmd :: s.ring ∧ t.queues = Function.update r.queues q s ∧
      t.busy = r.busy ∧
      ((cmd.body.completesInline = true ∧ t.global = r.global) ∨
        ∃ args handle xmlName x, cmd.body = .ndrange args ∧
          NDRange.new ⟨handle, xmlName⟩ ⟨q, cmd.event⟩ (bits.getResourceString xmlName)
            args.numWgs 1 1 = some x ∧
          r.algo.routeNdrange (r.global.newNdrange x) checkResourceString now r.global.nextCell =
            some (t.algo, t.global)) := by
  obtain ⟨cmd, u, s, hs, hring, hseq, h⟩ := handOver_pops h
  obtain ⟨hacc, hlaunch⟩ := hok cmd (by simp [hring])
  refine ⟨cmd, s, hs, hring, ?_⟩
  cases hin : cmd.body.completesInline with
  | true =>
    obtain ⟨hqueues, hbusy, hglobal⟩ := handleACmd_inline hin h
    rw [setAsComplete_setQueue] at hqueues
    rw [hin, if_pos rfl] at hseq
    rw [hseq]
    exact ⟨hqueues, hbusy, Or.inl ⟨rfl, hglobal⟩⟩
  | false =>
    rw [hin, if_neg Bool.false_ne_true] at hseq
    cases hbody : cmd.body with
    | writeBuffer args | readBuffer args =>
      rw [hbody] at hin
      cases hin
    | ndrange args =>
      rw [hbody] at hacc h
      obtain ⟨handle, xmlName, hk⟩ := kernel_of_accepts hacc
      obtain ⟨x, algo, g, hx, hroute, rfl⟩ := handleNdrangeCommand_some hk h
      rw [hseq]
      exact ⟨rfl, rfl, Or.inr ⟨args, handle, xmlName, x, rfl, hx, hroute⟩⟩
    | empty =>
      rw [hbody] at hlaunch
      exact absurd hlaunch id

theorem Steady.noRange (h : r.Steady bits) {q : ℕ} (hdone : (r.queues q).lastDone = true) {d : ℕ}
    {x : NDRange} (hx : r.global.ndranges d = some x) : x.event.queue ≠ q := by
  rintro rfl
  have := (h.running d x hx).lastDone
  rw [hdone] at this
  cases this

theorem Steady.hand (h : r.Steady bits) {q : ℕ} (hp : (r.queues q).point = .popping)
    {t : Runtime n} {now : ℚ} {env : KernelEnv} (ht : r.handOver bits now env q = some t) :
    t.Steady bits := by
  obtain ⟨cmd, s, hs, hring, hqueues, hbusy, hcases⟩ := handOver_cases (h.tended q).launches ht
  obtain ⟨c, hc, hhanded, hpoint, hlast, -, -, -, -, -, hcomp, hinline, -⟩ :=
    QueueRun.handOver_spec hs
  obtain ⟨rfl, -⟩ := List.cons.inj (hring.symm.trans hc)
  have hnone := fun {d x} => h.noRange (d := d) (x := x) ((h.tended q).served.gate hp)
  have hself : t.queues q = s := by rw [hqueues, Function.update_self]
  have hother : ∀ p, p ≠ q → t.queues p = r.queues p := fun p hpq => by
    rw [hqueues, Function.update_of_ne hpq]
  have htended : ∀ p, (t.queues p).Tended n bits := by
    rw [hqueues]
    exact h.tended_update ((h.tended q).hand hp hs)
  have halone : ∀ p, (t.queues p).point ≠ .idle ↔ t.busy = some p := by
    intro p
    rw [hbusy]
    obtain rfl | hpq := eq_or_ne p q
    · rw [hself, hpoint]
      exact iff_of_true (by simp) ((h.alone p).mp (by simp [hp]))
    · rw [hother p hpq]
      exact h.alone p
  obtain ⟨hin, hglobal⟩ | ⟨args, handle, xmlName, x, hbody, hx, hroute⟩ := hcases
  · refine ⟨htended, halone, hglobal ▸ h.accounted, fun d y hy => ?_, hglobal ▸ h.single,
      fun p hdone => ?_⟩
    · rw [hglobal] at hy
      rw [hother _ (hnone hy)]
      exact h.running d y hy
    · obtain rfl | hpq := eq_or_ne p q
      · rw [hself, hinline hin] at hdone
        cases hdone
      · rw [hglobal]
        exact h.awaited p (hother p hpq ▸ hdone)
  · obtain ⟨-, hlaunch⟩ := (h.tended q).launches cmd (by simp [hring])
    rw [hbody] at hlaunch
    obtain ⟨hpos, hint, hmark, hn, hroom⟩ := hlaunch
    obtain ⟨o', g', y, hroute', hacc, hcells, hy, hevent, hwild⟩ :=
      route_new r.algo h.accounted (u32_lt _) hpos hint hmark hn hroom hx now
    obtain ⟨-, rfl⟩ := Prod.mk.inj (Option.some.inj (hroute.symm.trans hroute'))
    have hrunning : (t.queues q).Running cmd.event := by
      rw [hself]
      refine ⟨hlast, ?_, cmd, by simp [hhanded], rfl, by rw [hbody]; rfl⟩
      rw [hcomp, hbody]
      exact (h.tended q).fresh hring
    -- a cell other than the new one belongs to another queue
    have hold : ∀ e z, t.global.ndranges e = some z → e ≠ r.global.nextCell →
        r.global.ndranges e = some z ∧ z.event.queue ≠ q := fun e z hz he =>
      have hz' := (hcells e he).symm.trans hz
      ⟨hz', hnone hz'⟩
    have hnew : ∀ z, t.global.ndranges r.global.nextCell = some z → z.event.queue = q := by
      intro z hz
      obtain rfl := Option.some.inj (hy.symm.trans hz)
      rw [hevent]
    refine ⟨htended, halone, hacc, fun e z hz => ?_, fun d e y' z hy' hz hyz => ?_,
      fun p hdone => ?_⟩
    · by_cases he : e = r.global.nextCell
      · subst he
        obtain rfl := Option.some.inj (hy.symm.trans hz)
        rw [hevent]
        exact hrunning
      · obtain ⟨hz', hne⟩ := hold e z hz he
        rw [hother _ hne]
        exact h.running e z hz'
    · by_cases hd : d = r.global.nextCell
      · by_cases he : e = r.global.nextCell
        · rw [hd, he]
        · exact absurd (hyz.symm.trans (hnew y' (hd ▸ hy'))) (hold e z hz he).2
      · by_cases he : e = r.global.nextCell
        · exact absurd (hyz.trans (hnew z (he ▸ hz))) (hold d y' hy' hd).2
        · exact h.single d e y' z (hold d y' hy' hd).1 (hold e z hz he).1 hyz
    · obtain rfl | hpq := eq_or_ne p q
      · exact ⟨_, y, hy, by rw [hevent], hwild⟩
      · obtain ⟨d, z, hz, hzp, hzw⟩ := h.awaited p (hother p hpq ▸ hdone)
        refine ⟨d, z, ?_, hzp, hzw⟩
        rw [hcells d, hz]
        rintro rfl
        rw [h.accounted.unused _ le_rfl] at hz
        cases hz

theorem Steady.fire_more (h : r.Steady bits) {g : Global n} (hacc : g.Accounted) {d : ℕ}
    {x : NDRange} (hx : r.global.ndranges d = some x) (hmore : x.decrementWgrsCounter.2 = false)
    (hheap : g.ndranges = Function.update r.global.ndranges d (some x.decrementWgrsCounter.1)) :
    Steady bits { r with global := g } := by
  have hwild : 0 < x.decrementWgrsCounter.1.wgrsInTheWild := by
    unfold NDRange.decrementWgrsCounter at hmore ⊢
    simpa [Nat.pos_iff_ne_zero] using hmore
  -- every cell of the new heap held an ND-range with the same event before
  have hevent : ∀ e y, g.ndranges e = some y →
      ∃ z, r.global.ndranges e = some z ∧ y.event = z.event := by
    intro e y hy
    rw [hheap] at hy
    obtain rfl | he := eq_or_ne e d
    · rw [Function.update_self] at hy
      cases hy
      exact ⟨x, hx, rfl⟩
    · rw [Function.update_of_ne he] at hy
      exact ⟨y, hy, rfl⟩
  refine ⟨h.tended, h.alone, hacc, fun e y hy => ?_, fun e k y z hy hz heq => ?_, fun p hp => ?_⟩
  · obtain ⟨z, hz, hyz⟩ := hevent e y hy
    rw [hyz]
    exact h.running e z hz
  · obtain ⟨y', hy', hyy⟩ := hevent e y hy
    obtain ⟨z', hz', hzz⟩ := hevent k z hz
    exact h.single e k y' z' hy' hz' (by rw [← hyy, ← hzz, heq])
  · obtain ⟨e, y, hy, hyp, hpos⟩ := h.awaited p hp
    obtain rfl | he := eq_or_ne e d
    · obtain rfl : x = y := Option.some.inj (hx.symm.trans hy)
      exact ⟨e, x.decrementWgrsCounter.1, by rw [hheap, Function.update_self], hyp, hwild⟩
    · exact ⟨e, y, by rw [hheap, Function.update_of_ne he, hy], hyp, hpos⟩

theorem Steady.fire_last (h : r.Steady bits) (hidle : r.busy = none) {g : Global n}
    (hacc : g.Accounted) {d : ℕ} {x : NDRange} (hx : r.global.ndranges d = some x)
    (hheap : g.ndranges = Function.update r.global.ndranges d none) :
    Steady bits (Runtime.setAsComplete { r with global := g } x.event) := by
  have hpoint : ∀ p, (r.queues p).point = .idle := by
    intro p
    by_contra hne
    rw [(h.alone p).mp hne] at hidle
    cases hidle
  have hrun := h.running d x hx
  have hcells : ∀ e y, g.ndranges e = some y →
      r.global.ndranges e = some y ∧ y.event.queue ≠ x.event.queue := by
    intro e y hy
    rw [hheap] at hy
    obtain rfl | he := eq_or_ne e d
    · rw [Function.update_self] at hy
      cases hy
    · rw [Function.update_of_ne he] at hy
      exact ⟨hy, fun hq => he (h.single e d y x hy hx hq)⟩
  set s := (r.queues x.event.queue).setAsComplete x.event.command with hs
  have hself : Function.update r.queues x.event.queue s x.event.queue = s := Function.update_self ..
  have hother : ∀ p, p ≠ x.event.queue →
      Function.update r.queues x.event.queue s p = r.queues p := fun p hp =>
    Function.update_of_ne hp ..
  refine ⟨h.tended_update ((h.tended _).complete (hpoint _) hrun), fun p => ?_, hacc,
    fun e y hy => ?_, fun e k y z hy hz => ?_, fun p hp => ?_⟩
  · change (Function.update r.queues x.event.queue s p).point ≠ .idle ↔ r.busy = some p
    rw [← h.alone p]
    by_cases hp : p = x.event.queue
    · rw [hp, hself]
      rfl
    · rw [hother p hp]
  · obtain ⟨hy', hne⟩ := hcells e y hy
    change (Function.update r.queues x.event.queue s y.event.queue).Running _
    rw [hother _ hne]
    exact h.running e y hy'
  · exact h.single e k y z (hcells e y hy).1 (hcells k z hz).1
  · change (Function.update r.queues x.event.queue s p).lastDone = false at hp
    by_cases hpq : p = x.event.queue
    · have hdone : s.lastDone = true := by
        unfold QueueRun.lastDone
        rw [hs, QueueRun.lastEvent_setAsComplete, hrun.last]
        exact Function.update_self ..
      rw [hpq, hself, hdone] at hp
      cases hp
    · rw [hother p hpq] at hp
      obtain ⟨e, y, hy, hyp, hpos⟩ := h.awaited p hp
      refine ⟨e, y, ?_, hyp, hpos⟩
      change g.ndranges e = some y
      rw [hheap, Function.update_of_ne, hy]
      rintro rfl
      obtain rfl : x = y := Option.some.inj (hx.symm.trans hy)
      exact hpq hyp.symm

theorem Steady.fire (h : r.Steady bits) (hidle : r.busy = none) {t : Runtime n} {now : ℚ}
    {i : Fin n} (ht : r.fire now i = some t) : t.Steady bits := by
  obtain ⟨⟨g, event⟩, hfire, rfl⟩ := Option.map_eq_some_iff.mp ht
  have hacc := Global.accounted_onTimer h.accounted hfire
  obtain ⟨w, rest, d, x, -, -, hx, -, -, -, -, -, hlast⟩ := Global.onTimer_spec hfire
  obtain ⟨-, rfl, hheap, -⟩ | ⟨hmore, rfl, hheap, -⟩ := hlast
  · exact h.fire_last hidle hacc hx hheap
  · exact h.fire_more hacc hx hmore hheap

/-- The condition on a step: the command that is enqueued launches. -/
def AllLaunch (_ : Runtime n) : RuntimeLabel n → Prop
  | .enqueue _ body => Launches n body
  | .loop _ _ _ => True
  | .fire _ _ => True

theorem Steady.step (h : r.Steady bits) {l : RuntimeLabel n} (hl : r.AllLaunch l) {t : Runtime n}
    (hn : (library n bits).next r l = some t) : t.Steady bits := by
  cases l with
  | enqueue q body =>
    obtain ⟨hacc, heq⟩ := Option.ite_none_right_eq_some.mp hn
    exact Option.some.inj heq ▸ h.enqueue hacc hl
  | loop q now env =>
    obtain ⟨hbusy, hstep⟩ := Option.ite_none_right_eq_some.mp hn
    by_cases hp : (r.queues q).point = .popping
    · unfold loopStep at hstep
      rw [hp] at hstep
      exact h.hand hp hstep
    · have hstep' : (r.queues q).loopStep.map (fun s =>
          { r.setQueue q s with busy := if s.point = .idle then none else some q }) = some t := by
        unfold loopStep at hstep
        split at hstep
        · rename_i hpop
          exact absurd hpop hp
        · exact hstep
      obtain ⟨s, hs, rfl⟩ := Option.map_eq_some_iff.mp hstep'
      exact h.callback hbusy hp hs
  | fire i now =>
    obtain ⟨⟨hidle, -⟩, hfire⟩ := Option.ite_none_right_eq_some.mp hn
    exact h.fire hidle hfire

theorem steady (h : (library n bits).ReachableWhere AllLaunch r) : r.Steady bits :=
  h.invariant (fun _ => steady_start) fun _ _ _ hs hl hn => hs.step hl hn

/-! ## The law -/

def Waits (r : Runtime n) (q : ℕ) : Prop :=
  ∃ c ∈ (r.queues q).entered, (r.queues q).complete c.event = false

/-- A range of the ND-range that queue `q` runs waits in a scheduler whose timer is active. -/
def HasTimer (r : Runtime n) (q : ℕ) : Prop :=
  ∃ i, ∃ w ∈ r.global.queue i, ∃ d x, w.parentNdrange = some d ∧ r.global.ndranges d = some x ∧
    x.event.queue = q ∧ (r.queues q).queue.lastEvent = some x.event.command ∧
    (r.global.schedulers i).timer.isActive = true

/-- Nothing stalls as long as no scheduler queue has overflown: while a queue waits for a command,
its watcher is pending or a timer will serve it; and the callback that the loop thread is in can
always go on. -/
structure NoStall (bits : Bitstreams) (r : Runtime n) : Prop where
  between : (∀ d, r.global.history.dropped d = 0) → ∀ q, r.busy ≠ some q → r.Waits q →
    (r.queues q).queue.pending = true ∨ r.HasTimer q
  within : ∀ q, r.busy = some q → ∀ now env, ∃ t, (library n bits).next r (.loop q now env) = some t

theorem Steady.between (h : r.Steady bits) (hdrop : ∀ d, r.global.history.dropped d = 0) {q : ℕ}
    (hbusy : r.busy ≠ some q) (hwait : r.Waits q) :
    (r.queues q).queue.pending = true ∨ r.HasTimer q := by
  have hq := h.tended q
  have hpoint : (r.queues q).point = .idle := by
    by_contra hne
    exact hbusy ((h.alone q).mp hne)
  cases hdone : (r.queues q).lastDone with
  | true =>
    left
    refine hq.served.wake hq.live (Or.inl hpoint) ?_ hdone
    obtain ⟨c, hc, hopen⟩ := hwait
    rw [hq.served.order] at hc
    obtain hc | hc := List.mem_append.mp hc
    · rw [hq.served.all_done hdone c hc] at hopen
      cases hopen
    · exact List.ne_nil_of_mem hc
  | false =>
    right
    obtain ⟨d, x, hx, rfl, hpos⟩ := h.awaited q hdone
    have hwild := (h.accounted.live d x hx).wild
    rw [hdrop d, Nat.add_zero] at hwild
    obtain ⟨i, w, hw, hd⟩ := Global.queued_pos (hwild ▸ hpos)
    refine ⟨i, w, hw, d, x, hd, hx, rfl, (h.running d x hx).last, ?_⟩
    exact (h.accounted.ticking i).active.mpr (List.ne_nil_of_mem hw)

/-- The hand-over never fails: the ring holds a command, and a routed ND-range is carved out. -/
theorem Steady.handOver_some (h : r.Steady bits) {q : ℕ} (hp : (r.queues q).point = .popping)
    (now : ℚ) (env : KernelEnv) : ∃ t, r.handOver bits now env q = some t := by
  have hq := h.tended q
  obtain ⟨cmd, ring, hring⟩ := List.exists_cons_of_ne_nil (hq.popping hp)
  obtain ⟨hacc, hlaunch⟩ := hq.launches cmd (by simp [hring])
  obtain ⟨rest, hrest, -⟩ := CircArray.popFront_cons hring
  have hpop : (r.queues q).queue.popFront =
      some (cmd, { (r.queues q).queue with ringBuffer := rest }) := by
    unfold CommandQueue.popFront
    rw [hrest]
    rfl
  unfold handOver
  rw [hpop, Option.bind_eq_bind, Option.bind_some]
  dsimp only
  unfold handleACmd
  cases hbody : cmd.body with
  | writeBuffer args => exact ⟨_, rfl⟩
  | readBuffer args => exact ⟨_, rfl⟩
  | empty =>
    rw [hbody] at hlaunch
    exact absurd hlaunch id
  | ndrange args =>
    rw [hbody] at hacc hlaunch
    obtain ⟨handle, xmlName, hk⟩ := kernel_of_accepts hacc
    obtain ⟨hpos, hlast, hmark, hn, hroom⟩ := hlaunch
    obtain ⟨x, hx⟩ := NDRange.new_line ⟨handle, xmlName⟩ ⟨q, cmd.event⟩
      (bits.getResourceString xmlName) args.numWgs
    obtain ⟨o', g', -, hroute, -⟩ :=
      route_new r.algo h.accounted (u32_lt _) hpos hlast hmark hn hroom hx now
    dsimp only
    unfold handleNdrangeCommand
    rw [hk]
    dsimp only
    rw [hx, Option.bind_eq_bind, Option.bind_some]
    change ∃ t, (r.algo.routeNdrange (r.global.newNdrange x) checkResourceString now
      r.global.nextCell).bind _ = some t
    rw [hroute]
    exact ⟨_, rfl⟩

theorem Steady.within (h : r.Steady bits) {q : ℕ} (hbusy : r.busy = some q) (now : ℚ)
    (env : KernelEnv) : ∃ t, (library n bits).next r (.loop q now env) = some t := by
  have hpoint := (h.alone q).mpr hbusy
  have hnext : (library n bits).next r (.loop q now env) = r.loopStep bits now env q :=
    if_pos (Or.inr hbusy)
  rw [hnext]
  unfold loopStep QueueRun.loopStep
  cases hp : (r.queues q).point with
  | idle => exact absurd hp hpoint
  | popping => exact h.handOver_some hp now env
  | entered =>
    dsimp only
    split
    · exact ⟨_, rfl⟩
    · split <;> exact ⟨_, rfl⟩
  | rechecking =>
    obtain ⟨e, he⟩ := Option.ne_none_iff_exists'.mp ((h.tended q).rechecking hp)
    dsimp only
    rw [he]
    exact ⟨_, rfl⟩
  | checking =>
    dsimp only
    split <;> exact ⟨_, rfl⟩

/-- No stall, in the runs in which every command that is enqueued launches. -/
theorem no_stall (h : (library n bits).ReachableWhere AllLaunch r) : NoStall bits r :=
  ⟨fun hdrop _ hbusy hwait => (steady h).between hdrop hbusy hwait,
    fun _ hbusy now env => (steady h).within hbusy now env⟩

/-- An ND-range of three work-groups is handed over, and its queue waits for the timer. -/
theorem no_stall_range : ∃ (bits : Bitstreams) (r : Runtime 1), r.busy = none ∧ r.Waits 0 ∧
    (r.queues 0).queue.pending = false ∧ NoStall bits r := by
  let bits : Bitstreams := ⟨fun _ => none, fun _ => some 2⟩
  have hrun : (Global.new (fun _ : Fin 1 => (0, 1, 1)) (fun _ => none) fun _ => 0).bind (fun g =>
      ((library 1 bits).run (Runtime.new g (fun _ => 0) fun _ => 0)
        (.enqueue 0 (.ndrange ⟨some (0, some ""), 6, 2⟩) ::
          List.replicate 5 (.loop 0 0 ⟨none, 0⟩))).map fun r =>
        (r.busy, (r.queues 0).queue.pending, (r.queues 0).entered.any fun c =>
          !(r.queues 0).complete c.event)) = some (none, false, true) := by
    decide +kernel
  obtain ⟨g, hg, hrun⟩ := Option.bind_eq_some_iff.mp hrun
  obtain ⟨r, hr, hfields⟩ := Option.map_eq_some_iff.mp hrun
  have hreach : (library 1 bits).ReachableWhere AllLaunch r :=
    Machine.ReachableWhere.run (.start ⟨_, _, _, g, _, _, hg, rfl⟩) (fun _ l hl => by
      obtain rfl | hl := List.mem_cons.mp hl
      · exact ⟨by decide +kernel, by decide +kernel, by decide +kernel, one_pos,
          logRoom_of_le (by norm_num) _⟩
      · rw [List.eq_of_mem_replicate hl]
        trivial) hr
  simp only [Prod.mk.injEq] at hfields
  obtain ⟨hbusy, hpending, hany⟩ := hfields
  obtain ⟨c, hc, hopen⟩ := List.any_eq_true.mp hany
  exact ⟨bits, r, hbusy, ⟨c, hc, by simpa using hopen⟩, hpending, no_stall hreach⟩

theorem run_finish (bits : Bitstreams) (g : Global n) (memory user : ℕ → UInt8) :
    ∃ r, (library n bits).run (Runtime.new g memory user)
        (.enqueue 0 .empty :: List.replicate 5 (.loop 0 0 ⟨none, 0⟩)) = some r ∧
      r.global = g ∧ r.busy = none ∧ (r.queues 0).queue.pending = false ∧
      (r.queues 0).entered = [⟨0, .empty⟩] ∧ (r.queues 0).complete 0 = false :=
  ⟨_, rfl, rfl, rfl, rfl, rfl, rfl⟩

/-- The client of `clFinish` waits for ever. -/
theorem finish_stalls : ∃ (bits : Bitstreams) (r : Runtime 1), (library 1 bits).Reachable r ∧
    ¬ NoStall bits r := by
  let bits : Bitstreams := ⟨fun _ => none, fun _ => none⟩
  obtain ⟨g, hg⟩ := Option.isSome_iff_exists.mp
    (show (Global.new (fun _ : Fin 1 => (0, 1, 1)) (fun _ => none) fun _ => 0).isSome by decide +kernel)
  obtain ⟨r, hrun, hglobal, hbusy, hpending, hentered, hopen⟩ :=
    run_finish bits g (fun _ => 0) fun _ => 0
  have hwait : r.Waits 0 := ⟨⟨0, .empty⟩, by simp [hentered], hopen⟩
  refine ⟨bits, r, Machine.Reachable.run (.start ⟨_, _, _, g, _, _, hg, rfl⟩) hrun, fun h => ?_⟩
  obtain ⟨-, hheap, -, hhist⟩ := Global.new_spec hg
  obtain hp | ⟨i, w, -, d, x, -, hx, -⟩ := h.between (by rw [hglobal, hhist]; exact fun _ => rfl) 0
    (by rw [hbusy]; exact (nomatch ·)) hwait
  · rw [hpending] at hp
    cases hp
  · rw [hglobal, hheap] at hx
    cases hx

end Runtime

end FpgaMl
