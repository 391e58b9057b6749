import Mathlib.Tactic
import FpgaMl.ClientObjects
import FpgaMl.NoStall

/-! # Where launches are

A launch is an ND-range command in the ring of a queue, and later an `NDRange` on the heap. What each
step of the library does to the two, and what stays with a launch on its way: its kernel and its
event. -/
namespace FpgaMl
open MachineInt TransitionSystem
set_option autoImplicit false

variable {n : ℕ}

/-! ## The heap of ND-ranges -/

/-- The kernel and the event of the ND-range in a cell. -/
def Global.launches (g : Global n) (d : ℕ) : Option (ℕ × EventRef) :=
  (g.ndranges d).map fun r => (r.kernel.handle, r.event)

theorem Global.launches_update {g g' : Global n} {d : ℕ} {r : Option NDRange}
    (h : g'.ndranges = Function.update g.ndranges d r) : g'.launches =
      Function.update g.launches d (r.map fun r => (r.kernel.handle, r.event)) := by
  funext e
  unfold Global.launches
  rw [h]
  obtain rfl | he := eq_or_ne e d
  · rw [Function.update_self, Function.update_self]
  · rw [Function.update_of_ne he, Function.update_of_ne he]

theorem AlgoSimple.submitPart_launches {o : AlgoSimple n} {now : ℚ} {d : ℕ} {g g' : Global n}
    {i : Fin n} (h : o.submitPart now d g i = some g') :
    g'.launches = g.launches ∧ g'.nextCell = g.nextCell := by
  unfold submitPart at h
  split at h
  · rw [Option.some.inj h]
    exact ⟨rfl, rfl⟩
  · obtain ⟨r, w, hr, -, hheap, hnext, -⟩ := Global.carveAndSubmit_spec h
    rw [Global.launches_update hheap]
    refine ⟨?_, hnext⟩
    have hsame : some (r.kernel.handle, r.event) = g.launches d := by
      unfold Global.launches
      rw [hr]
      rfl
    exact (congrArg (Function.update g.launches d) hsame).trans (Function.update_eq_self d _)

theorem AlgoSimple.foldlM_launches {o : AlgoSimple n} {now : ℚ} {d : ℕ} (l : List (Fin n))
    {g g' : Global n} (h : l.foldlM (o.submitPart now d) g = some g') :
    g'.launches = g.launches ∧ g'.nextCell = g.nextCell := by
  refine Loops.foldlM_invariant (P := fun t => t.launches = g.launches ∧ t.nextCell = g.nextCell)
    (fun i _ g₁ g₂ hi hsame => ?_) h ⟨rfl, rfl⟩
  obtain ⟨hlaunches, hnext⟩ := submitPart_launches hi
  exact ⟨hlaunches.trans hsame.1, hnext.trans hsame.2⟩

theorem AlgoSimple.routeNdrange_launches {o o' : AlgoSimple n} {g g' : Global n}
    {check : ℕ → String → String → Bool} {now : ℚ} {d : ℕ}
    (h : o.routeNdrange g check now d = some (o', g')) :
    g'.launches = g.launches ∧ g'.nextCell = g.nextCell := by
  obtain ⟨r, -, -, -, hout⟩ := routeNdrange_cases h
  exact foldlM_launches _ (handOut_cases hout).1

/-! ## The library -/

namespace Runtime

variable {r t : Runtime n} {bits : Bitstreams} {now : ℚ}

/-- A new `NDRange` is in the next cell, when the command makes one. -/
theorem handleACmd_launches {env : KernelEnv} {event : EventRef} {body : CommandBody}
    (h : r.handleACmd bits now env event body = some t) : t.busy = r.busy ∧
      t.queues = (if body.completesInline then r.setAsComplete event else r).queues ∧
      t.global.launches = body.launched.elim r.global.launches (fun k =>
        Function.update r.global.launches r.global.nextCell (some (k, event))) ∧
      t.global.nextCell = body.launched.elim r.global.nextCell fun _ => r.global.nextCell + 1 := by
  cases hin : body.completesInline with
  | true =>
    obtain ⟨hqueues, hbusy, hglobal⟩ := handleACmd_inline hin h
    have hnone : body.launched = none := by
      cases body with
      | writeBuffer args | readBuffer args => rfl
      | ndrange args => cases hin
      | empty => rfl
    rw [hnone, hglobal]
    exact ⟨hbusy, hqueues, rfl, rfl⟩
  | false =>
    unfold handleACmd at h
    cases body with
    | writeBuffer args | readBuffer args => cases hin
    | empty =>
      cases h
      exact ⟨rfl, rfl, rfl, rfl⟩
    | ndrange args =>
      dsimp only at h
      obtain ⟨kernel, globalWorkSize, localWorkSize⟩ := args
      match kernel with
      | none | some (_, none) =>
        cases h
        exact ⟨rfl, rfl, rfl, rfl⟩
      | some (handle, some xmlName) =>
        obtain ⟨x, algo, g, hx, hroute, rfl⟩ := handleNdrangeCommand_some rfl h
        obtain ⟨hlaunches, hnext⟩ := AlgoSimple.routeNdrange_launches hroute
        refine ⟨rfl, rfl, ?_, hnext⟩
        dsimp only [CommandBody.launched, Option.elim_some]
        rw [hlaunches, Global.launches_update (g := r.global) rfl, NDRange.new_eq_some hx]
        rfl

/-- The head of the ring goes to the dispatcher. -/
theorem handOver_launches {env : KernelEnv} {q : ℕ} (h : r.handOver bits now env q = some t) :
    ∃ cmd s, (r.queues q).handOver = some s ∧ (r.queues q).ring = cmd :: s.ring ∧
      t.queues = Function.update r.queues q s ∧ t.busy = r.busy ∧
      t.global.launches = cmd.body.launched.elim r.global.launches (fun k =>
        Function.update r.global.launches r.global.nextCell (some (k, ⟨q, cmd.event⟩))) ∧
      t.global.nextCell =
        cmd.body.launched.elim r.global.nextCell fun _ => r.global.nextCell + 1 := by
  obtain ⟨cmd, u, s, hs, hring, hseq, h⟩ := handOver_pops h
  obtain ⟨hbusy, hqueues, hlaunches, hnext⟩ := handleACmd_launches h
  refine ⟨cmd, s, hs, hring, ?_, hbusy, hlaunches, hnext⟩
  rw [hqueues, hseq]
  cases cmd.body.completesInline with
  | true => exact setAsComplete_setQueue r q cmd.event u
  | false => rfl

/-- A timer takes one ND-range away at most, and leaves the rings as they are. -/
theorem fire_launches {i : Fin n} (h : r.fire now i = some t) : t.busy = r.busy ∧
    (∀ q, t.queues q = r.queues q ∨ ∃ e, t.queues q = (r.queues q).setAsComplete e) ∧
    t.global.nextCell = r.global.nextCell ∧
    (r.global.finishing i = none ∧ t.global.launches = r.global.launches ∨
      ∃ d x, r.global.finishing i = some x ∧
        r.global.launches d = some (x.kernel.handle, x.event) ∧
        t.global.launches = Function.update r.global.launches d none) := by
  obtain ⟨⟨g, event⟩, hfire, rfl⟩ := Option.map_eq_some_iff.mp h
  obtain ⟨w, rest, d, x, hpop, hd, hx, -, hnext, -, -, -, hlast⟩ := Global.onTimer_spec hfire
  have hfinishing : r.global.finishing i = if x.decrementWgrsCounter.2 then some x else none := by
    simp [Global.finishing, hpop, hd, hx]
  have hlaunch : some (x.kernel.handle, x.event) = r.global.launches d := by
    unfold Global.launches
    rw [hx]
    rfl
  obtain ⟨hzero, rfl, hheap, -⟩ | ⟨hmore, rfl, hheap, -⟩ := hlast
  · rw [if_pos hzero] at hfinishing
    refine ⟨rfl, fun q => ?_, hnext, Or.inr ⟨d, x, hfinishing, hlaunch.symm,
      Global.launches_update hheap⟩⟩
    dsimp only
    unfold setAsComplete setQueue
    obtain rfl | hq := eq_or_ne q x.event.queue
    · exact Or.inr ⟨x.event.command, Function.update_self ..⟩
    · exact Or.inl (Function.update_of_ne hq _ _)
  · rw [if_neg (by rw [hmore]; exact nofun)] at hfinishing
    refine ⟨rfl, fun q => Or.inl rfl, hnext, Or.inl ⟨hfinishing, ?_⟩⟩
    dsimp only
    rw [Global.launches_update hheap]
    exact (congrArg (Function.update r.global.launches d) hlaunch).trans
      (Function.update_eq_self d _)

/-- The other steps of a callback leave the rings and the heap as they are. -/
theorem loopStep_launches {env : KernelEnv} {q : ℕ} (hpoint : (r.queues q).point ≠ .popping)
    (h : r.loopStep bits now env q = some t) : ∃ s, (r.queues q).loopStep = some s ∧
      s.ring = (r.queues q).ring ∧ s.nextCommand = (r.queues q).nextCommand ∧
      t.queues = Function.update r.queues q s ∧ t.global = r.global := by
  unfold loopStep at h
  split at h
  · rename_i hpop
    exact absurd hpop hpoint
  · obtain ⟨s, hs, rfl⟩ := Option.map_eq_some_iff.mp h
    have hmove := QueueRun.loopMove hs
    refine ⟨s, hs, (QueueRun.loop_frame hmove hpoint).2.2.1, ?_, rfl, rfl⟩
    cases hmove with
    | hand hpop _ => exact absurd hpop hpoint
    | invoke | findEmpty | pass | wait | feedItself | leave | destroy | live => rfl

end Runtime

/-! ## Launches -/

/-- A command that is pushed enters the ring. -/
def QueueRun.Takes (s : QueueRun) : Prop :=
  1 ≤ s.queue.refCounter ∧ s.queue.ringBuffer.isFull = false

theorem QueueRun.ring_submit (s : QueueRun) (body : CommandBody) : (s.submit body).ring = s.ring ∨
    (s.Takes ∧ (s.submit body).ring = s.ring ++ [⟨s.nextCommand, body⟩]) := by
  obtain ⟨-, heq⟩ | ⟨hopen, -, -, ⟨-, heq, -⟩ | ⟨hroom, heq, -⟩⟩ := s.submit_cases body
  · rw [heq]
    exact Or.inl rfl
  · exact Or.inl heq
  · exact Or.inr ⟨⟨hopen, hroom⟩, heq⟩

theorem QueueRun.ring_submit_of_takes {s : QueueRun} {body : CommandBody} (h : s.Takes) :
    (s.submit body).ring = s.ring ++ [⟨s.nextCommand, body⟩] := by
  obtain ⟨hopen, hroom⟩ := h
  obtain ⟨hreleased, -⟩ | ⟨-, -, -, ⟨hfull, -, -⟩ | ⟨-, heq, -⟩⟩ := s.submit_cases body
  · omega
  · cases hroom.symm.trans hfull
  · exact heq

/-- The place of a launch: the ring of a queue or a cell of the heap. -/
inductive LaunchRef
  | command (q event : ℕ)
  | ndrange (cell : ℕ)
  deriving DecidableEq, Repr

namespace Runtime

/-- A pending launch of the kernel `k` that will complete the event `e`. -/
def Carries (r : Runtime n) : LaunchRef → ℕ → EventRef → Prop
  | .command q event, k, e =>
    e = ⟨q, event⟩ ∧ ∃ cmd ∈ (r.queues q).ring, cmd.event = event ∧ cmd.body.kernel = some k
  | .ndrange cell, k, e => r.global.launches cell = some (k, e)

variable {r t : Runtime n} {bits : Bitstreams} {now : ℚ} {ref : LaunchRef} {k : ℕ} {e : EventRef}

theorem Carries.mono (h : t.Carries ref k e) (hring : ∀ q, (t.queues q).ring ⊆ (r.queues q).ring)
    (hlaunches : ∀ d p, t.global.launches d = some p → r.global.launches d = some p) :
    r.Carries ref k e := by
  cases ref with
  | command q event =>
    obtain ⟨he, cmd, hcmd, hrest⟩ := h
    exact ⟨he, cmd, hring q hcmd, hrest⟩
  | ndrange cell => exact hlaunches cell _ h

theorem carries_setQueue {q : ℕ} {s : QueueRun} (hring : s.ring ⊆ (r.queues q).ring)
    (h : (r.setQueue q s).Carries ref k e) : r.Carries ref k e := by
  refine h.mono (fun p => ?_) fun _ _ => id
  change (Function.update r.queues q s p).ring ⊆ _
  obtain rfl | hp := eq_or_ne p q
  · rwa [Function.update_self]
  · rw [Function.update_of_ne hp]
    exact List.Subset.refl _

/-- A submission adds at most its own launch. -/
theorem carries_submit {q : ℕ} {body : CommandBody}
    (h : (r.setQueue q ((r.queues q).submit body)).Carries ref k e) : r.Carries ref k e ∨
      ((r.queues q).Takes ∧ body.kernel = some k ∧ ref = .command q (r.queues q).nextCommand ∧
        e = ⟨q, (r.queues q).nextCommand⟩) := by
  obtain hring | ⟨htakes, hring⟩ := (r.queues q).ring_submit body
  · exact Or.inl (carries_setQueue (by rw [hring]; exact List.Subset.refl _) h)
  · cases ref with
    | ndrange cell => exact Or.inl h
    | command p event =>
      obtain ⟨rfl, cmd, hcmd, rfl, hkernel⟩ := h
      change cmd ∈ (Function.update r.queues q _ p).ring at hcmd
      obtain rfl | hp := eq_or_ne p q
      · rw [Function.update_self, hring, List.mem_append, List.mem_singleton] at hcmd
        obtain hcmd | rfl := hcmd
        · exact Or.inl ⟨rfl, cmd, hcmd, rfl, hkernel⟩
        · exact Or.inr ⟨htakes, hkernel, rfl, rfl⟩
      · rw [Function.update_of_ne hp] at hcmd
        exact Or.inl ⟨rfl, cmd, hcmd, rfl, hkernel⟩

theorem carries_submitted {q : ℕ} {body : CommandBody} (htakes : (r.queues q).Takes)
    (hkernel : body.kernel = some k) : (r.setQueue q ((r.queues q).submit body)).Carries
      (.command q (r.queues q).nextCommand) k ⟨q, (r.queues q).nextCommand⟩ := by
  refine ⟨rfl, ⟨_, body⟩, ?_, rfl, hkernel⟩
  change _ ∈ (Function.update r.queues q _ q).ring
  rw [Function.update_self, QueueRun.ring_submit_of_takes htakes]
  exact List.mem_append_right _ (List.mem_singleton_self _)

theorem kernel_of_launched {body : CommandBody} (h : body.launched = some k) :
    body.kernel = some k := by
  cases body with
  | ndrange args =>
    obtain ⟨kernel, globalWorkSize, localWorkSize⟩ := args
    match kernel with
    | some (handle, some xmlName) => exact h
    | none | some (_, none) => cases h
  | writeBuffer | readBuffer | empty => cases h

section HandOver

variable {env : KernelEnv} {q : ℕ} {cmd : MLCLCommand}

/-- The launch of the head of the ring goes to the heap, if it makes an ND-range. -/
theorem carries_handOver (h : r.handOver bits now env q = some t)
    (hhead : (r.queues q).ring.head? = some cmd) (hc : t.Carries ref k e) :
    r.Carries ref k e ∨ (cmd.body.launched = some k ∧ ref = .ndrange r.global.nextCell ∧
      r.Carries (.command q cmd.event) k e) := by
  obtain ⟨cmd', s, -, hring, hqueues, -, hlaunches, -⟩ := handOver_launches h
  obtain rfl : cmd' = cmd := by simpa [hring] using hhead
  cases ref with
  | command p event =>
    obtain ⟨rfl, other, hother, hrest⟩ := hc
    rw [hqueues] at hother
    obtain rfl | hp := eq_or_ne p q
    · rw [Function.update_self] at hother
      exact Or.inl ⟨rfl, other, hring ▸ List.mem_cons_of_mem _ hother, hrest⟩
    · rw [Function.update_of_ne hp] at hother
      exact Or.inl ⟨rfl, other, hother, hrest⟩
  | ndrange cell =>
    change t.global.launches cell = some (k, e) at hc
    rw [hlaunches] at hc
    cases hlaunched : cmd'.body.launched with
    | none =>
      rw [hlaunched] at hc
      exact Or.inl hc
    | some kernel =>
      rw [hlaunched, Option.elim_some] at hc
      obtain rfl | hcell := eq_or_ne cell r.global.nextCell
      · rw [Function.update_self] at hc
        obtain ⟨rfl, rfl⟩ := Prod.mk.inj (Option.some.inj hc)
        exact Or.inr ⟨rfl, rfl, rfl, cmd', by simp [hring], rfl, kernel_of_launched hlaunched⟩
      · rw [Function.update_of_ne hcell] at hc
        exact Or.inl hc

/-- The commands of a ring have different events, so that the one handed over is gone. -/
theorem not_carries_handOver (h : r.handOver bits now env q = some t) (hs : (r.queues q).Served)
    (hhead : (r.queues q).ring.head? = some cmd) : ¬ t.Carries (.command q cmd.event) k e := by
  rintro ⟨-, other, hother, hevent, -⟩
  obtain ⟨cmd', s, -, hring, hqueues, -⟩ := handOver_launches h
  obtain rfl : cmd' = cmd := by simpa [hring] using hhead
  rw [hqueues, Function.update_self] at hother
  have hnodup : ((r.queues q).ring.map MLCLCommand.event).Nodup := by
    have hdistinct := hs.distinct
    rw [hs.order, List.map_append] at hdistinct
    exact (List.nodup_append.mp hdistinct).2.1
  rw [hring, List.map_cons, List.nodup_cons] at hnodup
  exact hnodup.1 (hevent ▸ List.mem_map_of_mem hother)

end HandOver

theorem carries_loopStep {env : KernelEnv} {q : ℕ} (hpoint : (r.queues q).point ≠ .popping)
    (h : r.loopStep bits now env q = some t) (hc : t.Carries ref k e) : r.Carries ref k e := by
  obtain ⟨s, -, hring, -, hqueues, hglobal⟩ := loopStep_launches hpoint h
  refine carries_setQueue (s := s) (q := q) (by rw [hring]; exact List.Subset.refl _) ?_
  exact hc.mono (fun p => by rw [hqueues]; exact List.Subset.refl _) fun d p hd => by rwa [hglobal] at hd

/-- A timer takes away the launch of the ND-range that deletes itself. -/
theorem carries_fire {i : Fin n} (h : r.fire now i = some t) :
    (∀ ref k e, t.Carries ref k e → r.Carries ref k e) ∧
      ∀ x, r.global.finishing i = some x → ∃ d, r.Carries (.ndrange d) x.kernel.handle x.event ∧
        ∀ k e, ¬ t.Carries (.ndrange d) k e := by
  obtain ⟨-, hqueues, -, hlaunches⟩ := fire_launches h
  have hring : ∀ q, (t.queues q).ring ⊆ (r.queues q).ring := by
    intro q
    obtain hq | ⟨c, hq⟩ := hqueues q
    · rw [hq]
      exact List.Subset.refl _
    · rw [hq, QueueRun.ring_setAsComplete]
      exact List.Subset.refl _
  obtain ⟨hnone, heap⟩ | ⟨d, x, hx, hd, heap⟩ := hlaunches
  · refine ⟨fun ref k e hc => hc.mono hring fun d p hd => heap ▸ hd, fun x hx => ?_⟩
    cases hnone.symm.trans hx
  · refine ⟨fun ref k e hc => hc.mono hring fun d' p hd' => ?_, fun y hy => ?_⟩
    · rw [heap] at hd'
      obtain rfl | hne := eq_or_ne d' d
      · rw [Function.update_self] at hd'
        cases hd'
      · rwa [Function.update_of_ne hne] at hd'
    · obtain rfl : x = y := Option.some.inj (hx.symm.trans hy)
      refine ⟨d, hd, fun k e hc => ?_⟩
      change t.global.launches d = some (k, e) at hc
      rw [heap, Function.update_self] at hc
      cases hc

end Runtime

end FpgaMl
