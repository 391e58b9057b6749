import Mathlib.Tactic
import FpgaMl.LibraryQueues

/-! # The library as in-order executors

Over any number of queues, with the callbacks, the scheduler timers and the completions that feed
the queues from elsewhere, each queue does what an in-order executor does: its ring is what waits,
the last command handed over runs until its event is complete, and all before it are finished. -/
namespace FpgaMl
open MachineInt TransitionSystem
set_option autoImplicit false

variable {n : ℕ}

namespace QueueRun

/-- The executor `x` is what queue `s` is for. -/
structure Mirrors (s : QueueRun) (x : Executor MLCLCommand) : Prop where
  waiting : x.waiting = s.ring
  started : x.started = s.handed
  running : x.running = none ↔ s.lastDone = true

variable {s t : QueueRun} {x : Executor MLCLCommand}

theorem mirrors_new : QueueRun.new.Mirrors .new := by
  have hring : QueueRun.new.ring = [] := CircArray.toList_new 100
  exact ⟨hring.symm, rfl, iff_of_true rfl rfl⟩

theorem Mirrors.same (h : s.Mirrors x) (hring : t.ring = s.ring) (hhanded : t.handed = s.handed)
    (hdone : t.lastDone = s.lastDone) : t.Mirrors x :=
  ⟨h.waiting.trans hring.symm, h.started.trans hhanded.symm, by rw [hdone]; exact h.running⟩

/-- A command that enters the ring is submitted; one that the full ring refuses is not. -/
theorem Mirrors.submit (h : s.Mirrors x) (hs : s.Attended) (body : CommandBody) :
    ∃ more y, (Executor.machine MLCLCommand).run x more = some y ∧ (s.submit body).Mirrors y ∧
      (s.submit body).entered = s.entered ++ Executor.submitted more := by
  obtain ⟨hlast, -, -, hcomp, -, hhanded, -⟩ := submit_frame s body
  have hdone : (s.submit body).lastDone = s.lastDone := by
    unfold lastDone
    rw [hlast, hcomp]
  obtain ⟨hrel, -⟩ | ⟨-, -, -, ⟨-, hring, hent⟩ | ⟨-, hring, hent⟩⟩ := submit_cases s body
  · have := hs.held
    omega
  · exact ⟨[], x, rfl, h.same hring hhanded hdone, hent.trans (List.append_nil _).symm⟩
  · refine ⟨[.submit ⟨s.nextCommand, body⟩], _, rfl, ⟨?_, ?_, ?_⟩, hent⟩
    · rw [hring, ← h.waiting]
    · rw [hhanded, ← h.started]
      rfl
    · rw [hdone, ← h.running]

theorem Mirrors.start (h : s.Mirrors x) (hgate : s.lastDone = true) {cmd : MLCLCommand}
    (hring : s.ring = cmd :: t.ring) (hhanded : t.handed = s.handed ++ [cmd])
    (hopen : t.lastDone = false) : ∃ y, (Executor.machine MLCLCommand).run x [.start] = some y ∧
      t.Mirrors y := by
  have hstart := Executor.start_eq (h.running.mpr hgate) (h.waiting.trans hring)
  have hidle := h.running.mpr hgate
  refine ⟨_, Machine.run_single hstart, rfl, ?_, ?_⟩
  · rw [hhanded, ← h.started]
    simp [Executor.started, hidle]
  · rw [hopen]
    simp

/-- A hand-over starts the command, and finishes it if the dispatcher completes it at once. -/
theorem Mirrors.hand (h : s.Mirrors x) (hs : s.Attended) (hp : s.point = .popping)
    (ht : s.handOver = some t) :
    ∃ more y, (Executor.machine MLCLCommand).run x more = some y ∧ t.Mirrors y ∧
      t.entered = s.entered ++ Executor.submitted more := by
  obtain ⟨cmd, hring, hhanded, -, hlast, -, -, -, hent, -, hcomp, hinline, -⟩ := handOver_spec ht
  have hidle := h.running.mpr (hs.served.gate hp)
  have hstart := Executor.start_eq hidle (h.waiting.trans hring)
  have hstarted : (x.finished ++ [cmd]) = t.handed := by
    rw [hhanded, ← h.started]
    simp [Executor.started, hidle]
  cases hin : cmd.body.completesInline with
  | true =>
    have hfinish := Executor.finish_eq (x := ⟨t.ring, some cmd, x.finished⟩) rfl
    refine ⟨[.start, .finish], _, Machine.run_append (Machine.run_single hstart)
      (Machine.run_single hfinish), ⟨rfl, ?_, iff_of_true rfl (hinline hin)⟩,
      hent.trans (List.append_nil _).symm⟩
    simpa [Executor.started] using hstarted
  | false =>
    have hopen : t.lastDone = false := by
      unfold lastDone
      rw [hlast, hcomp, hin]
      exact hs.fresh (by rw [hring]; exact List.mem_cons_self)
    refine ⟨[.start], _, Machine.run_single hstart, ⟨rfl, hstarted, ?_⟩,
      hent.trans (List.append_nil _).symm⟩
    rw [hopen]
    simp

theorem Mirrors.complete (h : s.Mirrors x) {event : ℕ} (hrun : s.Running event) :
    ∃ y, (Executor.machine MLCLCommand).run x [.finish] = some y ∧
      (s.setAsComplete event).Mirrors y := by
  have hbusy : x.running ≠ none := by
    rw [ne_eq, h.running, hrun.lastDone]
    exact Bool.false_ne_true
  obtain ⟨cmd, hcmd⟩ := Option.ne_none_iff_exists'.mp hbusy
  refine ⟨_, Machine.run_single (Executor.finish_eq hcmd), ?_, ?_, ?_⟩
  · rw [ring_setAsComplete]
    exact h.waiting
  · have hstarted := h.started
    unfold Executor.started at hstarted ⊢
    rw [hcmd] at hstarted
    exact (List.append_nil _).trans hstarted
  · refine iff_of_true rfl ?_
    unfold lastDone
    rw [lastEvent_setAsComplete, hrun.last]
    exact Function.update_self ..

/-- What the executor calls finished is complete, and what it runs is not. -/
theorem Mirrors.events (h : s.Mirrors x) (hs : s.Attended) :
    (∀ c ∈ x.finished, s.complete c.event = true) ∧
      ∀ c, x.running = some c → s.complete c.event = false := by
  have hstarted := h.started
  unfold Executor.started at hstarted
  cases hrun : x.running with
  | none =>
    rw [hrun, Option.toList_none, List.append_nil] at hstarted
    refine ⟨fun c hc => ?_, fun c => (nomatch ·)⟩
    exact hs.served.all_done (h.running.mp hrun) c (hstarted ▸ hc)
  | some cmd =>
    rw [hrun, Option.toList_some] at hstarted
    have hdone := hs.served.done
    have hlast := hs.served.last
    rw [← hstarted, List.dropLast_concat] at hdone
    rw [← hstarted, List.getLast?_concat, Option.map_some] at hlast
    refine ⟨hdone, fun c hc => ?_⟩
    obtain rfl := Option.some.inj hc
    have hopen : s.lastDone ≠ true := by
      rw [ne_eq, ← h.running, hrun]
      exact Option.some_ne_none _
    rw [lastDone, hlast] at hopen
    exact Bool.eq_false_of_not_eq_true hopen

end QueueRun

namespace Runtime

variable {bits : Bitstreams} {r t : Runtime n}

/-- The executors `x`, one per queue, have been led to by `ops`, and are what the queues are for:
the commands that entered were submitted, in the order in which they entered; what waits is in the
ring; what was started is what was handed over; and the event of a command is complete if it is
finished, and not complete while it runs. -/
structure Executes (r : Runtime n) (ops : List (ℕ × ExecutorOp MLCLCommand))
    (x : ℕ → Executor MLCLCommand) : Prop where
  led : ((Executor.machine MLCLCommand).family ℕ).run (fun _ => .new) ops = some x
  submitted : ∀ q, Executor.submitted (labelsOf q ops) = (r.queues q).entered
  waiting : ∀ q, (x q).waiting = (r.queues q).ring
  started : ∀ q, (x q).finished ++ (x q).running.toList = (r.queues q).handed
  finished : ∀ q, ∀ c ∈ (x q).finished, (r.queues q).complete c.event = true
  running : ∀ q c, (x q).running = some c → (r.queues q).complete c.event = false

/-- The relation that the steps keep. -/
structure Mirrored (r : Runtime n) (ops : List (ℕ × ExecutorOp MLCLCommand))
    (x : ℕ → Executor MLCLCommand) : Prop where
  paired : r.Paired
  mirrors : ∀ q, (r.queues q).Mirrors (x q)
  submitted : ∀ q, Executor.submitted (labelsOf q ops) = (r.queues q).entered

variable {ops : List (ℕ × ExecutorOp MLCLCommand)} {x : ℕ → Executor MLCLCommand}

/-- Only queue `q` moves, and its executor with it. -/
theorem Mirrored.move (h : r.Mirrored ops x) (hpaired : t.Paired) {q : ℕ} {s : QueueRun}
    (hqueues : t.queues = Function.update r.queues q s) {more : List (ExecutorOp MLCLCommand)}
    {y : Executor MLCLCommand} (hrun : (Executor.machine MLCLCommand).run (x q) more = some y)
    (hs : s.Mirrors y) (hent : s.entered = (r.queues q).entered ++ Executor.submitted more) :
    ∃ more b, ((Executor.machine MLCLCommand).family ℕ).run x more = some b ∧
      t.Mirrored (ops ++ more) b := by
  refine ⟨_, _, Machine.family_run_single q hrun, hpaired, fun p => ?_, fun p => ?_⟩
  · rw [hqueues]
    obtain rfl | hp := eq_or_ne p q
    · rw [Function.update_self, Function.update_self]
      exact hs
    · rw [Function.update_of_ne hp, Function.update_of_ne hp]
      exact h.mirrors p
  · rw [hqueues, labelsOf_append, Executor.submitted_append, h.submitted p]
    obtain rfl | hp := eq_or_ne p q
    · rw [Function.update_self, labelsOf_map_self, hent]
    · rw [Function.update_of_ne hp, labelsOf_map_of_ne hp.symm]
      exact List.append_nil _

theorem Mirrored.step (h : r.Mirrored ops x) {l : RuntimeLabel n}
    (hm : LibraryMove bits r l t) :
    ∃ more b, ((Executor.machine MLCLCommand).family ℕ).run x more = some b ∧
      t.Mirrored (ops ++ more) b := by
  have hpaired := h.paired.step hm
  cases hm with
  | enqueue q body hacc =>
    obtain ⟨more, y, hrun, hs, hent⟩ := (h.mirrors q).submit (h.paired.attended q) body
    exact h.move hpaired rfl hrun hs hent
  | @callback q now env s hbusy hp hs =>
    have hmove := QueueRun.loopMove hs
    obtain ⟨hlast, -, hring, hcomp, hhanded⟩ := QueueRun.loop_frame hmove hp
    have hdone : s.lastDone = (r.queues q).lastDone := by
      unfold QueueRun.lastDone
      rw [hlast, hcomp]
    have hent : s.entered = (r.queues q).entered := by
      cases hmove with
      | hand hpop _ => exact absurd hpop hp
      | invoke | findEmpty | pass | wait | feedItself | leave | destroy | live => rfl
    have hrun : (Executor.machine MLCLCommand).run (x q) [] = some (x q) := rfl
    exact h.move hpaired rfl hrun ((h.mirrors q).same hring hhanded hdone)
      (hent.trans (List.append_nil _).symm)
  | @hand q now env t hp ht =>
    obtain ⟨cmd, s, hs, -, hqueues, -⟩ := handOver_split ht
    obtain ⟨more, y, hrun, hs, hent⟩ := (h.mirrors q).hand (h.paired.attended q) hp hs
    exact h.move hpaired hqueues hrun hs hent
  | @fire i now t hidle hactive ht =>
    obtain ⟨g, event, d, z, -, hz, ⟨rfl, -⟩ | ⟨rfl, -⟩⟩ := fire_split ht
    · exact ⟨[], x, rfl, hpaired, h.mirrors, by rw [List.append_nil]; exact h.submitted⟩
    · obtain ⟨y, hrun, hs⟩ := (h.mirrors z.event.queue).complete (h.paired.running d z hz)
      exact h.move hpaired rfl hrun hs (List.append_nil _).symm

/-- Every run of the library is one of in-order executors, one per queue. -/
theorem library_executes (h : (library n bits).Reachable r) : ∃ ops x, Executes r ops x := by
  obtain ⟨x₀, ops, x, hx₀, hrun, hmirrored⟩ := Machine.ReachableWhere.history
    (N := (Executor.machine MLCLCommand).family ℕ) (R := Mirrored) h
    (fun r hr => ⟨fun _ => .new, fun _ => rfl, paired_start hr, fun q => by
      obtain ⟨prs, cost, ends, g, memory, user, -, rfl⟩ := hr
      exact QueueRun.mirrors_new, fun q => by
      obtain ⟨prs, cost, ends, g, memory, user, -, rfl⟩ := hr
      rfl⟩)
    (fun r l t ops x hR _ hn => hR.step (libraryMove hn))
  obtain rfl : x₀ = fun _ => .new := funext hx₀
  have hevents := fun q => (hmirrored.mirrors q).events (hmirrored.paired.attended q)
  exact ⟨ops, x, hrun, hmirrored.submitted, fun q => (hmirrored.mirrors q).waiting,
    fun q => (hmirrored.mirrors q).started, fun q => (hevents q).1, fun q => (hevents q).2⟩

/-- An ND-range runs, and the write behind it waits. -/
theorem library_executes_two : ∃ (r : Runtime 1) (ops : List (ℕ × ExecutorOp MLCLCommand))
    (x : ℕ → Executor MLCLCommand), (r.queues 0).ring.length = 1 ∧
      (r.queues 0).handed.length = 1 ∧ Executes r ops x := by
  let bits : Bitstreams := ⟨fun _ => none, fun _ => some 2⟩
  have hrun : (Global.new (fun _ : Fin 1 => (0, 1, 1)) (fun _ => none) fun _ => 0).bind (fun g =>
      ((library 1 bits).run (Runtime.new g (fun _ => 0) fun _ => 0)
        (.enqueue 0 (.ndrange ⟨some (0, some ""), 6, 2⟩) ::
          .enqueue 0 (.writeBuffer ⟨some 0, 0, 3, 16⟩) ::
          List.replicate 5 (.loop 0 0 ⟨none, 0⟩))).map fun r =>
        ((r.queues 0).ring.length, (r.queues 0).handed.length)) = some (1, 1) := by
    decide +kernel
  obtain ⟨g, hg, hrun⟩ := Option.bind_eq_some_iff.mp hrun
  obtain ⟨r, hr, hlengths⟩ := Machine.exists_reachable hrun ⟨_, _, _, g, _, _, hg, rfl⟩
  obtain ⟨hring, hhanded⟩ := Prod.mk.inj hlengths
  obtain ⟨ops, x, hx⟩ := library_executes hr
  exact ⟨r, ops, x, hring, hhanded, hx⟩

end Runtime

end FpgaMl
