import Mathlib.Tactic
import FpgaMl.CommandQueueInvariant

/-! # The laws of a command queue

Order and wake-up hold in every run. No accepted command is lost as long as the ring has room for
each, since the return code of the ring is not looked at. The self-destruction is safe as long as
no release overtakes the callback and no released queue hands over an ND-range, since
`check_self_destroy` looks at the counter only. -/
namespace FpgaMl
open TransitionSystem
set_option autoImplicit false

namespace QueueRun

/-! ## Order -/

/-- The commands handed over are the first ones that entered, each once and in this order, and one
is handed over only when all before it are complete. -/
structure InOrder (anywhere : Bool) (s : QueueRun) : Prop where
  order : s.handed <+: s.entered
  distinct : (s.entered.map MLCLCommand.event).Nodup
  oneAtATime : ∀ l t, (queueLoop anywhere).next s l = some t → t.handed ≠ s.handed →
    ∃ c, t.handed = s.handed ++ [c] ∧ ∀ d ∈ s.handed, s.complete d.event = true

theorem Served.distinct {s : QueueRun} (h : Served s) :
    (s.entered.map MLCLCommand.event).Nodup := by
  refine ((h.numbered.imp ?_).sublist (h.sub.map _) : List.Pairwise (· ≠ ·) _)
  intro a b hab
  exact hab.ne

theorem handed_cases {s t : QueueRun} {l : QueueLabel} (h : QueueMove s l t) :
    t.handed = s.handed ∨ (s.point = .popping ∧ ∃ c, t.handed = s.handed ++ [c]) := by
  cases h with
  | submit body _ => exact Or.inl (submit_frame s body).2.2.2.2.2.1
  | release _ => exact Or.inl rfl
  | complete event _ _ => exact Or.inl rfl
  | loop _ hm =>
    cases hm with
    | hand hp ht =>
      obtain ⟨c, -, hc, -⟩ := handOver_spec ht
      exact Or.inr ⟨hp, c, hc⟩
    | invoke | findEmpty | pass | wait | feedItself | leave | destroy | live => exact Or.inl rfl

/-- In-order execution, one command at a time, in every run. -/
theorem in_order {anywhere : Bool} {s : QueueRun} (h : (queueLoop anywhere).Reachable s) :
    InOrder anywhere s := by
  have hs := served h
  refine ⟨⟨s.ring, hs.order.symm⟩, hs.distinct, ?_⟩
  intro l t hn hne
  obtain heq | ⟨hp, c, hc⟩ := handed_cases (queueMove hn)
  · exact absurd heq hne
  · exact ⟨c, hc, hs.all_done (hs.gate hp)⟩

theorem in_order_two : ∃ s : QueueRun, s.handed.length = 2 ∧ InOrder true s := by
  have hrun : ((queueLoop true).run QueueRun.new
      [.submit (.writeBuffer ⟨some 0, 0, 1, 0⟩), .submit (.ndrange ⟨none, 4, 2⟩), .loop, .loop,
        .loop, .loop, .loop, .loop, .loop]).map (fun s => s.handed.length) = some 2 := by
    decide +kernel
  obtain ⟨s, hs, hlen⟩ := Machine.exists_reachable hrun rfl
  exact ⟨s, hlen, in_order hs⟩

/-! ## Wake-up -/

/-- No lost wake-up: between two callbacks of a queue that is not released, a command that could
be served has the watcher pending. -/
theorem no_lost_wakeup {anywhere : Bool} {s : QueueRun} (h : (queueLoop anywhere).Reachable s)
    (hopen : 0 < s.queue.refCounter) (hidle : s.point = .idle) (hring : s.ring ≠ [])
    (hlast : s.lastDone = true) : s.queue.pending = true := by
  have hs := served h
  have hlive : s.deleted = false := by
    cases hd : s.deleted with
    | false => rfl
    | true => exact absurd (hs.dead hd) hopen.ne'
  exact hs.wake hlive (Or.inl hidle) hring hlast

theorem no_lost_wakeup_two : ∃ s : QueueRun, s.ring.length = 1 ∧ s.queue.pending = true := by
  have hrun : ((queueLoop true).run QueueRun.new
      [.submit (.writeBuffer ⟨some 0, 0, 1, 0⟩), .submit (.ndrange ⟨none, 4, 2⟩), .loop, .loop,
        .loop, .loop]).map (fun s => (s.ring.length, decide (0 < s.queue.refCounter), s.point,
          s.lastDone)) = some (1, true, .idle, true) := by
    decide +kernel
  obtain ⟨s, hs, hfields⟩ := Machine.exists_reachable hrun rfl
  simp only [Prod.mk.injEq, decide_eq_true_eq] at hfields
  obtain ⟨hlen, hopen, hidle, hlast⟩ := hfields
  have hring : s.ring ≠ [] := List.ne_nil_of_length_pos (by omega)
  exact ⟨s, hlen, no_lost_wakeup hs hopen hidle hring hlast⟩

/-! ## Acceptance -/

/-- Every accepted command waits in the ring or was handed over, exactly once. -/
def Kept (s : QueueRun) : Prop :=
  ∀ c ∈ s.accepted, (c ∈ s.ring ∧ s.handed.count c = 0) ∨ (c ∉ s.ring ∧ s.handed.count c = 1)

/-- The condition on a step: the ring is not full at a submission, and nobody releases. -/
def HasRoom (s : QueueRun) : QueueLabel → Prop
  | .submit _ => s.queue.ringBuffer.isFull = false
  | .release => False
  | .loop => True
  | .complete _ => True

instance (s : QueueRun) (l : QueueLabel) : Decidable (HasRoom s l) :=
  match l with
  | .submit _ => inferInstanceAs (Decidable (_ = false))
  | .release => inferInstanceAs (Decidable False)
  | .loop => inferInstanceAs (Decidable True)
  | .complete _ => inferInstanceAs (Decidable True)

theorem handOver_entered {s t : QueueRun} (h : s.handOver = some t) :
    t.accepted = s.accepted ∧ t.entered = s.entered := by
  obtain ⟨c, -, -, -, -, -, -, hacc, hent, -⟩ := handOver_spec h
  exact ⟨hacc, hent⟩

theorem entered_eq_accepted_step {s t : QueueRun} {l : QueueLabel} (h : s.entered = s.accepted)
    (hl : HasRoom s l) (hm : QueueMove s l t) : t.entered = t.accepted := by
  cases hm with
  | release _ => exact h
  | complete event _ _ => exact h
  | submit body _ =>
    obtain ⟨-, heq⟩ | ⟨-, -, hacc, ⟨hfull, -, -⟩ | ⟨-, -, hent⟩⟩ := submit_cases s body
    · rw [heq]
      exact h
    · exact absurd (hfull.symm.trans hl) (by simp)
    · rw [hent, hacc, h]
  | loop _ hm =>
    cases hm with
    | hand hp ht =>
      obtain ⟨hacc, hent⟩ := handOver_entered ht
      rw [hacc, hent]
      exact h
    | invoke | findEmpty | pass | wait | feedItself | leave | destroy | live => exact h

/-- No accepted command is lost in the runs that always find room in the ring. -/
theorem accepted_kept {anywhere : Bool} {s : QueueRun}
    (h : (queueLoop anywhere).ReachableWhere HasRoom s) : Kept s := by
  have hs := served h
  have hall : s.entered = s.accepted :=
    h.invariant (fun _ hs => hs ▸ rfl)
      fun _ _ _ hs hl hn => entered_eq_accepted_step hs hl (queueMove hn)
  have hnodup : s.entered.Nodup := List.Nodup.of_map _ hs.distinct
  rw [hs.order] at hnodup
  obtain ⟨hhanded, -, hdisj⟩ := List.nodup_append.mp hnodup
  intro c hc
  rw [← hall, hs.order] at hc
  obtain hc | hc := List.mem_append.mp hc
  · exact Or.inr ⟨fun hr => hdisj c hc c hr rfl, List.count_eq_one_of_mem hhanded hc⟩
  · exact Or.inl ⟨hc, List.count_eq_zero.mpr fun hh => hdisj c hh c hc rfl⟩

theorem accepted_kept_two : ∃ s : QueueRun, s.accepted.length = 2 ∧ Kept s := by
  have hrun : ((queueLoop false).runWhere (fun s l => decide (HasRoom s l)) QueueRun.new
      [.submit (.writeBuffer ⟨some 0, 0, 1, 0⟩), .submit .empty, .loop, .loop, .loop]).map
        (fun s => s.accepted.length) = some 2 := by
    decide +kernel
  obtain ⟨s, hs, hlen⟩ := Machine.exists_reachableWhere hrun rfl
  exact ⟨s, hlen, accepted_kept hs⟩

/-- The hundred and first command that is submitted before the loop has its turn is accepted and
lost. -/
theorem accepted_lost : ∃ s : QueueRun, (queueLoop false).Reachable s ∧
    s.queue.refCounter = 1 ∧ ¬ Kept s := by
  have hrun : ((queueLoop false).run QueueRun.new (List.replicate 101
      (.submit (.writeBuffer ⟨some 0, 0, 1, 0⟩)))).map (fun s => (s.queue.refCounter,
        s.accepted.any fun c => !(decide (c ∈ s.ring)) && s.handed.count c == 0)) =
      some (1, true) := by
    decide +kernel
  obtain ⟨s, hs, hfields⟩ := Machine.exists_reachable hrun rfl
  obtain ⟨hopen, hany⟩ := Prod.mk.inj hfields
  obtain ⟨c, hc, hlost⟩ := List.any_eq_true.mp hany
  simp only [Bool.and_eq_true, Bool.not_eq_true', decide_eq_false_iff_not, beq_iff_eq] at hlost
  refine ⟨s, hs, hopen, fun hkept => ?_⟩
  obtain ⟨hring, -⟩ | ⟨-, hone⟩ := hkept c hc
  · exact hlost.1 hring
  · omega

/-! ## Self-destruction -/

/-- A queue that has deleted itself was released, empty and done, no command that entered it is
left, and the completion callback was never called for it afterwards. -/
structure SafeDestruction (s : QueueRun) : Prop where
  quiet : s.deleted = true → s.queue.refCounter = 0 ∧ s.ring = [] ∧ s.lastDone = true
  nothingLost : s.deleted = true → s.handed = s.entered ∧
    ∀ c ∈ s.entered, s.complete c.event = true
  notCalled : s.calledDead = false

/-- The condition on a step. Of a released queue the callback finds the ring empty only when the
last command is done, and hands over only writes and reads. The release that takes the counter to
0 does not fall into the callback between the hand-over and the second test of the ring while the
last command runs, nor right before `check_self_destroy` unless the ring is empty and the last
command is done. -/
def DestroysSafely (s : QueueRun) : QueueLabel → Prop
  | .loop => s.queue.refCounter = 0 →
      (s.point = .entered → s.queue.isEmpty = true → s.lastDone = true) ∧
        (s.point = .popping → ∀ c ∈ s.ring.head?, c.body.completesInline = true)
  | .release => s.queue.refCounter = 1 →
      (s.point = .rechecking → s.lastDone = true) ∧
        (s.point = .checking → s.queue.isEmpty = true ∧ s.lastDone = true)
  | .submit _ => True
  | .complete _ => True

instance (s : QueueRun) (l : QueueLabel) : Decidable (DestroysSafely s l) :=
  match l with
  | .loop => inferInstanceAs (Decidable (_ → (_ → _ → _) ∧ (_ → ∀ c ∈ s.ring.head?, _)))
  | .release => inferInstanceAs (Decidable (_ → (_ → _) ∧ (_ → _ ∧ _)))
  | .submit _ => inferInstanceAs (Decidable True)
  | .complete _ => inferInstanceAs (Decidable True)

/-- What the condition keeps: a released queue that is about to test its counter is empty and
done, and one that is about to test its ring again is done. -/
structure Destroying (s : QueueRun) : Prop where
  served : Served s
  quiet : s.deleted = true → s.ring = [] ∧ s.lastDone = true
  checking : s.queue.refCounter = 0 → s.point = .checking → s.ring = [] ∧ s.lastDone = true
  rechecking : s.queue.refCounter = 0 → s.point = .rechecking → s.lastDone = true
  notCalled : s.calledDead = false

theorem isEmpty_iff (s : QueueRun) : s.queue.isEmpty = true ↔ s.ring = [] :=
  CircArray.empty_iff _

theorem Destroying.submit {s : QueueRun} (h : Destroying s) (hd : s.deleted = false)
    (body : CommandBody) : Destroying (s.submit body) := by
  have hserved := h.served.submit body
  obtain ⟨hlast, href, hpoint, hcomp, hdel, -, -, hdead⟩ := submit_frame s body
  obtain ⟨-, heq⟩ | ⟨hopen, -⟩ := submit_cases s body
  · rw [heq] at hserved ⊢
    exact ⟨hserved, h.quiet, h.checking, h.rechecking, h.notCalled⟩
  · refine ⟨hserved, ?_, ?_, ?_, hdead.trans h.notCalled⟩
    · rw [hdel, hd]
      exact fun h => absurd h (by simp)
    · rw [href]
      omega
    · rw [href]
      omega

theorem Destroying.release {s : QueueRun} (h : Destroying s) (hl : DestroysSafely s .release) :
    Destroying { s with queue := s.queue.refCntDown } := by
  have hserved := h.served.refCntDown
  unfold CommandQueue.refCntDown at hserved ⊢
  split at hserved
  · rename_i hpos
    rw [if_pos hpos]
    refine ⟨hserved, h.quiet, fun hz hp => ?_, fun hz hp => ?_, h.notCalled⟩
    · have hone : s.queue.refCounter = 1 := by
        have : s.queue.refCounter - 1 = 0 := hz
        omega
      obtain ⟨hempty, hlast⟩ := (hl hone).2 hp
      exact ⟨s.isEmpty_iff.mp hempty, hlast⟩
    · have hone : s.queue.refCounter = 1 := by
        have : s.queue.refCounter - 1 = 0 := hz
        omega
      exact (hl hone).1 hp
  · rename_i hpos
    rw [if_neg hpos]
    exact ⟨hserved, h.quiet, h.checking, h.rechecking, h.notCalled⟩

theorem Destroying.loop {s t : QueueRun} (h : Destroying s) (hd : s.deleted = false)
    (hl : DestroysSafely s .loop) (hm : LoopMove s t) : Destroying t := by
  have hserved := h.served.loop hm
  have hlive : s.deleted = true → s.ring = [] ∧ s.lastDone = true := fun h =>
    absurd (hd.symm.trans h) (by simp)
  cases hm with
  | invoke hp hpend => exact ⟨hserved, hlive, fun _ => (nomatch ·), fun _ => (nomatch ·), h.notCalled⟩
  | findEmpty hp hring =>
    exact ⟨hserved, hlive, fun hz _ => ⟨hring, (hl hz).1 hp (s.isEmpty_iff.mpr hring)⟩,
      fun _ => (nomatch ·), h.notCalled⟩
  | pass hp hring hlast =>
    exact ⟨hserved, hlive, fun _ => (nomatch ·), fun _ => (nomatch ·), h.notCalled⟩
  | wait hp hlast =>
    exact ⟨hserved, hlive, fun _ => (nomatch ·), fun _ => (nomatch ·), h.notCalled⟩
  | hand hp ht =>
    obtain ⟨c, hring, -, htp, -, hdel, href, -, -, -, -, hinline, hdead⟩ := handOver_spec ht
    refine ⟨hserved, fun h => absurd (hd.symm.trans (hdel.symm.trans h)) (by simp), fun _ hp => ?_,
      fun hz _ => ?_, (hdead hd).trans h.notCalled⟩
    · rw [htp] at hp
      cases hp
    · exact hinline ((hl (href ▸ hz)).2 hp c (by rw [hring]; rfl))
  | feedItself hp hring hlast =>
    exact ⟨hserved, hlive, fun _ => (nomatch ·), fun _ => (nomatch ·), h.notCalled⟩
  | leave hp hor =>
    refine ⟨hserved, hlive, fun hz _ => ?_, fun _ => (nomatch ·), h.notCalled⟩
    have hlast := h.rechecking hz hp
    obtain hring | hrun := hor
    · exact ⟨hring, hlast⟩
    · exact absurd (hrun.symm.trans hlast) (by simp)
  | destroy hp hzero =>
    exact ⟨hserved, fun _ => h.checking hzero hp, fun _ => (nomatch ·), fun _ => (nomatch ·),
      h.notCalled⟩
  | live hp hone =>
    exact ⟨hserved, hlive, fun _ => (nomatch ·), fun _ => (nomatch ·), h.notCalled⟩

theorem Destroying.complete {s : QueueRun} (h : Destroying s) {event : ℕ}
    (hidle : s.point = .idle) (hrun : s.complete event = false)
    (hh : ∃ c ∈ s.handed, c.event = event ∧ c.body.isNdrange = true) :
    Destroying (s.setAsComplete event) := by
  have hd : s.deleted = false := by
    cases hd : s.deleted with
    | false => rfl
    | true =>
      obtain ⟨c, hc, rfl, -⟩ := hh
      rw [h.served.all_done (h.quiet hd).2 c hc] at hrun
      cases hrun
  refine ⟨h.served.setAsComplete event, fun hdel => ?_, fun _ hp => ?_, fun _ hp => ?_, ?_⟩
  · exact absurd (hd.symm.trans hdel) (by simp)
  · exact absurd (hidle.symm.trans hp) (by simp)
  · exact absurd (hidle.symm.trans hp) (by simp)
  · change (s.calledDead || s.deleted) = false
    rw [h.notCalled, hd]
    rfl

theorem Destroying.step {s t : QueueRun} {l : QueueLabel} (h : Destroying s)
    (hl : DestroysSafely s l) (hn : (queueLoop false).next s l = some t) : Destroying t := by
  cases queueMove hn with
  | submit body hd => exact h.submit hd body
  | release _ => exact h.release hl
  | loop hd hm => exact h.loop hd hl hm
  | complete event hrun hh =>
    obtain ⟨⟨hpoint, -⟩, -⟩ := Option.ite_none_right_eq_some.mp hn
    exact h.complete (by simpa using hpoint) hrun hh

/-- Safe self-destruction, in the runs whose steps all meet the condition. -/
theorem safe_destruction {s : QueueRun}
    (h : (queueLoop false).ReachableWhere DestroysSafely s) : SafeDestruction s := by
  have hstart : Destroying QueueRun.new :=
    ⟨Served.new, (nomatch ·), fun _ => (nomatch ·), fun _ => (nomatch ·), rfl⟩
  have hs : Destroying s :=
    h.invariant (fun _ hs => hs ▸ hstart) fun _ _ _ hs hl hn => hs.step hl hn
  refine ⟨fun hd => ⟨hs.served.dead hd, hs.quiet hd⟩, fun hd => ?_, hs.notCalled⟩
  obtain ⟨hring, hlast⟩ := hs.quiet hd
  have horder : s.handed = s.entered := by
    rw [hs.served.order, hring, List.append_nil]
  exact ⟨horder, horder ▸ hs.served.all_done hlast⟩

theorem safe_destruction_write : ∃ s : QueueRun, s.deleted = true ∧ SafeDestruction s := by
  have hrun : ((queueLoop false).runWhere (fun s l => decide (DestroysSafely s l)) QueueRun.new
      [.submit (.writeBuffer ⟨some 0, 0, 1, 0⟩), .loop, .loop, .release, .loop, .loop,
        .loop]).map (fun s => s.deleted) = some true := by
    decide +kernel
  obtain ⟨s, hs, hd⟩ := Machine.exists_reachableWhere hrun rfl
  exact ⟨s, hd, safe_destruction hs⟩

/-- An ND-range of a released queue is handed over, the queue deletes itself while it runs, and
its completion calls back on the deleted queue. -/
theorem destroyed_while_running : ∃ s : QueueRun, (queueLoop false).Reachable s ∧
    s.calledDead = true ∧ ¬ SafeDestruction s := by
  have hrun : ((queueLoop false).run QueueRun.new
      [.submit (.ndrange ⟨some (0, some ""), 4, 2⟩), .release, .loop, .loop, .loop, .loop, .loop,
        .complete 0]).map (fun s => s.calledDead) = some true := by
    decide +kernel
  obtain ⟨s, hs, hd⟩ := Machine.exists_reachable hrun rfl
  exact ⟨s, hs, hd, fun h => absurd (h.notCalled.symm.trans hd) (by simp)⟩

end QueueRun

end FpgaMl
