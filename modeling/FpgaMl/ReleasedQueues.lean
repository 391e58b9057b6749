import Mathlib.Tactic
import FpgaMl.Foundation.Histories
import FpgaMl.NoStall

/-! # Released queues

`ref_cnt_down` frees nothing: only a later run of the callback deletes a queue that was released. The
work of a queue bounds the steps of the loop thread, and the callback comes to the deletion exactly
when the release did not leave the queue stranded. -/
namespace FpgaMl
open TransitionSystem
set_option autoImplicit false

/-! ## Work -/

/-- What is left of a callback, so that each step leaves less. -/
def LoopPoint.work : LoopPoint → ℕ
  | idle => 0
  | entered => 2
  | popping => 1
  | rechecking => 4
  | checking => 1

/-- Each command can lead to a range on every scheduler, and each wake-up to a callback. -/
def QueueRun.work (n : ℕ) (s : QueueRun) : ℕ :=
  (7 + 4 * n) * s.ring.length + (if s.queue.pending then 3 else 0) + s.point.work

namespace QueueRun

variable {s t : QueueRun}

theorem work_loop (hs : LoopMove s t) (hp : s.point ≠ .popping) (n : ℕ) : t.work n < s.work n := by
  obtain ⟨-, -, hring, -⟩ := loop_frame hs hp
  unfold work
  rw [hring]
  cases hs with
  | invoke hpoint hpending => simp [LoopPoint.work, hpoint, hpending]
  | findEmpty hpoint _ => simp [LoopPoint.work, hpoint]
  | pass hpoint _ _ => simp [LoopPoint.work, hpoint]
  | wait hpoint _ => simp [LoopPoint.work, hpoint]
  | hand hpoint _ => exact absurd hpoint hp
  | feedItself hpoint _ _ =>
    simp only [LoopPoint.work, hpoint, CommandQueue.feed, if_true]
    omega
  | leave hpoint _ => simp [LoopPoint.work, hpoint]
  | destroy hpoint _ =>
    simp only [LoopPoint.work, hpoint, Bool.false_eq_true, if_false]
    omega
  | live hpoint _ => simp [LoopPoint.work, hpoint]

theorem work_hand (hs : s.handOver = some t) (hp : s.point = .popping) (n : ℕ) :
    t.work n + 4 * n < s.work n := by
  obtain ⟨cmd, hring, -, hpoint, -⟩ := handOver_spec hs
  unfold work
  rw [hring, hpoint, hp, List.length_cons, Nat.mul_succ]
  simp only [LoopPoint.work]
  have hpending : (if t.queue.pending = true then 3 else 0) ≤ 3 := by split <;> omega
  omega

theorem work_setAsComplete (s : QueueRun) (event n : ℕ) :
    (s.setAsComplete event).work n ≤ s.work n + 3 := by
  unfold work
  rw [ring_setAsComplete]
  have hpoint : (s.setAsComplete event).point = s.point := rfl
  rw [hpoint]
  split <;> split <;> omega

end QueueRun

/-- What goes on without the clients: the callback and the completion of ND-ranges. -/
def QueueLabel.Internal : QueueLabel → Prop
  | submit _ => False
  | release => False
  | loop => True
  | complete _ => True

instance : DecidablePred QueueLabel.Internal := fun l => by
  cases l <;> unfold QueueLabel.Internal <;> infer_instance

namespace QueueRun

variable {s t : QueueRun} {anywhere : Bool}

/-- Whether an ND-range that was handed over still runs. -/
def running (s : QueueRun) : Bool :=
  s.handed.any fun c => c.body.isNdrange && !s.complete c.event

/-- No ND-range will complete any more, and the callback was left for good or is about to be, with
an event that nothing completes in front of the next command. -/
structure Stranded (s : QueueRun) : Prop where
  still : s.running = false
  away : s.point = .idle ∧ s.queue.pending = false ∨
    (s.point = .idle ∨ s.point = .entered) ∧ s.ring ≠ [] ∧ s.lastDone = false

theorem running_iff : s.running = true ↔
    ∃ c ∈ s.handed, c.body.isNdrange = true ∧ s.complete c.event = false := by
  simp [running]

/-- Only the last command that was handed over can be running. -/
theorem Served.last_of_open (h : s.Served) {c : MLCLCommand} (hc : c ∈ s.handed)
    (hopen : s.complete c.event = false) : s.queue.lastEvent = some c.event := by
  obtain hnil | ⟨l, d, hd⟩ := s.handed.eq_nil_or_concat
  · rw [hnil] at hc
    cases hc
  · rw [List.concat_eq_append] at hd
    have hlast := h.last
    rw [hd, List.getLast?_concat, Option.map_some] at hlast
    rw [hd] at hc
    obtain hc | hc := List.mem_append.mp hc
    · rw [h.done c (by rw [hd, List.dropLast_concat]; exact hc)] at hopen
      cases hopen
    · rw [List.mem_singleton.mp hc]
      exact hlast

theorem Served.lastDone_of_complete (h : s.Served) {c : MLCLCommand} (hc : c ∈ s.handed)
    (hopen : s.complete c.event = false) : (s.setAsComplete c.event).lastDone = true := by
  unfold lastDone
  rw [lastEvent_setAsComplete, h.last_of_open hc hopen]
  exact Function.update_self ..

theorem running_of_lastDone (h : s.Served) (hl : s.lastDone = true) : s.running = false := by
  by_contra hrun
  obtain ⟨c, hc, -, hopen⟩ := running_iff.mp (Bool.eq_true_of_not_eq_false hrun)
  rw [h.all_done hl c hc] at hopen
  cases hopen

/-- The callback waits only in front of a command. -/
theorem ring_of_wait (hs : s.loopStep = some t) (hp : s.point = .entered) (ht : t.point = .idle) :
    s.ring ≠ [] := by
  intro hring
  have hempty : s.queue.isEmpty = true := (isEmpty_iff s).mpr hring
  unfold loopStep at hs
  rw [hp] at hs
  simp only [hempty, if_true, Option.some.injEq] at hs
  rw [← hs] at ht
  cases ht

/-! ## The callback finds what it uses -/

/-- A command to pop, and an event to look at. -/
structure Equipped (s : QueueRun) : Prop where
  served : s.Served
  popping : s.point = .popping → s.ring ≠ []
  rechecking : s.point = .rechecking → s.queue.lastEvent ≠ none

theorem Equipped.step (h : s.Equipped) {l : QueueLabel} (hm : QueueMove s l t) : t.Equipped := by
  have hserved := h.served.step hm
  cases hm with
  | submit body _ =>
    obtain ⟨hlast, -, hpoint, -⟩ := submit_frame s body
    refine ⟨hserved, fun hp => ?_, fun hp => hlast ▸ h.rechecking (hpoint.symm.trans hp)⟩
    have hne := h.popping (hpoint.symm.trans hp)
    obtain ⟨-, heq⟩ | ⟨-, -, -, ⟨-, hring, -⟩ | ⟨-, hring, -⟩⟩ := submit_cases s body
    · rw [heq]
      exact hne
    · rw [hring]
      exact hne
    · rw [hring]
      exact List.append_ne_nil_of_left_ne_nil hne _
  | release _ =>
    unfold CommandQueue.refCntDown at hserved ⊢
    split at hserved <;> rename_i hpos
    · rw [if_pos hpos]
      exact ⟨hserved, h.popping, h.rechecking⟩
    · rw [if_neg hpos]
      exact h
  | loop _ hl =>
    cases hl with
    | invoke | findEmpty | wait | feedItself | leave | destroy | live =>
      exact ⟨hserved, (nomatch ·), (nomatch ·)⟩
    | pass _ hring _ => exact ⟨hserved, fun _ => hring, (nomatch ·)⟩
    | hand _ ht =>
      obtain ⟨cmd, -, -, hpoint, hlast, -⟩ := handOver_spec ht
      refine ⟨hserved, fun hp => ?_, fun _ => by rw [hlast]; simp⟩
      rw [hpoint] at hp
      cases hp
  | complete event _ _ =>
    refine ⟨hserved, fun hp => ?_, fun hp => ?_⟩
    · rw [ring_setAsComplete]
      exact h.popping hp
    · rw [lastEvent_setAsComplete]
      exact h.rechecking hp

theorem equipped (h : (queueLoop anywhere).Reachable s) : s.Equipped := by
  refine h.invariant ?_ fun s l t hs hn => hs.step (queueMove hn)
  rintro _ rfl
  exact ⟨Served.new, (nomatch ·), (nomatch ·)⟩

theorem Equipped.loopStep_isSome (h : s.Equipped)
    (hp : s.point ≠ .idle ∨ s.queue.pending = true) : ∃ t, s.loopStep = some t := by
  unfold loopStep
  cases hpoint : s.point with
  | idle =>
    obtain hp | hp := hp
    · exact absurd hpoint hp
    · exact ⟨_, if_pos hp⟩
  | entered =>
    dsimp only
    split
    · exact ⟨_, rfl⟩
    · split <;> exact ⟨_, rfl⟩
  | popping =>
    obtain ⟨c, rest, hring⟩ := List.exists_cons_of_ne_nil (h.popping hpoint)
    obtain ⟨buffer, hpop, -⟩ := CircArray.popFront_cons hring
    simp only [handOver, CommandQueue.popFront, hpop, Option.map_some]
    exact ⟨_, rfl⟩
  | rechecking =>
    obtain ⟨event, hevent⟩ := Option.ne_none_iff_exists'.mp (h.rechecking hpoint)
    simp only [hevent, Option.map_some]
    exact ⟨_, rfl⟩
  | checking =>
    dsimp only
    split <;> exact ⟨_, rfl⟩

/-! ## After the release -/

/-- A released queue is not deleted yet only where something still leads to the deletion. -/
structure Leaving (s : QueueRun) : Prop where
  equipped : s.Equipped
  released : s.queue.refCounter = 0
  live : s.deleted = false → ¬ s.Stranded

/-- What the loop thread still does for a queue, and an ND-range that runs for it. -/
def rest (s : QueueRun) : ℕ := s.work 1 + if s.running then 4 else 0

theorem submit_released (hrel : s.queue.refCounter = 0) (body : CommandBody) :
    s.submit body = { s with nextCommand := s.nextCommand + 1 } := by
  obtain ⟨-, heq⟩ | ⟨hone, -⟩ := submit_cases s body
  · exact heq
  · omega

theorem refCntDown_released (hrel : s.queue.refCounter = 0) : s.queue.refCntDown = s.queue := by
  unfold CommandQueue.refCntDown
  rw [if_neg (by omega)]

theorem running_loop (hl : LoopMove s t) (hp : s.point ≠ .popping) : t.running = s.running := by
  obtain ⟨-, -, -, hcomplete, hhanded⟩ := loop_frame hl hp
  unfold running
  rw [hcomplete, hhanded]

theorem rest_loop (hl : LoopMove s t) : t.rest < s.rest := by
  unfold rest
  by_cases hp : s.point = .popping
  · cases hl with
    | hand _ ht =>
      have hless := work_hand ht hp 1
      have hmost : (if t.running = true then 4 else 0) ≤ 4 := by split <;> omega
      omega
    | invoke hpoint | findEmpty hpoint | pass hpoint | wait hpoint | feedItself hpoint
    | leave hpoint | destroy hpoint | live hpoint =>
      rw [hp] at hpoint
      cases hpoint
  · rw [running_loop hl hp]
    exact Nat.add_lt_add_right (work_loop hl hp 1) _

/-- No step of the callback strands a released queue. -/
theorem Leaving.loop (h : s.Leaving) (hs : s.loopStep = some t) (hd : s.deleted = false) :
    t.Leaving := by
  have hl := loopMove hs
  have hequipped := h.equipped.step (.loop hd hl)
  have hlive := h.live hd
  by_cases hp : s.point = .popping
  · obtain ⟨cmd, -, -, hpoint, -, -, href, -⟩ := handOver_spec
      (show s.handOver = some t by unfold loopStep at hs; rwa [hp] at hs)
    refine ⟨hequipped, href.trans h.released, fun _ hst => ?_⟩
    obtain ⟨hidle, -⟩ | ⟨hidle | hentered, -⟩ := hst.away <;> simp_all
  have hrunning := running_loop hl hp
  refine ⟨hequipped, (loop_frame hl hp).2.1.trans h.released, fun hdt hst => ?_⟩
  have hstill := hrunning ▸ hst.still
  cases hl with
  | invoke hpoint hpending =>
    refine hlive ⟨hstill, Or.inr ⟨Or.inl hpoint, ?_⟩⟩
    obtain ⟨hidle, -⟩ | ⟨-, haway⟩ := hst.away
    · cases hidle
    · exact haway
  | wait hpoint hl =>
    exact hlive ⟨hstill, Or.inr ⟨Or.inr hpoint, ring_of_wait hs hpoint rfl, hl⟩⟩
  | feedItself hpoint hring hl =>
    obtain ⟨-, hpending⟩ | ⟨-, -, hopen⟩ := hst.away
    · cases hpending
    · exact absurd (hl.symm.trans hopen) (by simp)
  | findEmpty | pass | leave =>
    obtain ⟨hidle, -⟩ | ⟨hidle | hentered, -⟩ := hst.away <;> contradiction
  | hand hpoint _ => exact hp hpoint
  | destroy hpoint _ => cases hdt
  | live hpoint hone => exact hone h.released

theorem Leaving.complete (h : s.Leaving) {event : ℕ} (hopen : s.complete event = false)
    (hh : ∃ c ∈ s.handed, c.event = event ∧ c.body.isNdrange = true) :
    (s.setAsComplete event).Leaving ∧ (s.setAsComplete event).rest < s.rest := by
  have hequipped := h.equipped.step (.complete event hopen hh)
  obtain ⟨c, hc, rfl, hnd⟩ := hh
  have hdone := h.equipped.served.lastDone_of_complete hc hopen
  refine ⟨⟨hequipped, (refCounter_setAsComplete s _).trans h.released, fun hd hst => ?_⟩, ?_⟩
  · obtain ⟨-, hpending⟩ | ⟨-, -, hlast⟩ := hst.away
    · rw [pending_setAsComplete (s := s) hd] at hpending
      cases hpending
    · rw [hdone] at hlast
      cases hlast
  · have hrun : s.running = true := running_iff.mpr ⟨c, hc, hnd, hopen⟩
    have hless := work_setAsComplete s c.event 1
    unfold rest
    rw [running_of_lastDone hequipped.served hdone, hrun]
    simp only [Bool.false_eq_true, if_false, if_true]
    omega

theorem Leaving.step (h : s.Leaving) {l : QueueLabel} (hn : (queueLoop anywhere).next s l = some t) :
    t.Leaving ∧ t.rest ≤ s.rest ∧ (l.Internal → t.rest < s.rest) := by
  have hequipped := h.equipped.step (queueMove hn)
  cases queueMove hn with
  | submit body hd =>
    rw [submit_released h.released] at hequipped ⊢
    exact ⟨⟨hequipped, h.released, fun hd hst => h.live hd ⟨hst.still, hst.away⟩⟩, le_refl _,
      False.elim⟩
  | release hd =>
    rw [refCntDown_released h.released]
    exact ⟨h, le_refl _, False.elim⟩
  | loop hd hl =>
    obtain ⟨-, hs⟩ := Option.ite_none_left_eq_some.mp hn
    exact ⟨h.loop hs hd, (rest_loop hl).le, fun _ => rest_loop hl⟩
  | complete event hopen hh =>
    obtain ⟨hleaving, hless⟩ := h.complete hopen hh
    exact ⟨hleaving, hless.le, fun _ => hless⟩

/-- The loop thread stops working for such a queue only by deleting it. -/
theorem Leaving.deleted (h : s.Leaving)
    (hend : ∀ l : QueueLabel, l.Internal → (queueLoop anywhere).next s l = none) :
    s.deleted = true := by
  by_contra hd
  have hd : s.deleted = false := Bool.eq_false_of_not_eq_true hd
  have hloop : s.loopStep = none := by
    have hnone := hend .loop trivial
    simpa [queueLoop, hd] using hnone
  have hidle : s.point = .idle ∧ s.queue.pending = false := by
    by_contra hne
    obtain ⟨t, ht⟩ := h.equipped.loopStep_isSome (by
      rw [not_and_or, Bool.not_eq_false] at hne
      exact hne)
    rw [hloop] at ht
    cases ht
  refine h.live hd ⟨?_, Or.inl hidle⟩
  by_contra hrun
  obtain ⟨c, hc, hnd, hopen⟩ := running_iff.mp (Bool.eq_true_of_not_eq_false hrun)
  have hnone := hend (.complete c.event) trivial
  simp only [queueLoop] at hnone
  rw [if_pos ⟨Or.inr hidle.1, hopen, c, hc, rfl, hnd⟩] at hnone
  cases hnone

/-- Whatever clients do with a stranded queue, it stays as it is. -/
theorem Stranded.step (h : s.Stranded) (hrel : s.queue.refCounter = 0) (hlive : s.deleted = false)
    {l : QueueLabel} (hn : (queueLoop anywhere).next s l = some t) :
    t.Stranded ∧ t.queue.refCounter = 0 ∧ t.deleted = false ∧ t.ring = s.ring ∧
      t.handed = s.handed := by
  cases queueMove hn with
  | submit body hd =>
    rw [submit_released hrel]
    exact ⟨⟨h.still, h.away⟩, hrel, hlive, rfl, rfl⟩
  | release hd =>
    rw [refCntDown_released hrel]
    exact ⟨h, hrel, hlive, rfl, rfl⟩
  | loop hd hl =>
    cases hl with
    | invoke hpoint hpending =>
      obtain ⟨-, hquiet⟩ | ⟨-, haway⟩ := h.away
      · rw [hpending] at hquiet
        cases hquiet
      · exact ⟨⟨h.still, Or.inr ⟨Or.inr rfl, haway⟩⟩, hrel, hlive, rfl, rfl⟩
    | wait hpoint hl =>
      obtain ⟨-, hs⟩ := Option.ite_none_left_eq_some.mp hn
      have hring := ring_of_wait hs hpoint rfl
      exact ⟨⟨h.still, Or.inr ⟨Or.inl rfl, hring, hl⟩⟩, hrel, hlive, rfl, rfl⟩
    | findEmpty hpoint hring =>
      obtain ⟨hidle, -⟩ | ⟨-, hne, -⟩ := h.away
      · simp_all
      · exact absurd hring hne
    | pass hpoint _ hl =>
      obtain ⟨hidle, -⟩ | ⟨-, -, hopen⟩ := h.away
      · simp_all
      · exact absurd (hl.symm.trans hopen) (by simp)
    | hand hpoint _ | feedItself hpoint _ _ | leave hpoint _ | destroy hpoint _ | live hpoint _ =>
      obtain ⟨hidle, -⟩ | ⟨hidle | hentered, -⟩ := h.away <;> simp_all
  | complete event hopen hh =>
    obtain ⟨c, hc, rfl, hnd⟩ := hh
    have hrun := running_iff.mpr ⟨c, hc, hnd, hopen⟩
    rw [h.still] at hrun
    cases hrun

end QueueRun

end FpgaMl
