import Mathlib.Tactic
import FpgaMl.CommandQueue

/-! # The invariant of a command queue

`Served`: the ring is what has entered and was not handed over, all commands but the last one
handed over are complete, and a command that could be served has the watcher pending. Every step
keeps it. -/
namespace FpgaMl
open TransitionSystem
set_option autoImplicit false

namespace QueueRun

structure Served (s : QueueRun) : Prop where
  order : s.entered = s.handed ++ s.ring
  sub : s.entered.Sublist s.accepted
  numbered : (s.accepted.map MLCLCommand.event).Pairwise (· < ·)
  fresh : ∀ c ∈ s.accepted, c.event < s.nextCommand
  last : s.queue.lastEvent = s.handed.getLast?.map MLCLCommand.event
  done : ∀ c ∈ s.handed.dropLast, s.complete c.event = true
  gate : s.point = .popping → s.lastDone = true
  wake : s.deleted = false → s.point = .idle ∨ s.point = .checking → s.ring ≠ [] →
    s.lastDone = true → s.queue.pending = true
  dead : s.deleted = true → s.queue.refCounter = 0

theorem Served.new : Served QueueRun.new := by
  have hring : QueueRun.new.ring = [] := CircArray.toList_new 100
  refine ⟨by rw [hring]; rfl, List.Sublist.refl _, List.Pairwise.nil, ?_, rfl, ?_, ?_, ?_, ?_⟩
  · intro c hc
    cases hc
  · intro c hc
    cases hc
  · intro h
    cases h
  · intro _ _ h
    exact absurd hring h
  · intro h
    cases h

theorem Served.all_done {s : QueueRun} (h : Served s) (hl : s.lastDone = true) :
    ∀ c ∈ s.handed, s.complete c.event = true := by
  intro c hc
  obtain hnil | ⟨l, d, hd⟩ := s.handed.eq_nil_or_concat
  · rw [hnil] at hc
    cases hc
  · have hlast := h.last
    rw [hd, List.concat_eq_append, List.getLast?_concat, Option.map_some] at hlast
    rw [hd, List.concat_eq_append] at hc
    obtain hc | hc := List.mem_append.mp hc
    · apply h.done c
      rw [hd, List.concat_eq_append, List.dropLast_concat]
      exact hc
    · rw [List.mem_singleton.mp hc]
      simpa [lastDone, hlast] using hl

theorem setAsComplete_mono {s : QueueRun} {e i : ℕ} (h : s.complete i = true) :
    (s.setAsComplete e).complete i = true := by
  by_cases hi : i = e
  · subst hi
    exact Function.update_self ..
  · exact (Function.update_of_ne hi ..).trans h

@[simp] theorem lastEvent_setAsComplete (s : QueueRun) (e : ℕ) :
    (s.setAsComplete e).queue.lastEvent = s.queue.lastEvent := by
  unfold setAsComplete CommandQueue.feed
  dsimp only
  split <;> rfl

@[simp] theorem refCounter_setAsComplete (s : QueueRun) (e : ℕ) :
    (s.setAsComplete e).queue.refCounter = s.queue.refCounter := by
  unfold setAsComplete CommandQueue.feed
  dsimp only
  split <;> rfl

@[simp] theorem ring_setAsComplete (s : QueueRun) (e : ℕ) : (s.setAsComplete e).ring = s.ring := by
  unfold ring setAsComplete CommandQueue.feed
  dsimp only
  split <;> rfl

theorem pending_setAsComplete {s : QueueRun} (h : s.deleted = false) (e : ℕ) :
    (s.setAsComplete e).queue.pending = true := by
  unfold setAsComplete CommandQueue.feed
  dsimp only
  rw [h]
  rfl

theorem lastDone_setAsComplete {s : QueueRun} (h : s.lastDone = true) (e : ℕ) :
    (s.setAsComplete e).lastDone = true := by
  unfold lastDone at h ⊢
  rw [lastEvent_setAsComplete]
  cases hl : s.queue.lastEvent with
  | none => rfl
  | some i =>
    rw [hl] at h
    exact setAsComplete_mono h

theorem Served.setAsComplete {s : QueueRun} (h : Served s) (e : ℕ) :
    Served (s.setAsComplete e) := by
  refine ⟨?_, h.sub, h.numbered, h.fresh, ?_, fun c hc => setAsComplete_mono (h.done c hc),
    fun hp => lastDone_setAsComplete (h.gate hp) e,
    fun hd _ _ _ => pending_setAsComplete (s := s) hd e, ?_⟩
  · rw [ring_setAsComplete]
    exact h.order
  · rw [lastEvent_setAsComplete]
    exact h.last
  · rw [refCounter_setAsComplete]
    exact h.dead

/-- What a submission does, by the answer of `push_back` and the room in the ring. -/
theorem submit_cases (s : QueueRun) (body : CommandBody) :
    (s.queue.refCounter < 1 ∧ s.submit body = { s with nextCommand := s.nextCommand + 1 }) ∨
      (1 ≤ s.queue.refCounter ∧ (s.submit body).queue.pending = true ∧
        (s.submit body).accepted = s.accepted ++ [⟨s.nextCommand, body⟩] ∧
        ((s.queue.ringBuffer.isFull = true ∧ (s.submit body).ring = s.ring ∧
            (s.submit body).entered = s.entered) ∨
          (s.queue.ringBuffer.isFull = false ∧
            (s.submit body).ring = s.ring ++ [⟨s.nextCommand, body⟩] ∧
            (s.submit body).entered = s.entered ++ [⟨s.nextCommand, body⟩]))) := by
  by_cases hrel : s.queue.refCounter < 1
  · left
    refine ⟨hrel, ?_⟩
    unfold submit CommandQueue.pushBack
    simp [hrel]
  · right
    have hpush := CircArray.toList_pushBack_eq s.queue.ringBuffer ⟨s.nextCommand, body⟩
    refine ⟨by omega, ?_, ?_, ?_⟩
    · simp [submit, CommandQueue.pushBack, hrel, CommandQueue.feed]
    · simp [submit, CommandQueue.pushBack, hrel]
    · cases hfull : s.queue.ringBuffer.isFull with
      | true =>
        left
        rw [hfull, if_pos rfl] at hpush
        refine ⟨rfl, ?_, ?_⟩
        · simpa [ring, submit, CommandQueue.pushBack, hrel, CommandQueue.feed] using hpush
        · simp [submit, CommandQueue.pushBack, hrel, hfull]
      | false =>
        right
        rw [hfull, if_neg (by simp)] at hpush
        refine ⟨rfl, ?_, ?_⟩
        · simpa [ring, submit, CommandQueue.pushBack, hrel, CommandQueue.feed] using hpush
        · simp [submit, CommandQueue.pushBack, hrel, hfull]

theorem submit_frame (s : QueueRun) (body : CommandBody) :
    (s.submit body).queue.lastEvent = s.queue.lastEvent ∧
      (s.submit body).queue.refCounter = s.queue.refCounter ∧
      (s.submit body).point = s.point ∧ (s.submit body).complete = s.complete ∧
      (s.submit body).deleted = s.deleted ∧ (s.submit body).handed = s.handed ∧
      (s.submit body).nextCommand = s.nextCommand + 1 ∧
      (s.submit body).calledDead = s.calledDead := by
  unfold submit CommandQueue.pushBack CommandQueue.feed
  split <;> exact ⟨rfl, rfl, rfl, rfl, rfl, rfl, rfl, rfl⟩

theorem Served.submit {s : QueueRun} (h : Served s) (body : CommandBody) :
    Served (s.submit body) := by
  obtain ⟨hlast, href, hpoint, hcomp, hdel, hhanded, hnext, -⟩ := submit_frame s body
  have hdone : (s.submit body).lastDone = s.lastDone := by
    unfold lastDone
    rw [hlast, hcomp]
  obtain ⟨-, heq⟩ | ⟨-, hpend, hacc, hring⟩ := submit_cases s body
  · rw [heq]
    exact ⟨h.order, h.sub, h.numbered, fun c hc => Nat.lt_succ_of_lt (h.fresh c hc), h.last,
      h.done, h.gate, h.wake, h.dead⟩
  · refine ⟨?_, ?_, ?_, ?_, ?_, ?_, ?_, fun _ _ _ _ => hpend, ?_⟩
    · obtain ⟨-, hr, he⟩ | ⟨-, hr, he⟩ := hring
      · rw [hr, he, hhanded]
        exact h.order
      · rw [hr, he, hhanded, h.order, List.append_assoc]
    · obtain ⟨-, -, he⟩ | ⟨-, -, he⟩ := hring
      · rw [he, hacc]
        exact h.sub.trans (List.sublist_append_left _ _)
      · rw [he, hacc]
        exact h.sub.append (List.Sublist.refl _)
    · rw [hacc, List.map_append, List.pairwise_append]
      refine ⟨h.numbered, List.pairwise_singleton _ _, ?_⟩
      intro a ha b hb
      obtain ⟨c, hc, rfl⟩ := List.mem_map.mp ha
      rw [List.map_singleton, List.mem_singleton] at hb
      rw [hb]
      exact h.fresh c hc
    · rw [hacc, hnext]
      intro c hc
      obtain hc | hc := List.mem_append.mp hc
      · exact Nat.lt_succ_of_lt (h.fresh c hc)
      · rw [List.mem_singleton.mp hc]
        exact Nat.lt_succ_self _
    · rw [hlast, hhanded]
      exact h.last
    · rw [hhanded, hcomp]
      exact h.done
    · rw [hpoint, hdone]
      exact h.gate
    · rw [hdel, href]
      exact h.dead

theorem Served.refCntDown {s : QueueRun} (h : Served s) :
    Served { s with queue := s.queue.refCntDown } := by
  unfold CommandQueue.refCntDown
  split
  · refine ⟨h.order, h.sub, h.numbered, h.fresh, h.last, h.done, h.gate, h.wake, fun hd => ?_⟩
    exact Nat.sub_eq_zero_of_le (h.dead hd ▸ Nat.zero_le 1)
  · exact ⟨h.order, h.sub, h.numbered, h.fresh, h.last, h.done, h.gate, h.wake, h.dead⟩

theorem handOver_spec {s t : QueueRun} (h : s.handOver = some t) :
    ∃ cmd, s.ring = cmd :: t.ring ∧ t.handed = s.handed ++ [cmd] ∧ t.point = .rechecking ∧
      t.queue.lastEvent = some cmd.event ∧ t.deleted = s.deleted ∧
      t.queue.refCounter = s.queue.refCounter ∧ t.accepted = s.accepted ∧
      t.entered = s.entered ∧ t.nextCommand = s.nextCommand ∧
      (t.complete = if cmd.body.completesInline then Function.update s.complete cmd.event true
        else s.complete) ∧
      (cmd.body.completesInline = true → t.lastDone = true) ∧
      (s.deleted = false → t.calledDead = s.calledDead) := by
  unfold handOver at h
  obtain ⟨⟨cmd, queue⟩, hpop, rfl⟩ := Option.map_eq_some_iff.mp h
  unfold CommandQueue.popFront at hpop
  obtain ⟨⟨v, rest⟩, hrest, hp⟩ := Option.map_eq_some_iff.mp hpop
  obtain ⟨rfl, rfl⟩ := Prod.mk.inj hp
  have hlist := (CircArray.toList_popFront hrest).1
  refine ⟨v, ?_⟩
  dsimp only
  cases hin : v.body.completesInline with
  | false =>
    rw [if_neg Bool.false_ne_true]
    exact ⟨hlist, rfl, rfl, rfl, rfl, rfl, rfl, rfl, rfl, rfl, fun h => by simp at h,
      fun _ => rfl⟩
  | true =>
    rw [if_pos rfl]
    refine ⟨?_, rfl, rfl, ?_, rfl, ?_, rfl, rfl, rfl, rfl, ?_, ?_⟩
    · rw [ring_setAsComplete]
      exact hlist
    · rw [lastEvent_setAsComplete]
      rfl
    · rw [refCounter_setAsComplete]
      rfl
    · intro _
      unfold lastDone
      rw [lastEvent_setAsComplete]
      exact Function.update_self ..
    · intro hd
      change (s.calledDead || s.deleted) = s.calledDead
      rw [hd, Bool.or_false]

theorem Served.handOver {s t : QueueRun} (h : Served s) (hpoint : s.point = .popping)
    (ht : s.handOver = some t) : Served t := by
  obtain ⟨cmd, hring, hhanded, htp, hlast, hdel, href, hacc, hent, hnext, hcomp, -, -⟩ :=
    handOver_spec ht
  have hmono : ∀ i, s.complete i = true → t.complete i = true := by
    intro i hi
    rw [hcomp]
    split
    · exact setAsComplete_mono hi
    · exact hi
  have hall := h.all_done (h.gate hpoint)
  refine ⟨?_, ?_, ?_, ?_, ?_, ?_, ?_, ?_, ?_⟩
  · rw [hent, h.order, hring, hhanded, List.append_assoc]
    rfl
  · rw [hent, hacc]
    exact h.sub
  · rw [hacc]
    exact h.numbered
  · rw [hacc, hnext]
    exact h.fresh
  · rw [hlast, hhanded, List.getLast?_concat]
    rfl
  · rw [hhanded, List.dropLast_concat]
    exact fun c hc => hmono _ (hall c hc)
  · intro hp
    rw [htp] at hp
    cases hp
  · intro _ hp
    rw [htp] at hp
    obtain hp | hp := hp <;> cases hp
  · rw [hdel, href]
    exact h.dead

/-- The steps of the loop thread, by the point it is at and what it finds there. -/
inductive LoopMove (s : QueueRun) : QueueRun → Prop
  | invoke : s.point = .idle → s.queue.pending = true →
      LoopMove s { s with queue := { s.queue with pending := false }, point := .entered }
  | findEmpty : s.point = .entered → s.ring = [] → LoopMove s { s with point := .checking }
  | pass : s.point = .entered → s.ring ≠ [] → s.lastDone = true →
      LoopMove s { s with point := .popping }
  | wait : s.point = .entered → s.lastDone = false → LoopMove s { s with point := .idle }
  | hand {t : QueueRun} : s.point = .popping → s.handOver = some t → LoopMove s t
  | feedItself : s.point = .rechecking → s.ring ≠ [] → s.lastDone = true →
      LoopMove s { s with queue := s.queue.feed, point := .idle }
  | leave : s.point = .rechecking → s.ring = [] ∨ s.lastDone = false →
      LoopMove s { s with point := .checking }
  | destroy : s.point = .checking → s.queue.refCounter = 0 → LoopMove s
      { s with queue := { s.queue with pending := false }, deleted := true, point := .idle }
  | live : s.point = .checking → s.queue.refCounter ≠ 0 → LoopMove s { s with point := .idle }

theorem loopMove {s t : QueueRun} (h : s.loopStep = some t) : LoopMove s t := by
  have hempty : s.queue.isEmpty = true ↔ s.ring = [] := CircArray.empty_iff _
  unfold loopStep at h
  cases hp : s.point with
  | idle =>
    simp only [hp] at h
    obtain ⟨hpend, h⟩ := Option.ite_none_right_eq_some.mp h
    exact Option.some.inj h ▸ .invoke hp hpend
  | entered =>
    simp only [hp] at h
    by_cases he : s.queue.isEmpty = true
    · rw [if_pos he] at h
      exact Option.some.inj h ▸ .findEmpty hp (hempty.mp he)
    · rw [if_neg he] at h
      cases hl : s.lastDone with
      | true =>
        rw [hl, if_pos rfl] at h
        exact Option.some.inj h ▸ .pass hp (fun hn => he (hempty.mpr hn)) hl
      | false =>
        rw [hl, if_neg Bool.false_ne_true] at h
        exact Option.some.inj h ▸ .wait hp hl
  | popping =>
    simp only [hp] at h
    exact .hand hp h
  | rechecking =>
    simp only [hp] at h
    obtain ⟨event, hev, ht⟩ := Option.map_eq_some_iff.mp h
    have hl : s.lastDone = s.complete event := by
      unfold lastDone
      rw [hev]
      rfl
    by_cases he : s.queue.isEmpty = true
    · rw [if_neg (by simp [he])] at ht
      exact ht ▸ .leave hp (Or.inl (hempty.mp he))
    · cases hc : s.complete event with
      | true =>
        rw [if_pos (by simp [he, hc])] at ht
        exact ht ▸ .feedItself hp (fun hn => he (hempty.mpr hn)) (hl.trans hc)
      | false =>
        rw [if_neg (by simp [hc])] at ht
        exact ht ▸ .leave hp (Or.inr (hl.trans hc))
  | checking =>
    simp only [hp] at h
    by_cases hzero : s.queue.refCounter = 0
    · rw [if_pos (by simp [CommandQueue.checkSelfDestroy, hzero])] at h
      exact Option.some.inj h ▸ .destroy hp hzero
    · rw [if_neg (by simp [CommandQueue.checkSelfDestroy, hzero])] at h
      exact Option.some.inj h ▸ .live hp hzero

theorem Served.loop {s t : QueueRun} (h : Served s) (hm : LoopMove s t) : Served t := by
  cases hm with
  | invoke hp hpend =>
    exact ⟨h.order, h.sub, h.numbered, h.fresh, h.last, h.done, (nomatch ·), fun _ => by simp,
      h.dead⟩
  | findEmpty hp hring =>
    exact ⟨h.order, h.sub, h.numbered, h.fresh, h.last, h.done, (nomatch ·),
      fun _ _ hne => absurd hring hne, h.dead⟩
  | pass hp hring hl =>
    exact ⟨h.order, h.sub, h.numbered, h.fresh, h.last, h.done, fun _ => hl, fun _ => by simp,
      h.dead⟩
  | wait hp hl =>
    exact ⟨h.order, h.sub, h.numbered, h.fresh, h.last, h.done, (nomatch ·),
      fun _ _ _ hd => absurd (hl.symm.trans hd) (by simp), h.dead⟩
  | hand hp ht => exact h.handOver hp ht
  | feedItself hp hring hl =>
    exact ⟨h.order, h.sub, h.numbered, h.fresh, h.last, h.done, (nomatch ·), fun _ _ _ _ => rfl,
      h.dead⟩
  | leave hp hor =>
    refine ⟨h.order, h.sub, h.numbered, h.fresh, h.last, h.done, (nomatch ·), ?_, h.dead⟩
    intro _ _ hne hd
    obtain hnil | hl := hor
    · exact absurd hnil hne
    · exact absurd (hl.symm.trans hd) (by simp)
  | destroy hp hzero =>
    exact ⟨h.order, h.sub, h.numbered, h.fresh, h.last, h.done, (nomatch ·),
      fun hd => absurd hd (by simp), fun _ => hzero⟩
  | live hp hone =>
    exact ⟨h.order, h.sub, h.numbered, h.fresh, h.last, h.done, (nomatch ·),
      fun hd _ => h.wake hd (Or.inr hp), h.dead⟩

/-! ## The steps of the machine -/

inductive QueueMove (s : QueueRun) : QueueLabel → QueueRun → Prop
  | submit (body : CommandBody) : s.deleted = false → QueueMove s (.submit body) (s.submit body)
  | release : s.deleted = false → QueueMove s .release { s with queue := s.queue.refCntDown }
  | loop {t : QueueRun} : s.deleted = false → LoopMove s t → QueueMove s .loop t
  | complete (event : ℕ) : s.complete event = false →
      (∃ c ∈ s.handed, c.event = event ∧ c.body.isNdrange = true) →
      QueueMove s (.complete event) (s.setAsComplete event)

theorem queueMove {anywhere : Bool} {s t : QueueRun} {l : QueueLabel}
    (h : (queueLoop anywhere).next s l = some t) : QueueMove s l t := by
  cases l with
  | submit body =>
    obtain ⟨hd, h⟩ := Option.ite_none_left_eq_some.mp h
    exact Option.some.inj h ▸ .submit body (by simpa using hd)
  | release =>
    obtain ⟨hd, h⟩ := Option.ite_none_left_eq_some.mp h
    exact Option.some.inj h ▸ .release (by simpa using hd)
  | loop =>
    obtain ⟨hd, h⟩ := Option.ite_none_left_eq_some.mp h
    exact .loop (by simpa using hd) (loopMove h)
  | complete event =>
    obtain ⟨⟨-, hc, hh⟩, h⟩ := Option.ite_none_right_eq_some.mp h
    exact Option.some.inj h ▸ .complete event hc hh

theorem Served.step {s t : QueueRun} {l : QueueLabel} (h : Served s) (hm : QueueMove s l t) :
    Served t := by
  cases hm with
  | submit body _ => exact h.submit body
  | release _ => exact h.refCntDown
  | loop _ hl => exact h.loop hl
  | complete event _ _ => exact h.setAsComplete event

theorem served {anywhere : Bool} {P : QueueRun → QueueLabel → Prop} {s : QueueRun}
    (h : (queueLoop anywhere).ReachableWhere P s) : Served s :=
  h.invariant (fun _ hs => hs ▸ Served.new) fun _ _ _ hs _ hn => hs.step (queueMove hn)

end QueueRun

end FpgaMl
