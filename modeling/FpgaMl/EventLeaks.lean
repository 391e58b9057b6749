import Mathlib.Tactic
import FpgaMl.Foundation.Histories
import FpgaMl.EventLifetimes

/-! # The events that stay

An event's counter is the number of its holders, so an event is deleted exactly when nobody holds it.
What can go wrong is a holder that never gives its reference back: a command that its queue has not
taken has left the caller's hands and comes into no other. Each step is entered into two accounts,
of the references and of the commands on their way. -/
namespace FpgaMl
open MachineInt TransitionSystem Holders RefCounter
set_option autoImplicit false

/-- The next step of the call is `ml_submit_cmd`. -/
def EnqueueCall.submits (call : EnqueueCall) : Bool :=
  match call.point with
  | .created => call.body.isNdrange
  | .counted => true
  | _ => false

/-- The command's event is to become the last one of its queue. -/
def CallbackPoint.installs : CallbackPoint → Bool
  | .installing _ _ => true
  | _ => false

theorem CallbackPoint.ne_installing {point : CallbackPoint} (h : point.installs = false) (q : ℕ)
    (cmd : MLCLCommand) : point ≠ .installing q cmd := by
  rintro rfl
  cases h

namespace EventRun

def Unsubmitted (s : EventRun) (e : ℕ) : Prop :=
  ∃ call, s.calls e = some call ∧ call.point.isSubmitted = false

def Queued (s : EventRun) (e : ℕ) : Prop := ∃ q, ∃ cmd ∈ s.ring q, cmd.event = e

def InHand (s : EventRun) (e : ℕ) : Prop := ∃ cmd, s.point.command = some cmd ∧ cmd.event = e

/-- The command of the event is with its caller, in a ring, or with the loop thread. -/
def OnTheWay (s : EventRun) (e : ℕ) : Prop := s.Unsubmitted e ∨ s.Queued e ∨ s.InHand e

/-- The command of the event has not gone to the dispatcher. -/
def Undispatched (s : EventRun) (e : ℕ) : Prop :=
  s.Unsubmitted e ∨ s.Queued e ∨ (s.InHand e ∧ 0 < s.point.ahead)

/-- The call of the event is about to submit to a queue that does not take the command: it is
released, or its ring is full, which `push_back` does not report. -/
def Drops (s : EventRun) (e : ℕ) : Prop :=
  ∃ call, s.calls e = some call ∧ call.submits = true ∧
    ((s.queues call.queue).refCounter < 1 ∨ (s.queues call.queue).ringBuffer.isFull = true)

/-- The command exists, and nothing will come to delete it. -/
def Adrift (s : EventRun) (e : ℕ) : Prop := s.commands e = true ∧ ¬ s.OnTheWay e

/-! ## The accounts -/

/-- What a step does to the references. -/
inductive Exchange (s t : EventRun) : Prop
  | quiet (hcounter : ∀ k, (t.events k).counter = (s.events k).counter)
      (hholds : ∀ k p, t.Holds k p ↔ s.Holds k p)
  | taken (e : ℕ) (p : Party) (hbound : s.count e < 4) (hheld : ∃ p', s.Holds e p')
      (hnew : ¬ s.Holds e p)
      (hcounter : ∀ k, (t.events k).counter =
        if k = e then (s.events e).counter.refCntUp else (s.events k).counter)
      (hholds : ∀ k p', t.Holds k p' ↔ (k = e ∧ p' = p) ∨ s.Holds k p')
  | given (e : ℕ) (p : Party) (hheld : s.Holds e p)
      (hcounter : ∀ k, (t.events k).counter =
        if k = e then (s.events e).counter.refCntDown else (s.events k).counter)
      (hholds : ∀ k p', t.Holds k p' ↔ ¬ (k = e ∧ p' = p) ∧ s.Holds k p')
  | born (hevent : (t.events s.nextEvent).counter = .new)
      (hcounter : ∀ k, k ≠ s.nextEvent → (t.events k).counter = (s.events k).counter)
      (hholds : ∀ k p, t.Holds k p ↔ (k = s.nextEvent ∧ p = .command) ∨ s.Holds k p)

/-- What a step does to the commands on their way. -/
inductive Course (s : EventRun) (l : EventLabel) (t : EventRun) : Prop
  | along (hl : ∀ e, l = .client e → ¬ s.Drops e) (hcommands : t.commands = s.commands)
      (hway : ∀ k, t.OnTheWay k ↔ s.OnTheWay k)
  | made (hl : ∀ e, l ≠ .client e)
      (hcommands : t.commands = Function.update s.commands s.nextEvent true)
      (hway : ∀ k, t.OnTheWay k ↔ k = s.nextEvent ∨ s.OnTheWay k)
  | dropped (e : ℕ) (hl : l = .client e) (hdrops : s.Drops e) (hexists : s.commands e = true)
      (hcommands : t.commands = s.commands) (hway : ∀ k, t.OnTheWay k ↔ k ≠ e ∧ s.OnTheWay k)
  | deleted (e : ℕ) (hl : ∀ e, l ≠ .client e) (hheld : s.OnTheWay e)
      (hcommands : t.commands = Function.update s.commands e false)
      (hway : ∀ k, t.OnTheWay k ↔ k ≠ e ∧ s.OnTheWay k)

structure Account (s : EventRun) (l : EventLabel) (t : EventRun) : Prop where
  exchange : Exchange s t
  course : Course s l t
  undispatched : ∀ k, t.Undispatched k → s.Undispatched k ∨ k = s.nextEvent
  ndranges : ∀ k, t.ndranges k = true → s.ndranges k = true ∨ ¬ t.Undispatched k

section Accounts

variable {s t : EventRun} {l : EventLabel} {e q : ℕ} {call : EnqueueCall} {cmd : MLCLCommand}
  {env : KernelEnv}

/-- The counters stay exact. -/
theorem Exchange.exact (hx : Exchange s t) (h : ∀ k, Exact (s.Holds k) (s.events k).counter)
    (hfresh : ∀ p, ¬ s.Holds s.nextEvent p) (k : ℕ) : Exact (t.Holds k) (t.events k).counter := by
  cases hx with
  | quiet hcounter hholds =>
    rw [hcounter]
    exact (h k).congr (hholds k)
  | taken e p hbound hheld hnew hcounter hholds =>
    rw [hcounter]
    by_cases hk : k = e
    · subst hk
      rw [if_pos rfl]
      obtain ⟨p', hp'⟩ := hheld
      have hfits : (s.events k).counter.counter + 1 < 2 ^ 32 := by
        unfold count at hbound
        omega
      exact (h k).up hfits hp' hnew fun p => (hholds k p).trans (by simp)
    · rw [if_neg hk]
      exact (h k).congr fun p => (hholds k p).trans (by simp [hk])
  | given e p hheld hcounter hholds =>
    rw [hcounter]
    by_cases hk : k = e
    · subst hk
      rw [if_pos rfl]
      exact (h k).down hheld fun p => (hholds k p).trans (by simp)
    · rw [if_neg hk]
      exact (h k).congr fun p => (hholds k p).trans (by simp [hk])
  | born hevent hcounter hholds =>
    by_cases hk : k = s.nextEvent
    · rw [hk, hevent]
      exact exact_new .command fun p => (hholds _ p).trans (by simp [hfresh p])
    · rw [hcounter k hk]
      exact (h k).congr fun p => (hholds k p).trans (by simp [hk])

/-- A command is adrift from the step on in which its queue drops it. -/
theorem Course.adrift (hc : Course s l t) (hfresh : s.commands s.nextEvent = false) (k : ℕ) :
    t.Adrift k ↔ s.Adrift k ∨ (l = .client k ∧ s.Drops k) := by
  unfold Adrift
  cases hc with
  | along hl hcommands hway =>
    have hno : ¬ (l = .client k ∧ s.Drops k) := fun hboth => hl k hboth.1 hboth.2
    rw [hcommands, hway, or_iff_left hno]
  | made hl hcommands hway =>
    have hno : ¬ (l = .client k ∧ s.Drops k) := fun hboth => hl k hboth.1
    rw [hcommands, hway, or_iff_left hno]
    by_cases hk : k = s.nextEvent
    · simp [hk, hfresh]
    · rw [Function.update_of_ne hk, or_iff_right hk]
  | dropped e hl hdrops hexists hcommands hway =>
    rw [hcommands, hway, hl]
    by_cases hk : k = e
    · simp [hk, hexists, hdrops]
    · have hno : ¬ (EventLabel.client e = .client k ∧ s.Drops k) := fun hboth =>
        hk (EventLabel.client.inj hboth.1).symm
      rw [and_iff_right hk, or_iff_left hno]
  | deleted e hl hheld hcommands hway =>
    have hno : ¬ (l = .client k ∧ s.Drops k) := fun hboth => hl k hboth.1
    rw [hcommands, hway, or_iff_left hno]
    by_cases hk : k = e
    · simp [hk, hheld]
    · rw [Function.update_of_ne hk, and_iff_right hk]

/-! ## Entries -/

/-- A step that leaves every command where it is. -/
structure Kept (s t : EventRun) : Prop where
  commands : t.commands = s.commands
  ring : t.ring = s.ring
  unsubmitted : ∀ k, t.Unsubmitted k ↔ s.Unsubmitted k
  command : t.point.command = s.point.command
  ahead : t.point.ahead ≤ s.point.ahead

theorem Kept.account (h : Kept s t) (hl : ∀ e, l = .client e → ¬ s.Drops e) (hx : Exchange s t)
    (hndranges : ∀ k, t.ndranges k = true → s.ndranges k = true ∨ ¬ t.Undispatched k) :
    Account s l t := by
  have hqueued : ∀ k, t.Queued k ↔ s.Queued k := fun k => by
    unfold Queued
    rw [h.ring]
  have hhand : ∀ k, t.InHand k ↔ s.InHand k := fun k => by
    unfold InHand
    rw [h.command]
  refine ⟨hx, .along hl h.commands fun k => ?_, fun k hk => Or.inl ?_, hndranges⟩
  · unfold OnTheWay
    rw [h.unsubmitted, hqueued, hhand]
  · unfold Undispatched at hk ⊢
    rw [h.unsubmitted, hqueued, hhand] at hk
    exact hk.imp_right (Or.imp_right (And.imp_right fun hpos => hpos.trans_le h.ahead))

theorem slot_iff (hlast : ∀ q, (t.queues q).lastEvent = (s.queues q).lastEvent)
    (hs : s.point.installs = false) (ht : t.point.installs = false)
    (k q : ℕ) : t.Holds k (.slot q) ↔ s.Holds k (.slot q) := by
  change (t.queues q).lastEvent = some k ∧ _ ↔ (s.queues q).lastEvent = some k ∧ _
  rw [hlast, and_iff_left (CallbackPoint.ne_installing ht q),
    and_iff_left (CallbackPoint.ne_installing hs q)]

/-- What a call's progress leaves of a property of the places of calls. -/
theorem call_iff (f : CallPoint → Bool) (b : Bool) (hcall : s.calls e = some call)
    {point : CallPoint} (hsame : f point = f call.point)
    (hcalls : t.calls = Function.update s.calls e (some { call with point := point })) (k : ℕ) :
    (∃ call, t.calls k = some call ∧ f call.point = b) ↔
      ∃ call, s.calls k = some call ∧ f call.point = b := by
  rw [hcalls, Function.update_apply]
  split
  · rename_i hk
    subst hk
    constructor
    · rintro ⟨_, heq, hf⟩
      rw [← Option.some.inj heq, hsame] at hf
      exact ⟨call, hcall, hf⟩
    · rintro ⟨other, heq, hf⟩
      rw [← Option.some.inj (hcall.symm.trans heq)] at hf
      exact ⟨_, rfl, hsame.trans hf⟩
  · rfl

theorem submits_iff {call : EnqueueCall} (h : call.submits = true) : call.point.isSubmitted = false := by
  unfold EnqueueCall.submits at h
  split at h
  · rename_i hpoint
    rw [hpoint]
    rfl
  · rename_i hpoint
    rw [hpoint]
    rfl
  · cases h

theorem not_drops (hcall : s.calls e = some call) (hsubmits : call.submits = false) (k : ℕ)
    (hl : EventLabel.client e = .client k) : ¬ s.Drops k := by
  obtain rfl := EventLabel.client.inj hl
  rintro ⟨other, hother, hyes, -⟩
  rw [← Option.some.inj (hcall.symm.trans hother), hsubmits] at hyes
  cases hyes

theorem submits_of_submitted (h : call.point.isSubmitted = true) : call.submits = false :=
  Bool.eq_false_iff.mpr fun hyes => by
    rw [submits_iff hyes] at h
    cases h

/-! ### Calls -/

/-- A call goes on after its submission, with the references it has. -/
theorem account_move (hcall : s.calls e = some call) (hsubmitted : call.point.isSubmitted = true)
    {point : CallPoint} (hpoint : point.isSubmitted = true) (hholds : point.holds = call.point.holds) :
    Account s (.client e) (s.setCall e { call with point := point }) := by
  have hkept : Kept s (s.setCall e { call with point := point }) :=
    ⟨rfl, rfl, call_iff _ _ hcall (hpoint.trans hsubmitted.symm) rfl, rfl, le_rfl⟩
  refine hkept.account (not_drops hcall (submits_of_submitted hsubmitted)) ?_ fun k => Or.inl
  refine .quiet (fun _ => rfl) fun k p => ?_
  cases p with
  | client => exact call_iff _ _ hcall hholds rfl k
  | _ => rfl

/-- A call gives up its reference. -/
theorem account_give (hcall : s.calls e = some call) (hsubmitted : call.point.isSubmitted = true)
    (hheld : call.point.holds = true) {point : CallPoint} (hpoint : point.isSubmitted = true)
    (hgone : point.holds = false) :
    Account s (.client e) ((s.refCntDown e).setCall e { call with point := point }) := by
  have hkept : Kept s ((s.refCntDown e).setCall e { call with point := point }) :=
    ⟨rfl, rfl, call_iff _ _ hcall (hpoint.trans hsubmitted.symm) rfl, rfl, le_rfl⟩
  refine hkept.account (not_drops hcall (submits_of_submitted hsubmitted)) ?_ fun k => Or.inl
  refine .given e .client ⟨call, hcall, hheld⟩ (counter_refCntDown s e) fun k p => ?_
  cases p with
  | client =>
    change (∃ call', ((s.refCntDown e).setCall e { call with point := point }).calls k = some call' ∧
      call'.point.holds = true) ↔ _
    rw [calls_setCall]
    by_cases hk : k = e
    · subst hk
      simp [hgone]
    · rw [if_neg hk, and_iff_right fun hboth => hk hboth.1]
      rfl
  | _ =>
    rw [and_iff_right fun hboth => by cases hboth.2]
    rfl

theorem account_countUp (h : s.Sound) (hcall : s.calls e = some call)
    (hpoint : call.point = .created) (hbody : call.body.isNdrange = false) :
    Account s (.client e) ((s.refCntUp e).setCall e { call with point := .counted }) := by
  have hunsubmitted : call.point.isSubmitted = false := by rw [hpoint]; rfl
  have hsubmits : call.submits = false := by
    unfold EnqueueCall.submits
    rw [hpoint]
    exact hbody
  have hnew : ¬ s.Holds e .client := by
    rintro ⟨other, hother, hholds⟩
    rw [← Option.some.inj (hcall.symm.trans hother), hpoint] at hholds
    cases hholds
  have hbound := h.bounded.call e call hcall
  rw [hpoint] at hbound
  have hbound : s.count e < 4 := by
    change s.count e + 3 ≤ 4 at hbound
    omega
  have hkept : Kept s ((s.refCntUp e).setCall e { call with point := .counted }) :=
    ⟨rfl, rfl, call_iff _ _ hcall (show CallPoint.counted.isSubmitted = _ from hunsubmitted.symm) rfl,
      rfl, le_rfl⟩
  refine hkept.account (not_drops hcall hsubmits) ?_ fun k => Or.inl
  refine .taken e .client hbound ⟨.command, h.linked.call e call hcall hunsubmitted⟩ hnew
    (counter_refCntUp s e) fun k p => ?_
  cases p with
  | client =>
    change (∃ call', ((s.refCntUp e).setCall e { call with point := .counted }).calls k = some call' ∧
      call'.point.holds = true) ↔ _
    rw [calls_setCall]
    by_cases hk : k = e
    · subst hk
      simp [CallPoint.holds]
    · rw [if_neg hk, or_iff_right fun hboth => hk hboth.1]
      rfl
  | _ =>
    rw [or_iff_right fun hboth => by cases hboth.2]
    rfl

/-- `push_back`, with the case that it drops the command and does not say so. -/
theorem pushBack_taken (queue : CommandQueue) (cmd : MLCLCommand) :
    ((queue.refCounter < 1 ∨ queue.ringBuffer.isFull = true) ∧
        (queue.pushBack cmd).2.ringBuffer.toList = queue.ringBuffer.toList) ∨
      (¬ (queue.refCounter < 1 ∨ queue.ringBuffer.isFull = true) ∧ (queue.pushBack cmd).1 = none ∧
        (queue.pushBack cmd).2.ringBuffer.toList = queue.ringBuffer.toList ++ [cmd]) := by
  unfold CommandQueue.pushBack
  split
  · rename_i hreleased
    exact Or.inl ⟨Or.inl hreleased, rfl⟩
  · rename_i hreleased
    by_cases hfull : queue.ringBuffer.isFull = true
    · left
      refine ⟨Or.inr hfull, ?_⟩
      change (queue.ringBuffer.pushBack cmd).2.toList = _
      rw [CircArray.pushBack_full _ _ hfull]
    · right
      refine ⟨fun hor => hor.elim hreleased hfull, rfl, ?_⟩
      exact CircArray.toList_pushBack _ _ (Bool.eq_false_iff.mpr hfull)

theorem Unsubmitted.apart (h : s.Sound) (hu : s.Unsubmitted e) : ¬ s.Queued e ∧ ¬ s.InHand e := by
  obtain ⟨call, hcall, hunsubmitted⟩ := hu
  constructor
  · rintro ⟨q, cmd, hcmd, heq⟩
    exact (h.linked.ring q cmd hcmd).2.ne hcall hunsubmitted heq
  · rintro ⟨cmd, hcmd, heq⟩
    obtain ⟨-, ⟨q, hs⟩, -⟩ := h.linked.current cmd hcmd
    exact hs.ne hcall hunsubmitted heq

theorem unsubmitted_iff {point : CallPoint} (hpoint : point.isSubmitted = true)
    (hcalls : t.calls = Function.update s.calls e (some { call with point := point })) (k : ℕ) :
    t.Unsubmitted k ↔ k ≠ e ∧ s.Unsubmitted k := by
  unfold Unsubmitted
  rw [hcalls]
  by_cases hk : k = e
  · subst hk
    simp [hpoint]
  · rw [Function.update_of_ne hk, and_iff_right hk]

/-- The queue does not take the command. -/
theorem account_dropped (h : s.Sound) (hcall : s.calls e = some call) (hunsubmitted : s.Unsubmitted e)
    (hdrops : s.Drops e) {point : CallPoint} (hsubmitted : point.isSubmitted = true)
    (hcalls : t.calls = Function.update s.calls e (some { call with point := point }))
    (hring : t.ring = s.ring) (hpoint : t.point = s.point) (hcommands : t.commands = s.commands)
    (hndranges : t.ndranges = s.ndranges) (hx : Exchange s t) : Account s (.client e) t := by
  have hunsub := unsubmitted_iff hsubmitted hcalls
  have hqueued : ∀ k, t.Queued k ↔ s.Queued k := fun k => by
    unfold Queued
    rw [hring]
  have hhand : ∀ k, t.InHand k ↔ s.InHand k := fun k => by
    unfold InHand
    rw [hpoint]
  obtain ⟨hnotQueued, hnotHand⟩ := hunsubmitted.apart h
  obtain ⟨_, hother, hpending⟩ := hunsubmitted
  refine ⟨hx, .dropped e rfl hdrops (h.linked.call e _ hother hpending) hcommands fun k => ?_,
    fun k hk => Or.inl ?_, fun k hk => Or.inl (hndranges ▸ hk)⟩
  · unfold OnTheWay
    rw [hunsub, hqueued, hhand]
    by_cases hk : k = e
    · subst hk
      exact iff_of_false (fun hor => hor.elim (fun hu => hu.1 rfl)
        fun hor => hor.elim hnotQueued hnotHand) fun hboth => hboth.1 rfl
    · rw [and_iff_right hk, and_iff_right hk]
  · unfold Undispatched at hk ⊢
    rw [hunsub, hqueued, hhand, hpoint] at hk
    exact hk.imp_left And.right

/-- The command goes from its caller into the ring. -/
theorem account_pushed (hcall : s.calls e = some call) (hunsubmitted : s.Unsubmitted e)
    (htakes : ¬ s.Drops e) {point : CallPoint} (hsubmitted : point.isSubmitted = true)
    (hcalls : t.calls = Function.update s.calls e (some { call with point := point }))
    (hring : t.ring = Function.update s.ring call.queue (s.ring call.queue ++ [⟨e, call.body⟩]))
    (hpoint : t.point = s.point) (hcommands : t.commands = s.commands)
    (hndranges : t.ndranges = s.ndranges) (hx : Exchange s t) : Account s (.client e) t := by
  have hunsub := unsubmitted_iff hsubmitted hcalls
  have hqueued : ∀ k, t.Queued k ↔ k = e ∨ s.Queued k := by
    intro k
    unfold Queued
    rw [hring]
    constructor
    · rintro ⟨q, cmd, hcmd, rfl⟩
      rw [Function.update_apply] at hcmd
      split at hcmd
      · obtain hcmd | hcmd := List.mem_append.mp hcmd
        · exact Or.inr ⟨_, cmd, hcmd, rfl⟩
        · exact Or.inl (congrArg MLCLCommand.event (List.mem_singleton.mp hcmd))
      · exact Or.inr ⟨q, cmd, hcmd, rfl⟩
    · rintro (rfl | ⟨q, cmd, hcmd, rfl⟩)
      · refine ⟨call.queue, ⟨k, call.body⟩, ?_, rfl⟩
        rw [Function.update_self]
        exact List.mem_append_right _ (List.mem_singleton_self _)
      · refine ⟨q, cmd, ?_, rfl⟩
        rw [Function.update_apply]
        split
        · rename_i hq
          exact List.mem_append_left _ (hq ▸ hcmd)
        · exact hcmd
  have hhand : ∀ k, t.InHand k ↔ s.InHand k := fun k => by
    unfold InHand
    rw [hpoint]
  have hl : ∀ k, EventLabel.client e = .client k → ¬ s.Drops k := fun k hk =>
    EventLabel.client.inj hk ▸ htakes
  refine ⟨hx, .along hl hcommands fun k => ?_, fun k hk => Or.inl ?_,
    fun k hk => Or.inl (hndranges ▸ hk)⟩
  · unfold OnTheWay
    rw [hunsub, hqueued, hhand]
    by_cases hk : k = e
    · subst hk
      exact iff_of_true (Or.inr (Or.inl (Or.inl rfl))) (Or.inl hunsubmitted)
    · rw [and_iff_right hk, or_iff_right hk]
  · unfold Undispatched at hk ⊢
    rw [hunsub, hqueued, hhand, hpoint] at hk
    obtain ⟨-, hu⟩ | (rfl | hq) | hhand := hk
    · exact Or.inl hu
    · exact Or.inl hunsubmitted
    · exact Or.inr (Or.inl hq)
    · exact Or.inr (Or.inr hhand)

theorem account_submit (h : s.Sound) (hcall : s.calls e = some call) (hsubmits : call.submits = true)
    {released taken : CallPoint}
    (hreleased : released.isSubmitted = true ∧ released.holds = call.point.holds)
    (htaken : taken.isSubmitted = true ∧ taken.holds = call.point.holds)
    (hn : s.submit e call released taken = some t) : Account s (.client e) t := by
  have hunsubmitted : s.Unsubmitted e := ⟨call, hcall, submits_iff hsubmits⟩
  unfold EventRun.submit at hn
  split at hn
  · cases hn
  obtain ⟨hlast, -⟩ := pushBack_cases (s.queues call.queue) ⟨e, call.body⟩
  have hring := pushBack_taken (s.queues call.queue) ⟨e, call.body⟩
  cases hpush : (s.queues call.queue).pushBack ⟨e, call.body⟩ with
  | mk rc queue =>
    rw [hpush] at hn hlast hring
    dsimp only at hn hlast hring
    obtain ⟨point, hsubmitted, hholds, ht⟩ : ∃ point : CallPoint, point.isSubmitted = true ∧
        point.holds = call.point.holds ∧
        (s.setQueue call.queue queue).setCall e { call with point := point } = t := by
      rw [← Option.some.inj hn]
      split
      · exact ⟨released, hreleased.1, hreleased.2, rfl⟩
      · exact ⟨taken, htaken.1, htaken.2, rfl⟩
    subst ht
    have hquiet : Exchange s ((s.setQueue call.queue queue).setCall e { call with point := point }) := by
      refine .quiet (fun _ => rfl) fun k p => ?_
      cases p with
      | client => exact call_iff _ _ hcall hholds rfl k
      | slot q =>
        change ((s.setQueue call.queue queue).queues q).lastEvent = some k ∧ _ ↔ _
        rw [lastEvent_setQueue hlast]
        rfl
      | _ => rfl
    have hrings : ((s.setQueue call.queue queue).setCall e { call with point := point }).ring =
        Function.update s.ring call.queue queue.ringBuffer.toList := ring_setQueue s call.queue queue
    obtain ⟨hdrops, hring⟩ | ⟨htakes, -, hring⟩ := hring
    · refine account_dropped h hcall hunsubmitted ⟨call, hcall, hsubmits, hdrops⟩ hsubmitted rfl ?_
        rfl rfl rfl hquiet
      rw [hrings, hring]
      exact Function.update_eq_self ..
    · refine account_pushed hcall hunsubmitted ?_ hsubmitted rfl ?_ rfl rfl rfl hquiet
      · rintro ⟨other, hother, -, hdrops⟩
        rw [← Option.some.inj (hcall.symm.trans hother)] at hdrops
        exact htakes hdrops
      · rw [hrings, hring]
        rfl

theorem account_client (h : s.Sound) (hcall : s.calls e = some call)
    (hn : s.clientStep e call = some t) : Account s (.client e) t := by
  unfold clientStep at hn
  split at hn
  · rename_i hpoint
    split at hn
    · rename_i hbody
      have hsubmits : call.submits = true := by
        unfold EnqueueCall.submits
        rw [hpoint]
        exact hbody
      exact account_submit h hcall hsubmits (by rw [hpoint]; exact ⟨rfl, rfl⟩)
        (by rw [hpoint]; exact ⟨rfl, rfl⟩) hn
    · rename_i hbody
      cases hn
      exact account_countUp h hcall hpoint (Bool.eq_false_iff.mpr hbody)
  · rename_i hpoint
    have hsubmits : call.submits = true := by
      unfold EnqueueCall.submits
      rw [hpoint]
    exact account_submit h hcall hsubmits (by rw [hpoint]; exact ⟨rfl, rfl⟩)
      (by rw [hpoint]; exact ⟨rfl, rfl⟩) hn
  · rename_i hpoint
    cases hn
    exact account_give hcall (by rw [hpoint]; rfl) (by rw [hpoint]; rfl) rfl rfl
  · rename_i hpoint
    have hsubmitted : call.point.isSubmitted = true := by rw [hpoint]; rfl
    split at hn
    · cases hn
      exact account_move hcall hsubmitted rfl (by rw [hpoint]; rfl)
    · split at hn
      · cases hn
        exact account_move hcall hsubmitted rfl (by rw [hpoint]; rfl)
      · cases hn
  · rename_i hpoint
    cases hn
    exact account_move hcall (by rw [hpoint]; rfl) rfl (by rw [hpoint]; rfl)
  · rename_i errCode hpoint
    have hsubmitted : call.point.isSubmitted = true := by rw [hpoint]; rfl
    split at hn
    · cases hn
      exact account_move hcall hsubmitted rfl (by rw [hpoint]; rfl)
    · cases hn
      exact account_give hcall hsubmitted (by rw [hpoint]; rfl) rfl rfl
  · cases hn

theorem Sound.unheld (h : s.Sound) (he : s.nextEvent ≤ e) (p : Party) : ¬ s.Holds e p := by
  intro hp
  have hpos := (h.covered.covers e).pos hp
  rw [h.covered.fresh e he] at hpos
  exact lt_irrefl 0 hpos

theorem account_enqueue (h : s.Sound) (body : CommandBody) (blocking userEvent : Bool)
    (hl : ∀ e, l ≠ .client e) : Account s l (s.enqueue q body blocking userEvent) := by
  obtain ⟨made, -, -, hcreated, hmade⟩ := s.calls_enqueue q body blocking userEvent
  have hcommands : (s.enqueue q body blocking userEvent).commands =
      Function.update s.commands s.nextEvent true := rfl
  have hunsub : ∀ k, (s.enqueue q body blocking userEvent).Unsubmitted k ↔
      k = s.nextEvent ∨ s.Unsubmitted k := by
    intro k
    unfold Unsubmitted
    rw [hmade]
    by_cases hk : k = s.nextEvent
    · subst hk
      simp [hcreated, CallPoint.isSubmitted]
    · rw [Function.update_of_ne hk, or_iff_right hk]
  refine ⟨.born ?_ (fun k hk => ?_) fun k p => ?_, .made hl hcommands fun k => ?_, fun k hk => ?_,
    fun k => Or.inl⟩
  · change (Function.update s.events s.nextEvent ClEvent.new s.nextEvent).counter = _
    rw [Function.update_self]
    rfl
  · exact congrArg ClEvent.counter (Function.update_of_ne hk ..)
  · cases p with
    | command =>
      change Function.update s.commands s.nextEvent true k = true ↔ _ ∨ s.commands k = true
      by_cases hk : k = s.nextEvent
      · simp [hk]
      · rw [Function.update_of_ne hk, or_iff_right fun hboth => hk hboth.1]
    | client =>
      rw [or_iff_right fun hboth => by cases hboth.2]
      change (∃ call, (s.enqueue q body blocking userEvent).calls k = some call ∧ _) ↔ _
      rw [hmade]
      by_cases hk : k = s.nextEvent
      · subst hk
        refine iff_of_false ?_ (h.unheld le_rfl .client)
        simp [hcreated, CallPoint.holds]
      · rw [Function.update_of_ne hk]
        rfl
    | slot q' =>
      rw [or_iff_right fun hboth => by cases hboth.2]
      rfl
    | ndrange =>
      rw [or_iff_right fun hboth => by cases hboth.2]
      rfl
  · unfold OnTheWay
    rw [hunsub, or_assoc]
    rfl
  · unfold Undispatched at hk
    rw [hunsub, or_assoc] at hk
    exact hk.symm

/-! ### The loop thread -/

/-- A step in which only the loop thread's place, codes and states change. -/
structure Untouched (s t : EventRun) : Prop where
  ring : t.ring = s.ring
  last : ∀ q, (t.queues q).lastEvent = (s.queues q).lastEvent
  counter : ∀ k, (t.events k).counter = (s.events k).counter
  commands : t.commands = s.commands
  ndranges : t.ndranges = s.ndranges
  calls : t.calls = s.calls

theorem Untouched.kept (h : Untouched s t) (hcommand : t.point.command = s.point.command)
    (hahead : t.point.ahead ≤ s.point.ahead) : Kept s t :=
  ⟨h.commands, h.ring, fun k => by unfold Unsubmitted; rw [h.calls], hcommand, hahead⟩

theorem Untouched.account (h : Untouched s t) (hl : ∀ e, l ≠ .client e)
    (hcommand : t.point.command = s.point.command) (hahead : t.point.ahead ≤ s.point.ahead)
    (hslot : ∀ k q, t.Holds k (.slot q) ↔ s.Holds k (.slot q)) : Account s l t := by
  refine (h.kept hcommand hahead).account (fun e he => absurd he (hl e)) ?_ fun k hk =>
    Or.inl (h.ndranges ▸ hk)
  refine .quiet h.counter fun k p => ?_
  cases p with
  | command => exact Iff.of_eq (congrArg (· = true) (congrFun h.commands k))
  | client =>
    change (∃ call, t.calls k = some call ∧ _) ↔ _
    rw [h.calls]
    rfl
  | slot q => exact hslot k q
  | ndrange => exact Iff.of_eq (congrArg (· = true) (congrFun h.ndranges k))

/-- The loop thread goes on, and is not in `set_last_event`. -/
theorem Untouched.advance (h : Untouched s t) (hl : ∀ e, l ≠ .client e)
    (hcommand : t.point.command = s.point.command) (hahead : t.point.ahead = 0)
    (hs : s.point.installs = false) (ht : t.point.installs = false) :
    Account s l t :=
  h.account hl hcommand (hahead ▸ Nat.zero_le _) (slot_iff h.last hs ht)

theorem untouched_setQueue {queue : CommandQueue} (hring : queue.ringBuffer.toList = s.ring q)
    (hlast : queue.lastEvent = (s.queues q).lastEvent) : Untouched s (s.setQueue q queue) :=
  ⟨by rw [ring_setQueue, hring, Function.update_eq_self], lastEvent_setQueue hlast, fun _ => rfl, rfl,
    rfl, rfl⟩

theorem Untouched.goto (h : Untouched s t) (point : CallbackPoint) : Untouched s (t.goto point) :=
  ⟨h.ring, h.last, h.counter, h.commands, h.ndranges, h.calls⟩

theorem untouched_setEvent {event : ClEvent} (hcounter : event.counter = (s.events e).counter) :
    Untouched s (s.setEvent e event) := by
  refine ⟨rfl, fun _ => rfl, fun k => ?_, rfl, rfl, rfl⟩
  unfold setEvent
  dsimp only
  rw [Function.update_apply]
  split
  · rename_i hk
    rw [hk, hcounter]
  · rfl

theorem Untouched.trans {r : EventRun} (h : Untouched s t) (ht : Untouched t r) : Untouched s r :=
  ⟨ht.ring.trans h.ring, fun q => (ht.last q).trans (h.last q),
    fun k => (ht.counter k).trans (h.counter k), ht.commands.trans h.commands,
    ht.ndranges.trans h.ndranges, ht.calls.trans h.calls⟩

theorem Untouched.refl (s : EventRun) : Untouched s s :=
  ⟨rfl, fun _ => rfl, fun _ => rfl, rfl, rfl, rfl⟩

theorem untouched_setAsComplete (hn : s.setAsComplete e = some t) :
    Untouched s t ∧ t.point = s.point := by
  obtain ⟨q, -, rfl⟩ := Option.map_eq_some_iff.mp hn
  have hdone : Untouched s (s.setEvent e { s.events e with complete := true }) :=
    untouched_setEvent rfl
  dsimp only
  split
  · exact ⟨hdone, rfl⟩
  · exact ⟨hdone.trans (untouched_setQueue rfl rfl), rfl⟩

theorem account_pop (hl : ∀ e, l ≠ .client e) (hpoint : s.point = .popping q) {queue : CommandQueue}
    (hpop : (s.queues q).popFront = some (cmd, queue)) :
    Account s l ((s.setQueue q queue).goto (.retiring q cmd)) := by
  obtain ⟨hlast, hfirst⟩ := popFront_cases hpop
  have hfirst : s.ring q = cmd :: queue.ringBuffer.toList := hfirst
  have hring : ((s.setQueue q queue).goto (.retiring q cmd)).ring =
      Function.update s.ring q queue.ringBuffer.toList := ring_setQueue s q queue
  have hnotHand : ∀ k, ¬ s.InHand k := by
    rintro k ⟨other, hother, -⟩
    rw [hpoint] at hother
    cases hother
  have hqueued : ∀ k, s.Queued k ↔ ((s.setQueue q queue).goto (.retiring q cmd)).Queued k ∨
      ((s.setQueue q queue).goto (.retiring q cmd)).InHand k := by
    intro k
    unfold Queued
    rw [hring]
    constructor
    · rintro ⟨q', other, hother, rfl⟩
      by_cases hq : q' = q
      · rw [hq, hfirst] at hother
        obtain rfl | hother := List.mem_cons.mp hother
        · exact Or.inr ⟨other, rfl, rfl⟩
        · exact Or.inl ⟨q, other, by rwa [Function.update_self], rfl⟩
      · exact Or.inl ⟨q', other, by rwa [Function.update_of_ne hq], rfl⟩
    · rintro (⟨q', other, hother, rfl⟩ | ⟨other, hother, rfl⟩)
      · rw [Function.update_apply] at hother
        split at hother
        · exact ⟨q, other, hfirst ▸ List.mem_cons_of_mem _ hother, rfl⟩
        · exact ⟨q', other, hother, rfl⟩
      · rw [← Option.some.inj hother]
        exact ⟨q, cmd, hfirst ▸ List.mem_cons_self .., rfl⟩
  refine ⟨.quiet (fun _ => rfl) fun k p => ?_, .along (fun e he => absurd he (hl e)) rfl fun k => ?_,
    fun k hk => Or.inl ?_, fun k => Or.inl⟩
  · cases p with
    | slot q' =>
      exact slot_iff (s := s) (t := (s.setQueue q queue).goto (.retiring q cmd))
        (lastEvent_setQueue hlast) (by rw [hpoint]; rfl) rfl k q'
    | _ => rfl
  · unfold OnTheWay
    rw [hqueued, or_iff_left (hnotHand k)]
    rfl
  · refine hk.imp id fun hor => Or.inl ((hqueued k).mpr ?_)
    exact hor.imp id And.left

/-- The slot gives up its reference to the event before. -/
theorem account_retire (hl : ∀ e, l ≠ .client e) (hpoint : s.point = .retiring q cmd)
    (hlast : (s.queues q).lastEvent = some e) :
    Account s l ((s.refCntDown e).goto (.installing q cmd)) := by
  have hinstalled : ∀ q' other, s.point ≠ .installing q' other :=
    CallbackPoint.ne_installing (by rw [hpoint]; rfl)
  have hkept : Kept s ((s.refCntDown e).goto (.installing q cmd)) :=
    ⟨rfl, rfl, fun _ => Iff.rfl, by rw [hpoint]; rfl, by rw [hpoint]; exact le_rfl⟩
  refine hkept.account (fun k hk => absurd hk (hl k)) ?_ fun k => Or.inl
  refine .given e (.slot q) ⟨hlast, hinstalled q⟩ (counter_refCntDown s e) fun k p => ?_
  cases p with
  | slot q' =>
    by_cases hq : q' = q
    · subst hq
      refine iff_of_false (fun hp => hp.2 cmd rfl) fun hboth => hboth.1 ⟨?_, rfl⟩
      exact Option.some.inj (hboth.2.1.symm.trans hlast)
    · have hother : ∀ other, CallbackPoint.installing q cmd ≠ .installing q' other := fun other heq =>
        hq (CallbackPoint.installing.inj heq).1.symm
      rw [and_iff_right fun hboth => hq (Party.slot.inj hboth.2)]
      exact and_congr_right fun _ => iff_of_true hother (hinstalled q')
  | _ =>
    rw [and_iff_right fun hboth => by cases hboth.2]
    rfl

/-- The slot takes a reference to the event of the popped command. -/
theorem account_install (h : s.Sound) (hl : ∀ e, l ≠ .client e) (hpoint : s.point = .installing q cmd)
    (hn : s.loopStep env = some t) : Account s l t := by
  unfold loopStep at hn
  rw [hpoint] at hn
  cases hn
  have hcommand : s.point.command = some cmd := by rw [hpoint]; rfl
  have hbound := h.bounded.current cmd hcommand
  rw [hpoint] at hbound
  have hbound : s.count cmd.event < 4 := by
    change s.count cmd.event + 2 ≤ 4 at hbound
    omega
  refine Kept.account ⟨rfl, ?_, fun _ => Iff.rfl, by rw [hpoint]; rfl,
    by rw [hpoint]; exact Nat.le_succ 1⟩ (fun k hk => absurd hk (hl k)) ?_ fun k => Or.inl
  · exact (ring_setQueue s q _).trans (Function.update_eq_self ..)
  refine .taken cmd.event (.slot q) hbound ⟨.command, (h.linked.current cmd hcommand).1⟩
    (fun hp => hp.2 cmd hpoint) (fun k => ?_) fun k p => ?_
  · refine Eq.trans ?_ (counter_refCntUp (s.setQueue q ((s.queues q).setLastEvent cmd.event)) cmd.event k)
    unfold setEvent EventRun.goto
    dsimp only
    rw [Function.update_apply]
    split
    · rename_i hk
      rw [hk]
    · rfl
  · cases p with
    | slot q' =>
      change (Function.update s.queues q _ q').lastEvent = some k ∧
        (∀ other, CallbackPoint.dispatching q cmd ≠ .installing q' other) ↔
          _ ∨ (s.queues q').lastEvent = some k ∧ ∀ other, s.point ≠ .installing q' other
      rw [and_iff_left (CallbackPoint.ne_installing rfl q'), hpoint, Function.update_apply]
      by_cases hq : q' = q
      · subst hq
        rw [if_pos rfl, or_iff_left fun hp => hp.2 cmd rfl, and_iff_left rfl]
        exact Option.some_inj.trans eq_comm
      · have hother : ∀ other, CallbackPoint.installing q cmd ≠ .installing q' other := fun other heq =>
          hq (CallbackPoint.installing.inj heq).1.symm
        rw [if_neg hq, and_iff_left hother, or_iff_right fun hboth => hq (Party.slot.inj hboth.2)]
    | _ =>
      rw [or_iff_right fun hboth => by cases hboth.2]
      rfl

/-- `handle_a_cmd`; an `NDRange` takes a reference of its own. -/
theorem account_dispatch (h : s.Sound) (hl : ∀ e, l ≠ .client e)
    (hawaits : ∀ k, s.ndranges k = true → ¬ s.Undispatched k)
    (hpoint : s.point = .dispatching q cmd) (env : KernelEnv) :
    Account s l (s.dispatch q cmd env) := by
  have hcommand : s.point.command = some cmd := by rw [hpoint]; rfl
  have hs : s.point.installs = false := by
    rw [hpoint]
    rfl
  have hmoved : ∀ {t : EventRun} {point : CallbackPoint}, Untouched s t → t.point = point →
      point.command = some cmd → point.ahead = 0 → point.installs = false →
      Account s l t := fun ht hp hsame hahead hnot =>
    ht.advance hl (by rw [hp, hsame, hcommand]) (by rw [hp, hahead]) hs (hp ▸ hnot)
  have hset : ∀ (errCode : ℤ) (buffers : Buffers) (handled : ℕ → Option (Buffers × KernelEnv)),
      Untouched s { (s.goto (.completing q cmd)).setError cmd.event errCode with
        buffers := buffers, handled := handled } := by
    intro errCode _ _
    have hx : Untouched s ((s.goto (.completing q cmd)).setError cmd.event errCode) :=
      ((Untouched.refl s).goto _).trans (untouched_setEvent rfl)
    exact ⟨hx.ring, hx.last, hx.counter, rfl, rfl, rfl⟩
  unfold EventRun.dispatch
  split
  · exact hmoved (hset _ _ _) rfl rfl rfl rfl
  · exact hmoved (hset _ _ _) rfl rfl rfl rfl
  · split
    · exact hmoved ((Untouched.refl s).goto _) rfl rfl rfl rfl
    · exact hmoved ((Untouched.refl s).goto _) rfl rfl rfl rfl
    · obtain ⟨hexists, ⟨q', hsub⟩, hapart⟩ := h.linked.current cmd hcommand
      have hahead : s.Undispatched cmd.event :=
        Or.inr (Or.inr ⟨⟨cmd, hcommand, rfl⟩, by rw [hpoint]; exact Nat.one_pos⟩)
      have hbound := h.bounded.current cmd hcommand
      rw [hpoint] at hbound
      have hbound : s.count cmd.event < 4 := by
        change s.count cmd.event + 1 ≤ 4 at hbound
        omega
      refine Kept.account ⟨rfl, rfl, fun _ => Iff.rfl, by rw [hcommand]; rfl, Nat.zero_le _⟩
        (fun k hk => absurd hk (hl k)) ?_ fun k hk => ?_
      · refine .taken cmd.event .ndrange hbound ⟨.command, hexists⟩
          (fun hp => hawaits _ hp hahead) (counter_refCntUp s cmd.event) fun k p => ?_
        cases p with
        | ndrange =>
          change Function.update s.ndranges cmd.event true k = true ↔ _ ∨ s.ndranges k = true
          by_cases hk : k = cmd.event
          · simp [hk]
          · rw [Function.update_of_ne hk, or_iff_right fun hboth => hk hboth.1]
        | slot q' =>
          rw [or_iff_right fun hboth => by cases hboth.2]
          exact slot_iff (s := s) (t := s.goto (.rechecking q cmd)) (fun _ => rfl) hs
            rfl k q'
        | _ =>
          rw [or_iff_right fun hboth => by cases hboth.2]
          rfl
      · change Function.update s.ndranges cmd.event true k = true at hk
        rw [Function.update_apply] at hk
        split at hk
        · -- a dispatched command is in no other place
          rename_i hself
          subst hself
          refine Or.inr fun hu => ?_
          obtain ⟨call, hcall, hpending⟩ | ⟨q'', other, hother, heq⟩ | ⟨-, hpos⟩ := hu
          · exact hsub.ne hcall hpending rfl
          · exact hapart q'' other hother heq
          · exact absurd hpos (lt_irrefl 0)
        · exact Or.inl hk
  · exact hmoved ((Untouched.refl s).goto _) rfl rfl rfl rfl

/-- `delete cmd`. -/
theorem account_delete (h : s.Sound) (hl : ∀ e, l ≠ .client e) (hpoint : s.point = .deleting cmd)
    (hn : s.loopStep env = some t) : Account s l t := by
  unfold loopStep at hn
  rw [hpoint] at hn
  cases hn
  have hcommand : s.point.command = some cmd := by rw [hpoint]; rfl
  obtain ⟨hexists, ⟨q, hsub⟩, hapart⟩ := h.linked.current cmd hcommand
  have hhand : ∀ k, s.InHand k ↔ k = cmd.event := fun k => by
    unfold InHand
    rw [hcommand]
    simp [eq_comm]
  refine ⟨.given cmd.event .command hexists (counter_refCntDown s cmd.event) fun k p => ?_,
    .deleted cmd.event hl (Or.inr (Or.inr ((hhand _).mpr rfl))) rfl fun k => ?_,
    fun k hk => Or.inl ?_, fun k => Or.inl⟩
  · cases p with
    | command =>
      change Function.update s.commands cmd.event false k = true ↔ _ ∧ s.commands k = true
      by_cases hk : k = cmd.event
      · simp [hk]
      · rw [Function.update_of_ne hk, and_iff_right fun hboth => hk hboth.1]
    | slot q' =>
      rw [and_iff_right fun hboth => by cases hboth.2]
      exact slot_iff (s := s) (t := s.goto .idle) (fun _ => rfl) (by rw [hpoint]; rfl) rfl k q'
    | _ =>
      rw [and_iff_right fun hboth => by cases hboth.2]
      rfl
  · unfold OnTheWay
    rw [hhand]
    by_cases hk : k = cmd.event
    · subst hk
      refine iff_of_false ?_ fun hboth => hboth.1 rfl
      rintro (⟨call, hcall, hpending⟩ | ⟨q', other, hother, heq⟩ | ⟨other, hother, -⟩)
      · exact hsub.ne hcall hpending rfl
      · exact hapart q' other hother heq
      · cases hother
    · have hnone : ¬ InHand ({ s.refCntDown cmd.event with
          commands := Function.update s.commands cmd.event false }.goto .idle) k := by
        rintro ⟨other, hother, -⟩
        cases hother
      rw [and_iff_right hk, or_iff_left hnone, or_iff_left hk]
      rfl
  · refine hk.imp id (Or.imp id fun hboth => ?_)
    obtain ⟨⟨other, hother, -⟩, -⟩ := hboth
    cases hother

/-- `~NDRange`. -/
theorem account_finish (h : s.Sound) (hl : ∀ e, l ≠ .client e) (hpoint : s.point = .finishing e)
    (hn : s.loopStep env = some t) : Account s l t := by
  unfold loopStep at hn
  rw [hpoint] at hn
  cases hn
  refine Kept.account ⟨rfl, rfl, fun _ => Iff.rfl, by rw [hpoint]; rfl, Nat.zero_le _⟩
    (fun k hk => absurd hk (hl k)) ?_ fun k hk => Or.inl ?_
  · refine .given e .ndrange (h.linked.finishing e hpoint) (counter_refCntDown s e) fun k p => ?_
    cases p with
    | ndrange =>
      change Function.update s.ndranges e false k = true ↔ _ ∧ s.ndranges k = true
      by_cases hk : k = e
      · simp [hk]
      · rw [Function.update_of_ne hk, and_iff_right fun hboth => hk hboth.1]
    | slot q' =>
      rw [and_iff_right fun hboth => by cases hboth.2]
      exact slot_iff (s := s) (t := s.goto .idle) (fun _ => rfl) (by rw [hpoint]; rfl) rfl k q'
    | _ =>
      rw [and_iff_right fun hboth => by cases hboth.2]
      rfl
  · change Function.update s.ndranges e false k = true at hk
    rw [Function.update_apply] at hk
    split at hk
    · cases hk
    · exact hk

theorem account_loop (h : s.Sound) (hl : ∀ e, l ≠ .client e)
    (hawaits : ∀ k, s.ndranges k = true → ¬ s.Undispatched k) (hn : s.loopStep env = some t) :
    Account s l t := by
  have hpass : ∀ {r : EventRun} {point : CallbackPoint}, Untouched s r →
      point.command = s.point.command → point.ahead = 0 → s.point.installs = false →
      point.installs = false → Account s l (r.goto point) :=
    fun hr hcommand hahead hs hp => (hr.goto _).advance hl hcommand hahead hs hp
  cases hpoint : s.point with
  | installing q cmd => exact account_install h hl hpoint hn
  | deleting cmd => exact account_delete h hl hpoint hn
  | finishing e => exact account_finish h hl hpoint hn
  | idle =>
    simp only [loopStep, hpoint] at hn
    cases hn
  | entered q =>
    simp only [loopStep, hpoint] at hn
    have hs : s.point.installs = false := by rw [hpoint]; rfl
    split at hn
    · cases hn
      exact hpass (Untouched.refl s) (by rw [hpoint]; rfl) rfl hs rfl
    · split at hn <;> cases hn <;>
        exact hpass (Untouched.refl s) (by rw [hpoint]; rfl) rfl hs rfl
  | popping q =>
    simp only [loopStep, hpoint] at hn
    obtain ⟨⟨cmd, queue⟩, hpop, rfl⟩ := Option.map_eq_some_iff.mp hn
    exact account_pop hl hpoint hpop
  | retiring q cmd =>
    simp only [loopStep, hpoint] at hn
    split at hn
    · rename_i e hlast
      cases hn
      exact account_retire hl hpoint hlast
    · rename_i hlast
      cases hn
      refine ((Untouched.refl s).goto (.installing q cmd)).account hl (by rw [hpoint]; rfl)
        (by rw [hpoint]; exact le_rfl) fun k q' => ?_
      change (s.queues q').lastEvent = some k ∧ _ ↔ (s.queues q').lastEvent = some k ∧ _
      refine and_congr_right fun hsome => iff_of_true (fun other heq => ?_)
        (CallbackPoint.ne_installing (by rw [hpoint]; rfl) q')
      rw [← (CallbackPoint.installing.inj heq).1, hlast] at hsome
      cases hsome
  | dispatching q cmd =>
    simp only [loopStep, hpoint] at hn
    cases hn
    exact account_dispatch h hl hawaits hpoint env
  | completing q cmd =>
    simp only [loopStep, hpoint] at hn
    obtain ⟨r, hr, rfl⟩ := Option.map_eq_some_iff.mp hn
    exact hpass (untouched_setAsComplete hr).1 (by rw [hpoint]; rfl) rfl (by rw [hpoint]; rfl) rfl
  | rechecking q cmd =>
    simp only [loopStep, hpoint] at hn
    obtain ⟨e, -, ht⟩ := Option.map_eq_some_iff.mp hn
    have hs : s.point.installs = false := by rw [hpoint]; rfl
    split at ht <;> rw [← ht]
    · exact hpass (untouched_setQueue rfl rfl) (by rw [hpoint]; rfl) rfl hs rfl
    · exact hpass (Untouched.refl s) (by rw [hpoint]; rfl) rfl hs rfl
  | checking q cmd =>
    have hleave : ∀ r : EventRun, Untouched s r → Account s l (r.goto (.leaving cmd)) := by
      intro r hr
      cases cmd with
      | none => exact hpass hr (by rw [hpoint]; rfl) rfl (by rw [hpoint]; rfl) rfl
      | some cmd =>
        exact hpass hr (by rw [hpoint]; rfl) rfl (by rw [hpoint]; rfl) rfl
    simp only [loopStep, hpoint] at hn
    split at hn <;> cases hn
    · have hx : Untouched s (s.setQueue q { s.queues q with pending := false }) :=
        untouched_setQueue rfl rfl
      exact hleave _ ⟨hx.ring, hx.last, hx.counter, rfl, rfl, rfl⟩
    · exact hleave s (Untouched.refl s)

theorem account {bits : Bitstreams} (h : s.Sound)
    (hawaits : ∀ k, s.ndranges k = true → ¬ s.Undispatched k)
    (hn : (eventSystem bits).next s l = some t) : Account s l t := by
  cases l with
  | enqueue q body blocking userEvent =>
    obtain ⟨-, hn⟩ := Option.ite_none_right_eq_some.mp hn
    cases hn
    exact account_enqueue h body blocking userEvent (by rintro _ ⟨⟩)
  | client e =>
    obtain ⟨call, hcall, hn⟩ := Option.bind_eq_some_iff.mp hn
    exact account_client h hcall hn
  | releaseQueue q =>
    simp only [eventSystem] at hn
    split at hn <;> cases hn
    have hx : Untouched s (s.setQueue q (s.queues q).refCntDown) := by
      refine untouched_setQueue ?_ ?_ <;> unfold CommandQueue.refCntDown <;> split <;> rfl
    refine hx.account (by rintro _ ⟨⟩) rfl le_rfl fun k q' => ?_
    exact and_congr_left fun _ => Iff.of_eq (congrArg (· = some k) (hx.last q'))
  | callback q =>
    obtain ⟨⟨hidle, -⟩, hn⟩ := Option.ite_none_right_eq_some.mp hn
    cases hn
    have hx : Untouched s (s.setQueue q { s.queues q with pending := false }) :=
      untouched_setQueue rfl rfl
    exact (hx.goto _).advance (by rintro _ ⟨⟩) (by rw [hidle]; rfl) rfl (by rw [hidle]; rfl) rfl
  | loop env =>
    obtain ⟨-, hn⟩ := Option.ite_none_right_eq_some.mp hn
    exact account_loop h (by rintro _ ⟨⟩) hawaits hn
  | finish e =>
    obtain ⟨⟨hidle, -⟩, hn⟩ := Option.ite_none_right_eq_some.mp hn
    obtain ⟨r, hr, rfl⟩ := Option.map_eq_some_iff.mp hn
    exact ((untouched_setAsComplete hr).1.goto _).advance (by rintro _ ⟨⟩) (by rw [hidle]; rfl) rfl
      (by rw [hidle]; rfl) rfl
  | process user =>
    cases hn
    have hx : Untouched s { s with buffers := { s.buffers with unimem.driver.user := user } } :=
      ⟨rfl, fun _ => rfl, fun _ => rfl, rfl, rfl, rfl⟩
    exact hx.account (by rintro _ ⟨⟩) rfl le_rfl fun _ _ => Iff.rfl

end Accounts

/-! ## Runs -/

/-- What holds between any two steps: the counters are exact, and an `NDRange` in being has left the
way of its command. -/
structure Balanced (s : EventRun) : Prop where
  sound : s.Sound
  exact : ∀ e, Exact (s.Holds e) (s.events e).counter
  awaits : ∀ k, s.ndranges k = true → ¬ s.Undispatched k

theorem balanced_new (memory user : ℕ → UInt8) : (new memory user).Balanced := by
  have hsound := sound_new memory user
  refine ⟨hsound, fun e => exact_absent (hsound.unheld (Nat.zero_le e)), fun k hk => ?_⟩
  cases hk

section Runs

variable {bits : Bitstreams} {s t : EventRun} {l : EventLabel} {ls : List EventLabel} {e : ℕ}

theorem Balanced.step (h : s.Balanced) (hn : (eventSystem bits).next s l = some t) : t.Balanced := by
  have haccount := account h.sound h.awaits hn
  refine ⟨h.sound.step hn, haccount.exchange.exact h.exact (h.sound.unheld le_rfl), fun k hk hu => ?_⟩
  obtain hold | hgone := haccount.ndranges k hk
  · obtain hbefore | rfl := haccount.undispatched k hu
    · exact h.awaits k hold hbefore
    · exact h.sound.unheld le_rfl .ndrange hold
  · exact hgone hu

/-- At some step of the run the queue dropped the command of the event. -/
def DroppedIn (bits : Bitstreams) (s : EventRun) (ls : List EventLabel) (e : ℕ) : Prop :=
  ∃ before since m, ls = before ++ .client e :: since ∧ (eventSystem bits).run s before = some m ∧
    m.Drops e

theorem not_droppedIn_nil : ¬ DroppedIn bits s [] e := by
  rintro ⟨before, since, -, heq, -⟩
  exact absurd heq.symm (by simp)

theorem droppedIn_concat {m : EventRun} (hm : (eventSystem bits).run s ls = some m) :
    DroppedIn bits s (ls ++ [l]) e ↔ DroppedIn bits s ls e ∨ (l = .client e ∧ m.Drops e) := by
  constructor
  · rintro ⟨before, since, m', heq, hm', hdrops⟩
    obtain rfl | ⟨since, k, rfl⟩ := since.eq_nil_or_concat
    · obtain ⟨rfl, hlast⟩ := List.append_inj' heq rfl
      rw [Option.some.inj (hm.symm.trans hm')]
      exact Or.inr ⟨(List.cons.inj hlast).1, hdrops⟩
    · rw [List.concat_eq_append, ← List.cons_append, ← List.append_assoc] at heq
      exact Or.inl ⟨before, since, m', (List.append_inj' heq rfl).1, hm', hdrops⟩
  · rintro (⟨before, since, m', rfl, hm', hdrops⟩ | ⟨rfl, hdrops⟩)
    · exact ⟨before, since ++ [l], m', by simp, hm', hdrops⟩
    · exact ⟨ls, [], m, rfl, hm, hdrops⟩

/-- What is adrift after a run is what a queue dropped in it. -/
theorem adrift_iff (hs : (eventSystem bits).start s) (hrun : (eventSystem bits).run s ls = some t) :
    t.Balanced ∧ ∀ e, t.Adrift e ↔ DroppedIn bits s ls e := by
  induction ls using List.reverseRecOn generalizing t with
  | nil =>
    cases hrun
    obtain ⟨memory, user, rfl⟩ := hs
    refine ⟨balanced_new memory user, fun e => iff_of_false ?_ not_droppedIn_nil⟩
    rintro ⟨hexists, -⟩
    cases hexists
  | append_singleton ls l ih =>
    obtain ⟨m, hm, hn⟩ := Machine.run_concat hrun
    obtain ⟨hbalanced, hadrift⟩ := ih hm
    refine ⟨hbalanced.step hn, fun e => ?_⟩
    have hcourse := (account hbalanced.sound hbalanced.awaits hn).course
    rw [hcourse.adrift (hbalanced.sound.linked.fresh _ le_rfl), hadrift, droppedIn_concat hm]

/-- A command on its way exists. -/
theorem OnTheWay.commands (h : s.Sound) (hway : s.OnTheWay e) : s.commands e = true := by
  obtain ⟨call, hcall, hpending⟩ | ⟨q, cmd, hcmd, rfl⟩ | ⟨cmd, hcmd, rfl⟩ := hway
  · exact h.linked.call e call hcall hpending
  · exact (h.linked.ring q cmd hcmd).1
  · exact (h.linked.current cmd hcmd).1

theorem Balanced.alive_iff (h : s.Balanced) : (s.events e).counter.deleted = false ↔
    s.Holds e .client ∨ (∃ q, s.Holds e (.slot q)) ∨ s.Holds e .ndrange ∨ s.OnTheWay e ∨
      s.Adrift e := by
  have hcommand : s.Holds e .command ↔ s.OnTheWay e ∨ s.Adrift e := by
    constructor
    · intro hexists
      by_cases hway : s.OnTheWay e
      · exact Or.inl hway
      · exact Or.inr ⟨hexists, hway⟩
    · rintro (hway | hadrift)
      · exact hway.commands h.sound
      · exact hadrift.1
  rw [← Bool.not_eq_true, (h.exact e).deleted_iff, ← hcommand]
  push Not
  constructor
  · rintro ⟨p, hp⟩
    cases p with
    | command => exact Or.inr (Or.inr (Or.inr hp))
    | client => exact Or.inl hp
    | slot q => exact Or.inr (Or.inl ⟨q, hp⟩)
    | ndrange => exact Or.inr (Or.inr (Or.inl hp))
  · rintro (hp | ⟨q, hp⟩ | hp | hp)
    · exact ⟨.client, hp⟩
    · exact ⟨.slot q, hp⟩
    · exact ⟨.ndrange, hp⟩
    · exact ⟨.command, hp⟩

/-- After any run an event's counter is the number of its holders, and the event is there exactly if a
caller has it, the slot of a queue or an `NDRange` does, or its command is on its way, or some queue
dropped that command. -/
theorem events_accounted (hs : (eventSystem bits).start s)
    (hrun : (eventSystem bits).run s ls = some t) (e : ℕ) :
    Counts (t.Holds e) (t.events e).counter.counter ∧
      ((t.events e).counter.deleted = false ↔
        t.Holds e .client ∨ (∃ q, t.Holds e (.slot q)) ∨ t.Holds e .ndrange ∨ t.OnTheWay e ∨
          DroppedIn bits s ls e) := by
  obtain ⟨hbalanced, hadrift⟩ := adrift_iff hs hrun
  refine ⟨(hbalanced.exact e).counts, ?_⟩
  rw [← hadrift]
  exact hbalanced.alive_iff

/-- Two writes, and a third one to the released queue: the first event is gone, the second is the
queue's last one, and the third stays for ever. -/
theorem events_accounted_refused : ∃ (bits : Bitstreams) (s t : EventRun) (ls : List EventLabel),
    (eventSystem bits).start s ∧ (eventSystem bits).run s ls = some t ∧
      (t.events 0).counter.deleted = true ∧ (∀ p, ¬ t.Holds 0 p) ∧
      (t.events 1).counter.deleted = false ∧ Counts (t.Holds 1) 1 ∧
      (t.events 2).counter.deleted = false ∧ DroppedIn bits s ls 2 := by
  let bits : Bitstreams := ⟨fun _ => none, fun _ => none⟩
  let s : EventRun := new (fun _ => 0) fun _ => 0
  let body : CommandBody := .writeBuffer ⟨some 0, 0, 1, 16⟩
  let served : ℕ → ℕ → List EventLabel := fun e base => [.enqueue 0 body false false] ++
    List.replicate 4 (.client e) ++ [.callback 0] ++
      List.replicate 9 (.loop ⟨some (base, fun _ => 0), 0⟩)
  let before : List EventLabel :=
    served 0 4096 ++ served 1 8192 ++ [.releaseQueue 0, .enqueue 0 body false false, .client 2]
  have hrun : ((eventSystem bits).run s before).bind (fun m =>
      ((eventSystem bits).run m [.client 2, .client 2]).map fun t =>
        ((m.calls 2).map fun call => (call.submits, call.queue), (m.queues 0).refCounter,
          (t.events 0).counter, (t.events 1).counter, (t.events 2).counter)) =
        some (some (true, 0), 0, ⟨0, true⟩, ⟨1, false⟩, ⟨1, false⟩) := by
    decide +kernel
  obtain ⟨m, hm, hrest⟩ := Option.bind_eq_some_iff.mp hrun
  obtain ⟨t, ht, hfields⟩ := Option.map_eq_some_iff.mp hrest
  simp only [Prod.mk.injEq] at hfields
  obtain ⟨hcall, hreleased, hfirst, hsecond, hthird⟩ := hfields
  obtain ⟨call, hcall, hpair⟩ := Option.map_eq_some_iff.mp hcall
  obtain ⟨hsubmits, hqueue⟩ := Prod.mk.inj hpair
  have hall : (eventSystem bits).run s (before ++ [.client 2, .client 2]) = some t :=
    Machine.run_append hm ht
  have hstart : (eventSystem bits).start s := ⟨_, _, rfl⟩
  refine ⟨bits, s, t, _, hstart, hall, by rw [hfirst], fun p hp => ?_, by rw [hsecond], ?_,
    by rw [hthird], before, [.client 2], m, rfl, hm, call, hcall, hsubmits, Or.inl ?_⟩
  · have hcounts := (events_accounted hstart hall 0).1
    rw [hfirst] at hcounts
    exact absurd (hcounts.pos_iff.mpr ⟨p, hp⟩) (lt_irrefl 0)
  · have hcounts := (events_accounted hstart hall 1).1
    rwa [hsecond] at hcounts
  · rw [hqueue, hreleased]
    exact Nat.one_pos

end Runs

end EventRun

end FpgaMl
