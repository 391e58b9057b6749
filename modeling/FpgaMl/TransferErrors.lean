import Mathlib.Tactic
import FpgaMl.EventLifetimes
import FpgaMl.TransferCodes

/-! # Transfer errors on their way to the caller

The code of a blocking transfer goes from the handler to the event, and from there to the call that
waits for it. Whatever runs beside it, the call returns the code of its own command. -/
namespace FpgaMl
open ByteMemory MachineInt TransitionSystem Holders
set_option autoImplicit false

/-- The popped command that the dispatcher has not handled yet. -/
def CallbackPoint.waiting : CallbackPoint → Option MLCLCommand
  | retiring _ cmd => some cmd
  | installing _ cmd => some cmd
  | dispatching _ cmd => some cmd
  | _ => none

/-- The command was handled, and its event is not set. -/
def CallbackPoint.isCompleting : CallbackPoint → Bool
  | completing _ _ => true
  | _ => false

theorem CallbackPoint.ne_completing {point : CallbackPoint} (h : point.isCompleting = false) (q : ℕ)
    (cmd : MLCLCommand) : point ≠ .completing q cmd := by
  rintro rfl
  cases h

/-- A blocking write or read. -/
def EnqueueCall.isTransfer (call : EnqueueCall) : Bool := call.blocking && call.body.completesInline

namespace EventRun

/-! ## The law -/

/-- The code with which a call returns is right: success stands for a transfer that was carried out,
and another code is that of the first check or step that failed. A command that a released queue
refused is never handled. -/
def Reported (s : EventRun) (e : ℕ) (call : EnqueueCall) (errCode : ℤ) : Prop :=
  match s.handled e with
  | none => errCode = clInvalidCommandQueue
  | some (b, env) => ∀ l, call.body.transfer env = some l →
      (errCode = clSuccess ↔ b.CarriedOut l) ∧ (¬ b.CarriedOut l → errCode = b.firstFailure l)

/-- The condition: the size is not 0, and a fault in a copy is seen. -/
def Noticed (s : EventRun) (e : ℕ) (call : EnqueueCall) : Prop :=
  ∀ b env, s.handled e = some (b, env) → ∀ l, call.body.transfer env = some l →
    Buffers.Sized l ∧ b.FaultSeen l

/-! ## The code on its way -/

/-- The code that the handler gave to the command of an event. -/
def HasCode (s : EventRun) (e : ℕ) (call : EnqueueCall) (errCode : ℤ) : Prop :=
  ∃ b env l, s.handled e = some (b, env) ∧ call.body.transfer env = some l ∧
    errCode = (b.handle l).1

/-- What a blocking transfer knows of its outcome. -/
def Told (s : EventRun) (e : ℕ) (call : EnqueueCall) : Prop :=
  match call.point with
  | .created => s.handled e = none
  | .counted => s.handled e = none
  | .refused => s.handled e = none
  | .submitted => True
  | .waited => s.handled e ≠ none
  | .answered errCode => s.HasCode e call errCode
  | .returned errCode _ =>
    (s.handled e = none ∧ errCode = clInvalidCommandQueue) ∨ s.HasCode e call errCode

/-- A command that waits to be handled; if it is a blocking transfer, so does its call. -/
def Waiting (s : EventRun) (e : ℕ) : Prop :=
  s.handled e = none ∧
    ∀ call, s.calls e = some call → call.isTransfer = true → call.point = .submitted

structure Reports (bits : Bitstreams) (s : EventRun) : Prop where
  stored : s.buffers.Stored
  fresh : ∀ e, s.nextEvent ≤ e → s.handled e = none
  accepted : ∀ e call, s.calls e = some call → bits.accepts call.body = true
  unsubmitted : ∀ e call, s.calls e = some call → call.point.isSubmitted = false → s.handled e = none
  told : ∀ e call, s.calls e = some call → call.isTransfer = true → s.Told e call
  ring : ∀ q, ∀ cmd ∈ s.ring q, s.Waiting cmd.event
  popped : ∀ cmd, s.point.waiting = some cmd → s.Waiting cmd.event
  completing : ∀ q cmd, s.point = .completing q cmd → s.handled cmd.event ≠ none
  complete : ∀ e call, s.calls e = some call → call.body.completesInline = true →
    (s.events e).complete = true → s.handled e ≠ none
  handled : ∀ e b env, s.handled e = some (b, env) → b.Stored ∧ ∃ call l, s.calls e = some call ∧
    call.body.transfer env = some l ∧ b.Admissible l ∧ (s.events e).errorCode = (b.handle l).1
  ndrange : ∀ e, s.ndranges e = true →
    ∃ call, s.calls e = some call ∧ call.body.completesInline = false

section Steps

variable {bits : Bitstreams} {s t : EventRun} {e q : ℕ} {call : EnqueueCall} {cmd : MLCLCommand}
  {env : KernelEnv}

theorem completesInline_of_isNdrange {body : CommandBody} (h : body.isNdrange = true) :
    body.completesInline = false := by
  cases body <;> first | rfl | cases h

theorem command_of_waiting {point : CallbackPoint} (h : point.waiting = some cmd) :
    point.command = some cmd := by
  cases point <;> first | exact h | cases h

theorem reports_new (memory user : ℕ → UInt8) : (new memory user).Reports bits := by
  have hring : ∀ q cmd, cmd ∉ (new memory user).ring q := fun q cmd hcmd => List.not_mem_nil hcmd
  have hcall : ∀ e call, (new memory user).calls e ≠ some call := fun e call hc => by cases hc
  refine ⟨Buffers.stored_new memory user, fun _ _ => rfl, fun e call hc => absurd hc (hcall e call),
    fun e call hc => absurd hc (hcall e call), fun e call hc => absurd hc (hcall e call),
    fun q cmd hcmd => absurd hcmd (hring q cmd), nofun, nofun,
    fun e call hc => absurd hc (hcall e call), nofun, nofun⟩

theorem Waiting.congr (h : s.Waiting e) (hhandled : t.handled = s.handled)
    (hcalls : t.calls e = s.calls e) : t.Waiting e := by
  unfold Waiting
  rw [hhandled, hcalls]
  exact h

theorem Told.congr (h : s.Told e call) (hhandled : t.handled e = s.handled e) : t.Told e call := by
  unfold Told HasCode
  rw [hhandled]
  exact h

/-- The steps that touch no call and handle no command. -/
theorem Reports.keep (h : s.Reports bits) (hstored : t.buffers.Stored)
    (hnext : t.nextEvent = s.nextEvent) (hcalls : t.calls = s.calls)
    (hhandled : t.handled = s.handled)
    (hevents : ∀ e, (t.events e).complete = (s.events e).complete ∧
      (t.events e).errorCode = (s.events e).errorCode)
    (hring : ∀ q cmd, cmd ∈ t.ring q → cmd ∈ s.ring q ∨ s.Waiting cmd.event)
    (hwaiting : ∀ cmd, t.point.waiting = some cmd →
      s.point.waiting = some cmd ∨ ∃ q, cmd ∈ s.ring q)
    (hcompleting : ∀ q cmd, t.point = .completing q cmd → s.point = .completing q cmd)
    (hndranges : ∀ e, t.ndranges e = true → s.ndranges e = true) : t.Reports bits where
  stored := hstored
  fresh e he := by
    rw [hhandled]
    exact h.fresh e (hnext ▸ he)
  accepted e call hc := h.accepted e call (hcalls ▸ hc)
  unsubmitted e call hc hp := by
    rw [hhandled]
    exact h.unsubmitted e call (hcalls ▸ hc) hp
  told e call hc htransfer := (h.told e call (hcalls ▸ hc) htransfer).congr (congrFun hhandled e)
  ring q cmd hcmd := ((hring q cmd hcmd).elim (h.ring q cmd) id).congr hhandled (congrFun hcalls _)
  popped cmd hcmd := by
    obtain hsame | ⟨q, hmem⟩ := hwaiting cmd hcmd
    · exact (h.popped cmd hsame).congr hhandled (congrFun hcalls _)
    · exact (h.ring q cmd hmem).congr hhandled (congrFun hcalls _)
  completing q cmd hcmd := by
    rw [hhandled]
    exact h.completing q cmd (hcompleting q cmd hcmd)
  complete e call hc hinline hdone := by
    rw [hhandled]
    exact h.complete e call (hcalls ▸ hc) hinline ((hevents e).1 ▸ hdone)
  handled e b env hb := by
    rw [hhandled] at hb
    rw [hcalls, (hevents e).2]
    exact h.handled e b env hb
  ndrange e he := by
    rw [hcalls]
    exact h.ndrange e (hndranges e he)

/-! ### Calls -/

/-- A call goes on. While its command waits to be handled it stays where it is. -/
theorem Reports.setCall (h : s.Reports bits) (hcall : s.calls e = some call) {point : CallPoint}
    (hcalls : t.calls = Function.update s.calls e (some { call with point := point }))
    (hunsubmitted : point.isSubmitted = false → call.point.isSubmitted = false)
    (hwaits : call.isTransfer = true → ¬ s.Waiting e)
    (htold : call.isTransfer = true → s.Told e { call with point := point })
    (hstored : t.buffers.Stored) (hnext : t.nextEvent = s.nextEvent)
    (hhandled : t.handled = s.handled)
    (hevents : ∀ e, (t.events e).complete = (s.events e).complete ∧
      (t.events e).errorCode = (s.events e).errorCode)
    (hring : t.ring = s.ring) (hpoint : t.point = s.point)
    (hndranges : t.ndranges = s.ndranges) : t.Reports bits := by
  have hself : t.calls e = some { call with point := point } := by
    rw [hcalls, Function.update_self]
  have hrest : ∀ k, k ≠ e → t.calls k = s.calls k := fun k hk => by
    rw [hcalls, Function.update_of_ne hk]
  -- every call of `t` is one of `s` but for its point
  have hold : ∀ k call', t.calls k = some call' →
      ∃ call'', s.calls k = some call'' ∧ call'.body = call''.body := by
    intro k call' hc
    obtain ⟨rfl, rfl⟩ | ⟨-, hc⟩ := calls_update hcalls hc
    · exact ⟨call, hcall, rfl⟩
    · exact ⟨call', hc, rfl⟩
  have hnew : ∀ k call'', s.calls k = some call'' →
      ∃ call', t.calls k = some call' ∧ call'.body = call''.body := by
    intro k call'' hc
    by_cases hk : k = e
    · subst hk
      obtain rfl := Option.some.inj (hcall.symm.trans hc)
      exact ⟨_, hself, rfl⟩
    · exact ⟨call'', (hrest k hk).trans hc, rfl⟩
  have hwaiting : ∀ k, s.Waiting k → t.Waiting k := by
    intro k hk
    refine ⟨by rw [hhandled]; exact hk.1, fun call' hc htransfer => ?_⟩
    obtain ⟨rfl, rfl⟩ | ⟨-, hc⟩ := calls_update hcalls hc
    · exact absurd hk (hwaits htransfer)
    · exact hk.2 call' hc htransfer
  refine ⟨hstored, fun k hk => ?_, fun k call' hc => ?_, fun k call' hc hp => ?_,
    fun k call' hc htransfer => ?_, fun q cmd hcmd => ?_, fun cmd hcmd => ?_, fun q cmd hcmd => ?_,
    fun k call' hc hinline hdone => ?_, fun k b env hb => ?_, fun k hk => ?_⟩
  · rw [hhandled]
    exact h.fresh k (hnext ▸ hk)
  · obtain ⟨call'', hc', hbody⟩ := hold k call' hc
    rw [hbody]
    exact h.accepted k call'' hc'
  · rw [hhandled]
    obtain ⟨rfl, rfl⟩ | ⟨-, hc⟩ := calls_update hcalls hc
    · exact h.unsubmitted k call hcall (hunsubmitted hp)
    · exact h.unsubmitted k call' hc hp
  · obtain ⟨rfl, rfl⟩ | ⟨-, hc⟩ := calls_update hcalls hc
    · exact (htold htransfer).congr (congrFun hhandled k)
    · exact (h.told k call' hc htransfer).congr (congrFun hhandled k)
  · exact hwaiting _ (h.ring q cmd (hring ▸ hcmd))
  · exact hwaiting _ (h.popped cmd (hpoint ▸ hcmd))
  · rw [hhandled]
    exact h.completing q cmd (hpoint ▸ hcmd)
  · obtain ⟨call'', hc', hbody⟩ := hold k call' hc
    rw [hhandled]
    exact h.complete k call'' hc' (hbody ▸ hinline) ((hevents k).1 ▸ hdone)
  · rw [hhandled] at hb
    obtain ⟨hb', call'', l, hc', hl, hadm, hcode⟩ := h.handled k b env hb
    obtain ⟨call', hc, hbody⟩ := hnew k call'' hc'
    exact ⟨hb', call', l, hc, hbody ▸ hl, hadm, (hevents k).2.trans hcode⟩
  · obtain ⟨call'', hc', hinline⟩ := h.ndrange k (hndranges ▸ hk)
    obtain ⟨call', hc, hbody⟩ := hnew k call'' hc'
    exact ⟨call', hc, hbody ▸ hinline⟩

theorem Reports.enqueue (h : s.Reports bits) (hs : s.Sound) {body : CommandBody}
    (hbody : bits.accepts body = true) (blocking userEvent : Bool) :
    (s.enqueue q body blocking userEvent).Reports bits := by
  obtain ⟨made, -, hbodyEq, hpoint, hmade⟩ := s.calls_enqueue q body blocking userEvent
  have hcalls : ∀ k, k ≠ s.nextEvent →
      (s.enqueue q body blocking userEvent).calls k = s.calls k := fun k hk =>
    Function.update_of_ne hk ..
  have hevents : ∀ k, k ≠ s.nextEvent →
      (s.enqueue q body blocking userEvent).events k = s.events k := fun k hk =>
    Function.update_of_ne hk ..
  have hevent : (s.enqueue q body blocking userEvent).events s.nextEvent = .new :=
    Function.update_self ..
  have hnone : s.handled s.nextEvent = none := h.fresh _ le_rfl
  have hold : ∀ k, s.commands k = true → k ≠ s.nextEvent := by
    rintro k hk rfl
    rw [hs.linked.fresh _ le_rfl] at hk
    cases hk
  refine ⟨h.stored, fun k hk => h.fresh k (Nat.le_of_succ_le hk), fun k call' hc => ?_,
    fun k call' hc hp => ?_, fun k call' hc htransfer => ?_, fun q' cmd hcmd => ?_, fun cmd hcmd => ?_,
    h.completing, fun k call' hc hinline hdone => ?_, fun k b env hb => ?_, fun k hk => ?_⟩
  · obtain ⟨rfl, rfl⟩ | ⟨-, hc⟩ := calls_update hmade hc
    · rw [hbodyEq]
      exact hbody
    · exact h.accepted k call' hc
  · obtain ⟨rfl, rfl⟩ | ⟨-, hc⟩ := calls_update hmade hc
    · exact hnone
    · exact h.unsubmitted k call' hc hp
  · obtain ⟨rfl, rfl⟩ | ⟨-, hc⟩ := calls_update hmade hc
    · unfold Told
      rw [hpoint]
      exact hnone
    · exact (h.told k call' hc htransfer).congr rfl
  · exact (h.ring q' cmd hcmd).congr rfl (hcalls _ (hold _ (hs.linked.ring q' cmd hcmd).1))
  · refine (h.popped cmd hcmd).congr rfl (hcalls _ (hold _ (hs.linked.current cmd ?_).1))
    exact command_of_waiting hcmd
  · by_cases hk : k = s.nextEvent
    · subst hk
      rw [hevent] at hdone
      cases hdone
    · rw [hevents k hk] at hdone
      exact h.complete k call' (hcalls k hk ▸ hc) hinline hdone
  · have hk : k ≠ s.nextEvent := by
      rintro rfl
      exact Option.some_ne_none _ (hb.symm.trans hnone)
    obtain ⟨hb', call', l, hc, hl, hadm, hcode⟩ := h.handled k b env hb
    exact ⟨hb', call', l, (hcalls k hk).trans hc, hl, hadm, hevents k hk ▸ hcode⟩
  · have hk' : k ≠ s.nextEvent := by
      have hpos := (hs.covered.covers k).pos (p := .ndrange) hk
      have := hs.covered.old hpos
      omega
    obtain ⟨call', hc, hinline⟩ := h.ndrange k hk
    exact ⟨call', (hcalls k hk').trans hc, hinline⟩

/-- A client's step, which asks for no more than the state of its event. -/
theorem Reports.submit (h : s.Reports bits) (hcall : s.calls e = some call)
    (hunsubmitted : call.point.isSubmitted = false) {released taken : CallPoint}
    (hreleased : released.isSubmitted = true ∧
      (call.isTransfer = true → s.Told e { call with point := released }))
    (htaken : taken.isSubmitted = true ∧ (call.isTransfer = true → taken = .submitted))
    (hn : s.submit e call released taken = some t) : t.Reports bits := by
  have hnone : s.handled e = none := h.unsubmitted e call hcall hunsubmitted
  have hnot : call.isTransfer = true → ¬ s.Waiting e := fun htransfer hwait => by
    rw [hwait.2 call hcall htransfer] at hunsubmitted
    cases hunsubmitted
  have hafter : ∀ point : CallPoint, point.isSubmitted = true →
      (call.isTransfer = true → s.Told e { call with point := point }) →
        (s.setCall e { call with point := point }).Reports bits := fun point hp htold =>
    h.setCall hcall rfl (fun hfalse => by rw [hp] at hfalse; cases hfalse) hnot htold h.stored rfl rfl
      (fun _ => ⟨rfl, rfl⟩) rfl rfl rfl
  unfold EventRun.submit at hn
  split at hn
  · cases hn
  obtain ⟨-, hring⟩ := pushBack_cases (s.queues call.queue) ⟨e, call.body⟩
  cases hpush : (s.queues call.queue).pushBack ⟨e, call.body⟩ with
  | mk rc queue =>
    rw [hpush] at hn hring
    dsimp only at hn hring
    rw [← Option.some.inj hn]
    have htold : call.isTransfer = true → s.Told e { call with point := taken } := fun htransfer => by
      rw [htaken.2 htransfer]
      trivial
    have hsame : queue.ringBuffer.toList = (s.queues call.queue).ringBuffer.toList →
        ∀ point : CallPoint, (s.setCall e { call with point := point }).Reports bits →
          ((s.setQueue call.queue queue).setCall e { call with point := point }).Reports bits := by
      intro hring point hr
      refine hr.keep hr.stored rfl rfl rfl (fun _ => ⟨rfl, rfl⟩) (fun q cmd hcmd => Or.inl ?_)
        (fun cmd hcmd => Or.inl hcmd) (fun q cmd hcmd => hcmd) fun k hk => hk
      change cmd ∈ (s.setQueue call.queue queue).ring q at hcmd
      rw [ring_setQueue, hring] at hcmd
      rwa [show Function.update s.ring call.queue (s.queues call.queue).ringBuffer.toList = s.ring from
        Function.update_eq_self ..] at hcmd
    obtain hring | ⟨hrc, hring⟩ := hring
    · split
      · exact hsame hring _ (hafter _ hreleased.1 hreleased.2)
      · exact hsame hring _ (hafter _ htaken.1 htold)
    · rw [if_neg (by rw [hrc]; simp)]
      have hr := hafter taken htaken.1 htold
      have hwaiting : (s.setCall e { call with point := taken }).Waiting e := by
        refine ⟨hnone, fun call' hc htransfer => ?_⟩
        rw [calls_setCall, if_pos rfl] at hc
        rw [← Option.some.inj hc] at htransfer ⊢
        exact htaken.2 htransfer
      refine hr.keep hr.stored rfl rfl rfl (fun _ => ⟨rfl, rfl⟩) (fun q cmd hcmd => ?_)
        (fun cmd hcmd => Or.inl hcmd) (fun q cmd hcmd => hcmd) fun k hk => hk
      change cmd ∈ (s.setQueue call.queue queue).ring q at hcmd
      rw [ring_setQueue, hring, Function.update_apply] at hcmd
      split at hcmd
      · rename_i hq
        obtain hcmd | hcmd := List.mem_append.mp hcmd
        · exact Or.inl (hq ▸ hcmd)
        · rw [List.mem_singleton.mp hcmd]
          exact Or.inr hwaiting
      · exact Or.inl hcmd

theorem events_setEvent (s : EventRun) (e k : ℕ) {event : ClEvent}
    (hcomplete : event.complete = (s.events e).complete)
    (herror : event.errorCode = (s.events e).errorCode) :
    ((s.setEvent e event).events k).complete = (s.events k).complete ∧
      ((s.setEvent e event).events k).errorCode = (s.events k).errorCode := by
  unfold EventRun.setEvent
  dsimp only
  rw [Function.update_apply]
  split
  · rename_i hk
    rw [hk]
    exact ⟨hcomplete, herror⟩
  · exact ⟨rfl, rfl⟩

theorem events_refCntUp (s : EventRun) (e k : ℕ) :
    ((s.refCntUp e).events k).complete = (s.events k).complete ∧
      ((s.refCntUp e).events k).errorCode = (s.events k).errorCode :=
  events_setEvent s e k rfl rfl

theorem events_refCntDown (s : EventRun) (e k : ℕ) :
    ((s.refCntDown e).events k).complete = (s.events k).complete ∧
      ((s.refCntDown e).events k).errorCode = (s.events k).errorCode :=
  events_setEvent s e k rfl rfl

theorem Reports.client (h : s.Reports bits) (hcall : s.calls e = some call)
    (hn : s.clientStep e call = some t) : t.Reports bits := by
  have htold : call.isTransfer = true → s.Told e call := h.told e call hcall
  have hnotAt : call.point ≠ .submitted → call.isTransfer = true → ¬ s.Waiting e :=
    fun hpoint htransfer hwait => hpoint (hwait.2 call hcall htransfer)
  unfold clientStep at hn
  split at hn
  · rename_i hpoint
    have hunsubmitted : call.point.isSubmitted = false := by rw [hpoint]; rfl
    have hnone : s.handled e = none := h.unsubmitted e call hcall hunsubmitted
    split at hn
    · rename_i hndrange
      have hnever : call.isTransfer = true → False := fun htransfer => by
        have hinline := (Bool.and_eq_true_iff.mp htransfer).2
        rw [completesInline_of_isNdrange hndrange] at hinline
        cases hinline
      exact h.submit hcall hunsubmitted ⟨rfl, fun htransfer => (hnever htransfer).elim⟩
        ⟨rfl, fun htransfer => (hnever htransfer).elim⟩ hn
    · cases hn
      exact h.setCall hcall rfl (fun _ => hunsubmitted) (hnotAt (by rw [hpoint]; simp)) (fun _ => hnone)
        h.stored rfl rfl (events_refCntUp s e) rfl rfl rfl
  · rename_i hpoint
    have hunsubmitted : call.point.isSubmitted = false := by rw [hpoint]; rfl
    have hrefused : s.Told e { call with point := .refused } := h.unsubmitted e call hcall hunsubmitted
    exact h.submit hcall hunsubmitted ⟨rfl, fun _ => hrefused⟩ ⟨rfl, fun _ => rfl⟩ hn
  · rename_i hpoint
    cases hn
    refine h.setCall hcall rfl nofun (hnotAt (by rw [hpoint]; simp)) (fun htransfer => ?_)
      h.stored rfl rfl (events_refCntDown s e) rfl rfl rfl
    have hnone := htold htransfer
    unfold Told at hnone
    rw [hpoint] at hnone
    exact Or.inl ⟨hnone, rfl⟩
  · rename_i hpoint
    split at hn
    · rename_i hblocking
      cases hn
      have hnever : call.isTransfer = true → False := fun htransfer => by
        rw [(Bool.and_eq_true_iff.mp htransfer).1] at hblocking
        cases hblocking
      exact h.setCall hcall rfl nofun (fun htransfer => (hnever htransfer).elim)
        (fun htransfer => (hnever htransfer).elim) h.stored rfl rfl (fun _ => ⟨rfl, rfl⟩) rfl rfl rfl
    · split at hn
      · rename_i hdone
        cases hn
        have hhandled : call.isTransfer = true → s.handled e ≠ none := fun htransfer =>
          h.complete e call hcall (Bool.and_eq_true_iff.mp htransfer).2 hdone
        exact h.setCall hcall rfl nofun (fun htransfer hwait => hhandled htransfer hwait.1) hhandled
          h.stored rfl rfl (fun _ => ⟨rfl, rfl⟩) rfl rfl rfl
      · cases hn
  · rename_i hpoint
    cases hn
    refine h.setCall hcall rfl nofun (hnotAt (by rw [hpoint]; simp)) (fun htransfer => ?_)
      h.stored rfl rfl (fun _ => ⟨rfl, rfl⟩) rfl rfl rfl
    have hhandled := htold htransfer
    unfold Told at hhandled
    rw [hpoint] at hhandled
    obtain ⟨⟨b, env⟩, hb⟩ := Option.ne_none_iff_exists'.mp hhandled
    obtain ⟨-, call', l, hc, hl, -, hcode⟩ := h.handled e b env hb
    obtain rfl := Option.some.inj (hcall.symm.trans hc)
    exact ⟨b, env, l, hb, hl, hcode⟩
  · rename_i errCode hpoint
    have hcode : call.isTransfer = true → s.HasCode e call errCode := fun htransfer => by
      have hhas := htold htransfer
      unfold Told at hhas
      rw [hpoint] at hhas
      exact hhas
    split at hn
    · cases hn
      exact h.setCall hcall rfl nofun (hnotAt (by rw [hpoint]; simp))
        (fun htransfer => Or.inr (hcode htransfer)) h.stored rfl rfl (fun _ => ⟨rfl, rfl⟩) rfl rfl rfl
    · cases hn
      exact h.setCall hcall rfl nofun (hnotAt (by rw [hpoint]; simp))
        (fun htransfer => Or.inr (hcode htransfer)) h.stored rfl rfl (events_refCntDown s e) rfl rfl rfl
  · cases hn

/-! ### The callback -/

/-- The dispatcher handles a transfer. -/
theorem Reports.handle (h : s.Reports bits) (hs : s.Sound) (hpoint : s.point = .dispatching q cmd)
    {l : BufferLabel} (hl : cmd.body.transfer env = some l) (hadm : s.buffers.Admissible l)
    (hbuffers : t.buffers = (s.buffers.handle l).2) (hnext : t.nextEvent = s.nextEvent)
    (hcalls : t.calls = s.calls)
    (hhandled : t.handled = Function.update s.handled cmd.event (some (s.buffers, env)))
    (herror : (t.events cmd.event).errorCode = (s.buffers.handle l).1)
    (hevents : ∀ k, k ≠ cmd.event → t.events k = s.events k)
    (hring : t.ring = s.ring) (hpoint' : t.point = .completing q cmd)
    (hndranges : t.ndranges = s.ndranges) : t.Reports bits := by
  have hcommand : s.point.command = some cmd := by rw [hpoint]; rfl
  obtain ⟨hexists, ⟨q₀, call, hcall, -, hbody, hsubmitted⟩, hapart⟩ := hs.linked.current cmd hcommand
  have hwaiting : s.Waiting cmd.event := h.popped cmd (by rw [hpoint]; rfl)
  have hself : t.handled cmd.event = some (s.buffers, env) := by rw [hhandled, Function.update_self]
  have hrest : ∀ k, k ≠ cmd.event → t.handled k = s.handled k := fun k hk => by
    rw [hhandled, Function.update_of_ne hk]
  refine ⟨?_, fun k hk => ?_, fun k call' hc => h.accepted k call' (hcalls ▸ hc),
    fun k call' hc hp => ?_, fun k call' hc htransfer => ?_, fun q' other hother => ?_,
    fun other hother => ?_, fun q' other hother => ?_, fun k call' hc hinline hdone => ?_,
    fun k b env' hb => ?_, fun k hk => ?_⟩
  · rw [hbuffers]
    exact h.stored.step hadm
  · have hold : k ≠ cmd.event := by
      rintro rfl
      rw [hs.linked.fresh _ (hnext ▸ hk)] at hexists
      cases hexists
    rw [hrest k hold]
    exact h.fresh k (hnext ▸ hk)
  · rw [hcalls] at hc
    have hold : k ≠ cmd.event := by
      rintro rfl
      rw [← Option.some.inj (hcall.symm.trans hc), hsubmitted] at hp
      cases hp
    rw [hrest k hold]
    exact h.unsubmitted k call' hc hp
  · rw [hcalls] at hc
    by_cases hk : k = cmd.event
    · -- the call still waits for this command
      subst hk
      unfold Told
      rw [hwaiting.2 call' hc htransfer]
      trivial
    · exact (h.told k call' hc htransfer).congr (hrest k hk)
  · rw [hring] at hother
    obtain ⟨hnone, hwaits⟩ := h.ring q' other hother
    exact ⟨(hrest _ (hapart q' other hother)).trans hnone, fun call' hc => hwaits call' (hcalls ▸ hc)⟩
  · rw [hpoint'] at hother
    cases hother
  · rw [hpoint'] at hother
    cases hother
    rw [hself]
    exact Option.some_ne_none _
  · by_cases hk : k = cmd.event
    · rw [hk, hself]
      exact Option.some_ne_none _
    · rw [hrest k hk]
      exact h.complete k call' (hcalls ▸ hc) hinline (hevents k hk ▸ hdone)
  · by_cases hk : k = cmd.event
    · subst hk
      obtain ⟨rfl, rfl⟩ := Prod.mk.inj (Option.some.inj (hself.symm.trans hb))
      exact ⟨h.stored, call, l, by rw [hcalls]; exact hcall, by rw [hbody]; exact hl, hadm, herror⟩
    · rw [hrest k hk] at hb
      rw [hcalls, hevents k hk]
      exact h.handled k b env' hb
  · rw [hcalls]
    exact h.ndrange k (hndranges ▸ hk)

theorem Reports.setAsComplete (h : s.Reports bits) (hdone : ∀ call, s.calls e = some call →
      call.body.completesInline = true → s.handled e ≠ none)
    (hn : s.setAsComplete e = some t) : t.Reports bits := by
  obtain ⟨q, -, rfl⟩ := Option.map_eq_some_iff.mp hn
  have hcompleted : (s.setEvent e { s.events e with complete := true }).Reports bits := by
    have hevents : ∀ k, k ≠ e →
        (s.setEvent e { s.events e with complete := true }).events k = s.events k := fun k hk =>
      Function.update_of_ne hk ..
    have hevent : (s.setEvent e { s.events e with complete := true }).events e =
        { s.events e with complete := true } := Function.update_self ..
    refine ⟨h.stored, h.fresh, h.accepted, h.unsubmitted, fun k call hc ht => (h.told k call hc ht).congr rfl,
      fun q cmd hcmd => (h.ring q cmd hcmd).congr rfl rfl,
      fun cmd hcmd => (h.popped cmd hcmd).congr rfl rfl, h.completing,
      fun k call hc hinline hcomplete => ?_, fun k b env hb => ?_, h.ndrange⟩
    · by_cases hk : k = e
      · subst hk
        exact hdone call hc hinline
      · exact h.complete k call hc hinline (hevents k hk ▸ hcomplete)
    · obtain ⟨hb', call, l, hc, hl, hadm, hcode⟩ := h.handled k b env hb
      refine ⟨hb', call, l, hc, hl, hadm, ?_⟩
      by_cases hk : k = e
      · subst hk
        rw [hevent]
        exact hcode
      · rw [hevents k hk]
        exact hcode
  dsimp only
  split
  · exact hcompleted
  · refine hcompleted.keep hcompleted.stored rfl rfl rfl (fun _ => ⟨rfl, rfl⟩)
      (fun q' cmd hcmd => Or.inl ?_) (fun cmd hcmd => Or.inl hcmd) (fun q cmd hcmd => hcmd) fun k hk => hk
    rw [ring_setQueue] at hcmd
    exact (Function.update_eq_self (f := s.ring) q ▸ hcmd : cmd ∈ s.ring q')

/-- The callback goes on with the command that it had, or with none. -/
theorem Reports.pass (h : s.Reports bits) {point : CallbackPoint}
    (hwaiting : ∀ cmd, point.waiting = some cmd → s.point.waiting = some cmd)
    (hcompleting : point.isCompleting = false) : (s.goto point).Reports bits :=
  h.keep h.stored rfl rfl rfl (fun _ => ⟨rfl, rfl⟩) (fun _ _ hcmd => Or.inl hcmd)
    (fun cmd hcmd => Or.inl (hwaiting cmd hcmd))
    (fun q cmd hcmd => absurd hcmd (CallbackPoint.ne_completing hcompleting q cmd)) fun _ hk => hk

theorem Reports.goto (h : s.Reports bits) {point : CallbackPoint}
    (hwaiting : point.waiting = none) (hcompleting : point.isCompleting = false) :
    (s.goto point).Reports bits :=
  h.pass (fun cmd hcmd => by rw [hwaiting] at hcmd; cases hcmd) hcompleting

/-- What happens to an event's counter and callback says nothing about its outcome. -/
theorem Reports.setEvent (h : s.Reports bits) {event : ClEvent}
    (hcomplete : event.complete = (s.events e).complete)
    (herror : event.errorCode = (s.events e).errorCode) : (s.setEvent e event).Reports bits :=
  h.keep h.stored rfl rfl rfl (fun k => events_setEvent s e k hcomplete herror)
    (fun _ _ hcmd => Or.inl hcmd) (fun _ hcmd => Or.inl hcmd) (fun _ _ hcmd => hcmd) fun _ hk => hk

theorem Reports.refCntUp (h : s.Reports bits) (e : ℕ) : (s.refCntUp e).Reports bits :=
  h.setEvent rfl rfl

theorem Reports.refCntDown (h : s.Reports bits) (e : ℕ) : (s.refCntDown e).Reports bits :=
  h.setEvent rfl rfl

theorem Reports.setQueue (h : s.Reports bits) {queue : CommandQueue}
    (hring : ∀ cmd ∈ queue.ringBuffer.toList, cmd ∈ s.ring q) : (s.setQueue q queue).Reports bits := by
  refine h.keep h.stored rfl rfl rfl (fun _ => ⟨rfl, rfl⟩) (fun q' cmd hcmd => Or.inl ?_)
    (fun cmd hcmd => Or.inl hcmd) (fun q cmd hcmd => hcmd) fun k hk => hk
  rw [ring_setQueue, Function.update_apply] at hcmd
  split at hcmd
  · rename_i hq
    exact hq ▸ hring cmd hcmd
  · exact hcmd

theorem Reports.dispatch (h : s.Reports bits) (hs : s.Sound) (hpoint : s.point = .dispatching q cmd)
    (hadm : s.Admissible env) : (s.dispatch q cmd env).Reports bits := by
  have hadm : ∀ l, cmd.body.transfer env = some l → s.buffers.Admissible l := fun l hl =>
    hadm cmd (by rw [hpoint]; rfl) l hl
  have herror : ∀ (r : EventRun) (e : ℕ) (errCode : ℤ),
      ((r.setError e errCode).events e).errorCode = errCode := by
    intro r e errCode
    unfold EventRun.setError EventRun.setEvent
    dsimp only
    rw [Function.update_self]
  unfold EventRun.dispatch
  split
  · rename_i args hbody
    have hl : cmd.body.transfer env = some (.write args env) := by rw [hbody]; rfl
    exact h.handle hs hpoint hl (hadm _ hl) rfl rfl rfl rfl (herror _ _ _)
      (fun k hk => Function.update_of_ne hk ..) rfl rfl rfl
  · rename_i args hbody
    have hl : cmd.body.transfer env = some (.read args env) := by rw [hbody]; rfl
    exact h.handle hs hpoint hl (hadm _ hl) rfl rfl rfl rfl (herror _ _ _)
      (fun k hk => Function.update_of_ne hk ..) rfl rfl rfl
  · rename_i args hbody
    have hmoved : (s.goto (.rechecking q cmd)).Reports bits := h.goto rfl rfl
    split
    · exact hmoved
    · exact hmoved
    · -- an `NDRange` is made for a command that is no transfer
      have hcounted := hmoved.refCntUp cmd.event
      obtain ⟨-, ⟨q₀, call, hcall, -, hbody', -⟩, -⟩ := hs.linked.current cmd (by rw [hpoint]; rfl)
      refine ⟨hcounted.stored, hcounted.fresh, hcounted.accepted, hcounted.unsubmitted,
        fun k call hc ht => (hcounted.told k call hc ht).congr rfl,
        fun q cmd hcmd => (hcounted.ring q cmd hcmd).congr rfl rfl, nofun, nofun, hcounted.complete,
        hcounted.handled, fun k hk => ?_⟩
      change Function.update s.ndranges cmd.event true k = true at hk
      rw [Function.update_apply] at hk
      split at hk
      · rename_i hk'
        exact ⟨call, hk' ▸ hcall, by rw [hbody', hbody]; rfl⟩
      · exact h.ndrange k hk
  · exact h.goto rfl rfl

/-- The popped command waits for the dispatcher as it did in the ring. -/
theorem Reports.pop (h : s.Reports bits) {queue : CommandQueue}
    (hpop : (s.queues q).popFront = some (cmd, queue)) :
    ((s.setQueue q queue).goto (.retiring q cmd)).Reports bits := by
  have hfirst : s.ring q = cmd :: queue.ringBuffer.toList := (popFront_cases hpop).2
  refine h.keep h.stored rfl rfl rfl (fun _ => ⟨rfl, rfl⟩) (fun q' other hother => Or.inl ?_)
    (fun other hother => Or.inr ⟨q, ?_⟩) nofun fun _ hk => hk
  · change other ∈ (s.setQueue q queue).ring q' at hother
    rw [ring_setQueue, Function.update_apply] at hother
    split at hother
    · rename_i hq
      rw [hq, hfirst]
      exact List.mem_cons_of_mem _ hother
    · exact hother
  · rw [← Option.some.inj hother, hfirst]
    exact List.mem_cons_self ..

/-- The queue destroys itself. -/
theorem Reports.destroy (h : s.Reports bits) (q : ℕ) :
    EventRun.Reports bits { s.setQueue q { s.queues q with pending := false } with
      destroyed := Function.update s.destroyed q true } := by
  have hcleared : (s.setQueue q { s.queues q with pending := false }).Reports bits :=
    h.setQueue fun _ hcmd => hcmd
  exact hcleared.keep hcleared.stored rfl rfl rfl (fun _ => ⟨rfl, rfl⟩)
    (fun _ _ hcmd => Or.inl hcmd) (fun _ hcmd => Or.inl hcmd) (fun _ _ hcmd => hcmd) fun _ hk => hk

theorem Reports.loop (h : s.Reports bits) (hs : s.Sound) (hadm : s.Admissible env)
    (hn : s.loopStep env = some t) : t.Reports bits := by
  cases hpoint : s.point with
  | idle =>
    simp only [loopStep, hpoint] at hn
    cases hn
  | entered q =>
    simp only [loopStep, hpoint] at hn
    split at hn
    · cases hn
      exact h.goto rfl rfl
    · split at hn <;> cases hn <;> exact h.goto rfl rfl
  | popping q =>
    simp only [loopStep, hpoint] at hn
    obtain ⟨⟨cmd, queue⟩, hpop, rfl⟩ := Option.map_eq_some_iff.mp hn
    exact h.pop hpop
  | retiring q cmd =>
    simp only [loopStep, hpoint] at hn
    have hsame : ∀ other, (CallbackPoint.installing q cmd).waiting = some other →
        s.point.waiting = some other := fun other hother => by rw [hpoint]; exact hother
    split at hn <;> cases hn
    · exact (h.refCntDown _).pass hsame rfl
    · exact h.pass hsame rfl
  | installing q cmd =>
    simp only [loopStep, hpoint] at hn
    cases hn
    have hset : (s.setQueue q ((s.queues q).setLastEvent cmd.event)).Reports bits :=
      h.setQueue fun _ hcmd => hcmd
    refine Reports.pass (Reports.setEvent (hset.refCntUp cmd.event) ?_ ?_) (fun other hother => ?_) ?_
    · rfl
    · rfl
    · change s.point.waiting = some other
      rw [hpoint]
      exact hother
    · rfl
  | dispatching q cmd =>
    simp only [loopStep, hpoint] at hn
    cases hn
    exact h.dispatch hs hpoint hadm
  | completing q cmd =>
    simp only [loopStep, hpoint] at hn
    obtain ⟨r, hr, rfl⟩ := Option.map_eq_some_iff.mp hn
    exact (h.setAsComplete (fun _ _ _ => h.completing q cmd hpoint) hr).goto rfl rfl
  | rechecking q cmd =>
    simp only [loopStep, hpoint] at hn
    obtain ⟨e, -, ht⟩ := Option.map_eq_some_iff.mp hn
    split at ht <;> rw [← ht]
    · have hfed : (s.setQueue q (s.queues q).feed).Reports bits := h.setQueue fun _ hcmd => hcmd
      exact hfed.goto rfl rfl
    · exact h.goto rfl rfl
  | checking q cmd =>
    simp only [loopStep, hpoint] at hn
    have hleaving : (CallbackPoint.leaving cmd).waiting = none ∧
        (CallbackPoint.leaving cmd).isCompleting = false := by
      cases cmd <;> exact ⟨rfl, rfl⟩
    split at hn <;> cases hn
    · exact (h.destroy q).goto hleaving.1 hleaving.2
    · exact h.goto hleaving.1 hleaving.2
  | deleting cmd =>
    simp only [loopStep, hpoint] at hn
    cases hn
    have hcounted := h.refCntDown cmd.event
    exact hcounted.keep hcounted.stored rfl rfl rfl (fun _ => ⟨rfl, rfl⟩)
      (fun _ _ hcmd => Or.inl hcmd) (fun _ hcmd => by cases hcmd) (fun _ _ hcmd => by cases hcmd)
      fun _ hk => hk
  | finishing e =>
    simp only [loopStep, hpoint] at hn
    cases hn
    have hcounted := h.refCntDown e
    refine hcounted.keep hcounted.stored rfl rfl rfl (fun _ => ⟨rfl, rfl⟩)
      (fun _ _ hcmd => Or.inl hcmd) (fun _ hcmd => by cases hcmd) (fun _ _ hcmd => by cases hcmd)
      fun k hk => ?_
    change Function.update s.ndranges e false k = true at hk
    rw [Function.update_apply] at hk
    split at hk
    · cases hk
    · exact hk

theorem Reports.step {l : EventLabel} (h : s.Reports bits) (hs : s.Sound)
    (hn : (eventSystem bits).next s l = some t) : t.Reports bits := by
  cases l with
  | enqueue q body blocking userEvent =>
    obtain ⟨hbody, hn⟩ := Option.ite_none_right_eq_some.mp hn
    cases hn
    exact h.enqueue hs hbody blocking userEvent
  | client e =>
    obtain ⟨call, hcall, hn⟩ := Option.bind_eq_some_iff.mp hn
    exact h.client hcall hn
  | releaseQueue q =>
    simp only [eventSystem] at hn
    split at hn <;> cases hn
    refine h.setQueue fun cmd hcmd => ?_
    unfold CommandQueue.refCntDown at hcmd
    split at hcmd <;> exact hcmd
  | callback q =>
    obtain ⟨-, hn⟩ := Option.ite_none_right_eq_some.mp hn
    cases hn
    have hcleared : (s.setQueue q { s.queues q with pending := false }).Reports bits :=
      h.setQueue fun _ hcmd => hcmd
    exact hcleared.goto rfl rfl
  | loop env =>
    obtain ⟨hadm, hn⟩ := Option.ite_none_right_eq_some.mp hn
    exact h.loop hs hadm hn
  | finish e =>
    obtain ⟨⟨-, hlive⟩, hn⟩ := Option.ite_none_right_eq_some.mp hn
    obtain ⟨r, hr, rfl⟩ := Option.map_eq_some_iff.mp hn
    refine (h.setAsComplete (fun call hcall hinline => ?_) hr).goto rfl rfl
    obtain ⟨call', hcall', hnot⟩ := h.ndrange e hlive
    rw [← Option.some.inj (hcall.symm.trans hcall'), hinline] at hnot
    cases hnot
  | process user =>
    cases hn
    exact h.keep (h.stored.step (l := .process user) trivial) rfl rfl rfl (fun _ => ⟨rfl, rfl⟩)
      (fun _ _ hcmd => Or.inl hcmd) (fun _ hcmd => Or.inl hcmd) (fun _ _ hcmd => hcmd) fun _ hk => hk

theorem reports (h : (eventSystem bits).Reachable s) : s.Reports bits :=
  (h.invariant (I := fun s => s.Sound ∧ s.Reports bits)
    (by rintro _ ⟨memory, user, rfl⟩; exact ⟨sound_new memory user, reports_new memory user⟩)
    fun _ _ _ hs hn => ⟨hs.1.step hn, hs.2.step hs.1 hn⟩).2

end Steps

/-! ## The verdict -/

/-- The two halves of the law say that the code is that of the first failure. -/
theorem right_iff (b : Buffers) (l : BufferLabel) (errCode : ℤ) :
    ((errCode = clSuccess ↔ b.CarriedOut l) ∧ (¬ b.CarriedOut l → errCode = b.firstFailure l)) ↔
      errCode = b.firstFailure l := by
  rw [← b.firstFailure_eq_success l]
  constructor
  · rintro ⟨hsuccess, hfailure⟩
    by_cases hdone : b.firstFailure l = clSuccess
    · rw [hdone]
      exact hsuccess.mpr hdone
    · exact hfailure hdone
  · rintro rfl
    exact ⟨Iff.rfl, fun _ => rfl⟩

theorem code_iff {bits : Bitstreams} {b : Buffers} {body : CommandBody} {env : KernelEnv}
    {l : BufferLabel} (hb : b.Stored) (haccepted : bits.accepts body = true)
    (hl : body.transfer env = some l) (hadm : b.Admissible l) :
    (b.handle l).1 = b.firstFailure l ↔ Buffers.Sized l ∧ b.FaultSeen l := by
  cases body with
  | writeBuffer args =>
    obtain rfl := Option.some.inj hl
    obtain ⟨m, hm⟩ := Option.isSome_iff_exists.mp haccepted
    exact Buffers.write_code_iff hb.sound hadm hm
  | readBuffer args =>
    obtain rfl := Option.some.inj hl
    obtain ⟨m, hm⟩ := Option.isSome_iff_exists.mp haccepted
    exact Buffers.read_code_iff hb hadm hm
  | ndrange args => cases hl
  | empty => cases hl

/-- The call of a blocking transfer returns the right code exactly when the size is not 0 and a fault
in its copy is seen. -/
theorem reported_iff {bits : Bitstreams} {s : EventRun} (h : (eventSystem bits).Reachable s) {e : ℕ}
    {call : EnqueueCall} {errCode : ℤ} {handle : Bool} (hcall : s.calls e = some call)
    (htransfer : call.isTransfer = true) (hreturned : call.point = .returned errCode handle) :
    s.Reported e call errCode ↔ s.Noticed e call := by
  have hr := reports h
  have htold := hr.told e call hcall htransfer
  unfold Told at htold
  rw [hreturned] at htold
  unfold Reported Noticed
  obtain ⟨hnone, hcode⟩ | ⟨b, env, l, hb, hl, hcode⟩ := htold
  · rw [hnone]
    exact iff_of_true hcode nofun
  · obtain ⟨hstored, call', l', hcall', hl', hadm, -⟩ := hr.handled e b env hb
    obtain rfl := Option.some.inj (hcall.symm.trans hcall')
    obtain rfl := Option.some.inj (hl.symm.trans hl')
    have hiff := (right_iff b l errCode).trans
      (hcode ▸ code_iff hstored (hr.accepted e call hcall) hl hadm)
    rw [hb]
    constructor
    · intro hright b' env' heq k hk
      obtain ⟨rfl, rfl⟩ := Prod.mk.inj (Option.some.inj heq)
      obtain rfl := Option.some.inj (hl.symm.trans hk)
      exact hiff.mp (hright l hl)
    · intro hnoticed k hk
      obtain rfl := Option.some.inj (hl.symm.trans hk)
      exact hiff.mpr (hnoticed b env rfl l hl)

/-- A client's thread alone with the loop thread: a blocking command on an empty queue. -/
def blockingRun (body : CommandBody) (env : KernelEnv) : List EventLabel :=
  [.enqueue 0 body true false, .client 0, .client 0, .callback 0] ++ List.replicate 6 (.loop env) ++
    List.replicate 3 (.client 0)

/-- A write of no bytes is reported with the code 1, the value of a comparison. -/
theorem empty_write_misreported : ∃ s call, (eventSystem ⟨fun _ => none, fun _ => none⟩).Reachable s ∧
    s.calls 0 = some call ∧ call.isTransfer = true ∧ call.point = .returned 1 false ∧
      ¬ s.Reported 0 call 1 := by
  have hrun : ((eventSystem ⟨fun _ => none, fun _ => none⟩).run (new (fun _ => 0) fun _ => 0)
      (blockingRun (.writeBuffer ⟨some 0, 0, 0, 16⟩) ⟨none, 0⟩)).map
      (fun s => (s.calls 0, (s.handled 0).map Prod.snd |>.isSome)) = some (some
        ⟨0, .writeBuffer ⟨some 0, 0, 0, 16⟩, true, false, .returned 1 false⟩, true) := by
    decide +kernel
  obtain ⟨s, hs, hfields⟩ := Machine.exists_reachable hrun ⟨_, _, rfl⟩
  obtain ⟨hcall, hhandled⟩ := Prod.mk.inj hfields
  rw [Option.isSome_map, Option.isSome_iff_exists] at hhandled
  obtain ⟨⟨b, env⟩, hb⟩ := hhandled
  refine ⟨s, _, hs, hcall, rfl, rfl, fun hreported => ?_⟩
  unfold Reported at hreported
  rw [hb] at hreported
  obtain ⟨-, hfailure⟩ := hreported _ rfl
  have hcode : (1 : ℤ) = clInvalidValue := hfailure fun hdone => absurd hdone.2.1 (lt_irrefl 0)
  exact Buffers.one_ne_clInvalidValue hcode

/-- A write that `vmalloc` refuses is reported as what it is. -/
theorem reported_iff_refused : ∃ s call, (eventSystem ⟨fun _ => none, fun _ => none⟩).Reachable s ∧
    s.calls 0 = some call ∧ call.point = .returned clMemObjectAllocationFailure false ∧
      s.Reported 0 call clMemObjectAllocationFailure := by
  have hrun : ((eventSystem ⟨fun _ => none, fun _ => none⟩).run (new (fun _ => 0) fun _ => 0)
      (blockingRun (.writeBuffer ⟨some 0, 0, 1, 16⟩) ⟨none, 0⟩)).map
      (fun s => (s.calls 0, (s.handled 0).map fun p => (p.2.vmalloc.isSome, p.2.uncopied))) =
        some (some ⟨0, .writeBuffer ⟨some 0, 0, 1, 16⟩, true, false,
          .returned clMemObjectAllocationFailure false⟩, some (false, 0)) := by
    decide +kernel
  obtain ⟨s, hs, hfields⟩ := Machine.exists_reachable hrun ⟨_, _, rfl⟩
  obtain ⟨hcall, hhandled⟩ := Prod.mk.inj hfields
  obtain ⟨⟨b, env⟩, hb, henv⟩ := Option.map_eq_some_iff.mp hhandled
  obtain ⟨-, hzero⟩ := Prod.mk.inj henv
  refine ⟨s, _, hs, hcall, rfl, (reported_iff hs hcall rfl rfl).mpr fun b' env' hb' l hl => ?_⟩
  obtain ⟨rfl, rfl⟩ := Prod.mk.inj (Option.some.inj (hb.symm.trans hb'))
  obtain rfl := Option.some.inj hl
  exact ⟨one_pos, fun _ _ _ hne => absurd hzero hne⟩

end EventRun

end FpgaMl
