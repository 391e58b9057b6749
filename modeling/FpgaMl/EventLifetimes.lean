import Mathlib.Tactic
import FpgaMl.EnqueueCalls

/-! # The lives of events

An event's counter covers its holders in every interleaving of calls and callbacks. Three invariants
carry this: which commands the queues and the loop thread have, how often an event may still be
counted up, and the cover itself. -/
namespace FpgaMl
open MachineInt TransitionSystem Holders
set_option autoImplicit false

/-- How often the event may still be counted up, while its call has not been submitted. -/
def CallPoint.ahead : CallPoint → ℕ
  | created => 3
  | counted => 2
  | _ => 0

/-- How often the event of the popped command may still be counted up. -/
def CallbackPoint.ahead : CallbackPoint → ℕ
  | retiring _ _ => 2
  | installing _ _ => 2
  | dispatching _ _ => 1
  | _ => 0

namespace EventRun

def ring (s : EventRun) (q : ℕ) : List MLCLCommand := (s.queues q).ringBuffer.toList

def count (s : EventRun) (e : ℕ) : ℕ := (s.events e).counter.counter

/-- The call that made a command has submitted it to the queue `q`. -/
def Submitted (s : EventRun) (q : ℕ) (cmd : MLCLCommand) : Prop :=
  ∃ call, s.calls cmd.event = some call ∧ call.queue = q ∧ call.body = cmd.body ∧
    call.point.isSubmitted = true

/-! ## The commands -/

/-- A command exists until its call has submitted it, in the ring, and until the callback that popped
it deletes it. -/
structure Linked (s : EventRun) : Prop where
  fresh : ∀ e, s.nextEvent ≤ e → s.commands e = false
  call : ∀ e call, s.calls e = some call → call.point.isSubmitted = false → s.commands e = true
  ring : ∀ q, ∀ cmd ∈ s.ring q, s.commands cmd.event = true ∧ s.Submitted q cmd
  nodup : ∀ q, ((s.ring q).map MLCLCommand.event).Nodup
  current : ∀ cmd, s.point.command = some cmd → s.commands cmd.event = true ∧
    (∃ q, s.Submitted q cmd) ∧ ∀ q, ∀ other ∈ s.ring q, other.event ≠ cmd.event
  finishing : ∀ e, s.point = .finishing e → s.ndranges e = true

section Links

variable {s t : EventRun} {e q : ℕ} {call : EnqueueCall}

theorem Submitted.congr {cmd : MLCLCommand} (h : s.Submitted q cmd)
    (hcalls : t.calls cmd.event = s.calls cmd.event) : t.Submitted q cmd := by
  obtain ⟨call, hcall, hrest⟩ := h
  exact ⟨call, hcalls.trans hcall, hrest⟩

/-- A submitted call is not the one that a client still has to submit. -/
theorem Submitted.ne {cmd : MLCLCommand} (h : s.Submitted q cmd) (hcall : s.calls e = some call)
    (hpoint : call.point.isSubmitted = false) : cmd.event ≠ e := by
  rintro rfl
  obtain ⟨other, hother, -, -, hsubmitted⟩ := h
  rw [Option.some.inj (hcall.symm.trans hother), hsubmitted] at hpoint
  cases hpoint

/-- The steps that leave the commands where they are. -/
theorem Linked.keep (h : s.Linked) (hring : t.ring = s.ring) (hcommands : t.commands = s.commands)
    (hnext : t.nextEvent = s.nextEvent)
    (hcall : ∀ e call, t.calls e = some call → call.point.isSubmitted = false →
      ∃ call', s.calls e = some call' ∧ call'.point.isSubmitted = false)
    (hsubmitted : ∀ q cmd, s.Submitted q cmd → t.Submitted q cmd)
    (hcommand : ∀ cmd, t.point.command = some cmd → s.point.command = some cmd)
    (hfinishing : ∀ e, t.point = .finishing e → t.ndranges e = true) : t.Linked where
  fresh e he := by
    rw [hcommands]
    exact h.fresh e (hnext ▸ he)
  call e call hc hpoint := by
    obtain ⟨call', hc', hpoint'⟩ := hcall e call hc hpoint
    rw [hcommands]
    exact h.call e call' hc' hpoint'
  ring q cmd hcmd := by
    rw [hring] at hcmd
    rw [hcommands]
    exact ⟨(h.ring q cmd hcmd).1, hsubmitted q cmd (h.ring q cmd hcmd).2⟩
  nodup q := by
    rw [hring]
    exact h.nodup q
  current cmd hcmd := by
    obtain ⟨hexists, ⟨q, hs⟩, hapart⟩ := h.current cmd (hcommand cmd hcmd)
    rw [hcommands, hring]
    exact ⟨hexists, ⟨q, hsubmitted q cmd hs⟩, hapart⟩
  finishing := hfinishing

theorem Linked.born (h : s.Linked) (hring : t.ring = s.ring) (hpoint : t.point = s.point)
    (hndranges : t.ndranges = s.ndranges) (hnext : t.nextEvent = s.nextEvent + 1)
    (hnew : t.commands s.nextEvent = true)
    (hcommands : ∀ e, e ≠ s.nextEvent → t.commands e = s.commands e)
    (hcalls : ∀ e, e ≠ s.nextEvent → t.calls e = s.calls e) : t.Linked := by
  have hold : ∀ e, s.commands e = true → e ≠ s.nextEvent := by
    rintro e he rfl
    rw [h.fresh _ le_rfl] at he
    cases he
  have hkept : ∀ q cmd, s.commands cmd.event = true → s.Submitted q cmd →
      t.commands cmd.event = true ∧ t.Submitted q cmd := fun q cmd hexists hs =>
    ⟨(hcommands _ (hold _ hexists)).trans hexists, hs.congr (hcalls _ (hold _ hexists))⟩
  refine ⟨fun e he => ?_, fun e call hc hcall => ?_, fun q cmd hcmd => ?_, fun q => ?_,
    fun cmd hcmd => ?_, ?_⟩
  · rw [hcommands e (by omega)]
    exact h.fresh e (by omega)
  · by_cases he : e = s.nextEvent
    · rw [he]
      exact hnew
    · rw [hcommands e he]
      exact h.call e call (hcalls e he ▸ hc) hcall
  · rw [hring] at hcmd
    exact hkept q cmd (h.ring q cmd hcmd).1 (h.ring q cmd hcmd).2
  · rw [hring]
    exact h.nodup q
  · obtain ⟨hexists, ⟨q, hs⟩, hapart⟩ := h.current cmd (hpoint ▸ hcmd)
    obtain ⟨hexists, hs⟩ := hkept q cmd hexists hs
    rw [hring]
    exact ⟨hexists, ⟨q, hs⟩, hapart⟩
  · rw [hpoint, hndranges]
    exact h.finishing

/-- A call is submitted, and its command enters the ring. -/
theorem Linked.push (h : s.Linked) (hcall : s.calls e = some call)
    (hunsubmitted : call.point.isSubmitted = false)
    (hring : t.ring = Function.update s.ring call.queue (s.ring call.queue ++ [⟨e, call.body⟩]))
    (hcommands : t.commands = s.commands) (hnext : t.nextEvent = s.nextEvent)
    {point : CallPoint} (hpoint : point.isSubmitted = true)
    (hcalls : t.calls = Function.update s.calls e (some { call with point := point }))
    (hcommand : t.point = s.point) (hndranges : t.ndranges = s.ndranges) : t.Linked := by
  have hnew : t.Submitted call.queue ⟨e, call.body⟩ :=
    ⟨{ call with point := point }, by rw [hcalls, Function.update_self], rfl, rfl, hpoint⟩
  have hold : ∀ q cmd, s.Submitted q cmd → t.Submitted q cmd := fun q cmd hs =>
    hs.congr (by rw [hcalls, Function.update_of_ne (hs.ne hcall hunsubmitted)])
  have hmem : ∀ q cmd, cmd ∈ t.ring q →
      cmd ∈ s.ring q ∨ (q = call.queue ∧ cmd = ⟨e, call.body⟩) := by
    intro q cmd hcmd
    rw [hring, Function.update_apply] at hcmd
    split at hcmd
    · rename_i hq
      rw [List.mem_append, List.mem_singleton] at hcmd
      exact hcmd.imp (hq ▸ ·) fun heq => ⟨hq, heq⟩
    · exact Or.inl hcmd
  have hfresh : ∀ q, ∀ cmd ∈ s.ring q, cmd.event ≠ e := fun q cmd hcmd =>
    (h.ring q cmd hcmd).2.ne hcall hunsubmitted
  refine ⟨?_, fun k call' hc hpoint' => ?_, fun q cmd hcmd => ?_, fun q => ?_, fun cmd hcmd => ?_, ?_⟩
  · rw [hcommands, hnext]
    exact h.fresh
  · rw [hcommands]
    rw [hcalls, Function.update_apply] at hc
    split at hc
    · rename_i hk
      rw [hk]
      exact h.call e call hcall hunsubmitted
    · exact h.call k call' hc hpoint'
  · rw [hcommands]
    obtain hcmd | ⟨rfl, rfl⟩ := hmem q cmd hcmd
    · exact ⟨(h.ring q cmd hcmd).1, hold q cmd (h.ring q cmd hcmd).2⟩
    · exact ⟨h.call e call hcall hunsubmitted, hnew⟩
  · rw [hring, Function.update_apply]
    split
    · rw [List.map_append, List.nodup_append]
      refine ⟨h.nodup _, List.nodup_singleton _, fun i hi j hj hij => ?_⟩
      obtain ⟨cmd, hcmd, rfl⟩ := List.mem_map.mp hi
      exact hfresh _ cmd hcmd (hij.trans (List.mem_singleton.mp hj))
    · exact h.nodup q
  · rw [hcommand] at hcmd
    obtain ⟨hexists, ⟨q, hs⟩, hapart⟩ := h.current cmd hcmd
    rw [hcommands]
    refine ⟨hexists, ⟨q, hold q cmd hs⟩, fun q' other hother => ?_⟩
    obtain hother | ⟨-, rfl⟩ := hmem q' other hother
    · exact hapart q' other hother
    · exact (hs.ne hcall hunsubmitted).symm
  · rw [hcommand, hndranges]
    exact h.finishing

/-- The callback takes the first command of a ring. -/
theorem Linked.pop (h : s.Linked) {cmd : MLCLCommand} {rest : List MLCLCommand}
    (hfirst : s.ring q = cmd :: rest) (hring : t.ring = Function.update s.ring q rest)
    (hcommands : t.commands = s.commands) (hcalls : t.calls = s.calls)
    (hnext : t.nextEvent = s.nextEvent) (hcommand : t.point.command = some cmd)
    (hfinishing : ∀ e, t.point ≠ .finishing e) : t.Linked := by
  have hsub : ∀ q' other, s.Submitted q' other → t.Submitted q' other := fun q' other hs =>
    hs.congr (congrFun hcalls _)
  have hmem : ∀ q' other, other ∈ t.ring q' → other ∈ s.ring q' := by
    intro q' other hother
    rw [hring, Function.update_apply] at hother
    split at hother
    · rename_i hq
      rw [hq, hfirst]
      exact List.mem_cons_of_mem _ hother
    · exact hother
  have hnodup := h.nodup q
  rw [hfirst, List.map_cons, List.nodup_cons] at hnodup
  have hcmd := h.ring q cmd (hfirst ▸ List.mem_cons_self ..)
  refine ⟨?_, ?_, fun q' other hother => ?_, fun q' => ?_, fun other hother => ?_, fun e he => ?_⟩
  · rw [hcommands, hnext]
    exact h.fresh
  · rw [hcommands, hcalls]
    exact h.call
  · rw [hcommands]
    exact ⟨(h.ring q' other (hmem q' other hother)).1,
      hsub q' other (h.ring q' other (hmem q' other hother)).2⟩
  · rw [hring, Function.update_apply]
    split
    · exact hnodup.2
    · exact h.nodup q'
  · obtain rfl := Option.some.inj (hcommand.symm.trans hother)
    rw [hcommands]
    refine ⟨hcmd.1, ⟨q, hsub q cmd hcmd.2⟩, fun q' other hother heq => ?_⟩
    rw [hring, Function.update_apply] at hother
    split at hother
    · exact hnodup.1 (heq ▸ List.mem_map_of_mem hother)
    · -- a command is in the ring of the one queue that its call names
      rename_i hq
      obtain ⟨call, hcall, hqueue, -⟩ := hcmd.2
      obtain ⟨call', hcall', hqueue', -⟩ := (h.ring q' other hother).2
      rw [heq] at hcall'
      rw [Option.some.inj (hcall.symm.trans hcall'), hqueue'] at hqueue
      exact hq hqueue
  · exact absurd he (hfinishing e)

theorem Linked.delete (h : s.Linked) {cmd : MLCLCommand} (hcurrent : s.point.command = some cmd)
    (hring : t.ring = s.ring) (hcommands : t.commands = Function.update s.commands cmd.event false)
    (hcalls : t.calls = s.calls) (hnext : t.nextEvent = s.nextEvent)
    (hcommand : t.point = .idle) : t.Linked := by
  obtain ⟨-, ⟨q₀, hs⟩, hapart⟩ := h.current cmd hcurrent
  refine ⟨fun e he => ?_, fun e call hc hpoint => ?_, fun q other hother => ?_, ?_,
    fun other hother => ?_, fun e he => ?_⟩
  · rw [hcommands, Function.update_apply, h.fresh e (hnext ▸ he), ite_self]
  · rw [hcalls] at hc
    rw [hcommands, Function.update_of_ne (hs.ne hc hpoint).symm]
    exact h.call e call hc hpoint
  · rw [hring] at hother
    rw [hcommands, Function.update_of_ne (hapart q other hother)]
    exact ⟨(h.ring q other hother).1, (h.ring q other hother).2.congr (congrFun hcalls _)⟩
  · rw [hring]
    exact h.nodup
  · rw [hcommand] at hother
    cases hother
  · rw [hcommand] at he
    cases he

end Links

/-! ## The counters -/

/-- How often an event may be counted up is bounded, from the call on. -/
structure Bounded (s : EventRun) : Prop where
  all : ∀ e, s.count e ≤ 4
  call : ∀ e call, s.calls e = some call → s.count e + call.point.ahead ≤ 4
  ring : ∀ q, ∀ cmd ∈ s.ring q, s.count cmd.event ≤ 2
  current : ∀ cmd, s.point.command = some cmd → s.count cmd.event + s.point.ahead ≤ 4

/-- The counters cover the holders; an event that was never made has none, and one with a reference
is not deleted. -/
structure Covered (s : EventRun) : Prop where
  covers : ∀ e, Covers (s.Holds e) (s.count e)
  alive : ∀ e, 0 < s.count e → (s.events e).counter.deleted = false
  fresh : ∀ e, s.nextEvent ≤ e → s.count e = 0

/-- What a step does to the counters and the holders. -/
inductive CountMove (s t : EventRun) : Prop
  | quiet (hcounter : ∀ k, (t.events k).counter = (s.events k).counter)
      (hholds : ∀ k p, t.Holds k p → s.Holds k p)
  | up (e : ℕ) (p : Party) (hheld : 0 < s.count e)
      (hcounter : ∀ k, (t.events k).counter =
        if k = e then (s.events e).counter.refCntUp else (s.events k).counter)
      (hholds : ∀ k p', t.Holds k p' → (k = e ∧ p' = p) ∨ s.Holds k p')
  | down (e : ℕ) (p : Party) (hheld : s.Holds e p)
      (hcounter : ∀ k, (t.events k).counter =
        if k = e then (s.events e).counter.refCntDown else (s.events k).counter)
      (hholds : ∀ k p', t.Holds k p' → ¬ (k = e ∧ p' = p) ∧ s.Holds k p')

section Counts

variable {s t : EventRun} {e q : ℕ}

theorem Covered.old (h : s.Covered) (he : 0 < s.count e) : e < s.nextEvent := by
  by_contra hle
  rw [h.fresh e (not_lt.mp hle)] at he
  exact lt_irrefl _ he

theorem Covered.move (h : s.Covered) (hbound : s.Bounded) (hnext : t.nextEvent = s.nextEvent)
    (hmove : CountMove s t) : t.Covered := by
  cases hmove with
  | quiet hcounter hholds =>
    have hcount : ∀ k, t.count k = s.count k := fun k => congrArg RefCounter.counter (hcounter k)
    refine ⟨fun k => ?_, fun k hk => ?_, fun k hk => ?_⟩
    · exact (h.covers k).mono (hholds k) (hcount k).ge
    · rw [hcounter]
      exact h.alive k (hcount k ▸ hk)
    · rw [hcount]
      exact h.fresh k (hnext ▸ hk)
  | up e p hheld hcounter hholds =>
    have hsame : ∀ k, k ≠ e → (t.events k).counter = (s.events k).counter := fun k hk =>
      (hcounter k).trans (if_neg hk)
    have hrest : ∀ k, k ≠ e → t.count k = s.count k := fun k hk =>
      congrArg RefCounter.counter (hsame k hk)
    have hself : (t.events e).counter = (s.events e).counter.refCntUp := (hcounter e).trans (if_pos rfl)
    have hcount : t.count e = s.count e + 1 := by
      have hle := hbound.all e
      unfold count at hle ⊢
      rw [hself, RefCounter.counter_refCntUp (by omega)]
    refine ⟨fun k => ?_, fun k hk => ?_, fun k hk => ?_⟩
    · by_cases hke : k = e
      · subst hke
        rw [hcount]
        exact (h.covers k).acquire p fun p' hp' => (hholds k p' hp').imp And.right id
      · refine (h.covers k).mono (fun p' hp' => ?_) (hrest k hke).ge
        exact (hholds k p' hp').resolve_left fun hboth => hke hboth.1
    · by_cases hke : k = e
      · subst hke
        rw [hself, RefCounter.deleted_refCntUp]
        exact h.alive k hheld
      · rw [hsame k hke]
        exact h.alive k (hrest k hke ▸ hk)
    · have hke : k ≠ e := by
        have := h.old hheld
        omega
      exact (hrest k hke).trans (h.fresh k (hnext ▸ hk))
  | down e p hheld hcounter hholds =>
    have hsame : ∀ k, k ≠ e → (t.events k).counter = (s.events k).counter := fun k hk =>
      (hcounter k).trans (if_neg hk)
    have hrest : ∀ k, k ≠ e → t.count k = s.count k := fun k hk =>
      congrArg RefCounter.counter (hsame k hk)
    have hself : (t.events e).counter = (s.events e).counter.refCntDown :=
      (hcounter e).trans (if_pos rfl)
    have hcount : t.count e = s.count e - 1 :=
      (congrArg RefCounter.counter hself).trans (RefCounter.counter_refCntDown _)
    have hpos := (h.covers e).pos hheld
    refine ⟨fun k => ?_, fun k hk => ?_, fun k hk => ?_⟩
    · by_cases hke : k = e
      · subst hke
        rw [hcount]
        exact (h.covers k).drop hheld fun p' hp' =>
          ⟨fun heq => (hholds k p' hp').1 ⟨rfl, heq⟩, (hholds k p' hp').2⟩
      · exact (h.covers k).mono (fun p' hp' => (hholds k p' hp').2)
          (hrest k hke).ge
    · by_cases hke : k = e
      · subst hke
        rw [hcount] at hk
        rw [hself, RefCounter.deleted_refCntDown, h.alive k hpos, Bool.false_or, decide_eq_false_iff_not]
        unfold count at hk
        omega
      · rw [hsame k hke]
        exact h.alive k (hrest k hke ▸ hk)
    · have hke : k ≠ e := by
        have := h.old hpos
        omega
      exact (hrest k hke).trans (h.fresh k (hnext ▸ hk))

theorem Covered.born (h : s.Covered) (hevent : t.events s.nextEvent = .new)
    (hevents : ∀ k, k ≠ s.nextEvent → t.events k = s.events k)
    (hnext : t.nextEvent = s.nextEvent + 1)
    (hholds : ∀ k p, t.Holds k p → (k = s.nextEvent ∧ p = .command) ∨ s.Holds k p) : t.Covered := by
  have hone : t.count s.nextEvent = 1 := congrArg (fun event => event.counter.counter) hevent
  have hsame : ∀ k, k ≠ s.nextEvent → t.count k = s.count k := fun k hk =>
    congrArg (fun event => event.counter.counter) (hevents k hk)
  refine ⟨fun k => ?_, fun k hk => ?_, fun k hk => ?_⟩
  · by_cases hk : k = s.nextEvent
    · rw [hk, hone]
      have hnone := h.covers s.nextEvent
      rw [h.fresh _ le_rfl] at hnone
      exact hnone.acquire .command fun p hp => (hholds _ p hp).imp And.right id
    · rw [hsame k hk]
      exact (h.covers k).mono (fun p hp => (hholds k p hp).resolve_left fun hboth => hk hboth.1) le_rfl
  · by_cases hke : k = s.nextEvent
    · rw [hke, hevent]
      rfl
    · rw [hevents k hke]
      exact h.alive k (hsame k hke ▸ hk)
  · rw [hsame k (by omega)]
    exact h.fresh k (by omega)

/-! ### Bounds -/

/-- The steps that count nothing up. -/
theorem Bounded.keep (h : s.Bounded) (hcount : ∀ e, t.count e ≤ s.count e)
    (hcall : ∀ e call, t.calls e = some call → call.point.ahead = 0 ∨
      ∃ call', s.calls e = some call' ∧ call.point.ahead ≤ call'.point.ahead)
    (hring : ∀ q cmd, cmd ∈ t.ring q → cmd ∈ s.ring q)
    (hcurrent : ∀ cmd, t.point.command = some cmd →
      s.point.command = some cmd ∧ t.point.ahead ≤ s.point.ahead) : t.Bounded where
  all e := (hcount e).trans (h.all e)
  call e call hc := by
    have hle := hcount e
    obtain hzero | ⟨call', hc', hahead⟩ := hcall e call hc
    · have hall := h.all e
      omega
    · have hbound := h.call e call' hc'
      omega
  ring q cmd hcmd := (hcount _).trans (h.ring q cmd (hring q cmd hcmd))
  current cmd hcmd := by
    obtain ⟨hcmd', hahead⟩ := hcurrent cmd hcmd
    have hle := hcount cmd.event
    have hbound := h.current cmd hcmd'
    omega

/-- An event is counted up that was still ahead of it. -/
theorem Bounded.up (h : s.Bounded) (hbound : s.count e < 4) (hself : t.count e = s.count e + 1)
    (hcount : ∀ k, k ≠ e → t.count k = s.count k)
    (hcall : ∀ k call, t.calls k = some call → call.point.ahead = 0 ∨
      ∃ call', s.calls k = some call' ∧ call.point.ahead + (if k = e then 1 else 0) ≤ call'.point.ahead)
    (hring : ∀ q cmd, cmd ∈ t.ring q → cmd.event ≠ e ∧ cmd ∈ s.ring q)
    (hcurrent : ∀ cmd, t.point.command = some cmd → s.point.command = some cmd ∧
      t.point.ahead + (if cmd.event = e then 1 else 0) ≤ s.point.ahead) : t.Bounded := by
  have hle : ∀ k, t.count k ≤ s.count k + if k = e then 1 else 0 := by
    intro k
    split
    · rename_i hk
      rw [hk, hself]
    · rename_i hk
      rw [hcount k hk, Nat.add_zero]
  have hall : ∀ k, t.count k ≤ 4 := by
    intro k
    by_cases hk : k = e
    · rw [hk, hself]
      exact hbound
    · exact (hcount k hk).le.trans (h.all k)
  refine ⟨hall, fun k call hc => ?_, fun q cmd hcmd => ?_, fun cmd hcmd => ?_⟩
  · obtain hzero | ⟨call', hc', hahead⟩ := hcall k call hc
    · have := hall k
      omega
    · have := h.call k call' hc'
      have := hle k
      omega
  · obtain ⟨hne, hcmd⟩ := hring q cmd hcmd
    rw [hcount _ hne]
    exact h.ring q cmd hcmd
  · obtain ⟨hcmd', hahead⟩ := hcurrent cmd hcmd
    have := h.current cmd hcmd'
    have := hle cmd.event
    omega

end Counts

/-! ## The steps -/

structure Sound (s : EventRun) : Prop where
  linked : s.Linked
  bounded : s.Bounded
  covered : s.Covered

theorem sound_new (memory user : ℕ → UInt8) : (new memory user).Sound := by
  have hring : ∀ q cmd, cmd ∉ (new memory user).ring q := fun q cmd hcmd => List.not_mem_nil hcmd
  have hcall : ∀ e call, (new memory user).calls e ≠ some call := fun e call hc => by cases hc
  have hcommand : ∀ cmd, (new memory user).point.command ≠ some cmd := fun cmd hcmd => by cases hcmd
  have hcount : ∀ e, (new memory user).count e = 0 := fun _ => rfl
  refine ⟨⟨fun _ _ => rfl, fun e call hc => absurd hc (hcall e call),
    fun q cmd hcmd => absurd hcmd (hring q cmd), fun _ => List.nodup_nil,
    fun cmd hcmd => absurd hcmd (hcommand cmd), fun e he => ?_⟩,
    ⟨fun e => ?_, fun e call hc => absurd hc (hcall e call),
      fun q cmd hcmd => absurd hcmd (hring q cmd), fun cmd hcmd => absurd hcmd (hcommand cmd)⟩,
    ⟨fun e => covers_of_none (fun p hp => ?_) _, fun e he => ?_, fun e _ => hcount e⟩⟩
  · cases he
  · rw [hcount]
    exact Nat.zero_le _
  · cases p with
    | command => cases hp
    | client =>
      obtain ⟨call, hc, -⟩ := hp
      exact hcall e call hc
    | slot q => cases hp.1
    | ndrange => cases hp
  · rw [hcount] at he
    cases he

/-! ### Changes of a counter -/

theorem counter_refCntUp (s : EventRun) (e k : ℕ) : ((s.refCntUp e).events k).counter =
    if k = e then (s.events e).counter.refCntUp else (s.events k).counter := by
  unfold refCntUp setEvent
  dsimp only
  rw [Function.update_apply]
  split <;> rfl

theorem counter_refCntDown (s : EventRun) (e k : ℕ) : ((s.refCntDown e).events k).counter =
    if k = e then (s.events e).counter.refCntDown else (s.events k).counter := by
  unfold refCntDown setEvent
  dsimp only
  rw [Function.update_apply]
  split <;> rfl

theorem count_refCntUp {s : EventRun} {e : ℕ} (hbound : s.count e < 4) (k : ℕ) :
    (s.refCntUp e).count k = if k = e then s.count e + 1 else s.count k := by
  unfold count at hbound ⊢
  rw [counter_refCntUp]
  split
  · exact RefCounter.counter_refCntUp (by omega)
  · rfl

theorem count_refCntDown (s : EventRun) (e k : ℕ) :
    (s.refCntDown e).count k = if k = e then s.count k - 1 else s.count k := by
  unfold count
  rw [counter_refCntDown]
  split
  · rename_i hk
    rw [hk]
    exact RefCounter.counter_refCntDown _
  · rfl

theorem count_le_of_refCntDown (s : EventRun) (e k : ℕ) : (s.refCntDown e).count k ≤ s.count k := by
  rw [count_refCntDown]
  split
  · exact Nat.sub_le _ _
  · exact le_rfl

theorem ahead_of_submitted {point : CallPoint} (h : point.isSubmitted = true) : point.ahead = 0 := by
  cases point <;> first | rfl | cases h

section Steps

variable {s t : EventRun} {e q : ℕ} {call : EnqueueCall} {cmd : MLCLCommand} {env : KernelEnv}

theorem ring_setQueue (s : EventRun) (q : ℕ) (queue : CommandQueue) :
    (s.setQueue q queue).ring = Function.update s.ring q queue.ringBuffer.toList := by
  funext k
  unfold EventRun.ring EventRun.setQueue
  dsimp only
  rw [Function.update_apply, Function.update_apply]
  split <;> rfl

theorem lastEvent_setQueue {queue : CommandQueue}
    (hlast : queue.lastEvent = (s.queues q).lastEvent) (k : ℕ) :
    ((s.setQueue q queue).queues k).lastEvent = (s.queues k).lastEvent := by
  unfold setQueue
  dsimp only
  by_cases hk : k = q
  · subst hk
    rw [Function.update_self]
    exact hlast
  · rw [Function.update_of_ne hk]

/-- What the invariants do not look at may change. -/
theorem Sound.congr (h : s.Sound) (hring : t.ring = s.ring)
    (hlast : ∀ q, (t.queues q).lastEvent = (s.queues q).lastEvent) (hpoint : t.point = s.point)
    (hcounter : ∀ e, (t.events e).counter = (s.events e).counter)
    (hcommands : t.commands = s.commands) (hndranges : t.ndranges = s.ndranges)
    (hcalls : t.calls = s.calls) (hnext : t.nextEvent = s.nextEvent) : t.Sound := by
  refine ⟨h.linked.keep hring hcommands hnext (fun e call hc hp => ⟨call, hcalls ▸ hc, hp⟩)
    (fun q cmd hs => hs.congr (congrFun hcalls _)) (fun cmd hcmd => hpoint ▸ hcmd)
    (fun e he => hndranges ▸ h.linked.finishing e (hpoint ▸ he)), ?_, ?_⟩
  · refine h.bounded.keep (fun e => (congrArg RefCounter.counter (hcounter e)).le)
      (fun e call hc => Or.inr ⟨call, hcalls ▸ hc, le_rfl⟩) (fun q cmd hcmd => hring ▸ hcmd)
      fun cmd hcmd => ?_
    rw [hpoint] at hcmd ⊢
    exact ⟨hcmd, le_rfl⟩
  · refine h.covered.move h.bounded hnext (.quiet hcounter fun k p hp => ?_)
    cases p with
    | command => exact (congrFun hcommands k).symm.trans hp
    | client =>
      obtain ⟨call, hcall, hholds⟩ := hp
      exact ⟨call, hcalls ▸ hcall, hholds⟩
    | slot q =>
      obtain ⟨he, hvacant⟩ := hp
      exact ⟨(hlast q).symm.trans he, hpoint ▸ hvacant⟩
    | ndrange => exact (congrFun hndranges k).symm.trans hp

theorem Sound.setQueue (h : s.Sound) {queue : CommandQueue}
    (hring : queue.ringBuffer.toList = s.ring q) (hlast : queue.lastEvent = (s.queues q).lastEvent) :
    (s.setQueue q queue).Sound :=
  h.congr (by rw [ring_setQueue, hring, Function.update_eq_self]) (lastEvent_setQueue hlast) rfl
    (fun _ => rfl) rfl rfl rfl rfl

/-- The loop thread goes on, with the same command or none. -/
theorem Sound.goto (h : s.Sound) {point : CallbackPoint}
    (hcommand : ∀ cmd, point.command = some cmd → s.point.command = some cmd)
    (hahead : point.ahead ≤ s.point.ahead) (hinstalled : ∀ q cmd, s.point ≠ .installing q cmd)
    (hfinishing : ∀ e, point = .finishing e → s.ndranges e = true) : (s.goto point).Sound := by
  refine ⟨h.linked.keep rfl rfl rfl (fun e call hc hp => ⟨call, hc, hp⟩) (fun q cmd hs => hs)
    hcommand hfinishing, h.bounded.keep (fun e => le_rfl) (fun e call hc => Or.inr ⟨call, hc, le_rfl⟩)
    (fun q cmd hcmd => hcmd) fun cmd hcmd => ⟨hcommand cmd hcmd, hahead⟩, ?_⟩
  refine h.covered.move h.bounded rfl (.quiet (fun _ => rfl) fun k p hp => ?_)
  cases p with
  | slot q => exact ⟨hp.1, hinstalled q⟩
  | _ => exact hp

/-! ### Calls -/

/-- The call that `enqueue` makes. -/
theorem calls_enqueue (s : EventRun) (q : ℕ) (body : CommandBody) (blocking userEvent : Bool) :
    ∃ call : EnqueueCall, call.queue = q ∧ call.body = body ∧ call.point = .created ∧
      (s.enqueue q body blocking userEvent).calls =
        Function.update s.calls s.nextEvent (some call) := by
  unfold EventRun.enqueue
  dsimp only
  split
  · exact ⟨_, rfl, rfl, rfl, rfl⟩
  · exact ⟨_, rfl, rfl, rfl, rfl⟩

/-- The calls after one of them has gone on, or was made. -/
theorem calls_update {s t : EventRun} {e k : ℕ} {c call : EnqueueCall}
    (hcalls : t.calls = Function.update s.calls e (some c)) (h : t.calls k = some call) :
    (k = e ∧ call = c) ∨ (k ≠ e ∧ s.calls k = some call) := by
  rw [hcalls, Function.update_apply] at h
  split at h
  · rename_i hk
    exact Or.inl ⟨hk, (Option.some.inj h).symm⟩
  · rename_i hk
    exact Or.inr ⟨hk, h⟩

theorem Sound.enqueue (h : s.Sound) (body : CommandBody) (blocking userEvent : Bool) :
    (s.enqueue q body blocking userEvent).Sound := by
  have hnone : s.count s.nextEvent = 0 := h.covered.fresh _ le_rfl
  obtain ⟨made, -, -, hcreated, hmade⟩ := s.calls_enqueue q body blocking userEvent
  have hcalls : ∀ k, k ≠ s.nextEvent →
      (s.enqueue q body blocking userEvent).calls k = s.calls k := fun k hk =>
    Function.update_of_ne hk ..
  have hevents : ∀ k, k ≠ s.nextEvent →
      (s.enqueue q body blocking userEvent).events k = s.events k := fun k hk =>
    Function.update_of_ne hk ..
  have hcommands : ∀ k, k ≠ s.nextEvent →
      (s.enqueue q body blocking userEvent).commands k = s.commands k := fun k hk =>
    Function.update_of_ne hk ..
  have hevent : (s.enqueue q body blocking userEvent).events s.nextEvent = .new :=
    Function.update_self ..
  have hone : (s.enqueue q body blocking userEvent).count s.nextEvent = s.count s.nextEvent + 1 := by
    rw [hnone]
    exact congrArg (fun event => event.counter.counter) hevent
  have hsame : ∀ k, k ≠ s.nextEvent →
      (s.enqueue q body blocking userEvent).count k = s.count k := fun k hk =>
    congrArg (fun event => event.counter.counter) (hevents k hk)
  have hold : ∀ k, s.commands k = true → k ≠ s.nextEvent := by
    rintro k hk rfl
    rw [h.linked.fresh _ le_rfl] at hk
    cases hk
  refine ⟨h.linked.born rfl rfl rfl rfl (Function.update_self ..) hcommands hcalls, ?_,
    h.covered.born hevent hevents rfl fun k p hp => ?_⟩
  · refine ⟨fun k => ?_, fun k call hc => ?_, fun q' cmd hcmd => ?_, fun cmd hcmd => ?_⟩
    · by_cases hk : k = s.nextEvent
      · rw [hk, hone, hnone]
        norm_num
      · rw [hsame k hk]
        exact h.bounded.all k
    · obtain ⟨rfl, rfl⟩ | ⟨hk, hc⟩ := calls_update hmade hc
      · rw [hone, hnone, hcreated]
        decide
      · rw [hsame k hk]
        exact h.bounded.call k call hc
    · rw [hsame _ (hold _ (h.linked.ring q' cmd hcmd).1)]
      exact h.bounded.ring q' cmd hcmd
    · rw [hsame _ (hold _ (h.linked.current cmd hcmd).1)]
      exact h.bounded.current cmd hcmd
  · cases p with
    | command =>
      by_cases hk : k = s.nextEvent
      · exact Or.inl ⟨hk, rfl⟩
      · exact Or.inr ((hcommands k hk).symm.trans hp)
    | client =>
      obtain ⟨call, hcall, hholds⟩ := hp
      obtain ⟨rfl, rfl⟩ | ⟨-, hcall⟩ := calls_update hmade hcall
      · rw [hcreated] at hholds
        cases hholds
      · exact Or.inr ⟨call, hcall, hholds⟩
    | slot q => exact Or.inr hp
    | ndrange => exact Or.inr hp

/-- What a change of a call leaves of the others. -/
theorem calls_setCall (s : EventRun) (e k : ℕ) (call : EnqueueCall) :
    (s.setCall e call).calls k = if k = e then some call else s.calls k := Function.update_apply ..

/-- Of two states with the same calls but one. -/
theorem submitted_setCall (hcall : s.calls e = some call) {point : CallPoint}
    (hpoint : point.isSubmitted = true) (hcalls : t.calls = Function.update s.calls e
      (some { call with point := point })) (hs : s.Submitted q cmd) : t.Submitted q cmd := by
  by_cases he : cmd.event = e
  · obtain ⟨call', hcall', hqueue, hbody, -⟩ := hs
    obtain rfl := Option.some.inj (hcall.symm.trans (he ▸ hcall'))
    exact ⟨{ call with point := point }, by rw [hcalls, he, Function.update_self], hqueue, hbody, hpoint⟩
  · exact hs.congr (by rw [hcalls, Function.update_of_ne he])

theorem unsubmitted_setCall {point : CallPoint} (hpoint : point.isSubmitted = true)
    (hcalls : t.calls = Function.update s.calls e (some { call with point := point })) {k : ℕ}
    {call' : EnqueueCall} (hc : t.calls k = some call') (hp : call'.point.isSubmitted = false) :
    s.calls k = some call' := by
  rw [hcalls, Function.update_apply] at hc
  split at hc
  · rw [← Option.some.inj hc, hpoint] at hp
    cases hp
  · exact hc

theorem ahead_setCall {point : CallPoint} (hpoint : point.isSubmitted = true)
    (hcalls : t.calls = Function.update s.calls e (some { call with point := point })) {k : ℕ}
    {call' : EnqueueCall} (hc : t.calls k = some call') :
    call'.point.ahead = 0 ∨ ∃ call'', s.calls k = some call'' ∧ call'.point.ahead ≤ call''.point.ahead := by
  by_cases hp : call'.point.isSubmitted = true
  · exact Or.inl (ahead_of_submitted hp)
  · exact Or.inr ⟨call', unsubmitted_setCall hpoint hcalls hc (Bool.eq_false_iff.mpr hp), le_rfl⟩

theorem holds_setCall (hcall : s.calls e = some call) {point : CallPoint}
    (hholds : point.holds = true → call.point.holds = true) {k : ℕ} {p : Party}
    (hp : (s.setCall e { call with point := point }).Holds k p) : s.Holds k p := by
  cases p with
  | client =>
    obtain ⟨call', hc, hh⟩ := hp
    rw [calls_setCall] at hc
    split at hc
    · rename_i hk
      rw [← Option.some.inj hc] at hh
      exact ⟨call, hk ▸ hcall, hholds hh⟩
    · exact ⟨call', hc, hh⟩
  | _ => exact hp

/-- A call goes on past its submission, and takes no reference. -/
theorem Sound.setCall (h : s.Sound) (hcall : s.calls e = some call) {point : CallPoint}
    (hpoint : point.isSubmitted = true) (hholds : point.holds = true → call.point.holds = true) :
    (s.setCall e { call with point := point }).Sound := by
  refine ⟨h.linked.keep rfl rfl rfl (fun k call' hc hp =>
    ⟨call', unsubmitted_setCall hpoint rfl hc hp, hp⟩) (fun q cmd hs =>
      submitted_setCall hcall hpoint rfl hs) (fun cmd hcmd => hcmd) h.linked.finishing,
    h.bounded.keep (fun _ => le_rfl) (fun k call' hc => ahead_setCall hpoint rfl hc)
      (fun q cmd hcmd => hcmd) fun cmd hcmd => ⟨hcmd, le_rfl⟩, ?_⟩
  exact h.covered.move h.bounded rfl (.quiet (fun _ => rfl) fun k p hp =>
    holds_setCall hcall hholds hp)

/-- A call gives up its reference. -/
theorem Sound.drop (h : s.Sound) (hcall : s.calls e = some call) {point : CallPoint}
    (hpoint : point.isSubmitted = true) (hheld : call.point.holds = true)
    (hdropped : point.holds = false) :
    ((s.refCntDown e).setCall e { call with point := point }).Sound := by
  refine ⟨h.linked.keep rfl rfl rfl (fun k call' hc hp =>
    ⟨call', unsubmitted_setCall hpoint rfl hc hp, hp⟩) (fun q cmd hs =>
      submitted_setCall hcall hpoint rfl hs) (fun cmd hcmd => hcmd) h.linked.finishing,
    h.bounded.keep (count_le_of_refCntDown s e) (fun k call' hc => ahead_setCall hpoint rfl hc)
      (fun q cmd hcmd => hcmd) fun cmd hcmd => ⟨hcmd, le_rfl⟩, ?_⟩
  refine h.covered.move h.bounded rfl (.down e .client ⟨call, hcall, hheld⟩
    (counter_refCntDown s e) fun k p hp => ?_)
  cases p with
  | client =>
    obtain ⟨call', hc, hh⟩ := hp
    rw [calls_setCall] at hc
    split at hc
    · rw [← Option.some.inj hc, hdropped] at hh
      cases hh
    · rename_i hk
      exact ⟨fun hboth => hk hboth.1, call', hc, hh⟩
  | _ =>
    refine ⟨fun hboth => ?_, hp⟩
    cases hboth.2

/-- The client counts the event up before it submits the command. -/
theorem Sound.countUp (h : s.Sound) (hcall : s.calls e = some call) (hpoint : call.point = .created) :
    ((s.refCntUp e).setCall e { call with point := .counted }).Sound := by
  have hunsubmitted : call.point.isSubmitted = false := by rw [hpoint]; rfl
  have hexists : s.Holds e .command := h.linked.call e call hcall hunsubmitted
  have hbound := h.bounded.call e call hcall
  rw [hpoint] at hbound
  have hbound : s.count e < 4 := by
    change s.count e + 3 ≤ 4 at hbound
    omega
  have hcount := count_refCntUp hbound
  refine ⟨h.linked.keep rfl rfl rfl (fun k call' hc hp => ?_) (fun q cmd hs =>
      hs.congr ((calls_setCall ..).trans (if_neg (hs.ne hcall hunsubmitted))))
      (fun cmd hcmd => hcmd) h.linked.finishing,
    h.bounded.up hbound ((hcount e).trans (if_pos rfl)) (fun k hk => (hcount k).trans (if_neg hk))
      (fun k call' hc => ?_) (fun q cmd hcmd => ?_) fun cmd hcmd => ⟨hcmd, ?_⟩, ?_⟩
  · rw [calls_setCall] at hc
    split at hc
    · rename_i hk
      exact ⟨call, hk ▸ hcall, hunsubmitted⟩
    · exact ⟨call', hc, hp⟩
  · rw [calls_setCall] at hc
    split at hc
    · rename_i hk
      rw [← Option.some.inj hc]
      refine Or.inr ⟨call, hk ▸ hcall, ?_⟩
      rw [if_pos hk, hpoint]
      exact le_rfl
    · rename_i hk
      refine Or.inr ⟨call', hc, ?_⟩
      rw [if_neg hk]
      exact le_rfl
  · exact ⟨(h.linked.ring q cmd hcmd).2.ne hcall hunsubmitted, hcmd⟩
  · obtain ⟨-, ⟨q, hs⟩, -⟩ := h.linked.current cmd hcmd
    rw [if_neg (hs.ne hcall hunsubmitted)]
    exact le_rfl
  · refine h.covered.move h.bounded rfl (.up e .client ((h.covered.covers e).pos hexists)
      (counter_refCntUp s e) fun k p hp => ?_)
    cases p with
    | client =>
      obtain ⟨call', hc, hh⟩ := hp
      rw [calls_setCall] at hc
      split at hc
      · rename_i hk
        exact Or.inl ⟨hk, rfl⟩
      · exact Or.inr ⟨call', hc, hh⟩
    | _ => exact Or.inr hp

/-- What `push_back` does to a queue: nothing that the invariants see, or the command enters. -/
theorem pushBack_cases (queue : CommandQueue) (cmd : MLCLCommand) :
    (queue.pushBack cmd).2.lastEvent = queue.lastEvent ∧
      ((queue.pushBack cmd).2.ringBuffer.toList = queue.ringBuffer.toList ∨
        (queue.pushBack cmd).1 = none ∧
          (queue.pushBack cmd).2.ringBuffer.toList = queue.ringBuffer.toList ++ [cmd]) := by
  unfold CommandQueue.pushBack
  split
  · exact ⟨rfl, Or.inl rfl⟩
  · refine ⟨rfl, ?_⟩
    by_cases hfull : queue.ringBuffer.isFull = true
    · left
      change (queue.ringBuffer.pushBack cmd).2.toList = _
      rw [CircArray.pushBack_full _ _ hfull]
    · right
      exact ⟨rfl, CircArray.toList_pushBack _ _ (Bool.eq_false_iff.mpr hfull)⟩

theorem ahead_of_unsubmitted {point : CallPoint} (h : point.isSubmitted = false) :
    2 ≤ point.ahead := by
  cases point <;> first | decide | cases h

theorem Sound.push (h : s.Sound) (hcall : s.calls e = some call)
    (hunsubmitted : call.point.isSubmitted = false) {point : CallPoint}
    (hpoint : point.isSubmitted = true) (hholds : point.holds = true → call.point.holds = true)
    {queue : CommandQueue} (hring : queue.ringBuffer.toList = s.ring call.queue ++ [⟨e, call.body⟩])
    (hlast : queue.lastEvent = (s.queues call.queue).lastEvent) :
    ((s.setQueue call.queue queue).setCall e { call with point := point }).Sound := by
  have hpush : (s.setQueue call.queue queue).ring =
      Function.update s.ring call.queue (s.ring call.queue ++ [⟨e, call.body⟩]) := by
    rw [ring_setQueue, hring]
  refine ⟨h.linked.push hcall hunsubmitted hpush rfl rfl hpoint rfl rfl rfl,
    ⟨h.bounded.all, fun k call' hc => ?_, fun q cmd hcmd => ?_, h.bounded.current⟩, ?_⟩
  · obtain hzero | ⟨call'', hc', hahead⟩ := ahead_setCall hpoint rfl hc
    · rw [hzero]
      exact h.bounded.all k
    · exact (Nat.add_le_add_left hahead _).trans (h.bounded.call k call'' hc')
  · change cmd ∈ (s.setQueue call.queue queue).ring q at hcmd
    rw [hpush, Function.update_apply] at hcmd
    split at hcmd
    · obtain hcmd | hcmd := List.mem_append.mp hcmd
      · exact h.bounded.ring _ cmd hcmd
      · rw [List.mem_singleton.mp hcmd]
        have hbound := h.bounded.call e call hcall
        have hahead := ahead_of_unsubmitted hunsubmitted
        change s.count e ≤ 2
        omega
    · exact h.bounded.ring q cmd hcmd
  · refine h.covered.move h.bounded rfl (.quiet (fun _ => rfl) fun k p hp => ?_)
    have hp : (s.setQueue call.queue queue).Holds k p :=
      holds_setCall (s := s.setQueue call.queue queue) hcall hholds hp
    cases p with
    | slot q => exact ⟨(lastEvent_setQueue hlast q).symm.trans hp.1, hp.2⟩
    | _ => exact hp

theorem Sound.submit (h : s.Sound) (hcall : s.calls e = some call)
    (hunsubmitted : call.point.isSubmitted = false) {released taken : CallPoint}
    (hreleased : released.isSubmitted = true ∧ (released.holds = true → call.point.holds = true))
    (htaken : taken.isSubmitted = true ∧ (taken.holds = true → call.point.holds = true))
    (hn : s.submit e call released taken = some t) : t.Sound := by
  unfold EventRun.submit at hn
  split at hn
  · cases hn
  obtain ⟨hlast, hring⟩ := pushBack_cases (s.queues call.queue) ⟨e, call.body⟩
  cases hpush : (s.queues call.queue).pushBack ⟨e, call.body⟩ with
  | mk rc queue =>
    rw [hpush] at hn hlast hring
    dsimp only at hn hlast hring
    rw [← Option.some.inj hn]
    obtain hring | ⟨hrc, hring⟩ := hring
    · have hqueue : (s.setQueue call.queue queue).Sound := h.setQueue hring hlast
      split
      · exact hqueue.setCall hcall hreleased.1 hreleased.2
      · exact hqueue.setCall hcall htaken.1 htaken.2
    · rw [if_neg (by rw [hrc]; simp)]
      exact h.push hcall hunsubmitted htaken.1 htaken.2 hring hlast

theorem Sound.client (h : s.Sound) (hcall : s.calls e = some call)
    (hn : s.clientStep e call = some t) : t.Sound := by
  unfold clientStep at hn
  split at hn
  · rename_i hpoint
    split at hn
    · exact h.submit hcall (by rw [hpoint]; rfl) ⟨rfl, fun h => by cases h⟩ ⟨rfl, fun h => by cases h⟩ hn
    · cases hn
      exact h.countUp hcall hpoint
  · rename_i hpoint
    have hholds : call.point.holds = true := by rw [hpoint]; rfl
    exact h.submit hcall (by rw [hpoint]; rfl) ⟨rfl, fun _ => hholds⟩ ⟨rfl, fun _ => hholds⟩ hn
  · rename_i hpoint
    cases hn
    exact h.drop hcall rfl (by rw [hpoint]; rfl) rfl
  · rename_i hpoint
    have hholds : call.point.holds = true := by rw [hpoint]; rfl
    split at hn
    · cases hn
      exact h.setCall hcall rfl fun _ => hholds
    · split at hn
      · cases hn
        exact h.setCall hcall rfl fun _ => hholds
      · cases hn
  · rename_i hpoint
    cases hn
    exact h.setCall hcall rfl fun _ => by rw [hpoint]; rfl
  · rename_i errCode hpoint
    have hholds : call.point.holds = true := by rw [hpoint]; rfl
    split at hn
    · cases hn
      exact h.setCall hcall rfl fun _ => hholds
    · cases hn
      exact h.drop hcall rfl hholds rfl
  · cases hn

/-! ### The callback -/

theorem popFront_cases {queue rest : CommandQueue} (hpop : queue.popFront = some (cmd, rest)) :
    rest.lastEvent = queue.lastEvent ∧
      queue.ringBuffer.toList = cmd :: rest.ringBuffer.toList := by
  obtain ⟨⟨first, ring⟩, hring, heq⟩ := Option.map_eq_some_iff.mp hpop
  obtain ⟨rfl, rfl⟩ := Prod.mk.inj heq
  exact ⟨rfl, (CircArray.toList_popFront hring).1⟩

theorem Sound.pop (h : s.Sound) (hpoint : s.point = .popping q) {queue : CommandQueue}
    (hpop : (s.queues q).popFront = some (cmd, queue)) :
    ((s.setQueue q queue).goto (.retiring q cmd)).Sound := by
  obtain ⟨hlast, hfirst⟩ := popFront_cases hpop
  have hfirst : s.ring q = cmd :: queue.ringBuffer.toList := hfirst
  have hrest := ring_setQueue s q queue
  have hmem : ∀ q' other, other ∈ (s.setQueue q queue).ring q' → other ∈ s.ring q' := by
    intro q' other hother
    rw [hrest, Function.update_apply] at hother
    split at hother
    · rename_i hq
      rw [hq, hfirst]
      exact List.mem_cons_of_mem _ hother
    · exact hother
  refine ⟨h.linked.pop hfirst hrest rfl rfl rfl rfl fun e he => ?_,
    ⟨h.bounded.all, h.bounded.call,
      fun q' other hother => h.bounded.ring q' other (hmem q' other hother), fun other hother => ?_⟩, ?_⟩
  · cases he
  · obtain rfl := Option.some.inj hother
    have hbound := h.bounded.ring q cmd (hfirst ▸ List.mem_cons_self ..)
    change s.count cmd.event + 2 ≤ 4
    omega
  · refine h.covered.move h.bounded rfl (.quiet (fun _ => rfl) fun k p hp => ?_)
    cases p with
    | slot q' =>
      refine ⟨(lastEvent_setQueue hlast q').symm.trans hp.1, fun other hother => ?_⟩
      rw [hpoint] at hother
      cases hother
    | _ => exact hp

/-- The slot of a queue gives up its reference to the event of the command before. -/
theorem Sound.retire (h : s.Sound) (hpoint : s.point = .retiring q cmd)
    (hlast : (s.queues q).lastEvent = some e) : ((s.refCntDown e).goto (.installing q cmd)).Sound := by
  have hinstalled : ∀ q' other, s.point ≠ .installing q' other := by
    intro q' other
    rw [hpoint]
    exact nofun
  refine ⟨h.linked.keep rfl rfl rfl (fun k call hc hp => ⟨call, hc, hp⟩) (fun q cmd hs => hs)
    (fun other hother => ?_) nofun, h.bounded.keep (fun k => ?_)
      (fun k call hc => Or.inr ⟨call, hc, le_rfl⟩) (fun q cmd hcmd => hcmd) fun other hother => ?_, ?_⟩
  · rw [hpoint]
    exact hother
  · exact count_le_of_refCntDown s e k
  · rw [hpoint]
    exact ⟨hother, le_rfl⟩
  · refine h.covered.move h.bounded rfl (.down e (.slot q) ⟨hlast, hinstalled q⟩
      (counter_refCntDown s e) fun k p hp => ?_)
    cases p with
    | slot q' =>
      refine ⟨fun hboth => ?_, hp.1, hinstalled q'⟩
      rw [Party.slot.inj hboth.2] at hp
      exact hp.2 cmd rfl
    | _ =>
      refine ⟨fun hboth => ?_, hp⟩
      cases hboth.2

/-- The event of the popped command is counted up, for the slot or for an `NDRange`. -/
theorem Sound.acquire (h : s.Sound) (hcommand : s.point.command = some cmd)
    (hahead : t.point.ahead + 1 ≤ s.point.ahead) (hpoint : t.point.command = some cmd)
    (hring : t.ring = s.ring) (hcounter : ∀ k, (t.events k).counter =
      if k = cmd.event then (s.events cmd.event).counter.refCntUp else (s.events k).counter)
    (hcommands : t.commands = s.commands) (hcalls : t.calls = s.calls)
    (hnext : t.nextEvent = s.nextEvent) {p : Party}
    (hholds : ∀ k p', t.Holds k p' → (k = cmd.event ∧ p' = p) ∨ s.Holds k p') : t.Sound := by
  obtain ⟨hexists, ⟨q, hs⟩, hapart⟩ := h.linked.current cmd hcommand
  have hheld : s.Holds cmd.event .command := hexists
  have hbound := h.bounded.current cmd hcommand
  have hbound : s.count cmd.event < 4 := by omega
  have hself : t.count cmd.event = s.count cmd.event + 1 := by
    have hup := hcounter cmd.event
    rw [if_pos rfl] at hup
    unfold count at hbound ⊢
    rw [hup, RefCounter.counter_refCntUp (by omega)]
  refine ⟨h.linked.keep hring hcommands hnext (fun k call hc hp => ⟨call, hcalls ▸ hc, hp⟩)
      (fun q cmd hs => hs.congr (congrFun hcalls _)) (fun other hother => ?_) fun e he => ?_,
    h.bounded.up hbound hself (fun k hk => ?_) (fun k call hc => ?_) (fun q' other hother => ?_)
      fun other hother => ?_,
    h.covered.move h.bounded hnext (.up cmd.event p ((h.covered.covers _).pos hheld) hcounter hholds)⟩
  · rw [hcommand, ← hpoint]
    exact hother
  · rw [he] at hpoint
    cases hpoint
  · exact congrArg RefCounter.counter ((hcounter k).trans (if_neg hk))
  · -- the call of the popped command is past its submission
    by_cases hp : call.point.isSubmitted = true
    · exact Or.inl (ahead_of_submitted hp)
    · rw [hcalls] at hc
      refine Or.inr ⟨call, hc, ?_⟩
      rw [if_neg (hs.ne hc (Bool.eq_false_iff.mpr hp)).symm]
      exact le_rfl
  · rw [hring] at hother
    exact ⟨hapart q' other hother, hother⟩
  · obtain rfl := Option.some.inj (hpoint.symm.trans hother)
    rw [if_pos rfl]
    exact ⟨hcommand, hahead⟩

/-- The slot takes a reference to the event of the popped command. -/
theorem Sound.install (h : s.Sound) (hpoint : s.point = .installing q cmd)
    (hn : s.loopStep env = some t) : t.Sound := by
  unfold loopStep at hn
  rw [hpoint] at hn
  cases hn
  refine h.acquire (p := .slot q) (by rw [hpoint]; rfl) (by rw [hpoint]; exact le_rfl) rfl ?_
    (fun k => ?_) rfl rfl rfl fun k p hp => ?_
  · refine (ring_setQueue s q _).trans ?_
    exact Function.update_eq_self ..
  · refine Eq.trans ?_ (counter_refCntUp (s.setQueue q ((s.queues q).setLastEvent cmd.event)) cmd.event k)
    unfold setEvent EventRun.goto
    dsimp only
    rw [Function.update_apply]
    split
    · rename_i hk
      rw [hk]
    · rfl
  · cases p with
    | slot q' =>
      obtain ⟨hlast, -⟩ := hp
      change (Function.update s.queues q _ q').lastEvent = some k at hlast
      rw [Function.update_apply] at hlast
      split at hlast
      · rename_i hq
        exact Or.inl ⟨(Option.some.inj hlast).symm, congrArg Party.slot hq⟩
      · rename_i hq
        refine Or.inr ⟨hlast, fun other hother => hq ?_⟩
        rw [hpoint] at hother
        cases hother
        rfl
    | _ => exact Or.inr hp

theorem Sound.dispatch (h : s.Sound) (hpoint : s.point = .dispatching q cmd) (env : KernelEnv) :
    (s.dispatch q cmd env).Sound := by
  have hmoved : ∀ point : CallbackPoint, point.command = some cmd → point.ahead = 0 →
      (s.goto point).Sound := by
    intro point hcommand hahead
    refine h.goto (fun other hother => ?_) (by rw [hahead]; exact Nat.zero_le _) (fun q' other => ?_)
      fun e he => ?_
    · rw [hpoint, ← hother, hcommand]
      rfl
    · rw [hpoint]
      exact nofun
    · rw [he] at hcommand
      cases hcommand
  have hcounter : ∀ (r : EventRun) (e k : ℕ) (errCode : ℤ),
      ((r.setError e errCode).events k).counter = (r.events k).counter := by
    intro r e k errCode
    unfold EventRun.setError setEvent
    dsimp only
    rw [Function.update_apply]
    split
    · rename_i hk
      rw [hk]
    · rfl
  unfold EventRun.dispatch
  split
  · exact (hmoved (.completing q cmd) rfl rfl).congr rfl (fun _ => rfl) rfl
      (fun k => hcounter _ cmd.event k _) rfl rfl rfl rfl
  · exact (hmoved (.completing q cmd) rfl rfl).congr rfl (fun _ => rfl) rfl
      (fun k => hcounter _ cmd.event k _) rfl rfl rfl rfl
  · split
    · exact hmoved _ rfl rfl
    · exact hmoved _ rfl rfl
    · refine h.acquire (p := .ndrange) (by rw [hpoint]; rfl) (by rw [hpoint]; exact le_rfl) rfl rfl
        (counter_refCntUp s cmd.event) rfl rfl rfl fun k p hp => ?_
      cases p with
      | slot q' =>
        refine Or.inr ⟨hp.1, fun other hother => ?_⟩
        rw [hpoint] at hother
        cases hother
      | ndrange =>
        change Function.update s.ndranges cmd.event true k = true at hp
        rw [Function.update_apply] at hp
        split at hp
        · rename_i hk
          exact Or.inl ⟨hk, rfl⟩
        · exact Or.inr hp
      | _ => exact Or.inr hp
  · exact hmoved _ rfl rfl

theorem Sound.setAsComplete (h : s.Sound) (hn : s.setAsComplete e = some t) :
    t.Sound ∧ t.point = s.point ∧ t.ndranges = s.ndranges := by
  obtain ⟨q, -, rfl⟩ := Option.map_eq_some_iff.mp hn
  have hdone : (s.setEvent e { s.events e with complete := true }).Sound := by
    refine h.congr rfl (fun _ => rfl) rfl (fun k => ?_) rfl rfl rfl rfl
    unfold setEvent
    dsimp only
    rw [Function.update_apply]
    split
    · rename_i hk
      rw [hk]
    · rfl
  dsimp only
  split
  · exact ⟨hdone, rfl, rfl⟩
  · exact ⟨hdone.setQueue rfl rfl, rfl, rfl⟩

/-- `delete cmd`. -/
theorem Sound.delete (h : s.Sound) (hpoint : s.point = .deleting cmd)
    (hn : s.loopStep env = some t) : t.Sound := by
  unfold loopStep at hn
  rw [hpoint] at hn
  cases hn
  have hcommand : s.point.command = some cmd := by rw [hpoint]; rfl
  refine ⟨h.linked.delete hcommand rfl rfl rfl rfl rfl,
    h.bounded.keep (count_le_of_refCntDown s cmd.event) (fun k call hc => Or.inr ⟨call, hc, le_rfl⟩)
      (fun q cmd hcmd => hcmd) nofun,
    h.covered.move h.bounded rfl (.down cmd.event .command (h.linked.current cmd hcommand).1
      (counter_refCntDown s cmd.event) fun k p hp => ?_)⟩
  cases p with
  | command =>
    change Function.update s.commands cmd.event false k = true at hp
    rw [Function.update_apply] at hp
    split at hp
    · cases hp
    · rename_i hk
      exact ⟨fun hboth => hk hboth.1, hp⟩
  | slot q' =>
    refine ⟨fun hboth => ?_, hp.1, fun other hother => ?_⟩
    · cases hboth.2
    · rw [hpoint] at hother
      cases hother
  | _ =>
    refine ⟨fun hboth => ?_, hp⟩
    cases hboth.2

/-- `~NDRange`. -/
theorem Sound.finish (h : s.Sound) (hpoint : s.point = .finishing e)
    (hn : s.loopStep env = some t) : t.Sound := by
  unfold loopStep at hn
  rw [hpoint] at hn
  cases hn
  refine ⟨h.linked.keep rfl rfl rfl (fun k call hc hp => ⟨call, hc, hp⟩) (fun q cmd hs => hs) nofun nofun,
    h.bounded.keep (count_le_of_refCntDown s e) (fun k call hc => Or.inr ⟨call, hc, le_rfl⟩)
      (fun q cmd hcmd => hcmd) nofun,
    h.covered.move h.bounded rfl (.down e .ndrange (h.linked.finishing e hpoint)
      (counter_refCntDown s e) fun k p hp => ?_)⟩
  cases p with
  | ndrange =>
    change Function.update s.ndranges e false k = true at hp
    rw [Function.update_apply] at hp
    split at hp
    · cases hp
    · rename_i hk
      exact ⟨fun hboth => hk hboth.1, hp⟩
  | slot q' =>
    refine ⟨fun hboth => ?_, hp.1, fun other hother => ?_⟩
    · cases hboth.2
    · rw [hpoint] at hother
      cases hother
  | _ =>
    refine ⟨fun hboth => ?_, hp⟩
    cases hboth.2

/-- The steps of the callback that move the loop thread and no reference. -/
theorem Sound.advance (h : s.Sound) {point : CallbackPoint}
    (hcommand : point.command = none ∨ point.command = s.point.command) (hahead : point.ahead = 0)
    (hinstalled : ∀ q cmd, s.point ≠ .installing q cmd) (hfinishing : ∀ e, point ≠ .finishing e) :
    (s.goto point).Sound := by
  refine h.goto (fun cmd hcmd => ?_) (by rw [hahead]; exact Nat.zero_le _) hinstalled
    fun e he => absurd he (hfinishing e)
  obtain hnone | hsame := hcommand
  · rw [hnone] at hcmd
    cases hcmd
  · exact hsame ▸ hcmd

theorem Sound.loop (h : s.Sound) (hn : s.loopStep env = some t) : t.Sound := by
  cases hpoint : s.point with
  | installing q cmd => exact h.install hpoint hn
  | deleting cmd => exact h.delete hpoint hn
  | finishing e => exact h.finish hpoint hn
  | idle =>
    simp only [loopStep, hpoint] at hn
    cases hn
  | entered q =>
    simp only [loopStep, hpoint] at hn
    split at hn
    · cases hn
      exact h.advance (Or.inl rfl) rfl (by rw [hpoint]; exact nofun) nofun
    · split at hn <;> cases hn <;>
        exact h.advance (Or.inl rfl) rfl (by rw [hpoint]; exact nofun) nofun
  | popping q =>
    simp only [loopStep, hpoint] at hn
    obtain ⟨⟨cmd, queue⟩, hpop, rfl⟩ := Option.map_eq_some_iff.mp hn
    exact h.pop hpoint hpop
  | retiring q cmd =>
    simp only [loopStep, hpoint] at hn
    split at hn
    · rename_i e hlast
      cases hn
      exact h.retire hpoint hlast
    · cases hn
      refine h.goto (fun other hother => ?_) ?_ ?_ nofun <;> rw [hpoint]
      · exact hother
      · exact le_rfl
      · exact nofun
  | dispatching q cmd =>
    simp only [loopStep, hpoint] at hn
    cases hn
    exact h.dispatch hpoint env
  | completing q cmd =>
    simp only [loopStep, hpoint] at hn
    obtain ⟨r, hr, rfl⟩ := Option.map_eq_some_iff.mp hn
    obtain ⟨hsound, hsame, -⟩ := h.setAsComplete hr
    exact hsound.advance (Or.inr (by rw [hsame, hpoint]; rfl)) rfl (by rw [hsame, hpoint]; exact nofun)
      nofun
  | rechecking q cmd =>
    simp only [loopStep, hpoint] at hn
    obtain ⟨e, -, ht⟩ := Option.map_eq_some_iff.mp hn
    split at ht <;> rw [← ht]
    · have hfed : (s.setQueue q (s.queues q).feed).Sound := h.setQueue rfl rfl
      exact hfed.advance (Or.inr (congrArg CallbackPoint.command hpoint).symm) rfl
        (by change ∀ q' cmd', s.point ≠ _; rw [hpoint]; exact nofun) nofun
    · exact h.advance (Or.inr (congrArg CallbackPoint.command hpoint).symm) rfl
        (by rw [hpoint]; exact nofun) nofun
  | checking q cmd =>
    have hnext : ∀ r : EventRun, r.Sound → r.point = .checking q cmd →
        (r.goto (.leaving cmd)).Sound := by
      intro r hr hp
      cases cmd with
      | none => exact hr.advance (Or.inl rfl) rfl (by rw [hp]; exact nofun) nofun
      | some cmd => exact hr.advance (Or.inr (by rw [hp]; rfl)) rfl (by rw [hp]; exact nofun) nofun
    simp only [loopStep, hpoint] at hn
    split at hn <;> cases hn
    · refine hnext _ ?_ hpoint
      have hcleared : (s.setQueue q { s.queues q with pending := false }).Sound := h.setQueue rfl rfl
      exact hcleared.congr rfl (fun _ => rfl) rfl (fun _ => rfl) rfl rfl rfl rfl
    · exact hnext s h hpoint

theorem Sound.step {bits : Bitstreams} {l : EventLabel} (h : s.Sound)
    (hn : (eventSystem bits).next s l = some t) : t.Sound := by
  cases l with
  | enqueue q body blocking userEvent =>
    obtain ⟨-, hn⟩ := Option.ite_none_right_eq_some.mp hn
    cases hn
    exact h.enqueue body blocking userEvent
  | client e =>
    obtain ⟨call, hcall, hn⟩ := Option.bind_eq_some_iff.mp hn
    exact h.client hcall hn
  | releaseQueue q =>
    simp only [eventSystem] at hn
    split at hn <;> cases hn
    refine h.setQueue ?_ ?_ <;> unfold CommandQueue.refCntDown <;> split <;> rfl
  | callback q =>
    obtain ⟨⟨hidle, -⟩, hn⟩ := Option.ite_none_right_eq_some.mp hn
    cases hn
    have hcleared : (s.setQueue q { s.queues q with pending := false }).Sound := h.setQueue rfl rfl
    exact hcleared.advance (Or.inl rfl) rfl (by change ∀ q' cmd', s.point ≠ _; rw [hidle]; exact nofun)
      nofun
  | loop env =>
    obtain ⟨-, hn⟩ := Option.ite_none_right_eq_some.mp hn
    exact h.loop hn
  | finish e =>
    obtain ⟨⟨hidle, hlive⟩, hn⟩ := Option.ite_none_right_eq_some.mp hn
    obtain ⟨r, hr, rfl⟩ := Option.map_eq_some_iff.mp hn
    obtain ⟨hsound, hsame, hndranges⟩ := h.setAsComplete hr
    refine hsound.goto (fun cmd hcmd => ?_) (Nat.zero_le _) (by rw [hsame, hidle]; exact nofun)
      fun k hk => ?_
    · cases hcmd
    · cases hk
      rw [hndranges]
      exact hlive
  | process user =>
    cases hn
    exact h.congr rfl (fun _ => rfl) rfl (fun _ => rfl) rfl rfl rfl rfl

end Steps

theorem sound {bits : Bitstreams} {s : EventRun} (h : (eventSystem bits).Reachable s) : s.Sound :=
  h.invariant (by rintro _ ⟨memory, user, rfl⟩; exact sound_new memory user)
    fun _ _ _ hs hn => hs.step hn

/-! ## The law -/

/-- Every event that a step reads or changes is held by a party. -/
theorem Sound.uses_held {bits : Bitstreams} {s t : EventRun} {l : EventLabel} (h : s.Sound)
    (hn : (eventSystem bits).next s l = some t) : ∀ e ∈ s.uses l, ∃ p, s.Holds e p := by
  have hcommand : ∀ cmd, s.point.command = some cmd → ∃ p, s.Holds cmd.event p := fun cmd hcmd =>
    ⟨.command, (h.linked.current cmd hcmd).1⟩
  have hslot : ∀ q e, (∀ cmd, s.point ≠ .installing q cmd) → e ∈ (s.queues q).lastEvent.toList →
      ∃ p, s.Holds e p := fun q e hpoint he => ⟨.slot q, Option.mem_toList.mp he, hpoint⟩
  intro e he
  cases l with
  | enqueue q body blocking userEvent => cases he
  | releaseQueue q => cases he
  | callback q => cases he
  | process user => cases he
  | client k =>
    obtain rfl := List.mem_singleton.mp he
    obtain ⟨call, hcall, hn⟩ := Option.bind_eq_some_iff.mp hn
    have hclient : call.point.holds = true → ∃ p, s.Holds e p := fun hh => ⟨.client, call, hcall, hh⟩
    have hexists : call.point.isSubmitted = false → ∃ p, s.Holds e p := fun hp =>
      ⟨.command, h.linked.call e call hcall hp⟩
    cases hpoint : call.point with
    | created => exact hexists (by rw [hpoint]; rfl)
    | counted => exact hexists (by rw [hpoint]; rfl)
    | returned errCode handle =>
      simp only [clientStep, hpoint] at hn
      cases hn
    | _ => exact hclient (by rw [hpoint]; rfl)
  | finish k =>
    obtain rfl := List.mem_singleton.mp he
    obtain ⟨⟨-, hlive⟩, -⟩ := Option.ite_none_right_eq_some.mp hn
    exact ⟨.ndrange, hlive⟩
  | loop env =>
    cases hpoint : s.point with
    | idle =>
      simp only [uses, hpoint] at he
      cases he
    | popping q =>
      simp only [uses, hpoint] at he
      cases he
    | entered q =>
      simp only [uses, hpoint] at he
      exact hslot q e (by rw [hpoint]; exact nofun) he
    | finishing k =>
      simp only [uses, hpoint] at he
      obtain rfl := List.mem_singleton.mp he
      exact ⟨.ndrange, h.linked.finishing e hpoint⟩
    | retiring q cmd =>
      simp only [uses, hpoint] at he
      obtain rfl | he := List.mem_cons.mp he
      · exact hcommand cmd (by rw [hpoint]; rfl)
      · exact hslot q e (by rw [hpoint]; exact nofun) he
    | rechecking q cmd =>
      simp only [uses, hpoint] at he
      obtain rfl | he := List.mem_cons.mp he
      · exact hcommand cmd (by rw [hpoint]; rfl)
      · exact hslot q e (by rw [hpoint]; exact nofun) he
    | _ =>
      simp only [uses, hpoint] at he
      obtain ⟨cmd, hcmd, rfl⟩ := List.mem_map.mp he
      exact hcommand cmd (by rw [hpoint]; exact Option.mem_toList.mp hcmd)

/-- In every reachable state an event's counter covers its holders, and an event that a party holds, or
that a step uses, has a reference and is not deleted. -/
theorem events_outlive_holders {bits : Bitstreams} {s : EventRun}
    (h : (eventSystem bits).Reachable s) :
    (∀ e, Covers (s.Holds e) (s.events e).counter.counter) ∧
      (∀ e p, s.Holds e p →
        0 < (s.events e).counter.counter ∧ (s.events e).counter.deleted = false) ∧
      ∀ l t, (eventSystem bits).next s l = some t → ∀ e ∈ s.uses l,
        0 < (s.events e).counter.counter ∧ (s.events e).counter.deleted = false := by
  have hs := sound h
  have halive : ∀ e p, s.Holds e p →
      0 < (s.events e).counter.counter ∧ (s.events e).counter.deleted = false := fun e p hp =>
    ⟨(hs.covered.covers e).pos hp, hs.covered.alive e ((hs.covered.covers e).pos hp)⟩
  refine ⟨hs.covered.covers, halive, fun l t hn e he => ?_⟩
  obtain ⟨p, hp⟩ := hs.uses_held hn e he
  exact halive e p hp

/-- A blocking write whose client has returned before the callback is at its end: the command and the
slot still hold the event. -/
theorem events_outlive_holders_returned : ∃ s, (eventSystem ⟨fun _ => none, fun _ => none⟩).Reachable s ∧
    s.calls 0 = some ⟨0, .writeBuffer ⟨some 0, 0, 1, 16⟩, true, false, .returned clSuccess false⟩ ∧
      s.point = .rechecking 0 ⟨0, .writeBuffer ⟨some 0, 0, 1, 16⟩⟩ ∧
      Covers (s.Holds 0) 2 ∧ (s.events 0).counter.deleted = false := by
  have hrun : ((eventSystem ⟨fun _ => none, fun _ => none⟩).run (new (fun _ => 0) fun _ => 0)
      ([.enqueue 0 (.writeBuffer ⟨some 0, 0, 1, 16⟩) true false, .client 0, .client 0, .callback 0] ++
        List.replicate 6 (.loop ⟨some (4096, fun _ => 0), 0⟩) ++ List.replicate 3 (.client 0))).map
      (fun s => (s.calls 0, s.point, (s.events 0).counter.counter, s.commands 0)) =
        some (some ⟨0, .writeBuffer ⟨some 0, 0, 1, 16⟩, true, false, .returned clSuccess false⟩,
          .rechecking 0 ⟨0, .writeBuffer ⟨some 0, 0, 1, 16⟩⟩, 2, true) := by
    decide +kernel
  obtain ⟨s, hs, hfields⟩ := Machine.exists_reachable hrun ⟨_, _, rfl⟩
  obtain ⟨hcall, hpoint, hcount, hexists⟩ : s.calls 0 = _ ∧ s.point = _ ∧
      (s.events 0).counter.counter = 2 ∧ s.commands 0 = true := by
    simpa only [Prod.mk.injEq] using hfields
  obtain ⟨hcovers, halive, -⟩ := events_outlive_holders hs
  exact ⟨s, hs, hcall, hpoint, hcount ▸ hcovers 0, (halive 0 .command hexists).2⟩

end EventRun

end FpgaMl
