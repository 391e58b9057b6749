import Mathlib.Tactic
import FpgaMl.Foundation.Monitor
import FpgaMl.BufferCommands

/-! # Waiting for an event (ocl_ds.h)

The mutex and the condition variable of `_cl_event`, between the threads in
`handle_blocking_non_blocking` (ocl_api.cc), each with its `wait_until_complete` and
`get_error_code`, and the loop thread, which sets the error code and then calls `set_as_complete`.
The systems of queues and events take a wait as one step, that of a gate. -/
namespace FpgaMl
open TransitionSystem Monitor
set_option autoImplicit false

def clComplete : ℤ := 0
def clRunning : ℤ := 1
def clQueued : ℤ := 3

/-- `m_event_state` and `m_error_code`, and how often the completion callback was called. -/
structure EventFields where
  eventState : ℤ
  errorCode : ℤ
  called : ℕ
  deriving DecidableEq, Repr

/-- What is written without the mutex. -/
inductive EventWrite
  | setAsRunning
  | setError (errCode : ℤ)

namespace EventFields

def new : EventFields := ⟨clQueued, clSuccess, 0⟩

/-- The condition of the loop in `wait_until_complete`. -/
def mustWait (e : EventFields) : Bool := e.eventState ≠ clComplete ∧ e.eventState > -1

def write (e : EventFields) : EventWrite → EventFields
  | .setAsRunning => { e with eventState := clRunning }
  | .setError errCode => { e with errorCode := errCode }

/-- The two statements of `set_as_complete` before it notifies. -/
def setComplete (e : EventFields) : EventFields := { e with eventState := clComplete }
def callBack (e : EventFields) : EventFields := { e with called := e.called + 1 }

end EventFields

def eventProtocol : Protocol EventFields EventWrite ℤ where
  initial := .new
  ready e := !e.mustWait
  observe := EventFields.errorCode
  prepare w e := e.write w
  assignments := [EventFields.setComplete, EventFields.callBack]

/-- Threads are numbered. -/
def eventMonitor : Machine (State ℕ EventFields ℤ) (Label ℕ EventWrite) := monitor ℕ eventProtocol

theorem eventProtocol_lawful : eventProtocol.Lawful where
  initial := by decide
  prepare w e h := by
    cases w with
    | setAsRunning => rfl
    | setError errCode => exact h
  assigned e := by
    simp [eventProtocol, Protocol.assigned, EventFields.callBack, EventFields.setComplete,
      EventFields.mustWait]

/-- How often the callback has been called when `set_as_complete` is so far. -/
def callsAt : Setter → ℕ
  | .before => 0
  | .inside k => k - 1
  | .notified => 1
  | .after => 1

/-- What `set_as_complete` has done so far. -/
structure SoFar (s : State ℕ EventFields ℤ) : Prop where
  bound : ∀ k, s.setter = .inside k → k ≤ 2
  called : s.value.called = callsAt s.setter
  complete : s.setter ≠ .before → s.setter ≠ .inside 0 → s.value.eventState = clComplete

theorem soFar {s : State ℕ EventFields ℤ} (h : eventMonitor.Reachable s) : SoFar s := by
  refine h.invariant (I := SoFar) ?_ ?_
  · rintro _ rfl
    exact ⟨fun _ => (nomatch ·), rfl, fun hne => absurd rfl hne⟩
  · rintro s l t ⟨hbound, hcalled, hcomplete⟩ hn
    cases move_next hn with
    | call | acquire | pass | sleep | wake | answer => exact ⟨hbound, hcalled, hcomplete⟩
    | prepare w hs =>
      refine ⟨hbound, ?_, fun hne => absurd hs hne⟩
      rw [← hcalled]
      cases w <;> rfl
    | lock hs hfree =>
      rw [hs] at hcalled
      refine ⟨fun k hk => ?_, hcalled, fun _ hne => absurd rfl hne⟩
      obtain rfl := Setter.inside.inj hk
      exact Nat.zero_le _
    | assign k f hs hf =>
      have hk : k < 2 := (List.getElem?_eq_some_iff.mp hf).1
      rw [hs] at hcalled
      refine ⟨fun j hj => ?_, ?_, fun _ _ => ?_⟩
      · obtain rfl := Setter.inside.inj hj
        exact hk
      · obtain _ | _ | k := k
        · cases hf
          exact hcalled
        · cases hf
          exact congrArg (· + 1) hcalled
        · omega
      · obtain _ | _ | k := k
        · cases hf
          rfl
        · cases hf
          exact hcomplete (by rw [hs]; exact (nomatch ·)) (by rw [hs]; exact (nomatch ·))
        · omega
    | notify k hs hf =>
      obtain rfl : k = 2 := le_antisymm (hbound k hs) (List.getElem?_eq_none_iff.mp hf)
      rw [hs] at hcalled hcomplete
      exact ⟨fun _ => (nomatch ·), hcalled, fun _ _ => hcomplete (nomatch ·) (nomatch ·)⟩
    | unlock hs =>
      rw [hs] at hcalled hcomplete
      exact ⟨fun _ => (nomatch ·), hcalled, fun _ _ => hcomplete (nomatch ·) (nomatch ·)⟩

/-- The blocking calls on an event, of the threads in `S`. They are those of a gate that
`set_as_complete` opens, with the error code set before. Once it has notified, the callback was called
and nobody sleeps. However the threads take turns, they come to an end, and then every call has
returned with that code. -/
theorem blocking_calls_return {s : State ℕ EventFields ℤ} {S : Finset ℕ}
    (h : eventMonitor.Reachable s) (hS : ∀ i, i ∉ S → s.waiter i = .outside) :
    (gate ℕ ℤ).Reachable (s.gate eventProtocol) ∧
    (s.setter.done = true → s.value.eventState = clComplete ∧ s.value.called = 1 ∧
      ∀ i, s.waiter i ≠ .asleep) ∧
    ∀ ls t, (∀ l ∈ ls, l.Internal) → eventMonitor.run s ls = some t →
      ls.length ≤ 6 * S.card + 5 ∧
      ((∀ l : Label ℕ EventWrite, l.Internal → eventMonitor.next t l = none) →
        t.setter = .after ∧ ∀ i, s.waiter i ≠ .outside → t.waiter i = .returned t.value.errorCode) := by
  refine ⟨refines_gate eventProtocol_lawful h, fun hdone => ⟨?_, ?_, ?_⟩, fun ls t hls hrun => ?_⟩
  · refine (soFar h).complete ?_ ?_ <;> rintro hs <;> rw [hs] at hdone <;> cases hdone
  · have hcalled := (soFar h).called
    cases hs : s.setter <;> rw [hs] at hdone hcalled
    · cases hdone
    · cases hdone
    · exact hcalled
    · exact hcalled
  · exact not_asleep eventProtocol_lawful h hdone
  · exact settles eventProtocol_lawful h hS hls hrun

/-- One thread sleeps and another one comes to the lock when a write that failed completes. -/
theorem blocking_calls_return_two : ∃ s t : State ℕ EventFields ℤ, ∃ ls,
    s.value.errorCode = clMemObjectAllocationFailure ∧ eventMonitor.run s ls = some t ∧
      t.waiter 0 = .returned t.value.errorCode ∧ t.waiter 1 = .returned t.value.errorCode := by
  have hrun : (eventMonitor.run ⟨.new, .free, fun _ => .outside, .before⟩
      [.call 0, .acquire 0, .test 0, .call 1, .prepare (.setError clMemObjectAllocationFailure),
        .set]).map (fun s => ((s.waiter 0).waits, (s.waiter 1).waits, s.value.errorCode)) =
      some (true, true, clMemObjectAllocationFailure) := by
    decide +kernel
  obtain ⟨s, hs, hview⟩ := Machine.exists_reachable hrun rfl
  simp only [Prod.mk.injEq] at hview
  obtain ⟨hzero, hone, hcode⟩ := hview
  have hcalled : ∀ i, (s.waiter i).waits = true → s.waiter i ≠ .outside := fun i hi hout => by
    rw [hout] at hi
    cases hi
  obtain ⟨S, hS⟩ := exists_callers hs
  obtain ⟨ls, t, hls, hrun, hend⟩ := exists_settled eventProtocol_lawful hs
  obtain ⟨-, hreturned⟩ := ((blocking_calls_return hs hS).2.2 ls t hls hrun).2 hend
  exact ⟨s, t, ls, hcode, hrun, hreturned 0 (hcalled 0 hzero), hreturned 1 (hcalled 1 hone)⟩

end FpgaMl
