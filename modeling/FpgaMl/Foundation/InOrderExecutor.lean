import Mathlib.Tactic
import FpgaMl.Foundation.Histories

/-! The in-order executor: jobs wait in the order in which they were submitted, at most one runs at
a time, and it finishes before the next one starts. `family` runs one machine per key side by side. -/
namespace TransitionSystem
set_option autoImplicit false

universe u v w

/-! ## Machines side by side -/

section Family

variable {κ : Type u} {τ : Type v} {ι : Type w} [DecidableEq κ]

/-- One machine per key; a step is one of the machine it names. -/
def Machine.family (κ : Type u) [DecidableEq κ] (N : Machine τ ι) : Machine (κ → τ) (κ × ι) where
  start f := ∀ k, N.start (f k)
  next f l := (N.next (f l.1) l.2).map (Function.update f l.1)

/-- The labels of one key. -/
def labelsOf (k : κ) (ls : List (κ × ι)) : List ι :=
  (ls.filter fun l => decide (l.1 = k)).map Prod.snd

theorem labelsOf_append (k : κ) (ls ks : List (κ × ι)) :
    labelsOf k (ls ++ ks) = labelsOf k ls ++ labelsOf k ks := by
  unfold labelsOf
  rw [List.filter_append, List.map_append]

theorem labelsOf_map_self (k : κ) (ls : List ι) : labelsOf k (ls.map fun l => (k, l)) = ls := by
  unfold labelsOf
  rw [List.filter_eq_self.mpr (by simp), List.map_map]
  exact List.map_id ls

theorem labelsOf_map_of_ne {j k : κ} (h : j ≠ k) (ls : List ι) :
    labelsOf k (ls.map fun l => (j, l)) = [] := by
  unfold labelsOf
  rw [List.filter_eq_nil_iff.mpr (by simp [h]), List.map_nil]

variable {N : Machine τ ι}

theorem Machine.family_run_single {f : κ → τ} (k : κ) {ls : List ι} {b : τ}
    (h : N.run (f k) ls = some b) :
    (N.family κ).run f (ls.map fun l => (k, l)) = some (Function.update f k b) := by
  induction ls generalizing f with
  | nil =>
    obtain rfl := Option.some.inj h
    rw [Function.update_eq_self]
    rfl
  | cons l ls ih =>
    obtain ⟨m, hm, h⟩ := Option.bind_eq_some_iff.mp h
    have hnext : (N.family κ).next f (k, l) = some (Function.update f k m) := by
      change (N.next (f k) l).map _ = _
      rw [hm, Option.map_some]
    have hrest := ih (f := Function.update f k m) (by rw [Function.update_self]; exact h)
    rw [Function.update_idem] at hrest
    rw [List.map_cons, Machine.run, hnext, Option.bind_some, hrest]

end Family

/-! ## The executor -/

structure Executor (α : Type u) where
  waiting : List α
  running : Option α
  finished : List α

inductive ExecutorOp (α : Type u)
  | submit (job : α)
  | start
  | finish

namespace Executor

variable {α : Type u}

def new : Executor α := ⟨[], none, []⟩

/-- The job in front starts when none runs, and a job that runs finishes. -/
def step (x : Executor α) : ExecutorOp α → Option (Executor α)
  | .submit job => some { x with waiting := x.waiting ++ [job] }
  | .start =>
    match x.running, x.waiting with
    | none, job :: rest => some { x with waiting := rest, running := some job }
    | _, _ => none
  | .finish =>
    match x.running with
    | some job => some { x with running := none, finished := x.finished ++ [job] }
    | none => none

def machine (α : Type u) : Machine (Executor α) (ExecutorOp α) where
  start x := x = new
  next := step

/-- What was started so far, in order. -/
def started (x : Executor α) : List α := x.finished ++ x.running.toList

def submitted : List (ExecutorOp α) → List α
  | [] => []
  | .submit job :: ops => job :: submitted ops
  | .start :: ops => submitted ops
  | .finish :: ops => submitted ops

theorem submitted_append (ops more : List (ExecutorOp α)) :
    submitted (ops ++ more) = submitted ops ++ submitted more := by
  induction ops with
  | nil => rfl
  | cons op ops ih => cases op <;> simp [submitted, ih]

theorem start_eq {x : Executor α} {job : α} {rest : List α} (hrun : x.running = none)
    (hwait : x.waiting = job :: rest) :
    (machine α).next x .start = some ⟨rest, some job, x.finished⟩ := by
  change x.step .start = _
  simp only [step, hrun, hwait]

theorem finish_eq {x : Executor α} {job : α} (hrun : x.running = some job) :
    (machine α).next x .finish = some ⟨x.waiting, none, x.finished ++ [job]⟩ := by
  change x.step .finish = _
  simp only [step, hrun]

end Executor

end TransitionSystem
