import Mathlib.Tactic

/-! The queue with a single server: jobs are served in the order in which they arrive, one at a
time. A job leaves at its arrival or at the departure before it, whichever is later, plus its
length. -/
namespace SingleServer
set_option autoImplicit false

universe u

structure Job (α : Type u) where
  arrival : α
  length : α

variable {α : Type u} [LinearOrder α] [Add α]

/-- When a job leaves; `last` is the departure before it, if there was one. -/
def leave (last : Option α) (job : Job α) : α :=
  last.elim job.arrival (max job.arrival) + job.length

def departures : Option α → List (Job α) → List α
  | _, [] => []
  | last, job :: jobs => leave last job :: departures (some (leave last job)) jobs

@[simp] theorem length_departures (last : Option α) (jobs : List (Job α)) :
    (departures last jobs).length = jobs.length := by
  induction jobs generalizing last with
  | nil => rfl
  | cons job jobs ih => rw [departures, List.length_cons, List.length_cons, ih]

theorem departures_append (last : Option α) (jobs more : List (Job α)) :
    departures last (jobs ++ more) =
      departures last jobs ++ departures ((departures last jobs).getLast?.or last) more := by
  induction jobs generalizing last with
  | nil => rfl
  | cons job jobs ih =>
    rw [List.cons_append, departures, departures, List.cons_append, ih]
    congr 3
    cases departures (some (leave last job)) jobs with
    | nil => rfl
    | cons d ds => rw [List.getLast?_cons_cons, List.getLast?_cons, Option.some_or, Option.some_or]

/-- A job that arrives last leaves last. -/
theorem departures_concat (jobs : List (Job α)) (job : Job α) :
    departures none (jobs ++ [job]) =
      departures none jobs ++ [leave (departures none jobs).getLast? job] := by
  rw [departures_append, Option.or_none]
  rfl

theorem departures_succ {last : Option α} {jobs : List (Job α)} {k : ℕ} {d : α} {job : Job α}
    (hd : (departures last jobs)[k]? = some d) (hjob : jobs[k + 1]? = some job) :
    (departures last jobs)[k + 1]? = some (leave (some d) job) := by
  induction jobs generalizing last k with
  | nil => cases hjob
  | cons first jobs ih =>
    rw [departures, List.getElem?_cons_succ]
    rw [departures] at hd
    rw [List.getElem?_cons_succ] at hjob
    cases k with
    | zero =>
      rw [List.getElem?_cons_zero, Option.some.injEq] at hd
      cases jobs with
      | nil => cases hjob
      | cons second jobs =>
        rw [List.getElem?_cons_zero, Option.some.injEq] at hjob
        rw [departures, List.getElem?_cons_zero, hd, hjob]
    | succ k => exact ih hd hjob

end SingleServer
