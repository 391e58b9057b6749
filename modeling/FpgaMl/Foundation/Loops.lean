import Mathlib.Tactic

/-! Loops whose body may fail. `doWhile` runs its body once before the first test and takes the number
of turns it may make; a loop that ends does so for every number that is large enough. -/
namespace Loops
set_option autoImplicit false

universe u

variable {σ : Type u}

/-- `do body while (again)`, for at most `fuel` turns; `none` is a body or a test that fails, or a
turn too many. -/
def doWhile (body : σ → Option σ) (again : σ → Option Bool) : ℕ → σ → Option σ
  | 0, _ => none
  | fuel + 1, s => (body s).bind fun t => (again t).bind fun more =>
    if more then doWhile body again fuel t else some t

/-- The loop passes through the states `s 0, …, s (m + 1)` and ends in the last one. -/
theorem doWhile_passes {body : σ → Option σ} {again : σ → Option Bool} {s : ℕ → σ} {m fuel : ℕ}
    (hbody : ∀ k ≤ m, body (s k) = some (s (k + 1)))
    (hagain : ∀ k < m, again (s (k + 1)) = some true)
    (hstop : again (s (m + 1)) = some false) (hfuel : m < fuel) :
    doWhile body again fuel (s 0) = some (s (m + 1)) := by
  obtain ⟨fuel, rfl⟩ := Nat.exists_eq_succ_of_ne_zero (Nat.ne_zero_of_lt hfuel)
  induction m generalizing s fuel with
  | zero => simp [doWhile, hbody 0 le_rfl, hstop]
  | succ m ih =>
    have hfirst : again (s 1) = some true := hagain 0 (Nat.succ_pos m)
    rw [doWhile, hbody 0 (Nat.zero_le _), Option.bind_some, hfirst, Option.bind_some, if_pos rfl]
    obtain ⟨fuel, rfl⟩ := Nat.exists_eq_succ_of_ne_zero (show fuel ≠ 0 by omega)
    exact ih (s := fun k => s (k + 1)) (fun k hk => hbody (k + 1) (by omega))
      (fun k hk => hagain (k + 1) (by omega)) hstop fuel (by omega)

/-- A loop whose test has no value does not end. -/
theorem doWhile_fails {body : σ → Option σ} {again : σ → Option Bool} (h : ∀ s, again s = none)
    (fuel : ℕ) (s : σ) : doWhile body again fuel s = none := by
  cases fuel with
  | zero => rfl
  | succ fuel =>
    rw [doWhile]
    simp only [h, Option.bind_none, Option.bind_fun_none]

section Fold

variable {α : Type*} {f : σ → α → Option σ} {g : σ → α → σ}

/-- A fold whose steps succeed is the fold of their values. -/
theorem foldlM_of_some (l : List α) (h : ∀ s, ∀ a ∈ l, f s a = some (g s a)) (s : σ) :
    l.foldlM f s = some (l.foldl g s) := by
  induction l generalizing s with
  | nil => rfl
  | cons a l ih =>
    rw [List.foldlM_cons, h s a List.mem_cons_self]
    exact ih (fun s b hb => h s b (List.mem_cons_of_mem a hb)) (g s a)

theorem foldl_of_foldlM (l : List α) (h : ∀ s a t, f s a = some t → g s a = t) {s t : σ}
    (hl : l.foldlM f s = some t) : l.foldl g s = t := by
  induction l generalizing s with
  | nil => exact Option.some.inj hl
  | cons a l ih =>
    rw [List.foldlM_cons] at hl
    obtain ⟨u, hu, hl⟩ := Option.bind_eq_some_iff.mp hl
    rw [List.foldl_cons, h s a u hu]
    exact ih hl

/-- What every step keeps, the fold keeps. -/
theorem foldlM_invariant {P : σ → Prop} {l : List α}
    (hstep : ∀ a ∈ l, ∀ s t, f s a = some t → P s → P t) {s t : σ} (h : l.foldlM f s = some t)
    (hs : P s) : P t := by
  induction l generalizing s with
  | nil => exact Option.some.inj h ▸ hs
  | cons a l ih =>
    rw [List.foldlM_cons] at h
    obtain ⟨u, hu, h⟩ := Option.bind_eq_some_iff.mp h
    exact ih (fun b hb => hstep b (List.mem_cons_of_mem a hb)) h
      (hstep a List.mem_cons_self s u hu hs)

end Fold

/-- A counted loop passes through the states `s 0, …, s n`. -/
theorem foldlM_range {body : σ → ℕ → Option σ} {s : ℕ → σ} {n : ℕ}
    (hbody : ∀ k < n, body (s k) k = some (s (k + 1))) :
    (List.range n).foldlM body (s 0) = some (s n) := by
  induction n with
  | zero => rfl
  | succ n ih =>
    rw [List.range_succ, List.foldlM_append, ih fun k hk => hbody k (Nat.lt_succ_of_lt hk)]
    simp [hbody n (Nat.lt_succ_self n)]

end Loops
