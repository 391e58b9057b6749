import Mathlib.Tactic

/-! Appointments of several servers: each has its jobs in order, with the times at which they will
be finished. Jobs are finished in the order of these times, so the last job of a kind is finished
at the greatest time of its kind. -/
namespace Calendar
set_option autoImplicit false

universe u v w

variable {ι : Type u} {K : Type v} {α : Type w}

/-! ## One server -/

section Server

variable [AddCommMonoid K] (duration : α → K)

/-- The jobs with their times, for a server that is free from `f` on. -/
def after (f : K) : List α → List (K × α)
  | [] => []
  | a :: as => (f + duration a, a) :: after (f + duration a) as

theorem after_concat (f : K) (as : List α) (a : α) : after duration f (as ++ [a]) =
    after duration f as ++ [(f + (as.map duration).sum + duration a, a)] := by
  induction as generalizing f with
  | nil => simp [after]
  | cons b as ih =>
    rw [List.cons_append, after, ih, after, List.cons_append, List.map_cons, List.sum_cons, add_assoc f]

theorem map_snd_after (f : K) (as : List α) : (after duration f as).map Prod.snd = as := by
  induction as generalizing f with
  | nil => rfl
  | cons a as ih => rw [after, List.map_cons, ih]

variable [PartialOrder K] [IsOrderedAddMonoid K] {duration}

theorem le_of_mem_after (h : ∀ a, 0 ≤ duration a) {f : K} {as : List α} {e : K × α}
    (he : e ∈ after duration f as) : f ≤ e.1 := by
  induction as generalizing f with
  | nil => exact absurd he List.not_mem_nil
  | cons a as ih =>
    have hstep : f ≤ f + duration a := le_add_of_nonneg_right (h a)
    obtain rfl | he := List.mem_cons.mp he
    · exact hstep
    · exact hstep.trans (ih he)

end Server

/-! ## Several servers -/

section Servers

variable [PartialOrder K] (p : α → Prop)

/-- The times of the jobs of one kind. -/
def times (c : ι → List (K × α)) : Set K := {f | ∃ i a, (f, a) ∈ c i ∧ p a}

/-- Server `i` finishes `e`, which is in front, and nothing is to be finished earlier. -/
structure Takes (c c' : ι → List (K × α)) (i : ι) (e : K × α) : Prop where
  head : c i = e :: c' i
  others : ∀ j, j ≠ i → c' j = c j
  first : ∀ j, ∀ k ∈ c j, e.1 ≤ k.1

variable {p} {c c' : ι → List (K × α)} {i : ι} {e : K × α}

theorem Takes.mem_old (h : Takes c c' i e) {j : ι} {k : K × α} (hk : k ∈ c' j) : k ∈ c j := by
  obtain rfl | hj := eq_or_ne j i
  · rw [h.head]
    exact List.mem_cons_of_mem _ hk
  · rwa [← h.others j hj]

theorem Takes.mem_new (h : Takes c c' i e) {j : ι} {k : K × α} (hk : k ∈ c j) :
    k = e ∨ k ∈ c' j := by
  obtain rfl | hj := eq_or_ne j i
  · rw [h.head] at hk
    exact List.mem_cons.mp hk
  · rw [h.others j hj]
    exact Or.inr hk

theorem Takes.le (h : Takes c c' i e) {T : K} (hT : IsGreatest (times p c) T) : e.1 ≤ T := by
  obtain ⟨⟨j, a, ha, -⟩, -⟩ := hT
  exact h.first j _ ha

/-- As long as jobs of the kind are left, the greatest time stays. -/
theorem Takes.greatest (h : Takes c c' i e) {T : K} (hT : IsGreatest (times p c) T)
    (hleft : (times p c').Nonempty) : IsGreatest (times p c') T := by
  have hupper : ∀ f ∈ times p c', f ≤ T := fun f ⟨j, a, ha, hp⟩ => hT.2 ⟨j, a, h.mem_old ha, hp⟩
  refine ⟨?_, hupper⟩
  obtain ⟨j, a, ha, hp⟩ := hT.1
  obtain heq | hmem := h.mem_new ha
  · -- the job taken has the greatest time, and nothing is earlier: what is left has that time too
    obtain ⟨f, k, b, hb, hpb⟩ := hleft
    have hle := h.first k _ (h.mem_old hb)
    rw [← heq] at hle
    obtain rfl : T = f := le_antisymm hle (hupper f ⟨k, b, hb, hpb⟩)
    exact ⟨k, b, hb, hpb⟩
  · exact ⟨j, a, hmem, hp⟩

/-- The last job of the kind has the greatest time. -/
theorem Takes.last (h : Takes c c' i e) {T : K} (hT : IsGreatest (times p c) T)
    (hnone : ¬ (times p c').Nonempty) : e.1 = T := by
  obtain ⟨j, a, ha, hp⟩ := hT.1
  obtain heq | hmem := h.mem_new ha
  · rw [← heq]
  · exact absurd ⟨T, j, a, hmem, hp⟩ hnone

end Servers

end Calendar
