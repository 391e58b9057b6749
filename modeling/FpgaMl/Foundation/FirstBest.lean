import Mathlib.Tactic

/-! The scan that keeps the best element of a list. Elements that do not qualify are passed over,
and of the others the first one with the highest rank is kept. -/
namespace FirstBest
set_option autoImplicit false

universe u v

variable {α : Type u} {κ : Type v} [LinearOrder κ]

section Scan

variable (p : α → Prop) [DecidablePred p] (rank : α → κ)

/-- One turn: what is kept goes for a higher rank only. -/
def keep (best : Option α) (x : α) : Option α :=
  if p x then
    match best with
    | none => some x
    | some b => if rank b < rank x then some x else some b
  else best

def scan (l : List α) : Option α := l.foldl (keep p rank) none

omit [DecidablePred p] in
/-- `x` qualifies, what qualifies before it ranks lower, and what does after it no higher. -/
def IsFirstBest (l : List α) (x : α) : Prop :=
  p x ∧ ∃ pre post, l = pre ++ x :: post ∧ (∀ y ∈ pre, p y → rank y < rank x) ∧
    ∀ y ∈ post, p y → rank y ≤ rank x

end Scan

variable {p : α → Prop} [DecidablePred p] {rank : α → κ}

omit [DecidablePred p] in
theorem IsFirstBest.le {l : List α} {x : α} (h : IsFirstBest p rank l x) :
    ∀ y ∈ l, p y → rank y ≤ rank x := by
  obtain ⟨-, pre, post, rfl, hpre, hpost⟩ := h
  intro y hy hp
  obtain hy | hy := List.mem_append.mp hy
  · exact (hpre y hy hp).le
  · obtain rfl | hy := List.mem_cons.mp hy
    · exact le_rfl
    · exact hpost y hy hp

omit [DecidablePred p] in
theorem IsFirstBest.concat {l : List α} {x y : α} (h : IsFirstBest p rank l x)
    (hy : p y → rank y ≤ rank x) : IsFirstBest p rank (l ++ [y]) x := by
  obtain ⟨hx, pre, post, rfl, hpre, hpost⟩ := h
  refine ⟨hx, pre, post ++ [y], by rw [List.append_assoc, List.cons_append], hpre, ?_⟩
  exact List.forall_mem_append.mpr ⟨hpost, List.forall_mem_singleton.mpr hy⟩

omit [DecidablePred p] in
theorem isFirstBest_last {l : List α} {y : α} (hy : p y)
    (hlt : ∀ x ∈ l, p x → rank x < rank y) : IsFirstBest p rank (l ++ [y]) y :=
  ⟨hy, l, [], rfl, hlt, fun _ hx => absurd hx List.not_mem_nil⟩

variable (p rank)

theorem scan_concat (l : List α) (x : α) : scan p rank (l ++ [x]) = keep p rank (scan p rank l) x := by
  unfold scan
  rw [List.foldl_append, List.foldl_cons, List.foldl_nil]

/-- The invariant of the scan, by the list seen so far. -/
theorem scan_spec (l : List α) : (scan p rank l = none ∧ ∀ x ∈ l, ¬ p x) ∨
    ∃ x, scan p rank l = some x ∧ IsFirstBest p rank l x := by
  induction l using List.reverseRecOn with
  | nil => exact Or.inl ⟨rfl, fun x hx => absurd hx List.not_mem_nil⟩
  | append_singleton l y ih =>
    rw [scan_concat]
    unfold keep
    by_cases hy : p y
    · rw [if_pos hy]
      obtain ⟨hscan, hnone⟩ | ⟨x, hscan, hbest⟩ := ih
      · rw [hscan]
        exact Or.inr ⟨y, rfl, isFirstBest_last hy fun x hx hp => absurd hp (hnone x hx)⟩
      · rw [hscan]
        dsimp only
        by_cases hlt : rank x < rank y
        · rw [if_pos hlt]
          exact Or.inr ⟨y, rfl, isFirstBest_last hy fun z hz hp => (hbest.le z hz hp).trans_lt hlt⟩
        · rw [if_neg hlt]
          exact Or.inr ⟨x, rfl, hbest.concat fun _ => not_lt.mp hlt⟩
    · rw [if_neg hy]
      obtain ⟨hscan, hnone⟩ | ⟨x, hscan, hbest⟩ := ih
      · exact Or.inl ⟨hscan, List.forall_mem_append.mpr ⟨hnone, List.forall_mem_singleton.mpr hy⟩⟩
      · exact Or.inr ⟨x, hscan, hbest.concat fun hp => absurd hp hy⟩

variable {p rank}

/-- A loop that may fail, and whose turns do to another form of what is kept what the turns of the
scan do, is the scan. -/
theorem foldlM_scan {γ : Type*} {turn : γ → α → Option γ} {form : Option α → γ} {l : List α}
    (hturn : ∀ best, ∀ x ∈ l, turn (form best) x = some (form (keep p rank best x))) :
    l.foldlM turn (form none) = some (form (scan p rank l)) := by
  unfold scan
  generalize (none : Option α) = best
  induction l generalizing best with
  | nil => rfl
  | cons x l ih =>
    rw [List.foldlM_cons, hturn best x List.mem_cons_self, Option.bind_eq_bind, Option.bind_some,
      List.foldl_cons]
    exact ih (fun best y hy => hturn best y (List.mem_cons_of_mem x hy)) _

end FirstBest
