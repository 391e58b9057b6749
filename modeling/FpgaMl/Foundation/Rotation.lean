import Mathlib.Tactic
import FpgaMl.Foundation.TransitionSystem

/-! Lists that rotate. A turn takes the first element away or puts it at the end, and an arrival
comes to the front. An element has its turn unless there were at most as many turns as elements were in
front of it or came there. What the steps of a run add up to is bounded by what a measure gains. -/
namespace TransitionSystem
set_option autoImplicit false

universe u v w

variable {σ : Type u} {ι : Type v}

/-- The sum of `f` over the steps of a run from `s`, up to the first that cannot be taken. -/
def Machine.total (M : Machine σ ι) (f : σ → ι → ℕ) : σ → List ι → ℕ
  | _, [] => 0
  | s, l :: ls => f s l + (M.next s l).elim 0 fun t => M.total f t ls

section Totals

variable {M : Machine σ ι} {I : σ → Prop} {s t : σ} {l : ι} {ls : List ι}

theorem Machine.total_cons {f : σ → ι → ℕ} (h : M.next s l = some t) :
    M.total f s (l :: ls) = f s l + M.total f t ls := by
  rw [Machine.total, h, Option.elim_some]

/-- The rule of the measure: it pays for `f` out of `g`. -/
theorem Machine.total_le {f g : σ → ι → ℕ} {μ : σ → ℕ}
    (hstep : ∀ s l t, I s → M.next s l = some t → I t ∧ μ t + f s l ≤ μ s + g s l) (hs : I s)
    (h : M.run s ls = some t) : μ t + M.total f s ls ≤ μ s + M.total g s ls := by
  induction ls generalizing s with
  | nil =>
    cases h
    exact le_rfl
  | cons l ls ih =>
    obtain ⟨m, hm, h⟩ := Option.bind_eq_some_iff.mp h
    obtain ⟨hI, hle⟩ := hstep s l m hs hm
    have hrest := ih hI h
    rw [Machine.total_cons hm, Machine.total_cons hm]
    omega

end Totals

section Rotations

variable {α : Type w} {M : Machine σ ι} {ring : σ → List α} {turns arrivals : σ → ι → ℕ}
  {I : σ → Prop}

/-- A step is a turn, an arrival, or neither. -/
inductive Rotates (ring : σ → List α) (turns arrivals : σ → ι → ℕ) (s : σ) (l : ι) (t : σ) : Prop
  | turn (a : α) (rest : List α) (hturn : turns s l = 1) (harrival : arrivals s l = 0)
      (hs : ring s = a :: rest) (ht : ring t = rest ++ [a] ∨ ring t = rest)
  | arrival (a : α) (hturn : turns s l = 0) (harrival : arrivals s l = 1)
      (ht : ring t = a :: ring s)
  | neither (hturn : turns s l = 0) (harrival : arrivals s l = 0) (ht : ring t = ring s)

/-- At some turn of the run the element is the first one. -/
def Machine.HasTurn (M : Machine σ ι) (ring : σ → List α) (turns : σ → ι → ℕ) (s : σ) (ls : List ι)
    (a : α) : Prop :=
  ∃ before l since m, ls = before ++ l :: since ∧ M.run s before = some m ∧ turns m l = 1 ∧
    (ring m).head? = some a

theorem Machine.HasTurn.cons {s m : σ} {l : ι} {ls : List ι} {a : α} (h : M.HasTurn ring turns m ls a)
    (hm : M.next s l = some m) : M.HasTurn ring turns s (l :: ls) a := by
  obtain ⟨before, k, since, m', rfl, hrun, hturn, hhead⟩ := h
  exact ⟨l :: before, k, since, m', rfl, by rw [Machine.run, hm, Option.bind_some, hrun], hturn, hhead⟩

/-- In a run an element has its turn, or its place is known at the end. -/
theorem Machine.turn_or_place
    (hstep : ∀ s l t, I s → M.next s l = some t → I t ∧ Rotates ring turns arrivals s l t)
    {s t : σ} {ls : List ι} (hs : I s) (h : M.run s ls = some t) {front back : List α} {a : α}
    (hring : ring s = front ++ a :: back) : M.HasTurn ring turns s ls a ∨
      ∃ front' back', ring t = front' ++ a :: back' ∧
        front'.length + M.total turns s ls = front.length + M.total arrivals s ls := by
  induction ls generalizing s front back with
  | nil =>
    cases h
    exact Or.inr ⟨front, back, hring, rfl⟩
  | cons l ls ih =>
    obtain ⟨m, hm, h⟩ := Option.bind_eq_some_iff.mp h
    obtain ⟨hI, hrotates⟩ := hstep s l m hs hm
    -- what the rest of the run says about the place after the first step
    have hrest : ∀ front₁ back₁, ring m = front₁ ++ a :: back₁ →
        front₁.length + turns s l = front.length + arrivals s l →
        M.HasTurn ring turns s (l :: ls) a ∨ ∃ front' back', ring t = front' ++ a :: back' ∧
          front'.length + M.total turns s (l :: ls) =
            front.length + M.total arrivals s (l :: ls) := by
      intro front₁ back₁ hm₁ hlen
      obtain hturn | ⟨front', back', ht, hplace⟩ := ih hI h hm₁
      · exact Or.inl (hturn.cons hm)
      · refine Or.inr ⟨front', back', ht, ?_⟩
        rw [Machine.total_cons hm, Machine.total_cons hm]
        omega
    cases hrotates with
    | turn b rest hturn harrival hs' ht' =>
      cases front with
      | nil => exact Or.inl ⟨[], l, ls, s, rfl, rfl, hturn, by rw [hring]; rfl⟩
      | cons c front =>
        rw [hs', List.cons_append] at hring
        obtain ⟨rfl, rfl⟩ := List.cons.inj hring
        have hlen : front.length + turns s l = (b :: front).length + arrivals s l := by
          rw [hturn, harrival, List.length_cons]
        obtain ht' | ht' := ht'
        · exact hrest front (back ++ [b]) (by rw [ht', List.append_assoc, List.cons_append]) hlen
        · exact hrest front back ht' hlen
    | arrival b hturn harrival ht' =>
      refine hrest (b :: front) back (by rw [ht', hring, List.cons_append]) ?_
      rw [hturn, harrival, List.length_cons]
    | neither hturn harrival ht' =>
      refine hrest front back (by rw [ht', hring]) ?_
      rw [hturn, harrival]

end Rotations

end TransitionSystem
