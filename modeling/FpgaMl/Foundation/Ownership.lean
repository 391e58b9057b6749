import Mathlib.Tactic
import Mathlib.Data.Set.Insert

/-! Owners that hold at most one resource each. `owned f` is what is held in all; under `Exclusive`
no resource has two owners, and the results say what one owner's change does to `owned f`. -/
namespace Ownership
set_option autoImplicit false

universe u v

variable {ω : Type u} {α : Type v}

def owned (f : ω → Option α) : Set α := {a | ∃ o, f o = some a}

def Exclusive (f : ω → Option α) : Prop := ∀ o o' a, f o = some a → f o' = some a → o = o'

variable [DecidableEq ω] {f : ω → Option α} {o : ω} {a : α}

theorem mem_owned_update (hf : Exclusive f) (x : Option α) (b : α) :
    b ∈ owned (Function.update f o x) ↔ x = some b ∨ b ∈ owned f ∧ f o ≠ some b := by
  constructor
  · rintro ⟨k, hk⟩
    by_cases hko : k = o
    · subst hko
      rw [Function.update_self] at hk
      exact Or.inl hk
    · rw [Function.update_of_ne hko] at hk
      exact Or.inr ⟨⟨k, hk⟩, fun h => hko (hf k o b hk h)⟩
  · rintro (rfl | ⟨⟨k, hk⟩, hb⟩)
    · exact ⟨o, Function.update_self ..⟩
    · have hko : k ≠ o := by
        rintro rfl
        exact hb hk
      exact ⟨k, (Function.update_of_ne hko ..).trans hk⟩

/-- An owner that goes takes its resource with it. -/
theorem owned_drop_iff (hf : Exclusive f) : owned (Function.update f o none) = owned f ↔ f o = none := by
  constructor
  · intro h
    by_contra hne
    obtain ⟨b, hb⟩ := Option.ne_none_iff_exists'.mp hne
    have hmem : b ∈ owned (Function.update f o none) := h ▸ ⟨o, hb⟩
    rw [mem_owned_update hf] at hmem
    obtain hnone | ⟨-, hne⟩ := hmem
    · cases hnone
    · exact hne hb
  · intro h
    rw [← h, Function.update_eq_self]

/-- A new resource in the place of another one loses the other. -/
theorem owned_gain_iff (hf : Exclusive f) (ha : a ∉ owned f) :
    owned (Function.update f o (some a)) = insert a (owned f) ↔ f o = none := by
  constructor
  · intro h
    by_contra hne
    obtain ⟨b, hb⟩ := Option.ne_none_iff_exists'.mp hne
    have hmem : b ∈ owned (Function.update f o (some a)) := h ▸ Set.mem_insert_of_mem a ⟨o, hb⟩
    rw [mem_owned_update hf] at hmem
    obtain hab | ⟨-, hne⟩ := hmem
    · rw [Option.some.inj hab] at ha
      exact ha ⟨o, hb⟩
    · exact hne hb
  · intro h
    ext b
    rw [mem_owned_update hf, Set.mem_insert_iff, h, Option.some.injEq, eq_comm (a := b)]
    simp

/-- A new resource that nobody takes is lost. -/
theorem owned_lose_ne (hf : Exclusive f) (ha : a ∉ owned f) :
    owned (Function.update f o none) ≠ insert a (owned f) := by
  intro h
  have hmem : a ∈ owned (Function.update f o none) := h ▸ Set.mem_insert a _
  rw [mem_owned_update hf] at hmem
  obtain hnone | ⟨hmem, -⟩ := hmem
  · cases hnone
  · exact ha hmem

theorem Exclusive.drop (hf : Exclusive f) (o : ω) : Exclusive (Function.update f o none) := by
  intro k k' b hk hk'
  have hne : ∀ {k : ω}, Function.update f o none k = some b → f k = some b := by
    intro k hk
    by_cases hko : k = o
    · subst hko
      rw [Function.update_self] at hk
      cases hk
    · rwa [Function.update_of_ne hko] at hk
  exact hf k k' b (hne hk) (hne hk')

theorem Exclusive.gain (hf : Exclusive f) (o : ω) (ha : a ∉ owned f) :
    Exclusive (Function.update f o (some a)) := by
  intro k k' b hk hk'
  by_cases hko : k = o
  · by_cases hko' : k' = o
    · rw [hko, hko']
    · rw [hko, Function.update_self, Option.some.injEq] at hk
      rw [Function.update_of_ne hko', ← hk] at hk'
      exact absurd ⟨k', hk'⟩ ha
  · rw [Function.update_of_ne hko] at hk
    by_cases hko' : k' = o
    · rw [hko', Function.update_self, Option.some.injEq] at hk'
      rw [← hk'] at hk
      exact absurd ⟨k, hk⟩ ha
    · rw [Function.update_of_ne hko'] at hk'
      exact hf k k' b hk hk'

end Ownership
