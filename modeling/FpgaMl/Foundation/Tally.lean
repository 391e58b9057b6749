import Mathlib.Tactic
import Mathlib.Algebra.BigOperators.Fin

/-! Counting in a finite family of lists, such as the queues of a system. -/
namespace Tally
set_option autoImplicit false

universe u v

variable {ι : Type u} {α : Type v} [Fintype ι] (p : α → Bool)

/-- How many elements of the lists satisfy `p`. -/
def tally (q : ι → List α) : ℕ := ∑ i, (q i).countP p

theorem countP_le_tally (q : ι → List α) (i : ι) : (q i).countP p ≤ tally p q :=
  Finset.single_le_sum (f := fun j => (q j).countP p) (fun _ _ => Nat.zero_le _) (Finset.mem_univ i)

theorem exists_of_tally_pos {q : ι → List α} (h : 0 < tally p q) : ∃ i, ∃ a ∈ q i, p a = true := by
  obtain ⟨i, -, hi⟩ := Finset.exists_ne_zero_of_sum_ne_zero h.ne'
  obtain ⟨a, ha, hp⟩ := List.countP_pos_iff.mp (Nat.pos_of_ne_zero hi)
  exact ⟨i, a, ha, hp⟩

variable [DecidableEq ι]

theorem tally_eq_add (q : ι → List α) (i : ι) :
    tally p q = (q i).countP p + ∑ j ∈ Finset.univ.erase i, (q j).countP p :=
  (Finset.add_sum_erase _ _ (Finset.mem_univ i)).symm

/-- Only one of the lists changes. -/
theorem tally_change {q q' : ι → List α} (i : ι) (h : ∀ j, j ≠ i → q' j = q j) :
    tally p q' + (q i).countP p = tally p q + (q' i).countP p := by
  have hrest : ∑ j ∈ Finset.univ.erase i, (q' j).countP p =
      ∑ j ∈ Finset.univ.erase i, (q j).countP p :=
    Finset.sum_congr rfl fun j hj => by rw [h j (Finset.ne_of_mem_erase hj)]
  rw [tally_eq_add p q' i, tally_eq_add p q i, hrest]
  omega

/-- One element in all is one element of one list. -/
theorem exists_of_tally_eq_one {q : ι → List α} (h : tally p q = 1) :
    ∃ i, (q i).countP p = 1 ∧ ∀ j, j ≠ i → (q j).countP p = 0 := by
  obtain ⟨i, a, ha, hp⟩ := exists_of_tally_pos p (h ▸ one_pos)
  have hpos : 0 < (q i).countP p := List.countP_pos_iff.mpr ⟨a, ha, hp⟩
  rw [tally_eq_add p q i] at h
  refine ⟨i, by omega, fun j hj => ?_⟩
  have hzero : ∑ k ∈ Finset.univ.erase i, (q k).countP p = 0 := by omega
  exact Finset.sum_eq_zero_iff.mp hzero j (Finset.mem_erase.mpr ⟨hj, Finset.mem_univ j⟩)

end Tally
