import Mathlib.Tactic

/-! Counters that cover the holders of an object: no finite set of holders is larger than the
counter. A party that comes or goes with a step of the counter keeps the cover. -/
namespace Holders
set_option autoImplicit false

universe u

variable {α : Type u} {holds holds' : α → Prop} {count count' : ℕ}

def Covers (holds : α → Prop) (count : ℕ) : Prop :=
  ∀ parties : Finset α, (∀ p ∈ parties, holds p) → parties.card ≤ count

theorem covers_of_none (h : ∀ p, ¬ holds p) (count : ℕ) : Covers holds count := by
  intro parties hp
  have hempty : parties = ∅ := Finset.eq_empty_of_forall_notMem fun p hmem => h p (hp p hmem)
  rw [hempty]
  exact Nat.zero_le _

theorem Covers.mono (h : Covers holds count) (hsub : ∀ p, holds' p → holds p)
    (hle : count ≤ count') : Covers holds' count' :=
  fun parties hp => (h parties fun p hmem => hsub p (hp p hmem)).trans hle

theorem Covers.pos (h : Covers holds count) {p : α} (hp : holds p) : 0 < count := by
  have hone := h {p} fun q hq => Finset.mem_singleton.mp hq ▸ hp
  rwa [Finset.card_singleton] at hone

theorem Covers.acquire [DecidableEq α] (h : Covers holds count) (p : α)
    (hsub : ∀ q, holds' q → q = p ∨ holds q) : Covers holds' (count + 1) := by
  intro parties hp
  have hrest := h (parties.erase p) fun q hq =>
    (hsub q (hp q (Finset.mem_of_mem_erase hq))).resolve_left (Finset.ne_of_mem_erase hq)
  have herase := Finset.pred_card_le_card_erase (s := parties) (a := p)
  omega

theorem Covers.drop [DecidableEq α] (h : Covers holds count) {p : α} (hheld : holds p)
    (hsub : ∀ q, holds' q → q ≠ p ∧ holds q) : Covers holds' (count - 1) := by
  intro parties hp
  have hnew : p ∉ parties := fun hmem => (hsub p (hp p hmem)).1 rfl
  have hall := h (insert p parties) fun q hq => by
    obtain rfl | hq := Finset.mem_insert.mp hq
    · exact hheld
    · exact (hsub q (hp q hq)).2
  rw [Finset.card_insert_of_notMem hnew] at hall
  omega

/-! ## Exact counters -/

/-- The counter is the number of the holders. -/
def Counts (holds : α → Prop) (count : ℕ) : Prop :=
  ∃ parties : Finset α, (∀ p, p ∈ parties ↔ holds p) ∧ parties.card = count

theorem counts_none (h : ∀ p, ¬ holds p) : Counts holds 0 :=
  ⟨∅, fun p => iff_of_false (Finset.notMem_empty p) (h p), Finset.card_empty⟩

theorem Counts.congr (h : Counts holds count) (hsame : ∀ p, holds' p ↔ holds p) :
    Counts holds' count := by
  obtain ⟨parties, hmem, hcard⟩ := h
  exact ⟨parties, fun p => (hmem p).trans (hsame p).symm, hcard⟩

theorem Counts.acquire [DecidableEq α] (h : Counts holds count) {p : α} (hnew : ¬ holds p)
    (hadd : ∀ q, holds' q ↔ q = p ∨ holds q) : Counts holds' (count + 1) := by
  obtain ⟨parties, hmem, hcard⟩ := h
  refine ⟨insert p parties, fun q => ?_, ?_⟩
  · rw [Finset.mem_insert, hmem, hadd]
  · rw [Finset.card_insert_of_notMem (mt (hmem p).mp hnew), hcard]

theorem Counts.drop [DecidableEq α] (h : Counts holds count) {p : α} (hheld : holds p)
    (hsub : ∀ q, holds' q ↔ q ≠ p ∧ holds q) : Counts holds' (count - 1) := by
  obtain ⟨parties, hmem, hcard⟩ := h
  refine ⟨parties.erase p, fun q => ?_, ?_⟩
  · rw [Finset.mem_erase, hmem, hsub]
  · rw [Finset.card_erase_of_mem ((hmem p).mpr hheld), hcard]

theorem Counts.pos_iff (h : Counts holds count) : 0 < count ↔ ∃ p, holds p := by
  obtain ⟨parties, hmem, rfl⟩ := h
  rw [Finset.card_pos]
  exact exists_congr hmem

end Holders
