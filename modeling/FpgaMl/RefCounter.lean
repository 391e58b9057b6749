import Mathlib.Tactic
import FpgaMl.Foundation.Holders
import FpgaMl.Foundation.MachineInt

/-! The reference counter that the OpenCL objects inherit (ocl_ds.h). The counter is an unsigned
number of 32 bits; an object that was never made counts as deleted. -/
namespace FpgaMl
open MachineInt Holders
set_option autoImplicit false

structure RefCounter where
  counter : ℕ
  deleted : Bool
  deriving DecidableEq, Repr

namespace RefCounter

def absent : RefCounter := ⟨0, true⟩
def new : RefCounter := ⟨1, false⟩
def refCntUp (c : RefCounter) : RefCounter := { c with counter := u32 (c.counter + 1) }

def refCntDown (c : RefCounter) : RefCounter :=
  let counter := if 0 < c.counter then c.counter - 1 else c.counter
  ⟨counter, c.deleted || counter == 0⟩

@[simp] theorem deleted_refCntUp (c : RefCounter) : c.refCntUp.deleted = c.deleted := rfl

theorem counter_refCntUp {c : RefCounter} (h : c.counter + 1 < 2 ^ 32) :
    c.refCntUp.counter = c.counter + 1 := u32_of_lt h

theorem counter_refCntDown (c : RefCounter) : c.refCntDown.counter = c.counter - 1 := by
  unfold refCntDown
  dsimp only
  split
  · rfl
  · omega

/-- The object deletes itself with its last reference. -/
theorem deleted_refCntDown (c : RefCounter) :
    c.refCntDown.deleted = (c.deleted || decide (c.counter ≤ 1)) := by
  have hcounter := counter_refCntDown c
  unfold refCntDown at hcounter ⊢
  dsimp only at hcounter ⊢
  rw [hcounter, Bool.beq_eq_decide_eq]
  congr 2
  rw [eq_iff_iff]
  omega

/-- A reference is taken and given back while another one is there. -/
theorem refCntDown_refCntUp {c : RefCounter} (hpos : 0 < c.counter) (h : c.counter + 1 < 2 ^ 32) :
    c.refCntUp.refCntDown = c := by
  have hcounter : c.refCntUp.refCntDown.counter = c.counter := by
    rw [counter_refCntDown, counter_refCntUp h, Nat.add_sub_cancel]
  have hdeleted : c.refCntUp.refCntDown.deleted = c.deleted := by
    rw [deleted_refCntDown, counter_refCntUp h, deleted_refCntUp, decide_eq_false (by omega),
      Bool.or_false]
  exact congrArg₂ RefCounter.mk hcounter hdeleted

theorem counter_refCntUp_ne (c : RefCounter) : c.refCntUp.counter ≠ c.counter := by
  change u32 (c.counter + 1) ≠ c.counter
  unfold u32
  omega

/-! ## Counters and holders -/

/-- The counter covers the holders, and an object that somebody holds has not deleted itself. -/
structure Guards {α : Type} (holds : α → Prop) (c : RefCounter) : Prop where
  covers : Covers holds c.counter
  alive : ∀ p, holds p → c.deleted = false

section Guards

variable {α : Type} {holds holds' : α → Prop} {c : RefCounter}

theorem guards_of_none (h : ∀ p, ¬ holds p) (c : RefCounter) : Guards holds c :=
  ⟨covers_of_none h _, fun p hp => absurd hp (h p)⟩

theorem Guards.mono (h : Guards holds c) (hsub : ∀ p, holds' p → holds p) : Guards holds' c :=
  ⟨h.covers.mono hsub le_rfl, fun p hp => h.alive p (hsub p hp)⟩

variable [DecidableEq α]

/-- A new object has the one reference of the party that made it. -/
theorem guards_new (p : α) (h : ∀ q, holds q → q = p) : Guards holds .new := by
  have hnone : Covers (fun _ : α => False) 0 := covers_of_none (fun _ => id) 0
  exact ⟨hnone.acquire p fun q hq => Or.inl (h q hq), fun _ _ => rfl⟩

/-- A party takes a reference while another has one. -/
theorem Guards.up (h : Guards holds c) (hbound : c.counter + 1 < 2 ^ 32) {p : α} (hp : holds p)
    (new : α) (hsub : ∀ q, holds' q → q = new ∨ holds q) : Guards holds' c.refCntUp := by
  refine ⟨?_, fun _ _ => h.alive p hp⟩
  rw [counter_refCntUp hbound]
  exact h.covers.acquire new hsub

/-- A party gives its reference back; the object stays as long as there is another. -/
theorem Guards.down (h : Guards holds c) {p : α} (hp : holds p)
    (hsub : ∀ q, holds' q → q ≠ p ∧ holds q) : Guards holds' c.refCntDown := by
  have hcovers : Covers holds' c.refCntDown.counter := by
    rw [counter_refCntDown]
    exact h.covers.drop hp hsub
  refine ⟨hcovers, fun q hq => ?_⟩
  have hpos := hcovers.pos hq
  rw [counter_refCntDown] at hpos
  rw [deleted_refCntDown, h.alive p hp, Bool.false_or]
  exact decide_eq_false (by omega)

/-- A reference passes from one party to another. -/
theorem Guards.pass (h : Guards holds c) {p : α} (hp : holds p) (new : α)
    (hsub : ∀ q, holds' q → q = new ∨ (q ≠ p ∧ holds q)) : Guards holds' c := by
  have hpos := h.covers.pos hp
  refine ⟨?_, fun _ _ => h.alive p hp⟩
  have hrest : Covers (fun q => q ≠ p ∧ holds q) (c.counter - 1) := h.covers.drop hp fun _ => id
  have hmoved := hrest.acquire new hsub
  rwa [Nat.sub_add_cancel hpos] at hmoved

end Guards

/-! ## Exact counters -/

/-- The counter is the number of the holders, and the object has deleted itself, or was never made,
exactly if it is zero. -/
structure Exact {α : Type} (holds : α → Prop) (c : RefCounter) : Prop where
  counts : Counts holds c.counter
  deleted : c.deleted = true ↔ c.counter = 0

section Exact

variable {α : Type} {holds holds' : α → Prop} {c : RefCounter}

theorem exact_absent (h : ∀ p, ¬ holds p) : Exact holds .absent := ⟨counts_none h, by decide⟩

theorem Exact.congr (h : Exact holds c) (hsame : ∀ p, holds' p ↔ holds p) : Exact holds' c :=
  ⟨h.counts.congr hsame, h.deleted⟩

theorem Exact.deleted_iff (h : Exact holds c) : c.deleted = true ↔ ∀ p, ¬ holds p := by
  rw [h.deleted, ← not_exists, ← h.counts.pos_iff, not_lt, Nat.le_zero]

variable [DecidableEq α]

theorem exact_new (p : α) (h : ∀ q, holds q ↔ q = p) : Exact holds .new := by
  have hnone : Counts (fun _ : α => False) 0 := counts_none fun _ => id
  exact ⟨hnone.acquire id fun q => (h q).trans (or_false _).symm.to_iff, by decide⟩

theorem Exact.up (h : Exact holds c) (hbound : c.counter + 1 < 2 ^ 32) {p : α} (hheld : holds p)
    {new : α} (hnew : ¬ holds new) (hadd : ∀ q, holds' q ↔ q = new ∨ holds q) :
    Exact holds' c.refCntUp := by
  have hpos := h.counts.pos_iff.mpr ⟨p, hheld⟩
  have hcounter := counter_refCntUp hbound
  refine ⟨hcounter ▸ h.counts.acquire hnew hadd, ?_⟩
  rw [deleted_refCntUp, h.deleted, hcounter]
  omega

theorem Exact.down (h : Exact holds c) {p : α} (hheld : holds p)
    (hsub : ∀ q, holds' q ↔ q ≠ p ∧ holds q) : Exact holds' c.refCntDown := by
  have hpos := h.counts.pos_iff.mpr ⟨p, hheld⟩
  have hcounter := counter_refCntDown c
  refine ⟨hcounter ▸ h.counts.drop hheld hsub, ?_⟩
  rw [deleted_refCntDown, Bool.or_eq_true, h.deleted, decide_eq_true_iff, hcounter]
  omega

end Exact

end RefCounter

end FpgaMl
