import Mathlib.Tactic

/-! Fixed-width machine integers as naturals and integers with explicit wrap-around.
`u32` and `u64` are the unsigned conversions, `i32` is the two's-complement conversion to a
signed 32-bit integer; each is the identity on the range of its type.
They are irreducible, so that no unification unfolds a remainder of `2 ^ 32`. -/
namespace MachineInt
set_option autoImplicit false

@[irreducible] def u32 (n : ℕ) : ℕ := n % 2 ^ 32
@[irreducible] def u64 (n : ℕ) : ℕ := n % 2 ^ 64
@[irreducible] def sub32 (a b : ℕ) : ℕ := (2 ^ 32 - b % 2 ^ 32 + a) % 2 ^ 32
@[irreducible] def i32 (x : ℤ) : ℤ := (x + 2 ^ 31) % 2 ^ 32 - 2 ^ 31

/-- A signed sum that has no value where it leaves the range of its type. -/
def checkedAdd (x y : ℤ) : Option ℤ := if -2 ^ 31 ≤ x + y ∧ x + y < 2 ^ 31 then some (x + y) else none

@[irreducible] def toU64 (x : ℤ) : ℕ := (x % 2 ^ 64).toNat

@[irreducible] def toU32 (x : ℤ) : ℕ := (x % 2 ^ 32).toNat

@[simp] theorem u32_of_lt {n : ℕ} (h : n < 2 ^ 32) : u32 n = n := by
  unfold u32; exact Nat.mod_eq_of_lt h
@[simp] theorem u64_of_lt {n : ℕ} (h : n < 2 ^ 64) : u64 n = n := by
  unfold u64; exact Nat.mod_eq_of_lt h

theorem u32_lt (n : ℕ) : u32 n < 2 ^ 32 := by
  unfold u32; exact Nat.mod_lt _ (by positivity)

theorem sub32_lt (a b : ℕ) : sub32 a b < 2 ^ 32 := by
  unfold sub32; exact Nat.mod_lt _ (by positivity)

theorem sub32_of_le {a b : ℕ} (h : b ≤ a) (ha : a < 2 ^ 32) : sub32 a b = a - b := by
  unfold sub32; omega

theorem sub32_of_lt {a b : ℕ} (h : a < b) (hb : b < 2 ^ 32) : sub32 a b = 2 ^ 32 - (b - a) := by
  unfold sub32; omega

theorem i32_of_mem {x : ℤ} (hlo : -2 ^ 31 ≤ x) (hhi : x < 2 ^ 31) : i32 x = x := by
  unfold i32; omega

theorem i32_lower (x : ℤ) : -2 ^ 31 ≤ i32 x := by
  unfold i32; omega

theorem i32_upper (x : ℤ) : i32 x < 2 ^ 31 := by
  unfold i32; omega

theorem checkedAdd_of_mem {x y : ℤ} (hlo : -2 ^ 31 ≤ x + y) (hhi : x + y < 2 ^ 31) :
    checkedAdd x y = some (x + y) := if_pos ⟨hlo, hhi⟩

theorem checkedAdd_overflow {x y : ℤ} (h : 2 ^ 31 ≤ x + y) : checkedAdd x y = none :=
  if_neg fun hin => absurd hin.2 (not_lt.mpr h)

theorem checkedAdd_eq_some {x y z : ℤ} (h : checkedAdd x y = some z) : z = x + y ∧ z < 2 ^ 31 := by
  obtain ⟨⟨-, hhi⟩, heq⟩ := Option.ite_none_right_eq_some.mp h
  obtain rfl := Option.some.inj heq
  exact ⟨rfl, hhi⟩

theorem i32_wrap {x : ℤ} (hlo : 2 ^ 31 ≤ x) (hhi : x < 2 ^ 32) : i32 x < 0 := by
  unfold i32; omega

theorem i32_ne_zero {n : ℕ} (h0 : n ≠ 0) (h : n < 2 ^ 32) : i32 (n : ℤ) ≠ 0 := by
  unfold i32; omega

theorem i32_natCast {n : ℕ} (h : n < 2 ^ 31) : i32 (n : ℤ) = n := i32_of_mem (by omega) (by omega)

theorem toU64_natCast {n : ℕ} (h : n < 2 ^ 64) : toU64 (n : ℤ) = n := by
  unfold toU64; omega

theorem toU32_of_mem {x : ℤ} (hlo : 0 ≤ x) (hhi : x < 2 ^ 32) : (toU32 x : ℤ) = x := by
  unfold toU32; omega

theorem toU64_lt (x : ℤ) : toU64 x < 2 ^ 64 := by
  unfold toU64; omega

theorem toU64_of_neg {x : ℤ} (hlo : -2 ^ 31 ≤ x) (hneg : x < 0) : 2 ^ 64 - 2 ^ 31 ≤ toU64 x := by
  unfold toU64; omega

end MachineInt
