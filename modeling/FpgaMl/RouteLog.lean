import Mathlib.Tactic
import FpgaMl.AlgoSimpleOptimal

/-! # The distribution in the log of a route

`route_ndrange` writes the distribution into an array on its stack, `log_buffer`, before it carves
anything, and does not look whether there is room. A line that fits ends in a NUL within the array. -/
namespace FpgaMl
open MachineInt
set_option autoImplicit false

variable {n : ℕ}

/-- What `sprintf` writes for `"%04d|"`. -/
def logShare (x : ℤ) : List Char :=
  let sign := if x < 0 then ['-'] else []
  let digits := Nat.toDigits 10 x.natAbs
  sign ++ List.replicate (4 - sign.length - digits.length) '0' ++ digits ++ ['|']

def logLine (result : Fin n → ℤ) : List Char :=
  "AlgoSimple routing distribution is:|".toList ++
    (List.finRange n).flatMap (fun i => logShare (result i)) ++ ['\n']

/-- The size of `log_buffer`. -/
def logBufferLength : ℕ := 1024

def LogFits (result : Fin n → ℤ) : Prop := (logLine result).length < logBufferLength

instance (result : Fin n → ℤ) : Decidable (LogFits result) := inferInstanceAs (Decidable (_ < _))

example : logShare (-13) = ['-', '0', '1', '3', '|'] := by decide +kernel

/-! ## The length of the line -/

theorem length_logShare (x : ℤ) : (logShare x).length =
    max 4 ((if x < 0 then 1 else 0) + (Nat.toDigits 10 x.natAbs).length) + 1 := by
  unfold logShare
  by_cases hneg : x < 0
  · simp [hneg]
    omega
  · simp [hneg]
    omega

theorem five_le_logShare (x : ℤ) : 5 ≤ (logShare x).length := by
  rw [length_logShare]
  omega

/-- An `int` has at most ten digits and a sign. -/
theorem logShare_le {x : ℤ} (hlo : -2 ^ 31 ≤ x) (hhi : x < 2 ^ 31) : (logShare x).length ≤ 12 := by
  have hdigits : (Nat.toDigits 10 x.natAbs).length ≤ 10 :=
    Nat.toDigits_length 10 _ 10 (by norm_num) (by omega)
  rw [length_logShare]
  split <;> omega

theorem length_logLine (result : Fin n → ℤ) : (logLine result).length =
    37 + ((List.finRange n).map fun i => (logShare (result i)).length).sum := by
  have hhead : "AlgoSimple routing distribution is:|".toList.length = 36 := rfl
  unfold logLine
  rw [List.length_append, List.length_append, hhead, List.length_flatMap, List.length_singleton]
  omega

/-- Up to 82 islands there is room for every `int`. -/
theorem logFits_of_le (hn : n ≤ 82) {result : Fin n → ℤ}
    (h : ∀ i, -2 ^ 31 ≤ result i ∧ result i < 2 ^ 31) : LogFits result := by
  have hsum : ((List.finRange n).map fun i => (logShare (result i)).length).sum ≤ n * 12 := by
    have hle := List.sum_le_card_nsmul ((List.finRange n).map fun i => (logShare (result i)).length) 12
      fun k hk => by
        obtain ⟨i, -, rfl⟩ := List.mem_map.mp hk
        exact logShare_le (h i).1 (h i).2
    simpa using hle
  unfold LogFits logBufferLength
  rw [length_logLine]
  omega

/-- From 198 islands on there is no room, whatever their shares are. -/
theorem not_logFits (hn : 198 ≤ n) (result : Fin n → ℤ) : ¬ LogFits result := by
  have hsum : n * 5 ≤ ((List.finRange n).map fun i => (logShare (result i)).length).sum := by
    have hle := List.card_nsmul_le_sum ((List.finRange n).map fun i => (logShare (result i)).length) 5
      fun k hk => by
        obtain ⟨i, -, rfl⟩ := List.mem_map.mp hk
        exact five_le_logShare (result i)
    simpa using hle
  unfold LogFits logBufferLength
  rw [length_logLine]
  omega

/-- The shares of a distribution are `int`s. -/
theorem Distributes.int_range {fits : Fin n → Bool} {W : ℤ} {v : Fin n → ℤ} (h : Distributes fits W v)
    (hW : W < 2 ^ 31) (i : Fin n) : -2 ^ 31 ≤ v i ∧ v i < 2 ^ 31 := by
  cases hf : fits i with
  | false =>
    rw [(h.unsuitable i).mpr hf]
    decide
  | true =>
    have hle := h.le_total hf
    have hpos := h.nonneg i hf
    omega

/-- Whichever shares the search gives the islands when all of them are suitable, the line fits: a
number of work-groups that reads as a negative `int` goes to one island. -/
def LogRoom (n N : ℕ) : Prop :=
  ∀ v : Fin n → ℤ, Distributes (fun _ => true) (i32 N) v ∨ (∃ i, v = Pi.single i (i32 N)) → LogFits v

theorem logRoom_of_le (hn : n ≤ 82) (N : ℕ) : LogRoom n N := by
  rintro v (hdist | ⟨i, rfl⟩)
  · exact logFits_of_le hn (hdist.int_range (i32_upper _))
  · refine logFits_of_le hn fun j => ?_
    obtain rfl | hji := eq_or_ne j i
    · rw [Pi.single_eq_same]
      exact ⟨i32_lower _, i32_upper _⟩
    · rw [Pi.single_eq_of_ne hji]
      norm_num

/-- A search for suitable islands returns a distribution whose line fits. -/
theorem LogRoom.search {N : ℕ} (h : LogRoom n N) (hN : N < 2 ^ 32) (hlast : N ≠ 2 ^ 31 - 1) (hn : 0 < n)
    (o : AlgoSimple n) {q : IslandQuery n} (hq : ∀ i, q.fits i = true) :
    ∃ o', o.search q (i32 N) = some o' ∧ LogFits o'.result := by
  have hfits : q.fits = fun _ => true := funext hq
  obtain hsmall | hwide := lt_or_ge N (2 ^ 31)
  · have hint : i32 (N : ℤ) = N := i32_natCast hsmall
    obtain ⟨o', hsearch, -, hbest⟩ := o.search_cheapest q (show N + 1 < 2 ^ 31 by omega)
      (Or.inr ⟨⟨0, hn⟩, hq _⟩)
    have hdist := hbest.distributes
    rw [← hint] at hsearch hdist
    exact ⟨o', hsearch, h _ (Or.inl (hfits ▸ hdist))⟩
  · obtain ⟨o', i, hsearch, hi, hrest⟩ := o.search_wide q hwide hN ⟨⟨0, hn⟩, hq _⟩
    refine ⟨o', hsearch, h _ (Or.inr ⟨i, funext fun j => ?_⟩)⟩
    obtain rfl | hji := eq_or_ne j i
    · rw [hi, Pi.single_eq_same]
    · rw [hrest j hji, if_pos (hq j), Pi.single_eq_of_ne hji]

theorem not_logRoom (hn : 198 ≤ n) (N : ℕ) : ¬ LogRoom n N := fun h =>
  not_logFits hn _ (h _ (Or.inr ⟨⟨0, by omega⟩, rfl⟩))

end FpgaMl
