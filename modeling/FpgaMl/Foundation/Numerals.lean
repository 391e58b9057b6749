import Mathlib.Tactic
import Mathlib.Data.List.TakeWhile

/-! Positional numerals in texts. A reader that takes the digits in front of a text, and stops at the
first character that is none, gets back every number that was written in its base. -/
namespace Numerals
set_option autoImplicit false

variable {digit? : Char → Option ℕ} {base : ℕ}

/-- The value of the leading digits. -/
def value (digit? : Char → Option ℕ) (base : ℕ) (s : List Char) : ℕ :=
  ((s.map digit?).takeWhile Option.isSome).foldl (fun n digit => n * base + digit.getD 0) 0

theorem value_all {s : List Char} (hs : ∀ c ∈ s, (digit? c).isSome = true) :
    value digit? base s = (s.map digit?).foldl (fun n digit => n * base + digit.getD 0) 0 := by
  unfold value
  rw [List.takeWhile_eq_self_iff.mpr]
  intro d hd
  obtain ⟨c, hc, rfl⟩ := List.mem_map.mp hd
  exact hs c hc

theorem value_stop {s rest : List Char} (hs : ∀ c ∈ s, (digit? c).isSome = true)
    (hrest : ∀ c ∈ rest.head?, digit? c = none) :
    value digit? base (s ++ rest) = value digit? base s := by
  have hdigits : ∀ d ∈ s.map digit?, d.isSome = true := fun d hd => by
    obtain ⟨c, hc, rfl⟩ := List.mem_map.mp hd
    exact hs c hc
  have hnone : (rest.map digit?).takeWhile Option.isSome = [] := by
    cases rest with
    | nil => rfl
    | cons c rest =>
      rw [List.map_cons, List.takeWhile_cons, hrest c rfl]
      rfl
  unfold value
  rw [List.map_append, List.takeWhile_append_of_pos hdigits, hnone, List.append_nil,
    List.takeWhile_eq_self_iff.mpr hdigits]

theorem value_concat {s : List Char} {c : Char} {d : ℕ} (hs : ∀ c ∈ s, (digit? c).isSome = true)
    (hc : digit? c = some d) : value digit? base (s ++ [c]) = value digit? base s * base + d := by
  have hall : ∀ x ∈ s ++ [c], (digit? x).isSome = true := fun x hx => by
    obtain hx | hx := List.mem_append.mp hx
    · exact hs x hx
    · rw [List.mem_singleton.mp hx, hc]
      rfl
  rw [value_all hall, value_all hs, List.map_append, List.foldl_append, List.map_singleton, hc]
  rfl

variable (hb : 1 < base) (hdigit : ∀ d, d < base → digit? (Nat.digitChar d) = some d)

include hb hdigit in
theorem digits_toDigits (n : ℕ) : ∀ c ∈ Nat.toDigits base n, (digit? c).isSome = true := by
  induction n using Nat.strong_induction_on with
  | _ n ih =>
    intro c hc
    rw [Nat.toDigits_eq_if hb] at hc
    split at hc
    · rename_i hn
      rw [List.mem_singleton.mp hc, hdigit n hn]
      rfl
    · rename_i hn
      obtain hc | hc := List.mem_append.mp hc
      · exact ih (n / base) (Nat.div_lt_self (by omega) hb) c hc
      · rw [List.mem_singleton.mp hc, hdigit _ (Nat.mod_lt n (by omega))]
        rfl

include hb hdigit in
theorem value_toDigits (n : ℕ) : value digit? base (Nat.toDigits base n) = n := by
  induction n using Nat.strong_induction_on with
  | _ n ih =>
    rw [Nat.toDigits_eq_if hb]
    split
    · rename_i hn
      rw [← List.nil_append [Nat.digitChar n], value_concat (fun _ h => absurd h List.not_mem_nil)
        (hdigit n hn)]
      simp [value]
    · rename_i hn
      rw [value_concat (digits_toDigits hb hdigit _) (hdigit _ (Nat.mod_lt n (by omega))),
        ih (n / base) (Nat.div_lt_self (by omega) hb)]
      exact Nat.div_add_mod' n base

include hb hdigit in
/-- A written number is read back, whatever comes after it. -/
theorem value_toDigits_append (n : ℕ) {rest : List Char} (hrest : ∀ c ∈ rest.head?, digit? c = none) :
    value digit? base (Nat.toDigits base n ++ rest) = n := by
  rw [value_stop (digits_toDigits hb hdigit n) hrest, value_toDigits hb hdigit]

end Numerals
