import Mathlib.Tactic
import FpgaMl.Foundation.Numerals
import FpgaMl.SchedulerIds

/-! # Numbers in the texts of a document

What `atoi`, `strtoul` and `strtoull` read from a number that was written in their base, with blanks
around it, and for a base of 16 with the usual prefix or none. -/
namespace FpgaMl
open MachineInt Numerals
set_option autoImplicit false

def blanks : List Char := [' ', '\t', '\n', '\x0b', '\x0c', '\r']

/-- The text is the number in that base, behind one of the prefixes. -/
def Numeral (base : ℕ) (prefixes : List (List Char)) (text : String) (n : ℕ) : Prop :=
  ∃ front pre rest, text.toList = front ++ (pre ++ (Nat.toDigits base n ++ rest)) ∧
    (∀ c ∈ front, c ∈ blanks) ∧ pre ∈ prefixes ∧ ∀ c ∈ rest.head?, c ∈ blanks

def Decimal : String → ℕ → Prop := Numeral 10 [[]]

def Hexadecimal : String → ℕ → Prop := Numeral 16 [[], ['0', 'x'], ['0', 'X']]

theorem decimal_repr (n : ℕ) : Decimal (toString n) n :=
  ⟨[], [], [], by simp, fun _ h => absurd h List.not_mem_nil, List.mem_singleton_self _,
    fun _ h => by cases h⟩

theorem hexadecimal_ofList (n : ℕ) : Hexadecimal (String.ofList (Nat.toDigits 16 n)) n :=
  ⟨[], [], [], by simp, fun _ h => absurd h List.not_mem_nil, List.mem_cons_self,
    fun _ h => by cases h⟩

/-! ## Characters -/

theorem hexDigit_blank {c : Char} (hc : c ∈ blanks) : hexDigit? c = none := by
  have hall : blanks.all (fun c => decide (hexDigit? c = none)) = true := by decide +kernel
  exact of_decide_eq_true (List.all_eq_true.mp hall c hc)

theorem hexDigit_digitChar {d : ℕ} (hd : d < 16) : hexDigit? (Nat.digitChar d) = some d := by
  have hall : ∀ d, d < 16 → hexDigit? (Nat.digitChar d) = some d := by decide +kernel
  exact hall d hd

/-- A digit of the base. -/
def digitOf? (base : ℕ) (c : Char) : Option ℕ := (hexDigit? c).filter (· < base)

section Digits

variable {base : ℕ} (hb : 1 < base ∧ base ≤ 16)

include hb in
theorem digitOf_digitChar (d : ℕ) (hd : d < base) : digitOf? base (Nat.digitChar d) = some d := by
  unfold digitOf?
  rw [hexDigit_digitChar (hd.trans_le hb.2)]
  exact Option.filter_some_pos (by simpa using hd)

include hb in
/-- The digits of the number, and no blank, sign or prefix, are in front of what is left. -/
theorem head_toDigits (n : ℕ) (rest : List Char) : ∃ c s, Nat.toDigits base n ++ rest = c :: s ∧
    (hexDigit? c).isSome = true ∧ ∀ x ∈ s.head?, (hexDigit? x).isSome = true ∨ x ∈ rest.head? := by
  have hdigits : ∀ c ∈ Nat.toDigits base n, (hexDigit? c).isSome = true := fun c hc => by
    have hsome := digits_toDigits hb.1 (digitOf_digitChar hb) n c hc
    obtain ⟨d, hd⟩ := Option.isSome_iff_exists.mp hsome
    rw [(Option.filter_eq_some_iff.mp hd).1]
    rfl
  obtain ⟨c, s, hs⟩ := List.exists_cons_of_ne_nil (Nat.toDigits_ne_nil (n := n) (b := base))
  rw [hs] at hdigits ⊢
  refine ⟨c, s ++ rest, rfl, hdigits c List.mem_cons_self, fun x hx => ?_⟩
  cases s with
  | nil => exact Or.inr hx
  | cons y s =>
    cases hx
    exact Or.inl (hdigits _ (List.mem_cons_of_mem _ List.mem_cons_self))

include hb in
theorem readDigits_toDigits (n : ℕ) {rest : List Char} (hrest : ∀ c ∈ rest.head?, c ∈ blanks) :
    readDigits base (Nat.toDigits base n ++ rest) = n :=
  value_toDigits_append hb.1 (digitOf_digitChar hb) n fun c hc => by
    unfold digitOf?
    rw [hexDigit_blank (hrest c hc)]
    rfl

end Digits

theorem skipSpaces_append {front s : List Char} (hfront : ∀ c ∈ front, c ∈ blanks)
    (hs : ∀ c ∈ s.head?, (hexDigit? c).isSome = true) : skipSpaces (front ++ s) = s := by
  change List.dropWhile (fun c => decide (c ∈ blanks)) (front ++ s) = s
  rw [List.dropWhile_append_of_pos fun c hc => decide_eq_true (hfront c hc)]
  cases s with
  | nil => rfl
  | cons c s =>
    rw [List.dropWhile_cons_of_neg]
    intro hblank
    have hdigit := hs c rfl
    rw [hexDigit_blank (of_decide_eq_true hblank)] at hdigit
    cases hdigit

theorem takeSign_digit {c : Char} (s : List Char) (hc : (hexDigit? c).isSome = true) :
    takeSign (c :: s) = (false, c :: s) := by
  unfold takeSign
  split
  · rename_i heq
    obtain rfl := (List.cons.inj heq).1
    exact absurd hc (by decide +kernel)
  · rename_i heq
    obtain rfl := (List.cons.inj heq).1
    exact absurd hc (by decide +kernel)
  · rfl

/-! ## The readers -/

/-- Behind the blanks and without a sign. -/
theorem Numeral.unsigned {base : ℕ} (hb : 1 < base ∧ base ≤ 16) {prefixes : List (List Char)}
    (hpre : ∀ pre ∈ prefixes, ∀ c ∈ pre.head?, (hexDigit? c).isSome = true) {text : String} {n : ℕ}
    (h : Numeral base prefixes text n) : ∃ pre ∈ prefixes, ∃ rest, (∀ c ∈ rest.head?, c ∈ blanks) ∧
      takeSign (skipSpaces text.toList) = (false, pre ++ (Nat.toDigits base n ++ rest)) := by
  obtain ⟨front, pre, rest, htext, hfront, hmem, hrest⟩ := h
  refine ⟨pre, hmem, rest, hrest, ?_⟩
  obtain ⟨c, s, hs, hc, -⟩ := head_toDigits hb n rest
  have hhead : ∃ d u, pre ++ (Nat.toDigits base n ++ rest) = d :: u ∧
      (hexDigit? d).isSome = true := by
    cases pre with
    | nil => exact ⟨c, s, hs, hc⟩
    | cons d u => exact ⟨d, u ++ (Nat.toDigits base n ++ rest), rfl, hpre _ hmem d rfl⟩
  obtain ⟨d, u, hdu, hd⟩ := hhead
  rw [htext, hdu, skipSpaces_append hfront (fun x hx => by cases hx; exact hd), takeSign_digit u hd]

theorem Decimal.unsigned {text : String} {n : ℕ} (h : Decimal text n) : ∃ rest,
    (∀ c ∈ rest.head?, c ∈ blanks) ∧
      takeSign (skipSpaces text.toList) = (false, Nat.toDigits 10 n ++ rest) := by
  obtain ⟨pre, hpre, rest, hrest, htext⟩ := Numeral.unsigned (by decide) (by simp) h
  obtain rfl := List.mem_singleton.mp hpre
  exact ⟨rest, hrest, htext⟩

theorem Decimal.atoi {text : String} {n : ℕ} (h : Decimal text n) :
    atoi text = i32 (min (2 ^ 63 - 1) n) := by
  obtain ⟨rest, hrest, htext⟩ := h.unsigned
  unfold FpgaMl.atoi
  rw [htext]
  dsimp only
  rw [readDigits_toDigits (by decide) n hrest, if_neg Bool.false_ne_true]

theorem Decimal.toU32 {text : String} {n : ℕ} (h : Decimal text n) (hn : n < 2 ^ 32) :
    toU32 (FpgaMl.atoi text) = n := by
  rw [h.atoi, min_eq_right (by omega)]
  unfold MachineInt.toU32 i32
  omega

theorem Decimal.toNat {text : String} {n : ℕ} (h : Decimal text n) (hn : n < 2 ^ 31) :
    (FpgaMl.atoi text).toNat = n := by
  rw [h.atoi, min_eq_right (by omega), i32_natCast hn, Int.toNat_natCast]

theorem Decimal.strtoull {text : String} {n : ℕ} (h : Decimal text n) (hn : n < 2 ^ 64) :
    strtoull10 text = n := by
  obtain ⟨rest, hrest, htext⟩ := h.unsigned
  unfold strtoull10
  rw [htext]
  dsimp only
  rw [readDigits_toDigits (by decide) n hrest, if_neg (by omega), if_neg Bool.false_ne_true]

theorem Hexadecimal.strtoul {text : String} {n : ℕ} (h : Hexadecimal text n) (hn : n < 2 ^ 64) :
    strtoul16 text = n := by
  have hzero : (hexDigit? '0').isSome = true := by decide +kernel
  obtain ⟨pre, hpre, rest, hrest, htext⟩ := Numeral.unsigned (by decide) (by simp [hzero]) h
  have hread : readDigits 16 (Nat.toDigits 16 n ++ rest) = n :=
    readDigits_toDigits (by decide) n hrest
  have hx : ∀ c, c = 'x' ∨ c = 'X' → ∀ u, '0' :: c :: u ≠ Nat.toDigits 16 n ++ rest := by
    intro c hc u heq
    obtain ⟨d, s, hs, -, hnext⟩ := head_toDigits (show 1 < 16 ∧ 16 ≤ 16 by decide) n rest
    obtain ⟨-, rfl⟩ := List.cons.inj (heq.trans hs)
    have hnot : hexDigit? c = none ∧ c ∉ blanks := by
      obtain rfl | rfl := hc <;> decide +kernel
    obtain hdigit | hblank := hnext c rfl
    · rw [hnot.1] at hdigit
      cases hdigit
    · exact hnot.2 (hrest c hblank)
  unfold strtoul16
  rw [htext]
  dsimp only
  obtain rfl | rfl | rfl : pre = [] ∨ pre = ['0', 'x'] ∨ pre = ['0', 'X'] := by simpa using hpre
  · rw [List.nil_append]
    split
    · rename_i u heq
      exact absurd heq.symm (hx 'x' (Or.inl rfl) u)
    · rename_i u heq
      exact absurd heq.symm (hx 'X' (Or.inr rfl) u)
    · rw [hread, if_neg (by omega), if_neg Bool.false_ne_true]
  · change (if 2 ^ 64 ≤ readDigits 16 (Nat.toDigits 16 n ++ rest) then 2 ^ 64 - 1 else
      if false = true then _ else readDigits 16 (Nat.toDigits 16 n ++ rest)) = n
    rw [hread, if_neg (by omega), if_neg Bool.false_ne_true]
  · change (if 2 ^ 64 ≤ readDigits 16 (Nat.toDigits 16 n ++ rest) then 2 ^ 64 - 1 else
      if false = true then _ else readDigits 16 (Nat.toDigits 16 n ++ rest)) = n
    rw [hread, if_neg (by omega), if_neg Bool.false_ne_true]

end FpgaMl
