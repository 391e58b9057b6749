import Mathlib.Tactic
import Mathlib.Data.List.TakeWhile
import FpgaMl.BufferCommands

/-! # The calls on programs (ocl_api.cc)

`clCreateProgramWithSource` takes the name of a bitstream from the first line of the source. A `none`
is a read past the end of what may be read, or a write through a null pointer. -/
namespace FpgaMl
open MachineInt
set_option autoImplicit false

def clInvalidContext : ℤ := -34

namespace ProgramCalls

/-- The texts of a `_cl_program`. -/
structure ProgramTexts where
  xmlName : List UInt8
  buildLog : List UInt8

/-- The bytes up to the first NUL, if there is one; else what `c_str` ends with one. -/
def cString (bytes : List UInt8) : List UInt8 := bytes.takeWhile (· ≠ 0)

def strlen (memory : List UInt8) : Option ℕ :=
  if 0 ∈ memory then some (cString memory).length else none

/-! ## The name of the bitstream -/

/-- The test of the loop that is neither for a newline, nor for a slash, nor for a space. -/
def isNameByte (cp : UInt8) : Bool := cp ≠ 10 && cp ≠ 47 && cp ≠ 32

/-- The loop over the first line, from index `i` on and for the memory from there on, with the
bytes copied so far. It ends with them and with its last index, up to which it has read. -/
def extractLoop (firstLineLen : ℕ) : List UInt8 → ℕ → List UInt8 → Option (List UInt8 × ℕ)
  | [], _, _ => none
  | cp :: rest, i, copied =>
    if cp ≠ 10 ∧ i < 64 - 1 ∧ i < firstLineLen then
      extractLoop firstLineLen rest (i + 1) (if isNameByte cp then copied ++ [cp] else copied)
    else some (copied, i)

def firstLineLen (lengths : Option ℕ) (memory : List UInt8) : Option ℕ :=
  if lengths.getD 0 = 0 then strlen memory else lengths

/-- The loop on a source, as the call starts it. -/
def extractName (lengths : Option ℕ) (memory : List UInt8) : Option (List UInt8 × ℕ) :=
  (firstLineLen lengths memory).bind fun len => extractLoop len memory 0 []

/-- `strings` and `lengths` are null or stand for their first element, a source for the memory from
its first byte on. An error is written through `errcode_ret`, which may be null. -/
def clCreateProgramWithSource (context : Bool) (count : ℕ) (strings : Option (Option (List UInt8)))
    (lengths : Option ℕ) (errcodeRet : Bool) : Option (Except ℤ ProgramTexts) :=
  match if count = 0 then none else strings.bind id with
  | none => if errcodeRet then some (.error clInvalidValue) else none
  | some memory =>
    if context then
      (extractName lengths memory).map fun name => .ok ⟨cString name.1, []⟩
    else if errcodeRet then some (.error clInvalidContext) else none

/-! ## What the loop extracts -/

theorem cString_of_not_mem {bytes : List UInt8} (h : 0 ∉ bytes) : cString bytes = bytes := by
  unfold cString
  rw [List.takeWhile_eq_self_iff]
  intro c hc
  exact decide_eq_true fun h0 : c = 0 => h (h0 ▸ hc)

theorem cString_terminated {bytes : List UInt8} (h : 0 ∉ bytes) (rest : List UInt8) :
    cString (bytes ++ 0 :: rest) = bytes := by
  have hall : ∀ c ∈ bytes, decide (c ≠ 0) = true := fun c hc =>
    decide_eq_true fun h0 : c = 0 => h (h0 ▸ hc)
  unfold cString
  rw [List.takeWhile_append_of_pos hall, List.takeWhile_cons, if_neg (by simp), List.append_nil]

/-- The bytes in front of the first newline. -/
def firstLine (source : List UInt8) : List UInt8 := source.takeWhile (· ≠ 10)

theorem firstLine_cons (c : UInt8) (s : List UInt8) :
    firstLine (c :: s) = if c = 10 then [] else c :: firstLine s := by
  unfold firstLine
  rw [List.takeWhile_cons]
  by_cases hc : c = 10 <;> simp [hc]

/-- The loop copies from the line up to index 62 and reads one byte more, which may lie behind the
source. -/
theorem extractLoop_eq (s rest copied : List UInt8) {i len : ℕ} (hi : i ≤ 63)
    (hlen : len = i + s.length) : extractLoop len (s ++ rest) i copied =
      if (firstLine s).length < s.length ∨ 63 - i < s.length ∨ rest ≠ [] then
        some (copied ++ ((firstLine s).take (63 - i)).filter isNameByte,
          i + min (firstLine s).length (63 - i))
      else none := by
  induction s generalizing i copied with
  | nil =>
    cases rest with
    | nil => simp [extractLoop]
    | cons c rest =>
      have hstop : ¬ (c ≠ 10 ∧ i < 64 - 1 ∧ i < len) := fun h => by
        rw [hlen, List.length_nil] at h
        omega
      rw [List.nil_append, extractLoop, if_neg hstop]
      simp [firstLine]
  | cons c s ih =>
    rw [List.length_cons] at hlen
    rw [List.cons_append, extractLoop, firstLine_cons]
    by_cases hc : c = 10
    · rw [if_neg fun h => h.1 hc, if_pos hc]
      simp
    · rw [if_neg hc]
      by_cases hlimit : i = 63
      · have hread : 63 - i < (c :: s).length := by
          rw [List.length_cons]
          omega
        rw [if_neg fun h => absurd h.2.1 (by omega), if_pos (Or.inr (Or.inl hread)), hlimit]
        simp
      · rw [if_pos ⟨hc, by omega, by omega⟩, ih _ (by omega) (by omega)]
        have hcond : ((firstLine s).length < s.length ∨ 63 - (i + 1) < s.length ∨ rest ≠ []) ↔
            ((c :: firstLine s).length < (c :: s).length ∨ 63 - i < (c :: s).length ∨
              rest ≠ []) := by
          rw [List.length_cons, List.length_cons, Nat.succ_lt_succ_iff,
            show 63 - i < s.length + 1 ↔ 63 - (i + 1) < s.length by omega]
        have htake : (c :: firstLine s).take (63 - i) = c :: (firstLine s).take (63 - (i + 1)) := by
          rw [show 63 - i = 63 - (i + 1) + 1 by omega, List.take_succ_cons]
        have hindex : i + 1 + min (firstLine s).length (63 - (i + 1)) =
            i + min (c :: firstLine s).length (63 - i) := by
          rw [List.length_cons]
          omega
        rw [htake, List.filter_cons, hindex]
        simp only [hcond]
        cases isNameByte c <;> simp

/-- A source without NULs is given with its length, or with a NUL behind it. -/
def GivesSource (lengths : Option ℕ) (memory source : List UInt8) : Prop :=
  (lengths.getD 0 = 0 ∧ ∃ rest, memory = source ++ 0 :: rest) ∨
    (lengths = some source.length ∧ source ≠ [] ∧ ∃ rest, memory = source ++ rest)

theorem GivesSource.firstLineLen {lengths : Option ℕ} {memory source : List UInt8}
    (hsource : 0 ∉ source) (h : GivesSource lengths memory source) :
    firstLineLen lengths memory = some source.length := by
  unfold ProgramCalls.firstLineLen
  obtain ⟨hzero, rest, rfl⟩ | ⟨rfl, hne, rest, rfl⟩ := h
  · rw [if_pos hzero, strlen, if_pos (List.mem_append_right _ List.mem_cons_self),
      cString_terminated hsource]
  · rw [Option.getD_some, if_neg (mt List.length_eq_zero_iff.mp hne)]

theorem GivesSource.extractName {lengths : Option ℕ} {memory source : List UInt8}
    (hsource : 0 ∉ source) (h : GivesSource lengths memory source) : ∃ rest,
    memory = source ++ rest ∧ extractName lengths memory =
      if (firstLine source).length < source.length ∨ 63 < source.length ∨ rest ≠ [] then
        some (((firstLine source).take 63).filter isNameByte, min (firstLine source).length 63)
      else none := by
  have hlen := h.firstLineLen hsource
  obtain ⟨rest, hrest⟩ : ∃ rest, memory = source ++ rest := by
    obtain ⟨-, rest, rfl⟩ | ⟨-, -, rest, rfl⟩ := h
    · exact ⟨_, rfl⟩
    · exact ⟨_, rfl⟩
  refine ⟨rest, hrest, ?_⟩
  unfold ProgramCalls.extractName
  rw [hlen, Option.bind_some, hrest, extractLoop_eq source rest [] (Nat.zero_le _) (Nat.zero_add _).symm]
  simp

/-- The first line without its spaces and slashes. -/
def lineName (source : List UInt8) : List UInt8 :=
  (firstLine source).filter fun c => c ≠ 32 && c ≠ 47

theorem mem_firstLine {c : UInt8} {source : List UInt8} (h : c ∈ firstLine source) :
    c ∈ source ∧ c ≠ 10 := by
  have hne := List.mem_takeWhile_imp h
  exact ⟨(List.takeWhile_sublist _).subset h, of_decide_eq_true hne⟩

theorem filter_firstLine (source : List UInt8) :
    (firstLine source).filter isNameByte = lineName source := by
  apply List.filter_congr
  intro c hc
  have hne := (mem_firstLine hc).2
  unfold isNameByte
  simp only [ne_eq, hne, not_false_eq_true, decide_true, Bool.true_and]
  rw [Bool.and_comm]

/-- What the loop copies is the whole name exactly if it misses spaces and slashes only. -/
theorem filter_take_eq_iff (source : List UInt8) :
    ((firstLine source).take 63).filter isNameByte = lineName source ↔
      ∀ c ∈ (firstLine source).drop 63, c = 32 ∨ c = 47 := by
  have hsplit : lineName source = ((firstLine source).take 63).filter isNameByte ++
      ((firstLine source).drop 63).filter isNameByte := by
    rw [← List.filter_append, List.take_append_drop, filter_firstLine]
  rw [hsplit, List.self_eq_append_right, List.filter_eq_nil_iff]
  refine forall₂_congr fun c hc => ?_
  have hne := (mem_firstLine (List.mem_of_mem_drop hc)).2
  unfold isNameByte
  simp only [ne_eq, hne, not_false_eq_true, decide_true, Bool.true_and, Bool.and_eq_true,
    decide_eq_true_eq, not_and, not_not]
  tauto

/-- The program gets the name of the first line, and the loop reads within the length. -/
structure NameExtracted (lengths : Option ℕ) (memory source : List UInt8) (count : ℕ) : Prop where
  name : ∀ errcodeRet, clCreateProgramWithSource true count (some (some memory)) lengths
    errcodeRet = some (.ok ⟨lineName source, []⟩)
  within : ∀ copied i, extractName lengths memory = some (copied, i) → i < source.length

theorem create_eq {count : ℕ} (hcount : count ≠ 0) (memory : List UInt8) (lengths : Option ℕ)
    (errcodeRet : Bool) : clCreateProgramWithSource true count (some (some memory)) lengths
      errcodeRet = (extractName lengths memory).map fun name => .ok ⟨cString name.1, []⟩ := by
  unfold clCreateProgramWithSource
  rw [if_neg hcount]
  rfl

/-- The rule of the first line holds exactly if no more than spaces and slashes follow its first 63
bytes, and a newline ends it or the source is longer than 63 bytes. -/
theorem name_extracted_iff {lengths : Option ℕ} {memory source : List UInt8} {count : ℕ}
    (hsource : 0 ∉ source) (h : GivesSource lengths memory source) (hcount : count ≠ 0) :
    NameExtracted lengths memory source count ↔
      (∀ c ∈ (firstLine source).drop 63, c = 32 ∨ c = 47) ∧
        ((firstLine source).length < source.length ∨ 63 < source.length) := by
  obtain ⟨rest, -, hextract⟩ := h.extractName hsource
  have hclean : cString (((firstLine source).take 63).filter isNameByte) =
      ((firstLine source).take 63).filter isNameByte := by
    apply cString_of_not_mem
    intro hzero
    exact hsource (mem_firstLine (List.mem_of_mem_take (List.mem_of_mem_filter hzero))).1
  constructor
  · intro hname
    have hcreate := hname.name true
    rw [create_eq hcount, hextract] at hcreate
    obtain ⟨p, hp, hresult⟩ := Option.map_eq_some_iff.mp hcreate
    have hwithin := hname.within p.1 p.2 (hextract.trans hp)
    obtain ⟨-, hp⟩ := Option.ite_none_right_eq_some.mp hp
    obtain rfl := Option.some.inj hp
    dsimp only at hwithin
    have hcopied := (ProgramTexts.mk.inj (Except.ok.inj hresult)).1
    rw [hclean, filter_take_eq_iff] at hcopied
    exact ⟨hcopied, by omega⟩
  · rintro ⟨hcopied, hread⟩
    have hextract : extractName lengths memory =
        some (((firstLine source).take 63).filter isNameByte,
          min (firstLine source).length 63) := by
      rw [hextract, if_pos]
      exact hread.imp_right Or.inl
    refine ⟨fun errcodeRet => ?_, fun copied i hi => ?_⟩
    · rw [create_eq hcount, hextract, Option.map_some, hclean, (filter_take_eq_iff source).mpr hcopied]
    · rw [hextract] at hi
      have hindex := (Prod.mk.inj (Option.some.inj hi)).2
      omega

/-- A short line with a newline behind it, in a string with a NUL at its end. -/
theorem name_extracted_iff_short :
    NameExtracted none ("a/b .xml\nvoid".toUTF8.toList ++ [0]) "a/b .xml\nvoid".toUTF8.toList 1 ∧
      lineName "a/b .xml\nvoid".toUTF8.toList = "ab.xml".toUTF8.toList :=
  ⟨(name_extracted_iff (by decide +kernel) (Or.inl ⟨rfl, [], rfl⟩) one_ne_zero).mpr
    (by decide +kernel), by decide +kernel⟩

/-- A source of one line without a newline, with its length: the loop reads the byte behind it, and
fails where there is none. A name of 70 bytes loses the last seven. -/
theorem name_not_extracted :
    (GivesSource (some 5) "a.xml".toUTF8.toList "a.xml".toUTF8.toList ∧
      clCreateProgramWithSource true 1 (some (some "a.xml".toUTF8.toList)) (some 5) true = none ∧
      ¬ NameExtracted (some 5) "a.xml".toUTF8.toList "a.xml".toUTF8.toList 1) ∧
    GivesSource none (List.replicate 70 97 ++ [10] ++ [0]) (List.replicate 70 97 ++ [10]) ∧
      extractName none (List.replicate 70 97 ++ [10] ++ [0]) = some (List.replicate 63 97, 63) ∧
      ¬ NameExtracted none (List.replicate 70 97 ++ [10] ++ [0]) (List.replicate 70 97 ++ [10]) 1 := by
  have hnone : clCreateProgramWithSource true 1 (some (some "a.xml".toUTF8.toList)) (some 5) true =
      none := by
    have hextract : extractName (some 5) "a.xml".toUTF8.toList = none := by decide +kernel
    rw [create_eq one_ne_zero, hextract, Option.map_none]
  have hlong : extractName none (List.replicate 70 97 ++ [10] ++ [0]) =
      some (List.replicate 63 97, 63) := by decide +kernel
  refine ⟨⟨Or.inr ⟨by decide +kernel, by decide +kernel, [], by simp⟩, hnone, fun h => ?_⟩,
    Or.inl ⟨rfl, [], rfl⟩, hlong, fun h => ?_⟩
  · rw [h.name true] at hnone
    cases hnone
  · have hname := h.name true
    rw [create_eq one_ne_zero, hlong, Option.map_some] at hname
    have hbytes := (ProgramTexts.mk.inj (Except.ok.inj (Option.some.inj hname))).1
    revert hbytes
    decide +kernel

end ProgramCalls

end FpgaMl
