import Mathlib.Tactic
import FpgaMl.ProgramCalls

/-! # The build log (ocl_api.cc)

`clBuildProgram` leaves a log in the program and `clGetProgramBuildInfo` copies it out. The query of
the size does not count the terminator, the copy does. -/
namespace FpgaMl
open MachineInt
set_option autoImplicit false

def clInvalidProgram : ℤ := -44
def clBuildProgramFailure : ℤ := -11

namespace ProgramCalls

/-- The texts of the log, for the answer of `ml_check_bitstream_exists`. -/
def clBuildProgram (present : List UInt8 → Bool) (program : ProgramTexts) : ℤ × ProgramTexts :=
  if present program.xmlName then
    (clSuccess, { program with buildLog := "Bitstream ".toUTF8.toList ++ program.xmlName ++
      " is present in bitstream manager".toUTF8.toList })
  else
    (clBuildProgramFailure, { program with buildLog := "ERROR No bitstream file ".toUTF8.toList ++
      program.xmlName ++ " exists".toUTF8.toList })

/-- `strncpy` writes `count` bytes in any case. -/
def strncpy (source : List UInt8) (count : ℕ) : List UInt8 :=
  let bytes := (cString source).take count
  bytes ++ List.replicate (count - bytes.length) 0

/-- What a call of `clGetProgramBuildInfo` does: its code, unless it ends without one, what it
writes through `param_value_size_ret`, and the bytes it writes from `param_value` on. -/
structure BuildInfo where
  rc : Option ℤ
  sizeRet : Option ℕ
  writes : List (List UInt8)

/-- The unsigned difference `param_value_size - 1`. -/
def lessOne (paramValueSize : ℕ) : ℕ :=
  if paramValueSize = 0 then 2 ^ 64 - 1 else paramValueSize - 1

/-- The flags say whether `param_value` and `param_value_size_ret` are other than null. -/
def clGetProgramBuildInfo (program : Option ProgramTexts) (paramName paramValueSize : ℕ)
    (paramValue paramValueSizeRet : Bool) : BuildInfo :=
  match program with
  | none => ⟨some clInvalidProgram, none, []⟩
  | some program =>
    if paramName = 0x1183 then
      if paramValueSize < 1 ∧ paramValueSizeRet then
        ⟨some clSuccess, some program.buildLog.length, []⟩
      else if paramValue then
        let logSize := program.buildLog.length
        let copySize := if lessOne paramValueSize < logSize then lessOne paramValueSize else logSize
        ⟨none, none, [List.replicate paramValueSize 0, strncpy program.buildLog copySize]⟩
      else ⟨some clInvalidValue, none, []⟩
    else if paramName ∈ [0x1181, 0x1182, 0x1184] then ⟨none, none, []⟩
    else ⟨some clInvalidValue, none, []⟩

/-- What a buffer holds after the writes. -/
def stored (writes : List (List UInt8)) (buffer : List UInt8) : List UInt8 :=
  writes.foldl (fun buffer bytes => bytes ++ buffer.drop bytes.length) buffer

/-! ## What a call writes -/

@[simp] theorem length_strncpy (source : List UInt8) (count : ℕ) :
    (strncpy source count).length = count := by
  unfold strncpy
  rw [List.length_append, List.length_replicate]
  have hle := List.length_take_le count (cString source)
  omega

theorem cString_append_zeros {bytes : List UInt8} (h : 0 ∉ bytes) (k : ℕ) :
    cString (bytes ++ List.replicate k 0) = bytes := by
  cases k with
  | zero => rw [List.replicate_zero, List.append_nil, cString_of_not_mem h]
  | succ k => rw [List.replicate_succ, cString_terminated h]

theorem not_mem_cString (bytes : List UInt8) : 0 ∉ cString bytes := by
  intro h
  have hne := List.mem_takeWhile_imp h
  exact absurd rfl (of_decide_eq_true hne)

/-- What `memset` and `strncpy` leave in front of the rest of a buffer. -/
def terminated (source : List UInt8) (count size : ℕ) : List UInt8 :=
  (cString source).take count ++ List.replicate (size - ((cString source).take count).length) 0

@[simp] theorem length_terminated {source : List UInt8} {count size : ℕ} (hcount : count ≤ size) :
    (terminated source count size).length = size := by
  have hle := List.length_take_le count (cString source)
  unfold terminated
  rw [List.length_append, List.length_replicate]
  omega

theorem cString_terminated_take (source : List UInt8) (count size : ℕ) :
    cString (terminated source count size) = (cString source).take count :=
  cString_append_zeros (fun h => not_mem_cString _ (List.mem_of_mem_take h)) _

theorem stored_strncpy {source buffer : List UInt8} {count size : ℕ} (hcount : count ≤ size) :
    stored [List.replicate size 0, strncpy source count] buffer =
      terminated source count size ++ buffer.drop size := by
  have hle := List.length_take_le count (cString source)
  have hzeros : (List.replicate size (0 : UInt8) ++ buffer.drop size).drop count =
      List.replicate (size - count) 0 ++ buffer.drop size := by
    rw [List.drop_append_of_le_length (by rwa [List.length_replicate]), List.drop_replicate]
  unfold stored terminated
  simp only [List.foldl_cons, List.foldl_nil, List.length_replicate, length_strncpy, hzeros]
  unfold strncpy
  dsimp only
  rw [List.append_assoc, ← List.append_assoc (List.replicate _ _), List.replicate_append_replicate,
    ← List.append_assoc]
  congr 3
  omega

/-- The branch of the log that copies. -/
theorem clGetProgramBuildInfo_copy (program : ProgramTexts) {size : ℕ} {ret : Bool}
    (h : size ≠ 0 ∨ ret = false) : clGetProgramBuildInfo (some program) 0x1183 size true ret =
      ⟨none, none, [List.replicate size 0, strncpy program.buildLog
        (min (lessOne size) program.buildLog.length)]⟩ := by
  have hquery : ¬ (size < 1 ∧ ret = true) := by
    rintro ⟨hsize, hret⟩
    obtain h | h := h
    · omega
    · rw [h] at hret
      cases hret
  have hmin : (if lessOne size < program.buildLog.length then lessOne size
      else program.buildLog.length) = min (lessOne size) program.buildLog.length := by
    split <;> omega
  unfold clGetProgramBuildInfo
  simp only [if_true, hquery, if_false, hmin]

/-- Without a buffer, or where the size is queried, nothing is written. -/
theorem clGetProgramBuildInfo_writes_nil (program : ProgramTexts) {size : ℕ} {value ret : Bool}
    (h : value = false ∨ (size = 0 ∧ ret = true)) :
    (clGetProgramBuildInfo (some program) 0x1183 size value ret).writes = [] := by
  unfold clGetProgramBuildInfo
  by_cases hquery : size < 1 ∧ ret = true
  · simp only [if_true, hquery, and_self]
  · have hvalue : value = false := by
      obtain h | ⟨hsize, hret⟩ := h
      · exact h
      · exact absurd ⟨by omega, hret⟩ hquery
    simp only [if_true, hquery, if_false, hvalue, Bool.false_eq_true]

/-- No write of the call reaches beyond the size it was given. -/
def WritesWithin (program : ProgramTexts) (size : ℕ) (value ret : Bool) : Prop :=
  ∀ bytes ∈ (clGetProgramBuildInfo (some program) 0x1183 size value ret).writes, bytes.length ≤ size

theorem writesWithin_iff (program : ProgramTexts) (size : ℕ) (value ret : Bool) :
    WritesWithin program size value ret ↔
      size ≠ 0 ∨ ret = true ∨ value = false ∨ program.buildLog = [] := by
  unfold WritesWithin
  by_cases hquiet : value = false ∨ (size = 0 ∧ ret = true)
  · rw [clGetProgramBuildInfo_writes_nil program hquiet]
    refine iff_of_true (fun bytes hbytes => absurd hbytes List.not_mem_nil) ?_
    tauto
  · obtain ⟨hvalue, hquery⟩ := not_or.mp hquiet
    rw [Bool.not_eq_false] at hvalue
    have hcopy : size ≠ 0 ∨ ret = false := by
      by_contra h
      obtain ⟨hsize, hret⟩ := not_or.mp h
      exact hquery ⟨not_not.mp hsize, Bool.eq_true_of_not_eq_false hret⟩
    rw [hvalue, clGetProgramBuildInfo_copy program hcopy]
    simp only [List.forall_mem_cons, List.length_replicate, le_rfl, true_and, length_strncpy,
      List.not_mem_nil, false_implies, implies_true, and_true]
    unfold lessOne
    obtain hsize | hret := hcopy
    · rw [if_neg hsize]
      refine iff_of_true ?_ (Or.inl hsize)
      omega
    · rw [hret, ← List.length_eq_zero_iff]
      simp only [Bool.false_eq_true, reduceCtorEq, false_or]
      split <;> omega

/-- The buffer holds a prefix of the log and its terminator within the size. -/
def LeavesPrefix (program : ProgramTexts) (size : ℕ) (ret : Bool) : Prop :=
  ∀ buffer, 0 ∈ (stored (clGetProgramBuildInfo (some program) 0x1183 size true ret).writes
      buffer).take size ∧
    cString ((stored (clGetProgramBuildInfo (some program) 0x1183 size true ret).writes
      buffer).take size) <+: program.buildLog

theorem leavesPrefix (program : ProgramTexts) {size : ℕ} (hsize : size ≠ 0) (ret : Bool) :
    LeavesPrefix program size ret := by
  intro buffer
  have hlast : lessOne size = size - 1 := if_neg hsize
  have hle := List.length_take_le (min (lessOne size) program.buildLog.length)
    (cString program.buildLog)
  rw [clGetProgramBuildInfo_copy program (Or.inl hsize), stored_strncpy (by omega),
    List.take_left' (length_terminated (by omega))]
  constructor
  · refine List.mem_append_right _ (List.mem_replicate.mpr ⟨?_, rfl⟩)
    omega
  · rw [cString_terminated_take]
    exact (List.take_prefix _ _).trans (List.takeWhile_prefix _)

/-- The size is queried, and then the log is fetched into a buffer of that size. -/
def TwoCallsYield (program : ProgramTexts) : Prop :=
  ∀ size, (clGetProgramBuildInfo (some program) 0x1183 0 false true).sizeRet = some size →
    ∀ buffer, buffer.length = size →
      cString (stored (clGetProgramBuildInfo (some program) 0x1183 size true false).writes buffer) =
        program.buildLog

theorem twoCallsYield_iff (program : ProgramTexts) :
    TwoCallsYield program ↔ program.buildLog = [] := by
  unfold TwoCallsYield
  have hquery : (clGetProgramBuildInfo (some program) 0x1183 0 false true).sizeRet =
      some program.buildLog.length := rfl
  rw [hquery]
  constructor
  · intro h
    have hfetch := h _ rfl (List.replicate program.buildLog.length 0) List.length_replicate
    by_contra hne
    have hpos : program.buildLog.length ≠ 0 := mt List.length_eq_zero_iff.mp hne
    have hlast : lessOne program.buildLog.length = program.buildLog.length - 1 := if_neg hpos
    rw [clGetProgramBuildInfo_copy program (Or.inl hpos), stored_strncpy (by omega),
      List.drop_replicate, Nat.sub_self, List.replicate_zero, List.append_nil,
      cString_terminated_take] at hfetch
    have hlen := congrArg List.length hfetch
    have hle := List.length_take_le (min (lessOne program.buildLog.length) program.buildLog.length)
      (cString program.buildLog)
    omega
  · intro hnil size hsize buffer hbuffer
    rw [hnil, List.length_nil, Option.some.injEq] at hsize
    subst hsize
    rw [clGetProgramBuildInfo_copy program (Or.inr rfl), hnil, List.length_eq_zero_iff.mp hbuffer]
    rfl

theorem clBuildProgram_log (present : List UInt8 → Bool) (program : ProgramTexts) :
    (clBuildProgram present program).2.buildLog ≠ [] := by
  unfold clBuildProgram
  have hpresent : "Bitstream ".toUTF8.toList ≠ [] := by decide +kernel
  have habsent : "ERROR No bitstream file ".toUTF8.toList ≠ [] := by decide +kernel
  split
  · exact List.append_ne_nil_of_left_ne_nil (List.append_ne_nil_of_left_ne_nil hpresent _) _
  · exact List.append_ne_nil_of_left_ne_nil (List.append_ne_nil_of_left_ne_nil habsent _) _

/-- The writes stay within the size unless a size of zero comes with a buffer, without a place for
the size, and there is a log. What a positive size leaves is a terminated prefix. Two calls yield
the log exactly if it is empty. -/
theorem build_log_protocol (program : ProgramTexts) :
    (∀ size value ret, WritesWithin program size value ret ↔
      size ≠ 0 ∨ ret = true ∨ value = false ∨ program.buildLog = []) ∧
    (∀ size ret, size ≠ 0 → LeavesPrefix program size ret) ∧
    (TwoCallsYield program ↔ program.buildLog = []) :=
  ⟨writesWithin_iff program, fun _ ret hsize => leavesPrefix program hsize ret,
    twoCallsYield_iff program⟩

/-- Every log that a build leaves loses its last byte to the two calls, and is written through a
buffer of no bytes. -/
theorem built_log_lost (present : List UInt8 → Bool) (program : ProgramTexts) :
    ¬ TwoCallsYield (clBuildProgram present program).2 ∧
      ¬ WritesWithin (clBuildProgram present program).2 0 true false := by
  have hlog := clBuildProgram_log present program
  rw [twoCallsYield_iff, writesWithin_iff]
  refine ⟨hlog, ?_⟩
  simp [hlog]

/-- A program whose build found its bitstream. -/
def builtOne : ProgramTexts := (clBuildProgram (fun _ => true) ⟨"one.xml".toUTF8.toList, []⟩).2

/-- The buffer of the size that the query gives lacks the last byte of the log. With a size of zero
and no place for it, 49 bytes are written. -/
theorem build_log_truncated :
    ((clGetProgramBuildInfo (some builtOne) 0x1183 0 false true).sizeRet = some 49 ∧
      cString (stored (clGetProgramBuildInfo (some builtOne) 0x1183 49 true false).writes
        (List.replicate 49 255)) = "Bitstream one.xml is present in bitstream manage".toUTF8.toList ∧
      ¬ TwoCallsYield builtOne) ∧
    (clGetProgramBuildInfo (some builtOne) 0x1183 0 true false).writes = [[], builtOne.buildLog] ∧
      ¬ WritesWithin builtOne 0 true false := by
  have hquery : (clGetProgramBuildInfo (some builtOne) 0x1183 0 false true).sizeRet = some 49 := by
    decide +kernel
  have hfetch : cString (stored (clGetProgramBuildInfo (some builtOne) 0x1183 49 true false).writes
      (List.replicate 49 255)) =
        "Bitstream one.xml is present in bitstream manage".toUTF8.toList := by
    decide +kernel
  have hlog : "Bitstream one.xml is present in bitstream manage".toUTF8.toList ≠
      builtOne.buildLog := by
    decide +kernel
  have hwrites : (clGetProgramBuildInfo (some builtOne) 0x1183 0 true false).writes =
      [[], builtOne.buildLog] := by
    decide +kernel
  have hlong : ¬ builtOne.buildLog.length ≤ 0 := by
    decide +kernel
  refine ⟨⟨hquery, hfetch, fun h => hlog ?_⟩, hwrites, fun h => hlong (h _ ?_)⟩
  · rw [← hfetch]
    exact h 49 hquery _ List.length_replicate
  · rw [hwrites]
    exact List.mem_cons_of_mem _ List.mem_cons_self

end ProgramCalls

end FpgaMl
