import Mathlib.Tactic
import FpgaMl.BufferStore

/-! # The codes of transfers

Which code the handlers of the dispatcher (dispatcher.cc) give a write or a read, next to the code
of the first check or step that fails. -/
namespace FpgaMl
open ByteMemory MachineInt TransitionSystem
set_option autoImplicit false

namespace Buffers

variable {b : Buffers} {env : KernelEnv}

/-- The write passes the checks of its handler and is stored. -/
def Stores (cmd : WriteArgs) (env : KernelEnv) : Prop :=
  0 < cmd.size ∧ env.vmalloc.isSome = true ∧ (cmd.ptr ≠ 0 → u32 env.uncopied = 0)

instance (cmd : WriteArgs) (env : KernelEnv) : Decidable (Stores cmd env) :=
  inferInstanceAs (Decidable (_ ∧ _ ∧ _))

/-- A write that is not stored leaves the objects and the blocks alone. -/
structure WriteFails (b : Buffers) (env : KernelEnv) (cmd : WriteArgs) : Prop where
  code : (b.handleWriteCommand env cmd).1 =
    if cmd.size = 0 then 1 else clMemObjectAllocationFailure
  mems : (b.handleWriteCommand env cmd).2.mems = b.mems
  live : (b.handleWriteCommand env cmd).2.live = b.live

/-- A write that is stored binds its object to the block that `vmalloc` gave. -/
structure WriteStores (b : Buffers) (env : KernelEnv) (cmd : WriteArgs) (m base : ℕ) : Prop where
  given : env.vmalloc.map Prod.fst = some base
  code : (b.handleWriteCommand env cmd).1 = clSuccess
  mems : (b.handleWriteCommand env cmd).2.mems =
    Function.update b.mems m ⟨UnimemPtr.of ⟨base, 13, cmd.size⟩, cmd.size⟩
  live : (b.handleWriteCommand env cmd).2.live = (base, cmd.size) :: b.live

theorem write_fails {cmd : WriteArgs} {m : ℕ} (hb : b.Sound)
    (hadm : b.Admissible (.write cmd env)) (hm : cmd.mem = some m) (hnot : ¬ Stores cmd env) :
    WriteFails b env cmd := by
  obtain ⟨hsize64, hptr64, -, hblock⟩ := hadm
  by_cases hzero : cmd.size = 0
  · have hresult : b.handleWriteCommand env cmd = (1, b) := by
      unfold handleWriteCommand
      rw [hm]
      dsimp only
      rw [rc_some, if_pos hzero, if_pos one_ne_zero]
    refine ⟨?_, ?_, ?_⟩ <;> rw [hresult]
    rw [if_pos hzero]
  have hsize : 0 < cmd.size := Nat.pos_of_ne_zero hzero
  cases hv : env.vmalloc with
  | none =>
    obtain ⟨v, hnull, hdriver⟩ := b.unimem.allocateUnimem_refused hsize64 hv
    have hresult : b.handleWriteCommand env cmd =
        (clMemObjectAllocationFailure, { b with unimem := v }) := by
      unfold handleWriteCommand
      rw [hm]
      dsimp only
      rw [rc_some, if_neg hzero, if_neg (not_not.mpr rfl), hnull]
      dsimp only
      rw [if_pos rfl]
    refine ⟨?_, ?_, ?_⟩ <;> rw [hresult]
    · rw [if_neg hzero]
    · change v.driver.live = _
      rw [hdriver]
      rfl
  | some given =>
    obtain ⟨base, fill⟩ := given
    obtain ⟨hbase, hroom, hapart⟩ := hblock (base, fill) hv
    have hfault : cmd.ptr ≠ 0 ∧ u32 env.uncopied ≠ 0 := by
      by_contra hok
      exact hnot ⟨hsize, by rw [hv, Option.isSome_some], fun hptr =>
        not_not.mp fun hne => hok ⟨hptr, hne⟩⟩
    have hdecode := decode_of_room hroom hsize hbase
    obtain ⟨v, hgiven, hdriver⟩ := b.unimem.allocateUnimem_granted hsize64 hv
    obtain ⟨w, hw, hcopied⟩ := v.copyToUnimem_of env hdecode hptr64 hsize64
    have hreleased := w.releaseUnimem_driver env hdecode
    have hresult : b.handleWriteCommand env cmd = (clMemObjectAllocationFailure,
        { b with unimem := w.releaseUnimem env (UnimemPtr.of ⟨base, 13, cmd.size⟩) }) := by
      unfold handleWriteCommand
      rw [hm]
      dsimp only
      rw [rc_some, if_neg hzero, if_neg (not_not.mpr rfl), hgiven]
      dsimp only
      rw [if_neg (by simp [UnimemPtr.of]), if_pos hfault.1, hw, decide_eq_false hfault.2]
      rfl
    refine ⟨?_, ?_, ?_⟩ <;> rw [hresult]
    · rw [if_neg hzero]
    · change (w.releaseUnimem env _).driver.live = _
      rw [hreleased, hcopied, hdriver]
      exact filter_live hb hsize hapart

theorem write_stores {cmd : WriteArgs} {m : ℕ} (hadm : b.Admissible (.write cmd env))
    (hm : cmd.mem = some m) (h : Stores cmd env) : ∃ base, WriteStores b env cmd m base := by
  obtain ⟨hsize64, hptr64, -, hblock⟩ := hadm
  obtain ⟨hsize, hv, hfault⟩ := h
  obtain ⟨⟨base, fill⟩, hv⟩ := Option.isSome_iff_exists.mp hv
  obtain ⟨hbase, hroom, -⟩ := hblock (base, fill) hv
  obtain ⟨v, hgiven, hdriver⟩ := b.unimem.allocateUnimem_granted hsize64 hv
  obtain ⟨w, hw, hcopied⟩ := v.copyToUnimem_of env (decode_of_room hroom hsize hbase) hptr64 hsize64
  have hresult : b.handleWriteCommand env cmd = (clSuccess,
      ⟨Function.update b.mems m ⟨UnimemPtr.of ⟨base, 13, cmd.size⟩, cmd.size⟩,
        if cmd.ptr ≠ 0 then w else v⟩) := by
    unfold handleWriteCommand
    rw [hm]
    dsimp only
    rw [rc_some, if_neg hsize.ne', if_neg (not_not.mpr rfl), hgiven]
    dsimp only
    rw [if_neg (by simp [UnimemPtr.of])]
    by_cases hptr : cmd.ptr = 0
    · rw [if_neg (not_not.mpr hptr), if_neg (not_not.mpr hptr)]
    · rw [if_pos hptr, if_pos hptr, hw, decide_eq_true (hfault hptr)]
      rfl
  refine ⟨base, ?_, ?_, ?_, ?_⟩
  · rw [hv]
    rfl
  all_goals rw [hresult]
  change (if cmd.ptr ≠ 0 then w else v).driver.live = _
  split
  · rw [hcopied, hdriver]
    rfl
  · rw [hdriver]
    rfl

/-! ## What the code should say -/

/-- Every check passes, and every byte that there is to copy is copied. -/
def CarriedOut (b : Buffers) : BufferLabel → Prop
  | .write cmd env => cmd.mem ≠ none ∧ 0 < cmd.size ∧ env.vmalloc ≠ none ∧
      (cmd.ptr ≠ 0 → env.uncopied = 0)
  | .read cmd env => ∃ m, cmd.mem = some m ∧ 0 < cmd.size ∧ (b.mems m).unimemPtr.ptr ≠ none ∧
      cmd.ptr ≠ 0 ∧ cmd.size = (b.mems m).size ∧ env.uncopied = 0
  | .process _ => True

/-- The code of the first check or step that fails. -/
def firstFailure (b : Buffers) : BufferLabel → ℤ
  | .write cmd env =>
    if checkReadWriteParams cmd.mem cmd.size ≠ clSuccess then checkReadWriteParams cmd.mem cmd.size
    else if env.vmalloc = none then clMemObjectAllocationFailure
    else if cmd.ptr ≠ 0 ∧ env.uncopied ≠ 0 then clMemObjectAllocationFailure
    else clSuccess
  | .read cmd env =>
    if checkReadWriteParams cmd.mem cmd.size ≠ clSuccess then checkReadWriteParams cmd.mem cmd.size
    else if ∀ m ∈ cmd.mem, (b.mems m).unimemPtr.ptr = none then clInvalidMemObject
    else if cmd.ptr = 0 then clInvalidValue
    else if ∀ m ∈ cmd.mem, cmd.size ≠ (b.mems m).size then clInvalidValue
    else if env.uncopied ≠ 0 then clMemObjectAllocationFailure
    else clSuccess
  | .process _ => clSuccess

/-- The size that a command asks for passes the check. -/
def Sized : BufferLabel → Prop
  | .write cmd _ => 0 < cmd.size
  | .read cmd _ => 0 < cmd.size
  | .process _ => True

instance : DecidablePred Sized := fun l =>
  match l with
  | .write cmd _ => inferInstanceAs (Decidable (0 < cmd.size))
  | .read cmd _ => inferInstanceAs (Decidable (0 < cmd.size))
  | .process _ => inferInstanceAs (Decidable True)

theorem check_eq_success (mem : Option ℕ) (size : ℕ) :
    checkReadWriteParams mem size = clSuccess ↔ mem ≠ none ∧ 0 < size := by
  cases mem with
  | none => exact iff_of_false invalidMemObject_ne_clSuccess fun h => h.1 rfl
  | some m =>
    rw [← not_iff_not, and_iff_right (Option.some_ne_none m), Nat.pos_iff_ne_zero, not_not]
    exact check_some m size

theorem firstFailure_eq_success (b : Buffers) (l : BufferLabel) :
    b.firstFailure l = clSuccess ↔ b.CarriedOut l := by
  cases l with
  | process user => exact iff_of_true rfl trivial
  | write cmd env =>
    unfold firstFailure CarriedOut
    dsimp only
    rw [← and_assoc, ← check_eq_success]
    by_cases hcheck : checkReadWriteParams cmd.mem cmd.size = clSuccess
    · rw [if_neg (not_not.mpr hcheck), and_iff_right hcheck]
      split
      · rename_i hv
        exact iff_of_false failure_ne_clSuccess fun h => h.1 hv
      · rename_i hv
        rw [and_iff_right hv]
        split
        · rename_i hfault
          exact iff_of_false failure_ne_clSuccess fun h => hfault.2 (h hfault.1)
        · rename_i hfault
          exact iff_of_true rfl fun hptr => not_not.mp fun hne => hfault ⟨hptr, hne⟩
    · rw [if_pos hcheck]
      exact iff_of_false hcheck fun h => hcheck h.1
  | read cmd env =>
    unfold firstFailure CarriedOut
    dsimp only
    by_cases hcheck : checkReadWriteParams cmd.mem cmd.size = clSuccess
    · obtain ⟨hmem, hsize⟩ := (check_eq_success ..).mp hcheck
      obtain ⟨m, hm⟩ := Option.ne_none_iff_exists'.mp hmem
      rw [if_neg (not_not.mpr hcheck), hm]
      simp only [Option.mem_def, Option.some.injEq, forall_eq', exists_eq_left', hsize, true_and]
      split
      · rename_i hnull
        exact iff_of_false invalidMemObject_ne_clSuccess fun h => h.1 hnull
      · rename_i hnull
        rw [and_iff_right hnull]
        split
        · rename_i hptr
          exact iff_of_false invalidValue_ne_clSuccess fun h => h.1 hptr
        · rename_i hptr
          rw [and_iff_right hptr]
          split
          · rename_i hdiffer
            exact iff_of_false invalidValue_ne_clSuccess fun h => hdiffer h.1
          · rename_i hdiffer
            rw [and_iff_right (not_not.mp hdiffer)]
            split
            · rename_i hfault
              exact iff_of_false failure_ne_clSuccess hfault
            · rename_i hfault
              exact iff_of_true rfl (not_not.mp hfault)
    · rw [if_pos hcheck]
      refine iff_of_false hcheck fun ⟨m, hm, hsize, _⟩ => hcheck ((check_eq_success ..).mpr ⟨?_, hsize⟩)
      rw [hm]
      exact Option.some_ne_none m

/-- A transfer that is carried out stores or delivers the bytes of its object. -/
theorem Stored.carriedOut {b : Buffers} (h : b.Stored) {l : BufferLabel} (hadm : b.Admissible l)
    (hdone : b.CarriedOut l) : b.Simulated l := by
  refine h.simulated hadm ?_
  cases l with
  | process user => trivial
  | write cmd env => exact fun _ _ hptr hne => absurd (hdone.2.2.2 hptr) hne
  | read cmd env =>
    obtain ⟨m, -, -, -, -, -, hzero⟩ := hdone
    exact fun _ _ _ _ _ hne => absurd hzero hne

/-! ## What the code says -/

section Codes

variable {b : Buffers} {env : KernelEnv} {m : ℕ}

theorem check_nonempty {mem : Option ℕ} (hm : mem = some m) {size : ℕ} (hsize : size ≠ 0) :
    checkReadWriteParams mem size = clSuccess :=
  (check_eq_success mem size).mpr ⟨hm ▸ Option.some_ne_none m, Nat.pos_of_ne_zero hsize⟩

theorem check_empty {mem : Option ℕ} (hm : mem = some m) {size : ℕ} (hsize : size = 0) :
    checkReadWriteParams mem size = clInvalidValue := by
  rw [hm, hsize]
  rfl

theorem one_ne_clInvalidValue : (1 : ℤ) ≠ clInvalidValue := by decide

/-- The code of a write is right unless the check of the size fails, or a fault is not seen. -/
theorem write_code_iff {cmd : WriteArgs} (hb : b.Sound) (hadm : b.Admissible (.write cmd env))
    (hm : cmd.mem = some m) : (b.handle (.write cmd env)).1 = b.firstFailure (.write cmd env) ↔
      Sized (.write cmd env) ∧ b.FaultSeen (.write cmd env) := by
  change (b.handleWriteCommand env cmd).1 = b.firstFailure _ ↔ 0 < cmd.size ∧ (cmd.mem ≠ none → _)
  unfold firstFailure
  dsimp only
  by_cases hzero : cmd.size = 0
  · have hcode := (write_fails hb hadm hm fun hs => hs.1.ne' hzero).code
    rw [hcode, if_pos hzero, check_empty hm hzero, if_pos invalidValue_ne_clSuccess]
    exact iff_of_false one_ne_clInvalidValue fun h => h.1.ne' hzero
  have hsize : 0 < cmd.size := Nat.pos_of_ne_zero hzero
  rw [if_neg (not_not.mpr (check_nonempty hm hzero)), and_iff_right hsize,
    imp_iff_right (hm ▸ Option.some_ne_none m : cmd.mem ≠ none)]
  cases hv : env.vmalloc with
  | none =>
    have hrefused : ¬ Stores cmd env := fun hs => by
      have hgiven := hs.2.1
      rw [hv] at hgiven
      cases hgiven
    have hcode := (write_fails hb hadm hm hrefused).code
    rw [hcode, if_neg hzero, if_pos rfl]
    exact iff_of_true rfl fun h => by cases h
  | some given =>
    rw [if_neg (Option.some_ne_none given), imp_iff_right (Option.isSome_some)]
    by_cases hseen : cmd.ptr ≠ 0 → u32 env.uncopied = 0
    · obtain ⟨base, hstores⟩ := write_stores hadm hm ⟨hsize, by rw [hv, Option.isSome_some], hseen⟩
      rw [hstores.code]
      by_cases hfault : cmd.ptr ≠ 0 ∧ env.uncopied ≠ 0
      · rw [if_pos hfault]
        exact iff_of_false failure_ne_clSuccess.symm fun h => h hfault.1 hfault.2 (hseen hfault.1)
      · rw [if_neg hfault]
        exact iff_of_true rfl fun hptr hne => absurd ⟨hptr, hne⟩ hfault
    · obtain ⟨hptr, hfault⟩ := Classical.not_imp.mp hseen
      have hcode := (write_fails hb hadm hm fun hs => hseen hs.2.2).code
      have hne : env.uncopied ≠ 0 := fun hzero => hfault (by rw [hzero, u32_of_lt (by norm_num)])
      rw [hcode, if_neg hzero, if_pos ⟨hptr, hne⟩]
      exact iff_of_true rfl fun _ _ => hfault

theorem read_code {cmd : ReadArgs} (hb : b.Stored) (hadm : b.Admissible (.read cmd env))
    (hm : cmd.mem = some m) : (b.handleReadCommand env cmd).1 =
      if cmd.size = 0 then 1
      else if (b.mems m).unimemPtr.ptr = none then clInvalidMemObject
      else if cmd.ptr = 0 then clInvalidValue
      else if cmd.size ≠ (b.mems m).size then clInvalidValue
      else if u32 env.uncopied ≠ 0 then clMemObjectAllocationFailure
      else clSuccess := by
  obtain ⟨hsize64, hptr64, -⟩ := hadm
  unfold handleReadCommand
  rw [hm]
  dsimp only
  rw [rc_some]
  by_cases hzero : cmd.size = 0
  · rw [if_pos hzero, if_pos hzero, if_pos one_ne_zero]
  rw [if_neg hzero, if_neg hzero, if_neg (not_not.mpr rfl)]
  obtain hnull | ⟨a, hdecode, ha⟩ := hb.addresses m
  · rw [if_pos hnull, if_pos hnull]
  have hrecord : (b.mems m).unimemPtr.ptr ≠ none := by simp [ha, UnimemPtr.of]
  rw [if_neg hrecord, if_neg hrecord]
  by_cases hptr : cmd.ptr = 0
  · rw [if_pos hptr, if_pos hptr]
  rw [if_neg hptr, if_neg hptr]
  by_cases hsize : cmd.size ≠ (b.mems m).size
  · rw [if_pos hsize, if_pos hsize]
  rw [if_neg hsize, if_neg hsize, ← not_not.mp hsize, ha]
  obtain ⟨v, hv, -⟩ := b.unimem.copyFromUnimem_of env hdecode hptr64 hsize64
  rw [hv]
  dsimp only
  by_cases hfault : u32 env.uncopied = 0
  · rw [decide_eq_true hfault, if_neg (by simp), if_neg (not_not.mpr hfault)]
  · rw [decide_eq_false hfault, if_pos (by simp), if_pos hfault]

/-- The code of a read is right unless the check of the size fails, or a fault is not seen. -/
theorem read_code_iff {cmd : ReadArgs} (hb : b.Stored) (hadm : b.Admissible (.read cmd env))
    (hm : cmd.mem = some m) : (b.handle (.read cmd env)).1 = b.firstFailure (.read cmd env) ↔
      Sized (.read cmd env) ∧ b.FaultSeen (.read cmd env) := by
  change (b.handleReadCommand env cmd).1 = b.firstFailure _ ↔ 0 < cmd.size ∧ (∀ m ∈ cmd.mem, _)
  rw [read_code hb hadm hm]
  unfold firstFailure
  dsimp only
  by_cases hzero : cmd.size = 0
  · rw [if_pos hzero, check_empty hm hzero, if_pos invalidValue_ne_clSuccess]
    exact iff_of_false one_ne_clInvalidValue fun h => h.1.ne' hzero
  rw [if_neg hzero, if_neg (not_not.mpr (check_nonempty hm hzero)),
    and_iff_right (Nat.pos_of_ne_zero hzero), hm]
  simp only [Option.mem_def, Option.some.injEq, forall_eq']
  by_cases hnull : (b.mems m).unimemPtr.ptr = none
  · rw [if_pos hnull, if_pos hnull]
    exact iff_of_true rfl fun hne => absurd hnull hne
  rw [if_neg hnull, if_neg hnull, imp_iff_right hnull]
  by_cases hptr : cmd.ptr = 0
  · rw [if_pos hptr, if_pos hptr]
    exact iff_of_true rfl fun hne => absurd hptr hne
  rw [if_neg hptr, if_neg hptr, imp_iff_right hptr]
  by_cases hsize : cmd.size ≠ (b.mems m).size
  · rw [if_pos hsize, if_pos hsize]
    exact iff_of_true rfl fun heq => absurd heq hsize
  rw [if_neg hsize, if_neg hsize, imp_iff_right (not_not.mp hsize)]
  by_cases hfault : u32 env.uncopied ≠ 0
  · have hne : env.uncopied ≠ 0 := fun hzero => hfault (by rw [hzero, u32_of_lt (by norm_num)])
    rw [if_pos hfault, if_pos hne]
    exact iff_of_true rfl fun _ => hfault
  · rw [if_neg hfault]
    by_cases hne : env.uncopied ≠ 0
    · rw [if_pos hne]
      exact iff_of_false failure_ne_clSuccess.symm fun h => hfault (h hne)
    · rw [if_neg hne]
      exact iff_of_true rfl fun h => absurd h hne

end Codes

end Buffers

end FpgaMl
