import Mathlib.Tactic
import FpgaMl.BufferStore
import FpgaMl.UnimemRoundTrip

/-! # Who may touch which block

The driver follows every message whose type and length are right, whatever address it names. That
the library's messages name allocated blocks only is the library's doing: here the driver runs on
its own with the history of its messages, and the handlers of the dispatcher are one client of it. -/
namespace FpgaMl
open ByteMemory MachineInt TransitionSystem
set_option autoImplicit false

/-! ## The driver and its client -/

inductive DriverLabel
  | write (env : KernelEnv) (buf : List UInt8)
  | read (len : ℕ)
  | process (user : ℕ → UInt8)

namespace Driver

def new (memory user : ℕ → UInt8) : Driver := ⟨⟨0, ⟨0, 0, 0⟩⟩, memory, [], user⟩

def step (d : Driver) : DriverLabel → Driver
  | .write env buf => (d.devWrite env buf).2
  | .read len => (d.devRead len).2.2
  | .process user => { d with user := user }

end Driver

/-- What the kernel grants a request: `vmalloc` returns NULL or a block apart from the live ones,
and a copy leaves at most what there is to copy. -/
def Request.Granted (env : KernelEnv) (live : List (ℕ × ℕ)) : Request → Prop
  | .alloc size => ∀ block ∈ env.vmalloc, 0 < block.1 ∧ block.1 + size ≤ 2 ^ 64 ∧
      ∀ other ∈ live, Apart (block.1, size) other
  | .destroy _ => True
  | .write _ _ userBufferLen => env.uncopied ≤ userBufferLen
  | .read _ _ userBufferLen => env.uncopied ≤ userBufferLen

instance (env : KernelEnv) (live : List (ℕ × ℕ)) (q : Request) : Decidable (q.Granted env live) :=
  match q with
  | .alloc size => inferInstanceAs (Decidable (∀ block ∈ env.vmalloc, 0 < block.1 ∧
      block.1 + size ≤ 2 ^ 64 ∧ ∀ other ∈ live, Apart (block.1, size) other))
  | .destroy _ => inferInstanceAs (Decidable True)
  | .write _ _ _ => inferInstanceAs (Decidable (_ ≤ _))
  | .read _ _ _ => inferInstanceAs (Decidable (_ ≤ _))

/-- The block that a request allocates, with the length it asks for. -/
def Request.allocates (env : KernelEnv) : Request → Option (ℕ × ℕ)
  | .alloc size => env.vmalloc.map fun given => (given.1, size)
  | .destroy _ => none
  | .write _ _ _ => none
  | .read _ _ _ => none

/-- The address that a request frees. -/
def Request.frees : Request → Option ℕ
  | .alloc _ => none
  | .destroy addr => some addr.kernelVirtAddr
  | .write _ _ _ => none
  | .read _ _ _ => none

/-- Of the blocks in `live`, the request names one, and stays inside. -/
def Request.Within (live : Set (ℕ × ℕ)) : Request → Prop
  | .alloc _ => True
  | .destroy addr => ∃ size, (addr.kernelVirtAddr, size) ∈ live
  | .write addr _ userBufferLen =>
    ∃ size, (addr.kernelVirtAddr, size) ∈ live ∧ userBufferLen ≤ size
  | .read addr _ userBufferLen =>
    ∃ size, (addr.kernelVirtAddr, size) ∈ live ∧ userBufferLen ≤ size

namespace DriverLabel

def allocates : DriverLabel → Option (ℕ × ℕ)
  | .write env buf => (Request.parse buf).bind (Request.allocates env)
  | .read _ => none
  | .process _ => none

def frees : DriverLabel → Option ℕ
  | .write _ buf => (Request.parse buf).bind Request.frees
  | .read _ => none
  | .process _ => none

def Granted (d : Driver) : DriverLabel → Prop
  | .write env buf => ∀ q ∈ Request.parse buf, q.Granted env d.live
  | .read _ => True
  | .process _ => True

instance (d : Driver) (l : DriverLabel) : Decidable (l.Granted d) :=
  match l with
  | .write env buf => inferInstanceAs (Decidable (∀ q ∈ Request.parse buf, q.Granted env d.live))
  | .read _ => inferInstanceAs (Decidable True)
  | .process _ => inferInstanceAs (Decidable True)

end DriverLabel

def driverSystem : Machine Driver DriverLabel where
  start d := ∃ memory user, d = Driver.new memory user
  next d l := if l.Granted d then some (d.step l) else none

/-! ## The history -/

/-- An earlier message allocated the block, and none since has freed its address. -/
def Outstanding (history : List DriverLabel) : Set (ℕ × ℕ) := fun block =>
  ∃ before l since, history = before ++ l :: since ∧ l.allocates = some block ∧
    ∀ k ∈ since, k.frees ≠ some block.1

theorem outstanding_cons (l : DriverLabel) (ls : List DriverLabel) (block : ℕ × ℕ) :
    block ∈ Outstanding (l :: ls) ↔
      (l.allocates = some block ∧ ∀ k ∈ ls, k.frees ≠ some block.1) ∨ block ∈ Outstanding ls := by
  constructor
  · rintro ⟨before, k, since, heq, hk, hsince⟩
    cases before with
    | nil =>
      obtain ⟨rfl, rfl⟩ := List.cons.inj heq
      exact Or.inl ⟨hk, hsince⟩
    | cons _ before =>
      obtain ⟨rfl, rfl⟩ := List.cons.inj heq
      exact Or.inr ⟨before, k, since, rfl, hk, hsince⟩
  · rintro (⟨hl, hls⟩ | ⟨before, k, since, rfl, hk, hsince⟩)
    · exact ⟨[], l, ls, rfl, hl, hls⟩
    · exact ⟨l :: before, k, since, rfl, hk, hsince⟩

namespace Driver

theorem perform_live (d : Driver) (env : KernelEnv) (q : Request) (block : ℕ × ℕ) :
    block ∈ (d.perform env q).2.live ↔
      q.allocates env = some block ∨ block ∈ d.live ∧ q.frees ≠ some block.1 := by
  cases q with
  | alloc size =>
    cases hv : env.vmalloc with
    | none => simp [perform, Request.allocates, Request.frees, hv]
    | some given => simp [perform, Request.allocates, Request.frees, hv, eq_comm (a := block)]
  | destroy addr => simp [perform, Request.allocates, Request.frees, eq_comm (a := block.1)]
  | write addr userBuffer userBufferLen => simp [perform, Request.allocates, Request.frees]
  | read addr userBuffer userBufferLen => simp [perform, Request.allocates, Request.frees]

@[simp] theorem devRead_live (d : Driver) (len : ℕ) : (d.devRead len).2.2.live = d.live := by
  unfold devRead
  split
  · rfl
  split
  · rfl
  split <;> rfl

theorem step_live (d : Driver) (l : DriverLabel) (block : ℕ × ℕ) :
    block ∈ (d.step l).live ↔
      l.allocates = some block ∨ block ∈ d.live ∧ l.frees ≠ some block.1 := by
  cases l with
  | write env buf =>
    rw [step, DriverLabel.allocates, DriverLabel.frees, devWrite_eq]
    cases Request.parse buf with
    | none => simp
    | some q => exact d.perform_live env q block
  | read len => simp [step, DriverLabel.allocates, DriverLabel.frees]
  | process user => simp [step, DriverLabel.allocates, DriverLabel.frees]

theorem run_live {d t : Driver} {ls : List DriverLabel} (h : driverSystem.run d ls = some t)
    (block : ℕ × ℕ) : block ∈ t.live ↔
      block ∈ d.live ∧ (∀ l ∈ ls, l.frees ≠ some block.1) ∨ block ∈ Outstanding ls := by
  induction ls generalizing d with
  | nil =>
    have hnone : block ∉ Outstanding [] := by
      rintro ⟨before, l, since, heq, -⟩
      exact List.append_ne_nil_of_right_ne_nil before (List.cons_ne_nil l since) heq.symm
    cases h
    simp [hnone]
  | cons l ls ih =>
    obtain ⟨m, hm, h⟩ := Option.bind_eq_some_iff.mp h
    obtain ⟨-, hm⟩ := Option.ite_none_right_eq_some.mp hm
    rw [ih h, ← Option.some.inj hm, step_live, outstanding_cons, List.forall_mem_cons]
    tauto

/-- The live blocks are those the history accounts for. -/
theorem live_eq_outstanding {memory user : ℕ → UInt8} {t : Driver} {ls : List DriverLabel}
    (h : driverSystem.run (new memory user) ls = some t) : {b | b ∈ t.live} = Outstanding ls := by
  ext block
  have hrun := run_live h block
  simp only [new, List.not_mem_nil, false_and, false_or] at hrun
  exact hrun

end Driver

/-! ## The driver does not look at the address -/

/-- A message that is accepted stays inside a block that an earlier one allocated and none since has
freed. -/
def TouchesOnlyAllocated : Prop :=
  ∀ (memory user : ℕ → UInt8) (history : List DriverLabel) (d : Driver),
    driverSystem.run (Driver.new memory user) history = some d →
      ∀ (env : KernelEnv) (buf : List UInt8) (q : Request), (DriverLabel.write env buf).Granted d →
        Request.parse buf = some q → 0 < (d.devWrite env buf).1 → q.Within (Outstanding history)

section Requests

variable {d : Driver} {env : KernelEnv} {q : Request}

theorem step_encode (d : Driver) (env : KernelEnv) (hq : q.InRange) :
    d.step (.write env q.encode) = (d.perform env q).2 := by
  rw [Driver.step, d.devWrite_encode env hq]

theorem granted_encode (hq : q.InRange) :
    (DriverLabel.write env q.encode).Granted d ↔ q.Granted env d.live := by
  rw [DriverLabel.Granted, Request.parse_encode hq]
  simp

theorem next_encode (hq : q.InRange) (hg : q.Granted env d.live) :
    driverSystem.next d (.write env q.encode) = some (d.perform env q).2 := by
  change (if _ then _ else _) = _
  rw [if_pos ((granted_encode hq).mpr hg), step_encode d env hq]

/-- Whatever the request names. -/
theorem accepted_encode (d : Driver) (hq : q.InRange) (hv : env.vmalloc.isSome)
    (hcopied : u32 env.uncopied = 0) : 0 < (d.devWrite env q.encode).1 := by
  rw [d.devWrite_encode env hq]
  cases q with
  | alloc size =>
    obtain ⟨given, hgiven⟩ := Option.isSome_iff_exists.mp hv
    simp [Driver.perform, hgiven]
  | destroy addr => simp [Driver.perform]
  | write addr userBuffer userBufferLen => simp [Driver.perform, hcopied]
  | read addr userBuffer userBufferLen => simp [Driver.perform, hcopied]

end Requests

/-- Eight bytes are allocated, and sixteen written there. -/
theorem overrun_accepted : ¬ TouchesOnlyAllocated := by
  intro h
  let env : KernelEnv := ⟨some (4096, fun _ => 0), 0⟩
  let d := Driver.new (fun _ => 0) fun _ => 0
  have halloc : (Request.alloc 8).InRange := by norm_num [Request.InRange]
  have hwrite : (Request.write ⟨4096, 13, 8⟩ 0 16).InRange :=
    ⟨⟨by norm_num, by norm_num, by norm_num⟩, by norm_num, by norm_num⟩
  have hrun : driverSystem.run d [.write env (Request.alloc 8).encode] =
      some (d.perform env (.alloc 8)).2 := by
    rw [Machine.run, next_encode halloc (by decide)]
    rfl
  have hlive := Driver.live_eq_outstanding hrun
  obtain ⟨size, hsize, hlen⟩ := h _ _ _ _ hrun env (Request.write ⟨4096, 13, 8⟩ 0 16).encode _
    ((granted_encode hwrite).mpr (by decide)) (Request.parse_encode hwrite)
    (accepted_encode _ hwrite rfl (u32_of_lt (by norm_num)))
  rw [← hlive] at hsize
  have heq : size = 8 := (Prod.mk.inj (List.mem_singleton.mp hsize)).2
  omega

/-! ## The library's calls -/

instance (live : List (ℕ × ℕ)) (q : Request) : Decidable (q.Within {b | b ∈ live}) :=
  match q with
  | .alloc _ => inferInstanceAs (Decidable True)
  | .destroy addr => decidable_of_iff (∃ block ∈ live, block.1 = addr.kernelVirtAddr)
      ⟨fun ⟨block, hb, heq⟩ => ⟨block.2, heq ▸ hb⟩, fun ⟨_, hb⟩ => ⟨_, hb, rfl⟩⟩
  | .write addr _ len => decidable_of_iff
      (∃ block ∈ live, block.1 = addr.kernelVirtAddr ∧ len ≤ block.2)
      ⟨fun ⟨block, hb, heq, hl⟩ => ⟨block.2, heq ▸ hb, hl⟩, fun ⟨_, hb, hl⟩ => ⟨_, hb, rfl, hl⟩⟩
  | .read addr _ len => decidable_of_iff
      (∃ block ∈ live, block.1 = addr.kernelVirtAddr ∧ len ≤ block.2)
      ⟨fun ⟨block, hb, heq, hl⟩ => ⟨block.2, heq ▸ hb, hl⟩, fun ⟨_, hb, hl⟩ => ⟨_, hb, rfl, hl⟩⟩

/-- A message is a request that stays within the live blocks. -/
def DriverLabel.Legal (d : Driver) : DriverLabel → Prop
  | .write _ buf =>
    match Request.parse buf with
    | some q => q.Within {b | b ∈ d.live}
    | none => False
  | .read _ => True
  | .process _ => True

instance (d : Driver) (l : DriverLabel) : Decidable (l.Legal d) :=
  match l with
  | .write _ buf =>
    match h : Request.parse buf with
    | some q => decidable_of_iff (q.Within {b | b ∈ d.live}) (by rw [DriverLabel.Legal, h])
    | none => isFalse (by rw [DriverLabel.Legal, h]; exact not_false)
  | .read _ => inferInstanceAs (Decidable True)
  | .process _ => inferInstanceAs (Decidable True)

/-- The calls lead from `d` to `t`, and every one of them is legal. -/
def Driver.Careful (d : Driver) (ls : List DriverLabel) (t : Driver) : Prop :=
  driverSystem.runWhere (fun d l => decide (l.Legal d)) d ls = some t

namespace Driver.Careful

theorem nil (d : Driver) : d.Careful [] d := rfl

theorem append {d m t : Driver} {ls ks : List DriverLabel} (h : d.Careful ls m)
    (hk : m.Careful ks t) : d.Careful (ls ++ ks) t := Machine.runWhere_append h hk

theorem request {d : Driver} {env : KernelEnv} {q : Request} (hq : q.InRange)
    (hg : q.Granted env d.live) (hw : q.Within {b | b ∈ d.live}) :
    d.Careful [.write env q.encode] (d.devWrite env q.encode).2 := by
  have hlegal : (DriverLabel.write env q.encode).Legal d := by
    rw [DriverLabel.Legal, Request.parse_encode hq]
    exact hw
  have hnext := next_encode hq hg
  rw [← d.devWrite_encode env hq] at hnext
  exact Machine.runWhere_single (decide_eq_true hlegal) hnext

theorem read (d : Driver) (len : ℕ) : d.Careful [.read len] (d.devRead len).2.2 := rfl

end Driver.Careful

namespace Unimem

def allocateCalls (u : Unimem) (env : KernelEnv) (size : ℕ) : List DriverLabel :=
  .write env (allocBytes u.readWriteBuffer size) ::
    if (u.writeAllocRequest env size).1 < 0 then [] else [.read 100]

def releaseCalls (u : Unimem) (env : KernelEnv) (ptr : UnimemPtr) : List DriverLabel :=
  [.write env (destroyBytes u.readWriteBuffer ptr)]

def copyToCalls (u : Unimem) (env : KernelEnv) (ptr : UnimemPtr) (bufPtr bufSize : ℕ) :
    List DriverLabel :=
  [.write env (dataBytes 'W'.toUInt8 u.readWriteBuffer ptr bufPtr bufSize)]

def copyFromCalls (u : Unimem) (env : KernelEnv) (bufPtr : ℕ) (ptr : UnimemPtr) (bufSize : ℕ) :
    List DriverLabel :=
  [.write env (dataBytes 'R'.toUInt8 u.readWriteBuffer ptr bufPtr bufSize)]

section Careful

variable (u : Unimem) (env : KernelEnv) {a : UnimemAddr} {ptr size : ℕ}

theorem issue_careful {q : Request} (hq : q.InRange) (hg : q.Granted env u.driver.live)
    (hw : q.Within {b | b ∈ u.driver.live}) :
    u.driver.Careful [.write env (sent u.readWriteBuffer q)] (u.issue env q).driver := by
  rw [issue_driver, sent_eq]
  exact .request hq hg hw

theorem allocateUnimem_driver (size : ℕ) : (u.allocateUnimem env size).2.driver =
    if (u.writeAllocRequest env size).1 < 0 then (u.writeAllocRequest env size).2.driver
    else ((u.writeAllocRequest env size).2.readAllocResponse 100).2.driver := by
  unfold allocateUnimem
  dsimp only
  split
  · rfl
  split <;> dsimp only

theorem copyToUnimem_driver (addr : UnimemPtr) (ptr size : ℕ) :
    (u.copyToUnimem env addr ptr size).2.driver =
      (u.copyUserBufferToUnimem env addr ptr size).2.driver := by
  unfold copyToUnimem
  dsimp only
  split <;> dsimp only

theorem copyFromUnimem_driver (ptr : ℕ) (addr : UnimemPtr) (size : ℕ) :
    (u.copyFromUnimem env ptr addr size).2.driver =
      (u.copyUnimemBufferToUser env ptr size addr).2.driver := by
  unfold copyFromUnimem
  dsimp only
  split <;> dsimp only

theorem allocate_careful (hs : size < 2 ^ 64)
    (hg : (Request.alloc size).Granted env u.driver.live) :
    u.driver.Careful (u.allocateCalls env size) (u.allocateUnimem env size).2.driver := by
  have hwrite := u.issue_careful env (q := .alloc size) hs hg trivial
  rw [sent, issue] at hwrite
  rw [allocateUnimem_driver, allocateCalls]
  by_cases hrc : (u.writeAllocRequest env size).1 < 0
  · rw [if_pos hrc, if_pos hrc]
    exact hwrite
  · rw [if_neg hrc, if_neg hrc, readAllocResponse_driver]
    exact hwrite.append (.read _ 100)

theorem release_careful (ha : a.InRange) (hw : (Request.destroy a).Within {b | b ∈ u.driver.live}) :
    u.driver.Careful (u.releaseCalls env (UnimemPtr.of a))
      (u.releaseUnimem env (UnimemPtr.of a)).driver :=
  u.issue_careful env (q := .destroy a) ha trivial hw

theorem copyTo_careful (ha : a.InRange) (hp : ptr < 2 ^ 64) (hs : size < 2 ^ 64)
    (hu : env.uncopied ≤ size) (hw : (Request.write a ptr size).Within {b | b ∈ u.driver.live}) :
    u.driver.Careful (u.copyToCalls env (UnimemPtr.of a) ptr size)
      (u.copyToUnimem env (UnimemPtr.of a) ptr size).2.driver := by
  have hcopy := u.issue_careful env (q := .write a ptr size) ⟨ha, hp, hs⟩ hu hw
  rw [sent, issue] at hcopy
  rw [copyToUnimem_driver, copyToCalls]
  exact hcopy

theorem copyFrom_careful (ha : a.InRange) (hp : ptr < 2 ^ 64) (hs : size < 2 ^ 64)
    (hu : env.uncopied ≤ size) (hw : (Request.read a ptr size).Within {b | b ∈ u.driver.live}) :
    u.driver.Careful (u.copyFromCalls env ptr (UnimemPtr.of a) size)
      (u.copyFromUnimem env ptr (UnimemPtr.of a) size).2.driver := by
  have hcopy := u.issue_careful env (q := .read a ptr size) ⟨ha, hp, hs⟩ hu hw
  rw [sent, issue] at hcopy
  rw [copyFromUnimem_driver, copyFromCalls]
  exact hcopy

end Careful

end Unimem

namespace Buffers

def readCalls (b : Buffers) (env : KernelEnv) (cmd : ReadArgs) : List DriverLabel :=
  match cmd.mem with
  | none => []
  | some m =>
    let mem := b.mems m
    if checkReadWriteParams cmd.mem cmd.size ≠ clSuccess then []
    else if mem.unimemPtr.ptr = none then []
    else if cmd.ptr = 0 then []
    else if cmd.size ≠ mem.size then []
    else b.unimem.copyFromCalls env cmd.ptr mem.unimemPtr mem.size

def writeCalls (b : Buffers) (env : KernelEnv) (cmd : WriteArgs) : List DriverLabel :=
  match cmd.mem with
  | none => []
  | some _ =>
    if checkReadWriteParams cmd.mem cmd.size ≠ clSuccess then []
    else
      let (ptr, unimem) := b.unimem.allocateUnimem env cmd.size
      b.unimem.allocateCalls env cmd.size ++
        if ptr.ptr = none then []
        else if cmd.ptr ≠ 0 then
          let (copied, after) := unimem.copyToUnimem env ptr cmd.ptr cmd.size
          unimem.copyToCalls env ptr cmd.ptr cmd.size ++
            if !copied then after.releaseCalls env ptr else []
        else []

/-- The calls of the driver that the handler of a command makes, in order. -/
def calls (b : Buffers) : BufferLabel → List DriverLabel
  | .write cmd env => b.writeCalls env cmd
  | .read cmd env => b.readCalls env cmd
  | .process user => [.process user]

/-- The calls of a whole run. -/
def trace : Buffers → List BufferLabel → List DriverLabel
  | _, [] => []
  | b, l :: ls => b.calls l ++ trace (b.handle l).2 ls

theorem Stored.read_careful {b : Buffers} (h : b.Stored) {env : KernelEnv} {cmd : ReadArgs}
    (hl : b.Admissible (.read cmd env)) : b.unimem.driver.Careful (b.readCalls env cmd)
      (b.handleReadCommand env cmd).2.unimem.driver := by
  obtain ⟨hsize64, hptr64, hu⟩ := hl
  unfold readCalls handleReadCommand
  cases hm : cmd.mem with
  | none => exact .nil _
  | some m =>
    dsimp only
    rw [rc_some]
    by_cases hzero : cmd.size = 0
    · rw [if_pos hzero, if_pos one_ne_zero, if_pos ((check_some m _).mpr hzero)]
      exact .nil _
    rw [if_neg hzero, if_neg (not_not.mpr rfl), if_neg (mt (check_some m _).mp hzero)]
    obtain hnull | ⟨base, hrecord, hlive, hroom⟩ := h.record m
    · rw [if_pos hnull, if_pos hnull]
      exact .nil _
    have hptr : (b.mems m).unimemPtr.ptr ≠ none := by simp [hrecord, UnimemPtr.of]
    rw [if_neg hptr, if_neg hptr]
    by_cases hnone : cmd.ptr = 0
    · rw [if_pos hnone, if_pos hnone]
      exact .nil _
    rw [if_neg hnone, if_neg hnone]
    by_cases hsize : cmd.size ≠ (b.mems m).size
    · rw [if_pos hsize, if_pos hsize]
      exact .nil _
    rw [if_neg hsize, if_neg hsize]
    rw [not_not] at hsize
    have hcopy := b.unimem.copyFrom_careful env (a := ⟨base, 13, (b.mems m).size⟩)
      (UnimemAddr.inRange_of_decode (h.decode hlive hroom)) hptr64 (hsize ▸ hsize64) (hsize ▸ hu)
      ⟨_, hlive, le_rfl⟩
    rw [← hrecord] at hcopy
    split <;> exact hcopy

theorem write_careful {b : Buffers} {env : KernelEnv} {cmd : WriteArgs}
    (hl : b.Admissible (.write cmd env)) : b.unimem.driver.Careful (b.writeCalls env cmd)
      (b.handleWriteCommand env cmd).2.unimem.driver := by
  obtain ⟨hsize64, hptr64, hu, hblock⟩ := hl
  unfold writeCalls handleWriteCommand
  cases hm : cmd.mem with
  | none => exact .nil _
  | some m =>
    dsimp only
    rw [rc_some]
    by_cases hzero : cmd.size = 0
    · rw [if_pos hzero, if_pos one_ne_zero, if_pos ((check_some m _).mpr hzero)]
      exact .nil _
    rw [if_neg hzero, if_neg (not_not.mpr rfl), if_neg (mt (check_some m _).mp hzero)]
    have hfirst := b.unimem.allocate_careful env hsize64 hblock
    cases hv : env.vmalloc with
    | none =>
      obtain ⟨v, hnull, -⟩ := b.unimem.allocateUnimem_refused hsize64 hv
      rw [hnull] at hfirst ⊢
      rw [if_pos rfl, if_pos rfl, List.append_nil]
      exact hfirst
    | some given =>
      obtain ⟨base, fill⟩ := given
      obtain ⟨hbase, hroom, -⟩ := hblock _ hv
      have ha := UnimemAddr.inRange_of_decode
        (decode_of_room hroom (Nat.pos_of_ne_zero hzero) hbase)
      obtain ⟨v, hgiven, hdriver⟩ := b.unimem.allocateUnimem_granted hsize64 hv
      rw [hgiven] at hfirst ⊢
      dsimp only
      have hptr : (UnimemPtr.of ⟨base, 13, cmd.size⟩).ptr ≠ none := by simp [UnimemPtr.of]
      rw [if_neg hptr, if_neg hptr]
      by_cases hnone : cmd.ptr = 0
      · rw [if_neg (not_not.mpr hnone), if_neg (not_not.mpr hnone), List.append_nil]
        exact hfirst
      rw [if_pos hnone, if_pos hnone]
      have hlive : (base, cmd.size) ∈ v.driver.live := by
        rw [hdriver]
        exact List.mem_cons_self
      have hcopy := v.copyTo_careful env ha hptr64 hsize64 hu ⟨_, hlive, le_rfl⟩
      have hboth := hfirst.append hcopy
      obtain ⟨w, hw, hcopied⟩ := v.copyToUnimem_of env
        (decode_of_room hroom (Nat.pos_of_ne_zero hzero) hbase) hptr64 hsize64
      rw [hw] at hboth ⊢
      dsimp only
      by_cases hfault : u32 env.uncopied = 0
      · rw [decide_eq_true hfault, if_neg (by simp), if_neg (by simp), List.append_nil]
        exact hboth
      · rw [decide_eq_false hfault, if_pos (by simp), if_pos (by simp), ← List.append_assoc]
        refine hboth.append (w.release_careful env ha ⟨cmd.size, ?_⟩)
        rw [hcopied]
        exact hlive

theorem Stored.careful {b : Buffers} (h : b.Stored) {l : BufferLabel} (hl : b.Admissible l) :
    b.unimem.driver.Careful (b.calls l) (b.handle l).2.unimem.driver := by
  cases l with
  | write cmd env => exact write_careful hl
  | read cmd env => exact h.read_careful hl
  | process user => rfl

theorem Stored.trace_careful {b t : Buffers} (h : b.Stored) {ls : List BufferLabel}
    (hr : bufferSystem.run b ls = some t) : b.unimem.driver.Careful (b.trace ls) t.unimem.driver := by
  induction ls generalizing b with
  | nil =>
    cases hr
    exact .nil _
  | cons l ls ih =>
    obtain ⟨m, hm, hr⟩ := Option.bind_eq_some_iff.mp hr
    obtain ⟨hl, hm⟩ := Option.ite_none_right_eq_some.mp hm
    cases hm
    exact (h.careful hl).append (ih (h.step hl) hr)

/-- A run of the commands is a run of the driver under the calls of the handlers; every message
among them is a request, and stays inside a block that the messages before it allocated and did not
free. The driver itself accepts a message whatever block it names. -/
structure WithinAllocated (memory user : ℕ → UInt8) (ls : List BufferLabel) (b : Buffers) : Prop where
  run : driverSystem.run (Driver.new memory user) ((new memory user).trace ls) =
    some b.unimem.driver
  within : ∀ before env buf since, (new memory user).trace ls = before ++ .write env buf :: since →
    ∃ q, Request.parse buf = some q ∧ q.Within (Outstanding before)
  unchecked : ∀ (d : Driver) (env : KernelEnv) (q : Request), q.InRange → env.vmalloc.isSome →
    u32 env.uncopied = 0 → 0 < (d.devWrite env q.encode).1

theorem library_within_allocated {memory user : ℕ → UInt8} {ls : List BufferLabel} {b : Buffers}
    (h : bufferSystem.run (new memory user) ls = some b) : WithinAllocated memory user ls b := by
  have hcareful := (stored_new memory user).trace_careful h
  refine ⟨Machine.run_of_runWhere hcareful, ?_, fun d _ _ => accepted_encode d⟩
  intro before env buf since heq
  rw [heq] at hcareful
  obtain ⟨d, hrun, hlegal⟩ := Machine.runWhere_split hcareful
  have hlegal := of_decide_eq_true hlegal
  rw [DriverLabel.Legal] at hlegal
  split at hlegal
  · rename_i q hq
    rw [Driver.live_eq_outstanding hrun] at hlegal
    exact ⟨q, hq, hlegal⟩
  · exact hlegal.elim

/-- A write, a write whose copy faults so that its block is freed again, and a read. -/
theorem library_within_allocated_three : ∃ b : Buffers,
    WithinAllocated (fun _ => 0) (fun _ => 7) [.write ⟨some 0, 0, 2, 16⟩ ⟨some (64, fun _ => 9), 0⟩,
      .write ⟨some 1, 0, 3, 16⟩ ⟨some (128, fun _ => 9), 1⟩, .read ⟨some 0, 0, 2, 32⟩ ⟨none, 0⟩] b ∧
      b.live = [(64, 2)] := by
  have hrun : (bufferSystem.run (new (fun _ => 0) fun _ => 7)
      [.write ⟨some 0, 0, 2, 16⟩ ⟨some (64, fun _ => 9), 0⟩,
        .write ⟨some 1, 0, 3, 16⟩ ⟨some (128, fun _ => 9), 1⟩,
        .read ⟨some 0, 0, 2, 32⟩ ⟨none, 0⟩]).map live = some [(64, 2)] := by
    decide +kernel
  obtain ⟨b, hb, hlive⟩ := Option.map_eq_some_iff.mp hrun
  exact ⟨b, library_within_allocated hb, hlive⟩

end Buffers

end FpgaMl
