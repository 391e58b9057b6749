import Mathlib.Tactic
import FpgaMl.Foundation.Ownership
import FpgaMl.RefCounter
import FpgaMl.TransferCodes

/-! # The lives of cl_mem objects and of their buffers

`clCreateBuffer`, write commands and `clReleaseMemObject` with the reference counts of the objects
(ocl_ds.h, ocl_api.cc). A write binds a fresh buffer of the driver to its object; nothing frees the
one it replaces, nor the one of an object that is deleted. -/
namespace FpgaMl
open ByteMemory MachineInt TransitionSystem Ownership
set_option autoImplicit false

/-! ## The system -/

/-- The `cl_mem` objects with their counters, the references the clients hold, and the write
commands that wait in some queue. -/
structure MemObjects where
  buffers : Buffers
  counters : ℕ → RefCounter
  nextMem : ℕ
  handles : ℕ → Bool
  pending : List WriteArgs

inductive MemLabel
  | createBuffer (useHostPtr allocHostPtr : Bool) (size hostPtr : ℕ) (env : KernelEnv)
  | enqueueWrite (args : WriteArgs) (queued : Bool)
  | runWrite (i : ℕ) (env : KernelEnv)
  | releaseMemObject (m : ℕ)

namespace MemObjects

def new (memory user : ℕ → UInt8) : MemObjects :=
  ⟨.new memory user, fun _ => .absent, 0, fun _ => false, []⟩

def refCntUp (s : MemObjects) (m : ℕ) : MemObjects :=
  { s with counters := Function.update s.counters m (s.counters m).refCntUp }

def refCntDown (s : MemObjects) (m : ℕ) : MemObjects :=
  { s with counters := Function.update s.counters m (s.counters m).refCntDown }

/-- A new `_cl_mem`. -/
def newMem (s : MemObjects) : MemObjects :=
  { s with
    buffers := { s.buffers with mems := Function.update s.buffers.mems s.nextMem ⟨⟨none, 0⟩, 0⟩ }
    counters := Function.update s.counters s.nextMem .new
    nextMem := s.nextMem + 1 }

def handleWrite (s : MemObjects) (args : WriteArgs) (env : KernelEnv) : MemObjects :=
  { s with buffers := (s.buffers.handleWriteCommand env args).2 }

/-- The loop thread takes the write on `m` to the dispatcher, and deletes the command. -/
def execute (s : MemObjects) (m : ℕ) (args : WriteArgs) (env : KernelEnv) : MemObjects :=
  (s.handleWrite args env).refCntDown m

/-- The write that `clCreateBuffer` makes on a queue of its own, where the flags ask for one. -/
def initialWrite (m : ℕ) (useHostPtr allocHostPtr : Bool) (size hostPtr : ℕ) : Option WriteArgs :=
  if hostPtr ≠ 0 ∧ useHostPtr then some ⟨some m, 0, size, hostPtr⟩
  else if allocHostPtr then some ⟨some m, 0, size, 0⟩
  else none

/-- The write blocks. With both flags the object is made, and no reference to it returned. -/
def createBuffer (s : MemObjects) (useHostPtr allocHostPtr : Bool) (size hostPtr : ℕ)
    (env : KernelEnv) : MemObjects :=
  if useHostPtr && allocHostPtr then s.newMem
  else
    let made := { s.newMem with handles := Function.update s.handles s.nextMem true }
    match initialWrite s.nextMem useHostPtr allocHostPtr size hostPtr with
    | some args => (made.refCntUp s.nextMem).execute s.nextMem args env
    | none => made

/-- A command that its queue does not keep is never deleted. -/
def enqueueWrite (s : MemObjects) (m : ℕ) (args : WriteArgs) (queued : Bool) : MemObjects :=
  { s.refCntUp m with pending := if queued then s.pending ++ [args] else s.pending }

def runWrite (s : MemObjects) (i m : ℕ) (args : WriteArgs) (env : KernelEnv) : MemObjects :=
  { s with pending := s.pending.eraseIdx i }.execute m args env

def releaseMemObject (s : MemObjects) (m : ℕ) : MemObjects :=
  { s with handles := Function.update s.handles m false }.refCntDown m

/-- Clients use the references they hold; the use of a deleted object stops the run. -/
def next (s : MemObjects) : MemLabel → Option MemObjects
  | .createBuffer useHostPtr allocHostPtr size hostPtr env =>
    if ∀ args ∈ initialWrite s.nextMem useHostPtr allocHostPtr size hostPtr,
        s.buffers.Admissible (.write args env) then
      some (s.createBuffer useHostPtr allocHostPtr size hostPtr env)
    else none
  | .enqueueWrite args queued =>
    match args.mem with
    | some m =>
      if s.handles m ∧ (s.counters m).deleted = false then some (s.enqueueWrite m args queued)
      else none
    | none => none
  | .runWrite i env =>
    match s.pending[i]? with
    | some args =>
      match args.mem with
      | some m =>
        if (s.counters m).deleted = false ∧ s.buffers.Admissible (.write args env) then
          some (s.runWrite i m args env)
        else none
      | none => none
    | none => none
  | .releaseMemObject m =>
    if s.handles m ∧ (s.counters m).deleted = false then some (s.releaseMemObject m) else none

end MemObjects

def memSystem : Machine MemObjects MemLabel where
  start s := ∃ memory user, s = MemObjects.new memory user
  next := MemObjects.next

/-! ## Leaks -/

namespace MemObjects

/-- The addresses that the driver has allocated and not freed. -/
def allocated (s : MemObjects) : Set ℕ := {addr | ∃ size, (addr, size) ∈ s.buffers.live}

/-- The address in the unimem pointer of an object that is still alive. -/
def refers (s : MemObjects) (m : ℕ) : Option ℕ :=
  bif (s.counters m).deleted then none
  else (s.buffers.mems m).unimemPtr.ptr.map fun record => (UnimemAddr.decode record).kernelVirtAddr

def NoLeak (s : MemObjects) : Prop := s.allocated = owned s.refers

/-- A write that is stored finds an object without a buffer that has other references than the
command's, and an object that loses its last reference has no buffer. -/
def Lawful (s : MemObjects) : MemLabel → Prop
  | .createBuffer _ _ _ _ _ => True
  | .enqueueWrite _ _ => True
  | .runWrite i env => ∀ args ∈ s.pending[i]?, ∀ m ∈ args.mem,
      (Buffers.Stores args env → (s.buffers.mems m).unimemPtr.ptr = none ∧ 1 < (s.counters m).counter) ∧
      (¬ Buffers.Stores args env → (s.counters m).counter ≤ 1 → (s.buffers.mems m).unimemPtr.ptr = none)
  | .releaseMemObject m =>
    (s.counters m).counter ≤ 1 → (s.buffers.mems m).unimemPtr.ptr = none

/-! ## What a step does to the references -/

structure Tidy (s : MemObjects) : Prop where
  stored : s.buffers.Stored
  noLeak : s.NoLeak
  exclusive : Exclusive s.refers
  fresh : ∀ m, s.nextMem ≤ m → (s.counters m).deleted = true

theorem tidy_new (memory user : ℕ → UInt8) : (new memory user).Tidy := by
  have hnone : (new memory user).refers = fun _ => none := rfl
  refine ⟨Buffers.stored_new memory user, ?_, ?_, fun _ _ => rfl⟩
  · unfold NoLeak
    rw [hnone]
    ext addr
    exact iff_of_false (fun ⟨_, h⟩ => List.not_mem_nil h) fun ⟨_, h⟩ => Option.some_ne_none _ h.symm
  · intro m k addr h
    cases h

section Steps

variable {s : MemObjects} {m : ℕ} {args : WriteArgs} {env : KernelEnv}

theorem refers_congr {t : MemObjects} (hmems : t.buffers.mems = s.buffers.mems)
    (hdeleted : ∀ m, (t.counters m).deleted = (s.counters m).deleted) : t.refers = s.refers := by
  funext m
  unfold refers
  rw [hmems, hdeleted]

theorem deleted_refCntUp (s : MemObjects) (m k : ℕ) :
    ((s.refCntUp m).counters k).deleted = (s.counters k).deleted := by
  unfold refCntUp
  dsimp only
  by_cases hk : k = m
  · subst hk
    rw [Function.update_self, RefCounter.deleted_refCntUp]
  · rw [Function.update_of_ne hk]

theorem deleted_refCntDown (s : MemObjects) (m k : ℕ) : ((s.refCntDown m).counters k).deleted =
    ((s.counters k).deleted || decide (k = m ∧ (s.counters m).counter ≤ 1)) := by
  unfold refCntDown
  dsimp only
  by_cases hk : k = m
  · subst hk
    rw [Function.update_self, RefCounter.deleted_refCntDown]
    simp
  · rw [Function.update_of_ne hk]
    simp [hk]

theorem refers_refCntUp (s : MemObjects) (m : ℕ) : (s.refCntUp m).refers = s.refers :=
  refers_congr rfl (s.deleted_refCntUp m)

theorem refers_refCntDown (s : MemObjects) (m : ℕ) : (s.refCntDown m).refers =
    if (s.counters m).counter ≤ 1 then Function.update s.refers m none else s.refers := by
  split
  · rename_i hlast
    funext k
    unfold refers
    rw [deleted_refCntDown]
    by_cases hk : k = m
    · subst hk
      rw [Function.update_self, decide_eq_true ⟨rfl, hlast⟩, Bool.or_true, cond_true]
    · rw [Function.update_of_ne hk, decide_eq_false fun h => hk h.1, Bool.or_false]
      rfl
  · rename_i hlast
    refine refers_congr rfl fun k => ?_
    rw [deleted_refCntDown, decide_eq_false fun h => hlast h.2, Bool.or_false]

theorem refers_newMem (h : s.Tidy) : s.newMem.refers = s.refers := by
  funext k
  unfold refers newMem
  dsimp only
  by_cases hk : k = s.nextMem
  · subst hk
    rw [Function.update_self, Function.update_self, h.fresh _ le_rfl]
    rfl
  · rw [Function.update_of_ne hk, Function.update_of_ne hk]

theorem refers_eq_none (halive : (s.counters m).deleted = false) :
    s.refers m = none ↔ (s.buffers.mems m).unimemPtr.ptr = none := by
  unfold refers
  rw [halive, cond_false, Option.map_eq_none_iff]

/-- Steps that leave the blocks and the references alone. -/
theorem Tidy.quiet {t : MemObjects} (h : s.Tidy) (hstored : t.buffers.Stored)
    (hlive : t.buffers.live = s.buffers.live) (hrefers : t.refers = s.refers)
    (hfresh : ∀ m, t.nextMem ≤ m → (t.counters m).deleted = true) : t.Tidy := by
  refine ⟨hstored, ?_, hrefers ▸ h.exclusive, hfresh⟩
  unfold NoLeak allocated
  rw [hlive, hrefers]
  exact h.noLeak

theorem Tidy.newMem (h : s.Tidy) : s.newMem.Tidy := by
  refine h.quiet ⟨h.stored.noReply, h.stored.sound, fun k => ?_⟩ rfl (refers_newMem h)
    fun k hk => ?_
  · unfold MemObjects.newMem
    dsimp only
    by_cases hk : k = s.nextMem
    · subst hk
      rw [Function.update_self]
      exact Or.inl rfl
    · rw [Function.update_of_ne hk]
      exact h.stored.record k
  · have hne : k ≠ s.nextMem := by
      have hk : s.nextMem + 1 ≤ k := hk
      omega
    unfold MemObjects.newMem
    dsimp only
    rw [Function.update_of_ne hne]
    have hk : s.nextMem + 1 ≤ k := hk
    exact h.fresh k (by omega)

theorem Tidy.refCntUp (h : s.Tidy) (m : ℕ) : (s.refCntUp m).Tidy :=
  h.quiet h.stored rfl (refers_refCntUp s m) fun k hk =>
    (deleted_refCntUp s m k).trans (h.fresh k hk)

/-- A drop of a reference leaks exactly when it was the last one and the object has a buffer. -/
theorem Tidy.down_iff (h : s.Tidy) (halive : (s.counters m).deleted = false) :
    (s.refCntDown m).NoLeak ↔
      ((s.counters m).counter ≤ 1 → (s.buffers.mems m).unimemPtr.ptr = none) := by
  have hnoLeak : s.allocated = owned s.refers := h.noLeak
  change s.allocated = _ ↔ _
  rw [refers_refCntDown, hnoLeak, ← refers_eq_none halive]
  by_cases hlast : (s.counters m).counter ≤ 1
  · rw [if_pos hlast, eq_comm, owned_drop_iff h.exclusive]
    exact ⟨fun hm _ => hm, fun hm => hm hlast⟩
  · rw [if_neg hlast]
    exact iff_of_true rfl fun h => absurd h hlast

theorem Tidy.down (h : s.Tidy) (hleak : (s.refCntDown m).NoLeak) : (s.refCntDown m).Tidy := by
  refine ⟨h.stored, hleak, ?_, fun k hk => ?_⟩
  swap
  · rw [deleted_refCntDown, h.fresh k hk, Bool.true_or]
  rw [refers_refCntDown]
  split
  · exact h.exclusive.drop m
  · exact h.exclusive

/-! ### A write -/

theorem not_allocated (h : s.Tidy) (hadm : s.buffers.Admissible (.write args env))
    (hsize : 0 < args.size) {base : ℕ} (hgiven : env.vmalloc.map Prod.fst = some base) :
    base ∉ s.allocated := by
  rintro ⟨size, hlive⟩
  obtain ⟨given, hv, rfl⟩ := Option.map_eq_some_iff.mp hgiven
  have hapart := (hadm.2.2.2 given hv).2.2 _ hlive
  have hpos := (h.stored.sound _ hlive).2
  unfold Apart at hapart
  dsimp only at hapart hpos
  omega

/-- The record of the new block is in the place of the old one. -/
theorem refers_stores (hadm : s.buffers.Admissible (.write args env))
    (hsize : 0 < args.size) (halive : (s.counters m).deleted = false) {base : ℕ}
    (hw : s.buffers.WriteStores env args m base) :
    (s.handleWrite args env).refers = Function.update s.refers m (some base) := by
  obtain ⟨given, hv, rfl⟩ := Option.map_eq_some_iff.mp hw.given
  obtain ⟨hbase, hroom, -⟩ := hadm.2.2.2 given hv
  funext k
  unfold refers handleWrite
  dsimp only
  by_cases hk : k = m
  · subst hk
    rw [Function.update_self, halive, cond_false, hw.mems, Function.update_self]
    change some (UnimemAddr.decode (UnimemAddr.encode _)).kernelVirtAddr = _
    rw [Buffers.decode_of_room hroom hsize hbase]
  · rw [Function.update_of_ne hk, hw.mems, Function.update_of_ne hk]

theorem allocated_stores {base : ℕ} (hw : s.buffers.WriteStores env args m base) :
    (s.handleWrite args env).allocated = insert base s.allocated := by
  ext addr
  change (∃ size, (addr, size) ∈ (s.buffers.handleWriteCommand env args).2.live) ↔ _
  rw [hw.live, Set.mem_insert_iff]
  simp only [List.mem_cons, Prod.mk.injEq]
  constructor
  · rintro ⟨size, ⟨rfl, -⟩ | h⟩
    · exact Or.inl rfl
    · exact Or.inr ⟨size, h⟩
  · rintro (rfl | ⟨size, h⟩)
    · exact ⟨_, Or.inl ⟨rfl, rfl⟩⟩
    · exact ⟨size, Or.inr h⟩

/-- A write leaks exactly when it replaces a buffer, or the last reference goes from an object that
has one then. -/
theorem Tidy.execute_iff (h : s.Tidy) (hadm : s.buffers.Admissible (.write args env))
    (hm : args.mem = some m) (halive : (s.counters m).deleted = false) :
    (s.execute m args env).NoLeak ↔
      (Buffers.Stores args env →
        (s.buffers.mems m).unimemPtr.ptr = none ∧ 1 < (s.counters m).counter) ∧
      (¬ Buffers.Stores args env →
        (s.counters m).counter ≤ 1 → (s.buffers.mems m).unimemPtr.ptr = none) := by
  have hnoLeak : s.allocated = owned s.refers := h.noLeak
  by_cases hstores : Buffers.Stores args env
  · obtain ⟨base, hw⟩ := Buffers.write_stores hadm hm hstores
    have hnew := not_allocated h hadm hstores.1 hw.given
    rw [hnoLeak] at hnew
    have hlive := allocated_stores hw
    have hrefers := refers_stores hadm hstores.1 halive hw
    change (s.handleWrite args env).allocated = owned ((s.handleWrite args env).refCntDown m).refers ↔ _
    rw [refers_refCntDown, hrefers, hlive, hnoLeak, ← refers_eq_none halive]
    change _ = owned (if (s.counters m).counter ≤ 1 then _ else _) ↔ _
    by_cases hlast : (s.counters m).counter ≤ 1
    · rw [if_pos hlast, Function.update_idem]
      exact iff_of_false (owned_lose_ne h.exclusive hnew).symm
        fun hlaw => absurd (hlaw.1 hstores).2 (by omega)
    · rw [if_neg hlast, eq_comm, owned_gain_iff h.exclusive hnew]
      exact ⟨fun hnone => ⟨fun _ => ⟨hnone, by omega⟩, absurd hstores⟩,
        fun hlaw => (hlaw.1 hstores).1⟩
  · have hw := Buffers.write_fails h.stored.sound hadm hm hstores
    have hsame : (s.handleWrite args env).Tidy :=
      h.quiet (h.stored.step hadm) hw.live (refers_congr hw.mems fun _ => rfl) h.fresh
    unfold execute
    rw [hsame.down_iff halive]
    unfold handleWrite
    dsimp only
    rw [hw.mems]
    exact ⟨fun hdown => ⟨fun hs => absurd hs hstores, fun _ => hdown⟩, fun hlaw => hlaw.2 hstores⟩

theorem Tidy.execute (h : s.Tidy) (hadm : s.buffers.Admissible (.write args env))
    (hm : args.mem = some m) (halive : (s.counters m).deleted = false)
    (hleak : (s.execute m args env).NoLeak) : (s.execute m args env).Tidy := by
  refine ⟨h.stored.step hadm, hleak, ?_, fun k hk => ?_⟩
  swap
  · unfold MemObjects.execute
    rw [deleted_refCntDown]
    exact congrArg (· || _) (h.fresh k hk)
  have hbound : Exclusive (s.handleWrite args env).refers := by
    by_cases hstores : Buffers.Stores args env
    · obtain ⟨base, hw⟩ := Buffers.write_stores hadm hm hstores
      have hnew := not_allocated h hadm hstores.1 hw.given
      rw [h.noLeak] at hnew
      rw [refers_stores hadm hstores.1 halive hw]
      exact h.exclusive.gain m hnew
    · have hw := Buffers.write_fails h.stored.sound hadm hm hstores
      have hsame : (s.handleWrite args env).refers = s.refers := refers_congr hw.mems fun _ => rfl
      rw [hsame]
      exact h.exclusive
  unfold MemObjects.execute
  rw [refers_refCntDown]
  split
  · exact hbound.drop m
  · exact hbound

theorem initialWrite_mem {m size hostPtr : ℕ} {useHostPtr allocHostPtr : Bool}
    (h : initialWrite m useHostPtr allocHostPtr size hostPtr = some args) : args.mem = some m := by
  unfold initialWrite at h
  split at h
  · rw [← Option.some.inj h]
  · split at h
    · rw [← Option.some.inj h]
    · cases h

/-- A new object has no buffer, and the client's reference besides that of the command. -/
theorem Tidy.createBuffer (h : s.Tidy) {useHostPtr allocHostPtr : Bool} {size hostPtr : ℕ}
    (hadm : ∀ args ∈ initialWrite s.nextMem useHostPtr allocHostPtr size hostPtr,
      s.buffers.Admissible (.write args env)) :
    (s.createBuffer useHostPtr allocHostPtr size hostPtr env).Tidy := by
  unfold MemObjects.createBuffer
  split
  · exact h.newMem
  have hmade : ({ s.newMem with handles := Function.update s.handles s.nextMem true } :
      MemObjects).Tidy := h.newMem.quiet h.newMem.stored rfl rfl h.newMem.fresh
  dsimp only
  cases hw : initialWrite s.nextMem useHostPtr allocHostPtr size hostPtr with
  | none => exact hmade
  | some args =>
    have hcounter : (({ s.newMem with handles := Function.update s.handles s.nextMem true } :
        MemObjects).refCntUp s.nextMem).counters s.nextMem = ⟨2, false⟩ := by
      unfold MemObjects.refCntUp MemObjects.newMem
      dsimp only
      rw [Function.update_self, Function.update_self]
      unfold RefCounter.refCntUp RefCounter.new
      rw [u32_of_lt (by norm_num)]
    have hptr : (({ s.newMem with handles := Function.update s.handles s.nextMem true } :
        MemObjects).refCntUp s.nextMem).buffers.mems s.nextMem = ⟨⟨none, 0⟩, 0⟩ :=
      Function.update_self ..
    have hup := hmade.refCntUp s.nextMem
    refine hup.execute (hadm args hw) (initialWrite_mem hw) (by rw [hcounter])
      ((hup.execute_iff (hadm args hw) (initialWrite_mem hw) (by rw [hcounter])).mpr ?_)
    rw [hcounter, hptr]
    exact ⟨fun _ => ⟨rfl, by norm_num⟩, fun _ _ => rfl⟩

/-- A step from a tidy state leaks exactly when it is not lawful. -/
theorem Tidy.next_iff {l : MemLabel} {t : MemObjects} (h : s.Tidy) (hn : s.next l = some t) :
    (t.NoLeak ↔ s.Lawful l) ∧ (t.NoLeak → t.Tidy) := by
  cases l with
  | createBuffer useHostPtr allocHostPtr size hostPtr env =>
    obtain ⟨hadm, hn⟩ := Option.ite_none_right_eq_some.mp hn
    cases hn
    have ht := h.createBuffer hadm
    exact ⟨iff_of_true ht.noLeak trivial, fun _ => ht⟩
  | enqueueWrite args queued =>
    simp only [next] at hn
    split at hn
    · obtain ⟨-, hn⟩ := Option.ite_none_right_eq_some.mp hn
      cases hn
      rename_i m _
      have ht : (s.enqueueWrite m args queued).Tidy := by
        have hup := h.refCntUp m
        exact hup.quiet hup.stored rfl rfl hup.fresh
      exact ⟨iff_of_true ht.noLeak trivial, fun _ => ht⟩
    · cases hn
  | runWrite i env =>
    simp only [next] at hn
    split at hn
    · rename_i args hargs
      split at hn
      · rename_i m hm
        obtain ⟨⟨halive, hadm⟩, hn⟩ := Option.ite_none_right_eq_some.mp hn
        cases hn
        have herased : ({ s with pending := s.pending.eraseIdx i } : MemObjects).Tidy :=
          h.quiet h.stored rfl rfl h.fresh
        refine ⟨(herased.execute_iff hadm hm halive).trans ?_,
          fun hleak => herased.execute hadm hm halive hleak⟩
        unfold Lawful
        dsimp only
        rw [hargs]
        simp only [Option.mem_def, Option.some.injEq, forall_eq', hm]
      · cases hn
    · cases hn
  | releaseMemObject m =>
    obtain ⟨⟨-, halive⟩, hn⟩ := Option.ite_none_right_eq_some.mp hn
    cases hn
    have hreleased : ({ s with handles := Function.update s.handles m false } : MemObjects).Tidy :=
      h.quiet h.stored rfl rfl h.fresh
    exact ⟨hreleased.down_iff halive, fun hleak => hreleased.down hleak⟩

end Steps

/-- The driver's blocks are those that living objects refer to, in every state of a run, exactly when
every step is lawful. -/
theorem no_leak_iff {memory user : ℕ → UInt8} {ls : List MemLabel} {t : MemObjects}
    (h : memSystem.run (new memory user) ls = some t) :
    memSystem.Always NoLeak (new memory user) ls ↔
      memSystem.Throughout (fun _ => Lawful) (new memory user) ls := by
  have hnew := tidy_new memory user
  rw [Machine.always_iff, and_iff_right hnew.noLeak]
  refine (Machine.throughout_iff (I := fun _ => Tidy) hnew ?_ ?_ h).1
  · intro _ m l t _ hm hlaw hn
    obtain ⟨hiff, htidy⟩ := hm.next_iff hn
    exact htidy (hiff.mpr hlaw)
  · intro _ m l t hm hn
    rw [← (hm.next_iff hn).1]
    exact ⟨fun hall => hall t hn, fun ht t' ht' => Option.some.inj (hn.symm.trans ht') ▸ ht⟩

/-- A buffer is made with a byte, and `vmalloc` refuses the write that would replace it. -/
theorem no_leak_iff_refused : memSystem.Always NoLeak (new (fun _ => 0) fun _ => 0)
    [.createBuffer true false 1 16 ⟨some (4096, fun _ => 0), 0⟩,
      .enqueueWrite ⟨some 0, 0, 2, 16⟩ true, .runWrite 0 ⟨none, 0⟩] := by
  have hrun : (memSystem.run (new (fun _ => 0) fun _ => 0)
      [.createBuffer true false 1 16 ⟨some (4096, fun _ => 0), 0⟩,
        .enqueueWrite ⟨some 0, 0, 2, 16⟩ true, .runWrite 0 ⟨none, 0⟩]).isSome = true := by
    decide +kernel
  have hheld : (memSystem.run (new (fun _ => 0) fun _ => 0)
      [.createBuffer true false 1 16 ⟨some (4096, fun _ => 0), 0⟩,
        .enqueueWrite ⟨some 0, 0, 2, 16⟩ true]).map
      (fun s => (s.pending, (s.counters 0).counter)) = some ([⟨some 0, 0, 2, 16⟩], 2) := by
    decide +kernel
  obtain ⟨t, ht⟩ := Option.isSome_iff_exists.mp hrun
  refine (no_leak_iff ht).mpr ?_
  rw [show [MemLabel.createBuffer true false 1 16 ⟨some (4096, fun _ => 0), 0⟩,
    .enqueueWrite ⟨some 0, 0, 2, 16⟩ true, .runWrite 0 ⟨none, 0⟩] =
      (([] ++ [.createBuffer true false 1 16 ⟨some (4096, fun _ => 0), 0⟩]) ++
        [.enqueueWrite ⟨some 0, 0, 2, 16⟩ true]) ++ [.runWrite 0 ⟨none, 0⟩] from rfl]
  simp only [Machine.throughout_concat]
  refine ⟨⟨⟨fun before l since heq => absurd heq.symm (by simp), fun _ _ => trivial⟩,
    fun _ _ => trivial⟩, fun m hm args hargs k hk => ?_⟩
  obtain ⟨m', hm', hfields⟩ := Option.map_eq_some_iff.mp hheld
  obtain rfl := Option.some.inj (hm'.symm.trans hm)
  obtain ⟨hpending, hcounter⟩ := Prod.mk.inj hfields
  rw [hpending] at hargs
  cases hargs
  cases hk
  rw [hcounter]
  exact ⟨fun hs => absurd hs.2.1 (by simp), fun _ hle => absurd hle (by norm_num)⟩

/-- The object goes with its last reference, and the driver keeps its buffer. -/
theorem released_leaks : ∃ t, memSystem.run (new (fun _ => 0) fun _ => 0)
    [.createBuffer true false 1 16 ⟨some (4096, fun _ => 0), 0⟩, .releaseMemObject 0] = some t ∧
      t.buffers.live = [(4096, 1)] ∧ (t.counters 0).deleted = true ∧
      ¬ memSystem.Always NoLeak (new (fun _ => 0) fun _ => 0)
        [.createBuffer true false 1 16 ⟨some (4096, fun _ => 0), 0⟩, .releaseMemObject 0] := by
  have hmade : (memSystem.run (new (fun _ => 0) fun _ => 0)
      [.createBuffer true false 1 16 ⟨some (4096, fun _ => 0), 0⟩]).map
      (fun s => ((s.counters 0).counter, (s.buffers.mems 0).unimemPtr.ptr.isSome)) =
        some (1, true) := by
    decide +kernel
  have hend : (memSystem.run (new (fun _ => 0) fun _ => 0)
      [.createBuffer true false 1 16 ⟨some (4096, fun _ => 0), 0⟩, .releaseMemObject 0]).map
      (fun t => (t.buffers.live, (t.counters 0).deleted)) = some ([(4096, 1)], true) := by
    decide +kernel
  obtain ⟨t, ht, hfields⟩ := Option.map_eq_some_iff.mp hend
  obtain ⟨hlive, hdeleted⟩ := Prod.mk.inj hfields
  refine ⟨t, ht, hlive, hdeleted, fun h => ?_⟩
  obtain ⟨s, hs, hfields⟩ := Option.map_eq_some_iff.mp hmade
  obtain ⟨hcounter, hptr⟩ := Prod.mk.inj hfields
  have hrun : memSystem.run (new (fun _ => 0) fun _ => 0)
      ([.createBuffer true false 1 16 ⟨some (4096, fun _ => 0), 0⟩] ++ [.releaseMemObject 0]) =
        some t := ht
  obtain ⟨s', hs', hn⟩ := Machine.run_concat hrun
  obtain rfl := Option.some.inj (hs.symm.trans hs')
  have htidy : s.Tidy := by
    obtain ⟨s₀, hn₀, hs₀⟩ := Option.bind_eq_some_iff.mp hs
    obtain rfl := Option.some.inj hs₀
    have hfirst := (tidy_new (fun _ => 0) fun _ => 0).next_iff (l := .createBuffer true false 1 16
      ⟨some (4096, fun _ => 0), 0⟩) hn₀
    exact hfirst.2 (hfirst.1.mpr trivial)
  have hlast := htidy.next_iff (l := .releaseMemObject 0) hn
  have hlaw : s.Lawful (.releaseMemObject 0) := hlast.1.mp (h _ [] (by simp) t ht)
  have hnone := hlaw hcounter.le
  rw [hnone] at hptr
  cases hptr

end MemObjects

end FpgaMl
