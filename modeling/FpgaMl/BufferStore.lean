import Mathlib.Tactic
import FpgaMl.BufferCommands

/-! # The buffer store

What the write and read commands are for: a map from `cl_mem` objects to byte strings. The system
simulates it as long as every fault of a user copy is seen, which the `unsigned` that keeps the
count of the bytes not copied does not do for a multiple of 2^32. -/
namespace FpgaMl
open ByteMemory MachineInt TransitionSystem
set_option autoImplicit false

/-! ## The map -/

inductive MapLabel
  | store (m : ℕ) (bs : List UInt8)
  | deliver (m : ℕ) (bs : List UInt8)
  | refuse

/-- A map from `cl_mem` objects to byte strings, with its three operations. -/
def bufferMap : Machine (ℕ → Option (List UInt8)) MapLabel where
  start c := c = fun _ => none
  next c
    | .store m bs => some (Function.update c m (some bs))
    | .deliver m bs => if c m = some bs then some c else none
    | .refuse => some c

namespace Buffers

def contents (b : Buffers) (m : ℕ) : Option (List UInt8) :=
  (b.mems m).unimemPtr.ptr.map fun record =>
    bytes b.memory (UnimemAddr.decode record).kernelVirtAddr (b.mems m).size

/-- What the clients see of a step with the code `err` that leads to `t`, as an operation of the
map. -/
def Observed (b : Buffers) (l : BufferLabel) (err : ℤ) (t : Buffers) : MapLabel → Prop
  | .store m bs => ∃ cmd env, l = .write cmd env ∧ err = clSuccess ∧ cmd.mem = some m ∧
      bs.length = cmd.size ∧ (cmd.ptr ≠ 0 → bs = bytes b.user cmd.ptr cmd.size)
  | .deliver m bs => ∃ cmd env, l = .read cmd env ∧ err = clSuccess ∧ cmd.mem = some m ∧
      bs.length = cmd.size ∧ bytes t.user cmd.ptr cmd.size = bs
  | .refuse => ((∃ user, l = .process user) ∨ err ≠ clSuccess) ∧ t.mems = b.mems ∧ t.live = b.live

def Simulated (b : Buffers) (l : BufferLabel) : Prop :=
  ∃ k, b.Observed l (b.handle l).1 (b.handle l).2 k ∧
    bufferMap.next b.contents k = some (b.handle l).2.contents

/-! ## What a command does -/

/-- The blocks that are live keep their bytes, and no reply is left pending. -/
structure Keeps (b t : Buffers) : Prop where
  noReply : t.unimem.driver.returnMsg.type = 0
  memory : ∀ block ∈ b.live, ∀ x, block.1 ≤ x → x < block.1 + block.2 → t.memory x = b.memory x

/-- A write is refused, or stored in a block of its own: the bytes that were copied, and zeros. -/
inductive WriteMove (b : Buffers) (env : KernelEnv) (cmd : WriteArgs) : ℤ → Buffers → Prop
  | refused {err : ℤ} {t : Buffers} (hwhy : cmd.mem = none ∨ cmd.size = 0 ∨ env.vmalloc = none ∨
        u32 env.uncopied ≠ 0) (herr : err ≠ clSuccess) (hmems : t.mems = b.mems)
      (hlive : t.live = b.live) (hkeeps : b.Keeps t) : WriteMove b env cmd err t
  | stored {t : Buffers} (m base : ℕ) (hm : cmd.mem = some m) (hsize : 0 < cmd.size)
      (hv : env.vmalloc.isSome = true) (hroom : 0 < base ∧ base + cmd.size ≤ 2 ^ 64)
      (hmems : t.mems = Function.update b.mems m ⟨UnimemPtr.of ⟨base, 13, cmd.size⟩, cmd.size⟩)
      (hlive : t.live = (base, cmd.size) :: b.live) (hkeeps : b.Keeps t)
      (hcopy : cmd.ptr ≠ 0 → u32 env.uncopied = 0 ∧ ∀ i < cmd.size, t.memory (base + i) =
        if i < cmd.size - env.uncopied then b.user (cmd.ptr + i) else 0) :
      WriteMove b env cmd clSuccess t

def Sound (b : Buffers) : Prop := ∀ block ∈ b.live, 0 < block.1 ∧ 0 < block.2

theorem check_some (m size : ℕ) :
    checkReadWriteParams (some m) size ≠ clSuccess ↔ size = 0 := by
  cases size with
  | zero => exact iff_of_true (show clInvalidValue ≠ clSuccess by decide) rfl
  | succ n =>
    unfold checkReadWriteParams
    rw [if_neg (Option.some_ne_none m), if_neg (show ¬ n + 1 < 1 by omega)]
    simp

/-- The code that the handlers return for bad parameters is 1, whatever the check said. -/
theorem rc_some (m size : ℕ) :
    (if checkReadWriteParams (some m) size ≠ clSuccess then (1 : ℤ) else 0) =
      if size = 0 then 1 else 0 := by
  simp only [check_some]

theorem one_ne_clSuccess : (1 : ℤ) ≠ clSuccess := by decide

theorem failure_ne_clSuccess : clMemObjectAllocationFailure ≠ clSuccess := by decide

theorem invalidValue_ne_clSuccess : clInvalidValue ≠ clSuccess := by decide

theorem invalidMemObject_ne_clSuccess : clInvalidMemObject ≠ clSuccess := by decide

theorem copyFromUser_inside (d : Driver) {target origin n uncopied i : ℕ} (hi : i < n) :
    d.copyFromUser target origin n uncopied (target + i) =
      if i < n - uncopied then d.user (origin + i) else 0 := by
  unfold Driver.copyFromUser copy
  split
  · rename_i h
    rw [if_pos (by omega), Nat.add_sub_cancel_left]
  · rename_i h
    rw [if_pos (by omega), if_neg (by omega)]

theorem copyFromUser_of_apart (d : Driver) {target origin n uncopied x : ℕ} {block : ℕ × ℕ}
    (h : Apart (target, n) block) (hx : block.1 ≤ x) (hx' : x < block.1 + block.2) :
    d.copyFromUser target origin n uncopied x = d.memory x := by
  unfold Driver.copyFromUser
  rw [copy_of_apart _ _ (h.take (Nat.sub_le _ _)) hx hx', copy_of_apart _ _ h hx hx']

theorem filter_live {b : Buffers} (hb : b.Sound) {base size : ℕ} (hsize : 0 < size)
    (h : ∀ other ∈ b.live, Apart (base, size) other) :
    ((base, size) :: b.live).filter (fun block => block.1 != base) = b.live := by
  have hne : ∀ other ∈ b.live, (other.1 != base) = true := by
    intro other ho
    have hapart := h other ho
    have hlen := (hb other ho).2
    unfold Apart at hapart
    exact bne_iff_ne.mpr (by omega)
  rw [List.filter_cons_of_neg (by simp), List.filter_eq_self.mpr hne]

theorem decode_of_room {base size : ℕ} (hroom : base + size ≤ 2 ^ 64) (hsize : 0 < size)
    (hbase : 0 < base) :
    UnimemAddr.decode (UnimemAddr.encode ⟨base, 13, size⟩) = ⟨base, 13, size⟩ :=
  UnimemAddr.decode_encode (by dsimp only; omega) (by norm_num) (by dsimp only; omega)

section Write

variable {b : Buffers} {env : KernelEnv} {cmd : WriteArgs}

theorem writeMove_granted (hb : b.Sound) {m base : ℕ} {fill : ℕ → UInt8} (hm : cmd.mem = some m)
    (hsize : 0 < cmd.size) (hsize64 : cmd.size < 2 ^ 64) (hptr64 : cmd.ptr < 2 ^ 64)
    (hv : env.vmalloc = some (base, fill)) (hbase : 0 < base) (hroom : base + cmd.size ≤ 2 ^ 64)
    (hapart : ∀ other ∈ b.live, Apart (base, cmd.size) other) :
    WriteMove b env cmd (b.handleWriteCommand env cmd).1 (b.handleWriteCommand env cmd).2 := by
  have hdecode := decode_of_room hroom hsize hbase
  have hsome : env.vmalloc.isSome = true := by rw [hv, Option.isSome_some]
  obtain ⟨v, hv, hdriver⟩ := b.unimem.allocateUnimem_granted hsize64 hv
  have hold : ∀ other ∈ b.live, ∀ x, other.1 ≤ x → x < other.1 + other.2 →
      v.driver.memory x = b.memory x := by
    intro other ho x hx hx'
    rw [hdriver]
    exact copy_of_apart _ _ (hapart other ho) hx hx'
  unfold handleWriteCommand
  rw [hm]
  dsimp only
  rw [rc_some, if_neg hsize.ne', if_neg (not_not.mpr rfl), hv]
  dsimp only
  rw [if_neg (by simp [UnimemPtr.of])]
  by_cases hptr : cmd.ptr = 0
  · rw [if_neg (not_not.mpr hptr)]
    refine .stored m base hm hsize hsome ⟨hbase, hroom⟩ rfl ?_ ⟨?_, hold⟩ (absurd hptr)
    · change v.driver.live = _
      rw [hdriver]
      rfl
    · change v.driver.returnMsg.type = _
      rw [hdriver]
  rw [if_pos hptr]
  obtain ⟨w, hw, hcopied⟩ := v.copyToUnimem_of env hdecode hptr64 hsize64
  have holdw : ∀ other ∈ b.live, ∀ x, other.1 ≤ x → x < other.1 + other.2 →
      w.driver.memory x = b.memory x := by
    intro other ho x hx hx'
    rw [hcopied]
    exact (copyFromUser_of_apart v.driver (hapart other ho) hx hx').trans (hold other ho x hx hx')
  rw [hw]
  dsimp only
  by_cases hfault : u32 env.uncopied = 0
  · rw [decide_eq_true hfault, if_neg (by simp)]
    refine .stored m base hm hsize hsome ⟨hbase, hroom⟩ rfl ?_ ⟨?_, holdw⟩ fun _ => ⟨hfault, ?_⟩
    · change w.driver.live = _
      rw [hcopied, hdriver]
      rfl
    · change w.driver.returnMsg.type = _
      rw [hcopied, hdriver]
    · intro i hi
      change w.driver.memory _ = _
      rw [hcopied]
      dsimp only
      rw [copyFromUser_inside v.driver hi, hdriver]
      rfl
  · rw [decide_eq_false hfault, if_pos (by simp)]
    have hreleased := w.releaseUnimem_driver env hdecode
    refine .refused (Or.inr (Or.inr (Or.inr hfault))) failure_ne_clSuccess rfl ?_
      ⟨?_, fun other ho x hx hx' => ?_⟩
    · change (w.releaseUnimem env _).driver.live = _
      rw [hreleased, hcopied, hdriver]
      exact filter_live hb hsize hapart
    · change (w.releaseUnimem env _).driver.returnMsg.type = _
      rw [hreleased, hcopied, hdriver]
    · change (w.releaseUnimem env _).driver.memory x = _
      rw [hreleased]
      exact holdw other ho x hx hx'

theorem writeMove (hb : b.Sound) (hreply : b.unimem.driver.returnMsg.type = 0)
    (h : b.Admissible (.write cmd env)) :
    WriteMove b env cmd (b.handleWriteCommand env cmd).1 (b.handleWriteCommand env cmd).2 := by
  obtain ⟨hsize64, hptr64, -, hblock⟩ := h
  have hsame : b.Keeps b := ⟨hreply, fun _ _ _ _ _ => rfl⟩
  cases hm : cmd.mem with
  | none =>
    unfold handleWriteCommand
    rw [hm]
    exact .refused (Or.inl hm) one_ne_clSuccess rfl rfl hsame
  | some m =>
    by_cases hzero : cmd.size = 0
    · unfold handleWriteCommand
      rw [hm]
      dsimp only
      rw [rc_some, if_pos hzero, if_pos one_ne_zero]
      exact .refused (Or.inr (Or.inl hzero)) one_ne_clSuccess rfl rfl hsame
    have hsize : 0 < cmd.size := Nat.pos_of_ne_zero hzero
    cases hv : env.vmalloc with
    | none =>
      obtain ⟨v, hnull, hdriver⟩ := b.unimem.allocateUnimem_refused hsize64 hv
      unfold handleWriteCommand
      rw [hm]
      dsimp only
      rw [rc_some, if_neg hzero, if_neg (not_not.mpr rfl), hnull]
      dsimp only
      rw [if_pos rfl]
      refine .refused (Or.inr (Or.inr (Or.inl hv))) failure_ne_clSuccess rfl ?_
        ⟨?_, fun block _ x _ _ => ?_⟩
      · change v.driver.live = _
        rw [hdriver]
        rfl
      · change v.driver.returnMsg.type = _
        rw [hdriver]
        exact hreply
      · change v.driver.memory x = _
        rw [hdriver]
        rfl
    | some block =>
      obtain ⟨base, fill⟩ := block
      obtain ⟨hbase, hroom, hapart⟩ := hblock (base, fill) hv
      exact writeMove_granted hb hm hsize hsize64 hptr64 hv hbase hroom hapart

end Write

structure Reads (b t : Buffers) : Prop where
  mems : t.mems = b.mems
  live : t.live = b.live
  memory : t.memory = b.memory
  reply : t.unimem.driver.returnMsg = b.unimem.driver.returnMsg

/-- A read is refused, or copies the block of its object. -/
inductive ReadMove (b : Buffers) (env : KernelEnv) (cmd : ReadArgs) : ℤ → Buffers → Prop
  | refused {err : ℤ} {t : Buffers} (herr : err ≠ clSuccess) (hreads : b.Reads t) :
      ReadMove b env cmd err t
  | delivered {t : Buffers} (m : ℕ) (a : UnimemAddr) (hm : cmd.mem = some m) (hptr : cmd.ptr ≠ 0)
      (hsize : cmd.size = (b.mems m).size) (hrecord : (b.mems m).unimemPtr = UnimemPtr.of a)
      (hdecode : UnimemAddr.decode a.encode = a) (hreads : b.Reads t)
      (hfault : u32 env.uncopied = 0) (huser : t.user =
        copy b.user b.memory cmd.ptr a.kernelVirtAddr (cmd.size - env.uncopied)) :
      ReadMove b env cmd clSuccess t

theorem readMove {b : Buffers} {env : KernelEnv} {cmd : ReadArgs}
    (hrecord : ∀ m, (b.mems m).unimemPtr.ptr = none ∨ ∃ a, UnimemAddr.decode a.encode = a ∧
      (b.mems m).unimemPtr = UnimemPtr.of a)
    (h : b.Admissible (.read cmd env)) :
    ReadMove b env cmd (b.handleReadCommand env cmd).1 (b.handleReadCommand env cmd).2 := by
  obtain ⟨hsize64, hptr64, -⟩ := h
  have hsame : b.Reads b := ⟨rfl, rfl, rfl, rfl⟩
  unfold handleReadCommand
  cases hm : cmd.mem with
  | none => exact .refused one_ne_clSuccess hsame
  | some m =>
    dsimp only
    rw [rc_some]
    by_cases hzero : cmd.size = 0
    · rw [if_pos hzero, if_pos one_ne_zero]
      exact .refused one_ne_clSuccess hsame
    rw [if_neg hzero, if_neg (not_not.mpr rfl)]
    obtain hnull | ⟨a, hdecode, ha⟩ := hrecord m
    · rw [if_pos hnull]
      exact .refused invalidMemObject_ne_clSuccess hsame
    rw [if_neg (by simp [ha, UnimemPtr.of])]
    by_cases hptr : cmd.ptr = 0
    · rw [if_pos hptr]
      exact .refused invalidValue_ne_clSuccess hsame
    rw [if_neg hptr]
    by_cases hsize : cmd.size = (b.mems m).size
    · rw [if_neg (not_not.mpr hsize), ← hsize, ha]
      obtain ⟨v, hv, hdriver⟩ :=
        b.unimem.copyFromUnimem_of env hdecode hptr64 hsize64
      have hlive := congrArg Driver.live hdriver
      have hmemory := congrArg Driver.memory hdriver
      have hreply := congrArg Driver.returnMsg hdriver
      have hreads : b.Reads { b with unimem := v } := ⟨rfl, hlive, hmemory, hreply⟩
      rw [hv]
      dsimp only
      by_cases hfault : u32 env.uncopied = 0
      · rw [decide_eq_true hfault, if_neg (by simp)]
        exact .delivered m a hm hptr hsize ha hdecode hreads hfault (congrArg Driver.user hdriver)
      · rw [decide_eq_false hfault, if_pos (by simp)]
        exact .refused failure_ne_clSuccess hreads
    · rw [if_pos hsize]
      exact .refused invalidValue_ne_clSuccess hsame

/-! ## The invariant -/

/-- No reply is pending, and the record of an object is NULL or that of a live block of the
object's size. -/
structure Stored (b : Buffers) : Prop where
  noReply : b.unimem.driver.returnMsg.type = 0
  sound : b.Sound
  record : ∀ m, (b.mems m).unimemPtr.ptr = none ∨ ∃ base,
    (b.mems m).unimemPtr = UnimemPtr.of ⟨base, 13, (b.mems m).size⟩ ∧
      (base, (b.mems m).size) ∈ b.live ∧ base + (b.mems m).size ≤ 2 ^ 64

theorem Stored.decode {b : Buffers} (h : b.Stored) {base size : ℕ} (hlive : (base, size) ∈ b.live)
    (hroom : base + size ≤ 2 ^ 64) :
    UnimemAddr.decode (UnimemAddr.encode ⟨base, 13, size⟩) = ⟨base, 13, size⟩ :=
  decode_of_room hroom (h.sound _ hlive).2 (h.sound _ hlive).1

theorem contents_of {b : Buffers} {m : ℕ} {a : UnimemAddr}
    (hrecord : (b.mems m).unimemPtr = UnimemPtr.of a) (hdecode : UnimemAddr.decode a.encode = a) :
    b.contents m = some (bytes b.memory a.kernelVirtAddr (b.mems m).size) := by
  unfold contents
  rw [hrecord]
  change some (bytes b.memory (UnimemAddr.decode _).kernelVirtAddr _) = _
  rw [hdecode]

theorem Stored.contents_congr {b t : Buffers} (h : b.Stored) {m : ℕ} (hm : t.mems m = b.mems m)
    (hkeeps : b.Keeps t) : t.contents m = b.contents m := by
  obtain hnull | ⟨base, hrecord, hlive, hroom⟩ := h.record m
  · unfold contents
    rw [hm, hnull]
    rfl
  · have hdecode := h.decode hlive hroom
    rw [contents_of hrecord hdecode, contents_of (hm ▸ hrecord) hdecode, hm]
    exact congrArg some (bytes_congr (hkeeps.memory _ hlive))

theorem Stored.contents_eq {b t : Buffers} (h : b.Stored) (hmems : t.mems = b.mems)
    (hkeeps : b.Keeps t) : t.contents = b.contents := by
  funext m
  exact h.contents_congr (congrFun hmems m) hkeeps

theorem Stored.addresses {b : Buffers} (h : b.Stored) (m : ℕ) :
    (b.mems m).unimemPtr.ptr = none ∨ ∃ a, UnimemAddr.decode a.encode = a ∧
      (b.mems m).unimemPtr = UnimemPtr.of a := by
  obtain hnull | ⟨base, hrecord, hlive, hroom⟩ := h.record m
  · exact Or.inl hnull
  · exact Or.inr ⟨_, h.decode hlive hroom, hrecord⟩

theorem Reads.keeps {b t : Buffers} (h : b.Reads t) (hb : b.Stored) : b.Keeps t := by
  refine ⟨?_, fun _ _ x _ _ => congrFun h.memory x⟩
  rw [h.reply]
  exact hb.noReply

theorem Stored.same {b t : Buffers} (h : b.Stored) (hmems : t.mems = b.mems)
    (hlive : t.live = b.live) (hkeeps : b.Keeps t) : t.Stored := by
  refine ⟨hkeeps.noReply, ?_, ?_⟩
  · unfold Sound
    rw [hlive]
    exact h.sound
  · rw [hmems, hlive]
    exact h.record

theorem Stored.write {b : Buffers} (h : b.Stored) {env : KernelEnv} {cmd : WriteArgs} {err : ℤ}
    {t : Buffers} (hm : WriteMove b env cmd err t) : t.Stored := by
  cases hm with
  | refused hwhy herr hmems hlive hkeeps => exact h.same hmems hlive hkeeps
  | stored m base hm hsize hv hroom hmems hlive hkeeps hcopy =>
    refine ⟨hkeeps.noReply, ?_, ?_⟩
    · unfold Sound
      rw [hlive]
      exact List.forall_mem_cons.mpr ⟨⟨hroom.1, hsize⟩, h.sound⟩
    · intro k
      rw [hmems, hlive]
      by_cases hk : k = m
      · subst hk
        rw [Function.update_self]
        exact Or.inr ⟨base, rfl, List.mem_cons_self, hroom.2⟩
      · rw [Function.update_of_ne hk]
        obtain hnull | ⟨c, hrecord, hc, hroom⟩ := h.record k
        · exact Or.inl hnull
        · exact Or.inr ⟨c, hrecord, List.mem_cons_of_mem _ hc, hroom⟩

theorem Stored.read {b : Buffers} (h : b.Stored) {env : KernelEnv} {cmd : ReadArgs} {err : ℤ}
    {t : Buffers} (hm : ReadMove b env cmd err t) : t.Stored := by
  cases hm with
  | refused herr hreads => exact h.same hreads.mems hreads.live (hreads.keeps h)
  | delivered m a hm hptr hsize hrecord hdecode hreads hfault huser =>
    exact h.same hreads.mems hreads.live (hreads.keeps h)

theorem Stored.step {b : Buffers} (h : b.Stored) {l : BufferLabel} (hl : b.Admissible l) :
    (b.handle l).2.Stored := by
  cases l with
  | write cmd env => exact h.write (writeMove h.sound h.noReply hl)
  | read cmd env => exact h.read (readMove h.addresses hl)
  | process user => exact h.same rfl rfl ⟨h.noReply, fun _ _ _ _ _ => rfl⟩

theorem stored_new (memory user : ℕ → UInt8) : (new memory user).Stored :=
  ⟨rfl, fun _ hb => absurd hb List.not_mem_nil, fun _ => Or.inl rfl⟩

theorem stored {b : Buffers} (h : bufferSystem.Reachable b) : b.Stored := by
  apply h.invariant
  · rintro _ ⟨memory, user, rfl⟩
    exact stored_new memory user
  · intro b l t hb hn
    obtain ⟨hl, heq⟩ := Option.ite_none_right_eq_some.mp hn
    exact Option.some.inj heq ▸ hb.step hl

/-! ## The simulation -/

/-- The condition on a step: a copy of user data that faults is seen to, so the count of the bytes
not copied is no multiple of 2^32. -/
def FaultSeen (b : Buffers) : BufferLabel → Prop
  | .write cmd env => cmd.mem ≠ none → env.vmalloc.isSome = true → cmd.ptr ≠ 0 →
      env.uncopied ≠ 0 → u32 env.uncopied ≠ 0
  | .read cmd env => ∀ m ∈ cmd.mem, (b.mems m).unimemPtr.ptr ≠ none → cmd.ptr ≠ 0 →
      cmd.size = (b.mems m).size → env.uncopied ≠ 0 → u32 env.uncopied ≠ 0
  | .process _ => True

instance (b : Buffers) (l : BufferLabel) : Decidable (b.FaultSeen l) :=
  match l with
  | .write cmd _ => inferInstanceAs (Decidable (cmd.mem ≠ none → _ → _ → _ → _))
  | .read cmd _ => inferInstanceAs (Decidable (∀ m ∈ cmd.mem, (b.mems m).unimemPtr.ptr ≠ none →
      cmd.ptr ≠ 0 → cmd.size = (b.mems m).size → _ → _))
  | .process _ => inferInstanceAs (Decidable True)

theorem Stored.contents_written {t : Buffers} (h : t.Stored) {m base size : ℕ}
    {live : List (ℕ × ℕ)} (hmem : t.mems m = ⟨UnimemPtr.of ⟨base, 13, size⟩, size⟩)
    (hlive : t.live = (base, size) :: live) (hroom : base + size ≤ 2 ^ 64) :
    t.contents m = some (bytes t.memory base size) := by
  have hdecode := h.decode (hlive ▸ List.mem_cons_self) hroom
  rw [contents_of (by rw [hmem]) hdecode, hmem]

theorem Stored.write_observed {b t : Buffers} (h : b.Stored) {env : KernelEnv} {cmd : WriteArgs}
    {err : ℤ} (hm : WriteMove b env cmd err t) (hseen : b.FaultSeen (.write cmd env)) :
    ∃ k, b.Observed (.write cmd env) err t k ∧ bufferMap.next b.contents k = some t.contents := by
  have hstored := h.write hm
  cases hm with
  | refused hwhy herr hmems hlive hkeeps =>
    refine ⟨.refuse, ⟨Or.inr herr, hmems, hlive⟩, ?_⟩
    rw [h.contents_eq hmems hkeeps]
    rfl
  | stored m base hm hsize hv hroom hmems hlive hkeeps hcopy =>
    have hmem : t.mems m = ⟨UnimemPtr.of ⟨base, 13, cmd.size⟩, cmd.size⟩ := by
      rw [hmems, Function.update_self]
    have hnew := hstored.contents_written hmem hlive hroom.2
    refine ⟨.store m (bytes t.memory base cmd.size),
      ⟨cmd, env, rfl, rfl, hm, length_bytes _ _ _, fun hptr => ?_⟩, ?_⟩
    · obtain ⟨hfault, hbytes⟩ := hcopy hptr
      have hzero : env.uncopied = 0 := by
        by_contra hne
        exact hseen (by rw [hm]; exact Option.some_ne_none m) hv hptr hne hfault
      apply List.map_congr_left
      intro i hi
      rw [hbytes i (List.mem_range.mp hi), if_pos (by rw [hzero]; exact List.mem_range.mp hi)]
    · change some (Function.update b.contents m _) = _
      congr 1
      funext k
      by_cases hk : k = m
      · subst hk
        rw [Function.update_self, hnew]
      · rw [Function.update_of_ne hk]
        exact (h.contents_congr (by rw [hmems, Function.update_of_ne hk]) hkeeps).symm

theorem Stored.read_observed {b t : Buffers} (h : b.Stored) {env : KernelEnv} {cmd : ReadArgs}
    {err : ℤ} (hm : ReadMove b env cmd err t) (hseen : b.FaultSeen (.read cmd env)) :
    ∃ k, b.Observed (.read cmd env) err t k ∧ bufferMap.next b.contents k = some t.contents := by
  cases hm with
  | refused herr hreads =>
    refine ⟨.refuse, ⟨Or.inr herr, hreads.mems, hreads.live⟩, ?_⟩
    rw [h.contents_eq hreads.mems (hreads.keeps h)]
    rfl
  | delivered m a hm hptr hsize hrecord hdecode hreads hfault huser =>
    have hzero : env.uncopied = 0 := by
      by_contra hne
      exact hseen m hm (by rw [hrecord]; exact Option.some_ne_none _) hptr hsize hne hfault
    have hcontents := contents_of hrecord hdecode
    rw [← hsize] at hcontents
    refine ⟨.deliver m (bytes b.memory a.kernelVirtAddr cmd.size),
      ⟨cmd, env, rfl, rfl, hm, length_bytes _ _ _, ?_⟩, ?_⟩
    · rw [huser, hzero]
      exact bytes_copy _ _ _ _ _
    · rw [h.contents_eq hreads.mems (hreads.keeps h)]
      exact if_pos hcontents

theorem Stored.simulated {b : Buffers} (h : b.Stored) {l : BufferLabel} (hl : b.Admissible l)
    (hseen : b.FaultSeen l) : b.Simulated l := by
  cases l with
  | write cmd env => exact h.write_observed (writeMove h.sound h.noReply hl) hseen
  | read cmd env => exact h.read_observed (readMove h.addresses hl) hseen
  | process user =>
    refine ⟨.refuse, ⟨Or.inl ⟨user, rfl⟩, rfl, rfl⟩, ?_⟩
    exact congrArg some (h.contents_eq rfl ⟨h.noReply, fun _ _ _ _ _ => rfl⟩).symm

/-- The contents are those of a run of the map, and the next step is a step of the map. -/
structure StoreLaw (b : Buffers) : Prop where
  reached : bufferMap.Reachable b.contents
  simulated : ∀ l, b.Admissible l → b.FaultSeen l → b.Simulated l

/-- The buffer store refines the map, in the runs in which every fault is seen. -/
theorem store_refines {b : Buffers} (h : bufferSystem.ReachableWhere FaultSeen b) : StoreLaw b := by
  have hrun : ∃ c, bufferMap.Reachable c ∧ b.Stored ∧ c = b.contents := by
    refine h.simulates (R := fun b c => b.Stored ∧ c = b.contents) ?_ ?_
    · rintro _ ⟨memory, user, rfl⟩
      exact ⟨_, rfl, stored_new memory user, rfl⟩
    · rintro b l t _ ⟨hb, rfl⟩ hseen hn
      obtain ⟨hl, heq⟩ := Option.ite_none_right_eq_some.mp hn
      obtain rfl := Option.some.inj heq
      obtain ⟨k, -, hk⟩ := hb.simulated hl hseen
      exact Or.inr ⟨k, _, trivial, hk, hb.step hl, rfl⟩
  obtain ⟨_, hreached, hb, rfl⟩ := hrun
  exact ⟨hreached, fun l hl hseen => hb.simulated hl hseen⟩

theorem store_refines_two : ∃ b : Buffers, StoreLaw b ∧ b.contents 0 = some [7, 7, 7] ∧
    b.contents 1 = some [9, 9] := by
  have hrun : (bufferSystem.runWhere (fun b l => decide (b.FaultSeen l))
      (new (fun _ => 0) fun _ => 7)
      [.write ⟨some 0, 0, 3, 16⟩ ⟨some (64, fun _ => 9), 0⟩,
        .write ⟨some 1, 0, 2, 0⟩ ⟨some (128, fun _ => 9), 0⟩,
        .write ⟨some 1, 0, 3, 16⟩ ⟨some (256, fun _ => 9), 1⟩,
        .read ⟨some 0, 0, 3, 32⟩ ⟨none, 0⟩]).map
        (fun b => (b.contents 0, b.contents 1)) = some (some [7, 7, 7], some [9, 9]) := by
    decide +kernel
  obtain ⟨b, hb, hcontents⟩ := Machine.exists_reachableWhere hrun ⟨_, _, rfl⟩
  obtain ⟨hzero, hone⟩ := Prod.mk.inj hcontents
  exact ⟨b, store_refines hb, hzero, hone⟩

/-- A write none of whose bytes could be copied, of a size that is a multiple of 2^32, succeeds
and stores zeros. -/
theorem Stored.write_unseen {b t : Buffers} (hb : b.Stored) {env : KernelEnv} {cmd : WriteArgs}
    {err : ℤ} (hm : WriteMove b env cmd err t) {m : ℕ} (hmem : cmd.mem = some m)
    (hptr : cmd.ptr ≠ 0) (hsize : 0 < cmd.size) (hv : env.vmalloc ≠ none)
    (hall : env.uncopied = cmd.size) (hfault : u32 cmd.size = 0) :
    err = clSuccess ∧ t.contents m = some (bytes (fun _ => 0) 0 cmd.size) := by
  have hstored := hb.write hm
  cases hm with
  | refused hwhy herr hmems hlive hkeeps =>
    obtain h | h | h | h := hwhy
    · exact absurd (hmem.symm.trans h) (Option.some_ne_none m)
    · omega
    · exact absurd h hv
    · exact absurd (hall ▸ hfault) h
  | stored k base hk hsize hv hroom hmems hlive hkeeps hcopy =>
    obtain rfl : m = k := Option.some.inj (hmem.symm.trans hk)
    have hnew := hstored.contents_written (by rw [hmems, Function.update_self]) hlive hroom.2
    refine ⟨rfl, hnew.trans (congrArg some (List.map_congr_left fun i hi => ?_))⟩
    rw [(hcopy hptr).2 i (List.mem_range.mp hi), hall, Nat.sub_self, if_neg (Nat.not_lt_zero i)]

/-- A write of 2^32 bytes none of which can be copied is reported as a success. -/
theorem store_loses_write : ∃ b l, bufferSystem.Reachable b ∧ b.Admissible l ∧
    ¬ b.Simulated l := by
  have hb : bufferSystem.Reachable (new (fun _ => 0) fun _ => 1) := .start ⟨_, _, rfl⟩
  have hl : (new (fun _ => 0) fun _ => 1).Admissible
      (.write ⟨some 0, 0, 2 ^ 32, 16⟩ ⟨some (64, fun _ => 9), 2 ^ 32⟩) := by
    decide +kernel
  obtain ⟨hdone, hzeros⟩ := (stored hb).write_unseen
    (writeMove (stored hb).sound (stored hb).noReply hl) rfl (by norm_num) (by norm_num)
    (Option.some_ne_none _) rfl (by decide +kernel)
  refine ⟨_, _, hb, hl, ?_⟩
  rintro ⟨k, hobserved, hnext⟩
  cases k with
  | refuse =>
    obtain ⟨⟨user, hprocess⟩ | hfailed, -⟩ := hobserved
    · cases hprocess
    · exact hfailed hdone
  | deliver m bs =>
    obtain ⟨cmd, env, hread, -⟩ := hobserved
    cases hread
  | store m bs =>
    obtain ⟨cmd, env, hwrite, -, hm, -, hbytes⟩ := hobserved
    obtain ⟨rfl, rfl⟩ := BufferLabel.write.inj hwrite
    obtain rfl : 0 = m := Option.some.inj hm
    have hstored := (congrFun (Option.some.inj hnext) 0).trans hzeros
    rw [Function.update_self, hbytes (by norm_num)] at hstored
    have hfirst := bytes_inj (Option.some.inj hstored) (show 0 < 2 ^ 32 by norm_num)
    exact absurd hfirst (by decide)

end Buffers

end FpgaMl
