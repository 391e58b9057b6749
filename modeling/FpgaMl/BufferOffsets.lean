import Mathlib.Tactic
import FpgaMl.BufferStore

/-! # Offsets

What partial writes and reads of a `cl_mem` should do, byte by byte. The handlers never look at
`m_offset`: a write puts a new buffer of its own size in the place of the old one, and a read is
only answered for the whole buffer. -/
namespace FpgaMl
open ByteMemory MachineInt TransitionSystem
set_option autoImplicit false

namespace Buffers

/-- The byte at a position of the buffer of a `cl_mem`, if there is one. -/
def byteAt (b : Buffers) (m p : ℕ) : Option UInt8 := (b.contents m).bind fun bs => bs[p]?

/-- The buffers with what the successful writes have put at each position of each `cl_mem` last;
a write from NULL puts nothing definite there. -/
structure WithLog where
  buffers : Buffers
  written : ℕ → ℕ → Option UInt8

namespace WithLog

def writtenBy (s : WithLog) (m : ℕ) (cmd : WriteArgs) : ℕ → Option UInt8 := fun p =>
  if cmd.offset ≤ p ∧ p < cmd.offset + cmd.size then
    if cmd.ptr = 0 then none else some (s.buffers.user (cmd.ptr + (p - cmd.offset)))
  else s.written m p

def log (s : WithLog) : BufferLabel → ℕ → ℕ → Option UInt8
  | .write cmd env =>
    match cmd.mem with
    | none => s.written
    | some m =>
      if (s.buffers.handleWriteCommand env cmd).1 = clSuccess then
        Function.update s.written m (s.writtenBy m cmd)
      else s.written
  | .read _ _ => s.written
  | .process _ => s.written

/-- A write that reports a success puts the bytes of the process at `[offset, offset + size)`, and
leaves the other bytes of the buffer and the other buffers alone. -/
structure WriteHonoured (b : Buffers) (cmd : WriteArgs) (m : ℕ) (t : Buffers) : Prop where
  inside : cmd.ptr ≠ 0 → ∀ i < cmd.size,
    t.byteAt m (cmd.offset + i) = some (b.user (cmd.ptr + i))
  outside : ∀ p, p < cmd.offset ∨ cmd.offset + cmd.size ≤ p → t.byteAt m p = b.byteAt m p
  others : ∀ k, k ≠ m → t.contents k = b.contents k

/-- A read that reports a success hands out the bytes at `[offset, offset + size)`, which are those
written there last. -/
structure ReadHonoured (s : WithLog) (cmd : ReadArgs) (m : ℕ) (t : Buffers) : Prop where
  delivered : ∀ i < cmd.size, s.buffers.byteAt m (cmd.offset + i) = some (t.user (cmd.ptr + i))
  latest : ∀ i < cmd.size, ∀ x, s.written m (cmd.offset + i) = some x → t.user (cmd.ptr + i) = x
  contents : t.contents = s.buffers.contents

def Honoured (s : WithLog) : BufferLabel → Prop
  | .write cmd env => (s.buffers.handle (.write cmd env)).1 = clSuccess → ∀ m, cmd.mem = some m →
      WriteHonoured s.buffers cmd m (s.buffers.handle (.write cmd env)).2
  | .read cmd env => (s.buffers.handle (.read cmd env)).1 = clSuccess → ∀ m, cmd.mem = some m →
      ReadHonoured s cmd m (s.buffers.handle (.read cmd env)).2
  | .process _ => True

/-- The condition on a step. A write or a read that passes the checks of its handler starts at 0; a
write is at least as long as the buffer it replaces; and a fault of the copy is seen. -/
def FromStart (s : WithLog) : BufferLabel → Prop
  | .write cmd env => ∀ m ∈ cmd.mem, 0 < cmd.size → env.vmalloc.isSome = true →
      (cmd.ptr ≠ 0 → u32 env.uncopied = 0) →
        cmd.offset = 0 ∧ (s.buffers.mems m).size ≤ cmd.size ∧ (cmd.ptr ≠ 0 → env.uncopied = 0)
  | .read cmd env => ∀ m ∈ cmd.mem, (s.buffers.mems m).unimemPtr.ptr ≠ none → cmd.ptr ≠ 0 →
      cmd.size = (s.buffers.mems m).size → u32 env.uncopied = 0 →
        cmd.offset = 0 ∧ env.uncopied = 0
  | .process _ => True

instance (s : WithLog) (l : BufferLabel) : Decidable (s.FromStart l) :=
  match l with
  | .write cmd _ => inferInstanceAs (Decidable (∀ m ∈ cmd.mem, _ → _ → (_ → _) →
      _ ∧ (s.buffers.mems m).size ≤ cmd.size ∧ (_ → _)))
  | .read cmd _ => inferInstanceAs (Decidable (∀ m ∈ cmd.mem,
      (s.buffers.mems m).unimemPtr.ptr ≠ none → _ → cmd.size = (s.buffers.mems m).size → _ → _ ∧ _))
  | .process _ => inferInstanceAs (Decidable True)

end WithLog

def loggedSystem : Machine WithLog BufferLabel where
  start s := bufferSystem.start s.buffers ∧ s.written = fun _ _ => none
  next s l := (bufferSystem.next s.buffers l).map fun t => ⟨t, s.log l⟩

/-! ## Single bytes -/

theorem byteAt_lt {b : Buffers} {m p : ℕ} {x : UInt8} (h : b.byteAt m p = some x) :
    p < (b.mems m).size := by
  obtain ⟨bs, hbs, hp⟩ := Option.bind_eq_some_iff.mp h
  obtain ⟨record, -, rfl⟩ := Option.map_eq_some_iff.mp hbs
  rw [← length_bytes b.memory (UnimemAddr.decode record).kernelVirtAddr (b.mems m).size]
  exact (List.getElem?_eq_some_iff.mp hp).1

theorem byteAt_none {b : Buffers} {m p : ℕ} (h : (b.mems m).size ≤ p) : b.byteAt m p = none := by
  cases hb : b.byteAt m p with
  | none => rfl
  | some x => exact absurd (byteAt_lt hb) (not_lt.mpr h)

theorem byteAt_block {b : Buffers} {m base size p : ℕ}
    (h : b.contents m = some (bytes b.memory base size)) (hp : p < size) :
    b.byteAt m p = some (b.memory (base + p)) := by
  unfold byteAt
  rw [h, Option.bind_some, getElem?_bytes _ _ hp]

theorem byteAt_congr {b t : Buffers} {m : ℕ} (h : t.contents m = b.contents m) (p : ℕ) :
    t.byteAt m p = b.byteAt m p := by
  unfold byteAt
  rw [h]

/-! ## The steps -/

theorem WriteMove.mem_of_success {b t : Buffers} {env : KernelEnv} {cmd : WriteArgs} {err : ℤ}
    (h : WriteMove b env cmd err t) (herr : err = clSuccess) : ∃ m, cmd.mem = some m := by
  cases h with
  | refused hwhy herr' => exact absurd herr herr'
  | stored m base hm => exact ⟨m, hm⟩

theorem WriteMove.contents_of_failure {b t : Buffers} {env : KernelEnv} {cmd : WriteArgs} {err : ℤ}
    (h : WriteMove b env cmd err t) (hb : b.Stored) (herr : err ≠ clSuccess) :
    t.contents = b.contents := by
  cases h with
  | refused hwhy herr' hmems hlive hkeeps => exact hb.contents_eq hmems hkeeps
  | stored => exact absurd rfl herr

theorem ReadMove.contents_eq {b t : Buffers} {env : KernelEnv} {cmd : ReadArgs} {err : ℤ}
    (h : ReadMove b env cmd err t) (hb : b.Stored) : t.contents = b.contents := by
  cases h with
  | refused herr hreads => exact hb.contents_eq hreads.mems (hreads.keeps hb)
  | delivered m a hm hptr hsize hrecord hdecode hreads =>
    exact hb.contents_eq hreads.mems (hreads.keeps hb)

namespace WithLog

/-- What was written last at a position is there. -/
structure Recorded (s : WithLog) : Prop where
  stored : s.buffers.Stored
  bytes : ∀ m p x, s.written m p = some x → s.buffers.byteAt m p = some x

section Write

variable {s : WithLog} {env : KernelEnv} {cmd : WriteArgs} {err : ℤ} {t : Buffers} {m : ℕ}

/-- A write that is stored has passed the checks. -/
theorem honoured_write (h : s.buffers.Stored) (hmove : WriteMove s.buffers env cmd err t)
    (hcond : s.FromStart (.write cmd env)) (hm : cmd.mem = some m) (herr : err = clSuccess) :
    cmd.offset = 0 ∧ WriteHonoured s.buffers cmd m t := by
  have hstored := h.write hmove
  cases hmove with
  | refused hwhy herr' hmems hlive hkeeps => exact absurd herr herr'
  | stored k base hk hsize hv hroom hmems hlive hkeeps hcopy =>
    obtain rfl : m = k := Option.some.inj (hm.symm.trans hk)
    obtain ⟨hoffset, hlong, hseen⟩ := hcond m hm hsize hv fun hptr => (hcopy hptr).1
    have hmem : t.mems m = ⟨UnimemPtr.of ⟨base, 13, cmd.size⟩, cmd.size⟩ := by
      rw [hmems, Function.update_self]
    have hnew := hstored.contents_written hmem hlive hroom.2
    refine ⟨hoffset, fun hptr i hi => ?_, fun p hp => ?_, fun k hk => ?_⟩
    · have hbyte := (hcopy hptr).2 i hi
      rw [hseen hptr, Nat.sub_zero, if_pos hi] at hbyte
      rw [hoffset, Nat.zero_add, byteAt_block hnew hi, hbyte]
    · rw [hoffset] at hp
      have hbeyond : cmd.size ≤ p := by omega
      rw [byteAt_none (by rw [hmem]; exact hbeyond), byteAt_none (hlong.trans hbeyond)]
    · exact h.contents_congr (by rw [hmems, Function.update_of_ne hk]) hkeeps

theorem log_success (hm : cmd.mem = some m)
    (herr : (s.buffers.handleWriteCommand env cmd).1 = clSuccess) :
    s.log (.write cmd env) = Function.update s.written m (s.writtenBy m cmd) := by
  simp only [log, hm, herr, if_true]

theorem log_failure (herr : (s.buffers.handleWriteCommand env cmd).1 ≠ clSuccess) :
    s.log (.write cmd env) = s.written := by
  simp only [log]
  cases cmd.mem with
  | none => rfl
  | some m => exact if_neg herr

theorem writtenBy_inside {p : ℕ} (hoffset : cmd.offset = 0) (hp : p < cmd.size) {x : UInt8}
    (h : s.writtenBy m cmd p = some x) : cmd.ptr ≠ 0 ∧ s.buffers.user (cmd.ptr + p) = x := by
  unfold writtenBy at h
  rw [hoffset, if_pos (by omega)] at h
  obtain ⟨hptr, h⟩ := Option.ite_none_left_eq_some.mp h
  exact ⟨hptr, Option.some.inj h⟩

theorem writtenBy_outside {p : ℕ} (hoffset : cmd.offset = 0) (hp : cmd.size ≤ p) :
    s.writtenBy m cmd p = s.written m p := by
  unfold writtenBy
  rw [hoffset, if_neg (by omega)]

theorem recorded_write (h : s.Recorded) (hl : s.buffers.Admissible (.write cmd env))
    (hcond : s.FromStart (.write cmd env)) :
    Recorded ⟨(s.buffers.handleWriteCommand env cmd).2, s.log (.write cmd env)⟩ := by
  have hmove := writeMove h.stored.sound h.stored.noReply hl
  refine ⟨h.stored.write hmove, ?_⟩
  by_cases herr : (s.buffers.handleWriteCommand env cmd).1 = clSuccess
  · obtain ⟨m, hm⟩ := hmove.mem_of_success herr
    obtain ⟨hoffset, hinside, houtside, hothers⟩ := honoured_write h.stored hmove hcond hm herr
    rw [log_success hm herr]
    intro k p x hx
    dsimp only at hx ⊢
    by_cases hk : k = m
    · subst hk
      rw [Function.update_self] at hx
      obtain hp | hp := Nat.lt_or_ge p cmd.size
      · obtain ⟨hptr, rfl⟩ := writtenBy_inside hoffset hp hx
        have hbyte := hinside hptr p hp
        rwa [hoffset, Nat.zero_add] at hbyte
      · rw [writtenBy_outside hoffset hp] at hx
        rw [houtside p (Or.inr (by omega))]
        exact h.bytes k p x hx
    · rw [Function.update_of_ne hk] at hx
      rw [byteAt_congr (hothers k hk)]
      exact h.bytes k p x hx
  · rw [log_failure herr]
    intro k p x hx
    dsimp only at hx ⊢
    rw [byteAt_congr (congrFun (hmove.contents_of_failure h.stored herr) k)]
    exact h.bytes k p x hx

end Write

theorem honoured_read {s : WithLog} {env : KernelEnv} {cmd : ReadArgs} {err : ℤ} {t : Buffers}
    {m : ℕ} (h : s.Recorded) (hmove : ReadMove s.buffers env cmd err t)
    (hcond : s.FromStart (.read cmd env)) (hm : cmd.mem = some m) (herr : err = clSuccess) :
    ReadHonoured s cmd m t := by
  have hsame := hmove.contents_eq h.stored
  cases hmove with
  | refused herr' => exact absurd herr herr'
  | delivered k a hk hptr hsize hrecord hdecode hreads hfault huser =>
    obtain rfl : m = k := Option.some.inj (hm.symm.trans hk)
    obtain ⟨hoffset, hseen⟩ := hcond m hm (by rw [hrecord]; exact Option.some_ne_none _) hptr hsize
      hfault
    have hcontents := contents_of hrecord hdecode
    have hbyte : ∀ i < cmd.size, s.buffers.byteAt m (cmd.offset + i) = some (t.user (cmd.ptr + i)) := by
      intro i hi
      rw [hoffset, Nat.zero_add, byteAt_block hcontents (hsize ▸ hi), huser, hseen, Nat.sub_zero]
      unfold copy
      rw [if_pos (by omega), Nat.add_sub_cancel_left]
    refine ⟨hbyte, fun i hi x hx => ?_, hsame⟩
    have hlast := h.bytes m _ x hx
    rw [hbyte i hi] at hlast
    exact Option.some.inj hlast

theorem Recorded.honoured {s : WithLog} (h : s.Recorded) {l : BufferLabel}
    (hl : s.buffers.Admissible l) (hcond : s.FromStart l) : s.Honoured l := by
  cases l with
  | write cmd env =>
    exact fun herr m hm => (honoured_write h.stored
      (writeMove h.stored.sound h.stored.noReply hl) hcond hm herr).2
  | read cmd env =>
    exact fun herr m hm => honoured_read h (readMove h.stored.addresses hl) hcond hm herr
  | process user => trivial

theorem Recorded.step {s : WithLog} (h : s.Recorded) {l : BufferLabel}
    (hl : s.buffers.Admissible l) (hcond : s.FromStart l) :
    Recorded ⟨(s.buffers.handle l).2, s.log l⟩ := by
  cases l with
  | write cmd env => exact recorded_write h hl hcond
  | read cmd env =>
    have hmove := readMove h.stored.addresses hl
    refine ⟨h.stored.read hmove, fun k p x hx => ?_⟩
    dsimp only
    rw [show s.buffers.handle (.read cmd env) = s.buffers.handleReadCommand env cmd from rfl,
      byteAt_congr (congrFun (hmove.contents_eq h.stored) k)]
    exact h.bytes k p x hx
  | process user => exact ⟨h.stored.step hl, h.bytes⟩

/-- In the runs whose steps meet the condition, a command that reports a success touches exactly
the bytes of its interval. -/
theorem offsets_honoured {s : WithLog} (h : loggedSystem.ReachableWhere FromStart s)
    {l : BufferLabel} (hl : s.buffers.Admissible l) (hcond : s.FromStart l) : s.Honoured l := by
  have hrecorded : s.Recorded := by
    apply h.invariant
    · rintro s ⟨⟨memory, user, hnew⟩, hwritten⟩
      refine ⟨hnew ▸ stored_new memory user, fun m p x hx => ?_⟩
      rw [hwritten] at hx
      cases hx
    · intro s l t hs hl hn
      obtain ⟨b, hb, rfl⟩ := Option.map_eq_some_iff.mp hn
      obtain ⟨hadm, hb⟩ := Option.ite_none_right_eq_some.mp hb
      obtain rfl := Option.some.inj hb
      exact hs.step hadm hl
  exact hrecorded.honoured hl hcond

/-- A buffer of two bytes is replaced by one of three, and read whole. -/
theorem offsets_honoured_whole : ∃ (s : WithLog) (cmd : ReadArgs) (env : KernelEnv),
    (s.buffers.handle (.read cmd env)).1 = clSuccess ∧ cmd.mem = some 0 ∧ cmd.size = 3 ∧
      s.Honoured (.read cmd env) := by
  have hrun : (loggedSystem.runWhere (fun s l => decide (s.FromStart l))
      ⟨new (fun _ => 0) fun _ => 7, fun _ _ => none⟩
      [.write ⟨some 0, 0, 2, 16⟩ ⟨some (64, fun _ => 9), 0⟩,
        .write ⟨some 0, 0, 3, 16⟩ ⟨some (128, fun _ => 9), 0⟩]).map (fun s =>
          ((s.buffers.handle (.read ⟨some 0, 0, 3, 32⟩ ⟨none, 0⟩)).1,
            decide (s.FromStart (.read ⟨some 0, 0, 3, 32⟩ ⟨none, 0⟩)))) = some (0, true) := by
    decide +kernel
  obtain ⟨s, hs, hview⟩ := Machine.exists_reachableWhere hrun ⟨⟨_, _, rfl⟩, rfl⟩
  obtain ⟨hdone, hcond⟩ := Prod.mk.inj hview
  exact ⟨s, _, _, hdone, rfl, rfl, offsets_honoured hs
    ⟨by norm_num, by norm_num, Nat.zero_le _⟩ (of_decide_eq_true hcond)⟩

/-- After a write of three bytes at 0, a write of one byte at 1 succeeds, and leaves a buffer that
is one byte long. -/
theorem partial_write_replaces : ∃ (s : WithLog) (cmd : WriteArgs) (env : KernelEnv),
    loggedSystem.Reachable s ∧ s.buffers.Admissible (.write cmd env) ∧ cmd.offset = 1 ∧
      cmd.size = 1 ∧ ¬ s.Honoured (.write cmd env) := by
  have hrun : (loggedSystem.run ⟨new (fun _ => 0) fun _ => 7, fun _ _ => none⟩
      [.write ⟨some 0, 0, 3, 16⟩ ⟨some (64, fun _ => 9), 0⟩]).map (fun s =>
        (decide (s.buffers.Admissible (.write ⟨some 0, 1, 1, 16⟩ ⟨some (128, fun _ => 9), 0⟩)),
          (s.buffers.handle (.write ⟨some 0, 1, 1, 16⟩ ⟨some (128, fun _ => 9), 0⟩)).1,
          s.buffers.byteAt 0 2,
          (s.buffers.handle (.write ⟨some 0, 1, 1, 16⟩ ⟨some (128, fun _ => 9), 0⟩)).2.byteAt 0 2)) =
        some (true, 0, some 7, none) := by
    decide +kernel
  obtain ⟨s, hs, hview⟩ := Machine.exists_reachable hrun ⟨⟨_, _, rfl⟩, rfl⟩
  simp only [Prod.mk.injEq] at hview
  obtain ⟨hadm, hdone, hbefore, hafter⟩ := hview
  refine ⟨s, _, _, hs, of_decide_eq_true hadm, rfl, rfl, fun hhonoured => ?_⟩
  have hsame := (hhonoured hdone 0 rfl).outside 2 (Or.inr le_rfl)
  rw [hbefore, hafter] at hsame
  cases hsame

end WithLog

end Buffers

end FpgaMl
