import Mathlib.Tactic
import FpgaMl.UnimemCalls

/-! # Sessions of the buffer driver

The whole module with its flag for the one user at a time: `dev_open`, messages of type C,
`dev_read` and `dev_release` in any order. The slot of the pending reply outlives a session, and a
refused allocation writes into it. -/
namespace FpgaMl
open ByteMemory MachineInt TransitionSystem
set_option autoImplicit false

/-! ## The device -/

/-- The module: `s_dev_opened` and the rest. -/
structure Device where
  devOpened : ℕ
  driver : Driver

namespace Device

/-- What `init_func` leaves. -/
def new (memory user : ℕ → UInt8) : Device := ⟨0, .new memory user⟩

def devOpen (d : Device) : ℤ × Device :=
  if 0 < d.devOpened then (-1, d) else (0, { d with devOpened := 1 })

def devRelease (d : Device) : ℤ × Device := (0, { d with devOpened := 0 })

end Device

inductive DeviceCall
  | devOpen
  | devWrite (env : KernelEnv) (buf : List UInt8)
  | devRead (len : ℕ)
  | devRelease

/-- The block that a call allocates. -/
def DeviceCall.allocates : DeviceCall → Option (ℕ × ℕ)
  | .devOpen => none
  | .devWrite env buf => (DriverLabel.write env buf).allocates
  | .devRead _ => none
  | .devRelease => none

namespace Device

def step (d : Device) : DeviceCall → Device
  | .devOpen => d.devOpen.2
  | .devWrite env buf => { d with driver := (d.driver.devWrite env buf).2 }
  | .devRead len => { d with driver := (d.driver.devRead len).2.2 }
  | .devRelease => d.devRelease.2

/-- A file is written, read and released while it is open, the messages are of type C, and
`vmalloc` returns NULL or a block of its own. -/
def Admissible (d : Device) : DeviceCall → Prop
  | .devOpen => True
  | .devWrite env buf => 0 < d.devOpened ∧ buf.head? = some 'C'.toUInt8 ∧
      (DriverLabel.write env buf).Granted d.driver ∧
      ∀ given ∈ env.vmalloc, given.1 < 2 ^ 64 ∧ ∀ block ∈ d.driver.live, block.1 ≠ given.1
  | .devRead _ => 0 < d.devOpened
  | .devRelease => 0 < d.devOpened

instance (d : Device) (l : DeviceCall) : Decidable (d.Admissible l) :=
  match l with
  | .devOpen => inferInstanceAs (Decidable True)
  | .devWrite env buf => inferInstanceAs (Decidable (0 < d.devOpened ∧
      buf.head? = some 'C'.toUInt8 ∧ (DriverLabel.write env buf).Granted d.driver ∧
      ∀ given ∈ env.vmalloc, given.1 < 2 ^ 64 ∧ ∀ block ∈ d.driver.live, block.1 ≠ given.1))
  | .devRead _ => inferInstanceAs (Decidable (0 < d.devOpened))
  | .devRelease => inferInstanceAs (Decidable (0 < d.devOpened))

end Device

def deviceSystem : Machine Device DeviceCall where
  start d := ∃ memory user, d = Device.new memory user
  next d l := if d.Admissible l then some (d.step l) else none

/-! ## The law of the replies -/

/-- The reply that waits to be read. -/
def Driver.pending (d : Driver) : Option UnimemAddr :=
  if d.returnMsg.type = 0 then none else some d.returnMsg.unidress

/-- The block of the last allocation, where the device was not released since. -/
def LastAllocated (history : List DeviceCall) (block : ℕ × ℕ) : Prop :=
  ∃ before l since, history = before ++ l :: since ∧ l.allocates = some block ∧
    ∀ k ∈ since, k.allocates = none ∧ k ≠ .devRelease

namespace Device

/-- The address that a read returns. -/
def returns (d : Device) : DeviceCall → Option ℕ
  | .devOpen => none
  | .devWrite _ _ => none
  | .devRead len =>
    if 0 < (d.driver.devRead len).1 then
      some (UnimemAddr.decode (d.driver.devRead len).2.1.tail).kernelVirtAddr
    else none
  | .devRelease => none

/-- No read of the run has returned the address. -/
def Unreturned (s : Device) (history : List DeviceCall) (addr : ℕ) : Prop :=
  deviceSystem.Throughout (fun _ d l => d.returns l ≠ some addr) s history

/-- A read that succeeds answers with the last block of its session, which is live and was not
returned before, and a message that fails leaves the reply alone. -/
def SoundReply (s : Device) (history : List DeviceCall) (d : Device) : DeviceCall → Prop
  | .devOpen => True
  | .devWrite env buf => (d.driver.devWrite env buf).1 < 0 →
      (d.driver.devWrite env buf).2.pending = d.driver.pending
  | .devRead len => 0 < (d.driver.devRead len).1 → ∃ block, LastAllocated history block ∧
      (d.driver.devRead len).2.1 = 'z'.toUInt8 :: UnimemAddr.encode ⟨block.1, 13, block.2⟩ ∧
      block ∈ d.driver.live ∧ block.1 ≠ 0 ∧ s.Unreturned history block.1
  | .devRelease => True

/-- `vmalloc` refuses only while no reply waits, and a reply is read in the session that left it. -/
def Undisturbed (history : List DeviceCall) (d : Device) : DeviceCall → Prop
  | .devOpen => True
  | .devWrite env buf => buf.length = 9 → env.vmalloc = none → d.driver.pending = none
  | .devRead len => 25 ≤ len → d.driver.pending ≠ none → ∃ block, LastAllocated history block
  | .devRelease => True

end Device

theorem Driver.pending_of {d : Driver} {a : UnimemAddr} (h : d.returnMsg = ⟨'z'.toUInt8, a⟩) :
    d.pending = some a := by
  unfold pending
  rw [h]
  exact if_neg (show ¬ 'z'.toUInt8 = 0 by decide)

/-! ## The steps -/

theorem lastAllocated_concat (history : List DeviceCall) (l : DeviceCall) (block : ℕ × ℕ) :
    LastAllocated (history ++ [l]) block ↔ l.allocates = some block ∨
      LastAllocated history block ∧ l.allocates = none ∧ l ≠ .devRelease := by
  constructor
  · rintro ⟨before, k, since, heq, hk, hsince⟩
    obtain rfl | ⟨since, j, rfl⟩ := since.eq_nil_or_concat
    · obtain ⟨-, hlast⟩ := List.append_inj' heq rfl
      rw [(List.cons.inj hlast).1]
      exact Or.inl hk
    · rw [List.concat_eq_append] at heq hsince
      rw [← List.cons_append, ← List.append_assoc] at heq
      obtain ⟨hpre, hlast⟩ := List.append_inj' heq rfl
      rw [(List.cons.inj hlast).1]
      exact Or.inr ⟨⟨before, k, since, hpre, hk, fun i hi => hsince i (by simp [hi])⟩,
        hsince j (by simp)⟩
  · rintro (hl | ⟨⟨before, k, since, rfl, hk, hsince⟩, hl⟩)
    · exact ⟨history, l, [], rfl, hl, fun k hk => absurd hk List.not_mem_nil⟩
    · refine ⟨before, k, since ++ [l], by simp, hk, fun i hi => ?_⟩
      obtain hi | hi := List.mem_append.mp hi
      · exact hsince i hi
      · rw [List.mem_singleton.mp hi]
        exact hl

/-- A message of type C has a wrong length, or is a request for a block. -/
theorem devWrite_cases (d : Driver) (env : KernelEnv) {buf : List UInt8}
    (hC : buf.head? = some 'C'.toUInt8) :
    (buf.length ≠ 9 ∧ Request.parse buf = none ∧ d.devWrite env buf = (-1, d)) ∨
      (buf.length = 9 ∧ ∃ size < 2 ^ 64, Request.parse buf = some (.alloc size) ∧
        d.devWrite env buf = d.perform env (.alloc size)) := by
  obtain ⟨body, rfl⟩ := List.head?_eq_some_iff.mp hC
  have hparse := Request.parse_C body
  by_cases hlen : body.length = 8
  · rw [if_pos hlen] at hparse
    refine Or.inr ⟨by rw [List.length_cons, hlen], _, Request.inRange_alloc hlen, hparse, ?_⟩
    rw [Driver.devWrite_eq, hparse]
    rfl
  · rw [if_neg hlen] at hparse
    refine Or.inl ⟨by rw [List.length_cons]; omega, hparse, ?_⟩
    rw [Driver.devWrite_eq, hparse]
    rfl

namespace Device

/-- Every block that is live is a block of memory and was allocated, a reply that waits is about one
that was not returned, and what was returned is live. -/
structure Tidy (s : Device) (history : List DeviceCall) (d : Device) : Prop where
  reply : d.driver.pending = none ∨ ∃ block ∈ d.driver.live,
    d.driver.returnMsg = ⟨'z'.toUInt8, ⟨block.1, 13, block.2⟩⟩ ∧
      (∀ b, LastAllocated history b → b = block) ∧ s.Unreturned history block.1
  blocks : ∀ block ∈ d.driver.live, 0 < block.1 ∧ block.1 < 2 ^ 64 ∧ block.2 < 2 ^ 64
  returned : deviceSystem.Throughout
    (fun _ m l => ∀ addr, m.returns l = some addr → ∃ size, (addr, size) ∈ d.driver.live) s history

theorem tidy_new (memory user : ℕ → UInt8) : Tidy (new memory user) [] (new memory user) := by
  refine ⟨Or.inl rfl, fun block hb => absurd hb List.not_mem_nil, ?_⟩
  intro before l since heq
  exact absurd heq.symm (by simp)

section Read

variable {s d : Device} {history : List DeviceCall} {len : ℕ}

theorem returns_write (d : Device) (env : KernelEnv) (buf : List UInt8) :
    d.returns (.devWrite env buf) = none := rfl

/-- A read fails without a reply, and of a reply it says the address. -/
theorem devRead_none (hd : d.driver.pending = none) :
    d.driver.devRead len = (-1, [], d.driver) := by
  unfold Driver.pending at hd
  unfold Driver.devRead
  by_cases hzero : d.driver.returnMsg.type = 0
  · rw [if_pos hzero]
  · rw [if_neg hzero] at hd
    cases hd

theorem devRead_short (hlen : len < 25) : (d.driver.devRead len).1 = -1 ∧
    (d.driver.devRead len).2.2 = d.driver := by
  unfold Driver.devRead
  rw [if_pos hlen]
  split
  · exact ⟨rfl, rfl⟩
  split <;> exact ⟨rfl, rfl⟩

theorem returns_block {block : ℕ × ℕ} (hb : block.1 < 2 ^ 64) (hs : block.2 < 2 ^ 64)
    (hd : d.driver.returnMsg = ⟨'z'.toUInt8, ⟨block.1, 13, block.2⟩⟩) (hlen : 25 ≤ len) :
    d.returns (.devRead len) = some block.1 := by
  have hread := Driver.devRead_pending (by rw [hd]) hlen
  unfold returns
  dsimp only
  rw [hread, if_pos (by norm_num), List.tail_cons, hd]
  dsimp only
  rw [UnimemAddr.decode_encode hb (by norm_num) hs]

theorem returns_of_none (hd : d.driver.pending = none) : d.returns (.devRead len) = none := by
  unfold returns
  dsimp only
  rw [devRead_none hd]
  rfl

theorem returns_short (hlen : len < 25) : d.returns (.devRead len) = none := by
  unfold returns
  dsimp only
  rw [(devRead_short hlen).1]
  rfl

/-- A read is sound when it is undisturbed. -/
theorem Tidy.read_iff (h : Tidy s history d) :
    s.SoundReply history d (.devRead len) ↔ Undisturbed history d (.devRead len) := by
  unfold SoundReply Undisturbed
  dsimp only
  obtain hnone | ⟨block, hlive, hmsg, hlast, hun⟩ := h.reply
  · rw [devRead_none hnone]
    exact iff_of_true (fun h => absurd h (by norm_num)) fun _ h => absurd hnone h
  by_cases hlen : len < 25
  · rw [(devRead_short hlen).1]
    exact iff_of_true (fun h => absurd h (by norm_num)) fun h => absurd h hlen.not_ge
  have hread := Driver.devRead_pending (d := d.driver) (by rw [hmsg]) (not_lt.mp hlen)
  have hpending : d.driver.pending ≠ none := by
    rw [Driver.pending_of hmsg]
    exact Option.some_ne_none _
  rw [hread, hmsg]
  constructor
  · intro hsound _ _
    obtain ⟨b, hb, -⟩ := hsound (by norm_num)
    exact ⟨b, hb⟩
  · intro hdist _
    obtain ⟨b, hb⟩ := hdist (not_lt.mp hlen) hpending
    obtain rfl := hlast b hb
    exact ⟨b, hb, rfl, hlive, (h.blocks b hlive).1.ne', hun⟩

end Read

section Write

variable {s d : Device} {history : List DeviceCall} {env : KernelEnv} {buf : List UInt8}

/-- A refused allocation spoils a reply that waits, and harms nothing else. -/
theorem pending_refused (d : Driver) : ({ d with returnMsg.unidress := { d.returnMsg.unidress with
      kernelVirtAddr := 0, busAddr := 13 } } : Driver).pending =
    d.pending.map fun addr => { addr with kernelVirtAddr := 0, busAddr := 13 } := by
  unfold Driver.pending
  dsimp only
  split <;> rfl

theorem Tidy.write_iff (h : Tidy s history d) (hC : buf.head? = some 'C'.toUInt8) :
    s.SoundReply history d (.devWrite env buf) ↔ Undisturbed history d (.devWrite env buf) := by
  unfold SoundReply Undisturbed
  dsimp only
  obtain ⟨hlen, -, hwrite⟩ | ⟨hlen, size, -, -, hwrite⟩ := devWrite_cases d.driver env hC
  · rw [hwrite]
    exact iff_of_true (fun _ => rfl) fun h => absurd h hlen
  rw [hwrite]
  unfold Driver.perform
  cases hv : env.vmalloc with
  | some given => exact iff_of_true (fun h => absurd h (by simp)) fun _ h => absurd h (by simp)
  | none =>
    dsimp only
    rw [pending_refused]
    constructor
    · intro hsound _ _
      have hsame := hsound (by norm_num)
      obtain hnone | ⟨block, hlive, hmsg, -⟩ := h.reply
      · exact hnone
      · rw [Driver.pending_of hmsg, Option.map_some, Option.some.injEq] at hsame
        have hzero : 0 = block.1 := congrArg UnimemAddr.kernelVirtAddr hsame
        exact absurd hzero (h.blocks block hlive).1.ne
    · intro hdist _
      rw [hdist hlen rfl]
      rfl

end Write

/-! ## Whole runs -/

section Step

variable {s d : Device} {history : List DeviceCall} {l : DeviceCall}

theorem returned_concat {live : List (ℕ × ℕ)} (h : Tidy s history d)
    (hrun : deviceSystem.run s history = some d) (hlive : ∀ block ∈ d.driver.live, block ∈ live)
    (hl : ∀ addr, d.returns l = some addr → ∃ size, (addr, size) ∈ d.driver.live) :
    deviceSystem.Throughout
      (fun _ m l => ∀ addr, m.returns l = some addr → ∃ size, (addr, size) ∈ live) s
      (history ++ [l]) := by
  rw [Machine.throughout_concat]
  refine ⟨fun before k since heq m hm addr ha => ?_, fun m hm addr ha => ?_⟩
  · obtain ⟨size, hb⟩ := h.returned before k since heq m hm addr ha
    exact ⟨size, hlive _ hb⟩
  · obtain rfl := Option.some.inj (hrun.symm.trans hm)
    obtain ⟨size, hb⟩ := hl addr ha
    exact ⟨size, hlive _ hb⟩

theorem unreturned_concat {addr : ℕ} (hrun : deviceSystem.run s history = some d)
    (hl : d.returns l ≠ some addr) (h : s.Unreturned history addr) :
    s.Unreturned (history ++ [l]) addr := by
  refine (Machine.throughout_concat history l).mpr ⟨h, fun m hm => ?_⟩
  obtain rfl := Option.some.inj (hrun.symm.trans hm)
  exact hl

/-- A call that allocates nothing and keeps the driver's slot and blocks. -/
theorem Tidy.quiet (h : Tidy s history d) (hrun : deviceSystem.run s history = some d) {t : Device}
    (hslot : t.driver.returnMsg = d.driver.returnMsg) (hlive : t.driver.live = d.driver.live)
    (hnone : l.allocates = none) (hl : d.returns l = none) : Tidy s (history ++ [l]) t := by
  have hpending : t.driver.pending = d.driver.pending := by
    unfold Driver.pending
    rw [hslot]
  refine ⟨?_, by rw [hlive]; exact h.blocks, ?_⟩
  · rw [hpending, hslot, hlive]
    refine h.reply.imp_right ?_
    rintro ⟨block, hb, hmsg, hlast, hun⟩
    refine ⟨block, hb, hmsg, fun b hlb => ?_, unreturned_concat hrun (by rw [hl]; simp) hun⟩
    rw [lastAllocated_concat, hnone] at hlb
    obtain hlb | ⟨hlb, -⟩ := hlb
    · cases hlb
    · exact hlast b hlb
  · rw [hlive]
    exact returned_concat h hrun (fun _ hb => hb) (by rw [hl]; simp)

theorem Tidy.read {len : ℕ} (h : Tidy s history d) (hrun : deviceSystem.run s history = some d) :
    Tidy s (history ++ [.devRead len]) (d.step (.devRead len)) := by
  obtain hnone | ⟨block, hlive, hmsg, hlast, hun⟩ := h.reply
  · refine h.quiet hrun ?_ ?_ rfl (returns_of_none hnone) <;>
      simp only [step, devRead_none hnone]
  by_cases hlen : len < 25
  · refine h.quiet hrun ?_ ?_ rfl (returns_short hlen) <;>
      simp only [step, (devRead_short hlen).2]
  have hread := Driver.devRead_pending (d := d.driver) (by rw [hmsg]) (not_lt.mp hlen)
  have hreturns := returns_block (h.blocks block hlive).2.1 (h.blocks block hlive).2.2 hmsg
    (not_lt.mp hlen)
  refine ⟨Or.inl ?_, ?_, ?_⟩
  · simp only [step, hread]
    rfl
  · simp only [step, hread]
    exact h.blocks
  · simp only [step, hread]
    refine returned_concat h hrun (fun _ hb => hb) fun addr ha => ?_
    rw [hreturns, Option.some.injEq] at ha
    exact ⟨block.2, ha ▸ hlive⟩

theorem Tidy.write {env : KernelEnv} {buf : List UInt8} (h : Tidy s history d)
    (hrun : deviceSystem.run s history = some d) (hadm : d.Admissible (.devWrite env buf))
    (hdist : Undisturbed history d (.devWrite env buf)) :
    Tidy s (history ++ [.devWrite env buf]) (d.step (.devWrite env buf)) := by
  obtain ⟨-, hC, hgrant, hown⟩ := hadm
  obtain ⟨-, hparse, hwrite⟩ | ⟨hlen, size, hsize, hparse, hwrite⟩ := devWrite_cases d.driver env hC
  · refine h.quiet hrun ?_ ?_ ?_ (returns_write d env buf)
    · simp only [step, hwrite]
    · simp only [step, hwrite]
    · simp only [DeviceCall.allocates, DriverLabel.allocates, hparse, Option.bind_none]
  have hallocates : (DeviceCall.devWrite env buf).allocates =
      env.vmalloc.map fun given => (given.1, size) := by
    simp only [DeviceCall.allocates, DriverLabel.allocates, hparse, Option.bind_some,
      Request.allocates]
  unfold step
  dsimp only
  rw [hwrite, Driver.perform]
  cases hv : env.vmalloc with
  | none =>
    -- the reply is spoilt, but there was none
    have hpending := hdist hlen hv
    rw [hv, Option.map_none] at hallocates
    refine ⟨Or.inl ?_, h.blocks, ?_⟩
    · rw [pending_refused, hpending]
      rfl
    · exact returned_concat h hrun (fun _ hb => hb) (by simp [returns_write])
  | some given =>
    obtain ⟨hbase, -⟩ := hgrant _ hparse _ hv
    obtain ⟨hlt, hfresh⟩ := hown _ hv
    rw [hv, Option.map_some] at hallocates
    dsimp only
    refine ⟨Or.inr ⟨(given.1, size), List.mem_cons_self, rfl, fun b hb => ?_, ?_⟩, ?_, ?_⟩
    · rw [lastAllocated_concat, hallocates] at hb
      obtain hb | ⟨-, hb, -⟩ := hb
      · exact (Option.some.inj hb).symm
      · cases hb
    · refine unreturned_concat hrun (by simp [returns_write]) fun before k since heq m hm hk => ?_
      obtain ⟨n, hn⟩ := h.returned before k since heq m hm _ hk
      exact hfresh _ hn rfl
    · intro block hb
      obtain rfl | hb := List.mem_cons.mp hb
      · exact ⟨hbase, hlt, hsize⟩
      · exact h.blocks block hb
    · exact returned_concat h hrun (fun _ hb => List.mem_cons_of_mem _ hb) (by simp [returns_write])

theorem Tidy.step (h : Tidy s history d) (hrun : deviceSystem.run s history = some d)
    (hadm : d.Admissible l) (hdist : Undisturbed history d l) :
    Tidy s (history ++ [l]) (d.step l) := by
  cases l with
  | devOpen =>
    refine h.quiet hrun ?_ ?_ rfl rfl <;>
    · simp only [Device.step, devOpen]
      split <;> rfl
  | devWrite env buf => exact h.write hrun hadm hdist
  | devRead len => exact h.read hrun
  | devRelease => exact h.quiet hrun rfl rfl rfl rfl

theorem Tidy.sound_iff (h : Tidy s history d) (hadm : d.Admissible l) :
    s.SoundReply history d l ↔ Undisturbed history d l := by
  cases l with
  | devOpen => exact Iff.rfl
  | devWrite env buf => exact h.write_iff hadm.2.1
  | devRead len => exact h.read_iff
  | devRelease => exact Iff.rfl

end Step

/-- The replies of a run are sound exactly when no allocation is refused while a reply waits, and
every reply that is read was left in the same session. -/
theorem replies_sound_iff {memory user : ℕ → UInt8} {history : List DeviceCall} {d : Device}
    (h : deviceSystem.run (new memory user) history = some d) :
    deviceSystem.Throughout (SoundReply (new memory user)) (new memory user) history ↔
      deviceSystem.Throughout Undisturbed (new memory user) history := by
  refine (Machine.throughout_iff (I := Tidy (new memory user)) (tidy_new memory user) ?_ ?_ h).1
  · intro before m l t hrun hm hdist hn
    obtain ⟨hadm, hn⟩ := Option.ite_none_right_eq_some.mp hn
    cases hn
    exact hm.step hrun hadm hdist
  · intro before m l t hm hn
    exact hm.sound_iff (Option.ite_none_right_eq_some.mp hn).1

/-- A request for eight bytes that `vmalloc` grants, and one that it refuses. -/
def granted : DeviceCall := .devWrite ⟨some (4096, fun _ => 0), 0⟩ (Request.alloc 8).encode
def refused : DeviceCall := .devWrite ⟨none, 0⟩ (Request.alloc 8).encode

/-- The block is reported before the second allocation is refused. -/
theorem replies_sound_iff_served : deviceSystem.Throughout
    (SoundReply (new (fun _ => 0) fun _ => 0)) (new (fun _ => 0) fun _ => 0)
    [.devOpen, granted, .devRead 100, refused] := by
  have hrun : (deviceSystem.run (new (fun _ => 0) fun _ => 0)
      [.devOpen, granted, .devRead 100, refused]).isSome = true := by
    decide +kernel
  have hread : (deviceSystem.run (new (fun _ => 0) fun _ => 0)
      [.devOpen, granted, .devRead 100]).map (fun d => d.driver.pending) = some none := by
    decide +kernel
  have hlast : LastAllocated [.devOpen, granted] (4096, 8) :=
    ⟨[.devOpen], granted, [], rfl, by decide +kernel, fun k hk => absurd hk List.not_mem_nil⟩
  obtain ⟨d, hd⟩ := Option.isSome_iff_exists.mp hrun
  refine (replies_sound_iff hd).mpr ?_
  rw [show [DeviceCall.devOpen, granted, .devRead 100, refused] =
    ((([] ++ [.devOpen]) ++ [granted]) ++ [.devRead 100]) ++ [refused] from rfl]
  simp only [Machine.throughout_concat]
  refine ⟨⟨⟨⟨fun before l since heq => absurd heq.symm (by simp), fun _ _ => trivial⟩,
    fun _ _ _ hv => absurd hv (by simp)⟩, fun _ _ _ _ => ⟨_, hlast⟩⟩, fun m hm _ _ => ?_⟩
  obtain ⟨m', hm', hnone⟩ := Option.map_eq_some_iff.mp hread
  obtain rfl := Option.some.inj (hm'.symm.trans hm)
  exact hnone

/-- The second allocation is refused, and the read answers with the address NULL and the length of
the first. -/
theorem refused_allocation_spoils : ∃ d, deviceSystem.run (new (fun _ => 0) fun _ => 0)
    [.devOpen, granted, refused] = some d ∧
      (d.driver.devRead 100).2.1 = 'z'.toUInt8 :: UnimemAddr.encode ⟨0, 13, 8⟩ ∧
      ¬ deviceSystem.Throughout (SoundReply (new (fun _ => 0) fun _ => 0))
        (new (fun _ => 0) fun _ => 0) [.devOpen, granted, refused, .devRead 100] := by
  have hrun : (deviceSystem.run (new (fun _ => 0) fun _ => 0) [.devOpen, granted, refused]).map
      (fun d => (d.driver.live, d.driver.devRead 100 |>.1, d.driver.devRead 100 |>.2.1)) =
        some ([(4096, 8)], 25, 'z'.toUInt8 :: UnimemAddr.encode ⟨0, 13, 8⟩) := by
    decide +kernel
  obtain ⟨d, hd, hfields⟩ := Option.map_eq_some_iff.mp hrun
  obtain ⟨hlive, hfields⟩ := Prod.mk.inj hfields
  obtain ⟨hrc, hbytes⟩ := Prod.mk.inj hfields
  refine ⟨d, hd, hbytes, fun h => ?_⟩
  obtain ⟨block, -, hsound, hmem, -⟩ := h [.devOpen, granted, refused] (.devRead 100) [] rfl d hd
    (by rw [hrc]; norm_num)
  rw [hlive, List.mem_singleton] at hmem
  rw [hbytes, hmem] at hsound
  exact absurd hsound (by decide +kernel)

/-- A reply that nobody read is answered to the next user of the device. -/
example : (deviceSystem.run (new (fun _ => 0) fun _ => 0)
    [.devOpen, granted, .devRelease, .devOpen]).map (fun d => d.returns (.devRead 100)) =
      some (some 4096) := by
  decide +kernel

end Device

end FpgaMl
