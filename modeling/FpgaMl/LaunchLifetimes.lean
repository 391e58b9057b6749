import Mathlib.Tactic
import FpgaMl.ClientMoves

/-! # What a pending launch uses

The counter of a kernel covers the client, the callback that has popped its command, the queued
commands and the ND-ranges, so that no launch loses its kernel. Nobody counts the reference of a
kernel to its program: the program goes when the client releases it, launch or not. -/
namespace FpgaMl
open MachineInt TransitionSystem RefCounter
set_option autoImplicit false

variable {n : ℕ} {bits : Bitstreams} {s t : ClientRun n} {l : ClientLabel n}

/-- Who has a reference to a kernel. -/
inductive KernelHolder
  | client
  | callback
  | launch (ref : LaunchRef)
  deriving DecidableEq, Repr

namespace ClientRun

def HoldsKernel (s : ClientRun n) (k : ℕ) : KernelHolder → Prop
  | .client => s.kernelHandles k = true
  | .callback => s.current = some k
  | .launch ref => ∃ e, s.runtime.Carries ref k e

/-- The kernel of every pending launch has not been deleted, nor has its program. -/
def PendingAlive (s : ClientRun n) : Prop :=
  ∀ ref k e, s.runtime.Carries ref k e → (s.kernels k).counter.deleted = false ∧
    (s.programs (s.kernels k).program).counter.deleted = false

/-! ## The conditions -/

/-- The step counts no kernel beyond 32 bits. -/
def CountsFit (s : ClientRun n) : ClientLabel n → Prop
  | .enqueueNdrange _ k _ _ => (s.kernels k).counter.counter + 1 < 2 ^ 32
  | .loop q _ _ => (s.queue q).point = .popping → ∀ cmd ∈ (s.queue q).ring.head?,
      ∀ k ∈ cmd.body.launched, (s.kernels k).counter.counter + 1 < 2 ^ 32
  | _ => True

instance (s : ClientRun n) (l : ClientLabel n) : Decidable (s.CountsFit l) :=
  match l with
  | .enqueueNdrange .. => inferInstanceAs (Decidable (_ < _))
  | .loop q _ _ => inferInstanceAs (Decidable (_ = _ → ∀ cmd ∈ (s.queue q).ring.head?,
      ∀ k ∈ cmd.body.launched, (s.kernels k).counter.counter + 1 < 2 ^ 32))
  | .createProgram _ | .createKernel _ | .setKernelArg .. | .enqueue .. | .releaseKernel _
  | .releaseProgram _ | .releaseQueue _ | .fire .. => inferInstanceAs (Decidable True)

/-- The step releases no program of a pending launch, and puts no launch of a deleted program into
a queue. -/
def ProgramsKept (s : ClientRun n) : ClientLabel n → Prop
  | .releaseProgram p => ∀ ref k e, s.runtime.Carries ref k e → (s.kernels k).program ≠ p
  | .enqueueNdrange q k _ _ => (s.queue q).Takes →
      (s.programs (s.kernels k).program).counter.deleted = false
  | _ => True

/-! ## The counters of the kernels -/

theorem guards_setKernel (holds : ℕ → KernelHolder → Prop) {k : ℕ} {kernel : ClKernel}
    (hk : Guards (holds k) kernel.counter)
    (hother : ∀ j, j ≠ k → Guards (holds j) (s.kernels j).counter) (j : ℕ) :
    Guards (holds j) ((s.setKernel k kernel).kernels j).counter := by
  change Guards (holds j) (Function.update s.kernels k kernel j).counter
  obtain rfl | hj := eq_or_ne j k
  · rwa [Function.update_self]
  · rw [Function.update_of_ne hj]
    exact hother j hj

/-- The holders that a step leaves, when the client's and the callback's references stay. -/
theorem HoldsKernel.mono {j : ℕ} {p : KernelHolder} (h : t.HoldsKernel j p)
    (hclient : t.kernelHandles j = true → s.kernelHandles j = true)
    (hcurrent : t.current = some j → s.current = some j)
    (hlaunch : ∀ ref e, t.runtime.Carries ref j e → s.runtime.Carries ref j e) :
    s.HoldsKernel j p := by
  cases p with
  | client => exact hclient h
  | callback => exact hcurrent h
  | launch ref =>
    obtain ⟨e, hc⟩ := h
    exact ⟨e, hlaunch ref e hc⟩

/-- After the hand-over a kernel is held by the callback, by the new `NDRange`, or as before. -/
theorem holders_hand (hs : s.Coherent) {q : ℕ} {now : ℚ} {env : KernelEnv} {cmd : MLCLCommand}
    {r : Runtime n} (hhead : (s.queue q).ring.head? = some cmd)
    (hr : s.runtime.handOver bits now env q = some r)
    (ht : t = { cmd.body.launched.elim s s.upKernel with
      runtime := r, current := cmd.body.kernel }) {j : ℕ} {holder : KernelHolder}
    (hholder : t.HoldsKernel j holder) :
    (holder = .callback ∧ cmd.body.kernel = some j) ∨
      (holder = .launch (.ndrange s.runtime.global.nextCell) ∧ cmd.body.launched = some j) ∨
      (holder ≠ .launch (.command q cmd.event) ∧ s.HoldsKernel j holder) := by
  have hhandles : t.kernelHandles = s.kernelHandles := by
    rw [ht]
    exact (recounts_elim (f := s.upKernel) (fun k => recounts_setKernel s k _) _).kernelHandles
  cases holder with
  | client => exact Or.inr (Or.inr ⟨nofun, (congrFun hhandles j).symm.trans hholder⟩)
  | callback => exact Or.inl ⟨rfl, by rw [ht] at hholder; exact hholder⟩
  | launch ref =>
    obtain ⟨e, hc⟩ := hholder
    rw [ht] at hc
    obtain hold | ⟨hlaunched, rfl, -⟩ := Runtime.carries_handOver hr hhead hc
    · refine Or.inr (Or.inr ⟨?_, e, hold⟩)
      rintro heq
      rw [KernelHolder.launch.inj heq] at hc
      exact Runtime.not_carries_handOver hr (hs.served q) hhead hc
    · exact Or.inr (Or.inl ⟨rfl, hlaunched⟩)

section Steps

variable (hguards : ∀ k, Guards (s.HoldsKernel k) (s.kernels k).counter)
include hguards

theorem guards_createKernel (hs : s.Coherent) (p j : ℕ) :
    Guards ((s.createKernel p).HoldsKernel j) ((s.createKernel p).kernels j).counter := by
  refine guards_setKernel (s.createKernel p).HoldsKernel ?_ (fun j hj => ?_) j
  · refine guards_new .client fun holder hholder => ?_
    cases holder with
    | client => rfl
    | callback => exact absurd (hs.current _ hholder) (lt_irrefl _)
    | launch ref =>
      obtain ⟨e, hc⟩ := hholder
      exact absurd (hs.launches ref _ e hc) (lt_irrefl _)
  · refine (hguards j).mono fun holder hholder => hholder.mono (fun hh => ?_) id fun _ _ => id
    change Function.update s.kernelHandles s.nextKernel true j = true at hh
    rwa [Function.update_of_ne hj] at hh

theorem guards_enqueueNdrange {q k : ℕ} {body : CommandBody} (hbody : body.kernel = some k)
    (hk : s.kernelHandles k = true) (hfit : (s.kernels k).counter.counter + 1 < 2 ^ 32) (j : ℕ) :
    Guards (((s.upKernel k).submit q body).HoldsKernel j)
      (((s.upKernel k).submit q body).kernels j).counter := by
  refine guards_setKernel (s := s) ((s.upKernel k).submit q body).HoldsKernel ?_ (fun j hj => ?_) j
  · refine (hguards k).up hfit (p := .client) hk
      (.launch (.command q (s.queue q).nextCommand)) fun holder hholder => ?_
    cases holder with
    | client | callback => exact Or.inr hholder
    | launch ref =>
      obtain ⟨e, hc⟩ := hholder
      obtain hc | ⟨-, -, rfl, -⟩ := Runtime.carries_submit hc
      · exact Or.inr ⟨e, hc⟩
      · exact Or.inl rfl
  · refine (hguards j).mono fun holder hholder => hholder.mono id id fun ref e hc => ?_
    obtain hc | ⟨-, hkernel, -⟩ := Runtime.carries_submit hc
    · exact hc
    · exact absurd (Option.some.inj (hkernel.symm.trans hbody)) hj

theorem guards_releaseKernel {k : ℕ} (hk : s.kernelHandles k = true) (j : ℕ) :
    Guards ((s.releaseKernel k).HoldsKernel j) ((s.releaseKernel k).kernels j).counter := by
  refine guards_setKernel (s.releaseKernel k).HoldsKernel ?_ (fun j hj => ?_) j
  · refine (hguards k).down (p := .client) hk fun holder hholder => ?_
    cases holder with
    | client =>
      change Function.update s.kernelHandles k false k = true at hholder
      rw [Function.update_self] at hholder
      cases hholder
    | callback | launch ref => exact ⟨nofun, hholder⟩
  · refine (hguards j).mono fun holder hholder => hholder.mono (fun hh => ?_) id fun _ _ => id
    change Function.update s.kernelHandles k false j = true at hh
    rwa [Function.update_of_ne hj] at hh

/-- The callback takes over the reference of the command that it pops. -/
theorem guards_popped {q : ℕ} {cmd : MLCLCommand} (hhead : (s.queue q).ring.head? = some cmd)
    (j : ℕ) : Guards (fun holder => (holder = .callback ∧ cmd.body.kernel = some j) ∨
      (holder ≠ .launch (.command q cmd.event) ∧ s.HoldsKernel j holder))
      (s.kernels j).counter := by
  by_cases hkernel : cmd.body.kernel = some j
  · refine (hguards j).pass (p := .launch (.command q cmd.event))
      ⟨⟨q, cmd.event⟩, rfl, cmd, List.mem_of_mem_head? hhead, rfl, hkernel⟩ .callback ?_
    exact fun holder hholder => hholder.imp_left And.left
  · exact (hguards j).mono fun holder hholder => (hholder.resolve_left fun h => hkernel h.2).2

/-- The callback takes over the reference of the command, and the new `NDRange` takes another. -/
theorem guards_hand (hs : s.Coherent) {q : ℕ} {now : ℚ} {env : KernelEnv} {cmd : MLCLCommand}
    {r : Runtime n} (hhead : (s.queue q).ring.head? = some cmd)
    (hr : s.runtime.handOver bits now env q = some r)
    (hfit : ∀ k ∈ cmd.body.launched, (s.kernels k).counter.counter + 1 < 2 ^ 32)
    (ht : t = { cmd.body.launched.elim s s.upKernel with
      runtime := r, current := cmd.body.kernel }) (j : ℕ) :
    Guards (t.HoldsKernel j) (t.kernels j).counter := by
  have hpopped := guards_popped hguards hhead
  cases hlaunched : cmd.body.launched with
  | none =>
    have hkernels : t.kernels = s.kernels := by
      rw [ht, hlaunched]
      rfl
    rw [hkernels]
    refine (hpopped j).mono fun holder hholder => ?_
    obtain h | ⟨-, h⟩ | h := holders_hand hs hhead hr ht hholder
    · exact Or.inl h
    · cases hlaunched.symm.trans h
    · exact Or.inr h
  | some k =>
    have hkernels : t.kernels = (s.upKernel k).kernels := by
      rw [ht, hlaunched]
      rfl
    rw [hkernels]
    refine guards_setKernel t.HoldsKernel ?_ (fun j hj => ?_) j
    · refine (hpopped k).up (hfit k hlaunched) (p := .callback)
        (Or.inl ⟨rfl, Runtime.kernel_of_launched hlaunched⟩)
        (.launch (.ndrange s.runtime.global.nextCell)) fun holder hholder => ?_
      obtain h | ⟨h, -⟩ | h := holders_hand hs hhead hr ht hholder
      · exact Or.inr (Or.inl h)
      · exact Or.inl h
      · exact Or.inr (Or.inr h)
    · refine (hpopped j).mono fun holder hholder => ?_
      obtain h | ⟨-, h⟩ | h := holders_hand hs hhead hr ht hholder
      · exact Or.inl h
      · exact absurd (Option.some.inj (h.symm.trans hlaunched)) hj
      · exact Or.inr h

/-- The end of the callback deletes the command. -/
theorem guards_deleteCommand {r : Runtime n}
    (hr : ∀ ref k e, r.Carries ref k e → s.runtime.Carries ref k e) (j : ℕ) :
    Guards (HoldsKernel { s.deleteCommand with runtime := r } j)
      (s.deleteCommand.kernels j).counter := by
  have hhandles : s.deleteCommand.kernelHandles = s.kernelHandles :=
    (recounts_elim (f := s.downKernel) (fun k => recounts_setKernel s k _) _).kernelHandles
  have hholders : ∀ j holder, HoldsKernel { s.deleteCommand with runtime := r } j holder →
      holder ≠ .callback ∧ s.HoldsKernel j holder := by
    intro j holder hholder
    cases holder with
    | client => exact ⟨nofun, (congrFun hhandles j).symm.trans hholder⟩
    | callback => cases hholder
    | launch ref =>
      obtain ⟨e, hc⟩ := hholder
      exact ⟨nofun, e, hr ref j e hc⟩
  cases hcurrent : s.current with
  | none =>
    have hkernels : s.deleteCommand.kernels = s.kernels := by
      unfold deleteCommand
      rw [hcurrent]
      rfl
    rw [hkernels]
    exact (hguards j).mono fun holder hholder => (hholders j holder hholder).2
  | some k =>
    have hkernels : s.deleteCommand.kernels = (s.downKernel k).kernels := by
      unfold deleteCommand
      rw [hcurrent]
      rfl
    rw [hkernels]
    refine guards_setKernel (HoldsKernel { s.deleteCommand with runtime := r }) ?_
      (fun j _ => ?_) j
    · exact (hguards k).down (p := .callback) hcurrent (hholders k)
    · exact (hguards j).mono fun holder hholder => (hholders j holder hholder).2

/-- The timer that finishes an ND-range drops its reference. -/
theorem guards_fire {i : Fin n} {now : ℚ} {r : Runtime n} (hr : s.runtime.fire now i = some r)
    (ht : t = { (s.runtime.global.finishing i).elim s (fun x => s.downKernel x.kernel.handle) with
      runtime := r }) (j : ℕ) : Guards (t.HoldsKernel j) (t.kernels j).counter := by
  obtain ⟨hcarries, hfinished⟩ := Runtime.carries_fire hr
  cases hfinishing : s.runtime.global.finishing i with
  | none =>
    rw [ht, hfinishing]
    exact (hguards j).mono fun holder hholder => hholder.mono id id fun ref e => hcarries ref j e
  | some x =>
    rw [ht, hfinishing]
    obtain ⟨d, hd, hgone⟩ := hfinished x hfinishing
    refine guards_setKernel (HoldsKernel { s.downKernel x.kernel.handle with runtime := r }) ?_
      (fun j _ => ?_) j
    · refine (hguards _).down (p := .launch (.ndrange d)) ⟨_, hd⟩
        fun holder hholder => ⟨?_, ?_⟩
      · rintro rfl
        obtain ⟨e, hc⟩ := hholder
        exact hgone _ e hc
      · exact hholder.mono id id fun ref e => hcarries ref _ e
    · exact (hguards j).mono fun holder hholder => hholder.mono id id fun ref e => hcarries ref j e

end Steps

/-- Every counter of a kernel covers the holders, and a program has one reference at most, since
nothing but its creation counts one. -/
structure Counted (s : ClientRun n) : Prop where
  coherent : s.Coherent
  guards : ∀ k, Guards (s.HoldsKernel k) (s.kernels k).counter
  single : ∀ p, (s.programs p).counter.counter ≤ 1

theorem counted_start (h : (clientSystem n bits).start s) : s.Counted := by
  refine ⟨coherent_start h, fun k => ?_, fun p => ?_⟩
  · obtain ⟨r, hr, rfl⟩ := h
    refine guards_of_none (fun holder hholder => ?_) _
    cases holder with
    | client | callback => cases hholder
    | launch ref =>
      obtain ⟨e, hc⟩ := hholder
      exact not_carries_start hr hc
  · obtain ⟨r, -, rfl⟩ := h
    exact Nat.zero_le 1

theorem guards_of_move (hs : s.Counted) (hfit : s.CountsFit l) (h : ClientMove bits s l t)
    (k : ℕ) : Guards (t.HoldsKernel k) (t.kernels k).counter := by
  cases h with
  | createProgram | releaseProgram => exact hs.guards k
  | createKernel p => exact guards_createKernel hs.guards hs.coherent p k
  | @setKernelArg j =>
    refine guards_setKernel (s := s) s.HoldsKernel ?_ (fun i _ => hs.guards i) k
    exact hs.guards j
  | enqueueNdrange q j _ _ hj => exact guards_enqueueNdrange hs.guards rfl hj hfit k
  | enqueue q hbody =>
    refine (hs.guards k).mono fun holder hholder => hholder.mono id id fun ref e hc => ?_
    exact (Runtime.carries_submit hc).resolve_right fun ⟨_, hkernel, _⟩ => by
      cases hbody.symm.trans hkernel
  | releaseKernel hj => exact guards_releaseKernel hs.guards hj k
  | releaseQueue q =>
    refine (hs.guards k).mono fun holder hholder => hholder.mono id id fun ref e hc => ?_
    exact Runtime.carries_setQueue (fun _ => (ring_refCntDown (s.queue q) ▸ ·)) hc
  | @hand q _ _ cmd r hpoint hhead hr =>
    exact guards_hand hs.guards hs.coherent hhead hr (hfit hpoint cmd hhead) rfl k
  | goOn hpoint hr =>
    exact (hs.guards k).mono fun holder hholder => hholder.mono id id fun ref e =>
      Runtime.carries_loopStep hpoint hr
  | leave hpoint hr =>
    exact guards_deleteCommand hs.guards (fun ref j e => Runtime.carries_loopStep hpoint hr) k
  | fire hr => exact guards_fire hs.guards hr rfl k

/-- What a step does to the programs. -/
theorem programs_of_move (h : ClientMove bits s l t) : t.programs = s.programs ∨
    (∃ xmlName, t.programs = Function.update s.programs s.nextProgram ⟨.new, xmlName⟩) ∨
    ∃ p, l = .releaseProgram p ∧ t.programs = Function.update s.programs p
      { s.programs p with counter := (s.programs p).counter.refCntDown } := by
  by_cases hl : OnlyCounts l = true
  · exact Or.inl (recounts_of_move h hl).programs
  · cases h with
    | createProgram xmlName => exact Or.inr (Or.inl ⟨xmlName, rfl⟩)
    | createKernel | setKernelArg | releaseKernel => exact Or.inl rfl
    | releaseProgram p => exact Or.inr (Or.inr ⟨p, rfl, rfl⟩)
    | enqueueNdrange | enqueue | releaseQueue | hand | goOn | leave | fire => exact absurd rfl hl

theorem single_of_move (h : ClientMove bits s l t)
    (hs : ∀ p, (s.programs p).counter.counter ≤ 1) (p : ℕ) :
    (t.programs p).counter.counter ≤ 1 := by
  obtain heq | ⟨xmlName, heq⟩ | ⟨p', -, heq⟩ := programs_of_move h
  · rw [heq]
    exact hs p
  · rw [heq, Function.update_apply]
    split
    · exact le_rfl
    · exact hs p
  · rw [heq, Function.update_apply]
    split
    · exact (counter_refCntDown _).trans_le (by have := hs p'; omega)
    · exact hs p

theorem program_of_move (h : ClientMove bits s l t) {k : ℕ} (hk : k < s.nextKernel) :
    (t.kernels k).program = (s.kernels k).program := by
  by_cases hl : OnlyCounts l = true
  · exact (recounts_of_move h hl).program k
  · cases h with
    | createProgram | releaseProgram => rfl
    | createKernel p =>
      change (Function.update s.kernels s.nextKernel _ k).program = _
      rw [Function.update_of_ne hk.ne]
    | @setKernelArg j _ args _ _ =>
      change (Function.update s.kernels j _ k).program = _
      rw [Function.update_apply]
      split
      · rename_i hkj
        rw [hkj]
      · rfl
    | @releaseKernel j _ => exact (recounts_setKernel s j _).program k
    | enqueueNdrange | enqueue | releaseQueue | hand | goOn | leave | fire => exact absurd rfl hl

theorem Counted.move (hs : s.Counted) (hfit : s.CountsFit l) (h : ClientMove bits s l t) :
    t.Counted :=
  ⟨hs.coherent.move h, guards_of_move hs hfit h, single_of_move h hs.single⟩

/-- The kernel of a pending launch is alive as long as the counters fit. -/
theorem Counted.kernel_alive (hs : s.Counted) {ref : LaunchRef} {k : ℕ} {e : EventRef}
    (hc : s.runtime.Carries ref k e) : (s.kernels k).counter.deleted = false :=
  (hs.guards k).alive (.launch ref) ⟨e, hc⟩

/-! ## The programs -/

theorem PendingAlive.move (hs : s.Counted) (halive : s.PendingAlive) (hfit : s.CountsFit l)
    (hkept : s.ProgramsKept l) (h : ClientMove bits s l t) : t.PendingAlive := by
  intro ref k e hc
  refine ⟨(hs.move hfit h).kernel_alive hc, ?_⟩
  have hold : k < s.nextKernel ∧ (s.programs (s.kernels k).program).counter.deleted = false ∧
      l ≠ .releaseProgram (s.kernels k).program := by
    obtain ⟨ref', hc⟩ | ⟨q, _, _, rfl, hk, htakes, -⟩ := carries_of_move h hc
    · refine ⟨hs.coherent.launches ref' k e hc, (halive ref' k e hc).2, ?_⟩
      rintro rfl
      exact hkept ref' k e hc rfl
    · exact ⟨hs.coherent.handles k hk, hkept htakes, nofun⟩
  obtain ⟨hk, hprogram, hl⟩ := hold
  rw [program_of_move h hk]
  obtain heq | ⟨xmlName, heq⟩ | ⟨p, rfl, heq⟩ := programs_of_move h
  · rw [heq]
    exact hprogram
  · rw [heq, Function.update_apply]
    split
    · rfl
    · exact hprogram
  · rw [heq, Function.update_of_ne fun hp => hl (congrArg _ hp.symm)]
    exact hprogram

/-- A step that breaks the condition leaves a launch without its program. -/
theorem programsKept_of_alive (hs : s.Counted) (hn : (clientSystem n bits).next s l = some t)
    (halive : t.PendingAlive) : s.ProgramsKept l := by
  cases l with
  | releaseProgram p =>
    obtain ⟨-, hn⟩ := Option.ite_none_right_eq_some.mp hn
    cases hn
    rintro ref k e hc rfl
    have hprogram := (halive ref k e hc).2
    change (Function.update s.programs (s.kernels k).program _
      (s.kernels k).program).counter.deleted = false at hprogram
    rw [Function.update_self] at hprogram
    change (s.programs (s.kernels k).program).counter.refCntDown.deleted = false at hprogram
    rw [deleted_refCntDown, decide_eq_true (hs.single _), Bool.or_true] at hprogram
    cases hprogram
  | enqueueNdrange q k globalWorkSize localWorkSize =>
    intro htakes
    obtain ⟨-, hn⟩ := Option.ite_none_right_eq_some.mp hn
    obtain ⟨-, hn⟩ := Option.ite_none_right_eq_some.mp hn
    cases hn
    have hkernel : (s.ndrangeBody k globalWorkSize localWorkSize).kernel = some k := rfl
    have hc := Runtime.carries_submitted (r := s.runtime) htakes hkernel
    have hprogram := (halive _ k _ hc).2
    change (s.programs ((s.upKernel k).kernels k).program).counter.deleted = false at hprogram
    rwa [show ((s.upKernel k).kernels k).program = (s.kernels k).program from
      (recounts_setKernel s k _).program k] at hprogram
  | createProgram | createKernel | setKernelArg | enqueue | releaseKernel | releaseQueue | loop
  | fire => trivial

/-! ## Runs -/

/-- In a run that fits, everything a pending launch uses is alive in all states exactly when no
program is released under a pending launch and no launch of a deleted program enters a queue. -/
theorem pending_alive_iff {ls : List (ClientLabel n)} (hs : (clientSystem n bits).start s)
    (hrun : (clientSystem n bits).run s ls = some t)
    (hfit : (clientSystem n bits).Throughout (fun _ m l => m.CountsFit l) s ls) :
    (clientSystem n bits).Always PendingAlive s ls ↔
      (clientSystem n bits).Throughout (fun _ m l => m.ProgramsKept l) s ls := by
  have hstart : s.PendingAlive := by
    obtain ⟨r, hr, rfl⟩ := hs
    exact fun ref k e hc => absurd hc (not_carries_start hr)
  have hlaws := (Machine.throughout_iff (M := clientSystem n bits) (s := s)
    (A := fun _ m l => m.CountsFit l ∧
      ∀ t, (clientSystem n bits).next m l = some t → t.PendingAlive)
    (B := fun _ m l => m.CountsFit l ∧ m.ProgramsKept l)
    (I := fun _ m => m.Counted ∧ m.PendingAlive) ⟨counted_start hs, hstart⟩ ?_ ?_ hrun).1
  · rw [Machine.throughout_and, Machine.throughout_and, and_congr_right_iff] at hlaws
    rw [Machine.always_iff, and_iff_right hstart]
    exact hlaws hfit
  · rintro before m l t - ⟨hcounted, halive⟩ ⟨hfit, hkept⟩ hn
    exact ⟨hcounted.move hfit (clientMove hn), halive.move hcounted hfit hkept (clientMove hn)⟩
  · rintro before m l t ⟨hcounted, halive⟩ hn
    refine and_congr_right fun hfit => ⟨fun h => programsKept_of_alive hcounted hn (h t hn), ?_⟩
    exact fun hkept t' hn' => halive.move hcounted hfit hkept (clientMove hn')

/-- Two launches of a kernel that the client releases while the second one waits. -/
theorem pending_alive_iff_two : ∃ (bits : Bitstreams) (s t : ClientRun 1)
    (ls : List (ClientLabel 1)), ls.length = 10 ∧ (clientSystem 1 bits).run s ls = some t ∧
      ((clientSystem 1 bits).Always PendingAlive s ls ↔
        (clientSystem 1 bits).Throughout (fun _ m l => m.ProgramsKept l) s ls) := by
  let bits : Bitstreams := ⟨fun _ => none, fun _ => some 2⟩
  let ls : List (ClientLabel 1) := [.createProgram "", .createKernel 0, .enqueueNdrange 0 0 6 2,
    .enqueueNdrange 0 0 4 2, .releaseKernel 0] ++ List.replicate 5 (.loop 0 0 ⟨none, 0⟩)
  have hrun : ((Global.new (fun _ : Fin 1 => (0, 1, 1)) (fun _ => none) fun _ => 0).bind fun g =>
      ((clientSystem 1 bits).runWhere (fun m l => decide (m.CountsFit l))
        (ClientRun.new (Runtime.new g (fun _ => 0) fun _ => 0)) ls).map fun _ => ()) =
      some () := by
    decide +kernel
  obtain ⟨g, hg, hrun⟩ := Option.bind_eq_some_iff.mp hrun
  obtain ⟨t, hwhere, -⟩ := Option.map_eq_some_iff.mp hrun
  have ht := Machine.run_of_runWhere hwhere
  refine ⟨bits, _, t, ls, rfl, ht, pending_alive_iff ⟨_, ⟨_, _, _, g, _, _, hg, rfl⟩, rfl⟩ ht ?_⟩
  intro before l since heq m hm
  exact of_decide_eq_true (Machine.throughout_of_runWhere hwhere before l since heq m hm)

/-- The client releases the program right after the enqueue. -/
theorem program_released_under_launch : ∃ (bits : Bitstreams) (t : ClientRun 1),
    (clientSystem 1 bits).Reachable t ∧ ¬ t.PendingAlive := by
  let bits : Bitstreams := ⟨fun _ => none, fun _ => some 2⟩
  have hrun : (Global.new (fun _ : Fin 1 => (0, 1, 1)) (fun _ => none) fun _ => 0).bind (fun g =>
      ((clientSystem 1 bits).run (ClientRun.new (Runtime.new g (fun _ => 0) fun _ => 0))
        [.createProgram "", .createKernel 0, .enqueueNdrange 0 0 6 2, .releaseProgram 0]).map
          fun t => ((t.queue 0).ring.map fun c => (c.event, c.body.kernel), (t.kernels 0).program,
            (t.programs 0).counter.deleted)) = some ([(0, some 0)], 0, true) := by
    decide +kernel
  obtain ⟨g, hg, hrun⟩ := Option.bind_eq_some_iff.mp hrun
  obtain ⟨t, ht, hfields⟩ :=
    Machine.exists_reachable hrun ⟨_, ⟨_, _, _, g, _, _, hg, rfl⟩, rfl⟩
  simp only [Prod.mk.injEq] at hfields
  obtain ⟨hring, hprogram, hdeleted⟩ := hfields
  refine ⟨bits, t, ht, fun halive => ?_⟩
  have hmem : (0, some 0) ∈ (t.queue 0).ring.map fun c => (c.event, c.body.kernel) := by
    rw [hring]
    exact List.mem_singleton_self _
  obtain ⟨cmd, hcmd, hpair⟩ := List.mem_map.mp hmem
  obtain ⟨hevent, hkernel⟩ := Prod.mk.inj hpair
  have hgone := (halive (.command 0 0) 0 ⟨0, 0⟩ ⟨rfl, cmd, hcmd, hevent, hkernel⟩).2
  rw [hprogram, hdeleted] at hgone
  cases hgone

end ClientRun

end FpgaMl
