import Mathlib.Tactic
import FpgaMl.ClientMoves

/-! # The arguments that a work-group range reads

Neither the command nor the `NDRange` copies the arguments of its kernel: `get_kernel_args` asks the
kernel object at the time of the call. A range sees the arguments of the enqueue with all calls of
`clSetKernelArg` on the same kernel since. -/
namespace FpgaMl
open MachineInt TransitionSystem
set_option autoImplicit false

variable {n : ℕ} {bits : Bitstreams} {s t u u' : ClientRun n} {l : ClientLabel n}

/-- The call on the kernel `k` that a label is, if it is one. -/
def argCall (k : ℕ) : ClientLabel n → Option ArgCall
  | .setKernelArg kernel call => if kernel = k then some call else none
  | _ => none

/-- The calls of `clSetKernelArg` on the kernel `k`, in their order. -/
def argCalls (k : ℕ) (ls : List (ClientLabel n)) : List ArgCall := ls.filterMap (argCall k)

/-- What a step does to the arguments of the kernel `k`. -/
def stepArgs (k : ℕ) (args : List (Option KernelArg)) (l : ClientLabel n) :
    Option (List (Option KernelArg)) :=
  match argCall k l with
  | some call => setArgs args call
  | none => some args

theorem foldlM_argCalls (k : ℕ) (ls : List (ClientLabel n)) (args : List (Option KernelArg)) :
    (argCalls k ls).foldlM setArgs args = ls.foldlM (stepArgs k) args := by
  unfold argCalls
  rw [List.foldlM_filterMap]
  congr
  funext args l
  unfold stepArgs
  cases argCall k l <;> rfl

namespace ClientRun

/-- The range `w` is one of the ND-range that completes the event `e`. -/
def RangeOf (s : ClientRun n) (w : WorkGroupRange) (e : EventRef) : Prop :=
  (w.parentNdrange.bind s.runtime.global.ndranges).map NDRange.event = some e

instance (s : ClientRun n) (w : WorkGroupRange) (e : EventRef) : Decidable (s.RangeOf w e) :=
  inferInstanceAs (Decidable (_ = _))

/-! ## One step -/

/-- Only a call on the kernel itself changes its arguments. -/
theorem args_of_move {k : ℕ} (hk : k < s.nextKernel) (h : ClientMove bits s l t) :
    stepArgs k (s.kernels k).argsVector l = some (t.kernels k).argsVector := by
  by_cases hl : OnlyCounts l = true
  · rw [(recounts_of_move h hl).argsVector]
    cases h with
    | createProgram | createKernel | setKernelArg | releaseKernel | releaseProgram => cases hl
    | enqueueNdrange | enqueue | releaseQueue | hand | goOn | leave | fire => rfl
  · cases h with
    | createProgram | releaseProgram => rfl
    | createKernel p =>
      change _ = some (Function.update s.kernels s.nextKernel _ k).argsVector
      rw [Function.update_of_ne hk.ne]
      rfl
    | @setKernelArg j call args _ hargs =>
      change _ = some (Function.update s.kernels j _ k).argsVector
      obtain rfl | hne := eq_or_ne j k
      · rw [Function.update_self, stepArgs, argCall, if_pos rfl]
        exact hargs
      · rw [Function.update_of_ne hne.symm, stepArgs, argCall, if_neg hne]
    | @releaseKernel j _ => exact congrArg some ((recounts_setKernel s j _).argsVector k).symm
    | enqueueNdrange | enqueue | releaseQueue | hand | goOn | leave | fire => exact absurd rfl hl

/-- All that is on its way to complete the event `e` launches the kernel `k`. -/
structure Launching (k : ℕ) (e : EventRef) (s : ClientRun n) : Prop where
  kernel : ∀ ref j, s.runtime.Carries ref j e → j = k
  numbered : e.command < (s.queue e.queue).nextCommand
  created : k < s.nextKernel

theorem launching_enqueue {q k globalWorkSize localWorkSize : ℕ} (hs : s.Coherent)
    (h : ClientMove bits s (.enqueueNdrange q k globalWorkSize localWorkSize) t) :
    t.Launching k ⟨q, (s.queue q).nextCommand⟩ := by
  have ht := hs.move h
  have hmove := h
  cases h with
  | enqueueNdrange _ _ _ _ hk =>
    refine ⟨fun ref j hc => ?_, ?_, hs.handles k hk⟩
    · obtain ⟨ref', hc⟩ | ⟨q', _, _, heq, -⟩ := carries_of_move hmove hc
      · exact absurd (hs.numbered ref' j _ hc) (lt_irrefl _)
      · cases heq
        rfl
    · rw [nextCommand_submit]
      exact Nat.lt_succ_self _

theorem Launching.move {k : ℕ} {e : EventRef} (hs : s.Launching k e) (h : ClientMove bits s l t) :
    t.Launching k e := by
  refine ⟨fun ref j hc => ?_, hs.numbered.trans_le (queueChange h e.queue).nextCommand_le,
    hs.created.trans_le (handles_of_move h).1⟩
  obtain ⟨ref', hc⟩ | ⟨q, _, _, -, -, -, rfl⟩ := carries_of_move h hc
  · exact hs.kernel ref' j hc
  · exact absurd hs.numbered (lt_irrefl _)

/-! ## A run after an enqueue -/

theorem getKernelArgs_of_launching {k : ℕ} {e : EventRef} {w : WorkGroupRange}
    (hs : s.Launching k e) (hw : s.RangeOf w e) : s.getKernelArgs w = (s.kernels k).argsVector := by
  obtain ⟨r, hr, hevent⟩ := Option.map_eq_some_iff.mp hw
  obtain ⟨d, -, hd⟩ := Option.bind_eq_some_iff.mp hr
  have hc : s.runtime.Carries (.ndrange d) r.kernel.handle e := by
    change (s.runtime.global.ndranges d).map _ = _
    rw [hd, Option.map_some, hevent]
  unfold getKernelArgs
  rw [hr]
  exact congrArg (fun j => (s.kernels j).argsVector) (hs.kernel _ _ hc)

theorem args_of_run {k : ℕ} {e : EventRef} {w : WorkGroupRange} {after : List (ClientLabel n)}
    (ht : t.Launching k e) (hrun : (clientSystem n bits).run t after = some u)
    (hw : u.RangeOf w e) :
    (argCalls k after).foldlM setArgs (t.kernels k).argsVector = some (u.getKernelArgs w) := by
  obtain ⟨hu, hargs⟩ := Machine.run_observes (I := Launching k e) (f := stepArgs k)
    (o := fun s => (s.kernels k).argsVector)
    (fun _ _ _ hs hn => ⟨hs.move (clientMove hn), args_of_move hs.created (clientMove hn)⟩) ht hrun
  rw [getKernelArgs_of_launching hu hw, ← hargs]
  exact foldlM_argCalls k after _

/-- A range of an ND-range yields the arguments that the kernel had at the enqueue, with the calls
of `clSetKernelArg` on this kernel since the enqueue applied in their order. Nothing else that
happens after the enqueue makes a difference. -/
theorem args_when_read {q k globalWorkSize localWorkSize : ℕ} {w : WorkGroupRange}
    {after : List (ClientLabel n)} (hs : (clientSystem n bits).Reachable s)
    (hn : (clientSystem n bits).next s
      (.enqueueNdrange q k globalWorkSize localWorkSize) = some t)
    (hrun : (clientSystem n bits).run t after = some u)
    (hw : u.RangeOf w ⟨q, (s.queue q).nextCommand⟩) :
    (argCalls k after).foldlM setArgs (s.kernels k).argsVector = some (u.getKernelArgs w) ∧
      ∀ after' u' w', (clientSystem n bits).run t after' = some u' →
        u'.RangeOf w' ⟨q, (s.queue q).nextCommand⟩ → argCalls k after' = argCalls k after →
        u'.getKernelArgs w' = u.getKernelArgs w := by
  have hmove := clientMove hn
  have ht := launching_enqueue (coherent hs) hmove
  have hargs : (t.kernels k).argsVector = (s.kernels k).argsVector := by
    have hk := (Option.ite_none_right_eq_some.mp hn).1.1
    exact (Option.some.inj (args_of_move ((coherent hs).handles k hk) hmove)).symm
  rw [← hargs]
  have hread := args_of_run ht hrun hw
  refine ⟨hread, fun after' u' w' hrun' hw' hcalls => ?_⟩
  have hread' := args_of_run ht hrun' hw'
  rw [hcalls] at hread'
  exact Option.some.inj (hread'.symm.trans hread)

/-- One launch continued in two ways, without and with a call of `clSetKernelArg` right after the
enqueue. -/
theorem continuations : ∃ (bits : Bitstreams) (s t u u' : ClientRun 1) (w w' : WorkGroupRange),
    (clientSystem 1 bits).Reachable s ∧
      (clientSystem 1 bits).next s (.enqueueNdrange 0 0 6 2) = some t ∧
      (clientSystem 1 bits).run t (List.replicate 5 (.loop 0 0 ⟨none, 0⟩)) = some u ∧
      (clientSystem 1 bits).run t (.setKernelArg 0 ⟨0, 1, some [2]⟩ ::
        List.replicate 5 (.loop 0 0 ⟨none, 0⟩)) = some u' ∧
      u.RangeOf w ⟨0, (s.queue 0).nextCommand⟩ ∧ u'.RangeOf w' ⟨0, (s.queue 0).nextCommand⟩ ∧
      (s.kernels 0).argsVector = [some ⟨some [1], 1⟩] ∧
      u.getKernelArgs w = [some ⟨some [1], 1⟩] ∧ u'.getKernelArgs w' = [some ⟨some [2], 1⟩] := by
  let bits : Bitstreams := ⟨fun _ => none, fun _ => some 2⟩
  let system := clientSystem 1 bits
  let front (u : ClientRun 1) := (u.runtime.global.schedulers 0).inQueue.popFront.map Prod.fst
  have hrun : (Global.new (fun _ : Fin 1 => (0, 1, 1)) (fun _ => none) fun _ => 0).bind (fun g =>
      (system.run (ClientRun.new (Runtime.new g (fun _ => 0) fun _ => 0))
        [.createProgram "", .createKernel 0, .setKernelArg 0 ⟨0, 1, some [1]⟩]).bind fun s =>
      (system.next s (.enqueueNdrange 0 0 6 2)).bind fun t =>
      (system.run t (List.replicate 5 (.loop 0 0 ⟨none, 0⟩))).bind fun u =>
      (system.run t (.setKernelArg 0 ⟨0, 1, some [2]⟩ ::
        List.replicate 5 (.loop 0 0 ⟨none, 0⟩))).bind fun u' =>
      (front u).bind fun w => (front u').map fun w' =>
        decide (u.RangeOf w ⟨0, (s.queue 0).nextCommand⟩ ∧
          u'.RangeOf w' ⟨0, (s.queue 0).nextCommand⟩ ∧
          (s.kernels 0).argsVector = [some ⟨some [1], 1⟩] ∧
          u.getKernelArgs w = [some ⟨some [1], 1⟩] ∧ u'.getKernelArgs w' = [some ⟨some [2], 1⟩])) =
      some true := by
    decide +kernel
  obtain ⟨g, hg, hrun⟩ := Option.bind_eq_some_iff.mp hrun
  obtain ⟨s, hs, hrun⟩ := Option.bind_eq_some_iff.mp hrun
  obtain ⟨t, ht, hrun⟩ := Option.bind_eq_some_iff.mp hrun
  obtain ⟨u, hu, hrun⟩ := Option.bind_eq_some_iff.mp hrun
  obtain ⟨u', hu', hrun⟩ := Option.bind_eq_some_iff.mp hrun
  obtain ⟨w, -, hrun⟩ := Option.bind_eq_some_iff.mp hrun
  obtain ⟨w', -, hfields⟩ := Option.map_eq_some_iff.mp hrun
  have hreach : system.Reachable s :=
    Machine.Reachable.run (.start ⟨_, ⟨_, _, _, g, _, _, hg, rfl⟩, rfl⟩) hs
  exact ⟨bits, s, t, u, u', w, w', hreach, ht, hu, hu', of_decide_eq_true hfields⟩

theorem args_when_read_rewritten : ∃ (bits : Bitstreams) (s u : ClientRun 1) (w : WorkGroupRange),
    (clientSystem 1 bits).Reachable s ∧
      (argCalls 0 (n := 1) [.setKernelArg 0 ⟨0, 1, some [2]⟩]).foldlM setArgs
        (s.kernels 0).argsVector = some (u.getKernelArgs w) := by
  obtain ⟨bits, s, t, u, u', w, w', hs, ht, hu, hu', hw, hw', -⟩ := continuations
  exact ⟨bits, s, u', w', hs, (args_when_read hs ht hu' hw').1⟩

/-- The ranges of an ND-range yield arguments that the kernel did not have at the enqueue, and a call
of `clSetKernelArg` after the enqueue makes the difference. -/
theorem args_rewritten_after_enqueue : ∃ (bits : Bitstreams) (s t u u' : ClientRun 1)
    (w w' : WorkGroupRange), (clientSystem 1 bits).Reachable s ∧
      (clientSystem 1 bits).next s (.enqueueNdrange 0 0 6 2) = some t ∧
      (clientSystem 1 bits).run t (List.replicate 5 (.loop 0 0 ⟨none, 0⟩)) = some u ∧
      (clientSystem 1 bits).run t (.setKernelArg 0 ⟨0, 1, some [2]⟩ ::
        List.replicate 5 (.loop 0 0 ⟨none, 0⟩)) = some u' ∧
      u.RangeOf w ⟨0, (s.queue 0).nextCommand⟩ ∧ u'.RangeOf w' ⟨0, (s.queue 0).nextCommand⟩ ∧
      u'.getKernelArgs w' ≠ (s.kernels 0).argsVector ∧
      u'.getKernelArgs w' ≠ u.getKernelArgs w := by
  obtain ⟨bits, s, t, u, u', w, w', hs, ht, hu, hu', hw, hw', hargs, hread, hread'⟩ := continuations
  refine ⟨bits, s, t, u, u', w, w', hs, ht, hu, hu', hw, hw', ?_, ?_⟩
  · rw [hread', hargs]
    decide
  · rw [hread', hread]
    decide

end ClientRun

end FpgaMl
