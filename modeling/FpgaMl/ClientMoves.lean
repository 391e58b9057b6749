import Mathlib.Tactic
import FpgaMl.LaunchSteps

/-! # The steps of the client's system

Each step in cases, what it leaves alone, and the identities that every run keeps: commands have
numbers of their own, and a kernel that somebody refers to was created. -/
namespace FpgaMl
open MachineInt TransitionSystem
set_option autoImplicit false

variable {n : ℕ} {bits : Bitstreams} {s t : ClientRun n} {l : ClientLabel n}

/-! ## The steps -/

inductive ClientMove (bits : Bitstreams) (s : ClientRun n) : ClientLabel n → ClientRun n → Prop
  | createProgram (xmlName : String) :
      ClientMove bits s (.createProgram xmlName) (s.createProgram xmlName)
  | createKernel (p : ℕ) : ClientMove bits s (.createKernel p) (s.createKernel p)
  | setKernelArg {k : ℕ} {call : ArgCall} {args : List (Option KernelArg)} :
      s.kernelHandles k = true → setArgs (s.kernels k).argsVector call = some args →
      ClientMove bits s (.setKernelArg k call)
        (s.setKernel k { s.kernels k with argsVector := args })
  | enqueueNdrange (q k globalWorkSize localWorkSize : ℕ) : s.kernelHandles k = true →
      ClientMove bits s (.enqueueNdrange q k globalWorkSize localWorkSize)
        ((s.upKernel k).submit q (s.ndrangeBody k globalWorkSize localWorkSize))
  | enqueue (q : ℕ) {body : CommandBody} : body.kernel = none →
      ClientMove bits s (.enqueue q body) (s.submit q body)
  | releaseKernel {k : ℕ} : s.kernelHandles k = true →
      ClientMove bits s (.releaseKernel k) (s.releaseKernel k)
  | releaseProgram (p : ℕ) : ClientMove bits s (.releaseProgram p) (s.releaseProgram p)
  | releaseQueue (q : ℕ) : ClientMove bits s (.releaseQueue q) (s.releaseQueue q)
  | hand {q : ℕ} {now : ℚ} {env : KernelEnv} {cmd : MLCLCommand} {r : Runtime n} :
      (s.queue q).point = .popping → (s.queue q).ring.head? = some cmd →
      s.runtime.handOver bits now env q = some r → ClientMove bits s (.loop q now env)
        { cmd.body.launched.elim s s.upKernel with runtime := r, current := cmd.body.kernel }
  | goOn {q : ℕ} {now : ℚ} {env : KernelEnv} {r : Runtime n} : (s.queue q).point ≠ .popping →
      s.runtime.loopStep bits now env q = some r →
      ClientMove bits s (.loop q now env) { s with runtime := r }
  | leave {q : ℕ} {now : ℚ} {env : KernelEnv} {r : Runtime n} : (s.queue q).point ≠ .popping →
      s.runtime.loopStep bits now env q = some r →
      ClientMove bits s (.loop q now env) { s.deleteCommand with runtime := r }
  | fire {i : Fin n} {now : ℚ} {r : Runtime n} : s.runtime.fire now i = some r →
      ClientMove bits s (.fire i now)
        { (s.runtime.global.finishing i).elim s (fun x => s.downKernel x.kernel.handle) with
          runtime := r }

theorem kernel_of_not_ndrange {body : CommandBody} (h : body.isNdrange = false) :
    body.kernel = none := by
  cases body with
  | ndrange args => cases h
  | writeBuffer | readBuffer | empty => rfl

theorem clientMove (h : (clientSystem n bits).next s l = some t) : ClientMove bits s l t := by
  cases l with
  | createProgram xmlName => exact Option.some.inj h ▸ .createProgram xmlName
  | createKernel p =>
    obtain ⟨-, h⟩ := Option.ite_none_right_eq_some.mp h
    exact Option.some.inj h ▸ .createKernel p
  | setKernelArg k call =>
    obtain ⟨hk, h⟩ := Option.ite_none_right_eq_some.mp h
    obtain ⟨args, hargs, rfl⟩ := Option.map_eq_some_iff.mp h
    exact .setKernelArg hk hargs
  | enqueueNdrange q k globalWorkSize localWorkSize =>
    obtain ⟨⟨hk, -⟩, h⟩ := Option.ite_none_right_eq_some.mp h
    obtain ⟨-, h⟩ := Option.ite_none_right_eq_some.mp h
    exact Option.some.inj h ▸ .enqueueNdrange q k globalWorkSize localWorkSize hk
  | enqueue q body =>
    obtain ⟨⟨-, hbody, -⟩, h⟩ := Option.ite_none_right_eq_some.mp h
    exact Option.some.inj h ▸ .enqueue q (kernel_of_not_ndrange hbody)
  | releaseKernel k =>
    obtain ⟨hk, h⟩ := Option.ite_none_right_eq_some.mp h
    exact Option.some.inj h ▸ .releaseKernel hk
  | releaseProgram p =>
    obtain ⟨-, h⟩ := Option.ite_none_right_eq_some.mp h
    exact Option.some.inj h ▸ .releaseProgram p
  | releaseQueue q =>
    obtain ⟨-, h⟩ := Option.ite_none_left_eq_some.mp h
    exact Option.some.inj h ▸ .releaseQueue q
  | loop q now env =>
    obtain ⟨-, h⟩ := Option.ite_none_right_eq_some.mp h
    unfold ClientRun.loopStep at h
    split at h
    · rename_i hpoint
      obtain ⟨cmd, hcmd, h⟩ := Option.bind_eq_some_iff.mp h
      obtain ⟨r, hr, h⟩ := Option.bind_eq_some_iff.mp h
      exact Option.some.inj h ▸ .hand hpoint hcmd hr
    · rename_i hpoint
      obtain ⟨r, hr, rfl⟩ := Option.map_eq_some_iff.mp h
      split
      · exact .leave hpoint hr
      · exact .goOn hpoint hr
  | fire i now =>
    obtain ⟨-, h⟩ := Option.ite_none_right_eq_some.mp h
    obtain ⟨r, hr, rfl⟩ := Option.map_eq_some_iff.mp h
    exact .fire hr

namespace ClientRun

/-! ## What counting leaves alone -/

/-- The two states differ in the library and in the counters of the kernels only. -/
structure Recounts (s t : ClientRun n) : Prop where
  programs : t.programs = s.programs
  kernelHandles : t.kernelHandles = s.kernelHandles
  nextKernel : t.nextKernel = s.nextKernel
  program : ∀ k, (t.kernels k).program = (s.kernels k).program
  argsVector : ∀ k, (t.kernels k).argsVector = (s.kernels k).argsVector

theorem Recounts.refl (s : ClientRun n) : s.Recounts s :=
  ⟨rfl, rfl, rfl, fun _ => rfl, fun _ => rfl⟩

theorem recounts_setKernel (s : ClientRun n) (k : ℕ) (counter : RefCounter) :
    s.Recounts (s.setKernel k { s.kernels k with counter := counter }) := by
  refine ⟨rfl, rfl, rfl, fun j => ?_, fun j => ?_⟩
  · change (Function.update s.kernels k _ j).program = _
    rw [Function.update_apply]
    split <;> simp_all
  · change (Function.update s.kernels k _ j).argsVector = _
    rw [Function.update_apply]
    split <;> simp_all

theorem Recounts.setRuntime (h : s.Recounts t) (r : Runtime n) (current : Option ℕ) :
    s.Recounts { t with runtime := r, current := current } :=
  ⟨h.programs, h.kernelHandles, h.nextKernel, h.program, h.argsVector⟩

theorem recounts_elim {α : Type} {f : α → ClientRun n} (h : ∀ a, s.Recounts (f a)) (o : Option α) :
    s.Recounts (o.elim s f) := by
  cases o with
  | none => exact .refl s
  | some a => exact h a

/-- The steps other than the calls on the programs and kernels themselves. -/
def OnlyCounts : ClientLabel n → Bool
  | .enqueueNdrange .. | .enqueue .. | .releaseQueue _ | .loop .. | .fire .. => true
  | _ => false

theorem recounts_of_move (h : ClientMove bits s l t) (hl : OnlyCounts l = true) : s.Recounts t := by
  cases h with
  | createProgram | createKernel | setKernelArg | releaseKernel | releaseProgram => cases hl
  | enqueue | releaseQueue | goOn => exact (Recounts.refl s).setRuntime _ _
  | enqueueNdrange q k => exact (recounts_setKernel s k _).setRuntime _ _
  | hand => exact (recounts_elim (fun k => recounts_setKernel s k _) _).setRuntime _ _
  | leave => exact (recounts_elim (fun k => recounts_setKernel s k _) _).setRuntime _ _
  | fire => exact (recounts_elim (fun x => recounts_setKernel s _ _) _).setRuntime _ _

/-! ## The queues -/

/-- What a step does to one queue. -/
inductive QueueChange (s : QueueRun) : QueueRun → Prop
  | same : QueueChange s s
  | submit (body : CommandBody) : QueueChange s (s.submit body)
  | release : QueueChange s { s with queue := s.queue.refCntDown }
  | loop {t : QueueRun} : QueueRun.LoopMove s t → QueueChange s t
  | complete (event : ℕ) : QueueChange s (s.setAsComplete event)

theorem QueueChange.update {queues : ℕ → QueueRun} {q : ℕ} {x : QueueRun}
    (h : QueueChange (queues q) x) (p : ℕ) :
    QueueChange (queues p) (Function.update queues q x p) := by
  obtain rfl | hp := eq_or_ne p q
  · rwa [Function.update_self]
  · rw [Function.update_of_ne hp]
    exact .same

theorem queueChange (h : ClientMove bits s l t) (p : ℕ) : QueueChange (s.queue p) (t.queue p) := by
  cases h with
  | createProgram | createKernel | setKernelArg | releaseKernel | releaseProgram => exact .same
  | enqueueNdrange | enqueue => exact QueueChange.update (.submit _) p
  | releaseQueue => exact QueueChange.update .release p
  | @hand q _ _ _ r hpoint _ hr =>
    obtain ⟨-, x, hx, -, hqueues, -⟩ := Runtime.handOver_launches hr
    change QueueChange (s.runtime.queues p) (r.queues p)
    rw [hqueues]
    exact QueueChange.update (.loop (.hand hpoint hx)) p
  | @goOn q _ _ r hpoint hr | @leave q _ _ r hpoint hr =>
    obtain ⟨x, hx, -, -, hqueues, -⟩ := Runtime.loopStep_launches hpoint hr
    change QueueChange (s.runtime.queues p) (r.queues p)
    rw [hqueues]
    exact QueueChange.update (.loop (QueueRun.loopMove hx)) p
  | @fire _ _ r hr =>
    obtain ⟨-, hqueues, -⟩ := Runtime.fire_launches hr
    change QueueChange (s.runtime.queues p) (r.queues p)
    obtain hq | ⟨e, hq⟩ := hqueues p
    · rw [hq]
      exact .same
    · rw [hq]
      exact .complete e

theorem QueueChange.served {x y : QueueRun} (h : QueueChange x y) (hx : x.Served) : y.Served := by
  cases h with
  | same => exact hx
  | submit body => exact hx.submit body
  | release => exact hx.refCntDown
  | loop hm => exact hx.loop hm
  | complete event => exact hx.setAsComplete event

theorem QueueChange.nextCommand_le {x y : QueueRun} (h : QueueChange x y) :
    x.nextCommand ≤ y.nextCommand := by
  cases h with
  | same | release | complete => exact le_rfl
  | submit body =>
    obtain ⟨-, -, -, -, -, -, hnext, -⟩ := x.submit_frame body
    omega
  | loop hm =>
    cases hm with
    | hand _ ht =>
      obtain ⟨-, -, -, -, -, -, -, -, -, hnext, -⟩ := QueueRun.handOver_spec ht
      exact hnext.ge
    | invoke | findEmpty | pass | wait | feedItself | leave | destroy | live => exact le_rfl

theorem ring_refCntDown (x : QueueRun) :
    ({ x with queue := x.queue.refCntDown } : QueueRun).ring = x.ring := by
  unfold CommandQueue.refCntDown
  split <;> rfl

/-! ## The launches -/

/-- A launch was there before, or it is the one enqueued. -/
theorem carries_of_move (h : ClientMove bits s l t) {ref : LaunchRef} {k : ℕ} {e : EventRef}
    (hc : t.runtime.Carries ref k e) : (∃ ref', s.runtime.Carries ref' k e) ∨
      ∃ q globalWorkSize localWorkSize, l = .enqueueNdrange q k globalWorkSize localWorkSize ∧
        s.kernelHandles k = true ∧ (s.queue q).Takes ∧ e = ⟨q, (s.queue q).nextCommand⟩ := by
  cases h with
  | createProgram | createKernel | setKernelArg | releaseKernel | releaseProgram =>
    exact Or.inl ⟨ref, hc⟩
  | enqueueNdrange q j globalWorkSize localWorkSize hj =>
    obtain hc | ⟨htakes, hkernel, -, he⟩ := Runtime.carries_submit hc
    · exact Or.inl ⟨ref, hc⟩
    · obtain rfl : j = k := Option.some.inj hkernel
      exact Or.inr ⟨q, globalWorkSize, localWorkSize, rfl, hj, htakes, he⟩
  | enqueue q hbody =>
    obtain hc | ⟨-, hkernel, -⟩ := Runtime.carries_submit hc
    · exact Or.inl ⟨ref, hc⟩
    · cases hbody.symm.trans hkernel
  | releaseQueue q =>
    exact Or.inl ⟨ref, Runtime.carries_setQueue (fun _ => (ring_refCntDown (s.queue q) ▸ ·)) hc⟩
  | hand _ hhead hr =>
    obtain hc | ⟨-, -, hc⟩ := Runtime.carries_handOver hr hhead hc
    · exact Or.inl ⟨ref, hc⟩
    · exact Or.inl ⟨_, hc⟩
  | goOn hpoint hr | leave hpoint hr =>
    exact Or.inl ⟨ref, Runtime.carries_loopStep hpoint hr hc⟩
  | fire hr => exact Or.inl ⟨ref, (Runtime.carries_fire hr).1 ref k e hc⟩

/-! ## The identities -/

/-- Every launch has a number that its queue has given out, and the kernels that the client, a
launch or the callback refers to were created. -/
structure Coherent (s : ClientRun n) : Prop where
  served : ∀ q, (s.queue q).Served
  numbered : ∀ ref k e, s.runtime.Carries ref k e → e.command < (s.queue e.queue).nextCommand
  handles : ∀ k, s.kernelHandles k = true → k < s.nextKernel
  launches : ∀ ref k e, s.runtime.Carries ref k e → k < s.nextKernel
  current : ∀ k, s.current = some k → k < s.nextKernel

theorem not_carries_start {r : Runtime n} (h : (library n bits).start r) {ref : LaunchRef} {k : ℕ}
    {e : EventRef} : ¬ r.Carries ref k e := by
  obtain ⟨prs, cost, ends, g, memory, user, hg, rfl⟩ := h
  cases ref with
  | command q event =>
    rintro ⟨-, cmd, hcmd, -⟩
    have hring : QueueRun.new.ring = [] := CircArray.toList_new 100
    change cmd ∈ QueueRun.new.ring at hcmd
    rw [hring] at hcmd
    cases hcmd
  | ndrange cell =>
    intro h
    change (g.ndranges cell).map _ = _ at h
    rw [(Global.new_spec hg).2.1] at h
    cases h

theorem coherent_start (h : (clientSystem n bits).start s) : s.Coherent := by
  obtain ⟨r, hr, rfl⟩ := h
  have hnone : ∀ ref k e, ¬ r.Carries ref k e := fun _ _ _ => not_carries_start hr
  obtain ⟨prs, cost, ends, g, memory, user, -, rfl⟩ := hr
  exact ⟨fun _ => QueueRun.Served.new, fun ref k e hc => absurd hc (hnone ref k e), fun _ => nofun,
    fun ref k e hc => absurd hc (hnone ref k e), fun _ => nofun⟩

theorem handles_of_move (h : ClientMove bits s l t) : s.nextKernel ≤ t.nextKernel ∧
    ∀ k, t.kernelHandles k = true → s.kernelHandles k = true ∨ k < t.nextKernel := by
  by_cases hl : OnlyCounts l = true
  · have hframe := recounts_of_move h hl
    exact ⟨hframe.nextKernel.ge, fun k hk => Or.inl (hframe.kernelHandles ▸ hk)⟩
  · cases h with
    | createProgram | setKernelArg | releaseProgram => exact ⟨le_rfl, fun _ => Or.inl⟩
    | createKernel p =>
      refine ⟨Nat.le_succ _, fun k hk => ?_⟩
      obtain rfl | hne := eq_or_ne k s.nextKernel
      · exact Or.inr (Nat.lt_succ_self _)
      · change Function.update s.kernelHandles s.nextKernel true k = true at hk
        rw [Function.update_of_ne hne] at hk
        exact Or.inl hk
    | @releaseKernel j _ =>
      refine ⟨le_rfl, fun k hk => ?_⟩
      change Function.update s.kernelHandles j false k = true at hk
      obtain rfl | hne := eq_or_ne k j
      · rw [Function.update_self] at hk
        cases hk
      · rw [Function.update_of_ne hne] at hk
        exact Or.inl hk
    | enqueueNdrange | enqueue | releaseQueue | hand | goOn | leave | fire => exact absurd rfl hl

/-- The callback takes its command from the ring. -/
theorem current_of_move (h : ClientMove bits s l t) {k : ℕ} (hk : t.current = some k) :
    s.current = some k ∨ ∃ ref e, s.runtime.Carries ref k e := by
  cases h with
  | createProgram | createKernel | setKernelArg | enqueueNdrange | enqueue | releaseKernel
  | releaseProgram | releaseQueue | goOn => exact Or.inl hk
  | @hand q _ _ cmd _ _ hhead _ =>
    exact Or.inr ⟨.command q cmd.event, ⟨q, cmd.event⟩, rfl, cmd, List.mem_of_mem_head? hhead, rfl, hk⟩
  | leave => cases hk
  | @fire i _ _ _ =>
    left
    cases hfinishing : s.runtime.global.finishing i with
    | none =>
      rw [hfinishing] at hk
      exact hk
    | some x =>
      rw [hfinishing] at hk
      exact hk

theorem nextCommand_submit (s : ClientRun n) (q : ℕ) (body : CommandBody) :
    ((s.submit q body).queue q).nextCommand = (s.queue q).nextCommand + 1 := by
  obtain ⟨-, -, -, -, -, -, hnext, -⟩ := (s.queue q).submit_frame body
  change (Function.update s.runtime.queues q _ q).nextCommand = _
  rw [Function.update_self]
  exact hnext

theorem Coherent.move (hs : s.Coherent) (h : ClientMove bits s l t) : t.Coherent := by
  obtain ⟨hnext, hhandles⟩ := handles_of_move h
  refine ⟨fun q => (queueChange h q).served (hs.served q), fun ref k e hc => ?_, fun k hk => ?_,
    fun ref k e hc => ?_, fun k hk => ?_⟩
  · have hle := (queueChange h e.queue).nextCommand_le
    obtain ⟨ref', hc⟩ | ⟨q, _, _, rfl, -, -, rfl⟩ := carries_of_move h hc
    · exact (hs.numbered ref' k e hc).trans_le hle
    · cases h with
      | enqueueNdrange _ _ _ _ _ =>
        rw [nextCommand_submit]
        exact Nat.lt_succ_self _
  · obtain hk | hk := hhandles k hk
    · exact (hs.handles k hk).trans_le hnext
    · exact hk
  · obtain ⟨ref', hc⟩ | ⟨q, _, _, -, hk, -⟩ := carries_of_move h hc
    · exact (hs.launches ref' k e hc).trans_le hnext
    · exact (hs.handles k hk).trans_le hnext
  · obtain hk | ⟨ref, e, hc⟩ := current_of_move h hk
    · exact (hs.current k hk).trans_le hnext
    · exact (hs.launches ref k e hc).trans_le hnext

theorem coherent (h : (clientSystem n bits).Reachable s) : s.Coherent :=
  h.invariant (fun _ => coherent_start) fun _ _ _ hs hn => hs.move (clientMove hn)

end ClientRun

end FpgaMl
