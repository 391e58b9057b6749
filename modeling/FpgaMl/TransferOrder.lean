import Mathlib.Tactic
import FpgaMl.BufferStore
import FpgaMl.EnqueueCalls
import FpgaMl.LibraryQueues

/-! # One order of all transfers

The library in a process that changes its own memory at any time. The writes and reads of a run, in
the order of its steps, are operations of a map: the order keeps that of every queue, a write stores
what the process's memory holds at its step, a read puts there what the last write before it stored,
and every event has the code of its own transfer. -/
namespace FpgaMl
open ByteMemory MachineInt TransitionSystem
set_option autoImplicit false

variable {n : ℕ}

/-! ## Runs of the map -/

/-- What a run of the map holds under `m` was stored under `m`, and nothing was since. -/
theorem bufferMap_latest {ops : List MapLabel} {c : ℕ → Option (List UInt8)} {m : ℕ}
    {bs : List UInt8} (h : bufferMap.run (fun _ => none) ops = some c) (hm : c m = some bs) :
    ∃ older newer, ops = older ++ .store m bs :: newer ∧ ∀ bytes, .store m bytes ∉ newer := by
  induction ops using List.reverseRecOn generalizing c with
  | nil =>
    obtain rfl := Option.some.inj h
    cases hm
  | append_singleton ops op ih =>
    obtain ⟨d, hd, hn⟩ := Machine.run_concat h
    have hkeep : d m = some bs → (∀ bytes, op ≠ .store m bytes) → ∃ older newer,
        ops ++ [op] = older ++ .store m bs :: newer ∧ ∀ bytes, .store m bytes ∉ newer := by
      intro hdm hop
      obtain ⟨older, newer, hops, hnone⟩ := ih hd hdm
      refine ⟨older, newer ++ [op], by rw [hops]; simp, fun bytes hmem => ?_⟩
      obtain hmem | hmem := List.mem_append.mp hmem
      · exact hnone bytes hmem
      · exact hop bytes (List.mem_singleton.mp hmem).symm
    cases op with
    | store k new =>
      obtain rfl := Option.some.inj hn
      obtain rfl | hk := eq_or_ne m k
      · rw [Function.update_self] at hm
        obtain rfl := Option.some.inj hm
        exact ⟨ops, [], rfl, fun _ => List.not_mem_nil⟩
      · rw [Function.update_of_ne hk] at hm
        refine hkeep hm fun bytes heq => ?_
        exact hk (MapLabel.store.inj heq).1.symm
    | deliver k new =>
      obtain ⟨-, hn⟩ := Option.ite_none_right_eq_some.mp hn
      obtain rfl := Option.some.inj hn
      exact hkeep hm fun _ => MapLabel.noConfusion
    | refuse =>
      obtain rfl := Option.some.inj hn
      exact hkeep hm fun _ => MapLabel.noConfusion

/-- What is delivered in a run of the map is what was stored last. -/
theorem bufferMap_delivers {pre post : List MapLabel} {c : ℕ → Option (List UInt8)} {m : ℕ}
    {bs : List UInt8} (h : bufferMap.run (fun _ => none) (pre ++ .deliver m bs :: post) = some c) :
    ∃ older newer, pre = older ++ .store m bs :: newer ∧ ∀ bytes, .store m bytes ∉ newer := by
  obtain ⟨d, hd, hpost⟩ := Machine.run_split h
  obtain ⟨u, hu, -⟩ := Option.bind_eq_some_iff.mp hpost
  obtain ⟨hm, -⟩ := Option.ite_none_right_eq_some.mp hu
  exact bufferMap_latest hd hm

/-! ## The library in its process -/

inductive ProcessLabel (n : ℕ)
  | library (l : RuntimeLabel n)
  | store (user : ℕ → UInt8)

def process (n : ℕ) (bits : Bitstreams) : Machine (Runtime n) (ProcessLabel n) where
  start := (library n bits).start
  next r
    | .library l => (library n bits).next r l
    | .store user => some { r with buffers := { r.buffers with unimem.driver.user := user } }

/-- A transfer of a run, with the buffers before its step and after it. -/
structure Transfer where
  event : EventRef
  body : CommandBody
  env : KernelEnv
  found : Buffers
  left : Buffers

namespace Transfer

/-- The handler led from the buffers before to those after and returned `errCode`, and `op` is what
this was to the map; a store or a delivery has the bytes of the process's memory at the step. -/
def Explains (x : Transfer) (errCode : ℤ) (op : MapLabel) : Prop :=
  ∃ l, x.body.transfer x.env = some l ∧ x.found.handle l = (errCode, x.left) ∧
    x.found.Observed l errCode x.left op

def command (x : Transfer) : MLCLCommand := ⟨x.event.command, x.body⟩

end Transfer

namespace Runtime

variable {bits : Bitstreams} {r t : Runtime n}

/-- What the kernel may do while a transfer is handed over, and that a fault is seen. -/
def Granted (r : Runtime n) : ProcessLabel n → Prop
  | .library (.loop q _ env) => (r.queues q).point = .popping → ∀ cmd ∈ (r.queues q).ring.head?,
      ∀ l ∈ cmd.body.transfer env, r.buffers.Admissible l ∧ r.buffers.FaultSeen l
  | .library (.enqueue _ _) => True
  | .library (.fire _ _) => True
  | .store _ => True

instance (r : Runtime n) (l : ProcessLabel n) : Decidable (r.Granted l) :=
  match l with
  | .library (.loop q _ env) => inferInstanceAs (Decidable ((r.queues q).point = .popping →
      ∀ cmd ∈ (r.queues q).ring.head?, ∀ l ∈ cmd.body.transfer env, _ ∧ _))
  | .library (.enqueue _ _) => inferInstanceAs (Decidable True)
  | .library (.fire _ _) => inferInstanceAs (Decidable True)
  | .store _ => inferInstanceAs (Decidable True)

/-- The transfer that the step from `r` to `t` hands over. -/
def handedTransfer (r t : Runtime n) : ProcessLabel n → Option Transfer
  | .library (.loop q _ env) =>
    if (r.queues q).point = .popping then
      ((r.queues q).ring.head?.filter fun cmd => cmd.body.completesInline).map fun cmd =>
        ⟨⟨q, cmd.event⟩, cmd.body, env, r.buffers, t.buffers⟩
    else none
  | .library (.enqueue _ _) => none
  | .library (.fire _ _) => none
  | .store _ => none

/-- The transfers of a run from `r`, in the order of its steps. -/
def transfers (bits : Bitstreams) (r : Runtime n) : List (ProcessLabel n) → List Transfer
  | [] => []
  | l :: ls =>
    match (process n bits).next r l with
    | none => []
    | some t => (r.handedTransfer t l).toList ++ transfers bits t ls

theorem transfers_cons {l : ProcessLabel n} (h : (process n bits).next r l = some t)
    (ls : List (ProcessLabel n)) :
    transfers bits r (l :: ls) = (r.handedTransfer t l).toList ++ transfers bits t ls := by
  rw [transfers, h]

/-- The transfers of queue `q`, in order. -/
def commandsOf (q : ℕ) (xs : List Transfer) : List MLCLCommand :=
  (xs.filter fun x => decide (x.event.queue = q)).map Transfer.command

/-- The transfers of a run to `r`, as the operations `ops`. `order` and `fifo` are the order of each
queue; `replay` is that of the buffers, and `latest` what it means for a read. -/
structure Serialized (r : Runtime n) (xs : List Transfer) (ops : List MapLabel) : Prop where
  explained : List.Forall₂ (fun x op => x.Explains (r.errors x.event) op) xs ops
  replay : bufferMap.run (fun _ => none) ops = some r.buffers.contents
  latest : ∀ pre post m bs, ops = pre ++ .deliver m bs :: post → ∃ older newer,
    pre = older ++ .store m bs :: newer ∧ ∀ bytes, .store m bytes ∉ newer
  order : ∀ q, commandsOf q xs = (r.queues q).handed.filter fun c => c.body.completesInline
  fifo : ∀ q, (r.queues q).handed <+: (r.queues q).entered
  complete : ∀ x ∈ xs, (r.queues x.event.queue).complete x.event.command = true

theorem completesInline_of_transfer (body : CommandBody) (env : KernelEnv) :
    (body.transfer env).isSome = body.completesInline := by
  cases body <;> rfl

/-- The buffers and the codes change only when a transfer is handed over, and then as its handler
says. -/
theorem handOver_transfer {now : ℚ} {env : KernelEnv} {q : ℕ}
    (h : r.handOver bits now env q = some t) {cmd : MLCLCommand} {rest : List MLCLCommand}
    (hring : (r.queues q).ring = cmd :: rest) :
    (cmd.body.transfer env = none ∧ t.buffers = r.buffers ∧ t.errors = r.errors) ∨
      ∃ l, cmd.body.transfer env = some l ∧ t.buffers = (r.buffers.handle l).2 ∧
        t.errors = Function.update r.errors ⟨q, cmd.event⟩ (r.buffers.handle l).1 := by
  obtain ⟨c, u, s, -, hc, -, h⟩ := handOver_pops h
  obtain ⟨rfl, -⟩ := List.cons.inj (hring.symm.trans hc)
  cases hbody : cmd.body with
  | writeBuffer args =>
    rw [hbody] at h
    simp only [handleACmd] at h
    obtain rfl := Option.some.inj h
    exact Or.inr ⟨.write args env, rfl, rfl, rfl⟩
  | readBuffer args =>
    rw [hbody] at h
    simp only [handleACmd] at h
    obtain rfl := Option.some.inj h
    exact Or.inr ⟨.read args env, rfl, rfl, rfl⟩
  | empty =>
    rw [hbody] at h
    obtain rfl := Option.some.inj h
    exact Or.inl ⟨rfl, rfl, rfl⟩
  | ndrange args =>
    rw [hbody] at h
    refine Or.inl ⟨rfl, ?_⟩
    change (r.setQueue q u).handleNdrangeCommand bits now ⟨q, cmd.event⟩ args = some t at h
    unfold handleNdrangeCommand at h
    split at h
    · obtain rfl := Option.some.inj h
      exact ⟨rfl, rfl⟩
    · obtain rfl := Option.some.inj h
      exact ⟨rfl, rfl⟩
    · obtain ⟨x, -, h⟩ := Option.bind_eq_some_iff.mp h
      obtain ⟨⟨algo, g⟩, -, h⟩ := Option.bind_eq_some_iff.mp h
      obtain rfl := Option.some.inj h
      exact ⟨rfl, rfl⟩

/-! ## The steps -/

/-- The order, with what its steps rest on. -/
structure Ordered (r : Runtime n) (xs : List Transfer) (ops : List MapLabel) : Prop where
  paired : r.Paired
  stored : r.buffers.Stored
  replay : bufferMap.run (fun _ => none) ops = some r.buffers.contents
  order : ∀ q, commandsOf q xs = (r.queues q).handed.filter fun c => c.body.completesInline
  explained : List.Forall₂ (fun x op => x.Explains (r.errors x.event) op) xs ops
  complete : ∀ x ∈ xs, (r.queues x.event.queue).complete x.event.command = true

variable {xs : List Transfer} {ops : List MapLabel}

/-- A step that handles no transfer. -/
theorem Ordered.keep (h : r.Ordered xs ops) (hpaired : t.Paired) (hbuffers : t.buffers = r.buffers)
    (herrors : t.errors = r.errors)
    (horder : ∀ q, ((t.queues q).handed.filter fun c => c.body.completesInline) =
      (r.queues q).handed.filter fun c => c.body.completesInline)
    (hcomp : ∀ q e, (r.queues q).complete e = true → (t.queues q).complete e = true) :
    t.Ordered xs ops := by
  refine ⟨hpaired, hbuffers ▸ h.stored, hbuffers ▸ h.replay, fun q => ?_, ?_, fun x hx => ?_⟩
  · rw [horder q]
    exact h.order q
  · rw [herrors]
    exact h.explained
  · exact hcomp _ _ (h.complete x hx)

/-- A transfer that is handed over comes last. -/
theorem Ordered.transfer (h : r.Ordered xs ops) (hpaired : t.Paired) {q : ℕ} {s : QueueRun}
    {cmd : MLCLCommand} (hqueues : t.queues = Function.update r.queues q s)
    (hring : (r.queues q).ring = cmd :: s.ring) (hhanded : s.handed = (r.queues q).handed ++ [cmd])
    (hcomp : s.complete = Function.update (r.queues q).complete cmd.event true)
    {env : KernelEnv} {l : BufferLabel} (hl : cmd.body.transfer env = some l)
    (hadm : r.buffers.Admissible l) (hseen : r.buffers.FaultSeen l)
    (hbuffers : t.buffers = (r.buffers.handle l).2)
    (herrors : t.errors = Function.update r.errors ⟨q, cmd.event⟩ (r.buffers.handle l).1) :
    ∃ op, t.Ordered (xs ++ [⟨⟨q, cmd.event⟩, cmd.body, env, r.buffers, t.buffers⟩]) (ops ++ [op]) := by
  obtain ⟨op, hobserved, hnext⟩ := h.stored.simulated hadm hseen
  have hinline : cmd.body.completesInline = true := by
    rw [← completesInline_of_transfer _ env, hl]
    rfl
  let x : Transfer := ⟨⟨q, cmd.event⟩, cmd.body, env, r.buffers, t.buffers⟩
  -- an event is handled once: the command was still in the ring
  have hfresh : ∀ y ∈ xs, y.event ≠ ⟨q, cmd.event⟩ := by
    intro y hy heq
    have hdone := h.complete y hy
    rw [heq] at hdone
    change (r.queues q).complete cmd.event = true at hdone
    rw [(h.paired.attended q).fresh (by rw [hring]; exact List.mem_cons_self)] at hdone
    cases hdone
  refine ⟨op, hpaired, ?_, ?_, fun p => ?_, ?_, fun y hy => ?_⟩
  · rw [hbuffers]
    exact h.stored.step hadm
  · rw [hbuffers]
    exact Machine.run_append h.replay (Machine.run_single hnext)
  · unfold commandsOf
    rw [List.filter_append, List.map_append, hqueues]
    change commandsOf p xs ++ _ = _
    rw [h.order p]
    obtain rfl | hp := eq_or_ne p q
    · rw [Function.update_self, hhanded, List.filter_append]
      congr 1
      simp [Transfer.command, hinline]
    · rw [Function.update_of_ne hp, List.filter_cons_of_neg (by simpa using hp.symm)]
      exact List.append_nil _
  · refine List.rel_append ?_ (.cons ⟨l, hl, ?_, ?_⟩ .nil)
    · refine ((List.forall₂_and_left _ _).mpr ⟨hfresh, h.explained⟩).imp fun y op hy => ?_
      rw [herrors, Function.update_of_ne hy.1]
      exact hy.2
    · rw [herrors, hbuffers, Function.update_self]
    · rw [herrors, hbuffers, Function.update_self]
      exact hobserved
  · rw [hqueues]
    obtain hy | hy := List.mem_append.mp hy
    · obtain heq | hne := eq_or_ne y.event.queue q
      · have hdone := h.complete y hy
        rw [heq] at hdone
        rw [heq, Function.update_self, hcomp]
        by_cases he : y.event.command = cmd.event
        · rw [he, Function.update_self]
        · rw [Function.update_of_ne he]
          exact hdone
      · rw [Function.update_of_ne hne]
        exact h.complete y hy
    · obtain rfl := List.mem_singleton.mp hy
      change (Function.update r.queues q s q).complete cmd.event = true
      rw [Function.update_self, hcomp, Function.update_self]

theorem filter_of_queue {q : ℕ} {s : QueueRun} (hqueues : t.queues = Function.update r.queues q s)
    (hhanded : (s.handed.filter fun c => c.body.completesInline) =
      (r.queues q).handed.filter fun c => c.body.completesInline) (p : ℕ) :
    ((t.queues p).handed.filter fun c => c.body.completesInline) =
      (r.queues p).handed.filter fun c => c.body.completesInline :=
  same_of_queue (fun s => s.handed.filter fun c => c.body.completesInline) hqueues hhanded p

theorem Ordered.move (h : r.Ordered xs ops) {l : RuntimeLabel n} (hm : LibraryMove bits r l t)
    (hgranted : r.Granted (.library l)) :
    ∃ more, t.Ordered (xs ++ (r.handedTransfer t (.library l)).toList) (ops ++ more) := by
  have hpaired := h.paired.step hm
  -- where no transfer is handed over
  have hquiet : r.handedTransfer t (.library l) = none → t.Ordered xs ops →
      ∃ more, t.Ordered (xs ++ (r.handedTransfer t (.library l)).toList) (ops ++ more) :=
    fun hnone ht => ⟨[], by rw [hnone, Option.toList_none, List.append_nil, List.append_nil]; exact ht⟩
  cases hm with
  | enqueue q body hacc =>
    obtain ⟨-, -, -, hcomp, -, hhanded, -⟩ := (r.queues q).submit_frame body
    refine hquiet rfl (h.keep hpaired rfl rfl (filter_of_queue rfl (by rw [hhanded])) ?_)
    exact complete_of_queue rfl fun e he => by rw [hcomp]; exact he
  | @callback q now env s hbusy hp hs =>
    obtain ⟨-, -, -, hcomp, hhanded⟩ := QueueRun.loop_frame (QueueRun.loopMove hs) hp
    refine hquiet (if_neg hp) (h.keep hpaired rfl rfl (filter_of_queue rfl (by rw [hhanded])) ?_)
    exact complete_of_queue rfl fun e he => by rw [hcomp]; exact he
  | @hand q now env t hp ht =>
    obtain ⟨cmd, s, hs, hring, hqueues, -⟩ := handOver_split ht
    obtain ⟨c, hc, hhanded, -, -, -, -, -, -, -, hcomp, -⟩ := QueueRun.handOver_spec hs
    obtain ⟨rfl, -⟩ := List.cons.inj (hring.symm.trans hc)
    have htransfer : r.handedTransfer t (.library (.loop q now env)) =
        if cmd.body.completesInline then
          some ⟨⟨q, cmd.event⟩, cmd.body, env, r.buffers, t.buffers⟩ else none := by
      refine (if_pos hp).trans ?_
      rw [hring, List.head?_cons, Option.filter_some]
      split <;> rfl
    obtain ⟨hnone, hbuffers, herrors⟩ | ⟨l, hl, hbuffers, herrors⟩ := handOver_transfer ht hring
    · have hinline : cmd.body.completesInline = false := by
        rw [← completesInline_of_transfer _ env, hnone]
        rfl
      refine hquiet (by rw [htransfer, hinline]; rfl)
        (h.keep hpaired hbuffers herrors (filter_of_queue hqueues ?_)
          (complete_of_queue hqueues fun e he => ?_))
      · rw [hhanded, List.filter_append, List.filter_cons_of_neg (by simp [hinline])]
        exact List.append_nil _
      · rw [hcomp, hinline]
        exact he
    · have hinline : cmd.body.completesInline = true := by
        rw [← completesInline_of_transfer _ env, hl]
        rfl
      obtain ⟨hadm, hseen⟩ := hgranted hp cmd (by rw [hring]; rfl) l hl
      obtain ⟨op, hop⟩ := h.transfer hpaired hqueues hring hhanded
        (by rw [hcomp, if_pos hinline]) hl hadm hseen hbuffers herrors
      rw [htransfer, if_pos hinline]
      exact ⟨[op], hop⟩
  | @fire i now t hidle hactive ht =>
    refine hquiet rfl ?_
    obtain ⟨g, event, d, z, -, -, ⟨rfl, -⟩ | ⟨rfl, -⟩⟩ := fire_split ht
    · exact h.keep hpaired rfl rfl (fun _ => rfl) fun _ _ he => he
    · exact h.keep hpaired rfl rfl (filter_of_queue rfl rfl)
        (complete_of_queue rfl fun e he => QueueRun.setAsComplete_mono he)

theorem Ordered.step (h : r.Ordered xs ops) {l : ProcessLabel n} (hgranted : r.Granted l)
    (hn : (process n bits).next r l = some t) :
    ∃ more, t.Ordered (xs ++ (r.handedTransfer t l).toList) (ops ++ more) := by
  cases l with
  | library l => exact h.move (libraryMove hn) hgranted
  | store user =>
    obtain rfl := Option.some.inj hn
    have hkeeps : r.buffers.Keeps { r.buffers with unimem.driver.user := user } :=
      ⟨h.stored.noReply, fun _ _ _ _ _ => rfl⟩
    refine ⟨[], ?_⟩
    rw [List.append_nil]
    change Ordered _ (xs ++ []) ops
    rw [List.append_nil]
    refine ⟨⟨h.paired.attended, h.paired.alone, h.paired.accounted, h.paired.running,
      h.paired.single⟩, h.stored.same rfl rfl hkeeps, ?_, h.order, h.explained, h.complete⟩
    have hcontents := h.stored.contents_eq (t := { r.buffers with unimem.driver.user := user })
      rfl hkeeps
    exact h.replay.trans (congrArg some hcontents.symm)

theorem ordered_start (h : (library n bits).start r) : r.Ordered [] [] := by
  have hpaired := paired_start h
  obtain ⟨prs, cost, ends, g, memory, user, -, rfl⟩ := h
  exact ⟨hpaired, Buffers.stored_new memory user, rfl, fun _ => rfl, .nil,
    fun _ hx => absurd hx List.not_mem_nil⟩

theorem Ordered.run (h : r.Ordered xs ops) {ls : List (ProcessLabel n)}
    (hrun : (process n bits).runWhere (fun r l => decide (r.Granted l)) r ls = some t) :
    ∃ more, t.Ordered (xs ++ transfers bits r ls) (ops ++ more) := by
  induction ls generalizing r xs ops with
  | nil =>
    obtain rfl := Option.some.inj hrun
    refine ⟨[], ?_⟩
    change r.Ordered (xs ++ []) (ops ++ [])
    rw [List.append_nil, List.append_nil]
    exact h
  | cons l ls ih =>
    obtain ⟨hok, hrun⟩ := Option.ite_none_right_eq_some.mp hrun
    obtain ⟨m, hm, hrun⟩ := Option.bind_eq_some_iff.mp hrun
    obtain ⟨first, hfirst⟩ := h.step (of_decide_eq_true hok) hm
    obtain ⟨more, hmore⟩ := ih hfirst hrun
    refine ⟨first ++ more, ?_⟩
    rw [transfers_cons hm, ← List.append_assoc, ← List.append_assoc]
    exact hmore

theorem Ordered.serialized (h : r.Ordered xs ops) : r.Serialized xs ops := by
  refine ⟨h.explained, h.replay, ?_, h.order, fun q => ?_, h.complete⟩
  · rintro pre post m bs rfl
    exact bufferMap_delivers h.replay
  · rw [(h.paired.attended q).served.order]
    exact List.prefix_append _ _

/-- The transfers of a run are operations of the map in the order of the run, and what comes later in
the run comes later in it. -/
theorem transfers_serialize {s : Runtime n} (hstart : (process n bits).start s)
    {ls later : List (ProcessLabel n)}
    (hr : (process n bits).runWhere (fun r l => decide (r.Granted l)) s ls = some r)
    (ht : (process n bits).runWhere (fun r l => decide (r.Granted l)) r later = some t) :
    ∃ ops more, r.Serialized (transfers bits s ls) ops ∧
      t.Serialized (transfers bits s ls ++ transfers bits r later) (ops ++ more) := by
  have hlibrary : (library n bits).start s := hstart
  obtain ⟨ops, hordered⟩ := (ordered_start hlibrary).run hr
  obtain ⟨more, hmore⟩ := hordered.run ht
  exact ⟨ops, more, hordered.serialized, hmore.serialized⟩

def sampleBits : Bitstreams := ⟨fun _ => none, fun _ => none⟩

/-- A write in one queue. -/
def sampleWrite : List (ProcessLabel 1) :=
  .library (.enqueue 0 (.writeBuffer ⟨some 5, 0, 3, 16⟩)) ::
    List.replicate 5 (.library (.loop 0 0 ⟨some (64, fun _ => 9), 0⟩))

/-- A read of the same buffer in another one, once the process has changed its memory. -/
def sampleRead : List (ProcessLabel 1) := .store (fun _ => 1) ::
  .library (.enqueue 1 (.readBuffer ⟨some 5, 0, 3, 16⟩)) ::
    List.replicate 5 (.library (.loop 1 0 ⟨none, 0⟩))

theorem transfers_serialize_two : ∃ (s r t : Runtime 1) (ops more : List MapLabel),
    r.Serialized (transfers sampleBits s sampleWrite) ops ∧
    t.Serialized (transfers sampleBits s sampleWrite ++ transfers sampleBits r sampleRead)
      (ops ++ more) ∧
    (transfers sampleBits r sampleRead).map (fun x => ByteMemory.bytes x.left.user 16 3) =
      [[7, 7, 7]] := by
  have hrun : (Global.new (fun _ : Fin 1 => (0, 1, 1)) (fun _ => none) fun _ => 0).bind (fun g =>
      ((process 1 sampleBits).runWhere (fun r l => decide (r.Granted l))
        (Runtime.new g (fun _ => 0) fun _ => 7) sampleWrite).bind fun r =>
          ((process 1 sampleBits).runWhere (fun r l => decide (r.Granted l)) r sampleRead).map fun _ =>
            (transfers sampleBits r sampleRead).map fun x => ByteMemory.bytes x.left.user 16 3) =
      some [[7, 7, 7]] := by
    decide +kernel
  obtain ⟨g, hg, hrun⟩ := Option.bind_eq_some_iff.mp hrun
  obtain ⟨r, hr, hrun⟩ := Option.bind_eq_some_iff.mp hrun
  obtain ⟨t, ht, hread⟩ := Option.map_eq_some_iff.mp hrun
  obtain ⟨ops, more, hfirst, hall⟩ :=
    transfers_serialize ⟨_, _, _, g, _, _, hg, rfl⟩ hr ht
  exact ⟨_, r, t, ops, more, hfirst, hall, hread⟩

end Runtime

end FpgaMl
