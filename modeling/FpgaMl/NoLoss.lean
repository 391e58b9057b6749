import Mathlib.Tactic
import FpgaMl.Foundation.Tally
import FpgaMl.RouteSimple

/-! # Where the ranges are

AlgoSimple's event loop with a log of the ranges that were carved and of those that were marked as
finished. A range that a full ring refuses is in no queue, and nobody looks at the return code. -/
namespace FpgaMl
open MachineInt TransitionSystem Tally
set_option autoImplicit false

variable {n : ℕ}

/-! ## The loop with its logs -/

namespace AlgoSimple

/-- `submitPart` with a log of the ranges it submits. -/
def submitPartLogged (o : AlgoSimple n) (now : ℚ) (d : ℕ) (p : Global n × List WorkGroupRange)
    (i : Fin n) : Option (Global n × List WorkGroupRange) :=
  if o.result i = unsuitableIsland ∨ o.result i = 0 then some p
  else (p.1.carveWgs d (toU64 (o.result i))).map fun carved =>
    let wgr := carved.1.setExecutionCost (toU64 (o.price i))
    (carved.2.submitWgr now i wgr, p.2 ++ [wgr])

def handOutLogged (o : AlgoSimple n) (now : ℚ) (d : ℕ) (g : Global n) :
    Option (Global n × List WorkGroupRange) := do
  let (g, carved) ← (List.finRange n).foldlM (o.submitPartLogged now d) (g, [])
  let ndrange ← g.ndranges d
  if ndrange.hasMoreWgs then none else some (g, carved)

def routeNdrangeLogged (o : AlgoSimple n) (g : Global n) (check : ℕ → String → String → Bool)
    (now : ℚ) (d : ℕ) : Option (AlgoSimple n × Global n × List WorkGroupRange) := do
  let ndrange ← g.ndranges d
  let o ← o.search (g.islandQuery check now ndrange) (i32 ndrange.totalSize)
  if LogFits o.result then (o.handOutLogged now d g).map fun p => (o, p) else none

theorem submitPartLogged_fst (o : AlgoSimple n) (now : ℚ) (d : ℕ)
    (p : Global n × List WorkGroupRange) (i : Fin n) :
    (o.submitPartLogged now d p i).map Prod.fst = o.submitPart now d p.1 i := by
  unfold submitPartLogged submitPart
  split
  · rfl
  · unfold Global.carveAndSubmit
    rw [Option.map_map]
    rfl

theorem foldlM_logged_fst (o : AlgoSimple n) (now : ℚ) (d : ℕ) (l : List (Fin n))
    (p : Global n × List WorkGroupRange) :
    (l.foldlM (o.submitPartLogged now d) p).map Prod.fst = l.foldlM (o.submitPart now d) p.1 := by
  induction l generalizing p with
  | nil => rfl
  | cons i l ih =>
    rw [List.foldlM_cons, List.foldlM_cons, ← submitPartLogged_fst]
    cases o.submitPartLogged now d p i with
    | none => rfl
    | some q => exact ih q

theorem handOutLogged_fst (o : AlgoSimple n) (now : ℚ) (d : ℕ) (g : Global n) :
    (o.handOutLogged now d g).map Prod.fst = o.handOut now d g := by
  unfold handOutLogged handOut
  rw [← foldlM_logged_fst o now d (List.finRange n) (g, [])]
  cases (List.finRange n).foldlM (o.submitPartLogged now d) (g, []) with
  | none => rfl
  | some p =>
    simp only [Option.bind_eq_bind, Option.bind_some, Option.map_some]
    cases p.1.ndranges d with
    | none => rfl
    | some r =>
      simp only [Option.bind_some]
      split <;> rfl

/-- The log changes nothing. -/
theorem routeNdrangeLogged_erase (o : AlgoSimple n) (g : Global n)
    (check : ℕ → String → String → Bool) (now : ℚ) (d : ℕ) :
    (o.routeNdrangeLogged g check now d).map (fun p => (p.1, p.2.1)) =
      o.routeNdrange g check now d := by
  unfold routeNdrangeLogged routeNdrange
  cases hr : g.ndranges d with
  | none => rfl
  | some r =>
    simp only [Option.bind_eq_bind, Option.bind_some]
    cases o.search (g.islandQuery check now r) (i32 r.totalSize) with
    | none => rfl
    | some o' =>
      simp only [Option.bind_some]
      split
      · rw [← handOutLogged_fst, Option.map_map, Option.map_map]
        rfl
      · rfl

end AlgoSimple

structure TracedState (n : ℕ) where
  state : SimpleState n
  carved : List WorkGroupRange
  finished : List WorkGroupRange

def tracedLoop (n : ℕ) (check : ℕ → String → String → Bool) :
    Machine (TracedState n) (SimpleLabel n) where
  start s := (simpleLoop n check).start s.state ∧ s.carved = [] ∧ s.finished = []
  next s
    | .route now kernel event resourceString numWgs => do
      let r ← NDRange.new kernel event resourceString numWgs 1 1
      let (algo, global, carved) ← s.state.algo.routeNdrangeLogged (s.state.global.newNdrange r)
        check now s.state.global.nextCell
      return ⟨⟨algo, global⟩, s.carved ++ carved, s.finished⟩
    | .fire now i =>
      if (s.state.global.schedulers i).timer.isActive then
        (s.state.global.onTimer now i).map fun fired =>
          ⟨⟨s.state.algo, fired.1⟩, s.carved, s.finished ++ (s.state.global.queue i).take 1⟩
      else none

/-- The loop with logs is the loop. -/
theorem tracedLoop_erase (check : ℕ → String → String → Bool) (s : TracedState n)
    (l : SimpleLabel n) :
    ((tracedLoop n check).next s l).map TracedState.state = (simpleLoop n check).next s.state l := by
  cases l with
  | route now kernel event res numWgs =>
    unfold tracedLoop simpleLoop
    dsimp only
    cases NDRange.new kernel event res numWgs 1 1 with
    | none => rfl
    | some r =>
      simp only [Option.bind_eq_bind, Option.bind_some]
      rw [← AlgoSimple.routeNdrangeLogged_erase]
      cases s.state.algo.routeNdrangeLogged (s.state.global.newNdrange r) check now
        s.state.global.nextCell <;> rfl
  | fire now i =>
    unfold tracedLoop simpleLoop
    dsimp only
    split
    · rw [Option.map_map]
      rfl
    · rfl

/-! ## The books -/

/-- Every range that was carved is finished or in a queue, and no two carved ranges are the same:
those of one ND-range differ in where they start. -/
structure Kept (g : Global n) (carved finished : List WorkGroupRange) : Prop where
  counts : ∀ w, carved.count w = finished.count w + tally (· == w) g.queue
  distinct : carved.Nodup
  known : ∀ w ∈ carved, ∃ d, w.parentNdrange = some d ∧ d < g.nextCell ∧
    ∀ r, g.ndranges d = some r → w.startX < r.nextWgr

section Kept

variable {g g' : Global n} {carved finished : List WorkGroupRange}

theorem kept_new {prs : Fin n → ℕ × ℕ × ℕ} {bits : String → Option (ℕ × ℕ)} {ends : Fin n → ℚ}
    (h : Global.new prs bits ends = some g) : Kept g [] [] := by
  refine ⟨fun w => ?_, List.nodup_nil, List.forall_mem_nil _⟩
  have hidle : ∀ i, g.queue i = [] := by
    intro i
    obtain ⟨s, hs, hi⟩ := (Global.new_spec h).1 i
    unfold Global.queue
    rw [hi]
    exact (Scheduler.new_ticking hs).2
  simp [tally, hidle]

theorem Kept.newNdrange (h : Kept g carved finished) (r : NDRange) :
    Kept (g.newNdrange r) carved finished := by
  refine ⟨h.counts, h.distinct, fun w hw => ?_⟩
  obtain ⟨d, hd, hlt, hstart⟩ := h.known w hw
  refine ⟨d, hd, Nat.lt_succ_of_lt hlt, fun s hs => hstart s ?_⟩
  rwa [Global.newNdrange_of_ne g r hlt.ne] at hs

theorem tally_submitWgr (p : WorkGroupRange → Bool) (g : Global n) (now : ℚ) {i : Fin n}
    (hroom : (g.schedulers i).inQueue.isFull = false) (w : WorkGroupRange) :
    tally p (g.submitWgr now i w).queue = tally p g.queue + [w].countP p := by
  have hchange := tally_change p i fun j hj => Global.queue_submitWgr_of_ne g now hj w
  rw [Global.queue_submitWgr, if_neg (by rw [hroom]; exact Bool.false_ne_true),
    List.countP_append] at hchange
  omega

/-- A range is carved and submitted to a scheduler with room for it. -/
theorem Kept.carve (h : Kept g carved finished) {d k : ℕ} {r : NDRange} {i : Fin n} (now : ℚ)
    (hr : g.ndranges d = some r) (hd : d < g.nextCell) (hpos : 0 < r.wgsToCarve k)
    (hlt : r.nextWgr + r.wgsToCarve k < 2 ^ 32) (hroom : (g.schedulers i).inQueue.isFull = false)
    {g₁ : Global n} {w : WorkGroupRange} (hg₁ : g.carveWgs d k = some (w, g₁)) (cost : ℕ) :
    Kept (g₁.submitWgr now i (w.setExecutionCost cost)) (carved ++ [w.setExecutionCost cost])
      finished := by
  unfold Global.carveWgs at hg₁
  rw [hr, Option.map_some, Option.some.injEq, Prod.mk.injEq] at hg₁
  obtain ⟨rfl, rfl⟩ := hg₁
  set w := (r.carveWgs d k).1.setExecutionCost cost with hw
  have hparent : w.parentNdrange = some d := rfl
  have hstart : w.startX = r.nextWgr := rfl
  have hnext : (r.carveWgs d k).2.nextWgr = r.nextWgr + r.wgsToCarve k := u32_of_lt hlt
  have hfresh : w ∉ carved := by
    intro hmem
    obtain ⟨e, he, -, hbelow⟩ := h.known w hmem
    obtain rfl : d = e := Option.some.inj (hparent.symm.trans he)
    exact absurd (hbelow r hr) (by rw [hstart]; exact lt_irrefl _)
  refine ⟨fun v => ?_, ?_, fun v hv => ?_⟩
  · have hcount := h.counts v
    have hqueued := tally_submitWgr (· == v) { g with
      ndranges := Function.update g.ndranges d (some (r.carveWgs d k).2)
      history := { g.history with carved := bump g.history.carved d } } now hroom w
    change tally (· == v) _ = tally (· == v) g.queue + List.count v [w] at hqueued
    rw [List.count_append, hqueued, hcount, Nat.add_assoc]
  · exact List.nodup_append.mpr ⟨h.distinct, List.nodup_singleton w, fun v hv u hu => by
      rw [List.mem_singleton.mp hu]
      rintro rfl
      exact hfresh hv⟩
  · obtain hv | hv := List.mem_append.mp hv
    · obtain ⟨e, he, hlt', hbelow⟩ := h.known v hv
      refine ⟨e, he, hlt', fun s hs => ?_⟩
      change Function.update g.ndranges d (some (r.carveWgs d k).2) e = some s at hs
      obtain rfl | hed := eq_or_ne e d
      · rw [Function.update_self, Option.some.injEq] at hs
        rw [← hs, hnext]
        have := hbelow r hr
        omega
      · rw [Function.update_of_ne hed] at hs
        exact hbelow s hs
    · rw [List.mem_singleton.mp hv]
      refine ⟨d, hparent, hd, fun s hs => ?_⟩
      change Function.update g.ndranges d (some (r.carveWgs d k).2) d = some s at hs
      rw [Function.update_self, Option.some.injEq] at hs
      rw [← hs, hnext, hstart]
      omega

theorem Kept.onTimer (h : Kept g carved finished) {now : ℚ} {i : Fin n} {event : Option EventRef}
    (hfire : g.onTimer now i = some (g', event)) :
    Kept g' carved (finished ++ (g.queue i).take 1) := by
  obtain ⟨w, rest, -, -, hpop, -, -, hsched, hnext, -⟩ := Global.onTimer_spec hfire
  have hqueue := Global.queue_popFront hpop
  obtain ⟨hrest, hothers⟩ := Global.queue_of_restart hsched
  refine ⟨fun v => ?_, h.distinct, fun v hv => ?_⟩
  · have hchange := tally_change (· == v) i hothers
    have hcount := h.counts v
    rw [hrest, hqueue, List.countP_cons] at hchange
    rw [hqueue, List.take_succ_cons, List.take_zero, List.count_append, List.count_singleton]
    omega
  · obtain ⟨e, he, hlt, hbelow⟩ := h.known v hv
    refine ⟨e, he, hnext ▸ hlt, fun s hs => ?_⟩
    obtain ⟨r, hr, rfl | rfl⟩ := Global.onTimer_cells hfire hs
    · exact hbelow s hr
    · exact hbelow r hr

/-- The loop of a route, when the islands that it serves have room. -/
theorem Kept.parts {o : AlgoSimple n} {d : ℕ} (now : ℚ) (l : List (Fin n)) (hl : l.Nodup)
    {p q : Global n × List WorkGroupRange} (h : Kept p.1 (carved ++ p.2) finished)
    (hfold : l.foldlM (o.submitPartLogged now d) p = some q) {r : NDRange}
    (hr : p.1.ndranges d = some r) (hd : d < p.1.nextCell) (hcarvable : o.Carvable d l r)
    (hroom : ∀ i ∈ l, o.Serves i → (p.1.schedulers i).inQueue.isFull = false) :
    Kept q.1 (carved ++ q.2) finished := by
  induction l generalizing p r with
  | nil =>
    cases hfold
    exact h
  | cons i l ih =>
    obtain ⟨hi, hl⟩ := List.nodup_cons.mp hl
    rw [List.foldlM_cons] at hfold
    obtain ⟨p₁, hp₁, hfold⟩ := Option.bind_eq_some_iff.mp hfold
    rw [AlgoSimple.Carvable] at hcarvable
    unfold AlgoSimple.submitPartLogged at hp₁
    split at hp₁
    · rename_i hskip
      rw [if_pos hskip] at hcarvable
      obtain rfl := Option.some.inj hp₁
      exact ih hl h hfold hr hd hcarvable fun j hj => hroom j (List.mem_cons_of_mem i hj)
    · rename_i hserves
      rw [if_neg hserves] at hcarvable
      obtain ⟨⟨hpos, hlt⟩, hcarvable⟩ := hcarvable
      obtain ⟨⟨w, g₁⟩, hg₁, rfl⟩ := Option.map_eq_some_iff.mp hp₁
      have hkept := h.carve now hr hd hpos hlt (hroom i List.mem_cons_self hserves) hg₁
        (toU64 (o.price i))
      rw [List.append_assoc] at hkept
      unfold Global.carveWgs at hg₁
      rw [hr, Option.map_some, Option.some.injEq, Prod.mk.injEq] at hg₁
      obtain ⟨rfl, rfl⟩ := hg₁
      refine ih hl hkept hfold (Function.update_self ..) hd hcarvable fun j hj hserved => ?_
      have hji : j ≠ i := by
        rintro rfl
        exact hi hj
      change ((Function.update p.1.schedulers i _) j).inQueue.isFull = false
      rw [Function.update_of_ne hji]
      exact hroom j (List.mem_cons_of_mem i hj) hserved

end Kept

/-! ## Every run -/

namespace TracedState

/-- The condition on a step: no range is submitted to a scheduler whose ring is full. -/
def HasRoom (check : ℕ → String → String → Bool) (s : TracedState n) : SimpleLabel n → Prop
  | .route now kernel event resourceString numWgs =>
    ∀ r ∈ NDRange.new kernel event resourceString numWgs 1 1,
      ∀ o ∈ s.state.algo.search (s.state.global.islandQuery check now r) (i32 r.totalSize),
        ∀ i, o.Serves i → (s.state.global.schedulers i).inQueue.isFull = false
  | .fire _ _ => True

instance (check : ℕ → String → String → Bool) (s : TracedState n) (l : SimpleLabel n) :
    Decidable (s.HasRoom check l) :=
  match l with
  | .route _ _ _ _ _ => inferInstanceAs (Decidable (∀ r ∈ _, ∀ _ ∈ _, ∀ _, _ → _))
  | .fire _ _ => inferInstanceAs (Decidable True)

/-- No range is lost: those carved and not finished are in one queue each, and there once. -/
structure NoLoss (s : TracedState n) : Prop where
  distinct : s.carved.Nodup
  queued : ∀ w ∈ s.carved, w ∉ s.finished → ∃ i, (s.state.global.queue i).count w = 1 ∧
    ∀ j, j ≠ i → w ∉ s.state.global.queue j

theorem kept_step {check : ℕ → String → String → Bool} {s t : TracedState n} {l : SimpleLabel n}
    (hs : Kept s.state.global s.carved s.finished) (hl : s.HasRoom check l)
    (hn : (tracedLoop n check).next s l = some t) :
    Kept t.state.global t.carved t.finished := by
  cases l with
  | route now kernel event res numWgs =>
    obtain ⟨r, hr, hn⟩ := Option.bind_eq_some_iff.mp hn
    obtain ⟨⟨o, g, ws⟩, hroute, hn⟩ := Option.bind_eq_some_iff.mp hn
    cases hn
    obtain ⟨r', hr', hroute⟩ := Option.bind_eq_some_iff.mp hroute
    obtain rfl : r = r' := by
      rw [Global.newNdrange_self] at hr'
      exact Option.some.inj hr'
    obtain ⟨o', hsearch, hroute⟩ := Option.bind_eq_some_iff.mp hroute
    obtain ⟨-, hroute⟩ := Option.ite_none_right_eq_some.mp hroute
    obtain ⟨⟨g', ws'⟩, hout, heq⟩ := Option.map_eq_some_iff.mp hroute
    cases heq
    obtain ⟨⟨g₁, ws₁⟩, hfold, hout⟩ := Option.bind_eq_some_iff.mp hout
    obtain ⟨r'', -, hout⟩ := Option.bind_eq_some_iff.mp hout
    obtain ⟨-, hout⟩ := Option.ite_none_left_eq_some.mp hout
    cases hout
    have hobj := NDRange.new_eq_some hr
    have hcarvable := (AlgoSimple.search_carvable s.state.global.nextCell hsearch (by rw [hobj])
      (by rw [hobj]; exact u32_lt _)).1
    have hstart := hs.newNdrange r
    rw [← List.append_nil s.carved] at hstart
    exact hstart.parts now (List.finRange n) (List.nodup_finRange n) hfold
      (Global.newNdrange_self _ _) (Nat.lt_succ_self _) hcarvable fun i _ hi => hl r hr _ hsearch i hi
  | fire now i =>
    obtain ⟨-, hn⟩ := Option.ite_none_right_eq_some.mp hn
    obtain ⟨⟨g, event⟩, hfire, rfl⟩ := Option.map_eq_some_iff.mp hn
    exact hs.onTimer hfire

theorem no_range_lost {check : ℕ → String → String → Bool} {s : TracedState n}
    (h : (tracedLoop n check).ReachableWhere (HasRoom check) s) : NoLoss s := by
  have hkept : Kept s.state.global s.carved s.finished := by
    apply h.invariant (I := fun s => Kept s.state.global s.carved s.finished)
    · rintro s ⟨⟨-, prs, bits, ends, hnew⟩, hcarved, hfinished⟩
      rw [hcarved, hfinished]
      exact kept_new hnew
    · exact fun s l t hs hl hn => kept_step hs hl hn
  refine ⟨hkept.distinct, fun w hw hopen => ?_⟩
  have hone : tally (· == w) s.state.global.queue = 1 := by
    have hcount := hkept.counts w
    rw [List.count_eq_one_of_mem hkept.distinct hw, List.count_eq_zero_of_not_mem hopen] at hcount
    omega
  obtain ⟨i, hi, hothers⟩ := exists_of_tally_eq_one _ hone
  exact ⟨i, hi, fun j hj => List.count_eq_zero.mp (hothers j hj)⟩

/-- Two queues dispatch three work-groups each on one island, and the first range is finished. -/
theorem no_range_lost_two : ∃ s : TracedState 1, NoLoss s ∧ s.carved.length = 2 ∧
    s.finished = s.carved.take 1 := by
  have hrun : (Global.new (fun _ : Fin 1 => (0, 1, 0)) (fun _ => none) fun _ => 0).bind (fun g =>
      ((tracedLoop 1 checkResourceString).runWhere
        (fun s l => decide (s.HasRoom checkResourceString l)) ⟨⟨AlgoSimple.new 1, g⟩, [], []⟩
        [.route 0 default ⟨0, 0⟩ "" 3, .route 1 default ⟨1, 0⟩ "" 3, .fire 3 0]).map fun s =>
          (s.carved.length, decide (s.finished = s.carved.take 1))) = some (2, true) := by
    decide +kernel
  obtain ⟨g, hg, hrun⟩ := Option.bind_eq_some_iff.mp hrun
  obtain ⟨s, hs, hview⟩ := Machine.exists_reachableWhere hrun ⟨⟨rfl, _, _, _, hg⟩, rfl, rfl⟩
  obtain ⟨hlength, hfinished⟩ := Prod.mk.inj hview
  exact ⟨s, no_range_lost hs, hlength, of_decide_eq_true hfinished⟩

/-- The ring of the island holds a hundred ranges, and a hundred and one queues dispatch one each
before its timer fires. -/
theorem range_lost : ∃ s : TracedState 1, (tracedLoop 1 checkResourceString).Reachable s ∧
    ∃ w ∈ s.carved, w ∉ s.finished ∧ ∀ i, w ∉ s.state.global.queue i := by
  have hrun : (Global.new (fun _ : Fin 1 => (0, 1, 0)) (fun _ => none) fun _ => 0).bind (fun g =>
      ((tracedLoop 1 checkResourceString).run ⟨⟨AlgoSimple.new 1, g⟩, [], []⟩
        ((List.range 101).map fun q => .route 0 default ⟨q, 0⟩ "" 1)).map fun s =>
          s.carved.any fun w => !(s.finished.contains w) && !((s.state.global.queue 0).contains w)) =
        some true := by
    decide +kernel
  obtain ⟨g, hg, hrun⟩ := Option.bind_eq_some_iff.mp hrun
  obtain ⟨s, hs, hview⟩ := Machine.exists_reachable hrun ⟨⟨rfl, _, _, _, hg⟩, rfl, rfl⟩
  obtain ⟨w, hw, hlost⟩ := List.any_eq_true.mp hview
  simp only [Bool.and_eq_true, Bool.not_eq_true', List.contains_eq_mem, decide_eq_false_iff_not]
    at hlost
  refine ⟨s, hs, w, hw, hlost.1, fun i => ?_⟩
  rw [Subsingleton.elim i 0]
  exact hlost.2

end TracedState

end FpgaMl
