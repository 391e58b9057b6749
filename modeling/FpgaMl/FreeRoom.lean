import Mathlib.Tactic
import FpgaMl.FreeList
import FpgaMl.RouteSimple

/-! # Room in the list of free schedulers

Schedulers may share an id: nothing in the configuration forbids it, and the id wraps. The list of
free schedulers is then not the set of those without work, but it never holds more ids than they
have, so that the assertion of `add_free_scheduler` holds, and an active timer can always fire. -/
namespace FpgaMl
open MachineInt Tally
set_option autoImplicit false

variable {n : ℕ}

namespace Global

/-- The ids of the schedulers with an empty queue, with their multiplicity. -/
def idleIds (g : Global n) : Multiset ℕ :=
  (Finset.univ.filter fun i => g.queue i = []).val.map fun i => (g.schedulers i).id

/-- The same without scheduler `i`. -/
def idleIdsBut (g : Global n) (i : Fin n) : Multiset ℕ :=
  ((Finset.univ.erase i).filter fun j => g.queue j = []).val.map fun j => (g.schedulers j).id

theorem idleIds_of_idle {g : Global n} {i : Fin n} (h : g.queue i = []) :
    g.idleIds = (g.schedulers i).id ::ₘ g.idleIdsBut i := by
  unfold idleIds idleIdsBut
  have hsplit : (Finset.univ.filter fun j => g.queue j = []) =
      insert i ((Finset.univ.erase i).filter fun j => g.queue j = []) := by
    conv_lhs => rw [← Finset.insert_erase (Finset.mem_univ i), Finset.filter_insert, if_pos h]
  rw [hsplit, Finset.insert_val_of_notMem (by simp), Multiset.map_cons]

theorem idleIds_of_busy {g : Global n} {i : Fin n} (h : g.queue i ≠ []) :
    g.idleIds = g.idleIdsBut i := by
  unfold idleIds idleIdsBut
  have hsplit : (Finset.univ.filter fun j => g.queue j = []) =
      (Finset.univ.erase i).filter fun j => g.queue j = [] := by
    conv_lhs => rw [← Finset.insert_erase (Finset.mem_univ i), Finset.filter_insert, if_neg h]
  rw [hsplit]

theorem idleIdsBut_update {g g' : Global n} {i : Fin n} {s : Scheduler}
    (hsched : g'.schedulers = Function.update g.schedulers i s) :
    g'.idleIdsBut i = g.idleIdsBut i := by
  have hother : ∀ j, j ≠ i → g'.schedulers j = g.schedulers j := fun j hj => by
    rw [hsched, Function.update_of_ne hj]
  unfold idleIdsBut
  have hfilter : ((Finset.univ.erase i).filter fun j => g'.queue j = []) =
      (Finset.univ.erase i).filter fun j => g.queue j = [] :=
    Finset.filter_congr fun j hj => by
      unfold queue
      rw [hother j (Finset.ne_of_mem_erase hj)]
  rw [hfilter]
  refine Multiset.map_congr rfl fun j hj => ?_
  have hmem := (Finset.mem_filter.mp (Finset.mem_val.mp hj)).1
  rw [hother j (Finset.ne_of_mem_erase hmem)]

/-- The list holds no more than the ids of the schedulers with an empty queue. -/
structure Roomy (g : Global n) : Prop where
  ticking : ∀ i, (g.schedulers i).Ticking
  small : n < 2 ^ 31
  capacity : g.freeScMgr.capacity = n
  listed : (g.freeScMgr.ids : Multiset ℕ) ≤ g.idleIds

theorem roomy_new {prs : Fin n → ℕ × ℕ × ℕ} {bits : String → Option (ℕ × ℕ)}
    {ends : Fin n → ℚ} {g : Global n} (h : Global.new prs bits ends = some g) : g.Roomy := by
  obtain ⟨hsmall, hcap, hids⟩ := new_freeScMgr h
  have hidle : ∀ i, (g.schedulers i).Ticking ∧ g.queue i = [] := by
    intro i
    obtain ⟨s, hs, hi⟩ := (new_spec h).1 i
    unfold queue
    rw [hi]
    exact Scheduler.new_ticking hs
  refine ⟨fun i => (hidle i).1, hsmall, hcap, le_of_eq ?_⟩
  unfold idleIds
  rw [hids, Finset.filter_true_of_mem fun i _ => (hidle i).2]
  rfl

/-- While a scheduler has work there is room for an id. -/
theorem Roomy.length_lt {g : Global n} (h : g.Roomy) {i : Fin n} (hi : g.queue i ≠ []) :
    g.freeScMgr.ids.length < g.freeScMgr.capacity := by
  have hle := Multiset.card_le_card h.listed
  unfold idleIds at hle
  rw [Multiset.coe_card, Multiset.card_map, Finset.card_val] at hle
  have hlt : (Finset.univ.filter fun j => g.queue j = []).card < n := by
    have hcard := Finset.card_lt_univ_of_notMem (s := Finset.univ.filter fun j => g.queue j = [])
      (x := i) (by simp [hi])
    rwa [Fintype.card_fin] at hcard
  rw [h.capacity]
  omega

theorem Roomy.congr {g g' : Global n} (h : g.Roomy) (hsched : g'.schedulers = g.schedulers)
    (hfree : g'.freeScMgr = g.freeScMgr) : g'.Roomy := by
  have hidle : g'.idleIds = g.idleIds := by
    unfold idleIds queue
    rw [hsched]
  exact ⟨hsched ▸ h.ticking, h.small, hfree ▸ h.capacity, by rw [hidle, hfree]; exact h.listed⟩

theorem Roomy.submitWgr {g : Global n} (h : g.Roomy) (now : ℚ) (i : Fin n) (w : WorkGroupRange) :
    (g.submitWgr now i w).Roomy := by
  obtain ⟨hids, hcap⟩ := FreeSchedulersManager.ids_removeFreeScheduler
    (m := g.freeScMgr) (by rw [h.capacity]; exact h.small) (g.schedulers i).id
  have hself : (g.submitWgr now i w).schedulers i = (g.schedulers i).enqueue now w :=
    Function.update_self ..
  have hbusy : (g.submitWgr now i w).queue i ≠ [] := by
    unfold queue
    rw [hself, Scheduler.enqueue_inQueue]
    exact CircArray.pushBack_ne_nil _ w (h.ticking i).room
  have hlisted : (g.freeScMgr.ids : Multiset ℕ) ≤ (g.schedulers i).id ::ₘ g.idleIdsBut i := by
    by_cases hi : g.queue i = []
    · rw [← idleIds_of_idle hi]
      exact h.listed
    · exact (h.listed.trans (idleIds_of_busy hi).le).trans (Multiset.le_cons_self _ _)
  refine ⟨ticking_update h.ticking i (Scheduler.enqueue_ticking (h.ticking i) now w), h.small,
    hcap.trans h.capacity, ?_⟩
  rw [idleIds_of_busy hbusy, idleIdsBut_update (g := g) rfl]
  change ((g.freeScMgr.removeFreeScheduler _).ids : Multiset ℕ) ≤ _
  rw [hids, ← Multiset.coe_erase]
  exact Multiset.erase_le_iff_le_cons.mpr hlisted

theorem Roomy.onTimer {g g' : Global n} (h : g.Roomy) {now : ℚ} {i : Fin n}
    {event : Option EventRef} (hg : g.onTimer now i = some (g', event)) : g'.Roomy := by
  obtain ⟨w, rest, hpop, hsched, hfree, -⟩ := onTimer_freeScMgr hg
  have hcons := queue_popFront hpop
  have hlisted := h.listed
  rw [idleIds_of_busy (i := i) (by rw [hcons]; exact List.cons_ne_nil _ _),
    ← idleIdsBut_update hsched] at hlisted
  have hself : g'.schedulers i = (g.schedulers i).restart now rest := by
    rw [hsched, Function.update_self]
  have hid : (g'.schedulers i).id = (g.schedulers i).id := by rw [hself, restart_id]
  have hqueue : g'.queue i = rest.toList := (queue_of_restart hsched).1
  have hticking : ∀ j, (g'.schedulers j).Ticking := by
    rw [hsched]
    exact ticking_update h.ticking i
      (Scheduler.restart_ticking (h.ticking i) now (CircArray.toList_popFront hpop).2)
  cases hempty : rest.empty with
  | true =>
    rw [hempty, if_pos rfl] at hfree
    obtain ⟨hids, hcap⟩ := FreeSchedulersManager.addFreeScheduler_eq_some hfree
    refine ⟨hticking, h.small, hcap.trans h.capacity, ?_⟩
    rw [idleIds_of_idle (hqueue.trans (rest.empty_iff.mp hempty)), hids, hid,
      ← Multiset.coe_add, add_comm]
    exact (Multiset.cons_le_cons_iff _).mpr hlisted
  | false =>
    rw [hempty, if_neg Bool.false_ne_true, Option.some.injEq] at hfree
    have hbusy : g'.queue i ≠ [] := fun hnil => by
      rw [rest.empty_iff.mpr (hqueue.symm.trans hnil)] at hempty
      cases hempty
    refine ⟨hticking, h.small, hfree ▸ h.capacity, ?_⟩
    rw [idleIds_of_busy hbusy, ← hfree]
    exact hlisted

/-- An active timer can fire. -/
theorem Roomy.fires {g : Global n} (h : g.Roomy) (hacc : g.Accounted) {i : Fin n}
    (hactive : (g.schedulers i).timer.isActive = true) (now : ℚ) :
    ∃ g' event, g.onTimer now i = some (g', event) := by
  have hne := (h.ticking i).active.mp hactive
  obtain ⟨w, l, hl⟩ := List.exists_cons_of_ne_nil hne
  obtain ⟨rest, hpop, -, -⟩ := CircArray.popFront_cons hl
  obtain ⟨d, r, hd, hr, -⟩ := hacc.parent (i := i) (w := w) (by
    unfold queue
    rw [hl]
    exact List.mem_cons_self)
  obtain ⟨m, hm⟩ := Option.isSome_iff_exists.mp
    (FreeSchedulersManager.addFreeScheduler_isSome (h.length_lt hne) (g.schedulers i).id)
  unfold Global.onTimer markAsFinished
  rw [hpop, Option.bind_eq_bind, Option.bind_some]
  dsimp only
  rw [hd, Option.bind_eq_bind, Option.bind_some, hr]
  cases hlast : r.decrementWgrsCounter.2 <;> cases rest.empty <;> simp [hlast, hm]

/-! ## Routing -/

/-- How many ranges wait in the queues. -/
def ranges (g : Global n) : ℕ := tally (fun _ => true) g.queue

theorem ranges_change {g g' : Global n} (i : Fin n) (h : ∀ j, j ≠ i → g'.queue j = g.queue j) :
    g'.ranges + (g.queue i).length = g.ranges + (g'.queue i).length := by
  have hchange := tally_change (fun _ => true) i h
  simp only [List.countP_true] at hchange
  exact hchange

theorem ranges_submitWgr (g : Global n) (now : ℚ) (i : Fin n) (w : WorkGroupRange) :
    (g.submitWgr now i w).ranges ≤ g.ranges + 1 := by
  have hchange := ranges_change i fun j hj => queue_submitWgr_of_ne g now hj w
  rw [queue_submitWgr] at hchange
  split at hchange
  · omega
  · rw [List.length_append, List.length_singleton] at hchange
    omega

theorem ranges_onTimer {g g' : Global n} {now : ℚ} {i : Fin n} {event : Option EventRef}
    (hg : g.onTimer now i = some (g', event)) : g'.ranges + 1 = g.ranges := by
  obtain ⟨w, rest, hpop, hsched, -⟩ := onTimer_freeScMgr hg
  obtain ⟨hqueue, hother⟩ := queue_of_restart hsched
  have hchange := ranges_change i hother
  rw [hqueue, queue_popFront hpop, List.length_cons] at hchange
  omega

theorem Roomy.carveAndSubmit {g g' : Global n} (h : g.Roomy) {now : ℚ} {d k : ℕ} {i : Fin n}
    {cost : WorkGroupRange → ℕ} (hg : g.carveAndSubmit now d i k cost = some g') :
    g'.Roomy ∧ g'.ranges ≤ g.ranges + 1 := by
  obtain ⟨⟨w, g₁⟩, hcarve, rfl⟩ := Option.map_eq_some_iff.mp hg
  obtain ⟨r, -, heq⟩ := Option.map_eq_some_iff.mp hcarve
  replace heq := (Prod.mk.inj heq).2
  have hcarved : g₁.Roomy := h.congr (heq ▸ rfl) (heq ▸ rfl)
  refine ⟨hcarved.submitWgr now i _, ?_⟩
  have hqueue : g₁.ranges = g.ranges := heq ▸ rfl
  rw [← hqueue]
  exact ranges_submitWgr _ now i _

/-- A route gives every scheduler at most one range. -/
theorem Roomy.parts {o : AlgoSimple n} {now : ℚ} {d : ℕ} (l : List (Fin n)) {g g' : Global n}
    (h : g.Roomy) (hg : l.foldlM (o.submitPart now d) g = some g') :
    g'.Roomy ∧ g'.ranges ≤ g.ranges + l.length := by
  induction l generalizing g with
  | nil =>
    obtain rfl := Option.some.inj hg
    exact ⟨h, le_rfl⟩
  | cons i l ih =>
    rw [List.foldlM_cons] at hg
    obtain ⟨g₁, hi, hg⟩ := Option.bind_eq_some_iff.mp hg
    have hstep : g₁.Roomy ∧ g₁.ranges ≤ g.ranges + 1 := by
      unfold AlgoSimple.submitPart at hi
      split at hi
      · obtain rfl := Option.some.inj hi
        exact ⟨h, Nat.le_succ _⟩
      · exact h.carveAndSubmit hi
    obtain ⟨hroomy, hranges⟩ := ih hstep.1 hg
    rw [List.length_cons]
    exact ⟨hroomy, by omega⟩

theorem Roomy.route {o o' : AlgoSimple n} {g g' : Global n} (h : g.Roomy)
    {check : ℕ → String → String → Bool} {now : ℚ} {d : ℕ}
    (hg : o.routeNdrange g check now d = some (o', g')) :
    g'.Roomy ∧ g'.ranges ≤ g.ranges + n := by
  obtain ⟨r, -, -, -, hout⟩ := AlgoSimple.routeNdrange_cases hg
  have hparts := h.parts _ (AlgoSimple.handOut_cases hout).1
  rwa [List.length_finRange] at hparts

end Global

end FpgaMl
