import Mathlib.Tactic
import FpgaMl.Carving
import FpgaMl.SlicingChoice

/-! # What a slice costs

`select_best_scheduler` fits a number of work-groups into the quantum. `on_free_schedulers` then
prices the carved range by the size it records, which is its end coordinate, so that a slice costs
what was chosen only where the work-groups before it count for nothing. -/
namespace FpgaMl
open MachineInt TransitionSystem
set_option autoImplicit false

variable {n : ℕ}

/-! ## Costs and quanta -/

namespace Global

/-- The two costs that `select_best_scheduler` asks of the tracker about an island. -/
def wgCostAt (g : Global n) (i : Fin n) (kernelName : String) : ℕ :=
  toU32 (g.tracker.getWgCostOnIsland i kernelName)

def reconfCostAt (g : Global n) (i : Fin n) (kernelName : String) : ℕ :=
  if (g.schedulers i).wouldNeedReconf kernelName then
    toU32 (g.tracker.getReconfCostOnIsland i kernelName) else 0

end Global

namespace AlgoSlicing

/-- The island of a choice, with its costs, and that the number of work-groups fits into the
quantum. -/
structure Choice.Fits (c : Choice) (g : Global n) (kernelName : String) (quant : ℕ) (i : Fin n) :
    Prop where
  island : i.val = c.schedulerIdx
  wgCost : c.wgCost = g.wgCostAt i kernelName
  reconfCost : c.reconfCost = g.reconfCostAt i kernelName
  pos : 0 < c.maxWgs
  small : c.maxWgs < 2 ^ 31
  fits : toU32 c.maxWgs * c.wgCost + c.reconfCost ≤ quant

theorem toU32_i32 {k : ℕ} (hk : k < 2 ^ 32) (hpos : 0 < i32 (k : ℤ)) :
    toU32 (i32 (k : ℤ)) = k := by
  have hsmall : (k : ℤ) < 2 ^ 31 := by
    by_contra hwide
    have := i32_wrap (not_lt.mp hwide) (by omega)
    omega
  have hk := toU32_of_mem (x := k) (by omega) (by omega)
  rw [i32_of_mem (by omega) hsmall]
  omega

section Select

variable {g : Global n} {check : ℕ → String → String → Bool} {r : NDRange} {quant : ℕ}

theorem improve_fits (hquant : quant < 2 ^ 32) (i : Fin n)
    (hreconf : g.reconfCostAt i r.kernel.xmlName ≤ quant) {c : Choice}
    (hc : 0 < c.maxWgs → ∃ i, c.Fits g r.kernel.xmlName quant i) :
    let c' := c.improve quant i (g.reconfCostAt i r.kernel.xmlName) (g.wgCostAt i r.kernel.xmlName)
    0 < c'.maxWgs → ∃ i, c'.Fits g r.kernel.xmlName quant i := by
  have hsub := sub32_of_le hreconf hquant
  have hdiv := Nat.div_mul_le_self (sub32 quant (g.reconfCostAt i r.kernel.xmlName))
    (g.wgCostAt i r.kernel.xmlName)
  unfold Choice.improve
  dsimp only
  split
  · intro hpos
    have hcount := toU32_i32 ((Nat.div_le_self _ _).trans_lt (sub32_lt _ _)) hpos
    refine ⟨i, rfl, rfl, rfl, hpos, i32_upper _, ?_⟩
    dsimp only
    rw [hcount]
    exact (Nat.add_le_add_right (hdiv.trans hsub.le) _).trans (Nat.sub_add_cancel hreconf).le
  · exact hc

theorem consider_eq (g : Global n) (check : ℕ → String → String → Bool) (r : NDRange) (quant : ℕ)
    (c : Choice) (i : Fin n) : consider g check r quant c i =
      if check (g.schedulers i).id r.resourceString r.kernel.xmlName then
        if g.wgCostAt i r.kernel.xmlName = 0 then none
        else some (c.improve quant i (g.reconfCostAt i r.kernel.xmlName)
          (g.wgCostAt i r.kernel.xmlName))
      else some c := by
  unfold consider
  rw [dif_pos i.isLt]
  rfl

theorem consider_out_of_range {v : ℕ} (hv : n ≤ v) (c : Choice) :
    consider g check r quant c v = none := dif_neg (not_lt.mpr hv)

/-- On the suitable schedulers of a list, a reconfiguration costs no more than the quantum. -/
def ReconfWithin (g : Global n) (check : ℕ → String → String → Bool) (r : NDRange) (quant : ℕ)
    (l : List ℕ) : Prop :=
  ∀ i : Fin n, i.val ∈ l → check (g.schedulers i).id r.resourceString r.kernel.xmlName = true →
    g.reconfCostAt i r.kernel.xmlName ≤ quant

theorem selectBestScheduler_fits (hquant : quant < 2 ^ 32)
    (hreconf : ReconfWithin g check r quant g.freeScMgr.ids) {c : Choice}
    (h : selectBestScheduler g check r quant = some (some c)) :
    ∃ i, c.Fits g r.kernel.xmlName quant i := by
  obtain ⟨hpos, -⟩ := selectBestScheduler_pos h
  obtain ⟨-, hfold⟩ := selectBestScheduler_eq_some h
  refine Loops.foldlM_invariant (P := fun c => 0 < c.maxWgs → ∃ i, c.Fits g r.kernel.xmlName quant i)
    ?_ hfold (fun h => absurd h (by norm_num)) hpos
  intro v hv c c' hturn hc
  by_cases hout : n ≤ v
  · rw [consider_out_of_range hout] at hturn
    cases hturn
  · lift v to Fin n using not_le.mp hout
    rw [consider_eq] at hturn
    by_cases hfit : check (g.schedulers v).id r.resourceString r.kernel.xmlName = true
    · rw [if_pos hfit] at hturn
      obtain ⟨-, hturn⟩ := Option.ite_none_left_eq_some.mp hturn
      obtain rfl := Option.some.inj hturn
      exact improve_fits hquant v (hreconf v hv hfit) hc
    · rw [if_neg hfit] at hturn
      exact Option.some.inj hturn ▸ hc

end Select

/-- The quantum of the attempt that made the offer. -/
def quantum (a : AlgoSlicing) (o : Offer) : ℕ :=
  if o.first then a.minQuant else a.minQuant * a.maxIdleThreshold

end AlgoSlicing

/-- A reconfiguration costs no more than the quantum of either attempt. -/
structure CostTables (s : SlicingState n) : Prop where
  quant : s.algo.minQuant < 2 ^ 32
  first : ∀ i k, s.global.reconfCostAt i k ≤ s.algo.minQuant
  second : s.algo.maxIdleThreshold ≠ 0 → ∀ i k,
    s.global.reconfCostAt i k ≤ u32 (s.algo.minQuant * s.algo.maxIdleThreshold)

theorem offered_fits {s : SlicingState n} {check : ℕ → String → String → Bool} {o : Offer}
    (hs : CostTables s) (h : s.algo.offered s.global check = some (some o)) :
    (∃ rest, s.algo.ndranges.popFront = some (o.cell, rest)) ∧
      s.global.ndranges o.cell = some o.ndrange ∧ ∃ i quant, quant ≤ s.algo.quantum o ∧
        quant < 2 ^ 32 ∧ o.choice.Fits s.global o.ndrange.kernel.xmlName quant i := by
  unfold AlgoSlicing.offered at h
  split at h
  · cases h
  obtain ⟨⟨d, rest⟩, hpop, h⟩ := Option.bind_eq_some_iff.mp h
  obtain ⟨r, hr, h⟩ := Option.bind_eq_some_iff.mp h
  obtain ⟨chosen, hfirst, h⟩ := Option.bind_eq_some_iff.mp h
  split at h
  · rename_i hretry
    obtain ⟨chosen', hsecond, h⟩ := Option.bind_eq_some_iff.mp h
    obtain ⟨c, rfl, rfl⟩ := Option.map_eq_some_iff.mp (Option.some.inj h)
    obtain ⟨i, hfits⟩ := AlgoSlicing.selectBestScheduler_fits (u32_lt _)
      (fun i _ _ => hs.second hretry.2 i _) hsecond
    have hle : u32 (s.algo.minQuant * s.algo.maxIdleThreshold) ≤
        s.algo.minQuant * s.algo.maxIdleThreshold := by
      unfold u32
      exact Nat.mod_le _ _
    exact ⟨⟨rest, hpop⟩, hr, i, _, hle, u32_lt _, hfits⟩
  · obtain ⟨c, rfl, rfl⟩ := Option.map_eq_some_iff.mp (Option.some.inj h)
    obtain ⟨i, hfits⟩ := AlgoSlicing.selectBestScheduler_fits hs.quant
      (fun i _ _ => hs.first i _) hfirst
    exact ⟨⟨rest, hpop⟩, hr, i, _, le_rfl, hs.quant, hfits⟩

/-! ## What a slice costs -/

/-- The range is priced by the end coordinate, which it records as its size. -/
theorem Offer.range_cost (o : Offer) : o.range.executionCost =
    u32 (o.ndrange.nextWgr * o.choice.wgCost +
      (o.wgs * o.choice.wgCost + o.choice.reconfCost)) := by
  have hsize : o.range.executionCost = u32 (u32 (u32 (u32 (o.ndrange.nextWgr + o.wgs) * 1 * 1) *
      o.choice.wgCost) + o.choice.reconfCost) := rfl
  rw [hsize]
  unfold u32
  rw [Nat.mul_one, Nat.mul_one, Nat.mod_mod, Nat.mod_mul_mod, Nat.mod_add_mod]
  congr 1
  ring

theorem NDRange.wgsToCarve_le {r : NDRange} {k : ℕ} (htot : r.totalSize < 2 ^ 32)
    (hk : k < 2 ^ 31) (hmore : r.nextWgr < r.totalSize ∨ (r.totalSize = 0 ∧ r.nextWgr = 0)) :
    r.wgsToCarve k ≤ k := by
  obtain hmore | ⟨h0, hnext⟩ := hmore
  · by_cases hfit : r.nextWgr + k ≤ r.totalSize
    · exact (NDRange.wgsToCarve_of_le htot hfit (by omega)).le
    · rw [NDRange.wgsToCarve_of_ge htot hmore.le (by omega) (by omega) (by omega)]
      omega
  · rw [NDRange.empty_wgsToCarve hnext h0 (by omega), if_pos (by omega)]

/-! ## The invariant -/

/-- The ring holds ND-ranges that were routed, each once, with work left or never carved. -/
structure Waits (s : SlicingState n) : Prop where
  nodup : s.algo.ndranges.toList.Nodup
  routed : ∀ d ∈ s.algo.ndranges.toList, d < s.global.nextCell
  waiting : ∀ d ∈ s.algo.ndranges.toList, ∀ r, s.global.ndranges d = some r →
    r.totalSize < 2 ^ 32 ∧ (r.nextWgr < r.totalSize ∨ (r.totalSize = 0 ∧ r.nextWgr = 0))

theorem Waits.route {s : SlicingState n} (hs : Waits s) {k : KernelRef} {e : EventRef}
    {res : String} {x y z : ℕ} {r : NDRange} (hr : NDRange.new k e res x y z = some r) :
    Waits ⟨(s.algo.routeNdrange s.global.nextCell).2, s.global.newNdrange r⟩ := by
  have hobj := NDRange.new_eq_some hr
  have hnot : s.global.nextCell ∉ s.algo.ndranges.toList := fun hmem =>
    lt_irrefl _ (hs.routed _ hmem)
  have hrouted : ∀ d ∈ s.algo.ndranges.toList, d < s.global.nextCell + 1 := fun d hd =>
    Nat.lt_succ_of_lt (hs.routed d hd)
  have hwaiting : ∀ d ∈ s.algo.ndranges.toList, ∀ q, (s.global.newNdrange r).ndranges d = some q →
      q.totalSize < 2 ^ 32 ∧ (q.nextWgr < q.totalSize ∨ (q.totalSize = 0 ∧ q.nextWgr = 0)) := by
    intro d hd q hq
    rw [Global.newNdrange_of_ne _ _ (fun h => hnot (h ▸ hd))] at hq
    exact hs.waiting d hd q hq
  unfold AlgoSlicing.routeNdrange
  cases hfull : s.algo.ndranges.isFull with
  | true => exact ⟨hs.nodup, hrouted, hwaiting⟩
  | false =>
    have hpush := CircArray.toList_pushFront s.algo.ndranges s.global.nextCell hfull
    refine ⟨?_, ?_, ?_⟩ <;> simp only [Bool.false_eq_true, if_false, hpush]
    · exact List.nodup_cons.mpr ⟨hnot, hs.nodup⟩
    · exact List.forall_mem_cons.mpr ⟨Nat.lt_succ_self _, hrouted⟩
    · refine List.forall_mem_cons.mpr ⟨fun q hq => ?_, hwaiting⟩
      rw [Global.newNdrange_self, Option.some.injEq] at hq
      subst hq
      rw [hobj]
      dsimp only
      refine ⟨u32_lt _, ?_⟩
      omega

theorem Waits.offer {s t : SlicingState n} {check : ℕ → String → String → Bool} {now : ℚ}
    (hs : Waits s)
    (h : s.algo.onFreeSchedulers s.global check now = some (t.algo, t.global)) : Waits t := by
  obtain ⟨halgo, hglobal⟩ | ⟨d, rest, r, hpop, hr, ⟨halgo, hglobal⟩ | ⟨c, -, hslice⟩⟩ :=
    AlgoSlicing.onFreeSchedulers_cases h
  · obtain ⟨algo, global⟩ := t
    subst halgo hglobal
    exact hs
  · have hring : s.algo.ndranges.toList.Perm t.algo.ndranges.toList := by
      rw [halgo]
      exact perm_requeue hpop
    refine ⟨hring.nodup_iff.mp hs.nodup, fun e he => ?_, fun e he => ?_⟩
    · rw [hglobal]
      exact hs.routed e (hring.mem_iff.mpr he)
    · rw [hglobal]
      exact hs.waiting e (hring.mem_iff.mpr he)
  · obtain ⟨⟨hidx, hg⟩, -⟩ := AlgoSlicing.slice_spec hr hslice
    have hlist := AlgoSlicing.slice_ring hpop hr hslice
    obtain ⟨q, w, hq, -, hheap, hnextCell, -⟩ := Global.carveAndSubmit_spec hg
    obtain rfl : r = q := Option.some.inj (hr.symm.trans hq)
    have hring := (CircArray.toList_popFront hpop).1
    have hnodup := hs.nodup
    rw [hring] at hnodup
    obtain ⟨hnot, hnodup⟩ := List.nodup_cons.mp hnodup
    have hmem : ∀ e ∈ rest.toList, e ∈ s.algo.ndranges.toList := fun e he => by
      rw [hring]
      exact List.mem_cons_of_mem d he
    have hd : d ∈ s.algo.ndranges.toList := by
      rw [hring]
      exact List.mem_cons_self
    have hrouted : ∀ e ∈ rest.toList, e < t.global.nextCell := fun e he => by
      rw [hnextCell]
      exact hs.routed e (hmem e he)
    have hrest : ∀ e ∈ rest.toList, ∀ q, t.global.ndranges e = some q → q.totalSize < 2 ^ 32 ∧
        (q.nextWgr < q.totalSize ∨ (q.totalSize = 0 ∧ q.nextWgr = 0)) := by
      intro e he q hq
      rw [hheap, Function.update_of_ne (ne_of_mem_of_not_mem he hnot)] at hq
      exact hs.waiting e (hmem e he) q hq
    cases hmore : (r.carveWgs d (toU32 c.maxWgs)).2.hasMoreWgs with
    | false =>
      rw [hmore, if_neg Bool.false_ne_true] at hlist
      exact ⟨by rwa [hlist], by rwa [hlist], by rwa [hlist]⟩
    | true =>
      rw [hmore, if_pos rfl] at hlist
      refine ⟨?_, ?_, ?_⟩ <;> rw [hlist]
      · refine List.nodup_append.mpr ⟨hnodup, List.nodup_singleton d, fun e he f hf => ?_⟩
        rw [List.mem_singleton.mp hf]
        exact ne_of_mem_of_not_mem he hnot
      · refine List.forall_mem_append.mpr ⟨hrouted, List.forall_mem_singleton.mpr ?_⟩
        rw [hnextCell]
        exact hs.routed d hd
      · refine List.forall_mem_append.mpr ⟨hrest, List.forall_mem_singleton.mpr fun q hq => ?_⟩
        rw [hheap, Function.update_self, Option.some.injEq] at hq
        subst hq
        exact ⟨(hs.waiting d hd r hr).1, Or.inl ((NDRange.hasMoreWgs_iff _).mp hmore)⟩

theorem Waits.fire {s t : SlicingState n} {now : ℚ} {i : Fin n} {event : Option EventRef}
    (hs : Waits s) (halgo : t.algo = s.algo)
    (h : s.global.onTimer now i = some (t.global, event)) : Waits t := by
  obtain ⟨-, -, -, -, -, -, -, -, hnextCell, -⟩ := Global.onTimer_spec h
  refine ⟨halgo ▸ hs.nodup, ?_, fun e he q hq => ?_⟩
  · rw [halgo, hnextCell]
    exact hs.routed
  · rw [halgo] at he
    obtain ⟨r, hr, rfl | rfl⟩ := Global.onTimer_cells h hq
    · exact hs.waiting e he q hr
    · exact hs.waiting e he r hr

/-- The parameters and the costs never change. -/
structure SameCosts (s₀ s : SlicingState n) : Prop where
  minQuant : s.algo.minQuant = s₀.algo.minQuant
  maxIdle : s.algo.maxIdleThreshold = s₀.algo.maxIdleThreshold
  tracker : s.global.tracker = s₀.global.tracker
  mock : ∀ i, (s.global.schedulers i).mockWouldNeedReconf =
    (s₀.global.schedulers i).mockWouldNeedReconf

theorem SameCosts.tables {s₀ s : SlicingState n} (h : SameCosts s₀ s) (hs : CostTables s₀) :
    CostTables s := by
  have hsame : ∀ i k, s.global.reconfCostAt i k = s₀.global.reconfCostAt i k := by
    intro i k
    unfold Global.reconfCostAt Scheduler.wouldNeedReconf
    rw [h.mock, h.tracker]
  refine ⟨h.minQuant ▸ hs.quant, fun i k => ?_, fun hidle i k => ?_⟩
  · rw [hsame, h.minQuant]
    exact hs.first i k
  · rw [h.maxIdle] at hidle
    rw [hsame, h.minQuant, h.maxIdle]
    exact hs.second hidle i k

theorem mock_update {s₀ s : SlicingState n} (h : SameCosts s₀ s) (i : Fin n) {c : Scheduler}
    (hmock : c.mockWouldNeedReconf = (s.global.schedulers i).mockWouldNeedReconf) :
    ∀ j, (Function.update s.global.schedulers i c j).mockWouldNeedReconf =
      (s₀.global.schedulers j).mockWouldNeedReconf :=
  (Function.forall_update_iff s.global.schedulers fun j c => c.mockWouldNeedReconf =
    (s₀.global.schedulers j).mockWouldNeedReconf).mpr ⟨hmock.trans (h.mock i), fun j _ => h.mock j⟩

theorem SameCosts.offer {s₀ s t : SlicingState n} {check : ℕ → String → String → Bool} {now : ℚ}
    (hs : SameCosts s₀ s)
    (h : s.algo.onFreeSchedulers s.global check now = some (t.algo, t.global)) :
    SameCosts s₀ t := by
  have hparams : t.algo.minQuant = s.algo.minQuant ∧
      t.algo.maxIdleThreshold = s.algo.maxIdleThreshold := by
    obtain ⟨halgo, -⟩ | ⟨d, rest, r, -, hr, ⟨halgo, -⟩ | ⟨c, -, hslice⟩⟩ :=
      AlgoSlicing.onFreeSchedulers_cases h
    · rw [halgo]
      exact ⟨rfl, rfl⟩
    · rw [halgo]
      exact ⟨rfl, rfl⟩
    · rw [(AlgoSlicing.slice_spec hr hslice).2]
      split <;> exact ⟨rfl, rfl⟩
  refine ⟨hparams.1.trans hs.minQuant, hparams.2.trans hs.maxIdle, ?_, ?_⟩
  all_goals obtain hsame | ⟨o, -, ho⟩ := AlgoSlicing.onFreeSchedulers_effect h
  · rw [hsame, hs.tracker]
  · obtain ⟨i, -, -, -, htracker, -⟩ := AlgoSlicing.submitOffer_spec ho
    rw [htracker, hs.tracker]
  · rw [hsame]
    exact hs.mock
  · obtain ⟨i, -, hsched, -⟩ := AlgoSlicing.submitOffer_spec ho
    rw [hsched]
    exact mock_update hs i (Global.enqueue_mock _ _ _)

theorem waits {check : ℕ → String → String → Bool} {s₀ s : SlicingState n}
    (hring : s₀.algo.ndranges.toList = []) (h : (slicingFrom check s₀).Reachable s) :
    Waits s ∧ SameCosts s₀ s := by
  apply h.invariant
  · rintro _ rfl
    refine ⟨⟨?_, ?_, ?_⟩, rfl, rfl, rfl, fun _ => rfl⟩ <;> rw [hring]
    · exact List.nodup_nil
    · exact List.forall_mem_nil _
    · exact List.forall_mem_nil _
  · rintro s l t ⟨hs, hcosts⟩ hn
    cases l with
    | route kernel event res x y z =>
      obtain ⟨r, hr, rfl⟩ := Option.map_eq_some_iff.mp hn
      refine ⟨hs.route hr, ?_, ?_, hcosts.tracker, hcosts.mock⟩
      all_goals unfold AlgoSlicing.routeNdrange; split
      · exact hcosts.minQuant
      · exact hcosts.minQuant
      · exact hcosts.maxIdle
      · exact hcosts.maxIdle
    | offer now => exact ⟨hs.offer (offer_cases hn), hcosts.offer (offer_cases hn)⟩
    | fire now i =>
      have hn : (slicingLoop n check).next s (.fire now i) = some t := hn
      obtain ⟨halgo, event, hfire⟩ := slicing_fire_cases hn
      obtain ⟨w, rest, -, hsched, -, htracker⟩ := Global.onTimer_freeScMgr hfire
      refine ⟨hs.fire halgo hfire, halgo ▸ hcosts.minQuant, halgo ▸ hcosts.maxIdle, ?_, ?_⟩
      · rw [htracker, hcosts.tracker]
      · rw [hsched]
        exact mock_update hcosts i (Global.restart_mock _ _ _)

/-- The constructor builds schedulers that never need a reconfiguration. -/
theorem costTables_new {prs : Fin n → ℕ × ℕ × ℕ} {bits : String → Option (ℕ × ℕ)}
    {ends : Fin n → ℚ} {g : Global n}
    (h : Global.new prs bits ends = some g) {a : AlgoSlicing} (ha : a.minQuant < 2 ^ 32) :
    CostTables ⟨a, g⟩ := by
  have hzero : ∀ i k, g.reconfCostAt i k = 0 := by
    intro i k
    obtain ⟨s, hs, hi⟩ := (Global.new_spec h).1 i
    obtain ⟨-, hs⟩ := Option.ite_none_right_eq_some.mp hs
    unfold Global.reconfCostAt
    rw [hi, ← Option.some.inj hs]
    rfl
  refine ⟨ha, fun i k => ?_, fun _ i k => ?_⟩
  · rw [hzero]
    exact Nat.zero_le _
  · rw [hzero]
    exact Nat.zero_le _

/-! ## The law -/

/-- The range costs what its work-groups cost on island `i`, and no more than the quantum. -/
structure Respects (s : SlicingState n) (o : Offer) (i : Fin n) : Prop where
  bound : o.range.executionCost ≤ s.algo.quantum o
  cost : o.range.executionCost = o.wgs * s.global.wgCostAt i o.ndrange.kernel.xmlName +
    s.global.reconfCostAt i o.ndrange.kernel.xmlName

theorem respects_iff {s : SlicingState n} (hwaits : Waits s) (hcosts : CostTables s)
    {check : ℕ → String → String → Bool} {o : Offer}
    (ho : s.algo.offered s.global check = some (some o)) {i : Fin n}
    (hi : i.val = o.choice.schedulerIdx) : Respects s o i ↔
      u32 (o.ndrange.nextWgr * s.global.wgCostAt i o.ndrange.kernel.xmlName) = 0 := by
  obtain ⟨⟨rest, hpop⟩, hr, j, quant, hle, hlt, hfits⟩ := offered_fits hcosts ho
  obtain rfl : i = j := Fin.ext (hi.trans hfits.island.symm)
  have hd : o.cell ∈ s.algo.ndranges.toList := by
    rw [(CircArray.toList_popFront hpop).1]
    exact List.mem_cons_self
  obtain ⟨htot, hwait⟩ := hwaits.waiting o.cell hd o.ndrange hr
  have hpos := hfits.pos
  have hsmall := hfits.small
  have hk := toU32_of_mem hpos.le (by omega)
  have hwgs : o.wgs ≤ toU32 o.choice.maxWgs := NDRange.wgsToCarve_le htot (by omega) hwait
  have hcost := o.range_cost
  have hbound : o.wgs * o.choice.wgCost + o.choice.reconfCost ≤ quant :=
    (Nat.add_le_add_right (Nat.mul_le_mul_right _ hwgs) _).trans hfits.fits
  have hsum : ∀ x v, v < 2 ^ 32 → (u32 (x + v) = v ↔ u32 x = 0) := by
    intro x v hv
    unfold u32
    omega
  rw [← hfits.wgCost]
  constructor
  · intro h
    have heq := h.cost
    rw [← hfits.wgCost, ← hfits.reconfCost, hcost] at heq
    exact (hsum _ _ (hbound.trans_lt hlt)).mp heq
  · intro h
    have heq := (hsum _ _ (hbound.trans_lt hlt)).mpr h
    rw [← hcost] at heq
    refine ⟨heq.le.trans (hbound.trans hle), ?_⟩
    rw [← hfits.wgCost, ← hfits.reconfCost]
    exact heq

/-- Every turn that submits a range: it is the one offered, and it respects the quantum exactly
when the work-groups before it cost a multiple of 2^32, as they do for a first slice. -/
theorem slice_respects_iff {check : ℕ → String → String → Bool} {s₀ s t : SlicingState n}
    (hring : s₀.algo.ndranges.toList = []) (hcosts : CostTables s₀)
    (h : (slicingFrom check s₀).Reachable s) {now : ℚ}
    (hn : (slicingFrom check s₀).next s (.offer now) = some t) :
    t.global = s.global ∨ ∃ o i carved, s.algo.offered s.global check = some (some o) ∧
      i.val = o.choice.schedulerIdx ∧
      s.global.carveWgs o.cell (toU32 o.choice.maxWgs) = some carved ∧
      t.global = carved.2.submitWgr now i o.range ∧ (Respects s o i ↔
        u32 (o.ndrange.nextWgr * s.global.wgCostAt i o.ndrange.kernel.xmlName) = 0) := by
  obtain ⟨hwaits, hsame⟩ := waits hring h
  obtain hidle | ⟨o, ho, hsubmit⟩ := AlgoSlicing.onFreeSchedulers_effect (offer_cases hn)
  · exact Or.inl hidle
  · obtain ⟨hidx, hsubmit⟩ := Option.dite_none_right_eq_some.mp hsubmit
    obtain ⟨carved, hcarved, hglobal⟩ := Option.map_eq_some_iff.mp hsubmit
    exact Or.inr ⟨o, ⟨_, hidx⟩, carved, ho, rfl, hcarved, hglobal.symm,
      respects_iff hwaits (hsame.tables hcosts) ho rfl⟩

/-- Two regions, ten milliseconds a work-group: three of six work-groups are sliced off. -/
theorem slice_respects_iff_first : ∃ (s t : SlicingState 2) (o : Offer) (i : Fin 2),
    t.global.history.carved 0 = 1 ∧ o.range.executionCost = 30 ∧ Respects s o i := by
  have hrun : ((Global.new (fun i : Fin 2 => (0, 1, i.val)) (fun _ => some (10, 10))
      fun _ => 0).bind fun g =>
      ((slicingFrom checkResourceString ⟨AlgoSlicing.new 30 2, g⟩).run ⟨AlgoSlicing.new 30 2, g⟩
        [.route default default "" 6 1 1]).bind fun s =>
      ((slicingFrom checkResourceString ⟨AlgoSlicing.new 30 2, g⟩).next s (.offer 0)).bind fun t =>
      (s.algo.offered s.global checkResourceString).map fun o =>
        (o.map fun o => (o.range.executionCost, o.ndrange.nextWgr), s.global.history.carved 0,
          t.global.history.carved 0)) = some (some (30, 0), 0, 1) := by
    decide +kernel
  obtain ⟨g, hg, hrun⟩ := Option.bind_eq_some_iff.mp hrun
  obtain ⟨s, hs, hrun⟩ := Option.bind_eq_some_iff.mp hrun
  obtain ⟨t, ht, hrun⟩ := Option.bind_eq_some_iff.mp hrun
  obtain ⟨offer, hoffer, hview⟩ := Option.map_eq_some_iff.mp hrun
  obtain ⟨hoffer', hcarved⟩ := Prod.mk.inj hview
  obtain ⟨hbefore, hafter⟩ := Prod.mk.inj hcarved
  obtain ⟨o, rfl, hnumbers⟩ := Option.map_eq_some_iff.mp hoffer'
  obtain ⟨hcost, hnext⟩ := Prod.mk.inj hnumbers
  have hcosts : CostTables (⟨AlgoSlicing.new 30 2, g⟩ : SlicingState 2) :=
    costTables_new hg (by norm_num [AlgoSlicing.new])
  obtain hidle | ⟨o', i, -, ho', -, -, -, hlaw⟩ := slice_respects_iff
    (CircArray.toList_new 10) hcosts (Machine.Reachable.run (.start rfl) hs) ht
  · rw [hidle] at hafter
    omega
  · obtain rfl := Option.some.inj (Option.some.inj (hoffer.symm.trans ho'))
    refine ⟨s, t, o, i, hafter, hcost, hlaw.mpr ?_⟩
    rw [hnext, Nat.zero_mul]
    exact u32_of_lt (by norm_num)

/-- The other three go to the other island, at the price of six. -/
theorem slice_exceeds_quantum : ∃ (s₀ s t : SlicingState 2) (o : Offer),
    s₀.algo = AlgoSlicing.new 30 2 ∧ CostTables s₀ ∧
      (slicingFrom checkResourceString s₀).Reachable s ∧
      (slicingFrom checkResourceString s₀).next s (.offer 0) = some t ∧
      s.algo.offered s.global checkResourceString = some (some o) ∧ o.first = true ∧ o.wgs = 3 ∧
      o.range.executionCost = 60 ∧ ∀ i, ¬ Respects s o i := by
  have hrun : ((Global.new (fun i : Fin 2 => (0, 1, i.val)) (fun _ => some (10, 10))
      fun _ => 0).bind fun g =>
      ((slicingFrom checkResourceString ⟨AlgoSlicing.new 30 2, g⟩).run ⟨AlgoSlicing.new 30 2, g⟩
        [.route default default "" 6 1 1, .offer 0]).bind fun s =>
      ((slicingFrom checkResourceString ⟨AlgoSlicing.new 30 2, g⟩).next s (.offer 0)).bind fun _ =>
      (s.algo.offered s.global checkResourceString).map fun o =>
        (o.map fun o => (o.range.executionCost, o.first, o.wgs), s.algo.minQuant)) =
          some (some (60, true, 3), 30) := by
    decide +kernel
  obtain ⟨g, hg, hrun⟩ := Option.bind_eq_some_iff.mp hrun
  obtain ⟨s, hs, hrun⟩ := Option.bind_eq_some_iff.mp hrun
  obtain ⟨t, ht, hrun⟩ := Option.bind_eq_some_iff.mp hrun
  obtain ⟨offer, hoffer, hview⟩ := Option.map_eq_some_iff.mp hrun
  obtain ⟨hoffer', hquant⟩ := Prod.mk.inj hview
  obtain ⟨o, rfl, hnumbers⟩ := Option.map_eq_some_iff.mp hoffer'
  obtain ⟨hcost, hnumbers⟩ := Prod.mk.inj hnumbers
  obtain ⟨hfirst, hwgs⟩ := Prod.mk.inj hnumbers
  have hcosts : CostTables (⟨AlgoSlicing.new 30 2, g⟩ : SlicingState 2) :=
    costTables_new hg (by norm_num [AlgoSlicing.new])
  refine ⟨_, s, t, o, rfl, hcosts, Machine.Reachable.run (.start rfl) hs, ht, hoffer, hfirst, hwgs,
    hcost, fun i h => ?_⟩
  have hbound := h.bound
  unfold AlgoSlicing.quantum at hbound
  rw [hfirst, if_pos rfl, hcost, hquant] at hbound
  omega

end FpgaMl
