import Mathlib.Tactic
import FpgaMl.Dispatcher
import FpgaMl.RouteAssertion
import FpgaMl.RouteCost

/-! # The arithmetic of a launch

From the work sizes of `clEnqueueNDRangeKernel` to the number of work-groups that AlgoSimple hands
out, the costs that it compares and those that it sets on the ranges, against the same values in
unbounded integers. -/
namespace FpgaMl
open MachineInt Distribution
set_option autoImplicit false

variable {n : ℕ}

namespace AlgoSimple

/-! ## The leaves of the search -/

/-- The objects for which `recursive_function` calls `calculate_total`, in their order, when the
bounds of its loops do not overflow. Each pass of the loop starts from what the passes before it left. -/
def leafCalls : List (Fin n) → ℤ → AlgoSimple n → List (AlgoSimple n)
  | [], numItems, o => if numItems = 0 then [o] else []
  | i :: rest, numItems, o =>
    if o.wgsPerIslands i = unsuitableIsland then leafCalls rest numItems o
    else (List.range (turns numItems)).flatMap fun (counter : ℕ) =>
      leafCalls rest counter (((List.range counter).foldl (fun o (c : ℕ) =>
        explore rest c (o.putItems i (numItems - c))) o).putItems i (numItems - counter))

/-- The calls of `calculate_total` in the search of `route_ndrange`. -/
def searchLeaves (o : AlgoSimple n) (q : IslandQuery n) (numWgs : ℤ) : List (AlgoSimple n) :=
  (o.setUp q).leafCalls (List.finRange n) numWgs

/-- The leaves are the splits of the items among the suitable islands. -/
theorem leafCalls_eq (fits : Fin n → Bool) (rest : List (Fin n)) (k : ℕ) (o : AlgoSimple n)
    (hnd : rest.Nodup) (hm : Marked fits rest o) :
    (leafCalls rest k o).map wgsPerIslands = splits (rest.filter fits) k o.wgsPerIslands ∧
      ∀ leaf ∈ leafCalls rest k o, SameCosts o leaf := by
  induction rest generalizing k o with
  | nil =>
    unfold leafCalls
    simp only [List.filter_nil, splits, Nat.cast_eq_zero]
    by_cases hzero : k = 0
    · rw [if_pos hzero, if_pos hzero]
      refine ⟨rfl, fun leaf hleaf => ?_⟩
      rw [List.mem_singleton.mp hleaf]
      exact SameCosts.refl o
    · rw [if_neg hzero, if_neg hzero]
      exact ⟨rfl, fun leaf hleaf => absurd hleaf List.not_mem_nil⟩
  | cons i rest ih =>
    obtain ⟨hi, hnd⟩ := List.nodup_cons.mp hnd
    have hrest : Marked fits rest o := fun j hj => hm j (List.mem_cons_of_mem i hj)
    unfold leafCalls
    cases hf : fits i with
    | false =>
      rw [if_pos ((hm i List.mem_cons_self).mpr hf), List.filter_cons_of_neg (by simp [hf])]
      exact ih k o hnd hrest
    | true =>
      have hne : o.wgsPerIslands i ≠ unsuitableIsland := fun hun => by
        rw [(hm i List.mem_cons_self).mp hun] at hf
        cases hf
      rw [if_neg hne, List.filter_cons_of_pos hf, turns_natCast]
      -- what the first `c` passes leave behind agrees with `o` outside the cells of the loop
      have hpass : ∀ c, c ≤ k →
          let o' := ((List.range c).foldl (fun o (c : ℕ) =>
            explore rest c (o.putItems i (k - c))) o).putItems i (k - c)
          (leafCalls rest c o').map wgsPerIslands =
              splits (rest.filter fits) c (Function.update o.wgsPerIslands i (k - c)) ∧
            ∀ leaf ∈ leafCalls rest c o', SameCosts o leaf := by
        intro c hc o'
        obtain ⟨-, hcosts, hframe, hmark⟩ := loop_explored hi (fun o' c hc hm' =>
          explored fits rest c (o'.putItems i (k - c)) hnd (marked_putItems hi hm' _)) hrest c (by omega)
        obtain ⟨hleaves, hsame⟩ := ih c o' hnd (marked_putItems hi hmark _)
        refine ⟨hleaves.trans (splits_congr _ _ _ _ fun j hj => ?_), fun leaf hleaf =>
          SameCosts.trans hcosts (hsame leaf hleaf)⟩
        obtain rfl | hji := eq_or_ne j i
        · rw [Function.update_self]
          exact Function.update_self ..
        · rw [Function.update_of_ne hji]
          exact (Function.update_of_ne hji _ _).trans
            (hframe j (List.not_mem_cons_of_ne_of_not_mem hji hj))
      constructor
      · rw [List.map_flatMap, splits]
        exact List.flatMap_congr fun c hc =>
          (hpass c (Nat.lt_succ_iff.mp (List.mem_range.mp hc))).1
      · intro leaf hleaf
        obtain ⟨c, hc, hleaf⟩ := List.mem_flatMap.mp hleaf
        exact (hpass c (Nat.lt_succ_iff.mp (List.mem_range.mp hc))).2 leaf hleaf

theorem searchLeaves_distribute (o : AlgoSimple n) (q : IslandQuery n) (W : ℕ) :
    (∀ leaf ∈ o.searchLeaves q W, Distributes q.fits W leaf.wgsPerIslands ∧
      SameCosts q.prepared leaf) ∧
    ∀ v, Distributes q.fits W v → ∃ leaf ∈ o.searchLeaves q W, leaf.wgsPerIslands = v := by
  obtain ⟨hleaves, hsame⟩ := leafCalls_eq q.fits (List.finRange n) W q.prepared
    (List.nodup_finRange n) (marked_prepared q)
  unfold searchLeaves
  rw [setUp_eq]
  refine ⟨fun leaf hleaf => ⟨(distributes_iff q W _).mpr ?_, hsame leaf hleaf⟩, fun v hv => ?_⟩
  · have hmem := List.mem_map_of_mem (f := wgsPerIslands) hleaf
    rw [hleaves] at hmem
    exact hmem
  · have hmem := (distributes_iff q W v).mp hv
    exact List.mem_map.mp (hleaves.symm ▸ hmem)

end AlgoSimple

/-! ## The values in unbounded integers -/

/-- The seconds that the range in front of a scheduler still takes. -/
def Global.timeLeft (g : Global n) (now : ℚ) (i : Fin n) : ℕ := ⌊(g.schedulers i).endTime - now⌋.toNat

/-- The execution cost of `k` work-groups on an island. -/
def IslandQuery.executionCost (q : IslandQuery n) (i : Fin n) (k : ℤ) : ℤ := k * q.wgCost i + q.reconf i

/-- What `calculate_total` is to compare for an island with `k` work-groups. -/
def Global.totalCost (g : Global n) (now : ℚ) (q : IslandQuery n) (i : Fin n) (k : ℤ) : ℤ :=
  q.executionCost i k + g.timeLeft now i

theorem getRemainingTime_eq (g : Global n) (now : ℚ) (i : Fin n) :
    (g.schedulers i).getRemainingTime now = u32 (g.timeLeft now i) := by
  unfold Scheduler.getRemainingTime Global.timeLeft
  split
  · rename_i hneg
    rw [Int.toNat_of_nonpos (Int.floor_lt.mpr (by exact_mod_cast hneg)).le, u32_of_lt (by norm_num)]
  · rfl

/-- All the work-groups on one suitable island are a distribution. -/
theorem distributes_single (q : IslandQuery n) {i : Fin n} (hi : q.fits i = true) (W : ℕ) :
    Distributes q.fits W (Function.update q.blank i W) := by
  have hother : ∀ j, j ≠ i → Function.update q.blank i (W : ℤ) j = q.blank j := fun j hj =>
    Function.update_of_ne hj _ _
  refine ⟨fun j => ?_, fun j hj => ?_, ?_⟩
  · obtain rfl | hji := eq_or_ne j i
    · rw [Function.update_self, hi]
      unfold unsuitableIsland
      refine iff_of_false (by omega) nofun
    · rw [hother j hji]
      unfold IslandQuery.blank
      cases q.fits j <;> decide
  · obtain rfl | hji := eq_or_ne j i
    · rw [Function.update_self]
      exact Nat.cast_nonneg W
    · rw [hother j hji, IslandQuery.blank, if_pos hj]
  · rw [Finset.sum_eq_single_of_mem i (Finset.mem_filter.mpr ⟨Finset.mem_univ i, hi⟩) fun j hj hji => ?_]
    · exact Function.update_self ..
    · rw [hother j hji, IslandQuery.blank, if_pos (Finset.mem_filter.mp hj).2]

section Costs

variable {q : IslandQuery n} {G : ℕ} {v : Fin n → ℤ} {i : Fin n}

theorem Distributes.fits_of_pos (h : Distributes q.fits G v) (hi : 0 < v i) : q.fits i = true := by
  by_contra hf
  rw [(h.unsuitable i).mpr (Bool.eq_false_of_not_eq_true hf)] at hi
  exact absurd hi (by decide)

/-- An island with a part of the launch costs no more than with all of it. -/
theorem Distributes.cost_le (h : Distributes q.fits G v) (hwg : 0 ≤ q.wgCost i) (hi : 0 < v i) :
    q.executionCost i (v i) ≤ q.executionCost i G := by
  unfold IslandQuery.executionCost
  have hmul := mul_le_mul_of_nonneg_right (h.le_total (h.fits_of_pos hi)) hwg
  omega

end Costs

namespace AlgoSimple

/-- The arithmetic of a launch of `G` work-groups is exact: the conversions up to the search, the
bound of its loops, the costs at its leaves; and the route hands out all the work-groups, in ranges
with their costs. -/
structure LaunchExact (o : AlgoSimple n) (g : Global n) (check : ℕ → String → String → Bool)
    (now : ℚ) (d : ℕ) (r : NDRange) (G : ℕ) : Prop where
  converted : i32 r.totalSize = G
  loops : (∃ i, (g.islandQuery check now r).fits i = true) →
    i32 (i32 r.totalSize + 1) = i32 r.totalSize + 1
  leaves : ∀ leaf ∈ o.searchLeaves (g.islandQuery check now r) (i32 r.totalSize), ∀ i,
    0 < leaf.wgsPerIslands i →
      leaf.wgsCost i = g.totalCost now (g.islandQuery check now r) i (leaf.wgsPerIslands i)
  routed : ∃ o' g', o.search (g.islandQuery check now r) (i32 r.totalSize) = some o' ∧
    o'.handOut now d g = some g' ∧ ∑ i with 0 < o'.result i, o'.result i = G ∧
    ∀ i, o'.Serves i → ∃ w : WorkGroupRange,
      g'.schedulers i = (g.schedulers i).enqueue now w ∧
        (w.executionCost : ℤ) = (g.islandQuery check now r).executionCost i (o'.result i)

/-- At a leaf with the costs of the query, an exact value is one that an `int` holds. -/
theorem wgsCost_exact_iff {g : Global n} {check : ℕ → String → String → Bool} {now : ℚ}
    {r : NDRange} {leaf : AlgoSimple n} {i : Fin n}
    (hcosts : SameCosts (g.islandQuery check now r).prepared leaf)
    (hfit : (g.islandQuery check now r).fits i = true)
    (hwg : 0 ≤ (g.islandQuery check now r).wgCost i)
    (hreconf : 0 ≤ (g.islandQuery check now r).reconf i) (hpos : 0 < leaf.wgsPerIslands i) :
    leaf.wgsCost i = g.totalCost now (g.islandQuery check now r) i (leaf.wgsPerIslands i) ↔
      g.totalCost now (g.islandQuery check now r) i (leaf.wgsPerIslands i) < 2 ^ 31 := by
  set q := g.islandQuery check now r with hq
  have hmul : 0 ≤ leaf.wgsPerIslands i * q.wgCost i := mul_nonneg hpos.le hwg
  have hcost : leaf.wgsCost i =
      i32 (i32 (i32 (leaf.wgsPerIslands i * q.wgCost i) + q.remainingTime i) + q.reconf i) := by
    unfold wgsCost
    rw [hcosts.1, hcosts.2.1, hcosts.2.2]
    unfold IslandQuery.prepared
    dsimp only
    rw [if_pos hfit, if_pos hfit, if_pos hfit]
  have htime : q.remainingTime i = i32 (u32 (g.timeLeft now i)) := by
    rw [← getRemainingTime_eq]
    rfl
  rw [hcost, htime]
  unfold Global.totalCost IslandQuery.executionCost
  constructor
  · intro heq
    rw [← heq]
    exact i32_upper _
  · intro hlt
    rw [u32_of_lt (by omega), i32_natCast (by omega), i32_sum hmul (Nat.cast_nonneg _) hreconf
      (by omega)]
    ring

/-- The price of a share is exact when the whole launch on the island has a cost that an `int`
holds. -/
theorem Keeps.price_exact {q : IslandQuery n} {o : AlgoSimple n} (h : Keeps q o) {i : Fin n}
    (hi : 0 < o.result i) (hwg : 0 ≤ q.wgCost i) (hreconf : 0 ≤ q.reconf i)
    (hbound : q.executionCost i (o.result i) < 2 ^ 31) :
    (toU64 (o.price i) : ℤ) = q.executionCost i (o.result i) := by
  have hmul : 0 ≤ o.result i * q.wgCost i := mul_nonneg hi.le hwg
  have hprice : o.price i = q.executionCost i (o.result i) := by
    rw [h.price hi]
    unfold IslandQuery.rangeCost
    unfold IslandQuery.executionCost at hbound ⊢
    rw [i32_of_mem (x := o.result i * q.wgCost i) (by omega) (by omega),
      i32_of_mem (by omega) hbound]
  have hnonneg : 0 ≤ q.executionCost i (o.result i) := add_nonneg hmul hreconf
  obtain ⟨k, hk⟩ := Int.eq_ofNat_of_zero_le hnonneg
  rw [hprice, hk, toU64_natCast (by omega)]

section Exact

variable {o : AlgoSimple n} {g : Global n} {check : ℕ → String → String → Bool} {now : ℚ} {d : ℕ}
  {r : NDRange} {G : ℕ}

/-- An exact launch that is not empty has a suitable island, and room for all its work-groups and
for what they cost. -/
theorem LaunchExact.within (h : LaunchExact o g check now d r G)
    (hwg : ∀ i, 0 ≤ (g.islandQuery check now r).wgCost i)
    (hreconf : ∀ i, 0 ≤ (g.islandQuery check now r).reconf i) (hne : G ≠ 0) :
    (∃ i, (g.islandQuery check now r).fits i = true) ∧ G + 1 < 2 ^ 31 ∧
      ∀ i, (g.islandQuery check now r).fits i = true →
        g.totalCost now (g.islandQuery check now r) i G < 2 ^ 31 := by
  set q := g.islandQuery check now r with hq
  have hfit : ∃ i, q.fits i = true := by
    by_contra hnone
    obtain ⟨o', g', hsearch, -, htotal, -⟩ := h.routed
    rw [Finset.sum_eq_zero fun i hi => absurd
      ⟨i, (search_keeps hsearch).fits (Finset.mem_filter.mp hi).2⟩ hnone] at htotal
    exact hne (by exact_mod_cast htotal.symm)
  have hloop : G + 1 < 2 ^ 31 := by
    have hsum := h.loops hfit
    have hupper := i32_upper (i32 r.totalSize + 1)
    rw [hsum, h.converted] at hupper
    exact_mod_cast hupper
  refine ⟨hfit, hloop, fun i hi => ?_⟩
  have hleaves := h.leaves
  rw [h.converted] at hleaves
  obtain ⟨hdist, hall⟩ := searchLeaves_distribute o q G
  obtain ⟨leaf, hleaf, hwgs⟩ := hall _ (distributes_single q hi G)
  have hcell : leaf.wgsPerIslands i = G := by
    rw [hwgs]
    exact Function.update_self ..
  have hpos : 0 < leaf.wgsPerIslands i := by omega
  have hexact := (wgsCost_exact_iff (hdist leaf hleaf).2 hi (hwg i) (hreconf i) hpos).mp
    (hleaves leaf hleaf i hpos)
  rwa [hcell] at hexact

/-- A share that is not empty has a cost within the bound of the whole launch. -/
theorem totalCost_lt_of_share (hwg : ∀ i, 0 ≤ (g.islandQuery check now r).wgCost i)
    (h : G = 0 ∨ ∀ i, (g.islandQuery check now r).fits i = true →
      g.totalCost now (g.islandQuery check now r) i G < 2 ^ 31) {v : Fin n → ℤ}
    (hv : Distributes (g.islandQuery check now r).fits G v) {i : Fin n} (hi : 0 < v i) :
    g.totalCost now (g.islandQuery check now r) i (v i) < 2 ^ 31 := by
  have hfit := hv.fits_of_pos hi
  obtain hzero | hall := h
  · have hle := hv.le_total hfit
    omega
  · have hle := hv.cost_le (hwg i) hi
    have hlt := hall i hfit
    unfold Global.totalCost at hlt ⊢
    omega

theorem launchExact_of_within (hr : g.ndranges d = some r) (hnext : r.nextWgr = 0)
    (htot : r.totalSize = G) (hwg : ∀ i, 0 ≤ (g.islandQuery check now r).wgCost i)
    (hreconf : ∀ i, 0 ≤ (g.islandQuery check now r).reconf i) (hsmall : G + 1 < 2 ^ 31)
    (h : G = 0 ∨ (∃ i, (g.islandQuery check now r).fits i = true) ∧
      ∀ i, (g.islandQuery check now r).fits i = true →
        g.totalCost now (g.islandQuery check now r) i G < 2 ^ 31) :
    LaunchExact o g check now d r G := by
  set q := g.islandQuery check now r with hq
  have hconv : i32 r.totalSize = G := by
    rw [htot]
    exact i32_natCast (by omega)
  have hbound : ∀ v, Distributes q.fits G v → ∀ i, 0 < v i → g.totalCost now q i (v i) < 2 ^ 31 :=
    fun v hv i => totalCost_lt_of_share hwg (h.imp_right And.right) hv
  refine ⟨hconv, fun _ => ?_, fun leaf hleaf i hi => ?_, ?_⟩
  · rw [hconv, i32_of_mem (by omega) (by omega)]
  · rw [hconv] at hleaf
    obtain ⟨hdist, hcosts⟩ := (searchLeaves_distribute o q G).1 leaf hleaf
    exact (wgsCost_exact_iff hcosts (hdist.fits_of_pos hi) (hwg i) (hreconf i) hi).mpr
      (hbound _ hdist i hi)
  · obtain ⟨o', hsearch, -, hbest⟩ := o.search_cheapest q hsmall (h.imp_right And.left)
    have hdist := hbest.distributes
    obtain ⟨g', hout, hrouted⟩ := handOut_shares now hr hnext (by omega) (htot.symm ▸ hdist)
    refine ⟨o', g', by rw [hconv, hsearch], hout, hrouted.total.trans (by rw [htot]), fun i hi => ?_⟩
    have hpos : 0 < o'.result i :=
      (serves_iff_of_part ((part_of_distributes hdist).1 i)).mp hi
    obtain ⟨w, hcost, hsched⟩ := foldlM_schedulers hi (handOut_cases hout).1
    have hlt : q.executionCost i (o'.result i) < 2 ^ 31 := by
      have htotal := hbound _ hdist i hpos
      unfold Global.totalCost at htotal
      omega
    exact ⟨w, hsched, hcost ▸ (search_keeps hsearch).price_exact hpos (hwg i) (hreconf i) hlt⟩

end Exact

/-- Every conversion, product and sum of a launch is exact when and only when it is empty, or some
island is suitable, an `int` holds the number of its work-groups and one more, and on no suitable
island all of them together cost more than an `int` holds. -/
theorem launch_exact_iff (o : AlgoSimple n) {g : Global n} (check : ℕ → String → String → Bool)
    (now : ℚ) {d : ℕ} {r : NDRange} {kernel : KernelRef} {event : EventRef} {res : String}
    (args : NdrArgs) (hnew : NDRange.new kernel event res args.numWgs 1 1 = some r)
    (hr : g.ndranges d = some r)
    (hwg : ∀ i, 0 ≤ g.tracker.getWgCostOnIsland i kernel.xmlName)
    (hreconf : ∀ i, 0 ≤ g.tracker.getReconfCostOnIsland i kernel.xmlName) :
    LaunchExact o g check now d r (args.globalWorkSize / args.localWorkSize) ↔
      args.globalWorkSize / args.localWorkSize = 0 ∨
        (∃ i, check (g.schedulers i).id res kernel.xmlName = true) ∧
          args.globalWorkSize / args.localWorkSize + 1 < 2 ^ 31 ∧
            ∀ i, check (g.schedulers i).id res kernel.xmlName = true →
              g.totalCost now (g.islandQuery check now r) i
                (args.globalWorkSize / args.localWorkSize : ℕ) < 2 ^ 31 := by
  simp only [← fits_islandQuery check now hnew]
  obtain ⟨hnext, htot⟩ := NDRange.new_fields (u32_lt _) hnew
  generalize args.globalWorkSize / args.localWorkSize = G at htot ⊢
  have hname : r.kernel = kernel := by rw [NDRange.new_eq_some hnew]
  have hwg' : ∀ i, 0 ≤ (g.islandQuery check now r).wgCost i := fun i => by
    rw [← hname] at hwg
    exact hwg i
  have hreconf' : ∀ i, 0 ≤ (g.islandQuery check now r).reconf i := fun i => by
    unfold IslandQuery.reconf
    split
    · rw [← hname] at hreconf
      exact hreconf i
    · exact le_rfl
  constructor
  · intro h
    by_cases hzero : G = 0
    · exact Or.inl hzero
    · exact Or.inr (h.within hwg' hreconf' hzero)
  · intro h
    have hsmall : G + 1 < 2 ^ 31 := by
      obtain hzero | ⟨-, hsmall, -⟩ := h
      · omega
      · exact hsmall
    exact launchExact_of_within hr hnext (htot.trans (u32_of_lt (by omega))) hwg' hreconf' hsmall
      (h.imp_right fun hall => ⟨hall.1, hall.2.2⟩)

/-- Three work-groups of ten on one idle region. -/
theorem launch_exact_iff_three : ∃ (g : Global 1) (r : NDRange),
    NDRange.new default default "" (NdrArgs.numWgs ⟨some (0, some ""), 30, 10⟩) 1 1 = some r ∧
      g.ndranges 0 = some r ∧ LaunchExact (new 1) g checkResourceString 0 0 r 3 := by
  have hrun : ((Global.new (fun _ : Fin 1 => (0, 1, 1)) (fun _ => none) fun _ => 0).bind fun g =>
      (NDRange.new default default "" (NdrArgs.numWgs ⟨some (0, some ""), 30, 10⟩) 1 1).map fun r =>
        decide ((g.newNdrange r).ndranges 0 = some r ∧
          (∀ i, 0 ≤ (g.newNdrange r).tracker.getWgCostOnIsland i "") ∧
          (∀ i, 0 ≤ (g.newNdrange r).tracker.getReconfCostOnIsland i "") ∧
          ∀ i, (g.newNdrange r).totalCost 0
            ((g.newNdrange r).islandQuery checkResourceString 0 r) i 3 < 2 ^ 31)) = some true := by
    decide +kernel
  obtain ⟨g, -, hrun⟩ := Option.bind_eq_some_iff.mp hrun
  obtain ⟨r, hr, hfacts⟩ := Option.map_eq_some_iff.mp hrun
  obtain ⟨hcell, hwg, hreconf, hcost⟩ := of_decide_eq_true hfacts
  exact ⟨g.newNdrange r, r, hr, hcell, (launch_exact_iff (new 1) checkResourceString 0
    ⟨some (0, some ""), 30, 10⟩ hr hcell hwg hreconf).mpr
      (Or.inr ⟨⟨0, rfl⟩, by norm_num, fun i _ => hcost i⟩)⟩

/-- A launch of `2 ^ 32 + 1` work-items, one in each work-group, is accepted and becomes a launch of
one work-group. -/
theorem wide_launch_truncated : ∃ (bits : Bitstreams) (g : Global 1) (r : NDRange),
    bits.accepts (.ndrange ⟨some (0, some ""), 2 ^ 32 + 1, 1⟩) = true ∧
      NDRange.new default default "" (NdrArgs.numWgs ⟨some (0, some ""), 2 ^ 32 + 1, 1⟩) 1 1 =
        some r ∧ g.ndranges 0 = some r ∧ r.totalSize = 1 ∧
      ¬ LaunchExact (new 1) g checkResourceString 0 0 r (2 ^ 32 + 1) := by
  have hrun : ((Global.new (fun _ : Fin 1 => (0, 1, 1)) (fun _ => none) fun _ => 0).bind fun g =>
      (NDRange.new default default "" (NdrArgs.numWgs ⟨some (0, some ""), 2 ^ 32 + 1, 1⟩)
        1 1).map fun r => decide ((g.newNdrange r).ndranges 0 = some r ∧ r.totalSize = 1)) =
          some true := by
    decide +kernel
  obtain ⟨g, -, hrun⟩ := Option.bind_eq_some_iff.mp hrun
  obtain ⟨r, hr, hfacts⟩ := Option.map_eq_some_iff.mp hrun
  obtain ⟨hcell, htot⟩ := of_decide_eq_true hfacts
  refine ⟨⟨fun _ => none, fun _ => some 1⟩, g.newNdrange r, r, by decide +kernel, hr, hcell, htot,
    fun h => ?_⟩
  have hconverted := h.converted
  rw [htot, i32_natCast (by norm_num)] at hconverted
  omega

end AlgoSimple

end FpgaMl
