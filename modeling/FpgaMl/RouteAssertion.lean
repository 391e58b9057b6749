import Mathlib.Tactic
import FpgaMl.RouteSimple

/-! # The assertion at the end of a route

`route_ndrange` carves one range for each island with a positive share and asserts that nothing of
the ND-range is left. For a fresh ND-range and any object, schedulers, verdicts and costs this is
settled by the number of its work-groups, by whether some island is suitable, and by whether the
cheapest distribution fits into the line that is logged before. -/
namespace FpgaMl
open MachineInt
set_option autoImplicit false

namespace AlgoSimple

variable {n : ℕ}

/-- Island `i` was given one range of the ND-range in cell `d`, with `share` work-groups. The range
has its end where its size should be. -/
def GivenRange (g g' : Global n) (now : ℚ) (d : ℕ) (i : Fin n) (share : ℤ) : Prop :=
  ∃ w : WorkGroupRange, g'.schedulers i = (g.schedulers i).enqueue now w ∧
    w.parentNdrange = some d ∧ (w.sizeX : ℤ) = w.startX + share

/-- What a route of `N` work-groups is to do: the positive shares are the whole, each of them is one
range of its island, the other islands get nothing, and nothing is left to carve. -/
structure Routed (g : Global n) (now : ℚ) (d N : ℕ) (o' : AlgoSimple n) (g' : Global n) : Prop where
  total : ∑ i with 0 < o'.result i, o'.result i = N
  served : ∀ i, 0 < o'.result i → GivenRange g g' now d i (o'.result i)
  others : ∀ i, ¬ 0 < o'.result i → g'.schedulers i = g.schedulers i
  done : ∃ r', g'.ndranges d = some r' ∧ r'.hasMoreWgs = false

/-- The route comes to its end, past the log and the assertion, and does what it is to do. -/
def RoutesWhole (o : AlgoSimple n) (g : Global n) (check : ℕ → String → String → Bool) (now : ℚ)
    (d N : ℕ) : Prop :=
  ∃ o' g', o.routeNdrange g check now d = some (o', g') ∧ Routed g now d N o' g'

/-! ## The loop that carves -/

theorem submitPart_skip (o : AlgoSimple n) (now : ℚ) (d : ℕ) (g : Global n) {i : Fin n}
    (hi : ¬ o.Serves i) : o.submitPart now d g i = some g := if_pos (not_not.mp hi)

/-- A share that the ND-range still has is carved and submitted whole. -/
theorem submitPart_share {o : AlgoSimple n} {d : ℕ} {g : Global n} {i : Fin n} {r : NDRange}
    (now : ℚ) (hr : g.ndranges d = some r) (htot : r.totalSize < 2 ^ 32) (hpos : 0 < o.result i)
    (hfit : r.nextWgr + o.result i ≤ r.totalSize) :
    ∃ g' r', o.submitPart now d g i = some g' ∧ g'.ndranges d = some r' ∧
      (r'.nextWgr : ℤ) = r.nextWgr + o.result i ∧ r'.totalSize = r.totalSize ∧
      GivenRange g g' now d i (o.result i) ∧
      ∀ j, j ≠ i → g'.schedulers j = g.schedulers j := by
  obtain ⟨k, hk⟩ := Int.eq_ofNat_of_zero_le hpos.le
  have hreq : toU64 (o.result i) = k := by
    rw [hk]
    exact toU64_natCast (by omega)
  have hcarve : r.wgsToCarve k = k := NDRange.wgsToCarve_of_le htot (by omega) (by omega)
  have hnext : u32 (r.nextWgr + k) = r.nextWgr + k := u32_of_lt (by omega)
  have hserves : ¬ (o.result i = unsuitableIsland ∨ o.result i = 0) := serves_of_pos hpos
  unfold submitPart
  rw [if_neg hserves, hreq]
  unfold Global.carveAndSubmit Global.carveWgs
  rw [hr]
  refine ⟨_, (r.carveWgs d k).2, rfl, Function.update_self .., ?_, rfl, ?_, fun j hj => ?_⟩
  · unfold NDRange.carveWgs
    dsimp only
    rw [hcarve, hnext, hk]
    exact Nat.cast_add _ _
  · refine ⟨_, Function.update_self .., rfl, ?_⟩
    change ((u32 (r.nextWgr + r.wgsToCarve k) : ℕ) : ℤ) = r.nextWgr + o.result i
    rw [hcarve, hnext, hk]
    exact Nat.cast_add _ _
  · exact Function.update_of_ne hj _ _

theorem part_of_pos {o : AlgoSimple n} {i : Fin n} (hi : 0 < o.result i) :
    o.part i = o.result i := by
  unfold part
  rw [if_neg]
  intro hun
  rw [hun] at hi
  exact absurd hi (by decide)

theorem part_of_not_serves {o : AlgoSimple n} {i : Fin n} (hi : ¬ o.Serves i) : o.part i = 0 := by
  unfold part
  obtain hun | hzero := not_not.mp hi
  · rw [if_pos hun]
  · rw [hzero, ite_self]

theorem serves_iff_of_part {o : AlgoSimple n} {i : Fin n} (hi : 0 ≤ o.part i) :
    o.Serves i ↔ 0 < o.result i := by
  refine ⟨fun hserves => ?_, serves_of_pos⟩
  obtain ⟨hun, hzero⟩ := not_or.mp hserves
  unfold part at hi
  rw [if_neg hun] at hi
  omega

/-- When the shares of the remaining islands are what the ND-range has left, the loop gives each
island its share. -/
theorem foldlM_shares {o : AlgoSimple n} {d : ℕ} (now : ℚ) (hpart : ∀ i, 0 ≤ o.part i)
    (l : List (Fin n)) (hl : l.Nodup) {g : Global n} {r : NDRange} (hr : g.ndranges d = some r)
    (htot : r.totalSize < 2 ^ 32) (hsum : r.nextWgr + (l.map o.part).sum = r.totalSize) :
    ∃ g' r', l.foldlM (o.submitPart now d) g = some g' ∧ g'.ndranges d = some r' ∧
      r'.nextWgr = r'.totalSize ∧
      (∀ i ∈ l, 0 < o.result i → GivenRange g g' now d i (o.result i)) ∧
      ∀ i, (i ∈ l → ¬ 0 < o.result i) → g'.schedulers i = g.schedulers i := by
  induction l generalizing g r with
  | nil =>
    have hnext : r.nextWgr = r.totalSize := by simpa using hsum
    exact ⟨g, r, rfl, hr, hnext, fun i hi => absurd hi List.not_mem_nil, fun _ _ => rfl⟩
  | cons i l ih =>
    obtain ⟨hi, hl⟩ := List.nodup_cons.mp hl
    rw [List.map_cons, List.sum_cons] at hsum
    rw [List.foldlM_cons]
    by_cases hpos : 0 < o.result i
    · have hrest : 0 ≤ (l.map o.part).sum := List.sum_nonneg fun x hx => by
        obtain ⟨j, -, rfl⟩ := List.mem_map.mp hx
        exact hpart j
      rw [part_of_pos hpos] at hsum
      obtain ⟨g₁, r₁, hstep, hr₁, hnext, htot₁, ⟨w, hw, hparent, hsize⟩, hothers⟩ :=
        submitPart_share now hr htot hpos (by omega)
      obtain ⟨g', r', hfold, hr', hend, hserved, hskipped⟩ :=
        ih hl hr₁ (by omega) (by omega)
      have hkeep : g'.schedulers i = g₁.schedulers i := hskipped i fun hmem => absurd hmem hi
      rw [hstep]
      refine ⟨g', r', hfold, hr', hend, fun j hj hjpos => ?_, fun j hj => ?_⟩
      · obtain rfl | hj := List.mem_cons.mp hj
        · exact ⟨w, hkeep.trans hw, hparent, hsize⟩
        · obtain ⟨w', hw', hrange⟩ := hserved j hj hjpos
          have hji : j ≠ i := fun h => hi (h ▸ hj)
          exact ⟨w', hothers j hji ▸ hw', hrange⟩
      · have hji : j ≠ i := fun h => hj (h ▸ List.mem_cons_self) (h ▸ hpos)
        rw [hskipped j fun hmem => hj (List.mem_cons_of_mem i hmem), hothers j hji]
    · have hskip : ¬ o.Serves i := fun h => hpos ((serves_iff_of_part (hpart i)).mp h)
      rw [part_of_not_serves hskip, zero_add] at hsum
      obtain ⟨g', r', hfold, hr', hend, hserved, hskipped⟩ := ih hl hr htot hsum
      rw [submitPart_skip o now d g hskip]
      refine ⟨g', r', hfold, hr', hend, fun j hj hjpos => ?_, fun j hj => hskipped j fun hmem =>
        hj (List.mem_cons_of_mem i hmem)⟩
      obtain rfl | hj := List.mem_cons.mp hj
      · exact absurd hjpos hpos
      · exact hserved j hj hjpos

/-! ## The shares -/

theorem sum_positive {o : AlgoSimple n} (hpart : ∀ i, 0 ≤ o.part i) :
    ∑ i with 0 < o.result i, o.result i = ((List.finRange n).map o.part).sum := by
  rw [← List.ofFn_eq_map, List.sum_ofFn, Finset.sum_filter]
  refine Finset.sum_congr rfl fun i _ => ?_
  by_cases hpos : 0 < o.result i
  · rw [if_pos hpos, part_of_pos hpos]
  · rw [if_neg hpos, part_of_not_serves fun h => hpos ((serves_iff_of_part (hpart i)).mp h)]

/-- No island has a positive share when there is no suitable island, or when the number of
work-groups is negative as an `int`. -/
theorem search_no_share {o o' : AlgoSimple n} {q : IslandQuery n} {N : ℕ} (hN : N < 2 ^ 32)
    (hsearch : o.search q (i32 N) = some o') (h : (¬ ∃ i, q.fits i = true) ∨ 2 ^ 31 ≤ N) (j : Fin n) :
    ¬ 0 < o'.result j := by
  by_cases hfit : ∃ i, q.fits i = true
  · have hlo := h.resolve_left (not_not.mpr hfit)
    have hneg : i32 (N : ℤ) < 0 := i32_wrap (by omega) (by omega)
    obtain ⟨o₁, i, hsearch₁, hi, hrest⟩ := search_wide o q hlo hN hfit
    obtain rfl : o₁ = o' := Option.some.inj (hsearch₁.symm.trans hsearch)
    obtain rfl | hji := eq_or_ne j i
    · rw [hi]
      omega
    · rw [hrest j hji]
      split <;> decide
  · rw [((search_keeps hsearch).unfit j (Bool.eq_false_of_not_eq_true fun hf => hfit ⟨j, hf⟩)).2]
    decide

/-! ## The law -/

theorem fits_islandQuery {g : Global n} (check : ℕ → String → String → Bool) (now : ℚ) {r : NDRange}
    {kernel : KernelRef} {event : EventRef} {res : String} {N : ℕ}
    (hnew : NDRange.new kernel event res N 1 1 = some r) (i : Fin n) :
    (g.islandQuery check now r).fits i = check (g.schedulers i).id res kernel.xmlName := by
  rw [NDRange.new_eq_some hnew]
  rfl

/-- The shares of a distribution of the fresh ND-range are carved and submitted. -/
theorem handOut_shares {o : AlgoSimple n} {g : Global n} {fits : Fin n → Bool} (now : ℚ) {d : ℕ}
    {r : NDRange} (hr : g.ndranges d = some r) (hnext : r.nextWgr = 0) (hN : r.totalSize < 2 ^ 32)
    (hdist : Distributes fits r.totalSize o.result) :
    ∃ g', o.handOut now d g = some g' ∧ Routed g now d r.totalSize o g' := by
  obtain ⟨hpart, hsum⟩ := part_of_distributes hdist
  obtain ⟨g', r', hfold, hr', hend, hserved, hothers⟩ := foldlM_shares now hpart
    (List.finRange n) (List.nodup_finRange n) hr hN (by rw [hnext, hsum, Nat.cast_zero, zero_add])
  have hdone : r'.hasMoreWgs = false := by
    unfold NDRange.hasMoreWgs
    rw [hend]
    exact decide_eq_false (lt_irrefl _)
  exact ⟨g', handOut_of_done hfold hr' hdone, by rw [sum_positive hpart, hsum],
    fun i hi => hserved i (List.mem_finRange i) hi, fun i hi => hothers i fun _ => hi, r', hr', hdone⟩

/-- A route that comes to its end and carves something has found a distribution. -/
theorem RoutesWhole.distributes {o : AlgoSimple n} {g : Global n} {check : ℕ → String → String → Bool}
    {now : ℚ} {d : ℕ} {r : NDRange} (h : o.RoutesWhole g check now d r.totalSize)
    (hr : g.ndranges d = some r) (hN : r.totalSize < 2 ^ 32) :
    (r.totalSize = 0 ∨ (∃ i, (g.islandQuery check now r).fits i = true) ∧ r.totalSize + 1 < 2 ^ 31) ∧
      ∃ o', o.search (g.islandQuery check now r) (i32 r.totalSize) = some o' ∧ LogFits o'.result := by
  obtain ⟨o', g', hroute, hrouted⟩ := h
  obtain ⟨x, hx, hsearch, hlog, -⟩ := routeNdrange_cases hroute
  obtain rfl : r = x := Option.some.inj (hr.symm.trans hx)
  refine ⟨or_iff_not_imp_left.mpr fun hzero => ?_, o', hsearch, hlog⟩
  have hshare : ∃ j, 0 < o'.result j := by
    by_contra hnone
    have htotal := hrouted.total
    rw [Finset.sum_eq_zero fun i hi => absurd ⟨i, (Finset.mem_filter.mp hi).2⟩ hnone] at htotal
    exact hzero (by exact_mod_cast htotal.symm)
  obtain ⟨j, hj⟩ := hshare
  have hfit : ∃ i, (g.islandQuery check now r).fits i = true := ⟨j, (search_keeps hsearch).fits hj⟩
  have hsmall : r.totalSize < 2 ^ 31 := by
    by_contra hwide
    exact search_no_share hN hsearch (Or.inr (not_lt.mp hwide)) j hj
  exact ⟨hfit, (search_distributes hsearch hsmall (Or.inr hfit)).1⟩

/-- From 198 schedulers on no ND-range is routed: the log overruns its array first. -/
theorem not_routesWhole_of_many (hn : 198 ≤ n) (o : AlgoSimple n) (g : Global n)
    (check : ℕ → String → String → Bool) (now : ℚ) (d N : ℕ) : ¬ o.RoutesWhole g check now d N := by
  rintro ⟨o', g', hroute, -⟩
  obtain ⟨r, -, -, hlog, -⟩ := routeNdrange_cases hroute
  exact not_logFits hn _ hlog

/-- A fresh ND-range is routed whole exactly when it is empty, or some island is suitable and the
number of its work-groups is an `int` other than the last, and the line that logs the cheapest
distribution fits. -/
theorem routes_whole_iff (o : AlgoSimple n) {g : Global n} (check : ℕ → String → String → Bool)
    (now : ℚ) {d N : ℕ} {r : NDRange} {kernel : KernelRef} {event : EventRef} {res : String}
    (hN : N < 2 ^ 32) (hnew : NDRange.new kernel event res N 1 1 = some r)
    (hr : g.ndranges d = some r) :
    o.RoutesWhole g check now d N ↔
      (N = 0 ∨ (∃ i, check (g.schedulers i).id res kernel.xmlName = true) ∧ N + 1 < 2 ^ 31) ∧
        ∀ v, Cheapest (g.islandQuery check now r) N v → LogFits v := by
  obtain ⟨hnext, rfl⟩ := NDRange.new_fields hN hnew
  simp only [← fits_islandQuery check now hnew]
  have hcheapest : ∀ hcond : (r.totalSize = 0 ∨
      (∃ i, (g.islandQuery check now r).fits i = true) ∧ r.totalSize + 1 < 2 ^ 31),
      ∃ o', o.search (g.islandQuery check now r) (i32 r.totalSize) = some o' ∧
        Cheapest (g.islandQuery check now r) r.totalSize o'.result := by
    intro hcond
    have hlast : r.totalSize + 1 < 2 ^ 31 := by
      obtain hzero | hcond := hcond
      · omega
      · exact hcond.2
    rw [i32_natCast (by omega)]
    obtain ⟨o', hsearch, -, hbest⟩ :=
      o.search_cheapest (g.islandQuery check now r) hlast (hcond.imp_right And.left)
    exact ⟨o', hsearch, hbest⟩
  constructor
  · intro hwhole
    obtain ⟨hcond, o', hsearch, hlog⟩ := hwhole.distributes hr hN
    refine ⟨hcond, fun v hv => ?_⟩
    obtain ⟨o₁, hsearch₁, hbest⟩ := hcheapest hcond
    obtain rfl : o₁ = o' := Option.some.inj (hsearch₁.symm.trans hsearch)
    rwa [hv.unique hbest]
  · rintro ⟨hcond, hlog⟩
    obtain ⟨o', hsearch, hbest⟩ := hcheapest hcond
    obtain ⟨g', hout, hrouted⟩ := handOut_shares now hr hnext hN hbest.distributes
    exact ⟨o', g', routeNdrange_eq hr hsearch (hlog _ hbest) hout, hrouted⟩

/-- Three work-groups and one region. -/
theorem routes_whole_iff_three : ∃ (g : Global 1) (r : NDRange),
    NDRange.new default default "" 3 1 1 = some r ∧ g.ndranges 0 = some r ∧
      (AlgoSimple.new 1).RoutesWhole g checkResourceString 0 0 3 := by
  obtain ⟨g, hg⟩ := Option.isSome_iff_exists.mp
    (show (Global.new (fun _ : Fin 1 => (0, 1, 1)) (fun _ => none) fun _ => 0).isSome = true by decide)
  obtain ⟨r, hr⟩ := NDRange.new_line default default "" 3
  have hcell : (g.newNdrange r).ndranges 0 = some r := by
    rw [← (Global.new_spec hg).2.2.1]
    exact Global.newNdrange_self g r
  exact ⟨g.newNdrange r, r, hr, hcell, (routes_whole_iff (AlgoSimple.new 1) checkResourceString 0
    (by norm_num) hr hcell).mpr ⟨Or.inr ⟨⟨0, rfl⟩, by norm_num⟩, fun v hv =>
      logFits_of_le (by norm_num) (hv.distributes.int_range (by norm_num))⟩⟩

/-- A number of work-groups that reads as the mark of an unsuitable island: the one region has it as
its share, and the loop that carves passes over it. -/
theorem marked_share_asserts : ∃ (g : Global 1) (r : NDRange),
    NDRange.new default default "" (2 ^ 32 - 13) 1 1 = some r ∧ g.ndranges 0 = some r ∧
      ¬ (AlgoSimple.new 1).RoutesWhole g checkResourceString 0 0 (2 ^ 32 - 13) := by
  have hrun : ((Global.new (fun _ : Fin 1 => (0, 1, 1)) (fun _ => none) fun _ => 0).bind fun g =>
      (NDRange.new default default "" (2 ^ 32 - 13) 1 1).map fun r =>
        decide ((g.newNdrange r).ndranges 0 = some r ∧
          ((AlgoSimple.new 1).routeNdrange (g.newNdrange r) checkResourceString 0 0).isNone)) =
            some true := by
    decide +kernel
  obtain ⟨g, -, hrun⟩ := Option.bind_eq_some_iff.mp hrun
  obtain ⟨r, hr, hstuck⟩ := Option.map_eq_some_iff.mp hrun
  obtain ⟨hcell, hnone⟩ := of_decide_eq_true hstuck
  refine ⟨g.newNdrange r, r, hr, hcell, ?_⟩
  rintro ⟨o', g', hroute, -⟩
  rw [hroute] at hnone
  cases hnone

end AlgoSimple

end FpgaMl
