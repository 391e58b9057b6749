import Mathlib.Tactic
import FpgaMl.Foundation.FirstBest
import FpgaMl.BitstreamModes
import FpgaMl.SlicingQuantum

/-! # The selector of AlgoSlicing

`select_best_scheduler` is the scan for the first best entry of the list of free schedulers, as
long as the costs keep the arithmetic of its turns exact. They do where no work-group costs zero
and no reconfiguration more than the quantum. -/
namespace FpgaMl
open MachineInt TransitionSystem FirstBest
set_option autoImplicit false

variable {n : ℕ}

/-! ## What is best -/

namespace Global

/-- The number of work-groups that island `i` executes within the quantum, and what they cost it
together with a reconfiguration. -/
def wgsWithin (g : Global n) (kernelName : String) (quant : ℕ) (i : Fin n) : ℕ :=
  (quant - g.reconfCostAt i kernelName) / g.wgCostAt i kernelName

def costWithin (g : Global n) (kernelName : String) (quant : ℕ) (i : Fin n) : ℕ :=
  g.reconfCostAt i kernelName + g.wgsWithin kernelName quant i * g.wgCostAt i kernelName

/-- Island `i` suits, and a reconfiguration and one work-group fit into the quantum. -/
def Affords (g : Global n) (check : ℕ → String → String → Bool) (r : NDRange) (quant : ℕ)
    (i : Fin n) : Prop :=
  check (g.schedulers i).id r.resourceString r.kernel.xmlName = true ∧
    g.reconfCostAt i r.kernel.xmlName + g.wgCostAt i r.kernel.xmlName ≤ quant

instance (g : Global n) (check : ℕ → String → String → Bool) (r : NDRange) (quant : ℕ) (i : Fin n) :
    Decidable (g.Affords check r quant i) := inferInstanceAs (Decidable (_ ∧ _))

/-- `j` executes fewer work-groups than `i`, or as many at a higher cost. -/
def Worse (g : Global n) (kernelName : String) (quant : ℕ) (j i : Fin n) : Prop :=
  g.wgsWithin kernelName quant j < g.wgsWithin kernelName quant i ∨
    g.wgsWithin kernelName quant j = g.wgsWithin kernelName quant i ∧
      g.costWithin kernelName quant i < g.costWithin kernelName quant j

/-- `i` is the first entry of the list among those that afford a work-group and are not worse than
another one that does. -/
def IsBest (g : Global n) (check : ℕ → String → String → Bool) (r : NDRange) (quant : ℕ)
    (i : Fin n) : Prop :=
  g.Affords check r quant i ∧ ∃ pre post, g.freeScMgr.ids = pre ++ i.val :: post ∧
    (∀ j : Fin n, j.val ∈ pre → g.Affords check r quant j → g.Worse r.kernel.xmlName quant j i) ∧
    ∀ j : Fin n, j.val ∈ post → g.Affords check r quant j → ¬ g.Worse r.kernel.xmlName quant i j

/-- More work-groups rank first, then a lower cost. -/
def rank (g : Global n) (kernelName : String) (quant : ℕ) (i : Fin n) : ℕ ×ₗ ℕᵒᵈ :=
  toLex (g.wgsWithin kernelName quant i, OrderDual.toDual (g.costWithin kernelName quant i))

/-- On the schedulers of the list, a work-group costs something and a reconfiguration no more than
the quantum. -/
def CostsWithin (g : Global n) (kernelName : String) (quant : ℕ) : Prop :=
  ∀ i : Fin n, i.val ∈ g.freeScMgr.ids → 1 ≤ g.tracker.getWgCostOnIsland i kernelName ∧
    g.reconfCostAt i kernelName ≤ quant

variable {g : Global n} {check : ℕ → String → String → Bool} {r : NDRange} {quant : ℕ}
  {kernelName : String} {i j : Fin n}

theorem wgCostAt_cast (hcost : 1 ≤ g.tracker.getWgCostOnIsland i kernelName) :
    (g.wgCostAt i kernelName : ℤ) = g.tracker.getWgCostOnIsland i kernelName := by
  have hlt : g.tracker.getWgCostOnIsland i kernelName < 2 ^ 31 := by
    unfold Tracker.getWgCostOnIsland
    split
    · norm_num
    · exact i32_upper _
  exact toU32_of_mem (by omega) (by omega)

theorem wgCostAt_pos (hcost : 1 ≤ g.tracker.getWgCostOnIsland i kernelName) :
    0 < g.wgCostAt i kernelName := by
  have hcast := wgCostAt_cast hcost
  omega

theorem wgsWithin_ne_zero (hwg : 0 < g.wgCostAt i kernelName)
    (hreconf : g.reconfCostAt i kernelName ≤ quant) : g.wgsWithin kernelName quant i ≠ 0 ↔
      g.reconfCostAt i kernelName + g.wgCostAt i kernelName ≤ quant := by
  unfold wgsWithin
  rw [← Nat.pos_iff_ne_zero, Nat.div_pos_iff]
  omega

theorem costWithin_le (hreconf : g.reconfCostAt i kernelName ≤ quant) :
    g.costWithin kernelName quant i ≤ quant := by
  have hdiv := Nat.div_mul_le_self (quant - g.reconfCostAt i kernelName) (g.wgCostAt i kernelName)
  unfold costWithin wgsWithin
  omega

theorem wgsWithin_le (g : Global n) (kernelName : String) (quant : ℕ) (i : Fin n) :
    g.wgsWithin kernelName quant i ≤ quant :=
  (Nat.div_le_self _ _).trans (Nat.sub_le _ _)

theorem rank_lt_iff : g.rank kernelName quant j < g.rank kernelName quant i ↔
    g.Worse kernelName quant j i := by
  unfold rank Worse
  rw [Prod.Lex.toLex_lt_toLex]
  rfl

theorem isBest_of_scan {l : List (Fin n)} (hids : g.freeScMgr.ids = l.map Fin.val)
    (h : IsFirstBest (g.Affords check r quant) (g.rank r.kernel.xmlName quant) l i) :
    g.IsBest check r quant i := by
  obtain ⟨hi, pre, post, rfl, hpre, hpost⟩ := h
  refine ⟨hi, pre.map Fin.val, post.map Fin.val, ?_, fun j hj hfits => ?_, fun j hj hfits => ?_⟩
  · rw [hids, List.map_append, List.map_cons]
  · exact rank_lt_iff.mp (hpre j ((List.mem_map_of_injective Fin.val_injective).mp hj) hfits)
  · rw [← rank_lt_iff, not_lt]
    exact hpost j ((List.mem_map_of_injective Fin.val_injective).mp hj) hfits

end Global

namespace AlgoSlicing

variable {g : Global n} {check : ℕ → String → String → Bool} {r : NDRange} {quant : ℕ}

/-- The running values of the loop that stand for what the scan keeps. -/
def Choice.ofBest (g : Global n) (kernelName : String) (quant : ℕ) : Option (Fin n) → Choice
  | none => ⟨0, -1, 0, 0, 0⟩
  | some i => ⟨i, g.wgsWithin kernelName quant i, g.reconfCostAt i kernelName,
      g.wgCostAt i kernelName, g.costWithin kernelName quant i⟩

theorem Choice.ofBest_unset (best : Option (Fin n)) :
    (Choice.ofBest g r.kernel.xmlName quant best).maxWgs < 0 ↔ best = none := by
  cases best with
  | none => simp [Choice.ofBest]
  | some i => simp [Choice.ofBest]

/-- The comparison of a turn, between numbers of work-groups that an `int` holds. -/
theorem better_iff {count chosen : ℕ} (cost chosenCost : ℕ) (hne : count ≠ 0) (hsmall : chosen < 2 ^ 31) :
    (count ≠ 0 ∧ ((chosen : ℤ) < 0 ∨ toU32 (chosen : ℤ) < count ∨
      (count = toU32 (chosen : ℤ) ∧ cost < chosenCost))) ↔
        chosen < count ∨ chosen = count ∧ cost < chosenCost := by
  have hcast : toU32 (chosen : ℤ) = chosen := by
    have h := toU32_of_mem (x := (chosen : ℤ)) (by omega) (by omega)
    exact_mod_cast h
  rw [hcast]
  omega

section Turn

variable {i : Fin n} (hquant : quant < 2 ^ 31) (hwg : 0 < g.wgCostAt i r.kernel.xmlName)
  (hreconf : g.reconfCostAt i r.kernel.xmlName ≤ quant)

include hquant hreconf in
theorem count_eq : sub32 quant (g.reconfCostAt i r.kernel.xmlName) / g.wgCostAt i r.kernel.xmlName =
    g.wgsWithin r.kernel.xmlName quant i := by
  rw [sub32_of_le hreconf (by omega)]
  rfl

include hquant hreconf in
theorem total_eq : u32 (g.reconfCostAt i r.kernel.xmlName +
    u32 (g.wgsWithin r.kernel.xmlName quant i * g.wgCostAt i r.kernel.xmlName)) =
      g.costWithin r.kernel.xmlName quant i := by
  have hcost : g.reconfCostAt i r.kernel.xmlName +
      g.wgsWithin r.kernel.xmlName quant i * g.wgCostAt i r.kernel.xmlName ≤ quant :=
    Global.costWithin_le hreconf
  rw [u32_of_lt (show g.wgsWithin r.kernel.xmlName quant i * _ < 2 ^ 32 by omega),
    u32_of_lt (by omega)]
  rfl

include hquant hwg hreconf in
/-- A turn for a scheduler that suits keeps what the scan keeps. -/
theorem improve_ofBest
    (hcheck : check (g.schedulers i).id r.resourceString r.kernel.xmlName = true)
    (best : Option (Fin n)) :
    (Choice.ofBest g r.kernel.xmlName quant best).improve quant i
      (g.reconfCostAt i r.kernel.xmlName) (g.wgCostAt i r.kernel.xmlName) =
        Choice.ofBest g r.kernel.xmlName quant
          (keep (g.Affords check r quant) (g.rank r.kernel.xmlName quant) best i) := by
  have hsmall := fun j => (g.wgsWithin_le r.kernel.xmlName quant j).trans_lt hquant
  have hfits : g.wgsWithin r.kernel.xmlName quant i ≠ 0 ↔ g.Affords check r quant i := by
    rw [Global.wgsWithin_ne_zero hwg hreconf]
    exact (and_iff_right hcheck).symm
  unfold Choice.improve keep
  dsimp only
  rw [count_eq hquant hreconf, total_eq hquant hreconf]
  by_cases hafford : g.Affords check r quant i
  · have hne := hfits.mpr hafford
    have hint := i32_natCast (hsmall i)
    rw [if_pos hafford, hint]
    cases best with
    | none =>
      rw [if_pos ⟨hne, Or.inl ((Choice.ofBest_unset (r := r) none).mpr rfl)⟩]
      rfl
    | some j =>
      have hbetter := (better_iff (g.costWithin r.kernel.xmlName quant i)
        (g.costWithin r.kernel.xmlName quant j) hne (hsmall j)).trans Global.rank_lt_iff.symm
      have hkept : Choice.ofBest g r.kernel.xmlName quant (some j) =
          ⟨j, g.wgsWithin r.kernel.xmlName quant j, g.reconfCostAt j r.kernel.xmlName,
            g.wgCostAt j r.kernel.xmlName, g.costWithin r.kernel.xmlName quant j⟩ := rfl
      rw [hkept]
      dsimp only
      by_cases hlt : g.rank r.kernel.xmlName quant j < g.rank r.kernel.xmlName quant i
      · rw [if_pos (hbetter.mpr hlt), if_pos hlt]
        rfl
      · rw [if_neg (mt hbetter.mp hlt), if_neg hlt]
        rfl
  · rw [if_neg hafford, if_neg fun h => hafford (hfits.mp h.1)]

end Turn

theorem consider_ofBest (hquant : quant < 2 ^ 31) {i : Fin n}
    (hwg : 0 < g.wgCostAt i r.kernel.xmlName) (hreconf : g.reconfCostAt i r.kernel.xmlName ≤ quant)
    (best : Option (Fin n)) :
    consider g check r quant (Choice.ofBest g r.kernel.xmlName quant best) i =
      some (Choice.ofBest g r.kernel.xmlName quant
        (keep (g.Affords check r quant) (g.rank r.kernel.xmlName quant) best i)) := by
  rw [consider_eq]
  by_cases hcheck : check (g.schedulers i).id r.resourceString r.kernel.xmlName = true
  · rw [if_pos hcheck, if_neg hwg.ne', improve_ofBest hquant hwg hreconf hcheck]
  · have hnot : ¬ g.Affords check r quant i := fun h => hcheck h.1
    unfold keep
    rw [if_neg hcheck, if_neg hnot]

/-- The selector on a list of schedulers is the scan. -/
theorem selectBestScheduler_scan (hquant : quant < 2 ^ 31)
    (hcosts : g.CostsWithin r.kernel.xmlName quant) {l : List (Fin n)}
    (hids : g.freeScMgr.ids = l.map Fin.val) :
    selectBestScheduler g check r quant = some
      ((scan (g.Affords check r quant) (g.rank r.kernel.xmlName quant) l).map fun i =>
        Choice.ofBest g r.kernel.xmlName quant (some i)) := by
  have hmem : ∀ i ∈ l, i.val ∈ g.freeScMgr.ids := fun i hi => by
    rw [hids]
    exact List.mem_map_of_mem hi
  have hloop : l.foldlM (fun c (i : Fin n) => consider g check r quant c i)
      (Choice.ofBest g r.kernel.xmlName quant none) = some (Choice.ofBest g r.kernel.xmlName quant
        (scan (g.Affords check r quant) (g.rank r.kernel.xmlName quant) l)) :=
    foldlM_scan fun best i hi =>
      consider_ofBest hquant (Global.wgCostAt_pos (hcosts i (hmem i hi)).1) (hcosts i (hmem i hi)).2
        best
  have hlist : g.freeScMgr.freeSchedulers.toList = l.map Fin.val := hids
  unfold selectBestScheduler
  rw [hlist, List.foldlM_map]
  refine (congrArg (Option.map _) hloop).trans ?_
  rw [Option.map_some]
  cases hscan : scan (g.Affords check r quant) (g.rank r.kernel.xmlName quant) l with
  | none => rfl
  | some i =>
    rw [if_neg (mt (Choice.ofBest_unset (r := r) (some i)).mp (Option.some_ne_none i))]
    rfl

/-- A turn comes to its end unless the entry is no position of a scheduler, or that of a suitable one
on which a work-group costs nothing. -/
def Turns (g : Global n) (check : ℕ → String → String → Bool) (r : NDRange) (v : ℕ) : Prop :=
  ∃ h : v < n, check (g.schedulers ⟨v, h⟩).id r.resourceString r.kernel.xmlName = true →
    g.wgCostAt ⟨v, h⟩ r.kernel.xmlName ≠ 0

theorem consider_isSome_iff (c : Choice) (v : ℕ) :
    (consider g check r quant c v).isSome = true ↔ Turns g check r v := by
  unfold Turns
  by_cases hv : n ≤ v
  · rw [consider_out_of_range hv]
    exact iff_of_false (by simp) fun h => not_lt.mpr hv h.1
  · lift v to Fin n using not_le.mp hv
    rw [consider_eq, exists_prop_of_true v.isLt]
    split
    · rename_i hcheck
      rw [forall_prop_of_true hcheck]
      split <;> simp_all
    · rename_i hcheck
      exact iff_of_true rfl fun h => absurd h hcheck

theorem foldlM_consider_isSome_iff (l : List ℕ) (c : Choice) :
    (l.foldlM (consider g check r quant) c).isSome = true ↔ ∀ v ∈ l, Turns g check r v := by
  induction l generalizing c with
  | nil => simp
  | cons v l ih =>
    rw [List.foldlM_cons, List.forall_mem_cons, ← consider_isSome_iff c v]
    cases consider g check r quant c v with
    | none => simp
    | some c' => simpa using ih c'

theorem selectBestScheduler_isSome_iff : (selectBestScheduler g check r quant).isSome = true ↔
    ∀ v ∈ g.freeScMgr.ids, Turns g check r v := by
  unfold selectBestScheduler
  rw [Option.isSome_map]
  exact foldlM_consider_isSome_iff _ _

end AlgoSlicing

open AlgoSlicing in
/-- The selector runs into an index that is out of range, or answers -1 because no entry affords a
work-group, or with the first best one. -/
theorem select_first_best (g : Global n) (check : ℕ → String → String → Bool) (r : NDRange)
    {quant : ℕ} (hquant : quant < 2 ^ 31) (hcosts : g.CostsWithin r.kernel.xmlName quant) :
    (selectBestScheduler g check r quant = none ↔ ∃ v ∈ g.freeScMgr.ids, n ≤ v) ∧
      ∀ result, selectBestScheduler g check r quant = some result →
        (result = none ↔
          ∀ i : Fin n, i.val ∈ g.freeScMgr.ids → ¬ g.Affords check r quant i) ∧
        ∀ c, result = some c → ∃ i : Fin n, g.IsBest check r quant i ∧ c.schedulerIdx = i ∧
          c.maxWgs = g.wgsWithin r.kernel.xmlName quant i ∧
          c.wgCost = g.tracker.getWgCostOnIsland i r.kernel.xmlName ∧
          c.reconfCost = g.reconfCostAt i r.kernel.xmlName := by
  by_cases hout : ∃ v ∈ g.freeScMgr.ids, n ≤ v
  · have hnone : selectBestScheduler g check r quant = none := by
      rw [← Option.not_isSome_iff_eq_none, selectBestScheduler_isSome_iff]
      obtain ⟨v, hv, hn⟩ := hout
      exact fun h => not_lt.mpr hn (h v hv).1
    rw [hnone]
    exact ⟨iff_of_true rfl hout, fun result h => by cases h⟩
  obtain ⟨l, hids⟩ : ∃ l : List (Fin n), g.freeScMgr.ids = l.map Fin.val := by
    have hlt : ∀ v ∈ g.freeScMgr.ids, v < n := fun v hv => by
      by_contra hge
      exact hout ⟨v, hv, not_lt.mp hge⟩
    generalize g.freeScMgr.ids = ids at hlt
    lift ids to List (Fin n) using hlt
    exact ⟨ids, rfl⟩
  rw [selectBestScheduler_scan hquant hcosts hids]
  refine ⟨iff_of_false (Option.some_ne_none _) hout, fun result h => ?_⟩
  have hmem : ∀ i : Fin n, i.val ∈ g.freeScMgr.ids ↔ i ∈ l := fun i => by
    rw [hids]
    exact List.mem_map_of_injective Fin.val_injective
  obtain rfl := Option.some.inj h
  obtain ⟨hscan, hnone⟩ | ⟨i, hscan, hbest⟩ :=
    scan_spec (g.Affords check r quant) (g.rank r.kernel.xmlName quant) l
  · rw [hscan]
    refine ⟨iff_of_true rfl fun i hi => hnone i ((hmem i).mp hi), fun c hc => by cases hc⟩
  · rw [hscan]
    have hisbest := Global.isBest_of_scan hids hbest
    have hi : i.val ∈ g.freeScMgr.ids := by
      obtain ⟨-, pre, post, hl, -⟩ := hisbest
      rw [hl]
      exact List.mem_append_right _ List.mem_cons_self
    refine ⟨iff_of_false (Option.some_ne_none _) fun hall => hall i hi hbest.1, fun c hc => ?_⟩
    obtain rfl := Option.some.inj hc
    exact ⟨i, hisbest, rfl, rfl, Global.wgCostAt_cast (hcosts i hi).1, rfl⟩

/-- Three schedulers for a quantum of 30: three work-groups at 10, four at 7, four at 7. -/
theorem select_first_best_three : ∃ (g : Global 3) (c : AlgoSlicing.Choice),
    AlgoSlicing.selectBestScheduler g checkResourceString default 30 = some (some c) ∧
      c.schedulerIdx = 1 ∧ c.maxWgs = 4 ∧ g.IsBest checkResourceString default 30 1 := by
  have hrun : ((Global.new (fun i : Fin 3 => (0, 1, i.val)) (fun _ => none)
      fun _ => 0).bind fun g =>
      (AlgoSlicing.selectBestScheduler
        { g with tracker := ⟨fun _ => some ![10, 7, 7], fun _ => none⟩ } checkResourceString default
          30).bind fun result => result.map fun c => (c.schedulerIdx, c.maxWgs,
            decide (∀ i : Fin 3, Global.reconfCostAt
              { g with tracker := ⟨fun _ => some ![10, 7, 7], fun _ => none⟩ } i "" ≤ 30))) =
                some (1, 4, true) := by
    decide +kernel
  obtain ⟨g, hg, hrun⟩ := Option.bind_eq_some_iff.mp hrun
  obtain ⟨result, hresult, hrun⟩ := Option.bind_eq_some_iff.mp hrun
  obtain ⟨c, rfl, hview⟩ := Option.map_eq_some_iff.mp hrun
  obtain ⟨hidx, hview⟩ := Prod.mk.inj hview
  obtain ⟨hwgs, hreconf⟩ := Prod.mk.inj hview
  have hcosts : Global.CostsWithin
      { g with tracker := ⟨fun _ => some ![10, 7, 7], fun _ => none⟩ } "" 30 := by
    refine fun i _ => ⟨?_, of_decide_eq_true hreconf i⟩
    have hcost : ∀ i : Fin 3, 1 ≤ i32 ((![10, 7, 7] i : ℕ) : ℤ) := by decide +kernel
    exact hcost i
  obtain ⟨-, hresult'⟩ := select_first_best _ checkResourceString default (by norm_num) hcosts
  obtain ⟨i, hbest, hi, -⟩ := (hresult' _ hresult).2 c rfl
  obtain rfl : i = 1 := Fin.ext (hi.symm.trans hidx)
  exact ⟨_, c, hresult, hidx, hwgs, hbest⟩

/-! ## When the arithmetic is exact -/

namespace AlgoSlicing

/-- The selector comes to its end, without a division by zero or an index that is out of range; no
turn that it makes subtracts below zero; and what it selects fits into the quantum. -/
structure SafeSelection (g : Global n) (check : ℕ → String → String → Bool) (r : NDRange)
    (quant : ℕ) : Prop where
  ends : selectBestScheduler g check r quant ≠ none
  subtracts : ∀ pre (i : Fin n) post, g.freeScMgr.ids = pre ++ i.val :: post →
    pre.foldlM (consider g check r quant) ⟨0, -1, 0, 0, 0⟩ ≠ none →
    check (g.schedulers i).id r.resourceString r.kernel.xmlName = true →
      (sub32 quant (g.reconfCostAt i r.kernel.xmlName) : ℤ) =
        quant - g.reconfCostAt i r.kernel.xmlName
  fits : ∀ c, selectBestScheduler g check r quant = some (some c) →
    c.reconfCost + toU32 c.maxWgs * c.wgCost ≤ quant

/-- The arithmetic is safe exactly when every entry is the position of a scheduler on which, if it
suits, a work-group costs something and a reconfiguration no more than the quantum. -/
theorem selection_safe_iff (g : Global n) (check : ℕ → String → String → Bool) (r : NDRange)
    {quant : ℕ} (hquant : quant < 2 ^ 32) : SafeSelection g check r quant ↔
      ∀ v ∈ g.freeScMgr.ids, ∃ h : v < n,
        check (g.schedulers ⟨v, h⟩).id r.resourceString r.kernel.xmlName = true →
          g.wgCostAt ⟨v, h⟩ r.kernel.xmlName ≠ 0 ∧
            g.reconfCostAt ⟨v, h⟩ r.kernel.xmlName ≤ quant := by
  have hends : selectBestScheduler g check r quant ≠ none ↔
      ∀ v ∈ g.freeScMgr.ids, Turns g check r v := by
    rw [← selectBestScheduler_isSome_iff, Option.isSome_iff_ne_none]
  constructor
  · intro h v hv
    have hturns := hends.mp h.ends
    obtain ⟨hlt, hwg⟩ := hturns v hv
    refine ⟨hlt, fun hcheck => ⟨hwg hcheck, ?_⟩⟩
    obtain ⟨pre, post, hids⟩ := List.append_of_mem hv
    have hreached : pre.foldlM (consider g check r quant) ⟨0, -1, 0, 0, 0⟩ ≠ none := by
      rw [← Option.isSome_iff_ne_none, foldlM_consider_isSome_iff]
      intro w hw
      exact hturns w (by rw [hids]; exact List.mem_append_left _ hw)
    have hsub := h.subtracts pre ⟨v, hlt⟩ post hids hreached hcheck
    omega
  · intro h
    refine ⟨hends.mpr fun v hv => ?_, fun pre i post hids _ hcheck => ?_, fun c hc => ?_⟩
    · obtain ⟨hlt, hcost⟩ := h v hv
      exact ⟨hlt, fun hcheck => (hcost hcheck).1⟩
    · obtain ⟨_, hcost⟩ := h i (by rw [hids]; exact List.mem_append_right _ List.mem_cons_self)
      rw [sub32_of_le (hcost hcheck).2 hquant, Nat.cast_sub (hcost hcheck).2]
    · have hreconf : ReconfWithin g check r quant g.freeScMgr.ids := fun i hi hcheck =>
        ((h i hi).2 hcheck).2
      obtain ⟨i, hfits⟩ := selectBestScheduler_fits hquant hreconf hc
      rw [Nat.add_comm]
      exact hfits.fits

/-- Two schedulers that need no reconfiguration, with a cost of 10 for every kernel. -/
theorem selection_safe_iff_two : ∃ g, Global.new (fun i : Fin 2 => (0, 1, i.val))
    (fun _ => some (10, 10)) (fun _ => 0) = some g ∧
      SafeSelection g checkResourceString default 30 := by
  have hrun : ((Global.new (fun i : Fin 2 => (0, 1, i.val)) (fun _ => some (10, 10))
      fun _ => 0).map fun g => decide (g.freeScMgr.ids = [0, 1] ∧ ∀ i : Fin 2,
        g.wgCostAt i "" ≠ 0 ∧ g.reconfCostAt i "" ≤ 30)) = some true := by
    decide +kernel
  obtain ⟨g, hg, hview⟩ := Option.map_eq_some_iff.mp hrun
  obtain ⟨hids, hcosts⟩ := of_decide_eq_true hview
  refine ⟨g, hg, (selection_safe_iff g checkResourceString default (by norm_num)).mpr ?_⟩
  intro v hv
  have hlt : v < 2 := by
    rw [hids] at hv
    revert hv
    simp only [List.mem_cons, List.not_mem_nil, or_false]
    omega
  exact ⟨hlt, fun _ => hcosts ⟨v, hlt⟩⟩

/-- A file without costs stops the program with a division by zero. Where a reconfiguration is
needed, its default cost of 1000 goes below zero, and an island is chosen for a quantum of 30. -/
theorem selection_unsafe :
    (∃ m g, BitstreamManager.new (.ofParse BitstreamManager.parseSample) false
        ⟨some ["one.xml"], fun _ => some BitstreamManager.sampleText⟩ = some m ∧
      Global.new (fun i : Fin 1 => (0, 1, i.val)) m.costs (fun _ => 0) = some g ∧
      selectBestScheduler g checkResourceString
        { (default : NDRange) with kernel := { (default : KernelRef) with xmlName := "one.xml" } }
        30 = none ∧
      ¬ SafeSelection g checkResourceString
        { (default : NDRange) with kernel := { (default : KernelRef) with xmlName := "one.xml" } }
        30) ∧
    ∃ g, Global.new (fun i : Fin 1 => (0, 1, i.val)) (fun _ => some (10, 10)) (fun _ => 0) = some g ∧
      ¬ SafeSelection { g with schedulers := fun i =>
        { g.schedulers i with mockWouldNeedReconf := true } } checkResourceString default 30 := by
  constructor
  · have hrun : ((BitstreamManager.new (.ofParse BitstreamManager.parseSample) false
        ⟨some ["one.xml"], fun _ => some BitstreamManager.sampleText⟩).bind fun m =>
        (Global.new (fun i : Fin 1 => (0, 1, i.val)) m.costs (fun _ => 0)).map fun g =>
          (selectBestScheduler g checkResourceString
            { (default : NDRange) with
              kernel := { (default : KernelRef) with xmlName := "one.xml" } } 30).isSome) =
                some false := by
      decide +kernel
    obtain ⟨m, hm, hrun⟩ := Option.bind_eq_some_iff.mp hrun
    obtain ⟨g, hg, hnone⟩ := Option.map_eq_some_iff.mp hrun
    have hnone := Option.isSome_eq_false_iff.mp hnone
    rw [Option.isNone_iff_eq_none] at hnone
    exact ⟨m, g, hm, hg, hnone, fun h => h.ends hnone⟩
  · have hrun : ((Global.new (fun i : Fin 1 => (0, 1, i.val)) (fun _ => some (10, 10))
        fun _ => 0).bind fun g =>
        (selectBestScheduler { g with schedulers := fun i =>
          { g.schedulers i with mockWouldNeedReconf := true } } checkResourceString default 30).bind
            fun result => result.map fun c =>
              decide (c.reconfCost + toU32 c.maxWgs * c.wgCost ≤ 30)) = some false := by
      decide +kernel
    obtain ⟨g, hg, hrun⟩ := Option.bind_eq_some_iff.mp hrun
    obtain ⟨result, hresult, hrun⟩ := Option.bind_eq_some_iff.mp hrun
    obtain ⟨c, rfl, hover⟩ := Option.map_eq_some_iff.mp hrun
    exact ⟨g, hg, fun h => of_decide_eq_false hover (h.fits c hresult)⟩

end AlgoSlicing

end FpgaMl
