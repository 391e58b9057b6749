import Mathlib.Tactic
import Mathlib.Data.Finset.Fold
import FpgaMl.AlgoSimple

/-! # AlgoSimple finds the optimal distribution

`explored` reduces `recursive_function` to a fold of the running minimum over the splits of the
items among the suitable islands; the general facts about splits then give the optimum. -/
namespace FpgaMl
open MachineInt Distribution
set_option autoImplicit false

variable {n : ℕ}

/-! ## What is to be minimised -/

/-- A distribution of `W` work-groups over the suitable islands. -/
structure Distributes (fits : Fin n → Bool) (W : ℤ) (v : Fin n → ℤ) : Prop where
  unsuitable : ∀ i, v i = unsuitableIsland ↔ fits i = false
  nonneg : ∀ i, fits i = true → 0 ≤ v i
  total : ∑ i with fits i = true, v i = W

theorem Distributes.le_total {fits : Fin n → Bool} {W : ℤ} {v : Fin n → ℤ} (h : Distributes fits W v)
    {i : Fin n} (hi : fits i = true) : v i ≤ W := by
  rw [← h.total]
  refine Finset.single_le_sum (fun j hj => h.nonneg j (Finset.mem_filter.mp hj).2) ?_
  exact Finset.mem_filter.mpr ⟨Finset.mem_univ i, hi⟩

def makespan (q : IslandQuery n) (v : Fin n → ℤ) : ℤ :=
  {i | 0 < v i}.toFinset.fold max 0 fun i => v i * q.wgCost i + q.remainingTime i + q.reconf i

structure Optimal (q : IslandQuery n) (W min : ℤ) (v : Fin n → ℤ) : Prop where
  distributes : Distributes q.fits W v
  minimum : min = makespan q v
  least : ∀ u, Distributes q.fits W u → makespan q v ≤ makespan q u
  greatest : ∀ u, Distributes q.fits W u → makespan q u = makespan q v → toLex u ≤ toLex v

/-- The cheapest distribution by what `calculate_total` computes, and of the cheapest ones the
lexicographically greatest. -/
structure Cheapest (q : IslandQuery n) (W : ℤ) (v : Fin n → ℤ) : Prop where
  distributes : Distributes q.fits W v
  least : ∀ u, Distributes q.fits W u → q.prepared.leafMaxOf v ≤ q.prepared.leafMaxOf u
  greatest : ∀ u, Distributes q.fits W u → q.prepared.leafMaxOf u = q.prepared.leafMaxOf v →
    toLex u ≤ toLex v

theorem Cheapest.unique {q : IslandQuery n} {W : ℤ} {u v : Fin n → ℤ} (hu : Cheapest q W u)
    (hv : Cheapest q W v) : u = v := by
  have heq : q.prepared.leafMaxOf u = q.prepared.leafMaxOf v :=
    le_antisymm (hu.least v hv.distributes) (hv.least u hu.distributes)
  exact toLex.injective (le_antisymm (hv.greatest u hu.distributes heq)
    (hu.greatest v hv.distributes heq.symm))

/-- The suitable islands have non-negative costs, and no `int` expression of the search
overflows for up to `W` work-groups on one of them. -/
structure IslandQuery.Costs (q : IslandQuery n) (W : ℕ) : Prop where
  items : W + 1 < 2 ^ 31
  remaining : ∀ i, q.fits i = true → 0 ≤ q.remainingTime i
  reconf : ∀ i, q.fits i = true → 0 ≤ q.reconf i
  wg : ∀ i, q.fits i = true → 0 ≤ q.wgCost i
  bound : ∀ i, q.fits i = true → W * q.wgCost i + q.remainingTime i + q.reconf i < 2 ^ 31

theorem makespan_le_iff (q : IslandQuery n) (v : Fin n → ℤ) (c : ℤ) :
    makespan q v ≤ c ↔
      0 ≤ c ∧ ∀ i, 0 < v i → v i * q.wgCost i + q.remainingTime i + q.reconf i ≤ c := by
  unfold makespan
  rw [Finset.fold_max_le]
  simp

def IslandQuery.suitable (q : IslandQuery n) : List (Fin n) :=
  (List.finRange n).filter q.fits

theorem IslandQuery.mem_suitable (q : IslandQuery n) (i : Fin n) :
    i ∈ q.suitable ↔ q.fits i = true := by simp [suitable]

theorem IslandQuery.suitable_sorted (q : IslandQuery n) : q.suitable.Pairwise (· < ·) :=
  (List.pairwise_lt_finRange n).filter _

theorem IslandQuery.suitable_nodup (q : IslandQuery n) : q.suitable.Nodup :=
  (List.nodup_finRange n).filter _

theorem sum_filter_fits (fits : Fin n → Bool) (v : Fin n → ℤ) :
    (((List.finRange n).filter fits).map v).sum = ∑ i with fits i = true, v i := by
  have hset : ((List.finRange n).filter fits).toFinset =
      ({i | fits i = true} : Finset (Fin n)) := by
    ext i
    simp
  rw [← hset, List.sum_toFinset v ((List.nodup_finRange n).filter _)]

/-- The splits over the suitable islands, of a vector with the sentinel at the others. -/
theorem distributes_iff_splits {fits : Fin n → Bool} {w : Fin n → ℤ}
    (hw : ∀ i, fits i = false → w i = unsuitableIsland) (W : ℕ) (v : Fin n → ℤ) :
    Distributes fits W v ↔ v ∈ splits ((List.finRange n).filter fits) W w := by
  have hmem : ∀ i, i ∈ (List.finRange n).filter fits ↔ fits i = true := fun i => by simp
  rw [mem_splits _ _ _ _ ((List.nodup_finRange n).filter _), sum_filter_fits]
  simp only [hmem]
  constructor
  · rintro ⟨hun, hpos, hsum⟩
    refine ⟨?_, hpos, hsum⟩
    intro j hj
    have hf : fits j = false := by simpa using hj
    rw [(hun j).mpr hf, hw j hf]
  · rintro ⟨hoff, hpos, hsum⟩
    refine ⟨?_, hpos, hsum⟩
    intro i
    cases hf : fits i with
    | false =>
      rw [hoff i (by simp [hf]), hw i hf]
      simp
    | true =>
      have h0 := hpos i hf
      simp only [Bool.true_eq_false, iff_false]
      intro h
      rw [h] at h0
      exact absurd h0 (by decide)

theorem distributes_iff (q : IslandQuery n) (W : ℕ) (v : Fin n → ℤ) :
    Distributes q.fits W v ↔ v ∈ splits q.suitable W q.blank := by
  refine distributes_iff_splits (fun i hf => ?_) W v
  rw [IslandQuery.blank, hf]
  simp

namespace AlgoSimple

/-! ## The recursion -/

/-- The islands of `rest` carry the sentinel exactly where they are unsuitable. -/
def Marked (fits : Fin n → Bool) (rest : List (Fin n)) (o : AlgoSimple n) : Prop :=
  ∀ i ∈ rest, o.wgsPerIslands i = unsuitableIsland ↔ fits i = false

/-- What the exploration of the islands `is` with `k` items does to the object. -/
structure Explored (is : List (Fin n)) (k : ℕ) (o o' : AlgoSimple n) : Prop where
  best : o'.best = (splits is k o.wgsPerIslands).foldl (record o.leafMaxOf) o.best
  costs : SameCosts o o'
  frame : ∀ j, j ∉ is → o'.wgsPerIslands j = o.wgsPerIslands j
  zeroed : ∀ j ∈ is, o'.wgsPerIslands j = 0

theorem Explored.marked {fits : Fin n → Bool} {rest : List (Fin n)} {k : ℕ} {o o' : AlgoSimple n}
    (h : Explored (rest.filter fits) k o o') (hm : Marked fits rest o) : Marked fits rest o' := by
  intro i hi
  cases hf : fits i with
  | false =>
    rw [h.frame i (by simp [hf]), hm i hi, hf]
  | true =>
    rw [h.zeroed i (by simp [hi, hf])]
    decide

theorem marked_putItems {fits : Fin n → Bool} {i : Fin n} {rest : List (Fin n)} {o : AlgoSimple n}
    (hi : i ∉ rest) (hm : Marked fits rest o) (items : ℤ) :
    Marked fits rest (o.putItems i items) := by
  intro j hj
  have hji : j ≠ i := fun h => hi (h ▸ hj)
  rw [← hm j hj]
  simp only [putItems, Function.update_of_ne hji]

/-- The passes `0, …, m - 1` of the loop at a suitable island `i` that got `k` items. -/
theorem loop_explored {fits : Fin n → Bool} {i : Fin n} {rest : List (Fin n)} {k : ℕ}
    {F : AlgoSimple n → ℕ → AlgoSimple n} {o : AlgoSimple n} (hi : i ∉ rest)
    (hF : ∀ o' c, c ≤ k → Marked fits rest o' →
      Explored (rest.filter fits) c (o'.putItems i (k - c)) (F o' c))
    (hm : Marked fits rest o) (m : ℕ) (hmk : m ≤ k + 1) :
    let o' := (List.range m).foldl F o
    o'.best = ((List.range m).flatMap fun c => splits (rest.filter fits) c
        (Function.update o.wgsPerIslands i (k - c))).foldl (record o.leafMaxOf) o.best ∧
      SameCosts o o' ∧
      (∀ j, j ∉ i :: rest.filter fits → o'.wgsPerIslands j = o.wgsPerIslands j) ∧
      Marked fits rest o' := by
  induction m with
  | zero => exact ⟨rfl, SameCosts.refl o, fun _ _ => rfl, hm⟩
  | succ m ih =>
    obtain ⟨hbest, hcosts, hframe, hmark⟩ := ih (by omega)
    set o₁ := (List.range m).foldl F o with ho₁
    have hE := hF o₁ m (by omega) hmark
    have hput : SameCosts o (o₁.putItems i (k - m)) := hcosts
    intro o'
    have ho' : o' = F o₁ m := by
      simp only [o', List.range_succ, List.foldl_append, List.foldl_cons, List.foldl_nil, ← ho₁]
    rw [ho']
    refine ⟨?_, hput.trans hE.costs, ?_, hE.marked (marked_putItems hi hmark _)⟩
    · -- the new leaves are those below the cell's new value, whatever earlier passes left below
      have hsplits : splits (rest.filter fits) m (o₁.putItems i (k - m)).wgsPerIslands =
          splits (rest.filter fits) m (Function.update o.wgsPerIslands i (k - m)) := by
        apply splits_congr
        intro j hj
        by_cases hji : j = i
        · subst hji
          simp [putItems]
        · simp only [putItems, Function.update_of_ne hji]
          exact hframe j (by simp only [List.mem_cons, not_or]; exact ⟨hji, hj⟩)
      have hb : (o₁.putItems i (k - m)).best = o₁.best := rfl
      rw [hE.best, hsplits, hput.leafMaxOf_eq, hb, hbest, List.range_succ, List.flatMap_append,
        List.foldl_append, List.flatMap_singleton]
    · intro j hj
      simp only [List.mem_cons, not_or] at hj
      rw [hE.frame j hj.2]
      simp only [putItems, Function.update_of_ne hj.1]
      exact hframe j (by simpa only [List.mem_cons, not_or] using hj)

/-- The recursion visits the splits of its items among the suitable islands, in their order. -/
theorem explored (fits : Fin n → Bool) (rest : List (Fin n)) (k : ℕ) (o : AlgoSimple n)
    (hnd : rest.Nodup) (hm : Marked fits rest o) :
    Explored (rest.filter fits) k o (explore rest k o) := by
  induction rest generalizing k o with
  | nil =>
    unfold explore
    simp only [List.filter_nil]
    by_cases hzero : k = 0
    · subst hzero
      simp only [Nat.cast_zero, if_true]
      refine ⟨?_, calculateTotal_sameCosts o, fun j _ => ?_, by simp⟩
      · rw [best_calculateTotal]
        rfl
      · rw [calculateTotal_wgs]
    · rw [if_neg (by exact_mod_cast hzero)]
      refine ⟨?_, SameCosts.refl o, fun _ _ => rfl, by simp⟩
      simp [splits, hzero]
  | cons i rest ih =>
    obtain ⟨hi, hnd⟩ := List.nodup_cons.mp hnd
    have hrest : Marked fits rest o := fun j hj => hm j (by simp [hj])
    unfold explore
    cases hf : fits i with
    | false =>
      rw [if_pos ((hm i (by simp)).mpr hf), List.filter_cons_of_neg (by simp [hf])]
      exact ih k o hnd hrest
    | true =>
      have hne : o.wgsPerIslands i ≠ unsuitableIsland := by
        intro h
        rw [(hm i (by simp)).mp h] at hf
        cases hf
      rw [if_neg hne, List.filter_cons_of_pos hf, turns_natCast]
      have hF : ∀ (o' : AlgoSimple n) (c : ℕ), c ≤ k → Marked fits rest o' →
          Explored (rest.filter fits) c (o'.putItems i (k - c))
            (explore rest c (o'.putItems i (k - c))) := by
        intro o' c _ hm'
        exact ih c _ hnd (marked_putItems hi hm' _)
      obtain ⟨hbest, hcosts, hframe, -⟩ := loop_explored hi hF hrest (k + 1) le_rfl
      refine ⟨hbest, hcosts, hframe, ?_⟩
      -- the last pass carries all `k` items past island `i`
      obtain ⟨-, -, -, hlast⟩ := loop_explored hi hF hrest k (by omega)
      have hE := hF _ k le_rfl hlast
      intro j hj
      rw [List.range_succ, List.foldl_append, List.foldl_cons, List.foldl_nil]
      obtain rfl | hj := List.mem_cons.mp hj
      · rw [hE.frame j (fun h => hi (List.mem_of_mem_filter h))]
        simp [putItems]
      · exact hE.zeroed j hj

theorem marked_prepared (q : IslandQuery n) : Marked q.fits (List.finRange n) q.prepared := by
  intro i _
  cases hf : q.fits i <;> simp [IslandQuery.prepared, IslandQuery.blank, hf, unsuitableIsland]

/-- The least total cost, and the first distribution that has it. -/
theorem best_search (o : AlgoSimple n) (q : IslandQuery n) {W : ℕ} (hW : W + 1 < 2 ^ 31)
    (h : W = 0 ∨ ∃ i, q.fits i = true) : ∃ o', o.search q W = some o' ∧
      ∃ m ∈ (splits q.suitable W q.blank).argmin q.prepared.leafMaxOf,
        o'.currentMin = q.prepared.leafMaxOf m ∧ o'.result = m := by
  have hE := explored q.fits (List.finRange n) W q.prepared (List.nodup_finRange n)
    (marked_prepared q)
  have hfold := foldl_record q.prepared.leafMaxOf q.blank (splits q.suitable W q.blank)
    fun v _ => leafMaxOf_nonneg _ v
  have hne : splits q.suitable W q.blank ≠ [] := by
    refine splits_ne_nil _ _ _ (h.symm.imp_left ?_)
    rintro ⟨i, hi⟩
    exact List.ne_nil_of_mem ((q.mem_suitable i).mpr hi)
  have hsome : (splits q.suitable W q.blank).argmin q.prepared.leafMaxOf ≠ none := fun h =>
    hne (List.argmin_eq_none.mp h)
  obtain ⟨m, hm⟩ := Option.ne_none_iff_exists'.mp hsome
  have hbest : (explore (List.finRange n) W q.prepared).best = (q.prepared.leafMaxOf m, m) := by
    rw [hE.best]
    exact hfold.trans (by rw [hm]; rfl)
  exact ⟨_, o.search_eq q (by omega) (by omega), m, hm, congrArg Prod.fst hbest,
    congrArg Prod.snd hbest⟩

/-- Whatever the costs are, the search returns the cheapest distribution. -/
theorem search_cheapest (o : AlgoSimple n) (q : IslandQuery n) {W : ℕ} (hW : W + 1 < 2 ^ 31)
    (h : W = 0 ∨ ∃ i, q.fits i = true) : ∃ o', o.search q W = some o' ∧
      o'.currentMin = q.prepared.leafMaxOf o'.result ∧ Cheapest q W o'.result := by
  obtain ⟨o', hsearch, m, hm, hmin, hres⟩ := best_search o q hW h
  refine ⟨o', hsearch, by rw [hmin, hres], ?_⟩
  rw [hres]
  refine ⟨(distributes_iff q W m).mpr (List.argmin_mem hm), fun u hu => ?_, fun u hu heq => ?_⟩
  · exact List.le_of_mem_argmin ((distributes_iff q W u).mp hu) hm
  · exact le_of_mem_argmin (g := toLex) (splits_pairwise _ _ _ q.suitable_sorted) hm
      ((distributes_iff q W u).mp hu) heq.le

/-! ## The leaves -/

theorem i32_sum {a b c : ℤ} (ha : 0 ≤ a) (hb : 0 ≤ b) (hc : 0 ≤ c) (h : a + b + c < 2 ^ 31) :
    i32 (i32 (i32 a + b) + c) = a + b + c := by
  have h₁ : i32 a = a := i32_of_mem (by omega) (by omega)
  have h₂ : i32 (a + b) = a + b := i32_of_mem (by omega) (by omega)
  rw [h₁, h₂, i32_of_mem (by omega) h]

theorem leafMaxOf_eq_makespan {q : IslandQuery n} {W : ℕ} (hq : q.Costs W) {v : Fin n → ℤ}
    (hv : Distributes q.fits W v) : q.prepared.leafMaxOf v = makespan q v := by
  apply eq_of_forall_ge_iff
  intro c
  rw [makespan_le_iff]
  unfold leafMaxOf
  rw [leafMax_le_iff]
  apply and_congr_right
  intro _
  apply forall_congr'
  intro i
  change (0 < v i → _) ↔ _
  apply imp_congr_right
  intro hpos
  have hfit : q.fits i = true := by
    by_contra hf
    have hun := (hv.unsuitable i).mpr (by simpa using hf)
    rw [hun] at hpos
    exact absurd hpos (by decide)
  have hle := hv.le_total hfit
  have hmul : v i * q.wgCost i ≤ W * q.wgCost i := by gcongr; exact hq.wg i hfit
  have hmul0 : 0 ≤ v i * q.wgCost i := mul_nonneg hpos.le (hq.wg i hfit)
  have hrem := hq.remaining i hfit
  have hrec := hq.reconf i hfit
  have hbound := hq.bound i hfit
  have hcost : ({ q.prepared with wgsPerIslands := v } : AlgoSimple n).wgsCost i =
      v i * q.wgCost i + q.remainingTime i + q.reconf i := by
    unfold wgsCost
    simp only [IslandQuery.prepared, hfit, if_true]
    exact i32_sum hmul0 hrem hrec (by omega)
  rw [hcost]

/-- `route_ndrange`'s search returns, from any earlier contents of the object, the
lexicographically greatest distribution of least makespan. -/
theorem search_optimal (o : AlgoSimple n) (q : IslandQuery n) (W : ℕ)
    (hfit : ∃ i, q.fits i = true) (hq : q.Costs W) :
    ∃ o', o.search q W = some o' ∧ Optimal q W o'.currentMin o'.result := by
  obtain ⟨o', hsearch, hmin, hbest⟩ := search_cheapest o q hq.items (Or.inr hfit)
  have hspan := leafMaxOf_eq_makespan hq hbest.distributes
  refine ⟨o', hsearch, hbest.distributes, hmin.trans hspan, fun u hu => ?_, fun u hu heq => ?_⟩
  · rw [← hspan, ← leafMaxOf_eq_makespan hq hu]
    exact hbest.least u hu
  · refine hbest.greatest u hu ?_
    rw [hspan, leafMaxOf_eq_makespan hq hu, heq]

/-- Two work-groups for two idle islands of equal cost: one each. -/
theorem search_optimal_pair :
    let q : IslandQuery 2 :=
      ⟨fun _ => true, fun _ => 0, fun _ => false, fun _ => 1000, fun _ => 20⟩
    ∃ o', (new 2).search q (2 : ℕ) = some o' ∧ Optimal q (2 : ℕ) o'.currentMin o'.result := by
  intro q
  refine search_optimal (new 2) q 2 ⟨0, rfl⟩ ⟨by norm_num, ?_, ?_, ?_, ?_⟩ <;>
    intro i _ <;> norm_num [q, IslandQuery.reconf]

/-! ## A loop that makes a single pass -/

/-- The islands in front of the first suitable one, and those behind it. -/
theorem exists_first_suitable {fits : Fin n → Bool} {i : Fin n} {is rest : List (Fin n)}
    {o : AlgoSimple n} (hnd : rest.Nodup) (hm : Marked fits rest o)
    (h : rest.filter fits = i :: is) : ∃ front tail, rest = front ++ i :: tail ∧
      (∀ j ∈ front, o.wgsPerIslands j = unsuitableIsland) ∧ o.wgsPerIslands i ≠ unsuitableIsland ∧
      i ∉ tail ∧ tail.Nodup ∧ Marked fits tail o ∧ tail.filter fits = is := by
  obtain ⟨front, tail, rfl, hfront, hi, htail⟩ := List.filter_eq_cons_iff.mp h
  obtain ⟨hnot, hnd⟩ := List.nodup_cons.mp hnd.of_append_right
  refine ⟨front, tail, rfl, fun j hj => ?_, fun hun => ?_, hnot, hnd, fun j hj => ?_, htail⟩
  · exact (hm j (List.mem_append_left _ hj)).mpr (by simpa using hfront j hj)
  · rw [(hm i (by simp)).mp hun] at hi
    cases hi
  · exact hm j (by simp [hj])

theorem explore_skip {front rest : List (Fin n)} {x : ℤ} {o : AlgoSimple n}
    (h : ∀ j ∈ front, o.wgsPerIslands j = unsuitableIsland) :
    explore (front ++ rest) x o = explore rest x o := by
  induction front with
  | nil => rfl
  | cons j front ih =>
    rw [List.cons_append, explore, if_pos (h j List.mem_cons_self)]
    exact ih fun k hk => h k (List.mem_cons_of_mem j hk)

/-- With a number of items for which the loop runs once, the first suitable island gets them
all and the others get none. -/
theorem explore_once (fits : Fin n → Bool) {x : ℤ} (hx : turns x = 1) (i : Fin n)
    (is rest : List (Fin n)) (o : AlgoSimple n) (hnd : rest.Nodup) (hm : Marked fits rest o)
    (h : rest.filter fits = i :: is) :
    (explore rest x o).best =
      (splits is 0 (Function.update o.wgsPerIslands i x)).foldl (record o.leafMaxOf) o.best := by
  obtain ⟨front, tail, rfl, hfront, hne, hi, hnd, hmt, rfl⟩ := exists_first_suitable hnd hm h
  rw [explore_skip hfront, explore, if_neg hne, hx]
  have hE := explored fits tail 0 (o.putItems i (x - (0 : ℕ))) hnd (marked_putItems hi hmt _)
  have hcosts : SameCosts o (o.putItems i (x - (0 : ℕ))) := ⟨rfl, rfl, rfl⟩
  have hwgs : (o.putItems i (x - (0 : ℕ))).wgsPerIslands =
      Function.update o.wgsPerIslands i x := by simp [putItems]
  have hbest := hE.best
  rw [hwgs, hcosts.leafMaxOf_eq] at hbest
  exact hbest

/-- The last `int` is a number of items for which the search does not return. -/
theorem search_overflow (o : AlgoSimple n) (q : IslandQuery n) {x : ℤ} (hx : 2 ^ 31 ≤ x + 1)
    (hfit : ∃ i, q.fits i = true) : o.search q x = none := by
  obtain ⟨j, hj⟩ := hfit
  obtain ⟨i, is, his⟩ := List.exists_cons_of_ne_nil
    (List.ne_nil_of_mem ((q.mem_suitable j).mpr hj))
  obtain ⟨front, tail, hall, hfront, hne, -⟩ := exists_first_suitable (List.nodup_finRange n)
    (marked_prepared q) his
  unfold search
  rw [setUp_eq, hall]
  exact recursiveFunction_overflow hx hfront hne

/-- Whatever the costs are, what the search returns is a distribution, and the number of items is not
the last `int` unless there is nothing to distribute to. -/
theorem search_distributes {o o' : AlgoSimple n} {q : IslandQuery n} {W : ℕ}
    (h : o.search q (i32 W) = some o') (hW : W < 2 ^ 31) (hne : W = 0 ∨ ∃ i, q.fits i = true) :
    W + 1 < 2 ^ 31 ∧ Distributes q.fits W o'.result := by
  rw [i32_natCast hW] at h
  have hlast : W + 1 < 2 ^ 31 := by
    by_contra hlast
    obtain hzero | hfit := hne
    · omega
    · rw [search_overflow o q (by omega) hfit] at h
      cases h
  obtain ⟨o₁, hsearch, -, hbest⟩ := search_cheapest o q hlast hne
  obtain rfl : o₁ = o' := Option.some.inj (hsearch.symm.trans h)
  exact ⟨hlast, hbest.distributes⟩

/-- A negative number of items goes to the first suitable island. -/
theorem search_once (o : AlgoSimple n) (q : IslandQuery n) {x : ℤ} (hlo : -2 ^ 31 ≤ x) (hneg : x < 0)
    (hfit : ∃ i, q.fits i = true) : ∃ o' i is, o.search q x = some o' ∧ q.suitable = i :: is ∧
      o'.result ∈ splits is 0 (Function.update q.blank i x) := by
  obtain ⟨j, hj⟩ := hfit
  obtain ⟨i, is, his⟩ := List.exists_cons_of_ne_nil
    (List.ne_nil_of_mem ((q.mem_suitable j).mpr hj))
  refine ⟨_, i, is, o.search_eq q hlo (by omega), his, ?_⟩
  have hbest := explore_once q.fits (show turns x = 1 by unfold turns; omega) i is
    (List.finRange n) q.prepared (List.nodup_finRange n) (marked_prepared q) his
  have hfold := foldl_record q.prepared.leafMaxOf q.blank
    (splits is 0 (Function.update q.blank i x)) fun v _ => leafMaxOf_nonneg _ v
  have hsome : (splits is 0 (Function.update q.blank i x)).argmin q.prepared.leafMaxOf ≠ none :=
    fun h => splits_ne_nil is 0 _ (Or.inr rfl) (List.argmin_eq_none.mp h)
  obtain ⟨m, hm⟩ := Option.ne_none_iff_exists'.mp hsome
  have hres : (explore (List.finRange n) x q.prepared).best = (q.prepared.leafMaxOf m, m) := by
    rw [hbest]
    exact hfold.trans (by rw [hm]; rfl)
  rw [show (explore (List.finRange n) x q.prepared).result = m from congrArg Prod.snd hres]
  exact List.argmin_mem hm

/-- The number is negative as an `int`, so the first suitable island gets it whole. -/
theorem search_wide (o : AlgoSimple n) (q : IslandQuery n) {N : ℕ} (hlo : 2 ^ 31 ≤ N)
    (hhi : N < 2 ^ 32) (hfit : ∃ i, q.fits i = true) : ∃ o' i, o.search q (i32 N) = some o' ∧
      o'.result i = i32 N ∧ ∀ j, j ≠ i →
        o'.result j = if q.fits j then 0 else unsuitableIsland := by
  have hneg : i32 (N : ℤ) < 0 := i32_wrap (by omega) (by omega)
  obtain ⟨o', i, is, hsearch, his, hmem⟩ := o.search_once q (i32_lower _) hneg hfit
  have hnd : (i :: is).Nodup := his ▸ q.suitable_nodup
  obtain ⟨hoff, hnonneg, hsum⟩ :=
    (mem_splits _ _ _ _ (List.nodup_cons.mp hnd).2).mp hmem
  refine ⟨o', i, hsearch, ?_, fun j hj => ?_⟩
  · rw [hoff i (List.nodup_cons.mp hnd).1, Function.update_self]
  by_cases hjs : j ∈ is
  · have hfits := (q.mem_suitable j).mp (his ▸ List.mem_cons_of_mem i hjs)
    have hle := List.single_le_sum (by
      intro x hx
      obtain ⟨k, hk, rfl⟩ := List.mem_map.mp hx
      exact hnonneg k hk) _ (List.mem_map_of_mem (f := o'.result) hjs)
    have hpos := hnonneg j hjs
    rw [if_pos hfits]
    omega
  · rw [hoff j hjs, Function.update_of_ne hj, IslandQuery.blank]

end AlgoSimple

end FpgaMl
