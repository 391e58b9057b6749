import Mathlib.Tactic
import Mathlib.Data.Fintype.BigOperators
import FpgaMl.Foundation.MachineInt
import FpgaMl.Foundation.Distribution
import FpgaMl.Foundation.Loops

/-! # The search of AlgoSimple (algo_simple.cc)

The object keeps one vector per quantity, indexed by the island. The costs wrap as `int`s; the bound
of the loop of `recursive_function` has no value where it overflows, and the search no result.
`recursive_function` walks the islands from `start_index` on, which is the list of the islands
still to be assigned. The search is reduced to a fold over `Distribution.splits`. -/
namespace FpgaMl
open MachineInt Distribution Loops
set_option autoImplicit false

def unsuitableIsland : ℤ := -13

@[ext]
structure AlgoSimple (n : ℕ) where
  wgsPerIslands : Fin n → ℤ
  workInProgressCost : Fin n → ℤ
  currentWorkPotentialCost : Fin n → ℤ
  currentWorkReconfCost : Fin n → ℤ
  result : Fin n → ℤ
  currentMin : ℤ

/-- What the set-up loop of `route_ndrange` asks about each island: the verdict of
`check_resource_string`, `get_remaining_time`, `would_need_reconf` and the two tracker costs. -/
structure IslandQuery (n : ℕ) where
  fits : Fin n → Bool
  remainingTime : Fin n → ℤ
  wouldNeedReconf : Fin n → Bool
  reconfCost : Fin n → ℤ
  wgCost : Fin n → ℤ

namespace AlgoSimple

variable {n : ℕ}

/-- The constructor: zeroed vectors and the starting value of `m_current_min`. -/
def new (n : ℕ) : AlgoSimple n := ⟨fun _ => 0, fun _ => 0, fun _ => 0, fun _ => 0, fun _ => 0, -1⟩

def wgsCost (o : AlgoSimple n) (i : Fin n) : ℤ :=
  i32 (i32 (i32 (o.wgsPerIslands i * o.currentWorkPotentialCost i) + o.workInProgressCost i) +
    o.currentWorkReconfCost i)

/-- The loop of `calculate_total` over the islands that have work-groups. -/
def leafMax (o : AlgoSimple n) : ℤ :=
  (List.finRange n).foldl (fun max i =>
    if 0 < o.wgsPerIslands i then if max < o.wgsCost i then o.wgsCost i else max else max) 0

def calculateTotal (o : AlgoSimple n) : AlgoSimple n :=
  if o.leafMax < o.currentMin ∨ o.currentMin < 0 then
    { o with currentMin := o.leafMax, result := o.wgsPerIslands }
  else o

/-- The passes of `do … while (counter < num_items + 1)`; the body always runs once. -/
def passes (numItems : ℤ) : Option ℕ := (checkedAdd numItems 1).map fun bound => max 1 bound.toNat

def putItems (o : AlgoSimple n) (i : Fin n) (items : ℤ) : AlgoSimple n :=
  { o with wgsPerIslands := Function.update o.wgsPerIslands i items }

def recursiveFunction : List (Fin n) → ℤ → AlgoSimple n → Option (AlgoSimple n)
  | [], numItems, o => some (if numItems = 0 then o.calculateTotal else o)
  | i :: rest, numItems, o =>
    if o.wgsPerIslands i = unsuitableIsland then recursiveFunction rest numItems o
    else (passes numItems).bind fun m => (List.range m).foldlM (fun o (counter : ℕ) =>
      recursiveFunction rest counter (o.putItems i (numItems - counter))) o

def setUpIsland (q : IslandQuery n) (o : AlgoSimple n) (i : Fin n) : AlgoSimple n :=
  if q.fits i = false then
    { o with
      wgsPerIslands := Function.update o.wgsPerIslands i unsuitableIsland
      workInProgressCost := Function.update o.workInProgressCost i unsuitableIsland
      currentWorkPotentialCost := Function.update o.currentWorkPotentialCost i unsuitableIsland
      currentWorkReconfCost := Function.update o.currentWorkReconfCost i unsuitableIsland
      result := Function.update o.result i unsuitableIsland }
  else
    { o with
      wgsPerIslands := Function.update o.wgsPerIslands i 0
      workInProgressCost := Function.update o.workInProgressCost i (q.remainingTime i)
      currentWorkPotentialCost := Function.update o.currentWorkPotentialCost i (q.wgCost i)
      currentWorkReconfCost := Function.update o.currentWorkReconfCost i
        (if q.wouldNeedReconf i then q.reconfCost i else 0)
      result := Function.update o.result i 0 }

def setUp (o : AlgoSimple n) (q : IslandQuery n) : AlgoSimple n :=
  (List.finRange n).foldl (setUpIsland q) { o with currentMin := -1 }

/-- The part of `route_ndrange` up to the end of the search, for `numWgs` work-groups. -/
def search (o : AlgoSimple n) (q : IslandQuery n) (numWgs : ℤ) : Option (AlgoSimple n) :=
  (o.setUp q).recursiveFunction (List.finRange n) numWgs

end AlgoSimple

namespace IslandQuery

variable {n : ℕ} (q : IslandQuery n)

/-- The vector the set-up loop leaves in `m_wgs_per_islands` and `m_result`. -/
def blank (i : Fin n) : ℤ := if q.fits i then 0 else unsuitableIsland

/-- The reconfiguration cost the search uses for a suitable island. -/
def reconf (i : Fin n) : ℤ := if q.wouldNeedReconf i then q.reconfCost i else 0

def prepared : AlgoSimple n where
  wgsPerIslands := q.blank
  workInProgressCost i := if q.fits i then q.remainingTime i else unsuitableIsland
  currentWorkPotentialCost i := if q.fits i then q.wgCost i else unsuitableIsland
  currentWorkReconfCost i := if q.fits i then q.reconf i else unsuitableIsland
  result := q.blank
  currentMin := -1

end IslandQuery

namespace AlgoSimple

variable {n : ℕ}

/-! ## The set-up loop -/

theorem foldl_setUpIsland (q : IslandQuery n) (l : List (Fin n)) (o : AlgoSimple n) :
    l.foldl (setUpIsland q) o =
      { wgsPerIslands := fun i => if i ∈ l then q.prepared.wgsPerIslands i else o.wgsPerIslands i
        workInProgressCost := fun i =>
          if i ∈ l then q.prepared.workInProgressCost i else o.workInProgressCost i
        currentWorkPotentialCost := fun i =>
          if i ∈ l then q.prepared.currentWorkPotentialCost i else o.currentWorkPotentialCost i
        currentWorkReconfCost := fun i =>
          if i ∈ l then q.prepared.currentWorkReconfCost i else o.currentWorkReconfCost i
        result := fun i => if i ∈ l then q.prepared.result i else o.result i
        currentMin := o.currentMin } := by
  induction l generalizing o with
  | nil => simp
  | cons j l ih =>
    rw [List.foldl_cons, ih]
    have hstep : setUpIsland q o j =
        { wgsPerIslands := Function.update o.wgsPerIslands j (q.prepared.wgsPerIslands j)
          workInProgressCost :=
            Function.update o.workInProgressCost j (q.prepared.workInProgressCost j)
          currentWorkPotentialCost :=
            Function.update o.currentWorkPotentialCost j (q.prepared.currentWorkPotentialCost j)
          currentWorkReconfCost :=
            Function.update o.currentWorkReconfCost j (q.prepared.currentWorkReconfCost j)
          result := Function.update o.result j (q.prepared.result j)
          currentMin := o.currentMin } := by
      cases hf : q.fits j <;>
        simp [setUpIsland, IslandQuery.prepared, IslandQuery.blank, IslandQuery.reconf, hf]
    rw [hstep]
    -- cell `j` is written first and is not touched again unless it occurs in the tail
    have hcell : ∀ (new old : Fin n → ℤ) (i : Fin n),
        (if i ∈ l then new i else Function.update old j (new j) i) =
          if i ∈ j :: l then new i else old i := by
      intro new old i
      by_cases hij : i = j
      · subst hij
        simp
      · simp [hij]
    simp only [hcell]

theorem setUp_eq (o : AlgoSimple n) (q : IslandQuery n) : o.setUp q = q.prepared := by
  unfold setUp
  rw [foldl_setUpIsland]
  simp only [List.mem_finRange, if_true]
  rfl

/-! ## A leaf -/

def best (o : AlgoSimple n) : ℤ × (Fin n → ℤ) := (o.currentMin, o.result)

/-- What `calculate_total` would compute at the leaf `v`. -/
def leafMaxOf (o : AlgoSimple n) (v : Fin n → ℤ) : ℤ := ({ o with wgsPerIslands := v }).leafMax

def SameCosts (o o' : AlgoSimple n) : Prop :=
  o'.workInProgressCost = o.workInProgressCost ∧
    o'.currentWorkPotentialCost = o.currentWorkPotentialCost ∧
    o'.currentWorkReconfCost = o.currentWorkReconfCost

theorem SameCosts.refl (o : AlgoSimple n) : SameCosts o o := ⟨rfl, rfl, rfl⟩

theorem SameCosts.trans {o o' o'' : AlgoSimple n} (h : SameCosts o o') (h' : SameCosts o' o'') :
    SameCosts o o'' := ⟨h'.1.trans h.1, h'.2.1.trans h.2.1, h'.2.2.trans h.2.2⟩

theorem SameCosts.leafMaxOf_eq {o o' : AlgoSimple n} (h : SameCosts o o') :
    o'.leafMaxOf = o.leafMaxOf := by
  funext v
  unfold leafMaxOf leafMax wgsCost
  simp only [h.1, h.2.1, h.2.2]

theorem foldl_max_ge (P : Fin n → Prop) [DecidablePred P] (f : Fin n → ℤ) (l : List (Fin n))
    (b c : ℤ) :
    l.foldl (fun max i => if P i then if max < f i then f i else max else max) b ≤ c ↔
      b ≤ c ∧ ∀ i ∈ l, P i → f i ≤ c := by
  induction l generalizing b with
  | nil => simp
  | cons i l ih =>
    rw [List.foldl_cons, ih]
    simp only [List.forall_mem_cons]
    by_cases hP : P i
    · by_cases hb : b < f i
      · simp only [hP, hb, if_true]
        constructor
        · rintro ⟨h1, h2⟩
          exact ⟨by omega, fun _ => h1, h2⟩
        · rintro ⟨-, h1, h2⟩
          exact ⟨h1 trivial, h2⟩
      · simp only [hP, hb, if_true, if_false]
        constructor
        · rintro ⟨h1, h2⟩
          exact ⟨h1, fun _ => by omega, h2⟩
        · rintro ⟨h1, -, h2⟩
          exact ⟨h1, h2⟩
    · simp [hP]

theorem leafMax_le_iff (o : AlgoSimple n) (c : ℤ) :
    o.leafMax ≤ c ↔ 0 ≤ c ∧ ∀ i, 0 < o.wgsPerIslands i → o.wgsCost i ≤ c := by
  unfold leafMax
  rw [foldl_max_ge (fun i => 0 < o.wgsPerIslands i)]
  simp

theorem leafMaxOf_nonneg (o : AlgoSimple n) (v : Fin n → ℤ) : 0 ≤ o.leafMaxOf v :=
  ((leafMax_le_iff _ _).mp le_rfl).1

theorem best_calculateTotal (o : AlgoSimple n) :
    o.calculateTotal.best = record o.leafMaxOf o.best o.wgsPerIslands := by
  have hself : o.leafMaxOf o.wgsPerIslands = o.leafMax := rfl
  unfold calculateTotal record
  rw [hself]
  by_cases h : o.leafMax < o.currentMin ∨ o.currentMin < 0
  · rw [if_pos h, if_pos (by exact h)]
    rfl
  · rw [if_neg h, if_neg (by exact h)]

theorem calculateTotal_wgs (o : AlgoSimple n) :
    o.calculateTotal.wgsPerIslands = o.wgsPerIslands := by
  unfold calculateTotal
  split <;> rfl

theorem calculateTotal_sameCosts (o : AlgoSimple n) : SameCosts o o.calculateTotal := by
  unfold calculateTotal
  split <;> exact SameCosts.refl _

/-! ## The recursion over unbounded integers -/

/-- The passes of the loop when its bound does not overflow. -/
def turns (numItems : ℤ) : ℕ := max 1 (numItems + 1).toNat

/-- `recursive_function` for loops whose bounds do not overflow. -/
def explore : List (Fin n) → ℤ → AlgoSimple n → AlgoSimple n
  | [], numItems, o => if numItems = 0 then o.calculateTotal else o
  | i :: rest, numItems, o =>
    if o.wgsPerIslands i = unsuitableIsland then explore rest numItems o
    else (List.range (turns numItems)).foldl (fun o (counter : ℕ) =>
      explore rest counter (o.putItems i (numItems - counter))) o

theorem turns_natCast (k : ℕ) : turns (k : ℤ) = k + 1 := by
  unfold turns
  omega

theorem turns_pos (x : ℤ) : 0 < turns x := by
  unfold turns
  omega

theorem passes_of_mem {x : ℤ} (hlo : -2 ^ 31 ≤ x) (hhi : x + 1 < 2 ^ 31) :
    passes x = some (turns x) := by
  unfold passes
  rw [checkedAdd_of_mem (by omega) hhi]
  rfl

/-- At the last `int`, `num_items + 1` overflows. -/
theorem passes_overflow {x : ℤ} (h : 2 ^ 31 ≤ x + 1) : passes x = none := by
  unfold passes
  rw [checkedAdd_overflow h]
  rfl

theorem passes_eq_some {x : ℤ} {m : ℕ} (h : passes x = some m) : m = turns x ∧ m < 2 ^ 31 := by
  obtain ⟨bound, hbound, rfl⟩ := Option.map_eq_some_iff.mp h
  obtain ⟨rfl, hlt⟩ := checkedAdd_eq_some hbound
  exact ⟨rfl, by omega⟩

/-- What the recursion returns is what it returns over unbounded integers. -/
theorem explore_of_recursiveFunction (rest : List (Fin n)) (x : ℤ) {o o' : AlgoSimple n}
    (h : recursiveFunction rest x o = some o') : explore rest x o = o' := by
  induction rest generalizing x o o' with
  | nil => exact Option.some.inj h
  | cons i rest ih =>
    unfold recursiveFunction at h
    unfold explore
    split at h
    · rename_i hun
      rw [if_pos hun]
      exact ih x h
    · rename_i hne
      rw [if_neg hne]
      obtain ⟨m, hm, h⟩ := Option.bind_eq_some_iff.mp h
      rw [← (passes_eq_some hm).1]
      exact foldl_of_foldlM _ (fun s (c : ℕ) t hst => ih (c : ℤ) hst) h

/-- The recursion returns when its number of items is not the last `int`. -/
theorem recursiveFunction_eq (rest : List (Fin n)) {x : ℤ} (hlo : -2 ^ 31 ≤ x) (hhi : x + 1 < 2 ^ 31)
    (o : AlgoSimple n) : recursiveFunction rest x o = some (explore rest x o) := by
  induction rest generalizing x o with
  | nil => rfl
  | cons i rest ih =>
    unfold recursiveFunction explore
    split
    · exact ih hlo hhi o
    · rw [passes_of_mem hlo hhi, Option.bind_some]
      refine foldlM_of_some _ (fun s c hc => ih (by omega) ?_ _) o
      have hlt : c < turns x := List.mem_range.mp hc
      unfold turns at hlt
      omega

theorem recursiveFunction_skip {front rest : List (Fin n)} {x : ℤ} {o : AlgoSimple n}
    (h : ∀ j ∈ front, o.wgsPerIslands j = unsuitableIsland) :
    recursiveFunction (front ++ rest) x o = recursiveFunction rest x o := by
  induction front with
  | nil => rfl
  | cons j front ih =>
    rw [List.cons_append, recursiveFunction, if_pos (h j List.mem_cons_self)]
    exact ih fun k hk => h k (List.mem_cons_of_mem j hk)

/-- With the last `int` the recursion does not return, as soon as an island is suitable. -/
theorem recursiveFunction_overflow {front rest : List (Fin n)} {i : Fin n} {x : ℤ} {o : AlgoSimple n}
    (hx : 2 ^ 31 ≤ x + 1) (hfront : ∀ j ∈ front, o.wgsPerIslands j = unsuitableIsland)
    (hi : o.wgsPerIslands i ≠ unsuitableIsland) :
    recursiveFunction (front ++ i :: rest) x o = none := by
  rw [recursiveFunction_skip hfront, recursiveFunction, if_neg hi, passes_overflow hx]
  rfl

theorem search_eq (o : AlgoSimple n) (q : IslandQuery n) {x : ℤ} (hlo : -2 ^ 31 ≤ x)
    (hhi : x + 1 < 2 ^ 31) : o.search q x = some (explore (List.finRange n) x q.prepared) := by
  unfold search
  rw [setUp_eq, recursiveFunction_eq _ hlo hhi]

theorem explore_of_search {o o' : AlgoSimple n} {q : IslandQuery n} {x : ℤ}
    (h : o.search q x = some o') : explore (List.finRange n) x q.prepared = o' := by
  unfold search at h
  rw [setUp_eq] at h
  exact explore_of_recursiveFunction _ x h

/-! ## What the search leaves alone -/

/-- The costs are those of the query, and no island is served that does not fit. -/
structure Keeps (q : IslandQuery n) (o : AlgoSimple n) : Prop where
  costs : SameCosts q.prepared o
  unfit : ∀ i, q.fits i = false →
    o.wgsPerIslands i = unsuitableIsland ∧ o.result i = unsuitableIsland

theorem Keeps.calculateTotal {q : IslandQuery n} {o : AlgoSimple n} (h : Keeps q o) :
    Keeps q o.calculateTotal := by
  refine ⟨h.costs.trans (calculateTotal_sameCosts o), fun i hi => ⟨?_, ?_⟩⟩
  · rw [calculateTotal_wgs]
    exact (h.unfit i hi).1
  · unfold AlgoSimple.calculateTotal
    split
    · exact (h.unfit i hi).1
    · exact (h.unfit i hi).2

theorem Keeps.putItems {q : IslandQuery n} {o : AlgoSimple n} (h : Keeps q o) {i : Fin n}
    (hi : q.fits i = true) (items : ℤ) : Keeps q (o.putItems i items) := by
  refine ⟨h.costs, fun j hj => ⟨?_, (h.unfit j hj).2⟩⟩
  have hji : j ≠ i := by
    rintro rfl
    rw [hi] at hj
    cases hj
  unfold AlgoSimple.putItems
  dsimp only
  rw [Function.update_of_ne hji]
  exact (h.unfit j hj).1

theorem Keeps.explore {q : IslandQuery n} (rest : List (Fin n)) (numItems : ℤ)
    {o : AlgoSimple n} (h : Keeps q o) : Keeps q (o.explore rest numItems) := by
  induction rest generalizing numItems o with
  | nil =>
    unfold AlgoSimple.explore
    split
    · exact h.calculateTotal
    · exact h
  | cons i rest ih =>
    unfold AlgoSimple.explore
    split
    · exact ih numItems h
    · rename_i hne
      have hi : q.fits i = true := by
        by_contra hf
        exact hne (h.unfit i (Bool.eq_false_of_not_eq_true hf)).1
      exact List.foldlRecOn (motive := Keeps q) _ _ h fun o ho _ _ => ih _ (ho.putItems hi _)

theorem search_keeps {o o' : AlgoSimple n} {q : IslandQuery n} {numWgs : ℤ}
    (h : o.search q numWgs = some o') : Keeps q o' := by
  rw [← explore_of_search h]
  refine Keeps.explore _ _ ⟨SameCosts.refl _, fun i hi => ?_⟩
  have hblank : q.blank i = unsuitableIsland := by
    unfold IslandQuery.blank
    rw [hi]
    rfl
  exact ⟨hblank, hblank⟩

theorem Keeps.fits {q : IslandQuery n} {o : AlgoSimple n} (h : Keeps q o) {i : Fin n}
    (hi : 0 < o.result i) : q.fits i = true := by
  by_contra hf
  rw [(h.unfit i (Bool.eq_false_of_not_eq_true hf)).2] at hi
  exact absurd hi (by decide)

end AlgoSimple

end FpgaMl
