import Mathlib.Tactic
import FpgaMl.Foundation.Loops
import FpgaMl.LaunchArithmetic

/-! # The calls of `calculate_total`

`recursive_function` with its loop as it is written, and with the vectors for which it calls
`calculate_total`. The recursion over the islands and the passes of the loop refine it. With the
sentinel at the unsuitable islands the calls are the splits of the items, each once, unless the bound
of the loop overflows. -/
namespace FpgaMl
open MachineInt Distribution Loops
set_option autoImplicit false

variable {n : ℕ}

/-- The object, and `m_wgs_per_islands` at the calls of `calculate_total` so far. -/
structure SearchRun (n : ℕ) where
  object : AlgoSimple n
  calls : List (Fin n → ℤ)

namespace SearchRun

def calculateTotal (r : SearchRun n) : SearchRun n :=
  ⟨r.object.calculateTotal, r.calls ++ [r.object.wgsPerIslands]⟩

def putItems (r : SearchRun n) (i : Fin n) (items : ℤ) : SearchRun n :=
  { r with object := r.object.putItems i items }

/-- The body of the loop at island `i`, with the counter and the run as its state. -/
def turn (call : ℤ → SearchRun n → Option (SearchRun n)) (i : Fin n) (numItems : ℤ)
    (s : ℤ × SearchRun n) : Option (ℤ × SearchRun n) :=
  (call s.1 (s.2.putItems i (numItems - s.1))).bind fun r =>
    (checkedAdd s.1 1).map fun counter => (counter, r)

/-- `counter < num_items + 1`. -/
def again (numItems : ℤ) (s : ℤ × SearchRun n) : Option Bool :=
  (checkedAdd numItems 1).map fun bound => decide (s.1 < bound)

/-- `recursive_function`, each of whose loops may make `fuel` turns. -/
def recursiveFunction (fuel : ℕ) : List (Fin n) → ℤ → SearchRun n → Option (SearchRun n)
  | [], numItems, r => some (if numItems = 0 then r.calculateTotal else r)
  | i :: rest, numItems, r =>
    if r.object.wgsPerIslands i = unsuitableIsland then recursiveFunction fuel rest numItems r
    else (doWhile (turn (recursiveFunction fuel rest) i numItems) (again numItems) fuel
      (0, r)).map Prod.snd

end SearchRun

namespace AlgoSimple

/-- `recursive_function (W, 0)` on an object, for loops of at most `fuel` turns. -/
def searchCalls (o : AlgoSimple n) (W : ℕ) (fuel : ℕ) : Option (List (Fin n → ℤ)) :=
  (SearchRun.recursiveFunction fuel (List.finRange n) W ⟨o, []⟩).map SearchRun.calls

/-- An island without the sentinel. -/
def suitable (o : AlgoSimple n) (i : Fin n) : Bool := decide (o.wgsPerIslands i ≠ unsuitableIsland)

end AlgoSimple

/-- Every distribution of `W` items over the suitable islands once, and nothing else. -/
structure Enumerates (fits : Fin n → Bool) (W : ℕ) (calls : List (Fin n → ℤ)) : Prop where
  only : ∀ v ∈ calls, Distributes fits W v
  once : ∀ v, Distributes fits W v → calls.count v = 1
  decreasing : calls.Pairwise fun v u => toLex u < toLex v
  number : calls.length =
    (W + Finset.card {i | fits i = true} - 1).choose (Finset.card {i | fits i = true} - 1)

/-- The recursion returns, and it has made the calls of an enumeration. -/
def AlgoSimple.EnumeratesOnce (o : AlgoSimple n) (W : ℕ) : Prop :=
  ∃ calls turns, (∀ fuel ≥ turns, o.searchCalls W fuel = some calls) ∧
    Enumerates o.suitable W calls

namespace AlgoSimple

/-! ## The loop as it is written -/

section Loop

variable {x : ℤ} (hlo : -2 ^ 31 ≤ x) (hhi : x + 1 < 2 ^ 31)

include hlo hhi in
theorem again_eq {k : ℕ} (hk : 1 ≤ k) (r : SearchRun n) :
    SearchRun.again x ((k : ℤ), r) = some (decide (k < turns x)) := by
  unfold SearchRun.again turns
  rw [checkedAdd_of_mem (by omega) hhi, Option.map_some]
  exact congrArg some (decide_eq_decide.mpr (by omega))

include hhi in
theorem lt_of_turns {k : ℕ} (hk : k < turns x) : (k : ℤ) + 1 < 2 ^ 31 := by
  unfold turns at hk
  omega

/-- A pass that the loop makes takes no more passes itself. -/
theorem turns_counter {k : ℕ} (hk : k < turns x) : turns (k : ℤ) ≤ turns x := by
  rw [turns_natCast]
  exact hk

end Loop

/-- The run after the first `k` passes of the loop at island `i`. -/
def afterPasses (i : Fin n) (rest : List (Fin n)) (x : ℤ) (r : SearchRun n) (k : ℕ) : SearchRun n where
  object := (List.range k).foldl (fun o (c : ℕ) => explore rest c (o.putItems i (x - c))) r.object
  calls := r.calls ++ ((List.range k).flatMap fun (c : ℕ) =>
    leafCalls rest c (((List.range c).foldl (fun o (c : ℕ) =>
      explore rest c (o.putItems i (x - c))) r.object).putItems i (x - c))).map wgsPerIslands

theorem afterPasses_succ (i : Fin n) (rest : List (Fin n)) (x : ℤ) (r : SearchRun n) (k : ℕ) :
    afterPasses i rest x r (k + 1) =
      ⟨explore rest k ((afterPasses i rest x r k).putItems i (x - k)).object,
        ((afterPasses i rest x r k).putItems i (x - k)).calls ++
          (leafCalls rest k ((afterPasses i rest x r k).putItems i (x - k)).object).map
            wgsPerIslands⟩ := by
  unfold afterPasses SearchRun.putItems
  simp only [List.range_succ, List.foldl_append, List.foldl_cons, List.foldl_nil,
    List.flatMap_append, List.flatMap_singleton, List.map_append, List.append_assoc]

/-- The loop makes its passes and ends. -/
theorem loop_returns {i : Fin n} {rest : List (Fin n)} {x : ℤ} {r : SearchRun n} {fuel : ℕ}
    (hlo : -2 ^ 31 ≤ x) (hhi : x + 1 < 2 ^ 31) (hfuel : turns x ≤ fuel)
    (hcall : ∀ (k : ℕ) r, (k : ℤ) + 1 < 2 ^ 31 → turns (k : ℤ) ≤ fuel →
      SearchRun.recursiveFunction fuel rest k r =
        some ⟨explore rest k r.object, r.calls ++ (leafCalls rest k r.object).map wgsPerIslands⟩) :
    doWhile (SearchRun.turn (SearchRun.recursiveFunction fuel rest) i x) (SearchRun.again x) fuel
      (0, r) = some ((turns x : ℤ), afterPasses i rest x r (turns x)) := by
  obtain ⟨m, hm⟩ : ∃ m, turns x = m + 1 := ⟨turns x - 1, by have := turns_pos x; omega⟩
  have hstart : ((0 : ℤ), r) = (((0 : ℕ) : ℤ), afterPasses i rest x r 0) := by
    simp [afterPasses]
  rw [hstart, hm]
  refine doWhile_passes (s := fun k : ℕ => ((k : ℤ), afterPasses i rest x r k)) ?_ ?_ ?_ (by omega)
  · intro k hk
    have hturn : k < turns x := by omega
    have hlast := lt_of_turns hhi hturn
    unfold SearchRun.turn
    rw [hcall k _ hlast ((turns_counter hturn).trans hfuel), Option.bind_some,
      checkedAdd_of_mem (by omega) hlast, afterPasses_succ]
    simp
  · intro k hk
    rw [again_eq hlo hhi (Nat.succ_pos k)]
    exact congrArg some (decide_eq_true (by omega))
  · rw [again_eq hlo hhi (Nat.succ_pos m)]
    exact congrArg some (decide_eq_false (by omega))

/-- The recursion returns. It leaves the object of the model in front, and calls `calculate_total`
at its leaves. -/
theorem recursiveFunction_returns (rest : List (Fin n)) {x : ℤ} (hlo : -2 ^ 31 ≤ x)
    (hhi : x + 1 < 2 ^ 31) (r : SearchRun n) {fuel : ℕ} (hfuel : turns x ≤ fuel) :
    SearchRun.recursiveFunction fuel rest x r =
      some ⟨explore rest x r.object, r.calls ++ (leafCalls rest x r.object).map wgsPerIslands⟩ := by
  induction rest generalizing x r with
  | nil =>
    unfold SearchRun.recursiveFunction explore leafCalls
    split
    · rfl
    · rw [List.map_nil, List.append_nil]
  | cons i rest ih =>
    unfold SearchRun.recursiveFunction explore leafCalls
    split
    · exact ih hlo hhi r hfuel
    · rw [loop_returns hlo hhi hfuel fun k r hk hturns => ih (by omega) hk r hturns]
      rfl

/-- The recursion with its loop as it is written has the result of the recursion over the passes. -/
theorem recursiveFunction_refines (rest : List (Fin n)) {x : ℤ} (hlo : -2 ^ 31 ≤ x)
    (hhi : x + 1 < 2 ^ 31) (r : SearchRun n) {fuel : ℕ} (hfuel : turns x ≤ fuel) :
    (SearchRun.recursiveFunction fuel rest x r).map SearchRun.object =
      recursiveFunction rest x r.object := by
  rw [recursiveFunction_returns rest hlo hhi r hfuel, recursiveFunction_eq rest hlo hhi]
  rfl

/-- An overflow of the bound: for no number of turns does the recursion return. -/
theorem recursiveFunction_stuck {rest : List (Fin n)} {x : ℤ} (hx : 2 ^ 31 ≤ x + 1) (r : SearchRun n)
    (hne : ∃ i ∈ rest, r.object.wgsPerIslands i ≠ unsuitableIsland) (fuel : ℕ) :
    SearchRun.recursiveFunction fuel rest x r = none := by
  induction rest with
  | nil =>
    obtain ⟨i, hi, -⟩ := hne
    cases hi
  | cons i rest ih =>
    unfold SearchRun.recursiveFunction
    split
    · rename_i hun
      refine ih ?_
      obtain ⟨j, hj, hsuitable⟩ := hne
      obtain rfl | hj := List.mem_cons.mp hj
      · exact absurd hun hsuitable
      · exact ⟨j, hj, hsuitable⟩
    · have hagain : ∀ s : ℤ × SearchRun n, SearchRun.again x s = none := fun s => by
        unfold SearchRun.again
        rw [checkedAdd_overflow hx]
        rfl
      rw [doWhile_fails hagain]
      rfl

theorem searchCalls_returns (o : AlgoSimple n) {W fuel : ℕ} (hW : W + 1 < 2 ^ 31) (hfuel : W < fuel) :
    o.searchCalls W fuel = some ((leafCalls (List.finRange n) W o).map wgsPerIslands) := by
  unfold searchCalls
  rw [recursiveFunction_returns _ (by omega) (by omega) _ ((turns_natCast W).trans_le hfuel),
    Option.map_some, List.nil_append]

theorem searchCalls_stuck (o : AlgoSimple n) {W : ℕ} (hW : 2 ^ 31 ≤ W + 1)
    (hfit : ∃ i, o.suitable i = true) (fuel : ℕ) : o.searchCalls W fuel = none := by
  obtain ⟨i, hi⟩ := hfit
  have hne : ∃ j ∈ List.finRange n, (⟨o, []⟩ : SearchRun n).object.wgsPerIslands j ≠ unsuitableIsland :=
    ⟨i, List.mem_finRange i, of_decide_eq_true hi⟩
  unfold searchCalls
  rw [recursiveFunction_stuck (by omega) _ hne]
  rfl

theorem not_enumeratesOnce (o : AlgoSimple n) {W : ℕ} (h : ∀ fuel, o.searchCalls W fuel = none) :
    ¬ o.EnumeratesOnce W := by
  rintro ⟨calls, turns, hreturns, -⟩
  have hcalls := hreturns turns le_rfl
  rw [h turns] at hcalls
  cases hcalls

/-! ## The leaves as splits -/

theorem marked_suitable (o : AlgoSimple n) (rest : List (Fin n)) : Marked o.suitable rest o := by
  intro i _
  unfold suitable
  rw [decide_eq_false_iff_not, not_not]

end AlgoSimple

/-! ## An enumeration -/

theorem card_suitable {fits : Fin n → Bool} {i : Fin n} {is : List (Fin n)}
    (his : (List.finRange n).filter fits = i :: is) :
    Finset.card {i | fits i = true} = is.length + 1 := by
  have hset : ((List.finRange n).filter fits).toFinset =
      ({i | fits i = true} : Finset (Fin n)) := by
    ext i
    simp
  rw [← hset, List.toFinset_card_of_nodup ((List.nodup_finRange n).filter _), his, List.length_cons]

theorem enumerates_splits {fits : Fin n → Bool} {w : Fin n → ℤ} {i : Fin n} {is : List (Fin n)}
    (hw : ∀ i, fits i = false → w i = unsuitableIsland)
    (his : (List.finRange n).filter fits = i :: is) (W : ℕ) :
    Enumerates fits W (splits ((List.finRange n).filter fits) W w) := by
  have hmem := distributes_iff_splits hw W
  have hsorted := splits_pairwise _ W w ((List.pairwise_lt_finRange n).filter fits)
  have hnodup : (splits ((List.finRange n).filter fits) W w).Nodup := by
    refine List.Pairwise.imp ?_ hsorted
    intro v u hlt heq
    rw [heq] at hlt
    exact lt_irrefl (toLex u) hlt
  refine ⟨fun v hv => (hmem v).mpr hv, fun v hv => ?_, hsorted, ?_⟩
  · exact List.count_eq_one_of_mem hnodup ((hmem v).mp hv)
  · rw [card_suitable his, his, length_splits]
    rfl

namespace AlgoSimple

/-- The recursion enumerates the distributions for every number of items but the last `int`, for
which it does not return. -/
theorem enumerates_once_iff (o : AlgoSimple n) {W : ℕ} (hW : W < 2 ^ 31)
    (hfit : ∃ i, o.suitable i = true) : o.EnumeratesOnce W ↔ W + 1 < 2 ^ 31 := by
  constructor
  · intro henum
    by_contra hlast
    exact not_enumeratesOnce o (searchCalls_stuck o (by omega) hfit) henum
  · intro hlast
    obtain ⟨f, hf⟩ := hfit
    have hne : (List.finRange n).filter o.suitable ≠ [] :=
      List.ne_nil_of_mem (List.mem_filter.mpr ⟨List.mem_finRange f, hf⟩)
    obtain ⟨i, is, his⟩ := List.exists_cons_of_ne_nil hne
    have hmarked := o.marked_suitable (List.finRange n)
    have hleaves := (leafCalls_eq o.suitable _ W o (List.nodup_finRange n) hmarked).1
    refine ⟨_, W + 1, fun fuel hfuel => searchCalls_returns o hlast hfuel, ?_⟩
    rw [hleaves]
    exact enumerates_splits (fun i hi => (hmarked i (List.mem_finRange i)).mpr hi) his W

/-- Two items over three islands, of which the second is unsuitable. -/
theorem enumerates_once_iff_three :
    ((new 3).putItems 1 unsuitableIsland).EnumeratesOnce 2 ∧
      ((new 3).putItems 1 unsuitableIsland).searchCalls 2 3 =
        some [![2, -13, 0], ![1, -13, 1], ![0, -13, 2]] := by
  refine ⟨(enumerates_once_iff _ (by norm_num) ⟨0, by decide +kernel⟩).mpr (by norm_num), ?_⟩
  decide +kernel

/-- The largest `int`, and a single island. -/
theorem search_never_returns : (∀ fuel, (new 1).searchCalls (2 ^ 31 - 1) fuel = none) ∧
    ¬ (new 1).EnumeratesOnce (2 ^ 31 - 1) := by
  have hstuck : ∀ fuel, (new 1).searchCalls (2 ^ 31 - 1) fuel = none :=
    searchCalls_stuck (new 1) (by norm_num) ⟨0, by decide +kernel⟩
  exact ⟨hstuck, not_enumeratesOnce (new 1) hstuck⟩

end AlgoSimple

end FpgaMl
