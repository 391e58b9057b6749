import Mathlib.Tactic
import FpgaMl.Foundation.TransitionSystem
import FpgaMl.RouteLog
import FpgaMl.Accounting

/-! # Routing by AlgoSimple

`route_ndrange` (algo_simple.cc) as a whole, and the event loop in which ND-ranges are routed and
scheduler timers fire. The verdict of `check_resource_string` is a parameter: the results hold
for every verdict, the source's among them. -/
namespace FpgaMl
open MachineInt TransitionSystem
set_option autoImplicit false

variable {n : ℕ}

def Global.islandQuery (g : Global n) (check : ℕ → String → String → Bool) (now : ℚ)
    (r : NDRange) : IslandQuery n where
  fits i := check (g.schedulers i).id r.resourceString r.kernel.xmlName
  remainingTime i := i32 ((g.schedulers i).getRemainingTime now)
  wouldNeedReconf i := (g.schedulers i).wouldNeedReconf r.kernel.xmlName
  reconfCost i := g.tracker.getReconfCostOnIsland i r.kernel.xmlName
  wgCost i := g.tracker.getWgCostOnIsland i r.kernel.xmlName

namespace AlgoSimple

def submitPart (o : AlgoSimple n) (now : ℚ) (d : ℕ) (g : Global n) (i : Fin n) :
    Option (Global n) :=
  if o.result i = unsuitableIsland ∨ o.result i = 0 then some g
  else g.carveAndSubmit now d i (toU64 (o.result i)) fun _ =>
    toU64 (i32 (i32 (o.result i * o.currentWorkPotentialCost i) + o.currentWorkReconfCost i))

/-- The loop that carves and submits, and the assertion behind it. -/
def handOut (o : AlgoSimple n) (now : ℚ) (d : ℕ) (g : Global n) : Option (Global n) := do
  let g ← (List.finRange n).foldlM (o.submitPart now d) g
  let ndrange ← g.ndranges d
  if ndrange.hasMoreWgs then none else some g

/-- `route_ndrange` for the ND-range in cell `d`. -/
def routeNdrange (o : AlgoSimple n) (g : Global n) (check : ℕ → String → String → Bool) (now : ℚ)
    (d : ℕ) : Option (AlgoSimple n × Global n) := do
  let ndrange ← g.ndranges d
  let o ← o.search (g.islandQuery check now ndrange) (i32 ndrange.totalSize)
  if LogFits o.result then (o.handOut now d g).map fun g => (o, g) else none

theorem handOut_cases {o : AlgoSimple n} {now : ℚ} {d : ℕ} {g g' : Global n}
    (h : o.handOut now d g = some g') : (List.finRange n).foldlM (o.submitPart now d) g = some g' ∧
      ∃ r, g'.ndranges d = some r ∧ r.hasMoreWgs = false := by
  obtain ⟨g₁, hfold, h⟩ := Option.bind_eq_some_iff.mp h
  obtain ⟨r, hr, h⟩ := Option.bind_eq_some_iff.mp h
  split at h
  · cases h
  · rename_i hdone
    cases h
    exact ⟨hfold, r, hr, Bool.eq_false_of_not_eq_true hdone⟩

theorem handOut_of_done {o : AlgoSimple n} {now : ℚ} {d : ℕ} {g g' : Global n} {r : NDRange}
    (hfold : (List.finRange n).foldlM (o.submitPart now d) g = some g') (hr : g'.ndranges d = some r)
    (hdone : r.hasMoreWgs = false) : o.handOut now d g = some g' := by
  unfold handOut
  rw [hfold, Option.bind_eq_bind, Option.bind_some, hr, Option.bind_eq_bind, Option.bind_some, hdone]
  rfl

theorem routeNdrange_cases {o o' : AlgoSimple n} {g g' : Global n}
    {check : ℕ → String → String → Bool} {now : ℚ} {d : ℕ}
    (h : o.routeNdrange g check now d = some (o', g')) : ∃ r, g.ndranges d = some r ∧
      o.search (g.islandQuery check now r) (i32 r.totalSize) = some o' ∧ LogFits o'.result ∧
      o'.handOut now d g = some g' := by
  obtain ⟨r, hr, h⟩ := Option.bind_eq_some_iff.mp h
  obtain ⟨o₁, hsearch, h⟩ := Option.bind_eq_some_iff.mp h
  split at h
  · rename_i hlog
    obtain ⟨g₁, hout, heq⟩ := Option.map_eq_some_iff.mp h
    cases heq
    exact ⟨r, hr, hsearch, hlog, hout⟩
  · cases h

theorem routeNdrange_eq {o o' : AlgoSimple n} {g g' : Global n} {check : ℕ → String → String → Bool}
    {now : ℚ} {d : ℕ} {r : NDRange} (hr : g.ndranges d = some r)
    (hsearch : o.search (g.islandQuery check now r) (i32 r.totalSize) = some o')
    (hlog : LogFits o'.result) (hout : o'.handOut now d g = some g') :
    o.routeNdrange g check now d = some (o', g') := by
  unfold routeNdrange
  rw [hr, Option.bind_eq_bind, Option.bind_some, hsearch, Option.bind_eq_bind, Option.bind_some,
    if_pos hlog, hout]
  rfl

/-- What a loop of carvings and submissions for `d` leaves alone, and that it counts them. -/
structure Spares (d : ℕ) (g g' : Global n) : Prop where
  cells : ∀ e, e ≠ d → g'.ndranges e = g.ndranges e
  event : ∀ r, g.ndranges d = some r → ∃ r', g'.ndranges d = some r' ∧ r'.event = r.event
  nextCell : g'.nextCell = g.nextCell
  completed : g'.history.completed = g.history.completed
  finished : g'.history.finished = g.history.finished
  counts : g' = g ∨ g.history.carved d < g'.history.carved d

theorem Spares.refl (d : ℕ) (g : Global n) : Spares d g g :=
  ⟨fun _ _ => rfl, fun r hr => ⟨r, hr, rfl⟩, rfl, rfl, rfl, Or.inl rfl⟩

theorem Spares.trans {d : ℕ} {g g' g'' : Global n} (h : Spares d g g') (h' : Spares d g' g'') :
    Spares d g g'' := by
  refine ⟨fun e he => (h'.cells e he).trans (h.cells e he), fun r hr => ?_,
    h'.nextCell.trans h.nextCell, h'.completed.trans h.completed, h'.finished.trans h.finished, ?_⟩
  · obtain ⟨r', hr', he⟩ := h.event r hr
    obtain ⟨r'', hr'', he'⟩ := h'.event r' hr'
    exact ⟨r'', hr'', he'.trans he⟩
  · obtain rfl | hlt := h'.counts
    · exact h.counts
    · obtain rfl | hlt' := h.counts
      · exact Or.inr hlt
      · exact Or.inr (hlt'.trans hlt)

theorem submitPart_spares {o : AlgoSimple n} {now : ℚ} {d : ℕ} {g g' : Global n} {i : Fin n}
    (h : o.submitPart now d g i = some g') : Spares d g g' := by
  unfold submitPart at h
  split at h
  · cases h
    exact Spares.refl d _
  · obtain ⟨r, w, hr, -, hheap, hnext, hcarved, hfin, hcomp, -⟩ := Global.carveAndSubmit_spec h
    refine ⟨fun e he => by rw [hheap, Function.update_of_ne he], fun s hs => ?_, hnext, hcomp, hfin,
      Or.inr ?_⟩
    · obtain rfl := Option.some.inj (hr.symm.trans hs)
      exact ⟨_, by rw [hheap, Function.update_self], NDRange.event_carveWgs _ _ _⟩
    · rw [hcarved, bump, Function.update_self]
      exact Nat.lt_succ_self _

/-- A loop that did something for a fresh ND-range leaves ranges of it in the wild. -/
theorem Spares.wild_pos {d : ℕ} {g g' : Global n} (h : Spares d g g')
    (hfresh : g.history.carved d = g.history.finished d) (hne : g' ≠ g) (hacc : g'.Accounted)
    {r : NDRange} (hr : g'.ndranges d = some r) : 0 < r.wgrsInTheWild := by
  obtain heq | hlt := h.counts
  · exact absurd heq hne
  · have hbook := (hacc.live d r hr).book
    rw [h.finished] at hbook
    omega

theorem foldlM_spares {o : AlgoSimple n} {now : ℚ} {d : ℕ} (l : List (Fin n)) {g g' : Global n}
    (h : l.foldlM (o.submitPart now d) g = some g') : Spares d g g' :=
  Loops.foldlM_invariant (fun _ _ _ _ hi hspares => hspares.trans (submitPart_spares hi)) h
    (Spares.refl d g)

/-! ## The parts of the islands -/

def Serves (o : AlgoSimple n) (i : Fin n) : Prop := ¬ (o.result i = unsuitableIsland ∨ o.result i = 0)

instance (o : AlgoSimple n) (i : Fin n) : Decidable (o.Serves i) :=
  inferInstanceAs (Decidable (¬ (_ ∨ _)))

theorem serves_of_pos {o : AlgoSimple n} {i : Fin n} (hi : 0 < o.result i) : o.Serves i := by
  unfold Serves unsuitableIsland
  omega

/-- The ND-range after the islands `l` have had their parts. -/
def carveParts (o : AlgoSimple n) (d : ℕ) : List (Fin n) → NDRange → NDRange
  | [], r => r
  | i :: l, r =>
    if o.result i = unsuitableIsland ∨ o.result i = 0 then carveParts o d l r
    else carveParts o d l (r.carveWgs d (toU64 (o.result i))).2

/-- Each of the parts takes something, and none wraps the counter of the ND-range. -/
def Carvable (o : AlgoSimple n) (d : ℕ) : List (Fin n) → NDRange → Prop
  | [], _ => True
  | i :: l, r =>
    if o.result i = unsuitableIsland ∨ o.result i = 0 then Carvable o d l r
    else (0 < r.wgsToCarve (toU64 (o.result i)) ∧
      r.nextWgr + r.wgsToCarve (toU64 (o.result i)) < 2 ^ 32) ∧
        Carvable o d l (r.carveWgs d (toU64 (o.result i))).2

section Parts

variable {o : AlgoSimple n} {d : ℕ}

theorem carveParts_skip (l : List (Fin n)) (h : ∀ i ∈ l, ¬ o.Serves i) (r : NDRange) :
    o.carveParts d l r = r ∧ o.Carvable d l r := by
  induction l with
  | nil => exact ⟨rfl, trivial⟩
  | cons i l ih =>
    have hi := not_not.mp (h i List.mem_cons_self)
    rw [carveParts, Carvable, if_pos hi, if_pos hi]
    exact ih fun j hj => h j (List.mem_cons_of_mem i hj)

/-- Only one of the islands is served. -/
theorem carveParts_single (l : List (Fin n)) {i : Fin n} (hmem : i ∈ l) (hl : l.Nodup)
    (hi : o.Serves i) (hrest : ∀ j, j ≠ i → ¬ o.Serves j) (r : NDRange) :
    o.carveParts d l r = (r.carveWgs d (toU64 (o.result i))).2 ∧
      (o.Carvable d l r ↔ 0 < r.wgsToCarve (toU64 (o.result i)) ∧
        r.nextWgr + r.wgsToCarve (toU64 (o.result i)) < 2 ^ 32) := by
  induction l with
  | nil => cases hmem
  | cons j l ih =>
    obtain ⟨hj, hl⟩ := List.nodup_cons.mp hl
    rw [carveParts, Carvable]
    by_cases hji : j = i
    · subst hji
      obtain ⟨heq, hcarve⟩ := carveParts_skip (o := o) (d := d) l (fun k hk => hrest k (by
        rintro rfl
        exact hj hk)) (r.carveWgs d (toU64 (o.result j))).2
      rw [if_neg hi, if_neg hi, heq]
      exact ⟨rfl, and_iff_left hcarve⟩
    · have hskip := not_not.mp (hrest j hji)
      rw [if_pos hskip, if_pos hskip]
      exact ih (List.mem_of_ne_of_mem (Ne.symm hji) hmem) hl

theorem foldlM_carvable (now : ℚ) (l : List (Fin n)) {g : Global n} (hg : g.Accounted) {r : NDRange}
    (hr : g.ndranges d = some r) (h : o.Carvable d l r) :
    ∃ g', l.foldlM (o.submitPart now d) g = some g' ∧ g'.Accounted ∧
      g'.ndranges d = some (o.carveParts d l r) := by
  induction l generalizing g r with
  | nil => exact ⟨g, rfl, hg, hr⟩
  | cons i l ih =>
    rw [Carvable] at h
    rw [List.foldlM_cons, submitPart, carveParts]
    split at h
    · rename_i hskip
      rw [if_pos hskip, if_pos hskip]
      exact ih hg hr h
    · rename_i hserves
      obtain ⟨hroom, h⟩ := h
      rw [if_neg hserves, if_neg hserves]
      obtain ⟨g₁, hg₁⟩ := Option.isSome_iff_exists.mp
        (show (g.carveAndSubmit now d i (toU64 (o.result i)) fun _ => toU64 (i32 (i32 (o.result i *
          o.currentWorkPotentialCost i) + o.currentWorkReconfCost i))).isSome by
            simp [Global.carveAndSubmit, Global.carveWgs, hr])
      have hacc : g₁.Accounted := Global.accounted_carveAndSubmit hg hg₁ fun s hs => by
        obtain rfl : r = s := Option.some.inj (hr.symm.trans hs)
        exact hroom
      obtain ⟨s, w, hs, -, hheap, -⟩ := Global.carveAndSubmit_spec hg₁
      obtain rfl : r = s := Option.some.inj (hr.symm.trans hs)
      rw [hg₁]
      exact ih hacc (by rw [hheap, Function.update_self]) h

end Parts

def part (o : AlgoSimple n) (i : Fin n) : ℤ :=
  if o.result i = unsuitableIsland then 0 else o.result i

/-- When the parts of the remaining islands add up to what the ND-range has left, they carve it
to the end. -/
theorem carvable_of_sum (o : AlgoSimple n) (d N : ℕ) (hN : N < 2 ^ 32) (hpos : ∀ i, 0 ≤ o.part i)
    (l : List (Fin n)) {r : NDRange} (htot : r.totalSize = N)
    (hsum : r.nextWgr + (l.map o.part).sum = N) :
    o.Carvable d l r ∧ (o.carveParts d l r).nextWgr = N ∧ (o.carveParts d l r).totalSize = N := by
  induction l generalizing r with
  | nil =>
    have hnext : r.nextWgr = N := by simpa using hsum
    exact ⟨trivial, hnext, htot⟩
  | cons i l ih =>
    rw [List.map_cons, List.sum_cons] at hsum
    have hrest : 0 ≤ (l.map o.part).sum := List.sum_nonneg (by
      intro x hx
      obtain ⟨j, -, rfl⟩ := List.mem_map.mp hx
      exact hpos j)
    rw [Carvable, carveParts]
    by_cases hskip : o.result i = unsuitableIsland ∨ o.result i = 0
    · have hzero : o.part i = 0 := by
        unfold part
        split <;> simp_all
      rw [if_pos hskip, if_pos hskip]
      exact ih htot (by omega)
    · obtain ⟨hun, hne⟩ := not_or.mp hskip
      have hpart : o.part i = o.result i := if_neg hun
      have hres := hpos i
      rw [hpart] at hres hsum
      obtain ⟨k, hk⟩ := Int.eq_ofNat_of_zero_le hres
      have hreq : toU64 (o.result i) = k := by
        rw [hk]
        exact toU64_natCast (by omega)
      have hcarve : r.wgsToCarve k = k :=
        NDRange.wgsToCarve_of_le (by omega) (by omega) (by omega)
      have hnext : (r.carveWgs d k).2.nextWgr = r.nextWgr + k := by
        unfold NDRange.carveWgs
        rw [hcarve]
        exact u32_of_lt (by omega)
      rw [if_neg hskip, if_neg hskip, hreq, hcarve]
      exact and_assoc.mpr ⟨⟨by omega, by omega⟩, ih htot (by rw [hnext]; push_cast; omega)⟩

theorem part_of_distributes {o : AlgoSimple n} {fits : Fin n → Bool} {W : ℤ}
    (h : Distributes fits W o.result) :
    (∀ i, 0 ≤ o.part i) ∧ ((List.finRange n).map o.part).sum = W := by
  have hpart : ∀ i, o.part i = if fits i = true then o.result i else 0 := by
    intro i
    unfold part
    cases hf : fits i with
    | false => rw [if_pos ((h.unsuitable i).mpr hf)]; rfl
    | true =>
      have hne : o.result i ≠ unsuitableIsland := fun hun => by
        rw [(h.unsuitable i).mp hun] at hf
        cases hf
      rw [if_neg hne]
      rfl
  constructor
  · intro i
    rw [hpart]
    split
    · rename_i hf
      exact h.nonneg i hf
    · exact le_rfl
  · rw [← List.ofFn_eq_map, List.sum_ofFn, Finset.sum_congr rfl fun i _ => hpart i,
      ← Finset.sum_filter, h.total]

/-! ### More work-groups than an `int` holds -/

/-- A negative request is a huge `size_t`, and takes all there is. -/
theorem wgsToCarve_of_neg {r : NDRange} {x : ℤ} (hnext : r.nextWgr = 0)
    (htot : r.totalSize < 2 ^ 32) (hlo : -2 ^ 31 ≤ x) (hneg : x < 0) :
    r.wgsToCarve (toU64 x) = r.totalSize := by
  have hhuge := toU64_of_neg hlo hneg
  have hone := sub32_lt r.totalSize 1
  unfold NDRange.wgsToCarve
  rw [hnext, Nat.zero_add, u64_of_lt (toU64_lt x), if_pos (by omega),
    sub32_of_le (Nat.zero_le _) htot, Nat.sub_zero]

/-- The parts that the search gives of a fresh ND-range can all be carved. They are the whole
ND-range, unless the number of its work-groups reads as the mark of an unsuitable island. -/
theorem search_carvable {o o' : AlgoSimple n} {q : IslandQuery n} (d : ℕ) {r : NDRange}
    (hsearch : o.search q (i32 r.totalSize) = some o') (hnext : r.nextWgr = 0)
    (htot : r.totalSize < 2 ^ 32) : o'.Carvable d (List.finRange n) r ∧
      (r.totalSize ≠ 2 ^ 32 - 13 → (∃ i, q.fits i = true) →
        (o'.carveParts d (List.finRange n) r).nextWgr = r.totalSize ∧
        (o'.carveParts d (List.finRange n) r).totalSize = r.totalSize) := by
  by_cases hfit : ∃ i, q.fits i = true
  swap
  · have hkeeps := search_keeps hsearch
    have hskip : ∀ i ∈ List.finRange n, ¬ o'.Serves i := fun i _ hi =>
      hi (Or.inl (hkeeps.unfit i (Bool.eq_false_of_not_eq_true fun hf => hfit ⟨i, hf⟩)).2)
    exact ⟨(carveParts_skip _ hskip r).2, fun _ h => absurd h hfit⟩
  obtain hsmall | hwide := Nat.lt_or_ge r.totalSize (2 ^ 31)
  · obtain ⟨-, hdist⟩ := search_distributes hsearch hsmall (Or.inr hfit)
    obtain ⟨hpos, hsum⟩ := part_of_distributes hdist
    have hall := carvable_of_sum o' d r.totalSize htot hpos (List.finRange n) rfl
      (by rw [hnext, hsum]; simp)
    exact ⟨hall.1, fun _ _ => hall.2⟩
  obtain ⟨o₁, i, hsearch₁, hi, hrest⟩ := search_wide o q hwide htot hfit
  obtain rfl : o₁ = o' := Option.some.inj (hsearch₁.symm.trans hsearch)
  have hothers : ∀ j, j ≠ i → o₁.result j = unsuitableIsland ∨ o₁.result j = 0 := fun j hj => by
    rw [hrest j hj]
    split
    · exact Or.inr rfl
    · exact Or.inl rfl
  have hneg : i32 (r.totalSize : ℤ) < 0 := i32_wrap (by omega) (by omega)
  have hcarve : r.wgsToCarve (toU64 (o₁.result i)) = r.totalSize := by
    rw [hi]
    exact wgsToCarve_of_neg hnext htot (i32_lower _) hneg
  by_cases hmark : r.totalSize = 2 ^ 32 - 13
  · have hskip : ∀ j ∈ List.finRange n, ¬ o₁.Serves j := by
      intro j _ hj
      obtain rfl | hji := eq_or_ne j i
      · refine hj (Or.inl ?_)
        rw [hi, hmark]
        decide +kernel
      · exact hj (hothers j hji)
    exact ⟨(carveParts_skip _ hskip r).2, fun h => absurd hmark h⟩
  have hserves : o₁.Serves i := by
    unfold Serves unsuitableIsland
    rw [hi]
    unfold i32
    omega
  obtain ⟨heq, hcarvable⟩ := carveParts_single (d := d) (List.finRange n) (List.mem_finRange i)
    (List.nodup_finRange n) hserves (fun j hj => not_not.mpr (hothers j hj)) r
  refine ⟨hcarvable.mpr ?_, fun _ _ => ?_⟩
  · rw [hcarve, hnext]
    omega
  · rw [heq]
    refine ⟨?_, rfl⟩
    unfold NDRange.carveWgs
    rw [hcarve, hnext, Nat.zero_add]
    exact u32_of_lt htot

/-- A fresh ND-range that was searched is carved to the end. -/
theorem handOut_total {o o' : AlgoSimple n} {g : Global n} (hg : g.Accounted) {q : IslandQuery n}
    (now : ℚ) {d : ℕ} {r : NDRange} (hr : g.ndranges d = some r) (hnext : r.nextWgr = 0)
    (htot : r.totalSize < 2 ^ 32) (hmark : r.totalSize ≠ 2 ^ 32 - 13)
    (hsearch : o.search q (i32 r.totalSize) = some o') (hfit : ∃ i, q.fits i = true) :
    ∃ g' r', o'.handOut now d g = some g' ∧ g'.Accounted ∧ g'.ndranges d = some r' ∧
      r'.totalSize = r.totalSize ∧ r'.nextWgr = r.totalSize ∧ Spares d g g' := by
  obtain ⟨hcarvable, hwhole⟩ := search_carvable d hsearch hnext htot
  obtain ⟨hnext', htot'⟩ := hwhole hmark hfit
  obtain ⟨g', hfold, hacc, hr'⟩ := foldlM_carvable now (List.finRange n) hg hr hcarvable
  refine ⟨g', _, handOut_of_done hfold hr' ?_, hacc, hr', htot', hnext', foldlM_spares _ hfold⟩
  simp [NDRange.hasMoreWgs, htot', hnext']

theorem routeNdrange_spares {o o' : AlgoSimple n} {g g' : Global n}
    {check : ℕ → String → String → Bool} {now : ℚ} {d : ℕ}
    (h : o.routeNdrange g check now d = some (o', g')) : Spares d g g' := by
  obtain ⟨r, -, -, -, hout⟩ := routeNdrange_cases h
  exact foldlM_spares _ (handOut_cases hout).1

theorem routeNdrange_accounted {o o' : AlgoSimple n} {g g' : Global n} (hg : g.Accounted)
    {check : ℕ → String → String → Bool} {now : ℚ} {d : ℕ} {r : NDRange} (hr : g.ndranges d = some r)
    (hnext : r.nextWgr = 0) (htot : r.totalSize < 2 ^ 32)
    (h : o.routeNdrange g check now d = some (o', g')) : g'.Accounted := by
  obtain ⟨x, hx, hsearch, -, hout⟩ := routeNdrange_cases h
  obtain rfl : r = x := Option.some.inj (hr.symm.trans hx)
  obtain ⟨g₁, hfold, hacc, -⟩ := foldlM_carvable now (List.finRange n) hg hr
    (search_carvable d hsearch hnext htot).1
  exact Option.some.inj (hfold.symm.trans (handOut_cases hout).1) ▸ hacc

/-! ## What the route does to the schedulers -/

/-- The cost of the range that island `i` gets, as an `int`. -/
def price (o : AlgoSimple n) (i : Fin n) : ℤ :=
  i32 (i32 (o.result i * o.currentWorkPotentialCost i) + o.currentWorkReconfCost i)

theorem submitPart_schedulers {o : AlgoSimple n} {now : ℚ} {d : ℕ} {g g' : Global n} {i : Fin n}
    (hi : o.Serves i) (h : o.submitPart now d g i = some g') :
    ∃ w : WorkGroupRange, w.executionCost = toU64 (o.price i) ∧
      g'.schedulers = Function.update g.schedulers i ((g.schedulers i).enqueue now w) := by
  unfold submitPart at h
  rw [if_neg hi] at h
  obtain ⟨p, hp, rfl⟩ := Option.map_eq_some_iff.mp h
  obtain ⟨r, hr, rfl⟩ := Option.map_eq_some_iff.mp hp
  exact ⟨_, rfl, rfl⟩

/-- The part of an island leaves the others alone. -/
theorem foldlM_schedulers_of_not {o : AlgoSimple n} {now : ℚ} {d : ℕ} {i : Fin n} (l : List (Fin n))
    (hi : i ∈ l → ¬ o.Serves i) {g g' : Global n} (h : l.foldlM (o.submitPart now d) g = some g') :
    g'.schedulers i = g.schedulers i := by
  refine Loops.foldlM_invariant (P := fun t => t.schedulers i = g.schedulers i)
    (fun j hmem g₁ g₂ hpart hsame => ?_) h rfl
  by_cases hj : o.Serves j
  · obtain ⟨w, -, hsched⟩ := submitPart_schedulers hj hpart
    rw [hsched, Function.update_of_ne, hsame]
    rintro rfl
    exact hi hmem hj
  · unfold submitPart at hpart
    rw [if_pos (not_not.mp hj)] at hpart
    rw [← Option.some.inj hpart, hsame]

theorem foldlM_schedulers {o : AlgoSimple n} {now : ℚ} {d : ℕ} {i : Fin n} (hi : o.Serves i)
    {g g' : Global n} (h : (List.finRange n).foldlM (o.submitPart now d) g = some g') :
    ∃ w : WorkGroupRange, w.executionCost = toU64 (o.price i) ∧
      g'.schedulers i = (g.schedulers i).enqueue now w := by
  obtain ⟨l₁, l₂, hl⟩ := List.append_of_mem (List.mem_finRange i)
  have hnd := List.nodup_finRange n
  rw [hl] at hnd h
  obtain ⟨-, hright, hdisj⟩ := List.nodup_append.mp hnd
  rw [List.foldlM_append] at h
  obtain ⟨g₁, h₁, h⟩ := Option.bind_eq_some_iff.mp h
  rw [List.foldlM_cons] at h
  obtain ⟨g₂, h₂, h⟩ := Option.bind_eq_some_iff.mp h
  obtain ⟨w, hcost, hsched⟩ := submitPart_schedulers hi h₂
  refine ⟨w, hcost, ?_⟩
  rw [foldlM_schedulers_of_not l₂ (fun hmem => absurd hmem (List.nodup_cons.mp hright).1) h, hsched,
    Function.update_self, foldlM_schedulers_of_not l₁ (fun hmem => absurd rfl
      (hdisj i hmem i List.mem_cons_self)) h₁]

theorem routeNdrange_schedulers {o o' : AlgoSimple n} {g g' : Global n}
    {check : ℕ → String → String → Bool} {now : ℚ} {d : ℕ}
    (h : o.routeNdrange g check now d = some (o', g')) :
    (∀ i, o'.Serves i → ∃ w : WorkGroupRange, w.executionCost = toU64 (o'.price i) ∧
      g'.schedulers i = (g.schedulers i).enqueue now w) ∧
    (∀ i, ¬ o'.Serves i → g'.schedulers i = g.schedulers i) ∧
    ∀ r, g.ndranges d = some r → Keeps (g.islandQuery check now r) o' := by
  obtain ⟨r, hr, hsearch, -, hout⟩ := routeNdrange_cases h
  obtain ⟨hfold, -⟩ := handOut_cases hout
  refine ⟨fun i hi => foldlM_schedulers hi hfold,
    fun i hi => foldlM_schedulers_of_not _ (fun _ => hi) hfold, fun q hq => ?_⟩
  obtain rfl : r = q := Option.some.inj (hr.symm.trans hq)
  exact search_keeps hsearch

end AlgoSimple

/-! ## The event loop -/

structure SimpleState (n : ℕ) where
  algo : AlgoSimple n
  global : Global n

inductive SimpleLabel (n : ℕ)
  | route (now : ℚ) (kernel : KernelRef) (event : EventRef) (resourceString : String)
      (numWgs : ℕ)
  | fire (now : ℚ) (i : Fin n)

def simpleLoop (n : ℕ) (check : ℕ → String → String → Bool) :
    Machine (SimpleState n) (SimpleLabel n) where
  start s := s.algo = AlgoSimple.new n ∧ ∃ prs bits ends, Global.new prs bits ends = some s.global
  next s
    | .route now kernel event resourceString numWgs => do
      let r ← NDRange.new kernel event resourceString numWgs 1 1
      let (algo, global) ←
        s.algo.routeNdrange (s.global.newNdrange r) check now s.global.nextCell
      return ⟨algo, global⟩
    | .fire now i =>
      if (s.global.schedulers i).timer.isActive then
        (s.global.onTimer now i).map fun fired => ⟨s.algo, fired.1⟩
      else none

/-- Routed ND-ranges have fewer than `2 ^ 31` work-groups and at least one suitable island. -/
def Routable (check : ℕ → String → String → Bool) (s : SimpleState n) : SimpleLabel n → Prop
  | .route _ kernel _ resourceString numWgs => numWgs < 2 ^ 31 ∧
      ∃ i, check (s.global.schedulers i).id resourceString kernel.xmlName = true
  | .fire _ _ => True

instance (check : ℕ → String → String → Bool) (s : SimpleState n) (l : SimpleLabel n) :
    Decidable (Routable check s l) :=
  match l with
  | .route _ _ _ _ _ => inferInstanceAs (Decidable (_ ∧ _))
  | .fire _ _ => inferInstanceAs (Decidable True)

/-- The books balance, and nothing of an ND-range is left to carve. -/
structure CarvedOut (s : SimpleState n) : Prop where
  accounted : s.global.Accounted
  whole : ∀ d r, s.global.ndranges d = some r → r.nextWgr = r.totalSize

theorem route_cases {check : ℕ → String → String → Bool} {s t : SimpleState n} {now : ℚ}
    {kernel : KernelRef} {event : EventRef} {res : String} {numWgs : ℕ}
    (h : (simpleLoop n check).next s (.route now kernel event res numWgs) = some t) :
    ∃ r, NDRange.new kernel event res numWgs 1 1 = some r ∧
      s.algo.routeNdrange (s.global.newNdrange r) check now s.global.nextCell =
        some (t.algo, t.global) := by
  obtain ⟨r, hr, h⟩ := Option.bind_eq_some_iff.mp h
  obtain ⟨⟨o, g⟩, hroute, h⟩ := Option.bind_eq_some_iff.mp h
  cases h
  exact ⟨r, hr, hroute⟩

theorem fire_cases {check : ℕ → String → String → Bool} {s t : SimpleState n} {now : ℚ}
    {i : Fin n} (h : (simpleLoop n check).next s (.fire now i) = some t) :
    t.algo = s.algo ∧ ∃ event, s.global.onTimer now i = some (t.global, event) := by
  simp only [simpleLoop] at h
  split at h
  · obtain ⟨⟨g, event⟩, hfire, rfl⟩ := Option.map_eq_some_iff.mp h
    exact ⟨rfl, event, hfire⟩
  · cases h

theorem carvedOut_start {check : ℕ → String → String → Bool} {s : SimpleState n}
    (h : (simpleLoop n check).start s) : CarvedOut s := by
  obtain ⟨-, prs, bits, ends, hnew⟩ := h
  refine ⟨Global.accounted_new hnew, fun d r hr => ?_⟩
  rw [(Global.new_spec hnew).2.1] at hr
  cases hr

theorem carvedOut_step {check : ℕ → String → String → Bool} {s t : SimpleState n}
    {l : SimpleLabel n} (hs : CarvedOut s) (hl : Routable check s l)
    (h : (simpleLoop n check).next s l = some t) : CarvedOut t := by
  cases l with
  | route now kernel event res numWgs =>
    obtain ⟨hW, hfit⟩ := hl
    obtain ⟨r, hr, hroute⟩ := route_cases h
    obtain ⟨hnext, htot⟩ := NDRange.new_fields (by omega) hr
    have hobj := NDRange.new_eq_some hr
    have hwild : r.wgrsInTheWild = 0 := by rw [hobj]
    have hacc := Global.accounted_newNdrange hs.accounted hnext hwild
    obtain ⟨x, hx, hsearch, -, hout⟩ := AlgoSimple.routeNdrange_cases hroute
    obtain rfl : r = x := Option.some.inj ((Global.newNdrange_self _ _).symm.trans hx)
    obtain ⟨g', r', hout', hacc', hr', htot', hnext', hspares⟩ := AlgoSimple.handOut_total hacc now hx
      hnext (by omega) (by omega) hsearch (by rw [hobj]; exact hfit)
    obtain rfl : g' = t.global := Option.some.inj (hout'.symm.trans hout)
    refine ⟨hacc', fun e q hq => ?_⟩
    by_cases he : e = s.global.nextCell
    · subst he
      obtain rfl : r' = q := Option.some.inj (hr'.symm.trans hq)
      omega
    · rw [hspares.cells e he, Global.newNdrange_of_ne _ _ he] at hq
      exact hs.whole e q hq
  | fire now i =>
    obtain ⟨-, event, hfire⟩ := fire_cases h
    refine ⟨Global.accounted_onTimer hs.accounted hfire, fun e q hq => ?_⟩
    obtain ⟨r, hr, rfl | rfl⟩ := Global.onTimer_cells hfire hq
    · exact hs.whole e q hr
    · exact hs.whole e r hr

/-! ## Completion -/

/-- The law of completion in a state: every ND-range completes at most once, the queued ranges
refer to ND-ranges that exist and count them, and a completion is the step that finishes the last
carved range of a wholly carved ND-range. -/
structure CompletionLaw (check : ℕ → String → String → Bool) (s : SimpleState n) : Prop where
  once : ∀ d, s.global.history.completed d ≤ 1
  counted : ∀ i, ∀ w ∈ s.global.queue i, ∃ d r, w.parentNdrange = some d ∧
    s.global.ndranges d = some r ∧ 0 < r.wgrsInTheWild
  last : ∀ l t, (simpleLoop n check).next s l = some t → ∀ d,
    t.global.history.completed d ≠ s.global.history.completed d →
      ∃ now i w rest r, l = .fire now i ∧ s.global.queue i = w :: rest ∧
        w.parentNdrange = some d ∧ s.global.ndranges d = some r ∧ r.nextWgr = r.totalSize ∧
        t.global.history.finished d = s.global.history.finished d + 1 ∧
        t.global.history.finished d = t.global.history.carved d ∧ t.global.ndranges d = none
  settled : ∀ d, s.global.history.completed d = 1 → s.global.ndranges d = none ∧
    s.global.history.finished d = s.global.history.carved d

theorem completionLaw_of_carvedOut {check : ℕ → String → String → Bool} {s : SimpleState n}
    (hs : CarvedOut s) : CompletionLaw check s := by
  have hcells : ∀ d, s.global.history.completed d ≤ 1 ∧ (s.global.history.completed d = 1 →
      s.global.ndranges d = none ∧
        s.global.history.finished d = s.global.history.carved d) := by
    intro d
    cases hr : s.global.ndranges d with
    | none =>
      have hgone := hs.accounted.gone d hr
      exact ⟨hgone.completed_le, fun _ => ⟨rfl, hgone.book.symm⟩⟩
    | some r =>
      have hopen := (hs.accounted.live d r hr).intact.1
      exact ⟨by omega, fun h => by omega⟩
  refine ⟨fun d => (hcells d).1, fun i w hw => hs.accounted.parent hw, ?_, fun d => (hcells d).2⟩
  intro l t h d hd
  cases l with
  | route now kernel event res numWgs =>
    obtain ⟨r, -, hroute⟩ := route_cases h
    exact absurd (congrFun (AlgoSimple.routeNdrange_spares hroute).completed d) hd
  | fire now i =>
    obtain ⟨-, event, hfire⟩ := fire_cases h
    have hacc := Global.accounted_onTimer hs.accounted hfire
    obtain ⟨w, rest, e, r, hpop, hw, hr, -, -, hcarved, -, hfin, hlast⟩ :=
      Global.onTimer_spec hfire
    obtain ⟨-, -, hheap, hcomp, -⟩ | ⟨-, -, -, hcomp, -⟩ := hlast
    · obtain rfl : d = e := by
        by_contra hne
        rw [hcomp, bump, Function.update_of_ne hne] at hd
        exact hd rfl
      have hgone : t.global.ndranges d = none := by rw [hheap, Function.update_self]
      refine ⟨now, i, w, rest.toList, r, rfl, Global.queue_popFront hpop, hw, hr,
        hs.whole d r hr, ?_, (hacc.gone d hgone).book.symm, hgone⟩
      rw [hfin, bump, Function.update_self]
    · rw [hcomp] at hd
      exact absurd rfl hd

/-- ND-range completion under AlgoSimple, in every run and for every verdict. -/
theorem simple_completion {check : ℕ → String → String → Bool} {s : SimpleState n}
    (h : (simpleLoop n check).ReachableWhere (Routable check) s) : CompletionLaw check s :=
  completionLaw_of_carvedOut
    (h.invariant (fun _ => carvedOut_start) fun _ _ _ hs hl hn => carvedOut_step hs hl hn)

/-- One region, one ND-range of three work-groups, and the timer that completes it. -/
theorem simple_completion_three : ∃ s t : SimpleState 1,
    (simpleLoop 1 checkResourceString).next s (.fire 60 0) = some t ∧
      s.global.history.completed 0 = 0 ∧ t.global.history.completed 0 = 1 ∧
      CompletionLaw checkResourceString s := by
  have hrun : ((Global.new (fun _ : Fin 1 => (0, 1, 1)) (fun _ => none) fun _ => 0).bind fun g =>
      ((simpleLoop 1 checkResourceString).runWhere
        (fun s l => decide (Routable checkResourceString s l)) ⟨AlgoSimple.new 1, g⟩
        [.route 0 default default "" 3]).bind fun s =>
      ((simpleLoop 1 checkResourceString).next s (.fire 60 0)).map fun t =>
        (s.global.history.completed 0, t.global.history.completed 0)) = some (0, 1) := by
    decide +kernel
  obtain ⟨g, hg, hrun⟩ := Option.bind_eq_some_iff.mp hrun
  obtain ⟨s, hs, hrun⟩ := Option.bind_eq_some_iff.mp hrun
  obtain ⟨t, ht, hcounts⟩ := Option.map_eq_some_iff.mp hrun
  have hstart : (simpleLoop 1 checkResourceString).start ⟨AlgoSimple.new 1, g⟩ :=
    ⟨rfl, _, _, _, hg⟩
  have hreach := Machine.ReachableWhere.runWhere (fun _ _ => of_decide_eq_true) (.start hstart) hs
  exact ⟨s, t, ht, congrArg Prod.fst hcounts, congrArg Prod.snd hcounts,
    simple_completion hreach⟩

end FpgaMl
