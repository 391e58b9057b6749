import Mathlib.Tactic
import Mathlib.Data.Finset.Interval
import FpgaMl.NDRange

/-! Carving a fresh ND-range by a sequence of requests. `Partitions` is the law the carved ranges
are meant to obey. `carve_wgs` hands the range constructor `start_coord + wgs_to_carve` in the
place of a size, so the second range is already too long; and on an empty ND-range the bound
`m_total_size - 1` wraps. `carve_partitions_iff` says on which inputs the law survives. -/
namespace FpgaMl
open MachineInt
set_option autoImplicit false

/-- The work-groups a range names: `size_x` of them from `start_x` on. -/
def WorkGroupRange.interval (w : WorkGroupRange) : Finset ℕ := Finset.Ico w.startX (w.startX + w.sizeX)

/-- The intervals lie one behind the other from 0 on, are pairwise disjoint, stay inside the
range, cover exactly what was asked for and is there, have the sizes they report, and the
ND-range knows whether work is left. -/
structure Partitions (N : ℕ) (reqs : List ℕ) (ws : List WorkGroupRange) (d : NDRange) : Prop where
  first : ∀ w ∈ ws.head?, w.startX = 0
  consecutive : ws.IsChain fun v w => w.startX = v.startX + v.sizeX
  disjoint : ws.Pairwise fun v w => Disjoint v.interval w.interval
  inside : ∀ w ∈ ws, w.interval ⊆ Finset.range N
  cover : ∀ x, (∃ w ∈ ws, x ∈ w.interval) ↔ x < min N reqs.sum
  sizes : ∀ w ∈ ws, w.getTotalSize = w.interval.card
  more : d.hasMoreWgs = true ↔ reqs.sum < N

namespace NDRange

/-! ## The first request of a non-empty ND-range -/

theorem first_wgsToCarve {d : NDRange} {N r : ℕ} (hN : N < 2 ^ 32) (hpos : 0 < N)
    (hnext : d.nextWgr = 0) (htot : d.totalSize = N) (hr : r < 2 ^ 64) :
    d.wgsToCarve r = min r N := by
  unfold wgsToCarve
  rw [hnext, htot, Nat.zero_add, u64_of_lt hr, sub32_of_le hpos hN, sub32_of_le (Nat.zero_le N) hN]
  split
  · omega
  · rw [u32_of_lt (by omega)]
    omega

/-- The second request gets a range whose recorded size is the end coordinate: either the end
of what is left or asked for, or, when the `size_t` sum wraps, a point before its own start. -/
theorem second_end {d : NDRange} {N s r : ℕ} (hN : N < 2 ^ 32) (hs : 0 < s) (hsN : s ≤ N)
    (hnext : d.nextWgr = s) (htot : d.totalSize = N) (hr : r < 2 ^ 64) :
    (s + r < 2 ^ 64 ∧ u32 (s + d.wgsToCarve r) = min N (s + r)) ∨
      (2 ^ 64 ≤ s + r ∧ u32 (s + d.wgsToCarve r) < s) := by
  unfold wgsToCarve
  rw [hnext, htot, sub32_of_le (by omega) hN, sub32_of_le hsN hN]
  by_cases hwrap : s + r < 2 ^ 64
  · left
    refine ⟨hwrap, ?_⟩
    rw [u64_of_lt hwrap]
    split
    · rw [u32_of_lt (by omega)]
      omega
    · rw [u32_of_lt (show r < 2 ^ 32 by omega), u32_of_lt (by omega)]
      omega
  · right
    refine ⟨by omega, ?_⟩
    unfold u32 u64
    split <;> omega

/-! ## The empty ND-range -/

/-- On an empty ND-range a request below `2 ^ 32` is granted whole. -/
theorem empty_wgsToCarve {d : NDRange} {r : ℕ} (hnext : d.nextWgr = 0) (htot : d.totalSize = 0)
    (hr : r < 2 ^ 64) : d.wgsToCarve r = if r < 2 ^ 32 then r else 0 := by
  have hlast : sub32 0 1 = 2 ^ 32 - 1 := sub32_of_lt (by omega) (by omega)
  have hrest : sub32 0 0 = 0 := sub32_of_le le_rfl (by omega)
  unfold wgsToCarve
  rw [hnext, htot, Nat.zero_add, u64_of_lt hr, hlast, hrest]
  by_cases h : r < 2 ^ 32
  · rw [if_neg (by omega), if_pos h, u32_of_lt h]
  · rw [if_pos (by omega), if_neg h]

theorem empty_carve_big {d : NDRange} {r : ℕ} (self : ℕ) (hnext : d.nextWgr = 0) (htot : d.totalSize = 0)
    (hr : r < 2 ^ 64) (hbig : 2 ^ 32 ≤ r) :
    (d.carveWgs self r).1 = .new self 0 0 0 1 0 1 ∧ (d.carveWgs self r).2.nextWgr = 0 := by
  have hw : d.wgsToCarve r = 0 := by
    rw [empty_wgsToCarve hnext htot hr, if_neg (by omega)]
  have h0 : u32 (0 + 0) = 0 := u32_of_lt (by omega)
  unfold carveWgs
  rw [hnext, hw, h0]
  exact ⟨rfl, rfl⟩

theorem empty_carveAll {d : NDRange} {reqs : List ℕ} (self : ℕ) (hnext : d.nextWgr = 0)
    (htot : d.totalSize = 0) (hr : ∀ r ∈ reqs, r < 2 ^ 64) (hbig : ∀ r ∈ reqs, 2 ^ 32 ≤ r) :
    (∀ w ∈ (d.carveAll self reqs).1, w = .new self 0 0 0 1 0 1) ∧
      (d.carveAll self reqs).2.nextWgr = 0 ∧ (d.carveAll self reqs).2.totalSize = 0 := by
  induction reqs generalizing d with
  | nil => exact ⟨by simp [carveAll], hnext, htot⟩
  | cons r rs ih =>
    obtain ⟨hw, hn⟩ := empty_carve_big self hnext htot (hr r (by simp)) (hbig r (by simp))
    obtain ⟨hws, hn', ht'⟩ := ih (d := (d.carveWgs self r).2) hn htot
      (fun x hx => hr x (by simp [hx])) (fun x hx => hbig x (by simp [hx]))
    refine ⟨?_, hn', ht'⟩
    intro w hmem
    simp only [carveAll, List.mem_cons] at hmem
    obtain rfl | hmem := hmem
    · exact hw
    · exact hws w hmem

theorem empty_inside {d : NDRange} {self : ℕ} {reqs : List ℕ} (hnext : d.nextWgr = 0)
    (htot : d.totalSize = 0) (hr : ∀ r ∈ reqs, 0 < r ∧ r < 2 ^ 64)
    (hin : ∀ w ∈ (d.carveAll self reqs).1, w.interval ⊆ Finset.range 0) :
    ∀ r ∈ reqs, 2 ^ 32 ≤ r := by
  induction reqs generalizing d with
  | nil => simp
  | cons r rs ih =>
    obtain ⟨hpos, hlt⟩ := hr r (by simp)
    have hbig : 2 ^ 32 ≤ r := by
      by_contra hsmall
      have hw := hin (d.carveWgs self r).1 (by simp [carveAll])
      have hend : u32 (0 + d.wgsToCarve r) = r := by
        rw [empty_wgsToCarve hnext htot hlt, if_pos (by omega), Nat.zero_add, u32_of_lt (by omega)]
      have h0 : 0 ∈ (d.carveWgs self r).1.interval := by
        unfold carveWgs WorkGroupRange.interval
        rw [hnext, hend, Finset.mem_Ico]
        exact ⟨le_rfl, by simpa [WorkGroupRange.new] using hpos⟩
      simpa using hw h0
    obtain ⟨-, hn⟩ := empty_carve_big self hnext htot hlt hbig
    intro x hx
    obtain rfl | hx := List.mem_cons.mp hx
    · exact hbig
    · refine ih (d := (d.carveWgs self r).2) hn htot (fun y hy => hr y (by simp [hy])) ?_ x hx
      intro w hw
      exact hin w (by simp [carveAll, hw])

end NDRange

/-! ## When the law holds -/

theorem partitions_empty {d : NDRange} {self : ℕ} {reqs : List ℕ} (hnext : d.nextWgr = 0)
    (htot : d.totalSize = 0) (hr : ∀ r ∈ reqs, r < 2 ^ 64) (hbig : ∀ r ∈ reqs, 2 ^ 32 ≤ r) :
    Partitions 0 reqs (d.carveAll self reqs).1 (d.carveAll self reqs).2 := by
  obtain ⟨hws, hn, ht⟩ := NDRange.empty_carveAll self hnext htot hr hbig
  have hempty : ∀ w ∈ (d.carveAll self reqs).1, w.interval = ∅ := by
    intro w hw
    rw [hws w hw]
    rfl
  have hpair : ∀ {R : WorkGroupRange → WorkGroupRange → Prop},
      (∀ v ∈ (d.carveAll self reqs).1, ∀ w ∈ (d.carveAll self reqs).1, R v w) →
      (d.carveAll self reqs).1.Pairwise R := fun h => List.pairwise_of_forall_mem_list h
  refine ⟨?_, ?_, ?_, ?_, ?_, ?_, ?_⟩
  · intro w hw
    rw [hws w (List.mem_of_mem_head? hw)]
    rfl
  · refine (hpair fun v hv w hw => ?_).isChain
    rw [hws v hv, hws w hw]
    rfl
  · apply hpair
    intro v hv w _
    rw [hempty v hv]
    exact Finset.disjoint_empty_left _
  · intro w hw
    rw [hempty w hw]
    exact Finset.empty_subset _
  · intro x
    refine ⟨?_, fun h => absurd h (by simp)⟩
    rintro ⟨w, hw, hx⟩
    rw [hempty w hw] at hx
    cases hx
  · intro w hw
    rw [hempty w hw, hws w hw]
    exact u32_of_lt (by omega)
  · simp [NDRange.hasMoreWgs, ht]

theorem partitions_nil {d : NDRange} {N self : ℕ} (hnext : d.nextWgr = 0) (htot : d.totalSize = N) :
    Partitions N [] (d.carveAll self []).1 (d.carveAll self []).2 := by
  refine ⟨by simp [NDRange.carveAll], by simp [NDRange.carveAll], by simp [NDRange.carveAll],
    by simp [NDRange.carveAll], by simp [NDRange.carveAll], by simp [NDRange.carveAll], ?_⟩
  simp [NDRange.hasMoreWgs, NDRange.carveAll, hnext, htot]

theorem partitions_single {d : NDRange} {N self r : ℕ} (hN : N < 2 ^ 32) (hpos : 0 < N)
    (hnext : d.nextWgr = 0) (htot : d.totalSize = N) (hr : r < 2 ^ 64) :
    Partitions N [r] (d.carveAll self [r]).1 (d.carveAll self [r]).2 := by
  have hw := NDRange.first_wgsToCarve hN hpos hnext htot hr
  have hend : u32 (min r N) = min r N := u32_of_lt (by omega)
  have hws : (d.carveAll self [r]).1 = [.new self 0 (min r N) 0 1 0 1] := by
    simp [NDRange.carveAll, NDRange.carveWgs, hnext, hw, hend]
  have hnext' : (d.carveAll self [r]).2.nextWgr = min r N := by
    simp [NDRange.carveAll, NDRange.carveWgs, hnext, hw, hend]
  have htot' : (d.carveAll self [r]).2.totalSize = N := htot
  have hint : (WorkGroupRange.new self 0 (min r N) 0 1 0 1).interval = Finset.range (min r N) := by
    rw [WorkGroupRange.interval, Finset.range_eq_Ico]
    simp [WorkGroupRange.new]
  rw [hws]
  refine ⟨by simp [WorkGroupRange.new], by simp, by simp, ?_, ?_, ?_, ?_⟩
  · intro w hw
    rw [List.mem_singleton.mp hw, hint]
    exact Finset.range_subset_range.mpr (min_le_right r N)
  · intro x
    simp only [List.mem_singleton, exists_eq_left, hint, List.sum_singleton, min_comm N r,
      Finset.mem_range]
  · intro w hw
    rw [List.mem_singleton.mp hw, hint, Finset.card_range]
    simpa [WorkGroupRange.getTotalSize, WorkGroupRange.new] using hend
  · rw [NDRange.hasMoreWgs, hnext', htot']
    simp

theorem not_partitions_two {d : NDRange} {N self r₁ r₂ : ℕ} {rs : List ℕ} (hN : N < 2 ^ 32)
    (hpos : 0 < N) (hnext : d.nextWgr = 0) (htot : d.totalSize = N) (h₁ : 0 < r₁ ∧ r₁ < 2 ^ 64)
    (h₂ : 0 < r₂ ∧ r₂ < 2 ^ 64) :
    ¬ Partitions N (r₁ :: r₂ :: rs) (d.carveAll self (r₁ :: r₂ :: rs)).1
      (d.carveAll self (r₁ :: r₂ :: rs)).2 := by
  intro h
  set s := min r₁ N with hs
  set d₁ := (d.carveWgs self r₁).2 with hd₁
  have hend₁ : u32 s = s := u32_of_lt (by omega)
  have hnext₁ : d₁.nextWgr = s := by
    simp [hd₁, NDRange.carveWgs, hnext, NDRange.first_wgsToCarve hN hpos hnext htot h₁.2, ← hs,
      hend₁]
  have htot₁ : d₁.totalSize = N := htot
  set e := u32 (s + d₁.wgsToCarve r₂) with he
  have hstart : (d₁.carveWgs self r₂).1.startX = s := hnext₁
  have hsize : (d₁.carveWgs self r₂).1.sizeX = e := by
    simp [NDRange.carveWgs, WorkGroupRange.new, hnext₁, he]
  have hnext₂ : (d₁.carveWgs self r₂).2.nextWgr = e := by
    simp [NDRange.carveWgs, hnext₁, he]
  cases rs with
  | cons r₃ rs =>
    -- the third range starts at the second's recorded size, not behind its interval
    have hc := h.consecutive
    simp only [NDRange.carveAll, List.isChain_cons_cons] at hc
    have h3 := hc.2.1
    rw [← hd₁, hstart, hsize] at h3
    have h3' : ((d₁.carveWgs self r₂).2.carveWgs self r₃).1.startX = e := hnext₂
    rw [h3'] at h3
    omega
  | nil =>
    obtain ⟨-, hmin⟩ | ⟨hwrap, hback⟩ :=
      NDRange.second_end hN (by omega : 0 < s) (by omega) hnext₁ htot₁ h₂.2
    · -- the last work-group of the too long interval lies beyond what was asked for
      have hx : s + e - 1 < min N (r₁ :: r₂ :: ([] : List ℕ)).sum := by
        refine (h.cover _).mp ⟨(d₁.carveWgs self r₂).1, by simp [NDRange.carveAll, hd₁], ?_⟩
        rw [WorkGroupRange.interval, hstart, hsize, Finset.mem_Ico]
        omega
      simp only [List.sum_cons, List.sum_nil] at hx
      omega
    · have hmore := h.more
      have hfin : (d.carveAll self [r₁, r₂]).2 = (d₁.carveWgs self r₂).2 := rfl
      rw [hfin, NDRange.hasMoreWgs, hnext₂, NDRange.totalSize_carveWgs, htot₁] at hmore
      simp only [List.sum_cons, List.sum_nil, decide_eq_true_eq] at hmore
      omega

/-- The carved ranges of a fresh ND-range of `N` work-groups partition it exactly when the
ND-range is not empty and carved at most once, or is empty and every request exceeds the
32-bit range. -/
theorem carve_partitions_iff {k : KernelRef} {e : EventRef} {res : String} {N self : ℕ} {d : NDRange}
    {reqs : List ℕ} (hN : N < 2 ^ 32) (hd : NDRange.new k e res N 1 1 = some d)
    (hr : ∀ r ∈ reqs, 0 < r ∧ r < 2 ^ 64) :
    Partitions N reqs (d.carveAll self reqs).1 (d.carveAll self reqs).2 ↔
      (0 < N ∧ reqs.length ≤ 1) ∨ (N = 0 ∧ ∀ r ∈ reqs, 2 ^ 32 ≤ r) := by
  obtain ⟨hnext, htot⟩ := NDRange.new_fields hN hd
  obtain rfl | hpos := Nat.eq_zero_or_pos N
  · simp only [lt_irrefl, false_and, true_and, false_or]
    refine ⟨fun h => NDRange.empty_inside hnext htot hr h.inside, fun h => ?_⟩
    exact partitions_empty hnext htot (fun r hm => (hr r hm).2) h
  · simp only [hpos, true_and, hpos.ne', false_and, or_false]
    match reqs, hr with
    | [], _ => simpa using partitions_nil hnext htot
    | [r], hr => simpa using partitions_single hN hpos hnext htot (hr r (by simp)).2
    | r₁ :: r₂ :: rs, hr =>
      refine ⟨fun h => absurd h ?_, fun h => by simp at h⟩
      exact not_partitions_two hN hpos hnext htot (hr r₁ (by simp)) (hr r₂ (by simp))

theorem carve_partitions_iff_sixty : ∃ d, NDRange.new default default "" 60 1 1 = some d ∧
    Partitions 60 [19] (d.carveAll 0 [19]).1 (d.carveAll 0 [19]).2 := by
  obtain ⟨d, hd⟩ := Option.isSome_iff_exists.mp
    (show (NDRange.new default default "" 60 1 1).isSome = true from rfl)
  refine ⟨d, hd, (carve_partitions_iff (by norm_num) hd ?_).mpr (Or.inl ⟨by norm_num, by simp⟩)⟩
  simp

/-- The requests of the repository's carving test: 19 work-groups, then 10 more. -/
theorem carve_nineteen_ten : ∃ d, NDRange.new default default "" 60 1 1 = some d ∧
    ¬ Partitions 60 [19, 10] (d.carveAll 0 [19, 10]).1 (d.carveAll 0 [19, 10]).2 := by
  obtain ⟨d, hd⟩ := Option.isSome_iff_exists.mp
    (show (NDRange.new default default "" 60 1 1).isSome = true from rfl)
  obtain ⟨hnext, htot⟩ := NDRange.new_fields (by norm_num) hd
  exact ⟨d, hd, not_partitions_two (by norm_num) (by norm_num) hnext htot (by norm_num)
    (by norm_num)⟩

end FpgaMl
