import Mathlib.Tactic
import FpgaMl.CircArrayDeque
import FpgaMl.SlicingSelection

/-! # What AlgoSlicing accepted

The algorithm on its own: ND-ranges are routed to it, and it is offered any schedulers at any costs.
While an accepted ND-range has work-groups left it is in the ring once, and afterwards it is not. -/
namespace FpgaMl
open MachineInt TransitionSystem
set_option autoImplicit false

/-- The algorithm with the ND-ranges that exist, and those it accepted, which no step reads. -/
structure RoutedState where
  algo : AlgoSlicing
  ndranges : ℕ → Option NDRange
  accepted : ℕ → Bool

inductive RoutedLabel
  | route (d : ℕ) (kernel : KernelRef) (event : EventRef) (resourceString : String)
      (sizeX sizeY sizeZ : ℕ)
  | offer (n : ℕ) (g : Global n) (check : ℕ → String → String → Bool) (now : ℚ)

/-- Each ND-range is routed once, and has a work-group. The schedulers, their list and the costs of
an offer are whatever they are at the time. -/
def routedSystem : Machine RoutedState RoutedLabel where
  start s := (∃ minQuant maxIdleThreshold, s.algo = .new minQuant maxIdleThreshold) ∧
    (∀ d, s.ndranges d = none) ∧ ∀ d, s.accepted d = false
  next s
    | .route d kernel event resourceString sizeX sizeY sizeZ =>
      if s.ndranges d = none then
        ((NDRange.new kernel event resourceString sizeX sizeY sizeZ).filter (0 < ·.totalSize)).map
          fun r =>
            { algo := (s.algo.routeNdrange d).2
              ndranges := Function.update s.ndranges d (some r)
              accepted :=
                if (s.algo.routeNdrange d).1 = .mlSuccess then Function.update s.accepted d true
                else s.accepted }
      else none
    | .offer _ g check now =>
      (s.algo.onFreeSchedulers { g with ndranges := s.ndranges } check now).map fun p =>
        ⟨p.1, p.2.ndranges, s.accepted⟩

/-! ## The invariant -/

/-- The ring holds the accepted ND-ranges with work-groups left, each once. -/
structure RingKeeps (s : RoutedState) : Prop where
  nodup : s.algo.ndranges.toList.Nodup
  mem : ∀ d, d ∈ s.algo.ndranges.toList ↔
    s.accepted d = true ∧ ∃ r, s.ndranges d = some r ∧ r.nextWgr < r.totalSize
  bounds : ∀ d, s.accepted d = true → ∃ r, s.ndranges d = some r ∧ r.totalSize < 2 ^ 32 ∧
    r.nextWgr ≤ r.totalSize

theorem ringKeeps_start {s : RoutedState} (h : routedSystem.start s) : RingKeeps s := by
  obtain ⟨⟨minQuant, maxIdleThreshold, halgo⟩, -, hnone⟩ := h
  have hring : s.algo.ndranges.toList = [] := by
    rw [halgo]
    exact CircArray.toList_new 10
  have hfalse : ∀ d, ¬ s.accepted d = true := fun d => by
    rw [hnone d]
    exact Bool.false_ne_true
  refine ⟨by rw [hring]; exact List.nodup_nil, fun d => ?_, fun d hd => absurd hd (hfalse d)⟩
  rw [hring]
  exact iff_of_false List.not_mem_nil fun h => hfalse d h.1

theorem RingKeeps.route {s : RoutedState} (hs : RingKeeps s) {d : ℕ} (hnew : s.ndranges d = none)
    {r : NDRange} (hlt : r.totalSize < 2 ^ 32) (hnext : r.nextWgr = 0) (hpos : 0 < r.totalSize) :
    RingKeeps ⟨(s.algo.routeNdrange d).2, Function.update s.ndranges d (some r),
      if (s.algo.routeNdrange d).1 = .mlSuccess then Function.update s.accepted d true
      else s.accepted⟩ := by
  have hfresh : ¬ s.accepted d = true := fun hd => by
    obtain ⟨q, hq, -⟩ := hs.bounds d hd
    rw [hnew] at hq
    cases hq
  have hother : ∀ e, s.accepted e = true →
      Function.update s.ndranges d (some r) e = s.ndranges e := fun e he =>
    Function.update_of_ne (fun h : e = d => hfresh (h ▸ he)) _ _
  have hold : ∀ e, (s.accepted e = true ∧ ∃ q, Function.update s.ndranges d (some r) e = some q ∧
      q.nextWgr < q.totalSize) ↔ e ∈ s.algo.ndranges.toList := fun e => by
    rw [hs.mem]
    exact and_congr_right fun he => by rw [hother e he]
  have hbounds : ∀ e, s.accepted e = true → ∃ q, Function.update s.ndranges d (some r) e = some q ∧
      q.totalSize < 2 ^ 32 ∧ q.nextWgr ≤ q.totalSize := fun e he => by
    rw [hother e he]
    exact hs.bounds e he
  unfold AlgoSlicing.routeNdrange
  cases hfull : s.algo.ndranges.isFull with
  | true => exact ⟨hs.nodup, fun e => (hold e).symm, hbounds⟩
  | false =>
    have hpush := CircArray.toList_pushFront s.algo.ndranges d hfull
    have hnot : d ∉ s.algo.ndranges.toList := fun hd => hfresh ((hs.mem d).mp hd).1
    refine ⟨?_, fun e => ?_, fun e he => ?_⟩
    · simp only [Bool.false_eq_true, if_false, hpush]
      exact List.nodup_cons.mpr ⟨hnot, hs.nodup⟩
    · simp only [Bool.false_eq_true, if_false, if_true, hpush, List.mem_cons]
      obtain rfl | hne := eq_or_ne e d
      · simp only [Function.update_self, true_or, true_iff, true_and]
        exact ⟨r, rfl, by omega⟩
      · have haccepted : Function.update s.accepted d true e = s.accepted e :=
          Function.update_of_ne hne _ _
        rw [or_iff_right hne, ← hold e, haccepted]
    · simp only [Bool.false_eq_true, if_false, if_true] at he
      obtain rfl | hne := eq_or_ne e d
      · exact ⟨r, Function.update_self .., hlt, by omega⟩
      · rw [Function.update_of_ne hne] at he
        exact hbounds e he

/-- The ND-range in front is replaced, and goes to the end of the ring exactly if it has more
work-groups. -/
theorem RingKeeps.turn {s : RoutedState} (hs : RingKeeps s) {algo : AlgoSlicing}
    {ndranges : ℕ → Option NDRange} {d : ℕ} {rest : List ℕ} {r : NDRange}
    (hring : s.algo.ndranges.toList = d :: rest)
    (hheap : ndranges = Function.update s.ndranges d (some r))
    (hlist : algo.ndranges.toList = if r.hasMoreWgs then rest ++ [d] else rest)
    (htot : r.totalSize < 2 ^ 32) (hle : r.nextWgr ≤ r.totalSize) :
    RingKeeps ⟨algo, ndranges, s.accepted⟩ := by
  have hnodup := hs.nodup
  rw [hring] at hnodup
  obtain ⟨hnot, hnodup⟩ := List.nodup_cons.mp hnodup
  have hacc : s.accepted d = true := ((hs.mem d).mp (hring ▸ List.mem_cons_self)).1
  have hself : ndranges d = some r := by
    rw [hheap, Function.update_self]
  have hother : ∀ e, e ≠ d → ndranges e = s.ndranges e := fun e he => by
    rw [hheap, Function.update_of_ne he]
  have hrest : ∀ e, e ≠ d → (e ∈ rest ↔ s.accepted e = true ∧
      ∃ q, ndranges e = some q ∧ q.nextWgr < q.totalSize) := fun e he => by
    rw [hother e he, ← hs.mem, hring, List.mem_cons, or_iff_right he]
  refine ⟨?_, fun e => ?_, fun e he => ?_⟩
  · change algo.ndranges.toList.Nodup
    rw [hlist]
    split
    · refine List.nodup_append.mpr ⟨hnodup, List.nodup_singleton d, fun e he f hf => ?_⟩
      rw [List.mem_singleton.mp hf]
      exact ne_of_mem_of_not_mem he hnot
    · exact hnodup
  · change e ∈ algo.ndranges.toList ↔ _
    rw [hlist]
    obtain rfl | hne := eq_or_ne e d
    · have hmore : (s.accepted e = true ∧ ∃ q, ndranges e = some q ∧ q.nextWgr < q.totalSize) ↔
          r.hasMoreWgs = true := by
        rw [and_iff_right hacc, hself, NDRange.hasMoreWgs_iff]
        exact ⟨fun ⟨q, hq, hlt⟩ => Option.some.inj hq ▸ hlt, fun hlt => ⟨_, rfl, hlt⟩⟩
      refine Iff.trans ?_ hmore.symm
      split
      · rename_i hyes
        exact iff_of_true (List.mem_append_right _ (List.mem_singleton_self e)) hyes
      · rename_i hno
        exact iff_of_false hnot hno
    · refine Iff.trans ?_ (hrest e hne)
      split
      · rw [List.mem_append, List.mem_singleton, or_iff_left hne]
      · rfl
  · obtain rfl | hne := eq_or_ne e d
    · exact ⟨r, hself, htot, hle⟩
    · change ∃ q, ndranges e = some q ∧ _
      rw [hother e hne]
      exact hs.bounds e he

theorem RingKeeps.slice {s : RoutedState} (hs : RingKeeps s) {n : ℕ} {g g' : Global n}
    {algo : AlgoSlicing} {now : ℚ} {d : ℕ} {rest : CircArray ℕ} {c : AlgoSlicing.Choice} {r : NDRange}
    (hpop : s.algo.ndranges.popFront = some (d, rest)) (hr : s.ndranges d = some r)
    (hpos : 0 < c.maxWgs) (hsmall : c.maxWgs < 2 ^ 31)
    (h : ({ s.algo with ndranges := rest } : AlgoSlicing).slice { g with ndranges := s.ndranges } now
      d c = some (algo, g')) : RingKeeps ⟨algo, g'.ndranges, s.accepted⟩ := by
  have hring := (CircArray.toList_popFront hpop).1
  obtain ⟨hacc, q, hq, hmore⟩ := (hs.mem d).mp (hring ▸ List.mem_cons_self)
  obtain rfl : r = q := Option.some.inj (hr.symm.trans hq)
  obtain ⟨q, hq, htot, hle⟩ := hs.bounds d hacc
  obtain rfl : r = q := Option.some.inj (hr.symm.trans hq)
  have hk := toU32_of_mem hpos.le (by omega)
  obtain ⟨-, hroom, hwhole⟩ := NDRange.wgsToCarve_slice (k := toU32 c.maxWgs) htot (by omega)
    (by omega) (Or.inl hmore)
  obtain ⟨⟨hidx, hg⟩, -⟩ := AlgoSlicing.slice_spec hr h
  have hlist := AlgoSlicing.slice_ring (g := { g with ndranges := s.ndranges }) hpop hr h
  obtain ⟨q, w, hq, -, hheap, -⟩ := Global.carveAndSubmit_spec hg
  obtain rfl : r = q := Option.some.inj (hr.symm.trans hq)
  have hnext : (r.carveWgs d (toU32 c.maxWgs)).2.nextWgr =
      r.nextWgr + r.wgsToCarve (toU32 c.maxWgs) := u32_of_lt hroom
  refine hs.turn hring hheap hlist htot ?_
  rw [hnext]
  exact hwhole (by omega)

theorem RingKeeps.offer {s : RoutedState} (hs : RingKeeps s) {n : ℕ} {g g' : Global n}
    {check : ℕ → String → String → Bool} {algo : AlgoSlicing} {now : ℚ}
    (h : s.algo.onFreeSchedulers { g with ndranges := s.ndranges } check now = some (algo, g')) :
    RingKeeps ⟨algo, g'.ndranges, s.accepted⟩ := by
  obtain ⟨rfl, rfl⟩ | ⟨d, rest, r, hpop, hr, ⟨rfl, rfl⟩ | ⟨c, hchoose, hslice⟩⟩ :=
    AlgoSlicing.onFreeSchedulers_cases h
  · exact hs
  · have hring := perm_requeue hpop
    exact ⟨hring.nodup_iff.mp hs.nodup, fun e => hring.symm.mem_iff.trans (hs.mem e), hs.bounds⟩
  · obtain ⟨hpos, hsmall⟩ := AlgoSlicing.choose_pos hchoose
    exact hs.slice hpop hr hpos hsmall hslice

theorem ringKeeps {s : RoutedState} (h : routedSystem.Reachable s) : RingKeeps s := by
  apply h.invariant
  · intro s hs
    exact ringKeeps_start hs
  · intro s l t hs hn
    cases l with
    | route d kernel event resourceString x y z =>
      obtain ⟨hnew, hn⟩ := Option.ite_none_right_eq_some.mp hn
      obtain ⟨r, hr, rfl⟩ := Option.map_eq_some_iff.mp hn
      obtain ⟨hr, hpos⟩ := Option.filter_eq_some_iff.mp hr
      have hobj := NDRange.new_eq_some hr
      refine hs.route hnew ?_ ?_ (of_decide_eq_true hpos)
      · rw [hobj]
        exact u32_lt _
      · rw [hobj]
    | offer n g check now =>
      obtain ⟨p, hp, rfl⟩ := Option.map_eq_some_iff.mp hn
      exact hs.offer hp

/-! ## Every run -/

namespace AlgoSlicing

variable {n : ℕ} {g : Global n} {check : ℕ → String → String → Bool} {r : NDRange}

theorem consider_index {quant v : ℕ} {c c' : Choice} (h : consider g check r quant c v = some c')
    (hc : 0 ≤ c.maxWgs → c.schedulerIdx < n) : 0 ≤ c'.maxWgs → c'.schedulerIdx < n := by
  by_cases hout : n ≤ v
  · rw [consider_out_of_range hout] at h
    cases h
  · lift v to Fin n using not_le.mp hout
    rw [consider_eq] at h
    obtain ⟨-, h⟩ | ⟨-, h⟩ := ite_eq_iff.mp h
    · obtain ⟨-, h⟩ := Option.ite_none_left_eq_some.mp h
      obtain rfl := Option.some.inj h
      unfold Choice.improve
      dsimp only
      split
      · exact fun _ => v.isLt
      · exact hc
    · exact Option.some.inj h ▸ hc

theorem choose_index {a : AlgoSlicing} {c : Choice} (h : choose a g check r = some (some c)) :
    c.schedulerIdx < n := by
  obtain ⟨quant, hquant⟩ := choose_eq_some h
  obtain ⟨hpos, hfold⟩ := selectBestScheduler_eq_some hquant
  exact Loops.foldlM_invariant (fun _ _ _ _ => consider_index) hfold (fun h => absurd h (by norm_num)) hpos

theorem choose_isSome (a : AlgoSlicing) (hturns : ∀ v ∈ g.freeScMgr.ids, Turns g check r v) :
    (choose a g check r).isSome = true := by
  have hselect : ∀ quant, ∃ chosen, selectBestScheduler g check r quant = some chosen := fun _ =>
    Option.isSome_iff_exists.mp (selectBestScheduler_isSome_iff.mpr hturns)
  unfold choose
  obtain ⟨chosen, hfirst⟩ := hselect a.minQuant
  obtain ⟨chosen', hsecond⟩ := hselect (u32 (a.minQuant * a.maxIdleThreshold))
  rw [hfirst, Option.bind_eq_bind, Option.bind_some, hsecond]
  split <;> rfl

theorem onFreeSchedulers_isSome {a : AlgoSlicing} (now : ℚ)
    (halive : ∀ d ∈ a.ndranges.toList, (g.ndranges d).isSome = true)
    (hturns : ∀ r, ∀ v ∈ g.freeScMgr.ids, Turns g check r v) :
    (a.onFreeSchedulers g check now).isSome = true := by
  unfold onFreeSchedulers
  cases hempty : a.ndranges.toList with
  | nil =>
    rw [if_pos (Or.inl ((CircArray.empty_iff _).mpr hempty))]
    rfl
  | cons d l =>
    split
    · rfl
    obtain ⟨rest, hpop, -⟩ := CircArray.popFront_cons hempty
    obtain ⟨r, hr⟩ := Option.isSome_iff_exists.mp
      (halive d (by rw [hempty]; exact List.mem_cons_self))
    obtain ⟨chosen, hchosen⟩ := Option.isSome_iff_exists.mp (choose_isSome a (hturns r))
    simp only [hpop, hr, hchosen, Option.bind_eq_bind, Option.bind_some]
    cases chosen with
    | none => rfl
    | some c =>
      dsimp only
      unfold slice Global.carveAndSubmit Global.carveWgs
      rw [dif_pos (choose_index hchosen), hr]
      simp [Global.submitWgr]

end AlgoSlicing

/-- What the ring holds of the accepted ND-ranges, that the pushes of `on_free_schedulers` always
find room, when `route_ndrange` refuses, and that an offer with positive costs is answered. -/
structure AcceptedLaw (s : RoutedState) : Prop where
  once : ∀ d, s.accepted d = true → ∃ r, s.ndranges d = some r ∧ r.nextWgr ≤ r.totalSize ∧
    s.algo.ndranges.toList.count d = if r.nextWgr < r.totalSize then 1 else 0
  room : ∀ d rest, s.algo.ndranges.popFront = some (d, rest) → (rest.pushBack d).1 = .success
  refuses : ∀ d, (s.algo.routeNdrange d).1 = .mlErrorTooManyNdr ↔
    s.algo.ndranges.toList.length = s.algo.ndranges.capacity
  unchanged : ∀ d, (s.algo.routeNdrange d).1 = .mlErrorTooManyNdr →
    (s.algo.routeNdrange d).2 = s.algo
  accepts : ∀ d, (s.algo.routeNdrange d).1 ≠ .mlErrorTooManyNdr →
    (s.algo.routeNdrange d).1 = .mlSuccess ∧
      (s.algo.routeNdrange d).2.ndranges.toList = d :: s.algo.ndranges.toList
  answers : ∀ (n : ℕ) (g : Global n) check now, (∀ v ∈ g.freeScMgr.ids, ∃ h : v < n,
    ∀ kernelName, 1 ≤ g.tracker.getWgCostOnIsland ⟨v, h⟩ kernelName) →
      (s.algo.onFreeSchedulers { g with ndranges := s.ndranges } check now).isSome = true

theorem accepted_ranges_once {s : RoutedState} (h : routedSystem.Reachable s) : AcceptedLaw s := by
  have hs := ringKeeps h
  refine ⟨fun d hd => ?_, fun d rest hpop => ?_, fun d => ?_, fun d hd => ?_, fun d hd => ?_,
    fun n g check now hcosts => ?_⟩
  · obtain ⟨r, hr, -, hle⟩ := hs.bounds d hd
    refine ⟨r, hr, hle, ?_⟩
    have hmem : d ∈ s.algo.ndranges.toList ↔ r.nextWgr < r.totalSize := by
      rw [hs.mem, and_iff_right hd, hr]
      exact ⟨fun ⟨q, hq, hlt⟩ => Option.some.inj hq ▸ hlt, fun hlt => ⟨r, rfl, hlt⟩⟩
    split
    · rename_i hlt
      exact List.count_eq_one_of_mem hs.nodup (hmem.mpr hlt)
    · rename_i hge
      exact List.count_eq_zero_of_not_mem (mt hmem.mp hge)
  · obtain ⟨hl, hcap⟩ := CircArray.toList_popFront hpop
    have hlen := s.algo.ndranges.length_le_capacity
    have hroom : rest.isFull = false := by
      rw [← Bool.not_eq_true, CircArray.isFull_iff, hcap]
      rw [hl, List.length_cons] at hlen
      omega
    exact CircArray.pushBack_code rest d hroom
  · rw [← CircArray.isFull_iff]
    unfold AlgoSlicing.routeNdrange
    split <;> simp_all
  · unfold AlgoSlicing.routeNdrange at hd ⊢
    split
    · rfl
    · rename_i hroom
      rw [if_neg hroom] at hd
      cases hd
  · unfold AlgoSlicing.routeNdrange at hd ⊢
    split
    · rename_i hfull
      rw [if_pos hfull] at hd
      exact absurd rfl hd
    · rename_i hroom
      exact ⟨rfl, CircArray.toList_pushFront _ _ (Bool.eq_false_iff.mpr hroom)⟩
  · refine AlgoSlicing.onFreeSchedulers_isSome now (fun d hd => ?_) fun r v hv => ?_
    · obtain ⟨r, hr, -⟩ := hs.bounds d ((hs.mem d).mp hd).1
      exact Option.isSome_iff_exists.mpr ⟨r, hr⟩
    · obtain ⟨hlt, hcost⟩ := hcosts v hv
      exact ⟨hlt, fun _ => (Global.wgCostAt_pos (hcost _)).ne'⟩

/-- Two ND-ranges were accepted, and the only slice takes all of the second one. -/
theorem accepted_ranges_once_two : ∃ s, AcceptedLaw s ∧ s.accepted 0 = true ∧ s.accepted 1 = true ∧
    s.algo.ndranges.toList = [0] := by
  have hrun : ((Global.new (fun i : Fin 2 => (0, 1, i.val)) (fun _ => some (10, 10))
      fun _ => 0).bind fun g =>
      (routedSystem.run ⟨.new 30 2, fun _ => none, fun _ => false⟩
        [.route 0 default default "" 6 1 1, .route 1 default default "" 2 1 1,
          .offer 2 g checkResourceString 0]).map fun s =>
            decide (s.accepted 0 = true ∧ s.accepted 1 = true ∧ s.algo.ndranges.toList = [0])) =
              some true := by
    decide +kernel
  obtain ⟨g, -, hrun⟩ := Option.bind_eq_some_iff.mp hrun
  obtain ⟨s, hs, hview⟩ := Machine.exists_reachable hrun ⟨⟨30, 2, rfl⟩, fun _ => rfl, fun _ => rfl⟩
  exact ⟨s, accepted_ranges_once hs, of_decide_eq_true hview⟩

end FpgaMl
