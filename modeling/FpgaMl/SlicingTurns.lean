import Mathlib.Tactic
import FpgaMl.Foundation.Rotation
import FpgaMl.AcceptedRanges

/-! # Turns of AlgoSlicing

An ND-range comes to the front of the ring when it is accepted, and the one in front has the next turn.
A turn takes work-groups out of it if a scheduler affords one, and it goes to the end while there are
more. So nobody waits for more turns than there are others in front of him and later arrivals, which
may go on coming, and every turn that a scheduler can use brings the end of all work nearer. -/
namespace FpgaMl
open MachineInt TransitionSystem FirstBest
set_option autoImplicit false

namespace RoutedState

def ring (s : RoutedState) : List ℕ := s.algo.ndranges.toList

/-- The offer considers the first ND-range. -/
def turns (s : RoutedState) : RoutedLabel → ℕ
  | .route .. => 0
  | .offer _ g _ _ => if s.algo.ndranges.empty ∨ g.freeScMgr.freeSchedulers.empty then 0 else 1

/-- The call accepts an ND-range. -/
def arrivals (s : RoutedState) : RoutedLabel → ℕ
  | .route d _ _ _ _ _ _ => if (s.algo.routeNdrange d).1 = .mlSuccess then 1 else 0
  | .offer .. => 0

/-- The work-groups that are not carved. -/
def left (s : RoutedState) (d : ℕ) : ℕ := (s.ndranges d).elim 0 fun r => r.totalSize - r.nextWgr

def work (s : RoutedState) : ℕ := (s.ring.map s.left).sum

/-- The work-groups that the call accepts. -/
def brought (s : RoutedState) : RoutedLabel → ℕ
  | .route d kernel event resourceString sizeX sizeY sizeZ =>
    if (s.algo.routeNdrange d).1 = .mlSuccess then
      (NDRange.new kernel event resourceString sizeX sizeY sizeZ).elim 0 NDRange.totalSize
    else 0
  | .offer .. => 0

/-- A scheduler of the list affords a work-group of the first ND-range, in one of the two attempts. -/
def Fits {n : ℕ} (s : RoutedState) (g : Global n) (check : ℕ → String → String → Bool) : Prop :=
  ∃ d ∈ s.ring.head?, ∃ r ∈ s.ndranges d, g.CostsWithin r.kernel.xmlName s.algo.minQuant ∧
    ∃ i : Fin n, i.val ∈ g.freeScMgr.ids ∧ (g.Affords check r s.algo.minQuant i ∨
      s.algo.maxIdleThreshold ≠ 0 ∧
        g.Affords check r (s.algo.minQuant * s.algo.maxIdleThreshold) i)

instance {n : ℕ} (g : Global n) (kernelName : String) (quant : ℕ) :
    Decidable (g.CostsWithin kernelName quant) := inferInstanceAs (Decidable (∀ _, _ → _ ∧ _))

instance {n : ℕ} (s : RoutedState) (g : Global n) (check : ℕ → String → String → Bool) :
    Decidable (s.Fits g check) := inferInstanceAs (Decidable (∃ _ ∈ _, ∃ _ ∈ _, _ ∧ _))

/-- The offer is one that a scheduler can use. -/
def takes (s : RoutedState) : RoutedLabel → ℕ
  | .route .. => 0
  | .offer _ g check _ => if s.Fits g check then 1 else 0

end RoutedState

/-! ## What is chosen -/

namespace AlgoSlicing

variable {n : ℕ} {g g' : Global n} {check : ℕ → String → String → Bool} {r : NDRange}
  {a b : AlgoSlicing}
  {now : ℚ} {quant : ℕ}

/-- A turn, with the answer of the selection that it follows. -/
theorem onFreeSchedulers_turn (h : a.onFreeSchedulers g check now = some (b, g')) :
    ((a.ndranges.empty ∨ g.freeScMgr.freeSchedulers.empty) ∧ b = a ∧ g' = g) ∨
    ¬ (a.ndranges.empty ∨ g.freeScMgr.freeSchedulers.empty) ∧ ∃ d rest r,
      a.ndranges.popFront = some (d, rest) ∧ g.ndranges d = some r ∧
        ((choose a g check r = some none ∧ b = { a with ndranges := (rest.pushBack d).2 } ∧ g' = g) ∨
          ∃ c, choose a g check r = some (some c) ∧
            ({ a with ndranges := rest } : AlgoSlicing).slice g now d c = some (b, g')) := by
  unfold onFreeSchedulers at h
  split at h
  · rename_i hnone
    obtain ⟨rfl, rfl⟩ := Prod.mk.inj (Option.some.inj h)
    exact Or.inl ⟨hnone, rfl, rfl⟩
  · rename_i hturn
    obtain ⟨⟨d, rest⟩, hpop, h⟩ := Option.bind_eq_some_iff.mp h
    obtain ⟨r, hr, h⟩ := Option.bind_eq_some_iff.mp h
    obtain ⟨chosen, hchoose, h⟩ := Option.bind_eq_some_iff.mp h
    refine Or.inr ⟨hturn, d, rest, r, hpop, hr, ?_⟩
    cases chosen with
    | some c => exact Or.inr ⟨c, hchoose, h⟩
    | none =>
      simp only [pure, Option.some.injEq, Prod.mk.injEq] at h
      exact Or.inl ⟨hchoose, h.1.symm, h.2.symm⟩

/-- A selection that comes to its end has met positions of schedulers only. -/
theorem ids_of_select {chosen : Option Choice} (h : selectBestScheduler g check r quant = some chosen) :
    ∃ l : List (Fin n), g.freeScMgr.ids = l.map Fin.val := by
  have hturns : ∀ v ∈ g.freeScMgr.ids, v < n := fun v hv =>
    (selectBestScheduler_isSome_iff.mp (Option.isSome_iff_exists.mpr ⟨chosen, h⟩) v hv).1
  generalize g.freeScMgr.ids = ids at hturns
  lift ids to List (Fin n) using hturns
  exact ⟨ids, rfl⟩

/-- What affords a work-group is selected, or something else is. -/
theorem select_of_affords {chosen : Option Choice} (hquant : quant < 2 ^ 31)
    (hcosts : g.CostsWithin r.kernel.xmlName quant) {i : Fin n} (hi : i.val ∈ g.freeScMgr.ids)
    (hfits : g.Affords check r quant i) (h : selectBestScheduler g check r quant = some chosen) :
    chosen ≠ none := by
  obtain ⟨l, hids⟩ := ids_of_select h
  rw [selectBestScheduler_scan hquant hcosts hids] at h
  obtain ⟨-, hnone⟩ | ⟨j, hscan, -⟩ :=
    scan_spec (g.Affords check r quant) (g.rank r.kernel.xmlName quant) l
  · rw [hids, List.mem_map_of_injective Fin.val_injective] at hi
    exact absurd hfits (hnone i hi)
  · rw [← Option.some.inj h, hscan]
    exact Option.some_ne_none _

theorem choose_of_affords (hquant : a.minQuant < 2 ^ 31)
    (hlarger : a.minQuant * a.maxIdleThreshold < 2 ^ 31)
    (hcosts : g.CostsWithin r.kernel.xmlName a.minQuant) {i : Fin n} (hi : i.val ∈ g.freeScMgr.ids)
    (hfits : g.Affords check r a.minQuant i ∨ a.maxIdleThreshold ≠ 0 ∧
      g.Affords check r (a.minQuant * a.maxIdleThreshold) i) :
    choose a g check r ≠ some none := by
  intro h
  obtain ⟨chosen, hfirst, h⟩ := Option.bind_eq_some_iff.mp h
  split at h
  · rename_i hretry
    obtain ⟨hnone, hthreshold⟩ := hretry
    rw [Option.isNone_iff_eq_none] at hnone
    have hle : a.minQuant ≤ a.minQuant * a.maxIdleThreshold :=
      Nat.le_mul_of_pos_right _ (Nat.pos_of_ne_zero hthreshold)
    rw [u32_of_lt (by omega)] at h
    obtain hfits | ⟨-, hfits⟩ := hfits
    · exact select_of_affords hquant hcosts hi hfits hfirst hnone
    · exact select_of_affords hlarger (fun j hj => ⟨(hcosts j hj).1, (hcosts j hj).2.trans hle⟩) hi
        hfits h rfl
  · rename_i hretry
    cases h
    obtain hfits | ⟨hthreshold, -⟩ := hfits
    · exact select_of_affords hquant hcosts hi hfits hfirst rfl
    · exact hretry ⟨rfl, hthreshold⟩

end AlgoSlicing

/-! ## Steps -/

namespace RoutedState

variable {s t : RoutedState} {l : RoutedLabel} {d : ℕ}

theorem work_congr {k : List ℕ} (h : ∀ e ∈ k, t.left e = s.left e) :
    (k.map t.left).sum = (k.map s.left).sum := by
  rw [List.map_congr_left h]

/-- `route_ndrange`, with the new ND-range. -/
theorem route_step (hs : RingKeeps s) {kernel : KernelRef} {event : EventRef} {res : String}
    {x y z : ℕ} (hn : routedSystem.next s (.route d kernel event res x y z) = some t) :
    Rotates ring turns arrivals s (.route d kernel event res x y z) t ∧
      t.work ≤ s.work + s.brought (.route d kernel event res x y z) := by
  obtain ⟨hnew, hn⟩ := Option.ite_none_right_eq_some.mp hn
  obtain ⟨r, hr, rfl⟩ := Option.map_eq_some_iff.mp hn
  obtain ⟨hr, -⟩ := Option.filter_eq_some_iff.mp hr
  have hold : ∀ e ∈ s.ring, e ≠ d := by
    rintro e he rfl
    obtain ⟨-, q, hq, -⟩ := (hs.mem e).mp he
    rw [hnew] at hq
    cases hq
  have hleft : ∀ algo accepted, ∀ e ∈ s.ring,
      left ⟨algo, Function.update s.ndranges d (some r), accepted⟩ e = s.left e := by
    intro algo accepted e he
    unfold left
    dsimp only
    rw [Function.update_of_ne (hold e he)]
  cases hfull : s.algo.ndranges.isFull with
  | true =>
    have hroute : s.algo.routeNdrange d = (.mlErrorTooManyNdr, s.algo) := by
      unfold AlgoSlicing.routeNdrange
      rw [hfull, if_pos rfl]
    refine ⟨.neither rfl ?_ ?_, ?_⟩
    · simp [arrivals, hroute]
    · simp only [ring, hroute]
    · refine le_of_eq_of_le ?_ (Nat.le_add_right _ _)
      unfold work ring
      simp only [hroute]
      exact work_congr (hleft _ _)
  | false =>
    have hroute : s.algo.routeNdrange d =
        (.mlSuccess, { s.algo with ndranges := (s.algo.ndranges.pushFront d).2 }) := by
      unfold AlgoSlicing.routeNdrange
      rw [hfull, if_neg Bool.false_ne_true]
    have hpush : (s.algo.ndranges.pushFront d).2.toList = d :: s.ring :=
      CircArray.toList_pushFront s.algo.ndranges d hfull
    refine ⟨.arrival d rfl ?_ ?_, ?_⟩
    · simp [arrivals, hroute]
    · simp only [ring, hroute]
      exact hpush
    · have hbrought : s.brought (.route d kernel event res x y z) = r.totalSize := by
        simp [brought, hroute, hr]
      rw [hbrought]
      unfold work ring
      simp only [hroute]
      rw [hpush, List.map_cons, List.sum_cons, work_congr (hleft _ _)]
      have hself : ∀ algo accepted,
          left ⟨algo, Function.update s.ndranges d (some r), accepted⟩ d ≤ r.totalSize := by
        intro algo accepted
        unfold left
        dsimp only
        rw [Function.update_self]
        exact Nat.sub_le _ _
      rw [Nat.add_comm]
      exact Nat.add_le_add_left (hself _ _) _

theorem not_fits_of_none {n : ℕ} {g : Global n} {check : ℕ → String → String → Bool}
    (h : s.algo.ndranges.empty ∨ g.freeScMgr.freeSchedulers.empty) : ¬ s.Fits g check := by
  rintro ⟨d, hd, r, -, -, i, hi, -⟩
  obtain h | h := h
  · unfold ring at hd
    rw [(CircArray.empty_iff _).mp h] at hd
    cases hd
  · unfold FreeSchedulersManager.ids at hi
    rw [(CircArray.empty_iff _).mp h] at hi
    cases hi

/-- The work of the ring when the ND-range in front is replaced. -/
theorem work_front {rest : List ℕ} {algo : AlgoSlicing} {ndranges : ℕ → Option NDRange} {r : NDRange}
    (hs : RingKeeps s) (hring : s.ring = d :: rest)
    (hheap : ndranges = Function.update s.ndranges d (some r)) {k : ℕ}
    (hleft : r.totalSize - r.nextWgr + k ≤ s.left d)
    (hlist : algo.ndranges.toList = rest ++ [d] ∨ algo.ndranges.toList = rest) :
    work ⟨algo, ndranges, s.accepted⟩ + k ≤ s.work := by
  have hnot : d ∉ rest := (List.nodup_cons.mp (hring ▸ hs.nodup)).1
  have hself : left ⟨algo, ndranges, s.accepted⟩ d = r.totalSize - r.nextWgr := by
    unfold left
    dsimp only
    rw [hheap, Function.update_self]
    rfl
  have hrest : ∀ e ∈ rest, left ⟨algo, ndranges, s.accepted⟩ e = s.left e := by
    intro e he
    unfold left
    dsimp only
    rw [hheap, Function.update_of_ne (ne_of_mem_of_not_mem he hnot)]
  have hold : s.work = s.left d + (rest.map s.left).sum := by
    rw [work, hring, List.map_cons, List.sum_cons]
  rw [hold]
  unfold work ring
  dsimp only
  obtain hlist | hlist := hlist
  · rw [hlist, List.map_append, List.sum_append, List.map_singleton, List.sum_singleton, hself,
      work_congr hrest]
    omega
  · rw [hlist, work_congr hrest]
    omega

theorem offer_step (hs : RingKeeps s) (hquant : s.algo.minQuant < 2 ^ 31)
    (hlarger : s.algo.minQuant * s.algo.maxIdleThreshold < 2 ^ 31) {n : ℕ} {g : Global n}
    {check : ℕ → String → String → Bool} {now : ℚ}
    (hn : routedSystem.next s (.offer n g check now) = some t) :
    Rotates ring turns arrivals s (.offer n g check now) t ∧
      t.work + s.takes (.offer n g check now) ≤ s.work := by
  obtain ⟨⟨algo, g'⟩, hp, rfl⟩ := Option.map_eq_some_iff.mp hn
  obtain ⟨hnone, rfl, rfl⟩ | ⟨hturn, d, rest, r, hpop, hr, hcase⟩ :=
    AlgoSlicing.onFreeSchedulers_turn hp
  · have htakes : s.takes (.offer n g check now) = 0 := if_neg (not_fits_of_none hnone)
    refine ⟨.neither (if_pos hnone) rfl rfl, ?_⟩
    rw [htakes]
    exact le_rfl
  have hfront : s.ring = d :: rest.toList := (CircArray.toList_popFront hpop).1
  have hone : s.turns (.offer n g check now) = 1 := if_neg hturn
  obtain ⟨hchoose, rfl, rfl⟩ | ⟨c, hchoose, hslice⟩ := hcase
  · -- nobody affords a work-group, and the ND-range goes to the end
    have hnofit : ¬ s.Fits g check := by
      rintro ⟨e, he, q, hq, hcosts, i, hi, hfits⟩
      rw [hfront] at he
      obtain rfl : d = e := Option.some.inj he
      obtain rfl : r = q := Option.some.inj (hr.symm.trans hq)
      exact AlgoSlicing.choose_of_affords hquant hlarger hcosts hi hfits hchoose
    have htakes : s.takes (.offer n g check now) = 0 := if_neg hnofit
    refine ⟨.turn d rest.toList hone rfl hfront (Or.inl (toList_requeue hpop)), ?_⟩
    rw [htakes]
    exact (((perm_requeue hpop).map s.left).sum_eq).ge
  · -- a slice, of at least one work-group
    obtain ⟨hpos, hsmall⟩ := AlgoSlicing.choose_pos hchoose
    have hlist := AlgoSlicing.slice_ring (g := { g with ndranges := s.ndranges }) hpop hr hslice
    have hends : algo.ndranges.toList = rest.toList ++ [d] ∨ algo.ndranges.toList = rest.toList := by
      rw [hlist]
      exact ite_eq_or_eq ..
    refine ⟨.turn d rest.toList hone rfl hfront hends, ?_⟩
    obtain ⟨hacc, q, hq, hmore⟩ := (hs.mem d).mp (by
      change d ∈ s.ring
      rw [hfront]
      exact List.mem_cons_self)
    obtain rfl : r = q := Option.some.inj (hr.symm.trans hq)
    obtain ⟨q, hq, htot, -⟩ := hs.bounds d hacc
    obtain rfl : r = q := Option.some.inj (hr.symm.trans hq)
    have hk := toU32_of_mem hpos.le (by omega)
    obtain ⟨hcarved, hroom, -⟩ := NDRange.wgsToCarve_slice (k := toU32 c.maxWgs) htot (by omega)
      (by omega) (Or.inl hmore)
    obtain ⟨⟨hidx, hg⟩, -⟩ := AlgoSlicing.slice_spec hr hslice
    obtain ⟨q, w, hq, -, hheap, -⟩ := Global.carveAndSubmit_spec hg
    obtain rfl : r = q := Option.some.inj (hr.symm.trans hq)
    have hnext : (r.carveWgs d (toU32 c.maxWgs)).2.nextWgr =
        r.nextWgr + r.wgsToCarve (toU32 c.maxWgs) := u32_of_lt hroom
    have hold : s.left d = r.totalSize - r.nextWgr := by
      have hr : s.ndranges d = some r := hr
      rw [left, hr]
      rfl
    refine work_front hs hfront hheap ?_ hends
    have htakes : s.takes (.offer n g check now) ≤ 1 := by
      unfold takes
      dsimp only
      split
      · exact le_rfl
      · exact Nat.zero_le _
    have htotal : (r.carveWgs d (toU32 c.maxWgs)).2.totalSize = r.totalSize := rfl
    rw [hold, hnext, htotal]
    omega

theorem params_step (hn : routedSystem.next s l = some t) :
    t.algo.minQuant = s.algo.minQuant ∧ t.algo.maxIdleThreshold = s.algo.maxIdleThreshold := by
  cases l with
  | route d kernel event res x y z =>
    obtain ⟨-, hn⟩ := Option.ite_none_right_eq_some.mp hn
    obtain ⟨r, -, rfl⟩ := Option.map_eq_some_iff.mp hn
    dsimp only
    unfold AlgoSlicing.routeNdrange
    split <;> exact ⟨rfl, rfl⟩
  | offer n g check now =>
    obtain ⟨⟨algo, g'⟩, hp, rfl⟩ := Option.map_eq_some_iff.mp hn
    obtain ⟨-, rfl, -⟩ | ⟨-, d, rest, r, -, hr, ⟨-, rfl, -⟩ | ⟨c, -, hslice⟩⟩ :=
      AlgoSlicing.onFreeSchedulers_turn hp
    · exact ⟨rfl, rfl⟩
    · exact ⟨rfl, rfl⟩
    · obtain ⟨-, hring⟩ := AlgoSlicing.slice_spec hr hslice
      dsimp only
      rw [hring]
      split <;> exact ⟨rfl, rfl⟩

/-- The quants of the two attempts fit the code's integers. -/
structure TurnsKeep (s : RoutedState) : Prop where
  reachable : routedSystem.Reachable s
  quant : s.algo.minQuant < 2 ^ 31
  larger : s.algo.minQuant * s.algo.maxIdleThreshold < 2 ^ 31

theorem TurnsKeep.step (hs : TurnsKeep s) (hn : routedSystem.next s l = some t) :
    TurnsKeep t ∧ Rotates RoutedState.ring turns arrivals s l t ∧
      t.work + s.takes l ≤ s.work + s.brought l := by
  obtain ⟨hquant, hthreshold⟩ := params_step hn
  refine ⟨⟨Machine.Reachable.next hs.reachable hn, by rw [hquant]; exact hs.quant,
    by rw [hquant, hthreshold]; exact hs.larger⟩, ?_⟩
  cases l with
  | route d kernel event res x y z => exact route_step (ringKeeps hs.reachable) hn
  | offer n g check now => exact offer_step (ringKeeps hs.reachable) hs.quant hs.larger hn

theorem work_eq_zero_iff (hs : RingKeeps s) : s.work = 0 ↔ s.ring = [] := by
  constructor
  · intro hwork
    refine List.eq_nil_iff_forall_not_mem.mpr fun d hd => ?_
    obtain ⟨-, r, hr, hmore⟩ := (hs.mem d).mp hd
    have hleft : s.left d = 0 :=
      List.sum_eq_zero_iff.mp hwork _ (List.mem_map_of_mem hd)
    rw [left, hr] at hleft
    change r.totalSize - r.nextWgr = 0 at hleft
    omega
  · intro hring
    rw [work, hring]
    rfl

/-! ## Every run -/

/-- What a run from `s` to `t` does with the ND-ranges in the ring. -/
structure TakesTurns (s : RoutedState) (ls : List RoutedLabel) (t : RoutedState) : Prop where
  waits : ∀ front d back, s.ring = front ++ d :: back → routedSystem.HasTurn ring turns s ls d ∨
    ∃ front' back', t.ring = front' ++ d :: back' ∧ front'.length + routedSystem.total turns s ls =
      front.length + routedSystem.total arrivals s ls
  advances : t.work + routedSystem.total takes s ls ≤ s.work + routedSystem.total brought s ls
  done : t.work = 0 ↔ t.ring = []

theorem ranges_take_turns {ls : List RoutedLabel} (h : routedSystem.Reachable s)
    (hquant : s.algo.minQuant < 2 ^ 31)
    (hlarger : s.algo.minQuant * s.algo.maxIdleThreshold < 2 ^ 31)
    (hrun : routedSystem.run s ls = some t) : s.TakesTurns ls t := by
  have hs : TurnsKeep s := ⟨h, hquant, hlarger⟩
  refine ⟨fun front d back hring => ?_, ?_,
    work_eq_zero_iff (ringKeeps (Machine.Reachable.run h hrun))⟩
  · exact Machine.turn_or_place (fun s l t hs hn => ⟨(hs.step hn).1, (hs.step hn).2.1⟩) hs hrun hring
  · exact Machine.total_le (fun s l t hs hn => ⟨(hs.step hn).1, (hs.step hn).2.2⟩) hs hrun

/-- Two ND-ranges are in the ring, and the first offer is the turn of the one in front. -/
theorem ranges_take_turns_two : ∃ s t ls, s.TakesTurns ls t ∧ s.ring = [1, 0] ∧ t.ring = [0] ∧
    routedSystem.total turns s ls = 1 ∧ routedSystem.total takes s ls = 1 := by
  have hrun : ((Global.new (fun i : Fin 2 => (0, 1, i.val)) (fun _ => some (10, 10))
      fun _ => 0).bind fun g =>
      (routedSystem.run ⟨.new 30 2, fun _ => none, fun _ => false⟩
        [.route 0 default default "" 6 1 1, .route 1 default default "" 2 1 1]).bind fun s =>
          (routedSystem.run s [.offer 2 g checkResourceString 0]).map fun t =>
            decide (s.ring = [1, 0] ∧ s.algo.minQuant < 2 ^ 31 ∧
              s.algo.minQuant * s.algo.maxIdleThreshold < 2 ^ 31 ∧ t.ring = [0] ∧
              routedSystem.total turns s [.offer 2 g checkResourceString 0] = 1 ∧
              routedSystem.total takes s [.offer 2 g checkResourceString 0] = 1)) = some true := by
    decide +kernel
  obtain ⟨g, -, hrun⟩ := Option.bind_eq_some_iff.mp hrun
  obtain ⟨s, hs, hrun⟩ := Option.bind_eq_some_iff.mp hrun
  obtain ⟨t, ht, hview⟩ := Option.map_eq_some_iff.mp hrun
  obtain ⟨hring, hquant, hlarger, hend, hturns, htakes⟩ := of_decide_eq_true hview
  have hreach : routedSystem.Reachable s :=
    Machine.Reachable.run (.start ⟨⟨30, 2, rfl⟩, fun _ => rfl, fun _ => rfl⟩) hs
  exact ⟨s, t, _, ranges_take_turns hreach hquant hlarger ht, hring, hend, hturns, htakes⟩

end RoutedState

end FpgaMl
