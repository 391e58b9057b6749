import Mathlib.Tactic
import FpgaMl.FreeList
import FpgaMl.AlgoSlicing

/-! # What AlgoSlicing offers

A turn of `on_free_schedulers` submits what `offered` says. `select_best_scheduler` takes the ids
on the list of free schedulers for positions in the vector of schedulers, which they are for some
lists of regions only. -/
namespace FpgaMl
open MachineInt TransitionSystem
set_option autoImplicit false

variable {n : ℕ}

/-- The loop of `slicingLoop` from a given state. -/
def slicingFrom (check : ℕ → String → String → Bool) (s₀ : SlicingState n) :
    Machine (SlicingState n) (SlicingLabel n) where
  start s := s = s₀
  next := (slicingLoop n check).next

theorem offer_cases {check : ℕ → String → String → Bool} {s t : SlicingState n} {now : ℚ}
    (h : (slicingLoop n check).next s (.offer now) = some t) :
    s.algo.onFreeSchedulers s.global check now = some (t.algo, t.global) := by
  obtain ⟨p, hp, rfl⟩ := Option.map_eq_some_iff.mp h
  exact hp

theorem slicing_fire_cases {check : ℕ → String → String → Bool} {s t : SlicingState n} {now : ℚ}
    {i : Fin n} (h : (slicingLoop n check).next s (.fire now i) = some t) :
    t.algo = s.algo ∧ ∃ event, s.global.onTimer now i = some (t.global, event) := by
  simp only [slicingLoop] at h
  obtain ⟨-, h⟩ := Option.ite_none_right_eq_some.mp h
  obtain ⟨⟨g, event⟩, hfire, rfl⟩ := Option.map_eq_some_iff.mp h
  exact ⟨rfl, event, hfire⟩

/-! ## What a turn of `on_free_schedulers` submits -/

/-- The carving of a chosen scheduler: whether the first attempt chose it, the cell of the
ND-range and what it holds, and the choice. -/
structure Offer where
  first : Bool
  cell : ℕ
  ndrange : NDRange
  choice : AlgoSlicing.Choice

namespace Offer

/-- The number of work-groups that leave the ND-range. -/
def wgs (o : Offer) : ℕ := o.ndrange.wgsToCarve (toU32 o.choice.maxWgs)

/-- The range that is submitted. -/
def range (o : Offer) : WorkGroupRange :=
  let wgr := (o.ndrange.carveWgs o.cell (toU32 o.choice.maxWgs)).1
  wgr.setExecutionCost (u32 (u32 (wgr.getTotalSize * o.choice.wgCost) + o.choice.reconfCost))

end Offer

namespace AlgoSlicing

/-- What `on_free_schedulers` is about to submit; the inner option is a turn that submits
nothing. -/
def offered (a : AlgoSlicing) (g : Global n) (check : ℕ → String → String → Bool) :
    Option (Option Offer) :=
  if a.ndranges.empty ∨ g.freeScMgr.freeSchedulers.empty then some none
  else do
    let (d, _) ← a.ndranges.popFront
    let ndrange ← g.ndranges d
    let chosen ← selectBestScheduler g check ndrange a.minQuant
    if chosen.isNone ∧ a.maxIdleThreshold ≠ 0 then
      let chosen ← selectBestScheduler g check ndrange (u32 (a.minQuant * a.maxIdleThreshold))
      return chosen.map (⟨false, d, ndrange, ·⟩)
    else return chosen.map (⟨true, d, ndrange, ·⟩)

/-- The effect of a turn on `Global`: the offer is carved and submitted. -/
def submitOffer (g : Global n) (now : ℚ) (o : Offer) : Option (Global n) :=
  if h : o.choice.schedulerIdx < n then
    (g.carveWgs o.cell (toU32 o.choice.maxWgs)).map fun carved =>
      carved.2.submitWgr now ⟨o.choice.schedulerIdx, h⟩ o.range
  else none

theorem slice_eq {a : AlgoSlicing} {g : Global n} {d : ℕ} {r : NDRange} (now : ℚ) (c : Choice)
    (first : Bool) (hr : g.ndranges d = some r) :
    (a.slice g now d c).map Prod.snd = submitOffer g now ⟨first, d, r, c⟩ := by
  unfold slice submitOffer
  by_cases hidx : c.schedulerIdx < n
  · rw [dif_pos hidx, dif_pos hidx]
    unfold Global.carveAndSubmit Global.carveWgs
    dsimp only
    rw [hr]
    simp [Global.submitWgr, Offer.range]
  · rw [dif_neg hidx, dif_neg hidx]
    rfl

theorem onFreeSchedulers_eq (a : AlgoSlicing) (g : Global n) (check : ℕ → String → String → Bool)
    (now : ℚ) : (a.onFreeSchedulers g check now).map Prod.snd =
      (a.offered g check).bind fun o => o.elim (some g) (submitOffer g now) := by
  unfold onFreeSchedulers offered
  by_cases hidle : a.ndranges.empty = true ∨ g.freeScMgr.freeSchedulers.empty = true
  · rw [if_pos hidle, if_pos hidle]
    rfl
  rw [if_neg hidle, if_neg hidle]
  cases a.ndranges.popFront with
  | none => rfl
  | some p =>
    obtain ⟨d, rest⟩ := p
    cases hr : g.ndranges d with
    | none => simp [hr]
    | some r =>
      have hslice := fun c first => slice_eq (a := { a with ndranges := rest }) now c first hr
      unfold choose
      cases hfirst : selectBestScheduler g check r a.minQuant with
      | none => simp [hr, hfirst]
      | some chosen =>
        cases chosen with
        | some c => simpa [hr, hfirst] using hslice c true
        | none =>
          by_cases hidle : a.maxIdleThreshold = 0
          · simp [hr, hfirst, hidle]
          · cases hsecond : selectBestScheduler g check r
                (u32 (a.minQuant * a.maxIdleThreshold)) with
            | none => simp [hr, hfirst, hidle, hsecond]
            | some chosen =>
              cases chosen with
              | none => simp [hr, hfirst, hidle, hsecond]
              | some c => simpa [hr, hfirst, hidle, hsecond] using hslice c false

/-- A turn leaves `Global` alone, or submits what it offered. -/
theorem onFreeSchedulers_effect {a b : AlgoSlicing} {g g' : Global n}
    {check : ℕ → String → String → Bool} {now : ℚ}
    (h : a.onFreeSchedulers g check now = some (b, g')) :
    g' = g ∨ ∃ o, a.offered g check = some (some o) ∧ submitOffer g now o = some g' := by
  have heffect := a.onFreeSchedulers_eq g check now
  rw [h, Option.map_some] at heffect
  obtain ⟨o, ho, hg⟩ := Option.bind_eq_some_iff.mp heffect.symm
  cases o with
  | none => exact Or.inl (Option.some.inj hg).symm
  | some o => exact Or.inr ⟨o, ho, hg⟩

theorem submitOffer_spec {g g' : Global n} {now : ℚ} {o : Offer}
    (h : submitOffer g now o = some g') : ∃ i : Fin n, i.val = o.choice.schedulerIdx ∧
      g'.schedulers = Function.update g.schedulers i ((g.schedulers i).enqueue now o.range) ∧
      g'.freeScMgr = g.freeScMgr.removeFreeScheduler (g.schedulers i).id ∧
      g'.tracker = g.tracker ∧ ∃ r, g.ndranges o.cell = some r ∧ g'.ndranges =
        Function.update g.ndranges o.cell (some (r.carveWgs o.cell (toU32 o.choice.maxWgs)).2) := by
  obtain ⟨hidx, h⟩ := Option.dite_none_right_eq_some.mp h
  obtain ⟨p, hp, rfl⟩ := Option.map_eq_some_iff.mp h
  obtain ⟨r, hr, rfl⟩ := Option.map_eq_some_iff.mp hp
  exact ⟨⟨_, hidx⟩, rfl, rfl, rfl, rfl, r, hr, rfl⟩

end AlgoSlicing

/-! ## Ids as positions -/

/-- `m_id` of the scheduler of a region, from the numbers of its board, FPGA and region. -/
def regionId (pr : ℕ × ℕ × ℕ) : ℕ := u32 (pr.1 * 16 + u32 (sub32 pr.2.1 1 * 4) + pr.2.2)

theorem Global.new_id {prs : Fin n → ℕ × ℕ × ℕ} {bits : String → Option (ℕ × ℕ)}
    {ends : Fin n → ℚ} {g : Global n}
    (h : Global.new prs bits ends = some g) (i : Fin n) : (g.schedulers i).id = regionId (prs i) := by
  obtain ⟨s, hs, hi⟩ := (Global.new_spec h).1 i
  obtain ⟨-, hs⟩ := Option.ite_none_right_eq_some.mp hs
  rw [hi, ← Option.some.inj hs]
  rfl

namespace Global

/-- Every entry of the list is a position, and that of the scheduler with this id. -/
def IdsIndex (g : Global n) : Prop :=
  ∀ v ∈ g.freeScMgr.freeSchedulers.toList, ∃ h : v < n, (g.schedulers ⟨v, h⟩).id = v

/-- The ids are those of `g₀`, and only they come on the list. -/
structure IdsKept (g₀ g : Global n) : Prop where
  small : n < 2 ^ 31
  capacity : g.freeScMgr.capacity = n
  ids : ∀ i, (g.schedulers i).id = (g₀.schedulers i).id
  listed : ∀ v ∈ g.freeScMgr.ids, ∃ i, (g₀.schedulers i).id = v

theorem idsKept_new {prs : Fin n → ℕ × ℕ × ℕ} {bits : String → Option (ℕ × ℕ)}
    {ends : Fin n → ℚ} {g : Global n} (h : Global.new prs bits ends = some g) : IdsKept g g := by
  obtain ⟨hsmall, hcap, hids⟩ := new_freeScMgr h
  refine ⟨hsmall, hcap, fun _ => rfl, fun v hv => ?_⟩
  rw [hids] at hv
  obtain ⟨i, -, hi⟩ := List.mem_map.mp hv
  exact ⟨i, hi⟩

theorem ids_update {g₀ g : Global n} (h : IdsKept g₀ g) (i : Fin n) {s : Scheduler}
    (hid : s.id = (g.schedulers i).id) :
    ∀ j, (Function.update g.schedulers i s j).id = (g₀.schedulers j).id :=
  (Function.forall_update_iff g.schedulers fun j s => s.id = (g₀.schedulers j).id).mpr
    ⟨hid.trans (h.ids i), fun j _ => h.ids j⟩

theorem IdsKept.submitOffer {g₀ g g' : Global n} (h : IdsKept g₀ g) {now : ℚ} {o : Offer}
    (hg : AlgoSlicing.submitOffer g now o = some g') : IdsKept g₀ g' := by
  obtain ⟨i, -, hsched, hfree, -⟩ := AlgoSlicing.submitOffer_spec hg
  have hsmall : g.freeScMgr.capacity < 2 ^ 31 := by
    rw [h.capacity]
    exact h.small
  obtain ⟨hids, hcap⟩ := FreeSchedulersManager.ids_removeFreeScheduler hsmall (g.schedulers i).id
  refine ⟨h.small, ?_, ?_, fun v hv => ?_⟩
  · rw [hfree, hcap, h.capacity]
  · rw [hsched]
    exact ids_update h i (enqueue_id _ _ _)
  · rw [hfree, hids] at hv
    exact h.listed v (List.mem_of_mem_erase hv)

theorem IdsKept.onTimer {g₀ g g' : Global n} (h : IdsKept g₀ g) {now : ℚ} {i : Fin n}
    {event : Option EventRef} (hg : g.onTimer now i = some (g', event)) : IdsKept g₀ g' := by
  obtain ⟨w, rest, -, hsched, hfree, -⟩ := onTimer_freeScMgr hg
  have hsame : ∀ j, (g'.schedulers j).id = (g₀.schedulers j).id := by
    rw [hsched]
    exact ids_update h i (restart_id _ _ _)
  obtain ⟨-, hfree⟩ | ⟨-, hfree⟩ := ite_eq_iff.mp hfree
  · obtain ⟨hids, hcap⟩ := FreeSchedulersManager.addFreeScheduler_eq_some hfree
    refine ⟨h.small, hcap.trans h.capacity, hsame, fun v hv => ?_⟩
    rw [hids] at hv
    obtain hv | hv := List.mem_append.mp hv
    · exact h.listed v hv
    · rw [List.mem_singleton.mp hv]
      exact ⟨i, (h.ids i).symm⟩
  · rw [Option.some.injEq] at hfree
    exact ⟨h.small, hfree ▸ h.capacity, hsame, hfree ▸ h.listed⟩

end Global

theorem idsKept {check : ℕ → String → String → Bool} {s₀ s : SlicingState n}
    (h₀ : s₀.global.IdsKept s₀.global) (h : (slicingFrom check s₀).Reachable s) :
    s₀.global.IdsKept s.global := by
  apply h.invariant
  · rintro _ rfl
    exact h₀
  · intro s l t hs hn
    cases l with
    | route kernel event res x y z =>
      obtain ⟨r, -, rfl⟩ := Option.map_eq_some_iff.mp hn
      exact ⟨hs.small, hs.capacity, hs.ids, hs.listed⟩
    | offer now =>
      obtain hsame | ⟨o, -, ho⟩ := AlgoSlicing.onFreeSchedulers_effect (offer_cases hn)
      · exact hsame ▸ hs
      · exact hs.submitOffer ho
    | fire now i =>
      have hn : (slicingLoop n check).next s (.fire now i) = some t := hn
      obtain ⟨-, event, hfire⟩ := slicing_fire_cases hn
      exact hs.onTimer hfire

/-- The list holds positions in every reachable state exactly when the number of every region is a
position, at which a region with this number stands. -/
theorem free_ids_iff {prs : Fin n → ℕ × ℕ × ℕ} {bits : String → Option (ℕ × ℕ)}
    {ends : Fin n → ℚ} {g : Global n}
    (hnew : Global.new prs bits ends = some g) (check : ℕ → String → String → Bool) (a : AlgoSlicing) :
    (∀ s, (slicingFrom check ⟨a, g⟩).Reachable s → s.global.IdsIndex) ↔
      ∀ i, ∃ h : regionId (prs i) < n, regionId (prs ⟨regionId (prs i), h⟩) = regionId (prs i) := by
  constructor
  · intro h i
    have hmem : regionId (prs i) ∈ g.freeScMgr.ids := by
      rw [(Global.new_freeScMgr hnew).2.2, ← Global.new_id hnew i]
      exact List.mem_map_of_mem (List.mem_finRange i)
    obtain ⟨hlt, hid⟩ := h ⟨a, g⟩ (.start rfl) _ hmem
    exact ⟨hlt, (Global.new_id hnew _).symm.trans hid⟩
  · intro h s hs v hv
    have hkept := idsKept (Global.idsKept_new hnew) hs
    obtain ⟨i, hi⟩ := hkept.listed v hv
    obtain ⟨hlt, hid⟩ := h i
    rw [Global.new_id hnew i] at hi
    subst hi
    exact ⟨hlt, (hkept.ids _).trans ((Global.new_id hnew _).trans hid)⟩

/-- Board 0, FPGA 1, regions 0 and 1. -/
theorem free_ids_iff_two : ∃ g,
    Global.new (fun i : Fin 2 => (0, 1, i.val)) (fun _ => none) (fun _ => 0) = some g ∧
    ∀ s, (slicingFrom checkResourceString ⟨AlgoSlicing.new 30 2, g⟩).Reachable s →
      s.global.IdsIndex := by
  obtain ⟨g, hg⟩ := Option.isSome_iff_exists.mp
    (show (Global.new (fun i : Fin 2 => (0, 1, i.val)) (fun _ => none) fun _ => 0).isSome = true by
      decide +kernel)
  refine ⟨g, hg, (free_ids_iff hg checkResourceString (AlgoSlicing.new 30 2)).mpr fun i => ?_⟩
  have hid : ∀ i : Fin 2, regionId (0, 1, i.val) = i.val := by decide +kernel
  exact ⟨(hid i).symm ▸ i.isLt, by simp only [hid]⟩

/-- The regions of the default configuration have the numbers 1 and 3. -/
theorem default_config_ids : ∃ (g : Global 2) (s : SlicingState 2),
    Global.new ![(0, 1, 1), (0, 1, 3)] (fun _ => none) (fun _ => 0) = some g ∧
      (slicingFrom checkResourceString ⟨AlgoSlicing.new 30 2, g⟩).Reachable s ∧
      ¬ s.global.IdsIndex := by
  obtain ⟨g, hg⟩ := Option.isSome_iff_exists.mp
    (show (Global.new ![(0, 1, 1), (0, 1, 3)] (fun _ => none) fun _ => 0).isSome = true by decide +kernel)
  refine ⟨g, ⟨AlgoSlicing.new 30 2, g⟩, hg, .start rfl, fun h => ?_⟩
  have hmem : 3 ∈ g.freeScMgr.ids := by
    rw [(Global.new_freeScMgr hg).2.2]
    refine List.mem_map.mpr ⟨1, List.mem_finRange 1, ?_⟩
    rw [Global.new_id hg]
    decide +kernel
  obtain ⟨hlt, -⟩ := h 3 hmem
  omega

end FpgaMl
