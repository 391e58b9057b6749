import Mathlib.Tactic
import FpgaMl.Foundation.TransitionSystem

/-! Rules for whole runs of a machine. A machine is traced by another one when each of its steps is
matched by a list of steps of the other. A measure that the internal steps lower bounds every
internal run, and every internal run goes on until no internal step is left. -/
namespace TransitionSystem
set_option autoImplicit false

universe u v

variable {σ : Type u} {ι : Type v} {M : Machine σ ι} {P : σ → ι → Prop}

theorem Machine.run_append {s t u : σ} {ls ks : List ι} (h : M.run s ls = some t)
    (hk : M.run t ks = some u) : M.run s (ls ++ ks) = some u := by
  induction ls generalizing s with
  | nil => exact Option.some.inj h ▸ hk
  | cons l ls ih =>
    obtain ⟨m, hm, h⟩ := Option.bind_eq_some_iff.mp h
    rw [List.cons_append, Machine.run, hm, Option.bind_some, ih h]

theorem Machine.run_split {s u : σ} {ls ks : List ι} (h : M.run s (ls ++ ks) = some u) :
    ∃ t, M.run s ls = some t ∧ M.run t ks = some u := by
  induction ls generalizing s with
  | nil => exact ⟨s, rfl, h⟩
  | cons l ls ih =>
    obtain ⟨m, hm, h⟩ := Option.bind_eq_some_iff.mp h
    obtain ⟨t, ht, hu⟩ := ih h
    exact ⟨t, by rw [Machine.run, hm, Option.bind_some, ht], hu⟩

theorem Machine.run_single {s t : σ} {l : ι} (h : M.next s l = some t) : M.run s [l] = some t := by
  rw [Machine.run, h, Option.bind_some, Machine.run]

theorem Machine.run_invariant {I : σ → Prop} (hstep : ∀ s l t, I s → M.next s l = some t → I t)
    {s t : σ} {ls : List ι} (hs : I s) (h : M.run s ls = some t) : I t := by
  induction ls generalizing s with
  | nil => exact Option.some.inj h ▸ hs
  | cons l ls ih =>
    obtain ⟨m, hm, h⟩ := Option.bind_eq_some_iff.mp h
    exact ih (hstep s l m hs hm) h

/-- The history rule: what the steps so far have been matched by. -/
theorem Machine.ReachableWhere.history {τ : Type*} {κ : Type*} {N : Machine τ κ}
    {R : σ → List κ → τ → Prop} {s : σ} (h : M.ReachableWhere P s)
    (hstart : ∀ s, M.start s → ∃ a, N.start a ∧ R s [] a)
    (hstep : ∀ s l t ks a, R s ks a → P s l → M.next s l = some t →
      ∃ more b, N.run a more = some b ∧ R t (ks ++ more) b) :
    ∃ a₀ ks a, N.start a₀ ∧ N.run a₀ ks = some a ∧ R s ks a := by
  induction h with
  | start hs =>
    obtain ⟨a, ha, hR⟩ := hstart _ hs
    exact ⟨a, [], a, ha, rfl, hR⟩
  | next _ hP hn ih =>
    obtain ⟨a₀, ks, a, ha, hrun, hR⟩ := ih
    obtain ⟨more, b, hmore, hR⟩ := hstep _ _ _ ks a hR hP hn
    exact ⟨a₀, ks ++ more, b, ha, Machine.run_append hrun hmore, hR⟩

section Measure

variable {Q : ι → Prop} {I : σ → Prop} {μ : σ → ℕ}

/-- Every run of internal steps is at most as long as the measure. -/
theorem Machine.run_length_le (hstep : ∀ s l t, I s → Q l → M.next s l = some t → I t ∧ μ t < μ s)
    {s t : σ} {ls : List ι} (hs : I s) (hls : ∀ l ∈ ls, Q l) (h : M.run s ls = some t) :
    I t ∧ ls.length + μ t ≤ μ s := by
  induction ls generalizing s with
  | nil =>
    cases h
    exact ⟨hs, by simp⟩
  | cons l ls ih =>
    obtain ⟨m, hm, h⟩ := Option.bind_eq_some_iff.mp h
    obtain ⟨hI, hlt⟩ := hstep s l m hs (hls l List.mem_cons_self) hm
    obtain ⟨ht, hle⟩ := ih hI (fun k hk => hls k (List.mem_cons_of_mem l hk)) h
    rw [List.length_cons]
    exact ⟨ht, by omega⟩

/-- However many other steps come between, a run of steps of `A` has at most as many internal steps. -/
theorem Machine.run_countP_le [DecidablePred Q] {A : ι → Prop}
    (hstep : ∀ s l t, I s → A l → M.next s l = some t → I t ∧ μ t ≤ μ s ∧ (Q l → μ t < μ s))
    {s t : σ} {ls : List ι} (hs : I s) (hls : ∀ l ∈ ls, A l) (h : M.run s ls = some t) :
    I t ∧ ls.countP (fun l => Q l) + μ t ≤ μ s := by
  induction ls generalizing s with
  | nil =>
    cases h
    exact ⟨hs, by simp⟩
  | cons l ls ih =>
    obtain ⟨m, hm, h⟩ := Option.bind_eq_some_iff.mp h
    obtain ⟨hI, hle, hlt⟩ := hstep s l m hs (hls l List.mem_cons_self) hm
    obtain ⟨ht, hcount⟩ := ih hI (fun k hk => hls k (List.mem_cons_of_mem l hk)) h
    refine ⟨ht, ?_⟩
    rw [List.countP_cons]
    by_cases hl : Q l
    · have := hlt hl
      rw [if_pos (decide_eq_true hl)]
      omega
    · rw [if_neg (by simpa using hl)]
      omega

/-- Internal steps can be taken until none is left. -/
theorem Machine.exists_exhausted
    (hstep : ∀ s l t, I s → Q l → M.next s l = some t → I t ∧ μ t < μ s) {s : σ} (hs : I s) :
    ∃ ls t, (∀ l ∈ ls, Q l) ∧ M.run s ls = some t ∧ ∀ l, Q l → M.next t l = none := by
  induction hm : μ s using Nat.strong_induction_on generalizing s with
  | _ m ih =>
    by_cases hnone : ∀ l, Q l → M.next s l = none
    · exact ⟨[], s, fun _ hl => absurd hl List.not_mem_nil, rfl, hnone⟩
    · push Not at hnone
      obtain ⟨l, hl, hn⟩ := hnone
      obtain ⟨u, hu⟩ := Option.ne_none_iff_exists'.mp hn
      obtain ⟨hI, hlt⟩ := hstep s l u hs hl hu
      obtain ⟨ls, t, hls, hrun, hend⟩ := ih (μ u) (hm ▸ hlt) hI rfl
      exact ⟨l :: ls, t, List.forall_mem_cons.mpr ⟨hl, hls⟩,
        by rw [Machine.run, hu, Option.bind_some, hrun], hend⟩

end Measure

end TransitionSystem
