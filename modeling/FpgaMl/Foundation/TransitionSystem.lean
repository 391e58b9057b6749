import Mathlib.Tactic

/-! Labelled machines with a partial, executable step. A label carries everything the
environment chooses, so a run is a list of labels; `none` is a step that cannot be taken.
`ReachableWhere M P` collects the states of the runs all of whose steps satisfy `P`. -/
namespace TransitionSystem
set_option autoImplicit false

universe u v

structure Machine (σ : Type u) (ι : Type v) where
  start : σ → Prop
  next : σ → ι → Option σ

variable {σ : Type u} {ι : Type v} (M : Machine σ ι) (P : σ → ι → Prop)

/-- The state after a list of labels, if every one of them can be taken. -/
def Machine.run (M : Machine σ ι) : σ → List ι → Option σ
  | s, [] => some s
  | s, l :: ls => (M.next s l).bind fun t => M.run t ls

/-- The states reached by runs whose every step satisfies `P` in the state before it. -/
inductive Machine.ReachableWhere : σ → Prop
  | start {s : σ} : M.start s → Machine.ReachableWhere s
  | next {s t : σ} {l : ι} : Machine.ReachableWhere s → P s l → M.next s l = some t →
      Machine.ReachableWhere t

def Machine.Reachable : σ → Prop := M.ReachableWhere fun _ _ => True

variable {M P}

theorem Machine.Reachable.next {s t : σ} {l : ι} (h : M.Reachable s) (hn : M.next s l = some t) :
    M.Reachable t := Machine.ReachableWhere.next h trivial hn

/-- The invariant rule: what every start state has and every admitted step keeps. -/
theorem Machine.ReachableWhere.invariant {I : σ → Prop} {s : σ} (h : M.ReachableWhere P s)
    (hstart : ∀ s, M.start s → I s)
    (hstep : ∀ s l t, I s → P s l → M.next s l = some t → I t) : I s := by
  induction h with
  | start hs => exact hstart _ hs
  | next _ hP hn ih => exact hstep _ _ _ ih hP hn

theorem Machine.Reachable.invariant {I : σ → Prop} {s : σ} (h : M.Reachable s)
    (hstart : ∀ s, M.start s → I s) (hstep : ∀ s l t, I s → M.next s l = some t → I t) : I s :=
  Machine.ReachableWhere.invariant h hstart fun s l t hI _ hn => hstep s l t hI hn

/-- A run of labels that are admitted in every state. -/
theorem Machine.ReachableWhere.run {s t : σ} {ls : List ι} (h : M.ReachableWhere P s)
    (hP : ∀ s, ∀ l ∈ ls, P s l) (hr : M.run s ls = some t) : M.ReachableWhere P t := by
  induction ls generalizing s with
  | nil =>
    simp only [Machine.run, Option.some.injEq] at hr
    exact hr ▸ h
  | cons l ls ih =>
    obtain ⟨m, hm, hr⟩ := Option.bind_eq_some_iff.mp hr
    exact ih (h.next (hP s l List.mem_cons_self) hm)
      (fun s k hk => hP s k (List.mem_cons_of_mem l hk)) hr

theorem Machine.Reachable.run {s t : σ} {ls : List ι} (h : M.Reachable s)
    (hr : M.run s ls = some t) : M.Reachable t :=
  Machine.ReachableWhere.run h (fun _ _ _ => trivial) hr

/-- An observation that every step changes as its label says is a fold over the labels of a run. -/
theorem Machine.run_observes {β : Type*} {I : σ → Prop} {o : σ → β} {f : β → ι → Option β}
    (hstep : ∀ s l t, I s → M.next s l = some t → I t ∧ f (o s) l = some (o t)) {s t : σ}
    {ls : List ι} (hs : I s) (h : M.run s ls = some t) : I t ∧ ls.foldlM f (o s) = some (o t) := by
  induction ls generalizing s with
  | nil =>
    cases h
    exact ⟨hs, rfl⟩
  | cons l ls ih =>
    obtain ⟨m, hm, h⟩ := Option.bind_eq_some_iff.mp h
    obtain ⟨hI, hf⟩ := hstep s l m hs hm
    obtain ⟨hI, hrest⟩ := ih hI h
    refine ⟨hI, ?_⟩
    rw [List.foldlM_cons, hf]
    exact hrest

/-- The run that stops at the first label which `ok` refuses. -/
def Machine.runWhere (M : Machine σ ι) (ok : σ → ι → Bool) : σ → List ι → Option σ
  | s, [] => some s
  | s, l :: ls => if ok s l then (M.next s l).bind fun t => M.runWhere ok t ls else none

theorem Machine.run_of_runWhere {ok : σ → ι → Bool} {s t : σ} {ls : List ι}
    (h : M.runWhere ok s ls = some t) : M.run s ls = some t := by
  induction ls generalizing s with
  | nil => exact h
  | cons l ls ih =>
    rw [Machine.runWhere] at h
    obtain ⟨-, h⟩ := Option.ite_none_right_eq_some.mp h
    obtain ⟨m, hm, h⟩ := Option.bind_eq_some_iff.mp h
    rw [Machine.run, hm, Option.bind_some, ih h]

theorem Machine.runWhere_single {ok : σ → ι → Bool} {s t : σ} {l : ι} (hok : ok s l = true)
    (hn : M.next s l = some t) : M.runWhere ok s [l] = some t := by
  rw [Machine.runWhere, if_pos hok, hn]
  rfl

theorem Machine.runWhere_append {ok : σ → ι → Bool} {s t u : σ} {ls ks : List ι}
    (h : M.runWhere ok s ls = some t) (hk : M.runWhere ok t ks = some u) :
    M.runWhere ok s (ls ++ ks) = some u := by
  induction ls generalizing s with
  | nil => exact Option.some.inj h ▸ hk
  | cons l ls ih =>
    rw [Machine.runWhere] at h
    obtain ⟨hok, h⟩ := Option.ite_none_right_eq_some.mp h
    obtain ⟨m, hm, h⟩ := Option.bind_eq_some_iff.mp h
    rw [List.cons_append, Machine.runWhere, if_pos hok, hm, Option.bind_some, ih h]

/-- Every label of such a run was accepted after those before it. -/
theorem Machine.runWhere_split {ok : σ → ι → Bool} {s t : σ} {l : ι} {pre post : List ι}
    (h : M.runWhere ok s (pre ++ l :: post) = some t) :
    ∃ m, M.run s pre = some m ∧ ok m l = true := by
  induction pre generalizing s with
  | nil => exact ⟨s, rfl, (Option.ite_none_right_eq_some.mp h).1⟩
  | cons k pre ih =>
    rw [List.cons_append, Machine.runWhere] at h
    obtain ⟨-, h⟩ := Option.ite_none_right_eq_some.mp h
    obtain ⟨m, hm, h⟩ := Option.bind_eq_some_iff.mp h
    obtain ⟨m', hrun, hok⟩ := ih h
    exact ⟨m', by rw [Machine.run, hm, Option.bind_some, hrun], hok⟩

theorem Machine.ReachableWhere.runWhere {ok : σ → ι → Bool} {s t : σ} {ls : List ι}
    (hok : ∀ s l, ok s l = true → P s l) (h : M.ReachableWhere P s)
    (hr : M.runWhere ok s ls = some t) : M.ReachableWhere P t := by
  induction ls generalizing s with
  | nil =>
    simp only [Machine.runWhere, Option.some.injEq] at hr
    exact hr ▸ h
  | cons l ls ih =>
    simp only [Machine.runWhere] at hr
    split at hr
    · rename_i hl
      obtain ⟨m, hm, hr⟩ := Option.bind_eq_some_iff.mp hr
      exact ih (h.next (hok _ _ hl) hm) hr
    · cases hr

section View

variable {β : Type*} {s : σ} {ls : List ι} {f : σ → β} {b : β}

/-- A run that was computed up to a view `f` of its last state. -/
theorem Machine.exists_reachable (h : (M.run s ls).map f = some b) (hs : M.start s) :
    ∃ t, M.Reachable t ∧ f t = b := by
  obtain ⟨t, ht, hb⟩ := Option.map_eq_some_iff.mp h
  exact ⟨t, Machine.Reachable.run (.start hs) ht, hb⟩

theorem Machine.exists_reachableWhere [∀ s l, Decidable (P s l)]
    (h : (M.runWhere (fun s l => decide (P s l)) s ls).map f = some b) (hs : M.start s) :
    ∃ t, M.ReachableWhere P t ∧ f t = b := by
  obtain ⟨t, ht, hb⟩ := Option.map_eq_some_iff.mp h
  exact ⟨t, Machine.ReachableWhere.runWhere (fun _ _ => of_decide_eq_true) (.start hs) ht, hb⟩

end View

section Simulation

variable {τ : Type*} {κ : Type*} {N : Machine τ κ} {Q : τ → κ → Prop}

/-- The simulation rule: a step of `M` is matched by a step of `N` or leaves the related state. -/
theorem Machine.ReachableWhere.simulates {R : σ → τ → Prop} {s : σ} (h : M.ReachableWhere P s)
    (hstart : ∀ s, M.start s → ∃ a, N.start a ∧ R s a)
    (hstep : ∀ s l t a, R s a → P s l → M.next s l = some t →
      R t a ∨ ∃ k b, Q a k ∧ N.next a k = some b ∧ R t b) :
    ∃ a, N.ReachableWhere Q a ∧ R s a := by
  induction h with
  | start hs =>
    obtain ⟨a, ha, hR⟩ := hstart _ hs
    exact ⟨a, .start ha, hR⟩
  | next _ hP hn ih =>
    obtain ⟨a, ha, hR⟩ := ih
    obtain hR | ⟨k, b, hQ, hb, hR⟩ := hstep _ _ _ a hR hP hn
    · exact ⟨a, ha, hR⟩
    · exact ⟨b, ha.next hQ hb, hR⟩

end Simulation

section Laws

variable {A B : List ι → σ → ι → Prop} {s : σ}

/-- Every step of the run of `ls` from `s` satisfies `A` of the labels before it, of the state it
leaves and of its own label. -/
def Machine.Throughout (M : Machine σ ι) (A : List ι → σ → ι → Prop) (s : σ) (ls : List ι) : Prop :=
  ∀ before l since, ls = before ++ l :: since → ∀ m, M.run s before = some m → A before m l

theorem Machine.throughout_of_runWhere {ok : σ → ι → Bool} {t : σ} {ls : List ι}
    (h : M.runWhere ok s ls = some t) : M.Throughout (fun _ m l => ok m l = true) s ls := by
  rintro before l since rfl m hm
  obtain ⟨m', hm', hok⟩ := Machine.runWhere_split h
  exact Option.some.inj (hm'.symm.trans hm) ▸ hok

theorem Machine.throughout_and {ls : List ι} :
    M.Throughout (fun before m l => A before m l ∧ B before m l) s ls ↔
      M.Throughout A s ls ∧ M.Throughout B s ls := by
  constructor
  · intro h
    exact ⟨fun before l since heq m hm => (h before l since heq m hm).1,
      fun before l since heq m hm => (h before l since heq m hm).2⟩
  · rintro ⟨hA, hB⟩ before l since heq m hm
    exact ⟨hA before l since heq m hm, hB before l since heq m hm⟩

theorem Machine.run_concat {t : σ} {ls : List ι} {l : ι} (h : M.run s (ls ++ [l]) = some t) :
    ∃ m, M.run s ls = some m ∧ M.next m l = some t := by
  induction ls generalizing s with
  | nil =>
    obtain ⟨m, hm, h⟩ := Option.bind_eq_some_iff.mp h
    cases h
    exact ⟨s, rfl, hm⟩
  | cons k ls ih =>
    obtain ⟨m, hm, h⟩ := Option.bind_eq_some_iff.mp h
    obtain ⟨m', hrun, hn⟩ := ih h
    exact ⟨m', by rw [Machine.run, hm, Option.bind_some, hrun], hn⟩

theorem Machine.run_of_concat {m t : σ} {ls : List ι} {l : ι} (h : M.run s ls = some m)
    (hn : M.next m l = some t) : M.run s (ls ++ [l]) = some t := by
  induction ls generalizing s with
  | nil =>
    cases h
    rw [List.nil_append, Machine.run, hn, Option.bind_some, Machine.run]
  | cons k ls ih =>
    obtain ⟨m', hm', h⟩ := Option.bind_eq_some_iff.mp h
    rw [List.cons_append, Machine.run, hm', Option.bind_some, ih h]

theorem Machine.throughout_concat (ls : List ι) (l : ι) : M.Throughout A s (ls ++ [l]) ↔
    M.Throughout A s ls ∧ ∀ m, M.run s ls = some m → A ls m l := by
  constructor
  · intro h
    refine ⟨fun before k since heq m hm => ?_, h ls l [] rfl⟩
    exact h before k (since ++ [l]) (by rw [heq, List.append_assoc, List.cons_append]) m hm
  · rintro ⟨hls, hl⟩ before k since heq m hm
    obtain rfl | ⟨since, j, rfl⟩ := since.eq_nil_or_concat
    · obtain ⟨hpre, hlast⟩ := List.append_inj' heq rfl
      rw [← (List.cons.inj hlast).1, ← hpre]
      exact hl m (hpre ▸ hm)
    · rw [List.concat_eq_append, ← List.cons_append, ← List.append_assoc] at heq
      exact hls before k since (List.append_inj' heq rfl).1 m hm

/-- Two laws that agree wherever an invariant kept under the second one holds, are laws of the same
runs. -/
theorem Machine.throughout_iff {I : List ι → σ → Prop} (hstart : I [] s)
    (hstep : ∀ before m l t, M.run s before = some m → I before m → B before m l →
      M.next m l = some t → I (before ++ [l]) t)
    (hagree : ∀ before m l t, I before m → M.next m l = some t → (A before m l ↔ B before m l))
    {ls : List ι} {t : σ} (h : M.run s ls = some t) :
    (M.Throughout A s ls ↔ M.Throughout B s ls) ∧ (M.Throughout B s ls → I ls t) := by
  induction ls using List.reverseRecOn generalizing t with
  | nil =>
    have hnone : ∀ C : List ι → σ → ι → Prop, M.Throughout C s [] :=
      fun C before l since heq => absurd heq.symm (by simp)
    cases h
    exact ⟨iff_of_true (hnone A) (hnone B), fun _ => hstart⟩
  | append_singleton ls l ih =>
    obtain ⟨m, hm, hn⟩ := Machine.run_concat h
    obtain ⟨hiff, hI⟩ := ih hm
    have hlast : ∀ C : List ι → σ → ι → Prop, (∀ m, M.run s ls = some m → C ls m l) ↔ C ls m l :=
      fun C => ⟨fun hC => hC m hm, fun hC m' hm' => Option.some.inj (hm.symm.trans hm') ▸ hC⟩
    rw [Machine.throughout_concat, Machine.throughout_concat, hlast A, hlast B, hiff]
    exact ⟨and_congr_right fun hB => hagree ls m l t (hI hB) hn,
      fun ⟨hB, hl⟩ => hstep ls m l t hm (hI hB) hl hn⟩

/-- Every state of the run of `ls` from `s` satisfies `J`. -/
def Machine.Always (M : Machine σ ι) (J : σ → Prop) (s : σ) (ls : List ι) : Prop :=
  ∀ before since, ls = before ++ since → ∀ m, M.run s before = some m → J m

theorem Machine.always_iff {J : σ → Prop} {ls : List ι} : M.Always J s ls ↔
    J s ∧ M.Throughout (fun _ m l => ∀ t, M.next m l = some t → J t) s ls := by
  constructor
  · intro h
    refine ⟨h [] ls rfl s rfl, fun before l since heq m hm t ht => ?_⟩
    exact h (before ++ [l]) since (by rw [heq, List.append_assoc, List.singleton_append]) t
      (Machine.run_of_concat hm ht)
  · rintro ⟨hs, hsteps⟩ before since heq m hm
    obtain rfl | ⟨before, l, rfl⟩ := before.eq_nil_or_concat
    · cases hm
      exact hs
    · rw [List.concat_eq_append] at heq hm
      obtain ⟨m', hm', hn⟩ := Machine.run_concat hm
      exact hsteps before l since (by rw [heq, List.append_assoc, List.singleton_append]) m' hm' m hn

end Laws

end TransitionSystem
