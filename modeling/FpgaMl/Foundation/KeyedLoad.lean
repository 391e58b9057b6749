import Mathlib.Tactic
import Mathlib.Data.List.TakeWhile

/-! Loading a map from a list of keys, up to the first key that does not load. What the map then
holds depends on the order of the list: a key is in it when it loads and so do all the keys in front
of its first occurrence. -/
namespace KeyedLoad
set_option autoImplicit false

universe u v

variable {κ : Type u} {β : Type v} [DecidableEq κ]

def loadAll (load : κ → Option β) : List κ → (κ → Option β) → κ → Option β
  | [], m => m
  | k :: ks, m =>
    match load k with
    | none => m
    | some value => loadAll load ks (Function.update m k (some value))

/-- The keys in front of the first one that does not load. -/
def loadable (load : κ → Option β) (ks : List κ) : List κ := ks.takeWhile fun k => (load k).isSome

theorem loadAll_apply (load : κ → Option β) (ks : List κ) (m : κ → Option β) (k : κ) :
    loadAll load ks m k = if k ∈ loadable load ks then load k else m k := by
  unfold loadable
  induction ks generalizing m with
  | nil => rfl
  | cons j ks ih =>
    unfold loadAll
    rw [List.takeWhile_cons]
    cases hj : load j with
    | none => simp
    | some value =>
      dsimp only
      rw [ih, Option.isSome_some, if_pos rfl]
      obtain rfl | hkj := eq_or_ne k j
      · rw [if_pos List.mem_cons_self, Function.update_self, hj, ite_self]
      · rw [Function.update_of_ne hkj]
        simp only [List.mem_cons, hkj, false_or]

omit [DecidableEq κ] in
theorem mem_loadable_first (load : κ → Option β) {pre post : List κ} {k : κ} (hnew : k ∉ pre) :
    k ∈ loadable load (pre ++ k :: post) ↔
      (load k).isSome = true ∧ ∀ j ∈ pre, (load j).isSome = true := by
  unfold loadable
  induction pre with
  | nil =>
    rw [List.nil_append, List.takeWhile_cons]
    cases load k <;> simp
  | cons j pre ih =>
    obtain ⟨hkj, hnew⟩ := not_or.mp (mt List.mem_cons.mpr hnew)
    rw [List.cons_append, List.takeWhile_cons]
    cases hj : load j with
    | none => simp [hj]
    | some value =>
      rw [Option.isSome_some, if_pos rfl, List.mem_cons, or_iff_right hkj, ih hnew]
      simp [hj]

omit [DecidableEq κ] in
theorem mem_of_mem_loadable {load : κ → Option β} {ks : List κ} {k : κ} (h : k ∈ loadable load ks) :
    k ∈ ks ∧ (load k).isSome = true :=
  ⟨List.takeWhile_subset _ h, List.mem_takeWhile_imp (p := fun k => (load k).isSome) h⟩

omit [DecidableEq κ] in
/-- What loads in one way before the first failure does so in any way that fails less. -/
theorem loadable_mono {γ : Type v} {load : κ → Option β} {load' : κ → Option γ}
    (h : ∀ k, (load k).isSome = true → (load' k).isSome = true) {ks : List κ} {k : κ}
    (hk : k ∈ loadable load ks) : k ∈ loadable load' ks := by
  obtain ⟨pre, post, rfl, hnew⟩ := List.eq_append_cons_of_mem (mem_of_mem_loadable hk).1
  obtain ⟨hload, hpre⟩ := (mem_loadable_first load hnew).mp hk
  exact (mem_loadable_first load' hnew).mpr ⟨h k hload, fun j hj => h j (hpre j hj)⟩

omit [DecidableEq κ] in
/-- The keys that load in the second way before its first failure are keys that load in the first
way before its own, when each of them has only such keys in front of it, or a failure. -/
theorem loadable_subset_iff {γ : Type v} {load : κ → Option β} {load' : κ → Option γ}
    (h : ∀ k, (load k).isSome = true → (load' k).isSome = true) (ks : List κ) :
    (∀ k ∈ loadable load' ks, (load k).isSome = true → k ∈ loadable load ks) ↔
      ∀ pre k post, ks = pre ++ k :: post → k ∉ pre → (load k).isSome = true →
        (∃ j ∈ pre, load' j = none) ∨ ∀ j ∈ pre, (load j).isSome = true := by
  constructor
  · rintro hsub pre k post rfl hnew hload
    by_cases hfail : ∃ j ∈ pre, load' j = none
    · exact Or.inl hfail
    · have hk : k ∈ loadable load' (pre ++ k :: post) :=
        (mem_loadable_first load' hnew).mpr ⟨h k hload, fun j hj =>
          Option.isSome_iff_ne_none.mpr fun hnone => hfail ⟨j, hj, hnone⟩⟩
      exact Or.inr ((mem_loadable_first load hnew).mp (hsub k hk hload)).2
  · intro hord k hk hload
    obtain ⟨pre, post, rfl, hnew⟩ := List.eq_append_cons_of_mem (mem_of_mem_loadable hk).1
    obtain ⟨-, hpre'⟩ := (mem_loadable_first load' hnew).mp hk
    refine (mem_loadable_first load hnew).mpr ⟨hload, ?_⟩
    refine (hord pre k post rfl hnew hload).resolve_left ?_
    rintro ⟨j, hj, hnone⟩
    exact Option.isSome_iff_ne_none.mp (hpre' j hj) hnone

omit [DecidableEq κ] in
theorem forall_mem_loadable_iff (load : κ → Option β) (ks : List κ) :
    (∀ k ∈ ks, k ∈ loadable load ks) ↔ ∀ k ∈ ks, (load k).isSome = true := by
  unfold loadable
  refine ⟨fun h k hk => List.mem_takeWhile_imp (p := fun k => (load k).isSome) (h k hk),
    fun h k hk => ?_⟩
  rwa [List.takeWhile_eq_self_iff.mpr h]

end KeyedLoad
