import Mathlib.Tactic
import Mathlib.Data.List.MinMax
import Mathlib.Order.PiLex
import Mathlib.Data.Nat.Choose.Sum

/-! # Distributing items over cells, in decreasing lexicographic order

`splits is k v` lists the ways to put `k` items into the cells `is` of a vector `v`: the first
cell gets all the items first, then one fewer at a time. It is complete (`mem_splits`) and strictly
decreasing in the lexicographic order (`splits_pairwise`), so the first minimum of a cost along it
is the greatest of the minima (`le_of_mem_argmin`). -/
namespace Distribution
set_option autoImplicit false

variable {ι : Type*} [DecidableEq ι]

def splits : List ι → ℕ → (ι → ℤ) → List (ι → ℤ)
  | [], k, v => if k = 0 then [v] else []
  | i :: is, k, v => (List.range (k + 1)).flatMap fun c => splits is c (Function.update v i (k - c))

theorem splits_congr (is : List ι) (k : ℕ) (v w : ι → ℤ) (h : ∀ j, j ∉ is → v j = w j) :
    splits is k v = splits is k w := by
  induction is generalizing k v w with
  | nil =>
    have hvw : v = w := by
      funext j
      exact h j (by simp)
    rw [hvw]
  | cons i is ih =>
    unfold splits
    congr 1
    funext c
    apply ih
    intro j hj
    by_cases hji : j = i
    · subst hji
      rw [Function.update_self, Function.update_self]
    · rw [Function.update_of_ne hji, Function.update_of_ne hji]
      exact h j (by simp [hji, hj])

theorem splits_frame (is : List ι) (k : ℕ) (v u : ι → ℤ) (hu : u ∈ splits is k v) (j : ι)
    (hj : j ∉ is) : u j = v j := by
  induction is generalizing k v with
  | nil =>
    unfold splits at hu
    split at hu
    · rw [List.mem_singleton.mp hu]
    · cases hu
  | cons i is ih =>
    obtain ⟨c, -, hu⟩ := List.mem_flatMap.mp hu
    rw [ih c _ hu (fun h => hj (by simp [h])),
      Function.update_of_ne (fun h => hj (by simp [h]))]

/-- The members are the vectors that agree with `v` off the cells and put `k` items into them. -/
theorem mem_splits (is : List ι) (k : ℕ) (v u : ι → ℤ) (hnd : is.Nodup) :
    u ∈ splits is k v ↔
      (∀ j, j ∉ is → u j = v j) ∧ (∀ i ∈ is, 0 ≤ u i) ∧ (is.map u).sum = k := by
  induction is generalizing k v with
  | nil =>
    unfold splits
    constructor
    · intro hu
      split at hu
      · rename_i hk
        rw [List.mem_singleton.mp hu]
        simp [hk]
      · cases hu
    · rintro ⟨hoff, -, hsum⟩
      have hk : k = 0 := by simpa using hsum.symm
      rw [if_pos hk, List.mem_singleton]
      funext j
      exact hoff j (by simp)
  | cons i is ih =>
    obtain ⟨hi, hnd⟩ := List.nodup_cons.mp hnd
    unfold splits
    rw [List.mem_flatMap]
    constructor
    · rintro ⟨c, hc, hu⟩
      have hc : c < k + 1 := List.mem_range.mp hc
      obtain ⟨hoff, hpos, hsum⟩ := (ih c _ hnd).mp hu
      have hui : u i = k - c := by rw [hoff i hi, Function.update_self]
      refine ⟨?_, ?_, ?_⟩
      · intro j hj
        rw [hoff j (fun h => hj (by simp [h])), Function.update_of_ne (fun h => hj (by simp [h]))]
      · intro j hj
        obtain rfl | hj := List.mem_cons.mp hj
        · omega
        · exact hpos j hj
      · rw [List.map_cons, List.sum_cons, hsum, hui]
        ring
    · rintro ⟨hoff, hpos, hsum⟩
      rw [List.map_cons, List.sum_cons] at hsum
      have hui : 0 ≤ u i := hpos i (by simp)
      have hrest : 0 ≤ (is.map u).sum := List.sum_nonneg (by
        intro x hx
        obtain ⟨j, hj, rfl⟩ := List.mem_map.mp hx
        exact hpos j (by simp [hj]))
      refine ⟨(is.map u).sum.toNat, List.mem_range.mpr (by omega), ?_⟩
      rw [ih _ _ hnd]
      refine ⟨?_, fun j hj => hpos j (by simp [hj]), by omega⟩
      intro j hj
      by_cases hji : j = i
      · subst hji
        rw [Function.update_self]
        omega
      · rw [Function.update_of_ne hji]
        exact hoff j (by simp [hji, hj])

theorem splits_ne_nil (is : List ι) (k : ℕ) (v : ι → ℤ) (h : is ≠ [] ∨ k = 0) :
    splits is k v ≠ [] := by
  induction is generalizing k v with
  | nil =>
    have hk : k = 0 := by simpa using h
    simp [splits, hk]
  | cons i is ih =>
    -- the first cell takes all the items and leaves none
    have hrest := ih 0 (Function.update v i (k - (0 : ℕ))) (Or.inr rfl)
    obtain ⟨u, hu⟩ := List.exists_mem_of_ne_nil _ hrest
    exact List.ne_nil_of_mem (List.mem_flatMap.mpr ⟨0, by simp, hu⟩)

theorem splits_singleton (i : ι) (k : ℕ) (v : ι → ℤ) :
    splits [i] k v = [Function.update v i k] := by
  -- only the first turn leaves no items behind
  have hrest : (List.range k).flatMap (fun c => splits [] (c + 1)
      (Function.update v i (k - (c + 1 : ℕ)))) = [] := by
    simp [splits]
  unfold splits
  rw [List.range_succ_eq_map, List.flatMap_cons, List.flatMap_map, hrest, List.append_nil, splits,
    if_pos rfl]
  simp

/-- Stars and bars. -/
theorem length_splits (i : ι) (is : List ι) (k : ℕ) (v : ι → ℤ) :
    (splits (i :: is) k v).length = (k + is.length).choose is.length := by
  induction is generalizing i k v with
  | nil => simp [splits_singleton]
  | cons j is ih =>
    rw [splits, List.length_flatMap, List.length_cons, ← add_assoc, ← Nat.sum_range_add_choose]
    simp only [ih]
    rfl

theorem splits_pairwise [LinearOrder ι] (is : List ι) (k : ℕ) (v : ι → ℤ)
    (hs : is.Pairwise (· < ·)) :
    (splits is k v).Pairwise fun a b => Pi.Lex (· < ·) (· < ·) b a := by
  induction is generalizing k v with
  | nil =>
    unfold splits
    split <;> simp
  | cons i is ih =>
    obtain ⟨hi, hs⟩ := List.pairwise_cons.mp hs
    have hni : i ∉ is := fun h => lt_irrefl i (hi i h)
    unfold splits
    rw [List.pairwise_flatMap]
    refine ⟨fun c _ => ih c _ hs, ?_⟩
    apply List.pairwise_lt_range.imp
    intro c c' hcc a ha b hb
    have hoffa := splits_frame is c _ a ha
    have hoffb := splits_frame is c' _ b hb
    refine ⟨i, ?_, ?_⟩
    · intro j hj
      have hjis : j ∉ is := fun h => lt_asymm hj (hi j h)
      rw [hoffa j hjis, hoffb j hjis, Function.update_of_ne hj.ne, Function.update_of_ne hj.ne]
    · rw [hoffa i hni, hoffb i hni, Function.update_self, Function.update_self]
      omega

/-! ## The running minimum -/

section RunningMinimum

variable {α : Type*}

/-- Keep the least value so far and the first element that has it; a negative value means that
nothing was seen yet. -/
def record (f : α → ℤ) (best : ℤ × α) (a : α) : ℤ × α :=
  if f a < best.1 ∨ best.1 < 0 then (f a, a) else best

/-- Over non-negative costs the fold of `record` is the first minimum of the list. -/
theorem foldl_record (f : α → ℤ) (b : α) (l : List α) (hf : ∀ a ∈ l, 0 ≤ f a) :
    l.foldl (record f) (-1, b) = (l.argmin f).elim (-1, b) fun m => (f m, m) := by
  induction l using List.reverseRecOn with
  | nil => rfl
  | append_singleton l a ih =>
    have hl : ∀ x ∈ l, 0 ≤ f x := fun x hx => hf x (by simp [hx])
    rw [List.foldl_append, ih hl, List.argmin_concat]
    cases hm : l.argmin f with
    | none => simp [record]
    | some m =>
      have hm0 : 0 ≤ f m := hl m (List.argmin_mem hm)
      by_cases hlt : f a < f m
      · simp [record, hlt]
      · simp [record, hlt, hm0]

/-- In a strictly decreasing list the first minimum is the greatest of the minima. -/
theorem le_of_mem_argmin {β : Type*} [LinearOrder β] [DecidableEq α] {f : α → ℤ} {g : α → β}
    {l : List α} {m a : α} (hl : l.Pairwise fun a b => g b < g a) (hm : m ∈ l.argmin f)
    (ha : a ∈ l) (hle : f a ≤ f m) : g a ≤ g m := by
  have hidx := List.index_of_argmin hm ha hle
  have hml : m ∈ l := List.argmin_mem hm
  obtain heq | hlt := hidx.eq_or_lt
  · rw [(List.idxOf_inj hml).mp heq]
  · have h := List.pairwise_iff_getElem.mp hl _ _ (List.idxOf_lt_length_of_mem hml)
      (List.idxOf_lt_length_of_mem ha) hlt
    simpa using h.le

end RunningMinimum

end Distribution
