import Mathlib.Tactic
import FpgaMl.Foundation.MachineInt

/-! The fixed-capacity ring `CircArray` (circ_array.hpp), on which every queue of the program
rests. The bookkeeping invariant is carried by the structure, so `start` and `size` never leave
the storage. `toList` is the sequence the ring holds, and each operation has one law about it. -/
namespace FpgaMl
open MachineInt
set_option autoImplicit false

inductive RingRC
  | success
  | noSpaceError
  | bufferEmptyError
  deriving DecidableEq, Repr

/-- `CircArray<T>`: the storage and the three counters. -/
structure CircArray (α : Type) where
  array : List α
  start : ℕ
  size : ℕ
  capacity : ℕ
  array_length : array.length = capacity
  size_le : size ≤ capacity
  start_le : start ≤ capacity - 1

namespace CircArray

variable {α : Type} [Inhabited α]

/-- `set_initial_values`: default-constructed storage, nothing stored. -/
def new (capacity : ℕ) : CircArray α where
  array := List.replicate capacity default
  start := 0
  size := 0
  capacity := capacity
  array_length := List.length_replicate
  size_le := Nat.zero_le _
  start_le := Nat.zero_le _

def cell (a : CircArray α) (index : ℕ) : α := a.array.getD ((a.start + index) % a.capacity) default

/-- The sequence held: the cells at offsets below `size`. -/
def toList (a : CircArray α) : List α := (List.range a.size).map a.cell

def occupancy (a : CircArray α) : ℕ := a.size
def isFull (a : CircArray α) : Bool := a.size == a.capacity
def empty (a : CircArray α) : Bool := a.size == 0

/-- The `size_t` value `_size - 1`, which wraps on an empty ring. -/
def lastIndex (a : CircArray α) : ℕ := if a.size = 0 then 2 ^ 64 - 1 else a.size - 1

/-- `operator[]`; `none` is the `invalid_index_exception`. -/
def get (a : CircArray α) (index : ℕ) : Option α :=
  if a.lastIndex < index then none else some (a.cell index)

/-- Assignment through `operator[]` at an index that is in range. -/
def setCell (a : CircArray α) (index : ℕ) (value : α) : CircArray α where
  array := a.array.set ((a.start + index) % a.capacity) value
  start := a.start
  size := a.size
  capacity := a.capacity
  array_length := by rw [List.length_set, a.array_length]
  size_le := a.size_le
  start_le := a.start_le

/-- `push_back` with the default `overwrite_when_full = false`. -/
def pushBack (a : CircArray α) (value : α) : RingRC × CircArray α :=
  if h : a.size = a.capacity then (.noSpaceError, a)
  else (.success,
    { array := a.array.set ((a.start + a.size) % a.capacity) value
      start := a.start
      size := a.size + 1
      capacity := a.capacity
      array_length := by rw [List.length_set, a.array_length]
      size_le := by have := a.size_le; omega
      start_le := a.start_le })

/-- `push_front` with the default `overwrite_when_full = false`. -/
def pushFront (a : CircArray α) (value : α) : RingRC × CircArray α :=
  if h : a.size = a.capacity then (.noSpaceError, a)
  else
    let start := if a.start = 0 then a.capacity - 1 else a.start - 1
    (.success,
      { array := a.array.set start value
        start := start
        size := a.size + 1
        capacity := a.capacity
        array_length := by rw [List.length_set, a.array_length]
        size_le := by have := a.size_le; omega
        start_le := by have := a.start_le; simp only [start]; split <;> omega })

/-- `pop_front`; `none` is the refusal on an empty ring (`BUFFER_EMPTY_ERROR`, which the by-value
form turns into an `empty_buffer_exception`), and leaves the ring as it was. -/
def popFront (a : CircArray α) : Option (α × CircArray α) :=
  if h : a.size = 0 then none
  else some (a.cell 0,
    { array := a.array
      start := (a.start + 1) % a.capacity
      size := a.size - 1
      capacity := a.capacity
      array_length := a.array_length
      size_le := by have := a.size_le; omega
      start_le := by
        have := a.size_le
        have := Nat.mod_lt (a.start + 1) (show 0 < a.capacity by omega)
        omega })

/-- `pop_back`, with the same refusal. -/
def popBack (a : CircArray α) : Option (α × CircArray α) :=
  if a.size = 0 then none
  else some (a.cell (a.size - 1),
    { array := a.array
      start := a.start
      size := a.size - 1
      capacity := a.capacity
      array_length := a.array_length
      size_le := by have := a.size_le; omega
      start_le := a.start_le })

/-- The shifting loop of `pop_at`, from index `i` on; `steps` bounds the iterations left. -/
def popAtLoop (a : CircArray α) (i : ℕ) : ℕ → CircArray α
  | 0 => a
  | steps + 1 =>
    if i < a.size then
      if i = a.size - 1 then
        popAtLoop ((a.popBack.map Prod.snd).getD a) (i + 1) steps
      else popAtLoop (a.setCell i (a.cell (i + 1))) (i + 1) steps
    else a

/-- `pop_at`. The counter of its loop is an `int`, compared as a `size_t`. A `none` is the
`invalid_index_exception` or the overflow of that counter. -/
def popAt (a : CircArray α) (index : ℕ) : Option (α × CircArray α) :=
  (a.get index).bind fun element =>
    if a.size ≤ toU64 (i32 index) then some (element, a)
    else if 2 ^ 31 ≤ a.size then none
    else some (element, a.popAtLoop (toU64 (i32 index)) a.size)

/-- `push_back` with the flag `overwrite_when_full`; `none` is the `empty_buffer_exception` of a
ring without capacity, or the assertion behind `pop_front`. -/
def pushBackWith (a : CircArray α) (value : α) (overwrite : Bool) : Option (RingRC × CircArray α) :=
  if a.isFull && overwrite then
    a.popFront.bind fun popped =>
      if popped.2.isFull then none else some (popped.2.pushBack value)
  else some (a.pushBack value)

def pushFrontWith (a : CircArray α) (value : α) (overwrite : Bool) :
    Option (RingRC × CircArray α) :=
  if a.isFull && overwrite then
    a.popBack.bind fun popped =>
      if popped.2.isFull then none else some (popped.2.pushFront value)
  else some (a.pushFront value)

/-- The first `k` turns of the copying loop of `resize_by_two`. -/
def copyCells (a : CircArray α) (temp : List α) (k : ℕ) : List α :=
  (List.range k).foldl (fun temp i => temp.set i (a.cell i)) temp

@[simp] theorem length_copyCells (a : CircArray α) (temp : List α) (k : ℕ) :
    (a.copyCells temp k).length = temp.length := by
  unfold copyCells
  induction k with
  | zero => rfl
  | succ k ih => rw [List.range_succ, List.foldl_append, List.foldl_cons, List.foldl_nil,
      List.length_set, ih]

/-- `resize_by_two`. A `none` is the overflow of the counter of its loop, which is an `int`, or
the exception of `new` for a storage that no object may have. -/
def resizeByTwo (a : CircArray α) : Option (CircArray α) :=
  if 2 ^ 31 ≤ a.size ∨ 2 ^ 63 ≤ a.capacity * 2 then none
  else some
    { array := a.copyCells (List.replicate (a.capacity * 2) default) a.size
      start := 0
      size := a.size
      capacity := a.capacity * 2
      array_length := by rw [length_copyCells, List.length_replicate]
      size_le := a.size_le.trans (Nat.le_mul_of_pos_right _ two_pos)
      start_le := Nat.zero_le _ }

/-! ## Cells -/

theorem mod_cancel {s i j c : ℕ} (hi : i < c) (hj : j < c) (h : (s + i) % c = (s + j) % c) :
    i = j :=
  Nat.ModEq.eq_of_lt_of_lt (Nat.ModEq.add_left_cancel' s h) hi hj

theorem getD_set (l : List α) (p q : ℕ) (v : α) (hp : p < l.length) :
    (l.set p v).getD q default = if q = p then v else l.getD q default := by
  by_cases h : q = p
  · subst h
    simp [List.getD_eq_getElem?_getD, hp]
  · simp [List.getD_eq_getElem?_getD, Ne.symm h, h]

omit [Inhabited α] in
theorem index_lt (a : CircArray α) {i : ℕ} (hi : i < a.capacity) :
    (a.start + i) % a.capacity < a.array.length := by
  rw [a.array_length]
  exact Nat.mod_lt _ (by omega)

theorem cell_setCell (a : CircArray α) {i j : ℕ} (hi : i < a.capacity) (hj : j < a.capacity)
    (v : α) : (a.setCell j v).cell i = if i = j then v else a.cell i := by
  unfold cell setCell
  rw [getD_set _ _ _ _ (a.index_lt hj)]
  by_cases h : i = j
  · subst h
    simp
  · rw [if_neg h, if_neg (fun he => h (mod_cancel hi hj he))]

@[simp] theorem length_toList (a : CircArray α) : a.toList.length = a.size := by
  simp [toList]

theorem getElem_toList (a : CircArray α) (i : ℕ) (h : i < a.toList.length) :
    a.toList[i] = a.cell i := by
  simp [toList]

@[simp] theorem toList_new (c : ℕ) : (new c : CircArray α).toList = [] := rfl
@[simp] theorem capacity_new (c : ℕ) : (new c : CircArray α).capacity = c := rfl

theorem length_le_capacity (a : CircArray α) : a.toList.length ≤ a.capacity := by
  rw [length_toList]
  exact a.size_le

theorem empty_iff (a : CircArray α) : a.empty = true ↔ a.toList = [] := by
  rw [← List.length_eq_zero_iff, length_toList]
  simp [empty]

theorem isFull_iff (a : CircArray α) : a.isFull = true ↔ a.toList.length = a.capacity := by
  simp [isFull]

theorem toList_ne_nil (a : CircArray α) (hpos : 0 < a.capacity) (h : a.isFull = true) :
    a.toList ≠ [] := by
  intro hnil
  rw [isFull_iff, hnil, List.length_nil] at h
  omega

/-! ## Pushes -/

omit [Inhabited α] in
theorem pushBack_full (a : CircArray α) (v : α) (h : a.isFull = true) :
    a.pushBack v = (.noSpaceError, a) := by
  have h' : a.size = a.capacity := by simpa [isFull] using h
  simp [pushBack, h']

omit [Inhabited α] in
@[simp] theorem capacity_pushBack (a : CircArray α) (v : α) :
    (a.pushBack v).2.capacity = a.capacity := by
  unfold pushBack
  split <;> rfl

theorem toList_pushBack (a : CircArray α) (v : α) (h : a.isFull = false) :
    (a.pushBack v).2.toList = a.toList ++ [v] := by
  have hne : a.size ≠ a.capacity := by simpa [isFull] using h
  have hlt : a.size < a.capacity := lt_of_le_of_ne a.size_le hne
  have hcell : ∀ i, i ≤ a.size → (a.pushBack v).2.cell i = if i = a.size then v else a.cell i := by
    intro i hi
    have := a.cell_setCell (i := i) (j := a.size) (by omega) hlt v
    simpa [pushBack, hne, cell, setCell] using this
  have hsize : (a.pushBack v).2.size = a.size + 1 := by simp [pushBack, hne]
  unfold toList
  rw [hsize, List.range_succ, List.map_append, List.map_singleton, hcell _ le_rfl, if_pos rfl]
  congr 1
  apply List.map_congr_left
  intro i hi
  have hi : i < a.size := List.mem_range.mp hi
  rw [hcell i hi.le, if_neg hi.ne]

theorem toList_pushBack_eq (a : CircArray α) (v : α) :
    (a.pushBack v).2.toList = if a.isFull then a.toList else a.toList ++ [v] := by
  cases h : a.isFull with
  | true => simp [pushBack_full a v h]
  | false => simpa using toList_pushBack a v h

theorem pushBack_ne_nil (a : CircArray α) (v : α) (hpos : 0 < a.capacity) :
    (a.pushBack v).2.toList ≠ [] := by
  rw [toList_pushBack_eq]
  cases hf : a.isFull with
  | false => simp
  | true => exact a.toList_ne_nil hpos hf

omit [Inhabited α] in
theorem pushFront_full (a : CircArray α) (v : α) (h : a.isFull = true) :
    a.pushFront v = (.noSpaceError, a) := by
  have h' : a.size = a.capacity := by simpa [isFull] using h
  simp [pushFront, h']

omit [Inhabited α] in
@[simp] theorem capacity_pushFront (a : CircArray α) (v : α) :
    (a.pushFront v).2.capacity = a.capacity := by
  unfold pushFront
  split <;> rfl

theorem toList_pushFront (a : CircArray α) (v : α) (h : a.isFull = false) :
    (a.pushFront v).2.toList = v :: a.toList := by
  have hne : a.size ≠ a.capacity := by simpa [isFull] using h
  have hlt : a.size < a.capacity := lt_of_le_of_ne a.size_le hne
  have hs := a.start_le
  set s := if a.start = 0 then a.capacity - 1 else a.start - 1 with hsdef
  have hslt : s < a.array.length := by
    rw [a.array_length]
    simp only [hsdef]
    split <;> omega
  have hnext : (s + 1) % a.capacity = a.start := by
    simp only [hsdef]
    split
    · rename_i h0
      rw [Nat.sub_add_cancel (by omega), Nat.mod_self, h0]
    · rw [Nat.sub_add_cancel (by omega), Nat.mod_eq_of_lt (by omega)]
  have hsize : (a.pushFront v).2.size = a.size + 1 := by simp [pushFront, hne]
  have hcell : ∀ i, i ≤ a.size →
      (a.pushFront v).2.cell i = if i = 0 then v else a.cell (i - 1) := by
    intro i hi
    have hdef : (a.pushFront v).2.cell i =
        (a.array.set s v).getD ((s + i) % a.capacity) default := by
      simp [pushFront, hne, cell, hsdef]
    have hs0 : (s + 0) % a.capacity = s := by
      rw [Nat.add_zero, Nat.mod_eq_of_lt (by rw [← a.array_length]; exact hslt)]
    rw [hdef, getD_set _ _ _ _ hslt]
    by_cases h0 : i = 0
    · rw [h0, hs0, if_pos rfl, if_pos rfl]
    · have hne' : (s + i) % a.capacity ≠ s := by
        intro he
        exact h0 (mod_cancel (c := a.capacity) (s := s) (by omega) (by omega) (he.trans hs0.symm))
      have hidx : (s + i) % a.capacity = (a.start + (i - 1)) % a.capacity := by
        conv_rhs => rw [← hnext]
        rw [Nat.mod_add_mod]
        congr 1
        omega
      rw [if_neg hne', if_neg h0, hidx]
      rfl
  unfold toList
  rw [hsize, List.range_succ_eq_map, List.map_cons, List.map_map, hcell 0 (Nat.zero_le _), if_pos rfl]
  congr 1
  apply List.map_congr_left
  intro i hi
  have hi : i < a.size := List.mem_range.mp hi
  simp [hcell (i + 1) (by omega)]

/-! ## Pops -/

theorem popFront_eq_none (a : CircArray α) : a.popFront = none ↔ a.toList = [] := by
  rw [← List.length_eq_zero_iff, length_toList]
  unfold popFront
  split <;> simp_all

theorem toList_eq_cons (a : CircArray α) (h : a.size ≠ 0) :
    a.toList = a.cell 0 :: (List.range (a.size - 1)).map fun i => a.cell (i + 1) := by
  obtain ⟨k, hk⟩ := Nat.exists_eq_succ_of_ne_zero h
  unfold toList
  rw [hk, List.range_succ_eq_map, List.map_cons, List.map_map]
  rfl

theorem toList_eq_concat (a : CircArray α) (h : a.size ≠ 0) :
    a.toList = (List.range (a.size - 1)).map a.cell ++ [a.cell (a.size - 1)] := by
  obtain ⟨k, hk⟩ := Nat.exists_eq_succ_of_ne_zero h
  unfold toList
  rw [hk, List.range_succ, List.map_append, List.map_singleton]
  rfl

theorem toList_popFront {a b : CircArray α} {v : α} (h : a.popFront = some (v, b)) :
    a.toList = v :: b.toList ∧ b.capacity = a.capacity := by
  unfold popFront at h
  split at h
  · cases h
  · rename_i h0
    simp only [Option.some.injEq, Prod.mk.injEq] at h
    obtain ⟨rfl, rfl⟩ := h
    refine ⟨?_, rfl⟩
    rw [toList_eq_cons a h0]
    congr 1
    apply List.map_congr_left
    intro i _
    simp only [cell, Nat.mod_add_mod]
    congr 2
    omega

theorem popFront_cons {a : CircArray α} {v : α} {l : List α} (h : a.toList = v :: l) :
    ∃ b, a.popFront = some (v, b) ∧ b.toList = l ∧ b.capacity = a.capacity := by
  cases hp : a.popFront with
  | none => rw [(popFront_eq_none a).mp hp] at h; cases h
  | some p =>
    obtain ⟨w, b⟩ := p
    obtain ⟨hl, hc⟩ := toList_popFront hp
    rw [h] at hl
    obtain ⟨rfl, rfl⟩ := List.cons.inj hl
    exact ⟨b, rfl, rfl, hc⟩

theorem toList_popBack {a b : CircArray α} {v : α} (h : a.popBack = some (v, b)) :
    a.toList = b.toList ++ [v] ∧ b.capacity = a.capacity := by
  unfold popBack at h
  split at h
  · cases h
  · rename_i h0
    simp only [Option.some.injEq, Prod.mk.injEq] at h
    obtain ⟨rfl, rfl⟩ := h
    exact ⟨toList_eq_concat a h0, rfl⟩

theorem popBack_eq_none (a : CircArray α) : a.popBack = none ↔ a.toList = [] := by
  rw [← List.length_eq_zero_iff, length_toList]
  unfold popBack
  split <;> simp_all

/-! ## The element at an index -/

theorem getElem?_toList (a : CircArray α) {k : ℕ} (hk : k < a.size) :
    a.toList[k]? = some (a.cell k) := by
  have hlt : k < a.toList.length := by rwa [length_toList]
  rw [List.getElem?_eq_getElem hlt, getElem_toList]

theorem get_of_lt (a : CircArray α) {k : ℕ} (hk : k < a.size) : a.get k = some (a.cell k) := by
  unfold get lastIndex
  rw [if_neg (show ¬ a.size = 0 by omega), if_neg (by omega)]

theorem toList_setCell (a : CircArray α) {k : ℕ} (hk : k < a.size) (v : α) :
    (a.setCell k v).toList = a.toList.set k v := by
  have hcap := a.size_le
  have hlen : (a.setCell k v).toList.length = (a.toList.set k v).length := by
    rw [List.length_set, length_toList, length_toList]
    rfl
  apply List.ext_getElem hlen
  intro i hi _
  have hi : i < a.size := by rwa [length_toList] at hi
  rw [getElem_toList, List.getElem_set, getElem_toList, cell_setCell _ (by omega) (by omega)]
  simp only [eq_comm]

omit [Inhabited α] in
theorem set_eraseIdx (l : List α) {k : ℕ} (hk : k + 1 < l.length) :
    (l.set k l[k + 1]).eraseIdx (k + 1) = l.eraseIdx k := by
  induction l generalizing k with
  | nil => exact absurd hk (Nat.not_lt_zero _)
  | cons x l ih =>
    cases k with
    | zero =>
      cases l with
      | nil => exact absurd hk (lt_irrefl 1)
      | cons y l => rfl
    | succ k => exact congrArg (List.cons x) (ih (Nat.lt_of_succ_lt_succ hk))

theorem popAtLoop_done (a : CircArray α) {i : ℕ} (hi : a.size ≤ i) (steps : ℕ) :
    a.popAtLoop i steps = a := by
  cases steps with
  | zero => rfl
  | succ steps => rw [popAtLoop, if_neg (not_lt.mpr hi)]

/-- The loop shifts the elements behind index `i` by one and removes the last. -/
theorem toList_popAtLoop (a : CircArray α) {i steps : ℕ} (hi : i < a.size)
    (hsteps : a.size ≤ i + steps) :
    (a.popAtLoop i steps).toList = a.toList.eraseIdx i ∧
      (a.popAtLoop i steps).capacity = a.capacity := by
  induction steps generalizing a i with
  | zero => omega
  | succ steps ih =>
    rw [popAtLoop, if_pos hi]
    by_cases hlast : i = a.size - 1
    · rw [if_pos hlast]
      cases hp : a.popBack with
      | none =>
        have hnil := a.length_toList
        rw [(popBack_eq_none a).mp hp, List.length_nil] at hnil
        omega
      | some p =>
        obtain ⟨v, b⟩ := p
        obtain ⟨hl, hc⟩ := toList_popBack hp
        have hlen := congrArg List.length hl
        rw [List.length_append, length_toList, length_toList, List.length_singleton] at hlen
        rw [Option.map_some, Option.getD_some, b.popAtLoop_done (by omega), hl]
        refine ⟨?_, hc⟩
        rw [List.eraseIdx_append_of_length_le (by rw [length_toList]; omega), length_toList,
          show i - b.size = 0 by omega, List.eraseIdx_cons_zero, List.append_nil]
    · rw [if_neg hlast]
      have hnext : i + 1 < a.size := by omega
      obtain ⟨hl, hc⟩ := ih (a.setCell i (a.cell (i + 1))) hnext
        (show a.size ≤ i + 1 + steps by omega)
      refine ⟨?_, hc⟩
      have hlt : i + 1 < a.toList.length := by rwa [length_toList]
      rw [hl, toList_setCell a hi, ← getElem_toList a (i + 1) hlt, set_eraseIdx a.toList hlt]

theorem popAt_of_lt (a : CircArray α) {k : ℕ} (hk : k < a.size) (hsize : a.size < 2 ^ 31) :
    a.popAt k = some (a.cell k, a.popAtLoop k a.size) := by
  have hcount : toU64 (i32 k) = k := by
    rw [i32_natCast (by omega), toU64_natCast (by omega)]
  unfold popAt
  rw [a.get_of_lt hk, Option.bind_some, hcount, if_neg (by omega), if_neg (by omega)]

/-! ## Resizing -/

theorem getD_copyCells (a : CircArray α) (temp : List α) {k : ℕ} (hk : k ≤ temp.length) {p : ℕ}
    (hp : p < k) : (a.copyCells temp k).getD p default = a.cell p := by
  induction k with
  | zero => omega
  | succ k ih =>
    have hfold : a.copyCells temp (k + 1) = (a.copyCells temp k).set k (a.cell k) := by
      unfold copyCells
      rw [List.range_succ, List.foldl_append]
      rfl
    rw [hfold, getD_set _ _ _ _ (by rw [length_copyCells]; omega)]
    by_cases hpk : p = k
    · rw [if_pos hpk, hpk]
    · rw [if_neg hpk]
      exact ih (by omega) (by omega)

theorem resizeByTwo_eq_none {a : CircArray α} :
    a.resizeByTwo = none ↔ 2 ^ 31 ≤ a.size ∨ 2 ^ 63 ≤ a.capacity * 2 := by
  unfold resizeByTwo
  split
  · rename_i hwide
    exact iff_of_true rfl hwide
  · rename_i hwide
    exact iff_of_false (Option.some_ne_none _) hwide

theorem resizeByTwo_eq_some {a b : CircArray α} (h : a.resizeByTwo = some b) :
    b.toList = a.toList ∧ b.capacity = a.capacity * 2 := by
  obtain ⟨-, h⟩ := Option.ite_none_left_eq_some.mp h
  obtain rfl := Option.some.inj h
  refine ⟨?_, rfl⟩
  apply List.map_congr_left
  intro i hi
  have hi : i < a.size := List.mem_range.mp hi
  have hcap := a.size_le
  unfold cell
  dsimp only
  rw [Nat.zero_add, Nat.mod_eq_of_lt (by omega)]
  exact a.getD_copyCells _ (by rw [List.length_replicate]; omega) hi

end CircArray

end FpgaMl
