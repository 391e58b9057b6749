import Mathlib.Tactic
import FpgaMl.Foundation.Loops
import FpgaMl.CircArrayErrors

/-! # Copies of a ring

`deep_copy` gives the destination new storage before it copies through `operator[]`, so that a ring
assigned to itself copies what the new storage holds. The storage of an `int` is not initialised:
what it holds is a parameter. A copy with the same sequence and capacity answers as the ring itself
for as long as no index is put to an empty ring. -/
namespace FpgaMl
open MachineInt Loops
set_option autoImplicit false

/-- What is done with a ring: its calls, an assignment through the reference of `operator[]`, the
resizing and the questions about its size. -/
inductive RingUse (α : Type)
  | call (c : RingCall α)
  | write (index : ℕ) (value : α)
  | resizeByTwo
  | occupancy
  | capacity
  | isFull
  | empty

inductive RingAnswer (α : Type)
  | result (r : RingResult α)
  | done
  | number (n : ℕ)
  | flag (b : Bool)

/-- The uses that take an index. -/
def RingUse.indexes {α : Type} : RingUse α → Bool
  | call (.popAt _) => true
  | call (.index _) => true
  | write .. => true
  | _ => false

namespace CircArray

variable {α : Type} [Inhabited α]

def write (a : CircArray α) (index : ℕ) (value : α) : RingAnswer α × CircArray α :=
  match a.index index with
  | .error e => (.result (.throws e), a)
  | .ok _ => (.done, a.setCell index value)

/-- One use with its answer; `none` is an assertion that fails or an `int` that overflows. -/
def perform (a : CircArray α) : RingUse α → Option (RingAnswer α × CircArray α)
  | .call c => (a.call c).map fun p => (.result p.1, p.2)
  | .write k v => some (a.write k v)
  | .resizeByTwo => a.resizeByTwo.map fun b => (.done, b)
  | .occupancy => some (.number a.occupancy, a)
  | .capacity => some (.number a.capacity, a)
  | .isFull => some (.flag a.isFull, a)
  | .empty => some (.flag a.empty, a)

/-- The answers to a sequence of uses, up to the first that has none. -/
def answers : CircArray α → List (RingUse α) → List (RingAnswer α)
  | _, [] => []
  | a, u :: us => (a.perform u).elim [] fun p => p.1 :: answers p.2 us

/-- No use of the sequence puts an index to an empty ring. -/
def Guarded : CircArray α → List (RingUse α) → Prop
  | _, [] => True
  | a, u :: us => (u.indexes = true → a.occupancy ≠ 0) ∧
    ∀ r b, a.perform u = some (r, b) → Guarded b us

/-! ## The copying -/

section Objects

variable {ι : Type} [DecidableEq ι]

/-- The destination in front of the loop of `deep_copy`: the counters of `rhs`, and new storage
whose cell `p` holds `fresh p`. -/
def renewed (fresh : ℕ → α) (rhs : CircArray α) : CircArray α where
  array := (List.range rhs.capacity).map fresh
  start := rhs.start
  size := rhs.size
  capacity := rhs.capacity
  array_length := by rw [List.length_map, List.length_range]
  size_le := rhs.size_le
  start_le := rhs.start_le

/-- `lhs[i] = rhs[i]`; the two names may denote one object. -/
def copyCell (lhs rhs : ι) (objects : ι → CircArray α) (i : ℕ) : Option (ι → CircArray α) :=
  ((objects rhs).get i).bind fun value => ((objects lhs).get i).map fun _ =>
    Function.update objects lhs ((objects lhs).setCell i value)

/-- `deep_copy`; `none` is an exception, or the overflow of the counter, which is an `int`. -/
def deepCopy (fresh : ℕ → α) (objects : ι → CircArray α) (lhs rhs : ι) : Option (ι → CircArray α) :=
  let objects := Function.update objects lhs ((objects rhs).renewed fresh)
  if 2 ^ 31 ≤ (objects rhs).size then none
  else (List.range (objects rhs).size).foldlM (copyCell lhs rhs) objects

/-- `operator=`. -/
def assign (fresh : ℕ → α) (objects : ι → CircArray α) (lhs rhs : ι) : Option (ι → CircArray α) :=
  deepCopy fresh objects lhs rhs

/-- The copy constructor: the object under construction, here `none`, has no storage yet. -/
def copyConstruct (fresh : ℕ → α) (objects : ι → CircArray α) (copy : ι) :
    Option (Option ι → CircArray α) :=
  deepCopy fresh (fun o => o.elim (new 0) objects) none (some copy)

end Objects

/-! ## What a copy is -/

/-- The copy has the capacity and the sequence, and answers to the sequences of uses `later` as the
ring itself. -/
structure Copied (later : List (RingUse α) → Prop) (copy a : CircArray α) : Prop where
  capacity : copy.capacity = a.capacity
  toList : copy.toList = a.toList
  answers : ∀ us, later us → copy.answers us = a.answers us

/-- The assignment makes a copy of `rhs` as it was before, and touches no other object. -/
def AssignCopies {ι : Type} [DecidableEq ι] (later : List (RingUse α) → Prop) (fresh : ℕ → α)
    (objects : ι → CircArray α) (lhs rhs : ι) : Prop :=
  ∃ copy, assign fresh objects lhs rhs = some (Function.update objects lhs copy) ∧
    copy.Copied later (objects rhs)

def ConstructCopies {ι : Type} [DecidableEq ι] (later : List (RingUse α) → Prop) (fresh : ℕ → α)
    (objects : ι → CircArray α) (rhs : ι) : Prop :=
  ∃ copy : CircArray α, copyConstruct fresh objects rhs = some (fun o => o.elim copy objects) ∧
    copy.Copied later (objects rhs)

/-- The new storage happens to hold what the ring holds at the offsets `offsets`. -/
def Held (fresh : ℕ → α) (a : CircArray α) (offsets : ℕ → Prop) : Prop :=
  ∀ i < a.capacity, offsets i → fresh ((a.start + i) % a.capacity) = a.cell i

/-! ## Rings that answer alike -/

structure Alike (a b : CircArray α) : Prop where
  toList : a.toList = b.toList
  capacity : a.capacity = b.capacity

/-- Both calls fail, or both give the same answer and leave rings that are alike. -/
def Matched {β : Type} : Option (β × CircArray α) → Option (β × CircArray α) → Prop :=
  Option.Rel fun p q => p.1 = q.1 ∧ p.2.Alike q.2

theorem Matched.of_alike {β : Type} {r : β} {a b : CircArray α} (h : a.Alike b) :
    Matched (some (r, a)) (some (r, b)) := .some ⟨rfl, h⟩

theorem Matched.map {β γ : Type} {x y : Option (β × CircArray α)} (f : β → γ) (h : Matched x y) :
    Matched (x.map fun p => (f p.1, p.2)) (y.map fun p => (f p.1, p.2)) := by
  cases h with
  | none => exact .none
  | some h => exact .some ⟨congrArg f h.1, h.2⟩

section Alike

variable {a b : CircArray α}

theorem Alike.size (h : a.Alike b) : a.size = b.size := by
  rw [← a.length_toList, ← b.length_toList, h.toList]

theorem Alike.cell (h : a.Alike b) {k : ℕ} (hk : k < a.size) : a.cell k = b.cell k := by
  have heq := a.getElem?_toList hk
  rw [h.toList, b.getElem?_toList (h.size ▸ hk)] at heq
  exact (Option.some.inj heq).symm

theorem Alike.isFull (h : a.Alike b) : a.isFull = b.isFull := by
  unfold CircArray.isFull
  rw [h.size, h.capacity]

theorem Alike.empty (h : a.Alike b) : a.empty = b.empty := by
  unfold CircArray.empty
  rw [h.size]

theorem Alike.lastIndex (h : a.Alike b) : a.lastIndex = b.lastIndex := by
  unfold CircArray.lastIndex
  rw [h.size]

theorem Alike.setCell (h : a.Alike b) {k : ℕ} (hk : k < a.size) (v : α) :
    (a.setCell k v).Alike (b.setCell k v) := by
  refine ⟨?_, h.capacity⟩
  rw [toList_setCell a hk, toList_setCell b (h.size ▸ hk), h.toList]

/-! ### Pushes and pops -/

/-- A push at either end: what it makes of the list decides. -/
theorem Alike.pushed {push : CircArray α → RingRC × CircArray α} (extend : List α → List α)
    (hfull : ∀ c : CircArray α, c.isFull = true → push c = (.noSpaceError, c))
    (hcode : ∀ c : CircArray α, c.isFull = false → (push c).1 = .success)
    (hlist : ∀ c : CircArray α, c.isFull = false → (push c).2.toList = extend c.toList)
    (hcap : ∀ c : CircArray α, (push c).2.capacity = c.capacity) (h : a.Alike b) :
    (push a).1 = (push b).1 ∧ (push a).2.Alike (push b).2 := by
  cases ha : a.isFull with
  | true =>
    rw [hfull a ha, hfull b (h.isFull ▸ ha)]
    exact ⟨rfl, h⟩
  | false =>
    have hb : b.isFull = false := h.isFull ▸ ha
    refine ⟨?_, ?_, ?_⟩
    · rw [hcode a ha, hcode b hb]
    · rw [hlist a ha, hlist b hb, h.toList]
    · rw [hcap, hcap, h.capacity]

theorem Alike.pushBack (h : a.Alike b) (v : α) : (a.pushBack v).1 = (b.pushBack v).1 ∧
    (a.pushBack v).2.Alike (b.pushBack v).2 := by
  exact Alike.pushed (fun l => l ++ [v]) (fun c => c.pushBack_full v) (fun c => c.pushBack_code v)
    (fun c => c.toList_pushBack v) (fun c => c.capacity_pushBack v) h

theorem Alike.pushFront (h : a.Alike b) (v : α) : (a.pushFront v).1 = (b.pushFront v).1 ∧
    (a.pushFront v).2.Alike (b.pushFront v).2 := by
  exact Alike.pushed (List.cons v) (fun c => c.pushFront_full v) (fun c => c.pushFront_code v)
    (fun c => c.toList_pushFront v) (fun c => c.capacity_pushFront v) h

/-- A pop at either end: the list is put together again in one way only. -/
theorem Alike.popped {pop : CircArray α → Option (α × CircArray α)} (join : α → List α → List α)
    (hnone : ∀ c : CircArray α, pop c = none ↔ c.toList = [])
    (hsome : ∀ {c d : CircArray α} {v : α}, pop c = some (v, d) →
      c.toList = join v d.toList ∧ d.capacity = c.capacity)
    (hjoin : ∀ {v w : α} {l m : List α}, join v l = join w m → v = w ∧ l = m) (h : a.Alike b) :
    Matched (pop a) (pop b) := by
  cases ha : pop a with
  | none =>
    rw [(hnone b).mpr (h.toList ▸ (hnone a).mp ha)]
    exact .none
  | some p =>
    cases hb : pop b with
    | none =>
      rw [(hnone a).mpr (h.toList.trans ((hnone b).mp hb))] at ha
      cases ha
    | some q =>
      obtain ⟨hl, hc⟩ := hsome ha
      obtain ⟨hl', hc'⟩ := hsome hb
      obtain ⟨hvalue, hrest⟩ := hjoin (hl.symm.trans (h.toList.trans hl'))
      exact .some ⟨hvalue, hrest, by rw [hc, hc', h.capacity]⟩

theorem Alike.popFront (h : a.Alike b) : Matched a.popFront b.popFront := by
  exact Alike.popped List.cons popFront_eq_none toList_popFront List.cons.inj h

theorem Alike.popBack (h : a.Alike b) : Matched a.popBack b.popBack := by
  refine Alike.popped (fun v l => l ++ [v]) popBack_eq_none toList_popBack ?_ h
  intro v w l m heq
  obtain ⟨hrest, hlast⟩ := List.append_inj' heq rfl
  exact ⟨(List.cons.inj hlast).1, hrest⟩

/-- A push at either end, with or without the pop in front of it. -/
theorem Alike.push {push : CircArray α → RingRC × CircArray α}
    {pop : CircArray α → Option (α × CircArray α)} (h : a.Alike b) (overwrite : Bool)
    (hpush : ∀ {c d : CircArray α}, c.Alike d → (push c).1 = (push d).1 ∧ (push c).2.Alike (push d).2)
    (hpop : Matched (pop a) (pop b)) :
    Matched (if a.isFull && overwrite then
        (pop a).bind fun p => if p.2.isFull then none else some (push p.2)
      else some (push a))
      (if b.isFull && overwrite then
        (pop b).bind fun p => if p.2.isFull then none else some (push p.2)
      else some (push b)) := by
  rw [h.isFull]
  split
  · generalize pop a = x at hpop
    generalize pop b = y at hpop
    cases hpop with
    | none => exact .none
    | some hpq =>
      rw [Option.bind_some, Option.bind_some, hpq.2.isFull]
      split
      · exact .none
      · exact .some (hpush hpq.2)
  · exact .some (hpush h)

theorem Alike.into {x y : Option (α × CircArray α)} (h : a.Alike b) (hpop : Matched x y) (v : α) :
    (a.into v x).1 = (b.into v y).1 ∧ (a.into v x).2.1 = (b.into v y).2.1 ∧
      (a.into v x).2.2.Alike (b.into v y).2.2 := by
  cases hpop with
  | none => exact ⟨rfl, rfl, h⟩
  | some hpq => exact ⟨rfl, hpq⟩

theorem Alike.popBackInto (h : a.Alike b) (v : α) : (a.popBackInto v).1 = (b.popBackInto v).1 ∧
    (a.popBackInto v).2.1 = (b.popBackInto v).2.1 ∧
      (a.popBackInto v).2.2.Alike (b.popBackInto v).2.2 := by
  rw [popBackInto_eq, popBackInto_eq]
  exact h.into h.popBack v

theorem Alike.popFrontInto (h : a.Alike b) (v : α) :
    (a.popFrontInto v).1 = (b.popFrontInto v).1 ∧
      (a.popFrontInto v).2.1 = (b.popFrontInto v).2.1 ∧
        (a.popFrontInto v).2.2.Alike (b.popFrontInto v).2.2 := by
  rw [popFrontInto_eq, popFrontInto_eq]
  exact h.into h.popFront v

theorem Alike.byValue {x y : RingRC × α × CircArray α} (hcode : x.1 = y.1) (hvalue : x.2.1 = y.2.1)
    (hrest : x.2.2.Alike y.2.2) : (CircArray.byValue x).1 = (CircArray.byValue y).1 ∧
      (CircArray.byValue x).2.Alike (CircArray.byValue y).2 := by
  unfold CircArray.byValue
  rw [hcode, hvalue]
  exact ⟨rfl, hrest⟩

/-! ### Indices -/

theorem Alike.index (h : a.Alike b) (hne : a.occupancy ≠ 0) (k : ℕ) : a.index k = b.index k := by
  unfold CircArray.index
  rw [h.lastIndex]
  split
  · rfl
  · rename_i hk
    rw [← h.lastIndex, lastIndex_of_ne_zero hne] at hk
    unfold occupancy at hne
    rw [h.cell (by omega)]

theorem Alike.popAt (h : a.Alike b) (hne : a.occupancy ≠ 0) (k : ℕ) :
    Matched (a.popAt k) (b.popAt k) := by
  unfold occupancy at hne
  unfold CircArray.popAt get
  rw [h.lastIndex]
  split
  · exact .none
  · rename_i hk
    rw [← h.lastIndex, lastIndex_of_ne_zero hne] at hk
    rw [Option.bind_some, Option.bind_some, h.cell (by omega), h.size]
    split
    · exact Matched.of_alike h
    · rename_i hcount
      split
      · exact .none
      · rw [← h.size] at hcount ⊢
        obtain ⟨hl, hc⟩ := a.toList_popAtLoop (not_le.mp hcount) (Nat.le_add_left a.size _)
        rw [h.size] at hcount
        obtain ⟨hl', hc'⟩ := b.toList_popAtLoop (not_le.mp hcount) (Nat.le_add_left b.size _)
        rw [← h.size] at hl' hc'
        exact Matched.of_alike ⟨by rw [hl, hl', h.toList], by rw [hc, hc', h.capacity]⟩

theorem Alike.popAtValue (h : a.Alike b) (hne : a.occupancy ≠ 0) (k : ℕ) :
    Matched (a.popAtValue k) (b.popAtValue k) := by
  rw [popAtValue_eq, popAtValue_eq, h.lastIndex]
  split
  · exact Matched.of_alike h
  · exact (h.popAt hne k).map Except.ok

theorem Alike.write (h : a.Alike b) (hne : a.occupancy ≠ 0) (k : ℕ) (v : α) :
    (a.write k v).1 = (b.write k v).1 ∧ (a.write k v).2.Alike (b.write k v).2 := by
  have hindex := h.index hne k
  unfold CircArray.write
  cases hk : a.index k with
  | error e =>
    rw [← hindex, hk]
    exact ⟨rfl, h⟩
  | ok w =>
    rw [← hindex, hk]
    refine ⟨rfl, h.setCell ?_ v⟩
    by_contra hout
    rw [(a.index_throws_iff k).mpr (by rw [lastIndex_of_ne_zero hne]; unfold occupancy at hne; omega)]
      at hk
    cases hk

theorem Alike.resizeByTwo (h : a.Alike b) :
    Matched (a.resizeByTwo.map fun c => ((RingAnswer.done : RingAnswer α), c))
      (b.resizeByTwo.map fun c => (RingAnswer.done, c)) := by
  have hnone : a.resizeByTwo = none ↔ b.resizeByTwo = none := by
    rw [resizeByTwo_eq_none, resizeByTwo_eq_none, h.size, h.capacity]
  cases ha : a.resizeByTwo with
  | none =>
    rw [hnone.mp ha]
    exact .none
  | some c =>
    cases hb : b.resizeByTwo with
    | none =>
      rw [hnone.mpr hb] at ha
      cases ha
    | some d =>
      obtain ⟨hl, hc⟩ := resizeByTwo_eq_some ha
      obtain ⟨hl', hc'⟩ := resizeByTwo_eq_some hb
      exact Matched.of_alike ⟨by rw [hl, hl', h.toList], by rw [hc, hc', h.capacity]⟩

/-! ### Sequences of uses -/

theorem Alike.call (h : a.Alike b) {c : RingCall α}
    (hne : (RingUse.call c).indexes = true → a.occupancy ≠ 0) : Matched (a.call c) (b.call c) := by
  cases c with
  | pushBack v overwrite =>
    exact (h.push overwrite (fun hcd => hcd.pushBack v) h.popFront).map RingResult.code
  | pushFront v overwrite =>
    exact (h.push overwrite (fun hcd => hcd.pushFront v) h.popBack).map RingResult.code
  | popBackInto v =>
    obtain ⟨hcode, hvalue, hrest⟩ := h.popBackInto v
    exact .some ⟨congrArg₂ RingResult.into hcode hvalue, hrest⟩
  | popFrontInto v =>
    obtain ⟨hcode, hvalue, hrest⟩ := h.popFrontInto v
    exact .some ⟨congrArg₂ RingResult.into hcode hvalue, hrest⟩
  | popBack =>
    obtain ⟨hcode, hvalue, hrest⟩ := h.popBackInto default
    obtain ⟨hanswer, hrest⟩ := Alike.byValue hcode hvalue hrest
    exact .some ⟨congrArg answered hanswer, hrest⟩
  | popFront =>
    obtain ⟨hcode, hvalue, hrest⟩ := h.popFrontInto default
    obtain ⟨hanswer, hrest⟩ := Alike.byValue hcode hvalue hrest
    exact .some ⟨congrArg answered hanswer, hrest⟩
  | popAt k => exact (h.popAtValue (hne rfl) k).map answered
  | index k => exact .some ⟨congrArg answered (h.index (hne rfl) k), h⟩

/-- One use, on rings that are alike. -/
theorem Alike.perform (h : a.Alike b) {u : RingUse α} (hne : u.indexes = true → a.occupancy ≠ 0) :
    Matched (a.perform u) (b.perform u) := by
  cases u with
  | call c => exact (h.call hne).map RingAnswer.result
  | write k v => exact .some (h.write (hne rfl) k v)
  | resizeByTwo => exact h.resizeByTwo
  | occupancy => exact .some ⟨congrArg RingAnswer.number h.size, h⟩
  | capacity => exact .some ⟨congrArg RingAnswer.number h.capacity, h⟩
  | isFull => exact .some ⟨congrArg RingAnswer.flag h.isFull, h⟩
  | empty => exact .some ⟨congrArg RingAnswer.flag h.empty, h⟩

theorem Alike.answers (h : a.Alike b) {us : List (RingUse α)} (hguarded : a.Guarded us) :
    a.answers us = b.answers us := by
  induction us generalizing a b with
  | nil => rfl
  | cons u us ih =>
    obtain ⟨hne, hrest⟩ := hguarded
    have hstep := h.perform hne
    unfold CircArray.answers
    generalize hx : a.perform u = x at hstep hrest
    generalize b.perform u = y at hstep
    cases hstep with
    | none => rfl
    | some hpq =>
      rename_i p q
      change p.1 :: p.2.answers us = q.1 :: q.2.answers us
      rw [hpq.1, ih hpq.2 (hrest p.1 p.2 rfl)]

end Alike

/-! ## What the copying leaves -/

section Copying

variable {ι : Type} [DecidableEq ι] {fresh : ℕ → α} {objects : ι → CircArray α} {lhs rhs : ι}
  {a : CircArray α}

/-- The destination after the first `k` turns of the loop, if it is another object. -/
def filled (fresh : ℕ → α) (a : CircArray α) (k : ℕ) : CircArray α :=
  (List.range k).foldl (fun c i => c.setCell i (a.cell i)) (a.renewed fresh)

theorem filled_succ (fresh : ℕ → α) (a : CircArray α) (k : ℕ) :
    a.filled fresh (k + 1) = (a.filled fresh k).setCell k (a.cell k) := by
  unfold filled
  rw [List.range_succ, List.foldl_append]
  rfl

theorem filled_counters (fresh : ℕ → α) (a : CircArray α) (k : ℕ) :
    (a.filled fresh k).start = a.start ∧ (a.filled fresh k).size = a.size ∧
      (a.filled fresh k).capacity = a.capacity := by
  induction k with
  | zero => exact ⟨rfl, rfl, rfl⟩
  | succ k ih =>
    rw [filled_succ]
    exact ih

theorem cell_renewed (fresh : ℕ → α) (a : CircArray α) {i : ℕ} (hi : i < a.capacity) :
    (a.renewed fresh).cell i = fresh ((a.start + i) % a.capacity) := by
  have hpos : (a.start + i) % a.capacity < a.capacity := Nat.mod_lt _ (by omega)
  unfold cell renewed
  dsimp only
  rw [List.getD_eq_getElem?_getD, List.getElem?_map, List.getElem?_range hpos]
  rfl

/-- The cells behind the turn `k` still hold what the new storage held. -/
theorem cell_filled (fresh : ℕ → α) (a : CircArray α) {k i : ℕ} (hk : k ≤ a.capacity)
    (hi : i < a.capacity) : (a.filled fresh k).cell i =
      if i < k then a.cell i else fresh ((a.start + i) % a.capacity) := by
  induction k with
  | zero => exact a.cell_renewed fresh hi
  | succ k ih =>
    obtain ⟨-, -, hcap⟩ := a.filled_counters fresh k
    rw [filled_succ, cell_setCell _ (hcap ▸ hi) (by omega), ih (by omega)]
    by_cases hik : i = k
    · rw [if_pos hik, if_pos (by omega), hik]
    · rw [if_neg hik]
      simp only [show i < k + 1 ↔ i < k by omega]

theorem setCell_cell (a : CircArray α) {i : ℕ} (hi : i < a.capacity) :
    a.setCell i (a.cell i) = a := by
  have hlt := a.index_lt hi
  have harray : a.array.set ((a.start + i) % a.capacity) (a.cell i) = a.array := by
    unfold cell
    rw [List.getD_eq_getElem?_getD, List.getElem?_eq_getElem hlt, Option.getD_some,
      List.set_getElem_self]
  unfold setCell
  simp only [harray]

theorem copyCell_update {c : CircArray α} {k : ℕ} (hrhs : Function.update objects lhs c rhs = a)
    (ha : k < a.size) (hc : k < c.size) : copyCell lhs rhs (Function.update objects lhs c) k =
      some (Function.update objects lhs (c.setCell k (a.cell k))) := by
  unfold copyCell
  rw [hrhs, a.get_of_lt ha, Function.update_self, c.get_of_lt hc, Option.bind_some,
    Option.map_some, Function.update_idem]

theorem deepCopy_other (hne : lhs ≠ rhs) (hsize : (objects rhs).size < 2 ^ 31) :
    deepCopy fresh objects lhs rhs =
      some (Function.update objects lhs ((objects rhs).filled fresh (objects rhs).size)) := by
  have hrhs : ∀ c, Function.update objects lhs c rhs = objects rhs := fun c =>
    Function.update_of_ne hne.symm c objects
  unfold deepCopy
  dsimp only
  rw [hrhs, if_neg (not_le.mpr hsize)]
  refine foldlM_range (s := fun k => Function.update objects lhs ((objects rhs).filled fresh k))
    fun k hk => ?_
  rw [copyCell_update (hrhs _) hk (by rwa [((objects rhs).filled_counters fresh k).2.1]), filled_succ]

/-- Of a ring that is assigned to itself only the counters are left. -/
theorem deepCopy_self (hsize : (objects rhs).size < 2 ^ 31) :
    deepCopy fresh objects rhs rhs =
      some (Function.update objects rhs ((objects rhs).renewed fresh)) := by
  have hself := Function.update_self (f := objects) rhs ((objects rhs).renewed fresh)
  have hcap := ((objects rhs).renewed fresh).size_le
  have hwide : ¬ 2 ^ 31 ≤ ((objects rhs).renewed fresh).size := not_le.mpr hsize
  unfold deepCopy
  dsimp only
  rw [hself, if_neg hwide]
  refine foldlM_range (s := fun _ => Function.update objects rhs ((objects rhs).renewed fresh))
    fun k hk => ?_
  have hk : k < ((objects rhs).renewed fresh).size := hk
  rw [copyCell_update hself hk hk, setCell_cell _ (hk.trans_le hcap)]

theorem deepCopy_wide (hsize : 2 ^ 31 ≤ (objects rhs).size) :
    deepCopy fresh objects lhs rhs = none := by
  unfold deepCopy
  dsimp only
  rw [if_pos]
  obtain rfl | hne := eq_or_ne lhs rhs
  · rwa [Function.update_self]
  · rwa [Function.update_of_ne hne.symm]

end Copying

/-! ## What tells a copy from the ring -/

section Counters

variable {a c : CircArray α}

structure SameCounters (c a : CircArray α) : Prop where
  start : c.start = a.start
  size : c.size = a.size
  capacity : c.capacity = a.capacity

theorem SameCounters.toList_eq_iff (h : c.SameCounters a) :
    c.toList = a.toList ↔ ∀ i < a.size, c.cell i = a.cell i := by
  constructor
  · intro hl i hi
    exact Alike.cell ⟨hl, h.capacity⟩ (h.size ▸ hi)
  · intro hcell
    unfold toList
    rw [h.size]
    exact List.map_congr_left fun i hi => hcell i (List.mem_range.mp hi)

/-- Every cell of the storage is at some offset. -/
theorem SameCounters.eq_of_cells (h : c.SameCounters a)
    (hcell : ∀ i < a.capacity, c.cell i = a.cell i) : c = a := by
  obtain ⟨array, start, size, capacity, hlen, hsize, hstart⟩ := a
  obtain ⟨array', start', size', capacity', hlen', hsize', hstart'⟩ := c
  obtain ⟨rfl, rfl, rfl⟩ := h
  have harray : array' = array := by
    refine List.ext_getElem (hlen'.trans hlen.symm) fun p hp' hp => ?_
    have hoffset : ∃ i < capacity', (start' + i) % capacity' = p := by
      dsimp only at hstart
      by_cases hle : start' ≤ p
      · exact ⟨p - start', by omega, by rw [Nat.add_sub_cancel' hle, Nat.mod_eq_of_lt (by omega)]⟩
      · refine ⟨p + capacity' - start', by omega, ?_⟩
        rw [Nat.add_sub_cancel' (by omega), Nat.add_mod_right, Nat.mod_eq_of_lt (by omega)]
    obtain ⟨i, hi, rfl⟩ := hoffset
    have heq := hcell i hi
    unfold cell at heq
    dsimp only at heq
    rwa [List.getD_eq_getElem?_getD, List.getD_eq_getElem?_getD, List.getElem?_eq_getElem hp',
      List.getElem?_eq_getElem hp] at heq
  simp only [harray]

/-- The last element is removed and its cell is left as it is. -/
theorem popBackValue_keeps (a : CircArray α) (h : a.size ≠ 0) : ∃ v b,
    a.popBackValue = (.ok v, b) ∧ b.size + 1 = a.size ∧ ∀ i, b.cell i = a.cell i := by
  obtain ⟨v, b, hpop, hvalue⟩ := a.popBackValue_of_ne_zero h
  unfold popBack at hpop
  rw [if_neg h] at hpop
  obtain ⟨-, rfl⟩ := Prod.mk.inj (Option.some.inj hpop)
  exact ⟨v, _, hvalue, Nat.sub_add_cancel (Nat.pos_of_ne_zero h), fun i => rfl⟩

/-- A sequence of uses on a ring that was emptied from the back. -/
theorem answers_emptied (a : CircArray α) (us : List (RingUse α)) :
    ∃ (rs : List (RingAnswer α)) (b : CircArray α), b.size = 0 ∧ (∀ i, b.cell i = a.cell i) ∧
      a.answers (List.replicate a.size (.call .popBack) ++ us) = rs ++ b.answers us := by
  generalize hn : a.size = n
  induction n generalizing a with
  | zero => exact ⟨[], a, hn, fun i => rfl, rfl⟩
  | succ n ih =>
    obtain ⟨v, b, hvalue, hsize, hcell⟩ := a.popBackValue_keeps (by omega)
    obtain ⟨rs, d, hempty, hcells, hrs⟩ := ih b (by omega)
    refine ⟨.result (.value v) :: rs, d, hempty, fun i => (hcells i).trans (hcell i), ?_⟩
    rw [List.replicate_succ, List.cons_append, answers, List.cons_append, ← hrs]
    simp [perform, call, hvalue, answered]

/-- An index put to an empty ring reads a cell without an element. -/
theorem index_empty {b : CircArray α} (hempty : b.size = 0) {i : ℕ} (hi : i < 2 ^ 64) :
    b.answers [.call (.index i)] = [.result (.value (b.cell i))] := by
  have hlast : ¬ b.lastIndex < i := by
    unfold lastIndex
    rw [if_pos hempty]
    omega
  simp [answers, perform, call, index, hlast, answered]

/-- Until an empty ring is indexed, the cells of the elements decide. -/
theorem SameCounters.copied_guarded_iff (h : c.SameCounters a) :
    c.Copied a.Guarded a ↔ ∀ i < a.capacity, i < a.size → c.cell i = a.cell i := by
  have hcells : (∀ i < a.capacity, i < a.size → c.cell i = a.cell i) ↔ c.toList = a.toList := by
    rw [h.toList_eq_iff]
    exact ⟨fun hcell i hi => hcell i (hi.trans_le a.size_le) hi, fun hcell i _ => hcell i⟩
  rw [hcells]
  constructor
  · intro hc
    exact hc.toList
  · intro hl
    have halike : a.Alike c := ⟨hl.symm, h.capacity.symm⟩
    exact ⟨h.capacity, hl, fun us hus => (halike.answers hus).symm⟩

/-- For all sequences of uses it takes all the cells. -/
theorem SameCounters.copied_all_iff (h : c.SameCounters a) (hcap : a.capacity ≤ 2 ^ 64) :
    c.Copied (fun _ => True) a ↔ ∀ i < a.capacity, True → c.cell i = a.cell i := by
  constructor
  · intro hc i hi _
    have hsame := hc.answers (List.replicate a.size (.call .popBack) ++ [.call (.index i)]) trivial
    obtain ⟨rs, b, hempty, hcell, hrs⟩ := a.answers_emptied [.call (.index i)]
    obtain ⟨rs', b', hempty', hcell', hrs'⟩ := c.answers_emptied [.call (.index i)]
    rw [hrs, ← h.size, hrs', index_empty hempty (hi.trans_le hcap),
      index_empty hempty' (hi.trans_le hcap)] at hsame
    have hlast := (List.cons.inj (List.append_inj' hsame rfl).2).1
    rw [← hcell, ← hcell']
    exact RingResult.value.inj (RingAnswer.result.inj hlast)
  · intro hcell
    rw [h.eq_of_cells fun i hi => hcell i hi trivial]
    exact ⟨rfl, rfl, fun _ _ => rfl⟩

end Counters

section Preserves

variable {ι : Type} [DecidableEq ι] (fresh : ℕ → α) (objects : ι → CircArray α) (lhs rhs : ι)
  {later : List (RingUse α) → Prop} {offsets : ℕ → Prop}

/-- If the cells at `offsets` decide what is a copy, the new storage decides at those that the loop
does not write: all of them if the two names denote one object. -/
theorem deepCopy_copies_iff
    (hlater : ∀ c : CircArray α, c.SameCounters (objects rhs) → (c.Copied later (objects rhs) ↔
      ∀ i < (objects rhs).capacity, offsets i → c.cell i = (objects rhs).cell i)) :
    (∃ copy, deepCopy fresh objects lhs rhs = some (Function.update objects lhs copy) ∧
      copy.Copied later (objects rhs)) ↔ (objects rhs).size < 2 ^ 31 ∧
        (objects rhs).Held fresh fun i => offsets i ∧ (lhs = rhs ∨ (objects rhs).size ≤ i) := by
  obtain hwide | hsize := le_or_gt (2 ^ 31) (objects rhs).size
  · refine iff_of_false ?_ fun h => absurd h.1 (not_lt.mpr hwide)
    rintro ⟨copy, hcopy, -⟩
    rw [deepCopy_wide hwide] at hcopy
    cases hcopy
  · have hmade : ∀ c : CircArray α, c.SameCounters (objects rhs) →
        deepCopy fresh objects lhs rhs = some (Function.update objects lhs c) →
          ((∃ copy, deepCopy fresh objects lhs rhs = some (Function.update objects lhs copy) ∧
            copy.Copied later (objects rhs)) ↔
              ∀ i < (objects rhs).capacity, offsets i → c.cell i = (objects rhs).cell i) := by
      intro c hc heq
      rw [← hlater c hc]
      constructor
      · rintro ⟨copy, hcopy, hcopied⟩
        rw [heq, Option.some.injEq] at hcopy
        rwa [Function.update_injective objects lhs hcopy]
      · exact fun h => ⟨c, heq, h⟩
    rw [and_iff_right hsize]
    obtain rfl | hne := eq_or_ne lhs rhs
    · rw [hmade ((objects lhs).renewed fresh) ⟨rfl, rfl, rfl⟩ (deepCopy_self hsize)]
      refine forall₂_congr fun i hi => ?_
      simp only [cell_renewed _ _ hi, true_or, and_true]
    · obtain ⟨hstart, hcount, hcap⟩ := (objects rhs).filled_counters fresh (objects rhs).size
      rw [hmade _ ⟨hstart, hcount, hcap⟩ (deepCopy_other hne hsize)]
      refine forall₂_congr fun i hi => ?_
      simp only [cell_filled _ _ (objects rhs).size_le hi, hne, false_or]
      split
      · rename_i hlt
        exact iff_of_true (fun _ => rfl) fun h => absurd h.2 (not_le.mpr hlt)
      · rename_i hle
        rw [and_iff_left (not_lt.mp hle)]

theorem constructCopies_iff
    (hlater : ∀ c : CircArray α, c.SameCounters (objects rhs) → (c.Copied later (objects rhs) ↔
      ∀ i < (objects rhs).capacity, offsets i → c.cell i = (objects rhs).cell i)) :
    ConstructCopies later fresh objects rhs ↔ (objects rhs).size < 2 ^ 31 ∧
      (objects rhs).Held fresh fun i => offsets i ∧ (objects rhs).size ≤ i := by
  have hnew : ∀ copy : CircArray α,
      Function.update (fun o : Option ι => o.elim (new 0) objects) none copy =
        fun o => o.elim copy objects := by
    intro copy
    funext o
    cases o with
    | none => exact Function.update_self ..
    | some o => exact Function.update_of_ne (Option.some_ne_none o) ..
  have hcopies := deepCopy_copies_iff fresh (fun o : Option ι => o.elim (new 0) objects) none
    (some rhs) hlater
  simp only [hnew, (Option.some_ne_none rhs).symm, false_or] at hcopies
  exact hcopies

/-- An assignment and a copy construction make copies, except where the counter of the loop overflows
and where a ring is assigned to itself. If an index may be put to an empty ring, then the new storage
must also hold by chance what the cells without an element hold. -/
theorem copy_preserves_iff :
    (AssignCopies (objects rhs).Guarded fresh objects lhs rhs ↔ (objects rhs).size < 2 ^ 31 ∧
      (lhs = rhs → (objects rhs).Held fresh fun i => i < (objects rhs).size)) ∧
    (ConstructCopies (objects rhs).Guarded fresh objects rhs ↔ (objects rhs).size < 2 ^ 31) ∧
    ((objects rhs).capacity ≤ 2 ^ 64 →
      (AssignCopies (fun _ => True) fresh objects lhs rhs ↔ (objects rhs).size < 2 ^ 31 ∧
        (objects rhs).Held fresh fun i => lhs = rhs ∨ (objects rhs).size ≤ i) ∧
      (ConstructCopies (fun _ => True) fresh objects rhs ↔ (objects rhs).size < 2 ^ 31 ∧
        (objects rhs).Held fresh fun i => (objects rhs).size ≤ i)) := by
  have hguarded := fun (c : CircArray α) (hc : c.SameCounters (objects rhs)) => hc.copied_guarded_iff
  refine ⟨?_, ?_, fun hcap => ?_⟩
  · refine (deepCopy_copies_iff _ _ _ _ hguarded).trans (and_congr_right fun hsize => ?_)
    constructor
    · intro h heq i hi hlt
      exact h i hi ⟨hlt, Or.inl heq⟩
    · rintro h i hi ⟨hlt, heq | hle⟩
      · exact h heq i hi hlt
      · exact absurd hlt (not_lt.mpr hle)
  · refine (constructCopies_iff _ _ _ hguarded).trans (and_iff_left ?_)
    rintro i hi ⟨hlt, hle⟩
    exact absurd hlt (not_lt.mpr hle)
  · have hall := fun (c : CircArray α) (hc : c.SameCounters (objects rhs)) => hc.copied_all_iff hcap
    have hassign := deepCopy_copies_iff fresh objects lhs rhs hall
    have hconstruct := constructCopies_iff fresh objects rhs hall
    simp only [true_and] at hassign hconstruct
    exact ⟨hassign, hconstruct⟩

end Preserves

/-- A ring with one element is assigned to itself; a ring that was emptied is copied and indexed. -/
theorem copies_lost :
    ((new 1 : CircArray ℕ).pushBack 5).2.toList = [5] ∧
    (assign (fun _ => 0) (fun _ : Unit => ((new 1).pushBack 5).2) () ()).map
      (fun after => (after ()).toList) = some [0] ∧
    ¬ AssignCopies ((new 1).pushBack 5).2.Guarded (fun _ => 0)
      (fun _ : Unit => ((new 1).pushBack 5).2) () () ∧
    ¬ ConstructCopies (fun _ => True) (fun _ => 0)
      (fun _ : Unit => ((new 1).pushBack 5).2.popFrontValue.2) () := by
  have hassigned : (assign (fun _ => 0) (fun _ : Unit => ((new 1 : CircArray ℕ).pushBack 5).2)
      () ()).map (fun after => (after ()).toList) = some [0] := by
    decide +kernel
  refine ⟨by decide +kernel, hassigned, ?_, ?_⟩
  · rintro ⟨copy, hcopy, hcopied⟩
    rw [hcopy, Option.map_some, Function.update_self, hcopied.toList] at hassigned
    exact absurd hassigned (by decide +kernel)
  · intro h
    have hall := (constructCopies_iff _ _ _ fun c hc => hc.copied_all_iff (by decide +kernel)).mp h
    exact absurd (hall.2 0 (by decide +kernel) ⟨trivial, by decide +kernel⟩) (by decide +kernel)

end CircArray

end FpgaMl
