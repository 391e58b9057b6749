import Mathlib.Tactic
import FpgaMl.CircArrayDeque

/-! # The error paths of the ring

Every member function with the code it returns or the exception it throws, and the ring as it is
afterwards. What fails changes nothing. The test of an index compares with `_size - 1`, which wraps
on an empty ring, so that there no index is refused. -/
namespace FpgaMl
open MachineInt
set_option autoImplicit false

inductive RingException
  | invalidIndex
  | emptyBuffer
  deriving DecidableEq, Repr

/-- The calls of a ring. The pops by reference take what the reference held before. -/
inductive RingCall (α : Type)
  | pushBack (value : α) (overwriteWhenFull : Bool)
  | pushFront (value : α) (overwriteWhenFull : Bool)
  | popBackInto (value : α)
  | popFrontInto (value : α)
  | popBack
  | popFront
  | popAt (index : ℕ)
  | index (index : ℕ)

/-- A return code, a return code with what a reference holds, a value, or an exception. -/
inductive RingResult (α : Type)
  | code (rc : RingRC)
  | into (rc : RingRC) (value : α)
  | value (v : α)
  | throws (e : RingException)

def RingResult.Failed {α : Type} : RingResult α → Prop
  | code rc => rc ≠ .success
  | into rc _ => rc ≠ .success
  | value _ => False
  | throws _ => True

namespace CircArray

variable {α : Type} [Inhabited α]

/-- `operator[]`. -/
def index (a : CircArray α) (index : ℕ) : Except RingException α :=
  if a.lastIndex < index then .error .invalidIndex else .ok (a.cell index)

/-- `pop_back` into a reference that holds `value`, with what it holds afterwards. -/
def popBackInto (a : CircArray α) (value : α) : RingRC × α × CircArray α :=
  match a.popBack with
  | none => (.bufferEmptyError, value, a)
  | some (v, b) => (.success, v, b)

def popFrontInto (a : CircArray α) (value : α) : RingRC × α × CircArray α :=
  match a.popFront with
  | none => (.bufferEmptyError, value, a)
  | some (v, b) => (.success, v, b)

/-- What the pops by value make of a pop by reference. -/
def byValue (popped : RingRC × α × CircArray α) : Except RingException α × CircArray α :=
  (if popped.1 = .success then .ok popped.2.1 else .error .emptyBuffer, popped.2.2)

def popBackValue (a : CircArray α) : Except RingException α × CircArray α :=
  byValue (a.popBackInto default)

def popFrontValue (a : CircArray α) : Except RingException α × CircArray α :=
  byValue (a.popFrontInto default)

/-- The loop of `pop_at` with the tests of the `operator[]` and the `pop_back` it calls. -/
def popAtShift (a : CircArray α) (i : ℕ) : ℕ → Except RingException Unit × CircArray α
  | 0 => (.ok (), a)
  | steps + 1 =>
    if i < a.size then
      if i = a.lastIndex then
        match a.popBackValue with
        | (.error e, b) => (.error e, b)
        | (.ok _, b) => popAtShift b (i + 1) steps
      else
        match a.index (i + 1), a.index i with
        | .error e, _ => (.error e, a)
        | _, .error e => (.error e, a)
        | .ok v, .ok _ => popAtShift (a.setCell i v) (i + 1) steps
    else (.ok (), a)

/-- `pop_at`, with the exceptions of everything it calls; `none` is the overflow of its counter. -/
def popAtValue (a : CircArray α) (index : ℕ) : Option (Except RingException α × CircArray α) :=
  match a.index index with
  | .error e => some (.error e, a)
  | .ok element =>
    if a.size ≤ toU64 (i32 index) then some (.ok element, a)
    else if 2 ^ 31 ≤ a.size then none
    else
      match a.popAtShift (toU64 (i32 index)) a.size with
      | (.error e, b) => some (.error e, b)
      | (.ok _, b) => some (.ok element, b)

def answered (r : Except RingException α) : RingResult α :=
  match r with
  | .ok v => .value v
  | .error e => .throws e

def call (a : CircArray α) : RingCall α → Option (RingResult α × CircArray α)
  | .pushBack v overwrite => (a.pushBackWith v overwrite).map fun p => (.code p.1, p.2)
  | .pushFront v overwrite => (a.pushFrontWith v overwrite).map fun p => (.code p.1, p.2)
  | .popBackInto v => let p := a.popBackInto v; some (.into p.1 p.2.1, p.2.2)
  | .popFrontInto v => let p := a.popFrontInto v; some (.into p.1 p.2.1, p.2.2)
  | .popBack => let p := a.popBackValue; some (answered p.1, p.2)
  | .popFront => let p := a.popFrontValue; some (answered p.1, p.2)
  | .popAt k => (a.popAtValue k).map fun p => (answered p.1, p.2)
  | .index k => some (answered (a.index k), a)

/-- A pop into a reference that holds `value`, at either end. -/
def into (a : CircArray α) (value : α) (popped : Option (α × CircArray α)) :
    RingRC × α × CircArray α :=
  popped.elim (.bufferEmptyError, value, a) fun p => (.success, p.1, p.2)

theorem popBackInto_eq (a : CircArray α) (v : α) : a.popBackInto v = a.into v a.popBack := by
  unfold popBackInto
  cases a.popBack <;> rfl

theorem popFrontInto_eq (a : CircArray α) (v : α) : a.popFrontInto v = a.into v a.popFront := by
  unfold popFrontInto
  cases a.popFront <;> rfl

/-! ## What the calls inside `pop_at` answer -/

omit [Inhabited α] in
theorem lastIndex_of_ne_zero {a : CircArray α} (h : a.size ≠ 0) : a.lastIndex = a.size - 1 :=
  if_neg h

theorem index_of_lt (a : CircArray α) {k : ℕ} (hk : k < a.size) : a.index k = .ok (a.cell k) := by
  unfold index
  rw [lastIndex_of_ne_zero (by omega), if_neg (by omega)]

theorem popBackValue_of_ne_zero (a : CircArray α) (h : a.size ≠ 0) :
    ∃ v b, a.popBack = some (v, b) ∧ a.popBackValue = (.ok v, b) := by
  refine ⟨_, _, if_neg h, ?_⟩
  unfold popBackValue popBackInto popBack byValue
  rw [if_neg h]
  rfl

/-- Nothing that the loop calls throws. -/
theorem popAtShift_eq (a : CircArray α) (i steps : ℕ) :
    a.popAtShift i steps = (.ok (), a.popAtLoop i steps) := by
  induction steps generalizing a i with
  | zero => rfl
  | succ steps ih =>
    rw [popAtShift, popAtLoop]
    by_cases hi : i < a.size
    · rw [if_pos hi, if_pos hi, lastIndex_of_ne_zero (by omega)]
      by_cases hlast : i = a.size - 1
      · obtain ⟨v, b, hpop, hvalue⟩ := a.popBackValue_of_ne_zero (by omega)
        rw [if_pos hlast, if_pos hlast, hvalue, hpop]
        exact ih b (i + 1)
      · rw [if_neg hlast, if_neg hlast, a.index_of_lt (by omega), a.index_of_lt hi]
        exact ih _ (i + 1)
    · rw [if_neg hi, if_neg hi]

theorem popAtValue_eq (a : CircArray α) (k : ℕ) : a.popAtValue k =
    if a.lastIndex < k then some (.error .invalidIndex, a)
    else (a.popAt k).map fun p => (.ok p.1, p.2) := by
  unfold popAtValue popAt index get
  by_cases hk : a.lastIndex < k
  · rw [if_pos hk, if_pos hk]
  · rw [if_neg hk, if_neg hk, if_neg hk]
    simp only [popAtShift_eq, Option.bind_some]
    split
    · rfl
    · split <;> rfl

theorem popAtValue_throws_iff (a : CircArray α) (k : ℕ) :
    (∃ b, a.popAtValue k = some (.error .invalidIndex, b)) ↔ a.lastIndex < k := by
  rw [popAtValue_eq]
  split
  · rename_i hk
    exact iff_of_true ⟨a, rfl⟩ hk
  · rename_i hk
    refine iff_of_false (fun ⟨b, hb⟩ => ?_) hk
    obtain ⟨p, -, hp⟩ := Option.map_eq_some_iff.mp hb
    cases (Prod.mk.inj hp).1

/-! ## What fails changes nothing -/

section Harmless

variable {a b : CircArray α} {v : α} {overwrite : Bool} {rc : RingRC}

omit [Inhabited α] in
/-- A push at either end, with or without the pop in front of it. -/
theorem push_harmless {push : CircArray α → RingRC × CircArray α} {popped : Option (α × CircArray α)}
    (hfull : ∀ c : CircArray α, c.isFull = true → push c = (.noSpaceError, c))
    (hcode : ∀ c : CircArray α, c.isFull = false → (push c).1 = .success)
    (h : (if a.isFull && overwrite then
        popped.bind fun p => if p.2.isFull then none else some (push p.2)
      else some (push a)) = some (rc, b)) (hfail : rc ≠ .success) : b = a := by
  split at h
  · obtain ⟨⟨x, rest⟩, -, h⟩ := Option.bind_eq_some_iff.mp h
    obtain ⟨hroom, h⟩ := Option.ite_none_left_eq_some.mp h
    have hpush : (push rest).1 = rc := congrArg Prod.fst (Option.some.inj h)
    exact absurd (hpush.symm.trans (hcode rest (Bool.eq_false_iff.mpr hroom))) hfail
  · have hpush : push a = (rc, b) := Option.some.inj h
    cases hroom : a.isFull with
    | true =>
      rw [hfull a hroom] at hpush
      exact (Prod.mk.inj hpush).2.symm
    | false => exact absurd ((congrArg Prod.fst hpush).symm.trans (hcode a hroom)) hfail

theorem pushBackWith_harmless (h : a.pushBackWith v overwrite = some (rc, b))
    (hfail : rc ≠ .success) : b = a := by
  exact push_harmless (fun c => c.pushBack_full v) (fun c => c.pushBack_code v) h hfail

theorem pushFrontWith_harmless (h : a.pushFrontWith v overwrite = some (rc, b))
    (hfail : rc ≠ .success) : b = a := by
  exact push_harmless (fun c => c.pushFront_full v) (fun c => c.pushFront_code v) h hfail

omit [Inhabited α] in
theorem into_harmless {x : Option (α × CircArray α)} (h : (a.into v x).1 ≠ .success) :
    (a.into v x).2.2 = a := by
  cases x with
  | none => rfl
  | some p => exact absurd rfl h

theorem popBackInto_harmless (a : CircArray α) (v : α) (h : (a.popBackInto v).1 ≠ .success) :
    (a.popBackInto v).2.2 = a := by
  rw [popBackInto_eq] at h ⊢
  exact into_harmless h

theorem popFrontInto_harmless (a : CircArray α) (v : α) (h : (a.popFrontInto v).1 ≠ .success) :
    (a.popFrontInto v).2.2 = a := by
  rw [popFrontInto_eq] at h ⊢
  exact into_harmless h

omit [Inhabited α] in
theorem answered_byValue_failed {popped : RingRC × α × CircArray α}
    (h : (answered (byValue popped).1).Failed) : popped.1 ≠ .success := by
  intro hcode
  unfold byValue at h
  rw [if_pos hcode] at h
  exact h

theorem popAtValue_harmless {k : ℕ} {r : Except RingException α}
    (h : a.popAtValue k = some (r, b)) (hfail : (answered r).Failed) : b = a := by
  rw [popAtValue_eq] at h
  split at h
  · exact (Prod.mk.inj (Option.some.inj h)).2.symm
  · obtain ⟨p, -, hp⟩ := Option.map_eq_some_iff.mp h
    rw [← (Prod.mk.inj hp).1] at hfail
    exact absurd hfail id

theorem call_harmless {c : RingCall α} {r : RingResult α} (h : a.call c = some (r, b))
    (hfail : r.Failed) : b = a := by
  cases c with
  | pushBack v overwrite =>
    obtain ⟨p, hp, hr⟩ := Option.map_eq_some_iff.mp h
    obtain ⟨rfl, rfl⟩ := Prod.mk.inj hr
    exact pushBackWith_harmless hp hfail
  | pushFront v overwrite =>
    obtain ⟨p, hp, hr⟩ := Option.map_eq_some_iff.mp h
    obtain ⟨rfl, rfl⟩ := Prod.mk.inj hr
    exact pushFrontWith_harmless hp hfail
  | popBackInto v =>
    obtain ⟨rfl, rfl⟩ := Prod.mk.inj (Option.some.inj h)
    exact popBackInto_harmless a v hfail
  | popFrontInto v =>
    obtain ⟨rfl, rfl⟩ := Prod.mk.inj (Option.some.inj h)
    exact popFrontInto_harmless a v hfail
  | popBack =>
    obtain ⟨rfl, rfl⟩ := Prod.mk.inj (Option.some.inj h)
    exact popBackInto_harmless a default (answered_byValue_failed hfail)
  | popFront =>
    obtain ⟨rfl, rfl⟩ := Prod.mk.inj (Option.some.inj h)
    exact popFrontInto_harmless a default (answered_byValue_failed hfail)
  | popAt k =>
    obtain ⟨p, hp, hr⟩ := Option.map_eq_some_iff.mp h
    obtain ⟨rfl, rfl⟩ := Prod.mk.inj hr
    exact popAtValue_harmless hp hfail
  | index k => exact (Prod.mk.inj (Option.some.inj h)).2.symm

end Harmless

/-! ## The error paths -/

/-- An empty ring and a full one report it, and what fails leaves the ring as it was. -/
structure ReportsFailures (a : CircArray α) : Prop where
  popEmpty : a.occupancy = 0 → ∀ v, (a.popBackInto v).1 = .bufferEmptyError ∧
    (a.popFrontInto v).1 = .bufferEmptyError ∧ a.popBackValue.1 = .error .emptyBuffer ∧
      a.popFrontValue.1 = .error .emptyBuffer
  pushFull : a.occupancy = a.capacity → ∀ v,
    a.call (.pushBack v false) = some (.code .noSpaceError, a) ∧
      a.call (.pushFront v false) = some (.code .noSpaceError, a)
  harmless : ∀ c r b, a.call c = some (r, b) → r.Failed → b = a

/-- An index is refused, moreover, exactly if it is not below the occupancy. -/
structure ErrorPaths (a : CircArray α) : Prop extends ReportsFailures a where
  index : ∀ k < 2 ^ 64, a.index k = .error .invalidIndex ↔ a.occupancy ≤ k
  popAt : ∀ k < 2 ^ 64, (∃ b, a.popAtValue k = some (.error .invalidIndex, b)) ↔ a.occupancy ≤ k

theorem reportsFailures (a : CircArray α) : a.ReportsFailures := by
  refine ⟨fun hempty v => ?_, fun hfull v => ?_, fun c r b => call_harmless⟩
  · have hnil : a.toList = [] := List.length_eq_zero_iff.mp (a.length_toList.trans hempty)
    have hback := a.popBack_eq_none.mpr hnil
    have hfront := a.popFront_eq_none.mpr hnil
    unfold popBackValue popFrontValue popBackInto popFrontInto
    rw [hback, hfront]
    exact ⟨rfl, rfl, rfl, rfl⟩
  · have hfull : a.isFull = true := beq_iff_eq.mpr hfull
    constructor
    · simp [call, pushBackWith, pushBack_full a v hfull]
    · simp [call, pushFrontWith, pushFront_full a v hfull]

theorem index_throws_iff (a : CircArray α) (k : ℕ) :
    a.index k = .error .invalidIndex ↔ a.lastIndex < k := by
  unfold index
  split <;> simp_all

/-- The reports are complete in every state, the tests of an index in every state but the empty
one. -/
theorem error_paths_iff (a : CircArray α) :
    a.ReportsFailures ∧ (a.ErrorPaths ↔ a.occupancy ≠ 0) := by
  refine ⟨a.reportsFailures, fun h hempty => ?_, fun hne => ?_⟩
  · have hthrows := (h.index 0 (by norm_num)).mpr hempty.le
    exact absurd ((a.index_throws_iff 0).mp hthrows) (Nat.not_lt_zero _)
  · have hlast : ∀ k, a.lastIndex < k ↔ a.occupancy ≤ k := fun k => by
      unfold occupancy at hne ⊢
      rw [lastIndex_of_ne_zero hne]
      omega
    refine ⟨a.reportsFailures, fun k _ => ?_, fun k _ => ?_⟩
    · rw [index_throws_iff, hlast]
    · rw [popAtValue_throws_iff, hlast]

/-- On an empty ring index 0 is not refused, neither by `operator[]` nor by `pop_at`. -/
theorem empty_index_accepted : (new 1 : CircArray ℕ).occupancy = 0 ∧
    (new 1 : CircArray ℕ).index 0 = .ok 0 ∧
    ((new 1 : CircArray ℕ).popAtValue 0).map Prod.fst = some (.ok 0) ∧
    ¬ (new 1 : CircArray ℕ).ErrorPaths := by
  have hindex : (new 1 : CircArray ℕ).index 0 = .ok 0 := rfl
  refine ⟨rfl, hindex, ?_, fun h => ?_⟩
  · rw [popAtValue_eq, if_neg (Nat.not_lt_zero _)]
    rfl
  · have hthrows := (h.index 0 (by norm_num)).mpr (Nat.zero_le _)
    rw [hindex] at hthrows
    cases hthrows

end CircArray

end FpgaMl
