import Mathlib.Tactic
import FpgaMl.Foundation.BoundedDeque
import FpgaMl.CircArray

/-! # The ring as a bounded deque

`CircArray` refines `BoundedDeque`, with both overwrite flags, `pop_at` and `resize_by_two`. The
loops of the last two count in an `int`: they are correct for fewer than 2^31 elements, and
wrong in some way for every longer ring. -/
namespace FpgaMl
open MachineInt TransitionSystem BoundedDeque
set_option autoImplicit false

namespace CircArray

variable {α : Type} [Inhabited α]

def answer : RingRC → Answer α
  | .success => .done
  | .noSpaceError => .refused
  | .bufferEmptyError => .refused

/-- The member function behind each operation; a pop of an empty ring answers
`BUFFER_EMPTY_ERROR`, and leaves the ring as it was. -/
def apply (a : CircArray α) : Op α → Option (Answer α × CircArray α)
  | .pushBack v overwrite => (a.pushBackWith v overwrite).map fun p => (answer p.1, p.2)
  | .pushFront v overwrite => (a.pushFrontWith v overwrite).map fun p => (answer p.1, p.2)
  | .popFront => some (a.popFront.elim (.refused, a) fun p => (.value p.1, p.2))
  | .popBack => some (a.popBack.elim (.refused, a) fun p => (.value p.1, p.2))
  | .popAt k => (a.popAt k).map fun p => (.value p.1, p.2)
  | .get k => (a.get k).map fun v => (.value v, a)
  | .double => a.resizeByTwo.map fun b => (.done, b)

/-- An index of `pop_at` and `operator[]` is below the occupancy. -/
def InBounds (a : CircArray α) : Op α → Prop
  | .popAt k => k < a.size
  | .get k => k < a.size
  | _ => True

instance (a : CircArray α) (op : Op α) : Decidable (a.InBounds op) :=
  match op with
  | .popAt _ => inferInstanceAs (Decidable (_ < _))
  | .get _ => inferInstanceAs (Decidable (_ < _))
  | .pushBack .. | .pushFront .. | .popFront | .popBack | .double =>
    inferInstanceAs (Decidable True)

end CircArray

/-- A ring on its own, in the hands of a client that keeps to the bounds. -/
def ringSystem (α : Type) [Inhabited α] : Machine (CircArray α) (Op α) where
  start a := ∃ c, 1 ≤ c ∧ c < 2 ^ 31 ∧ a = CircArray.new c
  next a op := if a.InBounds op then (a.apply op).map Prod.snd else none

namespace CircArray

variable {α : Type} [Inhabited α]

structure Represents (a : CircArray α) (d : Deque α) : Prop where
  items : d.items = a.toList
  bound : d.bound = a.capacity

/-- The ring answers as the deque does, and represents it afterwards. -/
def Follows (a : CircArray α) (d : Deque α) (op : Op α) : Prop :=
  ∃ answer b d', a.apply op = some (answer, b) ∧ d.step op = some (answer, d') ∧ b.Represents d'

/-- The condition on a step: the two loops stay within an `int`, and the storage of a doubled
ring within what `new` can give. -/
def Fits (a : CircArray α) : Op α → Prop
  | .popAt _ => a.size < 2 ^ 31
  | .double => a.size < 2 ^ 31 ∧ a.capacity * 2 < 2 ^ 63
  | _ => True

instance (a : CircArray α) (op : Op α) : Decidable (a.Fits op) :=
  match op with
  | .popAt _ => inferInstanceAs (Decidable (_ < _))
  | .double => inferInstanceAs (Decidable (_ ∧ _))
  | .pushBack .. | .pushFront .. | .popFront | .popBack | .get _ =>
    inferInstanceAs (Decidable True)

/-! ## One operation -/

section Step

variable {a : CircArray α} {d : Deque α}

/-- It is enough to compare the answers, the lists and the bounds. -/
theorem follows_of_act {op : Op α} {r : Answer α} {b : CircArray α}
    (happly : a.apply op = some (r, b)) (hact : d.act op = some (r, b.toList, b.capacity)) :
    a.Follows d op := by
  obtain ⟨d', hstep, hitems, hbound⟩ := Deque.exists_step hact
  exact ⟨r, b, d', happly, hstep, hitems, hbound⟩

theorem Represents.room (hd : a.Represents d) (h : a.isFull = false) :
    d.items.length < d.bound := by
  have hlen := a.length_le_capacity
  have hne : a.toList.length ≠ a.capacity := fun he => by
    rw [a.isFull_iff.mpr he] at h
    cases h
  rw [hd.items, hd.bound]
  omega

theorem Represents.noRoom (hd : a.Represents d) (h : a.isFull = true) :
    ¬ d.items.length < d.bound := by
  rw [hd.items, hd.bound, a.isFull_iff.mp h]
  exact lt_irrefl _

omit [Inhabited α] in
theorem pushBack_code (a : CircArray α) (v : α) (h : a.isFull = false) :
    (a.pushBack v).1 = .success := by
  have hne : a.size ≠ a.capacity := by simpa [isFull] using h
  simp [pushBack, hne]

omit [Inhabited α] in
theorem pushFront_code (a : CircArray α) (v : α) (h : a.isFull = false) :
    (a.pushFront v).1 = .success := by
  have hne : a.size ≠ a.capacity := by simpa [isFull] using h
  simp [pushFront, hne]

/-- What a pop leaves of a ring has room. -/
theorem isFull_of_shorter {a b : CircArray α} (hcap : b.capacity = a.capacity)
    (hlen : b.toList.length < a.toList.length) : b.isFull = false := by
  have hle := a.length_le_capacity
  rw [← Bool.not_eq_true, isFull_iff]
  omega

theorem pushBack_follows (hd : a.Represents d) (v : α) (overwrite : Bool) :
    a.Follows d (.pushBack v overwrite) := by
  cases hf : a.isFull with
  | false =>
    apply follows_of_act (r := .done) (b := (a.pushBack v).2)
    · simp [apply, pushBackWith, hf, pushBack_code a v hf, answer]
    · rw [Deque.act, if_pos (hd.room hf), hd.items, hd.bound, toList_pushBack a v hf,
        capacity_pushBack]
  | true =>
    cases overwrite with
    | false =>
      apply follows_of_act (r := .refused) (b := a)
      · simp [apply, pushBackWith, pushBack_full a v hf, answer]
      · rw [Deque.act, if_neg (hd.noRoom hf), if_neg Bool.false_ne_true, hd.items, hd.bound]
    | true =>
      have hne : a.toList ≠ [] := a.toList_ne_nil (hd.bound ▸ d.pos) hf
      obtain ⟨x, l, hl⟩ := List.exists_cons_of_ne_nil hne
      obtain ⟨b, hpop, hb, hcap⟩ := popFront_cons hl
      have hroom : b.isFull = false := by
        apply isFull_of_shorter hcap
        rw [hl, hb]
        exact Nat.lt_succ_self _
      apply follows_of_act (r := .done) (b := (b.pushBack v).2)
      · simp [apply, pushBackWith, hf, hpop, hroom, pushBack_code b v hroom, answer]
      · rw [Deque.act, if_neg (hd.noRoom hf), if_pos rfl, hd.items, hd.bound,
          toList_pushBack b v hroom, capacity_pushBack, hl, hb, hcap, List.tail_cons]

theorem pushFront_follows (hd : a.Represents d) (v : α) (overwrite : Bool) :
    a.Follows d (.pushFront v overwrite) := by
  cases hf : a.isFull with
  | false =>
    apply follows_of_act (r := .done) (b := (a.pushFront v).2)
    · simp [apply, pushFrontWith, hf, pushFront_code a v hf, answer]
    · rw [Deque.act, if_pos (hd.room hf), hd.items, hd.bound, toList_pushFront a v hf,
        capacity_pushFront]
  | true =>
    cases overwrite with
    | false =>
      apply follows_of_act (r := .refused) (b := a)
      · simp [apply, pushFrontWith, pushFront_full a v hf, answer]
      · rw [Deque.act, if_neg (hd.noRoom hf), if_neg Bool.false_ne_true, hd.items, hd.bound]
    | true =>
      have hne : a.toList ≠ [] := a.toList_ne_nil (hd.bound ▸ d.pos) hf
      cases hpop : a.popBack with
      | none => exact absurd (a.popBack_eq_none.mp hpop) hne
      | some p =>
        obtain ⟨x, b⟩ := p
        obtain ⟨hl, hcap⟩ := toList_popBack hpop
        have hroom : b.isFull = false := by
          apply isFull_of_shorter hcap
          rw [hl, List.length_append, List.length_singleton]
          exact Nat.lt_succ_self _
        apply follows_of_act (r := .done) (b := (b.pushFront v).2)
        · simp [apply, pushFrontWith, hf, hpop, hroom, pushFront_code b v hroom, answer]
        · rw [Deque.act, if_neg (hd.noRoom hf), if_pos rfl, hd.items, hd.bound,
            toList_pushFront b v hroom, capacity_pushFront, hl, hcap, List.dropLast_concat]

theorem popFront_follows (hd : a.Represents d) : a.Follows d .popFront := by
  cases hpop : a.popFront with
  | none =>
    have hnil := a.popFront_eq_none.mp hpop
    apply follows_of_act (r := .refused) (b := a)
    · simp [apply, hpop]
    · simp [Deque.act, hd.items, hd.bound, hnil]
  | some p =>
    obtain ⟨x, b⟩ := p
    obtain ⟨hl, hcap⟩ := toList_popFront hpop
    apply follows_of_act (r := .value x) (b := b)
    · simp [apply, hpop]
    · simp [Deque.act, hd.items, hd.bound, hl, hcap]

theorem popBack_follows (hd : a.Represents d) : a.Follows d .popBack := by
  cases hpop : a.popBack with
  | none =>
    have hnil := a.popBack_eq_none.mp hpop
    apply follows_of_act (r := .refused) (b := a)
    · simp [apply, hpop]
    · simp [Deque.act, hd.items, hd.bound, hnil]
  | some p =>
    obtain ⟨x, b⟩ := p
    obtain ⟨hl, hcap⟩ := toList_popBack hpop
    apply follows_of_act (r := .value x) (b := b)
    · simp [apply, hpop]
    · simp [Deque.act, hd.items, hd.bound, hl, hcap]

theorem get_follows (hd : a.Represents d) {k : ℕ} (hk : k < a.size) : a.Follows d (.get k) := by
  apply follows_of_act (r := .value (a.cell k)) (b := a)
  · simp [apply, a.get_of_lt hk]
  · simp [Deque.act, hd.items, hd.bound, a.getElem?_toList hk]

theorem popAt_follows (hd : a.Represents d) {k : ℕ} (hk : k < a.size) (hsize : a.size < 2 ^ 31) :
    a.Follows d (.popAt k) := by
  obtain ⟨hl, hcap⟩ := a.toList_popAtLoop hk (Nat.le_add_left a.size k)
  apply follows_of_act (r := .value (a.cell k)) (b := a.popAtLoop k a.size)
  · simp [apply, a.popAt_of_lt hk hsize]
  · simp [Deque.act, hd.items, hd.bound, a.getElem?_toList hk, hl, hcap]

theorem double_follows (hd : a.Represents d) (hfits : a.Fits .double) : a.Follows d .double := by
  obtain ⟨hsize, hcap⟩ := hfits
  cases hr : a.resizeByTwo with
  | none =>
    have hwide := resizeByTwo_eq_none.mp hr
    omega
  | some b =>
    obtain ⟨hl, hb⟩ := resizeByTwo_eq_some hr
    apply follows_of_act (r := .done) (b := b)
    · simp [apply, hr]
    · simp [Deque.act, hd.items, hd.bound, hl, hb]

/-- A long ring: `pop_at` loses its counter, or leaves the element where it was. -/
theorem popAt_wide {k : ℕ} {p : α × CircArray α} (hwide : 2 ^ 31 ≤ a.size)
    (h : a.popAt k = some p) : p.2 = a := by
  obtain ⟨v, -, h⟩ := Option.bind_eq_some_iff.mp h
  obtain ⟨-, h⟩ | ⟨-, h⟩ := ite_eq_iff.mp h
  · exact congrArg Prod.snd (Option.some.inj h).symm
  · rw [if_pos hwide] at h
    cases h

theorem not_popAt_follows (hd : a.Represents d) {k : ℕ} (hk : k < a.size)
    (hwide : 2 ^ 31 ≤ a.size) : ¬ a.Follows d (.popAt k) := by
  rintro ⟨r, b, d', happly, hstep, hb⟩
  obtain ⟨p, hp, hr⟩ := Option.map_eq_some_iff.mp happly
  obtain ⟨-, rfl⟩ := Prod.mk.inj hr
  obtain ⟨v, -, hact⟩ := Option.map_eq_some_iff.mp (Deque.step_eq_some_iff.mp hstep)
  have hlen : (d.items.eraseIdx k).length = a.size := by
    rw [(Prod.mk.inj (Prod.mk.inj hact).2).1, hb.items, popAt_wide hwide hp, length_toList]
  rw [hd.items, List.length_eraseIdx_of_lt (by rwa [length_toList]), length_toList] at hlen
  omega

theorem not_double_follows (h : ¬ a.Fits .double) : ¬ a.Follows d .double := by
  rintro ⟨r, b, d', happly, -⟩
  obtain ⟨c, hc, -⟩ := Option.map_eq_some_iff.mp happly
  unfold Fits at h
  rw [resizeByTwo_eq_none.mpr (by omega)] at hc
  cases hc

/-- The ring follows the deque exactly when the loops of the operation stay within an `int`. -/
theorem follows_iff (hd : a.Represents d) {op : Op α} (hin : a.InBounds op) :
    a.Follows d op ↔ a.Fits op := by
  cases op with
  | pushBack v overwrite => exact iff_of_true (pushBack_follows hd v overwrite) trivial
  | pushFront v overwrite => exact iff_of_true (pushFront_follows hd v overwrite) trivial
  | popFront => exact iff_of_true (popFront_follows hd) trivial
  | popBack => exact iff_of_true (popBack_follows hd) trivial
  | get k => exact iff_of_true (get_follows hd hin) trivial
  | popAt k =>
    refine ⟨fun h => ?_, popAt_follows hd hin⟩
    by_contra hwide
    exact not_popAt_follows hd hin (not_lt.mp hwide) h
  | double =>
    refine ⟨fun h => ?_, double_follows hd⟩
    by_contra hwide
    exact not_double_follows hwide h

end Step

/-! ## Every run -/

/-- The counters stay in range, the list is that of a run of the deque with the same bound, and
the next operation follows the deque exactly when it fits. -/
structure DequeLaw (a : CircArray α) : Prop where
  start_lt : a.start < a.capacity
  size_le : a.size ≤ a.capacity
  follows : ∃ d, (deques α).Reachable d ∧ a.Represents d ∧
    ∀ op, a.InBounds op → (a.Follows d op ↔ a.Fits op)

theorem deque_refines {a : CircArray α} (h : (ringSystem α).ReachableWhere Fits a) :
    DequeLaw a := by
  have hrun : ∃ d, (deques α).Reachable d ∧ a.Represents d := by
    refine h.simulates (R := Represents) ?_ ?_
    · rintro _ ⟨c, hc, -, rfl⟩
      exact ⟨⟨[], c, hc, Nat.zero_le c⟩, rfl, (toList_new c).symm, (capacity_new c).symm⟩
    · intro a op t d hd hfits hn
      obtain ⟨hin, hn⟩ := Option.ite_none_right_eq_some.mp hn
      obtain ⟨r, b, d', happly, hstep, hb⟩ := (follows_iff hd hin).mpr hfits
      rw [happly, Option.map_some, Option.some.injEq] at hn
      obtain rfl := hn
      exact Or.inr ⟨op, d', trivial, congrArg (Option.map Prod.snd) hstep, hb⟩
  obtain ⟨d, hreached, hd⟩ := hrun
  refine ⟨?_, a.size_le, d, hreached, hd, fun op => follows_iff hd⟩
  have hpos : 0 < a.capacity := hd.bound ▸ d.pos
  have hstart := a.start_le
  omega

/-- Three cells: the third push goes round the end, and the middle element is taken out. -/
theorem deque_refines_three : ∃ a : CircArray ℕ, DequeLaw a ∧ a.toList = [2, 4] ∧
    a.capacity = 6 := by
  have hrun : ((ringSystem ℕ).runWhere (fun a op => decide (a.Fits op)) (new 3)
      [.pushBack 1 false, .pushBack 2 false, .pushBack 3 false, .pushBack 4 true, .popAt 1,
        .double]).map (fun a => (a.toList, a.capacity)) = some ([2, 4], 6) := by
    decide +kernel
  obtain ⟨a, ha, hview⟩ := Machine.exists_reachableWhere hrun ⟨3, by norm_num, by norm_num, rfl⟩
  obtain ⟨hlist, hcap⟩ := Prod.mk.inj hview
  exact ⟨a, deque_refines ha, hlist, hcap⟩

/-! ## A ring of more than 2^31 elements -/

theorem reachable_filled (c : ℕ) (hc : 1 ≤ c) (hc' : c < 2 ^ 31) {k : ℕ} (hk : k ≤ c * 2) :
    ∃ a : CircArray ℕ, (ringSystem ℕ).Reachable a ∧ a.size = k ∧ a.capacity = c * 2 := by
  induction k with
  | zero =>
    cases hr : (new c : CircArray ℕ).resizeByTwo with
    | none =>
      have hempty : (new c : CircArray ℕ).size = 0 := rfl
      have hwide := resizeByTwo_eq_none.mp hr
      rw [hempty, capacity_new] at hwide
      omega
    | some b =>
      obtain ⟨hl, hcap⟩ := resizeByTwo_eq_some hr
      have hnext : (ringSystem ℕ).next (new c) .double = some b := by
        simp [ringSystem, InBounds, apply, hr]
      refine ⟨b, Machine.Reachable.next (.start ⟨c, hc, hc', rfl⟩) hnext, ?_, hcap⟩
      rw [← length_toList, hl, toList_new, List.length_nil]
  | succ k ih =>
    obtain ⟨a, ha, hsize, hcap⟩ := ih (Nat.le_of_succ_le hk)
    have hroom : a.isFull = false := by
      rw [← Bool.not_eq_true, isFull_iff, length_toList]
      omega
    have hnext : (ringSystem ℕ).next a (.pushBack 0 false) = some (a.pushBack 0).2 := by
      simp [ringSystem, InBounds, apply, pushBackWith]
    refine ⟨_, ha.next hnext, ?_, ?_⟩
    · rw [← length_toList, toList_pushBack a 0 hroom, List.length_append, length_toList, hsize,
        List.length_singleton]
    · rw [capacity_pushBack, hcap]

/-- `pop_at (2 ^ 31)` on 2^31 + 1 elements: the counter starts below zero, so the loop ends at
once, and the element is returned and kept. -/
theorem popAt_keeps : ∃ (a b : CircArray ℕ) (v : ℕ), (ringSystem ℕ).Reachable a ∧
    2 ^ 31 < a.size ∧ a.popAt (2 ^ 31) = some (v, b) ∧ b = a ∧
    ∀ d, a.Represents d → ¬ a.Follows d (.popAt (2 ^ 31)) := by
  obtain ⟨a, ha, hsize, hcap⟩ := reachable_filled (2 ^ 31 - 1) (by norm_num) (by norm_num)
    (show 2 ^ 31 + 1 ≤ (2 ^ 31 - 1) * 2 by norm_num)
  have hlt : 2 ^ 31 < a.size := by omega
  have hcount : toU64 (i32 ((2 ^ 31 : ℕ) : ℤ)) = 2 ^ 64 - 2 ^ 31 := by decide +kernel
  refine ⟨a, a, a.cell (2 ^ 31), ha, hlt, ?_, rfl, fun d hd => not_popAt_follows hd hlt hlt.le⟩
  unfold popAt
  rw [a.get_of_lt hlt, Option.bind_some, hcount, if_pos (by omega)]

end CircArray

end FpgaMl
