import Mathlib.Tactic
import FpgaMl.Foundation.TransitionSystem

/-! Bounded deques: a list of at most `bound` elements, with operations at both ends and at an
index, and one that doubles the bound. A push at a full deque is refused or, when it may
overwrite, drops the element at the other end first. -/
namespace BoundedDeque
open TransitionSystem
set_option autoImplicit false

universe u

@[ext]
structure Deque (α : Type u) where
  items : List α
  bound : ℕ
  pos : 0 < bound
  fits : items.length ≤ bound

inductive Op (α : Type u)
  | pushBack (value : α) (overwrite : Bool)
  | pushFront (value : α) (overwrite : Bool)
  | popFront
  | popBack
  | popAt (k : ℕ)
  | get (k : ℕ)
  | double

inductive Answer (α : Type u)
  | done
  | refused
  | value (v : α)
  deriving DecidableEq, Repr

namespace Deque

variable {α : Type u}

/-- The answer to an operation, with the list and the bound after it; `none` is an index that is
not in the list. -/
def act (d : Deque α) : Op α → Option (Answer α × List α × ℕ)
  | .pushBack v overwrite =>
    if d.items.length < d.bound then some (.done, d.items ++ [v], d.bound)
    else if overwrite then some (.done, d.items.tail ++ [v], d.bound)
    else some (.refused, d.items, d.bound)
  | .pushFront v overwrite =>
    if d.items.length < d.bound then some (.done, v :: d.items, d.bound)
    else if overwrite then some (.done, v :: d.items.dropLast, d.bound)
    else some (.refused, d.items, d.bound)
  | .popFront => some (d.items.head?.elim .refused .value, d.items.tail, d.bound)
  | .popBack => some (d.items.getLast?.elim .refused .value, d.items.dropLast, d.bound)
  | .popAt k => (d.items[k]?).map fun v => (.value v, d.items.eraseIdx k, d.bound)
  | .get k => (d.items[k]?).map fun v => (.value v, d.items, d.bound)
  | .double => some (.done, d.items, d.bound * 2)

theorem act_fits {d : Deque α} {op : Op α} {answer : Answer α} {items : List α} {bound : ℕ}
    (h : d.act op = some (answer, items, bound)) : 0 < bound ∧ items.length ≤ bound := by
  have hpos := d.pos
  have hfits := d.fits
  cases op with
  | pushBack v overwrite =>
    simp only [act] at h
    split at h
    · cases h
      rw [List.length_append, List.length_singleton]
      omega
    · split at h <;> cases h
      · rw [List.length_append, List.length_tail, List.length_singleton]
        omega
      · exact ⟨hpos, hfits⟩
  | pushFront v overwrite =>
    simp only [act] at h
    split at h
    · cases h
      rw [List.length_cons]
      omega
    · split at h <;> cases h
      · rw [List.length_cons, List.length_dropLast]
        omega
      · exact ⟨hpos, hfits⟩
  | popFront =>
    cases h
    rw [List.length_tail]
    omega
  | popBack =>
    cases h
    rw [List.length_dropLast]
    omega
  | popAt k =>
    obtain ⟨v, -, h⟩ := Option.map_eq_some_iff.mp h
    cases h
    exact ⟨hpos, (List.length_eraseIdx_le _ _).trans hfits⟩
  | get k =>
    obtain ⟨v, -, h⟩ := Option.map_eq_some_iff.mp h
    cases h
    exact ⟨hpos, hfits⟩
  | double =>
    cases h
    omega

def step (d : Deque α) (op : Op α) : Option (Answer α × Deque α) :=
  match h : d.act op with
  | none => none
  | some (answer, items, bound) => some (answer, ⟨items, bound, (act_fits h).1, (act_fits h).2⟩)

theorem step_eq_some_iff {d d' : Deque α} {op : Op α} {answer : Answer α} :
    d.step op = some (answer, d') ↔ d.act op = some (answer, d'.items, d'.bound) := by
  unfold step
  split
  · rename_i h
    simp [h]
  · rename_i a items bound h
    simp [h, Deque.ext_iff]

theorem exists_step {d : Deque α} {op : Op α} {answer : Answer α} {items : List α} {bound : ℕ}
    (h : d.act op = some (answer, items, bound)) :
    ∃ d', d.step op = some (answer, d') ∧ d'.items = items ∧ d'.bound = bound :=
  ⟨⟨items, bound, (act_fits h).1, (act_fits h).2⟩, step_eq_some_iff.mpr h, rfl, rfl⟩

end Deque

def deques (α : Type u) : Machine (Deque α) (Op α) where
  start d := d.items = []
  next d op := (d.step op).map Prod.snd

end BoundedDeque
