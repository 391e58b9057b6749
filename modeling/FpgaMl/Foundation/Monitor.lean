import Mathlib.Tactic
import FpgaMl.Foundation.Histories

/-! A monitor with one condition. Any number of threads wait until a value is ready: each tests it
under the lock, and sleeps while it is not. One setter assigns to it under the lock and notifies the
sleepers; threads may also wake up by themselves. The calls are those of a gate, which they pass once
it is open, and none of them sleeps through the notification. -/
namespace Monitor
open TransitionSystem
set_option autoImplicit false

universe u v w x

variable {ι : Type u} {σ : Type v} {κ : Type w} {β : Type x}

/-- What the waiters test and answer, what may be written without the lock before the setter takes
it, and what the setter assigns under the lock, one assignment after the other. -/
structure Protocol (σ : Type v) (κ : Type w) (β : Type x) where
  initial : σ
  ready : σ → Bool
  observe : σ → β
  prepare : κ → σ → σ
  assignments : List (σ → σ)

/-- What the first `k` assignments make of a value. -/
def Protocol.assigned (P : Protocol σ κ β) (k : ℕ) (v : σ) : σ :=
  (P.assignments.take k).foldl (fun v f => f v) v

/-- Only the assignments make the value ready. -/
structure Protocol.Lawful (P : Protocol σ κ β) : Prop where
  initial : P.ready P.initial = false
  prepare : ∀ k v, P.ready v = false → P.ready (P.prepare k v) = false
  assigned : ∀ v, P.ready (P.assigned P.assignments.length v) = true

/-- How far a call is: not made, before the lock, with the lock before the test, asleep, past the
wait, and returned with its answer. -/
inductive Waiter (β : Type x)
  | outside
  | locking
  | locked
  | asleep
  | leaving
  | returned (b : β)

inductive Owner (ι : Type u)
  | free
  | waiter (i : ι)
  | setter
  deriving DecidableEq

/-- How far the setter is; `inside k` is after `k` assignments. -/
inductive Setter
  | before
  | inside (k : ℕ)
  | notified
  | after
  deriving DecidableEq

namespace Setter

/-- The setter has the lock. -/
def holds : Setter → Bool
  | before => false
  | inside _ => true
  | notified => true
  | after => false

/-- The sleepers have been notified. -/
def done : Setter → Bool
  | before => false
  | inside _ => false
  | notified => true
  | after => true

end Setter

structure State (ι : Type u) (σ : Type v) (β : Type x) where
  value : σ
  owner : Owner ι
  waiter : ι → Waiter β
  setter : Setter

inductive Label (ι : Type u) (κ : Type w)
  | call (i : ι)
  | acquire (i : ι)
  | test (i : ι)
  | wake (i : ι)
  | answer (i : ι)
  | prepare (k : κ)
  | set

/-- The steps that a thread takes by itself when it can; calls and the first writes come from outside,
and nothing depends on a thread that wakes up by itself. -/
def Label.Internal : Label ι κ → Prop
  | call _ => False
  | acquire _ => True
  | test _ => True
  | wake _ => False
  | answer _ => True
  | prepare _ => False
  | set => True

def Waiter.notified : Waiter β → Waiter β
  | asleep => locking
  | w => w

variable {P : Protocol σ κ β} {s t : State ι σ β}

/-! ## The invariant -/

/-- What a thread at a point relies on. -/
def State.Fits (P : Protocol σ κ β) (s : State ι σ β) (i : ι) : Waiter β → Prop
  | .outside => s.owner ≠ .waiter i
  | .locking => s.owner ≠ .waiter i
  | .locked => s.owner = .waiter i
  | .asleep => s.owner ≠ .waiter i ∧ s.setter.done = false
  | .leaving => s.owner ≠ .waiter i ∧ s.setter = .after
  | .returned b => s.owner ≠ .waiter i ∧ s.setter = .after ∧ b = P.observe s.value

/-- The lock has one owner, the value is ready from the last assignment on and not before the setter
has the lock, and whoever sleeps is still to be notified. -/
structure Kept (P : Protocol σ κ β) (s : State ι σ β) : Prop where
  fits : ∀ i, s.Fits P i (s.waiter i)
  setter : s.setter.holds = true ↔ s.owner = .setter
  closed : s.setter = .before → P.ready s.value = false
  inside : ∀ k, s.setter = .inside k → ∃ v, s.value = P.assigned k v
  opened : s.setter.done = true → P.ready s.value = true

theorem fits_congr (s t : State ι σ β) {i : ι} (howner : t.owner = .waiter i ↔ s.owner = .waiter i)
    (hsetter : t.setter = s.setter) (hvalue : t.value = s.value) (w : Waiter β) :
    t.Fits P i w ↔ s.Fits P i w := by
  cases w <;> simp only [State.Fits, ne_eq, howner, hsetter, hvalue]

/-- A step of the setter, which no call has passed. -/
theorem Kept.fits_set (h : Kept P s) (hs : s.setter ≠ .after) (howner : ∀ i, s.owner ≠ .waiter i)
    (howner' : ∀ i, t.owner ≠ .waiter i)
    (hw : ∀ i, t.waiter i = s.waiter i ∧ (s.waiter i = .asleep → t.setter.done = false) ∨
      t.waiter i = (s.waiter i).notified) (i : ι) : t.Fits P i (t.waiter i) := by
  have hfits := h.fits i
  cases hi : s.waiter i with
  | outside | locking =>
    obtain ⟨hw, -⟩ | hw := hw i <;> rw [hw, hi] <;> exact howner' i
  | locked =>
    rw [hi] at hfits
    exact absurd hfits (howner i)
  | asleep =>
    obtain ⟨hw, hdone⟩ | hw := hw i <;> rw [hw, hi]
    · exact ⟨howner' i, hdone hi⟩
    · exact howner' i
  | leaving =>
    rw [hi] at hfits
    exact absurd hfits.2 hs
  | returned b =>
    rw [hi] at hfits
    exact absurd hfits.2.1 hs

theorem Kept.not_waiter (h : Kept P s) (hs : s.setter.holds = true) (i : ι) :
    s.owner ≠ .waiter i := by
  rw [h.setter.mp hs]
  exact (nomatch ·)

theorem assigned_succ (P : Protocol σ κ β) {k : ℕ} {f : σ → σ} (hf : P.assignments[k]? = some f)
    (v : σ) : P.assigned (k + 1) v = f (P.assigned k v) := by
  unfold Protocol.assigned
  rw [List.take_add_one, hf, List.foldl_append]
  rfl

theorem assigned_all (P : Protocol σ κ β) {k : ℕ} (hk : P.assignments[k]? = none) (v : σ) :
    P.assigned k v = P.assigned P.assignments.length v := by
  unfold Protocol.assigned
  rw [List.take_of_length_le (List.getElem?_eq_none_iff.mp hk), List.take_length]

/-! ## The machine -/

variable [DecidableEq ι]

def State.move (s : State ι σ β) (i : ι) (w : Waiter β) : State ι σ β :=
  { s with waiter := Function.update s.waiter i w }

def State.set (P : Protocol σ κ β) (s : State ι σ β) : Option (State ι σ β) :=
  match s.setter with
  | .before =>
    if s.owner = .free then some { s with owner := .setter, setter := .inside 0 } else none
  | .inside k =>
    match P.assignments[k]? with
    | some f => some { s with value := f s.value, setter := .inside (k + 1) }
    | none => some { s with waiter := fun i => (s.waiter i).notified, setter := .notified }
  | .notified => some { s with owner := .free, setter := .after }
  | .after => none

def monitor (ι : Type u) [DecidableEq ι] (P : Protocol σ κ β) :
    Machine (State ι σ β) (Label ι κ) where
  start s := s = ⟨P.initial, .free, fun _ => .outside, .before⟩
  next s
    | .call i =>
      match s.waiter i with
      | .outside => some (s.move i .locking)
      | _ => none
    | .acquire i =>
      match s.waiter i with
      | .locking =>
        if s.owner = .free then some { s.move i .locked with owner := .waiter i } else none
      | _ => none
    | .test i =>
      match s.waiter i with
      | .locked =>
        some { s.move i (if P.ready s.value then .leaving else .asleep) with owner := .free }
      | _ => none
    | .wake i =>
      match s.waiter i with
      | .asleep => some (s.move i .locking)
      | _ => none
    | .answer i =>
      match s.waiter i with
      | .leaving => some (s.move i (.returned (P.observe s.value)))
      | _ => none
    | .prepare k =>
      if s.setter = .before then some { s with value := P.prepare k s.value } else none
    | .set => s.set P

/-! ## What a step does -/

inductive Move (P : Protocol σ κ β) (s : State ι σ β) : Label ι κ → State ι σ β → Prop
  | call (i : ι) : s.waiter i = .outside → Move P s (.call i) (s.move i .locking)
  | acquire (i : ι) : s.waiter i = .locking → s.owner = .free →
      Move P s (.acquire i) { s.move i .locked with owner := .waiter i }
  | pass (i : ι) : s.waiter i = .locked → P.ready s.value = true →
      Move P s (.test i) { s.move i .leaving with owner := .free }
  | sleep (i : ι) : s.waiter i = .locked → P.ready s.value = false →
      Move P s (.test i) { s.move i .asleep with owner := .free }
  | wake (i : ι) : s.waiter i = .asleep → Move P s (.wake i) (s.move i .locking)
  | answer (i : ι) : s.waiter i = .leaving →
      Move P s (.answer i) (s.move i (.returned (P.observe s.value)))
  | prepare (k : κ) : s.setter = .before →
      Move P s (.prepare k) { s with value := P.prepare k s.value }
  | lock : s.setter = .before → s.owner = .free →
      Move P s .set { s with owner := .setter, setter := .inside 0 }
  | assign (k : ℕ) (f : σ → σ) : s.setter = .inside k → P.assignments[k]? = some f →
      Move P s .set { s with value := f s.value, setter := .inside (k + 1) }
  | notify (k : ℕ) : s.setter = .inside k → P.assignments[k]? = none →
      Move P s .set { s with waiter := fun i => (s.waiter i).notified, setter := .notified }
  | unlock : s.setter = .notified → Move P s .set { s with owner := .free, setter := .after }

variable {l : Label ι κ}

theorem move_set (h : s.set P = some t) : Move P s .set t := by
  unfold State.set at h
  split at h
  · rename_i hs
    obtain ⟨hfree, h⟩ := Option.ite_none_right_eq_some.mp h
    exact Option.some.inj h ▸ .lock hs hfree
  · rename_i k hs
    split at h
    · rename_i f hf
      exact Option.some.inj h ▸ .assign k f hs hf
    · rename_i hf
      exact Option.some.inj h ▸ .notify k hs hf
  · rename_i hs
    exact Option.some.inj h ▸ .unlock hs
  · cases h

theorem move_next (h : (monitor ι P).next s l = some t) : Move P s l t := by
  cases l with
  | call i =>
    simp only [monitor] at h
    split at h
    · rename_i hi
      exact Option.some.inj h ▸ .call i hi
    · cases h
  | acquire i =>
    simp only [monitor] at h
    split at h
    · rename_i hi
      obtain ⟨hfree, h⟩ := Option.ite_none_right_eq_some.mp h
      exact Option.some.inj h ▸ .acquire i hi hfree
    · cases h
  | test i =>
    simp only [monitor] at h
    split at h
    · rename_i hi
      cases hready : P.ready s.value with
      | true =>
        rw [hready, if_pos rfl] at h
        exact Option.some.inj h ▸ .pass i hi hready
      | false =>
        rw [hready, if_neg Bool.false_ne_true] at h
        exact Option.some.inj h ▸ .sleep i hi hready
    · cases h
  | wake i =>
    simp only [monitor] at h
    split at h
    · rename_i hi
      exact Option.some.inj h ▸ .wake i hi
    · cases h
  | answer i =>
    simp only [monitor] at h
    split at h
    · rename_i hi
      exact Option.some.inj h ▸ .answer i hi
    · cases h
  | prepare k =>
    simp only [monitor] at h
    obtain ⟨hs, h⟩ := Option.ite_none_right_eq_some.mp h
    exact Option.some.inj h ▸ .prepare k hs
  | set => exact move_set h

/-! ## The invariant is kept -/

/-- One thread moves, and takes or leaves the lock. -/
theorem Kept.move (h : Kept P s) {i : ι} {w : Waiter β} {o : Owner ι}
    (hi : ({ s.move i w with owner := o } : State ι σ β).Fits P i w)
    (ho : ∀ j, j ≠ i → (o = .waiter j ↔ s.owner = .waiter j))
    (hsetter : o = .setter ↔ s.owner = .setter) : Kept P { s.move i w with owner := o } := by
  refine ⟨fun j => ?_, h.setter.trans hsetter.symm, h.closed, h.inside, h.opened⟩
  by_cases hj : j = i
  · subst hj
    change ({ s.move j w with owner := o } : State ι σ β).Fits P j (Function.update s.waiter j w j)
    rw [Function.update_self]
    exact hi
  · change ({ s.move i w with owner := o } : State ι σ β).Fits P j (Function.update s.waiter i w j)
    rw [Function.update_of_ne hj]
    exact (fits_congr s { s.move i w with owner := o } (ho j hj) rfl rfl _).mpr (h.fits j)

theorem Kept.step (hP : P.Lawful) (h : Kept P s) (hm : Move P s l t) : Kept P t := by
  have hopen : P.ready s.value = true → s.setter.holds = false → s.setter = .after := by
    intro hready hholds
    cases hs : s.setter with
    | before => rw [h.closed hs] at hready; cases hready
    | inside k => rw [hs] at hholds; cases hholds
    | notified => rw [hs] at hholds; cases hholds
    | after => rfl
  cases hm with
  | call i hi =>
    have hfits := h.fits i
    rw [hi] at hfits
    exact h.move hfits (fun _ _ => Iff.rfl) Iff.rfl
  | acquire i hi hfree =>
    refine h.move rfl (fun j hj => ?_) ?_
    · rw [hfree]
      exact iff_of_false (fun heq => hj (Owner.waiter.inj heq).symm) (nomatch ·)
    · rw [hfree]
      exact iff_of_false (nomatch ·) (nomatch ·)
  | pass i hi hready =>
    have hfits : s.owner = .waiter i := by simpa [hi, State.Fits] using h.fits i
    have hholds : s.setter.holds = false := by
      by_contra hne
      rw [h.setter.mp (Bool.eq_true_of_not_eq_false hne)] at hfits
      cases hfits
    refine h.move ⟨(nomatch ·), hopen hready hholds⟩ (fun j hj => ?_) ?_
    · rw [hfits]
      exact iff_of_false (nomatch ·) (fun heq => hj (Owner.waiter.inj heq).symm)
    · rw [hfits]
      exact iff_of_false (nomatch ·) (nomatch ·)
  | sleep i hi hready =>
    have hfits : s.owner = .waiter i := by simpa [hi, State.Fits] using h.fits i
    have hdone : s.setter.done = false := by
      by_contra hne
      rw [h.opened (Bool.eq_true_of_not_eq_false hne)] at hready
      cases hready
    refine h.move ⟨(nomatch ·), hdone⟩ (fun j hj => ?_) ?_
    · rw [hfits]
      exact iff_of_false (nomatch ·) (fun heq => hj (Owner.waiter.inj heq).symm)
    · rw [hfits]
      exact iff_of_false (nomatch ·) (nomatch ·)
  | wake i hi =>
    have hfits := h.fits i
    rw [hi] at hfits
    exact h.move hfits.1 (fun _ _ => Iff.rfl) Iff.rfl
  | answer i hi =>
    have hfits := h.fits i
    rw [hi] at hfits
    exact h.move ⟨hfits.1, hfits.2, rfl⟩ (fun _ _ => Iff.rfl) Iff.rfl
  | prepare k hs =>
    refine ⟨fun i => ?_, h.setter, fun _ => hP.prepare k _ (h.closed hs), fun j hj => ?_,
      fun hdone => ?_⟩
    · have hfits := h.fits i
      change State.Fits P _ i (s.waiter i)
      cases hi : s.waiter i <;> rw [hi] at hfits
      · exact hfits
      · exact hfits
      · exact hfits
      · exact hfits
      · exact hfits
      · exact absurd (hs.symm.trans hfits.2.1) (nomatch ·)
    · exact absurd (hs.symm.trans hj) (nomatch ·)
    · rw [show s.setter.done = false by rw [hs]; rfl] at hdone
      cases hdone
  | lock hs hfree =>
    refine ⟨h.fits_set (by rw [hs]; exact (nomatch ·)) (fun i => by rw [hfree]; exact (nomatch ·))
      (fun i => (nomatch ·)) (fun i => Or.inl ⟨rfl, fun _ => rfl⟩), iff_of_true rfl rfl,
      (nomatch ·), fun k hk => ⟨s.value, ?_⟩, (nomatch ·)⟩
    obtain rfl := Setter.inside.inj hk
    rfl
  | assign k f hs hf =>
    have hholds : s.setter.holds = true := by rw [hs]; rfl
    obtain ⟨v, hv⟩ := h.inside k hs
    refine ⟨h.fits_set (by rw [hs]; exact (nomatch ·)) (h.not_waiter hholds)
      (h.not_waiter hholds) (fun i => Or.inl ⟨rfl, fun _ => rfl⟩),
      iff_of_true rfl (h.setter.mp hholds), (nomatch ·), fun j hj => ⟨v, ?_⟩, (nomatch ·)⟩
    obtain rfl := Setter.inside.inj hj
    rw [assigned_succ P hf, ← hv]
  | notify k hs hf =>
    have hholds : s.setter.holds = true := by rw [hs]; rfl
    obtain ⟨v, hv⟩ := h.inside k hs
    refine ⟨h.fits_set (by rw [hs]; exact (nomatch ·)) (h.not_waiter hholds)
      (h.not_waiter hholds) (fun i => Or.inr rfl), iff_of_true rfl (h.setter.mp hholds),
      (nomatch ·), (fun _ => (nomatch ·)), fun _ => ?_⟩
    change P.ready s.value = true
    rw [hv, assigned_all P hf]
    exact hP.assigned v
  | unlock hs =>
    have hholds : s.setter.holds = true := by rw [hs]; rfl
    refine ⟨h.fits_set (by rw [hs]; exact (nomatch ·)) (h.not_waiter hholds)
      (fun i => (nomatch ·)) (fun i => Or.inl ⟨rfl, fun hi => ?_⟩), iff_of_false (nomatch ·)
      (nomatch ·), (nomatch ·), (fun _ => (nomatch ·)), fun _ => h.opened (by rw [hs]; rfl)⟩
    have hfits := h.fits i
    rw [hi, State.Fits, hs] at hfits
    cases hfits.2

theorem kept (hP : P.Lawful) (h : (monitor ι P).Reachable s) : Kept P s := by
  refine h.invariant ?_ fun s l t hs hn => hs.step hP (move_next hn)
  rintro _ rfl
  exact ⟨fun _ => (nomatch ·), iff_of_false (nomatch ·) (nomatch ·), fun _ => hP.initial,
    (fun _ => (nomatch ·)), (nomatch ·)⟩

/-! ## The gate -/

/-- What the monitor is for: a gate is opened once, and the calls that have come pass it then. -/
structure Gate (ι : Type u) (β : Type x) where
  opened : Option β
  waiting : ι → Bool
  answer : ι → Option β

inductive GateLabel (ι : Type u) (β : Type x)
  | call (i : ι)
  | open (b : β)
  | pass (i : ι)

def gate (ι : Type u) [DecidableEq ι] (β : Type x) : Machine (Gate ι β) (GateLabel ι β) where
  start g := g = ⟨none, fun _ => false, fun _ => none⟩
  next g
    | .call i =>
      if g.waiting i = false ∧ (g.answer i).isNone then
        some { g with waiting := Function.update g.waiting i true }
      else none
    | .open b => if g.opened.isNone then some { g with opened := some b } else none
    | .pass i =>
      if g.waiting i then
        g.opened.map fun b =>
          { g with
            waiting := Function.update g.waiting i false
            answer := Function.update g.answer i (some b) }
      else none

def Waiter.waits : Waiter β → Bool
  | outside => false
  | returned _ => false
  | _ => true

def Waiter.answer : Waiter β → Option β
  | returned b => some b
  | _ => none

/-- The gate opens when the setter leaves the lock. -/
def State.gate (P : Protocol σ κ β) (s : State ι σ β) : Gate ι β where
  opened := if s.setter = .after then some (P.observe s.value) else none
  waiting i := (s.waiter i).waits
  answer i := (s.waiter i).answer

/-- A thread that moves without passing the gate or coming to it. -/
theorem gate_move (s : State ι σ β) {i : ι} {w : Waiter β} (o : Owner ι)
    (hwaits : w.waits = (s.waiter i).waits) (hanswer : w.answer = (s.waiter i).answer) :
    ({ s.move i w with owner := o } : State ι σ β).gate P = s.gate P := by
  have hupdate : ∀ j, Function.update s.waiter i w j = s.waiter j ∨ j = i := fun j => by
    by_cases hj : j = i
    · exact Or.inr hj
    · exact Or.inl (Function.update_of_ne hj ..)
  refine Gate.mk.injEq .. |>.mpr ⟨rfl, funext fun j => ?_, funext fun j => ?_⟩
  · change (Function.update s.waiter i w j).waits = (s.waiter j).waits
    obtain hj | rfl := hupdate j
    · rw [hj]
    · rw [Function.update_self, hwaits]
  · change (Function.update s.waiter i w j).answer = (s.waiter j).answer
    obtain hj | rfl := hupdate j
    · rw [hj]
    · rw [Function.update_self, hanswer]

theorem gate_update (s : State ι σ β) (i : ι) (w : Waiter β) : (s.move i w).gate P =
    { s.gate P with
      waiting := Function.update (s.gate P).waiting i w.waits
      answer := Function.update (s.gate P).answer i w.answer } :=
  Gate.mk.injEq .. |>.mpr ⟨rfl, Function.comp_update Waiter.waits s.waiter i w,
    Function.comp_update Waiter.answer s.waiter i w⟩

omit [DecidableEq ι] in
/-- Until the setter leaves the lock, only the points of the threads show at the gate. -/
theorem gate_set (hs : s.setter ≠ .after) (ht : t.setter ≠ .after)
    (hw : ∀ i, t.waiter i = s.waiter i ∨ t.waiter i = (s.waiter i).notified) :
    t.gate P = s.gate P := by
  refine Gate.mk.injEq .. |>.mpr ⟨by rw [if_neg hs, if_neg ht], funext fun i => ?_,
    funext fun i => ?_⟩
  all_goals
    obtain hw | hw := hw i <;> rw [hw]
    cases s.waiter i <;> rfl

/-- Each step of the monitor is one of the gate, or none. -/
theorem Kept.gate_step (h : Kept P s) (hm : Move P s l t) :
    t.gate P = s.gate P ∨ ∃ k, (gate ι β).next (s.gate P) k = some (t.gate P) := by
  cases hm with
  | call i hi =>
    refine Or.inr ⟨.call i, ?_⟩
    have hwaits : (s.gate P).waiting i = false := by simp [State.gate, hi, Waiter.waits]
    have hanswer : (s.gate P).answer i = none := by simp [State.gate, hi, Waiter.answer]
    have hsame : Function.update (s.gate P).answer i none = (s.gate P).answer := by
      rw [← hanswer, Function.update_eq_self]
    simp only [gate, hwaits, hanswer, Option.isNone_none, and_self, if_true]
    rw [gate_update]
    simp only [Waiter.waits, Waiter.answer, hsame]
  | acquire i hi hfree => exact Or.inl (gate_move s _ (by rw [hi]; rfl) (by rw [hi]; rfl))
  | pass i hi hready => exact Or.inl (gate_move s _ (by rw [hi]; rfl) (by rw [hi]; rfl))
  | sleep i hi hready => exact Or.inl (gate_move s _ (by rw [hi]; rfl) (by rw [hi]; rfl))
  | wake i hi => exact Or.inl (gate_move s s.owner (by rw [hi]; rfl) (by rw [hi]; rfl))
  | answer i hi =>
    refine Or.inr ⟨.pass i, ?_⟩
    have hfits := h.fits i
    rw [hi] at hfits
    have hwaits : (s.gate P).waiting i = true := by simp [State.gate, hi, Waiter.waits]
    have hopened : (s.gate P).opened = some (P.observe s.value) := if_pos hfits.2
    simp only [gate, hwaits, hopened, if_true, Option.map_some]
    rw [gate_update]
    exact congrArg some (Gate.mk.injEq .. |>.mpr ⟨hopened.symm, rfl, rfl⟩)
  | prepare k hs =>
    have hbefore : s.setter ≠ .after := by rw [hs]; exact (nomatch ·)
    exact Or.inl (gate_set hbefore hbefore fun _ => Or.inl rfl)
  | lock hs hfree =>
    exact Or.inl (gate_set (by rw [hs]; exact (nomatch ·)) (nomatch ·) fun _ => Or.inl rfl)
  | assign k f hs hf =>
    exact Or.inl (gate_set (by rw [hs]; exact (nomatch ·)) (nomatch ·) fun _ => Or.inl rfl)
  | notify k hs hf =>
    exact Or.inl (gate_set (by rw [hs]; exact (nomatch ·)) (nomatch ·) fun _ => Or.inr rfl)
  | unlock hs =>
    refine Or.inr ⟨.open (P.observe s.value), ?_⟩
    have hopened : (s.gate P).opened = none := if_neg (by rw [hs]; exact (nomatch ·))
    simp only [gate, hopened, Option.isNone_none, if_true]
    rfl

/-- The monitor refines the gate. -/
theorem refines_gate (hP : P.Lawful) (h : (monitor ι P).Reachable s) :
    (gate ι β).Reachable (s.gate P) := by
  have hstart : ∀ s, (monitor ι P).start s →
      ∃ g, (gate ι β).start g ∧ Kept P s ∧ g = s.gate P := by
    rintro _ rfl
    exact ⟨_, rfl, kept hP (.start rfl), rfl⟩
  have hstep : ∀ s l t g, (Kept P s ∧ g = s.gate P) → True → (monitor ι P).next s l = some t →
      (Kept P t ∧ g = t.gate P) ∨
        ∃ k g', True ∧ (gate ι β).next g k = some g' ∧ Kept P t ∧ g' = t.gate P := by
    rintro s l t _ ⟨hkept, rfl⟩ - hn
    have hm := move_next hn
    obtain heq | ⟨k, hk⟩ := hkept.gate_step hm
    · exact Or.inl ⟨hkept.step hP hm, heq.symm⟩
    · exact Or.inr ⟨k, t.gate P, trivial, hk, hkept.step hP hm, rfl⟩
  obtain ⟨g, hg, -, rfl⟩ := h.simulates hstart hstep
  exact hg

/-! ## No call stays asleep -/

/-- What is left of a call, before and after the notification. -/
def Waiter.rest (done : Bool) : Waiter β → ℕ
  | outside => 0
  | locking => if done then 3 else 6
  | locked => if done then 2 else 5
  | asleep => 4
  | leaving => 1
  | returned _ => 0

def Setter.rest (n : ℕ) : Setter → ℕ
  | before => n + 3
  | inside k => n - k + 2
  | notified => 1
  | after => 0

/-- What is left to do, where only the threads in `S` have called. -/
def State.rest (P : Protocol σ κ β) (S : Finset ι) (s : State ι σ β) : ℕ :=
  ∑ i ∈ S, (s.waiter i).rest s.setter.done + s.setter.rest P.assignments.length

theorem rest_move {S : Finset ι} {i : ι} (hi : i ∈ S) {w : Waiter β} (o : Owner ι)
    (hless : w.rest s.setter.done < (s.waiter i).rest s.setter.done) :
    ({ s.move i w with owner := o } : State ι σ β).rest P S < s.rest P S := by
  unfold State.rest
  refine Nat.add_lt_add_right (Finset.sum_lt_sum (fun j _ => ?_) ⟨i, hi, ?_⟩) _
  · change (Function.update s.waiter i w j).rest s.setter.done ≤ _
    by_cases hj : j = i
    · rw [hj, Function.update_self]
      exact hless.le
    · rw [Function.update_of_ne hj]
  · change (Function.update s.waiter i w i).rest s.setter.done < _
    rw [Function.update_self]
    exact hless

theorem rest_notified (w : Waiter β) : w.notified.rest true ≤ w.rest false := by
  cases w <;> simp [Waiter.notified, Waiter.rest]

omit [DecidableEq ι] in
theorem rest_set {S : Finset ι} (hw : ∀ i ∈ S, (t.waiter i).rest t.setter.done ≤
      (s.waiter i).rest s.setter.done)
    (hsetter : t.setter.rest P.assignments.length < s.setter.rest P.assignments.length) :
    t.rest P S < s.rest P S :=
  Nat.add_lt_add_of_le_of_lt (Finset.sum_le_sum hw) hsetter

/-- Each step that needs nothing from outside leaves less. -/
theorem Kept.rest_step (h : Kept P s) {S : Finset ι} (hS : ∀ i, i ∉ S → s.waiter i = .outside)
    (hl : l.Internal) (hm : Move P s l t) : t.rest P S < s.rest P S := by
  have hmem : ∀ i, s.waiter i ≠ .outside → i ∈ S := fun i hi => by
    by_contra hne
    exact hi (hS i hne)
  cases hm with
  | call i hi | wake i hi | prepare k hs => exact hl.elim
  | acquire i hi hfree =>
    refine rest_move (hmem i (by rw [hi]; exact (nomatch ·))) _ ?_
    rw [hi]
    cases s.setter.done <;> simp [Waiter.rest]
  | pass i hi hready =>
    refine rest_move (hmem i (by rw [hi]; exact (nomatch ·))) _ ?_
    rw [hi]
    cases s.setter.done <;> simp [Waiter.rest]
  | sleep i hi hready =>
    refine rest_move (hmem i (by rw [hi]; exact (nomatch ·))) _ ?_
    have hdone : s.setter.done = false := by
      by_contra hne
      rw [h.opened (Bool.eq_true_of_not_eq_false hne)] at hready
      cases hready
    rw [hi, hdone]
    exact Nat.lt_succ_self 4
  | answer i hi =>
    refine rest_move (hmem i (by rw [hi]; exact (nomatch ·))) s.owner ?_
    rw [hi]
    exact Nat.zero_lt_one
  | lock hs hfree =>
    refine rest_set (fun i _ => ?_) ?_
    · rw [hs]
      exact le_refl _
    · rw [hs]
      exact Nat.lt_succ_self _
  | assign k f hs hf =>
    refine rest_set (fun i _ => ?_) ?_
    · rw [hs]
      exact le_refl _
    · have hk : k < P.assignments.length := (List.getElem?_eq_some_iff.mp hf).1
      rw [hs]
      simp only [Setter.rest]
      omega
  | notify k hs hf =>
    refine rest_set (fun i _ => ?_) ?_
    · rw [hs]
      exact rest_notified _
    · rw [hs]
      simp only [Setter.rest]
      omega
  | unlock hs =>
    refine rest_set (fun i _ => ?_) ?_
    · rw [hs]
      exact le_refl _
    · rw [hs]
      exact Nat.zero_lt_one

/-- Only a call brings in another thread. -/
theorem outside_step {S : Finset ι} (hS : ∀ i, i ∉ S → s.waiter i = .outside)
    (hl : ∀ i, l = .call i → i ∈ S) (hm : Move P s l t) : ∀ i, i ∉ S → t.waiter i = .outside := by
  have hmove : ∀ (i : ι) (w : Waiter β), i ∈ S → ∀ j, j ∉ S →
      Function.update s.waiter i w j = .outside := fun i w hi j hj => by
    have hji : j ≠ i := by
      rintro rfl
      exact hj hi
    rw [Function.update_of_ne hji]
    exact hS j hj
  have hmem : ∀ i, s.waiter i ≠ .outside → i ∈ S := fun i hi => by
    by_contra hne
    exact hi (hS i hne)
  cases hm with
  | call i hi => exact hmove i _ (hl i rfl)
  | acquire i hi _ | pass i hi _ | sleep i hi _ | wake i hi | answer i hi =>
    exact hmove i _ (hmem i (by rw [hi]; exact (nomatch ·)))
  | prepare | lock | assign | unlock => exact hS
  | notify k hs hf =>
    intro i hi
    change (s.waiter i).notified = .outside
    rw [hS i hi]
    rfl

theorem exists_callers (h : (monitor ι P).Reachable s) :
    ∃ S : Finset ι, ∀ i, i ∉ S → s.waiter i = .outside := by
  apply h.invariant
  · rintro _ rfl
    exact ⟨∅, fun _ _ => rfl⟩
  · rintro s l t ⟨S, hS⟩ hn
    refine ⟨S ∪ (match l with | .call i => {i} | _ => ∅), outside_step ?_ ?_ (move_next hn)⟩
    · exact fun i hi => hS i fun hmem => hi (Finset.mem_union_left _ hmem)
    · rintro i rfl
      exact Finset.mem_union_right _ (Finset.mem_singleton_self i)

theorem called_step (hm : Move P s l t) {i : ι} (hi : s.waiter i ≠ .outside) :
    t.waiter i ≠ .outside := by
  have hmove : ∀ (j : ι) (w : Waiter β), w ≠ .outside →
      Function.update s.waiter j w i ≠ .outside := fun j w hw => by
    by_cases hij : i = j
    · rw [hij, Function.update_self]
      exact hw
    · rw [Function.update_of_ne hij]
      exact hi
  cases hm with
  | call j _ | acquire j _ _ | pass j _ _ | sleep j _ _ | wake j _ | answer j _ =>
    exact hmove j _ (nomatch ·)
  | prepare | lock | assign | unlock => exact hi
  | notify =>
    change (s.waiter i).notified ≠ .outside
    cases hw : s.waiter i <;> first | exact absurd hw hi | exact (nomatch ·)

/-- Where no thread has a step left, the setter is done and every call has returned. -/
theorem Kept.settled (h : Kept P s) (hend : ∀ l, l.Internal → (monitor ι P).next s l = none) :
    s.setter = .after ∧ ∀ i, s.waiter i = .outside ∨ s.waiter i = .returned (P.observe s.value) := by
  have hset := hend .set trivial
  have hnotlocked : ∀ i, s.waiter i ≠ .locked := fun i hi => by
    have htest := hend (.test i) trivial
    simp [monitor, hi] at htest
  have hfree : s.owner = .free := by
    cases ho : s.owner with
    | free => rfl
    | waiter i =>
      have hfits := h.fits i
      cases hi : s.waiter i with
      | locked => exact absurd hi (hnotlocked i)
      | outside | locking =>
        rw [hi] at hfits
        exact absurd ho hfits
      | asleep | leaving | returned =>
        rw [hi] at hfits
        exact absurd ho hfits.1
    | setter =>
      have hholds := h.setter.mpr ho
      cases hs : s.setter with
      | before | after =>
        rw [hs] at hholds
        cases hholds
      | inside k =>
        simp only [monitor, State.set, hs] at hset
        split at hset <;> cases hset
      | notified => simp [monitor, State.set, hs] at hset
  have hafter : s.setter = .after := by
    cases hs : s.setter with
    | before => simp [monitor, State.set, hs, hfree] at hset
    | inside k | notified =>
      have howner := h.setter.mp (by rw [hs]; rfl)
      rw [hfree] at howner
      cases howner
    | after => rfl
  refine ⟨hafter, fun i => ?_⟩
  have hfits := h.fits i
  cases hi : s.waiter i with
  | outside => exact Or.inl rfl
  | locking =>
    have hacquire := hend (.acquire i) trivial
    simp [monitor, hi, hfree] at hacquire
  | locked => exact absurd hi (hnotlocked i)
  | asleep =>
    rw [hi, State.Fits, hafter] at hfits
    cases hfits.2
  | leaving =>
    have hanswer := hend (.answer i) trivial
    simp [monitor, hi] at hanswer
  | returned b =>
    rw [hi] at hfits
    exact Or.inr (congrArg _ hfits.2.2)

/-- Nobody sleeps through the notification. -/
theorem not_asleep (hP : P.Lawful) (h : (monitor ι P).Reachable s) (hdone : s.setter.done = true)
    (i : ι) : s.waiter i ≠ .asleep := fun hi => by
  have hfits := (kept hP h).fits i
  rw [hi, State.Fits, hdone] at hfits
  cases hfits.2

omit [DecidableEq ι] in
theorem rest_le (P : Protocol σ κ β) (S : Finset ι) (s : State ι σ β) :
    s.rest P S ≤ 6 * S.card + P.assignments.length + 3 := by
  have hwaiter : ∀ i ∈ S, (s.waiter i).rest s.setter.done ≤ 6 := fun i _ => by
    cases s.waiter i <;> cases s.setter.done <;> simp [Waiter.rest]
  have hsum := Finset.sum_le_card_nsmul S _ 6 hwaiter
  have hsetter : s.setter.rest P.assignments.length ≤ P.assignments.length + 3 := by
    cases s.setter <;> simp only [Setter.rest] <;> omega
  rw [smul_eq_mul] at hsum
  unfold State.rest
  omega

section Settling

variable {S : Finset ι}

/-- What the internal steps keep, with the calls that were made when they began. -/
def Settling (P : Protocol σ κ β) (S : Finset ι) (called : ι → Prop) (s : State ι σ β) : Prop :=
  Kept P s ∧ (∀ i, i ∉ S → s.waiter i = .outside) ∧ ∀ i, called i → s.waiter i ≠ .outside

theorem Settling.step {called : ι → Prop} (hP : P.Lawful) (h : Settling P S called s)
    (hl : l.Internal) (hn : (monitor ι P).next s l = some t) :
    Settling P S called t ∧ t.rest P S < s.rest P S := by
  obtain ⟨hkept, hout, hcalled⟩ := h
  have hm := move_next hn
  have hnocall : ∀ i, l = .call i → i ∈ S := fun i hi => by
    rw [hi] at hl
    exact hl.elim
  exact ⟨⟨hkept.step hP hm, outside_step hout hnocall hm,
    fun i hi => called_step hm (hcalled i hi)⟩, hkept.rest_step hout hl hm⟩

/-- However the threads take turns, they come to an end, and then every call has returned. -/
theorem settles (hP : P.Lawful) (h : (monitor ι P).Reachable s)
    (hS : ∀ i, i ∉ S → s.waiter i = .outside) {ls : List (Label ι κ)}
    (hls : ∀ l ∈ ls, l.Internal) (hrun : (monitor ι P).run s ls = some t) :
    ls.length ≤ 6 * S.card + P.assignments.length + 3 ∧
    ((∀ l, l.Internal → (monitor ι P).next t l = none) → t.setter = .after ∧
      ∀ i, s.waiter i ≠ .outside → t.waiter i = .returned (P.observe t.value)) := by
  have hstart : Settling P S (fun i => s.waiter i ≠ .outside) s := ⟨kept hP h, hS, fun _ hi => hi⟩
  obtain ⟨⟨hkept, -, hcalled⟩, hlength⟩ := Machine.run_length_le
    (fun _ _ _ hm hl hn => hm.step hP hl hn) hstart hls hrun
  have hbound := rest_le P S s
  refine ⟨by omega, fun hend => ?_⟩
  obtain ⟨hafter, hreturned⟩ := hkept.settled hend
  exact ⟨hafter, fun i hi => (hreturned i).resolve_left (hcalled i hi)⟩

theorem exists_settled (hP : P.Lawful) (h : (monitor ι P).Reachable s) :
    ∃ ls t, (∀ l ∈ ls, l.Internal) ∧ (monitor ι P).run s ls = some t ∧
      ∀ l, l.Internal → (monitor ι P).next t l = none := by
  obtain ⟨S, hS⟩ := exists_callers h
  exact Machine.exists_exhausted (fun _ _ _ hm hl hn => hm.step hP hl hn)
    (show Settling P S (fun _ => False) s from ⟨kept hP h, hS, fun _ hi => hi.elim⟩)

end Settling

end Monitor
