import Mathlib.Tactic
import FpgaMl.Foundation.MachineInt

/-! ND-ranges and the work-group ranges carved from them (ndrange.cc, ndrange.h).
An ND-range is addressed by the number of its heap cell, which stands for the pointer
`m_parent_ndrange` of its ranges. Counters are `unsigned`, requests are `size_t`. -/
namespace FpgaMl
open MachineInt
set_option autoImplicit false

/-- The codes of `FPGAML::RC` that the modelled functions answer. -/
inductive RC
  | mlSuccess
  | mlErrorTooManyNdr
  | mlErrorCmdqReleased
  deriving DecidableEq, Repr

/-- A `cl_kernel`: the handle and the `m_xml_name` of its program, which is set once. -/
structure KernelRef where
  handle : ℕ
  xmlName : String
  deriving DecidableEq, Repr, Inhabited

/-- A `cl_event`: the queue its command was submitted to and the number of that command. -/
structure EventRef where
  queue : ℕ
  command : ℕ
  deriving DecidableEq, Repr, Inhabited

structure WorkGroupRange where
  parentNdrange : Option ℕ
  startX : ℕ
  sizeX : ℕ
  startY : ℕ
  sizeY : ℕ
  startZ : ℕ
  sizeZ : ℕ
  executionCost : ℕ
  totalSize : ℕ
  deriving DecidableEq, Repr

namespace WorkGroupRange

/-- The default constructor: no parent, no extent. -/
instance : Inhabited WorkGroupRange := ⟨⟨none, 0, 0, 0, 0, 0, 0, 0, 0⟩⟩

def new (ndrange startX sizeX startY sizeY startZ sizeZ : ℕ) : WorkGroupRange where
  parentNdrange := some ndrange
  startX := startX
  sizeX := sizeX
  startY := startY
  sizeY := sizeY
  startZ := startZ
  sizeZ := sizeZ
  executionCost := 0
  totalSize := u32 (sizeX * sizeY * sizeZ)

def getTotalSize (w : WorkGroupRange) : ℕ := w.totalSize
def setExecutionCost (w : WorkGroupRange) (cost : ℕ) : WorkGroupRange :=
  { w with executionCost := cost }

end WorkGroupRange

structure NDRange where
  kernel : KernelRef
  event : EventRef
  resourceString : String
  sizeX : ℕ
  sizeY : ℕ
  sizeZ : ℕ
  nextWgr : ℕ
  totalSize : ℕ
  wgrsInTheWild : ℕ
  deriving DecidableEq, Repr, Inhabited

namespace NDRange

/-- The constructor; `none` is the `runtime_error` for more than one dimension. -/
def new (kernel : KernelRef) (event : EventRef) (resourceString : String) (sizeX sizeY sizeZ : ℕ) :
    Option NDRange :=
  let dims := (if 1 < sizeX then 1 else 0) + (if 1 < sizeY then 1 else 0) +
    (if 1 < sizeZ then 1 else 0)
  if 1 < dims then none
  else some
    { kernel := kernel
      event := event
      resourceString := resourceString
      sizeX := sizeX
      sizeY := sizeY
      sizeZ := sizeZ
      nextWgr := 0
      totalSize := u32 (sizeX * sizeY * sizeZ)
      wgrsInTheWild := 0 }

def hasMoreWgs (d : NDRange) : Bool := decide (d.nextWgr < d.totalSize)

/-- The number of work-groups a request of `numWgs` obtains. The bound `m_total_size - 1` is an
unsigned difference, and `m_next_wgr + num_wgs` is a `size_t` sum. -/
def wgsToCarve (d : NDRange) (numWgs : ℕ) : ℕ :=
  if sub32 d.totalSize 1 < u64 (d.nextWgr + numWgs) then sub32 d.totalSize d.nextWgr
  else u32 numWgs

/-- `carve_wgs` on the ND-range in cell `self`. The range is built from the start and from
`start_coord + wgs_to_carve`, as the source passes them. -/
def carveWgs (d : NDRange) (self numWgs : ℕ) : WorkGroupRange × NDRange :=
  (.new self d.nextWgr (u32 (d.nextWgr + d.wgsToCarve numWgs)) 0 1 0 1,
    { d with
      nextWgr := u32 (d.nextWgr + d.wgsToCarve numWgs)
      wgrsInTheWild := u32 (d.wgrsInTheWild + 1) })

/-- `decrement_wgrs_counter`; the flag says that the event was set complete and the object
deleted itself. -/
def decrementWgrsCounter (d : NDRange) : NDRange × Bool :=
  let wild := sub32 d.wgrsInTheWild 1
  ({ d with wgrsInTheWild := wild }, wild == 0)

def carveAll (d : NDRange) (self : ℕ) : List ℕ → List WorkGroupRange × NDRange
  | [] => ([], d)
  | r :: rs =>
    let (w, d₁) := d.carveWgs self r
    let (ws, d₂) := carveAll d₁ self rs
    (w :: ws, d₂)

theorem hasMoreWgs_iff (d : NDRange) : d.hasMoreWgs = true ↔ d.nextWgr < d.totalSize :=
  decide_eq_true_iff

theorem new_eq_some {k : KernelRef} {e : EventRef} {s : String} {x y z : ℕ} {d : NDRange}
    (h : NDRange.new k e s x y z = some d) :
    d = ⟨k, e, s, x, y, z, 0, u32 (x * y * z), 0⟩ := by
  unfold NDRange.new at h
  obtain ⟨-, h⟩ := Option.ite_none_left_eq_some.mp h
  exact (Option.some.inj h).symm

theorem new_line (k : KernelRef) (e : EventRef) (s : String) (N : ℕ) :
    ∃ d, NDRange.new k e s N 1 1 = some d := by
  unfold NDRange.new
  dsimp only
  rw [if_neg]
  · exact ⟨_, rfl⟩
  · split <;> simp

theorem new_fields {k : KernelRef} {e : EventRef} {s : String} {N : ℕ} {d : NDRange}
    (hN : N < 2 ^ 32) (h : NDRange.new k e s N 1 1 = some d) :
    d.nextWgr = 0 ∧ d.totalSize = N := by
  rw [new_eq_some h, Nat.mul_one, Nat.mul_one, u32_of_lt hN]
  exact ⟨rfl, rfl⟩

@[simp] theorem totalSize_carveWgs (d : NDRange) (self r : ℕ) :
    (d.carveWgs self r).2.totalSize = d.totalSize := rfl
@[simp] theorem event_carveWgs (d : NDRange) (self r : ℕ) :
    (d.carveWgs self r).2.event = d.event := rfl

theorem wgsToCarve_of_le {d : NDRange} {r : ℕ} (htot : d.totalSize < 2 ^ 32)
    (hfit : d.nextWgr + r ≤ d.totalSize) (hpos : 0 < d.totalSize) : d.wgsToCarve r = r := by
  unfold wgsToCarve
  rw [u64_of_lt (by omega), sub32_of_le hpos htot]
  split
  · rw [sub32_of_le (by omega) htot]
    omega
  · rw [u32_of_lt (by omega)]

theorem wgsToCarve_of_ge {d : NDRange} {r : ℕ} (htot : d.totalSize < 2 ^ 32)
    (hnext : d.nextWgr ≤ d.totalSize) (hr : r < 2 ^ 63) (hpos : 0 < d.totalSize)
    (hge : d.totalSize ≤ d.nextWgr + r) : d.wgsToCarve r = d.totalSize - d.nextWgr := by
  unfold wgsToCarve
  rw [u64_of_lt (by omega), sub32_of_le hpos htot, if_pos (by omega), sub32_of_le hnext htot]

end NDRange

end FpgaMl
