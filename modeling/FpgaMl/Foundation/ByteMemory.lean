import Mathlib.Tactic

/-! # Bytes: little-endian numbers, message buffers and memories

`le k n` writes a number as `k` bytes. `overlay` is `memcpy` into a buffer at an offset, and `slice`
reads it back. A memory is a function from addresses to bytes; `copy` writes one range of it. -/
namespace ByteMemory
set_option autoImplicit false

/-! ## Little-endian numbers -/

def le : ℕ → ℕ → List UInt8
  | 0, _ => []
  | k + 1, n => UInt8.ofNat n :: le k (n / 256)

def ofLe : List UInt8 → ℕ
  | [] => 0
  | b :: bs => b.toNat + 256 * ofLe bs

@[simp] theorem length_le (k n : ℕ) : (le k n).length = k := by
  induction k generalizing n with
  | zero => rfl
  | succ k ih => rw [le, List.length_cons, ih]

theorem ofLe_le {k n : ℕ} (h : n < 256 ^ k) : ofLe (le k n) = n := by
  induction k generalizing n with
  | zero =>
    have hn : n = 0 := by simpa using h
    rw [hn]
    rfl
  | succ k ih =>
    have hdiv : n / 256 < 256 ^ k := by
      apply Nat.div_lt_of_lt_mul
      rw [pow_succ'] at h
      exact h
    have hlow : (UInt8.ofNat n).toNat = n % 256 := UInt8.toNat_ofNat'
    rw [le, ofLe, ih hdiv, hlow]
    exact Nat.mod_add_div n 256

theorem ofLe_lt (bs : List UInt8) : ofLe bs < 256 ^ bs.length := by
  induction bs with
  | nil => exact one_pos
  | cons b bs ih =>
    have hb := b.toNat_lt
    rw [ofLe, List.length_cons, pow_succ]
    omega

theorem le_ofLe (bs : List UInt8) : le bs.length (ofLe bs) = bs := by
  induction bs with
  | nil => rfl
  | cons b bs ih =>
    have hb := b.toNat_lt
    have hlow : UInt8.ofNat (b.toNat + 256 * ofLe bs) = b := by
      apply UInt8.toNat_inj.mp
      rw [UInt8.toNat_ofNat']
      omega
    have hrest : (b.toNat + 256 * ofLe bs) / 256 = ofLe bs := by omega
    rw [List.length_cons, ofLe, le, hlow, hrest, ih]

/-! ## Message buffers -/

def slice (bs : List UInt8) (off len : ℕ) : List UInt8 := (bs.drop off).take len

def overlay (buf : List UInt8) (off : ℕ) (src : List UInt8) : List UInt8 :=
  buf.take off ++ src ++ buf.drop (off + src.length)

theorem slice_left {a b : List UInt8} {len : ℕ} (h : len = a.length) :
    slice (a ++ b) 0 len = a := by
  rw [slice, List.drop_zero, h, List.take_left]

theorem slice_right {a b : List UInt8} {off rest len : ℕ} (h : off = a.length + rest) :
    slice (a ++ b) off len = slice b rest len := by
  rw [slice, slice, h, ← List.drop_drop, List.drop_left]

theorem slice_cons (b : UInt8) (bs : List UInt8) (off len : ℕ) :
    slice (b :: bs) (off + 1) len = slice bs off len := rfl

theorem length_slice {bs : List UInt8} {off len : ℕ} (h : off + len ≤ bs.length) :
    (slice bs off len).length = len := by
  rw [slice, List.length_take, List.length_drop]
  omega

theorem slice_all (bs : List UInt8) (off : ℕ) : slice bs off (bs.length - off) = bs.drop off := by
  rw [slice, List.take_of_length_le (by rw [List.length_drop])]

/-- What comes behind a message does not matter. -/
theorem slice_append {bs : List UInt8} {off len : ℕ} (h : off + len ≤ bs.length)
    (rest : List UInt8) : slice (bs ++ rest) off len = slice bs off len := by
  rw [slice, slice, List.drop_append_of_le_length (by omega),
    List.take_append_of_le_length (by rw [List.length_drop]; omega)]

theorem slice_add (bs : List UInt8) (off a b : ℕ) :
    slice bs off (a + b) = slice bs off a ++ slice bs (off + a) b := by
  rw [slice, List.take_add, List.drop_drop]
  rfl

theorem overlay_zero (buf src : List UInt8) :
    overlay buf 0 src = src ++ buf.drop src.length := by
  unfold overlay
  rw [List.take_zero, List.nil_append, Nat.zero_add]

theorem overlay_overlay (buf a b : List UInt8) {off : ℕ} (hoff : off = a.length) :
    overlay (overlay buf 0 a) off b = overlay buf 0 (a ++ b) := by
  rw [overlay_zero, overlay_zero, overlay, hoff, List.take_left, List.length_append]
  congr 1
  rw [List.drop_append, List.drop_eq_nil_of_le (Nat.le_add_right _ _), List.nil_append,
    List.drop_drop]
  congr 1
  omega

theorem take_overlay (buf src : List UInt8) {len : ℕ} (hlen : len = src.length) :
    (overlay buf 0 src).take len = src := by
  rw [overlay_zero, hlen, List.take_left]

/-! ## Memories -/

def bytes (mem : ℕ → UInt8) (a n : ℕ) : List UInt8 := (List.range n).map fun i => mem (a + i)

/-- `n` bytes of `src` from address `origin` on, written to `dst` from address `target` on. -/
def copy (dst src : ℕ → UInt8) (target origin n : ℕ) : ℕ → UInt8 := fun x =>
  if target ≤ x ∧ x < target + n then src (origin + (x - target)) else dst x

/-- Two ranges, each an address and a length, without a common address. -/
def Apart (a b : ℕ × ℕ) : Prop := a.1 + a.2 ≤ b.1 ∨ b.1 + b.2 ≤ a.1

instance (a b : ℕ × ℕ) : Decidable (Apart a b) := inferInstanceAs (Decidable (_ ∨ _))

theorem Apart.take {a n m : ℕ} {b : ℕ × ℕ} (h : Apart (a, n) b) (hm : m ≤ n) : Apart (a, m) b := by
  unfold Apart at h ⊢
  dsimp only at h ⊢
  omega

@[simp] theorem length_bytes (mem : ℕ → UInt8) (a n : ℕ) : (bytes mem a n).length = n := by
  simp [bytes]

theorem getElem?_bytes (mem : ℕ → UInt8) (a : ℕ) {n p : ℕ} (h : p < n) :
    (bytes mem a n)[p]? = some (mem (a + p)) := by
  unfold bytes
  rw [List.getElem?_map, List.getElem?_range h]
  rfl

theorem bytes_congr {mem mem' : ℕ → UInt8} {a n : ℕ}
    (h : ∀ x, a ≤ x → x < a + n → mem x = mem' x) : bytes mem a n = bytes mem' a n := by
  apply List.map_congr_left
  intro i hi
  have hi : i < n := List.mem_range.mp hi
  exact h (a + i) (by omega) (by omega)

theorem bytes_inj {mem mem' : ℕ → UInt8} {a b n : ℕ} (h : bytes mem a n = bytes mem' b n) {i : ℕ}
    (hi : i < n) : mem (a + i) = mem' (b + i) :=
  List.map_inj_left.mp h i (List.mem_range.mpr hi)

theorem bytes_copy (dst src : ℕ → UInt8) (target origin n : ℕ) :
    bytes (copy dst src target origin n) target n = bytes src origin n := by
  apply List.map_congr_left
  intro i hi
  have hi : i < n := List.mem_range.mp hi
  unfold copy
  rw [if_pos (by omega)]
  congr 1
  omega

theorem copy_of_apart (dst src : ℕ → UInt8) {target origin n x : ℕ} {b : ℕ × ℕ}
    (h : Apart (target, n) b) (hx : b.1 ≤ x) (hx' : x < b.1 + b.2) :
    copy dst src target origin n x = dst x := by
  unfold copy
  unfold Apart at h
  rw [if_neg (by omega)]

end ByteMemory
