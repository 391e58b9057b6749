import Mathlib.Tactic
import FpgaMl.UnimemDriver

/-! # The messages of the buffer driver

The four requests of the driver with their layout, and `dev_write` as a parser of them in front of
what each request does. Pointers and `size_t` are 8 bytes wide, and `struct unimem_addr` is 24. -/
namespace FpgaMl
open MachineInt ByteMemory
set_option autoImplicit false

inductive Request
  | alloc (size : ℕ)
  | destroy (addr : UnimemAddr)
  | write (addr : UnimemAddr) (userBuffer userBufferLen : ℕ)
  | read (addr : UnimemAddr) (userBuffer userBufferLen : ℕ)
  deriving DecidableEq, Repr

namespace UnimemAddr

/-- The fields are 64 bit wide. -/
structure InRange (a : UnimemAddr) : Prop where
  kernelVirtAddr : a.kernelVirtAddr < 2 ^ 64
  busAddr : a.busAddr < 2 ^ 64
  size : a.size < 2 ^ 64

theorem InRange.decode {a : UnimemAddr} (h : a.InRange) : UnimemAddr.decode a.encode = a :=
  decode_encode h.kernelVirtAddr h.busAddr h.size

theorem ofLe_slice_lt {bs : List UInt8} {off : ℕ} (h : off + 8 ≤ bs.length) :
    ofLe (slice bs off 8) < 2 ^ 64 := by
  have hlt := ofLe_lt (slice bs off 8)
  rw [length_slice h] at hlt
  norm_num at hlt ⊢
  exact hlt

theorem inRange_decode {bs : List UInt8} (h : bs.length = 24) : (decode bs).InRange :=
  ⟨ofLe_slice_lt (by omega), ofLe_slice_lt (by omega), ofLe_slice_lt (by omega)⟩

theorem inRange_of_decode {a : UnimemAddr} (h : decode a.encode = a) : a.InRange := by
  rw [← h]
  exact inRange_decode a.length_encode

theorem le_ofLe_slice {bs : List UInt8} {off : ℕ} (h : off + 8 ≤ bs.length) :
    le 8 (ofLe (slice bs off 8)) = slice bs off 8 := by
  have hbytes := le_ofLe (slice bs off 8)
  rwa [length_slice h] at hbytes

theorem encode_decode {bs : List UInt8} (h : bs.length = 24) : (decode bs).encode = bs := by
  unfold encode decode
  dsimp only
  rw [le_ofLe_slice (by omega), le_ofLe_slice (by omega), le_ofLe_slice (by omega),
    ← slice_add bs 8 8 8, ← slice_add bs 0 8 (8 + 8)]
  have hall := slice_all bs 0
  rwa [Nat.sub_zero, h, List.drop_zero] at hall

end UnimemAddr

/-- A message about user data: the address record, the host pointer and the length. -/
def Driver.dataMessage (type : UInt8) (a : UnimemAddr) (ptr len : ℕ) : List UInt8 :=
  type :: (a.encode ++ (le 8 ptr ++ le 8 len))

namespace Request

def InRange : Request → Prop
  | .alloc size => size < 2 ^ 64
  | .destroy addr => addr.InRange
  | .write addr userBuffer userBufferLen =>
    addr.InRange ∧ userBuffer < 2 ^ 64 ∧ userBufferLen < 2 ^ 64
  | .read addr userBuffer userBufferLen =>
    addr.InRange ∧ userBuffer < 2 ^ 64 ∧ userBufferLen < 2 ^ 64

def encode : Request → List UInt8
  | .alloc size => 'C'.toUInt8 :: le 8 size
  | .destroy addr => 'D'.toUInt8 :: addr.encode
  | .write addr userBuffer userBufferLen =>
    Driver.dataMessage 'W'.toUInt8 addr userBuffer userBufferLen
  | .read addr userBuffer userBufferLen =>
    Driver.dataMessage 'R'.toUInt8 addr userBuffer userBufferLen

/-- The fields behind the type of a message about user data. -/
def parseData (body : List UInt8) (request : UnimemAddr → ℕ → ℕ → Request) : Request :=
  request (UnimemAddr.decode (slice body 0 24)) (ofLe (slice body 24 8)) (ofLe (slice body 32 8))

/-- The request that a message of this type and length is. -/
def parse : List UInt8 → Option Request
  | [] => none
  | type :: body =>
    if type = 'C'.toUInt8 ∧ body.length = 8 then some (.alloc (ofLe body))
    else if type = 'D'.toUInt8 ∧ body.length = 24 then some (.destroy (UnimemAddr.decode body))
    else if type = 'W'.toUInt8 ∧ body.length = 40 then some (parseData body .write)
    else if type = 'R'.toUInt8 ∧ body.length = 40 then some (parseData body .read)
    else none

section Types

variable (body : List UInt8)

theorem parse_C : parse ('C'.toUInt8 :: body) =
    if body.length = 8 then some (.alloc (ofLe body)) else none := by
  simp +decide [parse]

theorem parse_D : parse ('D'.toUInt8 :: body) =
    if body.length = 24 then some (.destroy (UnimemAddr.decode body)) else none := by
  simp +decide [parse]

theorem parse_W : parse ('W'.toUInt8 :: body) =
    if body.length = 40 then some (parseData body .write) else none := by
  simp +decide [parse]

theorem parse_R : parse ('R'.toUInt8 :: body) =
    if body.length = 40 then some (parseData body .read) else none := by
  simp +decide [parse]

theorem parse_other {type : UInt8} (hC : type ≠ 'C'.toUInt8) (hD : type ≠ 'D'.toUInt8)
    (hW : type ≠ 'W'.toUInt8) (hR : type ≠ 'R'.toUInt8) : parse (type :: body) = none := by
  simp [parse, hC, hD, hW, hR]

end Types

theorem parseData_body {a : UnimemAddr} {ptr len : ℕ} (ha : a.InRange) (hp : ptr < 2 ^ 64)
    (hl : len < 2 ^ 64) (request : UnimemAddr → ℕ → ℕ → Request) :
    parseData (a.encode ++ (le 8 ptr ++ le 8 len)) request = request a ptr len := by
  have haddr : slice (a.encode ++ (le 8 ptr ++ le 8 len)) 0 24 = a.encode :=
    slice_left a.length_encode.symm
  have hptr : slice (a.encode ++ (le 8 ptr ++ le 8 len)) 24 8 = le 8 ptr := by
    rw [slice_right (show 24 = a.encode.length + 0 by simp), slice_left (length_le 8 ptr).symm]
  have hlen : slice (a.encode ++ (le 8 ptr ++ le 8 len)) 32 8 = le 8 len := by
    rw [slice_right (show 32 = a.encode.length + 8 by simp),
      slice_right (show 8 = (le 8 ptr).length + 0 by simp)]
    simp [slice]
  unfold parseData
  rw [haddr, hptr, hlen, ha.decode, ofLe_le (by norm_num; omega), ofLe_le (by norm_num; omega)]

theorem body_parseData {body : List UInt8} (h : body.length = 40) :
    (UnimemAddr.decode (slice body 0 24)).encode ++
      (le 8 (ofLe (slice body 24 8)) ++ le 8 (ofLe (slice body 32 8))) = body := by
  rw [UnimemAddr.encode_decode (length_slice (by omega)), UnimemAddr.le_ofLe_slice (by omega),
    UnimemAddr.le_ofLe_slice (by omega), ← slice_add body 24 8 8, ← slice_add body 0 24 (8 + 8)]
  have hall := slice_all body 0
  rwa [Nat.sub_zero, h, List.drop_zero] at hall

/-! ## The round trip -/

theorem parse_encode {q : Request} (h : q.InRange) : parse q.encode = some q := by
  cases q with
  | alloc size =>
    rw [encode, parse_C, if_pos (length_le 8 size), ofLe_le (by norm_num; exact h)]
  | destroy addr =>
    rw [encode, parse_D, if_pos addr.length_encode, h.decode]
  | write addr userBuffer userBufferLen =>
    obtain ⟨ha, hp, hl⟩ := h
    rw [encode, Driver.dataMessage, parse_W, if_pos (by simp), parseData_body ha hp hl]
  | read addr userBuffer userBufferLen =>
    obtain ⟨ha, hp, hl⟩ := h
    rw [encode, Driver.dataMessage, parse_R, if_pos (by simp), parseData_body ha hp hl]

section Parsed

variable {body : List UInt8}

theorem inRange_alloc (h : body.length = 8) : (alloc (ofLe body)).InRange := by
  have hlt := ofLe_lt body
  rw [h] at hlt
  norm_num at hlt
  exact hlt

theorem encode_alloc (h : body.length = 8) : (alloc (ofLe body)).encode = 'C'.toUInt8 :: body := by
  have hbytes := le_ofLe body
  rw [h] at hbytes
  rw [encode, hbytes]

/-- The fields of 40 bytes are in range, whatever the bytes. -/
theorem inRange_data (h : body.length = 40) :
    (UnimemAddr.decode (slice body 0 24)).InRange ∧
      ofLe (slice body 24 8) < 2 ^ 64 ∧ ofLe (slice body 32 8) < 2 ^ 64 :=
  ⟨UnimemAddr.inRange_decode (length_slice (by omega)), UnimemAddr.ofLe_slice_lt (by omega),
    UnimemAddr.ofLe_slice_lt (by omega)⟩

end Parsed

/-- Only the encodings of requests are requests. -/
theorem encode_of_parse {buf : List UInt8} {q : Request} (h : parse buf = some q) :
    q.InRange ∧ q.encode = buf := by
  cases buf with
  | nil => cases h
  | cons type body =>
    by_cases hC : type = 'C'.toUInt8
    · rw [hC, parse_C, Option.ite_none_right_eq_some] at h
      obtain ⟨hlen, hq⟩ := h
      cases hq
      rw [hC]
      exact ⟨inRange_alloc hlen, encode_alloc hlen⟩
    by_cases hD : type = 'D'.toUInt8
    · rw [hD, parse_D, Option.ite_none_right_eq_some] at h
      obtain ⟨hlen, hq⟩ := h
      cases hq
      rw [hD]
      exact ⟨UnimemAddr.inRange_decode hlen, congrArg _ (UnimemAddr.encode_decode hlen)⟩
    by_cases hW : type = 'W'.toUInt8
    · rw [hW, parse_W, Option.ite_none_right_eq_some] at h
      obtain ⟨hlen, hq⟩ := h
      cases hq
      rw [hW]
      exact ⟨inRange_data hlen, congrArg (List.cons _) (body_parseData hlen)⟩
    by_cases hR : type = 'R'.toUInt8
    · rw [hR, parse_R, Option.ite_none_right_eq_some] at h
      obtain ⟨hlen, hq⟩ := h
      cases hq
      rw [hR]
      exact ⟨inRange_data hlen, congrArg (List.cons _) (body_parseData hlen)⟩
    · rw [parse_other body hC hD hW hR] at h
      cases h

end Request

/-! ## The driver -/

namespace Driver

/-- What the handlers do with the fields of a request. -/
def perform (d : Driver) (env : KernelEnv) : Request → ℤ × Driver
  | .alloc size =>
    match env.vmalloc with
    | none =>
      (-12, { d with returnMsg.unidress := { d.returnMsg.unidress with
        kernelVirtAddr := 0, busAddr := 13 } })
    | some (base, fill) =>
      (9, { d with
        returnMsg := ⟨'z'.toUInt8, ⟨base, 13, size⟩⟩
        memory := copy d.memory fill base base size
        live := (base, size) :: d.live })
  | .destroy addr =>
    (25, { d with live := d.live.filter fun block => block.1 != addr.kernelVirtAddr })
  | .write addr userBuffer userBufferLen =>
    (if u32 env.uncopied ≠ 0 then -1 else 41, { d with
      memory := d.copyFromUser addr.kernelVirtAddr userBuffer userBufferLen env.uncopied })
  | .read addr userBuffer userBufferLen =>
    (if u32 env.uncopied ≠ 0 then -1 else 41, { d with
      user := d.copyToUser userBuffer addr.kernelVirtAddr userBufferLen env.uncopied })

section Handlers

variable (d : Driver) (env : KernelEnv) (type : UInt8) (body pad : List UInt8)

/-- Each handler rejects a body of another length, and does what the fields say. -/
theorem handleWriteC_eq : d.handleWriteC env (type :: (body ++ pad)) (body.length + 1) =
    (if body.length = 8 then some (Request.alloc (ofLe body)) else none).elim
      (-1, d) (d.perform env) := by
  by_cases h : body.length = 8
  · have hsize : slice (type :: (body ++ pad)) 1 8 = body := by
      rw [slice_cons, slice_left h.symm]
    rw [if_pos h, Option.elim_some, h]
    unfold handleWriteC perform
    rw [if_neg (by norm_num), hsize]
    rfl
  · rw [if_neg h, handleWriteC, if_pos (by omega)]
    rfl

theorem handleWriteD_eq : d.handleWriteD (type :: (body ++ pad)) (body.length + 1) =
    (if body.length = 24 then some (Request.destroy (UnimemAddr.decode body)) else none).elim
      (-1, d) (d.perform env) := by
  by_cases h : body.length = 24
  · have haddr : slice (type :: (body ++ pad)) 1 24 = body := by
      rw [slice_cons, slice_left h.symm]
    rw [if_pos h, Option.elim_some, h]
    unfold handleWriteD perform
    rw [if_neg (by norm_num), haddr]
    rfl
  · rw [if_neg h, handleWriteD, if_pos (by omega)]
    rfl

theorem slice_data (h : body.length = 40) :
    slice (type :: (body ++ pad)) 1 24 = slice body 0 24 ∧
      slice (type :: (body ++ pad)) 25 8 = slice body 24 8 ∧
      slice (type :: (body ++ pad)) 33 8 = slice body 32 8 := by
  rw [slice_cons, slice_cons, slice_cons]
  exact ⟨slice_append (by omega) pad, slice_append (by omega) pad, slice_append (by omega) pad⟩

theorem handleWriteW_eq : d.handleWriteW env (type :: (body ++ pad)) (body.length + 1) =
    (if body.length = 40 then some (Request.parseData body .write) else none).elim
      (-1, d) (d.perform env) := by
  by_cases h : body.length = 40
  · obtain ⟨haddr, hptr, hlen⟩ := slice_data type body pad h
    rw [if_pos h, Option.elim_some, h]
    unfold handleWriteW perform Request.parseData
    rw [if_neg (by norm_num), haddr, hptr, hlen]
    dsimp only
    split <;> rfl
  · rw [if_neg h, handleWriteW, if_pos (by omega)]
    rfl

theorem handleWriteR_eq : d.handleWriteR env (type :: (body ++ pad)) (body.length + 1) =
    (if body.length = 40 then some (Request.parseData body .read) else none).elim
      (-1, d) (d.perform env) := by
  by_cases h : body.length = 40
  · obtain ⟨haddr, hptr, hlen⟩ := slice_data type body pad h
    rw [if_pos h, Option.elim_some, h]
    unfold handleWriteR perform Request.parseData
    rw [if_neg (by norm_num), haddr, hptr, hlen]
    dsimp only
    split <;> rfl
  · rw [if_neg h, handleWriteR, if_pos (by omega)]
    rfl

end Handlers

/-- The handler for the type, which then looks at the length. -/
theorem devWrite_cons (d : Driver) (env : KernelEnv) (type : UInt8) {body : List UInt8}
    (h : body.length ≤ 40) : d.devWrite env (type :: body) =
      let kBuf := type :: (body ++ List.replicate (40 - body.length) 0)
      if type = 'C'.toUInt8 then d.handleWriteC env kBuf (body.length + 1)
      else if type = 'D'.toUInt8 then d.handleWriteD kBuf (body.length + 1)
      else if type = 'W'.toUInt8 then d.handleWriteW env kBuf (body.length + 1)
      else if type = 'R'.toUInt8 then d.handleWriteR env kBuf (body.length + 1)
      else (-1, d) := by
  have hpad : 41 - (body.length + 1) = 40 - body.length := by omega
  rw [devWrite, List.length_cons, List.cons_append, if_neg (by omega), hpad]
  simp only [List.head?_cons, Option.some.injEq]

/-- `dev_write` rejects what is no request, and does what the request says. -/
theorem devWrite_eq (d : Driver) (env : KernelEnv) (buf : List UInt8) :
    d.devWrite env buf = (Request.parse buf).elim (-1, d) (d.perform env) := by
  cases buf with
  | nil => rfl
  | cons type body =>
    by_cases hlong : body.length ≤ 40
    · rw [d.devWrite_cons env type hlong]
      dsimp only
      by_cases hC : type = 'C'.toUInt8
      · rw [if_pos hC, handleWriteC_eq, hC, Request.parse_C]
      rw [if_neg hC]
      by_cases hD : type = 'D'.toUInt8
      · rw [if_pos hD, handleWriteD_eq d env, hD, Request.parse_D]
      rw [if_neg hD]
      by_cases hW : type = 'W'.toUInt8
      · rw [if_pos hW, handleWriteW_eq, hW, Request.parse_W]
      rw [if_neg hW]
      by_cases hR : type = 'R'.toUInt8
      · rw [if_pos hR, handleWriteR_eq, hR, Request.parse_R]
      rw [if_neg hR, Request.parse_other body hC hD hW hR]
      rfl
    · have hnone : Request.parse (type :: body) = none := by
        rw [Request.parse, if_neg (by omega), if_neg (by omega), if_neg (by omega),
          if_neg (by omega)]
      rw [hnone, devWrite, List.length_cons, if_pos (by omega)]
      rfl

/-- A request in its encoding is accepted, and its fields arrive. -/
theorem devWrite_encode (d : Driver) (env : KernelEnv) {q : Request} (h : q.InRange) :
    d.devWrite env q.encode = d.perform env q := by
  rw [devWrite_eq, Request.parse_encode h]
  rfl

theorem devRead_pending {d : Driver} {len : ℕ} (hz : d.returnMsg.type = 'z'.toUInt8)
    (hlen : 25 ≤ len) : d.devRead len =
      (25, 'z'.toUInt8 :: d.returnMsg.unidress.encode, { d with returnMsg.type := 0 }) := by
  unfold devRead
  rw [if_neg (by rw [hz]; decide), if_neg (not_not.mpr hz), if_neg hlen.not_gt]

theorem devRead_record {d d' : Driver} {len : ℕ} {rc : ℤ} {record : List UInt8}
    (h : d.devRead len = (rc, 'z'.toUInt8 :: record, d')) :
    rc = 25 ∧ record = d.returnMsg.unidress.encode ∧ d' = { d with returnMsg.type := 0 } := by
  unfold devRead at h
  by_cases hnone : d.returnMsg.type = 0
  · rw [if_pos hnone] at h
    cases h
  rw [if_neg hnone] at h
  by_cases hother : d.returnMsg.type ≠ 'z'.toUInt8
  · rw [if_pos hother] at h
    cases h
  rw [if_neg hother] at h
  by_cases hshort : len < 25
  · rw [if_pos hshort] at h
    cases h
  rw [if_neg hshort] at h
  cases h
  exact ⟨rfl, rfl, rfl⟩

end Driver

end FpgaMl
