import Mathlib.Tactic

/-! ASCII in UTF-8. A character that is not ASCII has no byte below 128, so that a text begins or
ends with ASCII characters exactly if its bytes do. -/
namespace AsciiText
set_option autoImplicit false

def bytes (text : List Char) : List UInt8 := text.flatMap String.utf8EncodeChar

def IsAscii (c : Char) : Prop := c.val.toNat ≤ 127

instance (c : Char) : Decidable (IsAscii c) := inferInstanceAs (Decidable (_ ≤ _))

def asciiByte (c : Char) : UInt8 := UInt8.ofNat c.val.toNat

theorem encode_ascii {c : Char} (h : IsAscii c) : String.utf8EncodeChar c = [asciiByte c] := if_pos h

theorem le_of_mem_encode {c : Char} (h : ¬ IsAscii c) {b : UInt8}
    (hb : b ∈ String.utf8EncodeChar c) : 128 ≤ b.toNat := by
  have hv : ¬ c.val.toNat ≤ 0x7f := h
  unfold String.utf8EncodeChar at hb
  simp only [hv, if_false] at hb
  split at hb
  · simp only [List.mem_cons, List.not_mem_nil, or_false] at hb
    obtain rfl | rfl := hb <;> simp only [UInt8.toNat_ofNat'] <;> omega
  · split at hb
    · simp only [List.mem_cons, List.not_mem_nil, or_false] at hb
      obtain rfl | rfl | rfl := hb <;> simp only [UInt8.toNat_ofNat'] <;> omega
    · simp only [List.mem_cons, List.not_mem_nil, or_false] at hb
      obtain rfl | rfl | rfl | rfl := hb <;> simp only [UInt8.toNat_ofNat'] <;> omega

theorem toNat_asciiByte {c : Char} (h : IsAscii c) : (asciiByte c).toNat = c.val.toNat := by
  have hv : c.val.toNat ≤ 127 := h
  unfold asciiByte
  rw [UInt8.toNat_ofNat']
  omega

theorem asciiByte_inj {c d : Char} (hc : IsAscii c) (hd : IsAscii d) :
    asciiByte c = asciiByte d ↔ c = d := by
  constructor
  · intro h
    apply Char.ext
    apply UInt32.toNat_inj.mp
    rw [← toNat_asciiByte hc, ← toNat_asciiByte hd, h]
  · intro h
    rw [h]

/-- A character begins with the byte of an ASCII one, or ends with it, only if it is that one. -/
theorem asciiByte_mem_encode {c d : Char} (hc : IsAscii c) :
    asciiByte c ∈ String.utf8EncodeChar d ↔ d = c := by
  by_cases hd : IsAscii d
  · rw [encode_ascii hd, List.mem_singleton, asciiByte_inj hc hd]
    exact eq_comm
  · refine iff_of_false (fun h => ?_) fun h => hd (h ▸ hc)
    have hle := le_of_mem_encode hd h
    have hv : c.val.toNat ≤ 127 := hc
    rw [toNat_asciiByte hc] at hle
    omega

theorem bytes_concat (text : List Char) (c : Char) :
    bytes (text ++ [c]) = bytes text ++ String.utf8EncodeChar c := by
  unfold bytes
  rw [List.flatMap_append, List.flatMap_singleton]

theorem bytes_head?_iff {c : Char} (hc : IsAscii c) (text : List Char) :
    (bytes text).head? = some (asciiByte c) ↔ text.head? = some c := by
  cases text with
  | nil => exact iff_of_false nofun nofun
  | cons d rest =>
    have hhead : (bytes (d :: rest)).head? = (String.utf8EncodeChar d).head? := by
      unfold bytes
      rw [List.flatMap_cons, List.head?_append_of_ne_nil _ String.utf8EncodeChar_ne_nil]
    rw [hhead, List.head?_cons, Option.some.injEq]
    constructor
    · intro h
      exact (asciiByte_mem_encode hc).mp (List.mem_of_head? h)
    · intro h
      rw [h, encode_ascii hc]
      rfl

/-- By the last characters of the suffix. -/
theorem bytes_suffix_iff {suffix : List Char} (hsuffix : ∀ c ∈ suffix, IsAscii c)
    (text : List Char) : bytes suffix <:+ bytes text ↔ suffix <:+ text := by
  induction suffix using List.reverseRecOn generalizing text with
  | nil => exact iff_of_true List.nil_suffix List.nil_suffix
  | append_singleton suffix c ih =>
    have hc := hsuffix c (List.mem_append_right _ List.mem_cons_self)
    have ih := ih fun d hd => hsuffix d (List.mem_append_left _ hd)
    rw [bytes_concat, encode_ascii hc]
    obtain rfl | ⟨text, d, rfl⟩ := List.eq_nil_or_concat' text
    · refine iff_of_false (fun h => ?_) fun h => ?_
      · exact absurd (List.suffix_nil.mp h) (List.append_ne_nil_of_right_ne_nil _ nofun)
      · exact absurd (List.suffix_nil.mp h) (List.append_ne_nil_of_right_ne_nil _ nofun)
    · by_cases hd : d = c
      · rw [hd, bytes_concat, encode_ascii hc, List.suffix_append_self_iff,
          List.suffix_append_self_iff]
        exact ih text
      · refine iff_of_false (fun h => hd ?_) fun h => hd ?_
        · rw [bytes_concat] at h
          have hlast : [asciiByte c] <:+ String.utf8EncodeChar d := by
            apply List.suffix_of_suffix_length_le ((List.suffix_append _ _).trans h)
              (List.suffix_append _ _)
            exact List.length_pos_iff.mpr String.utf8EncodeChar_ne_nil
          exact (asciiByte_mem_encode hc).mp (hlast.subset List.mem_cons_self)
        · have hlast := (List.suffix_append suffix [c]).trans h
          exact (List.singleton_suffix_append_singleton_iff.mp hlast).symm

end AsciiText
