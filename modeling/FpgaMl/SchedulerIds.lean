import Mathlib.Tactic
import FpgaMl.BitstreamManager
import FpgaMl.SlicingChoice

/-! # The ids of the schedulers (sched_config_common.cc, scheduler_common.cc)

The regions of the configuration, as the extractors read them, and the schedulers made of them. An
id packs the three numbers of a region with strides that only FPGAs 1 to 4 and regions 0 to 3 stay
within, and only the number of the board is checked. -/
namespace FpgaMl
open MachineInt
set_option autoImplicit false

/-- `strtoull` with base 10. -/
def strtoull10 (s : String) : ℕ :=
  let (negative, digits) := takeSign (skipSpaces s.toList)
  let n := readDigits 10 digits
  if 2 ^ 64 ≤ n then 2 ^ 64 - 1 else if negative then u64 (2 ^ 64 - n) else n

namespace SchedConfig

/-- What an extractor sets; a value that is missing or empty leaves the zero of the tuple. -/
def extract (pr : XmlNode) (name : String) (read : String → ℕ) : ℕ :=
  let value := XmlNode.childValue (XmlNode.child (some pr) name)
  if value = "" then 0 else read value

def readRegion (pr : XmlNode) : ℕ × ℕ × ℕ :=
  (extract pr "BoardID" strtoull10, extract pr "FpgaID" fun value => toU32 (atoi value),
    extract pr "PRID" fun value => toU32 (atoi value))

/-- `get_values_for_key` on the node of the regions, of which there may be none. -/
def regions (topNode : XmlNode) : List (ℕ × ℕ × ℕ) :=
  ((XmlNode.child (some topNode) "PRs").map XmlNode.children).getD [] |>.map readRegion

/-- The constructor, for the regions that were read, with the end times that their schedulers start
with; `none` is the exception of a scheduler. -/
def schedulers : List (ℕ × ℕ × ℕ) → (ℕ → ℚ) → Option (List Scheduler)
  | [], _ => some []
  | pr :: prs, ends => do
    let s ← Scheduler.new pr.1 pr.2.1 pr.2.2 (ends 0)
    let ss ← schedulers prs fun k => ends (k + 1)
    return s :: ss

/-- Different regions have schedulers with different ids. -/
def UniqueIds (prs : List (ℕ × ℕ × ℕ)) (schedulers : List Scheduler) : Prop :=
  ∀ (k l : ℕ) (a b : ℕ × ℕ × ℕ) (s t : Scheduler), prs[k]? = some a → schedulers[k]? = some s →
    prs[l]? = some b → schedulers[l]? = some t → a ≠ b → s.id ≠ t.id

theorem new_id {pr : ℕ × ℕ × ℕ} {e : ℚ} {s : Scheduler}
    (h : Scheduler.new pr.1 pr.2.1 pr.2.2 e = some s) :
    s.id = regionId pr := by
  obtain ⟨-, h⟩ := Option.ite_none_right_eq_some.mp h
  rw [← Option.some.inj h]
  rfl

theorem ids_schedulers {prs : List (ℕ × ℕ × ℕ)} {ends : ℕ → ℚ} {ss : List Scheduler}
    (h : schedulers prs ends = some ss) : ss.map Scheduler.id = prs.map regionId := by
  induction prs generalizing ends ss with
  | nil =>
    cases h
    rfl
  | cons pr prs ih =>
    obtain ⟨s, hs, h⟩ := Option.bind_eq_some_iff.mp h
    obtain ⟨rest, hrest, h⟩ := Option.bind_eq_some_iff.mp h
    obtain rfl := Option.some.inj h
    rw [List.map_cons, List.map_cons, new_id hs, ih hrest]

/-- The last two bits of an id are those of the number of the region; the others hold a sum. -/
theorem regionId_eq_iff (a b : ℕ × ℕ × ℕ) : regionId a = regionId b ↔ a.2.2 % 4 = b.2.2 % 4 ∧
    (4 * a.1 + a.2.1 + a.2.2 / 4) % 2 ^ 30 = (4 * b.1 + b.2.1 + b.2.2 / 4) % 2 ^ 30 := by
  unfold regionId u32 sub32
  omega

/-- FPGAs 1 to 4 and regions 0 to 3 stay within the strides. -/
theorem regionId_injective {a b : ℕ × ℕ × ℕ} (ha : a.1 ≤ 3 ∧ 1 ≤ a.2.1 ∧ a.2.1 ≤ 4 ∧ a.2.2 ≤ 3)
    (hb : b.1 ≤ 3 ∧ 1 ≤ b.2.1 ∧ b.2.1 ≤ 4 ∧ b.2.2 ≤ 3) (h : regionId a = regionId b) : a = b := by
  obtain ⟨hregion, hsum⟩ := (regionId_eq_iff a b).mp h
  refine Prod.ext ?_ (Prod.ext ?_ ?_) <;> omega

/-- The ids are unique exactly when different regions that agree modulo 4 in PRID differ, modulo
2^30, in the sum of 4 * BoardID, FpgaID and PRID / 4. -/
theorem ids_unique_iff {prs : List (ℕ × ℕ × ℕ)} {ends : ℕ → ℚ} {ss : List Scheduler}
    (h : schedulers prs ends = some ss) : UniqueIds prs ss ↔
      ∀ a ∈ prs, ∀ b ∈ prs, a ≠ b → a.2.2 % 4 = b.2.2 % 4 →
        (4 * a.1 + a.2.1 + a.2.2 / 4) % 2 ^ 30 ≠ (4 * b.1 + b.2.1 + b.2.2 / 4) % 2 ^ 30 := by
  have hids : ∀ (k : ℕ) (a : ℕ × ℕ × ℕ) (s : Scheduler), prs[k]? = some a → ss[k]? = some s →
      s.id = regionId a := fun k a s ha hs => by
    have hk := congrArg (fun l : List ℕ => l[k]?) (ids_schedulers h)
    simpa [ha, hs] using hk
  have hlength : ss.length = prs.length := by
    have hlen := congrArg List.length (ids_schedulers h)
    rwa [List.length_map, List.length_map] at hlen
  have hfind : ∀ a ∈ prs, ∃ (k : ℕ) (s : Scheduler), prs[k]? = some a ∧ ss[k]? = some s :=
    fun a ha => by
      obtain ⟨k, hk, rfl⟩ := List.mem_iff_getElem.mp ha
      exact ⟨k, ss[k], List.getElem?_eq_getElem hk, List.getElem?_eq_getElem (hlength ▸ hk)⟩
  constructor
  · intro hunique a ha b hb hne hregion hsum
    obtain ⟨k, s, hk, hs⟩ := hfind a ha
    obtain ⟨l, t, hl, ht⟩ := hfind b hb
    apply hunique k l a b s t hk hs hl ht hne
    rw [hids k a s hk hs, hids l b t hl ht, regionId_eq_iff]
    exact ⟨hregion, hsum⟩
  · intro hcond k l a b s t hk hs hl ht hne hsame
    rw [hids k a s hk hs, hids l b t hl ht, regionId_eq_iff] at hsame
    exact hcond a (List.mem_of_getElem? hk) b (List.mem_of_getElem? hl) hne hsame.1 hsame.2

/-- The regions of the default configuration. -/
theorem ids_unique_iff_default : ∃ ss, schedulers [(0, 1, 1), (0, 1, 3)] (fun _ => 0) = some ss ∧
    UniqueIds [(0, 1, 1), (0, 1, 3)] ss := by
  obtain ⟨ss, hss⟩ := Option.isSome_iff_exists.mp
    (show (schedulers [(0, 1, 1), (0, 1, 3)] fun _ => 0).isSome = true by decide +kernel)
  exact ⟨ss, hss, (ids_unique_iff hss).mpr (by decide +kernel)⟩

/-- A node of the configuration with the numbers of a region. -/
def regionNode (boardId fpgaId prId : String) : XmlNode :=
  .element "PR" [.element "BoardID" [.text boardId], .element "FpgaID" [.text fpgaId],
    .element "PRID" [.text prId]]

/-- Region 4 of the first FPGA has the id of region 0 of the second one. -/
theorem ids_collide : ∃ ss, regions (.element "ConfigParams" [.element "PRs"
      [regionNode "0" "1" "4", regionNode "0" "2" "0"]]) = [(0, 1, 4), (0, 2, 0)] ∧
    schedulers [(0, 1, 4), (0, 2, 0)] (fun _ => 0) = some ss ∧ ¬ UniqueIds [(0, 1, 4), (0, 2, 0)] ss := by
  have hread : regions (.element "ConfigParams" [.element "PRs"
      [regionNode "0" "1" "4", regionNode "0" "2" "0"]]) = [(0, 1, 4), (0, 2, 0)] := by
    decide +kernel
  have hrun : (schedulers [(0, 1, 4), (0, 2, 0)] fun _ => 0).map (fun ss => ss.map Scheduler.id) =
      some [4, 4] := by
    decide +kernel
  obtain ⟨ss, hss, hids⟩ := Option.map_eq_some_iff.mp hrun
  refine ⟨ss, hread, hss, fun h => ?_⟩
  obtain _ | ⟨s, _ | ⟨t, ss⟩⟩ := ss
  · cases hids
  · simp at hids
  · obtain ⟨hs, ht⟩ := List.cons.inj hids
    exact h 0 1 (0, 1, 4) (0, 2, 0) s t rfl rfl rfl rfl (by decide)
      (hs.trans (List.cons.inj ht).1.symm)

end SchedConfig

end FpgaMl
