import Mathlib.Tactic
import FpgaMl.Foundation.AsciiText
import FpgaMl.BitstreamModes

/-! # The scan of the directory (bitstream_manager.cc)

`get_xml_files_list` without the map, on the bytes of the names. A `none` is the `out_of_range` of
`substr`, which nobody catches. -/
namespace FpgaMl
open BitstreamsDir
set_option autoImplicit false

namespace XmlListing

/-- `std::string::substr`. -/
def substr (s : List UInt8) (pos count : ℕ) : Option (List UInt8) :=
  if s.length < pos then none else some ((s.drop pos).take count)

/-- The unsigned difference `stmp.size() - 4`. -/
def lessFour (size : ℕ) : ℕ := if size < 4 then 2 ^ 64 - 4 + size else size - 4

def dot : List UInt8 := [46]
def dotXml : List UInt8 := [46, 120, 109, 108]

/-- One turn of the loop. -/
def scanEntry (xmlFilesVec : List (List UInt8)) (stmp : List UInt8) :
    Option (List (List UInt8)) :=
  if stmp = dot ∨ stmp = dot ++ dot ∨ stmp.take 1 = dot then some xmlFilesVec
  else (substr stmp (lessFour stmp.length) 4).map fun subStmp =>
    if subStmp = dotXml then xmlFilesVec ++ [stmp] else xmlFilesVec

def getXmlFilesList (entries xmlFilesVec : List (List UInt8)) : Option (List (List UInt8)) :=
  entries.foldlM scanEntry xmlFilesVec

/-! ## What is listed -/

def startsWithDot (name : List UInt8) : Bool := name.head? == some 46

def isBitstreamFile (name : List UInt8) : Bool := !startsWithDot name && dotXml.isSuffixOf name

theorem startsWithDot_iff (stmp : List UInt8) :
    (stmp = dot ∨ stmp = dot ++ dot ∨ stmp.take 1 = dot) ↔ startsWithDot stmp = true := by
  unfold startsWithDot dot
  cases stmp with
  | nil => simp
  | cons c rest =>
    have htake : (c :: rest).take 1 = [46] ↔ c = 46 := by simp
    rw [htake, List.head?_cons, beq_iff_eq, Option.some.injEq]
    constructor
    · rintro (h | h | h)
      · exact (List.cons.inj h).1
      · exact (List.cons.inj h).1
      · exact h
    · exact fun h => Or.inr (Or.inr h)

theorem substr_short {s : List UInt8} (h : s.length < 4) : substr s (lessFour s.length) 4 = none := by
  unfold substr lessFour
  rw [if_pos h]
  apply if_pos
  omega

/-- The last four bytes. -/
theorem substr_long {s : List UInt8} (h : 4 ≤ s.length) :
    substr s (lessFour s.length) 4 = some (s.drop (s.length - 4)) := by
  have hdrop : (s.drop (s.length - 4)).length ≤ 4 := by
    rw [List.length_drop]
    omega
  unfold substr lessFour
  rw [if_neg (not_lt.mpr h), if_neg (by omega), List.take_of_length_le hdrop]

theorem drop_eq_dotXml_iff (s : List UInt8) : s.drop (s.length - 4) = dotXml ↔ dotXml <:+ s := by
  rw [List.suffix_iff_eq_drop]
  exact eq_comm

theorem isBitstreamFile_eq {name : List UInt8} (h : startsWithDot name = false) :
    isBitstreamFile name = true ↔ dotXml <:+ name := by
  unfold isBitstreamFile
  rw [h, Bool.not_false, Bool.true_and, List.isSuffixOf_iff_suffix]

theorem scanEntry_eq (xmlFilesVec : List (List UInt8)) (stmp : List UInt8) :
    scanEntry xmlFilesVec stmp =
      if startsWithDot stmp = true ∨ 4 ≤ stmp.length then
        some (xmlFilesVec ++ [stmp].filter isBitstreamFile)
      else none := by
  unfold scanEntry
  simp only [startsWithDot_iff]
  cases hdot : startsWithDot stmp with
  | true =>
    have hfile : isBitstreamFile stmp = false := by
      unfold isBitstreamFile
      rw [hdot]
      rfl
    simp [hfile]
  | false =>
    simp only [Bool.false_eq_true, if_false, false_or]
    by_cases hlen : 4 ≤ stmp.length
    · rw [substr_long hlen, Option.map_some, if_pos hlen, List.filter_cons, List.filter_nil]
      simp only [drop_eq_dotXml_iff, isBitstreamFile_eq hdot]
      split
      · rfl
      · rw [List.append_nil]
    · rw [substr_short (not_le.mp hlen), if_neg hlen]
      rfl

theorem getXmlFilesList_eq (entries xmlFilesVec : List (List UInt8)) :
    getXmlFilesList entries xmlFilesVec =
      if ∀ name ∈ entries, startsWithDot name = true ∨ 4 ≤ name.length then
        some (xmlFilesVec ++ entries.filter isBitstreamFile)
      else none := by
  unfold getXmlFilesList
  induction entries generalizing xmlFilesVec with
  | nil => simp
  | cons name rest ih =>
    rw [List.foldlM_cons, scanEntry_eq]
    simp only [List.forall_mem_cons]
    by_cases hname : startsWithDot name = true ∨ 4 ≤ name.length
    · rw [if_pos hname, Option.bind_eq_bind, Option.bind_some, ih]
      simp only [hname, true_and, List.append_assoc, ← List.filter_append, List.singleton_append]
    · rw [if_neg hname, if_neg fun h => hname h.1]
      rfl

/-- The names that do not start with a dot and end in `.xml` are appended, in their order. -/
def ListsBitstreams (entries : List (List UInt8)) : Prop :=
  ∀ xmlFilesVec, getXmlFilesList entries xmlFilesVec =
    some (xmlFilesVec ++ entries.filter isBitstreamFile)

/-- The scan lists the bitstreams exactly if every name that does not start with a dot has four
bytes. -/
theorem lists_bitstreams_iff (entries : List (List UInt8)) :
    ListsBitstreams entries ↔ ∀ name ∈ entries, startsWithDot name = true ∨ 4 ≤ name.length := by
  unfold ListsBitstreams
  simp only [getXmlFilesList_eq, ite_eq_left_iff, reduceCtorEq, imp_false, not_not]
  exact ⟨fun h => h [], fun h _ => h⟩

/-- A file `a` between the directories and the bitstream. -/
theorem scan_stopped : getXmlFilesList [dot, dot ++ dot, [97], [111, 110, 101] ++ dotXml] [] = none ∧
    ¬ ListsBitstreams [dot, dot ++ dot, [97], [111, 110, 101] ++ dotXml] := by
  have hscan : getXmlFilesList [dot, dot ++ dot, [97], [111, 110, 101] ++ dotXml] [] = none := by
    decide +kernel
  refine ⟨hscan, fun h => ?_⟩
  rw [h []] at hscan
  cases hscan

/-! ## The manager's scan, on the bytes of its names -/

def nameBytes (name : String) : List UInt8 := AsciiText.bytes name.toList

theorem length_nameBytes (name : String) : (nameBytes name).length = name.utf8ByteSize := by
  have htext : (nameBytes name).toByteArray = name.toByteArray := String.utf8Encode_toList
  rw [← List.size_toByteArray, htext]
  rfl

theorem startsWithDot_nameBytes (name : String) :
    startsWithDot (nameBytes name) = isHidden name := by
  have hhead := AsciiText.bytes_head?_iff (by decide : AsciiText.IsAscii '.') name.toList
  unfold startsWithDot isHidden nameBytes
  rw [Bool.eq_iff_iff, beq_iff_eq, beq_iff_eq]
  exact hhead

theorem isBitstreamFile_nameBytes (name : String) :
    isBitstreamFile (nameBytes name) = isXmlFile name := by
  have htext : ".xml".toList = ['.', 'x', 'm', 'l'] := rfl
  have hascii : ∀ c ∈ ['.', 'x', 'm', 'l'], AsciiText.IsAscii c := by
    intro c hc
    simp only [List.mem_cons, List.not_mem_nil, or_false] at hc
    obtain rfl | rfl | rfl | rfl := hc <;> decide
  have hdotXml : AsciiText.bytes ['.', 'x', 'm', 'l'] = dotXml := by decide
  have hsuffix := AsciiText.bytes_suffix_iff hascii name.toList
  unfold isBitstreamFile isXmlFile
  rw [startsWithDot_nameBytes]
  congr 1
  rw [Bool.eq_iff_iff, List.isSuffixOf_iff_suffix, List.isSuffixOf_iff_suffix, htext, ← hsuffix,
    hdotXml]
  rfl

theorem isShort_eq_false (name : String) : isShort name = false ↔
    startsWithDot (nameBytes name) = true ∨ 4 ≤ (nameBytes name).length := by
  unfold isShort
  rw [startsWithDot_nameBytes, length_nameBytes]
  cases isHidden name <;> simp

/-- The scan of a manager without the map is this one. -/
theorem getXmlFilesList_plain (dir : BitstreamsDir) (names : List String) (m : BitstreamManager)
    (hm : m.enabledMmap = false) :
    (BitstreamManager.getXmlFilesList dir names m).map (fun answer => answer.2.xmlFilesList.map nameBytes) =
      getXmlFilesList (names.map nameBytes) (m.xmlFilesList.map nameBytes) := by
  have hshort : (∃ name ∈ names, isShort name = true) ↔ ¬ ∀ name ∈ names.map nameBytes,
      startsWithDot name = true ∨ 4 ≤ name.length := by
    simp only [List.forall_mem_map, ← isShort_eq_false, not_forall, Bool.not_eq_false, exists_prop]
  have hfiles : (names.map nameBytes).filter isBitstreamFile = (xmlFiles names).map nameBytes := by
    unfold xmlFiles
    rw [List.filter_map]
    congr 2
    exact funext isBitstreamFile_nameBytes
  rw [BitstreamManager.scan_plain names m hm, getXmlFilesList_eq, hfiles]
  by_cases h : ∀ name ∈ names.map nameBytes, startsWithDot name = true ∨ 4 ≤ name.length
  · rw [if_neg (hshort.not.mpr (not_not.mpr h)), if_pos h, Option.map_some, List.map_append]
  · rw [if_pos (hshort.mpr h), if_neg h]
    rfl

end XmlListing

end FpgaMl
