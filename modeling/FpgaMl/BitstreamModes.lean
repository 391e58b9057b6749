import Mathlib.Tactic
import FpgaMl.BitstreamManager

/-! # The two modes of the bitstream manager

What the scan and the extraction leave in the two maps and in the list of the files, for every
directory; from it, when `get_bit_stream` answers alike in the two modes. -/
namespace FpgaMl
open KeyedLoad
set_option autoImplicit false

namespace BitstreamsDir

/-- The xml files of a listing, in its order. -/
def xmlFiles (names : List String) : List String := names.filter isXmlFile

/-- The entry does not stop a scan that maps the files. -/
def passes (dir : BitstreamsDir) (name : String) : Bool :=
  !isXmlFile name || (dir.mapFile name).isSome

/-- The entries in front of the first xml file that cannot be mapped. -/
def reached (dir : BitstreamsDir) (names : List String) : List String :=
  names.takeWhile dir.passes

def parsed (dir : BitstreamsDir) (parse : List UInt8 → Option XmlNode) (name : String) :
    Option XmlNode := (dir.contents name).bind parse

end BitstreamsDir

open BitstreamsDir

@[simp] theorem xmlFiles_cons (name : String) (rest : List String) :
    xmlFiles (name :: rest) = if isXmlFile name then name :: xmlFiles rest else xmlFiles rest :=
  List.filter_cons

theorem isShort_of_isXmlFile {name : String} (h : isXmlFile name = true) : isShort name = false := by
  unfold isXmlFile at h
  obtain ⟨-, hsuffix⟩ := (Bool.and_eq_true _ _).mp h
  obtain ⟨stem, hstem⟩ := List.isSuffixOf_iff_suffix.mp hsuffix
  have hname : name = String.ofList stem ++ ".xml" := String.toList_inj.mp (by
    rw [String.toList_append, String.toList_ofList, hstem])
  have hsize : 4 ≤ name.utf8ByteSize := by
    rw [hname, String.utf8ByteSize_append]
    exact Nat.le_add_left 4 _
  unfold isShort
  rw [decide_eq_false (not_lt.mpr hsize), Bool.and_false]

theorem mem_xmlFiles {names : List String} {name : String} :
    name ∈ xmlFiles names ↔ name ∈ names ∧ isXmlFile name = true := List.mem_filter

namespace BitstreamManager

variable {dir : BitstreamsDir}

/-! ## The scan -/

/-- A hidden entry is one of those that are neither short nor xml files. -/
theorem getXmlFilesList_cons (name : String) (rest : List String) (m : BitstreamManager) :
    getXmlFilesList dir (name :: rest) m =
      if isShort name then none
      else if isXmlFile name then
        if m.enabledMmap then
          match dir.mapFile name with
          | none => some (false, m.addXmlFile name)
          | some bytes => getXmlFilesList dir rest ((m.addXmlFile name).addMapping name bytes)
        else getXmlFilesList dir rest (m.addXmlFile name)
      else getXmlFilesList dir rest m := by
  rw [getXmlFilesList]
  cases hhidden : isHidden name with
  | true =>
    have hshort : isShort name = false := by
      unfold isShort
      rw [hhidden]
      rfl
    have hxml : isXmlFile name = false := by
      unfold isXmlFile
      rw [hhidden]
      rfl
    rw [hshort, hxml]
    rfl
  | false => rfl

theorem scan_plain (names : List String) (m : BitstreamManager) (hm : m.enabledMmap = false) :
    getXmlFilesList dir names m = if ∃ name ∈ names, isShort name = true then none
      else some (true, { m with xmlFilesList := m.xmlFilesList ++ xmlFiles names }) := by
  induction names generalizing m with
  | nil => simp [getXmlFilesList, xmlFiles]
  | cons name rest ih =>
    rw [getXmlFilesList_cons, xmlFiles_cons]
    simp only [List.mem_cons, exists_eq_or_imp]
    cases hshort : isShort name with
    | true => simp
    | false =>
      simp only [Bool.false_eq_true, if_false, false_or]
      cases hxml : isXmlFile name with
      | true =>
        rw [if_pos rfl, if_neg (by rw [hm]; exact Bool.false_ne_true), ih (m.addXmlFile name) hm,
          if_pos rfl]
        unfold addXmlFile
        dsimp only
        rw [List.append_assoc, List.singleton_append]
      | false => exact ih m hm

theorem exists_short_cons {name : String} {names : List String} (h : isShort name = false) :
    (∃ e ∈ name :: names, isShort e = true) ↔ ∃ e ∈ names, isShort e = true := by
  simp [h]

/-- With the map the scan comes as far as the first xml file that cannot be mapped. -/
theorem scan_mmap (dir : BitstreamsDir) (names : List String) (m : BitstreamManager)
    (hm : m.enabledMmap = true) :
    ((∃ name ∈ dir.reached names, isShort name = true) → getXmlFilesList dir names m = none) ∧
    ((∀ name ∈ dir.reached names, isShort name = false) → ∃ found files,
      getXmlFilesList dir names m = some (found, { m with
        xmlFilesList := m.xmlFilesList ++ files
        kernelMmapPtrMap := loadAll dir.mapFile (xmlFiles names) m.kernelMmapPtrMap }) ∧
      (found = true → files = xmlFiles names ∧ ∀ name ∈ names, dir.passes name = true) ∧
      (found = false → ∃ name ∈ files, name ∈ xmlFiles names ∧ dir.mapFile name = none)) := by
  induction names generalizing m with
  | nil => simp [getXmlFilesList, reached, xmlFiles, loadAll]
  | cons name rest ih =>
    rw [getXmlFilesList_cons, xmlFiles_cons, reached, List.takeWhile_cons, passes]
    cases hshort : isShort name with
    | true =>
      have hxml : isXmlFile name = false := by
        by_contra hxml
        rw [isShort_of_isXmlFile (Bool.eq_true_of_not_eq_false hxml)] at hshort
        cases hshort
      rw [hxml]
      refine ⟨fun _ => rfl, fun h => ?_⟩
      have hfirst := h name List.mem_cons_self
      rw [hshort] at hfirst
      cases hfirst
    | false =>
      simp only [Bool.false_eq_true, if_false]
      cases hxml : isXmlFile name with
      | true =>
        rw [if_pos rfl, if_pos hm, if_pos rfl, loadAll]
        cases hmap : dir.mapFile name with
        | none =>
          simp only [Bool.not_true, Option.isSome_none, Bool.or_false, Bool.false_eq_true, if_false]
          refine ⟨fun h => ?_,
            fun _ => ⟨false, [name], rfl, fun hf => absurd hf Bool.false_ne_true, fun _ => ?_⟩⟩
          · obtain ⟨e, he, -⟩ := h
            exact absurd he List.not_mem_nil
          · exact ⟨name, List.mem_cons_self, List.mem_cons_self, hmap⟩
        | some bytes =>
          obtain ⟨hthrow, hend⟩ := ih ((m.addXmlFile name).addMapping name bytes) hm
          simp only [Bool.not_true, Option.isSome_some, Bool.or_true, if_true]
          refine ⟨fun h => hthrow ((exists_short_cons hshort).mp h), fun h => ?_⟩
          obtain ⟨found, files, hscan, hfound, hlost⟩ :=
            hend fun e he => h e (List.mem_cons_of_mem name he)
          refine ⟨found, name :: files, ?_, fun hf => ?_, fun hf => ?_⟩
          · rw [hscan]
            unfold addMapping addXmlFile
            dsimp only
            rw [List.append_assoc, List.singleton_append]
          · obtain ⟨hfiles, hall⟩ := hfound hf
            refine ⟨by rw [hfiles], fun e he => ?_⟩
            obtain rfl | he := List.mem_cons.mp he
            · unfold passes
              rw [hmap, Option.isSome_some, Bool.or_true]
            · exact hall e he
          · obtain ⟨e, he, hexml, hemap⟩ := hlost hf
            exact ⟨e, List.mem_cons_of_mem name he, List.mem_cons_of_mem name hexml, hemap⟩
      | false =>
        obtain ⟨hthrow, hend⟩ := ih m hm
        simp only [Bool.not_false, Bool.true_or, if_true, Bool.false_eq_true, if_false]
        refine ⟨fun h => hthrow ((exists_short_cons hshort).mp h), fun h => ?_⟩
        obtain ⟨found, files, hscan, hfound, hlost⟩ :=
          hend fun e he => h e (List.mem_cons_of_mem name he)
        refine ⟨found, files, hscan, fun hf => ⟨(hfound hf).1, fun e he => ?_⟩, hlost⟩
        obtain rfl | he := List.mem_cons.mp he
        · unfold passes
          rw [hxml]
          rfl
        · exact (hfound hf).2 e he

/-! ## The extraction -/

/-- What `extract_xml_file` puts into the map for a name. -/
def extracted (pugi : Pugi) (dir : BitstreamsDir) (m : BitstreamManager) (name : String) :
    Option BitstreamS :=
  (m.loadDocument pugi dir name).map (readBitstream m.enabledMmap)

variable (pugi : Pugi)

theorem extractFiles_eq (names : List String) (m : BitstreamManager) :
    extractFiles pugi dir names m =
      { m with kernelBitstreamStructMap :=
          loadAll (m.extracted pugi dir) names m.kernelBitstreamStructMap } := by
  induction names generalizing m with
  | nil => rfl
  | cons name rest ih =>
    unfold extractFiles extractXmlFile loadAll extracted
    cases m.loadDocument pugi dir name with
    | none => rfl
    | some doc => exact ih _

/-! ## The constructor -/

theorem new_none (enabledMmap : Bool) (h : dir.listing = none) :
    new pugi enabledMmap dir = some (empty enabledMmap) ∧ dir.files = [] := by
  unfold new files
  rw [h]
  exact ⟨rfl, rfl⟩

theorem new_plain : new pugi false dir =
    if ∃ name ∈ dir.files, isShort name = true then none
    else some { empty false with
      xmlFilesList := xmlFiles dir.files
      kernelBitstreamStructMap := loadAll (fun name => (dir.parsed pugi.loadFile name).map
        (readBitstream false)) (xmlFiles dir.files) fun _ => none } := by
  cases hlist : dir.listing with
  | none =>
    obtain ⟨hnew, hfiles⟩ := new_none pugi false hlist
    rw [hnew, hfiles]
    simp [empty, xmlFiles, loadAll]
  | some names =>
    have hfiles : dir.files = names := by
      unfold files
      rw [hlist]
      rfl
    unfold new
    rw [hlist, hfiles]
    dsimp only
    rw [scan_plain names (empty false) rfl]
    split
    · rfl
    · rw [Option.map_some, if_pos rfl, extractFiles_eq]
      rfl

/-- With the map the scan may throw, it may read the whole directory, or it may stop at a file that
is listed and not mapped. -/
theorem new_mmap (dir : BitstreamsDir) :
    ((∃ name ∈ dir.reached dir.files, isShort name = true) → new pugi true dir = none) ∧
    ((∀ name ∈ dir.reached dir.files, isShort name = false) → ∃ m, new pugi true dir = some m ∧
      m.enabledMmap = true ∧
      m.kernelMmapPtrMap = loadAll dir.mapFile (xmlFiles dir.files) (fun _ => none) ∧
      (((∀ name ∈ dir.files, dir.passes name = true) ∧ m.xmlFilesList = xmlFiles dir.files ∧
          m.kernelBitstreamStructMap =
            loadAll (m.extracted pugi dir) (xmlFiles dir.files) fun _ => none) ∨
        ((∃ name ∈ m.xmlFilesList, name ∈ xmlFiles dir.files ∧ dir.mapFile name = none) ∧
          m.kernelBitstreamStructMap = fun _ => none))) := by
  cases hlist : dir.listing with
  | none =>
    obtain ⟨hnew, hfiles⟩ := new_none pugi true hlist
    rw [hnew, hfiles]
    refine ⟨fun h => ?_, fun _ => ⟨empty true, rfl, rfl, rfl, Or.inl ⟨fun e he => ?_, rfl, rfl⟩⟩⟩
    · obtain ⟨e, he, -⟩ := h
      exact absurd he List.not_mem_nil
    · exact absurd he List.not_mem_nil
  | some names =>
    have hfiles : dir.files = names := by
      unfold files
      rw [hlist]
      rfl
    obtain ⟨hthrow, hend⟩ := scan_mmap dir names (empty true) rfl
    unfold new
    rw [hlist, hfiles]
    dsimp only
    refine ⟨fun h => by rw [hthrow h]; rfl, fun h => ?_⟩
    obtain ⟨found, files, hscan, hfound, hlost⟩ := hend h
    rw [hscan, Option.map_some]
    cases found with
    | true =>
      obtain ⟨rfl, hall⟩ := hfound rfl
      rw [if_pos rfl, extractFiles_eq]
      exact ⟨_, rfl, rfl, rfl, Or.inl ⟨hall, rfl, rfl⟩⟩
    | false =>
      rw [if_neg nofun]
      exact ⟨_, rfl, rfl, rfl, Or.inr ⟨hlost rfl, rfl⟩⟩

/-! ## The law -/

/-- `get_bit_stream` answers alike for every name, whichever mode the manager was made in, when one
function of the bytes parses a file in both. -/
def ModesAgree (parse : List UInt8 → Option XmlNode) (dir : BitstreamsDir) : Prop :=
  ∀ fname, (new (.ofParse parse) true dir).map (fun m => m.getBitStream (.ofParse parse) fname) =
    (new (.ofParse parse) false dir).map fun m => m.getBitStream (.ofParse parse) fname

/-- Some short name comes before the first xml file that cannot be mapped. -/
def ShortReached (dir : BitstreamsDir) : Prop := ∃ name ∈ dir.reached dir.files, isShort name = true

/-- A file that parses has, in front of its first entry, only files that do, or a file that cannot be
mapped. -/
def GoodFirst (parse : List UInt8 → Option XmlNode) (dir : BitstreamsDir) : Prop :=
  ∀ pre name post, xmlFiles dir.files = pre ++ name :: post → name ∉ pre →
    (dir.parsed parse name).isSome = true →
      (∃ other ∈ pre, dir.mapFile other = none) ∨
        ∀ other ∈ pre, (dir.parsed parse other).isSome = true

variable {parse : List UInt8 → Option XmlNode}

/-- pugixml finds no document element in an empty file, so that a file parses as its mapping does. -/
theorem bind_mapFile (hparse : parse [] = none) (dir : BitstreamsDir) (name : String) :
    (dir.mapFile name).bind parse = dir.parsed parse name := by
  unfold mapFile parsed
  cases dir.contents name with
  | none => rfl
  | some bytes =>
    rw [Option.filter_some, Option.bind_some]
    split
    · rfl
    · rename_i hempty
      obtain rfl : bytes = [] := by simpa using hempty
      exact hparse.symm

theorem mapFile_isSome_of_parsed (hparse : parse [] = none) (name : String)
    (h : (dir.parsed parse name).isSome = true) : (dir.mapFile name).isSome = true := by
  rw [← bind_mapFile hparse] at h
  cases hmap : dir.mapFile name with
  | none =>
    rw [hmap] at h
    cases h
  | some bytes => rfl

/-- The text of the bitstream in a file. -/
def textOf (parse : List UInt8 → Option XmlNode) (dir : BitstreamsDir) (fname : String) :
    Option String := (dir.parsed parse fname).map fun doc => bodyValue doc "bitstream"

theorem getBitStream_plain {m : BitstreamManager} (h : new (.ofParse parse) false dir = some m)
    (fname : String) : m.getBitStream (.ofParse parse) fname =
      if fname ∈ loadable (dir.parsed parse) (xmlFiles dir.files) then textOf parse dir fname
      else none := by
  rw [new_plain] at h
  obtain ⟨-, hm⟩ := Option.ite_none_left_eq_some.mp h
  obtain rfl := Option.some.inj hm
  unfold getBitStream textOf loadable
  simp only [empty, Pugi.ofParse, Bool.false_eq_true, if_false]
  rw [loadAll_apply]
  unfold loadable
  simp only [Option.isSome_map]
  split
  · rw [Option.map_map]
    rfl
  · rfl

theorem getBitStream_mmap (hparse : parse [] = none) {m : BitstreamManager}
    (h : new (.ofParse parse) true dir = some m) (fname : String) :
    m.getBitStream (.ofParse parse) fname =
      if fname ∈ loadable dir.mapFile (xmlFiles dir.files) then textOf parse dir fname
      else none := by
  obtain ⟨hthrow, hend⟩ := new_mmap (.ofParse parse) dir
  by_cases hshort : ∃ name ∈ dir.reached dir.files, isShort name = true
  · rw [hthrow hshort] at h
    cases h
  obtain ⟨m', hnew, hmode, hmap, -⟩ := hend fun name hname =>
    Bool.eq_false_of_not_eq_true fun hs => hshort ⟨name, hname, hs⟩
  obtain rfl := Option.some.inj (hnew.symm.trans h)
  unfold getBitStream textOf
  rw [hmode, if_pos rfl, hmap, loadAll_apply]
  split
  · exact congrArg (Option.map _) (bind_mapFile hparse dir fname)
  · rfl

/-- The two modes answer alike exactly when both throw on a short name that the scan of either
reaches, or neither does and every file that parses comes behind files that do, or behind one that
cannot be mapped. -/
theorem modes_agree_iff (hparse : parse [] = none) (dir : BitstreamsDir) :
    ModesAgree parse dir ↔ ShortReached dir ∨
      ((∀ name ∈ dir.files, isShort name = false) ∧ GoodFirst parse dir) := by
  obtain ⟨hthrow, hend⟩ := new_mmap (.ofParse parse) dir
  by_cases hreached : ShortReached dir
  · -- both constructors throw
    obtain ⟨name, hname, hshort⟩ := hreached
    have hplain : new (.ofParse parse) false dir = none := by
      rw [new_plain]
      exact if_pos ⟨name, List.takeWhile_subset _ hname, hshort⟩
    refine iff_of_true (fun fname => ?_) (Or.inl ⟨name, hname, hshort⟩)
    rw [hthrow ⟨name, hname, hshort⟩, hplain]
  obtain ⟨m, hm, -⟩ := hend fun name hname =>
    Bool.eq_false_of_not_eq_true fun hs => hreached ⟨name, hname, hs⟩
  rw [or_iff_right hreached]
  by_cases hshort : ∃ name ∈ dir.files, isShort name = true
  · -- only the plain constructor throws
    have hplain : new (.ofParse parse) false dir = none := by
      rw [new_plain]
      exact if_pos hshort
    refine iff_of_false (fun h => ?_) fun h => ?_
    · have hall := h ""
      rw [hm, hplain] at hall
      cases hall
    · obtain ⟨name, hname, hs⟩ := hshort
      rw [h.1 name hname] at hs
      cases hs
  · obtain ⟨m', hm'⟩ : ∃ m', new (.ofParse parse) false dir = some m' := by
      rw [new_plain, if_neg hshort]
      exact ⟨_, rfl⟩
    have hnone : ∀ name ∈ dir.files, isShort name = false := fun name hname =>
      Bool.eq_false_of_not_eq_true fun hs => hshort ⟨name, hname, hs⟩
    unfold GoodFirst
    rw [and_iff_right hnone, ← loadable_subset_iff (mapFile_isSome_of_parsed hparse)]
    unfold ModesAgree
    rw [hm, hm']
    simp only [Option.map_some, Option.some.injEq, getBitStream_plain hm',
      getBitStream_mmap hparse hm]
    refine forall_congr' fun fname => ?_
    have hsub : fname ∈ loadable (dir.parsed parse) (xmlFiles dir.files) →
        fname ∈ loadable dir.mapFile (xmlFiles dir.files) :=
      loadable_mono (mapFile_isSome_of_parsed hparse)
    by_cases hplain : fname ∈ loadable (dir.parsed parse) (xmlFiles dir.files)
    · rw [if_pos hplain, if_pos (hsub hplain)]
      exact iff_of_true rfl fun _ _ => hplain
    · rw [if_neg hplain, imp_congr_right fun _ => imp_congr_right fun _ => iff_false_intro hplain]
      unfold textOf
      split
      · rename_i hmap
        simp [hmap]
      · rename_i hmap
        exact iff_of_true rfl fun h => absurd h hmap

def sampleText : List UInt8 :=
  "<data><body><bitstream>a</bitstream></body></data>".toUTF8.toList

/-- What pugixml answers for this text, and for one without any element. -/
def parseSample (bytes : List UInt8) : Option XmlNode :=
  if bytes = sampleText then
    some (.element "" [.element "data" [.element "body" [.element "bitstream" [.text "a"]]]])
  else none

/-- Two files, the second one malformed. -/
theorem modes_agree_iff_good_first :
    ModesAgree parseSample ⟨some ["one.xml", "two.xml"],
      fun name => if name = "one.xml" then some sampleText else some [120]⟩ := by
  refine (modes_agree_iff (by decide +kernel) _).mpr (Or.inr ⟨by decide +kernel, ?_⟩)
  intro pre name post heq hnew hgood
  have hfiles : xmlFiles ["one.xml", "two.xml"] = pre ++ name :: post := heq
  rw [show xmlFiles ["one.xml", "two.xml"] = ["one.xml", "two.xml"] by decide +kernel] at hfiles
  obtain _ | ⟨first, pre⟩ := pre
  · exact Or.inr fun other hother => absurd hother List.not_mem_nil
  · have htail := (List.cons.inj hfiles).2
    obtain _ | ⟨second, pre⟩ := pre
    · obtain rfl : "two.xml" = name := (List.cons.inj htail).1
      exact absurd hgood (by decide +kernel)
    · have hlen := congrArg List.length htail
      simp at hlen

/-- The malformed file comes first: the good one is found with the map and is not without it. -/
theorem good_file_behind_bad : ¬ ModesAgree parseSample ⟨some ["two.xml", "one.xml"],
    fun name => if name = "one.xml" then some sampleText else some [120]⟩ := by
  intro h
  have hone := h "one.xml"
  revert hone
  decide +kernel

end BitstreamManager

end FpgaMl
