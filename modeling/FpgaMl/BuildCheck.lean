import Mathlib.Tactic
import FpgaMl.BitstreamModes

/-! # The build check against the loaded bitstreams

`BitstreamCheck` is built from the list that the scan fills, the getters, the tracker and the check
of the work-group size from the map that the extraction fills. -/
namespace FpgaMl
open KeyedLoad BitstreamsDir
set_option autoImplicit false

namespace BitstreamManager

variable {n : ℕ}

/-- All getters answer for the same names, those in the map of structs. -/
theorem getters_isSome (m : BitstreamManager) (fname : String) :
    ∀ answered ∈ [(m.getResourceString fname).isSome, (m.getOffsetAddresses fname).isSome,
        (m.getTarget fname).isSome, (m.getNumAccs fname).isSome, (m.getWgSize fname).isSome,
        (m.getLocalCost fname).isSome, (m.getRemoteCost fname).isSome, (m.getBsLength fname).isSome],
      answered = (m.kernelBitstreamStructMap fname).isSome := by
  simp [getResourceString, getOffsetAddresses, getTarget, getNumAccs, getWgSize, getLocalCost,
    getRemoteCost, getBsLength]

/-- The library has loaded the bitstream of a name: it is in the map of structs, the getters that a
launch needs answer, and the tracker has a cost. -/
structure Loaded (m : BitstreamManager) (schedulers : Fin n → Scheduler) (name : String) : Prop where
  key : (m.kernelBitstreamStructMap name).isSome = true
  resourceString : (m.getResourceString name).isSome = true
  wgSize : (m.getWgSize name).isSome = true
  localCost : (m.getLocalCost name).isSome = true
  remoteCost : (m.getRemoteCost name).isSome = true
  tracked : ((Tracker.new m.costs schedulers).wgCostMapping name).isSome = true

theorem loaded_iff (m : BitstreamManager) (schedulers : Fin n → Scheduler) (name : String) :
    m.Loaded schedulers name ↔ (m.kernelBitstreamStructMap name).isSome = true := by
  have hget := getters_isSome m name
  refine ⟨Loaded.key, fun h => ⟨h, (hget _ (by simp)).trans h, (hget _ (by simp)).trans h,
    (hget _ (by simp)).trans h, (hget _ (by simp)).trans h, ?_⟩⟩
  simp [Tracker.new, costs, h]

/-- The check that `clBuildProgram` makes agrees with what was loaded. -/
def BuildAgrees (m : BitstreamManager) (schedulers : Fin n → Scheduler) : Prop :=
  ∀ name, m.checkBitstreamExists name = true ↔ m.Loaded schedulers name

theorem checkBitstreamExists_iff (m : BitstreamManager) (name : String) :
    m.checkBitstreamExists name = true ↔ name ∈ m.xmlFilesList := List.contains_iff_mem

/-- The list and the map come from the same files: they agree when all the files load. -/
theorem buildAgrees_iff_of_loadAll {m : BitstreamManager} {load : String → Option BitstreamS}
    (hmap : m.kernelBitstreamStructMap = loadAll load m.xmlFilesList fun _ => none)
    (schedulers : Fin n → Scheduler) :
    m.BuildAgrees schedulers ↔ ∀ name ∈ m.xmlFilesList, (load name).isSome = true := by
  have hkey : ∀ name, (m.kernelBitstreamStructMap name).isSome = true ↔
      name ∈ loadable load m.xmlFilesList := fun name => by
    rw [hmap, loadAll_apply]
    split
    · rename_i hname
      exact iff_of_true (mem_of_mem_loadable hname).2 hname
    · rename_i hname
      exact iff_of_false nofun hname
  unfold BuildAgrees
  simp only [checkBitstreamExists_iff, loaded_iff, hkey]
  rw [← forall_mem_loadable_iff]
  exact forall_congr' fun name => iff_iff_implies_and_implies.trans
    (and_iff_left fun hname => (mem_of_mem_loadable hname).1)

/-- When the scan maps every file, what is extracted is what the files themselves say. -/
theorem extracted_isSome {parse : List UInt8 → Option XmlNode} (hparse : parse [] = none)
    {dir : BitstreamsDir} {m : BitstreamManager} (hmode : m.enabledMmap = true)
    (hmap : m.kernelMmapPtrMap = loadAll dir.mapFile (xmlFiles dir.files) fun _ => none)
    (hall : ∀ name ∈ dir.files, dir.passes name = true) {name : String}
    (hname : name ∈ xmlFiles dir.files) :
    (m.extracted (.ofParse parse) dir name).isSome = (dir.parsed parse name).isSome := by
  have hmapped : ∀ other ∈ xmlFiles dir.files, (dir.mapFile other).isSome = true :=
    fun other hother => by
      obtain ⟨hfile, hxml⟩ := mem_xmlFiles.mp hother
      have hpass := hall other hfile
      unfold passes at hpass
      rw [hxml] at hpass
      exact hpass
  unfold extracted loadDocument
  rw [Option.isSome_map, if_pos hmode, hmap, loadAll_apply,
    if_pos ((forall_mem_loadable_iff _ _).mpr hmapped name hname)]
  exact congrArg Option.isSome (bind_mapFile hparse dir name)

/-- The build check agrees with the loaded bitstreams exactly when every xml file of the directory
parses. -/
theorem build_agrees_iff {parse : List UInt8 → Option XmlNode} (hparse : parse [] = none)
    {dir : BitstreamsDir} {enabledMmap : Bool} {m : BitstreamManager}
    (h : new (.ofParse parse) enabledMmap dir = some m) (schedulers : Fin n → Scheduler) :
    m.BuildAgrees schedulers ↔
      ∀ name ∈ dir.files, isXmlFile name = true → (dir.parsed parse name).isSome = true := by
  have hfiles : (∀ name ∈ dir.files, isXmlFile name = true → (dir.parsed parse name).isSome = true) ↔
      ∀ name ∈ xmlFiles dir.files, (dir.parsed parse name).isSome = true :=
    forall_congr' fun name => by rw [mem_xmlFiles, and_imp]
  rw [hfiles]
  cases enabledMmap with
  | false =>
    rw [new_plain] at h
    obtain ⟨-, hm⟩ := Option.ite_none_left_eq_some.mp h
    obtain rfl := Option.some.inj hm
    rw [buildAgrees_iff_of_loadAll rfl]
    simp only [Option.isSome_map, Pugi.ofParse]
  | true =>
    obtain ⟨hthrow, hend⟩ := new_mmap (.ofParse parse) dir
    by_cases hshort : ∃ name ∈ dir.reached dir.files, isShort name = true
    · rw [hthrow hshort] at h
      cases h
    obtain ⟨m', hnew, hmode, hmap, hcases⟩ := hend fun name hname =>
      Bool.eq_false_of_not_eq_true fun hs => hshort ⟨name, hname, hs⟩
    obtain rfl := Option.some.inj (hnew.symm.trans h)
    obtain ⟨hall, hlist, hstruct⟩ | ⟨⟨name, hlisted, hxml, hunmapped⟩, hstruct⟩ := hcases
    · rw [← hlist] at hstruct
      rw [buildAgrees_iff_of_loadAll hstruct, hlist]
      refine forall_congr' fun name => forall_congr' fun hname => ?_
      rw [extracted_isSome hparse hmode hmap hall hname]
    · -- the scan stopped: the file is listed, and nothing was extracted
      refine iff_of_false (fun hagrees => ?_) fun hgood => ?_
      · have hkey := ((hagrees name).mp ((checkBitstreamExists_iff m' name).mpr hlisted)).key
        rw [hstruct] at hkey
        cases hkey
      · have hmapped := mapFile_isSome_of_parsed hparse name (hgood name hxml)
        rw [hunmapped] at hmapped
        cases hmapped

/-- One file that parses, mapped. -/
theorem build_agrees_iff_single : ∃ m,
    new (.ofParse parseSample) true ⟨some ["one.xml"], fun _ => some sampleText⟩ = some m ∧
      m.BuildAgrees (fun i : Fin 0 => i.elim0) := by
  obtain ⟨m, hm⟩ := Option.isSome_iff_exists.mp (show
    (new (.ofParse parseSample) true ⟨some ["one.xml"], fun _ => some sampleText⟩).isSome = true by
      decide +kernel)
  exact ⟨m, hm, (build_agrees_iff (by decide +kernel) hm _).mpr (by decide +kernel)⟩

/-- A malformed file in front: the other one is reported as present, and was never extracted. -/
theorem present_not_loaded : ∃ m, new (.ofParse parseSample) false ⟨some ["two.xml", "one.xml"],
    fun name => if name = "one.xml" then some sampleText else some [120]⟩ = some m ∧
      ¬ m.BuildAgrees (fun i : Fin 0 => i.elim0) := by
  have hrun : (new (.ofParse parseSample) false ⟨some ["two.xml", "one.xml"],
      fun name => if name = "one.xml" then some sampleText else some [120]⟩).map (fun m =>
        (m.checkBitstreamExists "one.xml", (m.kernelBitstreamStructMap "one.xml").isSome)) =
          some (true, false) := by
    decide +kernel
  obtain ⟨m, hm, hfacts⟩ := Option.map_eq_some_iff.mp hrun
  obtain ⟨hlisted, hkey⟩ := Prod.mk.inj hfacts
  refine ⟨m, hm, fun h => ?_⟩
  rw [((h "one.xml").mp hlisted).key] at hkey
  cases hkey

/-- A launch that the enqueueing function accepts is one of a loaded bitstream. -/
theorem loaded_of_accepts {m : BitstreamManager} {args : NdrArgs} {handle : ℕ} {xmlName : String}
    (hkernel : args.kernel = some (handle, some xmlName))
    (h : m.bitstreams.accepts (.ndrange args) = true) (schedulers : Fin n → Scheduler) :
    m.Loaded schedulers xmlName := by
  rw [loaded_iff]
  unfold Bitstreams.accepts Bitstreams.checkWgSize bitstreams at h
  dsimp only at h
  rw [hkernel] at h
  simp only [Bool.and_eq_true, beq_iff_eq, Option.filter_eq_some_iff] at h
  obtain ⟨⟨-, hsize, -⟩, -⟩ := h
  obtain ⟨entry, hentry, -⟩ := Option.map_eq_some_iff.mp hsize
  rw [hentry]
  rfl

end BitstreamManager

end FpgaMl
