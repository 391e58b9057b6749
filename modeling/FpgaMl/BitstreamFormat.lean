import Mathlib.Tactic
import FpgaMl.BitstreamModes
import FpgaMl.NumberTexts

/-! # The format of the bitstream files

A document states a description when its elements hold the description's texts and numbers.
`extract_xml_file` reads every description of its own types back from any such document, there is one
for each, and whatever it reads from any document at all is one. A directory of such files is read
back by all getters in both modes of the manager. -/
namespace FpgaMl
open MachineInt KeyedLoad
set_option autoImplicit false

/-! ## Descriptions and documents -/

namespace BitstreamS

/-- The members are `unsigned`, and `n_args` is an `int`. -/
structure InRange (b : BitstreamS) : Prop where
  numAccs : b.numAccs < 2 ^ 32
  wgroupSize : b.wgroupSize < 2 ^ 32
  localCost : b.localCost < 2 ^ 32
  remoteCost : b.remoteCost < 2 ^ 32
  bsLength : b.bsLength < 2 ^ 32
  offsets : ∀ address ∈ b.offsetAddress, address < 2 ^ 32
  count : b.offsetAddress.length < 2 ^ 31

/-- With the map the text of the bitstream stays in the file. -/
def kept (enabledMmap : Bool) (b : BitstreamS) : BitstreamS :=
  { b with bitstream := if enabledMmap then "" else b.bitstream }

end BitstreamS

structure XmlNode.States (doc : XmlNode) (b : BitstreamS) : Prop where
  resourceString : headerValue doc "resource-string" = b.resourceString
  target : headerValue doc "target" = b.target
  numAccs : Decimal (headerValue doc "num_accelerators") b.numAccs
  wgroupSize : Decimal (headerValue doc "workgroup_size") b.wgroupSize
  localCost : Decimal (headerValue doc "local_cost") b.localCost
  remoteCost : Decimal (headerValue doc "remote_cost") b.remoteCost
  count : Decimal (headerValue doc "n_args") b.offsetAddress.length
  offsets : ∀ i (h : i < b.offsetAddress.length),
    Hexadecimal (headerValue doc ("offset_address_" ++ toString i)) b.offsetAddress[i]
  bsLength : Decimal (bodyValue doc "length") b.bsLength
  bitstream : bodyValue doc "bitstream" = b.bitstream

variable {doc : XmlNode} {b : BitstreamS}

/-! ## Reading -/

theorem readBitstream_states (h : doc.States b) (hb : b.InRange) (enabledMmap : Bool) :
    readBitstream enabledMmap doc = b.kept enabledMmap := by
  have hoffsets : ((List.range (atoi (headerValue doc "n_args")).toNat).map fun i =>
      u32 (strtoul16 (headerValue doc ("offset_address_" ++ toString i)))) = b.offsetAddress := by
    rw [h.count.toNat hb.count]
    refine List.ext_getElem (by simp) fun i hi hi' => ?_
    have hlt : b.offsetAddress[i] < 2 ^ 32 := hb.offsets _ (List.getElem_mem hi')
    rw [List.getElem_map, List.getElem_range, (h.offsets i hi').strtoul (by omega), u32_of_lt hlt]
  unfold readBitstream BitstreamS.kept
  rw [hoffsets, h.resourceString, h.target, h.numAccs.toU32 hb.numAccs,
    h.wgroupSize.toU32 hb.wgroupSize, h.localCost.toU32 hb.localCost,
    h.remoteCost.toU32 hb.remoteCost, h.bsLength.toU32 hb.bsLength, h.bitstream]

theorem toU32_lt (x : ℤ) : toU32 x < 2 ^ 32 := by
  unfold toU32
  omega

theorem inRange_readBitstream (enabledMmap : Bool) (doc : XmlNode) :
    (readBitstream enabledMmap doc).InRange where
  numAccs := toU32_lt _
  wgroupSize := toU32_lt _
  localCost := toU32_lt _
  remoteCost := toU32_lt _
  bsLength := toU32_lt _
  offsets address h := by
    obtain ⟨i, -, rfl⟩ := List.mem_map.mp h
    exact u32_lt _
  count := by
    have hcount : atoi (headerValue doc "n_args") < 2 ^ 31 := i32_upper _
    simp only [readBitstream, List.length_map, List.length_range]
    omega

/-! ## Writing -/

/-- An element with a text; there are no empty texts. -/
def field (name value : String) : XmlNode :=
  .element name (if value = "" then [] else [.text value])

theorem childValue_field (name value : String) :
    XmlNode.childValue (some (field name value)) = value := by
  unfold field XmlNode.childValue XmlNode.children
  split
  · rename_i h
    rw [h]
    rfl
  · rfl

theorem isNamed_field (name other value : String) :
    (field other value).isNamed name = (other == name) := rfl

namespace BitstreamS

def offsetField (b : BitstreamS) (i : ℕ) : XmlNode :=
  field ("offset_address_" ++ toString i)
    (String.ofList (Nat.toDigits 16 (b.offsetAddress.getD i 0)))

def header (b : BitstreamS) : List XmlNode :=
  [field "resource-string" b.resourceString, field "target" b.target,
    field "num_accelerators" (toString b.numAccs), field "workgroup_size" (toString b.wgroupSize),
    field "local_cost" (toString b.localCost), field "remote_cost" (toString b.remoteCost),
    field "n_args" (toString b.offsetAddress.length)]

/-- A document for a description. -/
def document (b : BitstreamS) : XmlNode :=
  .element "" [.element "data"
    [.element "header" (b.header ++ (List.range b.offsetAddress.length).map b.offsetField),
      .element "body" [field "length" (toString b.bsLength), field "bitstream" b.bitstream]]]

theorem headerValue_document (b : BitstreamS) (name : String) : headerValue b.document name =
    XmlNode.childValue ((b.header ++ (List.range b.offsetAddress.length).map b.offsetField).find?
      (XmlNode.isNamed name)) := rfl

/-- Numbers have different names. -/
theorem toString_injective {i j : ℕ} (h : toString i = toString j) : i = j := by
  have hdigits : Nat.toDigits 10 i = Nat.toDigits 10 j := by
    simpa using congrArg String.toList h
  have hread : ∀ n, readDigits 10 (Nat.toDigits 10 n ++ []) = n := fun n =>
    readDigits_toDigits (by decide) n (by simp)
  rw [← hread i, ← hread j, hdigits]

theorem find_header (b : BitstreamS) {name : String} {node : XmlNode} (rest : List XmlNode)
    (h : b.header.find? (XmlNode.isNamed name) = some node) :
    (b.header ++ rest).find? (XmlNode.isNamed name) = some node := by
  rw [List.find?_append, h]
  rfl

/-- No name in front begins with that letter. -/
theorem find_offset (b : BitstreamS) {i : ℕ} (hi : i < b.offsetAddress.length) :
    (b.header ++ (List.range b.offsetAddress.length).map b.offsetField).find?
      (XmlNode.isNamed ("offset_address_" ++ toString i)) = some (b.offsetField i) := by
  have hother : ∀ other : String, other.toList.head? ≠ some 'o' →
      (other == "offset_address_" ++ toString i) = false := fun other hne => by
    rw [beq_eq_false_iff_ne]
    rintro rfl
    exact hne (by simp [String.toList_append])
  have hheader : b.header.find? (XmlNode.isNamed ("offset_address_" ++ toString i)) = none := by
    rw [List.find?_eq_none]
    intro node hnode
    simp only [header, List.mem_cons, List.not_mem_nil, or_false] at hnode
    obtain rfl | rfl | rfl | rfl | rfl | rfl | rfl := hnode
    all_goals
      rw [isNamed_field, hother _ (by decide +kernel)]
      exact Bool.false_ne_true
  rw [List.find?_append, hheader, Option.none_or, List.find?_map]
  have hfirst : (List.range b.offsetAddress.length).find?
      (XmlNode.isNamed ("offset_address_" ++ toString i) ∘ b.offsetField) = some i := by
    rw [List.find?_range_eq_some]
    refine ⟨by simp [offsetField, isNamed_field], List.mem_range.mpr hi, fun j hj => ?_⟩
    have hne : toString j ≠ toString i := fun heq => by
      have hji := toString_injective heq
      omega
    simpa [offsetField, isNamed_field] using hne
  rw [hfirst]
  rfl

theorem headerValue_field (b : BitstreamS) (name value : String)
    (h : b.header.find? (XmlNode.isNamed name) = some (field name value)) :
    headerValue b.document name = value := by
  rw [headerValue_document, b.find_header _ h, childValue_field]

theorem decimal_field (b : BitstreamS) (name : String) (n : ℕ)
    (h : b.header.find? (XmlNode.isNamed name) = some (field name (toString n))) :
    Decimal (headerValue b.document name) n := by
  rw [b.headerValue_field name _ h]
  exact decimal_repr n

theorem bodyValue_document (b : BitstreamS) : bodyValue b.document "length" = toString b.bsLength ∧
    bodyValue b.document "bitstream" = b.bitstream :=
  ⟨childValue_field "length" _, childValue_field "bitstream" _⟩

/-- Every description has a document. -/
theorem document_states (b : BitstreamS) : b.document.States b where
  resourceString := b.headerValue_field _ _ (by simp [header, isNamed_field])
  target := b.headerValue_field _ _ (by simp [header, isNamed_field])
  numAccs := b.decimal_field _ _ (by simp [header, isNamed_field])
  wgroupSize := b.decimal_field _ _ (by simp [header, isNamed_field])
  localCost := b.decimal_field _ _ (by simp [header, isNamed_field])
  remoteCost := b.decimal_field _ _ (by simp [header, isNamed_field])
  count := b.decimal_field _ _ (by simp [header, isNamed_field])
  offsets i hi := by
    rw [headerValue_document, b.find_offset hi, offsetField, childValue_field,
      List.getD_eq_getElem?_getD, List.getElem?_eq_getElem hi, Option.getD_some]
    exact hexadecimal_ofList _
  bsLength := by
    rw [b.bodyValue_document.1]
    exact decimal_repr _
  bitstream := b.bodyValue_document.2

end BitstreamS

/-- Any document for a description of the members' types is read as this description, each
description has such a document, and nothing else is ever read. -/
theorem format_round_trip (enabledMmap : Bool) :
    (∀ (doc : XmlNode) (b : BitstreamS), doc.States b → b.InRange →
      readBitstream enabledMmap doc = b.kept enabledMmap) ∧
    (∀ b : BitstreamS, b.document.States b) ∧
    ∀ doc, (readBitstream enabledMmap doc).InRange :=
  ⟨fun _ _ h hb => readBitstream_states h hb enabledMmap, BitstreamS.document_states,
    inRange_readBitstream enabledMmap⟩

/-! ## The directory -/

/-- `load_file`, or `load_string` on the text in front of the first zero of the mapping, which has
one. -/
def Pugi.Loads (loadFile loadText : List UInt8 → Option XmlNode) (enabledMmap : Bool)
    (bytes : List UInt8) (doc : XmlNode) : Prop :=
  if enabledMmap then Terminated bytes ∧ loadText (bytes.takeWhile (· ≠ 0)) = some doc
  else loadFile bytes = some doc

variable {loadFile loadText beyond : List UInt8 → Option XmlNode} {enabledMmap : Bool}
  {dir : BitstreamsDir} {written : String → Option BitstreamS}

theorem Pugi.loadString_of_loads {bytes : List UInt8} {doc : XmlNode}
    (h : Loads loadFile loadText true bytes doc) :
    (ofMapping loadFile loadText beyond).loadString bytes = some doc :=
  (if_pos h.1).trans h.2

namespace BitstreamsDir

/-- The xml files of the directory are documents that state what was written into them, and there is
no name that stops the scan. -/
structure Holds (loadFile loadText : List UInt8 → Option XmlNode) (enabledMmap : Bool)
    (dir : BitstreamsDir) (written : String → Option BitstreamS) : Prop where
  long : ∀ name ∈ dir.files, isShort name = false
  listed : ∀ name, name ∈ xmlFiles dir.files ↔ (written name).isSome = true
  states : ∀ name b, written name = some b → b.InRange ∧ ∃ bytes doc,
    dir.mapFile name = some bytes ∧ Pugi.Loads loadFile loadText enabledMmap bytes doc ∧ doc.States b

theorem parsed_of_mapFile {parse : List UInt8 → Option XmlNode} {name : String} {bytes : List UInt8}
    (h : dir.mapFile name = some bytes) : dir.parsed parse name = parse bytes := by
  unfold parsed
  rw [(Option.filter_eq_some_iff.mp h).1, Option.bind_some]

/-- Whichever way the files are loaded, each description ends up under its name. -/
theorem Holds.load (h : dir.Holds loadFile loadText enabledMmap written)
    {load : String → Option BitstreamS}
    (hload : ∀ name bytes doc, name ∈ xmlFiles dir.files → dir.mapFile name = some bytes →
      Pugi.Loads loadFile loadText enabledMmap bytes doc →
        load name = some (readBitstream enabledMmap doc)) (name : String) :
    loadAll load (xmlFiles dir.files) (fun _ => none) name =
      (written name).map (BitstreamS.kept enabledMmap) := by
  have hfile : ∀ name b, written name = some b → load name = some (b.kept enabledMmap) := by
    intro name b hb
    obtain ⟨hrange, bytes, doc, hmap, hloads, hstates⟩ := h.states name b hb
    rw [hload name bytes doc ((h.listed name).mpr (by rw [hb]; rfl)) hmap hloads,
      readBitstream_states hstates hrange]
  have hall : ∀ k ∈ xmlFiles dir.files, (load k).isSome = true := fun k hk => by
    obtain ⟨b, hb⟩ := Option.isSome_iff_exists.mp ((h.listed k).mp hk)
    rw [hfile k b hb]
    rfl
  rw [loadAll_apply]
  cases hw : written name with
  | none =>
    have hnot : name ∉ loadable load (xmlFiles dir.files) := fun hmem => by
      have hsome := (h.listed name).mp (mem_of_mem_loadable hmem).1
      rw [hw] at hsome
      cases hsome
    rw [if_neg hnot]
    rfl
  | some b =>
    have hmem := (h.listed name).mpr (by rw [hw]; rfl)
    rw [if_pos ((forall_mem_loadable_iff load _).mpr hall name hmem), hfile name b hw]
    rfl

theorem Holds.mapFile (h : dir.Holds loadFile loadText enabledMmap written) {name : String}
    (hname : name ∈ xmlFiles dir.files) : (dir.mapFile name).isSome = true := by
  obtain ⟨b, hb⟩ := Option.isSome_iff_exists.mp ((h.listed name).mp hname)
  obtain ⟨-, bytes, doc, hmap, -⟩ := h.states name b hb
  rw [hmap]
  rfl

end BitstreamsDir

open BitstreamsDir

namespace BitstreamManager

/-- Every getter answers for a name what was written under it. -/
structure Answers (pugi : Pugi) (m : BitstreamManager) (written : String → Option BitstreamS) :
    Prop where
  listed : ∀ name, m.checkBitstreamExists name = (written name).isSome
  bitStream : ∀ name, m.getBitStream pugi name = (written name).map BitstreamS.bitstream
  resourceString : ∀ name, m.getResourceString name = (written name).map BitstreamS.resourceString
  offsetAddresses : ∀ name, m.getOffsetAddresses name = (written name).map BitstreamS.offsetAddress
  target : ∀ name, m.getTarget name = (written name).map BitstreamS.target
  numAccs : ∀ name, m.getNumAccs name = (written name).map BitstreamS.numAccs
  wgSize : ∀ name, m.getWgSize name = (written name).map BitstreamS.wgroupSize
  localCost : ∀ name, m.getLocalCost name = (written name).map BitstreamS.localCost
  remoteCost : ∀ name, m.getRemoteCost name = (written name).map BitstreamS.remoteCost
  bsLength : ∀ name, m.getBsLength name = (written name).map BitstreamS.bsLength

theorem answers_of_maps {pugi : Pugi} {m : BitstreamManager}
    (hlist : ∀ name, name ∈ m.xmlFilesList ↔ (written name).isSome = true)
    (hmap : ∀ name, m.kernelBitstreamStructMap name =
      (written name).map (BitstreamS.kept enabledMmap))
    (hbits : ∀ name, m.getBitStream pugi name = (written name).map BitstreamS.bitstream) :
    m.Answers pugi written := by
  have hget : ∀ {α : Type} (f : BitstreamS → α) (name : String),
      (∀ b : BitstreamS, f (b.kept enabledMmap) = f b) →
        (m.kernelBitstreamStructMap name).map f = (written name).map f := by
    intro α f name hf
    rw [hmap name, Option.map_map]
    exact congrArg (fun g => Option.map g (written name)) (funext hf)
  exact ⟨fun name => Bool.eq_iff_iff.mpr (List.contains_iff_mem.trans (hlist name)), hbits,
    fun name => hget _ name fun _ => rfl, fun name => hget _ name fun _ => rfl,
    fun name => hget _ name fun _ => rfl, fun name => hget _ name fun _ => rfl,
    fun name => hget _ name fun _ => rfl, fun name => hget _ name fun _ => rfl,
    fun name => hget _ name fun _ => rfl, fun name => hget _ name fun _ => rfl⟩

/-- A directory of bitstream files is read back by all getters, with the map and without it, whatever
a read behind a mapping would come to. -/
theorem files_read_back (h : dir.Holds loadFile loadText enabledMmap written) :
    ∃ m, BitstreamManager.new (.ofMapping loadFile loadText beyond) enabledMmap dir = some m ∧
      m.Answers (.ofMapping loadFile loadText beyond) written := by
  cases enabledMmap with
  | false =>
    have hshort : ¬ ∃ name ∈ dir.files, isShort name = true := by
      rintro ⟨name, hname, hs⟩
      rw [h.long name hname] at hs
      cases hs
    have hload : ∀ name, loadAll (fun name => (dir.parsed loadFile name).map (readBitstream false))
        (xmlFiles dir.files) (fun _ => none) name = (written name).map (BitstreamS.kept false) :=
      h.load fun name bytes doc _ hmap hloads => by
        have hdoc : loadFile bytes = some doc := hloads
        rw [parsed_of_mapFile hmap, hdoc, Option.map_some]
    refine ⟨_, by rw [new_plain, if_neg hshort], answers_of_maps h.listed hload fun name => ?_⟩
    unfold getBitStream
    simp only [empty, Pugi.ofMapping, Bool.false_eq_true, if_false]
    rw [hload name, Option.map_map]
    rfl
  | true =>
    have hpass : ∀ name ∈ dir.files, dir.passes name = true := fun name hname => by
      unfold passes
      cases hxml : isXmlFile name with
      | false => rfl
      | true => rw [h.mapFile (mem_xmlFiles.mpr ⟨hname, hxml⟩), Bool.or_true]
    obtain ⟨m, hnew, hmode, hptr, ⟨-, hlist, hmap⟩ | ⟨⟨name, -, hname, hnone⟩, -⟩⟩ :=
      (new_mmap (.ofMapping loadFile loadText beyond) dir).2 fun name hname =>
        h.long name (List.takeWhile_subset _ hname)
    · have hmapped : ∀ name ∈ xmlFiles dir.files, m.kernelMmapPtrMap name = dir.mapFile name :=
        fun name hname => by
          rw [hptr, loadAll_apply, if_pos
            ((forall_mem_loadable_iff _ _).mpr (fun k hk => h.mapFile hk) name hname)]
      have hload : ∀ name, loadAll (m.extracted (.ofMapping loadFile loadText beyond) dir)
          (xmlFiles dir.files) (fun _ => none) name = (written name).map (BitstreamS.kept true) :=
        h.load fun name bytes doc hname hfile hloads => by
          unfold extracted loadDocument
          rw [hmode, if_pos rfl, hmapped name hname, hfile, Option.bind_some,
            Pugi.loadString_of_loads hloads, Option.map_some]
      refine ⟨m, hnew, answers_of_maps (fun name => hlist ▸ h.listed name)
        (fun name => hmap ▸ hload name) fun name => ?_⟩
      unfold getBitStream
      rw [hmode, if_pos rfl]
      cases hw : written name with
      | none =>
        have hnot : name ∉ loadable dir.mapFile (xmlFiles dir.files) := fun hmem => by
          have hsome := (h.listed name).mp (mem_of_mem_loadable hmem).1
          rw [hw] at hsome
          cases hsome
        rw [hptr, loadAll_apply, if_neg hnot]
        rfl
      | some b =>
        obtain ⟨-, bytes, doc, hfile, hloads, hstates⟩ := h.states name b hw
        rw [hmapped name ((h.listed name).mpr (by rw [hw]; rfl)), hfile, Option.bind_some,
          Pugi.loadString_of_loads hloads, Option.map_some, hstates.bitstream]
        rfl
    · have hsome := h.mapFile hname
      rw [hnone] at hsome
      cases hsome

def sampleBitstream : BitstreamS where
  resourceString := "r"
  offsetAddress := [16, 255]
  target := "k"
  numAccs := 1
  wgroupSize := 64
  localCost := 2
  remoteCost := 3
  bitstream := "ab"
  bsLength := 2

def sampleFile : List UInt8 :=
  ("<data><header><resource-string>r</resource-string><target>k</target>" ++
    "<num_accelerators>1</num_accelerators><workgroup_size>64</workgroup_size>" ++
    "<local_cost>2</local_cost><remote_cost>3</remote_cost><n_args>2</n_args>" ++
    "<offset_address_0>10</offset_address_0><offset_address_1>ff</offset_address_1></header>" ++
    "<body><length>2</length><bitstream>ab</bitstream></body></data>").toUTF8.toList

/-- What pugixml answers for this text. -/
def parseSampleFile (bytes : List UInt8) : Option XmlNode :=
  if bytes = sampleFile then some sampleBitstream.document else none

/-- One file of that text beside another entry, with the map. -/
theorem files_read_back_one : ∃ m,
    BitstreamManager.new (.ofMapping parseSampleFile parseSampleFile fun _ => none) true
      ⟨some ["kernel.xml", "notes"], fun name =>
        if name = "kernel.xml" then some sampleFile else none⟩ = some m ∧
    m.Answers (.ofMapping parseSampleFile parseSampleFile fun _ => none) fun name =>
      if name = "kernel.xml" then some sampleBitstream else none := by
  refine files_read_back ⟨by decide +kernel, fun name => ?_, fun name b hb => ?_⟩
  · have hfiles : xmlFiles ["kernel.xml", "notes"] = ["kernel.xml"] := by decide +kernel
    change name ∈ xmlFiles ["kernel.xml", "notes"] ↔ _
    rw [hfiles, List.mem_singleton]
    split <;> simp_all
  · obtain ⟨rfl, hb⟩ := Option.ite_none_right_eq_some.mp hb
    obtain rfl := Option.some.inj hb
    have hrange : sampleBitstream.InRange := by
      refine ⟨?_, ?_, ?_, ?_, ?_, ?_, ?_⟩ <;> decide +kernel
    have hbytes : sampleFile ≠ [] ∧ Pugi.Terminated sampleFile ∧
        sampleFile.takeWhile (· ≠ 0) = sampleFile := by
      decide +kernel
    obtain ⟨hne, hterminated, htext⟩ := hbytes
    have hloads : Pugi.Loads parseSampleFile parseSampleFile true sampleFile sampleBitstream.document :=
      ⟨hterminated, by rw [htext]; exact if_pos rfl⟩
    exact ⟨hrange, sampleFile, sampleBitstream.document, Option.filter_some_pos (decide_eq_true hne),
      hloads, BitstreamS.document_states _⟩

end BitstreamManager

end FpgaMl
