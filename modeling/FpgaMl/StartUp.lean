import Mathlib.Tactic
import FpgaMl.BitstreamFormat
import FpgaMl.Dispatcher
import FpgaMl.FreeList

/-! # Starting the library (wee_config.cc, centrum.cc)

The constructor of `Global`: it reads the configuration and makes a scheduler for every region in
it, a manager of the bitstreams in its directory, and opens the driver. What the configuration and
the bitstream files state is what the library starts with. -/
namespace FpgaMl
open MachineInt TransitionSystem BitstreamsDir
set_option autoImplicit false

/-! ## The constructors -/

/-- What the process finds: `FPGAML_CONFIG_PATH`, the files and directories by their paths, and the
paths that open as a device. -/
structure Host where
  configPath : Option String
  files : String → Option (List UInt8)
  listing : String → Option (List String)
  opens : String → Bool

def Host.dir (host : Host) (path : String) : BitstreamsDir :=
  ⟨host.listing path, fun name => host.files (path ++ "/" ++ name)⟩

structure WeeConfig where
  topNode : XmlNode

variable (pugi : Pugi) (host : Host)

namespace WeeConfig

/-- The constructor; `none` is one of its two exceptions. -/
def new (filePath rootNode : Option String) : Option WeeConfig :=
  ((host.files (filePath.getD "./default_config.xml")).bind pugi.loadFile).bind fun doc =>
    (XmlNode.child (some doc) (rootNode.getD "ConfigParams")).map WeeConfig.mk

/-- `get_value_for_key` for texts; `none` is false. -/
def getString (config : WeeConfig) (key : String) : Option String :=
  (XmlNode.child (some config.topNode) key).map fun n => XmlNode.childValue (some n)

/-- `get_value_for_key` for truth values. -/
def getBool (config : WeeConfig) (key : String) : Option Bool :=
  (config.getString key).map (· == "true")

end WeeConfig

/-- `BitstreamManager::BitstreamManager`. -/
def BitstreamManager.ofConfig (config : WeeConfig) : Option BitstreamManager :=
  BitstreamManager.new pugi ((config.getBool "EnableBitstreamMmap").getD false)
    (host.dir ((config.getString "BitstreamsPath").getD ""))

/-- Whether `UnimemManager::UnimemManager` opens the driver; otherwise it throws. -/
def opensDriver (config : WeeConfig) : Bool := (config.getString "UnimemDriverPath").any host.opens

structure Started where
  islands : ℕ
  global : Global islands
  manager : BitstreamManager

/-- `Global::Global`, with the end times that the schedulers start with; `none` is an exception of a
member. -/
def startUp (ends : ℕ → ℚ) : Option Started := do
  let config ← WeeConfig.new pugi host host.configPath (some "ConfigParams")
  let prs := SchedConfig.regions config.topNode
  let manager ← BitstreamManager.ofConfig pugi host config
  let global ← Global.new (fun i : Fin prs.length => prs.get i) manager.costs fun i => ends i
  if opensDriver host config then some ⟨prs.length, global, manager⟩ else none

/-! ## What a configuration states -/

structure RegionS where
  boardId : Option ℕ
  fpgaId : Option ℕ
  prId : Option ℕ

/-- The part of a configuration that the constructors use; any of it may be missing. -/
structure ConfigS where
  regions : Option (List RegionS)
  bitstreamsPath : Option String
  enableBitstreamMmap : Option Bool
  unimemDriverPath : Option String

/-- The numbers of a region, of which a missing one is 0. -/
def RegionS.numbers (r : RegionS) : ℕ × ℕ × ℕ :=
  (r.boardId.getD 0, r.fpgaId.getD 0, r.prId.getD 0)

namespace ConfigS

/-- Without the list there are no regions. -/
def prs (c : ConfigS) : List (ℕ × ℕ × ℕ) := (c.regions.getD []).map RegionS.numbers

def directory (c : ConfigS) : String := c.bitstreamsPath.getD ""
def mmap (c : ConfigS) : Bool := c.enableBitstreamMmap.getD false

/-- The members of a region are `unsigned`, and the board is one of four. -/
structure InRange (c : ConfigS) : Prop where
  boards : ∀ pr ∈ c.prs, pr.1 ≤ 3
  numbers : ∀ pr ∈ c.prs, pr.2.1 < 2 ^ 32 ∧ pr.2.2 < 2 ^ 32
  count : c.prs.length < 2 ^ 31

end ConfigS

def regionValue (pr : XmlNode) (name : String) : String :=
  XmlNode.childValue (XmlNode.child (some pr) name)

/-- An element states a number; a missing number has no element or an empty one. -/
def StatesNumber (value : String) : Option ℕ → Prop
  | some n => Decimal value n
  | none => value = ""

structure XmlNode.StatesRegion (node : XmlNode) (r : RegionS) : Prop where
  boardId : StatesNumber (regionValue node "BoardID") r.boardId
  fpgaId : StatesNumber (regionValue node "FpgaID") r.fpgaId
  prId : StatesNumber (regionValue node "PRID") r.prId

/-- What the configuration does not have has no element. -/
structure WeeConfig.States (config : WeeConfig) (c : ConfigS) : Prop where
  bitstreamsPath : config.getString "BitstreamsPath" = c.bitstreamsPath
  enableBitstreamMmap : config.getBool "EnableBitstreamMmap" = c.enableBitstreamMmap
  unimemDriverPath : config.getString "UnimemDriverPath" = c.unimemDriverPath
  regions : Option.Rel (List.Forall₂ XmlNode.StatesRegion)
    ((XmlNode.child (some config.topNode) "PRs").map XmlNode.children) c.regions

theorem Numeral.ne_empty {base : ℕ} {prefixes : List (List Char)} {text : String} {n : ℕ}
    (h : Numeral base prefixes text n) : text ≠ "" := by
  rintro rfl
  obtain ⟨front, pre, rest, htext, -⟩ := h
  simp at htext

theorem extract_states {node : XmlNode} {name : String} {n : Option ℕ} {read : String → ℕ}
    (h : StatesNumber (regionValue node name) n)
    (hread : ∀ k, n = some k → Decimal (regionValue node name) k → read (regionValue node name) = k) :
    SchedConfig.extract node name read = n.getD 0 := by
  cases n with
  | none => exact if_pos h
  | some k => exact (if_neg h.ne_empty).trans (hread k rfl h)

theorem readRegion_states {node : XmlNode} {r : RegionS} (h : node.StatesRegion r)
    (hboard : r.numbers.1 ≤ 3) (hpr : r.numbers.2.1 < 2 ^ 32 ∧ r.numbers.2.2 < 2 ^ 32) :
    SchedConfig.readRegion node = r.numbers := by
  obtain ⟨boardId, fpgaId, prId⟩ := r
  unfold SchedConfig.readRegion RegionS.numbers
  congr 1
  · refine extract_states h.boardId fun k hk hn => hn.strtoull ?_
    obtain rfl : boardId = some k := hk
    exact lt_of_le_of_lt hboard (by norm_num)
  congr 1
  · refine extract_states h.fpgaId fun k hk hn => hn.toU32 ?_
    obtain rfl : fpgaId = some k := hk
    exact hpr.1
  · refine extract_states h.prId fun k hk hn => hn.toU32 ?_
    obtain rfl : prId = some k := hk
    exact hpr.2

theorem regions_states {config : WeeConfig} {c : ConfigS} (h : config.States c) (hc : c.InRange) :
    SchedConfig.regions config.topNode = c.prs := by
  have hregions := h.regions
  unfold SchedConfig.regions ConfigS.prs
  obtain ⟨regions, path, mmap, driver⟩ := c
  have hboards := hc.boards
  have hnumbers := hc.numbers
  unfold ConfigS.prs at hboards hnumbers
  clear hc h
  dsimp only at hregions hboards hnumbers ⊢
  generalize (XmlNode.child (some config.topNode) "PRs").map XmlNode.children = nodes at hregions
  cases hregions with
  | none => rfl
  | some hforall =>
    simp only [Option.getD_some] at hboards hnumbers ⊢
    induction hforall with
    | nil => rfl
    | @cons node r nodes rs hnode _ ih =>
      rw [List.map_cons] at hboards hnumbers
      rw [List.map_cons, List.map_cons, readRegion_states hnode (hboards _ List.mem_cons_self)
        (hnumbers _ List.mem_cons_self), ih (fun p hp => hboards p (List.mem_cons_of_mem _ hp))
        fun p hp => hnumbers p (List.mem_cons_of_mem _ hp)]

/-! ## Documents for them -/

/-- The elements of the texts that are there. -/
def fields (values : List (String × Option String)) : List XmlNode :=
  values.filterMap fun v => v.2.map (field v.1)

theorem find_fields_of_notMem {values : List (String × Option String)} {name : String}
    (h : name ∉ values.map Prod.fst) (rest : List XmlNode) :
    (fields values ++ rest).find? (XmlNode.isNamed name) = rest.find? (XmlNode.isNamed name) := by
  have hnone : (fields values).find? (XmlNode.isNamed name) = none := by
    refine List.find?_eq_none.mpr fun node hnode => ?_
    obtain ⟨⟨other, value⟩, hv, hfield⟩ := List.mem_filterMap.mp hnode
    obtain ⟨text, -, rfl⟩ := Option.map_eq_some_iff.mp hfield
    rw [isNamed_field, beq_iff_eq]
    rintro rfl
    exact h (List.mem_map_of_mem hv)
  rw [List.find?_append, hnone, Option.none_or]

theorem find_fields {values : List (String × Option String)} (h : (values.map Prod.fst).Nodup)
    {name : String} {value : Option String} (hmem : (name, value) ∈ values) {rest : List XmlNode}
    (hrest : rest.find? (XmlNode.isNamed name) = none) :
    (fields values ++ rest).find? (XmlNode.isNamed name) = value.map (field name) := by
  induction values with
  | nil => cases hmem
  | cons v values ih =>
    obtain ⟨other, text⟩ := v
    obtain ⟨hnew, hnodup⟩ := List.nodup_cons.mp h
    have hcons : fields ((other, text) :: values) =
        (text.map (field other)).toList ++ fields values := by
      cases text <;> rfl
    rw [hcons, List.append_assoc, List.find?_append]
    obtain heq | hmem := List.mem_cons.mp hmem
    · obtain ⟨rfl, rfl⟩ := Prod.mk.inj heq
      rw [find_fields_of_notMem hnew, hrest, Option.or_none]
      cases value with
      | none => rfl
      | some text =>
        refine List.find?_cons_of_pos ?_
        rw [isNamed_field, beq_self_eq_true]
    · have hname : name ∈ values.map Prod.fst := List.mem_map_of_mem hmem
      have hne : (other == name) = false := beq_eq_false_iff_ne.mpr fun heq => hnew (heq ▸ hname)
      rw [ih hnodup hmem]
      cases text with
      | none => rfl
      | some text =>
        rw [Option.map_some, Option.toList_some, List.find?_cons_of_neg (by
          rw [isNamed_field, hne]
          exact Bool.false_ne_true)]
        rfl

theorem childValue_map_field (name : String) (value : Option String) :
    (value.map (field name)).map (fun n => XmlNode.childValue (some n)) = value := by
  cases value with
  | none => rfl
  | some text => exact congrArg some (childValue_field name text)

/-- An element for a region. -/
def RegionS.node (r : RegionS) : XmlNode :=
  .element "PR" (fields [("BoardID", r.boardId.map toString), ("FpgaID", r.fpgaId.map toString),
    ("PRID", r.prId.map toString)])

theorem RegionS.node_states (r : RegionS) : r.node.StatesRegion r := by
  have hvalue : ∀ {name : String} {n : Option ℕ}, (name, n.map toString) ∈
      [("BoardID", r.boardId.map toString), ("FpgaID", r.fpgaId.map toString),
        ("PRID", r.prId.map toString)] → StatesNumber (regionValue r.node name) n := by
    intro name n hmem
    have hchild : XmlNode.child (some r.node) name = (n.map toString).map (field name) := by
      have hnil : ([] : List XmlNode).find? (XmlNode.isNamed name) = none := rfl
      have hfind := find_fields (by simp) hmem hnil
      rwa [List.append_nil] at hfind
    unfold regionValue
    rw [hchild]
    cases n with
    | none => rfl
    | some k =>
      change Decimal (XmlNode.childValue (some (field name (toString k)))) k
      rw [childValue_field]
      exact decimal_repr k
  exact ⟨hvalue (by simp), hvalue (by simp), hvalue (by simp)⟩

namespace ConfigS

def boolText (b : Bool) : String := if b then "true" else "false"

def keys (c : ConfigS) : List (String × Option String) :=
  [("BitstreamsPath", c.bitstreamsPath), ("EnableBitstreamMmap", c.enableBitstreamMmap.map boolText),
    ("UnimemDriverPath", c.unimemDriverPath)]

def regionList (c : ConfigS) : Option XmlNode :=
  c.regions.map fun rs => .element "PRs" (rs.map RegionS.node)

def topNode (c : ConfigS) : XmlNode :=
  .element "ConfigParams" (fields c.keys ++ c.regionList.toList)

/-- A document for a configuration. -/
def document (c : ConfigS) : XmlNode := .element "" [c.topNode]

theorem keys_nodup (c : ConfigS) : (c.keys.map Prod.fst).Nodup := by simp [keys]

/-- Every configuration has a document. -/
theorem document_states (c : ConfigS) : ∃ top, XmlNode.child (some c.document) "ConfigParams" =
    some top ∧ (WeeConfig.mk top).States c := by
  refine ⟨c.topNode, rfl, ?_⟩
  have hkey : ∀ {name : String} {value : Option String}, (name, value) ∈ c.keys → name ≠ "PRs" →
      (WeeConfig.mk c.topNode).getString name = value := by
    intro name value hmem hne
    refine (congrArg _ (find_fields c.keys_nodup hmem ?_)).trans (childValue_map_field name value)
    unfold regionList
    cases c.regions with
    | none => rfl
    | some rs =>
      refine List.find?_cons_of_neg ?_
      exact fun heq => hne (beq_iff_eq.mp heq).symm
  refine ⟨hkey (by simp [keys]) (by decide), ?_, hkey (by simp [keys]) (by decide), ?_⟩
  · unfold WeeConfig.getBool
    have hmem : ("EnableBitstreamMmap", c.enableBitstreamMmap.map boolText) ∈ c.keys := by
      simp [keys]
    rw [hkey hmem (by decide), Option.map_map]
    have hid : (fun text => text == "true") ∘ boolText = id := by
      funext b
      cases b <;> decide +kernel
    rw [hid, Option.map_id]
    rfl
  · have hfind : XmlNode.child (some c.topNode) "PRs" = c.regionList := by
      refine (find_fields_of_notMem (by simp [keys]) _).trans ?_
      unfold regionList
      cases c.regions <;> rfl
    rw [hfind]
    unfold regionList
    cases c.regions with
    | none => exact .none
    | some rs =>
      exact .some (List.forall₂_map_left_iff.mpr (List.forall₂_same.mpr fun r _ => r.node_states))

end ConfigS

/-! ## What it starts with -/

theorem Global.exists_new {n : ℕ} {prs : Fin n → ℕ × ℕ × ℕ} (hn : n < 2 ^ 31)
    (hboards : ∀ i, (prs i).1 ≤ 3) (bits : String → Option (ℕ × ℕ)) (ends : Fin n → ℚ) :
    ∃ g, Global.new prs bits ends = some g := by
  have hall : ∀ i, (Scheduler.new (prs i).1 (prs i).2.1 (prs i).2.2 (ends i)).isSome = true :=
      fun i => by
    unfold Scheduler.new
    rw [if_pos (hboards i)]
    rfl
  obtain ⟨m, hm, -⟩ := FreeSchedulersManager.foldlM_addFreeScheduler
    (fun i => (Option.get _ (hall i)).id) (List.finRange n) (m := FreeSchedulersManager.new n)
    (by simp [FreeSchedulersManager.new, FreeSchedulersManager.ids, FreeSchedulersManager.capacity])
  unfold Global.new
  rw [if_neg (not_le.mpr hn), dif_pos hall]
  dsimp only
  rw [hm]
  exact ⟨_, rfl⟩

/-- What the files state, at run time: a free scheduler for each region in its order, the getters and
the costs of the bitstream files, the launches that are accepted, and a start of the library. -/
structure Started.Matches (pugi : Pugi) (ends : ℕ → ℚ) (s : Started) (c : ConfigS)
    (written : String → Option BitstreamS) : Prop where
  islands : s.islands = c.prs.length
  schedulers : ∀ i : Fin s.islands, ∃ pr, c.prs[i.val]? = some pr ∧
    Scheduler.new pr.1 pr.2.1 pr.2.2 (ends i) = some (s.global.schedulers i)
  free : s.global.freeScMgr.ids = c.prs.map regionId
  answers : s.manager.Answers pugi written
  costs : ∀ i name b, written name = some b → s.global.tracker.getWgCostOnIsland i name =
    i32 ((if (s.global.schedulers i).isLocal then b.localCost else b.remoteCost : ℕ) : ℤ)
  accepts : ∀ kernel xmlName globalSize localSize, s.manager.bitstreams.accepts
      (.ndrange ⟨some (kernel, some xmlName), globalSize, localSize⟩) = true ↔
    ∃ b, written xmlName = some b ∧ 0 < localSize ∧ b.wgroupSize = localSize ∧
      globalSize % localSize = 0
  starts : ∀ memory user,
    (library s.islands s.manager.bitstreams).start (Runtime.new s.global memory user)

variable {pugi : Pugi} {ends : ℕ → ℚ} {c : ConfigS} {written : String → Option BitstreamS}

theorem accepts_iff {m : BitstreamManager} (h : m.Answers pugi written) (kernel : ℕ)
    (xmlName : String) (globalSize localSize : ℕ) : m.bitstreams.accepts
      (.ndrange ⟨some (kernel, some xmlName), globalSize, localSize⟩) = true ↔
    ∃ b, written xmlName = some b ∧ 0 < localSize ∧ b.wgroupSize = localSize ∧
      globalSize % localSize = 0 := by
  have hsizes : m.bitstreams.checkWgSize xmlName localSize = true ↔
      ∃ b, written xmlName = some b ∧ 0 < b.wgroupSize ∧ b.wgroupSize = localSize := by
    unfold Bitstreams.checkWgSize BitstreamManager.bitstreams
    dsimp only
    rw [h.wgSize xmlName]
    cases written xmlName <;> simp [Option.filter_some]
  simp only [Bitstreams.accepts, Bool.and_eq_true, decide_eq_true_eq, beq_iff_eq, hsizes]
  constructor
  · rintro ⟨⟨hpos, b, hb, -, hsize⟩, hmod⟩
    exact ⟨b, hb, hpos, hsize, hmod⟩
  · rintro ⟨b, hb, hpos, rfl, hmod⟩
    exact ⟨⟨hpos, b, hb, hpos, rfl⟩, hmod⟩

theorem tracker_new {n : ℕ} {prs : Fin n → ℕ × ℕ × ℕ} {bits : String → Option (ℕ × ℕ)}
    {ends : Fin n → ℚ} {g : Global n} (h : Global.new prs bits ends = some g) :
    g.tracker = Tracker.new bits g.schedulers := by
  unfold Global.new at h
  obtain ⟨-, h⟩ := Option.ite_none_left_eq_some.mp h
  split at h
  · obtain ⟨m, -, rfl⟩ := Option.map_eq_some_iff.mp h
    rfl
  · cases h

theorem costs_of_answers {m : BitstreamManager} (h : m.Answers pugi written) {name : String}
    {b : BitstreamS} (hb : written name = some b) : m.costs name = some (b.localCost, b.remoteCost) := by
  have hlocal := h.localCost name
  have hremote := h.remoteCost name
  rw [hb] at hlocal hremote
  obtain ⟨b', hb', hl⟩ := Option.map_eq_some_iff.mp hlocal
  obtain ⟨b'', hb'', hr⟩ := Option.map_eq_some_iff.mp hremote
  obtain rfl := Option.some.inj (hb'.symm.trans hb'')
  unfold BitstreamManager.costs
  rw [hb', Option.map_some, hl, hr]

theorem matches_new {m : BitstreamManager} (hm : m.Answers pugi written) {g : Global c.prs.length}
    (hg : Global.new (fun i : Fin c.prs.length => c.prs.get i) m.costs (fun i => ends i) = some g) :
    Started.Matches pugi ends ⟨c.prs.length, g, m⟩ c written := by
  have hsched : ∀ i, Scheduler.new (c.prs.get i).1 (c.prs.get i).2.1 (c.prs.get i).2.2 (ends i) =
      some (g.schedulers i) := fun i => by
    obtain ⟨s, hs, hi⟩ := (Global.new_spec hg).1 i
    rw [hi]
    exact hs
  refine ⟨rfl, fun i => ⟨c.prs.get i, List.getElem?_eq_getElem i.isLt, hsched i⟩, ?_, hm,
    fun i name b hb => ?_, accepts_iff hm, fun _ _ => ⟨_, _, _, g, _, _, hg, rfl⟩⟩
  · obtain ⟨-, -, hids⟩ := Global.new_freeScMgr hg
    calc g.freeScMgr.ids = (List.finRange c.prs.length).map fun i => (g.schedulers i).id := hids
      _ = (List.finRange c.prs.length).map fun i => regionId (c.prs.get i) :=
        List.map_congr_left fun i _ => SchedConfig.new_id (hsched i)
      _ = ((List.finRange c.prs.length).map c.prs.get).map regionId := by
        rw [List.map_map]
        rfl
      _ = c.prs.map regionId := by rw [List.map_get_finRange]
  · change g.tracker.getWgCostOnIsland i name = _
    unfold Tracker.getWgCostOnIsland
    rw [tracker_new hg]
    unfold Tracker.new
    dsimp only
    rw [costs_of_answers hm hb]
    rfl

variable {loadFile loadText beyond : List UInt8 → Option XmlNode} {host : Host}

/-- Started on documents that state a configuration and bitstreams, the library has exactly these, with
the defaults for what is missing; without a driver that opens there is an exception. -/
theorem starts_as_stated (hc : c.InRange) {bytes : List UInt8} {doc top : XmlNode}
    (hfile : host.files (host.configPath.getD "./default_config.xml") = some bytes)
    (hparse : loadFile bytes = some doc) (htop : XmlNode.child (some doc) "ConfigParams" = some top)
    (hstates : (WeeConfig.mk top).States c)
    (hdir : (host.dir c.directory).Holds loadFile loadText c.mmap written) (ends : ℕ → ℚ) :
    ∃ s, s.Matches (.ofMapping loadFile loadText beyond) ends c written ∧
      startUp (.ofMapping loadFile loadText beyond) host ends =
        if c.unimemDriverPath.any host.opens then some s else none := by
  have hconfig : WeeConfig.new (.ofMapping loadFile loadText beyond) host host.configPath
      (some "ConfigParams") = some ⟨top⟩ := by
    have hload : (Pugi.ofMapping loadFile loadText beyond).loadFile bytes = some doc := hparse
    unfold WeeConfig.new
    rw [hfile, Option.bind_some, hload, Option.bind_some, Option.getD_some, htop, Option.map_some]
  obtain ⟨m, hnew, hanswers⟩ : ∃ m, BitstreamManager.new (.ofMapping loadFile loadText beyond) c.mmap
      (host.dir c.directory) = some m ∧ m.Answers (.ofMapping loadFile loadText beyond) written :=
    BitstreamManager.files_read_back hdir
  have hmanager : BitstreamManager.ofConfig (.ofMapping loadFile loadText beyond) host ⟨top⟩ =
      some m := by
    unfold BitstreamManager.ofConfig
    rw [hstates.bitstreamsPath, hstates.enableBitstreamMmap]
    exact hnew
  have hopens : opensDriver host ⟨top⟩ = c.unimemDriverPath.any host.opens := by
    unfold opensDriver
    rw [hstates.unimemDriverPath]
  have hregions := regions_states hstates hc
  dsimp only at hregions
  have hboards : ∀ i : Fin c.prs.length, (c.prs.get i).1 ≤ 3 := fun i =>
    hc.boards _ (List.get_mem _ i)
  obtain ⟨g, hg⟩ := Global.exists_new hc.count hboards m.costs fun i => ends i
  refine ⟨⟨c.prs.length, g, m⟩, matches_new hanswers hg, ?_⟩
  unfold startUp
  rw [hconfig]
  simp only [Option.bind_eq_bind, Option.bind_some]
  rw [hregions, hmanager, Option.bind_some, hg, Option.bind_some, hopens]

/-- The default configuration, without its comments and the elements that name other drivers, and
with a region that has only the number of its FPGA. -/
def sampleConfig : ConfigS where
  regions := some [⟨some 0, some 1, some 1⟩, ⟨some 0, some 1, some 3⟩, ⟨none, some 2, none⟩]
  bitstreamsPath := some "/home/bitstreams"
  enableBitstreamMmap := none
  unimemDriverPath := some "/dev/unimem_buffer_allocator"

def sampleConfigFile : List UInt8 :=
  ("<ConfigParams><BitstreamsPath>/home/bitstreams</BitstreamsPath>" ++
    "<UnimemDriverPath>/dev/unimem_buffer_allocator</UnimemDriverPath><PRs>" ++
    "<PR><BoardID>0</BoardID><FpgaID>1</FpgaID><PRID>1</PRID></PR>" ++
    "<PR><BoardID>0</BoardID><FpgaID>1</FpgaID><PRID>3</PRID></PR>" ++
    "<PR><FpgaID>2</FpgaID></PR></PRs></ConfigParams>").toUTF8.toList

/-- What pugixml answers for the two texts. -/
def parseSampleTexts (bytes : List UInt8) : Option XmlNode :=
  if bytes = sampleConfigFile then some sampleConfig.document
  else BitstreamManager.parseSampleFile bytes

def sampleHost : Host where
  configPath := none
  files path :=
    if path = "./default_config.xml" then some sampleConfigFile
    else if path = "/home/bitstreams/kernel.xml" then some BitstreamManager.sampleFile else none
  listing path := if path = "/home/bitstreams" then some ["kernel.xml"] else none
  opens path := path == "/dev/unimem_buffer_allocator"

/-- That configuration with one bitstream. -/
theorem starts_as_stated_sample : ∃ s,
    s.Matches (.ofMapping parseSampleTexts parseSampleTexts fun _ => none) (fun _ => 0) sampleConfig
      (fun name => if name = "kernel.xml" then some BitstreamManager.sampleBitstream else none) ∧
    startUp (.ofMapping parseSampleTexts parseSampleTexts fun _ => none) sampleHost (fun _ => 0) =
      if sampleConfig.unimemDriverPath.any sampleHost.opens then some s else none := by
  have hrange : sampleConfig.InRange := by
    refine ⟨?_, ?_, ?_⟩ <;> decide +kernel
  obtain ⟨top, htop, hstates⟩ := sampleConfig.document_states
  have hfile : sampleHost.files (sampleHost.configPath.getD "./default_config.xml") =
      some sampleConfigFile := rfl
  have hparse : parseSampleTexts sampleConfigFile = some sampleConfig.document := if_pos rfl
  refine starts_as_stated hrange hfile hparse htop hstates
    ⟨by decide +kernel, fun name => ?_, fun name b hb => ?_⟩ _
  · have hfiles : xmlFiles ["kernel.xml"] = ["kernel.xml"] := by decide +kernel
    change name ∈ xmlFiles ["kernel.xml"] ↔ _
    rw [hfiles, List.mem_singleton]
    split <;> simp_all
  · obtain ⟨rfl, hb⟩ := Option.ite_none_right_eq_some.mp hb
    obtain rfl := Option.some.inj hb
    have hsample : BitstreamManager.sampleBitstream.InRange := by
      refine ⟨?_, ?_, ?_, ?_, ?_, ?_, ?_⟩ <;> decide +kernel
    have hbytes : BitstreamManager.sampleFile ≠ [] ∧
        BitstreamManager.sampleFile ≠ sampleConfigFile := by
      decide +kernel
    have hloads : parseSampleTexts BitstreamManager.sampleFile =
        some BitstreamManager.sampleBitstream.document := (if_neg hbytes.2).trans (if_pos rfl)
    refine ⟨hsample, BitstreamManager.sampleFile, _, ?_, hloads, BitstreamS.document_states _⟩
    exact Option.filter_some_pos (decide_eq_true hbytes.1)

end FpgaMl
