import Mathlib.Tactic
import FpgaMl.Dispatcher
import FpgaMl.Foundation.KeyedLoad

/-! # The bitstream manager (bitstream_manager.cc) and the checks built from it

The scan of the directory, the extraction of its files and the getters, with the two checks of
bitstream_check.h. pugixml is a parameter. A file that cannot be opened has no contents. -/
namespace FpgaMl
open MachineInt KeyedLoad
set_option autoImplicit false

/-! ## Documents -/

inductive XmlNode
  | element (name : String) (children : List XmlNode)
  | text (value : String)

namespace XmlNode

def children : XmlNode → List XmlNode
  | element _ children => children
  | text _ => []

def isNamed (name : String) : XmlNode → Bool
  | element name' _ => name' == name
  | text _ => false

def value? : XmlNode → Option String
  | element _ _ => none
  | text value => some value

/-- `child`; the null node has none. -/
def child (node : Option XmlNode) (name : String) : Option XmlNode :=
  node.bind fun n => n.children.find? (isNamed name)

/-- `child_value`: the first text under the node. -/
def childValue (node : Option XmlNode) : String :=
  (node.bind fun n => n.children.findSome? value?).getD ""

end XmlNode

/-- pugixml, from the bytes of a file to its document: `load_file`, and `load_string` called with the
start of a mapping of the file. `none` is a parse that failed. -/
structure Pugi where
  loadFile : List UInt8 → Option XmlNode
  loadString : List UInt8 → Option XmlNode

namespace Pugi

/-- One parse of the bytes for both. -/
def ofParse (parse : List UInt8 → Option XmlNode) : Pugi := ⟨parse, parse⟩

def pageSize : ℕ := 4096

/-- There is a zero in a mapping of the bytes, which the kernel fills up with zeros to the end of its
last page. -/
def Terminated (bytes : List UInt8) : Prop := 0 ∈ bytes ∨ bytes.length % pageSize ≠ 0

instance (bytes : List UInt8) : Decidable (Terminated bytes) :=
  inferInstanceAs (Decidable (_ ∨ _))

/-- `load_string` takes the `strlen` of what it is given. Without a zero in the mapping that reads on
behind it, and `beyond` stands for what comes of it. -/
def ofMapping (loadFile loadText beyond : List UInt8 → Option XmlNode) : Pugi where
  loadFile := loadFile
  loadString bytes :=
    if Terminated bytes then loadText (bytes.takeWhile (· ≠ 0)) else beyond bytes

end Pugi

/-! ## Numbers in texts -/

def skipSpaces (s : List Char) : List Char :=
  s.dropWhile fun c => c ∈ [' ', '\t', '\n', '\x0b', '\x0c', '\r']

/-- The sign in front of a number and the rest. -/
def takeSign : List Char → Bool × List Char
  | '-' :: s => (true, s)
  | '+' :: s => (false, s)
  | s => (false, s)

def hexDigit? (c : Char) : Option ℕ :=
  if '0' ≤ c ∧ c ≤ '9' then some (c.toNat - '0'.toNat)
  else if 'a' ≤ c ∧ c ≤ 'f' then some (c.toNat - 'a'.toNat + 10)
  else if 'A' ≤ c ∧ c ≤ 'F' then some (c.toNat - 'A'.toNat + 10)
  else none

/-- The value of the leading digits. -/
def readDigits (base : ℕ) (s : List Char) : ℕ :=
  ((s.map fun c => (hexDigit? c).filter (· < base)).takeWhile Option.isSome).foldl
    (fun n digit => n * base + digit.getD 0) 0

/-- `atoi` as `strtol` gives it, which stops at the bounds of a `long`, cut to an `int`. -/
def atoi (s : String) : ℤ :=
  let (negative, digits) := takeSign (skipSpaces s.toList)
  let n : ℤ := readDigits 10 digits
  i32 (if negative then max (-2 ^ 63) (-n) else min (2 ^ 63 - 1) n)

/-- `strtoul` with base 16. -/
def strtoul16 (s : String) : ℕ :=
  let (negative, digits) := takeSign (skipSpaces s.toList)
  let n := readDigits 16 (match digits with
    | '0' :: 'x' :: rest => rest
    | '0' :: 'X' :: rest => rest
    | rest => rest)
  if 2 ^ 64 ≤ n then 2 ^ 64 - 1 else if negative then u64 (2 ^ 64 - n) else n

/-! ## What a file says -/

structure BitstreamS where
  resourceString : String
  offsetAddress : List ℕ
  target : String
  numAccs : ℕ
  wgroupSize : ℕ
  localCost : ℕ
  remoteCost : ℕ
  bitstream : String
  bsLength : ℕ

def headerValue (doc : XmlNode) (name : String) : String :=
  XmlNode.childValue (XmlNode.child (XmlNode.child (XmlNode.child (some doc) "data") "header") name)

def bodyValue (doc : XmlNode) (name : String) : String :=
  XmlNode.childValue (XmlNode.child (XmlNode.child (XmlNode.child (some doc) "data") "body") name)

/-- The part of `extract_xml_file` that reads the document. With the map the text of the bitstream
stays in the file. -/
def readBitstream (enabledMmap : Bool) (doc : XmlNode) : BitstreamS where
  resourceString := headerValue doc "resource-string"
  offsetAddress := (List.range (atoi (headerValue doc "n_args")).toNat).map fun i =>
    u32 (strtoul16 (headerValue doc ("offset_address_" ++ toString i)))
  target := headerValue doc "target"
  numAccs := toU32 (atoi (headerValue doc "num_accelerators"))
  wgroupSize := toU32 (atoi (headerValue doc "workgroup_size"))
  localCost := toU32 (atoi (headerValue doc "local_cost"))
  remoteCost := toU32 (atoi (headerValue doc "remote_cost"))
  bitstream := if enabledMmap then "" else bodyValue doc "bitstream"
  bsLength := toU32 (atoi (bodyValue doc "length"))

/-! ## The directory -/

/-- What `opendir` and `readdir` answer for the working directory, and the bytes of its files. -/
structure BitstreamsDir where
  listing : Option (List String)
  contents : String → Option (List UInt8)

def isHidden (name : String) : Bool := name.toList.head? == some '.'

/-- `substr (size () - 4, 4)` throws for these. -/
def isShort (name : String) : Bool := !isHidden name && name.utf8ByteSize < 4

def isXmlFile (name : String) : Bool := !isHidden name && ".xml".toList.isSuffixOf name.toList

namespace BitstreamsDir

def files (dir : BitstreamsDir) : List String := dir.listing.getD []

/-- `open` and `mmap`, which refuses an empty file. -/
def mapFile (dir : BitstreamsDir) (name : String) : Option (List UInt8) :=
  (dir.contents name).filter (· ≠ [])

end BitstreamsDir

/-! ## The manager -/

structure BitstreamManager where
  kernelBitstreamStructMap : String → Option BitstreamS
  kernelMmapPtrMap : String → Option (List UInt8)
  enabledMmap : Bool
  xmlFilesList : List String

namespace BitstreamManager

def empty (enabledMmap : Bool) : BitstreamManager := ⟨fun _ => none, fun _ => none, enabledMmap, []⟩

def addXmlFile (m : BitstreamManager) (name : String) : BitstreamManager :=
  { m with xmlFilesList := m.xmlFilesList ++ [name] }

def addMapping (m : BitstreamManager) (name : String) (bytes : List UInt8) : BitstreamManager :=
  { m with kernelMmapPtrMap := Function.update m.kernelMmapPtrMap name (some bytes) }

/-- The loop of `get_xml_files_list`, with whether it answers success; `none` is the exception. -/
def getXmlFilesList (dir : BitstreamsDir) : List String → BitstreamManager →
    Option (Bool × BitstreamManager)
  | [], m => some (true, m)
  | name :: rest, m =>
    if isHidden name then getXmlFilesList dir rest m
    else if isShort name then none
    else if isXmlFile name then
      if m.enabledMmap then
        match dir.mapFile name with
        | none => some (false, m.addXmlFile name)
        | some bytes => getXmlFilesList dir rest ((m.addXmlFile name).addMapping name bytes)
      else getXmlFilesList dir rest (m.addXmlFile name)
    else getXmlFilesList dir rest m

variable (pugi : Pugi)

/-- `load_string` from the map, or `load_file`. -/
def loadDocument (dir : BitstreamsDir) (m : BitstreamManager) (name : String) : Option XmlNode :=
  if m.enabledMmap then (m.kernelMmapPtrMap name).bind pugi.loadString
  else (dir.contents name).bind pugi.loadFile

/-- `none` is `ML_ERROR`. -/
def extractXmlFile (dir : BitstreamsDir) (m : BitstreamManager) (name : String) :
    Option BitstreamManager :=
  (m.loadDocument pugi dir name).map fun doc =>
    { m with
      kernelBitstreamStructMap :=
        Function.update m.kernelBitstreamStructMap name (some (readBitstream m.enabledMmap doc)) }

/-- The loop of `read_xml_files`. -/
def extractFiles (dir : BitstreamsDir) : List String → BitstreamManager → BitstreamManager
  | [], m => m
  | name :: rest, m =>
    match m.extractXmlFile pugi dir name with
    | none => m
    | some m => extractFiles dir rest m

/-- The constructor, which does not look at the code of `read_xml_files`; `none` is the exception of
a short name. -/
def new (enabledMmap : Bool) (dir : BitstreamsDir) : Option BitstreamManager :=
  match dir.listing with
  | none => some (empty enabledMmap)
  | some names => (getXmlFilesList dir names (empty enabledMmap)).map fun (found, m) =>
    if found then extractFiles pugi dir m.xmlFilesList m else m

/-! ### The getters; `none` is `ML_ERROR` -/

def getBitStream (m : BitstreamManager) (fname : String) : Option String :=
  if m.enabledMmap then
    ((m.kernelMmapPtrMap fname).bind pugi.loadString).map fun doc => bodyValue doc "bitstream"
  else (m.kernelBitstreamStructMap fname).map BitstreamS.bitstream

variable (m : BitstreamManager) (fname : String)

def getResourceString : Option String :=
  (m.kernelBitstreamStructMap fname).map BitstreamS.resourceString
def getOffsetAddresses : Option (List ℕ) :=
  (m.kernelBitstreamStructMap fname).map BitstreamS.offsetAddress
def getTarget : Option String := (m.kernelBitstreamStructMap fname).map BitstreamS.target
def getNumAccs : Option ℕ := (m.kernelBitstreamStructMap fname).map BitstreamS.numAccs
def getWgSize : Option ℕ := (m.kernelBitstreamStructMap fname).map BitstreamS.wgroupSize
def getLocalCost : Option ℕ := (m.kernelBitstreamStructMap fname).map BitstreamS.localCost
def getRemoteCost : Option ℕ := (m.kernelBitstreamStructMap fname).map BitstreamS.remoteCost
def getBsLength : Option ℕ := (m.kernelBitstreamStructMap fname).map BitstreamS.bsLength

/-! ### What `Global` builds from the manager -/

/-- `BitstreamCheck`, from the list of the scan. -/
def checkBitstreamExists : Bool := m.xmlFilesList.contains fname

/-- The costs that the tracker reads from the map. -/
def costs : Option (ℕ × ℕ) :=
  (m.kernelBitstreamStructMap fname).map fun b => (b.localCost, b.remoteCost)

/-- `WorkGroupSizeCheck` and the resource strings, from the map. -/
def bitstreams : Bitstreams where
  resourceString := m.getResourceString
  workGroupSizes name := (m.getWgSize name).filter (0 < ·)

end BitstreamManager

end FpgaMl
