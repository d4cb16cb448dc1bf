import ScriptImage.Header.StringPool
import ScriptImage.Header.Tables

/-!
# Headers

A header holds the version and the tables that code refers to.  It begins with a magic
word whose byte order is opposite to that of the rest, so the first four bytes tell the
byte order of a file.
-/

namespace ScriptImage

/-- The first word of a file, read in the order opposite to the file's. -/
def magic : UInt32 := 0x4F534900

/-- The version and the tables of a file. -/
structure Header where
  version : Version
  /-- String literals. -/
  strings : StringPool
  /-- Names of globals. -/
  globals : StringPool
  functions : List FunctionEntry
  classes : ClassTable
  /-- Names of properties and methods. -/
  symbols : StringPool
  /-- Names of source files. -/
  sources : Option StringPool
  deriving DecidableEq

namespace Header

def empty (v : Version) : Header where
  version := v
  strings := .empty .p16z
  globals := .empty .p8z
  functions := []
  classes := .empty v.countWidth
  symbols := .empty .p8z
  sources := if v.hasSources then some (.empty .p8z) else none

instance : Inhabited Header := ⟨empty .v60⟩

def versionOf (major minor : UInt16) : Except Error Version :=
  match Version.ofPair? major minor with
  | some v => .ok v
  | none => .error (.unsupportedVersion major minor)

/-- The stored size, which is also where code begins. -/
def size (h : Header) : Nat :=
  4 + 2 + 2 + h.strings.size + h.globals.size + FunctionEntry.tableSize h.functions +
    h.classes.size + h.symbols.size + (h.sources.map StringPool.size).getD 0

/-- Writes a pool as a structure of its own. -/
def encodePool (order : ByteOrder) (p : StringPool) : Encoding :=
  .announced p.size (p.encode order)

/-- Magic and version. -/
def preamble (order : ByteOrder) (v : Version) : List UInt8 :=
  order.inverted.encode 4 magic.toNat ++ order.encode 2 v.pair.1.toNat ++
    order.encode 2 v.pair.2.toNat

/-- Writes the tables in their order. -/
def encodeTables (order : ByteOrder) (h : Header) : Encoding :=
  encodePool order h.strings ++ encodePool order h.globals ++
    .announced (FunctionEntry.tableSize h.functions) (FunctionEntry.encodeTable order h.functions) ++
    .announced h.classes.size (h.classes.encode order) ++ encodePool order h.symbols ++
    (match h.sources with
      | some p => encodePool order p
      | none => .empty)

/-- Writes the header. The sources and the member counts have to be those of its version. -/
def encode (order : ByteOrder) (h : Header) : Encoding :=
  if h.version.hasSources ≠ h.sources.isSome then .fail (.sourcesMismatch h.version)
  else if h.classes.countWidth ≠ h.version.countWidth then .fail (.countWidthMismatch h.version)
  else .ofBytes (preamble order h.version) ++ h.encodeTables order

/-- Reads the sources if the version has them. -/
def readSources (order : ByteOrder) (v : Version) : Reader (Option StringPool) :=
  if v.hasSources then do
    let p ← StringPool.read order .p8z
    return some p
  else pure none

def read (order : ByteOrder) : Reader Header := do
  let found ← Reader.uint32 order.inverted
  if found ≠ magic then throw (.badMagic found)
  let major ← Reader.uint16 order
  let minor ← Reader.uint16 order
  let version ← Reader.lift (versionOf major minor)
  let strings ← StringPool.read order .p16z
  let globals ← StringPool.read order .p8z
  let functions ← Reader.nested (FunctionEntry.readTable order)
  let classes ← ClassTable.read order version.countWidth
  let symbols ← StringPool.read order .p8z
  let sources ← readSources order version
  return { version, strings, globals, functions, classes, symbols, sources }

/-- The byte order of a file, judged by its first word. -/
def detectOrder (bytes : List UInt8) : Except Error ByteOrder :=
  let first := bytes.take 4
  if first.length < 4 then .error (.outsideWindow .read 4 0 bytes.length)
  else if ByteOrder.little.inverted.decode first = magic.toNat then .ok .little
  else if ByteOrder.big.inverted.decode first = magic.toNat then .ok .big
  else .error .missingMagic

/-- Where the functions, and then the methods of the classes, say their routines start. -/
def starts (h : Header) : List UInt32 :=
  h.functions.map FunctionEntry.offset ++
    h.classes.entries.flatMap fun c => c.methods.map Method.offset

end Header

end ScriptImage
