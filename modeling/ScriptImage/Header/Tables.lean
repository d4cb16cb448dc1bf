import ScriptImage.Encoding
import ScriptImage.Reader

/-!
# Functions and classes

The function table lists names, argument counts and positions of routines.  The class
table stores the members of all classes first and the names of all classes after them;
how wide its member counts are depends on the version.
-/

namespace ScriptImage

/-! ## Functions -/

/-- An entry of the function table. -/
structure FunctionEntry where
  name : Name
  argCount : UInt8
  /-- Where the function's routine starts. -/
  offset : UInt32
  deriving DecidableEq

namespace FunctionEntry

def make (name : String) (argCount : UInt8) (offset : UInt32) : Except Error FunctionEntry :=
  (ByteString.ofText .p8z name).map fun s => ⟨s, argCount, offset⟩

def size (f : FunctionEntry) : Nat :=
  f.name.size + 1 + 4

def encode (order : ByteOrder) (f : FunctionEntry) : Encoding :=
  .announced f.size <| .ofBytes <|
    f.name.stored order ++ order.encode 1 f.argCount.toNat ++ order.encode 4 f.offset.toNat

def read (order : ByteOrder) : Reader FunctionEntry := do
  let name ← ByteString.read order .p8z
  let argCount ← Reader.byte
  let offset ← Reader.uint32 order
  return ⟨name, argCount, offset⟩

/-- The index of the first function with this name. -/
def indexOf? (fs : List FunctionEntry) (name : String) : Option Nat :=
  let bytes := Utf8.encode name
  fs.findIdx? fun f => f.name.bytes == bytes

def tableSize (fs : List FunctionEntry) : Nat :=
  2 + (fs.map size).sum

/-- Writes a table: a count of two bytes and the entries. -/
def encodeTable (order : ByteOrder) (fs : List FunctionEntry) : Encoding :=
  .count order .two "functions" fs.length ++ .concat (fs.map (encode order))

def readTable (order : ByteOrder) : Reader (List FunctionEntry) := do
  let count ← Reader.uint16 order
  Reader.many (Reader.nested (read order)) count.toNat

end FunctionEntry

/-! ## Classes -/

/-- A method: the symbol that names it and where its routine starts. -/
structure Method where
  symbol : UInt16
  offset : UInt32
  deriving DecidableEq, Repr

/-- A class with its properties, which are symbols, and its methods. -/
structure ClassEntry where
  name : Name
  properties : List UInt16
  methods : List Method
  deriving DecidableEq

structure ClassTable where
  /-- The width of the member counts. -/
  countWidth : CountWidth
  entries : List ClassEntry
  deriving DecidableEq

def CountWidth.read (order : ByteOrder) (w : CountWidth) : Reader Nat :=
  Reader.word order w.size

namespace Method

def stored (order : ByteOrder) (m : Method) : List UInt8 :=
  order.encode 2 m.symbol.toNat ++ order.encode 4 m.offset.toNat

def read (order : ByteOrder) : Reader Method := do
  let symbol ← Reader.uint16 order
  let offset ← Reader.uint32 order
  return ⟨symbol, offset⟩

end Method

namespace ClassEntry

/-- The class without members. -/
def make (name : String) : Except Error ClassEntry :=
  (ByteString.ofText .p8z name).map fun s => ⟨s, [], []⟩

def membersSize (width : CountWidth) (c : ClassEntry) : Nat :=
  2 * width.size + c.properties.length * 2 + c.methods.length * 6

/-- Writes the members: properties, then methods, each after their count. -/
def encodeMembers (order : ByteOrder) (width : CountWidth) (c : ClassEntry) : Encoding :=
  .count order width "properties" c.properties.length ++
    .ofBytes (c.properties.flatMap fun p => order.encode 2 p.toNat) ++
    .count order width "methods" c.methods.length ++
    .ofBytes (c.methods.flatMap fun m => m.stored order)

def readMembers (order : ByteOrder) (width : CountWidth) : Reader (List UInt16 × List Method) := do
  let propertyCount ← width.read order
  let properties ← Reader.many (Reader.uint16 order) propertyCount
  let methodCount ← width.read order
  let methods ← Reader.many (Method.read order) methodCount
  return (properties, methods)

end ClassEntry

namespace ClassTable

def empty (width : CountWidth) : ClassTable :=
  ⟨width, []⟩

/-- The index of the only class with this name; a name that occurs twice is an error. -/
def uniqueIndex? (t : ClassTable) (name : List UInt8) : Except Error (Option Nat) :=
  let named := t.entries.zipIdx.filter fun (c, _) => c.name.bytes == name
  match named with
  | [] => .ok none
  | [(_, first)] => .ok (some first)
  | (_, first) :: (_, second) :: _ => .error (.ambiguousClass name first second)

/-- The stored size. -/
def size (t : ClassTable) : Nat :=
  2 + (t.entries.map fun c => c.membersSize t.countWidth + c.name.size).sum

/-- Writes the table: the members of all classes, then the names of all classes. -/
def encode (order : ByteOrder) (t : ClassTable) : Encoding :=
  .count order .two "classes" t.entries.length ++
    .concat (t.entries.map (ClassEntry.encodeMembers order t.countWidth)) ++
    .ofBytes (t.entries.flatMap fun c => c.name.stored order)

/-- Reads a name for each of the members already read. -/
def readNames (order : ByteOrder) : List (List UInt16 × List Method) → Reader (List ClassEntry)
  | [] => pure []
  | (properties, methods) :: rest => do
    let name ← ByteString.read order .p8z
    let classes ← readNames order rest
    return ⟨name, properties, methods⟩ :: classes

/-- Reads a table whose member counts have the given width. -/
def read (order : ByteOrder) (width : CountWidth) : Reader ClassTable := do
  let count ← Reader.uint16 order
  let members ← Reader.many (ClassEntry.readMembers order width) count.toNat
  let entries ← readNames order members
  return ⟨width, entries⟩

end ClassTable

end ScriptImage
