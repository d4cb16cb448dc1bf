import ScriptImage.Code
import ScriptImage.Header
import ScriptImage.Machine.Access

/-!
# Reading through a window

The readers of all structures, in word arithmetic.  Each takes the byte order from the
window it reads through.  Instructions, functions, the function table and headers are read
through windows of their own; the others share the window and the cursor of whoever reads
them.
-/

namespace ScriptImage

namespace MachineM

variable {α : Type}

def order : MachineM ByteOrder := do
  return (← window).order

/-! ## Words, strings and cells -/

/-- The next word of `n` bytes. -/
def readWord (n : Nat) : MachineM Nat := do
  readWith n (← order).decode

def readByte : MachineM UInt8 := do
  let n ← readWord 1
  return UInt8.ofNat n

def readUInt16 : MachineM UInt16 := do
  let n ← readWord 2
  return UInt16.ofNat n

def readUInt32 : MachineM UInt32 := do
  let n ← readWord 4
  return UInt32.ofNat n

/-- The next word of four bytes, in the opposite byte order. -/
def readInverted : MachineM UInt32 := do
  let n ← readWith 4 (← order).inverted.decode
  return UInt32.ofNat n

def readMany (read : MachineM α) : Nat → MachineM (List α)
  | 0 => pure []
  | n + 1 => do
    let a ← read
    let rest ← readMany read n
    return a :: rest

/-- Reads a string: length, content and, where the form has it, a closing NUL. -/
def readString (form : StringForm) : MachineM (ByteString form) := do
  let length ← readWord form.width.size
  let content ← readWith length id
  if form.terminated then
    let last ← readByte
    if last ≠ 0 then throw (.refused (.missingTerminator form last))
  lift (ByteString.ofBytes form content)

def readValue : (t : CellType) → MachineM t.Carrier
  | .int8 => do
    let n ← readWord 1
    return (UInt8.ofNat n).toInt8
  | .uint8 => do
    let n ← readWord 1
    return UInt8.ofNat n
  | .int16 => do
    let n ← readWord 2
    return (UInt16.ofNat n).toInt16
  | .uint16 => do
    let n ← readWord 2
    return UInt16.ofNat n
  | .int32 => do
    let n ← readWord 4
    return (UInt32.ofNat n).toInt32
  | .uint32 | .float32 => do
    let n ← readWord 4
    return UInt32.ofNat n
  | .float64 => do
    let n ← readWord 8
    return UInt64.ofNat n
  | .string form => readString form

def readCell (t : CellType) : MachineM Cell := do
  let v ← readValue t
  return ⟨t, v⟩

/-! ## Instructions -/

def readOperands : (fs : List Field) → MachineM (Operands fs)
  | [] => pure ()
  | f :: fs => do
    let v ← readValue f.type
    let rest ← readOperands fs
    return (v, rest)

def readOp : MachineM Op := do
  let byte ← readByte
  if byte = Opcode.unsupportedByte then throw (.refused (.unsupportedOpcode byte))
  match Opcode.ofByte? byte with
  | none => throw (.refused (.unknownOpcode byte))
  | some code =>
    let xs ← readOperands code.signature
    return ⟨code, xs⟩

/-! ## Tables and headers -/

def readPool (form : StringForm) : MachineM StringPool := do
  let count ← readUInt16
  let entries ← readMany (readString form) count.toNat
  lift (StringPool.ofList form entries)

/-- Reads an entry of the function table. -/
def readFunction : MachineM FunctionEntry := do
  let name ← readString .p8z
  let argCount ← readByte
  let offset ← readUInt32
  return ⟨name, argCount, offset⟩

def readFunctions : MachineM (List FunctionEntry) := do
  let count ← readUInt16
  readMany (readStructure readFunction) count.toNat

def readMethod : MachineM Method := do
  let symbol ← readUInt16
  let offset ← readUInt32
  return ⟨symbol, offset⟩

/-- Reads the members of a class. -/
def readMembers (width : CountWidth) : MachineM (List UInt16 × List Method) := do
  let propertyCount ← readWord width.size
  let properties ← readMany readUInt16 propertyCount
  let methodCount ← readWord width.size
  let methods ← readMany readMethod methodCount
  return (properties, methods)

/-- Reads a name for each of the members already read. -/
def readNames : List (List UInt16 × List Method) → MachineM (List ClassEntry)
  | [] => pure []
  | (properties, methods) :: rest => do
    let name ← readString .p8z
    let classes ← readNames rest
    return ⟨name, properties, methods⟩ :: classes

/-- Reads a class table whose member counts have the given width. -/
def readClasses (width : CountWidth) : MachineM ClassTable := do
  let count ← readUInt16
  let members ← readMany (readMembers width) count.toNat
  let entries ← readNames members
  return ⟨width, entries⟩

/-- Reads the sources if the version has them. -/
def readSources (v : Version) : MachineM (Option StringPool) :=
  if v.hasSources then do
    let p ← readPool .p8z
    return some p
  else pure none

def readHeader : MachineM Header := do
  let found ← readInverted
  if found ≠ magic then throw (.refused (.badMagic found))
  let major ← readUInt16
  let minor ← readUInt16
  let version ← lift (Header.versionOf major minor)
  let strings ← readPool .p16z
  let globals ← readPool .p8z
  let functions ← readStructure readFunctions
  let classes ← readClasses version.countWidth
  let symbols ← readPool .p8z
  let sources ← readSources version
  return { version, strings, globals, functions, classes, symbols, sources }

/-- The byte order of a file, judged by its first word. -/
def detectOrder : MachineM ByteOrder := do
  if (← getWith 4 ByteOrder.little.inverted.decode 0) = magic.toNat then return .little
  if (← getWith 4 ByteOrder.big.inverted.decode 0) = magic.toNat then return .big
  throw (.refused .missingMagic)

/-! ## Code -/

/-- The offset of the cursor in the file, if the cursor stood at `base` where the code began. -/
def position (base : UInt32) (origin : Nat) : MachineM Nat := do
  let passed ← minus (← window).offset origin
  plus base.toNat passed

/-- Reads instructions to the end of the window. `fuel` bounds their number. -/
def readCodeFrom (base : UInt32) (origin : Nat) : Nat → Code.Scan → MachineM (List (Routine × UInt32))
  | 0, s => do lift (s.close (← position base origin))
  | fuel + 1, s => do
    if (← remaining) = 0 then lift (s.close (← position base origin))
    else
      let (start, instrs, pending) ← lift (s.enter (← position base origin))
      let o ← readStructure readOp
      let s' ← lift (s.leave start instrs pending o (← position base origin))
      readCodeFrom base origin fuel s'

/-- Reads code up to the end of the window. -/
def readCode (base : UInt32) (expected : List UInt32) : MachineM Code := do
  let origin := (← window).offset
  let rs ← readCodeFrom base origin (← remaining) ⟨Code.ascending expected, [], none⟩
  return Code.ofPlaced base rs

end MachineM

end ScriptImage
