import ScriptImage.Image
import ScriptImage.Machine.Access

/-!
# Writing through a window

The writers of all structures, in word arithmetic.  Nested structures are written through
windows of their own: the tables of a header, the entries of its function table, the
routines of code and their instructions.  Every such window checks that the announced size
fits before anything is written, and compares it with what was written afterwards.
-/

namespace ScriptImage

namespace MachineM

variable {α : Type}

/-! ## Words and strings -/

/-- Writes a word of `n` bytes. -/
def writeWord (n v : Nat) : MachineM Unit := do
  writeBytes ((← window).order.encode n v)

/-- Writes a count, if its width can hold it. -/
def writeCount (width : CountWidth) (what : String) (n : Nat) : MachineM Unit :=
  if width.max < n then throw (.refused (.countTooLarge what n width))
  else writeWord width.size n

/-- Writes a value piece by piece. -/
def writeCell (c : Cell) : MachineM Unit := do
  (c.pieces (← window).order).forM writeBytes

def writeString {form : StringForm} (s : ByteString form) : MachineM Unit :=
  writeCell ⟨.string form, s⟩

/-! ## Instructions and code -/

def writeOperands : {fs : List Field} → Operands fs → MachineM Unit
  | [], _ => pure ()
  | f :: _, (v, rest) => do
    writeCell ⟨f.type, v⟩
    writeOperands rest

def writeOp (o : Op) : MachineM Unit := do
  writeWord 1 o.code.byte.toNat
  writeOperands o.operands

/-- Writes an instruction of a routine, which must not be symbolic. -/
def writeInstr : Instr → MachineM Unit
  | .op o => writeStructure o.size (writeOp o)
  | .symbolic s => throw (.refused (.symbolicInstruction s.kind.mnemonic))

def writeRoutine (r : Routine) : MachineM Unit :=
  r.forM writeInstr

def writeCode (c : Code) : MachineM Unit :=
  c.routines.forM fun r => writeStructure r.size (writeRoutine r)

/-! ## Tables and headers -/

def writePool (p : StringPool) : MachineM Unit := do
  writeCount .two "strings" p.entries.size
  p.entries.toList.forM writeString

/-- Writes an entry of the function table. -/
def writeFunction (f : FunctionEntry) : MachineM Unit := do
  writeString f.name
  writeWord 1 f.argCount.toNat
  writeWord 4 f.offset.toNat

def writeFunctions (fs : List FunctionEntry) : MachineM Unit := do
  writeCount .two "functions" fs.length
  fs.forM fun f => writeStructure f.size (writeFunction f)

def writeMethod (m : Method) : MachineM Unit := do
  writeWord 2 m.symbol.toNat
  writeWord 4 m.offset.toNat

/-- Writes the members of a class. -/
def writeMembers (width : CountWidth) (c : ClassEntry) : MachineM Unit := do
  writeCount width "properties" c.properties.length
  c.properties.forM fun p => writeWord 2 p.toNat
  writeCount width "methods" c.methods.length
  c.methods.forM writeMethod

def writeClasses (t : ClassTable) : MachineM Unit := do
  writeCount .two "classes" t.entries.length
  t.entries.forM (writeMembers t.countWidth)
  t.entries.forM fun c => writeString c.name

def writePreamble (v : Version) : MachineM Unit := do
  writeBytes ((← window).order.inverted.encode 4 magic.toNat)
  writeWord 2 v.pair.1.toNat
  writeWord 2 v.pair.2.toNat

/-- Writes the tables in their order. -/
def writeTables (h : Header) : MachineM Unit := do
  writeStructure h.strings.size (writePool h.strings)
  writeStructure h.globals.size (writePool h.globals)
  writeStructure (FunctionEntry.tableSize h.functions) (writeFunctions h.functions)
  writeStructure h.classes.size (writeClasses h.classes)
  writeStructure h.symbols.size (writePool h.symbols)
  match h.sources with
  | some p => writeStructure p.size (writePool p)
  | none => pure ()

def writeHeader (h : Header) : MachineM Unit :=
  if h.version.hasSources ≠ h.sources.isSome then throw (.refused (.sourcesMismatch h.version))
  else if h.classes.countWidth ≠ h.version.countWidth then
    throw (.refused (.countWidthMismatch h.version))
  else do
    writePreamble h.version
    writeTables h

/-! ## Files -/

/-- A window on a new buffer of zeros. -/
def blank (length : Nat) (order : ByteOrder) : Focus :=
  ⟨⟨[List.replicate length 0]⟩, .whole 0 length order⟩

/-- Writes header and code one after the other and takes all bytes. -/
def writeImage (image : Image) : MachineM (List UInt8) := do
  writeStructure image.header.size (writeHeader image.header)
  writeStructure image.code.size (writeCode image.code)
  content

end MachineM

/-- Encodes a file through a window of the size of header and code. Offsets have to be current. -/
def Image.encodeInWords (image : Image) : Except Fault (List UInt8) :=
  match image.stale? with
  | some e => .error (.refused e)
  | none =>
    let size := image.header.size + image.code.size
    if size < wordLimit then
      match MachineM.writeImage image (MachineM.blank size image.order) with
      | .ok bytes _ => .ok bytes
      | .error fault _ => .error fault
    else .error .overflow

end ScriptImage
