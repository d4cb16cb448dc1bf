import ScriptImage.Instr.Operands

/-!
# The instruction table

`Opcode` lists the instructions that code is stored as, `SymbolicKind` the symbolic ones
that stand for an instruction, or for a position, while code is being edited.  Each has a
mnemonic and a signature; an opcode also has its byte.  `Opcode.info` and
`SymbolicKind.info` are the tables, all else is read off them.
-/

namespace ScriptImage

/-- The instructions of stored code. -/
inductive Opcode where
  | nop | pushInt8 | pushInt16 | pushInt32 | pushFloat | pushString
  | pushTrue | pushFalse | pushNull | pushThis
  | pushVariable | popVariable
  | getMember | setMember | callMethod
  | newObject
  | callFunction | callNative | returnNothing | returnValue | endRoutine
  | add | sub | mul | div | mod | neg
  | not | and | or
  | eq | ne | lt | le | gt | ge
  | pop | dup | swap
  | jumpRelative | branch | branchIfTrue | branchIfFalse
  | line
  deriving DecidableEq, Repr

/-- What the table says about an opcode. -/
structure OpcodeInfo where
  byte : UInt8
  mnemonic : String
  signature : List Field

namespace Opcode

@[reducible]
def info : Opcode → OpcodeInfo
  | nop => ⟨0x00, "Nop", []⟩
  | pushInt8 => ⟨0x01, "PushInt8", [⟨"value", .int8⟩]⟩
  | pushInt16 => ⟨0x02, "PushInt16", [⟨"value", .int16⟩]⟩
  | pushInt32 => ⟨0x04, "PushInt32", [⟨"value", .int32⟩]⟩
  | pushFloat => ⟨0x05, "PushFloat", [⟨"value", .float32⟩]⟩
  | pushString => ⟨0x06, "PushString", [⟨"index", .uint16⟩]⟩
  | pushTrue => ⟨0x07, "PushTrue", []⟩
  | pushFalse => ⟨0x08, "PushFalse", []⟩
  | pushNull => ⟨0x09, "PushNull", []⟩
  | pushThis => ⟨0x0A, "PushThis", []⟩
  | pushVariable => ⟨0x10, "PushVariable", [⟨"variable", .uint16⟩]⟩
  | popVariable => ⟨0x11, "PopVariable", [⟨"variable", .uint16⟩]⟩
  | getMember => ⟨0x18, "GetMember", [⟨"symbol", .uint16⟩]⟩
  | setMember => ⟨0x19, "SetMember", [⟨"symbol", .uint16⟩]⟩
  | callMethod => ⟨0x1A, "CallMethod", [⟨"symbol", .uint16⟩, ⟨"argc", .uint8⟩]⟩
  | newObject => ⟨0x20, "NewObject", [⟨"class", .uint16⟩]⟩
  | callFunction => ⟨0x28, "CallFunction", [⟨"function", .uint16⟩, ⟨"argc", .uint8⟩]⟩
  | callNative => ⟨0x29, "CallNative", [⟨"native", .uint16⟩, ⟨"argc", .uint8⟩]⟩
  | returnNothing => ⟨0x2A, "Return", []⟩
  | returnValue => ⟨0x2B, "ReturnValue", []⟩
  | endRoutine => ⟨0x2F, "End", []⟩
  | add => ⟨0x30, "Add", []⟩
  | sub => ⟨0x31, "Sub", []⟩
  | mul => ⟨0x32, "Mul", []⟩
  | div => ⟨0x33, "Div", []⟩
  | mod => ⟨0x34, "Mod", []⟩
  | neg => ⟨0x35, "Neg", []⟩
  | not => ⟨0x38, "Not", []⟩
  | and => ⟨0x39, "And", []⟩
  | or => ⟨0x3A, "Or", []⟩
  | eq => ⟨0x40, "Eq", []⟩
  | ne => ⟨0x41, "Ne", []⟩
  | lt => ⟨0x42, "Lt", []⟩
  | le => ⟨0x43, "Le", []⟩
  | gt => ⟨0x44, "Gt", []⟩
  | ge => ⟨0x45, "Ge", []⟩
  | pop => ⟨0x48, "Pop", []⟩
  | dup => ⟨0x49, "Dup", []⟩
  | swap => ⟨0x4A, "Swap", []⟩
  | jumpRelative => ⟨0x50, "JumpRelative", []⟩
  | branch => ⟨0x51, "Branch", [⟨"displacement", .int16⟩]⟩
  | branchIfTrue => ⟨0x52, "BranchIfTrue", [⟨"displacement", .int16⟩]⟩
  | branchIfFalse => ⟨0x53, "BranchIfFalse", [⟨"displacement", .int16⟩]⟩
  | line => ⟨0x58, "Line", [⟨"line", .uint16⟩]⟩

/-- All opcodes, by byte. -/
def all : List Opcode :=
  [nop, pushInt8, pushInt16, pushInt32, pushFloat, pushString, pushTrue, pushFalse, pushNull,
   pushThis, pushVariable, popVariable, getMember, setMember, callMethod, newObject,
   callFunction, callNative, returnNothing, returnValue, endRoutine, add, sub, mul, div, mod, neg, not,
   and, or, eq, ne, lt, le, gt, ge, pop, dup, swap, jumpRelative, branch, branchIfTrue,
   branchIfFalse, line]

/-- The byte that begins the stored instruction. -/
def byte (o : Opcode) : UInt8 :=
  o.info.byte

def mnemonic (o : Opcode) : String :=
  o.info.mnemonic

@[reducible]
def signature (o : Opcode) : List Field :=
  o.info.signature

/-- The stored size of a fixed-width operand. -/
def fieldWidth (f : Field) : Nat :=
  f.type.width?.getD 0

/-- The stored size of an instruction: its byte and its operands. -/
def size (o : Opcode) : Nat :=
  1 + (o.signature.map fieldWidth).sum

def ofByte? (b : UInt8) : Option Opcode :=
  all.find? fun o => o.byte == b

def ofMnemonic? (name : String) : Option Opcode :=
  all.find? fun o => o.mnemonic == name

/-- The byte of the push of a 24-bit constant, which is known and not supported. -/
def unsupportedByte : UInt8 := 0x03

end Opcode

inductive SymbolicKind where
  | jumpTarget | jumpPush
  | branchTarget | branchTo | branchIfTrueTo | branchIfFalseTo
  | pushStringLiteral
  | getMemberNamed | setMemberNamed | callMethodNamed
  | pushGlobal | popGlobal
  | newObjectNamed
  deriving DecidableEq, Repr

/-- What the table says about a symbolic instruction: `standsFor` is the instruction in whose
place it stands, or nothing if it only marks a position. -/
structure SymbolicInfo where
  mnemonic : String
  signature : List Field
  standsFor : Option Opcode

namespace SymbolicKind

@[reducible]
def info : SymbolicKind → SymbolicInfo
  | jumpTarget => ⟨"JumpTarget", [⟨"id", .uint32⟩], none⟩
  | jumpPush => ⟨"JumpPush", [⟨"target", .uint32⟩, ⟨"adjust", .uint32⟩], some .pushInt32⟩
  | branchTarget => ⟨"BranchTarget", [⟨"id", .uint32⟩], none⟩
  | branchTo => ⟨"BranchTo", [⟨"target", .uint32⟩, ⟨"adjust", .uint32⟩], some .branch⟩
  | branchIfTrueTo =>
    ⟨"BranchIfTrueTo", [⟨"target", .uint32⟩, ⟨"adjust", .uint32⟩], some .branchIfTrue⟩
  | branchIfFalseTo =>
    ⟨"BranchIfFalseTo", [⟨"target", .uint32⟩, ⟨"adjust", .uint32⟩], some .branchIfFalse⟩
  | pushStringLiteral => ⟨"PushStringLiteral", [⟨"value", .string .p16z⟩], some .pushString⟩
  | getMemberNamed => ⟨"GetMemberNamed", [⟨"symbol", .string .p8z⟩], some .getMember⟩
  | setMemberNamed => ⟨"SetMemberNamed", [⟨"symbol", .string .p8z⟩], some .setMember⟩
  | callMethodNamed =>
    ⟨"CallMethodNamed", [⟨"symbol", .string .p8z⟩, ⟨"argc", .uint8⟩], some .callMethod⟩
  | pushGlobal => ⟨"PushGlobal", [⟨"name", .string .p8z⟩], some .pushVariable⟩
  | popGlobal => ⟨"PopGlobal", [⟨"name", .string .p8z⟩], some .popVariable⟩
  | newObjectNamed => ⟨"NewObjectNamed", [⟨"class", .string .p8z⟩], some .newObject⟩

def all : List SymbolicKind :=
  [jumpTarget, jumpPush, branchTarget, branchTo, branchIfTrueTo, branchIfFalseTo,
   pushStringLiteral, getMemberNamed, setMemberNamed, callMethodNamed, pushGlobal, popGlobal,
   newObjectNamed]

def mnemonic (k : SymbolicKind) : String :=
  k.info.mnemonic

@[reducible]
def signature (k : SymbolicKind) : List Field :=
  k.info.signature

/-- The instruction in whose place it stands. -/
def standsFor (k : SymbolicKind) : Option Opcode :=
  k.info.standsFor

/-- The size of the instruction in whose place it stands; markers take no room. -/
def size (k : SymbolicKind) : Nat :=
  match k.standsFor with
  | some o => o.size
  | none => 0

def ofMnemonic? (name : String) : Option SymbolicKind :=
  all.find? fun k => k.mnemonic == name

end SymbolicKind

/-! ## Lemmas -/

theorem Opcode.mem_all (o : Opcode) : o ∈ Opcode.all := by
  cases o <;> decide

theorem Opcode.ofByte?_byte (o : Opcode) : Opcode.ofByte? o.byte = some o := by
  cases o <;> decide

theorem Opcode.byte_of_ofByte? {b : UInt8} {o : Opcode} (h : Opcode.ofByte? b = some o) :
    o.byte = b := by
  simpa using List.find?_some h

theorem SymbolicKind.mem_all (k : SymbolicKind) : k ∈ SymbolicKind.all := by
  cases k <;> decide

theorem Opcode.ofMnemonic?_mnemonic (o : Opcode) : Opcode.ofMnemonic? o.mnemonic = some o := by
  have hall : ∀ o ∈ Opcode.all, Opcode.ofMnemonic? o.mnemonic = some o := by decide +kernel
  exact hall o o.mem_all

theorem Opcode.mnemonic_of_ofMnemonic? {name : String} {o : Opcode}
    (h : Opcode.ofMnemonic? name = some o) : o.mnemonic = name := by
  simpa using List.find?_some h

theorem SymbolicKind.ofMnemonic?_mnemonic (k : SymbolicKind) :
    SymbolicKind.ofMnemonic? k.mnemonic = some k := by
  have hall : ∀ k ∈ SymbolicKind.all, SymbolicKind.ofMnemonic? k.mnemonic = some k := by decide +kernel
  exact hall k k.mem_all

theorem SymbolicKind.mnemonic_of_ofMnemonic? {name : String} {k : SymbolicKind}
    (h : SymbolicKind.ofMnemonic? name = some k) : k.mnemonic = name := by
  simpa using List.find?_some h

/-- No symbolic instruction has the name of an opcode, which would hide it. -/
theorem SymbolicKind.ofMnemonic?_opcode (k : SymbolicKind) : Opcode.ofMnemonic? k.mnemonic = none := by
  have hall : ∀ k ∈ SymbolicKind.all, Opcode.ofMnemonic? k.mnemonic = none := by decide +kernel
  exact hall k k.mem_all

end ScriptImage
