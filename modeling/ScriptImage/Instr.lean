import ScriptImage.Encoding
import ScriptImage.Instr.Opcode

/-!
# Instructions

An instruction is an opcode with its operands, or a symbolic stand-in with its own.  The
two families share one set of names; opcodes are looked up first.  Only the first family
can be stored.

    Instr.ofArgs i.name i.args = .ok i
    Instr.ofArgs name args = .ok i → i.name = name ∧ i.args = args
-/

namespace ScriptImage

/-- A storable instruction. -/
structure Op where
  code : Opcode
  operands : Operands code.signature
  deriving DecidableEq

structure Symbolic where
  kind : SymbolicKind
  operands : Operands kind.signature
  deriving DecidableEq

/-- An instruction of either family. -/
inductive Instr where
  | op (o : Op)
  | symbolic (s : Symbolic)
  deriving DecidableEq

/-- When a branch is taken. -/
inductive Condition where
  | always
  | ifTrue
  | ifFalse
  deriving DecidableEq, Repr

/-! ## Storable instructions -/

namespace Op

@[match_pattern]
abbrev pushInt32 (value : Int32) : Op := ⟨.pushInt32, (value, ())⟩

@[match_pattern]
abbrev newObject (index : UInt16) : Op := ⟨.newObject, (index, ())⟩

@[match_pattern]
abbrev jumpRelative : Op := ⟨.jumpRelative, ()⟩

@[match_pattern]
abbrev endRoutine : Op := ⟨.endRoutine, ()⟩

/-- The branch with an inline displacement. -/
def branch (c : Condition) (displacement : Int16) : Op :=
  match c with
  | .always => ⟨.branch, (displacement, ())⟩
  | .ifTrue => ⟨.branchIfTrue, (displacement, ())⟩
  | .ifFalse => ⟨.branchIfFalse, (displacement, ())⟩

/-- Condition and displacement of a branch. -/
def branch? : Op → Option (Condition × Int16)
  | ⟨.branch, (d, ())⟩ => some (.always, d)
  | ⟨.branchIfTrue, (d, ())⟩ => some (.ifTrue, d)
  | ⟨.branchIfFalse, (d, ())⟩ => some (.ifFalse, d)
  | _ => none

/-- Whether the instruction closes a routine in a code stream. -/
def isEnd (o : Op) : Bool :=
  o.code = .endRoutine

def size (o : Op) : Nat :=
  o.code.size

def args (o : Op) : List Cell :=
  o.operands.toCells

/-- The instruction with this opcode and these operands. -/
def ofArgs (code : Opcode) (args : List Cell) : Except Error Op :=
  (Operands.ofCells code.mnemonic code.signature args).map fun xs => ⟨code, xs⟩

def stored (order : ByteOrder) (o : Op) : List UInt8 :=
  o.code.byte :: o.operands.stored order

def encode (order : ByteOrder) (o : Op) : Encoding :=
  .announced o.size (.ofBytes (o.stored order))

def read (order : ByteOrder) : Reader Op := do
  let byte ← Reader.byte
  if byte = Opcode.unsupportedByte then throw (.unsupportedOpcode byte)
  match Opcode.ofByte? byte with
  | none => throw (.unknownOpcode byte)
  | some code =>
    let xs ← Operands.read order code.signature
    return ⟨code, xs⟩

/-- Reads instructions up to the end of the bytes or to the first that fails: the instructions,
where reading stopped, and the error if there was one. Every instruction takes a byte, so the
number of bytes bounds their number. -/
def readAll (order : ByteOrder) (bytes : List UInt8) : List Op × Cursor × Option Error :=
  Reader.untilFailure (Reader.nested (read order)) bytes.length ⟨0, bytes⟩

end Op

/-! ## Symbolic instructions -/

namespace Symbolic

@[match_pattern]
abbrev jumpTarget (id : UInt32) : Symbolic := ⟨.jumpTarget, (id, ())⟩

@[match_pattern]
abbrev jumpPush (target adjust : UInt32) : Symbolic := ⟨.jumpPush, (target, adjust, ())⟩

@[match_pattern]
abbrev branchTarget (id : UInt32) : Symbolic := ⟨.branchTarget, (id, ())⟩

@[match_pattern]
abbrev newObjectNamed (name : Name) : Symbolic := ⟨.newObjectNamed, (name, ())⟩

/-- The branch to a target marker. -/
def branchTo (c : Condition) (target adjust : UInt32) : Symbolic :=
  match c with
  | .always => ⟨.branchTo, (target, adjust, ())⟩
  | .ifTrue => ⟨.branchIfTrueTo, (target, adjust, ())⟩
  | .ifFalse => ⟨.branchIfFalseTo, (target, adjust, ())⟩

/-- Condition, target and adjustment of a branch. -/
def branch? : Symbolic → Option (Condition × UInt32 × UInt32)
  | ⟨.branchTo, (target, adjust, ())⟩ => some (.always, target, adjust)
  | ⟨.branchIfTrueTo, (target, adjust, ())⟩ => some (.ifTrue, target, adjust)
  | ⟨.branchIfFalseTo, (target, adjust, ())⟩ => some (.ifFalse, target, adjust)
  | _ => none

/-- The identifier of a jump or branch marker. -/
def marker? : Symbolic → Option UInt32
  | jumpTarget id => some id
  | branchTarget id => some id
  | _ => none

/-- The identifier of the target that a jump or branch refers to. -/
def target? (s : Symbolic) : Option UInt32 :=
  match s with
  | jumpPush target _ => some target
  | _ => s.branch?.map fun (_, target, _) => target

/-- The size of the instruction in whose place it stands. -/
def size (s : Symbolic) : Nat :=
  s.kind.size

def args (s : Symbolic) : List Cell :=
  s.operands.toCells

/-- The symbolic instruction of this kind with these operands. -/
def ofArgs (kind : SymbolicKind) (args : List Cell) : Except Error Symbolic :=
  (Operands.ofCells kind.mnemonic kind.signature args).map fun xs => ⟨kind, xs⟩

end Symbolic

/-! ## Both families -/

namespace Instr

def name : Instr → String
  | op o => o.code.mnemonic
  | symbolic s => s.kind.mnemonic

def size : Instr → Nat
  | op o => o.size
  | symbolic s => s.size

def signature : Instr → List Field
  | op o => o.code.signature
  | symbolic s => s.kind.signature

def argTypes (i : Instr) : List CellType :=
  i.signature.map Field.type

def args : Instr → List Cell
  | op o => o.args
  | symbolic s => s.args

def isSymbolic : Instr → Bool
  | op _ => false
  | symbolic _ => true

/-- The fields of the instruction with this name. -/
def signature? (name : String) : Option (List Field) :=
  match Opcode.ofMnemonic? name with
  | some code => some code.signature
  | none => (SymbolicKind.ofMnemonic? name).map SymbolicKind.signature

/-- The instruction with this name and these arguments. -/
def ofArgs (name : String) (args : List Cell) : Except Error Instr :=
  match Opcode.ofMnemonic? name with
  | some code => (Op.ofArgs code args).map op
  | none =>
    match SymbolicKind.ofMnemonic? name with
    | some kind => (Symbolic.ofArgs kind args).map symbolic
    | none => .error (.unknownInstruction name)

def arg? (i : Instr) (k : Nat) : Option Cell :=
  i.args[k]?

/-- Replaces the argument at a position. -/
def setArg (i : Instr) (k : Nat) (c : Cell) : Except Error Instr :=
  if k < i.args.length then ofArgs i.name (i.args.set k c)
  else .error (.noSuchArgument i.name k i.signature.length)

/-- Replaces the argument at a position in place. -/
def assign (k : Nat) (c : Cell) : EStateM Error Instr Unit := do
  let i ← get
  match i.setArg k c with
  | .ok i' => set i'
  | .error e => throw e

/-- The instruction as assembly text: its name, then its arguments with commas between. -/
def text (i : Instr) : String :=
  match i.args with
  | [] => i.name
  | args => i.name ++ " " ++ ", ".intercalate (args.map Cell.text)

/-- Writes the instruction, which must not be symbolic. -/
def encode (order : ByteOrder) : Instr → Encoding
  | op o => o.encode order
  | symbolic s => .fail (.symbolicInstruction s.kind.mnemonic)

end Instr

/-! ## Lemmas -/

theorem Op.ofArgs_eq_ok_iff {code : Opcode} {args : List Cell} {o : Op} :
    Op.ofArgs code args = .ok o ↔ o.code = code ∧ o.args = args := by
  constructor
  · intro h
    unfold Op.ofArgs at h
    cases hxs : Operands.ofCells code.mnemonic code.signature args with
    | error e =>
      rw [hxs] at h
      cases h
    | ok xs =>
      rw [hxs] at h
      cases h
      exact ⟨rfl, Operands.ofCells_eq_ok_iff.1 hxs⟩
  · rintro ⟨rfl, rfl⟩
    rw [Op.ofArgs, Op.args, Operands.ofCells_eq_ok_iff.2 rfl]
    rfl

theorem Symbolic.ofArgs_eq_ok_iff {kind : SymbolicKind} {args : List Cell} {s : Symbolic} :
    Symbolic.ofArgs kind args = .ok s ↔ s.kind = kind ∧ s.args = args := by
  constructor
  · intro h
    unfold Symbolic.ofArgs at h
    cases hxs : Operands.ofCells kind.mnemonic kind.signature args with
    | error e =>
      rw [hxs] at h
      cases h
    | ok xs =>
      rw [hxs] at h
      cases h
      exact ⟨rfl, Operands.ofCells_eq_ok_iff.1 hxs⟩
  · rintro ⟨rfl, rfl⟩
    rw [Symbolic.ofArgs, Symbolic.args, Operands.ofCells_eq_ok_iff.2 rfl]
    rfl

end ScriptImage
