import ScriptImage.Header
import ScriptImage.Instr.Variable
import ScriptImage.Pass.Visit

/-!
# Inlining pool entries and class names

Instructions that refer to a pool by index have symbolic counterparts that hold the entry
itself.  `Inlining.add` puts entries in the place of indices, and leaves indices past the
end of the pool alone; `Inlining.remove` puts indices in the place of entries, and adds
entries that the pool lacks.  Class names are treated alike, except that no class is ever
added and that a name must be that of exactly one class.
-/

namespace ScriptImage

/-- The pools that instructions refer to. -/
inductive PoolKind where
  | strings
  | symbols
  | globals
  deriving DecidableEq, Repr

def PoolKind.name : PoolKind → String
  | strings => "strings"
  | symbols => "symbols"
  | globals => "globals"

namespace Inlining

/-- An instruction whose first operand refers to a pool, and its symbolic counterpart. -/
structure Rule where
  pool : PoolKind
  code : Opcode
  kind : SymbolicKind

def rules : List Rule :=
  [⟨.strings, .pushString, .pushStringLiteral⟩,
   ⟨.symbols, .getMember, .getMemberNamed⟩,
   ⟨.symbols, .setMember, .setMemberNamed⟩,
   ⟨.symbols, .callMethod, .callMethodNamed⟩,
   ⟨.globals, .pushVariable, .pushGlobal⟩,
   ⟨.globals, .popVariable, .popGlobal⟩]

/-- The rule for an instruction that refers to this pool. -/
def ruleOfCode? (pool : PoolKind) (code : Opcode) : Option Rule :=
  rules.find? fun r => r.pool = pool && r.code = code

/-- The rule for a symbolic instruction that holds an entry of this pool. -/
def ruleOfKind? (pool : PoolKind) (kind : SymbolicKind) : Option Rule :=
  rules.find? fun r => r.pool = pool && r.kind = kind

/-- The index that an operand stands for; a local variable has none. -/
def indexOf? (pool : PoolKind) (raw : UInt16) : Option Nat :=
  match pool with
  | .globals => (Variable.mk raw).globalIndex?
  | .strings | .symbols => some raw.toNat

/-- The operand that stands for an index. -/
def operandOf (pool : PoolKind) (index : Nat) : Except Error UInt16 :=
  match pool with
  | .globals => (Variable.ofGlobal index).map Variable.raw
  | .strings | .symbols =>
    if index < 65536 then .ok (UInt16.ofNat index) else .error (.indexTooWide pool.name index)

/-- The symbolic counterpart of an instruction, if it refers to an entry of the pool. -/
def embed (kind : PoolKind) (pool : StringPool) : Instr → Except Error (Option Instr)
  | .symbolic _ => .ok none
  | .op o =>
    match ruleOfCode? kind o.code, o.args with
    | some rule, ⟨.uint16, raw⟩ :: args =>
      match (indexOf? kind raw).bind fun k => pool.entries[k]? with
      | some entry =>
        (Symbolic.ofArgs rule.kind (⟨.string pool.form, entry⟩ :: args)).map fun s =>
          some (.symbolic s)
      | none => .ok none
    | _, _ => .ok none

/-- The instruction that a symbolic counterpart stands for. The pool may grow. -/
def extract (kind : PoolKind) : Visit.Step StringPool
  | pool, _, .op _ => .ok (pool, none)
  | pool, _, .symbolic s =>
    match ruleOfKind? kind s.kind with
    | none => .ok (pool, none)
    | some rule =>
      match s.args with
      | ⟨.string _, text⟩ :: args => do
        let (pool', index) ← pool.findOrPush text
        let raw ← operandOf kind index
        let o ← Op.ofArgs rule.code (⟨.uint16, raw⟩ :: args)
        return (pool', some (.op o))
      | _ => .error (.noTextOperand rule.kind.mnemonic)

/-- Puts entries in the place of indices. Answers how many instructions were changed. -/
def add (kind : PoolKind) (pool : StringPool) (rs : List Routine) :
    Except Error (Nat × List Routine) :=
  Visit.each (embed kind pool) rs

/-- Puts indices in the place of entries. Answers the pool, which may have grown, and how many
instructions were changed. -/
def remove (kind : PoolKind) (pool : StringPool) (rs : List Routine) :
    Except Error (StringPool × Nat × List Routine) :=
  Visit.routines (extract kind) pool rs

end Inlining

namespace ClassNames

/-- The instantiation by name in the place of one by index. -/
def embed (classes : ClassTable) : Instr → Except Error (Option Instr)
  | .op (.newObject index) =>
    match classes.entries[index.toNat]? with
    | some c => .ok (some (.symbolic (.newObjectNamed c.name)))
    | none => .ok none
  | _ => .ok none

/-- The instantiation by index in the place of one by name. -/
def extract (classes : ClassTable) : Instr → Except Error (Option Instr)
  | .symbolic (.newObjectNamed name) => do
    match ← classes.uniqueIndex? name.bytes with
    | none => throw (.unknownClass name.bytes)
    | some index =>
      if index < 65536 then return some (.op (.newObject (UInt16.ofNat index)))
      else throw (.indexTooWide "class" index)
  | _ => .ok none

/-- Puts class names in the place of indices. Answers how many instructions were changed. -/
def add (classes : ClassTable) (rs : List Routine) : Except Error (Nat × List Routine) :=
  Visit.each (embed classes) rs

/-- Puts indices in the place of class names. Answers how many instructions were changed. -/
def remove (classes : ClassTable) (rs : List Routine) : Except Error (Nat × List Routine) :=
  Visit.each (extract classes) rs

end ClassNames

end ScriptImage
