import ScriptImage.Json
import ScriptImage.Pass

/-!
# Values from JSON documents

A value without fields is its name, or an object with that name and `null`.  A record is
an object, or an array in the order of its fields; a field may not be given twice.  Option
records take their defaults for fields that are missing, and no others than their own.
-/

namespace ScriptImage.Json

def toBool? : Json → Option Bool
  | bool b => some b
  | _ => none

/-- The number, if it is written as plain digits and is at most `max`. -/
def toNat? (max : Nat) : Json → Option Nat
  | number text =>
    let digits := text.toList
    if digits.all Char.isDigit then
      let n := digits.foldl (fun n c => 10 * n + (c.toNat - '0'.toNat)) 0
      if n ≤ max then some n else none
    else none
  | _ => none

/-- The name of a value without fields. -/
def tag? : Json → Option String
  | string text => text
  | object [(key, null)] => key
  | _ => none

/-- The value with the given name, out of a list of all. -/
def choice? {α : Type} (all : List α) (name : α → String) (j : Json) : Option α :=
  j.tag?.bind fun tag => all.find? fun a => name a == tag

/-- The members that give the named field. -/
def given (members : List (Option String × Json)) (label : String) : List Json :=
  members.filterMap fun (key, x) => if key = some label then some x else none

/-- What a record says about each of its fields. `strict` records have no other members. -/
def fields? (strict : Bool) (labels : List String) : Json → Option (List (Option Json))
  | array items =>
    if labels.length < items.length then none
    else some ((List.range labels.length).map fun k => items[k]?)
  | object members =>
    let known := members.all fun (key, _) => match key with
      | none => false
      | some key => !strict || labels.contains key
    if known then
      labels.mapM fun label => match given members label with
        | [] => some none
        | [x] => some (some x)
        | _ => none
    else none
  | _ => none

/-- A field that takes a default if it is missing. -/
def orDefault {α : Type} (default : α) (read : Json → Option α) : Option Json → Option α
  | none => some default
  | some j => read j

/-! ## Types -/

def orderName : ByteOrder → String
  | .little => "little"
  | .big => "big"

def toOrder? : Json → Option ByteOrder :=
  choice? [.little, .big] orderName

def lengthWidthName : LengthWidth → String
  | .one => "U8"
  | .two => "U16"
  | .four => "U32"

def toLengthWidth? : Json → Option LengthWidth :=
  choice? [.one, .two, .four] lengthWidthName

def countWidthName : CountWidth → String
  | .one => "U8"
  | .two => "U16"

def toCountWidth? : Json → Option CountWidth :=
  choice? [.one, .two] countWidthName

def conditionName : Condition → String
  | .always => "Always"
  | .ifTrue => "IfTrue"
  | .ifFalse => "IfFalse"

def toCondition? : Json → Option Condition :=
  choice? [.always, .ifTrue, .ifFalse] conditionName

def toOpcode? : Json → Option Opcode :=
  choice? Opcode.all Opcode.mnemonic

def toSymbolicKind? : Json → Option SymbolicKind :=
  choice? SymbolicKind.all SymbolicKind.mnemonic

/-- A string form needs both of its fields; other members do not matter. -/
def toStringForm? (j : Json) : Option StringForm := do
  match ← fields? false ["prefix", "terminated"] j with
  | [some width, some terminated] => return ⟨← toLengthWidth? width, ← toBool? terminated⟩
  | _ => none

/-- The name of a type that has no fields. -/
def cellTypeName : CellType → String
  | .int8 => "Int8"
  | .uint8 => "UInt8"
  | .int16 => "Int16"
  | .uint16 => "UInt16"
  | .int32 => "Int32"
  | .uint32 => "UInt32"
  | .float32 => "Float32"
  | .float64 => "Float64"
  | .string _ => "Str"

/-- A string type is an object with its form; the others are names. -/
def toCellType? : Json → Option CellType
  | object [(some "Str", form)] => (toStringForm? form).map .string
  | j => choice? [.int8, .uint8, .int16, .uint16, .int32, .uint32, .float32, .float64] cellTypeName j

/-! ## Options -/

def toDecodeOptions? (j : Json) : Option DecodeOptions := do
  let standard := DecodeOptions.standard
  let readOrder : Json → Option (Option ByteOrder)
    | null => some none
    | j => (toOrder? j).map some
  match ← fields? true ["endian", "verify_offsets"] j with
  | [order, verify] =>
    return ⟨← orDefault standard.order readOrder order,
      ← orDefault standard.verifyOffsets toBool? verify⟩
  | _ => none

def toPassSelection? (j : Json) : Option PassSelection := do
  let labels := ["strings", "symbols", "globals", "classes", "branches", "jumps"]
  match ← (← fields? true labels j).mapM (orDefault true toBool?) with
  | [strings, symbols, globals, classes, branches, jumps] =>
    return ⟨strings, symbols, globals, classes, branches, jumps⟩
  | _ => none

end ScriptImage.Json

namespace ScriptImage

/-- Reads a text with a reader of documents. -/
def Json.readText {α : Type} (read : Json → Option α) (text : String) : Except Error α :=
  match (Json.parse? text).bind read with
  | some a => .ok a
  | none => .error .optionDocument

def DecodeOptions.parse (text : String) : Except Error DecodeOptions :=
  Json.readText Json.toDecodeOptions? text

def PassSelection.parse (text : String) : Except Error PassSelection :=
  Json.readText Json.toPassSelection? text

end ScriptImage
