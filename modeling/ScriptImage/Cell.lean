import ScriptImage.ByteString
import ScriptImage.Float.Shortest

/-!
# Typed cells

A cell is one value of a fixed-width integer type, a binary floating-point type or a
string form.  `CellType.Carrier` is what a type's values are; floating-point values are
kept as bit patterns.  For every type there is one way to store a value and one text:

    (t.stored order v).length = t.sizeOf v
-/

namespace ScriptImage

inductive CellType where
  | int8
  | uint8
  | int16
  | uint16
  | int32
  | uint32
  | float32
  | float64
  | string (form : StringForm)
  deriving DecidableEq, Repr

namespace CellType

/-- The values of a type. A floating-point number is its bit pattern. -/
@[reducible]
def Carrier : CellType → Type
  | int8 => Int8
  | uint8 => UInt8
  | int16 => Int16
  | uint16 => UInt16
  | int32 => Int32
  | uint32 => UInt32
  | float32 => UInt32
  | float64 => UInt64
  | string form => ByteString form

instance decEqCarrier : (t : CellType) → DecidableEq t.Carrier
  | int8 => inferInstanceAs (DecidableEq Int8)
  | uint8 => inferInstanceAs (DecidableEq UInt8)
  | int16 => inferInstanceAs (DecidableEq Int16)
  | uint16 => inferInstanceAs (DecidableEq UInt16)
  | int32 => inferInstanceAs (DecidableEq Int32)
  | uint32 => inferInstanceAs (DecidableEq UInt32)
  | float32 => inferInstanceAs (DecidableEq UInt32)
  | float64 => inferInstanceAs (DecidableEq UInt64)
  | string form => inferInstanceAs (DecidableEq (ByteString form))

def name : CellType → String
  | int8 => "int8"
  | uint8 => "uint8"
  | int16 => "int16"
  | uint16 => "uint16"
  | int32 => "int32"
  | uint32 => "uint32"
  | float32 => "float32"
  | float64 => "float64"
  | string form => form.name

/-- The types, one string type per form. -/
def all : List CellType :=
  [int8, uint8, int16, uint16, int32, uint32, float32, float64] ++ StringForm.all.map string

def ofName? (name : String) : Option CellType :=
  all.find? fun t => t.name == name

/-- The stored size of a value, if all values of the type have the same. -/
def width? : CellType → Option Nat
  | int8 | uint8 => some 1
  | int16 | uint16 => some 2
  | int32 | uint32 | float32 => some 4
  | float64 => some 8
  | string _ => none

/-- The least and the greatest value of an integer type. -/
def bounds? : CellType → Option (Int × Int)
  | int8 => some (-128, 127)
  | uint8 => some (0, 255)
  | int16 => some (-32768, 32767)
  | uint16 => some (0, 65535)
  | int32 => some (-2147483648, 2147483647)
  | uint32 => some (0, 4294967295)
  | float32 | float64 | string _ => none

def isInteger (t : CellType) : Bool :=
  t.bounds?.isSome

/-- The stored size of a value. -/
def sizeOf : (t : CellType) → t.Carrier → Nat
  | string _, s => s.size
  | int8, _ | uint8, _ => 1
  | int16, _ | uint16, _ => 2
  | int32, _ | uint32, _ | float32, _ => 4
  | float64, _ => 8

/-- The integer that a value of an integer type is. -/
def toInt? : (t : CellType) → t.Carrier → Option Int
  | int8, v => some v.toInt
  | uint8, v => some v.toNat
  | int16, v => some v.toInt
  | uint16, v => some v.toNat
  | int32, v => some v.toInt
  | uint32, v => some v.toNat
  | float32, _ | float64, _ | string _, _ => none

/-- The stored bytes of a value, piece by piece in the order in which they are written. -/
def pieces (order : ByteOrder) : (t : CellType) → t.Carrier → List (List UInt8)
  | int8, v => [order.encode 1 v.toUInt8.toNat]
  | uint8, v => [order.encode 1 v.toNat]
  | int16, v => [order.encode 2 v.toUInt16.toNat]
  | uint16, v => [order.encode 2 v.toNat]
  | int32, v => [order.encode 4 v.toUInt32.toNat]
  | uint32, v => [order.encode 4 v.toNat]
  | float32, v => [order.encode 4 v.toNat]
  | float64, v => [order.encode 8 v.toNat]
  | string _, s => s.pieces order

def stored (order : ByteOrder) (t : CellType) (v : t.Carrier) : List UInt8 :=
  (t.pieces order v).flatten

/-- Floating-point cells keep a point, and take an exponent below `1e-4` and from `1e16` on. -/
def floatStyle : Shortest.Style where
  positional e := decide (-4 ≤ e) && decide (e < 16)
  point := true
  plus := false
  tie := .up
  infinity := "inf"
  nan := "NaN"

def text : (t : CellType) → t.Carrier → String
  | int8, v => toString v.toInt
  | uint8, v => toString v.toNat
  | int16, v => toString v.toInt
  | uint16, v => toString v.toNat
  | int32, v => toString v.toInt
  | uint32, v => toString v.toNat
  | float32, v => floatStyle.text Binary.binary32 v.toNat
  | float64, v => floatStyle.text Binary.binary64 v.toNat
  | string _, s => s.quoted

end CellType

/-- A value together with its type. -/
structure Cell where
  type : CellType
  value : type.Carrier
  deriving DecidableEq

namespace Cell

def size (c : Cell) : Nat :=
  c.type.sizeOf c.value

/-- The integer in a cell of an integer type. -/
def toInt? (c : Cell) : Option Int :=
  c.type.toInt? c.value

/-- The content of a string cell. -/
def content? : Cell → Option (List UInt8)
  | ⟨.string _, s⟩ => some s.bytes
  | _ => none

def pieces (order : ByteOrder) (c : Cell) : List (List UInt8) :=
  c.type.pieces order c.value

def stored (order : ByteOrder) (c : Cell) : List UInt8 :=
  c.type.stored order c.value

def text (c : Cell) : String :=
  c.type.text c.value

/-- Whether a cell holds a floating-point pattern that is not a number. -/
def isNaN : Cell → Bool
  | ⟨.float32, v⟩ => match Binary.binary32.decode v.toNat with
    | .nan .. => true
    | _ => false
  | ⟨.float64, v⟩ => match Binary.binary64.decode v.toNat with
    | .nan .. => true
    | _ => false
  | _ => false

end Cell

/-! ## Lemmas -/

theorem CellType.length_stored (order : ByteOrder) (t : CellType) (v : t.Carrier) :
    (t.stored order v).length = t.sizeOf v := by
  cases t with
  | string form =>
    simp only [stored, pieces, sizeOf, ByteString.flatten_pieces, ByteString.length_stored]
  | _ => simp [stored, pieces, sizeOf]

theorem Cell.length_stored (order : ByteOrder) (c : Cell) : (c.stored order).length = c.size :=
  CellType.length_stored order c.type c.value

end ScriptImage
