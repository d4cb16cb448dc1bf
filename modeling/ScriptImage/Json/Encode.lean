import ScriptImage.Json.Decode

/-!
# Values as JSON documents

Records are objects with their fields in order, values without fields are their names,
bytes are lists of numbers.  A floating-point number is written with the fewest digits
that read back, and is `null` if it is not finite.
-/

namespace ScriptImage

namespace Json

def ofNat (n : Nat) : Json :=
  number (toString n)

def ofInt (n : Int) : Json :=
  number (toString n)

def ofName (s : String) : Json :=
  string (some s)

/-- An object. -/
def record (fields : List (String × Json)) : Json :=
  object (fields.map fun (label, x) => (some label, x))

/-- How numbers are laid out: positionally while the exponent of the leading digit is between
`least` and `most`. -/
def floatStyle (least most : Int) : Shortest.Style where
  positional e := decide (least ≤ e) && decide (e ≤ most)
  point := true
  plus := true
  tie := .even
  infinity := "null"
  nan := "null"

def ofFloat (style : Shortest.Style) (f : Binary.Format) (bits : Nat) : Json :=
  match f.decode bits with
  | .finite .. => number (style.text f bits)
  | _ => null

end Json

open Json

def ByteOrder.toJson (o : ByteOrder) : Json :=
  ofName (orderName o)

def StringForm.toJson (f : StringForm) : Json :=
  record [("prefix", ofName (lengthWidthName f.width)), ("terminated", .bool f.terminated)]

def CellType.toJson : CellType → Json
  | .string form => record [("Str", form.toJson)]
  | t => ofName (cellTypeName t)

def ByteString.toJson {form : StringForm} (s : ByteString form) : Json :=
  record [("bytes", .array (s.bytes.map fun b => ofNat b.toNat)), ("flavor", form.toJson)]

/-- The document of an operand. -/
def CellType.valueToJson : (t : CellType) → t.Carrier → Json
  | .int8, v => ofInt v.toInt
  | .uint8, v => ofNat v.toNat
  | .int16, v => ofInt v.toInt
  | .uint16, v => ofNat v.toNat
  | .int32, v => ofInt v.toInt
  | .uint32, v => ofNat v.toNat
  | .float32, v => ofFloat (Json.floatStyle (-6) 12) Binary.binary32 v.toNat
  | .float64, v => ofFloat (Json.floatStyle (-5) 15) Binary.binary64 v.toNat
  | .string _, s => s.toJson

/-- The name of a cell's variant. -/
def CellType.variant : CellType → String
  | .int8 => "I8"
  | .uint8 => "U8"
  | .int16 => "I16"
  | .uint16 => "U16"
  | .int32 => "I32"
  | .uint32 => "U32"
  | .float32 => "F32"
  | .float64 => "F64"
  | .string _ => "Str"

def Cell.toJson (c : Cell) : Json :=
  record [(c.type.variant, c.type.valueToJson c.value)]

/-- The document of operands, by label. -/
def Operands.toJson {fs : List Field} (xs : Operands fs) : Json :=
  record ((fs.map Field.label).zip (xs.toCells.map fun c => c.type.valueToJson c.value))

def Instr.toJson : Instr → Json
  | .op o => record [("Bcl", record [(o.code.mnemonic, o.operands.toJson)])]
  | .symbolic s => record [("Abstract", record [(s.kind.mnemonic, s.operands.toJson)])]

def StringPool.toJson (p : StringPool) : Json :=
  record [("flavor", p.form.toJson), ("entries", .array (p.entries.toList.map ByteString.toJson))]

def FunctionEntry.toJson (f : FunctionEntry) : Json :=
  record [("name", f.name.toJson), ("arg_count", ofNat f.argCount.toNat),
    ("offset", ofNat f.offset.toNat)]

def Method.toJson (m : Method) : Json :=
  record [("symbol", ofNat m.symbol.toNat), ("offset", ofNat m.offset.toNat)]

def ClassEntry.toJson (c : ClassEntry) : Json :=
  record [("name", c.name.toJson), ("properties", .array (c.properties.map fun p => ofNat p.toNat)),
    ("methods", .array (c.methods.map Method.toJson))]

def ClassTable.toJson (t : ClassTable) : Json :=
  record [("count_width", ofName (countWidthName t.countWidth)),
    ("entries", .array (t.entries.map ClassEntry.toJson))]

def Header.toJson (h : Header) : Json :=
  record [("version", ofName h.version.tag), ("strings", h.strings.toJson),
    ("globals", h.globals.toJson),
    ("functions", record [("entries", .array (h.functions.map FunctionEntry.toJson))]),
    ("classes", h.classes.toJson), ("symbols", h.symbols.toJson),
    ("sources", (h.sources.map StringPool.toJson).getD .null)]

def Code.toJson (c : Code) : Json :=
  record [("subroutines", .array (c.routines.map fun r =>
      record [("instructions", .array (r.map Instr.toJson))])),
    ("offsets", .array (c.offsets.map fun o => ofNat o.toNat)),
    ("base_offset", ofNat c.base.toNat)]

def Image.toJson (i : Image) : Json :=
  record [("header", i.header.toJson), ("subroutines", i.code.toJson), ("endian", i.order.toJson)]

def DecodeOptions.toJson (o : DecodeOptions) : Json :=
  record [("endian", (o.order.map ByteOrder.toJson).getD .null),
    ("verify_offsets", .bool o.verifyOffsets)]

def PassSelection.toJson (s : PassSelection) : Json :=
  record [("strings", .bool s.strings), ("symbols", .bool s.symbols), ("globals", .bool s.globals),
    ("classes", .bool s.classes), ("branches", .bool s.branches), ("jumps", .bool s.jumps)]

end ScriptImage
