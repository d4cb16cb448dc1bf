import ScriptImage.Error

/-!
# Building strings and cells

Checked construction: a byte string from its content, a cell from an integer or from a
64-bit floating-point number.  A number outside a type's bounds is never wrapped:

    Cell.ofInt t v = .ok c → c.type = t ∧ c.toInt? = some v
-/

namespace ScriptImage

/-- The string with this content, if the form admits it. Length is judged first. -/
def ByteString.ofBytes (form : StringForm) (bytes : List UInt8) : Except Error (ByteString form) :=
  if fits : bytes.length ≤ form.maxLength then
    if clean : form.terminated = true → 0 ∉ bytes then .ok ⟨bytes, fits, clean⟩
    else .error (.stringHasNul form)
  else .error (.stringTooLong form bytes.length)

/-- The string whose content is the UTF-8 encoding of a text. -/
def ByteString.ofText (form : StringForm) (text : String) : Except Error (ByteString form) :=
  ByteString.ofBytes form (Utf8.encode text)

/-- The same content in another form. -/
def ByteString.recast {form : StringForm} (s : ByteString form) (form' : StringForm) :
    Except Error (ByteString form') :=
  ByteString.ofBytes form' s.bytes

namespace Cell

/-- A value of an integer type, taken modulo its width. -/
def wrapInt : (t : CellType) → Int → Option t.Carrier
  | .int8, v => some (Int8.ofInt v)
  | .uint8, v => some (UInt8.ofNat v.toNat)
  | .int16, v => some (Int16.ofInt v)
  | .uint16, v => some (UInt16.ofNat v.toNat)
  | .int32, v => some (Int32.ofInt v)
  | .uint32, v => some (UInt32.ofNat v.toNat)
  | .float32, _ | .float64, _ | .string _, _ => none

/-- The cell of an integer type that holds exactly `v`. -/
def ofInt (t : CellType) (v : Int) : Except Error Cell :=
  match t.bounds?, wrapInt t v with
  | some (low, high), some value =>
    if v < low ∨ high < v then .error (.integerOutside t v low high) else .ok ⟨t, value⟩
  | _, _ => .error (.notIntegerType t)

def leastInt64 : Int := -(2 ^ 63)

def greatestInt64 : Int := 2 ^ 63 - 1

/-- The greatest finite number of the 32-bit format, as a 64-bit pattern. -/
def greatestFloat32 : Nat := 0x47EFFFFFE0000000

/-- The integer that `m · 2 ^ q` is, if it is one. -/
def whole? (negative : Bool) (m : Nat) (q : Int) : Option Int :=
  let signed (n : Nat) : Int := if negative then -(n : Int) else n
  if 0 ≤ q then some (signed (m * 2 ^ q.toNat))
  else if m % 2 ^ (-q).toNat = 0 then some (signed (m / 2 ^ (-q).toNat))
  else none

/-- The cell of a numeric type that holds a floating-point number. Integer types want a whole
number; the 32-bit format rounds to its nearest. -/
def ofFloat (t : CellType) (bits : UInt64) : Except Error Cell :=
  let f := Binary.binary64
  match t with
  | .float64 => .ok ⟨.float64, bits⟩
  | .float32 =>
    let magnitude := bits.toNat % f.signBit
    if greatestFloat32 < magnitude ∧ magnitude < f.infinity then .error (.floatTooLarge bits)
    else .ok ⟨.float32, Binary.narrow bits⟩
  | .string _ => .error (.notNumericType t)
  | _ =>
    match f.decode bits.toNat with
    | .finite negative m q =>
      match whole? negative m q with
      | some v =>
        if v < leastInt64 ∨ greatestInt64 + 1 < v then .error (.floatOutside t bits)
        else ofInt t (min v greatestInt64)
      | none => .error (.notWhole t bits)
    | _ => .error (.notWhole t bits)

def ofBytes (form : StringForm) (bytes : List UInt8) : Except Error Cell :=
  (ByteString.ofBytes form bytes).map fun s => ⟨.string form, s⟩

end Cell

/-! ## Lemmas -/

theorem ByteString.ofBytes_bytes {form : StringForm} (s : ByteString form) :
    ByteString.ofBytes form s.bytes = .ok s := by
  obtain ⟨bytes, fits, clean⟩ := s
  simp only [ByteString.ofBytes, dif_pos fits, dif_pos clean]

theorem ByteString.bytes_of_ofBytes {form : StringForm} {bytes : List UInt8} {s : ByteString form}
    (h : ByteString.ofBytes form bytes = .ok s) : s.bytes = bytes := by
  unfold ByteString.ofBytes at h
  split at h
  · split at h
    · cases h; rfl
    · cases h
  · cases h

end ScriptImage
