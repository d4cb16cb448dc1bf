import ScriptImage.Cell.Build
import ScriptImage.Float.Decimal
import ScriptImage.Text.Blank

/-!
# Literals

Cells as text.  Integers take a sign and either decimal digits or `0x` with hexadecimal
digits, and also a decimal fraction whose value is whole; floating-point numbers take
decimal text; strings stand in double quotes with backslash escapes.  What `Cell.text`
writes for an integer or a string reads back as the same cell.
-/

namespace ScriptImage

/-! ## Strings -/

namespace ByteString

/-- Reads the characters between the quotes. `whole` is the literal for messages, and the bytes
read so far come newest first. -/
def unescape (whole : String) : List UInt8 → List Char → Except Error (List UInt8)
  | done, [] => .ok done.reverse
  | done, '\\' :: rest =>
    match rest with
    | 'n' :: rest => unescape whole (10 :: done) rest
    | 'r' :: rest => unescape whole (13 :: done) rest
    | 't' :: rest => unescape whole (9 :: done) rest
    | '0' :: rest => unescape whole (0 :: done) rest
    | '\\' :: rest => unescape whole (92 :: done) rest
    | '"' :: rest => unescape whole (34 :: done) rest
    | 'x' :: high :: low :: rest =>
      match Hex.value? high, Hex.value? low with
      | some h, some l => unescape whole (UInt8.ofNat (16 * h + l) :: done) rest
      | _, _ => .error (.malformedHexEscape whole)
    | 'x' :: _ => .error (.malformedHexEscape whole)
    | c :: _ => .error (.unknownEscape c whole)
    | [] => .error (.danglingBackslash whole)
  | done, c :: rest => unescape whole ((String.utf8EncodeChar c).reverse ++ done) rest

/-- The characters between the quotes of a literal. -/
def unquote? : List Char → Option (List Char)
  | '"' :: rest => if rest.getLast? = some '"' then some rest.dropLast else none
  | _ => none

def parse (form : StringForm) (text : String) : Except Error (ByteString form) :=
  match unquote? text.toList with
  | some inner => do
    let bytes ← unescape text [] inner
    ofBytes form bytes
  | none => .error (.unquoted text)

end ByteString

/-! ## Integers -/

namespace Cell

/-- What a run of digits amounts to. -/
inductive Magnitude where
  /-- A number of at most 127 bits. -/
  | value (n : Nat)
  /-- The digits spell a larger number. -/
  | overflow
  /-- A character is no digit, or there is none. -/
  | malformed
  deriving DecidableEq, Repr

/-- The greatest magnitude that is told apart from larger ones. -/
def greatestMagnitude : Nat := 2 ^ 127 - 1

/-- The value of a digit in a radix of at most sixteen. -/
def digitIn? (radix : Nat) (c : Char) : Option Nat :=
  (Hex.value? c).filter fun d => d < radix

/-- Adds digits to a number; the first that fails decides. -/
def addDigits (radix : Nat) : Nat → List Char → Magnitude
  | n, [] => .value n
  | n, c :: cs =>
    match digitIn? radix c with
    | none => .malformed
    | some d =>
      if greatestMagnitude < n * radix + d then .overflow else addDigits radix (n * radix + d) cs

/-- The magnitude that digits spell. -/
def magnitude (radix : Nat) (digits : List Char) : Magnitude :=
  if digits.isEmpty then .malformed else addDigits radix 0 digits

/-- The radix that a literal without sign announces, and its digits. -/
def splitRadix : List Char → Nat × List Char
  | '0' :: 'x' :: digits => (16, digits)
  | '0' :: 'X' :: digits => (16, digits)
  | digits => (10, digits)

def startsWithSign : List Char → Bool
  | c :: _ => c == '+' || c == '-'
  | [] => false

/-- Reads an integer literal. Text that is no run of digits may still be a decimal fraction or a
number with an exponent. -/
def parseInteger (t : CellType) (cs : List Char) : Except Error Cell :=
  let text := String.ofList cs
  let (negative, rest) := Decimal.splitSign cs
  let (radix, digits) := splitRadix rest
  if startsWithSign digits then .error (.malformedLiteral t text)
  else
    match magnitude radix digits with
    | .value n =>
      let v : Int := if negative then -(n : Int) else n
      if v < leastInt64 ∨ greatestInt64 < v then .error (.literalOutside t text) else ofInt t v
    | .overflow => .error (.literalOutside t text)
    | .malformed =>
      match Decimal.parse? cs with
      | some bits => if radix = 10 then ofFloat t bits else .error (.malformedLiteral t text)
      | none => .error (.malformedLiteral t text)

/-! ## Cells -/

/-- Reads a literal of a type. White space around it does not count. -/
def parse (t : CellType) (text : String) : Except Error Cell :=
  let cs := Text.trimBlank text.toList
  match t with
  | .string form => (ByteString.parse form (String.ofList cs)).map fun s => ⟨.string form, s⟩
  | .float32 | .float64 =>
    match Decimal.parse? cs with
    | some bits => ofFloat t bits
    | none => .error (.malformedLiteral t (String.ofList cs))
  | _ => parseInteger t cs

end Cell

end ScriptImage
