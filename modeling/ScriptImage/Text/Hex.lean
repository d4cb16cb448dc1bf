/-!
# Hexadecimal text

Bytes are shown as two lowercase digits each.  Reading skips blanks, wants an even
number of digits and takes either case.
-/

namespace ScriptImage.Hex

/-- The lowercase digit of a number below sixteen. -/
def digit (n : Nat) : Char :=
  if n < 10 then Char.ofNat ('0'.toNat + n) else Char.ofNat ('a'.toNat + (n - 10))

/-- The value of a hexadecimal digit of either case. -/
def value? (c : Char) : Option Nat :=
  if '0' ≤ c ∧ c ≤ '9' then some (c.toNat - '0'.toNat)
  else if 'a' ≤ c ∧ c ≤ 'f' then some (c.toNat - 'a'.toNat + 10)
  else if 'A' ≤ c ∧ c ≤ 'F' then some (c.toNat - 'A'.toNat + 10)
  else none

/-- The two digits of a byte. -/
def byte (b : UInt8) : List Char :=
  [digit (b.toNat / 16), digit (b.toNat % 16)]

/-- Two lowercase digits per byte. -/
def text (bytes : List UInt8) : String :=
  String.ofList (bytes.flatMap byte)

/-- The number in lowercase digits, filled with zeros on the left to at least `width` digits. -/
def padded (width n : Nat) : String :=
  let digits := Nat.toDigits 16 n
  String.ofList (List.replicate (width - digits.length) '0' ++ digits)

/-- The bytes that separate digits: space, tab, line feed, form feed and carriage return. -/
def isBlank (b : UInt8) : Bool :=
  b == 32 || b == 9 || b == 10 || b == 12 || b == 13

/-- Why a text is no hexadecimal text. -/
inductive Fault where
  /-- The number of digits is odd. -/
  | odd (digits : Nat)
  /-- This byte is no digit. -/
  | badDigit (byte : UInt8)
  deriving DecidableEq, Repr

/-- The value of a digit given as a byte. -/
def nibble (b : UInt8) : Except Fault Nat :=
  match value? (Char.ofNat b.toNat) with
  | some n => .ok n
  | none => .error (.badDigit b)

/-- Pairs of digits to bytes, in front of the bytes already read (newest first). -/
def pairs : List UInt8 → List UInt8 → Except Fault (List UInt8)
  | done, high :: low :: rest => do
    let h ← nibble high
    let l ← nibble low
    pairs (UInt8.ofNat (16 * h + l) :: done) rest
  | done, _ => .ok done.reverse

/-- The bytes of a hexadecimal text. -/
def parse (text : String) : Except Fault (List UInt8) :=
  let digits := text.toUTF8.toList.filter fun b => !isBlank b
  if digits.length % 2 = 1 then .error (.odd digits.length) else pairs [] digits

end ScriptImage.Hex
