import ScriptImage.Float.Binary

/-!
# Decimal text to binary numbers

`parse?` reads an optional sign followed by `inf`, `infinity` or `nan` in any case, or
by digits with an optional point and an optional exponent; at least one digit must
stand before the exponent.  The result is the nearest 64-bit number.
-/

namespace ScriptImage.Decimal

open Binary

def digit? (c : Char) : Option Nat :=
  if '0' ≤ c ∧ c ≤ '9' then some (c.toNat - '0'.toNat) else none

def isDigit (c : Char) : Bool :=
  (digit? c).isSome

/-- The number that decimal digits spell. -/
def value (digits : List Char) : Nat :=
  digits.foldl (fun n c => 10 * n + (digit? c).getD 0) 0

/-- A sign, if there is one, and what follows it. -/
def splitSign : List Char → Bool × List Char
  | '-' :: rest => (true, rest)
  | '+' :: rest => (false, rest)
  | rest => (false, rest)

def splitDigits (cs : List Char) : List Char × List Char :=
  (cs.takeWhile isDigit, cs.dropWhile isDigit)

/-- The number that the digits of an exponent spell.  Once it has reached `2 ^ 16`, further digits do
not count. -/
def exponentValue (digits : List Char) : Nat :=
  digits.foldl (fun n c => if n < 2 ^ 16 then 10 * n + (digit? c).getD 0 else n) 0

/-- The exponent that ends a literal: nothing, or `e` with a sign and digits. -/
def exponent? : List Char → Option Int
  | [] => some 0
  | e :: rest =>
    if e = 'e' ∨ e = 'E' then
      let (negative, rest) := splitSign rest
      let (digits, rest) := splitDigits rest
      if digits.isEmpty || !rest.isEmpty then none
      else some (if negative then -(exponentValue digits : Int) else exponentValue digits)
    else none

/-- The 64-bit pattern nearest to `n · 10 ^ e`. Powers far outside the format's range are
decided by their size alone. -/
def nearest (negative : Bool) (n : Nat) (e : Int) : Nat :=
  let f := binary64
  let lead : Int := (Nat.toDigits 10 n).length + e
  if n = 0 ∨ lead < -340 then f.withSign negative 0
  else if 320 < lead then f.withSign negative f.infinity
  else if 0 ≤ e then f.round negative (n * 10 ^ e.toNat) 1
  else f.round negative n (10 ^ (-e).toNat)

/-- A number literal without its sign. -/
def unsigned? (negative : Bool) (cs : List Char) : Option Nat :=
  let (whole, rest) := splitDigits cs
  let (fraction, rest) := match rest with
    | '.' :: rest => splitDigits rest
    | rest => ([], rest)
  if whole.isEmpty && fraction.isEmpty then none
  else (exponent? rest).map fun e =>
    nearest negative (value (whole ++ fraction)) (e - fraction.length)

/-- The 64-bit pattern that a literal denotes, if it is one. -/
def parse? (cs : List Char) : Option UInt64 :=
  let (negative, rest) := splitSign cs
  let f := binary64
  let word := String.ofList (rest.map Char.toLower)
  let bits :=
    if word = "inf" ∨ word = "infinity" then some (f.withSign negative f.infinity)
    else if word = "nan" then
      some (f.withSign negative (f.infinity + 2 ^ (f.fraction - 1)))
    else unsigned? negative rest
  bits.map UInt64.ofNat

end ScriptImage.Decimal
