/-!
# Binary floating-point formats

A number of a binary format is kept as its bit pattern.  `Format.decode` reads a bit
pattern as `m · 2 ^ q` with a sign, and `Format.round` gives the bit pattern that is
nearest to a quotient of natural numbers, an exact half going to the even neighbour.
All arithmetic is exact, on natural numbers and integers.
-/

namespace ScriptImage.Binary

/-- The field widths of a binary floating-point format. -/
structure Format where
  /-- Stored bits of the fraction. -/
  fraction : Nat
  /-- Bits of the exponent. -/
  exponent : Nat
  deriving DecidableEq, Repr

def binary32 : Format := ⟨23, 8⟩

def binary64 : Format := ⟨52, 11⟩

/-- What a bit pattern denotes. -/
inductive Datum where
  /-- Not a number, with its fraction bits. -/
  | nan (negative : Bool) (fraction : Nat)
  | infinite (negative : Bool)
  /-- The number `m · 2 ^ q`, negated if `negative`. -/
  | finite (negative : Bool) (m : Nat) (q : Int)
  deriving DecidableEq, Repr

namespace Format

/-- The power of two that the last place of the smallest numbers stands for. -/
def leastPower (f : Format) : Int :=
  2 - 2 ^ (f.exponent - 1) - (f.fraction : Int)

def infinity (f : Format) : Nat :=
  (2 ^ f.exponent - 1) * 2 ^ f.fraction

def signBit (f : Format) : Nat :=
  2 ^ (f.fraction + f.exponent)

/-- Sets the sign bit of a pattern that lacks it. -/
def withSign (f : Format) (negative : Bool) (bits : Nat) : Nat :=
  if negative then f.signBit + bits else bits

def decode (f : Format) (bits : Nat) : Datum :=
  let negative := decide (f.signBit ≤ bits % (2 * f.signBit))
  let exponent := bits / 2 ^ f.fraction % 2 ^ f.exponent
  let fraction := bits % 2 ^ f.fraction
  if exponent = 2 ^ f.exponent - 1 then
    if fraction = 0 then .infinite negative else .nan negative fraction
  else if exponent = 0 then .finite negative fraction f.leastPower
  else .finite negative (2 ^ f.fraction + fraction) (f.leastPower + (exponent - 1 : Nat))

/-- The quotient rounded to a natural number, an exact half to the even neighbour. -/
def roundQuotient (num den : Nat) : Nat :=
  let q := num / den
  let r := num % den
  if 2 * r < den then q
  else if den < 2 * r then q + 1
  else if q % 2 = 0 then q else q + 1

/-- The greatest `e` with `2 ^ e ≤ num / den`, for positive `num` and `den`. -/
def floorLog2 (num den : Nat) : Int :=
  let e : Int := (num.log2 : Int) - den.log2
  let below := if 0 ≤ e then num < den * 2 ^ e.toNat else num * 2 ^ (-e).toNat < den
  if below then e - 1 else e

/-- The pattern nearest to `num / den`: halves go to the even pattern, and numbers past
the greatest finite one become infinity. -/
def round (f : Format) (negative : Bool) (num den : Nat) : Nat :=
  if num = 0 then f.withSign negative 0
  else
    let q := max (floorLog2 num den - f.fraction) f.leastPower
    let m := if 0 ≤ q then roundQuotient num (den * 2 ^ q.toNat)
      else roundQuotient (num * 2 ^ (-q).toNat) den
    f.withSign negative (min f.infinity ((q - f.leastPower).toNat * 2 ^ f.fraction + m))

end Format

/-- The 32-bit pattern nearest to a 64-bit one. A pattern that is not a number keeps its
sign and the high bits of its fraction, and becomes quiet. -/
def narrow (bits : UInt64) : UInt32 :=
  let f := binary32
  UInt32.ofNat <|
    match binary64.decode bits.toNat with
    | .nan negative fraction =>
      let high := fraction / 2 ^ (binary64.fraction - f.fraction)
      let quiet := 2 ^ (f.fraction - 1)
      f.withSign negative (f.infinity + (quiet + high % quiet))
    | .infinite negative => f.withSign negative f.infinity
    | .finite negative m q =>
      if 0 ≤ q then f.round negative (m * 2 ^ q.toNat) 1
      else f.round negative m (2 ^ (-q).toNat)

end ScriptImage.Binary
