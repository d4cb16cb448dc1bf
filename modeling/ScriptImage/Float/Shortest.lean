import ScriptImage.Float.Binary

/-!
# Binary numbers to the shortest decimal text

The fewest digits that read back as the same number: on the grids of one, two, three
and more significant digits, the value's two neighbours are tried, and the first grid
with a neighbour inside the interval of reals that round to the number wins.  Of two
such neighbours the nearer is taken, and `Tie` decides an exact half.

`Style` says how the digits are laid out: where positional writing ends, and whether a
whole number keeps `.0`.
-/

namespace ScriptImage.Shortest

open Binary

/-- Where an exact half between two neighbours goes. -/
inductive Tie where
  | up
  | even
  deriving DecidableEq, Repr

/-- The number `digits · 10 ^ power`. -/
structure Digits where
  digits : Nat
  power : Int
  deriving DecidableEq, Repr

/-- How many decimal digits a number has. -/
def count (n : Nat) : Nat :=
  (Nat.toDigits 10 n).length

/-- The exponent of the leading digit. -/
def Digits.lead (d : Digits) : Int :=
  d.power + count d.digits - 1

/-- Drops zeros at the end; `fuel` bounds how many. -/
def stripZeros : Nat → Digits → Digits
  | 0, d => d
  | fuel + 1, d =>
    if d.digits ≠ 0 ∧ d.digits % 10 = 0 then stripZeros fuel ⟨d.digits / 10, d.power + 1⟩ else d

/-- A positive number and the reals that round to it: `mid / den` lies strictly between
`low / den` and `high / den`, and the ends belong to it iff `closed`. -/
structure Interval where
  low : Nat
  mid : Nat
  high : Nat
  den : Nat
  closed : Bool

/-- The interval of `m · 2 ^ q` in a format. Below a power of two the neighbour is half as
far away, except at the bottom of the range. -/
def Interval.of (f : Format) (m : Nat) (q : Int) : Interval :=
  let below := if m = 2 ^ f.fraction ∧ f.leastPower < q then 1 else 2
  let scale := if 2 ≤ q then 2 ^ (q - 2).toNat else 1
  let den := if 2 ≤ q then 1 else 2 ^ (2 - q).toNat
  ⟨(4 * m - below) * scale, 4 * m * scale, (4 * m + 2) * scale, den, m % 2 = 0⟩

/-- Whether `num / den` is one of the interval's reals, with `den` a multiple of its own. -/
def Interval.contains (i : Interval) (scale num : Nat) : Bool :=
  if i.closed then i.low * scale ≤ num && num ≤ i.high * scale
  else i.low * scale < num && num < i.high * scale

/-- The better neighbour of the value among the multiples of `10 ^ power`, if one lies in the
interval. -/
def onGrid (tie : Tie) (i : Interval) (power : Int) : Option Digits :=
  -- all quantities are multiplied by `scale`, and `unit` is one step of the grid
  let scale := if 0 ≤ power then 1 else 10 ^ (-power).toNat
  let unit := if 0 ≤ power then i.den * 10 ^ power.toNat else i.den
  let mid := i.mid * scale
  let down := mid / unit
  let rest := mid % unit
  let downOk := i.contains scale (down * unit) && down ≠ 0
  let upOk := i.contains scale ((down + 1) * unit)
  let up := match tie with
    | .up => decide (unit ≤ 2 * rest)
    | .even => decide (unit < 2 * rest) || (decide (unit = 2 * rest) && decide (down % 2 = 1))
  if downOk && upOk then some ⟨if up then down + 1 else down, power⟩
  else if downOk then some ⟨down, power⟩
  else if upOk then some ⟨down + 1, power⟩
  else none

/-- Tries the grids of ever more digits; `fuel` bounds how many. -/
def search (tie : Tie) (i : Interval) : Nat → Int → Digits
  | 0, power => ⟨i.mid / i.den, power⟩
  | fuel + 1, power =>
    match onGrid tie i power with
    | some d => d
    | none => search tie i fuel (power - 1)

/-- An exponent at or just above that of the leading digit of `num / den`: a power of ten just
above the number may be the shortest decimal that reads back as it. -/
def leadBound (num den : Nat) : Int :=
  if den ≤ num then (count (num / den) : Int) else 1 - (count (den / num) : Int)

/-- The shortest digits of `m · 2 ^ q`. -/
def digits (f : Format) (tie : Tie) (m : Nat) (q : Int) : Digits :=
  if m = 0 then ⟨0, 0⟩
  else
    let i := Interval.of f m q
    stripZeros 400 (search tie i 25 (leadBound i.mid i.den))

/-! ## Layout -/

structure Style where
  /-- Whether a number whose leading digit has this exponent is written positionally. -/
  positional : Int → Bool
  /-- Whether a whole number ends in `.0`. -/
  point : Bool
  /-- Whether an exponent that is not negative has a sign. -/
  plus : Bool
  tie : Tie
  infinity : String
  nan : String

/-- The decimal digits of a number as characters. -/
def chars (n : Nat) : List Char :=
  Nat.toDigits 10 n

def positionalText (point : Bool) (d : Digits) : String :=
  let cs := chars d.digits
  let tail := if point then ".0" else ""
  if 0 ≤ d.power then
    String.ofList (cs ++ List.replicate d.power.toNat '0') ++ tail
  else
    let places := (-d.power).toNat
    let cs := List.replicate (places + 1 - cs.length) '0' ++ cs
    let whole := cs.length - places
    String.ofList (cs.take whole ++ '.' :: cs.drop whole)

/-- Writing with an exponent: one digit, the others after a point, and `e`. -/
def exponentText (plus : Bool) (d : Digits) : String :=
  let mantissa := match chars d.digits with
    | c :: c' :: cs => c :: '.' :: c' :: cs
    | cs => cs
  let sign := if plus && decide (0 ≤ d.lead) then "+" else ""
  String.ofList mantissa ++ "e" ++ sign ++ toString d.lead

def Style.text (s : Style) (f : Format) (bits : Nat) : String :=
  match f.decode bits with
  | .nan .. => s.nan
  | .infinite negative => (if negative then "-" else "") ++ s.infinity
  | .finite negative m q =>
    let d := digits f s.tie m q
    (if negative then "-" else "") ++
      (if d.digits = 0 || s.positional d.lead then positionalText s.point d
      else exponentText s.plus d)

end ScriptImage.Shortest
