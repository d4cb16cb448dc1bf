/-!
# Format versions

Two versions of the format are known.  They differ in the width of the member counts of
classes and in whether the header lists source files.
-/

namespace ScriptImage

/-- The width of a stored count. -/
inductive CountWidth where
  | one
  | two
  deriving DecidableEq, Repr

def CountWidth.size : CountWidth → Nat
  | .one => 1
  | .two => 2

def CountWidth.max (w : CountWidth) : Nat :=
  256 ^ w.size - 1

inductive Version where
  /-- Version 4.1. -/
  | v41
  /-- Version 6.0. -/
  | v60
  deriving DecidableEq, Repr

namespace Version

def pair : Version → UInt16 × UInt16
  | v41 => (4, 1)
  | v60 => (6, 0)

def ofPair? (major minor : UInt16) : Option Version :=
  [v41, v60].find? fun v => v.pair == (major, minor)

/-- The tag of a version in diagnostics. -/
def tag : Version → String
  | v41 => "V4_1"
  | v60 => "V6_0"

/-- The width of the member counts of classes. -/
def countWidth : Version → CountWidth
  | v41 => .one
  | v60 => .two

def hasSources : Version → Bool
  | v41 => true
  | v60 => false

end Version

end ScriptImage
