import ScriptImage.Instr

/-!
# Routines

A routine is a list of instructions.  An instruction's position is the total size of
those before it; symbolic instructions count with the size of what they stand for, so
positions do not depend on the form of the code.
-/

namespace ScriptImage

abbrev Routine := List Instr

namespace Routine

def size (r : Routine) : Nat :=
  (r.map Instr.size).sum

/-- The positions of the instructions of a routine that begins at `p`. -/
def positionsFrom : Nat → Routine → List Nat
  | _, [] => []
  | p, i :: r => p :: positionsFrom (p + i.size) r

/-- The positions of the instructions, counted from the beginning of the routine. -/
def positions (r : Routine) : List Nat :=
  r.positionsFrom 0

/-- Whether all instructions can be stored. -/
def isConcrete (r : Routine) : Bool :=
  r.all fun i => !i.isSymbolic

/-- Writes the instructions, up to the first that is symbolic. -/
def encode (order : ByteOrder) (r : Routine) : Encoding :=
  .concat (r.map (Instr.encode order))

end Routine

end ScriptImage
