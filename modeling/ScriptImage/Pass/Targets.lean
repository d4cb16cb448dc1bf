import ScriptImage.Code

/-!
# Positions, boundaries and markers

What the passes on jumps and branches share.  Code is laid out once; a target position is
moved back to the start of the instruction that covers it (`snap`), the distance being
kept as an adjustment; markers are inserted all at once (`insertAll`).

    snap (boundaries …) finish target = some (b, a) → b + a = target
-/

namespace ScriptImage

/-- The place of an instruction: its routine and its index there. -/
structure Slot where
  routine : Nat
  index : Nat
  deriving DecidableEq, Repr

def Slot.before (a b : Slot) : Bool :=
  a.routine < b.routine || (a.routine == b.routine && a.index < b.index)

/-- The identifier that a marker has or that a reference names. -/
def Instr.targetId? : Instr → Option UInt32
  | .op _ => none
  | .symbolic s => s.marker? <|> s.target?

namespace Targets

def successor (id : UInt32) : Except Error UInt32 :=
  if id.toNat = maxOffset then .error .targetIdsExhausted else .ok (id + 1)

/-- The first identifier above all that occur. -/
def nextId (rs : List Routine) : Except Error UInt32 :=
  match (rs.flatMap fun r => r.filterMap Instr.targetId?).max? with
  | none => .ok 0
  | some highest => successor highest

/-! ## Layout -/

/-- The positions of the instructions of a routine that begins at `p`. -/
def positions : Int → Routine → List Int
  | _, [] => []
  | p, i :: r => p :: positions (p + i.size) r

/-- The positions of all instructions of routines laid out from `p`, and the position after the
last of them. -/
def layout : Int → List Routine → List (List Int) × Int
  | p, [] => ([], p)
  | p, r :: rs =>
    let (rest, finish) := layout (p + r.size) rs
    (positions p r :: rest, finish)

/-- The sized instructions of a routine with their positions; `slot` is the place of its first
instruction and `p` the position. -/
def routineBoundaries : Slot → Int → Routine → List (Int × Slot)
  | _, _, [] => []
  | slot, p, i :: r =>
    let rest := routineBoundaries { slot with index := slot.index + 1 } (p + i.size) r
    if 0 < i.size then (p, slot) :: rest else rest

/-- The positions at which sized instructions start, ascending, with their places. Routines are
numbered from `k` and laid out from `p`. -/
def boundaries : Nat → Int → List Routine → List (Int × Slot)
  | _, _, [] => []
  | k, p, r :: rs => routineBoundaries ⟨k, 0⟩ p r ++ boundaries (k + 1) (p + r.size) rs

/-- The last boundary at or before a position. -/
def lastBoundary? (bs : List (Int × Slot)) (target : Int) : Option Int :=
  bs.foldl (fun last b => if b.1 ≤ target then some b.1 else last) none

/-- The boundary at or before a target and the distance to it. The end of the code counts as a
boundary. -/
def snap (bs : List (Int × Slot)) (finish target : Int) : Option (Int × UInt32) := do
  let boundary ← if target = finish then some finish else lastBoundary? bs target
  let distance := target - boundary
  if 0 ≤ distance ∧ distance ≤ maxOffset then some (boundary, UInt32.ofNat distance.toNat) else none

/-! ## Editing by place -/

/-- Replaces the instructions at the given places. -/
def setAll (rs : List Routine) (changes : List (Slot × Instr)) : List Routine :=
  changes.foldl (fun rs (slot, i) => rs.modify slot.routine fun r => r.set slot.index i) rs

/-- Inserts instructions before the given places, which are meant before any insertion. An index
equal to the length of a routine appends. -/
def insertAll (rs : List Routine) (inserts : List (Slot × Instr)) : List Routine :=
  -- from the back, so that the places further ahead stay valid
  let ordered := inserts.mergeSort fun a b => !a.1.before b.1
  ordered.foldl (fun rs (slot, i) => rs.modify slot.routine fun r => r.insertIdx slot.index i) rs

/-! ## Words -/

def int16? (v : Int) : Option Int16 :=
  if -32768 ≤ v ∧ v ≤ 32767 then some (Int16.ofInt v) else none

def int32? (v : Int) : Option Int32 :=
  if -2147483648 ≤ v ∧ v ≤ 2147483647 then some (Int32.ofInt v) else none

end Targets

end ScriptImage
