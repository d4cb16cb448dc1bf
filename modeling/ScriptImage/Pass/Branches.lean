import ScriptImage.Pass.Visit
import ScriptImage.Pass.Targets

/-!
# Branches

A branch holds the distance to go, counted from the byte after it, and never leaves its
routine.  `Branches.add` replaces the distances by references to markers in the same
routine; `Branches.remove` does the opposite.  Positions are counted from the beginning of
a routine.
-/

namespace ScriptImage.Branches

open Targets

/-! ## Adding markers -/

/-- The next free identifier, and the target positions of the routine with theirs. -/
structure Ids where
  next : UInt32
  assigned : List (Int × UInt32)

/-- The identifier of a target position, which gets one if it has none. -/
def Ids.of (ids : Ids) (target : Int) : Except Error (Ids × UInt32) :=
  match ids.assigned.lookup target with
  | some id => .ok (ids, id)
  | none => do
    let next ← successor ids.next
    return (⟨next, ids.assigned ++ [(target, ids.next)]⟩, ids.next)

/-- Replaces the distance of a branch of routine `k`, which has the given boundaries and end. -/
def addStep (k : Nat) (bs : List (Int × Slot)) (finish : Int) : Visit.Step Ids
  | ids, _, .symbolic _ => .ok (ids, none)
  | ids, p, .op o =>
    match o.branch? with
    | none => .ok (ids, none)
    | some (condition, displacement) =>
      let destination := p + o.size + displacement.toInt
      if destination < 0 ∨ finish < destination then
        .error (.branchOutside p k destination finish)
      else
        match snap bs finish destination with
        | none => .error (.noBoundary destination)
        | some (target, adjust) => do
          let (ids, id) ← ids.of target
          return (ids, some (.symbolic (.branchTo condition id adjust)))

/-- The place of the marker for a target position in routine `k`. -/
def markerSlot (k : Nat) (r : Routine) (bs : List (Int × Slot)) (finish target : Int) :
    Except Error Slot :=
  if target = finish then .ok ⟨k, r.length⟩
  else
    match bs.lookup target with
    | some slot => .ok slot
    | none => .error (.boundaryLost target)

/-- Replaces the distances in routines numbered from `k`; `next` is the first free identifier.
Gives the number of branches, the routines, and the markers to insert. -/
def addFrom : Nat → UInt32 → List Routine →
    Except Error (Nat × List Routine × List (Slot × Instr))
  | _, _, [] => .ok (0, [], [])
  | k, next, r :: rs => do
    let finish := (layout 0 [r]).2
    let bs := boundaries k 0 [r]
    let (ids, count, r') ← Visit.routine (addStep k bs finish) ⟨next, []⟩ 0 r
    let inserts ← ids.assigned.mapM fun (target, id) => do
      let slot ← markerSlot k r bs finish target
      return (slot, Instr.symbolic (.branchTarget id))
    let (count', rs', inserts') ← addFrom (k + 1) ids.next rs
    return (count + count', r' :: rs', inserts ++ inserts')

/-- Replaces the distances of branches by references to markers. Answers how many branches were
changed. -/
def add (rs : List Routine) : Except Error (Nat × List Routine) := do
  let next ← nextId rs
  let (count, rs', inserts) ← addFrom 0 next rs
  return (count, insertAll rs' inserts)

/-! ## Removing markers -/

/-- The branch markers of a routine from a position on. -/
def markersFrom : Int → Routine → List (UInt32 × Int)
  | _, [] => []
  | p, i :: r =>
    let rest := markersFrom (p + i.size) r
    match i with
    | .symbolic (.branchTarget id) => (id, p) :: rest
    | _ => rest

/-- Adds the markers of routine `k` to those seen, with the routine they are in. -/
def noteMarkers (k : Nat) :
    List (UInt32 × Nat) → List (UInt32 × Int) → Except Error (List (UInt32 × Nat))
  | seen, [] => .ok seen
  | seen, (id, _) :: rest =>
    match seen.lookup id with
    | some first => .error (.branchTargetRedefined id first k)
    | none => noteMarkers k ((id, k) :: seen) rest

/-- Replaces the reference of a branch of routine `k`, which has the given markers and end. -/
def removeStep (k : Nat) (marks : List (UInt32 × Int)) (finish : Int) : Visit.Step Unit
  | _, _, .op _ => .ok ((), none)
  | _, p, .symbolic s =>
    match s.branch? with
    | none => .ok ((), none)
    | some (condition, target, adjust) =>
      match marks.lookup target with
      | none => .error (.branchTargetElsewhere k target)
      | some marker =>
        let destination := marker + adjust.toNat
        if finish < destination then .error (.branchPastEnd destination k finish)
        else
          let displacement := destination - (p + s.size)
          match int16? displacement with
          | some d => .ok ((), some (.op (.branch condition d)))
          | none => .error (.branchTooFar displacement)

def isTarget : Instr → Bool
  | .symbolic (.branchTarget _) => true
  | _ => false

/-- Replaces the references in routines numbered from `k`, given the markers of the routines
before them. -/
def removeFrom : Nat → List (UInt32 × Nat) → List Routine → Except Error (Nat × List Routine)
  | _, _, [] => .ok (0, [])
  | k, seen, r :: rs => do
    let finish := (layout 0 [r]).2
    let marks := markersFrom 0 r
    let seen ← noteMarkers k seen marks
    let (_, count, r') ← Visit.routine (removeStep k marks finish) () 0 r
    let (count', rs') ← removeFrom (k + 1) seen rs
    return (count + count', (r'.filter fun i => !isTarget i) :: rs')

/-- Replaces references to markers by distances and deletes the markers. Answers how many branches
were changed. -/
def remove (rs : List Routine) : Except Error (Nat × List Routine) :=
  removeFrom 0 [] rs

end ScriptImage.Branches
