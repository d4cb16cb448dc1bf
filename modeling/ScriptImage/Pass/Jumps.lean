import ScriptImage.Pass.Targets

/-!
# Jumps

A jump pops the distance to go, counted from the byte after it; the distance is pushed
right before, with nothing but markers between.  `Jumps.add` replaces the pushed distance
by a reference to a marker, which may stand in any routine; `Jumps.remove` does the
opposite.
-/

namespace ScriptImage.Jumps

open Targets

/-- Whether an instruction only marks a position. -/
def isMarker : Instr → Bool
  | .symbolic s => s.marker?.isSome
  | .op _ => false

/-- A jump: the position right after it, and the instruction that feeds it, which is the nearest
before it that is no marker. -/
structure Site where
  finish : Int
  feeder : Option (Slot × Instr)

/-- The jumps of a routine from a place on; `feeder` is the nearest instruction before that place
that is no marker. -/
def sitesFrom : Option (Slot × Instr) → Slot → Int → Routine → List Site
  | _, _, _, [] => []
  | feeder, slot, p, i :: r =>
    let feeder' := if isMarker i then feeder else some (slot, i)
    let rest := sitesFrom feeder' { slot with index := slot.index + 1 } (p + i.size) r
    if i = .op .jumpRelative then ⟨p + i.size, feeder⟩ :: rest else rest

/-- The jumps of routines that are numbered from `k` and laid out from `p`. -/
def sites : Nat → Int → List Routine → List Site
  | _, _, [] => []
  | k, p, r :: rs => sitesFrom none ⟨k, 0⟩ p r ++ sites (k + 1) (p + r.size) rs

/-- The jump markers of a routine from a position on. -/
def markersFrom : Int → Routine → List (UInt32 × Int)
  | _, [] => []
  | p, i :: r =>
    let rest := markersFrom (p + i.size) r
    match i with
    | .symbolic (.jumpTarget id) => (id, p) :: rest
    | _ => rest

/-- The jump markers of routines laid out from `p`, with their positions. -/
def markers : Int → List Routine → List (UInt32 × Int)
  | _, [] => []
  | p, r :: rs => markersFrom p r ++ markers (p + r.size) rs

/-! ## Adding markers -/

/-- A pushed distance that becomes a reference. -/
structure Resolved where
  /-- The place of the push. -/
  slot : Slot
  /-- The boundary at or before the destination. -/
  target : Int
  /-- The distance from there to the destination. -/
  adjust : UInt32

/-- Where a jump goes, if its distance is still pushed as a number. -/
def resolve (bs : List (Int × Slot)) (base finish : Int) (s : Site) :
    Except Error (Option Resolved) :=
  let jump := s.finish - Opcode.jumpRelative.size
  match s.feeder with
  | some (slot, .op (.pushInt32 distance)) =>
    let destination := s.finish + distance.toInt
    if destination < base ∨ finish < destination then
      .error (.jumpOutside jump destination base finish)
    else
      match snap bs finish destination with
      | some (target, adjust) => .ok (some ⟨slot, target, adjust⟩)
      | none => .error (.noBoundary destination)
  | some (_, .symbolic (.jumpPush ..)) => .ok none
  | _ => .error (.jumpUnfed jump)

/-- Gives each target position an identifier, in the order of first use; `next` is the first
free one. -/
def assignIds : UInt32 → List (Int × UInt32) → List Int → Except Error (List (Int × UInt32))
  | _, ids, [] => .ok ids
  | next, ids, target :: rest =>
    match ids.lookup target with
    | some _ => assignIds next ids rest
    | none => do
      let next' ← successor next
      assignIds next' (ids ++ [(target, next)]) rest

/-- The place of the marker for a target position. -/
def markerSlot (rs : List Routine) (bs : List (Int × Slot)) (finish target : Int) :
    Except Error Slot :=
  if target = finish then
    let last := rs.length - 1
    .ok ⟨last, (rs[last]?.getD []).length⟩
  else
    match bs.lookup target with
    | some slot => .ok slot
    | none => .error (.boundaryLost target)

/-- Replaces pushed distances by references to markers. Answers how many jumps were changed. -/
def add (base : UInt32) (rs : List Routine) : Except Error (Nat × List Routine) := do
  let start : Int := base.toNat
  let finish := (layout start rs).2
  let bs := boundaries 0 start rs
  let found ← (sites 0 start rs).mapM (resolve bs start finish)
  let pushes := found.filterMap id
  let next ← nextId rs
  let ids ← assignIds next [] (pushes.map Resolved.target)
  let inserts ← ids.mapM fun (target, id) => do
    let slot ← markerSlot rs bs finish target
    return (slot, Instr.symbolic (.jumpTarget id))
  let changes := pushes.map fun p =>
    (p.slot, Instr.symbolic (.jumpPush ((ids.lookup p.target).getD 0) p.adjust))
  return (pushes.length, insertAll (setAll rs changes) inserts)

/-! ## Removing markers -/

/-- The first identifier that occurs a second time. -/
def duplicate? : List UInt32 → List UInt32 → Option UInt32
  | _, [] => none
  | seen, id :: rest => if id ∈ seen then some id else duplicate? (id :: seen) rest

/-- The distance that a reference before a jump stands for, with the place of the reference. -/
def distance (marks : List (UInt32 × Int)) (finish : Int) (s : Site) :
    Except Error (Option (Slot × Int32)) :=
  match s.feeder with
  | some (slot, .symbolic (.jumpPush target adjust)) =>
    match marks.lookup target with
    | none => .error (.unknownJumpTarget target)
    | some marker =>
      let destination := marker + adjust.toNat
      if finish < destination then .error (.jumpPastEnd destination finish)
      else
        match int32? (destination - s.finish) with
        | some d => .ok (some (slot, d))
        | none => .error (.jumpTooFar (destination - s.finish))
  | _ => .ok none

/-- The places of the references of a routine from a place on. -/
def referencesFrom : Slot → Routine → List Slot
  | _, [] => []
  | slot, i :: r =>
    let rest := referencesFrom { slot with index := slot.index + 1 } r
    match i with
    | .symbolic (.jumpPush ..) => slot :: rest
    | _ => rest

/-- The places of the references of routines numbered from `k`. -/
def references : Nat → List Routine → List Slot
  | _, [] => []
  | k, r :: rs => referencesFrom ⟨k, 0⟩ r ++ references (k + 1) rs

def isTarget : Instr → Bool
  | .symbolic (.jumpTarget _) => true
  | _ => false

/-- Replaces references to markers by distances and deletes the markers. Answers how many jumps
were changed. -/
def remove (base : UInt32) (rs : List Routine) : Except Error (Nat × List Routine) := do
  let start : Int := base.toNat
  let finish := (layout start rs).2
  let marks := markers start rs
  match duplicate? [] (marks.map Prod.fst) with
  | some id => throw (.duplicateJumpTarget id)
  | none =>
    let found ← (sites 0 start rs).mapM (distance marks finish)
    let lowered := found.filterMap id
    let paired := lowered.map Prod.fst
    match (references 0 rs).find? fun slot => slot ∉ paired with
    | some slot => throw (.jumpPushUnpaired slot.routine slot.index)
    | none =>
      let changes := lowered.map fun (slot, d) => (slot, Instr.op (.pushInt32 d))
      return (lowered.length, (setAll rs changes).map fun r => r.filter fun i => !isTarget i)

end ScriptImage.Jumps
