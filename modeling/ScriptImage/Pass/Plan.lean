import ScriptImage.Pass

/-!
# Plans

An image that is edited in place must not be left half edited.  So a pass decides on
everything before it changes anything: `Pass.plan` looks at the image and may fail, and
`Plan.carryOut` then writes the header and sets, drops and inserts instructions, one after
the other.  A write goes to a place; if the place is not there, the run stops with
whatever has been written so far.

    p.plan image = .ok plan → p.perform image = plan.carryOut image, up to the count
-/

namespace ScriptImage

/-- What a pass has decided to do. -/
structure Plan where
  /-- The header, with the entries that are to be added to its pools. -/
  header : Header
  /-- The instructions to set, with their places. -/
  changes : List (Slot × Instr)
  /-- The markers to drop. -/
  drops : Instr → Bool
  /-- The markers to insert. Their places are meant before any insertion. -/
  inserts : List (Slot × Instr)

/-! ## Writing -/

/-- Why a run on an image in place stops. -/
inductive Stop where
  /-- The image does not admit what is asked for. -/
  | refused (e : Error)
  /-- The place to write to is not there. -/
  | misplaced (slot : Slot)
  deriving DecidableEq

/-- Computations on an image in place; what was written before a stop stays written. -/
abbrev InPlace := EStateM Stop Image

namespace InPlace

/-- Takes over the outcome of a computation that writes nothing. -/
def check {α : Type} : Except Error α → InPlace α
  | .ok a => pure a
  | .error e => throw (.refused e)

/-- Takes over a computation on the image. -/
def ofImageM {α : Type} (x : ImageM α) : InPlace α := fun image =>
  match x image with
  | .ok a image' => .ok a image'
  | .error e image' => .error (.refused e) image'

/-- Rewrites the routine that a place is in, which has to be of a certain length at least. -/
def rewrite (slot : Slot) (room : Nat) (f : Routine → Routine) : InPlace Unit := do
  let image ← get
  let rs := image.code.routines
  if (rs[slot.routine]?).any fun r => room ≤ r.length then
    set (image.withRoutines (rs.modify slot.routine f))
  else throw (.misplaced slot)

def put (x : Slot × Instr) : InPlace Unit :=
  rewrite x.1 (x.1.index + 1) fun r => r.set x.1.index x.2

/-- Inserts an instruction before a place or at the end of a routine. -/
def insert (x : Slot × Instr) : InPlace Unit :=
  rewrite x.1 x.1.index fun r => r.insertIdx x.1.index x.2

end InPlace

def Plan.carryOut (plan : Plan) : InPlace Unit := do
  modify fun image => { image with header := plan.header }
  plan.changes.forM InPlace.put
  modify fun image =>
    image.withRoutines (image.code.routines.map fun r => r.filter fun i => !plan.drops i)
  (plan.inserts.mergeSort fun a b => !a.1.before b.1).forM InPlace.insert

/-! ## Deciding -/

namespace Visit

variable {σ : Type}

/-- The replacements that a step gives in a routine, with their places; `slot` is the place of the
first instruction and `p` its position. -/
def changesFrom (step : Step σ) : σ → Slot → Int → Routine → Except Error (σ × List (Slot × Instr))
  | s, _, _, [] => .ok (s, [])
  | s, slot, p, i :: r => do
    let (s', change) ← step s p i
    let (s'', changes) ← changesFrom step s' { slot with index := slot.index + 1 } (p + i.size) r
    match change with
    | some j => return (s'', (slot, j) :: changes)
    | none => return (s'', changes)

/-- The replacements that a step gives in routines that are numbered from `k`. -/
def changes (step : Step σ) : σ → Nat → List Routine → Except Error (σ × List (Slot × Instr))
  | s, _, [] => .ok (s, [])
  | s, k, r :: rs => do
    let (s', changes₁) ← changesFrom step s ⟨k, 0⟩ 0 r
    let (s'', changes₂) ← changes step s' (k + 1) rs
    return (s'', changes₁ ++ changes₂)

/-- The replacements of a step that keeps no state and does not look at positions. -/
def changesEach (change : Instr → Except Error (Option Instr)) (rs : List Routine) :
    Except Error (List (Slot × Instr)) :=
  (changes (fun (_ : Unit) _ i => (change i).map fun j => ((), j)) () 0 rs).map Prod.snd

end Visit

namespace Branches

open Targets

/-- The references to set and the markers to insert in routines numbered from `k`; `next` is the first
free identifier. -/
def planAddFrom : Nat → UInt32 → List Routine →
    Except Error (List (Slot × Instr) × List (Slot × Instr))
  | _, _, [] => .ok ([], [])
  | k, next, r :: rs => do
    let finish := (layout 0 [r]).2
    let bs := boundaries k 0 [r]
    let (ids, changes) ← Visit.changesFrom (addStep k bs finish) ⟨next, []⟩ ⟨k, 0⟩ 0 r
    let inserts ← ids.assigned.mapM fun (target, id) => do
      let slot ← markerSlot k r bs finish target
      return (slot, Instr.symbolic (.branchTarget id))
    let (changes', inserts') ← planAddFrom (k + 1) ids.next rs
    return (changes ++ changes', inserts ++ inserts')

def planAdd (rs : List Routine) : Except Error (List (Slot × Instr) × List (Slot × Instr)) := do
  let next ← nextId rs
  planAddFrom 0 next rs

/-- The distances to set in routines numbered from `k`, given the markers of the routines before
them. -/
def planRemoveFrom : Nat → List (UInt32 × Nat) → List Routine → Except Error (List (Slot × Instr))
  | _, _, [] => .ok []
  | k, seen, r :: rs => do
    let finish := (layout 0 [r]).2
    let marks := markersFrom 0 r
    let seen ← noteMarkers k seen marks
    let (_, changes) ← Visit.changesFrom (removeStep k marks finish) () ⟨k, 0⟩ 0 r
    let changes' ← planRemoveFrom (k + 1) seen rs
    return changes ++ changes'

def planRemove (rs : List Routine) : Except Error (List (Slot × Instr)) :=
  planRemoveFrom 0 [] rs

end Branches

namespace Jumps

open Targets

def planAdd (base : UInt32) (rs : List Routine) :
    Except Error (List (Slot × Instr) × List (Slot × Instr)) := do
  let start : Int := base.toNat
  let finish := (layout start rs).2
  let bs := boundaries 0 start rs
  let found ← (sites 0 start rs).mapM (resolve bs start finish)
  let pushes := found.filterMap id
  let next ← nextId rs
  let ids ← assignIds next [] (pushes.map Resolved.target)
  let inserts ← ids.mapM fun (target, id) => do
    let slot ← markerSlot rs bs finish target
    return (slot, Instr.symbolic (.jumpTarget id))
  let changes := pushes.map fun p =>
    (p.slot, Instr.symbolic (.jumpPush ((ids.lookup p.target).getD 0) p.adjust))
  return (changes, inserts)

def planRemove (base : UInt32) (rs : List Routine) : Except Error (List (Slot × Instr)) := do
  let start : Int := base.toNat
  let finish := (layout start rs).2
  let marks := markers start rs
  match duplicate? [] (marks.map Prod.fst) with
  | some id => throw (.duplicateJumpTarget id)
  | none =>
    let found ← (sites 0 start rs).mapM (distance marks finish)
    let lowered := found.filterMap id
    let paired := lowered.map Prod.fst
    match (references 0 rs).find? fun slot => slot ∉ paired with
    | some slot => throw (.jumpPushUnpaired slot.routine slot.index)
    | none => return lowered.map fun (slot, d) => (slot, Instr.op (.pushInt32 d))

end Jumps

namespace Pass

def plan (p : Pass) (image : Image) : Except Error Plan :=
  let h := image.header
  let rs := image.code.routines
  let base := image.code.base
  let replacing (header : Header) (changes : List (Slot × Instr)) : Plan :=
    ⟨header, changes, fun _ => false, []⟩
  let marking (x : List (Slot × Instr) × List (Slot × Instr)) : Plan :=
    ⟨h, x.1, fun _ => false, x.2⟩
  match p with
  | .add .strings => (Visit.changesEach (Inlining.embed .strings h.strings) rs).map (replacing h)
  | .add .symbols => (Visit.changesEach (Inlining.embed .symbols h.symbols) rs).map (replacing h)
  | .add .globals => (Visit.changesEach (Inlining.embed .globals h.globals) rs).map (replacing h)
  | .add .classes => (Visit.changesEach (ClassNames.embed h.classes) rs).map (replacing h)
  | .add .branches => (Branches.planAdd rs).map marking
  | .add .jumps => (Jumps.planAdd base rs).map marking
  | .remove .strings =>
    (Visit.changes (Inlining.extract .strings) h.strings 0 rs).map fun (strings, changes) =>
      replacing { h with strings } changes
  | .remove .symbols =>
    (Visit.changes (Inlining.extract .symbols) h.symbols 0 rs).map fun (symbols, changes) =>
      replacing { h with symbols } changes
  | .remove .globals =>
    (Visit.changes (Inlining.extract .globals) h.globals 0 rs).map fun (globals, changes) =>
      replacing { h with globals } changes
  | .remove .classes => (Visit.changesEach (ClassNames.extract h.classes) rs).map (replacing h)
  | .remove .branches => (Branches.planRemove rs).map fun changes => ⟨h, changes, Branches.isTarget, []⟩
  | .remove .jumps =>
    (Jumps.planRemove base rs).map fun changes => ⟨h, changes, Jumps.isTarget, []⟩

/-- Runs a pass in place and answers how many instructions it changed. -/
def perform (p : Pass) : InPlace Nat := do
  let plan ← InPlace.check (p.plan (← get))
  plan.carryOut
  return plan.changes.length

end Pass

end ScriptImage
