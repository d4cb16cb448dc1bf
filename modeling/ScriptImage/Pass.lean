import ScriptImage.Image
import ScriptImage.Pass.Branches
import ScriptImage.Pass.Inlining
import ScriptImage.Pass.Jumps

/-!
# Passes

Six kinds of raw operands can be turned into symbolic ones and back.  A pass on an image
does that for one kind; it answers how many instructions it changed, and changes nothing
if it fails.  `Image.symbolize` and `Image.lower` run a selection of them.
-/

namespace ScriptImage

/-- What a pass is about. -/
inductive Subject where
  | strings
  | symbols
  | globals
  | classes
  | branches
  | jumps
  deriving DecidableEq, Repr

/-- All subjects, in the order in which symbolic operands are added. -/
def Subject.all : List Subject :=
  [.strings, .symbols, .globals, .classes, .branches, .jumps]

/-- A pass: it adds symbolic operands of one kind or removes them. -/
inductive Pass where
  | add (s : Subject)
  | remove (s : Subject)
  deriving DecidableEq, Repr

/-- Which subjects a run of passes is about. -/
structure PassSelection where
  strings : Bool
  symbols : Bool
  globals : Bool
  classes : Bool
  branches : Bool
  jumps : Bool
  deriving DecidableEq, Repr

namespace PassSelection

def everything : PassSelection :=
  ⟨true, true, true, true, true, true⟩

def nothing : PassSelection :=
  ⟨false, false, false, false, false, false⟩

def includes (s : PassSelection) : Subject → Bool
  | .strings => s.strings
  | .symbols => s.symbols
  | .globals => s.globals
  | .classes => s.classes
  | .branches => s.branches
  | .jumps => s.jumps

/-- The selected subjects, in the order in which symbolic operands are added. -/
def subjects (s : PassSelection) : List Subject :=
  Subject.all.filter s.includes

end PassSelection

namespace Image

/-- Puts other routines in the place of the routines; stored offsets stay. -/
def withRoutines (image : Image) (rs : List Routine) : Image :=
  { image with code := { image.code with routines := rs } }

end Image

namespace Pass

/-- What a pass makes of an image, and how many instructions it changes. -/
def apply (p : Pass) (image : Image) : Except Error (Nat × Image) :=
  let h := image.header
  let rs := image.code.routines
  let base := image.code.base
  let keep (result : Except Error (Nat × List Routine)) : Except Error (Nat × Image) :=
    result.map fun (n, rs) => (n, image.withRoutines rs)
  match p with
  | .add .strings => keep (Inlining.add .strings h.strings rs)
  | .add .symbols => keep (Inlining.add .symbols h.symbols rs)
  | .add .globals => keep (Inlining.add .globals h.globals rs)
  | .add .classes => keep (ClassNames.add h.classes rs)
  | .add .branches => keep (Branches.add rs)
  | .add .jumps => keep (Jumps.add base rs)
  | .remove .strings =>
    (Inlining.remove .strings h.strings rs).map fun (strings, n, rs) =>
      (n, { image.withRoutines rs with header := { h with strings } })
  | .remove .symbols =>
    (Inlining.remove .symbols h.symbols rs).map fun (symbols, n, rs) =>
      (n, { image.withRoutines rs with header := { h with symbols } })
  | .remove .globals =>
    (Inlining.remove .globals h.globals rs).map fun (globals, n, rs) =>
      (n, { image.withRoutines rs with header := { h with globals } })
  | .remove .classes => keep (ClassNames.remove h.classes rs)
  | .remove .branches => keep (Branches.remove rs)
  | .remove .jumps => keep (Jumps.remove base rs)

/-- Runs a pass and answers how many instructions it changed. -/
def run (p : Pass) : ImageM Nat := do
  let (n, image) ← Image.lift (p.apply (← get))
  set image
  return n

end Pass

namespace Image

/-- Adds symbolic operands for the selected subjects; stops at the first pass that fails. -/
def symbolize (s : PassSelection) : ImageM Unit :=
  s.subjects.forM fun subject => do
    let _ ← (Pass.add subject).run

/-- Removes symbolic operands for the selected subjects in the opposite order, then updates the
offsets. -/
def lower (s : PassSelection) : ImageM Unit := do
  s.subjects.reverse.forM fun subject => do
    let _ ← (Pass.remove subject).run
  updateOffsets

end Image

end ScriptImage
