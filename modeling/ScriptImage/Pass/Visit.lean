import ScriptImage.Code

/-!
# Visiting instruction by instruction

Many passes visit the instructions in order and replace some of them.  `Visit.routine`
and `Visit.routines` do the visiting: a step sees the state so far, the position of the
instruction in its routine and the instruction, and may give a replacement; the first
step that fails decides.  The number of replacements is counted.
-/

namespace ScriptImage.Visit

variable {σ : Type}

/-- A step: what to do at an instruction. -/
abbrev Step (σ : Type) := σ → Int → Instr → Except Error (σ × Option Instr)

/-- Visits the instructions of a routine that begins at position `p`. -/
def routine (step : Step σ) : σ → Int → Routine → Except Error (σ × Nat × Routine)
  | s, _, [] => .ok (s, 0, [])
  | s, p, i :: r => do
    let (s', change) ← step s p i
    let (s'', count, r') ← routine step s' (p + i.size) r
    match change with
    | some j => return (s'', count + 1, j :: r')
    | none => return (s'', count, i :: r')

/-- Visits the instructions of routines in order; positions are counted from the beginning of each
routine. -/
def routines (step : Step σ) : σ → List Routine → Except Error (σ × Nat × List Routine)
  | s, [] => .ok (s, 0, [])
  | s, r :: rs => do
    let (s', count, r') ← routine step s 0 r
    let (s'', count', rs') ← routines step s' rs
    return (s'', count + count', r' :: rs')

/-- Visits with a step that keeps no state and does not look at positions. -/
def each (change : Instr → Except Error (Option Instr)) (rs : List Routine) :
    Except Error (Nat × List Routine) :=
  (routines (fun (_ : Unit) _ i => (change i).map fun j => ((), j)) () rs).map Prod.snd

end ScriptImage.Visit
