import ScriptImage.Reader

/-!
# Operands

The operands of an instruction are a tuple of typed values, one for each field of its
signature.  Everything about operands follows the signature: their cells, their check
against given cells, their bytes.

    Operands.ofCells? fs (xs.toCells) = some xs
    Operands.ofCells? fs cs = some xs → xs.toCells = cs
-/

namespace ScriptImage

/-- A field of an instruction: what it is called and what it holds. -/
structure Field where
  label : String
  type : CellType
  deriving DecidableEq, Repr

/-- One value per field. -/
@[reducible]
def Operands : List Field → Type
  | [] => Unit
  | f :: fs => f.type.Carrier × Operands fs

namespace Operands

instance decEq : (fs : List Field) → DecidableEq (Operands fs)
  | [] => inferInstanceAs (DecidableEq Unit)
  | f :: fs =>
    have := decEq fs
    inferInstanceAs (DecidableEq (f.type.Carrier × Operands fs))

/-- The operands as cells, in order. -/
def toCells : {fs : List Field} → Operands fs → List Cell
  | [], _ => []
  | f :: _, (v, rest) => ⟨f.type, v⟩ :: toCells rest

/-- The operands that are exactly these cells, if number and types agree. -/
def ofCells? : (fs : List Field) → List Cell → Option (Operands fs)
  | [], [] => some ()
  | f :: fs, c :: cs =>
    if h : c.type = f.type then (ofCells? fs cs).map fun rest => (h ▸ c.value, rest) else none
  | _, _ => none

/-- The position and the first cell whose type is not the one its field declares; positions are
counted from `k`. -/
def mismatch? : Nat → List Field → List Cell → Option (Nat × CellType × Cell)
  | k, f :: fs, c :: cs => if c.type = f.type then mismatch? (k + 1) fs cs else some (k, f.type, c)
  | _, _, _ => none

/-- Operands from cells. Their number is judged first, then their types from left to right;
`name` is the instruction's, for messages. -/
def ofCells (name : String) (fs : List Field) (cs : List Cell) : Except Error (Operands fs) :=
  match ofCells? fs cs with
  | some xs => .ok xs
  | none =>
    match mismatch? 0 fs cs with
    | some (k, expected, given) =>
      if fs.length = cs.length then .error (.wrongArgument name k expected given)
      else .error (.wrongArity name fs.length cs.length)
    | none => .error (.wrongArity name fs.length cs.length)

def stored (order : ByteOrder) : {fs : List Field} → Operands fs → List UInt8
  | [], _ => []
  | f :: _, (v, rest) => f.type.stored order v ++ stored order rest

def read (order : ByteOrder) : (fs : List Field) → Reader (Operands fs)
  | [] => pure ()
  | f :: fs => do
    let v ← f.type.read order
    let rest ← read order fs
    return (v, rest)

/-! ## Lemmas -/

theorem ofCells?_toCells {fs : List Field} (xs : Operands fs) : ofCells? fs xs.toCells = some xs := by
  induction fs with
  | nil => rfl
  | cons f fs ih =>
    obtain ⟨v, rest⟩ := xs
    simp [toCells, ofCells?, ih]

theorem toCells_of_ofCells? {fs : List Field} {cs : List Cell} {xs : Operands fs}
    (h : ofCells? fs cs = some xs) : xs.toCells = cs := by
  induction fs generalizing cs with
  | nil =>
    cases cs with
    | nil => rfl
    | cons c cs => cases h
  | cons f fs ih =>
    cases cs with
    | nil => cases h
    | cons c cs =>
      obtain ⟨t, v⟩ := c
      simp only [ofCells?] at h
      split at h
      · rename_i ht
        obtain ⟨rest, hrest, rfl⟩ := Option.map_eq_some_iff.1 h
        subst ht
        simp [toCells, ih hrest]
      · cases h

theorem types_toCells {fs : List Field} (xs : Operands fs) :
    xs.toCells.map Cell.type = fs.map Field.type := by
  induction fs with
  | nil => rfl
  | cons f fs ih =>
    obtain ⟨v, rest⟩ := xs
    simp [toCells, ih]

/-- Cells are operands if their types are those of the fields. -/
theorem exists_toCells {fs : List Field} {cs : List Cell} (h : cs.map Cell.type = fs.map Field.type) :
    ∃ xs : Operands fs, xs.toCells = cs := by
  induction fs generalizing cs with
  | nil => exact ⟨(), (List.map_eq_nil_iff.1 h).symm⟩
  | cons f fs ih =>
    cases cs with
    | nil => cases h
    | cons c cs =>
      obtain ⟨t, v⟩ := c
      obtain ⟨rfl, hrest⟩ := List.cons.inj h
      obtain ⟨xs, hxs⟩ := ih hrest
      exact ⟨(v, xs), by rw [toCells, hxs]⟩

theorem ofCells_eq_ok_iff {name : String} {fs : List Field} {cs : List Cell} {xs : Operands fs} :
    ofCells name fs cs = .ok xs ↔ xs.toCells = cs := by
  unfold ofCells
  constructor
  · intro h
    split at h
    · next hcells =>
      cases h
      exact toCells_of_ofCells? hcells
    · split at h
      · split at h <;> cases h
      · cases h
  · rintro rfl
    rw [ofCells?_toCells]

/-- A failure tells of a wrong number of cells or of a wrong type. -/
theorem kind_of_ofCells {name : String} {fs : List Field} {cs : List Cell} {e : Error}
    (h : ofCells name fs cs = .error e) : e.kind = .value := by
  unfold ofCells at h
  split at h
  · cases h
  · split at h
    · split at h <;> cases h <;> rfl
    · cases h
      rfl

end Operands

end ScriptImage
