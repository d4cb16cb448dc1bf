import ScriptImage.Cell.Build

/-!
# Reading from the front of a byte sequence

A `Reader` consumes bytes from a cursor.  When it fails, the cursor stays where the
failing read found it.  `Reader.nested` hands the remaining bytes to a reader that
counts positions from zero, and leaves the cursor alone if that reader fails.
-/

namespace ScriptImage

/-- A position in a byte sequence and the bytes from there to the end. -/
structure Cursor where
  offset : Nat
  rest : List UInt8
  deriving DecidableEq, Repr

def Cursor.length (c : Cursor) : Nat :=
  c.offset + c.rest.length

/-- A computation that consumes bytes. -/
abbrev Reader := EStateM Error Cursor

namespace Reader

/-- The next `n` bytes. -/
def bytes (n : Nat) : Reader (List UInt8) := fun c =>
  let chunk := c.rest.take n
  if chunk.length = n then .ok chunk ⟨c.offset + n, c.rest.drop n⟩
  else .error (.outsideWindow .read n c.offset c.length) c

/-- The next word of `n` bytes. -/
def word (order : ByteOrder) (n : Nat) : Reader Nat := do
  let bs ← bytes n
  return order.decode bs

def byte : Reader UInt8 := do
  let n ← word .little 1
  return UInt8.ofNat n

def uint16 (order : ByteOrder) : Reader UInt16 := do
  let n ← word order 2
  return UInt16.ofNat n

def uint32 (order : ByteOrder) : Reader UInt32 := do
  let n ← word order 4
  return UInt32.ofNat n

/-- Runs a reader on the remaining bytes, with positions counted from here. -/
def nested {α : Type} (r : Reader α) : Reader α := fun c =>
  match r ⟨0, c.rest⟩ with
  | .ok a c' => .ok a ⟨c.offset + c'.offset, c'.rest⟩
  | .error e _ => .error e c

def many {α : Type} (r : Reader α) : Nat → Reader (List α)
  | 0 => pure []
  | n + 1 => do
    let a ← r
    let rest ← many r n
    return a :: rest

/-- Runs a reader until no bytes are left or it fails: what was read, where it stopped, and the
error if there was one. `fuel` bounds how often it runs. -/
def untilFailure {α : Type} (r : Reader α) : Nat → Cursor → List α × Cursor × Option Error
  | 0, c => ([], c, none)
  | fuel + 1, c =>
    if c.rest.isEmpty then ([], c, none)
    else
      match r c with
      | .error e c' => ([], c', some e)
      | .ok a c' =>
        let (rest, last, failure) := untilFailure r fuel c'
        (a :: rest, last, failure)

/-- Fails with the error of a failed construction. -/
def lift {α : Type} : Except Error α → Reader α
  | .ok a => pure a
  | .error e => throw e

def runOn {α : Type} (r : Reader α) (input : List UInt8) : Except Error (α × Cursor) :=
  match r ⟨0, input⟩ with
  | .ok a c => .ok (a, c)
  | .error e _ => .error e

end Reader

/-! ## Strings and cells -/

/-- Reads a string: length, content and, where the form has it, a closing NUL. -/
def ByteString.read (order : ByteOrder) (form : StringForm) : Reader (ByteString form) := do
  let length ← Reader.word order form.width.size
  let content ← Reader.bytes length
  if form.terminated then
    let last ← Reader.byte
    if last ≠ 0 then throw (.missingTerminator form last)
  Reader.lift (ByteString.ofBytes form content)

def CellType.read (order : ByteOrder) : (t : CellType) → Reader t.Carrier
  | .int8 => do
    let n ← Reader.word order 1
    return (UInt8.ofNat n).toInt8
  | .uint8 => do
    let n ← Reader.word order 1
    return UInt8.ofNat n
  | .int16 => do
    let n ← Reader.word order 2
    return (UInt16.ofNat n).toInt16
  | .uint16 => do
    let n ← Reader.word order 2
    return UInt16.ofNat n
  | .int32 => do
    let n ← Reader.word order 4
    return (UInt32.ofNat n).toInt32
  | .uint32 | .float32 => do
    let n ← Reader.word order 4
    return UInt32.ofNat n
  | .float64 => do
    let n ← Reader.word order 8
    return UInt64.ofNat n
  | .string form => ByteString.read order form

def Cell.read (order : ByteOrder) (t : CellType) : Reader Cell := do
  let v ← t.read order
  return ⟨t, v⟩

/-! ## Lemmas -/

theorem Reader.bytes_append (chunk rest : List UInt8) (offset : Nat) :
    Reader.bytes chunk.length ⟨offset, chunk ++ rest⟩ =
      .ok chunk ⟨offset + chunk.length, rest⟩ := by
  simp [Reader.bytes]

theorem Reader.bytes_eq_ok_iff {n : Nat} {c c' : Cursor} {chunk : List UInt8} :
    Reader.bytes n c = .ok chunk c' ↔
      chunk.length = n ∧ c.rest = chunk ++ c'.rest ∧ c'.offset = c.offset + n := by
  obtain ⟨offset, rest⟩ := c
  obtain ⟨offset', rest'⟩ := c'
  unfold Reader.bytes
  simp only
  split
  · rename_i h
    simp only [EStateM.Result.ok.injEq, Cursor.mk.injEq]
    constructor
    · rintro ⟨rfl, rfl, rfl⟩
      exact ⟨h, (List.take_append_drop n rest).symm, rfl⟩
    · rintro ⟨rfl, rfl, rfl⟩
      simp
  · rename_i h
    simp only [reduceCtorEq, false_iff]
    rintro ⟨rfl, rfl, -⟩
    simp at h

end ScriptImage
