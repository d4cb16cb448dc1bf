import ScriptImage.Window

/-!
# Accesses in word arithmetic

Positions and lengths are words of 64 bits, so adding two of them can leave the words,
subtracting can fall below zero, and a range of a buffer can end behind it.  Here each
step of an access says which of these it risks.  Such a fault ends everything; an access
that is only refused is answered with its error.

    plus a b        overflow unless a + b is a word
    minus a b       overflow unless b ≤ a
    slice a b       outOfBounds unless a ≤ b ≤ size of the buffer

The accesses take the same steps in the same order as those of `WindowM`, whose arithmetic
is that of natural numbers and whose ranges are cut off at the end of a buffer.  A value is
read from, and written to, a window of its own on the bytes that remain.
-/

namespace ScriptImage

/-- The number of words. -/
def wordLimit : Nat := 2 ^ 64

/-- Why a computation ends early. -/
inductive Fault where
  /-- The access is refused with an error. -/
  | refused (e : Error)
  /-- A sum or a difference is not a word. -/
  | overflow
  /-- A range does not lie in its buffer. -/
  | outOfBounds
  deriving DecidableEq

/-- Computations through a window in word arithmetic. -/
abbrev MachineM := EStateM Fault Focus

namespace MachineM

variable {α : Type}

/-- Takes over the outcome of a check. -/
def lift : Except Error α → MachineM α
  | .ok a => pure a
  | .error e => throw (.refused e)

/-! ## Steps -/

/-- A sum of words. -/
def plus (a b : Nat) : MachineM Nat :=
  if a + b < wordLimit then pure (a + b) else throw .overflow

def minus (a b : Nat) : MachineM Nat :=
  if b ≤ a then pure (a - b) else throw .overflow

def window : MachineM Window := do
  return (← get).window

def modifyWindow (f : Window → Window) : MachineM Unit :=
  modify fun s => { s with window := f s.window }

/-- The bytes of the buffer from one place to another. -/
def slice (first last : Nat) : MachineM (List UInt8) := do
  let s ← get
  let buffer := s.memory.buffer s.window.buffer
  if first ≤ last ∧ last ≤ buffer.length then return (buffer.drop first).take (last - first)
  else throw .outOfBounds

/-- Overwrites the bytes of the buffer from one place to another with as many bytes. -/
def fill (first last : Nat) (bytes : List UInt8) : MachineM Unit := do
  let s ← get
  let buffer := s.memory.buffer s.window.buffer
  if first ≤ last ∧ last ≤ buffer.length ∧ bytes.length = last - first then
    set { s with memory := s.memory.store s.window.buffer first bytes }
  else throw .outOfBounds

/-- Refuses the access unless `size` bytes from a position lie in the window; an end that is no
word does not. -/
def checkRange (access : Access) (position size : Nat) : MachineM Unit := do
  let w ← window
  if position + size < wordLimit ∧ position + size ≤ w.length then pure ()
  else throw (.refused (.outsideWindow access size position w.length))

/-- Refuses the access if the window is read-only. -/
def checkWritable (access : Access) : MachineM Unit := do
  let w ← window
  if w.readOnly then throw (.refused (.readOnlyWindow access)) else pure ()

def advance (n : Nat) : MachineM Unit := do
  let offset ← plus (← window).offset n
  modifyWindow fun w => { w with offset }

/-- The number of bytes from the cursor to the end. -/
def remaining : MachineM Nat := do
  let w ← window
  minus w.length w.offset

/-! ## Bytes and words -/

/-- What `n` bytes from a position on spell. -/
def getWith (n : Nat) (decode : List UInt8 → α) (position : Nat) : MachineM α := do
  checkRange .read position n
  let first ← plus (← window).start position
  let last ← plus first n
  return decode (← slice first last)

/-- What the next `n` bytes spell. -/
def readWith (n : Nat) (decode : List UInt8 → α) : MachineM α := do
  let a ← getWith n decode (← window).offset
  advance n
  return a

def setBytes (position : Nat) (bytes : List UInt8) : MachineM Unit := do
  checkWritable .write
  checkRange .write position bytes.length
  let first ← plus (← window).start position
  let last ← plus first bytes.length
  fill first last bytes

/-- Overwrites the next bytes. -/
def writeBytes (bytes : List UInt8) : MachineM Unit := do
  setBytes (← window).offset bytes
  advance bytes.length

def content : MachineM (List UInt8) := do
  let w ← window
  let last ← plus w.start w.length
  slice w.start last

/-! ## Cursors and parts -/

def seek (position : Nat) : MachineM Unit := do
  let w ← window
  if w.length < position then throw (.refused (.cursorPastEnd position w.length))
  else modifyWindow fun w => { w with offset := position }

def skip (n : Nat) : MachineM Unit := do
  checkRange .skip (← window).offset n
  advance n

/-- The part of the window with `n` bytes from a position on. -/
def getPart (position n : Nat) (readOnly : Bool) : MachineM Window := do
  checkRange .subView position n
  let w ← window
  let start ← plus w.start position
  return { w with start, length := n, offset := 0, readOnly := w.readOnly || readOnly }

/-- The part of the window with the next `n` bytes. -/
def readPart (n : Nat) (readOnly : Bool) : MachineM Window := do
  let part ← getPart (← window).offset n readOnly
  advance n
  return part

/-! ## Structures -/

/-- Works through another window onto the memory and tells where its cursor ends. -/
def within (w : Window) (inner : MachineM α) : MachineM (α × Nat) := fun s =>
  match inner ⟨s.memory, w⟩ with
  | .ok a s' => .ok (a, s'.window.offset) ⟨s'.memory, s.window⟩
  | .error fault s' => .error fault ⟨s'.memory, s.window⟩

/-- The part of the window from the cursor to the end. -/
def rest : MachineM Window := do
  getPart (← window).offset (← remaining) false

/-- Reads a structure through a window of its own. The cursor stays if that fails. -/
def readStructure (inner : MachineM α) : MachineM α := do
  let (a, used) ← within (← rest) inner
  advance used
  return a

/-- Writes a structure, whose announced size must fit, through a window of its own. The cursor
stays if that fails. -/
def writeStructure (announced : Nat) (inner : MachineM Unit) : MachineM Unit := do
  checkWritable .wholeWrite
  let size ← plus 0 announced
  checkRange .wholeWrite (← window).offset size
  let (_, used) ← within (← rest) inner
  if used = size then advance size else throw (.refused (.announcedSize size used))

end MachineM

end ScriptImage
