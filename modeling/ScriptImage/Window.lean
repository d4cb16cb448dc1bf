import ScriptImage.Encoding
import ScriptImage.Reader

/-!
# Windows over shared buffers

A window is a range of a buffer with a cursor, a byte order and a read-only flag.  Any
number of windows may look at one buffer, and what is written through one is seen through
the others.  Every access is checked against the window, so that

    start + length ≤ size of the buffer   and   offset ≤ length

hold at all times.  Writing asks first whether the window may be written at all.
-/

namespace ScriptImage

/-- The contents of the buffers, by number. -/
structure Memory where
  buffers : List (List UInt8)
  deriving DecidableEq, Repr

/-- A range of a buffer, with a cursor counted from the start of the range. -/
structure Window where
  buffer : Nat
  start : Nat
  length : Nat
  offset : Nat
  order : ByteOrder
  readOnly : Bool
  deriving DecidableEq, Repr

/-- The memory and the window through which it is accessed. -/
structure Focus where
  memory : Memory
  window : Window
  deriving DecidableEq, Repr

/-- Computations through a window; what was done before a failure stays done. -/
abbrev WindowM := EStateM Error Focus

/-! ## Scalars -/

/-- The widths of scalars. -/
inductive ScalarWidth where
  | one
  | two
  | four
  | eight
  deriving DecidableEq, Repr

def ScalarWidth.size : ScalarWidth → Nat
  | one => 1
  | two => 2
  | four => 4
  | eight => 8

/-- How the bits of a scalar are meant. -/
inductive ScalarKind where
  | unsigned
  | signed
  | float
  deriving DecidableEq, Repr

structure Scalar where
  kind : ScalarKind
  width : ScalarWidth
  deriving DecidableEq, Repr

/-- The values of a scalar type are bit patterns. -/
abbrev Scalar.Bits (s : Scalar) := BitVec (8 * s.width.size)

def Scalar.stored (s : Scalar) (order : ByteOrder) (v : s.Bits) : List UInt8 :=
  order.encode s.width.size v.toNat

def Scalar.ofBytes (s : Scalar) (order : ByteOrder) (bytes : List UInt8) : s.Bits :=
  BitVec.ofNat _ (order.decode bytes)

/-! ## Memory -/

namespace Memory

def buffer (m : Memory) (k : Nat) : List UInt8 :=
  m.buffers[k]?.getD []

/-- Overwrites bytes from a position on. -/
def splice (content : List UInt8) (position : Nat) (bytes : List UInt8) : List UInt8 :=
  content.take position ++ bytes ++ content.drop (position + bytes.length)

def store (m : Memory) (k position : Nat) (bytes : List UInt8) : Memory :=
  ⟨m.buffers.modify k fun content => splice content position bytes⟩

end Memory

/-! ## Windows -/

namespace Window

def whole (buffer length : Nat) (order : ByteOrder) : Window :=
  ⟨buffer, 0, length, 0, order, false⟩

def content (w : Window) (m : Memory) : List UInt8 :=
  ((m.buffer w.buffer).drop w.start).take w.length

/-- The number of bytes from the cursor to the end. -/
def remaining (w : Window) : Nat :=
  w.length - w.offset

/-- Fails unless `size` bytes from a position lie in the window. -/
def checkRange (w : Window) (access : Access) (position size : Nat) : Except Error Unit :=
  if position + size ≤ w.length then .ok ()
  else .error (.outsideWindow access size position w.length)

/-- Fails if the window is read-only. -/
def checkWritable (w : Window) (access : Access) : Except Error Unit :=
  if w.readOnly then .error (.readOnlyWindow access) else .ok ()

/-- The part of the window from a position on. A window that is read-only gives only read-only
ones. -/
def part (w : Window) (position length : Nat) (readOnly : Bool) : Window :=
  { w with start := w.start + position, length, offset := 0, readOnly := w.readOnly || readOnly }

/-- The bytes from the cursor on, for a reader. -/
def cursor (w : Window) (m : Memory) : Cursor :=
  ⟨w.offset, (w.content m).drop w.offset⟩

def orderName : ByteOrder → String
  | .little => "Little"
  | .big => "Big"

def text (w : Window) : String :=
  s!"BinaryView \x7b start: {w.start}, length: {w.length}, offset: {w.offset}, " ++
    s!"endian: {orderName w.order}, readonly: {w.readOnly} \x7d"

/-- The first position at which two contents differ; the shorter length if one begins with the
other, and nothing if they are equal. -/
def firstDifference? (a b : List UInt8) : Option Nat :=
  match (a.zip b).findIdx? fun (x, y) => x != y with
  | some k => some k
  | none => if a.length = b.length then none else some (min a.length b.length)

end Window

/-! ## Access through a window -/

namespace WindowM

/-- Takes over the outcome of a check. -/
def lift {α : Type} : Except Error α → WindowM α
  | .ok a => pure a
  | .error e => throw e

def window : WindowM Window := do
  return (← get).window

def modifyWindow (f : Window → Window) : WindowM Unit :=
  modify fun s => { s with window := f s.window }

def advance (n : Nat) : WindowM Unit :=
  modifyWindow fun w => { w with offset := w.offset + n }

def content : WindowM (List UInt8) := do
  let s ← get
  return s.window.content s.memory

def getBytes (position n : Nat) : WindowM (List UInt8) := do
  lift ((← window).checkRange .read position n)
  return ((← content).drop position).take n

def setBytes (position : Nat) (bytes : List UInt8) : WindowM Unit := do
  let w ← window
  lift (w.checkWritable .write)
  lift (w.checkRange .write position bytes.length)
  modify fun s => { s with memory := s.memory.store w.buffer (w.start + position) bytes }

def readBytes (n : Nat) : WindowM (List UInt8) := do
  let bytes ← getBytes (← window).offset n
  advance n
  return bytes

def writeBytes (bytes : List UInt8) : WindowM Unit := do
  setBytes (← window).offset bytes
  advance bytes.length

/-- The byte order asked for, or that of the window. -/
def orderOr (order : Option ByteOrder) : WindowM ByteOrder := do
  return order.getD (← window).order

def getScalar (s : Scalar) (order : Option ByteOrder) (position : Nat) : WindowM s.Bits := do
  let order ← orderOr order
  return s.ofBytes order (← getBytes position s.width.size)

def setScalar (s : Scalar) (order : Option ByteOrder) (position : Nat) (v : s.Bits) :
    WindowM Unit := do
  setBytes position (s.stored (← orderOr order) v)

def readScalar (s : Scalar) (order : Option ByteOrder) : WindowM s.Bits := do
  let v ← getScalar s order (← window).offset
  advance s.width.size
  return v

def writeScalar (s : Scalar) (order : Option ByteOrder) (v : s.Bits) : WindowM Unit := do
  setScalar s order (← window).offset v
  advance s.width.size

def seek (position : Nat) : WindowM Unit := do
  let w ← window
  if w.length < position then throw (.cursorPastEnd position w.length)
  modifyWindow fun w => { w with offset := position }

def skip (n : Nat) : WindowM Unit := do
  let w ← window
  lift (w.checkRange .skip w.offset n)
  advance n

/-- The part of the window with `n` bytes from a position on. -/
def getPart (position n : Nat) (readOnly : Bool) : WindowM Window := do
  let w ← window
  lift (w.checkRange .subView position n)
  return w.part position n readOnly

/-- The part of the window with the next `n` bytes. -/
def readPart (n : Nat) (readOnly : Bool) : WindowM Window := do
  let part ← getPart (← window).offset n readOnly
  advance n
  return part

/-- Runs a reader at the cursor. The cursor ends where the reader stopped, also if it failed. -/
def read {α : Type} (r : ByteOrder → Reader α) : WindowM α := fun s =>
  match r s.window.order (s.window.cursor s.memory) with
  | .ok a c => .ok a { s with window := { s.window with offset := c.offset } }
  | .error e c => .error e { s with window := { s.window with offset := c.offset } }

/-- Writes pieces one after the other, up to the first that does not fit. -/
def writePieces (pieces : List (List UInt8)) : WindowM Unit :=
  pieces.forM writeBytes

/-- Writes a structure at the cursor. Its announced size must fit; bytes written before it failed
stay, and the cursor moves only if it succeeds. -/
def writeStructure (announced : Nat) (encode : ByteOrder → Encoding) : WindowM Unit := do
  let w ← window
  lift (w.checkWritable .wholeWrite)
  lift (w.checkRange .wholeWrite w.offset announced)
  let e := encode w.order
  if w.remaining < e.bytes.length then
    throw (.outsideWindow .write e.bytes.length 0 w.remaining)
  modify fun s => { s with memory := s.memory.store w.buffer (w.start + w.offset) e.bytes }
  let _ ← lift (Encoding.announced announced e).toExcept
  advance announced

end WindowM

end ScriptImage
