import ScriptImage.Header
import ScriptImage.Code
import ScriptImage.Window

/-!
# Workspaces

A workspace holds buffers and a numbered list of windows over them.  A `Request` names
everything that can be done with a window; `Workspace.serve` does it.  A request that fails
may have moved a cursor or written bytes before it failed, and nothing else.
-/

namespace ScriptImage

/-- What can be read at a cursor. -/
inductive Readable where
  | cell (type : CellType)
  | string (form : StringForm)
  | pool (form : StringForm)
  | classes (width : CountWidth)
  | code (base : UInt32) (expected : List UInt32)
  | instr
  | function
  | functions
  | header

/-- What can be written as a structure. -/
inductive Writable where
  | instr (i : Instr)
  | routine (r : Routine)
  | code (c : Code)
  | function (f : FunctionEntry)
  | functions (fs : List FunctionEntry)
  | classes (t : ClassTable)
  | pool (p : StringPool)
  | header (h : Header)
  /-- Bytes that announce a size, which may be wrong. -/
  | raw (announced : Nat) (bytes : List UInt8)

def Writable.size : Writable → Nat
  | instr i => i.size
  | routine r => r.size
  | code c => c.size
  | function f => f.size
  | functions fs => FunctionEntry.tableSize fs
  | classes t => t.size
  | pool p => p.size
  | header h => h.size
  | raw announced _ => announced

def Writable.encode (order : ByteOrder) : Writable → Encoding
  | instr i => i.encode order
  | routine r => r.encode order
  | code c => c.encode order
  | function f => f.encode order
  | functions fs => FunctionEntry.encodeTable order fs
  | classes t => t.encode order
  | pool p => p.encode order
  | header h => h.encode order
  | raw _ bytes => .ofBytes bytes

/-- What can be done with a window. -/
inductive Request where
  /-- A new window on a new buffer of zeros. -/
  | zeros (length : Nat) (order : ByteOrder)
  /-- A new window on a new buffer with these bytes. -/
  | ofBytes (bytes : List UInt8) (order : ByteOrder)
  /-- A new window on a new buffer with the bytes of a hexadecimal text. -/
  | ofHex (text : String) (order : ByteOrder)
  /-- A second window like this one. -/
  | duplicate
  | getPart (position length : Nat) (readOnly : Bool)
  | readPart (length : Nat) (readOnly : Bool)
  | get (s : Scalar) (order : Option ByteOrder) (position : Nat)
  | set (s : Scalar) (order : Option ByteOrder) (position : Nat) (v : s.Bits)
  | peek (s : Scalar)
  | poke (s : Scalar) (v : s.Bits)
  | read (s : Scalar) (order : Option ByteOrder)
  | write (s : Scalar) (order : Option ByteOrder) (v : s.Bits)
  | getBytes (position length : Nat)
  | readBytes (length : Nat)
  | setBytes (position : Nat) (bytes : List UInt8)
  | writeBytes (bytes : List UInt8)
  | content
  /-- Overwrites with the content of another window. -/
  | setWindow (position source : Nat)
  | writeWindow (source : Nat)
  | sharesBuffer (other : Nat)
  | firstDifference (other : Nat)
  | seek (position : Nat)
  | skip (length : Nat)
  | setOrder (order : ByteOrder)
  | makeReadOnly
  | describe
  | readStructure (what : Readable)
  | writeCell (c : Cell)
  | writeStructure (what : Writable)
  | detectOrder

/-- What a request answers. -/
inductive Reply where
  | done
  /-- There is no such window. -/
  | noWindow
  /-- The number of a new window. -/
  | opened (window : Nat)
  | scalar (s : Scalar) (v : s.Bits)
  | bytes (bytes : List UInt8)
  | flag (b : Bool)
  | position (p : Option Nat)
  | window (w : Window)
  | order (o : ByteOrder)
  | cell (c : Cell)
  | string (form : StringForm) (s : ByteString form)
  | pool (p : StringPool)
  | classes (t : ClassTable)
  | code (c : Code)
  | instr (i : Instr)
  | function (f : FunctionEntry)
  | functions (fs : List FunctionEntry)
  | header (h : Header)

/-- The reader of a structure. Instructions, functions and headers count positions from their own
beginning and leave the cursor alone if they fail. -/
def Readable.reader (order : ByteOrder) : Readable → Reader Reply
  | cell t => return .cell (← Cell.read order t)
  | string form => return .string form (← ByteString.read order form)
  | pool form => return .pool (← StringPool.read order form)
  | classes width => return .classes (← ClassTable.read order width)
  | code base expected => return .code (← Code.read order base expected)
  | instr => return .instr (.op (← Reader.nested (Op.read order)))
  | function => return .function (← Reader.nested (FunctionEntry.read order))
  | functions => return .functions (← Reader.nested (FunctionEntry.readTable order))
  | header => return .header (← Reader.nested (Header.read order))

/-- Buffers and the windows over them. -/
structure Workspace where
  memory : Memory
  windows : List Window
  deriving DecidableEq, Repr

/-- Computations on a workspace; what was done before a failure stays done. -/
abbrev WorkspaceM := EStateM Error Workspace

namespace Workspace

def empty : Workspace :=
  ⟨⟨[]⟩, []⟩

/-- Adds a window and answers its number. -/
def openWindow (w : Window) : WorkspaceM Reply := fun s =>
  .ok (.opened s.windows.length) { s with windows := s.windows ++ [w] }

/-- Adds a buffer with a window on all of it. -/
def openBuffer (bytes : List UInt8) (order : ByteOrder) : WorkspaceM Reply := fun s =>
  openWindow (.whole s.memory.buffers.length bytes.length order)
    { s with memory := ⟨s.memory.buffers ++ [bytes]⟩ }

/-- Works through the window with the given number. -/
def through {α : Type} (k : Nat) (act : WindowM α) : WorkspaceM (Option α) := fun s =>
  match s.windows[k]? with
  | none => .ok none s
  | some w =>
    match act ⟨s.memory, w⟩ with
    | .ok a f => .ok (some a) ⟨f.memory, s.windows.set k f.window⟩
    | .error e f => .error e ⟨f.memory, s.windows.set k f.window⟩

/-- Works through a window and answers with the result. -/
def answer {α : Type} (k : Nat) (act : WindowM α) (reply : α → Reply) : WorkspaceM Reply := do
  match ← through k act with
  | some a => return reply a
  | none => return .noWindow

/-- Works through a window with the content of another. -/
def withContent (k source : Nat) (act : List UInt8 → WindowM Reply) : WorkspaceM Reply := do
  match ← through source WindowM.content with
  | some bytes => answer k (act bytes) id
  | none => return .noWindow

/-- Opens the window that was made through another one. -/
def openMade (k : Nat) (act : WindowM Window) : WorkspaceM Reply := do
  match ← through k act with
  | some w => openWindow w
  | none => return .noWindow

def serve (k : Nat) : Request → WorkspaceM Reply
  | .zeros length order => openBuffer (List.replicate length 0) order
  | .ofBytes bytes order => openBuffer bytes order
  | .ofHex text order =>
    match Hex.parse text with
    | .ok bytes => openBuffer bytes order
    | .error fault => throw (.hexText fault)
  | .duplicate => openMade k WindowM.window
  | .getPart position length readOnly => openMade k (WindowM.getPart position length readOnly)
  | .readPart length readOnly => openMade k (WindowM.readPart length readOnly)
  | .get s order position => answer k (WindowM.getScalar s order position) (.scalar s)
  | .set s order position v => answer k (WindowM.setScalar s order position v) fun _ => .done
  | .peek s => answer k (do WindowM.getScalar s none (← WindowM.window).offset) (.scalar s)
  | .poke s v => answer k (do WindowM.setScalar s none (← WindowM.window).offset v) fun _ => .done
  | .read s order => answer k (WindowM.readScalar s order) (.scalar s)
  | .write s order v => answer k (WindowM.writeScalar s order v) fun _ => .done
  | .getBytes position length => answer k (WindowM.getBytes position length) .bytes
  | .readBytes length => answer k (WindowM.readBytes length) .bytes
  | .setBytes position bytes => answer k (WindowM.setBytes position bytes) fun _ => .done
  | .writeBytes bytes => answer k (WindowM.writeBytes bytes) fun _ => .done
  | .content => answer k WindowM.content .bytes
  | .setWindow position source => withContent k source fun bytes => do
    WindowM.setBytes position bytes
    return .done
  | .writeWindow source => withContent k source fun bytes => do
    WindowM.writeBytes bytes
    return .done
  | .sharesBuffer other => do
    match ← through other WindowM.window with
    | some w => answer k WindowM.window fun v => .flag (v.buffer == w.buffer)
    | none => return .noWindow
  | .firstDifference other => withContent k other fun theirs => do
    return .position (Window.firstDifference? (← WindowM.content) theirs)
  | .seek position => answer k (WindowM.seek position) fun _ => .done
  | .skip length => answer k (WindowM.skip length) fun _ => .done
  | .setOrder order => answer k (WindowM.modifyWindow fun w => { w with order }) fun _ => .done
  | .makeReadOnly =>
    answer k (WindowM.modifyWindow fun w => { w with readOnly := true }) fun _ => .done
  | .describe => answer k WindowM.window .window
  | .readStructure what => answer k (WindowM.read fun order => what.reader order) id
  | .writeCell c =>
    answer k (do WindowM.writePieces (c.pieces (← WindowM.window).order)) fun _ => .done
  | .writeStructure what =>
    answer k (WindowM.writeStructure what.size fun order => what.encode order) fun _ => .done
  | .detectOrder =>
    answer k (do WindowM.lift (Header.detectOrder (← WindowM.content))) .order

end Workspace

end ScriptImage
