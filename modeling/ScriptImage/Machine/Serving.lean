import ScriptImage.Machine.Reading
import ScriptImage.Machine.Writing
import ScriptImage.Workspace

/-!
# Requests in word arithmetic

Every request to a window, answered by the accesses of `MachineM`.  A session answers one
request after the other; a refused request is answered with its error and the session goes
on, whereas a fault ends it.
-/

namespace ScriptImage

/-- Reads a structure at the cursor. -/
def Readable.readInWords : Readable → MachineM Reply
  | cell t => return .cell (← MachineM.readCell t)
  | string form => return .string form (← MachineM.readString form)
  | pool form => return .pool (← MachineM.readPool form)
  | classes width => return .classes (← MachineM.readClasses width)
  | code base expected => return .code (← MachineM.readCode base expected)
  | instr => return .instr (.op (← MachineM.readStructure MachineM.readOp))
  | function => return .function (← MachineM.readStructure MachineM.readFunction)
  | functions => return .functions (← MachineM.readStructure MachineM.readFunctions)
  | header => return .header (← MachineM.readStructure MachineM.readHeader)

/-- Writes a structure from the beginning of a window. -/
def Writable.writeInWords : Writable → MachineM Unit
  | instr i => match i with
    | .op o => MachineM.writeOp o
    | .symbolic s => throw (.refused (.symbolicInstruction s.kind.mnemonic))
  | routine r => MachineM.writeRoutine r
  | code c => MachineM.writeCode c
  | function f => MachineM.writeFunction f
  | functions fs => MachineM.writeFunctions fs
  | classes t => MachineM.writeClasses t
  | pool p => MachineM.writePool p
  | header h => MachineM.writeHeader h
  | raw _ bytes => MachineM.writeBytes bytes

/-- Computations on a workspace in word arithmetic. -/
abbrev MachineWorkspaceM := EStateM Fault Workspace

namespace Machine

variable {α : Type}

/-- Takes over what is done without an access. -/
def take (x : WorkspaceM α) : MachineWorkspaceM α := fun s =>
  match x s with
  | .ok a s' => .ok a s'
  | .error e s' => .error (.refused e) s'

/-- Works through the window with the given number. -/
def through (k : Nat) (act : MachineM α) : MachineWorkspaceM (Option α) := fun s =>
  match s.windows[k]? with
  | none => .ok none s
  | some w =>
    match act ⟨s.memory, w⟩ with
    | .ok a f => .ok (some a) ⟨f.memory, s.windows.set k f.window⟩
    | .error fault f => .error fault ⟨f.memory, s.windows.set k f.window⟩

/-- Works through a window and answers with the result. -/
def answer (k : Nat) (act : MachineM α) (reply : α → Reply) : MachineWorkspaceM Reply := do
  match ← through k act with
  | some a => return reply a
  | none => return .noWindow

/-- Works through a window with the content of another. -/
def withContent (k source : Nat) (act : List UInt8 → MachineM Reply) : MachineWorkspaceM Reply := do
  match ← through source MachineM.content with
  | some bytes => answer k (act bytes) id
  | none => return .noWindow

/-- Opens the window that was made through another one. -/
def openMade (k : Nat) (act : MachineM Window) : MachineWorkspaceM Reply := do
  match ← through k act with
  | some w => take (Workspace.openWindow w)
  | none => return .noWindow

def getScalar (t : Scalar) (order : Option ByteOrder) (position : Nat) : MachineM t.Bits := do
  MachineM.getWith t.width.size (t.ofBytes (order.getD (← MachineM.window).order)) position

/-- The bytes of a scalar, in the byte order asked for or that of the window. -/
def scalarBytes (t : Scalar) (order : Option ByteOrder) (v : t.Bits) : MachineM (List UInt8) := do
  return t.stored (order.getD (← MachineM.window).order) v

def serve (k : Nat) : Request → MachineWorkspaceM Reply
  | .zeros length order => take (Workspace.openBuffer (List.replicate length 0) order)
  | .ofBytes bytes order => take (Workspace.openBuffer bytes order)
  | .ofHex text order =>
    match Hex.parse text with
    | .ok bytes => take (Workspace.openBuffer bytes order)
    | .error fault => throw (.refused (.hexText fault))
  | .duplicate => openMade k MachineM.window
  | .getPart position length readOnly => openMade k (MachineM.getPart position length readOnly)
  | .readPart length readOnly => openMade k (MachineM.readPart length readOnly)
  | .get t order position => answer k (getScalar t order position) (.scalar t)
  | .set t order position v =>
    answer k (do MachineM.setBytes position (← scalarBytes t order v)) fun _ => .done
  | .peek t => answer k (do getScalar t none (← MachineM.window).offset) (.scalar t)
  | .poke t v =>
    answer k (do MachineM.setBytes (← MachineM.window).offset (← scalarBytes t none v)) fun _ => .done
  | .read t order =>
    answer k (do
      let w ← MachineM.window
      MachineM.readWith t.width.size (t.ofBytes (order.getD w.order))) (.scalar t)
  | .write t order v => answer k (do MachineM.writeBytes (← scalarBytes t order v)) fun _ => .done
  | .getBytes position length => answer k (MachineM.getWith length id position) .bytes
  | .readBytes length => answer k (MachineM.readWith length id) .bytes
  | .setBytes position bytes => answer k (MachineM.setBytes position bytes) fun _ => .done
  | .writeBytes bytes => answer k (MachineM.writeBytes bytes) fun _ => .done
  | .content => answer k MachineM.content .bytes
  | .setWindow position source => withContent k source fun bytes => do
    MachineM.setBytes position bytes
    return .done
  | .writeWindow source => withContent k source fun bytes => do
    MachineM.writeBytes bytes
    return .done
  | .sharesBuffer other => do
    match ← through other MachineM.window with
    | some w => answer k MachineM.window fun v => .flag (v.buffer == w.buffer)
    | none => return .noWindow
  | .firstDifference other => withContent k other fun theirs => do
    return .position (Window.firstDifference? (← MachineM.content) theirs)
  | .seek position => answer k (MachineM.seek position) fun _ => .done
  | .skip length => answer k (MachineM.skip length) fun _ => .done
  | .setOrder order => answer k (MachineM.modifyWindow fun w => { w with order }) fun _ => .done
  | .makeReadOnly =>
    answer k (MachineM.modifyWindow fun w => { w with readOnly := true }) fun _ => .done
  | .describe => answer k MachineM.window .window
  | .readStructure what => answer k what.readInWords id
  | .writeCell c => answer k (MachineM.writeCell c) fun _ => .done
  | .writeStructure what =>
    answer k (MachineM.writeStructure what.size what.writeInWords) fun _ => .done
  | .detectOrder => answer k MachineM.detectOrder .order

/-- The answer to a request, which may be its error. Only a fault ends the session. -/
def respond (x : MachineWorkspaceM Reply) : MachineWorkspaceM (Except Error Reply) := fun s =>
  match x s with
  | .ok reply s' => .ok (.ok reply) s'
  | .error (.refused e) s' => .ok (.error e) s'
  | .error fault s' => .error fault s'

/-- Serves requests one after the other, each on the window with its number. -/
def session : List (Nat × Request) → MachineWorkspaceM (List (Except Error Reply))
  | [] => pure []
  | (k, r) :: rest => do
    let reply ← respond (serve k r)
    let replies ← session rest
    return reply :: replies

end Machine

namespace Workspace

/-- The answer to a request, which may be its error, and the workspace after it. -/
def respond (k : Nat) (r : Request) (s : Workspace) : Except Error Reply × Workspace :=
  match serve k r s with
  | .ok reply s' => (.ok reply, s')
  | .error e s' => (.error e, s')

/-- Serves requests one after the other, each on the window with its number. -/
def session : List (Nat × Request) → Workspace → List (Except Error Reply) × Workspace
  | [], s => ([], s)
  | (k, r) :: rest, s =>
    let (reply, s') := respond k r s
    let (replies, last) := session rest s'
    (reply :: replies, last)

end Workspace

end ScriptImage
