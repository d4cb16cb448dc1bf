import ScriptImage.Code
import ScriptImage.Header

/-!
# Images

An image is a whole file: a header, the code right after it, and the byte order of both.
Decoding an accepted file and encoding it again gives the same bytes.  Functions and
methods say where their routines start; `Image.updateOffsets` lays the code out anew and
lets every such offset follow its routine.
-/

namespace ScriptImage

/-- A whole file. -/
structure Image where
  header : Header
  code : Code
  order : ByteOrder
  deriving DecidableEq

structure DecodeOptions where
  /-- The byte order, or nothing if the magic decides. -/
  order : Option ByteOrder
  /-- Whether every function and method must start a routine. -/
  verifyOffsets : Bool
  deriving DecidableEq, Repr

/-- By default the magic decides the byte order and offsets are verified. -/
def DecodeOptions.standard : DecodeOptions :=
  ⟨none, true⟩

/-- Computations on an image that may fail; what was changed before a failure stays changed. -/
abbrev ImageM := EStateM Error Image

namespace Image

def empty (v : Version) : Image :=
  let header := Header.empty v
  ⟨header, .empty (UInt32.ofNat header.size), .little⟩

/-! ## Stored form -/

/-- Reads header and code in a byte order. -/
def read (order : ByteOrder) (verify : Bool) : Reader Image := do
  let header ← Reader.nested (Header.read order)
  let size := (← get).offset
  if maxOffset < size then throw .headerBeyondSpace
  let expected := if verify then header.starts else []
  let code ← Code.read order (UInt32.ofNat size) expected
  return ⟨header, code, order⟩

def decode (options : DecodeOptions) (bytes : List UInt8) : Except Error Image := do
  let order ← match options.order with
    | some order => .ok order
    | none => Header.detectOrder bytes
  let (image, _) ← (read order options.verifyOffsets).runOn bytes
  return image

/-- The first routine that does not lie at the position where it would be laid out; routines are
numbered from `k` and lie from `p` on. -/
def firstStale? : Nat → Nat → List (Routine × UInt32) → Option Error
  | _, _, [] => none
  | k, p, (r, offset) :: rest =>
    if offset.toNat = p then firstStale? (k + 1) (p + r.size) rest
    else some (.staleOffset k offset p)

/-- Why the stored offsets are not those of the current sizes. -/
def stale? (image : Image) : Option Error :=
  let size := image.header.size
  if image.code.base.toNat ≠ size then some (.staleBase image.code.base size)
  else firstStale? 0 size image.code.placed

/-- Encodes the file. Offsets have to be current. -/
def encode (image : Image) : Except Error (List UInt8) :=
  match image.stale? with
  | some e => .error e
  | none =>
    (Encoding.announced image.header.size (image.header.encode image.order) ++
      Encoding.announced image.code.size (image.code.encode image.order)).toExcept

/-! ## Offsets -/

/-- The routine that a pointer points at. -/
def resolve (code : Code) (pointer : Pointer) (offset : UInt32) : Except Error Nat :=
  match code.at? offset with
  | some id => .ok id
  | none => .error (.danglingPointer pointer offset)

/-- The offset of a routine. -/
def locate (code : Code) (id : Nat) : Except Error UInt32 :=
  match code.offsetOf? id with
  | some offset => .ok offset
  | none => .error (.routineVanished id)

def functionRoutines (image : Image) : Except Error (List Nat) :=
  image.header.functions.mapM fun f => resolve image.code (.function f.name.bytes) f.offset

/-- The routines of the methods, class by class. -/
def methodRoutines (image : Image) : Except Error (List (List Nat)) :=
  image.header.classes.entries.mapM fun c =>
    c.methods.mapM fun m => resolve image.code (.method c.name.bytes) m.offset

/-- Gives functions and methods new offsets. -/
def withOffsets (h : Header) (functions : List UInt32) (methods : List (List UInt32)) : Header :=
  let functions := h.functions.zipWith (fun f offset => { f with offset }) functions
  let entries := h.classes.entries.zipWith
    (fun c offsets => { c with methods := c.methods.zipWith (fun m offset => { m with offset }) offsets })
    methods
  { h with functions, classes := { h.classes with entries } }

/-- Takes over the outcome of a pure computation. -/
def lift {α : Type} : Except Error α → ImageM α
  | .ok a => pure a
  | .error e => throw e

/-- Lays the code out after the header. The offsets of functions and methods follow the routines
that they pointed at. -/
def updateOffsets : ImageM Unit := do
  let image ← get
  let functions ← lift image.functionRoutines
  let methods ← lift image.methodRoutines
  let size := image.header.size
  if maxOffset < size then throw .headerBeyondSpace
  let code ← lift (image.code.layOut (UInt32.ofNat size))
  set { image with code }
  let functionOffsets ← lift (functions.mapM (locate code))
  let methodOffsets ← lift (methods.mapM fun ids => ids.mapM (locate code))
  modify fun image => { image with header := withOffsets image.header functionOffsets methodOffsets }

end Image

end ScriptImage
