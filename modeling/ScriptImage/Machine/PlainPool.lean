import ScriptImage.Cell.Literal
import ScriptImage.Header.StringPool

/-!
# Pools without proofs

A pool as the bare data that a machine holds: a form, and strings each of which names a form
of its own.  Nothing here says that a length fits its width, that a terminated string is free
of NUL bytes, or that a pool has room.  Each operation makes the checks it makes, a string that
has the pool's form already is taken over unchecked, and a length is cast when it is stored:

    s.stored order = order.encode width (s.bytes.length % 256 ^ width) ++ s.bytes ++ terminator

An operation on a pool is a computation with the pool as its state, so that a failing one leaves
a pool too.
-/

namespace ScriptImage

/-- Content and the form in which it is stored. -/
structure PlainString where
  form : StringForm
  bytes : List UInt8
  deriving DecidableEq, Repr

namespace PlainString

/-- The string with this content. Length is judged first. -/
def make (form : StringForm) (bytes : List UInt8) : Except Error PlainString :=
  if form.maxLength < bytes.length then .error (.stringTooLong form bytes.length)
  else if form.terminated = true ∧ 0 ∈ bytes then .error (.stringHasNul form)
  else .ok ⟨form, bytes⟩

/-- The same content in another form. -/
def recast (s : PlainString) (form : StringForm) : Except Error PlainString :=
  make form s.bytes

def parse (form : StringForm) (text : String) : Except Error PlainString :=
  match ByteString.unquote? text.toList with
  | some inner => do
    let bytes ← ByteString.unescape text [] inner
    make form bytes
  | none => .error (.unquoted text)

/-- Reads a string: length, content and, where the form has it, a closing NUL. -/
def read (order : ByteOrder) (form : StringForm) : Reader PlainString := do
  let length ← Reader.word order form.width.size
  let content ← Reader.bytes length
  if form.terminated then
    let last ← Reader.byte
    if last ≠ 0 then throw (.missingTerminator form last)
  Reader.lift (make form content)

/-- The stored bytes, with the length cast to its width. -/
def stored (order : ByteOrder) (s : PlainString) : List UInt8 :=
  order.encode s.form.width.size (s.bytes.length % 256 ^ s.form.width.size) ++ s.bytes ++
    s.form.terminator

end PlainString

/-- A form and a numbered list of strings. -/
structure PlainPool where
  form : StringForm
  entries : List PlainString
  deriving DecidableEq, Repr

namespace PlainPool

def empty (form : StringForm) : PlainPool :=
  ⟨form, []⟩

def contents (p : PlainPool) : List (List UInt8) :=
  p.entries.map PlainString.bytes

/-- The index of the first entry with this content. -/
def indexOf? (p : PlainPool) (bytes : List UInt8) : Option Nat :=
  p.entries.findIdx? fun s => s.bytes == bytes

/-- The entry that a string becomes. Only a string of another form is checked. -/
def entry (p : PlainPool) (s : PlainString) : Except Error PlainString :=
  if s.form = p.form then .ok s else s.recast p.form

/-- Adds an entry and tells its index. A full pool is reported first. -/
def push (s : PlainString) : EStateM Error PlainPool Nat := do
  let p ← get
  if maxEntries ≤ p.entries.length then throw .poolFull
  match p.entry s with
  | .ok entry =>
    set { p with entries := p.entries ++ [entry] }
    return p.entries.length
  | .error e => throw e

/-- The index of the first entry with this content, which is added if there is none. -/
def findOrPush (s : PlainString) : EStateM Error PlainPool Nat := do
  let p ← get
  match p.indexOf? s.bytes with
  | some index => return index
  | none => push s

/-- Adds texts one after the other and stops at the first that fails. -/
def pushTexts : List String → EStateM Error PlainPool Unit
  | [] => pure ()
  | t :: ts => do
    let p ← get
    match PlainString.make p.form (Utf8.encode t) with
    | .ok s =>
      let _ ← push s
      pushTexts ts
    | .error e => throw e

def ofTexts (form : StringForm) (texts : List String) : Except Error PlainPool :=
  match pushTexts texts (empty form) with
  | .ok _ p => .ok p
  | .error e _ => .error e

def read (order : ByteOrder) (form : StringForm) : Reader PlainPool := do
  let count ← Reader.uint16 order
  let entries ← Reader.many (PlainString.read order form) count.toNat
  return ⟨form, entries⟩

def encode (order : ByteOrder) (p : PlainPool) : Encoding :=
  .count order .two "strings" p.entries.length ++ .ofBytes (p.entries.flatMap fun s => s.stored order)

end PlainPool

/-! ## What the running pools are -/

/-- A string without its proofs. -/
def ByteString.plain {form : StringForm} (s : ByteString form) : PlainString :=
  ⟨form, s.bytes⟩

/-- A pool without its proofs. -/
def StringPool.plain (p : StringPool) : PlainPool :=
  ⟨p.form, p.entries.toList.map ByteString.plain⟩

end ScriptImage
