import ScriptImage.ByteOrder
import ScriptImage.Text.Hex

/-!
# Length-prefixed byte strings

A byte string is stored as its length, its bytes and, in some forms, a closing NUL.
`StringForm` fixes the width of the length and whether the NUL is there; a
`ByteString form` carries the proof that its bytes can be stored that way, so storing
one never cuts a length short:

    s.stored order = order.encode width s.bytes.length ++ s.bytes ++ terminator
    (s.stored order).length = s.size

Content is raw bytes.  `quoted` shows it as a literal of printable ASCII characters.
-/

namespace ScriptImage

/-- The width of a stored length. -/
inductive LengthWidth where
  | one
  | two
  | four
  deriving DecidableEq, Repr

def LengthWidth.size : LengthWidth → Nat
  | .one => 1
  | .two => 2
  | .four => 4

/-- How a byte string is stored. -/
structure StringForm where
  /-- The width of the stored length. -/
  width : LengthWidth
  /-- Whether one NUL byte follows the content. -/
  terminated : Bool
  deriving DecidableEq, Repr

namespace StringForm

@[match_pattern]
abbrev p8 : StringForm := ⟨.one, false⟩

@[match_pattern]
abbrev p8z : StringForm := ⟨.one, true⟩

@[match_pattern]
abbrev p16 : StringForm := ⟨.two, false⟩

@[match_pattern]
abbrev p16z : StringForm := ⟨.two, true⟩

@[match_pattern]
abbrev p32 : StringForm := ⟨.four, false⟩

@[match_pattern]
abbrev p32z : StringForm := ⟨.four, true⟩

def all : List StringForm := [p8, p8z, p16, p16z, p32, p32z]

def name : StringForm → String
  | p8 => "P8"
  | p8z => "P8Z"
  | p16 => "P16"
  | p16z => "P16Z"
  | p32 => "P32"
  | p32z => "P32Z"

/-- The longest content that the stored length can describe. -/
def maxLength (form : StringForm) : Nat :=
  256 ^ form.width.size - 1

/-- What follows the content. -/
def terminator (form : StringForm) : List UInt8 :=
  if form.terminated then [0] else []

/-- Bytes stored beside the content. -/
def overhead (form : StringForm) : Nat :=
  form.width.size + form.terminator.length

/-- Whether content can be stored in a form: it is short enough, and free of NUL bytes where
one ends it. -/
def Admits (form : StringForm) (bytes : List UInt8) : Prop :=
  bytes.length ≤ form.maxLength ∧ (form.terminated = true → 0 ∉ bytes)

instance (form : StringForm) (bytes : List UInt8) : Decidable (form.Admits bytes) :=
  inferInstanceAs (Decidable (_ ∧ _))

end StringForm

/-- Content that can be stored in the given form. -/
structure ByteString (form : StringForm) where
  bytes : List UInt8
  admitted : form.Admits bytes
  deriving DecidableEq

namespace ByteString

variable {form : StringForm}

def empty (form : StringForm) : ByteString form :=
  ⟨[], Nat.zero_le _, fun _ => List.not_mem_nil⟩

/-- The number of bytes that storing takes. -/
def size (s : ByteString form) : Nat :=
  form.overhead + s.bytes.length

/-- The stored bytes, piece by piece: length, content, terminator. -/
def pieces (order : ByteOrder) (s : ByteString form) : List (List UInt8) :=
  let front := [order.encode form.width.size s.bytes.length, s.bytes]
  if form.terminated then front ++ [[0]] else front

def stored (order : ByteOrder) (s : ByteString form) : List UInt8 :=
  order.encode form.width.size s.bytes.length ++ s.bytes ++ form.terminator

/-! ## Literals -/

/-- How a byte is written inside a literal. -/
def escape (b : UInt8) : List Char :=
  if b = 34 then ['\\', '"']
  else if b = 92 then ['\\', '\\']
  else if b = 10 then ['\\', 'n']
  else if b = 13 then ['\\', 'r']
  else if b = 9 then ['\\', 't']
  else if 0x20 ≤ b ∧ b ≤ 0x7E then [Char.ofNat b.toNat]
  else '\\' :: 'x' :: Hex.byte b

/-- Content as a literal in double quotes. -/
def quoteBytes (bytes : List UInt8) : List Char :=
  '"' :: bytes.flatMap escape ++ ['"']

/-- The string as a literal in double quotes, all of it printable ASCII. -/
def quoted (s : ByteString form) : String :=
  String.ofList (quoteBytes s.bytes)

/-! ## Lemmas -/

theorem length_stored (order : ByteOrder) (s : ByteString form) :
    (s.stored order).length = s.size := by
  simp only [stored, size, StringForm.overhead, List.length_append, ByteOrder.length_encode]
  omega

theorem flatten_pieces (order : ByteOrder) (s : ByteString form) :
    (s.pieces order).flatten = s.stored order := by
  unfold pieces stored StringForm.terminator
  split <;> simp

end ByteString

/-- A name: a string of the form that names of globals, functions, classes, symbols and
sources have. -/
abbrev Name := ByteString .p8z

/-- A literal of the string pool. -/
abbrev Literal := ByteString .p16z

end ScriptImage
