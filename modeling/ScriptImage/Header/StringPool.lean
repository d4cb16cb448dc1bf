import ScriptImage.Encoding
import ScriptImage.Reader

/-!
# String pools

A pool is a numbered list of byte strings of one form, at most 65535 of them.  Entries are
only ever added at the end, so an index keeps its entry.

    p.push s = .ok (p', k) → p'.contents = p.contents ++ [s.bytes] ∧ k = p.contents.length
    (p.encode order).failure = none
-/

namespace ScriptImage

def maxEntries : Nat := 65535

/-- A numbered list of strings of one form. -/
structure StringPool where
  form : StringForm
  entries : Array (ByteString form)
  size_le : entries.size ≤ maxEntries

namespace StringPool

instance : DecidableEq StringPool := fun ⟨f, xs, _⟩ ⟨g, ys, _⟩ =>
  if h : f = g then
    if h' : h ▸ xs = ys then isTrue (by subst h; subst h'; rfl)
    else isFalse (by intro e; cases e; exact h' rfl)
  else isFalse (by intro e; cases e; exact h rfl)

def empty (form : StringForm) : StringPool :=
  ⟨form, #[], Nat.zero_le _⟩

def contents (p : StringPool) : List (List UInt8) :=
  p.entries.toList.map ByteString.bytes

/-- The literals of the entries, in order. -/
def texts (p : StringPool) : List String :=
  p.entries.toList.map ByteString.quoted

/-- The index of the first entry with this content. -/
def indexOf? (p : StringPool) (bytes : List UInt8) : Option Nat :=
  p.entries.findIdx? fun s => s.bytes == bytes

/-- Adds an entry of the pool's form. -/
def snoc (p : StringPool) (s : ByteString p.form) (room : p.entries.size < maxEntries) : StringPool :=
  ⟨p.form, p.entries.push s, by rw [Array.size_push]; exact room⟩

/-- Adds an entry, in the pool's own form, and tells its index. A full pool is reported before
content that the form does not admit. -/
def push (p : StringPool) {form : StringForm} (s : ByteString form) :
    Except Error (StringPool × Nat) :=
  if room : p.entries.size < maxEntries then
    match s.recast p.form with
    | .ok s' =>
      let index := p.entries.size
      .ok (p.snoc s' room, index)
    | .error e => .error e
  else .error .poolFull

/-- The index of the first entry with this content, which is added if there is none. -/
def findOrPush (p : StringPool) {form : StringForm} (s : ByteString form) :
    Except Error (StringPool × Nat) :=
  match p.indexOf? s.bytes with
  | some index => .ok (p, index)
  | none => p.push s

/-- Adds texts one after the other and stops at the first that fails. The pool holds what was
added before. -/
def pushTexts (p : StringPool) : List String → StringPool × Option Error
  | [] => (p, none)
  | t :: ts =>
    match ByteString.ofText p.form t with
    | .error e => (p, some e)
    | .ok s =>
      if room : p.entries.size < maxEntries then pushTexts (p.snoc s room) ts
      else (p, some .poolFull)

def ofTexts (form : StringForm) (texts : List String) : Except Error StringPool :=
  match (empty form).pushTexts texts with
  | (p, none) => .ok p
  | (_, some e) => .error e

def ofList (form : StringForm) (entries : List (ByteString form)) : Except Error StringPool :=
  if h : entries.length ≤ maxEntries then .ok ⟨form, entries.toArray, by simpa using h⟩
  else .error .poolFull

/-- The stored size: a count of two bytes and the entries. -/
def size (p : StringPool) : Nat :=
  2 + (p.entries.toList.map ByteString.size).sum

def encode (order : ByteOrder) (p : StringPool) : Encoding :=
  .count order .two "strings" p.entries.size ++
    .ofBytes (p.entries.toList.flatMap fun s => s.stored order)

def read (order : ByteOrder) (form : StringForm) : Reader StringPool := do
  let count ← Reader.uint16 order
  let entries ← Reader.many (ByteString.read order form) count.toNat
  Reader.lift (ofList form entries)

end StringPool

end ScriptImage
