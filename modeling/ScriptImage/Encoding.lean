import ScriptImage.Error

/-!
# Encodings

An `Encoding` is what a structure writes: bytes, and possibly an error that stops the
writing after them.  `Encoding.announced` compares a structure's size with what it
really wrote.
-/

namespace ScriptImage

/-- The bytes that are written, and the error that ends the writing early. -/
structure Encoding where
  bytes : List UInt8
  failure : Option Error
  deriving DecidableEq

namespace Encoding

def ofBytes (bytes : List UInt8) : Encoding :=
  ⟨bytes, none⟩

def empty : Encoding :=
  ofBytes []

/-- Fails before anything is written. -/
def fail (e : Error) : Encoding :=
  ⟨[], some e⟩

/-- Writes one encoding and, unless it fails, another after it. -/
def append (a b : Encoding) : Encoding :=
  match a.failure with
  | some _ => a
  | none => ⟨a.bytes ++ b.bytes, b.failure⟩

instance : Append Encoding := ⟨append⟩

/-- Writes encodings one after the other, up to the first that fails. -/
def concat (es : List Encoding) : Encoding :=
  es.foldr (· ++ ·) empty

/-- Checks that a structure wrote as many bytes as it announced. -/
def announced (size : Nat) (e : Encoding) : Encoding :=
  match e.failure with
  | some _ => e
  | none => if e.bytes.length = size then e else ⟨e.bytes, some (.announcedSize size e.bytes.length)⟩

/-- The bytes, if the writing did not fail. -/
def toExcept (e : Encoding) : Except Error (List UInt8) :=
  match e.failure with
  | some err => .error err
  | none => .ok e.bytes

/-- Writes a count, if its width can hold it. -/
def count (order : ByteOrder) (width : CountWidth) (what : String) (n : Nat) : Encoding :=
  if width.max < n then fail (.countTooLarge what n width) else ofBytes (order.encode width.size n)

/-! ## Lemmas -/

@[simp]
theorem append_ofBytes (a b : List UInt8) : ofBytes a ++ ofBytes b = ofBytes (a ++ b) := rfl

@[simp]
theorem append_fail (a : Encoding) (e : Error) (b : Encoding) (h : a.failure = some e) :
    a ++ b = a := by
  show append a b = a
  simp [append, h]

theorem append_ok (a b : Encoding) (h : a.failure = none) :
    a ++ b = ⟨a.bytes ++ b.bytes, b.failure⟩ := by
  show append a b = _
  simp [append, h]

theorem append_failure_eq_none_iff (a b : Encoding) :
    (a ++ b).failure = none ↔ a.failure = none ∧ b.failure = none := by
  cases ha : a.failure with
  | none => simp [append_ok a b ha]
  | some e => simp [append_fail a e b ha, ha]

@[simp]
theorem concat_nil : concat [] = empty := rfl

@[simp]
theorem concat_cons (e : Encoding) (es : List Encoding) : concat (e :: es) = e ++ concat es := rfl

theorem concat_map_ofBytes {α : Type} (f : α → List UInt8) (xs : List α) :
    concat (xs.map fun x => ofBytes (f x)) = ofBytes (xs.flatMap f) := by
  induction xs with
  | nil => rfl
  | cons x xs ih => simp [ih]

theorem announced_of_length {size : Nat} (e : Encoding) (h : e.failure = none → e.bytes.length = size) :
    announced size e = e := by
  unfold announced
  split
  · rfl
  · rename_i hn
    simp [h hn]

end Encoding

end ScriptImage
