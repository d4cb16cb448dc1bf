import ScriptImage.Error

/-!
# Variable references

A variable reference is a word whose top bit tells globals from locals; the other
fifteen bits are the index of a global or the slot of a local.
-/

namespace ScriptImage

/-- A reference to a local slot or to a global. -/
structure Variable where
  raw : UInt16
  deriving DecidableEq, Repr

namespace Variable

/-- The bit that marks a global. -/
def globalFlag : UInt16 := 0x8000

def maxGlobal : Nat := 32767

def localSlot (slot : UInt16) : Except Error Variable :=
  if slot &&& globalFlag ≠ 0 then .error (.slotIsGlobal slot) else .ok ⟨slot⟩

def ofGlobal (index : Nat) : Except Error Variable :=
  if maxGlobal < index then .error (.globalIndexTooLarge index)
  else .ok ⟨globalFlag ||| UInt16.ofNat index⟩

def isGlobal (v : Variable) : Bool :=
  v.raw &&& globalFlag != 0

/-- The index of the global it refers to. -/
def globalIndex? (v : Variable) : Option Nat :=
  if v.isGlobal then some (v.raw &&& ~~~globalFlag).toNat else none

end Variable

end ScriptImage
