import ScriptImage.Code.Routine

/-!
# Code

The routines of a file lie back to back from a base position.  `Code` keeps the routines
in the order in which they were added, the offset stored for each, and an index from
offsets to routines.  Adding a routine stores the position after the last one;
`Code.layOut` recomputes all offsets as running sums:

    c.layOut base = .ok c' → c'.offsets[i] = base + (sizes of routines before i)

Routines are named by their place in the list.
-/

namespace ScriptImage

def maxOffset : Nat := 4294967295

/-- Routines, the offsets stored for them, and the index from offsets to routines. -/
structure Code where
  routines : List Routine
  offsets : List UInt32
  /-- Offsets with the routines stored under them, newest first; the newest counts. -/
  index : List (UInt32 × Nat)
  /-- The offset of the first routine. -/
  base : UInt32
  deriving DecidableEq

namespace Code

def empty (base : UInt32) : Code :=
  ⟨[], [], [], base⟩

/-- The routines with their stored offsets. -/
def placed (c : Code) : List (Routine × UInt32) :=
  c.routines.zip c.offsets

/-- The offset stored for a routine. -/
def offsetOf? (c : Code) (id : Nat) : Option UInt32 :=
  c.offsets[id]?

/-- The routine stored under an offset. -/
def at? (c : Code) (offset : UInt32) : Option Nat :=
  c.index.lookup offset

def size (c : Code) : Nat :=
  (c.routines.map Routine.size).sum

/-- The sum of two offsets, or the greatest offset if it is less. -/
def addOffset (a b : UInt32) : UInt32 :=
  UInt32.ofNat (min (a.toNat + b.toNat) maxOffset)

/-- The offset right after the last routine, as far as stored offsets tell. -/
def endOffset (c : Code) : UInt32 :=
  match c.offsets.getLast?, c.routines.getLast? with
  | some offset, some last => addOffset offset (UInt32.ofNat last.size)
  | _, _ => c.base

/-- Adds a routine after the last one and tells its place and its offset. -/
def push (c : Code) (r : Routine) : Code × Nat × UInt32 :=
  let id := c.routines.length
  let offset := c.endOffset
  ({ c with
      routines := c.routines ++ [r]
      offsets := c.offsets ++ [offset]
      index := (offset, id) :: c.index },
    id, offset)

/-- Adds an empty routine, to be filled before the next layout. -/
def pushEmpty (c : Code) : Code × Nat × UInt32 :=
  c.push []

/-- Changes the instructions of a routine and nothing else. -/
def edit (c : Code) (id : Nat) (f : Routine → Routine) : Code :=
  { c with routines := c.routines.modify id f }

/-! ## Layout -/

/-- The offsets of routines laid out from a position, and the position after the last. `k` is
the place of the first of them, for messages. -/
def offsetsFrom : Nat → Nat → List Routine → Except Error (List UInt32 × Nat)
  | _, p, [] => .ok ([], p)
  | k, p, r :: rs =>
    if r.size = 0 then .error (.emptyRoutine k)
    else if maxOffset < p then .error (.routineBeyondSpace k)
    else do
      let (offsets, finish) ← offsetsFrom (k + 1) (p + r.size) rs
      return (UInt32.ofNat p :: offsets, finish)

/-- The index of routines with these offsets. -/
def indexOf (offsets : List UInt32) : List (UInt32 × Nat) :=
  offsets.zipIdx.reverse

/-- Lays the routines out from a base. No routine may be empty, and all must end within the
offset space. -/
def layOut (c : Code) (base : UInt32) : Except Error Code := do
  let (offsets, finish) ← offsetsFrom 0 base.toNat c.routines
  if maxOffset < finish then throw (.codeEndBeyondSpace finish)
  return { c with offsets, index := indexOf offsets, base }

/-! ## Stored form -/

def encode (order : ByteOrder) (c : Code) : Encoding :=
  .concat (c.routines.map fun r => .announced r.size (r.encode order))

/-- What has been read of a code stream. -/
structure Scan where
  /-- The offsets at which routines are still expected to start, ascending. -/
  pending : List UInt32
  /-- The complete routines with their offsets, newest first. -/
  finished : List (Routine × UInt32)
  /-- The routine that is being read: where it starts, and its instructions, newest first. -/
  current : Option (Nat × List Instr)

namespace Scan

/-- Before an instruction at position `p`: where its routine starts, the instructions of that
routine so far, and the starts still expected. -/
def enter (s : Scan) (p : Nat) : Except Error (Nat × List Instr × List UInt32) :=
  match s.current with
  | some (start, instrs) => .ok (start, instrs, s.pending)
  | none =>
    if maxOffset < p then .error .codeBeyondSpace
    else
      match s.pending with
      | [] => .ok (p, [], [])
      | next :: rest =>
        if next.toNat < p then .error (.startBeforeCode next.toNat p)
        else if next.toNat = p then .ok (p, [], rest)
        else .ok (p, [], s.pending)

/-- After an instruction that ends at position `p`. A start may be expected there only if the
instruction closes its routine. -/
def leave (s : Scan) (start : Nat) (instrs : List Instr) (pending : List UInt32) (o : Op) (p : Nat) :
    Except Error Scan :=
  let crossed (next : UInt32) : Bool := next.toNat < p || (next.toNat == p && !o.isEnd)
  let instrs := .op o :: instrs
  if maxOffset < p then .error .codeBeyondSpace
  else
    match pending.head?.filter crossed with
    | some next => .error (.startInsideRoutine next.toNat start)
    | none =>
      if o.isEnd then
        .ok { pending, finished := (instrs.reverse, UInt32.ofNat start) :: s.finished, current := none }
      else .ok { s with pending, current := some (start, instrs) }

/-- At the end of the stream, at position `p`. -/
def close (s : Scan) (p : Nat) : Except Error (List (Routine × UInt32)) :=
  match s.current, s.pending with
  | some (start, _), _ => .error (.unterminated start)
  | none, next :: _ => .error (.startPastCode next.toNat p)
  | none, [] => .ok s.finished.reverse

end Scan

/-- Reads instructions to the end of the bytes. `position` tells the position of a cursor, and
`fuel` bounds the number of instructions. -/
def readFrom (order : ByteOrder) (position : Cursor → Nat) :
    Nat → Scan → Reader (List (Routine × UInt32))
  | 0, s, c => (Reader.lift (s.close (position c))) c
  | fuel + 1, s, c =>
    if c.rest.isEmpty then (Reader.lift (s.close (position c))) c
    else
      match s.enter (position c) with
      | .error e => .error e c
      | .ok (start, instrs, pending) =>
        match Reader.nested (Op.read order) c with
        | .error e c' => .error e c'
        | .ok o c' =>
          match s.leave start instrs pending o (position c') with
          | .error e => .error e c'
          | .ok s' => readFrom order position fuel s' c'

/-- Distinct offsets in ascending order. -/
def ascending (offsets : List UInt32) : List UInt32 :=
  (offsets.mergeSort fun a b => decide (a ≤ b)).eraseReps

/-- Code whose routines lie at these offsets. -/
def ofPlaced (base : UInt32) (rs : List (Routine × UInt32)) : Code :=
  let offsets := rs.map Prod.snd
  ⟨rs.map Prod.fst, offsets, indexOf offsets, base⟩

/-- Reads code up to the end of the bytes. The cursor stands at offset `base`; a routine ends with
its first end instruction; every expected offset has to be the start of a routine. -/
def read (order : ByteOrder) (base : UInt32) (expected : List UInt32) : Reader Code := fun c =>
  let position (c' : Cursor) : Nat := base.toNat + (c'.offset - c.offset)
  (do
    let rs ← readFrom order position c.rest.length ⟨ascending expected, [], none⟩
    return ofPlaced base rs : Reader Code) c

end Code

end ScriptImage
