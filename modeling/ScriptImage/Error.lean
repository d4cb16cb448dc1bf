import ScriptImage.Cell
import ScriptImage.Version
import ScriptImage.Text.Utf8

/-!
# Errors

Everything that can go wrong, by cause.  Each cause has a `kind` and a `message`; the
wording lives here and nowhere else.
-/

namespace ScriptImage

/-- Accesses to a window, as they are named in messages. -/
inductive Access where
  | read
  | write
  | subView
  | skip
  | wholeWrite
  deriving DecidableEq, Repr

def Access.name : Access → String
  | read => "read"
  | write => "write"
  | subView => "sub-view"
  | skip => "skip"
  | wholeWrite => "structure write"

/-- The broad classes of errors. -/
inductive ErrorKind where
  /-- A value or position is outside its bounds. -/
  | range
  /-- A literal, argument type or byte is not acceptable. -/
  | value
  /-- A write through a read-only window. -/
  | readOnly
  /-- A structural contradiction: unknown opcode, duplicate name, broken reference. -/
  | invalid
  /-- The layout of the routines is corrupt. -/
  | subroutine
  /-- A known encoding that is not supported. -/
  | unimplemented
  /-- A condition that the library itself has to keep was broken. -/
  | internal
  /-- A file could not be read or written. -/
  | io
  /-- An option document could not be read. -/
  | options
  deriving DecidableEq, Repr

/-- Who points at a routine. -/
inductive Pointer where
  | function (name : List UInt8)
  | method (className : List UInt8)
  deriving DecidableEq, Repr

def Pointer.text : Pointer → String
  | function name => s!"function {Utf8.decodeLossy name}"
  | method name => s!"method of class {Utf8.decodeLossy name}"

inductive Error where
  -- windows
  | outsideWindow (access : Access) (size position length : Nat)
  | cursorPastEnd (position length : Nat)
  | readOnlyWindow (access : Access)
  | announcedSize (announced written : Nat)
  | hexText (fault : Hex.Fault)
  -- strings
  | stringTooLong (form : StringForm) (length : Nat)
  | stringHasNul (form : StringForm)
  | missingTerminator (form : StringForm) (found : UInt8)
  | unquoted (text : String)
  | malformedHexEscape (text : String)
  | unknownEscape (escape : Char) (text : String)
  | danglingBackslash (text : String)
  -- cells
  | notIntegerType (type : CellType)
  | notNumericType (type : CellType)
  | integerOutside (type : CellType) (value low high : Int)
  | literalOutside (type : CellType) (text : String)
  | floatOutside (type : CellType) (bits : UInt64)
  | floatTooLarge (bits : UInt64)
  | notWhole (type : CellType) (bits : UInt64)
  | malformedLiteral (type : CellType) (text : String)
  -- variables
  | slotIsGlobal (slot : UInt16)
  | globalIndexTooLarge (index : Nat)
  -- instructions
  | unknownOpcode (byte : UInt8)
  | unsupportedOpcode (byte : UInt8)
  | unknownInstruction (name : String)
  | wrongArity (name : String) (arity given : Nat)
  | wrongArgument (name : String) (position : Nat) (expected : CellType) (given : Cell)
  | noSuchArgument (name : String) (position arity : Nat)
  -- header tables
  | poolFull
  | countTooLarge (what : String) (count : Nat) (width : CountWidth)
  | ambiguousClass (name : List UInt8) (first second : Nat)
  | unsupportedVersion (major minor : UInt16)
  | missingMagic
  | badMagic (found : UInt32)
  | sourcesMismatch (version : Version)
  | countWidthMismatch (version : Version)
  -- code
  | symbolicInstruction (name : String)
  | emptyRoutine (index : Nat)
  | routineBeyondSpace (index : Nat)
  | codeEndBeyondSpace (position : Nat)
  | codeBeyondSpace
  | startBeforeCode (expected start : Nat)
  | unterminated (start : Nat)
  | startInsideRoutine (expected start : Nat)
  | startPastCode (expected finish : Nat)
  -- images
  | headerBeyondSpace
  | staleBase (base : UInt32) (headerSize : Nat)
  | staleOffset (index : Nat) (offset : UInt32) (position : Nat)
  | danglingPointer (pointer : Pointer) (offset : UInt32)
  | routineVanished (index : Nat)
  -- passes
  | targetIdsExhausted
  | noBoundary (position : Int)
  | boundaryLost (position : Int)
  | jumpUnfed (position : Int)
  | jumpOutside (position target low high : Int)
  | duplicateJumpTarget (id : UInt32)
  | unknownJumpTarget (id : UInt32)
  | jumpPastEnd (destination finish : Int)
  | jumpTooFar (distance : Int)
  | jumpPushUnpaired (routine index : Nat)
  | branchOutside (position : Int) (routine : Nat) (target high : Int)
  | branchTargetRedefined (id : UInt32) (first second : Nat)
  | branchTargetElsewhere (routine : Nat) (id : UInt32)
  | branchPastEnd (destination : Int) (routine : Nat) (finish : Int)
  | branchTooFar (displacement : Int)
  | indexTooWide (table : String) (index : Nat)
  | noTextOperand (name : String)
  | unknownClass (name : List UInt8)
  -- outside the library
  | fileAccess
  | optionDocument
  deriving DecidableEq

namespace Error

/-- Floating-point numbers in messages are written positionally and without a needless point. -/
def floatStyle : Shortest.Style where
  positional _ := true
  point := false
  plus := false
  tie := .up
  infinity := "inf"
  nan := "NaN"

/-- A floating-point number in a message. -/
def float (bits : UInt64) : String :=
  floatStyle.text Binary.binary64 bits.toNat

/-- A byte that stands for the character of its number, in single quotes. Control characters
and characters without a glyph are escaped. -/
def quotedByte (b : UInt8) : String :=
  let n := b.toNat
  let inner :=
    if n = 0 then "\\0"
    else if n = 9 then "\\t"
    else if n = 10 then "\\n"
    else if n = 13 then "\\r"
    else if n = 39 then "\\'"
    else if n = 92 then "\\\\"
    else if n < 0x20 ∨ (0x7F ≤ n ∧ n ≤ 0xA0) ∨ n = 0xAD then
      "\\u\x7b" ++ String.ofList (Nat.toDigits 16 n) ++ "\x7d"
    else String.singleton (Char.ofNat n)
  "'" ++ inner ++ "'"

def kind : Error → ErrorKind
  | outsideWindow .. | cursorPastEnd .. | stringTooLong .. | integerOutside ..
  | literalOutside .. | floatOutside .. | floatTooLarge .. | slotIsGlobal ..
  | globalIndexTooLarge .. | noSuchArgument .. | poolFull | countTooLarge ..
  | routineBeyondSpace .. | codeEndBeyondSpace .. | codeBeyondSpace | headerBeyondSpace
  | targetIdsExhausted | jumpOutside .. | jumpPastEnd .. | jumpTooFar .. | branchOutside ..
  | branchPastEnd .. | branchTooFar .. | indexTooWide .. => .range
  | hexText .. | stringHasNul .. | missingTerminator .. | unquoted .. | malformedHexEscape ..
  | unknownEscape .. | danglingBackslash .. | notIntegerType .. | notNumericType ..
  | notWhole .. | malformedLiteral .. | wrongArity .. | wrongArgument .. => .value
  | readOnlyWindow .. => .readOnly
  | unknownOpcode .. | unknownInstruction .. | ambiguousClass .. | unsupportedVersion ..
  | missingMagic | badMagic .. | danglingPointer .. | jumpUnfed .. | duplicateJumpTarget ..
  | unknownJumpTarget .. | jumpPushUnpaired .. | branchTargetRedefined ..
  | branchTargetElsewhere .. | unknownClass .. => .invalid
  | emptyRoutine .. | startBeforeCode .. | unterminated .. | startInsideRoutine ..
  | startPastCode .. => .subroutine
  | unsupportedOpcode .. => .unimplemented
  | announcedSize .. | sourcesMismatch .. | countWidthMismatch .. | symbolicInstruction ..
  | staleBase .. | staleOffset .. | routineVanished .. | noBoundary .. | boundaryLost ..
  | noTextOperand .. => .internal
  | fileAccess => .io
  | optionDocument => .options

/-- What went wrong, without its heading. -/
def detail : Error → String
  | outsideWindow access size position length =>
    s!"{access.name} of {size} bytes at offset {position} exceeds view length {length}"
  | cursorPastEnd position length =>
    s!"offset {position} is past the end of a {length}-byte view"
  | readOnlyWindow access => s!"{access.name} on a read-only view"
  | announcedSize announced written =>
    s!"structure announced {announced} bytes but wrote {written}"
  | hexText (.odd digits) => s!"hex text has an odd number of digits ({digits})"
  | hexText (.badDigit byte) => s!"invalid hex digit {quotedByte byte}"
  | stringTooLong form length =>
    s!"{length}-byte string does not fit a {form.name} length prefix"
  | stringHasNul form => s!"{form.name} string contains a NUL byte"
  | missingTerminator form found =>
    s!"{form.name} string is missing its NUL terminator (found 0x{Hex.padded 2 found.toNat})"
  | unquoted text => s!"string literal must be quoted: {text}"
  | malformedHexEscape text => s!"malformed \\x escape in {text}"
  | unknownEscape escape text => s!"unknown escape \\{escape} in {text}"
  | danglingBackslash text => s!"dangling backslash in {text}"
  | notIntegerType type => s!"{type.name} is not an integer type"
  | notNumericType type => s!"{type.name} is not a numeric type"
  | integerOutside type value low high =>
    s!"{value} is outside the {type.name} range {low}..={high}"
  | literalOutside type text => s!"{text} is outside the {type.name} range"
  | floatOutside type bits => s!"{float bits} is outside the {type.name} range"
  | floatTooLarge bits => s!"{float bits} does not fit float32"
  | notWhole type bits => s!"{float bits} is not an integer, {type.name} required"
  | malformedLiteral type text => s!"malformed {type.name} literal: {text}"
  | slotIsGlobal slot => s!"local slot {slot.toNat} collides with the global flag"
  | globalIndexTooLarge index => s!"global index {index} exceeds 32767"
  | unknownOpcode byte => s!"unknown opcode 0x{Hex.padded 2 byte.toNat}"
  | unsupportedOpcode byte => s!"24-bit constant push (opcode 0x{Hex.padded 2 byte.toNat})"
  | unknownInstruction name => s!"unknown instruction {name}"
  | wrongArity name arity given => s!"{name} takes {arity} argument(s), got {given}"
  | wrongArgument name position expected given =>
    s!"argument {position} of {name} must be {expected.name}, got {given.type.name} {given.text}"
  | noSuchArgument name position arity => s!"{name} has no argument {position} (arity {arity})"
  | poolFull => "table already holds 65535 entries"
  | countTooLarge what count width => s!"{count} {what} do not fit a {width.size}-byte count"
  | ambiguousClass name first second =>
    s!"class name {Utf8.decodeLossy name} is ambiguous (entries {first} and {second})"
  | unsupportedVersion major minor => s!"unsupported version {major.toNat}.{minor.toNat}"
  | missingMagic => "missing OSI magic"
  | badMagic found => s!"bad magic 0x{Hex.padded 8 found.toNat}, expected 0x4f534900"
  | sourcesMismatch version => s!"source table presence does not match version {version.tag}"
  | countWidthMismatch version => s!"class count width does not match version {version.tag}"
  | symbolicInstruction name =>
    s!"abstract instruction {name} reached the encoder; run the removal passes first"
  | emptyRoutine index => s!"subroutine {index} is empty and has no position of its own"
  | routineBeyondSpace index => s!"subroutine {index} starts beyond the 32-bit offset space"
  | codeEndBeyondSpace position =>
    s!"subroutines end at {position}, beyond the 32-bit offset space"
  | codeBeyondSpace => "code extends beyond the 32-bit offset space"
  | startBeforeCode expected start =>
    s!"expected a subroutine at offset {expected}, which lies before the code at {start}"
  | unterminated start => s!"subroutine at offset {start} is not terminated by End"
  | startInsideRoutine expected start =>
    s!"expected a subroutine at offset {expected}, inside the subroutine starting at {start}"
  | startPastCode expected finish =>
    s!"expected a subroutine at offset {expected}, past the end of the code at {finish}"
  | headerBeyondSpace => "header exceeds the 32-bit offset space"
  | staleBase base headerSize =>
    s!"subroutines start at {base.toNat} but the header is {headerSize} bytes; offsets are stale"
  | staleOffset index offset position =>
    s!"subroutine {index} is stored at {offset.toNat} but lays out at {position}; offsets are stale"
  | danglingPointer pointer offset =>
    s!"{pointer.text} points at {offset.toNat}, which starts no subroutine"
  | routineVanished index => s!"subroutine {index} vanished"
  | targetIdsExhausted => "target ID space exhausted"
  | noBoundary position => s!"no instruction boundary at or before {position}"
  | boundaryLost position => s!"target {position} lost its boundary"
  | jumpUnfed position => s!"jump at {position} is not fed by a 32-bit push"
  | jumpOutside position target low high =>
    s!"jump at {position} targets {target}, outside the code range {low}..={high}"
  | duplicateJumpTarget id => s!"duplicate jump target {id.toNat}"
  | unknownJumpTarget id => s!"jump refers to unknown target {id.toNat}"
  | jumpPastEnd destination finish =>
    s!"jump destination {destination} lies past the end of the code at {finish}"
  | jumpTooFar distance => s!"jump distance {distance} does not fit 32 bits"
  | jumpPushUnpaired routine index =>
    s!"jump placeholder at subroutine {routine}, instruction {index} has no jump"
  | branchOutside position routine target high =>
    s!"branch at {position} in subroutine {routine} targets {target}, outside 0..={high}"
  | branchTargetRedefined id first second =>
    s!"branch target {id.toNat} defined in subroutines {first} and {second}"
  | branchTargetElsewhere routine id =>
    s!"branch in subroutine {routine} refers to target {id.toNat}, which is not in the same subroutine"
  | branchPastEnd destination routine finish =>
    s!"branch destination {destination} lies past the end of subroutine {routine} at {finish}"
  | branchTooFar displacement => s!"branch displacement {displacement} does not fit 16 bits"
  | indexTooWide table index => s!"{table} index {index} exceeds 16 bits"
  | noTextOperand name => s!"{name} carries no text operand"
  | unknownClass name => s!"unknown class {Utf8.decodeLossy name}"
  | fileAccess => ""
  | optionDocument => ""

def heading : ErrorKind → String
  | .range => "Range error"
  | .value => "Value error"
  | .readOnly => "Read-only error"
  | .invalid => "Invalid"
  | .subroutine => "Subroutine error"
  | .unimplemented => "Unimplemented"
  | .internal => "Internal error"
  | .io => "IO error"
  | .options => "Options error"

/-- The message: heading and detail. Errors from outside the library have no wording here. -/
def message? (e : Error) : Option String :=
  match e.kind with
  | .io | .options => none
  | kind => some (heading kind ++ ": " ++ e.detail)

end Error

end ScriptImage
