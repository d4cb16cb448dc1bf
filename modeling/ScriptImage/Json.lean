import ScriptImage.Text.Hex

/-!
# JSON documents

A document as a tree.  Numbers keep their text, and objects keep their members in order
and with repetitions, so that readers can judge both.  `Json.parse?` takes exactly one
document with nothing but JSON white space around it; `Json.render` writes without white
space.
-/

namespace ScriptImage

inductive Json where
  | null
  | bool (b : Bool)
  /-- A number as it is written. -/
  | number (text : String)
  /-- A string, or nothing if an escape in it is half of a surrogate pair. -/
  | string (text : Option String)
  | array (items : List Json)
  | object (members : List (Option String × Json))

namespace Json

/-! ## Writing -/

/-- How a character is written inside a string. -/
def escape (c : Char) : List Char :=
  if c = '"' then ['\\', '"']
  else if c = '\\' then ['\\', '\\']
  else if c.toNat < 0x20 then
    ['\\', 'u', '0', '0', Hex.digit (c.toNat / 16), Hex.digit (c.toNat % 16)]
  else [c]

/-- A string in quotes. -/
def quote (s : String) : String :=
  "\"" ++ String.ofList (s.toList.flatMap escape) ++ "\""

mutual

/-- Writes a document after what is already written. -/
def write (out : String) : Json → String
  | null => out ++ "null"
  | bool b => out ++ (if b then "true" else "false")
  | number text => out ++ text
  | string text => out ++ quote (text.getD "")
  | array items => (writeItems (out.push '[') items).push ']'
  | object members => (writeMembers (out.push '\x7b') members).push '\x7d'

/-- Writes items with commas between. -/
def writeItems (out : String) : List Json → String
  | [] => out
  | [x] => write out x
  | x :: xs => writeItems ((write out x).push ',') xs

/-- Writes members with commas between. -/
def writeMembers (out : String) : List (Option String × Json) → String
  | [] => out
  | [(key, x)] => write (out ++ quote (key.getD "") ++ ":") x
  | (key, x) :: rest => writeMembers ((write (out ++ quote (key.getD "") ++ ":") x).push ',') rest

end

def render (j : Json) : String :=
  write "" j

/-! ## Reading -/

/-- The white space of JSON. -/
def isBlank (c : Char) : Bool :=
  c == ' ' || c == '\t' || c == '\n' || c == '\r'

def skipBlank (cs : List Char) : List Char :=
  cs.dropWhile isBlank

def splitDigits (cs : List Char) : List Char × List Char :=
  (cs.takeWhile Char.isDigit, cs.dropWhile Char.isDigit)

/-- An exponent, if one comes next: its text and what follows. -/
def exponent? : List Char → Option (List Char × List Char)
  | e :: rest =>
    if e = 'e' ∨ e = 'E' then
      let (sign, rest) := match rest with
        | '+' :: rest => (['+'], rest)
        | '-' :: rest => (['-'], rest)
        | rest => ([], rest)
      let (digits, rest) := splitDigits rest
      if digits.isEmpty then none else some (e :: sign ++ digits, rest)
    else some ([], e :: rest)
  | [] => some ([], [])

/-- A fraction, if one comes next: its text and what follows. -/
def fraction? : List Char → Option (List Char × List Char)
  | '.' :: rest =>
    let (digits, rest) := splitDigits rest
    if digits.isEmpty then none else some ('.' :: digits, rest)
  | rest => some ([], rest)

/-- A number: its text and what follows. A leading zero stands alone. -/
def number? (cs : List Char) : Option (String × List Char) := do
  let (sign, rest) := match cs with
    | '-' :: rest => (['-'], rest)
    | rest => ([], rest)
  let (whole, rest) ← match rest with
    | '0' :: rest => if (rest.head?.map Char.isDigit).getD false then none else some (['0'], rest)
    | rest =>
      let (digits, rest) := splitDigits rest
      if digits.isEmpty then none else some (digits, rest)
  let (fraction, rest) ← fraction? rest
  let (exponent, rest) ← exponent? rest
  return (String.ofList (sign ++ whole ++ fraction ++ exponent), rest)

/-- The number that four hexadecimal digits spell. -/
def unit? (a b c d : Char) : Option Nat := do
  let a ← Hex.value? a
  let b ← Hex.value? b
  let c ← Hex.value? c
  let d ← Hex.value? d
  return ((a * 16 + b) * 16 + c) * 16 + d

/-- The character of an escape with one letter. -/
def shortEscape? (c : Char) : Option Char :=
  if c = '"' ∨ c = '\\' ∨ c = '/' then some c
  else if c = 'b' then some '\x08'
  else if c = 'f' then some '\x0c'
  else if c = 'n' then some '\n'
  else if c = 'r' then some '\r'
  else if c = 't' then some '\t'
  else none

/-- Whether a code unit begins a surrogate pair. -/
def isHigh (n : Nat) : Bool :=
  0xD800 ≤ n && n < 0xDC00

/-- Whether a code unit ends a surrogate pair. -/
def isLow (n : Nat) : Bool :=
  0xDC00 ≤ n && n < 0xE000

/-- The rest of a string up to its closing quote, and what follows. The characters so far come
newest first; they are nothing once half of a surrogate pair was met. -/
def stringRest : Option (List Char) → List Char → Option (Option String × List Char)
  | _, [] => none
  | done, '"' :: rest => some (done.map fun cs => String.ofList cs.reverse, rest)
  | done, '\\' :: 'u' :: a :: b :: c :: d :: rest =>
    match unit? a b c d with
    | none => none
    | some n =>
      if isHigh n then
        match rest with
        | '\\' :: 'u' :: a' :: b' :: c' :: d' :: rest' =>
          match (unit? a' b' c' d').filter isLow with
          | some m =>
            let point := 0x10000 + (n - 0xD800) * 0x400 + (m - 0xDC00)
            stringRest (done.map (Char.ofNat point :: ·)) rest'
          | none => stringRest none ('\\' :: 'u' :: a' :: b' :: c' :: d' :: rest')
        | rest => stringRest none rest
      else if isLow n then stringRest none rest
      else stringRest (done.map (Char.ofNat n :: ·)) rest
  | done, '\\' :: c :: rest =>
    match shortEscape? c with
    | some c' => stringRest (done.map (c' :: ·)) rest
    | none => none
  | done, c :: rest => if c.toNat < 0x20 ∨ c = '\\' then none else stringRest (done.map (c :: ·)) rest

mutual

/-- Reads a document from the front of a text; `fuel` bounds the steps. -/
def value? : Nat → List Char → Option (Json × List Char)
  | 0, _ => none
  | fuel + 1, cs =>
    match skipBlank cs with
    | 'n' :: 'u' :: 'l' :: 'l' :: rest => some (null, rest)
    | 't' :: 'r' :: 'u' :: 'e' :: rest => some (bool true, rest)
    | 'f' :: 'a' :: 'l' :: 's' :: 'e' :: rest => some (bool false, rest)
    | '"' :: rest => (stringRest (some []) rest).map fun (s, rest) => (string s, rest)
    | '[' :: rest =>
      match skipBlank rest with
      | ']' :: rest => some (array [], rest)
      | rest => (items? fuel rest).map fun (xs, rest) => (array xs, rest)
    | '\x7b' :: rest =>
      match skipBlank rest with
      | '\x7d' :: rest => some (object [], rest)
      | rest => (members? fuel rest).map fun (xs, rest) => (object xs, rest)
    | rest => (number? rest).map fun (n, rest) => (number n, rest)

/-- Reads the items of an array that is not empty, with its closing bracket. -/
def items? : Nat → List Char → Option (List Json × List Char)
  | 0, _ => none
  | fuel + 1, cs => do
    let (x, rest) ← value? fuel cs
    match skipBlank rest with
    | ',' :: rest => do
      let (xs, rest) ← items? fuel rest
      return (x :: xs, rest)
    | ']' :: rest => return ([x], rest)
    | _ => none

/-- Reads the members of an object that is not empty, with its closing brace. -/
def members? : Nat → List Char → Option (List (Option String × Json) × List Char)
  | 0, _ => none
  | fuel + 1, cs =>
    match skipBlank cs with
    | '"' :: rest => do
      let (key, rest) ← stringRest (some []) rest
      match skipBlank rest with
      | ':' :: rest => do
        let (x, rest) ← value? fuel rest
        match skipBlank rest with
        | ',' :: rest => do
          let (xs, rest) ← members? fuel rest
          return ((key, x) :: xs, rest)
        | '\x7d' :: rest => return ([(key, x)], rest)
        | _ => none
      | _ => none
    | _ => none

end

/-- The document that a text is. -/
def parse? (text : String) : Option Json := do
  let cs := text.toList
  -- every character accounts for at most two steps
  let (j, rest) ← value? (2 * cs.length + 2) cs
  if (skipBlank rest).isEmpty then some j else none

end Json

end ScriptImage
