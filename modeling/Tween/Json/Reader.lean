/-
JSON text read strictly: no comma at an end, nothing after the value, no
leading zeros, no raw controls in texts, no half of a surrogate pair. Of
several fields under one name the last counts; `parseFields` gives them all, for
a reader to whom the others are not free. Containers nest at most `maxDepth`
deep.
-/
import Tween.Json.Number

namespace Tween.Json

/-- The greatest number of containers inside one another. -/
def maxDepth : Nat := 127

/-- White space between tokens. -/
def isSpace (c : Char) : Bool := c == ' ' || c == '\n' || c == '\t' || c == '\r'

/-- A text from its first token on. -/
def skipSpace (cs : List Char) : List Char := cs.dropWhile isSpace

/-- The value of a digit in base sixteen. -/
def hexValue? (c : Char) : Option Nat :=
  if '0' ≤ c && c ≤ '9' then some (c.toNat - '0'.toNat)
  else if 'a' ≤ c && c ≤ 'f' then some (c.toNat - 'a'.toNat + 10)
  else if 'A' ≤ c && c ≤ 'F' then some (c.toNat - 'A'.toNat + 10)
  else none

/-- Four digits of base sixteen. -/
def readUnit : List Char → Option (Nat × List Char)
  | a :: b :: c :: d :: rest => do
    let a ← hexValue? a
    let b ← hexValue? b
    let c ← hexValue? c
    let d ← hexValue? d
    pure (((a * 16 + b) * 16 + c) * 16 + d, rest)
  | _ => none

/-- The character of an escape by number, after its letter: one unit, or the
two units of a surrogate pair. -/
def readCodePoint (cs : List Char) : Option (Char × List Char) := do
  let (unit, rest) ← readUnit cs
  if 0xD800 ≤ unit && unit < 0xDC00 then
    match rest with
    | '\\' :: 'u' :: rest => do
      let (low, rest) ← readUnit rest
      if 0xDC00 ≤ low && low < 0xE000 then
        pure (Char.ofNat (0x10000 + (unit - 0xD800) * 0x400 + (low - 0xDC00)), rest)
      else none
    | _ => none
  else if 0xDC00 ≤ unit && unit < 0xE000 then none
  else pure (Char.ofNat unit, rest)

/-- The character of a short escape. -/
def shortEscape? (c : Char) : Option Char :=
  if c = '"' || c = '\\' || c = '/' then some c
  else if c = 'n' then some '\n'
  else if c = 't' then some '\t'
  else if c = 'r' then some '\r'
  else if c = 'b' then some (Char.ofNat 0x08)
  else if c = 'f' then some (Char.ofNat 0x0C)
  else none

/-- The rest of a text after its opening quote, one character at a time;
`fuel` bounds the characters. -/
def readChars : Nat → List Char → Option (List Char × List Char)
  | 0, _ => none
  | fuel + 1, cs =>
    match cs with
    | [] => none
    | '"' :: rest => some ([], rest)
    | '\\' :: 'u' :: rest => do
      let (c, rest) ← readCodePoint rest
      let (tail, rest) ← readChars fuel rest
      pure (c :: tail, rest)
    | '\\' :: e :: rest => do
      let c ← shortEscape? e
      let (tail, rest) ← readChars fuel rest
      pure (c :: tail, rest)
    | c :: rest =>
      if c = '\\' || c.toNat < 0x20 then none
      else do
        let (tail, rest) ← readChars fuel rest
        pure (c :: tail, rest)

/-- A text after its opening quote. -/
def readText (cs : List Char) : Option (String × List Char) :=
  (readChars (cs.length + 1) cs).map fun (s, rest) => (String.ofList s, rest)

/-- Items separated by commas up to a closing bracket; there is at least one.
`fuel` bounds their number. -/
def readItems {β : Type} (item : List Char → Option (β × List Char)) (close : Char) :
    Nat → List Char → Option (List β × List Char)
  | 0, _ => none
  | fuel + 1, cs => do
    let (x, rest) ← item (skipSpace cs)
    match skipSpace rest with
    | c :: rest =>
      if c = close then pure ([x], rest)
      else if c = ',' then do
        let (xs, rest) ← readItems item close fuel rest
        pure (x :: xs, rest)
      else none
    | [] => none

/-- The inside of a container, which may be empty. -/
def readContents {β : Type} (item : List Char → Option (β × List Char)) (close : Char)
    (cs : List Char) : Option (List β × List Char) :=
  match skipSpace cs with
  | [] => none
  | c :: rest =>
    if c = close then some ([], rest) else readItems item close (rest.length + 1) (c :: rest)

/-- A field: a name in quotes, a colon and a value. -/
def readField (value : List Char → Option (Json Float × List Char)) :
    List Char → Option ((String × Json Float) × List Char)
  | '"' :: rest => do
    let (name, rest) ← readText rest
    match skipSpace rest with
    | ':' :: rest => do
      let (v, rest) ← value (skipSpace rest)
      pure ((name, v), rest)
    | _ => none
  | _ => none

/-- The fields of an object after its opening brace, in the order they are
written. -/
def readFields (value : List Char → Option (Json Float × List Char)) (cs : List Char) :
    Option (List (String × Json Float) × List Char) :=
  readContents (readField value) '\x7d' cs

/-- A value at the front of a text, with at most `depth` containers inside one
another. -/
def readValue : Nat → List Char → Option (Json Float × List Char)
  | depth, cs =>
    match cs with
    | 'n' :: 'u' :: 'l' :: 'l' :: rest => some (.null, rest)
    | 't' :: 'r' :: 'u' :: 'e' :: rest => some (.bool true, rest)
    | 'f' :: 'a' :: 'l' :: 's' :: 'e' :: rest => some (.bool false, rest)
    | '"' :: rest => (readText rest).map fun (s, rest) => (.str s, rest)
    | '[' :: rest =>
      match depth with
      | 0 => none
      | depth + 1 =>
        (readContents (readValue depth) ']' rest).map fun (items, rest) => (.arr items, rest)
    | '\x7b' :: rest =>
      match depth with
      | 0 => none
      | depth + 1 =>
        (readFields (readValue depth) rest).map fun (fields, rest) =>
          (ofTable (Table.ofList fields), rest)
    | _ => readNumber cs

/-- What a reader finds in a text, if only white space stands around it. -/
def readWhole {β : Type} (read : List Char → Option (β × List Char)) (s : String) : Option β :=
  match read (skipSpace s.toList) with
  | some (x, rest) => if (skipSpace rest).isEmpty then some x else none
  | none => none

/-- The value a text stands for, if it is one. -/
def parse (s : String) : Option (Json Float) := readWhole (readValue maxDepth) s

/-- The fields of the object a text stands for, in the order they are written;
a name may come more than once. -/
def parseFields (s : String) : Option (List (String × Json Float)) :=
  readWhole (fun cs =>
    match cs with
    | '\x7b' :: rest => readFields (readValue (maxDepth - 1)) rest
    | _ => none) s

end Tween.Json
