import Uncompile.Json.Basic

/-!
# Reading JSON

A strict reader: no comments, no trailing commas, no leading zeros, no raw
control characters in strings, and nothing but blanks around the value.
-/

namespace Uncompile

namespace Json

namespace Reader

abbrev Chars := List Char

def isBlank (c : Char) : Bool := c = ' ' || c = '\n' || c = '\t' || c = '\r'

def skipBlank (cs : Chars) : Chars := cs.dropWhile isBlank

def hexValue? (c : Char) : Option Nat :=
  if '0' ≤ c ∧ c ≤ '9' then some (c.toNat - '0'.toNat)
  else if 'a' ≤ c ∧ c ≤ 'f' then some (c.toNat - 'a'.toNat + 10)
  else if 'A' ≤ c ∧ c ≤ 'F' then some (c.toNat - 'A'.toNat + 10)
  else none

/-- The 16-bit unit of four hexadecimal digits. -/
def unit? (a b c d : Char) : Option Nat := do
  return (((← hexValue? a) * 16 + (← hexValue? b)) * 16 + (← hexValue? c)) * 16 + (← hexValue? d)

def isHighSurrogate (unit : Nat) : Bool := 0xd800 ≤ unit && unit < 0xdc00

def isLowSurrogate (unit : Nat) : Bool := 0xdc00 ≤ unit && unit < 0xe000

/-- The character of a surrogate pair. -/
def pairChar (high low : Nat) : Char :=
  Char.ofNat (0x10000 + (high - 0xd800) * 0x400 + (low - 0xdc00))

/-- The character of a one-letter escape. -/
def escaped? (c : Char) : Option Char :=
  match c with
  | '"' => some '"'
  | '\\' => some '\\'
  | '/' => some '/'
  | 'b' => some '\x08'
  | 'f' => some '\x0c'
  | 'n' => some '\n'
  | 'r' => some '\r'
  | 't' => some '\t'
  | _ => none

/-- What has been read of a string: its characters, last first, unless it is
broken, and a high surrogate that waits for its other half. -/
structure Spelling where
  read : Option Chars := some []
  high : Option Nat := none

namespace Spelling

def put (s : Spelling) (c : Char) : Spelling :=
  match s.high with
  | none => { read := s.read.map (c :: ·) }
  | some _ => { read := none }

def putUnit (s : Spelling) (unit : Nat) : Spelling :=
  match s.high with
  | some high =>
    if isLowSurrogate unit then { read := s.read.map (pairChar high unit :: ·) }
    else { read := none }
  | none =>
    if isHighSurrogate unit then { s with high := some unit }
    else if isLowSurrogate unit then { read := none }
    else s.put (Char.ofNat unit)

/-- The text, unless it is broken. -/
def finish (s : Spelling) : Option String :=
  match s.high with
  | none => s.read.map fun cs => String.ofList cs.reverse
  | some _ => none

end Spelling

/-- The rest of a string after its opening quote. -/
def string (s : Spelling) : Chars → Option (Option String × Chars)
  | [] => none
  | '"' :: rest => some (s.finish, rest)
  | '\\' :: 'u' :: a :: b :: c :: d :: rest =>
    match unit? a b c d with
    | some unit => string (s.putUnit unit) rest
    | none => none
  | '\\' :: c :: rest =>
    match escaped? c with
    | some e => string (s.put e) rest
    | none => none
  | c :: rest => if c.toNat < 0x20 then none else string (s.put c) rest

def digits (cs : Chars) : Chars × Chars := (cs.takeWhile Char.isDigit, cs.dropWhile Char.isDigit)

def digitsValue (cs : Chars) : Nat :=
  cs.foldl (fun n c => n * 10 + (c.toNat - '0'.toNat)) 0

/-- The exponent of a number, if there is one; the second part says so. -/
def skipExponent (cs : Chars) : Option (Chars × Bool) :=
  match cs with
  | c :: rest =>
    if c = 'e' ∨ c = 'E' then
      let unsigned := match rest with
        | '+' :: rest => rest
        | '-' :: rest => rest
        | rest => rest
      match digits unsigned with
      | ([], _) => none
      | (_, rest) => some (rest, true)
    else some (cs, false)
  | [] => some ([], false)

/-- Fraction and exponent of a number, if there are any. -/
def skipFraction (cs : Chars) : Option (Chars × Bool) :=
  match cs with
  | '.' :: rest =>
    match digits rest with
    | ([], _) => none
    | (_, rest) => (skipExponent rest).map fun r => (r.1, true)
  | cs => skipExponent cs

/-- A number without its sign. -/
def unsigned (negative : Bool) (cs : Chars) : Option (Json × Chars) :=
  match digits cs with
  | ([], _) => none
  | (ds, rest) =>
    if ds.head? = some '0' ∧ ds.length > 1 then none
    else match skipFraction rest with
      | none => none
      | some (rest, true) => some (.decimal, rest)
      | some (rest, false) =>
        let value := digitsValue ds
        if negative then
          if value = 0 then some (.decimal, rest) else some (.int (-value), rest)
        else some (.int value, rest)

def number (cs : Chars) : Option (Json × Chars) :=
  match cs with
  | '-' :: rest => unsigned true rest
  | cs => unsigned false cs

mutual

/-- A value. `fuel` bounds the steps into and along arrays and objects. -/
def value : (fuel : Nat) → Chars → Option (Json × Chars)
  | 0, _ => none
  | fuel + 1, cs =>
    match skipBlank cs with
    | 'n' :: 'u' :: 'l' :: 'l' :: rest => some (.null, rest)
    | 't' :: 'r' :: 'u' :: 'e' :: rest => some (.bool true, rest)
    | 'f' :: 'a' :: 'l' :: 's' :: 'e' :: rest => some (.bool false, rest)
    | '"' :: rest =>
      match string {} rest with
      | some (some text, rest) => some (.str text, rest)
      | some (none, rest) => some (.brokenStr, rest)
      | none => none
    | '[' :: rest =>
      match skipBlank rest with
      | ']' :: rest => some (.arr [], rest)
      | rest => items fuel [] rest
    | '\x7b' :: rest =>
      match skipBlank rest with
      | '\x7d' :: rest => some (.obj [], rest)
      | rest => members fuel [] rest
    | cs => number cs

/-- The items of an array from one of them on; `read` are those before it. -/
def items : (fuel : Nat) → List Json → Chars → Option (Json × Chars)
  | 0, _, _ => none
  | fuel + 1, read, cs =>
    match value fuel cs with
    | none => none
    | some (item, rest) =>
      match skipBlank rest with
      | ',' :: rest => items fuel (item :: read) rest
      | ']' :: rest => some (.arr (item :: read).reverse, rest)
      | _ => none

/-- The members of an object from one of them on. -/
def members : (fuel : Nat) → List (Option String × Json) → Chars → Option (Json × Chars)
  | 0, _, _ => none
  | fuel + 1, read, cs =>
    match skipBlank cs with
    | '"' :: rest =>
      match string {} rest with
      | none => none
      | some (key, rest) =>
        match skipBlank rest with
        | ':' :: rest =>
          match value fuel rest with
          | none => none
          | some (item, rest) =>
            match skipBlank rest with
            | ',' :: rest => members fuel ((key, item) :: read) rest
            | '\x7d' :: rest => some (.obj ((key, item) :: read).reverse, rest)
            | _ => none
        | _ => none
    | _ => none

end

end Reader

/-- Reads a text that is one JSON value. -/
def parse? (text : String) : Option Json :=
  let cs := text.toList
  match Reader.value (2 * cs.length + 2) cs with
  | some (json, rest) => if (Reader.skipBlank rest).isEmpty then some json else none
  | none => none

end Json

end Uncompile
