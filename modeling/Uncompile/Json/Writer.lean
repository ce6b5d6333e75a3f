import Uncompile.Json.Basic
import Uncompile.Word

/-!
# Writing JSON

Values are written on one line, or with one item per line and two blanks of
indentation per level. Quotes, backslashes and control characters are escaped,
everything else is written as it is.
-/

namespace Uncompile

namespace Json

def escapedChar (c : Char) : String :=
  if c = '"' then "\\\""
  else if c = '\\' then "\\\\"
  else if c = '\n' then "\\n"
  else if c = '\r' then "\\r"
  else if c = '\t' then "\\t"
  else if c = '\x08' then "\\b"
  else if c = '\x0c' then "\\f"
  else if c.toNat < 0x10 then "\\u000" ++ hexDigits c.toNat
  else if c.toNat < 0x20 then "\\u00" ++ hexDigits c.toNat
  else String.singleton c

def quoted (text : String) : String :=
  text.foldl (fun written c => written ++ escapedChar c) "\"" ++ "\""

/-- A scalar value; the spelling that made a value unreadable is gone, and it is
written as `null`. -/
def scalar : Json → String
  | bool true => "true"
  | bool false => "false"
  | int value => decimalText value
  | str text => quoted text
  | _ => "null"

def keyText (key : Option String) : String := quoted (key.getD "")

mutual

def compress : Json → String
  | arr items => "[" ++ ",".intercalate (compressItems items) ++ "]"
  | obj members => "\x7b" ++ ",".intercalate (compressMembers members) ++ "\x7d"
  | json => json.scalar

def compressItems : List Json → List String
  | [] => []
  | item :: rest => item.compress :: compressItems rest

def compressMembers : List (Option String × Json) → List String
  | [] => []
  | (key, item) :: rest => (keyText key ++ ":" ++ item.compress) :: compressMembers rest

end

def newline (level : Nat) : String := "\n" ++ String.join (List.replicate level "  ")

mutual

/-- Written over several lines; `level` is the depth of the line it starts on. -/
def pretty (level : Nat) : Json → String
  | arr [] => "[]"
  | arr items => "[" ++ ",".intercalate (prettyItems (level + 1) items) ++ newline level ++ "]"
  | obj [] => "\x7b\x7d"
  | obj members =>
    "\x7b" ++ ",".intercalate (prettyMembers (level + 1) members) ++ newline level ++ "\x7d"
  | json => json.scalar

/-- The items, each on a line of its own. -/
def prettyItems (level : Nat) : List Json → List String
  | [] => []
  | item :: rest => (newline level ++ item.pretty level) :: prettyItems level rest

/-- The members, each on a line of its own. -/
def prettyMembers (level : Nat) : List (Option String × Json) → List String
  | [] => []
  | (key, item) :: rest =>
    (newline level ++ keyText key ++ ": " ++ item.pretty level) :: prettyMembers level rest

end

end Json

end Uncompile
