/-!
# JSON values

Members of an object keep their order and may repeat: whoever reads an object
decides what that means. Only integers are used as numbers; a number in any
other spelling is known to be there, but its value is not.
-/

namespace Uncompile

inductive Json where
  | null
  | bool (value : Bool)
  | int (value : Int)
  /-- A number that is not spelled as an integer; minus zero is one. -/
  | decimal
  | str (value : String)
  /-- A string that spells an unpaired surrogate, and so is no text. -/
  | brokenStr
  | arr (items : List Json)
  /-- A key is missing if its spelling is no text. -/
  | obj (members : List (Option String × Json))

namespace Json

def object (members : List (String × Json)) : Json :=
  obj (members.map fun m => (some m.1, m.2))

def list {α : Type} (encode : α → Json) (items : List α) : Json := arr (items.map encode)

def nat (value : Nat) : Json := int value

/-- A value that may be missing. -/
def nullable {α : Type} (encode : α → Json) : Option α → Json
  | some a => encode a
  | none => null

/-- An object with one member. -/
def tagged (tag : String) (payload : Json) : Json := object [(tag, payload)]

mutual

/-- The number of arrays and objects that are nested in a value. -/
def depth : Json → Nat
  | arr items => itemsDepth items + 1
  | obj members => membersDepth members + 1
  | _ => 0

def itemsDepth : List Json → Nat
  | [] => 0
  | item :: rest => max item.depth (itemsDepth rest)

def membersDepth : List (Option String × Json) → Nat
  | [] => 0
  | (_, item) :: rest => max item.depth (membersDepth rest)

end

end Json

end Uncompile
