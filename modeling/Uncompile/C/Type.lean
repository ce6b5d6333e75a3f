import Uncompile.Word

/-!
# C types

The types of recovered declarations, and how they are written.
-/

namespace Uncompile

inductive CType where
  | void
  | int (bits : Nat)
  | ushort
  | struct (name : String)
  | pointer (inner : CType)
  /-- The function a function pointer points to. -/
  | function (ret : CType) (params : List CType)

namespace CType

def word : CType := int 32

/-- The integer type of a width in bytes; widths stop at 255 bits. -/
def ofBytes (bytes : Nat) : CType := int (min (bytes * 8) 255)

def isVoid : CType → Bool
  | void => true
  | _ => false

mutual

def text : CType → String
  | void => "void"
  | int bits => if bits = 32 then "int" else "__int" ++ decimalText bits
  | ushort => "unsigned short"
  | struct name => "struct " ++ name
  | pointer inner => inner.text ++ " *"
  | function ret [] => ret.text ++ " (*)(void)"
  | function ret (param :: rest) => ret.text ++ " (*)(" ++ param.text ++ textRest rest ++ ")"

/-- The parameters after the first, each after a comma. -/
def textRest : List CType → String
  | [] => ""
  | param :: rest => ", " ++ param.text ++ textRest rest

end

/-- A type in front of a name; a final star of the type touches the name. -/
def declarator (type : CType) (name : String) : String :=
  let text := type.text
  if text.endsWith "*" then text ++ name else text ++ " " ++ name

end CType

end Uncompile
