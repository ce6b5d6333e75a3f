import Uncompile.Json.Basic

/-!
# Reading records out of JSON values

A record is an object whose unknown members are ignored, or an array of its
fields in order. A tagged choice is a string, or an object with the tag as its
only member. The fields that come with a tag are named; where a whole text is
read they may also be listed in order.
-/

namespace Uncompile

namespace Json

def text? : Json → Option String
  | str text => some text
  | _ => none

def bool? : Json → Option Bool
  | bool value => some value
  | _ => none

def items? : Json → Option (List Json)
  | arr items => some items
  | _ => none

/-- An integer in a range. -/
def intIn? (least most : Int) : Json → Option Int
  | int value => if least ≤ value ∧ value ≤ most then some value else none
  | _ => none

def int64? (json : Json) : Option Int := json.intIn? (-9223372036854775808) 9223372036854775807

def nat64? (json : Json) : Option Nat := (json.intIn? 0 18446744073709551615).map Int.toNat

def nat8? (json : Json) : Option Nat := (json.intIn? 0 255).map Int.toNat

def list? {α : Type} (decode : Json → Option α) (json : Json) : Option (List α) := do
  (← json.items?).mapM decode

/-- Two values in an array. -/
def pair? {α β : Type} (first : Json → Option α) (second : Json → Option β) (json : Json) :
    Option (α × β) :=
  match json with
  | arr [a, b] => do return (← first a, ← second b)
  | _ => none

/-- `null`, or a value. -/
def nullable? {α : Type} (decode : Json → Option α) : Json → Option (Option α)
  | null => some none
  | json => (decode json).map some

/-- The fields of a record, those that are absent missing. A field may stand in
an object only once. -/
structure Fields where
  names : List String
  values : List (Option Json)

/-- The value of a name among the members, unless it stands there twice. -/
def member? (members : List (Option String × Json)) (name : String) : Option (Option Json) :=
  match members.filter fun m => m.1 = some name with
  | [] => some none
  | [m] => some (some m.2)
  | _ => none

def fields? (names : List String) (json : Json) : Option Fields :=
  match json with
  | obj members =>
    if members.all fun m => m.1.isSome then
      (names.mapM (member? members)).map fun values => { names, values }
    else none
  | arr items =>
    if items.length ≤ names.length then some { names, values := items.map some } else none
  | _ => none

namespace Fields

def get? (fields : Fields) (name : String) : Option Json :=
  match fields.names.findIdx? (· = name) with
  | some index => (fields.values[index]?).join
  | none => none

/-- A field that has to be there. -/
def need? {α : Type} (fields : Fields) (name : String) (decode : Json → Option α) : Option α :=
  (fields.get? name).bind decode

/-- A field that has a default. -/
def withDefault? {α : Type} (fields : Fields) (name : String) (default : α)
    (decode : Json → Option α) : Option α :=
  match fields.get? name with
  | some json => decode json
  | none => some default

end Fields

/-- How the fields that come with a tag may be written. -/
inductive ContentForm where
  /-- By name only. -/
  | named
  /-- By name, or as an array in order. -/
  | listed

/-- The fields that come with a tag. -/
def content? (form : ContentForm) (names : List String) (json : Json) : Option Fields :=
  match form, json with
  | .named, arr _ => none
  | _, json => json.fields? names

/-- The tag of a choice and what comes with it. -/
def choice? : Json → Option (String × Option Json)
  | str tag => some (tag, none)
  | obj [(some tag, payload)] => some (tag, some payload)
  | _ => none

/-- A choice among tags that nothing comes with. -/
def oneOf? {α : Type} (table : List (String × α)) (json : Json) : Option α :=
  match json.choice? with
  | some (tag, none) => table.lookup tag
  | some (tag, some null) => table.lookup tag
  | _ => none

end Json

end Uncompile
