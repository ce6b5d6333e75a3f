import Uncompile.Json.Decode
import Uncompile.Program.Basic

/-!
# JSON form of the machine model

Names are lower case; a choice carries its content as the one member of an
object. Expressions are read up to a nesting depth: `room` is the number of
arrays and objects that may still be entered. `form` says whether the fields of
expressions, locations and register operands have to be named.
-/

namespace Uncompile

def Reg.toJson (r : Reg) : Json := .str r.name

def Reg.ofJson? (json : Json) : Option Reg :=
  json.oneOf? (Reg.all.map fun r => (r.name, r))

def Flag.toJson (f : Flag) : Json := .str f.letter

def Flag.ofJson? (json : Json) : Option Flag :=
  json.oneOf? ([Flag.z, .s, .c, .o, .p].map fun f => (f.letter, f))

def Segment.toJson (s : Segment) : Json := .str s.name

def Segment.ofJson? (json : Json) : Option Segment :=
  json.oneOf? (Segment.all.map fun s => (s.name, s))

def SpecialReg.toJson : SpecialReg → Json
  | control number => .tagged "control" (.nat number)
  | debug number => .tagged "debug" (.nat number)
  | segment s => .tagged "segment" s.toJson
  | gdtr => .str "gdtr"
  | idtr => .str "idtr"
  | tr => .str "tr"
  | ldtr => .str "ldtr"

def SpecialReg.ofJson? (json : Json) : Option SpecialReg :=
  match json.choice? with
  | some ("control", some payload) => payload.nat8?.map control
  | some ("debug", some payload) => payload.nat8?.map debug
  | some ("segment", some payload) => (Segment.ofJson? payload).map segment
  | _ => json.oneOf? [("gdtr", gdtr), ("idtr", idtr), ("tr", tr), ("ldtr", ldtr)]

def Symbol.toJson : Symbol → Json
  | reg r => .tagged "reg" r.toJson
  | flag f => .tagged "flag" f.toJson
  | special r => .tagged "special" r.toJson
  | framePtr => .str "frame_ptr"
  | unknown => .str "unknown"
  | named name => .tagged "named" (.str name)

def Symbol.ofJson? (json : Json) : Option Symbol :=
  match json.choice? with
  | some ("reg", some payload) => (Reg.ofJson? payload).map reg
  | some ("flag", some payload) => (Flag.ofJson? payload).map flag
  | some ("special", some payload) => (SpecialReg.ofJson? payload).map special
  | some ("named", some payload) => payload.text?.map named
  | _ => json.oneOf? [("frame_ptr", framePtr), ("unknown", unknown)]

namespace BinOp

def tag : BinOp → String
  | add => "add" | sub => "sub" | mul => "mul" | div => "div" | mod => "mod"
  | and => "and" | or => "or" | xor => "xor"
  | shl => "shl" | shr => "shr" | sar => "sar"
  | eq => "eq" | ne => "ne" | lt => "lt" | le => "le" | gt => "gt" | ge => "ge"
  | ult => "u_lt" | ule => "u_le" | ugt => "u_gt" | uge => "u_ge"
  | land => "l_and" | lor => "l_or"

def all : List BinOp :=
  [add, sub, mul, div, mod, and, or, xor, shl, shr, sar, eq, ne, lt, le, gt, ge, ult, ule, ugt,
    uge, land, lor]

def toJson (op : BinOp) : Json := .str op.tag

def ofJson? (json : Json) : Option BinOp := json.oneOf? (all.map fun op => (op.tag, op))

end BinOp

namespace UnOp

def tag : UnOp → String
  | neg => "neg"
  | not => "not"
  | lnot => "l_not"

def toJson (op : UnOp) : Json := .str op.tag

def ofJson? (json : Json) : Option UnOp :=
  json.oneOf? ([neg, not, lnot].map fun op => (op.tag, op))

end UnOp

/-- The number of arrays and objects that may be nested in a text. -/
def nestingLimit : Nat := 127

namespace Expr

def toJson : Expr → Json
  | const value => .tagged "const" (.int value)
  | sym symbol => .tagged "sym" symbol.toJson
  | mem ptr size => .tagged "mem" (.object [("ptr", ptr.toJson), ("size", .nat size)])
  | port p size => .tagged "port" (.object [("port", p.toJson), ("size", .nat size)])
  | unary op arg => .tagged "unary" (.object [("op", op.toJson), ("arg", arg.toJson)])
  | binary op lhs rhs =>
    .tagged "binary" (.object [("op", op.toJson), ("lhs", lhs.toJson), ("rhs", rhs.toJson)])

/-- A constant or a symbol that is spelled with at most `room` more arrays and
objects. -/
def leafOfJson? (room : Nat) (tag : String) (payload : Json) : Option Expr :=
  match tag with
  | "const" => payload.int64?.map const
  | "sym" => if payload.depth ≤ room then (Symbol.ofJson? payload).map sym else none
  | _ => none

def ofJson? (form : Json.ContentForm) : (room : Nat) → Json → Option Expr
  | 0, _ => none
  | 1, json =>
    match json.choice? with
    | some (tag, some payload) => leafOfJson? 0 tag payload
    | _ => none
  | room + 2, json =>
    match json.choice? with
    | some ("mem", some payload) => do
      let fields ← payload.content? form ["ptr", "size"]
      return mem (← fields.need? "ptr" (ofJson? form room)) (← fields.need? "size" Json.nat8?)
    | some ("port", some payload) => do
      let fields ← payload.content? form ["port", "size"]
      return port (← fields.need? "port" (ofJson? form room)) (← fields.need? "size" Json.nat8?)
    | some ("unary", some payload) => do
      let fields ← payload.content? form ["op", "arg"]
      return unary (← fields.need? "op" UnOp.ofJson?) (← fields.need? "arg" (ofJson? form room))
    | some ("binary", some payload) => do
      let fields ← payload.content? form ["op", "lhs", "rhs"]
      return binary (← fields.need? "op" BinOp.ofJson?) (← fields.need? "lhs" (ofJson? form room))
        (← fields.need? "rhs" (ofJson? form room))
    | some (tag, some payload) => leafOfJson? (room + 1) tag payload
    | _ => none

end Expr

namespace Location

def toJson : Location → Json
  | sym symbol => .tagged "sym" symbol.toJson
  | mem ptr size => .tagged "mem" (.object [("ptr", ptr.toJson), ("size", .nat size)])
  | port p size => .tagged "port" (.object [("port", p.toJson), ("size", .nat size)])

/-- A location is spelled like the expression that reads it. -/
def ofJson? (form : Json.ContentForm) (room : Nat) (json : Json) : Option Location :=
  match Expr.ofJson? form room json with
  | some (.sym symbol) => some (sym symbol)
  | some (.mem ptr size) => some (mem ptr size)
  | some (.port p size) => some (port p size)
  | _ => none

end Location

def Effect.toJson (effect : Effect) : Json :=
  .list (fun write => .arr [write.1.toJson, write.2.toJson]) effect

/-- An effect adds two levels around its locations and values. -/
def Effect.ofJson? (form : Json.ContentForm) (room : Nat) (json : Json) : Option Effect :=
  json.list? (Json.pair? (Location.ofJson? form (room - 2)) (Expr.ofJson? form (room - 2)))

def Binding.toJson (binding : Binding) : Json :=
  .list (fun entry => .arr [entry.1.toJson, entry.2.toJson]) binding.entries

def Binding.ofJson? (json : Json) : Option Binding :=
  (json.list? (Json.pair? Symbol.ofJson? (Expr.ofJson? .named nestingLimit))).map SortedMap.ofList

def BindingTable.toJson (table : BindingTable) : Json :=
  .list (fun entry => .arr [.nat entry.1, Binding.toJson entry.2]) table.entries

def BindingTable.entriesOfJson? (json : Json) : Option (List (Address × Binding)) :=
  json.list? (Json.pair? Json.nat64? Binding.ofJson?)

namespace Operand

def toJson : Operand → Json
  | reg r size => .tagged "reg" (.object [("reg", r.toJson), ("size", .nat size)])
  | special r => .tagged "special" r.toJson
  | imm value => .tagged "imm" (.int value)
  | mem m => .tagged "mem" (.object [
      ("base", .nullable Reg.toJson m.base), ("index", .nullable Reg.toJson m.index),
      ("scale", .nat m.scale), ("disp", .int m.disp), ("size", .nat m.size)])

def memOfJson? (json : Json) : Option MemOperand := do
  let fields ← json.fields? ["base", "index", "scale", "disp", "size"]
  return {
    base := ← fields.withDefault? "base" none (Json.nullable? Reg.ofJson?),
    index := ← fields.withDefault? "index" none (Json.nullable? Reg.ofJson?),
    scale := ← fields.withDefault? "scale" 1 Json.nat8?,
    disp := ← fields.withDefault? "disp" 0 Json.int64?,
    size := ← fields.withDefault? "size" 4 Json.nat8? }

def ofJson? (form : Json.ContentForm) (json : Json) : Option Operand :=
  match json.choice? with
  | some ("reg", some payload) => do
    let fields ← payload.content? form ["reg", "size"]
    return reg (← fields.need? "reg" Reg.ofJson?) (← fields.withDefault? "size" 4 Json.nat8?)
  | some ("special", some payload) => (SpecialReg.ofJson? payload).map special
  | some ("imm", some payload) => payload.int64?.map imm
  | some ("mem", some payload) => (memOfJson? payload).map mem
  | _ => none

end Operand

namespace Instruction

def toJson (insn : Instruction) : Json :=
  .object [
    ("address", .nat insn.address),
    ("mnemonic", .str insn.mnemonic),
    ("operands", .list Operand.toJson insn.operands),
    ("effect", insn.effect.toJson),
    ("alters_control_flow", .bool insn.altersControlFlow),
    ("terminates_block", .bool insn.terminatesBlock)]

/-- An instruction as it stands: nothing is filled in from its mnemonic. -/
def ofJson? (json : Json) : Option Instruction := do
  let fields ← json.fields?
    ["address", "mnemonic", "operands", "effect", "alters_control_flow", "terminates_block"]
  return {
    address := ← fields.need? "address" Json.nat64?,
    mnemonic := ← fields.need? "mnemonic" Json.text?,
    operands := ← fields.withDefault? "operands" [] (Json.list? (Operand.ofJson? .named)),
    effect := ← fields.withDefault? "effect" [] (Effect.ofJson? .named nestingLimit),
    altersControlFlow := ← fields.withDefault? "alters_control_flow" false Json.bool?,
    terminatesBlock := ← fields.withDefault? "terminates_block" false Json.bool? }

end Instruction

def Block.ofJson? (json : Json) : Option Block := do
  let fields ← json.fields? ["address", "instructions", "to"]
  return {
    address := ← fields.need? "address" Json.nat64?,
    instructions := ← fields.need? "instructions" (Json.list? Instruction.ofJson?),
    successors := ← fields.withDefault? "to" [] (Json.list? Json.nat64?) }

end Uncompile
