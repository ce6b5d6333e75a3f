import Uncompile.C.Declaration
import Uncompile.C.Stmt
import Uncompile.Format.Machine

/-!
# JSON form of the C model

Types, expressions, statements and declarations of recovered programs. Choices
are tagged with capitalised names.
-/

namespace Uncompile

namespace CType

mutual

def toJson : CType → Json
  | void => .str "Void"
  | int bits => .tagged "Int" (.nat bits)
  | ushort => .str "UShort"
  | struct name => .tagged "Struct" (.str name)
  | pointer inner => .tagged "Pointer" inner.toJson
  | function ret params =>
    .tagged "Function" (.object [("ret", ret.toJson), ("params", .arr (listToJson params))])

def listToJson : List CType → List Json
  | [] => []
  | type :: rest => type.toJson :: listToJson rest

end

def ofJson? : (room : Nat) → Json → Option CType
  | 0, _ => none
  | room + 1, json =>
    match json.choice? with
    | some ("Int", some payload) => payload.nat8?.map int
    | some ("Struct", some payload) => payload.text?.map struct
    | some ("Pointer", some payload) => (ofJson? room payload).map pointer
    | some ("Function", some payload) => do
      let fields ← payload.content? .named ["ret", "params"]
      return function (← fields.need? "ret" (ofJson? room))
        (← fields.need? "params" (Json.list? (ofJson? room)))
    | _ => json.oneOf? [("Void", void), ("UShort", ushort)]

end CType

namespace CExpr

mutual

def toJson : CExpr → Json
  | var name => .tagged "Var" (.str name)
  | const value => .tagged "Const" (.int value)
  | stackVar offset size =>
    .tagged "StackVar" (.object [("offset", .int offset), ("size", .nat size)])
  | addrOf inner => .tagged "AddrOf" inner.toJson
  | deref ptr size => .tagged "Deref" (.object [("ptr", ptr.toJson), ("size", .nat size)])
  | unary op arg => .tagged "Unary" (.object [("op", op.toJson), ("arg", arg.toJson)])
  | binary op lhs rhs =>
    .tagged "Binary" (.object [("op", op.toJson), ("lhs", lhs.toJson), ("rhs", rhs.toJson)])
  | preDec inner => .tagged "PreDec" inner.toJson
  | call name args =>
    .tagged "Call" (.object
      [("callee", .tagged "Named" (.str name)), ("args", .arr (listToJson args))])
  | callPointer target ret args =>
    .tagged "Call" (.object
      [("callee", .tagged "Pointer" (.object
          [("target", target.toJson), ("ret", ret.toJson)])),
        ("args", .arr (listToJson args))])

def listToJson : List CExpr → List Json
  | [] => []
  | e :: rest => e.toJson :: listToJson rest

end

/-- A call from its callee and arguments, the expressions read by `decode`. -/
def callOfJson? (decode : Json → Option CExpr) (payload : Json) : Option CExpr := do
  let fields ← payload.content? .named ["callee", "args"]
  let args ← fields.need? "args" (Json.list? decode)
  match (← fields.get? "callee").choice? with
  | some ("Named", some name) => return call (← name.text?) args
  | some ("Pointer", some pointer) => do
    let inner ← pointer.content? .named ["target", "ret"]
    return callPointer (← inner.need? "target" decode)
      (← inner.need? "ret" (CType.ofJson? nestingLimit)) args
  | _ => none

def ofJson? : (room : Nat) → Json → Option CExpr
  | 0, _ => none
  | room + 1, json =>
    match json.choice? with
    | some ("Var", some payload) => payload.text?.map var
    | some ("Const", some payload) => payload.int64?.map const
    | some ("StackVar", some payload) => do
      let fields ← payload.content? .named ["offset", "size"]
      return stackVar (← fields.need? "offset" Json.int64?) (← fields.need? "size" Json.nat8?)
    | some ("AddrOf", some payload) => (ofJson? room payload).map addrOf
    | some ("Deref", some payload) => do
      let fields ← payload.content? .named ["ptr", "size"]
      return deref (← fields.need? "ptr" (ofJson? room)) (← fields.need? "size" Json.nat8?)
    | some ("Unary", some payload) => do
      let fields ← payload.content? .named ["op", "arg"]
      return unary (← fields.need? "op" UnOp.ofJson?) (← fields.need? "arg" (ofJson? room))
    | some ("Binary", some payload) => do
      let fields ← payload.content? .named ["op", "lhs", "rhs"]
      return binary (← fields.need? "op" BinOp.ofJson?) (← fields.need? "lhs" (ofJson? room))
        (← fields.need? "rhs" (ofJson? room))
    | some ("PreDec", some payload) => (ofJson? room payload).map preDec
    | some ("Call", some payload) => callOfJson? (ofJson? room) payload
    | _ => none

def parts? (json : Json) : Option CExpr := ofJson? nestingLimit json

end CExpr

namespace Stmt

def toJson : Stmt → Json
  | label name => .tagged "Label" (.str name)
  | assign lhs rhs =>
    .tagged "Assign" (.object [("lhs", lhs.toJson), ("rhs", rhs.toJson)])
  | ifThen cond body =>
    .tagged "If" (.object [("cond", cond.toJson), ("then", body.toJson)])
  | goto name => .tagged "Goto" (.str name)
  | ret value => .tagged "Return" (.nullable CExpr.toJson value)
  | expr e => .tagged "Expr" e.toJson
  | asm text => .tagged "Asm" (.str text)

def ofJson? : (room : Nat) → Json → Option Stmt
  | 0, _ => none
  | room + 1, json =>
    match json.choice? with
    | some ("Label", some payload) => payload.text?.map label
    | some ("Assign", some payload) => do
      let fields ← payload.content? .named ["lhs", "rhs"]
      return assign (← fields.need? "lhs" CExpr.parts?) (← fields.need? "rhs" CExpr.parts?)
    | some ("If", some payload) => do
      let fields ← payload.content? .named ["cond", "then"]
      return ifThen (← fields.need? "cond" CExpr.parts?)
        (← fields.need? "then" (ofJson? room))
    | some ("Goto", some payload) => payload.text?.map goto
    | some ("Return", some payload) => (payload.nullable? CExpr.parts?).map ret
    | some ("Expr", some payload) => (CExpr.parts? payload).map expr
    | some ("Asm", some payload) => payload.text?.map asm
    | _ => none

end Stmt

namespace ParamType

def toJson (p : ParamType) : Json :=
  .object [
    ("name", .nullable .str p.name),
    ("ty", p.type.toJson),
    ("unused", .bool p.unused)]

def ofJson? (json : Json) : Option ParamType := do
  let fields ← json.fields? ["name", "ty", "unused"]
  return {
    name := ← fields.withDefault? "name" none (Json.nullable? Json.text?),
    type := ← fields.need? "ty" (CType.ofJson? nestingLimit),
    unused := ← fields.withDefault? "unused" false Json.bool? }

end ParamType

namespace FunctionType

def toJson (type : FunctionType) : Json :=
  .object [
    ("ret", type.ret.toJson),
    ("params", .list ParamType.toJson type.params),
    ("fastcall", .bool type.fastcall),
    ("stdcall", .bool type.stdcall),
    ("attributes", .list .str type.attributes)]

def ofJson? (json : Json) : Option FunctionType := do
  let fields ← json.fields? ["ret", "params", "fastcall", "stdcall", "attributes"]
  return {
    ret := ← fields.need? "ret" (CType.ofJson? nestingLimit),
    params := ← fields.need? "params" (Json.list? ParamType.ofJson?),
    fastcall := ← fields.withDefault? "fastcall" false Json.bool?,
    stdcall := ← fields.withDefault? "stdcall" false Json.bool?,
    attributes := ← fields.withDefault? "attributes" [] (Json.list? Json.text?) }

end FunctionType

namespace Declaration

def kindToJson : DeclKind → Json
  | .function type => .tagged "Function" type.toJson
  | .struct fields packed =>
    .tagged "Struct" (.object [
      ("fields", .list (fun field => .arr [.str field.1, field.2.toJson]) fields),
      ("packed", .nullable .nat packed)])

def toJson (decl : Declaration) : Json :=
  .object [("name", .str decl.name), ("kind", kindToJson decl.kind)]

def kindOfJson? (json : Json) : Option DeclKind :=
  match json.choice? with
  | some ("Function", some payload) => (FunctionType.ofJson? payload).map .function
  | some ("Struct", some payload) => do
    let fields ← payload.content? .named ["fields", "packed"]
    return .struct
      (← fields.need? "fields" (Json.list? (Json.pair? Json.text? (CType.ofJson? nestingLimit))))
      (← fields.withDefault? "packed" none (Json.nullable? Json.nat8?))
  | _ => none

def ofJson? (json : Json) : Option Declaration := do
  let fields ← json.fields? ["name", "kind"]
  return { name := ← fields.need? "name" Json.text?, kind := ← fields.need? "kind" kindOfJson? }

end Declaration

end Uncompile
