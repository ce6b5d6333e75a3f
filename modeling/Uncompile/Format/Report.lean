import Uncompile.Diagnostic
import Uncompile.Format.C
import Uncompile.Json.Writer
import Uncompile.Session

/-!
# JSON form of what is recovered

Recovered functions and diagnostics, and the dump of a session: all functions by
entry and all diagnostics in order.
-/

namespace Uncompile

namespace Storage

def toJson : Storage → Json
  | register reg => .tagged "register" reg.toJson
  | stack offset => .tagged "stack" (.object [("offset", .int offset)])

def ofJson? (json : Json) : Option Storage :=
  match json.choice? with
  | some ("register", some payload) => (Reg.ofJson? payload).map register
  | some ("stack", some payload) => do
    let fields ← payload.content? .named ["offset"]
    return stack (← fields.need? "offset" Json.int64?)
  | _ => none

end Storage

namespace Param

def toJson (p : Param) : Json :=
  .object [
    ("name", .str p.name),
    ("width", .nat p.width),
    ("unused", .bool p.unused),
    ("storage", p.storage.toJson)]

def ofJson? (json : Json) : Option Param := do
  let fields ← json.fields? ["name", "width", "unused", "storage"]
  return {
    name := ← fields.need? "name" Json.text?,
    width := ← fields.need? "width" Json.nat8?,
    unused := ← fields.need? "unused" Json.bool?,
    storage := ← fields.need? "storage" Storage.ofJson? }

end Param

namespace Convention

def tag : Convention → String
  | default => "default"
  | fastcall => "fastcall"
  | stdcall => "stdcall"

def toJson (convention : Convention) : Json := .str convention.tag

def ofJson? (json : Json) : Option Convention :=
  json.oneOf? ([default, fastcall, stdcall].map fun c => (c.tag, c))

end Convention

namespace Displacement

def toJson : Displacement → Json
  | bytes count => .tagged "bytes" (.int count)
  | symbolic value => .tagged "symbolic" value.toJson

def ofJson? (json : Json) : Option Displacement :=
  match json.choice? with
  | some ("bytes", some payload) => payload.int64?.map bytes
  | some ("symbolic", some payload) => (Expr.ofJson? .named nestingLimit payload).map symbolic
  | _ => none

end Displacement

namespace AbiNote

def toJson : AbiNote → Json
  | regArgs regs => .tagged "reg_args" (.list Reg.toJson regs)
  | stackOff count => .tagged "stack_off" (.int count)
  | breakStack displacements =>
    .tagged "break_stack" (.list Displacement.toJson displacements)

def ofJson? (json : Json) : Option AbiNote :=
  match json.choice? with
  | some ("reg_args", some payload) => (payload.list? Reg.ofJson?).map regArgs
  | some ("stack_off", some payload) => payload.int64?.map stackOff
  | some ("break_stack", some payload) => (payload.list? Displacement.ofJson?).map breakStack
  | _ => none

end AbiNote

namespace RecoveredFunction

def toJson (f : RecoveredFunction) : Json :=
  .object [
    ("name", .str f.name),
    ("entry", .nat f.entry),
    ("params", .list Param.toJson f.params),
    ("convention", f.convention.toJson),
    ("notes", .list AbiNote.toJson f.notes),
    ("no_return", .bool f.noReturn),
    ("body", .list Stmt.toJson f.body)]

def ofJson? (json : Json) : Option RecoveredFunction := do
  let fields ← json.fields?
    ["name", "entry", "params", "convention", "notes", "no_return", "body"]
  return {
    name := ← fields.need? "name" Json.text?,
    entry := ← fields.need? "entry" Json.nat64?,
    params := ← fields.need? "params" (Json.list? Param.ofJson?),
    convention := ← fields.need? "convention" Convention.ofJson?,
    notes := ← fields.need? "notes" (Json.list? AbiNote.ofJson?),
    noReturn := ← fields.need? "no_return" Json.bool?,
    body := ← fields.need? "body" (Json.list? (Stmt.ofJson? nestingLimit)) }

end RecoveredFunction

def Diagnostic.toJson : Diagnostic → Json
  | unresolvedFrame entry blocks =>
    .tagged "unresolved_frame" (.object [("entry", .nat entry), ("blocks", .list .nat blocks)])
  | missingTerminator block => .tagged "missing_terminator" (.object [("block", .nat block)])
  | multipleSuccessors block count =>
    .tagged "multiple_successors" (.object [("block", .nat block), ("count", .nat count)])
  | ambiguousAbi entry displacements =>
    .tagged "ambiguous_abi" (.object
      [("entry", .nat entry), ("displacements", .list Displacement.toJson displacements)])
  | cyclicCommit block => .tagged "cyclic_commit" (.object [("block", .nat block)])
  | sparseStackArgs entry offset =>
    .tagged "sparse_stack_args" (.object [("entry", .nat entry), ("offset", .int offset)])

/-- Everything a session has recovered. -/
def Session.dump (session : Session) : Json :=
  .object [
    ("functions", .list RecoveredFunction.toJson session.functions.values),
    ("diagnostics", .list Diagnostic.toJson session.diagnostics)]

end Uncompile
