import Uncompile.C.Text
import Uncompile.Convention
import Uncompile.Emission.Body
import Uncompile.Frame.StackArgs

/-!
# Decompilation sessions

A session decompiles functions of one disassembler one at a time. What is found
of a function is declared, so that functions decompiled later call it by its
recovered prototype.
-/

namespace Uncompile

structure Session where
  disassembly : Disassembler
  config : Config := {}
  declarations : DeclTable := {}
  functions : SortedMap Address RecoveredFunction := .empty
  diagnostics : List Diagnostic := []

namespace Session

def declare (session : Session) (decl : Declaration) : Session :=
  { session with declarations := session.declarations.insert decl }

def report (session : Session) (diagnostics : List Diagnostic) : Session :=
  { session with diagnostics := session.diagnostics ++ diagnostics }

/-- The diagnostic for blocks with an unknown stack pointer, if there are any. -/
def frameDiagnostics (scope : FrameScope) : List Diagnostic :=
  if scope.unresolved.isEmpty then [] else [.unresolvedFrame scope.entry scope.unresolved]

/-- A function with its body, register parameters and the evidence of its
returns, before its stack parameters and its convention are settled. -/
structure Draft where
  function : RecoveredFunction
  emission : Emission
  evidence : Option (List Displacement)

/-- Why a function could not be drafted, and what emission had declared and
reported by then. -/
structure Failure where
  error : DecompileError
  declarations : DeclTable
  diagnostics : List Diagnostic := []

/-- Analyses and emits a function within its frame scope. -/
def draft (session : Session) (scope : FrameScope) (blocks : List Address) :
    Except Failure Draft :=
  let config := session.config
  let name := session.disassembly.nameOf scope.entry config.externPrefix
  let analysis : AnalysisContext := { scope, declarations := session.declarations, config }
  match analysis.analyze blocks { name, entry := scope.entry } with
  | .error error => .error { error, declarations := session.declarations }
  | .ok (deps, f) =>
    let emitter : EmissionContext := { scope, config }
    match emitter.emit deps session.declarations blocks with
    | .error error =>
      let reached := emitter.emitted deps blocks { declarations := session.declarations }
      .error { error, declarations := reached.declarations, diagnostics := reached.diagnostics }
    | .ok emission =>
      .ok {
        function := { f with body := emission.body },
        emission,
        evidence := scope.program.returnEvidence scope.entry config.pointerSize }

/-- Adds the stack parameters to a drafted function and settles its convention. -/
def settle (config : Config) (draft : Draft) : RecoveredFunction × List Diagnostic :=
  let f := draft.function
  let (params, sparse) := stackParams f.body config.pointerSize config.maxStackArgs
  let (settled, ambiguous) :=
    { f with params := f.params ++ params }.finalize draft.evidence config.pointerSize
  (settled, (sparse.map fun offset => .sparseStackArgs f.entry offset).toList ++
    ambiguous.toList)

/-- Decompiles the function at an entry. The binding table is used while the
function is analysed and handed back as it was, also when it fails. -/
def decompile (session : Session) (entry : Address) :
    Session × Except DecompileError RecoveredFunction :=
  if (session.disassembly.block? entry).isNone then (session, .error (.unknownEntry entry))
  else
    let blocks := session.disassembly.functionBlocks entry
    let scope :=
      FrameScope.install session.disassembly entry blocks session.config.frameRegister
    let framed := { session with disassembly := scope.release }.report (frameDiagnostics scope)
    match session.draft scope blocks with
    | .error failure =>
      ({ framed with declarations := failure.declarations }.report failure.diagnostics,
        .error failure.error)
    | .ok draft =>
      let (f, diagnostics) := settle session.config draft
      let done :=
        { framed with
          declarations := draft.emission.declarations.insert f.declaration,
          functions := framed.functions.insert entry f }
      (done.report (draft.emission.diagnostics ++ diagnostics), .ok f)

/-- Decompiles functions in order, up to the first that fails. -/
def decompileAll (session : Session) : List Address → Session × Except DecompileError Unit
  | [] => (session, .ok ())
  | entry :: rest =>
    match session.decompile entry with
    | (next, .ok _) => next.decompileAll rest
    | (next, .error error) => (next, .error error)

/-- The lines of the C text of all functions decompiled so far. -/
def render (session : Session) : List String :=
  CText.program session.declarations session.functions.values

end Session

end Uncompile
