import Uncompile.Emission.Lowering

/-!
# Function bodies

The blocks of a function are emitted one after the other. A block falls through
to the next one where it can and jumps where it must; labels are put in front
of the blocks that are jumped to or that have a name.
-/

namespace Uncompile

namespace EmissionContext

/-- How a block continues after its last instruction when `next` is the block
emitted after it. -/
def finishBlock (context : EmissionContext) (block : Block) (next : Option Address)
    (l : Lowering) : Emission :=
  match l.successors with
  | [] =>
    if next.isSome && !block.endsWithTransfer then
      (l.report (.missingTerminator block.address)).emission
    else l.emission
  | [only] =>
    if some only = next then l.emission
    else ((l.markGoto only).emit (.goto (context.labelFor only))).emission
  | many => (l.report (.multipleSuccessors block.address many.length)).emission

/-- Emits a block; `next` is the block emitted after it. -/
def emitBlock (context : EmissionContext) (deps : Dependencies) (block : Block)
    (next : Option Address) (emission : Emission) : Emission :=
  let inner : BlockContext :=
    { context with block := block.address, required := deps.writes block.address }
  let start : Lowering :=
    { emission := { emission with
        blockStarts := emission.blockStarts ++ [(block.address, emission.body.length)] },
      state := { live := context.scope.blockFrame block.address },
      successors := block.successors }
  let lowered := inner.lowerAll block.instructions start
  context.finishBlock block next (inner.commit inner.required BlockContext.never lowered)

def emitBlocks (context : EmissionContext) (deps : Dependencies) :
    List Address → Emission → Except DecompileError Emission
  | [], emission => .ok emission
  | address :: rest, emission =>
    match context.scope.block? address with
    | none => .error (.missingBlock address)
    | some block => context.emitBlocks deps rest (context.emitBlock deps block rest.head? emission)

/-- What has been emitted when emission ends: after the last block, or at the first
one that is missing. -/
def emitted (context : EmissionContext) (deps : Dependencies) :
    List Address → Emission → Emission
  | [], emission => emission
  | address :: rest, emission =>
    match context.scope.block? address with
    | none => emission
    | some block => context.emitted deps rest (context.emitBlock deps block rest.head? emission)

/-- Whether a label is put in front of a block. -/
def needsLabel (context : EmissionContext) (emission : Emission) (address : Address) : Bool :=
  address ∈ emission.gotoTargets ||
    (address ≠ context.scope.entry && (context.scope.program.labelAt? address).isSome)

def insertLabel (body : List Stmt) (position : Nat) (label : String) : List Stmt :=
  body.take position ++ .label label :: body.drop position

/-- The body with its labels. The last label is put in first, so that positions
before it stay valid. -/
def placeLabels (context : EmissionContext) (emission : Emission) : List Stmt :=
  let labelled := emission.blockStarts.filter fun start => context.needsLabel emission start.1
  labelled.foldr (fun start body => insertLabel body start.2 (context.labelFor start.1))
    emission.body

/-- Emits a function whose declarations so far are given: the emission with the
labelled body. -/
def emit (context : EmissionContext) (deps : Dependencies) (declarations : DeclTable)
    (blocks : List Address) : Except DecompileError Emission := do
  let emission ← context.emitBlocks deps blocks { declarations }
  return { emission with body := context.placeLabels emission }

end EmissionContext

end Uncompile
