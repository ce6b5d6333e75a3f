import Uncompile.Diagnostic
import Uncompile.Frame.Scope

/-!
# Calling conventions

How far each return moves the stack pointer is evidence for who removes the
arguments. Unused fastcall registers are dropped from the parameters first; then
the evidence decides between the conventions, or is left as a note.
-/

namespace Uncompile

namespace Disassembler

/-- The stack pointer after an instruction, in terms of the state before it. -/
def stackPointerAfter (insn : Instruction) : Expr :=
  match insn.effect.find? fun write => write.1.asSymbol? = some (.reg .esp) with
  | some write => write.2
  | none => .reg .esp

/-- The displacement of a return whose stack pointer before it is `before`. -/
def displacement (pointerSize : Nat) (after before : Expr) : Displacement :=
  let bound := after.bind (SortedMap.empty.insert (.reg .esp) before)
  match (Expr.binary .sub bound (.sym .framePtr)).reduce with
  | .const n => .bytes (n - pointerSize)
  | moved => .symbolic moved

/-- The displacements that one return may have. -/
def siteEvidence (program : Disassembler) (entry : Address) (pointerSize : Nat)
    (site : Address) : List Displacement :=
  match program.instruction? site with
  | none => []
  | some insn =>
    let candidates := program.resolve (.reg .esp) site entry
    let before := if candidates.isEmpty then [.reg .esp] else candidates
    before.map (displacement pointerSize (stackPointerAfter insn))

/-- The displacements of all returns of a function, each once; there is no
evidence if there is no return. -/
def returnEvidence (program : Disassembler) (entry : Address) (pointerSize : Nat) :
    Option (List Displacement) :=
  match program.returnSites entry with
  | [] => none
  | sites => some (OrderedSet.addAll [] (sites.flatMap (program.siteEvidence entry pointerSize)))

end Disassembler

/-- The evidence of the returns of a function of a program. -/
def Program.returnEvidence (program : Program) (entry : Address) (pointerSize : Nat) :
    Option (List Displacement) :=
  program.disassembler.returnEvidence entry pointerSize

namespace RecoveredFunction

/-- Drops fastcall registers that are not used: both, or the second one if no
stack parameter follows. Without register parameters the callee still removes
the stack parameters that are left. -/
def demoteFastcall (f : RecoveredFunction) : RecoveredFunction :=
  if f.convention = .fastcall then
    match f.params with
    | first :: second :: rest =>
      if first.isUnusedRegister && second.isUnusedRegister then
        { f with
          params := rest,
          convention := if rest.isEmpty then .default else .stdcall }
      else if rest.isEmpty && second.isUnusedRegister then { f with params := [first] }
      else f
    | _ => f
  else f

/-- What a single displacement says: nothing if it is zero, that the callee
removes its parameters if it is a slot for each of them, and a note otherwise. -/
def applyDisplacement (f : RecoveredFunction) (pointerSize : Nat) (n : Int) : RecoveredFunction :=
  let slot : Int := (max pointerSize 1 : Nat)
  if n = 0 then f
  else if n.tmod slot = 0 ∧ n.tdiv slot = f.stackParams.length then
    if f.convention = .fastcall then f else { f with convention := .stdcall }
  else { f with notes := f.notes ++ [.stackOff n] }

/-- Settles the calling convention of a function from the evidence of its
returns. -/
def finalize (f : RecoveredFunction) (evidence : Option (List Displacement))
    (pointerSize : Nat) : RecoveredFunction × Option Diagnostic :=
  let demoted := f.demoteFastcall
  match evidence with
  | none => ({ demoted with noReturn := true }, none)
  | some [.bytes n] => (demoted.applyDisplacement pointerSize n, none)
  | some displacements =>
    ({ demoted with notes := demoted.notes ++ [.breakStack displacements] },
      some (.ambiguousAbi demoted.entry displacements))

end RecoveredFunction

end Uncompile
