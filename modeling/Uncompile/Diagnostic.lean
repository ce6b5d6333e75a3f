import Uncompile.Recovered

/-!
# Diagnostics and errors

A diagnostic records that part of a function was recovered less than exactly. An
error means that the input itself does not allow an answer.
-/

namespace Uncompile

inductive Diagnostic where
  /-- Blocks where the stack pointer has no known distance from the entry's. -/
  | unresolvedFrame (entry : Nat) (blocks : List Nat)
  /-- A block without successor that does not end in a return or jump. -/
  | missingTerminator (block : Nat)
  /-- A block that still has several successors when its branches are written. -/
  | multipleSuccessors (block count : Nat)
  /-- Returns that do not agree on one stack displacement. -/
  | ambiguousAbi (entry : Nat) (displacements : List Displacement)
  /-- Pending assignments that read each other in a circle. -/
  | cyclicCommit (block : Nat)
  /-- An argument so far out that the slots before it were not filled in. -/
  | sparseStackArgs (entry : Nat) (offset : Int)
  deriving DecidableEq

def Diagnostic.text : Diagnostic → String
  | unresolvedFrame entry blocks =>
    "function " ++ addressText entry ++ ": stack pointer unresolved at " ++
      ", ".intercalate (blocks.map addressText)
  | missingTerminator block =>
    "block " ++ addressText block ++ " has no successor and no ret/jmp"
  | multipleSuccessors block count =>
    "block " ++ addressText block ++ " still has " ++ decimalText count ++
      " successors after lowering"
  | ambiguousAbi entry displacements =>
    "function " ++ addressText entry ++ ": inconsistent stack displacement at returns [" ++
      ", ".intercalate (displacements.map Displacement.text) ++ "]"
  | cyclicCommit block =>
    "block " ++ addressText block ++ ": cyclic register assignments committed in log order"
  | sparseStackArgs entry offset =>
    "function " ++ addressText entry ++ ": stack argument at +0x" ++ hexDigits offset.toNat ++
      " too far, unreferenced slots omitted"

inductive DecompileError where
  | unknownEntry (entry : Nat)
  | missingBlock (block : Nat)
  deriving DecidableEq

def DecompileError.message : DecompileError → String
  | unknownEntry entry => "no basic block at function entry " ++ addressText entry
  | missingBlock block =>
    "basic block " ++ addressText block ++ " is missing from the disassembly"

end Uncompile
