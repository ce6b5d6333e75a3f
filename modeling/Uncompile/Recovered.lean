import Uncompile.C.Declaration
import Uncompile.C.Stmt

/-!
# Recovered functions

What decompiling a function finds: its parameters and where they are passed,
its calling convention, remarks on what does not fit a convention, and its body.
-/

namespace Uncompile

/-- Where a parameter is passed. -/
inductive Storage where
  | register (reg : Reg)
  /-- Offset from the stack pointer at function entry. -/
  | stack (offset : Int)
  deriving DecidableEq

structure Param where
  name : String
  /-- Width in bytes. -/
  width : Nat
  unused : Bool
  storage : Storage
  deriving DecidableEq

namespace Param

def ofRegister (reg : Reg) (width : Nat) (unused : Bool) : Param :=
  { name := reg.name, width, unused, storage := .register reg }

def isStack (p : Param) : Bool :=
  match p.storage with
  | .stack _ => true
  | .register _ => false

def isUnusedRegister (p : Param) : Bool := !p.isStack && p.unused

end Param

/-- The name of the stack variable at an offset from the entry stack pointer.
Arguments start behind the four bytes of the return address. -/
def stackVarName (offset : Int) : String :=
  if 4 ≤ offset then "arg_" ++ hexDigits (offset - 4).toNat
  else if offset < 0 then "var_" ++ hexDigits offset.natAbs
  else "retaddr"

inductive Convention where
  | default | fastcall | stdcall
  deriving DecidableEq

/-- By how much a return moves the stack pointer, the return address apart. -/
inductive Displacement where
  | bytes (count : Int)
  | symbolic (value : Expr)
  deriving DecidableEq

def Displacement.text : Displacement → String
  | bytes count => decimalText count
  | symbolic value => value.text

/-- Remarks on what the calling convention does not say. -/
inductive AbiNote where
  /-- Registers that carry input outside a calling convention. -/
  | regArgs (regs : List Reg)
  /-- Bytes that a return drops beyond what the parameters explain. -/
  | stackOff (count : Int)
  /-- Returns that disagree on what they drop, or do not tell. -/
  | breakStack (displacements : List Displacement)
  deriving DecidableEq

def AbiNote.text : AbiNote → String
  | regArgs regs => "regargs:[" ++ ", ".intercalate (regs.map Reg.name) ++ "]"
  | stackOff count => "stackoff:" ++ decimalText count
  | breakStack displacements =>
    "breakstack:[" ++ ", ".intercalate (displacements.map Displacement.text) ++ "]"

structure RecoveredFunction where
  name : String
  entry : Nat
  params : List Param := []
  convention : Convention := .default
  notes : List AbiNote := []
  noReturn : Bool := false
  body : List Stmt := []

namespace RecoveredFunction

def stackParams (f : RecoveredFunction) : List Param := f.params.filter Param.isStack

/-- The prototype that callers see. -/
def type (f : RecoveredFunction) : FunctionType :=
  { ret := if f.noReturn then .void else .word,
    params := f.params.map fun p =>
      { name := some p.name, type := .ofBytes p.width, unused := p.unused },
    fastcall := f.convention = .fastcall,
    stdcall := f.convention = .stdcall,
    attributes := f.notes.map AbiNote.text ++ if f.noReturn then ["noreturn"] else [] }

def declaration (f : RecoveredFunction) : Declaration :=
  { name := f.name, kind := .function f.type }

end RecoveredFunction

end Uncompile
