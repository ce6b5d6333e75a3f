import Uncompile.Config
import Uncompile.Format.Machine
import Uncompile.Json.Reader

/-!
# Program descriptions and configurations

The texts that a decompilation starts from. A program description lists blocks
with their instructions, labels and function entries; an instruction without an
effect gets the one that its mnemonic implies. Every field of a configuration
has a default, and a configuration has to be valid.
-/

namespace Uncompile

/-- The nesting depth at which the effect of an instruction starts: program,
block list, block, instruction list and instruction lie around it. -/
def effectRoom : Nat := nestingLimit - 5

namespace Program

def instructionOfJson? (json : Json) : Option Instruction := do
  let fields ← json.fields? ["address", "mnemonic", "operands", "effect"]
  let address ← fields.need? "address" Json.nat64?
  let mnemonic ← fields.need? "mnemonic" Json.text?
  let operands ← fields.withDefault? "operands" [] (Json.list? (Operand.ofJson? .listed))
  let effect ← fields.withDefault? "effect" none
    (Json.nullable? (Effect.ofJson? .listed effectRoom))
  let lifted := Instruction.ofMnemonic address mnemonic operands
  return { lifted with effect := effect.getD lifted.effect }

def blockOfJson? (json : Json) : Option Block := do
  let fields ← json.fields? ["address", "to", "instructions"]
  return {
    address := ← fields.need? "address" Json.nat64?,
    successors := ← fields.withDefault? "to" [] (Json.list? Json.nat64?),
    instructions := ← fields.need? "instructions" (Json.list? instructionOfJson?) }

def labelOfJson? (json : Json) : Option (Address × String) := do
  let fields ← json.fields? ["address", "name"]
  return (← fields.need? "address" Json.nat64?, ← fields.need? "name" Json.text?)

/-- The program of a description. Of two blocks or labels at one address the
later counts. -/
def ofJson? (json : Json) : Option Program := do
  let fields ← json.fields? ["blocks", "labels", "functions"]
  let blocks ← fields.need? "blocks" (Json.list? blockOfJson?)
  let labels ← fields.withDefault? "labels" [] (Json.list? labelOfJson?)
  let functions ← fields.withDefault? "functions" [] (Json.list? Json.nat64?)
  let withBlocks := blocks.foldl insertBlock {}
  let withLabels := labels.foldl (fun program label => program.setLabel label.1 label.2) withBlocks
  return functions.foldl addFunction withLabels

def parse? (text : String) : Option Program := (Json.parse? text).bind ofJson?

end Program

/-- Why a configuration text was not accepted. -/
inductive ConfigFailure where
  | malformed
  | invalid (error : ConfigError)

namespace Config

def toJson (config : Config) : Json :=
  .object [
    ("pointer_size", .nat config.pointerSize),
    ("scratch_registers", .list Reg.toJson config.scratchRegisters),
    ("fastcall_registers",
      .list Reg.toJson [config.fastcallRegisters.1, config.fastcallRegisters.2]),
    ("return_register", config.returnRegister.toJson),
    ("frame_register", config.frameRegister.toJson),
    ("label_prefix", .str config.labelPrefix),
    ("extern_prefix", .str config.externPrefix),
    ("max_stack_args", .nat config.maxStackArgs)]

/-- A configuration that need not be valid. -/
def fieldsOfJson? (json : Json) : Option Config := do
  let fields ← json.fields?
    ["pointer_size", "scratch_registers", "fastcall_registers", "return_register",
      "frame_register", "label_prefix", "extern_prefix", "max_stack_args"]
  let usual : Config := {}
  return {
    pointerSize := ← fields.withDefault? "pointer_size" usual.pointerSize Json.nat8?,
    scratchRegisters := ← fields.withDefault? "scratch_registers" usual.scratchRegisters
      (Json.list? Reg.ofJson?),
    fastcallRegisters := ← fields.withDefault? "fastcall_registers" usual.fastcallRegisters
      (Json.pair? Reg.ofJson? Reg.ofJson?),
    returnRegister := ← fields.withDefault? "return_register" usual.returnRegister Reg.ofJson?,
    frameRegister := ← fields.withDefault? "frame_register" usual.frameRegister Reg.ofJson?,
    labelPrefix := ← fields.withDefault? "label_prefix" usual.labelPrefix Json.text?,
    externPrefix := ← fields.withDefault? "extern_prefix" usual.externPrefix Json.text?,
    maxStackArgs := ← fields.withDefault? "max_stack_args" usual.maxStackArgs Json.nat64? }

def ofJson (json : Json) : Except ConfigFailure Config :=
  match fieldsOfJson? json with
  | none => .error .malformed
  | some config =>
    match config.violation? with
    | some error => .error (.invalid error)
    | none => .ok config

def parse (text : String) : Except ConfigFailure Config :=
  match Json.parse? text with
  | some json => ofJson json
  | none => .error .malformed

end Config

end Uncompile
