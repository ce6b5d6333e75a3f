import Uncompile.Format.Program
import Uncompile.Format.Report

/-!
# Command line

Arguments name a program description and options: entries to decompile, a
configuration file, and whether the result is dumped as JSON. `CommandLine.run`
says what is printed and how the process ends, given what files hold.
-/

namespace Uncompile

/-- Why a text is no address. -/
inductive AddressError where
  | empty
  | invalidDigit
  | tooLarge

def AddressError.message : AddressError → String
  | empty => "cannot parse integer from empty string"
  | invalidDigit => "invalid digit found in string"
  | tooLarge => "number too large to fit in target type"

namespace CommandLine

def digitValue? (radix : Nat) (c : Char) : Option Nat :=
  let value? :=
    if '0' ≤ c ∧ c ≤ '9' then some (c.toNat - '0'.toNat)
    else if 'a' ≤ c ∧ c ≤ 'z' then some (c.toNat - 'a'.toNat + 10)
    else if 'A' ≤ c ∧ c ≤ 'Z' then some (c.toNat - 'A'.toNat + 10)
    else none
  value?.filter (· < radix)

/-- The digits of a 64-bit number from left to right, the first fault deciding. -/
def digitsValue (radix : Nat) : (read : Nat) → List Char → Except AddressError Nat
  | read, [] => .ok read
  | read, c :: rest =>
    match digitValue? radix c with
    | none => .error .invalidDigit
    | some digit =>
      let value := read * radix + digit
      if value < 18446744073709551616 then digitsValue radix value rest else .error .tooLarge

/-- A number with an optional plus sign. -/
def unsignedValue (radix : Nat) (cs : List Char) : Except AddressError Nat :=
  match cs with
  | [] => .error .empty
  | ['+'] => .error .invalidDigit
  | '+' :: rest => digitsValue radix 0 rest
  | cs => digitsValue radix 0 cs

/-- An address in decimal, or in hexadecimal after `0x`. -/
def address (text : String) : Except AddressError Address :=
  match text.toList with
  | '0' :: 'x' :: digits => unsignedValue 16 digits
  | '0' :: 'X' :: digits => unsignedValue 16 digits
  | digits => unsignedValue 10 digits

inductive UsageError where
  | badAddress (text : String) (error : AddressError)
  /-- Unknown, missing or repeated arguments. -/
  | arguments

def UsageError.line? : UsageError → Option String
  | badAddress text error => some ("invalid address '" ++ text ++ "': " ++ error.message)
  | arguments => none

/-- What takes a value. -/
inductive Setting where
  | program | entry | config

structure Options where
  program : Option String := none
  entries : List Address := []
  config : Option String := none
  json : Bool := false
  verbose : Bool := false
  /-- A setting whose value has not been looked at yet, or is still to come. -/
  pending : Option (Setting × Option String) := none
  /-- Whether only the program can follow. -/
  positional : Bool := false

namespace Options

/-- Takes over the value of a setting. -/
def set (options : Options) (setting : Setting) (value : String) : Except UsageError Options :=
  match setting with
  | .entry =>
    match address value with
    | .ok entry => .ok { options with entries := options.entries ++ [entry] }
    | .error error => .error (.badAddress value error)
  | .config =>
    if options.config.isSome || value.isEmpty then .error .arguments
    else .ok { options with config := some value }
  | .program => if value.isEmpty then .error .arguments else .ok { options with program := value }

/-- Looks at the pending value. -/
def resolve (options : Options) : Except UsageError Options :=
  match options.pending with
  | none => .ok options
  | some (_, none) => .error .arguments
  | some (setting, some value) => { options with pending := none }.set setting value

/-- A setting with its value, or one whose value is the next argument. -/
def take (options : Options) (setting : Setting) (value : Option String) :
    Except UsageError Options := do
  let resolved ← options.resolve
  match value with
  | some value => resolved.set setting value
  | none => return { resolved with pending := some (setting, none) }

def setJson (options : Options) : Except UsageError Options := do
  let resolved ← options.resolve
  if resolved.json then .error .arguments else return { resolved with json := true }

def setVerbose (options : Options) : Except UsageError Options := do
  let resolved ← options.resolve
  if resolved.verbose then .error .arguments else return { resolved with verbose := true }

/-- The value of a short option that follows it in the same argument. -/
def attachedValue? (rest : List Char) : Option String :=
  match rest with
  | [] => none
  | '=' :: value => some (String.ofList value)
  | value => some (String.ofList value)

/-- The letters of an argument with one dash. -/
def short (options : Options) : List Char → Except UsageError Options
  | [] => .ok options
  | 'v' :: rest => do (← options.setVerbose).short rest
  | 'e' :: rest => options.take .entry (attachedValue? rest)
  | 'c' :: rest => options.take .config (attachedValue? rest)
  | _ :: _ => .error .arguments

/-- An argument with two dashes. -/
def long (options : Options) (name : String) (value : Option String) :
    Except UsageError Options :=
  match name, value with
  | "entry", value => options.take .entry value
  | "config", value => options.take .config value
  | "json", none => options.setJson
  | "verbose", none => options.setVerbose
  | _, _ => .error .arguments

/-- An argument without dash: the value that is waited for, or the program. -/
def plain (options : Options) (arg : String) : Except UsageError Options :=
  match options.pending, options.positional with
  | some (setting, none), false => .ok { options with pending := some (setting, some arg) }
  | pending, _ =>
    let given := options.program.isSome || pending.any fun p => p.1 matches .program
    if given then .error .arguments
    else do return { (← options.resolve) with pending := some (.program, some arg) }

/-- The name and value of a long option. -/
def splitLong (cs : List Char) : String × Option String :=
  let name := String.ofList (cs.takeWhile (· ≠ '='))
  match cs.dropWhile (· ≠ '=') with
  | [] => (name, none)
  | _ :: value => (name, some (String.ofList value))

def argument (options : Options) (arg : String) : Except UsageError Options :=
  if options.positional then options.plain arg
  else match arg.toList with
    | ['-', '-'] => .ok { options with positional := true }
    | '-' :: '-' :: cs => options.long (splitLong cs).1 (splitLong cs).2
    | '-' :: c :: cs => options.short (c :: cs)
    | _ => options.plain arg

/-- The options of an argument list; a program has to be named. -/
def ofArguments (args : List String) : Except UsageError Options := do
  let read ← args.foldlM argument {}
  let options ← read.resolve
  if options.program.isSome then return options else .error .arguments

end Options

/-- Where the configuration comes from. -/
inductive ConfigSource where
  | usual
  | option (path : String)
  | environment (path : String)

def ConfigSource.path? : ConfigSource → Option String
  | usual => none
  | option path => some path
  | environment path => some path

/-- The message when a configuration cannot be loaded. -/
def ConfigSource.failure : ConfigSource → String
  | option path => "loading config " ++ path
  | _ => "loading config from environment"

/-- The option comes before the environment; an empty variable counts as unset. -/
def configSource (options : Options) (configPath : Option String) : ConfigSource :=
  match options.config, configPath with
  | some path, _ => .option path
  | none, some path => if path.isEmpty then .usual else .environment path
  | none, none => .usual

/-- The files that a run with these arguments looks at. -/
def inputFiles (args : List String) (configPath : Option String) : List String :=
  match Options.ofArguments args with
  | .error _ => []
  | .ok options => (configSource options configPath).path?.toList ++ options.program.toList

def loadConfig (source : ConfigSource) (read : String → Option String) : Except String Config :=
  match source.path? with
  | none => .ok {}
  | some path =>
    match (read path).map Config.parse with
    | some (.ok config) => .ok config
    | _ => .error source.failure

def loadProgram (path : String) (read : String → Option String) : Except String Program :=
  match (read path).bind Program.parse? with
  | some program => .ok program
  | none => .error ("loading program " ++ path)

/-- Decompiles entries in order, up to the first that fails. -/
def decompileEntries (session : Session) : List Address → Except String Session
  | [] => .ok session
  | entry :: rest =>
    match session.decompile entry with
    | (next, .ok _) => decompileEntries next rest
    | (_, .error _) => .error ("decompiling function at " ++ addressText entry)

/-- The text that a run prints, or the reason why it prints none. -/
def output (options : Options) (configPath : Option String) (read : String → Option String) :
    Except String String := do
  let config ← loadConfig (configSource options configPath) read
  let program ← loadProgram (options.program.getD "") read
  let entries := if options.entries.isEmpty then program.functions else options.entries
  if entries.isEmpty then
    .error "no function entries given and none listed in the program description"
  else
    let session ← decompileEntries { disassembly := program.disassembler, config } entries
    if options.json then return session.dump.pretty 0 ++ "\n"
    else return "\n".intercalate session.render ++ "\n"

structure Outcome where
  exitCode : Nat
  stdout : String := ""
  errorLine : Option String := none

/-- What a run prints and how it ends. `configPath` is the configuration path from
the environment, and `read` gives the content of files. -/
def run (args : List String) (configPath : Option String) (read : String → Option String) :
    Outcome :=
  match Options.ofArguments args with
  | .error error => { exitCode := 2, errorLine := error.line? }
  | .ok options =>
    match output options configPath read with
    | .ok text => { exitCode := 0, stdout := text }
    | .error line => { exitCode := 1, errorLine := some line }

end CommandLine

end Uncompile
