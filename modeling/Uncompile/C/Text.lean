import Uncompile.C.Declaration
import Uncompile.C.Stmt
import Uncompile.Recovered

/-!
# C text

How recovered functions are written. An operand is parenthesised when it binds
weaker than its place asks for; unsigned operators cast their left operand;
adding a small negative constant is written as a subtraction.
-/

namespace Uncompile

namespace CText

/-- Binding strength of prefix operators and casts. -/
def unaryStrength : Nat := 14

/-- Binding strength of names, numbers and calls. -/
def primaryStrength : Nat := 16

def strength : BinOp → Nat
  | .mul | .div | .mod => 13
  | .add | .sub => 12
  | .shl | .shr | .sar => 11
  | .lt | .le | .gt | .ge | .ult | .ule | .ugt | .uge => 10
  | .eq | .ne => 9
  | .and => 8
  | .xor => 7
  | .or => 6
  | .land => 5
  | .lor => 4

/-- Numbers below ten are written in decimal, all others in hexadecimal. -/
def magnitude (value : Nat) : String :=
  if value < 10 then decimalText value else "0x" ++ hexDigits value

/-- The absolute value of a constant that is written with a sign: those from
-0xffff to -1, as signed words. -/
def negativeMagnitude? (value : Int) : Option Nat :=
  let signed := wrap32 value
  if -0x10000 < signed ∧ signed < 0 then some signed.natAbs else none

def constant (value : Int) : String :=
  match negativeMagnitude? value with
  | some absolute => "-" ++ magnitude absolute
  | none => magnitude (toWord value).toNat

/-- Text that binds with a strength, where at least `least` is asked for. -/
def enclose (text : String × Nat) (least : Nat) : String :=
  if text.2 < least then "(" ++ text.1 ++ ")" else text.1

/-- The text of a binary operation from the texts of its operands. `absolute`
is the magnitude of a right operand that is a negative constant. -/
def binaryText (op : BinOp) (lhs rhs : String × Nat) (absolute : Option Nat) : String × Nat :=
  match op, absolute with
  | .add, some k => (enclose lhs (strength .sub) ++ " - " ++ magnitude k, strength .sub)
  | op, _ =>
    let left :=
      if op.isUnsigned || op = .shr then "(unsigned int)" ++ enclose lhs unaryStrength
      else enclose lhs (strength op)
    (left ++ " " ++ op.symbol ++ " " ++ enclose rhs (strength op + 1), strength op)

/-- The magnitude of an expression that is a negative constant. -/
def negativeConstant? : CExpr → Option Nat
  | .const value => negativeMagnitude? value
  | _ => none

mutual

/-- The text of an expression and how strongly it binds. -/
def exprText : CExpr → String × Nat
  | .var name => (name, primaryStrength)
  | .const value =>
    (constant value,
      if (negativeMagnitude? value).isSome then unaryStrength else primaryStrength)
  | .stackVar offset _ => (stackVarName offset, primaryStrength)
  | .addrOf inner => ("&" ++ enclose (exprText inner) unaryStrength, unaryStrength)
  | .deref ptr size =>
    ("*(" ++ (CType.ofBytes size).text ++ " *)" ++ enclose (exprText ptr) unaryStrength,
      unaryStrength)
  | .unary op arg => (op.symbol ++ enclose (exprText arg) unaryStrength, unaryStrength)
  | .preDec inner => ("--" ++ enclose (exprText inner) unaryStrength, unaryStrength)
  | .binary op lhs rhs =>
    binaryText op (exprText lhs) (exprText rhs) (negativeConstant? rhs)
  | .call name args => (name ++ "(" ++ argsText args ++ ")", primaryStrength)
  | .callPointer target ret args =>
    ("((" ++ ret.text ++ " (*)())" ++ enclose (exprText target) unaryStrength ++ ")(" ++
      argsText args ++ ")", primaryStrength)

def argsText : List CExpr → String
  | [] => ""
  | [arg] => (exprText arg).1
  | arg :: rest => (exprText arg).1 ++ ", " ++ argsText rest

end

def expr (e : CExpr) : String := (exprText e).1

/-- Backslashes and double quotes are escaped in assembly text. -/
def escaped (text : String) : String :=
  String.ofList (text.toList.flatMap fun c =>
    if c = '\\' ∨ c = '"' then ['\\', c] else [c])

def stmt : Stmt → String
  | .label name => name ++ ":"
  | .assign lhs rhs => expr lhs ++ " = " ++ expr rhs ++ ";"
  | .ifThen cond body => "if (" ++ expr cond ++ ") " ++ stmt body
  | .goto label => "goto " ++ label ++ ";"
  | .ret (some e) => "return " ++ expr e ++ ";"
  | .ret none => "return;"
  | .expr e => expr e ++ ";"
  | .asm text => "asm(\"" ++ escaped text ++ "\");"

def attributeText (text : String) : String := " __attribute__((" ++ text ++ "))"

def param (p : ParamType) : String :=
  let text := match p.name with
    | some name => p.type.declarator name
    | none => p.type.text
  if p.unused then text ++ attributeText "unused" else text

/-- Return type, calling convention, name, parameters and attributes. -/
def signature (name : String) (type : FunctionType) : String :=
  let convention :=
    if type.fastcall then "__fastcall " else if type.stdcall then "__stdcall " else ""
  let params :=
    if type.params.isEmpty then "void" else ", ".intercalate (type.params.map param)
  type.ret.declarator convention ++ name ++ "(" ++ params ++ ")" ++
    String.join (type.attributes.map attributeText)

/-- The lines of a declaration. -/
def declaration (decl : Declaration) : List String :=
  match decl.kind with
  | .function type => [signature decl.name type ++ ";"]
  | .struct fields packed =>
    ["struct " ++ decl.name ++ " \x7b"] ++
      fields.map (fun field => "  " ++ field.2.declarator field.1 ++ ";") ++
      [match packed with
        | some n => "\x7d" ++ attributeText ("pack(" ++ decimalText n ++ ")") ++ ";"
        | none => "\x7d;"]

/-- Labels stand at the start of their line, all other statements are indented. -/
def bodyLine : Stmt → String
  | .label name => name ++ ":"
  | s => "  " ++ stmt s

/-- The lines of a function definition. -/
def definition (f : RecoveredFunction) : List String :=
  [signature f.name f.type ++ " \x7b"] ++ f.body.map bodyLine ++ ["\x7d"]

/-- The definitions, a blank line before each but one that comes first. -/
def definitions : (first : Bool) → List RecoveredFunction → List String
  | _, [] => []
  | first, f :: rest => (if first then [] else [""]) ++ definition f ++ definitions false rest

/-- The lines of a program: the declarations of what is not defined, then the
definitions. -/
def program (table : DeclTable) (functions : List RecoveredFunction) : List String :=
  let declared := table.decls.filter fun decl => decl.name ∉ functions.map RecoveredFunction.name
  declared.flatMap declaration ++ definitions declared.isEmpty functions

end CText

end Uncompile
