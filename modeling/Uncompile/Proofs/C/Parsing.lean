import Uncompile.Proofs.C.Lexing

/-!
# C expressions from tokens

Expressions are read token by token with a stack of what waits for an operand.
Prefix operators and casts bind tighter than binary operators; binary operators
bind by the levels of the grammar and group to the left. The tokens of a tree
with no more parentheses than these rules ask for are read back as the tree.
-/

namespace Uncompile

/-! ## Syntax trees -/

inductive CastType where
  | unsignedInt
  /-- A pointer to an integer of `size` bytes. -/
  | pointer (size : Nat)
  deriving DecidableEq

inductive PrefixOp where
  | neg | not | lnot | addr | deref | dec
  | cast (type : CastType)
  deriving DecidableEq

inductive InfixOp where
  | mul | div | mod | add | sub | shl | shr | lt | le | gt | ge | eq | ne
  | and | xor | or | land | lor
  deriving DecidableEq

inductive CTree where
  | name (text : String)
  | number (value : Nat)
  | prefixed (op : PrefixOp) (arg : CTree)
  | infixed (op : InfixOp) (lhs rhs : CTree)
  | call (function : String) (arg : CTree)
  deriving DecidableEq

namespace InfixOp

def all : List InfixOp :=
  [mul, div, mod, add, sub, shl, shr, lt, le, gt, ge, eq, ne, and, xor, or, land, lor]

def text : InfixOp → String
  | mul => "*" | div => "/" | mod => "%"
  | add => "+" | sub => "-"
  | shl => "<<" | shr => ">>"
  | lt => "<" | le => "<=" | gt => ">" | ge => ">="
  | eq => "==" | ne => "!="
  | and => "&" | xor => "^" | or => "|"
  | land => "&&" | lor => "||"

def ofText? (text : String) : Option InfixOp := all.find? fun op => op.text = text

/-- The levels of the grammar, counted from the comma operator. -/
def level : InfixOp → Nat
  | lor => 4
  | land => 5
  | or => 6
  | xor => 7
  | and => 8
  | eq | ne => 9
  | lt | le | gt | ge => 10
  | shl | shr => 11
  | add | sub => 12
  | mul | div | mod => 13

@[simp]
theorem ofText?_text (op : InfixOp) : ofText? op.text = some op := by
  cases op <;> decide

theorem level_lt (op : InfixOp) : op.level < 14 := by
  cases op <;> decide

end InfixOp

namespace CastType

/-- The size of an integer type that is one word. -/
def pointee? (text : String) : Option Nat :=
  if text = "int" then some 4
  else match text.toList with
    | '_' :: '_' :: 'i' :: 'n' :: 't' :: first :: digits =>
      (CLexer.digitsValue? 10 (first :: digits)).bind fun bits =>
        if bits % 8 = 0 then some (bits / 8) else none
    | _ => none

/-- The type that the tokens between the parentheses of a cast name. -/
def ofTokens? : List CToken → Option CastType
  | [.word first, .word second] =>
    if first = "unsigned" ∧ second = "int" then some unsignedInt else none
  | [.word text, .punctuator p] => if p = "*" then (pointee? text).map pointer else none
  | _ => none

def tokens : CastType → List CToken
  | unsignedInt => [.word "unsigned", .word "int"]
  | pointer size => [.word (CType.ofBytes size).text, .punctuator "*"]

/-- Types whose width in bits is below 256. -/
def isNarrow : CastType → Bool
  | unsignedInt => true
  | pointer size => size < 32

end CastType

namespace PrefixOp

def signs : List PrefixOp := [neg, not, lnot, addr, deref, dec]

/-- How an operator is written; a cast is no operator sign. -/
def text : PrefixOp → String
  | neg => "-" | not => "~" | lnot => "!" | addr => "&" | deref => "*" | dec => "--"
  | cast _ => ""

def ofText? (text : String) : Option PrefixOp := signs.find? fun op => op.text = text

def tokens : PrefixOp → List CToken
  | cast type => .punctuator "(" :: (type.tokens ++ [.punctuator ")"])
  | op => [.punctuator op.text]

/-- Prefix operators, and casts to narrow types. -/
def isNarrow : PrefixOp → Bool
  | cast type => type.isNarrow
  | _ => true

end PrefixOp

/-! ## Words with a meaning of their own -/

/-- The words that a type starts with. -/
def typeWords : List String :=
  ["void", "char", "short", "int", "long", "float", "double", "signed", "unsigned", "struct",
    "union", "enum", "const", "volatile", "_Bool", "_Complex", "_Atomic"]

/-- The keywords that neither start a type nor are names. -/
def otherKeywords : List String :=
  ["auto", "break", "case", "continue", "default", "do", "else", "extern", "for", "goto", "if",
    "inline", "register", "restrict", "return", "sizeof", "static", "switch", "typedef", "while",
    "_Alignas", "_Alignof", "_Generic", "_Imaginary", "_Noreturn", "_Static_assert",
    "_Thread_local"]

/-- Whether a word starts a type; the integers of other widths start with `__int`. -/
def isTypeWord (text : String) : Bool :=
  text ∈ typeWords || "__int".toList.isPrefixOf text.toList

def isReserved (text : String) : Bool := isTypeWord text || text ∈ otherKeywords

/-- The integer types are words that start a type and tell their size. -/
theorem text_ofBytes {size : Nat} (h : size < 32) :
    CLexer.isWord (CType.ofBytes size).text ∧ isTypeWord (CType.ofBytes size).text ∧
      CastType.pointee? (CType.ofBytes size).text = some size := by
  have hall : ∀ n : Fin 32, CLexer.isWord (CType.ofBytes n.val).text ∧
      isTypeWord (CType.ofBytes n.val).text ∧
        CastType.pointee? (CType.ofBytes n.val).text = some n.val := by decide +kernel
  exact hall ⟨size, h⟩

theorem CastType.ofTokens?_tokens {type : CastType} (h : type.isNarrow) :
    ofTokens? type.tokens = some type := by
  cases type with
  | unsignedInt => rfl
  | pointer size =>
      have hsize : size < 32 := by simpa [isNarrow] using h
      simp [tokens, ofTokens?, (text_ofBytes hsize).2.2]

/-! ## The parser -/

/-- What waits for an operand on its right. -/
inductive CFrame where
  | prefixed (op : PrefixOp)
  | infixed (op : InfixOp) (lhs : CTree)
  | paren
  | call (function : String)

inductive CMode where
  /-- An operand is due. -/
  | operand
  /-- A type has begun after a parenthesis. -/
  | typeName (tokens : List CToken)
  /-- An operand has been read. -/
  | complete (tree : CTree)

structure CParser where
  stack : List CFrame := []
  mode : CMode := .operand

namespace CParser

/-- Gives an operand to the prefix operators and to the binary operators of at
least the given level that wait for it. -/
def collapse (level : Nat) : List CFrame → CTree → List CFrame × CTree
  | .prefixed op :: rest, tree => collapse level rest (.prefixed op tree)
  | .infixed op lhs :: rest, tree =>
    if level ≤ op.level then collapse level rest (.infixed op lhs tree)
    else (.infixed op lhs :: rest, tree)
  | stack, tree => (stack, tree)

/-- The operand in a pair of parentheses is complete. -/
def closeParen? (stack : List CFrame) (tree : CTree) : Option CParser :=
  match collapse 0 stack tree with
  | (.paren :: rest, tree) => some { stack := rest, mode := .complete tree }
  | (.call function :: rest, tree) =>
    some { stack := rest, mode := .complete (.call function tree) }
  | _ => none

/-- A word where an operand is due: a name, or the start of a type in a cast. -/
def readWord? (stack : List CFrame) (text : String) : Option CParser :=
  if isTypeWord text then
    match stack with
    | .paren :: _ => some { stack, mode := .typeName [.word text] }
    | _ => none
  else if isReserved text then none
  else some { stack, mode := .complete (.name text) }

/-- The type between a pair of parentheses is complete. -/
def readCast? (stack : List CFrame) (tokens : List CToken) : Option CParser :=
  match stack, CastType.ofTokens? tokens with
  | .paren :: rest, some type => some { stack := .prefixed (.cast type) :: rest }
  | _, _ => none

/-- A binary operator behind an operand. -/
def readInfix (stack : List CFrame) (tree : CTree) (op : InfixOp) : CParser :=
  let (rest, lhs) := collapse op.level stack tree
  { stack := .infixed op lhs :: rest }

/-- A parenthesis behind a name opens a call. -/
def openCall? (stack : List CFrame) : CTree → Option CParser
  | .name text => some { stack := .call text :: stack }
  | _ => none

def step (parser : CParser) (token : CToken) : Option CParser :=
  match parser.mode, token with
  | .operand, .word text => readWord? parser.stack text
  | .operand, .number value => some { parser with mode := .complete (.number value) }
  | .operand, .punctuator p =>
    if p = "(" then some { parser with stack := .paren :: parser.stack }
    else (PrefixOp.ofText? p).map fun op => { parser with stack := .prefixed op :: parser.stack }
  | .typeName tokens, token =>
    if token = .punctuator ")" then readCast? parser.stack tokens
    else some { parser with mode := .typeName (tokens ++ [token]) }
  | .complete tree, .punctuator p =>
    if p = ")" then closeParen? parser.stack tree
    else if p = "(" then openCall? parser.stack tree
    else (InfixOp.ofText? p).map (readInfix parser.stack tree)
  | _, _ => none

def run (parser : CParser) (tokens : List CToken) : Option CParser := tokens.foldlM step parser

/-- The tree of a whole expression. -/
def finish? (parser : CParser) : Option CTree :=
  match parser.mode with
  | .complete tree =>
    match collapse 0 parser.stack tree with
    | ([], tree) => some tree
    | _ => none
  | _ => none

def parse (tokens : List CToken) : Option CTree := (run {} tokens).bind finish?

end CParser

/-! ## The tokens of a tree -/

def parenthesised (tokens : List CToken) : List CToken :=
  .punctuator "(" :: (tokens ++ [.punctuator ")"])

/-- Tokens that bind with a strength, where at least `least` is asked for. -/
def enclosed (strength least : Nat) (tokens : List CToken) : List CToken :=
  if strength < least then parenthesised tokens else tokens

namespace CTree

/-- The level of the grammar that a tree belongs to. -/
def strength : CTree → Nat
  | name _ | number _ | call _ _ => 16
  | prefixed _ _ => 14
  | infixed op _ _ => op.level

/-- A tree with as few parentheses as levels and grouping to the left allow. -/
def tokens : CTree → List CToken
  | name text => [.word text]
  | number value => [.number value]
  | prefixed op arg => op.tokens ++ enclosed arg.strength 14 arg.tokens
  | infixed op lhs rhs =>
    enclosed lhs.strength op.level lhs.tokens ++
      .punctuator op.text :: enclosed rhs.strength (op.level + 1) rhs.tokens
  | call function arg => .word function :: parenthesised arg.tokens

/-- Names are not reserved and casts are to narrow types. -/
def isLegal : CTree → Bool
  | name text => !isReserved text
  | number _ => true
  | prefixed op arg => op.isNarrow && arg.isLegal
  | infixed _ lhs rhs => lhs.isLegal && rhs.isLegal
  | call function arg => !isReserved function && arg.isLegal

end CTree

namespace CParser

/-! ## Reading a tree back -/

@[simp]
theorem run_nil (parser : CParser) : parser.run [] = some parser := rfl

@[simp]
theorem run_cons (parser : CParser) (token : CToken) (rest : List CToken) :
    parser.run (token :: rest) = (parser.step token).bind fun next => next.run rest := rfl

theorem run_append (parser : CParser) (first second : List CToken) :
    parser.run (first ++ second) = (parser.run first).bind fun next => next.run second :=
  List.foldlM_append

/-- Nothing on the stack takes an operand away from an operator of this strength. -/
def Admits (strength : Nat) : List CFrame → Prop
  | .prefixed _ :: _ => 14 ≤ strength
  | .infixed op _ :: _ => op.level < strength
  | _ => True

theorem Admits.mono {weak strong : Nat} {stack : List CFrame} (h : Admits weak stack)
    (hle : weak ≤ strong) : Admits strong stack := by
  match stack, h with
  | .prefixed _ :: _, h => exact h.trans hle
  | .infixed _ _ :: _, h => exact h.trans_le hle
  | [], _ | .paren :: _, _ | .call _ :: _, _ => trivial

theorem collapse_of_admits {strength : Nat} {stack : List CFrame} (h : Admits strength stack)
    (hlt : strength < 14) (tree : CTree) : collapse strength stack tree = (stack, tree) := by
  match stack, h with
  | .prefixed _ :: _, h => exact absurd h (Nat.not_le.mpr hlt)
  | .infixed op _ :: _, h => exact if_neg (Nat.not_le.mpr h)
  | [], _ | .paren :: _, _ | .call _ :: _, _ => rfl

/-- Where an operand is due, the tokens leave the tree: an operand, and frames that
wait for it and give the tree as soon as an operator of at most this strength or
the end is met. -/
def Reads (tokens : List CToken) (tree : CTree) (strength : Nat) : Prop :=
  ∀ stack, Admits strength stack → ∃ frames operand,
    run { stack } tokens = some { stack := frames ++ stack, mode := .complete operand } ∧
      ∀ level ≤ strength, collapse level (frames ++ stack) operand = collapse level stack tree

theorem readWord?_name {text : String} (h : isReserved text = false) (stack : List CFrame) :
    readWord? stack text = some { stack, mode := .complete (.name text) } := by
  have htype : isTypeWord text = false := (Bool.or_eq_false_iff.mp h).1
  simp [readWord?, h, htype]

theorem reads_name {text : String} (h : isReserved text = false) (strength : Nat) :
    Reads [.word text] (.name text) strength := by
  intro stack _
  refine ⟨[], .name text, ?_, fun _ _ => rfl⟩
  simp [step, readWord?_name h]

theorem reads_number (value strength : Nat) :
    Reads [.number value] (.number value) strength :=
  fun _ _ => ⟨[], .number value, rfl, fun _ _ => rfl⟩

namespace Reads

variable {tokens leftTokens rightTokens : List CToken} {tree lhs rhs : CTree}
  {strength leftStrength rightStrength : Nat}

theorem weaken {least : Nat} (h : Reads tokens tree strength) (hle : least ≤ strength) :
    Reads tokens tree least := by
  intro stack hstack
  obtain ⟨frames, operand, hrun, hcollapse⟩ := h stack (hstack.mono hle)
  exact ⟨frames, operand, hrun, fun level hlevel => hcollapse level (hlevel.trans hle)⟩

/-- What stands in parentheses is complete at the closing one. -/
theorem run_close (h : Reads tokens tree strength) {opening : CFrame} {stack : List CFrame}
    (hadmits : Admits strength (opening :: stack)) :
    run { stack := opening :: stack } (tokens ++ [.punctuator ")"]) =
      closeParen? (opening :: stack) tree := by
  obtain ⟨frames, operand, hrun, hcollapse⟩ := h (opening :: stack) hadmits
  rw [run_append, hrun]
  simp [step, closeParen?, hcollapse 0 (Nat.zero_le _)]

theorem paren (h : Reads tokens tree strength) (outer : Nat) :
    Reads (parenthesised tokens) tree outer := by
  intro stack _
  refine ⟨[], tree, ?_, fun _ _ => rfl⟩
  have hclose : run { stack := .paren :: stack } (tokens ++ [.punctuator ")"]) =
      some { stack, mode := .complete tree } := h.run_close trivial
  simp [parenthesised, step, hclose]

theorem enclose (h : Reads tokens tree strength) (least : Nat) :
    Reads (enclosed strength least tokens) tree least := by
  unfold enclosed
  split
  · exact h.paren least
  · rename_i hle
    exact h.weaken (Nat.not_lt.mp hle)

theorem call (h : Reads tokens tree strength) {function : String}
    (hfunction : isReserved function = false) (outer : Nat) :
    Reads (.word function :: parenthesised tokens) (.call function tree) outer := by
  intro stack _
  refine ⟨[], .call function tree, ?_, fun _ _ => rfl⟩
  have hclose : run { stack := .call function :: stack } (tokens ++ [.punctuator ")"]) =
      some { stack, mode := .complete (.call function tree) } := h.run_close trivial
  simp [parenthesised, step, readWord?_name hfunction, openCall?, hclose]

end Reads

theorem run_cast {type : CastType} (h : type.isNarrow) (stack : List CFrame) :
    run { stack } (PrefixOp.cast type).tokens =
      some { stack := .prefixed (.cast type) :: stack } := by
  have hrun : ∀ first second, type.tokens = [.word first, second] → isTypeWord first →
      second ≠ .punctuator ")" →
      run { stack } (PrefixOp.cast type).tokens =
        some { stack := .prefixed (.cast type) :: stack } := by
    intro first second htokens hfirst hsecond
    have htype := CastType.ofTokens?_tokens h
    rw [htokens] at htype
    simp [PrefixOp.tokens, htokens, step, readWord?, hfirst, hsecond, readCast?, htype]
  cases type with
  | unsignedInt => exact hrun "unsigned" (.word "int") rfl (by decide) (by decide)
  | pointer size =>
      have hsize : size < 32 := by simpa [CastType.isNarrow] using h
      exact hrun _ (.punctuator "*") rfl (text_ofBytes hsize).2.1 (by decide)

theorem run_prefixOp {op : PrefixOp} (h : op.isNarrow) (stack : List CFrame) :
    run { stack } op.tokens = some { stack := .prefixed op :: stack } := by
  cases op with
  | cast type => exact run_cast h stack
  | neg | not | lnot | addr | deref | dec => rfl

theorem Reads.prefixed {tokens : List CToken} {tree : CTree} (h : Reads tokens tree 14)
    {op : PrefixOp} (hop : op.isNarrow) : Reads (op.tokens ++ tokens) (.prefixed op tree) 14 := by
  intro stack _
  have hadmits : Admits 14 (.prefixed op :: stack) := Nat.le_refl 14
  obtain ⟨frames, operand, hrun, hcollapse⟩ := h (.prefixed op :: stack) hadmits
  refine ⟨frames ++ [.prefixed op], operand, ?_, ?_⟩
  · rw [run_append, run_prefixOp hop, Option.bind_some, hrun, List.append_assoc]
    rfl
  · intro level hlevel
    rw [List.append_assoc]
    exact hcollapse level hlevel

theorem Reads.infixed {leftTokens rightTokens : List CToken} {lhs rhs : CTree} {op : InfixOp}
    (hlhs : Reads leftTokens lhs op.level) (hrhs : Reads rightTokens rhs (op.level + 1)) :
    Reads (leftTokens ++ .punctuator op.text :: rightTokens) (.infixed op lhs rhs) op.level := by
  intro stack hstack
  obtain ⟨leftFrames, left, hleft, hleftCollapse⟩ := hlhs stack hstack
  have hadmits : Admits (op.level + 1) (.infixed op lhs :: stack) := Nat.lt_succ_self _
  obtain ⟨frames, operand, hright, hcollapse⟩ := hrhs (.infixed op lhs :: stack) hadmits
  -- the left operand is complete at the operator, which waits for the right one
  have hoperator : step { stack := leftFrames ++ stack, mode := .complete left }
      (.punctuator op.text) = some { stack := .infixed op lhs :: stack } := by
    have hleft' : collapse op.level (leftFrames ++ stack) left = (stack, lhs) :=
      (hleftCollapse _ (Nat.le_refl _)).trans (collapse_of_admits hstack op.level_lt lhs)
    have hclose : op.text ≠ ")" := by cases op <;> decide
    have hopen : op.text ≠ "(" := by cases op <;> decide
    simp [step, hclose, hopen, readInfix, hleft']
  refine ⟨frames ++ [.infixed op lhs], operand, ?_, ?_⟩
  · rw [run_append, hleft, Option.bind_some, run_cons, hoperator, Option.bind_some, hright,
      List.append_assoc]
    rfl
  · intro level hlevel
    rw [List.append_assoc]
    exact (hcollapse level (hlevel.trans (Nat.le_succ _))).trans (if_pos hlevel)

/-- The tokens of a tree are read as the tree. -/
theorem reads_tokens {tree : CTree} (h : tree.isLegal) : Reads tree.tokens tree tree.strength := by
  induction tree with
  | name text => exact reads_name (by simpa [CTree.isLegal] using h) _
  | number value => exact reads_number value _
  | prefixed op arg ih =>
      simp only [CTree.isLegal, Bool.and_eq_true] at h
      exact ((ih h.2).enclose 14).prefixed h.1
  | infixed op lhs rhs ihl ihr =>
      simp only [CTree.isLegal, Bool.and_eq_true] at h
      exact Reads.infixed ((ihl h.1).enclose _) ((ihr h.2).enclose _)
  | call function arg ih =>
      simp only [CTree.isLegal, Bool.and_eq_true, Bool.not_eq_true'] at h
      exact (ih h.2).call h.1 _

theorem parse_tokens {tree : CTree} (h : tree.isLegal) : parse tree.tokens = some tree := by
  obtain ⟨frames, operand, hrun, hcollapse⟩ := reads_tokens h [] trivial
  have hend : collapse 0 (frames ++ []) operand = ([], tree) := hcollapse 0 (Nat.zero_le _)
  rw [parse, hrun, Option.bind_some]
  simp only [finish?, hend]

example : parse (CLexer.lex "a - b - 1 < -c") =
    some (.infixed .lt (.infixed .sub (.infixed .sub (.name "a") (.name "b")) (.number 1))
      (.prefixed .neg (.name "c"))) := by
  decide +kernel

end CParser

end Uncompile
