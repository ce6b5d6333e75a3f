import Uncompile.C.Type
import Uncompile.OrderedSet

/-!
# Declarations

Prototypes and structures known by name. The table is a map that keeps the order
in which names were first declared, as maps in insertion order are documented to:
declaring a name again either replaces the entry in place (`insert`) or keeps it
(`declareOnce`).
-/

namespace Uncompile

structure ParamType where
  name : Option String := none
  type : CType
  unused : Bool := false

structure FunctionType where
  ret : CType
  params : List ParamType
  fastcall : Bool := false
  stdcall : Bool := false
  /-- Remarks on the calling convention. -/
  attributes : List String := []

/-- The type of a function nothing is known about. -/
def FunctionType.unknown : FunctionType := { ret := .word, params := [] }

inductive DeclKind where
  | function (type : FunctionType)
  /-- A structure; `packed` is the alignment of its fields, if it is given. -/
  | struct (fields : List (String × CType)) (packed : Option Nat)

structure Declaration where
  name : String
  kind : DeclKind

def Declaration.asFunction? (decl : Declaration) : Option FunctionType :=
  match decl.kind with
  | .function type => some type
  | .struct _ _ => none

/-- Each name is declared once. -/
structure DeclTable where
  decls : List Declaration := []
  distinct : (decls.map Declaration.name).Nodup := by exact List.nodup_nil

namespace DeclTable

def names (table : DeclTable) : List String := table.decls.map Declaration.name

def get? (table : DeclTable) (name : String) : Option Declaration :=
  table.decls.find? fun decl => decl.name = name

def function? (table : DeclTable) (name : String) : Option FunctionType :=
  (table.get? name).bind Declaration.asFunction?

def contains (table : DeclTable) (name : String) : Bool := (table.get? name).isSome

def insertDecl (decl : Declaration) : List Declaration → List Declaration
  | [] => [decl]
  | other :: rest =>
    if other.name = decl.name then decl :: rest else other :: insertDecl decl rest

theorem map_name_insertDecl (decl : Declaration) (decls : List Declaration) :
    (insertDecl decl decls).map Declaration.name =
      OrderedSet.add (decls.map Declaration.name) decl.name := by
  induction decls with
  | nil => rfl
  | cons other rest ih =>
    rw [insertDecl]
    split
    · rename_i hsame
      rw [List.map_cons, List.map_cons, hsame, OrderedSet.add, if_pos List.mem_cons_self]
    · rename_i hsame
      rw [List.map_cons, List.map_cons, ih]
      simp only [OrderedSet.add, List.mem_cons, Ne.symm hsame, false_or]
      split <;> rfl

def insert (table : DeclTable) (decl : Declaration) : DeclTable where
  decls := insertDecl decl table.decls
  distinct := by
    rw [map_name_insertDecl]
    exact OrderedSet.nodup_add table.distinct decl.name

def declareOnce (table : DeclTable) (decl : Declaration) : DeclTable :=
  if table.contains decl.name then table else table.insert decl

/-- Declares a function with unnamed parameters, unless its name is taken. -/
def declareFunction (table : DeclTable) (name : String) (ret : CType) (params : List CType) :
    DeclTable :=
  table.declareOnce
    { name, kind := .function { ret, params := params.map fun type => { type } } }

def ofList (decls : List Declaration) : DeclTable := decls.foldl insert {}

end DeclTable

end Uncompile
