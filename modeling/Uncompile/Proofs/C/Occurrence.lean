import Uncompile.C.Stmt

/-!
# Parts of C expressions and statements

The list of the parts of an expression holds exactly the expressions that stand in it,
at any depth, and that of a statement those that stand in its expressions.
-/

namespace Uncompile

/-- An expression stands in another one, at any depth. -/
inductive CExpr.Occurs (part : CExpr) : CExpr → Prop
  | whole : Occurs part part
  | addrOf {inner : CExpr} : Occurs part inner → Occurs part (.addrOf inner)
  | deref {ptr : CExpr} {size : Nat} : Occurs part ptr → Occurs part (.deref ptr size)
  | unary {op : UnOp} {arg : CExpr} : Occurs part arg → Occurs part (.unary op arg)
  | left {op : BinOp} {lhs rhs : CExpr} : Occurs part lhs → Occurs part (.binary op lhs rhs)
  | right {op : BinOp} {lhs rhs : CExpr} : Occurs part rhs → Occurs part (.binary op lhs rhs)
  | preDec {inner : CExpr} : Occurs part inner → Occurs part (.preDec inner)
  | argument {name : String} {args : List CExpr} {arg : CExpr} :
      arg ∈ args → Occurs part arg → Occurs part (.call name args)
  | target {target : CExpr} {ret : CType} {args : List CExpr} :
      Occurs part target → Occurs part (.callPointer target ret args)
  | pointerArgument {target : CExpr} {ret : CType} {args : List CExpr} {arg : CExpr} :
      arg ∈ args → Occurs part arg → Occurs part (.callPointer target ret args)

/-- An expression stands in a statement. -/
inductive Stmt.Mentions (part : CExpr) : Stmt → Prop
  | place {lhs rhs : CExpr} : CExpr.Occurs part lhs → Mentions part (.assign lhs rhs)
  | value {lhs rhs : CExpr} : CExpr.Occurs part rhs → Mentions part (.assign lhs rhs)
  | cond {cond : CExpr} {body : Stmt} : CExpr.Occurs part cond → Mentions part (.ifThen cond body)
  | branch {cond : CExpr} {body : Stmt} : Mentions part body → Mentions part (.ifThen cond body)
  | returned {e : CExpr} : CExpr.Occurs part e → Mentions part (.ret (some e))
  | evaluated {e : CExpr} : CExpr.Occurs part e → Mentions part (.expr e)

theorem CExpr.mem_subtermsList {part : CExpr} {args : List CExpr} :
    part ∈ subtermsList args ↔ ∃ arg ∈ args, part ∈ arg.subterms := by
  induction args with
  | nil => simp [subtermsList]
  | cons arg rest ih => simp [subtermsList, ih]

theorem CExpr.Occurs.mem_subterms {part e : CExpr} (h : Occurs part e) : part ∈ e.subterms := by
  induction h with
  | whole => cases part <;> simp [subterms]
  | addrOf _ ih | deref _ ih | unary _ ih | preDec _ ih => simp [subterms, ih]
  | left _ ih | right _ ih | target _ ih => simp [subterms, ih]
  | argument harg _ ih | pointerArgument harg _ ih =>
      simp only [subterms, List.mem_cons, List.mem_append, mem_subtermsList]
      grind

mutual

theorem CExpr.occurs_of_mem_subterms {part : CExpr} :
    (e : CExpr) → part ∈ e.subterms → Occurs part e
  | .var _, h | .const _, h | .stackVar _ _, h => by
      rw [List.mem_singleton.mp h]
      exact .whole
  | .addrOf inner, h => by
      rcases List.mem_cons.mp h with rfl | h
      · exact .whole
      · exact .addrOf (occurs_of_mem_subterms inner h)
  | .deref ptr _, h => by
      rcases List.mem_cons.mp h with rfl | h
      · exact .whole
      · exact .deref (occurs_of_mem_subterms ptr h)
  | .unary _ arg, h => by
      rcases List.mem_cons.mp h with rfl | h
      · exact .whole
      · exact .unary (occurs_of_mem_subterms arg h)
  | .binary _ lhs rhs, h => by
      rcases List.mem_cons.mp h with rfl | h
      · exact .whole
      · rcases List.mem_append.mp h with h | h
        · exact .left (occurs_of_mem_subterms lhs h)
        · exact .right (occurs_of_mem_subterms rhs h)
  | .preDec inner, h => by
      rcases List.mem_cons.mp h with rfl | h
      · exact .whole
      · exact .preDec (occurs_of_mem_subterms inner h)
  | .call _ args, h => by
      rcases List.mem_cons.mp h with rfl | h
      · exact .whole
      · obtain ⟨arg, harg, hpart⟩ := occurs_of_mem_subtermsList args h
        exact .argument harg hpart
  | .callPointer target _ args, h => by
      rcases List.mem_cons.mp h with rfl | h
      · exact .whole
      · rcases List.mem_append.mp h with h | h
        · exact .target (occurs_of_mem_subterms target h)
        · obtain ⟨arg, harg, hpart⟩ := occurs_of_mem_subtermsList args h
          exact .pointerArgument harg hpart

theorem CExpr.occurs_of_mem_subtermsList {part : CExpr} :
    (args : List CExpr) → part ∈ subtermsList args → ∃ arg ∈ args, Occurs part arg
  | [], h => absurd h List.not_mem_nil
  | arg :: rest, h => by
      rcases List.mem_append.mp h with h | h
      · exact ⟨arg, List.mem_cons_self, occurs_of_mem_subterms arg h⟩
      · obtain ⟨other, hother, hpart⟩ := occurs_of_mem_subtermsList rest h
        exact ⟨other, List.mem_cons_of_mem _ hother, hpart⟩

end

theorem CExpr.mem_subterms_iff {part e : CExpr} : part ∈ e.subterms ↔ Occurs part e :=
  ⟨occurs_of_mem_subterms e, Occurs.mem_subterms⟩

theorem Stmt.mem_subterms_iff {part : CExpr} {stmt : Stmt} :
    part ∈ stmt.subterms ↔ stmt.Mentions part := by
  induction stmt with
  | label _ | goto _ | asm _ =>
      exact ⟨fun h => absurd h List.not_mem_nil, fun h => by cases h⟩
  | assign lhs rhs =>
      rw [subterms, List.mem_append, CExpr.mem_subterms_iff, CExpr.mem_subterms_iff]
      constructor
      · rintro (h | h)
        · exact .place h
        · exact .value h
      · intro h
        cases h with
        | place h => exact .inl h
        | value h => exact .inr h
  | ifThen cond body ih =>
      rw [subterms, List.mem_append, CExpr.mem_subterms_iff, ih]
      constructor
      · rintro (h | h)
        · exact .cond h
        · exact .branch h
      · intro h
        cases h with
        | cond h => exact .inl h
        | branch h => exact .inr h
  | ret value =>
      cases value with
      | none => exact ⟨fun h => absurd h List.not_mem_nil, fun h => by cases h⟩
      | some e =>
          rw [subterms, CExpr.mem_subterms_iff]
          exact ⟨.returned, fun h => by cases h; assumption⟩
  | expr e =>
      rw [subterms, CExpr.mem_subterms_iff]
      exact ⟨.evaluated, fun h => by cases h; assumption⟩

end Uncompile
