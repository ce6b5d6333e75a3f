import Uncompile.Proofs.C.Naming
import Uncompile.Proofs.Expr.Vocabulary

/-!
# Reduced expressions can be printed

Text is read back as it was meant only if no minus sign touches another one and
every access has a type of its own. Reduction brings the first about: signs come
from linear forms alone, and the terms of a linear form are neither constants nor
negations. The second it keeps.
-/

namespace Uncompile

namespace Expr

/-- The sizes of all accesses to memory and ports. -/
def accessSizes : Expr → List Nat
  | const _ => []
  | sym _ => []
  | mem ptr size => size :: ptr.accessSizes
  | port p size => size :: p.accessSizes
  | unary _ arg => arg.accessSizes
  | binary _ lhs rhs => lhs.accessSizes ++ rhs.accessSizes

/-- What can be negated without a second sign: neither a constant nor a negation. -/
def isUnsignedTerm : Expr → Bool
  | const _ => false
  | unary .neg _ => false
  | _ => true

/-- No symbol is a name from outside, all accesses are narrower than 256 bits and
nothing has two signs. -/
def Printable : Expr → Prop
  | const _ => True
  | sym symbol => symbol.isNamed = false
  | mem ptr size => size < 32 ∧ ptr.Printable
  | port p size => size < 32 ∧ p.Printable
  | unary op arg => (op = .neg → arg.isUnsignedTerm) ∧ arg.Printable
  | binary _ lhs rhs => lhs.Printable ∧ rhs.Printable

end Expr

/-! ## Linear forms -/

namespace Linear

/-- The terms of a form can all have a sign in front. -/
theorem printable_collect {form : Linear} {scale : Int} {e : Expr} (he : e.Printable)
    (hform : ∀ t ∈ form.terms, t.1.isUnsignedTerm ∧ t.1.Printable) :
    ∀ t ∈ (form.collect scale e).terms, t.1.isUnsignedTerm ∧ t.1.Printable := by
  fun_induction collect form scale e with
  | case1 => exact hform
  | case2 form scale lhs rhs ihl ihr => exact ihr he.2 (ihl he.1 hform)
  | case3 form scale lhs rhs ihl ihr => exact ihr he.2 (ihl he.1 hform)
  | case4 form scale arg ih => exact ih he.2 hform
  | case5 form scale lhs k ih => exact ih he.1 hform
  | case6 form scale k rhs _ ih => exact ih he.2 hform
  | case7 form scale term hconst _ _ hneg =>
      have hterm : term.isUnsignedTerm := by
        unfold Expr.isUnsignedTerm
        split
        · exact (hconst _ rfl).elim
        · exact (hneg _ rfl).elim
        · rfl
      exact addTo_stable (P := fun t => t.isUnsignedTerm ∧ t.Printable) ⟨hterm, he⟩ hform

theorem printable_firstTerm {term : Expr} {coefficient : Int}
    (hterm : term.isUnsignedTerm ∧ term.Printable) : (firstTerm term coefficient).Printable := by
  unfold firstTerm
  split
  · exact hterm.2
  · split
    · exact ⟨fun _ => hterm.1, hterm.2⟩
    · exact ⟨hterm.2, trivial⟩

theorem printable_nextTerm {previous term : Expr} {coefficient : Int}
    (hprevious : previous.Printable) (hterm : term.isUnsignedTerm ∧ term.Printable) :
    (nextTerm previous term coefficient).Printable := by
  unfold nextTerm
  split
  · exact ⟨hprevious, hterm.2⟩
  · split
    · exact ⟨hprevious, hterm.2⟩
    · exact ⟨hprevious, hterm.2, trivial⟩

theorem printable_toExpr {form : Linear}
    (hform : ∀ t ∈ form.terms, t.1.isUnsignedTerm ∧ t.1.Printable) : form.toExpr.Printable :=
  toExpr_induction (fun _ => trivial) (fun hlhs hrhs => ⟨hlhs, hrhs⟩)
    (fun hterm => printable_firstTerm hterm)
    (fun hprevious hterm => printable_nextTerm hprevious hterm) hform

/-- The sign of a negated form is distributed over its terms. -/
theorem printable_neg {arg : Expr} (harg : arg.Printable) :
    (ofExpr (.unary .neg arg)).toExpr.Printable := by
  rw [ofExpr, collect]
  exact printable_toExpr (printable_collect harg (by simp))

theorem printable_ofExpr {e : Expr} (he : e.Printable) : (ofExpr e).toExpr.Printable :=
  printable_toExpr (printable_collect he (by simp))

end Linear

/-! ## Reduction -/

namespace Expr

theorem printable_reduceUnary {op : UnOp} {arg : Expr} (harg : arg.Printable) :
    (reduceUnary op arg).Printable := by
  fun_cases reduceUnary op arg with
  | case1 value => trivial
  | case2 => exact Linear.printable_neg harg
  | case3 inner => exact harg.2
  | case4 inner => exact harg.2
  | case5 inner => exact ⟨fun h => UnOp.noConfusion h, harg⟩
  | case6 comparison lhs rhs inverse hinverse => exact harg
  | case7 comparison lhs rhs => exact ⟨fun h => UnOp.noConfusion h, harg⟩
  | case8 =>
      rename_i hneg _ _ _ _
      exact ⟨fun h => (hneg h).elim, harg⟩

theorem printable_reduceMask {arg : Expr} {mask : Int} (harg : arg.Printable) :
    (arg.reduceMask mask).Printable := by
  fun_induction reduceMask arg mask with
  | case1 => trivial
  | case2 => exact harg
  | case3 mask _ _ inner other ih => exact ih harg.1
  | case4 => exact ⟨harg, trivial⟩

theorem printable_reduceAnd {lhs rhs : Expr} (hlhs : lhs.Printable) (hrhs : rhs.Printable) :
    (reduceAnd lhs rhs).Printable := by
  unfold reduceAnd
  split
  · exact printable_reduceMask hlhs
  · split
    · exact hlhs
    · exact ⟨hlhs, hrhs⟩

theorem printable_stripInequality {outer inner rest : Expr} (hinner : inner.Printable)
    (hrest : stripInequality? outer inner = some rest) : rest.Printable := by
  rcases (stripInequality?_eq_some hrest).2 with rfl | rfl
  · exact hinner.2
  · exact hinner.1

theorem printable_reduceEquality {op : BinOp} {lhs rhs : Expr} (hlhs : lhs.Printable)
    (hrhs : rhs.Printable) : (reduceEquality op lhs rhs).Printable := by
  unfold reduceEquality
  split
  · rename_i result hresult
    rcases (reduceBooleanTest?_eq_some hresult).2 with ⟨_, rfl⟩ | ⟨_, rfl⟩
    · exact hlhs
    · exact printable_reduceUnary hlhs
  · split
    · rename_i rest hstrip
      have hrest : rest.Printable := by
        rcases Option.or_eq_some_iff.mp hstrip with hleft | ⟨_, hright⟩
        · exact printable_stripInequality hrhs hleft
        · exact printable_stripInequality hlhs hright
      split
      · exact hrest
      · exact printable_reduceUnary hrest
    · exact ⟨hlhs, hrhs⟩

theorem printable_reduceComparison {op : BinOp} {lhs rhs : Expr} (hlhs : lhs.Printable)
    (hrhs : rhs.Printable) : (reduceComparison op lhs rhs).Printable := by
  fun_induction reduceComparison op lhs rhs with
  | case1 => trivial
  | case2 a b _ _ ih => exact ih hlhs.1 hlhs.2
  | case3 => exact printable_reduceEquality hlhs hrhs
  | case4 a k value _ _ ih => exact ih hlhs.1 trivial
  | case5 => exact printable_reduceEquality hlhs hrhs
  | case6 => exact ⟨hlhs, hrhs⟩

theorem printable_reduceLogical {op : BinOp} {lhs rhs : Expr} (hlhs : lhs.Printable)
    (hrhs : rhs.Printable) : (reduceLogical op lhs rhs).Printable := by
  unfold reduceLogical
  split
  · split
    · trivial
    · split
      · trivial
      · split
        · exact hlhs
        · exact ⟨hlhs, hrhs⟩
  · cases hmerged : mergeComparisons? op lhs rhs with
    | none => exact ⟨hlhs, hrhs⟩
    | some merged =>
        obtain ⟨_, _, _, _, _, rfl, ⟨rfl, rfl⟩ | ⟨rfl, rfl⟩⟩ := mergeComparisons?_eq_some hmerged
        · exact hlhs
        · exact hlhs

theorem printable_reduceOrdered {op : BinOp} {lhs rhs : Expr} (hlhs : lhs.Printable)
    (hrhs : rhs.Printable) : (reduceOrdered op lhs rhs).Printable := by
  have hkept : ∀ op, (binary op lhs rhs).Printable := fun _ => ⟨hlhs, hrhs⟩
  unfold reduceOrdered
  split
  · exact Linear.printable_ofExpr (hkept _)
  · exact Linear.printable_ofExpr (hkept _)
  · split
    · exact Linear.printable_ofExpr (hkept _)
    · exact hkept _
  · exact printable_reduceAnd hlhs hrhs
  · split
    · exact hlhs
    · split
      · exact hlhs
      · exact hkept _
  · split
    · exact hlhs
    · split
      · trivial
      · exact hkept _
  · split
    · exact hlhs
    · exact hkept _
  · split
    · exact hlhs
    · exact hkept _
  · split
    · exact hlhs
    · exact hkept _
  · exact printable_reduceLogical hlhs hrhs
  · exact printable_reduceLogical hlhs hrhs
  · exact hkept _
  · exact hkept _
  · exact printable_reduceComparison hlhs hrhs

theorem printable_reduceBinary {op : BinOp} {lhs rhs : Expr} (hlhs : lhs.Printable)
    (hrhs : rhs.Printable) : (reduceBinary op lhs rhs).Printable := by
  unfold reduceBinary
  split
  · split
    · trivial
    · exact printable_reduceOrdered hlhs hrhs
  · split
    · exact printable_reduceOrdered hrhs hlhs
    · split
      · exact printable_reduceOrdered hrhs hlhs
      · exact printable_reduceOrdered hlhs hrhs
  · exact printable_reduceOrdered hlhs hrhs

/-- Reduction leaves an expression that can be printed. -/
theorem printable_reduce {e : Expr}
    (hnamed : ∀ symbol, e.references symbol → symbol.isNamed = false)
    (hsizes : ∀ size ∈ e.accessSizes, size < 32) : e.reduce.Printable := by
  induction e with
  | const value => trivial
  | sym symbol => exact hnamed symbol (by simp [references])
  | mem ptr size ih =>
      obtain ⟨hsize, hptr⟩ := List.forall_mem_cons.mp hsizes
      exact ⟨hsize, ih hnamed hptr⟩
  | port p size ih =>
      obtain ⟨hsize, hp⟩ := List.forall_mem_cons.mp hsizes
      exact ⟨hsize, ih hnamed hp⟩
  | unary op arg ih => exact printable_reduceUnary (ih hnamed hsizes)
  | binary op lhs rhs ihl ihr =>
      simp only [references, Bool.or_eq_true] at hnamed
      obtain ⟨hlhs, hrhs⟩ := List.forall_mem_append.mp hsizes
      exact printable_reduceBinary (ihl (fun symbol h => hnamed symbol (Or.inl h)) hlhs)
        (ihr (fun symbol h => hnamed symbol (Or.inr h)) hrhs)

end Expr

end Uncompile
