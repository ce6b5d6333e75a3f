import Uncompile.Emission.BlockState
import Uncompile.Machine.Condition
import Uncompile.Proofs.Expr.Reduction
import Uncompile.Proofs.Machine.LiftForm

/-!
# Values that a block accumulates

The values bound in a block state have the forms of lifted values, and stay so
when further lifted values are evaluated in it. Evaluation in a block state is
therefore evaluation with the bound values, reduction changing nothing.
-/

namespace Uncompile

/-- All bound symbols belong to the processor and have values of their form. -/
structure LiveForm (live : Binding) : Prop where
  processor : ∀ symbol value, live.get? symbol = some value → symbol.onProcessor
  form : ∀ symbol value, live.get? symbol = some value → ValueForm symbol value

namespace LiveForm

variable {live : Binding}

/-- What does not belong to the processor is not bound. -/
theorem get?_eq_none (hlive : LiveForm live) {symbol : Symbol}
    (hsymbol : symbol.onProcessor = false) : live.get? symbol = none := by
  cases hvalue : live.get? symbol with
  | none => rfl
  | some value =>
      have hprocessor := hlive.processor symbol value hvalue
      rw [hsymbol] at hprocessor
      exact absurd hprocessor Bool.false_ne_true

/-- The values of operands are registers' values. -/
theorem operand (hlive : LiveForm live) {symbol : Symbol} {value : Expr}
    (hsymbol : symbol.isOperand) (hvalue : live.get? symbol = some value) :
    value.equalityFree ∧ value.Regular := by
  have hform := hlive.form symbol value hvalue
  refine ⟨hform.register ?_, hform.regular⟩
  rintro f rfl
  simp [Symbol.isOperand] at hsymbol

theorem equalityFree_bind (hlive : LiveForm live) {e : Expr} (hoperands : e.Within .operands)
    (hfree : e.equalityFree) : (e.bind live).equalityFree := by
  induction e with
  | const value => rfl
  | sym symbol =>
      cases hvalue : live.get? symbol with
      | none => simp [Expr.bind, hvalue, Expr.equalityFree]
      | some value => simpa [Expr.bind, hvalue] using (hlive.operand hoperands hvalue).1
  | mem ptr size ih => exact ih hoperands.2 hfree
  | port p size ih => exact ih hoperands.2 hfree
  | unary op arg ih => exact ih hoperands hfree
  | binary op lhs rhs ihl ihr =>
      simp only [Expr.equalityFree, Bool.and_eq_true, Expr.bind] at hfree ⊢
      exact ⟨⟨hfree.1.1, ihl hoperands.2.1 hfree.1.2⟩, ihr hoperands.2.2 hfree.2⟩

theorem isBoolean_bind {e : Expr} (hoperands : e.Within .operands) (hboolean : e.isBoolean) :
    (e.bind live).isBoolean := by
  cases e with
  | sym symbol =>
      cases symbol <;> simp [Expr.isBoolean] at hboolean
      simp [Expr.Within, Vocabulary.operands, Symbol.isOperand] at hoperands
  | unary op arg =>
      cases op <;> simp [Expr.isBoolean] at hboolean
      rfl
  | const value => exact hboolean
  | binary op lhs rhs => exact hboolean
  | _ => simp [Expr.isBoolean] at hboolean

theorem regular_bind (hlive : LiveForm live) {e : Expr} (hoperands : e.Within .operands)
    (hregular : e.Regular) : (e.bind live).Regular := by
  induction e with
  | const value => trivial
  | sym symbol =>
      cases hvalue : live.get? symbol with
      | none => simp [Expr.bind, hvalue, Expr.Regular]
      | some value => simpa [Expr.bind, hvalue] using (hlive.operand hoperands hvalue).2
  | mem ptr size ih => exact ih hoperands.2 hregular
  | port p size ih => exact ih hoperands.2 hregular
  | unary op arg ih => exact ih hoperands hregular
  | binary op lhs rhs ihl ihr =>
      obtain ⟨hop, hlhs, hrhs⟩ := hoperands
      obtain ⟨hcomparable, _, hlhs', hrhs'⟩ := hregular
      refine ⟨fun h => ?_, fun h => ?_, ihl hlhs hlhs', ihr hrhs hrhs'⟩
      · have hcases := hcomparable h
        simp only [Expr.comparable, Bool.or_eq_true, Bool.and_eq_true] at hcases ⊢
        rcases hcases with ⟨hl, hr⟩ | ⟨hl, hr⟩
        · exact Or.inl ⟨isBoolean_bind hlhs hl, isBoolean_bind hrhs hr⟩
        · exact Or.inr ⟨hlive.equalityFree_bind hlhs hl, hlive.equalityFree_bind hrhs hr⟩
      · rw [show op.isLogical = false from hop] at h
        exact absurd h Bool.false_ne_true

/-- A value keeps its form when it is evaluated in a block state. -/
theorem valueForm_eval (hlive : LiveForm live) {symbol : Symbol} {value : Expr}
    (hoperands : value.Within .operands) (hvalue : ValueForm symbol value) :
    ValueForm symbol (value.bind live).reduce where
  regular := Expr.regular_reduce (hlive.regular_bind hoperands hvalue.regular)
  register h := Expr.equalityFree_reduce (hlive.equalityFree_bind hoperands (hvalue.register h))
  flag f h := by
    rcases hvalue.flag f h with hboolean | rfl
    · exact Or.inl (Expr.isBoolean_reduce (isBoolean_bind hoperands hboolean))
    · have hunknown : live.get? .unknown = none := hlive.get?_eq_none rfl
      exact Or.inr (by simp [Expr.bind, hunknown, Expr.reduce])
  sign h :=
    ⟨Expr.equalityFree_reduce (hlive.equalityFree_bind hoperands (hvalue.sign h).1),
      Expr.isBoolean_reduce (isBoolean_bind hoperands (hvalue.sign h).2)⟩

/-! ## Conditions -/

/-- The current value of a flag, or its variable. -/
theorem flag_bind (hlive : LiveForm live) (f : Flag) :
    ValueForm (.flag f) ((Expr.flag f).bind live) := by
  cases hvalue : live.get? (.flag f) with
  | none =>
      have hbind : (Expr.flag f).bind live = .flag f := by simp [Expr.flag, Expr.bind, hvalue]
      rw [hbind]
      exact ⟨trivial, fun _ => rfl, fun _ _ => Or.inl rfl, fun _ => ⟨rfl, rfl⟩⟩
  | some value =>
      have hbind : (Expr.flag f).bind live = value := by simp [Expr.flag, Expr.bind, hvalue]
      rw [hbind]
      exact hlive.form _ value hvalue

/-- Sign and overflow flag can be compared: both are bits by their form, or the
overflow flag is unknown and the sign flag no equality. -/
theorem comparable_sign_overflow (hlive : LiveForm live) :
    Expr.comparable ((Expr.flag .s).bind live) ((Expr.flag .o).bind live) := by
  obtain ⟨hfree, hsign⟩ := (hlive.flag_bind .s).sign rfl
  rcases (hlive.flag_bind .o).flag .o rfl with hboolean | hunknown
  · simp [Expr.comparable, hsign, hboolean]
  · rw [hunknown]
    exact Expr.comparable_of_equalityFree hfree rfl

theorem testable_flag (hlive : LiveForm live) (f : Flag) :
    ((Expr.flag f).bind live).testable := by
  rcases (hlive.flag_bind f).flag f rfl with hboolean | hunknown
  · simp [Expr.testable, hboolean]
  · rw [hunknown]
    rfl

/-- Whether sign and overflow flag agree or differ. -/
theorem regular_sign_overflow (hlive : LiveForm live) {op : BinOp} (hop : op.isLogical = false) :
    ((Expr.binary op (.flag .s) (.flag .o)).bind live).Regular :=
  ⟨fun _ => hlive.comparable_sign_overflow, fun h => absurd (hop ▸ h) Bool.false_ne_true,
    (hlive.flag_bind .s).regular, (hlive.flag_bind .o).regular⟩

/-- A logical operator on testable operands is regular. -/
theorem regular_logical {op : BinOp} (hop : op.isEquality = false) {lhs rhs : Expr}
    (hlhs : (lhs.bind live).testable ∧ (lhs.bind live).Regular)
    (hrhs : (rhs.bind live).testable ∧ (rhs.bind live).Regular) :
    ((Expr.binary op lhs rhs).bind live).Regular :=
  ⟨fun h => absurd (hop ▸ h) Bool.false_ne_true, fun _ => ⟨hlhs.1, hrhs.1⟩, hlhs.2, hrhs.2⟩

/-- Whatever the flags hold, a branch condition can be reduced without loss. -/
theorem regular_condition (hlive : LiveForm live) (cc : Condition) :
    (cc.toExpr.bind live).Regular := by
  have hflag : ∀ f, ((Expr.flag f).bind live).testable ∧ ((Expr.flag f).bind live).Regular :=
    fun f => ⟨hlive.testable_flag f, (hlive.flag_bind f).regular⟩
  have hnot : ∀ f, ((Expr.unary .lnot (.flag f)).bind live).testable ∧
      ((Expr.unary .lnot (.flag f)).bind live).Regular :=
    fun f => ⟨rfl, (hlive.flag_bind f).regular⟩
  have hcounter : ∀ e : Expr, e.Arithmetic →
      ((Expr.binary .eq e (.const 0)).bind live).Regular := fun e he =>
    hlive.regular_bind ⟨rfl, he.operands, trivial⟩
      (he.regular_equality (Expr.arithmetic_const 0) rfl)
  cases cc with
  | o | b | z | s | p => exact (hflag _).2
  | no | ae | nz | ns | np => exact (hnot _).2
  | be => exact regular_logical rfl (hflag .c) (hflag .z)
  | a => exact regular_logical rfl (hnot .c) (hnot .z)
  | l => exact hlive.regular_sign_overflow rfl
  | ge => exact hlive.regular_sign_overflow rfl
  | le => exact regular_logical rfl (hflag .z) ⟨rfl, hlive.regular_sign_overflow rfl⟩
  | g => exact regular_logical rfl (hnot .z) ⟨rfl, hlive.regular_sign_overflow rfl⟩
  | ecxz => exact hcounter _ (Expr.arithmetic_reg .ecx)
  | cxz => exact hcounter _ ((Expr.arithmetic_reg .ecx).binary (Expr.arithmetic_const _) rfl)

end LiveForm

/-- In a state whose flags are bits, evaluation in a block state is evaluation
with the bound values. -/
theorem BlockState.eval_eval {v : Valuation} (hv : v.FlagBits) {state : BlockState} {e : Expr}
    (hregular : (e.bind state.live).Regular) :
    (state.eval e).eval v = e.eval (v.bind state.live) := by
  rw [BlockState.eval, Expr.eval_reduce_of_regular hv hregular, Expr.eval_bind]

end Uncompile
