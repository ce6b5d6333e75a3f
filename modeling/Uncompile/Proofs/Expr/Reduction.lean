import Mathlib.Tactic.Ring
import Uncompile.Proofs.Expr.Meaning
import Uncompile.Proofs.Expr.Regular

/-!
# Reduction keeps the meaning of expressions

Every rule of reduction replaces an expression by one with the same value. Most
rules are identities of 32-bit arithmetic. The rules on Boolean forms and on
logical operators need the expression to be regular, and flags to be bits.
-/

namespace Uncompile

/-! ## Linear forms -/

namespace Linear

/-- The sum of the terms with their coefficients. -/
def termsValue (v : Valuation) : List (Expr × Int) → Word
  | [] => 0
  | (term, coefficient) :: rest => toWord coefficient * term.eval v + termsValue v rest

def value (v : Valuation) (form : Linear) : Word :=
  termsValue v form.terms + toWord form.constant

/-- The value of the summands so far; of none it is zero. -/
def sumValue (v : Valuation) : Option Expr → Word
  | none => 0
  | some sum => sum.eval v

variable (v : Valuation)

theorem termsValue_addTo (term : Expr) (scale : Int) (terms : List (Expr × Int)) :
    termsValue v (addTo term scale terms) =
      toWord scale * term.eval v + termsValue v terms := by
  induction terms with
  | nil => rfl
  | cons head rest ih =>
      obtain ⟨other, coefficient⟩ := head
      unfold addTo
      split
      · rename_i hsame
        subst hsame
        simp only [termsValue, toWord_add]
        ring
      · simp only [termsValue, ih]
        ring

/-- Collecting adds the scaled expression to the value of a form. -/
theorem value_collect (form : Linear) (scale : Int) (e : Expr) :
    (form.collect scale e).value v = form.value v + toWord scale * e.eval v := by
  fun_induction collect form scale e with
  | case1 form scale constant =>
      simp only [value, Expr.eval, toWord_add, toWord_mul]
      ring
  | case2 form scale lhs rhs ihl ihr =>
      simp only [ihr, ihl, Expr.eval, BinOp.value, BinOp.compute?, Option.getD_some]
      ring
  | case3 form scale lhs rhs ihl ihr =>
      simp only [ihr, ihl, Expr.eval, BinOp.value, BinOp.compute?, Option.getD_some, toWord_neg]
      ring
  | case4 form scale arg ih =>
      simp only [ih, Expr.eval, UnOp.apply, toWord_neg]
      ring
  | case5 form scale lhs k ih =>
      simp only [ih, Expr.eval, BinOp.value, BinOp.compute?, Option.getD_some, toWord_mul]
      ring
  | case6 form scale k rhs _ ih =>
      simp only [ih, Expr.eval, BinOp.value, BinOp.compute?, Option.getD_some, toWord_mul]
      ring
  | case7 form scale term =>
      simp only [value, addTerm, termsValue_addTo]
      ring

theorem value_ofExpr (e : Expr) : (ofExpr e).value v = e.eval v := by
  rw [ofExpr, value_collect]
  simp [value, termsValue]

theorem eval_firstTerm (term : Expr) (coefficient : Int) :
    (firstTerm term coefficient).eval v = toWord coefficient * term.eval v := by
  unfold firstTerm
  split
  · rename_i hone
    rw [hone, toWord_one, one_mul]
  · split
    · rename_i hminus
      rw [hminus, toWord_neg, toWord_one, neg_one_mul]
      rfl
    · exact mul_comm (term.eval v) (toWord coefficient)

theorem eval_nextTerm (previous term : Expr) (coefficient : Int) :
    (nextTerm previous term coefficient).eval v =
      previous.eval v + toWord coefficient * term.eval v := by
  unfold nextTerm
  split
  · rename_i hone
    rw [hone, toWord_one, one_mul]
    rfl
  · split
    · rename_i hminus
      rw [hminus, toWord_neg, toWord_one, neg_one_mul, ← sub_eq_add_neg]
      rfl
    · rw [mul_comm]
      rfl

theorem sumValue_joinTerms (previous : Option Expr) (terms : List (Expr × Int)) :
    sumValue v (joinTerms previous terms) = sumValue v previous + termsValue v terms := by
  induction terms generalizing previous with
  | nil => simp [joinTerms, termsValue]
  | cons head rest ih =>
      obtain ⟨term, coefficient⟩ := head
      unfold joinTerms
      split
      · rename_i hzero
        rw [ih, termsValue, (wrap32_eq_zero_iff coefficient).mp hzero, zero_mul, zero_add]
      · cases previous with
        | none =>
            rw [ih]
            simp only [sumValue, termsValue, eval_firstTerm, toWord_wrap32, zero_add]
        | some sum =>
            rw [ih]
            simp only [sumValue, termsValue, eval_nextTerm, toWord_wrap32, add_assoc]

theorem eval_toExpr (form : Linear) : form.toExpr.eval v = form.value v := by
  have hsum := sumValue_joinTerms v none form.terms
  unfold toExpr value
  cases hjoin : joinTerms none form.terms with
  | none =>
      simp only [hjoin, sumValue, zero_add] at hsum
      simp only [Expr.eval, toWord_wrap32, ← hsum, zero_add]
  | some sum =>
      simp only [hjoin, sumValue, zero_add] at hsum
      dsimp only
      split
      · rename_i hzero
        rw [hsum, (wrap32_eq_zero_iff form.constant).mp hzero, add_zero]
      · rw [← hsum, ← toWord_wrap32 form.constant]
        rfl

/-- The linear form of an expression has its value. -/
theorem eval_toExpr_ofExpr (e : Expr) : (ofExpr e).toExpr.eval v = e.eval v := by
  rw [eval_toExpr, value_ofExpr]

end Linear

/-! ## Unary operators and masks -/

namespace Expr

variable {v : Valuation}

theorem eval_ofTruth (holds : Bool) : (ofTruth holds).eval v = BinOp.truth holds := by
  cases holds <;> rfl

theorem eval_reduceUnary (hv : v.FlagBits) (op : UnOp) (arg : Expr) :
    (reduceUnary op arg).eval v = op.apply (arg.eval v) := by
  fun_cases reduceUnary op arg with
  | case1 value => exact toWord_toInt _
  | case2 => exact Linear.eval_toExpr_ofExpr v _
  | case3 inner => simp [eval, UnOp.apply]
  | case4 inner hinner =>
      -- a double negation is the test for zero, which a bit passes on
      rw [← BinOp.truth_bne_zero_of_bit (eval_bit hv hinner)]
      simp [eval, UnOp.apply, bne]
  | case5 inner => rfl
  | case6 comparison lhs rhs inverse hinverse => exact BinOp.value_negate hinverse _ _
  | case7 comparison lhs rhs => rfl
  | case8 => rfl

theorem eval_reduceMask (arg : Expr) (mask : Int) :
    (arg.reduceMask mask).eval v = arg.eval v &&& toWord mask := by
  fun_induction reduceMask arg mask with
  | case1 => simp [eval]
  | case2 arg mask _ hall =>
      have hones : toWord mask = BitVec.allOnes 32 := by
        have h := toWord_maskAnd mask mask32
        rw [hall, toWord_mask32, BitVec.and_allOnes] at h
        exact h.symm
      rw [hones, BitVec.and_allOnes]
  | case3 mask _ _ inner other ih =>
      rw [ih, toWord_maskAnd, ← BitVec.and_assoc]
      rfl
  | case4 => rfl

theorem eval_reduceAnd (lhs rhs : Expr) :
    (reduceAnd lhs rhs).eval v = lhs.eval v &&& rhs.eval v := by
  unfold reduceAnd
  split
  · exact eval_reduceMask lhs _
  · split
    · rename_i hsame
      rw [hsame, BitVec.and_self]
    · rfl

/-! ## Comparisons -/

/-- The Boolean operand of an inequality is the comparison of the other operand
with the whole, if all are bits. -/
theorem bit_ne_ne {x y : Word} (hx : x = 0 ∨ x = 1) (hy : y = 0 ∨ y = 1) :
    BinOp.truth (x != BinOp.truth (x != y)) = y := by
  rcases hx with rfl | rfl <;> rcases hy with rfl | rfl <;> rfl

/-- Comparable operands around an inequality of the one with something else are
bits: an equality inside leaves only the Boolean forms. -/
theorem eval_stripInequality (hv : v.FlagBits) {outer inner rest : Expr}
    (hcomparable : comparable outer inner) (hrest : stripInequality? outer inner = some rest) :
    BinOp.truth (outer.eval v != inner.eval v) = rest.eval v := by
  obtain ⟨hboolean, hinner⟩ := stripInequality?_eq_some hrest
  have houter : outer.isBoolean := by
    by_contra hnot
    have hfree := (equalityFree_of_comparable hcomparable (by simpa using hnot)).2
    rcases hinner with rfl | rfl <;> simp [equalityFree, BinOp.isEquality] at hfree
  have hx := eval_bit hv houter
  have hy := eval_bit hv hboolean
  rcases hinner with rfl | rfl
  · exact bit_ne_ne hx hy
  · have hcomm : (binary .ne rest outer).eval v = (binary .ne outer rest).eval v :=
      BinOp.value_comm rfl _ _
    rw [hcomm]
    exact bit_ne_ne hx hy

theorem eval_reduceBooleanTest (hv : v.FlagBits) {op : BinOp} {lhs rhs result : Expr}
    (hresult : reduceBooleanTest? op lhs rhs = some result) :
    result.eval v = (binary op lhs rhs).eval v := by
  obtain ⟨hboolean, hcases⟩ := reduceBooleanTest?_eq_some hresult
  have hbit := eval_bit hv hboolean
  rcases hcases with ⟨htest, rfl⟩ | ⟨htest, rfl⟩
  · rcases htest with ⟨rfl, rfl⟩ | ⟨rfl, rfl⟩ <;> rcases hbit with h | h <;>
      simp [eval, BinOp.value, BinOp.compute?, h]
  · rw [eval_reduceUnary hv]
    rcases htest with ⟨rfl, rfl⟩ | ⟨rfl, rfl⟩ <;> rcases hbit with h | h <;>
      simp [eval, UnOp.apply, BinOp.value, BinOp.compute?, h]

/-- An equality is the truth value of its inequality or the negation of it. -/
theorem eval_equality {op : BinOp} (hop : op.isEquality) (lhs rhs : Expr) :
    (binary op lhs rhs).eval v =
      if op = .ne then BinOp.truth (lhs.eval v != rhs.eval v)
      else UnOp.lnot.apply (BinOp.truth (lhs.eval v != rhs.eval v)) := by
  cases op <;> simp only [BinOp.isEquality, Bool.false_eq_true] at hop <;>
    simp [eval, BinOp.value, BinOp.compute?, UnOp.apply, bne]

theorem eval_reduceEquality (hv : v.FlagBits) {op : BinOp} (hop : op.isEquality)
    {lhs rhs : Expr} (hcomparable : comparable lhs rhs) :
    (reduceEquality op lhs rhs).eval v = (binary op lhs rhs).eval v := by
  unfold reduceEquality
  split
  · rename_i result hresult
    exact eval_reduceBooleanTest hv hresult
  · split
    · rename_i rest hstrip
      have hrest : BinOp.truth (lhs.eval v != rhs.eval v) = rest.eval v := by
        rcases Option.or_eq_some_iff.mp hstrip with hleft | ⟨_, hright⟩
        · exact eval_stripInequality hv hcomparable hleft
        · rw [← eval_stripInequality hv (comparable_comm hcomparable) hright, bne_comm]
      rw [eval_equality hop, hrest]
      split
      · rfl
      · exact eval_reduceUnary hv .lnot rest
    · rfl

theorem eval_reduceComparison (hv : v.FlagBits) {op : BinOp} (hop : op.isComparison)
    {lhs rhs : Expr} (hcomparable : op.isEquality → comparable lhs rhs) :
    (reduceComparison op lhs rhs).eval v = (binary op lhs rhs).eval v := by
  fun_induction reduceComparison op lhs rhs with
  | case1 e => rw [eval_ofTruth, eval, BinOp.value_self hop]
  | case2 hequality a b _ ih =>
      rw [ih fun _ => comparable_of_sub (hcomparable hequality)]
      exact BinOp.value_congr_of_eq_iff hequality sub_eq_zero.symm
  | case3 hequality => exact eval_reduceEquality hv hequality (hcomparable hequality)
  | case4 hequality a k value _ ih =>
      rw [ih fun _ => comparable_of_add (hcomparable hequality) _]
      apply BinOp.value_congr_of_eq_iff hequality
      simp only [eval, toWord_wrap32, toWord_sub]
      exact eq_sub_iff_add_eq
  | case5 hequality => exact eval_reduceEquality hv hequality (hcomparable hequality)
  | case6 => rfl

/-! ## Logical operators -/

/-- A testable constant is zero exactly when its word is. -/
theorem toWord_bne_zero {value : Int} (h : (const value).testable) :
    (toWord value != 0) = decide (value ≠ 0) := by
  have hzero : toWord value = 0 ↔ value = 0 := by
    simp only [testable, Bool.or_eq_true] at h
    rcases h with hboolean | hfit
    · simp only [isBoolean, Bool.or_eq_true, decide_eq_true_eq] at hboolean
      rcases hboolean with rfl | rfl <;> decide
    · exact toWord_eq_zero_iff hfit
  rw [Bool.eq_iff_iff, bne_iff_ne, decide_eq_true_eq, ne_eq, hzero]

/-- Unsigned order is strict order or equality. -/
theorem ule_eq_ult_or_eq (a b : Word) : a.ule b = (a.ult b || a == b) := by
  rw [Bool.eq_iff_iff, Bool.or_eq_true, beq_iff_eq, BitVec.ule_iff_toNat_le,
    BitVec.ult_iff_toNat_lt, ← BitVec.toNat_inj]
  omega

theorem ult_eq_ule_and_ne (a b : Word) : a.ult b = (a.ule b && a != b) := by
  rw [Bool.eq_iff_iff, Bool.and_eq_true, bne_iff_ne, BitVec.ule_iff_toNat_le,
    BitVec.ult_iff_toNat_lt, ne_eq, ← BitVec.toNat_inj]
  omega

/-- An ordering joined with the equality it leaves out or takes in. -/
theorem value_merged {byZero : BinOp → Word → Word} {op other merged : BinOp}
    (hmerged : mergedOperator? op other = some merged) (a b : Word) :
    merged.value byZero a b =
      op.value byZero ((absorbed op).value byZero a b) (other.value byZero a b) := by
  rcases mergedOperator?_eq_some hmerged with
    ⟨rfl, rfl, rfl⟩ | ⟨rfl, rfl, rfl⟩ | ⟨rfl, rfl, rfl⟩ | ⟨rfl, rfl, rfl⟩
  · simp [absorbed, BinOp.value, BinOp.compute?, @BitVec.slt_eq_sle_and_ne 32 b a, Bool.and_comm,
      @bne_comm _ _ _ b a]
  · simp [absorbed, BinOp.value, BinOp.compute?, ult_eq_ule_and_ne b a, Bool.and_comm,
      @bne_comm _ _ _ b a]
  · simp [absorbed, BinOp.value, BinOp.compute?, BitVec.sle_eq_slt_or_eq, Bool.or_comm]
  · simp [absorbed, BinOp.value, BinOp.compute?, ule_eq_ult_or_eq, Bool.or_comm]

theorem eval_mergeComparisons {op : BinOp} (hop : op.isCommutative) {lhs rhs merged : Expr}
    (hmerged : mergeComparisons? op lhs rhs = some merged) :
    merged.eval v = (binary op lhs rhs).eval v := by
  obtain ⟨other, joined, a, b, hjoined, rfl, ⟨rfl, rfl⟩ | ⟨rfl, rfl⟩⟩ :=
    mergeComparisons?_eq_some hmerged
  · exact value_merged hjoined _ _
  · simp only [eval, value_merged hjoined]
    exact BinOp.value_comm hop _ _

theorem eval_reduceLogical (hv : v.FlagBits) {op : BinOp} (hop : op.isLogical) {lhs rhs : Expr}
    (hrhs : rhs.testable) : (reduceLogical op lhs rhs).eval v = (binary op lhs rhs).eval v := by
  have hcases : op = .land ∨ op = .lor := by
    cases op <;> simp [BinOp.isLogical] at hop <;> simp
  unfold reduceLogical
  split
  · rename_i value
    have hnonzero (hvalue : value ≠ 0) : (toWord value != 0) = true := by
      rw [toWord_bne_zero hrhs, decide_eq_true hvalue]
    split
    · rename_i hand
      simp [hand.1, hand.2, eval, BinOp.value, BinOp.compute?]
    · rename_i hnotAnd
      split
      · rename_i hor
        have hlor : op = .lor := hcases.resolve_left hor.1
        subst hlor
        simp only [eval, BinOp.value, BinOp.compute?, Option.getD_some, hnonzero hor.2,
          Bool.or_true]
        rfl
      · rename_i hnotOr
        split
        · -- the constant is neutral, so the operator tests the Boolean operand
          rename_i hboolean
          have hbit := BinOp.truth_bne_zero_of_bit (eval_bit hv hboolean)
          rcases hcases with rfl | rfl
          · have hvalue : value ≠ 0 := fun h => hnotAnd ⟨rfl, h⟩
            simp only [eval, BinOp.value, BinOp.compute?, Option.getD_some, hnonzero hvalue,
              Bool.and_true, hbit]
          · have hvalue : value = 0 := by
              by_contra h
              exact hnotOr ⟨by simp, h⟩
            subst hvalue
            simp only [eval, BinOp.value, BinOp.compute?, Option.getD_some, toWord_zero,
              bne_self_eq_false, Bool.or_false, hbit]
        · rfl
  · cases hmerged : mergeComparisons? op lhs rhs with
    | none => rfl
    | some merged =>
        exact eval_mergeComparisons (by rcases hcases with rfl | rfl <;> rfl) hmerged

/-! ## The whole reduction -/

theorem eval_reduceOrdered (hv : v.FlagBits) {op : BinOp} {lhs rhs : Expr}
    (hkept : (binary op lhs rhs).Regular) :
    (reduceOrdered op lhs rhs).eval v = (binary op lhs rhs).eval v := by
  obtain ⟨hcomparable, htestable, _, _⟩ := hkept
  unfold reduceOrdered
  split
  · exact Linear.eval_toExpr_ofExpr v _
  · exact Linear.eval_toExpr_ofExpr v _
  · split
    · exact Linear.eval_toExpr_ofExpr v _
    · rfl
  · exact eval_reduceAnd lhs rhs
  · split
    · rename_i hzero
      simp [hzero, eval, BinOp.value, BinOp.compute?]
    · split
      · rename_i hsame
        simp [hsame, eval, BinOp.value, BinOp.compute?]
      · rfl
  · split
    · rename_i hzero
      simp [hzero, eval, BinOp.value, BinOp.compute?]
    · split
      · rename_i hsame
        simp [hsame, eval, BinOp.value, BinOp.compute?]
      · rfl
  · split
    · rename_i hzero
      simp [hzero, eval, BinOp.value, BinOp.compute?]
    · rfl
  · split
    · rename_i hzero
      simp [hzero, eval, BinOp.value, BinOp.compute?]
    · rfl
  · split
    · rename_i hzero
      simp [hzero, eval, BinOp.value, BinOp.compute?]
    · rfl
  · exact eval_reduceLogical hv rfl (htestable rfl).2
  · exact eval_reduceLogical hv rfl (htestable rfl).2
  · rfl
  · rfl
  · rename_i hadd hsub hmul hand hor hxor hshl hshr hsar hland hlor hdiv hmod
    have hop : op.isComparison :=
      isComparison_of_ne hadd hsub hmul hand hor hxor hshl hshr hsar hland hlor hdiv hmod
    exact eval_reduceComparison hv hop hcomparable

/-- Folding two constants gives the constant of the operator's value. -/
theorem toWord_fold {op : BinOp} {a b value : Int} (hvalue : op.fold? a b = some value)
    (htestable : op.isLogical → (const a).testable ∧ (const b).testable)
    (byZero : BinOp → Word → Word) : toWord value = op.value byZero (toWord a) (toWord b) := by
  unfold BinOp.fold? at hvalue
  split at hvalue
  · rw [← Option.some.inj hvalue, BinOp.value, BinOp.compute?, toWord_bne_zero (htestable rfl).1,
      toWord_bne_zero (htestable rfl).2, Option.getD_some, ← Bool.decide_and]
    split
    · rename_i h
      rw [decide_eq_true h]
      rfl
    · rename_i h
      rw [decide_eq_false h]
      rfl
  · rw [← Option.some.inj hvalue, BinOp.value, BinOp.compute?, toWord_bne_zero (htestable rfl).1,
      toWord_bne_zero (htestable rfl).2, Option.getD_some, ← Bool.decide_or]
    split
    · rename_i h
      rw [decide_eq_true h]
      rfl
    · rename_i h
      rw [decide_eq_false h]
      rfl
  · obtain ⟨w, hw, rfl⟩ := Option.map_eq_some_iff.mp hvalue
    rw [toWord_toInt, BinOp.value, hw, Option.getD_some]

theorem eval_reduceBinary (hv : v.FlagBits) {op : BinOp} {lhs rhs : Expr}
    (hkept : (binary op lhs rhs).Regular) :
    (reduceBinary op lhs rhs).eval v = (binary op lhs rhs).eval v := by
  unfold reduceBinary
  split
  · split
    · rename_i hvalue
      exact toWord_fold hvalue hkept.2.1 v.byZero
    · exact eval_reduceOrdered hv hkept
  · split
    · rename_i hcommutative
      rw [eval_reduceOrdered hv (regular_turned hkept rfl rfl)]
      exact BinOp.value_comm hcommutative _ _
    · split
      · rename_i hcomparison
        rw [eval_reduceOrdered hv (regular_swapped hkept)]
        exact BinOp.value_swapped hcomparison _ _
      · exact eval_reduceOrdered hv hkept
  · exact eval_reduceOrdered hv hkept

theorem eval_reduce_of_regular (hv : v.FlagBits) {e : Expr} (he : e.Regular) :
    e.reduce.eval v = e.eval v := by
  induction e with
  | const value => rfl
  | sym symbol => rfl
  | mem ptr size ih => simp only [reduce, eval, ih he]
  | port p size ih => simp only [reduce, eval, ih he]
  | unary op arg ih => rw [reduce, eval_reduceUnary hv, ih he, eval]
  | binary op lhs rhs ihl ihr =>
      have hkept := regular_reduced_operands he (regular_reduce he.2.2.1) (regular_reduce he.2.2.2)
      rw [reduce, eval_reduceBinary hv hkept, eval, eval, ihl he.2.2.1, ihr he.2.2.2]

/-- Reduction keeps the value of every expression whose constants fit in 32 bits
and whose equalities compare Boolean forms or expressions free of equalities. -/
theorem eval_reduce {v : Valuation} (hv : v.FlagBits) {e : Expr} (hfit : e.constantsFit)
    (hequalities : e.equalitiesComparable) : e.reduce.eval v = e.eval v :=
  eval_reduce_of_regular hv (regular_of_constantsFit hfit hequalities)

/-- The flag formula of "greater or equal" for a register and a word of memory
meets the conditions and becomes the comparison itself. -/
theorem eval_reduce_greaterOrEqual :
    let v : Valuation :=
      { symbol := fun symbol => if symbol = .reg .eax then 7 else 0
        mem := fun address size => address + size
        port := fun _ _ => 0
        byZero := fun _ a => a }
    let word := mem (reg .ebx) 4
    let sign := binary .lt (binary .sub (reg .eax) word) (const 0)
    let e := binary .eq sign (binary .ne sign (binary .lt (reg .eax) word))
    v.FlagBits ∧ e.constantsFit ∧ e.equalitiesComparable ∧
      e.reduce = binary .ge (reg .eax) word ∧ e.reduce.eval v = e.eval v := by
  intro v word sign e
  have hv : v.FlagBits := fun f => Or.inl (by simp [v])
  exact ⟨hv, rfl, rfl, by decide, eval_reduce hv rfl rfl⟩

end Expr

end Uncompile
