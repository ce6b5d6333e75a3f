import Mathlib.Data.BitVec
import Uncompile.Proofs.Expr.Vocabulary

/-!
# Expressions that reduction understands

Two rules of reduction look at the form of an expression where its value would
decide: a logical operator tests its constants as they are written, and an
equality with an inequality inside takes the outer operand for a bit. The
conditions here say when form and value agree. They are stable: reduction keeps
Boolean forms Boolean and regular expressions regular.
-/

namespace Uncompile

/-! ## Constants of 32 bits -/

/-- Constants that 32 bits can hold, signed or unsigned. -/
def fits32 (value : Int) : Bool := -2147483648 ≤ value && value < 4294967296

theorem fits32_iff (value : Int) : fits32 value ↔ -2147483648 ≤ value ∧ value < 4294967296 := by
  simp [fits32]

theorem fits32_toInt (w : Word) : fits32 w.toInt := by
  have hlow := BitVec.le_toInt w
  have hhigh := BitVec.toInt_lt (x := w)
  rw [fits32_iff]
  omega

theorem maskAnd_comm (a b : Int) : maskAnd a b = maskAnd b a := by
  rw [maskAnd, maskAnd, BitVec.and_comm]

/-- A mask that is not negative keeps a conjunction from being so. -/
theorem maskAnd_of_nonneg {a : Int} (hlow : 0 ≤ a) (hhigh : a < 4294967296) (b : Int) :
    0 ≤ maskAnd a b ∧ maskAnd a b < 4294967296 := by
  have hleft : (BitVec.ofInt 64 a).toNat < 4294967296 := by
    rw [BitVec.toNat_ofInt]
    omega
  have hand : (BitVec.ofInt 64 a &&& BitVec.ofInt 64 b).toNat < 4294967296 := by
    rw [BitVec.toNat_and]
    exact lt_of_le_of_lt Nat.and_le_left hleft
  rw [maskAnd, BitVec.toInt_eq_toNat_of_lt (by omega)]
  omega

/-- Two negative masks have a negative conjunction that is no smaller. -/
theorem maskAnd_of_neg {a b : Int} (ha : -2147483648 ≤ a) (ha' : a < 0)
    (hb : -2147483648 ≤ b) (hb' : b < 0) :
    -2147483648 ≤ maskAnd a b ∧ maskAnd a b < 0 := by
  have hnot : ∀ c : Int, -2147483648 ≤ c → c < 0 → (~~~BitVec.ofInt 64 c).toNat < 2 ^ 31 := by
    intro c hc hc'
    rw [BitVec.toNat_not, BitVec.toNat_ofInt]
    omega
  have hor : (~~~BitVec.ofInt 64 a ||| ~~~BitVec.ofInt 64 b).toNat < 2 ^ 31 := by
    rw [BitVec.toNat_or]
    exact Nat.or_lt_two_pow (hnot a ha ha') (hnot b hb hb')
  rw [← BitVec.not_and, BitVec.toNat_not] at hor
  have htoNat := (BitVec.ofInt 64 a &&& BitVec.ofInt 64 b).isLt
  rw [maskAnd, BitVec.toInt_eq_toNat_cond]
  split <;> omega

theorem fits32_maskAnd {a b : Int} (ha : fits32 a) (hb : fits32 b) : fits32 (maskAnd a b) := by
  rw [fits32_iff] at ha hb ⊢
  by_cases ha' : 0 ≤ a
  · have h := maskAnd_of_nonneg ha' ha.2 b
    omega
  · by_cases hb' : 0 ≤ b
    · have h := maskAnd_of_nonneg hb' hb.2 a
      rw [maskAnd_comm]
      omega
    · have h := maskAnd_of_neg ha.1 (by omega) hb.1 (by omega)
      omega

theorem toWord_eq_zero_iff {value : Int} (hfits : fits32 value) : toWord value = 0 ↔ value = 0 := by
  rw [fits32_iff] at hfits
  rw [toWord, ← BitVec.toNat_inj, BitVec.toNat_ofInt]
  simp only [BitVec.ofNat_eq_ofNat, BitVec.toNat_ofNat]
  omega
/-! ## Conditions on the form -/

namespace Expr

/-- No equality or inequality occurs. -/
def equalityFree : Expr → Bool
  | const _ => true
  | sym _ => true
  | mem ptr _ => ptr.equalityFree
  | port p _ => p.equalityFree
  | unary _ arg => arg.equalityFree
  | binary op lhs rhs => !op.isEquality && lhs.equalityFree && rhs.equalityFree

/-- All constants fit in 32 bits. -/
def constantsFit : Expr → Bool
  | const value => fits32 value
  | sym _ => true
  | mem ptr _ => ptr.constantsFit
  | port p _ => p.constantsFit
  | unary _ arg => arg.constantsFit
  | binary _ lhs rhs => lhs.constantsFit && rhs.constantsFit

/-- Operands that an equality may have: two Boolean forms, or two expressions
without any equality inside. -/
def comparable (lhs rhs : Expr) : Bool :=
  lhs.isBoolean && rhs.isBoolean || lhs.equalityFree && rhs.equalityFree

/-- Every equality and inequality has comparable operands. -/
def equalitiesComparable : Expr → Bool
  | const _ => true
  | sym _ => true
  | mem ptr _ => ptr.equalitiesComparable
  | port p _ => p.equalitiesComparable
  | unary _ arg => arg.equalitiesComparable
  | binary op lhs rhs =>
    (!op.isEquality || comparable lhs rhs) && lhs.equalitiesComparable && rhs.equalitiesComparable

/-- An operand whose test for zero can be read off if it becomes a constant. -/
def testable (e : Expr) : Bool := e.isBoolean || e.constantsFit

/-- Equalities have comparable operands and logical operators testable ones. -/
def Regular : Expr → Prop
  | const _ => True
  | sym _ => True
  | mem ptr _ => ptr.Regular
  | port p _ => p.Regular
  | unary _ arg => arg.Regular
  | binary op lhs rhs =>
    (op.isEquality → comparable lhs rhs) ∧ (op.isLogical → lhs.testable ∧ rhs.testable) ∧
      lhs.Regular ∧ rhs.Regular

theorem regular_of_constantsFit {e : Expr} (hfit : e.constantsFit)
    (heq : e.equalitiesComparable) : e.Regular := by
  induction e with
  | const value => trivial
  | sym symbol => trivial
  | mem ptr size ih => exact ih hfit heq
  | port p size ih => exact ih hfit heq
  | unary op arg ih => exact ih hfit heq
  | binary op lhs rhs ihl ihr =>
      simp only [constantsFit, equalitiesComparable, Bool.and_eq_true, Bool.or_eq_true,
        Bool.not_eq_eq_eq_not, Bool.not_true] at hfit heq
      refine ⟨fun hop => ?_, fun _ => ?_, ihl hfit.1 heq.1.2, ihr hfit.2 heq.2⟩
      · simpa [hop] using heq.1.1
      · simp [testable, hfit.1, hfit.2]

end Expr

/-! ## Vocabularies of the conditions -/

/-- The expressions without equalities. -/
def Vocabulary.equalityFree : Vocabulary where
  constant _ := True
  symbol _ := True
  memory := True
  operator op := op.isEquality = false
  constant_word _ := trivial
  constant_mask _ _ := trivial
  operator_add := rfl
  operator_sub := rfl
  operator_mul := rfl
  operator_negate {op inverse} hinverse hop := by
    cases op <;> simp_all [BinOp.negate?, BinOp.isEquality] <;> subst hinverse <;> rfl
  operator_swapped {op} hop := by cases op <;> simp_all [BinOp.swapped, BinOp.isEquality]
  operator_merged {op other merged} hmerged _ := by
    rcases Expr.mergedOperator?_eq_some hmerged with
      ⟨rfl, rfl, rfl⟩ | ⟨rfl, rfl, rfl⟩ | ⟨rfl, rfl, rfl⟩ | ⟨rfl, rfl, rfl⟩ <;> rfl

/-- The expressions whose constants fit in 32 bits. -/
def Vocabulary.fitting : Vocabulary :=
  { Vocabulary.ofSymbols fun _ => True with
    constant := fun value => fits32 value
    constant_word := fits32_toInt
    constant_mask := fits32_maskAnd }

namespace Expr

theorem within_equalityFree_iff {e : Expr} :
    e.Within .equalityFree ↔ e.equalityFree := by
  induction e with
  | const value => simp [Within, equalityFree, Vocabulary.equalityFree]
  | sym symbol => simp [Within, equalityFree, Vocabulary.equalityFree]
  | mem ptr size ih => simpa [Within, equalityFree, Vocabulary.equalityFree] using ih
  | port p size ih => simpa [Within, equalityFree, Vocabulary.equalityFree] using ih
  | unary op arg ih => simpa [Within, equalityFree] using ih
  | binary op lhs rhs ihl ihr =>
      simp only [Within, ihl, ihr, equalityFree, Bool.and_eq_true, Bool.not_eq_true', and_assoc]
      rfl

theorem within_fitting_iff {e : Expr} : e.Within .fitting ↔ e.constantsFit := by
  induction e with
  | const value => simp [Within, constantsFit, Vocabulary.fitting]
  | sym symbol => simp [Within, constantsFit, Vocabulary.fitting, Vocabulary.ofSymbols]
  | mem ptr size ih =>
      simpa [Within, constantsFit, Vocabulary.fitting, Vocabulary.ofSymbols] using ih
  | port p size ih =>
      simpa [Within, constantsFit, Vocabulary.fitting, Vocabulary.ofSymbols] using ih
  | unary op arg ih => simpa [Within, constantsFit] using ih
  | binary op lhs rhs ihl ihr =>
      simp only [Within, ihl, ihr, constantsFit, Bool.and_eq_true]
      exact and_iff_right trivial

theorem equalityFree_reduce {e : Expr} (he : e.equalityFree) : e.reduce.equalityFree :=
  within_equalityFree_iff.mp (within_reduce (within_equalityFree_iff.mpr he))

theorem constantsFit_reduce {e : Expr} (he : e.constantsFit) : e.reduce.constantsFit :=
  within_fitting_iff.mp (within_reduce (within_fitting_iff.mpr he))

/-! ## Reduction keeps Boolean forms -/

theorem isBoolean_ofTruth (holds : Bool) : (ofTruth holds).isBoolean := by
  cases holds <;> rfl

theorem isBoolean_truth_toInt (holds : Bool) :
    (const (BinOp.truth holds).toInt).isBoolean := by
  cases holds <;> rfl

theorem isBoolean_reduceUnary_lnot (arg : Expr) : (reduceUnary .lnot arg).isBoolean := by
  cases arg with
  | const value => exact isBoolean_truth_toInt _
  | sym symbol => rfl
  | mem ptr size => rfl
  | port p size => rfl
  | unary op inner =>
      cases op with
      | lnot =>
          simp only [reduceUnary]
          split
          · assumption
          · rfl
      | _ => rfl
  | binary op lhs rhs => cases op <;> rfl

theorem isBoolean_reduceEquality {op : BinOp} (hop : op.isComparison) (lhs rhs : Expr) :
    (reduceEquality op lhs rhs).isBoolean := by
  unfold reduceEquality
  split
  · rename_i result hresult
    obtain ⟨hlhs, ⟨_, rfl⟩ | ⟨_, rfl⟩⟩ := reduceBooleanTest?_eq_some hresult
    · exact hlhs
    · exact isBoolean_reduceUnary_lnot lhs
  · split
    · rename_i rest hstrip
      split
      · rcases Option.or_eq_some_iff.mp hstrip with hleft | ⟨_, hright⟩
        · exact (stripInequality?_eq_some hleft).1
        · exact (stripInequality?_eq_some hright).1
      · exact isBoolean_reduceUnary_lnot rest
    · simp [isBoolean, hop]

theorem isBoolean_reduceComparison {op : BinOp} (hop : op.isComparison) (lhs rhs : Expr) :
    (reduceComparison op lhs rhs).isBoolean := by
  fun_induction reduceComparison op lhs rhs with
  | case1 => exact isBoolean_ofTruth _
  | case2 a b _ _ ih => exact ih
  | case3 => exact isBoolean_reduceEquality hop _ _
  | case4 a k value _ _ ih => exact ih
  | case5 => exact isBoolean_reduceEquality hop _ _
  | case6 => simp [isBoolean, hop]

theorem isBoolean_reduceLogical {op : BinOp} (hop : op.isLogical) (lhs rhs : Expr) :
    (reduceLogical op lhs rhs).isBoolean := by
  have hkept : (binary op lhs rhs).isBoolean := by simp [isBoolean, hop]
  unfold reduceLogical
  split
  · split
    · rfl
    · split
      · rfl
      · split
        · assumption
        · exact hkept
  · cases hmerged : mergeComparisons? op lhs rhs with
    | none => exact hkept
    | some merged =>
        obtain ⟨other, joined, a, b, hjoined, rfl, _⟩ := mergeComparisons?_eq_some hmerged
        rcases mergedOperator?_eq_some hjoined with
          ⟨rfl, rfl, rfl⟩ | ⟨rfl, rfl, rfl⟩ | ⟨rfl, rfl, rfl⟩ | ⟨rfl, rfl, rfl⟩ <;> rfl

theorem isBoolean_reduceOrdered {op : BinOp} (hop : op.isComparison || op.isLogical)
    (lhs rhs : Expr) : (reduceOrdered op lhs rhs).isBoolean := by
  cases op <;> simp only [BinOp.isComparison, BinOp.isLogical, Bool.or_self,
    Bool.false_eq_true] at hop
  case land => exact isBoolean_reduceLogical rfl lhs rhs
  case lor => exact isBoolean_reduceLogical rfl lhs rhs
  all_goals exact isBoolean_reduceComparison rfl lhs rhs

theorem isBoolean_fold {op : BinOp} (hop : op.isComparison || op.isLogical) {a b value : Int}
    (hvalue : op.fold? a b = some value) : (const value).isBoolean := by
  cases op <;> simp only [BinOp.isComparison, BinOp.isLogical, Bool.or_self,
    Bool.false_eq_true] at hop
  case land =>
    rw [← Option.some.inj hvalue]
    split <;> rfl
  case lor =>
    rw [← Option.some.inj hvalue]
    split <;> rfl
  all_goals
    rw [← Option.some.inj hvalue]
    exact isBoolean_truth_toInt _

theorem isBoolean_reduceBinary {op : BinOp} (hop : op.isComparison || op.isLogical)
    (lhs rhs : Expr) : (reduceBinary op lhs rhs).isBoolean := by
  have hswapped : op.swapped.isComparison || op.swapped.isLogical := by
    cases op <;> simp_all [BinOp.swapped, BinOp.isComparison, BinOp.isLogical]
  unfold reduceBinary
  split
  · split
    · rename_i hvalue
      exact isBoolean_fold hop hvalue
    · exact isBoolean_reduceOrdered hop _ _
  · split
    · exact isBoolean_reduceOrdered hop _ _
    · split
      · exact isBoolean_reduceOrdered hswapped _ _
      · exact isBoolean_reduceOrdered hop _ _
  · exact isBoolean_reduceOrdered hop _ _

/-- Reduction keeps the form from which a value is seen to be a bit. -/
theorem isBoolean_reduce {e : Expr} (he : e.isBoolean) : e.reduce.isBoolean := by
  cases e with
  | const value => exact he
  | sym symbol => exact he
  | mem ptr size => simp [isBoolean] at he
  | port p size => simp [isBoolean] at he
  | unary op arg =>
      cases op with
      | lnot => exact isBoolean_reduceUnary_lnot _
      | _ => simp [isBoolean] at he
  | binary op lhs rhs => exact isBoolean_reduceBinary he _ _

theorem comparable_reduce {lhs rhs : Expr} (h : comparable lhs rhs) :
    comparable lhs.reduce rhs.reduce := by
  simp only [comparable, Bool.or_eq_true, Bool.and_eq_true] at h ⊢
  rcases h with ⟨hlhs, hrhs⟩ | ⟨hlhs, hrhs⟩
  · exact Or.inl ⟨isBoolean_reduce hlhs, isBoolean_reduce hrhs⟩
  · exact Or.inr ⟨equalityFree_reduce hlhs, equalityFree_reduce hrhs⟩

theorem testable_reduce {e : Expr} (h : e.testable) : e.reduce.testable := by
  simp only [testable, Bool.or_eq_true] at h ⊢
  rcases h with hboolean | hfit
  · exact Or.inl (isBoolean_reduce hboolean)
  · exact Or.inr (constantsFit_reduce hfit)

/-! ## Reduction keeps regular expressions -/

/-- Operands that are not Boolean forms have no equality inside. -/
theorem equalityFree_of_comparable {lhs rhs : Expr} (h : comparable lhs rhs)
    (hlhs : lhs.isBoolean = false) : lhs.equalityFree ∧ rhs.equalityFree := by
  simpa [comparable, hlhs] using h

theorem comparable_of_equalityFree {lhs rhs : Expr} (hlhs : lhs.equalityFree)
    (hrhs : rhs.equalityFree) : comparable lhs rhs := by
  simp [comparable, hlhs, hrhs]

/-- Taking a difference apart leaves comparable operands. -/
theorem comparable_of_sub {a b rhs : Expr} (h : comparable (binary .sub a b) rhs) :
    comparable a b := by
  obtain ⟨hsub, _⟩ := equalityFree_of_comparable h rfl
  simp only [equalityFree, Bool.and_eq_true] at hsub
  exact comparable_of_equalityFree hsub.1.2 hsub.2

/-- Moving a constant summand across leaves comparable operands. -/
theorem comparable_of_add {a b rhs : Expr} (h : comparable (binary .add a b) rhs) (value : Int) :
    comparable a (const value) := by
  obtain ⟨hadd, _⟩ := equalityFree_of_comparable h rfl
  simp only [equalityFree, Bool.and_eq_true] at hadd
  exact comparable_of_equalityFree hadd.1.2 rfl

theorem stable_regular : Linear.Stable Regular where
  const _ := trivial
  neg := Iff.rfl
  add := by simp [Regular, BinOp.isEquality, BinOp.isLogical]
  sub := by simp [Regular, BinOp.isEquality, BinOp.isLogical]
  mul := by simp [Regular, BinOp.isEquality, BinOp.isLogical]

theorem regular_reduceUnary {op : UnOp} {arg : Expr} (harg : arg.Regular) :
    (reduceUnary op arg).Regular := by
  fun_cases reduceUnary op arg with
  | case1 value => trivial
  | case2 => exact Linear.toExpr_ofExpr_stable stable_regular harg
  | case3 inner => exact harg
  | case4 inner => exact harg
  | case5 inner => exact harg
  | case6 comparison lhs rhs inverse hinverse =>
      obtain ⟨hequality, _, hlhs, hrhs⟩ := harg
      refine ⟨fun hop => hequality ?_, fun hop => ?_, hlhs, hrhs⟩
      · cases comparison <;> simp_all [BinOp.negate?, BinOp.isEquality] <;> subst hinverse <;>
          simp at hop
      · cases comparison <;> simp_all [BinOp.negate?, BinOp.isLogical] <;> subst hinverse <;>
          simp at hop
  | case7 comparison lhs rhs => exact harg
  | case8 => exact harg

theorem regular_reduceMask {arg : Expr} {mask : Int} (harg : arg.Regular) :
    (arg.reduceMask mask).Regular := by
  fun_induction reduceMask arg mask with
  | case1 => trivial
  | case2 => exact harg
  | case3 mask _ _ inner other ih => exact ih harg.2.2.1
  | case4 => simpa [Regular, BinOp.isEquality, BinOp.isLogical] using harg

theorem regular_reduceEquality {op : BinOp} {lhs rhs : Expr} (hop : op.isEquality)
    (hcomparable : comparable lhs rhs) (hlhs : lhs.Regular) (hrhs : rhs.Regular) :
    (reduceEquality op lhs rhs).Regular := by
  unfold reduceEquality
  split
  · rename_i result hresult
    rcases (reduceBooleanTest?_eq_some hresult).2 with ⟨_, rfl⟩ | ⟨_, rfl⟩
    · exact hlhs
    · exact regular_reduceUnary hlhs
  · split
    · rename_i rest hstrip
      have hrest : rest.Regular := by
        rcases Option.or_eq_some_iff.mp hstrip with hleft | ⟨_, hright⟩
        · rcases (stripInequality?_eq_some hleft).2 with rfl | rfl
          · exact hrhs.2.2.2
          · exact hrhs.2.2.1
        · rcases (stripInequality?_eq_some hright).2 with rfl | rfl
          · exact hlhs.2.2.2
          · exact hlhs.2.2.1
      split
      · exact hrest
      · exact regular_reduceUnary hrest
    · refine ⟨fun _ => hcomparable, fun hlogical => ?_, hlhs, hrhs⟩
      cases op <;> simp [BinOp.isEquality, BinOp.isLogical] at hop hlogical

theorem regular_reduceComparison {op : BinOp} {lhs rhs : Expr} (hop : op.isComparison)
    (hcomparable : op.isEquality → comparable lhs rhs) (hlhs : lhs.Regular)
    (hrhs : rhs.Regular) : (reduceComparison op lhs rhs).Regular := by
  fun_induction reduceComparison op lhs rhs with
  | case1 => trivial
  | case2 hequality a b _ ih =>
      exact ih (fun _ => comparable_of_sub (hcomparable hequality)) hlhs.2.2.1 hlhs.2.2.2
  | case3 hequality => exact regular_reduceEquality hequality (hcomparable hequality) hlhs hrhs
  | case4 hequality a k value _ ih =>
      exact ih (fun _ => comparable_of_add (hcomparable hequality) _) hlhs.2.2.1 trivial
  | case5 hequality => exact regular_reduceEquality hequality (hcomparable hequality) hlhs hrhs
  | case6 =>
      refine ⟨hcomparable, fun hlogical => ?_, hlhs, hrhs⟩
      cases op <;> simp [BinOp.isComparison, BinOp.isLogical] at hop hlogical

theorem regular_reduceLogical {op : BinOp} {lhs rhs : Expr}
    (hkept : (binary op lhs rhs).Regular) : (reduceLogical op lhs rhs).Regular := by
  obtain ⟨_, _, hlhs, hrhs⟩ := id hkept
  unfold reduceLogical
  split
  · split
    · trivial
    · split
      · trivial
      · split
        · exact hlhs
        · exact hkept
  · cases hmerged : mergeComparisons? op lhs rhs with
    | none => exact hkept
    | some merged =>
        obtain ⟨other, joined, a, b, hjoined, rfl, hsides⟩ := mergeComparisons?_eq_some hmerged
        have hparts : a.Regular ∧ b.Regular := by
          rcases hsides with ⟨rfl, _⟩ | ⟨rfl, _⟩
          · exact hlhs.2.2
          · exact hlhs.2.2
        -- the merged operators are orderings, which ask nothing of their operands
        rcases mergedOperator?_eq_some hjoined with
          ⟨rfl, rfl, rfl⟩ | ⟨rfl, rfl, rfl⟩ | ⟨rfl, rfl, rfl⟩ | ⟨rfl, rfl, rfl⟩ <;>
          simpa [Regular, BinOp.isEquality, BinOp.isLogical] using hparts

theorem regular_reduceAnd {lhs rhs : Expr} (hkept : (binary .and lhs rhs).Regular) :
    (reduceAnd lhs rhs).Regular := by
  unfold reduceAnd
  split
  · exact regular_reduceMask hkept.2.2.1
  · split
    · exact hkept.2.2.1
    · exact hkept

/-- The last case of `reduceOrdered` is that of the comparisons. -/
theorem isComparison_of_ne {op : BinOp} (hadd : op ≠ .add) (hsub : op ≠ .sub) (hmul : op ≠ .mul)
    (hand : op ≠ .and) (hor : op ≠ .or) (hxor : op ≠ .xor) (hshl : op ≠ .shl) (hshr : op ≠ .shr)
    (hsar : op ≠ .sar) (hland : op ≠ .land) (hlor : op ≠ .lor) (hdiv : op ≠ .div)
    (hmod : op ≠ .mod) : op.isComparison := by
  cases op <;> simp_all [BinOp.isComparison]

theorem regular_reduceOrdered {op : BinOp} {lhs rhs : Expr}
    (hkept : (binary op lhs rhs).Regular) : (reduceOrdered op lhs rhs).Regular := by
  obtain ⟨hequality, _, hlhs, hrhs⟩ := id hkept
  unfold reduceOrdered
  split
  · exact Linear.toExpr_ofExpr_stable stable_regular hkept
  · exact Linear.toExpr_ofExpr_stable stable_regular hkept
  · split
    · exact Linear.toExpr_ofExpr_stable stable_regular hkept
    · exact hkept
  · exact regular_reduceAnd hkept
  · split
    · exact hlhs
    · split
      · exact hlhs
      · exact hkept
  · split
    · exact hlhs
    · split
      · trivial
      · exact hkept
  · split
    · exact hlhs
    · exact hkept
  · split
    · exact hlhs
    · exact hkept
  · split
    · exact hlhs
    · exact hkept
  · exact regular_reduceLogical hkept
  · exact regular_reduceLogical hkept
  · exact hkept
  · exact hkept
  · rename_i hadd hsub hmul hand hor hxor hshl hshr hsar hland hlor hdiv hmod
    have hop : op.isComparison :=
      isComparison_of_ne hadd hsub hmul hand hor hxor hshl hshr hsar hland hlor hdiv hmod
    exact regular_reduceComparison hop hequality hlhs hrhs

theorem comparable_comm {lhs rhs : Expr} (h : comparable lhs rhs) : comparable rhs lhs := by
  simpa only [comparable, Bool.and_comm] using h

/-- Turning a binary expression around keeps it regular. -/
theorem regular_turned {op turned : BinOp} {lhs rhs : Expr} (hkept : (binary op lhs rhs).Regular)
    (hequality : turned.isEquality = op.isEquality) (hlogical : turned.isLogical = op.isLogical) :
    (binary turned rhs lhs).Regular := by
  obtain ⟨hcomparable, htestable, hlhs, hrhs⟩ := hkept
  refine ⟨fun hop => comparable_comm (hcomparable (hequality ▸ hop)), fun hop => ?_, hrhs, hlhs⟩
  exact (htestable (hlogical ▸ hop)).symm

theorem regular_swapped {op : BinOp} {lhs rhs : Expr} (hkept : (binary op lhs rhs).Regular) :
    (binary op.swapped rhs lhs).Regular :=
  regular_turned hkept (by cases op <;> rfl) (by cases op <;> rfl)

theorem regular_reduceBinary {op : BinOp} {lhs rhs : Expr}
    (hkept : (binary op lhs rhs).Regular) : (reduceBinary op lhs rhs).Regular := by
  unfold reduceBinary
  split
  · split
    · trivial
    · exact regular_reduceOrdered hkept
  · split
    · exact regular_reduceOrdered (regular_turned hkept rfl rfl)
    · split
      · exact regular_reduceOrdered (regular_swapped hkept)
      · exact regular_reduceOrdered hkept
  · exact regular_reduceOrdered hkept

/-- What reduction needs of the operands of an operator is still there after they
have been reduced. -/
theorem regular_reduced_operands {op : BinOp} {lhs rhs : Expr}
    (hkept : (binary op lhs rhs).Regular) (hlhs : lhs.reduce.Regular)
    (hrhs : rhs.reduce.Regular) : (binary op lhs.reduce rhs.reduce).Regular :=
  ⟨fun hop => comparable_reduce (hkept.1 hop),
    fun hop => ⟨testable_reduce (hkept.2.1 hop).1, testable_reduce (hkept.2.1 hop).2⟩, hlhs, hrhs⟩

/-- Reduction keeps regular expressions regular. -/
theorem regular_reduce {e : Expr} (he : e.Regular) : e.reduce.Regular := by
  induction e with
  | const value => trivial
  | sym symbol => trivial
  | mem ptr size ih => exact ih he
  | port p size ih => exact ih he
  | unary op arg ih => exact regular_reduceUnary (ih he)
  | binary op lhs rhs ihl ihr =>
      exact regular_reduceBinary (regular_reduced_operands he (ihl he.2.2.1) (ihr he.2.2.2))

end Expr

end Uncompile
