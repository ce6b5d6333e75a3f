import Uncompile.Proofs.Expr.Normal
import Uncompile.Proofs.Expr.Reduction

/-!
# Stripped inequalities

An equality of `x` with an inequality of `x` and a Boolean `y` is reduced to `y` or its
negation. This is the law of exclusive or on bits. The reduction checks that `y` is
Boolean and does not check `x`, and this file says what becomes of the value then.
-/

namespace Uncompile

theorem BinOp.isCommutative_of_isEquality {op : BinOp} (hop : op.isEquality) :
    op.isCommutative := by
  cases op <;> first | rfl | cases hop

namespace Expr

variable {v : Valuation}

/-! ## The law of exclusive or -/

theorem truth_ne_of_not_bit {x y : Word} (hx : ¬(x = 0 ∨ x = 1)) (hy : y = 0 ∨ y = 1) :
    BinOp.truth (x != y) = 1 := by
  have hne : x ≠ y := by
    rintro rfl
    exact hx hy
  rw [bne_iff_ne.mpr hne]
  rfl

/-- The inequality of `x` with its inequality to a bit is that bit exactly if `x` is a bit
or the bit is one. -/
theorem ne_ne_eq_iff {x y : Word} (hy : y = 0 ∨ y = 1) :
    BinOp.truth (x != BinOp.truth (x != y)) = y ↔ (x = 0 ∨ x = 1) ∨ y = 1 := by
  by_cases hx : x = 0 ∨ x = 1
  · exact iff_of_true (bit_ne_ne hx hy) (Or.inl hx)
  · rw [truth_ne_of_not_bit hx hy, truth_ne_of_not_bit hx (Or.inr rfl), or_iff_right hx]
    exact eq_comm

/-- Two inequalities with the same operand around a third cancel, bit or not. -/
theorem ne_ne_ne {x y : Word} (hy : y = 0 ∨ y = 1) :
    BinOp.truth (x != BinOp.truth (x != BinOp.truth (x != y))) = BinOp.truth (x != y) := by
  by_cases hx : x = 0 ∨ x = 1
  · rw [bit_ne_ne hx hy]
  · rw [truth_ne_of_not_bit hx hy, truth_ne_of_not_bit hx (Or.inr rfl),
      truth_ne_of_not_bit hx (Or.inr rfl)]

/-! ## Equalities of a Boolean and another form -/

/-- An equality in either order. -/
def equality (op : BinOp) (turned : Bool) (x b : Expr) : Expr :=
  if turned then binary op b x else binary op x b

/-- The reduction of an equality in either order. -/
def reduceEither (op : BinOp) (turned : Bool) (x b : Expr) : Expr :=
  if turned then reduceBinary op b x else reduceBinary op x b

theorem reduce_equality (op : BinOp) (turned : Bool) (x b : Expr) :
    (equality op turned x b).reduce = reduceEither op turned x.reduce b.reduce := by
  cases turned <;> rfl

theorem eval_equality_turned {op : BinOp} (hop : op.isEquality) (turned : Bool) (x b : Expr) :
    (equality op turned x b).eval v = (binary op x b).eval v := by
  cases turned with
  | false => rfl
  | true =>
      exact BinOp.value_comm (BinOp.isCommutative_of_isEquality hop) _ _

theorem reduceOrdered_of_isEquality {op : BinOp} (hop : op.isEquality) (lhs rhs : Expr) :
    reduceOrdered op lhs rhs = reduceComparison op lhs rhs := by
  cases op <;> first | rfl | cases hop

theorem reduceBinary_const_left {op : BinOp} (hop : op.isEquality) (value : Int) {rhs : Expr}
    (hrhs : rhs.isConst = false) :
    reduceBinary op (const value) rhs = reduceComparison op rhs (const value) := by
  rw [← reduceOrdered_of_isEquality hop]
  cases rhs with
  | const other => cases hrhs
  | _ => exact if_pos (BinOp.isCommutative_of_isEquality hop)

/-- Nothing is moved across an equality that has a Boolean on its left or no constant on
its right. -/
theorem reduceComparison_eq_reduceEquality {op : BinOp} (hop : op.isEquality) {lhs rhs : Expr}
    (hne : lhs ≠ rhs) (hfixed : lhs.isBoolean ∨ rhs.isConst = false) :
    reduceComparison op lhs rhs = reduceEquality op lhs rhs := by
  unfold reduceComparison
  rw [if_neg hne, if_pos hop]
  split
  · rcases hfixed with h | h <;> cases h
  · rcases hfixed with h | h <;> cases h
  · rfl

theorem stripInequality?_of_not_isBoolean {x : Expr} (hx : x.isBoolean = false) (outer : Expr) :
    stripInequality? outer x = none := by
  cases hrest : stripInequality? outer x with
  | none => rfl
  | some rest => rcases (stripInequality?_eq_some hrest).2 with rfl | rfl <;> cases hx

/-- What is left of an equality whose inequality is stripped. -/
def stripped (op : BinOp) (rest : Expr) : Expr := if op = .ne then rest else reduceUnary .lnot rest

section

variable {op : BinOp} {x b : Expr}

theorem reduceEquality_left (hx : x.isBoolean = false) :
    reduceEquality op x b = ((stripInequality? x b).map (stripped op)).getD (binary op x b) := by
  have htest : reduceBooleanTest? op x b = none := by simp [reduceBooleanTest?, hx]
  simp only [reduceEquality, htest, stripInequality?_of_not_isBoolean hx, Option.or_none]
  cases stripInequality? x b <;> rfl

theorem reduceEquality_right (hx : x.isBoolean = false) :
    reduceEquality op b x = ((stripInequality? x b).map (stripped op)).getD (binary op b x) := by
  have htest : reduceBooleanTest? op b x = none := by
    cases hresult : reduceBooleanTest? op b x with
    | none => rfl
    | some result =>
        rcases (reduceBooleanTest?_eq_some hresult).2 with ⟨h, -⟩ | ⟨h, -⟩ <;>
          rcases h with ⟨-, rfl⟩ | ⟨-, rfl⟩ <;> cases hx
  simp only [reduceEquality, htest, stripInequality?_of_not_isBoolean hx, Option.none_or]
  cases stripInequality? x b <;> rfl

/-- An equality of a Boolean that is no constant and another form is stripped or stands. -/
theorem reduceEither_eq (hop : op.isEquality) (turned : Bool) (hx : x.isBoolean = false)
    (hb : b.isBoolean) (hconst : b.isConst = false) :
    ∃ stand, (stand = binary op x b ∨ stand = binary op b x) ∧
      reduceEither op turned x b = ((stripInequality? x b).map (stripped op)).getD stand := by
  have hne : b ≠ x := by
    rintro rfl
    rw [hb] at hx
    cases hx
  have hright : reduceComparison op b x =
      ((stripInequality? x b).map (stripped op)).getD (binary op b x) := by
    rw [reduceComparison_eq_reduceEquality hop hne (Or.inl hb), reduceEquality_right hx]
  cases turned with
  | true =>
      refine ⟨_, Or.inr rfl, ?_⟩
      rw [← hright, ← reduceOrdered_of_isEquality hop]
      exact reduceBinary_of_left hconst op x
  | false =>
      cases hkind : x.isConst with
      | true =>
          refine ⟨_, Or.inr rfl, ?_⟩
          cases x with
          | const value => exact (reduceBinary_const_left hop value hconst).trans hright
          | _ => cases hkind
      | false =>
          refine ⟨_, Or.inl rfl, ?_⟩
          rw [← reduceEquality_left hx,
            ← reduceComparison_eq_reduceEquality hop hne.symm (Or.inr hconst),
            ← reduceOrdered_of_isEquality hop]
          exact reduceBinary_of_left hkind op b

/-! ## Values of reduced equalities -/

theorem eval_reduceBinary_of_comparable (hv : v.FlagBits) (hop : op.isEquality) {lhs rhs : Expr}
    (hcomparable : comparable lhs rhs) :
    (reduceBinary op lhs rhs).eval v = (binary op lhs rhs).eval v := by
  have hcomparison : op.isComparison := by cases op <;> first | rfl | cases hop
  have hlogical : op.isLogical = false := by cases op <;> first | rfl | cases hop
  have hordered : ∀ {a b : Expr}, comparable a b →
      (reduceOrdered op a b).eval v = (binary op a b).eval v := by
    intro a b h
    rw [reduceOrdered_of_isEquality hop]
    exact eval_reduceComparison hv hcomparison fun _ => h
  unfold reduceBinary
  split
  · split
    · rename_i hvalue
      exact toWord_fold hvalue (by simp [hlogical]) v.byZero
    · exact hordered hcomparable
  · rw [if_pos (BinOp.isCommutative_of_isEquality hop), hordered (comparable_comm hcomparable)]
    exact BinOp.value_comm (BinOp.isCommutative_of_isEquality hop) _ _
  · exact hordered hcomparable

theorem eval_reduceEither_of_comparable (hv : v.FlagBits) (hop : op.isEquality) (turned : Bool)
    (hcomparable : comparable x b) :
    (reduceEither op turned x b).eval v = (binary op x b).eval v := by
  cases turned with
  | false => exact eval_reduceBinary_of_comparable hv hop hcomparable
  | true =>
      refine (eval_reduceBinary_of_comparable hv hop (comparable_comm hcomparable)).trans ?_
      exact BinOp.value_comm (BinOp.isCommutative_of_isEquality hop) _ _

/-- An equality that stands keeps its value. -/
theorem eval_reduceEither_of_strip_none (hop : op.isEquality) (turned : Bool)
    (hx : x.isBoolean = false) (hb : b.isBoolean) (hconst : b.isConst = false)
    (hnone : stripInequality? x b = none) :
    (reduceEither op turned x b).eval v = (binary op x b).eval v := by
  obtain ⟨stand, hstand, hreduce⟩ := reduceEither_eq hop turned hx hb hconst
  rw [hreduce, hnone]
  rcases hstand with rfl | rfl
  · rfl
  · exact BinOp.value_comm (BinOp.isCommutative_of_isEquality hop) _ _

/-- A stripped equality keeps its value exactly if the rest is the inequality. -/
theorem eval_stripped_eq_iff (hv : v.FlagBits) (hop : op.isEquality) {rest : Expr}
    (hrest : rest.isBoolean) :
    (stripped op rest).eval v = (binary op x b).eval v ↔
      rest.eval v = BinOp.truth (x.eval v != b.eval v) := by
  rw [eval_equality hop, stripped]
  split
  · exact Iff.rfl
  · rw [eval_reduceUnary hv]
    have hlnot : ∀ holds : Bool, ∀ word : Word, word = 0 ∨ word = 1 →
        (UnOp.lnot.apply word = UnOp.lnot.apply (BinOp.truth holds) ↔
          word = BinOp.truth holds) := by
      rintro holds word (rfl | rfl) <;> cases holds <;> decide
    exact hlnot _ _ (eval_bit hv hrest)

/-! ## Equalities without an inner one -/

theorem reduceEquality_eq_ne {lhs rhs p q : Expr} (hlhs : lhs.equalityFree)
    (hrhs : rhs.equalityFree) (h : reduceEquality op lhs rhs = binary .ne p q) :
    p = lhs ∧ q = rhs := by
  unfold reduceEquality at h
  split at h
  · rename_i result hresult
    have hfree : result.equalityFree := by
      rcases (reduceBooleanTest?_eq_some hresult).2 with ⟨-, rfl⟩ | ⟨-, rfl⟩
      · exact hlhs
      · exact within_equalityFree_iff.mp (within_reduceUnary (within_equalityFree_iff.mpr hlhs))
    rw [h] at hfree
    cases hfree
  · split at h
    · rename_i rest hstrip
      rcases Option.or_eq_some_iff.mp hstrip with hleft | ⟨-, hright⟩
      · rcases (stripInequality?_eq_some hleft).2 with rfl | rfl <;> cases hrhs
      · rcases (stripInequality?_eq_some hright).2 with rfl | rfl <;> cases hlhs
    · injection h with _ hp hq
      exact ⟨hp.symm, hq.symm⟩

/-- An inequality that a comparison is reduced to has the operands of the comparison, or
smaller ones that were taken out of the left operand. -/
theorem reduceComparison_eq_ne {lhs rhs p q : Expr} (hop : op.isEquality)
    (hlhs : lhs.equalityFree) (hrhs : rhs.equalityFree)
    (h : reduceComparison op lhs rhs = binary .ne p q) :
    (p = lhs ∧ q = rhs) ∨ sizeOf p < sizeOf lhs ∧ (sizeOf q < sizeOf lhs ∨ q.isConst) := by
  fun_induction reduceComparison op lhs rhs with
  | case1 e => cases h
  | case2 hequality a b _ ih =>
      simp only [equalityFree, Bool.and_eq_true] at hlhs
      have hsize : sizeOf a < sizeOf (binary .sub a b) ∧ sizeOf b < sizeOf (binary .sub a b) := by
        simp
        omega
      rcases ih hlhs.1.2 hlhs.2 h with ⟨rfl, rfl⟩ | ⟨hp, hq⟩
      · exact Or.inr ⟨hsize.1, Or.inl hsize.2⟩
      · exact Or.inr ⟨hp.trans hsize.1, hq.imp_left fun hlt => hlt.trans hsize.1⟩
  | case3 hequality => exact Or.inl (reduceEquality_eq_ne hlhs hrhs h)
  | case4 hequality a k value _ ih =>
      simp only [equalityFree, Bool.and_eq_true] at hlhs
      have hsize : sizeOf a < sizeOf (binary .add a (const k)) := by
        simp
        omega
      rcases ih hlhs.1.2 rfl h with ⟨rfl, rfl⟩ | ⟨hp, hq⟩
      · exact Or.inr ⟨hsize, Or.inr rfl⟩
      · exact Or.inr ⟨hp.trans hsize, hq.imp_left fun hlt => hlt.trans hsize⟩
  | case5 hequality => exact Or.inl (reduceEquality_eq_ne hlhs hrhs h)
  | case6 => contradiction

/-- A reduced inequality of `x` and a constant strips from `x` only if it stands. -/
theorem strip_reduceEither_const (hfree : x.equalityFree) (turned : Bool) (value : Int)
    (hmoved : reduceEither .ne turned x (const value) ≠ binary .ne x (const value))
    (hconst : (reduceEither .ne turned x (const value)).isConst = false) :
    stripInequality? x (reduceEither .ne turned x (const value)) = none := by
  have hop : BinOp.ne.isEquality := rfl
  cases hkind : x.isConst with
  | true =>
      -- two constants are folded
      cases x with
      | const other => cases turned <;> cases hconst
      | _ => cases hkind
  | false =>
      have hreduce : reduceEither .ne turned x (const value) =
          reduceComparison .ne x (const value) := by
        cases turned with
        | false => exact reduceBinary_of_left hkind .ne (const value)
        | true => exact reduceBinary_const_left hop value hkind
      rw [hreduce] at hmoved ⊢
      cases hrest : stripInequality? x (reduceComparison .ne x (const value)) with
      | none => rfl
      | some rest =>
          exfalso
          rcases (stripInequality?_eq_some hrest).2 with h | h
          · rcases reduceComparison_eq_ne hop hfree rfl h with ⟨-, rfl⟩ | ⟨hlt, -⟩
            · exact hmoved h
            · exact lt_irrefl _ hlt
          · rcases reduceComparison_eq_ne hop hfree rfl h with ⟨-, rfl⟩ | ⟨-, hlt | hx'⟩
            · cases hkind
            · exact lt_irrefl _ hlt
            · rw [hx'] at hkind
              cases hkind

/-! ## Nested inequalities -/

/-- The inequality of reduced operands is not changed by its reduction. -/
def Stands (turned : Bool) (x y : Expr) : Prop :=
  reduceEither .ne turned x y = binary .ne x y ∨ reduceEither .ne turned x y = binary .ne y x

theorem isBoolean_reduceEither (hop : op.isEquality) (turned : Bool) :
    (reduceEither op turned x b).isBoolean := by
  have hcomparison : op.isComparison || op.isLogical := by cases op <;> first | rfl | cases hop
  cases turned <;> exact isBoolean_reduceBinary hcomparison _ _

/-- An inequality that stands is stripped, and its other operand is left. -/
theorem reduceEither_of_stands (hop : op.isEquality) (turned : Bool) {y : Expr}
    (hx : x.isBoolean = false) (hy : y.isBoolean) (hstands : Stands turned x y) :
    reduceEither op false x (reduceEither .ne turned x y) = stripped op y := by
  have hne : y ≠ x := by
    rintro rfl
    rw [hy] at hx
    cases hx
  have hstrip : stripInequality? x (reduceEither .ne turned x y) = some y := by
    rcases hstands with h | h <;> rw [h] <;> simp [stripInequality?, hy, hne]
  have hconst : (reduceEither .ne turned x y).isConst = false := by
    rcases hstands with h | h <;> rw [h] <;> rfl
  obtain ⟨stand, -, hreduce⟩ :=
    reduceEither_eq hop false hx (isBoolean_reduceEither rfl turned) hconst
  rw [hreduce, hstrip]
  rfl

theorem comparable_of_isBoolean (hx : x.isBoolean) (hb : b.isBoolean) : comparable x b := by
  simp [comparable, hx, hb]

theorem eval_nested_of_isBoolean (hv : v.FlagBits) (hop : op.isEquality) (turned : Bool) {y : Expr}
    (hx : x.isBoolean) (hy : y.isBoolean) :
    (reduceEither op false x (reduceEither .ne turned x y)).eval v =
      (binary op x (binary .ne x y)).eval v := by
  have hne : BinOp.ne.isEquality := rfl
  have hinner := eval_reduceEither_of_comparable hv hne turned (comparable_of_isBoolean hx hy)
  have houter := eval_reduceEither_of_comparable hv hop false
    (comparable_of_isBoolean hx (isBoolean_reduceEither hne turned (x := x) (b := y)))
  rw [houter, eval, hinner]
  rfl

theorem eval_nested_of_stands (hv : v.FlagBits) (hop : op.isEquality) (turned : Bool) {y : Expr}
    (hx : x.isBoolean = false) (hy : y.isBoolean) (hstands : Stands turned x y) :
    (reduceEither op false x (reduceEither .ne turned x y)).eval v =
        (binary op x (binary .ne x y)).eval v ↔
      (x.eval v = 0 ∨ x.eval v = 1) ∨ y.eval v = 1 := by
  rw [reduceEither_of_stands hop turned hx hy hstands, eval_stripped_eq_iff hv hop hy, eq_comm]
  exact ne_ne_eq_iff (eval_bit hv hy)

/-- An equality of `x` with a Boolean keeps its value unless the Boolean strips. -/
theorem eval_reduceEither_of_equalityFree (hv : v.FlagBits) (hop : op.isEquality) (turned : Bool)
    (hx : x.isBoolean = false) (hfree : x.equalityFree) (hb : b.isBoolean)
    (hnone : b.isConst = false → stripInequality? x b = none) :
    (reduceEither op turned x b).eval v = (binary op x b).eval v := by
  cases hconst : b.isConst with
  | true =>
      cases b with
      | const value =>
          exact eval_reduceEither_of_comparable hv hop turned (comparable_of_equalityFree hfree rfl)
      | _ => cases hconst
  | false => exact eval_reduceEither_of_strip_none hop turned hx hb hconst (hnone hconst)

/-- A reduced Boolean that is an inequality of `x` is stripped once and not twice. -/
theorem strip_of_normal {y rest : Expr} (hy : y.Normal) (hrest : stripInequality? x y = some rest) :
    stripInequality? x rest = none := by
  have hkept : ∀ {a b : Expr}, (binary .ne a b).Normal → KeptEquality a b := fun h => h.2.2.2.2 rfl
  rcases (stripInequality?_eq_some hrest).2 with rfl | rfl
  · exact (hkept hy).right
  · exact (hkept hy).left

theorem eval_nested_of_not_stands (hv : v.FlagBits) (hop : op.isEquality) (turned : Bool)
    {y : Expr} (hx : x.isBoolean = false) (hfree : x.equalityFree) (hy : y.isBoolean)
    (hnormal : y.Normal) (hstands : ¬Stands turned x y) :
    (reduceEither op false x (reduceEither .ne turned x y)).eval v =
      (binary op x (binary .ne x y)).eval v := by
  have hne : BinOp.ne.isEquality := rfl
  cases hconst : y.isConst with
  | true =>
      cases y with
      | const value =>
          have hinner := eval_reduceEither_of_comparable hv hne turned
            (comparable_of_equalityFree hfree (rfl : (const value).equalityFree = true))
          have houter := eval_reduceEither_of_equalityFree hv hop false hx hfree
            (isBoolean_reduceEither hne turned) (strip_reduceEither_const hfree turned value
              fun h => hstands (Or.inl h))
          rw [houter, eval, hinner]
          rfl
      | _ => cases hconst
  | false =>
      obtain ⟨stand, hstand, hreduce⟩ := reduceEither_eq hne turned hx hy hconst
      cases hrest : stripInequality? x y with
      | none =>
          rw [hrest] at hreduce
          exact absurd (hstand.imp hreduce.trans hreduce.trans) hstands
      | some rest =>
          -- the inner reduction is wrong for a word that is no bit, and the outer one undoes it
          obtain ⟨hboolean, hform⟩ := stripInequality?_eq_some hrest
          have hinner : reduceEither .ne turned x y = rest := by rw [hreduce, hrest]; rfl
          have houter := eval_reduceEither_of_equalityFree hv hop false hx hfree hboolean
            fun _ => strip_of_normal hnormal hrest
          have hy' : y.eval v = BinOp.truth (x.eval v != rest.eval v) := by
            rcases hform with rfl | rfl
            · rfl
            · exact BinOp.value_comm rfl _ _
          have hcancel : BinOp.truth (x.eval v != (binary .ne x y).eval v) =
              BinOp.truth (x.eval v != rest.eval v) := by
            rw [← ne_ne_ne (eval_bit hv hboolean), ← hy']
            rfl
          rw [hinner, houter, eval_equality hop, eval_equality hop, hcancel]

/-- Stripping an inequality of `x` and a Boolean `y` out of an equality with `x`, in all its
orders. It keeps the value if `x` is Boolean, or if `x` has no equality inside and the
inequality is changed by its own reduction. If the inequality stands it keeps the value
exactly where `x` is a bit or `y` is one. -/
theorem eval_reduce_nested_iff (hv : v.FlagBits) (hop : op.isEquality) (turned : Bool) {y : Expr}
    (hx : x.reduce = x) (hy : y.isBoolean) (hvalue : y.reduce.eval v = y.eval v) :
    let nested := binary op x (equality .ne turned x y)
    (x.isBoolean ∨ x.equalityFree ∧ ¬Stands turned x y.reduce →
      nested.reduce.eval v = nested.eval v) ∧
    (Stands turned x y.reduce →
      (nested.reduce.eval v = nested.eval v ↔ (x.eval v = 0 ∨ x.eval v = 1) ∨ y.eval v = 1)) := by
  intro nested
  have hne : BinOp.ne.isEquality := rfl
  have hy' := isBoolean_reduce hy
  have hreduce : nested.reduce = reduceEither op false x (reduceEither .ne turned x y.reduce) := by
    change reduceBinary op x.reduce (equality .ne turned x y).reduce = _
    rw [reduce_equality, hx]
    rfl
  have heval : nested.eval v = (binary op x (binary .ne x y.reduce)).eval v := by
    simp only [nested, eval, eval_equality_turned hne, hvalue]
  cases hx' : x.isBoolean with
  | true =>
      have hkept := eval_nested_of_isBoolean hv hop turned hx' hy'
      rw [hreduce, heval]
      exact ⟨fun _ => hkept, fun _ => iff_of_true hkept (Or.inl (eval_bit hv hx'))⟩
  | false =>
      rw [hreduce, heval, ← hvalue]
      refine ⟨?_, eval_nested_of_stands hv hop turned hx' hy'⟩
      rintro (h | ⟨hfree, hstands⟩)
      · cases h
      · exact eval_nested_of_not_stands hv hop turned hx' hfree hy' (normal_reduce y) hstands

end

/-! ### A register that is no bit -/

namespace RegisterTwo

/-- The register is two and every flag is clear. -/
def valuation : Valuation where
  symbol symbol := if symbol = .reg .eax then 2 else 0
  mem _ _ := 0
  port _ _ := 0
  byZero _ word := word

/-- The inequality `eax != (eax != z)`. -/
def nested : Expr := binary .ne (.reg .eax) (equality .ne false (.reg .eax) (.flag .z))

/-- Two differs from every bit, and the reduced inequality is the flag. -/
theorem value_lost : nested.eval valuation = 1 ∧ nested.reduce.eval valuation = 0 := by
  decide

theorem flagBits_valuation : valuation.FlagBits := fun _ => Or.inl rfl

/-- The inequality stands, and its value is lost because the register is no bit and the
flag is clear. -/
theorem eval_reduce_nested_flag :
    Stands false (.reg .eax) (.flag .z) ∧
      nested.reduce.eval valuation ≠ nested.eval valuation := by
  have hop : BinOp.ne.isEquality := rfl
  have hreduced : (reg .eax).reduce = reg .eax := rfl
  have hflag : (flag .z).isBoolean := rfl
  have hstands : Stands false (reg .eax) (flag .z) := Or.inl (by decide)
  have hiff := (eval_reduce_nested_iff flagBits_valuation hop false hreduced hflag rfl).2 hstands
  exact ⟨hstands, mt hiff.mp (by decide)⟩

end RegisterTwo

end Expr

end Uncompile
