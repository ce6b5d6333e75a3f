import Uncompile.Proofs.Expr.Canonical

/-!
# Reduced expressions are normal

An expression is normal if no rule of reduction applies to any part of it. Each
rule, applied to normal operands, gives a normal expression: what it returns is
one of the operands, a part of one, a constant, or a node that no other rule
applies to. So reduction reaches a normal expression in one pass from the leaves
up, and a second pass finds nothing to do.
-/

namespace Uncompile

/-! ## Normal expressions -/

theorem BinOp.negate?_eq_none_iff {op : BinOp} :
    op.negate? = none ↔ op.isComparison = false := by
  cases op <;> decide

namespace Expr

/-- No rule applies to a unary operator on the operand. -/
def KeptUnary (op : UnOp) (arg : Expr) : Prop :=
  match op with
  | .neg => Linear.IsSum (unary .neg arg)
  | .not => arg.isConst = false ∧ ∀ inner, arg ≠ unary .not inner
  | .lnot =>
    arg.isConst = false ∧ (∀ op lhs rhs, arg = binary op lhs rhs → op.isComparison = false) ∧
      ∀ inner, arg = unary .lnot inner → inner.isBoolean = false

/-- A mask that keeps some bits and not all, on an operand without a mask. -/
structure KeptMask (arg : Expr) (mask : Int) : Prop where
  some : mask ≠ 0
  notAll : maskAnd mask mask32 ≠ mask32
  single : ∀ inner other, arg ≠ binary .and inner (const other)

/-- Nothing can be moved from one side of an equality to the other, it tests no
bit, and neither side is an inequality of the other. -/
structure KeptEquality (lhs rhs : Expr) : Prop where
  difference : ∀ a b, lhs = binary .sub a b → rhs ≠ const 0
  sum : ∀ a k, lhs = binary .add a (const k) → rhs.isConst = false
  bit : lhs.isBoolean → rhs ≠ const 0 ∧ rhs ≠ const 1
  right : stripInequality? lhs rhs = none
  left : stripInequality? rhs lhs = none

/-- No rule applies to a binary operator on the operands. -/
def Kept (op : BinOp) (lhs rhs : Expr) : Prop :=
  match op with
  | .add | .sub => Linear.IsSum (binary op lhs rhs)
  | .mul => if rhs.isConst then Linear.IsSum (binary op lhs rhs) else lhs.isConst = false
  | .and => lhs.isConst = false ∧ lhs ≠ rhs ∧ ∀ mask, rhs = const mask → KeptMask lhs mask
  | .or | .xor => lhs.isConst = false ∧ lhs ≠ rhs ∧ rhs ≠ const 0
  | .shl | .shr | .sar => (lhs.isConst → rhs.isConst = false) ∧ rhs ≠ const 0
  | .land | .lor =>
    lhs.isConst = false ∧ mergeComparisons? op lhs rhs = none ∧
      ∀ value, rhs = const value → lhs.isBoolean = false ∧ (value = 0 ↔ op = .lor)
  | .div | .mod => ∀ a b, lhs = const a → rhs = const b → toWord b = 0
  | _ => lhs.isConst = false ∧ lhs ≠ rhs ∧ (op.isEquality → KeptEquality lhs rhs)

/-- No rule applies to any part of the expression. -/
def Normal : Expr → Prop
  | const _ => True
  | sym _ => True
  | mem ptr _ => ptr.Normal
  | port p _ => p.Normal
  | unary op arg => arg.Normal ∧ KeptUnary op arg
  | binary op lhs rhs => lhs.Normal ∧ rhs.Normal ∧ Kept op lhs rhs

theorem kept_comparison {op : BinOp} (hop : op.isComparison) (lhs rhs : Expr) :
    Kept op lhs rhs ↔
      lhs.isConst = false ∧ lhs ≠ rhs ∧ (op.isEquality → KeptEquality lhs rhs) := by
  cases op <;> first | exact Iff.rfl | cases hop

/-! ## Normal expressions stay as they are -/

theorem reduceUnary_of_kept {op : UnOp} {arg : Expr} (h : KeptUnary op arg) :
    reduceUnary op arg = unary op arg := by
  cases op with
  | neg =>
      have hread := Linear.IsSum.toExpr_ofExpr h
      cases arg with
      | const value =>
          simp [Linear.ofExpr, Linear.collect, Linear.toExpr, Linear.joinTerms] at hread
      | _ => exact hread
  | not =>
      obtain ⟨hconst, hnot⟩ := h
      cases arg with
      | const value => cases hconst
      | unary op inner =>
          cases op with
          | not => exact absurd rfl (hnot inner)
          | _ => rfl
      | _ => rfl
  | lnot =>
      obtain ⟨hconst, hcomparison, hboolean⟩ := h
      cases arg with
      | const value => cases hconst
      | unary op inner =>
          cases op with
          | lnot => rw [reduceUnary, hboolean inner rfl, if_neg Bool.false_ne_true]
          | _ => rfl
      | binary op lhs rhs =>
          rw [reduceUnary, BinOp.negate?_eq_none_iff.mpr (hcomparison op lhs rhs rfl)]
      | _ => rfl

theorem reduceBinary_of_left {lhs : Expr} (hlhs : lhs.isConst = false) (op : BinOp) (rhs : Expr) :
    reduceBinary op lhs rhs = reduceOrdered op lhs rhs := by
  cases lhs with
  | const value => cases hlhs
  | _ => rfl

/-- An operator that cannot be turned around stays in front of its operand. -/
theorem reduceBinary_of_right {op : BinOp} (hcommutative : op.isCommutative = false)
    (hcomparison : op.isComparison = false) {rhs : Expr} (hrhs : rhs.isConst = false)
    (lhs : Expr) : reduceBinary op lhs rhs = reduceOrdered op lhs rhs := by
  cases lhs with
  | const value =>
      cases rhs with
      | const other => cases hrhs
      | _ => simp [reduceBinary, hcommutative, hcomparison]
  | _ => rfl

theorem reduceMask_of_kept {arg : Expr} {mask : Int} (h : KeptMask arg mask) :
    arg.reduceMask mask = binary .and arg (const mask) := by
  unfold reduceMask
  rw [if_neg h.some, if_neg h.notAll]
  split
  · exact absurd rfl (h.single _ _)
  · rfl

theorem reduceComparison_of_kept {op : BinOp} {lhs rhs : Expr} (hne : lhs ≠ rhs)
    (h : op.isEquality → KeptEquality lhs rhs) :
    reduceComparison op lhs rhs = binary op lhs rhs := by
  unfold reduceComparison
  rw [if_neg hne]
  split
  · rename_i hequality
    have hkept := h hequality
    have hequal : reduceEquality op lhs rhs = binary op lhs rhs := by
      have htest : reduceBooleanTest? op lhs rhs = none := by
        unfold reduceBooleanTest?
        split
        · rename_i hboolean
          simp [hkept.bit hboolean]
        · rfl
      simp [reduceEquality, htest, hkept.left, hkept.right]
    split
    · rw [if_neg fun hzero => hkept.difference _ _ rfl (by rw [hzero])]
      exact hequal
    · exact absurd (hkept.sum _ _ rfl) (by simp [isConst])
    · exact hequal
  · rfl

theorem reduceLogical_of_kept {op : BinOp} (hop : op = .land ∨ op = .lor) {lhs rhs : Expr}
    (hmerge : mergeComparisons? op lhs rhs = none)
    (hvalue : ∀ value, rhs = const value → lhs.isBoolean = false ∧ (value = 0 ↔ op = .lor)) :
    reduceLogical op lhs rhs = binary op lhs rhs := by
  unfold reduceLogical
  split
  · rename_i value
    obtain ⟨hboolean, hzero⟩ := hvalue value rfl
    rcases hop with rfl | rfl <;> simp_all
  · rw [hmerge]
    rfl

theorem reduceBinary_of_kept {op : BinOp} {lhs rhs : Expr} (h : Kept op lhs rhs) :
    reduceBinary op lhs rhs = binary op lhs rhs := by
  cases op with
  | add | sub =>
      rw [reduceBinary_of_left (Linear.IsSum.isConst_left h (by simp))]
      exact Linear.IsSum.toExpr_ofExpr h
  | mul =>
      simp only [Kept] at h
      split at h
      · rename_i hconst
        rw [reduceBinary_of_left (Linear.IsSum.isConst_left h (by simp)), reduceOrdered,
          if_pos hconst]
        exact Linear.IsSum.toExpr_ofExpr h
      · rename_i hconst
        rw [reduceBinary_of_left h, reduceOrdered, if_neg hconst]
  | and =>
      obtain ⟨hlhs, hne, hmask⟩ := h
      rw [reduceBinary_of_left hlhs, reduceOrdered]
      unfold reduceAnd
      split
      · exact reduceMask_of_kept (hmask _ rfl)
      · rw [if_neg hne]
  | or | xor =>
      obtain ⟨hlhs, hne, hzero⟩ := h
      rw [reduceBinary_of_left hlhs, reduceOrdered, if_neg hzero, if_neg hne]
  | shl | shr | sar =>
      obtain ⟨hconst, hzero⟩ := h
      cases hlhs : lhs.isConst with
      | false => rw [reduceBinary_of_left hlhs, reduceOrdered, if_neg hzero]
      | true => rw [reduceBinary_of_right rfl rfl (hconst hlhs), reduceOrdered, if_neg hzero]
  | land | lor =>
      obtain ⟨hlhs, hmerge, hvalue⟩ := h
      rw [reduceBinary_of_left hlhs]
      exact reduceLogical_of_kept (by simp) hmerge hvalue
  | div | mod =>
      cases lhs with
      | const a =>
          cases rhs with
          | const b =>
              simp [reduceBinary, BinOp.fold?, BinOp.compute?, h a b rfl rfl, reduceOrdered]
          | _ => rfl
      | _ => rfl
  | _ =>
      obtain ⟨hlhs, hne, hequality⟩ := h
      rw [reduceBinary_of_left hlhs]
      exact reduceComparison_of_kept hne hequality

/-- Reduction leaves a normal expression as it is. -/
theorem reduce_of_normal {e : Expr} (he : e.Normal) : e.reduce = e := by
  induction e with
  | const value => rfl
  | sym symbol => rfl
  | mem ptr size ih => rw [reduce, ih he]
  | port p size ih => rw [reduce, ih he]
  | unary op arg ih => rw [reduce, ih he.1, reduceUnary_of_kept he.2]
  | binary op lhs rhs ihl ihr =>
      rw [reduce, ihl he.1, ihr he.2.1, reduceBinary_of_kept he.2.2]

end Expr

/-! ## Linear forms of normal terms -/

namespace Linear

theorem normal_collect {form : Linear} {scale : Int} {e : Expr} (he : e.Normal)
    (hform : ∀ t ∈ form.terms, t.1.Normal) : ∀ t ∈ (form.collect scale e).terms, t.1.Normal := by
  fun_induction collect form scale e with
  | case1 => exact hform
  | case2 form scale lhs rhs ihl ihr => exact ihr he.2.1 (ihl he.1 hform)
  | case3 form scale lhs rhs ihl ihr => exact ihr he.2.1 (ihl he.1 hform)
  | case4 form scale arg ih => exact ih he.1 hform
  | case5 form scale lhs k ih => exact ih he.1 hform
  | case6 form scale k rhs _ ih => exact ih he.2.1 hform
  | case7 form scale term => exact addTo_stable he hform

theorem normal_firstTerm {term : Expr} {coefficient : Int} (hterm : term.Normal)
    (hsum : IsSum (firstTerm term coefficient)) : (firstTerm term coefficient).Normal := by
  unfold firstTerm at hsum ⊢
  by_cases hone : coefficient = 1
  · rw [if_pos hone]
    exact hterm
  · rw [if_neg hone] at hsum ⊢
    by_cases hminus : coefficient = -1
    · rw [if_pos hminus] at hsum ⊢
      exact ⟨hterm, hsum⟩
    · rw [if_neg hminus] at hsum ⊢
      exact ⟨hterm, trivial, hsum⟩

theorem normal_nextTerm {previous term : Expr} {coefficient : Int} (hprevious : previous.Normal)
    (hterm : term.Normal) (hsum : IsSum (nextTerm previous term coefficient))
    (hfirst : IsSum (firstTerm term coefficient)) :
    (nextTerm previous term coefficient).Normal := by
  have hmultiple := normal_firstTerm hterm hfirst
  unfold firstTerm at hmultiple
  unfold nextTerm at hsum ⊢
  by_cases hone : coefficient = 1
  · rw [if_pos hone] at hsum ⊢
    exact ⟨hprevious, hterm, hsum⟩
  · rw [if_neg hone] at hmultiple hsum ⊢
    by_cases hminus : coefficient = -1
    · rw [if_pos hminus] at hsum ⊢
      exact ⟨hprevious, hterm, hsum⟩
    · rw [if_neg hminus] at hmultiple hsum ⊢
      exact ⟨hprevious, hmultiple, hsum⟩

theorem Canonical.normal_toExpr {form : Linear} (hform : form.Canonical)
    (hterms : ∀ t ∈ form.terms, t.1.Normal) : form.toExpr.Normal := by
  refine Canonical.induction (P := fun form => (∀ t ∈ form.terms, t.1.Normal) →
    form.toExpr.Normal) ?const ?single ?concat ?add hform hterms
  case const =>
      intro constant hform _
      rw [hform.toExpr_const]
      trivial
  case single =>
      intro term coefficient hform hterms
      have hsum := hform.isSum
      rw [hform.toExpr_single] at hsum ⊢
      exact normal_firstTerm (hterms _ (List.mem_singleton_self _)) hsum
  case concat =>
      intro terms term coefficient hne hform ih hterms
      obtain ⟨hbefore, hterm⟩ := List.forall_mem_append.mp hterms
      have hlast := hform.sublist (List.sublist_append_right terms [(term, coefficient)])
      have hfirst : IsSum (firstTerm term coefficient) := hlast.toExpr_single ▸ hlast.isSum
      have hsum := hform.isSum
      rw [hform.toExpr_concat hne] at hsum ⊢
      exact normal_nextTerm (ih hbefore) (hterm _ (List.mem_singleton_self _)) hsum hfirst
  case add =>
      intro terms constant hne hconstant hform ih hterms
      have hsum := hform.isSum
      rw [hform.toExpr_add hne hconstant] at hsum ⊢
      exact ⟨ih hterms, trivial, hsum⟩

/-- Reading normal terms into a form and writing it keeps them normal. -/
theorem Proper.normal_toExpr {form : Linear} (hform : form.Proper)
    (hterms : ∀ t ∈ form.terms, t.1.Normal) : form.toExpr.Normal := by
  rw [← toExpr_wrapped]
  exact hform.canonical_wrapped.normal_toExpr (forall_mem_wrapped hterms)

end Linear

/-! ## Every rule gives normal expressions -/

namespace Expr

theorem normal_ofTruth (holds : Bool) : (ofTruth holds).Normal := trivial

/-- The negation of a comparison to which no rule applies is one too. -/
theorem kept_negate {op inverse : BinOp} (hinverse : op.negate? = some inverse) {lhs rhs : Expr}
    (h : Kept op lhs rhs) : Kept inverse lhs rhs := by
  have hop : op.isComparison := by
    by_contra hnot
    rw [BinOp.negate?_eq_none_iff.mpr (by simpa using hnot)] at hinverse
    cases hinverse
  have hsame : inverse.isComparison ∧ inverse.isEquality = op.isEquality := by
    cases op <;> cases hinverse <;> exact ⟨rfl, rfl⟩
  rw [kept_comparison hop] at h
  rw [kept_comparison hsame.1, hsame.2]
  exact h

theorem normal_reduceUnary {op : UnOp} {arg : Expr} (harg : arg.Normal) :
    (reduceUnary op arg).Normal := by
  fun_cases reduceUnary op arg with
  | case1 value => trivial
  | case2 =>
      apply (Linear.proper_ofExpr _).normal_toExpr
      rw [Linear.ofExpr, Linear.collect]
      exact Linear.normal_collect harg (by simp)
  | case3 inner => exact harg.1
  | case4 inner => exact harg.1
  | case5 inner hboolean =>
      refine ⟨harg, rfl, fun _ _ _ h => Expr.noConfusion h, ?_⟩
      rintro _ ⟨⟩
      simpa using hboolean
  | case6 comparison lhs rhs inverse hinverse =>
      exact ⟨harg.1, harg.2.1, kept_negate hinverse harg.2.2⟩
  | case7 comparison lhs rhs hnone =>
      refine ⟨harg, rfl, ?_, fun _ h => Expr.noConfusion h⟩
      rintro _ _ _ ⟨⟩
      exact BinOp.negate?_eq_none_iff.mp hnone
  | case8 op arg hconst hneg hnot hlnot hcomparison =>
      refine ⟨harg, ?_⟩
      have hopen : arg.isConst = false := isConst_eq_false hconst
      cases op with
      | neg => exact absurd rfl hneg
      | not => exact ⟨hopen, fun inner hinner => hnot inner rfl hinner⟩
      | lnot =>
          exact ⟨hopen, fun _ _ _ h => (hcomparison _ _ _ rfl h).elim,
            fun inner h => (hlnot inner rfl h).elim⟩

theorem normal_reduceMask {arg : Expr} {mask : Int} (harg : arg.Normal)
    (hopen : arg.isConst = false) : (arg.reduceMask mask).Normal := by
  fun_induction reduceMask arg mask with
  | case1 => trivial
  | case2 => exact harg
  | case3 mask _ _ inner other ih => exact ih harg.1 harg.2.2.1
  | case4 mask hzero hall arg hsingle =>
      refine ⟨harg, trivial, hopen, ?_, ?_⟩
      · rintro rfl
        cases hopen
      · rintro _ ⟨⟩
        exact ⟨hzero, hall, hsingle⟩

theorem normal_reduceAnd {lhs rhs : Expr} (hlhs : lhs.Normal) (hrhs : rhs.Normal)
    (hopen : lhs.isConst = false) : (reduceAnd lhs rhs).Normal := by
  unfold reduceAnd
  split
  · exact normal_reduceMask hlhs hopen
  · rename_i hmask
    split
    · exact hlhs
    · rename_i hne
      exact ⟨hlhs, hrhs, hopen, hne, fun mask h => absurd h (hmask mask)⟩

theorem normal_of_stripInequality {outer inner rest : Expr} (hinner : inner.Normal)
    (hrest : stripInequality? outer inner = some rest) : rest.Normal := by
  rcases (stripInequality?_eq_some hrest).2 with rfl | rfl
  · exact hinner.2.1
  · exact hinner.1

/-- A Boolean is compared with neither bit if it is not replaced. -/
theorem bit_of_reduceBooleanTest {op : BinOp} (hop : op.isEquality) {lhs rhs : Expr}
    (hnone : reduceBooleanTest? op lhs rhs = none) (hboolean : lhs.isBoolean) :
    rhs ≠ const 0 ∧ rhs ≠ const 1 := by
  unfold reduceBooleanTest? at hnone
  rw [if_pos hboolean] at hnone
  constructor
  · rintro rfl
    cases op <;> simp [BinOp.isEquality] at hop hnone
  · rintro rfl
    cases op <;> simp [BinOp.isEquality] at hop hnone

theorem normal_reduceEquality {op : BinOp} (hop : op.isEquality) {lhs rhs : Expr}
    (hlhs : lhs.Normal) (hrhs : rhs.Normal) (hopen : lhs.isConst = false) (hne : lhs ≠ rhs)
    (hdifference : ∀ a b, lhs = binary .sub a b → rhs ≠ const 0)
    (hsum : ∀ a k, lhs = binary .add a (const k) → rhs.isConst = false) :
    (reduceEquality op lhs rhs).Normal := by
  have hcomparison : op.isComparison := by
    cases op <;> first | rfl | cases hop
  unfold reduceEquality
  split
  · rename_i result hresult
    rcases (reduceBooleanTest?_eq_some hresult).2 with ⟨_, rfl⟩ | ⟨_, rfl⟩
    · exact hlhs
    · exact normal_reduceUnary hlhs
  · rename_i htest
    split
    · rename_i rest hstrip
      have hrest : rest.Normal := by
        rcases Option.or_eq_some_iff.mp hstrip with hleft | ⟨_, hright⟩
        · exact normal_of_stripInequality hrhs hleft
        · exact normal_of_stripInequality hlhs hright
      split
      · exact hrest
      · exact normal_reduceUnary hrest
    · rename_i hstrip
      obtain ⟨hright, hleft⟩ := Option.or_eq_none_iff.mp hstrip
      exact ⟨hlhs, hrhs, (kept_comparison hcomparison _ _).mpr ⟨hopen, hne, fun _ =>
        ⟨hdifference, hsum, bit_of_reduceBooleanTest hop htest, hright, hleft⟩⟩⟩

theorem normal_reduceComparison {op : BinOp} (hop : op.isComparison) {lhs rhs : Expr}
    (hlhs : lhs.Normal) (hrhs : rhs.Normal) (hopen : lhs.isConst = false) :
    (reduceComparison op lhs rhs).Normal := by
  fun_induction reduceComparison op lhs rhs with
  | case1 => exact normal_ofTruth _
  | case2 hequality a b _ ih =>
      exact ih hlhs.1 hlhs.2.1 (Linear.IsSum.isConst_left hlhs.2.2 (by simp))
  | case3 hequality a b value hvalue hne =>
      refine normal_reduceEquality hequality hlhs hrhs hopen hne ?_ ?_
      · rintro _ _ ⟨⟩ hzero
        exact hvalue (const.inj hzero)
      · rintro _ _ ⟨⟩
  | case4 hequality a k value hne ih =>
      exact ih hlhs.1 trivial (Linear.IsSum.isConst_left hlhs.2.2 (by simp))
  | case5 hequality lhs rhs hdifference hsum hne =>
      refine normal_reduceEquality hequality hlhs hrhs hopen hne ?_ ?_
      · intro a b hsub hzero
        exact hdifference a b 0 hsub hzero
      · intro a k hadd
        exact isConst_eq_false fun value hvalue => hsum a k value hadd hvalue
  | case6 lhs rhs hne hequality =>
      exact ⟨hlhs, hrhs, (kept_comparison hop _ _).mpr ⟨hopen, hne, fun h => absurd h hequality⟩⟩

theorem kept_logical {op : BinOp} (hop : op = .land ∨ op = .lor) {lhs rhs : Expr}
    (hopen : lhs.isConst = false) (hmerge : mergeComparisons? op lhs rhs = none)
    (hvalue : ∀ value, rhs = const value → lhs.isBoolean = false ∧ (value = 0 ↔ op = .lor)) :
    Kept op lhs rhs := by
  rcases hop with rfl | rfl <;> exact ⟨hopen, hmerge, hvalue⟩

/-- Merging an equality with an ordering gives an ordering of the same operands. -/
theorem normal_mergeComparisons {op : BinOp} {lhs rhs merged : Expr} (hlhs : lhs.Normal)
    (hrhs : rhs.Normal) (hmerged : mergeComparisons? op lhs rhs = some merged) :
    merged.Normal := by
  obtain ⟨other, joined, a, b, hjoined, rfl, hsides⟩ := mergeComparisons?_eq_some hmerged
  have hequality : (absorbed op).isComparison := by
    unfold absorbed
    split <;> rfl
  have hordering : joined.isComparison ∧ joined.isEquality = false := by
    rcases mergedOperator?_eq_some hjoined with
      ⟨rfl, rfl, rfl⟩ | ⟨rfl, rfl, rfl⟩ | ⟨rfl, rfl, rfl⟩ | ⟨rfl, rfl, rfl⟩ <;> exact ⟨rfl, rfl⟩
  have hnormal : (binary (absorbed op) a b).Normal := by
    rcases hsides with ⟨rfl, _⟩ | ⟨_, rfl⟩
    · exact hlhs
    · exact hrhs
  obtain ⟨ha, hb, hkept⟩ := hnormal
  obtain ⟨hopen, hne, _⟩ := (kept_comparison hequality a b).mp hkept
  refine ⟨ha, hb, (kept_comparison hordering.1 a b).mpr ⟨hopen, hne, fun h => ?_⟩⟩
  exact absurd (hordering.2 ▸ h) Bool.false_ne_true

theorem normal_reduceLogical {op : BinOp} (hop : op = .land ∨ op = .lor) {lhs rhs : Expr}
    (hlhs : lhs.Normal) (hrhs : rhs.Normal) (hopen : lhs.isConst = false) :
    (reduceLogical op lhs rhs).Normal := by
  unfold reduceLogical
  split
  · rename_i value
    split
    · trivial
    · rename_i hand
      split
      · trivial
      · rename_i hor
        split
        · exact hlhs
        · rename_i hboolean
          refine ⟨hlhs, hrhs, kept_logical hop hopen (by cases lhs <;> rfl) ?_⟩
          rintro _ ⟨⟩
          rcases hop with rfl | rfl <;> simp_all
  · rename_i hvalue
    cases hmerged : mergeComparisons? op lhs rhs with
    | none =>
        exact ⟨hlhs, hrhs, kept_logical hop hopen hmerged fun value h => absurd h (hvalue value)⟩
    | some merged => exact normal_mergeComparisons hlhs hrhs hmerged

/-- The operators of linear forms. -/
theorem normal_linear {op : BinOp} {lhs rhs : Expr} (hlhs : lhs.Normal) (hrhs : rhs.Normal)
    (hop : op = .add ∨ op = .sub ∨ op = .mul ∧ rhs.isConst) :
    (Linear.ofExpr (binary op lhs rhs)).toExpr.Normal := by
  apply (Linear.proper_ofExpr _).normal_toExpr
  rcases hop with rfl | rfl | ⟨rfl, hconst⟩
  · rw [Linear.ofExpr, Linear.collect]
    exact Linear.normal_collect hrhs (Linear.normal_collect hlhs (by simp))
  · rw [Linear.ofExpr, Linear.collect]
    exact Linear.normal_collect hrhs (Linear.normal_collect hlhs (by simp))
  · cases rhs with
    | const k =>
        rw [Linear.ofExpr, Linear.collect]
        exact Linear.normal_collect hlhs (by simp)
    | _ => cases hconst

/-- A rule gets normal operands, of which the left one is a constant only if the
operator cannot be turned around and the right one is none. -/
theorem normal_reduceOrdered {op : BinOp} {lhs rhs : Expr} (hlhs : lhs.Normal) (hrhs : rhs.Normal)
    (hopen : lhs.isConst = false ∨
      rhs.isConst = false ∧ op.isCommutative = false ∧ op.isComparison = false) :
    (reduceOrdered op lhs rhs).Normal := by
  cases op with
  | add | sub => exact normal_linear hlhs hrhs (by simp)
  | mul =>
      have hleft : lhs.isConst = false := hopen.resolve_right (by simp [BinOp.isCommutative])
      rw [reduceOrdered]
      split
      · rename_i hconst
        exact normal_linear hlhs hrhs (by simp [hconst])
      · rename_i hconst
        exact ⟨hlhs, hrhs, by simpa [Kept, hconst] using hleft⟩
  | and => exact normal_reduceAnd hlhs hrhs (hopen.resolve_right (by simp [BinOp.isCommutative]))
  | or =>
      have hleft : lhs.isConst = false := hopen.resolve_right (by simp [BinOp.isCommutative])
      rw [reduceOrdered]
      split
      · exact hlhs
      · rename_i hzero
        split
        · exact hlhs
        · rename_i hne
          exact ⟨hlhs, hrhs, hleft, hne, hzero⟩
  | xor =>
      have hleft : lhs.isConst = false := hopen.resolve_right (by simp [BinOp.isCommutative])
      rw [reduceOrdered]
      split
      · exact hlhs
      · rename_i hzero
        split
        · trivial
        · rename_i hne
          exact ⟨hlhs, hrhs, hleft, hne, hzero⟩
  | shl | shr | sar =>
      rw [reduceOrdered]
      split
      · exact hlhs
      · rename_i hzero
        refine ⟨hlhs, hrhs, fun hconst => ?_, hzero⟩
        exact (hopen.resolve_left (by simp [hconst])).1
  | land | lor =>
      exact normal_reduceLogical (by simp) hlhs hrhs
        (hopen.resolve_right (by simp [BinOp.isCommutative]))
  | div | mod =>
      refine ⟨hlhs, hrhs, ?_⟩
      rintro a b rfl rfl
      simp [isConst] at hopen
  | _ =>
      exact normal_reduceComparison rfl hlhs hrhs
        (hopen.resolve_right (by simp [BinOp.isComparison]))

/-- Only division by zero is left of two constants. -/
theorem fold?_eq_none {op : BinOp} {a b : Int} (hnone : op.fold? a b = none) :
    (op = .div ∨ op = .mod) ∧ toWord b = 0 := by
  cases op <;> simp_all [BinOp.fold?, BinOp.compute?]

theorem normal_reduceBinary {op : BinOp} {lhs rhs : Expr} (hlhs : lhs.Normal)
    (hrhs : rhs.Normal) : (reduceBinary op lhs rhs).Normal := by
  unfold reduceBinary
  split
  · rename_i a b
    split
    · trivial
    · rename_i hnone
      obtain ⟨rfl | rfl, hzero⟩ := fold?_eq_none hnone
      · exact ⟨trivial, trivial, fun _ _ _ hb => const.inj hb ▸ hzero⟩
      · exact ⟨trivial, trivial, fun _ _ _ hb => const.inj hb ▸ hzero⟩
  · rename_i a hconst
    have hopen : rhs.isConst = false := isConst_eq_false hconst
    split
    · exact normal_reduceOrdered hrhs hlhs (Or.inl hopen)
    · rename_i hcommutative
      split
      · exact normal_reduceOrdered hrhs hlhs (Or.inl hopen)
      · rename_i hcomparison
        exact normal_reduceOrdered hlhs hrhs (Or.inr ⟨hopen, by simpa using hcommutative,
          by simpa using hcomparison⟩)
  · rename_i hopen _
    exact normal_reduceOrdered hlhs hrhs (Or.inl (isConst_eq_false hopen))

/-- Reduction gives a normal expression. -/
theorem normal_reduce (e : Expr) : e.reduce.Normal := by
  induction e with
  | const value => trivial
  | sym symbol => trivial
  | mem ptr size ih => exact ih
  | port p size ih => exact ih
  | unary op arg ih => exact normal_reduceUnary ih
  | binary op lhs rhs ihl ihr => exact normal_reduceBinary ihl ihr

/-- Reducing twice is the same as reducing once. -/
theorem reduce_reduce (e : Expr) : e.reduce.reduce = e.reduce :=
  reduce_of_normal (normal_reduce e)

end Expr

end Uncompile
