import Uncompile.Expr.Reduce

/-!
# What reduction can bring into an expression

A vocabulary says which constants, symbols and operators an expression may use
and whether it may read memory and ports. Reduction stays within every vocabulary
that has the constants of folding and the operators of linear forms. That it adds
no symbol, no access to memory or to a port and no equality, and keeps constants in
range, are instances of this.
-/

namespace Uncompile

/-! ## When the partial rules apply -/

namespace Expr

theorem stripInequality?_eq_some {outer inner rest : Expr}
    (hrest : stripInequality? outer inner = some rest) :
    rest.isBoolean ∧ (inner = binary .ne outer rest ∨ inner = binary .ne rest outer) := by
  unfold stripInequality? at hrest
  split at hrest
  · split at hrest
    · rename_i hleft
      rw [← Option.some.inj hrest, ← hleft.1]
      exact ⟨hleft.2, Or.inl rfl⟩
    · split at hrest
      · rename_i hright
        rw [← Option.some.inj hrest, ← hright.1]
        exact ⟨hright.2, Or.inr rfl⟩
      · simp at hrest
  · simp at hrest

/-- A Boolean test is the operand itself or its negation. -/
theorem reduceBooleanTest?_eq_some {op : BinOp} {lhs rhs result : Expr}
    (hresult : reduceBooleanTest? op lhs rhs = some result) :
    lhs.isBoolean ∧
      ((((op = .ne ∧ rhs = const 0) ∨ (op = .eq ∧ rhs = const 1)) ∧ result = lhs) ∨
        (((op = .eq ∧ rhs = const 0) ∨ (op = .ne ∧ rhs = const 1)) ∧
          result = reduceUnary .lnot lhs)) := by
  unfold reduceBooleanTest? at hresult
  split at hresult
  · rename_i hboolean
    refine ⟨hboolean, ?_⟩
    split at hresult
    · rename_i hself
      exact Or.inl ⟨hself, (Option.some.inj hresult).symm⟩
    · split at hresult
      · rename_i hnegated
        exact Or.inr ⟨hnegated, (Option.some.inj hresult).symm⟩
      · simp at hresult
  · simp at hresult

/-- Only orderings are merged, and to the ordering with or without equality. -/
theorem mergedOperator?_eq_some {op other merged : BinOp}
    (hmerged : mergedOperator? op other = some merged) :
    (op = .land ∧ other = .ge ∧ merged = .gt) ∨ (op = .land ∧ other = .uge ∧ merged = .ugt) ∨
      (op = .lor ∧ other = .lt ∧ merged = .le) ∨ (op = .lor ∧ other = .ult ∧ merged = .ule) := by
  unfold mergedOperator? at hmerged
  split at hmerged <;> simp only [Option.some.injEq, reduceCtorEq] at hmerged <;>
    subst hmerged <;> simp

/-- The equality that a logical operator can absorb. -/
def absorbed (op : BinOp) : BinOp := if op = .land then .ne else .eq

/-- Merged comparisons have the same operands, and one of them is the equality
that the logical operator absorbs. -/
theorem mergeComparisons?_eq_some {op : BinOp} {lhs rhs merged : Expr}
    (hmerged : mergeComparisons? op lhs rhs = some merged) :
    ∃ other joined a b, mergedOperator? op other = some joined ∧ merged = binary joined a b ∧
      ((lhs = binary (absorbed op) a b ∧ rhs = binary other a b) ∨
        (lhs = binary other a b ∧ rhs = binary (absorbed op) a b)) := by
  unfold mergeComparisons? at hmerged
  split at hmerged
  · rename_i opA a b opB a' b'
    change (if a = a' ∧ b = b' then
      if opA = absorbed op then _ else if opB = absorbed op then _ else _ else _) = _ at hmerged
    split at hmerged
    · rename_i hsame
      obtain ⟨rfl, rfl⟩ := hsame
      split at hmerged
      · rename_i hleft
        obtain ⟨joined, hjoined, hbinary⟩ := Option.map_eq_some_iff.mp hmerged
        exact ⟨opB, joined, a, b, hjoined, hbinary.symm, Or.inl ⟨by rw [hleft], rfl⟩⟩
      · split at hmerged
        · rename_i hright
          obtain ⟨joined, hjoined, hbinary⟩ := Option.map_eq_some_iff.mp hmerged
          exact ⟨opA, joined, a, b, hjoined, hbinary.symm, Or.inr ⟨rfl, by rw [hright]⟩⟩
        · simp at hmerged
    · simp at hmerged
  · simp at hmerged

end Expr

/-! ## Linear forms -/

namespace Linear

/-- A property of expressions that sums, differences and multiples have when
their parts do, and pass on to them. -/
structure Stable (P : Expr → Prop) : Prop where
  const : ∀ w : Word, P (.const w.toInt)
  neg : ∀ {arg : Expr}, P (.unary .neg arg) ↔ P arg
  add : ∀ {lhs rhs : Expr}, P (.binary .add lhs rhs) ↔ P lhs ∧ P rhs
  sub : ∀ {lhs rhs : Expr}, P (.binary .sub lhs rhs) ↔ P lhs ∧ P rhs
  mul : ∀ {lhs rhs : Expr}, P (.binary .mul lhs rhs) ↔ P lhs ∧ P rhs

variable {P : Expr → Prop}

theorem addTo_stable {term : Expr} {scale : Int} {terms : List (Expr × Int)}
    (hterm : P term) (hterms : ∀ t ∈ terms, P t.1) :
    ∀ t ∈ addTo term scale terms, P t.1 := by
  induction terms with
  | nil => simpa [addTo] using hterm
  | cons head rest ih =>
      obtain ⟨other, coefficient⟩ := head
      rw [List.forall_mem_cons] at hterms
      unfold addTo
      split
      · exact List.forall_mem_cons.mpr hterms
      · exact List.forall_mem_cons.mpr ⟨hterms.1, ih hterms.2⟩

theorem collect_stable (hP : Stable P) {form : Linear} {scale : Int} {e : Expr} (he : P e)
    (hform : ∀ t ∈ form.terms, P t.1) : ∀ t ∈ (form.collect scale e).terms, P t.1 := by
  fun_induction collect form scale e with
  | case1 => exact hform
  | case2 form scale lhs rhs ihl ihr =>
      obtain ⟨hlhs, hrhs⟩ := hP.add.mp he
      exact ihr hrhs (ihl hlhs hform)
  | case3 form scale lhs rhs ihl ihr =>
      obtain ⟨hlhs, hrhs⟩ := hP.sub.mp he
      exact ihr hrhs (ihl hlhs hform)
  | case4 form scale arg ih => exact ih (hP.neg.mp he) hform
  | case5 form scale lhs k ih => exact ih (hP.mul.mp he).1 hform
  | case6 form scale k rhs _ ih => exact ih (hP.mul.mp he).2 hform
  | case7 form scale term => exact addTo_stable he hform

theorem firstTerm_stable (hP : Stable P) {term : Expr} {w : Word} (hterm : P term) :
    P (firstTerm term w.toInt) := by
  unfold firstTerm
  split
  · exact hterm
  · split
    · exact hP.neg.mpr hterm
    · exact hP.mul.mpr ⟨hterm, hP.const w⟩

theorem nextTerm_stable (hP : Stable P) {previous term : Expr} {w : Word}
    (hprevious : P previous) (hterm : P term) : P (nextTerm previous term w.toInt) := by
  unfold nextTerm
  split
  · exact hP.add.mpr ⟨hprevious, hterm⟩
  · split
    · exact hP.sub.mpr ⟨hprevious, hterm⟩
    · exact hP.add.mpr ⟨hprevious, hP.mul.mpr ⟨hterm, hP.const w⟩⟩

/-- What the first summand has and every further one keeps, sums have. -/
theorem joinTerms_induction {Q : Expr → Prop}
    (hfirst : ∀ {term : Expr} {w : Word}, Q term → P (firstTerm term w.toInt))
    (hnext : ∀ {previous term : Expr} {w : Word}, P previous → Q term →
      P (nextTerm previous term w.toInt))
    {previous : Option Expr} {terms : List (Expr × Int)} (hprevious : ∀ e ∈ previous, P e)
    (hterms : ∀ t ∈ terms, Q t.1) : ∀ e ∈ joinTerms previous terms, P e := by
  induction terms generalizing previous with
  | nil => exact hprevious
  | cons head rest ih =>
      obtain ⟨term, coefficient⟩ := head
      obtain ⟨hterm, hrest⟩ := List.forall_mem_cons.mp hterms
      unfold joinTerms
      rw [← toInt_toWord]
      split
      · exact ih hprevious hrest
      · cases previous with
        | none => exact ih (by simpa using hfirst hterm) hrest
        | some sum => exact ih (by simpa using hnext (hprevious sum rfl) hterm) hrest

theorem toExpr_induction {Q : Expr → Prop} (hconst : ∀ w : Word, P (.const w.toInt))
    (hadd : ∀ {lhs rhs : Expr}, P lhs → P rhs → P (.binary .add lhs rhs))
    (hfirst : ∀ {term : Expr} {w : Word}, Q term → P (firstTerm term w.toInt))
    (hnext : ∀ {previous term : Expr} {w : Word}, P previous → Q term →
      P (nextTerm previous term w.toInt))
    {form : Linear} (hform : ∀ t ∈ form.terms, Q t.1) : P form.toExpr := by
  have hconstant : P (.const (wrap32 form.constant)) := by
    rw [← toInt_toWord]
    exact hconst _
  have hjoin : ∀ e ∈ joinTerms none form.terms, P e :=
    joinTerms_induction hfirst hnext (by simp) hform
  unfold toExpr
  cases hsum : joinTerms none form.terms with
  | none => exact hconstant
  | some sum =>
      dsimp only
      split
      · exact hjoin sum hsum
      · exact hadd (hjoin sum hsum) hconstant

theorem toExpr_stable (hP : Stable P) {form : Linear} (hform : ∀ t ∈ form.terms, P t.1) :
    P form.toExpr :=
  toExpr_induction hP.const (fun hlhs hrhs => hP.add.mpr ⟨hlhs, hrhs⟩) (firstTerm_stable hP)
    (nextTerm_stable hP) hform

/-- Writing an expression in linear form keeps its stable properties. -/
theorem toExpr_ofExpr_stable (hP : Stable P) {e : Expr} (he : P e) : P (ofExpr e).toExpr :=
  toExpr_stable hP (collect_stable hP he (by simp))

end Linear

/-! ## Vocabularies -/

structure Vocabulary where
  constant : Int → Prop
  symbol : Symbol → Prop
  /-- Whether memory may be read. -/
  memory : Prop
  /-- Whether ports may be read, which they may where memory may if nothing else is said. -/
  port : Prop := memory
  operator : BinOp → Prop
  constant_word : ∀ w : Word, constant w.toInt
  constant_mask : ∀ {a b : Int}, constant a → constant b → constant (maskAnd a b)
  operator_add : operator .add
  operator_sub : operator .sub
  operator_mul : operator .mul
  operator_negate : ∀ {op inverse : BinOp},
    op.negate? = some inverse → operator op → operator inverse
  operator_swapped : ∀ {op : BinOp}, operator op → operator op.swapped
  operator_merged : ∀ {op other merged : BinOp},
    Expr.mergedOperator? op other = some merged → operator other → operator merged

namespace Expr

/-- Every part of the expression belongs to the vocabulary. -/
def Within (voc : Vocabulary) : Expr → Prop
  | const value => voc.constant value
  | sym symbol => voc.symbol symbol
  | mem ptr _ => voc.memory ∧ ptr.Within voc
  | port p _ => voc.port ∧ p.Within voc
  | unary _ arg => arg.Within voc
  | binary op lhs rhs => voc.operator op ∧ lhs.Within voc ∧ rhs.Within voc

variable {voc : Vocabulary}

theorem within_const_wrap32 (voc : Vocabulary) (value : Int) :
    (const (wrap32 value)).Within voc := by
  rw [← toInt_toWord]
  exact voc.constant_word _

theorem within_ofTruth (voc : Vocabulary) (holds : Bool) : (ofTruth holds).Within voc := by
  cases holds
  · exact voc.constant_word 0
  · exact voc.constant_word 1

theorem stable_within (voc : Vocabulary) : Linear.Stable (Within voc) where
  const := voc.constant_word
  neg := Iff.rfl
  add := and_iff_right voc.operator_add
  sub := and_iff_right voc.operator_sub
  mul := and_iff_right voc.operator_mul

theorem within_reduceUnary {op : UnOp} {arg : Expr} (harg : arg.Within voc) :
    (reduceUnary op arg).Within voc := by
  fun_cases reduceUnary op arg with
  | case1 value => exact voc.constant_word _
  | case2 => exact Linear.toExpr_ofExpr_stable (stable_within voc) harg
  | case3 inner => exact harg
  | case4 inner => exact harg
  | case5 inner => exact harg
  | case6 comparison lhs rhs inverse hinverse =>
      exact ⟨voc.operator_negate hinverse harg.1, harg.2⟩
  | case7 comparison lhs rhs => exact harg
  | case8 => exact harg

theorem within_reduceMask {arg : Expr} {mask : Int} (harg : arg.Within voc)
    (hmask : voc.constant mask) (hand : voc.operator .and) :
    (arg.reduceMask mask).Within voc := by
  fun_induction reduceMask arg mask with
  | case1 => exact voc.constant_word 0
  | case2 => exact harg
  | case3 mask _ _ inner other ih => exact ih harg.2.1 (voc.constant_mask harg.2.2 hmask)
  | case4 => exact ⟨hand, harg, hmask⟩

theorem within_reduceAnd {lhs rhs : Expr} (hlhs : lhs.Within voc) (hrhs : rhs.Within voc)
    (hand : voc.operator .and) : (reduceAnd lhs rhs).Within voc := by
  unfold reduceAnd
  split
  · exact within_reduceMask hlhs hrhs hand
  · split
    · exact hlhs
    · exact ⟨hand, hlhs, hrhs⟩

theorem within_stripInequality {outer inner rest : Expr} (hinner : inner.Within voc)
    (hrest : stripInequality? outer inner = some rest) : rest.Within voc := by
  rcases (stripInequality?_eq_some hrest).2 with rfl | rfl
  · exact hinner.2.2
  · exact hinner.2.1

theorem within_reduceEquality {op : BinOp} {lhs rhs : Expr} (hop : voc.operator op)
    (hlhs : lhs.Within voc) (hrhs : rhs.Within voc) :
    (reduceEquality op lhs rhs).Within voc := by
  unfold reduceEquality
  split
  · rename_i result hresult
    rcases (reduceBooleanTest?_eq_some hresult).2 with ⟨_, rfl⟩ | ⟨_, rfl⟩
    · exact hlhs
    · exact within_reduceUnary hlhs
  · split
    · rename_i rest hstrip
      have hrest : rest.Within voc := by
        rcases Option.or_eq_some_iff.mp hstrip with hleft | ⟨_, hright⟩
        · exact within_stripInequality hrhs hleft
        · exact within_stripInequality hlhs hright
      split
      · exact hrest
      · exact within_reduceUnary hrest
    · exact ⟨hop, hlhs, hrhs⟩

theorem within_reduceComparison {op : BinOp} {lhs rhs : Expr} (hop : voc.operator op)
    (hlhs : lhs.Within voc) (hrhs : rhs.Within voc) :
    (reduceComparison op lhs rhs).Within voc := by
  fun_induction reduceComparison op lhs rhs with
  | case1 => exact within_ofTruth voc _
  | case2 a b _ _ ih => exact ih hlhs.2.1 hlhs.2.2
  | case3 => exact within_reduceEquality hop hlhs hrhs
  | case4 a k value _ _ ih => exact ih hlhs.2.1 (within_const_wrap32 voc _)
  | case5 => exact within_reduceEquality hop hlhs hrhs
  | case6 => exact ⟨hop, hlhs, hrhs⟩

theorem within_mergeComparisons {op : BinOp} {lhs rhs merged : Expr} (hlhs : lhs.Within voc)
    (hrhs : rhs.Within voc) (hmerged : mergeComparisons? op lhs rhs = some merged) :
    merged.Within voc := by
  obtain ⟨other, joined, a, b, hjoined, rfl, ⟨rfl, rfl⟩ | ⟨rfl, rfl⟩⟩ :=
    mergeComparisons?_eq_some hmerged
  · exact ⟨voc.operator_merged hjoined hrhs.1, hlhs.2⟩
  · exact ⟨voc.operator_merged hjoined hlhs.1, hlhs.2⟩

theorem within_reduceLogical {op : BinOp} {lhs rhs : Expr} (hop : voc.operator op)
    (hlhs : lhs.Within voc) (hrhs : rhs.Within voc) :
    (reduceLogical op lhs rhs).Within voc := by
  unfold reduceLogical
  split
  · split
    · exact voc.constant_word 0
    · split
      · exact voc.constant_word 1
      · split
        · exact hlhs
        · exact ⟨hop, hlhs, hrhs⟩
  · cases hmerged : mergeComparisons? op lhs rhs with
    | none => exact ⟨hop, hlhs, hrhs⟩
    | some merged => exact within_mergeComparisons hlhs hrhs hmerged

theorem within_reduceOrdered {op : BinOp} {lhs rhs : Expr} (hop : voc.operator op)
    (hlhs : lhs.Within voc) (hrhs : rhs.Within voc) :
    (reduceOrdered op lhs rhs).Within voc := by
  have hkept : (binary op lhs rhs).Within voc := ⟨hop, hlhs, hrhs⟩
  unfold reduceOrdered
  split
  · exact Linear.toExpr_ofExpr_stable (stable_within voc) hkept
  · exact Linear.toExpr_ofExpr_stable (stable_within voc) hkept
  · split
    · exact Linear.toExpr_ofExpr_stable (stable_within voc) hkept
    · exact hkept
  · exact within_reduceAnd hlhs hrhs hop
  · split
    · exact hlhs
    · split
      · exact hlhs
      · exact hkept
  · split
    · exact hlhs
    · split
      · exact voc.constant_word 0
      · exact hkept
  · split
    · exact hlhs
    · exact hkept
  · split
    · exact hlhs
    · exact hkept
  · split
    · exact hlhs
    · exact hkept
  · exact within_reduceLogical hop hlhs hrhs
  · exact within_reduceLogical hop hlhs hrhs
  · exact hkept
  · exact hkept
  · exact within_reduceComparison hop hlhs hrhs

theorem within_fold {op : BinOp} {a b value : Int} (hvalue : op.fold? a b = some value) :
    (const value).Within voc := by
  unfold BinOp.fold? at hvalue
  split at hvalue
  · rw [← Option.some.inj hvalue]
    split
    · exact voc.constant_word 1
    · exact voc.constant_word 0
  · rw [← Option.some.inj hvalue]
    split
    · exact voc.constant_word 1
    · exact voc.constant_word 0
  · obtain ⟨w, _, rfl⟩ := Option.map_eq_some_iff.mp hvalue
    exact voc.constant_word w

theorem within_reduceBinary {op : BinOp} {lhs rhs : Expr} (hop : voc.operator op)
    (hlhs : lhs.Within voc) (hrhs : rhs.Within voc) :
    (reduceBinary op lhs rhs).Within voc := by
  unfold reduceBinary
  split
  · split
    · rename_i hvalue
      exact within_fold hvalue
    · exact within_reduceOrdered hop hlhs hrhs
  · split
    · exact within_reduceOrdered hop hrhs hlhs
    · split
      · exact within_reduceOrdered (voc.operator_swapped hop) hrhs hlhs
      · exact within_reduceOrdered hop hlhs hrhs
  · exact within_reduceOrdered hop hlhs hrhs

/-- Reduction stays within the vocabulary of an expression. -/
theorem within_reduce {e : Expr} (he : e.Within voc) : e.reduce.Within voc := by
  induction e with
  | const value => exact he
  | sym symbol => exact he
  | mem ptr size ih => exact ⟨he.1, ih he.2⟩
  | port p size ih => exact ⟨he.1, ih he.2⟩
  | unary op arg ih => exact within_reduceUnary (ih he)
  | binary op lhs rhs ihl ihr => exact within_reduceBinary he.1 (ihl he.2.1) (ihr he.2.2)

/-- Substituting values of a vocabulary stays within it. -/
theorem within_bind {binding : Binding} {e : Expr} (he : e.Within voc)
    (hbinding : ∀ symbol value, e.references symbol → binding.get? symbol = some value →
      value.Within voc) : (e.bind binding).Within voc := by
  induction e with
  | const value => exact he
  | sym symbol =>
      cases hvalue : binding.get? symbol with
      | none => simpa [bind, hvalue] using he
      | some value => simpa [bind, hvalue] using hbinding symbol value (by simp [references]) hvalue
  | mem ptr size ih => exact ⟨he.1, ih he.2 hbinding⟩
  | port p size ih => exact ⟨he.1, ih he.2 hbinding⟩
  | unary op arg ih => exact ih he hbinding
  | binary op lhs rhs ihl ihr =>
      simp only [references, Bool.or_eq_true] at hbinding
      exact ⟨he.1, ihl he.2.1 fun symbol value h => hbinding symbol value (Or.inl h),
        ihr he.2.2 fun symbol value h => hbinding symbol value (Or.inr h)⟩

/-- Every symbol that is mentioned belongs to the vocabulary. -/
theorem symbol_of_within {e : Expr} (he : e.Within voc) :
    ∀ symbol, e.references symbol → voc.symbol symbol := by
  induction e with
  | const value => simp [references]
  | sym symbol =>
      intro read hread
      obtain rfl : symbol = read := by simpa [references] using hread
      exact he
  | mem ptr size ih => exact ih he.2
  | port p size ih => exact ih he.2
  | unary op arg ih => exact ih he
  | binary op lhs rhs ihl ihr =>
      intro read hread
      simp only [references, Bool.or_eq_true] at hread
      exact hread.elim (ihl he.2.1 read) (ihr he.2.2 read)

end Expr

/-! ## Symbols and memory -/

/-- The expressions whose symbols satisfy a predicate. -/
def Vocabulary.ofSymbols (allowed : Symbol → Prop) : Vocabulary where
  constant _ := True
  symbol := allowed
  memory := True
  operator _ := True
  constant_word _ := trivial
  constant_mask _ _ := trivial
  operator_add := trivial
  operator_sub := trivial
  operator_mul := trivial
  operator_negate _ _ := trivial
  operator_swapped _ := trivial
  operator_merged _ _ := trivial

/-- The expressions that read neither memory nor ports. -/
def Vocabulary.memoryless : Vocabulary :=
  { Vocabulary.ofSymbols fun _ => True with memory := False, port := False }

namespace Expr

theorem within_ofSymbols_iff {allowed : Symbol → Prop} {e : Expr} :
    e.Within (.ofSymbols allowed) ↔ ∀ symbol, e.references symbol → allowed symbol := by
  induction e with
  | const value => simp [Within, references, Vocabulary.ofSymbols]
  | sym symbol => simp [Within, references, Vocabulary.ofSymbols]
  | mem ptr size ih => simpa [Within, references, Vocabulary.ofSymbols] using ih
  | port p size ih => simpa [Within, references, Vocabulary.ofSymbols] using ih
  | unary op arg ih => simpa [Within, references] using ih
  | binary op lhs rhs ihl ihr =>
      simp only [Within, ihl, ihr, references, Bool.or_eq_true, or_imp, forall_and]
      exact and_iff_right trivial

theorem within_memoryless_iff {e : Expr} :
    e.Within .memoryless ↔ e.readsMemory = false := by
  induction e with
  | const value => simp [Within, readsMemory, Vocabulary.memoryless, Vocabulary.ofSymbols]
  | sym symbol => simp [Within, readsMemory, Vocabulary.memoryless, Vocabulary.ofSymbols]
  | mem ptr size => simp [Within, readsMemory, Vocabulary.memoryless]
  | port p size => simp [Within, readsMemory, Vocabulary.memoryless]
  | unary op arg ih => simpa [Within, readsMemory] using ih
  | binary op lhs rhs ihl ihr =>
      simp only [Within, ihl, ihr, readsMemory, Bool.or_eq_false_iff]
      exact and_iff_right trivial

/-- Reduction mentions no new symbol. -/
theorem references_of_references_reduce {e : Expr} {symbol : Symbol}
    (hreduce : e.reduce.references symbol) : e.references symbol :=
  within_ofSymbols_iff.mp (within_reduce (within_ofSymbols_iff.mpr fun _ h => h)) symbol hreduce

theorem references_iff_mem_symbols {e : Expr} {symbol : Symbol} :
    e.references symbol ↔ symbol ∈ e.symbols := by
  induction e with
  | const value => simp [references, symbols]
  | sym other => simp [references, symbols, eq_comm]
  | mem ptr size ih => exact ih
  | port p size ih => exact ih
  | unary op arg ih => exact ih
  | binary op lhs rhs ihl ihr => simp [references, symbols, ihl, ihr]

end Expr

end Uncompile
