import Uncompile.Proofs.Expr.Canonical
import Uncompile.Proofs.Expr.Reduction

/-!
# Completeness of linear normalisation

An expression is affine if it is built from constants and symbols by sums,
differences, negation and multiplication by a constant. The reduct of such an
expression is written from a linear form over its symbols, and the coefficients
of that form can be read off its values: the constant is the value where every
symbol is zero, and a coefficient is what a single symbol at one adds to it. So
affine expressions with the same values have the same coefficients, and
reduction recognises a difference that is always zero and an address at a fixed
distance from the frame pointer.
-/

namespace Uncompile

/-! ## Affine expressions -/

namespace Expr

def isAffine : Expr → Bool
  | const _ => true
  | sym _ => true
  | unary .neg arg => arg.isAffine
  | binary .add lhs rhs => lhs.isAffine && rhs.isAffine
  | binary .sub lhs rhs => lhs.isAffine && rhs.isAffine
  | binary .mul lhs rhs => lhs.isAffine && rhs.isAffine && (lhs.isConst || rhs.isConst)
  | _ => false

def isSymbol (e : Expr) : Bool := e.asSymbol?.isSome

theorem isSymbol_iff {e : Expr} : e.isSymbol ↔ ∃ symbol, e = sym symbol := by
  cases e <;> simp [isSymbol, asSymbol?]

theorem isSymbol_of_isTerm {e : Expr} (he : e.isAffine) (hterm : Linear.isTerm e) :
    e.isSymbol := by
  unfold isAffine at he
  split at he <;> simp_all [Linear.isTerm, isSymbol, asSymbol?]

end Expr

namespace Linear

/-- A canonical form over symbols. -/
structure Symbolic (form : Linear) : Prop extends Canonical form where
  isSymbol : ∀ t ∈ form.terms, t.1.isSymbol

theorem isAffine_collect {form : Linear} (hform : ∀ t ∈ form.terms, t.1.isAffine) {scale : Int}
    {e : Expr} (he : e.isAffine) : ∀ t ∈ (form.collect scale e).terms, t.1.isAffine := by
  fun_induction collect form scale e with
  | case1 => exact hform
  | case2 form scale lhs rhs ihl ihr =>
      simp only [Expr.isAffine, Bool.and_eq_true] at he
      exact ihr (ihl hform he.1) he.2
  | case3 form scale lhs rhs ihl ihr =>
      simp only [Expr.isAffine, Bool.and_eq_true] at he
      exact ihr (ihl hform he.1) he.2
  | case4 form scale arg ih => exact ih hform he
  | case5 form scale lhs k ih =>
      simp only [Expr.isAffine, Bool.and_eq_true] at he
      exact ih hform he.1.1
  | case6 form scale k rhs _ ih =>
      simp only [Expr.isAffine, Bool.and_eq_true] at he
      exact ih hform he.1.2
  | case7 form scale term => exact addTo_stable (P := fun e => e.isAffine) he hform

theorem symbolic_wrapped_ofExpr {e : Expr} (he : e.isAffine) : (ofExpr e).wrapped.Symbolic where
  toCanonical := (proper_ofExpr e).canonical_wrapped
  isSymbol := by
    apply forall_mem_wrapped (P := fun e => e.isSymbol)
    intro t ht
    exact Expr.isSymbol_of_isTerm (isAffine_collect (by simp) he t ht)
      ((proper_ofExpr e).isTerm t ht)

theorem Symbolic.isAffine_toExpr {form : Linear} (hform : form.Symbolic) :
    form.toExpr.isAffine := by
  refine toExpr_induction (P := fun e => e.isAffine) (Q := fun e => e.isSymbol) (fun _ => rfl)
    (fun hlhs hrhs => by simp [Expr.isAffine, hlhs, hrhs]) ?first ?next hform.isSymbol
  case first =>
      intro term w hterm
      obtain ⟨symbol, rfl⟩ := Expr.isSymbol_iff.mp hterm
      unfold firstTerm
      split
      · rfl
      · split <;> rfl
  case next =>
      intro previous term w hprevious hterm
      obtain ⟨symbol, rfl⟩ := Expr.isSymbol_iff.mp hterm
      unfold nextTerm
      split
      · simp [Expr.isAffine, hprevious]
      · split <;> simp [Expr.isAffine, hprevious, Expr.isConst]

/-! ## Coefficients from values -/

theorem termsValue_eq_zero {v : Valuation} {terms : List (Expr × Int)}
    (hzero : ∀ t ∈ terms, t.1.eval v = 0) : termsValue v terms = 0 := by
  induction terms with
  | nil => rfl
  | cons head rest ih =>
      rw [List.forall_mem_cons] at hzero
      rw [termsValue, hzero.1, ih hzero.2, mul_zero, zero_add]

end Linear

/-- A valuation of the symbols, with nothing in memory. -/
def Valuation.ofSymbols (symbol : Symbol → Word) : Valuation where
  symbol := symbol
  mem _ _ := 0
  port _ _ := 0
  byZero _ _ := 0

/-- The valuation in which one symbol is one and all others are zero. -/
def Valuation.unit (symbol : Symbol) : Valuation := .ofSymbols (Pi.single symbol 1)

namespace Linear

theorem eval_unit_of_ne {symbol : Symbol} {term : Expr} (hterm : term.isSymbol)
    (hne : term ≠ .sym symbol) : term.eval (.unit symbol) = 0 := by
  obtain ⟨other, rfl⟩ := Expr.isSymbol_iff.mp hterm
  exact Pi.single_eq_of_ne (fun h => hne (congrArg Expr.sym h)) 1

theorem termsValue_unit_of_mem {terms : List (Expr × Int)} (hdistinct : (keys terms).Nodup)
    (hsymbol : ∀ t ∈ terms, t.1.isSymbol) {symbol : Symbol} {coefficient : Int}
    (hmem : (.sym symbol, coefficient) ∈ terms) :
    termsValue (.unit symbol) terms = toWord coefficient := by
  induction terms with
  | nil => cases hmem
  | cons head rest ih =>
      rw [List.forall_mem_cons] at hsymbol
      simp only [keys, List.map_cons, List.nodup_cons] at hdistinct
      rcases List.mem_cons.mp hmem with rfl | hrest
      · have hzero : termsValue (.unit symbol) rest = 0 := by
          apply termsValue_eq_zero
          intro t ht
          refine eval_unit_of_ne (hsymbol.2 t ht) fun hsame => hdistinct.1 ?_
          exact List.mem_map.mpr ⟨t, ht, hsame⟩
        have hone : (Expr.sym symbol).eval (.unit symbol) = 1 := Pi.single_eq_same symbol 1
        rw [termsValue, hone, hzero, mul_one, add_zero]
      · have hne : head.1 ≠ .sym symbol := fun hsame =>
          hdistinct.1 (hsame ▸ List.mem_map_of_mem hrest)
        rw [termsValue, eval_unit_of_ne hsymbol.1 hne, mul_zero, zero_add,
          ih hdistinct.2 hsymbol.2 hrest]

namespace Symbolic

variable {form other : Linear}

theorem value_zero (hform : form.Symbolic) :
    form.value (.ofSymbols 0) = toWord form.constant := by
  have hterms : termsValue (.ofSymbols 0) form.terms = 0 := by
    apply termsValue_eq_zero
    intro t ht
    obtain ⟨symbol, hsymbol⟩ := Expr.isSymbol_iff.mp (hform.isSymbol t ht)
    rw [hsymbol]
    rfl
  rw [value, hterms, zero_add]

/-- Forms with the same values have the same constant. -/
theorem constant_eq (hform : form.Symbolic) (hother : other.Symbolic)
    (hvalue : ∀ v, form.value v = other.value v) : form.constant = other.constant := by
  have hword : toWord form.constant = toWord other.constant := by
    rw [← hform.value_zero, hvalue, hother.value_zero]
  rw [← hform.constant, ← hother.constant, ← toInt_toWord, hword, toInt_toWord]

theorem termsValue_eq (hform : form.Symbolic) (hother : other.Symbolic)
    (hvalue : ∀ v, form.value v = other.value v) (v : Valuation) :
    termsValue v form.terms = termsValue v other.terms := by
  have hsum := hvalue v
  rw [value, value, hform.constant_eq hother hvalue] at hsum
  exact add_right_cancel hsum

theorem terms_subset (hform : form.Symbolic) (hother : other.Symbolic)
    (hvalue : ∀ v, form.value v = other.value v) : form.terms ⊆ other.terms := by
  rintro ⟨term, coefficient⟩ hmem
  obtain ⟨symbol, hterm⟩ := Expr.isSymbol_iff.mp (hform.isSymbol _ hmem)
  obtain rfl : term = .sym symbol := hterm
  have hwrapped : wrap32 coefficient = coefficient := hform.wrapped _ hmem
  have hunit : termsValue (.unit symbol) other.terms = toWord coefficient := by
    rw [← hform.termsValue_eq hother hvalue,
      termsValue_unit_of_mem hform.distinct hform.isSymbol hmem]
  have hkey : .sym symbol ∈ keys other.terms := by
    by_contra habsent
    have hzero : termsValue (.unit symbol) other.terms = 0 := by
      apply termsValue_eq_zero
      intro t ht
      exact eval_unit_of_ne (hother.isSymbol t ht) fun hsame =>
        habsent (hsame ▸ List.mem_map_of_mem ht)
    rw [hzero] at hunit
    exact hform.nonzero _ hmem (hwrapped ▸ (wrap32_eq_zero_iff coefficient).mpr hunit.symm)
  obtain ⟨⟨_, found⟩, hfound, rfl⟩ := List.mem_map.mp hkey
  have hwrappedFound : wrap32 found = found := hother.wrapped _ hfound
  have hword := termsValue_unit_of_mem hother.distinct hother.isSymbol hfound
  have hsame : coefficient = found := by
    rw [← hwrapped, ← hwrappedFound, ← toInt_toWord, ← hunit, hword, toInt_toWord]
  exact hsame ▸ hfound

/-- Forms with the same values have the same terms, up to their order. -/
theorem terms_perm (hform : form.Symbolic) (hother : other.Symbolic)
    (hvalue : ∀ v, form.value v = other.value v) : form.terms.Perm other.terms := by
  have hsubset := hform.terms_subset hother hvalue
  have hsupset := hother.terms_subset hform fun v => (hvalue v).symm
  exact (List.perm_ext_iff_of_nodup hform.distinct.of_map hother.distinct.of_map).mpr fun t =>
    ⟨fun ht => hsubset ht, fun ht => hsupset ht⟩

end Symbolic

end Linear

/-! ## Reducts of affine expressions -/

namespace Expr

/-- The expression is written from a form over symbols with the values of `e`. -/
def Normalises (e reduct : Expr) : Prop :=
  ∃ form : Linear, form.Symbolic ∧ (∀ v, form.value v = e.eval v) ∧ reduct = form.toExpr

theorem Normalises.congr {e other reduct : Expr} (h : e.Normalises reduct)
    (heval : ∀ v, e.eval v = other.eval v) : other.Normalises reduct := by
  obtain ⟨form, hform, hvalue, hreduct⟩ := h
  exact ⟨form, hform, fun v => (hvalue v).trans (heval v), hreduct⟩

theorem Normalises.isAffine {e reduct : Expr} (h : e.Normalises reduct) : reduct.isAffine := by
  obtain ⟨form, hform, _, rfl⟩ := h
  exact hform.isAffine_toExpr

theorem Normalises.eval_eq {e reduct : Expr} (h : e.Normalises reduct) (v : Valuation) :
    reduct.eval v = e.eval v := by
  obtain ⟨form, _, hvalue, rfl⟩ := h
  rw [Linear.eval_toExpr, hvalue]

theorem normalises_toExpr_ofExpr {e : Expr} (he : e.isAffine) :
    e.Normalises (Linear.ofExpr e).toExpr := by
  refine ⟨(Linear.ofExpr e).wrapped, Linear.symbolic_wrapped_ofExpr he, ?_,
    (Linear.toExpr_wrapped _).symm⟩
  intro v
  rw [← Linear.eval_toExpr, Linear.toExpr_wrapped, Linear.eval_toExpr_ofExpr]

theorem normalises_const (w : Word) : (const w.toInt).Normalises (const w.toInt) := by
  have hwrapped : wrap32 w.toInt = w.toInt := by rw [← toInt_toWord, toWord_toInt]
  have hconst := normalises_toExpr_ofExpr (e := const w.toInt) rfl
  simpa [Linear.ofExpr, Linear.collect, Linear.toExpr, Linear.joinTerms, hwrapped] using hconst

theorem normalises_reduceNeg {arg : Expr} (harg : arg.isAffine) :
    (unary .neg arg).Normalises (reduceUnary .neg arg) := by
  unfold reduceUnary
  split
  · exact (normalises_const _).congr fun v => toWord_toInt _
  · exact normalises_toExpr_ofExpr harg
  all_goals simp_all

theorem normalises_reduceOrdered {op : BinOp} {lhs rhs : Expr}
    (he : (binary op lhs rhs).isAffine) (hmul : op = .mul → rhs.isConst) :
    (binary op lhs rhs).Normalises (reduceOrdered op lhs rhs) := by
  cases op with
  | add | sub => exact normalises_toExpr_ofExpr he
  | mul =>
      rw [reduceOrdered, if_pos (hmul rfl)]
      exact normalises_toExpr_ofExpr he
  | _ => simp [isAffine] at he

theorem normalises_reduceBinary {op : BinOp} {lhs rhs : Expr}
    (he : (binary op lhs rhs).isAffine) :
    (binary op lhs rhs).Normalises (reduceBinary op lhs rhs) := by
  have hop : op = .add ∨ op = .sub ∨ op = .mul := by
    cases op <;> simp [isAffine] at he ⊢
  unfold reduceBinary
  split
  · rename_i a b
    rcases hop with rfl | rfl | rfl <;>
      exact (normalises_const _).congr fun v => toWord_toInt _
  · rename_i a _
    split
    · rename_i hcomm
      have hturned : (binary op rhs (const a)).isAffine := by
        rcases hop with rfl | rfl | rfl <;> simp_all [isAffine, isConst]
      exact (normalises_reduceOrdered hturned fun _ => rfl).congr fun v =>
        BinOp.value_comm hcomm _ _
    · rename_i hcomm
      obtain rfl : op = .sub := by
        rcases hop with rfl | rfl | rfl <;> simp [BinOp.isCommutative] at hcomm ⊢
      exact normalises_reduceOrdered he (by simp)
  · rename_i hopen _
    apply normalises_reduceOrdered he
    rintro rfl
    simp only [isAffine, isConst_eq_false hopen, Bool.false_or, Bool.and_eq_true] at he
    exact he.2

theorem reduce_of_isConst {e : Expr} (he : e.isConst) : e.reduce = e := by
  cases e with
  | const value => rfl
  | _ => cases he

/-- What the operands of a reduction are like. -/
theorem reduct_of_normalises {e : Expr} (he : e.isAffine)
    (hreduct : e.isConst ∨ e.Normalises e.reduce) :
    e.reduce.isAffine ∧ ∀ v, e.reduce.eval v = e.eval v := by
  rcases hreduct with hconst | hnormal
  · rw [reduce_of_isConst hconst]
    exact ⟨he, fun v => rfl⟩
  · exact ⟨hnormal.isAffine, hnormal.eval_eq⟩

/-- A constant is left as it is, and need not be a signed word. -/
theorem normalises_reduce {e : Expr} (he : e.isAffine) : e.isConst ∨ e.Normalises e.reduce := by
  induction e with
  | const value => exact Or.inl rfl
  | sym symbol => exact Or.inr (normalises_toExpr_ofExpr he)
  | mem ptr size | port p size => cases he
  | unary op arg ih =>
      cases op with
      | neg =>
          obtain ⟨harg, heval⟩ := reduct_of_normalises (e := arg) he (ih he)
          exact Or.inr ((normalises_reduceNeg harg).congr fun v => by simp only [eval, heval])
      | _ => cases he
  | binary op lhs rhs ihl ihr =>
      have hparts : lhs.isAffine ∧ rhs.isAffine := by
        cases op <;> simp_all [isAffine]
      obtain ⟨hlhs, hevalLhs⟩ := reduct_of_normalises hparts.1 (ihl hparts.1)
      obtain ⟨hrhs, hevalRhs⟩ := reduct_of_normalises hparts.2 (ihr hparts.2)
      have hreduced : (binary op lhs.reduce rhs.reduce).isAffine := by
        cases op with
        | add | sub => simp [isAffine, hlhs, hrhs]
        | mul =>
            simp only [isAffine, hparts, hlhs, hrhs, Bool.and_self, Bool.true_and,
              Bool.or_eq_true] at he ⊢
            exact he.imp (fun h => by rwa [reduce_of_isConst h])
              (fun h => by rwa [reduce_of_isConst h])
        | _ => cases he
      exact Or.inr ((normalises_reduceBinary hreduced).congr fun v => by
        simp only [eval, hevalLhs, hevalRhs])

theorem eval_reduce_of_isAffine {e : Expr} (he : e.isAffine) (v : Valuation) :
    e.reduce.eval v = e.eval v :=
  (reduct_of_normalises he (normalises_reduce he)).2 v

/-! ## Differences and frame addresses -/

theorem reduce_sub_eq_zero_iff {lhs rhs : Expr} (hlhs : lhs.isAffine) (hrhs : rhs.isAffine) :
    (binary .sub lhs rhs).reduce = const 0 ↔ ∀ v, lhs.eval v = rhs.eval v := by
  have hsub : (binary .sub lhs rhs).isAffine := by simp [isAffine, hlhs, hrhs]
  have hdifference (v : Valuation) : (binary .sub lhs rhs).eval v = lhs.eval v - rhs.eval v := rfl
  constructor
  · intro hzero v
    have hvalue := eval_reduce_of_isAffine hsub v
    rw [hzero, hdifference] at hvalue
    exact (sub_eq_zero.mp hvalue.symm)
  · intro hequal
    obtain hconst | ⟨form, hform, hvalue, hreduct⟩ := normalises_reduce hsub
    · cases hconst
    · have hempty : Linear.Symbolic {} :=
        ⟨⟨Linear.proper_empty, by simp, by simp, rfl⟩, by simp⟩
      have hzero (v : Valuation) : form.value v = ({} : Linear).value v := by
        rw [hvalue, hdifference, hequal, sub_self]
        rfl
      have hterms := (hform.terms_perm hempty hzero).eq_nil
      rw [hreduct, Linear.toExpr, hterms, hform.constant_eq hempty hzero]
      rfl

/-- The form of an address at a distance from the frame pointer. -/
def frameForm (offset : Int) : Linear where
  terms := [(sym .framePtr, 1)]
  constant := offset

theorem symbolic_frameForm {offset : Int} (hwrapped : wrap32 offset = offset) :
    (frameForm offset).Symbolic where
  distinct := List.nodup_singleton _
  isTerm := by simp [frameForm, Linear.isTerm]
  wrapped := by simp [frameForm, wrap32]
  nonzero := by simp [frameForm]
  constant := hwrapped
  isSymbol := by simp [frameForm, isSymbol, asSymbol?]

theorem value_frameForm (offset : Int) (v : Valuation) :
    (frameForm offset).value v = v.symbol .framePtr + toWord offset := by
  simp [Linear.value, frameForm, Linear.termsValue, eval]

theorem toExpr_frameForm {offset : Int} (hwrapped : wrap32 offset = offset) :
    (frameForm offset).toExpr = frame offset := by
  have hone : wrap32 1 = 1 := rfl
  simp [frameForm, Linear.toExpr, Linear.joinTerms, Linear.firstTerm, hone, hwrapped, frame, add]

theorem reduce_eq_frame_iff {e : Expr} (he : e.isAffine) {offset : Int}
    (hwrapped : wrap32 offset = offset) :
    e.reduce = frame offset ↔ ∀ v, e.eval v = v.symbol .framePtr + toWord offset := by
  constructor
  · intro hframe v
    rw [← eval_reduce_of_isAffine he, hframe, ← toExpr_frameForm hwrapped, Linear.eval_toExpr,
      value_frameForm]
  · intro heval
    obtain hconst | ⟨form, hform, hvalue, hreduct⟩ := normalises_reduce he
    · -- a constant does not follow the frame pointer
      cases e with
      | const value =>
          have hone : toWord value = 1 + toWord offset := heval (.ofSymbols 1)
          have hzero : toWord value = 0 + toWord offset := heval (.ofSymbols 0)
          exact absurd (add_right_cancel (hone.symm.trans hzero)) (by decide)
      | _ => cases hconst
    · have hframe := symbolic_frameForm hwrapped
      have hsame (v : Valuation) : form.value v = (frameForm offset).value v := by
        rw [hvalue, heval, value_frameForm]
      obtain ⟨terms, constant⟩ := form
      obtain rfl : terms = [(sym .framePtr, 1)] :=
        List.perm_singleton.mp (hform.terms_perm hframe hsame)
      obtain rfl : constant = offset := hform.constant_eq hframe hsame
      rw [hreduct, ← toExpr_frameForm hwrapped, frameForm]

/-- The difference of two affine expressions reduces to zero exactly if they
always agree, and an affine expression reduces to a frame address exactly if it
always is that address. -/
theorem reduce_affine_complete {lhs rhs e : Expr} (hlhs : lhs.isAffine) (hrhs : rhs.isAffine)
    (he : e.isAffine) {k : Int} (hlow : -2147483648 ≤ k) (hhigh : k < 2147483648) :
    ((binary .sub lhs rhs).reduce = const 0 ↔ ∀ v, lhs.eval v = rhs.eval v) ∧
      ((∀ v, e.eval v = v.symbol .framePtr + toWord k) ↔ e.reduce = frame k) ∧
      (e.reduce = frame k → e.reduce.frameOffset? = some k) := by
  have hwrapped : wrap32 k = k := Int.bmod_eq_of_le (by omega) (by omega)
  refine ⟨reduce_sub_eq_zero_iff hlhs hrhs, (reduce_eq_frame_iff he hwrapped).symm, ?_⟩
  intro hframe
  rw [hframe, frameOffset?_frame]

/-- Twice `eax - 3` is `eax + eax - 6`, and `4 - (8 - fp)` is the slot four bytes
below the frame pointer. -/
theorem reduce_affine_complete_slot :
    (∀ v, (binary .mul (const 2) (binary .sub (reg .eax) (const 3))).eval v =
        (binary .sub (binary .add (reg .eax) (reg .eax)) (const 6)).eval v) ∧
      (binary .sub (const 4) (binary .sub (const 8) (sym .framePtr))).reduce = frame (-4) ∧
      (binary .sub (const 4) (binary .sub (const 8) (sym .framePtr))).reduce.frameOffset? =
        some (-4) := by
  have hdoubled : (binary .mul (const 2) (binary .sub (reg .eax) (const 3))).isAffine := rfl
  have hsum : (binary .sub (binary .add (reg .eax) (reg .eax)) (const 6)).isAffine := rfl
  have hslot : (binary .sub (const 4) (binary .sub (const 8) (sym .framePtr))).isAffine := rfl
  have hvalue (v : Valuation) :
      (binary .sub (const 4) (binary .sub (const 8) (sym .framePtr))).eval v =
        v.symbol .framePtr + toWord (-4) := by
    change toWord 4 - (toWord 8 - v.symbol .framePtr) = _
    have hnumbers : toWord 4 - toWord 8 = toWord (-4) := by decide
    rw [← hnumbers]
    ring
  obtain ⟨hzero, hframe, hoffset⟩ :=
    reduce_affine_complete hdoubled hsum hslot (show -2147483648 ≤ (-4 : Int) by decide) (by decide)
  exact ⟨hzero.mp (by decide), hframe.mp hvalue, hoffset (hframe.mp hvalue)⟩

end Expr

end Uncompile
