import Mathlib.RingTheory.Ideal.Span
import Mathlib.Tactic.LinearCombination
import Uncompile.Proofs.Expr.Affine

/-!
# Unknown values

The unknown value is a symbol like any other, so that reduction takes two occurrences of
it for the same word. If every occurrence is a word of its own, an expression can denote
several words. Reduction keeps all of them where it does not rely on occurrences being
equal: if there is one at most, or if telling them apart makes no difference to the
reduct.

For affine expressions this can be said exactly. What they can denote lies in a coset of
the ideal that the coefficients of the unknown value generate, and only multiples of the
sum of the coefficients are left in the reduct. An expression that is compared or
combined with itself loses all values but one.
-/

namespace Uncompile

/-! ## Words an expression can denote -/

namespace Expr

/-- The expression denotes the word for some choice of a word for each single occurrence
of the unknown value. -/
def Possible (v : Valuation) : Expr → Word → Prop
  | const value, w => w = toWord value
  | sym .unknown, _ => True
  | sym symbol, w => w = v.symbol symbol
  | mem ptr size, w => ∃ a, ptr.Possible v a ∧ w = v.mem a size
  | port p size, w => ∃ a, p.Possible v a ∧ w = v.port a size
  | unary op arg, w => ∃ a, arg.Possible v a ∧ w = op.apply a
  | binary op lhs rhs, w =>
    ∃ a b, lhs.Possible v a ∧ rhs.Possible v b ∧ w = op.value v.byZero a b

/-- Whatever the unknown values are, the reduct can denote the same word. -/
def KeepsChoices (v : Valuation) (e : Expr) : Prop :=
  ∀ w, e.Possible v w → e.reduce.Possible v w

end Expr

/-- The valuation in which the unknown value is a given word. -/
def Valuation.withUnknown (v : Valuation) (u : Word) : Valuation :=
  { v with symbol := Function.update v.symbol .unknown u }

namespace Valuation

variable (v : Valuation) (u : Word)

@[simp]
theorem withUnknown_unknown : (v.withUnknown u).symbol .unknown = u := by
  simp [withUnknown]

@[simp]
theorem withUnknown_of_ne {symbol : Symbol} (h : symbol ≠ .unknown) :
    (v.withUnknown u).symbol symbol = v.symbol symbol :=
  Function.update_of_ne h _ _

variable {v}

theorem FlagBits.withUnknown (h : v.FlagBits) : (v.withUnknown u).FlagBits := by
  intro f
  rw [withUnknown_of_ne v u (by simp)]
  exact h f

end Valuation

namespace Expr

variable {v : Valuation} {e : Expr} {w : Word}

theorem possible_sym_of_ne {symbol : Symbol} (h : symbol ≠ .unknown) :
    (sym symbol).Possible v w ↔ w = v.symbol symbol := by
  cases symbol with
  | unknown => exact absurd rfl h
  | _ => rfl

/-- The same word may be chosen everywhere. -/
theorem possible_eval (v : Valuation) (u : Word) (e : Expr) :
    e.Possible v (e.eval (v.withUnknown u)) := by
  induction e with
  | const value => rfl
  | sym symbol =>
      by_cases hunknown : symbol = .unknown
      · rw [hunknown]
        trivial
      · rw [possible_sym_of_ne hunknown, eval, Valuation.withUnknown_of_ne v u hunknown]
  | mem ptr size ih => exact ⟨_, ih, rfl⟩
  | port p size ih => exact ⟨_, ih, rfl⟩
  | unary op arg ih => exact ⟨_, ih, rfl⟩
  | binary op lhs rhs ihl ihr => exact ⟨_, _, ihl, ihr, rfl⟩

/-- Without the unknown value there is nothing to choose. -/
theorem eval_of_possible (hknown : e.references .unknown = false) (h : e.Possible v w)
    (u : Word) : e.eval (v.withUnknown u) = w := by
  induction e generalizing w with
  | const value => exact h.symm
  | sym symbol =>
      have hne : symbol ≠ .unknown := by simpa [references] using hknown
      rw [possible_sym_of_ne hne] at h
      rw [h, eval, Valuation.withUnknown_of_ne v u hne]
  | mem ptr size ih =>
      obtain ⟨a, ha, rfl⟩ := h
      rw [eval, ih hknown ha]
      rfl
  | port p size ih =>
      obtain ⟨a, ha, rfl⟩ := h
      rw [eval, ih hknown ha]
      rfl
  | unary op arg ih =>
      obtain ⟨a, ha, rfl⟩ := h
      rw [eval, ih hknown ha]
  | binary op lhs rhs ihl ihr =>
      obtain ⟨a, b, ha, hb, rfl⟩ := h
      rw [references, Bool.or_eq_false_iff] at hknown
      rw [eval, ihl hknown.1 ha, ihr hknown.2 hb]
      rfl

theorem references_unknown_eq_false (h : e.symbols.count .unknown = 0) :
    e.references .unknown = false := by
  rw [List.count_eq_zero, ← references_iff_mem_symbols] at h
  exact Bool.eq_false_of_not_eq_true h

/-- With one occurrence at most, a single word is chosen. -/
theorem exists_eval_of_possible (honce : e.symbols.count .unknown ≤ 1) (h : e.Possible v w) :
    ∃ u, e.eval (v.withUnknown u) = w := by
  induction e generalizing w with
  | const value => exact ⟨0, h.symm⟩
  | sym symbol =>
      by_cases hunknown : symbol = .unknown
      · refine ⟨w, ?_⟩
        rw [hunknown, eval, Valuation.withUnknown_unknown]
      · refine ⟨0, eval_of_possible ?_ h 0⟩
        simpa [references] using hunknown
  | mem ptr size ih =>
      obtain ⟨a, ha, rfl⟩ := h
      obtain ⟨u, rfl⟩ := ih honce ha
      exact ⟨u, rfl⟩
  | port p size ih =>
      obtain ⟨a, ha, rfl⟩ := h
      obtain ⟨u, rfl⟩ := ih honce ha
      exact ⟨u, rfl⟩
  | unary op arg ih =>
      obtain ⟨a, ha, rfl⟩ := h
      obtain ⟨u, rfl⟩ := ih honce ha
      exact ⟨u, rfl⟩
  | binary op lhs rhs ihl ihr =>
      obtain ⟨a, b, ha, hb, rfl⟩ := h
      rw [symbols, List.count_append] at honce
      -- the occurrence stands on one side, and the other side follows any choice
      rcases Nat.eq_zero_or_pos (lhs.symbols.count .unknown) with hlhs | hlhs
      · obtain ⟨u, rfl⟩ := ihr (by omega) hb
        have ha' := eval_of_possible (references_unknown_eq_false hlhs) ha u
        exact ⟨u, by rw [eval, ha']; rfl⟩
      · obtain ⟨u, rfl⟩ := ihl (by omega) ha
        have hb' := eval_of_possible (references_unknown_eq_false (by omega)) hb u
        exact ⟨u, by rw [eval, hb']; rfl⟩

theorem keepsChoices_of_count (hv : v.FlagBits) (he : e.Regular)
    (honce : e.symbols.count .unknown ≤ 1) : e.KeepsChoices v := by
  intro w hw
  obtain ⟨u, rfl⟩ := exists_eval_of_possible honce hw
  rw [← eval_reduce_of_regular (hv.withUnknown u) he]
  exact possible_eval v u e.reduce

end Expr

/-! ## Telling occurrences apart -/

/-- The valuation in which fresh names have the words that are chosen for them. -/
def Valuation.choosing (v : Valuation) (fresh : List String) (choice : String → Word) :
    Valuation :=
  { v with symbol := fun symbol =>
      match symbol with
      | .named name => if name ∈ fresh then choice name else v.symbol (.named name)
      | symbol => v.symbol symbol }

theorem Valuation.FlagBits.choosing {v : Valuation} (h : v.FlagBits) (fresh : List String)
    (choice : String → Word) : (v.choosing fresh choice).FlagBits :=
  h

namespace Expr

/-- Puts the unknown value in the place of fresh names. -/
def forget (fresh : List String) : Expr → Expr
  | const value => const value
  | sym (.named name) => if name ∈ fresh then sym .unknown else sym (.named name)
  | sym symbol => sym symbol
  | mem ptr size => mem (ptr.forget fresh) size
  | port p size => port (p.forget fresh) size
  | unary op arg => unary op (arg.forget fresh)
  | binary op lhs rhs => binary op (lhs.forget fresh) (rhs.forget fresh)

/-- An expression with a name of its own in the place of each occurrence of the unknown
value. -/
structure TellsApart (fresh : List String) (e told : Expr) : Prop where
  forget : told.forget fresh = e
  known : told.references .unknown = false
  once : ∀ name ∈ fresh, told.symbols.count (.named name) ≤ 1

/-- Reduction does the same if the occurrences of the unknown value are told apart. -/
def ReducesApart (e : Expr) : Prop :=
  ∃ fresh told, TellsApart fresh e told ∧ told.reduce.forget fresh = e.reduce

variable {fresh : List String} {v : Valuation} {e told : Expr} {w : Word}

section Forms

variable (fresh) (e)

@[simp]
theorem isBoolean_forget : (e.forget fresh).isBoolean = e.isBoolean := by
  cases e with
  | sym symbol =>
      cases symbol with
      | named name =>
          rw [forget]
          split <;> rfl
      | _ => rfl
  | unary op arg => cases op <;> rfl
  | _ => rfl

@[simp]
theorem equalityFree_forget : (e.forget fresh).equalityFree = e.equalityFree := by
  induction e with
  | sym symbol =>
      cases symbol with
      | named name =>
          rw [forget]
          split <;> rfl
      | _ => rfl
  | const value => rfl
  | mem ptr size ih | port p size ih | unary op arg ih => exact ih
  | binary op lhs rhs ihl ihr => simp only [forget, equalityFree, ihl, ihr]

@[simp]
theorem constantsFit_forget : (e.forget fresh).constantsFit = e.constantsFit := by
  induction e with
  | sym symbol =>
      cases symbol with
      | named name =>
          rw [forget]
          split <;> rfl
      | _ => rfl
  | const value => rfl
  | mem ptr size ih | port p size ih | unary op arg ih => exact ih
  | binary op lhs rhs ihl ihr => simp only [forget, constantsFit, ihl, ihr]

end Forms

theorem regular_of_forget (h : (e.forget fresh).Regular) : e.Regular := by
  induction e with
  | const value | sym symbol => trivial
  | mem ptr size ih | port p size ih | unary op arg ih => exact ih h
  | binary op lhs rhs ihl ihr =>
      obtain ⟨hequality, hlogical, hlhs, hrhs⟩ := h
      simp only [comparable, testable, isBoolean_forget, equalityFree_forget,
        constantsFit_forget] at hequality hlogical
      exact ⟨hequality, hlogical, ihl hlhs, ihr hrhs⟩

/-- Words for the fresh names are choices for what is forgotten. -/
theorem possible_forget (fresh : List String) (choice : String → Word) (e : Expr) :
    (e.forget fresh).Possible v (e.eval (v.choosing fresh choice)) := by
  induction e with
  | const value => rfl
  | sym symbol =>
      cases symbol with
      | named name =>
          rw [forget, eval, Valuation.choosing]
          dsimp only
          split
          · trivial
          · rfl
      | unknown => trivial
      | _ => rfl
  | mem ptr size ih => exact ⟨_, ih, rfl⟩
  | port p size ih => exact ⟨_, ih, rfl⟩
  | unary op arg ih => exact ⟨_, ih, rfl⟩
  | binary op lhs rhs ihl ihr => exact ⟨_, _, ihl, ihr, rfl⟩

/-- Only the words of the fresh names that are mentioned matter. -/
theorem eval_choosing_congr {choice other : String → Word}
    (h : ∀ name ∈ fresh, e.references (.named name) → choice name = other name) :
    e.eval (v.choosing fresh choice) = e.eval (v.choosing fresh other) := by
  apply eval_congr
  · intro symbol hsymbol
    cases symbol with
    | named name =>
        simp only [Valuation.choosing]
        split
        · exact h name ‹_› hsymbol
        · rfl
    | _ => rfl
  · exact fun _ => ⟨rfl, rfl⟩
  · rfl

/-- Choices for what is forgotten are words for the fresh names, if each stands once. -/
theorem exists_choice_of_possible (hknown : told.references .unknown = false)
    (honce : ∀ name ∈ fresh, told.symbols.count (.named name) ≤ 1)
    (h : (told.forget fresh).Possible v w) :
    ∃ choice, told.eval (v.choosing fresh choice) = w := by
  induction told generalizing w with
  | const value => exact ⟨0, h.symm⟩
  | sym symbol =>
      cases symbol with
      | named name =>
          refine ⟨fun _ => w, ?_⟩
          rw [forget] at h
          rw [eval, Valuation.choosing]
          dsimp only
          split
          · rfl
          · rename_i hname
            rw [if_neg hname] at h
            exact h.symm
      | unknown => simp [references] at hknown
      | _ => exact ⟨0, h.symm⟩
  | mem ptr size ih =>
      obtain ⟨a, ha, rfl⟩ := h
      obtain ⟨choice, rfl⟩ := ih hknown honce ha
      exact ⟨choice, rfl⟩
  | port p size ih =>
      obtain ⟨a, ha, rfl⟩ := h
      obtain ⟨choice, rfl⟩ := ih hknown honce ha
      exact ⟨choice, rfl⟩
  | unary op arg ih =>
      obtain ⟨a, ha, rfl⟩ := h
      obtain ⟨choice, rfl⟩ := ih hknown honce ha
      exact ⟨choice, rfl⟩
  | binary op lhs rhs ihl ihr =>
      obtain ⟨a, b, ha, hb, rfl⟩ := h
      rw [references, Bool.or_eq_false_iff] at hknown
      simp only [symbols, List.count_append] at honce
      obtain ⟨left, rfl⟩ := ihl hknown.1 (fun name hname => by have := honce name hname; omega) ha
      obtain ⟨right, rfl⟩ := ihr hknown.2 (fun name hname => by have := honce name hname; omega) hb
      -- each name stands on one side only
      let choice : String → Word := fun name =>
        if lhs.references (.named name) then left name else right name
      have hleft : lhs.eval (v.choosing fresh choice) = lhs.eval (v.choosing fresh left) :=
        eval_choosing_congr fun name _ hmentioned => if_pos hmentioned
      have hright : rhs.eval (v.choosing fresh choice) = rhs.eval (v.choosing fresh right) := by
        apply eval_choosing_congr
        intro name hname hmentioned
        apply if_neg
        intro hother
        rw [references_iff_mem_symbols, ← List.count_pos_iff] at hmentioned hother
        have := honce name hname
        omega
      exact ⟨choice, by rw [eval, hleft, hright]; rfl⟩

theorem keepsChoices_of_reducesApart (hv : v.FlagBits) (he : e.Regular)
    (hapart : e.ReducesApart) : e.KeepsChoices v := by
  obtain ⟨fresh, told, htells, hreduct⟩ := hapart
  intro w hw
  rw [← htells.forget] at hw he
  obtain ⟨choice, rfl⟩ := exists_choice_of_possible htells.known htells.once hw
  rw [← hreduct, ← eval_reduce_of_regular (hv.choosing fresh choice) (regular_of_forget he)]
  exact possible_forget fresh choice told.reduce

end Expr

/-! ## Affine expressions -/

namespace Linear

/-- The symbols of a sum stand in the order of its terms. -/
theorem symbols_joinTerms (previous : Option Expr) (terms : List (Expr × Int)) :
    ∀ e ∈ joinTerms previous terms,
      e.symbols.Sublist ((previous.map Expr.symbols).getD [] ++
        terms.flatMap fun t => t.1.symbols) := by
  induction terms generalizing previous with
  | nil =>
      rintro e he
      obtain rfl : previous = some e := he
      simp
  | cons head rest ih =>
      obtain ⟨term, coefficient⟩ := head
      have hfirst : (firstTerm term (wrap32 coefficient)).symbols = term.symbols := by
        unfold firstTerm
        split_ifs <;> simp [Expr.symbols]
      have hnext : ∀ sum, (nextTerm sum term (wrap32 coefficient)).symbols =
          sum.symbols ++ term.symbols := by
        intro sum
        unfold nextTerm
        split_ifs <;> simp [Expr.symbols]
      intro e he
      unfold joinTerms at he
      rw [List.flatMap_cons]
      split at he
      · refine (ih previous e he).trans ?_
        exact (List.sublist_append_right _ _).append_left _
      · cases previous with
        | none =>
            have := ih _ e he
            rw [Option.map_some, Option.getD_some, hfirst] at this
            simpa using this
        | some sum =>
            have := ih _ e he
            rw [Option.map_some, Option.getD_some, hnext, List.append_assoc] at this
            simpa using this

/-- A form over symbols mentions each of them once. -/
theorem Symbolic.nodup_symbols {form : Linear} (hform : form.Symbolic) :
    form.toExpr.symbols.Nodup := by
  have hterms : (form.terms.flatMap fun t => t.1.symbols).Nodup := by
    rw [List.nodup_flatMap]
    refine ⟨fun t ht => ?_, ?_⟩
    · obtain ⟨symbol, hsymbol⟩ := Expr.isSymbol_iff.mp (hform.isSymbol t ht)
      rw [hsymbol]
      exact List.nodup_singleton symbol
    · refine (List.pairwise_map.mp hform.distinct).imp_of_mem fun {t t'} ht ht' hne => ?_
      obtain ⟨symbol, hsymbol⟩ := Expr.isSymbol_iff.mp (hform.isSymbol t ht)
      obtain ⟨symbol', hsymbol'⟩ := Expr.isSymbol_iff.mp (hform.isSymbol t' ht')
      rw [hsymbol, hsymbol'] at hne
      simpa [Function.onFun, hsymbol, hsymbol', Expr.symbols, eq_comm] using hne
  have hjoin : ∀ e ∈ joinTerms none form.terms, e.symbols.Nodup := fun e he =>
    hterms.sublist (symbols_joinTerms none form.terms e he)
  unfold toExpr
  split
  · exact List.nodup_nil
  · rename_i sum hsum
    split
    · exact hjoin sum hsum
    · simpa [Expr.symbols] using hjoin sum hsum

end Linear

namespace Expr

/-- What each occurrence of the unknown value counts for in a multiple of an affine
expression. -/
def unknownCoefficients (scale : Word) : Expr → List Word
  | sym .unknown => [scale]
  | unary .neg arg => arg.unknownCoefficients (-scale)
  | binary .add lhs rhs => lhs.unknownCoefficients scale ++ rhs.unknownCoefficients scale
  | binary .sub lhs rhs => lhs.unknownCoefficients scale ++ rhs.unknownCoefficients (-scale)
  | binary .mul lhs (const k) => lhs.unknownCoefficients (scale * toWord k)
  | binary .mul (const k) rhs => rhs.unknownCoefficients (scale * toWord k)
  | _ => []

variable {v : Valuation} {e : Expr} {w : Word}

/-- Affine expressions of all other forms do not mention the unknown value. -/
theorem known_of_isAffine (he : e.isAffine) (hsym : e ≠ sym .unknown)
    (hneg : ∀ arg, e ≠ unary .neg arg) (hadd : ∀ lhs rhs, e ≠ binary .add lhs rhs)
    (hsub : ∀ lhs rhs, e ≠ binary .sub lhs rhs) (hmul : ∀ lhs k, e ≠ binary .mul lhs (const k))
    (hmul' : ∀ k rhs, e ≠ binary .mul (const k) rhs) : e.references .unknown = false := by
  unfold isAffine at he
  split at he
  · rfl
  · simpa [references] using hsym
  · exact absurd rfl (hneg _)
  · exact absurd rfl (hadd _ _)
  · exact absurd rfl (hsub _ _)
  · rename_i lhs rhs
    simp only [Bool.and_eq_true, Bool.or_eq_true] at he
    have hlhs : lhs.isConst = false := isConst_eq_false fun k hk => hmul' k rhs (by rw [hk])
    have hrhs : rhs.isConst = false := isConst_eq_false fun k hk => hmul lhs k (by rw [hk])
    simp [hlhs, hrhs] at he
  · cases he

theorem eval_withUnknown_of_known (hknown : e.references .unknown = false) (v : Valuation)
    (u u' : Word) : e.eval (v.withUnknown u) = e.eval (v.withUnknown u') :=
  eval_of_possible hknown (possible_eval v u' e) u

/-- One word for all occurrences is multiplied by the sum of the coefficients. -/
theorem eval_withUnknown (he : e.isAffine) (v : Valuation) (u scale : Word) :
    scale * e.eval (v.withUnknown u) =
      scale * e.eval (v.withUnknown 0) + (e.unknownCoefficients scale).sum * u := by
  fun_induction unknownCoefficients scale e with
  | case1 scale => simp [eval]
  | case2 scale arg ih =>
      have hneg : ∀ v', (unary .neg arg).eval v' = -arg.eval v' := fun _ => rfl
      rw [hneg, hneg]
      linear_combination ih he
  | case3 scale lhs rhs ihl ihr =>
      have hadd : ∀ v', (binary .add lhs rhs).eval v' = lhs.eval v' + rhs.eval v' := fun _ => rfl
      simp only [isAffine, Bool.and_eq_true] at he
      rw [hadd, hadd, List.sum_append]
      linear_combination ihl he.1 + ihr he.2
  | case4 scale lhs rhs ihl ihr =>
      have hsub : ∀ v', (binary .sub lhs rhs).eval v' = lhs.eval v' - rhs.eval v' := fun _ => rfl
      simp only [isAffine, Bool.and_eq_true] at he
      rw [hsub, hsub, List.sum_append]
      linear_combination ihl he.1 + ihr he.2
  | case5 scale lhs k ih =>
      have hmul : ∀ v', (binary .mul lhs (const k)).eval v' = lhs.eval v' * toWord k :=
        fun _ => rfl
      simp only [isAffine, Bool.and_eq_true] at he
      rw [hmul, hmul]
      linear_combination ih he.1.1
  | case6 scale k rhs hopen ih =>
      have hmul : ∀ v', (binary .mul (const k) rhs).eval v' = toWord k * rhs.eval v' :=
        fun _ => rfl
      simp only [isAffine, Bool.and_eq_true] at he
      rw [hmul, hmul]
      linear_combination ih he.1.2
  | case7 e scale hsym hneg hadd hsub hmul hmul' =>
      have hknown := known_of_isAffine he hsym hneg hadd hsub hmul hmul'
      rw [eval_withUnknown_of_known hknown v u 0, List.sum_nil, zero_mul, add_zero]

/-- Sums of members of two cosets make up the coset of the joint ideal. -/
theorem exists_sum_iff {P Q : Word → Prop} {cs ds : List Word} {s t p q : Word}
    (hP : ∀ y, (∃ a, P a ∧ y = s * a) ↔ y - s * p ∈ Ideal.span {c | c ∈ cs})
    (hQ : ∀ z, (∃ b, Q b ∧ z = t * b) ↔ z - t * q ∈ Ideal.span {d | d ∈ ds}) (x : Word) :
    (∃ a b, P a ∧ Q b ∧ x = s * a + t * b) ↔
      x - (s * p + t * q) ∈ Ideal.span {c | c ∈ cs ++ ds} := by
  have hunion : {c | c ∈ cs ++ ds} = {c | c ∈ cs} ∪ {d | d ∈ ds} := by
    ext c
    exact List.mem_append
  rw [hunion, Ideal.span_union, Submodule.mem_sup]
  constructor
  · rintro ⟨a, b, ha, hb, rfl⟩
    exact ⟨_, (hP _).mp ⟨a, ha, rfl⟩, _, (hQ _).mp ⟨b, hb, rfl⟩, by ring⟩
  · rintro ⟨y, hy, z, hz, hsum⟩
    obtain ⟨a, ha, hya⟩ := (hP (y + s * p)).mpr (by rwa [add_sub_cancel_right])
    obtain ⟨b, hb, hzb⟩ := (hQ (z + t * q)).mpr (by rwa [add_sub_cancel_right])
    exact ⟨a, b, ha, hb, by linear_combination hya + hzb - hsum⟩

/-- What a multiple of an affine expression can denote lies in a coset of the ideal of its
coefficients. -/
theorem possible_scaled_iff (he : e.isAffine) (v : Valuation) (scale x : Word) :
    (∃ a, e.Possible v a ∧ x = scale * a) ↔
      x - scale * e.eval (v.withUnknown 0) ∈
        Ideal.span {c | c ∈ e.unknownCoefficients scale} := by
  fun_induction unknownCoefficients scale e generalizing x with
  | case1 scale =>
      have hspan : {c | c ∈ [scale]} = {scale} := by simp
      rw [hspan, Ideal.mem_span_singleton', eval, Valuation.withUnknown_unknown, mul_zero, sub_zero]
      constructor
      · rintro ⟨a, _, rfl⟩
        exact ⟨a, mul_comm a scale⟩
      · rintro ⟨a, rfl⟩
        exact ⟨a, trivial, mul_comm a scale⟩
  | case2 scale arg ih =>
      have hbase : scale * (unary .neg arg).eval (v.withUnknown 0) =
        -scale * arg.eval (v.withUnknown 0) := (mul_neg _ _).trans (neg_mul _ _).symm
      rw [hbase, ← ih he x]
      constructor
      · rintro ⟨_, ⟨a, ha, rfl⟩, rfl⟩
        exact ⟨a, ha, (mul_neg scale a).trans (neg_mul scale a).symm⟩
      · rintro ⟨a, ha, rfl⟩
        exact ⟨-a, ⟨a, ha, rfl⟩, (neg_mul scale a).trans (mul_neg scale a).symm⟩
  | case3 scale lhs rhs ihl ihr =>
      simp only [isAffine, Bool.and_eq_true] at he
      have hbase : scale * (binary .add lhs rhs).eval (v.withUnknown 0) =
          scale * lhs.eval (v.withUnknown 0) + scale * rhs.eval (v.withUnknown 0) :=
        mul_add _ _ _
      rw [hbase, ← exists_sum_iff (ihl he.1) (ihr he.2)]
      constructor
      · rintro ⟨_, ⟨a, b, ha, hb, rfl⟩, rfl⟩
        exact ⟨a, b, ha, hb, mul_add scale a b⟩
      · rintro ⟨a, b, ha, hb, rfl⟩
        exact ⟨a + b, ⟨a, b, ha, hb, rfl⟩, (mul_add scale a b).symm⟩
  | case4 scale lhs rhs ihl ihr =>
      simp only [isAffine, Bool.and_eq_true] at he
      have hsub : ∀ a b : Word, scale * (a - b) = scale * a + -scale * b := by
        intro a b
        ring
      have hbase : scale * (binary .sub lhs rhs).eval (v.withUnknown 0) =
          scale * lhs.eval (v.withUnknown 0) + -scale * rhs.eval (v.withUnknown 0) :=
        hsub _ _
      rw [hbase, ← exists_sum_iff (ihl he.1) (ihr he.2)]
      constructor
      · rintro ⟨_, ⟨a, b, ha, hb, rfl⟩, rfl⟩
        exact ⟨a, b, ha, hb, hsub a b⟩
      · rintro ⟨a, b, ha, hb, rfl⟩
        exact ⟨a - b, ⟨a, b, ha, hb, rfl⟩, (hsub a b).symm⟩
  | case5 scale lhs k ih =>
      simp only [isAffine, Bool.and_eq_true] at he
      have hbase : (binary .mul lhs (const k)).eval (v.withUnknown 0) =
        lhs.eval (v.withUnknown 0) * toWord k := rfl
      rw [hbase, mul_comm (lhs.eval _), ← mul_assoc, ← ih he.1.1 x]
      constructor
      · rintro ⟨_, ⟨a, _, ha, rfl, rfl⟩, rfl⟩
        refine ⟨a, ha, ?_⟩
        change scale * (a * toWord k) = _
        ring
      · rintro ⟨a, ha, rfl⟩
        exact ⟨a * toWord k, ⟨a, _, ha, rfl, rfl⟩, by ring⟩
  | case6 scale k rhs hopen ih =>
      simp only [isAffine, Bool.and_eq_true] at he
      have hbase : (binary .mul (const k) rhs).eval (v.withUnknown 0) =
        toWord k * rhs.eval (v.withUnknown 0) := rfl
      rw [hbase, ← mul_assoc, ← ih he.1.2 x]
      constructor
      · rintro ⟨_, ⟨_, a, rfl, ha, rfl⟩, rfl⟩
        exact ⟨a, ha, (mul_assoc scale (toWord k) a).symm⟩
      · rintro ⟨a, ha, rfl⟩
        exact ⟨toWord k * a, ⟨_, a, rfl, ha, rfl⟩, mul_assoc scale (toWord k) a⟩
  | case7 e scale hsym hneg hadd hsub hmul hmul' =>
      have hknown := known_of_isAffine he hsym hneg hadd hsub hmul hmul'
      have hspan : {c : Word | c ∈ ([] : List Word)} = ∅ := by simp
      rw [hspan, Ideal.span_empty, Ideal.mem_bot, sub_eq_zero]
      constructor
      · rintro ⟨a, ha, rfl⟩
        rw [eval_of_possible hknown ha 0]
      · rintro rfl
        exact ⟨_, possible_eval v 0 e, rfl⟩

theorem possible_iff_of_isAffine (he : e.isAffine) :
    e.Possible v w ↔
      w - e.eval (v.withUnknown 0) ∈ Ideal.span {c | c ∈ e.unknownCoefficients 1} := by
  have hscaled := possible_scaled_iff he v 1 w
  simp only [one_mul, exists_eq_right'] at hscaled
  exact hscaled

/-- The reduct of an affine expression mentions the unknown value once at most. -/
theorem count_unknown_reduce (he : e.isAffine) : e.reduce.symbols.count .unknown ≤ 1 := by
  rcases normalises_reduce he with hconst | ⟨form, hform, _, hreduct⟩
  · rw [reduce_of_isConst hconst]
    cases e with
    | const value => exact Nat.zero_le 1
    | _ => cases hconst
  · rw [hreduct]
    exact List.nodup_iff_count_le_one.mp hform.nodup_symbols _

/-- What is left in the reduct are multiples of the sum of the coefficients. -/
theorem possible_reduce_iff_of_isAffine (he : e.isAffine) :
    e.reduce.Possible v w ↔
      (e.unknownCoefficients 1).sum ∣ w - e.eval (v.withUnknown 0) := by
  have heval : ∀ u, e.reduce.eval (v.withUnknown u) =
      e.eval (v.withUnknown 0) + (e.unknownCoefficients 1).sum * u := by
    intro u
    have hscaled := eval_withUnknown he v u 1
    rwa [one_mul, one_mul, ← eval_reduce_of_isAffine he] at hscaled
  constructor
  · intro hw
    obtain ⟨u, rfl⟩ := exists_eval_of_possible (count_unknown_reduce he) hw
    exact ⟨u, by rw [heval, add_sub_cancel_left]⟩
  · rintro ⟨u, hu⟩
    obtain rfl : w = e.reduce.eval (v.withUnknown u) := by
      rw [heval, ← hu, add_sub_cancel]
    exact possible_eval v u e.reduce

/-- Reduction of an affine expression keeps all choices if the sum of the coefficients
divides each of them, and only then. -/
theorem keepsChoices_iff_of_isAffine (he : e.isAffine) :
    e.KeepsChoices v ↔
      ∀ c ∈ e.unknownCoefficients 1, (e.unknownCoefficients 1).sum ∣ c := by
  constructor
  · intro hkeeps c hc
    have hpossible : e.Possible v (e.eval (v.withUnknown 0) + c) := by
      rw [possible_iff_of_isAffine he, add_sub_cancel_left]
      exact Ideal.subset_span hc
    have hreduct := (possible_reduce_iff_of_isAffine he).mp (hkeeps _ hpossible)
    rwa [add_sub_cancel_left] at hreduct
  · intro hdvd w hw
    rw [possible_iff_of_isAffine he] at hw
    rw [possible_reduce_iff_of_isAffine he, ← Ideal.mem_span_singleton]
    refine Ideal.span_le.mpr ?_ hw
    intro c hc
    exact Ideal.mem_span_singleton.mpr (hdvd c hc)

end Expr

/-! ## Operands that are the same expression -/

namespace BinOp

/-- The operators that reduction evaluates if both operands are the same expression. -/
def cancels (op : BinOp) : Bool := op.isComparison || op = .xor

variable {op : BinOp} {byZero : BinOp → Word → Word}

theorem truth_inj {p q : Bool} : truth p = truth q ↔ p = q := by
  cases p <;> cases q <;> decide

/-- Such an operator has one value for equal words. -/
theorem value_self_of_cancels (hop : op.cancels) (byZero : BinOp → Word → Word) (a : Word) :
    op.value byZero a a = truth op.holdsOfEqual := by
  rw [cancels, Bool.or_eq_true, decide_eq_true_eq] at hop
  rcases hop with hop | rfl
  · exact value_self hop a
  · exact BitVec.xor_self

theorem fold?_self (hop : op.cancels) (k : Int) :
    op.fold? k k = some (truth op.holdsOfEqual).toInt := by
  rw [← value_self_of_cancels hop (fun _ _ => 0) (toWord k)]
  cases op <;> simp only [cancels, isComparison, Bool.or_self, Bool.false_eq_true,
    reduceCtorEq, decide_false] at hop <;> rfl

/-- Only equal words give that value in both orders. -/
theorem eq_of_value_eq_truth (hop : op.cancels) {a b : Word}
    (hab : op.value byZero a b = truth op.holdsOfEqual)
    (hba : op.value byZero b a = truth op.holdsOfEqual) : a = b := by
  cases op <;> simp only [cancels, isComparison, Bool.or_self, Bool.false_eq_true,
    reduceCtorEq, decide_false] at hop <;>
    simp only [value, compute?, Option.getD_some, holdsOfEqual, truth_inj] at hab hba
  case eq | ne => simpa using hab
  case xor => exact BitVec.xor_eq_zero_iff.mp hab
  case lt | le | gt | ge =>
    simp only [BitVec.slt_eq_decide, BitVec.sle_eq_decide, decide_eq_true_eq,
      decide_eq_false_iff_not] at hab hba
    exact BitVec.eq_of_toInt_eq (by omega)
  case ult | ule | ugt | uge =>
    simp only [BitVec.ult_eq_decide, BitVec.ule_eq_decide, decide_eq_true_eq,
      decide_eq_false_iff_not] at hab hba
    exact BitVec.eq_of_toNat_eq (by omega)

end BinOp

namespace Expr

variable {op : BinOp} {v : Valuation}

theorem reduceOrdered_self (hop : op.cancels) (e : Expr) :
    reduceOrdered op e e = ofTruth op.holdsOfEqual := by
  have hcompared : ∀ op, reduceComparison op e e = ofTruth op.holdsOfEqual := by
    intro op
    rw [reduceComparison.eq_def, if_pos rfl]
  cases op <;> simp only [BinOp.cancels, BinOp.isComparison, Bool.or_self, Bool.false_eq_true,
    reduceCtorEq, decide_false] at hop
  case xor =>
    rw [reduceOrdered, if_pos rfl]
    split
    · assumption
    · rfl
  all_goals exact hcompared _

/-- The reduct is the constant that equal words give. -/
theorem reduce_self (hop : op.cancels) (e : Expr) :
    (binary op e e).reduce = ofTruth op.holdsOfEqual := by
  rw [reduce, reduceBinary.eq_def]
  split
  · rename_i k k' hk hk'
    obtain rfl : k = k' := const.inj (hk.symm.trans hk')
    rw [BinOp.fold?_self hop]
    cases op.holdsOfEqual <;> rfl
  · rename_i k hk hopen
    exact absurd hk (hopen k)
  · exact reduceOrdered_self hop _

/-- An expression that is compared or combined with itself keeps all choices exactly if
they all give it the same word. -/
theorem keepsChoices_self_iff (hop : op.cancels) (e : Expr) :
    (binary op e e).KeepsChoices v ↔ ∀ a b, e.Possible v a → e.Possible v b → a = b := by
  have hreduct : ∀ w, (binary op e e).reduce.Possible v w ↔ w = BinOp.truth op.holdsOfEqual := by
    intro w
    rw [reduce_self hop]
    cases op.holdsOfEqual <;> rfl
  constructor
  · intro hkeeps a b ha hb
    have hab : op.value v.byZero a b = BinOp.truth op.holdsOfEqual :=
      (hreduct _).mp (hkeeps _ ⟨a, b, ha, hb, rfl⟩)
    have hba : op.value v.byZero b a = BinOp.truth op.holdsOfEqual :=
      (hreduct _).mp (hkeeps _ ⟨b, a, hb, ha, rfl⟩)
    exact BinOp.eq_of_value_eq_truth hop hab hba
  · rintro hsame w ⟨a, b, ha, hb, rfl⟩
    rw [hreduct, hsame b a hb ha]
    exact BinOp.value_self_of_cancels hop v.byZero a

/-! ## Where reduction keeps all choices -/

/-- Reduction keeps every word that a regular expression can denote if the unknown value
stands in it once at most, or if its occurrences may be told apart without a difference
to the reduct. It keeps every word of an affine expression exactly if the sum of the
coefficients of the unknown value divides each of them, and every word of an expression
that is compared or combined with itself exactly if that expression can denote one word
only. -/
theorem reduce_unknown_choices (v : Valuation) (e : Expr) :
    (v.FlagBits → e.Regular → e.symbols.count .unknown ≤ 1 ∨ e.ReducesApart →
      e.KeepsChoices v) ∧
    (e.isAffine → (e.KeepsChoices v ↔
      ∀ c ∈ e.unknownCoefficients 1, (e.unknownCoefficients 1).sum ∣ c)) ∧
    ∀ op : BinOp, op.cancels →
      ((binary op e e).KeepsChoices v ↔ ∀ a b, e.Possible v a → e.Possible v b → a = b) := by
  refine ⟨?_, keepsChoices_iff_of_isAffine, fun op hop => keepsChoices_self_iff hop e⟩
  rintro hv he (honce | hapart)
  · exact keepsChoices_of_count hv he honce
  · exact keepsChoices_of_reducesApart hv he hapart

/-- The low byte of one unknown value joined with the next byte of another. -/
def joinedBytes : Expr :=
  binary .or (binary .and (sym .unknown) (const 0xff)) (binary .and (sym .unknown) (const 0xff00))

theorem reducesApart_joinedBytes : joinedBytes.ReducesApart :=
  ⟨["low", "high"], binary .or (binary .and (sym (.named "low")) (const 0xff))
    (binary .and (sym (.named "high")) (const 0xff00)),
    ⟨by decide, by decide, by decide⟩, by decide⟩

/-- Bytes of two unknown values stay independent, and so do two and three times an unknown
value, since five has an inverse. What is equal to itself is not. -/
theorem reduce_unknown_choices_bytes :
    joinedBytes.KeepsChoices (.ofSymbols 0) ∧
    (binary .add (binary .mul (sym .unknown) (const 2))
      (binary .mul (sym .unknown) (const 3))).KeepsChoices (.ofSymbols 0) ∧
    ¬ (binary .eq (sym .unknown) (sym .unknown)).KeepsChoices (.ofSymbols 0) := by
  refine ⟨?_, ?_, ?_⟩
  · have hregular : joinedBytes.Regular := regular_of_constantsFit (by decide) (by decide)
    exact (reduce_unknown_choices _ _).1 (fun _ => Or.inl rfl) hregular
      (Or.inr reducesApart_joinedBytes)
  · have hunit : IsUnit (([2, 3] : List Word).sum) := .of_mul_eq_one 3435973837 (by decide)
    exact ((reduce_unknown_choices _ _).2.1 rfl).mpr fun c _ => hunit.dvd
  · intro hkeeps
    have hsame := ((reduce_unknown_choices _ _).2.2 .eq rfl).mp hkeeps
    exact absurd (hsame 0 1 trivial trivial) (by decide)

/-- The difference of two unknown values can be one, but is reduced to zero. -/
theorem unknown_difference_cancelled :
    (binary .sub (sym .unknown) (sym .unknown)).reduce = const 0 ∧
    (binary .sub (sym .unknown) (sym .unknown)).Possible (.ofSymbols 0) 1 ∧
    ¬ (binary .sub (sym .unknown) (sym .unknown)).reduce.Possible (.ofSymbols 0) 1 := by
  have hreduce : (binary .sub (sym .unknown) (sym .unknown)).reduce = const 0 := by decide
  refine ⟨hreduce, ⟨1, 0, trivial, trivial, rfl⟩, ?_⟩
  rw [hreduce]
  exact fun h => absurd (show (1 : Word) = toWord 0 from h) (by decide)

end Expr

end Uncompile
