import Mathlib.Data.List.Induction
import Mathlib.Data.List.Nodup
import Uncompile.Proofs.Expr.Vocabulary

/-!
# Canonical linear forms

A linear form is canonical if its terms are distinct, none of them is itself
linear, and all numbers are signed words, the coefficients other than zero.
Reading the expression of a canonical form gives the form again, so writing an
expression as a linear form twice is the same as doing it once.
-/

namespace Uncompile

theorem wrap32_wrap32 (value : Int) : wrap32 (wrap32 value) = wrap32 value := by
  rw [← toInt_toWord, toWord_wrap32, toInt_toWord]

theorem Expr.isConst_eq_false {e : Expr} (he : ∀ value, e ≠ .const value) : e.isConst = false := by
  cases e with
  | const value => exact absurd rfl (he value)
  | _ => rfl

namespace Linear

/-- What a form takes as a term: neither a constant nor a sum, a difference, a
negation or a multiple by a constant. -/
def isTerm : Expr → Bool
  | .const _ => false
  | .unary .neg _ => false
  | .binary .add _ _ => false
  | .binary .sub _ _ => false
  | .binary .mul lhs rhs => !lhs.isConst && !rhs.isConst
  | _ => true

/-- The terms without their coefficients. -/
abbrev keys (terms : List (Expr × Int)) : List Expr := terms.map Prod.fst

/-- Distinct terms. -/
structure Proper (form : Linear) : Prop where
  distinct : (keys form.terms).Nodup
  isTerm : ∀ t ∈ form.terms, isTerm t.1

structure Canonical (form : Linear) : Prop extends Proper form where
  wrapped : ∀ t ∈ form.terms, wrap32 t.2 = t.2
  nonzero : ∀ t ∈ form.terms, t.2 ≠ 0
  constant : wrap32 form.constant = form.constant

/-- The form with its numbers wrapped and without the terms that this cancels. -/
def wrapped (form : Linear) : Linear where
  terms := (form.terms.map fun t => (t.1, wrap32 t.2)).filter fun t => t.2 ≠ 0
  constant := wrap32 form.constant

/-! ## Collecting -/

theorem keys_addTo (term : Expr) (scale : Int) (terms : List (Expr × Int)) :
    keys (addTo term scale terms) = OrderedSet.add (keys terms) term := by
  induction terms with
  | nil => rfl
  | cons head rest ih =>
      obtain ⟨other, coefficient⟩ := head
      unfold addTo
      split
      · rename_i hsame
        simp [keys, OrderedSet.add, hsame]
      · rename_i hother
        simp only [keys, OrderedSet.add, List.map_cons, List.mem_cons, Ne.symm hother,
          false_or] at ih ⊢
        rw [ih]
        split <;> rfl

/-- A new term is added at the end. -/
theorem addTo_of_notMem {term : Expr} {terms : List (Expr × Int)} (hnew : term ∉ keys terms)
    (scale : Int) : addTo term scale terms = terms ++ [(term, scale)] := by
  induction terms with
  | nil => rfl
  | cons head rest ih =>
      obtain ⟨other, coefficient⟩ := head
      simp only [keys, List.map_cons, List.mem_cons, not_or] at hnew
      rw [addTo, if_neg (Ne.symm hnew.1), ih hnew.2]
      rfl

theorem collect_of_isTerm {e : Expr} (he : isTerm e) (form : Linear) (scale : Int) :
    form.collect scale e = form.addTerm e scale := by
  unfold collect
  split <;> simp_all [isTerm, Expr.isConst]

theorem Proper.addTerm {form : Linear} (hform : form.Proper) {term : Expr}
    (hterm : Linear.isTerm term) (scale : Int) : (form.addTerm term scale).Proper where
  distinct := by
    rw [Linear.addTerm, keys_addTo]
    exact OrderedSet.nodup_add hform.distinct term
  isTerm := addTo_stable (P := fun e => Linear.isTerm e) hterm hform.isTerm

theorem Proper.collect {form : Linear} (hform : form.Proper) (scale : Int) (e : Expr) :
    (form.collect scale e).Proper := by
  fun_induction Linear.collect form scale e with
  | case1 => exact ⟨hform.distinct, hform.isTerm⟩
  | case2 form scale lhs rhs ihl ihr => exact ihr (ihl hform)
  | case3 form scale lhs rhs ihl ihr => exact ihr (ihl hform)
  | case4 form scale arg ih => exact ih hform
  | case5 form scale lhs k ih => exact ih hform
  | case6 form scale k rhs _ ih => exact ih hform
  | case7 form scale term hconst hadd hsub hneg hright hleft =>
      apply hform.addTerm
      unfold Linear.isTerm
      split
      · exact absurd rfl (hconst _)
      · exact absurd rfl (hneg _)
      · exact absurd rfl (hadd _ _)
      · exact absurd rfl (hsub _ _)
      · rename_i lhs rhs
        have hlhs : lhs.isConst = false :=
          Expr.isConst_eq_false fun value hvalue => hleft value rhs (by rw [hvalue])
        have hrhs : rhs.isConst = false :=
          Expr.isConst_eq_false fun value hvalue => hright lhs value (by rw [hvalue])
        simp [hlhs, hrhs]
      · rfl

theorem proper_empty : ({} : Linear).Proper := ⟨List.nodup_nil, List.forall_mem_nil _⟩

theorem proper_ofExpr (e : Expr) : (ofExpr e).Proper := proper_empty.collect 1 e

/-- Wrapping brings in no term. -/
theorem forall_mem_wrapped {P : Expr → Prop} {form : Linear} (hform : ∀ t ∈ form.terms, P t.1) :
    ∀ t ∈ form.wrapped.terms, P t.1 := by
  intro t ht
  obtain ⟨u, hu, rfl⟩ := List.mem_map.mp (List.mem_of_mem_filter ht)
  exact hform u hu

theorem Proper.canonical_wrapped {form : Linear} (hform : form.Proper) :
    form.wrapped.Canonical where
  distinct := by
    have hkeys : (form.terms.map fun t => (t.1, wrap32 t.2)).map Prod.fst = keys form.terms := by
      simp [keys]
    have hkept : (keys form.wrapped.terms).Sublist (keys form.terms) :=
      hkeys ▸ List.filter_sublist.map Prod.fst
    exact hkept.nodup hform.distinct
  isTerm := forall_mem_wrapped (P := fun e => Linear.isTerm e) hform.isTerm
  wrapped := by
    intro t ht
    obtain ⟨u, _, rfl⟩ := List.mem_map.mp (List.mem_of_mem_filter ht)
    exact wrap32_wrap32 u.2
  nonzero := by
    intro t ht
    simpa using (List.mem_filter.mp ht).2
  constant := wrap32_wrap32 _

/-! ## Writing and reading -/

theorem joinTerms_wrapped (previous : Option Expr) (terms : List (Expr × Int)) :
    joinTerms previous ((terms.map fun t => (t.1, wrap32 t.2)).filter fun t => t.2 ≠ 0) =
      joinTerms previous terms := by
  induction terms generalizing previous with
  | nil => rfl
  | cons head rest ih =>
      obtain ⟨term, coefficient⟩ := head
      by_cases hzero : wrap32 coefficient = 0
      · simp only [List.map_cons, joinTerms, hzero, if_true, ← ih previous]
        simp
      · rw [List.map_cons, List.filter_cons_of_pos (by simpa using hzero)]
        simp only [joinTerms, wrap32_wrap32, hzero, if_false]
        cases previous <;> simp only [ih]

/-- Wrapping is what writing does anyway. -/
theorem toExpr_wrapped (form : Linear) : form.wrapped.toExpr = form.toExpr := by
  simp only [toExpr, wrapped, joinTerms_wrapped, wrap32_wrap32]

theorem joinTerms_append (previous : Option Expr) (first second : List (Expr × Int)) :
    joinTerms previous (first ++ second) = joinTerms (joinTerms previous first) second := by
  induction first generalizing previous with
  | nil => rfl
  | cons head rest ih =>
      obtain ⟨term, coefficient⟩ := head
      simp only [List.cons_append, joinTerms]
      split
      · exact ih previous
      · cases previous with
        | none => exact ih _
        | some sum => exact ih _

theorem isSome_joinTerms (sum : Expr) (terms : List (Expr × Int)) :
    (joinTerms (some sum) terms).isSome := by
  induction terms generalizing sum with
  | nil => rfl
  | cons head rest ih =>
      obtain ⟨term, coefficient⟩ := head
      rw [joinTerms]
      split
      · exact ih sum
      · exact ih _

/-! ## Writing a canonical form -/

namespace Canonical

theorem sublist {terms kept : List (Expr × Int)} {constant : Int}
    (hform : Canonical { terms, constant }) (hkept : kept.Sublist terms) :
    Canonical { terms := kept } where
  distinct := (hkept.map Prod.fst).nodup hform.distinct
  isTerm t ht := hform.isTerm t (hkept.subset ht)
  wrapped t ht := hform.wrapped t (hkept.subset ht)
  nonzero t ht := hform.nonzero t (hkept.subset ht)
  constant := rfl

theorem joinTerms_eq {terms : List (Expr × Int)} (hform : Canonical { terms }) (hne : terms ≠ []) :
    joinTerms none terms = some (toExpr { terms }) := by
  have hsome : (joinTerms none terms).isSome := by
    cases terms with
    | nil => exact absurd rfl hne
    | cons head rest =>
        obtain ⟨term, coefficient⟩ := head
        have hmem : (term, coefficient) ∈ (term, coefficient) :: rest := List.mem_cons_self
        have hwrapped : wrap32 coefficient = coefficient := hform.wrapped _ hmem
        rw [joinTerms, hwrapped, if_neg (hform.nonzero _ hmem)]
        exact isSome_joinTerms _ rest
  obtain ⟨sum, hsum⟩ := Option.isSome_iff_exists.mp hsome
  simp [toExpr, hsum, wrap32]

theorem toExpr_const {constant : Int} (hform : Canonical { constant }) :
    toExpr { constant } = .const constant :=
  congrArg Expr.const hform.constant

theorem toExpr_single {term : Expr} {coefficient : Int}
    (hform : Canonical { terms := [(term, coefficient)] }) :
    toExpr { terms := [(term, coefficient)] } = firstTerm term coefficient := by
  have hmem : (term, coefficient) ∈ [(term, coefficient)] := List.mem_singleton_self _
  have hwrapped : wrap32 coefficient = coefficient := hform.wrapped _ hmem
  have hjoin := hform.joinTerms_eq (List.cons_ne_nil _ _)
  rw [joinTerms, hwrapped, if_neg (hform.nonzero _ hmem)] at hjoin
  exact (Option.some.inj hjoin).symm

theorem toExpr_concat {terms : List (Expr × Int)} {term : Expr} {coefficient : Int}
    (hform : Canonical { terms := terms ++ [(term, coefficient)] }) (hne : terms ≠ []) :
    toExpr { terms := terms ++ [(term, coefficient)] } =
      nextTerm (toExpr { terms }) term coefficient := by
  have hmem : (term, coefficient) ∈ terms ++ [(term, coefficient)] := by simp
  have hwrapped : wrap32 coefficient = coefficient := hform.wrapped _ hmem
  have hbefore := (hform.sublist (List.sublist_append_left terms _)).joinTerms_eq hne
  have hjoin := hform.joinTerms_eq (by simp)
  rw [joinTerms_append, hbefore, joinTerms, hwrapped, if_neg (hform.nonzero _ hmem)] at hjoin
  exact (Option.some.inj hjoin).symm

theorem toExpr_add {terms : List (Expr × Int)} {constant : Int}
    (hform : Canonical { terms, constant }) (hne : terms ≠ []) (hconstant : constant ≠ 0) :
    toExpr { terms, constant } = .binary .add (toExpr { terms }) (.const constant) := by
  have hwrapped : wrap32 constant = constant := hform.constant
  have hbefore := (hform.sublist (List.Sublist.refl terms)).joinTerms_eq hne
  rw [toExpr, hbefore]
  simp only [hwrapped, hconstant, if_false]

/-- A canonical form is a constant, or has a first term, further terms and then
perhaps a constant. -/
theorem induction {P : Linear → Prop}
    (const : ∀ {constant}, Canonical { constant } → P { constant })
    (single : ∀ {term coefficient}, Canonical { terms := [(term, coefficient)] } →
      P { terms := [(term, coefficient)] })
    (concat : ∀ {terms term coefficient}, terms ≠ [] →
      Canonical { terms := terms ++ [(term, coefficient)] } → P { terms } →
      P { terms := terms ++ [(term, coefficient)] })
    (add : ∀ {terms constant}, terms ≠ [] → constant ≠ 0 → Canonical { terms, constant } →
      P { terms } → P { terms, constant })
    {form : Linear} (hform : form.Canonical) : P form := by
  obtain ⟨terms, constant⟩ := form
  have hterms : ∀ {terms : List (Expr × Int)}, Canonical { terms } → P { terms } := by
    intro terms hform
    induction terms using List.reverseRecOn with
    | nil => exact const hform
    | append_singleton rest head ih =>
        by_cases hrest : rest = []
        · subst hrest
          exact single hform
        · exact concat hrest hform (ih (hform.sublist (List.sublist_append_left rest _)))
  by_cases hconstant : constant = 0
  · subst hconstant
    exact hterms hform
  · by_cases hne : terms = []
    · subst hne
      exact const hform
    · exact add hne hconstant hform (hterms (hform.sublist (List.Sublist.refl terms)))

end Canonical

/-! ## Reading it back -/

theorem collect_firstTerm {term : Expr} (hterm : isTerm term) (form : Linear) (coefficient : Int) :
    form.collect 1 (firstTerm term coefficient) = form.addTerm term coefficient := by
  unfold firstTerm
  split
  · rename_i hone
    rw [hone, collect_of_isTerm hterm]
  · split
    · rename_i hminus
      rw [hminus, collect, collect_of_isTerm hterm]
    · rw [collect, collect_of_isTerm hterm, Int.one_mul]

theorem collect_nextTerm {term : Expr} (hterm : isTerm term) (form : Linear) (previous : Expr)
    (coefficient : Int) :
    form.collect 1 (nextTerm previous term coefficient) =
      (form.collect 1 previous).addTerm term coefficient := by
  unfold nextTerm
  split
  · rename_i hone
    rw [hone, collect, collect_of_isTerm hterm]
  · split
    · rename_i hminus
      rw [hminus, collect, collect_of_isTerm hterm]
    · rw [collect, collect, collect_of_isTerm hterm, Int.one_mul]

/-- Reading the expression of a canonical form gives the form. -/
theorem Canonical.ofExpr_toExpr {form : Linear} (hform : form.Canonical) :
    ofExpr form.toExpr = form := by
  refine Canonical.induction (P := fun form => ofExpr form.toExpr = form) ?const ?single ?concat
    ?add hform
  case const =>
      intro constant hform
      simp [hform.toExpr_const, ofExpr, collect]
  case single =>
      intro term coefficient hform
      rw [hform.toExpr_single]
      exact collect_firstTerm (hform.isTerm _ (List.mem_singleton_self _)) {} coefficient
  case concat =>
      intro terms term coefficient hne hform ih
      have hnew : term ∉ keys terms := by
        have hdistinct := hform.distinct
        simp only [keys, List.map_append, List.nodup_append] at hdistinct
        exact fun hmem => hdistinct.2.2 term hmem term (List.mem_singleton_self term) rfl
      calc ofExpr (toExpr { terms := terms ++ [(term, coefficient)] })
          = (ofExpr (toExpr { terms })).addTerm term coefficient := by
            rw [hform.toExpr_concat hne]
            exact collect_nextTerm (hform.isTerm (term, coefficient) (by simp)) {} _ _
        _ = { terms := terms ++ [(term, coefficient)] } := by
            rw [ih, addTerm, addTo_of_notMem hnew]
  case add =>
      intro terms constant hne hconstant hform ih
      calc ofExpr (toExpr { terms, constant })
          = (ofExpr (toExpr { terms })).collect 1 (.const constant) := by
            rw [hform.toExpr_add hne hconstant]
            rfl
        _ = { terms, constant } := by
            rw [ih]
            simp [collect]

/-- An expression that is written from a canonical form. -/
def IsSum (e : Expr) : Prop := ∃ form : Linear, form.Canonical ∧ form.toExpr = e

theorem Canonical.isSum {form : Linear} (hform : form.Canonical) : IsSum form.toExpr :=
  ⟨form, hform, rfl⟩

theorem IsSum.toExpr_ofExpr {e : Expr} (he : IsSum e) : (ofExpr e).toExpr = e := by
  obtain ⟨form, hform, rfl⟩ := he
  rw [hform.ofExpr_toExpr]

/-- Not a constant, and if linear then with a term in front. -/
def isHeaded : Expr → Bool
  | .const _ => false
  | .binary .add lhs _ => !lhs.isConst
  | .binary .sub lhs _ => !lhs.isConst
  | .binary .mul lhs _ => !lhs.isConst
  | _ => true

theorem isConst_of_isHeaded {e : Expr} (he : isHeaded e) : e.isConst = false := by
  cases e with
  | const value => cases he
  | _ => rfl

theorem isHeaded_firstTerm {term : Expr} (hterm : isTerm term) (coefficient : Int) :
    isHeaded (firstTerm term coefficient) := by
  have hheaded : isHeaded term := by
    unfold isTerm at hterm
    split at hterm <;> simp_all [isHeaded]
  unfold firstTerm
  split
  · exact hheaded
  · split
    · rfl
    · simp [isHeaded, isConst_of_isHeaded hheaded]

theorem isHeaded_nextTerm {previous : Expr} (hprevious : isHeaded previous) (term : Expr)
    (coefficient : Int) : isHeaded (nextTerm previous term coefficient) := by
  have hconst := isConst_of_isHeaded hprevious
  unfold nextTerm
  split
  · simp [isHeaded, hconst]
  · split <;> simp [isHeaded, hconst]

theorem Canonical.isHeaded_toExpr {form : Linear} (hform : form.Canonical)
    (hterms : form.terms ≠ []) : isHeaded form.toExpr := by
  refine Canonical.induction (P := fun form => form.terms ≠ [] → isHeaded form.toExpr) ?const
    ?single ?concat ?add hform hterms
  case const => exact fun _ hterms => absurd rfl hterms
  case single =>
      intro term coefficient hform _
      rw [hform.toExpr_single]
      exact isHeaded_firstTerm (hform.isTerm _ (List.mem_singleton_self _)) coefficient
  case concat =>
      intro terms term coefficient hne hform ih _
      rw [hform.toExpr_concat hne]
      exact isHeaded_nextTerm (ih hne) term coefficient
  case add =>
      intro terms constant hne hconstant hform ih _
      rw [hform.toExpr_add hne hconstant]
      simp [isHeaded, isConst_of_isHeaded (ih hne)]

/-- A constant stands in a sum only at its end. -/
theorem IsSum.isConst_left {op : BinOp} {lhs rhs : Expr} (hsum : IsSum (.binary op lhs rhs))
    (hop : op = .add ∨ op = .sub ∨ op = .mul) : lhs.isConst = false := by
  obtain ⟨form, hform, hwritten⟩ := hsum
  have hne : form.terms ≠ [] := by
    intro hnil
    simp [toExpr, hnil, joinTerms] at hwritten
  have hheaded := hform.isHeaded_toExpr hne
  rw [hwritten] at hheaded
  rcases hop with rfl | rfl | rfl <;> simpa [isHeaded] using hheaded

end Linear

end Uncompile
