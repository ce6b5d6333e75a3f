import Mathlib.Order.WellFoundedSet
import Uncompile.Proofs.Emission.Commit

/-!
# A commit is a parallel assignment

What a commit writes out is the least set that holds what is asked for and, with
each member, the pending symbols whose values read it. Its members can be
assigned one after the other exactly if their values do not read each other in a
circle. Then the assignments together do what assigning all members at once
would do.
-/

namespace Uncompile

/-- The valuation after a symbol has been assigned the value of an expression. -/
def Valuation.assign (v : Valuation) (entry : Symbol × Expr) : Valuation :=
  { v with symbol := Function.update v.symbol entry.1 (entry.2.eval v) }

namespace BlockState

variable {live : Binding} {order : List Symbol} {state : BlockState} {required : List Symbol}
  {force : Symbol → Expr → Bool}

/-! ## What is written out -/

/-- A set of pending symbols that can be written out: it has all that is required
or forced, and all pending symbols that read another member. -/
structure Demands (state : BlockState) (required : List Symbol) (force : Symbol → Expr → Bool)
    (members : Set Symbol) : Prop where
  pending : ∀ symbol ∈ members, symbol ∈ state.pending
  required : ∀ symbol ∈ state.pending, symbol ∈ required → symbol ∈ members
  forced : ∀ symbol ∈ state.pending, ∀ value, state.live.get? symbol = some value →
    force symbol value → symbol ∈ members
  readers : ∀ symbol ∈ state.pending, ∀ value, state.live.get? symbol = some value →
    ∀ read ∈ members, read ≠ symbol → value.references read → symbol ∈ members

theorem demands_targets :
    state.Demands required force {symbol | symbol ∈ state.targets required force} where
  pending _ := mem_pending_of_mem_targets
  required symbol hpending hrequired := by
    apply mem_targets_of_mem_wanted
    exact List.mem_filter.mpr ⟨hpending, by simp [hrequired]⟩
  forced symbol hpending value hvalue hforced := by
    apply mem_targets_of_mem_wanted
    exact List.mem_filter.mpr ⟨hpending, by simp [hvalue, hforced]⟩
  readers symbol hpending value hvalue read hread hne hreferences := by
    apply mem_targets_of_valueReads hread hpending (Ne.symm hne)
    simpa [valueReads, hvalue] using hreferences

theorem Demands.mem_of_mem_targets {members : Set Symbol}
    (hmembers : state.Demands required force members) {symbol : Symbol}
    (hsymbol : symbol ∈ state.targets required force) : symbol ∈ members := by
  obtain ⟨-, hclosure⟩ := mem_targets_iff_mem_closure.mp hsymbol
  refine closure_induction (P := (· ∈ members)) ?_ ?_ hclosure
  · intro start hstart
    obtain ⟨hpending, hasked⟩ := List.mem_filter.mp hstart
    simp only [Bool.or_eq_true, decide_eq_true_eq, Option.any_eq_true] at hasked
    rcases hasked with hrequired | ⟨value, hvalue, hforced⟩
    · exact hmembers.required start hpending hrequired
    · exact hmembers.forced start hpending value hvalue hforced
  · intro read reader hread hpending hreader
    obtain ⟨-, hne, hreads⟩ := mem_readersOf.mp hreader
    simp only [valueReads, Option.any_eq_true] at hreads
    obtain ⟨value, hvalue, hreferences⟩ := hreads
    exact hmembers.readers reader hpending value hvalue read hread (Ne.symm hne) hreferences

theorem isLeast_targets :
    IsLeast {members | state.Demands required force members}
      {symbol | symbol ∈ state.targets required force} :=
  ⟨demands_targets, fun _ hmembers _ => hmembers.mem_of_mem_targets⟩

/-! ## Circles -/

/-- The value of one symbol of a list reads another. -/
def ReadsAmong (live : Binding) (order : List Symbol) (symbol read : Symbol) : Prop :=
  symbol ∈ order ∧ read ∈ order ∧ symbol ≠ read ∧ valueReads live symbol read

/-- The values of some symbols of a list read each other in a circle. -/
def Circular (live : Binding) (order : List Symbol) : Prop :=
  ∃ symbol, Relation.TransGen (ReadsAmong live order) symbol symbol

theorem isReady_iff {symbol : Symbol} (hsymbol : symbol ∈ order) :
    isReady live order symbol ↔ ∀ other, ¬ ReadsAmong live order other symbol := by
  simp only [isReady, Bool.not_eq_true', List.any_eq_false, Bool.and_eq_true, decide_eq_true_eq,
    ReadsAmong]
  constructor
  · rintro hready other ⟨hother, _, hne, hreads⟩
    exact hready other hother ⟨hne, hreads⟩
  · rintro hnone other hother ⟨hne, hreads⟩
    exact hnone other ⟨hother, hsymbol, hne, hreads⟩

/-- If every symbol of a list is read by another one, some of them form a circle:
otherwise reading would order them, and one would come first. -/
theorem circular_of_not_ready (hne : order ≠ [])
    (hunready : ∀ symbol ∈ order, ¬ isReady live order symbol) : Circular live order := by
  by_contra hcircle
  have hstrict : IsStrictOrder Symbol (Relation.TransGen (ReadsAmong live order)) :=
    { irrefl := fun symbol hself => hcircle ⟨symbol, hself⟩
      trans := fun _ _ _ => Relation.TransGen.trans }
  have hfinite : {symbol | symbol ∈ order}.Finite := order.finite_toSet
  obtain ⟨start, hstart⟩ := List.exists_mem_of_ne_nil order hne
  obtain ⟨⟨first, hfirst⟩, _, hleast⟩ :=
    (hfinite.wellFoundedOn (r := Relation.TransGen (ReadsAmong live order))).has_min Set.univ
      ⟨⟨start, hstart⟩, trivial⟩
  apply hunready first hfirst
  rw [isReady_iff hfirst]
  intro other hreads
  exact hleast ⟨other, hreads.1⟩ trivial (.single hreads)

/-- A symbol that nothing reads is on no circle. -/
theorem circular_erase_iff {symbol : Symbol} (hsymbol : symbol ∈ order)
    (hready : isReady live order symbol) :
    Circular live (order.erase symbol) ↔ Circular live order := by
  have hunread := (isReady_iff hsymbol).mp hready
  have hend : ∀ {a b}, Relation.TransGen (ReadsAmong live order) a b → b ≠ symbol := by
    rintro a b hpath rfl
    obtain ⟨before, _, hlast⟩ := Relation.TransGen.tail'_iff.mp hpath
    exact hunread before hlast
  have hkeep : ∀ {a b}, a ≠ symbol → ReadsAmong live order a b →
      ReadsAmong live (order.erase symbol) a b := by
    intro a b ha hreads
    have hb : b ≠ symbol := hend (.single hreads)
    exact ⟨(List.mem_erase_of_ne ha).mpr hreads.1, (List.mem_erase_of_ne hb).mpr hreads.2.1,
      hreads.2.2⟩
  constructor
  · rintro ⟨start, hcircle⟩
    refine ⟨start, Relation.TransGen.mono (fun a b hreads => ?_) _ _ hcircle⟩
    exact ⟨List.mem_of_mem_erase hreads.1, List.mem_of_mem_erase hreads.2.1, hreads.2.2⟩
  · rintro ⟨start, hcircle⟩
    have hpath : ∀ {b}, Relation.TransGen (ReadsAmong live order) start b →
        Relation.TransGen (ReadsAmong live (order.erase symbol)) start b := by
      intro b hpath
      induction hpath with
      | single hreads => exact .single (hkeep (hend hcircle) hreads)
      | tail hbefore hreads ih => exact ih.tail (hkeep (hend hbefore) hreads)
    exact ⟨start, hpath hcircle⟩

/-- Ordering the assignments reports a circle exactly if there is one. -/
theorem sequence_cyclic_iff (live : Binding) (order : List Symbol) :
    (sequence live order).2 ↔ Circular live order := by
  fun_induction sequence live order with
  | case1 =>
      refine ⟨fun h => absurd h Bool.false_ne_true, ?_⟩
      rintro ⟨symbol, hcircle⟩
      obtain ⟨_, ⟨hmem, _⟩, _⟩ := Relation.TransGen.head'_iff.mp hcircle
      exact absurd hmem List.not_mem_nil
  | case2 first rest symbol hfind later cyclic hlater ih =>
      rw [hlater] at ih
      exact ih.trans (circular_erase_iff (List.mem_of_find?_eq_some hfind)
        (List.find?_some hfind))
  | case3 first rest hfind ih =>
      refine iff_of_true rfl (circular_of_not_ready (List.cons_ne_nil first rest) ?_)
      exact List.find?_eq_none.mp hfind

/-! ## Running the assignments -/

/-- The assignment that a symbol gets, unless its value is the symbol itself. -/
def assigned? (live : Binding) (symbol : Symbol) : Option (Symbol × Expr) :=
  (live.get? symbol).bind fun value => if value = .sym symbol then none else some (symbol, value)

/-- The assignments of a commit in their order. -/
def assignments (state : BlockState) (required : List Symbol) (force : Symbol → Expr → Bool) :
    List (Symbol × Expr) :=
  (sequence state.live (state.targets required force)).1.filterMap (assigned? state.live)

theorem stmts_commit :
    (state.commit required force).stmts = (state.assignments required force).map fun entry =>
      .assign (.ofSymbol entry.1) (.ofExpr entry.2) := by
  rw [assignments, List.map_filterMap, commit]
  refine List.filterMap_congr fun symbol _ => ?_
  cases hvalue : state.live.get? symbol with
  | none => simp [assignment?, assigned?, hvalue]
  | some value =>
      by_cases hself : value = .sym symbol <;> simp [assignment?, assigned?, hvalue, hself]

/-- The valuation after a symbol has got its value. -/
def assignLive (live : Binding) (v : Valuation) (symbol : Symbol) : Valuation :=
  { v with symbol := Function.update v.symbol symbol ((v.bind live).symbol symbol) }

theorem assignLive_eq (live : Binding) (v : Valuation) (symbol : Symbol) :
    assignLive live v symbol = (assigned? live symbol).toList.foldl Valuation.assign v := by
  cases hvalue : live.get? symbol with
  | none => simp [assignLive, assigned?, hvalue, Valuation.bind_symbol_of_none hvalue]
  | some value =>
      by_cases hself : value = .sym symbol
      · simp [assignLive, assigned?, hvalue, hself, Valuation.bind_symbol_of_some hvalue, Expr.eval]
      · simp [assignLive, assigned?, hvalue, hself, Valuation.bind_symbol_of_some hvalue,
          Valuation.assign]

theorem foldl_assign_eq (live : Binding) (order : List Symbol) (v : Valuation) :
    (order.filterMap (assigned? live)).foldl Valuation.assign v =
      order.foldl (assignLive live) v := by
  induction order generalizing v with
  | nil => rfl
  | cons symbol rest ih =>
      have hsplit : (symbol :: rest).filterMap (assigned? live) =
          (assigned? live symbol).toList ++ rest.filterMap (assigned? live) := by
        cases h : assigned? live symbol <;> simp [h]
      rw [hsplit, List.foldl_append, ← assignLive_eq, ih, List.foldl_cons]

/-- Assigning symbols changes nothing but symbols. -/
theorem foldl_assignLive_eq (live : Binding) (order : List Symbol) (v : Valuation) :
    order.foldl (assignLive live) v =
      { v with symbol := (order.foldl (assignLive live) v).symbol } := by
  induction order generalizing v with
  | nil => rfl
  | cons symbol rest ih => exact ih (assignLive live v symbol)

theorem symbol_foldl_assignLive (hnodup : order.Nodup)
    (hpairwise : order.Pairwise fun first later => valueReads live later first = false)
    (v : Valuation) (symbol : Symbol) :
    (order.foldl (assignLive live) v).symbol symbol =
      if symbol ∈ order then (v.bind live).symbol symbol else v.symbol symbol := by
  refine get_foldl_assign Valuation.symbol (fun v => (v.bind live).symbol) hnodup ?_
    (fun target _ v => by simp [assignLive, Function.update_apply]) v
  refine (hnodup.and hpairwise).imp ?_
  rintro first later ⟨hne, hunread⟩ v
  cases hvalue : live.get? later with
  | none =>
      simp only [Valuation.bind_symbol_of_none hvalue]
      exact Function.update_of_ne (Ne.symm hne) _ _
  | some value =>
      simp only [Valuation.bind_symbol_of_some hvalue]
      refine Expr.eval_congr (fun read hread => ?_) (fun _ => ⟨rfl, rfl⟩) rfl
      refine Function.update_of_ne ?_ _ _
      rintro rfl
      simp [valueReads, hvalue, hread] at hunread

/-- Without a circle, the assignments together assign all symbols at once. -/
theorem foldl_assignments (hnodup : state.pending.Nodup)
    (hacyclic : (state.commit required force).cyclic = false) (v : Valuation) :
    (state.assignments required force).foldl Valuation.assign v =
      { v with symbol := fun symbol =>
          if symbol ∈ state.targets required force then (v.bind state.live).symbol symbol
          else v.symbol symbol } := by
  have htargets : (state.targets required force).Nodup := hnodup.filter _
  have hperm := sequence_perm state.live (state.targets required force)
  rw [assignments, foldl_assign_eq, foldl_assignLive_eq]
  congr 1
  funext symbol
  rw [symbol_foldl_assignLive (hperm.nodup_iff.mpr htargets) (sequence_pairwise htargets hacyclic)]
  simp only [mem_sequence_targets]

/-! ## The whole commit -/

/-- What assigning a list of symbols at once means: they get the values they had,
no other symbol changes, and the values of what stays pending keep their meaning. -/
structure Assigns (state : BlockState) (members stay : List Symbol) (before after : Valuation) :
    Prop where
  assigned : ∀ symbol ∈ members, ∃ value, state.live.get? symbol = some value ∧
    after.symbol symbol = value.eval before
  unchanged : ∀ symbol, symbol ∉ members → after.symbol symbol = before.symbol symbol
  pending : ∀ symbol ∈ stay, ∃ value, state.live.get? symbol = some value ∧
    value.eval after = value.eval before

theorem assigns_commit (hnodup : state.pending.Nodup)
    (hbound : ∀ symbol ∈ state.pending, ∃ value, state.live.get? symbol = some value)
    (hacyclic : (state.commit required force).cyclic = false) (v : Valuation) :
    state.Assigns (state.targets required force) (state.commit required force).state.pending v
      ((state.assignments required force).foldl Valuation.assign v) := by
  rw [foldl_assignments hnodup hacyclic]
  constructor
  · intro symbol htarget
    obtain ⟨value, hvalue⟩ := hbound symbol (mem_pending_of_mem_targets htarget)
    exact ⟨value, hvalue, (if_pos htarget).trans (Valuation.bind_symbol_of_some hvalue)⟩
  · intro symbol hother
    exact if_neg hother
  · intro symbol hstays
    obtain ⟨hpending, hother⟩ := mem_pending_commit.mp hstays
    obtain ⟨value, hvalue⟩ := hbound symbol hpending
    refine ⟨value, hvalue, Expr.eval_congr (fun read hread => ?_) (fun _ => ⟨rfl, rfl⟩) rfl⟩
    apply if_neg
    intro htarget
    have hunread := references_target_of_pending hpending hother hvalue read htarget
    rw [hread] at hunread
    exact Bool.noConfusion hunread

theorem pending_commit :
    (state.commit required force).state.pending =
      state.pending.filter fun symbol => symbol ∉ state.targets required force := by
  rw [commit]
  exact List.filter_congr fun symbol _ => decide_eq_decide.mpr (not_congr mem_sequence_targets)

/-- A commit puts a parallel assignment in sequence. It writes out the least set
of pending symbols that has what is asked for and all that reads another member,
and reports a circle exactly if members read each other in one. Without a circle
its assignments do what assigning all members at once would do, on symbols and,
where symbols have variables of their own, on the variables of a C state. What
is not written out stays as it was. -/
theorem commit_sequences (state : BlockState) (hnodup : state.pending.Nodup)
    (hbound : ∀ symbol ∈ state.pending, ∃ value, state.live.get? symbol = some value)
    (required : List Symbol) (force : Symbol → Expr → Bool) :
    IsLeast {members | state.Demands required force members}
        {symbol | symbol ∈ state.targets required force} ∧
      ((state.commit required force).cyclic ↔
        Circular state.live (state.targets required force)) ∧
      (state.commit required force).stmts = (state.assignments required force).map (fun entry =>
        .assign (.ofSymbol entry.1) (.ofExpr entry.2)) ∧
      ((state.commit required force).cyclic = false →
        (∀ v, state.Assigns (state.targets required force)
          (state.commit required force).state.pending v
          ((state.assignments required force).foldl Valuation.assign v)) ∧
        (state.WellFormed → ∀ world c, ∃ c',
          Stmt.run? world (state.commit required force).stmts c = some (c', .next) ∧
          c'.memory = c.memory ∧ ∀ symbol, symbol.isNamed = false → c'.symbol symbol =
            if symbol ∈ state.targets required force then
              ((c.valuation world.toWorld).bind state.live).symbol symbol
            else c.symbol symbol)) ∧
      (state.commit required force).state.pending =
        state.pending.filter (fun symbol => symbol ∉ state.targets required force) ∧
      ∀ symbol, (state.commit required force).state.live.get? symbol =
        if symbol ∈ state.targets required force then none else state.live.get? symbol := by
  refine ⟨isLeast_targets, sequence_cyclic_iff _ _, stmts_commit, fun hacyclic => ?_,
    pending_commit, get?_live_commit⟩
  refine ⟨assigns_commit hnodup hbound hacyclic, fun hstate world c => ?_⟩
  exact ⟨_, run?_commit hstate world c, memory_settled _ c, fun symbol hsymbol =>
    symbol_settled hstate hacyclic hsymbol _ c⟩

end BlockState

/-! ## A chain and a circle -/

namespace ChainAndCircle

/-- `ecx` still needs the old `eax`, and `edx` needs neither. -/
def chain : BlockState :=
  { pending := [.reg .eax, .reg .ecx, .reg .edx]
    live := .ofList [(.reg .eax, .add (.reg .ebx) (.const 1)), (.reg .ecx, .reg .eax),
      (.reg .edx, .const 7)] }

/-- Two registers that are exchanged. -/
def circle : BlockState :=
  { pending := [.reg .eax, .reg .ebx]
    live := .ofList [(.reg .eax, .reg .ebx), (.reg .ebx, .reg .eax)] }

/-- Asking for `eax` writes out `ecx` first, whatever the registers hold; exchanged
registers are a circle. -/
theorem commit_sequences_chain :
    chain.assignments [.reg .eax] (fun _ _ => false) =
        [(.reg .ecx, .reg .eax), (.reg .eax, .add (.reg .ebx) (.const 1))] ∧
      (∀ v, chain.Assigns [.reg .eax, .reg .ecx] [.reg .edx] v
        ((chain.assignments [.reg .eax] fun _ _ => false).foldl Valuation.assign v)) ∧
      BlockState.Circular circle.live [.reg .eax, .reg .ebx] := by
  have hchain := BlockState.commit_sequences chain (by decide) (fun symbol h =>
    Option.isSome_iff_exists.mp (by revert symbol; decide)) [.reg .eax] fun _ _ => false
  have hcircle := BlockState.commit_sequences circle (by decide) (fun symbol h =>
    Option.isSome_iff_exists.mp (by revert symbol; decide)) [.reg .eax] fun _ _ => false
  have hmembers : chain.targets [.reg .eax] (fun _ _ => false) = [.reg .eax, .reg .ecx] := by
    decide +kernel
  have hstay : (chain.commit [.reg .eax] fun _ _ => false).state.pending = [.reg .edx] := by
    decide +kernel
  have hexchanged : circle.targets [.reg .eax] (fun _ _ => false) = [.reg .eax, .reg .ebx] := by
    decide +kernel
  rw [hmembers, hstay] at hchain
  rw [hexchanged] at hcircle
  exact ⟨by decide +kernel, (hchain.2.2.2.1 (by decide +kernel)).1,
    hcircle.2.1.mp (by decide +kernel)⟩

end ChainAndCircle

end Uncompile
