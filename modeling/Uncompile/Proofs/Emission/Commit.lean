import Uncompile.Emission.BlockState
import Uncompile.Proofs.C.Naming
import Uncompile.Proofs.Closure

/-!
# Committing pending assignments

A commit writes out some pending symbols, each before the variables it reads are
overwritten. If that is possible without a circle, running its assignments gives
every symbol written out the value it had before, and leaves all other variables
as they were. What stays pending reads none of the variables written.
-/

namespace Uncompile

namespace BlockState

variable {live : Binding}

/-! ## The order of assignments -/

theorem sequence_perm (live : Binding) (order : List Symbol) :
    (sequence live order).1.Perm order := by
  fun_induction sequence live order with
  | case1 => exact List.Perm.nil
  | case2 first rest symbol hfind later cyclic hlater ih =>
      rw [hlater] at ih
      have hmem := List.mem_of_find?_eq_some hfind
      exact (ih.cons symbol).trans (List.perm_cons_erase hmem).symm
  | case3 first rest hfind ih => exact ih.cons first

/-- Without a circle no symbol is read by one that is assigned after it. -/
theorem sequence_pairwise {order : List Symbol} (hnodup : order.Nodup)
    (hacyclic : (sequence live order).2 = false) :
    (sequence live order).1.Pairwise fun first later => valueReads live later first = false := by
  fun_induction sequence live order with
  | case1 => exact List.Pairwise.nil
  | case2 first rest symbol hfind later cyclic hlater ih =>
      have hperm := sequence_perm live ((first :: rest).erase symbol)
      rw [hlater] at ih hperm
      refine List.Pairwise.cons ?_ (ih (hnodup.erase symbol) hacyclic)
      intro other hother
      have hmem := hperm.subset hother
      have hready := List.find?_some hfind
      simp only [isReady, Bool.not_eq_true', List.any_eq_false, Bool.and_eq_true,
        decide_eq_true_eq, not_and, Bool.not_eq_true] at hready
      have hne : other ≠ symbol := (hnodup.mem_erase_iff.mp hmem).1
      exact hready other (List.mem_of_mem_erase hmem) hne
  | case3 first rest hfind ih => simp at hacyclic

/-! ## What is written out -/

variable {state : BlockState} {required : List Symbol} {force : Symbol → Expr → Bool}

/-- The pending symbols other than the one given whose values read it. -/
def readersOf (state : BlockState) (read : Symbol) : List Symbol :=
  state.pending.filter fun symbol => symbol ≠ read && valueReads state.live symbol read

theorem mem_readersOf {symbol read : Symbol} :
    symbol ∈ state.readersOf read ↔
      symbol ∈ state.pending ∧ symbol ≠ read ∧ valueReads state.live symbol read := by
  simp [readersOf]

theorem mem_chooseReader {chosen : List Symbol} {symbol other : Symbol} :
    other ∈ chooseReader live chosen symbol ↔
      other ∈ chosen ∨
        other = symbol ∧ ∃ read ∈ chosen, symbol ≠ read ∧ valueReads live symbol read := by
  unfold chooseReader
  split
  · grind
  · split <;> rename_i hreads <;>
      simp only [List.any_eq_true, Bool.and_eq_true, decide_eq_true_eq, ne_comm] at hreads <;> grind

theorem subset_foldl_chooseReader {chosen symbols : List Symbol} {symbol : Symbol}
    (h : symbol ∈ chosen) : symbol ∈ symbols.foldl (chooseReader live) chosen := by
  obtain ⟨more, hmore, -⟩ := exists_foldl_chooseReader live chosen symbols
  rw [hmore]
  exact List.mem_append_left _ h

/-- Going over the pending symbols finds every reader of what was chosen before. -/
theorem mem_chooseReaders_of_mem_readersOf {chosen : List Symbol} {symbol read : Symbol}
    (hread : read ∈ chosen) (hsymbol : symbol ∈ state.readersOf read) :
    symbol ∈ state.chooseReaders chosen := by
  obtain ⟨hpending, hne, hreads⟩ := mem_readersOf.mp hsymbol
  obtain ⟨before, after, hsplit⟩ := List.append_of_mem hpending
  rw [chooseReaders, hsplit, List.foldl_append, List.foldl_cons]
  apply subset_foldl_chooseReader
  exact mem_chooseReader.mpr (.inr ⟨rfl, read, subset_foldl_chooseReader hread, hne, hreads⟩)

/-- Going over the pending symbols stays inside the closure under readers. -/
theorem mem_closure_of_mem_chooseReaders {start chosen : List Symbol}
    (hchosen : ∀ symbol ∈ chosen, symbol ∈ closure state.pending state.readersOf start) :
    ∀ symbol ∈ state.chooseReaders chosen,
      symbol ∈ closure state.pending state.readersOf start := by
  refine List.foldlRecOn (motive := fun sofar => ∀ symbol ∈ sofar,
    symbol ∈ closure state.pending state.readersOf start) state.pending _ hchosen ?_
  intro sofar hsofar symbol hpending other hother
  rcases mem_chooseReader.mp hother with hother | ⟨rfl, read, hread, hne, hreads⟩
  · exact hsofar other hother
  · exact mem_closure_of_step (hsofar read hread) hpending
      (mem_readersOf.mpr ⟨hpending, hne, hreads⟩)

/-- Adding readers until there are no more finds the closure under readers. -/
theorem mem_withReaders_iff {start : List Symbol} {symbol : Symbol} :
    symbol ∈ state.withReaders start ↔ symbol ∈ closure state.pending state.readersOf start := by
  have hwith : ∀ chosen : List Symbol, (∀ other ∈ start, other ∈ chosen) →
      (∀ other ∈ chosen, other ∈ closure state.pending state.readersOf start) →
      (symbol ∈ state.withReaders chosen ↔
        symbol ∈ closure state.pending state.readersOf start) := by
    intro chosen hstart hsound
    fun_induction withReaders state chosen with
    | case1 chosen hsame =>
        -- a round that adds nothing has found every reader among what was chosen
        obtain ⟨more, hmore, -⟩ := exists_foldl_chooseReader state.live chosen state.pending
        have hnone : state.chooseReaders chosen = chosen := by
          rw [chooseReaders, hmore] at hsame ⊢
          have hempty : more = [] := by simpa using hsame
          rw [hempty, List.append_nil]
        refine mem_iff_mem_closure hstart hsound fun read hread reader _ hreader => ?_
        rw [← hnone]
        exact mem_chooseReaders_of_mem_readersOf hread hreader
    | case2 chosen hgrown ih =>
        exact ih (fun other hother => subset_foldl_chooseReader (hstart other hother))
          (mem_closure_of_mem_chooseReaders hsound)
  exact hwith start (fun _ => id) fun _ => subset_closure

theorem mem_targets_iff_mem_closure {symbol : Symbol} :
    symbol ∈ state.targets required force ↔ symbol ∈ state.pending ∧
      symbol ∈ closure state.pending state.readersOf (state.wanted required force) := by
  rw [targets, List.mem_filter, decide_eq_true_eq, mem_withReaders_iff]

theorem mem_pending_of_mem_targets {symbol : Symbol}
    (h : symbol ∈ state.targets required force) : symbol ∈ state.pending :=
  (mem_targets_iff_mem_closure.mp h).1

theorem mem_targets_of_mem_wanted {symbol : Symbol}
    (h : symbol ∈ state.wanted required force) : symbol ∈ state.targets required force :=
  mem_targets_iff_mem_closure.mpr ⟨List.mem_of_mem_filter h, subset_closure h⟩

/-- What reads a symbol that is written out is written out as well. -/
theorem mem_targets_of_valueReads {symbol target : Symbol}
    (htarget : target ∈ state.targets required force) (hpending : symbol ∈ state.pending)
    (hne : symbol ≠ target) (hreads : valueReads state.live symbol target) :
    symbol ∈ state.targets required force := by
  obtain ⟨-, hmem⟩ := mem_targets_iff_mem_closure.mp htarget
  refine mem_targets_iff_mem_closure.mpr ⟨hpending, ?_⟩
  exact mem_closure_of_step hmem hpending (mem_readersOf.mpr ⟨hpending, hne, hreads⟩)

/-- Every committed symbol is in the order of the assignments, and no other. -/
theorem mem_sequence_targets {symbol : Symbol} :
    symbol ∈ (sequence state.live (state.targets required force)).1 ↔
      symbol ∈ state.targets required force :=
  (sequence_perm _ _).mem_iff

theorem get?_foldl_erase (order : List Symbol) (live : Binding) (symbol : Symbol) :
    (order.foldl SortedMap.erase live).get? symbol =
      if symbol ∈ order then none else live.get? symbol := by
  induction order generalizing live with
  | nil => simp
  | cons head rest ih =>
      rw [List.foldl_cons, ih, SortedMap.get?_erase]
      by_cases hhead : head = symbol
      · simp [hhead]
      · have hhead' : symbol ≠ head := Ne.symm hhead
        simp [hhead, hhead']

@[simp]
theorem mem_pending_commit {symbol : Symbol} :
    symbol ∈ (state.commit required force).state.pending ↔
      symbol ∈ state.pending ∧ symbol ∉ state.targets required force := by
  simp [commit, mem_sequence_targets]

theorem get?_live_commit (symbol : Symbol) :
    (state.commit required force).state.live.get? symbol =
      if symbol ∈ state.targets required force then none else state.live.get? symbol := by
  simp only [commit, get?_foldl_erase, mem_sequence_targets]

/-- Every pending symbol has a value. -/
def Bound (state : BlockState) : Prop :=
  ∀ symbol ∈ state.pending, ∃ value, state.live.get? symbol = some value

theorem Bound.commit (h : state.Bound) (required : List Symbol) (force : Symbol → Expr → Bool) :
    (state.commit required force).state.Bound := by
  intro symbol hsymbol
  obtain ⟨hpending, hnot⟩ := mem_pending_commit.mp hsymbol
  rw [get?_live_commit, if_neg hnot]
  exact h symbol hpending

/-! ## Running the assignments -/

/-- The bookkeeping of a block state: pending symbols are listed once and have
values, and all symbols that occur have variables of their own. -/
structure WellFormed (state : BlockState) : Prop where
  nodup : state.pending.Nodup
  bound : ∀ symbol ∈ state.pending, ∃ value, state.live.get? symbol = some value
  processor : ∀ symbol value, state.live.get? symbol = some value → symbol.onProcessor
  unnamed : ∀ symbol value, state.live.get? symbol = some value →
    ∀ read, value.references read → read.isNamed = false

/-- A value is the same after the assignment of a symbol that it does not read. -/
theorem eval_setVar {world : World} {c : CState} {target : Symbol} {value : Expr} {w : Word}
    (htarget : target.onProcessor) (hunnamed : ∀ read, value.references read → read.isNamed = false)
    (hreads : value.references target = false) :
    value.eval ((c.setVar target.text w).valuation world) = value.eval (c.valuation world) := by
  apply Expr.eval_congr
  · intro read hread
    have hne : read ≠ target := by
      rintro rfl
      rw [hreads] at hread
      exact Bool.false_ne_true hread
    simp only [CState.valuation, CState.symbol_setVar htarget (hunnamed read hread), hne, if_false]
  · exact fun _ => ⟨rfl, rfl⟩
  · rfl

/-- The state after a symbol has got its value in its variable. -/
def settle (world : World) (live : Binding) (c : CState) (symbol : Symbol) : CState :=
  c.setVar symbol.text (((c.valuation world).bind live).symbol symbol)

/-- A value that is the variable itself needs no assignment. -/
theorem settle_of_symbol {world : World} {c : CState} {symbol : Symbol}
    (hprocessor : symbol.onProcessor)
    (hvalue : ((c.valuation world).bind live).symbol symbol = c.symbol symbol) :
    settle world live c symbol = c := by
  rw [settle, hvalue, CState.symbol_of_onProcessor hprocessor, CState.setVar,
    Function.update_eq_self]

theorem run?_assignment {world : CWorld} {c : CState} {symbol : Symbol}
    (hprocessor : symbol.onProcessor) (rest : List Stmt) :
    Stmt.run? world ((assignment? live symbol).toList ++ rest) c =
      Stmt.run? world rest (settle world.toWorld live c symbol) := by
  cases hvalue : live.get? symbol with
  | none =>
      have hbind := Valuation.bind_symbol_of_none (v := c.valuation world.toWorld) hvalue
      rw [settle_of_symbol hprocessor hbind]
      simp [assignment?, hvalue]
  | some value =>
      have hbind := Valuation.bind_symbol_of_some (v := c.valuation world.toWorld) hvalue
      by_cases hself : value = .sym symbol
      · rw [settle_of_symbol hprocessor (by rw [hbind, hself]; rfl)]
        simp [assignment?, hvalue, hself]
      · simp only [assignment?, hvalue, hself, if_false, Option.toList_some, List.singleton_append,
          Stmt.run?, Stmt.exec?_assign_symbol, settle, hbind]

/-- Running the assignments settles the symbols one after the other. -/
theorem run?_assignments {world : CWorld} {order : List Symbol}
    (hprocessor : ∀ symbol ∈ order, symbol.onProcessor) (c : CState) :
    Stmt.run? world (order.filterMap (assignment? live)) c =
      some (order.foldl (settle world.toWorld live) c, .next) := by
  induction order generalizing c with
  | nil => rfl
  | cons symbol rest ih =>
      obtain ⟨hsymbol, hrest⟩ := List.forall_mem_cons.mp hprocessor
      have hsplit : (symbol :: rest).filterMap (assignment? live) =
          (assignment? live symbol).toList ++ rest.filterMap (assignment? live) := by
        cases h : assignment? live symbol <;> simp [h]
      rw [hsplit, run?_assignment hsymbol, ih hrest, List.foldl_cons]

@[simp]
theorem memory_foldl_settle (world : World) (order : List Symbol) (c : CState) :
    (order.foldl (settle world live) c).memory = c.memory := by
  induction order generalizing c with
  | nil => rfl
  | cons symbol rest ih => exact ih _

/-- Assignments one after the other, none of which changes a value that is assigned
after it, give every symbol its value in the state before all of them. -/
theorem get_foldl_assign {σ : Type} (get value : σ → Symbol → Word) {assign : σ → Symbol → σ}
    {order : List Symbol} (hnodup : order.Nodup)
    (hpairwise : order.Pairwise fun first later =>
      ∀ c, value (assign c first) later = value c later) {symbol : Symbol}
    (hassign : ∀ target ∈ order, ∀ c,
      get (assign c target) symbol = if symbol = target then value c target else get c symbol)
    (c : σ) :
    get (order.foldl assign c) symbol =
      if symbol ∈ order then value c symbol else get c symbol := by
  induction order generalizing c with
  | nil => simp
  | cons head rest ih =>
      obtain ⟨hhead, hrest⟩ := List.forall_mem_cons.mp hassign
      obtain ⟨hfresh, hnodup⟩ := List.nodup_cons.mp hnodup
      obtain ⟨hunread, hpairwise⟩ := List.pairwise_cons.mp hpairwise
      rw [List.foldl_cons, ih hnodup hpairwise hrest]
      by_cases hmem : symbol ∈ rest
      · -- a symbol assigned later has the value it would have had now
        simp only [hmem, if_true, List.mem_cons, or_true]
        exact hunread symbol hmem c
      · simp only [hmem, if_false, List.mem_cons, or_false]
        refine (hhead c).trans ?_
        by_cases hsame : symbol = head
        · simp only [hsame, if_true]
        · simp only [hsame, if_false]

/-- In an order in which nothing is read after it has been assigned, every symbol
gets its value in the state before all assignments. -/
theorem symbol_foldl_settle {world : World} {order : List Symbol} (hnodup : order.Nodup)
    (hpairwise : order.Pairwise fun first later => valueReads live later first = false)
    (hprocessor : ∀ symbol ∈ order, symbol.onProcessor)
    (hunnamed : ∀ symbol value, live.get? symbol = some value →
      ∀ read, value.references read → read.isNamed = false)
    {symbol : Symbol} (hsymbol : symbol.isNamed = false) (c : CState) :
    (order.foldl (settle world live) c).symbol symbol =
      if symbol ∈ order then ((c.valuation world).bind live).symbol symbol
      else c.symbol symbol := by
  refine get_foldl_assign CState.symbol (fun c => ((c.valuation world).bind live).symbol) hnodup ?_
    (fun target htarget c => CState.symbol_setVar (hprocessor target htarget) hsymbol c _) c
  refine (List.Pairwise.and_mem.mp (hnodup.and hpairwise)).imp ?_
  rintro first later ⟨hfirst, hlater, hne, hunread⟩ c
  cases hvalue : live.get? later with
  | none =>
      simp only [Valuation.bind_symbol_of_none hvalue]
      have hnamed := Symbol.isNamed_of_onProcessor (hprocessor later hlater)
      exact (CState.symbol_setVar (hprocessor first hfirst) hnamed c _).trans
        (if_neg (Ne.symm hne))
  | some value =>
      simp only [Valuation.bind_symbol_of_some hvalue]
      apply eval_setVar (hprocessor first hfirst) (hunnamed later value hvalue)
      simpa [valueReads, hvalue] using hunread

/-! ## The state after a commit -/

/-- The C state after the assignments of a commit. -/
def settled (state : BlockState) (world : World) (required : List Symbol)
    (force : Symbol → Expr → Bool) (c : CState) : CState :=
  (sequence state.live (state.targets required force)).1.foldl (settle world state.live) c

theorem WellFormed.onProcessor_of_pending (hstate : state.WellFormed) {symbol : Symbol}
    (h : symbol ∈ state.pending) : symbol.onProcessor := by
  obtain ⟨value, hvalue⟩ := hstate.bound symbol h
  exact hstate.processor symbol value hvalue

theorem run?_commit (hstate : state.WellFormed) (world : CWorld) (c : CState) :
    Stmt.run? world (state.commit required force).stmts c =
      some (state.settled world.toWorld required force c, .next) := by
  apply run?_assignments
  intro symbol hsymbol
  exact hstate.onProcessor_of_pending (mem_pending_of_mem_targets (mem_sequence_targets.mp hsymbol))

@[simp]
theorem memory_settled (world : World) (c : CState) :
    (state.settled world required force c).memory = c.memory :=
  memory_foldl_settle world _ c

/-- A commit without circle puts the values of what it writes out into the
variables and changes no other variable. -/
theorem symbol_settled (hstate : state.WellFormed)
    (hacyclic : (state.commit required force).cyclic = false) {symbol : Symbol}
    (hsymbol : symbol.isNamed = false) (world : World) (c : CState) :
    (state.settled world required force c).symbol symbol =
      if symbol ∈ state.targets required force then
        ((c.valuation world).bind state.live).symbol symbol
      else c.symbol symbol := by
  have hnodup : (state.targets required force).Nodup := hstate.nodup.filter _
  have hperm := sequence_perm state.live (state.targets required force)
  rw [settled, symbol_foldl_settle (hperm.nodup_iff.mpr hnodup) (sequence_pairwise hnodup hacyclic)
    (fun s hs => hstate.onProcessor_of_pending
      (mem_pending_of_mem_targets (mem_sequence_targets.mp hs))) hstate.unnamed hsymbol]
  simp only [mem_sequence_targets]

/-- A value that reads nothing of what is written out keeps its meaning. -/
theorem eval_settled (hstate : state.WellFormed)
    (hacyclic : (state.commit required force).cyclic = false) {value : Expr}
    (hunnamed : ∀ read, value.references read → read.isNamed = false)
    (hreads : ∀ target ∈ state.targets required force, value.references target = false)
    (world : World) (c : CState) :
    value.eval ((state.settled world required force c).valuation world) =
      value.eval (c.valuation world) := by
  apply Expr.eval_congr
  · intro read hread
    have hnot : read ∉ state.targets required force := by
      intro htarget
      rw [hreads read htarget] at hread
      exact Bool.false_ne_true hread
    exact (symbol_settled hstate hacyclic (hunnamed read hread) world c).trans (if_neg hnot)
  · exact fun _ => ⟨by simp [CState.valuation], rfl⟩
  · rfl

/-- What stays pending reads nothing of what is written out. -/
theorem references_target_of_pending {symbol : Symbol} {value : Expr}
    (hpending : symbol ∈ state.pending) (hnot : symbol ∉ state.targets required force)
    (hvalue : state.live.get? symbol = some value) :
    ∀ target ∈ state.targets required force, value.references target = false := by
  intro target htarget
  by_contra hreads
  apply hnot
  refine mem_targets_of_valueReads htarget hpending (fun h => hnot (h ▸ htarget)) ?_
  simpa [valueReads, hvalue] using hreads

/-- The current value of a symbol survives a commit: in its variable if it was
written out, and else in its pending value. A value that is not pending has to
keep clear of what is written out. -/
theorem bind_settled (hstate : state.WellFormed)
    (hacyclic : (state.commit required force).cyclic = false) {symbol : Symbol}
    (hsymbol : symbol.isNamed = false)
    (hfixed : ∀ value, state.live.get? symbol = some value → symbol ∉ state.pending →
      ∀ target ∈ state.targets required force, value.references target = false)
    (world : World) (c : CState) :
    (((state.settled world required force c).valuation world).bind
        (state.commit required force).state.live).symbol symbol =
      ((c.valuation world).bind state.live).symbol symbol := by
  have hlive := @get?_live_commit state required force symbol
  by_cases htarget : symbol ∈ state.targets required force
  · rw [if_pos htarget] at hlive
    rw [Valuation.bind_symbol_of_none hlive]
    exact (symbol_settled hstate hacyclic hsymbol world c).trans (if_pos htarget)
  · rw [if_neg htarget] at hlive
    cases hvalue : state.live.get? symbol with
    | none =>
        rw [hvalue] at hlive
        rw [Valuation.bind_symbol_of_none hlive, Valuation.bind_symbol_of_none hvalue]
        exact (symbol_settled hstate hacyclic hsymbol world c).trans (if_neg htarget)
    | some value =>
        rw [hvalue] at hlive
        rw [Valuation.bind_symbol_of_some hlive, Valuation.bind_symbol_of_some hvalue]
        apply eval_settled hstate hacyclic (hstate.unnamed symbol value hvalue)
        by_cases hpending : symbol ∈ state.pending
        · exact references_target_of_pending hpending htarget hvalue
        · exact hfixed value hvalue hpending

theorem wellFormed_commit (hstate : state.WellFormed) :
    (state.commit required force).state.WellFormed where
  nodup := hstate.nodup.filter _
  bound := Bound.commit hstate.bound required force
  processor symbol value h := by
    rw [get?_live_commit] at h
    split at h
    · simp at h
    · exact hstate.processor symbol value h
  unnamed symbol value h := by
    rw [get?_live_commit] at h
    split at h
    · simp at h
    · exact hstate.unnamed symbol value h

end BlockState

end Uncompile
