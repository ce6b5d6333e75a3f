import Uncompile.Proofs.C.Occurrence
import Uncompile.Proofs.Dataflow.DeadWrites
import Uncompile.Proofs.Emission.CallResult
import Uncompile.Proofs.Emission.LoopCounter
import Uncompile.Proofs.Program.Conditions

/-!
# Accounts of what a block reads

Values that are held back make it hard to see what the statements of a block read: a
register may be read long after the instruction that asked for it, under another name and
after it has been overwritten. An account relates the statements so far and the values at
hand to what counts as read and written by the instructions. Each variable that a value
reads has been assigned by the statements or counts as read, and so has each symbol that
counts as written and has no value at hand. The pieces that lowering is made of keep such
an account.
-/

namespace Uncompile

/-! ## Reads of statements -/

namespace CExpr

def asVar? : CExpr → Option String
  | var name => some name
  | _ => none

/-- The variables of an expression. -/
def vars (e : CExpr) : List String := e.subterms.filterMap asVar?

theorem mem_vars_iff {name : String} {e : CExpr} : name ∈ e.vars ↔ Occurs (.var name) e := by
  rw [vars, List.mem_filterMap, ← mem_subterms_iff]
  constructor
  · rintro ⟨part, hpart, hname⟩
    cases part <;> simp_all [asVar?]
  · intro h
    exact ⟨_, h, rfl⟩

theorem mem_vars_call {name callee : String} {args : List CExpr}
    (h : name ∈ (call callee args).vars) : ∃ arg ∈ args, name ∈ arg.vars := by
  rw [mem_vars_iff] at h
  cases h with
  | argument harg h => exact ⟨_, harg, mem_vars_iff.mpr h⟩

theorem mem_vars_callPointer {name : String} {target : CExpr} {ret : CType}
    (h : name ∈ (callPointer target ret []).vars) : name ∈ target.vars := by
  rw [mem_vars_iff] at h
  cases h with
  | target h => exact mem_vars_iff.mpr h
  | pointerArgument harg _ => exact absurd harg List.not_mem_nil

/-- The variables of a symbolic value are those of its symbols. -/
theorem exists_symbol_of_mem_vars {e : Expr} {name : String} (h : name ∈ (ofExpr e).vars) :
    ∃ symbol, e.references symbol ∧ symbol.text = name := by
  rw [mem_vars_iff] at h
  fun_induction ofExpr e with
  | case1 | case4 => cases h
  | case2 | case8 =>
      cases h with
      | addrOf h => cases h
  | case3 symbol =>
      cases h
      exact ⟨symbol, by simp [Expr.references], rfl⟩
  | case5 ptr size _ ih =>
      cases h with
      | deref h => exact ih h
  | case6 p size ih =>
      cases h with
      | argument harg h =>
          rw [List.mem_singleton.mp harg] at h
          exact ih h
  | case7 op arg ih =>
      cases h with
      | unary h => exact ih h
  | case9 op lhs rhs _ ihl ihr =>
      cases h with
      | left h =>
          obtain ⟨symbol, hsymbol, htext⟩ := ihl h
          exact ⟨symbol, by simp [Expr.references, hsymbol], htext⟩
      | right h =>
          obtain ⟨symbol, hsymbol, htext⟩ := ihr h
          exact ⟨symbol, by simp [Expr.references, hsymbol], htext⟩

end CExpr

namespace Stmt

/-- The variables that a statement reads. A variable it assigns is not read by that, and
inline assembly is not looked into. -/
def reads : Stmt → List String
  | assign (.var _) rhs => rhs.vars
  | assign lhs rhs => lhs.vars ++ rhs.vars
  | ifThen cond body => cond.vars ++ body.reads
  | ret (some e) | expr e => e.vars
  | label _ | goto _ | asm _ | ret none => []

/-- The variable that a statement assigns. -/
def assigned? : Stmt → Option String
  | assign (.var name) _ => some name
  | _ => none

/-- Whether statements read a variable before they assign it. -/
def readsFirst (name : String) : List Stmt → Bool
  | [] => false
  | stmt :: rest => name ∈ stmt.reads || (stmt.assigned? ≠ some name && readsFirst name rest)

theorem readsFirst_append {name : String} {first rest : List Stmt} :
    readsFirst name (first ++ rest) ↔
      readsFirst name first ∨
        ((∀ stmt ∈ first, stmt.assigned? ≠ some name) ∧ readsFirst name rest) := by
  induction first with
  | nil => simp [readsFirst]
  | cons stmt more ih =>
      simp only [List.cons_append, readsFirst, Bool.or_eq_true, Bool.and_eq_true, ih,
        List.forall_mem_cons, decide_eq_true_eq]
      grind

theorem exists_reads_of_readsFirst {name : String} {stmts : List Stmt}
    (h : readsFirst name stmts) : ∃ stmt ∈ stmts, name ∈ stmt.reads := by
  induction stmts with
  | nil => simp [readsFirst] at h
  | cons stmt rest ih =>
      simp only [readsFirst, Bool.or_eq_true, Bool.and_eq_true, decide_eq_true_eq] at h
      rcases h with h | ⟨_, h⟩
      · exact ⟨stmt, List.mem_cons_self, h⟩
      · obtain ⟨reader, hreader, hreads⟩ := ih h
        exact ⟨reader, List.mem_cons_of_mem _ hreader, hreads⟩

end Stmt

/-! ## The account of a block state -/

/-- Registers and flags outside the frame's care. -/
def Symbol.Tracked (managed : Symbol → Bool) (symbol : Symbol) : Prop :=
  symbol.isRegister ∧ managed symbol = false

theorem AnalysisContext.tracks_iff {context : AnalysisContext} {symbol : Symbol} :
    context.tracks symbol ↔ symbol.Tracked context.scope.isManaged := by
  simp [tracks, Symbol.Tracked]

/-- A symbol counts as read, or statements have assigned its variable. -/
def Covered (reads : List Symbol) (segment : List Stmt) (symbol : Symbol) : Prop :=
  symbol ∈ reads ∨ ∃ stmt ∈ segment, stmt.assigned? = some symbol.text

theorem Covered.mono {reads reads' : List Symbol} {segment : List Stmt} {symbol : Symbol}
    (h : Covered reads segment symbol) (hreads : reads ⊆ reads') (more : List Stmt) :
    Covered reads' (segment ++ more) symbol := by
  rcases h with h | ⟨stmt, hstmt, hassigned⟩
  · exact .inl (hreads h)
  · exact .inr ⟨stmt, List.mem_append_left _ hstmt, hassigned⟩

/-- The tracked ones among some symbols count as read or as written. -/
def Counts (managed : Symbol → Bool) (reads writes symbols : List Symbol) : Prop :=
  ∀ symbol ∈ symbols, symbol.Tracked managed → symbol ∈ reads ∨ symbol ∈ writes

/-- What the statements of a block so far and the values at hand read, against what counts
as read and written by its instructions so far. -/
structure Accounts (managed : Symbol → Bool) (reads writes : List Symbol) (segment : List Stmt)
    (state : BlockState) : Prop where
  framed : state.Framed managed
  value : ∀ {target value symbol}, state.live.get? target = some value →
    value.references symbol → symbol.Tracked managed → Covered reads segment symbol
  written : ∀ {symbol}, symbol.Tracked managed → symbol ∈ writes →
    (state.live.get? symbol).isSome ∨ Covered reads segment symbol
  first : ∀ {symbol}, symbol.Tracked managed → Stmt.readsFirst symbol.text segment →
    symbol ∈ reads

/-- An expression over symbols that count as read or as written. -/
structure Expr.Allowed (managed : Symbol → Bool) (reads writes : List Symbol) (e : Expr) :
    Prop where
  unnamed : ∀ symbol, e.references symbol → symbol.isNamed = false
  counts : Counts managed reads writes e.symbols

namespace Accounts

variable {managed : Symbol → Bool} {reads writes : List Symbol} {segment : List Stmt}
  {state : BlockState}

theorem mono (h : Accounts managed reads writes segment state) {reads' writes' : List Symbol}
    (hreads : reads ⊆ reads') (hwrites : writes' ⊆ writes) :
    Accounts managed reads' writes' segment state where
  framed := h.framed
  value hvalue href htracked := by
    simpa using (h.value hvalue href htracked).mono hreads []
  written htracked hwritten := (h.written htracked (hwrites hwritten)).imp_right fun hcovered => by
    simpa using hcovered.mono hreads []
  first htracked hfirst := hreads (h.first htracked hfirst)

/-- The variable of a tracked symbol in a value is there because of the symbol. -/
theorem references_of_mem_vars {e : Expr}
    (hunnamed : ∀ read, e.references read → read.isNamed = false) {symbol : Symbol}
    (htracked : symbol.Tracked managed)
    (hmem : symbol.text ∈ (CExpr.ofExpr e).vars) : e.references symbol := by
  obtain ⟨read, hread, htext⟩ := CExpr.exists_symbol_of_mem_vars hmem
  have hnamed := Symbol.isNamed_of_onProcessor (Symbol.onProcessor_of_isRegister htracked.1)
  rwa [Symbol.text_injective (hunnamed read hread) hnamed htext] at hread

/-- Evaluation brings in only what is covered. -/
theorem covered_eval (h : Accounts managed reads writes segment state) {e : Expr}
    (hallowed : e.Allowed managed reads writes) {symbol : Symbol}
    (htracked : symbol.Tracked managed) (hread : (state.eval e).references symbol) :
    Covered reads segment symbol := by
  rcases Expr.references_bind (Expr.references_of_references_reduce hread) with
    ⟨target, value, hvalue, href⟩ | ⟨hdirect, hunbound⟩
  · exact h.value hvalue href htracked
  · rcases hallowed.counts symbol (Expr.references_iff_mem_symbols.mp hdirect) htracked with
      hreads | hwritten
    · exact .inl hreads
    · refine (h.written htracked hwritten).resolve_left ?_
      simp [hunbound]

/-- The variables of what is evaluated are covered. -/
theorem covered_vars (h : Accounts managed reads writes segment state) {e : Expr}
    (hallowed : e.Allowed managed reads writes) {symbol : Symbol}
    (htracked : symbol.Tracked managed)
    (hmem : symbol.text ∈ (CExpr.ofExpr (state.eval e)).vars) : Covered reads segment symbol :=
  h.covered_eval hallowed htracked
    (references_of_mem_vars (h.framed.unnamed_eval hallowed.unnamed) htracked hmem)

/-- Statements that read what is covered keep the account. -/
theorem append (h : Accounts managed reads writes segment state) {stmts : List Stmt}
    (hstmts : ∀ stmt ∈ stmts, ∀ symbol, symbol.Tracked managed → symbol.text ∈ stmt.reads →
      Covered reads segment symbol) :
    Accounts managed reads writes (segment ++ stmts) state where
  framed := h.framed
  value hvalue href htracked := (h.value hvalue href htracked).mono (List.Subset.refl _) stmts
  written htracked hwritten := (h.written htracked hwritten).imp_right fun hcovered =>
    hcovered.mono (List.Subset.refl _) stmts
  first {symbol} htracked hfirst := by
    rcases Stmt.readsFirst_append.mp hfirst with hfirst | ⟨hunassigned, hfirst⟩
    · exact h.first htracked hfirst
    · obtain ⟨stmt, hstmt, hread⟩ := Stmt.exists_reads_of_readsFirst hfirst
      refine (hstmts stmt hstmt symbol htracked hread).resolve_right ?_
      rintro ⟨earlier, hearlier, hassigned⟩
      exact hunassigned earlier hearlier hassigned

theorem append_silent (h : Accounts managed reads writes segment state) {stmts : List Stmt}
    (hstmts : ∀ stmt ∈ stmts, stmt.reads = []) :
    Accounts managed reads writes (segment ++ stmts) state :=
  h.append fun stmt hstmt _ _ hmem => absurd (hstmts stmt hstmt ▸ hmem) List.not_mem_nil

/-- The assignments of a commit read values at hand. -/
theorem append_commit (h : Accounts managed reads writes segment state) (required : List Symbol)
    (force : Symbol → Expr → Bool) :
    Accounts managed reads writes (segment ++ (state.commit required force).stmts) state := by
  apply h.append
  intro stmt hstmt symbol htracked hread
  obtain ⟨target, _, hassign⟩ := List.mem_filterMap.mp hstmt
  rw [BlockState.assignment?] at hassign
  split at hassign
  · rename_i value hvalue
    split at hassign
    · cases hassign
    · cases hassign
      exact h.value hvalue
        (references_of_mem_vars (h.framed.unnamed target value hvalue) htracked hread) htracked
  · cases hassign

/-- What a commit writes out is assigned, unless its value is the variable itself. -/
theorem commit (h : Accounts managed reads writes segment state) (required : List Symbol)
    (force : Symbol → Expr → Bool) :
    Accounts managed reads writes (segment ++ (state.commit required force).stmts)
      (state.commit required force).state where
  framed := h.framed.commit required force
  value {target value symbol} hvalue href htracked := by
    rw [BlockState.get?_live_commit] at hvalue
    split at hvalue
    · cases hvalue
    · exact (h.append_commit required force).value hvalue href htracked
  written {symbol} htracked hwritten := by
    rcases (h.append_commit required force).written htracked hwritten with hbound | hcovered
    · rw [BlockState.get?_live_commit]
      split
      · rename_i htarget
        right
        obtain ⟨value, hvalue⟩ := Option.isSome_iff_exists.mp hbound
        by_cases hself : value = .sym symbol
        · refine (h.append_commit required force).value hvalue ?_ htracked
          simp [hself, Expr.references]
        · refine .inr ⟨.assign (.ofSymbol symbol) (.ofExpr value), ?_, rfl⟩
          refine List.mem_append_right _ (List.mem_filterMap.mpr
            ⟨symbol, BlockState.mem_sequence_targets.mpr htarget, ?_⟩)
          rw [BlockState.assignment?, hvalue]
          exact if_neg hself
      · exact .inl hbound
    · exact .inr hcovered
  first := (h.append_commit required force).first

/-- A value from outside is assigned to the variable of a symbol. -/
theorem receive (h : Accounts managed reads writes segment state) {target : Symbol} {e : CExpr}
    (hreads : ∀ symbol, symbol.Tracked managed → symbol.text ∈ e.vars →
      Covered reads segment symbol) :
    Accounts managed reads (target :: writes) (segment ++ [.assign (.ofSymbol target) e])
      (state.discard target) := by
  have hstmt : Accounts managed reads writes (segment ++ [.assign (.ofSymbol target) e]) state := by
    apply h.append
    intro stmt hstmt symbol htracked hread
    obtain rfl := List.mem_singleton.mp hstmt
    exact hreads symbol htracked hread
  refine ⟨h.framed.discard target, ?_, ?_, hstmt.first⟩
  · intro other value symbol hvalue href htracked
    rw [BlockState.get?_live_discard] at hvalue
    split at hvalue
    · cases hvalue
    · exact hstmt.value hvalue href htracked
  · intro symbol htracked hwritten
    by_cases htarget : target = symbol
    · subst htarget
      exact .inr (.inr ⟨_, List.mem_append_right _ List.mem_cons_self, rfl⟩)
    · rw [BlockState.get?_live_discard, if_neg htarget]
      exact hstmt.written htracked (List.mem_of_ne_of_mem (Ne.symm htarget) hwritten)

/-- The values of an effect are taken over. -/
theorem takeAll (h : Accounts managed reads writes segment state) {effect : Effect}
    (hallowed : ∀ symbol value, (.sym symbol, value) ∈ effect →
      value.Allowed managed reads writes) {state' : BlockState}
    (hstate : state' = (effect.filterMap fun write => write.1.asSymbol?.map fun symbol =>
      (symbol, state.eval write.2)).foldl
        (fun state entry => state.update entry.1 entry.2 (managed entry.1)) state)
    (hframed : state'.Framed managed) :
    Accounts managed reads (writes ++ effect.filterMap fun write => write.1.asSymbol?) segment
      state' := by
  have hlive : ∀ symbol, state'.live.get? symbol =
      ((effect.toBinding.get? symbol).map state.eval).or (state.live.get? symbol) := by
    intro symbol
    rw [hstate]
    exact BlockState.get?_live_takeAll managed state.eval effect state symbol
  refine ⟨hframed, ?_, ?_, h.first⟩
  · intro target value symbol hvalue href htracked
    rw [hlive] at hvalue
    cases hbinding : effect.toBinding.get? target with
    | none =>
        rw [hbinding] at hvalue
        exact h.value hvalue href htracked
    | some written =>
        rw [hbinding] at hvalue
        cases hvalue
        exact h.covered_eval (hallowed target written (Effect.mem_of_get?_toBinding hbinding))
          htracked href
  · intro symbol htracked hwritten
    rw [hlive]
    rcases List.mem_append.mp hwritten with hwritten | hwritten
    · refine (h.written htracked hwritten).imp_left fun hbound => ?_
      simp [hbound]
    · left
      simp [Effect.isSome_get?_toBinding hwritten]

/-- Symbols that the account covers may count as written. -/
theorem addWrites (h : Accounts managed reads writes segment state) {more : List Symbol}
    (hmore : Counts managed reads writes more) :
    Accounts managed reads (writes ++ more) segment state where
  framed := h.framed
  value := h.value
  written {symbol} htracked hwritten := by
    rcases List.mem_append.mp hwritten with hwritten | hwritten
    · exact h.written htracked hwritten
    · rcases hmore symbol hwritten htracked with hreads | hwritten
      · exact .inr (.inl hreads)
      · exact h.written htracked hwritten
  first := h.first

end Accounts

/-! ## Lowering -/

theorem Stmt.mem_vars_of_mem_reads {lhs rhs : CExpr} {name : String}
    (h : name ∈ (Stmt.assign lhs rhs).reads) : name ∈ lhs.vars ∨ name ∈ rhs.vars := by
  unfold reads at h
  split at h
  · rename_i heq
    cases heq
    exact .inr h
  · rename_i heq
    cases heq
    exact List.mem_append.mp h
  all_goals rename_i heq; cases heq

/-- A piece of lowering that keeps the account, with its statements put behind those so
far. -/
def Lowering.KeepsAccount (managed : Symbol → Bool) (reads writes writes' : List Symbol)
    (l l' : Lowering) : Prop :=
  ∀ segment, Accounts managed reads writes segment l.state →
    ∃ more, l'.emission.body = l.emission.body ++ more ∧
      Accounts managed reads writes' (segment ++ more) l'.state

namespace Lowering.KeepsAccount

variable {managed : Symbol → Bool} {reads writes writes' writes'' : List Symbol}
  {l l' l'' : Lowering}

theorem trans (h : l.KeepsAccount managed reads writes writes' l')
    (h' : l'.KeepsAccount managed reads writes' writes'' l'') :
    l.KeepsAccount managed reads writes writes'' l'' := by
  intro segment haccount
  obtain ⟨first, hfirst, haccount⟩ := h segment haccount
  obtain ⟨second, hsecond, haccount⟩ := h' _ haccount
  refine ⟨first ++ second, ?_, ?_⟩
  · rw [hsecond, hfirst, List.append_assoc]
  · rwa [← List.append_assoc]

/-- Neither statements nor values have changed. -/
theorem of_eq (hbody : l'.emission.body = l.emission.body) (hstate : l'.state = l.state) :
    l.KeepsAccount managed reads writes writes l' := by
  intro segment haccount
  refine ⟨[], by rw [hbody, List.append_nil], ?_⟩
  rwa [hstate, List.append_nil]

/-- A statement whose variables come from evaluating allowed expressions. -/
theorem emit (stmt : Stmt)
    (hstmt : ∀ name ∈ stmt.reads, ∃ e, e.Allowed managed reads writes ∧ name ∈ (l.eval e).vars) :
    l.KeepsAccount managed reads writes writes (l.emit stmt) := by
  intro segment haccount
  refine ⟨[stmt], rfl, haccount.append ?_⟩
  intro other hother symbol htracked hread
  obtain rfl := List.mem_singleton.mp hother
  obtain ⟨e, hallowed, hmem⟩ := hstmt _ hread
  exact haccount.covered_vars hallowed htracked hmem

theorem mono (h : l.KeepsAccount managed reads writes writes' l') (hsubset : writes'' ⊆ writes') :
    l.KeepsAccount managed reads writes writes'' l' := by
  intro segment haccount
  obtain ⟨stmts, hbody, haccount⟩ := h segment haccount
  exact ⟨stmts, hbody, haccount.mono (List.Subset.refl _) hsubset⟩

/-- Symbols that count as read or written already may count as written. -/
theorem addWrites (h : l.KeepsAccount managed reads writes writes l') {more : List Symbol}
    (hmore : Counts managed reads writes more) :
    l.KeepsAccount managed reads writes (writes ++ more) l' := by
  intro segment haccount
  obtain ⟨stmts, hbody, haccount⟩ := h segment haccount
  exact ⟨stmts, hbody, haccount.addWrites hmore⟩

end Lowering.KeepsAccount

theorem Instruction.effectWrites_of_effect_nil {insn : Instruction} (heffect : insn.effect = []) :
    insn.effectWrites = [] := by
  rw [effectWrites, heffect]
  rfl

namespace BlockContext

variable (context : BlockContext) {insn : Instruction} {managed : Symbol → Bool}
  {reads writes : List Symbol}

theorem keepsAccount_commit (required : List Symbol) (force : Symbol → Expr → Bool)
    (l : Lowering) :
    l.KeepsAccount managed reads writes writes (context.commit required force l) := by
  intro segment haccount
  refine ⟨_, body_commit context required force l, ?_⟩
  rw [state_commit]
  exact haccount.commit required force

/-- An instruction without C form that writes no symbol. -/
theorem unmodeled_of_effectWrites (hwrites : insn.effectWrites = []) (l : Lowering) :
    context.unmodeled insn l =
      (context.commit [] (fun _ _ => true) l).emit (.asm insn.text) := by
  have hupdates : ∀ l' : Lowering, context.applyFrameUpdates insn l' = l' := by
    intro l'
    rw [applyFrameUpdates, List.filterMap_eq_nil_iff.mpr]
    · rfl
    · intro write hwrite
      have hlocation := List.filterMap_eq_nil_iff.mp hwrites write hwrite
      split
      · rename_i hsymbol
        simp [hsymbol, Location.asSymbol?] at hlocation
      · rfl
  rw [Instruction.effectWrites] at hwrites
  simp only [unmodeled, hupdates, hwrites, List.filter_nil, List.foldl_nil]

theorem keepsAccount_unmodeled (hwrites : insn.effectWrites = []) (l : Lowering) :
    l.KeepsAccount managed reads writes writes (context.unmodeled insn l) := by
  rw [context.unmodeled_of_effectWrites hwrites]
  exact (context.keepsAccount_commit [] _ l).trans
    (.emit _ fun name hname => absurd hname List.not_mem_nil)

/-- A conditional goto reads what its condition does. -/
theorem keepsAccount_branch {cond : CExpr} {l : Lowering}
    (hcond : ∀ segment symbol, Accounts managed reads writes segment l.state →
      symbol.Tracked managed → symbol.text ∈ cond.vars → Covered reads segment symbol) :
    l.KeepsAccount managed reads writes writes (context.branch insn cond l) := by
  rw [branch]
  split
  · intro segment haccount
    refine ⟨_, rfl, haccount.append ?_⟩
    intro stmt hstmt symbol htracked hread
    obtain rfl := List.mem_singleton.mp hstmt
    apply hcond segment symbol haccount htracked
    simpa [Stmt.ifGoto, Stmt.reads] using hread
  · exact .emit _ fun name hname => absurd hname List.not_mem_nil

/-- A value from outside goes to the variable of a symbol that is no longer followed. -/
theorem keepsAccount_receive {target : Symbol} {e : CExpr} {l : Lowering}
    (hreads : ∀ segment symbol, Accounts managed reads writes segment l.state →
      symbol.Tracked managed → symbol.text ∈ e.vars → Covered reads segment symbol) :
    l.KeepsAccount managed reads writes (target :: writes)
      ((context.clobber [target] l).emit (.assign (.ofSymbol target) e)) := by
  intro segment haccount
  let forced (symbol : Symbol) (value : Expr) : Bool :=
    symbol ∉ [target] && [target].any fun clobbered => value.references clobbered
  have hbody : ((context.clobber [target] l).emit (.assign (.ofSymbol target) e)).emission.body =
      l.emission.body ++ ((l.state.commit [] forced).stmts ++ [.assign (.ofSymbol target) e]) := by
    rw [← List.append_assoc, ← body_commit context [] forced l]
    rfl
  have hstate : ((context.clobber [target] l).emit (.assign (.ofSymbol target) e)).state =
      ((l.state.commit [] forced).state.discard target) := by
    rw [← state_commit context [] forced l]
    rfl
  refine ⟨_, hbody, ?_⟩
  rw [hstate, ← List.append_assoc]
  apply (haccount.commit [] forced).receive
  intro symbol htracked hmem
  exact (hreads segment symbol haccount htracked hmem).mono (List.Subset.refl _) _

/-- A call of an intrinsic reads its arguments. -/
theorem keepsAccount_intrinsic {l declared : Lowering}
    (hbody : declared.emission.body = l.emission.body) (hstate : declared.state = l.state)
    (name : String) {args : List CExpr}
    (hargs : ∀ segment symbol, Accounts managed reads writes segment l.state →
      symbol.Tracked managed → ∀ arg ∈ args, symbol.text ∈ arg.vars →
        Covered reads segment symbol) :
    l.KeepsAccount managed reads writes writes (declared.emit (.expr (.call name args))) := by
  intro segment haccount
  refine ⟨[.expr (.call name args)], by rw [← hbody]; rfl, ?_⟩
  rw [show (declared.emit (.expr (.call name args))).state = l.state from hstate]
  apply haccount.append
  intro stmt hstmt symbol htracked hread
  obtain rfl := List.mem_singleton.mp hstmt
  obtain ⟨arg, harg, hmem⟩ := CExpr.mem_vars_call hread
  exact hargs segment symbol haccount htracked arg harg hmem

end BlockContext

end Uncompile
