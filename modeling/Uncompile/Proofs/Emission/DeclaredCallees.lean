import Uncompile.Proofs.C.Occurrence
import Uncompile.Proofs.Emission.Evolution
import Uncompile.Proofs.Emission.Requests
import Uncompile.Proofs.Machine.PortReads

/-!
# Emitted calls are declared

A call by name is put into a statement in two ways: by an instruction, which has the
function declared first, or where a value reads a port. Values that are held back never
read one, since the only effect that does is not taken over. So at every point of a
function, whatever has been emitted calls functions that are declared by then.
-/

namespace Uncompile

/-! ## Targets of calls -/

/-- Whatever the binding table, no value that a call goes through reads a port. -/
def Disassembler.PortFreeTargets (code : Disassembler) : Prop :=
  ∀ table insn value, (code.view table).target? insn = some (.indirect value) →
    value.readsPort = false

/-- Targets that are read off the operand of the call are such values. -/
theorem Disassembly.portFreeTargets (disassembly : Disassembly) :
    (disassembly : Disassembler).PortFreeTargets :=
  fun _ _ _ htarget => Instruction.readsPort_of_target? htarget

/-! ## Calls by name -/

/-- The functions that an expression calls by name are among those given. -/
def CExpr.CallsWithin (names : List String) (e : CExpr) : Prop :=
  ∀ name args, CExpr.Occurs (.call name args) e → name ∈ names

/-- The functions that a statement calls by name are among those given. -/
def Stmt.CallsWithin (names : List String) (stmt : Stmt) : Prop :=
  ∀ name args, stmt.Mentions (.call name args) → name ∈ names

namespace CExpr

variable {names : List String}

theorem callsWithin_ofSymbol (symbol : Symbol) : (ofSymbol symbol).CallsWithin names := by
  intro name args hcall
  cases hcall

theorem callsWithin_slotAddress (offset : Int) :
    (addrOf (stackVar offset 4)).CallsWithin names := by
  intro name args hcall
  cases hcall with
  | addrOf hpart => cases hpart

theorem CallsWithin.preDec {inner : CExpr} (h : inner.CallsWithin names) :
    inner.preDec.CallsWithin names := by
  intro name args hcall
  cases hcall with
  | preDec hpart => exact h name args hpart

theorem CallsWithin.binary {lhs rhs : CExpr} (hlhs : lhs.CallsWithin names)
    (hrhs : rhs.CallsWithin names) (op : BinOp) : (binary op lhs rhs).CallsWithin names := by
  intro name args hcall
  cases hcall with
  | left hpart => exact hlhs name args hpart
  | right hpart => exact hrhs name args hpart

theorem callsWithin_call {name : String} {args : List CExpr} (hname : name ∈ names)
    (hargs : ∀ arg ∈ args, arg.CallsWithin names) : (call name args).CallsWithin names := by
  intro other others hcall
  cases hcall with
  | whole => exact hname
  | argument harg hpart => exact hargs _ harg other others hpart

theorem callsWithin_callPointer {target : CExpr} (htarget : target.CallsWithin names)
    (ret : CType) : (callPointer target ret []).CallsWithin names := by
  intro name args hcall
  cases hcall with
  | target hpart => exact htarget name args hpart
  | pointerArgument harg hpart => cases harg

/-- A value calls nothing by name if it reads no port. -/
theorem callsWithin_ofExpr {e : Expr} (he : e.readsPort = false) :
    (ofExpr e).CallsWithin names := by
  induction e with
  | const value =>
      intro name args hcall
      cases hcall
  | sym symbol =>
      cases symbol with
      | framePtr => exact callsWithin_slotAddress 0
      | _ => exact callsWithin_ofSymbol _
  | mem ptr size ih =>
      intro name args hcall
      rw [ofExpr] at hcall
      split at hcall
      · cases hcall
      · cases hcall with
        | deref hpart => exact ih he name args hpart
  | port p size => cases he
  | unary op arg ih =>
      intro name args hcall
      cases hcall with
      | unary hpart => exact ih he name args hpart
  | binary op lhs rhs ihl ihr =>
      rw [Expr.readsPort, Bool.or_eq_false_iff] at he
      rw [ofExpr]
      split
      · exact callsWithin_slotAddress _
      · exact (ihl he.1).binary (ihr he.2) op

end CExpr

namespace Stmt

variable {names : List String}

theorem callsWithin_assign {lhs rhs : CExpr} (hlhs : lhs.CallsWithin names)
    (hrhs : rhs.CallsWithin names) : (assign lhs rhs).CallsWithin names := by
  intro name args hcall
  cases hcall with
  | place hpart => exact hlhs name args hpart
  | value hpart => exact hrhs name args hpart

theorem callsWithin_ifGoto {cond : CExpr} (hcond : cond.CallsWithin names) (label : String) :
    (ifGoto cond label).CallsWithin names := by
  intro name args hcall
  cases hcall with
  | cond hpart => exact hcond name args hpart
  | branch hpart => cases hpart

theorem callsWithin_ret {e : CExpr} (he : e.CallsWithin names) :
    (ret (some e)).CallsWithin names := by
  intro name args hcall
  cases hcall with
  | returned hpart => exact he name args hpart

theorem callsWithin_expr {e : CExpr} (he : e.CallsWithin names) : (expr e).CallsWithin names := by
  intro name args hcall
  cases hcall with
  | evaluated hpart => exact he name args hpart

theorem callsWithin_asm (text : String) : (asm text).CallsWithin names := by
  intro name args hcall
  cases hcall

theorem callsWithin_goto (text : String) : (goto text).CallsWithin names := by
  intro name args hcall
  cases hcall

theorem callsWithin_label (text : String) : (label text).CallsWithin names := by
  intro name args hcall
  cases hcall

theorem CallsWithin.mono {stmt : Stmt} (h : stmt.CallsWithin names) {more : List String}
    (hmore : names ⊆ more) : stmt.CallsWithin more :=
  fun name args hcall => hmore (h name args hcall)

end Stmt

/-! ## Values that are held back -/

namespace BlockState

/-- No bound value reads a port. -/
def PortFree (state : BlockState) : Prop :=
  ∀ symbol value, state.live.get? symbol = some value → value.readsPort = false

namespace PortFree

variable {state : BlockState} (h : state.PortFree)

include h

theorem eval {e : Expr} (he : e.readsPort = false) : (state.eval e).readsPort = false :=
  Expr.readsPort_reduce (Expr.readsPort_bind he h)

theorem commit (required : List Symbol) (force : Symbol → Expr → Bool) :
    (state.commit required force).state.PortFree := by
  intro symbol value hvalue
  rw [get?_live_commit] at hvalue
  split at hvalue
  · cases hvalue
  · exact h symbol value hvalue

theorem discard (symbol : Symbol) : (state.discard symbol).PortFree := by
  intro other value hvalue
  rw [get?_live_discard] at hvalue
  split at hvalue
  · cases hvalue
  · exact h other value hvalue

theorem discardAll (symbols : List Symbol) : (symbols.foldl BlockState.discard state).PortFree := by
  induction symbols generalizing state with
  | nil => exact h
  | cons symbol rest ih => exact ih (h.discard symbol)

theorem update {symbol : Symbol} {value : Expr} (hvalue : value.readsPort = false)
    (managed : Bool) : (state.update symbol value managed).PortFree := by
  intro other held hheld
  rw [get?_live_update] at hheld
  split at hheld
  · cases hheld
    exact hvalue
  · exact h other held hheld

/-- The assignments of a commit call nothing by name. -/
theorem callsWithin_commit (required : List Symbol) (force : Symbol → Expr → Bool)
    {names : List String} :
    ∀ stmt ∈ (state.commit required force).stmts, stmt.CallsWithin names := by
  intro stmt hstmt
  obtain ⟨symbol, _, hassign⟩ := List.mem_filterMap.mp hstmt
  rw [assignment?] at hassign
  split at hassign
  · rename_i value hvalue
    split at hassign
    · cases hassign
    · cases hassign
      exact Stmt.callsWithin_assign (CExpr.callsWithin_ofSymbol symbol)
        (CExpr.callsWithin_ofExpr (h symbol value hvalue))
  · cases hassign

end PortFree

/-- What an instruction makes of a block state reads no port if its effect does not. -/
theorem Evolves.portFree {managed : Symbol → Bool} {effect : Effect} {start state : BlockState}
    (h : Evolves managed effect start state) (hstart : start.PortFree)
    (heffect : effect.PortFree) : state.PortFree := by
  induction h with
  | refl => exact hstart
  | commit _ required force ih => exact ih.commit required force
  | discard _ symbol ih => exact ih.discard symbol
  | update _ _ hwrite ih ihread => exact ih.update (ihread.eval (heffect _ hwrite).2) _

end BlockState

/-! ## Lowering -/

namespace Lowering

/-- No value that is held back reads a port, and what has been emitted calls declared
functions only. -/
structure CallsDeclared (l : Lowering) : Prop where
  portFree : l.state.PortFree
  declared : ∀ stmt ∈ l.emission.body, stmt.CallsWithin l.emission.declarations.names

namespace CallsDeclared

variable {l : Lowering} (h : l.CallsDeclared)

include h

theorem callsWithin_eval {e : Expr} (he : e.readsPort = false) {names : List String} :
    (l.eval e).CallsWithin names :=
  CExpr.callsWithin_ofExpr (h.portFree.eval he)

theorem emit {stmt : Stmt} (hstmt : stmt.CallsWithin l.emission.declarations.names) :
    (l.emit stmt).CallsDeclared :=
  ⟨h.portFree, List.forall_mem_append.mpr ⟨h.declared, List.forall_mem_singleton.mpr hstmt⟩⟩

theorem emitAll {stmts : List Stmt}
    (hstmts : ∀ stmt ∈ stmts, stmt.CallsWithin l.emission.declarations.names) :
    (l.emitAll stmts).CallsDeclared :=
  ⟨h.portFree, List.forall_mem_append.mpr ⟨h.declared, hstmts⟩⟩

theorem withState {state : BlockState} (hstate : state.PortFree) :
    { l with state := state }.CallsDeclared :=
  ⟨hstate, h.declared⟩

/-- Meeting a request takes no name away. -/
theorem request (request : DeclRequest) :
    (l.mapDeclarations fun table => request.apply table).CallsDeclared :=
  ⟨h.portFree, fun stmt hstmt => (h.declared stmt hstmt).mono
    (DeclRequest.isPrefix_names_apply l.emission.declarations request).subset⟩

/-- An instruction has a function declared and then calls it with values. -/
theorem intrinsic (name : String) (ret : CType) (params : List CType) {args : List CExpr}
    (hargs : ∀ arg ∈ args, ∀ names, arg.CallsWithin names) :
    ((l.declare name ret params).emit (.expr (.call name args))).CallsDeclared := by
  apply (h.request (.intrinsic name ret params)).emit
  apply Stmt.callsWithin_expr
  apply CExpr.callsWithin_call
  · exact DeclRequest.subject_mem_names_apply _ (.intrinsic name ret params)
  · exact fun arg harg => hargs arg harg _

end CallsDeclared

end Lowering

namespace BlockContext

variable (context : BlockContext) {insn : Instruction} {l : Lowering} (h : l.CallsDeclared)

include h

theorem callsDeclared_commit (required : List Symbol) (force : Symbol → Expr → Bool) :
    (context.commit required force l).CallsDeclared := by
  have hcommitted := (h.withState (h.portFree.commit required force)).emitAll
    (h.portFree.callsWithin_commit required force)
  rw [commit]
  split
  · exact ⟨hcommitted.portFree, hcommitted.declared⟩
  · exact hcommitted

theorem callsDeclared_clobber (symbols : List Symbol) :
    (context.clobber symbols l).CallsDeclared := by
  have hcommitted := context.callsDeclared_commit h [] fun symbol value =>
    symbol ∉ symbols && symbols.any fun clobbered => value.references clobbered
  exact hcommitted.withState (hcommitted.portFree.discardAll symbols)

theorem callsDeclared_branch {cond : CExpr}
    (hcond : cond.CallsWithin l.emission.declarations.names) :
    (context.branch insn cond l).CallsDeclared := by
  rw [branch]
  split
  · rename_i target _
    have hmarked : (Lowering.markGoto { l with successors := l.successors.filter (· ≠ target) }
        target).CallsDeclared := ⟨h.portFree, h.declared⟩
    exact hmarked.emit (Stmt.callsWithin_ifGoto hcond _)
  · exact h.emit (Stmt.callsWithin_asm _)

theorem callsDeclared_loop (cc : Option Condition) : (context.loop insn cc l).CallsDeclared := by
  have hcommitted := context.callsDeclared_commit h context.required
    fun symbol _ => symbol = .reg .ecx
  have hcounter : ∀ names, (CExpr.preDec (.ofSymbol (.reg .ecx))).CallsWithin names :=
    fun _ => (CExpr.callsWithin_ofSymbol _).preDec
  apply context.callsDeclared_branch hcommitted
  cases cc with
  | none => exact hcounter _
  | some cc =>
      exact (hcounter _).binary (hcommitted.callsWithin_eval cc.readsPort_toExpr) .land

theorem callsDeclared_setSpecial (insn : Instruction) (reg : SpecialReg) :
    (setSpecial insn reg l).CallsDeclared := by
  apply h.intrinsic
  intro arg harg names
  rw [List.mem_singleton.mp harg]
  apply CExpr.callsWithin_ofExpr
  have hsource : (((insn.operands[1]?).map Operand.value).getD (.sym .unknown)).readsPort =
      false := by
    cases insn.operands[1]? with
    | none => rfl
    | some operand => exact operand.readsPort_value
  have hvalue := h.portFree.eval hsource
  split
  · exact Expr.readsPort_reduce (by simp [hvalue])
  · exact hvalue

theorem callsWithin_slotArgs (pointerSize : Nat) (start : Option Int) (params : List ParamType)
    (names : List String) : ∀ arg ∈ slotArgs pointerSize l start params, arg.CallsWithin names := by
  induction params generalizing start with
  | nil =>
      rw [slotArgs]
      exact List.forall_mem_nil _
  | cons param rest ih =>
      cases start with
      | none => exact List.forall_mem_cons.mpr ⟨CExpr.callsWithin_ofSymbol _, ih none⟩
      | some offset =>
          exact List.forall_mem_cons.mpr ⟨h.callsWithin_eval (by simp), ih _⟩

/-- The arguments of a call are values of registers and slots. -/
theorem callsWithin_callArgs (insn : Instruction) (prototype : FunctionType)
    (names : List String) :
    ∀ arg ∈ context.callArgs insn prototype l, arg.CallsWithin names := by
  apply List.forall_mem_append.mpr ⟨?_, callsWithin_slotArgs h _ _ _ names⟩
  rw [registerArgs]
  split
  · intro arg harg
    obtain ⟨slot, _, rfl⟩ := List.mem_map.mp harg
    exact h.callsWithin_eval (by simp)
  · exact List.forall_mem_nil _

section EffectWithoutPorts

variable (heffect : insn.effect.PortFree)

include heffect

theorem callsDeclared_applyFrameUpdates : (context.applyFrameUpdates insn l).CallsDeclared :=
  h.withState ((context.evolves_applyFrameUpdates .refl).portFree h.portFree heffect)

theorem callsDeclared_unmodeled : (context.unmodeled insn l).CallsDeclared := by
  have hemitted := (context.callsDeclared_commit h [] fun _ _ => true).emit
    (Stmt.callsWithin_asm insn.text)
  have hmoved := context.callsDeclared_applyFrameUpdates hemitted heffect
  exact hmoved.withState (hmoved.portFree.discardAll _)

theorem callsDeclared_plain : (context.plain insn l).CallsDeclared := by
  have hready : (context.ready insn l).CallsDeclared := by
    rw [ready]
    split
    · exact context.callsDeclared_commit h _ _
    · exact h
  have hdeclarations : (context.plain insn l).emission.declarations =
      (context.ready insn l).emission.declarations := rfl
  refine ⟨(context.evolves_plain .refl).portFree h.portFree heffect, ?_⟩
  rw [body_plain, hdeclarations, List.forall_mem_append]
  refine ⟨hready.declared, fun stmt hstmt => ?_⟩
  obtain ⟨write, hwrite, rfl⟩ := List.mem_map.mp hstmt
  obtain ⟨hplace, hvalue⟩ := heffect write (List.mem_of_mem_filter hwrite)
  exact Stmt.callsWithin_assign (hready.callsWithin_eval hplace) (hready.callsWithin_eval hvalue)

theorem callsDeclared_finishCall (rest : List Instruction) (ret : CType) {call : CExpr}
    (hcall : call.CallsWithin l.emission.declarations.names) :
    (context.finishCall insn rest ret call l).CallsDeclared := by
  have hcleared := context.callsDeclared_clobber h
    (context.config.scratchRegisters.map Symbol.reg)
  rw [← context.declarations_clobber l (context.config.scratchRegisters.map Symbol.reg)] at hcall
  rw [finishCall]
  refine context.callsDeclared_applyFrameUpdates ?_ heffect
  split
  · exact hcleared.emit (Stmt.callsWithin_assign (CExpr.callsWithin_ofSymbol _) hcall)
  · exact hcleared.emit (Stmt.callsWithin_expr hcall)

/-- A call has its callee declared, unless it goes through a value. -/
theorem callsDeclared_call (htargets : context.scope.disassembly.PortFreeTargets)
    (rest : List Instruction) :
    (context.call insn rest l).CallsDeclared := by
  have hready := context.callsDeclared_commit h (context.required.filter fun symbol =>
    symbol ∉ context.config.scratchRegisters.map Symbol.reg) ifReadsMemory
  rw [call]
  dsimp only
  split
  · rename_i target htarget
    have hdeclared := hready.request
      (.callee (context.scope.program.nameOf target context.config.externPrefix))
    have hname := DeclRequest.subject_mem_names_apply (context.commit (context.required.filter
      fun symbol => symbol ∉ context.config.scratchRegisters.map Symbol.reg) ifReadsMemory
        l).emission.declarations
      (.callee (context.scope.program.nameOf target context.config.externPrefix))
    split
    · exact context.callsDeclared_finishCall hdeclared heffect rest _
        (CExpr.callsWithin_call hname (context.callsWithin_callArgs hdeclared insn _ _))
    · exact context.callsDeclared_finishCall hdeclared heffect rest _
        (CExpr.callsWithin_call hname (List.forall_mem_nil _))
  · rename_i value hvalue
    exact context.callsDeclared_finishCall hready heffect rest _ (CExpr.callsWithin_callPointer
      (hready.callsWithin_eval (htargets _ _ _ hvalue)) .word)
  · exact context.callsDeclared_unmodeled hready heffect

theorem callsDeclared_jump : (context.jump insn l).CallsDeclared := by
  rw [jump]
  split
  · exact h
  · exact context.callsDeclared_unmodeled h heffect
  · exact context.callsDeclared_unmodeled h heffect
  · rename_i operand _ _ _ _
    have hcommitted := context.callsDeclared_commit h context.required never
    have hleft : Lowering.CallsDeclared
        { context.commit context.required never l with successors := [] } :=
      ⟨hcommitted.portFree, hcommitted.declared⟩
    exact hleft.emit (Stmt.callsWithin_ret (CExpr.callsWithin_callPointer
      (hcommitted.callsWithin_eval operand.readsPort_value) .void))

theorem callsDeclared_getSpecial (reg : SpecialReg) :
    (context.getSpecial insn reg l).CallsDeclared := by
  have hdeclared := h.request (.intrinsic ("intrinsic_get_" ++ reg.text) (.int reg.bits) [])
  have hname := DeclRequest.subject_mem_names_apply l.emission.declarations
    (.intrinsic ("intrinsic_get_" ++ reg.text) (.int reg.bits) [])
  rw [getSpecial]
  split
  · apply (context.callsDeclared_clobber hdeclared _).emit
    apply Stmt.callsWithin_assign (CExpr.callsWithin_ofSymbol _)
    rw [context.declarations_clobber]
    exact CExpr.callsWithin_call hname (List.forall_mem_nil _)
  · exact context.callsDeclared_unmodeled hdeclared heffect

theorem callsDeclared_loadTable (table : DescriptorTable) :
    (context.loadTable insn table l).CallsDeclared := by
  have hstructures := h.request (.structures table)
  rw [loadTable_eq]
  dsimp only
  split
  · rename_i m _ _
    apply hstructures.intrinsic
    intro arg harg names
    rw [List.mem_singleton.mp harg]
    exact h.callsWithin_eval m.readsPort_address
  · exact context.callsDeclared_unmodeled (hstructures.request (.intrinsic _ _ _)) heffect

theorem callsDeclared_systemLoad (load : SystemLoad) :
    (context.systemLoad insn load l).CallsDeclared := by
  rw [systemLoad_eq]
  dsimp only
  split
  · rename_i operand _ _
    apply h.intrinsic
    intro arg harg names
    rw [List.mem_singleton.mp harg]
    exact h.callsWithin_eval operand.readsPort_value
  · exact context.callsDeclared_unmodeled (h.request (.intrinsic _ _ _)) heffect

end EffectWithoutPorts

section Ports

variable (hlifted : insn.HasLiftedEffect)

include hlifted

theorem callsDeclared_portOut (hkind : insn.kind = .portOut) :
    (context.portOut insn l).CallsDeclared := by
  rw [portOut]
  split
  · rename_i port source _
    apply h.intrinsic
    intro arg harg names
    rcases List.mem_pair.mp harg with rfl | rfl
    · exact h.callsWithin_eval port.readsPort_value
    · exact h.callsWithin_eval source.readsPort_value
  · rename_i hoperands
    exact context.callsDeclared_unmodeled h
      (hlifted.portFree_of_operands (Or.inr hkind) hoperands)

/-- The value that is read goes into its register and is not held back. -/
theorem callsDeclared_portIn (hkind : insn.kind = .portIn) :
    (context.portIn insn l).CallsDeclared := by
  rw [portIn]
  split
  · rename_i target port _
    have hdeclared := h.request
      (.intrinsic ("intrinsic_in" ++ decimalText target.bitSize) (.int target.bitSize) [.ushort])
    apply (context.callsDeclared_clobber hdeclared _).emit
    apply Stmt.callsWithin_assign (CExpr.callsWithin_ofSymbol _)
    rw [context.declarations_clobber]
    apply CExpr.callsWithin_call
    · exact DeclRequest.subject_mem_names_apply l.emission.declarations
        (.intrinsic ("intrinsic_in" ++ decimalText target.bitSize) (.int target.bitSize) [.ushort])
    · exact List.forall_mem_singleton.mpr (h.callsWithin_eval port.readsPort_value)
  · rename_i hoperands
    exact context.callsDeclared_unmodeled h
      (hlifted.portFree_of_operands (Or.inl hkind) hoperands)

end Ports

/-- Lowering an instruction keeps this. -/
theorem callsDeclared_lower (htargets : context.scope.disassembly.PortFreeTargets)
    (hlifted : insn.HasLiftedEffect) (rest : List Instruction) :
    (context.lower insn rest l).CallsDeclared := by
  by_cases hinput : insn.kind = .portIn
  · rw [lower, hinput]
    exact context.callsDeclared_portIn h hlifted hinput
  by_cases houtput : insn.kind = .portOut
  · rw [lower, houtput]
    exact context.callsDeclared_portOut h hlifted houtput
  have heffect := hlifted.portFree hinput houtput
  have hcommitted := context.callsDeclared_commit h context.required never
  rw [lower]
  cases hkind : insn.kind with
  | jcc cc =>
      exact context.callsDeclared_branch hcommitted
        (hcommitted.callsWithin_eval cc.readsPort_toExpr)
  | loop cc => exact context.callsDeclared_loop h cc
  | ret =>
      exact hcommitted.emit
        (Stmt.callsWithin_ret (hcommitted.callsWithin_eval (Expr.readsPort_reg _)))
  | call => exact context.callsDeclared_call h heffect htargets rest
  | jmp => exact context.callsDeclared_jump h heffect
  | movToSpecial reg => exact callsDeclared_setSpecial h insn reg
  | movFromSpecial reg => exact context.callsDeclared_getSpecial h heffect reg
  | plain => exact context.callsDeclared_plain h heffect
  | descriptorTable table => exact context.callsDeclared_loadTable h heffect table
  | systemLoad load => exact context.callsDeclared_systemLoad h heffect load
  | portOut => exact absurd hkind houtput
  | portIn => exact absurd hkind hinput
  | passthrough => exact h.emit (Stmt.callsWithin_asm _)
  | unmodeled => exact context.callsDeclared_unmodeled h heffect

theorem callsDeclared_lowerAll (htargets : context.scope.disassembly.PortFreeTargets)
    {insns : List Instruction} (hlifted : ∀ insn ∈ insns, insn.HasLiftedEffect) :
    (context.lowerAll insns l).CallsDeclared := by
  induction insns generalizing l with
  | nil => exact h
  | cons insn rest ih =>
      obtain ⟨hinsn, hrest⟩ := List.forall_mem_cons.mp hlifted
      exact ih (context.callsDeclared_lower h htargets hinsn rest) hrest

end BlockContext

/-! ## Functions -/

/-- What has been emitted calls declared functions only. -/
def Emission.CallsDeclared (emission : Emission) : Prop :=
  ∀ stmt ∈ emission.body, stmt.CallsWithin emission.declarations.names

namespace EmissionContext

variable (context : EmissionContext) (deps : Dependencies)

theorem callsDeclared_finishBlock (block : Block) (next : Option Address) {l : Lowering}
    (h : l.CallsDeclared) : (context.finishBlock block next l).CallsDeclared := by
  rw [finishBlock]
  split
  · split <;> exact h.declared
  · rename_i only _
    split
    · exact h.declared
    · have hmarked : (l.markGoto only).CallsDeclared := ⟨h.portFree, h.declared⟩
      exact (hmarked.emit (Stmt.callsWithin_goto _)).declared
  · exact h.declared

/-- The block starts with values at fixed distances from the frame only. -/
theorem callsDeclared_emitBlock (htargets : context.scope.disassembly.PortFreeTargets)
    {block : Block} (hlifted : ∀ insn ∈ block.instructions, insn.HasLiftedEffect)
    (next : Option Address) {emission : Emission} (h : emission.CallsDeclared) :
    (context.emitBlock deps block next emission).CallsDeclared := by
  have hstart : (context.blockStart block emission).CallsDeclared := by
    refine ⟨fun symbol value hvalue => ?_, h⟩
    obtain ⟨_, offset, hoffset⟩ := FrameScope.blockFrame_spec hvalue
    exact Expr.readsPort_of_frameOffset? hoffset
  have hlowered :=
    (context.blockContext deps block).callsDeclared_lowerAll hstart htargets hlifted
  exact context.callsDeclared_finishBlock block next
    ((context.blockContext deps block).callsDeclared_commit hlowered _ _)

theorem callsDeclared_emitBlocks (htargets : context.scope.disassembly.PortFreeTargets)
    {addresses : List Address} {start emission : Emission}
    (hlifted : ∀ insn ∈ (addresses.filterMap context.scope.block?).flatMap Block.instructions,
      insn.HasLiftedEffect)
    (hstart : start.CallsDeclared)
    (hemit : context.emitBlocks deps addresses start = .ok emission) :
    emission.CallsDeclared := by
  induction addresses generalizing start with
  | nil =>
      cases hemit
      exact hstart
  | cons address rest ih =>
      rw [emitBlocks] at hemit
      split at hemit
      · cases hemit
      · rename_i block hblock
        rw [List.filterMap_cons_some hblock, List.flatMap_cons, List.forall_mem_append] at hlifted
        exact ih hlifted.2 (context.callsDeclared_emitBlock deps htargets hlifted.1 _ hstart) hemit

theorem callsDeclared_placeLabels {emission : Emission} (h : emission.CallsDeclared) :
    ∀ stmt ∈ context.placeLabels emission, stmt.CallsWithin emission.declarations.names := by
  rw [placeLabels]
  induction emission.blockStarts.filter _ with
  | nil => exact h
  | cons start rest ih =>
      intro stmt hstmt
      rw [List.foldr_cons, insertLabel, List.mem_append, List.mem_cons] at hstmt
      rcases hstmt with hbefore | rfl | hafter
      · exact ih stmt (List.mem_of_mem_take hbefore)
      · exact Stmt.callsWithin_label _
      · exact ih stmt (List.mem_of_mem_drop hafter)

/-- A whole function calls declared functions only. -/
theorem callsDeclared_emit {declarations : DeclTable} {addresses : List Address}
    {emission : Emission} (hemit : context.emit deps declarations addresses = .ok emission)
    (htargets : context.scope.disassembly.PortFreeTargets)
    (hlifted : ∀ insn ∈ (addresses.filterMap context.scope.block?).flatMap Block.instructions,
      insn.HasLiftedEffect) :
    emission.CallsDeclared := by
  obtain ⟨emitted, hblocks, rfl⟩ := context.emit_eq_ok deps hemit
  have hstart : Emission.CallsDeclared { declarations } := List.forall_mem_nil _
  exact context.callsDeclared_placeLabels
    (context.callsDeclared_emitBlocks deps htargets hlifted hstart hblocks)

end EmissionContext

end Uncompile
