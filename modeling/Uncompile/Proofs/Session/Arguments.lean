import Uncompile.Proofs.Emission.CallOperands
import Uncompile.Proofs.Session.Order

/-!
# Arguments and parameters

A function that has been recovered is called with one argument for each of its
parameters. Registers are passed as they stand. Stack arguments are taken from
consecutive slots of the caller, whereas the parameters of the callee may leave out
slots that it does not mention. So an argument is the slot that the callee reads
exactly up to the slots that are left out before it.
-/

namespace Uncompile

open StackArgs

/-! ## Parameters of a recovered function -/

namespace RecoveredFunction

/-- The argument slots before an offset for which a function has no parameter. -/
def skippedSlots (f : RecoveredFunction) (pointerSize : Nat) (offset : Int) : List Nat :=
  (List.range ((offset - 4).toNat / pointerSize)).filter fun index =>
    .stack (slotOffset pointerSize index) ∉ f.params.map Param.storage

/-- The argument that a parameter is passed in, when the stack pointer stands at a
distance from the caller's frame pointer. -/
def PassedAs (f : RecoveredFunction) (config : Config) (distance : Int) (l : Lowering)
    (param : Param) (arg : CExpr) : Prop :=
  match param.storage with
  | .register reg => arg = l.eval (.binary .and (.reg reg) (.const (sizeMask param.width)))
  | .stack offset =>
    arg = l.eval (.mem (.frame (distance + (offset - 4) -
      config.pointerSize * (f.skippedSlots config.pointerSize offset).length))
        (max param.width 1))

end RecoveredFunction

/-- Stack parameters that stand for argument slots in order, without a gap among the
leading ones. -/
structure Slotted (config : Config) (stack : List Param) (indices : List Nat) : Prop where
  ordered : indices.Pairwise (· < ·)
  filled : ∀ index ∈ indices, index < config.maxStackArgs → ∀ smaller < index, smaller ∈ indices
  params : List.Forall₂ (fun index (param : Param) =>
    param.storage = .stack (slotOffset config.pointerSize index) ∧
      param.width ≤ config.pointerSize) indices stack

theorem slotted_stackParams {config : Config} (hpointer : 0 < config.pointerSize)
    (body : List Stmt) : ∃ indices,
      Slotted config (stackParams body config.pointerSize config.maxStackArgs).1 indices := by
  refine ⟨slots (slotWidths config.pointerSize body) config.maxStackArgs,
    pairwise_slots _ _,
    fun _ hindex hleading _ hsmaller => mem_slots_of_lt hindex hleading hsmaller, ?_⟩
  rw [stackParams_eq, Nat.max_eq_left hpointer, List.forall₂_map_right_iff, List.forall₂_same]
  intro index _
  refine ⟨rfl, ?_⟩
  rw [slotParam.eq_def]
  dsimp only
  split
  · exact Nat.min_le_right _ _
  · exact Nat.le_refl _

theorem StackArgs.slotOffset_injective {slot : Nat} (hslot : 0 < slot) :
    Function.Injective (slotOffset slot) := by
  intro index other heq
  simp only [slotOffset, add_right_inj, mul_eq_mul_right_iff, Nat.cast_inj] at heq
  omega

namespace Slotted

variable {f : RecoveredFunction} {config : Config} {registers stack : List Param}
  {indices : List Nat}

theorem storage_eq (h : Slotted config stack indices) : stack.map Param.storage =
    indices.map fun index => .stack (slotOffset config.pointerSize index) := by
  symm
  rw [← List.forall₂_eq_eq_eq, List.forall₂_map_left_iff, List.forall₂_map_right_iff]
  exact h.params.imp fun _ _ hparam => hparam.1.symm

section Laid

variable (h : Slotted config stack indices) (hlaid : f.Laid config registers stack)
  (hpointer : 0 < config.pointerSize)

include h hlaid

theorem exists_slot {offset : Int} (hoffset : .stack offset ∈ f.params.map Param.storage) :
    ∃ index ∈ indices, slotOffset config.pointerSize index = offset := by
  rw [hlaid.params, List.map_append, h.storage_eq, List.mem_append] at hoffset
  rcases hoffset with hregister | hslot
  · have hstorage := hlaid.inRegisters.subset hregister
    simp [Config.fastcallStorage] at hstorage
  · simpa using hslot

include hpointer

/-- The slots that are left out before a parameter. -/
theorem skippedSlots_eq (index : Nat) :
    f.skippedSlots config.pointerSize (slotOffset config.pointerSize index) =
      (List.range index).filter fun other => other ∉ indices := by
  have hindex : (slotOffset config.pointerSize index - 4).toNat / config.pointerSize = index := by
    have hbytes : slotOffset config.pointerSize index - 4 =
        ((index * config.pointerSize : Nat) : Int) := by
      rw [slotOffset]
      push_cast
      ring
    rw [hbytes, Int.toNat_natCast, Nat.mul_div_cancel _ hpointer]
  have hmem : ∀ other,
      .stack (slotOffset config.pointerSize other) ∈ f.params.map Param.storage ↔
        other ∈ indices := by
    intro other
    constructor
    · intro hstorage
      obtain ⟨slot, hslot, heq⟩ := h.exists_slot hlaid hstorage
      rwa [← slotOffset_injective hpointer heq]
    · intro hother
      rw [hlaid.params, List.map_append, h.storage_eq]
      exact List.mem_append_right _ (List.mem_map.mpr ⟨other, hother, rfl⟩)
  rw [RecoveredFunction.skippedSlots, hindex]
  simp only [hmem]

/-- A stack parameter stands as far behind the first as its slot, less the slots that
are left out before it. -/
theorem position_eq {position : Nat} {param : Param} (hparam : stack[position]? = some param) :
    ∃ offset, param.storage = .stack offset ∧ param.width ≤ config.pointerSize ∧
      (config.pointerSize * position : Int) = offset - 4 -
        config.pointerSize * (f.skippedSlots config.pointerSize offset).length := by
  obtain ⟨hlength, hget⟩ := List.forall₂_iff_get.mp h.params
  obtain ⟨hlt, rfl⟩ := List.getElem?_eq_some_iff.mp hparam
  have hlt' : position < indices.length := hlength ▸ hlt
  refine ⟨_, (hget position hlt' hlt).1, (hget position hlt' hlt).2, ?_⟩
  have hposition := position_add_missing h.ordered (List.getElem?_eq_getElem hlt')
  rw [List.get_eq_getElem, h.skippedSlots_eq hlaid hpointer, slotOffset]
  dsimp only
  have hcast : (position : Int) + ((List.range indices[position]).filter
      fun other => other ∉ indices).length = indices[position] := by
    exact_mod_cast hposition
  rw [← hcast]
  ring

/-- Nothing is left out before a leading slot. -/
theorem skippedSlots_eq_nil {offset : Int} (hoffset : .stack offset ∈ f.params.map Param.storage)
    (hleading : offset - 4 < config.pointerSize * config.maxStackArgs) :
    f.skippedSlots config.pointerSize offset = [] := by
  obtain ⟨index, hindex, rfl⟩ := h.exists_slot hlaid hoffset
  have hlt : index < config.maxStackArgs := by
    rw [slotOffset] at hleading
    have hbytes : (index : Int) * config.pointerSize <
        config.maxStackArgs * config.pointerSize := by
      rw [Int.mul_comm config.maxStackArgs]
      omega
    exact Int.ofNat_lt.mp (Int.lt_of_mul_lt_mul_right hbytes (Int.natCast_nonneg _))
  rw [h.skippedSlots_eq hlaid hpointer, List.filter_eq_nil_iff]
  intro other hother
  simpa using h.filled index hindex hlt other (List.mem_range.mp hother)

end Laid

end Slotted

/-! ## Arguments of a call -/

namespace BlockContext

variable {f : RecoveredFunction} {registers stack : List Param} {indices : List Nat}

theorem slotArgs_eq_mapIdx (pointerSize : Nat) (l : Lowering) (start : Int)
    (params : List ParamType) :
    slotArgs pointerSize l (some start) params = params.mapIdx fun position param =>
      l.eval (.mem (.frame (start + pointerSize * position))
        (paramWidth param.type pointerSize)) := by
  induction params generalizing start with
  | nil => rfl
  | cons param rest ih =>
      rw [slotArgs, ih, List.mapIdx_cons]
      congr 1
      · simp
      · apply List.mapIdx_eq_mapIdx_iff.mpr
        intro position hposition
        congr 3
        push_cast
        ring

theorem paramWidth_ofBytes {bytes : Nat} (hbytes : bytes ≤ 4) (pointerSize : Nat) :
    paramWidth (.ofBytes bytes) pointerSize = max bytes 1 := by
  simp only [paramWidth, CType.ofBytes]
  omega

/-- What a parameter is declared as. -/
def declaredParam (param : Param) : ParamType :=
  { name := some param.name, type := .ofBytes param.width, unused := param.unused }

/-- Stack arguments are passed in consecutive slots. -/
theorem passedAs_slotArgs {config : Config} (hpointer : 0 < config.pointerSize)
    (hsize : config.pointerSize ≤ 4) (hlaid : f.Laid config registers stack)
    (hslots : Slotted config stack indices) (l : Lowering) (start : Int) :
    List.Forall₂ (f.PassedAs config start l) stack
      (slotArgs config.pointerSize l (some start) (stack.map declaredParam)) := by
  rw [slotArgs_eq_mapIdx, List.forall₂_iff_get]
  refine ⟨by simp, fun position hposition _ => ?_⟩
  have hparam : stack[position]? = some stack[position] := List.getElem?_eq_getElem hposition
  obtain ⟨offset, hstorage, hwidth, hoffset⟩ := hslots.position_eq hlaid hpointer hparam
  simp only [RecoveredFunction.PassedAs, List.get_eq_getElem, hstorage, List.getElem_mapIdx,
    List.getElem_map, declaredParam, paramWidth_ofBytes (hwidth.trans hsize)]
  congr 3
  omega

/-- Registers are passed as they stand, and the parameters after them on the stack. -/
theorem passedAs_registerArgs (context : BlockContext)
    (hpointer : 0 < context.config.pointerSize) (hsize : context.config.pointerSize ≤ 4)
    (hlaid : f.Laid context.config registers stack)
    (hkept : RecoveredFunction.Kept registers stack)
    (hfastcall : f.convention = .fastcall ↔ registers ≠ []) (l : Lowering) (start : Int) :
    List.Forall₂ (f.PassedAs context.config start l) registers (context.registerArgs f.type l) ∧
      f.type.stackParams = stack.map declaredParam := by
  have hparams : f.type.params = (registers ++ stack).map declaredParam := by
    rw [← hlaid.params]
    rfl
  have hflag : f.type.fastcall = decide (registers ≠ []) := by
    rw [RecoveredFunction.type]
    simp [hfastcall]
  have hpassed : ∀ param ∈ registers, ∀ reg, param.storage = .register reg →
      f.PassedAs context.config start l param (l.eval (.binary .and (.reg reg) (.const
        (sizeMask (paramWidth (declaredParam param).type context.config.pointerSize))))) := by
    intro param hparam reg hstorage
    have hwidth := hlaid.whole param hparam
    have hbytes : paramWidth (declaredParam param).type context.config.pointerSize =
        param.width := by
      rw [declaredParam, paramWidth_ofBytes (hwidth ▸ hsize)]
      omega
    simp only [RecoveredFunction.PassedAs, hstorage, hbytes]
  have hstorages := hlaid.inRegisters
  rw [registerArgs, FunctionType.stackParams, hflag, hparams]
  rcases registers with _ | ⟨first, _ | ⟨second, _ | ⟨third, rest⟩⟩⟩
  · simp
  · obtain rfl := hkept.single rfl
    have hfirst : first.storage = .register context.config.fastcallRegisters.1 := by
      simpa [Config.fastcallStorage] using hstorages
    exact ⟨.cons (hpassed first (by simp) _ hfirst) .nil, rfl⟩
  · obtain ⟨hfirst, hsecond⟩ : first.storage = .register context.config.fastcallRegisters.1 ∧
        second.storage = .register context.config.fastcallRegisters.2 := by
      simpa [Config.fastcallStorage] using hstorages
    exact ⟨.cons (hpassed first (by simp) _ hfirst) (.cons (hpassed second (by simp) _ hsecond)
      .nil), rfl⟩
  · exact absurd hstorages.length_le (by simp [Config.fastcallStorage])

/-- A call has one argument for each parameter, in order. -/
theorem passedAs_callArgs (context : BlockContext) {insn : Instruction}
    (hpointer : 0 < context.config.pointerSize) (hsize : context.config.pointerSize ≤ 4)
    (hlaid : f.Laid context.config registers stack)
    (hkept : RecoveredFunction.Kept registers stack)
    (hfastcall : f.convention = .fastcall ↔ registers ≠ [])
    (hslots : Slotted context.config stack indices) {l : Lowering} {start : Int}
    (hstart : context.callStart insn l = some start) :
    List.Forall₂ (f.PassedAs context.config start l) f.params
      (context.callArgs insn f.type l) := by
  obtain ⟨hregisters, honStack⟩ :=
    context.passedAs_registerArgs hpointer hsize hlaid hkept hfastcall l start
  have hargs : context.callArgs insn f.type l = context.registerArgs f.type l ++
      slotArgs context.config.pointerSize l (context.callStart insn l) f.type.stackParams := rfl
  rw [hargs, hstart, honStack, hlaid.params]
  exact List.rel_append hregisters
    (passedAs_slotArgs hpointer hsize hlaid hslots l start)

end BlockContext

/-! ## Calls of a recovered function -/

namespace Session

/-- A session that has gone on from another one without a function or declaration of a
given name. -/
inductive Later (session : Session) (name : String) : Session → Prop
  | refl : Later session name session
  | decompile {later : Session} (h : Later session name later) (entry : Address)
      (hname : later.disassembly.nameOf entry later.config.externPrefix ≠ name) :
      Later session name (later.decompile entry).1
  | declare {later : Session} (h : Later session name later) (decl : Declaration)
      (hname : decl.name ≠ name) : Later session name (later.declare decl)

variable {session : Session} {entry : Address} {f : RecoveredFunction}

theorem get?_decompile_of_ne {name : String} {decl : Declaration}
    (hdecl : session.declarations.get? name = some decl)
    (htable : ∀ kind ∈ descriptorKinds, name ≠ kind ++ "_table")
    (hname : session.disassembly.nameOf entry session.config.externPrefix ≠ name) :
    (session.decompile entry).1.declarations.get? name = some decl := by
  cases hresult : (session.decompile entry).2 with
  | error error =>
      rcases session.decompile_cases entry with ⟨heq, _⟩ | ⟨_, heq, _⟩ | ⟨_, _, _, heq⟩
      · rw [heq]
        exact hdecl
      · rw [heq]
        exact hdecl
      · rw [heq] at hresult
        cases hresult
  | ok f =>
      obtain ⟨draft, hdraft, _, heq⟩ := session.decompile_eq_ok entry hresult
      obtain ⟨_, _, hemit, _, _⟩ := session.draft_eq_ok hdraft
      have hother : f.declaration.name ≠ name := by
        rw [← name_decompile hresult] at hname
        exact hname
      rw [heq]
      refine (DeclTable.get?_insert _ _ _).trans ?_
      rw [if_neg hother]
      exact (EmissionContext.advances_emit _ _ hemit).1.get?_eq_some hdecl htable

theorem Later.get?_eq_some {name : String} {later : Session} (h : session.Later name later)
    {decl : Declaration} (hdecl : session.declarations.get? name = some decl)
    (htable : ∀ kind ∈ descriptorKinds, name ≠ kind ++ "_table") :
    later.declarations.get? name = some decl := by
  induction h with
  | refl => exact hdecl
  | decompile _ entry hname ih => exact get?_decompile_of_ne ih htable hname
  | declare _ other hname ih =>
      refine (DeclTable.get?_insert _ _ _).trans ?_
      rw [if_neg hname, ih]

/-- A recovered function is declared. -/
theorem get?_decompile (hf : (session.decompile entry).2 = .ok f) :
    (session.decompile entry).1.declarations.get? f.name = some f.declaration := by
  obtain ⟨_, _, _, heq⟩ := session.decompile_eq_ok entry hf
  rw [heq]
  exact (DeclTable.get?_insert _ _ _).trans (if_pos rfl)

/-- What is taken for granted of a declared function is its prototype. -/
theorem prototype_of_get? {table : DeclTable} {name : String}
    (h : table.get? name = some f.declaration) : table.prototype name = f.type := by
  rw [DeclTable.prototype, DeclTable.function?, h]
  rfl

/-- A function that has been recovered is called with one argument for each of its
parameters, in order, once the distance of the stack pointer from the caller's frame
pointer is known: registers are passed whole, and a stack parameter in the slot that
the callee reads, except that slots which the callee leaves out before it are not
counted. None is left out before a leading slot. -/
theorem call_arguments (hvalid : session.config.violation? = none)
    (hf : (session.decompile entry).2 = .ok f)
    (htable : ∀ kind ∈ descriptorKinds, f.name ≠ kind ++ "_table") {later : Session}
    (hlater : (session.decompile entry).1.Later f.name later) {context : BlockContext}
    (hconfig : context.config = session.config) {insn : Instruction} {l : Lowering}
    (hdeclarations : later.declarations.Advances l.emission.declarations)
    (hkind : insn.kind = .call) {target : Address}
    (htarget : context.scope.target? insn = some (.address target))
    (hname : context.scope.program.nameOf target context.config.externPrefix = f.name)
    {distance : Int}
    (hstart : context.callStart insn (context.callReady l) = some distance)
    (rest : List Instruction) :
    (∃ before stmt args, (context.lower insn rest l).emission.body = before ++ [stmt] ∧
      context.IsCall stmt (.call f.name args) ∧
      List.Forall₂ (f.PassedAs session.config distance (context.callReady l)) f.params args) ∧
    ∀ offset : Int, .stack offset ∈ f.params.map Param.storage →
      offset - 4 < session.config.pointerSize * session.config.maxStackArgs →
      f.skippedSlots session.config.pointerSize offset = [] := by
  obtain ⟨draft, hdraft, hsettle, _⟩ := session.decompile_eq_ok entry hf
  obtain ⟨registers, _, hconsistent, _⟩ := session.consistent_settle entry hvalid hdraft
  rw [hsettle] at hconsistent
  have hsize := Config.pointerSize_eq hvalid
  have hpointer : 0 < session.config.pointerSize := by omega
  obtain ⟨indices, hslots⟩ := slotted_stackParams hpointer draft.function.body
  have hprototype : l.emission.declarations.prototype f.name = f.type :=
    prototype_of_get? (hdeclarations.get?_eq_some
      (hlater.get?_eq_some (get?_decompile hf) htable) htable)
  have hlower : context.lower insn rest l = context.call insn rest l := by
    rw [BlockContext.lower, hkind]
  obtain ⟨declared, hready, hcall⟩ := context.call_eq_finishCall insn htarget hname rest l
  rw [hprototype, context.callArgs_of_alike insn hready] at hcall
  obtain ⟨stmt, hstmt, hbody, _⟩ := context.finishCall_emits insn rest f.type.ret
    (.call f.name (context.callArgs insn f.type (context.callReady l))) declared
  have hemitted : (context.lower insn rest l).emission.body = declared.emission.body ++
      (declared.state.commit [] context.savedFromCall).stmts ++ [stmt] := by
    rw [hlower, hcall]
    exact hbody
  rw [← hconfig] at hconsistent hslots hpointer hsize ⊢
  exact ⟨⟨_, stmt, _, hemitted, hstmt, context.passedAs_callArgs hpointer (by omega)
      hconsistent.toLaid hconsistent.toKept hconsistent.fastcall hslots hstart⟩,
    fun _ hoffset hleading =>
      hslots.skippedSlots_eq_nil hconsistent.toLaid hpointer hoffset hleading⟩

end Session

/-! ## A callee that leaves out slots -/

namespace GappedArguments

def call : Instruction := .ofMnemonic 0x1012 "call" [.imm 0x2000]

/-- Passes six arguments, of which it sets the first and the last. -/
def caller : Block :=
  { address := 0x1000
    instructions := [.ofMnemonic 0x1000 "sub" [.ofReg .esp, .imm 24],
      .ofMnemonic 0x1003 "mov" [.atOffset .esp 0, .imm 1],
      .ofMnemonic 0x100a "mov" [.atOffset .esp 20, .imm 6],
      call, .ofMnemonic 0x1017 "add" [.ofReg .esp, .imm 24], .ofMnemonic 0x101a "ret" []] }

/-- Reads its first and its sixth argument. -/
def callee : Block :=
  { address := 0x2000
    instructions := [.ofMnemonic 0x2000 "mov" [.ofReg .eax, .atOffset .esp 4],
      .ofMnemonic 0x2004 "add" [.ofReg .eax, .atOffset .esp 24], .ofMnemonic 0x2008 "ret" []] }

def program : Program :=
  [caller, callee].foldl Program.insertBlock { functions := [0x1000, 0x2000] }

/-- Gaps are filled in the first slot only. -/
def session : Session :=
  { disassembly := program.disassembler, config := { maxStackArgs := 1 } }

/-- The session in which the callee is known. -/
def later : Session := (session.decompile 0x2000).1

theorem storage_eq : (session.decompile 0x2000).2.toOption.map
    (fun g => g.params.map Param.storage) = some [.stack 4, .stack 24] := by
  rw [session, Program.disassembler, Disassembly.disassembler_eq_listed]
  decide +kernel

theorem stackOffsetAt?_eq : (later.scopeOf 0x1000).stackOffsetAt? call.address = some (-24) := by
  rw [later, session, Program.disassembler, Disassembly.disassembler_eq_listed]
  decide +kernel

set_option maxRecDepth 4000 in
theorem body_eq : (later.decompile 0x1000).2.toOption.map RecoveredFunction.body =
    some [.assign (.stackVar (-24) 4) (.const 1), .assign (.stackVar (-4) 4) (.const 6),
      .assign (.ofSymbol (.reg .eax))
        (.call "sub_2000" [.stackVar (-24) 4, .stackVar (-20) 4]),
      .ret (some (.ofSymbol (.reg .eax)))] := by
  rw [later, session, Program.disassembler, Disassembly.disassembler_eq_listed]
  with_unfolding_all rfl

theorem exists_callee : ∃ g, (session.decompile 0x2000).2 = .ok g ∧
    g.name = "sub_2000" ∧ g.params.map Param.storage = [.stack 4, .stack 24] := by
  obtain ⟨g, hg⟩ := (session.exists_decompile_iff 0x2000).mpr
    ((session.available_iff 0x2000 rfl).mpr (by decide +kernel))
  refine ⟨g, hg, (Session.name_decompile hg).trans (by decide +kernel), ?_⟩
  have hstorage := storage_eq
  rw [hg] at hstorage
  exact Option.some.inj hstorage

/-- The call as it is lowered for the caller. -/
def context : BlockContext :=
  { scope := later.scopeOf 0x1000, config := session.config, block := 0x1000,
    required := [.reg .eax] }

def start : Lowering :=
  { emission := { declarations := later.declarations },
    state := { live := .empty },
    successors := [] }

/-- The four slots between both parameters are left out, so that the second argument is
the slot behind the first. -/
theorem call_arguments_gapped : ∃ g, (session.decompile 0x2000).2 = .ok g ∧
    g.params.map Param.storage = [.stack 4, .stack 24] ∧
    g.skippedSlots 4 24 = [1, 2, 3, 4] ∧
    ∃ before stmt args, (context.lower call [] start).emission.body = before ++ [stmt] ∧
      context.IsCall stmt (.call g.name args) ∧
      List.Forall₂ (g.PassedAs session.config (-24) (context.callReady start)) g.params args := by
  obtain ⟨g, hg, hname, hstorage⟩ := exists_callee
  have hskipped : g.skippedSlots 4 24 = [1, 2, 3, 4] := by
    rw [RecoveredFunction.skippedSlots, hstorage]
    decide
  have hcalled : context.scope.program.nameOf 0x2000 context.config.externPrefix = g.name := by
    rw [hname, context, later, session, Program.disassembler,
      Disassembly.disassembler_eq_listed]
    decide +kernel
  have hstart : context.callStart call (context.callReady start) = some (-24) := by
    rw [BlockContext.callStart, context, stackOffsetAt?_eq]
    rfl
  have hconfig : context.config = session.config := rfl
  have hdeclarations : later.declarations.Advances start.emission.declarations := .refl
  have htarget : context.scope.target? call = some (.address 0x2000) := by
    have hscope : context.scope.target? = Instruction.target? := by
      rw [context, later, Session.scopeOf, Session.disassembly_decompile]
      exact FrameScope.target?_install { program } _ _ _
    rw [hscope]
    rfl
  obtain ⟨hpassed, _⟩ := Session.call_arguments rfl hg (by rw [hname]; decide) .refl hconfig
    hdeclarations (show call.kind = .call by decide +kernel) htarget hcalled hstart []
  exact ⟨g, hg, hstorage, hskipped, hpassed⟩

/-- The callee reads its second parameter in the fifth slot behind the first, four bytes
below the caller's frame, where the caller has put it; but it is passed the slot
behind the first. -/
theorem sparse_argument_displaced : ∃ g f, (session.decompile 0x2000).2 = .ok g ∧
    (later.decompile 0x1000).2 = .ok f ∧
    g.params.map Param.storage = [.stack 4, .stack 24] ∧
    (later.scopeOf 0x1000).stackOffsetAt? call.address = some (-24) ∧
    .assign (.ofSymbol (.reg .eax)) (.call g.name [.stackVar (-24) 4, .stackVar (-20) 4]) ∈
      f.body ∧
    CExpr.stackVar (-20) 4 ≠ .stackVar (-24 + (24 - 4)) 4 := by
  obtain ⟨g, hg, hname, hstorage⟩ := exists_callee
  have hbody := body_eq
  cases hf : (later.decompile 0x1000).2 with
  | error error =>
      rw [hf] at hbody
      cases hbody
  | ok f =>
      rw [hf] at hbody
      refine ⟨g, f, hg, rfl, hstorage, stackOffsetAt?_eq, ?_, by simp⟩
      rw [hname, Option.some.inj hbody]
      simp

end GappedArguments

end Uncompile
