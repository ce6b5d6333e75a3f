import Uncompile.Proofs.Emission.CallFrame
import Uncompile.Proofs.Machine.FlagOrigin

/-!
# Instructions without a lifted effect

An instruction that cannot be lifted is kept as inline assembly, after everything pending
has been written out. The exceptions are the mnemonics of the catalogue: they are taken for
plain instructions whatever their operands are, and a plain instruction without effect
leaves nothing behind.
-/

namespace Uncompile

namespace Opcode

/-- Only the names of the catalogue have its opcodes. -/
theorem toLower_mem_catalogue {mnemonic : String} (hopcode : ofMnemonic mnemonic ∈ catalogued) :
    mnemonic.toLower ∈ catalogue := by
  rw [ofMnemonic] at hopcode
  generalize mnemonic.toLower = name at hopcode ⊢
  split at hopcode
  · rename_i opcode hname
    unfold ofName? at hname
    split at hname
    all_goals cases hname
    all_goals first
      | decide
      | exact absurd hopcode (by decide)
  · split at hopcode
    · exact absurd hopcode (by simp [catalogued])
    · exact absurd hopcode (by decide)

variable {opcode : Opcode} {operands : List Operand}

/-- An opcode of the catalogue that has no effect counts as plain. -/
theorem kind_of_mem_catalogued (hopcode : opcode ∈ catalogued)
    (hnone : opcode.effect? operands = none) (alters terminates : Bool) :
    opcode.kind operands alters terminates = .plain := by
  cases opcode
  case mov =>
    -- with two operands a move has an effect
    dsimp only [kind]
    split
    · exact absurd hnone (Option.some_ne_none _)
    · exact absurd hnone (Option.some_ne_none _)
    · rfl
  all_goals first
    | rfl
    | simp [catalogued] at hopcode

/-- Outside the catalogue there are few opcodes that may have no effect. -/
theorem mem_of_notMem_catalogued (hopcode : opcode ∉ catalogued)
    (hnone : opcode.effect? operands = none) :
    opcode ∈ [lgdt, lidt, ltr, lldt, portIn, portOut, hlt, iret, other] := by
  cases opcode
  all_goals first
    | decide
    | exact absurd (by decide) hopcode
    | exact absurd hnone (Option.some_ne_none _)

end Opcode

/-! ## Pending symbols are bound -/

namespace BlockState

namespace Bound

variable {managed : Symbol → Bool} {effect : Effect} {state state' : BlockState}

/-- Whatever an instruction does to a block state, pending symbols stay bound. -/
theorem evolves (h : state.Bound) (hevolves : Evolves managed effect state state') :
    state'.Bound := by
  induction hevolves with
  | refl => exact h
  | commit _ required force ih => exact ih.commit required force
  | discard _ symbol ih => exact ih.discard symbol
  | update _ _ _ ih _ => exact ih.update _ _ _

/-- Forcing out everything leaves nothing pending. -/
theorem targets_always (h : state.Bound) (required : List Symbol) {symbol : Symbol} :
    symbol ∈ state.targets required (fun _ _ => true) ↔ symbol ∈ state.pending := by
  constructor
  · exact mem_pending_of_mem_targets
  · intro hpending
    obtain ⟨value, hvalue⟩ := h symbol hpending
    apply mem_targets_of_mem_wanted
    exact List.mem_filter.mpr ⟨hpending, by simp [hvalue]⟩

/-- Every pending value is assigned by the commit of everything, unless it is the
variable itself. -/
theorem assignment_mem_commit (h : state.Bound) (required : List Symbol) {symbol : Symbol}
    (hpending : symbol ∈ state.pending) :
    ∃ value, state.live.get? symbol = some value ∧
      (value = .sym symbol ∨ .assign (.ofSymbol symbol) (.ofExpr value) ∈
        (state.commit required fun _ _ => true).stmts) := by
  obtain ⟨value, hvalue⟩ := h symbol hpending
  refine ⟨value, hvalue, ?_⟩
  by_cases hself : value = .sym symbol
  · exact Or.inl hself
  · right
    refine List.mem_filterMap.mpr ⟨symbol, ?_, ?_⟩
    · exact mem_sequence_targets.mpr ((h.targets_always required).mpr hpending)
    · simp only [assignment?, hvalue, hself, if_false]

end Bound

end BlockState

namespace EmissionContext

/-- At every point of a block all that is pending is bound. -/
theorem bound_lowerUpTo (context : EmissionContext) (deps : Dependencies) (block : Block)
    (emission : Emission) (first rest : List Instruction) :
    ((context.blockContext deps block).lowerUpTo first rest
      (context.blockStart block emission)).state.Bound := by
  apply BlockContext.lowerUpTo_invariant (P := BlockState.Bound)
  · intro insn _ rest l h
    exact h.evolves ((context.blockContext deps block).evolves_lower insn rest l)
  · intro symbol hsymbol
    exact absurd hsymbol List.not_mem_nil

end EmissionContext

/-! ## Inline assembly -/

/-- The text of an instruction has been kept, after everything pending has been written
out. -/
structure Lowering.KeepsText (before after : Lowering) (insn : Instruction) : Prop where
  body : after.emission.body = before.emission.body ++
    (before.state.commit [] fun _ _ => true).stmts ++ [.asm insn.text]
  written : ∀ symbol ∈ before.state.pending, ∃ value, before.state.live.get? symbol = some value ∧
    (value = .sym symbol ∨ .assign (.ofSymbol symbol) (.ofExpr value) ∈
      (before.state.commit [] fun _ _ => true).stmts)
  pending : after.state.pending = []

/-- An instruction that loads a system register from its first operand, however many
operands there are. -/
inductive Instruction.LoadsSystem (insn : Instruction) : Prop
  | table (hopcode : insn.opcode ∈ [Opcode.lgdt, .lidt]) {m : MemOperand} {more : List Operand}
      (hoperands : insn.operands = .mem m :: more)
  | selector (hopcode : insn.opcode ∈ [Opcode.ltr, .lldt]) (hoperands : insn.operands ≠ [])

namespace BlockContext

variable (context : BlockContext) {insn : Instruction} {l l' : Lowering}

theorem keepsText_unmodeled (heffect : insn.effect = []) (hbound : l.state.Bound)
    (hstate : l'.state = l.state) (hbody : l'.emission.body = l.emission.body) :
    l.KeepsText (context.unmodeled insn l') insn where
  body := by
    rw [← hbody, ← hstate, ← body_commit context]
    rfl
  written symbol hpending := hbound.assignment_mem_commit [] hpending
  pending := by
    rw [state_unmodeled context heffect, hstate, List.eq_nil_iff_forall_not_mem]
    intro symbol hsymbol
    obtain ⟨hpending, hnot⟩ := BlockState.mem_pending_commit.mp hsymbol
    exact hnot ((hbound.targets_always []).mpr hpending)

theorem plain_of_effect_nil (heffect : insn.effect = []) (l : Lowering) :
    context.plain insn l = l := by
  have hwrites : insn.writesMemory = false := by
    rw [Instruction.writesMemory, heffect]
    rfl
  simp only [plain, hwrites, heffect, List.filterMap_nil, List.foldl_nil, Lowering.emitAll,
    List.append_nil, Bool.false_eq_true, if_false]

/-- Loading a system register from the first operand is a call of an intrinsic. -/
theorem body_of_loadsSystem (hload : insn.LoadsSystem) (rest : List Instruction) (l : Lowering) :
    ∃ name argument, (context.lower insn rest l).emission.body =
      l.emission.body ++ [.expr (.call name [argument])] := by
  cases hload with
  | table hopcode hoperands =>
      simp only [List.mem_cons, List.not_mem_nil, or_false] at hopcode
      rcases hopcode with hopcode | hopcode
      all_goals
        simp only [lower, Instruction.kind, hopcode, Opcode.kind, loadTable, hoperands]
        exact ⟨_, _, rfl⟩
  | selector hopcode hoperands =>
      obtain ⟨operand, more, hoperands⟩ := List.exists_cons_of_ne_nil hoperands
      simp only [List.mem_cons, List.not_mem_nil, or_false] at hopcode
      rcases hopcode with hopcode | hopcode
      all_goals
        simp only [lower, Instruction.kind, hopcode, Opcode.kind, systemLoad, hoperands]
        exact ⟨_, _, rfl⟩

/-- A table that is not named by an address is not loaded. -/
theorem keepsText_loadTable (heffect : insn.effect = []) (hbound : l.state.Bound)
    (hoperands : ∀ m more, insn.operands ≠ .mem m :: more) (table : DescriptorTable) :
    l.KeepsText (context.loadTable insn table l) insn := by
  cases table
  all_goals
    simp only [loadTable]
    exact context.keepsText_unmodeled heffect hbound rfl rfl

theorem keepsText_systemLoad (heffect : insn.effect = []) (hbound : l.state.Bound)
    (hoperands : insn.operands = []) (load : SystemLoad) :
    l.KeepsText (context.systemLoad insn load l) insn := by
  simp only [systemLoad, hoperands]
  exact context.keepsText_unmodeled heffect hbound rfl rfl

theorem keepsText_ports (heffect : insn.effect = []) (hbound : l.state.Bound)
    (hoperands : ∀ first second, insn.operands ≠ [first, second]) :
    l.KeepsText (context.portIn insn l) insn ∧ l.KeepsText (context.portOut insn l) insn := by
  have hkept : l.KeepsText (context.unmodeled insn l) insn :=
    context.keepsText_unmodeled heffect hbound rfl rfl
  simp only [portIn, portOut]
  exact ⟨hkept, hkept⟩

/-- Everything else that has no effect outside the catalogue is kept as it is. -/
theorem keepsText_lower (hopcode : insn.opcode ∉ Opcode.catalogued)
    (hnone : insn.opcode.effect? insn.operands = none) (heffect : insn.effect = [])
    (hload : ¬insn.LoadsSystem) (hbound : l.state.Bound) (rest : List Instruction) :
    l.KeepsText (context.lower insn rest l) insn := by
  have htable : insn.opcode ∈ [Opcode.lgdt, .lidt] → ∀ m more, insn.operands ≠ .mem m :: more :=
    fun hmem _ _ hoperands => hload (.table hmem hoperands)
  have hselector : insn.opcode ∈ [Opcode.ltr, .lldt] → insn.operands = [] := by
    intro hmem
    by_contra hoperands
    exact hload (.selector hmem hoperands)
  have hports : insn.opcode ∈ [Opcode.portIn, .portOut] →
      ∀ first second, insn.operands ≠ [first, second] := by
    intro hmem first second hoperands
    rw [hoperands] at hnone
    rcases List.mem_pair.mp hmem with h | h
    · exact Option.some_ne_none _ (h ▸ hnone)
    · exact Option.some_ne_none _ (h ▸ hnone)
  have hcases := Opcode.mem_of_notMem_catalogued hopcode hnone
  simp only [List.mem_cons, List.not_mem_nil, or_false] at hcases
  rcases hcases with h | h | h | h | h | h | h | h | h
  all_goals simp only [lower, Instruction.kind, h, Opcode.kind]
  · exact context.keepsText_loadTable heffect hbound (htable (by simp [h])) _
  · exact context.keepsText_loadTable heffect hbound (htable (by simp [h])) _
  · exact context.keepsText_systemLoad heffect hbound (hselector (by simp [h])) _
  · exact context.keepsText_systemLoad heffect hbound (hselector (by simp [h])) _
  · exact (context.keepsText_ports heffect hbound (hports (by simp [h]))).1
  · exact (context.keepsText_ports heffect hbound (hports (by simp [h]))).2
  all_goals exact context.keepsText_unmodeled heffect hbound rfl rfl

end BlockContext

namespace EmissionContext

variable (context : EmissionContext) (deps : Dependencies) (block : Block) (emission : Emission)

/-- An instruction without a lifted effect, at any point of a block. Its text is kept after
everything pending has been written out, unless its mnemonic is in the catalogue or it is
a system load with too many operands. Such a load is a call of an intrinsic, but an
instruction of the catalogue leaves nothing behind. -/
theorem unlifted_text_kept_iff {first rest : List Instruction} {address : Address}
    {mnemonic : String} {operands : List Operand} {insn : Instruction} {before after : Lowering}
    (hinsn : insn = .ofMnemonic address mnemonic operands)
    (hnone : (Opcode.ofMnemonic mnemonic).effect? operands = none)
    (hbefore : (context.blockContext deps block).lowerUpTo first (insn :: rest)
      (context.blockStart block emission) = before)
    (hafter : (context.blockContext deps block).lower insn rest before = after) :
    (before.KeepsText after insn ↔ mnemonic.toLower ∉ Opcode.catalogue ∧ ¬insn.LoadsSystem) ∧
      (mnemonic.toLower ∈ Opcode.catalogue → after = before) ∧
      (insn.LoadsSystem → ∃ name argument,
        after.emission.body = before.emission.body ++ [.expr (.call name [argument])]) := by
  have heffect : insn.effect = [] := by
    rw [hinsn, Instruction.ofMnemonic, hnone]
    rfl
  have hbound : before.state.Bound :=
    hbefore ▸ context.bound_lowerUpTo deps block emission first (insn :: rest)
  have hopcode : insn.opcode = Opcode.ofMnemonic mnemonic := by rw [hinsn]; rfl
  have hunlifted : insn.opcode.effect? insn.operands = none := by
    rw [hopcode, hinsn]
    exact hnone
  have hvanishes : mnemonic.toLower ∈ Opcode.catalogue → after = before := by
    intro hname
    have hcatalogued : insn.opcode ∈ Opcode.catalogued :=
      hopcode ▸ Opcode.ofMnemonic_mem_catalogued hname
    have hkind : insn.kind = .plain :=
      Opcode.kind_of_mem_catalogued hcatalogued hunlifted _ _
    rw [← hafter, BlockContext.lower, hkind]
    exact BlockContext.plain_of_effect_nil _ heffect before
  have hcall : insn.LoadsSystem → ∃ name argument,
      after.emission.body = before.emission.body ++ [.expr (.call name [argument])] := by
    intro hload
    rw [← hafter]
    exact BlockContext.body_of_loadsSystem _ hload rest before
  refine ⟨⟨?_, ?_⟩, hvanishes, hcall⟩
  · intro hkept
    constructor
    · intro hname
      have hlength := congrArg List.length (hvanishes hname ▸ hkept.body)
      simp only [List.length_append, List.length_singleton] at hlength
      omega
    · intro hload
      obtain ⟨name, argument, hbody⟩ := hcall hload
      have hlast := (List.append_inj' (hbody.symm.trans hkept.body) rfl).2
      exact Stmt.noConfusion (List.singleton_inj.mp hlast)
  · rintro ⟨hname, hload⟩
    rw [← hafter]
    apply BlockContext.keepsText_lower _ _ hunlifted heffect hload hbound
    rw [hopcode]
    exact fun hcatalogued => hname (Opcode.toLower_mem_catalogue hcatalogued)

end EmissionContext

/-! ### Texts that are kept, and one that is not -/

namespace Unlifted

def block : Block := { address := 16, instructions := [], successors := [] }

def context : EmissionContext :=
  { scope := { disassembly := Program.disassembler {}, entry := 16, frameRegister := .ebp },
    config := {} }

def deps : Dependencies := { entry := 16, blocks := [] }

def inner : BlockContext := context.blockContext deps block

def start : Lowering := context.blockStart block { declarations := {} }

def load : Instruction := .ofMnemonic 16 "mov" [.ofReg .eax, .imm 7]

def identify : Instruction := .ofMnemonic 21 "cpuid" []

/-- The register that is pending is written out before the text. -/
theorem unlifted_text_kept_identify :
    (inner.lowerUpTo [load] [identify] start).KeepsText
        (inner.lower identify [] (inner.lowerUpTo [load] [identify] start)) identify ∧
      (inner.lowerUpTo [load] [identify] start).state.pending = [.reg .eax] := by
  refine ⟨?_, by decide +kernel⟩
  have hkept := (context.unlifted_text_kept_iff deps block { declarations := {} }
    (show identify = _ from rfl) (by decide +kernel)
    (show inner.lowerUpTo [load] [identify] start = _ from rfl) rfl).1
  refine hkept.mpr ⟨by decide +kernel, ?_⟩
  intro hload
  cases hload with
  | table hopcode => exact absurd hopcode (by decide +kernel)
  | selector hopcode => exact absurd hopcode (by decide +kernel)

def shiftOnce : Instruction := .ofMnemonic 16 "shl" [.ofReg .eax]

/-- A shift without a count cannot be lifted, and lowering it leaves nothing behind. -/
theorem shift_without_count_vanishes :
    (Opcode.ofMnemonic "shl").effect? [.ofReg .eax] = none ∧
      (inner.lower shiftOnce [] start).emission.body = [] ∧
      (inner.lower shiftOnce [] start).state.pending = [] := by
  decide +kernel

end Unlifted

end Uncompile
