import Uncompile.Proofs.Emission.DeclaredCallees
import Uncompile.Proofs.Session.Arguments

/-!
# The declarations after a function

Decompiling a function declares it, and adds the names that its instructions ask for
at the end of the table. What is declared already stays what it is and where it is,
with one exception: the structure of a descriptor table is put in whenever its
descriptor is not declared, and replaces a declaration of the same name.

Afterwards all functions that the body calls by name are declared.
-/

namespace Uncompile

namespace Session

variable {session : Session} {entry : Address} {f : RecoveredFunction}

/-- What the instructions of a function ask to have declared. -/
def declRequests (session : Session) (entry : Address) : List DeclRequest :=
  (session.instructionsOf entry).flatMap
    ((session.scopeOf entry).program.declRequests session.config.externPrefix)

/-- The table after a function: what its instructions ask for, and then itself. -/
theorem declarations_decompile (hf : (session.decompile entry).2 = .ok f) :
    (session.decompile entry).1.declarations =
      (DeclRequest.applyAll session.declarations (session.declRequests entry)).insert
        f.declaration := by
  obtain ⟨draft, hdraft, _, heq⟩ := session.decompile_eq_ok entry hf
  obtain ⟨_, _, hemit, _, _⟩ := session.draft_eq_ok hdraft
  have hdeclarations := EmissionContext.declarations_emit _ _ hemit
  rw [heq, declRequests, instructionsOf, ← hdeclarations]
  rfl

/-- Decompiling the function at an entry puts in the structures of a descriptor table:
the descriptor is not declared yet when an instruction loads the table. -/
def IntroducesTable (session : Session) (entry : Address) (table : DescriptorTable) : Prop :=
  table.descriptorName ∉ session.declarations.names ∧
    (session.scopeOf entry).program.LoadsFirst session.config.externPrefix
      (session.instructionsOf entry) table

section Places

variable (hf : (session.decompile entry).2 = .ok f)
  {index : Nat} {decl : Declaration} (hdecl : session.declarations.decls[index]? = some decl)
  (hname : decl.name ≠ f.name)

include hf hdecl hname

theorem getElem?_decompile (hkept : ∀ table : DescriptorTable, decl.name = table.tableName →
      ¬ session.IntroducesTable entry table) :
    (session.decompile entry).1.declarations.decls[index]? = some decl := by
  have hrequests : (DeclRequest.applyAll session.declarations
      (session.declRequests entry)).decls[index]? = some decl := by
    apply DeclRequest.getElem?_applyAll hdecl
    intro table htable
    rw [declRequests, Disassembler.introduces_declRequests_iff, or_iff_not_imp_left]
    exact fun hdescriptor hloads => hkept table htable ⟨hdescriptor, hloads⟩
  rw [declarations_decompile hf, DeclTable.getElem?_insert hrequests]
  exact congrArg some (if_neg hname)

theorem getElem?_decompile_of_introducesTable {table : DescriptorTable}
    (htable : decl.name = table.tableName) (hintroduces : session.IntroducesTable entry table) :
    (session.decompile entry).1.declarations.decls[index]? = some table.declaration := by
  have hrequests : (DeclRequest.applyAll session.declarations
      (session.declRequests entry)).decls[index]? = some table.declaration :=
    DeclRequest.getElem?_applyAll_of_introduces hdecl htable hintroduces.1
      (Disassembler.introduces_declRequests_iff.mpr hintroduces.2)
  rw [declarations_decompile hf, DeclTable.getElem?_insert hrequests]
  exact congrArg some (if_neg fun heq => hname (htable.trans heq))

end Places

/-- A function that is decompiled is declared under its name, new names come behind those
in the table, and every declaration of another name stays in its place unless a
descriptor table of that name is put in. If one is, its structure stands there. -/
theorem declarations_kept_or_replaced (hf : (session.decompile entry).2 = .ok f) :
    (session.decompile entry).1.declarations.get? f.name = some f.declaration ∧
    session.declarations.names <+: (session.decompile entry).1.declarations.names ∧
    ∀ (index : Nat) (decl : Declaration), session.declarations.decls[index]? = some decl →
      decl.name ≠ f.name →
      ((∀ table, decl.name = table.tableName → ¬ session.IntroducesTable entry table) →
        (session.decompile entry).1.declarations.decls[index]? = some decl) ∧
      ∀ table, decl.name = table.tableName → session.IntroducesTable entry table →
        (session.decompile entry).1.declarations.decls[index]? = some table.declaration := by
  refine ⟨get?_decompile hf, ?_, fun index decl hdecl hname =>
    ⟨getElem?_decompile hf hdecl hname,
      fun table => getElem?_decompile_of_introducesTable hf hdecl hname⟩⟩
  rw [declarations_decompile hf, DeclTable.names_insert]
  exact (DeclRequest.isPrefix_names_applyAll _ _).trans (OrderedSet.isPrefix_add _ _)

end Session

/-! ## A table of segments that is declared beforehand -/

namespace DeclaredSegmentTable

/-- Loads the table of segments from where `eax` points. -/
def load : Instruction := .ofMnemonic 0x1000 "lgdt" [.atOffset .eax 0]

def loader : Block :=
  { address := 0x1000, instructions := [load, .ofMnemonic 0x1003 "ret" []] }

/-- The structure of the table with names of its own for the fields. -/
def ownTable : Declaration :=
  { name := "segment_table", kind := .struct [("limit", .int 16), ("base", .int 32)] (some 1) }

def otherStructure : Declaration :=
  { name := "interrupt_table", kind := .struct [("limit", .int 16)] none }

def program : Program := Program.insertBlock { functions := [0x1000] } loader

def session : Session :=
  { disassembly := program.disassembler
    declarations := .ofList [ownTable, otherStructure] }

theorem instructionsOf_session : session.instructionsOf 0x1000 = loader.instructions := by
  have hblocks : program.functionBlocks 0x1000 = [0x1000] := by decide +kernel
  rw [Session.instructionsOf_eq rfl, hblocks]
  rfl

theorem kinds_loader : loader.instructions.map Instruction.kind =
    [.descriptorTable .segments, .ret] := by decide +kernel

theorem introducesTable_segments : session.IntroducesTable 0x1000 .segments :=
  ⟨by decide, [], load, [.ofMnemonic 0x1003 "ret" []], instructionsOf_session,
    (List.cons.inj kinds_loader).1, List.not_mem_nil⟩

theorem not_introducesTable_interrupts : ¬ session.IntroducesTable 0x1000 .interrupts := by
  rintro ⟨_, before, insn, after, hinsns, hkind, _⟩
  have hmem : insn ∈ loader.instructions := by
    rw [← instructionsOf_session, hinsns]
    simp
  have hkinds := List.mem_map_of_mem (f := Instruction.kind) hmem
  rw [kinds_loader, hkind] at hkinds
  simp at hkinds

theorem exists_loader : ∃ f, (session.decompile 0x1000).2 = .ok f ∧ f.name = "sub_1000" := by
  obtain ⟨f, hf⟩ := (session.exists_decompile_iff 0x1000).mpr
    ((session.available_iff 0x1000 rfl).mpr (by decide +kernel))
  exact ⟨f, hf, (Session.name_decompile hf).trans (by decide)⟩

/-- The table of segments is replaced, and the other structure is kept. -/
theorem declarations_segments_replaced :
    ∃ f, (session.decompile 0x1000).2 = .ok f ∧
      (session.decompile 0x1000).1.declarations.get? "sub_1000" = some f.declaration ∧
      (session.decompile 0x1000).1.declarations.decls[0]? =
        some DescriptorTable.segments.declaration ∧
      (session.decompile 0x1000).1.declarations.decls[1]? = some otherStructure := by
  obtain ⟨f, hf, hname⟩ := exists_loader
  obtain ⟨hown, _, hplaces⟩ := Session.declarations_kept_or_replaced hf
  rw [hname] at hown hplaces
  have hkept := (hplaces 1 otherStructure rfl (by decide)).1
  have hreplaced := (hplaces 0 ownTable rfl (by decide)).2
  refine ⟨f, hf, hown, hreplaced .segments rfl introducesTable_segments,
    hkept fun table htable => ?_⟩
  cases table with
  | segments => exact absurd htable (by decide)
  | interrupts => exact not_introducesTable_interrupts

/-- So a declaration under another name than the function's own is overwritten: the
structure with its own names for the fields is gone from its place. -/
theorem declared_table_overwritten : ∃ f, (session.decompile 0x1000).2 = .ok f ∧
    session.declarations.decls[0]? = some ownTable ∧ ownTable.name ≠ f.name ∧
    (session.decompile 0x1000).1.declarations.decls[0]? ≠ some ownTable := by
  obtain ⟨f, hf, hname⟩ := exists_loader
  have hother : ownTable.name ≠ f.name := hname ▸ by decide
  have hreplaced := Session.getElem?_decompile_of_introducesTable hf
    (show session.declarations.decls[0]? = some ownTable from rfl) hother rfl
    introducesTable_segments
  refine ⟨f, hf, rfl, hother, ?_⟩
  rw [hreplaced]
  simp [DescriptorTable.declaration, ownTable]

end DeclaredSegmentTable

/-! ## Callees -/

namespace Session

variable {session : Session} {entry : Address} {f : RecoveredFunction}

/-- The body of a function is what has been emitted for it. -/
theorem body_settle (config : Config) (draft : Draft) :
    (settle config draft).1.body = draft.function.body := by
  have hdemoted : ∀ f : RecoveredFunction, f.demoteFastcall.body = f.body := by
    intro f
    rw [RecoveredFunction.demoteFastcall]
    split_ifs
    · split
      · split_ifs <;> rfl
      · rfl
    · rfl
  rw [settle]
  dsimp only
  rw [RecoveredFunction.finalize.eq_def]
  dsimp only
  split
  · exact hdemoted _
  · rw [RecoveredFunction.applyDisplacement]
    split_ifs <;> exact hdemoted _
  · exact hdemoted _

/-- Every function that is called by name anywhere in the body of a decompiled function
is declared afterwards, if the instructions have the effects that their mnemonics
imply. -/
theorem callees_declared {disassembly : Disassembly}
    (hcode : session.disassembly = disassembly)
    (hlifted : ∀ insn ∈ session.instructionsOf entry, insn.HasLiftedEffect)
    (hf : (session.decompile entry).2 = .ok f) {stmt : Stmt} (hstmt : stmt ∈ f.body)
    {name : String} {args : List CExpr} (hcall : stmt.Mentions (.call name args)) :
    name ∈ (session.decompile entry).1.declarations.names := by
  obtain ⟨draft, hdraft, rfl, heq⟩ := session.decompile_eq_ok entry hf
  obtain ⟨_, _, hemit, hfunction, _⟩ := session.draft_eq_ok hdraft
  have htargets : (session.scopeOf entry).disassembly.PortFreeTargets := by
    rw [Disassembler.PortFreeTargets, scopeOf, FrameScope.view_install, hcode]
    exact disassembly.portFreeTargets
  have hcalls := EmissionContext.callsDeclared_emit _ _ hemit htargets hlifted
  rw [body_settle, hfunction] at hstmt
  have hname := hcalls stmt hstmt name args hcall
  have hdeclarations : (session.decompile entry).1.declarations =
      draft.emission.declarations.insert (settle session.config draft).1.declaration := by
    rw [heq]
    rfl
  rw [hdeclarations, DeclTable.names_insert]
  exact (OrderedSet.isPrefix_add _ _).subset hname

end Session

/-! ## A function that copies between ports -/

namespace PortCopy

/-- Reads a port, writes what it has read to the same port, and calls another
function. -/
def copier : Block :=
  { address := 0x1000
    instructions := [.ofMnemonic 0x1000 "in" [.reg .eax 4, .reg .edx 2],
      .ofMnemonic 0x1001 "out" [.reg .edx 2, .reg .eax 4],
      .ofMnemonic 0x1002 "call" [.imm 0x2000], .ofMnemonic 0x1007 "ret" []] }

def program : Program := Program.insertBlock { functions := [0x1000] } copier

def session : Session := { disassembly := program.disassembler }

def port : CExpr := .binary .and (.ofSymbol (.reg .edx)) (.const 0xffff)

theorem instructionsOf_copier : session.instructionsOf 0x1000 = copier.instructions := by
  have hblocks : program.functionBlocks 0x1000 = [0x1000] := by decide +kernel
  rw [Session.instructionsOf_eq rfl, hblocks]
  rfl

theorem hasLiftedEffect_copier :
    ∀ insn ∈ session.instructionsOf 0x1000, insn.HasLiftedEffect := by
  rw [instructionsOf_copier]
  simp only [copier, List.forall_mem_cons]
  exact ⟨rfl, rfl, rfl, rfl, List.forall_mem_nil _⟩

theorem body_copier : (session.decompile 0x1000).2.toOption.map RecoveredFunction.body =
    some [.assign (.ofSymbol (.reg .eax)) (.call "intrinsic_in32" [port]),
      .expr (.call "intrinsic_out32" [port, .ofSymbol (.reg .eax)]),
      .assign (.ofSymbol (.reg .eax)) (.call "sub_2000" []),
      .ret (some (.ofSymbol (.reg .eax)))] := by
  rw [session, Program.disassembler, Disassembly.disassembler_eq_listed]
  with_unfolding_all rfl

/-- Both accesses to ports and the call are calls by name, and are declared. -/
theorem callees_declared_copier : ∃ f, (session.decompile 0x1000).2 = .ok f ∧
    (∃ stmt ∈ f.body, ∃ args, stmt.Mentions (.call "intrinsic_in32" args)) ∧
    ∀ name ∈ ["intrinsic_in32", "intrinsic_out32", "sub_2000"],
      name ∈ (session.decompile 0x1000).1.declarations.names := by
  have hbody := body_copier
  cases hf : (session.decompile 0x1000).2 with
  | error error =>
      rw [hf] at hbody
      cases hbody
  | ok f =>
      rw [hf] at hbody
      replace hbody := Option.some.inj hbody
      have hinput : ∃ stmt ∈ f.body, ∃ args, stmt.Mentions (.call "intrinsic_in32" args) :=
        ⟨_, by rw [hbody]; exact List.mem_cons_self, _, .value .whole⟩
      have houtput : ∃ stmt ∈ f.body, ∃ args, stmt.Mentions (.call "intrinsic_out32" args) :=
        ⟨_, by rw [hbody]; exact List.mem_cons_of_mem _ List.mem_cons_self, _, .evaluated .whole⟩
      have hcall : ∃ stmt ∈ f.body, ∃ args, stmt.Mentions (.call "sub_2000" args) :=
        ⟨_, by rw [hbody]; exact List.mem_of_getElem? (show _[2]? = some _ from rfl), _,
          .value .whole⟩
      refine ⟨f, rfl, hinput, ?_⟩
      have hdeclared : ∀ name, (∃ stmt ∈ f.body, ∃ args, stmt.Mentions (.call name args)) →
          name ∈ (session.decompile 0x1000).1.declarations.names := by
        rintro name ⟨stmt, hstmt, args, hmention⟩
        exact Session.callees_declared rfl hasLiftedEffect_copier hf hstmt hmention
      simp only [List.forall_mem_cons]
      exact ⟨hdeclared _ hinput, hdeclared _ houtput, hdeclared _ hcall, List.forall_mem_nil _⟩

end PortCopy

end Uncompile
