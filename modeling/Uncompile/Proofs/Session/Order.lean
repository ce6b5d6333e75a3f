import Uncompile.Proofs.Emission.Callees
import Uncompile.Proofs.Session.Convention

/-!
# Functions in any order

What is recovered of a function depends on the code, on the entries of the binding
table and on what is known of the functions it calls. Decompiling a function only
adds to what is known of itself, apart from names that emission makes up. So two
functions that do not call each other can be decompiled in any order.
-/

namespace Uncompile

namespace RecoveredFunction

theorem name_finalize (f : RecoveredFunction) (evidence : Option (List Displacement))
    (pointerSize : Nat) : (f.finalize evidence pointerSize).1.name = f.name := by
  have hdemoted := f.demoteFastcall_keeps.1
  rw [finalize.eq_def]
  dsimp only
  split
  · exact hdemoted
  · rw [applyDisplacement]
    split_ifs <;> exact hdemoted
  · exact hdemoted

end RecoveredFunction

namespace Session

variable {session other : Session} {entry : Address} {f : RecoveredFunction}

/-- The instructions of the function at an entry, block by block. -/
def instructionsOf (session : Session) (entry : Address) : List Instruction :=
  ((session.disassembly.functionBlocks entry).filterMap
    (session.scopeOf entry).block?).flatMap Block.instructions

/-- The instructions of a program are those of its blocks. -/
theorem instructionsOf_eq {disassembly : Disassembly}
    (hcode : session.disassembly = disassembly) :
    session.instructionsOf entry =
      ((disassembly.program.functionBlocks entry).filterMap disassembly.block?).flatMap
        Block.instructions := by
  rw [instructionsOf, scopeOf, hcode, FrameScope.block?_install]
  rfl

/-- The names of the functions that the function at an entry calls directly. -/
def calledNames (session : Session) (entry : Address) : List String :=
  (session.scopeOf entry).program.calledNames session.config.externPrefix
    (session.instructionsOf entry)

/-- Another session in which the function at an entry is seen in the same way. -/
structure Resembles (session other : Session) (entry : Address) : Prop where
  config : other.config = session.config
  disassembly : other.disassembly = session.disassembly
  declarations : session.declarations.AgreeOn other.declarations (session.calledNames entry)

namespace Resembles

variable (h : session.Resembles other entry)

include h

theorem scopeOf_eq : other.scopeOf entry = session.scopeOf entry := by
  rw [scopeOf, scopeOf, h.disassembly, h.config]

theorem available (havailable : session.Available entry) : other.Available entry := by
  rw [Available, h.scopeOf_eq, h.disassembly]
  exact havailable

/-- The same is drafted of the function. -/
theorem draft_eq {draft draft' : Draft}
    (hdraft : session.draft (session.scopeOf entry)
      (session.disassembly.functionBlocks entry) = .ok draft)
    (hdraft' : other.draft (other.scopeOf entry)
      (other.disassembly.functionBlocks entry) = .ok draft') :
    draft'.function = draft.function ∧ draft'.evidence = draft.evidence := by
  rw [h.scopeOf_eq, h.disassembly] at hdraft'
  obtain ⟨deps, hcollect, hemit, hfunction, hevidence⟩ := session.draft_eq_ok hdraft
  obtain ⟨deps', hcollect', hemit', hfunction', hevidence'⟩ := other.draft_eq_ok hdraft'
  rw [h.config] at hcollect' hemit' hfunction' hevidence'
  obtain rfl : deps' = deps := by
    rw [AnalysisContext.collect_eq_of_agreeOn h.declarations, hcollect] at hcollect'
    exact (Except.ok.inj hcollect').symm
  -- the text of both is the same, and so is all that is taken from the code
  obtain ⟨table, htable⟩ := EmissionContext.alike_emit
    { scope := session.scopeOf entry, config := session.config } _ h.declarations hemit
  rw [htable] at hemit'
  have hbody : draft'.emission.body = draft.emission.body := by
    rw [← Except.ok.inj hemit']
  refine ⟨?_, hevidence'.trans hevidence.symm⟩
  rw [hfunction', hfunction, hbody, h.disassembly]

/-- What is recovered of a function depends on nothing else. -/
theorem decompile_eq (hf : (session.decompile entry).2 = .ok f) :
    (other.decompile entry).2 = .ok f := by
  obtain ⟨draft, hdraft, rfl, _⟩ := session.decompile_eq_ok entry hf
  have havailable := h.available ((session.exists_decompile_iff entry).mp ⟨_, hf⟩)
  obtain ⟨f', hf'⟩ := (other.exists_decompile_iff entry).mpr havailable
  obtain ⟨draft', hdraft', rfl, _⟩ := other.decompile_eq_ok entry hf'
  obtain ⟨hfunction, hevidence⟩ := h.draft_eq hdraft hdraft'
  rw [hf']
  simp only [settle, hfunction, hevidence, h.config]

end Resembles

/-! ## After another function -/

theorem name_decompile (hf : (session.decompile entry).2 = .ok f) :
    f.name = session.disassembly.nameOf entry session.config.externPrefix := by
  obtain ⟨draft, hdraft, rfl, _⟩ := session.decompile_eq_ok entry hf
  obtain ⟨_, _, _, hfunction, _⟩ := session.draft_eq_ok hdraft
  rw [settle]
  dsimp only
  rw [RecoveredFunction.name_finalize, hfunction]
  refine (RecoveredFunction.assignInputs_keeps _ _ _).1.trans ?_
  rw [scopeOf, FrameScope.entry_install]

/-- Decompiling a function adds to what is known of its own name only, apart from names
that emission makes up. -/
theorem prototype_decompile {name : String} (hsynthesised : ¬ Synthesised name)
    (hname : name ≠ session.disassembly.nameOf entry session.config.externPrefix)
    (hf : (session.decompile entry).2 = .ok f) :
    (session.decompile entry).1.declarations.prototype name =
      session.declarations.prototype name := by
  have hother : f.declaration.name ≠ name := fun heq => hname (heq.symm.trans (name_decompile hf))
  obtain ⟨draft, hdraft, _, heq⟩ := session.decompile_eq_ok entry hf
  obtain ⟨_, _, hemit, _, _⟩ := session.draft_eq_ok hdraft
  have hadvances := (EmissionContext.advances_emit _ _ hemit).1
  calc
    (session.decompile entry).1.declarations.prototype name
      = (draft.emission.declarations.insert f.declaration).prototype name := by
        rw [heq]
        rfl
    _ = draft.emission.declarations.prototype name := by
        apply DeclTable.prototype_congr
        rw [DeclTable.get?_insert, if_neg hother]
    _ = session.declarations.prototype name := hadvances.prototype_eq hsynthesised

theorem functions_decompile (hf : (session.decompile entry).2 = .ok f) :
    (session.decompile entry).1.functions = session.functions.insert entry f := by
  obtain ⟨_, _, _, heq⟩ := session.decompile_eq_ok entry hf
  rw [heq]
  rfl

theorem config_decompile (hf : (session.decompile entry).2 = .ok f) :
    (session.decompile entry).1.config = session.config := by
  obtain ⟨_, _, _, heq⟩ := session.decompile_eq_ok entry hf
  rw [heq]
  rfl

/-- After a function that it does not call, a function is decompiled as before. -/
theorem decompile_decompile {first second : Address} {f g : RecoveredFunction}
    (hf : (session.decompile first).2 = .ok f) (hg : (session.decompile second).2 = .ok g)
    (hcallees : ∀ name ∈ session.calledNames second, ¬ Synthesised name ∧
      name ≠ session.disassembly.nameOf first session.config.externPrefix) :
    ((session.decompile first).1.decompile second).2 = .ok g := by
  have hresembles : session.Resembles (session.decompile first).1 second := {
    config := config_decompile hf
    disassembly := session.disassembly_decompile first
    declarations := fun name hname =>
      ⟨(hcallees name hname).1, prototype_decompile (hcallees name hname).1
        (hcallees name hname).2 hf⟩ }
  exact hresembles.decompile_eq hg

/-- Two functions, one after the other, of which the second does not call the first. -/
theorem decompileAll_pair {first second : Address} {f g : RecoveredFunction}
    (hf : (session.decompile first).2 = .ok f) (hg : (session.decompile second).2 = .ok g)
    (hcallees : ∀ name ∈ session.calledNames second, ¬ Synthesised name ∧
      name ≠ session.disassembly.nameOf first session.config.externPrefix) :
    (session.decompileAll [first, second]).2 = .ok () ∧
      (session.decompileAll [first, second]).1.functions.get? first = some f ∧
      (session.decompileAll [first, second]).1.functions.get? second = some g := by
  have hafter := decompile_decompile hf hg hcallees
  have hall : session.decompileAll [first, second] =
      (((session.decompile first).1.decompile second).1, .ok ()) := by
    rw [decompileAll, ← Prod.mk.eta (p := session.decompile first), hf]
    dsimp only
    rw [decompileAll, ← Prod.mk.eta (p := (session.decompile first).1.decompile second), hafter]
    rfl
  have hsame : first = second → f = g := by
    rintro rfl
    exact Except.ok.inj (hf.symm.trans hg)
  rw [hall, functions_decompile hafter, functions_decompile hf]
  refine ⟨rfl, ?_, ?_⟩
  · rw [SortedMap.get?_insert, SortedMap.get?_insert, if_pos rfl]
    split
    · rename_i heq
      rw [hsame heq.symm]
    · rfl
  · rw [SortedMap.get?_insert, if_pos rfl]

/-- Independent functions can be decompiled in any order. If neither of two functions
that can be decompiled calls the other, nor a function under a name that emission
makes up, the same is recovered of both in either order, which is what is
recovered of each of them alone. -/
theorem decompileAll_comm {first second : Address} {f g : RecoveredFunction}
    (hf : (session.decompile first).2 = .ok f) (hg : (session.decompile second).2 = .ok g)
    (hfirst : session.disassembly.nameOf second session.config.externPrefix ∉
      session.calledNames first)
    (hsecond : session.disassembly.nameOf first session.config.externPrefix ∉
      session.calledNames second)
    (hsynthesised : ∀ name ∈ session.calledNames first ++ session.calledNames second,
      ¬ Synthesised name) :
    ∀ order ∈ [[first, second], [second, first]],
      (session.decompileAll order).2 = .ok () ∧
        (session.decompileAll order).1.functions.get? first = some f ∧
        (session.decompileAll order).1.functions.get? second = some g := by
  have hforward := decompileAll_pair hf hg fun name hname =>
    ⟨hsynthesised name (List.mem_append_right _ hname), fun heq => hsecond (heq ▸ hname)⟩
  have hbackward := decompileAll_pair hg hf fun name hname =>
    ⟨hsynthesised name (List.mem_append_left _ hname), fun heq => hfirst (heq ▸ hname)⟩
  intro order horder
  rcases List.mem_pair.mp horder with rfl | rfl
  · exact hforward
  · exact ⟨hbackward.1, hbackward.2.2, hbackward.2.1⟩

end Session

/-! ## A callee that two functions share -/

namespace SharedCallee

/-- Passes on an argument to a function of which nothing is known. -/
def forwarding (address : Address) (source : Reg) : Block :=
  { address
    instructions := [.ofMnemonic address "push" [.ofReg source],
      .ofMnemonic (address + 1) "call" [.imm 64], .ofMnemonic (address + 6) "ret" []] }

def program : Program :=
  [forwarding 16 .ecx, forwarding 32 .edx].foldl Program.insertBlock { functions := [16, 32] }

def session : Session := { disassembly := program.disassembler }

theorem calledNames_eq : session.calledNames 16 = ["sub_40"] ∧
    session.calledNames 32 = ["sub_40"] := by decide +kernel

/-- The first of the two declares the function that both call. -/
theorem decompileAll_comm_shared :
    ∃ f g, (session.decompile 16).2 = .ok f ∧ (session.decompile 32).2 = .ok g ∧
      ∀ order ∈ [[16, 32], [32, 16]],
        (session.decompileAll order).2 = .ok () ∧
          (session.decompileAll order).1.functions.get? 16 = some f ∧
          (session.decompileAll order).1.functions.get? 32 = some g := by
  obtain ⟨f, hf⟩ := (session.exists_decompile_iff 16).mpr
    ((session.available_iff 16 rfl).mpr (by decide +kernel))
  obtain ⟨g, hg⟩ := (session.exists_decompile_iff 32).mpr
    ((session.available_iff 32 rfl).mpr (by decide +kernel))
  refine ⟨f, g, hf, hg, Session.decompileAll_comm hf hg ?_ ?_ ?_⟩
  · rw [calledNames_eq.1]
    decide +kernel
  · rw [calledNames_eq.2]
    decide +kernel
  · rw [calledNames_eq.1, calledNames_eq.2]
    intro name hname
    obtain rfl : name = "sub_40" := by simpa using hname
    exact not_synthesised (by decide) (by decide)

end SharedCallee

end Uncompile
