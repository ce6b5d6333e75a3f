import Mathlib.Logic.Function.Basic
import Uncompile.Frame.Scope

/-!
# Releasing a frame scope

A scope remembers what it replaces in the binding table, last first. Putting the
remembered entries back in this order undoes every write, also where an address was
written twice or its entry was absent. On the entries each write and each undoing
is a point update, and the update at the head of the log cancels the last write.
None of this depends on what the disassembler answers, or on how its answers depend
on the table.
-/

namespace Uncompile

/-! ## Writing to the table -/

namespace Disassembler

variable (disassembler : Disassembler)

/-- Disassemblers that answer alike are the same if their tables have the same entries. -/
theorem eq_of_get?_eq {disassembler other : Disassembler} (hview : other.view = disassembler.view)
    (hentries : other.bindings.get? = disassembler.bindings.get?) : other = disassembler := by
  cases disassembler
  cases other
  exact congrArg₂ mk hview (SortedMap.eq_of_get?_eq (congrFun hentries))

theorem get?_setBinding (address : Address) (binding : Binding) :
    (disassembler.setBinding address binding).bindings.get? =
      Function.update disassembler.bindings.get? address (some binding) := by
  funext other
  simp only [Function.update_apply, eq_comm (a := other)]
  exact SortedMap.get?_insert disassembler.bindings address other binding

theorem get?_eraseBinding (address : Address) :
    (disassembler.eraseBinding address).bindings.get? =
      Function.update disassembler.bindings.get? address none := by
  funext other
  simp only [Function.update_apply, eq_comm (a := other)]
  exact SortedMap.get?_erase disassembler.bindings address other

end Disassembler

/-! ## The log of a scope -/

namespace FrameScope

variable (scope : FrameScope)

/-- The entries of a table after remembered ones have been put back. -/
def undone (saved : List (Address × Option Binding)) (entries : Address → Option Binding) :
    Address → Option Binding :=
  saved.foldl (fun entries entry => Function.update entries entry.1 entry.2) entries

theorem get?_release :
    scope.release.bindings.get? = undone scope.saved scope.disassembly.bindings.get? := by
  rw [release]
  generalize scope.disassembly = disassembly
  induction scope.saved generalizing disassembly with
  | nil => rfl
  | cons entry rest ih =>
      obtain ⟨address, old⟩ := entry
      rw [List.foldl_cons, ih, undone, undone, List.foldl_cons]
      congr 1
      cases old with
      | some binding => exact disassembly.get?_setBinding address binding
      | none => exact disassembly.get?_eraseBinding address

/-- Restoring only touches the table. -/
theorem view_release : scope.release.view = scope.disassembly.view := by
  rw [release]
  generalize scope.disassembly = disassembly
  induction scope.saved generalizing disassembly with
  | nil => rfl
  | cons entry rest ih =>
      rw [List.foldl_cons, ih, restoreEntry]
      split <;> rfl

/-! ## What installing leaves in the log -/

theorem resolveStack_keeps (block site : Address) (known : Binding) :
    (scope.resolveStack block site known).1.disassembly = scope.disassembly ∧
      (scope.resolveStack block site known).1.saved = scope.saved ∧
      (scope.resolveStack block site known).1.entry = scope.entry := by
  rw [resolveStack]
  split <;> exact ⟨rfl, rfl, rfl⟩

theorem resolveFrame_keeps (site : Address) (known : Binding) :
    (scope.resolveFrame site known).1.disassembly = scope.disassembly ∧
      (scope.resolveFrame site known).1.saved = scope.saved ∧
      (scope.resolveFrame site known).1.entry = scope.entry := by
  rw [resolveFrame]
  split
  · split <;> exact ⟨rfl, rfl, rfl⟩
  · exact ⟨rfl, rfl, rfl⟩

/-- What is entered at a block that starts with the given instruction. -/
def known (scope : FrameScope) (block : Address) (first : Instruction) : Binding :=
  let stacked := (scope.patch block .empty).resolveStack block first.address .empty
  (stacked.1.resolveFrame first.address stacked.2).2

/-- Installing a block leaves the scope alone, or it writes to the table at the block, at
first an empty entry, and remembers what was there. -/
theorem installBlock_cases (block : Address) :
    scope.installBlock block = scope ∨
      ∃ first, ((scope.block? block).bind fun b => b.instructions.head?) = some first ∧
        (scope.installBlock block).disassembly =
          (scope.disassembly.setBinding block .empty).setBinding block
            (scope.known block first) ∧
        (scope.installBlock block).saved =
          (block, scope.disassembly.bindings.get? block) :: scope.saved ∧
        (scope.installBlock block).entry = scope.entry := by
  rw [installBlock]
  split
  · exact .inl rfl
  · split
    · exact .inl rfl
    · rename_i first hfirst
      let opened := scope.patch block .empty
      let stacked := opened.resolveStack block first.address .empty
      obtain ⟨hstack, hstackSaved, hstackEntry⟩ :=
        opened.resolveStack_keeps block first.address .empty
      obtain ⟨hframe, hframeSaved, hframeEntry⟩ :=
        stacked.1.resolveFrame_keeps first.address stacked.2
      exact .inr ⟨first, hfirst,
        congrArg (Disassembler.setBinding · block (scope.known block first)) (hframe.trans hstack),
        hframeSaved.trans hstackSaved, hframeEntry.trans hstackEntry⟩

theorem view_installBlock (block : Address) :
    (scope.installBlock block).disassembly.view = scope.disassembly.view := by
  rcases scope.installBlock_cases block with hsame | ⟨first, -, hwritten, -⟩
  · rw [hsame]
  · rw [hwritten]
    rfl

theorem view_foldl_installBlock (blocks : List Address) :
    (blocks.foldl installBlock scope).disassembly.view = scope.disassembly.view := by
  induction blocks generalizing scope with
  | nil => rfl
  | cons block rest ih => exact (ih _).trans (scope.view_installBlock block)

/-- Installing only touches the table. -/
theorem view_install (disassembly : Disassembler) (entry : Address) (blocks : List Address)
    (frameRegister : Reg) :
    (install disassembly entry blocks frameRegister).disassembly.view = disassembly.view :=
  view_foldl_installBlock _ blocks

theorem entry_install (disassembly : Disassembler) (entry : Address) (blocks : List Address)
    (frameRegister : Reg) : (install disassembly entry blocks frameRegister).entry = entry := by
  have hfold : ∀ scope : FrameScope, (blocks.foldl installBlock scope).entry = scope.entry := by
    induction blocks with
    | nil => exact fun _ => rfl
    | cons block rest ih =>
        intro scope
        refine (ih _).trans ?_
        rcases scope.installBlock_cases block with hsame | ⟨first, -, -, -, hentry⟩
        · rw [hsame]
        · exact hentry
  exact hfold _

theorem block?_install (disassembly : Disassembly) (entry : Address) (blocks : List Address)
    (frameRegister : Reg) :
    (install disassembly entry blocks frameRegister).block? = disassembly.block? :=
  block?_eq (view_install disassembly entry blocks frameRegister)

theorem target?_install (disassembly : Disassembly) (entry : Address) (blocks : List Address)
    (frameRegister : Reg) :
    (install disassembly entry blocks frameRegister).target? = Instruction.target? :=
  target?_eq (view_install disassembly entry blocks frameRegister)

/-- The log of a scope leads back to the entries of a table. -/
def Undoes (scope : FrameScope) (entries : Address → Option Binding) : Prop :=
  undone scope.saved scope.disassembly.bindings.get? = entries

namespace Undoes

variable {scope : FrameScope} {entries : Address → Option Binding}

/-- A write is undone by what is remembered of it. -/
theorem patch (h : scope.Undoes entries) (address : Address) (binding : Binding) :
    (scope.patch address binding).Undoes entries := by
  have hpatch : undone (scope.patch address binding).saved
      (scope.patch address binding).disassembly.bindings.get? =
      undone scope.saved (Function.update
        (scope.disassembly.setBinding address binding).bindings.get? address
        (scope.disassembly.bindings.get? address)) := rfl
  rw [Undoes, hpatch, Disassembler.get?_setBinding, Function.update_idem,
    Function.update_eq_self]
  exact h

/-- So is a second write to the address. -/
theorem installBlock (h : scope.Undoes entries) (block : Address) :
    (scope.installBlock block).Undoes entries := by
  rcases scope.installBlock_cases block with hsame | ⟨first, -, hwritten, hsaved, -⟩
  · rw [hsame]
    exact h
  · have hpatch := h.patch block .empty
    rw [Undoes, hwritten, hsaved, Disassembler.get?_setBinding, undone, List.foldl_cons,
      Function.update_idem]
    exact hpatch

theorem foldl_installBlock (h : scope.Undoes entries) (blocks : List Address) :
    (blocks.foldl FrameScope.installBlock scope).Undoes entries := by
  induction blocks generalizing scope with
  | nil => exact h
  | cons block rest ih => exact ih (h.installBlock block)

end Undoes

/-- Releasing an installed scope gives back the disassembler with its table, whatever
blocks are listed, and however often. -/
theorem release_install (disassembly : Disassembler) (entry : Address) (blocks : List Address)
    (frameRegister : Reg) :
    (install disassembly entry blocks frameRegister).release = disassembly := by
  have hfresh : Undoes { disassembly, entry, frameRegister } disassembly.bindings.get? := rfl
  have hundoes := (hfresh.patch entry
    (SortedMap.empty.insert (.reg .esp) (.sym .framePtr))).foldl_installBlock blocks
  apply Disassembler.eq_of_get?_eq
  · rw [view_release, view_install]
  · rw [get?_release]
    exact hundoes

/-! ## Scopes over a program -/

/-- The scope asks a disassembly, under a table of its own. -/
def Over (scope : FrameScope) (disassembly : Disassembly) : Prop :=
  scope.disassembly.view = (disassembly : Disassembler).view

/-- The program with the table of the scope. -/
def shown (scope : FrameScope) (disassembly : Disassembly) : Program :=
  (disassembly.withBindings scope.disassembly.bindings).program

variable {scope} {disassembly : Disassembly}

@[simp]
theorem bindings_shown : (scope.shown disassembly).bindings = scope.disassembly.bindings := rfl

theorem Over.resolve_eq (h : scope.Over disassembly) :
    scope.program.resolve = (scope.shown disassembly).backtrace := by
  rw [program, Disassembler.resolve, Disassembler.code, h]
  rfl

theorem Over.resolveStack (h : scope.Over disassembly) (block site : Address)
    (known : Binding) : (scope.resolveStack block site known).1.Over disassembly := by
  rw [Over, (scope.resolveStack_keeps block site known).1]
  exact h

theorem shown_installBlock (block : Address) :
    (scope.installBlock block).shown disassembly = scope.shown disassembly ∨
      ∃ first, ((scope.block? block).bind fun b => b.instructions.head?) = some first ∧
        (scope.installBlock block).shown disassembly =
          ((scope.shown disassembly).setBinding block .empty).setBinding block
            (scope.known block first) := by
  rcases scope.installBlock_cases block with hsame | ⟨first, hfirst, hwritten, -, -⟩
  · exact .inl (by rw [hsame])
  · refine .inr ⟨first, hfirst, ?_⟩
    rw [shown, hwritten]
    rfl

end FrameScope

end Uncompile
