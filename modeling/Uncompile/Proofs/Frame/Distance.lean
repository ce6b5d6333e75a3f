import Uncompile.Proofs.Expr.Affine
import Uncompile.Proofs.Expr.Normal
import Uncompile.Proofs.Frame.Release
import Uncompile.Proofs.Program.Coverage

/-!
# Distances from the stack pointer at entry

An expression that always stands at one distance from the stack pointer at entry does so
wherever it is carried backwards, and whatever a table of frame addresses makes of it. So
where one place of a backward search is at a distance, all candidates found from there are
at the same one. Candidates are in normal form, in which an address of the frame shows its
distance as a signed word; so are the addresses that a scope enters in an empty table.
-/

namespace Uncompile

/-! ## Expressions at a distance -/

namespace Expr

/-- In normal form a frame address shows its distance as a signed word. -/
theorem wrap32_of_normal {e : Expr} (he : e.Normal) {offset : Int}
    (hoffset : e.frameOffset? = some offset) : wrap32 offset = offset := by
  have haffine : e.isAffine := by
    rcases frameOffset?_eq_some hoffset with ⟨rfl, rfl⟩ | rfl | rfl | ⟨k, rfl, rfl⟩ <;> rfl
  have hframe : e.reduce = frame (wrap32 offset) := by
    rw [reduce_eq_frame_iff haffine (wrap32_wrap32 offset)]
    intro v
    rw [eval_of_frameOffset hoffset, toWord_wrap32]
  rw [reduce_of_normal he] at hframe
  rw [hframe, frameOffset?_frame] at hoffset
  exact Option.some.inj hoffset

/-- The expression stands at a distance from the stack pointer at entry, whatever the
state. -/
structure LiesAt (offset : Int) (e : Expr) : Prop where
  flagless : e.Within .flagless
  value : ∀ (world : World) (machine : MachineState),
    e.eval (machine.valuation world) = machine.symbol .framePtr + toWord offset

namespace LiesAt

variable {e : Expr} {offset : Int}

/-- Binding registers does not move what stands at a distance. -/
theorem bind (h : e.LiesAt offset) {binding : Binding} (hframe : binding.get? .framePtr = none)
    (hvalues : ∀ symbol value, binding.get? symbol = some value → value.Within .flagless) :
    (e.bind binding).reduce.LiesAt offset := by
  have hbound : (e.bind binding).Within .flagless :=
    within_bind h.flagless fun symbol value _ => hvalues symbol value
  refine ⟨within_reduce hbound, fun world machine => ?_⟩
  rw [eval_reduce_of_flagless hbound, eval_bind]
  have hmoved := h.value world
    { machine with symbol := ((machine.valuation world).bind binding).symbol }
  have hkept : ((machine.valuation world).bind binding).symbol .framePtr =
      machine.symbol .framePtr := Valuation.bind_symbol_of_none hframe
  exact hmoved.trans (congrArg (· + toWord offset) hkept)

/-- Instructions leave the stack pointer at entry alone. -/
theorem rewind (h : e.LiesAt offset) {insns : List Instruction}
    (hlifted : ∀ insn ∈ insns, insn.Lifted) : (rewind insns e).LiesAt offset := by
  refine ⟨flagless_rewind hlifted h.flagless, fun world machine => ?_⟩
  rw [eval_rewind world hlifted h.flagless, h.value,
    MachineState.framePtr_runRegisters hlifted]

/-- What stands at a distance shows it. -/
theorem offset_eq (h : e.LiesAt offset) (hoffset : wrap32 offset = offset) (he : e.Normal)
    {shown : Int} (hshown : e.frameOffset? = some shown) : shown = offset := by
  have hvalue := h.value CWorld.silent.toWorld { symbol := fun _ => 0, memory := fun _ => 0 }
  rw [eval_of_frameOffset hshown] at hvalue
  have hword : toWord shown = toWord offset := add_left_cancel hvalue
  rw [← wrap32_of_normal he hshown, ← hoffset, ← toInt_toWord, ← toInt_toWord, hword]

end LiesAt

theorem normal_rewind {e : Expr} (he : e.Normal) (insns : List Instruction) :
    (rewind insns e).Normal := by
  cases insns with
  | nil => exact he
  | cons insn rest =>
      rw [rewind_cons]
      exact normal_reduce _

end Expr

/-! ## Backward searches -/

/-- A binding of registers to frame addresses in normal form. -/
def Binding.OfFrame (binding : Binding) : Prop :=
  ∀ symbol value, binding.get? symbol = some value →
    (∃ r, symbol = .reg r) ∧ value.Normal ∧ value.frameOffset?.isSome

namespace Program

variable {program : Program}

/-- The binding table knows registers of the frame only. -/
def FrameTable (program : Program) : Prop :=
  ∀ address binding, program.bindings.get? address = some binding → binding.OfFrame

theorem normal_settle {visit : Visit} (he : visit.2.Normal) :
    (program.settle visit).1.Normal := by
  rw [settle]
  split
  · exact Expr.normal_reduce _
  · exact he

/-- A table of frame addresses keeps distances. -/
theorem FrameTable.liesAt_settle (htable : program.FrameTable) {visit : Visit} {offset : Int}
    (he : visit.2.LiesAt offset) : (program.settle visit).1.LiesAt offset := by
  rw [settle]
  split
  · rename_i binding hbinding
    have hentry := htable visit.1 binding hbinding
    refine he.bind ?_ ?_
    · refine Option.eq_none_iff_forall_ne_some.mpr fun value hvalue => ?_
      obtain ⟨⟨r, hr⟩, -⟩ := hentry _ _ hvalue
      cases hr
    · intro symbol value hvalue
      obtain ⟨-, -, hsome⟩ := hentry symbol value hvalue
      obtain ⟨found, hfound⟩ := Option.isSome_iff_exists.mp hsome
      exact Expr.flagless_of_traced (Expr.traced_of_frameOffset hfound)
  · exact he

/-- What holds of all places of a search, after the table has been applied, holds of all
candidates. -/
theorem forall_mem_searchListed {P : Expr → Prop}
    (hbefore : ∀ address e, P e → ∀ visit ∈ program.visitsBefore address e,
      P (program.settle visit).1)
    (snapshot : Address) (budget : Nat) {stack : List Visit} (seen : List Visit)
    {found : List Expr} (hstack : ∀ visit ∈ stack, P (program.settle visit).1)
    (hfound : ∀ e ∈ found, P e) :
    ∀ e ∈ program.searchListed snapshot budget stack seen found, P e := by
  induction budget generalizing stack seen found with
  | zero =>
      cases stack with
      | nil => simpa [searchListed] using hfound
      | cons visit rest => simp [searchListed]
  | succ budget ih =>
      cases stack with
      | nil => simpa [searchListed] using hfound
      | cons visit rest =>
          obtain ⟨hvisit, hrest⟩ := List.forall_mem_cons.mp hstack
          rw [searchListed]
          split
          · exact ih _ hrest hfound
          · dsimp only
            split
            · refine ih _ hrest fun e he => ?_
              rw [addCandidate] at he
              split at he
              · exact hfound e he
              · rcases List.mem_append.mp he with he | he
                · exact hfound e he
                · rwa [List.mem_singleton.mp he]
            · refine ih _ (fun other hother => ?_) hfound
              rcases List.mem_append.mp hother with hother | hother
              · exact hbefore visit.1 _ hvisit other (List.mem_reverse.mp hother)
              · exact hrest other hother

theorem forall_mem_backtrace {P : Expr → Prop}
    (hbefore : ∀ address e, P e → ∀ visit ∈ program.visitsBefore address e,
      P (program.settle visit).1)
    {site : Address} {block : Block} {index : Nat}
    (hsite : program.locate? site = some (block, index)) {symbol : Symbol}
    (hstart : P (program.settle
      (block.address, rewind (block.instructions.take index) (.sym symbol))).1)
    (snapshot : Address) : ∀ e ∈ program.backtrace symbol site snapshot, P e := by
  rw [backtrace_eq_backtraceListed, backtraceListed, hsite]
  exact forall_mem_searchListed hbefore snapshot _ _ (List.forall_mem_singleton.mpr hstart)
    (List.forall_mem_nil _)

/-- Candidates are in normal form. -/
theorem normal_of_mem_backtrace {symbol : Symbol} {site snapshot : Address} {e : Expr}
    (he : e ∈ program.backtrace symbol site snapshot) : e.Normal := by
  cases hsite : program.locate? site with
  | none =>
      rw [backtrace, hsite] at he
      exact absurd he List.not_mem_nil
  | some place =>
      refine forall_mem_backtrace (P := Expr.Normal) ?_ hsite ?_ snapshot e he
      · intro address e he visit hvisit
        obtain ⟨predecessor, -, hvisit⟩ := List.mem_filterMap.mp hvisit
        obtain ⟨block, -, rfl⟩ := Option.map_eq_some_iff.mp hvisit
        exact normal_settle (Expr.normal_rewind he _)
      · have hsymbol : (Expr.sym symbol).Normal := trivial
        exact normal_settle (Expr.normal_rewind hsymbol _)

/-- If the value at a place is at a distance, all candidates are. -/
theorem FrameTable.liesAt_of_mem_backtrace (htable : program.FrameTable)
    (hlifted : ∀ block ∈ program.blocks.values, ∀ insn ∈ block.instructions, insn.Lifted)
    {site : Address} {block : Block} {index : Nat}
    (hsite : program.locate? site = some (block, index)) {symbol : Symbol} {offset : Int}
    (hstart : (program.settle
      (block.address, rewind (block.instructions.take index) (.sym symbol))).1.LiesAt offset)
    {snapshot : Address} {e : Expr} (he : e ∈ program.backtrace symbol site snapshot) :
    e.LiesAt offset := by
  refine forall_mem_backtrace (P := Expr.LiesAt offset) ?_ hsite hstart snapshot e he
  intro address e he visit hvisit
  obtain ⟨predecessor, -, hvisit⟩ := List.mem_filterMap.mp hvisit
  obtain ⟨block, hblock, rfl⟩ := Option.map_eq_some_iff.mp hvisit
  exact htable.liesAt_settle (he.rewind (hlifted block (SortedMap.mem_values_of_get? hblock)))

end Program

/-! ## Installing a frame -/

namespace Binding

theorem ofFrame_empty : OfFrame .empty := by
  intro symbol value hvalue
  rw [SortedMap.get?_empty] at hvalue
  cases hvalue

theorem OfFrame.insert {binding : Binding} (h : binding.OfFrame) (r : Reg) {value : Expr}
    (hnormal : value.Normal) (hoffset : value.frameOffset?.isSome) :
    OfFrame (SortedMap.insert binding (.reg r) value) := by
  intro symbol found hfound
  rw [SortedMap.get?_insert] at hfound
  split at hfound
  · rename_i hsame
    obtain rfl := Option.some.inj hfound
    exact ⟨⟨r, hsame.symm⟩, hnormal, hoffset⟩
  · exact h symbol found hfound

end Binding

/-- Entering frame addresses in the table. -/
theorem Program.FrameTable.setBinding {program : Program} (h : program.FrameTable)
    (address : Address) {binding : Binding} (hbinding : binding.OfFrame) :
    (program.setBinding address binding).FrameTable := by
  intro other found hfound
  rw [Program.setBinding, SortedMap.get?_insert] at hfound
  split at hfound
  · exact Option.some.inj hfound ▸ hbinding
  · exact h other found hfound

namespace FrameScope

variable {scope : FrameScope} {disassembly : Disassembly}

namespace Over

variable (h : scope.Over disassembly)

include h

/-- A resolved value is what the search found. -/
theorem mem_backtrace_of_resolve? {reg : Reg} {site : Address} {value : Expr}
    (hvalue : scope.resolve? reg site = some value) :
    value ∈ (scope.shown disassembly).backtrace (.reg reg) site scope.entry ∧
      value.frameOffset?.isSome := by
  rw [resolve?, h.resolve_eq] at hvalue
  split at hvalue
  · rename_i only hfound
    split at hvalue
    · rename_i hsome
      obtain rfl := Option.some.inj hvalue
      exact ⟨hfound ▸ List.mem_singleton_self _, hsome⟩
    · cases hvalue
  · cases hvalue

theorem normal_of_resolve? {reg : Reg} {site : Address} {value : Expr}
    (hvalue : scope.resolve? reg site = some value) :
    value.Normal ∧ value.frameOffset?.isSome :=
  (h.mem_backtrace_of_resolve? hvalue).imp_left Program.normal_of_mem_backtrace

theorem ofFrame_resolveStack (block site : Address) :
    (scope.resolveStack block site .empty).2.OfFrame := by
  rw [FrameScope.resolveStack]
  split
  · rename_i value hvalue
    obtain ⟨hnormal, hoffset⟩ := h.normal_of_resolve? hvalue
    exact Binding.ofFrame_empty.insert .esp hnormal hoffset
  · exact Binding.ofFrame_empty

theorem ofFrame_resolveFrame (site : Address) {known : Binding} (hknown : known.OfFrame) :
    (scope.resolveFrame site known).2.OfFrame := by
  rw [resolveFrame]
  split
  · split
    · rename_i value hvalue
      obtain ⟨hnormal, hoffset⟩ := h.normal_of_resolve? hvalue
      exact hknown.insert _ hnormal hoffset
    · exact hknown
  · exact hknown

theorem ofFrame_known (block : Address) (first : Instruction) :
    (scope.known block first).OfFrame := by
  have hopened : (scope.patch block .empty).Over disassembly := h
  exact (hopened.resolveStack block first.address .empty).ofFrame_resolveFrame first.address
    (hopened.ofFrame_resolveStack block first.address)

theorem frameTable_installBlock (htable : (scope.shown disassembly).FrameTable)
    (block : Address) : ((scope.installBlock block).shown disassembly).FrameTable := by
  rcases shown_installBlock block with hsame | ⟨first, -, hwritten⟩
  · rw [hsame]
    exact htable
  · rw [hwritten]
    exact (htable.setBinding block Binding.ofFrame_empty).setBinding block
      (h.ofFrame_known block first)

end Over

/-- A scope that starts from an empty table enters frame addresses only. -/
theorem frameTable_install (hempty : disassembly.program.bindings = .empty) (entry : Address)
    (blocks : List Address) (frameRegister : Reg) :
    ((install disassembly entry blocks frameRegister).shown disassembly).FrameTable := by
  have hfold : ∀ (addresses : List Address) (scope : FrameScope), scope.Over disassembly →
      (scope.shown disassembly).FrameTable →
        ((addresses.foldl installBlock scope).shown disassembly).FrameTable := by
    intro addresses
    induction addresses with
    | nil => exact fun _ _ htable => htable
    | cons address rest ih =>
        intro scope hover htable
        exact ih _ ((scope.view_installBlock address).trans hover)
          (hover.frameTable_installBlock htable address)
  have hopened : disassembly.program.FrameTable := by
    intro address binding hbinding
    rw [hempty, SortedMap.get?_empty] at hbinding
    cases hbinding
  have hseed : Binding.OfFrame (SortedMap.empty.insert (.reg .esp) (.sym .framePtr)) :=
    Binding.ofFrame_empty.insert .esp trivial rfl
  exact hfold blocks _ rfl (hopened.setBinding entry hseed)

end FrameScope

end Uncompile
