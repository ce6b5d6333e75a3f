import Uncompile.C.Stmt
import Uncompile.Expr.Reduce
import Uncompile.Worklist

/-!
# Pending assignments

Within a block, assignments to registers and flags are held back. `live` maps
each of them to its current value in terms of the variables as they stand;
`pending` lists those that are not yet written out, in the order of their first
update. Committing writes out a set of them so that each is assigned before the
variables it reads are overwritten.
-/

namespace Uncompile

structure BlockState where
  pending : List Symbol := []
  /-- Current values, also of registers that the frame manages. -/
  live : Binding

namespace BlockState

/-- A value in terms of the variables as they stand. -/
def eval (state : BlockState) (e : Expr) : Expr := (e.bind state.live).reduce

/-- Gives a symbol a value; unless the frame manages it, it becomes pending. -/
def update (state : BlockState) (symbol : Symbol) (value : Expr) (managed : Bool) : BlockState :=
  { pending := if managed then state.pending else OrderedSet.add state.pending symbol,
    live := state.live.insert symbol value }

/-- Forgets a symbol's value: its variable holds it. -/
def discard (state : BlockState) (symbol : Symbol) : BlockState :=
  { pending := state.pending.filter (· ≠ symbol), live := state.live.erase symbol }

/-- Whether the value of one symbol reads another. -/
def valueReads (live : Binding) (symbol read : Symbol) : Bool :=
  (live.get? symbol).any fun value => value.references read

/-- The pending symbols that are asked for. -/
def wanted (state : BlockState) (required : List Symbol) (force : Symbol → Expr → Bool) :
    List Symbol :=
  state.pending.filter fun symbol =>
    symbol ∈ required || (state.live.get? symbol).any fun value => force symbol value

/-- Adds a symbol whose value reads one of the chosen symbols other than itself. -/
def chooseReader (live : Binding) (chosen : List Symbol) (symbol : Symbol) : List Symbol :=
  if symbol ∈ chosen then chosen
  else if chosen.any fun read => read ≠ symbol && valueReads live symbol read then
    chosen ++ [symbol]
  else chosen

/-- Goes once over the pending symbols. -/
def chooseReaders (state : BlockState) (chosen : List Symbol) : List Symbol :=
  state.pending.foldl (chooseReader state.live) chosen

theorem chooseReader_cases (live : Binding) (chosen : List Symbol) (symbol : Symbol) :
    chooseReader live chosen symbol = chosen ∨
      symbol ∉ chosen ∧ chooseReader live chosen symbol = chosen ++ [symbol] := by
  unfold chooseReader
  split
  · exact .inl rfl
  · rename_i hnot
    split
    · exact .inr ⟨hnot, rfl⟩
    · exact .inl rfl

/-- Going over symbols only adds some of them. -/
theorem exists_foldl_chooseReader (live : Binding) (chosen symbols : List Symbol) :
    ∃ more, symbols.foldl (chooseReader live) chosen = chosen ++ more ∧
      ∀ symbol ∈ more, symbol ∈ symbols ∧ symbol ∉ chosen := by
  induction symbols generalizing chosen with
  | nil => exact ⟨[], by simp, by simp⟩
  | cons symbol rest ih =>
    rw [List.foldl_cons]
    obtain ⟨more, hmore, hmem⟩ := ih (chooseReader live chosen symbol)
    rcases chooseReader_cases live chosen symbol with hsame | ⟨hnew, hadded⟩
    · rw [hsame] at hmore hmem ⊢
      exact ⟨more, hmore, fun other hother =>
        ⟨List.mem_cons_of_mem _ (hmem other hother).1, (hmem other hother).2⟩⟩
    · rw [hadded] at hmore hmem ⊢
      refine ⟨symbol :: more, by rw [hmore, List.append_assoc]; rfl, ?_⟩
      intro other hother
      rcases List.mem_cons.mp hother with rfl | hother
      · exact ⟨List.mem_cons_self, hnew⟩
      · obtain ⟨hrest, hout⟩ := hmem other hother
        exact ⟨List.mem_cons_of_mem _ hrest, fun hin => hout (List.mem_append_left _ hin)⟩

/-- Adds symbols that read a chosen one until going over them adds none. -/
def withReaders (state : BlockState) (chosen : List Symbol) : List Symbol :=
  if (state.chooseReaders chosen).length = chosen.length then chosen
  else state.withReaders (state.chooseReaders chosen)
termination_by Worklist.unseen state.pending chosen
decreasing_by
  rename_i hgrown
  obtain ⟨more, hmore, hmem⟩ := exists_foldl_chooseReader state.live chosen state.pending
  rw [chooseReaders, hmore] at hgrown ⊢
  cases more with
  | nil => exact absurd (by rw [List.append_nil]) hgrown
  | cons symbol rest =>
    obtain ⟨hpending, hnew⟩ := hmem symbol List.mem_cons_self
    exact Worklist.unseen_lt hpending hnew (by simp) fun _ => List.mem_append_left _

/-- The pending symbols to write out, in order of update: those asked for, and
with each of them all that read its variable. -/
def targets (state : BlockState) (required : List Symbol) (force : Symbol → Expr → Bool) :
    List Symbol :=
  let members := state.withReaders (state.wanted required force)
  state.pending.filter fun symbol => symbol ∈ members

/-- Whether no other symbol that is still to be written out reads this one. -/
def isReady (live : Binding) (order : List Symbol) (symbol : Symbol) : Bool :=
  !order.any fun other => other ≠ symbol && valueReads live other symbol

/-- An order in which the symbols can be assigned one after the other, and
whether a circle of reads had to be broken at its first member. -/
def sequence (live : Binding) (order : List Symbol) : List Symbol × Bool :=
  match order with
  | [] => ([], false)
  | first :: rest =>
    match _h : (first :: rest).find? (isReady live (first :: rest)) with
    | some symbol =>
      let (later, cyclic) := sequence live ((first :: rest).erase symbol)
      (symbol :: later, cyclic)
    | none => (first :: (sequence live rest).1, true)
termination_by order.length
decreasing_by
  · have hmem := List.mem_of_find?_eq_some _h
    have hpos := List.length_pos_of_mem hmem
    rw [List.length_erase_of_mem hmem]
    omega
  · simp

/-- The assignment of a symbol's value, unless it is the variable itself. -/
def assignment? (live : Binding) (symbol : Symbol) : Option Stmt :=
  match live.get? symbol with
  | some value =>
    if value = .sym symbol then none
    else some (.assign (.ofSymbol symbol) (.ofExpr value))
  | none => none

structure Commit where
  state : BlockState
  stmts : List Stmt
  /-- Whether the assignments read each other in a circle. -/
  cyclic : Bool

/-- Writes out the pending symbols that are required or forced, and those that
read them. -/
def commit (state : BlockState) (required : List Symbol) (force : Symbol → Expr → Bool) :
    Commit :=
  let (order, cyclic) := sequence state.live (state.targets required force)
  { state :=
      { pending := state.pending.filter fun symbol => symbol ∉ order,
        live := order.foldl SortedMap.erase state.live },
    stmts := order.filterMap (assignment? state.live),
    cyclic }

end BlockState

end Uncompile
