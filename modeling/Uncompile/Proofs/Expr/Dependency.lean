import Uncompile.Proofs.Expr.Vocabulary

/-!
# What a value depends on

The value of an expression depends on its symbols and, through the reads in it, on
memory and on ports. Substitution replaces each bound symbol among these dependencies by
those of its value. Reduction merges, drops and rebuilds operands, but every dependency
of its result is one of the expression. What is substituted and reduced therefore
mentions only symbols that were left and symbols of the values that took the place of
others.
-/

namespace Uncompile

namespace Expr

/-- What the value of an expression can depend on. -/
inductive Dependency where
  | symbol (symbol : Symbol)
  | memory
  | port

/-- The dependencies of an expression, once per occurrence, from left to right. -/
def dependencies : Expr → List Dependency
  | const _ => []
  | sym symbol => [.symbol symbol]
  | mem ptr _ => .memory :: ptr.dependencies
  | port p _ => .port :: p.dependencies
  | unary _ arg => arg.dependencies
  | binary _ lhs rhs => lhs.dependencies ++ rhs.dependencies

variable {e : Expr} {symbol : Symbol}

theorem references_iff_mem_dependencies :
    e.references symbol ↔ .symbol symbol ∈ e.dependencies := by
  induction e with
  | const value => simp [references, dependencies]
  | sym other => simp [references, dependencies, eq_comm]
  | mem ptr size ih => simpa [references, dependencies] using ih
  | port p size ih => simpa [references, dependencies] using ih
  | unary op arg ih => exact ih
  | binary op lhs rhs ihl ihr => simp [references, dependencies, ihl, ihr]

theorem mem_externals_iff : symbol ∈ e.externals ↔ e.references symbol := by
  rw [externals, OrderedSet.mem_addAll, references_iff_mem_symbols]
  exact or_iff_right List.not_mem_nil

theorem readsMemory_iff :
    e.readsMemory ↔ .memory ∈ e.dependencies ∨ .port ∈ e.dependencies := by
  induction e with
  | const value => simp [readsMemory, dependencies]
  | sym symbol => simp [readsMemory, dependencies]
  | mem ptr size => simp [readsMemory, dependencies]
  | port p size => simp [readsMemory, dependencies]
  | unary op arg ih => exact ih
  | binary op lhs rhs ihl ihr =>
      simp only [readsMemory, dependencies, Bool.or_eq_true, ihl, ihr, List.mem_append]
      exact or_or_or_comm

/-! ## Substitution -/

/-- What a dependency becomes when symbols are replaced by values. -/
def Dependency.replaced (binding : Binding) : Dependency → List Dependency
  | .symbol symbol =>
    match binding.get? symbol with
    | some value => value.dependencies
    | none => [.symbol symbol]
  | .memory => [.memory]
  | .port => [.port]

theorem dependencies_bind (binding : Binding) (e : Expr) :
    (e.bind binding).dependencies = e.dependencies.flatMap (Dependency.replaced binding) := by
  induction e with
  | const value => rfl
  | sym symbol =>
      cases hvalue : binding.get? symbol <;>
        simp [bind, dependencies, Dependency.replaced, hvalue]
  | mem ptr size ih => simp [bind, dependencies, Dependency.replaced, ih]
  | port p size ih => simp [bind, dependencies, Dependency.replaced, ih]
  | unary op arg ih => exact ih
  | binary op lhs rhs ihl ihr => simp [bind, dependencies, ihl, ihr]

/-- A symbol comes from itself where nothing is bound to it, or from a symbol whose value
mentions it. -/
theorem symbol_mem_replaced_iff {binding : Binding} {dependency : Dependency} :
    .symbol symbol ∈ dependency.replaced binding ↔
      (dependency = .symbol symbol ∧ binding.get? symbol = none) ∨
        ∃ bound, dependency = .symbol bound ∧ ∃ value, binding.get? bound = some value ∧
          .symbol symbol ∈ value.dependencies := by
  cases dependency with
  | memory => simp [Dependency.replaced]
  | port => simp [Dependency.replaced]
  | symbol read =>
      cases hvalue : binding.get? read with
      | none =>
          simp only [Dependency.replaced, hvalue, List.mem_singleton, Dependency.symbol.injEq]
          grind
      | some value =>
          simp only [Dependency.replaced, hvalue, Dependency.symbol.injEq]
          grind

/-- The symbols of a substituted expression are those that were left and those of the
values in place of the others. -/
theorem references_bind_iff {binding : Binding} :
    (e.bind binding).references symbol ↔
      (e.references symbol ∧ binding.get? symbol = none) ∨
        ∃ bound, e.references bound ∧ ∃ value, binding.get? bound = some value ∧
          value.references symbol := by
  simp only [references_iff_mem_dependencies, dependencies_bind, List.mem_flatMap,
    symbol_mem_replaced_iff]
  constructor
  · rintro ⟨_, hmem, ⟨rfl, hnone⟩ | ⟨bound, rfl, hvalue⟩⟩
    · exact Or.inl ⟨hmem, hnone⟩
    · exact Or.inr ⟨bound, hmem, hvalue⟩
  · rintro (⟨hmem, hnone⟩ | ⟨bound, hmem, hvalue⟩)
    · exact ⟨_, hmem, Or.inl ⟨rfl, hnone⟩⟩
    · exact ⟨_, hmem, Or.inr ⟨bound, rfl, hvalue⟩⟩

end Expr

/-! ## Reduction -/

/-- The expressions whose dependencies satisfy a predicate. -/
def Vocabulary.ofDependencies (allowed : Expr.Dependency → Prop) : Vocabulary :=
  { Vocabulary.ofSymbols fun symbol => allowed (.symbol symbol) with
    memory := allowed .memory
    port := allowed .port }

namespace Expr

variable {e : Expr}

theorem within_ofDependencies_iff {allowed : Dependency → Prop} :
    e.Within (.ofDependencies allowed) ↔ ∀ dependency ∈ e.dependencies, allowed dependency := by
  induction e with
  | const value =>
      simp [Within, dependencies, Vocabulary.ofDependencies, Vocabulary.ofSymbols]
  | sym symbol => simp [Within, dependencies, Vocabulary.ofDependencies, Vocabulary.ofSymbols]
  | mem ptr size ih =>
      simp only [Within, dependencies, List.forall_mem_cons, ih]
      exact Iff.rfl
  | port p size ih =>
      simp only [Within, dependencies, List.forall_mem_cons, ih]
      exact Iff.rfl
  | unary op arg ih => exact ih
  | binary op lhs rhs ihl ihr =>
      simp only [Within, ihl, ihr, dependencies, List.forall_mem_append]
      exact and_iff_right trivial

/-- Every dependency of a reduced expression is one of the expression. -/
theorem dependencies_reduce_subset (e : Expr) : e.reduce.dependencies ⊆ e.dependencies := by
  have hwithin : e.Within (.ofDependencies (· ∈ e.dependencies)) :=
    within_ofDependencies_iff.mpr fun _ hdependency => hdependency
  exact fun _ => within_ofDependencies_iff.mp (within_reduce hwithin) _

/-- Reduction adds no symbol and no read: neither of memory nor of a port, nor one of them
in place of the other. After a substitution, each symbol of the reduced expression is an
unbound symbol of the original one or belongs to the value of a bound one. -/
theorem reduce_adds_no_dependency (e : Expr) :
    e.reduce.externals ⊆ e.externals ∧
      (e.reduce.readsMemory → e.readsMemory) ∧
      e.reduce.dependencies ⊆ e.dependencies ∧
      ∀ binding : Binding, ∀ symbol ∈ (e.bind binding).reduce.externals,
        (symbol ∈ e.externals ∧ binding.get? symbol = none) ∨
          ∃ bound ∈ e.externals, ∃ value, binding.get? bound = some value ∧
            symbol ∈ value.externals := by
  have hreduce := dependencies_reduce_subset e
  refine ⟨?_, ?_, hreduce, ?_⟩
  · intro symbol hsymbol
    rw [mem_externals_iff] at hsymbol ⊢
    exact references_of_references_reduce hsymbol
  · rw [readsMemory_iff, readsMemory_iff]
    exact Or.imp (@hreduce _) (@hreduce _)
  · intro binding symbol hsymbol
    simp only [mem_externals_iff] at hsymbol ⊢
    exact references_bind_iff.mp (references_of_references_reduce hsymbol)

namespace CancelledBase

/-- The sum `ebx + mem32[esi] - ebx + edi`. -/
def sum : Expr :=
  binary .add (binary .sub (binary .add (reg .ebx) (mem (reg .esi) 4)) (reg .ebx)) (reg .edi)

/-- `ebx` is `ecx`, and `esi` is the address of a slot in the frame. -/
def binding : Binding := SortedMap.ofList [(.reg .ebx, reg .ecx), (.reg .esi, frame 8)]

/-- The base cancels, and with it `ecx`; the frame pointer comes from the value of `esi`
and `edi` is left. -/
theorem reduce_adds_no_dependency_cancelled :
    sum.reduce.externals = [.reg .esi, .reg .edi] ∧
      [.reg .esi, .reg .edi] ⊆ sum.externals ∧
      sum.reduce.readsMemory ∧ sum.readsMemory ∧
      (sum.bind binding).reduce.externals = [.framePtr, .reg .edi] ∧
      ∀ symbol ∈ [Symbol.framePtr, .reg .edi],
        (symbol ∈ sum.externals ∧ binding.get? symbol = none) ∨
          ∃ bound ∈ sum.externals, ∃ value, binding.get? bound = some value ∧
            symbol ∈ value.externals := by
  have hreduced : sum.reduce.externals = [.reg .esi, .reg .edi] := by decide
  have hreads : sum.reduce.readsMemory := by decide
  have hbound : (sum.bind binding).reduce.externals = [.framePtr, .reg .edi] := by decide
  obtain ⟨hsymbols, hmemory, -, hbinding⟩ := reduce_adds_no_dependency sum
  refine ⟨hreduced, ?_, hreads, hmemory hreads, hbound, ?_⟩
  · rwa [hreduced] at hsymbols
  · rw [← hbound]
    exact hbinding binding

end CancelledBase

end Expr

end Uncompile
