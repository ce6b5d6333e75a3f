import Uncompile.Emission.Lowering
import Uncompile.Proofs.Emission.Commit
import Uncompile.Proofs.Emission.Values

/-!
# Block states that track the machine

A block state tracks the machine if the variables, overridden by the values it
holds, give every symbol what the machine has in it. Commits, stores and updates
keep this up: a commit moves values into variables, a store is preceded by a
commit of all that reads memory, and an update binds a value that was computed
before the instruction.
-/

namespace Uncompile

/-- A value that neither stores nor commits can change: it reads no memory, and
only such registers as are never written out. -/
structure Expr.Steady (managed : Symbol → Bool) (value : Expr) : Prop where
  memoryless : value.readsMemory = false
  reads : ∀ read, value.references read → read.onProcessor → managed read

instance (managed : Symbol → Bool) (value : Expr) : Decidable (value.Steady managed) :=
  decidable_of_iff
    (value.readsMemory = false ∧ ∀ read ∈ value.symbols, read.onProcessor → managed read)
    ⟨fun h => ⟨h.1, fun read hread => h.2 read (Expr.references_iff_mem_symbols.mp hread)⟩,
      fun h => ⟨h.memoryless, fun read hread =>
        h.reads read (Expr.references_iff_mem_symbols.mpr hread)⟩⟩

namespace BlockState

/-- A well-formed block state in which the bound symbols are pending unless the
frame manages them. -/
structure Framed (managed : Symbol → Bool) (state : BlockState) : Prop
    extends state.WellFormed where
  pending_iff : ∀ symbol value, state.live.get? symbol = some value →
    (symbol ∈ state.pending ↔ managed symbol = false)

namespace Framed

variable {managed : Symbol → Bool} {state : BlockState}

theorem unmanaged_of_pending (h : state.Framed managed) {symbol : Symbol}
    (hpending : symbol ∈ state.pending) : managed symbol = false := by
  obtain ⟨value, hvalue⟩ := h.bound symbol hpending
  exact (h.pending_iff symbol value hvalue).mp hpending

/-- Evaluating in the block state brings in no names from outside. -/
theorem unnamed_eval (h : state.Framed managed) {e : Expr}
    (hunnamed : ∀ read, e.references read → read.isNamed = false) :
    ∀ read, (state.eval e).references read → read.isNamed = false := by
  rw [← Expr.within_ofSymbols_iff] at hunnamed ⊢
  exact Expr.within_reduce (Expr.within_bind hunnamed fun symbol value _ hvalue =>
    Expr.within_ofSymbols_iff.mpr (h.unnamed symbol value hvalue))

theorem commit (h : state.Framed managed) (required : List Symbol)
    (force : Symbol → Expr → Bool) : (state.commit required force).state.Framed managed where
  toWellFormed := wellFormed_commit h.toWellFormed
  pending_iff symbol value hvalue := by
    rw [get?_live_commit] at hvalue
    split at hvalue
    · simp at hvalue
    · rename_i hnot
      simp only [mem_pending_commit, hnot, not_false_iff, and_true]
      exact h.pending_iff symbol value hvalue

end Framed

end BlockState

/-- The variables and the values of a block state give what the machine holds.
What is bound is pending unless the frame manages it, and then it is steady. -/
structure Tracks (world : World) (managed : Symbol → Bool) (state : BlockState) (c : CState)
    (machine : MachineState) : Prop where
  current : ∀ symbol, symbol.isNamed = false →
    ((c.valuation world).bind state.live).symbol symbol = machine.symbol symbol
  bits : (c.valuation world).FlagBits
  wellFormed : state.WellFormed
  form : ∀ symbol value, state.live.get? symbol = some value → ValueForm symbol value
  pending_iff : ∀ symbol value, state.live.get? symbol = some value →
    (symbol ∈ state.pending ↔ managed symbol = false)
  steady : ∀ symbol value, state.live.get? symbol = some value → managed symbol →
    value.Steady managed

namespace Tracks

variable {world : World} {managed : Symbol → Bool} {state : BlockState} {c : CState}
  {machine : MachineState}

theorem liveForm (h : Tracks world managed state c machine) : LiveForm state.live :=
  ⟨h.wellFormed.processor, h.form⟩

theorem framed (h : Tracks world managed state c machine) : state.Framed managed :=
  ⟨h.wellFormed, h.pending_iff⟩

/-- Evaluating in the block state gives C expressions with the machine's values. -/
theorem eval_eq (h : Tracks world managed state c machine) (hmemory : c.memory = machine.memory)
    {e : Expr} (hunnamed : ∀ read, e.references read → read.isNamed = false)
    (hregular : (e.bind state.live).Regular) :
    (state.eval e).eval (c.valuation world) = e.eval (machine.valuation world) := by
  rw [BlockState.eval_eval h.bits hregular]
  apply Expr.eval_congr
  · exact fun symbol hsymbol => h.current symbol (hunnamed symbol hsymbol)
  · exact fun _ => ⟨congrArg Memory.load hmemory, rfl⟩
  · rfl

/-! ## Commits -/

variable {required : List Symbol} {force : Symbol → Expr → Bool}

/-- A bound value that is not pending reads nothing that is written out. -/
theorem references_target (h : Tracks world managed state c machine) {symbol : Symbol}
    {value : Expr} (hvalue : state.live.get? symbol = some value)
    (hpending : symbol ∉ state.pending) :
    ∀ target ∈ state.targets required force, value.references target = false := by
  have hmanaged : managed symbol := by
    simpa using (h.pending_iff symbol value hvalue).not.mp hpending
  intro target htarget
  have hwritten := BlockState.mem_pending_of_mem_targets htarget
  by_contra hreads
  have hread := (h.steady symbol value hvalue hmanaged).reads target (by simpa using hreads)
    (h.wellFormed.onProcessor_of_pending hwritten)
  rw [h.framed.unmanaged_of_pending hwritten] at hread
  exact Bool.false_ne_true hread

/-- A commit without circle leaves the machine tracked. -/
theorem commit (h : Tracks world managed state c machine) (hmachine : machine.FlagBits)
    (hacyclic : (state.commit required force).cyclic = false) :
    Tracks world managed (state.commit required force).state
      (state.settled world required force c) machine where
  current symbol hsymbol := by
    rw [BlockState.bind_settled h.wellFormed hacyclic hsymbol
      (fun value hvalue hpending => h.references_target hvalue hpending)]
    exact h.current symbol hsymbol
  bits f := by
    have hsettled := BlockState.symbol_settled h.wellFormed hacyclic
      (show (Symbol.flag f).isNamed = false from rfl) world c
    rw [CState.symbol_valuation, hsettled]
    split
    · rw [h.current (.flag f) rfl]
      exact hmachine f
    · exact h.bits f
  wellFormed := BlockState.wellFormed_commit h.wellFormed
  form symbol value hvalue := by
    rw [BlockState.get?_live_commit] at hvalue
    split at hvalue
    · simp at hvalue
    · exact h.form symbol value hvalue
  pending_iff := (h.framed.commit required force).pending_iff
  steady symbol value hvalue := by
    rw [BlockState.get?_live_commit] at hvalue
    split at hvalue
    · simp at hvalue
    · exact h.steady symbol value hvalue

/-- After a commit that forces out what reads memory, no bound value reads it. -/
theorem memoryless_commit (h : Tracks world managed state c machine) {symbol : Symbol}
    {value : Expr}
    (hvalue : (state.commit required BlockContext.ifReadsMemory).state.live.get? symbol =
      some value) : value.readsMemory = false := by
  rw [BlockState.get?_live_commit] at hvalue
  split at hvalue
  · simp at hvalue
  · rename_i hnot
    by_contra hreads
    cases hmanaged : managed symbol with
    | true => exact hreads (h.steady symbol value hvalue hmanaged).memoryless
    | false =>
        apply hnot
        apply BlockState.mem_targets_of_mem_wanted
        refine List.mem_filter.mpr ⟨(h.pending_iff symbol value hvalue).mpr hmanaged, ?_⟩
        simpa [hvalue, BlockContext.ifReadsMemory] using Or.inr hreads

/-- Where no bound value reads memory, evaluation does not begin to read it. -/
theorem readsMemory_eval
    (hlive : ∀ symbol value, state.live.get? symbol = some value → value.readsMemory = false)
    {e : Expr} (he : e.readsMemory = false) : (state.eval e).readsMemory = false := by
  rw [← Expr.within_memoryless_iff] at he ⊢
  exact Expr.within_reduce (Expr.within_bind he fun symbol value _ hvalue =>
    Expr.within_memoryless_iff.mpr (hlive symbol value hvalue))

/-- A store changes no tracked value if none reads memory. -/
theorem store (h : Tracks world managed state c machine)
    (hlive : ∀ symbol value, state.live.get? symbol = some value → value.readsMemory = false)
    (address word : Word) (size : Nat) :
    Tracks world managed state (c.store address word size) machine where
  current symbol hsymbol := by
    rw [← h.current symbol hsymbol]
    cases hvalue : state.live.get? symbol with
    | none =>
        rw [Valuation.bind_symbol_of_none hvalue, Valuation.bind_symbol_of_none hvalue]
        exact congrFun (CState.symbol_store c address word size) symbol
    | some value =>
        rw [Valuation.bind_symbol_of_some hvalue, Valuation.bind_symbol_of_some hvalue]
        apply Expr.eval_congr
        · exact fun read _ => congrFun (CState.symbol_store c address word size) read
        · intro hreads
          rw [hlive symbol value hvalue] at hreads
          exact absurd hreads Bool.false_ne_true
        · rfl
  bits f := by
    rw [CState.symbol_valuation, CState.symbol_store]
    exact h.bits f
  wellFormed := h.wellFormed
  form := h.form
  pending_iff := h.pending_iff
  steady := h.steady

/-! ## Updates -/

/-- Tracking says nothing about the machine's memory. -/
theorem congr (h : Tracks world managed state c machine) {other : MachineState}
    (hsymbol : other.symbol = machine.symbol) : Tracks world managed state c other where
  current symbol hnamed := by
    rw [hsymbol]
    exact h.current symbol hnamed
  bits := h.bits
  wellFormed := h.wellFormed
  form := h.form
  pending_iff := h.pending_iff
  steady := h.steady

end Tracks

/-- What a symbol can be bound to: a value of its form that has the word in the C
state. -/
structure Bindable (world : World) (managed : Symbol → Bool) (c : CState) (symbol : Symbol)
    (value : Expr) (word : Word) : Prop where
  processor : symbol.onProcessor
  form : ValueForm symbol value
  unnamed : ∀ read, value.references read → read.isNamed = false
  steady : managed symbol → value.Steady managed
  word : value.eval (c.valuation world) = word

namespace BlockState

variable {state : BlockState}

theorem get?_live_update (symbol : Symbol) (value : Expr) (isManaged : Bool) (other : Symbol) :
    (state.update symbol value isManaged).live.get? other =
      if symbol = other then some value else state.live.get? other :=
  SortedMap.get?_insert state.live symbol other value

/-- After all writes of an effect have been taken over, a symbol has the value that
the effect binds it to, evaluated beforehand, or the one it had. -/
theorem get?_live_takeAll (managed : Symbol → Bool) (evaluate : Expr → Expr) (effect : Effect)
    (state : BlockState) (symbol : Symbol) :
    ((effect.filterMap fun write => write.1.asSymbol?.map fun symbol =>
      (symbol, evaluate write.2)).foldl
        (fun state entry => state.update entry.1 entry.2 (managed entry.1))
        state).live.get? symbol =
      ((effect.toBinding.get? symbol).map evaluate).or (state.live.get? symbol) := by
  induction effect using List.reverseRecOn with
  | nil => simp [Effect.toBinding, SortedMap.ofList]
  | append_singleton rest write ih =>
      obtain ⟨location, value⟩ := write
      rw [Effect.get?_toBinding_concat, List.filterMap_append, List.foldl_append]
      cases location with
      | sym target =>
          refine (get?_live_update target (evaluate value) (managed target) symbol).trans ?_
          rw [ih]
          simp only [Location.sym.injEq]
          split <;> rfl
      | mem ptr size => simpa [Location.asSymbol?] using ih
      | port p size => simpa [Location.asSymbol?] using ih

theorem mem_pending_update {symbol : Symbol} {value : Expr} {isManaged : Bool} {other : Symbol} :
    other ∈ (state.update symbol value isManaged).pending ↔
      other ∈ state.pending ∨ other = symbol ∧ isManaged = false := by
  cases isManaged <;> simp [update, OrderedSet.mem_add]

theorem Bound.update (h : state.Bound) (symbol : Symbol) (value : Expr) (isManaged : Bool) :
    (state.update symbol value isManaged).Bound := by
  intro other hother
  rw [get?_live_update]
  split
  · exact ⟨value, rfl⟩
  · rename_i hne
    rcases mem_pending_update.mp hother with hpending | ⟨rfl, _⟩
    · exact h other hpending
    · exact absurd rfl hne

theorem wellFormed_update (hstate : state.WellFormed) {symbol : Symbol} {value : Expr}
    (isManaged : Bool) (hprocessor : symbol.onProcessor)
    (hunnamed : ∀ read, value.references read → read.isNamed = false) :
    (state.update symbol value isManaged).WellFormed where
  nodup := by
    cases isManaged with
    | false => exact OrderedSet.nodup_add hstate.nodup symbol
    | true => exact hstate.nodup
  bound := Bound.update hstate.bound symbol value isManaged
  processor other bound hbound := by
    rw [get?_live_update] at hbound
    split at hbound
    · rename_i hsame
      exact hsame ▸ hprocessor
    · exact hstate.processor other bound hbound
  unnamed other bound hbound := by
    rw [get?_live_update] at hbound
    split at hbound
    · cases hbound
      exact hunnamed
    · exact hstate.unnamed other bound hbound

theorem Framed.update {managed : Symbol → Bool} (h : state.Framed managed) {symbol : Symbol}
    {value : Expr} (hprocessor : symbol.onProcessor)
    (hunnamed : ∀ read, value.references read → read.isNamed = false) :
    (state.update symbol value (managed symbol)).Framed managed where
  toWellFormed := wellFormed_update h.toWellFormed _ hprocessor hunnamed
  pending_iff other bound hbound := by
    rw [get?_live_update] at hbound
    rw [mem_pending_update]
    split at hbound
    · rename_i hsame
      subst hsame
      constructor
      · rintro (hpending | ⟨_, hmanaged⟩)
        · exact h.unmanaged_of_pending hpending
        · exact hmanaged
      · exact fun hmanaged => Or.inr ⟨rfl, hmanaged⟩
    · rename_i hne
      rw [h.pending_iff other bound hbound]
      exact or_iff_left fun hsame => hne hsame.1.symm

end BlockState

namespace Tracks

variable {world : World} {managed : Symbol → Bool} {state : BlockState} {c : CState}
  {machine : MachineState}

theorem update (h : Tracks world managed state c machine) {symbol : Symbol} {value : Expr}
    {word : Word} (hbind : Bindable world managed c symbol value word) :
    Tracks world managed (state.update symbol value (managed symbol)) c
      { machine with symbol := Function.update machine.symbol symbol word } where
  current other hnamed := by
    have hlive := @BlockState.get?_live_update state symbol value (managed symbol) other
    by_cases hsame : symbol = other
    · subst hsame
      rw [if_pos rfl] at hlive
      rw [Valuation.bind_symbol_of_some hlive, hbind.word]
      exact (Function.update_self symbol word machine.symbol).symm
    · rw [if_neg hsame] at hlive
      calc
        ((c.valuation world).bind (state.update symbol value (managed symbol)).live).symbol other
            = ((c.valuation world).bind state.live).symbol other := by
          simp only [Valuation.bind, hlive]
        _ = machine.symbol other := h.current other hnamed
        _ = Function.update machine.symbol symbol word other :=
          (Function.update_of_ne (Ne.symm hsame) word machine.symbol).symm
  bits := h.bits
  wellFormed := BlockState.wellFormed_update h.wellFormed _ hbind.processor hbind.unnamed
  form other bound hbound := by
    rw [BlockState.get?_live_update] at hbound
    split at hbound
    · rename_i hsame
      cases hbound
      exact hsame ▸ hbind.form
    · exact h.form other bound hbound
  pending_iff := (h.framed.update hbind.processor hbind.unnamed).pending_iff
  steady other bound hbound := by
    rw [BlockState.get?_live_update] at hbound
    split at hbound
    · rename_i hsame
      cases hbound
      exact hsame ▸ hbind.steady
    · exact h.steady other bound hbound

/-- Taking over all writes to symbols of an effect. The values have been
evaluated beforehand; the C state is the one after the stores. -/
theorem takeAll {before : MachineState} {evaluate : Expr → Expr} {effect : Effect}
    (hbind : ∀ symbol value, (Location.sym symbol, value) ∈ effect →
      Bindable world managed c symbol (evaluate value) (value.eval (before.valuation world)))
    (h : Tracks world managed state c machine) :
    Tracks world managed
      ((effect.filterMap fun write => write.1.asSymbol?.map fun symbol =>
        (symbol, evaluate write.2)).foldl
          (fun state entry => state.update entry.1 entry.2 (managed entry.1)) state)
      c (effect.foldl (MachineState.write world before) machine) := by
  induction effect generalizing state machine with
  | nil => exact h
  | cons write rest ih =>
      obtain ⟨location, value⟩ := write
      have hrest := fun symbol value hmem => hbind symbol value (List.mem_cons_of_mem _ hmem)
      cases location with
      | sym symbol => exact ih hrest (h.update (hbind symbol value List.mem_cons_self))
      | mem ptr size => exact ih hrest (h.congr rfl)
      | port p size => exact ih hrest h

end Tracks

end Uncompile
