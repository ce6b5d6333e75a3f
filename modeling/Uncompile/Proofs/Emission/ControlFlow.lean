import Uncompile.Proofs.Emission.Segments

/-!
# The control flow of a body

The body of a function is read as a program: gotos lead to the statements after
their labels, returns end it, and what the other statements do is left open. Read
so, leaving the segment of a block leads to where the block goes in the flow
graph, whether it falls through, jumps over other segments or branches.
-/

namespace Uncompile

/-! ## Bodies as segments with labels -/

/-- The statements of a block, with its address. -/
abbrev BlockStmts := Address × List Stmt

namespace EmissionContext

/-- What each block adds to the body when blocks are emitted in order. -/
def segments (context : EmissionContext) (deps : Dependencies) :
    List Address → Emission → List BlockStmts
  | [], _ => []
  | address :: rest, emission =>
    match context.scope.block? address with
    | none => []
    | some block =>
      let longer := context.emitBlock deps block rest.head? emission
      (address, longer.body.drop emission.body.length) :: context.segments deps rest longer

/-- The label in front of a segment, if it has one. -/
def heading (context : EmissionContext) (labelled : Address → Bool) (address : Address) :
    List Stmt :=
  if labelled address then [.label (context.labelFor address)] else []

/-- The segments one after the other, each behind its label. -/
def layout (context : EmissionContext) (labelled : Address → Bool) (segments : List BlockStmts) :
    List Stmt :=
  segments.flatMap fun segment => context.heading labelled segment.1 ++ segment.2

/-- Where segments start if the first one starts at a position. -/
def starts (position : Nat) : List BlockStmts → List (Address × Nat)
  | [] => []
  | (address, stmts) :: rest => (address, position) :: starts (position + stmts.length) rest

variable {context : EmissionContext} {labelled : Address → Bool}

/-- Inserting labels at the starts, the last one first, gives the layout, also
where starts coincide. -/
theorem foldr_insertLabel (before : List Stmt) (segments : List BlockStmts) :
    ((starts before.length segments).filter fun start => labelled start.1).foldr
        (fun start body => insertLabel body start.2 (context.labelFor start.1))
        (before ++ segments.flatMap Prod.snd) =
      before ++ context.layout labelled segments := by
  induction segments generalizing before with
  | nil => rfl
  | cons segment rest ih =>
      obtain ⟨address, stmts⟩ := segment
      have hrest := ih (before ++ stmts)
      rw [List.length_append, List.append_assoc, List.append_assoc] at hrest
      rw [starts, List.filter_cons, List.flatMap_cons, layout, List.flatMap_cons, heading]
      split
      · rw [List.foldr_cons, hrest, insertLabel, List.take_left, List.drop_left]
        rfl
      · rw [hrest]
        rfl

/-- A function whose blocks have labels of their own, end in one of the known ways
and stay among themselves. -/
structure FlowGraph (context : EmissionContext) (blocks : List Address) : Prop where
  labels : (blocks.map context.labelFor).Nodup
  flows : ∀ address ∈ blocks, ∃ block flow, context.scope.block? address = some block ∧
    block.address = address ∧ block.Flows context.scope flow
  closed : ∀ address ∈ blocks, ∀ block, context.scope.block? address = some block →
    ∀ next ∈ block.successors, next ∈ blocks

/-- The segments are those of the blocks, in the shape that their ends ask for, and
what they jump to is marked. -/
structure Laid (context : EmissionContext) (blocks : List Address) (segments : List BlockStmts)
    (marked : List Address) : Prop where
  addresses : segments.map Prod.fst = blocks
  shape : ∀ before address stmts after, segments = before ++ (address, stmts) :: after →
    ∀ block flow, context.scope.block? address = some block → block.Flows context.scope flow →
      context.Shape (after.head?.map Prod.fst) flow stmts ∧
        ∀ target ∈ flow.gotos (after.head?.map Prod.fst), target ∈ marked

/-- Emitting blocks that end in known ways succeeds and adds their segments. -/
theorem emitBlocks_laid (deps : Dependencies) {blocks : List Address}
    (hflows : ∀ address ∈ blocks, ∃ block flow, context.scope.block? address = some block ∧
      block.address = address ∧ block.Flows context.scope flow) (emission : Emission) :
    ∃ emission', context.emitBlocks deps blocks emission = .ok emission' ∧
      emission'.body =
        emission.body ++ (context.segments deps blocks emission).flatMap Prod.snd ∧
      emission'.blockStarts = emission.blockStarts ++
        starts emission.body.length (context.segments deps blocks emission) ∧
      (∀ address ∈ emission.gotoTargets, address ∈ emission'.gotoTargets) ∧
      context.Laid blocks (context.segments deps blocks emission) emission'.gotoTargets := by
  induction blocks generalizing emission with
  | nil =>
      refine ⟨emission, rfl, (List.append_nil _).symm, (List.append_nil _).symm, fun _ h => h,
        rfl, fun before address stmts after hsplit => ?_⟩
      exact absurd hsplit.symm (List.append_ne_nil_of_right_ne_nil _ (List.cons_ne_nil _ _))
  | cons address rest ih =>
      obtain ⟨⟨block, flow, hblock, haddress, hflow⟩, hrest⟩ := List.forall_mem_cons.mp hflows
      obtain ⟨stmts, _, hgrows⟩ := context.emitBlock_grows deps rest.head? emission hflow
      obtain ⟨emission', hemit, hbody, hstarts, hmarked, hlaid⟩ :=
        ih hrest (context.emitBlock deps block rest.head? emission)
      have hsegments : context.segments deps (address :: rest) emission = (address, stmts) ::
          context.segments deps rest (context.emitBlock deps block rest.head? emission) := by
        simp only [segments, hblock, hgrows.body]
        exact congrArg (fun added => (address, added) :: _) List.drop_left
      rw [emitBlocks, hblock, hsegments]
      refine ⟨emission', hemit, ?_, ?_, ?_, ?_, ?_⟩
      · rw [hbody, hgrows.body, List.append_assoc]
        rfl
      · rw [hstarts, hgrows.blockStarts, hgrows.body, List.length_append, starts, ← haddress]
        exact List.append_assoc _ _ _
      · intro target htarget
        exact hmarked target ((hgrows.gotoTargets target).mpr (Or.inl htarget))
      · exact congrArg (address :: ·) hlaid.addresses
      · intro before address' stmts' after hsplit block' flow' hblock' hflow'
        rcases List.cons_eq_append_iff.mp hsplit with ⟨rfl, hhere⟩ | ⟨before', rfl, hlater⟩
        · -- the segment of the first block
          obtain ⟨⟨rfl, rfl⟩, rfl⟩ := by simpa using hhere
          obtain rfl := Option.some.inj (hblock.symm.trans hblock')
          obtain ⟨added, hshape, hgrows'⟩ :=
            context.emitBlock_grows deps rest.head? emission hflow'
          obtain rfl : _ = added := List.append_cancel_left (hgrows.body.symm.trans hgrows'.body)
          rw [← List.head?_map, hlaid.addresses]
          exact ⟨hshape, fun target htarget =>
            hmarked target ((hgrows'.gotoTargets target).mpr (Or.inr htarget))⟩
        · exact hlaid.shape before' address' stmts' after hlater block' flow' hblock' hflow'

end EmissionContext

/-! ## Bodies as programs -/

/-- What a program leaves open: how statements without a transfer change the
state, and what conditions evaluate to and do to it. -/
structure Interpretation (σ : Type) where
  run : Stmt → σ → σ
  test : CExpr → σ → Word × σ

namespace Stmt

def isLabel (name : String) : Stmt → Bool
  | label other => other = name
  | _ => false

/-- The labels that a statement can jump to. -/
def gotoLabels : Stmt → List String
  | goto name => [name]
  | ifThen _ inner => inner.gotoLabels
  | _ => []

/-- The statements after a label. -/
def after? (name : String) : List Stmt → Option (List Stmt)
  | [] => none
  | stmt :: rest => if stmt.isLabel name then some rest else after? name rest

theorem after?_append {name : String} {first : List Stmt}
    (hfirst : ∀ stmt ∈ first, stmt.isLabel name = false) (second : List Stmt) :
    after? name (first ++ second) = after? name second := by
  induction first with
  | nil => rfl
  | cons stmt rest ih =>
      obtain ⟨hstmt, hrest⟩ := List.forall_mem_cons.mp hfirst
      rw [List.cons_append, after?, hstmt]
      exact ih hrest

theorem isLabel_of_isStraight {stmt : Stmt} (hstmt : stmt.isStraight) (name : String) :
    stmt.isLabel name = false := by
  cases stmt <;> first | rfl | exact absurd hstmt Bool.false_ne_true

theorem gotoLabels_of_isStraight {stmt : Stmt} (hstmt : stmt.isStraight) :
    stmt.gotoLabels = [] := by
  cases stmt <;> first | rfl | exact absurd hstmt Bool.false_ne_true

end Stmt

/-- A place of a program: in front of the statements that are left, or returned. -/
inductive Place (σ : Type) where
  | before (rest : List Stmt) (state : σ)
  | returned (value : Option CExpr) (state : σ)

namespace Interpretation

variable {σ : Type} (I : Interpretation σ) (body : List Stmt)

/-- Executes the first statement that is left. There is no step at the end of the
body, nor to a label that it does not have. -/
def step : List Stmt → σ → Option (Place σ)
  | [], _ => none
  | .label _ :: rest, state => some (.before rest state)
  | .goto name :: _, state => (Stmt.after? name body).map fun rest => .before rest state
  | .ifThen cond inner :: rest, state =>
    let (value, after) := I.test cond state
    some (.before (if value = 0 then rest else inner :: rest) after)
  | .ret value :: _, state => some (.returned value state)
  | stmt :: rest, state => some (.before rest (I.run stmt state))

/-- A place is reached from another by steps. -/
inductive Leads : Place σ → Place σ → Prop
  | refl (place : Place σ) : Leads place place
  | step {rest : List Stmt} {state : σ} {next last : Place σ}
      (hstep : I.step body rest state = some next) (hleads : Leads next last) :
      Leads (.before rest state) last

/-- What straight statements do one after the other. -/
def runAll (stmts : List Stmt) (state : σ) : σ :=
  stmts.foldl (fun state stmt => I.run stmt state) state

variable {I body}

theorem Leads.trans {first second third : Place σ} (h : I.Leads body first second)
    (h' : I.Leads body second third) : I.Leads body first third := by
  induction h with
  | refl => exact h'
  | step hstep _ ih => exact .step hstep (ih h')

/-- Straight statements are passed one after the other. -/
theorem leads_straight {straight : List Stmt} (hstraight : ∀ stmt ∈ straight, stmt.isStraight)
    (rest : List Stmt) (state : σ) :
    I.Leads body (.before (straight ++ rest) state) (.before rest (I.runAll straight state)) := by
  induction straight generalizing state with
  | nil => exact .refl _
  | cons stmt later ih =>
      obtain ⟨hstmt, hlater⟩ := List.forall_mem_cons.mp hstraight
      have hstep : I.step body (stmt :: (later ++ rest)) state =
          some (.before (later ++ rest) (I.run stmt state)) := by
        cases stmt <;> first | rfl | exact absurd hstmt Bool.false_ne_true
      exact .step hstep (ih hlater _)

end Interpretation

/-! ## Leaving segments -/

namespace EmissionContext

variable {context : EmissionContext} {blocks : List Address} {segments : List BlockStmts}
  {marked : List Address} {labelled : Address → Bool}

/-- The statements that are left when the segment of a block is entered. -/
def Enters (context : EmissionContext) (labelled : Address → Bool) (segments : List BlockStmts)
    (address : Address) (rest : List Stmt) : Prop :=
  ∃ before stmts after, segments = before ++ (address, stmts) :: after ∧
    rest = stmts ++ context.layout labelled after

theorem layout_append (before after : List BlockStmts) (address : Address) (stmts : List Stmt) :
    context.layout labelled (before ++ (address, stmts) :: after) =
      context.layout labelled before ++
        (context.heading labelled address ++ (stmts ++ context.layout labelled after)) := by
  rw [layout, List.flatMap_append, List.flatMap_cons, List.append_assoc]
  rfl

theorem Laid.exists_split (hlaid : context.Laid blocks segments marked) {address : Address}
    (haddress : address ∈ blocks) :
    ∃ before stmts after, segments = before ++ (address, stmts) :: after := by
  rw [← hlaid.addresses] at haddress
  obtain ⟨⟨_, stmts⟩, hsegment, rfl⟩ := List.mem_map.mp haddress
  obtain ⟨before, after, hsplit⟩ := List.append_of_mem hsegment
  exact ⟨before, stmts, after, hsplit⟩

theorem Shape.isLabel {next : Option Address} {flow : Flow} {stmts : List Stmt}
    (h : context.Shape next flow stmts) (name : String) :
    ∀ stmt ∈ stmts, stmt.isLabel name = false := by
  have honward : ∀ address, ∀ stmt ∈ context.onward next address, stmt.isLabel name = false := by
    intro address stmt hstmt
    rw [onward] at hstmt
    split at hstmt
    · exact absurd hstmt List.not_mem_nil
    · rw [List.mem_singleton.mp hstmt]
      rfl
  cases h with
  | branch hstraight cond taken otherwise =>
      refine List.forall_mem_append.mpr ⟨fun stmt h => ?_, List.forall_mem_cons.mpr ⟨rfl, ?_⟩⟩
      · exact Stmt.isLabel_of_isStraight (hstraight stmt h) name
      · exact honward otherwise
  | through hstraight address =>
      refine List.forall_mem_append.mpr ⟨fun stmt h => ?_, honward address⟩
      exact Stmt.isLabel_of_isStraight (hstraight stmt h) name
  | ret hstraight value =>
      refine List.forall_mem_append.mpr ⟨fun stmt h => ?_, List.forall_mem_singleton.mpr rfl⟩
      exact Stmt.isLabel_of_isStraight (hstraight stmt h) name

/-- Segments of other blocks do not have a block's label. -/
theorem isLabel_layout {name : String}
    (hnames : ∀ segment ∈ segments, context.labelFor segment.1 ≠ name)
    (hfree : ∀ segment ∈ segments, ∀ stmt ∈ segment.2, stmt.isLabel name = false) :
    ∀ stmt ∈ context.layout labelled segments, stmt.isLabel name = false := by
  intro stmt hstmt
  obtain ⟨segment, hsegment, hmem⟩ := List.mem_flatMap.mp hstmt
  rcases List.mem_append.mp hmem with hheading | hbody
  · rw [heading] at hheading
    split at hheading
    · rw [List.mem_singleton.mp hheading]
      exact decide_eq_false (hnames segment hsegment)
    · exact absurd hheading List.not_mem_nil
  · exact hfree segment hsegment stmt hbody

section

variable (hgraph : context.FlowGraph blocks) (hlaid : context.Laid blocks segments marked)

include hgraph hlaid

theorem isLabel_segments (name : String) :
    ∀ segment ∈ segments, ∀ stmt ∈ segment.2, stmt.isLabel name = false := by
  rintro ⟨address, stmts⟩ hsegment
  obtain ⟨before, after, hsplit⟩ := List.append_of_mem hsegment
  have haddress : address ∈ blocks := by
    rw [← hlaid.addresses]
    exact List.mem_map_of_mem hsegment
  obtain ⟨block, flow, hblock, _, hflow⟩ := hgraph.flows address haddress
  exact (hlaid.shape before address stmts after hsplit block flow hblock hflow).1.isLabel name

variable {before after : List BlockStmts} {address : Address} {stmts : List Stmt}
  (hsplit : segments = before ++ (address, stmts) :: after)

include hsplit

/-- A block's label stands nowhere in the layout of the segments around its own. -/
theorem isLabel_around (labelled : Address → Bool) :
    (∀ stmt ∈ context.layout labelled before,
        stmt.isLabel (context.labelFor address) = false) ∧
      ∀ stmt ∈ stmts ++ context.layout labelled after,
        stmt.isLabel (context.labelFor address) = false := by
  have hfree := isLabel_segments hgraph hlaid (context.labelFor address)
  have hlabels := hgraph.labels
  rw [← hlaid.addresses, hsplit, List.map_append, List.map_append, List.nodup_append] at hlabels
  obtain ⟨_, hafter, hbefore⟩ := hlabels
  rw [hsplit, List.forall_mem_append, List.forall_mem_cons] at hfree
  have hnamesBefore :
      ∀ segment ∈ before, context.labelFor segment.1 ≠ context.labelFor address := by
    intro segment hsegment
    exact hbefore _ (List.mem_map_of_mem (List.mem_map_of_mem hsegment)) _ List.mem_cons_self
  have hnamesAfter : ∀ segment ∈ after, context.labelFor segment.1 ≠ context.labelFor address := by
    intro segment hsegment hsame
    exact (List.nodup_cons.mp hafter).1
      (hsame ▸ List.mem_map_of_mem (List.mem_map_of_mem hsegment))
  exact ⟨isLabel_layout hnamesBefore hfree.1, List.forall_mem_append.mpr
    ⟨hfree.2.1, isLabel_layout hnamesAfter hfree.2.2⟩⟩

/-- A goto to a labelled block leads to its segment. -/
theorem after?_layout (haddress : labelled address) :
    Stmt.after? (context.labelFor address) (context.layout labelled segments) =
      some (stmts ++ context.layout labelled after) := by
  obtain ⟨hbefore, _⟩ := isLabel_around hgraph hlaid hsplit labelled
  rw [hsplit, layout_append, Stmt.after?_append hbefore, heading, if_pos haddress]
  simp [Stmt.after?, Stmt.isLabel]

/-- The label of a labelled block stands once, in front of its segment. -/
theorem countP_layout (haddress : labelled address) :
    (context.layout labelled segments).countP (Stmt.isLabel (context.labelFor address)) = 1 := by
  obtain ⟨hbefore, hafter⟩ := isLabel_around hgraph hlaid hsplit labelled
  have hnone : ∀ {stmts : List Stmt},
      (∀ stmt ∈ stmts, stmt.isLabel (context.labelFor address) = false) →
      stmts.countP (Stmt.isLabel (context.labelFor address)) = 0 := by
    intro stmts hstmts
    apply List.countP_eq_zero.mpr
    intro stmt hstmt
    rw [hstmts stmt hstmt]
    exact Bool.false_ne_true
  rw [hsplit, layout_append, List.countP_append, List.countP_append, hnone hbefore, hnone hafter,
    heading, if_pos haddress]
  simp [Stmt.isLabel]

variable {σ : Type} (I : Interpretation σ)

omit hsplit in
/-- A goto leads to the segment of its block. -/
theorem leads_goto {target : Address} (htarget : target ∈ blocks) (hlabelled : labelled target)
    (rest : List Stmt) (state : σ) :
    ∃ entered, context.Enters labelled segments target entered ∧
      I.Leads (context.layout labelled segments)
        (.before (.goto (context.labelFor target) :: rest) state) (.before entered state) := by
  obtain ⟨before, stmts, after, hsplit⟩ := hlaid.exists_split htarget
  refine ⟨_, ⟨before, stmts, after, hsplit, rfl⟩, .step ?_ (.refl _)⟩
  rw [Interpretation.step, after?_layout hgraph hlaid hsplit hlabelled]
  rfl

/-- Going on to a block, by falling through or by a goto, leads to its segment. -/
theorem leads_onward {target : Address} (htarget : target ∈ blocks)
    (hlabelled : some target ≠ after.head?.map Prod.fst → labelled target) (state : σ) :
    ∃ entered, context.Enters labelled segments target entered ∧
      I.Leads (context.layout labelled segments)
        (.before (context.onward (after.head?.map Prod.fst) target ++
          context.layout labelled after) state) (.before entered state) := by
  rw [onward]
  split
  · rename_i hnext
    obtain ⟨⟨next, stmts'⟩, hhead, hsame⟩ := Option.map_eq_some_iff.mp hnext.symm
    obtain rfl : next = target := hsame
    obtain ⟨after', rfl⟩ := List.head?_eq_some_iff.mp hhead
    refine ⟨_, ⟨before ++ [(address, stmts)], stmts', after', ?_, rfl⟩, ?_⟩
    · rw [hsplit, List.append_assoc]
      rfl
    · -- a label in front of the next segment is passed
      rw [List.nil_append, show context.layout labelled ((next, stmts') :: after') =
        context.heading labelled next ++ (stmts' ++ context.layout labelled after') from
          layout_append [] after' next stmts', heading]
      split
      · exact .step rfl (.refl _)
      · exact .refl _
  · rename_i hnext
    exact leads_goto hgraph hlaid I htarget (hlabelled hnext) _ state

/-- A branch leads to the segment that the value of its condition selects. -/
theorem leads_branch {taken otherwise : Address} (htaken : taken ∈ blocks)
    (hotherwise : otherwise ∈ blocks) (hlabel : labelled taken)
    (hlabelled : some otherwise ≠ after.head?.map Prod.fst → labelled otherwise)
    {cond : CExpr} {value : Word} {state state' : σ} (htest : I.test cond state = (value, state')) :
    ∃ entered, context.Enters labelled segments (if value = 0 then otherwise else taken) entered ∧
      I.Leads (context.layout labelled segments)
        (.before (.ifGoto cond (context.labelFor taken) ::
          (context.onward (after.head?.map Prod.fst) otherwise ++
            context.layout labelled after)) state) (.before entered state') := by
  by_cases hvalue : value = 0
  · obtain ⟨entered, henters, hleads⟩ :=
      leads_onward hgraph hlaid hsplit I hotherwise hlabelled state'
    rw [if_pos hvalue]
    refine ⟨entered, henters, .step ?_ hleads⟩
    simp only [Stmt.ifGoto, Interpretation.step, htest, if_pos hvalue]
  · obtain ⟨entered, henters, hleads⟩ := leads_goto hgraph hlaid I htaken hlabel
      (context.onward (after.head?.map Prod.fst) otherwise ++ context.layout labelled after) state'
    rw [if_neg hvalue]
    refine ⟨entered, henters, .step ?_ hleads⟩
    simp only [Stmt.ifGoto, Interpretation.step, htest, if_neg hvalue]

end

/-- How a segment, with the given statements after it, is left by where its block
goes. A branch goes by the value of its condition after the straight statements
before it. -/
def Leaves (context : EmissionContext) (labelled : Address → Bool) (segments : List BlockStmts)
    {σ : Type} (I : Interpretation σ) (stmts rest : List Stmt) (state : σ) : Flow → Prop
  | .branch taken otherwise => ∃ straight cond tail,
      stmts = straight ++ .ifGoto cond (context.labelFor taken) :: tail ∧
      (∀ stmt ∈ straight, stmt.isStraight) ∧
      ∃ value state' entered, I.test cond (I.runAll straight state) = (value, state') ∧
        context.Enters labelled segments (if value = 0 then otherwise else taken) entered ∧
        I.Leads (context.layout labelled segments) (.before (stmts ++ rest) state)
          (.before entered state')
  | .through next => ∃ straight tail, stmts = straight ++ tail ∧
      (∀ stmt ∈ straight, stmt.isStraight) ∧
      ∃ entered, context.Enters labelled segments next entered ∧
        I.Leads (context.layout labelled segments) (.before (stmts ++ rest) state)
          (.before entered (I.runAll straight state))
  | .ret => ∃ straight value, stmts = straight ++ [.ret value] ∧
      (∀ stmt ∈ straight, stmt.isStraight) ∧
      I.Leads (context.layout labelled segments) (.before (stmts ++ rest) state)
        (.returned value (I.runAll straight state))

/-- A segment whose shape fits the flow is left accordingly. -/
theorem Shape.leaves (hgraph : context.FlowGraph blocks)
    (hlaid : context.Laid blocks segments marked) {before after : List BlockStmts}
    {address : Address} {stmts : List Stmt}
    (hsplit : segments = before ++ (address, stmts) :: after) {flow : Flow}
    (hshape : context.Shape (after.head?.map Prod.fst) flow stmts)
    (htargets : ∀ target ∈ flow.targets, target ∈ blocks)
    (hlabelled : ∀ target ∈ flow.gotos (after.head?.map Prod.fst), labelled target)
    {σ : Type} (I : Interpretation σ) (state : σ) :
    context.Leaves labelled segments I stmts (context.layout labelled after) state flow := by
  cases hshape with
  | @branch straight hstraight cond taken otherwise =>
      obtain ⟨htaken, hotherwise⟩ := List.forall_mem_cons.mp htargets
      obtain ⟨hlabel, hother⟩ := List.forall_mem_cons.mp hlabelled
      have hother' : some otherwise ≠ after.head?.map Prod.fst → labelled otherwise := by
        intro hnext
        rw [if_neg hnext] at hother
        exact hother otherwise List.mem_cons_self
      obtain ⟨entered, henters, hleads⟩ := leads_branch hgraph hlaid hsplit I htaken
        (hotherwise otherwise List.mem_cons_self) hlabel hother'
        (Prod.mk.eta (p := I.test cond (I.runAll straight state))).symm
      refine ⟨straight, cond, _, rfl, hstraight, _, _, entered, Prod.mk.eta.symm, henters, ?_⟩
      rw [List.append_assoc]
      exact (Interpretation.leads_straight hstraight _ state).trans hleads
  | @through straight hstraight target =>
      obtain ⟨entered, henters, hleads⟩ := leads_onward hgraph hlaid hsplit I
        (htargets target List.mem_cons_self)
        (fun hnext => hlabelled target (by rw [Flow.gotos, if_neg hnext]; exact List.mem_cons_self))
        (I.runAll straight state)
      refine ⟨straight, _, rfl, hstraight, entered, henters, ?_⟩
      rw [List.append_assoc]
      exact (Interpretation.leads_straight hstraight _ state).trans hleads
  | @ret straight hstraight value =>
      refine ⟨straight, value, rfl, hstraight, ?_⟩
      rw [List.append_assoc]
      exact (Interpretation.leads_straight hstraight _ state).trans (.step rfl (.refl _))

/-- The statements of a block jump only where its end asks for it. -/
theorem Shape.exists_goto {next : Option Address} {flow : Flow} {stmts : List Stmt}
    (h : context.Shape next flow stmts) {stmt : Stmt} (hstmt : stmt ∈ stmts) {name : String}
    (hname : name ∈ stmt.gotoLabels) :
    ∃ target ∈ flow.gotos next, context.labelFor target = name := by
  have honward : ∀ address, stmt ∈ context.onward next address →
      some address ≠ next ∧ context.labelFor address = name := by
    intro address hmem
    rw [onward] at hmem
    split at hmem
    · exact absurd hmem List.not_mem_nil
    · rw [List.mem_singleton.mp hmem] at hname
      exact ⟨‹_›, (List.mem_singleton.mp hname).symm⟩
  have hstraight : ¬ stmt.isStraight := by
    intro hstraight
    rw [Stmt.gotoLabels_of_isStraight hstraight] at hname
    exact List.not_mem_nil hname
  cases h with
  | branch hall cond taken otherwise =>
      rcases List.mem_append.mp hstmt with hmem | hmem
      · exact absurd (hall stmt hmem) hstraight
      · rcases List.mem_cons.mp hmem with rfl | hmem
        · exact ⟨taken, List.mem_cons_self, (List.mem_singleton.mp hname).symm⟩
        · obtain ⟨hnext, hlabel⟩ := honward otherwise hmem
          refine ⟨otherwise, ?_, hlabel⟩
          rw [Flow.gotos, if_neg hnext]
          exact List.mem_cons_of_mem _ List.mem_cons_self
  | through hall address =>
      rcases List.mem_append.mp hstmt with hmem | hmem
      · exact absurd (hall stmt hmem) hstraight
      · obtain ⟨hnext, hlabel⟩ := honward address hmem
        refine ⟨address, ?_, hlabel⟩
        rw [Flow.gotos, if_neg hnext]
        exact List.mem_cons_self
  | ret hall value =>
      rcases List.mem_append.mp hstmt with hmem | hmem
      · exact absurd (hall stmt hmem) hstraight
      · rw [List.mem_singleton.mp hmem] at hname
        exact absurd hname List.not_mem_nil

/-- The gotos of a laid out body lead to marked blocks. -/
theorem Laid.exists_goto (hgraph : context.FlowGraph blocks)
    (hlaid : context.Laid blocks segments marked) {stmt : Stmt}
    (hstmt : stmt ∈ context.layout labelled segments) {name : String}
    (hname : name ∈ stmt.gotoLabels) :
    ∃ target ∈ blocks, target ∈ marked ∧ context.labelFor target = name := by
  obtain ⟨⟨address, stmts⟩, hsegment, hmem⟩ := List.mem_flatMap.mp hstmt
  obtain ⟨before, after, hsplit⟩ := List.append_of_mem hsegment
  have haddress : address ∈ blocks := by
    rw [← hlaid.addresses]
    exact List.mem_map_of_mem hsegment
  obtain ⟨block, flow, hblock, _, hflow⟩ := hgraph.flows address haddress
  obtain ⟨hshape, hmarked⟩ := hlaid.shape before address stmts after hsplit block flow hblock hflow
  rcases List.mem_append.mp hmem with hheading | hbody
  · rw [heading] at hheading
    split at hheading
    · rw [List.mem_singleton.mp hheading] at hname
      exact absurd hname List.not_mem_nil
    · exact absurd hheading List.not_mem_nil
  · obtain ⟨target, htarget, hlabel⟩ := hshape.exists_goto hbody hname
    have hblocks := hgraph.closed address haddress block hblock target
      (hflow.targets_subset (flow.gotos_subset _ htarget))
    exact ⟨target, hblocks, hmarked target htarget, hlabel⟩

/-- A function is emitted as the segments of its blocks, behind the labels of those
that are jumped to. -/
theorem emit_laid (deps : Dependencies) (declarations : DeclTable)
    (hgraph : context.FlowGraph blocks) :
    ∃ emission, context.emit deps declarations blocks = .ok emission ∧
      emission.body = context.layout (context.needsLabel emission)
        (context.segments deps blocks { declarations }) ∧
      context.Laid blocks (context.segments deps blocks { declarations }) emission.gotoTargets := by
  obtain ⟨emission, hemit, hbody, hstarts, _, hlaid⟩ :=
    emitBlocks_laid deps hgraph.flows { declarations }
  refine ⟨{ emission with body := context.placeLabels emission }, ?_, ?_, hlaid⟩
  · rw [emit, hemit]
    rfl
  · rw [placeLabels, hbody, hstarts]
    exact foldr_insertLabel [] _

/-- The body of a function has the control flow of its blocks: whatever the other
statements do, leaving the segment of a block leads to the segment where the block
goes, by the value of the emitted condition at a branch, or returns. Each label
that is jumped to stands once, directly in front of the segment of its block. -/
theorem emit_controlFlow (deps : Dependencies) (declarations : DeclTable)
    (hgraph : context.FlowGraph blocks) :
    ∃ emission segments, context.emit deps declarations blocks = .ok emission ∧
      segments = context.segments deps blocks { declarations } ∧
      segments.map Prod.fst = blocks ∧
      emission.body = context.layout (context.needsLabel emission) segments ∧
      (∀ before address stmts after, segments = before ++ (address, stmts) :: after →
        ∀ block flow, context.scope.block? address = some block → block.Flows context.scope flow →
        ∀ (σ : Type) (I : Interpretation σ) (state : σ),
          context.Leaves (context.needsLabel emission) segments I stmts
            (context.layout (context.needsLabel emission) after) state flow) ∧
      ∀ stmt ∈ emission.body, ∀ label ∈ stmt.gotoLabels,
        emission.body.countP (Stmt.isLabel label) = 1 ∧
        ∃ before address stmts after, segments = before ++ (address, stmts) :: after ∧
          context.labelFor address = label ∧
          emission.body = context.layout (context.needsLabel emission) before ++
            .label label :: (stmts ++ context.layout (context.needsLabel emission) after) := by
  obtain ⟨emission, hemit, hbody, hlaid⟩ := emit_laid deps declarations hgraph
  have hneeds : ∀ address ∈ emission.gotoTargets, context.needsLabel emission address := by
    intro address haddress
    rw [needsLabel, decide_eq_true haddress]
    rfl
  refine ⟨emission, _, hemit, rfl, hlaid.addresses, hbody, ?_, ?_⟩
  · intro before address stmts after hsplit block flow hblock hflow σ I state
    have haddress : address ∈ blocks := by
      rw [← hlaid.addresses, hsplit]
      exact List.mem_map_of_mem (List.mem_append_right _ List.mem_cons_self)
    obtain ⟨hshape, hmarked⟩ :=
      hlaid.shape before address stmts after hsplit block flow hblock hflow
    have htargets : ∀ target ∈ flow.targets, target ∈ blocks := fun target htarget =>
      hgraph.closed address haddress block hblock target (hflow.targets_subset htarget)
    exact hshape.leaves hgraph hlaid hsplit htargets
      (fun target htarget => hneeds target (hmarked target htarget)) I state
  · intro stmt hstmt label hlabel
    rw [hbody] at hstmt
    obtain ⟨target, htarget, hmarked, rfl⟩ := hlaid.exists_goto hgraph hstmt hlabel
    obtain ⟨before, stmts, after, hsplit⟩ := hlaid.exists_split htarget
    refine ⟨?_, before, target, stmts, after, hsplit, rfl, ?_⟩
    · rw [hbody]
      exact countP_layout hgraph hlaid hsplit (hneeds target hmarked)
    · rw [hbody, hsplit, layout_append, heading, if_pos (hneeds target hmarked)]
      rfl

end EmissionContext

/-! ## Labels at one place

The third block writes nothing that is used, so its segment is empty and its label
stands where the label of the last block does.
-/

namespace EmptySegment

def branching : Block :=
  { address := 16
    instructions := [.ofMnemonic 16 "dec" [.ofReg .ecx], .ofMnemonic 17 "jz" [.imm 48]]
    successors := [48, 32] }

def jumping : Block :=
  { address := 32, instructions := [.ofMnemonic 32 "jmp" [.imm 64]], successors := [64] }

def falling : Block :=
  { address := 48
    instructions := [.ofMnemonic 48 "mov" [.ofReg .ecx, .imm 0]]
    successors := [64] }

def returning : Block :=
  { address := 64, instructions := [.ofMnemonic 64 "ret" []], successors := [] }

def context : EmissionContext :=
  { scope :=
      { disassembly :=
          ([branching, jumping, falling, returning].foldl Program.insertBlock {}).disassembler,
        entry := 16, frameRegister := .ebp },
    config := {} }

def deps : Dependencies := { entry := 16, blocks := [] }

theorem flows_branching : branching.Flows context.scope (.branch 48 32) :=
  .branch (show _ = [_] ++ [_] from rfl)
    (List.forall_mem_singleton.mpr (by decide +kernel))
    (Or.inl ⟨.z, by decide +kernel⟩) rfl (by decide) (.refl _)

theorem flows_jumping : jumping.Flows context.scope (.through 64) :=
  .jump (show _ = [] ++ [_] from rfl) (List.forall_mem_nil _) (by decide +kernel) rfl rfl

theorem flows_falling : falling.Flows context.scope (.through 64) :=
  .ordinary (by decide +kernel) rfl

theorem flows_returning : returning.Flows context.scope .ret :=
  .ret (show _ = [] ++ [_] from rfl) (List.forall_mem_nil _) (by decide +kernel) rfl

theorem flowGraph : context.FlowGraph [16, 32, 48, 64] where
  labels := by decide +kernel
  flows := by
    simp only [List.forall_mem_cons]
    exact ⟨⟨branching, _, rfl, rfl, flows_branching⟩, ⟨jumping, _, rfl, rfl, flows_jumping⟩,
      ⟨falling, _, rfl, rfl, flows_falling⟩, ⟨returning, _, rfl, rfl, flows_returning⟩,
      List.forall_mem_nil _⟩
  closed := by
    simp only [List.forall_mem_cons]
    refine ⟨?_, ?_, ?_, ?_, List.forall_mem_nil _⟩ <;> rintro block ⟨⟩ <;> decide

/-- Counts the statements passed; every condition holds. -/
def always : Interpretation Nat := { run := fun _ n => n + 1, test := fun _ n => (1, n) }

/-- The branch of the first block leads to the empty segment, whose label stands
once although the next label stands at the same place. -/
theorem emit_controlFlow_taken :
    ∃ emission segments left entered, context.emit deps {} [16, 32, 48, 64] = .ok emission ∧
      segments = context.segments deps [16, 32, 48, 64] { declarations := {} } ∧
      context.Enters (context.needsLabel emission) segments 16 left ∧
      context.Enters (context.needsLabel emission) segments 48 entered ∧
      (∃ n, always.Leads emission.body (.before left 0) (.before entered n)) ∧
      emission.body.countP (Stmt.isLabel "loc_30") = 1 := by
  obtain ⟨emission, segments, hemit, hsegments, haddresses, hbody, hleaves, hlabels⟩ :=
    EmissionContext.emit_controlFlow deps {} flowGraph
  obtain ⟨⟨_, stmts⟩, after, hsplit, rfl, _⟩ := List.map_eq_cons_iff.mp haddresses
  obtain ⟨straight, cond, tail, hstmts, _, value, n, entered, htest, henters, hleads⟩ :=
    hleaves [] 16 stmts after hsplit branching _ rfl flows_branching Nat always 0
  obtain rfl : 1 = value := congrArg Prod.fst htest
  refine ⟨emission, segments, _, entered, hemit, hsegments, ⟨[], stmts, after, hsplit, rfl⟩,
    henters, ⟨n, ?_⟩, ?_⟩
  · rw [hbody]
    exact hleads
  · refine (hlabels (.ifGoto cond (context.labelFor 48)) ?_ "loc_30" ?_).1
    · rw [hbody, hsplit, hstmts]
      simp [EmissionContext.layout]
    · exact List.mem_singleton.mpr (by decide +kernel)

end EmptySegment

end Uncompile
