import Uncompile.Proofs.Emission.Callees

/-!
# What an instruction asks to have declared

Which declarations emission adds does not depend on what it has emitted. Every
instruction comes with a list of requests: a callee, an intrinsic or the structures of
a descriptor table. Emission meets the requests of all instructions in order.

A request is about one name, and if that name is taken nothing is declared. Names are
added at the end of the table only, and a declaration in the table stays what it is and
where it is. The exception is a structure with the name of a descriptor table: the
request for the structures is about the name of the descriptor alone, and the structure
of the table replaces what is there.
-/

namespace Uncompile

/-! ## Tables of declarations -/

namespace OrderedSet

variable {α : Type} [DecidableEq α]

theorem isPrefix_add (set : List α) (a : α) : set <+: add set a := by
  unfold add
  split
  · exact List.prefix_rfl
  · exact List.prefix_append _ _

theorem isPrefix_addAll (set members : List α) : set <+: addAll set members := by
  induction members generalizing set with
  | nil => exact List.prefix_rfl
  | cons a members ih => exact (isPrefix_add set a).trans (ih _)

end OrderedSet

namespace DeclTable

variable {table : DeclTable} {decl other : Declaration} {name : String} {index : Nat}

theorem contains_iff_mem_names : table.contains name ↔ name ∈ table.names := by
  rw [contains, get?, List.find?_isSome, names, List.mem_map]
  simp only [decide_eq_true_eq]

theorem name_mem_names (h : table.decls[index]? = some decl) : decl.name ∈ table.names :=
  List.mem_map_of_mem (List.mem_of_getElem? h)

theorem names_insert (table : DeclTable) (decl : Declaration) :
    (table.insert decl).names = OrderedSet.add table.names decl.name :=
  map_name_insertDecl decl table.decls

theorem declareOnce_of_mem (h : decl.name ∈ table.names) : table.declareOnce decl = table :=
  if_pos (contains_iff_mem_names.mpr h)

theorem declareOnce_of_notMem (h : decl.name ∉ table.names) :
    table.declareOnce decl = table.insert decl :=
  if_neg (fun hcontains => h (contains_iff_mem_names.mp hcontains))

theorem names_declareOnce (table : DeclTable) (decl : Declaration) :
    (table.declareOnce decl).names = OrderedSet.add table.names decl.name := by
  by_cases hmem : decl.name ∈ table.names
  · rw [declareOnce_of_mem hmem, OrderedSet.add, if_pos hmem]
  · rw [declareOnce_of_notMem hmem, names_insert]

/-- Inserting replaces the declaration of the same name where it stands. -/
theorem getElem?_insert (hother : table.decls[index]? = some other) (decl : Declaration) :
    (table.insert decl).decls[index]? = some (if other.name = decl.name then decl else other) := by
  obtain ⟨decls, hdistinct⟩ := table
  simp only [insert] at *
  induction decls generalizing index with
  | nil => simp at hother
  | cons first rest ih =>
      rw [List.map_cons, List.nodup_cons] at hdistinct
      rw [insertDecl]
      cases index with
      | zero =>
          obtain rfl : first = other := by simpa using hother
          split <;> simp
      | succ index =>
          rw [List.getElem?_cons_succ] at hother
          by_cases hfirst : first.name = decl.name
          · -- names do not repeat, so nothing further down is replaced
            have hne : other.name ≠ decl.name := by
              intro hname
              apply hdistinct.1
              rw [hfirst, ← hname]
              exact List.mem_map_of_mem (List.mem_of_getElem? hother)
            rw [if_pos hfirst, List.getElem?_cons_succ, hother, if_neg hne]
          · rw [if_neg hfirst, List.getElem?_cons_succ, ih hdistinct.2 hother]

theorem getElem?_declareOnce (hother : table.decls[index]? = some other) (decl : Declaration) :
    (table.declareOnce decl).decls[index]? = some other := by
  by_cases hmem : decl.name ∈ table.names
  · rw [declareOnce_of_mem hmem, hother]
  · have hne : other.name ≠ decl.name := by
      intro hname
      exact hmem (hname ▸ name_mem_names hother)
    rw [declareOnce_of_notMem hmem, getElem?_insert hother, if_neg hne]

end DeclTable

/-! ## Structures of descriptor tables -/

namespace DescriptorTable

/-- What the names of the structures begin with. -/
def stem : DescriptorTable → String
  | segments => "segment"
  | interrupts => "interrupt"

def fields : DescriptorTable → List (String × Nat)
  | segments => BlockContext.segmentFields
  | interrupts => BlockContext.interruptFields

/-- The intrinsic that loads the table. -/
def loader : DescriptorTable → String
  | segments => "intrinsic_lgdt"
  | interrupts => "intrinsic_lidt"

def descriptorName (table : DescriptorTable) : String := table.stem ++ "_descriptor"

def tableName (table : DescriptorTable) : String := table.stem ++ "_table"

/-- The structure of a descriptor. -/
def descriptor (table : DescriptorTable) : Declaration :=
  { name := table.descriptorName,
    kind := .struct (table.fields.map fun field => (field.1, .int field.2)) none }

/-- The structure of the table: its size and where its descriptors are. -/
def declaration (table : DescriptorTable) : Declaration :=
  { name := table.tableName,
    kind :=
      .struct [("size", .int 16), ("table", .pointer (.struct table.descriptorName))] (some 2) }

variable {table other : DescriptorTable}

theorem descriptorName_injective (h : table.descriptorName = other.descriptorName) :
    table = other := by
  revert h
  cases table <;> cases other <;> decide

theorem tableName_injective (h : table.tableName = other.tableName) : table = other := by
  revert h
  cases table <;> cases other <;> decide

theorem descriptorName_ne_tableName (table other : DescriptorTable) :
    table.descriptorName ≠ other.tableName := by
  cases table <;> cases other <;> decide

theorem not_intrinsicName_descriptorName (table : DescriptorTable) :
    ¬ IntrinsicName table.descriptorName := by
  intro hname
  have hprefix := hname.isPrefix
  revert hprefix
  cases table <;> decide

end DescriptorTable

/-- The intrinsic that loads a register of the system. -/
def SystemLoad.loader : SystemLoad → String
  | task => "intrinsic_ltr"
  | localTable => "intrinsic_lldt"

/-! ## Requests -/

/-- What an instruction may ask to have declared. -/
inductive DeclRequest where
  /-- A function of which nothing is known. -/
  | callee (name : String)
  | intrinsic (name : String) (ret : CType) (params : List CType)
  /-- The structures of a descriptor and of the table of them. -/
  | structures (table : DescriptorTable)

namespace DeclRequest

/-- The name that a request is about. -/
def subject : DeclRequest → String
  | callee name | intrinsic name _ _ => name
  | structures table => table.descriptorName

/-- The names that a request adds if the name that it is about is free. -/
def newNames : DeclRequest → List String
  | callee name | intrinsic name _ _ => [name]
  | structures table => [table.descriptorName, table.tableName]

/-- The declarations once a request is met. -/
def apply (declarations : DeclTable) : DeclRequest → DeclTable
  | callee name => declarations.declareOnce { name, kind := .function .unknown }
  | intrinsic name ret params => declarations.declareFunction name ret params
  | structures table => BlockContext.declareTable table.stem table.fields declarations

/-- The declarations once requests are met in order. -/
def applyAll (declarations : DeclTable) (requests : List DeclRequest) : DeclTable :=
  requests.foldl apply declarations

variable {declarations : DeclTable} {request : DeclRequest} {requests : List DeclRequest}
  {table : DescriptorTable} {decl : Declaration} {name : String} {index : Nat}

theorem applyAll_append (declarations : DeclTable) (requests more : List DeclRequest) :
    applyAll declarations (requests ++ more) = applyAll (applyAll declarations requests) more :=
  List.foldl_append

/-- If the name that a request is about is taken, nothing is declared. -/
theorem apply_of_mem (h : request.subject ∈ declarations.names) :
    apply declarations request = declarations := by
  cases request with
  | callee name => exact DeclTable.declareOnce_of_mem h
  | intrinsic name ret params => exact DeclTable.declareOnce_of_mem h
  | structures table => exact if_pos (DeclTable.contains_iff_mem_names.mpr h)

theorem apply_structures_of_notMem (h : table.descriptorName ∉ declarations.names) :
    apply declarations (structures table) =
      (declarations.insert table.descriptor).insert table.declaration :=
  if_neg (fun hcontains => h (DeclTable.contains_iff_mem_names.mp hcontains))

theorem names_apply_of_notMem (h : request.subject ∉ declarations.names) :
    (apply declarations request).names =
      OrderedSet.addAll declarations.names request.newNames := by
  cases request with
  | callee name => exact DeclTable.names_declareOnce _ _
  | intrinsic name ret params => exact DeclTable.names_declareOnce _ _
  | structures table =>
      rw [apply_structures_of_notMem h, DeclTable.names_insert, DeclTable.names_insert]
      rfl

theorem isPrefix_names_apply (declarations : DeclTable) (request : DeclRequest) :
    declarations.names <+: (apply declarations request).names := by
  by_cases hmem : request.subject ∈ declarations.names
  · simp [apply_of_mem hmem]
  · rw [names_apply_of_notMem hmem]
    exact OrderedSet.isPrefix_addAll _ _

theorem subject_mem_newNames (request : DeclRequest) : request.subject ∈ request.newNames := by
  cases request with
  | callee name | intrinsic name ret params | structures table => exact List.mem_cons_self

/-- Once a request is met, the name that it is about is taken. -/
theorem subject_mem_names_apply (declarations : DeclTable) (request : DeclRequest) :
    request.subject ∈ (apply declarations request).names := by
  by_cases hmem : request.subject ∈ declarations.names
  · rwa [apply_of_mem hmem]
  · rw [names_apply_of_notMem hmem, OrderedSet.mem_addAll]
    exact Or.inr request.subject_mem_newNames

/-- The name of a descriptor is taken by requests that are about it only. -/
theorem descriptorName_notMem_names_apply (h : table.descriptorName ∉ declarations.names)
    (hsubject : request.subject ≠ table.descriptorName) :
    table.descriptorName ∉ (apply declarations request).names := by
  have hnew : table.descriptorName ∉ request.newNames := by
    cases request with
    | callee name | intrinsic name ret params =>
        simpa [newNames, subject] using hsubject.symm
    | structures other =>
        simpa [newNames, subject, table.descriptorName_ne_tableName other] using hsubject.symm
  by_cases hmem : request.subject ∈ declarations.names
  · rwa [apply_of_mem hmem]
  · rw [names_apply_of_notMem hmem, OrderedSet.mem_addAll]
    exact not_or.mpr ⟨h, hnew⟩

/-- What a request for structures makes of a declaration. -/
theorem getElem?_apply_structures (hdecl : declarations.decls[index]? = some decl)
    (hdescriptor : table.descriptorName ∉ declarations.names) :
    (apply declarations (structures table)).decls[index]? =
      some (if decl.name = table.tableName then table.declaration else decl) := by
  have hne : decl.name ≠ table.descriptorName := by
    intro hname
    exact hdescriptor (hname ▸ DeclTable.name_mem_names hdecl)
  have hinserted : (declarations.insert table.descriptor).decls[index]? = some decl := by
    rw [DeclTable.getElem?_insert hdecl]
    exact congrArg some (if_neg hne)
  rw [apply_structures_of_notMem hdescriptor, DeclTable.getElem?_insert hinserted]
  rfl

/-- A request leaves a declaration alone, unless it puts in a descriptor table of that
name. -/
theorem getElem?_apply (hdecl : declarations.decls[index]? = some decl)
    (hkept : ∀ table, request = structures table →
      table.descriptorName ∈ declarations.names ∨ decl.name ≠ table.tableName) :
    (apply declarations request).decls[index]? = some decl := by
  cases request with
  | callee name => exact DeclTable.getElem?_declareOnce hdecl _
  | intrinsic name ret params => exact DeclTable.getElem?_declareOnce hdecl _
  | structures table =>
      by_cases hmem : table.descriptorName ∈ declarations.names
      · rw [apply_of_mem hmem, hdecl]
      · have hne := (hkept table rfl).resolve_left hmem
        rw [getElem?_apply_structures hdecl hmem, if_neg hne]

/-! ## Requests in order -/

theorem isPrefix_names_applyAll (declarations : DeclTable) (requests : List DeclRequest) :
    declarations.names <+: (applyAll declarations requests).names := by
  induction requests generalizing declarations with
  | nil => exact List.prefix_rfl
  | cons request rest ih => exact (isPrefix_names_apply declarations request).trans (ih _)

/-- The structures of a descriptor table are put in: the first request about the name of
the descriptor is the one for them. -/
def Introduces (requests : List DeclRequest) (table : DescriptorTable) : Prop :=
  requests.find? (fun request => request.subject = table.descriptorName) =
    some (structures table)

theorem introduces_cons_structures (table : DescriptorTable) (rest : List DeclRequest) :
    Introduces (structures table :: rest) table :=
  List.find?_cons_of_pos (by simp [subject])

theorem introduces_cons_of_ne (h : request.subject ≠ table.descriptorName)
    (rest : List DeclRequest) : Introduces (request :: rest) table ↔ Introduces rest table := by
  rw [Introduces, Introduces, List.find?_cons_of_neg (by simpa using h)]

/-- Requests leave a declaration alone, unless they put in a descriptor table of that
name. -/
theorem getElem?_applyAll (hdecl : declarations.decls[index]? = some decl)
    (hkept : ∀ table, decl.name = table.tableName →
      table.descriptorName ∈ declarations.names ∨ ¬ Introduces requests table) :
    (applyAll declarations requests).decls[index]? = some decl := by
  induction requests generalizing declarations with
  | nil => exact hdecl
  | cons request rest ih =>
      apply ih
      · apply getElem?_apply hdecl
        rintro table rfl
        by_cases hname : decl.name = table.tableName
        · exact (hkept table hname).imp_right fun hnot =>
            absurd (introduces_cons_structures table rest) hnot
        · exact Or.inr hname
      · intro table hname
        rcases hkept table hname with hmem | hnot
        · exact Or.inl ((isPrefix_names_apply declarations request).subset hmem)
        · by_cases hsubject : request.subject = table.descriptorName
          · exact Or.inl (hsubject ▸ subject_mem_names_apply declarations request)
          · exact Or.inr (mt (introduces_cons_of_ne hsubject rest).mpr hnot)

/-- Where they do, the declaration is replaced. -/
theorem getElem?_applyAll_of_introduces (hdecl : declarations.decls[index]? = some decl)
    (hname : decl.name = table.tableName)
    (hdescriptor : table.descriptorName ∉ declarations.names)
    (hintroduces : Introduces requests table) :
    (applyAll declarations requests).decls[index]? = some table.declaration := by
  induction requests generalizing declarations with
  | nil => cases hintroduces
  | cons request rest ih =>
      by_cases hsubject : request.subject = table.descriptorName
      · obtain rfl : request = structures table := by
          rw [Introduces, List.find?_cons_of_pos (by simpa using hsubject)] at hintroduces
          exact Option.some.inj hintroduces
        have hreplaced := getElem?_apply_structures hdecl hdescriptor
        rw [if_pos hname] at hreplaced
        -- from now on the name of the descriptor is taken
        apply getElem?_applyAll hreplaced
        intro other hother
        obtain rfl := DescriptorTable.tableName_injective hother
        exact Or.inl (subject_mem_names_apply declarations (structures table))
      · have hkept : (apply declarations request).decls[index]? = some decl := by
          apply getElem?_apply hdecl
          rintro other rfl
          refine Or.inr fun hother => hsubject ?_
          rw [DescriptorTable.tableName_injective (hname.symm.trans hother)]
          rfl
        exact ih hkept (descriptorName_notMem_names_apply hdescriptor hsubject)
          ((introduces_cons_of_ne hsubject rest).mp hintroduces)

end DeclRequest

/-! ## Requests of instructions -/

namespace Disassembler

/-- What lowering an instruction asks to have declared. -/
def declRequests (code : Disassembler) (externPrefix : String) (insn : Instruction) :
    List DeclRequest :=
  match insn.kind with
  | .call => ((code.calledName? externPrefix insn).map .callee).toList
  | .movToSpecial reg => [.intrinsic ("intrinsic_set_" ++ reg.text) .void [.int reg.bits]]
  | .movFromSpecial reg => [.intrinsic ("intrinsic_get_" ++ reg.text) (.int reg.bits) []]
  | .descriptorTable table =>
    [.structures table, .intrinsic table.loader .void [.pointer (.struct table.tableName)]]
  | .systemLoad load => [.intrinsic load.loader .void [.word]]
  | .portOut =>
    match insn.operands with
    | [_, source] =>
      [.intrinsic ("intrinsic_out" ++ decimalText source.bitSize) .void
        [.ushort, .int source.bitSize]]
    | _ => []
  | .portIn =>
    match insn.operands with
    | [target, _] =>
      [.intrinsic ("intrinsic_in" ++ decimalText target.bitSize) (.int target.bitSize) [.ushort]]
    | _ => []
  | _ => []

variable {code : Disassembler} {externPrefix : String} {insn : Instruction}
  {table : DescriptorTable}

theorem callee_mem_declRequests {name : String} :
    .callee name ∈ code.declRequests externPrefix insn ↔
      code.calledName? externPrefix insn = some name := by
  by_cases hkind : insn.kind = .call
  · rw [declRequests, hkind]
    simp
  · have hnone : code.calledName? externPrefix insn = none := by
      rw [calledName?]
      split
      · rw [if_neg hkind]
      · rfl
    rw [hnone, declRequests]
    cases hother : insn.kind with
    | call => exact absurd hother hkind
    | portOut =>
        dsimp only
        split <;> simp
    | portIn =>
        dsimp only
        split <;> simp
    | _ => simp

theorem structures_mem_declRequests :
    .structures table ∈ code.declRequests externPrefix insn ↔
      insn.kind = .descriptorTable table := by
  rw [declRequests]
  cases insn.kind with
  | descriptorTable other => simp [eq_comm]
  | portOut =>
      dsimp only
      split <;> simp
  | portIn =>
      dsimp only
      split <;> simp
  | _ => simp

/-- The intrinsics that instructions ask for have names of their own. -/
theorem intrinsicName_of_mem_declRequests {name : String} {ret : CType} {params : List CType}
    (h : .intrinsic name ret params ∈ code.declRequests externPrefix insn) :
    IntrinsicName name := by
  rw [declRequests] at h
  split at h
  · simp [Option.mem_toList] at h
  · cases List.mem_singleton.mp h
    exact .setSpecial _
  · cases List.mem_singleton.mp h
    exact .getSpecial _
  · rename_i table _
    obtain ⟨rfl, _, _⟩ : name = table.loader ∧ _ ∧ _ := by simpa using h
    cases table with
    | segments => exact .loadSegments
    | interrupts => exact .loadInterrupts
  · rename_i load _
    cases List.mem_singleton.mp h
    cases load with
    | task => exact .loadTask
    | localTable => exact .loadLocalTable
  · split at h
    · cases List.mem_singleton.mp h
      exact .portOut _
    · cases h
  · split at h
    · cases List.mem_singleton.mp h
      exact .portIn _
    · cases h
  · cases h

/-- An instruction asks for nothing about the name of a descriptor, unless it loads the
table or calls a function of that name. -/
theorem subject_ne_descriptorName (hkind : insn.kind ≠ .descriptorTable table)
    (hcalled : code.calledName? externPrefix insn ≠ some table.descriptorName) :
    ∀ request ∈ code.declRequests externPrefix insn,
      request.subject ≠ table.descriptorName := by
  intro request hrequest hsubject
  cases request with
  | callee name =>
      exact hcalled (hsubject ▸ callee_mem_declRequests.mp hrequest)
  | intrinsic name ret params =>
      exact table.not_intrinsicName_descriptorName
        (hsubject ▸ intrinsicName_of_mem_declRequests hrequest)
  | structures other =>
      obtain rfl := DescriptorTable.descriptorName_injective hsubject
      exact hkind (structures_mem_declRequests.mp hrequest)

/-- Some instruction loads a descriptor table, and no call of a function that has the
name of the descriptor comes before it. -/
def LoadsFirst (code : Disassembler) (externPrefix : String) (insns : List Instruction)
    (table : DescriptorTable) : Prop :=
  ∃ before insn after, insns = before ++ insn :: after ∧ insn.kind = .descriptorTable table ∧
    table.descriptorName ∉ code.calledNames externPrefix before

theorem loadsFirst_cons {rest : List Instruction} (hkind : insn.kind ≠ .descriptorTable table) :
    code.LoadsFirst externPrefix (insn :: rest) table ↔
      code.calledName? externPrefix insn ≠ some table.descriptorName ∧
        code.LoadsFirst externPrefix rest table := by
  constructor
  · rintro ⟨_ | ⟨first, before⟩, load, after, heq, hload, hbefore⟩
    · cases heq
      exact absurd hload hkind
    · obtain ⟨rfl, rfl⟩ := List.cons.inj heq
      rw [calledNames, List.mem_filterMap, List.exists_mem_cons_iff, not_or] at hbefore
      refine ⟨hbefore.1, before, load, after, rfl, hload, ?_⟩
      rw [calledNames, List.mem_filterMap]
      exact hbefore.2
  · rintro ⟨hcalled, before, load, after, rfl, hload, hbefore⟩
    refine ⟨insn :: before, load, after, rfl, hload, ?_⟩
    rw [calledNames, List.mem_filterMap, List.exists_mem_cons_iff, not_or]
    rw [calledNames, List.mem_filterMap] at hbefore
    exact ⟨hcalled, hbefore⟩

/-- The structures of a table are put in for such instructions. -/
theorem introduces_declRequests_iff {insns : List Instruction} :
    DeclRequest.Introduces (insns.flatMap (code.declRequests externPrefix)) table ↔
      code.LoadsFirst externPrefix insns table := by
  induction insns with
  | nil => simp [DeclRequest.Introduces, LoadsFirst]
  | cons insn rest ih =>
      rw [List.flatMap_cons]
      by_cases hkind : insn.kind = .descriptorTable table
      · refine iff_of_true ?_ ⟨[], insn, rest, rfl, hkind, List.not_mem_nil⟩
        rw [declRequests, hkind]
        exact DeclRequest.introduces_cons_structures table _
      · rw [loadsFirst_cons hkind, ← ih]
        by_cases hcalled : code.calledName? externPrefix insn = some table.descriptorName
        · refine iff_of_false (fun hintroduces => hkind ?_) (fun h => h.1 hcalled)
          -- the first request about the name is that for the callee
          rw [DeclRequest.Introduces, List.find?_append] at hintroduces
          have hfound : ((code.declRequests externPrefix insn).find? fun request =>
              request.subject = table.descriptorName).isSome := by
            rw [List.find?_isSome]
            exact ⟨_, callee_mem_declRequests.mpr hcalled, by simp [DeclRequest.subject]⟩
          rw [Option.or_of_isSome hfound] at hintroduces
          exact structures_mem_declRequests.mp (List.mem_of_find?_eq_some hintroduces)
        · rw [DeclRequest.Introduces, List.find?_append, List.find?_eq_none.mpr, Option.none_or]
          · exact (and_iff_right hcalled).symm
          · intro request hrequest
            simpa using subject_ne_descriptorName hkind hcalled request hrequest

end Disassembler

/-! ## Emission meets the requests -/

namespace BlockContext

variable (context : BlockContext) (insn : Instruction) (l : Lowering)

theorem declarations_clobber (symbols : List Symbol) :
    (context.clobber symbols l).emission.declarations = l.emission.declarations :=
  context.declarations_commit [] _ l

theorem declarations_unmodeled :
    (context.unmodeled insn l).emission.declarations = l.emission.declarations :=
  context.declarations_commit [] (fun _ _ => true) l

theorem declarations_branch (cond : CExpr) :
    (context.branch insn cond l).emission.declarations = l.emission.declarations := by
  rw [branch]
  split <;> rfl

theorem declarations_plain :
    (context.plain insn l).emission.declarations = l.emission.declarations := by
  rw [plain]
  split
  · exact context.declarations_commit context.required ifReadsMemory l
  · rfl

theorem declarations_finishCall (rest : List Instruction) (ret : CType) (call : CExpr) :
    (context.finishCall insn rest ret call l).emission.declarations =
      l.emission.declarations := by
  rw [finishCall]
  split
  · exact context.declarations_clobber l _
  · exact context.declarations_clobber l _

theorem declarations_jump :
    (context.jump insn l).emission.declarations = l.emission.declarations := by
  rw [jump]
  split
  · rfl
  · exact context.declarations_unmodeled insn l
  · exact context.declarations_unmodeled insn l
  · exact context.declarations_commit context.required never l

/-- The requests of an instruction in the context of its block. -/
abbrev declRequests (insn : Instruction) : List DeclRequest :=
  context.scope.program.declRequests context.config.externPrefix insn

theorem declarations_call (hkind : insn.kind = .call) (rest : List Instruction) :
    (context.call insn rest l).emission.declarations =
      DeclRequest.applyAll l.emission.declarations (context.declRequests insn) := by
  have hready := context.declarations_commit (context.required.filter fun symbol =>
    symbol ∉ context.config.scratchRegisters.map Symbol.reg) ifReadsMemory l
  rw [call, declRequests, Disassembler.declRequests, hkind]
  dsimp only
  simp only [Disassembler.calledName?, if_pos hkind, FrameScope.target?]
  rcases context.scope.program.target? insn with _ | target | value
  · exact (context.declarations_unmodeled insn _).trans hready
  · dsimp only
    rw [← hready]
    split <;> exact context.declarations_finishCall insn _ rest _ _
  · exact (context.declarations_finishCall insn _ rest _ _).trans hready

theorem declarations_getSpecial (reg : SpecialReg) :
    (context.getSpecial insn reg l).emission.declarations =
      l.emission.declarations.declareFunction ("intrinsic_get_" ++ reg.text)
        (.int reg.bits) [] := by
  rw [getSpecial]
  split
  · exact context.declarations_clobber _ _
  · exact context.declarations_unmodeled insn _

/-- A descriptor table is loaded by its loader, once its structures are declared. -/
theorem loadTable_eq (table : DescriptorTable) :
    context.loadTable insn table l =
      let declared := (l.mapDeclarations fun declarations =>
        (DeclRequest.structures table).apply declarations).declare table.loader .void
          [.pointer (.struct table.tableName)]
      match insn.operands with
      | .mem m :: _ => declared.emit (.expr (.call table.loader [declared.eval m.address]))
      | _ => context.unmodeled insn declared := by
  cases table <;> rfl

theorem systemLoad_eq (load : SystemLoad) :
    context.systemLoad insn load l =
      let declared := l.declare load.loader .void [.word]
      match insn.operands with
      | operand :: _ => declared.emit (.expr (.call load.loader [declared.eval operand.value]))
      | [] => context.unmodeled insn declared := by
  cases load <;> rfl

theorem declarations_loadTable (table : DescriptorTable) :
    (context.loadTable insn table l).emission.declarations =
      ((DeclRequest.structures table).apply l.emission.declarations).declareFunction table.loader
        .void [.pointer (.struct table.tableName)] := by
  rw [loadTable_eq]
  dsimp only
  split
  · rfl
  · exact context.declarations_unmodeled insn _

theorem declarations_systemLoad (load : SystemLoad) :
    (context.systemLoad insn load l).emission.declarations =
      l.emission.declarations.declareFunction load.loader .void [.word] := by
  rw [systemLoad_eq]
  dsimp only
  split
  · rfl
  · exact context.declarations_unmodeled insn _

theorem declarations_portOut (hkind : insn.kind = .portOut) :
    (context.portOut insn l).emission.declarations =
      DeclRequest.applyAll l.emission.declarations (context.declRequests insn) := by
  rw [portOut, declRequests, Disassembler.declRequests, hkind]
  dsimp only
  rcases insn.operands with _ | ⟨port, _ | ⟨source, _ | _⟩⟩
  · exact context.declarations_unmodeled insn l
  · exact context.declarations_unmodeled insn l
  · rfl
  · exact context.declarations_unmodeled insn l

theorem declarations_portIn (hkind : insn.kind = .portIn) :
    (context.portIn insn l).emission.declarations =
      DeclRequest.applyAll l.emission.declarations (context.declRequests insn) := by
  rw [portIn, declRequests, Disassembler.declRequests, hkind]
  dsimp only
  rcases insn.operands with _ | ⟨target, _ | ⟨port, _ | _⟩⟩
  · exact context.declarations_unmodeled insn l
  · exact context.declarations_unmodeled insn l
  · exact context.declarations_clobber _ _
  · exact context.declarations_unmodeled insn l

/-- Lowering an instruction meets its requests. -/
theorem declarations_lower (rest : List Instruction) :
    (context.lower insn rest l).emission.declarations =
      DeclRequest.applyAll l.emission.declarations (context.declRequests insn) := by
  cases hkind : insn.kind
  case call =>
    rw [lower, hkind]
    exact context.declarations_call insn l hkind rest
  case portOut =>
    rw [lower, hkind]
    exact context.declarations_portOut insn l hkind
  case portIn =>
    rw [lower, hkind]
    exact context.declarations_portIn insn l hkind
  all_goals rw [lower, declRequests, Disassembler.declRequests, hkind]
  case jcc cc =>
    exact (context.declarations_branch insn _ _).trans (context.declarations_commit _ _ l)
  case loop cc =>
    exact (context.declarations_branch insn _ _).trans (context.declarations_commit _ _ l)
  case ret => exact context.declarations_commit _ _ l
  case jmp => exact context.declarations_jump insn l
  case movToSpecial reg => rfl
  case movFromSpecial reg => exact context.declarations_getSpecial insn l reg
  case plain => exact context.declarations_plain insn l
  case descriptorTable table => exact context.declarations_loadTable insn l table
  case systemLoad load => exact context.declarations_systemLoad insn l load
  case passthrough => rfl
  case unmodeled => exact context.declarations_unmodeled insn l

theorem declarations_lowerAll (insns : List Instruction) :
    (context.lowerAll insns l).emission.declarations =
      DeclRequest.applyAll l.emission.declarations (insns.flatMap context.declRequests) := by
  induction insns generalizing l with
  | nil => rfl
  | cons insn rest ih =>
      rw [lowerAll, ih, context.declarations_lower, List.flatMap_cons,
        DeclRequest.applyAll_append]

end BlockContext

namespace EmissionContext

variable (context : EmissionContext) (deps : Dependencies)

theorem declarations_finishBlock (block : Block) (next : Option Address) (l : Lowering) :
    (context.finishBlock block next l).declarations = l.emission.declarations := by
  rw [finishBlock]
  split
  · split <;> rfl
  · split <;> rfl
  · rfl

theorem declarations_emitBlock (block : Block) (next : Option Address) (emission : Emission) :
    (context.emitBlock deps block next emission).declarations =
      DeclRequest.applyAll emission.declarations (block.instructions.flatMap
        (context.scope.program.declRequests context.config.externPrefix)) :=
  calc
    (context.emitBlock deps block next emission).declarations
      = (BlockContext.lowerAll _ block.instructions _).emission.declarations :=
        (context.declarations_finishBlock block next _).trans
          (BlockContext.declarations_commit _ _ _ _)
    _ = _ := BlockContext.declarations_lowerAll _ _ _

theorem declarations_emitBlocks {addresses : List Address} {start emission : Emission}
    (hemit : context.emitBlocks deps addresses start = .ok emission) :
    emission.declarations = DeclRequest.applyAll start.declarations
      (((addresses.filterMap context.scope.block?).flatMap Block.instructions).flatMap
        (context.scope.program.declRequests context.config.externPrefix)) := by
  induction addresses generalizing start with
  | nil =>
      cases hemit
      rfl
  | cons address rest ih =>
      rw [emitBlocks] at hemit
      split at hemit
      · cases hemit
      · rename_i block hblock
        rw [ih hemit, declarations_emitBlock, ← DeclRequest.applyAll_append,
          ← List.flatMap_append, List.filterMap_cons_some hblock, List.flatMap_cons]

/-- Emitting a function meets the requests of all its instructions, block by block. -/
theorem declarations_emit {declarations : DeclTable} {addresses : List Address}
    {emission : Emission} (hemit : context.emit deps declarations addresses = .ok emission) :
    emission.declarations = DeclRequest.applyAll declarations
      (((addresses.filterMap context.scope.block?).flatMap Block.instructions).flatMap
        (context.scope.program.declRequests context.config.externPrefix)) := by
  obtain ⟨emitted, hblocks, rfl⟩ := context.emit_eq_ok deps hemit
  exact context.declarations_emitBlocks deps hblocks

end EmissionContext

end Uncompile
