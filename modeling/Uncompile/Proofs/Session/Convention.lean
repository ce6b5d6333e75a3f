import Mathlib.Tactic.SplitIfs
import Uncompile.Proofs.Emission.Declared
import Uncompile.Proofs.Frame.Slots
import Uncompile.Proofs.Program.Search
import Uncompile.Proofs.Session.Atomic

/-!
# Recovered calling conventions

The parameters of a recovered function are the fastcall registers it takes, followed
by its stack parameters. Its convention, its remarks and what is reported on its
returns fit these parameters and the displacements of its returns: each phase that
edits the function keeps the shape that the next one relies on.
-/

namespace Uncompile

open StackArgs

/-! ## Displacements of returns -/

namespace Disassembler

variable {program : Disassembler} {entry : Address} {pointerSize : Nat}

/-- Some return of the function may move the stack pointer by a displacement. -/
def Displaced (program : Disassembler) (entry : Address) (pointerSize : Nat)
    (displacement : Displacement) : Prop :=
  ∃ site ∈ program.returnSites entry, displacement ∈ program.siteEvidence entry pointerSize site

/-- All returns of the function give one displacement, a number of bytes. -/
def SoleDisplacement (program : Disassembler) (entry : Address) (pointerSize : Nat) (n : Int) :
    Prop :=
  ∀ displacement, program.Displaced entry pointerSize displacement ↔ displacement = .bytes n

/-- There are returns, but not one number of bytes for all of them. -/
def Disagrees (program : Disassembler) (entry : Address) (pointerSize : Nat) : Prop :=
  program.returnSites entry ≠ [] ∧ ¬ ∃ n, program.SoleDisplacement entry pointerSize n

theorem SoleDisplacement.unique {n m : Int} (h : program.SoleDisplacement entry pointerSize n)
    (h' : program.SoleDisplacement entry pointerSize m) : n = m := by
  have hboth := (h' (.bytes n)).mp ((h (.bytes n)).mpr rfl)
  exact Displacement.bytes.inj hboth

theorem SoleDisplacement.returnSites_ne {n : Int}
    (h : program.SoleDisplacement entry pointerSize n) : program.returnSites entry ≠ [] := by
  intro hsites
  obtain ⟨site, hsite, _⟩ := (h (.bytes n)).mpr rfl
  rw [hsites] at hsite
  exact List.not_mem_nil hsite

/-- What the evidence of the returns says: there is none, one number for all of
them, or a list that is not a single number. -/
inductive Evidence (program : Disassembler) (entry : Address) (pointerSize : Nat) :
    Option (List Displacement) → Prop
  | none (hsites : program.returnSites entry = []) : Evidence program entry pointerSize none
  | sole {n : Int} (hsole : program.SoleDisplacement entry pointerSize n) :
      Evidence program entry pointerSize (some [.bytes n])
  | many {displacements : List Displacement} (hlist : ∀ n, displacements ≠ [.bytes n])
      (hmem : ∀ displacement, displacement ∈ displacements ↔
        program.Displaced entry pointerSize displacement)
      (hdisagrees : program.Disagrees entry pointerSize) :
      Evidence program entry pointerSize (some displacements)

theorem evidence_returnEvidence (program : Disassembler) (entry : Address) (pointerSize : Nat) :
    program.Evidence entry pointerSize (program.returnEvidence entry pointerSize) := by
  rw [returnEvidence]
  split
  · rename_i hsites
    exact .none hsites
  · rename_i hsites
    have hmem : ∀ displacement, displacement ∈ OrderedSet.addAll []
        ((program.returnSites entry).flatMap (program.siteEvidence entry pointerSize)) ↔
          program.Displaced entry pointerSize displacement := by
      intro displacement
      rw [OrderedSet.mem_addAll, List.mem_flatMap]
      simp [Displaced]
    have hnodup := OrderedSet.nodup_addAll List.nodup_nil
      ((program.returnSites entry).flatMap (program.siteEvidence entry pointerSize))
    revert hmem hnodup
    generalize OrderedSet.addAll []
      ((program.returnSites entry).flatMap (program.siteEvidence entry pointerSize)) = displacements
    intro hmem hnodup
    by_cases hsole : ∃ n, displacements = [.bytes n]
    · obtain ⟨n, rfl⟩ := hsole
      exact .sole fun displacement => (hmem displacement).symm.trans List.mem_singleton
    · refine .many (fun n hn => hsole ⟨n, hn⟩) hmem ⟨hsites, fun ⟨n, hn⟩ => hsole ⟨n, ?_⟩⟩
      have hsame : displacements.Perm [.bytes n] :=
        (List.perm_ext_iff_of_nodup hnodup (List.nodup_singleton _)).mpr fun displacement =>
          (hmem displacement).trans ((hn displacement).trans List.mem_singleton.symm)
      exact List.perm_singleton.mp hsame

end Disassembler

/-! ## The shape of parameters -/

/-- Where the fastcall registers pass their arguments. -/
def Config.fastcallStorage (config : Config) : List Storage :=
  [.register config.fastcallRegisters.1, .register config.fastcallRegisters.2]

theorem Config.pointerSize_eq {config : Config} (hvalid : config.violation? = none) :
    config.pointerSize = 2 ∨ config.pointerSize = 4 := by
  rw [Config.violation?] at hvalid
  split at hvalid
  · cases hvalid
  · omega

namespace RecoveredFunction

variable {f : RecoveredFunction} {config : Config} {registers stack : List Param}

/-- Parameters on the stack, at increasing offsets. -/
def OnStack (stack : List Param) : Prop :=
  ∃ offsets : List Int, stack.map Param.storage = offsets.map .stack ∧ offsets.Pairwise (· < ·)

/-- The parameters are some fastcall registers, taken whole, and then stack parameters
at increasing offsets. -/
structure Laid (f : RecoveredFunction) (config : Config) (registers stack : List Param) : Prop where
  params : f.params = registers ++ stack
  inRegisters : registers.map Param.storage <+: config.fastcallStorage
  whole : ∀ param ∈ registers, param.width = config.pointerSize
  onStack : OnStack stack

/-- Register parameters are kept as far as they are used: at least one is, the second
alone is dropped only without stack parameters, and it is dropped then if it is
not used. -/
structure Kept (registers stack : List Param) : Prop where
  used : registers ≠ [] → ∃ param ∈ registers, param.unused = false
  single : registers.length = 1 → stack = []
  second : ∀ param, registers[1]? = some param → param.unused → stack ≠ []

theorem Laid.stackParams_eq (h : f.Laid config registers stack) : f.stackParams = stack := by
  have hregisters : ∀ param ∈ registers, param.isStack = false := by
    intro param hparam
    have hstorage := h.inRegisters.subset (List.mem_map_of_mem hparam)
    simp only [Config.fastcallStorage, List.mem_cons, List.not_mem_nil, or_false] at hstorage
    rcases hstorage with hstorage | hstorage <;> rw [Param.isStack, hstorage]
  have hstack : ∀ param ∈ stack, param.isStack := by
    intro param hparam
    obtain ⟨offsets, hoffsets, _⟩ := h.onStack
    have hstorage := List.mem_map_of_mem (f := Param.storage) hparam
    rw [hoffsets] at hstorage
    obtain ⟨offset, _, hoffset⟩ := List.mem_map.mp hstorage
    rw [Param.isStack, ← hoffset]
  rw [RecoveredFunction.stackParams, h.params, List.filter_append,
    List.filter_eq_nil_iff.mpr (by simpa using hregisters), List.filter_eq_self.mpr hstack,
    List.nil_append]

/-! ## Register inputs -/

/-- A function of which only register inputs are known: it takes both fastcall
registers, of which one is used, or none, and other registers are remarked on. -/
structure Inferred (f : RecoveredFunction) (config : Config) (registers : List Param) : Prop where
  params : f.params = registers
  convention : f.convention = if registers = [] then .default else .fastcall
  pair : registers = [] ∨ ∃ first second, registers = [first, second] ∧
    registers.map Param.storage = config.fastcallStorage ∧
    (first.unused = false ∨ second.unused = false)
  whole : ∀ param ∈ registers, param.width = config.pointerSize
  notes : ∀ note ∈ f.notes, ∃ regs, note = .regArgs regs
  noReturn : f.noReturn = false

theorem Inferred.fastcall_iff (h : f.Inferred config registers) :
    f.convention = .fastcall ↔ registers ≠ [] := by
  rw [h.convention]
  split <;> simp_all

theorem Inferred.ne_stdcall (h : f.Inferred config registers) : f.convention ≠ .stdcall := by
  rw [h.convention]
  split <;> exact Convention.noConfusion

theorem inferred_assignInputs (name : String) (entry : Nat) (config : Config) (inputs : List Reg) :
    ∃ registers, (assignInputs { name, entry } config inputs).Inferred config registers := by
  let first := config.fastcallRegisters.1
  let second := config.fastcallRegisters.2
  let rest := inputs.filter fun reg => reg ≠ first && reg ≠ second
  have hnotes : ∀ f : RecoveredFunction, f.notes = [] → ∀ registers,
      f.Inferred config registers →
      (if rest.isEmpty then f else { f with notes := f.notes ++ [.regArgs rest] }).Inferred
        config registers := by
    intro f hempty registers hf
    split
    · exact hf
    · refine ⟨hf.params, hf.convention, hf.pair, hf.whole, ?_, hf.noReturn⟩
      rw [hempty]
      exact List.forall_mem_singleton.mpr ⟨rest, rfl⟩
  by_cases hinputs : first ∈ inputs ∨ second ∈ inputs
  · refine ⟨[first, second].map fun reg =>
      Param.ofRegister reg config.pointerSize (reg ∉ inputs), ?_⟩
    rw [assignInputs]
    dsimp only
    rw [if_pos hinputs]
    refine hnotes _ rfl _ ⟨rfl, rfl, Or.inr ⟨_, _, rfl, rfl, ?_⟩, ?_, List.forall_mem_nil _, rfl⟩
    · simpa [Param.ofRegister] using hinputs
    · simp [Param.ofRegister]
  · refine ⟨[], ?_⟩
    rw [assignInputs]
    dsimp only
    rw [if_neg hinputs]
    exact hnotes _ rfl _
      ⟨rfl, rfl, Or.inl rfl, List.forall_mem_nil _, List.forall_mem_nil _, rfl⟩

theorem assignInputs_keeps (f : RecoveredFunction) (config : Config) (inputs : List Reg) :
    (f.assignInputs config inputs).name = f.name ∧
      (f.assignInputs config inputs).entry = f.entry := by
  rw [assignInputs]
  dsimp only
  split <;> split <;> exact ⟨rfl, rfl⟩

theorem isUnusedRegister_eq {param : Param} {reg : Reg} (h : param.storage = .register reg) :
    param.isUnusedRegister = param.unused := by
  rw [Param.isUnusedRegister, Param.isStack, h]
  rfl

/-- A function with its parameters, whose convention has not been compared with its
returns yet. -/
structure Shaped (f : RecoveredFunction) (config : Config) (registers stack : List Param) : Prop
    extends Laid f config registers stack, Kept registers stack where
  fastcall : f.convention = .fastcall ↔ registers ≠ []
  stdcall : f.convention ≠ .stdcall
  notes : ∀ note ∈ f.notes, ∃ regs, note = .regArgs regs
  noReturn : f.noReturn = false

/-- Dropping unused registers only shortens the register parameters. Both are never
unused, so that the convention stays. -/
theorem Inferred.demoteFastcall (h : f.Inferred config registers) (hstack : OnStack stack) :
    ∃ kept, { f with params := f.params ++ stack }.demoteFastcall.Shaped config kept stack := by
  have hfastcall := h.fastcall_iff
  rcases h.pair with rfl | ⟨first, second, rfl, hstorage, hused⟩
  · have hdefault : f.convention ≠ .fastcall := fun hconvention => hfastcall.mp hconvention rfl
    refine ⟨[], ?_⟩
    rw [RecoveredFunction.demoteFastcall, if_neg hdefault, h.params]
    exact {
      params := rfl
      inRegisters := List.nil_prefix
      whole := h.whole
      onStack := hstack
      used := fun hne => absurd rfl hne
      single := fun hlength => absurd hlength (by decide)
      second := fun param hparam => absurd hparam (by simp)
      fastcall := hfastcall
      stdcall := h.ne_stdcall
      notes := h.notes
      noReturn := h.noReturn }
  · obtain ⟨hfirst, hsecond⟩ : first.storage = .register config.fastcallRegisters.1 ∧
        second.storage = .register config.fastcallRegisters.2 := by
      simpa [Config.fastcallStorage] using hstorage
    have hconvention := hfastcall.mpr (List.cons_ne_nil _ _)
    have hdemote : { f with params := f.params ++ stack }.demoteFastcall =
        if stack.isEmpty && second.unused then { f with params := [first] }
        else { f with params := first :: second :: stack } := by
      have hnotBoth : ¬ (first.unused && second.unused) := by
        rcases hused with hused | hused <;> simp [hused]
      rw [RecoveredFunction.demoteFastcall, if_pos hconvention, h.params]
      simp only [List.cons_append, List.nil_append, isUnusedRegister_eq hfirst,
        isUnusedRegister_eq hsecond, if_neg hnotBoth]
    by_cases hdropped : stack = [] ∧ second.unused
    · obtain ⟨rfl, hunused⟩ := hdropped
      refine ⟨[first], ?_⟩
      rw [hdemote, hunused]
      exact {
        params := rfl
        inRegisters :=
          ⟨[.register config.fastcallRegisters.2], by simp [hfirst, Config.fastcallStorage]⟩
        whole := List.forall_mem_singleton.mpr (h.whole first List.mem_cons_self)
        onStack := hstack
        used := fun _ =>
          ⟨first, List.mem_singleton_self _, hused.resolve_right (by simp [hunused])⟩
        single := fun _ => rfl
        second := fun param hparam => absurd hparam (by simp)
        fastcall := by simp [hconvention]
        stdcall := h.ne_stdcall
        notes := h.notes
        noReturn := h.noReturn }
    · refine ⟨[first, second], ?_⟩
      rw [hdemote, if_neg (by simpa using hdropped)]
      exact {
        params := rfl
        inRegisters := by rw [hstorage]
        whole := h.whole
        onStack := hstack
        used := fun _ => by
          rcases hused with hused | hused
          · exact ⟨first, List.mem_cons_self, hused⟩
          · exact ⟨second, by simp, hused⟩
        single := fun hlength => absurd hlength (by simp)
        second := by
          rintro param hparam hunused rfl
          obtain rfl : second = param := by simpa using hparam
          exact hdropped ⟨rfl, hunused⟩
        fastcall := by simp [hconvention]
        stdcall := h.ne_stdcall
        notes := h.notes
        noReturn := h.noReturn }

theorem demoteFastcall_keeps (f : RecoveredFunction) :
    f.demoteFastcall.name = f.name ∧ f.demoteFastcall.entry = f.entry := by
  rw [RecoveredFunction.demoteFastcall]
  split
  · split
    · split
      · exact ⟨rfl, rfl⟩
      · split <;> exact ⟨rfl, rfl⟩
    · exact ⟨rfl, rfl⟩
  · exact ⟨rfl, rfl⟩

/-! ## Settling the convention -/

/-- Convention, remarks and reports that fit the parameters of a function and the
displacements of its returns. -/
structure Consistent (f : RecoveredFunction) (config : Config) (program : Disassembler)
    (entry : Address) (reported : List Diagnostic) (registers stack : List Param) : Prop
    extends Laid f config registers stack, Kept registers stack where
  fastcall : f.convention = .fastcall ↔ registers ≠ []
  stdcall : f.convention = .stdcall ↔ registers = [] ∧
    ∃ n : Int, program.SoleDisplacement entry config.pointerSize n ∧ n ≠ 0 ∧
      n = config.pointerSize * stack.length
  stackOff : ∀ n, .stackOff n ∈ f.notes ↔
    program.SoleDisplacement entry config.pointerSize n ∧ n ≠ 0 ∧
      n ≠ config.pointerSize * stack.length
  breakStack : (∃ displacements, .breakStack displacements ∈ f.notes) ↔
    program.Disagrees entry config.pointerSize
  listed : ∀ displacements, .breakStack displacements ∈ f.notes →
    ∀ displacement, displacement ∈ displacements ↔
      program.Displaced entry config.pointerSize displacement
  ambiguous : ∀ about displacements, .ambiguousAbi about displacements ∈ reported ↔
    about = entry ∧ .breakStack displacements ∈ f.notes
  noReturn : f.noReturn ↔ program.returnSites entry = []

variable {program : Disassembler} {entry : Address}

/-- Slots are counted by division; a displacement is a slot for each stack parameter
exactly if it is their size. -/
theorem applyDisplacement_eq (f : RecoveredFunction) (pointerSize : Nat) (n : Int) :
    f.applyDisplacement pointerSize n =
      if n = 0 then f
      else if n = (max pointerSize 1 : Nat) * f.stackParams.length then
        if f.convention = .fastcall then f else { f with convention := .stdcall }
      else { f with notes := f.notes ++ [.stackOff n] } := by
  have hslot : ((max pointerSize 1 : Nat) : Int) ≠ 0 := by omega
  have hcount : ∀ slot count : Int, slot ≠ 0 →
      (n.tmod slot = 0 ∧ n.tdiv slot = count ↔ n = slot * count) := by
    intro slot count hslot
    constructor
    · rintro ⟨hrest, rfl⟩
      have hdivision := Int.tmod_add_mul_tdiv n slot
      rw [hrest, Int.zero_add] at hdivision
      exact hdivision.symm
    · rintro rfl
      exact ⟨Int.mul_tmod_right _ _, Int.mul_tdiv_cancel_left _ hslot⟩
  simp only [applyDisplacement, hcount _ _ hslot]

namespace Shaped

variable (h : f.Shaped config registers stack)

include h

theorem stackOff_notMem (n : Int) : .stackOff n ∉ f.notes := by
  intro hmem
  obtain ⟨regs, hregs⟩ := h.notes _ hmem
  cases hregs

theorem breakStack_notMem (displacements : List Displacement) :
    .breakStack displacements ∉ f.notes := by
  intro hmem
  obtain ⟨regs, hregs⟩ := h.notes _ hmem
  cases hregs

/-- A function without returns does not return. -/
theorem consistent_none (hsites : program.returnSites entry = []) :
    { f with noReturn := true }.Consistent config program entry [] registers stack where
  toLaid := ⟨h.params, h.inRegisters, h.whole, h.onStack⟩
  toKept := h.toKept
  fastcall := h.fastcall
  stdcall := ⟨fun hconvention => absurd hconvention h.stdcall,
    fun ⟨_, _, hsole, _⟩ => absurd hsites hsole.returnSites_ne⟩
  stackOff n := ⟨fun hmem => absurd hmem (h.stackOff_notMem n),
    fun ⟨hsole, _⟩ => absurd hsites hsole.returnSites_ne⟩
  breakStack := ⟨fun ⟨displacements, hmem⟩ => absurd hmem (h.breakStack_notMem displacements),
    fun hdisagrees => absurd hsites hdisagrees.1⟩
  listed displacements hmem := absurd hmem (h.breakStack_notMem displacements)
  ambiguous _ displacements := ⟨fun hmem => absurd hmem List.not_mem_nil,
    fun hmem => absurd hmem.2 (h.breakStack_notMem displacements)⟩
  noReturn := ⟨fun _ => hsites, fun _ => rfl⟩

/-- Returns without one displacement are remarked on and reported. -/
theorem consistent_many (hentry : f.entry = entry) {displacements : List Displacement}
    (hlisted : ∀ displacement, displacement ∈ displacements ↔
      program.Displaced entry config.pointerSize displacement)
    (hdisagrees : program.Disagrees entry config.pointerSize) :
    ({ f with notes := f.notes ++ [.breakStack displacements] } : RecoveredFunction).Consistent
      config program entry [.ambiguousAbi f.entry displacements] registers stack where
  toLaid := ⟨h.params, h.inRegisters, h.whole, h.onStack⟩
  toKept := h.toKept
  fastcall := h.fastcall
  stdcall := ⟨fun hconvention => absurd hconvention h.stdcall,
    fun ⟨_, n, hsole, _⟩ => absurd ⟨n, hsole⟩ hdisagrees.2⟩
  stackOff n := by
    simp only [List.mem_append, h.stackOff_notMem, List.mem_singleton, reduceCtorEq, or_self,
      false_iff]
    exact fun ⟨hsole, _⟩ => hdisagrees.2 ⟨n, hsole⟩
  breakStack := ⟨fun _ => hdisagrees, fun _ => ⟨displacements, by simp⟩⟩
  listed others hmem := by
    obtain rfl : others = displacements := by simpa [h.breakStack_notMem] using hmem
    exact hlisted
  ambiguous about others := by simp [h.breakStack_notMem, hentry]
  noReturn := by simp [h.noReturn, hdisagrees.1]

/-- One displacement of all returns makes the callee remove its parameters, if it is
their size, and is remarked on if it is another number than zero. -/
theorem consistent_sole (hpointer : 0 < config.pointerSize) {n : Int}
    (hsole : program.SoleDisplacement entry config.pointerSize n) :
    (f.applyDisplacement config.pointerSize n).Consistent config program entry [] registers
      stack := by
  have hsize : (max config.pointerSize 1 : Nat) * (f.stackParams.length : Int) =
      config.pointerSize * stack.length := by
    rw [Nat.max_eq_left hpointer, h.stackParams_eq]
  have hunique : ∀ m, program.SoleDisplacement entry config.pointerSize m ↔ m = n :=
    fun m => ⟨fun hm => hm.unique hsole, fun hm => hm ▸ hsole⟩
  have hagrees : ¬ program.Disagrees entry config.pointerSize := fun h => h.2 ⟨n, hsole⟩
  -- what is left to see of a function that differs in convention and remarks only
  have hconsistent : ∀ g : RecoveredFunction, g.params = f.params → g.noReturn = false →
      (∀ displacements, .breakStack displacements ∉ g.notes) →
      (g.convention = .fastcall ↔ registers ≠ []) →
      (g.convention = .stdcall ↔ registers = [] ∧ n ≠ 0 ∧ n = config.pointerSize * stack.length) →
      (∀ m, .stackOff m ∈ g.notes ↔ m = n ∧ n ≠ 0 ∧ n ≠ config.pointerSize * stack.length) →
      g.Consistent config program entry [] registers stack := by
    intro g hparams hnoReturn hbreakStack hfastcall hstdcall hstackOff
    exact {
      toLaid := ⟨hparams.trans h.params, h.inRegisters, h.whole, h.onStack⟩
      toKept := h.toKept
      fastcall := hfastcall
      stdcall := by simp only [hstdcall, hunique, exists_eq_left]
      stackOff := fun m => by
        rw [hstackOff, hunique]
        exact and_congr_right fun hm => hm ▸ Iff.rfl
      breakStack := by simp [hbreakStack, hagrees]
      listed := fun displacements hmem => absurd hmem (hbreakStack displacements)
      ambiguous := by simp [hbreakStack]
      noReturn := by simp [hnoReturn, hsole.returnSites_ne] }
  rw [applyDisplacement_eq, hsize]
  split_ifs with hzero hremoved hfastcall
  · exact hconsistent f rfl h.noReturn h.breakStack_notMem h.fastcall
      (by simp [h.stdcall, hzero]) (by simp [h.stackOff_notMem, hzero])
  · exact hconsistent f rfl h.noReturn h.breakStack_notMem h.fastcall
      (by simp [h.stdcall, h.fastcall.mp hfastcall]) (by simp [h.stackOff_notMem, ← hremoved])
  · have hnone : registers = [] := by simpa [h.fastcall] using hfastcall
    exact hconsistent _ rfl h.noReturn h.breakStack_notMem (by simp [hnone])
      (by simp [hnone, hzero, ← hremoved]) (by simp [h.stackOff_notMem, ← hremoved])
  · exact hconsistent _ rfl h.noReturn (by simp [h.breakStack_notMem]) h.fastcall
      (by simp [h.stdcall, hremoved]) (by simp [h.stackOff_notMem, hzero, hremoved])

end Shaped

/-- The evidence of its returns settles the convention of a function. -/
theorem Inferred.consistent_finalize (h : f.Inferred config registers) (hstack : OnStack stack)
    (hpointer : 0 < config.pointerSize) (hentry : f.entry = entry)
    {evidence : Option (List Displacement)}
    (hevidence : program.Evidence entry config.pointerSize evidence) :
    ∃ kept, RecoveredFunction.Consistent
      ({ f with params := f.params ++ stack }.finalize evidence config.pointerSize).1
      config program entry
      ({ f with params := f.params ++ stack }.finalize evidence config.pointerSize).2.toList
      kept stack := by
  obtain ⟨kept, hshaped⟩ := h.demoteFastcall hstack
  refine ⟨kept, ?_⟩
  cases hevidence with
  | none hsites => exact hshaped.consistent_none hsites
  | sole hsole => exact hshaped.consistent_sole hpointer hsole
  | many hlist hlisted hdisagrees =>
      rw [finalize]
      · exact hshaped.consistent_many ((demoteFastcall_keeps _).2.trans hentry) hlisted hdisagrees
      · exact hlist

end RecoveredFunction

namespace Session

variable (session : Session) (entry : Address)

theorem onStack_stackParams (body : List Stmt) (pointerSize maxSlots : Nat) :
    RecoveredFunction.OnStack (stackParams body pointerSize maxSlots).1 := by
  let slot := max pointerSize 1
  have hslot : 0 < slot := Nat.le_max_right _ _
  refine ⟨(slots (slotWidths slot body) maxSlots).map (slotOffset slot), ?_, ?_⟩
  · rw [stackParams_eq, List.map_map, List.map_map]
    rfl
  · rw [List.pairwise_map]
    refine (pairwise_slots (slotWidths slot body) maxSlots).imp fun {first second} hlt => ?_
    have hmul : (first : Int) * slot < second * slot :=
      Int.mul_lt_mul_of_pos_right (Int.ofNat_lt.mpr hlt) (Int.ofNat_lt.mpr hslot)
    simp only [slotOffset]
    omega

/-- Only the returns are reported as ambiguous. -/
theorem ambiguousAbi_mem_reported {emission : Emission} {settled : List Diagnostic}
    (hblocks : ∀ diagnostic ∈ emission.diagnostics, diagnostic.concernsBlock)
    {about : Address} {displacements : List Displacement} :
    .ambiguousAbi about displacements ∈
        frameDiagnostics (session.scopeOf entry) ++ (emission.diagnostics ++ settled) ↔
      .ambiguousAbi about displacements ∈ settled := by
  have hframe : .ambiguousAbi about displacements ∉ frameDiagnostics (session.scopeOf entry) := by
    rw [frameDiagnostics]
    split <;> simp
  have hemission : .ambiguousAbi about displacements ∉ emission.diagnostics :=
    fun hmem => Bool.false_ne_true (hblocks _ hmem)
  simp [hframe, hemission]

/-- Of a drafted function only register inputs are known. -/
theorem inferred_draft {scope : FrameScope} {blocks : List Address} {draft : Draft}
    (hdraft : session.draft scope blocks = .ok draft) :
    draft.function.entry = scope.entry ∧
      ∃ registers, draft.function.Inferred session.config registers := by
  obtain ⟨deps, _, _, hfunction, _⟩ := session.draft_eq_ok hdraft
  obtain ⟨registers, hinferred⟩ := RecoveredFunction.inferred_assignInputs
    (session.disassembly.nameOf scope.entry session.config.externPrefix)
    scope.entry session.config
    (deps.inferredInputs session.config.scratchRegisters session.config.returnRegister)
  rw [hfunction]
  exact ⟨(RecoveredFunction.assignInputs_keeps _ _ _).2, registers, hinferred.params,
    hinferred.convention, hinferred.pair, hinferred.whole, hinferred.notes,
    hinferred.noReturn⟩

/-- Settling a drafted function makes it consistent, with the stack parameters that
are read off its body. -/
theorem consistent_settle (hvalid : session.config.violation? = none) {draft : Draft}
    (hdraft : session.draft (session.scopeOf entry)
      (session.disassembly.functionBlocks entry) = .ok draft) :
    ∃ registers reported,
      (settle session.config draft).1.Consistent session.config (session.scopeOf entry).program
        entry reported registers (stackParams draft.function.body session.config.pointerSize
          session.config.maxStackArgs).1 ∧
      ∀ about displacements, .ambiguousAbi about displacements ∈ (settle session.config draft).2 ↔
        .ambiguousAbi about displacements ∈ reported := by
  obtain ⟨_, _, _, _, hevidence⟩ := session.draft_eq_ok hdraft
  obtain ⟨hentry, inferred, hinferred⟩ := session.inferred_draft hdraft
  have hpointer : 0 < session.config.pointerSize := by
    have := Config.pointerSize_eq hvalid
    omega
  have hreturns := (session.scopeOf entry).program.evidence_returnEvidence entry
    session.config.pointerSize
  rw [scopeOf, FrameScope.entry_install] at hentry hevidence
  rw [scopeOf, ← hevidence] at hreturns
  obtain ⟨registers, hconsistent⟩ := hinferred.consistent_finalize
    (onStack_stackParams draft.function.body session.config.pointerSize
      session.config.maxStackArgs) hpointer hentry hreturns
  refine ⟨registers, _, hconsistent, fun about displacements => ?_⟩
  simp [settle]

/-- The calling convention of a function that could be decompiled is consistent with
its parameters and its returns: see `RecoveredFunction.Consistent`. -/
theorem decompile_convention (hvalid : session.config.violation? = none) {f : RecoveredFunction}
    (hf : (session.decompile entry).2 = .ok f) :
    ∃ registers stack reported,
      (session.decompile entry).1.diagnostics = session.diagnostics ++ reported ∧
      f.Consistent session.config (session.scopeOf entry).program entry reported registers
        stack := by
  obtain ⟨draft, hdraft, rfl, heq⟩ := session.decompile_eq_ok entry hf
  obtain ⟨registers, reported, hconsistent, hreported⟩ :=
    session.consistent_settle entry hvalid hdraft
  obtain ⟨_, _, hemit, _, _⟩ := session.draft_eq_ok hdraft
  have hblocks := (EmissionContext.advances_emit _ _ hemit).2
  have hall : (settle session.config draft).1.Consistent session.config
      (session.scopeOf entry).program entry (frameDiagnostics (session.scopeOf entry) ++
        (draft.emission.diagnostics ++ (settle session.config draft).2)) registers
      (stackParams draft.function.body session.config.pointerSize
        session.config.maxStackArgs).1 := { hconsistent with
    ambiguous := fun about displacements =>
      (session.ambiguousAbi_mem_reported entry hblocks).trans
        ((hreported about displacements).trans (hconsistent.ambiguous about displacements)) }
  refine ⟨registers, _, _, ?_, hall⟩
  rw [heq]
  exact List.append_assoc _ _ _

end Session

/-! ## A callee that removes its parameters -/

namespace CalleeCleanup

/-- Reads its second argument only, and removes two. -/
def program : Program :=
  Program.insertBlock {}
    { address := 16
      instructions := [.ofMnemonic 16 "mov" [.ofReg .eax, .atOffset .esp 8],
        .ofMnemonic 20 "ret" [.imm 8]] }

def session : Session := { disassembly := program.disassembler }

theorem available : session.Available 16 :=
  (session.available_iff 16 rfl).mpr (by decide +kernel)

theorem convention_eq :
    (session.decompile 16).2.toOption.map RecoveredFunction.convention = some .stdcall := by
  rw [session, Program.disassembler, Disassembly.disassembler_eq_listed]
  decide +kernel

/-- The slot that is not read counts among the parameters, of which there are as many
as the return removes. -/
theorem decompile_convention_cleanup :
    session.config.violation? = none ∧ ∃ f, (session.decompile 16).2 = .ok f ∧
      f.convention = .stdcall ∧
      ∃ registers stack reported,
        (session.decompile 16).1.diagnostics = session.diagnostics ++ reported ∧
        f.Consistent session.config (session.scopeOf 16).program 16 reported registers stack ∧
        registers = [] ∧ stack ≠ [] := by
  obtain ⟨f, hf⟩ := (session.exists_decompile_iff 16).mpr available
  obtain ⟨registers, stack, reported, hreported, hconsistent⟩ :=
    session.decompile_convention 16 rfl hf
  have hstdcall : f.convention = .stdcall := by
    have hconvention := convention_eq
    rw [hf] at hconvention
    exact Option.some.inj hconvention
  obtain ⟨hregisters, n, _, hmoved, hsize⟩ := hconsistent.stdcall.mp hstdcall
  refine ⟨rfl, f, hf, hstdcall, registers, stack, reported, hreported, hconsistent, hregisters, ?_⟩
  rintro rfl
  exact hmoved (by simpa using hsize)

end CalleeCleanup

end Uncompile
