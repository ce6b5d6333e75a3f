import Uncompile.Proofs.Machine.Views

/-!
# Division

The processor divides the 64 bits in `edx` and `eax` by a word: as natural numbers,
or as integers. The lifted effects divide `eax` alone, and as an integer in both cases.
With `eax` extended into `edx` this is what `idiv` does. With `edx` cleared it is what
`div` does only where the integers have the quotient and the remainder of the natural
numbers.
-/

namespace Uncompile

/-- What a division leaves. -/
structure Division where
  quotient : Word
  remainder : Word
  deriving DecidableEq

namespace Division

/-- The division of natural numbers. There is none by zero, and none with a quotient
that is larger than a word. -/
def unsigned? (dividend : BitVec 64) (divisor : Word) : Option Division :=
  let quotient := dividend.toNat / divisor.toNat
  if divisor = 0 ∨ 2 ^ 32 ≤ quotient then none
  else some ⟨BitVec.ofNat 32 quotient, BitVec.ofNat 32 (dividend.toNat % divisor.toNat)⟩

/-- The division of integers, with the quotient rounded towards zero. -/
def signed? (dividend : BitVec 64) (divisor : Word) : Option Division :=
  let quotient := dividend.toInt.tdiv divisor.toInt
  if divisor = 0 ∨ quotient < -2 ^ 31 ∨ 2 ^ 31 ≤ quotient then none
  else some ⟨BitVec.ofInt 32 quotient, BitVec.ofInt 32 (dividend.toInt.tmod divisor.toInt)⟩

/-- The division of words as integers that wraps around. -/
def ofWords (a d : Word) : Division := ⟨a.sdiv d, a.srem d⟩

/-! ## Dividends of one word -/

theorem unsigned?_zero_append (a : Word) {d : Word} (hd : d ≠ 0) :
    unsigned? (0#32 ++ a) d = some ⟨a / d, a % d⟩ := by
  have hdividend : (0#32 ++ a).toNat = a.toNat := by
    rw [BitVec.toNat_append, BitVec.toNat_zero, Nat.zero_shiftLeft, Nat.zero_or]
  have hquotient : a.toNat / d.toNat < 2 ^ 32 :=
    (Nat.div_le_self a.toNat d.toNat).trans_lt a.isLt
  have hfits : ¬(d = 0 ∨ 2 ^ 32 ≤ a.toNat / d.toNat) := by
    rintro (hzero | hlarge)
    · exact hd hzero
    · exact absurd hquotient (Nat.not_lt.mpr hlarge)
  rw [unsigned?, hdividend, if_neg hfits, ← BitVec.toNat_udiv, ← BitVec.toNat_umod,
    BitVec.ofNat_toNat, BitVec.ofNat_toNat, BitVec.setWidth_eq, BitVec.setWidth_eq]

/-- The only quotient of words that is no word is that of the least one by `-1`. -/
theorem tdiv_bounds_iff (a d : Word) :
    (a.toInt.tdiv d.toInt < -2 ^ 31 ∨ 2 ^ 31 ≤ a.toInt.tdiv d.toInt) ↔
      a = BitVec.intMin 32 ∧ d = -1#32 := by
  constructor
  · intro houtside
    by_contra hother
    have hquotient := BitVec.toInt_sdiv_of_ne_or_ne a d (not_and_or.mp hother)
    have hlow := BitVec.le_toInt (a.sdiv d)
    have hhigh := BitVec.toInt_lt (x := a.sdiv d)
    rw [hquotient] at hlow hhigh
    omega
  · rintro ⟨rfl, rfl⟩
    decide

theorem signed?_signExtend (a : Word) {d : Word} (hd : d ≠ 0) :
    signed? (a.signExtend 64) d =
      if a = BitVec.intMin 32 ∧ d = -1#32 then none else some (ofWords a d) := by
  have hdividend : (a.signExtend 64).toInt = a.toInt :=
    BitVec.toInt_signExtend_of_le (by decide)
  simp only [signed?, hdividend, hd, false_or, tdiv_bounds_iff]
  split
  · rfl
  · rename_i hfits
    have hquotient := BitVec.toInt_sdiv_of_ne_or_ne a d (not_and_or.mp hfits)
    rw [← hquotient, ← BitVec.toInt_srem, BitVec.ofInt_toInt, BitVec.ofInt_toInt, ofWords]

/-- A word and the high half of its extension make up the extension. -/
theorem extractLsb'_signExtend_append (a : Word) :
    (a.signExtend 64).extractLsb' 32 32 ++ a = a.signExtend 64 := by
  apply BitVec.eq_of_getLsbD_eq
  intro i hi
  rw [BitVec.getLsbD_append]
  by_cases hlow : i < 32
  · rw [if_pos hlow, BitVec.getLsbD_signExtend, decide_eq_true hi, if_pos hlow, Bool.true_and]
  · have hshift : 32 + (i - 32) = i := by omega
    have hrest : i - 32 < 32 := by omega
    simp [hlow, hshift, hrest]

/-! ## Where the division of integers is that of natural numbers -/

theorem toNat_neg_of_ne_zero {d : Word} (hd : d ≠ 0) : (-d).toNat = 2 ^ 32 - d.toNat :=
  BitVec.toNat_neg_of_pos ((BitVec.pos_iff_ne_zero d).mpr hd)

/-- A positive dividend by a negative divisor: the divisor has to be the larger one. -/
theorem ofWords_eq_iff_of_neg_divisor {a d : Word} (ha : a.msb = false) (hd : d.msb = true) :
    ofWords a d = ⟨a / d, a % d⟩ ↔ a.toNat + d.toNat < 2 ^ 32 := by
  have hdividend : 2 * a.toNat < 2 ^ 32 := BitVec.msb_eq_false_iff_two_mul_lt.mp ha
  have hdivisor : 2 ^ 32 ≤ 2 * d.toNat := BitVec.msb_eq_true_iff_two_mul_ge.mp hd
  have hless : a < d := BitVec.lt_def.mpr (by omega)
  have hnonzero : d ≠ 0 := by
    rintro rfl
    exact absurd hd (by decide)
  have hneg := toNat_neg_of_ne_zero hnonzero
  have hquotient : a / d = 0 := BitVec.udiv_eq_zero_iff_eq_zero_or_lt.mpr (Or.inr hless)
  have hsdiv : a.sdiv d = -(a / -d) := by simp only [BitVec.sdiv_eq, ha, hd, BitVec.udiv_eq]
  have hsrem : a.srem d = a % -d := by simp only [BitVec.srem_eq, ha, hd]
  rw [ofWords, hsdiv, hsrem, hquotient, BitVec.umod_eq_of_lt hless, Division.mk.injEq]
  constructor
  · rintro ⟨-, hremainder⟩
    have hkept := congrArg BitVec.toNat hremainder
    rw [BitVec.toNat_umod, hneg] at hkept
    have hbound := Nat.mod_lt a.toNat (Nat.sub_pos_of_lt d.isLt)
    omega
  · intro hsum
    have hshort : a < -d := BitVec.lt_def.mpr (by omega)
    have hnone : a / -d = 0 := BitVec.udiv_eq_zero_iff_eq_zero_or_lt.mpr (Or.inr hshort)
    exact ⟨by rw [hnone, neg_zero], BitVec.umod_eq_of_lt hshort⟩

/-- A negative dividend by a positive divisor: the quotients have different signs,
unless the divisor is one. -/
theorem ofWords_eq_iff_of_neg_dividend {a d : Word} (ha : a.msb = true) (hd : d.msb = false)
    (hnonzero : d ≠ 0) : ofWords a d = ⟨a / d, a % d⟩ ↔ d = 1 := by
  have hsdiv : a.sdiv d = -(-a / d) := by simp only [BitVec.sdiv_eq, ha, hd, BitVec.udiv_eq]
  have hsrem : a.srem d = -(-a % d) := by simp only [BitVec.srem_eq, ha, hd]
  rw [ofWords, hsdiv, hsrem, Division.mk.injEq]
  constructor
  · rintro ⟨hquotient, -⟩
    have hdividend : 2 ^ 32 ≤ 2 * a.toNat := BitVec.msb_eq_true_iff_two_mul_ge.mp ha
    have hdivisor : 2 * d.toNat < 2 ^ 32 := BitVec.msb_eq_false_iff_two_mul_lt.mp hd
    have hzero : a ≠ 0 := by
      rintro rfl
      exact absurd ha (by decide)
    by_contra hother
    have htwo : 2 ≤ d.toNat := by
      have hpos : d.toNat ≠ 0 := fun h => hnonzero (BitVec.eq_of_toNat_eq h)
      have hone : d.toNat ≠ 1 := fun h => hother (BitVec.eq_of_toNat_eq h)
      omega
    -- the unsigned quotient is below `2 ^ 31` and positive, the signed one is not
    have hpositive : 1 ≤ a.toNat / d.toNat := (Nat.one_le_div_iff (by omega)).mpr (by omega)
    have hsmall : a.toNat / d.toNat ≤ a.toNat / 2 := Nat.div_le_div_left htwo (by decide)
    have hmagnitude : (-a / d).toNat ≤ (-a).toNat / 2 := by
      rw [BitVec.toNat_udiv]
      exact Nat.div_le_div_left htwo (by decide)
    have hword := congrArg BitVec.toNat hquotient
    rw [BitVec.toNat_neg, @BitVec.toNat_udiv _ a d] at hword
    rw [toNat_neg_of_ne_zero hzero] at hmagnitude
    omega
  · rintro rfl
    rw [BitVec.ofNat_eq_ofNat, BitVec.udiv_one, BitVec.udiv_one, BitVec.umod_one,
      BitVec.umod_one, BitVec.neg_neg, BitVec.neg_zero]
    exact ⟨rfl, rfl⟩

/-- Two negative words: the smaller magnitude is the larger natural number. -/
theorem ofWords_eq_iff_of_neg_neg {a d : Word} (ha : a.msb = true) (hd : d.msb = true) :
    ofWords a d = ⟨a / d, a % d⟩ ↔ a = d := by
  have hnonzero : ∀ {x : Word}, x.msb = true → x ≠ 0#32 := by
    rintro x hx rfl
    exact absurd hx (by decide)
  have hsdiv : a.sdiv d = -a / -d := by simp only [BitVec.sdiv_eq, ha, hd, BitVec.udiv_eq]
  have hsrem : a.srem d = -(-a % -d) := by simp only [BitVec.srem_eq, ha, hd]
  rw [ofWords, hsdiv, hsrem, Division.mk.injEq]
  constructor
  · rintro ⟨hquotient, -⟩
    have hdividend := toNat_neg_of_ne_zero (hnonzero ha)
    have hdivisor := toNat_neg_of_ne_zero (hnonzero hd)
    have hnegative : -d ≠ 0#32 := neg_ne_zero.mpr (hnonzero hd)
    -- a zero quotient on one side is a zero quotient on the other
    have horder : -a < -d ↔ a < d := by
      have hsame : -a / -d = 0#32 ↔ a / d = 0#32 := by rw [hquotient]
      rwa [BitVec.udiv_eq_zero_iff_eq_zero_or_lt, BitVec.udiv_eq_zero_iff_eq_zero_or_lt,
        or_iff_right hnegative, or_iff_right (hnonzero hd)] at hsame
    rw [BitVec.lt_def, BitVec.lt_def, hdividend, hdivisor] at horder
    apply BitVec.eq_of_toNat_eq
    omega
  · rintro rfl
    have hnegative : -a ≠ 0#32 := neg_ne_zero.mpr (hnonzero ha)
    rw [BitVec.udiv_self, BitVec.udiv_self, BitVec.umod_self, BitVec.umod_self,
      beq_eq_false_iff_ne.mpr hnegative, beq_eq_false_iff_ne.mpr (hnonzero ha)]
    exact ⟨rfl, neg_zero⟩

/-- The integers of two words have the quotient and the remainder of the natural numbers
if the dividend is no negative integer and the words add up to a word. Otherwise this
happens only for divisor one and for equal words. -/
theorem ofWords_eq_iff (a : Word) {d : Word} (hd : d ≠ 0) :
    ofWords a d = ⟨a / d, a % d⟩ ↔
      a = d ∨ d = 1 ∨ (a.msb = false ∧ a.toNat + d.toNat < 2 ^ 32) := by
  have hone : d.msb = true → d ≠ 1 := by
    rintro hmsb rfl
    exact absurd hmsb (by decide)
  cases ha : a.msb with
  | false =>
      have hdividend : 2 * a.toNat < 2 ^ 32 := BitVec.msb_eq_false_iff_two_mul_lt.mp ha
      cases hmsb : d.msb with
      | false =>
          have hdivisor : 2 * d.toNat < 2 ^ 32 := BitVec.msb_eq_false_iff_two_mul_lt.mp hmsb
          have hsum : a.toNat + d.toNat < 2 ^ 32 := by omega
          simp only [ofWords, BitVec.sdiv_eq, BitVec.srem_eq, ha, hmsb, BitVec.udiv_eq, hsum,
            and_self, or_true]
      | true =>
          have hne : a ≠ d := fun h => Bool.false_ne_true (ha ▸ h ▸ hmsb)
          rw [ofWords_eq_iff_of_neg_divisor ha hmsb, or_iff_right hne, or_iff_right (hone hmsb),
            and_iff_right rfl]
  | true =>
      cases hmsb : d.msb with
      | false =>
          have hne : a ≠ d := fun h => Bool.false_ne_true (hmsb ▸ h ▸ ha)
          rw [ofWords_eq_iff_of_neg_dividend ha hmsb hd, or_iff_right hne]
          simp
      | true =>
          rw [ofWords_eq_iff_of_neg_neg ha hmsb, or_iff_right (hone hmsb)]
          simp

end Division

/-! ## Lifted divisions -/

namespace MachineState

/-- The 64 bits that a division divides. -/
def dividend (machine : MachineState) : BitVec 64 := machine.reg .edx ++ machine.reg .eax

/-- What a division has left in the registers. -/
def divided (machine : MachineState) : Division := ⟨machine.reg .eax, machine.reg .edx⟩

/-- Every value of a binding is a constant for the word that the machine holds. -/
def Constants (machine : MachineState) (binding : Binding) : Prop :=
  ∀ symbol value, binding.get? symbol = some value →
    ∃ k, value = .const k ∧ toWord k = machine.symbol symbol

variable (world : World) (machine : MachineState) {divisor : Operand}

theorem eval_divided {op : BinOp} {result : Word} (hword : divisor.isWord)
    (hresult : op.compute? (machine.reg .eax) (divisor.word machine) = some result) :
    (Expr.binary op (.reg .eax) divisor.value).eval (machine.valuation world) = result := by
  have hvalue := Operand.eval_value world machine hword
  have hdividend : (Expr.reg .eax).eval (machine.valuation world) = machine.reg .eax := rfl
  rw [Expr.eval, hvalue, hdividend, BinOp.value, hresult, Option.getD_some]

theorem divided_exec (hword : divisor.isWord) (hdivisor : divisor.word machine ≠ 0) :
    (machine.exec world (Lift.divAccumulator divisor)).divided =
      .ofWords (machine.reg .eax) (divisor.word machine) := by
  have hquotient := machine.eval_divided world hword
    (show BinOp.div.compute? _ _ = some _ from if_neg hdivisor)
  have hremainder := machine.eval_divided world hword
    (show BinOp.mod.compute? _ _ = some _ from if_neg hdivisor)
  rw [Division.ofWords, ← hquotient, ← hremainder]
  rfl

variable {machine} {binding : Binding}

/-- Binding constants for what the machine holds and reducing keeps a value. -/
theorem Constants.eval_bind_reduce (hbinding : machine.Constants binding) {e : Expr}
    (he : e.Arithmetic) :
    (e.bind binding).reduce.eval (machine.valuation world) = e.eval (machine.valuation world) := by
  have hflagless : (e.bind binding).Within .flagless := by
    apply Expr.within_bind (Expr.flagless_of_traced he.traced)
    intro symbol value _ hvalue
    obtain ⟨k, rfl, -⟩ := hbinding symbol value hvalue
    trivial
  have hvaluation : (machine.valuation world).bind binding = machine.valuation world := by
    apply Valuation.bind_eq_self
    intro symbol value hvalue
    obtain ⟨k, rfl, hk⟩ := hbinding symbol value hvalue
    exact hk
  rw [Expr.eval_reduce_of_flagless hflagless, Expr.eval_bind, hvaluation]

/-- A register or an immediate becomes a constant. -/
theorem Constants.reduce_operand (hbinding : machine.Constants binding) {operand : Operand}
    (hword : operand.isWord) (hmemory : ∀ m, operand ≠ .mem m)
    (hbound : ∀ s, operand.value.references (.reg s) → (binding.get? (.reg s)).isSome) :
    ∃ k, (operand.value.bind binding).reduce = .const k ∧ toWord k = operand.word machine := by
  cases operand with
  | imm value => exact ⟨value, rfl, rfl⟩
  | mem m => exact absurd rfl (hmemory m)
  | special r => exact absurd hword Bool.false_ne_true
  | reg r size =>
      obtain rfl : size = 4 := by simpa [Operand.isWord] using hword
      obtain ⟨value, hvalue⟩ := Option.isSome_iff_exists.mp
        (hbound r (by simp [Operand.value, Expr.reg, Expr.references]))
      obtain ⟨k, rfl, hk⟩ := hbinding (.reg r) value hvalue
      refine ⟨k, ?_, hk⟩
      simp [Operand.value, Expr.reg, Expr.bind, hvalue, Expr.reduce]

/-- Operators on constants are computed. -/
theorem Constants.reduce_binary {op : BinOp} (hop : op.isLogical = false) {lhs rhs : Expr}
    {a b result : Word} (hlhs : ∃ k, (lhs.bind binding).reduce = .const k ∧ toWord k = a)
    (hrhs : ∃ k, (rhs.bind binding).reduce = .const k ∧ toWord k = b)
    (hresult : op.compute? a b = some result) :
    ((Expr.binary op lhs rhs).bind binding).reduce = .const result.toInt := by
  obtain ⟨j, hj, rfl⟩ := hlhs
  obtain ⟨k, hk, rfl⟩ := hrhs
  have hfold : op.fold? j k = some result.toInt := by
    cases op <;> simp [BinOp.isLogical] at hop <;> simp [BinOp.fold?, hresult]
  rw [Expr.bind, Expr.reduce, hj, hk, Expr.reduceBinary, hfold]

end MachineState

namespace Opcode

variable (world : World) (machine : MachineState) {divisor : Operand}

theorem unsigned_divided_iff (hword : divisor.isWord) (hdivisor : divisor.word machine ≠ 0)
    (hhigh : machine.reg .edx = 0) :
    ∃ division, Division.unsigned? machine.dividend (divisor.word machine) = some division ∧
      ((machine.exec world (Lift.divAccumulator divisor)).divided = division ↔
        machine.reg .eax = divisor.word machine ∨ divisor.word machine = 1 ∨
          ((machine.reg .eax).msb = false ∧
            (machine.reg .eax).toNat + (divisor.word machine).toNat < 2 ^ 32)) := by
  have hdivided := Division.unsigned?_zero_append (machine.reg .eax) hdivisor
  rw [MachineState.dividend, hhigh]
  refine ⟨_, hdivided, ?_⟩
  rw [machine.divided_exec world hword hdivisor, Division.ofWords_eq_iff _ hdivisor]

theorem signed_divided (hword : divisor.isWord) (hdivisor : divisor.word machine ≠ 0)
    (hhigh : machine.reg .edx = ((machine.reg .eax).signExtend 64).extractLsb' 32 32) :
    Division.signed? machine.dividend (divisor.word machine) =
      if machine.reg .eax = BitVec.intMin 32 ∧ divisor.word machine = -1#32 then none
      else some (machine.exec world (Lift.divAccumulator divisor)).divided := by
  rw [machine.divided_exec world hword hdivisor, MachineState.dividend, hhigh,
    Division.extractLsb'_signExtend_append, Division.signed?_signExtend _ hdivisor]

theorem binary_of_mem_divAccumulator {symbol : Symbol} {value : Expr}
    (hmem : (Location.sym symbol, value) ∈ Lift.divAccumulator divisor) :
    ∃ op ∈ [BinOp.div, .mod], value = .binary op (.reg .eax) divisor.value := by
  simp only [Lift.divAccumulator, List.mem_cons, Prod.mk.injEq, List.not_mem_nil,
    or_false] at hmem
  rcases hmem with ⟨-, rfl⟩ | ⟨-, rfl⟩
  · exact ⟨.div, by simp, rfl⟩
  · exact ⟨.mod, by simp, rfl⟩

/-- Reducing a lifted value keeps what it leaves in its register. If all registers that
it reads are bound, only this number remains. -/
theorem reduce_divided (hword : divisor.isWord) (hdivisor : divisor.word machine ≠ 0)
    {binding : Binding} (hbinding : machine.Constants binding) {symbol : Symbol} {value : Expr}
    (hvalue : (Lift.divAccumulator divisor).toBinding.get? symbol = some value) :
    (value.bind binding).reduce.eval (machine.valuation world) =
        (machine.exec world (Lift.divAccumulator divisor)).symbol symbol ∧
      ((∀ m, divisor ≠ .mem m) →
        (∀ s, value.references (.reg s) → (binding.get? (.reg s)).isSome) →
        (value.bind binding).reduce =
          .const ((machine.exec world (Lift.divAccumulator divisor)).symbol symbol).toInt) := by
  obtain ⟨op, hop, rfl⟩ := binary_of_mem_divAccumulator (Effect.mem_of_get?_toBinding hvalue)
  have hflat : op.isLogical = false ∧ op.isEquality = false :=
    (by decide : ∀ op ∈ [BinOp.div, .mod], op.isLogical = false ∧ op.isEquality = false) op hop
  obtain ⟨result, hresult⟩ :
      ∃ result, op.compute? (machine.reg .eax) (divisor.word machine) = some result := by
    simp only [List.mem_cons, List.not_mem_nil, or_false] at hop
    rcases hop with rfl | rfl
    · exact ⟨_, if_neg hdivisor⟩
    · exact ⟨_, if_neg hdivisor⟩
  have heval := machine.eval_divided world hword hresult
  have hleft : (machine.exec world (Lift.divAccumulator divisor)).symbol symbol = result := by
    rw [MachineState.symbol_exec, hvalue, Option.map_some, Option.getD_some, heval]
  rw [hleft]
  constructor
  · have harithmetic := (Expr.arithmetic_reg .eax).binary divisor.arithmetic_value
      (Bool.or_eq_false_iff.mpr hflat)
    rw [hbinding.eval_bind_reduce world harithmetic, heval]
  · intro hmemory hbound
    have hdividend : ∃ k, ((Expr.reg .eax).bind binding).reduce = .const k ∧
        toWord k = machine.reg .eax :=
      hbinding.reduce_operand (show (Operand.reg .eax 4).isWord from rfl)
        (fun m h => Operand.noConfusion h)
        fun s hs => hbound s (by rw [Expr.references, Bool.or_eq_true]; exact Or.inl hs)
    have hreduced := hbinding.reduce_operand hword hmemory
      fun s hs => hbound s (by rw [Expr.references, Bool.or_eq_true]; exact Or.inr hs)
    exact MachineState.Constants.reduce_binary hflat.1 hdividend hreduced hresult

/-- The effect of `idiv` leaves what the processor leaves whenever there is a quotient.
The effect of `div` is the same one, so it leaves the unsigned quotient and remainder
only where they are the signed ones. Both hold before and after registers are bound to
constants and the values are reduced. -/
theorem lifted_division (hword : divisor.isWord) (hdivisor : divisor.word machine ≠ 0) :
    ∃ effect, div.effect? [divisor] = some effect ∧ idiv.effect? [divisor] = some effect ∧
      (machine.reg .edx = 0 →
        ∃ division, Division.unsigned? machine.dividend (divisor.word machine) = some division ∧
          ((machine.exec world effect).divided = division ↔
            machine.reg .eax = divisor.word machine ∨ divisor.word machine = 1 ∨
              ((machine.reg .eax).msb = false ∧
                (machine.reg .eax).toNat + (divisor.word machine).toNat < 2 ^ 32))) ∧
      (machine.reg .edx = ((machine.reg .eax).signExtend 64).extractLsb' 32 32 →
        Division.signed? machine.dividend (divisor.word machine) =
          if machine.reg .eax = BitVec.intMin 32 ∧ divisor.word machine = -1#32 then none
          else some (machine.exec world effect).divided) ∧
      ∀ binding, machine.Constants binding → ∀ r ∈ [Reg.eax, .edx],
        ∃ value, effect.toBinding.get? (.reg r) = some value ∧
          (value.bind binding).reduce.eval (machine.valuation world) =
            (machine.exec world effect).reg r ∧
          ((∀ m, divisor ≠ .mem m) →
            (∀ s, value.references (.reg s) → (binding.get? (.reg s)).isSome) →
            (value.bind binding).reduce = .const ((machine.exec world effect).reg r).toInt) := by
  refine ⟨Lift.divAccumulator divisor, rfl, rfl, unsigned_divided_iff world machine hword hdivisor,
    signed_divided world machine hword hdivisor, ?_⟩
  intro binding hbinding r hr
  have hwritten : ∃ value,
      (Lift.divAccumulator divisor).toBinding.get? (.reg r) = some value := by
    simp only [List.mem_cons, List.not_mem_nil, or_false] at hr
    rcases hr with rfl | rfl
    · exact ⟨_, rfl⟩
    · exact ⟨_, rfl⟩
  obtain ⟨value, hvalue⟩ := hwritten
  exact ⟨value, hvalue, reduce_divided world machine hword hdivisor hbinding hvalue⟩

/-- A machine that holds a dividend in `eax` with `high` above it, and the divisor two in
`ecx`. -/
def halving (high : Word) (low : Int) : MachineState where
  symbol symbol :=
    match symbol with
    | .reg .eax => toWord low
    | .reg .edx => high
    | .reg .ecx => 2
    | _ => 0
  memory _ := 0

/-- The two registers of a division by two as constants. -/
def halvingBinding (low : Int) : Binding :=
  (SortedMap.empty.insert (.reg .eax) (.const low)).insert (.reg .ecx) (.const 2)

theorem constants_halvingBinding (high : Word) (low : Int) :
    (halving high low).Constants (halvingBinding low) := by
  intro symbol value hvalue
  rw [halvingBinding, SortedMap.get?_insert, SortedMap.get?_insert, SortedMap.get?_empty] at hvalue
  split at hvalue
  · rename_i hsymbol
    cases hvalue
    exact ⟨2, rfl, hsymbol ▸ rfl⟩
  · split at hvalue
    · rename_i hsymbol
      cases hvalue
      exact ⟨low, rfl, hsymbol ▸ rfl⟩
    · exact absurd hvalue (by simp)

/-- Half of `-7` is `-3`, and `-1` remains. -/
theorem lifted_division_halving :
    ∃ effect, idiv.effect? [.reg .ecx 4] = some effect ∧
      Division.signed? (halving (-1) (-7)).dividend 2 = some ⟨-3, -1⟩ ∧
      ((halving (-1) (-7)).exec .silent effect).divided = ⟨-3, -1⟩ ∧
      ∃ remainder, effect.toBinding.get? (.reg .edx) = some remainder ∧
        (remainder.bind (halvingBinding (-7))).reduce = .const (-1) := by
  obtain ⟨effect, hdiv, hidiv, -, hsigned, hreduced⟩ :=
    lifted_division .silent (halving (-1) (-7)) (show (Operand.reg .ecx 4).isWord from rfl)
      (by decide)
  have hquotient : Division.signed? (halving (-1) (-7)).dividend 2 = some ⟨-3, -1⟩ := by decide
  have hdivided : ((halving (-1) (-7)).exec .silent effect).divided = ⟨-3, -1⟩ :=
    Option.some.inj (((hsigned (by decide)).trans (if_neg (by decide))).symm.trans hquotient)
  obtain ⟨remainder, hremainder, -, hconst⟩ :=
    hreduced _ (constants_halvingBinding (-1) (-7)) .edx (by simp)
  refine ⟨effect, hidiv, hquotient, hdivided, remainder, hremainder, ?_⟩
  have hedx : ((halving (-1) (-7)).exec .silent effect).reg .edx = -1 :=
    congrArg Division.remainder hdivided
  rw [hconst (fun m h => Operand.noConfusion h), hedx]
  · rfl
  · cases hdiv
    cases hremainder
    intro s hs
    have hread : s = .eax ∨ s = .ecx := by
      revert hs
      cases s <;> decide
    rcases hread with rfl | rfl
    · rfl
    · rfl

/-- Halving `0x80000000` as a natural number gives `0x40000000`, the lifted effect of
`div` gives `0xc0000000`. -/
theorem div_top_bit :
    Division.unsigned? (halving 0 0x80000000).dividend 2 = some ⟨0x40000000, 0⟩ ∧
      Opcode.div.effect? [.reg .ecx 4] = some (Lift.divAccumulator (.reg .ecx 4)) ∧
      ((halving 0 0x80000000).exec .silent (Lift.divAccumulator (.reg .ecx 4))).divided =
        ⟨0xc0000000, 0⟩ := by
  decide

end Opcode

end Uncompile
