import Mathlib.Data.BitVec
import Uncompile.Expr.Reduce

/-!
# The meaning of expressions

An expression denotes a word once its symbols, the memory, the input ports and
the results of division by zero are fixed. This file gives that meaning, the
identities between operators that reduction rests on, and how substitution and
a change of the state act on it.
-/

namespace Uncompile

/-- Everything the value of an expression can depend on. -/
structure Valuation where
  symbol : Symbol → Word
  /-- The `size` bytes of memory at an address, as a word. -/
  mem : Word → Nat → Word
  /-- What reading `size` bytes from a port gives. -/
  port : Word → Nat → Word
  /-- The result of dividing by zero, which the operators leave open. -/
  byZero : BinOp → Word → Word

/-- Flags are single bits. -/
def Valuation.FlagBits (v : Valuation) : Prop :=
  ∀ f, v.symbol (.flag f) = 0 ∨ v.symbol (.flag f) = 1

/-- The value of an operator on two words, division by zero included. -/
def BinOp.value (byZero : BinOp → Word → Word) (op : BinOp) (a b : Word) : Word :=
  (op.compute? a b).getD (byZero op a)

/-- The word that an expression denotes. -/
def Expr.eval (v : Valuation) : Expr → Word
  | const value => toWord value
  | sym symbol => v.symbol symbol
  | mem ptr size => v.mem (ptr.eval v) size
  | port p size => v.port (p.eval v) size
  | unary op arg => op.apply (arg.eval v)
  | binary op lhs rhs => op.value v.byZero (lhs.eval v) (rhs.eval v)

/-! ## Constants -/

@[simp]
theorem toWord_toInt (w : Word) : toWord w.toInt = w := by
  rw [toWord, BitVec.ofInt_toInt]

@[simp]
theorem toWord_zero : toWord 0 = 0 := rfl

@[simp]
theorem toWord_one : toWord 1 = 1 := rfl

theorem toWord_add (a b : Int) : toWord (a + b) = toWord a + toWord b :=
  BitVec.ofInt_add a b

theorem toWord_mul (a b : Int) : toWord (a * b) = toWord a * toWord b :=
  BitVec.ofInt_mul a b

theorem toWord_neg (a : Int) : toWord (-a) = -toWord a :=
  BitVec.ofInt_neg

theorem toWord_sub (a b : Int) : toWord (a - b) = toWord a - toWord b := by
  rw [Int.sub_eq_add_neg, toWord_add, toWord_neg, sub_eq_add_neg]

theorem wrap32_eq_zero_iff (value : Int) : wrap32 value = 0 ↔ toWord value = 0 := by
  rw [← toInt_toWord, ← BitVec.toInt_inj]
  rfl

/-- The low half of a 64-bit pattern is the word of the constant. -/
theorem setWidth_ofInt (value : Int) :
    (BitVec.ofInt 64 value).setWidth 32 = toWord value := by
  apply BitVec.eq_of_toNat_eq
  rw [BitVec.toNat_setWidth, toWord, BitVec.toNat_ofInt, BitVec.toNat_ofInt]
  omega

theorem toWord_maskAnd (a b : Int) : toWord (maskAnd a b) = toWord a &&& toWord b := by
  rw [maskAnd, ← setWidth_ofInt, BitVec.ofInt_toInt, BitVec.setWidth_and, setWidth_ofInt,
    setWidth_ofInt]

theorem toWord_mask32 : toWord mask32 = BitVec.allOnes 32 := by decide

/-! ## Identities of operators -/

namespace BinOp

@[simp]
theorem truth_true : truth true = 1 := rfl

@[simp]
theorem truth_false : truth false = 0 := rfl

theorem truth_eq_zero_or_one (holds : Bool) : truth holds = 0 ∨ truth holds = 1 := by
  cases holds
  · exact Or.inl rfl
  · exact Or.inr rfl

@[simp]
theorem truth_beq_zero (holds : Bool) : (truth holds == 0#32) = !holds := by
  cases holds <;> rfl

@[simp]
theorem truth_bne_zero (holds : Bool) : (truth holds != 0#32) = holds := by
  cases holds <;> rfl

/-- A bit is the truth value of its own test. -/
theorem truth_bne_zero_of_bit {w : Word} (hbit : w = 0 ∨ w = 1) : truth (w != 0) = w := by
  rcases hbit with rfl | rfl <;> rfl

variable {byZero : BinOp → Word → Word}

theorem value_eq_zero_or_one {op : BinOp} (hop : op.isComparison || op.isLogical)
    (a b : Word) : op.value byZero a b = 0 ∨ op.value byZero a b = 1 := by
  cases op <;> simp only [isComparison, isLogical, Bool.or_self, Bool.false_eq_true] at hop <;>
    exact truth_eq_zero_or_one _

/-- The negated comparison gives the other truth value. -/
theorem value_negate {op inverse : BinOp} (hinverse : op.negate? = some inverse) (a b : Word) :
    inverse.value byZero a b = truth (op.value byZero a b == 0) := by
  cases op <;> simp only [negate?, Option.some.injEq, reduceCtorEq] at hinverse <;>
    subst hinverse <;>
    simp [value, compute?, BitVec.sle_eq_not_slt, BitVec.ule_eq_not_ult, bne]

theorem value_swapped {op : BinOp} (hop : op.isComparison) (a b : Word) :
    op.swapped.value byZero b a = op.value byZero a b := by
  cases op <;> simp only [isComparison, Bool.false_eq_true] at hop <;>
    simp [swapped, value, compute?, bne, Bool.beq_comm]

theorem value_comm {op : BinOp} (hop : op.isCommutative) (a b : Word) :
    op.value byZero b a = op.value byZero a b := by
  cases op <;> simp only [isCommutative, Bool.false_eq_true] at hop <;>
    simp [value, compute?, BitVec.add_comm, BitVec.mul_comm, BitVec.and_comm, BitVec.or_comm,
      BitVec.xor_comm, Bool.and_comm, Bool.or_comm, bne, Bool.beq_comm]

/-- A comparison of a word with itself. -/
theorem value_self {op : BinOp} (hop : op.isComparison) (a : Word) :
    op.value byZero a a = truth op.holdsOfEqual := by
  cases op <;> simp only [isComparison, Bool.false_eq_true] at hop <;>
    simp [value, compute?, holdsOfEqual, BitVec.sle_eq_not_slt, BitVec.ule_eq_not_ult,
      BitVec.slt_eq_decide, BitVec.ult_eq_decide]

/-- An equality of words depends only on whether they are equal. -/
theorem value_congr_of_eq_iff {op : BinOp} (hop : op.isEquality) {a b c d : Word}
    (hiff : a = b ↔ c = d) : op.value byZero a b = op.value byZero c d := by
  have htest : (a == b) = (c == d) := by
    rw [Bool.eq_iff_iff, beq_iff_eq, beq_iff_eq, hiff]
  cases op <;> simp only [isEquality, Bool.false_eq_true] at hop <;>
    simp [value, compute?, bne, htest]

end BinOp

/-! ## Boolean forms -/

namespace Expr

/-- An expression of Boolean form denotes a bit. -/
theorem eval_bit {v : Valuation} (hv : v.FlagBits) {e : Expr} (he : e.isBoolean) :
    e.eval v = 0 ∨ e.eval v = 1 := by
  cases e with
  | const value =>
      simp only [isBoolean, Bool.or_eq_true, decide_eq_true_eq] at he
      rcases he with rfl | rfl
      · exact Or.inl rfl
      · exact Or.inr rfl
  | sym symbol =>
      cases symbol with
      | flag f => exact hv f
      | _ => simp [isBoolean] at he
  | mem ptr size => simp [isBoolean] at he
  | port p size => simp [isBoolean] at he
  | unary op arg =>
      cases op with
      | lnot => exact BinOp.truth_eq_zero_or_one _
      | _ => simp [isBoolean] at he
  | binary op lhs rhs => exact BinOp.value_eq_zero_or_one he _ _

end Expr

/-! ## Substitution and change of state -/

/-- The valuation in which bound symbols have the values of their expressions. -/
def Valuation.bind (v : Valuation) (binding : Binding) : Valuation :=
  { v with symbol := fun symbol =>
      match binding.get? symbol with
      | some value => value.eval v
      | none => v.symbol symbol }

theorem Valuation.bind_symbol_of_some {v : Valuation} {binding : Binding} {symbol : Symbol}
    {value : Expr} (hvalue : binding.get? symbol = some value) :
    (v.bind binding).symbol symbol = value.eval v := by
  simp only [Valuation.bind, hvalue]

theorem Valuation.bind_symbol_of_none {v : Valuation} {binding : Binding} {symbol : Symbol}
    (hnone : binding.get? symbol = none) :
    (v.bind binding).symbol symbol = v.symbol symbol := by
  simp only [Valuation.bind, hnone]

/-- Binding symbols to expressions for the values they have changes nothing. -/
theorem Valuation.bind_eq_self {v : Valuation} {binding : Binding}
    (hvalues : ∀ symbol value, binding.get? symbol = some value →
      value.eval v = v.symbol symbol) : v.bind binding = v := by
  have hsymbols : (v.bind binding).symbol = v.symbol := by
    funext symbol
    cases hvalue : binding.get? symbol with
    | none => exact Valuation.bind_symbol_of_none hvalue
    | some value => exact (Valuation.bind_symbol_of_some hvalue).trans (hvalues _ _ hvalue)
  exact congrArg (fun symbols => { v with symbol := symbols }) hsymbols

namespace Expr

/-- Substituting first is evaluating with the substituted values. -/
theorem eval_bind (v : Valuation) (binding : Binding) (e : Expr) :
    (e.bind binding).eval v = e.eval (v.bind binding) := by
  induction e with
  | const value => rfl
  | sym symbol =>
      cases hvalue : binding.get? symbol <;> simp [bind, eval, Valuation.bind, hvalue]
  | mem ptr size ih => simp only [bind, eval, ih, Valuation.bind]
  | port p size ih => simp only [bind, eval, ih, Valuation.bind]
  | unary op arg ih => simp only [bind, eval, ih]
  | binary op lhs rhs ihl ihr => simp only [bind, eval, ihl, ihr, Valuation.bind]

/-- Nothing is substituted in an expression that mentions no bound symbol. -/
theorem bind_eq_self {binding : Binding} {e : Expr}
    (hunbound : ∀ symbol, e.references symbol → binding.get? symbol = none) :
    e.bind binding = e := by
  induction e with
  | const value => rfl
  | sym symbol => simp [bind, hunbound symbol (by simp [references])]
  | mem ptr size ih => rw [bind, ih hunbound]
  | port p size ih => rw [bind, ih hunbound]
  | unary op arg ih => rw [bind, ih hunbound]
  | binary op lhs rhs ihl ihr =>
      simp only [references, Bool.or_eq_true] at hunbound
      rw [bind, ihl fun symbol h => hunbound symbol (Or.inl h),
        ihr fun symbol h => hunbound symbol (Or.inr h)]

/-- An expression depends on the symbols it mentions and, if it reads memory or
a port, on what is read there. -/
theorem eval_congr {v w : Valuation} {e : Expr}
    (hsymbol : ∀ symbol, e.references symbol → v.symbol symbol = w.symbol symbol)
    (hmemory : e.readsMemory → v.mem = w.mem ∧ v.port = w.port)
    (hzero : v.byZero = w.byZero) : e.eval v = e.eval w := by
  induction e with
  | const value => rfl
  | sym symbol => exact hsymbol symbol (by simp [references])
  | mem ptr size ih =>
      obtain ⟨hmem, hport⟩ := hmemory rfl
      simp only [eval, ih hsymbol fun _ => ⟨hmem, hport⟩, hmem]
  | port p size ih =>
      obtain ⟨hmem, hport⟩ := hmemory rfl
      simp only [eval, ih hsymbol fun _ => ⟨hmem, hport⟩, hport]
  | unary op arg ih => simp only [eval, ih hsymbol hmemory]
  | binary op lhs rhs ihl ihr =>
      simp only [references, readsMemory, Bool.or_eq_true] at hsymbol hmemory
      have hlhs := ihl (fun symbol h => hsymbol symbol (Or.inl h)) fun h => hmemory (Or.inl h)
      have hrhs := ihr (fun symbol h => hsymbol symbol (Or.inr h)) fun h => hmemory (Or.inr h)
      simp only [eval, hlhs, hrhs, hzero]

end Expr

end Uncompile
