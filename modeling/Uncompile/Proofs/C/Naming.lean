import Uncompile.Proofs.C.Semantics

/-!
# The variables of symbols

Symbols that are not names from outside have variables of their own: each name
determines its symbol. So an assignment to the variable of one symbol leaves all
others alone.
-/

namespace Uncompile

namespace Symbol

def isNamed : Symbol → Bool
  | named _ => true
  | _ => false

/-- Registers, flags and special registers, which instructions can write. -/
def onProcessor : Symbol → Bool
  | reg _ | flag _ | special _ => true
  | _ => false

/-- The symbols with a fixed name. -/
def fixed : List Symbol :=
  Reg.all.map reg ++ [Flag.z, .s, .c, .o, .p].map flag ++
    (Segment.all.map fun seg => special (.segment seg)) ++
    [special .gdtr, special .idtr, special .tr, special .ldtr, framePtr, unknown]

/-- The symbol that a name belongs to, unless it was given from outside. -/
def ofName (name : String) : Symbol :=
  match name.toList with
  | 'c' :: 'r' :: digits => special (.control (Nat.ofDigitChars 10 digits 0))
  | 'd' :: 'r' :: digits => special (.debug (Nat.ofDigitChars 10 digits 0))
  | _ => (fixed.find? fun symbol => symbol.text = name).getD (named name)

theorem toList_decimalText (n : Nat) : (decimalText n).toList = Nat.toDigits 10 n := by
  have hnonneg : ¬ (n : Int) < 0 := by omega
  simp [decimalText, hnonneg]

theorem ofName_text {symbol : Symbol} (h : symbol.isNamed = false) :
    ofName symbol.text = symbol := by
  cases symbol with
  | reg r => cases r <;> decide +kernel
  | flag f => cases f <;> decide +kernel
  | special r =>
      cases r with
      | control n => simp [ofName, text, SpecialReg.text, toList_decimalText]
      | debug n => simp [ofName, text, SpecialReg.text, toList_decimalText]
      | segment seg => cases seg <;> decide +kernel
      | _ => decide +kernel
  | framePtr => decide +kernel
  | unknown => decide +kernel
  | named name => simp [isNamed] at h

theorem text_injective {left right : Symbol} (hleft : left.isNamed = false)
    (hright : right.isNamed = false) (htext : left.text = right.text) : left = right := by
  rw [← ofName_text hleft, htext, ofName_text hright]

theorem isNamed_of_onProcessor {symbol : Symbol} (h : symbol.onProcessor) :
    symbol.isNamed = false := by
  cases symbol <;> simp [onProcessor, isNamed] at h ⊢

theorem onProcessor_of_isRegister {symbol : Symbol} (h : symbol.isRegister) :
    symbol.onProcessor := by
  cases symbol <;> simp only [isRegister, Bool.false_eq_true] at h <;> rfl

end Symbol

namespace CState

theorem symbol_of_onProcessor {symbol : Symbol} (h : symbol.onProcessor) (c : CState) :
    c.symbol symbol = c.var symbol.text := by
  cases symbol <;> simp only [Symbol.onProcessor, Bool.false_eq_true] at h <;> rfl

@[simp]
theorem symbol_store (c : CState) (address value : Word) (size : Nat) :
    (c.store address value size).symbol = c.symbol := by
  funext symbol
  cases symbol <;> rfl

/-- Assigning a processor symbol changes no other symbol. -/
theorem symbol_setVar {target symbol : Symbol} (htarget : target.onProcessor)
    (hsymbol : symbol.isNamed = false) (c : CState) (value : Word) :
    (c.setVar target.text value).symbol symbol =
      if symbol = target then value else c.symbol symbol := by
  have hnamed := Symbol.isNamed_of_onProcessor htarget
  by_cases hsame : symbol = target
  · subst hsame
    cases symbol <;> simp [Symbol.onProcessor] at htarget <;> simp [CState.symbol, setVar]
  · have htext : symbol.text ≠ target.text := fun h =>
      hsame (Symbol.text_injective hsymbol hnamed h)
    cases symbol <;> simp [CState.symbol, setVar, htext, hsame]

end CState

end Uncompile
