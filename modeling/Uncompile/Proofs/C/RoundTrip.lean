import Uncompile.Proofs.C.Printing

/-!
# Reading printed expressions back

A printed expression has one reading. The text of a reduced expression, read
with the tokens, levels and grouping of C, is the expression itself but for what
the text cannot show: constants stand for their class modulo `2 ^ 32`, a sum with
a negative constant is a difference, and stack variables are names.
-/

namespace Uncompile

/-! ## From syntax trees to expressions -/

namespace InfixOp

/-- The operator on signed operands. -/
def signed : InfixOp → BinOp
  | mul => .mul | div => .div | mod => .mod
  | add => .add | sub => .sub
  | shl => .shl | shr => .sar
  | lt => .lt | le => .le | gt => .gt | ge => .ge
  | eq => .eq | ne => .ne
  | and => .and | xor => .xor | or => .or
  | land => .land | lor => .lor

/-- The operator on a left operand that is cast to unsigned. -/
def unsigned? : InfixOp → Option BinOp
  | shr => some .shr
  | lt => some .ult
  | le => some .ule
  | gt => some .ugt
  | ge => some .uge
  | _ => none

end InfixOp

/-- An expression, or one under a cast. -/
inductive CReading where
  | plain (e : CExpr)
  | cast (type : CastType) (e : CExpr)

namespace CReading

/-- A sign in front of a number is part of the constant. Only a pointer made by a
cast is dereferenced. -/
def applyPrefix? : PrefixOp → CReading → Option CReading
  | .cast type, plain e => some (cast type e)
  | .deref, cast (.pointer size) e => some (plain (.deref e size))
  | .neg, plain (.const value) => some (plain (.const (-value)))
  | .neg, plain e => some (plain (.unary .neg e))
  | .not, plain e => some (plain (.unary .not e))
  | .lnot, plain e => some (plain (.unary .lnot e))
  | .addr, plain e => some (plain (.addrOf e))
  | .dec, plain e => some (plain (.preDec e))
  | _, _ => none

def applyInfix? (op : InfixOp) : CReading → CReading → Option CReading
  | plain lhs, plain rhs => some (plain (.binary op.signed lhs rhs))
  | cast .unsignedInt lhs, plain rhs =>
    op.unsigned?.map fun unsigned => plain (.binary unsigned lhs rhs)
  | _, _ => none

def applyCall? (function : String) : CReading → Option CReading
  | plain arg => some (plain (.call function [arg]))
  | _ => none

def toExpr? : CReading → Option CExpr
  | plain e => some e
  | cast _ _ => none

end CReading

/-- The expression that a syntax tree stands for. -/
def CTree.read? : CTree → Option CReading
  | name text => some (.plain (.var text))
  | number value => some (.plain (.const value))
  | prefixed op arg => arg.read?.bind (CReading.applyPrefix? op)
  | infixed op lhs rhs =>
    lhs.read?.bind fun left => rhs.read?.bind fun right => CReading.applyInfix? op left right
  | call function arg => arg.read?.bind (CReading.applyCall? function)

namespace CExpr

/-- Reads the text of an expression. -/
def ofText? (text : String) : Option CExpr :=
  (CParser.parse (CLexer.lex text)).bind fun tree => tree.read?.bind CReading.toExpr?

end CExpr

/-! ## What text shows of an expression -/

theorem CText.negativeMagnitude?_eq_some {value : Int} {absolute : Nat}
    (h : CText.negativeMagnitude? value = some absolute) :
    wrap32 value = -(absolute : Int) ∧ wrap32 value < 0 := by
  unfold CText.negativeMagnitude? at h
  dsimp only at h
  split at h
  · rename_i hsigned
    rw [← Option.some.inj h, Int.ofNat_natAbs_of_nonpos hsigned.2.le, neg_neg]
    exact ⟨rfl, hsigned.2⟩
  · exact absurd h.symm (Option.some_ne_none _)

namespace CExpr

/-- The number that a constant is written as: negative only if it is small. -/
def writtenConstant (value : Int) : Int :=
  if -0x10000 < wrap32 value ∧ wrap32 value < 0 then wrap32 value else (toWord value).toNat

/-- A sum with a negative constant shows as a difference. -/
def writtenBinary (op : BinOp) (lhs rhs : CExpr) : CExpr :=
  match op, rhs with
  | .add, const value =>
    if value < 0 then binary .sub lhs (const (-value)) else binary .add lhs (const value)
  | op, rhs => binary op lhs rhs

mutual

/-- The expression as its text shows it. -/
def written : CExpr → CExpr
  | var name => var name
  | const value => const (writtenConstant value)
  | stackVar offset _ => var (stackVarName offset)
  | addrOf inner => addrOf inner.written
  | deref ptr size => deref ptr.written size
  | unary op arg => unary op arg.written
  | binary op lhs rhs => writtenBinary op lhs.written rhs.written
  | preDec inner => preDec inner.written
  | call name args => call name (writtenAll args)
  | callPointer target ret args => callPointer target.written ret (writtenAll args)

def writtenAll : List CExpr → List CExpr
  | [] => []
  | e :: rest => e.written :: writtenAll rest

end

/-- The two expressions differ only in what text does not show: constants of the
same word, a sum with the opposite of a constant against the difference, and stack
variables against their names. -/
inductive Respelled : CExpr → CExpr → Prop
  | var (name : String) : Respelled (var name) (var name)
  | const {value shown : Int} (h : toWord shown = toWord value) :
      Respelled (const value) (const shown)
  | stackVar (offset : Int) (size : Nat) :
      Respelled (stackVar offset size) (var (stackVarName offset))
  | addrOf {inner shown : CExpr} (h : Respelled inner shown) :
      Respelled (addrOf inner) (addrOf shown)
  | deref {ptr shown : CExpr} (h : Respelled ptr shown) (size : Nat) :
      Respelled (deref ptr size) (deref shown size)
  | unary {arg shown : CExpr} (op : UnOp) (h : Respelled arg shown) :
      Respelled (unary op arg) (unary op shown)
  | binary {lhs left rhs right : CExpr} (op : BinOp) (hlhs : Respelled lhs left)
      (hrhs : Respelled rhs right) : Respelled (binary op lhs rhs) (binary op left right)
  | difference {lhs left : CExpr} {value absolute : Int} (hlhs : Respelled lhs left)
      (h : toWord value = -toWord absolute) :
      Respelled (binary .add lhs (const value)) (binary .sub left (const absolute))
  | call {arg shown : CExpr} (name : String) (h : Respelled arg shown) :
      Respelled (call name [arg]) (call name [shown])

theorem toWord_writtenConstant (value : Int) : toWord (writtenConstant value) = toWord value := by
  unfold writtenConstant
  split
  · exact toWord_wrap32 value
  · rw [toWord, BitVec.ofInt_natCast, BitVec.ofNat_toNat, BitVec.setWidth_eq]

/-- The sign of a written constant is the one that is printed. -/
theorem writtenConstant_eq (value : Int) :
    writtenConstant value =
      match CText.negativeMagnitude? value with
      | some absolute => -(absolute : Int)
      | none => (toWord value).toNat := by
  unfold writtenConstant CText.negativeMagnitude?
  dsimp only
  split
  · rename_i hsigned
    have habs := Int.ofNat_natAbs_of_nonpos hsigned.2.le
    dsimp only
    rw [habs, neg_neg]
  · rfl

theorem writtenBinary_ne_const (op : BinOp) (lhs rhs : CExpr) (value : Int) :
    writtenBinary op lhs rhs ≠ const value := by
  unfold writtenBinary
  split
  · split <;> exact CExpr.noConfusion
  · exact CExpr.noConfusion

/-- Only a constant shows as a constant. -/
theorem written_eq_const {e : CExpr} {shown : Int} (h : e.written = const shown) :
    ∃ value, e = const value ∧ writtenConstant value = shown := by
  cases e with
  | const value => exact ⟨value, rfl, CExpr.const.inj h⟩
  | binary op lhs rhs => exact absurd h (writtenBinary_ne_const op _ _ shown)
  | _ => exact CExpr.noConfusion h

theorem writtenBinary_of_some {lhs rhs : CExpr} {absolute : Nat}
    (h : CText.negativeConstant? rhs = some absolute) :
    writtenBinary .add lhs rhs.written = binary .sub lhs (const absolute) := by
  cases rhs with
  | const value =>
      have hshown : writtenConstant value = -(absolute : Int) := by
        rw [writtenConstant_eq, show CText.negativeMagnitude? value = some absolute from h]
      have hpos : 0 < (absolute : Int) := by
        have hnegative := CText.negativeMagnitude?_eq_some h
        omega
      rw [written, hshown, writtenBinary, if_pos (by omega), neg_neg]
  | _ => exact absurd h.symm (Option.some_ne_none _)

theorem writtenBinary_of_none {op : BinOp} {lhs rhs : CExpr}
    (h : op = .add → CText.negativeConstant? rhs = none) :
    writtenBinary op lhs rhs.written = binary op lhs rhs.written := by
  unfold writtenBinary
  split
  · rename_i shown hshown
    obtain ⟨value, rfl, rfl⟩ := written_eq_const hshown
    have hsign : CText.negativeMagnitude? value = none := h rfl
    have hnonneg : ¬ writtenConstant value < 0 := by
      rw [writtenConstant_eq, hsign]
      exact Int.not_lt.mpr (Int.natCast_nonneg _)
    rw [if_neg hnonneg, hshown]
  · rfl

theorem respelled_writtenBinary {op : BinOp} {lhs left rhs : CExpr} (hlhs : Respelled lhs left)
    (hrhs : Respelled rhs rhs.written) :
    Respelled (binary op lhs rhs) (writtenBinary op left rhs.written) := by
  have hkept := Respelled.binary op hlhs hrhs
  unfold writtenBinary
  split
  · rename_i shown hshown
    split
    · rw [hshown] at hrhs
      cases hrhs with
      | const hword => exact .difference hlhs (by rw [← hword, toWord_neg, neg_neg])
    · rwa [hshown] at hkept
  · exact hkept

/-- Expressions differ from what their text shows in the spelling alone. -/
theorem respelled_written (e : Expr) : Respelled (ofExpr e) (ofExpr e).written := by
  induction e with
  | const value => exact .const (toWord_writtenConstant value)
  | sym symbol =>
      by_cases hframe : symbol = .framePtr
      · subst hframe
        exact .addrOf (.stackVar 0 4)
      · rw [ofExpr_sym hframe]
        exact .var symbol.text
  | mem ptr size ih =>
      rw [ofExpr]
      cases ptr.frameOffset? with
      | some offset => exact .stackVar offset size
      | none => exact .deref ih size
  | port p size ih => exact .call _ ih
  | unary op arg ih => exact .unary op ih
  | binary op lhs rhs ihl ihr =>
      rw [ofExpr]
      cases (Expr.binary op lhs rhs).frameOffset? with
      | some offset => exact .addrOf (.stackVar offset 4)
      | none => exact respelled_writtenBinary ihl ihr

end CExpr

/-! ## Reading trees -/

namespace InfixOp

theorem unsigned?_ofBinOp {op : BinOp} (h : op.isUnsigned || op = .shr) :
    (ofBinOp op).unsigned? = some op := by
  revert h
  cases op <;> decide

theorem signed_ofBinOp {op : BinOp} (h : ¬ (op.isUnsigned || op = .shr)) :
    (ofBinOp op).signed = op := by
  revert h
  cases op <;> decide

end InfixOp

theorem CExpr.eq_const_of_ofExpr {e : Expr} {value : Int} (h : ofExpr e = const value) :
    e = .const value := by
  cases e with
  | const other => rw [const.inj h]
  | sym symbol => cases symbol <;> exact CExpr.noConfusion h
  | mem ptr size =>
      rw [ofExpr] at h
      cases hoffset : ptr.frameOffset? <;> rw [hoffset] at h <;> exact CExpr.noConfusion h
  | port p size => exact CExpr.noConfusion h
  | unary op arg => exact CExpr.noConfusion h
  | binary op lhs rhs =>
      rw [ofExpr] at h
      cases hoffset : (Expr.binary op lhs rhs).frameOffset? <;> rw [hoffset] at h <;>
        exact CExpr.noConfusion h

namespace CTree

theorem read?_ofConst (value : Int) :
    (ofConst value).read? = some (.plain (.const (CExpr.writtenConstant value))) := by
  rw [CExpr.writtenConstant_eq, ofConst]
  cases CText.negativeMagnitude? value <;> rfl

/-- What has no sign of its own does not show as a constant. -/
theorem applyPrefix?_neg {arg : Expr} (harg : arg.isUnsignedTerm) :
    CReading.applyPrefix? .neg (.plain (CExpr.ofExpr arg).written) =
      some (.plain (.unary .neg (CExpr.ofExpr arg).written)) := by
  have hconst : ∀ shown, (CExpr.ofExpr arg).written ≠ .const shown := by
    intro shown hshown
    obtain ⟨value, hvalue, -⟩ := CExpr.written_eq_const hshown
    rw [CExpr.eq_const_of_ofExpr hvalue] at harg
    exact Bool.false_ne_true harg
  cases hwritten : (CExpr.ofExpr arg).written with
  | const shown => exact absurd hwritten (hconst shown)
  | _ => rfl

theorem read?_ofBinary {op : BinOp} {left right : CTree} {lhs rhs : CExpr}
    (hleft : left.read? = some (.plain lhs))
    (hright : right.read? = some (.plain rhs.written)) :
    (ofBinary op left right (CText.negativeConstant? rhs)).read? =
      some (.plain (CExpr.writtenBinary op lhs rhs.written)) := by
  by_cases hsum : op = .add → CText.negativeConstant? rhs = none
  · rw [ofBinary_of_ne hsum, CExpr.writtenBinary_of_none hsum]
    split
    · rename_i hunsigned
      simp only [read?, hleft, hright, Option.bind_some, CReading.applyPrefix?,
        CReading.applyInfix?, InfixOp.unsigned?_ofBinOp hunsigned, Option.map_some]
    · rename_i hsigned
      simp only [read?, hleft, hright, Option.bind_some, CReading.applyInfix?,
        InfixOp.signed_ofBinOp hsigned]
  · obtain ⟨rfl, hsome⟩ := Classical.not_imp.mp hsum
    obtain ⟨k, hk⟩ := Option.ne_none_iff_exists'.mp hsome
    rw [CExpr.writtenBinary_of_some hk, hk]
    simp only [ofBinary, read?, hleft, Option.bind_some]
    rfl

theorem read?_ofExpr {e : Expr} (he : e.Printable) :
    (ofExpr e).read? = some (.plain (CExpr.ofExpr e).written) := by
  induction e with
  | const value => exact read?_ofConst value
  | sym symbol =>
      by_cases hframe : symbol = .framePtr
      · subst hframe
        rfl
      · rw [ofExpr_sym hframe, CExpr.ofExpr_sym hframe]
        rfl
  | mem ptr size ih =>
      rw [ofExpr, CExpr.ofExpr]
      cases ptr.frameOffset? with
      | some offset => rfl
      | none =>
          simp only [read?, ih he.2, Option.bind_some]
          rfl
  | port p size ih =>
      simp only [ofExpr, read?, ih he.2, Option.bind_some]
      rfl
  | unary op arg ih =>
      simp only [ofExpr, read?, ih he.2, Option.bind_some]
      cases op with
      | neg => exact applyPrefix?_neg (he.1 rfl)
      | not => rfl
      | lnot => rfl
  | binary op lhs rhs ihl ihr =>
      rw [ofExpr, CExpr.ofExpr]
      cases (Expr.binary op lhs rhs).frameOffset? with
      | some offset => rfl
      | none => exact read?_ofBinary (ihl he.1) (ihr he.2)

end CTree

/-- Printed expressions are unambiguous: the text of a reduced expression is read as
what it shows, and that is the expression but for its spelling. -/
theorem CExpr.ofText?_expr {e : Expr}
    (hnamed : ∀ symbol, e.references symbol → symbol.isNamed = false)
    (hsizes : ∀ size ∈ e.accessSizes, size < 32) :
    ofText? (CText.expr (ofExpr e.reduce)) = some (ofExpr e.reduce).written ∧
      Respelled (ofExpr e.reduce) (ofExpr e.reduce).written := by
  have hprintable := Expr.printable_reduce hnamed hsizes
  refine ⟨?_, respelled_written e.reduce⟩
  rw [ofText?, parse_expr hprintable, Option.bind_some, CTree.read?_ofExpr hprintable]
  rfl

/-- An unsigned comparison of a difference below a sign with a stack variable. -/
theorem CExpr.ofText?_expr_below :
    let e : Expr := .binary .ult
      (.binary .sub (.unary .neg (.mem (.reg .esi) 2)) (.const 4))
      (.mem (.binary .sub (.sym .framePtr) (.const 12)) 4)
    CText.expr (ofExpr e.reduce) = "(unsigned int)(-*(__int16 *)esi - 4) < var_c" ∧
      ofText? "(unsigned int)(-*(__int16 *)esi - 4) < var_c" =
        some (binary .ult (binary .sub (unary .neg (deref (var "esi") 2)) (const 4))
          (var "var_c")) := by
  intro e
  have htext : CText.expr (ofExpr e.reduce) = "(unsigned int)(-*(__int16 *)esi - 4) < var_c" := by
    decide +kernel
  have hsymbols : ∀ symbol ∈ e.symbols, symbol.isNamed = false := by decide
  have hnamed : ∀ symbol, e.references symbol → symbol.isNamed = false := fun symbol h =>
    hsymbols symbol (Expr.references_iff_mem_symbols.mp h)
  have hsizes : ∀ size ∈ e.accessSizes, size < 32 := by decide
  have hread := (ofText?_expr hnamed hsizes).1
  rw [htext] at hread
  exact ⟨htext, hread⟩

end Uncompile
