import Uncompile.Proofs.C.Parsing
import Uncompile.Proofs.Expr.Printable

/-!
# The tokens of printed expressions

The text of a printable expression has the tokens of a syntax tree: the tree of
the expression, with a cast under every unsigned operator, a difference for a sum
with a negative constant, and names for stack variables. Two texts that touch
never make one token: no name is reserved, and no sign stands before another.
-/

namespace Uncompile

/-! ## The syntax tree of an expression -/

def PrefixOp.ofUnOp : UnOp → PrefixOp
  | .neg => neg
  | .not => not
  | .lnot => lnot

def InfixOp.ofBinOp : BinOp → InfixOp
  | .add => add | .sub => sub | .mul => mul | .div => div | .mod => mod
  | .and => and | .or => or | .xor => xor
  | .shl => shl | .shr | .sar => shr
  | .eq => eq | .ne => ne
  | .lt | .ult => lt | .le | .ule => le | .gt | .ugt => gt | .ge | .uge => ge
  | .land => land | .lor => lor

namespace CTree

def ofConst (value : Int) : CTree :=
  match CText.negativeMagnitude? value with
  | some absolute => prefixed .neg (number absolute)
  | none => number (toWord value).toNat

def addressOf (offset : Int) : CTree := prefixed .addr (name (stackVarName offset))

/-- A binary operation on the trees of its operands. `absolute` is the magnitude of
a right operand that is a negative constant. -/
def ofBinary (op : BinOp) (lhs rhs : CTree) (absolute : Option Nat) : CTree :=
  match op, absolute with
  | .add, some k => infixed .sub lhs (number k)
  | op, _ =>
    if op.isUnsigned || op = .shr then
      infixed (.ofBinOp op) (prefixed (.cast .unsignedInt) lhs) rhs
    else infixed (.ofBinOp op) lhs rhs

/-- The syntax tree of the C expression for a symbolic one. -/
def ofExpr : Expr → CTree
  | .const value => ofConst value
  | .sym .framePtr => addressOf 0
  | .sym symbol => name symbol.text
  | .mem ptr size =>
    match ptr.frameOffset? with
    | some offset => name (stackVarName offset)
    | none => prefixed .deref (prefixed (.cast (.pointer size)) (ofExpr ptr))
  | .port p size => call (CExpr.portRead size) (ofExpr p)
  | .unary op arg => prefixed (.ofUnOp op) (ofExpr arg)
  | .binary op lhs rhs =>
    match (Expr.binary op lhs rhs).frameOffset? with
    | some offset => addressOf offset
    | none =>
      ofBinary op (ofExpr lhs) (ofExpr rhs) (CText.negativeConstant? (CExpr.ofExpr rhs))

end CTree

/-! ## Names -/

/-- Words that are read as names. -/
def isName (text : String) : Bool := CLexer.isWord text && !isReserved text

/-- Beginnings that make a name of whatever letters and digits follow them. -/
def isNameLead (lead : String) : Bool :=
  CLexer.isWord lead && lead.toList.head? != some '_' &&
    (typeWords ++ otherKeywords).all fun word => !lead.toList.isPrefixOf word.toList

theorem isName_append {lead tail : String} (hlead : isNameLead lead)
    (htail : ∀ c ∈ tail.toList, CLexer.isWordChar c) : isName (lead ++ tail) := by
  simp only [isNameLead, Bool.and_eq_true, List.all_eq_true, Bool.not_eq_true'] at hlead
  obtain ⟨⟨hword, hscore⟩, hkeywords⟩ := hlead
  have hreserved : ∀ word ∈ typeWords ++ otherKeywords, lead ++ tail ≠ word := by
    rintro word hmem rfl
    have hstart : lead.toList.isPrefixOf (lead ++ tail).toList := by
      rw [String.toList_append]
      exact List.isPrefixOf_iff_prefix.mpr (List.prefix_append _ _)
    rw [hkeywords _ hmem] at hstart
    exact Bool.false_ne_true hstart
  cases hchars : lead.toList with
  | nil => simp [CLexer.isWord, hchars] at hword
  | cons first rest =>
      simp only [CLexer.isWord, hchars, Bool.and_eq_true, List.all_eq_true] at hword
      have hfirst : '_' ≠ first := by
        rintro rfl
        simp [hchars] at hscore
      simp only [isName, CLexer.isWord, String.toList_append, hchars, List.cons_append,
        isReserved, isTypeWord, Bool.and_eq_true, List.all_eq_true, List.forall_mem_append,
        Bool.not_eq_true', Bool.or_eq_false_iff, decide_eq_false_iff_not]
      refine ⟨⟨hword.1, hword.2, htail⟩, ⟨?_, ?_⟩, ?_⟩
      · exact fun h => hreserved _ (List.mem_append_left _ h) rfl
      · simp [List.isPrefixOf, hfirst]
      · exact fun h => hreserved _ (List.mem_append_right _ h) rfl

theorem isWordChar_hexDigits (value : Nat) :
    ∀ c ∈ (hexDigits value).toList, CLexer.isWordChar c := by
  rw [hexDigits, String.toList_ofList]
  exact fun c => CLexer.isWordChar_of_mem_toDigits (by decide) (by decide)

theorem isWordChar_decimalText (value : Nat) :
    ∀ c ∈ (decimalText value).toList, CLexer.isWordChar c := by
  rw [Symbol.toList_decimalText]
  exact fun c => CLexer.isWordChar_of_mem_toDigits (by decide) (by decide)

theorem isNameLead_of_mem :
    ∀ lead ∈ ["arg_", "var_", "retaddr", "intrinsic_in", "cr", "dr"], isNameLead lead := by
  decide +kernel

theorem isName_stackVarName (offset : Int) : isName (stackVarName offset) := by
  unfold stackVarName
  split
  · exact isName_append (isNameLead_of_mem "arg_" (by decide)) (isWordChar_hexDigits _)
  · split
    · exact isName_append (isNameLead_of_mem "var_" (by decide)) (isWordChar_hexDigits _)
    · have hempty : ∀ c ∈ "".toList, CLexer.isWordChar c := by simp
      simpa using isName_append (isNameLead_of_mem "retaddr" (by decide)) hempty

theorem isName_portRead (size : Nat) : isName (CExpr.portRead size) :=
  isName_append (isNameLead_of_mem "intrinsic_in" (by decide)) (isWordChar_decimalText (size * 8))

theorem isName_fixed : ∀ symbol ∈ Symbol.fixed, isName symbol.text := by
  decide +kernel

theorem Symbol.isName_text {symbol : Symbol} (h : symbol.isNamed = false) : isName symbol.text := by
  cases symbol with
  | reg r => exact isName_fixed _ (by cases r <;> decide)
  | flag f => exact isName_fixed _ (by cases f <;> decide)
  | special r =>
      cases r with
      | control n =>
          exact isName_append (isNameLead_of_mem "cr" (by decide)) (isWordChar_decimalText n)
      | debug n =>
          exact isName_append (isNameLead_of_mem "dr" (by decide)) (isWordChar_decimalText n)
      | segment seg => exact isName_fixed _ (by cases seg <;> decide)
      | gdtr | idtr | tr | ldtr => exact isName_fixed _ (by decide)
  | framePtr => exact isName_fixed _ (by decide)
  | unknown => exact isName_fixed _ (by decide)
  | named name => exact absurd h.symm Bool.false_ne_true

/-! ## Tokens of printed text -/

namespace CText

theorem enclose_of_le {text : String} {strength least : Nat} (h : least ≤ strength) :
    enclose (text, strength) least = text :=
  if_neg (Nat.not_lt.mpr h)

theorem constant_of_negative {value : Int} {absolute : Nat}
    (h : negativeMagnitude? value = some absolute) :
    exprText (.const value) = ("-" ++ magnitude absolute, unaryStrength) := by
  simp [exprText, constant, h]

theorem constant_of_not_negative {value : Int} (h : negativeMagnitude? value = none) :
    exprText (.const value) = (magnitude (toWord value).toNat, primaryStrength) := by
  simp [exprText, constant, h]

/-- The left operand as it is written, with the cast of an unsigned operator. -/
def leftText (op : BinOp) (lhs : String × Nat) : String :=
  if op.isUnsigned || op = .shr then "(unsigned int)" ++ enclose lhs unaryStrength
  else enclose lhs (strength op)

/-- Only a sum with a negative constant is written with another operator. -/
theorem binaryText_of_ne {op : BinOp} {absolute : Option Nat} (h : op = .add → absolute = none)
    (lhs rhs : String × Nat) :
    binaryText op lhs rhs absolute =
      (leftText op lhs ++ " " ++ op.symbol ++ " " ++ enclose rhs (strength op + 1),
        strength op) := by
  unfold binaryText
  split
  · exact absurd (h rfl) (Option.some_ne_none _)
  · rfl

theorem strength_lt_unary (op : BinOp) : strength op < unaryStrength := by
  cases op <;> decide

theorem binaryText_lt_unary (op : BinOp) (lhs rhs : String × Nat) (absolute : Option Nat) :
    (binaryText op lhs rhs absolute).2 < unaryStrength := by
  unfold binaryText
  split
  · exact strength_lt_unary .sub
  · exact strength_lt_unary op

end CText

theorem CExpr.ofExpr_sym {symbol : Symbol} (h : symbol ≠ .framePtr) :
    CExpr.ofExpr (.sym symbol) = .var symbol.text := by
  cases symbol with
  | framePtr => exact absurd rfl h
  | _ => rfl

theorem CTree.ofExpr_sym {symbol : Symbol} (h : symbol ≠ .framePtr) :
    CTree.ofExpr (.sym symbol) = .name symbol.text := by
  cases symbol with
  | framePtr => exact absurd rfl h
  | _ => rfl

namespace CTree

/-- The text of an expression binds as its tree does. -/
theorem strength_ofExpr (e : Expr) : (CText.exprText (CExpr.ofExpr e)).2 = (ofExpr e).strength := by
  cases e with
  | const value =>
      simp only [CExpr.ofExpr, CText.exprText, ofExpr, ofConst]
      cases CText.negativeMagnitude? value <;> rfl
  | sym symbol => cases symbol <;> rfl
  | mem ptr size =>
      simp only [CExpr.ofExpr, ofExpr]
      cases ptr.frameOffset? <;> rfl
  | port p size => rfl
  | unary op arg => rfl
  | binary op lhs rhs =>
      simp only [CExpr.ofExpr, ofExpr]
      cases (Expr.binary op lhs rhs).frameOffset? with
      | some offset => rfl
      | none =>
          cases h : CText.negativeConstant? (CExpr.ofExpr rhs) <;> cases op <;>
            simp only [CText.exprText, h] <;> rfl

end CTree

open CLexer

/-- The characters that an operand of a prefix operator starts with. -/
def opensOperand (c : Char) : Bool := isWordChar c || c ∈ ['(', '-', '~', '!', '&', '*']

/-- The text of an operand starts with a minus sign only if it is `signed`. -/
inductive Opens (signed : Bool) (text : String) : Prop
  | intro (first : Char) (hhead : text.toList.head? = some first) (hfirst : opensOperand first)
      (hsign : first = '-' → signed)

theorem opens_of_head {text : String} {first : Char} (htext : text.toList.head? = some first)
    (hfirst : opensOperand first ∧ first ≠ '-') (signed : Bool) : Opens signed text :=
  ⟨first, htext, hfirst.1, fun h => absurd h hfirst.2⟩

theorem opens_wordChar {text : String} {first : Char} (htext : text.toList.head? = some first)
    (hfirst : isWordChar first) (signed : Bool) : Opens signed text := by
  have hsign : first ≠ '-' := by
    rintro rfl
    exact absurd hfirst (by decide)
  exact opens_of_head htext ⟨by simp [opensOperand, hfirst], hsign⟩ signed

theorem head_of_isName {text : String} (h : isName text) :
    ∃ first, text.toList.head? = some first ∧ isLetter first := by
  simp only [isName, isWord, Bool.and_eq_true] at h
  cases htext : text.toList with
  | nil => simp [htext] at h
  | cons first tail =>
      simp only [htext, Bool.and_eq_true] at h
      exact ⟨first, rfl, h.1.1⟩

theorem opens_name {text : String} (h : isName text) (signed : Bool) : Opens signed text := by
  obtain ⟨first, hhead, hletter⟩ := head_of_isName h
  exact opens_wordChar hhead (by simp [isWordChar, hletter]) signed

theorem opens_magnitude (value : Nat) (signed : Bool) : Opens signed (CText.magnitude value) := by
  unfold CText.magnitude
  split
  · rename_i hlt
    have htext : (decimalText value).toList.head? = some value.digitChar := by
      rw [Symbol.toList_decimalText, Nat.toDigits_of_lt_base hlt]
      rfl
    exact opens_wordChar htext (isWordChar_digitChar (by omega)) signed
  · have htext : ("0x" ++ hexDigits value).toList.head? = some '0' := by simp
    exact opens_wordChar htext (by decide) signed

theorem opens_append {signed : Bool} {text : String} (h : Opens signed text) (rest : String) :
    Opens signed (text ++ rest) := by
  obtain ⟨first, hhead, hfirst, hsign⟩ := h
  exact ⟨first, by simp [hhead], hfirst, hsign⟩

theorem opens_addressOf (offset : Int) (signed : Bool) :
    Opens signed (CText.exprText (.addrOf (.stackVar offset 4))).1 :=
  opens_of_head (by simp [CText.exprText]) (by decide : opensOperand '&' ∧ _) signed

/-- The text of an operand. Only constants and negations have a sign in front: sums
are in parentheses. -/
theorem opens_operand {e : Expr} (he : e.Printable) :
    Opens (!e.isUnsignedTerm)
      (CText.enclose (CText.exprText (CExpr.ofExpr e)) CText.unaryStrength) := by
  cases e with
  | const value =>
      rw [CExpr.ofExpr]
      cases hsign : CText.negativeMagnitude? value with
      | some absolute =>
          rw [CText.constant_of_negative hsign, CText.enclose_of_le (Nat.le_refl _)]
          exact ⟨'-', by simp, by decide, fun _ => rfl⟩
      | none =>
          rw [CText.constant_of_not_negative hsign, CText.enclose_of_le (by decide)]
          exact opens_magnitude _ _
  | sym symbol =>
      by_cases hframe : symbol = .framePtr
      · subst hframe
        exact opens_addressOf 0 _
      · rw [CExpr.ofExpr_sym hframe, CText.exprText, CText.enclose_of_le (by decide)]
        exact opens_name (Symbol.isName_text he) _
  | mem ptr size =>
      simp only [CExpr.ofExpr]
      cases ptr.frameOffset? with
      | some offset =>
          rw [CText.exprText, CText.enclose_of_le (by decide)]
          exact opens_name (isName_stackVarName offset) _
      | none =>
          simp only [CText.exprText]
          rw [CText.enclose_of_le (Nat.le_refl _)]
          exact opens_of_head (by simp) (by decide : opensOperand '*' ∧ _) _
  | port p size =>
      simp only [CExpr.ofExpr, CText.exprText]
      rw [CText.enclose_of_le (by decide)]
      exact opens_append (opens_append (opens_append (opens_name (isName_portRead size) _) _) _) _
  | unary op arg =>
      simp only [CExpr.ofExpr, CText.exprText]
      rw [CText.enclose_of_le (Nat.le_refl _)]
      cases op with
      | neg => exact ⟨'-', by simp [UnOp.symbol], by decide, fun _ => rfl⟩
      | not => exact opens_of_head (by simp [UnOp.symbol]) (by decide : opensOperand '~' ∧ _) _
      | lnot => exact opens_of_head (by simp [UnOp.symbol]) (by decide : opensOperand '!' ∧ _) _
  | binary op lhs rhs =>
      simp only [CExpr.ofExpr]
      cases (Expr.binary op lhs rhs).frameOffset? with
      | some offset => exact opens_addressOf offset _
      | none =>
          rw [CText.exprText, CText.enclose, if_pos (CText.binaryText_lt_unary ..)]
          exact opens_of_head (by simp) (by decide : opensOperand '(' ∧ _) _

/-! ### Pieces of text -/

theorem lexes_name {text : String} (h : isName text) : Lexes text.toList [.word text] :=
  lexes_word (Bool.and_eq_true_iff.mp h).1

theorem lexes_enclose {text : String × Nat} {tokens : List CToken}
    (h : Lexes text.1.toList tokens) (least : Nat) :
    Lexes (CText.enclose text least).toList (enclosed text.2 least tokens) := by
  unfold CText.enclose enclosed
  split
  · simpa [parenthesised] using h.paren
  · exact h

/-- The type of a cast as it is written. -/
def CastType.text : CastType → String
  | unsignedInt => "unsigned int"
  | pointer size => (CType.ofBytes size).text ++ " *"

theorem lexes_type {type : CastType} (h : type.isNarrow) : Lexes type.text.toList type.tokens := by
  cases type with
  | unsignedInt =>
      have hunsigned : isWord "unsigned" := by decide
      have hint : isWord "int" := by decide
      exact (lexes_word hunsigned).blank (lexes_word hint)
  | pointer size =>
      have hsize : size < 32 := by simpa [CastType.isNarrow] using h
      have hstar : Lexes "*".toList [.punctuator "*"] := lexes_punctuator (by decide)
      simpa [CastType.text, CastType.tokens] using
        (lexes_word (text_ofBytes hsize).1).blank hstar

theorem lexes_cast {type : CastType} (h : type.isNarrow) {text : List Char}
    {tokens : List CToken} (htext : Lexes text tokens) :
    Lexes ('(' :: (type.text.toList ++ ')' :: text)) ((PrefixOp.cast type).tokens ++ tokens) := by
  simpa [PrefixOp.tokens] using (lexes_type h).paren_append htext

/-- The prefix operators of printed text. -/
def signs : List String := ["-", "~", "!", "&", "*"]

/-- The operators with an operand that would make one punctuator of both. -/
def doubled : List (String × Char) := [("-", '-'), ("&", '&')]

theorem doubled_eq :
    (signs.flatMap fun p => ((followers p.toList).filter opensOperand).map fun c => (p, c)) =
      doubled := by
  decide +kernel

theorem lexes_sign {p : String} (hp : p ∈ signs) {text : List Char} {tokens : List CToken}
    {first : Char} (hhead : text.head? = some first) (hfirst : opensOperand first)
    (hdoubled : (p, first) ∉ doubled) (h : Lexes text tokens) :
    Lexes (p.toList ++ text) (.punctuator p :: tokens) := by
  have hsigns : signs ⊆ punctuators := by decide
  apply Lexes.prefixed (hsigns hp) hhead _ h
  intro hfollow
  apply hdoubled
  rw [← doubled_eq]
  have hpair : (p, first) ∈ ((followers p.toList).filter opensOperand).map fun c => (p, c) :=
    List.mem_map.mpr ⟨first, List.mem_filter.mpr ⟨hfollow, hfirst⟩, rfl⟩
  exact List.mem_flatMap.mpr ⟨p, hp, hpair⟩

/-- An operator in front of an operand; a minus sign only where there is no other. -/
theorem lexes_unOp (op : UnOp) {text : String} {tokens : List CToken} {signed : Bool}
    (hopens : Opens signed text) (hsigned : op = .neg → signed = false)
    (h : Lexes text.toList tokens) :
    Lexes (op.symbol ++ text).toList (.punctuator op.symbol :: tokens) := by
  obtain ⟨first, hhead, hfirst, hminus⟩ := hopens
  have hdoubled : (op.symbol, first) ∉ doubled := by
    cases op with
    | neg =>
        have hne : first ≠ '-' := fun hfirst =>
          Bool.false_ne_true ((hsigned rfl).symm.trans (hminus hfirst))
        simp [doubled, UnOp.symbol, hne]
    | not | lnot => simp [doubled, UnOp.symbol]
  have hsign : op.symbol ∈ signs := by cases op <;> decide
  rw [String.toList_append]
  exact lexes_sign hsign hhead hfirst hdoubled h

theorem lexes_addressOf (offset : Int) :
    Lexes (CText.exprText (.addrOf (.stackVar offset 4))).1.toList
      (CTree.addressOf offset).tokens := by
  have hname := isName_stackVarName offset
  obtain ⟨first, hhead, hletter⟩ := head_of_isName hname
  have hfirst : opensOperand first := by simp [opensOperand, isWordChar, hletter]
  have hne : first ≠ '&' := by
    rintro rfl
    exact absurd hletter (by decide)
  have htext : (CText.exprText (.addrOf (.stackVar offset 4))).1.toList =
      "&".toList ++ (stackVarName offset).toList := by
    rw [CText.exprText, CText.exprText, CText.enclose_of_le (by decide), String.toList_append]
  rw [htext]
  exact lexes_sign (by decide) hhead hfirst (by simp [doubled, hne]) (lexes_name hname)

/-! ### Operators -/

namespace InfixOp

theorem level_ofBinOp (op : BinOp) : (ofBinOp op).level = CText.strength op := by
  cases op <;> rfl

theorem text_ofBinOp (op : BinOp) : (ofBinOp op).text = op.symbol := by
  cases op <;> rfl

end InfixOp

theorem lexes_infixOp (op : InfixOp) {left right : List Char} {leftTokens rightTokens : List CToken}
    (hleft : Lexes left leftTokens) (hright : Lexes right rightTokens) :
    Lexes (left ++ ' ' :: (op.text.toList ++ ' ' :: right))
      (leftTokens ++ .punctuator op.text :: rightTokens) := by
  have hmem : op.text ∈ punctuators := by cases op <;> decide
  exact hleft.blank ((lexes_punctuator hmem).blank hright)

namespace CTree

/-- An operand with the parentheses that its place asks for. -/
def operand (least : Nat) (tree : CTree) : List CToken :=
  enclosed tree.strength least tree.tokens

theorem operand_of_le {least : Nat} {tree : CTree} (h : least ≤ tree.strength) :
    tree.operand least = tree.tokens :=
  if_neg (Nat.not_lt.mpr h)

theorem ofBinary_of_ne {op : BinOp} {absolute : Option Nat} (h : op = .add → absolute = none)
    (lhs rhs : CTree) :
    ofBinary op lhs rhs absolute =
      infixed (.ofBinOp op)
        (if op.isUnsigned || op = .shr then prefixed (.cast .unsignedInt) lhs else lhs) rhs := by
  unfold ofBinary
  split
  · exact absurd (h rfl) (Option.some_ne_none _)
  · split <;> rfl

end CTree

variable {lhs rhs : CTree} {leftText rightText : String × Nat}

/-- The left operand of an operator, with a cast if the operator is unsigned. -/
theorem lexes_leftText (op : BinOp)
    (hleft : ∀ least, Lexes (CText.enclose leftText least).toList (lhs.operand least)) :
    Lexes (CText.leftText op leftText).toList
      (CTree.operand (InfixOp.ofBinOp op).level
        (if op.isUnsigned || op = .shr then .prefixed (.cast .unsignedInt) lhs else lhs)) := by
  unfold CText.leftText
  split
  · have hstrength : (InfixOp.ofBinOp op).level ≤ 14 := (InfixOp.level_lt _).le
    rw [CTree.operand_of_le hstrength]
    have htext : ("(unsigned int)" ++ CText.enclose leftText CText.unaryStrength).toList =
        '(' :: (CastType.unsignedInt.text.toList ++
          ')' :: (CText.enclose leftText CText.unaryStrength).toList) := String.toList_append
    rw [htext]
    exact lexes_cast rfl (hleft CText.unaryStrength)
  · rw [InfixOp.level_ofBinOp]
    exact hleft _

theorem lexes_binaryText (op : BinOp) (absolute : Option Nat)
    (hleft : ∀ least, Lexes (CText.enclose leftText least).toList (lhs.operand least))
    (hright : ∀ least, Lexes (CText.enclose rightText least).toList (rhs.operand least)) :
    Lexes (CText.binaryText op leftText rightText absolute).1.toList
      (CTree.ofBinary op lhs rhs absolute).tokens := by
  by_cases hsum : op = .add → absolute = none
  · rw [CText.binaryText_of_ne hsum, CTree.ofBinary_of_ne hsum]
    have hjoined := lexes_infixOp (.ofBinOp op) (lexes_leftText op hleft)
      (hright ((InfixOp.ofBinOp op).level + 1))
    rw [InfixOp.level_ofBinOp, InfixOp.text_ofBinOp] at hjoined
    simpa [CTree.tokens, CTree.operand, InfixOp.level_ofBinOp, InfixOp.text_ofBinOp] using hjoined
  · -- the constant of the difference needs no parentheses
    obtain ⟨rfl, hsome⟩ := Classical.not_imp.mp hsum
    obtain ⟨k, rfl⟩ := Option.ne_none_iff_exists'.mp hsome
    have htext : (CText.binaryText .add leftText rightText (some k)).1.toList =
        (CText.enclose leftText (CText.strength .sub)).toList ++
          ' ' :: (InfixOp.sub.text.toList ++ ' ' :: (CText.magnitude k).toList) := by
      simp [CText.binaryText, InfixOp.text]
    rw [htext]
    exact lexes_infixOp .sub (hleft (CText.strength .sub)) (lexes_magnitude k)

/-- The text of a printable expression has the tokens of its tree. -/
theorem lexes_ofExpr {e : Expr} (he : e.Printable) :
    Lexes (CText.expr (CExpr.ofExpr e)).toList (CTree.ofExpr e).tokens := by
  have henclose : ∀ e : Expr,
      Lexes (CText.expr (CExpr.ofExpr e)).toList (CTree.ofExpr e).tokens → ∀ least,
        Lexes (CText.enclose (CText.exprText (CExpr.ofExpr e)) least).toList
          ((CTree.ofExpr e).operand least) := by
    intro e h least
    rw [CTree.operand, ← CTree.strength_ofExpr]
    exact lexes_enclose h least
  induction e with
  | const value =>
      rw [CText.expr, CExpr.ofExpr, CTree.ofExpr, CTree.ofConst]
      cases hsign : CText.negativeMagnitude? value with
      | some absolute =>
          rw [CText.constant_of_negative hsign]
          exact lexes_unOp .neg (opens_magnitude absolute false) (fun _ => rfl)
            (lexes_magnitude absolute)
      | none =>
          rw [CText.constant_of_not_negative hsign]
          exact lexes_magnitude _
  | sym symbol =>
      by_cases hframe : symbol = .framePtr
      · subst hframe
        exact lexes_addressOf 0
      · rw [CExpr.ofExpr_sym hframe, CTree.ofExpr_sym hframe, CText.expr, CText.exprText]
        exact lexes_name (Symbol.isName_text he)
  | mem ptr size ih =>
      rw [CText.expr, CExpr.ofExpr, CTree.ofExpr]
      cases ptr.frameOffset? with
      | some offset => exact lexes_name (isName_stackVarName offset)
      | none =>
          have hnarrow : (CastType.pointer size).isNarrow := by
            simpa [CastType.isNarrow] using he.1
          have hcast := lexes_cast hnarrow (henclose ptr (ih he.2) CText.unaryStrength)
          have htext : (CText.exprText (.deref (CExpr.ofExpr ptr) size)).1.toList =
              "*".toList ++ '(' :: ((CastType.pointer size).text.toList ++ ')' ::
                (CText.enclose (CText.exprText (CExpr.ofExpr ptr))
                  CText.unaryStrength).toList) := by
            simp [CText.exprText, CastType.text]
          rw [htext]
          exact lexes_sign (by decide) rfl (by decide) (by decide) hcast
  | port p size ih =>
      have hcall := (lexes_name (isName_portRead size)).call (ih he.2)
      simpa [CText.expr, CExpr.ofExpr, CText.exprText, CText.argsText, CTree.ofExpr,
        CTree.tokens, parenthesised] using hcall
  | unary op arg ih =>
      have hoperand := henclose arg (ih he.2) CText.unaryStrength
      have hsigned : op = .neg → (!arg.isUnsignedTerm) = false := fun hneg => by simp [he.1 hneg]
      have hsign := lexes_unOp op (opens_operand he.2) hsigned hoperand
      cases op <;> exact hsign
  | binary op lhs rhs ihl ihr =>
      rw [CText.expr, CExpr.ofExpr, CTree.ofExpr]
      cases (Expr.binary op lhs rhs).frameOffset? with
      | some offset => exact lexes_addressOf offset
      | none =>
          exact lexes_binaryText op _ (henclose lhs (ihl he.1)) (henclose rhs (ihr he.2))

/-! ## Legal trees -/

namespace CTree

theorem isLegal_name {text : String} (h : isName text) : (name text).isLegal :=
  (Bool.and_eq_true_iff.mp h).2

theorem isLegal_ofBinary {op : BinOp} {lhs rhs : CTree} (absolute : Option Nat)
    (hlhs : lhs.isLegal) (hrhs : rhs.isLegal) : (ofBinary op lhs rhs absolute).isLegal := by
  unfold ofBinary
  split
  · simp [isLegal, hlhs]
  · split
    · simp [isLegal, PrefixOp.isNarrow, CastType.isNarrow, hlhs, hrhs]
    · simp [isLegal, hlhs, hrhs]

theorem isLegal_ofExpr {e : Expr} (he : e.Printable) : (ofExpr e).isLegal := by
  induction e with
  | const value =>
      rw [ofExpr, ofConst]
      cases CText.negativeMagnitude? value <;> rfl
  | sym symbol =>
      by_cases hframe : symbol = .framePtr
      · subst hframe
        exact isLegal_name (isName_stackVarName 0)
      · rw [ofExpr_sym hframe]
        exact isLegal_name (Symbol.isName_text he)
  | mem ptr size ih =>
      rw [ofExpr]
      cases ptr.frameOffset? with
      | some offset => exact isLegal_name (isName_stackVarName offset)
      | none => simp [isLegal, PrefixOp.isNarrow, CastType.isNarrow, he.1, ih he.2]
  | port p size ih =>
      have hname := isLegal_name (isName_portRead size)
      exact Bool.and_eq_true_iff.mpr ⟨hname, ih he.2⟩
  | unary op arg ih => cases op <;> exact ih he.2
  | binary op lhs rhs ihl ihr =>
      rw [ofExpr]
      cases (Expr.binary op lhs rhs).frameOffset? with
      | some offset => exact isLegal_name (isName_stackVarName offset)
      | none => exact isLegal_ofBinary _ (ihl he.1) (ihr he.2)

end CTree

/-- Reading the text of a printable expression gives its tree. -/
theorem parse_expr {e : Expr} (he : e.Printable) :
    CParser.parse (lex (CText.expr (CExpr.ofExpr e))) = some (CTree.ofExpr e) := by
  rw [(lexes_ofExpr he).lex_eq]
  exact CParser.parse_tokens (CTree.isLegal_ofExpr he)

end Uncompile
