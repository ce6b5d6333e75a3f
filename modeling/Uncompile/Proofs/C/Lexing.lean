import Mathlib.Data.Nat.Digits.Defs
import Uncompile.C.Text
import Uncompile.Proofs.C.Naming

/-!
# Tokens of C text

C reads its text by longest match: a lexeme goes on for as long as the next
character can belong to it. This file has that reading for words, integers and
punctuators, and says when pieces of text keep their tokens where they are put
together: words and numbers need a blank or a parenthesis behind them,
punctuators a character that does not make a longer one.
-/

namespace Uncompile

inductive CToken where
  | word (text : String)
  | number (value : Nat)
  | punctuator (text : String)
  /-- A lexeme that is no token. -/
  | invalid (text : String)
  deriving DecidableEq

namespace CLexer

/-! ## Integers -/

def digitValue? (c : Char) : Option Nat :=
  if '0' ≤ c ∧ c ≤ '9' then some (c.toNat - '0'.toNat)
  else if 'a' ≤ c ∧ c ≤ 'f' then some (c.toNat - 'a'.toNat + 10)
  else if 'A' ≤ c ∧ c ≤ 'F' then some (c.toNat - 'A'.toNat + 10)
  else none

/-- One more digit of a number in the given base. -/
def appendDigit? (base value : Nat) (c : Char) : Option Nat :=
  (digitValue? c).bind fun digit => if digit < base then some (value * base + digit) else none

/-- The number that all the digits denote. -/
def digitsValue? (base : Nat) (digits : List Char) : Option Nat :=
  digits.foldlM (appendDigit? base) 0

/-- Hexadecimal after `0x`, octal after any other `0`, else decimal. -/
def integer? : List Char → Option Nat
  | '0' :: 'x' :: digits => digitsValue? 16 digits
  | '0' :: digits => digitsValue? 8 digits
  | digits => digitsValue? 10 digits

theorem digitValue?_digitChar {digit : Nat} (h : digit < 16) :
    digitValue? digit.digitChar = some digit := by
  have hall : ∀ d : Fin 16, digitValue? d.val.digitChar = some d.val := by decide
  exact hall ⟨digit, h⟩

theorem digitsValue?_toDigits {base : Nat} (hlow : 1 < base) (hhigh : base ≤ 16) (value : Nat) :
    digitsValue? base (Nat.toDigits base value) = some value := by
  induction value using Nat.strongRecOn with
  | ind value ih =>
      have hdigit : ∀ {sofar digit : Nat}, digit < base →
          appendDigit? base sofar digit.digitChar = some (sofar * base + digit) := by
        intro sofar digit h
        simp [appendDigit?, digitValue?_digitChar (h.trans_le hhigh), h]
      rw [Nat.toDigits_eq_if hlow]
      split
      · rename_i hlt
        simp [digitsValue?, hdigit hlt]
      · rename_i hge
        have hpos : 0 < value := by omega
        have hmod : value % base < base := Nat.mod_lt _ (by omega)
        have hprevious := ih (value / base) (Nat.div_lt_self hpos hlow)
        rw [digitsValue?] at hprevious ⊢
        rw [List.foldlM_append, hprevious]
        simp [hdigit hmod, Nat.div_add_mod']

/-! ## Longest match -/

def isLetter (c : Char) : Bool := c.isAlpha || c == '_'

def isWordChar (c : Char) : Bool := isLetter c || c.isDigit

/-- The punctuators, and what opens a comment. -/
def punctuators : List String :=
  ["[", "]", "(", ")", "\x7b", "\x7d", ".", "->", "++", "--", "&", "*", "+", "-", "~", "!", "/",
    "%", "<<", ">>", "<", ">", "<=", ">=", "==", "!=", "^", "|", "&&", "||", "?", ":", ";", "...",
    "=", "*=", "/=", "%=", "+=", "-=", "<<=", ">>=", "&=", "^=", "|=", ",", "#", "##", "<:", ":>",
    "<%", "%>", "%:", "%:%:", "//", "/*"]

/-- The characters that follow a lexeme in a punctuator. -/
def followers (lexeme : List Char) : List Char :=
  punctuators.filterMap fun p =>
    if lexeme.isPrefixOf p.toList then p.toList[lexeme.length]? else none

/-- Whether a lexeme goes on with a character. Numbers take letters, and a sign
after an exponent. -/
def continues (lexeme : List Char) (c : Char) : Bool :=
  match lexeme with
  | [] => false
  | first :: _ =>
    if isLetter first then isWordChar c
    else if first.isDigit then
      isWordChar c || c == '.' ||
        (c == '+' || c == '-') && lexeme.getLast?.any fun last => last ∈ ['e', 'E', 'p', 'P']
    else c ∈ followers lexeme

/-- The token of a lexeme. -/
def token (lexeme : List Char) : CToken :=
  let text := String.ofList lexeme
  match lexeme with
  | [] => .invalid text
  | first :: _ =>
    if isLetter first then .word text
    else if first.isDigit then
      match integer? lexeme with
      | some value => .number value
      | none => .invalid text
    else if text ∈ punctuators then .punctuator text
    else .invalid text

/-- The lexeme that a character starts. Blanks start none. -/
def opening (c : Char) : List Char := if c.isWhitespace then [] else [c]

def emit (lexeme : List Char) : List CToken := if lexeme = [] then [] else [token lexeme]

/-- Reads on after the lexeme that was begun. -/
def scan (lexeme : List Char) : List Char → List CToken
  | [] => emit lexeme
  | c :: rest =>
    if continues lexeme c then scan (lexeme ++ [c]) rest
    else emit lexeme ++ scan (opening c) rest

/-- The tokens of a text. -/
def lex (text : String) : List CToken := scan [] text.toList

/-! ## Putting text together -/

theorem scan_nil_cons (c : Char) (rest : List Char) :
    scan [] (c :: rest) = scan (opening c) rest := by
  simp [scan, continues, emit]

@[simp]
theorem scan_blank (rest : List Char) : scan [] (' ' :: rest) = scan [] rest :=
  scan_nil_cons ' ' rest

/-- All the characters go on with the lexeme. -/
def absorbs (lexeme : List Char) : List Char → Bool
  | [] => true
  | c :: rest => continues lexeme c && absorbs (lexeme ++ [c]) rest

theorem scan_absorbs {lexeme tail : List Char} (h : absorbs lexeme tail) (rest : List Char) :
    scan lexeme (tail ++ rest) = scan (lexeme ++ tail) rest := by
  induction tail generalizing lexeme with
  | nil => simp
  | cons c tail ih =>
      simp only [absorbs, Bool.and_eq_true] at h
      simp [scan, h.1, ih h.2]

/-- A lexeme ends where the next character does not go on with it. -/
theorem scan_ends {lexeme rest : List Char} (hlexeme : lexeme ≠ [])
    (hrest : ∀ c ∈ rest.head?, continues lexeme c = false) :
    scan lexeme rest = token lexeme :: scan [] rest := by
  cases rest with
  | nil => simp [scan, emit, hlexeme]
  | cons c rest =>
      rw [scan_nil_cons, scan, hrest c rfl, emit, if_neg hlexeme]
      rfl

/-- A lexeme in front of a character that does not go on with it. -/
theorem scan_lexeme {first : Char} {tail rest : List Char} (hfirst : first.isWhitespace = false)
    (htail : absorbs [first] tail)
    (hrest : ∀ c ∈ rest.head?, continues (first :: tail) c = false) :
    scan [] (first :: tail ++ rest) = token (first :: tail) :: scan [] rest := by
  have hopening : opening first = [first] := by simp [opening, hfirst]
  rw [List.cons_append, scan_nil_cons, hopening, scan_absorbs htail]
  exact scan_ends (List.cons_ne_nil _ _) hrest

/-- What stands behind words and numbers: nothing, a blank or a parenthesis. -/
def Boundary (rest : List Char) : Prop := ∀ c ∈ rest.head?, c ∈ [' ', '(', ')']

/-- The text has the given tokens in front of every boundary. -/
def Lexes (text : List Char) (tokens : List CToken) : Prop :=
  ∀ rest, Boundary rest → scan [] (text ++ rest) = tokens ++ scan [] rest

theorem Lexes.lex_eq {text : String} {tokens : List CToken} (h : Lexes text.toList tokens) :
    lex text = tokens := by
  have hend := h [] (by simp [Boundary])
  rw [List.append_nil] at hend
  rw [lex, hend]
  exact List.append_nil tokens

/-! ### Words and numbers -/

theorem isWhitespace_of_isWordChar {c : Char} (h : isWordChar c) : c.isWhitespace = false := by
  by_contra hblank
  simp only [Bool.not_eq_false, Char.isWhitespace, Bool.or_eq_true, decide_eq_true_eq] at hblank
  rcases hblank with ((rfl | rfl) | rfl) | rfl <;> exact absurd h (by decide)

/-- Words and numbers go on with letters and digits. -/
theorem continues_wordChar {first c : Char} (hfirst : isWordChar first) (hc : isWordChar c)
    (seen : List Char) : continues (first :: seen) c := by
  simp only [isWordChar, Bool.or_eq_true] at hfirst
  by_cases hletter : isLetter first
  · simp [continues, hletter, hc]
  · simp [continues, hletter, hfirst.resolve_left hletter, hc]

theorem absorbs_wordChars {first : Char} (hfirst : isWordChar first) {tail : List Char}
    (htail : ∀ c ∈ tail, isWordChar c) (seen : List Char) : absorbs (first :: seen) tail := by
  induction tail generalizing seen with
  | nil => rfl
  | cons c tail ih =>
      obtain ⟨hc, htail⟩ := List.forall_mem_cons.mp htail
      simp only [absorbs, Bool.and_eq_true]
      exact ⟨continues_wordChar hfirst hc seen, ih htail _⟩

/-- A word or a number ends at every boundary. -/
theorem lexes_wordChars {first : Char} {tail : List Char} (hfirst : isWordChar first)
    (htail : ∀ c ∈ tail, isWordChar c) : Lexes (first :: tail) [token (first :: tail)] := by
  intro rest hrest
  apply scan_lexeme (isWhitespace_of_isWordChar hfirst) (absorbs_wordChars hfirst htail [])
  intro c hc
  have hboundary := hrest c hc
  simp only [isWordChar, Bool.or_eq_true] at hfirst
  simp only [List.mem_cons, List.not_mem_nil, or_false] at hboundary
  by_cases hletter : isLetter first
  · rcases hboundary with rfl | rfl | rfl <;> simp [continues, hletter] <;> decide
  · have hdigit := hfirst.resolve_left hletter
    rcases hboundary with rfl | rfl | rfl <;> simp [continues, hletter, hdigit] <;> decide

/-- Text of one word. -/
def isWord (text : String) : Bool :=
  match text.toList with
  | [] => false
  | first :: tail => isLetter first && tail.all isWordChar

theorem lexes_word {text : String} (h : isWord text) : Lexes text.toList [.word text] := by
  unfold isWord at h
  split at h
  · exact absurd h Bool.false_ne_true
  · rename_i first tail htext
    simp only [Bool.and_eq_true, List.all_eq_true] at h
    have htoken : token (first :: tail) = .word text := by
      simp [token, h.1, ← htext]
    rw [htext, ← htoken]
    exact lexes_wordChars (by simp [isWordChar, h.1]) h.2

theorem isWordChar_digitChar {digit : Nat} (h : digit < 16) : isWordChar digit.digitChar := by
  have hall : ∀ d : Fin 16, isWordChar d.val.digitChar := by decide
  exact hall ⟨digit, h⟩

theorem isWordChar_of_mem_toDigits {base : Nat} (hlow : 1 < base) (hhigh : base ≤ 16)
    {value : Nat} {c : Char} (hc : c ∈ Nat.toDigits base value) : isWordChar c := by
  induction value using Nat.strongRecOn with
  | ind value ih =>
      rw [Nat.toDigits_eq_if hlow] at hc
      split at hc
      · rename_i hlt
        rw [List.mem_singleton.mp hc]
        exact isWordChar_digitChar (hlt.trans_le hhigh)
      · rcases List.mem_append.mp hc with hc | hc
        · exact ih (value / base) (Nat.div_lt_self (by omega) hlow) hc
        · rw [List.mem_singleton.mp hc]
          exact isWordChar_digitChar ((Nat.mod_lt _ (by omega)).trans_le hhigh)

/-- Numbers are written so that they are read back. -/
theorem lexes_magnitude (value : Nat) :
    Lexes (CText.magnitude value).toList [.number value] := by
  unfold CText.magnitude
  split
  · rename_i hlt
    have htoken : ∀ d : Fin 10, token [d.val.digitChar] = .number d.val := by decide
    rw [Symbol.toList_decimalText, Nat.toDigits_of_lt_base hlt, ← htoken ⟨value, hlt⟩]
    exact lexes_wordChars (isWordChar_digitChar (by omega)) (by simp)
  · have htext : ("0x" ++ hexDigits value).toList = '0' :: 'x' :: Nat.toDigits 16 value := by
      simp [hexDigits]
    have hdigits : ∀ c ∈ 'x' :: Nat.toDigits 16 value, isWordChar c :=
      List.forall_mem_cons.mpr
        ⟨by decide, fun c => isWordChar_of_mem_toDigits (by decide) (by decide)⟩
    have htoken : token ('0' :: 'x' :: Nat.toDigits 16 value) = .number value := by
      simp only [token, integer?, digitsValue?_toDigits (by decide : 1 < 16) (by decide)]
      rfl
    rw [htext, ← htoken]
    exact lexes_wordChars (by decide) hdigits

/-! ### Punctuators -/

/-- Lexemes that start with neither a letter nor a digit, and that boundaries end. -/
def isPunctuation (lexeme : List Char) : Bool :=
  match lexeme with
  | [] => false
  | first :: tail =>
    !isLetter first && !first.isDigit && !first.isWhitespace && absorbs [first] tail &&
      [' ', '(', ')'].all fun c => c ∉ followers lexeme

theorem isPunctuation_of_mem : ∀ p ∈ punctuators, isPunctuation p.toList := by
  decide +kernel

/-- A punctuator in front of a character that makes no longer one. -/
theorem scan_punctuator {p : String} (hp : p ∈ punctuators) {rest : List Char}
    (hrest : ∀ c ∈ rest.head?, c ∉ followers p.toList) :
    scan [] (p.toList ++ rest) = .punctuator p :: scan [] rest := by
  have hpunctuation := isPunctuation_of_mem p hp
  cases htext : p.toList with
  | nil => simp [isPunctuation, htext] at hpunctuation
  | cons first tail =>
      rw [htext] at hpunctuation hrest
      simp only [isPunctuation, Bool.and_eq_true, Bool.not_eq_true'] at hpunctuation
      obtain ⟨⟨⟨⟨hletter, hdigit⟩, hblank⟩, htail⟩, -⟩ := hpunctuation
      have htoken : token (first :: tail) = .punctuator p := by
        simp [token, hletter, hdigit, ← htext, hp]
      rw [← htoken]
      apply scan_lexeme hblank htail
      intro c hc
      simp [continues, hletter, hdigit, hrest c hc]

theorem lexes_punctuator {p : String} (hp : p ∈ punctuators) :
    Lexes p.toList [.punctuator p] := by
  intro rest hrest
  apply scan_punctuator hp
  intro c hc
  have hboundary := hrest c hc
  have hpunctuation := isPunctuation_of_mem p hp
  unfold isPunctuation at hpunctuation
  split at hpunctuation
  · exact absurd hpunctuation Bool.false_ne_true
  · simp only [Bool.and_eq_true, List.all_eq_true, decide_eq_true_eq] at hpunctuation
    exact hpunctuation.2 c hboundary

/-- No punctuator is longer than a parenthesis that it starts with. -/
theorem followers_paren : followers ['('] = [] ∧ followers [')'] = [] := by
  decide +kernel

@[simp]
theorem scan_open (rest : List Char) :
    scan [] ('(' :: rest) = .punctuator "(" :: scan [] rest :=
  scan_punctuator (p := "(") (by decide) (fun _ _ h => List.not_mem_nil (followers_paren.1 ▸ h))

@[simp]
theorem scan_close (rest : List Char) :
    scan [] (')' :: rest) = .punctuator ")" :: scan [] rest :=
  scan_punctuator (p := ")") (by decide) (fun _ _ h => List.not_mem_nil (followers_paren.2 ▸ h))

theorem lexes_nil : Lexes [] [] := fun _ _ => rfl

namespace Lexes

variable {text left right inner : List Char}
  {tokens leftTokens rightTokens innerTokens : List CToken}

/-- A blank separates. -/
theorem blank (hleft : Lexes left leftTokens) (hright : Lexes right rightTokens) :
    Lexes (left ++ ' ' :: right) (leftTokens ++ rightTokens) := by
  intro rest hrest
  have hfirst := hleft (' ' :: (right ++ rest)) (by simp [Boundary])
  rw [scan_blank, hright rest hrest] at hfirst
  simpa using hfirst

/-- What follows a closing parenthesis needs no blank. -/
theorem paren_append (hinner : Lexes inner innerTokens) (h : Lexes text tokens) :
    Lexes ('(' :: (inner ++ ')' :: text))
      (.punctuator "(" :: (innerTokens ++ .punctuator ")" :: tokens)) := by
  intro rest hrest
  have hparen := hinner (')' :: (text ++ rest)) (by simp [Boundary])
  rw [scan_close, h rest hrest] at hparen
  simpa using hparen

theorem paren (h : Lexes text tokens) :
    Lexes ('(' :: (text ++ [')'])) (.punctuator "(" :: (tokens ++ [.punctuator ")"])) :=
  h.paren_append lexes_nil

/-- A call with one argument. -/
theorem call {name : List Char} {nameTokens : List CToken} (hname : Lexes name nameTokens)
    (h : Lexes text tokens) :
    Lexes (name ++ '(' :: (text ++ [')']))
      (nameTokens ++ .punctuator "(" :: (tokens ++ [.punctuator ")"])) := by
  intro rest hrest
  have hcall := hname ('(' :: (text ++ [')']) ++ rest) (by simp [Boundary])
  rw [h.paren rest hrest] at hcall
  simpa using hcall

/-- A prefix operator that makes no longer punctuator with what follows it. -/
theorem prefixed {p : String} (hp : p ∈ punctuators) {first : Char}
    (hhead : text.head? = some first) (hfirst : first ∉ followers p.toList)
    (h : Lexes text tokens) : Lexes (p.toList ++ text) (.punctuator p :: tokens) := by
  intro rest hrest
  have hoperator : scan [] (p.toList ++ (text ++ rest)) =
      .punctuator p :: scan [] (text ++ rest) :=
    scan_punctuator hp (by simpa [hhead] using hfirst)
  rw [List.append_assoc, hoperator, h rest hrest]
  rfl

end Lexes

end CLexer

end Uncompile
