import Typeset.Text.Blank
import Typeset.Text.Quoted

/-!
# Tokens of printed trees

A printed tree is divided into punctuation, strings and atoms; blanks stand between them. A
string reaches from a double quote to the next one that no backslash escapes and keeps its
escapes; a backslash must not stand before a line feed. An atom is a maximal run of other
characters. Tokens are kept with their offsets.

## Main definitions

* `Sexp.Token`, `Sexp.Lexeme` : a token, and a token with its offset.
* `Sexp.Error` : what can be wrong with a printed tree.
* `Sexp.tokens` : the tokens of a text.

## Main results

* `Sexp.scanString_eq_some` : what a string token takes from the text.
-/

namespace Typeset.Sexp

open Text

/-- A token of a printed tree. -/
inductive Token where
  /-- A punctuation character. -/
  | punct (c : Char)
  /-- A string, without its quotes. -/
  | string (s : String)
  /-- An atom. -/
  | atom (s : String)
  deriving DecidableEq

namespace Token

/-- How a token is shown. -/
def written : Token → String
  | punct c => quoted (String.singleton c)
  | string s => "('str', " ++ quoted s ++ ")"
  | atom s => "('atom', " ++ quoted s ++ ")"

/-- The content of a token that is a name: an atom or a string. -/
def name? : Token → Option String
  | punct _ => none
  | string s | atom s => some s

end Token

/-- A token and its offset in the text. -/
structure Lexeme where
  /-- The token. -/
  token : Token
  /-- Where it starts. -/
  offset : Nat

/-- What can be wrong with a printed tree. -/
inductive Error where
  /-- A string does not end. -/
  | unterminated (offset : Nat)
  /-- The text ends where a token is needed. -/
  | unexpectedEnd (offset : Nat)
  /-- Another token is needed. -/
  | expected (wanted found : Token) (offset : Nat)
  /-- A name is needed. -/
  | expectedName (found : Token) (offset : Nat)
  /-- An integer is needed. -/
  | expectedInteger (found : String) (offset : Nat)
  /-- No child starts with the token, or the text ends among the children. -/
  | unexpected (found : Option Token) (offset : Nat)
  /-- Tokens follow after the tree. -/
  | trailing (offset : Nat)
  /-- The span of a node has a negative row beyond the first line of the source. -/
  | rowOutOfRange
  deriving DecidableEq

namespace Error

/-- Where a printed tree is malformed; a row out of range is no fault of its form. -/
def offset? : Error → Option Nat
  | unterminated o | unexpectedEnd o | expected _ _ o | expectedName _ o
  | expectedInteger _ o | unexpected _ o | trailing o => some o
  | rowOutOfRange => none

/-- The cause of an error in words. -/
def cause : Error → String
  | unterminated _ => "Unterminated string"
  | unexpectedEnd _ => "Unexpected end of input"
  | expected wanted found _ => "Expected " ++ wanted.written ++ ", got " ++ found.written
  | expectedName found _ => "Expected a name, got " ++ found.written
  | expectedInteger found _ => "Expected an integer, got " ++ quoted found
  | unexpected found _ => "Unexpected token " ++ found.elim "None" Token.written
  | trailing _ => "Trailing input"
  | rowOutOfRange => "Row out of range"

/-- The wording of an error. -/
def message (e : Error) : String :=
  e.cause ++ e.offset?.elim "" fun o => " at offset " ++ toString o

end Error

/-- The punctuation characters. -/
def isPunct (c : Char) : Bool := "()[],:-".toList.contains c

/-- The characters of atoms. -/
def isAtomChar (c : Char) : Bool := !(isBlank c || isPunct c || c = '"')

/-- The content of a string and what follows its closing quote, given what follows its
opening quote. -/
def scanString : List Char → Option (List Char × List Char)
  | [] => none
  | '"' :: cs => some ([], cs)
  | ['\\'] => none
  | '\\' :: c :: cs =>
    if c = '\n' then none else (scanString cs).map fun (s, rest) => ('\\' :: c :: s, rest)
  | c :: cs => (scanString cs).map fun (s, rest) => (c :: s, rest)

/-- A string is followed by its closing quote. -/
theorem scanString_eq_some {cs s rest : List Char} (h : scanString cs = some (s, rest)) :
    cs = s ++ '"' :: rest := by
  fun_induction scanString cs generalizing s with
  | case1 => simp at h
  | case2 cs => simp at h; simp [h]
  | case3 => simp at h
  | case4 => simp at h
  | case5 c cs hc ih =>
    obtain ⟨⟨s', rest'⟩, hs, h⟩ := Option.map_eq_some_iff.mp h
    simp only [Prod.mk.injEq] at h
    obtain ⟨rfl, rfl⟩ := h
    simp [ih hs]
  | case6 c cs _ _ _ ih =>
    obtain ⟨⟨s', rest'⟩, hs, h⟩ := Option.map_eq_some_iff.mp h
    simp only [Prod.mk.injEq] at h
    obtain ⟨rfl, rfl⟩ := h
    simp [ih hs]

/-- The tokens of a text that starts at an offset. -/
def lex (offset : Nat) : List Char → Except Error (List Lexeme)
  | [] => .ok []
  | c :: cs =>
    if isBlank c then lex (offset + 1) cs
    else if isPunct c then do return ⟨.punct c, offset⟩ :: (← lex (offset + 1) cs)
    else if c = '"' then
      match _h : scanString cs with
      | none => .error (.unterminated offset)
      | some (s, rest) => do
        return ⟨.string (String.ofList s), offset⟩ :: (← lex (offset + s.length + 2) rest)
    else do
      let atom := c :: cs.takeWhile isAtomChar
      return ⟨.atom (String.ofList atom), offset⟩ ::
        (← lex (offset + atom.length) (cs.dropWhile isAtomChar))
termination_by cs => cs.length
decreasing_by
  · simp
  · simp
  · simp [scanString_eq_some _h]; omega
  · have := (List.dropWhile_sublist isAtomChar (l := cs)).length_le
    simp only [List.length_cons]; omega

/-- The tokens of a text. -/
def tokens (s : String) : Except Error (List Lexeme) := lex 0 s.toList

end Typeset.Sexp
