import Typeset.Outcome
import Typeset.Text.DecimalDigit
import Typeset.Text.Word
import Typeset.Tree.Node
import Typeset.Tree.Sexp.Token

/-!
# Reading printed trees

A printed node is a parenthesis around its kind, its span and its children, each child after
the name of its field if it fills one:
`(kind [row, column] - [row, column] field: (child) (child))`. The kind of a missing node is
followed by the name of what is missing. The text of a node with a span is cut from the
source.

Reading goes from left to right and stops at the first fault. The readers return what is
left of the tokens; reading a node leaves fewer tokens than there were.

## Main definitions

* `Sexp.readNode`, `Sexp.readItems` : a node, and children up to a closing parenthesis.
* `Sexp.read` : the tree that a text prints, over a source.
-/

namespace Typeset.Sexp

open Text

/-- The text that a tree is read from: where it ends, and the lines of the source. -/
structure Input where
  /-- The length of the printed tree. -/
  length : Nat
  /-- The lines of the source. -/
  lines : List (List Char)

/-- The offset of the next token, or of the end. -/
def Input.offset (input : Input) : List Lexeme → Nat
  | [] => input.length
  | l :: _ => l.offset

/-- The next token. -/
def next (input : Input) : List Lexeme → Except Error (Token × List Lexeme)
  | [] => .error (.unexpectedEnd input.length)
  | l :: ls => .ok (l.token, ls)

/-- Reads a punctuation character. -/
def expect (input : Input) (c : Char) (ls : List Lexeme) : Except Error (List Lexeme) := do
  let (token, rest) ← next input ls
  if token = .punct c then return rest
  else throw (.expected (.punct c) token (input.offset ls))

/-- Reads a name: an atom or a string. -/
def readName (input : Input) (ls : List Lexeme) : Except Error (String × List Lexeme) := do
  let (token, rest) ← next input ls
  match token.name? with
  | some s => return (s, rest)
  | none => throw (.expectedName token (input.offset ls))

/-- Reads an integer. -/
def readInteger (input : Input) (ls : List Lexeme) : Except Error (Int × List Lexeme) := do
  let (s, rest) ← readName input ls
  match readInt? s with
  | some n => return (n, rest)
  | none => throw (.expectedInteger s (input.offset ls))

/-- Reads a position, such as `[0, 7]`. -/
def readPosition (input : Input) (ls : List Lexeme) : Except Error (Position × List Lexeme) := do
  let ls ← expect input '[' ls
  let (row, ls) ← readInteger input ls
  let ls ← expect input ',' ls
  let (column, ls) ← readInteger input ls
  let ls ← expect input ']' ls
  return (⟨row, column⟩, ls)

/-- Reads a span, such as `[0, 7] - [1, 2]`, if a bracket opens. -/
def readSpan? (input : Input) (ls : List Lexeme) : Except Error (Option Span × List Lexeme) :=
  match ls with
  | ⟨.punct '[', _⟩ :: _ => do
    let (start, ls) ← readPosition input ls
    let ls ← expect input '-' ls
    let (stop, ls) ← readPosition input ls
    return (some ⟨start, stop⟩, ls)
  | _ => return (none, ls)

/-- Reads the rest of a kind: what is missing, after the kind of a missing node. -/
def readMissing (input : Input) (kind : String) (ls : List Lexeme) :
    Except Error (String × List Lexeme) :=
  match ls with
  | l :: _ =>
    if kind = "MISSING" && l.token.name?.isSome then do
      let (name, ls) ← readName input ls
      return ("MISSING " ++ name, ls)
    else return (kind, ls)
  | [] => return (kind, ls)

/-- Reads what stands before the children of a node: its parenthesis, kind and span. -/
def readHead (input : Input) (ls : List Lexeme) :
    Except Error ((String × Option Span) × List Lexeme) := do
  let ls ← expect input '(' ls
  let (kind, ls) ← readName input ls
  let (kind, ls) ← readMissing input kind ls
  let (span, ls) ← readSpan? input ls
  return ((kind, span), ls)

/-! ### Readers leave no more tokens than there were -/

section Length

variable {input : Input} {ls rest : List Lexeme}

theorem length_next {t : Token} (h : next input ls = .ok (t, rest)) :
    rest.length < ls.length := by
  cases ls with
  | nil => simp [next] at h
  | cons l ls => simp only [next, Except.ok.injEq, Prod.mk.injEq] at h; simp [h]

theorem length_expect {c : Char} (h : expect input c ls = .ok rest) :
    rest.length < ls.length := by
  obtain ⟨⟨t, ls'⟩, ht, h⟩ := bind_eq_ok_iff.mp h
  have := length_next ht
  dsimp only at h
  split at h
  · cases h; exact this
  · cases h

theorem length_readName {s : String} (h : readName input ls = .ok (s, rest)) :
    rest.length < ls.length := by
  obtain ⟨⟨t, ls'⟩, ht, h⟩ := bind_eq_ok_iff.mp h
  have := length_next ht
  dsimp only at h
  split at h
  · cases h; exact this
  · cases h

theorem length_readInteger {n : Int} (h : readInteger input ls = .ok (n, rest)) :
    rest.length < ls.length := by
  obtain ⟨⟨s, ls'⟩, hs, h⟩ := bind_eq_ok_iff.mp h
  have := length_readName hs
  dsimp only at h
  split at h
  · cases h; exact this
  · cases h

theorem length_readPosition {p : Position} (h : readPosition input ls = .ok (p, rest)) :
    rest.length < ls.length := by
  simp only [readPosition, bind_eq_ok_iff, Prod.exists] at h
  obtain ⟨ls₁, h₁, row, ls₂, h₂, ls₃, h₃, column, ls₄, h₄, ls₅, h₅, h⟩ := h
  cases h
  have := length_expect h₁
  have := length_readInteger h₂
  have := length_expect h₃
  have := length_readInteger h₄
  have := length_expect h₅
  omega

theorem length_readSpan? {s : Option Span} (h : readSpan? input ls = .ok (s, rest)) :
    rest.length ≤ ls.length := by
  rw [readSpan?.eq_def] at h
  split at h
  · simp only [bind_eq_ok_iff, Prod.exists] at h
    obtain ⟨start, ls₁, h₁, ls₂, h₂, stop, ls₃, h₃, h⟩ := h
    cases h
    have := length_readPosition h₁
    have := length_expect h₂
    have := length_readPosition h₃
    omega
  · cases h; exact Nat.le_refl _

theorem length_readMissing {kind kind' : String}
    (h : readMissing input kind ls = .ok (kind', rest)) : rest.length ≤ ls.length := by
  rw [readMissing.eq_def] at h
  split at h
  · split at h
    · obtain ⟨⟨s, ls'⟩, hs, h⟩ := bind_eq_ok_iff.mp h
      cases h
      exact Nat.le_of_lt (length_readName hs)
    · cases h; exact Nat.le_refl _
  · cases h; exact Nat.le_refl _

theorem length_readHead {head : String × Option Span}
    (h : readHead input ls = .ok (head, rest)) : rest.length < ls.length := by
  simp only [readHead, bind_eq_ok_iff, Prod.exists] at h
  obtain ⟨ls₁, h₁, kind, ls₂, h₂, kind', ls₃, h₃, span, ls₄, h₄, h⟩ := h
  cases h
  have := length_expect h₁
  have := length_readName h₂
  have := length_readMissing h₃
  have := length_readSpan? h₄
  omega

end Length

/-! ### Nodes -/

/-- The text of a node with a span. -/
def nodeText (input : Input) : Option Span → Except Error (Option String)
  | none => return none
  | some span =>
    match span.extract input.lines with
    | some cs => return some (String.ofList cs)
    | none => throw .rowOutOfRange

/-- A reading that leaves fewer than `n` tokens. -/
abbrev Reading (α : Type) (n : Nat) :=
  Except Error { r : α × List Lexeme // r.2.length < n }

mutual

/-- Reads a node that fills the given field. -/
def readNode (input : Input) (field : Option String) (ls : List Lexeme) :
    Reading Node ls.length :=
  match _h : readHead input ls with
  | .error e => .error e
  | .ok ((kind, span), afterHead) =>
    match readItems input afterHead with
    | .error e => .error e
    | .ok ⟨(children, rest), h⟩ =>
      match nodeText input span with
      | .error e => .error e
      | .ok text =>
        .ok ⟨(⟨kind, children, text, span, field⟩, rest), by
          have := length_readHead _h
          simp only at h ⊢; omega⟩
termination_by 2 * ls.length
decreasing_by
  have := length_readHead _h
  omega

/-- Reads children up to the closing parenthesis of their parent. -/
def readItems (input : Input) (ls : List Lexeme) : Reading (List Node) ls.length :=
  match ls with
  | [] => .error (.unexpected none input.length)
  | ⟨.punct ')', _⟩ :: rest => .ok ⟨([], rest), by simp⟩
  | ⟨.punct '(', o⟩ :: rest =>
    match readNode input none (⟨.punct '(', o⟩ :: rest) with
    | .error e => .error e
    | .ok ⟨(child, afterChild), h⟩ =>
      match readItems input afterChild with
      | .error e => .error e
      | .ok ⟨(children, after), h'⟩ =>
        .ok ⟨(child :: children, after), by simp only at h h' ⊢; omega⟩
  | ⟨.atom name, _⟩ :: rest =>
    match _h : expect input ':' rest with
    | .error e => .error e
    | .ok afterColon =>
      match readNode input (some name) afterColon with
      | .error e => .error e
      | .ok ⟨(child, afterChild), h⟩ =>
        match readItems input afterChild with
        | .error e => .error e
        | .ok ⟨(children, after), h'⟩ =>
          .ok ⟨(child :: children, after), by
            have := length_expect _h
            simp only [List.length_cons] at h h' ⊢; omega⟩
  | ⟨token, offset⟩ :: _ => .error (.unexpected (some token) offset)
termination_by 2 * ls.length + 1
decreasing_by
  · simp
  · simp only at h
    omega
  · have := length_expect _h
    simp only [List.length_cons]
    omega
  · have := length_expect _h
    simp only [List.length_cons] at h ⊢
    omega

end

/-- Reads a node and nothing after it. -/
def readTree (input : Input) (ls : List Lexeme) : Except Error Node :=
  match readNode input none ls with
  | .error e => .error e
  | .ok ⟨(node, []), _⟩ => .ok node
  | .ok ⟨(_, l :: _), _⟩ => .error (.trailing l.offset)

/-- The tree that a text prints; the texts of its nodes are cut from the source. -/
def read (s source : String) : Except Error Node := do
  readTree ⟨s.length, lines source.toList⟩ (← tokens s)

end Typeset.Sexp
