import Typeset.Text.Cut

/-!
# Positions and spans

A position is a row and a column of a source text, both from zero, and positions are ordered
by row and then by column. A span reaches from one position to another and contains both of
them. Messages count rows and columns from one.

## Main definitions

* `Position`, `Span` : places and stretches of a source text.
* `Span.contains` : whether a position lies in a span.
* `Span.extract` : the stretch of a source text, given as lines.
-/

namespace Typeset

open Text

/-- A place in a source text. -/
structure Position where
  /-- The row, from zero. -/
  row : Int
  /-- The column, from zero. -/
  column : Int
  deriving DecidableEq

namespace Position

/-- Positions are ordered by row and then by column. -/
instance : LE Position where
  le p q := p.row < q.row ∨ p.row = q.row ∧ p.column ≤ q.column

/-- Positions are ordered by row and then by column. -/
instance : LT Position where
  lt p q := p.row < q.row ∨ p.row = q.row ∧ p.column < q.column

instance (p q : Position) : Decidable (p ≤ q) :=
  inferInstanceAs (Decidable (_ ∨ _))

instance (p q : Position) : Decidable (p < q) :=
  inferInstanceAs (Decidable (_ ∨ _))

theorem le_trans {p q r : Position} (hpq : p ≤ q) (hqr : q ≤ r) : p ≤ r := by
  have hpq : p.row < q.row ∨ p.row = q.row ∧ p.column ≤ q.column := hpq
  have hqr : q.row < r.row ∨ q.row = r.row ∧ q.column ≤ r.column := hqr
  show p.row < r.row ∨ p.row = r.row ∧ p.column ≤ r.column
  omega

theorem le_antisymm {p q : Position} (hpq : p ≤ q) (hqp : q ≤ p) : p = q := by
  have hpq : p.row < q.row ∨ p.row = q.row ∧ p.column ≤ q.column := hpq
  have hqp : q.row < p.row ∨ q.row = p.row ∧ q.column ≤ p.column := hqp
  obtain ⟨row, column⟩ := p
  obtain ⟨row', column'⟩ := q
  simp only [mk.injEq] at hpq hqp ⊢
  omega

/-- How a position is shown. -/
def written (p : Position) : String :=
  "Position(" ++ toString p.row ++ ", " ++ toString p.column ++ ")"

/-- How messages name a position. -/
def message (p : Position) : String := toString (p.row + 1) ++ ":" ++ toString (p.column + 1)

end Position

/-- A stretch of a source text. -/
structure Span where
  /-- Where the stretch starts. -/
  start : Position
  /-- Where the stretch stops. -/
  stop : Position
  deriving DecidableEq

namespace Span

/-- Whether a position lies in the span, its ends included. -/
def contains (s : Span) (p : Position) : Bool := s.start ≤ p && p ≤ s.stop

/-- How a span is shown. -/
def written (s : Span) : String := "Span(" ++ s.start.written ++ ", " ++ s.stop.written ++ ")"

/-- How messages name a span. -/
def message (s : Span) : String := s.start.message ++ "-" ++ s.stop.message

/-- The stretch of a source text with the given lines. A span that starts after the last line
is empty. A negative row counts from the end; there is no text if it reaches beyond the
first line. -/
def extract (s : Span) (ls : List (List Char)) : Option (List Char) :=
  if ls.length ≤ s.start.row then some []
  else if s.start.row = s.stop.row then
    (element? ls s.start.row).map fun l => cut l s.start.column s.stop.column
  else do
    let first ← element? ls s.start.row
    let last ←
      if s.stop.row < ls.length then
        (element? ls s.stop.row).map fun l => [cutBefore l s.stop.column]
      else some []
    let middle := cut ls (s.start.row + 1) s.stop.row
    return ['\n'].intercalate (cutFrom first s.start.column :: middle ++ last)

end Span

end Typeset
