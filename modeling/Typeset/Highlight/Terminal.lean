import Typeset.Highlight.Style
import Typeset.Outcome

/-!
# Codes of looks

A terminal has codes that change how texts look: one that resets the look, and others that are
asked for by name. What a code is, which names have one and how codes are written is left to the
terminal. The code of a look is put together from a reset and what the look asks for, in a fixed
order; it is missing when the terminal has no code for one of these names.

A code that starts from a reset shows texts in the same way whatever was written before it. The
codes of looks do so on every terminal that writes joined codes one after the other.

## Main definitions

* `Terminal` : the codes of a terminal.
* `Look.code` : the code of a look on a terminal.
* `Palette` : the codes of token classes, and a reset.
* `Palette.IsAbsolute` : the codes start from a reset.
* `Terminal.palette` : the codes of token classes in a style.

## Main results

* `Terminal.isAbsolute_palette` : when the codes of a terminal start from a reset.
-/

namespace Typeset

variable {κ : Type}

/-- The codes of a terminal. -/
structure Terminal (κ : Type) where
  /-- The code that resets the look. -/
  reset : κ
  /-- The code with a name, if there is one. Some colours have names of their own; the code of a
  colour `a` for text is named `a`, and that of text on a background `b` is named `a_on_b`. -/
  named? (colors : List (String × String)) (name : String) : Option κ
  /-- One code and then another one. -/
  join : κ → κ → κ
  /-- What is written for a code. -/
  written : κ → String

/-- A code and then the one with a name. -/
def Terminal.extend (t : Terminal κ) (colors : List (String × String)) (code : κ)
    (name : String) : Except HighlightError κ :=
  match t.named? colors name with
  | some more => .ok (t.join code more)
  | none => .error (.noCode name)

namespace Look

/-- A colour, unless its spelling is empty. -/
def given (color : Option String) : Option String := color.filter (· ≠ "")

/-- The colours of a look under names of their own. -/
def namedColors (l : Look) : List (String × String) :=
  ((given l.color).map ("moprintCurrFg", ·)).toList ++
    ((given l.background).map ("moprintCurrBg", ·)).toList

/-- The name of the code for the colours of a look. A background without a colour of the text
leaves the name in front of it empty. -/
def colorsName (l : Look) : String :=
  (if (given l.color).isSome then "moprintCurrFg" else "") ++
    (if (given l.background).isSome then "_on_moprintCurrBg" else "")

/-- The names of the codes that a look asks for, in order. -/
def codeNames (l : Look) : List String :=
  (if (given l.color).isSome || (given l.background).isSome then [l.colorsName] else []) ++
    (if l.bold then ["bold"] else []) ++ (if l.italic then ["italic"] else []) ++
    (if l.underline then ["underline"] else [])

/-- The code of a look: a reset, and then what the look asks for. -/
def code (t : Terminal κ) (l : Look) : Except HighlightError κ :=
  l.codeNames.foldlM (t.extend l.namedColors) t.reset

end Look

/-- The codes for highlighted text. -/
structure Palette where
  /-- What is written for a token class, if it has a code. -/
  code : TokenClass → Except HighlightError String
  /-- What is written to reset the look. -/
  reset : String

/-- The code of every token class starts from a reset. -/
def Palette.IsAbsolute (p : Palette) : Prop :=
  ∀ c code, p.code c = .ok code → ∃ rest, code = p.reset ++ rest

namespace Terminal

/-- The codes of token classes in a style. -/
def palette (t : Terminal κ) (style : Style) : Palette where
  code c := (Look.code t (style c.scope)).map t.written
  reset := t.written t.reset

section Joined

variable {t : Terminal κ} {colors : List (String × String)} {code code' : κ}
  (hjoin : ∀ a b, t.written (t.join a b) = t.written a ++ t.written b)

include hjoin

/-- Where joined codes are written one after the other, a code that is extended is written
first. -/
theorem exists_written_of_extend {name : String} (h : t.extend colors code name = .ok code') :
    ∃ rest, t.written code' = t.written code ++ rest := by
  rw [extend] at h
  cases hmore : t.named? colors name with
  | none => simp [hmore] at h
  | some more =>
    rw [hmore] at h
    cases h
    exact ⟨t.written more, hjoin code more⟩

theorem exists_written_of_foldlM_extend {names : List String}
    (h : names.foldlM (t.extend colors) code = .ok code') :
    ∃ rest, t.written code' = t.written code ++ rest := by
  induction names generalizing code with
  | nil =>
    cases h
    exact ⟨"", by simp⟩
  | cons name names ih =>
    rw [List.foldlM_cons] at h
    obtain ⟨code₁, hname, hnames⟩ := bind_eq_ok_iff.mp h
    obtain ⟨first, hfirst⟩ := exists_written_of_extend hjoin hname
    obtain ⟨rest, hrest⟩ := ih hnames
    exact ⟨first ++ rest, by rw [hrest, hfirst, String.append_assoc]⟩

/-- The codes of token classes start from a reset if the terminal writes joined codes one after
the other. -/
theorem isAbsolute_palette (style : Style) : (t.palette style).IsAbsolute := by
  intro c s h
  obtain ⟨code, hcode, rfl⟩ := map_eq_ok_iff.mp h
  exact exists_written_of_foldlM_extend hjoin hcode

end Joined

end Terminal

end Typeset
