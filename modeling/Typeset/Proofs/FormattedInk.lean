import Typeset.Job
import Typeset.Proofs.Modelica.SteadyRules

/-!
# The ink of formatted trees

A Modelica tree that can be printed as a document is formatted under all options, and the
options decide about spaces, tabs and line breaks only: the ink of the text is that of the
document.

## Main results

* `formatTree_of_renderDoc`, `formatTree_of_print_error` : a tree is formatted as its document is
  rendered, and not at all if it has none.
* `exists_formatTree_ink` : the formatted text has the ink of the document.
* `formatTree_ink_eq_of_options` : two formatted texts of a tree have the same ink.
-/

namespace Typeset

open Text

namespace Job

theorem ink_endLine (s : String) : ink (endLine s).toList = ink s.toList := by
  rw [endLine]
  split
  · rfl
  · rw [String.toList_push, ink_append]
    exact List.append_nil _

/-- A tree that is printed as a document is formatted as the document is rendered, with its last
line ended. -/
theorem formatTree_of_renderDoc {o : Options} {n : Node} {d : Doc} {record : LogRecord}
    {s : String} (h : Modelica.print n = .ok (d, record)) (hs : renderDoc o d = .ok s) :
    (formatTree o [] n).outcome = .ok (endLine s) := by
  have hprint : printTree n = ⟨[record], .ok d⟩ := by rw [printTree, h]
  show (((printTree n).andThen fun d => render o [] (.doc d)).outcome.map endLine) = _
  rw [hprint]
  show (render o [] (.doc d)).outcome.map endLine = _
  rw [render_of_renderDoc hs]
  rfl

/-- A tree that cannot be printed is not formatted, for the same reason. -/
theorem formatTree_of_print_error (o : Options) {n : Node} {e : PrintError}
    (h : Modelica.print n = .error e) :
    (formatTree o [] n).outcome = .error (.printing e) := by
  show (((printTree n).andThen fun d => render o [] (.doc d)).outcome.map endLine) = _
  rw [printTree, h]
  rfl

/-- A tree that is printed as a document is formatted under all options, and the text has the
ink of the document. -/
theorem exists_formatTree_ink (o : Options) {n : Node} {d : Doc} {record : LogRecord}
    (h : Modelica.print n = .ok (d, record)) :
    ∃ s, (formatTree o [] n).outcome = .ok s ∧ ink s.toList = d.ink := by
  obtain ⟨s, hs, hink⟩ := exists_renderDoc_ink o (Modelica.isSteady_of_print h)
  exact ⟨endLine s, formatTree_of_renderDoc h hs, by rw [ink_endLine, hink]⟩

/-- The options do not change the tokens of a formatted tree. If a tree can be printed as a
document, then it is formatted under any two options, and the two texts are equal once all
spaces, tabs and line feeds are deleted from them. -/
theorem formatTree_ink_eq_of_options {n : Node} {d : Doc} {record : LogRecord}
    (h : Modelica.print n = .ok (d, record)) (o₁ o₂ : Options) :
    ∃ s₁ s₂, (formatTree o₁ [] n).outcome = .ok s₁ ∧ (formatTree o₂ [] n).outcome = .ok s₂ ∧
      ink s₁.toList = ink s₂.toList := by
  obtain ⟨s₁, h₁, hink₁⟩ := exists_formatTree_ink o₁ h
  obtain ⟨s₂, h₂, hink₂⟩ := exists_formatTree_ink o₂ h
  exact ⟨s₁, s₂, h₁, h₂, hink₁.trans hink₂.symm⟩

/-- A declaration whose value hugs the equals sign, on a wide page and on a narrow one with
tabs. -/
theorem formatTree_ink_eq_of_options_binding :
    let value : Node := ⟨"expression", [⟨"IDENT", [], some "y", none, none⟩], none, none, none⟩
    let n : Node := ⟨"declaration", [⟨"IDENT", [], some "x", none, none⟩,
      ⟨"modification", [value], none, none, none⟩], none, none, none⟩
    let d : Doc := .concat [.lit "x", .concat [.lit " ", .annotated (.lit "=") (.token .operator),
      .indent (.conditional [.concat [.lit " ", .lit "y"], .concat [.lit " ", .lit "y"]]
        (.concat [.line .soft, .lit "y"]))]]
    let narrow : Options := { printWidth := 1, useTabs := true }
    Modelica.print n = .ok (d, .printed 5 "declaration") ∧
      ∃ s₁ s₂, (formatTree .usual [] n).outcome = .ok s₁ ∧
        (formatTree narrow [] n).outcome = .ok s₂ ∧ ink s₁.toList = ink s₂.toList := by
  intro value n d narrow
  have h : Modelica.print n = .ok (d, .printed 5 "declaration") :=
    toOption_eq_some_iff.mp (by decide +kernel)
  exact ⟨h, formatTree_ink_eq_of_options h .usual narrow⟩

end Job

end Typeset
