import Mathlib.Control.Monad.Basic
import Typeset.Proofs.Modelica.VisitedTokens

/-!
# Why a tree is not formatted

A tree is formatted, or formatting fails for a reason that a visited node gives, and the error names
that node by its kind and its span. The exceptions are the places at which a rule relies on a part
that is missing: there formatting fails without naming the node. The exceptions are real: a tree in
which such a place is visited is never formatted, whatever the options are.

## Main results

* `formatTree_fails_named` : the outcome of formatting, for every tree.
* `formatTree_missing_parts` : trees in which a part is missing.
-/

namespace Typeset.Modelica

/-- **Formatting fails with an error that names a node.** Every tree is formatted, or formatting
fails for a reason that a visited node gives, with an error that names the node unless it lacks a
part. No tree in which a visited node lacks a part is formatted. -/
theorem formatTree_fails_named (o : Options) (n : Node) :
    ((∃ s, (Job.formatTree o [] n).outcome = .ok s) ∨
      ∃ e q, (Job.formatTree o [] n).outcome = .error (.printing e) ∧ Visits (.root n) q ∧
        FailsAt q e ∧ (namesNode e = true ∨ LacksPart q e)) ∧
    ∀ q e, Visits (.root n) q → LacksPart q e → ∀ s, (Job.formatTree o [] n).outcome ≠ .ok s := by
  obtain ⟨herror, hok⟩ := traced_print n
  cases hprint : print n with
  | error e =>
    have hfails := Job.formatTree_of_print_error o hprint
    obtain ⟨q, hq, hstops⟩ := herror e hprint
    refine ⟨.inr ⟨e, q, hfails, hq, hstops⟩, fun _ _ _ _ s hs => ?_⟩
    rw [hfails] at hs
    cases hs
  | ok r =>
    obtain ⟨s, hs, -⟩ := Job.exists_formatTree_ink o hprint
    exact ⟨.inl ⟨s, hs⟩, fun q e hq hlacks => absurd hlacks ((hok r.1 r.2 hprint).whole q hq e)⟩

/-- A sum below a binary expression without a second operand, of which no operator is known. -/
theorem formatTree_fails_named_sum :
    let a : Node := ⟨"IDENT", [], some "a", none, none⟩
    let b : Node := ⟨"IDENT", [], some "b", none, none⟩
    let sum : Node := ⟨"binary_expression", [a, b], some "a + b", none, none⟩
    let n : Node := ⟨"binary_expression", [sum], some "a + b", none, none⟩
    let q : Path := (Path.root n).down sum 0
    Visits (.root n) q ∧ LacksPart q .missingChild ∧
      ∀ s, (Job.formatTree .usual [] n).outcome ≠ .ok s := by
  intro a b sum n q
  have hq : Visits (.root n) q := .single ⟨⟨q, by decide⟩, List.mem_cons_self, rfl⟩
  have hclass : policy.precedence sum = .ok (some .additive) := by decide +kernel
  have hlacks : LacksPart q .missingChild := .operator ⟨rfl, .additive, hclass, rfl⟩ (.here rfl)
  exact ⟨hq, hlacks, (formatTree_fails_named .usual n).2 q _ hq hlacks⟩

/-- An empty further condition, and a modification of a graphical element without its text. -/
theorem formatTree_missing_parts :
    let clause : Node := ⟨"else_if_clause", [], none, none, none⟩
    let line : Node := ⟨"element_modification", [⟨"name", [], some "Line", none, none⟩], none, none,
      none⟩
    let annotation : Node := ⟨"annotation_clause", [line], none, none, none⟩
    (Job.formatTree .usual [] clause).outcome = .error (.printing .missingChild) ∧
      (Job.formatTree .usual [] annotation).outcome = .error (.printing .missingText) ∧
      namesNode .missingChild = false ∧ namesNode .missingText = false := by
  intro clause line annotation
  have hclause : print clause = .error .missingChild := by decide +kernel
  have hannotation : print annotation = .error .missingText := by decide +kernel
  exact ⟨Job.formatTree_of_print_error _ hclause, Job.formatTree_of_print_error _ hannotation, rfl,
    rfl⟩

end Typeset.Modelica
