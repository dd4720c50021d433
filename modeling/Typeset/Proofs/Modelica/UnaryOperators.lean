import Typeset.Proofs.Modelica.ExpressionTokens

/-!
# Operators in front of an operand

The operator of a unary expression is no node: the rule reads it off the front of the text. The
signs are found wherever they stand in front. The word `not` is looked for together with the
space behind it, and so it is found if and only if a space is the first character behind it;
behind any other blank, or directly in front of a parenthesis, the word is not printed at all.

## Main definitions

* `unarySpellings` : the operators as they are spelled.

## Main results

* `solid_unaryParts` : the operator that is printed for a text.
* `unary_operator_kept_iff_space` : when the operator of a unary expression is kept.
* `unary_operator_lost_at_parenthesis` : a negation whose operator is lost.
-/

namespace Typeset.Modelica

open Text Doc Printing Rules

/-- The operators that may stand in front of an operand. -/
def unarySpellings : List String := ["not", "-", "+", ".-", ".+"]

/-- What is printed in front of the operand: the operator that the text starts with, unless it is
`not` and no space follows. -/
theorem solid_unaryParts {op : String} (hop : op ∈ unarySpellings) (rest : List Char) :
    (unaryParts (op.toList ++ rest)).flatMap Doc.solid =
      if op = "not" ∧ rest.head? ≠ some ' ' then [] else op.toList := by
  simp only [unarySpellings, List.mem_cons, List.not_mem_nil, or_false] at hop
  rcases hop with rfl | rfl | rfl | rfl | rfl
  · cases rest with
    | nil => rfl
    | cons c rest =>
      by_cases hc : c = ' '
      · subst hc
        rfl
      · rw [if_pos ⟨rfl, by simpa using hc⟩]
        have hnone : leading? unaryOperators ("not".toList ++ c :: rest) = none := by
          simp [leading?, unaryOperators, List.isPrefixOf, Ne.symm hc]
        rw [unaryParts, hnone]
        rfl
  all_goals rfl

/-- The document of a unary expression with one operand. -/
theorem outcome_printPath_unary {p : Path} {c : Node} {e : Doc}
    (hkind : p.node.kind = "unary_expression") (hchildren : p.node.children = [c])
    (he : (printPath rules (p.down c 0)).outcome = .ok e) :
    (printPath rules p).outcome = .ok (cat (unaryParts p.node.textOrEmpty.toList ++ [e])) := by
  have hrule : rules.get? p.node.kind = some unaryExpression := by rw [hkind]; rfl
  rw [printPath, hrule]
  show (tick >>= fun _ => unaryExpression p _).outcome = _
  rw [outcome_bind]
  show (printChildren p _ >>= _).outcome = _
  rw [outcome_bind, printChildren, Path.children_of_one hchildren, Printing.all, outcome_bind, he]
  rfl

/-- **When the operator of a unary expression is kept.** Consider a unary expression at any place
of a tree, with one operand that is printed as a document and a text that starts with an operator.
The expression is printed, and its text under all options, with all blanks deleted, is that of the
operand with the operator in front, if the operator is a sign or a space follows it. If the
operator is `not` and no space follows, it is the text of the operand alone. -/
theorem unary_operator_kept_iff_space {p : Path} {c : Node} {op : String} {rest : List Char}
    {e : Doc} (hkind : p.node.kind = "unary_expression") (hchildren : p.node.children = [c])
    (hop : op ∈ unarySpellings) (htext : p.node.textOrEmpty.toList = op.toList ++ rest)
    (he : (printPath rules (p.down c 0)).outcome = .ok e) :
    ∃ d, (printPath rules p).outcome = .ok d ∧ ∀ o : Options, ∃ s t,
      renderDoc o d = .ok s ∧ renderDoc o e = .ok t ∧
      ((op = "not" → rest.head? = some ' ') →
        solid s.toList = op.toList ++ solid t.toList) ∧
      (op = "not" → rest.head? ≠ some ' ' → solid s.toList = solid t.toList) := by
  have hd := outcome_printPath_unary hkind hchildren he
  refine ⟨_, hd, fun o => ?_⟩
  obtain ⟨s, hs, hsink⟩ := exists_renderDoc_ink o ((printsSteady_printPath p).of_outcome hd)
  obtain ⟨t, ht, htink⟩ := exists_renderDoc_ink o ((printsSteady_printPath _).of_outcome he)
  have hsolid : solid s.toList =
      (if op = "not" ∧ rest.head? ≠ some ' ' then [] else op.toList) ++ solid t.toList := by
    rw [← solid_ink, hsink, ← solid_ink t.toList, htink, htext]
    show (cat _).solid = _ ++ e.solid
    rw [solid_cat, List.flatMap_append, solid_unaryParts hop, List.flatMap_singleton]
  refine ⟨s, t, hs, ht, fun hspace => ?_, fun hnot hspace => ?_⟩
  · rw [hsolid, if_neg fun h => h.2 (hspace h.1)]
  · rw [hsolid, if_pos ⟨hnot, hspace⟩, List.nil_append]

/-- A negated reference in a sum, with a space and a line break behind the operator. -/
theorem unary_operator_kept_iff_space_negation :
    let x : Node := ⟨"IDENT", [], some "x", none, none⟩
    let n : Node := ⟨"unary_expression", [x], some "not \n x", none, none⟩
    let p := (Path.root ⟨"expression", [n], none, none, none⟩).down n 0
    (printPath rules (p.down x 0)).outcome = .ok (lit "x") ∧
      ∃ d, (printPath rules p).outcome = .ok d ∧ ∀ o : Options, ∃ s t,
        renderDoc o d = .ok s ∧ renderDoc o (lit "x") = .ok t ∧
        solid s.toList = "not".toList ++ solid t.toList := by
  intro x n p
  have he : (printPath rules (p.down x 0)).outcome = .ok (lit "x") :=
    toOption_eq_some_iff.mp (by decide +kernel)
  have hop : "not" ∈ unarySpellings := by decide
  have htext : p.node.textOrEmpty.toList = "not".toList ++ " \n x".toList := by decide
  obtain ⟨d, hd, h⟩ := unary_operator_kept_iff_space rfl rfl hop htext he
  refine ⟨he, d, hd, fun o => ?_⟩
  obtain ⟨s, t, hs, ht, hkept, -⟩ := h o
  exact ⟨s, t, hs, ht, hkept fun _ => rfl⟩

/-- The negation of an expression in parentheses is formatted as the expression: the operator is
lost, and with it the meaning of the program. -/
theorem unary_operator_lost_at_parenthesis :
    let c : Node := ⟨"parenthesized_expression", [⟨"IDENT", [], some "x", none, none⟩],
      some "(x)", none, none⟩
    let n : Node := ⟨"unary_expression", [c], some "not(x)", none, none⟩
    n.textOrEmpty = "not" ++ c.textOrEmpty ∧
      (Job.formatTree .usual [] n).outcome = .ok "(x)\n" ∧
      (Job.formatTree .usual [] c).outcome = .ok "(x)\n" ∧
      solid "(x)\n".toList ≠ "not".toList ++ solid "(x)\n".toList := by
  intro c n
  refine ⟨by decide, ?_, ?_, by decide⟩
  · rw [← toOption_eq_some_iff]
    decide +kernel
  · rw [← toOption_eq_some_iff]
    decide +kernel

end Typeset.Modelica
