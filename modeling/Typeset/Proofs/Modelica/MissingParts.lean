import Typeset.Proofs.Modelica.CoveringRules

/-!
# Parts that rules rely on

Three rules rely on a part of the source without asking whether it is there: the rule for a further
condition of a conditional expression takes its first child, the rule for chains asks for the
operators of the binary expressions above, and the rule for modifications of graphical elements
takes their text. Where the part is missing these rules fail, with an error that does not name the
node. All other failures of the rules themselves name it.

## Main definitions

* `namesNode` : the errors that name the node that cannot be printed.
* `Stops`, `Traced` : why printing fails at a place, and below it, with the part that is missing
  unless the error names the node.

## Main results

* `isContinuation_eq_error_iff`, `compactModification?_eq_error_iff` : what is missing where a rule
  has no answer to its question.
* `yields_whole` : a rule that succeeds lacks no part.
-/

namespace Typeset.Modelica

open Doc Printing Rules

variable {p : Path}

/-! ### Errors -/

/-- Whether an error names the node that cannot be printed. -/
def namesNode : PrintError → Bool
  | .noRule _ _ | .noValueBranch _ _ => true
  | .missingChild | .missingText | .noDocument | .chain _ | .endless => false

/-- Printing fails at a place, and a part is missing there unless the error names the node. -/
def Stops (p : Path) (e : PrintError) : Prop :=
  FailsAt p e ∧ (namesNode e = true ∨ LacksPart p e)

theorem LacksPart.stops {e : PrintError} (h : LacksPart p e) : Stops p e := ⟨h.failsAt, .inr h⟩

/-- The error is that of a visited place at which printing stops. -/
def Traced (p : Path) (e : PrintError) : Prop := ∃ q, Visits p q ∧ Stops q e

theorem Traced.of_visits {q : Path} {e : PrintError} (hq : Visits p q) (h : Traced q e) :
    Traced p e := by
  obtain ⟨r, hr, hstops⟩ := h
  exact ⟨r, hq.trans hr, hstops⟩

theorem Traced.explained {e : PrintError} (h : Traced p e) : Explained p e := by
  obtain ⟨q, hq, hfails, -⟩ := h
  exact ⟨q, hq, hfails⟩

/-! ### What is missing -/

/-- Whether a chain is a continuation is not known exactly if it lacks an operator above it. -/
theorem isContinuation_eq_error_iff (hchain : IsChain p.node) {e : PrintError} :
    policy.isContinuation p = .error e ↔ LacksPart p e := by
  obtain ⟨-, k, hk, -⟩ := id hchain
  have hkind := kind_of_precedence hk
  rw [Policy.isContinuation, decideAbove_eq_error_iff hk]
  constructor
  · rintro ⟨-, rfl, h⟩
    exact .operator hchain h
  · intro h
    cases h with
    | condition hclause => simp [hkind] at hclause
    | operator _ h => exact ⟨rfl, rfl, h⟩
    | text hmodification => simp [hkind] at hmodification

/-- Whether a conditional expression is a continuation is always known. -/
theorem isContinuation_ne_error (hkind : p.node.kind = "if_expression") (e : PrintError) :
    policy.isContinuation p ≠ .error e := by
  have hnone : policy.precedence p.node = .ok none := by
    rw [Policy.precedence, hkind]
    rfl
  rw [Policy.isContinuation, Ne, decideAbove_eq_error_iff hnone]
  simp

/-- The compact form of a modification is not known exactly if it lacks its text. -/
theorem compactModification?_eq_error_iff (hkind : p.node.kind = "element_modification")
    {e : PrintError} : compactModification? p = .error e ↔ LacksPart p e := by
  constructor
  · intro h
    rw [compactModification?] at h
    split at h
    · cases h
    · next name hname =>
      split at h
      · next hcompact =>
        rw [Bool.and_eq_true] at hcompact
        split at h
        · next htext =>
          cases h
          exact .text hkind hname hcompact.2 hcompact.1 htext
        · cases h
      · cases h
  · intro h
    cases h with
    | condition hclause => simp [hkind] at hclause
    | operator hchain =>
      obtain ⟨-, k, hk, -⟩ := hchain
      simp [kind_of_precedence hk] at hkind
    | text _ hname hgraphical habove h =>
      rw [compactModification?, hname]
      simp only [habove, hgraphical, Bool.and_self, if_true, h]
      rfl

/-! ### Rules that succeed -/

/-- A chain that is printed is known to be a continuation or not. -/
theorem yields_isContinuation (hchain : IsChain p.node) (print : Below p → Printing Doc) :
    (binaryExpression p print).Yields fun _ => ∃ b, policy.isContinuation p = .ok b := by
  obtain ⟨hlength, k, hk, hclass⟩ := hchain
  rw [binaryExpression, if_pos hlength]
  refine (yields_lift (P := fun op => operatorOf p.node = .ok op) fun _ h => h).bind
    fun op hop => ?_
  have hop : Precedence.ofOperator? op = some k := by
    rw [precedence_of_operator (kind_of_precedence hk) hop] at hk
    exact Except.ok.inj hk
  rw [hop]
  dsimp only
  rw [if_pos hclass, operatorChain]
  refine (yields_lift (P := fun _ => True) fun _ _ => trivial).bind fun flattened _ => ?_
  cases flattened with
  | single => exact yields_fail _
  | chain operands operators =>
    refine Yields.bind (P := fun _ => True) (fun _ _ _ => trivial) fun docs _ => ?_
    refine (yields_lift (P := fun b => policy.isContinuation p = .ok b) fun _ h => h).bind
      fun b hb => ?_
    exact yields_lift fun _ _ => ⟨b, hb⟩

/-- Where a rule of the table succeeds, no part is missing. -/
theorem yields_whole {rule : DocRule} (hrule : rules.get? p.node.kind = some rule)
    (print : Below p → Printing Doc) :
    (rule p print).Yields fun _ => ∀ e, ¬ LacksPart p e := by
  intro d count hd e hlacks
  cases id hlacks with
  | condition hkind h =>
    have helse : rules.get? "else_if_clause" = some elseIfClause := rfl
    rw [hkind, helse] at hrule
    cases hrule
    rw [elseIfClause, children_eq_nil (by rw [h]; rfl)] at hd
    cases hd
  | operator hchain =>
    obtain ⟨-, k, hk, -⟩ := id hchain
    have hbinary : rules.get? "binary_expression" = some binaryExpression := rfl
    rw [kind_of_precedence hk, hbinary] at hrule
    cases hrule
    obtain ⟨b, hb⟩ := yields_isContinuation hchain print d count hd
    rw [(isContinuation_eq_error_iff hchain).mpr hlacks] at hb
    cases hb
  | text hkind =>
    have hmodification : rules.get? "element_modification" = some elementModification := rfl
    have hfails := (compactModification?_eq_error_iff hkind).mpr hlacks
    rw [hkind, hmodification] at hrule
    cases hrule
    rw [elementModification, hfails] at hd
    cases hd

end Typeset.Modelica
