import Typeset.Proofs.FormattedInk
import Typeset.Proofs.Modelica.MissingParts

/-!
# Visited nodes are accounted for

Every node that printing comes to is accounted for: if one of them has no rule, then the tree is
not printed, every error is explained by one of them, and if the tree is printed, then each
token that is kept occurs in the formatted text, whatever the options are.

Nodes that a rule passes over are not accounted for. A node without a rule among them goes
unnoticed, and a token among them is lost, as `print_passes_over` shows.

## Main definitions

* `IsSettled` : what is printed at a place shows its tokens, and errors are those of visited
  nodes.
* `IsThorough` : a rule settles a place if everything below it is settled.

## Main results

* `ends_operatorChain` : an operator chain shows its operands.
* `isSettled` : every place is settled.
* `print_accounts_for_visited` : the same for whole trees and their formatted text.
-/

namespace Typeset.Modelica

open Doc Printing Rules

/-! ### Whole trees -/

section Thorough

variable {p : Path} {rule : DocRule}

theorem visits_of_mem {c : Below p} (hc : c ∈ visited p) : Visits p c.1 := .single ⟨c, hc, rfl⟩

/-- What is printed below a place shows its tokens, and its errors are those of visited nodes. -/
def IsSettled (p : Path) : Prop := (printPath rules p).Ends (Shown p) (Traced p)

/-- The rule settles a place if everything below it is settled. -/
def IsThorough (rule : DocRule) (p : Path) : Prop :=
  rules.get? p.node.kind = some rule → (∀ q : Below p, IsSettled q.1) →
    (rule p fun q => printPath rules q.1).Ends (Shown p) (Traced p)

/-- The rules for tokens print their text, as a token or plainly. -/
private theorem get?_rules_token : ∀ kind ∈ tokenKinds,
    rules.get? kind = some Rules.plain ∨ ∃ c, rules.get? kind = some (tokenText c) := by
  simp only [tokenKinds, List.forall_mem_cons]
  exact ⟨.inl rfl, .inr ⟨_, rfl⟩, .inr ⟨_, rfl⟩, .inr ⟨_, rfl⟩, .inr ⟨_, rfl⟩, .inr ⟨_, rfl⟩,
    List.forall_mem_nil _⟩

/-- A token is printed as its text. -/
theorem yields_token {print : Below p → Printing Doc} (hkind : p.node.kind ∈ tokenKinds)
    (hrule : rules.get? p.node.kind = some rule) :
    (rule p print).Yields fun d =>
      ∀ s : Fragment, p.node.textOrEmpty = s.1 → d.shows s = true := by
  rcases get?_rules_token _ hkind with h | ⟨c, h⟩
  · rw [hrule] at h
    cases h
    exact .pure fun s hs => by simp [textOf, hs]
  · rw [hrule] at h
    cases h
    exact .pure fun s hs => by simp [hs]

/-- A name is shown by its text. -/
theorem shown_textOf {q : Path} (hkind : q.node.kind = "IDENT") : Shown q (textOf q.node) := by
  refine .of_visited ?_ (not_lacksPart_of_kind (by rw [hkind]; decide))
    (fun _ s hs => by simp [textOf, hs]) fun c hc => ?_
  · rw [hkind]
    rfl
  · rw [visited, hkind] at hc
    cases hc

/-- A rule that covers the visited children of a place settles it if the place lacks no part and
the rule shows the node itself in case that is a token. -/
theorem CoversAt.ends {own : PrintError → Prop} (h : CoversAt rule p (visited p) own)
    (hown : ∀ e, own e → Stops p e) (hknown : rules.contains p.node.kind = true)
    (hwhole : (rule p fun q => printPath rules q.1).Yields fun _ => ∀ e, ¬ LacksPart p e)
    (htoken : p.node.kind ∈ tokenKinds → (rule p fun q => printPath rules q.1).Yields fun d =>
      ∀ s : Fragment, p.node.textOrEmpty = s.1 → d.shows s = true)
    (hbelow : ∀ q : Below p, IsSettled q.1) :
    (rule p fun q => printPath rules q.1).Ends (Shown p) (Traced p) := by
  have hcovered := h _ (fun c d => Shown c.1 d) (Traced p)
    (fun c hc => (hbelow c).mono (fun _ hd => hd) fun _ he => he.of_visits (visits_of_mem hc))
    (fun c hkind => shown_textOf hkind) fun e he => ⟨p, .refl, hown e he⟩
  refine ((hcovered.and hwhole).and fun d n hd hkind => htoken hkind d n hd).mono (fun d hd => ?_)
    fun _ he => he
  refine .of_visited hknown hd.1.2 hd.2 fun c hc => ?_
  obtain ⟨e, he, hs⟩ := hd.1.1 c hc
  exact ⟨e, he, fun _ s h => by simpa using hs s h⟩

theorem CoversAt.isThorough {own : PrintError → Prop} (h : CoversAt rule p (visited p) own)
    (hown : ∀ e, own e → Stops p e) : IsThorough rule p := fun hrule hbelow =>
  h.ends hown (by rw [RuleTable.contains, hrule]; rfl) (yields_whole hrule _)
    (fun hkind => yields_token hkind hrule) hbelow

/-- Every rule of an entry of the table settles the places of its kinds. -/
def IsThoroughEntry (entry : List String × DocRule) : Prop :=
  ∀ p, p.node.kind ∈ entry.1 → IsThorough entry.2 p

theorem Covers.isThoroughEntry_of {kinds : List String} {pick : Pick}
    {own : Path → PrintError → Prop} (h : Covers rule pick own)
    (hkinds : kinds.map pickOf = kinds.map fun _ => pick)
    (hown : ∀ p e, p.node.kind ∈ kinds → own p e → Stops p e) :
    IsThoroughEntry (kinds, rule) := by
  intro p hkind
  have hvisited : visited p = pick p := by
    rw [visited, List.map_inj_left.mp hkinds _ hkind]
  have hcovers := h p
  rw [← hvisited] at hcovers
  exact hcovers.isThorough fun e he => hown p e hkind he

theorem Covers.isThoroughEntry {kinds : List String} {pick : Pick} (h : Covers rule pick)
    (hkinds : kinds.map pickOf = kinds.map fun _ => pick) : IsThoroughEntry (kinds, rule) :=
  h.isThoroughEntry_of hkinds fun _ _ _ he => he.elim

/-- A rule that prints no child settles the places of kinds for which no child is picked. -/
theorem isThoroughEntry_of_pure {kinds : List String} {text : Path → Doc}
    (hkinds : kinds.map pickOf = kinds.map fun _ _ => []) :
    IsThoroughEntry (kinds, fun p _ => pure (text p)) :=
  (covers_of_pure fun p _ => ⟨text p, rfl⟩).isThoroughEntry hkinds

end Thorough

/-! ### Operator chains -/

section Chains

variable {p : Path}

/-- A chain prints its operands, which are visited, and shows their tokens. It never lacks an
operand. -/
theorem ends_operatorChain {left right : Node} {op : String} {k : Precedence}
    (hkind : p.node.kind = "binary_expression") (hchildren : p.node.children = [left, right])
    (hop : operatorOf p.node = .ok op) (hk : Precedence.ofOperator? op = some k)
    (hclass : (k.isLogical || k.isArithmetic) = true) (hbelow : ∀ q : Below p, IsSettled q.1) :
    (operatorChain k p fun q => printPath rules q.1).Ends (Shown p) (Traced p) := by
  have hprecedence : policy.precedence p.node = .ok (some k) := by
    rw [precedence_of_operator hkind hop, hk]
  have hchain : IsChain p.node := ⟨by rw [hchildren]; rfl, k, hprecedence, hclass⟩
  obtain ⟨operands, operators, hflatten, hlength, hwalked⟩ :=
    exists_flattenChain_walked hkind hchildren hop hk
  have hself : Visits p p := .refl
  have hvisits := hwalked.visits (hself.of_mem_opened hkind _ hchildren)
  rw [operatorChain]
  refine (ends_lift (P := fun flattened => flattened = .chain operands operators)
    (fun flattened h => by rw [hflatten] at h; cases h; rfl)
    fun e h => by rw [hflatten] at h; cases h).bind fun flattened hflattened => ?_
  subst hflattened
  refine (Ends.all fun q hq => (hbelow q).mono (fun _ hd => hd)
    fun _ he => he.of_visits (hvisits q hq)).bind fun docs hdocs => ?_
  refine (ends_lift (P := fun b => policy.isContinuation p = .ok b) (fun _ h => h)
    fun e he => ?_).bind fun continuation hcontinuation => ends_lift (fun d hd => ?_) fun e he => ?_
  · exact ⟨p, .refl, ((isContinuation_eq_error_iff hchain).mp he).stops⟩
  · rw [mapError_eq_ok_iff] at hd
    have hwhole (e : PrintError) : ¬ LacksPart p e := fun hlacks => by
      rw [(isContinuation_eq_error_iff hchain).mpr hlacks] at hcontinuation
      cases hcontinuation
    refine .of_opened hkind hwhole _ hchildren (hwalked.shown
      (continuesBelow_of_mem_opened hprecedence _ hchildren) fun q hq => ?_)
    obtain ⟨e, he, hshown⟩ := exists_mem_of_forall₂ hdocs hq
    exact hshown.mono fun s hs => shows_of_chainOf hd (List.any_eq_true.mpr ⟨e, he, hs⟩)
  · cases docs with
    | nil =>
      rw [List.forall₂_nil_right_iff.mp hdocs] at hlength
      cases hlength
    | cons d docs =>
      have hrest : docs.length = (operators.map operator).length := by
        have := hdocs.length_eq
        simp only [List.length_cons, List.length_map] at this ⊢
        omega
      rw [chainOf, if_pos hrest] at he
      cases he

/-- A binary expression is a chain, or it prints all of its children on one line. -/
theorem thorough_binaryExpression : IsThoroughEntry (["binary_expression"], binaryExpression) := by
  intro p hkind _ hbelow
  have hkind : p.node.kind = "binary_expression" := List.mem_singleton.mp hkind
  obtain ⟨hpick, hknown, -, htoken⟩ : pickOf p.node.kind = Path.children ∧ _ :=
    of_isChainKind (by simp [isChainKind, hkind])
  have hcovers {rule : DocRule} (h : Covers rule Path.children) (hchain : ¬ IsChain p.node) :
      (rule p fun q => printPath rules q.1).Ends (Shown p) (Traced p) := by
    have hp := h p
    rw [← hpick] at hp
    exact hp.ends (fun _ he => he.elim) hknown
      (fun _ _ _ e hlacks => hchain (hlacks.interrupted hkind).1)
      (fun hmem => absurd hmem htoken) hbelow
  show (binaryExpression p _).Ends _ _
  rw [binaryExpression]
  split
  · next htwo =>
    obtain ⟨left, right, hchildren⟩ := List.length_eq_two.mp htwo
    have hop : operatorOf p.node = .ok (operatorBetween p.node left right) := by
      rw [operatorOf, hchildren]
    refine (ends_lift (P := fun op => operatorOf p.node = .ok op) (fun _ h => h)
      fun e he => ?_).bind fun op hop => ?_
    · rw [hop] at he
      cases he
    · split
      · next k hk =>
        split
        · next hclass => exact ends_operatorChain hkind hchildren hop hk hclass hbelow
        · next hclass =>
          refine hcovers (covers_tightExpression op) ?_
          rintro ⟨-, k', hk', hclass'⟩
          rw [precedence_of_operator hkind hop, hk] at hk'
          cases hk'
          exact hclass hclass'
      · next hnone =>
        refine hcovers (covers_tightExpression op) ?_
        rintro ⟨-, k', hk', -⟩
        rw [precedence_of_operator hkind hop, hnone] at hk'
        cases hk'
  · next htwo => exact hcovers covers_spaced fun hchain => htwo hchain.1

end Chains

namespace Rules

theorem thorough_terminals : ∀ entry ∈ terminals, IsThoroughEntry entry := by
  simp only [terminals, List.forall_mem_cons]
  exact ⟨isThoroughEntry_of_pure rfl, isThoroughEntry_of_pure rfl, isThoroughEntry_of_pure rfl,
    isThoroughEntry_of_pure rfl, isThoroughEntry_of_pure rfl, isThoroughEntry_of_pure rfl,
    isThoroughEntry_of_pure rfl, isThoroughEntry_of_pure rfl,
    covers_literal.isThoroughEntry rfl, covers_sequence.isThoroughEntry rfl,
    List.forall_mem_nil _⟩

theorem thorough_classes : ∀ entry ∈ classes, IsThoroughEntry entry := by
  simp only [classes, List.forall_mem_cons]
  exact ⟨covers_storedDefinitions.isThoroughEntry rfl, covers_onLines.isThoroughEntry rfl,
    covers_withinClause.isThoroughEntry rfl, covers_spaced.isThoroughEntry rfl,
    covers_longClassSpecifier.isThoroughEntry rfl, covers_shortClassSpecifier.isThoroughEntry rfl,
    covers_spaced.isThoroughEntry rfl, covers_commaList.isThoroughEntry rfl,
    covers_visibilitySection.isThoroughEntry rfl, List.forall_mem_nil _⟩

theorem thorough_elements : ∀ entry ∈ elements, IsThoroughEntry entry := by
  simp only [elements, List.forall_mem_cons]
  exact ⟨covers_namedElement.isThoroughEntry rfl, covers_importClause.isThoroughEntry rfl,
    covers_extendsClause.isThoroughEntry rfl, covers_constrainingClause.isThoroughEntry rfl,
    covers_componentClause.isThoroughEntry rfl, covers_componentList.isThoroughEntry rfl,
    covers_componentDeclaration.isThoroughEntry rfl,
    covers_conditionAttribute.isThoroughEntry rfl, covers_declaration.isThoroughEntry rfl,
    List.forall_mem_nil _⟩

theorem thorough_modifications : ∀ entry ∈ modifications, IsThoroughEntry entry := by
  have helement : IsThoroughEntry (["element_modification"], elementModification) :=
    covers_elementModification.isThoroughEntry_of rfl fun p e hkind he =>
      ((compactModification?_eq_error_iff (List.mem_singleton.mp hkind)).mp he).stops
  simp only [modifications, List.forall_mem_cons]
  exact ⟨covers_modification.isThoroughEntry rfl, covers_classModification.isThoroughEntry rfl,
    covers_argumentList.isThoroughEntry rfl, helement, covers_redeclaration.isThoroughEntry rfl,
    covers_shortClassDefinition.isThoroughEntry rfl, List.forall_mem_nil _⟩

theorem thorough_connectClause : IsThoroughEntry (["connect_clause"], connectClause) := by
  intro p hkind hrule hbelow
  have hkind : p.node.kind = "connect_clause" := List.mem_singleton.mp hkind
  have hvisited : visited p = ofKinds ["component_reference", "annotation_clause"] p := by
    rw [visited, hkind]
    rfl
  refine (ends_connectClause fun c hc => (hbelow c).mono (fun _ hd => hd)
    fun _ he => he.of_visits (visits_of_mem (hvisited ▸ hc))).mono (fun d hd => ?_) fun _ he => he
  refine .of_visited (by rw [RuleTable.contains, hrule]; rfl)
    (not_lacksPart_of_kind (by rw [hkind]; decide)) (fun hmem => ?_) fun c hc => ?_
  · rw [hkind] at hmem
    exact absurd hmem (by decide)
  · rw [kept, if_pos hkind]
    exact hd c (hvisited ▸ hc)

theorem thorough_statements : ∀ entry ∈ statements, IsThoroughEntry entry := by
  simp only [statements, List.forall_mem_cons]
  exact ⟨(covers_sectionOf _ _).isThoroughEntry rfl, (covers_sectionOf _ _).isThoroughEntry rfl,
    covers_simpleEquation.isThoroughEntry rfl, covers_assignmentStatement.isThoroughEntry rfl,
    thorough_connectClause, covers_forLoop.isThoroughEntry rfl,
    covers_forIndex.isThoroughEntry rfl, (covers_conditionalBlock _).isThoroughEntry rfl,
    (covers_conditionalBlock _).isThoroughEntry rfl,
    (covers_conditionalBlock _).isThoroughEntry rfl,
    (covers_conditionalBlock _).isThoroughEntry rfl,
    (covers_conditionalBlock _).isThoroughEntry rfl, covers_callStatement.isThoroughEntry rfl,
    isThoroughEntry_of_pure rfl, isThoroughEntry_of_pure rfl,
    covers_multipleOutputCall.isThoroughEntry rfl, List.forall_mem_nil _⟩

theorem thorough_expressions : ∀ entry ∈ expressions, IsThoroughEntry entry := by
  have hif : IsThoroughEntry (["if_expression"], ifExpression) :=
    covers_ifExpression.isThoroughEntry_of rfl fun p e hkind he => by
      have hkind := List.mem_singleton.mp hkind
      rcases he with ⟨hfew, rfl⟩ | he
      · exact ⟨.noValueBranch hkind hfew, .inl rfl⟩
      · exact absurd he (isContinuation_ne_error hkind e)
  have hclause : IsThoroughEntry (["else_if_clause"], elseIfClause) :=
    covers_elseIfClause.isThoroughEntry_of rfl fun p e hkind he => by
      obtain ⟨hnone, rfl⟩ := he
      exact (LacksPart.condition (List.mem_singleton.mp hkind) hnone).stops
  simp only [expressions, List.forall_mem_cons]
  exact ⟨hif, hclause, covers_rangeExpression.isThoroughEntry rfl, thorough_binaryExpression,
    covers_unaryExpression.isThoroughEntry rfl,
    covers_parenthesizedExpression.isThoroughEntry rfl,
    covers_arrayConstructor.isThoroughEntry rfl, covers_arrayArguments.isThoroughEntry rfl,
    covers_arrayConcatenation.isThoroughEntry rfl,
    covers_arrayComprehension.isThoroughEntry rfl, covers_arraySubscripts.isThoroughEntry rfl,
    covers_subscript.isThoroughEntry rfl, List.forall_mem_nil _⟩

theorem thorough_calls : ∀ entry ∈ calls, IsThoroughEntry entry := by
  simp only [calls, List.forall_mem_cons]
  exact ⟨covers_functionApplication.isThoroughEntry rfl,
    covers_functionCallArgs.isThoroughEntry rfl, covers_namedArgument.isThoroughEntry rfl,
    covers_functionPartialApplication.isThoroughEntry rfl, covers_reference.isThoroughEntry rfl,
    covers_annotationClause.isThoroughEntry rfl, covers_externalClause.isThoroughEntry rfl,
    List.forall_mem_nil _⟩

end Rules

/-- Whatever is printed at a place shows the tokens that are kept there, and if printing fails,
then for a reason that a visited node gives. -/
theorem isSettled (p : Path) : IsSettled p := by
  refine ends_printPath (fun p h => ⟨p, .refl, .noRule h, .inl rfl⟩)
    (fun p rule hrule hbelow => ?_) p
  obtain ⟨entry, hentry, hkind, rfl⟩ := RuleTable.exists_mem_of_get?_ofList hrule
  simp only [List.mem_append] at hentry
  rcases hentry with (((((h | h) | h) | h) | h) | h) | h
  · exact thorough_terminals entry h p hkind hrule hbelow
  · exact thorough_classes entry h p hkind hrule hbelow
  · exact thorough_elements entry h p hkind hrule hbelow
  · exact thorough_modifications entry h p hkind hrule hbelow
  · exact thorough_statements entry h p hkind hrule hbelow
  · exact thorough_expressions entry h p hkind hrule hbelow
  · exact thorough_calls entry h p hkind hrule hbelow

/-! ### Formatted trees -/

/-- A place at which a part of the source is missing that its rule relies on: the condition of a
clause, an operand of a binary expression around it, or the text of a modification. -/
def IsCutShort (p : Path) : Prop :=
  p.node.kind = "else_if_clause" ∧ p.node.children = [] ∨ p.anyAbove lacksOperand = true ∨
    p.node.kind = "element_modification" ∧ p.node.text = none

/-- Where no part of the source is missing, an error names the node that it is about. -/
theorem FailsAt.namesNode {p : Path} {e : PrintError} (h : FailsAt p e) (hp : ¬ IsCutShort p) :
    Modelica.namesNode e = true := by
  cases h with
  | noRule h | noValueBranch hkind h => rfl
  | noCondition hkind h => exact absurd (.inl ⟨hkind, h⟩) hp
  | noOperator h => exact absurd (.inr (.inl h)) hp
  | noText hkind h => exact absurd (.inr (.inr ⟨hkind, h⟩)) hp

/-- The outcome of printing a tree is that of printing its root. -/
theorem traced_print (n : Node) :
    (∀ e, print n = .error e → Traced (.root n) e) ∧
      ∀ d record, print n = .ok (d, record) → Shown (.root n) d := by
  have hroot : IsSettled (.root n) := isSettled _
  rw [IsSettled] at hroot
  rw [print, printNode]
  cases hprint : printPath rules (.root n) with
  | error e =>
    rw [hprint] at hroot
    refine ⟨fun e' he => ?_, fun d record hd => ?_⟩
    · cases he
      exact hroot
    · cases hd
  | ok r =>
    rw [hprint] at hroot
    refine ⟨fun e he => ?_, fun d record hd => ?_⟩
    · cases he
    · cases hd
      exact hroot

theorem ends_print (n : Node) :
    (∀ e, print n = .error e → Explained (.root n) e) ∧
      ∀ d record, print n = .ok (d, record) → Shown (.root n) d := by
  obtain ⟨herror, hok⟩ := traced_print n
  exact ⟨fun e he => (herror e he).explained, hok⟩

private theorem infix_endLine {cs : List Char} {s : String} (h : cs <:+: s.toList) :
    cs <:+: (Job.endLine s).toList := by
  rw [Job.endLine]
  split
  · exact h
  · rw [String.toList_push]
    exact h.trans (List.prefix_append ..).isInfix

/-- **Nothing that is visited is lost silently.** If printing a tree fails, then for a reason that
a visited node gives. If a visited node has no rule, then printing fails, with an error that
names a node unless a part of the source is missing somewhere. If printing succeeds, then the
tree is formatted under all options, and the text of every kept token occurs in the formatted
text. -/
theorem print_accounts_for_visited (n : Node) :
    (∀ e, print n = .error e → Explained (.root n) e) ∧
    (∀ q, Visits (.root n) q → rules.contains q.node.kind = false →
      ∃ e, print n = .error e ∧
        ((∀ r, Visits (.root n) r → ¬ IsCutShort r) → namesNode e = true)) ∧
    ∀ d record, print n = .ok (d, record) → ∀ o : Options,
      ∃ s, (Job.formatTree o [] n).outcome = .ok s ∧
        ∀ q, Keeps (.root n) q → q.node.kind ∈ tokenKinds →
          q.node.textOrEmpty.toList <:+: s.toList := by
  obtain ⟨herror, hok⟩ := ends_print n
  refine ⟨herror, fun q hq hrule => ?_, fun d record hd o => ?_⟩
  · cases hprint : print n with
    | ok r =>
      have hknown := (hok r.1 r.2 hprint).known q hq
      rw [hrule] at hknown
      cases hknown
    | error e =>
      refine ⟨e, rfl, fun hwhole => ?_⟩
      obtain ⟨r, hr, hfails⟩ := herror e hprint
      exact hfails.namesNode (hwhole r hr)
  · obtain ⟨s, hs, -⟩ := exists_renderDoc_ink o (isSteady_of_print hd)
    refine ⟨Job.endLine s, Job.formatTree_of_renderDoc hd hs, fun q hq hkind => infix_endLine ?_⟩
    by_cases hempty : q.node.textOrEmpty.isEmpty = true
    · have hnil : q.node.textOrEmpty.toList = [] := by simpa using hempty
      rw [hnil]
      exact List.nil_infix
    · let fragment : Fragment := ⟨q.node.textOrEmpty, by simpa using hempty⟩
      have hshown := (hok d record hd).shows q hq hkind fragment rfl
      have hknown := Doc.isKnown_of_isSteady (isSteady_of_print hd)
      exact infix_of_renderDoc (s := fragment) hknown hs hshown

/-- A list of components with a damaged one is not printed; a component with a comment is
formatted with its name and its comment. -/
theorem print_accounts_for_visited_comment :
    let error : Node := ⟨"ERROR", [], some "?", none, none⟩
    let damaged : Node := ⟨"component_list", [error], none, none, none⟩
    let name : Node := ⟨"IDENT", [], some "x", none, none⟩
    let comment : Node := ⟨"comment", [], some "// unit", none, none⟩
    let declaration : Node := ⟨"declaration", [name], none, none, none⟩
    let commented : Node := ⟨"component_declaration", [declaration, comment], none, none, none⟩
    (∃ e, print damaged = .error e ∧ namesNode e = true) ∧
    ∃ s, (Job.formatTree .usual [] commented).outcome = .ok s ∧
      name.textOrEmpty.toList <:+: s.toList ∧ comment.textOrEmpty.toList <:+: s.toList := by
  intro error damaged name comment declaration commented
  refine ⟨?_, ?_⟩
  · have hvisits : Visits (.root damaged) ((Path.root damaged).down error 0) :=
      .single ⟨⟨_, Nat.lt_succ_self _⟩, List.mem_cons_self, rfl⟩
    obtain ⟨e, he, hnames⟩ := (print_accounts_for_visited damaged).2.1 _ hvisits rfl
    refine ⟨e, he, hnames fun r hr => ?_⟩
    -- the list and the damaged component are all that is visited
    have hwhole : ¬ IsCutShort (.root damaged) ∧
        ¬ IsCutShort ((Path.root damaged).down error 0) := by
      simp [IsCutShort, Path.anyAbove, Path.root, Path.down, lacksOperand, damaged, error]
    rcases Relation.ReflTransGen.cases_head hr with rfl | ⟨_, ⟨c, hc, rfl⟩, hrest⟩
    · exact hwhole.1
    · obtain rfl := List.mem_singleton.mp hc
      rcases Relation.ReflTransGen.cases_head hrest with rfl | ⟨_, ⟨c, hc, rfl⟩, -⟩
      · exact hwhole.2
      · cases hc
  · have hsome : (print commented).toOption.isSome = true := by decide +kernel
    obtain ⟨⟨d, record⟩, hprint⟩ := Option.isSome_iff_exists.mp hsome
    rw [toOption_eq_some_iff] at hprint
    obtain ⟨s, hs, htokens⟩ := (print_accounts_for_visited commented).2.2 d record hprint .usual
    have hname : Keeps (.root commented) (((Path.root commented).down declaration 0).down name 0) :=
      .head ⟨⟨_, by decide⟩, List.mem_cons_self, rfl⟩
        (.single ⟨⟨_, by decide⟩, List.mem_cons_self, rfl⟩)
    have hcomment : Keeps (.root commented) ((Path.root commented).down comment 1) :=
      .single ⟨⟨_, by decide⟩, List.mem_cons_of_mem _ List.mem_cons_self, rfl⟩
    have hx := htokens _ hname
    have hunit := htokens _ hcomment
    rw [Path.node_down] at hx hunit
    exact ⟨s, hs, hx (by decide), hunit (by decide)⟩

/-- A declaration passes over children that are neither names nor subscripts nor modifications:
a node without a rule among them goes unnoticed, and a comment is lost. -/
theorem print_passes_over :
    let n : Node := ⟨"declaration", [⟨"IDENT", [], some "x", none, none⟩,
      ⟨"ERROR", [], some "y", none, none⟩, ⟨"comment", [], some "// unit", none, none⟩],
      some "x y // unit", none, none⟩
    rules.contains "ERROR" = false ∧ print n = .ok (.lit "x", .printed 2 "declaration") ∧
      (Job.formatTree .usual [] n).outcome = .ok "x\n" ∧
      ¬ "// unit".toList <:+: "x\n".toList := by
  intro n
  have hprint : print n = .ok (.lit "x", .printed 2 "declaration") :=
    toOption_eq_some_iff.mp (by decide +kernel)
  have hrender : renderDoc .usual (.lit "x") = .ok "x" :=
    toOption_eq_some_iff.mp (by decide +kernel)
  refine ⟨rfl, hprint, ?_, by decide⟩
  exact (Job.formatTree_of_renderDoc hprint hrender).trans rfl

end Typeset.Modelica
