import Typeset.Proofs.Modelica.Interchangeable
import Typeset.Proofs.Printing

/-!
# Rules cannot tell interchangeable trees apart

At two places with the same label, interchangeable children and the same surroundings a rule
prints the same document or fails with the same error, if what lies below is printed alike. This
is shown for every rule: of the nodes below it a rule sees the labels and what is printed for
them, and of the nodes above it what the surroundings have in common. Only the rule for binary
expressions looks deeper, and it sees the operands of a chain and the operators between them.

## Main definitions

* `Corresponds` : two places at which a rule is run, with the printing below them.
* `Respects` : a rule that prints such places alike.

## Main results

* `agrees_operatorChain` : the chains at two places agree if their operands are interchangeable
  and their operators the same.
* `respects_rules` : every rule of the table respects interchangeable trees.
-/

namespace Typeset.Modelica

open Doc Printing Rules

/-- Two places with the same label, interchangeable children and the same surroundings, where
the printing of what lies below agrees. -/
structure Corresponds {p p' : Path} (print : Below p → Printing Doc)
    (print' : Below p' → Printing Doc) : Prop where
  label_eq : p.node.label = p'.node.label
  children : List.Forall₂ Interchangeable p.node.children p'.node.children
  above : SameSurroundings p.above p'.above
  print : ∀ q q', SamePlace q.1 q'.1 → (print q).Agrees (print' q')

/-- A rule that prints corresponding places alike. -/
def Respects (rule : DocRule) : Prop :=
  ∀ {p p' : Path} {print : Below p → Printing Doc} {print' : Below p' → Printing Doc},
    Corresponds print print' → (rule p print).Agrees (rule p' print')

/-! ### Parts of rules -/

namespace Corresponds

variable {p p' : Path} {print : Below p → Printing Doc} {print' : Below p' → Printing Doc}
  (h : Corresponds print print')

include h

theorem samePlace : SamePlace p p' := ⟨.node h.label_eq h.children, h.above⟩

theorem outline_eq : p.node.outline = p'.node.outline :=
  Interchangeable.outline_eq h.label_eq h.children

theorem text_eq : p.node.text = p'.node.text := (Node.label_eq_iff.mp h.label_eq).2.1

theorem textOrEmpty_eq : p.node.textOrEmpty = p'.node.textOrEmpty := h.samePlace.textOrEmpty_eq

theorem isEmpty_eq : p.node.children.isEmpty = p'.node.children.isEmpty :=
  Node.eq_of_outline (f := fun n => n.children.isEmpty) (fun _ => List.isEmpty_map)
    h.outline_eq

theorem underAnnotationClause_eq : underAnnotationClause p = underAnnotationClause p' :=
  h.above.underAnnotationClause_eq

theorem forall₂ : List.Forall₂ (fun q q' => SamePlace q.1 q'.1) p.children p'.children :=
  forall₂_children h.children fun i => .child h.outline_eq i h.above

theorem agrees_printChildren : (printChildren p print).Agrees (printChildren p' print') :=
  .all h.forall₂ h.print

theorem agrees_selectChild (sel : Selection) {c : Below p} {c' : Below p'}
    (hc : SamePlace c.1 c'.1) : (selectChild sel print c).Agrees (selectChild sel print' c') := by
  rw [selectChild, selectChild, hc.node.kind_eq]
  split
  · exact .refl _
  · exact (h.print c c' hc).map _

theorem agrees_select (sel : Selection) :
    (select sel p print).Agrees (select sel p' print') :=
  .collect h.forall₂ fun _ _ hc => h.agrees_selectChild sel hc

/-- A question about a node and about whether it stands in an annotation. -/
theorem eq_of_outline {α : Type} {f : Path → α}
    (hnode : ∀ n above, f ⟨n.outline, above⟩ = f ⟨n, above⟩)
    (habove : ∀ n above above',
      underAnnotationClause ⟨n, above⟩ = underAnnotationClause ⟨n, above'⟩ →
        f ⟨n, above⟩ = f ⟨n, above'⟩) : f p = f p' :=
  calc f p
    _ = f ⟨p'.node, p.above⟩ :=
      Node.eq_of_outline (f := fun n => f ⟨n, p.above⟩) (fun n => hnode n p.above) h.outline_eq
    _ = f p' := habove _ _ _ h.above.underAnnotationClause_eq

theorem compactModification?_eq : compactModification? p = compactModification? p' := by
  refine h.eq_of_outline (fun n above => ?_) fun n above above' h => ?_
  · rw [compactModification?, compactModification?, n.firstChild?_outline]
    cases n.firstChild? ["name"] <;> rfl
  · rw [compactModification?, compactModification?, h]

theorem compactCall?_eq : compactCall? p = compactCall? p' := by
  refine h.eq_of_outline (fun n above => ?_) fun n above above' h => ?_
  · rw [compactCall?, compactCall?, n.firstChild?_outline]
    cases n.firstChild? ["component_reference", "name"] <;> rfl
  · rw [compactCall?, compactCall?, h]

/-- A list of arguments is no wrapper, so it has as many arguments at both places. -/
theorem hasSingleArgument_eq : hasSingleArgument p.node = hasSingleArgument p'.node := by
  have hcs := h.children
  rw [hasSingleArgument, hasSingleArgument]
  generalize p.node.children = cs at hcs
  generalize p'.node.children = cs' at hcs
  cases hcs with
  | nil => rfl
  | @cons c c' cs cs' hc hcs =>
    cases hcs with
    | cons => rfl
    | nil =>
      dsimp only
      rw [← hc.kind_eq]
      by_cases hkind : c.kind = "function_arguments" ∨ c.kind = "named_arguments"
      · have hno : c.kind ∉ expressionWrappers := by
          rcases hkind with hkind | hkind <;> rw [hkind] <;> decide
        rw [hc.precedence_eq.2 hno]
      · simp [not_or.mp hkind]

end Corresponds

/-- A rule that puts the documents of all children together. -/
theorem respects_of_printChildren (join : List Doc → Doc) :
    Respects fun p print => return join (← printChildren p print) :=
  fun h => h.agrees_printChildren.map join

/-- A rule that puts the documents of the selected children together. -/
theorem respects_of_select (sel : Selection) (join : List Doc → Doc) :
    Respects fun p print => return join (← select sel p print) :=
  fun h => (h.agrees_select sel).map join

/-- A rule that surrounds what another one prints. -/
theorem Respects.map {rule : DocRule} (hrule : Respects rule) (f : Doc → Doc) :
    Respects fun p print => return f (← rule p print) :=
  fun h => (hrule h).map f

namespace Rules

/-! ### Names, literals and wrappers -/

theorem respects_plain : Respects plain := fun h =>
  .of_eq (by rw [plain, plain, textOf, textOf, h.textOrEmpty_eq])

theorem respects_tokenText (c : TokenClass) : Respects (tokenText c) := fun h =>
  .of_eq (by rw [tokenText, tokenText, h.textOrEmpty_eq])

theorem respects_classPrefixes : Respects classPrefixes := fun h =>
  .of_eq (by rw [classPrefixes, classPrefixes, h.textOrEmpty_eq])

theorem respects_sequence : Respects sequence := respects_of_printChildren cat

theorem respects_literal : Respects literal := fun h =>
  .ite (by rw [h.isEmpty_eq]) (respects_plain h) (respects_sequence h)

theorem respects_spaced : Respects spaced := respects_of_printChildren (sepBy space)

theorem respects_commaList : Respects commaList := respects_of_printChildren (sepBy (lit ", "))

theorem respects_onLines : Respects onLines := respects_of_printChildren (sepBy hardLine)

theorem respects_terminals : ∀ entry ∈ terminals, Respects entry.2 := by
  simp [terminals, respects_plain, respects_tokenText, respects_classPrefixes, respects_literal,
    respects_sequence]

/-! ### Files and classes -/

theorem respects_storedDefinitions : Respects storedDefinitions :=
  respects_onLines.map fun d => cat [d, hardLine]

theorem respects_withinClause : Respects withinClause := respects_of_select _ _

/-- An empty element list is left out at both places. -/
private theorem isEmptyList_eq {n n' : Node} (h : Interchangeable n n') :
    (elementLists.contains n.kind && n.children.isEmpty) =
      (elementLists.contains n'.kind && n'.children.isEmpty) := by
  rw [← h.kind_eq]
  cases hkind : elementLists.contains n.kind with
  | false => rfl
  | true =>
    have hno : ∀ kind ∈ elementLists, kind ∉ expressionWrappers := by decide
    have hlength := h.precedence_eq.2 (hno _ (List.contains_iff_mem.mp hkind))
    rw [Bool.eq_iff_iff]
    simp [← List.length_eq_zero_iff, hlength]

theorem respects_longClassSpecifier : Respects longClassSpecifier := by
  intro p p' print print' h
  have hname : p.node.children.foldl classNameAfter "" =
      p'.node.children.foldl classNameAfter "" :=
    Node.eq_of_outline (f := fun n => n.children.foldl classNameAfter "")
      (fun _ => List.foldl_map) h.outline_eq
  rw [longClassSpecifier, longClassSpecifier, hname]
  refine (Agrees.collectFrom h.forall₂ (fun name c c' hc => ?_) (fun name c c' hc => ?_) _).map _
  · rw [classNameAfter, classNameAfter, hc.node.kind_eq, hc.textOrEmpty_eq]
  · exact .ite (by rw [hc.node.kind_eq]) (.of_eq (by rw [hc.textOrEmpty_eq]))
      (.ite (by rw [isEmptyList_eq hc.node]) (.refl _) (h.agrees_selectChild classSections hc))

theorem respects_shortClassSpecifier : Respects shortClassSpecifier := by
  intro p p' print print' h
  refine (Agrees.collect h.forall₂ fun c c' hc => ?_).map _
  exact .ite (by rw [hc.node.kind_eq]) (.of_eq (by rw [hc.textOrEmpty_eq]))
    (h.agrees_selectChild _ hc)

theorem respects_visibilitySection : Respects visibilitySection := by
  intro p p' print print' h
  rw [visibilitySection, visibilitySection, h.samePlace.node.kind_eq]
  exact (respects_onLines h).map _

theorem respects_classes : ∀ entry ∈ classes, Respects entry.2 := by
  simp [classes, respects_storedDefinitions, respects_onLines, respects_withinClause,
    respects_spaced, respects_longClassSpecifier, respects_shortClassSpecifier,
    respects_commaList, respects_visibilitySection]

/-! ### Elements of classes -/

theorem respects_namedElement : Respects namedElement := by
  intro p p' print print' h
  rw [namedElement, namedElement, Node.eq_of_outline leadingWords_outline h.outline_eq]
  exact (h.agrees_select _).map _

theorem respects_importClause : Respects importClause := respects_spaced.map _

theorem respects_extendsClause : Respects extendsClause := respects_of_select _ _

theorem respects_constrainingClause : Respects constrainingClause := respects_spaced.map _

theorem respects_componentClause : Respects componentClause := by
  intro p p' print print' h
  have hwords : leadingText p.node (p.node.firstChild? ["type_specifier"]) =
      leadingText p'.node (p'.node.firstChild? ["type_specifier"]) :=
    Node.eq_of_outline (f := fun n => leadingText n (n.firstChild? ["type_specifier"]))
      (fun n => by rw [n.firstChild?_outline, leadingText_outline]) h.outline_eq
  rw [componentClause, componentClause, hwords]
  exact (h.agrees_select _).map _

theorem respects_componentList : Respects componentList := fun h =>
  h.agrees_printChildren.bind fun _ => .refl _

theorem respects_componentDeclaration : Respects componentDeclaration := respects_of_select _ _

theorem respects_conditionAttribute : Respects conditionAttribute := respects_sequence.map _

theorem respects_declaration : Respects declaration := respects_of_select _ _

theorem respects_elements : ∀ entry ∈ elements, Respects entry.2 := by
  simp [elements, respects_namedElement, respects_importClause, respects_extendsClause,
    respects_constrainingClause, respects_componentClause, respects_componentList,
    respects_componentDeclaration, respects_conditionAttribute, respects_declaration]

/-! ### Modifications -/

theorem respects_modification : Respects modification := by
  intro p p' print print' h
  rw [modification, modification, h.above.parent_eq (passesBy_kind (by decide))]
  exact (h.agrees_select _).map _

theorem respects_classModification : Respects classModification := by
  intro p p' print print' h
  refine .ite (by rw [h.isEmpty_eq]) (.refl _) ?_
  rw [h.underAnnotationClause_eq, h.above.inGraphicalPrimitive_eq, h.above.inArgumentList_eq]
  exact h.agrees_printChildren.map _

theorem respects_argumentList : Respects argumentList := by
  intro p p' print print' h
  rw [argumentList, argumentList, h.underAnnotationClause_eq]
  exact h.agrees_printChildren.map _

theorem respects_elementModification : Respects elementModification := by
  intro p p' print print' h
  rw [elementModification, elementModification, h.compactModification?_eq,
    Node.eq_of_outline leadingWords_outline h.outline_eq]
  refine Agrees.bind (.refl _) fun short => ?_
  cases short with
  | some short => exact .refl _
  | none => exact (h.agrees_select _).map _

theorem respects_redeclaration : Respects redeclaration := by
  intro p p' print print' h
  rw [redeclaration, redeclaration, Node.eq_of_outline leadingWords_outline h.outline_eq]
  exact (h.agrees_select _).map _

theorem respects_shortClassDefinition : Respects shortClassDefinition := respects_of_select _ _

theorem respects_modifications : ∀ entry ∈ modifications, Respects entry.2 := by
  simp [modifications, respects_modification, respects_classModification,
    respects_argumentList, respects_elementModification, respects_redeclaration,
    respects_shortClassDefinition]

/-! ### Equations and statements -/

theorem respects_sectionOf (title bodyKind : String) : Respects (sectionOf title bodyKind) := by
  intro p p' print print' h
  rw [sectionOf, sectionOf, h.textOrEmpty_eq]
  exact (h.agrees_select _).map _

theorem respects_simpleEquation : Respects simpleEquation := by
  intro p p' print print' h
  refine (Agrees.collectFrom h.forall₂ (fun seen c c' hc => ?_) (fun seen c c' hc => ?_) _).map _
  · show ite _ _ _ = ite _ _ _
    rw [hc.isExpression_eq]
  · exact .ite (by rw [hc.isExpression_eq]) ((h.print c c' hc).map _) (h.agrees_selectChild _ hc)

theorem respects_assignmentStatement : Respects assignmentStatement := by
  intro p p' print print' h
  refine (Agrees.collectFrom h.forall₂ (fun seen c c' hc => ?_) (fun seen c c' hc => ?_) _).map _
  · show (_ || decide _) = (_ || decide _)
    rw [hc.node.kind_eq]
  · exact .ite (by rw [hc.isExpression_eq]) ((h.print c c' hc).map _) (h.agrees_selectChild _ hc)

theorem respects_connectClause : Respects connectClause := by
  intro p p' print print' h
  refine (Agrees.collect h.forall₂ fun c c' hc => ?_).map _
  refine .ite (by rw [hc.node.kind_eq]) ?_ (.refl _)
  rw [hc.node.kind_eq]
  exact (h.print c c' hc).map _

theorem respects_forLoop : Respects forLoop := respects_of_select _ _

theorem respects_forIndex : Respects forIndex := by
  intro p p' print print' h
  refine (Agrees.collect h.forall₂ fun c c' hc => ?_).map _
  exact .ite (by rw [hc.node.kind_eq]) (.of_eq (by rw [textOf, textOf, hc.textOrEmpty_eq]))
    (h.agrees_selectChild _ hc)

theorem respects_conditionalBlock (style : BlockStyle) : Respects (conditionalBlock style) := by
  intro p p' print print' h
  refine (Agrees.collectFrom h.forall₂ (fun s c c' hc => ?_) (fun s c c' hc => ?_) _).map _
  · rw [BlockState.after, BlockState.after, hc.isExpression_eq, isBody, isBody, hc.node.kind_eq]
  · have hbody : isBody c.1.node = isBody c'.1.node := by rw [isBody, isBody, hc.node.kind_eq]
    have helse : elseBefore style s c.1.node = elseBefore style s c'.1.node := by
      rw [elseBefore, elseBefore, fillsElse, fillsElse, hc.field_eq]
    refine .ite (by rw [hc.isExpression_eq]) ((h.print c c' hc).map _) (.ite (by rw [hbody]) ?_ ?_)
    · rw [helse]
      exact (h.print c c' hc).map _
    · exact .ite (by rw [hc.node.kind_eq]) ((h.print c c' hc).map _) (h.agrees_selectChild _ hc)

theorem respects_callStatement : Respects callStatement := respects_of_printChildren _

theorem respects_keywordStatement (s : String) : Respects (keywordStatement s) := fun _ => .refl _

theorem respects_multipleOutputCall : Respects multipleOutputCall := respects_of_select _ _

theorem respects_statements : ∀ entry ∈ statements, Respects entry.2 := by
  simp [statements, respects_sectionOf, respects_simpleEquation, respects_assignmentStatement,
    respects_connectClause, respects_forLoop, respects_forIndex, respects_conditionalBlock,
    respects_callStatement, respects_keywordStatement, respects_multipleOutputCall]

/-! ### Expressions -/

theorem respects_ifExpression : Respects ifExpression := by
  intro p p' print print' h
  have hcs := h.forall₂
  rw [ifExpression, ifExpression]
  generalize p.children = cs at hcs
  generalize p'.children = cs' at hcs
  have hfail : (.fail (.noValueBranch p.node.kind p.node.span) : Printing Doc).Agrees
      (.fail (.noValueBranch p'.node.kind p'.node.span)) := by
    rw [h.samePlace.node.kind_eq, (Node.label_eq_iff.mp h.label_eq).2.2.1]
    exact .refl _
  cases hcs with
  | nil => exact hfail
  | cons hcondition hcs =>
    cases hcs with
    | nil => exact hfail
    | cons hvalue hothers =>
      refine (h.print _ _ hcondition).bind fun _ => (h.print _ _ hvalue).bind fun _ => ?_
      refine (Agrees.collect hothers fun c c' hc => ?_).bind fun _ => ?_
      · rw [furtherBranch, furtherBranch, hc.node.kind_eq]
        exact (h.print c c' hc).map _
      · rw [h.samePlace.isContinuation_eq]
        exact .refl _

theorem respects_elseIfClause : Respects elseIfClause := by
  intro p p' print print' h
  have hcs := h.forall₂
  rw [elseIfClause, elseIfClause]
  generalize p.children = cs at hcs
  generalize p'.children = cs' at hcs
  cases hcs with
  | nil => exact .refl _
  | cons hcondition hothers =>
    exact (h.print _ _ hcondition).bind fun _ =>
      (Agrees.all (List.forall₂_take 1 hothers) h.print).map _

theorem respects_rangeExpression : Respects rangeExpression := respects_of_printChildren _

theorem respects_tightExpression (op : String) : Respects (tightExpression op) :=
  respects_of_printChildren fun ds => sepBy space (ds.intersperse (operator op))

/-- An operand of a chain is in the same place as the operand of the other chain. -/
theorem samePlace_of_isOperand {p p' o o' : Path} {k : Precedence} {x x' : Node} {i i' : Int}
    (hp : policy.precedence p.node = .ok (some k))
    (hp' : policy.precedence p'.node = .ok (some k)) (habove : SameSurroundings p.above p'.above)
    (ho : IsOperand k (⟨p.node, i⟩ :: p.above) x o)
    (ho' : IsOperand k (⟨p'.node, i'⟩ :: p'.above) x' o') (hx : Interchangeable x x') :
    SamePlace o o' := by
  obtain ⟨turns, hturns, hturns_eq⟩ := ho.exists_passage
  obtain ⟨turns', hturns', hturns_eq'⟩ := ho'.exists_passage
  refine ⟨by rw [ho.node_eq, ho'.node_eq]; exact hx, ?_⟩
  rw [hturns_eq, hturns_eq', List.append_cons, List.append_cons turns']
  refine .passage (hturns.concat (.inr hp)) (hturns'.concat (.inr hp')) (by simp) (by simp) ?_
    habove
  simp [kind_of_precedence hp, kind_of_precedence hp']

/-- Chains with the same operators and interchangeable operands are printed alike, whatever their
shapes. -/
theorem agrees_operatorChain {p p' : Path} {print : Below p → Printing Doc}
    {print' : Below p' → Printing Doc} {k : Precedence} {xs xs' : List Node} {ops : List String}
    (hplace : SamePlace p p') (hprint : ∀ q q', SamePlace q.1 q'.1 → (print q).Agrees (print' q'))
    (hkind : p.node.kind = "binary_expression") (hops : ops ≠ [])
    (h : Associates k p.node xs ops) (h' : Associates k p'.node xs' ops)
    (hxs : List.Forall₂ Interchangeable xs xs') :
    (operatorChain k p print).Agrees (operatorChain k p' print') := by
  have hkind' := hplace.node.kind_eq ▸ hkind
  obtain ⟨operands, hchain, hos⟩ := h.exists_flattenChain hkind hops
  obtain ⟨operands', hchain', hos'⟩ := h'.exists_flattenChain hkind' hops
  have hplaces : List.Forall₂ (fun o o' => SamePlace o.1 o'.1) operands operands' := by
    have hlength : operands.length = operands'.length := by
      rw [hos.length_eq, hxs.length_eq, hos'.length_eq]
    refine List.forall₂_iff_get.mpr ⟨hlength, fun i hi hi' => ?_⟩
    obtain ⟨j, ho⟩ := hos.get hi (hos.length_eq ▸ hi)
    obtain ⟨j', ho'⟩ := hos'.get hi' (hos'.length_eq ▸ hi')
    exact samePlace_of_isOperand (h.of_binary hkind hops).2 (h'.of_binary hkind' hops).2
      hplace.above ho ho' (hxs.get _ _)
  have hhuggable : operands.map (isHuggable ·.1) = operands'.map (isHuggable ·.1) := by
    rw [← List.forall₂_eq_eq_eq, List.forall₂_map_left_iff, List.forall₂_map_right_iff]
    exact hplaces.imp fun o o' ho => ho.isHuggable_eq
  have hlast : operands.getLast?.any (isHuggable ·.1) =
      operands'.getLast?.any (isHuggable ·.1) := by
    have hany := congrArg (fun bs => bs.getLast?.any id) hhuggable
    simpa only [List.getLast?_map, Option.any_map, id] using hany
  rw [operatorChain, operatorChain, hchain, hchain']
  refine .lift_ok ?_
  dsimp only
  rw [hplace.isContinuation_eq, hlast, hplaces.length_eq]
  exact (Agrees.all hplaces hprint).bind fun _ => .refl _

/-- The chain at a place depends on its operands and operators alone. -/
theorem agrees_operatorChain_of_corresponds {p p' : Path} {print : Below p → Printing Doc}
    {print' : Below p' → Printing Doc} (h : Corresponds print print') {op : String}
    {k : Precedence} (htwo : p.node.children.length = 2) (hop : operatorOf p.node = .ok op)
    (hk : Precedence.ofOperator? op = some k) :
    (operatorChain k p print).Agrees (operatorChain k p' print') := by
  by_cases hkind : p.node.kind = "binary_expression"
  · obtain ⟨left, right, hchildren⟩ := List.length_eq_two.mp htwo
    obtain ⟨xs, ops, hxs⟩ := exists_associates k p.node
    obtain ⟨xs', hxs', hsame⟩ := h.samePlace.node.associates hxs
    refine agrees_operatorChain h.samePlace h.print hkind ?_ hxs hxs' hsame
    rintro rfl
    exact hxs.of_nil.2 (opens_of_binary hkind hchildren hop hk)
  · rw [operatorChain, operatorChain, flattenChain_eq_single hkind htwo,
      flattenChain_eq_single (h.samePlace.node.kind_eq ▸ hkind) (h.children.length_eq ▸ htwo)]
    exact .lift_ok (.refl _)

theorem respects_binaryExpression : Respects binaryExpression := by
  intro p p' print print' h
  rw [binaryExpression, binaryExpression, ← h.children.length_eq]
  split
  · next htwo =>
    obtain ⟨left, right, hchildren⟩ := List.length_eq_two.mp htwo
    have hop := operatorOf_eq_ok hchildren
    rw [← Node.eq_of_outline operatorOf_outline h.outline_eq, hop]
    refine .lift_ok ?_
    split
    · next k hk =>
      exact .ite .rfl (agrees_operatorChain_of_corresponds h htwo hop hk)
        (respects_tightExpression _ h)
    · exact respects_tightExpression _ h
  · exact respects_spaced h

theorem respects_unaryExpression : Respects unaryExpression := by
  intro p p' print print' h
  rw [unaryExpression, unaryExpression, h.textOrEmpty_eq]
  exact h.agrees_printChildren.map _

theorem respects_parenthesizedExpression : Respects parenthesizedExpression :=
  respects_of_printChildren _

theorem respects_arrayConstructor : Respects arrayConstructor := by
  intro p p' print print' h
  rw [arrayConstructor, arrayConstructor, h.underAnnotationClause_eq]
  exact h.agrees_printChildren.bind fun _ => .refl _

theorem respects_arrayArguments : Respects arrayArguments := respects_of_printChildren _

theorem respects_arrayConcatenation : Respects arrayConcatenation := by
  intro p p' print print' h
  rw [arrayConcatenation, arrayConcatenation, h.underAnnotationClause_eq]
  exact h.agrees_printChildren.bind fun _ => .refl _

theorem respects_arrayComprehension : Respects arrayComprehension := by
  intro p p' print print' h
  refine (Agrees.collect h.forall₂ fun c c' hc => ?_).map _
  rw [hc.node.kind_eq]
  exact (h.print c c' hc).map _

theorem respects_arraySubscripts : Respects arraySubscripts := respects_commaList.map _

theorem respects_subscript : Respects subscript := fun h =>
  .ite (by rw [h.text_eq, h.isEmpty_eq]) (respects_plain h) (respects_sequence h)

theorem respects_expressions : ∀ entry ∈ expressions, Respects entry.2 := by
  simp [expressions, respects_ifExpression, respects_elseIfClause, respects_rangeExpression,
    respects_binaryExpression, respects_unaryExpression, respects_parenthesizedExpression,
    respects_arrayConstructor, respects_arrayArguments, respects_arrayConcatenation,
    respects_arrayComprehension, respects_arraySubscripts, respects_subscript]

/-! ### Calls, names and annotations -/

theorem respects_functionApplication : Respects functionApplication := by
  intro p p' print print' h
  rw [functionApplication, functionApplication, h.compactCall?_eq]
  split
  · exact .refl _
  · exact (h.agrees_select _).map _

theorem respects_functionCallArgs : Respects functionCallArgs := by
  intro p p' print print' h
  refine .ite (by rw [h.isEmpty_eq]) (.refl _) ?_
  rw [h.underAnnotationClause_eq, h.hasSingleArgument_eq]
  exact h.agrees_printChildren.map _

theorem respects_namedArgument : Respects namedArgument := by
  intro p p' print print' h
  refine (Agrees.collect h.forall₂ fun c c' hc => ?_).map _
  exact .ite (by rw [hc.node.kind_eq]) (.of_eq (by rw [textOf, textOf, hc.textOrEmpty_eq]))
    ((h.print c c' hc).map _)

theorem respects_functionPartialApplication : Respects functionPartialApplication :=
  respects_spaced.map _

theorem respects_reference : Respects reference := by
  intro p p' print print' h
  rw [reference, reference, textOf, textOf, h.textOrEmpty_eq]
  refine (Agrees.collect h.forall₂ fun c c' hc => ?_).map _
  rw [hc.node.kind_eq]
  exact .ite .rfl ((h.print c c' hc).map _) (.refl _)

theorem respects_annotationClause : Respects annotationClause := respects_of_printChildren _

theorem respects_externalClause : Respects externalClause := respects_of_select _ _

theorem respects_calls : ∀ entry ∈ calls, Respects entry.2 := by
  simp [calls, respects_functionApplication, respects_functionCallArgs, respects_namedArgument,
    respects_functionPartialApplication, respects_reference, respects_annotationClause,
    respects_externalClause]

end Rules

open Rules

/-- Every rule of the table respects interchangeable trees. -/
theorem respects_rules {kind : String} {rule : DocRule} (h : rules.get? kind = some rule) :
    Respects rule := by
  obtain ⟨entry, hentry, -, rfl⟩ := RuleTable.exists_mem_of_get?_ofList h
  simp only [List.mem_append] at hentry
  rcases hentry with (((((h | h) | h) | h) | h) | h) | h
  · exact respects_terminals entry h
  · exact respects_classes entry h
  · exact respects_elements entry h
  · exact respects_modifications entry h
  · exact respects_statements entry h
  · exact respects_expressions entry h
  · exact respects_calls entry h

end Typeset.Modelica
