import Typeset.Proofs.Modelica.CoveredChildren

/-!
# Which children each Modelica rule covers

For each rule: it prints the children that are picked for it, and its document shows whatever
their documents show. It fails only where one of them does; the rules for conditional
expressions, their clauses and modifications of elements may also fail for reasons of their
own.

The rule for connections stands apart, since it prints annotations that it does not keep. That
for binary expressions prints the operands of a whole chain, which lie deeper in the tree than
its children, and is not treated here.

## Main results

* `covers_longClassSpecifier`, `covers_conditionalBlock`, ... : the children that a rule covers.
* `ends_connectClause` : what a connection prints, and what it keeps.
-/

namespace Typeset.Modelica

open Doc Printing Rules

namespace Rules

/-! ### Names, literals and wrappers -/

theorem covers_sequence : Covers sequence Path.children :=
  covers_of_printChildren (fun _ _ => rfl) fun _ _ _ hs => by simpa using hs

theorem covers_literal : Covers literal Path.children := by
  intro p
  by_cases hempty : p.node.children.isEmpty = true
  · rw [children_eq_nil hempty]
    exact coversAt_of_pure fun _ => ⟨_, if_pos hempty⟩
  · exact coversAt_of_printChildren (fun _ => if_neg hempty) fun ds _ =>
      ⟨cat ds, rfl, fun s hs => by simpa using hs⟩

theorem covers_spaced : Covers spaced Path.children :=
  covers_of_printChildren (fun _ _ => rfl) fun _ _ _ hs => shows_sepBy _ hs

theorem covers_commaList : Covers commaList Path.children :=
  covers_of_printChildren (fun _ _ => rfl) fun _ _ _ hs => shows_sepBy _ hs

theorem covers_onLines : Covers onLines Path.children :=
  covers_of_printChildren (fun _ _ => rfl) fun _ _ _ hs => shows_sepBy _ hs

/-! ### Files and classes -/

theorem covers_storedDefinitions : Covers storedDefinitions Path.children :=
  covers_onLines.wrap (fun _ _ => rfl) fun _ _ _ hs => by simp [hs]

theorem covers_withinClause : Covers withinClause (ofKinds ["name"]) :=
  covers_of_select (fun _ _ => rfl) (fun _ => rfl) (fun _ => by simp [Selection.Shows])
    fun _ _ _ hs => by simp [hs]

private theorem shows_classSections : classSections.Shows := by
  have hnote : Surrounds fun d => [nested (cat [hardLine, d, lit ";"])] := fun d s hs => by
    simp [hs]
  simp [Selection.Shows, classSections, hnote]

/-- A section is of a listed kind, and it is no empty list of elements. -/
theorem isSection_iff {n : Node} : isSection n = true ↔
    n.kind ∈ classSections.kinds ∧
      ¬ (elementLists.contains n.kind && n.children.isEmpty) = true := by
  have hkinds : classSections.kinds = sectionKinds := rfl
  rw [isSection, hkinds, Bool.and_eq_true, List.contains_iff_mem, Bool.not_eq_true']
  simp

/-- The sections show their documents, and the name after `end` shows the name. -/
theorem covers_longClassSpecifier : Covers longClassSpecifier classParts := by
  intro p print G E hprint hname _
  have hstep (name : String) (c : Below p) (hc : c ∈ p.children) :
      Ends (if c.1.node.kind = "IDENT" && name.isEmpty then
          return [token .nameClass c.1.node.textOrEmpty]
        else if elementLists.contains c.1.node.kind && c.1.node.children.isEmpty then return []
        else selectChild classSections print c)
        (fun ds => c ∈ p.children.filter (isSection ·.1.node) → ShownBy G c ds) E := by
    split
    · next hident =>
      refine .pure fun hmem => absurd (isSection_iff.mp (List.mem_filter.mp hmem).2).1 ?_
      simp only [Bool.and_eq_true, decide_eq_true_eq] at hident
      rw [hident.1]
      decide
    · split
      · next hempty =>
        exact .pure fun hmem => absurd hempty (isSection_iff.mp (List.mem_filter.mp hmem).2).2
      · next hfull =>
        refine (ends_selectChild shows_classSections fun hkind => hprint c ?_).mono
          (fun ds hds hmem => hds (isSection_iff.mp (List.mem_filter.mp hmem).2).1) fun _ he => he
        exact List.mem_filter.mpr ⟨hc, by rw [isSection_iff.mpr ⟨hkind, hfull⟩, Bool.true_or]⟩
  refine (ends_collectFrom (List.filter_subset_self _) hstep).bind fun ds hds =>
    .pure fun c hc => ?_
  obtain ⟨hc, hpart⟩ := List.mem_filter.mp hc
  rcases Bool.or_eq_true_iff.mp hpart with hsection | hident
  · refine (hds c (List.mem_filter.mpr ⟨hc, hsection⟩)).mono fun s hs => ?_
    simp [hs]
  · simp only [Bool.and_eq_true, decide_eq_true_eq] at hident
    refine ⟨_, hname c hident.1, fun s hs => ?_⟩
    have hs : className p.node = s.1 := by simpa [textOf, hident.2] using hs
    simp [← hs, className]

theorem covers_shortClassSpecifier :
    Covers shortClassSpecifier (ofKinds ["IDENT", "base_prefix", "enum_list", "type_specifier",
      "class_modification", "array_subscripts", "description_string", "comment"]) := by
  have henum : Surrounds fun d => [keyword "enumeration", lit "(", d, lit ")"] :=
    surrounds_of_mem (by simp)
  exact covers_of_names (fun _ _ => rfl) rfl (fun _ _ _ hs => by simp [hs])
    (by simp [Selection.Shows, henum]) fun _ _ hs => by simpa using hs

theorem covers_visibilitySection : Covers visibilitySection Path.children :=
  covers_onLines.wrap (fun _ _ => rfl) fun _ _ _ hs => by simp [hardIndented, hs]

/-! ### Elements of classes -/

theorem covers_namedElement :
    Covers namedElement (ofKinds ["component_clause", "class_definition", "comment"]) := by
  have hclause : Surrounds fun d => [d, lit ";"] := surrounds_of_mem (by simp)
  exact covers_of_select (fun _ _ => rfl) (fun _ => rfl)
    (fun _ => by simp [Selection.Shows, hclause]) fun _ _ _ hs => by simp [hs]

theorem covers_importClause : Covers importClause Path.children :=
  covers_spaced.wrap (fun _ _ => rfl) fun _ _ _ hs => by simp [hs]

theorem covers_extendsClause :
    Covers extendsClause (ofKinds ["type_specifier", "class_modification", "annotation_clause"]) :=
  covers_of_select (fun _ _ => rfl) (fun _ => rfl) (fun _ => by simp [Selection.Shows])
    fun _ _ _ hs => by simp [hs]

theorem covers_constrainingClause : Covers constrainingClause Path.children :=
  covers_spaced.wrap (fun _ _ => rfl) fun _ _ _ hs => by simp [hs]

theorem covers_componentClause :
    Covers componentClause (ofKinds ["type_specifier", "array_subscripts", "component_list"]) := by
  have htype : Surrounds fun d => [annotate (.token .keywordType) d, space] := fun d s hs => by
    simp [hs]
  exact covers_of_select (fun _ _ => rfl) (fun _ => rfl)
    (fun _ => by simp [Selection.Shows, htype]) fun _ _ _ hs => by simp [hs]

theorem covers_componentList : Covers componentList Path.children := by
  refine fun p => coversAt_of_printChildren (fun _ => rfl) fun ds _ => ?_
  match ds with
  | [d] => exact ⟨d, rfl, fun s hs => by simpa using hs⟩
  | [] | d :: e :: ds => exact ⟨_, rfl, fun s hs => by simpa using shows_commaSeparated false hs⟩

theorem covers_componentDeclaration : Covers componentDeclaration (ofKinds ["declaration",
    "condition_attribute", "comment", "description_string", "annotation_clause"]) :=
  covers_of_select (fun _ _ => rfl) (fun _ => rfl) (fun _ => by simp [Selection.Shows])
    fun _ _ _ hs => by simpa using hs

theorem covers_conditionAttribute : Covers conditionAttribute Path.children :=
  covers_sequence.wrap (fun _ _ => rfl) fun _ _ _ hs => by simp [hs]

theorem covers_declaration :
    Covers declaration (ofKinds ["IDENT", "array_subscripts", "modification"]) :=
  covers_of_select (fun _ _ => rfl) (fun _ => rfl) (fun _ => by simp [Selection.Shows])
    fun _ _ _ hs => by simpa using hs

/-! ### Modifications -/

theorem covers_modification :
    Covers modification (ofKinds ["class_modification", "expression", "simple_expression"]) := by
  refine covers_of_select (fun _ _ => rfl) (fun _ => rfl) (fun p => ?_)
    fun _ _ _ hs => by simpa using hs
  have hvalue (isBinding : Bool) : Surrounds fun d =>
      if isBinding then [space, operator "=", nested (hug softLine d)]
      else [operator "=", nested d] := fun d s hs => by
    cases isBinding <;> simp [hs, shows_hug softLine hs]
  simp [Selection.Shows, hvalue]

theorem covers_classModification : Covers classModification Path.children := by
  intro p
  by_cases hempty : p.node.children.isEmpty = true
  · rw [children_eq_nil hempty]
    exact coversAt_of_pure fun _ => ⟨_, if_pos hempty⟩
  · refine coversAt_of_printChildren (fun _ => if_neg hempty) fun ds _ => ⟨_, rfl, fun s hs => ?_⟩
    rw [bracketed]
    repeat' split
    all_goals simp [shows_commaSeparated _ hs]

theorem covers_argumentList : Covers argumentList Path.children :=
  covers_of_printChildren (fun _ _ => rfl) fun _ _ _ hs => shows_commaSeparated _ hs

theorem covers_elementModification : Covers elementModification modificationParts
    fun p e => compactModification? p = .error e := by
  intro p print G E hprint hname hown
  refine (ends_lift (P := fun short => compactModification? p = .ok short) (fun _ h => h)
    fun e he => hown e he).bind fun short hshort => ?_
  cases short with
  | some short =>
    have hnone : modificationParts p = [] := by rw [modificationParts, hshort]
    rw [hnone]
    exact .pure (by simp [Covered])
  | none =>
    have hparts : modificationParts p =
        ofKinds ["name", "modification", "description_string"] p := by
      rw [modificationParts, hshort]
    rw [hparts] at hprint ⊢
    exact (ends_select (by simp [Selection.Shows]) hprint).bind fun ds hds =>
      .pure (hds.mono fun s hs => by simp [hs])

theorem covers_redeclaration : Covers redeclaration
    (ofKinds ["short_class_definition", "class_definition", "component_clause"]) :=
  covers_of_select (fun _ _ => rfl) (fun _ => rfl) (fun _ => by simp [Selection.Shows])
    fun _ _ _ hs => by simp [hs]

theorem covers_shortClassDefinition :
    Covers shortClassDefinition (ofKinds ["class_prefixes", "short_class_specifier"]) :=
  covers_of_select (fun _ _ => rfl) (fun _ => rfl) (fun _ => by simp [Selection.Shows])
    fun _ _ _ hs => by simpa using hs

/-! ### Equations and statements -/

theorem covers_sectionOf (title bodyKind : String) :
    Covers (sectionOf title bodyKind) (ofKinds [bodyKind, "comment"]) := by
  refine covers_of_select (fun _ _ => rfl) (fun _ => rfl) (fun _ => by simp [Selection.Shows])
    fun _ ds s hs => ?_
  have hfull : ds.isEmpty = false := by
    cases ds with
    | nil => cases hs
    | cons d ds => rfl
  have hbody : (hardIndented (sepBy hardLine ds)).any (shows s) = true :=
    surrounds_hardIndented _ s (shows_sepBy hardLine hs)
  rw [shows_cat, List.any_cons, hfull, if_neg Bool.false_ne_true, hbody, Bool.or_true]

theorem covers_simpleEquation :
    Covers simpleEquation (ofKinds ["expression", "simple_expression", "comment"]) :=
  covers_of_expressions (fun _ _ => rfl) rfl
    (fun _ => surrounds_of_mem fun d => by split <;> simp) (by simp [Selection.Shows])
    fun _ _ hs => by simp [hs]

theorem covers_assignmentStatement : Covers assignmentStatement
    (ofKinds ["expression", "simple_expression", "component_reference", "comment"]) :=
  covers_of_expressions (fun _ _ => rfl) rfl
    (fun _ => surrounds_of_mem fun d => by split <;> simp) (by simp [Selection.Shows])
    fun _ _ hs => by simp [hs]

theorem covers_forLoop :
    Covers forLoop (ofKinds ["for_indices", "equation_list", "statement_list"]) := by
  have hindices : Surrounds fun d => [d, space, keyword "loop"] := surrounds_of_mem (by simp)
  exact covers_of_select (fun _ _ => rfl) (fun _ => rfl)
    (fun _ => by simp [Selection.Shows, hindices]) fun _ _ _ hs => by simp [hs]

theorem covers_forIndex :
    Covers forIndex (ofKinds ["IDENT", "expression", "simple_expression"]) := by
  have hrange : Surrounds fun d => [space, keyword "in", space, d] := surrounds_of_mem (by simp)
  exact covers_of_names (fun _ _ => rfl) rfl (fun _ _ _ hs => by simp [textOf, hs])
    (by simp [Selection.Shows, hrange]) fun _ _ hs => by simpa using hs

/-- The condition of a block is done after its first expression. -/
theorem conditionDone_foldl (style : BlockStyle) {p : Path} (before : List (Below p)) :
    (before.foldl (fun s c => s.after style c.1.node) ({} : BlockState)).conditionDone =
      before.any (isExpression ·.1.node) := by
  have hfrom (state : BlockState) :
      (before.foldl (fun s c => s.after style c.1.node) state).conditionDone =
        (state.conditionDone || before.any (isExpression ·.1.node)) := by
    induction before generalizing state with
    | nil => simp
    | cons c before ih =>
      have hafter : (state.after style c.1.node).conditionDone =
          (state.conditionDone || isExpression c.1.node) := by
        rw [BlockState.after]
        cases hexpr : isExpression c.1.node <;> cases hdone : state.conditionDone <;>
          simp <;> repeat' split
        all_goals simp [hdone]
      rw [List.foldl_cons, ih, hafter, List.any_cons, Bool.or_assoc]
  rw [hfrom]
  rfl

/-- What makes a child part of a block: it is the first expression, a body, a clause or a
comment. -/
theorem mem_blockParts {clauseKinds : List String} {p : Path} {c : Below p} :
    c ∈ blockParts clauseKinds p ↔
      (∃ before after, p.children = before ++ c :: after ∧ isExpression c.1.node = true ∧
        before.any (isExpression ·.1.node) = false) ∨
      c ∈ p.children ∧ (isBody c.1.node || clauseKinds.contains c.1.node.kind ||
        c.1.node.kind = "comment") = true := by
  rw [blockParts, List.mem_append, Option.mem_toList, List.mem_filter,
    List.find?_eq_some_iff_append]
  simp only [List.any_eq_false, Bool.not_eq_true', Bool.not_eq_true]
  constructor
  · rintro (⟨hexpr, before, after, heq, hbefore⟩ | h)
    · exact .inl ⟨before, after, heq, hexpr, hbefore⟩
    · exact .inr h
  · rintro (⟨before, after, heq, hexpr, hbefore⟩ | h)
    · exact .inl ⟨hexpr, before, after, heq, hbefore⟩
    · exact .inr h

theorem covers_conditionalBlock (style : BlockStyle) :
    Covers (conditionalBlock style) (blockParts style.clauseKinds) := by
  intro p print G E hprint _ _
  -- whether an expression is the condition depends on what stands before it
  let isPart (before : List (Below p)) (c : Below p) : Prop :=
    isExpression c.1.node = true ∧ before.any (isExpression ·.1.node) = false ∨
      (isBody c.1.node || style.clauseKinds.contains c.1.node.kind ||
        c.1.node.kind = "comment") = true
  have hmem {before : List (Below p)} {c : Below p} {after : List (Below p)}
      (hchildren : p.children = before ++ c :: after) (hpart : isPart before c) :
      c ∈ blockParts style.clauseKinds p :=
    mem_blockParts.mpr (hpart.imp (fun h => ⟨before, after, hchildren, h⟩)
      fun h => ⟨by simp [hchildren], h⟩)
  refine (Ends.collectFrom (R := fun before c ds => isPart before c → ShownBy G c ds)
    fun before c after hchildren => ?_).bind fun ds hds => .pure fun c hc => ?_
  · show Ends (ite _ _ _) _ _
    rw [conditionDone_foldl]
    split
    · next hcondition =>
      have hpart : isPart before c := .inl (by simpa using hcondition)
      have hsurrounds : Surrounds fun d => [d, space, keyword style.separator] :=
        surrounds_of_mem (by simp)
      exact (hprint c (hmem hchildren hpart)).bind fun d hd => .pure fun _ =>
        ⟨d, hd, hsurrounds d⟩
    · next hcondition =>
      show Ends (ite _ _ _) _ _
      split
      · next hbody =>
        have hpart : isPart before c := .inr (by simp [hbody])
        refine (hprint c (hmem hchildren hpart)).bind fun d hd => .pure fun _ =>
          ⟨d, hd, fun s hs => ?_⟩
        rw [List.any_append, surrounds_hardIndented d s hs, Bool.or_true]
      · show Ends (ite _ _ _) _ _
        split
        · next hclause =>
          have hpart : isPart before c := .inr (by simp [List.contains_iff_mem.mp hclause])
          exact (hprint c (hmem hchildren hpart)).bind fun d hd => .pure fun _ =>
            ⟨d, hd, surrounds_hardBefore d⟩
        · next hbody hclause =>
          refine (ends_selectChild (by simp [Selection.Shows]) fun hkind =>
            hprint c (hmem hchildren (.inr ?_))).mono (fun ds hds hpart => hds ?_) fun _ he => he
          · simp_all [Selection.kinds]
          · rcases hpart with hpart | hpart
            · exact absurd (by simpa using hpart) hcondition
            · simp_all [Selection.kinds]
  · obtain ⟨before, after, hchildren, hpart⟩ :
        ∃ before after, p.children = before ++ c :: after ∧ isPart before c := by
      rcases mem_blockParts.mp hc with ⟨before, after, hchildren, hpart⟩ | ⟨hmem, hpart⟩
      · exact ⟨before, after, hchildren, .inl hpart⟩
      · obtain ⟨before, after, hchildren⟩ := List.append_of_mem hmem
        exact ⟨before, after, hchildren, .inr hpart⟩
    obtain ⟨part, hshown, hsub⟩ := hds before c after hchildren
    refine ((hshown hpart).of_subset hsub).mono fun s hs => ?_
    simp [hs]

/-- The documents of the children of one kind, in order, among the parts that a walk over all
children gives. -/
private theorem forall₂_filter_kind {p : Path} {G : Below p → Doc → Prop} {kind : String}
    {cs : List (Below p)} {parts : List (List (String × Doc))}
    (h : List.Forall₂ (fun c part => part = [] ∧ c.1.node.kind ≠ kind ∨
      ∃ d, part = [(c.1.node.kind, d)] ∧ G c d) cs parts) :
    List.Forall₂ G (cs.filter (·.1.node.kind = kind))
      ((parts.flatten.filter (·.1 = kind)).map (·.2)) := by
  induction h with
  | nil => exact .nil
  | @cons c part cs parts hpart _ ih =>
    rw [List.flatten_cons, List.filter_append, List.map_append]
    rcases hpart with ⟨rfl, hkind⟩ | ⟨d, rfl, hG⟩
    · simpa [hkind] using ih
    · by_cases hkind : c.1.node.kind = kind
      · have hhead : (c :: cs).filter (·.1.node.kind = kind) =
            c :: cs.filter (·.1.node.kind = kind) := by simp [hkind]
        rw [hhead]
        simpa [hkind] using ⟨hG, by simpa using ih⟩
      · simpa [hkind] using ih

private theorem exists_getLast?_of_forall₂ {α β : Type} {R : α → β → Prop} {as : List α}
    {bs : List β} (h : List.Forall₂ R as bs) {a : α} (ha : as.getLast? = some a) :
    ∃ b, bs.getLast? = some b ∧ R a b := by
  induction h with
  | nil => cases ha
  | cons hR hrest ih =>
    cases hrest with
    | nil =>
      cases ha
      exact ⟨_, rfl, hR⟩
    | cons hR' hrest =>
      rw [List.getLast?_cons_cons] at ha ⊢
      exact ih ha

private theorem ofKinds_singleton (kind : String) (p : Path) :
    ofKinds [kind] p = p.children.filter (·.1.node.kind = kind) :=
  List.filter_congr fun c _ => by simp

/-- A connection prints its ends and all of its annotations, and it shows its ends and the last
annotation. -/
theorem ends_connectClause {p : Path} {print : Below p → Printing Doc}
    {G : Below p → Doc → Prop} {E : PrintError → Prop}
    (hprint : ∀ c ∈ ofKinds ["component_reference", "annotation_clause"] p,
      (print c).Ends (G c) E) :
    (connectClause p print).Ends (fun d =>
      ∀ c ∈ ofKinds ["component_reference", "annotation_clause"] p,
        ∃ e, G c e ∧ (c ∈ connectParts p → ∀ s : Fragment, e.shows s = true → d.shows s = true))
      E := by
  refine (Ends.collect (R := fun c part =>
    part = [] ∧ c.1.node.kind ∉ ["component_reference", "annotation_clause"] ∨
      ∃ d, part = [(c.1.node.kind, d)] ∧ G c d) fun c hc => ?_).bind fun parts hparts => .pure ?_
  · show Ends (ite _ _ _) _ _
    split
    · next hkind =>
      exact (hprint c (mem_ofKinds.mpr ⟨hc, by simpa using hkind⟩)).bind fun d hd =>
        .pure (.inr ⟨d, rfl, hd⟩)
    · next hkind => exact .pure (.inl ⟨rfl, by simpa using hkind⟩)
  · obtain ⟨lists, hlists, rfl⟩ := hparts
    have hdocs (kind : String) (hkind : kind ∈ ["component_reference", "annotation_clause"]) :
        List.Forall₂ G (p.children.filter (·.1.node.kind = kind))
          ((lists.flatten.filter (·.1 = kind)).map (·.2)) :=
      forall₂_filter_kind (hlists.imp fun c part h =>
        h.imp_left fun h => ⟨h.1, fun heq => h.2 (heq ▸ hkind)⟩)
    have hargs := hdocs "component_reference" (by simp)
    have hnotes := hdocs "annotation_clause" (by simp)
    generalize (lists.flatten.filter (·.1 = "component_reference")).map (·.2) = args at hargs ⊢
    generalize (lists.flatten.filter (·.1 = "annotation_clause")).map (·.2) = notes at hnotes ⊢
    intro c hc
    obtain ⟨hc, hkind⟩ := mem_ofKinds.mp hc
    simp only [List.mem_cons, List.not_mem_nil, or_false] at hkind
    rcases hkind with hkind | hkind
    · obtain ⟨d, hd, hG⟩ := exists_mem_of_forall₂ hargs (List.mem_filter.mpr ⟨hc, by simpa⟩)
      refine ⟨d, hG, fun _ s hs => ?_⟩
      have hshown := shows_sepBy (lit ", ") (List.any_eq_true.mpr ⟨d, hd, hs⟩)
      simp [hshown]
    · by_cases hlast : (ofKinds ["annotation_clause"] p).getLast? = some c
      · rw [ofKinds_singleton] at hlast
        obtain ⟨d, hd, hG⟩ := exists_getLast?_of_forall₂ hnotes hlast
        refine ⟨d, hG, fun _ s hs => ?_⟩
        simp [hd, lineIndented, hs]
      · obtain ⟨d, hd, hG⟩ := exists_mem_of_forall₂ hnotes (List.mem_filter.mpr ⟨hc, by simpa⟩)
        refine ⟨d, hG, fun hkept => absurd hkept ?_⟩
        simp [connectParts, mem_ofKinds, hkind, hlast]

theorem covers_callStatement : Covers callStatement Path.children :=
  covers_of_printChildren (fun _ _ => rfl) fun _ _ _ hs => by simp [hs]

theorem covers_multipleOutputCall : Covers multipleOutputCall
    (ofKinds ["output_expression_list", "component_reference", "function_application"]) := by
  have hcall : Surrounds fun d => [lit ") ", operator ":=", space, d] :=
    surrounds_of_mem (by simp)
  exact covers_of_select (fun _ _ => rfl) (fun _ => rfl)
    (fun _ => by simp [Selection.Shows, hcall]) fun _ _ _ hs => by simp [hs]

/-! ### Expressions -/

theorem covers_ifExpression : Covers ifExpression Path.children fun p e =>
    (p.node.children.length < 2 ∧ e = .noValueBranch p.node.kind p.node.span) ∨
      policy.isContinuation p = .error e := by
  intro p print G E hprint _ hown
  rw [ifExpression]
  split
  · next condition value others hchildren =>
    rw [hchildren] at hprint ⊢
    refine (hprint condition (by simp)).bind fun conditionDoc hcondition => ?_
    refine (hprint value (by simp)).bind fun valueDoc hvalue => ?_
    have hfurther : (Printing.collect (furtherBranch print) others).Ends (Covered G others) E := by
      refine ends_collect (List.Subset.refl _) fun c hc => ?_
      have hsurrounds : Surrounds fun d => if c.1.node.kind = "else_if_clause"
          then [softLine, d] else [softLine, keyword "else", space, d] :=
        surrounds_of_mem fun d => by split <;> simp
      exact (hprint c (by simp [hc])).bind fun d hd => .pure fun _ => ⟨d, hd, hsurrounds d⟩
    refine hfurther.bind fun ds hds => ?_
    refine (ends_lift (P := fun _ => True) (fun _ _ => trivial) fun e he =>
      hown e (.inr he)).bind fun continuation _ => .pure ?_
    have hwhole (s : Fragment) (hs : (conditionDoc :: valueDoc :: ds).any (shows s) = true) :
        [grouped (cat [keyword "if", space, conditionDoc,
          if continuation then cat ([softLine, keyword "then", space, valueDoc] ++ ds)
          else nested (cat ([softLine, keyword "then", space, valueDoc] ++ ds))])].any
            (shows s) = true := by
      simp only [List.any_cons, Bool.or_eq_true] at hs
      cases continuation <;> rcases hs with hs | hs | hs <;> simp [hs]
    intro c hc
    simp only [List.mem_cons] at hc
    rcases hc with rfl | rfl | hc
    · exact ⟨conditionDoc, hcondition, fun s hs => hwhole s (by simp [hs])⟩
    · exact ⟨valueDoc, hvalue, fun s hs => hwhole s (by simp [hs])⟩
    · exact (hds c hc).mono fun s hs => hwhole s (by simp [hs])
  · next hfew =>
    refine hown _ (.inl ⟨?_, rfl⟩)
    rw [← length_children]
    match hchildren : p.children with
    | [] | [_] => simp
    | condition :: value :: others => exact absurd hchildren (hfew condition value others)

theorem covers_elseIfClause : Covers elseIfClause clauseParts
    fun p e => p.node.children = [] ∧ e = .missingChild := by
  intro p print G E hprint _ hown
  rw [elseIfClause]
  split
  · next hnone =>
    refine hown _ ⟨?_, rfl⟩
    rw [← List.length_eq_zero_iff, ← length_children, hnone]
    rfl
  · next condition others hchildren =>
    rw [clauseParts, hchildren, List.take_succ_cons] at hprint ⊢
    refine (hprint condition (by simp)).bind fun conditionDoc hcondition => ?_
    refine (ends_printAll fun c hc => hprint c (List.mem_cons_of_mem _ hc)).bind fun ds hds =>
      .pure ?_
    have hwhole (s : Fragment) (hs : (conditionDoc :: ds).any (shows s) = true) :
        [grouped (cat ([keyword "elseif", space, conditionDoc] ++
          ds.flatMap fun d => [softLine, keyword "then", space, d]))].any (shows s) = true := by
      simp only [List.any_cons, Bool.or_eq_true, List.any_eq_true] at hs
      rcases hs with hs | ⟨d, hd, hs⟩
      · simp [hs]
      · simp only [List.any_cons, List.any_nil, Bool.or_false, shows_grouped, shows_cat,
          List.any_append, Bool.or_eq_true, List.any_eq_true]
        exact .inr ⟨d, List.mem_flatMap.mpr ⟨d, hd, by simp⟩, hs⟩
    refine List.forall_mem_cons.mpr ⟨?_, fun c hc => ?_⟩
    · exact ⟨conditionDoc, hcondition, fun s hs => hwhole s (by simp [hs])⟩
    · exact (hds.1 c hc).mono fun s hs => hwhole s (by simp [hs])

theorem covers_rangeExpression : Covers rangeExpression Path.children :=
  covers_of_printChildren (fun _ _ => rfl) fun _ _ _ hs => shows_sepBy _ hs

theorem covers_tightExpression (op : String) : Covers (tightExpression op) Path.children :=
  covers_of_printChildren (fun _ _ => rfl) fun _ _ _ hs =>
    shows_sepBy _ (any_intersperse _ hs)

theorem covers_unaryExpression : Covers unaryExpression Path.children :=
  covers_of_printChildren (fun _ _ => rfl) fun _ _ _ hs => by simp [hs]

theorem covers_parenthesizedExpression : Covers parenthesizedExpression Path.children :=
  covers_of_printChildren (fun _ _ => rfl) fun _ _ _ hs => by simp [bracketed, hs]

theorem covers_arrayConstructor : Covers arrayConstructor Path.children := by
  refine fun p => coversAt_of_printChildren (fun _ => rfl) fun ds _ => ?_
  split
  · exact ⟨_, rfl, fun s hs => by simp [bracketed, shows_sepBy _ hs]⟩
  · exact ⟨_, rfl, fun s hs => by simp [hs]⟩

theorem covers_arrayArguments : Covers arrayArguments Path.children :=
  covers_of_printChildren (fun _ _ => rfl) fun _ _ _ hs => shows_commaSeparated _ hs

theorem covers_arrayConcatenation : Covers arrayConcatenation Path.children := by
  refine fun p => coversAt_of_printChildren (fun _ => rfl) fun ds _ => ?_
  split
  · exact ⟨_, rfl, fun s hs => by simp [bracketed, shows_sepBy _ hs]⟩
  · exact ⟨_, rfl, fun s hs => by simp [shows_sepBy _ hs]⟩

theorem covers_arrayComprehension : Covers arrayComprehension Path.children := by
  intro p print G E hprint _ _
  refine (ends_collect (List.Subset.refl _) fun c hc => ?_).bind fun ds hds =>
    .pure (hds.mono fun s hs => by simp [hs])
  have hsurrounds : Surrounds fun d => if c.1.node.kind = "for_indices"
      then [space, keyword "for", space, d] else [d] :=
    surrounds_of_mem fun d => by split <;> simp
  exact (hprint c hc).bind fun d hd => .pure fun _ => ⟨d, hd, hsurrounds d⟩

theorem covers_arraySubscripts : Covers arraySubscripts Path.children :=
  covers_commaList.wrap (fun _ _ => rfl) fun _ _ _ hs => by simp [hs]

theorem covers_subscript : Covers subscript subscriptParts := by
  intro p
  rw [subscriptParts]
  by_cases hcolon : p.node.text = some ":"
  · rw [if_pos hcolon]
    exact coversAt_of_pure fun _ => ⟨_, if_pos (by simp [hcolon])⟩
  · rw [if_neg hcolon]
    by_cases hempty : p.node.children.isEmpty = true
    · rw [children_eq_nil hempty]
      exact coversAt_of_pure fun _ => ⟨_, if_pos (by simp [hempty])⟩
    · exact coversAt_of_printChildren (fun _ => if_neg (by simp [hcolon, hempty])) fun ds _ =>
        ⟨cat ds, rfl, fun s hs => by simpa using hs⟩

/-! ### Calls, names and annotations -/

theorem covers_functionApplication : Covers functionApplication callParts := by
  intro p
  rw [callParts]
  cases hcompact : compactCall? p with
  | some short =>
    exact coversAt_of_pure fun _ => ⟨lit short, by rw [functionApplication, hcompact]⟩
  | none =>
    have hcallee : Surrounds fun d => [annotate (.token .nameFunction) d] := fun d s hs => by
      simp [hs]
    exact coversAt_of_select (fun _ => by rw [functionApplication, hcompact]) rfl
      (by simp [Selection.Shows, hcallee]) fun _ _ hs => by simpa using hs

theorem covers_functionCallArgs : Covers functionCallArgs Path.children := by
  intro p
  by_cases hempty : p.node.children.isEmpty = true
  · rw [children_eq_nil hempty]
    exact coversAt_of_pure fun _ => ⟨_, if_pos hempty⟩
  · refine coversAt_of_printChildren (fun _ => if_neg hempty) fun ds hlength =>
      ⟨_, rfl, fun s hs => ?_⟩
    rw [bracketed]
    split
    · simp [shows_commaSeparated _ hs]
    · split
      · next hsingle =>
        -- a single child has a single document
        have hone : ds.length = 1 := by
          rw [hlength, length_children]
          rw [hasSingleArgument] at hsingle
          split at hsingle
          · next hchildren => simp [hchildren]
          · cases hsingle
        obtain ⟨d, rfl⟩ := List.length_eq_one_iff.mp hone
        have hs : d.shows s = true := by simpa using hs
        simp [hs]
      · simp [shows_commaSeparated _ hs]

theorem covers_namedArgument : Covers namedArgument Path.children := by
  intro p print G E hprint hname _
  refine (ends_collect (List.Subset.refl _) fun c hc => ?_).bind fun ds hds =>
    .pure (hds.mono fun s hs => by simpa using hs)
  split
  · next hident => exact .pure fun _ => ⟨_, hname c hident, fun s hs => by simp [hs]⟩
  · exact (hprint c hc).bind fun d hd => .pure fun _ => ⟨d, hd, fun s hs => by simp [hs]⟩

theorem covers_functionPartialApplication : Covers functionPartialApplication Path.children :=
  covers_spaced.wrap (fun _ _ => rfl) fun _ _ _ hs => by simp [hs]

private theorem mem_dotted {parts : List (Bool × Doc)} {part : Bool × Doc} (h : part ∈ parts)
    (last : Option Doc) : part.2 ∈ dotted last parts := by
  induction parts generalizing last with
  | nil => cases h
  | cons first parts ih =>
    rw [dotted]
    refine List.mem_append_right _ ?_
    rcases List.mem_cons.mp h with rfl | h
    · exact List.mem_cons_self
    · exact List.mem_cons_of_mem _ (ih h _)

theorem covers_reference : Covers reference
    (ofKinds ["IDENT", "name", "component_reference", "array_subscripts"]) := by
  intro p print G E hprint _ _
  refine (Ends.collect (R := fun c parts => c ∈ ofKinds ["IDENT", "name", "component_reference",
    "array_subscripts"] p → ∃ part ∈ parts, G c part.2) fun c hc => ?_).bind fun parts hparts => ?_
  · show Ends (ite _ _ _) _ _
    split
    · next hkind =>
      have hmem : c ∈ ofKinds ["IDENT", "name", "component_reference", "array_subscripts"] p :=
        mem_ofKinds.mpr ⟨hc, by simpa [or_assoc] using hkind⟩
      exact (hprint c hmem).bind fun d hd => .pure fun _ => ⟨_, List.mem_singleton_self _, hd⟩
    · next hkind =>
      exact .pure fun hmem => absurd (by simpa [or_assoc] using (mem_ofKinds.mp hmem).2) hkind
  · refine .pure fun c hc => ?_
    obtain ⟨lists, hlists, rfl⟩ := hparts
    obtain ⟨list, hlist, hshown⟩ := exists_mem_of_forall₂ hlists (mem_ofKinds.mp hc).1
    obtain ⟨part, hpart, hG⟩ := hshown hc
    have hmem : part ∈ lists.flatten := List.mem_flatten.mpr ⟨list, hlist, hpart⟩
    refine ⟨part.2, hG, fun s hs => ?_⟩
    rw [if_neg (by simpa using List.ne_nil_of_mem hmem)]
    simpa using ⟨part.2, mem_dotted hmem none, hs⟩

theorem covers_annotationClause : Covers annotationClause Path.children :=
  covers_of_printChildren (fun _ _ => rfl) fun _ _ _ hs => by simp [hs]

theorem covers_externalClause : Covers externalClause
    (ofKinds ["language_specification", "external_function", "annotation_clause"]) :=
  covers_of_select (fun _ _ => rfl) (fun _ => rfl) (fun _ => by simp [Selection.Shows])
    fun _ _ _ hs => by simp [hs]

end Rules

end Typeset.Modelica
