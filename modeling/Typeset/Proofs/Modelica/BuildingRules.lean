import Typeset.Proofs.BuiltDocuments
import Typeset.Proofs.Modelica.CoveringRules

/-!
# The Modelica rules build their documents from those of visited nodes

Every rule puts its document together by combinators from texts of its own and from the
documents of the children that it visits; the rule for binary expressions takes the operands of a
chain. The rule for comments is left out, since its document has the mark of a comment. What the
combinators keep is thereby kept by all other rules.

## Main definitions

* `Builds` : a rule builds its document from those of the picked children.
* `chainOperands`, `sources` : the operands of a chain, and the nodes below a place whose
  documents are used there.

## Main results

* `builds_rules` : every rule except that for comments builds its document from those of its
  sources.
-/

namespace Typeset.Modelica

open Doc Printing Rules

/-- The rule builds its document from those of the picked children. -/
def Builds (rule : DocRule) (pick : Pick) : Prop :=
  ∀ (S : Doc → Prop) (p : Path) (print : Below p → Printing Doc),
    (∀ c ∈ pick p, (print c).Yields (Built S)) → (rule p print).Yields (Built S)

/-! ### Forms of rules -/

section Forms

variable {S : Doc → Prop} {p : Path} {print : Below p → Printing Doc}

@[simp]
theorem built_textOf (n : Node) : Built S (textOf n) := .lit _

@[simp]
theorem built_space : Built S space := .lit _

@[simp]
theorem built_bracketed (opening closing : String) {body : Doc} (h : Built S body) :
    Built S (bracketed opening body closing) := .grouped (.cat (by simp [h]))

theorem built_leadingParts (words : String) : ∀ d ∈ leadingParts words, Built S d := by
  rw [leadingParts]
  split <;> simp

/-- The surroundings are built from what they surround. -/
def BuildsAround (surround : Doc → List Doc) : Prop :=
  ∀ (S : Doc → Prop) (d : Doc), Built S d → ∀ e ∈ surround d, Built S e

/-- All surroundings of a selection are built from what they surround. -/
def Selection.Builds (sel : Selection) : Prop := ∀ entry ∈ sel, BuildsAround entry.2

@[simp]
theorem buildsAround_alone : BuildsAround alone := fun _ _ h => by simp [alone, h]

@[simp]
theorem buildsAround_spaceBefore : BuildsAround spaceBefore := fun _ _ h => by
  simp [spaceBefore, h]

@[simp]
theorem buildsAround_spaceAfterDoc : BuildsAround spaceAfterDoc := fun _ _ h => by
  simp [spaceAfterDoc, h]

@[simp]
theorem buildsAround_hardBefore : BuildsAround hardBefore := fun _ _ h => by
  simp [hardBefore, h]

@[simp]
theorem buildsAround_lineIndented : BuildsAround lineIndented := fun _ _ h =>
  List.forall_mem_singleton.mpr (.nested (.cat (by simp [h])))

@[simp]
theorem buildsAround_hardIndented : BuildsAround hardIndented := fun _ _ h =>
  List.forall_mem_singleton.mpr (.nested (.cat (by simp [h])))

/-- A child is passed over, or it is printed in the surroundings of one of the entries that list
its kind. -/
theorem yields_selectChild {sel : Selection} {c : Below p} {P : List Doc → Prop} (hnone : P [])
    (hsome : ∀ entry ∈ sel, c.1.node.kind ∈ entry.1 → (print c).Yields fun d => P (entry.2 d)) :
    (selectChild sel print c).Yields P := by
  rw [selectChild]
  split
  · exact .pure hnone
  · next surround hsurround =>
    obtain ⟨entry, hentry, rfl⟩ := Option.map_eq_some_iff.mp hsurround
    have hlisted : c.1.node.kind ∈ entry.1 := List.contains_iff_mem.mp (List.find?_some hentry :)
    exact (hsome entry (List.mem_of_find?_eq_some hentry) hlisted).bind fun d hd => .pure hd

theorem builds_selectChild {sel : Selection} (hsel : sel.Builds) {c : Below p}
    (hprint : c.1.node.kind ∈ sel.kinds → (print c).Yields (Built S)) :
    (selectChild sel print c).Yields fun ds => ∀ d ∈ ds, Built S d :=
  yields_selectChild (List.forall_mem_nil _) fun entry hentry hlisted =>
    (hprint (List.mem_flatMap.mpr ⟨entry, hentry, hlisted⟩)).mono (hsel entry hentry S)

theorem builds_select {sel : Selection} (hsel : sel.Builds)
    (hprint : ∀ c ∈ ofKinds sel.kinds p, (print c).Yields (Built S)) :
    (select sel p print).Yields fun ds => ∀ d ∈ ds, Built S d :=
  .collect fun c hc => builds_selectChild hsel fun hkind => hprint c (mem_ofKinds.mpr ⟨hc, hkind⟩)

variable {rule rule' : DocRule} {pick : Pick}

/-- A rule that prints no child. -/
theorem builds_of_pure {text : Path → Doc} (h : ∀ S p, Built S (text p)) :
    Builds (fun p _ => pure (text p)) fun _ => [] := fun S p _ _ => .pure (h S p)

/-- A rule that prints all children and puts their documents together. -/
theorem builds_of_printChildren {finish : Path → List Doc → Doc}
    (hrule : ∀ p print, rule p print = printChildren p print >>= fun ds => pure (finish p ds))
    (h : ∀ S p ds, (∀ d ∈ ds, Built S d) → Built S (finish p ds)) : Builds rule Path.children := by
  intro S p print hprint
  rw [hrule]
  exact (Yields.all hprint).bind fun ds hds => .pure (h S p ds hds)

/-- A rule that prints the children of a selection and puts their documents together. -/
theorem builds_of_select {kinds : List String} {sel : Path → Selection}
    {finish : Path → List Doc → Doc}
    (hrule : ∀ p print, rule p print = select (sel p) p print >>= fun ds => pure (finish p ds))
    (hkinds : ∀ p, (sel p).kinds = kinds) (hsel : ∀ p, (sel p).Builds)
    (h : ∀ S p ds, (∀ d ∈ ds, Built S d) → Built S (finish p ds)) :
    Builds rule (ofKinds kinds) := by
  intro S p print hprint
  rw [hrule]
  refine (builds_select (hsel p) ?_).bind fun ds hds => .pure (h S p ds hds)
  rwa [hkinds p]

/-- A rule that puts something around the document of another rule. -/
theorem Builds.wrap {finish : Path → Doc → Doc} (h : Builds rule' pick)
    (hrule : ∀ p print, rule p print = rule' p print >>= fun d => pure (finish p d))
    (hfinish : ∀ S p d, Built S d → Built S (finish p d)) : Builds rule pick := by
  intro S p print hprint
  rw [hrule]
  exact (h S p print hprint).bind fun d hd => .pure (hfinish S p d hd)

/-- A rule that prints names by their text, and other children by a selection. -/
theorem builds_of_names {kinds : List String} {sel : Selection}
    {named : (p : Path) → Below p → List Doc} {finish : List Doc → Doc}
    (hrule : ∀ p print, rule p print = Printing.collect (fun c =>
      if c.1.node.kind = "IDENT" then return named p c
      else selectChild sel print c) p.children >>= fun ds => pure (finish ds))
    (hkinds : kinds = "IDENT" :: sel.kinds)
    (hnamed : ∀ S p c, ∀ d ∈ named p c, Built S d) (hsel : sel.Builds)
    (h : ∀ S ds, (∀ d ∈ ds, Built S d) → Built S (finish ds)) : Builds rule (ofKinds kinds) := by
  subst hkinds
  intro S p print hprint
  rw [hrule]
  refine (Yields.collect fun c hc => ?_).bind fun ds hds => .pure (h S ds hds)
  split
  · exact .pure (hnamed S p c)
  · refine builds_selectChild hsel fun hkind => hprint c ?_
    exact mem_ofKinds.mpr ⟨hc, List.mem_cons_of_mem _ hkind⟩

/-- A rule that prints expressions in surroundings of their own, and other children by a
selection. -/
theorem builds_of_expressions {kinds : List String} {sel : Selection} {σ : Type}
    {next : (p : Path) → σ → Below p → σ} {state : σ} {around : σ → Doc → List Doc}
    {finish : List Doc → Doc}
    (hrule : ∀ p print, rule p print = Printing.collectFrom (next p) (fun s c =>
      if isExpression c.1.node then do return around s (← print c)
      else selectChild sel print c) state p.children >>= fun ds => pure (finish ds))
    (hkinds : kinds = "expression" :: "simple_expression" :: sel.kinds)
    (haround : ∀ S s d, Built S d → ∀ e ∈ around s d, Built S e) (hsel : sel.Builds)
    (h : ∀ S ds, (∀ d ∈ ds, Built S d) → Built S (finish ds)) : Builds rule (ofKinds kinds) := by
  subst hkinds
  intro S p print hprint
  rw [hrule]
  refine (Yields.collectFrom (fun s c hc => ?_) _).bind fun ds hds => .pure (h S ds hds)
  split
  · next hexpr =>
    have hmem : c ∈ ofKinds ("expression" :: "simple_expression" :: sel.kinds) p := by
      refine mem_ofKinds.mpr ⟨hc, ?_⟩
      rcases isExpression_iff.mp hexpr with h | h <;> simp [h]
    exact (hprint c hmem).bind fun d hd => .pure (haround S s d hd)
  · refine builds_selectChild hsel fun hkind => hprint c ?_
    exact mem_ofKinds.mpr ⟨hc, List.mem_cons_of_mem _ (List.mem_cons_of_mem _ hkind)⟩

end Forms

namespace Rules

/-! ### Names, literals and wrappers -/

theorem builds_sequence : Builds sequence Path.children :=
  builds_of_printChildren (fun _ _ => rfl) fun _ _ _ hds => .cat hds

theorem builds_literal : Builds literal Path.children := by
  intro S p print hprint
  rw [literal]
  split
  · exact .pure (built_textOf _)
  · exact builds_sequence S p print hprint

theorem builds_spaced : Builds spaced Path.children :=
  builds_of_printChildren (fun _ _ => rfl) fun _ _ _ hds => .sepBy built_space hds

theorem builds_commaList : Builds commaList Path.children :=
  builds_of_printChildren (fun _ _ => rfl) fun _ _ _ hds => .sepBy (.lit _) hds

theorem builds_onLines : Builds onLines Path.children :=
  builds_of_printChildren (fun _ _ => rfl) fun _ _ _ hds => .sepBy .hardLine hds

/-! ### Files and classes -/

theorem builds_storedDefinitions : Builds storedDefinitions Path.children :=
  builds_onLines.wrap (fun _ _ => rfl) fun _ _ _ hd => .cat (by simp [hd])

theorem builds_withinClause : Builds withinClause (ofKinds ["name"]) :=
  builds_of_select (fun _ _ => rfl) (fun _ => rfl)
    (fun _ => by simp [Selection.Builds])
    fun _ _ _ hds => .cat (by simpa [or_imp, forall_and] using hds)

private theorem builds_classSections : classSections.Builds := by
  have hnote : BuildsAround fun d => [nested (cat [hardLine, d, lit ";"])] := fun _ _ h =>
    List.forall_mem_singleton.mpr (.nested (.cat (by simp [h])))
  simp [Selection.Builds, classSections, hnote]

theorem builds_longClassSpecifier : Builds longClassSpecifier classParts := by
  intro S p print hprint
  refine (Yields.collectFrom (Q := Built S) (fun name c hc => ?_) _).bind fun ds hds =>
    .pure (.grouped (.cat ?_))
  · show Yields (ite _ _ _) _
    split
    · exact .pure (by simp)
    · show Yields (ite _ _ _) _
      split
      · exact .pure (List.forall_mem_nil _)
      · next hfull =>
        refine builds_selectChild builds_classSections fun hkind => hprint c ?_
        refine List.mem_filter.mpr ⟨hc, ?_⟩
        rw [isSection_iff.mpr ⟨hkind, hfull⟩, Bool.true_or]
  · simpa [or_imp, forall_and] using hds

theorem builds_shortClassSpecifier :
    Builds shortClassSpecifier (ofKinds ["IDENT", "base_prefix", "enum_list", "type_specifier",
      "class_modification", "array_subscripts", "description_string", "comment"]) := by
  have henum : BuildsAround fun d => [keyword "enumeration", lit "(", d, lit ")"] :=
    fun _ _ h => by simp [h]
  exact builds_of_names (fun _ _ => rfl) rfl (by simp) (by simp [Selection.Builds, henum])
    fun _ _ hds => .cat hds

theorem builds_visibilitySection : Builds visibilitySection Path.children :=
  builds_onLines.wrap (fun _ _ => rfl) fun _ _ _ hd =>
    .cat (List.forall_mem_cons.mpr ⟨.keyword _, buildsAround_hardIndented _ _ hd⟩)

/-! ### Elements of classes -/

theorem builds_namedElement :
    Builds namedElement (ofKinds ["component_clause", "class_definition", "comment"]) := by
  have hclause : BuildsAround fun d => [d, lit ";"] := fun _ _ h => by simp [h]
  exact builds_of_select (fun _ _ => rfl) (fun _ => rfl)
    (fun _ => by simp [Selection.Builds, hclause]) fun _ _ _ hds =>
    .cat (List.forall_mem_append.mpr ⟨built_leadingParts _, hds⟩)

theorem builds_importClause : Builds importClause Path.children :=
  builds_spaced.wrap (fun _ _ => rfl) fun _ _ _ hd => .cat (by simp [hd])

theorem builds_extendsClause :
    Builds extendsClause (ofKinds ["type_specifier", "class_modification",
      "annotation_clause"]) :=
  builds_of_select (fun _ _ => rfl) (fun _ => rfl) (fun _ => by simp [Selection.Builds])
    fun _ _ _ hds => .grouped (.cat (by simpa [or_imp, forall_and] using hds))

theorem builds_constrainingClause : Builds constrainingClause Path.children :=
  builds_spaced.wrap (fun _ _ => rfl) fun _ _ _ hd => .cat (by simp [hd])

theorem builds_componentClause :
    Builds componentClause (ofKinds ["type_specifier", "array_subscripts",
      "component_list"]) := by
  have htype : BuildsAround fun d => [annotate (.token .keywordType) d, space] :=
    fun _ _ h => by simp [h]
  exact builds_of_select (fun _ _ => rfl) (fun _ => rfl)
    (fun _ => by simp [Selection.Builds, htype]) fun _ _ _ hds =>
    .cat (List.forall_mem_append.mpr ⟨built_leadingParts _, hds⟩)

theorem builds_componentList : Builds componentList Path.children := by
  intro S p print hprint
  refine (Yields.all hprint).bind fun ds hds => ?_
  split
  · exact .pure (hds _ (by simp))
  · exact .pure (.grouped (.nested (.commaSeparated _ hds)))

theorem builds_componentDeclaration :
    Builds componentDeclaration (ofKinds ["declaration", "condition_attribute", "comment",
      "description_string", "annotation_clause"]) :=
  builds_of_select (fun _ _ => rfl) (fun _ => rfl) (fun _ => by simp [Selection.Builds])
    fun _ _ _ hds => .grouped (.cat hds)

theorem builds_conditionAttribute : Builds conditionAttribute Path.children :=
  builds_sequence.wrap (fun _ _ => rfl) fun _ _ _ hd => .cat (by simp [hd])

theorem builds_declaration :
    Builds declaration (ofKinds ["IDENT", "array_subscripts", "modification"]) :=
  builds_of_select (fun _ _ => rfl) (fun _ => rfl)
    (fun _ => by simp [Selection.Builds]) fun _ _ _ hds => .cat hds

/-! ### Modifications -/

theorem builds_modification :
    Builds modification (ofKinds ["class_modification", "expression", "simple_expression"]) := by
  refine builds_of_select (fun _ _ => rfl) (fun _ => rfl) (fun p => ?_) fun _ _ _ hds => .cat hds
  simp only [Selection.Builds, List.forall_mem_cons]
  refine ⟨buildsAround_alone, fun S d hd => ?_, List.forall_mem_nil _⟩
  have hhug : Built S (nested (hug softLine d)) := .nested (.hug hd)
  split <;> simp [hd, hhug]

theorem builds_classModification : Builds classModification Path.children := by
  intro S p print hprint
  rw [classModification]
  split
  · exact .pure (.lit _)
  · refine (Yields.all hprint).bind fun ds hds => .pure (built_bracketed _ _ ?_)
    have hbody (packed : Bool) : Built S (cat [emptyLine, commaSeparated packed ds]) :=
      .cat (by simp [Built.commaSeparated packed hds])
    split
    · split
      · exact .nested (.commaSeparated _ hds)
      · split
        · exact hbody true
        · exact .nested (hbody true)
    · exact .nested (hbody false)

theorem builds_argumentList : Builds argumentList Path.children :=
  builds_of_printChildren (fun _ _ => rfl) fun _ _ _ hds => .commaSeparated _ hds

theorem builds_elementModification : Builds elementModification modificationParts := by
  intro S p print hprint
  refine (yields_lift (P := fun short => compactModification? p = .ok short)
    fun short h => h).bind fun short hshort => ?_
  cases short with
  | some short =>
    exact .pure (.cat (List.forall_mem_append.mpr ⟨built_leadingParts _, by simp⟩))
  | none =>
    rw [modificationParts, hshort] at hprint
    exact (builds_select (by simp [Selection.Builds]) hprint).bind fun ds hds =>
      .pure (.cat (List.forall_mem_append.mpr ⟨built_leadingParts _, hds⟩))

theorem builds_redeclaration : Builds redeclaration
    (ofKinds ["short_class_definition", "class_definition", "component_clause"]) :=
  builds_of_select (fun _ _ => rfl) (fun _ => rfl)
    (fun _ => by simp [Selection.Builds])
    fun _ _ _ hds => .cat (by simpa using hds)

theorem builds_shortClassDefinition :
    Builds shortClassDefinition (ofKinds ["class_prefixes", "short_class_specifier"]) :=
  builds_of_select (fun _ _ => rfl) (fun _ => rfl) (fun _ => by simp [Selection.Builds])
    fun _ _ _ hds => .cat hds

/-! ### Equations and statements -/

theorem builds_sectionOf (title bodyKind : String) :
    Builds (sectionOf title bodyKind) (ofKinds [bodyKind, "comment"]) := by
  refine builds_of_select (fun _ _ => rfl) (fun _ => rfl)
    (fun _ => by simp [Selection.Builds])
    fun S p ds hds => .cat (List.forall_mem_cons.mpr ⟨.keyword _, ?_⟩)
  split
  · exact List.forall_mem_nil _
  · exact buildsAround_hardIndented _ _ (.sepBy .hardLine hds)

theorem builds_simpleEquation :
    Builds simpleEquation (ofKinds ["expression", "simple_expression", "comment"]) :=
  builds_of_expressions (fun _ _ => rfl) rfl (fun S s d hd => by split <;> simp [hd])
    (by simp [Selection.Builds])
    fun _ _ hds => .grouped (.cat (by simpa [or_imp, forall_and] using hds))

theorem builds_assignmentStatement : Builds assignmentStatement
    (ofKinds ["expression", "simple_expression", "component_reference", "comment"]) :=
  builds_of_expressions (fun _ _ => rfl) rfl (fun S s d hd => by split <;> simp [hd])
    (by simp [Selection.Builds])
    fun _ _ hds => .grouped (.cat (by simpa [or_imp, forall_and] using hds))

/-- Documents that a walk over some of the children gives, each with a tag. -/
private theorem yields_tagged {τ : Type} {S : Doc → Prop} {p : Path}
    {print : Below p → Printing Doc} {isAsked : Below p → Bool} {tag : Below p → τ}
    (hprint : ∀ c ∈ p.children, isAsked c = true → (print c).Yields (Built S)) :
    (Printing.collect (fun c : Below p =>
      if isAsked c then return [(tag c, ← print c)] else return []) p.children).Yields
      fun parts => ∀ part ∈ parts, Built S part.2 := by
  refine .collect fun c hc => ?_
  split
  · next hasked => exact (hprint c hc hasked).bind fun d hd => .pure (by simpa using hd)
  · exact .pure (List.forall_mem_nil _)

theorem builds_connectClause :
    Builds connectClause (ofKinds ["component_reference", "annotation_clause"]) := by
  intro S p print hprint
  refine (yields_tagged fun c hc hasked => hprint c (mem_ofKinds.mpr ⟨hc, ?_⟩)).bind
    fun parts hparts => .pure (.grouped (.cat ?_))
  · simpa using hasked
  have hof (kind : String) : ∀ d ∈ (parts.filter (·.1 = kind)).map (·.2), Built S d := by
    intro d hd
    obtain ⟨part, hpart, rfl⟩ := List.mem_map.mp hd
    exact hparts part (List.mem_filter.mp hpart).1
  have hargs : Built S (sepBy (lit ", ") _) := .sepBy (.lit _) (hof "component_reference")
  have hnotes : ∀ d ∈ ((parts.filter (·.1 = "annotation_clause")).map (·.2)).getLast?.elim []
      lineIndented, Built S d := by
    cases hlast : ((parts.filter (·.1 = "annotation_clause")).map (·.2)).getLast? with
    | none => exact List.forall_mem_nil _
    | some d => exact buildsAround_lineIndented _ _ (hof _ d (List.mem_of_getLast? hlast))
  simp only [List.forall_mem_append]
  exact ⟨⟨by simp [hargs], hnotes⟩, by simp⟩

theorem builds_forLoop :
    Builds forLoop (ofKinds ["for_indices", "equation_list", "statement_list"]) := by
  have hindices : BuildsAround fun d => [d, space, keyword "loop"] := fun _ _ h => by simp [h]
  exact builds_of_select (fun _ _ => rfl) (fun _ => rfl)
    (fun _ => by simp [Selection.Builds, hindices]) fun _ _ _ hds =>
    .cat (by simpa [or_imp, forall_and] using hds)

theorem builds_forIndex :
    Builds forIndex (ofKinds ["IDENT", "expression", "simple_expression"]) := by
  have hrange : BuildsAround fun d => [space, keyword "in", space, d] := fun _ _ h => by simp [h]
  exact builds_of_names (fun _ _ => rfl) rfl (by simp) (by simp [Selection.Builds, hrange])
    fun _ _ hds => .cat hds

theorem builds_conditionalBlock (style : BlockStyle) :
    Builds (conditionalBlock style) (blockParts style.clauseKinds) := by
  intro S p print hprint
  refine (Yields.collectFrom_before (Q := Built S) fun before c after hchildren => ?_).bind
    fun ds hds => .pure (.cat ?_)
  · show Yields (ite _ _ _) _
    rw [conditionDone_foldl]
    have hmem (hpart : (isBody c.1.node || style.clauseKinds.contains c.1.node.kind ||
        c.1.node.kind = "comment") = true) : c ∈ blockParts style.clauseKinds p :=
      mem_blockParts.mpr (.inr ⟨by simp [hchildren], hpart⟩)
    split
    · next hcondition =>
      have hfirst : c ∈ blockParts style.clauseKinds p :=
        mem_blockParts.mpr (.inl ⟨before, after, hchildren, by simpa using hcondition⟩)
      exact (hprint c hfirst).bind fun d hd => .pure (by simp [hd])
    · show Yields (ite _ _ _) _
      split
      · next hbody =>
        refine (hprint c (hmem (by simp [hbody]))).bind fun d hd => .pure ?_
        refine List.forall_mem_append.mpr ⟨?_, buildsAround_hardIndented _ _ hd⟩
        rw [elseBefore]
        split <;> simp
      · show Yields (ite _ _ _) _
        split
        · next hclause =>
          exact (hprint c (hmem (by simp [List.contains_iff_mem.mp hclause]))).bind fun d hd =>
            .pure (buildsAround_hardBefore _ _ hd)
        · refine builds_selectChild (by simp [Selection.Builds]) fun hkind => hprint c (hmem ?_)
          simp_all [Selection.kinds]
  · cases style.closer <;> simpa [or_imp, forall_and] using hds

theorem builds_callStatement : Builds callStatement Path.children :=
  builds_of_printChildren (fun _ _ => rfl) fun _ _ _ hds =>
    .cat (by simpa [or_imp, forall_and] using hds)

theorem builds_multipleOutputCall : Builds multipleOutputCall
    (ofKinds ["output_expression_list", "component_reference", "function_application"]) := by
  have hcall : BuildsAround fun d => [lit ") ", operator ":=", space, d] := fun _ _ h => by
    simp [h]
  exact builds_of_select (fun _ _ => rfl) (fun _ => rfl)
    (fun _ => by simp [Selection.Builds, hcall]) fun _ _ _ hds =>
    .cat (by simpa [or_imp, forall_and] using hds)

/-! ### Expressions -/

theorem builds_ifExpression : Builds ifExpression Path.children := by
  intro S p print hprint
  rw [ifExpression]
  split
  · next condition value others hchildren =>
    rw [hchildren] at hprint
    obtain ⟨hcondition, hvalue, hothers⟩ := by simpa only [List.forall_mem_cons] using hprint
    refine hcondition.bind fun c hc => hvalue.bind fun v hv => ?_
    refine (Yields.collect (Q := Built S) fun q hq => (hothers q hq).bind fun d hd =>
      .pure (by split <;> simp [hd])).bind fun ds hds => ?_
    have hbranches : Built S (cat ([softLine, keyword "then", space, v] ++ ds)) :=
      .cat (List.forall_mem_append.mpr ⟨by simp [hv], hds⟩)
    refine Yields.bind (P := fun _ => True) (fun _ _ _ => trivial) fun continuation _ =>
      .pure (.grouped (.cat ?_))
    simp only [List.forall_mem_cons]
    refine ⟨.keyword _, built_space, hc, ?_, List.forall_mem_nil _⟩
    split
    · exact hbranches
    · exact .nested hbranches
  · exact yields_fail _

theorem builds_elseIfClause : Builds elseIfClause clauseParts := by
  intro S p print hprint
  rw [elseIfClause]
  split
  · exact yields_fail _
  · next condition others hchildren =>
    rw [clauseParts, hchildren, List.take_succ_cons] at hprint
    obtain ⟨hcondition, hothers⟩ := List.forall_mem_cons.mp hprint
    refine hcondition.bind fun c hc => (Yields.all hothers).bind fun ds hds =>
      .pure (.grouped (.cat (List.forall_mem_append.mpr ⟨by simp [hc], fun d hd => ?_⟩)))
    obtain ⟨e, he, hd⟩ := List.mem_flatMap.mp hd
    have hbranch : ∀ d ∈ [softLine, keyword "then", space, e], Built S d := by simp [hds e he]
    exact hbranch d hd

theorem builds_rangeExpression : Builds rangeExpression Path.children :=
  builds_of_printChildren (fun _ _ => rfl) fun _ _ _ hds => .sepBy (.lit _) hds

/-- The operands of the operator chain at a place, if there is one. -/
def chainOperands : Pick := fun p =>
  match flattenChain p with
  | .ok (.chain operands _) => operands
  | _ => []

theorem builds_operatorChain (k : Precedence) : Builds (operatorChain k) chainOperands := by
  intro S p print hprint
  refine (yields_lift (P := fun flattened => flattenChain p = .ok flattened)
    fun flattened h => h).bind fun flattened hflattened => ?_
  cases flattened with
  | single => exact yields_fail _
  | chain operands operators =>
    rw [chainOperands, hflattened] at hprint
    refine (Yields.all hprint).bind fun docs hdocs => ?_
    refine Yields.bind (P := fun _ => True) (fun _ _ _ => trivial) fun continuation _ => ?_
    refine yields_lift fun d hd => ?_
    rw [mapError_eq_ok_iff] at hd
    exact .of_chainOf hd hdocs (by simp)

theorem builds_tightExpression (op : String) : Builds (tightExpression op) Path.children :=
  builds_of_printChildren (fun _ _ => rfl) fun _ _ _ hds =>
    .sepBy built_space (Built.forall_mem_intersperse (.operator op) hds)

/-- The children of a binary expression, and the operands of the chain at it. -/
def binaryOperands : Pick := fun p => p.children ++ chainOperands p

theorem builds_binaryExpression : Builds binaryExpression binaryOperands := by
  intro S p print hprint
  obtain ⟨hchildren, hoperands⟩ := List.forall_mem_append.mp hprint
  rw [binaryExpression]
  split
  · refine Yields.bind (P := fun _ => True) (fun _ _ _ => trivial) fun op _ => ?_
    split
    · next k _ =>
      split
      · exact builds_operatorChain k S p print hoperands
      · exact builds_tightExpression op S p print hchildren
    · exact builds_tightExpression op S p print hchildren
  · exact builds_spaced S p print hchildren

theorem builds_unaryExpression : Builds unaryExpression Path.children := by
  refine builds_of_printChildren (fun _ _ => rfl) fun S p ds hds =>
    .cat (List.forall_mem_append.mpr ⟨?_, hds⟩)
  rw [unaryParts]
  split
  · exact List.forall_mem_nil _
  · split <;> simp

theorem builds_parenthesizedExpression : Builds parenthesizedExpression Path.children :=
  builds_of_printChildren (fun _ _ => rfl) fun _ _ _ hds =>
    built_bracketed _ _ (.nested (.cat hds))

theorem builds_arrayConstructor : Builds arrayConstructor Path.children := by
  intro S p print hprint
  refine (Yields.all hprint).bind fun ds hds => ?_
  split
  · exact .pure (built_bracketed _ _ (.sepBy (.lit _) hds))
  · have hbody : Built S (cat [emptyLine, cat ds]) := .cat (by simp [Built.cat hds])
    exact .pure (.grouped (.cat (by simp [hbody])))

theorem builds_arrayArguments : Builds arrayArguments Path.children :=
  builds_of_printChildren (fun _ _ => rfl) fun _ _ _ hds => .commaSeparated _ hds

theorem builds_arrayConcatenation : Builds arrayConcatenation Path.children := by
  intro S p print hprint
  refine (Yields.all hprint).bind fun ds hds => ?_
  split
  · exact .pure (built_bracketed _ _ (.sepBy (.lit _) hds))
  · have hrows : Built S (sepBy (cat [lit ";", softLine]) ds) := .sepBy (.cat (by simp)) hds
    have hbody : Built S (cat [emptyLine, sepBy (cat [lit ";", softLine]) ds]) :=
      .cat (by simp [hrows])
    exact .pure (.grouped (.cat (by simp [hbody])))

theorem builds_arrayComprehension : Builds arrayComprehension Path.children := by
  intro S p print hprint
  refine (Yields.collect (Q := Built S) fun c hc => ?_).bind fun ds hds =>
    .pure (.cat (by simpa [or_imp, forall_and] using hds))
  exact (hprint c hc).bind fun d hd => .pure (by split <;> simp [hd])

theorem builds_arraySubscripts : Builds arraySubscripts Path.children :=
  builds_commaList.wrap (fun _ _ => rfl) fun _ _ _ hd => .cat (by simp [hd])

theorem builds_subscript : Builds subscript subscriptParts := by
  intro S p print hprint
  rw [subscript]
  split
  · exact .pure (built_textOf _)
  · next hcolon =>
    rw [subscriptParts, if_neg fun h => hcolon (by simp [h])] at hprint
    exact builds_sequence S p print hprint

/-! ### Calls, names and annotations -/

theorem builds_functionApplication : Builds functionApplication callParts := by
  intro S p print hprint
  rw [functionApplication]
  split
  · exact .pure (.lit _)
  · next hcompact =>
    rw [callParts, hcompact] at hprint
    have hcallee : BuildsAround fun d => [annotate (.token .nameFunction) d] := fun _ _ h => by
      simp [h]
    exact (builds_select (by simp [Selection.Builds, hcallee]) hprint).bind fun ds hds =>
      .pure (.cat hds)

theorem builds_functionCallArgs : Builds functionCallArgs Path.children := by
  intro S p print hprint
  rw [functionCallArgs]
  split
  · exact .pure (.lit _)
  · refine (Yields.all hprint).bind fun ds hds => .pure (built_bracketed _ _ ?_)
    have hbody (packed : Bool) : Built S (nested (cat [emptyLine, commaSeparated packed ds])) :=
      .nested (.cat (by simp [Built.commaSeparated packed hds]))
    split
    · exact hbody true
    · split
      · cases ds with
        | nil => exact .nil
        | cons d ds => exact hds d List.mem_cons_self
      · exact hbody false

theorem builds_namedArgument : Builds namedArgument Path.children := by
  intro S p print hprint
  refine (Yields.collect (Q := Built S) fun c hc => ?_).bind fun ds hds => .pure (.cat hds)
  split
  · exact .pure (by simp)
  · exact (hprint c hc).bind fun d hd => .pure (by simpa using .nested hd)

theorem builds_functionPartialApplication : Builds functionPartialApplication Path.children :=
  builds_spaced.wrap (fun _ _ => rfl) fun _ _ _ hd => .cat (by simp [hd])

private theorem built_dotted {S : Doc → Prop} {parts : List (Bool × Doc)}
    (h : ∀ part ∈ parts, Built S part.2) (last : Option Doc) :
    ∀ d ∈ dotted last parts, Built S d := by
  induction parts generalizing last with
  | nil => exact List.forall_mem_nil _
  | cons part parts ih =>
    obtain ⟨hpart, hparts⟩ := List.forall_mem_cons.mp h
    rw [dotted]
    refine List.forall_mem_append.mpr ⟨?_, List.forall_mem_cons.mpr ⟨hpart, ih hparts _⟩⟩
    split <;> simp

theorem builds_reference : Builds reference
    (ofKinds ["IDENT", "name", "component_reference", "array_subscripts"]) := by
  intro S p print hprint
  refine (yields_tagged fun c hc hasked => hprint c (mem_ofKinds.mpr ⟨hc, ?_⟩)).bind
    fun parts hparts => .pure ?_
  · simpa [or_assoc] using hasked
  · split
    · exact built_textOf _
    · exact .cat (built_dotted hparts none)

theorem builds_annotationClause : Builds annotationClause Path.children :=
  builds_of_printChildren (fun _ _ => rfl) fun _ _ _ hds => .cat (by simpa using hds)

theorem builds_externalClause : Builds externalClause
    (ofKinds ["language_specification", "external_function", "annotation_clause"]) :=
  builds_of_select (fun _ _ => rfl) (fun _ => rfl) (fun _ => by simp [Selection.Builds])
    fun _ _ _ hds => .cat (by simpa [or_imp, forall_and] using hds)

end Rules

/-! ### The table of rules -/

/-- The nodes below a place whose documents are used there: those that are visited, and the
operands of a chain. -/
def sources (p : Path) : List (Below p) :=
  if p.node.kind = "binary_expression" then binaryOperands p else visited p

/-- A rule of an entry of the table builds its document from those of the sources, except where it
prints comments. -/
def BuildsEntry (entry : List String × DocRule) : Prop :=
  ∀ p, p.node.kind ∈ entry.1 → p.node.kind ≠ "comment" → ∀ (S : Doc → Prop) print,
    (∀ c ∈ sources p, (print c).Yields (Built S)) → (entry.2 p print).Yields (Built S)

theorem visited_subset_sources (p : Path) : visited p ⊆ sources p := by
  rw [sources]
  split
  · next hkind =>
    rw [visited, hkind]
    exact List.subset_append_left p.children _
  · exact List.Subset.refl _

theorem Builds.entry {rule : DocRule} {kinds : List String} {pick : Pick} (h : Builds rule pick)
    (hkinds : kinds.map pickOf = kinds.map fun _ => pick) : BuildsEntry (kinds, rule) := by
  intro p hkind _ S print hprint
  have hvisited : visited p = pick p := by
    rw [visited, List.map_inj_left.mp hkinds _ hkind]
  exact h S p print fun c hc => hprint c (visited_subset_sources p (hvisited ▸ hc))

namespace Rules

theorem buildsEntry_terminals : ∀ entry ∈ terminals, BuildsEntry entry := by
  have hcomment : BuildsEntry (["comment"], tokenText .commentSingle) := fun p hkind hne =>
    absurd (List.mem_singleton.mp hkind) hne
  have htoken {c : TokenClass} (hc : c ≠ .commentSingle) : Builds (tokenText c) fun _ => [] :=
    builds_of_pure fun _ _ => .token hc _
  simp only [terminals, List.forall_mem_cons]
  exact ⟨(builds_of_pure fun _ _ => built_textOf _).entry rfl, (htoken (by decide)).entry rfl,
    (htoken (by decide)).entry rfl, (htoken (by decide)).entry rfl, hcomment,
    (htoken (by decide)).entry rfl, (builds_of_pure fun _ _ => .keyword _).entry rfl,
    (htoken (by decide)).entry rfl, builds_literal.entry rfl, builds_sequence.entry rfl,
    List.forall_mem_nil _⟩

theorem buildsEntry_classes : ∀ entry ∈ classes, BuildsEntry entry := by
  simp only [classes, List.forall_mem_cons]
  exact ⟨builds_storedDefinitions.entry rfl, builds_onLines.entry rfl,
    builds_withinClause.entry rfl, builds_spaced.entry rfl, builds_longClassSpecifier.entry rfl,
    builds_shortClassSpecifier.entry rfl, builds_spaced.entry rfl, builds_commaList.entry rfl,
    builds_visibilitySection.entry rfl, List.forall_mem_nil _⟩

theorem buildsEntry_elements : ∀ entry ∈ elements, BuildsEntry entry := by
  simp only [elements, List.forall_mem_cons]
  exact ⟨builds_namedElement.entry rfl, builds_importClause.entry rfl,
    builds_extendsClause.entry rfl, builds_constrainingClause.entry rfl,
    builds_componentClause.entry rfl, builds_componentList.entry rfl,
    builds_componentDeclaration.entry rfl, builds_conditionAttribute.entry rfl,
    builds_declaration.entry rfl, List.forall_mem_nil _⟩

theorem buildsEntry_modifications : ∀ entry ∈ modifications, BuildsEntry entry := by
  simp only [modifications, List.forall_mem_cons]
  exact ⟨builds_modification.entry rfl, builds_classModification.entry rfl,
    builds_argumentList.entry rfl, builds_elementModification.entry rfl,
    builds_redeclaration.entry rfl, builds_shortClassDefinition.entry rfl,
    List.forall_mem_nil _⟩

theorem buildsEntry_statements : ∀ entry ∈ statements, BuildsEntry entry := by
  have hkeyword (s : String) : Builds (keywordStatement s) fun _ => [] :=
    builds_of_pure fun _ _ => .cat (by simp)
  simp only [statements, List.forall_mem_cons]
  exact ⟨(builds_sectionOf _ _).entry rfl, (builds_sectionOf _ _).entry rfl,
    builds_simpleEquation.entry rfl, builds_assignmentStatement.entry rfl,
    builds_connectClause.entry rfl, builds_forLoop.entry rfl, builds_forIndex.entry rfl,
    (builds_conditionalBlock _).entry rfl, (builds_conditionalBlock _).entry rfl,
    (builds_conditionalBlock _).entry rfl, (builds_conditionalBlock _).entry rfl,
    (builds_conditionalBlock _).entry rfl, builds_callStatement.entry rfl,
    (hkeyword _).entry rfl, (hkeyword _).entry rfl, builds_multipleOutputCall.entry rfl,
    List.forall_mem_nil _⟩

theorem buildsEntry_expressions : ∀ entry ∈ expressions, BuildsEntry entry := by
  have hbinary : BuildsEntry (["binary_expression"], binaryExpression) := by
    intro p hkind _ S print hprint
    rw [sources, if_pos (List.mem_singleton.mp hkind)] at hprint
    exact builds_binaryExpression S p print hprint
  simp only [expressions, List.forall_mem_cons]
  exact ⟨builds_ifExpression.entry rfl, builds_elseIfClause.entry rfl,
    builds_rangeExpression.entry rfl, hbinary, builds_unaryExpression.entry rfl,
    builds_parenthesizedExpression.entry rfl, builds_arrayConstructor.entry rfl,
    builds_arrayArguments.entry rfl, builds_arrayConcatenation.entry rfl,
    builds_arrayComprehension.entry rfl, builds_arraySubscripts.entry rfl,
    builds_subscript.entry rfl, List.forall_mem_nil _⟩

theorem buildsEntry_calls : ∀ entry ∈ calls, BuildsEntry entry := by
  simp only [calls, List.forall_mem_cons]
  exact ⟨builds_functionApplication.entry rfl, builds_functionCallArgs.entry rfl,
    builds_namedArgument.entry rfl, builds_functionPartialApplication.entry rfl,
    builds_reference.entry rfl, builds_annotationClause.entry rfl,
    builds_externalClause.entry rfl, List.forall_mem_nil _⟩

end Rules

/-- Comments are printed as their text, with a mark of their own. -/
theorem rule_of_comment {kind : String} {rule : DocRule} (hkind : kind = "comment")
    (hrule : rules.get? kind = some rule) : rule = Rules.tokenText .commentSingle := by
  rw [hkind] at hrule
  exact (Option.some.inj hrule).symm

/-- **Every rule except that for comments builds its document from those of its sources.** -/
theorem builds_rules {p : Path} {rule : DocRule} (h : rules.get? p.node.kind = some rule)
    (hcomment : p.node.kind ≠ "comment") {S : Doc → Prop} {print : Below p → Printing Doc}
    (hprint : ∀ c ∈ sources p, (print c).Yields (Built S)) :
    (rule p print).Yields (Built S) := by
  obtain ⟨entry, hentry, hkind, rfl⟩ := RuleTable.exists_mem_of_get?_ofList h
  simp only [List.mem_append] at hentry
  rcases hentry with (((((h | h) | h) | h) | h) | h) | h
  · exact buildsEntry_terminals entry h p hkind hcomment S print hprint
  · exact buildsEntry_classes entry h p hkind hcomment S print hprint
  · exact buildsEntry_elements entry h p hkind hcomment S print hprint
  · exact buildsEntry_modifications entry h p hkind hcomment S print hprint
  · exact buildsEntry_statements entry h p hkind hcomment S print hprint
  · exact buildsEntry_expressions entry h p hkind hcomment S print hprint
  · exact buildsEntry_calls entry h p hkind hcomment S print hprint

end Typeset.Modelica
