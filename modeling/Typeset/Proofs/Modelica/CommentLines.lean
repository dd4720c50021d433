import Typeset.Proofs.FormattedInk
import Typeset.Proofs.LineComments
import Typeset.Proofs.Modelica.Invariance

/-!
# Where line comments may stand

A rule that puts its children on lines of their own may have line comments among them. Other rules
go on behind a child on the same line, with a separator, a keyword or a semicolon, and a line
comment there would swallow what follows. For each kind of node it is written down here, apart from
the rules, behind which children its rule goes on, which children need not start on a new line, and
whether the rule itself starts a new line behind its children. If the line comments of a tree keep
to that, then they are followed by line breaks in the formatted text under all options.

## Main definitions

* `LineUse`, `lineUse` : how rules put the children of their nodes on lines.
* `endsInComment` : whether what is printed for a node may end in a line comment.
* `standsApart` : the line comments below a node stand where no text follows them.
* `EndsCommentLines` : a text goes on with a line break behind every line comment.

## Main results

* `yields_apart` : what is printed for such a node passes.
* `line_comments_end` : in the formatted text of such a tree, every line comment is followed by a
  line break; but the semicolon of an equation or of an assignment stands behind its last comment,
  on the same line.
-/

namespace Typeset.Modelica

open Doc Printing Rules

/-! ### Lines and children -/

/-- How a rule puts the children of its node on lines. -/
structure LineUse where
  /-- The kinds of the children behind which the rule goes on, on the same line. -/
  glued : String → Bool
  /-- The kinds of the children that need not start on a new line. -/
  inline : String → Bool
  /-- Whether the rule starts a new line behind the last child, and writes something there. -/
  closed : Bool

namespace LineUse

/-- The children are on lines of their own. -/
def lines : LineUse := ⟨fun _ => false, fun _ => false, false⟩

/-- The children stand on one line, with nothing behind the last one. -/
def oneLine (glued : List String) : LineUse := ⟨glued.contains, fun _ => true, false⟩

/-- A block: its condition is followed by a keyword, and comments stay on their line. -/
def block (closed : Bool) : LineUse where
  glued := ["expression", "simple_expression"].contains
  inline := ["expression", "simple_expression", "comment"].contains
  closed := closed

/-- Text may stand behind every child. -/
def text : LineUse := ⟨fun _ => true, fun _ => false, false⟩

end LineUse

/-- The rules behind whose children there may be a new line, by kind. -/
def lineUseEntries : List (List String × LineUse) :=
  [(["stored_definition", "element_list", "equation_list", "statement_list",
     "else_if_equation_clause_list", "else_if_statement_clause_list",
     "else_when_equation_clause_list", "else_when_statement_clause_list"], .lines),
   (["public_element_list", "protected_element_list"], .lines),
   (["equation_section"], .lines),
   (["algorithm_section"], .lines),
   (["stored_definitions"], { LineUse.lines with closed := true }),
   (["long_class_specifier"], ⟨["annotation_clause"].contains, ["IDENT"].contains, true⟩),
   (["for_equation", "for_statement"], ⟨["for_indices"].contains, ["for_indices"].contains, true⟩),
   (["while_statement"], .block true),
   (["if_equation", "if_statement"], .block true),
   (["when_equation", "when_statement"], .block true),
   (["else_if_equation_clause", "else_if_statement_clause"], .block false),
   (["else_when_equation_clause", "else_when_statement_clause"], .block false),
   (["named_element"], .oneLine ["component_clause"]),
   (["short_class_specifier"], .oneLine ["base_prefix", "enum_list"]),
   (["component_declaration"], .oneLine []),
   (["class_definition", "derivative_class_specifier", "enumeration_class_specifier",
     "extends_class_specifier", "enumeration_literal", "element_replaceable",
     "external_function"], .oneLine [])]

/-- How the rule for a kind uses lines; where nothing else is said, text may stand behind every
child. -/
def lineUse (kind : String) : LineUse := ((RuleTable.ofList lineUseEntries).get? kind).getD .text

/-- Whether what is printed for a node may end in a line comment. -/
def endsInComment (p : Path) : Bool :=
  if p.node.kind = "comment" then isLineComment p.node.textOrEmpty
  else !(lineUse p.node.kind).closed && (visited p).any fun c => endsInComment c.1
termination_by p.node.size
decreasing_by exact c.2

/-- What may end in a line comment stands where no text follows it on its line, at a node and at all
nodes that are visited below it. -/
def standsApart (p : Path) : Bool :=
  ((visited p).all fun c => !(endsInComment c.1 && (lineUse p.node.kind).glued c.1.node.kind)) &&
  decide (p.children.Pairwise fun a b =>
    endsInComment a.1 = true → (lineUse p.node.kind).inline b.1.node.kind = false) &&
  (visited p).all fun c => standsApart c.1
termination_by p.node.size
decreasing_by exact c.2

/-! ### Walks over children -/

/-- Documents that a walk over children gives for one of them: behind code they pass, and if they
are not inline, then also behind a line comment. -/
def IsPart (m : Mode) (ends inline : Bool) (ds : List Doc) : Prop :=
  PassesAll m false ds ends ∧ (inline = false → PassesAll m true ds true)

section Walks

variable {m : Mode} {ends inline : Bool} {d : Doc} {ds : List Doc}

theorem isPart_nil (m : Mode) (ends inline : Bool) : IsPart m ends inline [] :=
  ⟨(passesAll_nil m false).mono id (by simp), fun _ => passesAll_nil m true⟩

theorem isPart_inline (h : PassesAll m false ds ends) : IsPart m ends true ds :=
  ⟨h, fun hinline => by cases hinline⟩

/-- What starts on a new line passes behind a line comment. -/
theorem isPart_of_break (h : ∀ b, PassesAll m b ds ends) : IsPart m ends inline ds :=
  ⟨h false, fun _ => (h true).mono id fun _ => rfl⟩

theorem passesAll_spaceBefore (h : d.Passes .flat false ends) (m : Mode) :
    PassesAll m false (spaceBefore d) ends :=
  .cons (built_space.passes m) (passesAll_singleton (h.of_flat m))

theorem passesAll_hardBefore (h : d.Passes .flat false ends) (m : Mode) (b : Bool) :
    PassesAll m b (hardBefore d) ends :=
  .cons (passes_hardLine m b) (passesAll_singleton (h.of_flat m))

theorem passesAll_hardIndented (h : d.Passes .flat false ends) (m : Mode) (b : Bool) :
    PassesAll m b (hardIndented d) ends :=
  passesAll_singleton (passes_nested (passes_cat (passesAll_hardBefore h m b)))

/-- **A walk over children passes** if its parts do and no inline part stands behind a line
comment. -/
theorem passes_collectFrom {α σ : Type} {endsOf inlineOf : α → Bool} {as : List α}
    {next : σ → α → σ} {f : σ → α → Printing (List Doc)} {s : σ}
    (hpart : ∀ (before : List α) a after, as = before ++ a :: after →
      (f (before.foldl next s) a).Yields (IsPart m (endsOf a) (inlineOf a)))
    (hpair : as.Pairwise fun a b => endsOf a = true → inlineOf b = false) :
    (collectFrom next f s as).Yields fun ds =>
      PassesAll m false ds true ∧
        ((∀ a ∈ as, inlineOf a = false) → PassesAll m true ds true) := by
  induction as generalizing s with
  | nil => exact .pure ⟨(isPart_nil m true true).1, fun _ => passesAll_nil m true⟩
  | cons a as ih =>
    obtain ⟨hfirst, hrest⟩ := List.pairwise_cons.mp hpair
    refine (hpart [] a as rfl).bind fun ds hds => ?_
    have htail := ih (s := next s a)
      (fun before b after has => hpart (a :: before) b after (by rw [has]; rfl)) hrest
    refine htail.bind fun es hes => .pure ⟨?_, fun hinline => ?_⟩
    · cases hends : endsOf a with
      | false => exact (hends ▸ hds.1).append hes.1
      | true => exact (hends ▸ hds.1).append (hes.2 fun b hb => hfirst b hb hends)
    · obtain ⟨ha, has⟩ := List.forall_mem_cons.mp hinline
      exact (hds.2 ha).append (hes.2 has)

end Walks

/-! ### Rules -/

section Rules

variable {use : LineUse} {p : Path} {cs : List (Below p)} {print : Below p → Printing Doc}
  {m : Mode}

/-- What is known where a rule is run that prints some of the children: their documents pass, and
they stand where the use of lines admits it. -/
structure PrintsApart (use : LineUse) (cs : List (Below p)) (print : Below p → Printing Doc) :
    Prop where
  passes : ∀ c ∈ cs, (print c).Yields fun d => d.Passes .flat false (endsInComment c.1)
  glued : ∀ c ∈ cs, endsInComment c.1 = true → use.glued c.1.node.kind = false
  inline : p.children.Pairwise fun a b =>
    endsInComment a.1 = true → use.inline b.1.node.kind = false

/-- The rule puts the picked children on lines in the given way. -/
def Separates (use : LineUse) (rule : DocRule) (pick : Pick) : Prop :=
  ∀ p print, PrintsApart use (pick p) print → (rule p print).Yields fun d =>
    d.Passes .flat false true ∧ (use.closed = true → d.IsNeat)

theorem PrintsApart.ends_eq_false (h : PrintsApart use cs print) {c : Below p} (hc : c ∈ cs)
    (hglued : use.glued c.1.node.kind = true) : endsInComment c.1 = false := by
  by_contra hends
  have hfree := h.glued c hc (by simpa using hends)
  rw [hglued] at hfree
  cases hfree

theorem PrintsApart.clean (h : PrintsApart use cs print) {c : Below p} (hc : c ∈ cs) :
    (print c).Yields fun d => d.Passes .flat false true :=
  (h.passes c hc).mono fun _ hd => hd.mono id fun _ => rfl

/-- The surroundings of a selection put what they surround on lines in the given way. -/
def Selection.Fits (sel : Selection) (use : LineUse) (m : Mode) : Prop :=
  ∀ entry ∈ sel, ∀ kind ∈ entry.1, ∀ (d : Doc) (ends : Bool),
    (use.glued kind = true → ends = false) → d.Passes .flat false ends →
    IsPart m ends (use.inline kind) (entry.2 d)

theorem passes_selectChild {sel : Selection} (hsel : sel.Fits use m) (h : PrintsApart use cs print)
    {c : Below p} (hc : c.1.node.kind ∈ sel.kinds → c ∈ cs) :
    (selectChild sel print c).Yields
      (IsPart m (endsInComment c.1) (use.inline c.1.node.kind)) := by
  refine yields_selectChild (isPart_nil _ _ _) fun entry hentry hkind => ?_
  have hmem := hc (List.mem_flatMap.mpr ⟨entry, hentry, hkind⟩)
  exact (h.passes c hmem).mono fun d hd =>
    hsel entry hentry _ hkind d _ (h.ends_eq_false hmem) hd

theorem collect_eq_collectFrom {α β : Type} (f : α → Printing (List β)) (as : List α) :
    collect f as = collectFrom (fun (_ : Unit) _ => ()) (fun _ => f) () as := by
  induction as with
  | nil => rfl
  | cons a as ih => rw [collect, collectFrom, ih]

theorem passes_collect {f : Below p → Printing (List Doc)} (h : PrintsApart use cs print)
    (hpart : ∀ c ∈ p.children,
      (f c).Yields (IsPart m (endsInComment c.1) (use.inline c.1.node.kind))) :
    (collect f p.children).Yields fun ds => PassesAll m false ds true := by
  rw [collect_eq_collectFrom]
  refine (passes_collectFrom (fun before c after hchildren => hpart c ?_) h.inline).mono
    fun _ hds => hds.1
  simp [hchildren]

theorem passes_select {sel : Selection} (hsel : sel.Fits use m)
    (h : PrintsApart use (ofKinds sel.kinds p) print) :
    (select sel p print).Yields fun ds => PassesAll m false ds true :=
  passes_collect h fun _ hc => passes_selectChild hsel h fun hkind => mem_ofKinds.mpr ⟨hc, hkind⟩

theorem passes_onLines (h : PrintsApart use p.children print) :
    (onLines p print).Yields fun d => d.Passes .flat false true :=
  (Yields.all fun _ hc => h.clean hc).bind fun _ hds =>
    .pure (passes_cat (passesAll_intersperse_hardLine hds))

theorem separates_onLines : Separates .lines onLines Path.children := fun _ _ h =>
  (passes_onLines h).mono fun _ hd => ⟨hd, fun hclosed => by cases hclosed⟩

theorem separates_storedDefinitions :
    Separates { LineUse.lines with closed := true } storedDefinitions Path.children := by
  intro p print h
  refine (passes_onLines h).bind fun d hd => .pure ?_
  have hpasses : (cat [d, hardLine]).Passes .flat false false :=
    passes_cat (.cons hd (passesAll_singleton (passes_hardLine _ true)))
  exact ⟨hpasses.mono id (by simp), fun _ => isNeat_of_breakGroup_eq hpasses rfl⟩

theorem separates_visibilitySection : Separates .lines visibilitySection Path.children := by
  intro p print h
  refine (passes_onLines h).bind fun d hd => .pure ⟨passes_cat ?_, fun h => by cases h⟩
  exact .cons ((Built.keyword _).passes _) (passesAll_hardIndented hd .flat false)

theorem separates_sectionOf (title bodyKind : String) :
    Separates .lines (sectionOf title bodyKind) (ofKinds [bodyKind, "comment"]) := by
  intro p print h
  have hcontent : (select [([bodyKind, "comment"], alone)] p print).Yields fun ds =>
      ∀ d ∈ ds, d.Passes .flat false true := by
    refine .collect fun c hc => ?_
    refine yields_selectChild (List.forall_mem_nil _) fun entry hentry hkind => ?_
    obtain rfl := List.mem_singleton.mp hentry
    exact (h.clean (mem_ofKinds.mpr ⟨hc, hkind⟩)).mono fun _ hd => List.forall_mem_singleton.mpr hd
  refine hcontent.bind fun ds hds => .pure ⟨passes_cat (.cons ((Built.keyword _).passes _) ?_),
    fun h => by cases h⟩
  split
  · exact (isPart_nil .flat true true).1
  · exact passesAll_hardIndented (passes_cat (passesAll_intersperse_hardLine hds)) .flat false

private theorem fits_classSections : classSections.Fits
    ⟨["annotation_clause"].contains, ["IDENT"].contains, true⟩ .broken := by
  intro entry hentry kind hkind d ends hglued hd
  refine isPart_of_break fun b => ?_
  simp only [classSections, List.mem_cons, List.not_mem_nil, or_false] at hentry
  rcases hentry with rfl | rfl | rfl | rfl | rfl
  · exact passesAll_singleton (passes_nested (passes_cat
      (.cons (passes_softLine_broken b) (passesAll_singleton (hd.of_flat _)))))
  · exact passesAll_hardIndented hd .broken b
  · exact passesAll_hardBefore hd .broken b
  · -- a semicolon follows an annotation
    obtain rfl := List.mem_singleton.mp hkind
    obtain rfl := hglued rfl
    exact passesAll_singleton (passes_nested (passes_cat (.cons (passes_hardLine _ b)
      (.cons (hd.of_flat _) (passesAll_singleton (passes_lit _ _))))))
  · exact passesAll_hardIndented hd .broken b

/-- The group of a class must break, and so its description starts on a new line, too. -/
theorem separates_longClassSpecifier :
    Separates ⟨["annotation_clause"].contains, ["IDENT"].contains, true⟩ longClassSpecifier
      classParts := by
  intro p print h
  refine (passes_collectFrom (m := .broken) (fun before c after hchildren => ?_) h.inline).bind
    fun ds hds => .pure ?_
  · show Yields (ite _ _ _) _
    split
    · next hident =>
      obtain ⟨hkind, -⟩ := by simpa using hident
      rw [hkind]
      refine .pure (isPart_inline (.mono (passesAll_of_built ?_ _) id (by simp)))
      simp
    · show Yields (ite _ _ _) _
      split
      · exact .pure (isPart_nil _ _ _)
      · next hfull =>
        refine passes_selectChild fits_classSections h fun hkind => List.mem_filter.mpr ⟨?_, ?_⟩
        · simp [hchildren]
        · rw [isSection_iff.mpr ⟨hkind, hfull⟩, Bool.true_or]
  · have hend : ∀ d ∈ [keyword "end", space, token .nameClass (className p.node), lit ";"],
        Built IsNeat d := by simp
    have hbody := hds.1.append (.cons (passes_hardLine _ true) (passesAll_of_built hend _))
    have hneat := isNeat_grouped_of_mem (d := hardLine) (by simp) rfl hbody
    exact ⟨hneat.passes.mono id (by simp), fun _ => hneat⟩

/-- What the rule writes on a new line behind the last child makes it neat. -/
private theorem isNeat_of_closer {ds : List Doc} (h : PassesAll .flat false ds true) (k : String) :
    (cat (ds ++ [hardLine, keyword k, lit ";"])).IsNeat := by
  have hcat : cat (ds ++ [hardLine, keyword k, lit ";"]) =
      cat ((ds ++ [hardLine, keyword k]) ++ [lit ";"]) := by simp
  refine isNeat_of_breakGroup_eq (passes_cat (h.append ?_)) ?_
  · exact .cons (passes_hardLine _ true) (passesAll_of_built (by simp) _)
  · rw [hcat, breakGroup_cat_lit]

theorem separates_forLoop :
    Separates ⟨["for_indices"].contains, ["for_indices"].contains, true⟩ forLoop
      (ofKinds ["for_indices", "equation_list", "statement_list"]) := by
  intro p print h
  refine (passes_select (m := .flat) ?_ h).bind fun ds hds => .pure ?_
  · simp only [Selection.Fits, List.forall_mem_cons]
    refine ⟨⟨fun d ends hglued hd => ?_, List.forall_mem_nil _⟩, ?_, List.forall_mem_nil _⟩
    · obtain rfl := hglued rfl
      exact isPart_inline (.cons hd (passesAll_of_built (by simp) _))
    · refine ⟨fun d ends _ hd => ?_, fun d ends _ hd => ?_, List.forall_mem_nil _⟩ <;>
        exact isPart_of_break (passesAll_hardIndented hd .flat)
  · have hopen : PassesAll .flat false (keyword "for" :: space :: ds) true :=
      .cons ((Built.keyword _).passes _) (.cons (built_space.passes _) hds)
    have hneat := isNeat_of_closer hopen "end for"
    exact ⟨hneat.passes.mono id (by simp), fun _ => hneat⟩

theorem separates_conditionalBlock (style : BlockStyle) :
    Separates (.block style.closer.isSome) (conditionalBlock style)
      (blockParts style.clauseKinds) := by
  intro p print h
  refine (passes_collectFrom (m := .flat) (fun before c after hchildren => ?_) h.inline).bind
    fun ds hds => .pure ?_
  · show Yields (ite _ _ _) _
    rw [conditionDone_foldl]
    have hmem (hpart : (isBody c.1.node || style.clauseKinds.contains c.1.node.kind ||
        c.1.node.kind = "comment") = true) : c ∈ blockParts style.clauseKinds p :=
      mem_blockParts.mpr (.inr ⟨by simp [hchildren], hpart⟩)
    split
    · next hcondition =>
      have hcondition : isExpression c.1.node = true ∧
          before.any (isExpression ·.1.node) = false := by
        simpa using hcondition
      have hfirst : c ∈ blockParts style.clauseKinds p :=
        mem_blockParts.mpr (.inl ⟨before, after, hchildren, hcondition⟩)
      have hglued : (LineUse.block style.closer.isSome).glued c.1.node.kind = true ∧
          (LineUse.block style.closer.isSome).inline c.1.node.kind = true := by
        rcases isExpression_iff.mp hcondition.1 with hkind | hkind <;> rw [hkind] <;>
          exact ⟨rfl, rfl⟩
      refine (h.passes c hfirst).bind fun d hd => .pure ?_
      rw [h.ends_eq_false hfirst hglued.1] at hd ⊢
      rw [hglued.2]
      exact isPart_inline (.cons hd (passesAll_of_built (by simp) _))
    · show Yields (ite _ _ _) _
      split
      · next hbody =>
        refine (h.passes c (hmem (by simp [hbody]))).bind fun d hd =>
          .pure (isPart_of_break fun b => ?_)
        rw [elseBefore]
        split
        · exact .cons (passes_hardLine _ b) (.cons ((Built.keyword _).passes _)
            (passesAll_hardIndented hd .flat false))
        · exact passesAll_hardIndented hd .flat b
      · show Yields (ite _ _ _) _
        split
        · next hclause =>
          exact (h.passes c (hmem (by simp [List.contains_iff_mem.mp hclause]))).bind fun d hd =>
            .pure (isPart_of_break (passesAll_hardBefore hd .flat))
        · refine passes_selectChild ?_ h fun hkind => hmem ?_
          · simp only [Selection.Fits, List.forall_mem_cons]
            refine ⟨⟨fun d ends _ hd => ?_, List.forall_mem_nil _⟩, List.forall_mem_nil _⟩
            exact isPart_inline (passesAll_spaceBefore hd .flat)
          · simp_all [Selection.kinds]
  · have hopen : PassesAll .flat false (keyword style.opener :: space :: ds) true :=
      .cons ((Built.keyword _).passes _) (.cons (built_space.passes _) hds.1)
    cases hcloser : style.closer with
    | none => exact ⟨passes_cat (by simpa using hopen), fun h => by cases h⟩
    | some k =>
      have hneat := isNeat_of_closer hopen k
      exact ⟨hneat.passes.mono id (by simp), fun _ => hneat⟩

theorem separates_namedElement : Separates (.oneLine ["component_clause"]) namedElement
    (ofKinds ["component_clause", "class_definition", "comment"]) := by
  intro p print h
  refine (passes_select (m := .flat) ?_ h).bind fun ds hds =>
    .pure ⟨passes_cat (.append (passesAll_of_built (built_leadingParts _) _) hds),
      fun h => by cases h⟩
  simp only [Selection.Fits, List.forall_mem_cons]
  refine ⟨⟨fun d ends hglued hd => ?_, List.forall_mem_nil _⟩,
    ⟨fun d ends _ hd => ?_, List.forall_mem_nil _⟩,
    ⟨fun d ends _ hd => ?_, List.forall_mem_nil _⟩, List.forall_mem_nil _⟩
  · obtain rfl := hglued rfl
    exact isPart_inline (.cons hd (passesAll_singleton (passes_lit _ _)))
  · exact isPart_inline (passesAll_singleton hd)
  · exact isPart_inline (passesAll_spaceBefore hd .flat)

theorem separates_shortClassSpecifier :
    Separates (.oneLine ["base_prefix", "enum_list"]) shortClassSpecifier
      (ofKinds ["IDENT", "base_prefix", "enum_list", "type_specifier", "class_modification",
        "array_subscripts", "description_string", "comment"]) := by
  intro p print h
  refine (passes_collect (m := .flat) h fun c hc => ?_).bind fun ds hds =>
    .pure ⟨passes_cat hds, fun h => by cases h⟩
  show Yields (ite _ _ _) _
  split
  · refine .pure (isPart_inline (.mono (passesAll_of_built ?_ _) id (by simp)))
    simp
  · refine passes_selectChild ?_ h fun hkind =>
      mem_ofKinds.mpr ⟨hc, List.mem_cons_of_mem _ hkind⟩
    intro entry hentry kind hkind d ends hglued hd
    refine isPart_inline ?_
    simp only [List.mem_cons, List.not_mem_nil, or_false] at hentry
    rcases hentry with rfl | rfl | rfl | rfl
    · obtain rfl := List.mem_singleton.mp hkind
      obtain rfl := hglued rfl
      exact .cons hd (passesAll_singleton (built_space.passes _))
    · obtain rfl := List.mem_singleton.mp hkind
      obtain rfl := hglued rfl
      exact .cons ((Built.keyword _).passes _) (.cons (passes_lit _ _)
        (.cons hd (passesAll_singleton (passes_lit _ _))))
    · exact passesAll_singleton hd
    · exact passesAll_spaceBefore hd .flat

theorem separates_componentDeclaration : Separates (.oneLine []) componentDeclaration
    (ofKinds ["declaration", "condition_attribute", "comment", "description_string",
      "annotation_clause"]) := by
  intro p print h
  refine (passes_select (m := .flat) ?_ h).bind fun ds hds =>
    .pure ⟨passes_grouped (passes_cat hds) _, fun h => by cases h⟩
  intro entry hentry kind hkind d ends _ hd
  refine isPart_inline ?_
  simp only [List.mem_cons, List.not_mem_nil, or_false] at hentry
  rcases hentry with rfl | rfl | rfl
  · exact passesAll_singleton hd
  · exact passesAll_spaceBefore hd .flat
  · exact passesAll_singleton (passes_nested (passes_cat
      (.cons (passes_line _ _) (passesAll_singleton hd))))

/-- Documents with spaces between them pass if only the last one ends in a line comment. -/
private theorem passesAll_intersperse_space {α : Type} {endsOf : α → Bool} {as : List α}
    {ds : List Doc} (h : List.Forall₂ (fun a d => d.Passes m false (endsOf a)) as ds)
    (hpair : as.Pairwise fun a _ => endsOf a = true → False) :
    PassesAll m false (ds.intersperse space) true := by
  induction h with
  | nil => exact (isPart_nil m true true).1
  | @cons a d as ds hd hds ih =>
    obtain ⟨hfirst, hrest⟩ := List.pairwise_cons.mp hpair
    cases hds with
    | nil => exact passesAll_singleton (hd.mono id fun _ => rfl)
    | @cons b e bs es =>
      have hends : endsOf a = false := by simpa using hfirst b List.mem_cons_self
      rw [hends] at hd
      rw [List.intersperse_cons_cons]
      exact .cons hd (.cons (built_space.passes m) (ih hrest))

theorem separates_spaced : Separates (.oneLine []) spaced Path.children := by
  intro p print h
  have hall : (printChildren p print).Yields
      (List.Forall₂ (fun c d => d.Passes .flat false (endsInComment c.1)) p.children) :=
    ends_iff_yields.mp (Ends.all fun c hc => ends_iff_yields.mpr (h.passes c hc))
  refine hall.bind fun ds hds =>
    .pure ⟨passes_cat (passesAll_intersperse_space hds (h.inline.imp fun hab hends => ?_)),
      fun h => by cases h⟩
  cases hab hends

/-- The kinds of an entry have one rule, which puts children on lines as the entry says. -/
def SeparatesEntry (entry : List String × LineUse) : Prop :=
  ∃ rule pick, entry.1.map rules.get? = entry.1.map (fun _ => some rule) ∧
    entry.1.map pickOf = entry.1.map (fun _ => pick) ∧ Separates entry.2 rule pick

theorem separates_entries : ∀ entry ∈ lineUseEntries, SeparatesEntry entry := by
  simp only [lineUseEntries, List.forall_mem_cons]
  exact ⟨⟨_, _, rfl, rfl, separates_onLines⟩, ⟨_, _, rfl, rfl, separates_visibilitySection⟩,
    ⟨_, _, rfl, rfl, separates_sectionOf _ _⟩, ⟨_, _, rfl, rfl, separates_sectionOf _ _⟩,
    ⟨_, _, rfl, rfl, separates_storedDefinitions⟩,
    ⟨_, _, rfl, rfl, separates_longClassSpecifier⟩, ⟨_, _, rfl, rfl, separates_forLoop⟩,
    ⟨_, _, rfl, rfl, separates_conditionalBlock whileBlock⟩,
    ⟨_, _, rfl, rfl, separates_conditionalBlock ifBlock⟩,
    ⟨_, _, rfl, rfl, separates_conditionalBlock whenBlock⟩,
    ⟨_, _, rfl, rfl, separates_conditionalBlock elseIfBlock⟩,
    ⟨_, _, rfl, rfl, separates_conditionalBlock elseWhenBlock⟩,
    ⟨_, _, rfl, rfl, separates_namedElement⟩, ⟨_, _, rfl, rfl, separates_shortClassSpecifier⟩,
    ⟨_, _, rfl, rfl, separates_componentDeclaration⟩, ⟨_, _, rfl, rfl, separates_spaced⟩,
    List.forall_mem_nil _⟩

/-- Every rule puts the children of its node on lines as the table says, where it says anything. -/
theorem yields_of_lineUse {rule : DocRule} (hrule : rules.get? p.node.kind = some rule)
    (huse : (RuleTable.ofList lineUseEntries).get? p.node.kind = some use)
    (h : PrintsApart use (visited p) print) : (rule p print).Yields fun d =>
      d.Passes .flat false true ∧ (use.closed = true → d.IsNeat) := by
  obtain ⟨entry, hentry, hkind, rfl⟩ := RuleTable.exists_mem_of_get?_ofList huse
  obtain ⟨rule', pick, hrules, hpicks, hseparates⟩ := separates_entries entry hentry
  rw [List.map_inj_left.mp hrules _ hkind] at hrule
  cases hrule
  have hvisited : visited p = pick p := by
    rw [visited, List.map_inj_left.mp hpicks _ hkind]
  rw [hvisited] at h
  exact hseparates p print h

end Rules

/-! ### Trees -/

/-- The document of a node passes, and it is neat unless the node may end in a line comment. -/
structure Apart (p : Path) (d : Doc) : Prop where
  passes : d.Passes .flat false (endsInComment p)
  neat : endsInComment p = false → d.IsNeat

section Trees

variable {p : Path}

theorem standsApart_iff : standsApart p = true ↔
    (∀ c ∈ visited p, endsInComment c.1 = true →
      (lineUse p.node.kind).glued c.1.node.kind = false) ∧
    (p.children.Pairwise fun a b =>
      endsInComment a.1 = true → (lineUse p.node.kind).inline b.1.node.kind = false) ∧
    ∀ c ∈ visited p, standsApart c.1 = true := by
  rw [standsApart]
  simp [and_assoc, imp_iff_not_or]

theorem endsInComment_of_ne (hcomment : p.node.kind ≠ "comment") :
    endsInComment p =
      (!(lineUse p.node.kind).closed && (visited p).any fun c => endsInComment c.1) := by
  rw [endsInComment, if_neg hcomment]

/-- Binary expressions and wrappers end in a line comment if a child does. -/
theorem endsInComment_chain_iff (hkind : isChainKind p.node.kind = true) :
    endsInComment p = false ↔ ∀ c ∈ visited p, endsInComment c.1 = false := by
  have hmem : p.node.kind ∈ ["binary_expression", "expression", "simple_expression",
      "primary_expression"] := by
    simpa [isChainKind, policy, expressionWrappers] using hkind
  have hopen : p.node.kind ≠ "comment" ∧ (lineUse p.node.kind).closed = false := by
    simp only [List.mem_cons, List.not_mem_nil, or_false] at hmem
    rcases hmem with h | h | h | h <;> rw [h] <;> exact ⟨by decide, rfl⟩
  rw [endsInComment_of_ne hopen.1, hopen.2]
  simp

/-- What holds of a binary expression or of a wrapper holds of its children, too: line comments
stand apart, and there is none at the end. -/
private theorem apart_child (hkind : isChainKind p.node.kind = true)
    (h : standsApart p = true ∧ endsInComment p = false) {c : Node} {i : Nat}
    (hc : p.node.children[i]? = some c) :
    standsApart (p.down c i) = true ∧ endsInComment (p.down c i) = false := by
  obtain ⟨q, hq, heq⟩ := exists_visited_down hkind hc
  rw [← heq]
  exact ⟨(standsApart_iff.mp h.1).2.2 q hq, (endsInComment_chain_iff hkind).mp h.2 q hq⟩

/-- Where no visited child ends in a line comment, neither does an operand of a chain. -/
theorem sources_apart (hapart : standsApart p = true)
    (hnone : ∀ c ∈ visited p, endsInComment c.1 = false) :
    ∀ c ∈ sources p, standsApart c.1 = true ∧ endsInComment c.1 = false := by
  have hvisited : ∀ c ∈ visited p, standsApart c.1 = true ∧ endsInComment c.1 = false :=
    fun c hc => ⟨(standsApart_iff.mp hapart).2.2 c hc, hnone c hc⟩
  rw [sources]
  split
  swap
  · exact hvisited
  next hkind =>
  have hchain {q : Path} (h : q.node.kind = "binary_expression") :
      isChainKind q.node.kind = true := by
    simp [isChainKind, h]
  have hpick : visited p = p.children := by rw [visited, (of_isChainKind (hchain hkind)).1]
  refine List.forall_mem_append.mpr ⟨hpick ▸ hvisited, fun c hc => ?_⟩
  rw [chainOperands] at hc
  split at hc
  · next operands operators hflat =>
    -- along wrappers and binary expressions down to the operands
    refine policy.forall_operands (Q := fun q => standsApart q = true ∧ endsInComment q = false)
      (fun q d hq hd h => ?_) (fun q left right k hq hd h => ?_) hflat
      ⟨hapart, (endsInComment_chain_iff (hchain hkind)).mpr hnone⟩ c.1 (List.mem_map_of_mem hc)
    · exact apart_child (i := 0) (isChainKind_of_transparent hq) h (by rw [hd]; rfl)
    · have hbinary := hchain (kind_of_precedence hq)
      exact ⟨apart_child (i := 0) hbinary h (by rw [hd]; rfl),
        apart_child (i := 1) hbinary h (by rw [hd]; rfl)⟩
  · cases hc

private theorem apart_comment (hends : endsInComment p = isLineComment p.node.textOrEmpty) :
    Apart p (token .commentSingle p.node.textOrEmpty) where
  passes := hends ▸ passes_comment .flat _
  neat h := by
    have hpasses := passes_comment .flat p.node.textOrEmpty
    rw [← hends, h] at hpasses
    refine isNeat_of_breakGroup_eq hpasses ?_
    exact congrArg (annotated · _) (breakGroup_tidy_lit _)

section Step

variable {rule : DocRule} (hrule : rules.get? p.node.kind = some rule)
  (hcomment : p.node.kind ≠ "comment") (hapart : standsApart p = true)
  (hbelow : ∀ q : Below p,
    (printPath rules q.1).Yields fun d => standsApart q.1 = true → Apart q.1 d)

include hrule hcomment hapart hbelow

/-- If no child ends in a line comment, then the rule builds its document from neat ones. -/
private theorem yields_apart_of_none (hnone : ∀ c ∈ visited p, endsInComment c.1 = false) :
    (rule p fun q => printPath rules q.1).Yields (Apart p) := by
  refine (builds_rules hrule hcomment (S := IsNeat) fun c hc => ?_).mono fun d hd => ?_
  · obtain ⟨hc, hends⟩ := sources_apart hapart hnone c hc
    exact (hbelow c).mono fun _ hd => .part ((hd hc).neat hends)
  · exact ⟨hd.isNeat.passes.mono id (by simp), fun _ => hd.isNeat⟩

/-- If a child ends in a line comment, then there may be a new line behind it, and the table says
how the rule puts its children on lines. -/
private theorem yields_apart_of_ends {c : Below p} (hc : c ∈ visited p)
    (hends : endsInComment c.1 = true) :
    (rule p fun q => printPath rules q.1).Yields (Apart p) := by
  obtain ⟨hglued, hinline, hvisited⟩ := standsApart_iff.mp hapart
  obtain ⟨use, huse⟩ : ∃ use, (RuleTable.ofList lineUseEntries).get? p.node.kind = some use := by
    cases hget : (RuleTable.ofList lineUseEntries).get? p.node.kind with
    | some use => exact ⟨use, rfl⟩
    | none =>
      have hfree := hglued c hc hends
      rw [lineUse, hget] at hfree
      cases hfree
  have hlines : lineUse p.node.kind = use := by rw [lineUse, huse]; rfl
  rw [hlines] at hglued hinline
  have hprints : PrintsApart use (visited p) fun c => printPath rules c.1 :=
    ⟨fun c hc => (hbelow c).mono fun _ hd => (hd (hvisited c hc)).passes, hglued, hinline⟩
  have hend : endsInComment p = !use.closed := by
    rw [endsInComment_of_ne hcomment, hlines, List.any_eq_true.mpr ⟨c, hc, hends⟩, Bool.and_true]
  refine (yields_of_lineUse hrule huse hprints).mono fun d hd => ?_
  cases hclosed : use.closed with
  | false => exact ⟨hd.1.mono id (by simp [hend, hclosed]), fun h => by simp [hend, hclosed] at h⟩
  | true => exact ⟨(hd.2 hclosed).passes.mono id (by simp), fun _ => hd.2 hclosed⟩

end Step

/-- **What is printed for a node whose line comments stand apart passes.** -/
theorem yields_apart (p : Path) :
    (printPath rules p).Yields fun d => standsApart p = true → Apart p d := by
  refine yields_printPath (P := fun p d => standsApart p = true → Apart p d)
    (fun p rule hrule hbelow => ?_) p
  by_cases hapart : standsApart p = true
  swap
  · exact fun d n _ h => absurd h hapart
  refine Yields.mono (P := Apart p) ?_ fun _ hd _ => hd
  by_cases hcomment : p.node.kind = "comment"
  · obtain rfl := rule_of_comment hcomment hrule
    have hends : endsInComment p = isLineComment p.node.textOrEmpty := by
      rw [endsInComment, if_pos hcomment]
    exact .pure (apart_comment hends)
  by_cases hnone : ∀ c ∈ visited p, endsInComment c.1 = false
  · exact yields_apart_of_none hrule hcomment hapart hbelow hnone
  · obtain ⟨c, hc, hends⟩ : ∃ c ∈ visited p, endsInComment c.1 = true := by simpa using hnone
    exact yields_apart_of_ends hrule hcomment hapart hbelow hc hends

end Trees

/-! ### Formatted texts -/

section Texts

variable {n : Node} {o : Options} {text : String}

/-- A formatted tree is printed as a document, and its text is rendered from a stream that the
document admits. -/
theorem exists_items_of_formatTree (h : (Job.formatTree o [] n).outcome = .ok text) :
    ∃ d items, (printPath rules (.root n)).outcome = .ok d ∧ (layout o.page d).result = .ok items ∧
      Admits 0 .broken d items ∧ text = Job.endLine (renderItems o.spelling items) := by
  cases hprint : print n with
  | error e =>
    rw [Job.formatTree_of_print_error o hprint] at h
    cases h
  | ok r =>
    have hsteady := isSteady_of_print (d := r.1) hprint
    obtain ⟨items, hitems, hprints⟩ := exists_layout_prints o.page (isKnown_of_isSteady hsteady)
    have hrender : renderDoc o r.1 = .ok (renderItems o.spelling items) := by
      rw [renderDoc, hitems]
      rfl
    rw [Job.formatTree_of_renderDoc hprint hrender] at h
    refine ⟨r.1, items, ?_, hitems, hprints.admits, (Except.ok.inj h).symm⟩
    rw [← map_print, hprint]
    rfl

/-- A text that goes on with a line break, if at all, goes on with one when its last line is
ended. -/
private theorem exists_newline_endLine {t : String} {front rest : List Char}
    (hfront : front.getLast? ≠ some '\n') (hrest : rest = [] ∨ rest.head? = some '\n')
    (ht : t.toList = front ++ rest) : ∃ rest', (Job.endLine t).toList = front ++ '\n' :: rest' := by
  rcases hrest with rfl | hrest
  · rw [List.append_nil] at ht
    rw [Job.endLine, ht, if_neg hfront, String.toList_push, ht]
    exact ⟨[], rfl⟩
  · obtain ⟨cs, rfl⟩ := List.head?_eq_some_iff.mp hrest
    rw [Job.endLine]
    split
    · exact ⟨cs, ht⟩
    · rw [String.toList_push, ht]
      exact ⟨cs ++ ['\n'], by simp⟩

/-- Behind every line comment of the stream, the text that is rendered from it goes on with a line
break. -/
def EndsCommentLines (sp : Spelling) (items : List Item) (text : String) : Prop :=
  ∀ before s after,
    items = before ++ Item.push (.token .commentSingle) :: Item.text s :: after →
    isLineComment s = true →
    ∃ rest, text.toList = (renderItems sp (before ++ [Item.text s])).toList ++ '\n' :: rest

/-- The text of a tree whose line comments stand apart goes on with a line break behind them. -/
theorem endsCommentLines_of_standsApart (hapart : standsApart (.root n) = true) {d : Doc}
    {items : List Item} (hd : (printPath rules (.root n)).outcome = .ok d)
    (hadmits : Admits 0 .broken d items) :
    EndsCommentLines o.spelling items (Job.endLine (renderItems o.spelling items)) := by
  have hpasses : Passes .flat false d (endsInComment (.root n)) :=
    ((yields_apart (.root n)).of_outcome hd hapart).passes
  obtain ⟨t, hread, -⟩ := hpasses .broken (.inr rfl) 0 items hadmits .code (.inl rfl)
  rintro before s after rfl hs
  have hnewline : o.spelling.newline = "\n" := rfl
  obtain ⟨rest, hrest, htext⟩ := newline_after_line_comment hnewline hs hread
  exact exists_newline_endLine (getLast?_renderItems_comment _ _ hs) hrest htext

/-! ### Equations and assignments -/

/-- A comment is printed as its text. -/
theorem yields_comment (p : Path) : (printPath rules p).Yields fun d =>
    p.node.kind = "comment" → d = token .commentSingle p.node.textOrEmpty := by
  refine yields_printPath (P := fun p d => p.node.kind = "comment" →
    d = token .commentSingle p.node.textOrEmpty) (fun p rule hrule _ => ?_) p
  by_cases hkind : p.node.kind = "comment"
  · obtain rfl := rule_of_comment hkind hrule
    exact .pure fun _ => rfl
  · exact fun d _ _ h => absurd h hkind

/-- What a walk gives ends with what its last step gives. -/
private theorem yields_collectFrom_last {α β σ : Type} {next : σ → α → σ}
    {f : σ → α → Printing (List β)} {as : List α} {a : α} {last : List β}
    (ha : as.getLast? = some a) (h : ∀ s, (f s a).Yields (· = last)) (s : σ) :
    (collectFrom next f s as).Yields fun bs => ∃ front, bs = front ++ last := by
  obtain ⟨before, rfl⟩ := List.getLast?_eq_some_iff.mp ha
  clear ha
  induction before generalizing s with
  | nil =>
    refine (h s).bind fun bs hbs => .pure ⟨[], ?_⟩
    rw [hbs]
    exact List.append_nil last
  | cons b before ih =>
    refine Yields.bind (P := fun _ => True) (fun _ _ _ => trivial) fun bs _ => ?_
    refine (ih _).bind fun cs hcs => .pure ?_
    obtain ⟨front, rfl⟩ := hcs
    exact ⟨bs ++ front, (List.append_assoc ..).symm⟩

/-- An equation or an assignment ends with its last comment and a semicolon. -/
theorem yields_semicolon {p : Path}
    (hkind : p.node.kind ∈ ["simple_equation", "assignment_statement"]) {c : Node}
    (hlast : p.node.children.getLast? = some c) (hc : c.kind = "comment") :
    (printPath rules p).Yields fun d => ∃ ds,
      d = grouped (cat (ds ++ spaceBefore (token .commentSingle c.textOrEmpty) ++ [lit ";"])) := by
  rw [← p.map_node_children, List.getLast?_map, Option.map_eq_some_iff] at hlast
  obtain ⟨q, hq, rfl⟩ := hlast
  have hpart {sel : Selection} (hsel : sel.surroundings? "comment" = some spaceBefore) :
      (selectChild sel (fun q => printPath rules q.1) q).Yields
        (· = spaceBefore (token .commentSingle q.1.node.textOrEmpty)) := by
    rw [selectChild, hc, hsel]
    exact (yields_comment q.1).bind fun d hd => .pure (by rw [hd hc])
  have hwalk {σ : Type} {next : σ → Below p → σ} {f : σ → Below p → Printing (List Doc)} (s : σ)
      (hf : ∀ s, (f s q).Yields (· = spaceBefore (token .commentSingle q.1.node.textOrEmpty))) :
      (collectFrom next f s p.children >>= fun ds => pure (grouped (cat (ds ++ [lit ";"])))).Yields
        fun d => ∃ ds, d = grouped (cat (ds ++
          spaceBefore (token .commentSingle q.1.node.textOrEmpty) ++ [lit ";"])) := by
    refine (yields_collectFrom_last hq hf s).bind fun ds hds => .pure ?_
    obtain ⟨front, rfl⟩ := hds
    exact ⟨front, rfl⟩
  have hexpr : ¬ isExpression q.1.node = true := by simp [isExpression, hc]
  simp only [List.mem_cons, List.not_mem_nil, or_false] at hkind
  rcases hkind with hkind | hkind
  · have hrule : rules.get? p.node.kind = some simpleEquation := by rw [hkind]; rfl
    rw [printPath, hrule]
    refine Yields.bind (P := fun _ => True) (fun _ _ _ => trivial) fun _ _ => hwalk 0 fun s => ?_
    rw [if_neg hexpr]
    exact hpart rfl
  · have hrule : rules.get? p.node.kind = some assignmentStatement := by rw [hkind]; rfl
    rw [printPath, hrule]
    refine Yields.bind (P := fun _ => True) (fun _ _ _ => trivial) fun _ _ =>
      hwalk false fun s => ?_
    rw [if_neg hexpr]
    exact hpart rfl

/-- The stream of a document with a comment and a semicolon at its end. -/
private theorem exists_items_semicolon {i : Nat} {m : Mode} {ds : List Doc} {s : String}
    {items : List Item} (hs : ¬ s.isEmpty = true) (h : Admits i m
      (grouped (cat (ds ++ spaceBefore (token .commentSingle s) ++ [lit ";"]))) items) :
    ∃ xs, items = xs ++ [Item.text " ", Item.push (.token .commentSingle), Item.text s,
      Item.pop (.token .commentSingle), Item.text ";"] := by
  obtain ⟨m', hcat⟩ : ∃ m', Admits i m' (cat _) items := by
    cases h with
    | group hbody => exact ⟨_, admits_of_tidy hbody⟩
    | flatGroup _ hbody => exact ⟨_, admits_of_tidy hbody⟩
  obtain ⟨ms, -, heach⟩ := exists_admitsEach_of_cat hcat
  rw [List.append_assoc] at heach
  obtain ⟨xs, ys, rfl, -, hys⟩ := heach.exists_append
  refine ⟨xs, congrArg (xs ++ ·) ?_⟩
  cases hys with | cons _ hspace hys =>
  cases hys with | cons _ hcomment hys =>
  cases hys with | cons _ hend hys =>
  cases hys
  cases hspace
  cases hend
  cases hcomment with | annotated hbody =>
  have htext := admits_of_tidy hbody
  generalize modeIn _ _ = mode at htext
  cases htext
  have hitem : textItems s = [.text s] := if_neg hs
  rw [hitem]
  rfl

/-- The text that is rendered from such a stream. -/
private theorem exists_renderItems_semicolon (sp : Spelling) (xs : List Item) {s : String}
    (hs : ¬ s.isEmpty = true) : ∃ front, (renderItems sp (xs ++ [Item.text " ",
      Item.push (.token .commentSingle), Item.text s, Item.pop (.token .commentSingle),
      Item.text ";"])).toList =
      front ++ s.toList ++ [';'] := by
  refine ⟨(renderItems sp xs).toList ++ (sp.indentation (indentDue 0 xs)).toList ++ [' '], ?_⟩
  rw [toList_renderItems_append]
  simp [plainWrites, Spelling.indentation, hs]

/-- The text of an equation or of an assignment goes on with the semicolon behind its last
comment. -/
theorem semicolon_in_line_comment (hkind : n.kind ∈ ["simple_equation", "assignment_statement"])
    {c : Node} (hlast : n.children.getLast? = some c) (hc : c.kind = "comment")
    (hcomment : isLineComment c.textOrEmpty = true) {d : Doc} {items : List Item}
    (hd : (printPath rules (.root n)).outcome = .ok d) (hadmits : Admits 0 .broken d items) :
    ∃ front, (Job.endLine (renderItems o.spelling items)).toList =
      front ++ c.textOrEmpty.toList ++ [';', '\n'] := by
  have hne : ¬ c.textOrEmpty.isEmpty = true := by
    rw [String.isEmpty_iff]
    intro hempty
    rw [hempty] at hcomment
    cases hcomment
  obtain ⟨ds, rfl⟩ := (yields_semicolon (p := .root n) hkind hlast hc).of_outcome hd
  obtain ⟨xs, rfl⟩ := exists_items_semicolon hne hadmits
  obtain ⟨front, hfront⟩ := exists_renderItems_semicolon o.spelling xs hne
  refine ⟨front, ?_⟩
  rw [Job.endLine, if_neg (by simp [hfront]), String.toList_push, hfront]
  simp

/-! ### What follows a line comment -/

/-- **What follows a line comment in a formatted text.** Consider a tree that is formatted, under
any options, and the stream that its text is rendered from. If the line comments of the tree stand
apart, then wherever the text of a comment stands in the stream that starts with two slashes and has
no line break, the formatted text goes on with a line break behind it. (Comments in texts that are
copied as a whole are no comments of the stream.) If the tree is an equation or an assignment with
such a comment at its end, then the text goes on with the semicolon, which so becomes part of the
comment. -/
theorem line_comments_end (h : (Job.formatTree o [] n).outcome = .ok text) :
    ∃ d items, (printPath rules (.root n)).outcome = .ok d ∧ (layout o.page d).result = .ok items ∧
      text = Job.endLine (renderItems o.spelling items) ∧
      (standsApart (.root n) = true → EndsCommentLines o.spelling items text) ∧
      ∀ c, n.kind ∈ ["simple_equation", "assignment_statement"] →
        n.children.getLast? = some c → c.kind = "comment" → isLineComment c.textOrEmpty = true →
        ∃ front, text.toList = front ++ c.textOrEmpty.toList ++ [';', '\n'] := by
  obtain ⟨d, items, hd, hitems, hadmits, rfl⟩ := exists_items_of_formatTree h
  exact ⟨d, items, hd, hitems, rfl,
    fun hapart => endsCommentLines_of_standsApart hapart hd hadmits,
    fun c hkind hlast hc hcomment => semicolon_in_line_comment hkind hlast hc hcomment hd hadmits⟩

/-- A class with line comments on lines of their own and behind the declaration of a component. -/
theorem line_comments_end_class :
    let leaf (kind s : String) : Node := ⟨kind, [], some s, none, none⟩
    let inner (kind : String) (cs : List Node) : Node := ⟨kind, cs, none, none, none⟩
    let level := inner "component_clause" [inner "type_specifier" [leaf "IDENT" "Real"],
      inner "component_list" [inner "component_declaration" [inner "declaration"
        [leaf "IDENT" "h"]]]]
    let n := inner "stored_definitions" [inner "class_definition" [leaf "class_prefixes" "model",
      inner "long_class_specifier" [leaf "IDENT" "M", leaf "comment" "// a tank",
        inner "element_list" [leaf "comment" "// states",
          inner "named_element" [level, leaf "comment" "// level"]],
        inner "equation_section" [leaf "comment" "// balance"]]]]
    let text :=
      "model M\n  // a tank\n  // states\n  Real h; // level\nequation\n  // balance\nend M;\n"
    standsApart (.root n) = true ∧ (Job.formatTree .usual [] n).outcome = .ok text ∧
      ∃ items, text = Job.endLine (renderItems Options.usual.spelling items) ∧
        EndsCommentLines Options.usual.spelling items text := by
  intro leaf inner level n text
  have hapart : standsApart (.root n) = true := by decide +kernel
  have htext : (Job.formatTree .usual [] n).outcome = .ok text := by
    rw [← toOption_eq_some_iff]
    decide +kernel
  obtain ⟨d, items, -, -, hitems, hends, -⟩ := line_comments_end htext
  exact ⟨hapart, htext, items, hitems, hends hapart⟩

/-- An equation with a line comment is formatted without an end: the semicolon is read as part of
the comment. -/
theorem line_comment_swallows_semicolon :
    let leaf (kind s : String) : Node := ⟨kind, [], some s, none, none⟩
    let name (s : String) : Node := ⟨"expression", [leaf "IDENT" s], none, none, none⟩
    let c := leaf "comment" "// c"
    let n : Node := ⟨"simple_equation", [name "y", name "x", c], none, none, none⟩
    isLineComment c.textOrEmpty = true ∧
      (Job.formatTree .usual [] n).outcome = .ok "y = x // c;\n" ∧
      "y = x // c;\n".toList = "y = x ".toList ++ c.textOrEmpty.toList ++ [';', '\n'] := by
  intro leaf name c n
  refine ⟨by decide, ?_, by decide⟩
  rw [← toOption_eq_some_iff]
  decide +kernel

end Texts

end Typeset.Modelica
