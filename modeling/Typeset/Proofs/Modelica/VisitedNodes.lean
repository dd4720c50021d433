import Mathlib.Logic.Relation
import Typeset.Modelica.Rules
import Typeset.Proofs.Modelica.ChainWalk
import Typeset.Proofs.ShownTexts

/-!
# The nodes that the Modelica rules visit

A rule prints some of the children of its node. Which ones these are is written down here by
kind, apart from the rules: most rules print every child; terminals print none; the others
print the children of the kinds that they list, and pass over the rest. What is visited from
the root is what is come to by going down from visited nodes to the children that are printed
for them. What is kept is visited, and its document becomes part of the document of the root:
the clause of a connection prints all of its annotations, but keeps the last one only.

A node that is passed over is neither printed nor looked at, whatever its kind is.

## Main definitions

* `visited`, `kept` : the children that are printed for a node, and those that are kept.
* `Visits`, `Keeps` : the nodes below a node that are visited, and those that are kept.
* `FailsAt`, `Explained` : why printing fails at a node, and below it.
* `LacksPart` : a rule relies on a part that is missing.
* `Shown` : all visited nodes below a node have rules and lack no part, and a document shows its
  kept tokens.

## Main results

* `Shown.of_visited` : what a document has to show at a place, by its visited children.
* `Walked.visits`, `Walked.shown` : the operands of a chain are visited, and a document that
  shows their tokens shows those of the chain.
-/

namespace Typeset

namespace Modelica

open Doc Rules

/-! ### Printed children -/

/-- A choice among the children of a node. -/
abbrev Pick := (p : Path) → List (Below p)

/-- The children of some kinds. -/
def ofKinds (kinds : List String) : Pick := fun p =>
  p.children.filter (kinds.contains ·.1.node.kind)

/-- The name of a class. -/
def className (n : Node) : String := n.children.foldl classNameAfter ""

/-- The kinds of the sections of a class. -/
def sectionKinds : List String :=
  ["description_string", "element_list", "public_element_list", "protected_element_list",
   "equation_section", "algorithm_section", "external_clause", "annotation_clause", "comment",
   "BLOCK_COMMENT"]

/-- The sections of a class that are printed: lists of elements only if they are not empty. -/
def isSection (n : Node) : Bool :=
  sectionKinds.contains n.kind && !(elementLists.contains n.kind && n.children.isEmpty)

/-- The parts of a class that are printed: its sections and its name. A second name is the one
after `end`, for which the first one is printed. -/
def classParts : Pick := fun p => p.children.filter fun c =>
  isSection c.1.node ||
    (c.1.node.kind = "IDENT" && c.1.node.textOrEmpty = className p.node)

/-- The parts of a block that are printed: its first expression, which is its condition, and its
bodies, clauses and comments. -/
def blockParts (clauseKinds : List String) : Pick := fun p =>
  (p.children.find? (isExpression ·.1.node)).toList ++
    p.children.filter fun c =>
      isBody c.1.node || clauseKinds.contains c.1.node.kind || c.1.node.kind = "comment"

/-- The parts of a modification of an element, unless it is printed compactly from its text. -/
def modificationParts : Pick := fun p =>
  match compactModification? p with
  | .ok (some _) => []
  | _ => ofKinds ["name", "modification", "description_string"] p

/-- The parts of a call, unless it is printed compactly from its text. -/
def callParts : Pick := fun p =>
  if (compactCall? p).isSome then []
  else ofKinds ["component_reference", "name", "function_call_args"] p

/-- The condition and the value of a further condition of a conditional expression. -/
def clauseParts : Pick := fun p => p.children.take 2

/-- The parts of a subscript; a colon has none. -/
def subscriptParts : Pick := fun p => if p.node.text = some ":" then [] else p.children

/-- The choices of the rules that do not print every child, by kind. -/
def picks : RuleTable Pick := .ofList
  [(["IDENT", "base_prefix", "end_expression", "STRING", "UNSIGNED_INTEGER", "UNSIGNED_REAL",
     "comment", "BLOCK_COMMENT", "class_prefixes", "logical_literal_expression",
     "break_statement", "return_statement"], fun _ => []),
   (["within_clause"], ofKinds ["name"]),
   (["long_class_specifier"], classParts),
   (["short_class_specifier"], ofKinds ["IDENT", "base_prefix", "enum_list", "type_specifier",
     "class_modification", "array_subscripts", "description_string", "comment"]),
   (["named_element"], ofKinds ["component_clause", "class_definition", "comment"]),
   (["extends_clause"], ofKinds ["type_specifier", "class_modification", "annotation_clause"]),
   (["component_clause"], ofKinds ["type_specifier", "array_subscripts", "component_list"]),
   (["component_declaration"], ofKinds ["declaration", "condition_attribute", "comment",
     "description_string", "annotation_clause"]),
   (["declaration"], ofKinds ["IDENT", "array_subscripts", "modification"]),
   (["modification"], ofKinds ["class_modification", "expression", "simple_expression"]),
   (["element_modification"], modificationParts),
   (["class_redeclaration", "component_redeclaration"],
    ofKinds ["short_class_definition", "class_definition", "component_clause"]),
   (["short_class_definition"], ofKinds ["class_prefixes", "short_class_specifier"]),
   (["equation_section"], ofKinds ["equation_list", "comment"]),
   (["algorithm_section"], ofKinds ["statement_list", "comment"]),
   (["simple_equation"], ofKinds ["expression", "simple_expression", "comment"]),
   (["assignment_statement"],
    ofKinds ["expression", "simple_expression", "component_reference", "comment"]),
   (["connect_clause"], ofKinds ["component_reference", "annotation_clause"]),
   (["for_equation", "for_statement"], ofKinds ["for_indices", "equation_list",
     "statement_list"]),
   (["for_index"], ofKinds ["IDENT", "expression", "simple_expression"]),
   (["while_statement", "else_if_equation_clause", "else_if_statement_clause",
     "else_when_equation_clause", "else_when_statement_clause"], blockParts []),
   (["if_equation", "if_statement"],
    blockParts ["else_if_equation_clause_list", "else_if_statement_clause_list"]),
   (["when_equation", "when_statement"],
    blockParts ["else_when_equation_clause_list", "else_when_statement_clause_list"]),
   (["multiple_output_function_application_statement"],
    ofKinds ["output_expression_list", "component_reference", "function_application"]),
   (["else_if_clause"], clauseParts),
   (["subscript"], subscriptParts),
   (["function_application"], callParts),
   (["name", "component_reference"],
    ofKinds ["IDENT", "name", "component_reference", "array_subscripts"]),
   (["external_clause"],
    ofKinds ["language_specification", "external_function", "annotation_clause"])]

/-- The choice for a kind; every child is printed where nothing else is said. -/
def pickOf (kind : String) : Pick := (picks.get? kind).getD Path.children

/-- The children that are printed for a node. -/
def visited (p : Path) : List (Below p) := pickOf p.node.kind p

/-- The ends of a connection and the last of its annotations. -/
def connectParts : Pick := fun p =>
  ofKinds ["component_reference"] p ++ (ofKinds ["annotation_clause"] p).getLast?.toList

/-- The children whose documents become parts of the document of a node. -/
def kept (p : Path) : List (Below p) :=
  if p.node.kind = "connect_clause" then connectParts p else visited p

theorem kept_subset_visited (p : Path) : kept p ⊆ visited p := by
  rw [kept]
  split
  · next hkind =>
    have hvisited : visited p = ofKinds ["component_reference", "annotation_clause"] p := by
      rw [visited, hkind]
      rfl
    rw [hvisited]
    intro c hc
    rcases List.mem_append.mp hc with hc | hc
    · simp only [ofKinds, List.mem_filter] at hc ⊢
      exact ⟨hc.1, by simp_all⟩
    · have hlast := List.mem_of_getLast? (Option.mem_toList.mp hc)
      simp only [ofKinds, List.mem_filter] at hlast ⊢
      exact ⟨hlast.1, by simp_all⟩
  · exact List.Subset.refl _

/-! ### Visited nodes -/

/-- The places that are visited from a place. -/
def Visits : Path → Path → Prop := Relation.ReflTransGen fun p q => ∃ c ∈ visited p, c.1 = q

/-- The places that are kept from a place. -/
def Keeps : Path → Path → Prop := Relation.ReflTransGen fun p q => ∃ c ∈ kept p, c.1 = q

/-- The kinds of the tokens that carry text of their own. -/
def tokenKinds : List String :=
  ["IDENT", "STRING", "UNSIGNED_INTEGER", "UNSIGNED_REAL", "comment", "BLOCK_COMMENT"]

/-- Why printing fails at a place. -/
inductive FailsAt (p : Path) : PrintError → Prop
  /-- The kind of the node has no rule. -/
  | noRule (h : rules.get? p.node.kind = none) : FailsAt p (.noRule p.node.kind p.node.span)
  /-- A conditional expression has no value. -/
  | noValueBranch (hkind : p.node.kind = "if_expression") (h : p.node.children.length < 2) :
      FailsAt p (.noValueBranch p.node.kind p.node.span)
  /-- A further condition of a conditional expression is empty. -/
  | noCondition (hkind : p.node.kind = "else_if_clause") (h : p.node.children = []) :
      FailsAt p .missingChild
  /-- Whether the node continues a binary expression is not known, since that has no operator. -/
  | noOperator (h : p.anyAbove lacksOperand = true) : FailsAt p .missingChild
  /-- A modification of an element has no text from which it could be printed compactly. -/
  | noText (hkind : p.node.kind = "element_modification") (h : p.node.text = none) :
      FailsAt p .missingText

/-- A chain of logical or arithmetic operators. -/
def IsChain (n : Node) : Prop :=
  n.children.length = 2 ∧
    ∃ k, policy.precedence n = .ok (some k) ∧ (k.isLogical || k.isArithmetic) = true

/-- A part of the source is missing at a place that its rule relies on without asking for it. -/
inductive LacksPart (p : Path) : PrintError → Prop
  /-- A further condition of a conditional expression is empty. -/
  | condition (hkind : p.node.kind = "else_if_clause") (h : p.node.children = []) :
      LacksPart p .missingChild
  /-- Whether a chain continues another one is not known, since a binary expression above it lacks
  an operand. -/
  | operator (hchain : IsChain p.node) (h : Interrupted p.node p.above) :
      LacksPart p .missingChild
  /-- A modification of a graphical element, which could be printed compactly, has no text. -/
  | text {name : Node} (hkind : p.node.kind = "element_modification")
      (hname : p.node.firstChild? ["name"] = some name)
      (hgraphical : name.text.any graphicalNames.contains = true)
      (habove : underAnnotationClause p = true) (h : p.node.text = none) : LacksPart p .missingText

theorem LacksPart.failsAt {p : Path} {e : PrintError} (h : LacksPart p e) : FailsAt p e := by
  cases h with
  | condition hkind h => exact .noCondition hkind h
  | operator hchain h => exact .noOperator h.any_lacksOperand
  | text hkind hname hgraphical habove h => exact .noText hkind h

/-- The kinds of nodes that can lack a part. -/
def reliantKinds : List String := ["else_if_clause", "binary_expression", "element_modification"]

theorem not_lacksPart_of_kind {p : Path} (hkind : p.node.kind ∉ reliantKinds) (e : PrintError) :
    ¬ LacksPart p e := by
  intro h
  refine hkind ?_
  cases h with
  | condition h => simp [reliantKinds, h]
  | operator hchain =>
    obtain ⟨-, k, hk, -⟩ := hchain
    simp [reliantKinds, kind_of_precedence hk]
  | text h => simp [reliantKinds, h]

/-- A chain lacks an operator exactly if the way up from it is interrupted. -/
theorem LacksPart.interrupted {p : Path} {e : PrintError} (h : LacksPart p e)
    (hkind : p.node.kind = "binary_expression") : IsChain p.node ∧ Interrupted p.node p.above := by
  cases h with
  | condition hclause => simp [hkind] at hclause
  | operator hchain h => exact ⟨hchain, h⟩
  | text hmodification => simp [hkind] at hmodification

/-- The error is that of a visited place. -/
def Explained (p : Path) (e : PrintError) : Prop := ∃ q, Visits p q ∧ FailsAt q e

/-- All visited nodes have rules and lack no part, and the document shows all kept tokens. -/
structure Shown (p : Path) (d : Doc) : Prop where
  /-- Every visited node has a rule. -/
  known : ∀ q, Visits p q → rules.contains q.node.kind = true
  /-- No visited node lacks a part. -/
  whole : ∀ q, Visits p q → ∀ e, ¬ LacksPart q e
  /-- The text of every kept token is shown. -/
  shows : ∀ q, Keeps p q → q.node.kind ∈ tokenKinds →
    ∀ s : Fragment, q.node.textOrEmpty = s.1 → d.shows s = true

theorem Shown.mono {p : Path} {d e : Doc} (h : Shown p d)
    (hde : ∀ s : Fragment, d.shows s = true → e.shows s = true) : Shown p e :=
  ⟨h.known, h.whole, fun q hq hkind s hs => hde s (h.shows q hq hkind s hs)⟩

/-- A document shows the tokens at a place if the node has a rule and lacks no part, the document
shows the node itself in case it is a token, and every visited child has a document whose texts
are shown if the child is kept. -/
theorem Shown.of_visited {p : Path} {d : Doc} (hrule : rules.contains p.node.kind = true)
    (hwhole : ∀ e, ¬ LacksPart p e)
    (htoken : p.node.kind ∈ tokenKinds →
      ∀ s : Fragment, p.node.textOrEmpty = s.1 → d.shows s = true)
    (h : ∀ c ∈ visited p, ∃ e, Shown c.1 e ∧
      (c ∈ kept p → ∀ s : Fragment, e.shows s = true → d.shows s = true)) : Shown p d where
  known q hq := by
    rcases Relation.ReflTransGen.cases_head hq with rfl | ⟨_, ⟨c, hc, rfl⟩, hrest⟩
    · exact hrule
    · obtain ⟨e, he, -⟩ := h c hc
      exact he.known q hrest
  whole q hq := by
    rcases Relation.ReflTransGen.cases_head hq with rfl | ⟨_, ⟨c, hc, rfl⟩, hrest⟩
    · exact hwhole
    · obtain ⟨e, he, -⟩ := h c hc
      exact he.whole q hrest
  shows q hq hkind s hs := by
    rcases Relation.ReflTransGen.cases_head hq with rfl | ⟨_, ⟨c, hc, rfl⟩, hrest⟩
    · exact htoken hkind s hs
    · obtain ⟨e, he, hkeep⟩ := h c (kept_subset_visited p hc)
      exact hkeep hc s (he.shows q hrest hkind s hs)

/-! ### Wrappers and binary expressions -/

/-- The kinds that a chain of operators is made of. -/
def isChainKind (kind : String) : Bool :=
  kind = "binary_expression" || policy.transparent.contains kind

/-- Binary expressions and wrappers have rules, which print every child, and are no tokens. -/
theorem of_isChainKind {kind : String} (h : isChainKind kind = true) :
    pickOf kind = Path.children ∧ rules.contains kind = true ∧ kind ≠ "connect_clause" ∧
      kind ∉ tokenKinds := by
  have hmem : kind ∈ ["binary_expression", "expression", "simple_expression",
      "primary_expression"] := by
    simpa [isChainKind, policy, expressionWrappers] using h
  simp only [List.mem_cons, List.not_mem_nil, or_false] at hmem
  rcases hmem with rfl | rfl | rfl | rfl <;> exact ⟨rfl, rfl, by decide, by decide⟩

/-- The children of binary expressions and of wrappers are visited. -/
theorem exists_visited_down {p : Path} (hkind : isChainKind p.node.kind = true) {c : Node}
    {i : Nat} (hc : p.node.children[i]? = some c) : ∃ q ∈ visited p, q.1 = p.down c i := by
  rw [visited, (of_isChainKind hkind).1]
  have hmem : p.down c i ∈ p.children.map (·.1) := by
    rw [p.map_val_children, List.mem_mapIdx]
    obtain ⟨hi, rfl⟩ := List.getElem?_eq_some_iff.mp hc
    exact ⟨i, hi, rfl⟩
  obtain ⟨r, hr, heq⟩ := List.mem_map.mp hmem
  exact ⟨r, hr, heq⟩

theorem Visits.child {p q : Path} (hq : Visits p q) (hkind : isChainKind q.node.kind = true)
    {c : Node} {i : Nat} (hc : q.node.children[i]? = some c) : Visits p (q.down c i) :=
  hq.tail (exists_visited_down hkind hc)

/-- What shows the tokens of all children of a binary expression or of a wrapper shows its
tokens. -/
theorem Shown.of_chainKind {p : Path} {d : Doc} (hkind : isChainKind p.node.kind = true)
    (hwhole : ∀ e, ¬ LacksPart p e)
    (h : ∀ (i : Nat) (c : Node), p.node.children[i]? = some c → Shown (p.down c i) d) :
    Shown p d := by
  obtain ⟨hpick, hrule, -, htoken⟩ := of_isChainKind hkind
  refine .of_visited hrule hwhole (fun hmem => absurd hmem htoken) fun q hq =>
    ⟨d, ?_, fun _ _ hs => hs⟩
  have hmem : q.1 ∈ p.children.map (·.1) := by
    rw [visited, hpick] at hq
    exact List.mem_map_of_mem hq
  rw [p.map_val_children, List.mem_mapIdx] at hmem
  obtain ⟨i, hi, heq⟩ := hmem
  rw [← heq]
  exact h i _ (List.getElem?_eq_getElem hi)

theorem isChainKind_of_transparent {kind : String}
    (h : policy.transparent.contains kind = true) : isChainKind kind = true := by
  rw [isChainKind, h, Bool.or_true]

private theorem not_lacksPart_of_transparent {p : Path}
    (h : policy.transparent.contains p.node.kind = true) (e : PrintError) : ¬ LacksPart p e := by
  refine not_lacksPart_of_kind (fun hmem => ?_) e
  have hkinds : ∀ kind ∈ reliantKinds, policy.transparent.contains kind = false := by decide
  rw [hkinds _ hmem] at h
  cases h

theorem Visits.unwrap {p q : Path} (hq : Visits p q) : Visits p (policy.unwrap q) := by
  fun_induction Policy.unwrap policy q with
  | case1 q c hc hkind ih =>
    exact ih (hq.child (i := 0) (isChainKind_of_transparent hkind) (by rw [hc]; rfl))
  | case2 => exact hq
  | case3 => exact hq

theorem Shown.of_unwrap {p : Path} {d : Doc} (h : Shown (policy.unwrap p) d) : Shown p d := by
  fun_induction Policy.unwrap policy p with
  | case1 p c hc hkind ih =>
    refine .of_chainKind (isChainKind_of_transparent hkind) (not_lacksPart_of_transparent hkind)
      fun i c' hc' => ?_
    rw [hc] at hc'
    obtain ⟨rfl, rfl⟩ : i = 0 ∧ c' = c := by
      cases i with
      | zero => exact ⟨rfl, (Option.some.inj hc').symm⟩
      | succ i => cases hc'
    exact ih h
  | case2 => exact h
  | case3 => exact h

/-! ### Operator chains -/

section Walk

variable {p inner : Path} {left right : Node} {op : String} {entries : List (ChainEntry p)}
  {operands : List (Below p)} {operators : List String} {k : Precedence}

/-- A chain goes on below its binary expressions. -/
theorem continuesBelow_of_mem_opened (hk : policy.precedence inner.node = .ok (some k))
    (hsize : inner.node.size ≤ p.node.size) (hchildren : inner.node.children = [left, right])
    (q : Below p) (hq : .place q ∈ Policy.opened inner hsize left right hchildren op) :
    ContinuesBelow k q.1.above := by
  simp only [Policy.opened, List.mem_cons, ChainEntry.place.injEq, reduceCtorEq, false_or,
    List.not_mem_nil, or_false] at hq
  rcases hq with rfl | rfl
  · exact continuesBelow_cons hk 0 inner.above
  · exact continuesBelow_cons hk 1 inner.above

/-- A binary expression that continues a chain lacks no part. -/
theorem ContinuesBelow.not_lacksPart (h : ContinuesBelow k inner.above)
    (hk : policy.precedence inner.node = .ok (some k)) (e : PrintError) : ¬ LacksPart inner e :=
  fun hlacks => h.not_interrupted hk (hlacks.interrupted (kind_of_precedence hk)).2

/-- The operands of a visited binary expression are visited. -/
theorem Visits.of_mem_opened (hinner : Visits p inner)
    (hkind : inner.node.kind = "binary_expression") (hsize : inner.node.size ≤ p.node.size)
    (hchildren : inner.node.children = [left, right]) (q : Below p)
    (hq : .place q ∈ Policy.opened inner hsize left right hchildren op) : Visits p q.1 := by
  have hchain : isChainKind inner.node.kind = true := by simp [isChainKind, hkind]
  simp only [Policy.opened, List.mem_cons, ChainEntry.place.injEq, reduceCtorEq, false_or,
    List.not_mem_nil, or_false] at hq
  rcases hq with rfl | rfl
  · exact hinner.child (i := 0) hchain (by rw [hchildren]; rfl)
  · exact hinner.child (i := 1) hchain (by rw [hchildren]; rfl)

/-- A document that shows the tokens of both operands of a binary expression shows those of the
expression. -/
theorem Shown.of_opened {d : Doc} (hkind : inner.node.kind = "binary_expression")
    (hwhole : ∀ e, ¬ LacksPart inner e) (hsize : inner.node.size ≤ p.node.size)
    (hchildren : inner.node.children = [left, right])
    (h : ∀ q, .place q ∈ Policy.opened inner hsize left right hchildren op → Shown q.1 d) :
    Shown inner d := by
  refine .of_chainKind (by simp [isChainKind, hkind]) hwhole fun i c hc => ?_
  rw [hchildren] at hc
  match i with
  | 0 =>
    cases hc
    exact h _ List.mem_cons_self
  | 1 =>
    cases hc
    exact h _ (List.mem_cons_of_mem _ (List.mem_cons_of_mem _ List.mem_cons_self))
  | i + 2 => cases hc

/-- The operands of a chain are visited if all places of its walk are. -/
theorem Walked.visits (hw : Walked k entries operands operators)
    (h : ∀ q, .place q ∈ entries → Visits p q.1) : ∀ q ∈ operands, Visits p q.1 := by
  induction hw with
  | nil => simp
  | operator s _ ih => exact ih fun q hq => h q (List.mem_cons_of_mem _ hq)
  | operand q _ ih =>
    refine List.forall_mem_cons.mpr ⟨h q List.mem_cons_self, ?_⟩
    exact ih fun r hr => h r (List.mem_cons_of_mem _ hr)
  | opened q hk hsize hchildren hop _ ih =>
    have hinner := (h q List.mem_cons_self).unwrap
    refine ih fun r hr => ?_
    rcases List.mem_append.mp hr with hr | hr
    · exact hinner.of_mem_opened (kind_of_precedence hk) hsize hchildren r hr
    · exact h r (List.mem_cons_of_mem _ hr)

/-- A document that shows the tokens of all operands of a chain shows those of all places of its
walk. The binary expressions among them lack no part, since each of them continues the chain. -/
theorem Walked.shown (hw : Walked k entries operands operators) {d : Doc}
    (hchain : ∀ q, .place q ∈ entries → ContinuesBelow k q.1.above)
    (h : ∀ q ∈ operands, Shown q.1 d) : ∀ q, .place q ∈ entries → Shown q.1 d := by
  induction hw with
  | nil => simp
  | operator s _ ih =>
    intro q hq
    exact ih (fun r hr => hchain r (List.mem_cons_of_mem _ hr)) h q (by simpa using hq)
  | operand q _ ih =>
    intro r hr
    obtain ⟨hq, hrest⟩ := List.forall_mem_cons.mp h
    simp only [List.mem_cons, ChainEntry.place.injEq] at hr
    rcases hr with rfl | hr
    · exact hq
    · exact ih (fun t ht => hchain t (List.mem_cons_of_mem _ ht)) hrest r hr
  | opened q hk hsize hchildren hop _ ih =>
    have hopened := ih (fun r hr => (List.mem_append.mp hr).elim
      (continuesBelow_of_mem_opened hk hsize hchildren r)
      fun hr => hchain r (List.mem_cons_of_mem _ hr)) h
    intro r hr
    simp only [List.mem_cons, ChainEntry.place.injEq] at hr
    rcases hr with rfl | hr
    · have hwhole := (hchain r List.mem_cons_self).unwrap.not_lacksPart hk
      exact .of_unwrap (.of_opened (kind_of_precedence hk) hwhole hsize hchildren fun t ht =>
        hopened t (List.mem_append_left _ ht))
    · exact hopened r (List.mem_append_right _ hr)

end Walk

end Modelica

end Typeset
