import Typeset.Proofs.FormattedInk
import Typeset.Proofs.Modelica.ExpressionChain

/-!
# Formatted expressions keep their tokens

A spelled expression is formatted under all options, and without blanks the formatted text is
the text of the expression. The rules recover the tokens that are no nodes: brackets, commas,
dots and keywords by the kind of the node, and operators from the text between the operands.

One token may be lost. A reference prints no dot behind a name that is a dot by itself, since
it takes that name for the dot. No name of Modelica is spelled so, but a tree may hold such a
name.

## Main definitions

* `Doc.solid` : the ink of a document without blanks.
* `Writes` : printing succeeds, and the document has a solid text.

## Main results

* `writes_printPath` : an expression is printed as a document with its solid text.
* `formatTree_solid_eq` : formatting keeps the tokens of an expression.
* `formatTree_solid_ne_of_dot` : a dot that is the name before another one is not kept.
-/

namespace Typeset

open Text

/-! ### Solid texts of documents -/

theorem Text.solid_flatMap {α : Type} (f : α → List Char) (as : List α) :
    solid (as.flatMap f) = as.flatMap fun a => solid (f a) := by
  induction as with
  | nil => rfl
  | cons a as ih => rw [List.flatMap_cons, List.flatMap_cons, solid_append, ih]

namespace Doc

/-- The ink of a document without blanks. -/
def solid (d : Doc) : List Char := Text.solid d.ink

@[simp]
theorem solid_lit (s : String) : (lit s).solid = Text.solid s.toList := solid_ink s.toList

@[simp]
theorem solid_keyword (s : String) : (keyword s).solid = Text.solid s.toList := by
  rw [solid, ink_keyword, solid_ink]

@[simp]
theorem solid_operator (s : String) : (operator s).solid = Text.solid s.toList := by
  rw [solid, ink_operator, solid_ink]

@[simp]
theorem solid_token (c : TokenClass) (s : String) : (token c s).solid = Text.solid s.toList := by
  rw [solid, ink_token, solid_ink]

@[simp]
theorem solid_softLine : softLine.solid = [] := rfl

private theorem solid_space : Text.solid [' '] = [] := rfl

@[simp]
theorem solid_emptyLine : emptyLine.solid = [] := rfl

@[simp]
theorem solid_grouped (d : Doc) : (grouped d).solid = d.solid := by
  rw [solid, ink_grouped, solid]

@[simp]
theorem solid_nested (d : Doc) : (nested d).solid = d.solid := by
  rw [solid, ink_nested, solid]

@[simp]
theorem solid_annotate (a : Mark) (d : Doc) : (annotate a d).solid = d.solid := by
  rw [solid, ink_annotate, solid]

@[simp]
theorem solid_cat (ds : List Doc) : (cat ds).solid = ds.flatMap solid := by
  rw [solid, ink_cat, solid_flatMap]
  rfl

/-- A separated list is its first element, and each other one after a separator. -/
theorem flatMap_intersperse {α β : Type} (f : α → List β) (separator a : α) (as : List α) :
    ((a :: as).intersperse separator).flatMap f =
      f a ++ as.flatMap fun b => f separator ++ f b := by
  induction as generalizing a with
  | nil => simp
  | cons b as ih =>
    rw [List.intersperse_cons_cons, List.flatMap_cons, List.flatMap_cons, ih, List.flatMap_cons,
      List.append_assoc]

theorem solid_sepBy (separator : Doc) (ds : List Doc) :
    (sepBy separator ds).solid = (ds.intersperse separator).flatMap solid := solid_cat _

theorem solid_commaSeparated (packed : Bool) (ds : List Doc) :
    (commaSeparated packed ds).solid = (ds.intersperse commaLine).flatMap solid := by
  rw [solid, ink_commaSeparated, solid_flatMap]
  rfl

end Doc

/-! ### Children -/

/-- The paths to the first two of at least two children, and to the other ones. -/
theorem Path.exists_children_eq {p : Path} {c d : Node} {others : List Node}
    (h : p.node.children = c :: d :: others) :
    ∃ q r rs, p.children = q :: r :: rs ∧ q.1.node = c ∧ r.1.node = d ∧
      rs.map (fun t => t.1.node) = others := by
  have hmap := p.map_node_children
  rw [h] at hmap
  obtain ⟨q, qs, hqs, hq, hmap⟩ := List.map_eq_cons_iff.mp hmap
  obtain ⟨r, rs, rfl, hr, hmap⟩ := List.map_eq_cons_iff.mp hmap
  exact ⟨q, r, rs, hqs, hq, hr, hmap⟩

namespace Modelica

open Doc Printing Rules

/-- Printing succeeds, and the document has the solid text. -/
def Writes (x : Printing Doc) (cs : List Char) : Prop := x.Returns fun d => d.solid = cs

theorem IsExpressionPath.of_mem_children {p : Path} (hp : IsExpressionPath p) {q : Below p}
    (h : q ∈ p.children) : IsExpressionPath q.1 := by
  obtain ⟨c, hc, i, hq⟩ := p.exists_of_mem_children h
  rw [hq]
  exact hp.down hc i

/-- A path is printed by the rule of its kind. -/
theorem writes_of_rule {p : Path} {rule : DocRule} {cs : List Char}
    (hrule : rules.get? p.node.kind = some rule)
    (h : Writes (rule p fun q => printPath rules q.1) cs) (hcs : p.node.solid = cs) :
    Writes (printPath rules p) p.node.solid := by
  rw [hcs, printPath, hrule]
  exact Returns.bind (P := fun _ => True) ⟨(), 1, rfl, trivial⟩ fun _ _ => h

private theorem Shape.kind_ne_annotationClause {kind : String} {children : List Node}
    {pieces : List Piece} (h : Shape kind children pieces) : kind ≠ "annotation_clause" := by
  cases h with
  | wrapper h =>
    rintro rfl
    exact absurd h (by decide)
  | _ => decide

theorem IsSpelled.kind_ne_annotationClause {n : Node} (h : IsSpelled n) :
    n.kind ≠ "annotation_clause" := by
  rcases h.leaf_or_shape with ⟨hleaf, -⟩ | ⟨pieces, hshape, -⟩
  · intro hkind
    rw [hkind] at hleaf
    exact absurd hleaf (by decide)
  · exact hshape.kind_ne_annotationClause

/-- No annotation stands around an expression. -/
theorem IsExpressionPath.underAnnotationClause_eq {p : Path} (hp : IsExpressionPath p) :
    underAnnotationClause p = false := by
  rw [underAnnotationClause, Path.anyAbove, List.any_eq_false]
  intro turn hturn
  simpa using (hp.above turn hturn).kind_ne_annotationClause

/-! ### Chains -/

section Chain

variable {p : Path} {operands : List (Below p)} {operators : List String} {cs : List Char}

theorem Chained.isExpressionPath {b : Bool} (h : Chained b operands operators cs) :
    ∀ q ∈ operands, IsExpressionPath q.1 := by
  induction h with
  | nil => exact fun q hq => by cases hq
  | operator _ _ ih => exact ih
  | operand hq _ ih => exact List.forall_mem_cons.mpr ⟨hq, ih⟩

private theorem Chained.links (h : Chained false operands operators cs) {docs : List Doc}
    (hdocs : docs.map Doc.solid = operands.map fun q => q.1.node.solid) :
    docs.length = operators.length ∧
      solid (linksInk ((operators.map Doc.operator).zip docs)) = cs := by
  -- each operator comes with the operand behind it
  induction operators generalizing operands docs cs with
  | nil =>
    cases h
    rw [List.map_nil, List.map_eq_nil_iff] at hdocs
    rw [hdocs]
    exact ⟨rfl, rfl⟩
  | cons s operators ih =>
    cases h with
    | operator _ h =>
      cases h with
      | @operand q hq operands _ cs h =>
        obtain ⟨d, docs, rfl, hd, hdocs⟩ := List.map_eq_cons_iff.mp hdocs
        obtain ⟨hlength, hlinks⟩ := ih h hdocs
        refine ⟨by rw [List.length_cons, List.length_cons, hlength], ?_⟩
        have hs : solid (Doc.operator s).ink = solid s.toList := solid_operator s
        have hd : solid d.ink = q.1.node.solid := hd
        rw [linksInk] at hlinks ⊢
        rw [List.map_cons, List.zip_cons_cons, List.flatMap_cons, solid_append, solid_append, hs,
          hd, hlinks, List.append_assoc]

/-- Documents of the operands of a chain are joined to a document with the solid text of the
chain. -/
theorem Chained.exists_chainOf (h : Chained true operands operators cs) {docs : List Doc}
    (hdocs : docs.map Doc.solid = operands.map fun q => q.1.node.solid) (style : ChainStyle) :
    ∃ d, chainOf style docs (operators.map Doc.operator) = .ok d ∧ d.solid = cs := by
  cases h with
  | @operand q hq operands _ cs h =>
    obtain ⟨first, docs, rfl, hfirst, hdocs⟩ := List.map_eq_cons_iff.mp hdocs
    obtain ⟨hlength, hlinks⟩ := h.links hdocs
    refine ⟨_, by rw [chainOf, if_pos (by rw [hlength, List.length_map])], ?_⟩
    rw [Doc.solid, ink_chain, solid_append, hlinks]
    exact congrArg (· ++ cs) hfirst

end Chain

/-! ### Rules -/

section Rules

variable {p : Path} (hp : IsExpressionPath p)
  (hprint : ∀ q : Below p, IsExpressionPath q.1 → Writes (printPath rules q.1) q.1.node.solid)
include hp hprint

/-- The documents of the children have the solid texts of the children. -/
theorem returns_printChildren :
    (printChildren p fun q => printPath rules q.1).Returns fun ds =>
      ds.map Doc.solid = p.node.children.map Node.solid := by
  have hall : (printChildren p fun q => printPath rules q.1).Returns fun ds =>
      ds.map Doc.solid = p.children.map fun q => q.1.node.solid :=
    returns_all fun q hq => hprint q (hp.of_mem_children hq)
  rwa [← p.map_node_children, List.map_map]

/-- The children one after the other spell the text of a wrapper. -/
theorem writes_sequence {c : Node} (hchildren : p.node.children = [c]) :
    Writes (sequence p fun q => printPath rules q.1) c.solid := by
  refine (returns_printChildren hp hprint).bind fun ds hds => .pure ?_
  rw [solid_cat, List.flatMap_def, hds, hchildren]
  simp

theorem writes_parenthesizedExpression {c : Node} (hchildren : p.node.children = [c]) :
    Writes (parenthesizedExpression p fun q => printPath rules q.1)
      (solid "(".toList ++ (c.solid ++ solid ")".toList)) := by
  refine (returns_printChildren hp hprint).bind fun ds hds => .pure ?_
  rw [hchildren] at hds
  rw [bracketed, solid_grouped, solid_cat]
  simp [List.flatMap_def, hds]

theorem writes_tightExpression {left right : Node} (hchildren : p.node.children = [left, right])
    (op : String) : Writes (tightExpression op p fun q => printPath rules q.1)
      (left.solid ++ (solid op.toList ++ right.solid)) := by
  refine (returns_printChildren hp hprint).bind fun ds hds => .pure ?_
  rw [hchildren] at hds
  obtain ⟨d, ds, rfl, hd, hds⟩ := List.map_eq_cons_iff.mp hds
  obtain ⟨e, ds, rfl, he, hds⟩ := List.map_eq_cons_iff.mp hds
  obtain rfl := List.map_eq_nil_iff.mp hds
  simp [solid_sepBy, space, solid_space, hd, he]

/-- The operator chain at a binary expression is printed with its solid text. -/
theorem writes_operatorChain (hkind : p.node.kind = "binary_expression") (k : Precedence) :
    Writes (operatorChain k p fun q => printPath rules q.1) p.node.solid := by
  obtain ⟨operands, operators, hflat, hchained⟩ := exists_flattenChain hp hkind
  obtain ⟨continuation, hcontinuation⟩ := exists_isContinuation hp
  refine (returns_lift (P := (· = .chain operands operators)) hflat rfl).bind ?_
  rintro _ rfl
  have hdocs : (Printing.all (fun q : Below p => printPath rules q.1) operands).Returns fun ds =>
      ds.map Doc.solid = operands.map fun q => q.1.node.solid :=
    returns_all fun q hq => hprint q (hchained.isExpressionPath q hq)
  refine hdocs.bind fun docs hdocs => ?_
  refine (returns_lift (P := (· = continuation)) hcontinuation rfl).bind ?_
  rintro _ rfl
  obtain ⟨d, hd, hsolid⟩ := hchained.exists_chainOf hdocs _
  exact returns_lift (mapError_eq_ok_iff.mpr hd) hsolid

theorem writes_binaryExpression (hkind : p.node.kind = "binary_expression") :
    Writes (binaryExpression p fun q => printPath rules q.1) p.node.solid := by
  obtain ⟨left, right, op, hchildren, -, hop, hsolid⟩ := exists_operatorOf_eq hp.spelled hkind
  rw [binaryExpression, if_pos (by rw [hchildren]; rfl)]
  refine (returns_lift (P := (· = op)) hop rfl).bind ?_
  rintro op rfl
  have htight := writes_tightExpression hp hprint hchildren op
  rw [← hsolid] at htight
  split
  · next k _ =>
    split
    · exact writes_operatorChain hp hprint hkind k
    · exact htight
  · exact htight

/-- What a branch of a conditional expression adds after its first value: a further condition
brings its own keyword. -/
private def branchSolid (n : Node) : List Char :=
  if n.kind = "else_if_clause" then n.solid else solid "else".toList ++ n.solid

omit hp hprint in
private theorem flatMap_branchSolid {clauses : List Node} {last : Node}
    (hclauses : ∀ n ∈ clauses, n.kind = "else_if_clause") (hlast : last.kind ≠ "else_if_clause") :
    (clauses ++ [last]).flatMap branchSolid =
      clauses.flatMap Node.solid ++ (solid "else".toList ++ last.solid) := by
  have hbranches : clauses.flatMap branchSolid = clauses.flatMap Node.solid :=
    List.flatMap_congr fun n hn => by rw [branchSolid, if_pos (hclauses n hn)]
  rw [List.flatMap_append, hbranches, List.flatMap_singleton, branchSolid, if_neg hlast]

theorem writes_ifExpression {condition value : Node} {others : List Node}
    (hchildren : p.node.children = condition :: value :: others) :
    Writes (ifExpression p fun q => printPath rules q.1)
      (solid "if".toList ++ (condition.solid ++ (solid "then".toList ++
        (value.solid ++ others.flatMap branchSolid)))) := by
  obtain ⟨q, r, rs, hqs, hq, hr, hmap⟩ := Path.exists_children_eq hchildren
  obtain ⟨continuation, hcontinuation⟩ := exists_isContinuation hp
  have hpath (t : Below p) (ht : t ∈ q :: r :: rs) : Writes (printPath rules t.1) t.1.node.solid :=
    hprint t (hp.of_mem_children (hqs ▸ ht))
  rw [ifExpression, hqs]
  refine (hpath q (by simp)).bind fun c hc => (hpath r (by simp)).bind fun v hv => ?_
  have hfurther : (Printing.collect (furtherBranch fun q : Below p => printPath rules q.1)
      rs).Returns fun ds => ds.flatMap Doc.solid = rs.flatMap fun t => branchSolid t.1.node := by
    refine returns_collect fun t ht => (hpath t (by simp [ht])).bind fun d hd => .pure ?_
    rw [branchSolid]
    split <;> simp [hd, space, Doc.solid_space]
  refine hfurther.bind fun ds hds => ?_
  refine (returns_lift (P := (· = continuation)) hcontinuation rfl).bind ?_
  rintro continuation rfl
  have hothers : (rs.flatMap fun t => branchSolid t.1.node) = others.flatMap branchSolid := by
    rw [← hmap, List.flatMap_map]
  refine .pure ?_
  rw [hothers] at hds
  cases continuation <;> simp [hc, hv, hq, hr, hds, space, Doc.solid_space]

theorem writes_elseIfClause {condition value : Node}
    (hchildren : p.node.children = [condition, value]) :
    Writes (elseIfClause p fun q => printPath rules q.1)
      (solid "elseif".toList ++ (condition.solid ++ (solid "then".toList ++ value.solid))) := by
  obtain ⟨q, r, rs, hqs, hq, hr, hmap⟩ := Path.exists_children_eq hchildren
  obtain rfl := List.map_eq_nil_iff.mp hmap
  have hpath (t : Below p) (ht : t ∈ [q, r]) : Writes (printPath rules t.1) t.1.node.solid :=
    hprint t (hp.of_mem_children (hqs ▸ ht))
  rw [elseIfClause, hqs]
  refine (hpath q (by simp)).bind fun c hc => ?_
  have hvalues : (Printing.all (fun q : Below p => printPath rules q.1) [r]).Returns fun ds =>
      ds.map Doc.solid = [r].map fun t => t.1.node.solid :=
    returns_all fun t ht => hpath t (List.mem_cons_of_mem q ht)
  refine hvalues.bind fun ds hds => .pure ?_
  obtain ⟨v, vs, rfl, hv, hvs⟩ := List.map_eq_cons_iff.mp hds
  obtain rfl := List.map_eq_nil_iff.mp hvs
  simp [hc, hv, hq, hr, space, Doc.solid_space]

theorem writes_functionApplication {callee args : Node}
    (hchildren : p.node.children = [callee, args]) (hcallee : callee.kind = "component_reference")
    (hargs : args.kind = "function_call_args") :
    Writes (functionApplication p fun q => printPath rules q.1) (callee.solid ++ args.solid) := by
  have hcompact : compactCall? p = none := by
    rw [compactCall?, hp.underAnnotationClause_eq]
    rfl
  rw [functionApplication, hcompact]
  have hselected : (select [(["component_reference", "name"],
      fun d => [annotate (.token .nameFunction) d]), (["function_call_args"], alone)] p
      fun q => printPath rules q.1).Returns fun ds =>
        ds.flatMap Doc.solid = p.children.flatMap fun q => q.1.node.solid := by
    refine returns_collect fun q hq => ?_
    have hwrites := hprint q (hp.of_mem_children hq)
    have hkind : q.1.node.kind = "component_reference" ∨ q.1.node.kind = "function_call_args" := by
      have hmem := Path.node_mem_of_mem_children hq
      rw [hchildren, List.mem_cons, List.mem_singleton] at hmem
      rcases hmem with h | h
      · exact .inl (h ▸ hcallee)
      · exact .inr (h ▸ hargs)
    rcases hkind with hkind | hkind
    · rw [selectChild, hkind]
      exact hwrites.bind fun d hd => .pure (by simp [hd])
    · rw [selectChild, hkind]
      exact hwrites.bind fun d hd => .pure (by simp [alone, hd])
  refine hselected.bind fun ds hds => .pure ?_
  have hsolid : (p.children.flatMap fun q => q.1.node.solid) =
      p.node.children.flatMap Node.solid := by
    rw [← p.map_node_children, List.flatMap_map]
  rw [solid_cat, hds, hsolid, hchildren]
  simp

theorem writes_functionCallArgs {args : Node} (hchildren : p.node.children = [args]) :
    Writes (functionCallArgs p fun q => printPath rules q.1)
      (solid "(".toList ++ (args.solid ++ solid ")".toList)) := by
  rw [functionCallArgs, hchildren, if_neg (by simp)]
  refine (returns_printChildren hp hprint).bind fun ds hds => .pure ?_
  rw [hchildren] at hds
  obtain ⟨d, ds, rfl, hd, hds⟩ := List.map_eq_cons_iff.mp hds
  obtain rfl := List.map_eq_nil_iff.mp hds
  rw [bracketed, solid_grouped, solid_cat]
  repeat' split
  all_goals simp [solid_commaSeparated, hd]

theorem writes_argumentList {first : Node} {rest : List Node}
    (hchildren : p.node.children = first :: rest) :
    Writes (argumentList p fun q => printPath rules q.1)
      (first.solid ++ rest.flatMap fun n => solid ",".toList ++ n.solid) := by
  refine (returns_printChildren hp hprint).bind fun ds hds => .pure ?_
  rw [hchildren] at hds
  obtain ⟨d, ds, rfl, hd, hds⟩ := List.map_eq_cons_iff.mp hds
  have hcomma : commaLine.solid = solid ",".toList := by simp [commaLine]
  have hrest : (ds.flatMap fun e => commaLine.solid ++ e.solid) =
      rest.flatMap fun n => solid ",".toList ++ n.solid := by
    have := congrArg (List.flatMap (solid ",".toList ++ ·)) hds
    rwa [List.flatMap_map, List.flatMap_map, ← hcomma] at this
  rw [solid_commaSeparated, flatMap_intersperse, hd, hrest]

omit hp hprint in
/-- A name is printed as its text. -/
theorem printPath_name {q : Path} (h : q.node.kind = "IDENT") :
    printPath rules q = .ok (textOf q.node, 1) := by
  have hrule : rules.get? q.node.kind = some Rules.plain := by rw [h]; rfl
  rw [printPath, hrule]
  rfl

omit hp hprint in
/-- Behind a name that is not a dot, each further name follows a dot. -/
theorem flatMap_dotted {first : Node} {rest : List Node}
    (h : ∀ c ∈ (first :: rest).dropLast, c.text ≠ some ".") :
    (dotted (some (textOf first)) (rest.map fun n => (true, textOf n))).flatMap Doc.solid =
      rest.flatMap fun n => solid ".".toList ++ n.solid := by
  induction rest generalizing first with
  | nil => rfl
  | cons n rest ih =>
    obtain ⟨hfirst, hrest⟩ := List.forall_mem_cons.mp h
    have hdot : some (textOf first) ≠ some (lit ".") := by
      intro heq
      have htext : first.text.getD "" = "." := by simpa [textOf, Node.textOrEmpty] using heq
      cases hopt : first.text with
      | none =>
        rw [hopt] at htext
        exact absurd htext (by decide)
      | some s =>
        rw [hopt] at htext hfirst
        exact hfirst (congrArg some htext)
    rw [List.map_cons, dotted, if_pos (by simp [hdot]), List.flatMap_append,
      List.flatMap_singleton, List.flatMap_cons, ih hrest, List.flatMap_cons]
    simp [textOf, Node.solid]

omit hprint in
/-- A reference is printed with its dots. -/
theorem writes_reference {first : Node} {rest : List Node}
    (hchildren : p.node.children = first :: rest)
    (hnames : ∀ n ∈ first :: rest, n.kind = "IDENT")
    (hkind : p.node.kind = "component_reference") :
    Writes (reference p fun q => printPath rules q.1)
      (first.solid ++ rest.flatMap fun n => solid ".".toList ++ n.solid) := by
  have hdots : ∀ c ∈ (first :: rest).dropLast, c.text ≠ some "." := by
    rw [← hchildren]
    exact hp.dots p.node (Node.mem_nodesOfKind_self hkind)
  have hmap : (p.children.map fun q => (true, textOf q.1.node)) =
      (first :: rest).map fun n => (true, textOf n) := by
    rw [← hchildren, ← p.map_node_children, List.map_map]
    rfl
  refine Returns.bind (P := (· = p.children.map fun q => (true, textOf q.1.node))) ?_ ?_
  · refine returns_collect_singleton fun q hq => ?_
    have hq : q.1.node.kind = "IDENT" :=
      hnames _ (hchildren ▸ Path.node_mem_of_mem_children hq)
    show Returns (ite _ _ _) _
    rw [hq, if_pos (by decide)]
    refine Returns.bind (P := (· = textOf q.1.node)) ⟨_, 1, printPath_name hq, rfl⟩ ?_
    rintro _ rfl
    exact .pure rfl
  · rintro _ rfl
    refine .pure ?_
    rw [hmap]
    show (cat (dotted none ((first :: rest).map fun n => (true, textOf n)))).solid = _
    rw [solid_cat, List.map_cons, dotted, if_neg (by simp), List.nil_append, List.flatMap_cons,
      flatMap_dotted hdots, textOf, solid_lit]
    rfl

omit hp hprint in
theorem writes_reference_nil (hchildren : p.node.children = []) :
    Writes (reference p fun q => printPath rules q.1) p.node.solid := by
  have hnil : p.children = [] := by
    rw [← List.map_eq_nil_iff, p.map_node_children, hchildren]
  refine Returns.bind (P := (· = [])) ?_ ?_
  · rw [hnil]
    exact .pure rfl
  · rintro _ rfl
    exact .pure (solid_lit p.node.textOrEmpty)

omit hp hprint in
theorem writes_functionCallArgs_nil (hchildren : p.node.children = []) :
    Writes (functionCallArgs p fun q => printPath rules q.1)
      (solid "(".toList ++ solid ")".toList) := by
  rw [functionCallArgs, hchildren, if_pos (by simp)]
  exact .pure (by rw [solid_lit]; decide)

end Rules

/-! ### Trees -/

/-- A leaf is printed as its text, with or without a mark. -/
theorem writes_leaf {p : Path} (h : p.node.kind ∈ leafKinds) :
    Writes (printPath rules p) p.node.solid := by
  have hplain : Writes (Rules.plain p fun q => printPath rules q.1) p.node.solid :=
    .pure (solid_lit p.node.textOrEmpty)
  have htoken (c : TokenClass) : Writes (tokenText c p fun q => printPath rules q.1) p.node.solid :=
    .pure (solid_token c p.node.textOrEmpty)
  simp only [leafKinds, List.mem_cons, List.not_mem_nil, or_false] at h
  rcases h with h | h | h | h
  · exact writes_of_rule (by rw [h]; rfl) hplain rfl
  · exact writes_of_rule (by rw [h]; rfl) (htoken .literalString) rfl
  · exact writes_of_rule (by rw [h]; rfl) (htoken .numberInt) rfl
  · exact writes_of_rule (by rw [h]; rfl) (htoken .numberFloat) rfl

/-- Every spelled expression is printed, and the document has its solid text. -/
theorem writes_printPath {p : Path} (hp : IsExpressionPath p) :
    Writes (printPath rules p) p.node.solid := by
  -- what is printed below a path is smaller, also where a chain is opened several levels deep
  induction hn : p.node.size using Nat.strongRecOn generalizing p with
  | ind n ih =>
    have hprint (q : Below p) (hq : IsExpressionPath q.1) :
        Writes (printPath rules q.1) q.1.node.solid := ih _ (hn ▸ q.2) hq rfl
    rcases hp.spelled.leaf_or_shape with ⟨hleaf, -⟩ | ⟨pieces, hshape, hsolid⟩
    · exact writes_leaf hleaf
    · generalize hkind : p.node.kind = kind at hshape
      generalize hchildren : p.node.children = children at hshape
      cases hshape with
      | noName =>
        exact writes_of_rule (by rw [hkind]; rfl) (writes_reference_nil hchildren) rfl
      | name hnames =>
        refine writes_of_rule (by rw [hkind]; rfl) (writes_reference hp hchildren hnames hkind) ?_
        simp [hsolid, Piece.solid, List.flatMap_assoc]
      | wrapper hwrapper =>
        have hrule : rules.get? p.node.kind = some sequence := by
          rw [hkind]
          simp only [expressionWrappers, List.mem_cons, List.not_mem_nil, or_false] at hwrapper
          rcases hwrapper with rfl | rfl | rfl <;> rfl
        refine writes_of_rule hrule (writes_sequence hp hprint hchildren) ?_
        simp [hsolid, Piece.solid]
      | parenthesized c =>
        refine writes_of_rule (by rw [hkind]; rfl)
          (writes_parenthesizedExpression hp hprint hchildren) ?_
        simp [hsolid, Piece.solid]
      | binary =>
        exact writes_of_rule (by rw [hkind]; rfl) (writes_binaryExpression hp hprint hkind) rfl
      | conditional hclauses hlast =>
        refine writes_of_rule (by rw [hkind]; rfl) (writes_ifExpression hp hprint hchildren) ?_
        rw [flatMap_branchSolid hclauses hlast]
        simp [hsolid, Piece.solid, List.flatMap_assoc]
      | elseIf condition value =>
        refine writes_of_rule (by rw [hkind]; rfl) (writes_elseIfClause hp hprint hchildren) ?_
        simp [hsolid, Piece.solid]
      | call hcallee hargs =>
        refine writes_of_rule (by rw [hkind]; rfl)
          (writes_functionApplication hp hprint hchildren hcallee hargs) ?_
        simp [hsolid, Piece.solid]
      | noArguments =>
        refine writes_of_rule (by rw [hkind]; rfl) (writes_functionCallArgs_nil hchildren) ?_
        simp [hsolid, Piece.solid]
      | callArguments =>
        refine writes_of_rule (by rw [hkind]; rfl)
          (writes_functionCallArgs hp hprint hchildren) ?_
        simp [hsolid, Piece.solid]
      | arguments first rest =>
        refine writes_of_rule (by rw [hkind]; rfl) (writes_argumentList hp hprint hchildren) ?_
        simp [hsolid, Piece.solid, List.flatMap_assoc]

/-- Expressions keep their tokens. A spelled expression whose references keep their dots is
formatted under all options, and with all blanks deleted the text is that of the expression. -/
theorem formatTree_solid_eq {t : Node} {before cs : List Char} (h : Spelled before t cs)
    (hdots : t.KeepsDots) (o : Options) :
    ∃ s, (Job.formatTree o [] t).outcome = .ok s ∧
      solid s.toList = solid t.textOrEmpty.toList := by
  have hp : IsExpressionPath (.root t) := ⟨⟨before, cs, h⟩, fun _ hturn => (by cases hturn), hdots⟩
  obtain ⟨d, count, hd, hsolid⟩ := writes_printPath hp
  have hprint : print t = .ok (d, .printed count t.kind) := by rw [print, printNode, hd]
  obtain ⟨s, hs, hink⟩ := Job.exists_formatTree_ink o hprint
  refine ⟨s, hs, ?_⟩
  rw [← solid_ink, hink]
  exact hsolid

/-- A difference over two lines of a source, where all nodes but the names of the reference
have spans. -/
theorem formatTree_solid_eq_difference :
    let a : Node := ⟨"IDENT", [], some "a", none, none⟩
    let b : Node := ⟨"IDENT", [], some "b", none, none⟩
    let left : Node := ⟨"component_reference", [a, b], some "a.b", some ⟨⟨0, 4⟩, ⟨0, 7⟩⟩, none⟩
    let right : Node := ⟨"IDENT", [], some "c", some ⟨⟨1, 1⟩, ⟨1, 2⟩⟩, none⟩
    let t : Node :=
      ⟨"binary_expression", [left, right], some "a.b -\n c", some ⟨⟨0, 4⟩, ⟨1, 2⟩⟩, none⟩
    (Spelled "x = ".toList t "a.b -\n c".toList ∧ t.KeepsDots) ∧
      ∃ s, (Job.formatTree .usual [] t).outcome = .ok s ∧
        solid s.toList = solid t.textOrEmpty.toList := by
  intro a b left right t
  have ha : Spelled "x = ".toList a "a".toList :=
    .leaf (by decide) rfl (by decide) ⟨rfl, .inl rfl⟩
  have hb : Spelled "x = a.".toList b "b".toList :=
    .leaf (by decide) rfl (by decide) ⟨rfl, .inl rfl⟩
  have hleft : Spelled "x = ".toList left "a.b".toList :=
    .inner (.name (by simp [a, b])) (.child ha (.token "." (.child hb (.nil _)))) ⟨rfl, .inr rfl⟩
  have hright : Spelled "x = a.b -\n ".toList right "c".toList :=
    .leaf (by decide) rfl (by decide) ⟨rfl, .inr rfl⟩
  have hspace : ∀ c ∈ " ".toList, isBlank c = true := List.all_eq_true.mp (by decide)
  have hline : ∀ c ∈ "\n ".toList, isBlank c = true := List.all_eq_true.mp (by decide)
  have hpieces : SpelledPieces "x = ".toList
      [.child left, .blank, .token "-", .blank, .child right] "a.b -\n c".toList :=
    .child hleft (.blank hspace (.token "-" (.blank hline (.child hright (.nil _)))))
  have h : Spelled "x = ".toList t "a.b -\n c".toList :=
    .inner (.binary (by decide)) hpieces ⟨rfl, .inr rfl⟩
  have hdots : t.KeepsDots := by
    simp [Node.KeepsDots, Node.nodesOfKind, Node.preorder, Node.preorderAll, t, left, right, a, b]
  exact ⟨⟨h, hdots⟩, formatTree_solid_eq h hdots .usual⟩

/-- A name that is a dot by itself takes the place of the dot behind it, so that a token of a
spelled expression is lost. -/
theorem formatTree_solid_ne_of_dot :
    let t : Node := ⟨"component_reference", [⟨"IDENT", [], some ".", none, none⟩,
      ⟨"IDENT", [], some "a", none, none⟩], some "..a", none, none⟩
    Spelled [] t "..a".toList ∧ (Job.formatTree .usual [] t).outcome = .ok ".a\n" ∧
      solid ".a\n".toList ≠ solid t.textOrEmpty.toList := by
  intro t
  have hdot : Spelled [] ⟨"IDENT", [], some ".", none, none⟩ ".".toList :=
    .leaf (by decide) rfl (by decide) ⟨rfl, .inl rfl⟩
  have ha : Spelled "..".toList ⟨"IDENT", [], some "a", none, none⟩ "a".toList :=
    .leaf (by decide) rfl (by decide) ⟨rfl, .inl rfl⟩
  refine ⟨?_, toOption_eq_some_iff.mp (by decide +kernel), by decide⟩
  exact .inner (.name (by simp)) (.child hdot (.token "." (.child ha (.nil _)))) ⟨rfl, .inl rfl⟩

end Modelica

end Typeset
