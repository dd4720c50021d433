import Typeset.Proofs.Modelica.ChainWalk
import Typeset.Proofs.Modelica.ExpressionSpelling

/-!
# Operator chains of spelled expressions

A chain of binary expressions is taken apart into its operands and the operators between them.
For a spelled expression this always succeeds: operators and operands come in turn, as they
stand in the source, and nothing of the solid text is lost.

## Main definitions

* `Node.KeepsDots` : no name but the last one of a reference is a dot by itself.
* `IsExpressionPath` : a path of spelled expressions.
* `Alternates`, `Chained` : operands and operators in turn with the text that they spell.

## Main results

* `exists_isContinuation` : whether the expression is a continuation is always decided.
* `Walked.chained` : a walk over a chain keeps its solid text.
* `exists_flattenChain` : the chain at a binary expression spells its text.
-/

namespace Typeset

open Text

/-! ### Paths -/

/-- No name of a reference that another name follows is a dot by itself. -/
def Node.KeepsDots (n : Node) : Prop :=
  ∀ m ∈ n.nodesOfKind "component_reference", ∀ c ∈ m.children.dropLast, c.text ≠ some "."

private theorem Node.map_preorder (parent parent' : Option Node) (n : Node) :
    (n.preorder parent).map (·.1) = (n.preorder parent').map (·.1) := by
  cases n
  rfl

private theorem Node.preorder_subset {parent c : Node} {ns : List Node} (h : c ∈ ns) :
    c.preorder (some parent) ⊆ Node.preorderAll parent ns := by
  induction ns with
  | nil => cases h
  | cons n ns ih =>
    rw [Node.preorderAll]
    rcases List.mem_cons.mp h with rfl | h
    · exact List.subset_append_left _ _
    · exact List.subset_append_of_subset_right _ (ih h)

private theorem Node.nodesOfKind_subset {n c : Node} (h : c ∈ n.children) (kind : String) :
    c.nodesOfKind kind ⊆ n.nodesOfKind kind := by
  refine List.filter_subset _ ?_
  rw [Node.map_preorder none (some n) c]
  refine List.map_subset _ fun m hm => ?_
  cases n
  exact List.mem_cons_of_mem _ (Node.preorder_subset h hm)

theorem Node.mem_nodesOfKind_self {n : Node} {kind : String} (h : n.kind = kind) :
    n ∈ n.nodesOfKind kind := by
  refine List.mem_filter.mpr ⟨?_, by simpa using h⟩
  cases n
  exact List.mem_cons_self

theorem Node.KeepsDots.child {n c : Node} (h : n.KeepsDots) (hc : c ∈ n.children) :
    c.KeepsDots :=
  fun m hm => h m (Node.nodesOfKind_subset hc _ hm)

namespace Modelica

/-- A path to a spelled expression through spelled expressions. -/
structure IsExpressionPath (p : Path) : Prop where
  /-- The expression is spelled. -/
  spelled : IsSpelled p.node
  /-- So are the nodes above it. -/
  above : ∀ turn ∈ p.above, IsSpelled turn.node
  /-- The dots of its references are printed. -/
  dots : p.node.KeepsDots

theorem IsExpressionPath.down {p : Path} (hp : IsExpressionPath p) {c : Node}
    (hc : c ∈ p.node.children) (i : Int) : IsExpressionPath (p.down c i) where
  spelled := hp.spelled.child hc
  above := List.forall_mem_cons.mpr ⟨hp.spelled, hp.above⟩
  dots := hp.dots.child hc

/-! ### Continuations -/

/-- It is known whether a spelled expression has a precedence class: binary expressions have
one, and only they do. -/
theorem exists_precedence {n : Node} (h : IsSpelled n) :
    ∃ k, policy.precedence n = .ok k ∧ (k.isSome = true ↔ n.kind = "binary_expression") := by
  by_cases hkind : n.kind = "binary_expression"
  · obtain ⟨left, right, op, -, hsome, hop, -⟩ := exists_operatorOf_eq h hkind
    refine ⟨Precedence.ofOperator? op, ?_, iff_of_true hsome hkind⟩
    rw [Policy.precedence, if_pos (by rw [hkind]; rfl)]
    show precedenceOf n = _
    rw [precedenceOf, hop]
    rfl
  · refine ⟨none, ?_, iff_of_false (by simp) hkind⟩
    rw [Policy.precedence, if_neg (by simpa [policy] using hkind)]
    rfl

private theorem exists_classify {ancestor subject : Node} (ha : IsSpelled ancestor)
    (hs : IsSpelled subject) (i : Int) :
    ∃ role, policy.classify ancestor (some i) subject = .ok role := by
  rw [Policy.classify]
  split
  · obtain ⟨k, hk, -⟩ := exists_precedence hs
    obtain ⟨k', hk', -⟩ := exists_precedence ha
    rw [Policy.classifyBinary, hk]
    cases k with
    | none => exact ⟨_, rfl⟩
    | some k =>
      show ∃ role, (policy.precedence ancestor >>= _) = _
      rw [hk']
      by_cases heq : k' = some k
      · exact ⟨.claims, by simp [bind, Except.bind, heq]; rfl⟩
      · exact ⟨.transparent, by simp [bind, Except.bind, heq]; rfl⟩
  · repeat' split
    all_goals exact ⟨_, rfl⟩

/-- Whether a spelled expression is a continuation is always decided. -/
theorem exists_isContinuation {p : Path} (hp : IsExpressionPath p) :
    ∃ b, policy.isContinuation p = .ok b := by
  rw [Policy.isContinuation]
  have habove := hp.above
  generalize p.above = above at habove
  induction above with
  | nil => exact ⟨_, rfl⟩
  | cons turn above ih =>
    obtain ⟨hturn, habove⟩ := List.forall_mem_cons.mp habove
    obtain ⟨role, hrole⟩ := exists_classify hturn hp.spelled turn.index
    rw [Policy.decideAbove, hrole]
    cases role with
    | claims | boundary => exact ⟨_, rfl⟩
    | transparent => exact ih habove

/-! ### Wrappers -/

theorem Shape.wrapper_inv {kind : String} {children : List Node} {pieces : List Piece}
    (h : Shape kind children pieces) (hkind : kind ∈ expressionWrappers) :
    ∃ c, children = [c] ∧ pieces = [.child c] := by
  cases h with
  | wrapper h => exact ⟨_, rfl, rfl⟩
  | _ => exact absurd hkind (by decide)

/-- A wrapper has the solid text of its child. -/
theorem IsSpelled.solid_wrapper {n c : Node} (h : IsSpelled n) (hkind : n.kind ∈ expressionWrappers)
    (hc : c ∈ n.children) : c.solid = n.solid := by
  rcases h.leaf_or_shape with ⟨_, hchildren⟩ | ⟨pieces, hshape, hsolid⟩
  · rw [hchildren] at hc
    cases hc
  · obtain ⟨d, hchildren, rfl⟩ := hshape.wrapper_inv hkind
    rw [hchildren, List.mem_singleton] at hc
    subst hc
    simpa [Piece.solid] using hsolid.symm

/-- The path inside of wrappers is a path of expressions with the same solid text. -/
theorem IsExpressionPath.unwrap {p : Path} (hp : IsExpressionPath p) :
    IsExpressionPath (policy.unwrap p) ∧ (policy.unwrap p).node.solid = p.node.solid := by
  fun_induction Policy.unwrap policy p with
  | case1 p c hc hkind ih =>
    have hmem : c ∈ p.node.children := by simp [hc]
    obtain ⟨hinner, hsolid⟩ := ih (hp.down hmem 0)
    refine ⟨hinner, hsolid.trans ?_⟩
    exact hp.spelled.solid_wrapper (by simpa [policy] using hkind) hmem
  | case2 => exact ⟨hp, rfl⟩
  | case3 => exact ⟨hp, rfl⟩

/-! ### The walk over a chain -/

section Walk

variable {p : Path}

/-- Entries of a walk that are places of expressions and operators in turn, with the solid text
that they spell; `b` says whether the first entry is a place. -/
inductive Alternates : Bool → List (ChainEntry p) → List Char → Prop
  | nil : Alternates false [] []
  | operator (s : String) {entries : List (ChainEntry p)} {cs : List Char}
      (h : Alternates true entries cs) :
      Alternates false (.operator s :: entries) (solid s.toList ++ cs)
  | place {q : Below p} (hq : IsExpressionPath q.1) {entries : List (ChainEntry p)}
      {cs : List Char} (h : Alternates false entries cs) :
      Alternates true (.place q :: entries) (q.1.node.solid ++ cs)

/-- Operands that are expressions and operators in turn, with the solid text that they spell;
`b` says whether an operand comes first. -/
inductive Chained : Bool → List (Below p) → List String → List Char → Prop
  | nil : Chained false [] [] []
  | operator (s : String) {operands : List (Below p)} {operators : List String}
      {cs : List Char} (h : Chained true operands operators cs) :
      Chained false operands (s :: operators) (solid s.toList ++ cs)
  | operand {q : Below p} (hq : IsExpressionPath q.1) {operands : List (Below p)}
      {operators : List String} {cs : List Char} (h : Chained false operands operators cs) :
      Chained true (q :: operands) operators (q.1.node.solid ++ cs)

/-- Opening a binary expression puts its operands and its operator in its place. -/
theorem Alternates.opened {inner : Path} (hinner : IsExpressionPath inner)
    (hsize : inner.node.size ≤ p.node.size) {left right : Node}
    (hchildren : inner.node.children = [left, right]) (op : String)
    {entries : List (ChainEntry p)} {cs : List Char} (h : Alternates false entries cs) :
    Alternates true (Policy.opened inner hsize left right hchildren op ++ entries)
      (left.solid ++ (solid op.toList ++ (right.solid ++ cs))) :=
  .place (hinner.down (by simp [hchildren]) 0) <| .operator op <|
    .place (hinner.down (by simp [hchildren]) 1) h

/-- A walk over a chain collects operands and operators in turn that spell the same solid
text. -/
theorem Walked.chained {k : Precedence} {entries : List (ChainEntry p)}
    {operands : List (Below p)} {operators : List String}
    (hw : Walked k entries operands operators) {b : Bool} {cs : List Char}
    (h : Alternates b entries cs) : Chained b operands operators cs := by
  induction hw generalizing b cs with
  | nil =>
    cases h
    exact .nil
  | operator s _ ih =>
    cases h with
    | operator _ h => exact .operator s (ih h)
  | operand q _ ih =>
    cases h with
    | place hq h => exact .operand hq (ih h)
  | opened q hk hsize hchildren hop _ ih =>
    cases h with
    | place hq h =>
      obtain ⟨hinner, hsolid⟩ := hq.unwrap
      obtain ⟨_, _, _, hoperands, -, hop', htext⟩ :=
        exists_operatorOf_eq hinner.spelled (kind_of_precedence hk)
      rw [hchildren] at hoperands
      cases hoperands
      rw [hop] at hop'
      cases hop'
      rw [← hsolid, htext]
      simpa using ih (h.opened hinner hsize hchildren _)

end Walk

/-- The chain at a spelled binary expression is found, and it spells the text of the
expression. -/
theorem exists_flattenChain {p : Path} (hp : IsExpressionPath p)
    (hkind : p.node.kind = "binary_expression") :
    ∃ operands operators, flattenChain p = .ok (.chain operands operators) ∧
      Chained true operands operators p.node.solid := by
  obtain ⟨left, right, op, hchildren, hsome, hop, htext⟩ := exists_operatorOf_eq hp.spelled hkind
  obtain ⟨k, hk⟩ := Option.isSome_iff_exists.mp hsome
  obtain ⟨operands, operators, hrun, -, hwalked⟩ :=
    exists_flattenChain_walked hkind hchildren hop hk
  have hopened := Alternates.nil.opened hp (Nat.le_refl _) hchildren op
  rw [List.append_nil, List.append_nil, ← htext] at hopened
  exact ⟨operands, operators, hrun, hwalked.chained hopened⟩

end Modelica

end Typeset
