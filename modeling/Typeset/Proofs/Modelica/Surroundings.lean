import Typeset.Modelica.Rules
import Typeset.Proofs.Modelica.Association

/-!
# What a place sees of its surroundings

The rules look at a place from two sides. Of the node itself and of each node above it they see
the outline: its own data and that of its children, but nothing below. And going up they ask
whether the place is a continuation, whether it stands in an annotation, and what its parent and
the owner of its parent are. Wrappers and the binary expressions of a chain are passed by in all
of this, however many there are. A file of definitions starts afresh for each of them, and neither
its other definitions nor the index of the one in question is asked for.

## Main definitions

* `Node.label`, `Node.outline` : a node without its children, and with the labels of its children.
* `SameSurroundings` : what is above two places that cannot be told apart by what is above them.

## Main results

* `operatorOf_outline`, `precedence_outline`, `leadingWords_outline` : questions about a node that
  its outline answers.
* `decideAbove_passage` : what the nodes between a chain and its operands decide.
* `SameSurroundings.decideAbove_eq`, `SameSurroundings.inGraphicalPrimitive_eq` : questions about
  what is above a place.
-/

namespace Typeset

/-- The node without its children. -/
def Node.label (n : Node) : Node := { n with children := [] }

/-- The node with its children, but with nothing below them. -/
def Node.outline (n : Node) : Node := { n with children := n.children.map Node.label }

theorem Node.label_eq_iff {n n' : Node} :
    n.label = n'.label ↔
      n.kind = n'.kind ∧ n.text = n'.text ∧ n.span = n'.span ∧ n.field = n'.field := by
  simp [label]

theorem Node.outline_eq {n n' : Node} (hlabel : n.label = n'.label)
    (hchildren : n.children.map label = n'.children.map label) : n.outline = n'.outline := by
  cases n
  cases n'
  simp only [label, outline, mk.injEq, true_and] at hlabel hchildren ⊢
  exact ⟨hlabel.1, hchildren, hlabel.2⟩

/-- A question that the outline of a node answers has the same answer for nodes with the same
outline. -/
theorem Node.eq_of_outline {α : Type} {f : Node → α} (hf : ∀ n, f n.outline = f n) {n n' : Node}
    (h : n.outline = n'.outline) : f n = f n' := by
  rw [← hf n, h, hf n']

theorem Node.firstChild?_outline (n : Node) (kinds : List String) :
    n.outline.firstChild? kinds = (n.firstChild? kinds).map label := by
  show (n.children.map label).find? _ = _
  rw [List.find?_map]
  rfl

namespace Modelica

open Rules

/-! ### Outlines -/

theorem operatorOf_outline (n : Node) : operatorOf n.outline = operatorOf n := by
  obtain ⟨kind, children, text, span, field⟩ := n
  rcases children with _ | ⟨_, _ | ⟨_, _⟩⟩ <;> rfl

theorem precedence_outline (n : Node) : policy.precedence n.outline = policy.precedence n := by
  show (if policy.binary.contains n.kind then (do
    return Precedence.ofOperator? (← operatorOf n.outline)) else _) = _
  rw [operatorOf_outline]
  rfl

theorem leadingText_outline (n : Node) (child : Option Node) :
    leadingText n.outline (child.map Node.label) = leadingText n child := by
  cases child <;> rfl

theorem leadingWords_outline (n : Node) : leadingWords n.outline = leadingWords n := by
  rw [leadingWords, leadingWords, ← leadingText_outline n]
  congr 1
  exact List.head?_map

theorem modifiesPrimitive_outline (n : Node) :
    modifiesPrimitive n.outline = modifiesPrimitive n := by
  rw [modifiesPrimitive, modifiesPrimitive, modifiedName?, modifiedName?,
    Node.firstChild?_outline]
  cases n.firstChild? ["name"] <;> rfl

theorem kind_eq_of_outline {n n' : Node} (h : n.outline = n'.outline) : n.kind = n'.kind :=
  Node.eq_of_outline (f := Node.kind) (fun _ => rfl) h

/-! ### Above a place -/

/-- What is above two places that cannot be told apart by it: nodes with the same outlines, left
through the same child, files of definitions, and stretches of wrappers and binary expressions of
one class. -/
inductive SameSurroundings : List Turn → List Turn → Prop
  | root : SameSurroundings [] []
  | definitions {n n' : Node} {above above' : List Turn} (h : n.kind = "stored_definitions")
      (h' : n'.kind = "stored_definitions") (i i' : Int)
      (habove : SameSurroundings above above') :
      SameSurroundings (⟨n, i⟩ :: above) (⟨n', i'⟩ :: above')
  | child {n n' : Node} {above above' : List Turn} (h : n.outline = n'.outline) (i : Int)
      (habove : SameSurroundings above above') :
      SameSurroundings (⟨n, i⟩ :: above) (⟨n', i⟩ :: above')
  | passage {k : Precedence} {turns turns' above above' : List Turn} (h : IsPassage k turns)
      (h' : IsPassage k turns') (hne : turns ≠ []) (hne' : turns' ≠ [])
      (hbinary : turns.any (·.node.kind = "binary_expression") =
        turns'.any (·.node.kind = "binary_expression"))
      (habove : SameSurroundings above above') :
      SameSurroundings (turns ++ above) (turns' ++ above')

/-- Below two wrappers it looks as below one. -/
theorem SameSurroundings.wrapped {n n' inner : Node} {above above' : List Turn}
    (h : SameSurroundings above above') (hn : n.kind ∈ expressionWrappers)
    (hn' : n'.kind ∈ expressionWrappers) (hinner : inner.kind ∈ expressionWrappers) (i j : Int) :
    SameSurroundings (⟨n, i⟩ :: above) (⟨inner, i⟩ :: ⟨n', j⟩ :: above') := by
  show SameSurroundings ([⟨n, i⟩] ++ above) ([⟨inner, i⟩, ⟨n', j⟩] ++ above')
  refine .passage (k := .additive) ?_ ?_ (by simp) (by simp) ?_ h
  · simpa [IsPassage] using Or.inl hn
  · simpa [IsPassage] using ⟨Or.inl hinner, Or.inl hn'⟩
  · simp [ne_binary_of_wrapper hn, ne_binary_of_wrapper hinner, ne_binary_of_wrapper hn']

/-! ### Continuations -/

/-- The role of a node depends on its outline and on the class of the subject. -/
theorem classify_eq {n n' s s' : Node} (h : n.outline = n'.outline)
    (hs : policy.precedence s = policy.precedence s') (i : Option Int) :
    policy.classify n i s = policy.classify n' i s' := by
  rw [Policy.classify, Policy.classify, kind_eq_of_outline h, Policy.classifyBinary,
    Policy.classifyBinary, hs, Node.eq_of_outline precedence_outline h]

theorem classify_definitions {n : Node} (h : n.kind = "stored_definitions") (i : Option Int)
    (s : Node) : policy.classify n i s = .ok .boundary := by
  rw [Policy.classify, h]
  rfl

/-- A stretch of wrappers and binary expressions of class `k` makes a subject of that class a
continuation if there is a binary expression among them, and leaves all else to the nodes
above. -/
theorem decideAbove_passage {k : Precedence} {turns : List Turn} (h : IsPassage k turns)
    (s : Node) (above : List Turn) :
    policy.decideAbove s (turns ++ above) =
      if turns.any (·.node.kind = "binary_expression") then do
        if (← policy.precedence s) = some k then return true else policy.decideAbove s above
      else policy.decideAbove s above := by
  induction turns with
  | nil => rfl
  | cons turn turns ih =>
    obtain ⟨hturn, hturns⟩ := List.forall_mem_cons.mp h
    rw [List.cons_append, Policy.decideAbove, List.any_cons, ih hturns]
    rcases hturn with hkind | hk
    · rw [classify_wrapper hkind, decide_eq_false (ne_binary_of_wrapper hkind), Bool.false_or]
      rfl
    · rw [classify_binary hk, decide_eq_true (kind_of_precedence hk), Bool.true_or, if_pos rfl]
      cases policy.precedence s with
      | error e => rfl
      | ok k' =>
        by_cases hk' : k' = some k
        · simp [hk', bind, Except.bind, pure, Except.pure]
        · simp [hk', bind, Except.bind, pure, Except.pure]

/-- Subjects of the same class are continuations in the same surroundings or in none. -/
theorem SameSurroundings.decideAbove_eq {above above' : List Turn}
    (h : SameSurroundings above above') {s s' : Node}
    (hs : policy.precedence s = policy.precedence s') :
    policy.decideAbove s above = policy.decideAbove s' above' := by
  induction h with
  | root => rfl
  | definitions h h' =>
    rw [Policy.decideAbove, Policy.decideAbove, classify_definitions h, classify_definitions h']
    rfl
  | child h i _ ih => rw [Policy.decideAbove, Policy.decideAbove, classify_eq h hs, ih]
  | passage h h' _ _ hbinary _ ih =>
    rw [decideAbove_passage h, decideAbove_passage h', hbinary, hs, ih]

/-! ### Annotations and parents -/

/-- The nodes between a chain and its operands are of these kinds. -/
theorem IsPassage.kind_mem {k : Precedence} {turns : List Turn} (h : IsPassage k turns)
    {turn : Turn} (hturn : turn ∈ turns) :
    turn.node.kind ∈ "binary_expression" :: expressionWrappers := by
  rcases h turn hturn with hkind | hk
  · exact List.mem_cons_of_mem _ hkind
  · rw [kind_of_precedence hk]
    exact List.mem_cons_self

/-- A kind that is none of those between a chain and its operands does not occur there. -/
theorem IsPassage.any_kind_eq_false {k : Precedence} {turns : List Turn} (h : IsPassage k turns)
    {kind : String} (hkind : kind ∉ "binary_expression" :: expressionWrappers) :
    turns.any (·.node.kind = kind) = false := by
  rw [List.any_eq_false]
  intro turn hturn heq
  exact hkind (of_decide_eq_true heq ▸ h.kind_mem hturn)

theorem SameSurroundings.underAnnotationClause_eq {p p' : Path}
    (h : SameSurroundings p.above p'.above) :
    underAnnotationClause p = underAnnotationClause p' := by
  show p.above.any (·.node.kind = "annotation_clause") =
    p'.above.any (·.node.kind = "annotation_clause")
  generalize p.above = above at h
  generalize p'.above = above' at h
  induction h with
  | root => rfl
  | definitions h h' _ _ _ ih => rw [List.any_cons, List.any_cons, ih, h, h']
  | child h i _ ih => rw [List.any_cons, List.any_cons, ih, kind_eq_of_outline h]
  | passage h h' _ _ _ _ ih =>
    rw [List.any_append, List.any_append, ih, h.any_kind_eq_false (by decide),
      h'.any_kind_eq_false (by decide)]

/-- The kinds of parents that no rule asks for. -/
def unaskedKinds : List String := "stored_definitions" :: "binary_expression" :: expressionWrappers

/-- A question about a node that its outline answers, and that files of definitions, wrappers and
binary expressions answer with no. -/
structure PassesBy (f : Node → Bool) : Prop where
  outline_eq : ∀ n, f n.outline = f n
  eq_false : ∀ n : Node, n.kind ∈ unaskedKinds → f n = false

theorem passesBy_kind {kind : String} (h : kind ∉ unaskedKinds) :
    PassesBy fun n => n.kind = kind :=
  ⟨fun _ => rfl, fun _ hn => decide_eq_false fun heq => h (heq ▸ hn)⟩

theorem passesBy_modifiesPrimitive : PassesBy modifiesPrimitive := by
  refine ⟨modifiesPrimitive_outline, fun n hn => ?_⟩
  have hkind : n.kind ≠ "element_modification" := by
    intro heq
    rw [heq] at hn
    exact absurd hn (by decide)
  rw [modifiesPrimitive, modifiedName?, if_neg hkind]
  rfl

section Parents

variable {f g : Node → Bool} {above above' : List Turn}

theorem IsPassage.parent_eq_false {k : Precedence} {turns : List Turn} (h : IsPassage k turns)
    (hne : turns ≠ []) (hf : PassesBy f) : (turns ++ above).head?.any (f ·.node) = false := by
  obtain ⟨turn, turns, rfl⟩ := List.exists_cons_of_ne_nil hne
  exact hf.eq_false _ (List.mem_cons_of_mem _ (h.kind_mem List.mem_cons_self))

theorem PassesBy.definitions_eq_false (hf : PassesBy f) {n : Node}
    (h : n.kind = "stored_definitions") : f n = false :=
  hf.eq_false n (h ▸ List.mem_cons_self)

theorem SameSurroundings.parent_eq (h : SameSurroundings above above') (hf : PassesBy f) :
    above.head?.any (f ·.node) = above'.head?.any (f ·.node) := by
  cases h with
  | root => rfl
  | definitions h h' => exact (hf.definitions_eq_false h).trans (hf.definitions_eq_false h').symm
  | child h i _ => exact Node.eq_of_outline hf.outline_eq h
  | passage h h' hne hne' => rw [h.parent_eq_false hne hf, h'.parent_eq_false hne' hf]

/-- Under a parent that is not passed by, the next node above is seen as well. -/
theorem SameSurroundings.owner_eq (h : SameSurroundings above above') (hf : PassesBy f)
    (hg : PassesBy g) :
    (above.head?.any (f ·.node) && above.tail.head?.any (g ·.node)) =
      (above'.head?.any (f ·.node) && above'.tail.head?.any (g ·.node)) := by
  rw [h.parent_eq hf]
  cases h with
  | root => rfl
  | definitions h h' _ _ habove => rw [List.tail_cons, List.tail_cons, habove.parent_eq hg]
  | child h i habove => rw [List.tail_cons, List.tail_cons, habove.parent_eq hg]
  | passage h h' hne hne' => rw [h'.parent_eq_false hne' hf, Bool.false_and, Bool.false_and]

end Parents

/-- Whether a place belongs to a graphical primitive is told by its parent, or by the parent of a
modification. -/
theorem inGraphicalPrimitive_eq (p : Path) :
    inGraphicalPrimitive p =
      (p.above.head?.any (·.node.kind = "annotation_clause") ||
        p.above.head?.any (modifiesPrimitive ·.node) ||
        (p.above.head?.any (·.node.kind = "modification") &&
          p.above.tail.head?.any (modifiesPrimitive ·.node))) := by
  rw [inGraphicalPrimitive]
  split
  · next habove => rw [habove]; rfl
  · next parent above habove =>
    have hmodification (h : parent.node.kind = "modification") :
        modifiesPrimitive parent.node = false := by
      rw [modifiesPrimitive, modifiedName?, if_neg (by rw [h]; decide)]
      rfl
    rw [habove]
    by_cases hclause : parent.node.kind = "annotation_clause"
    · simp [hclause]
    · by_cases hkind : parent.node.kind = "modification"
      · cases above <;> simp [hkind, hmodification hkind]
      · simp [hclause, hkind]

theorem inArgumentList_eq (p : Path) :
    inArgumentList p =
      (p.above.head?.any (·.node.kind = "modification") &&
        p.above.tail.head?.any (·.node.kind = "element_modification")) := by
  rw [inArgumentList]
  split
  · next habove => rw [habove]; rfl
  · next hother =>
    match habove : p.above with
    | [] => rfl
    | [_] => simp
    | parent :: owner :: _ => exact absurd habove (hother parent owner _)

theorem SameSurroundings.inGraphicalPrimitive_eq {p p' : Path}
    (h : SameSurroundings p.above p'.above) :
    inGraphicalPrimitive p = inGraphicalPrimitive p' := by
  rw [Modelica.inGraphicalPrimitive_eq, Modelica.inGraphicalPrimitive_eq,
    h.parent_eq (passesBy_kind (by decide)), h.parent_eq passesBy_modifiesPrimitive,
    h.owner_eq (passesBy_kind (by decide)) passesBy_modifiesPrimitive]

theorem SameSurroundings.inArgumentList_eq {p p' : Path}
    (h : SameSurroundings p.above p'.above) : inArgumentList p = inArgumentList p' := by
  rw [Modelica.inArgumentList_eq, Modelica.inArgumentList_eq,
    h.owner_eq (passesBy_kind (by decide)) (passesBy_kind (by decide))]

end Modelica

end Typeset
