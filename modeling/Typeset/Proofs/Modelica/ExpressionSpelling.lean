import Typeset.Modelica.Policy
import Typeset.Proofs.Ink
import Typeset.Proofs.SourceText

/-!
# Spelled expressions

The expressions of Modelica as trees over a source text. The text of a node is spelled by the
texts of its children and by tokens that are no nodes, with blanks between them; `Shape` has
one constructor for each way to put such pieces together. Each node may carry the span of its
text or none. Since the operator of a binary expression is no node either, it has to be found
again in the text between the operands.

## Main definitions

* `Text.solid` : a text without its blanks.
* `Piece`, `Shape` : what the text of a node is made of.
* `Spelled`, `SpelledPieces` : a tree is spelled in a source.
* `IsSpelled` : a tree is spelled in some source.

## Main results

* `SpelledPieces.solid_eq` : a spelled text without blanks is that of its tokens and children.
* `exists_operatorOf_eq` : the operator of a spelled binary expression is found again.
-/

namespace Typeset

namespace Text

/-- A text without its blanks. -/
def solid (cs : List Char) : List Char := cs.filter (!isBlank ·)

@[simp]
theorem solid_append (cs ds : List Char) : solid (cs ++ ds) = solid cs ++ solid ds :=
  List.filter_append ..

theorem solid_eq_nil {ws : List Char} (h : ∀ c ∈ ws, isBlank c = true) : solid ws = [] :=
  List.filter_eq_nil_iff.mpr fun c hc => by simp [h c hc]

private theorem isBlank_of_not_isInk {c : Char} (h : ¬ isInk c = true) : isBlank c = true := by
  have hc : c = ' ' ∨ c = '\t' ∨ c = '\n' := by
    simpa [isInk, or_iff_not_imp_left] using h
  rcases hc with rfl | rfl | rfl <;> decide

/-- The characters without ink are blanks. -/
theorem solid_ink (cs : List Char) : solid (ink cs) = solid cs := by
  rw [solid, ink, List.filter_filter]
  refine List.filter_congr fun c _ => ?_
  by_cases hc : isInk c = true
  · rw [hc, Bool.and_true]
  · rw [isBlank_of_not_isInk hc]
    rfl

end Text

open Text

/-- The text of a node without its blanks. -/
def Node.solid (n : Node) : List Char := Text.solid n.textOrEmpty.toList

namespace Modelica

/-- A piece of the text of a node. -/
inductive Piece where
  /-- A token that is no node. -/
  | token (s : String)
  /-- Any number of blanks. -/
  | blank
  /-- The text of a child. -/
  | child (n : Node)

/-- What a piece adds to a text without blanks. -/
def Piece.solid : Piece → List Char
  | token s => Text.solid s.toList
  | blank => []
  | child n => n.solid

/-- The kinds of the leaves of expressions. -/
def leafKinds : List String := ["IDENT", "STRING", "UNSIGNED_INTEGER", "UNSIGNED_REAL"]

/-- The pieces of the text of a node with a kind and children. A further condition is part of
the conditional expression around it and stands in no other place than between the first value
and the last one. -/
inductive Shape : String → List Node → List Piece → Prop
  | noName : Shape "component_reference" [] []
  | name {first : Node} {rest : List Node} (h : ∀ n ∈ first :: rest, n.kind = "IDENT") :
      Shape "component_reference" (first :: rest)
        (.child first :: rest.flatMap fun n => [.token ".", .child n])
  | wrapper {kind : String} {c : Node} (h : kind ∈ expressionWrappers) :
      Shape kind [c] [.child c]
  | parenthesized (c : Node) :
      Shape "parenthesized_expression" [c] [.token "(", .blank, .child c, .blank, .token ")"]
  | binary {left right : Node} {op : String} (h : (Precedence.ofOperator? op).isSome = true) :
      Shape "binary_expression" [left, right]
        [.child left, .blank, .token op, .blank, .child right]
  | conditional {condition value last : Node} {clauses : List Node}
      (h : ∀ n ∈ clauses, n.kind = "else_if_clause") (hlast : last.kind ≠ "else_if_clause") :
      Shape "if_expression" (condition :: value :: (clauses ++ [last]))
        ([.token "if", .blank, .child condition, .blank, .token "then", .blank, .child value] ++
          clauses.flatMap (fun n => [.blank, .child n]) ++
          [.blank, .token "else", .blank, .child last])
  | elseIf (condition value : Node) :
      Shape "else_if_clause" [condition, value]
        [.token "elseif", .blank, .child condition, .blank, .token "then", .blank, .child value]
  | call {callee args : Node} (h : callee.kind = "component_reference")
      (hargs : args.kind = "function_call_args") :
      Shape "function_application" [callee, args] [.child callee, .blank, .child args]
  | noArguments : Shape "function_call_args" [] [.token "(", .blank, .token ")"]
  | callArguments {args : Node} (h : args.kind = "function_arguments") :
      Shape "function_call_args" [args] [.token "(", .blank, .child args, .blank, .token ")"]
  | arguments (first : Node) (rest : List Node) :
      Shape "function_arguments" (first :: rest)
        (.child first :: rest.flatMap fun n => [.blank, .token ",", .blank, .child n])

mutual

/-- The tree is spelled as the text `cs`, which stands in a source after the part `before`. -/
inductive Spelled : List Char → Node → List Char → Prop
  | leaf {before : List Char} {n : Node} {cs : List Char} (hkind : n.kind ∈ leafKinds)
      (hchildren : n.children = []) (hne : cs ≠ []) (h : n.IsWritten before cs) :
      Spelled before n cs
  | inner {before : List Char} {n : Node} {pieces : List Piece} {cs : List Char}
      (hshape : Shape n.kind n.children pieces) (hpieces : SpelledPieces before pieces cs)
      (h : n.IsWritten before cs) : Spelled before n cs

/-- Pieces one after the other are spelled as a text. -/
inductive SpelledPieces : List Char → List Piece → List Char → Prop
  | nil (before : List Char) : SpelledPieces before [] []
  | token {before : List Char} (s : String) {pieces : List Piece} {cs : List Char}
      (h : SpelledPieces (before ++ s.toList) pieces cs) :
      SpelledPieces before (.token s :: pieces) (s.toList ++ cs)
  | blank {before ws : List Char} {pieces : List Piece} {cs : List Char}
      (hws : ∀ c ∈ ws, isBlank c = true) (h : SpelledPieces (before ++ ws) pieces cs) :
      SpelledPieces before (.blank :: pieces) (ws ++ cs)
  | child {before : List Char} {n : Node} {pieces : List Piece} {cs ds : List Char}
      (hn : Spelled before n cs) (h : SpelledPieces (before ++ cs) pieces ds) :
      SpelledPieces before (.child n :: pieces) (cs ++ ds)

end

/-- The tree is spelled in some source. -/
def IsSpelled (n : Node) : Prop := ∃ before cs, Spelled before n cs

/-! ### Texts and children -/

theorem Spelled.isWritten {before cs : List Char} {n : Node} (h : Spelled before n cs) :
    n.IsWritten before cs := by
  cases h with
  | leaf _ _ _ h => exact h
  | inner _ _ h => exact h

theorem Spelled.solid_node {before cs : List Char} {n : Node} (h : Spelled before n cs) :
    n.solid = solid cs := by
  rw [Node.solid, h.isWritten.toList_textOrEmpty]

/-- The solid text of pieces is that of the tokens and children among them. -/
theorem SpelledPieces.solid_eq {before cs : List Char} {pieces : List Piece}
    (h : SpelledPieces before pieces cs) : solid cs = pieces.flatMap Piece.solid := by
  induction pieces generalizing before cs with
  | nil =>
    cases h
    rfl
  | cons piece pieces ih =>
    cases h with
    | token s h => rw [solid_append, ih h, List.flatMap_cons, Piece.solid]
    | blank hws h => rw [solid_append, ih h, List.flatMap_cons, Piece.solid, solid_eq_nil hws]
    | child hn h => rw [solid_append, ih h, List.flatMap_cons, Piece.solid, hn.solid_node]

theorem SpelledPieces.isSpelled {before cs : List Char} {pieces : List Piece} {n : Node}
    (h : SpelledPieces before pieces cs) (hn : .child n ∈ pieces) : IsSpelled n := by
  induction pieces generalizing before cs with
  | nil => cases hn
  | cons piece pieces ih =>
    cases h with
    | token s h | blank _ h => exact ih h (by simpa using hn)
    | child hm h =>
      rcases List.mem_cons.mp hn with hn | hn
      · cases hn
        exact ⟨_, _, hm⟩
      · exact ih h hn

theorem Shape.child_mem {kind : String} {children : List Node} {pieces : List Piece} {c : Node}
    (h : Shape kind children pieces) (hc : c ∈ children) : .child c ∈ pieces := by
  cases h with
  | noName | noArguments => cases hc
  | name | arguments => simpa using hc
  | wrapper | parenthesized | callArguments => simpa using hc
  | binary | elseIf | call => simpa using hc
  | conditional => simpa [or_assoc] using hc

/-- The children of a spelled tree are spelled. -/
theorem IsSpelled.child {n c : Node} (h : IsSpelled n) (hc : c ∈ n.children) : IsSpelled c := by
  obtain ⟨before, cs, h⟩ := h
  cases h with
  | leaf _ hchildren =>
    rw [hchildren] at hc
    cases hc
  | inner hshape hpieces => exact hpieces.isSpelled (hshape.child_mem hc)

/-- A spelled tree is a leaf, or it has a shape and the solid text of its pieces. -/
theorem IsSpelled.leaf_or_shape {n : Node} (h : IsSpelled n) :
    (n.kind ∈ leafKinds ∧ n.children = []) ∨
      ∃ pieces, Shape n.kind n.children pieces ∧ n.solid = pieces.flatMap Piece.solid := by
  obtain ⟨before, cs, h⟩ := h
  have hsolid := h.solid_node
  cases h with
  | leaf hkind hchildren => exact .inl ⟨hkind, hchildren⟩
  | inner hshape hpieces => exact .inr ⟨_, hshape, hsolid.trans hpieces.solid_eq⟩

/-! ### Operators -/

/-- An operator is not empty and has no blanks. -/
theorem Precedence.solid_of_isSome {op : String}
    (h : (Precedence.ofOperator? op).isSome = true) :
    op.toList ≠ [] ∧ ∀ c ∈ op.toList, isBlank c = false := by
  obtain ⟨k, hk⟩ := Option.isSome_iff_exists.mp h
  obtain ⟨before, after, htable, -⟩ := List.lookup_eq_some_iff.mp hk
  have hmem : (op, k) ∈ table := by
    rw [htable]
    simp
  have hall : table.all (fun e => !e.1.toList.isEmpty && e.1.toList.all (!isBlank ·)) = true := by
    decide
  have hentry := List.all_eq_true.mp hall (op, k) hmem
  simpa using hentry

/-- What is trimmed between two operands is the operator. -/
theorem trimmed?_operator {op : String} (h : (Precedence.ofOperator? op).isSome = true)
    {ws ws' : List Char} (hws : ∀ c ∈ ws, isBlank c = true) (hws' : ∀ c ∈ ws', isBlank c = true) :
    trimmed? (ws ++ (op.toList ++ ws')) = some op.toList := by
  obtain ⟨hne, hop⟩ := Precedence.solid_of_isSome h
  rw [trimmed?, trim_append_append hws hws' hop hne]
  exact if_neg (by simpa using hne)

variable {n left right : Node} {before l gap r : List Char}

/-- Where not all of the spans are known, nothing is found by them. -/
theorem operatorBySpans?_eq_none
    (h : n.placed? = none ∨ left.placed? = none ∨ right.placed? = none) :
    operatorBySpans? n left right = none := by
  rw [operatorBySpans?]
  rcases h with h | h | h
  · rw [h]
    rfl
  · rw [h]
    cases n.placed? <;> rfl
  · rw [h]
    cases n.placed? <;> cases left.placed? <;> rfl

/-- By the spans of the operands, if all of them are known, what stands between them is found. -/
theorem operatorBySpans?_eq (hn : n.IsWritten before (l ++ (gap ++ r)))
    (hleft : left.IsWritten before l) (hright : right.IsWritten (before ++ (l ++ gap)) r) :
    operatorBySpans? n left right = none ∨ operatorBySpans? n left right = trimmed? gap := by
  rcases hn.placed? with hn | hn
  · exact .inl (operatorBySpans?_eq_none (.inl hn))
  rcases hleft.placed? with hl | hl
  · exact .inl (operatorBySpans?_eq_none (.inr (.inl hl)))
  rcases hright.placed? with hr | hr
  · exact .inl (operatorBySpans?_eq_none (.inr (.inr hr)))
  right
  rw [operatorBySpans?, hn, hl, hr]
  show trimmed? (cut (l ++ (gap ++ r))
    (offsetIn (positionAfter before) (l ++ (gap ++ r)) (positionAfter (before ++ l)))
    (offsetIn (positionAfter before) (l ++ (gap ++ r)) (positionAfter (before ++ (l ++ gap))))) = _
  have hend := offsetIn_positionAfter before (l ++ gap) r
  rw [List.append_assoc] at hend
  rw [offsetIn_positionAfter, hend, cut_append_append]

/-- By the texts of the operands what stands between them is found, unless it is empty. -/
theorem operatorByTexts?_eq (hgap : gap ≠ []) :
    operatorByTexts? (l ++ (gap ++ r)) l r = trimmed? gap := by
  have hlast := lastIndex?_append (l ++ gap) r
  rw [List.append_assoc] at hlast
  have hpos : 0 < gap.length := List.length_pos_iff.mpr hgap
  have hleft : position (firstIndex? l (l ++ (gap ++ r))) + l.length = (l.length : Int) := by
    rw [firstIndex?_append, position, Int.natCast_zero, Int.zero_add]
  rw [operatorByTexts?, hleft, hlast]
  show (if (l.length : Int) < (l ++ gap).length then _ else none) = _
  rw [if_pos (by simp; omega)]
  show trimmed? (cut (l ++ (gap ++ r)) l.length (l ++ gap).length) = _
  rw [cut_append_append]

/-- The operator between two operands is found, with or without spans. -/
theorem operatorBetween_eq {op : String} (h : (Precedence.ofOperator? op).isSome = true)
    {ws ws' : List Char} (hws : ∀ c ∈ ws, isBlank c = true) (hws' : ∀ c ∈ ws', isBlank c = true)
    (hn : n.IsWritten before (l ++ ((ws ++ (op.toList ++ ws')) ++ r)))
    (hleft : left.IsWritten before l)
    (hright : right.IsWritten (before ++ (l ++ (ws ++ (op.toList ++ ws')))) r) :
    operatorBetween n left right = op := by
  have htrimmed := trimmed?_operator h hws hws'
  have hgap : ws ++ (op.toList ++ ws') ≠ [] := by
    simp [(Precedence.solid_of_isSome h).1]
  have htexts := operatorByTexts?_eq (l := l) (r := r) hgap
  rw [htrimmed] at htexts
  have hfound : (operatorBySpans? n left right).or (operatorByTexts? n.textOrEmpty.toList
      left.textOrEmpty.toList right.textOrEmpty.toList) = some op.toList := by
    rw [hn.toList_textOrEmpty, hleft.toList_textOrEmpty, hright.toList_textOrEmpty, htexts]
    rcases operatorBySpans?_eq hn hleft hright with hspans | hspans
    · rw [hspans, Option.none_or]
    · rw [hspans, htrimmed, Option.some_or]
  rw [operatorBetween, hfound, Option.elim_some, String.ofList_toList]

theorem Shape.binary_inv {kind : String} {children : List Node} {pieces : List Piece}
    (h : Shape kind children pieces) (hkind : kind = "binary_expression") :
    ∃ left right op, children = [left, right] ∧ (Precedence.ofOperator? op).isSome = true ∧
      pieces = [.child left, .blank, .token op, .blank, .child right] := by
  cases h with
  | binary h => exact ⟨_, _, _, rfl, h, rfl⟩
  | wrapper h =>
    rw [hkind] at h
    exact absurd h (by decide)
  | _ => exact absurd hkind (by decide)

theorem SpelledPieces.binary_inv {op : String} {cs : List Char}
    (h : SpelledPieces before [.child left, .blank, .token op, .blank, .child right] cs) :
    ∃ l ws ws' r, (∀ c ∈ ws, isBlank c = true) ∧ (∀ c ∈ ws', isBlank c = true) ∧
      Spelled before left l ∧
      Spelled (before ++ (l ++ (ws ++ (op.toList ++ ws')))) right r ∧
      cs = l ++ ((ws ++ (op.toList ++ ws')) ++ r) := by
  cases h with
  | @child _ _ _ l _ hleft h =>
    cases h with
    | @blank _ ws _ _ hws h =>
      cases h with
      | token _ h =>
        cases h with
        | @blank _ ws' _ _ hws' h =>
          cases h with
          | @child _ _ _ r _ hright h =>
            cases h
            refine ⟨l, ws, ws', r, hws, hws', hleft, ?_, by simp⟩
            simpa using hright

/-- The operator of a spelled binary expression is found, and it stands between the operands. -/
theorem exists_operatorOf_eq (h : IsSpelled n) (hkind : n.kind = "binary_expression") :
    ∃ left right op, n.children = [left, right] ∧ (Precedence.ofOperator? op).isSome = true ∧
      operatorOf n = .ok op ∧ n.solid = left.solid ++ (solid op.toList ++ right.solid) := by
  obtain ⟨before, cs, h⟩ := h
  have hsolid := h.solid_node
  cases h with
  | leaf hleaf =>
    rw [hkind] at hleaf
    exact absurd hleaf (by decide)
  | inner hshape hpieces hn =>
    obtain ⟨left, right, op, hchildren, hop, rfl⟩ := hshape.binary_inv hkind
    refine ⟨left, right, op, hchildren, hop, ?_, ?_⟩
    · obtain ⟨l, ws, ws', r, hws, hws', hleft, hright, rfl⟩ := hpieces.binary_inv
      rw [operatorOf, hchildren]
      exact congrArg _ (operatorBetween_eq hop hws hws' hn hleft.isWritten hright.isWritten)
    · rw [hsolid, hpieces.solid_eq]
      simp [Piece.solid]

end Modelica

end Typeset
