import Typeset.Text.Quoted
import Typeset.Tree.Position

/-!
# Syntax trees

A node of a concrete syntax tree has a kind, its named children in source order and, where
they are known, its text, its span and the name of the field that it fills in its parent.

## Main definitions

* `Node` : a tree.
* `Node.size` : the number of nodes.
* `Node.preorder`, `Node.nodesOfKind`, `Node.countDamage` : walks over a tree.
* `Node.atPosition?` : the innermost node at a position.

## Main results

* `Node.inductionOn` : induction on trees, with the hypothesis for every child.
* `Node.size_lt_of_mem` : a child is smaller than its parent.
-/

namespace Typeset

open Text

/-- A syntax tree. -/
structure Node where
  /-- The kind of the root. -/
  kind : String
  /-- The children in source order. -/
  children : List Node := []
  /-- The source text of the node. -/
  text : Option String := none
  /-- Where the node stands in the source. -/
  span : Option Span := none
  /-- The field of the parent that the node fills. -/
  field : Option String := none

instance : Inhabited Node := ⟨⟨"", [], none, none, none⟩⟩

namespace Node

/-- Induction on trees: the claim may be assumed for every child. -/
@[elab_as_elim]
theorem inductionOn {P : Node → Prop} (n : Node)
    (mk : ∀ kind children text span field, (∀ c ∈ children, P c) →
      P ⟨kind, children, text, span, field⟩) : P n :=
  @Node.rec P (fun cs => ∀ c ∈ cs, P c) mk (by simp)
    (fun _ _ hc hcs => by simpa using ⟨hc, hcs⟩) n

mutual

/-- The number of nodes of a tree. -/
def size : Node → Nat
  | ⟨_, children, _, _, _⟩ => 1 + sizeAll children

/-- The number of nodes of some trees. -/
def sizeAll : List Node → Nat
  | [] => 0
  | n :: ns => size n + sizeAll ns

end

theorem size_eq (n : Node) : n.size = 1 + sizeAll n.children := by
  cases n
  rw [size]

theorem size_pos (n : Node) : 0 < n.size := by
  rw [size_eq]; omega

theorem size_le_sizeAll {c : Node} {ns : List Node} (h : c ∈ ns) : c.size ≤ sizeAll ns := by
  induction ns with
  | nil => simp at h
  | cons n ns ih =>
    rw [sizeAll]
    rcases List.mem_cons.mp h with rfl | h
    · omega
    · have := ih h; omega

/-- A child is smaller than its parent. -/
theorem size_lt_of_mem {n c : Node} (h : c ∈ n.children) : c.size < n.size := by
  have := size_le_sizeAll h
  rw [size_eq n]; omega

/-- Whether the node stands for text that could not be parsed. -/
def isError (n : Node) : Bool := n.kind = "ERROR"

/-- Whether the node stands for something that is missing in the source. -/
def isMissing (n : Node) : Bool := "MISSING".toList.isPrefixOf n.kind.toList

/-- The text of the node, empty when it is not known. -/
def textOrEmpty (n : Node) : String := n.text.getD ""

/-- The first child that fills a field, or that fills none. -/
def childByField? (n : Node) (field : Option String) : Option Node :=
  n.children.find? (·.field = field)

/-- The first child of one of the kinds. -/
def firstChild? (n : Node) (kinds : List String) : Option Node :=
  n.children.find? (kinds.contains ·.kind)

mutual

/-- The nodes of a tree, each parent before its children, with their parents. -/
def preorder (parent : Option Node) : Node → List (Node × Option Node)
  | ⟨kind, children, text, span, field⟩ =>
    let self : Node := ⟨kind, children, text, span, field⟩
    (self, parent) :: preorderAll self children

/-- The nodes of the children of a node, with their parents. -/
def preorderAll (parent : Node) : List Node → List (Node × Option Node)
  | [] => []
  | n :: ns => preorder (some parent) n ++ preorderAll parent ns

end

/-- The nodes of a kind, in preorder. -/
def nodesOfKind (n : Node) (kind : String) : List Node :=
  ((n.preorder none).map (·.1)).filter (·.kind = kind)

/-- How many nodes of a tree are errors, and how many are missing. -/
def countDamage (n : Node) : Nat × Nat :=
  let nodes := (n.preorder none).map (·.1)
  (nodes.countP isError, nodes.countP isMissing)

mutual

/-- The innermost node at a position: where siblings touch, the first one counts. Children
of a node that does not contain the position are not looked at. -/
def atPosition? (p : Position) : Node → Option Node
  | ⟨kind, children, text, span, field⟩ =>
    match span with
    | none => none
    | some s =>
      if s.contains p then
        (firstAtPosition? p children).or (some ⟨kind, children, text, some s, field⟩)
      else none

/-- The innermost node at a position in the first of some trees that has one. -/
def firstAtPosition? (p : Position) : List Node → Option Node
  | [] => none
  | n :: ns => (atPosition? p n).or (firstAtPosition? p ns)

end

/-- How a node is shown. -/
def written (n : Node) : String :=
  if n.children.isEmpty then
    "SyntaxNode(" ++ quoted n.kind ++ ", text=" ++ n.text.elim "None" quoted ++ ")"
  else
    "SyntaxNode(" ++ quoted n.kind ++ ", <" ++ toString n.children.length ++ " children>)"

end Node

end Typeset
