import Typeset.Tree.Node

/-!
# Paths in a syntax tree

A path is a node together with the nodes above it up to the root, each with the index of the
child through which the path goes down. An index may count from the end; it is kept as given.

## Main definitions

* `Path` : a node and what is above it.
* `Path.child?`, `Path.children` : one step down.
* `Path.parent?`, `Path.anyAbove` : the way up.
* `Below` : a path whose node is smaller, such as a child.
-/

namespace Typeset

open Text

/-- A node above another one, with the index of the child through which a path goes down. -/
structure Turn where
  /-- The node. -/
  node : Node
  /-- The index of the child. -/
  index : Int

/-- A node of a tree and the nodes above it, the parent first. -/
structure Path where
  /-- The node. -/
  node : Node
  /-- The nodes above it. -/
  above : List Turn := []

/-- A path whose node is smaller than that of `p`. -/
abbrev Below (p : Path) := { q : Path // q.node.size < p.node.size }

namespace Path

/-- The path of a root. -/
def root (n : Node) : Path := ⟨n, []⟩

/-- The path one step down to a node, under the given index. -/
def down (p : Path) (child : Node) (index : Int) : Path := ⟨child, ⟨p.node, index⟩ :: p.above⟩

@[simp]
theorem node_down (p : Path) (c : Node) (i : Int) : (p.down c i).node = c := rfl

/-- The path to the child at an index. -/
def child? (p : Path) (index : Int) : Option Path :=
  (element? p.node.children index).map (p.down · index)

/-- The path reached by steps down. -/
def descend? (p : Path) : List Int → Option Path
  | [] => some p
  | i :: is => (p.child? i).bind (descend? · is)

/-- The paths of the children. -/
def children (p : Path) : List (Below p) :=
  p.node.children.attach.mapIdx fun i c => ⟨p.down c.1 i, Node.size_lt_of_mem c.2⟩

/-- The places of the children, each with its index. -/
theorem map_val_children (p : Path) :
    p.children.map (·.1) = p.node.children.mapIdx fun i c => p.down c i := by
  refine List.ext_getElem (by simp [children]) fun i _ _ => ?_
  simp [children]

theorem map_node_children (p : Path) :
    p.children.map (fun q => q.1.node) = p.node.children := by
  refine List.ext_getElem (by simp [children]) fun i _ _ => ?_
  simp [children]

/-- The place of an only child. -/
theorem children_of_one {p : Path} {c : Node} (h : p.node.children = [c]) :
    p.children = [⟨p.down c 0, Node.size_lt_of_mem (by simp [h])⟩] := by
  obtain ⟨⟨kind, children, text, span, field⟩, above⟩ := p
  cases h
  rfl

theorem node_mem_of_mem_children {p : Path} {q : Below p} (h : q ∈ p.children) :
    q.1.node ∈ p.node.children := by
  rw [← p.map_node_children]
  exact List.mem_map_of_mem h

theorem exists_of_mem_children {p : Path} {q : Below p} (h : q ∈ p.children) :
    ∃ c ∈ p.node.children, ∃ i, q.1 = p.down c i := by
  rw [children, List.mem_mapIdx] at h
  obtain ⟨i, hi, rfl⟩ := h
  exact ⟨_, (p.node.children.attach[i]).2, i, rfl⟩

/-- The path of the parent. -/
def parent? (p : Path) : Option Path :=
  match p.above with
  | [] => none
  | turn :: above => some ⟨turn.node, above⟩

/-- The index of the node among the children of its parent. -/
def index? (p : Path) : Option Int := p.above.head?.map (·.index)

/-- The number of nodes above. -/
def depth (p : Path) : Nat := p.above.length

/-- Whether a node above satisfies a condition. -/
def anyAbove (p : Path) (cond : Node → Bool) : Bool := p.above.any (cond ·.node)

/-- How a path is shown. -/
def written (p : Path) : String :=
  "TreePath(" ++
    String.intercalate " > " ((p.node.kind :: p.above.map (·.node.kind)).reverse) ++ ")"

end Path

end Typeset
