import Typeset.Tree.Node

/-!
# Nodes at a position

In a tree whose spans are nested and whose siblings are in order, a position outside of the root is
in no node, and for any other position a node is found that contains it. The search goes down into
the first child that contains the position and never comes back. Spans include both of their ends,
so two siblings that touch both contain the position between them: the search takes the one that
ends there, and never sees what lies inside of the one that starts there. All other nodes at the
position lie above the node that is found. So it is the deepest one wherever no two siblings touch,
and where two do, a deeper one can be missed.

## Main definitions

* `Node.below?` : the node at an address, the indices of the children on the way down to it.
* `Node.Nested` : spans lie in those of their parents, and siblings are in order.
* `Node.TouchAt`, `Node.PartWhereTouching` : siblings that touch at a position, and addresses that part
  at such siblings.

## Main results

* `Node.exists_address_of_atPosition?` : where the node that is found stands among all nodes at
  the position.
* `Node.atPosition?_above_or_touching` : what is found at a position.
-/

namespace Typeset

namespace Node

/-- Whether the node has a span that contains the position. -/
def isAt (n : Node) (p : Position) : Bool := n.span.any (·.contains p)

/-- The node at an address: the indices of the children on the way down. -/
def below? (n : Node) : List Nat → Option Node
  | [] => some n
  | i :: is => n.children[i]?.bind (·.below? is)

/-- Every node has a span, the spans of children lie in those of their parents, and a child ends
no later than the ones behind it start. -/
inductive Nested : Node → Prop
  | mk {n : Node} {s : Span} (hspan : n.span = some s)
      (hwithin : ∀ c ∈ n.children, ∃ t, c.span = some t ∧ s.start ≤ t.start ∧ t.stop ≤ s.stop)
      (horder : n.children.Pairwise fun a b =>
        ∀ s t, a.span = some s → b.span = some t → s.stop ≤ t.start)
      (hchildren : ∀ c ∈ n.children, Nested c) : Nested n

/-- The child at index `i` ends at the position and the later child at index `j` starts there. -/
def TouchAt (n : Node) (p : Position) (i j : Nat) : Prop :=
  i < j ∧ ∃ a b s t, n.children[i]? = some a ∧ a.span = some s ∧ s.stop = p ∧
    n.children[j]? = some b ∧ b.span = some t ∧ t.start = p

/-- Two addresses part at children that touch at the position, the second one to the right. -/
def PartWhereTouching (root : Node) (p : Position) (u v : List Nat) : Prop :=
  ∃ w n i j x y, root.below? w = some n ∧ n.TouchAt p i j ∧ u = w ++ i :: x ∧ v = w ++ j :: y

variable {n m : Node} {p : Position}

theorem isAt_iff {n : Node} : n.isAt p = true ↔ ∃ s, n.span = some s ∧ s.start ≤ p ∧ p ≤ s.stop := by
  cases h : n.span <;> simp [isAt, h, Span.contains]

/-! ### The search -/

theorem firstAtPosition?_eq_findSome? (p : Position) (ns : List Node) :
    firstAtPosition? p ns = ns.findSome? (atPosition? p) := by
  induction ns with
  | nil => rfl
  | cons n ns ih =>
    rw [firstAtPosition?, List.findSome?_cons, ih]
    cases atPosition? p n <;> rfl

/-- A node that contains the position is found itself unless one of its children is searched with
success. -/
theorem atPosition?_eq (p : Position) (n : Node) :
    atPosition? p n =
      if n.isAt p then (n.children.findSome? (atPosition? p)).or (some n) else none := by
  obtain ⟨kind, children, text, span, field⟩ := n
  rw [atPosition?.eq_def, ← firstAtPosition?_eq_findSome?]
  cases span <;> rfl

/-- Nothing is found exactly where the node does not contain the position. -/
theorem atPosition?_eq_none_iff : n.atPosition? p = none ↔ n.isAt p = false := by
  rw [atPosition?_eq]
  cases n.isAt p <;> simp

/-! ### Nested spans -/

/-- A node that has a node at the position below it is at the position. -/
theorem Nested.isAt_of_below? (h : n.Nested) {v : List Nat} (hv : n.below? v = some m)
    (hm : m.isAt p = true) : n.isAt p = true := by
  induction v generalizing n with
  | nil =>
    obtain rfl : n = m := Option.some.inj hv
    exact hm
  | cons i v ih =>
    obtain ⟨hspan, hwithin, -, hchildren⟩ := h
    obtain ⟨c, hc, hv⟩ := Option.bind_eq_some_iff.mp hv
    have hmem := List.mem_of_getElem? hc
    obtain ⟨t, ht, hstart, hstop⟩ := hwithin c hmem
    obtain ⟨t', ht', hle, hle'⟩ := isAt_iff.mp (ih (hchildren c hmem) hv)
    obtain rfl : t = t' := Option.some.inj (ht.symm.trans ht')
    exact isAt_iff.mpr ⟨_, hspan, Position.le_trans hstart hle, Position.le_trans hle' hstop⟩

/-- Two children at one position touch there. -/
theorem touchAt_of_isAt {a b : Node} {i j : Nat}
    (horder : n.children.Pairwise fun a b =>
      ∀ s t, a.span = some s → b.span = some t → s.stop ≤ t.start)
    (hij : i < j) (ha : n.children[i]? = some a) (hb : n.children[j]? = some b)
    (hpa : a.isAt p = true) (hpb : b.isAt p = true) : n.TouchAt p i j := by
  obtain ⟨s, hs, -, hstop⟩ := isAt_iff.mp hpa
  obtain ⟨t, ht, hstart, -⟩ := isAt_iff.mp hpb
  obtain ⟨hi, rfl⟩ := List.getElem?_eq_some_iff.mp ha
  obtain ⟨hj, rfl⟩ := List.getElem?_eq_some_iff.mp hb
  have hle := List.pairwise_iff_getElem.mp horder i j hi hj hij s t hs ht
  exact ⟨hij, _, _, s, t, ha, hs, Position.le_antisymm (Position.le_trans hle hstart) hstop,
    hb, ht, Position.le_antisymm hstart (Position.le_trans hstop hle)⟩

theorem PartWhereTouching.cons {c : Node} {i : Nat} {u v : List Nat} (hc : n.children[i]? = some c)
    (h : PartWhereTouching c p u v) : PartWhereTouching n p (i :: u) (i :: v) := by
  obtain ⟨w, n', k, l, x, y, hw, htouch, rfl, rfl⟩ := h
  refine ⟨i :: w, n', k, l, x, y, ?_, htouch, rfl, rfl⟩
  rw [below?, hc]
  exact hw

/-- The node that is found has an address, and every node at the position lies above it or behind a
sibling that touches the way down to it. -/
theorem exists_address_of_atPosition? (h : n.Nested) (hm : n.atPosition? p = some m) :
    ∃ u, n.below? u = some m ∧ m.isAt p = true ∧
      ∀ v m', n.below? v = some m' → m'.isAt p = true →
        v <+: u ∨ PartWhereTouching n p u v := by
  induction h generalizing m with
  | @mk n s hspan hwithin horder hchildren ih =>
    have hn : n.isAt p = true := by
      rw [← Bool.not_eq_false, ← atPosition?_eq_none_iff, hm]
      exact Option.some_ne_none m
    have hchild {i : Nat} {v : List Nat} {c m' : Node} (hc : n.children[i]? = some c)
        (hv : c.below? v = some m') (hm' : m'.isAt p = true) : c.isAt p = true :=
      (hchildren c (List.mem_of_getElem? hc)).isAt_of_below? hv hm'
    rw [atPosition?_eq, if_pos hn] at hm
    cases hfound : n.children.findSome? (atPosition? p) with
    | none =>
      rw [hfound, Option.none_or] at hm
      obtain rfl : n = m := Option.some.inj hm
      refine ⟨[], rfl, hn, fun v m' hv hm' => ?_⟩
      cases v with
      | nil => exact .inl List.prefix_rfl
      | cons i v =>
        obtain ⟨c, hc, hv⟩ := Option.bind_eq_some_iff.mp hv
        have hnone := List.findSome?_eq_none_iff.mp hfound c (List.mem_of_getElem? hc)
        rw [atPosition?_eq_none_iff, hchild hc hv hm'] at hnone
        cases hnone
    | some found =>
      rw [hfound, Option.some_or] at hm
      obtain rfl : found = m := Option.some.inj hm
      obtain ⟨before, c, after, hsplit, hc, hbefore⟩ := List.findSome?_eq_some_iff.mp hfound
      have hget : n.children[before.length]? = some c := by rw [hsplit]; simp
      have hmem : c ∈ n.children := List.mem_of_getElem? hget
      obtain ⟨u, hu, hfound, hall⟩ := ih c hmem hc
      refine ⟨before.length :: u, by rw [below?, hget]; exact hu, hfound, fun v m' hv hm' => ?_⟩
      cases v with
      | nil => exact .inl List.nil_prefix
      | cons j v =>
        obtain ⟨b, hb, hv⟩ := Option.bind_eq_some_iff.mp hv
        have hpb := hchild hb hv hm'
        -- the way to the node goes down to the left of the child, through it, or to its right
        rcases Nat.lt_trichotomy j before.length with hj | rfl | hj
        · have hbmem : b ∈ before := by
            rw [hsplit, List.getElem?_append_left hj] at hb
            exact List.mem_of_getElem? hb
          have hnone := hbefore b hbmem
          rw [atPosition?_eq_none_iff, hpb] at hnone
          cases hnone
        · obtain rfl : c = b := Option.some.inj (hget.symm.trans hb)
          rcases hall v m' hv hm' with hprefix | hpart
          · exact .inl (List.cons_prefix_cons.mpr ⟨rfl, hprefix⟩)
          · exact .inr (hpart.cons hget)
        · exact .inr ⟨[], n, before.length, j, u, v, rfl,
            touchAt_of_isAt horder hj hget hb (hchild hget hu hfound) hpb, rfl, rfl⟩

/-! ### What is found -/

/-- **The node found at a position is above no other one, unless siblings touch.** In a tree with
nested spans, nothing is found exactly where the root does not contain the position. Otherwise a
node is found that contains it, and every node of the tree that contains it lies above the one that
is found, or parts from it to the right at two siblings that touch at the position. So no node at
the position is deeper where no two siblings touch. -/
theorem atPosition?_above_or_touching {root : Node} (h : root.Nested) (p : Position) :
    (root.atPosition? p = none ↔ root.isAt p = false) ∧
    ∀ m, root.atPosition? p = some m → ∃ u, root.below? u = some m ∧ m.isAt p = true ∧
      (∀ v m', root.below? v = some m' → m'.isAt p = true →
        v <+: u ∨ PartWhereTouching root p u v) ∧
      ((∀ w n i j, root.below? w = some n → ¬ n.TouchAt p i j) →
        ∀ v m', root.below? v = some m' → m'.isAt p = true → v.length ≤ u.length) := by
  refine ⟨atPosition?_eq_none_iff, fun m hm => ?_⟩
  obtain ⟨u, hu, hfound, hall⟩ := exists_address_of_atPosition? h hm
  refine ⟨u, hu, hfound, hall, fun hnone v m' hv hm' => ?_⟩
  rcases hall v m' hv hm' with hprefix | ⟨w, n, i, j, x, y, hw, htouch, -⟩
  · exact hprefix.length_le
  · exact absurd htouch (hnone w n i j hw)

/-- A declaration of a name with a string right behind it: the name ends where the description
starts, and the string starts there too. -/
def touchingDeclaration : Node :=
  { kind := "component_declaration", text := some "x\"unit\"", span := some ⟨⟨0, 0⟩, ⟨0, 7⟩⟩,
    children :=
      [{ kind := "IDENT", text := some "x", span := some ⟨⟨0, 0⟩, ⟨0, 1⟩⟩ },
       { kind := "description_string", text := some "\"unit\"", span := some ⟨⟨0, 1⟩, ⟨0, 7⟩⟩,
         children :=
           [{ kind := "STRING", text := some "\"unit\"", span := some ⟨⟨0, 1⟩, ⟨0, 7⟩⟩ }] }] }

theorem nested_leaf {kind : String} {text field : Option String} {s : Span} :
    Nested ⟨kind, [], text, some s, field⟩ :=
  .mk rfl (List.forall_mem_nil _) .nil (List.forall_mem_nil _)

theorem nested_touchingDeclaration : touchingDeclaration.Nested := by
  have hdescription : Nested
      { kind := "description_string", text := some "\"unit\"", span := some ⟨⟨0, 1⟩, ⟨0, 7⟩⟩,
        children :=
          [{ kind := "STRING", text := some "\"unit\"", span := some ⟨⟨0, 1⟩, ⟨0, 7⟩⟩ }] } := by
    refine .mk rfl ?_ (List.pairwise_singleton _ _) ?_
    · exact List.forall_mem_singleton.mpr ⟨_, rfl, by decide, by decide⟩
    · exact List.forall_mem_singleton.mpr nested_leaf
  refine .mk rfl ?_ (List.pairwise_pair.mpr ?_) ?_
  · refine List.forall_mem_cons.mpr ⟨⟨_, rfl, by decide, by decide⟩, ?_⟩
    exact List.forall_mem_singleton.mpr ⟨_, rfl, by decide, by decide⟩
  · rintro _ _ ⟨⟩ ⟨⟩
    decide
  · exact List.forall_mem_cons.mpr ⟨nested_leaf, List.forall_mem_singleton.mpr hdescription⟩

/-- Where the name ends, it is found, and all else lies above it or behind it. -/
theorem atPosition?_above_or_touching_name :
    ∃ m u, touchingDeclaration.atPosition? ⟨0, 1⟩ = some m ∧ m.kind = "IDENT" ∧
      touchingDeclaration.below? u = some m ∧
      ∀ v m', touchingDeclaration.below? v = some m' → m'.isAt ⟨0, 1⟩ = true →
        v <+: u ∨ PartWhereTouching touchingDeclaration ⟨0, 1⟩ u v := by
  obtain ⟨-, hfound⟩ := atPosition?_above_or_touching nested_touchingDeclaration ⟨0, 1⟩
  obtain ⟨u, hu, -, hall, -⟩ := hfound _ rfl
  exact ⟨_, u, rfl, rfl, hu, hall⟩

/-- Where the name ends the string is deeper, and it is not found. -/
theorem atPosition?_misses_deeper :
    touchingDeclaration.Nested ∧ touchingDeclaration.isAt ⟨0, 1⟩ = true ∧
      ¬ ∃ m u, touchingDeclaration.atPosition? ⟨0, 1⟩ = some m ∧
        touchingDeclaration.below? u = some m ∧
        ∀ v m', touchingDeclaration.below? v = some m' → m'.isAt ⟨0, 1⟩ = true →
          v.length ≤ u.length := by
  refine ⟨nested_touchingDeclaration, by decide, ?_⟩
  rintro ⟨m, u, hm, hu, hall⟩
  have hdeep : 2 ≤ u.length := hall [1, 0] _ rfl (by decide)
  have hkind : m.kind = "IDENT" := by
    cases hm
    rfl
  -- the only node below a child is the string
  match u, hdeep with
  | 0 :: _ :: _, _ => cases hu
  | 1 :: 0 :: [], _ =>
    cases hu
    exact absurd hkind (by decide)
  | 1 :: 0 :: _ :: _, _ => cases hu
  | 1 :: (_ + 1) :: _, _ => cases hu
  | (_ + 2) :: _ :: _, _ => cases hu

end Node

end Typeset
