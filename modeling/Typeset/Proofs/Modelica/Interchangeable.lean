import Typeset.Proofs.Modelica.Surroundings

/-!
# Trees that are printed alike

Two trees are interchangeable if one can be had from the other by putting a wrapper inside of
wrappers, and by associating the operands of operator chains in another way, at any number of
places. Seen from outside such trees are the same: they have the same label, and they are the same
to a rule that unwraps them or walks over the chain in them.

## Main definitions

* `Interchangeable` : the relation between trees.
* `SamePlace` : places with interchangeable nodes in the same surroundings.

## Main results

* `Interchangeable.core_or` : what is inside of wrappers is interchangeable as well.
* `Interchangeable.associates` : so are the operands of chains, with the same operators between
  them.
* `forall₂_children` : the children of nodes that cannot be told apart from below are in the same
  places.
-/

namespace Typeset.Modelica

open Rules

/-- Trees that are the same but for wrappers inside of wrappers and for the way in which the
operands of logical and arithmetic chains are associated. -/
inductive Interchangeable : Node → Node → Prop
  | node {n n' : Node} (hlabel : n.label = n'.label)
      (hchildren : List.Forall₂ Interchangeable n.children n'.children) : Interchangeable n n'
  | wrapped {n n' inner : Node} (hlabel : n.label = n'.label)
      (hkind : n.kind ∈ expressionWrappers) (hn' : n'.children = [inner])
      (hinner : inner.kind ∈ expressionWrappers) (hchildren : inner.children = n.children) :
      Interchangeable n n'
  | chain {n n' : Node} {k : Precedence} {xs : List Node} {ops : List String}
      (hlabel : n.label = n'.label) (hkind : n.kind = "binary_expression")
      (hk : (k.isLogical || k.isArithmetic) = true) (hops : ops ≠ [])
      (h : Associates k n xs ops) (h' : Associates k n' xs ops) : Interchangeable n n'

namespace Interchangeable

variable {n n' : Node}

theorem refl (n : Node) : Interchangeable n n := by
  induction n using Node.inductionOn with
  | mk kind children text span field ih => exact .node rfl (List.forall₂_same.mpr ih)

theorem refl_all (ns : List Node) : List.Forall₂ Interchangeable ns ns :=
  List.forall₂_same.mpr fun n _ => refl n

theorem label_eq (h : Interchangeable n n') : n.label = n'.label := by
  cases h <;> assumption

theorem kind_eq (h : Interchangeable n n') : n.kind = n'.kind :=
  (Node.label_eq_iff.mp h.label_eq).1

/-- Nodes with the same label and interchangeable children have the same outline. -/
theorem outline_eq (hlabel : n.label = n'.label)
    (hchildren : List.Forall₂ Interchangeable n.children n'.children) :
    n.outline = n'.outline := by
  refine Node.outline_eq hlabel ?_
  have hmap := hchildren.imp fun c c' (h : Interchangeable c c') => h.label_eq
  rw [← List.forall₂_eq_eq_eq, List.forall₂_map_left_iff, List.forall₂_map_right_iff]
  exact hmap

/-- Interchangeable trees have the same precedence class, and as many children unless they are
wrappers. -/
theorem precedence_eq (h : Interchangeable n n') :
    policy.precedence n = policy.precedence n' ∧
      (n.kind ∉ expressionWrappers → n.children.length = n'.children.length) := by
  cases h with
  | node hlabel hchildren =>
    exact ⟨Node.eq_of_outline precedence_outline (outline_eq hlabel hchildren),
      fun _ => hchildren.length_eq⟩
  | wrapped hlabel hkind =>
    rw [precedence_of_wrapper hkind,
      precedence_of_wrapper ((Node.label_eq_iff.mp hlabel).1 ▸ hkind)]
    exact ⟨rfl, fun hn => absurd hkind hn⟩
  | chain hlabel hkind hk hops h h' =>
    obtain ⟨hlength, hclass⟩ := h.of_binary hkind hops
    obtain ⟨hlength', hclass'⟩ := h'.of_binary ((Node.label_eq_iff.mp hlabel).1 ▸ hkind) hops
    rw [hclass, hclass', hlength, hlength']
    exact ⟨rfl, fun _ => rfl⟩

/-- Inside of wrappers interchangeable trees are interchangeable, unless they are empty wrappers
or wrappers of several nodes. -/
theorem core_or (h : Interchangeable n n') :
    Interchangeable (core n) (core n') ∨
      (core n).kind ∈ expressionWrappers ∧ (core n').kind ∈ expressionWrappers := by
  induction n using Node.inductionOn generalizing n' with
  | mk kind children text span field ih =>
    set n : Node := ⟨kind, children, text, span, field⟩
    have hkind' := h.kind_eq
    cases h with
    | node hlabel hchildren =>
      by_cases hwrapper : n.kind ∈ expressionWrappers ∧ n.children.length = 1
      · obtain ⟨c, hc⟩ := List.length_eq_one_iff.mp hwrapper.2
        rw [hc] at hchildren
        obtain ⟨c', cs', hcc', hnil, hc'⟩ := List.forall₂_cons_left_iff.mp hchildren
        obtain rfl := List.forall₂_nil_left_iff.mp hnil
        rw [core_of_wrapper hwrapper.1 hc, core_of_wrapper (hkind' ▸ hwrapper.1) hc']
        have hmem : c ∈ n.children := by simp [hc]
        exact ih c hmem hcc'
      · rw [core_eq_self fun hkind hlen => hwrapper ⟨hkind, hlen⟩,
          core_eq_self fun hk hlen => hwrapper ⟨hkind' ▸ hk, hchildren.length_eq.trans hlen⟩]
        exact .inl (.node hlabel hchildren)
    | @wrapped _ _ inner hlabel hkind hn' hinner hchildren =>
      rw [core_of_wrapper (hkind' ▸ hkind) hn']
      by_cases hlength : n.children.length = 1
      · obtain ⟨c, hc⟩ := List.length_eq_one_iff.mp hlength
        rw [core_of_wrapper hkind hc, core_of_wrapper hinner (hchildren.trans hc)]
        exact .inl (.refl _)
      · rw [core_eq_self fun _ => hlength, core_eq_self fun _ => hchildren ▸ hlength]
        exact .inr ⟨hkind, hinner⟩
    | chain hlabel hkind hk hops h h' =>
      rw [core_of_binary hkind, core_of_binary (hkind' ▸ hkind)]
      exact .inl (.chain hlabel hkind hk hops h h')

/-- A walk over a chain opens both of two interchangeable trees or none. -/
theorem opens_iff (h : Interchangeable n n') {k : Precedence} : Opens k n ↔ Opens k n' := by
  rw [Opens, Opens]
  rcases h.core_or with hcore | ⟨hn, hn'⟩
  · obtain ⟨hclass, hlength⟩ := hcore.precedence_eq
    rw [← hclass]
    refine and_congr_left fun hk => ?_
    rw [hlength fun hwrapper => ne_binary_of_wrapper hwrapper (kind_of_precedence hk)]
  · rw [precedence_of_wrapper hn, precedence_of_wrapper hn']
    simp

/-- The chains in interchangeable trees have the same operators and interchangeable operands. -/
theorem associates {k : Precedence} {xs : List Node} {ops : List String}
    (h : Interchangeable n n') (hn : Associates k n xs ops) :
    ∃ xs', Associates k n' xs' ops ∧ List.Forall₂ Interchangeable xs xs' := by
  induction hn generalizing n' with
  | operand hn => exact ⟨[n'], .operand (h.opens_iff.not.mp hn), .cons h .nil⟩
  | @binary n left right op xs ys ops ops' hkind hchildren hop hk hleft hright ihl ihr =>
    have hkind' := h.kind_eq ▸ hkind
    cases h with
    | node hlabel hcs =>
      have hop' : operatorOf n' = .ok op := by
        rw [← Node.eq_of_outline operatorOf_outline (outline_eq hlabel hcs), hop]
      rw [hchildren] at hcs
      obtain ⟨left', rest, hl, hrest, hcs'⟩ := List.forall₂_cons_left_iff.mp hcs
      obtain ⟨right', rest, hr, hnil, rfl⟩ := List.forall₂_cons_left_iff.mp hrest
      obtain rfl := List.forall₂_nil_left_iff.mp hnil
      obtain ⟨xs', hleft', hxs⟩ := ihl hl
      obtain ⟨ys', hright', hys⟩ := ihr hr
      exact ⟨xs' ++ ys', .binary hkind' hcs' hop' hk hleft' hright', List.rel_append hxs hys⟩
    | wrapped _ hwrapper => exact absurd hkind (ne_binary_of_wrapper hwrapper)
    | @chain _ _ k₂ zs ops₂ _ _ _ hops h h' =>
      -- a binary expression belongs to the chains of one class only
      obtain ⟨_, _, op₂, _, _, _, _, _, hop₂, hk₂, -⟩ := h.exists_children hkind hops
      obtain rfl : op = op₂ := by simpa [hop] using hop₂
      obtain rfl : k = k₂ := by simpa [hk] using hk₂
      obtain ⟨rfl, rfl⟩ := h.unique (.binary hkind hchildren hop hk hleft hright)
      exact ⟨_, h', refl_all _⟩
  | @wrapped n inner xs ops hkind hchildren hinner hops ih =>
    have hkind' := h.kind_eq ▸ hkind
    cases h with
    | node hlabel hcs =>
      rw [hchildren] at hcs
      obtain ⟨inner', rest, hi, hrest, hcs'⟩ := List.forall₂_cons_left_iff.mp hcs
      obtain rfl := List.forall₂_nil_left_iff.mp hrest
      obtain ⟨xs', hinner', hxs⟩ := ih hi
      exact ⟨xs', .wrapped hkind' hcs' hinner' hops, hxs⟩
    | wrapped _ _ hn' hkind₂ hchildren₂ =>
      exact ⟨xs, .wrapped hkind' hn' (.wrapped hkind₂ (hchildren₂.trans hchildren) hinner hops)
        hops, refl_all xs⟩
    | chain _ hbinary => exact absurd hbinary (ne_binary_of_wrapper hkind)

end Interchangeable

/-! ### Places -/

/-- Places with interchangeable nodes in the same surroundings. -/
structure SamePlace (p p' : Path) : Prop where
  node : Interchangeable p.node p'.node
  above : SameSurroundings p.above p'.above

section Places

variable {p p' : Path}

theorem SamePlace.textOrEmpty_eq (h : SamePlace p p') :
    p.node.textOrEmpty = p'.node.textOrEmpty :=
  congrArg (Option.getD · "") (Node.label_eq_iff.mp h.node.label_eq).2.1

theorem SamePlace.field_eq (h : SamePlace p p') : p.node.field = p'.node.field :=
  (Node.label_eq_iff.mp h.node.label_eq).2.2.2

theorem SamePlace.isExpression_eq (h : SamePlace p p') :
    isExpression p.node = isExpression p'.node := by
  rw [isExpression, isExpression, h.node.kind_eq]

theorem SamePlace.isContinuation_eq (h : SamePlace p p') :
    policy.isContinuation p = policy.isContinuation p' :=
  h.above.decideAbove_eq h.node.precedence_eq.1

/-- Operands in the same place can both hug their operators or cannot. -/
theorem SamePlace.isHuggable_eq (h : SamePlace p p') : isHuggable p = isHuggable p' := by
  rw [isHuggable, isHuggable, node_unwrap, node_unwrap]
  rcases h.node.core_or with hcore | ⟨hn, hn'⟩
  · rw [hcore.kind_eq]
  · have hwrapper {kind : String} (h : kind ∈ expressionWrappers) :
        huggableKinds.contains kind = false := by
      simp only [expressionWrappers, List.mem_cons, List.not_mem_nil, or_false] at h
      rcases h with rfl | rfl | rfl <;> rfl
    rw [hwrapper hn, hwrapper hn']

/-- Interchangeable children are in the same places, if their parents cannot be told apart from
below. -/
theorem forall₂_children
    (hchildren : List.Forall₂ Interchangeable p.node.children p'.node.children)
    (hturn : ∀ i, SameSurroundings (⟨p.node, i⟩ :: p.above) (⟨p'.node, i⟩ :: p'.above)) :
    List.Forall₂ (fun q q' => SamePlace q.1 q'.1) p.children p'.children := by
  refine List.forall₂_iff_get.mpr ⟨?_, fun i h h' => ?_⟩
  · simpa [Path.children] using hchildren.length_eq
  · simp only [Path.children, List.get_eq_getElem, List.getElem_mapIdx, List.getElem_attach]
    exact ⟨hchildren.get _ _, hturn i⟩

end Places

end Typeset.Modelica
