import Mathlib.Data.List.Forall2
import Typeset.Proofs.Modelica.ChainWalk

/-!
# How a chain associates its operands

Operands `a`, `b`, `c` with operators of one precedence class between them can stand in a tree
as `(a op b) op c` or as `a op (b op c)`, with or without wrappers around the inner expression.
A tree with such a shape is related here to its operands and operators in source order, and the
walk over an operator chain is shown to collect just these: what it collects does not depend on
the shape, and neither does anything above an operand that is not part of the chain.

## Main definitions

* `core` : the node inside of wrappers.
* `Opens` : nodes that a walk over a chain opens.
* `Associates` : a tree with the operands and operators of its chain.
* `IsPassage` : the nodes between a chain and its operands.

## Main results

* `exists_associates`, `Associates.unique` : every tree has one list of operands and one list of
  operators.
* `Associates.exists_flattenChain` : the walk over a chain collects them.
-/

namespace Typeset.Modelica

/-! ### Inside of wrappers -/

/-- What is inside of wrappers does not depend on what is above them. -/
theorem node_unwrap_eq {p q : Path} (h : p.node = q.node) :
    (policy.unwrap p).node = (policy.unwrap q).node := by
  fun_induction policy.unwrap p generalizing q with
  | case1 p c hc hk ih =>
    rw [Policy.unwrap.eq_def policy q]
    split
    · next c' hc' =>
      obtain rfl : c = c' := by simpa [← h, hc] using hc'
      rw [if_pos (h ▸ hk)]
      exact ih rfl
    · next hother => exact absurd (h ▸ hc) (hother c)
  | case2 p c hc hk =>
    rw [Policy.unwrap.eq_def policy q]
    split
    · rw [if_neg (h ▸ hk), h]
    · exact h
  | case3 p hother =>
    rw [Policy.unwrap.eq_def policy q]
    split
    · next c hc => exact absurd (h ▸ hc) (hother c)
    · exact h

/-- The node inside of wrappers with a single child. -/
def core (n : Node) : Node := (policy.unwrap (.root n)).node

theorem node_unwrap (p : Path) : (policy.unwrap p).node = core p.node := node_unwrap_eq rfl

theorem unwrap_of_wrapper {p : Path} {c : Node} (hkind : p.node.kind ∈ expressionWrappers)
    (hc : p.node.children = [c]) : policy.unwrap p = policy.unwrap (p.down c 0) := by
  rw [Policy.unwrap.eq_def policy p]
  split
  · next c' hc' =>
    obtain rfl : c = c' := by simpa [hc] using hc'
    exact if_pos (List.contains_iff_mem.mpr hkind)
  · next hother => exact absurd hc (hother c)

theorem core_of_wrapper {n c : Node} (hkind : n.kind ∈ expressionWrappers)
    (hc : n.children = [c]) : core n = core c := by
  rw [core, unwrap_of_wrapper hkind hc, node_unwrap, Path.node_down]

/-- A node that is no wrapper, or a wrapper of no node or of several, is not unwrapped. -/
theorem core_eq_self {n : Node}
    (h : n.kind ∈ expressionWrappers → n.children.length ≠ 1) : core n = n := by
  rw [core, Policy.unwrap.eq_def]
  split
  · next c hc =>
    have hc : n.children = [c] := hc
    rw [if_neg]
    · rfl
    · exact fun hk => h (List.contains_iff_mem.mp hk) (by rw [hc]; rfl)
  · rfl

/-- The kinds of wrappers are not those of binary expressions. -/
theorem ne_binary_of_wrapper {kind : String} (h : kind ∈ expressionWrappers) :
    kind ≠ "binary_expression" := by
  rintro rfl
  exact absurd h (by decide)

theorem core_of_binary {n : Node} (h : n.kind = "binary_expression") : core n = n :=
  core_eq_self fun hwrapper => absurd h (ne_binary_of_wrapper hwrapper)

/-! ### Operands and operators -/

theorem precedence_of_wrapper {n : Node} (h : n.kind ∈ expressionWrappers) :
    policy.precedence n = .ok none := by
  rw [Policy.precedence, if_neg]
  · rfl
  · simpa [policy] using ne_binary_of_wrapper h

/-- A binary expression of class `k` with two operands, inside of wrappers if there are any. -/
def Opens (k : Precedence) (n : Node) : Prop :=
  (core n).children.length = 2 ∧ policy.precedence (core n) = .ok (some k)

/-- A tree with the operands and operators of the chain of class `k` in it, in source order. The
binary expressions of the chain may have wrappers around them; an operand is not opened. -/
inductive Associates (k : Precedence) : Node → List Node → List String → Prop
  | operand {n : Node} (h : ¬ Opens k n) : Associates k n [n] []
  | binary {n left right : Node} {op : String} {xs ys : List Node} {ops ops' : List String}
      (hkind : n.kind = "binary_expression") (hchildren : n.children = [left, right])
      (hop : operatorOf n = .ok op) (hk : Precedence.ofOperator? op = some k)
      (hleft : Associates k left xs ops) (hright : Associates k right ys ops') :
      Associates k n (xs ++ ys) (ops ++ op :: ops')
  | wrapped {n inner : Node} {xs : List Node} {ops : List String}
      (hkind : n.kind ∈ expressionWrappers) (hchildren : n.children = [inner])
      (h : Associates k inner xs ops) (hops : ops ≠ []) : Associates k n xs ops

section Associates

variable {k : Precedence} {n : Node} {xs : List Node} {ops : List String}

theorem opens_of_binary {left right : Node} {op : String} (hkind : n.kind = "binary_expression")
    (hchildren : n.children = [left, right]) (hop : operatorOf n = .ok op)
    (hk : Precedence.ofOperator? op = some k) : Opens k n := by
  rw [Opens, core_of_binary hkind, precedence_of_operator hkind hop, hk, hchildren]
  exact ⟨rfl, rfl⟩

theorem opens_of_wrapper {c : Node} (hkind : n.kind ∈ expressionWrappers)
    (hc : n.children = [c]) : Opens k n ↔ Opens k c := by
  rw [Opens, Opens, core_of_wrapper hkind hc]

/-- A tree with operators is opened. -/
theorem Associates.opens (h : Associates k n xs ops) (hops : ops ≠ []) : Opens k n := by
  induction h with
  | operand => exact absurd rfl hops
  | binary hkind hchildren hop hk _ _ _ _ => exact opens_of_binary hkind hchildren hop hk
  | wrapped hkind hchildren _ hops ih => exact (opens_of_wrapper hkind hchildren).mpr (ih hops)

/-- A tree without operators is its own operand. -/
theorem Associates.of_nil (h : Associates k n xs []) : xs = [n] ∧ ¬ Opens k n := by
  generalize hops : ([] : List String) = ops at h
  cases h with
  | operand hn => exact ⟨rfl, hn⟩
  | binary => simp at hops
  | wrapped _ _ _ hne => exact absurd hops.symm hne

/-- A binary expression with operators is itself opened. -/
theorem Associates.of_binary (h : Associates k n xs ops) (hkind : n.kind = "binary_expression")
    (hops : ops ≠ []) : n.children.length = 2 ∧ policy.precedence n = .ok (some k) := by
  have hopens := h.opens hops
  rwa [Opens, core_of_binary hkind] at hopens

/-- A chain at a binary expression consists of those of its operands and its own operator. -/
theorem Associates.exists_children (h : Associates k n xs ops)
    (hkind : n.kind = "binary_expression") (hops : ops ≠ []) :
    ∃ left right op ls rs lops rops, n.children = [left, right] ∧ operatorOf n = .ok op ∧
      Precedence.ofOperator? op = some k ∧ Associates k left ls lops ∧
      Associates k right rs rops ∧ xs = ls ++ rs ∧ ops = lops ++ op :: rops := by
  cases h with
  | operand => exact absurd rfl hops
  | binary _ hchildren hop hk hleft hright =>
    exact ⟨_, _, _, _, _, _, _, hchildren, hop, hk, hleft, hright, rfl, rfl⟩
  | wrapped hwrapper => exact absurd hkind (ne_binary_of_wrapper hwrapper)

/-- The operands and operators of a tree are determined by the tree. -/
theorem Associates.unique {ys : List Node} {ops' : List String} (h : Associates k n xs ops)
    (h' : Associates k n ys ops') : xs = ys ∧ ops = ops' := by
  induction h generalizing ys ops' with
  | operand hn =>
    rcases eq_or_ne ops' [] with rfl | hops'
    · exact ⟨h'.of_nil.1.symm, rfl⟩
    · exact absurd (h'.opens hops') hn
  | @binary n left right op xs₁ xs₂ ops₁ ops₂ hkind hchildren hop hk _ _ ihl ihr =>
    have hopens : Opens k n := opens_of_binary hkind hchildren hop hk
    cases h' with
    | operand hn => exact absurd hopens hn
    | binary _ hchildren' hop' _ hleft' hright' =>
      obtain ⟨rfl, rfl⟩ : left = _ ∧ right = _ := by simpa [hchildren] using hchildren'
      obtain rfl : op = _ := by simpa [hop] using hop'
      obtain ⟨rfl, rfl⟩ := ihl hleft'
      obtain ⟨rfl, rfl⟩ := ihr hright'
      exact ⟨rfl, rfl⟩
    | wrapped hwrapper => exact absurd hkind (ne_binary_of_wrapper hwrapper)
  | @wrapped n inner xs ops hkind hchildren hinner hops ih =>
    cases h' with
    | operand hn =>
      exact absurd ((opens_of_wrapper hkind hchildren).mpr (hinner.opens hops)) hn
    | binary hbinary => exact absurd hbinary (ne_binary_of_wrapper hkind)
    | wrapped _ hchildren' hinner' _ =>
      obtain rfl : inner = _ := by simpa [hchildren] using hchildren'
      exact ih hinner'

/-- Every tree has operands and operators. -/
theorem exists_associates (k : Precedence) (n : Node) : ∃ xs ops, Associates k n xs ops := by
  induction n using Node.inductionOn with
  | mk kind children text span field ih =>
    set n : Node := ⟨kind, children, text, span, field⟩ with hn
    by_cases hopens : Opens k n
    · by_cases hwrapper : n.kind ∈ expressionWrappers ∧ n.children.length = 1
      · obtain ⟨c, hc⟩ := List.length_eq_one_iff.mp hwrapper.2
        have hc' : children = [c] := hc
        obtain ⟨xs, ops, h⟩ := ih c (by simp [hc'])
        refine ⟨xs, ops, .wrapped hwrapper.1 hc h ?_⟩
        rintro rfl
        exact h.of_nil.2 ((opens_of_wrapper hwrapper.1 hc).mp hopens)
      · rw [Opens, core_eq_self fun hkind hlen => hwrapper ⟨hkind, hlen⟩] at hopens
        obtain ⟨left, right, hchildren⟩ := List.length_eq_two.mp hopens.1
        have hchildren' : children = [left, right] := hchildren
        have hkind := kind_of_precedence hopens.2
        have hop := operatorOf_eq_ok hchildren
        have hk := hopens.2
        rw [precedence_of_operator hkind hop] at hk
        obtain ⟨xs, ops, hleft⟩ := ih left (by simp [hchildren'])
        obtain ⟨ys, ops', hright⟩ := ih right (by simp [hchildren'])
        exact ⟨_, _, .binary hkind hchildren hop (Except.ok.inj hk) hleft hright⟩
    · exact ⟨[n], [], .operand hopens⟩

end Associates

/-! ### The walk over a chain -/

section Walk

variable {p : Path} {k : Precedence} {q : Below p}

/-- A place that is not opened is an operand. -/
theorem flattenFrom_operand (h : ¬ Opens k q.1.node) (rest : List (ChainEntry p)) :
    policy.flattenFrom operatorOf k (.place q :: rest) =
      (policy.flattenFrom operatorOf k rest).map fun r => (q :: r.1, r.2) := by
  rw [Policy.flattenFrom]
  split
  · next left right hchildren =>
    obtain ⟨k', hk'⟩ := exists_precedence_of_two hchildren
    have hne : k' ≠ some k := by
      rintro rfl
      rw [Opens, ← node_unwrap, hchildren] at h
      exact h ⟨rfl, hk'⟩
    rw [hk']
    show (if k' = some k then _ else _) = _
    rw [if_neg hne]
    cases policy.flattenFrom operatorOf k rest <;> rfl
  · cases policy.flattenFrom operatorOf k rest <;> rfl

/-- A binary expression of the class is opened, inside of wrappers if there are any. -/
theorem flattenFrom_opened {inner : Path} {left right : Node} {op : String}
    (hinner : policy.unwrap q.1 = inner) (hsize : inner.node.size ≤ p.node.size)
    (hchildren : inner.node.children = [left, right])
    (hk : policy.precedence inner.node = .ok (some k)) (hop : operatorOf inner.node = .ok op)
    (rest : List (ChainEntry p)) :
    policy.flattenFrom operatorOf k (.place q :: rest) =
      policy.flattenFrom operatorOf k
        (Policy.opened inner hsize left right hchildren op ++ rest) := by
  subst hinner
  rw [Policy.flattenFrom]
  split
  · next left' right' hchildren' =>
    obtain ⟨rfl, rfl⟩ : left = left' ∧ right = right' := by simpa [hchildren] using hchildren'
    rw [hk]
    show (if some k = some k then operatorOf (policy.unwrap q.1).node >>= _ else _) = _
    rw [if_pos rfl, hop]
    rfl
  · next hother => exact absurd hchildren (hother left right)

/-- The walk passes by the wrapper of an expression that it opens. -/
theorem flattenFrom_wrapper {c : Node} (hkind : q.1.node.kind ∈ expressionWrappers)
    (hc : q.1.node.children = [c]) (hsize : c.size < p.node.size) (hopens : Opens k c)
    (rest : List (ChainEntry p)) :
    policy.flattenFrom operatorOf k (.place q :: rest) =
      policy.flattenFrom operatorOf k (.place ⟨q.1.down c 0, hsize⟩ :: rest) := by
  have hunwrap := unwrap_of_wrapper hkind hc
  obtain ⟨hlength, hk⟩ := hopens
  rw [← Path.node_down q.1 c 0, ← node_unwrap] at hlength hk
  obtain ⟨left, right, hchildren⟩ := List.length_eq_two.mp hlength
  have hop := operatorOf_eq_ok hchildren
  have hle := Nat.le_trans (policy.size_unwrap_le (q.1.down c 0)) (Nat.le_of_lt hsize)
  rw [flattenFrom_opened hunwrap hle hchildren hk hop,
    flattenFrom_opened rfl hle hchildren hk hop]

/-- The nodes between a chain of class `k` and an operand are wrappers and binary expressions of
the class. -/
def IsPassage (k : Precedence) (turns : List Turn) : Prop :=
  ∀ turn ∈ turns,
    turn.node.kind ∈ expressionWrappers ∨ policy.precedence turn.node = .ok (some k)

theorem IsPassage.concat {turns : List Turn} {turn : Turn} (h : IsPassage k turns)
    (hturn : turn.node.kind ∈ expressionWrappers ∨ policy.precedence turn.node = .ok (some k)) :
    IsPassage k (turns ++ [turn]) := by
  intro t ht
  rcases List.mem_append.mp ht with ht | ht
  · exact h t ht
  · obtain rfl := List.mem_singleton.mp ht
    exact hturn

/-- The path goes to the operand `x` of a chain of class `k`, where `base` is above the
chain. -/
structure IsOperand (k : Precedence) (base : List Turn) (x : Node) (o : Path) : Prop where
  node_eq : o.node = x
  exists_passage : ∃ turns, IsPassage k turns ∧ o.above = turns ++ base

/-- An operand of a part of a chain is one of the chain. -/
theorem IsOperand.of_turn {base : List Turn} {turn : Turn} {x : Node} {o : Path}
    (h : IsOperand k (turn :: base) x o)
    (hturn : turn.node.kind ∈ expressionWrappers ∨ policy.precedence turn.node = .ok (some k)) :
    IsOperand k base x o := by
  obtain ⟨turns, hturns, habove⟩ := h.exists_passage
  exact ⟨h.node_eq, turns ++ [turn], hturns.concat hturn, by rw [habove, List.append_cons]⟩

/-- The walk collects the operands and operators of a place, and then those of the rest. -/
theorem Associates.exists_operands {n : Node} {xs : List Node} {ops : List String}
    (h : Associates k n xs ops) (q : Below p) (hq : q.1.node = n) :
    ∃ operands : List (Below p),
      List.Forall₂ (fun o x => IsOperand k q.1.above x o.1) operands xs ∧
      ∀ rest, policy.flattenFrom operatorOf k (.place q :: rest) =
        (policy.flattenFrom operatorOf k rest).map fun r => (operands ++ r.1, ops ++ r.2) := by
  induction h generalizing q with
  | operand hn =>
    subst hq
    exact ⟨[q], .cons ⟨rfl, [], by simp [IsPassage], rfl⟩ .nil, flattenFrom_operand hn⟩
  | @binary n left right op xs ys ops ops' hkind hchildren hop hk hleft hright ihl ihr =>
    subst hq
    have hprecedence : policy.precedence q.1.node = .ok (some k) := by
      rw [precedence_of_operator hkind hop, hk]
    have hchild (c : Node) (hc : c ∈ q.1.node.children) : c.size < p.node.size :=
      Nat.lt_trans (Node.size_lt_of_mem hc) q.2
    obtain ⟨ls, hls, hwalkl⟩ := ihl ⟨q.1.down left 0, hchild left (by simp [hchildren])⟩ rfl
    obtain ⟨rs, hrs, hwalkr⟩ := ihr ⟨q.1.down right 1, hchild right (by simp [hchildren])⟩ rfl
    refine ⟨ls ++ rs, List.rel_append (hls.imp fun o x ho => ho.of_turn (.inr hprecedence))
      (hrs.imp fun o x ho => ho.of_turn (.inr hprecedence)), fun rest => ?_⟩
    rw [flattenFrom_opened (unwrap_eq_self hkind) (Nat.le_of_lt q.2) hchildren hprecedence hop]
    show policy.flattenFrom operatorOf k (.place _ :: .operator op :: .place _ :: rest) = _
    rw [hwalkl, Policy.flattenFrom, hwalkr]
    cases policy.flattenFrom operatorOf k rest with
    | error e => rfl
    | ok r => simp [Except.map, bind, Except.bind, pure, Except.pure]
  | @wrapped n inner xs ops hkind hchildren hinner hops ih =>
    subst hq
    have hsize : inner.size < p.node.size :=
      Nat.lt_trans (Node.size_lt_of_mem (by simp [hchildren])) q.2
    obtain ⟨operands, hoperands, hwalk⟩ := ih ⟨q.1.down inner 0, hsize⟩ rfl
    refine ⟨operands, hoperands.imp fun o x ho => ho.of_turn (.inl hkind), fun rest => ?_⟩
    rw [flattenFrom_wrapper hkind hchildren hsize (hinner.opens hops), hwalk]

/-- The chain at a binary expression has the operands and operators of the expression. -/
theorem Associates.exists_flattenChain {xs : List Node} {ops : List String}
    (h : Associates k p.node xs ops) (hkind : p.node.kind = "binary_expression")
    (hops : ops ≠ []) :
    ∃ operands, flattenChain p = .ok (.chain operands ops) ∧
      List.Forall₂ (fun o x => ∃ i, IsOperand k (⟨p.node, i⟩ :: p.above) x o.1) operands xs := by
  obtain ⟨left, right, op, ls, rs, lops, rops, hchildren, hop, hk, hleft, hright, rfl, rfl⟩ :=
    h.exists_children hkind hops
  obtain ⟨ls', hls, hwalkl⟩ := hleft.exists_operands (p := p)
    ⟨p.down left 0, Node.size_lt_of_mem (by simp [hchildren])⟩ rfl
  obtain ⟨rs', hrs, hwalkr⟩ := hright.exists_operands (p := p)
    ⟨p.down right 1, Node.size_lt_of_mem (by simp [hchildren])⟩ rfl
  refine ⟨ls' ++ rs', ?_, List.rel_append (hls.imp fun o x ho => ⟨0, ho⟩)
    (hrs.imp fun o x ho => ⟨1, ho⟩)⟩
  refine flattenChain_eq_of_walk hkind hchildren hop hk ?_
  show policy.flattenFrom operatorOf k [.place _, .operator op, .place _] = _
  rw [hwalkl, Policy.flattenFrom, hwalkr, Policy.flattenFrom]
  simp [Except.map, bind, Except.bind, pure, Except.pure]

/-- A place with two children that is no binary expression has no chain. -/
theorem flattenChain_eq_single (hkind : p.node.kind ≠ "binary_expression")
    (htwo : p.node.children.length = 2) : flattenChain p = .ok .single := by
  have hclass : policy.precedence (policy.unwrap p).node = .ok none := by
    rw [node_unwrap, core_eq_self fun _ => by omega, Policy.precedence, if_neg]
    · rfl
    · simpa [policy] using hkind
  rw [flattenChain, Policy.flatten, hclass]
  rfl

end Walk

end Typeset.Modelica
