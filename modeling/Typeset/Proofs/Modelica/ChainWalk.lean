import Typeset.Modelica.Policy
import Typeset.Proofs.ChainContinuation

/-!
# The walk over an operator chain

A chain of binary operators is taken apart by a walk that opens the binary expressions of one
precedence class and collects all other places as operands. The walk is described here for
every tree: it always comes to an end, since an expression is opened only if it has two
operands, and it collects one operand more than operators.

## Main definitions

* `lacksOperand` : binary expressions without an operator.
* `Interrupted`, `ContinuesBelow` : nodes above a place that keep the question open whether it is a
  continuation, and those that make it one.
* `Walked` : the entries of a walk with what it collects.

## Main results

* `decideAbove_eq_error_iff` : why it may be unknown whether a node is a continuation.
* `exists_walked`, `exists_flattenChain_walked` : the walk always succeeds.
* `Walked.length_eq` : operands and operators come in turn.
-/

namespace Typeset.Modelica

/-! ### Precedence and continuations -/

/-- A binary expression without an operator, since it lacks an operand. -/
def lacksOperand (n : Node) : Bool := n.kind = "binary_expression" && n.children.length < 2

/-- Only a binary expression that lacks an operand has no known precedence class. -/
theorem precedence_eq_error_iff {n : Node} {e : PrintError} :
    policy.precedence n = .error e ↔ e = .missingChild ∧ lacksOperand n = true := by
  rw [Policy.precedence]
  split
  · next hkind =>
    have hkind : n.kind = "binary_expression" := by simpa [policy] using hkind
    show precedenceOf n = .error e ↔ _
    rw [precedenceOf, operatorOf]
    rcases hn : n.children with _ | ⟨left, _ | ⟨right, others⟩⟩
    · simp [lacksOperand, hkind, hn, bind, Except.bind, eq_comm]
    · simp [lacksOperand, hkind, hn, bind, Except.bind, eq_comm]
    · simp [lacksOperand, hn, bind, Except.bind, pure, Except.pure]
  · next hkind =>
    have hkind : n.kind ≠ "binary_expression" := by simpa [policy] using hkind
    simp [lacksOperand, hkind, pure, Except.pure]

/-- Only a binary expression has a precedence class. -/
theorem kind_of_precedence {n : Node} {k : Precedence}
    (h : policy.precedence n = .ok (some k)) : n.kind = "binary_expression" := by
  rw [Policy.precedence] at h
  split at h
  · next hkind => simpa [policy] using hkind
  · cases h

theorem precedence_of_operator {n : Node} {op : String} (hkind : n.kind = "binary_expression")
    (hop : operatorOf n = .ok op) : policy.precedence n = .ok (Precedence.ofOperator? op) := by
  rw [Policy.precedence, if_pos (by rw [hkind]; rfl)]
  show precedenceOf n = _
  rw [precedenceOf, hop]
  rfl

/-- No kind of node has two roles. -/
theorem hasDisjointKinds_policy : policy.HasDisjointKinds := by
  simp [Policy.HasDisjointKinds, policy, boundaryKinds, expressionWrappers]

theorem classify_wrapper {n : Node} (h : n.kind ∈ expressionWrappers) (i : Option Int) (s : Node) :
    policy.classify n i s = .ok .transparent :=
  Policy.classify_of_transparent hasDisjointKinds_policy h i s

theorem classify_binary {n : Node} {k : Precedence} (h : policy.precedence n = .ok (some k))
    (i : Option Int) (s : Node) :
    policy.classify n i s = do
      return if (← policy.precedence s) = some k then .claims else .transparent :=
  Policy.classify_of_precedence h i s

/-- The role of a node is known unless it is a binary expression that lacks an operand, and the
subject has a precedence class to compare with. -/
theorem classify_eq_error_iff {n s : Node} {k : Option Precedence} {e : PrintError}
    (hs : policy.precedence s = .ok k) (i : Option Int) :
    policy.classify n i s = .error e ↔
      k.isSome = true ∧ e = .missingChild ∧ lacksOperand n = true := by
  rw [Policy.classify]
  split
  · rw [Policy.classifyBinary, hs]
    cases k with
    | none => exact ⟨fun h => (by cases h), fun h => (by cases h.1)⟩
    | some k =>
      rw [← precedence_eq_error_iff]
      show (policy.precedence n >>= fun k' => if k' = some k then _ else _) = _ ↔ _
      cases hn : policy.precedence n with
      | error e' => simp [bind, Except.bind]
      | ok k' => by_cases heq : k' = some k <;> simp [bind, Except.bind, heq, pure, Except.pure]
  · next hkind =>
    have hkind : n.kind ≠ "binary_expression" := by simpa [policy] using hkind
    refine ⟨fun h => ?_, fun h => by simp [lacksOperand, hkind] at h⟩
    repeat' split at h
    all_goals cases h

/-- Going up from a subject, a binary expression that lacks an operand is come to before the role
of a node decides. -/
inductive Interrupted (s : Node) : List Turn → Prop
  | here {turn : Turn} {above : List Turn} (h : lacksOperand turn.node = true) :
      Interrupted s (turn :: above)
  | above {turn : Turn} {above : List Turn}
      (h : policy.classify turn.node (some turn.index) s = .ok .transparent)
      (habove : Interrupted s above) : Interrupted s (turn :: above)

theorem Interrupted.any_lacksOperand {s : Node} {above : List Turn} (h : Interrupted s above) :
    above.any (lacksOperand ·.node) = true := by
  induction h with
  | here h => rw [List.any_cons, h, Bool.true_or]
  | above _ _ ih => rw [List.any_cons, ih, Bool.or_true]

/-- Whether a node is a continuation is not known exactly if it has a precedence class and the way
up from it is interrupted. -/
theorem decideAbove_eq_error_iff {s : Node} {k : Option Precedence} {e : PrintError}
    (hs : policy.precedence s = .ok k) {above : List Turn} :
    policy.decideAbove s above = .error e ↔
      k.isSome = true ∧ e = .missingChild ∧ Interrupted s above := by
  induction above with
  | nil => exact ⟨fun h => (by cases h), fun h => (by cases h.2.2)⟩
  | cons turn above ih =>
    have herror {e : PrintError} := @classify_eq_error_iff turn.node s k e hs (some turn.index)
    rw [Policy.decideAbove]
    cases hrole : policy.classify turn.node (some turn.index) s with
    | error e' =>
      obtain ⟨hsome, rfl, hlacks⟩ := herror.mp hrole
      constructor
      · rintro ⟨⟩
        exact ⟨hsome, rfl, .here hlacks⟩
      · rintro ⟨-, rfl, -⟩
        rfl
    | ok role =>
      have hwhole (hsome : k.isSome = true) : ¬ lacksOperand turn.node = true := fun hlacks => by
        have hfails := herror.mpr ⟨hsome, rfl, hlacks⟩
        rw [hrole] at hfails
        cases hfails
      cases role with
      | claims | boundary =>
        refine ⟨fun h => (by cases h), ?_⟩
        rintro ⟨hsome, -, h⟩
        cases h with
        | here h => exact absurd h (hwhole hsome)
        | above h _ =>
          rw [hrole] at h
          cases h
      | transparent =>
        show policy.decideAbove s above = .error e ↔ _
        rw [ih]
        refine and_congr_right fun hsome => and_congr_right fun _ => ⟨.above hrole, fun h => ?_⟩
        cases h with
        | here h => exact absurd h (hwhole hsome)
        | above _ h => exact h

/-- Below some nodes a chain of class `k` goes on: whatever is of that class is a continuation. -/
def ContinuesBelow (k : Precedence) (above : List Turn) : Prop :=
  ∀ s, policy.precedence s = .ok (some k) → policy.decideAbove s above = .ok true

theorem continuesBelow_cons {k : Precedence} {n : Node} (hn : policy.precedence n = .ok (some k))
    (i : Int) (above : List Turn) : ContinuesBelow k (⟨n, i⟩ :: above) := by
  intro s hs
  rw [Policy.decideAbove, classify_binary hn, hs]
  simp [bind, Except.bind, pure, Except.pure]

theorem ContinuesBelow.unwrap {k : Precedence} {p : Path} (h : ContinuesBelow k p.above) :
    ContinuesBelow k (policy.unwrap p).above := by
  intro s hs
  rw [Policy.decideAbove_unwrap hasDisjointKinds_policy]
  exact h s hs

/-- The way up from a continuation of a chain is not interrupted. -/
theorem ContinuesBelow.not_interrupted {k : Precedence} {s : Node} {above : List Turn}
    (h : ContinuesBelow k above) (hs : policy.precedence s = .ok (some k)) :
    ¬ Interrupted s above := fun hinterrupted => by
  have hfails := (decideAbove_eq_error_iff hs).mpr ⟨rfl, rfl, hinterrupted⟩
  rw [h s hs] at hfails
  cases hfails

/-! ### The walk -/

section Walk

variable {p : Path}

/-- A walk over the entries of a chain of class `k` with the operands and operators that it
collects: a place is an operand, or it is opened if there is a binary expression of that class
inside of its wrappers. -/
inductive Walked (k : Precedence) : List (ChainEntry p) → List (Below p) → List String → Prop
  | nil : Walked k [] [] []
  | operator (s : String) {entries : List (ChainEntry p)} {operands : List (Below p)}
      {operators : List String} (h : Walked k entries operands operators) :
      Walked k (.operator s :: entries) operands (s :: operators)
  | operand (q : Below p) {entries : List (ChainEntry p)} {operands : List (Below p)}
      {operators : List String} (h : Walked k entries operands operators) :
      Walked k (.place q :: entries) (q :: operands) operators
  | opened (q : Below p) {left right : Node} {op : String}
      (hk : policy.precedence (policy.unwrap q.1).node = .ok (some k))
      (hsize : (policy.unwrap q.1).node.size ≤ p.node.size)
      (hchildren : (policy.unwrap q.1).node.children = [left, right])
      (hop : operatorOf (policy.unwrap q.1).node = .ok op)
      {entries : List (ChainEntry p)} {operands : List (Below p)} {operators : List String}
      (h : Walked k (Policy.opened _ hsize left right hchildren op ++ entries) operands
        operators) : Walked k (.place q :: entries) operands operators

/-- A node with two operands has an operator between them. -/
theorem operatorOf_eq_ok {n left right : Node} {others : List Node}
    (h : n.children = left :: right :: others) :
    operatorOf n = .ok (operatorBetween n left right) := by
  rw [operatorOf, h]

/-- A node with two children has a known precedence class, if any. -/
theorem exists_precedence_of_two {n left right : Node} (h : n.children = [left, right]) :
    ∃ k, policy.precedence n = .ok k := by
  cases hk : policy.precedence n with
  | error e =>
    have hlacks := (precedence_eq_error_iff.mp hk).2
    simp [lacksOperand, h] at hlacks
  | ok k => exact ⟨k, rfl⟩

/-- The walk over a chain always succeeds. -/
theorem exists_walked (k : Precedence) (entries : List (ChainEntry p)) :
    ∃ operands operators, policy.flattenFrom operatorOf k entries = .ok (operands, operators) ∧
      Walked k entries operands operators := by
  -- opening a place leaves less work
  induction hw : chainWork entries using Nat.strongRecOn generalizing entries with
  | ind w ih =>
    match entries with
    | [] => exact ⟨[], [], by rw [Policy.flattenFrom]; rfl, .nil⟩
    | .operator s :: entries =>
      obtain ⟨operands, operators, hrun, hwalked⟩ :=
        ih _ (by rw [← hw]; simp [chainWork]) entries rfl
      refine ⟨operands, s :: operators, ?_, .operator s hwalked⟩
      rw [Policy.flattenFrom, hrun]
      rfl
    | .place q :: entries =>
      have hkeep : ∃ operands operators,
          policy.flattenFrom operatorOf k entries = .ok (operands, operators) ∧
            Walked k (.place q :: entries) (q :: operands) operators := by
        obtain ⟨operands, operators, hrun, hwalked⟩ :=
          ih _ (by rw [← hw]; have := q.1.node.size_pos; simp only [chainWork]; omega) entries rfl
        exact ⟨operands, operators, hrun, .operand q hwalked⟩
      rw [Policy.flattenFrom]
      split
      · next left right hchildren =>
        obtain ⟨k', hk'⟩ := exists_precedence_of_two hchildren
        rw [hk']
        by_cases heq : k' = some k
        · have hop := operatorOf_eq_ok hchildren
          have hle := policy.size_unwrap_le q.1
          have hsize : (policy.unwrap q.1).node.size = 1 + (left.size + right.size) := by
            rw [Node.size_eq, hchildren]
            simp [Node.sizeAll]
          obtain ⟨operands, operators, hrun, hwalked⟩ := ih _ (by
            rw [← hw]
            simp only [Policy.opened, List.cons_append, List.nil_append, chainWork, Path.node_down]
            omega) (Policy.opened (policy.unwrap q.1)
              (Nat.le_of_lt (Nat.lt_of_le_of_lt hle q.2)) left right hchildren _ ++ entries) rfl
          refine ⟨operands, operators, ?_, .opened q (heq ▸ hk') _ _ hop hwalked⟩
          show (if k' = some k then operatorOf (policy.unwrap q.1).node >>= _ else _) = _
          rw [if_pos heq, hop]
          exact hrun
        · obtain ⟨operands, operators, hrun, hwalked⟩ := hkeep
          refine ⟨q :: operands, operators, ?_, hwalked⟩
          show (if k' = some k then _ else _) = _
          rw [if_neg heq, hrun]
          rfl
      · obtain ⟨operands, operators, hrun, hwalked⟩ := hkeep
        refine ⟨q :: operands, operators, ?_, hwalked⟩
        rw [hrun]
        rfl

/-- How many places more than operators there are among the entries. -/
def surplus : List (ChainEntry p) → Int
  | [] => 0
  | .place _ :: entries => surplus entries + 1
  | .operator _ :: entries => surplus entries - 1

/-- A walk collects as many operands more than operators as there are places more than operators
among its entries. -/
theorem Walked.length_eq {k : Precedence} {entries : List (ChainEntry p)}
    {operands : List (Below p)} {operators : List String}
    (h : Walked k entries operands operators) :
    (operands.length : Int) = operators.length + surplus entries := by
  induction h with
  | nil => rfl
  | operator s h ih =>
    rw [surplus, List.length_cons]
    omega
  | operand q h ih =>
    rw [surplus, List.length_cons]
    omega
  | opened q hk hsize hchildren hop h ih =>
    simp only [Policy.opened, List.cons_append, List.nil_append, surplus] at ih ⊢
    omega

end Walk

/-- A binary expression is no wrapper. -/
theorem unwrap_eq_self {p : Path} (hkind : p.node.kind = "binary_expression") :
    policy.unwrap p = p := by
  rw [Policy.unwrap]
  split
  · rw [if_neg]
    rw [hkind]
    decide
  · rfl

/-- The chain at a binary expression with a precedence class is what the walk over its operands
collects. -/
theorem flattenChain_eq_of_walk {p : Path} {left right : Node} {op : String} {k : Precedence}
    {operands : List (Below p)} {operators : List String}
    (hkind : p.node.kind = "binary_expression") (hchildren : p.node.children = [left, right])
    (hop : operatorOf p.node = .ok op) (hk : Precedence.ofOperator? op = some k)
    (hrun : policy.flattenFrom operatorOf k
      (Policy.opened p (Nat.le_refl _) left right hchildren op) = .ok (operands, operators)) :
    flattenChain p = .ok (.chain operands operators) := by
  have hinner := unwrap_eq_self hkind
  have hop' : operatorOf (policy.unwrap p).node = .ok op := by rw [hinner, hop]
  have hprecedence : policy.precedence (policy.unwrap p).node = .ok (some k) := by
    rw [hinner, precedence_of_operator hkind hop, hk]
  rw [flattenChain, Policy.flatten, hprecedence, ok_bind]
  dsimp only
  split
  · next left' right' hchildren' =>
    obtain ⟨rfl, rfl⟩ : left = left' ∧ right = right' := by
      rw [hinner, hchildren] at hchildren'
      simpa using hchildren'
    have hentries : Policy.opened (policy.unwrap p) (policy.size_unwrap_le p) left right
        hchildren' op = Policy.opened p (Nat.le_refl _) left right hchildren op := by
      simp only [Policy.opened, hinner]
    rw [hop']
    show (policy.flattenFrom operatorOf k _ >>= _) = _
    rw [hentries, hrun]
    rfl
  · next hother => exact absurd (by rw [hinner, hchildren]) (hother left right)

/-- The chain at a binary expression with a precedence class is found, and it has one operand
more than operators. -/
theorem exists_flattenChain_walked {p : Path} {left right : Node} {op : String} {k : Precedence}
    (hkind : p.node.kind = "binary_expression") (hchildren : p.node.children = [left, right])
    (hop : operatorOf p.node = .ok op) (hk : Precedence.ofOperator? op = some k) :
    ∃ operands operators, flattenChain p = .ok (.chain operands operators) ∧
      operands.length = operators.length + 1 ∧
      Walked k (Policy.opened p (Nat.le_refl _) left right hchildren op) operands operators := by
  obtain ⟨operands, operators, hrun, hwalked⟩ :=
    exists_walked k (Policy.opened p (Nat.le_refl _) left right hchildren op)
  refine ⟨operands, operators, flattenChain_eq_of_walk hkind hchildren hop hk hrun, ?_, hwalked⟩
  have hlength := hwalked.length_eq
  simp only [Policy.opened, surplus] at hlength
  omega

end Typeset.Modelica
