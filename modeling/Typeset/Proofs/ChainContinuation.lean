import Mathlib.Data.List.Basic
import Typeset.Proofs.InOrderChain

/-!
# Chains and continuations

Flattening a chain walks down the tree, and the question whether a place is a continuation is
decided by a walk up. For a policy in which no kind has two roles the two agree: an operator
inside of a chain of its class is a continuation, because the operator around it claims the
level, and an operand of any other class is decided by what is above the whole chain, because
neither the operators of the chain nor the wrappers inside it decide anything.

## Main definitions

* `Policy.HasDisjointKinds` : no kind is listed in two tables of the policy.

## Main results

* `Policy.decideAbove_unwrap` : wrappers decide nothing.
* `Policy.decideAbove_opened` : what an operator decides for the places below it.
* `Policy.isContinuation_of_operator`, `Policy.isContinuation_of_operand` : the operators and the
  operands of a chain.
* `Policy.flatten_agrees_with_isContinuation` : the same for the chain that is flattened.
-/

namespace Typeset.Policy

open ChainPiece

variable {κ : Type} {P : Policy κ}

/-- No kind is listed in two tables of the policy. -/
def HasDisjointKinds (P : Policy κ) : Prop :=
  [P.claiming, P.boundary, P.transparent, P.conditional, P.binary].Pairwise List.Disjoint

/-- A wrapper is listed nowhere else. -/
theorem HasDisjointKinds.not_mem_of_transparent (h : P.HasDisjointKinds) {kind : String}
    (hkind : kind ∈ P.transparent) :
    kind ∉ P.claiming ∧ kind ∉ P.boundary ∧ kind ∉ P.conditional ∧ kind ∉ P.binary := by
  simp only [HasDisjointKinds, List.pairwise_cons, List.mem_cons, List.not_mem_nil, or_false,
    forall_eq_or_imp, forall_eq] at h
  obtain ⟨⟨-, hclaiming, -, -⟩, ⟨hboundary, -, -⟩, ⟨hconditional, hbinary⟩, -⟩ := h
  exact ⟨fun h => hclaiming h hkind, fun h => hboundary h hkind, fun h => hconditional hkind h,
    fun h => hbinary hkind h⟩

variable [DecidableEq κ]

/-! ### What is above a place in a chain -/

/-- A wrapper is transparent for every subject. -/
theorem classify_of_transparent (hP : P.HasDisjointKinds) {n : Node}
    (h : n.kind ∈ P.transparent) (i : Option Int) (s : Node) :
    P.classify n i s = .ok .transparent := by
  obtain ⟨hclaiming, hboundary, hconditional, hbinary⟩ := hP.not_mem_of_transparent h
  simp [classify, h, hclaiming, hboundary, hconditional, hbinary, pure, Except.pure]

/-- An operator claims the level for the subjects of its class and is transparent for others. -/
theorem classify_of_precedence {n : Node} {k : κ} (hn : P.precedence n = .ok (some k))
    (i : Option Int) (s : Node) :
    P.classify n i s = do
      return if (← P.precedence s) = some k then .claims else .transparent := by
  have hbinary : P.binary.contains n.kind = true := by
    by_contra hnot
    rw [precedence, if_neg hnot] at hn
    cases hn
  rw [classify, if_pos hbinary, classifyBinary, hn]
  cases P.precedence s with
  | error e => rfl
  | ok k' =>
    cases k' with
    | none => rfl
    | some k' =>
      by_cases heq : k' = k
      · simp [heq, bind, Except.bind, pure, Except.pure]
      · simp [heq, Ne.symm heq, bind, Except.bind, pure, Except.pure]

/-- Wrappers decide nothing: from inside of them the walk up goes as from outside. -/
theorem decideAbove_unwrap (hP : P.HasDisjointKinds) (s : Node) (p : Path) :
    P.decideAbove s (P.unwrap p).above = P.decideAbove s p.above := by
  fun_induction unwrap P p with
  | case1 p c hc hkind ih =>
    have hmem : p.node.kind ∈ P.transparent := by simpa using hkind
    rw [ih, Path.down, decideAbove, classify_of_transparent hP hmem]
    rfl
  | case2 => rfl
  | case3 => rfl

/-- Below an operator of a chain a subject of its class is a continuation, and any other one is
what it is above the wrappers around the operator. -/
theorem decideAbove_opened (hP : P.HasDisjointKinds) {p : Path} {k : κ} (hp : P.Opens k p)
    {s : Node} {k' : Option κ} (hs : P.precedence s = .ok k') (c : Node) (i : Int) :
    P.decideAbove s ((P.unwrap p).down c i).above =
      if k' = some k then .ok true else P.decideAbove s p.above := by
  rw [Path.down, decideAbove, classify_of_precedence hp.2, hs, ok_bind]
  by_cases heq : k' = some k
  · rw [if_pos heq, if_pos heq]
    rfl
  · rw [if_neg heq, if_neg heq]
    exact decideAbove_unwrap hP s p

/-! ### The pieces of a chain -/

variable {operatorOf : Node → Except PrintError String} {k : κ} {p : Path}
  {pieces : List ChainPiece}

/-- Every operator of a chain is of the class of the chain. -/
theorem precedence_of_operator (h : P.inorder operatorOf (some k) p = .ok pieces) :
    ∀ q s, .operator q s ∈ pieces → P.precedence q.node = .ok (some k) := by
  refine inorder_induction
    (motive := fun _ pieces => ∀ q s, .operator q s ∈ pieces → P.precedence q.node = .ok (some k))
    (fun p _ q s hq => ?_) (fun p left right t xs ys hp _ _ _ hxs hys q s hq => ?_) p h
  · cases List.mem_singleton.mp hq
  · rcases List.mem_append.mp hq with hq | hq
    · exact hxs q s hq
    · rcases List.mem_cons.mp hq with hq | hq
      · cases hq
        exact hp.2
      · exact hys q s hq

/-- Every operator of a chain but the outermost one is a continuation. -/
theorem isContinuation_of_operator (hP : P.HasDisjointKinds)
    (h : P.inorder operatorOf (some k) p = .ok pieces) :
    ∀ q s, .operator q s ∈ pieces → q = P.unwrap p ∨ P.isContinuation q = .ok true := by
  refine inorder_induction
    (motive := fun p pieces => ∀ q s, .operator q s ∈ pieces →
      q = P.unwrap p ∨ P.isContinuation q = .ok true)
    (fun p _ q s hq => ?_) (fun p left right t xs ys hp _ hleft hright hxs hys q s hq => ?_) p h
  · cases List.mem_singleton.mp hq
  · -- an operator on either side that is the outermost one there stands below this one
    have hbelow {c : Node} {i : Int} {zs : List ChainPiece}
        (hzs : P.inorder operatorOf (some k) ((P.unwrap p).down c i) = .ok zs)
        (hq : .operator q s ∈ zs)
        (hor : q = P.unwrap ((P.unwrap p).down c i) ∨ P.isContinuation q = .ok true) :
        P.isContinuation q = .ok true := by
      rcases hor with rfl | hq
      · have hclass := precedence_of_operator hzs _ s hq
        rw [isContinuation, decideAbove_unwrap hP, decideAbove_opened hP hp hclass, if_pos rfl]
      · exact hq
    rcases List.mem_append.mp hq with hq | hq
    · exact .inr (hbelow hleft hq (hxs q s hq))
    · rcases List.mem_cons.mp hq with hq | hq
      · cases hq
        exact .inl rfl
      · exact .inr (hbelow hright hq (hys q s hq))

/-- An operand of another class than the chain is decided by what is above the chain. -/
theorem isContinuation_of_operand (hP : P.HasDisjointKinds)
    (h : P.inorder operatorOf (some k) p = .ok pieces) :
    ∀ q ∈ operands pieces, ∀ k', P.precedence q.node = .ok k' → k' ≠ some k →
      P.isContinuation q = P.decideAbove q.node p.above := by
  refine inorder_induction
    (motive := fun p pieces => ∀ q ∈ operands pieces, ∀ k', P.precedence q.node = .ok k' →
      k' ≠ some k → P.isContinuation q = P.decideAbove q.node p.above)
    (fun p _ q hq k' _ _ => ?_)
    (fun p left right t xs ys hp _ _ _ hxs hys q hq k' hk' hne => ?_) p h
  · rw [List.mem_singleton.mp hq]
    rfl
  · rw [operands_append, operands_operator, List.mem_append] at hq
    rcases hq with hq | hq
    · rw [hxs q hq k' hk' hne, decideAbove_opened hP hp hk', if_neg hne]
    · rw [hys q hq k' hk' hne, decideAbove_opened hP hp hk', if_neg hne]

/-! ### The chain that is flattened -/

/-- **Chains and continuations agree.** Let no kind be listed in two tables of the policy, and
let the chain at a path be flattened; its pieces are those of the recursion. Then every operator
that is merged into the chain, other than the one that the path itself unwraps to, is a
continuation. If there is an operator at all, every operand that has no class or another one than
the chain is decided by the nodes above the unwrapped path alone: the walk up from the operand
passes by all nodes of the chain and all wrappers inside it. -/
theorem flatten_agrees_with_isContinuation (P : Policy κ) (hP : P.HasDisjointKinds)
    (operatorOf : Node → Except PrintError String) (p : Path) {c : Flattened p}
    (h : P.flatten operatorOf p = .ok c) :
    ∃ k pieces, P.precedence (P.unwrap p).node = .ok k ∧ P.inorder operatorOf k p = .ok pieces ∧
      c.operands = operands pieces ∧ c.operators = operators pieces ∧
      (∀ q s, .operator q s ∈ pieces → q ≠ P.unwrap p → P.isContinuation q = .ok true) ∧
      (c.operators ≠ [] → ∀ q ∈ c.operands, ∀ k', P.precedence q.node = .ok k' → k' ≠ k →
        P.isContinuation q = P.decideAbove q.node (P.unwrap p).above) := by
  have heq := P.flatten_eq_inorder operatorOf p
  rw [h] at heq
  obtain ⟨k, hk, heq⟩ := bind_eq_ok_iff.mp heq.symm
  obtain ⟨pieces, hpieces, hsplit⟩ := bind_eq_ok_iff.mp heq
  obtain ⟨hoperands, hoperators⟩ := Prod.mk.inj (Except.ok.inj hsplit)
  refine ⟨k, pieces, hk, hpieces, hoperands.symm, hoperators.symm, ?_⟩
  rw [← hoperands, ← hoperators]
  cases k with
  | none =>
    -- where the path has no class nothing is merged, and there is no operator
    rw [inorder] at hpieces
    cases hpieces
    refine ⟨fun q s hq => ?_, fun hne => absurd rfl hne⟩
    cases List.mem_singleton.mp hq
  | some k =>
    refine ⟨fun q s hq hne => (isContinuation_of_operator hP hpieces q s hq).resolve_left hne,
      fun _ q hq k' hk' hne => ?_⟩
    rw [decideAbove_unwrap hP]
    exact isContinuation_of_operand hP hpieces q hq k' hk' hne

/-- Sums inside of each other, with a wrapper around one of them and a product that is not
opened, in a group that claims the level. -/
theorem flatten_agrees_with_isContinuation_sums :
    let P : Policy String :=
      { claiming := ["group"], boundary := ["statement"], transparent := ["wrapper"],
        conditional := ["if"], binary := ["binary"], classOf := fun n => .ok n.text }
    let operatorOf : Node → Except PrintError String := fun n => .ok n.textOrEmpty
    let leaf (s : String) : Node := ⟨"name", [], some s, none, none⟩
    let op (s : String) (l r : Node) : Node := ⟨"binary", [l, r], some s, none, none⟩
    let wrap (n : Node) : Node := ⟨"wrapper", [n], none, none, none⟩
    let body := wrap (op "+" (op "+" (leaf "a") (leaf "b"))
      (wrap (op "+" (op "*" (leaf "c") (leaf "d")) (leaf "e"))))
    let p := (Path.root ⟨"group", [body], none, none, none⟩).down body 0
    P.HasDisjointKinds ∧ ∃ c, P.flatten operatorOf p = .ok c ∧ c.operators = ["+", "+", "+"] ∧
      ∀ q ∈ c.operands, ∀ k', P.precedence q.node = .ok k' → k' ≠ some "+" →
        P.isContinuation q = .ok true := by
  intro P operatorOf leaf op wrap body p
  have hP : P.HasDisjointKinds := by
    simp [HasDisjointKinds, P]
  have hrun : (P.flatten operatorOf p).toOption.map (·.operators) = some ["+", "+", "+"] := by
    decide +kernel
  obtain ⟨c, hc, hoperators⟩ := Option.map_eq_some_iff.mp hrun
  rw [toOption_eq_some_iff] at hc
  refine ⟨hP, c, hc, hoperators, fun q hq k' hk' hne => ?_⟩
  obtain ⟨k, pieces, hk, -, -, -, -, hoperand⟩ :=
    P.flatten_agrees_with_isContinuation hP operatorOf p hc
  have hclass : P.precedence (P.unwrap p).node = .ok (some "+") :=
    toOption_eq_some_iff.mp (by decide +kernel)
  rw [hclass] at hk
  cases hk
  rw [hoperand (by simp [hoperators]) q hq k' hk' hne, decideAbove_unwrap hP]
  rfl

end Typeset.Policy
