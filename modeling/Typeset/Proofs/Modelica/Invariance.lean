import Mathlib.Control.Monad.Basic
import Typeset.Proofs.Modelica.RespectingRules

/-!
# What the document of a tree does not depend on

Interchangeable trees are printed as the same document, or fail with the same error. So it does
not matter for the document how the operands of a logical or arithmetic chain are associated in
the tree, nor whether a wrapper stands inside of another one: one subtree can be replaced by the
other wherever it stands.

## Main definitions

* `Replaced` : a tree with another one in the place of one of its subtrees.

## Main results

* `agrees_printPath` : printing agrees at places with interchangeable nodes in the same
  surroundings.
* `print_eq_of_reassociated` : the document does not depend on how chains are associated.
* `print_eq_of_rewrapped` : the document does not depend on wrappers inside of wrappers.
-/

namespace Typeset.Modelica

open Doc Printing Rules

/-! ### Wrappers -/

section Wrappers

variable {p : Path}

theorem cat_singleton_cat (ds : List Doc) : cat [cat ds] = cat ds := by
  match ds with
  | [] | _ :: _ :: _ => rfl
  | [d] =>
    cases d with
    | lit s => by_cases h : s = "" <;> simp [cat, tidy, h]
    | _ => rfl

/-- A wrapper is printed as what is in it. -/
theorem outcome_printPath_wrapper (hkind : p.node.kind ∈ expressionWrappers) :
    (printPath rules p).outcome =
      (printChildren p fun q => printPath rules q.1).outcome.map cat := by
  have hrule : rules.get? p.node.kind = some Rules.sequence := by
    simp only [expressionWrappers, List.mem_cons, List.not_mem_nil, or_false] at hkind
    rcases hkind with h | h | h <;> rw [h] <;> rfl
  rw [printPath, hrule]
  show (tick >>= fun _ => Rules.sequence p _).outcome = _
  rw [outcome_bind]
  show (Rules.sequence p _).outcome = _
  rw [Rules.sequence, outcome_bind]
  cases (printChildren p fun q => printPath rules q.1).outcome <;> rfl

/-- A wrapper inside of a wrapper adds nothing. -/
theorem outcome_printPath_nested {inner : Node} (hkind : p.node.kind ∈ expressionWrappers)
    (hchildren : p.node.children = [inner]) (hinner : inner.kind ∈ expressionWrappers) :
    (printPath rules p).outcome = (printPath rules (p.down inner 0)).outcome := by
  have hsize : inner.size < p.node.size := Node.size_lt_of_mem (by simp [hchildren])
  have hone : p.children = [⟨p.down inner 0, hsize⟩] := by
    refine List.map_injective_iff.mpr Subtype.val_injective ?_
    rw [p.map_val_children, hchildren]
    rfl
  rw [outcome_printPath_wrapper hkind, printChildren, hone, Printing.all, outcome_bind,
    outcome_printPath_wrapper (p := p.down inner 0) hinner]
  cases (printChildren (p.down inner 0) fun q => printPath rules q.1).outcome with
  | error e => rfl
  | ok ds => exact congrArg Except.ok (cat_singleton_cat ds)

end Wrappers

/-! ### Chains -/

/-- A binary expression of a logical or arithmetic class is printed as a chain. -/
theorem agrees_binaryExpression {p : Path} {print : Below p → Printing Doc} {k : Precedence}
    {xs : List Node} {ops : List String} (h : Associates k p.node xs ops)
    (hkind : p.node.kind = "binary_expression") (hops : ops ≠ [])
    (hk : (k.isLogical || k.isArithmetic) = true) :
    (binaryExpression p print).Agrees (operatorChain k p print) := by
  obtain ⟨_, _, op, _, _, _, _, hchildren, hop, hclass, -⟩ := h.exists_children hkind hops
  rw [binaryExpression, if_pos (by rw [hchildren]; rfl), hop]
  refine (agrees_lift_ok _ _).trans ?_
  rw [hclass]
  dsimp only
  rw [if_pos hk]
  exact .refl _

/-! ### Printing -/

/-- Printing agrees at places with interchangeable nodes in the same surroundings. -/
theorem agrees_printPath {p p' : Path} (h : SamePlace p p') :
    (printPath rules p).Agrees (printPath rules p') := by
  -- whatever is printed below a place is smaller
  induction hn : p.node.size using Nat.strongRecOn generalizing p p' with
  | ind n ih =>
    have hbelow (q : Below p) (q' : Path) (hq : SamePlace q.1 q') :
        (printPath rules q.1).Agrees (printPath rules q') := ih _ (hn ▸ q.2) hq rfl
    obtain ⟨hnode, habove⟩ := h
    have hkind := hnode.kind_eq
    cases hnode with
    | node hlabel hchildren =>
      rw [printPath, printPath.eq_def rules p', ← hkind]
      split
      · rw [(Node.label_eq_iff.mp hlabel).2.2.1]
        exact .refl _
      · next rule hrule =>
        exact Agrees.bind (.refl _) fun _ =>
          respects_rules hrule ⟨hlabel, hchildren, habove, fun q q' hq => hbelow q q'.1 hq⟩
    | @wrapped _ _ inner _ hwrapper hn' hinner hchildren =>
      -- the children are the same, with one wrapper more above those of the inner wrapper
      have hplaces := @forall₂_children p (p'.down inner 0)
        (hchildren ▸ Interchangeable.refl_all _) fun i =>
          habove.wrapped hwrapper (hkind ▸ hwrapper) hinner i 0
      have hall : (printChildren p fun q => printPath rules q.1).Agrees
          (printChildren (p'.down inner 0) fun q => printPath rules q.1) :=
        .all hplaces fun q q' hq => hbelow q q'.1 hq
      rw [Agrees, outcome_printPath_nested (hkind ▸ hwrapper) hn' hinner,
        outcome_printPath_wrapper hwrapper, outcome_printPath_wrapper (p := p'.down inner 0) hinner,
        hall]
    | chain hlabel hbinary hk hops h h' =>
      have hbinary' : p'.node.kind = "binary_expression" := hkind ▸ hbinary
      have hchain := agrees_operatorChain ⟨.chain hlabel hbinary hk hops h h', habove⟩
        (fun q (q' : Below p') hq => hbelow q q'.1 hq) hbinary hops h h'
        (Interchangeable.refl_all _)
      have hrule : rules.get? "binary_expression" = some binaryExpression := rfl
      rw [printPath, printPath.eq_def rules p', hbinary, hbinary', hrule]
      exact Agrees.bind (.refl _) fun _ =>
        (agrees_binaryExpression h hbinary hops hk).trans
          (hchain.trans (agrees_binaryExpression h' hbinary' hops hk).symm)

/-- The document of a tree is what is printed at its root. -/
theorem map_print (n : Node) : (print n).map (·.1) = (printPath rules (.root n)).outcome := by
  rw [print, printNode]
  cases printPath rules (.root n) <;> rfl

/-- Interchangeable trees have the same document, or they fail with the same error. -/
theorem print_eq_of_interchangeable {n n' : Node} (h : Interchangeable n n') :
    (print n).map (·.1) = (print n').map (·.1) := by
  rw [map_print, map_print]
  exact agrees_printPath ⟨h, .root⟩

/-! ### Replacing subtrees -/

/-- The second tree is the first one with `t'` in the place of one of its subtrees `t`. -/
inductive Replaced (t t' : Node) : Node → Node → Prop
  | here : Replaced t t' t t'
  | child {c c' : Node} (h : Replaced t t' c c') (kind : String) (before after : List Node)
      (text : Option String) (span : Option Span) (field : Option String) :
      Replaced t t' ⟨kind, before ++ c :: after, text, span, field⟩
        ⟨kind, before ++ c' :: after, text, span, field⟩

theorem Replaced.interchangeable {t t' n n' : Node} (hn : Replaced t t' n n')
    (h : Interchangeable t t') : Interchangeable n n' := by
  induction hn with
  | here => exact h
  | child _ _ before after _ _ _ ih =>
    exact .node rfl (List.rel_append (Interchangeable.refl_all before)
      (.cons ih (Interchangeable.refl_all after)))

/-- The document of a tree does not depend on how the operands of a chain of one class in it are
associated: two binary expressions with the same text, span and field, the same operands and the
same operators can be replaced by each other wherever they stand. -/
theorem print_eq_of_reassociated {k : Precedence} {t₁ t₂ n₁ n₂ : Node} {operands : List Node}
    {operators : List String}
    (hk : k ∈ [Precedence.logicalOr, .logicalAnd, .additive, .multiplicative])
    (hkind₁ : t₁.kind = "binary_expression") (hkind₂ : t₂.kind = "binary_expression")
    (htext : t₁.text = t₂.text) (hspan : t₁.span = t₂.span) (hfield : t₁.field = t₂.field)
    (h₁ : Associates k t₁ operands operators) (h₂ : Associates k t₂ operands operators)
    (hn : Replaced t₁ t₂ n₁ n₂) : (print n₁).map (·.1) = (print n₂).map (·.1) := by
  have hlabel := Node.label_eq_iff.mpr ⟨hkind₁.trans hkind₂.symm, htext, hspan, hfield⟩
  have hclasses : ∀ k ∈ [Precedence.logicalOr, .logicalAnd, .additive, .multiplicative],
      (k.isLogical || k.isArithmetic) = true := by decide
  rcases eq_or_ne operators [] with rfl | hops
  · -- without operators both trees are the only operand
    obtain rfl : t₁ = t₂ := by simpa [h₁.of_nil.1] using h₂.of_nil.1
    exact print_eq_of_interchangeable (hn.interchangeable (.refl t₁))
  · exact print_eq_of_interchangeable
      (hn.interchangeable (.chain hlabel hkind₁ (hclasses k hk) hops h₁ h₂))

/-- The sum and difference `a + b - c`, associated to the left and to the right with wrappers, in a
longer sum. -/
theorem print_eq_of_reassociated_sum :
    let a : Node := ⟨"IDENT", [], some "a", none, none⟩
    let b : Node := ⟨"IDENT", [], some "b", none, none⟩
    let c : Node := ⟨"IDENT", [], some "c", none, none⟩
    let sum : Node := ⟨"binary_expression", [a, b], some "a + b", none, none⟩
    let difference : Node := ⟨"binary_expression", [b, c], some "b - c", none, none⟩
    let t₁ : Node := ⟨"binary_expression", [sum, c], some "a + b - c", none, none⟩
    let t₂ : Node := ⟨"binary_expression",
      [a, ⟨"expression", [⟨"primary_expression", [difference], none, none, none⟩], some "b - c",
        none, none⟩], some "a + b - c", none, none⟩
    let n₁ : Node := ⟨"binary_expression", [c, t₁], some "c + a + b - c", none, none⟩
    let n₂ : Node := ⟨"binary_expression", [c, t₂], some "c + a + b - c", none, none⟩
    (Associates .additive t₁ [a, b, c] ["+", "-"] ∧ Associates .additive t₂ [a, b, c] ["+", "-"] ∧
      Replaced t₁ t₂ n₁ n₂) ∧ (print n₁).map (·.1) = (print n₂).map (·.1) := by
  intro a b c sum difference t₁ t₂ n₁ n₂
  have hleaf (name : String) : Associates .additive ⟨"IDENT", [], some name, none, none⟩
      [⟨"IDENT", [], some name, none, none⟩] [] := by
    refine .operand fun hopens => ?_
    rw [Opens, core_eq_self fun _ => by simp] at hopens
    exact absurd hopens.1 (by simp)
  have hsum : Associates .additive sum [a, b] ["+"] :=
    .binary rfl rfl (by decide +kernel) rfl (hleaf "a") (hleaf "b")
  have hdifference : Associates .additive difference [b, c] ["-"] :=
    .binary rfl rfl (by decide +kernel) rfl (hleaf "b") (hleaf "c")
  have h₁ : Associates .additive t₁ [a, b, c] ["+", "-"] :=
    .binary rfl rfl (by decide +kernel) rfl hsum (hleaf "c")
  have h₂ : Associates .additive t₂ [a, b, c] ["+", "-"] :=
    .binary rfl rfl (by decide +kernel) rfl (hleaf "a")
      (.wrapped (by decide) rfl (.wrapped (by decide) rfl hdifference (by simp)) (by simp))
  have hn : Replaced t₁ t₂ n₁ n₂ := .child .here _ [c] [] _ _ _
  exact ⟨⟨h₁, h₂, hn⟩, @print_eq_of_reassociated .additive t₁ t₂ n₁ n₂ [a, b, c] ["+", "-"]
    (by decide) rfl rfl rfl rfl rfl h₁ h₂ hn⟩

/-- The document of a tree does not depend on a wrapper inside of a wrapper, whatever the text,
span and field of the inner one are. -/
theorem print_eq_of_rewrapped {kind inner : String} {children : List Node}
    {text text' : Option String} {span span' : Option Span} {field field' : Option String}
    {n n' : Node} (hkind : kind ∈ expressionWrappers) (hinner : inner ∈ expressionWrappers)
    (hn : Replaced ⟨kind, children, text, span, field⟩
      ⟨kind, [⟨inner, children, text', span', field'⟩], text, span, field⟩ n n') :
    (print n).map (·.1) = (print n').map (·.1) :=
  print_eq_of_interchangeable (hn.interchangeable (.wrapped rfl hkind rfl hinner rfl))

/-- A wrapper of two names with another wrapper inside, as the value of a declaration. -/
theorem print_eq_of_rewrapped_value :
    let a : Node := ⟨"IDENT", [], some "a", none, none⟩
    let b : Node := ⟨"IDENT", [], some "b", none, none⟩
    let value : Node := ⟨"expression", [a, b], some "a b", none, none⟩
    let value' : Node := ⟨"expression", [⟨"primary_expression", [a, b], none, none, some "x"⟩],
      some "a b", none, none⟩
    let n : Node := ⟨"declaration", [⟨"modification", [value], none, none, none⟩], some "x = a b",
      none, none⟩
    let n' : Node := ⟨"declaration", [⟨"modification", [value'], none, none, none⟩], some "x = a b",
      none, none⟩
    Replaced value value' n n' ∧ (print n).map (·.1) = (print n').map (·.1) := by
  intro a b value value' n n'
  have hn : Replaced value value' n n' := .child (.child .here _ [] [] _ _ _) _ [] [] _ _ _
  exact ⟨hn, print_eq_of_rewrapped (by decide) (by decide) hn⟩

end Typeset.Modelica
