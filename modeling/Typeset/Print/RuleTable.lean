/-!
# Rule tables

A rule table gives rules to kinds of nodes. Of several rules for a kind the one registered
last counts.

## Main definitions

* `RuleTable` : rules by kind.
* `RuleTable.register` : gives a rule to some kinds.
* `RuleTable.get?`, `RuleTable.contains`, `RuleTable.kinds` : the rule of a kind, and the
  kinds that have one.
-/

namespace Typeset

/-- Rules by kind of node, the latest one first. -/
structure RuleTable (α : Type) where
  /-- Kinds and rules. -/
  entries : List (String × α) := []

namespace RuleTable

variable {α β : Type}

/-- Gives a rule to some kinds. -/
def register (t : RuleTable α) (kinds : List String) (rule : α) : RuleTable α :=
  ⟨kinds.map (·, rule) ++ t.entries⟩

/-- The table of some rules, each with its kinds; later ones count. -/
def ofList (rules : List (List String × α)) : RuleTable α :=
  rules.foldl (fun t r => t.register r.1 r.2) {}

/-- The rule of a kind. -/
def get? (t : RuleTable α) (kind : String) : Option α := t.entries.lookup kind

/-- Whether a kind has a rule. -/
def contains (t : RuleTable α) (kind : String) : Bool := (t.get? kind).isSome

/-- The kinds that have rules, sorted. -/
def kinds (t : RuleTable α) : List String :=
  ((t.entries.map (·.1)).eraseDups).mergeSort fun a b => decide (a ≤ b)

/-- The table with every rule changed. -/
def map (f : α → β) (t : RuleTable α) : RuleTable β :=
  ⟨t.entries.map fun e => (e.1, f e.2)⟩

end RuleTable

end Typeset
