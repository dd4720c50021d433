import Typeset.Doc.Normal

/-!
# Layout commands

The layout keeps a stack of commands instead of recursing over the document. A command says
what to print, at which indentation level and whether flat or broken. The indentation level
counts levels, not columns.

The weight of a stack bounds how many commands are still to be carried out, since carrying
out a command puts only parts of it back.

## Main definitions

* `Mode` : flat or broken.
* `Content` : a document, the end of a mark, or the rest of a fill.
* `Command` : a content with a level and a mode.
* `Command.weight`, `stackWeight` : the measure by which the layout ends.
-/

namespace Typeset

/-- How lines are printed. -/
inductive Mode where
  /-- As spaces or nothing. -/
  | flat
  /-- As line breaks. -/
  | broken
  deriving DecidableEq

/-- What a command prints. -/
inductive Content where
  /-- A document. -/
  | doc (d : Doc)
  /-- The end of a part with a mark. -/
  | endMark (a : Mark)
  /-- The rest of a fill: its next item, which is a separator or not, and the items after
  it. -/
  | fillRest (separator : Bool) (item : Doc) (rest : List Doc)

/-- A content with the level and the mode in which it is printed. -/
structure Command where
  /-- The indentation level. -/
  level : Nat
  /-- How lines are printed. -/
  mode : Mode
  /-- What is printed. -/
  content : Content

namespace Doc

mutual

/-- The number of documents inside a document; the items of its lists and the parts with a
mark count twice. -/
def weight : Doc → Nat
  | concat ds | fill ds => 1 + listWeight ds
  | indent d | group d _ | alwaysBreak d => 1 + weight d
  | annotated d _ => 2 + weight d
  | conditional ds d => 1 + (listWeight ds + weight d)
  | nil | lit _ | text _ | line _ | unknown _ => 1

/-- The weight of a list of documents: one more for each of them. -/
def listWeight : List Doc → Nat
  | [] => 0
  | d :: ds => 1 + weight d + listWeight ds

end

theorem weight_lt_of_mem {d : Doc} {ds : List Doc} (h : d ∈ ds) : d.weight < listWeight ds := by
  induction ds with
  | nil => simp at h
  | cons e ds ih =>
    rcases List.mem_cons.mp h with rfl | h
    · simp only [listWeight]; omega
    · have := ih h
      simp only [listWeight]; omega

end Doc

namespace Command

/-- The command that prints a document. -/
def print (level : Nat) (mode : Mode) (d : Doc) : Command := ⟨level, mode, .doc d⟩

/-- The commands that print documents one after the other. -/
def printAll (level : Nat) (mode : Mode) (ds : List Doc) : List Command :=
  ds.map (print level mode)

/-- A measure of the content: the contents that a command puts back on the stack have
together a smaller one. -/
def weight (c : Command) : Nat :=
  match c.content with
  | .doc d => d.weight
  | .endMark _ => 1
  | .fillRest _ item rest => Doc.listWeight (item :: rest)

@[simp]
theorem weight_doc (i : Nat) (m : Mode) (d : Doc) : weight ⟨i, m, .doc d⟩ = d.weight := rfl

@[simp]
theorem weight_endMark (i : Nat) (m : Mode) (a : Mark) :
    weight ⟨i, m, .endMark a⟩ = 1 := rfl

@[simp]
theorem weight_fillRest (i : Nat) (m : Mode) (b : Bool) (d : Doc) (ds : List Doc) :
    weight ⟨i, m, .fillRest b d ds⟩ = 1 + d.weight + Doc.listWeight ds := by
  simp [weight, Doc.listWeight]

@[simp]
theorem weight_print (i : Nat) (m : Mode) (d : Doc) : (print i m d).weight = d.weight := rfl

end Command

/-- The measure of a stack of commands. -/
def stackWeight : List Command → Nat
  | [] => 0
  | c :: cs => c.weight + stackWeight cs

@[simp]
theorem stackWeight_nil : stackWeight [] = 0 := rfl

@[simp]
theorem stackWeight_cons (c : Command) (cs : List Command) :
    stackWeight (c :: cs) = c.weight + stackWeight cs := rfl

@[simp]
theorem stackWeight_append (cs ds : List Command) :
    stackWeight (cs ++ ds) = stackWeight cs + stackWeight ds := by
  induction cs with
  | nil => simp
  | cons c cs ih => simp only [List.cons_append, stackWeight_cons, ih]; omega

/-- The commands for the documents of a list weigh no more than the list. -/
theorem stackWeight_printAll_le (i : Nat) (m : Mode) (ds : List Doc) :
    stackWeight (Command.printAll i m ds) ≤ Doc.listWeight ds := by
  induction ds with
  | nil => simp [Command.printAll]
  | cons d ds ih =>
    rw [Command.printAll] at ih ⊢
    simp only [List.map_cons, stackWeight_cons, Command.weight_print, Doc.listWeight]
    omega

/-- The commands for the rest of a fill: none when no item is left. -/
def fillRestCommands (level : Nat) (mode : Mode) (separator : Bool) : List Doc → List Command
  | [] => []
  | item :: rest => [⟨level, mode, .fillRest separator item rest⟩]

theorem stackWeight_fillRestCommands_le (i : Nat) (m : Mode) (b : Bool) (ds : List Doc) :
    stackWeight (fillRestCommands i m b ds) ≤ Doc.listWeight ds := by
  cases ds <;> simp [fillRestCommands, Command.weight]

namespace Doc

/-- The candidate that a conditional prints when flat: the first one that is not marked as
having to break, or else the first one. -/
def flatCandidate (front : List Doc) (fallback : Doc) : Doc :=
  ((candidates front fallback).find? fun d => !d.isBreaking).getD
    ((candidates front fallback).headD fallback)

theorem flatCandidate_mem (front : List Doc) (fallback : Doc) :
    flatCandidate front fallback ∈ candidates front fallback := by
  rw [flatCandidate]
  cases h : (candidates front fallback).find? fun d => !d.isBreaking with
  | some d => exact List.mem_of_find?_eq_some h
  | none => cases front <;> simp [candidates]

/-- A candidate weighs less than the conditional. -/
theorem weight_lt_of_mem_candidates {front : List Doc} {fallback d : Doc}
    (h : d ∈ candidates front fallback) : d.weight < (conditional front fallback).weight := by
  simp only [candidates, List.mem_append, List.mem_singleton] at h
  rcases h with h | rfl
  · have := weight_lt_of_mem h
    simp only [weight]; omega
  · simp only [weight]; omega

end Doc

end Typeset
