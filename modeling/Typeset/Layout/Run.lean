import Typeset.Layout.Fits
import Typeset.Layout.Item
import Typeset.Outcome

/-!
# Laying out a document

The layout carries out commands from a stack, the next one first, starting with the
normalised document broken at level zero. A group is printed flat when it fits together with
what trails on its line, and broken otherwise; of the candidates of a conditional the first
one that fits is taken. A fill decides its items one at a time, when they are reached, so
that each decision sees the actual column. Content that does not fit is printed broken and
may run over the width.

## Main definitions

* `Page` : the width to keep to and the columns of an indentation level.
* `Step` : what carrying out one command yields.
* `step` : carries out one command.
* `Layout` : the items emitted, and the error that stopped the layout, if any.
* `layout` : lays out a document.

## Main results

* `stackWeight_step_lt` : a command puts back less than itself, so the layout ends.
-/

namespace Typeset

open Text

/-- The measures of the page. -/
structure Page where
  /-- The number of columns that lines should not exceed. -/
  width : Int := 80
  /-- The columns of one indentation level. -/
  indentWidth : Int := 2

/-- What carrying out a command yields. -/
structure Step where
  /-- The items emitted. -/
  items : List Item
  /-- The column after them. -/
  column : Int
  /-- The commands put in front of the stack. -/
  commands : List Command

/-- The column after a text printed at a column. -/
def columnAfter (column : Int) (cs : List Char) : Int :=
  if breaks cs then width (lastLine cs) else column + width cs

/-- Printing a text: the empty text emits nothing. -/
def printText (column : Int) (s : String) : Step :=
  if s.isEmpty then ⟨[], column, []⟩ else ⟨[.text s], columnAfter column s.toList, []⟩

/-- Printing a line. -/
def printLine (page : Page) (column : Int) (level : Nat) (mode : Mode) (kind : LineKind) :
    Step :=
  match mode, kind with
  | .flat, .soft => ⟨[.text " "], column + 1, []⟩
  | .flat, .empty => ⟨[], column, []⟩
  | _, .literal => ⟨[.line 0], 0, []⟩
  | _, _ => ⟨[.line level], level * page.indentWidth, []⟩

/-- The command for a group that may be flat. -/
def chooseGroup (remaining : Int) (level : Nat) (body : Doc) (rest : List Command) :
    Except LayoutError Command := do
  let flat := Command.print level .flat body
  return if ← fits false remaining (flat :: rest) then flat else .print level .broken body

/-- The command for the first candidate that fits flat, or for the fallback. -/
def chooseCandidate (remaining : Int) (level : Nat) (fallback : Doc) (rest : List Command) :
    List Doc → Except LayoutError Command
  | [] => return .print level .broken fallback
  | d :: ds => do
    let flat := Command.print level .flat d
    if ← fits false remaining (flat :: rest) then return flat
    else chooseCandidate remaining level fallback rest ds

/-- What is measured to decide an item of a fill: the item alone, or a separator with the
first line of the content after it. -/
def fillMeasured (level : Nat) (separator : Bool) (item : Doc) (rest : List Doc) :
    List Command :=
  .print level .flat item ::
    if separator then (rest.take 1).map (.print level .broken) else []

/-- The commands for the next item of a fill and for the items after it. -/
def fillCommands (remaining : Int) (level : Nat) (separator : Bool) (item : Doc)
    (rest : List Doc) : Except LayoutError (List Command) := do
  let flat ← fits (!separator) remaining (fillMeasured level separator item rest)
  return .print level (if flat then .flat else .broken) item ::
    fillRestCommands level .broken (!separator) rest

/-- Carries out the command `c` at a column; `rest` is the stack below it. -/
def step (page : Page) (column : Int) (c : Command) (rest : List Command) :
    Except LayoutError Step :=
  let silent (commands : List Command) : Step := ⟨[], column, commands⟩
  let remaining := page.width - column
  let level := c.level
  match c.content with
  | .endMark a => return ⟨[.pop a], column, []⟩
  | .fillRest separator item after => do
    return silent (← fillCommands remaining level separator item after)
  | .doc d =>
    match d with
    | .nil => return silent []
    | .lit s | .text s => return printText column s
    | .line kind => return printLine page column level c.mode kind
    | .concat ds => return silent (Command.printAll level c.mode ds)
    | .indent d => return silent [.print (level + 1) c.mode d]
    | .annotated d a =>
      return ⟨[.push a], column, [.print level c.mode d, ⟨level, c.mode, .endMark a⟩]⟩
    | .alwaysBreak d => return silent [.print level .broken d]
    | .group d forced =>
      match forced, c.mode with
      | true, _ => return silent [.print level .broken d]
      | false, .flat => return silent [.print level .flat d]
      | false, .broken => return silent [← chooseGroup remaining level d rest]
    | .conditional front fallback =>
      match c.mode with
      | .flat => return silent [.print level .flat (Doc.flatCandidate front fallback)]
      | .broken => return silent [← chooseCandidate remaining level fallback rest front]
    | .fill ds =>
      match c.mode, ds with
      | .flat, ds => return silent (Command.printAll level .flat ds)
      | .broken, [] => return silent []
      | .broken, item :: after => do
        return silent (← fillCommands remaining level false item after)
    | .unknown sort => throw ⟨sort⟩

/-- The items that a layout emitted, and the error that stopped it, if any. -/
structure Layout where
  /-- The items emitted. -/
  items : List Item
  /-- The error that stopped the layout. -/
  failure : Option LayoutError

namespace Layout

/-- The layout with items in front. -/
def prepend (items : List Item) (l : Layout) : Layout := ⟨items ++ l.items, l.failure⟩

/-- The items of a layout that was not stopped. -/
def result (l : Layout) : Except LayoutError (List Item) :=
  match l.failure with
  | none => .ok l.items
  | some e => .error e

end Layout

private theorem weight_chooseGroup {remaining : Int} {level : Nat} {d : Doc}
    {rest : List Command} {c : Command} (h : chooseGroup remaining level d rest = .ok c) :
    c.weight = d.weight := by
  simp only [chooseGroup, bind_eq_ok_iff] at h
  obtain ⟨b, -, h⟩ := h
  cases b <;> cases h <;> rfl

private theorem weight_chooseCandidate {remaining : Int} {level : Nat} {fallback : Doc}
    {rest : List Command} {ds : List Doc} {c : Command}
    (h : chooseCandidate remaining level fallback rest ds = .ok c) :
    c.weight ≤ Doc.listWeight ds + fallback.weight := by
  induction ds with
  | nil => cases h; simp
  | cons d ds ih =>
    simp only [chooseCandidate, bind_eq_ok_iff] at h
    obtain ⟨b, -, h⟩ := h
    cases b with
    | true => cases h; simp only [Command.weight_print, Doc.listWeight]; omega
    | false => have := ih h; simp only [Doc.listWeight]; omega

private theorem weight_fillCommands {remaining : Int} {level : Nat} {b : Bool} {d : Doc}
    {ds : List Doc} {cs : List Command} (h : fillCommands remaining level b d ds = .ok cs) :
    stackWeight cs < 1 + d.weight + Doc.listWeight ds := by
  simp only [fillCommands, bind_eq_ok_iff] at h
  obtain ⟨flat, -, h⟩ := h
  cases h
  have := stackWeight_fillRestCommands_le level .broken (!b) ds
  simp only [stackWeight_cons, Command.weight_print]
  omega

private theorem weight_printText_lt (column : Int) (s : String) :
    stackWeight (printText column s).commands < 1 := by
  simp only [printText]
  split <;> simp

/-- A command puts back less than itself. -/
theorem stackWeight_step_lt {page : Page} {column : Int} {c : Command} {rest : List Command}
    {s : Step} (h : step page column c rest = .ok s) : stackWeight s.commands < c.weight := by
  obtain ⟨level, mode, content⟩ := c
  cases content with
  | endMark a => cases h; simp
  | fillRest b d ds =>
    obtain ⟨cs, hcs, h⟩ := bind_eq_ok_iff.mp h
    cases h
    simpa using weight_fillCommands hcs
  | doc d =>
    rw [Command.weight_doc]
    cases d with
    | nil => cases h; simp [Doc.weight]
    | lit s => cases h; exact weight_printText_lt column s
    | text s => cases h; exact weight_printText_lt column s
    | line kind => cases h; cases mode <;> cases kind <;> simp [printLine, Doc.weight]
    | concat ds =>
      cases h
      have := stackWeight_printAll_le level mode ds
      simp only [Doc.weight]; omega
    | indent d => cases h; simp [Doc.weight]
    | annotated d a => cases h; simp only [Doc.weight]; simp; omega
    | alwaysBreak d => cases h; simp [Doc.weight]
    | group d forced =>
      cases forced with
      | true => cases h; simp [Doc.weight]
      | false =>
        cases mode with
        | flat => cases h; simp [Doc.weight]
        | broken =>
          obtain ⟨c, hc, h⟩ := bind_eq_ok_iff.mp h
          cases h
          simp [Doc.weight, weight_chooseGroup hc]
    | conditional front fallback =>
      cases mode with
      | flat =>
        cases h
        simpa using Doc.weight_lt_of_mem_candidates (Doc.flatCandidate_mem front fallback)
      | broken =>
        obtain ⟨c, hc, h⟩ := bind_eq_ok_iff.mp h
        cases h
        have := weight_chooseCandidate hc
        simp [Doc.weight]; omega
    | fill ds =>
      cases mode with
      | flat =>
        cases h
        have := stackWeight_printAll_le level .flat ds
        simp only [Doc.weight]; omega
      | broken =>
        cases ds with
        | nil => cases h; simp [Doc.weight, Doc.listWeight]
        | cons d ds =>
          obtain ⟨cs, hcs, h⟩ := bind_eq_ok_iff.mp h
          cases h
          have := weight_fillCommands hcs
          simp only [Doc.weight, Doc.listWeight]; omega
    | unknown sort => cases h

/-- Carries out the commands of a stack, starting at a column. -/
def run (page : Page) (column : Int) : List Command → Layout
  | [] => ⟨[], none⟩
  | c :: rest =>
    match _h : step page column c rest with
    | .error e => ⟨[], some e⟩
    | .ok s => (run page s.column (s.commands ++ rest)).prepend s.items
termination_by cs => stackWeight cs
decreasing_by
  have := stackWeight_step_lt _h
  simp only [stackWeight_append, stackWeight_cons]
  omega

/-- Lays out a document. -/
def layout (page : Page) (d : Doc) : Layout := run page 0 [.print 0 .broken d.normalize]

end Typeset
