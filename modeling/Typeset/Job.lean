import Typeset.Failure
import Typeset.Modelica.Rules
import Typeset.Print.Stock
import Typeset.Tree.Sexp.Reader

/-!
# Jobs

Whole jobs from what is given to text: normalising, laying out, rendering and highlighting of
values, and the formatting of Modelica trees. A job stops at its first failure; its records
are kept.

## Main definitions

* `Job.render`, `Job.highlight` : values to text.
* `Job.formatTree`, `Job.formatSexp` : Modelica trees to text that ends its last line.
-/

namespace Typeset.Job

/-- Settings of options by name. -/
abbrev Settings := List (String × Scalar)

/-- The document of a value. -/
def document : Value → Except Failure Doc
  | .doc d => .ok d
  | .foreign _ => .error .notDocument

/-- The normal form of a value, and whether normalising it once more changes nothing. -/
def normalize (v : Value) : Except Failure (Doc × Bool) := do
  let d := (← document v).normalize
  return (d, decide (d.normalize = d))

/-- A whole number given as a setting of a page, where truth values count as numbers. -/
def measureOf (key : String) : Scalar → Except Failure Int
  | .foreign (.int n) => .ok n
  | .foreign (.bool b) => .ok b.toInt
  | _ => .error (.options (.unexpected key))

/-- The page with settings of its measures. -/
def pageOf : Page → Settings → Except Failure Page
  | page, [] => .ok page
  | page, (key, value) :: settings => do
    match key with
    | "width" => pageOf { page with width := ← measureOf key value } settings
    | "indent_width" => pageOf { page with indentWidth := ← measureOf key value } settings
    | _ => throw (.options (.unexpected key))

/-- The items of a value laid out on a page. -/
def layOut (page : Page) (v : Value) : Except Failure (List Item) := do
  (layout page (← document v)).result.mapError .layout

/-- Options given as a mapping, or the usual ones. -/
def baseOptions : Option Settings → Except Failure Options
  | none => .ok .usual
  | some settings => (Options.ofMapping settings).mapError .options

/-- Overrides none of which has the name of an argument of the job. -/
def untaken (names : List String) (overrides : Settings) : Except Failure Unit :=
  (Options.untaken names overrides).mapError .options

/-- Options with overrides. -/
def override (base : Options) (overrides : Settings) : Except Failure Options :=
  (base.override overrides).mapError .options

/-- The text of a value, without a record. -/
def renderQuietly (base : Options) (overrides : Settings) (v : Value) : Except Failure String := do
  untaken ["stream", "doc", "options"] overrides
  let o ← override base overrides
  (renderDoc o (← document v)).mapError .layout

/-- The text of a value. -/
def render (base : Options) (overrides : Settings) (v : Value) : Logged String :=
  let options : Except Failure Options := do
    untaken ["doc", "options"] overrides
    override base overrides
  (Logged.quiet options).andThen fun o =>
    (Logged.quiet (do (renderDoc o (← document v)).mapError .layout)).andThen fun s =>
      ⟨[renderedRecord o s], .ok s⟩

/-- Without overrides a document is rendered under the given options. -/
theorem render_of_renderDoc {o : Options} {d : Doc} {s : String} (h : renderDoc o d = .ok s) :
    (render o [] (.doc d)).outcome = .ok s := by
  show (((Logged.quiet ((renderDoc o d).mapError .layout)).andThen fun s =>
    ⟨[renderedRecord o s], .ok s⟩).outcome : Except Failure String) = _
  rw [h]
  rfl

/-- Options given as a value by themselves: only the absent value stands for any. -/
def optionsOfScalar : Scalar → Except Failure Options
  | .foreign .null => .ok .usual
  | v => .error (.notOptions v)

/-- The text of a value at a print width. Options may be given among the overrides. -/
def renderAtWidth (overrides : Settings) (width : Scalar) (v : Value) : Logged String :=
  let base : Except Failure Options := do
    untaken ["doc", "print_width"] overrides
    optionsOfScalar ((overrides.lookup "options").getD (.foreign .null))
  (Logged.quiet base).andThen fun base =>
    render base (overrides.filter (·.1 ≠ "options") ++ [("print_width", width)]) v

/-- The highlighted text of a value, with the styles that have names and the codes of a style. -/
def highlight (styles : Catalogue) (palette : Style → Palette) (base : Options)
    (overrides : Settings) (choice : StyleChoice) (v : Value) : Except Failure String := do
  untaken ["doc", "options", "style"] overrides
  let o ← override base overrides
  let style ← (choice.resolve styles).mapError .highlight
  (highlightDoc o (palette style) (← document v)).mapError .ofHighlight

/-- Without overrides a document is highlighted under the given options. -/
theorem highlight_of_highlightDoc {styles : Catalogue} {palette : Style → Palette} {o : Options}
    {choice : StyleChoice} {style : Style} {d : Doc} {s : String}
    (hstyle : choice.resolve styles = .ok style)
    (h : highlightDoc o (palette style) d = .ok s) :
    highlight styles palette o [] choice (.doc d) = .ok s := by
  show ((choice.resolve styles).mapError Failure.highlight >>= fun style =>
    (highlightDoc o (palette style) d).mapError Failure.ofHighlight) = _
  rw [hstyle]
  show (highlightDoc o (palette style) d).mapError Failure.ofHighlight = _
  rw [h]
  rfl

/-- The highlighted text of a list of items. -/
def highlightStream (styles : Catalogue) (palette : Style → Palette) (choice : StyleChoice)
    (sp : Spelling) (items : List Item) : Except Failure String := do
  let style ← (choice.resolve styles).mapError .highlight
  (highlightItems (palette style) sp items).mapError .highlight

/-- The document of a Modelica tree. -/
def printTree (n : Node) : Logged Doc :=
  match Modelica.print n with
  | .error e => .quiet (.error (.printing e))
  | .ok (d, record) => ⟨[record], .ok d⟩

/-- The text with its last line ended. -/
def endLine (s : String) : String := if s.toList.getLast? = some '\n' then s else s.push '\n'

/-- The text of a Modelica tree. -/
def formatTree (base : Options) (overrides : Settings) (n : Node) : Logged String :=
  (Logged.quiet (untaken ["root", "options"] overrides)).andThen fun _ =>
    ((printTree n).andThen fun d => render base overrides (.doc d)).map endLine

/-- The tree that a text prints over a source. -/
def readTree (s source : String) : Except Failure Node := (Sexp.read s source).mapError .sexp

/-- The record of a tree with errors or missing nodes. -/
def damageRecords (n : Node) : List LogRecord :=
  match n.countDamage with
  | (0, 0) => []
  | (errors, missing) => [.damaged errors missing]

/-- The text of a Modelica tree that is given in print over its source. -/
def formatSexp (base : Options) (overrides : Settings) (s source : String) : Logged String :=
  let tree : Except Failure Node := do
    untaken ["sexp", "source", "options"] overrides
    readTree s source
  (Logged.quiet tree).andThen fun n =>
    (Logged.mk (damageRecords n) (.ok n)).andThen (formatTree base overrides)

/-- The value of a tree printed by stock rules under a policy. -/
def printStock {κ : Type} [DecidableEq κ] (P : Policy κ)
    (operatorOf : Node → Except PrintError String) (rules : RuleTable StockRule)
    (n : Node) : Logged Value :=
  match printNode (rules.map (StockRule.rule P operatorOf)) n with
  | .error e => .quiet (.error (.printing e))
  | .ok (d, record) => ⟨[record], .ok (d.elim (.foreign .null) .doc)⟩

end Typeset.Job
