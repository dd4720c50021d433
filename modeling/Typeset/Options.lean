import Typeset.Layout.Run
import Typeset.Scalar

/-!
# Format options

The width that lines should keep to, the columns of an indentation level and whether levels
are spelled as tabs. Both widths are positive.

Options are given as named settings of untyped values. A mapping may spell a name in snake
case or in camel case and fails at its first unknown name; overrides of given options are
spelled in snake case and name all unknown ones at once, sorted. Overrides are named
arguments, so none of them may have the name of an argument beside them. Values are checked
in the order of the fields.

## Main definitions

* `Options` : valid options.
* `OptionError`, `OptionError.message` : what can be wrong with settings.
* `Options.ofSettings`, `Options.ofMapping`, `Options.override` : the ways to give options.
-/

namespace Typeset

open Text

/-- Valid format options. -/
structure Options where
  /-- The number of columns that lines should not exceed. -/
  printWidth : Nat := 80
  /-- The columns of one indentation level, also where it is spelled as a tab. -/
  indentWidth : Nat := 2
  /-- Whether an indentation level is spelled as one tab. -/
  useTabs : Bool := false
  /-- The print width is positive. -/
  printWidth_pos : 0 < printWidth := by decide
  /-- The indent width is positive. -/
  indentWidth_pos : 0 < indentWidth := by decide
  deriving DecidableEq

/-- The name of an option. -/
inductive OptionName where
  | printWidth
  | indentWidth
  | useTabs
  deriving DecidableEq

namespace OptionName

/-- The name in snake case. -/
def snake : OptionName → String
  | printWidth => "print_width"
  | indentWidth => "indent_width"
  | useTabs => "use_tabs"

/-- The name in camel case. -/
def camel : OptionName → String
  | printWidth => "printWidth"
  | indentWidth => "indentWidth"
  | useTabs => "useTabs"

/-- All names in the order of the fields. -/
def all : List OptionName := [printWidth, indentWidth, useTabs]

/-- The option with a name in snake case. -/
def ofSnake? (s : String) : Option OptionName := all.find? (·.snake = s)

/-- The option with a name in snake case or in camel case. -/
def ofEither? (s : String) : Option OptionName := all.find? fun n => n.snake = s || n.camel = s

end OptionName

/-- What can be wrong with settings. -/
inductive OptionError where
  /-- A mapping has an unknown name. -/
  | unknown (key : String)
  /-- Overrides have unknown names. -/
  | unknownAll (keys : List String)
  /-- Options are made with a name that they do not have. -/
  | unexpected (key : String)
  /-- An override has the name of an argument beside it. -/
  | taken (key : String)
  /-- A width is not an integer. -/
  | notInteger (name : OptionName) (value : Scalar)
  /-- A width is not positive. -/
  | notPositive (name : OptionName) (value : Int)
  /-- A switch is not a truth value. -/
  | notTruth (name : OptionName) (value : Scalar)

/-- The wording of an error. -/
def OptionError.message : OptionError → String
  | unknown key => "Unknown format option " ++ quoted key
  | unknownAll keys => "Unknown format option(s): " ++ String.intercalate ", " keys
  | unexpected key => "Unexpected option " ++ quoted key
  | taken key => "Name given twice " ++ quoted key
  | notInteger name value =>
    "Got " ++ value.written ++ " of type " ++ value.sort ++ " for " ++ name.snake ++
      ", expected 'int'"
  | notPositive name value =>
    name.snake ++ " must be positive, got " ++ toString value
  | notTruth name value =>
    "Got " ++ value.written ++ " of type " ++ value.sort ++ " for " ++ name.snake ++
      ", expected 'bool'"

/-- A positive integer given as a setting. A truth value is not an integer. -/
def positiveSetting (name : OptionName) (value : Scalar) :
    Except OptionError { n : Nat // 0 < n } :=
  match value with
  | .foreign (.int n) =>
    if h : 0 < n then .ok ⟨n.toNat, by omega⟩ else .error (.notPositive name n)
  | _ => .error (.notInteger name value)

/-- A truth value given as a setting. -/
def truthSetting (name : OptionName) (value : Scalar) : Except OptionError Bool :=
  match value with
  | .foreign (.bool b) => .ok b
  | _ => .error (.notTruth name value)

namespace Options

/-- The options that are used when none are given. -/
def usual : Options := {}

/-- The value that the settings give for a name: the last one counts. -/
def setting? (settings : List (OptionName × Scalar)) (name : OptionName) : Option Scalar :=
  settings.reverse.lookup name

/-- The options with some of them set anew. -/
def ofSettings (base : Options) (settings : List (OptionName × Scalar)) :
    Except OptionError Options := do
  let printWidth ← match setting? settings .printWidth with
    | some v => positiveSetting .printWidth v
    | none => pure ⟨base.printWidth, base.printWidth_pos⟩
  let indentWidth ← match setting? settings .indentWidth with
    | some v => positiveSetting .indentWidth v
    | none => pure ⟨base.indentWidth, base.indentWidth_pos⟩
  let useTabs ← match setting? settings .useTabs with
    | some v => truthSetting .useTabs v
    | none => pure base.useTabs
  return { printWidth := printWidth.1, indentWidth := indentWidth.1, useTabs := useTabs,
           printWidth_pos := printWidth.2, indentWidth_pos := indentWidth.2 }

/-- The settings with their names resolved; the first name that is not known fails. -/
def resolveNames (name? : String → Option OptionName) (fail : String → OptionError)
    (settings : List (String × Scalar)) : Except OptionError (List (OptionName × Scalar)) :=
  settings.mapM fun (key, value) =>
    match name? key with
    | some name => .ok (name, value)
    | none => .error (fail key)

/-- Options made from settings with names in snake case. -/
def make (settings : List (String × Scalar)) : Except OptionError Options := do
  ofSettings usual (← resolveNames OptionName.ofSnake? .unexpected settings)

/-- Options from a mapping with names in either case. -/
def ofMapping (settings : List (String × Scalar)) : Except OptionError Options := do
  ofSettings usual (← resolveNames OptionName.ofEither? .unknown settings)

/-- Settings none of which has a taken name; the first one that has fails. -/
def untaken (names : List String) (settings : List (String × Scalar)) :
    Except OptionError Unit :=
  match settings.find? (names.contains ·.1) with
  | some (key, _) => .error (.taken key)
  | none => .ok ()

/-- The name of the options that are overridden, as an argument beside the overrides. -/
def receiver : String := "self"

/-- The options with overrides whose names are in snake case. -/
def override (base : Options) (settings : List (String × Scalar)) :
    Except OptionError Options := do
  untaken [receiver] settings
  let unknown := (settings.map (·.1)).filter fun key => (OptionName.ofSnake? key).isNone
  if unknown.isEmpty then
    ofSettings base (← resolveNames OptionName.ofSnake? .unknown settings)
  else throw (.unknownAll (unknown.mergeSort (fun a b => decide (a ≤ b))))

/-- The spelling of one indentation level. -/
def indentUnit (o : Options) : String :=
  if o.useTabs then "\t" else String.ofList (List.replicate o.indentWidth ' ')

/-- The page that a document is laid out for. -/
def page (o : Options) : Page := ⟨o.printWidth, o.indentWidth⟩

/-- How options are shown. -/
def written (o : Options) : String :=
  "FormatOptions(print_width=" ++ toString o.printWidth ++ ", indent_width=" ++
    toString o.indentWidth ++ ", use_tabs=" ++ (Foreign.bool o.useTabs).written ++ ")"

end Options

end Typeset
