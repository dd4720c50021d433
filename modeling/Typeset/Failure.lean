import Typeset.Highlight.Render
import Typeset.Print.Error
import Typeset.Tree.Sexp.Token
import Typeset.Value

/-!
# Failures

Everything that can keep a request from being answered, and the wording of those failures
that have one.

## Main definitions

* `Failure`, `Failure.message?`.
* `Logged` : the outcome of a job with the records that it made.
-/

namespace Typeset

/-- What can keep a request from being answered. -/
inductive Failure where
  /-- A document could not be built. -/
  | build (e : BuildError)
  /-- A value that is no document was to be normalised or laid out. -/
  | notDocument
  /-- Options are not valid. -/
  | options (e : OptionError)
  /-- Something that is no options was given for them. -/
  | notOptions (given : Scalar)
  /-- A document has no layout. -/
  | layout (e : LayoutError)
  /-- A document cannot be highlighted. -/
  | highlight (e : HighlightError)
  /-- A printed tree is malformed. -/
  | sexp (e : Sexp.Error)
  /-- A tree cannot be printed as a document. -/
  | printing (e : PrintError)
  /-- No node is at the given path. -/
  | noSuchPath
  /-- A span reaches beyond the first line. -/
  | rowOutOfRange
  /-- The indentation level of a line break is not an integer. -/
  | wrongLevel

namespace Failure

/-- The wording of a failure, if it has one. -/
def message? : Failure → Option String
  | build e => e.message?
  | options (.unexpected _) | options (.taken _) | notOptions _ => none
  | options e => some e.message
  | layout e => some e.message
  | sexp .rowOutOfRange => none
  | sexp e => some e.message
  | printing e =>
    match e with
    | .noRule _ _ | .noValueBranch _ _ | .noDocument | .chain _ => some e.message
    | .missingChild | .missingText | .endless => none
  | notDocument | highlight _ | noSuchPath | rowOutOfRange | wrongLevel => none

/-- The failure of highlighted rendering. -/
def ofHighlight : HighlightFailure → Failure
  | .layout e => layout e
  | .highlight e => highlight e

end Failure

/-- The outcome of a job, and the records that it made. -/
structure Logged (α : Type) where
  /-- The records in order. -/
  records : List LogRecord
  /-- The result, or why there is none. -/
  outcome : Except Failure α

namespace Logged

variable {α β : Type}

/-- An outcome without records. -/
def quiet (outcome : Except Failure α) : Logged α := ⟨[], outcome⟩

/-- The job after a record. -/
def after (record : LogRecord) (l : Logged α) : Logged α := ⟨record :: l.records, l.outcome⟩

/-- One job after another. -/
def andThen (x : Logged α) (f : α → Logged β) : Logged β :=
  match x.outcome with
  | .error e => ⟨x.records, .error e⟩
  | .ok a =>
    let y := f a
    ⟨x.records ++ y.records, y.outcome⟩

/-- The job with its result changed. -/
def map (f : α → β) (x : Logged α) : Logged β := ⟨x.records, x.outcome.map f⟩

end Logged

end Typeset
