import Typeset.Number.Shortest
import Typeset.Text.Quoted

/-!
# Scalars

Settings and document parts may be given as untyped values: a text, or one of the foreign
values that are neither texts nor documents. Messages about a value of the wrong sort show
the value and name its sort.

## Main definitions

* `Foreign` : absence, truth values, integers and numbers of double precision.
* `Scalar` : a text or a foreign value.
* `Scalar.written`, `Scalar.sort` : how messages show a value and name its sort.
-/

namespace Typeset

open Number Text

/-- A value that is neither a text nor a document. -/
inductive Foreign where
  /-- The absent value. -/
  | null
  /-- A truth value. -/
  | bool (b : Bool)
  /-- An integer. -/
  | int (n : Int)
  /-- A number of double precision. -/
  | real (x : Double)
  deriving DecidableEq

namespace Foreign

/-- How messages show the value. -/
def written : Foreign → String
  | null => "None"
  | bool true => "True"
  | bool false => "False"
  | int n => toString n
  | real x => x.written

/-- How messages name the sort of the value. -/
def sort : Foreign → String
  | null => "NoneType"
  | bool _ => "bool"
  | int _ => "int"
  | real _ => "float"

end Foreign

/-- A text or a foreign value. -/
inductive Scalar where
  /-- A text. -/
  | text (s : String)
  /-- Any other value. -/
  | foreign (f : Foreign)
  deriving DecidableEq

namespace Scalar

/-- How messages show the value: texts are quoted. -/
def written : Scalar → String
  | text s => quoted s
  | foreign f => f.written

/-- How messages name the sort of the value. -/
def sort : Scalar → String
  | text _ => "str"
  | foreign f => f.sort

end Scalar

end Typeset
