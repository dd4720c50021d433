import Typeset.Proofs.Modelica.BuildingRules
import Typeset.Proofs.SteadyCombinators

/-!
# The Modelica rules print steady documents

What the combinators build from steady documents is steady, and every rule builds its document by
combinators. So whatever a tree is printed as is steady, and its ink is the same in all layouts.

## Main definitions

* `PrintsSteady` : every document that a computation yields is steady.

## Main results

* `isSteady_of_print` : the document of a tree is steady.
-/

namespace Typeset

open Doc Printing

/-- What is built from steady documents is steady. -/
theorem Doc.Built.isSteady {d : Doc} (h : Built (fun d => d.isSteady = true) d) :
    d.isSteady = true := by
  induction h with
  | part h => exact h
  | lit | line => rfl
  | cat _ ih => simpa using ih
  | nested _ ih => simpa using ih
  | grouped _ ih => simpa using ih
  | annotate _ _ ih => simpa using ih
  | filled _ ih => simpa using ih
  | hug _ ih => rw [isSteady_hug rfl rfl, ih]

namespace Modelica

/-- Every document that the computation yields is steady. -/
abbrev PrintsSteady (x : Printing Doc) : Prop := x.Yields fun d => d.isSteady = true

/-- Whatever is printed at a path is steady. -/
theorem printsSteady_printPath (p : Path) : PrintsSteady (printPath rules p) := by
  refine yields_printPath (P := fun _ d => Doc.isSteady d = true) (fun p rule hrule hbelow => ?_) p
  by_cases hcomment : p.node.kind = "comment"
  · obtain rfl := rule_of_comment hcomment hrule
    exact .pure (isSteady_token _ _)
  · refine (builds_rules hrule hcomment fun c _ => (hbelow c).mono fun _ hd => .part hd).mono ?_
    exact fun _ hd => hd.isSteady

/-- The document of a tree is steady. -/
theorem isSteady_of_print {n : Node} {d : Doc} {record : LogRecord}
    (h : print n = .ok (d, record)) : d.isSteady = true := by
  rw [print, printNode] at h
  split at h
  · cases h
  · next d' count hd =>
    cases h
    exact printsSteady_printPath (.root n) d count hd

end Modelica

end Typeset
