import Typeset.Doc.Basic

/-!
# Normal documents

Normalising a document splices nested concatenations, drops empty parts and carries forced
breaks outwards: a document that has to break becomes an `alwaysBreak` whose body no longer
says so, and a group around it disappears. Each document is rebuilt from its normalised
parts.

`Doc.normalize` walks the document with an explicit stack and so needs no deep recursion;
`Doc.normal` is the same by recursion on the document. `Doc.mustBreak` says beforehand which
documents have to break.

## Main definitions

* `Doc.parts`, `Doc.rebuild` : the direct parts of a document, and the document rebuilt from
  parts in normal form.
* `Doc.normal` : the normal form by structural recursion.
* `Doc.visit`, `Doc.walk` : one task of a post-order walk, and the walk.
* `Doc.normalize` : the normal form by the walk.
* `Doc.mustBreak` : the documents that cannot be printed flat.
-/

namespace Typeset.Doc

/-- Whether the document is marked as having to break. -/
def isBreaking : Doc → Bool
  | alwaysBreak _ => true
  | _ => false

/-- Whether the document is an empty one that a concatenation drops. -/
def isEmpty : Doc → Bool
  | nil => true
  | lit s => s.isEmpty
  | _ => false

/-- What a normalised part contributes to a concatenation of normalised parts. -/
def spliced : Doc → List Doc
  | concat ds => ds
  | alwaysBreak (concat ds) => ds
  | alwaysBreak d => [d]
  | d => if d.isEmpty then [] else [d]

/-- The concatenation of parts none of which is spliced: of no part it is empty, of one part
it is that part. -/
def joined : List Doc → Doc
  | [] => nil
  | [d] => d
  | ds => concat ds

/-- The document with a mark that it has to break, if `b`. -/
def breakingIf (b : Bool) (d : Doc) : Doc := if b then alwaysBreak d else d

/-- A concatenation of normalised parts, normalised. -/
def rebuildConcat (ds : List Doc) : Doc :=
  breakingIf (ds.any isBreaking) (joined (ds.flatMap spliced))

/-- A normalised body under a constructor that lets the mark of a forced break out. -/
def liftBreak (wrap : Doc → Doc) : Doc → Doc
  | alwaysBreak d => alwaysBreak (wrap d)
  | d => wrap d

/-- A normalised body in a group, normalised: a body that has to break needs no group. -/
def rebuildGroup (forced : Bool) : Doc → Doc
  | alwaysBreak d => alwaysBreak d
  | d => group d forced

/-- A normalised body that has to break, normalised. -/
def rebuildBreak : Doc → Doc
  | alwaysBreak d => alwaysBreak d
  | d => alwaysBreak d

/-- A fill of normalised items, normalised. -/
def rebuildFill (ds : List Doc) : Doc := breakingIf (ds.any isBreaking) (fill ds)

/-- A conditional of normalised candidates, normalised. A forced break in some of the
candidates stays with them; only when no candidate can be flat does the whole have to
break. -/
def rebuildConditional (front : List Doc) (fallback : Doc) : Doc :=
  breakingIf ((candidates front fallback).all isBreaking) (conditional front fallback)

/-- A text node, normalised. -/
def rebuildText (s : String) : Doc := if s.isEmpty then nil else text s

/-- A line, normalised. -/
def rebuildLine (k : LineKind) : Doc := breakingIf k.forcesBreak (line k)

mutual

/-- The normal form of a document. -/
def normal : Doc → Doc
  | nil => nil
  | lit s => lit s
  | text s => rebuildText s
  | line k => rebuildLine k
  | concat ds => rebuildConcat (normalAll ds)
  | indent d => liftBreak indent (normal d)
  | annotated d a => liftBreak (annotated · a) (normal d)
  | group d b => rebuildGroup b (normal d)
  | alwaysBreak d => rebuildBreak (normal d)
  | fill ds => rebuildFill (normalAll ds)
  | conditional ds d => rebuildConditional (normalAll ds) (normal d)
  | unknown s => unknown s

/-- The normal forms of the documents of a list. -/
def normalAll : List Doc → List Doc
  | [] => []
  | d :: ds => normal d :: normalAll ds

end

theorem normalAll_eq_map (ds : List Doc) : normalAll ds = ds.map normal := by
  induction ds with
  | nil => rfl
  | cons d ds ih => simp [normalAll, ih]

mutual

/-- The documents that cannot be printed flat. A forced group on its own can. -/
def mustBreak : Doc → Bool
  | line k => k.forcesBreak
  | alwaysBreak _ => true
  | concat ds => anyMustBreak ds
  | fill ds => anyMustBreak ds
  | indent d => mustBreak d
  | annotated d _ => mustBreak d
  | group d _ => mustBreak d
  | conditional ds d => allMustBreak ds && mustBreak d
  | nil | lit _ | text _ | unknown _ => false

/-- Some document of the list cannot be printed flat. -/
def anyMustBreak : List Doc → Bool
  | [] => false
  | d :: ds => mustBreak d || anyMustBreak ds

/-- No document of the list can be printed flat. -/
def allMustBreak : List Doc → Bool
  | [] => true
  | d :: ds => mustBreak d && allMustBreak ds

end

/-! ### The walk with an explicit stack -/

/-- The direct parts of a document. -/
def parts : Doc → List Doc
  | concat ds | fill ds => ds
  | indent d | annotated d _ | group d _ | alwaysBreak d => [d]
  | conditional ds d => candidates ds d
  | nil | lit _ | text _ | line _ | unknown _ => []

/-- The document rebuilt, in normal form, from normal forms of its direct parts. A document
of one part keeps that part if none is given. -/
def rebuild : Doc → List Doc → Doc
  | text s, _ => rebuildText s
  | line k, _ => rebuildLine k
  | concat _, ds => rebuildConcat ds
  | indent d, ds => liftBreak indent (ds.headD d)
  | annotated d a, ds => liftBreak (annotated · a) (ds.headD d)
  | group d b, ds => rebuildGroup b (ds.headD d)
  | alwaysBreak d, ds => rebuildBreak (ds.headD d)
  | fill _, ds => rebuildFill ds
  | conditional _ d, ds => rebuildConditional ds.dropLast (ds.getLastD d)
  | nil, _ => nil
  | lit s, _ => lit s
  | unknown s, _ => unknown s

/-- A task of the walk. -/
inductive Visit where
  /-- Normalise the document. -/
  | enter (d : Doc)
  /-- Rebuild the document from the normal forms of its parts. -/
  | leave (d : Doc)

/-- The normal forms of the parts of a document, as they are taken from the top of the results
and put in order. -/
def taken (d : Doc) (done : List Doc) : List Doc := (done.take d.parts.length).reverse

/-- Does a task, with the normal forms not yet used in `done`, the latest one first: the tasks
that it puts on the stack, the next one first, and the normal forms after it. A plain text is
its own normal form and is not visited a second time. -/
def visit (done : List Doc) : Visit → List Visit × List Doc
  | .enter (lit s) => ([], lit s :: done)
  | .enter d => (d.parts.map .enter ++ [.leave d], done)
  | .leave d => ([], d.rebuild (d.taken done) :: done.drop d.parts.length)

theorem eq_lit_or_ne (d : Doc) : (∃ s, d = lit s) ∨ ∀ s, d ≠ lit s := by
  cases d <;> simp

theorem visit_enter {d : Doc} (h : ∀ s, d ≠ lit s) (done : List Doc) :
    visit done (.enter d) = (d.parts.map .enter ++ [.leave d], done) := by
  cases d with
  | lit s => exact absurd rfl (h s)
  | _ => rfl

mutual

/-- How many tasks the walk does for a document: one for a plain text, and for any other
document one before and one after those for its parts. -/
def visits : Doc → Nat
  | lit _ => 1
  | concat ds | fill ds => 2 + visitsAll ds
  | indent d | annotated d _ | group d _ | alwaysBreak d => 2 + visits d
  | conditional ds d => 2 + (visitsAll ds + visits d)
  | nil | text _ | line _ | unknown _ => 2

/-- How many tasks the walk does for the documents of a list. -/
def visitsAll : List Doc → Nat
  | [] => 0
  | d :: ds => visits d + visitsAll ds

end

theorem visitsAll_append (ds es : List Doc) :
    visitsAll (ds ++ es) = visitsAll ds + visitsAll es := by
  induction ds with
  | nil => simp [visitsAll]
  | cons d ds ih => simp only [List.cons_append, visitsAll, ih]; omega

theorem visits_eq {d : Doc} (h : ∀ s, d ≠ lit s) : d.visits = 2 + visitsAll d.parts := by
  cases d with
  | lit s => exact absurd rfl (h s)
  | _ => simp [visits, parts, candidates, visitsAll, visitsAll_append]

/-- How many tasks the walk does for the tasks on its stack. -/
def cost : List Visit → Nat
  | [] => 0
  | .enter d :: stack => d.visits + cost stack
  | .leave _ :: stack => 1 + cost stack

theorem cost_enter_append (ds : List Doc) (stack : List Visit) :
    cost (ds.map .enter ++ stack) = visitsAll ds + cost stack := by
  induction ds with
  | nil => simp [visitsAll]
  | cons d ds ih => simp only [List.map_cons, List.cons_append, cost, visitsAll, ih]; omega

/-- Doing a task leaves one task less to do. -/
theorem cost_visit (done : List Doc) (v : Visit) (stack : List Visit) :
    cost ((visit done v).1 ++ stack) + 1 = cost (v :: stack) := by
  cases v with
  | leave d => simp only [visit, List.nil_append, cost]; omega
  | enter d =>
    obtain ⟨s, rfl⟩ | h := d.eq_lit_or_ne
    · simp only [visit, visits, List.nil_append, cost]
      omega
    · rw [visit_enter h, List.append_assoc, cost_enter_append, cost, visits_eq h]
      simp only [List.cons_append, List.nil_append, cost]
      omega

/-- The walk: it does the tasks of `stack`, the next one first, until none is left. `done` holds
the normal forms not yet used, the latest one first. -/
def walk : List Visit → List Doc → List Doc
  | [], done => done
  | v :: stack, done => walk ((visit done v).1 ++ stack) (visit done v).2
termination_by stack => cost stack
decreasing_by
  have := cost_visit done v stack
  omega

/-- The normal form of a document. -/
def normalize (d : Doc) : Doc := (walk [.enter d] []).headD d

end Typeset.Doc
