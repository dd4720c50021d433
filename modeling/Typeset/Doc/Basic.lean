import Typeset.Highlight.TokenClass

/-!
# Documents

A document is a text with choices of where to break its lines. `Doc` is its type; the layout
decides the choices for a page width.

A plain text and a text node print alike, and so do the empty text and the empty document,
but they stay different documents. A document of an unknown sort can be built and
normalised; it has no layout.

## Main definitions

* `LineKind` : what a line prints flat and broken.
* `Mark` : a mark on a part of a document that prints nothing by itself.
* `Doc` : documents.

## Main results

* `Doc.inductionOn` : induction on documents, with the hypothesis for every part.
* `Doc.same_iff` : equality of documents is decidable.
-/

namespace Typeset

/-- What a line prints. -/
inductive LineKind where
  /-- A space when flat, a line break when broken. -/
  | soft
  /-- Nothing when flat, a line break when broken. -/
  | empty
  /-- Always a line break, followed by the indentation. -/
  | hard
  /-- Always a line break, never indented. -/
  | literal
  deriving DecidableEq

/-- The lines that cannot be printed flat. -/
def LineKind.forcesBreak : LineKind → Bool
  | .soft | .empty => false
  | .hard | .literal => true

/-- A mark on a part of a document. -/
inductive Mark where
  /-- The part is a token of a class. -/
  | token (c : TokenClass)
  /-- Any other mark. -/
  | label (s : String)
  deriving DecidableEq

/-- A document. -/
inductive Doc where
  /-- Nothing. -/
  | nil
  /-- A plain text. -/
  | lit (s : String)
  /-- A text node. -/
  | text (s : String)
  /-- A line. -/
  | line (kind : LineKind)
  /-- Parts, one after the other. -/
  | concat (parts : List Doc)
  /-- The body one indentation level deeper. -/
  | indent (body : Doc)
  /-- The body with a mark on it. -/
  | annotated (body : Doc) (mark : Mark)
  /-- The body flat if it fits, else broken; a forced group is always broken. -/
  | group (body : Doc) (forced : Bool)
  /-- The body broken, together with all groups around it. -/
  | alwaysBreak (body : Doc)
  /-- Contents and separators in turn, packed onto lines. -/
  | fill (items : List Doc)
  /-- Candidates tried flat in order; the fallback is printed broken if none of them fits. -/
  | conditional (front : List Doc) (fallback : Doc)
  /-- A document of a sort that has no layout. -/
  | unknown (sort : String)

instance : Inhabited Doc := ⟨.nil⟩

namespace Doc

/-- The sort of a document that says nothing about what it prints. -/
def bare : Doc := unknown "Doc"

/-- Induction on documents: each case may assume the claim for every direct part. -/
@[elab_as_elim]
theorem inductionOn {P : Doc → Prop} (d : Doc)
    (nil : P nil) (lit : ∀ s, P (lit s)) (text : ∀ s, P (text s)) (line : ∀ k, P (line k))
    (concat : ∀ ds, (∀ d ∈ ds, P d) → P (concat ds))
    (indent : ∀ d, P d → P (indent d))
    (annotated : ∀ d a, P d → P (annotated d a))
    (group : ∀ d b, P d → P (group d b))
    (alwaysBreak : ∀ d, P d → P (alwaysBreak d))
    (fill : ∀ ds, (∀ d ∈ ds, P d) → P (fill ds))
    (conditional : ∀ ds d, (∀ e ∈ ds, P e) → P d → P (conditional ds d))
    (unknown : ∀ s, P (unknown s)) : P d :=
  @Doc.rec P (fun ds => ∀ d ∈ ds, P d)
    nil lit text line concat indent annotated group alwaysBreak fill conditional unknown
    (by simp) (fun _ _ hd hds => by simpa using ⟨hd, hds⟩) d

mutual

/-- Whether two documents are equal. -/
def same : Doc → Doc → Bool
  | nil, nil => true
  | lit s, lit t => s = t
  | text s, text t => s = t
  | line k, line l => k = l
  | concat ds, concat es => sameAll ds es
  | indent d, indent e => same d e
  | annotated d a, annotated e b => same d e && a = b
  | group d b, group e c => same d e && b = c
  | alwaysBreak d, alwaysBreak e => same d e
  | fill ds, fill es => sameAll ds es
  | conditional ds d, conditional es e => sameAll ds es && same d e
  | unknown s, unknown t => s = t
  | _, _ => false

/-- Whether two lists of documents are equal. -/
def sameAll : List Doc → List Doc → Bool
  | [], [] => true
  | d :: ds, e :: es => same d e && sameAll ds es
  | _, _ => false

end

private theorem sameAll_iff {ds : List Doc} (h : ∀ d ∈ ds, ∀ e, same d e = true ↔ d = e)
    (es : List Doc) : sameAll ds es = true ↔ ds = es := by
  induction ds generalizing es with
  | nil => cases es <;> simp [sameAll]
  | cons d ds ih =>
    cases es with
    | nil => simp [sameAll]
    | cons e es =>
      have hd := h d List.mem_cons_self e
      have hds := ih (fun d hd => h d (List.mem_cons_of_mem _ hd)) es
      simp [sameAll, hd, hds]

/-- `same` decides equality. -/
theorem same_iff (d e : Doc) : same d e = true ↔ d = e := by
  induction d using inductionOn generalizing e with
  | concat ds ih => cases e <;> simp [same, sameAll_iff ih]
  | fill ds ih => cases e <;> simp [same, sameAll_iff ih]
  | conditional ds d ihs ih => cases e <;> simp [same, sameAll_iff ihs, ih]
  | indent d ih => cases e <;> simp [same, ih]
  | annotated d a ih => cases e <;> simp [same, ih]
  | group d b ih => cases e <;> simp [same, ih]
  | alwaysBreak d ih => cases e <;> simp [same, ih]
  | _ => cases e <;> simp [same]

instance : DecidableEq Doc := fun d e => decidable_of_iff _ (same_iff d e)

/-- The candidates of a conditional in the order in which they are tried. -/
def candidates (front : List Doc) (fallback : Doc) : List Doc := front ++ [fallback]

end Doc

end Typeset
