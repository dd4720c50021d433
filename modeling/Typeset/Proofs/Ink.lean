import Typeset.Proofs.LayoutSoundness
import Typeset.Render

/-!
# The ink of a document

The ink of a text is what is left of it without spaces, tabs and line feeds. A document may be
laid out in many ways, but a steady document has the same ink in all of them: the candidates
of each of its conditionals agree in their ink. Neither the layout nor the rendering loses,
repeats or moves ink, so the ink of a rendered steady document does not depend on the options.

## Main definitions

* `Text.ink`, `Doc.ink`, `itemsInk` : the ink of texts, documents and streams of items.
* `Doc.isSteady` : the documents whose ink no layout changes.

## Main results

* `Admits.ink_eq` : every admissible stream of a steady document has the ink of the document.
* `ink_renderItems` : rendering keeps the ink of a stream.
* `exists_renderDoc_ink` : a steady document is rendered, and its text has its ink.
-/

namespace Typeset

namespace Text

/-- Whether a character leaves ink. Spaces, tabs and line feeds do not. -/
def isInk (c : Char) : Bool := c ≠ ' ' && c ≠ '\t' && c ≠ '\n'

/-- The characters of a text that leave ink. -/
def ink (cs : List Char) : List Char := cs.filter isInk

@[simp]
theorem ink_nil : ink [] = [] := rfl

@[simp]
theorem ink_append (cs ds : List Char) : ink (cs ++ ds) = ink cs ++ ink ds :=
  List.filter_append ..

theorem ink_flatMap {α : Type} (f : α → List Char) (as : List α) :
    ink (as.flatMap f) = as.flatMap fun a => ink (f a) := by
  induction as with
  | nil => rfl
  | cons a as ih => rw [List.flatMap_cons, List.flatMap_cons, ink_append, ih]

theorem ink_replicate_space (n : Nat) : ink (List.replicate n ' ') = [] := by
  rw [ink, List.filter_eq_nil_iff]
  intro c hc
  rw [List.eq_of_mem_replicate hc]
  decide

end Text

open Text

/-! ### Documents -/

namespace Doc

mutual

/-- The ink of a document. Of a conditional it is that of the fallback. -/
def ink : Doc → List Char
  | lit s | text s => Text.ink s.toList
  | concat ds | fill ds => inkAll ds
  | indent d | annotated d _ | group d _ | alwaysBreak d | conditional _ d => ink d
  | nil | line _ | unknown _ => []

/-- The ink of documents one after the other. -/
def inkAll : List Doc → List Char
  | [] => []
  | d :: ds => ink d ++ inkAll ds

end

mutual

/-- Whether every layout of the document has the same ink: documents of unknown sorts have no
layout, and the candidates of every conditional have the ink of its fallback. -/
def isSteady : Doc → Bool
  | concat ds | fill ds => allSteady ds
  | indent d | annotated d _ | group d _ | alwaysBreak d => isSteady d
  | conditional ds d => (allSteady ds && isSteady d) && ds.all fun e => e.ink = d.ink
  | unknown _ => false
  | nil | lit _ | text _ | line _ => true

/-- Whether all documents of the list are steady. -/
def allSteady : List Doc → Bool
  | [] => true
  | d :: ds => isSteady d && allSteady ds

end

theorem inkAll_eq_flatMap (ds : List Doc) : inkAll ds = ds.flatMap ink := by
  induction ds with
  | nil => rfl
  | cons d ds ih => rw [inkAll, List.flatMap_cons, ih]

theorem allSteady_eq_all (ds : List Doc) : allSteady ds = ds.all isSteady := by
  induction ds with
  | nil => rfl
  | cons d ds ih => rw [allSteady, List.all_cons, ih]

/-- Every candidate of a steady conditional is steady and has the ink of the fallback. -/
theorem candidate_of_isSteady {front : List Doc} {fallback d : Doc}
    (h : (conditional front fallback).isSteady = true) (hd : d ∈ candidates front fallback) :
    d.isSteady = true ∧ d.ink = fallback.ink := by
  simp only [isSteady, allSteady_eq_all, Bool.and_eq_true, List.all_eq_true,
    decide_eq_true_eq] at h
  obtain ⟨⟨hfront, hfallback⟩, hink⟩ := h
  simp only [candidates, List.mem_append, List.mem_singleton] at hd
  rcases hd with hd | rfl
  · exact ⟨hfront d hd, hink d hd⟩
  · exact ⟨hfallback, rfl⟩

/-- A steady document has a layout. -/
theorem isKnown_of_isSteady {d : Doc} (h : d.isSteady = true) : d.isKnown = true := by
  have hall {ds : List Doc} (ih : ∀ d ∈ ds, d.isSteady = true → d.isKnown = true)
      (hds : allSteady ds = true) : allIn hasKnownSort ds = true := by
    rw [allSteady_eq_all, List.all_eq_true] at hds
    exact allIn_iff.mpr fun d hd => ih d hd (hds d hd)
  induction d using inductionOn with
  | concat ds ih | fill ds ih => exact Bool.and_eq_true_iff.mpr ⟨rfl, hall ih h⟩
  | indent d ih | annotated d a ih | group d b ih | alwaysBreak d ih =>
    exact Bool.and_eq_true_iff.mpr ⟨rfl, ih h⟩
  | conditional ds d ihs ih =>
    simp only [isSteady, Bool.and_eq_true] at h
    simp [isKnown, all, hasKnownSort, hall ihs h.1.1, show all hasKnownSort d = true from ih h.1.2]
  | unknown s => cases h
  | _ => rfl

end Doc

/-! ### Streams -/

/-- The ink of an item. -/
def Item.ink : Item → List Char
  | .text s => Text.ink s.toList
  | .line _ | .push _ | .pop _ => []

/-- The ink of a stream of items. -/
def itemsInk (items : List Item) : List Char := items.flatMap Item.ink

@[simp]
theorem itemsInk_append (xs ys : List Item) : itemsInk (xs ++ ys) = itemsInk xs ++ itemsInk ys :=
  List.flatMap_append

private theorem itemsInk_textItems (s : String) : itemsInk (textItems s) = Text.ink s.toList := by
  rw [textItems]
  split
  · next hs =>
    have hnil : s.toList = [] := by simpa using hs
    rw [hnil]
    rfl
  · exact List.append_nil _

private theorem itemsInk_lineItems (i : Nat) (m : Mode) (k : LineKind) :
    itemsInk (lineItems i m k) = [] := by
  cases m <;> cases k <;> rfl

private theorem AdmitsEach.ink_eq {ds : List Doc}
    (ih : ∀ d ∈ ds, ∀ {i m items}, Admits i m d items → d.isSteady = true →
      itemsInk items = d.ink) {i : Nat} {ms : List Mode} {items : List Item}
    (h : AdmitsEach i ms ds items) (hds : Doc.allSteady ds = true) :
    itemsInk items = Doc.inkAll ds := by
  induction ds generalizing items with
  | nil =>
    cases h
    rfl
  | cons d ds ihs =>
    simp only [Doc.allSteady, Bool.and_eq_true] at hds
    cases h with
    | cons _ hd hrest =>
      have hhead := ih d List.mem_cons_self hd hds.1
      have htail := ihs (fun e he => ih e (List.mem_cons_of_mem _ he)) hrest hds.2
      rw [itemsInk_append, hhead, htail, Doc.inkAll]

/-- Every admissible stream of a steady document has the ink of the document. -/
theorem Admits.ink_eq {i : Nat} {m : Mode} {d : Doc} {items : List Item}
    (h : Admits i m d items) (hd : d.isSteady = true) : itemsInk items = d.ink := by
  induction d using Doc.inductionOn generalizing i m items with
  | nil =>
    cases h
    rfl
  | lit s | text s =>
    cases h
    exact itemsInk_textItems s
  | line k =>
    cases h
    exact itemsInk_lineItems i _ k
  | concat ds ih | fill ds ih =>
    cases h with
    | _ h => exact h.ink_eq (fun e he => @ih e he) hd
  | indent d ih =>
    cases h with
    | indent h => exact ih h hd
  | annotated d a ih =>
    cases h with
    | annotated h =>
      have hitems := ih h hd
      rw [itemsInk_append]
      exact (List.append_nil _).trans hitems
  | group d forced ih =>
    cases h with
    | forcedGroup h => exact ih h hd
    | group h => exact ih h hd
    | flatGroup _ h => exact ih h hd
  | alwaysBreak d ih =>
    cases h with
    | alwaysBreak h => exact ih h hd
  | conditional front fallback ihs ih =>
    have hmember {e : Doc} (he : e ∈ Doc.candidates front fallback) {m : Mode}
        (h : Admits i m e items) : itemsInk items = fallback.ink := by
      obtain ⟨hsteady, hink⟩ := Doc.candidate_of_isSteady hd he
      rw [← hink]
      rcases List.mem_append.mp he with he | he
      · exact ihs e he h hsteady
      · rw [List.mem_singleton.mp he] at h hsteady ⊢
        exact ih h hsteady
    cases h with
    | flatCandidate _ he h => exact hmember (List.mem_of_find?_eq_some he) h
    | candidate _ he h => exact hmember (List.mem_append_left _ he) h
    | fallback _ h => exact hmember (List.mem_append_right _ List.mem_cons_self) h
  | unknown s => cases hd

/-! ### Rendered text -/

/-- Whether line breaks and indentation are spelled without ink. -/
def Spelling.IsInkless (sp : Spelling) : Prop :=
  ink sp.newline.toList = [] ∧ ink sp.indentUnit.toList = []

theorem Spelling.IsInkless.indentation {sp : Spelling} (h : sp.IsInkless) (level : Nat) :
    ink (sp.indentation level).toList = [] := by
  rw [Spelling.indentation, String.toList_join, ink_flatMap, List.flatMap_eq_nil_iff]
  intro s hs
  rw [List.eq_of_mem_replicate hs]
  exact h.2

/-- The spelling that options ask for has no ink. -/
theorem Options.isInkless_spelling (o : Options) : o.spelling.IsInkless := by
  have hnewline : ink "\n".toList = [] := by decide
  refine ⟨hnewline, ?_⟩
  show ink o.indentUnit.toList = []
  rw [Options.indentUnit]
  split
  · decide
  · rw [String.toList_ofList]
    exact ink_replicate_space o.indentWidth

private theorem ink_plainWrites {sp : Spelling} (hsp : sp.IsInkless) (pending : Nat)
    (items : List Item) :
    ((plainWrites sp pending items).flatMap fun s => ink s.toList) = itemsInk items := by
  induction items generalizing pending with
  | nil => rfl
  | cons item items ih =>
    cases item with
    | text s =>
      rw [plainWrites]
      split
      · next hs =>
        have hnil : s.toList = [] := by simpa using hs
        rw [ih]
        simp [itemsInk, Item.ink, hnil]
      · rw [List.flatMap_cons, List.flatMap_cons, hsp.indentation pending, ih]
        rfl
    | line level =>
      rw [plainWrites, List.flatMap_cons, hsp.1, ih]
      rfl
    | push a | pop a => exact ih pending

/-- Rendering keeps the ink of a stream. -/
theorem ink_renderItems {sp : Spelling} (hsp : sp.IsInkless) (items : List Item) :
    ink (renderItems sp items).toList = itemsInk items := by
  rw [renderItems, String.toList_join, ink_flatMap, ink_plainWrites hsp]

/-- A steady document is rendered under all options, and its text has its ink. -/
theorem exists_renderDoc_ink (o : Options) {d : Doc} (hd : d.isSteady = true) :
    ∃ s, renderDoc o d = .ok s ∧ ink s.toList = d.ink := by
  obtain ⟨items, hitems, hprints⟩ := exists_layout_prints o.page (Doc.isKnown_of_isSteady hd)
  refine ⟨renderItems o.spelling items, ?_, ?_⟩
  · rw [renderDoc, hitems]
    rfl
  · rw [ink_renderItems o.isInkless_spelling, hprints.admits.ink_eq hd]

end Typeset
