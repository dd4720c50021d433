import Mathlib.Data.List.Forall2
import Typeset.Proofs.FirstLine
import Typeset.Proofs.LayoutSoundness

/-!
# Groups that fit are flat

A group by itself is printed flat exactly if it fits on the page: what is measured for it is
what is then printed, column by column. This is shown for groups whose body can be printed on
one line at all, that is, without anything in it that forces a break and without line feeds in
its texts. Then the flat stream of the body is determined by the body, and so is its width.

If the group does not fit, its body is printed broken. The lines of the body itself are then
line breaks; what stands in inner groups, fills and conditionals is decided by itself.

## Main definitions

* `Doc.isFlexible` : nothing in the document keeps it from being printed on one line.
* `Doc.flatItems`, `shownText` : the flat stream of a document, and the text of a stream.
* `Exposed`, `Doc.exposed` : what is seen of a document that is printed broken.

## Main results

* `Doc.flatItems_normal` : normalising keeps the flat stream.
* `Doc.firstLine_flat` : measured flat, a flexible document takes the width of its flat stream.
* `Admits.eq_flatItems` : the flat stream is the only flat one.
* `Admits.printsPieces` : printed broken, a document shows its lines as line breaks.
* `layout_group_flat_or_broken` : a group is flat if it fits, and else its lines are broken.
-/

namespace Typeset

open Text

/-! ### The flat stream -/

namespace Doc

/-- Whether the document itself, apart from its parts, can be printed on one line. -/
def permitsFlat : Doc → Bool
  | lit s | text s => !breaks s.toList
  | line k => !k.forcesBreak
  | group _ forced => !forced
  | alwaysBreak _ => false
  | _ => true

/-- Whether nothing in the document keeps it from being printed on one line. -/
def isFlexible : Doc → Bool := all permitsFlat

mutual

/-- The items of a document of which everything is printed flat; a conditional prints its first
candidate. -/
def flatItems : Doc → List Item
  | nil | unknown _ => []
  | lit s | text s => textItems s
  | line .soft => [.text " "]
  | line _ => []
  | concat ds | fill ds => flatItemsAll ds
  | indent d | group d _ | alwaysBreak d => flatItems d
  | annotated d a => .push a :: flatItems d ++ [.pop a]
  | conditional [] fallback => flatItems fallback
  | conditional (d :: _) _ => flatItems d

/-- The items of documents that are printed flat one after the other. -/
def flatItemsAll : List Doc → List Item
  | [] => []
  | d :: ds => flatItems d ++ flatItemsAll ds

end

theorem flatItemsAll_eq_flatMap (ds : List Doc) : flatItemsAll ds = ds.flatMap flatItems := by
  induction ds with
  | nil => rfl
  | cons d ds ih => rw [flatItemsAll, ih, List.flatMap_cons]

/-- A conditional prints the first of its candidates. -/
theorem flatItems_conditional (front : List Doc) (fallback : Doc) :
    (conditional front fallback).flatItems =
      ((candidates front fallback).headD fallback).flatItems := by
  cases front <;> rfl

end Doc

/-- The text of an item. -/
def Item.shown : Item → List Char
  | .text s => s.toList
  | .line _ | .push _ | .pop _ => []

/-- The text of a stream. -/
def shownText (items : List Item) : List Char := items.flatMap Item.shown

namespace Doc

variable {d : Doc} {ds : List Doc} {b : Bool}

/-! ### Flexible documents -/

@[simp]
theorem isFlexible_concat : (concat ds).isFlexible = true ↔ ∀ d ∈ ds, d.isFlexible = true := by
  simp [isFlexible, all, permitsFlat, allIn_iff]

@[simp]
theorem isFlexible_fill : (fill ds).isFlexible = true ↔ ∀ d ∈ ds, d.isFlexible = true := by
  simp [isFlexible, all, permitsFlat, allIn_iff]

@[simp]
theorem isFlexible_conditional : (conditional ds d).isFlexible = true ↔
    ∀ e ∈ candidates ds d, e.isFlexible = true := by
  rw [isFlexible, all_candidates_iff]
  simp [all, permitsFlat]

@[simp]
theorem isFlexible_group : (group d b).isFlexible = true ↔ b = false ∧ d.isFlexible = true := by
  simp [isFlexible, all, permitsFlat]

theorem not_isBreaking_of_isFlexible (h : d.isFlexible = true) : d.isBreaking = false := by
  cases d with
  | alwaysBreak d => cases h
  | _ => rfl

/-- A flexible document need not break. -/
theorem mustBreak_of_isFlexible (h : d.isFlexible = true) : d.mustBreak = false := by
  induction d using inductionOn with
  | nil | lit | text | unknown => rfl
  | line k => simpa [isFlexible, all, permitsFlat, mustBreak] using h
  | concat ds ih | fill ds ih =>
    have hds : ∀ d ∈ ds, d.isFlexible = true := by simpa using h
    rw [mustBreak, anyMustBreak_eq_any, List.any_eq_false]
    exact fun d hd => by simp [ih d hd (hds d hd)]
  | indent d ih => exact ih h
  | annotated d a ih => exact ih h
  | group d b ih => exact ih (isFlexible_group.mp h).2
  | alwaysBreak d => cases h
  | conditional ds d ihs ih =>
    rw [mustBreak, ih (isFlexible_conditional.mp h d (by simp [candidates])), Bool.and_false]

theorem isFlexible_normal (h : d.isFlexible = true) : d.normal.isFlexible = true := by
  refine all_normal_of_marks rfl rfl (fun e he h => ?_) h
  rw [mustBreak_of_isFlexible h] at he
  cases he

/-- Flat, a flexible conditional prints the first of its candidates. -/
theorem flatCandidate_of_isFlexible (h : (conditional ds d).isFlexible = true) :
    flatCandidate ds d = (candidates ds d).headD d := by
  rw [isFlexible_conditional] at h
  rw [flatCandidate]
  cases ds with
  | nil => simp [candidates, not_isBreaking_of_isFlexible (h d (by simp [candidates]))]
  | cons e ds => simp [candidates, not_isBreaking_of_isFlexible (h e (by simp [candidates]))]

/-! ### Normal forms -/

private theorem flatItems_breakingIf (b : Bool) (d : Doc) :
    (breakingIf b d).flatItems = d.flatItems := by
  cases b <;> rfl

private theorem flatItems_joined (ds : List Doc) : (joined ds).flatItems = flatItemsAll ds := by
  match ds with
  | [] => rfl
  | [d] => exact (List.append_nil _).symm
  | d :: d' :: ds => rfl

/-- What a normal form contributes to a concatenation has its flat stream. -/
private theorem flatItemsAll_spliced (n : Doc) : flatItemsAll n.spliced = n.flatItems := by
  have hsingle (d : Doc) : flatItemsAll [d] = d.flatItems := List.append_nil _
  cases n with
  | concat ds => rfl
  | alwaysBreak n =>
    cases n with
    | concat ds => rfl
    | _ => exact hsingle _
  | nil => rfl
  | lit s =>
    by_cases hs : s.isEmpty = true
    · simp [spliced, isEmpty, hs, flatItemsAll, flatItems, textItems]
    · simpa [spliced, isEmpty, hs] using hsingle (lit s)
  | _ => exact hsingle _

private theorem flatItems_liftBreak (wrap : Doc → Doc) (f : List Item → List Item)
    (hwrap : ∀ d, (wrap d).flatItems = f d.flatItems) (n : Doc) :
    (liftBreak wrap n).flatItems = f n.flatItems := by
  cases n <;> exact hwrap _

/-- Normalising keeps the flat stream. -/
theorem flatItems_normal (d : Doc) : d.normal.flatItems = d.flatItems := by
  have hall {ds : List Doc} (h : ∀ d ∈ ds, d.normal.flatItems = d.flatItems) :
      (ds.map normal).flatMap flatItems = ds.flatMap flatItems := by
    rw [List.flatMap_map, List.flatMap_def, List.flatMap_def, List.map_congr_left h]
  induction d using inductionOn with
  | nil | lit | unknown => rfl
  | text s =>
    rw [normal, rebuildText]
    split
    · next hs => simp [flatItems, textItems, hs]
    · rfl
  | line k => exact flatItems_breakingIf _ _
  | concat ds ih =>
    have hspliced (ns : List Doc) : flatItemsAll (ns.flatMap spliced) = ns.flatMap flatItems := by
      rw [flatItemsAll_eq_flatMap, List.flatMap_assoc]
      exact congrArg (List.flatMap · ns)
        (funext fun n => (flatItemsAll_eq_flatMap _).symm.trans (flatItemsAll_spliced n))
    rw [normal, normalAll_eq_map, rebuildConcat, flatItems_breakingIf, flatItems_joined, hspliced,
      hall ih, flatItems, flatItemsAll_eq_flatMap]
  | indent d ih => exact (flatItems_liftBreak indent id (fun _ => rfl) _).trans ih
  | annotated d a ih =>
    rw [normal, flatItems_liftBreak (annotated · a) (fun xs => .push a :: xs ++ [.pop a])
      (fun _ => rfl), ih, flatItems]
  | group d b ih =>
    rw [normal, flatItems, ← ih]
    cases d.normal <;> rfl
  | alwaysBreak d ih =>
    rw [normal, flatItems, ← ih]
    cases d.normal <;> rfl
  | fill ds ih =>
    rw [normal, normalAll_eq_map, rebuildFill, flatItems_breakingIf, flatItems, flatItems,
      flatItemsAll_eq_flatMap, flatItemsAll_eq_flatMap, hall ih]
  | conditional ds d ihs ih =>
    rw [normal, normalAll_eq_map, rebuildConditional, flatItems_breakingIf]
    cases ds with
    | nil => exact ih
    | cons e ds => exact ihs e List.mem_cons_self

end Doc

/-! ### What is measured and what is printed -/

variable {i : Nat} {d : Doc} {ds : List Doc} {items : List Item}

theorem shownText_append (xs ys : List Item) :
    shownText (xs ++ ys) = shownText xs ++ shownText ys := List.flatMap_append

private theorem shownText_textItems (s : String) : shownText (textItems s) = s.toList := by
  rw [textItems]
  split
  · next hs =>
    have hnil : s.toList = [] := by simpa using hs
    rw [hnil]
    rfl
  · exact List.append_nil _

/-- The first line of a stream of texts that runs on. -/
private theorem followedBy_shown (xs ys : List Item) :
    FirstLine.followedBy ⟨width (shownText xs), .running⟩ ⟨width (shownText ys), .running⟩ =
      ⟨width (shownText (xs ++ ys)), .running⟩ := by
  rw [FirstLine.followedBy_of_running rfl, shownText_append, width, width, width,
    List.countP_append]

private theorem firstLineAll_flat {b : Bool}
    (h : ∀ d ∈ ds, d.firstLine b .flat = ⟨width (shownText d.flatItems), .running⟩) :
    Doc.firstLineAll b .flat ds = ⟨width (shownText (Doc.flatItemsAll ds)), .running⟩ := by
  induction ds with
  | nil => rw [Doc.firstLineAll]; rfl
  | cons d ds ih =>
    rw [Doc.firstLineAll, h d List.mem_cons_self, ih fun e he => h e (List.mem_cons_of_mem _ he),
      followedBy_shown, Doc.flatItemsAll]

private theorem firstLine_ofText {s : String} (h : ¬ breaks s.toList = true) :
    FirstLine.ofText s = ⟨width (shownText (textItems s)), .running⟩ := by
  rw [FirstLine.ofText, if_neg h, firstLine_of_not_breaks h, shownText_textItems]

/-- Measured flat, a flexible document takes the width of its flat stream. -/
theorem Doc.firstLine_flat (b : Bool) (h : d.isFlexible = true) :
    d.firstLine b .flat = ⟨width (shownText d.flatItems), .running⟩ := by
  induction d using Doc.inductionOn with
  | nil | unknown => rw [firstLine]; rfl
  | lit s | text s =>
    rw [firstLine]
    exact firstLine_ofText (by simpa [isFlexible, all, permitsFlat] using h)
  | line k =>
    rw [firstLine]
    cases k with
    | soft | empty => rfl
    | hard | literal => cases h
  | concat ds ih | fill ds ih =>
    have hds : ∀ d ∈ ds, d.isFlexible = true := by simpa using h
    rw [firstLine]
    exact firstLineAll_flat fun d hd => ih d hd (hds d hd)
  | indent d ih => rw [firstLine]; exact ih h
  | annotated d a ih =>
    have hshown : shownText (annotated d a).flatItems = shownText d.flatItems :=
      (shownText_append (.push a :: d.flatItems) [.pop a]).trans (List.append_nil _)
    rw [firstLine, hshown]
    exact ih h
  | group d forced ih =>
    obtain ⟨rfl, hd⟩ := isFlexible_group.mp h
    rw [firstLine, Bool.and_false]
    exact ih hd
  | alwaysBreak d => cases h
  | conditional front fallback ihs ih =>
    rw [firstLine, flatCandidate_of_isFlexible h, flatItems_conditional]
    have hcandidates := isFlexible_conditional.mp h
    cases front with
    | nil => exact ih (hcandidates fallback List.mem_cons_self)
    | cons e front => exact ihs e List.mem_cons_self (hcandidates e List.mem_cons_self)

private theorem AdmitsEach.eq_flatItems
    (ih : ∀ d ∈ ds, ∀ {i items}, Admits i .flat d items → items = d.flatItems)
    (h : AdmitsEach i [.flat] ds items) : items = Doc.flatItemsAll ds := by
  induction ds generalizing items with
  | nil =>
    cases h
    rfl
  | cons d ds ihs =>
    cases h with
    | cons hm hd hrest =>
      rw [List.mem_singleton.mp hm] at hd
      rw [Doc.flatItemsAll, ← ih d List.mem_cons_self hd,
        ← ihs (fun e he => ih e (List.mem_cons_of_mem _ he)) hrest]

private theorem modeIn_of_isFlexible (h : d.isFlexible = true) (m : Mode) : d.modeIn m = m := by
  rw [Doc.modeIn, Doc.mustBreak_of_isFlexible h]
  rfl

/-- The first candidate of a flexible conditional is the first one that need not break. -/
private theorem find?_candidates {front : List Doc} {fallback e : Doc}
    (h : (Doc.conditional front fallback).isFlexible = true)
    (he : (Doc.candidates front fallback).find? (!·.mustBreak) = some e) :
    e = (Doc.candidates front fallback).headD fallback := by
  rw [Doc.isFlexible_conditional] at h
  cases front with
  | nil =>
    have hfirst := Doc.mustBreak_of_isFlexible (h fallback List.mem_cons_self)
    simpa [Doc.candidates, hfirst, eq_comm] using he
  | cons d front =>
    have hfirst := Doc.mustBreak_of_isFlexible (h d List.mem_cons_self)
    simpa [Doc.candidates, hfirst, eq_comm] using he

/-- The flat stream is the only stream of a flexible document that is flat. -/
theorem Admits.eq_flatItems (h : Admits i .flat d items) (hd : d.isFlexible = true) :
    items = d.flatItems := by
  have hmode := modeIn_of_isFlexible hd .flat
  induction d using Doc.inductionOn generalizing i items with
  | nil | lit | text => cases h; rfl
  | line k =>
    cases h
    rw [hmode]
    cases k with
    | soft | empty => rfl
    | hard | literal => cases hd
  | concat ds ih | fill ds ih =>
    have hds : ∀ d ∈ ds, d.isFlexible = true := by simpa using hd
    cases h with
    | _ h =>
      rw [hmode] at h
      exact h.eq_flatItems fun d hmem _ _ h =>
        ih d hmem h (hds d hmem) (modeIn_of_isFlexible (hds d hmem) .flat)
  | indent d ih =>
    cases h with
    | indent h =>
      rw [hmode] at h
      exact ih h hd hmode
  | annotated d a ih =>
    cases h with
    | annotated h =>
      rw [hmode] at h
      rw [ih h hd hmode, Doc.flatItems]
  | group d forced ih =>
    obtain ⟨rfl, hd⟩ := Doc.isFlexible_group.mp hd
    cases h with
    | group h =>
      rw [hmode] at h
      exact ih h hd hmode
  | alwaysBreak d => cases hd
  | conditional front fallback ihs ih =>
    cases h with
    | candidate hm | fallback hm => rw [hmode] at hm; cases hm
    | flatCandidate _ he h =>
      rw [find?_candidates hd he] at h
      rw [Doc.isFlexible_conditional] at hd
      rw [Doc.flatItems_conditional]
      cases front with
      | nil =>
        have hfirst := hd fallback List.mem_cons_self
        exact ih h hfirst (modeIn_of_isFlexible hfirst .flat)
      | cons d front =>
        have hfirst := hd d List.mem_cons_self
        exact ihs d List.mem_cons_self h hfirst (modeIn_of_isFlexible hfirst .flat)
  | unknown => cases h

/-! ### What is seen of a broken document -/

/-- A piece of a document that is printed broken. -/
inductive Exposed where
  /-- An item that is printed in any case. -/
  | item (x : Item)
  /-- A group, a fill or a conditional at an indentation level, which is decided by itself. -/
  | inner (level : Nat) (d : Doc)

/-- The streams that are printed for a piece. -/
def Exposed.Prints : Exposed → List Item → Prop
  | item x, items => items = [x]
  | inner level d, items => Admits level .broken d items

mutual

/-- The pieces of a document that is printed broken at an indentation level. Its own lines, which
are not inside of a group, a fill or a conditional, are line breaks. -/
def Doc.exposed (level : Nat) : Doc → List Exposed
  | .nil | .unknown _ => []
  | .lit s | .text s => (textItems s).map .item
  | .line .literal => [.item (.line 0)]
  | .line _ => [.item (.line level)]
  | .concat ds => Doc.exposedAll level ds
  | .indent d => Doc.exposed (level + 1) d
  | .annotated d a => .item (.push a) :: Doc.exposed level d ++ [.item (.pop a)]
  | .alwaysBreak d => Doc.exposed level d
  | .group d forced => [.inner level (.group d forced)]
  | .fill ds => [.inner level (.fill ds)]
  | .conditional front fallback => [.inner level (.conditional front fallback)]

/-- The pieces of documents that are printed broken one after the other. -/
def Doc.exposedAll (level : Nat) : List Doc → List Exposed
  | [] => []
  | d :: ds => Doc.exposed level d ++ Doc.exposedAll level ds

end

/-- Streams that consist of a stream for each piece. -/
def PrintsPieces (pieces : List Exposed) (items : List Item) : Prop :=
  ∃ parts : List (List Item), List.Forall₂ Exposed.Prints pieces parts ∧ items = parts.flatten

theorem PrintsPieces.append {ps qs : List Exposed} {xs ys : List Item} (hx : PrintsPieces ps xs)
    (hy : PrintsPieces qs ys) : PrintsPieces (ps ++ qs) (xs ++ ys) := by
  obtain ⟨parts, hparts, rfl⟩ := hx
  obtain ⟨parts', hparts', rfl⟩ := hy
  exact ⟨parts ++ parts', List.rel_append hparts hparts', List.flatten_append.symm⟩

theorem printsPieces_item (x : Item) : PrintsPieces [.item x] [x] :=
  ⟨[[x]], .cons rfl .nil, rfl⟩

theorem printsPieces_inner (h : Admits i .broken d items) : PrintsPieces [.inner i d] items :=
  ⟨[items], .cons h .nil, by simp⟩

private theorem printsPieces_textItems (s : String) :
    PrintsPieces ((textItems s).map .item) (textItems s) := by
  rw [textItems]
  split
  · exact ⟨[], .nil, rfl⟩
  · exact printsPieces_item _

private theorem AdmitsEach.printsPieces
    (ih : ∀ d ∈ ds, ∀ {i items}, Admits i .broken d items → PrintsPieces (d.exposed i) items)
    (h : AdmitsEach i [.broken] ds items) : PrintsPieces (Doc.exposedAll i ds) items := by
  induction ds generalizing items with
  | nil =>
    cases h
    exact ⟨[], .nil, rfl⟩
  | cons d ds ihs =>
    cases h with
    | cons hm hd hrest =>
      rw [List.mem_singleton.mp hm] at hd
      exact (ih d List.mem_cons_self hd).append
        (ihs (fun e he => ih e (List.mem_cons_of_mem _ he)) hrest)

/-- A document that is printed broken shows its pieces: its own lines are line breaks. -/
theorem Admits.printsPieces (h : Admits i .broken d items) : PrintsPieces (d.exposed i) items := by
  have hmode (d : Doc) : d.modeIn .broken = .broken := by
    rw [Doc.modeIn, ite_self]
  induction d using Doc.inductionOn generalizing i items with
  | nil => cases h; exact ⟨[], .nil, rfl⟩
  | lit s | text s => cases h; exact printsPieces_textItems s
  | line k =>
    cases h
    rw [hmode]
    cases k <;> exact printsPieces_item _
  | concat ds ih =>
    cases h with
    | concat h =>
      rw [hmode] at h
      exact h.printsPieces ih
  | indent d ih =>
    cases h with
    | indent h =>
      rw [hmode] at h
      exact ih h
  | annotated d a ih =>
    cases h with
    | annotated h =>
      rw [hmode] at h
      exact ((printsPieces_item (.push a)).append (ih h)).append (printsPieces_item (.pop a))
  | alwaysBreak d ih =>
    cases h with
    | alwaysBreak h => exact ih h
  | group | fill | conditional => exact printsPieces_inner h
  | unknown => cases h

/-! ### Groups -/

/-- A group that need not break is decided by measuring its body flat on the whole page. -/
theorem layout_group {page : Page} {flat : Bool} (hd : d.mustBreak = false)
    (h : fits false page.width [.print 0 .flat d.normal] = .ok flat) :
    layout page (.group d false) =
      run page 0 [.print 0 (if flat then .flat else .broken) d.normal] := by
  have hnormal : (Doc.group d false).normalize = .group d.normal false := by
    rw [Doc.normalize_eq_normal, Doc.normal,
      Doc.rebuildGroup_of_not_isBreaking ((Doc.isBreaking_normal d).trans hd)]
  have hs : step page 0 (.print 0 .broken (.group d.normal false)) [] =
      .ok ⟨[], 0, [.print 0 (if flat then .flat else .broken) d.normal]⟩ := by
    refine bind_eq_ok_iff.mpr ⟨_, bind_eq_ok_iff.mpr ⟨flat, ?_, rfl⟩, ?_⟩
    · rw [Int.sub_zero]; exact h
    · cases flat <;> rfl
  rw [layout, hnormal, run_cons_of_silent hs]
  rfl

/-- **A group is flat exactly if it fits.** Let the body of a group have nothing in it that keeps
it from being printed on one line. If the text of its flat stream is not wider than the page,
the layout of the group is this stream. Else it is a stream in which every line of the body
that is not inside of an inner group, a fill or a conditional is a line break. -/
theorem layout_group_flat_or_broken (page : Page) {d : Doc} (hknown : d.isKnown = true)
    (hflexible : d.isFlexible = true) :
    (width (shownText d.flatItems) ≤ page.width →
      (layout page (.group d false)).result = .ok d.flatItems) ∧
    (page.width < width (shownText d.flatItems) →
      ∃ items, (layout page (.group d false)).result = .ok items ∧
        PrintsPieces (d.exposed 0) items) := by
  have hknown' : d.normal.all Doc.hasKnownSort = true := Doc.all_normal rfl rfl rfl hknown
  have hmeasure : fits false page.width [.print 0 .flat d.normal] =
      .ok (decide ((width (shownText d.flatItems) : Int) ≤ page.width)) := by
    rw [fits_eq false page.width (by simpa using hknown'), stackFirstLine_print,
      Doc.firstLine_flat false (Doc.isFlexible_normal hflexible), Doc.flatItems_normal]
    simp [FirstLine.FitsIn]
  have hlayout := layout_group (Doc.mustBreak_of_isFlexible hflexible) hmeasure
  have hrun (m : Mode) : ∃ items, run page 0 [.print 0 m d.normal] = ⟨items, none⟩ ∧
      Admits 0 m d items := by
    have hstack : [Command.print 0 m d.normal].all (Command.all Doc.hasKnownSort) = true := by
      simpa using hknown'
    obtain ⟨items, hrun, hprints⟩ := exists_run_stackPrints page 0 hstack
    exact ⟨items, hrun, Prints.admits hprints.singleton⟩
  constructor
  · intro hle
    obtain ⟨items, hitems, hadmits⟩ := hrun .flat
    rw [decide_eq_true hle, if_pos rfl, hitems] at hlayout
    rw [hlayout, ← hadmits.eq_flatItems hflexible]
    rfl
  · intro hlt
    obtain ⟨items, hitems, hadmits⟩ := hrun .broken
    rw [decide_eq_false (Int.not_le.mpr hlt), if_neg Bool.false_ne_true, hitems] at hlayout
    exact ⟨items, by rw [hlayout]; rfl, hadmits.printsPieces⟩

/-- A group whose flat stream takes four columns, on a page that is wide enough and on one that is
not. -/
theorem layout_group_flat_or_broken_four :
    let d : Doc := .concat [.annotated (.lit "ab") (.label "n"), .indent (.line .soft),
      .group (.concat [.line .empty, .fill [.text "\t"]]) false,
      .conditional [.lit "c"] (.lit "long")]
    (d.isKnown = true ∧ d.isFlexible = true ∧ width (shownText d.flatItems) = 4) ∧
      (layout ⟨4, 2⟩ (.group d false)).result = .ok d.flatItems ∧
      ∃ items, (layout ⟨3, 2⟩ (.group d false)).result = .ok items ∧
        PrintsPieces (d.exposed 0) items := by
  intro d
  have hwidth : width (shownText d.flatItems) = 4 := by decide
  refine ⟨⟨rfl, rfl, hwidth⟩, (layout_group_flat_or_broken ⟨4, 2⟩ rfl rfl).1 ?_,
    (layout_group_flat_or_broken ⟨3, 2⟩ rfl rfl).2 ?_⟩
  · rw [hwidth]; decide
  · rw [hwidth]; decide

end Typeset
