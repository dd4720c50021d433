import Mathlib.Data.List.Induction
import Typeset.Proofs.FlatChoices
import Typeset.Proofs.SourceText
import Typeset.Render

/-!
# Columns of rendered lines

The layout keeps a column by which it decides what fits, and rendering writes the indentation of
a line only when a text follows on it. Both go over the same items, and they stay in step: once a
text has been printed on the line in progress, the column is the width of what rendering has
written of that line; before that nothing is written of it, and the column is that of the
indentation that is due. Texts may bring line feeds of their own, which start a line without
indentation, and tabs, which no width counts.

What rendering writes for items that follow others depends on the others only by the indentation
that they leave due.

## Main definitions

* `indentDue` : the indentation that items leave due.
* `lineInProgress`, `lineLevel` : the items since the last line break, and its level.
* `showsText` : whether there is a text among some items.
* `Page.spaces` : the spelling of indentation by the spaces of a page.
* `InStep` : what the column of the layout and the rendered text have in common.

## Main results

* `plainWrites_append`, `renderItems_append_line` : rendering items one part after the other.
* `InStep.next`, `inStep` : what one more item keeps, and so every stream of items.
* `column_eq_width_of_rendered` : the column of every state of a layout, by its rendered items.
-/

namespace Typeset

open Text

/-! ### Rendering one part after the other -/

/-- The indentation that is due after an item. -/
def Item.indentAfter (pending : Nat) : Item → Nat
  | .text s => if s.isEmpty then pending else 0
  | .line level => level
  | .push _ | .pop _ => pending

/-- The indentation that is due after items. -/
def indentDue (pending : Nat) (items : List Item) : Nat := items.foldl Item.indentAfter pending

/-- What is written for items after others depends on the others by the indentation that they
leave due. -/
theorem plainWrites_append (sp : Spelling) (pending : Nat) (xs ys : List Item) :
    plainWrites sp pending (xs ++ ys) =
      plainWrites sp pending xs ++ plainWrites sp (indentDue pending xs) ys := by
  induction xs generalizing pending with
  | nil => rfl
  | cons item xs ih =>
    cases item with
    | text s =>
      by_cases hs : s.isEmpty = true
      · have hdue : indentDue pending (.text s :: xs) = indentDue pending xs := by
          simp [indentDue, Item.indentAfter, hs]
        rw [List.cons_append, plainWrites, if_pos hs, plainWrites, if_pos hs, hdue, ih]
      · have hdue : indentDue pending (.text s :: xs) = indentDue 0 xs := by
          simp [indentDue, Item.indentAfter, hs]
        rw [List.cons_append, plainWrites, if_neg hs, plainWrites, if_neg hs, hdue, ih]
        rfl
    | line level => exact congrArg (sp.newline :: ·) (ih level)
    | push a | pop a => exact ih pending

theorem toList_renderItems_append (sp : Spelling) (xs ys : List Item) :
    (renderItems sp (xs ++ ys)).toList =
      (renderItems sp xs).toList ++ (plainWrites sp (indentDue 0 xs) ys).flatMap String.toList := by
  simp [renderItems, String.toList_join, plainWrites_append]

/-- A line break to level zero cuts the rendered text in two. -/
theorem renderItems_append_line (sp : Spelling) (xs ys : List Item) :
    renderItems sp (xs ++ .line 0 :: ys) =
      renderItems sp xs ++ sp.newline ++ renderItems sp ys := by
  refine String.toList_injective ?_
  rw [toList_renderItems_append]
  simp [renderItems, String.toList_join, plainWrites]

/-- Parts that end their lines are rendered one by one. -/
theorem renderItems_flatMap_line {α : Type} (sp : Spelling) (f : α → List Item) (as : List α) :
    renderItems sp (as.flatMap fun a => f a ++ [.line 0]) =
      String.join (as.map fun a => renderItems sp (f a) ++ sp.newline) := by
  induction as with
  | nil => rfl
  | cons a as ih =>
    rw [List.flatMap_cons, List.append_assoc, List.singleton_append, renderItems_append_line, ih,
      List.map_cons, String.join_cons]

/-! ### The line in progress -/

/-- The level of a line break. -/
def Item.level? : Item → Option Nat
  | .line level => some level
  | .text _ | .push _ | .pop _ => none

/-- The items since the last line break, or all of them if there is none. -/
def lineInProgress (items : List Item) : List Item :=
  (items.reverse.takeWhile (·.level?.isNone)).reverse

/-- The level of the last line break, or zero if there is none. -/
def lineLevel (items : List Item) : Nat := (items.reverse.findSome? Item.level?).getD 0

/-- Whether an item is a text that is not empty. -/
def Item.isText : Item → Bool
  | .text s => !s.isEmpty
  | .line _ | .push _ | .pop _ => false

/-- Whether there is a text that is not empty among the items. -/
def showsText (items : List Item) : Bool := items.any Item.isText

theorem showsText_lineInProgress_concat (items : List Item) (item : Item) :
    showsText (lineInProgress (items ++ [item])) =
      (item.level?.isNone && (showsText (lineInProgress items) || item.isText)) := by
  cases item <;> simp [lineInProgress, showsText, Item.level?]

theorem lineLevel_concat (items : List Item) (item : Item) :
    lineLevel (items ++ [item]) = item.level?.getD (lineLevel items) := by
  cases item <;> simp [lineLevel, Item.level?, List.findSome?_cons]

/-! ### Indentation by spaces -/

theorem width_append (cs ds : List Char) : width (cs ++ ds) = width cs + width ds :=
  List.countP_append

/-- Indentation spelled by spaces, as many for a level as it has columns on the page. -/
def Page.spaces (page : Page) : Spelling :=
  { indentUnit := String.ofList (List.replicate page.indentWidth.toNat ' ') }

theorem toList_indentation_spaces (page : Page) (level : Nat) :
    (page.spaces.indentation level).toList =
      List.replicate (level * page.indentWidth.toNat) ' ' := by
  rw [Spelling.indentation, String.toList_join, List.flatMap_replicate]
  simp [Page.spaces]

theorem newline_not_mem_indentation_spaces (page : Page) (level : Nat) :
    '\n' ∉ (page.spaces.indentation level).toList := by
  rw [toList_indentation_spaces]
  simp

theorem width_indentation_spaces {page : Page} (hpage : 0 ≤ page.indentWidth) (level : Nat) :
    (width (page.spaces.indentation level).toList : Int) = level * page.indentWidth := by
  rw [toList_indentation_spaces, width, List.countP_replicate]
  simp [Int.toNat_of_nonneg hpage]

/-! ### In step -/

/-- What the column after items and their rendered text have in common. -/
structure InStep (page : Page) (items : List Item) : Prop where
  /-- After a text no indentation is due, and the column is the width of the last line. -/
  of_text : showsText (lineInProgress items) = true →
    indentDue 0 items = 0 ∧
      columnFrom page 0 items = width (lastLine (renderItems page.spaces items).toList)
  /-- Before a text the indentation of the line is due, nothing of it is written, and the column
  is where it will end. -/
  of_no_text : showsText (lineInProgress items) = false →
    indentDue 0 items = lineLevel items ∧
      columnFrom page 0 items = lineLevel items * page.indentWidth ∧
      lastLine (renderItems page.spaces items).toList = []

/-- With the indentation that is due, the last line is as wide as the column says. -/
theorem InStep.column_eq {page : Page} (hpage : 0 ≤ page.indentWidth) {items : List Item}
    (h : InStep page items) :
    columnFrom page 0 items = width (lastLine (renderItems page.spaces items).toList) +
      width (page.spaces.indentation (indentDue 0 items)).toList := by
  cases htext : showsText (lineInProgress items) with
  | true =>
    obtain ⟨hdue, hcolumn⟩ := h.of_text htext
    rw [hdue, hcolumn, width_indentation_spaces hpage]
    simp
  | false =>
    obtain ⟨hdue, hcolumn, hline⟩ := h.of_no_text htext
    rw [hdue, hcolumn, hline, width_indentation_spaces hpage]
    simp [width]

theorem inStep_nil (page : Page) : InStep page [] where
  of_text h := by cases h
  of_no_text _ := ⟨rfl, by simp [columnFrom, lineLevel], rfl⟩

/-- After a text that is printed where column and rendered text are in step, they still are. -/
theorem InStep.text {page : Page} (hpage : 0 ≤ page.indentWidth) {items : List Item}
    (h : InStep page items) {s : String} (hs : s.isEmpty = false) :
    InStep page (items ++ [.text s]) where
  of_text _ := by
    refine ⟨by simp [indentDue, Item.indentAfter, hs], ?_⟩
    have hwritten : (renderItems page.spaces (items ++ [.text s])).toList =
        (renderItems page.spaces items).toList ++
          ((page.spaces.indentation (indentDue 0 items)).toList ++ s.toList) := by
      simp [toList_renderItems_append, plainWrites, hs]
    rw [columnFrom_append, hwritten]
    show columnAfter _ s.toList = _
    rw [columnAfter]
    by_cases hfeed : '\n' ∈ s.toList
    · -- the text starts a line of its own
      rw [if_pos (by simpa [breaks] using hfeed), ← List.append_assoc,
        lastLine_append_of_mem hfeed]
    · rw [if_neg (by simpa [breaks] using hfeed), h.column_eq hpage,
        ← List.append_assoc, lastLine_append_of_not_mem hfeed,
        lastLine_append_of_not_mem (newline_not_mem_indentation_spaces page _)]
      rw [width_append, width_append]
      omega
  of_no_text hnone := by
    simp [showsText_lineInProgress_concat, Item.level?, Item.isText, hs] at hnone

/-- A line break leaves its indentation due. -/
theorem inStep_line (page : Page) (items : List Item) (level : Nat) :
    InStep page (items ++ [.line level]) where
  of_text h := by simp [showsText_lineInProgress_concat, Item.level?] at h
  of_no_text _ := by
    refine ⟨?_, ?_, ?_⟩
    · simp [indentDue, lineLevel_concat, Item.level?, Item.indentAfter]
    · simp [columnFrom, lineLevel_concat, Item.level?, Item.columnAfter]
    · have hwritten : (renderItems page.spaces (items ++ [.line level])).toList =
          (renderItems page.spaces items).toList ++ ['\n'] := by
        simp [toList_renderItems_append, plainWrites, Page.spaces]
      rw [hwritten, lastLine_append_of_mem (by simp)]
      rfl

/-- Items that write nothing and keep the column keep both in step. -/
theorem InStep.silent {page : Page} {items : List Item} (h : InStep page items) {item : Item}
    (hlevel : item.level? = none) (htext : item.isText = false)
    (hcolumn : ∀ column, item.columnAfter page column = column)
    (hdue : ∀ pending, item.indentAfter pending = pending)
    (hwrites : ∀ pending, plainWrites page.spaces pending [item] = []) :
    InStep page (items ++ [item]) := by
  have hshows : showsText (lineInProgress (items ++ [item])) =
      showsText (lineInProgress items) := by
    simp [showsText_lineInProgress_concat, hlevel, htext]
  have hindent : indentDue 0 (items ++ [item]) = indentDue 0 items := by
    simp [indentDue, hdue]
  have hlast : columnFrom page 0 (items ++ [item]) = columnFrom page 0 items := by
    simp [columnFrom, hcolumn]
  have hwritten : (renderItems page.spaces (items ++ [item])).toList =
      (renderItems page.spaces items).toList := by
    simp [toList_renderItems_append, hwrites]
  have hline : lineLevel (items ++ [item]) = lineLevel items := by
    simp [lineLevel_concat, hlevel]
  constructor
  · rw [hshows, hindent, hlast, hwritten]
    exact h.of_text
  · rw [hshows, hindent, hlast, hwritten, hline]
    exact h.of_no_text

/-- One more item keeps column and rendered text in step. -/
theorem InStep.next {page : Page} (hpage : 0 ≤ page.indentWidth) {items : List Item}
    (h : InStep page items) (item : Item) : InStep page (items ++ [item]) := by
  cases item with
  | text s =>
    cases hs : s.isEmpty with
    | false => exact h.text hpage hs
    | true =>
      have hnil : s.toList = [] := by simpa using hs
      refine h.silent rfl (by simp [Item.isText, hs]) (fun column => ?_) (fun pending => ?_)
        fun pending => ?_
      · simp [Item.columnAfter, columnAfter, hnil, breaks, width]
      · simp [Item.indentAfter, hs]
      · simp [plainWrites, hs]
  | line level => exact inStep_line page items level
  | push a | pop a => exact h.silent rfl rfl (fun _ => rfl) (fun _ => rfl) fun _ => rfl

/-- Over every stream of items column and rendered text are in step. -/
theorem inStep {page : Page} (hpage : 0 ≤ page.indentWidth) (items : List Item) :
    InStep page items := by
  induction items using List.reverseRecOn with
  | nil => exact inStep_nil page
  | append_singleton items item ih => exact ih.next hpage item

/-- **The layout and rendering agree on columns.** At every state that the layout of a document
comes to, the items emitted so far are the front of the layout. If there is a text among those
since the last line break, then the column is the width of the last line of their rendered text.
If there is none, then the column is that of the level of the line break, and the last line of
the rendered text is still empty. -/
theorem column_eq_width_of_rendered (page : Page) (hpage : 0 ≤ page.indentWidth) {d : Doc}
    (hd : d.isKnown = true) {emitted : List Item} {column : Int} {stack : List Command}
    (h : Reaches page d emitted column stack) :
    (∃ later, (layout page d).result = .ok (emitted ++ later)) ∧
    (showsText (lineInProgress emitted) = true →
      column = width (lastLine (renderItems page.spaces emitted).toList)) ∧
    (showsText (lineInProgress emitted) = false →
      column = page.indentWidth * lineLevel emitted ∧
        lastLine (renderItems page.spaces emitted).toList = []) := by
  have hstep := inStep hpage emitted
  refine ⟨?_, fun htext => ?_, fun hnone => ?_⟩
  · obtain ⟨items, hitems⟩ := exists_layout_eq page hd
    have hprepend := h.layout_eq
    rw [hitems, Layout.prepend, Layout.mk.injEq] at hprepend
    exact ⟨(run page column stack).items, by rw [hitems, hprepend.1]; rfl⟩
  · rw [h.column_eq]
    exact (hstep.of_text htext).2
  · obtain ⟨-, hcolumn, hline⟩ := hstep.of_no_text hnone
    rw [h.column_eq, hcolumn, Int.mul_comm]
    exact ⟨rfl, hline⟩

/-- An indented text with a line feed and a tab of its own: the column is that of the indentation
before the text, and one after it. -/
theorem column_eq_width_of_rendered_tab :
    let page : Page := ⟨10, 2⟩
    let d : Doc := .indent (.concat [.line .hard, .lit "x\n\ty"])
    let written (emitted : List Item) : List Char := (renderItems page.spaces emitted).toList
    (0 ≤ page.indentWidth ∧ d.isKnown = true ∧ Reaches page d [.line 1] 2 [.print 1 .broken
        (.lit "x\n\ty")] ∧ Reaches page d [.line 1, .text "x\n\ty"] 1 []) ∧
      (2 = page.indentWidth * lineLevel [.line 1] ∧ lastLine (written [.line 1]) = []) ∧
      (1 : Int) = width (lastLine (written [.line 1, .text "x\n\ty"])) := by
  intro page d written
  have hstart : Reaches page d [] 0 [.print 0 .broken d.normal] := by
    rw [← Doc.normalize_eq_normal]
    exact .start
  have hbreak : Reaches page d [.line 1] 2 [.print 1 .broken (.lit "x\n\ty")] :=
    (((hstart.next rfl).next rfl).next rfl).next rfl
  have hend : Reaches page d [.line 1, .text "x\n\ty"] 1 [] := hbreak.next rfl
  have hpage : 0 ≤ page.indentWidth := by decide
  exact ⟨⟨hpage, rfl, hbreak, hend⟩, (column_eq_width_of_rendered page hpage rfl hbreak).2.2 rfl,
    (column_eq_width_of_rendered page hpage rfl hend).2.1 rfl⟩

end Typeset
