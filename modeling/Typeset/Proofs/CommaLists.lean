import Typeset.Proofs.WordWrap

/-!
# Comma lists packed onto lines

A packed comma list wraps its items like words, with the comma as the mark of each separator. The
comma in front of a line break stands on the line of the item before it, but it was measured with
the item behind the line break only. So a row of items may take the whole width, and its comma then
stands one column beyond it. This is the only way in which a line of two or more items can be too
wide.

## Main definitions

* `commaLines` : the lines of rows of items.

## Main results

* `renderItems_lineItemsOf_append` : how words on a line are rendered.
* `lines_renderItems_wrappedItems` : the lines of rows of items, rendered.
* `commaSeparated_over_iff` : which lines of a packed comma list are too wide.
-/

namespace Typeset

open Text

/-! ### Lines of a text -/

theorem lines_of_not_breaks {cs : List Char} (h : breaks cs = false) : lines cs = [cs] := by
  induction cs with
  | nil => rfl
  | cons c cs ih =>
    simp only [breaks, List.contains_cons, Bool.or_eq_false_iff, beq_eq_false_iff_ne] at h
    rw [lines, if_neg (Ne.symm h.1), ih h.2]

/-- A line feed ends a line. -/
theorem lines_append_newline {cs : List Char} (h : breaks cs = false) (ds : List Char) :
    lines (cs ++ '\n' :: ds) = cs :: lines ds := by
  induction cs with
  | nil => rfl
  | cons c cs ih =>
    simp only [breaks, List.contains_cons, Bool.or_eq_false_iff, beq_eq_false_iff_ne] at h
    rw [List.cons_append, lines, if_neg (Ne.symm h.1), ih h.2]

theorem breaks_append (cs ds : List Char) : breaks (cs ++ ds) = (breaks cs || breaks ds) := by
  simp [breaks]

theorem breaks_intercalate (joint : String) (hjoint : breaks joint.toList = false)
    {words : List String} (hwords : ∀ s ∈ words, breaks s.toList = false) :
    breaks (joint.intercalate words).toList = false := by
  induction words with
  | nil => rfl
  | cons s words ih =>
    obtain ⟨hs, hwords⟩ := List.forall_mem_cons.mp hwords
    rcases eq_or_ne words [] with rfl | hne
    · rwa [String.intercalate_singleton]
    · rw [String.intercalate_cons_of_ne_nil hne, String.toList_append, String.toList_append,
        breaks_append, breaks_append, hs, hjoint, ih hwords]
      rfl

/-! ### Rendering lines of words -/

section Render

variable {sp : Spelling}

/-- Items without a line break leave no indentation due. -/
theorem renderItems_append {xs : List Item} (hxs : ∀ x ∈ xs, x.level? = none) (ys : List Item) :
    renderItems sp (xs ++ ys) = renderItems sp xs ++ renderItems sp ys := by
  have hdue : indentDue 0 xs = 0 := by
    induction xs with
    | nil => rfl
    | cons x xs ih =>
      obtain ⟨hx, hxs⟩ := List.forall_mem_cons.mp hxs
      have hafter : x.indentAfter 0 = 0 := by
        cases x with
        | line level => cases hx
        | text s => exact ite_self 0
        | push a | pop a => rfl
      rw [indentDue, List.foldl_cons, hafter]
      exact ih hxs
  refine String.toList_injective ?_
  rw [toList_renderItems_append, hdue, String.toList_append, renderItems, renderItems,
    String.toList_join, String.toList_join]

/-- A text is rendered as it is, where no indentation is due. -/
theorem renderItems_textItems_append (s : String) (ys : List Item) :
    renderItems sp (textItems s ++ ys) = s ++ renderItems sp ys := by
  have hlevel : ∀ x ∈ textItems s, x.level? = none := by
    rw [textItems]
    split <;> simp [Item.level?]
  rw [renderItems_append hlevel, textItems]
  split
  · next hempty =>
    rw [String.isEmpty_iff.mp hempty]
    rfl
  · next hempty => simp [renderItems, plainWrites, Spelling.indentation, hempty]

/-- Words on a line are rendered with their marks and spaces. -/
theorem renderItems_lineItemsOf_append (mark : String) (words : List String) (ys : List Item) :
    renderItems sp (lineItemsOf mark words ++ ys) =
      (mark ++ " ").intercalate words ++ renderItems sp ys := by
  induction words with
  | nil =>
    rw [String.intercalate_nil, String.empty_append]
    rfl
  | cons s words ih =>
    rcases eq_or_ne words [] with rfl | hne
    · rw [String.intercalate_singleton, lineItemsOf_singleton, renderItems_textItems_append]
    · have hspace : renderItems sp (.text " " :: (lineItemsOf mark words ++ ys)) =
          " " ++ renderItems sp (lineItemsOf mark words ++ ys) :=
        renderItems_textItems_append " " _
      rw [lineItemsOf_cons mark s hne, String.intercalate_cons_of_ne_nil hne, List.append_assoc,
        renderItems_textItems_append, List.append_assoc, renderItems_textItems_append,
        List.cons_append, hspace, ih]
      simp only [String.append_assoc]

/-- The lines of rows of items: a comma stands between any two items of a row, and behind every row
but the last. -/
def commaLines : List (List String) → List String
  | [] => [""]
  | [row] => [", ".intercalate row]
  | row :: next :: rows => (", ".intercalate row ++ ",") :: commaLines (next :: rows)

theorem getElem?_commaLines {rows : List (List String)} {n : Nat} {row : List String}
    (h : rows[n]? = some row) :
    (commaLines rows)[n]? =
      some (", ".intercalate row ++ if n + 1 < rows.length then "," else "") := by
  fun_induction commaLines rows generalizing n with
  | case1 => cases h
  | case2 only =>
    cases n with
    | zero => cases h; simp
    | succ n => cases h
  | case3 first next rows ih =>
    cases n with
    | zero => cases h; simp
    | succ n =>
      rw [List.getElem?_cons_succ] at h ⊢
      rw [ih h]
      simp

/-- **Rows of items are rendered on lines of their own.** -/
theorem lines_renderItems_wrappedItems (sp : Spelling) (hsp : sp.newline = "\n")
    {rows : List (List String)}
    (hrows : ∀ row ∈ rows, ∀ s ∈ row, breaks s.toList = false) :
    lines (renderItems sp (wrappedItems "," 0 rows)).toList =
      (commaLines rows).map String.toList := by
  have hjoint : "," ++ " " = ", " := rfl
  fun_induction commaLines rows with
  | case1 => rfl
  | case2 row =>
    have hrow := breaks_intercalate ", " rfl (hrows row List.mem_cons_self)
    rw [wrappedItems_singleton, ← List.append_nil (lineItemsOf _ _),
      renderItems_lineItemsOf_append, hjoint]
    have hnil : renderItems sp [] = "" := rfl
    rw [hnil, String.append_empty, lines_of_not_breaks hrow]
    rfl
  | case3 row next rows ih =>
    obtain ⟨hrow, hrows⟩ := List.forall_mem_cons.mp hrows
    have hbreaks : breaks (", ".intercalate row ++ ",").toList = false := by
      rw [String.toList_append, breaks_append, breaks_intercalate ", " rfl hrow]
      rfl
    have hline (ys : List Item) : renderItems sp (.line 0 :: ys) = "\n" ++ renderItems sp ys := by
      rw [← hsp]
      exact renderItems_append_line sp [] ys
    have hnewline (s : String) : ("\n" ++ s).toList = '\n' :: s.toList := String.toList_append
    rw [wrappedItems_cons "," 0 row (List.cons_ne_nil next rows), renderItems_lineItemsOf_append,
      hjoint, renderItems_textItems_append, hline, ← String.append_assoc, String.toList_append,
      hnewline, lines_append_newline hbreaks, ih hrows]
    rfl

end Render

/-! ### Comma lists -/

theorem commaSeparated_map_lit (s : String) (words : List String) :
    Doc.commaSeparated true ((s :: words).map .lit) = .fill (.word s :: fillTail "," words) := by
  rw [Doc.commaSeparated, if_pos rfl, Doc.filled, List.map_cons, intersperse_cons_eq,
    List.flatMap_map, List.map_cons, List.map_flatMap]
  rfl

/-- The layout of a packed comma list wraps its items. -/
theorem exists_layout_commaSeparated (page : Page) {docs : List String}
    (hdocs : ∀ s ∈ docs, breaks s.toList = false) :
    ∃ rows, (page.margins 0 0).Wraps ", " rows docs ∧
      layout page (.commaSeparated true (docs.map .lit)) = ⟨wrappedItems "," 0 rows, none⟩ := by
  cases docs with
  | nil =>
    refine ⟨[], ⟨rfl, by simp, by rintro n line ⟨⟩, by rintro n line word words ⟨⟩⟩, ?_⟩
    rw [layout, Doc.normalize_eq_normal]
    exact (run_cons_of_silent rfl).trans (by rw [List.append_nil, run]; rfl)
  | cons s docs =>
    obtain ⟨rows, hwraps, hrun⟩ := exists_run_fill page 0 0 "," rfl hdocs
    refine ⟨rows, hwraps, ?_⟩
    rw [commaSeparated_map_lit, layout, Doc.normalize_eq_normal, Doc.normal_fill, hrun]

/-- **Which lines of a packed comma list are too wide.** The items come out in their order on rows
that are packed without the commas at their ends, and each row is a line of the rendered text, with
a comma at its end if there is a row behind it. So a line of two or more items is at most one column
too wide, and it is if its items alone take the whole width and a row follows. -/
theorem commaSeparated_over_iff (page : Page) (unit : String) {docs : List String}
    (hdocs : ∀ s ∈ docs, breaks s.toList = false) :
    ∃ items rows,
      (layout page (.commaSeparated true (docs.map .lit))).result = .ok items ∧
      (page.margins 0 0).Wraps ", " rows docs ∧
      lines (renderItems { indentUnit := unit } items).toList =
        (commaLines rows).map String.toList ∧
      ∀ n row line, rows[n]? = some row → 2 ≤ row.length →
        (lines (renderItems { indentUnit := unit } items).toList)[n]? = some line →
          (width line : Int) ≤ page.width + 1 ∧
          (page.width < width line ↔ n + 1 < rows.length ∧ lineWidth ", " row = page.width) := by
  obtain ⟨rows, hwraps, hlayout⟩ := exists_layout_commaSeparated page hdocs
  have hrows : ∀ row ∈ rows, ∀ s ∈ row, breaks s.toList = false := fun row hrow s hs =>
    hdocs s (hwraps.flatten_eq ▸ List.mem_flatten_of_mem hrow hs)
  have hlines := lines_renderItems_wrappedItems { indentUnit := unit } rfl hrows
  refine ⟨_, rows, by rw [hlayout]; rfl, hwraps, hlines, fun n row line hrow hlength hline => ?_⟩
  rw [hlines, List.getElem?_map, getElem?_commaLines hrow] at hline
  have hwidth : width line = lineWidth ", " row + if n + 1 < rows.length then 1 else 0 := by
    obtain rfl := Option.some.inj hline
    rw [String.toList_append, width_append]
    split <;> rfl
  have hstart : (page.margins 0 0).start n = 0 := by
    cases n with
    | zero => rfl
    | succ n => exact Int.zero_mul page.indentWidth
  have hkeeps : (page.margins 0 0).start n + lineWidth ", " row ≤ page.width :=
    hwraps.keeps n row hrow hlength
  rw [hstart, Int.zero_add] at hkeeps
  split at hwidth <;> omega

/-- Two rows, of which the first one takes the whole width. -/
theorem commaSeparated_over_iff_three :
    let docs := ["aaa", "bbb", "cccc"]
    (∀ s ∈ docs, breaks s.toList = false) ∧
      ∃ items rows,
        (layout ⟨8, 2⟩ (.commaSeparated true (docs.map .lit))).result = .ok items ∧
        ((⟨8, 2⟩ : Page).margins 0 0).Wraps ", " rows docs ∧
        lines (renderItems { indentUnit := "  " } items).toList =
          (commaLines rows).map String.toList ∧
        ∀ n row line, rows[n]? = some row → 2 ≤ row.length →
          (lines (renderItems { indentUnit := "  " } items).toList)[n]? = some line →
            (width line : Int) ≤ 8 + 1 ∧
            ((8 : Int) < width line ↔ n + 1 < rows.length ∧ lineWidth ", " row = (8 : Int)) :=
  ⟨by decide, commaSeparated_over_iff ⟨8, 2⟩ "  " (by decide)⟩

/-- The comma behind two items stands beyond the width. -/
theorem commaSeparated_over_two_items :
    ∃ items,
      (layout ⟨8, 2⟩ (.commaSeparated true (["aaa", "bbb", "cccc"].map .lit))).result = .ok items ∧
      lines (renderItems {} items).toList = ["aaa, bbb,".toList, "cccc".toList] ∧
      8 < width "aaa, bbb,".toList := by
  refine ⟨wrappedItems "," 0 [["aaa", "bbb"], ["cccc"]], ?_, by decide, by decide⟩
  rw [← toOption_eq_some_iff]
  decide +kernel

end Typeset
