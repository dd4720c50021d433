import Mathlib.Data.List.Infix
import Mathlib.Logic.Function.Iterate
import Typeset.Proofs.Admissible
import Typeset.Proofs.FirstLine
import Typeset.Proofs.HardLineLocality
import Typeset.Proofs.RenderedColumns

/-!
# Words packed onto lines

A fill of words decides word by word: the next one stays on the line if it ends within the width
there, and starts a line otherwise. The lines that come of this are told by two conditions, each
about single lines: a line of two or more words ends within the width, and the first word of a line
would not have fitted at the end of the line before it. From the second one alone it follows that no
other way to keep within the width takes fewer lines, since every line of it ends no later in the
list of words than the line of the same number here.

Words may be empty, or wider than the page, and the first line may start anywhere; then a line with
a single word can run over the width, and no other line can.

A separator may print a mark in front of its space or line break. The mark is measured with the
word behind it and not with the one in front of it.

## Main definitions

* `lineWidth` : the width of words on a line.
* `Margins`, `Margins.Keeps`, `Margins.IsFull`, `Margins.Wraps` : where lines of words start and
  should end, and the conditions on them.
* `lineItemsOf`, `wrappedItems` : the items of a line of words, and of such lines.
* `Doc.markedLine` : a separator with a mark.
* `Page.margins` : the margins of words that are laid out at a level.

## Main results

* `Margins.IsFull.length_le` : full lines are as few as can be.
* `run_fillPair` : what a fill does with the next separator and the word behind it.
* `exists_run_fill` : the run of a fill of words.
* `layout_fillSep_wraps` : words in a fill are wrapped, with the fewest lines.
-/

namespace Typeset

open Text

/-! ### Lines of words -/

/-- The width of words on a line with a joint between any two of them. -/
def lineWidth (joint : String) (words : List String) : Nat :=
  width (joint.intercalate words).toList

theorem lineWidth_singleton (joint word : String) :
    lineWidth joint [word] = width word.toList := by
  rw [lineWidth, String.intercalate_singleton]

theorem lineWidth_append (joint : String) {xs ys : List String} (hx : xs ≠ []) (hy : ys ≠ []) :
    lineWidth joint (xs ++ ys) = lineWidth joint xs + width joint.toList + lineWidth joint ys := by
  rw [lineWidth, String.intercalate_append_of_ne_nil hx hy, String.toList_append,
    String.toList_append, width_append, width_append]
  rfl

theorem lineWidth_concat (joint : String) {words : List String} (h : words ≠ []) (word : String) :
    lineWidth joint (words ++ [word]) =
      lineWidth joint words + width joint.toList + width word.toList := by
  rw [lineWidth_append joint h (List.cons_ne_nil _ _), lineWidth_singleton]

/-- Words that stand on a line among others take no more than the whole line. -/
theorem lineWidth_le_of_infix (joint : String) {xs ys : List String} (h : xs <:+: ys) :
    lineWidth joint xs ≤ lineWidth joint ys := by
  have hleft (xs ys : List String) : lineWidth joint xs ≤ lineWidth joint (xs ++ ys) := by
    rcases eq_or_ne xs [] with rfl | hx
    · exact Nat.zero_le _
    · rcases eq_or_ne ys [] with rfl | hy
      · rw [List.append_nil]
      · rw [lineWidth_append joint hx hy]
        omega
  have hright (xs ys : List String) : lineWidth joint ys ≤ lineWidth joint (xs ++ ys) := by
    rcases eq_or_ne ys [] with rfl | hy
    · exact Nat.zero_le _
    · rcases eq_or_ne xs [] with rfl | hx
      · rw [List.nil_append]
      · rw [lineWidth_append joint hx hy]
        omega
  obtain ⟨front, back, rfl⟩ := h
  exact Nat.le_trans (hright front xs) (hleft (front ++ xs) back)

/-- Where lines of words start, and within which column they should end. -/
structure Margins where
  /-- The column at which the first line starts. -/
  first : Int
  /-- The column at which every later line starts. -/
  later : Int
  /-- The column within which lines should end. -/
  width : Int

namespace Margins

variable (m : Margins) (joint : String) (lines : List (List String))

/-- The column at which the line with an index starts. -/
def start : Nat → Int
  | 0 => m.first
  | _ + 1 => m.later

/-- Whether every line of two or more words ends within the width. -/
def Keeps : Prop :=
  ∀ n line, lines[n]? = some line → 2 ≤ line.length →
    m.start n + lineWidth joint line ≤ m.width

/-- Whether the first word of every later line would not have fitted at the end of the line before
it. -/
def IsFull : Prop :=
  ∀ n line word words, lines[n]? = some line → lines[n + 1]? = some (word :: words) →
    m.width < m.start n + lineWidth joint (line ++ [word])

/-- Lines on which words are packed, in their order, as long as they fit. -/
structure Wraps (words : List String) : Prop where
  flatten_eq : lines.flatten = words
  ne_nil : ∀ line ∈ lines, line ≠ []
  keeps : m.Keeps joint lines
  isFull : m.IsFull joint lines

/-- The margins of the lines behind the first one. -/
def after : Margins := { m with first := m.later }

variable {m joint lines} {line : List String}

theorem start_after (n : Nat) : m.after.start n = m.start (n + 1) := by
  cases n <;> rfl

theorem keeps_cons_iff : m.Keeps joint (line :: lines) ↔
    (2 ≤ line.length → m.first + lineWidth joint line ≤ m.width) ∧ m.after.Keeps joint lines := by
  constructor
  · intro h
    refine ⟨h 0 line rfl, fun n l hl hlength => ?_⟩
    rw [start_after]
    exact h (n + 1) l hl hlength
  · rintro ⟨hline, hlines⟩ n l hl hlength
    cases n with
    | zero =>
      cases hl
      exact hline hlength
    | succ n =>
      rw [← start_after]
      exact hlines n l hl hlength

theorem isFull_cons_iff : m.IsFull joint (line :: lines) ↔
    (∀ word words, lines[0]? = some (word :: words) →
      m.width < m.first + lineWidth joint (line ++ [word])) ∧ m.after.IsFull joint lines := by
  constructor
  · intro h
    refine ⟨fun word words => h 0 line word words rfl, fun n l word words hl hnext => ?_⟩
    rw [start_after]
    exact h (n + 1) l word words hl hnext
  · rintro ⟨hline, hlines⟩ n l word words hl hnext
    cases n with
    | zero =>
      cases hl
      exact hline word words hnext
    | succ n =>
      rw [← start_after]
      exact hlines n l word words hl hnext

/-- The first line starts with the first word. -/
theorem exists_getElem?_zero (hne : ∀ line ∈ lines, line ≠ []) {word : String}
    {words : List String} (h : lines.flatten = word :: words) :
    ∃ words, lines[0]? = some (word :: words) := by
  cases lines with
  | nil => cases h
  | cons line lines =>
    obtain ⟨first, rest, rfl⟩ := List.exists_cons_of_ne_nil (hne line List.mem_cons_self)
    cases h
    exact ⟨rest, rfl⟩

/-- **Full lines are as few as can be.** Lines that keep within the width, with at least the words
of some full lines, are at least as many. -/
theorem IsFull.length_le (hfull : m.IsFull joint lines) (hne : ∀ line ∈ lines, line ≠ [])
    {others : List (List String)} (hkeeps : m.Keeps joint others)
    (hwords : lines.flatten <:+ others.flatten) : lines.length ≤ others.length := by
  -- the words that are left after each line stay a suffix of those left by the other lines
  induction lines generalizing m others with
  | nil => exact Nat.zero_le _
  | cons line lines ih =>
    obtain ⟨hline, hlines⟩ := List.forall_mem_cons.mp hne
    rw [isFull_cons_iff] at hfull
    cases others with
    | nil =>
      exact absurd (List.append_eq_nil_iff.mp (List.suffix_nil.mp hwords)).1 hline
    | cons other others =>
      rw [keeps_cons_iff] at hkeeps
      refine Nat.succ_le_succ (ih hfull.2 hlines hkeeps.2 ?_)
      rw [List.flatten_cons, List.flatten_cons] at hwords
      have hboth := List.suffix_or_suffix_of_suffix
        ((List.suffix_append line lines.flatten).trans hwords) (List.suffix_append other _)
      rcases hboth with hsuffix | ⟨ahead, hahead⟩
      · exact hsuffix
      · cases ahead with
        | nil => exact hahead ▸ List.suffix_refl _
        | cons word ahead =>
          -- the other line would hold this one and the word behind it
          obtain ⟨words, hnext⟩ := exists_getElem?_zero hlines hahead.symm
          have hinfix : line ++ [word] <:+: other := by
            obtain ⟨front, hfront⟩ := hwords
            rw [← hahead, ← List.append_assoc, ← List.append_assoc] at hfront
            exact ⟨front, ahead, by simpa using List.append_cancel_right hfront⟩
          have hlength : 2 ≤ other.length := by
            have := hinfix.length_le
            have := List.length_pos_iff.mpr hline
            simp only [List.length_append, List.length_singleton] at *
            omega
          have hle := hkeeps.1 hlength
          have hlt := hfull.1 word words hnext
          have hwidth := lineWidth_le_of_infix joint hinfix
          omega

/-- A line of its own, if it may be wider than the margins only as a single word. -/
theorem wraps_singleton (hline : line ≠ [])
    (hkeeps : 2 ≤ line.length → m.first + lineWidth joint line ≤ m.width) :
    m.Wraps joint [line] line where
  flatten_eq := List.append_nil line
  ne_nil := List.forall_mem_singleton.mpr hline
  keeps := keeps_cons_iff.mpr ⟨hkeeps, by rintro n l ⟨⟩⟩
  isFull := isFull_cons_iff.mpr ⟨by rintro word words ⟨⟩, by rintro n l word words ⟨⟩⟩

/-- A line in front of others, where the next word does not fit on it. -/
theorem Wraps.cons {word : String} {words : List String}
    (h : m.after.Wraps joint lines (word :: words)) (hline : line ≠ [])
    (hkeeps : 2 ≤ line.length → m.first + lineWidth joint line ≤ m.width)
    (hfull : m.width < m.first + lineWidth joint (line ++ [word])) :
    m.Wraps joint (line :: lines) (line ++ word :: words) where
  flatten_eq := congrArg (line ++ ·) h.flatten_eq
  ne_nil := List.forall_mem_cons.mpr ⟨hline, h.ne_nil⟩
  keeps := keeps_cons_iff.mpr ⟨hkeeps, h.keeps⟩
  isFull := by
    refine isFull_cons_iff.mpr ⟨fun next _ hnext => ?_, h.isFull⟩
    obtain ⟨_, hfirst⟩ := exists_getElem?_zero h.ne_nil h.flatten_eq
    rw [hfirst] at hnext
    cases hnext
    exact hfull

end Margins

/-! ### The items of wrapped words -/

/-- The items of words on a line, with a mark and a space between any two of them. -/
def lineItemsOf (mark : String) (words : List String) : List Item :=
  (textItems mark ++ [Item.text " "]).intercalate (words.map textItems)

/-- The items of lines of words, with a mark and a line break between any two of them. -/
def wrappedItems (mark : String) (level : Nat) (lines : List (List String)) : List Item :=
  (textItems mark ++ [Item.line level]).intercalate (lines.map (lineItemsOf mark))

/-- What a separator does to a list: it stands in front of every member but the first. -/
theorem intersperse_cons_eq {α : Type} (separator x : α) (xs : List α) :
    (x :: xs).intersperse separator = x :: xs.flatMap fun y => [separator, y] := by
  induction xs generalizing x with
  | nil => rfl
  | cons y ys ih => rw [List.intersperse_cons_cons, ih, List.flatMap_cons]; rfl

theorem lineItemsOf_singleton (mark word : String) : lineItemsOf mark [word] = textItems word :=
  List.intercalate_singleton

theorem lineItemsOf_cons (mark word : String) {words : List String} (h : words ≠ []) :
    lineItemsOf mark (word :: words) =
      textItems word ++ (textItems mark ++ .text " " :: lineItemsOf mark words) := by
  obtain ⟨next, words, rfl⟩ := List.exists_cons_of_ne_nil h
  simp [lineItemsOf, List.intercalate_cons_cons]

theorem lineItemsOf_concat (mark : String) {words : List String} (h : words ≠ []) (word : String) :
    lineItemsOf mark (words ++ [word]) =
      lineItemsOf mark words ++ (textItems mark ++ .text " " :: textItems word) := by
  obtain ⟨first, words, rfl⟩ := List.exists_cons_of_ne_nil h
  simp [lineItemsOf, List.intercalate, intersperse_cons_eq]

theorem wrappedItems_singleton (mark : String) (level : Nat) (line : List String) :
    wrappedItems mark level [line] = lineItemsOf mark line := List.intercalate_singleton

theorem wrappedItems_cons (mark : String) (level : Nat) (line : List String)
    {lines : List (List String)} (h : lines ≠ []) :
    wrappedItems mark level (line :: lines) =
      lineItemsOf mark line ++
        (textItems mark ++ .line level :: wrappedItems mark level lines) := by
  obtain ⟨next, lines, rfl⟩ := List.exists_cons_of_ne_nil h
  simp [wrappedItems, List.intercalate_cons_cons]

/-! ### Separators and words -/

namespace Doc

/-- A mark and a soft line. -/
def markedLine (mark : String) : Doc := joined ((lit mark).spliced ++ [softLine])

/-- A word in a fill. -/
def word (s : String) : Doc := (lit s).tidy

end Doc

theorem Layout.prepend_prepend (xs ys : List Item) (l : Layout) :
    (l.prepend ys).prepend xs = l.prepend (xs ++ ys) := by
  simp [prepend]

theorem spliced_lit (s : String) : (Doc.lit s).spliced = if s.isEmpty then [] else [.lit s] := rfl

section Words

variable {page : Page} {column : Int} {s : String}

/-- The columns of a text without line feed are those of its first line. -/
private theorem firstLine_lit (hs : breaks s.toList = false) (b : Bool) (m : Mode) :
    (Doc.lit s).firstLine b m = ⟨width s.toList, .running⟩ := by
  rw [Doc.firstLine, FirstLine.ofText, firstLine_of_not_breaks (by simp [hs]), hs]
  rfl

theorem firstLine_word (hs : breaks s.toList = false) (b : Bool) (m : Mode) :
    (Doc.word s).firstLine b m = ⟨width s.toList, .running⟩ := by
  rw [Doc.word, Doc.tidy]
  split
  · next hempty =>
    have hnil : s.toList = [] := by simpa using hempty
    rw [Doc.firstLine, hnil]
    rfl
  · exact firstLine_lit hs b m

/-- A separator is measured with its mark. -/
theorem firstLine_markedLine (hs : breaks s.toList = false) :
    (Doc.markedLine s).firstLine false .flat = ⟨width s.toList + 1, .running⟩ := by
  rw [Doc.markedLine, spliced_lit]
  split
  · next hempty =>
    have hnil : s.toList = [] := by simpa using hempty
    show Doc.softLine.firstLine false .flat = _
    rw [Doc.softLine, Doc.firstLine, hnil]
    rfl
  · show (Doc.concat [.lit s, .softLine]).firstLine false .flat = _
    rw [Doc.firstLine, Doc.firstLineAll, Doc.firstLineAll, Doc.firstLineAll, firstLine_lit hs,
      Doc.softLine, Doc.firstLine]
    rfl

theorem run_lit (hs : breaks s.toList = false) (i : Nat) (m : Mode) (rest : List Command) :
    run page column (.print i m (.lit s) :: rest) =
      (run page (column + width s.toList) rest).prepend (textItems s) := by
  have hstep : step page column (.print i m (.lit s)) rest =
      .ok ⟨textItems s, column + width s.toList, []⟩ := by
    show Except.ok (printText column s) = _
    rw [printText, textItems]
    split
    · next hempty =>
      have hnil : s.toList = [] := by simpa using hempty
      simp [hnil, width]
    · simp [columnAfter, hs]
  exact run_cons hstep

theorem run_word (hs : breaks s.toList = false) (i : Nat) (m : Mode) (rest : List Command) :
    run page column (.print i m (.word s) :: rest) =
      (run page (column + width s.toList) rest).prepend (textItems s) := by
  rw [Doc.word, Doc.tidy]
  split
  · next hempty =>
    have hnil : s.toList = [] := by simpa using hempty
    rw [run_cons_of_silent rfl, textItems, if_pos hempty, hnil]
    simp [Layout.prepend, width]
  · exact run_lit hs i m rest

/-- A separator prints its mark, and then its line. -/
private theorem run_markedLine (hs : breaks s.toList = false) (i : Nat) (m : Mode)
    (rest : List Command) :
    run page column (.print i m (.markedLine s) :: rest) =
      (run page (column + width s.toList) (.print i m .softLine :: rest)).prepend
        (textItems s) := by
  rw [Doc.markedLine, run_joined, spliced_lit]
  split
  · next hempty =>
    have hnil : s.toList = [] := by simpa using hempty
    rw [textItems, if_pos hempty, hnil]
    simp [Layout.prepend, width, Command.printAll]
  · exact run_lit hs i m (.print i m .softLine :: rest)

theorem run_markedLine_flat (hs : breaks s.toList = false) (i : Nat) (rest : List Command) :
    run page column (.print i .flat (.markedLine s) :: rest) =
      (run page (column + width s.toList + 1) rest).prepend (textItems s ++ [.text " "]) := by
  rw [run_markedLine hs, run_cons (s := ⟨[.text " "], column + width s.toList + 1, []⟩) rfl]
  simp [Layout.prepend]

theorem run_markedLine_broken (hs : breaks s.toList = false) (i : Nat) (rest : List Command) :
    run page column (.print i .broken (.markedLine s) :: rest) =
      (run page (i * page.indentWidth) rest).prepend (textItems s ++ [.line i]) := by
  rw [run_markedLine hs, run_cons (s := ⟨[.line i], i * page.indentWidth, []⟩) rfl]
  simp [Layout.prepend]

end Words

/-! ### Fills of words -/

section Fill

variable {page : Page} {column : Int} {i : Nat}

private theorem fillCommands_eq {b flat : Bool} {item : Doc} {after : List Doc}
    (h : fits (!b) (page.width - column) (fillMeasured i b item after) = .ok flat) :
    fillCommands (page.width - column) i b item after =
      .ok (.print i (if flat then .flat else .broken) item ::
        fillRestCommands i .broken (!b) after) := by
  rw [fillCommands, h]
  rfl

/-- The rest of a fill goes on with its next item, which is printed flat or broken. -/
theorem run_fillRest {m : Mode} {b flat : Bool} {item : Doc} {after : List Doc}
    (h : fits (!b) (page.width - column) (fillMeasured i b item after) = .ok flat)
    (rest : List Command) :
    run page column (⟨i, m, .fillRest b item after⟩ :: rest) =
      run page column (.print i (if flat then .flat else .broken) item ::
        (fillRestCommands i .broken (!b) after ++ rest)) := by
  have hstep : step page column ⟨i, m, .fillRest b item after⟩ rest =
      .ok ⟨[], column, .print i (if flat then .flat else .broken) item ::
        fillRestCommands i .broken (!b) after⟩ :=
    bind_eq_ok_iff.mpr ⟨_, fillCommands_eq h, rfl⟩
  exact run_cons_of_silent hstep

/-- A fill starts with its first item. -/
theorem run_fill {flat : Bool} {item : Doc} {after : List Doc}
    (h : fits true (page.width - column) (fillMeasured i false item after) = .ok flat)
    (rest : List Command) :
    run page column (.print i .broken (.fill (item :: after)) :: rest) =
      run page column (.print i (if flat then .flat else .broken) item ::
        (fillRestCommands i .broken true after ++ rest)) := by
  have hstep : step page column (.print i .broken (.fill (item :: after))) rest =
      .ok ⟨[], column, .print i (if flat then .flat else .broken) item ::
        fillRestCommands i .broken true after⟩ :=
    bind_eq_ok_iff.mpr ⟨_, fillCommands_eq (b := false) h, rfl⟩
  exact run_cons_of_silent hstep

theorem isKnown_word (s : String) : (Doc.word s).all Doc.hasKnownSort = true := by
  rw [Doc.word, Doc.tidy]
  split <;> rfl

theorem isKnown_markedLine (mark : String) :
    (Doc.markedLine mark).all Doc.hasKnownSort = true := by
  rw [Doc.markedLine, spliced_lit]
  split <;> rfl

/-- A word is measured alone, and it prints the same however that ends. -/
private theorem exists_fits_word (remaining : Int) (s : String) (after : List Doc) :
    ∃ flat, fits true remaining (fillMeasured i false (.word s) after) = .ok flat :=
  fits_isOk true remaining (by simp [fillMeasured, isKnown_word])

/-- A separator is measured with the word behind it. -/
theorem fits_separator {mark s : String} (hmark : breaks mark.toList = false)
    (hs : breaks s.toList = false) (remaining : Int) (after : List Doc) :
    fits false remaining (fillMeasured i true (.markedLine mark) (.word s :: after)) =
      .ok (decide ((width mark.toList + 1 + width s.toList : Int) ≤ remaining)) := by
  have hknown : [Command.print i .flat (.markedLine mark), .print i .broken (.word s)].all
      (Command.all Doc.hasKnownSort) = true := by
    simp [isKnown_word, isKnown_markedLine]
  have hline : stackFirstLine false
      [Command.print i .flat (.markedLine mark), .print i .broken (.word s)] =
      ⟨width mark.toList + 1 + width s.toList, .running⟩ := by
    rw [stackFirstLine, stackFirstLine_print, firstLine_word hs]
    show ((Doc.markedLine mark).firstLine false .flat).followedBy _ = _
    rw [firstLine_markedLine hmark]
    rfl
  show fits false remaining
    [Command.print i .flat (.markedLine mark), .print i .broken (.word s)] = _
  rw [fits_eq false remaining hknown, hline]
  simp [FirstLine.FitsIn]

/-- The next separator of a fill and the word behind it stay on the line if they fit there, and else
the separator breaks. -/
theorem run_fillPair {mark s : String} (hmark : breaks mark.toList = false)
    (hs : breaks s.toList = false) (after : List Doc) :
    run page column (fillRestCommands i .broken true (.markedLine mark :: .word s :: after)) =
      if column + width mark.toList + 1 + width s.toList ≤ page.width then
        (run page (column + width mark.toList + 1 + width s.toList)
          (fillRestCommands i .broken true after)).prepend
            (textItems mark ++ .text " " :: textItems s)
      else
        (run page (i * page.indentWidth + width s.toList)
          (fillRestCommands i .broken true after)).prepend
            (textItems mark ++ .line i :: textItems s) := by
  have hword (column : Int) : run page column
      (fillRestCommands i .broken false (.word s :: after) ++ []) =
      (run page (column + width s.toList) (fillRestCommands i .broken true after)).prepend
        (textItems s) := by
    obtain ⟨flat, hflat⟩ := exists_fits_word (page.width - column) s after
    rw [List.append_nil, fillRestCommands, run_fillRest (b := false) hflat [], run_word hs,
      List.append_nil]
    rfl
  rw [fillRestCommands, run_fillRest (b := true) (fits_separator hmark hs _ _) []]
  by_cases hle : column + width mark.toList + 1 + width s.toList ≤ page.width
  · rw [if_pos hle, decide_eq_true (by omega), if_pos rfl, run_markedLine_flat hmark,
      Bool.not_true, hword]
    simp [Layout.prepend]
  · rw [if_neg hle, decide_eq_false (by omega), if_neg Bool.false_ne_true,
      run_markedLine_broken hmark, Bool.not_true, hword]
    simp [Layout.prepend]

/-- The margins of words that are laid out at a level and start at a column. -/
def Page.margins (page : Page) (first : Int) (level : Nat) : Margins :=
  ⟨first, level * page.indentWidth, page.width⟩

/-- The separators and words of a fill behind its first word. -/
def fillTail (mark : String) (words : List String) : List Doc :=
  words.flatMap fun s => [.markedLine mark, .word s]

/-- The rest of a fill, behind words that stand on a line already, wraps these words and those that
are left. -/
theorem exists_run_fillTail (page : Page) (i : Nat) {mark : String}
    (hmark : breaks mark.toList = false) (first : Int) {front words : List String}
    (hwords : ∀ s ∈ words, breaks s.toList = false) (hfront : front ≠ [])
    (hkeeps : 2 ≤ front.length → first + lineWidth (mark ++ " ") front ≤ page.width) :
    ∃ lines, (page.margins first i).Wraps (mark ++ " ") lines (front ++ words) ∧
      (run page (first + lineWidth (mark ++ " ") front)
        (fillRestCommands i .broken true (fillTail mark words))).prepend (lineItemsOf mark front) =
        ⟨wrappedItems mark i lines, none⟩ := by
  -- on the words that are left, for every line in progress
  induction words generalizing first front with
  | nil =>
    refine ⟨[front], ?_, ?_⟩
    · rw [List.append_nil]
      exact Margins.wraps_singleton hfront hkeeps
    · rw [fillTail, List.flatMap_nil, fillRestCommands, run, wrappedItems_singleton,
        Layout.prepend, List.append_nil]
  | cons s words ih =>
    obtain ⟨hs, hwords⟩ := List.forall_mem_cons.mp hwords
    have hjoint : width (mark ++ " ").toList = width mark.toList + 1 := by
      rw [String.toList_append, width_append]
      rfl
    have hconcat := lineWidth_concat (mark ++ " ") hfront s
    rw [hjoint] at hconcat
    rw [fillTail, List.flatMap_cons, List.cons_append, List.singleton_append, run_fillPair hmark hs,
      ← fillTail]
    split
    · next hle =>
      -- the word joins those on the line
      obtain ⟨lines, hwraps, hrun⟩ := ih first hwords
        (List.append_ne_nil_of_right_ne_nil front (List.cons_ne_nil s [])) (by omega)
      refine ⟨lines, by rwa [List.append_assoc] at hwraps, ?_⟩
      rw [hconcat, lineItemsOf_concat mark hfront] at hrun
      rw [Layout.prepend_prepend, ← hrun]
      congr 2
      omega
    · next hgt =>
      -- the word starts a line, and the words in front of it are a line of their own
      obtain ⟨lines, hwraps, hrun⟩ := ih (i * page.indentWidth) hwords (List.cons_ne_nil s [])
        (by simp)
      have hlines : lines ≠ [] := by
        rintro rfl
        cases hwraps.flatten_eq
      refine ⟨front :: lines, Margins.Wraps.cons hwraps hfront hkeeps ?_, ?_⟩
      · show page.width < first + lineWidth (mark ++ " ") (front ++ [s])
        omega
      · have hfollow := congrArg
          (Layout.prepend (lineItemsOf mark front ++ (textItems mark ++ [.line i]))) hrun
        rw [lineWidth_singleton] at hfollow
        rw [wrappedItems_cons mark i front hlines]
        simpa [Layout.prepend, lineItemsOf_singleton] using hfollow

/-- **A fill of words wraps them.** -/
theorem exists_run_fill (page : Page) (column : Int) (i : Nat) (mark : String)
    (hmark : breaks mark.toList = false) {s : String} {words : List String}
    (hwords : ∀ w ∈ s :: words, breaks w.toList = false) :
    ∃ lines, (page.margins column i).Wraps (mark ++ " ") lines (s :: words) ∧
      run page column [.print i .broken (.fill (.word s :: fillTail mark words))] =
        ⟨wrappedItems mark i lines, none⟩ := by
  obtain ⟨hs, hwords⟩ := List.forall_mem_cons.mp hwords
  obtain ⟨lines, hwraps, hrun⟩ := exists_run_fillTail page i hmark column hwords
    (List.cons_ne_nil s []) (by simp)
  obtain ⟨flat, hflat⟩ := exists_fits_word (page.width - column) s (fillTail mark words)
  refine ⟨lines, hwraps, ?_⟩
  rw [run_fill hflat, run_word hs, List.append_nil, ← hrun, lineWidth_singleton,
    lineItemsOf_singleton]

end Fill

/-! ### Fills in normal form -/

namespace Doc

/-- A word is its own normal form and can be flat. -/
private theorem normal_word (s : String) :
    (word s).normal = word s ∧ (word s).isBreaking = false := by
  rw [word, tidy]
  split <;> exact ⟨rfl, rfl⟩

/-- A separator is its own normal form and can be flat. -/
private theorem normal_markedLine (mark : String) :
    (markedLine mark).normal = markedLine mark ∧ (markedLine mark).isBreaking = false := by
  rw [markedLine, spliced_lit]
  split
  · exact ⟨rfl, rfl⟩
  · next hmark =>
    refine ⟨?_, rfl⟩
    show (concat [lit mark, softLine]).normal = concat [lit mark, softLine]
    rw [normal, normalAll, normalAll, normalAll, rebuildConcat, softLine]
    simp [normal, rebuildLine, breakingIf, LineKind.forcesBreak, isBreaking, spliced, isEmpty,
      joined, hmark]

/-- A fill of words is its own normal form. -/
theorem normal_fill (mark s : String) (words : List String) :
    (fill (word s :: fillTail mark words)).normal = fill (word s :: fillTail mark words) := by
  have hitems : ∀ d ∈ word s :: fillTail mark words, d.normal = d ∧ d.isBreaking = false := by
    rw [List.forall_mem_cons]
    refine ⟨normal_word s, fun d hd => ?_⟩
    obtain ⟨w, -, hd⟩ := List.mem_flatMap.mp hd
    simp only [List.mem_cons, List.not_mem_nil, or_false] at hd
    rcases hd with rfl | rfl
    · exact normal_markedLine mark
    · exact normal_word w
  have hnormal : normalAll (word s :: fillTail mark words) = word s :: fillTail mark words := by
    rw [normalAll_eq_map, List.map_congr_left fun d hd => (hitems d hd).1, List.map_id']
  have hflat : (word s :: fillTail mark words).any isBreaking = false :=
    List.any_eq_false.mpr fun d hd => Bool.not_eq_true _ ▸ (hitems d hd).2
  rw [normal, hnormal, rebuildFill, hflat]
  rfl

/-- Levels of indentation around a document that normalising keeps as it is. -/
private theorem normal_iterate_indent {d : Doc} (hd : d.normal = d) (hpiece : d.isPiece = true)
    (hempty : d.isEmpty = false) (k : Nat) :
    (indent^[k] d).normal = indent^[k] d ∧ (indent^[k] d).isPiece = true ∧
      (indent^[k] d).isEmpty = false := by
  induction k with
  | zero => exact ⟨hd, hpiece, hempty⟩
  | succ k ih =>
    obtain ⟨hnormal, hpiece, -⟩ := ih
    rw [Function.iterate_succ_apply', normal, hnormal,
      liftBreak_of_not_isBreaking _ (isBreaking_of_isPiece hpiece)]
    exact ⟨rfl, rfl, rfl⟩

private theorem spliced_of_isPiece {d : Doc} (hpiece : d.isPiece = true)
    (hempty : d.isEmpty = false) : d.spliced = [d] := by
  cases d <;> simp_all [isPiece, isEmpty, spliced]

end Doc

theorem run_iterate_indent {page : Page} {column : Int} (i k : Nat) (m : Mode) (d : Doc)
    (rest : List Command) :
    run page column (.print i m (Doc.indent^[k] d) :: rest) =
      run page column (.print (i + k) m d :: rest) := by
  induction k generalizing i with
  | zero => rfl
  | succ k ih =>
    rw [Function.iterate_succ_apply', run_cons_of_silent rfl]
    exact (ih (i + 1)).trans (by rw [Nat.add_right_comm, Nat.add_assoc])

theorem fillSep_map_lit (s : String) (words : List String) :
    Doc.fillSep ((s :: words).map .lit) = .fill (.word s :: fillTail "" words) := by
  rw [Doc.fillSep, List.map_map, List.map_cons, intersperse_cons_eq, List.flatMap_map]
  rfl

/-- A text with an indented document behind it is laid out as the text, and the document from the
column after the text on. -/
theorem layout_lit_iterate_indent (page : Page) {p : String} (hp : breaks p.toList = false)
    (k : Nat) {d : Doc} (hd : d.normal = d) (hpiece : d.isPiece = true)
    (hempty : d.isEmpty = false) :
    layout page (.concat [.lit p, Doc.indent^[k] d]) =
      (run page (width p.toList) [.print k .broken d]).prepend (textItems p) := by
  obtain ⟨hd, hpiece, hempty⟩ := Doc.normal_iterate_indent hd hpiece hempty k
  have hnormal : (Doc.concat [.lit p, Doc.indent^[k] d]).normal =
      .joined ((Doc.lit p).spliced ++ [Doc.indent^[k] d]) := by
    rw [Doc.normal, Doc.normalAll, Doc.normalAll, Doc.normalAll, hd, Doc.normal, Doc.rebuildConcat,
      List.flatMap_cons, List.flatMap_singleton, Doc.spliced_of_isPiece hpiece hempty,
      List.any_cons, List.any_cons, Doc.isBreaking_of_isPiece hpiece]
    rfl
  rw [layout, Doc.normalize_eq_normal, hnormal, run_joined, Command.printAll, List.map_append,
    List.append_assoc]
  refine (run_printAll_spliced 0 (.lit p) _).trans ?_
  rw [run_lit hp, Int.zero_add, List.map_singleton, List.append_nil, run_iterate_indent,
    Nat.zero_add]

/-- **Words in a fill are wrapped onto as few lines as can be.** Words behind a text, indented by
some levels, come out in their order on lines: with one space between the words of a line, and
between lines a line break to that level. The lines are packed, and no other way to set the words on
lines, with all lines of two or more words within the width, has fewer of them. -/
theorem layout_fillSep_wraps (page : Page) {p : String} (hp : breaks p.toList = false) (k : Nat)
    {words : List String} (hne : words ≠ []) (hwords : ∀ s ∈ words, breaks s.toList = false) :
    ∃ lines,
      (layout page (.concat [.lit p, Doc.indent^[k] (Doc.fillSep (words.map .lit))])).result =
        .ok (textItems p ++ [Item.line k].intercalate
          (lines.map fun line => [Item.text " "].intercalate (line.map textItems))) ∧
      (page.margins (width p.toList) k).Wraps " " lines words ∧
      ∀ others, others.flatten = words → (page.margins (width p.toList) k).Keeps " " others →
        lines.length ≤ others.length := by
  obtain ⟨s, words, rfl⟩ := List.exists_cons_of_ne_nil hne
  obtain ⟨lines, hwraps, hrun⟩ := exists_run_fill page (width p.toList) k "" rfl hwords
  refine ⟨lines, ?_, hwraps, fun others hflatten hkeeps => ?_⟩
  · rw [fillSep_map_lit, layout_lit_iterate_indent page hp k (Doc.normal_fill _ _ _) rfl rfl, hrun]
    rfl
  · refine hwraps.isFull.length_le hwraps.ne_nil hkeeps ?_
    rw [hwraps.flatten_eq, hflatten]

/-- An empty word that takes the last column of the first line, and a word wider than the page. -/
theorem layout_fillSep_wraps_overlong :
    let page : Page := ⟨6, 2⟩
    let words := ["aa", "", "overlong", "b", "c"]
    (breaks "p: ".toList = false ∧ words ≠ [] ∧ ∀ s ∈ words, breaks s.toList = false) ∧
      ∃ lines,
        (layout page (.concat [.lit "p: ", Doc.indent^[1] (Doc.fillSep (words.map .lit))])).result =
          .ok (textItems "p: " ++ [Item.line 1].intercalate
            (lines.map fun line => [Item.text " "].intercalate (line.map textItems))) ∧
        (page.margins (width "p: ".toList) 1).Wraps " " lines words ∧
        ∀ others, others.flatten = words → (page.margins (width "p: ".toList) 1).Keeps " " others →
          lines.length ≤ others.length :=
  ⟨by decide, layout_fillSep_wraps _ (by decide) 1 (by decide) (by decide)⟩

end Typeset
