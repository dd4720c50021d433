import Typeset.Proofs.LayoutRun

/-!
# Flat choices keep to the width

When the layout chooses to print a group or a candidate flat, the line in progress ends
within the width, whatever stands behind the choice on that line. The measurement only
predicts the rest of the line, since later choices are still open. It stays true because it
is an invariant: if the whole stack fits in the columns that remain, then after each step
either the line has ended within the width or the whole stack still fits. A later choice
keeps this because it is flat only if the stack fits with it, and broken as it was measured
before.

Fills are left out. Their items are measured by themselves, without what trails behind them.

## Main definitions

* `columnFrom` : the column after items that are printed from a column on.
* `restOfLine` : the columns that items take on the line in progress.
* `Command.IsChoice`, `Step.IsFlatChoice` : where a choice is made, and that it is flat.

## Main results

* `Reaches.column_eq` : the column of a state is where the items emitted so far end.
* `CarriedOut.restOfLine_le` : what one step keeps.
* `exists_run_restOfLine_le` : what a run keeps.
* `flat_choice_within_width` : a flat choice leaves its line within the width.
-/

namespace Typeset

open Text

/-- The column after an item that is printed at a column. -/
def Item.columnAfter (page : Page) (column : Int) : Item → Int
  | .text s => Typeset.columnAfter column s.toList
  | .line level => level * page.indentWidth
  | .push _ | .pop _ => column

/-- The column after items that are printed from a column on. -/
def columnFrom (page : Page) (column : Int) (items : List Item) : Int :=
  items.foldl (Item.columnAfter page) column

/-- The columns that items take on the line in progress: up to the next line break, the first
line feed inside a text, or the end. -/
def restOfLine : List Item → Nat
  | [] => 0
  | .text s :: items =>
    if breaks s.toList then width (firstLine s.toList)
    else width s.toList + restOfLine items
  | .line _ :: _ => 0
  | .push _ :: items => restOfLine items
  | .pop _ :: items => restOfLine items

/-- Whether a command is a group or a conditional in broken surroundings. -/
def Command.IsChoice (c : Command) : Prop :=
  (∃ i d forced, c = .print i .broken (.group d forced)) ∨
    ∃ i front fallback, c = .print i .broken (.conditional front fallback)

/-- Whether a step goes on with a single document to be printed flat. -/
def Step.IsFlatChoice (s : Step) : Prop := ∃ i d, s.commands = [.print i .flat d]

variable {page : Page} {column : Int} {c : Command} {rest : List Command} {s : Step}

/-! ### Columns -/

theorem columnFrom_append (page : Page) (column : Int) (xs ys : List Item) :
    columnFrom page column (xs ++ ys) = columnFrom page (columnFrom page column xs) ys :=
  List.foldl_append

private theorem column_printText (page : Page) (column : Int) (t : String) :
    (printText column t).column = columnFrom page column (printText column t).items := by
  rw [printText]
  split <;> rfl

private theorem column_printLine (page : Page) (column : Int) (i : Nat) (m : Mode)
    (k : LineKind) : (printLine page column i m k).column =
      columnFrom page column (printLine page column i m k).items := by
  have hzero : (0 : Int) = (0 : Nat) * page.indentWidth := by simp
  cases k with
  | literal => cases m <;> exact hzero
  | soft | empty | hard => cases m <;> rfl

/-- The column after a step is where its items end. -/
theorem CarriedOut.column_eq (hc : CarriedOut page column rest c s) :
    s.column = columnFrom page column s.items := by
  cases hc with
  | lit i m t | text i m t => exact column_printText page column t
  | line i m k => exact column_printLine page column i m k
  | _ => rfl

/-- The column of a state is where the items emitted so far end. -/
theorem Reaches.column_eq {d : Doc} {emitted : List Item} {stack : List Command}
    (h : Reaches page d emitted column stack) : column = columnFrom page 0 emitted := by
  induction h with
  | start => rfl
  | next _ hs ih =>
    rw [columnFrom_append, ← ih]
    exact (CarriedOut.of_step hs).column_eq

/-! ### The line in progress -/

/-- A text that is printed where it fits ends the line within the width, or the stack below it
fits in the columns that are left. -/
private theorem restOfLine_printText_le {t : String} {items : List Item}
    (hfits : (measureText (page.width - column) t).resume false rest = .ok true)
    (hlater : fits false (page.width - (printText column t).column) rest = .ok true →
      (printText column t).column + restOfLine items ≤ page.width) :
    column + restOfLine ((printText column t).items ++ items) ≤ page.width := by
  rw [printText] at hlater ⊢
  rw [measureText] at hfits
  by_cases ht : t.isEmpty = true
  · -- nothing is printed, and no column was measured
    have hnil : t.toList = [] := by simpa using ht
    rw [if_pos ht] at hlater ⊢
    rw [hnil] at hfits
    refine hlater ?_
    simpa [breaks, firstLine, width, Measured.resume] using hfits
  · rw [if_neg ht] at hlater ⊢
    by_cases hb : breaks t.toList = true
    · rw [if_pos hb] at hfits
      simp only [Measured.resume, Except.ok.injEq, decide_eq_true_eq] at hfits
      simp only [List.singleton_append, restOfLine, if_pos hb]
      omega
    · rw [if_neg hb, firstLine_of_not_breaks hb] at hfits
      rw [columnAfter, if_neg hb, ← Int.sub_sub] at hlater
      have hle : column + width t.toList + restOfLine items ≤ page.width := hlater hfits
      simp only [List.singleton_append, restOfLine, if_neg hb]
      omega

/-- What one step keeps. If the stack fits in the columns that remain, then after the step
the line in progress has ended within the width, or the stack fits again. -/
theorem CarriedOut.restOfLine_le (hc : CarriedOut page column rest c s)
    (hfill : c.all Doc.isNoFill = true)
    (hfits : fits false (page.width - column) (c :: rest) = .ok true) {items : List Item}
    (hlater : fits false (page.width - s.column) (s.commands ++ rest) = .ok true →
      s.column + restOfLine items ≤ page.width) :
    column + restOfLine (s.items ++ items) ≤ page.width := by
  have hpos := nonneg_of_fits hfits
  rw [fits_cons hpos] at hfits
  cases hc with
  | endMark | nil | concat | indent | alwaysBreak | forcedGroup | flatGroup | flatConditional
  | fallback => exact hlater hfits
  | lit i m t | text i m t =>
    rw [commands_printText] at hlater
    exact restOfLine_printText_le hfits hlater
  | line i m k =>
    cases m with
    | broken =>
      -- the line ends here
      have hend : restOfLine ((printLine page column i .broken k).items ++ items) = 0 := by
        cases k <;> rfl
      rw [hend]
      omega
    | flat =>
      cases k with
      | soft =>
        have hle : column + 1 + restOfLine items ≤ page.width :=
          hlater (by rw [← hfits]; exact congrArg (fits false · rest) (by simp [printLine]; omega))
        have hspace : restOfLine ((printLine page column i .flat .soft).items ++ items) =
            1 + restOfLine items := rfl
        rw [hspace]
        omega
      | empty => exact hlater hfits
      | hard | literal => cases hfits
  | annotated i m d a =>
    have hfits : fits false (page.width - column) (.print i m d :: rest) = .ok true := hfits
    refine hlater ?_
    -- the end of the mark takes no column
    rw [← fits_withoutEndMarks] at hfits ⊢
    exact hfits
  | @group i d flat h =>
    cases flat with
    | true => exact hlater h
    | false => exact hlater hfits
  | candidate _ h => exact hlater h
  | fillRest | flatFill | emptyFill | fill => simp [Doc.all, Doc.isNoFill] at hfill

/-- What a run keeps. If the stack fits in the columns that remain, then the run over it ends
the line in progress within the width. -/
theorem exists_run_restOfLine_le {stack : List Command}
    (hknown : stack.all (Command.all Doc.hasKnownSort) = true)
    (hfill : stack.all (Command.all Doc.isNoFill) = true)
    (hfits : fits false (page.width - column) stack = .ok true) :
    ∃ later, run page column stack = ⟨later, none⟩ ∧
      column + restOfLine later ≤ page.width := by
  let P (column : Int) (stack : List Command) (items : List Item) : Prop :=
    stack.all (Command.all Doc.isNoFill) = true →
      fits false (page.width - column) stack = .ok true →
        column + restOfLine items ≤ page.width
  have hnil : ∀ column, P column [] [] := by
    intro column _ h
    have := nonneg_of_fits h
    simp only [restOfLine]
    omega
  have hcons : ∀ {column c rest s items}, CarriedOut page column rest c s →
      P s.column (s.commands ++ rest) items → P column (c :: rest) (s.items ++ items) := by
    intro column c rest s items hc hlater hfill hfits
    simp only [List.all_cons, Bool.and_eq_true] at hfill
    refine hc.restOfLine_le hfill.1 hfits (hlater ?_)
    simp [hc.all_commands hfill.1, hfill.2]
  obtain ⟨later, hrun, hlater⟩ := run_induction hnil hcons column stack hknown
  exact ⟨later, hrun, hlater hfill hfits⟩

/-- Where a choice goes on flat, the stack with the flat option on it fits. -/
theorem CarriedOut.fits_of_isFlatChoice (hc : CarriedOut page column rest c s)
    (hchoice : c.IsChoice) (hflat : s.IsFlatChoice) :
    s.column = column ∧ s.items = [] ∧
      fits false (page.width - column) (s.commands ++ rest) = .ok true := by
  obtain ⟨i, d, hcommands⟩ := hflat
  rcases hchoice with ⟨j, e, forced, rfl⟩ | ⟨j, front, fallback, rfl⟩
  · cases hc with
    | forcedGroup => cases hcommands
    | @group _ _ flat h =>
      cases flat with
      | true => exact ⟨rfl, rfl, h⟩
      | false => cases hcommands
  · generalize hcs : Command.print j .broken (.conditional front fallback) = c at hc
    cases hc <;> cases hcs
    · next h => exact ⟨rfl, rfl, h⟩
    · cases hcommands

/-- A flat choice keeps to the width. Whenever the layout of a document without fills has come
to a group or a conditional in broken surroundings, and goes on with a flat option of it, then
the line in progress ends within the width: the layout succeeds, the column is where the items
emitted so far end, and together with all that is emitted from there up to the end of the line
it is at most the width. -/
theorem flat_choice_within_width (page : Page) {d : Doc} (hknown : d.isKnown = true)
    (hfill : d.isFillFree = true) {emitted : List Item}
    (hreach : Reaches page d emitted column (c :: rest)) (hchoice : c.IsChoice)
    (hs : step page column c rest = .ok s) (hflat : s.IsFlatChoice) :
    ∃ later, (layout page d).result = .ok (emitted ++ later) ∧
      column = columnFrom page 0 emitted ∧ column + restOfLine later ≤ page.width := by
  have hnext := hreach.next hs
  obtain ⟨hcolumn, hitems, hfits⟩ := (CarriedOut.of_step hs).fits_of_isFlatChoice hchoice hflat
  rw [hcolumn, hitems, List.append_nil] at hnext
  have hstack := hnext.all (Doc.all_normal rfl rfl rfl hknown)
  have hplain := hnext.all (Doc.all_normal rfl rfl rfl hfill)
  obtain ⟨later, hrun, hle⟩ := exists_run_restOfLine_le hstack hplain hfits
  refine ⟨later, ?_, hreach.column_eq, hle⟩
  rw [hnext.layout_eq, hrun]
  rfl

/-- A call that stays flat before a text that trails on its line and has to break by itself. -/
theorem flat_choice_within_width_trailing :
    let page : Page := ⟨5, 2⟩
    let body : Doc := .concat [.lit "(", .line .soft, .lit ")"]
    let d : Doc := .concat [.lit "f", .group body false, .alwaysBreak (.lit ";")]
    let call : Command := .print 0 .broken (.group body false)
    let rest : List Command := [.print 0 .broken (.lit ";")]
    let s : Step := ⟨[], 1, [.print 0 .flat body]⟩
    (d.isKnown = true ∧ d.isFillFree = true ∧ Reaches page d [.text "f"] 1 (call :: rest) ∧
      call.IsChoice ∧ step page 1 call rest = .ok s ∧ s.IsFlatChoice) ∧
      ∃ later, (layout page d).result = .ok ([.text "f"] ++ later) ∧
        1 = columnFrom page 0 [.text "f"] ∧ (1 : Int) + restOfLine later ≤ page.width := by
  intro page body d call rest s
  have hstart : Reaches page d [] 0 [.print 0 .broken d.normal] := by
    rw [← Doc.normalize_eq_normal]
    exact .start
  have hreach : Reaches page d [.text "f"] 1 (call :: rest) :=
    ((hstart.next rfl).next rfl).next rfl
  have hchoice : call.IsChoice := .inl ⟨0, body, false, rfl⟩
  have hfits : fits false 4 (.print 0 .flat body :: rest) = .ok true :=
    toOption_eq_some_iff.mp (by decide +kernel)
  have hgroup : chooseGroup 4 0 body rest = .ok (.print 0 .flat body) := by
    rw [chooseGroup, hfits]
    rfl
  have hs : step page 1 call rest = .ok s := by
    show (do return (⟨[], 1, [← chooseGroup 4 0 body rest]⟩ : Step)) = _
    rw [hgroup]
    rfl
  have hflat : s.IsFlatChoice := ⟨0, body, rfl⟩
  exact ⟨⟨rfl, rfl, hreach, hchoice, hs, hflat⟩,
    flat_choice_within_width page rfl rfl hreach hchoice hs hflat⟩

end Typeset
