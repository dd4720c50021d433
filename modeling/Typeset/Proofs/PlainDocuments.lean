import Typeset.Proofs.LayoutRun

/-!
# Documents without inert structure

Some of the structure of a document has no bearing on its layout: marks, empty texts and how
concatenations are nested, and whether a text is a node or not. Without it a document is a
list of parts, each of which is a text, a line, or a choice or an indentation around a single
concatenation. A stack of commands is made plain in the same way, and the ends of marks
disappear from it.

Nothing is asked of the documents here; in particular they need not be normal. Items of fills
and candidates keep a forced break that they are marked with at their top, since it decides
which candidate is printed flat.

## Main definitions

* `Doc.plainParts`, `Doc.plain` : a document without inert structure, as parts and as one
  document with the same mark.
* `plainStack` : a stack without inert structure.
* `unmarked` : items without the beginnings and ends of marks.

## Main results

* `fits_plainStack` : a stack and its plain form fit alike.
* `CarriedOut.run_plain` : what one step does is done to the plain stack as well.
* `exists_run_plainStack` : the run of the plain stack emits the same items but for marks.
-/

namespace Typeset

open Text

/-! ### Plain documents -/

namespace Doc

/-- Parts as one document: the marked document that is the only part, or a concatenation. -/
def packed (marked : Bool) (ds : List Doc) : Doc := if marked then joined ds else concat ds

mutual

/-- The parts of a document without inert structure. -/
def plainParts : Doc → List Doc
  | nil => []
  | lit s => if s.isEmpty then [] else [lit s]
  | text s => if s.isEmpty then [] else [lit s]
  | line k => [line k]
  | concat ds => plainPartsAll ds
  | indent d => [indent (concat (plainParts d))]
  | annotated d _ => plainParts d
  | group d b => [group (concat (plainParts d)) b]
  | alwaysBreak d => [alwaysBreak (concat (plainParts d))]
  | fill ds => [fill (plainAll ds)]
  | conditional ds d => [conditional (plainAll ds) (packed d.isBreaking (plainParts d))]
  | unknown s => [unknown s]

/-- The parts of the documents of a list without inert structure. -/
def plainPartsAll : List Doc → List Doc
  | [] => []
  | d :: ds => plainParts d ++ plainPartsAll ds

/-- The documents of a list without inert structure. -/
def plainAll : List Doc → List Doc
  | [] => []
  | d :: ds => packed d.isBreaking (plainParts d) :: plainAll ds

end

/-- The document without inert structure, marked as before. -/
def plain (d : Doc) : Doc := packed d.isBreaking d.plainParts

theorem plainPartsAll_eq_flatMap (ds : List Doc) : plainPartsAll ds = ds.flatMap plainParts := by
  induction ds with
  | nil => rfl
  | cons d ds ih => simp [plainPartsAll, ih]

theorem plainAll_eq_map (ds : List Doc) : plainAll ds = ds.map plain := by
  induction ds with
  | nil => rfl
  | cons d ds ih => simp [plainAll, plain, ih]

theorem plainParts_concat (ds : List Doc) : (concat ds).plainParts = ds.flatMap plainParts := by
  rw [plainParts, plainPartsAll_eq_flatMap]

theorem plainParts_fill (ds : List Doc) : (fill ds).plainParts = [fill (ds.map plain)] := by
  rw [plainParts, plainAll_eq_map]

theorem plainParts_conditional (ds : List Doc) (d : Doc) :
    (conditional ds d).plainParts = [conditional (ds.map plain) d.plain] := by
  rw [plainParts, plainAll_eq_map, plain]

theorem isBreaking_plain (d : Doc) : d.plain.isBreaking = d.isBreaking := by
  cases d <;> rfl

/-- Making candidates plain does not change which of them is printed flat. -/
theorem flatCandidate_plain (front : List Doc) (fallback : Doc) :
    flatCandidate (front.map plain) fallback.plain = (flatCandidate front fallback).plain := by
  have hcandidates : candidates (front.map plain) fallback.plain =
      (candidates front fallback).map plain := by simp [candidates]
  have hbreaking : (fun d : Doc => !d.isBreaking) ∘ plain = fun d => !d.isBreaking :=
    funext fun d => by simp [isBreaking_plain]
  rw [flatCandidate, flatCandidate, hcandidates, List.find?_map, hbreaking]
  cases (candidates front fallback).find? fun d => !d.isBreaking with
  | some d => rfl
  | none => cases front <;> rfl

end Doc

/-! ### Plain stacks -/

/-- A command without inert structure. -/
def Command.plain (c : Command) : List Command :=
  match c.content with
  | .doc d => Command.printAll c.level c.mode d.plainParts
  | .endMark _ => []
  | .fillRest separator item rest =>
    [⟨c.level, c.mode, .fillRest separator item.plain (rest.map Doc.plain)⟩]

/-- A stack without inert structure. -/
def plainStack (cs : List Command) : List Command := cs.flatMap Command.plain

@[simp]
theorem Command.plain_doc (i : Nat) (m : Mode) (d : Doc) :
    Command.plain ⟨i, m, .doc d⟩ = Command.printAll i m d.plainParts := rfl

@[simp]
theorem Command.plain_print (i : Nat) (m : Mode) (d : Doc) :
    (Command.print i m d).plain = Command.printAll i m d.plainParts := rfl

@[simp]
theorem plainStack_nil : plainStack [] = [] := rfl

@[simp]
theorem plainStack_cons (c : Command) (cs : List Command) :
    plainStack (c :: cs) = c.plain ++ plainStack cs := List.flatMap_cons

@[simp]
theorem plainStack_append (cs ds : List Command) :
    plainStack (cs ++ ds) = plainStack cs ++ plainStack ds := List.flatMap_append

theorem plainStack_printAll (i : Nat) (m : Mode) (ds : List Doc) :
    plainStack (Command.printAll i m ds) = Command.printAll i m (ds.flatMap Doc.plainParts) := by
  simp [plainStack, Command.printAll, List.flatMap_map, List.map_flatMap]

theorem plainStack_fillRestCommands (i : Nat) (m : Mode) (b : Bool) (ds : List Doc) :
    plainStack (fillRestCommands i m b ds) = fillRestCommands i m b (ds.map Doc.plain) := by
  cases ds <;> rfl

/-! ### Measuring plain stacks -/

section Fits

variable {b : Bool}

theorem fits_concat (remaining : Int) (i : Nat) (m : Mode) (ds : List Doc) (cs : List Command) :
    fits b remaining (.print i m (.concat ds) :: cs) =
      fits b remaining (Command.printAll i m ds ++ cs) := by
  rcases Int.lt_or_le remaining 0 with hneg | hpos
  · rw [fits_of_neg hneg, fits_of_neg hneg]
  · rw [fits_cons hpos]
    rfl

/-- A plain document is measured as its parts are. -/
theorem fits_plain (remaining : Int) (i : Nat) (m : Mode) (d : Doc) (cs : List Command) :
    fits b remaining (.print i m d.plain :: cs) =
      fits b remaining (Command.printAll i m d.plainParts ++ cs) := by
  cases d with
  | alwaysBreak d => rfl
  | _ => exact fits_concat remaining i m _ cs

theorem fits_printAll_plain (remaining : Int) (i : Nat) (m : Mode) (ds : List Doc)
    (cs : List Command) :
    fits b remaining (Command.printAll i m (ds.map Doc.plain) ++ cs) =
      fits b remaining (Command.printAll i m (ds.flatMap Doc.plainParts) ++ cs) := by
  induction ds generalizing remaining with
  | nil => rfl
  | cons d ds ih =>
    have hhead := fits_plain (b := b) remaining i m d
      (Command.printAll i m (ds.map Doc.plain) ++ cs)
    have htail := fits_append_congr ih remaining (Command.printAll i m d.plainParts)
    simp only [Command.printAll, List.map_cons, List.cons_append, List.flatMap_cons,
      List.map_append, List.append_assoc] at hhead htail ⊢
    rw [hhead, htail]

/-- Going on after a command, with the plain forms of the commands in its place. -/
private def Measured.resumePlain (mustBeFlat : Bool) (cs : List Command) :
    Measured → Except LayoutError Bool
  | answer v => .ok v
  | further remaining commands => fits mustBeFlat remaining (plainStack commands ++ cs)

private theorem fits_plainText {remaining : Int} (hpos : 0 ≤ remaining) (i : Nat) (m : Mode)
    (s : String) (cs : List Command) :
    fits b remaining (Command.printAll i m (if s.isEmpty then [] else [.lit s]) ++ cs) =
      (measureText remaining s).resumePlain b cs := by
  by_cases hs : s.isEmpty = true
  · have hnil : s.toList = [] := by simpa using hs
    simp [hs, measureText, hnil, breaks, firstLine, width, Measured.resumePlain, Command.printAll]
  · have hmeasure : measure b remaining (.print i m (.lit s)) = .ok (measureText remaining s) :=
      rfl
    simp only [hs, Command.printAll, List.map_cons, List.map_nil, List.cons_append,
      List.nil_append, Bool.false_eq_true, if_false, fits_cons hpos, hmeasure]
    rw [measureText]
    split <;> rfl

private theorem resumePlain_print (remaining : Int) (i : Nat) (m : Mode) (d : Doc)
    (cs : List Command) :
    (Measured.further remaining [.print i m d]).resumePlain b cs =
      fits b remaining (Command.printAll i m d.plainParts ++ cs) := by
  simp [Measured.resumePlain]

/-- Looking at the plain form of a command is looking at the command, and what is put in its
place is plain again. -/
private theorem fits_plain_append {remaining : Int} (hpos : 0 ≤ remaining) (c : Command)
    (cs : List Command) :
    fits b remaining (c.plain ++ cs) = measure b remaining c >>= Measured.resumePlain b cs := by
  obtain ⟨i, m, content⟩ := c
  cases content with
  | endMark a => rfl
  | fillRest separator item rest =>
    have hitem := fits_plain (b := b) remaining i m item
      (fillRestCommands i m (!separator) (rest.map Doc.plain) ++ cs)
    have hplain : plainStack (.print i m item :: fillRestCommands i m (!separator) rest) ++ cs =
        Command.printAll i m item.plainParts ++
          (fillRestCommands i m (!separator) (rest.map Doc.plain) ++ cs) := by
      simp [plainStack_fillRestCommands]
    rw [← hplain] at hitem
    show fits b remaining (⟨i, m, .fillRest separator item.plain (rest.map Doc.plain)⟩ :: cs) = _
    rw [fits_cons hpos]
    exact hitem
  | doc d =>
    rw [Command.plain_doc]
    cases d with
    | nil => rfl
    | lit s => exact fits_plainText hpos i m s cs
    | text s => exact fits_plainText hpos i m s cs
    | line k =>
      show fits b remaining (.print i m (.line k) :: cs) = _
      rw [fits_cons hpos]
      cases m <;> cases k <;> rfl
    | concat ds =>
      rw [Doc.plainParts_concat, ← plainStack_printAll]
      rfl
    | indent d =>
      show fits b remaining (.print i m (.indent (.concat d.plainParts)) :: cs) = _
      rw [fits_cons hpos]
      exact (fits_concat remaining (i + 1) m d.plainParts cs).trans
        (resumePlain_print remaining (i + 1) m d cs).symm
    | annotated d a => exact (resumePlain_print remaining i m d cs).symm
    | alwaysBreak d =>
      show fits b remaining (.print i m (.alwaysBreak (.concat d.plainParts)) :: cs) = _
      rw [fits_cons hpos]
      cases b with
      | true => rfl
      | false =>
        exact (fits_concat remaining i .broken d.plainParts cs).trans
          (resumePlain_print remaining i .broken d cs).symm
    | group d forced =>
      show fits b remaining (.print i m (.group (.concat d.plainParts) forced) :: cs) = _
      rw [fits_cons hpos]
      have hbody (m' : Mode) := (fits_concat (b := b) remaining i m' d.plainParts cs).trans
        (resumePlain_print remaining i m' d cs).symm
      cases forced with
      | true =>
        cases b with
        | true => rfl
        | false => exact hbody .broken
      | false => cases b <;> exact hbody m
    | fill ds =>
      rw [Doc.plainParts_fill]
      show fits b remaining (.print i m (.fill (ds.map Doc.plain)) :: cs) = _
      rw [fits_cons hpos]
      have hitems := fits_printAll_plain (b := b) remaining i m ds cs
      rw [← plainStack_printAll] at hitems
      exact hitems
    | conditional front fallback =>
      rw [Doc.plainParts_conditional]
      show fits b remaining
        (.print i m (.conditional (front.map Doc.plain) fallback.plain) :: cs) = _
      rw [fits_cons hpos]
      have hbody (d : Doc) := (fits_plain (b := b) remaining i m d cs).trans
        (resumePlain_print remaining i m d cs).symm
      cases m with
      | flat =>
        have hflat := hbody (Doc.flatCandidate front fallback)
        rw [← Doc.flatCandidate_plain] at hflat
        exact hflat
      | broken => exact hbody fallback
    | unknown sort =>
      show fits b remaining (.print i m (.unknown sort) :: cs) = _
      rw [fits_cons hpos]
      rfl

/-- A stack and its plain form fit alike. -/
theorem fits_plainStack (remaining : Int) (cs : List Command) :
    fits b remaining (plainStack cs) = fits b remaining cs := by
  induction remaining, cs using fits_induction (b := b) with
  | nil remaining => rfl
  | neg remaining cs hneg => rw [fits_of_neg hneg, fits_of_neg hneg]
  | cons remaining c cs hpos ih =>
    rw [plainStack_cons, fits_plain_append hpos, fits_cons hpos]
    cases hc : measure b remaining c with
    | error e => rfl
    | ok r =>
      cases r with
      | answer v => rfl
      | further left commands =>
        have := ih left commands hc
        rwa [plainStack_append] at this

end Fits

/-! ### Running plain stacks -/

/-- Whether the item is the beginning or the end of a mark. -/
def Item.isMark : Item → Bool
  | .push _ | .pop _ => true
  | .text _ | .line _ => false

/-- Items without the beginnings and ends of marks. -/
def unmarked (items : List Item) : List Item := items.filter (!·.isMark)

theorem unmarked_append (xs ys : List Item) : unmarked (xs ++ ys) = unmarked xs ++ unmarked ys :=
  List.filter_append ..

section Run

variable {page : Page} {column : Int} {c : Command} {rest : List Command} {s : Step}

/-- A plain document is printed as its parts are. -/
theorem run_plain (page : Page) (column : Int) (i : Nat) (m : Mode) (d : Doc) (cs : List Command) :
    run page column (.print i m d.plain :: cs) =
      run page column (Command.printAll i m d.plainParts ++ cs) := by
  cases d with
  | alwaysBreak d => rfl
  | _ => exact run_concat column i m _ cs

theorem run_printAll_plain (column : Int) (i : Nat) (m : Mode) (ds : List Doc)
    (cs : List Command) :
    run page column (Command.printAll i m (ds.map Doc.plain) ++ cs) =
      run page column (Command.printAll i m (ds.flatMap Doc.plainParts) ++ cs) := by
  induction ds generalizing column with
  | nil => rfl
  | cons d ds ih =>
    have hhead := run_plain page column i m d
      (Command.printAll i m (ds.map Doc.plain) ++ cs)
    have htail := run_append_congr (fun left => fits_printAll_plain left i m ds cs) ih column
      (Command.printAll i m d.plainParts)
    simp only [Command.printAll, List.map_cons, List.cons_append, List.flatMap_cons,
      List.map_append, List.append_assoc] at hhead htail ⊢
    rw [hhead, htail]

/-- A text is printed alike whether it is a node or not, and an empty one is not printed. -/
private theorem run_plainText (i : Nat) (m : Mode) (t : String) (cs : List Command) :
    run page column (Command.printAll i m (if t.isEmpty then [] else [.lit t]) ++ cs) =
      (run page (printText column t).column cs).prepend (unmarked (printText column t).items) := by
  have hstep : step page column (.print i m (.lit t)) cs = .ok (printText column t) := rfl
  by_cases ht : t.isEmpty = true
  · simp [ht, printText, unmarked, Layout.prepend, Command.printAll]
  · simp only [ht, Bool.false_eq_true, if_false, Command.printAll, List.map_cons, List.map_nil,
      List.cons_append, List.nil_append, run_cons hstep, commands_printText]
    simp [printText, ht, unmarked, Item.isMark]

/-- What is measured for an item of a fill fits as its plain form does. -/
private theorem fits_fillMeasured_plain (b : Bool) (remaining : Int) (i : Nat) (separator : Bool)
    (item : Doc) (after : List Doc) :
    fits b remaining (fillMeasured i separator item.plain (after.map Doc.plain)) =
      fits b remaining (fillMeasured i separator item after) := by
  rw [← fits_plainStack remaining (fillMeasured i separator item after)]
  cases separator with
  | false => simpa [fillMeasured] using fits_plain (b := b) remaining i .flat item []
  | true =>
    cases after with
    | nil => simpa [fillMeasured] using fits_plain (b := b) remaining i .flat item []
    | cons next after =>
      have hnext (left : Int) : fits b left [.print i .broken next.plain] =
          fits b left (Command.printAll i .broken next.plainParts) := by
        simpa using fits_plain (b := b) left i .broken next []
      have hitem := fits_plain (b := b) remaining i .flat item [.print i .broken next.plain]
      rw [fits_append_congr hnext] at hitem
      simpa [fillMeasured] using hitem

/-- What follows an item of a fill, once it is decided how the item is printed. -/
private theorem run_fillItem_plain (i : Nat) (m : Mode) (b : Bool) (item : Doc) (after : List Doc)
    (cs : List Command) :
    run page column (.print i m item.plain ::
        fillRestCommands i .broken b (after.map Doc.plain) ++ cs) =
      run page column
        (plainStack (.print i m item :: fillRestCommands i .broken b after) ++ cs) := by
  rw [List.cons_append, run_plain, plainStack_cons, plainStack_fillRestCommands, List.append_assoc]
  rfl

private theorem chooseCandidate_of_fits {remaining : Int} {i : Nat} {fallback : Doc}
    {before after : List Doc} {d : Doc}
    (hbefore : ∀ e ∈ before, fits false remaining (.print i .flat e :: rest) = .ok false)
    (h : fits false remaining (.print i .flat d :: rest) = .ok true) :
    chooseCandidate remaining i fallback rest (before ++ d :: after) = .ok (.print i .flat d) := by
  induction before with
  | nil => rw [List.nil_append, chooseCandidate, h]; rfl
  | cons e before ih =>
    rw [List.cons_append, chooseCandidate, hbefore e List.mem_cons_self]
    exact ih fun e he => hbefore e (List.mem_cons_of_mem _ he)

private theorem chooseCandidate_of_not_fits {remaining : Int} {i : Nat} {fallback : Doc}
    {front : List Doc}
    (h : ∀ e ∈ front, fits false remaining (.print i .flat e :: rest) = .ok false) :
    chooseCandidate remaining i fallback rest front = .ok (.print i .broken fallback) := by
  induction front with
  | nil => rfl
  | cons e front ih =>
    rw [chooseCandidate, h e List.mem_cons_self]
    exact ih fun e he => h e (List.mem_cons_of_mem _ he)

/-- What one step does is done to the plain stack as well: it comes to the plain form of the
stack after the step, and emits what the step emits but for marks. -/
theorem CarriedOut.run_plain (hc : CarriedOut page column rest c s) :
    run page column (c.plain ++ plainStack rest) =
      (run page s.column (plainStack s.commands ++ plainStack rest)).prepend
        (unmarked s.items) := by
  have hfits (i : Nat) (d : Doc) :
      fits false (page.width - column) (.print i .flat d.plain :: plainStack rest) =
        fits false (page.width - column) (.print i .flat d :: rest) := by
    rw [fits_plain, ← fits_plainStack _ (.print i .flat d :: rest)]
    rfl
  -- a step that emits nothing and puts back one command, and then opens its document
  have hone {c : Command} (i : Nat) (m : Mode) (d : Doc)
      (hs : step page column c (plainStack rest) =
        .ok ⟨[], column, [.print i m (.concat d.plainParts)]⟩) :
      run page column (c :: plainStack rest) =
        run page column (plainStack [.print i m d] ++ plainStack rest) := by
    rw [run_cons_of_silent hs, List.singleton_append, run_concat]
    simp
  have hplain {c : Command} (i : Nat) (m : Mode) (d : Doc)
      (hs : step page column c (plainStack rest) = .ok ⟨[], column, [.print i m d.plain]⟩) :
      run page column (c :: plainStack rest) =
        run page column (plainStack [.print i m d] ++ plainStack rest) := by
    rw [run_cons_of_silent hs, List.singleton_append, Typeset.run_plain]
    simp
  cases hc with
  | endMark i m a => rfl
  | @fillRest i m b item after flat h =>
    have hs : step page column ⟨i, m, .fillRest b item.plain (after.map Doc.plain)⟩
        (plainStack rest) = .ok ⟨[], column,
          .print i (if flat then .flat else .broken) item.plain ::
            fillRestCommands i .broken (!b) (after.map Doc.plain)⟩ :=
      bind_eq_ok_iff.mpr ⟨_, bind_eq_ok_iff.mpr
        ⟨flat, (fits_fillMeasured_plain (!b) _ i b item after).trans h, rfl⟩, rfl⟩
    exact (run_cons_of_silent hs).trans (run_fillItem_plain i _ (!b) item after _)
  | nil i m => rfl
  | lit i m t =>
    rw [commands_printText]
    exact run_plainText i m t _
  | text i m t =>
    rw [commands_printText]
    exact run_plainText i m t _
  | line i m k =>
    have hs : step page column (.print i m (.line k)) (plainStack rest) =
        .ok (printLine page column i m k) := rfl
    have hitems : unmarked (printLine page column i m k).items =
        (printLine page column i m k).items := by cases m <;> cases k <;> rfl
    rw [hitems, commands_printLine]
    exact (run_cons hs).trans (by rw [commands_printLine]; rfl)
  | concat i m ds =>
    rw [plainStack_printAll, Command.plain_print, Doc.plainParts_concat]
    rfl
  | indent i m d => exact hone (i + 1) m d rfl
  | annotated i m d a =>
    have hmark : Command.plain ⟨i, m, .endMark a⟩ = [] := rfl
    have hcommands : plainStack [.print i m d, ⟨i, m, .endMark a⟩] =
        Command.printAll i m d.plainParts := by simp [hmark]
    rw [hcommands]
    rfl
  | alwaysBreak i m d => exact hone i .broken d rfl
  | forcedGroup i m d => exact hone i .broken d rfl
  | flatGroup i d => exact hone i .flat d rfl
  | @group i d flat h =>
    have hfit : fits false (page.width - column)
        (.print i .flat (.concat d.plainParts) :: plainStack rest) = .ok flat := by
      rw [fits_concat, ← h, ← fits_plainStack _ (.print i .flat d :: rest)]
      rfl
    have hs : step page column (.print i .broken (.group (.concat d.plainParts) false))
        (plainStack rest) = .ok ⟨[], column,
          [.print i (if flat then .flat else .broken) (.concat d.plainParts)]⟩ := by
      refine bind_eq_ok_iff.mpr ⟨_, bind_eq_ok_iff.mpr ⟨flat, hfit, rfl⟩, ?_⟩
      cases flat <;> rfl
    exact hone i _ d hs
  | flatConditional i front fallback =>
    rw [Command.plain_print, Doc.plainParts_conditional]
    refine hplain i .flat (Doc.flatCandidate front fallback) ?_
    rw [← Doc.flatCandidate_plain]
    rfl
  | @candidate i before after d fallback hbefore h =>
    rw [Command.plain_print, Doc.plainParts_conditional, List.map_append, List.map_cons]
    refine hplain i .flat d (bind_eq_ok_iff.mpr ⟨_, chooseCandidate_of_fits ?_ ?_, rfl⟩)
    · intro e he
      obtain ⟨e, hmem, rfl⟩ := List.mem_map.mp he
      exact (hfits i e).trans (hbefore e hmem)
    · exact (hfits i d).trans h
  | @fallback i front fallback h =>
    rw [Command.plain_print, Doc.plainParts_conditional]
    refine hplain i .broken fallback (bind_eq_ok_iff.mpr ⟨_, chooseCandidate_of_not_fits ?_, rfl⟩)
    intro e he
    obtain ⟨e, hmem, rfl⟩ := List.mem_map.mp he
    exact (hfits i e).trans (h e hmem)
  | flatFill i ds =>
    have hs : step page column (.print i .flat (.fill (ds.map Doc.plain))) (plainStack rest) =
        .ok ⟨[], column, Command.printAll i .flat (ds.map Doc.plain)⟩ := rfl
    rw [Command.plain_print, Doc.plainParts_fill, plainStack_printAll]
    exact (run_cons_of_silent hs).trans (run_printAll_plain column i .flat ds _)
  | emptyFill i => exact run_cons_of_silent rfl
  | @fill i item after flat h =>
    rw [Command.plain_print, Doc.plainParts_fill, List.map_cons]
    have hs : step page column (.print i .broken (.fill (item.plain :: after.map Doc.plain)))
        (plainStack rest) = .ok ⟨[], column,
          .print i (if flat then .flat else .broken) item.plain ::
            fillRestCommands i .broken true (after.map Doc.plain)⟩ :=
      bind_eq_ok_iff.mpr ⟨_, bind_eq_ok_iff.mpr
        ⟨flat, (fits_fillMeasured_plain true _ i false item after).trans h, rfl⟩, rfl⟩
    exact (run_cons_of_silent hs).trans (run_fillItem_plain i _ true item after _)

/-- The run of a plain stack: it is not stopped, and it emits what the run of the stack emits
but for marks. -/
theorem exists_run_plainStack (page : Page) (column : Int) {cs : List Command}
    (hcs : cs.all (Command.all Doc.hasKnownSort) = true) :
    ∃ items, run page column cs = ⟨items, none⟩ ∧
      run page column (plainStack cs) = ⟨unmarked items, none⟩ := by
  refine run_induction
    (P := fun column cs items => run page column (plainStack cs) = ⟨unmarked items, none⟩)
    (fun column => ?_) (fun {column c rest s items} hc h => ?_) column cs hcs
  · rw [plainStack_nil, run]
    rfl
  · rw [plainStack_append] at h
    rw [plainStack_cons, hc.run_plain, h, unmarked_append]
    rfl

end Run

end Typeset
