import Typeset.Layout.Run
import Typeset.Proofs.Fitting

/-!
# Runs of the layout

What carrying out one command can yield is said once, as a relation with one constructor for
each way in which the layout goes on. Every fact about runs is then a fact about the
constructors, carried along the run by one induction. A run over documents of known sorts is
never stopped.

## Main definitions

* `CarriedOut` : what carrying out a command can yield.
* `Reaches` : the states that the layout of a document passes through.

## Main results

* `CarriedOut.of_step` : steps of the layout are of these forms.
* `CarriedOut.all_commands` : the commands put back keep every condition.
* `step_congr` : a step sees the stack below its command only by measuring it.
* `run_append_congr` : what is measured and runs alike does so below other commands.
* `run_induction` : induction along the run of commands of known sorts.
* `exists_layout_eq` : the layout of a document of known sorts is not stopped.
-/

namespace Typeset

/-! ### One command -/

@[simp]
theorem commands_printText (column : Int) (s : String) : (printText column s).commands = [] := by
  rw [printText]
  split <;> rfl

@[simp]
theorem commands_printLine (page : Page) (column : Int) (i : Nat) (m : Mode) (k : LineKind) :
    (printLine page column i m k).commands = [] := by
  cases m <;> cases k <;> rfl

/-- What carrying out a command at a column can yield, where `rest` is the stack below the
command. The constructors for choices record what was measured to make them. -/
inductive CarriedOut (page : Page) (column : Int) (rest : List Command) : Command → Step → Prop
  | endMark (i : Nat) (m : Mode) (a : Mark) :
      CarriedOut page column rest ⟨i, m, .endMark a⟩ ⟨[.pop a], column, []⟩
  | fillRest {i : Nat} {m : Mode} {b : Bool} {item : Doc} {after : List Doc} {flat : Bool}
      (h : fits (!b) (page.width - column) (fillMeasured i b item after) = .ok flat) :
      CarriedOut page column rest ⟨i, m, .fillRest b item after⟩
        ⟨[], column, .print i (if flat then .flat else .broken) item ::
          fillRestCommands i .broken (!b) after⟩
  | nil (i : Nat) (m : Mode) :
      CarriedOut page column rest (.print i m .nil) ⟨[], column, []⟩
  | lit (i : Nat) (m : Mode) (s : String) :
      CarriedOut page column rest (.print i m (.lit s)) (printText column s)
  | text (i : Nat) (m : Mode) (s : String) :
      CarriedOut page column rest (.print i m (.text s)) (printText column s)
  | line (i : Nat) (m : Mode) (k : LineKind) :
      CarriedOut page column rest (.print i m (.line k)) (printLine page column i m k)
  | concat (i : Nat) (m : Mode) (ds : List Doc) :
      CarriedOut page column rest (.print i m (.concat ds))
        ⟨[], column, Command.printAll i m ds⟩
  | indent (i : Nat) (m : Mode) (d : Doc) :
      CarriedOut page column rest (.print i m (.indent d)) ⟨[], column, [.print (i + 1) m d]⟩
  | annotated (i : Nat) (m : Mode) (d : Doc) (a : Mark) :
      CarriedOut page column rest (.print i m (.annotated d a))
        ⟨[.push a], column, [.print i m d, ⟨i, m, .endMark a⟩]⟩
  | alwaysBreak (i : Nat) (m : Mode) (d : Doc) :
      CarriedOut page column rest (.print i m (.alwaysBreak d))
        ⟨[], column, [.print i .broken d]⟩
  | forcedGroup (i : Nat) (m : Mode) (d : Doc) :
      CarriedOut page column rest (.print i m (.group d true))
        ⟨[], column, [.print i .broken d]⟩
  | flatGroup (i : Nat) (d : Doc) :
      CarriedOut page column rest (.print i .flat (.group d false))
        ⟨[], column, [.print i .flat d]⟩
  | group {i : Nat} {d : Doc} {flat : Bool}
      (h : fits false (page.width - column) (.print i .flat d :: rest) = .ok flat) :
      CarriedOut page column rest (.print i .broken (.group d false))
        ⟨[], column, [.print i (if flat then .flat else .broken) d]⟩
  | flatConditional (i : Nat) (front : List Doc) (fallback : Doc) :
      CarriedOut page column rest (.print i .flat (.conditional front fallback))
        ⟨[], column, [.print i .flat (Doc.flatCandidate front fallback)]⟩
  | candidate {i : Nat} {before after : List Doc} {d fallback : Doc}
      (hbefore : ∀ e ∈ before,
        fits false (page.width - column) (.print i .flat e :: rest) = .ok false)
      (h : fits false (page.width - column) (.print i .flat d :: rest) = .ok true) :
      CarriedOut page column rest (.print i .broken (.conditional (before ++ d :: after) fallback))
        ⟨[], column, [.print i .flat d]⟩
  | fallback {i : Nat} {front : List Doc} {fallback : Doc}
      (h : ∀ e ∈ front,
        fits false (page.width - column) (.print i .flat e :: rest) = .ok false) :
      CarriedOut page column rest (.print i .broken (.conditional front fallback))
        ⟨[], column, [.print i .broken fallback]⟩
  | flatFill (i : Nat) (ds : List Doc) :
      CarriedOut page column rest (.print i .flat (.fill ds))
        ⟨[], column, Command.printAll i .flat ds⟩
  | emptyFill (i : Nat) :
      CarriedOut page column rest (.print i .broken (.fill [])) ⟨[], column, []⟩
  | fill {i : Nat} {item : Doc} {after : List Doc} {flat : Bool}
      (h : fits true (page.width - column) (fillMeasured i false item after) = .ok flat) :
      CarriedOut page column rest (.print i .broken (.fill (item :: after)))
        ⟨[], column, .print i (if flat then .flat else .broken) item ::
          fillRestCommands i .broken true after⟩

section Step

variable {page : Page} {column : Int} {c : Command} {rest : List Command} {s : Step}

private theorem carriedOut_of_chooseCandidate {i : Nat} {fallback : Doc} (before : List Doc)
    {ds : List Doc} (hbefore : ∀ e ∈ before,
      fits false (page.width - column) (.print i .flat e :: rest) = .ok false)
    (h : chooseCandidate (page.width - column) i fallback rest ds = .ok c) :
    CarriedOut page column rest (.print i .broken (.conditional (before ++ ds) fallback))
      ⟨[], column, [c]⟩ := by
  induction ds generalizing before with
  | nil =>
    cases h
    rw [List.append_nil]
    exact .fallback hbefore
  | cons d ds ih =>
    simp only [chooseCandidate, bind_eq_ok_iff] at h
    obtain ⟨b, hb, h⟩ := h
    cases b with
    | true =>
      cases h
      exact .candidate hbefore hb
    | false =>
      have hbefore' : ∀ e ∈ before ++ [d],
          fits false (page.width - column) (.print i .flat e :: rest) = .ok false := by
        intro e he
        rcases List.mem_append.mp he with he | he
        · exact hbefore e he
        · rwa [List.mem_singleton.mp he]
      simpa using ih (before ++ [d]) hbefore' h

/-- Every step of the layout has one of the forms of `CarriedOut`. -/
theorem CarriedOut.of_step (h : step page column c rest = .ok s) :
    CarriedOut page column rest c s := by
  obtain ⟨i, m, content⟩ := c
  cases content with
  | endMark a => cases h; exact .endMark i m a
  | fillRest b item after =>
    obtain ⟨cs, hcs, h⟩ := bind_eq_ok_iff.mp h
    obtain ⟨flat, hflat, hcs⟩ := bind_eq_ok_iff.mp hcs
    cases hcs
    cases h
    exact .fillRest hflat
  | doc d =>
    cases d with
    | nil => cases h; exact .nil i m
    | lit s => cases h; exact .lit i m s
    | text s => cases h; exact .text i m s
    | line k => cases h; exact .line i m k
    | concat ds => cases h; exact .concat i m ds
    | indent d => cases h; exact .indent i m d
    | annotated d a => cases h; exact .annotated i m d a
    | alwaysBreak d => cases h; exact .alwaysBreak i m d
    | group d forced =>
      cases forced with
      | true => cases h; exact .forcedGroup i m d
      | false =>
        cases m with
        | flat => cases h; exact .flatGroup i d
        | broken =>
          obtain ⟨c, hc, h⟩ := bind_eq_ok_iff.mp h
          obtain ⟨flat, hflat, hc⟩ := bind_eq_ok_iff.mp hc
          cases h
          cases flat <;> cases hc <;> exact .group hflat
    | conditional front fallback =>
      cases m with
      | flat => cases h; exact .flatConditional i front fallback
      | broken =>
        obtain ⟨c, hc, h⟩ := bind_eq_ok_iff.mp h
        cases h
        exact carriedOut_of_chooseCandidate [] (by simp) hc
    | fill ds =>
      cases m with
      | flat => cases h; exact .flatFill i ds
      | broken =>
        cases ds with
        | nil => cases h; exact .emptyFill i
        | cons item after =>
          obtain ⟨cs, hcs, h⟩ := bind_eq_ok_iff.mp h
          obtain ⟨flat, hflat, hcs⟩ := bind_eq_ok_iff.mp hcs
          cases hcs
          cases h
          exact .fill hflat
    | unknown sort => cases h

end Step

/-! ### Conditions on commands -/

section Conditions

variable {p : Doc → Bool}

/-- What a command puts back meets the conditions that the command meets. -/
theorem CarriedOut.all_commands {page : Page} {column : Int} {rest : List Command} {c : Command}
    {s : Step} (h : CarriedOut page column rest c s) (hc : c.all p = true) :
    s.commands.all (Command.all p) = true := by
  cases h with
  | endMark | nil | emptyFill => rfl
  | lit | text | line => simp
  | concat i m ds | flatFill i ds =>
    simp only [Command.all_print, Doc.all, Bool.and_eq_true] at hc
    simpa using hc.2
  | indent | annotated | alwaysBreak | forcedGroup | flatGroup | group =>
    simp only [Command.all_print, Doc.all, Bool.and_eq_true] at hc
    simpa using hc.2
  | flatConditional i front fallback =>
    simp only [Command.all_print, Doc.all, Bool.and_eq_true] at hc
    simpa using Doc.all_flatCandidate hc.2.1 hc.2.2
  | candidate =>
    simp only [Command.all_print, Doc.all, Bool.and_eq_true, Doc.allIn_iff] at hc
    simpa using hc.2.1 _ (by simp)
  | fallback =>
    simp only [Command.all_print, Doc.all, Bool.and_eq_true] at hc
    simpa using hc.2.2
  | fillRest =>
    simp only [Command.all_fillRest, Bool.and_eq_true] at hc
    simp [hc.2.1, all_fillRestCommands hc.1 hc.2.2]
  | fill =>
    simp only [Command.all_print, Doc.all, Doc.allIn, Bool.and_eq_true] at hc
    simp [hc.2.1, all_fillRestCommands hc.1 hc.2.2]

end Conditions

/-! ### Runs -/

section Run

variable {page : Page}

/-- A run goes on with what its first command puts back. -/
theorem run_cons {column : Int} {c : Command} {rest : List Command} {s : Step}
    (hs : step page column c rest = .ok s) :
    run page column (c :: rest) = (run page s.column (s.commands ++ rest)).prepend s.items := by
  rw [run]
  split
  · next he => rw [hs] at he; cases he
  · next s' hs' =>
    rw [hs] at hs'
    cases hs'
    rfl

/-- A run is stopped where its first command cannot be carried out. -/
theorem run_cons_of_error {column : Int} {c : Command} {rest : List Command} {e : LayoutError}
    (he : step page column c rest = .error e) : run page column (c :: rest) = ⟨[], some e⟩ := by
  rw [run]
  split
  · next he' =>
    rw [he] at he'
    cases he'
    rfl
  · next hs => rw [he] at hs; cases hs

/-- A step that emits nothing and keeps the column only changes the stack. -/
theorem run_cons_of_silent {column : Int} {c : Command} {rest commands : List Command}
    (hs : step page column c rest = .ok ⟨[], column, commands⟩) :
    run page column (c :: rest) = run page column (commands ++ rest) := run_cons hs

theorem run_concat (column : Int) (i : Nat) (m : Mode) (ds : List Doc) (rest : List Command) :
    run page column (.print i m (.concat ds) :: rest) =
      run page column (Command.printAll i m ds ++ rest) := run_cons_of_silent rfl

theorem run_alwaysBreak (column : Int) (i : Nat) (m : Mode) (d : Doc) (rest : List Command) :
    run page column (.print i m (.alwaysBreak d) :: rest) =
      run page column (.print i .broken d :: rest) :=
  run_cons (s := ⟨[], column, [.print i .broken d]⟩) rfl

private theorem chooseCandidate_congr {remaining : Int} (i : Nat) (fallback : Doc)
    {rest rest' : List Command}
    (h : ∀ c, fits false remaining (c :: rest) = fits false remaining (c :: rest'))
    (ds : List Doc) : chooseCandidate remaining i fallback rest ds =
      chooseCandidate remaining i fallback rest' ds := by
  induction ds with
  | nil => rfl
  | cons d ds ih => rw [chooseCandidate, chooseCandidate, h, ih]

/-- A step sees the stack below its command only by measuring it. -/
theorem step_congr {column : Int} (c : Command) {rest rest' : List Command}
    (h : ∀ c, fits false (page.width - column) (c :: rest) =
      fits false (page.width - column) (c :: rest')) :
    step page column c rest = step page column c rest' := by
  simp only [step, chooseGroup, h, chooseCandidate_congr _ _ h]

/-- Stacks that are measured alike and run alike do so below other commands. -/
theorem run_append_congr {xs ys : List Command}
    (hfits : ∀ remaining, fits false remaining xs = fits false remaining ys)
    (hrun : ∀ column, run page column xs = run page column ys) (column : Int)
    (cs : List Command) : run page column (cs ++ xs) = run page column (cs ++ ys) := by
  -- a step leaves less of the commands on top
  induction hw : stackWeight cs using Nat.strongRecOn generalizing column cs with
  | ind w ih =>
    cases cs with
    | nil => exact hrun column
    | cons c cs =>
      have hstep : step page column c (cs ++ xs) = step page column c (cs ++ ys) :=
        step_congr c fun d => fits_append_congr hfits _ (d :: cs)
      rw [List.cons_append, List.cons_append]
      cases hs : step page column c (cs ++ ys) with
      | error e => rw [run_cons_of_error hs, run_cons_of_error (hstep.trans hs)]
      | ok s =>
        have hless : stackWeight (s.commands ++ cs) < w := by
          have := stackWeight_step_lt hs
          simp only [stackWeight_append, stackWeight_cons] at hw ⊢
          omega
        rw [run_cons hs, run_cons (hstep.trans hs), ← List.append_assoc, ← List.append_assoc,
          ih _ hless s.column (s.commands ++ cs) rfl]

private theorem chooseCandidate_isOk {remaining : Int} {i : Nat} (fallback : Doc)
    {rest : List Command} {ds : List Doc}
    (h : ∀ d ∈ ds, ∃ v, fits false remaining (.print i .flat d :: rest) = .ok v) :
    ∃ c, chooseCandidate remaining i fallback rest ds = .ok c := by
  induction ds with
  | nil => exact ⟨_, rfl⟩
  | cons d ds ih =>
    obtain ⟨v, hv⟩ := h d List.mem_cons_self
    obtain ⟨c, hc⟩ := ih fun e he => h e (List.mem_cons_of_mem _ he)
    cases v with
    | true => exact ⟨_, by rw [chooseCandidate, hv]; rfl⟩
    | false => exact ⟨c, by rw [chooseCandidate, hv]; exact hc⟩

private theorem fillCommands_isOk {remaining : Int} {i : Nat} {b : Bool} {item : Doc}
    {after : List Doc} (h : Doc.allIn Doc.hasKnownSort (item :: after) = true) :
    ∃ cs, fillCommands remaining i b item after = .ok cs := by
  simp only [Doc.allIn, Bool.and_eq_true] at h
  have hm : (fillMeasured i b item after).all (Command.all Doc.hasKnownSort) = true := by
    cases b <;> cases after <;> simp_all [fillMeasured, Doc.allIn]
  obtain ⟨v, hv⟩ := fits_isOk (!b) remaining hm
  exact ⟨_, by rw [fillCommands, hv]; rfl⟩

/-- A command of known sorts over a stack of known sorts can be carried out. -/
theorem step_isOk (page : Page) (column : Int) {c : Command} {rest : List Command}
    (h : (c :: rest).all (Command.all Doc.hasKnownSort) = true) :
    ∃ s, step page column c rest = .ok s := by
  simp only [List.all_cons, Bool.and_eq_true] at h
  obtain ⟨hc, hrest⟩ := h
  obtain ⟨i, m, content⟩ := c
  have hfits (d : Doc) (hd : d.all Doc.hasKnownSort = true) :
      ∃ v, fits false (page.width - column) (.print i .flat d :: rest) = .ok v :=
    fits_isOk false _ (by simp [hd, hrest])
  cases content with
  | endMark a => exact ⟨_, rfl⟩
  | fillRest b item after =>
    simp only [Command.all_fillRest, Bool.and_eq_true] at hc
    have hitems : Doc.allIn Doc.hasKnownSort (item :: after) = true :=
      Bool.and_eq_true_iff.mpr hc.2
    obtain ⟨cs, hcs⟩ := fillCommands_isOk hitems
    exact ⟨_, bind_eq_ok_iff.mpr ⟨cs, hcs, rfl⟩⟩
  | doc d =>
    cases d with
    | group d forced =>
      simp only [Command.all_doc, Doc.all, Bool.and_eq_true] at hc
      cases forced with
      | true => exact ⟨_, rfl⟩
      | false =>
        cases m with
        | flat => exact ⟨_, rfl⟩
        | broken =>
          obtain ⟨v, hv⟩ := hfits d hc.2
          exact ⟨_, bind_eq_ok_iff.mpr ⟨_, bind_eq_ok_iff.mpr ⟨v, hv, rfl⟩, rfl⟩⟩
    | conditional front fallback =>
      simp only [Command.all_doc, Doc.all, Bool.and_eq_true, Doc.allIn_iff] at hc
      cases m with
      | flat => exact ⟨_, rfl⟩
      | broken =>
        obtain ⟨c, h⟩ := chooseCandidate_isOk fallback fun d hd => hfits d (hc.2.1 d hd)
        exact ⟨_, bind_eq_ok_iff.mpr ⟨c, h, rfl⟩⟩
    | fill ds =>
      simp only [Command.all_doc, Doc.all, Bool.and_eq_true] at hc
      cases m with
      | flat => exact ⟨_, rfl⟩
      | broken =>
        cases ds with
        | nil => exact ⟨_, rfl⟩
        | cons item after =>
          obtain ⟨cs, hcs⟩ := fillCommands_isOk hc.2
          exact ⟨_, bind_eq_ok_iff.mpr ⟨cs, hcs, rfl⟩⟩
    | unknown sort => simp [Doc.all, Doc.hasKnownSort] at hc
    | _ => exact ⟨_, rfl⟩

/-- Induction along a run: the run of commands of known sorts is not stopped, and what holds
of the empty stack and is kept backwards by every step holds of it. -/
theorem run_induction {P : Int → List Command → List Item → Prop}
    (nil : ∀ column, P column [] [])
    (cons : ∀ {column c rest s items}, CarriedOut page column rest c s →
      P s.column (s.commands ++ rest) items → P column (c :: rest) (s.items ++ items))
    (column : Int) (cs : List Command) (hcs : cs.all (Command.all Doc.hasKnownSort) = true) :
    ∃ items, run page column cs = ⟨items, none⟩ ∧ P column cs items := by
  -- along the recursion of `run`, which the weight of the stack ends
  fun_induction run page column cs with
  | case1 column => exact ⟨[], rfl, nil column⟩
  | case2 column c rest e he =>
    obtain ⟨s, hs⟩ := step_isOk page column hcs
    rw [hs] at he
    cases he
  | case3 column c rest s hs ih =>
    have hc := CarriedOut.of_step hs
    simp only [List.all_cons, Bool.and_eq_true] at hcs
    obtain ⟨items, hrun, hP⟩ := ih (by simp [hc.all_commands hcs.1, hcs.2])
    exact ⟨s.items ++ items, by rw [hrun]; rfl, cons hc hP⟩

/-- The layout of a document of known sorts is not stopped. -/
theorem exists_layout_eq (page : Page) {d : Doc} (hd : d.isKnown = true) :
    ∃ items, layout page d = ⟨items, none⟩ := by
  have hstack : [Command.print 0 .broken d.normal].all (Command.all Doc.hasKnownSort) = true := by
    simpa using Doc.all_normal rfl rfl rfl hd
  have hrun : ∃ items, run page 0 [.print 0 .broken d.normal] = ⟨items, none⟩ ∧ True :=
    run_induction (P := fun _ _ _ => True) (fun _ => trivial) (fun _ _ => trivial) 0 _ hstack
  obtain ⟨items, hrun, -⟩ := hrun
  exact ⟨items, by rw [layout, Doc.normalize_eq_normal, hrun]⟩

/-! ### States of a layout -/

/-- The states that the layout of a document passes through: the items emitted so far, the
column and the stack. -/
inductive Reaches (page : Page) (d : Doc) : List Item → Int → List Command → Prop
  | start : Reaches page d [] 0 [.print 0 .broken d.normalize]
  | next {emitted : List Item} {column : Int} {c : Command} {rest : List Command} {s : Step}
      (h : Reaches page d emitted column (c :: rest)) (hs : step page column c rest = .ok s) :
      Reaches page d (emitted ++ s.items) s.column (s.commands ++ rest)

variable {d : Doc} {emitted : List Item} {column : Int} {stack : List Command}

/-- A condition that normal forms keep holds of every stack that is reached. -/
theorem Reaches.all {p : Doc → Bool} (h : Reaches page d emitted column stack)
    (hd : d.normal.all p = true) : stack.all (Command.all p) = true := by
  induction h with
  | start => simpa [Doc.normalize_eq_normal] using hd
  | next _ hs ih =>
    simp only [List.all_cons, Bool.and_eq_true] at ih
    simp [(CarriedOut.of_step hs).all_commands ih.1, ih.2]

/-- What the layout emits after a state is what the run from that state emits. -/
theorem Reaches.layout_eq (h : Reaches page d emitted column stack) :
    layout page d = (run page column stack).prepend emitted := by
  induction h with
  | start => rfl
  | @next emitted column c rest s _ hs ih =>
    rw [ih, run_cons hs]
    simp [Layout.prepend]

end Run

end Typeset
