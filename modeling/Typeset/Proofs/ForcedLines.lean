import Typeset.Proofs.LayoutRun

/-!
# Forced lines are printed broken

A hard or a literal line cannot be printed flat. Normalising carries this outwards as a mark,
and takes the mark off the documents inside, so that bare forced lines stand in normal forms
without one. Still no layout ever comes to such a line in flat surroundings, and neither does
any measurement that a layout makes: a group or a candidate that is printed flat holds no
forced line outside of a mark of its own, and behind a mark everything is printed broken.

The condition that carries this is asked of a document together with the mode in which it is
printed. It holds of every normal form in both modes, every step of the layout keeps it for
the commands that it puts back, and so does every step of a measurement.

## Main definitions

* `Doc.forcedBroken` : printing the document meets no forced line flat.
* `Asks` : what the layout measures in order to carry out a command.
* `Looks` : the states that a measurement passes through.

## Main results

* `Doc.forcedBroken_normal` : normal forms meet the condition in every mode.
* `CarriedOut.forcedBroken`, `Reaches.forcedBroken` : what a step and a run of the layout keep.
* `Looks.fits_eq` : a measurement has the same answer from each of its states on.
* `Looks.forcedBroken` : what a measurement keeps.
* `forced_lines_never_flat` : marks are those of documents that must break, and forced lines
  are met broken.
-/

namespace Typeset

/-! ### Documents -/

namespace Doc

mutual

/-- Whether printing the document in a mode meets lines that cannot be flat only where lines
are printed broken, whatever the layout chooses. What may be chosen flat is asked for the
flat mode. -/
def forcedBroken (m : Mode) : Doc → Bool
  | line k => m = .broken || !k.forcesBreak
  | concat ds => forcedBrokenAll m ds
  | indent d => forcedBroken m d
  | annotated d _ => forcedBroken m d
  | group d forced => forcedBroken (if forced then .broken else .flat) d
  | alwaysBreak d => forcedBroken .broken d
  | fill ds => forcedBrokenAll .flat ds
  | conditional ds d => forcedBrokenAll .flat ds && forcedBroken .flat d
  | nil | lit _ | text _ | unknown _ => true

/-- The same for all documents of a list. -/
def forcedBrokenAll (m : Mode) : List Doc → Bool
  | [] => true
  | d :: ds => forcedBroken m d && forcedBrokenAll m ds

end

variable {m : Mode} {d : Doc} {ds : List Doc}

theorem forcedBrokenAll_iff :
    forcedBrokenAll m ds = true ↔ ∀ d ∈ ds, d.forcedBroken m = true := by
  induction ds with
  | nil => simp [forcedBrokenAll]
  | cons d ds ih => simp [forcedBrokenAll, ih]

theorem forcedBroken_candidates (h : (conditional ds d).forcedBroken m = true) :
    ∀ e ∈ candidates ds d, e.forcedBroken .flat = true := by
  simp only [forcedBroken, Bool.and_eq_true, forcedBrokenAll_iff] at h
  simpa [candidates, or_imp, forall_and] using h

/-- Lines that are printed broken are no obstacle. -/
theorem forcedBroken_broken (h : d.forcedBroken m = true) : d.forcedBroken .broken = true := by
  induction d using inductionOn with
  | concat ds ih =>
    simp only [forcedBroken, forcedBrokenAll_iff] at h ⊢
    exact fun e he => ih e he (h e he)
  | line k => simp [forcedBroken]
  | indent d ih => exact ih h
  | annotated d a ih => exact ih h
  | _ => exact h

/-! ### Normal forms -/

/-- What a document contributes to a concatenation meets the condition if the document does
and is not printed flat in spite of a mark. -/
private theorem forcedBroken_of_mem_spliced {n : Doc} (hn : n.forcedBroken m = true)
    (hm : n.isBreaking = true → m = .broken) : ∀ e ∈ n.spliced, e.forcedBroken m = true := by
  intro e he
  cases n with
  | concat ds => exact forcedBrokenAll_iff.mp hn e he
  | alwaysBreak n =>
    rw [hm rfl]
    cases n with
    | concat ds => exact forcedBrokenAll_iff.mp hn e he
    | _ => rwa [List.mem_singleton.mp he]
  | _ => simp_all [spliced]

private theorem forcedBroken_joined (h : ∀ d ∈ ds, d.forcedBroken m = true) :
    (joined ds).forcedBroken m = true := by
  match ds with
  | [] => rfl
  | [d] => exact h d List.mem_cons_self
  | d :: d' :: ds => exact forcedBrokenAll_iff.mpr h

private theorem forcedBroken_rebuildConcat (h : ∀ n ∈ ds, n.forcedBroken .flat = true) :
    (rebuildConcat ds).forcedBroken .flat = true := by
  rw [rebuildConcat]
  cases hb : ds.any isBreaking with
  | true =>
    refine forcedBroken_joined fun e he => ?_
    obtain ⟨n, hn, he⟩ := List.mem_flatMap.mp he
    exact forcedBroken_of_mem_spliced (forcedBroken_broken (h n hn)) (fun _ => rfl) e he
  | false =>
    refine forcedBroken_joined fun e he => ?_
    obtain ⟨n, hn, he⟩ := List.mem_flatMap.mp he
    have hplain := List.any_eq_false.mp hb n hn
    exact forcedBroken_of_mem_spliced (h n hn) (fun hbreak => absurd hbreak hplain) e he

private theorem forcedBroken_liftBreak {wrap : Doc → Doc}
    (hw : ∀ m d, (wrap d).forcedBroken m = d.forcedBroken m) {n : Doc}
    (h : n.forcedBroken .flat = true) : (liftBreak wrap n).forcedBroken .flat = true := by
  cases n with
  | alwaysBreak n => exact (hw .broken n).trans h
  | _ => exact (hw .flat _).trans h

private theorem forcedBroken_breakingIf (h : d.forcedBroken .flat = true) (b : Bool) :
    (breakingIf b d).forcedBroken .flat = true := by
  cases b with
  | true => exact forcedBroken_broken h
  | false => exact h

/-- A normal form can be printed in any mode: either it is marked, and behind the mark it is
printed broken, or no forced line is left in it that could be met flat. -/
theorem forcedBroken_normal (d : Doc) : d.normal.forcedBroken .flat = true := by
  induction d using inductionOn with
  | nil => rfl
  | lit s => rfl
  | text s => rw [normal, rebuildText]; split <;> rfl
  | line k => cases k <;> rfl
  | concat ds ih =>
    rw [normal, normalAll_eq_map]
    exact forcedBroken_rebuildConcat (List.forall_mem_map.mpr ih)
  | indent d ih =>
    rw [normal]
    exact forcedBroken_liftBreak (fun _ _ => by rw [forcedBroken]) ih
  | annotated d a ih =>
    rw [normal]
    exact forcedBroken_liftBreak (fun _ _ => by rw [forcedBroken]) ih
  | group d b ih =>
    rw [normal]
    cases hn : d.normal with
    | alwaysBreak n => rwa [hn] at ih
    | _ =>
      rw [hn] at ih
      cases b with
      | true => exact forcedBroken_broken ih
      | false => exact ih
  | alwaysBreak d ih =>
    rw [normal]
    cases hn : d.normal with
    | alwaysBreak n => rwa [hn] at ih
    | _ => exact forcedBroken_broken (hn ▸ ih)
  | fill ds ih =>
    rw [normal, normalAll_eq_map]
    refine forcedBroken_breakingIf ?_ _
    exact forcedBrokenAll_iff.mpr (List.forall_mem_map.mpr ih)
  | conditional ds d ihs ih =>
    rw [normal, normalAll_eq_map]
    refine forcedBroken_breakingIf ?_ _
    exact Bool.and_eq_true_iff.mpr
      ⟨forcedBrokenAll_iff.mpr (List.forall_mem_map.mpr ihs), ih⟩
  | unknown s => rfl

end Doc

/-! ### Commands -/

namespace Command

/-- Whether carrying out the command meets no forced line flat. -/
def forcedBroken (c : Command) : Bool :=
  match c.content with
  | .doc d => d.forcedBroken c.mode
  | .endMark _ => true
  | .fillRest _ item rest => Doc.forcedBrokenAll .flat (item :: rest)

/-- Whether the command is a forced line in flat surroundings. -/
def IsFlatForced (c : Command) : Prop :=
  ∃ i k, LineKind.forcesBreak k = true ∧ c = .print i .flat (.line k)

theorem not_isFlatForced {c : Command} (h : c.forcedBroken = true) : ¬ c.IsFlatForced := by
  rintro ⟨i, k, hk, rfl⟩
  have h : (decide (Mode.flat = .broken) || !k.forcesBreak) = true := h
  simp [hk] at h

@[simp]
theorem forcedBroken_doc (i : Nat) (m : Mode) (d : Doc) :
    forcedBroken ⟨i, m, .doc d⟩ = d.forcedBroken m := rfl

@[simp]
theorem forcedBroken_print (i : Nat) (m : Mode) (d : Doc) :
    (print i m d).forcedBroken = d.forcedBroken m := rfl

@[simp]
theorem forcedBroken_printAll (i : Nat) (m : Mode) (ds : List Doc) :
    (printAll i m ds).all forcedBroken = Doc.forcedBrokenAll m ds := by
  induction ds with
  | nil => rfl
  | cons d ds ih => exact congrArg (d.forcedBroken m && ·) ih

end Command

theorem forcedBroken_fillRestCommands (i : Nat) (m : Mode) (b : Bool) (ds : List Doc) :
    (fillRestCommands i m b ds).all Command.forcedBroken = Doc.forcedBrokenAll .flat ds := by
  cases ds with
  | nil => rfl
  | cons d ds => simp [fillRestCommands, Command.forcedBroken]

variable {page : Page} {column : Int} {c : Command} {rest : List Command}

/-- An item of a fill may be printed flat or broken. -/
private theorem forcedBroken_fillItem {i : Nat} {b flat : Bool} {item : Doc} {after : List Doc}
    (h : Doc.forcedBrokenAll .flat (item :: after) = true) :
    (Command.print i (if flat then .flat else .broken) item ::
      fillRestCommands i .broken b after).all Command.forcedBroken = true := by
  obtain ⟨hitem, hafter⟩ := Bool.and_eq_true_iff.mp h
  rw [List.all_cons, forcedBroken_fillRestCommands, hafter, Bool.and_true]
  cases flat with
  | true => exact hitem
  | false => exact Doc.forcedBroken_broken hitem

/-- What one step keeps: the commands that are put back meet no forced line flat if the command
that was carried out does not. -/
theorem CarriedOut.forcedBroken {s : Step} (hs : CarriedOut page column rest c s)
    (hc : c.forcedBroken = true) : s.commands.all Command.forcedBroken = true := by
  cases hs with
  | endMark | nil | emptyFill => rfl
  | lit | text | line => simp
  | fillRest | fill => exact forcedBroken_fillItem hc
  | concat | flatFill | indent | alwaysBreak | forcedGroup | flatGroup =>
    simpa [Doc.forcedBroken] using hc
  | annotated => exact Bool.and_eq_true_iff.mpr ⟨hc, rfl⟩
  | @group i d flat =>
    have hd : d.forcedBroken .flat = true := hc
    cases flat with
    | true => simpa using hd
    | false => simpa using Doc.forcedBroken_broken hd
  | flatConditional i front fallback =>
    have hd := Doc.forcedBroken_candidates (m := .flat) hc _ (Doc.flatCandidate_mem front fallback)
    simpa using hd
  | @candidate i before after d fallback =>
    have hd := Doc.forcedBroken_candidates (m := .broken) hc d (by simp [Doc.candidates])
    simpa using hd
  | @fallback i front fallback =>
    have hd := Doc.forcedBroken_candidates (m := .broken) hc fallback (by simp [Doc.candidates])
    simpa using Doc.forcedBroken_broken hd

/-- What a run keeps: no command on a stack that is reached meets a forced line flat. -/
theorem Reaches.forcedBroken {d : Doc} {emitted : List Item} {stack : List Command}
    (h : Reaches page d emitted column stack) : stack.all Command.forcedBroken = true := by
  induction h with
  | start =>
    rw [Doc.normalize_eq_normal]
    simpa using Doc.forcedBroken_broken (Doc.forcedBroken_normal d)
  | next _ hs ih =>
    simp only [List.all_cons, Bool.and_eq_true] at ih
    simp [(CarriedOut.of_step hs).forcedBroken ih.1, ih.2]

/-! ### Measurements -/

/-- What the layout measures in order to carry out a command at a column, where `rest` is the
stack below the command: whether all has to be flat, the columns that remain, and the commands
measured. A candidate is measured when those before it did not fit. -/
inductive Asks (page : Page) (column : Int) (rest : List Command) :
    Command → Bool → Int → List Command → Prop
  | group (i : Nat) (d : Doc) :
      Asks page column rest (.print i .broken (.group d false)) false (page.width - column)
        (.print i .flat d :: rest)
  | candidate {i : Nat} {before after : List Doc} {d fallback : Doc}
      (hbefore : ∀ e ∈ before,
        fits false (page.width - column) (.print i .flat e :: rest) = .ok false) :
      Asks page column rest (.print i .broken (.conditional (before ++ d :: after) fallback))
        false (page.width - column) (.print i .flat d :: rest)
  | fill (i : Nat) (item : Doc) (after : List Doc) :
      Asks page column rest (.print i .broken (.fill (item :: after))) true
        (page.width - column) (fillMeasured i false item after)
  | fillRest (i : Nat) (m : Mode) (separator : Bool) (item : Doc) (after : List Doc) :
      Asks page column rest ⟨i, m, .fillRest separator item after⟩ (!separator)
        (page.width - column) (fillMeasured i separator item after)

/-- The states that measuring commands passes through: the columns that remain and the commands
still to be looked at, the next one first. -/
inductive Looks (mustBeFlat : Bool) (remaining : Int) (cs : List Command) :
    Int → List Command → Prop
  | start : Looks mustBeFlat remaining cs remaining cs
  | next {left left' : Int} {c : Command} {rest commands : List Command}
      (h : Looks mustBeFlat remaining cs left (c :: rest)) (hleft : 0 ≤ left)
      (hc : measure mustBeFlat left c = .ok (.further left' commands)) :
      Looks mustBeFlat remaining cs left' (commands ++ rest)

variable {b : Bool} {remaining left : Int} {cs cs' : List Command}

/-- A measurement has the same answer from each of its states on. -/
theorem Looks.fits_eq (h : Looks b remaining cs left cs') :
    fits b left cs' = fits b remaining cs := by
  induction h with
  | start => rfl
  | next _ hleft hc ih =>
    rw [← ih, fits_cons hleft, hc]
    rfl

/-- What one step of a measurement keeps. -/
theorem forcedBroken_measure {commands : List Command}
    (h : measure b remaining c = .ok (.further left commands)) (hc : c.forcedBroken = true) :
    commands.all Command.forcedBroken = true := by
  obtain ⟨i, m, content⟩ := c
  cases content with
  | endMark a => cases h; rfl
  | fillRest separator item rest =>
    cases h
    obtain ⟨hitem, hrest⟩ := Bool.and_eq_true_iff.mp hc
    rw [List.all_cons, forcedBroken_fillRestCommands, hrest, Bool.and_true]
    cases m with
    | flat => exact hitem
    | broken => exact Doc.forcedBroken_broken hitem
  | doc d =>
    cases d with
    | nil => cases h; rfl
    | lit s | text s =>
      simp only [measure, measureText, Except.ok.injEq] at h
      split at h <;> cases h
      rfl
    | line kind => cases m <;> cases kind <;> cases h <;> rfl
    | concat ds => cases h; simpa [Doc.forcedBroken] using hc
    | fill ds =>
      cases h
      have hds : Doc.forcedBrokenAll .flat ds = true := hc
      rw [Command.forcedBroken_printAll]
      cases m with
      | flat => exact hds
      | broken =>
        rw [Doc.forcedBrokenAll_iff] at hds ⊢
        exact fun d hd => Doc.forcedBroken_broken (hds d hd)
    | indent d | annotated d a => cases h; simpa [Doc.forcedBroken] using hc
    | alwaysBreak d => cases b <;> cases h; simpa [Doc.forcedBroken] using hc
    | group d forced =>
      have hd : d.forcedBroken (if forced then .broken else .flat) = true := hc
      have hmode : d.forcedBroken (if forced then .broken else m) = true := by
        cases forced with
        | true => exact hd
        | false =>
          cases m with
          | flat => exact hd
          | broken => exact Doc.forcedBroken_broken hd
      cases b <;> cases forced <;> cases h <;> simpa using hmode
    | conditional front fallback =>
      cases m with
      | flat =>
        cases h
        have hd := Doc.forcedBroken_candidates (m := .flat) hc _
          (Doc.flatCandidate_mem front fallback)
        simpa using hd
      | broken =>
        cases h
        have hd := Doc.forcedBroken_candidates (m := .broken) hc fallback (by simp [Doc.candidates])
        simpa using Doc.forcedBroken_broken hd
    | unknown sort => cases h

/-- What a measurement keeps. -/
theorem Looks.forcedBroken (h : Looks b remaining cs left cs')
    (hcs : cs.all Command.forcedBroken = true) : cs'.all Command.forcedBroken = true := by
  induction h with
  | start => exact hcs
  | next _ _ hc ih =>
    simp only [List.all_cons, Bool.and_eq_true] at ih
    simp [forcedBroken_measure hc ih.1, ih.2]

/-- What the layout measures meets no forced line flat if its stack does not. -/
theorem Asks.forcedBroken (h : Asks page column rest c b remaining cs)
    (hc : c.forcedBroken = true) (hrest : rest.all Command.forcedBroken = true) :
    cs.all Command.forcedBroken = true := by
  have hmeasured {i : Nat} (separator : Bool) {item : Doc} {after : List Doc}
      (hitems : Doc.forcedBrokenAll .flat (item :: after) = true) :
      (fillMeasured i separator item after).all Command.forcedBroken = true := by
    simp only [Doc.forcedBrokenAll_iff, List.forall_mem_cons] at hitems
    cases separator with
    | false => simp [fillMeasured, hitems.1]
    | true =>
      cases after with
      | nil => simp [fillMeasured, hitems.1]
      | cons next after =>
        have hnext := Doc.forcedBroken_broken (hitems.2 next List.mem_cons_self)
        simp [fillMeasured, hitems.1, hnext]
  cases h with
  | group i d =>
    have hd : d.forcedBroken .flat = true := hc
    simp [hd, hrest]
  | @candidate i before after d fallback =>
    have hd := Doc.forcedBroken_candidates (m := .broken) hc d (by simp [Doc.candidates])
    simpa [hrest] using hd
  | fill i item after => exact hmeasured false hc
  | fillRest i m separator item after => exact hmeasured separator hc

/-! ### The layout -/

/-- **Forced breaks are carried outwards exactly, and forced lines are met broken.** A normal
form is marked if and only if the document must break. In consequence, whatever command the
layout of a document comes to on whatever page, it is not a forced line in flat surroundings,
and neither is any command that is looked at by a measurement that the layout makes there. -/
theorem forced_lines_never_flat (page : Page) (d : Doc) :
    ((∃ e, d.normalize = .alwaysBreak e) ↔ d.mustBreak = true) ∧
    ∀ {emitted column c rest}, Reaches page d emitted column (c :: rest) →
      ¬ c.IsFlatForced ∧
      ∀ {b remaining cs left c' rest'}, Asks page column rest c b remaining cs →
        Looks b remaining cs left (c' :: rest') → ¬ c'.IsFlatForced := by
  refine ⟨?_, fun hreach => ?_⟩
  · rw [Doc.normalize_eq_normal, ← Doc.isBreaking_normal]
    cases d.normal <;> simp [Doc.isBreaking]
  · have hstack := hreach.forcedBroken
    simp only [List.all_cons, Bool.and_eq_true] at hstack
    refine ⟨Command.not_isFlatForced hstack.1, fun hasks hlooks => ?_⟩
    have hlook := hlooks.forcedBroken (hasks.forcedBroken hstack.1 hstack.2)
    simp only [List.all_cons, Bool.and_eq_true] at hlook
    exact Command.not_isFlatForced hlook.1

/-- A fill that must break because of a hard line between its items: the line is measured as a
separator, behind its mark and so broken. -/
theorem forced_lines_never_flat_separator :
    let page : Page := ⟨5, 2⟩
    let d : Doc := .fill [.lit "a", .line .hard, .lit "b"]
    let separator : Command := ⟨0, .broken, .fillRest true (.alwaysBreak (.line .hard)) [.lit "b"]⟩
    let measured : List Command :=
      [.print 0 .flat (.alwaysBreak (.line .hard)), .print 0 .broken (.lit "b")]
    let line : Command := .print 0 .broken (.line .hard)
    (Reaches page d [.text "a"] 1 [separator] ∧ Asks page 1 [] separator false 4 measured ∧
      Looks false 4 measured 4 [line, .print 0 .broken (.lit "b")]) ∧
    (((∃ e, d.normalize = .alwaysBreak e) ↔ d.mustBreak = true) ∧
      ¬ separator.IsFlatForced ∧ ¬ line.IsFlatForced) := by
  intro page d separator measured line
  have hstart : Reaches page d [] 0 [.print 0 .broken d.normal] := by
    rw [← Doc.normalize_eq_normal]
    exact .start
  have hfits : fits true 5 [.print 0 .flat (.lit "a")] = .ok true :=
    toOption_eq_some_iff.mp (by decide +kernel)
  have hfill : step page 0 (.print 0 .broken (.fill [.lit "a", .alwaysBreak (.line .hard),
      .lit "b"])) [] = .ok ⟨[], 0, [.print 0 .flat (.lit "a"), separator]⟩ := by
    -- the first item is measured by itself
    show (fits true 5 [.print 0 .flat (.lit "a")] >>= fun flat =>
      pure [Command.print 0 (if flat then .flat else .broken) (.lit "a"), separator]) >>= _ = _
    rw [hfits]
    rfl
  have hreach : Reaches page d [.text "a"] 1 [separator] :=
    ((hstart.next rfl).next hfill).next rfl
  have hasks : Asks page 1 [] separator false 4 measured :=
    .fillRest 0 .broken true (.alwaysBreak (.line .hard)) [.lit "b"]
  have hmark : measure false 4 (.print 0 .flat (.alwaysBreak (.line .hard))) =
      .ok (.further 4 [line]) := rfl
  have hlooks : Looks false 4 measured 4 [line, .print 0 .broken (.lit "b")] :=
    Looks.start.next (by decide) hmark
  obtain ⟨hbreak, hrun⟩ := forced_lines_never_flat page d
  exact ⟨⟨hreach, hasks, hlooks⟩, hbreak, (hrun hreach).1, (hrun hreach).2 hasks hlooks⟩

end Typeset
