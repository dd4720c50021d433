import Typeset.Proofs.Fitting

/-!
# The first line of a stack

What measuring decides, said without a measurement: the commands of a stack, printed one after
the other, have a first line, which takes some columns and then ends, or runs on to the end of
the stack, or meets something that cannot be printed where it stands. The first line of a
document is put together from those of its parts, and the first line of a stack from those of
its commands.

Commands fit in a number of columns exactly if nothing blocks their first line and it takes at
most that many columns. Measuring may stop earlier, as soon as the columns are used up; no
harm is done by this, since what follows can only take more columns.

## Main definitions

* `FirstLine`, `FirstLine.followedBy` : a first line, and one that goes on in another.
* `FirstLine.FitsIn` : nothing blocks the line, and it is short enough.
* `Doc.firstLine`, `Command.firstLine`, `stackFirstLine` : the first lines of what is printed.

## Main results

* `stackFirstLine_append` : commands count only as far as the line in front of them runs.
* `firstLine_of_answer`, `firstLine_of_further` : what looking at one command says about its
  first line.
* `fits_eq` : commands of known sorts fit if their first line does.
* `fits_decides_firstLine` : the same for a stack below other commands, with what follows from
  it.
-/

namespace Typeset

open Text

/-! ### Lines -/

/-- How far a line goes. -/
inductive LineEnd where
  /-- Up to the end of what is printed: what is printed next stands on the same line. -/
  | running
  /-- Up to a line break. -/
  | ended
  /-- Up to something that cannot be printed where it stands. -/
  | blocked
  deriving DecidableEq

/-- The first line of what is printed. -/
structure FirstLine where
  /-- The columns that it takes. -/
  width : Nat
  /-- How far it goes. -/
  stop : LineEnd

namespace FirstLine

/-- A line on which nothing is printed. -/
def nothing : FirstLine := ⟨0, .running⟩

/-- A line that is blocked at once. -/
def blocked : FirstLine := ⟨0, .blocked⟩

/-- The first line of something that is printed behind the line `l` and has the first line
`l'` by itself. -/
def followedBy (l l' : FirstLine) : FirstLine :=
  match l.stop with
  | .running => ⟨l.width + l'.width, l'.stop⟩
  | .ended | .blocked => l

/-- The first line of a text. -/
def ofText (s : String) : FirstLine :=
  ⟨Text.width (Text.firstLine s.toList), if breaks s.toList then .ended else .running⟩

/-- The first line of a line. -/
def ofLine : Mode → LineKind → FirstLine
  | .broken, _ => ⟨0, .ended⟩
  | .flat, .soft => ⟨1, .running⟩
  | .flat, .empty => nothing
  | .flat, .hard | .flat, .literal => blocked

/-- Whether nothing blocks the line and it takes at most some columns. -/
def FitsIn (l : FirstLine) (columns : Int) : Prop := l.stop ≠ .blocked ∧ l.width ≤ columns

instance (l : FirstLine) (columns : Int) : Decidable (l.FitsIn columns) :=
  inferInstanceAs (Decidable (_ ∧ _))

variable {l l' : FirstLine} {columns : Int}

@[simp]
theorem nothing_followedBy (l : FirstLine) : nothing.followedBy l = l := by
  simp [followedBy, nothing]

@[simp]
theorem followedBy_nothing (l : FirstLine) : l.followedBy nothing = l := by
  obtain ⟨n, stop⟩ := l
  cases stop <;> rfl

theorem followedBy_assoc (l l' l'' : FirstLine) :
    (l.followedBy l').followedBy l'' = l.followedBy (l'.followedBy l'') := by
  obtain ⟨n, stop⟩ := l
  obtain ⟨n', stop'⟩ := l'
  cases stop <;> cases stop' <;> simp [followedBy, Nat.add_assoc]

/-- A line that goes no further is not changed by what follows. -/
theorem followedBy_of_ne_running (h : l.stop ≠ .running) (l' : FirstLine) :
    l.followedBy l' = l := by
  obtain ⟨n, stop⟩ := l
  cases stop with
  | running => exact absurd rfl h
  | ended | blocked => rfl

theorem followedBy_of_running (h : l.stop = .running) (l' : FirstLine) :
    l.followedBy l' = ⟨l.width + l'.width, l'.stop⟩ := by
  rw [followedBy, h]

/-- A line that runs on fits if what follows fits in the columns that are left. -/
theorem fitsIn_followedBy_iff (h : l.stop = .running) :
    (l.followedBy l').FitsIn columns ↔ l'.FitsIn (columns - l.width) := by
  rw [followedBy_of_running h]
  exact and_congr Iff.rfl (by dsimp only; omega)

theorem not_fitsIn_of_neg (h : columns < 0) : ¬ l.FitsIn columns := by
  rintro ⟨-, hle⟩
  omega

theorem FitsIn.mono {columns' : Int} (h : l.FitsIn columns) (hle : columns ≤ columns') :
    l.FitsIn columns' := ⟨h.1, Int.le_trans h.2 hle⟩

end FirstLine

/-! ### Documents and commands -/

namespace Doc

mutual

/-- The first line of a document in a mode. Where everything must be flat, what is forced to
break blocks the line. -/
def firstLine (mustBeFlat : Bool) : Mode → Doc → FirstLine
  | _, nil | _, unknown _ => .nothing
  | _, lit s | _, text s => .ofText s
  | m, line k => .ofLine m k
  | m, concat ds | m, fill ds => firstLineAll mustBeFlat m ds
  | m, indent d | m, annotated d _ => firstLine mustBeFlat m d
  | _, alwaysBreak d => if mustBeFlat then .blocked else firstLine mustBeFlat .broken d
  | m, group d forced =>
    if mustBeFlat && forced then .blocked
    else firstLine mustBeFlat (if forced then .broken else m) d
  | .broken, conditional _ fallback => firstLine mustBeFlat .broken fallback
  | .flat, conditional front fallback => firstLine mustBeFlat .flat (flatCandidate front fallback)
termination_by _ d => d.weight
decreasing_by
  all_goals simp only [weight]
  iterate 6 omega
  · omega
  · have := weight_lt_of_mem_candidates (flatCandidate_mem front fallback)
    simpa only [weight] using this

/-- The first line of documents one after the other. -/
def firstLineAll (mustBeFlat : Bool) : Mode → List Doc → FirstLine
  | _, [] => .nothing
  | m, d :: ds => (firstLine mustBeFlat m d).followedBy (firstLineAll mustBeFlat m ds)
termination_by _ ds => listWeight ds
decreasing_by
  all_goals simp only [listWeight]; omega

end

end Doc

/-- The first line of a command. -/
def Command.firstLine (mustBeFlat : Bool) (c : Command) : FirstLine :=
  match c.content with
  | .doc d => d.firstLine mustBeFlat c.mode
  | .endMark _ => .nothing
  | .fillRest _ item rest => Doc.firstLineAll mustBeFlat c.mode (item :: rest)

/-- The first line of the commands of a stack. -/
def stackFirstLine (mustBeFlat : Bool) : List Command → FirstLine
  | [] => .nothing
  | c :: cs => (c.firstLine mustBeFlat).followedBy (stackFirstLine mustBeFlat cs)

variable {b : Bool} {remaining : Int} {c : Command} {cs : List Command}

/-- Commands count only as far as the first line of those in front of them runs. -/
theorem stackFirstLine_append (b : Bool) (cs ds : List Command) :
    stackFirstLine b (cs ++ ds) = (stackFirstLine b cs).followedBy (stackFirstLine b ds) := by
  induction cs with
  | nil => simp [stackFirstLine]
  | cons c cs ih =>
    rw [List.cons_append, stackFirstLine, ih, stackFirstLine, FirstLine.followedBy_assoc]

@[simp]
theorem stackFirstLine_print (b : Bool) (i : Nat) (m : Mode) (d : Doc) :
    stackFirstLine b [.print i m d] = d.firstLine b m :=
  FirstLine.followedBy_nothing _

@[simp]
theorem stackFirstLine_printAll (b : Bool) (i : Nat) (m : Mode) (ds : List Doc) :
    stackFirstLine b (Command.printAll i m ds) = Doc.firstLineAll b m ds := by
  induction ds with
  | nil => rw [Doc.firstLineAll]; rfl
  | cons d ds ih =>
    rw [Doc.firstLineAll, ← ih]
    rfl

/-- The rest of a fill has the first line of its items. -/
theorem stackFirstLine_fillRest (b : Bool) (i : Nat) (m : Mode) (separator : Bool) (item : Doc)
    (rest : List Doc) :
    stackFirstLine b (.print i m item :: fillRestCommands i m separator rest) =
      Doc.firstLineAll b m (item :: rest) := by
  rw [Doc.firstLineAll]
  cases rest with
  | nil => rw [Doc.firstLineAll]; rfl
  | cons next rest => exact congrArg (FirstLine.followedBy _) (FirstLine.followedBy_nothing _)

/-! ### Measuring -/

/-- Where looking at a command gives the answer, its first line goes no further, and the answer
is whether that line fits. -/
theorem firstLine_of_answer {v : Bool} (hpos : 0 ≤ remaining)
    (h : measure b remaining c = .ok (.answer v)) :
    (c.firstLine b).stop ≠ .running ∧ v = decide ((c.firstLine b).FitsIn remaining) := by
  obtain ⟨i, m, content⟩ := c
  cases content with
  | endMark a => cases h
  | fillRest separator item rest => cases h
  | doc d =>
    show (d.firstLine b m).stop ≠ .running ∧ v = decide ((d.firstLine b m).FitsIn remaining)
    cases d with
    | lit s | text s =>
      simp only [measure, measureText, Except.ok.injEq] at h
      split at h <;> cases h
      next hbreaks => simp [Doc.firstLine, FirstLine.ofText, FirstLine.FitsIn, hbreaks]
    | line k =>
      cases m <;> cases k <;> cases h <;>
        simp [Doc.firstLine, FirstLine.ofLine, FirstLine.blocked, FirstLine.FitsIn, hpos]
    | alwaysBreak d =>
      cases b <;> cases h
      simp [Doc.firstLine, FirstLine.blocked, FirstLine.FitsIn]
    | group d forced =>
      cases b <;> cases forced <;> cases h
      simp [Doc.firstLine, FirstLine.blocked, FirstLine.FitsIn]
    | _ => cases h

/-- Where measuring goes on with other commands in the place of one, the columns that it has
used up together with the first line of those commands are the first line of that one. -/
theorem firstLine_of_further {left : Int} {commands : List Command}
    (h : measure b remaining c = .ok (.further left commands)) :
    ∃ used : Nat, left = remaining - used ∧
      c.firstLine b = FirstLine.followedBy ⟨used, .running⟩ (stackFirstLine b commands) := by
  obtain ⟨i, m, content⟩ := c
  cases content with
  | endMark a => cases h; exact ⟨0, by simp, rfl⟩
  | fillRest separator item rest =>
    cases h
    refine ⟨0, by simp, ?_⟩
    rw [stackFirstLine_fillRest]
    exact (FirstLine.nothing_followedBy _).symm
  | doc d =>
    -- a document that takes no column itself has the first line of what takes its place
    have hsilent {commands : List Command} (heq : d.firstLine b m = stackFirstLine b commands) :
        ∃ used : Nat, remaining = remaining - used ∧
          d.firstLine b m = FirstLine.followedBy ⟨used, .running⟩ (stackFirstLine b commands) :=
      ⟨0, by simp, by rw [heq]; exact (FirstLine.nothing_followedBy _).symm⟩
    cases d with
    | nil => cases h; exact hsilent (by rw [Doc.firstLine]; rfl)
    | lit s | text s =>
      simp only [measure, measureText, Except.ok.injEq] at h
      split at h <;> cases h
      next hbreaks =>
        refine ⟨_, rfl, ?_⟩
        show Doc.firstLine b m _ = _
        simp [Doc.firstLine, FirstLine.ofText, hbreaks, stackFirstLine]
    | line k =>
      cases m <;> cases k <;> cases h
      · exact ⟨1, rfl, by show Doc.firstLine b _ _ = _; rw [Doc.firstLine]; rfl⟩
      · exact hsilent (by rw [Doc.firstLine]; rfl)
    | concat ds | fill ds => cases h; exact hsilent (by rw [Doc.firstLine, stackFirstLine_printAll])
    | indent d | annotated d a =>
      cases h
      exact hsilent (by rw [Doc.firstLine, stackFirstLine_print])
    | alwaysBreak d =>
      cases b <;> cases h
      exact hsilent (by rw [Doc.firstLine, stackFirstLine_print]; rfl)
    | group d forced =>
      cases b <;> cases forced <;> cases h <;>
        exact hsilent (by rw [Doc.firstLine, stackFirstLine_print]; rfl)
    | conditional front fallback =>
      cases m <;> cases h <;> exact hsilent (by rw [Doc.firstLine, stackFirstLine_print])
    | unknown sort => cases h

/-- Commands of known sorts fit exactly if their first line does. -/
theorem fits_eq (b : Bool) (remaining : Int)
    (h : cs.all (Command.all Doc.hasKnownSort) = true) :
    fits b remaining cs = .ok (decide ((stackFirstLine b cs).FitsIn remaining)) := by
  induction remaining, cs using fits_induction (b := b) with
  | nil remaining => simp [fits, stackFirstLine, FirstLine.FitsIn, FirstLine.nothing]
  | neg remaining cs hneg =>
    rw [fits_of_neg hneg, decide_eq_false (FirstLine.not_fitsIn_of_neg hneg)]
  | cons remaining c cs hpos ih =>
    simp only [List.all_cons, Bool.and_eq_true] at h
    obtain ⟨r, hr, hcommands⟩ := exists_measure b remaining h.1
    rw [fits_cons hpos, hr, stackFirstLine]
    cases r with
    | answer v =>
      obtain ⟨hstop, hv⟩ := firstLine_of_answer hpos hr
      rw [FirstLine.followedBy_of_ne_running hstop, ← hv]
      rfl
    | further left commands =>
      obtain ⟨used, rfl, hline⟩ := firstLine_of_further hr
      have hrest := ih _ commands hr (by simp [hcommands _ commands rfl, h.2])
      rw [hline, FirstLine.followedBy_assoc, ← stackFirstLine_append]
      simp only [FirstLine.fitsIn_followedBy_iff]
      exact hrest

/-- **Measuring decides the first line.** Commands of known sorts are measured in front of a
stack. The measurement has an answer for every number of columns, whether or not everything
must be flat: they fit exactly if nothing blocks the first line of both together and that line
takes at most so many columns. So what fits in some columns fits in more of them; and the stack
counts only where the first line of the commands runs on into it, with the columns that they
leave. -/
theorem fits_decides_firstLine (mustBeFlat : Bool) {next rest : List Command}
    (hknown : (next ++ rest).all (Command.all Doc.hasKnownSort) = true) :
    (∀ columns, fits mustBeFlat columns (next ++ rest) =
      .ok (decide ((stackFirstLine mustBeFlat (next ++ rest)).FitsIn columns))) ∧
    (∀ columns columns', columns ≤ columns' →
      fits mustBeFlat columns (next ++ rest) = .ok true →
      fits mustBeFlat columns' (next ++ rest) = .ok true) ∧
    ∀ columns, fits mustBeFlat columns (next ++ rest) =
      if (stackFirstLine mustBeFlat next).stop = .running then
        fits mustBeFlat (columns - (stackFirstLine mustBeFlat next).width) rest
      else fits mustBeFlat columns next := by
  have hboth := hknown
  simp only [List.all_append, Bool.and_eq_true] at hboth
  refine ⟨fun columns => fits_eq mustBeFlat columns hknown, fun columns columns' hle h => ?_,
    fun columns => ?_⟩
  · rw [fits_eq mustBeFlat _ hknown, Except.ok.injEq, decide_eq_true_iff] at h ⊢
    exact h.mono hle
  · rw [fits_eq mustBeFlat _ hknown, stackFirstLine_append]
    split
    · next hstop =>
      simp only [FirstLine.fitsIn_followedBy_iff hstop]
      rw [fits_eq mustBeFlat _ hboth.2]
    · next hstop => rw [FirstLine.followedBy_of_ne_running hstop, fits_eq mustBeFlat _ hboth.1]

/-- A part with a mark, measured in front of the end of its mark and the rest of a fill. -/
theorem fits_decides_firstLine_fill :
    let next : List Command := [.print 0 .flat (.concat [.lit "ab", .line .soft,
      .conditional [.alwaysBreak (.lit "wide")] (.group (.text "c") false)])]
    let rest : List Command := [⟨0, .broken, .endMark (.label "n")⟩,
      ⟨1, .broken, .fillRest false (.lit ",\td") [.line .soft, .lit "e"]⟩]
    (next ++ rest).all (Command.all Doc.hasKnownSort) = true ∧
      fits true 6 (next ++ rest) = .ok true ∧ fits true 5 (next ++ rest) = .ok false := by
  intro next rest
  have hknown : (next ++ rest).all (Command.all Doc.hasKnownSort) = true := rfl
  have hline : stackFirstLine true (next ++ rest) = ⟨6, .ended⟩ := by
    simp [next, rest, stackFirstLine, Command.firstLine, Command.print, Doc.firstLine,
      Doc.firstLineAll, Doc.flatCandidate, Doc.candidates, Doc.isBreaking, FirstLine.ofText,
      FirstLine.ofLine, FirstLine.followedBy, FirstLine.nothing, firstLine, width, breaks]
  have hfits := (fits_decides_firstLine true hknown).1
  refine ⟨hknown, ?_, ?_⟩
  · rw [hfits, hline]; rfl
  · rw [hfits, hline]; rfl

end Typeset
