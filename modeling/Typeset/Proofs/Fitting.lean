import Typeset.Layout.Fits
import Typeset.Outcome
import Typeset.Proofs.Subdocuments

/-!
# Measuring one command at a time

Measuring looks at one command, and then either knows the answer or goes on with other
columns and other commands in the place of that one. Facts about measuring follow from this
single step by the induction of `fits_induction`.

## Main definitions

* `Measured`, `measure` : what looking at one command yields.
* `withoutEndMarks` : a stack without the commands that end marks.

## Main results

* `fits_cons` : measuring looks at its first command and goes on.
* `fits_induction` : induction along a measurement.
* `fits_append_congr` : what is measured alike is so below other commands.
* `fits_isOk` : measuring commands of known sorts always gives an answer.
* `fits_withoutEndMarks` : the ends of marks do not count.
-/

namespace Typeset

open Text

/-! ### One command -/

/-- What looking at a command yields. -/
inductive Measured where
  /-- The answer. -/
  | answer (v : Bool)
  /-- The columns that remain, and the commands in the place of the one looked at. -/
  | further (remaining : Int) (commands : List Command)

/-- A text without line feeds is its own first line. -/
theorem firstLine_of_not_breaks {cs : List Char} (h : ¬ breaks cs = true) : firstLine cs = cs := by
  induction cs with
  | nil => rfl
  | cons c cs ih =>
    simp only [breaks, List.contains_cons, Bool.or_eq_true, beq_iff_eq, not_or] at h
    rw [firstLine, List.takeWhile_cons_of_pos (by simpa using Ne.symm h.1)]
    exact congrArg (c :: ·) (ih h.2)

/-- Measuring a text. -/
def measureText (remaining : Int) (s : String) : Measured :=
  let left := remaining - width (firstLine s.toList)
  if breaks s.toList then .answer (0 ≤ left) else .further left []

/-- Measuring a line. -/
def measureLine (remaining : Int) : Mode → LineKind → Measured
  | .broken, _ => .answer true
  | .flat, .soft => .further (remaining - 1) []
  | .flat, .empty => .further remaining []
  | .flat, .hard | .flat, .literal => .answer false

/-- Looking at one command. -/
def measure (mustBeFlat : Bool) (remaining : Int) (c : Command) : Except LayoutError Measured :=
  let level := c.level
  match c.content with
  | .endMark _ => .ok (.further remaining [])
  | .fillRest separator item rest =>
    .ok (.further remaining (.print level c.mode item ::
      fillRestCommands level c.mode (!separator) rest))
  | .doc d =>
    match d with
    | .nil => .ok (.further remaining [])
    | .lit s | .text s => .ok (measureText remaining s)
    | .line kind => .ok (measureLine remaining c.mode kind)
    | .concat ds | .fill ds => .ok (.further remaining (Command.printAll level c.mode ds))
    | .indent d => .ok (.further remaining [.print (level + 1) c.mode d])
    | .annotated d _ => .ok (.further remaining [.print level c.mode d])
    | .alwaysBreak d =>
      .ok (if mustBeFlat then .answer false else .further remaining [.print level .broken d])
    | .group d forced =>
      .ok (if mustBeFlat && forced then .answer false
        else .further remaining [.print level (if forced then .broken else c.mode) d])
    | .conditional front fallback =>
      .ok (.further remaining [.print level c.mode
        (match c.mode with
          | .broken => fallback
          | .flat => Doc.flatCandidate front fallback)])
    | .unknown sort => .error ⟨sort⟩

/-- Going on after one command, before the commands `cs`. -/
def Measured.resume (mustBeFlat : Bool) (cs : List Command) :
    Measured → Except LayoutError Bool
  | answer v => .ok v
  | further remaining commands => fits mustBeFlat remaining (commands ++ cs)

variable {b : Bool} {remaining : Int} {c : Command} {cs : List Command}

/-- Nothing fits where no column remains. -/
theorem fits_of_neg (h : remaining < 0) (cs : List Command) : fits b remaining cs = .ok false := by
  cases cs with
  | nil => simp [fits, h]
  | cons c cs =>
    rw [fits.eq_def]
    exact if_pos h

theorem nonneg_of_fits (h : fits b remaining cs = .ok true) : 0 ≤ remaining := by
  rcases Int.lt_or_le remaining 0 with hneg | hpos
  · rw [fits_of_neg hneg] at h
    cases h
  · exact hpos

/-- Measuring looks at the first command and goes on. -/
theorem fits_cons (h : 0 ≤ remaining) (c : Command) (cs : List Command) :
    fits b remaining (c :: cs) = measure b remaining c >>= Measured.resume b cs := by
  have hneg : ¬ remaining < 0 := by omega
  obtain ⟨i, m, content⟩ := c
  cases content with
  | endMark a => rw [fits, if_neg hneg]; rfl
  | fillRest separator item rest => rw [fits, if_neg hneg]; rfl
  | doc d =>
    cases d with
    | line kind => cases m <;> cases kind <;> (rw [fits, if_neg hneg]; rfl)
    | conditional front fallback => cases m <;> (rw [fits, if_neg hneg]; rfl)
    | lit s | text s =>
      rw [fits, if_neg hneg]
      show _ = (measureText remaining s).resume b cs
      rw [measureText]
      split <;> rfl
    | alwaysBreak d =>
      rw [fits, if_neg hneg]
      cases b <;> rfl
    | group d forced =>
      rw [fits, if_neg hneg]
      cases b <;> cases forced <;> rfl
    | _ => rw [fits, if_neg hneg]; rfl

/-- The commands in the place of one that was looked at weigh less than it. -/
theorem stackWeight_measure_lt {left : Int} {commands : List Command}
    (h : measure b remaining c = .ok (.further left commands)) :
    stackWeight commands < c.weight := by
  obtain ⟨i, m, content⟩ := c
  cases content with
  | endMark a => cases h; simp
  | fillRest separator item rest =>
    cases h
    have := stackWeight_fillRestCommands_le i m (!separator) rest
    simp only [stackWeight_cons, Command.weight_print, Command.weight_fillRest]
    omega
  | doc d =>
    rw [Command.weight_doc]
    cases d with
    | nil | indent | annotated => cases h; simp [Doc.weight]
    | lit s | text s =>
      simp only [measure, measureText, Except.ok.injEq] at h
      split at h <;> cases h
      simp [Doc.weight]
    | line kind =>
      cases m <;> cases kind <;> cases h <;> simp [Doc.weight]
    | concat ds | fill ds =>
      cases h
      have := stackWeight_printAll_le i m ds
      simp only [Doc.weight]
      omega
    | alwaysBreak d => cases b <;> cases h; simp [Doc.weight]
    | group d forced => cases b <;> cases forced <;> cases h <;> simp [Doc.weight]
    | conditional front fallback =>
      cases m with
      | flat =>
        cases h
        simpa using Doc.weight_lt_of_mem_candidates (Doc.flatCandidate_mem front fallback)
      | broken => cases h; simp [Doc.weight]; omega
    | unknown sort => cases h

/-- Induction along a measurement: what holds where nothing is left to look at or no column
remains, and where it holds of the commands that are looked at next, holds of all. -/
theorem fits_induction {P : Int → List Command → Prop} (nil : ∀ remaining, P remaining [])
    (neg : ∀ remaining cs, remaining < 0 → P remaining cs)
    (cons : ∀ remaining c cs, 0 ≤ remaining →
      (∀ left commands, measure b remaining c = .ok (.further left commands) →
        P left (commands ++ cs)) → P remaining (c :: cs))
    (remaining : Int) (cs : List Command) : P remaining cs := by
  induction hw : stackWeight cs using Nat.strongRecOn generalizing remaining cs with
  | ind w ih =>
    cases cs with
    | nil => exact nil remaining
    | cons c cs =>
      rcases Int.lt_or_le remaining 0 with hneg | hpos
      · exact neg remaining _ hneg
      · refine cons remaining c cs hpos fun left commands h => ih _ ?_ left _ rfl
        have := stackWeight_measure_lt h
        simp only [stackWeight_append, stackWeight_cons] at hw ⊢
        omega

/-- Stacks that are measured alike are measured alike below other commands. -/
theorem fits_append_congr {xs ys : List Command}
    (h : ∀ remaining, fits b remaining xs = fits b remaining ys) (remaining : Int)
    (cs : List Command) : fits b remaining (cs ++ xs) = fits b remaining (cs ++ ys) := by
  induction remaining, cs using fits_induction (b := b) with
  | nil remaining => exact h remaining
  | neg remaining cs hneg => rw [fits_of_neg hneg, fits_of_neg hneg]
  | cons remaining c cs hpos ih =>
    rw [List.cons_append, List.cons_append, fits_cons hpos, fits_cons hpos]
    cases hc : measure b remaining c with
    | error e => rfl
    | ok r =>
      cases r with
      | answer v => rfl
      | further left commands =>
        have := ih left commands hc
        rwa [List.append_assoc, List.append_assoc] at this

/-! ### Documents of known sorts -/

/-- Looking at a command of known sorts gives the answer, or commands of known sorts. -/
theorem exists_measure (b : Bool) (remaining : Int) (hc : c.all Doc.hasKnownSort = true) :
    ∃ r, measure b remaining c = .ok r ∧ ∀ left commands, r = .further left commands →
      commands.all (Command.all Doc.hasKnownSort) = true := by
  obtain ⟨i, m, content⟩ := c
  cases content with
  | endMark a => exact ⟨_, rfl, by rintro _ _ ⟨⟩; rfl⟩
  | fillRest separator item rest =>
    simp only [Command.all_fillRest, Bool.and_eq_true] at hc
    refine ⟨_, rfl, ?_⟩
    rintro _ _ ⟨⟩
    simp [hc.2.1, all_fillRestCommands hc.1 hc.2.2]
  | doc d =>
    cases d with
    | nil => exact ⟨_, rfl, by rintro _ _ ⟨⟩; rfl⟩
    | lit s | text s =>
      refine ⟨_, rfl, fun left commands h => ?_⟩
      rw [measureText] at h
      split at h <;> cases h
      rfl
    | line kind =>
      refine ⟨_, rfl, fun left commands h => ?_⟩
      cases m <;> cases kind <;> cases h <;> rfl
    | unknown sort => simp [Doc.all, Doc.hasKnownSort] at hc
    | conditional front fallback =>
      simp only [Command.all_doc, Doc.all, Bool.and_eq_true] at hc
      refine ⟨_, rfl, ?_⟩
      rintro _ _ ⟨⟩
      cases m with
      | flat => simp [Doc.all_flatCandidate hc.2.1 hc.2.2]
      | broken => simp [hc.2.2]
    | alwaysBreak d =>
      simp only [Command.all_doc, Doc.all, Bool.and_eq_true] at hc
      refine ⟨_, rfl, fun left commands h => ?_⟩
      cases b <;> cases h
      simp [hc.2]
    | group d forced =>
      simp only [Command.all_doc, Doc.all, Bool.and_eq_true] at hc
      refine ⟨_, rfl, fun left commands h => ?_⟩
      cases b <;> cases forced <;> cases h <;> simp [hc.2]
    | concat ds | fill ds | indent d | annotated d a =>
      simp only [Command.all_doc, Doc.all, Bool.and_eq_true] at hc
      refine ⟨_, rfl, ?_⟩
      rintro _ _ ⟨⟩
      simp [hc.2]

/-- Measuring commands of known sorts always gives an answer. -/
theorem fits_isOk (b : Bool) (remaining : Int)
    (h : cs.all (Command.all Doc.hasKnownSort) = true) : ∃ v, fits b remaining cs = .ok v := by
  induction remaining, cs using fits_induction (b := b) with
  | nil remaining => exact ⟨_, by rw [fits]⟩
  | neg remaining cs hneg => exact ⟨_, fits_of_neg hneg cs⟩
  | cons remaining c cs hpos ih =>
    simp only [List.all_cons, Bool.and_eq_true] at h
    obtain ⟨r, hr, hcommands⟩ := exists_measure b remaining h.1
    rw [fits_cons hpos, hr]
    cases r with
    | answer v => exact ⟨v, rfl⟩
    | further left commands =>
      exact ih left commands hr (by simp [hcommands left commands rfl, h.2])

/-! ### The ends of marks -/

/-- Whether a command ends a mark. -/
def Command.isEndMark (c : Command) : Bool :=
  match c.content with
  | .endMark _ => true
  | _ => false

/-- A stack without the commands that end marks. -/
def withoutEndMarks (cs : List Command) : List Command := cs.filter (!·.isEndMark)

theorem withoutEndMarks_append (cs ds : List Command) :
    withoutEndMarks (cs ++ ds) = withoutEndMarks cs ++ withoutEndMarks ds :=
  List.filter_append ..

theorem withoutEndMarks_printAll (i : Nat) (m : Mode) (ds : List Doc) :
    withoutEndMarks (Command.printAll i m ds) = Command.printAll i m ds := by
  induction ds with
  | nil => rfl
  | cons d ds ih => exact congrArg (Command.print i m d :: ·) ih

/-- Looking at a command puts no end of a mark in its place. -/
theorem withoutEndMarks_measure {left : Int} {commands : List Command}
    (h : measure b remaining c = .ok (.further left commands)) :
    withoutEndMarks commands = commands := by
  obtain ⟨i, m, content⟩ := c
  cases content with
  | endMark a => cases h; rfl
  | fillRest separator item rest => cases h; cases rest <;> rfl
  | doc d =>
    cases d with
    | lit s | text s =>
      simp only [measure, measureText, Except.ok.injEq] at h
      split at h <;> cases h
      rfl
    | line kind => cases m <;> cases kind <;> cases h <;> rfl
    | concat ds | fill ds => cases h; exact withoutEndMarks_printAll i m ds
    | alwaysBreak d => cases b <;> cases h; rfl
    | group d forced => cases b <;> cases forced <;> cases h <;> rfl
    | unknown sort => cases h
    | _ => cases h; rfl

/-- The ends of marks do not count. -/
theorem fits_withoutEndMarks (b : Bool) (remaining : Int) (cs : List Command) :
    fits b remaining (withoutEndMarks cs) = fits b remaining cs := by
  induction remaining, cs using fits_induction (b := b) with
  | nil remaining => rfl
  | neg remaining cs hneg => rw [fits_of_neg hneg, fits_of_neg hneg]
  | cons remaining c cs hpos ih =>
    have hresume (r : Measured) (hr : measure b remaining c = .ok r) :
        r.resume b (withoutEndMarks cs) = r.resume b cs := by
      cases r with
      | answer v => rfl
      | further left commands =>
        have := ih left commands hr
        rwa [withoutEndMarks_append, withoutEndMarks_measure hr] at this
    have hmeasure : (measure b remaining c >>= Measured.resume b (withoutEndMarks cs)) =
        measure b remaining c >>= Measured.resume b cs := by
      cases hr : measure b remaining c with
      | error e => rfl
      | ok r => exact hresume r hr
    by_cases hend : c.isEndMark = true
    · -- such a command is passed over
      obtain ⟨i, m, content⟩ := c
      cases content with
      | endMark a =>
        rw [fits_cons hpos]
        exact ih remaining [] rfl
      | _ => cases hend
    · have hcons : withoutEndMarks (c :: cs) = c :: withoutEndMarks cs := by
        simp [withoutEndMarks, hend]
      rw [hcons, fits_cons hpos, fits_cons hpos, hmeasure]

end Typeset
