import Typeset.Proofs.Modelica.CompactLiterals

/-!
# The compact form of a text is stable

A text is its characters other than blanks, and the gaps between them: whether there are blanks in
front of a character, between two of them, or at the end. Each stage of the compact form keeps the
characters and decides every gap anew, by the characters on its two sides and by whether it was
open before. So does the compact form as a whole, and its rule gives the same answer when it is
asked again. Stability does not come from the stages one by one: the space behind a comma is written
after the gaps in front of brackets have been closed, and taken away again by the stage for equals
signs.

## Main definitions

* `Gapped` : a text by its characters and gaps.
* `Gapped.write`, `gapsOf` : the text with one space in each open gap, and the gaps of a text.
* `Gapped.regap` : the gaps decided anew by a rule.
* `compactRule` : the rule of the compact form.

## Main results

* `gapsOf_write` : the gaps of a text that was written are those that were written.
* `compact_eq_write` : the compact form decides the gaps of a text by its rule.
* `compactText_stable` : the compact form is compact, and differs from the text by blanks only.
-/

namespace Typeset.Modelica

open Text

/-! ### Texts with gaps -/

/-- A text by its characters other than blanks, each with the gap in front of it, and the gap at
its end. -/
inductive Gapped where
  /-- The gap at the end. -/
  | ends (isOpen : Bool)
  /-- A gap, a character and what follows. -/
  | char (isOpen : Bool) (c : Char) (rest : Gapped)

/-- An open gap is written as one space. -/
def gap (isOpen : Bool) : List Char := if isOpen then [' '] else []

@[simp]
theorem gap_false : gap false = [] := rfl

/-- The characters and gaps of a text; `blank` says that a blank was just passed. -/
def gapsOf (blank : Bool) : List Char → Gapped
  | [] => .ends blank
  | c :: cs => if isBlank c then gapsOf true cs else .char blank c (gapsOf false cs)

/-- How a gap is decided by the characters in front of it and behind it, of which there is none at
the ends of a text, and by whether it is open. -/
abbrev GapRule := Option Char → Option Char → Bool → Bool

namespace Gapped

/-- The text with one space in each open gap. -/
def write : Gapped → List Char
  | ends g => gap g
  | char g c t => gap g ++ c :: t.write

/-- The gaps decided anew by a rule; `before` is the character in front of the first one. -/
def regap (rule : GapRule) (before : Option Char) : Gapped → Gapped
  | ends g => ends (rule before none g)
  | char g c t => char (rule before (some c) g) c (t.regap rule (some c))

/-- Whether none of the characters is a blank. -/
def IsSolid : Gapped → Prop
  | ends _ => True
  | char _ c t => isBlank c = false ∧ t.IsSolid

variable {t : Gapped}

theorem IsSolid.regap (ht : t.IsSolid) (rule : GapRule) (before : Option Char) :
    (t.regap rule before).IsSolid := by
  induction t generalizing before with
  | ends g => trivial
  | char g c t ih => exact ⟨ht.1, ih ht.2 (some c)⟩

/-- Deciding gaps twice is deciding them by one rule after the other. -/
theorem regap_regap (rule rule' : GapRule) (before : Option Char) (t : Gapped) :
    (t.regap rule' before).regap rule before =
      t.regap (fun a b g => rule a b (rule' a b g)) before := by
  induction t generalizing before with
  | ends g => rfl
  | char g c t ih => simp only [regap, ih]

end Gapped

theorem isSolid_gapsOf (blank : Bool) (cs : List Char) : (gapsOf blank cs).IsSolid := by
  induction cs generalizing blank with
  | nil => trivial
  | cons c cs ih =>
    rw [gapsOf]
    split_ifs with hc
    · exact ih true
    · exact ⟨by simpa using hc, ih false⟩

private theorem isBlank_space : isBlank ' ' = true := by decide

/-- The gaps of a text that was written are those that were written. -/
theorem gapsOf_write {t : Gapped} (ht : t.IsSolid) : gapsOf false t.write = t := by
  induction t with
  | ends g => cases g <;> simp [Gapped.write, gap, gapsOf, isBlank_space]
  | char g c t ih =>
    obtain ⟨hc, ht⟩ := ht
    cases g <;> simp [Gapped.write, gap, gapsOf, isBlank_space, hc, ih ht]

/-! ### Stages -/

/-- The blanks of a text are collapsed to its gaps. -/
theorem write_gapsOf (blank : Bool) (cs : List Char) :
    (gapsOf blank cs).write = gap blank ++ collapseBlanks blank cs := by
  induction cs generalizing blank with
  | nil => simp [gapsOf, Gapped.write, collapseBlanks]
  | cons c cs ih =>
    rw [gapsOf, collapseBlanks]
    split_ifs with hc hblank
    · rw [ih, hblank]
    · rw [ih]
      simp [gap, hblank]
    · rw [Gapped.write, ih]
      rfl

section Stages

variable {t : Gapped} (ht : t.IsSolid) (mark : Char)

private theorem closeAfter_gap (after g : Bool) :
    closeAfter mark after (gap g) = gap (g && !after) := by
  cases after <;> cases g <;> simp [gap, closeAfter, isBlank_space]

private theorem reverse_gap (g : Bool) : (gap g).reverse = gap g := by cases g <;> rfl

private theorem trimFront_gap (g : Bool) : trimFront (gap g) = [] := by
  cases g <;> simp [gap, trimFront, isBlank_space]

private theorem trimFront_append {c : Char} (hc : isBlank c = false) (xs ys : List Char) :
    trimFront (xs ++ c :: ys) = trimFront xs ++ c :: ys := by
  induction xs with
  | nil => simp [trimFront, hc]
  | cons d xs ih =>
    rw [trimFront] at ih ⊢
    by_cases hd : isBlank d = true <;> simp [trimFront, hd, ih]

include ht

private theorem closeAfter_write_from (before : Option Char) :
    closeAfter mark (before = some mark) t.write =
      (t.regap (fun a _ g => g && a ≠ some mark) before).write := by
  induction t generalizing before with
  | ends g => simp [Gapped.write, Gapped.regap, closeAfter_gap]
  | char g c t ih =>
    have htail := ih ht.2 (some c)
    simp only [Option.some.injEq] at htail
    rw [Gapped.write, closeAfter_append ht.1, closeAfter_gap, htail]
    simp [Gapped.write, Gapped.regap]

/-- Closing up behind a mark closes the gaps behind it. -/
theorem closeAfter_write : closeAfter mark false t.write =
    (t.regap (fun a _ g => g && a ≠ some mark) none).write :=
  closeAfter_write_from ht mark none

private theorem closeBefore_write_from (before : Option Char) :
    closeBefore mark t.write = (t.regap (fun _ b g => g && b ≠ some mark) before).write := by
  induction t generalizing before with
  | ends g => cases g <;> simp [Gapped.write, Gapped.regap, closeBefore, gap, closeAfter]
  | char g c t ih =>
    have htail := ih ht.2 (some c)
    rw [closeBefore] at htail
    rw [Gapped.write, closeBefore, List.reverse_append, List.reverse_cons, List.append_assoc,
      List.singleton_append, reverse_gap, closeAfter_append ht.1, closeAfter_gap,
      List.reverse_append, List.reverse_cons, htail]
    cases g <;> by_cases hc : c = mark <;> simp [Gapped.write, Gapped.regap, gap, hc]

/-- Closing up in front of a mark closes the gaps in front of it. -/
theorem closeBefore_write : closeBefore mark t.write =
    (t.regap (fun _ b g => g && b ≠ some mark) none).write :=
  closeBefore_write_from ht mark none

/-- The space behind a mark in front of the text is written with that mark. -/
private theorem spaceAfter_write_from {mark : Char} (hmark : isBlank mark = false)
    (before : Option Char) :
    gap (before = some mark) ++
        (closeAfter mark (before = some mark) t.write).flatMap
          (fun c => if c = mark then [c, ' '] else [c]) =
      (t.regap (fun a _ g => g || a = some mark) before).write := by
  have hspace : ' ' ≠ mark := fun h => by simp [← h, isBlank_space] at hmark
  have hgap (g : Bool) :
      (gap g).flatMap (fun c => if c = mark then [c, ' '] else [c]) = gap g := by
    cases g <;> simp [gap, hspace]
  induction t generalizing before with
  | ends g =>
    rw [Gapped.write, closeAfter_gap, hgap]
    cases g <;> by_cases hb : before = some mark <;> simp [Gapped.write, Gapped.regap, gap, hb]
  | char g c t ih =>
    have htail := ih ht.2 (some c)
    simp only [Option.some.injEq] at htail
    rw [Gapped.write, closeAfter_append ht.1, closeAfter_gap, List.flatMap_append, hgap,
      List.flatMap_cons, Gapped.regap, Gapped.write, ← htail]
    cases g <;> by_cases hb : before = some mark <;> by_cases hc : c = mark <;>
      simp [gap, hb, hc]

/-- Spacing behind a mark opens the gaps behind it. -/
theorem spaceAfter_write {mark : Char} (hmark : isBlank mark = false) :
    spaceAfter mark t.write = (t.regap (fun a _ g => g || a = some mark) none).write :=
  spaceAfter_write_from ht hmark none

/-- Trimming the end of a text closes the gap there. -/
private theorem trimEnd_write (c : Char) : (trimFront t.write.reverse).reverse =
    (t.regap (fun a b g => g && (a.isSome && b.isSome)) (some c)).write := by
  induction t generalizing c with
  | ends g => simp [Gapped.write, Gapped.regap, reverse_gap, trimFront_gap]
  | char g d t ih =>
    rw [Gapped.write, List.reverse_append, List.reverse_cons, List.append_assoc,
      List.singleton_append, trimFront_append ht.1, List.reverse_append, List.reverse_cons,
      List.reverse_reverse, ih ht.2 d]
    simp [Gapped.write, Gapped.regap]

/-- Trimming closes the gaps at the ends. -/
theorem trim_write : trim t.write =
    (t.regap (fun a b g => g && (a.isSome && b.isSome)) none).write := by
  cases t with
  | ends g =>
    rw [trim, Gapped.write, trimFront_gap]
    simp [Gapped.write, Gapped.regap, trimFront]
  | char g c t =>
    have hend := trimEnd_write (t := .char false c t) ht c
    rw [trim, Gapped.write, trimFront_append ht.1, trimFront_gap, List.nil_append]
    simpa [Gapped.write, Gapped.regap] using hend

end Stages

/-! ### The compact form -/

/-- How the compact form decides a gap. It is closed at the ends of a text and beside an equals
sign; else it is open behind a comma; else it is closed behind an opening bracket and in front of a
closing one, and all other gaps stay as they are. -/
def compactRule : GapRule
  | some a, some b, g =>
    if a = '=' ∨ b = '=' then false
    else if a = ',' then true
    else if a = '(' ∨ a = '{' ∨ b = ')' ∨ b = '}' then false
    else g
  | _, _, _ => false

/-- A gap that has been decided is decided in the same way again. -/
theorem compactRule_compactRule (a b : Option Char) (g : Bool) :
    compactRule a b (compactRule a b g) = compactRule a b g := by
  cases a with
  | none => rfl
  | some a =>
    cases b with
    | none => rfl
    | some b =>
      simp only [compactRule]
      split_ifs <;> rfl

/-- **The compact form decides the gaps of a text by its rule.** -/
theorem compact_eq_write (cs : List Char) :
    compact cs = ((gapsOf false cs).regap compactRule none).write := by
  have hsolid := isSolid_gapsOf false cs
  have hsolid' (rule : GapRule) := hsolid.regap rule none
  rw [compact_eq_trim, squeeze, ← List.nil_append (collapseBlanks false cs), ← gap_false,
    ← write_gapsOf, closeAfter_write hsolid, closeBefore_write (hsolid' _), Gapped.regap_regap,
    closeAfter_write (hsolid' _), Gapped.regap_regap, closeBefore_write (hsolid' _),
    Gapped.regap_regap, spaceAfter_write (hsolid' _) (by decide), Gapped.regap_regap,
    closeBefore_write (hsolid' _), Gapped.regap_regap, closeAfter_write (hsolid' _),
    Gapped.regap_regap, trim_write (hsolid' _), Gapped.regap_regap]
  refine congrArg (fun rule => (Gapped.regap rule none _).write) ?_
  funext a b g
  cases a with
  | none => simp [compactRule]
  | some a =>
    cases b with
    | none => simp [compactRule]
    | some b => grind [compactRule]

theorem compact_compact (cs : List Char) : compact (compact cs) = compact cs := by
  have hsolid := (isSolid_gapsOf false cs).regap compactRule none
  rw [compact_eq_write cs, compact_eq_write, gapsOf_write hsolid, Gapped.regap_regap]
  simp only [compactRule_compactRule]

/-- **The compact form of a text is stable.** A compact text is its own compact form, and without
its blanks it is the text without its blanks. -/
theorem compactText_stable (s : String) :
    compactText (compactText s) = compactText s ∧
      solid (compactText s).toList = solid s.toList := by
  rw [compactText, compactText, String.toList_ofList, compact_compact]
  exact ⟨rfl, solid_compact s.toList⟩

end Typeset.Modelica
