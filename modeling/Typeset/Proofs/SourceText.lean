import Mathlib.Data.List.TakeWhile
import Typeset.Text.Search
import Typeset.Tree.Offset

/-!
# Texts in a source

A node is written in a source when it has the text that stands there, and its span, if it has
one, is where the text stands. From the spans of two nodes inside another one the offsets of
their ends in its text are found again, and so is what stands between them. The same is found
by searching for the texts, when one of them starts and the other one ends the text around
them.

## Main definitions

* `positionAfter` : the position at the end of a source text.
* `Node.IsWritten` : a node has a text that stands after some part of the source.

## Main results

* `offsetIn_positionAfter` : the offset of a position is the number of characters before it.
* `cut_append_append` : cutting out the middle of a list.
* `trim_append_append` : the blanks around a text without blanks are trimmed.
* `firstIndex?_append`, `lastIndex?_append` : the first occurrence of a front, and the last
  occurrence of an end.
-/

namespace Typeset

open Text

/-- The position at the end of a source text. -/
def positionAfter (source : List Char) : Position :=
  ⟨source.count '\n', (lastLine source).length⟩

/-- The node has the text `cs`, which stands in a source after the part `before`. Its span is
not known, or it is that of the text. -/
structure Node.IsWritten (n : Node) (before cs : List Char) : Prop where
  /-- The text is known. -/
  text : n.text = some (String.ofList cs)
  /-- The span is right where it is known. -/
  span : n.span = none ∨ n.span = some ⟨positionAfter before, positionAfter (before ++ cs)⟩

theorem Node.IsWritten.toList_textOrEmpty {n : Node} {before cs : List Char}
    (h : n.IsWritten before cs) : n.textOrEmpty.toList = cs := by
  rw [Node.textOrEmpty, h.text, Option.getD_some, String.toList_ofList]

/-- A written node is placed where its text stands, unless its span is not known. -/
theorem Node.IsWritten.placed? {n : Node} {before cs : List Char} (h : n.IsWritten before cs) :
    n.placed? = none ∨
      n.placed? = some ⟨⟨positionAfter before, positionAfter (before ++ cs)⟩, cs⟩ := by
  rcases h.span with hspan | hspan
  · left
    rw [Node.placed?, hspan]
    rfl
  · right
    rw [Node.placed?, hspan, h.text]
    show some _ = _
    rw [String.toList_ofList]

/-! ### Offsets -/

theorem lastLine_append_of_not_mem {cs : List Char} (h : '\n' ∉ cs) (before : List Char) :
    lastLine (before ++ cs) = lastLine before ++ cs := by
  have hcs : ∀ c ∈ cs.reverse, decide (c ≠ '\n') = true := by
    intro c hc
    simp only [decide_eq_true_eq]
    rintro rfl
    exact h (List.mem_reverse.mp hc)
  rw [lastLine, List.reverse_append, List.takeWhile_append_of_pos hcs, List.reverse_append,
    List.reverse_reverse, lastLine]

theorem lastLine_append_of_mem {cs : List Char} (h : '\n' ∈ cs) (before : List Char) :
    lastLine (before ++ cs) = lastLine cs := by
  have hshort : (cs.reverse.takeWhile (· ≠ '\n')).length ≠ cs.reverse.length := by
    intro heq
    have hself := (List.takeWhile_prefix (l := cs.reverse) (· ≠ '\n')).eq_of_length heq
    have hmem : '\n' ∈ cs.reverse.takeWhile (· ≠ '\n') := by
      rw [hself]
      exact List.mem_reverse.mpr h
    have := List.mem_takeWhile_imp hmem
    simp at this
  rw [lastLine, List.reverse_append, List.takeWhile_append, if_neg hshort, lastLine]

theorem lastLine_of_not_mem {cs : List Char} (h : '\n' ∉ cs) : lastLine cs = cs :=
  lastLine_append_of_not_mem h []

/-- A text has a first line. -/
theorem exists_lines_eq (cs : List Char) : ∃ l ls, lines cs = l :: ls := by
  cases cs with
  | nil => exact ⟨[], [], rfl⟩
  | cons c cs =>
    rw [lines]
    split
    · exact ⟨_, _, rfl⟩
    · split <;> exact ⟨_, _, rfl⟩

/-- The lines before the last one of a text, each with its line feed, and the last one make up
the text, also where the text goes on. -/
theorem lengthOfLines_take_lines (cs ds : List Char) :
    lengthOfLines ((lines (cs ++ ds)).take (cs.count '\n')) + (lastLine cs).length =
      cs.length := by
  induction cs with
  | nil => simp [lengthOfLines, lastLine]
  | cons c cs ih =>
    by_cases hfeed : c = '\n'
    · subst hfeed
      have hlast : lastLine ('\n' :: cs) = lastLine cs := by
        by_cases hcs : '\n' ∈ cs
        · exact lastLine_append_of_mem hcs ['\n']
        · rw [lastLine_of_not_mem hcs]
          exact lastLine_append_of_not_mem hcs ['\n']
      rw [hlast, List.cons_append, lines, if_pos rfl, List.count_cons_self, List.take_succ_cons,
        lengthOfLines, List.length_cons, List.length_nil]
      omega
    · by_cases hcs : '\n' ∈ cs
      · -- the character belongs to the first of the lines that are counted
        obtain ⟨l, ls, hlines⟩ := exists_lines_eq (cs ++ ds)
        obtain ⟨k, hk⟩ := Nat.exists_eq_succ_of_ne_zero (List.count_pos_iff.mpr hcs).ne'
        rw [hlines, hk, List.take_succ_cons, lengthOfLines] at ih
        have hlast : lastLine (c :: cs) = lastLine cs := lastLine_append_of_mem hcs [c]
        rw [hlast, List.cons_append, lines, if_neg hfeed, hlines, List.count_cons_of_ne hfeed, hk,
          List.take_succ_cons, lengthOfLines, List.length_cons, List.length_cons]
        omega
      · have hnot : '\n' ∉ c :: cs := List.not_mem_cons_of_ne_of_not_mem (Ne.symm hfeed) hcs
        rw [List.count_eq_zero_of_not_mem hnot, lastLine_of_not_mem hnot, List.take_zero,
          lengthOfLines, Nat.zero_add]

theorem cutBefore_natCast {α : Type} (xs : List α) (k : Nat) :
    cutBefore xs (k : Int) = xs.take k := by
  rw [cutBefore, place, if_neg (by omega), Int.toNat_natCast, ← List.take_eq_take_min]

/-- The offset of a position in a text is the number of characters before it. -/
theorem offsetIn_positionAfter (before cs ds : List Char) :
    offsetIn (positionAfter before) (cs ++ ds) (positionAfter (before ++ cs)) = cs.length := by
  have hlength := lengthOfLines_take_lines cs ds
  have hrow : (positionAfter (before ++ cs)).row - (positionAfter before).row =
      cs.count '\n' := by
    simp only [positionAfter, List.count_append]
    omega
  rw [offsetIn, hrow, cutBefore_natCast]
  by_cases hcs : '\n' ∈ cs
  · have hpos : (cs.count '\n' : Int) ≠ 0 := by
      have := List.count_pos_iff.mpr hcs
      omega
    rw [if_neg hpos, positionAfter, lastLine_append_of_mem hcs]
    dsimp only
    omega
  · have hzero : (cs.count '\n' : Int) = 0 := by
      rw [List.count_eq_zero_of_not_mem hcs]
      rfl
    rw [lastLine_of_not_mem hcs] at hlength
    rw [if_pos hzero, positionAfter, positionAfter, lastLine_append_of_not_mem hcs]
    simp only [List.length_append]
    omega

/-! ### What stands between -/

theorem place_of_le {n k : Nat} (h : k ≤ n) : place n (k : Int) = k := by
  rw [place, if_neg (by omega), Int.toNat_natCast, Nat.min_eq_left h]

/-- Cutting out the middle of a list. -/
theorem cut_append_append {α : Type} (front middle back : List α) :
    cut (front ++ (middle ++ back)) front.length (front ++ middle).length = middle := by
  rw [cut, place_of_le (by simp), place_of_le (by simp), ← List.append_assoc, List.take_left,
    List.drop_left]

private theorem trimFront_blank_append {ws : List Char} (hws : ∀ c ∈ ws, isBlank c = true)
    (cs : List Char) : trimFront (ws ++ cs) = trimFront cs :=
  List.dropWhile_append_of_pos hws

private theorem trimFront_of_head {c : Char} (h : isBlank c = false) (cs : List Char) :
    trimFront (c :: cs) = c :: cs :=
  List.dropWhile_cons_of_neg (by simp [h])

/-- The blanks around a text without blanks are trimmed. -/
theorem trim_append_append {ws cs ws' : List Char} (hws : ∀ c ∈ ws, isBlank c = true)
    (hws' : ∀ c ∈ ws', isBlank c = true) (hcs : ∀ c ∈ cs, isBlank c = false) (hne : cs ≠ []) :
    trim (ws ++ (cs ++ ws')) = cs := by
  have hfront : trimFront (cs ++ ws') = cs ++ ws' := by
    obtain ⟨c, rest, rfl⟩ := List.exists_cons_of_ne_nil hne
    exact trimFront_of_head (hcs c List.mem_cons_self) _
  have hback : trimFront cs.reverse = cs.reverse := by
    obtain ⟨c, rest, hrev⟩ := List.exists_cons_of_ne_nil (List.reverse_ne_nil_iff.mpr hne)
    rw [hrev]
    refine trimFront_of_head (hcs c ?_) _
    rw [← List.mem_reverse, hrev]
    exact List.mem_cons_self
  have hblank : ∀ c ∈ ws'.reverse, isBlank c = true := fun c hc => hws' c (List.mem_reverse.mp hc)
  rw [trim, trimFront_blank_append hws, hfront, List.reverse_append,
    trimFront_blank_append hblank, hback, List.reverse_reverse]

/-! ### Occurrences -/

/-- A front of a text occurs first at its start. -/
theorem firstIndex?_append (front back : List Char) :
    firstIndex? front (front ++ back) = some 0 := by
  cases hcs : front ++ back with
  | nil =>
    obtain ⟨rfl, rfl⟩ := List.append_eq_nil_iff.mp hcs
    rfl
  | cons c cs =>
    have hprefix : front.isPrefixOf (c :: cs) = true := by
      rw [List.isPrefixOf_iff_prefix, ← hcs]
      exact List.prefix_append front back
    rw [firstIndex?, if_pos hprefix]

private theorem lastIndex?_eq_none {needle cs : List Char} (h : cs.length < needle.length) :
    lastIndex? needle cs = none := by
  induction cs with
  | nil =>
    rw [lastIndex?, if_neg]
    rw [List.isEmpty_iff]
    rintro rfl
    exact Nat.lt_irrefl _ h
  | cons c cs ih =>
    have hprefix : ¬ needle.isPrefixOf (c :: cs) = true := by
      rw [List.isPrefixOf_iff_prefix]
      intro hle
      exact Nat.not_le_of_lt h hle.length_le
    rw [lastIndex?, ih (Nat.lt_of_succ_lt h)]
    exact if_neg hprefix

private theorem lastIndex?_self (cs : List Char) : lastIndex? cs cs = some 0 := by
  cases cs with
  | nil => rfl
  | cons c cs =>
    rw [lastIndex?, lastIndex?_eq_none (Nat.lt_succ_self cs.length)]
    exact if_pos (List.isPrefixOf_iff_prefix.mpr (List.prefix_refl _))

/-- An end of a text occurs last where it ends the text. -/
theorem lastIndex?_append (front back : List Char) :
    lastIndex? back (front ++ back) = some front.length := by
  induction front with
  | nil => exact lastIndex?_self back
  | cons c front ih => rw [List.cons_append, lastIndex?, ih, List.length_cons]

end Typeset
