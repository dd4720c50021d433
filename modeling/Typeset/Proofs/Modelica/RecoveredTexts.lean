import Mathlib.Data.List.DropRight
import Typeset.Modelica.Context
import Typeset.Proofs.Modelica.CompactLiterals
import Typeset.Proofs.SourcePositions

/-!
# Texts between the parts of a node

The tree has no nodes for operators and keywords. They are found again in the text of a node: the
operator of a binary expression between its operands, and leading words in front of a child. By
spans this is exact, on any number of lines. By searching for the texts of the operands it is too,
however often these occur: the left one starts the text and the right one ends it, so the first
occurrence of the one and the last occurrence of the other are the operands themselves.

## Main results

* `unwords_eq_trim_collapse` : joining the words of a text by single spaces is collapsing its
  blanks and trimming its ends.
* `operatorOf_eq_trim_gap` : the operator is what stands between the operands, trimmed.
* `spans_cut_exactly` : the texts of spans, inside of a source and inside of the text of a node.
-/

namespace Typeset.Modelica

open Text

/-! ### Words -/

private theorem isBlank_blank : isBlank ' ' = true := by decide

theorem rdropWhile_of_solid {w : List Char} (hw : ∀ c ∈ w, isBlank c = false) :
    w.rdropWhile isBlank = w := by
  rw [List.rdropWhile_eq_self_iff]
  intro hne
  simp [hw _ (List.getLast_mem hne)]

/-- A space behind a word stays as long as anything is left of what follows it. -/
theorem rdropWhile_append_space {w : List Char} (hw : ∀ c ∈ w, isBlank c = false)
    (ys : List Char) :
    (w ++ ' ' :: ys).rdropWhile isBlank =
      if ys.rdropWhile isBlank = [] then w else w ++ ' ' :: ys.rdropWhile isBlank := by
  have hword : (' ' :: w.reverse).dropWhile isBlank = w.reverse := by
    rw [List.dropWhile_cons_of_pos isBlank_blank]
    simpa [List.rdropWhile] using congrArg List.reverse (rdropWhile_of_solid hw)
  simp only [List.rdropWhile, List.reverse_append, List.reverse_cons, List.append_assoc,
    List.singleton_append, List.dropWhile_append, hword, List.isEmpty_iff, List.reverse_eq_nil_iff]
  split_ifs with h
  · rw [List.reverse_reverse]
  · rw [List.reverse_append, List.reverse_cons, List.reverse_reverse, List.append_assoc,
      List.singleton_append]

theorem finishWord_of_ne_nil {w : List Char} (h : w ≠ []) : finishWord w = [w] :=
  if_neg (by simpa using h)

/-- Words are not empty. -/
theorem ne_nil_of_mem_wordsFrom {word w cs : List Char} (h : w ∈ wordsFrom word cs) : w ≠ [] := by
  induction cs generalizing word with
  | nil =>
    rintro rfl
    simp [wordsFrom, finishWord] at h
  | cons c cs ih =>
    rw [wordsFrom] at h
    split_ifs at h
    · rcases List.mem_append.mp h with h | h
      · rintro rfl
        simp [finishWord] at h
      · exact ih h
    · exact ih h

/-- The words of a text behind a word in progress, joined by single spaces: the blanks of the text
are collapsed and those at its end are dropped. At the start of a word no blank is written. -/
theorem intercalate_wordsFrom {word : List Char} (hword : ∀ c ∈ word, isBlank c = false)
    (cs : List Char) :
    [' '].intercalate (wordsFrom word cs) =
      (word ++ collapseBlanks word.isEmpty cs).rdropWhile isBlank := by
  induction cs generalizing word with
  | nil =>
    rw [wordsFrom, collapseBlanks, List.append_nil, rdropWhile_of_solid hword]
    by_cases hne : word = []
    · rw [hne]
      rfl
    · rw [finishWord_of_ne_nil hne, List.intercalate_singleton]
  | cons c cs ih =>
    rw [wordsFrom, collapseBlanks]
    by_cases hblank : isBlank c = true
    · have hrest := ih (List.forall_mem_nil _)
      rw [List.nil_append, List.isEmpty_nil] at hrest
      rw [if_pos hblank, if_pos hblank]
      by_cases hne : word = []
      · rw [hne, List.isEmpty_nil, if_pos rfl, List.nil_append, ← hrest]
        rfl
      · rw [finishWord_of_ne_nil hne, if_neg (by simpa using hne), List.singleton_append,
          rdropWhile_append_space hword, ← hrest]
        cases hwords : wordsFrom [] cs with
        | nil => rw [List.intercalate_nil, if_pos rfl, List.intercalate_singleton]
        | cons w ws =>
          have hw : w ≠ [] := ne_nil_of_mem_wordsFrom (hwords ▸ List.mem_cons_self)
          have hjoined : [' '].intercalate (w :: ws) ≠ [] := by
            cases ws with
            | nil => rwa [List.intercalate_singleton]
            | cons w' ws => simp [List.intercalate_cons_cons, hw]
          rw [if_neg hjoined, List.intercalate_cons_cons, List.append_assoc, List.singleton_append]
    · have hsolid : ∀ d ∈ word ++ [c], isBlank d = false := by
        intro d hd
        rcases List.mem_append.mp hd with hd | hd
        · exact hword d hd
        · rw [List.mem_singleton.mp hd]
          simpa using hblank
      have hlonger : (word ++ [c]).isEmpty = false := by simp
      rw [if_neg hblank, if_neg hblank, ih hsolid, hlonger, List.append_assoc,
        List.singleton_append]

/-- The blanks in front of a collapsed text are a single space at most. -/
theorem trimFront_collapseBlanks (after : Bool) (cs : List Char) :
    trimFront (collapseBlanks after cs) = collapseBlanks true cs := by
  induction cs generalizing after with
  | nil => rfl
  | cons c cs ih =>
    rw [collapseBlanks, collapseBlanks]
    by_cases hblank : isBlank c = true
    · rw [if_pos hblank, if_pos hblank, if_pos rfl]
      cases after with
      | false => exact (List.dropWhile_cons_of_pos isBlank_blank).trans (ih true)
      | true => exact ih true
    · rw [if_neg hblank, if_neg hblank]
      exact List.dropWhile_cons_of_neg hblank

/-- Joining the words of a text by single spaces is collapsing its blanks and trimming its ends. -/
theorem unwords_eq_trim_collapse (cs : List Char) :
    unwords cs = trim (collapseBlanks false cs) := by
  rw [unwords, words, intercalate_wordsFrom (List.forall_mem_nil _), List.nil_append,
    List.isEmpty_nil, ← trimFront_collapseBlanks false cs]
  rfl

/-! ### Operators -/

/-- Something is left of a text that has more than blanks. -/
theorem trimmed?_eq_some {cs : List Char} (h : ∃ c ∈ cs, isBlank c = false) :
    trimmed? cs = some (trim cs) := by
  refine if_neg fun hempty => ?_
  obtain ⟨ws, ws', hws, hws', hcs⟩ := exists_eq_append_trim cs
  rw [List.isEmpty_iff.mp hempty, List.nil_append] at hcs
  obtain ⟨c, hc, hsolid⟩ := h
  rw [hcs] at hc
  have hblank := (List.mem_append.mp hc).elim (hws c) (hws' c)
  rw [hblank] at hsolid
  cases hsolid

theorem placed?_eq_none {n : Node} (h : n.span = none) : n.placed? = none := by
  rw [Node.placed?, h]
  rfl

/-- **The operator of an expression stands between its operands.** The text of the node is the text
of its first child, a gap that has more than blanks, and the text of its second child. Then the
operator is the gap without the blanks at its ends, whichever of the three nodes have spans; only
if all of them do, the spans have to be those of the texts in one source. The texts of the operands
may occur again anywhere, in the gap as well, and they may be empty. -/
theorem operatorOf_eq_trim_gap {n left right : Node} {others : List Node} {l gap r : List Char}
    (hchildren : n.children = left :: right :: others)
    (hn : n.text = some (String.ofList (l ++ (gap ++ r))))
    (hleft : left.text = some (String.ofList l)) (hright : right.text = some (String.ofList r))
    (hgap : ∃ c ∈ gap, isBlank c = false)
    (hspans : n.span.isSome → left.span.isSome → right.span.isSome → ∃ before,
      n.IsWritten before (l ++ (gap ++ r)) ∧ left.IsWritten before l ∧
        right.IsWritten (before ++ (l ++ gap)) r) :
    operatorOf n = .ok (String.ofList (trim gap)) := by
  have hne : gap ≠ [] := by
    rintro rfl
    obtain ⟨c, hc, -⟩ := hgap
    cases hc
  have htexts : operatorByTexts? n.textOrEmpty.toList left.textOrEmpty.toList
      right.textOrEmpty.toList = some (trim gap) := by
    simp only [Node.textOrEmpty, hn, hleft, hright, Option.getD_some, String.toList_ofList]
    rw [operatorByTexts?_eq hne, trimmed?_eq_some hgap]
  have hbySpans : operatorBySpans? n left right = none ∨
      operatorBySpans? n left right = some (trim gap) := by
    cases hspan : n.span with
    | none => exact .inl (operatorBySpans?_eq_none (.inl (placed?_eq_none hspan)))
    | some s =>
      cases hspanLeft : left.span with
      | none => exact .inl (operatorBySpans?_eq_none (.inr (.inl (placed?_eq_none hspanLeft))))
      | some sl =>
        cases hspanRight : right.span with
        | none => exact .inl (operatorBySpans?_eq_none (.inr (.inr (placed?_eq_none hspanRight))))
        | some sr =>
          obtain ⟨before, hn, hleft, hright⟩ :=
            hspans (by rw [hspan]; rfl) (by rw [hspanLeft]; rfl) (by rw [hspanRight]; rfl)
          rw [← trimmed?_eq_some hgap]
          exact operatorBySpans?_eq hn hleft hright
  rw [operatorOf, hchildren]
  show Except.ok (operatorBetween n left right) = _
  rw [operatorBetween, htexts]
  rcases hbySpans with h | h <;> rw [h] <;> rfl

/-- A difference over three lines, with the name of its operands once more in the gap. -/
theorem operatorOf_eq_trim_gap_lines :
    operatorOf
      { kind := "binary_expression",
        children :=
          [{ kind := "IDENT", text := some "a", span := some ⟨⟨1, 2⟩, ⟨1, 3⟩⟩ },
           { kind := "IDENT", text := some "a", span := some ⟨⟨3, 0⟩, ⟨3, 1⟩⟩ }],
        text := some "a\n  - a -\na",
        span := some ⟨⟨1, 2⟩, ⟨3, 1⟩⟩ } = .ok "- a -" :=
  @operatorOf_eq_trim_gap _ _ _ _ "a".toList "\n  - a -\n".toList "a".toList rfl rfl rfl rfl
    ⟨'-', by decide, by decide⟩ fun _ _ _ => ⟨"y =\n  ".toList, ⟨rfl, .inr (by decide)⟩,
      ⟨rfl, .inr (by decide)⟩, ⟨rfl, .inr (by decide)⟩⟩

/-! ### Leading words -/

/-- What stands in front of a child is found by the spans of the node and of the child. -/
theorem textBefore_eq_stretch {source : List Char} {n child : Node} {outer inner : Placed}
    (hn : n.placed? = some outer) (hchild : child.placed? = some inner)
    (hstart : outer.span.start.IsIn source) (hstop : outer.span.stop.IsIn source)
    (htext : outer.text = stretch source outer.span.start outer.span.stop)
    (hinner : inner.span.start.IsIn source) (hle : outer.span.start ≤ inner.span.start)
    (hle' : inner.span.start ≤ outer.span.stop) :
    textBefore n child = stretch source outer.span.start inner.span.start := by
  rw [textBefore, hn, hchild]
  show cutBefore outer.text (offsetIn outer.span.start outer.text inner.span.start) = _
  rw [htext, offsetIn_stretch hstart hinner hstop hle hle', cutBefore_natCast,
    ← stretch_append_stretch hstart hinner hstop hle hle', List.take_left]

/-- **Spans cut exactly.** Between two positions of a source, the pieces of its lines make up what
stands between their offsets. A node with a span of the source, and with the text that stands there,
has in its own text between the offsets of two positions what stands between them in the source. So
its leading words in front of a child are what the source has from the start of the node to the
start of the child, with each run of blanks as one space and none at the ends. -/
theorem spans_cut_exactly (source : List Char) :
    (∀ a b : Position, a.IsIn source → b.IsIn source → a ≤ b →
      (Span.mk a b).extract (lines source) = some (stretch source a b)) ∧
    ∀ (n : Node) (outer : Placed), n.placed? = some outer →
      outer.span.start.IsIn source → outer.span.stop.IsIn source →
      outer.span.extract (lines source) = some outer.text →
      (∀ a b : Position, a.IsIn source → b.IsIn source →
        outer.span.start ≤ a → a ≤ b → b ≤ outer.span.stop →
        (Span.mk a b).extract (lines source) =
          some (cut outer.text (outer.offset a) (outer.offset b))) ∧
      ∀ (child : Node) (inner : Placed), child.placed? = some inner →
        inner.span.start.IsIn source →
        outer.span.start ≤ inner.span.start → inner.span.start ≤ outer.span.stop →
        leadingText n (some child) = String.ofList
          (trim (collapseBlanks false (stretch source outer.span.start inner.span.start))) := by
  refine ⟨fun a b => extract_eq_stretch, ?_⟩
  intro n outer hn hstart hstop hextract
  have htext (hle : outer.span.start ≤ outer.span.stop) :
      outer.text = stretch source outer.span.start outer.span.stop :=
    Option.some.inj (hextract.symm.trans (extract_eq_stretch hstart hstop hle))
  constructor
  · intro a b ha hb hsa hab hbe
    have hle := Position.le_trans hsa (Position.le_trans hab hbe)
    rw [extract_eq_stretch ha hb hab, Placed.offset, Placed.offset, htext hle,
      cut_offsetIn_eq_stretch hstart ha hb hstop hsa hab hbe]
  · intro child inner hchild hinner hle hle'
    rw [leadingText, Option.elim_some, textBefore_eq_stretch hn hchild hstart hstop
      (htext (Position.le_trans hle hle')) hinner hle hle', unwords_eq_trim_collapse]

/-- A declaration over four lines, one of them empty, with two keywords in front of its type. -/
theorem spans_cut_exactly_clause :
    (Span.mk ⟨2, 2⟩ ⟨4, 1⟩).extract
        (lines "model M\n final\n  parameter\n\n Real x;\nend M;".toList) =
      some "parameter\n\n ".toList ∧
    cut "final\n  parameter\n\n Real x".toList
        (offsetIn ⟨1, 1⟩ "final\n  parameter\n\n Real x".toList ⟨2, 2⟩)
        (offsetIn ⟨1, 1⟩ "final\n  parameter\n\n Real x".toList ⟨4, 1⟩) =
      "parameter\n\n ".toList ∧
    leadingText
        { kind := "component_clause", text := some "final\n  parameter\n\n Real x",
          span := some ⟨⟨1, 1⟩, ⟨4, 7⟩⟩ }
        (some { kind := "type_specifier", text := some "Real", span := some ⟨⟨4, 1⟩, ⟨4, 5⟩⟩ }) =
      "final parameter" := by
  obtain ⟨hspan, hnode⟩ :=
    spans_cut_exactly "model M\n final\n  parameter\n\n Real x;\nend M;".toList
  have ha : (⟨2, 2⟩ : Position).IsIn "model M\n final\n  parameter\n\n Real x;\nend M;".toList :=
    ⟨by decide, by decide, _, rfl, by decide⟩
  have hb : (⟨4, 1⟩ : Position).IsIn "model M\n final\n  parameter\n\n Real x;\nend M;".toList :=
    ⟨by decide, by decide, _, rfl, by decide⟩
  obtain ⟨hcut, hleading⟩ := hnode
    { kind := "component_clause", text := some "final\n  parameter\n\n Real x",
      span := some ⟨⟨1, 1⟩, ⟨4, 7⟩⟩ } _ rfl ⟨by decide, by decide, _, rfl, by decide⟩
    ⟨by decide, by decide, _, rfl, by decide⟩ (by decide)
  have hfirst := hspan _ _ ha hb (by decide)
  have hsecond := hcut _ _ ha hb (by decide) (by decide) (by decide)
  refine ⟨hfirst, ?_, ?_⟩
  · exact Option.some.inj (hsecond.symm.trans hfirst)
  · refine (hleading
      { kind := "type_specifier", text := some "Real", span := some ⟨⟨4, 1⟩, ⟨4, 5⟩⟩ } _ rfl hb
      (by decide) (by decide)).trans ?_
    decide +kernel

end Typeset.Modelica
