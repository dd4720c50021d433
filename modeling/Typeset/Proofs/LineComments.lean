import Typeset.Proofs.Admissible
import Typeset.Proofs.BuiltDocuments
import Typeset.Proofs.Normalization
import Typeset.Proofs.RenderedColumns

/-!
# Line comments

A comment that starts with two slashes ends with its line, so that whatever is printed behind it
on the same line becomes part of it. A stream of items is read here item by item, and reading it
stops where a text follows a line comment on its line. A document passes if all streams that it
admits can be read; what is known of a document is whether a line comment may stand right before
it and whether one may stand at its end.

## Main definitions

* `isLineComment` : the texts of line comments.
* `LineState`, `readItems` : the state of a line, and how a stream is read.
* `Doc.Passes`, `PassesAll` : the streams of a document, and of several ones, can be read.
* `Doc.IsNeat` : the document passes, and no line comment stands at its end.

## Main results

* `Doc.Built.isNeat` : what is built from neat documents is neat.
* `newline_after_line_comment` : in a text that is rendered from a stream that can be read, a line
  comment is followed by a line break or by the end of the text.
-/

namespace Typeset

open Text

/-! ### Reading a stream -/

/-- Whether a text is a comment up to the end of its line. -/
def isLineComment (s : String) : Bool := "//".toList.isPrefixOf s.toList && !breaks s.toList

/-- What a line looks like to the text that comes next. -/
inductive LineState where
  /-- There is no line comment on the line. -/
  | code
  /-- A comment begins here. -/
  | opened
  /-- The line ends in a line comment. -/
  | commented
  deriving DecidableEq

/-- The state after an item; there is none if the item is a text on the line of a line
comment. -/
def LineState.after : LineState → Item → Option LineState
  | commented, .text s => if s.toList.head? = some '\n' then some code else none
  | commented, .line _ => some code
  | commented, .push _ => some commented
  | commented, .pop _ => some commented
  | opened, .text s => some (if isLineComment s then commented else code)
  | _, .push a => some (if a = .token .commentSingle then opened else code)
  | _, _ => some code

/-- The state after a stream of items, if no text stands on the line of a line comment. -/
def readItems (t : LineState) (items : List Item) : Option LineState :=
  items.foldlM LineState.after t

theorem readItems_append (t : LineState) (xs ys : List Item) :
    readItems t (xs ++ ys) = (readItems t xs).bind (readItems · ys) :=
  List.foldlM_append ..

/-- The states in which a line may be: there is no line comment on it, or, if that is admitted, it
ends in one. -/
def LineState.Within (comment : Bool) (t : LineState) : Prop :=
  t = code ∨ comment = true ∧ t = commented

/-- The stream can be read from the states of the first sort, and leads to one of the second
sort. -/
def ReadsWithin (items : List Item) (before after : Bool) : Prop :=
  ∀ t, LineState.Within before t → ∃ t', readItems t items = some t' ∧ t'.Within after

theorem ReadsWithin.append {xs ys : List Item} {b₁ b₂ b₃ : Bool} (hxs : ReadsWithin xs b₁ b₂)
    (hys : ReadsWithin ys b₂ b₃) : ReadsWithin (xs ++ ys) b₁ b₃ := by
  intro t ht
  obtain ⟨t', hread, ht'⟩ := hxs t ht
  obtain ⟨t'', hread', ht''⟩ := hys t' ht'
  exact ⟨t'', by rw [readItems_append, hread]; exact hread', ht''⟩

theorem readsWithin_nil (b : Bool) : ReadsWithin [] b b := fun t ht => ⟨t, rfl, ht⟩

/-- Less may be known before a stream, and more after it. -/
theorem ReadsWithin.mono {items : List Item} {b₁ b₂ b₁' b₂' : Bool} (h : ReadsWithin items b₁ b₂)
    (h₁ : b₁' = true → b₁ = true) (h₂ : b₂ = true → b₂' = true) : ReadsWithin items b₁' b₂' := by
  intro t ht
  obtain ⟨t', hread, ht'⟩ := h t (ht.imp_right fun ht => ⟨h₁ ht.1, ht.2⟩)
  exact ⟨t', hread, ht'.imp_right fun ht => ⟨h₂ ht.1, ht.2⟩⟩

theorem readsWithin_textItems (s : String) : ReadsWithin (textItems s) false false := by
  rintro t (rfl | ⟨h, -⟩)
  · rw [textItems]
    split
    · exact ⟨_, rfl, .inl rfl⟩
    · exact ⟨_, rfl, .inl rfl⟩
  · cases h

theorem readsWithin_line (level : Nat) (b : Bool) : ReadsWithin [.line level] b false := by
  rintro t (rfl | ⟨-, rfl⟩) <;> exact ⟨_, rfl, .inl rfl⟩

/-- A mark other than that of a comment does not change the state of a line. -/
theorem ReadsWithin.marked {items : List Item} {b b' : Bool} (h : ReadsWithin items b b') {a : Mark}
    (ha : a ≠ .token .commentSingle) : ReadsWithin (.push a :: items ++ [.pop a]) b b' := by
  have hpush : ReadsWithin [.push a] b b := by
    rintro t (rfl | ⟨hb, rfl⟩)
    · exact ⟨_, rfl, .inl (if_neg ha)⟩
    · exact ⟨_, rfl, .inr ⟨hb, rfl⟩⟩
  have hpop : ReadsWithin [.pop a] b' b' := by
    rintro t (rfl | ⟨hb, rfl⟩)
    · exact ⟨_, rfl, .inl rfl⟩
    · exact ⟨_, rfl, .inr ⟨hb, rfl⟩⟩
  exact (hpush.append h).append hpop

/-! ### Documents that pass -/

namespace Doc

/-- All streams that the document admits where a mode is asked for can be read, also if a broken
mode comes instead. -/
def Passes (m : Mode) (before : Bool) (d : Doc) (after : Bool) : Prop :=
  ∀ m', m' = m ∨ m' = .broken → ∀ i items, Admits i m' d items → ReadsWithin items before after

end Doc

/-- All streams that the documents admit one after the other can be read. -/
def PassesAll (m : Mode) (before : Bool) (ds : List Doc) (after : Bool) : Prop :=
  ∀ ms, (∀ m' ∈ ms, m' = m ∨ m' = .broken) → ∀ i items, AdmitsEach i ms ds items →
    ReadsWithin items before after

variable {m : Mode} {b b₁ b₂ b₃ : Bool} {d e : Doc} {ds es : List Doc}

theorem passesAll_nil (m : Mode) (b : Bool) : PassesAll m b [] b := by
  intro ms _ i items h
  cases h
  exact readsWithin_nil b

theorem PassesAll.cons (hd : d.Passes m b₁ b₂) (hds : PassesAll m b₂ ds b₃) :
    PassesAll m b₁ (d :: ds) b₃ := by
  intro ms hms i items h
  cases h with
  | cons hm hx hys => exact (hd _ (hms _ hm) i _ hx).append (hds ms hms i _ hys)

theorem PassesAll.append (hds : PassesAll m b₁ ds b₂) (hes : PassesAll m b₂ es b₃) :
    PassesAll m b₁ (ds ++ es) b₃ := by
  intro ms hms i items h
  obtain ⟨xs, ys, rfl, hxs, hys⟩ := h.exists_append
  exact (hds ms hms i xs hxs).append (hes ms hms i ys hys)

theorem passesAll_singleton (h : d.Passes m b₁ b₂) : PassesAll m b₁ [d] b₂ :=
  .cons h (passesAll_nil m b₂)

/-- Documents at whose ends no line comment stands pass one after the other. -/
theorem passesAll_of_forall (h : ∀ d ∈ ds, d.Passes m false false) :
    PassesAll m false ds false := by
  induction ds with
  | nil => exact passesAll_nil m false
  | cons d ds ih =>
    obtain ⟨hd, hds⟩ := List.forall_mem_cons.mp h
    exact .cons hd (ih hds)

theorem Doc.Passes.mono (h : d.Passes m b₁ b₂) {b₁' b₂' : Bool} (h₁ : b₁' = true → b₁ = true)
    (h₂ : b₂ = true → b₂' = true) : d.Passes m b₁' b₂' :=
  fun m' hm' i items hd => (h m' hm' i items hd).mono h₁ h₂

theorem PassesAll.mono (h : PassesAll m b₁ ds b₂) {b₁' b₂' : Bool} (h₁ : b₁' = true → b₁ = true)
    (h₂ : b₂ = true → b₂' = true) : PassesAll m b₁' ds b₂' :=
  fun ms hms i items hds => (h ms hms i items hds).mono h₁ h₂

/-- What passes in the flat mode passes in all modes. -/
theorem Doc.Passes.of_flat (h : d.Passes .flat b₁ b₂) (m : Mode) : d.Passes m b₁ b₂ :=
  fun m' _ i items hd => h m' (by cases m' <;> simp) i items hd

namespace Doc

/-! ### Combinators -/

private theorem modeIn_within (d : Doc) {m' : Mode} (h : m' = m ∨ m' = .broken) :
    d.modeIn m' = m ∨ d.modeIn m' = .broken := by
  rcases modeIn_eq d m' with hm | hm
  · rwa [hm]
  · exact .inr hm

theorem passes_lit (m : Mode) (s : String) : (lit s).Passes m false false := by
  intro m' _ i items h
  cases h
  exact readsWithin_textItems s

theorem passes_nil (m : Mode) (b : Bool) : nil.Passes m b b := by
  intro m' _ i items h
  cases h
  exact readsWithin_nil b

theorem passes_line (m : Mode) (k : LineKind) : (line k).Passes m false false := by
  intro m' _ i items h
  cases h
  cases k <;> cases (line _).modeIn m'
  all_goals first
    | exact readsWithin_line _ false
    | exact readsWithin_textItems " "
    | exact readsWithin_nil false

/-- A line that cannot be printed flat ends the line of a comment. -/
theorem passes_hardLine (m : Mode) (b : Bool) : hardLine.Passes m b false := by
  intro m' _ i items h
  cases h
  exact readsWithin_line i b

/-- So does every line that is printed broken. -/
theorem passes_softLine_broken (b : Bool) : softLine.Passes .broken b false := by
  intro m' hm' i items h
  obtain rfl : m' = .broken := by simpa using hm'
  cases h
  exact readsWithin_line i b

theorem Passes.tidy (h : d.Passes m b₁ b₂) : d.tidy.Passes m b₁ b₂ :=
  fun m' hm' i items hd => h m' hm' i items (admits_of_tidy hd)

theorem passes_concat (h : PassesAll m b₁ ds b₂) : (concat ds).Passes m b₁ b₂ := by
  intro m' hm' i items hcat
  cases hcat with
  | concat hds =>
    exact h _ (List.forall_mem_singleton.mpr (modeIn_within _ hm')) i items hds

theorem passes_cat (h : PassesAll m b₁ ds b₂) : (cat ds).Passes m b₁ b₂ := by
  intro m' hm' i items hcat
  obtain ⟨m'', hm'', hds⟩ := exists_admitsEach_of_cat hcat
  refine h [m''] (List.forall_mem_singleton.mpr ?_) i items hds
  rcases hm'' with rfl | hbroken
  · exact hm'
  · exact .inr hbroken

theorem passes_nested (h : d.Passes m b₁ b₂) : (nested d).Passes m b₁ b₂ := by
  intro m' hm' i items hnested
  cases hnested with
  | indent hd => exact h.tidy _ (modeIn_within _ hm') (i + 1) items hd

theorem passes_group (h : d.Passes .flat b₁ b₂) (m : Mode) (forced : Bool) :
    (group d forced).Passes m b₁ b₂ := by
  intro m' _ i items hgroup
  cases hgroup with
  | forcedGroup hd => exact h .broken (.inr rfl) i items hd
  | group hd => exact h.of_flat _ _ (.inl rfl) i items hd
  | flatGroup _ hd => exact h .flat (.inl rfl) i items hd

theorem passes_grouped (h : d.Passes .flat b₁ b₂) (m : Mode) : (grouped d).Passes m b₁ b₂ :=
  passes_group h.tidy m false

/-- A group that must break is printed broken only. -/
theorem passes_grouped_of_mustBreak (hd : d.tidy.mustBreak = true) (h : d.Passes .broken b₁ b₂)
    (m : Mode) : (grouped d).Passes m b₁ b₂ := by
  intro m' _ i items hgroup
  cases hgroup with
  | group hbody =>
    have hmode : (group d.tidy false).modeIn m' = .broken := if_pos hd
    rw [hmode] at hbody
    exact h.tidy .broken (.inl rfl) i items hbody
  | flatGroup hflat => simp [hd] at hflat

theorem passes_forcedGroup (h : d.Passes .broken b₁ b₂) (m : Mode) :
    (group d true).Passes m b₁ b₂ := by
  intro m' _ i items hgroup
  cases hgroup with
  | forcedGroup hd => exact h .broken (.inl rfl) i items hd

theorem passes_annotated {a : Mark} (ha : a ≠ .token .commentSingle) (h : d.Passes m b₁ b₂) :
    (annotated d a).Passes m b₁ b₂ := by
  intro m' hm' i items hmarked
  cases hmarked with
  | annotated hd => exact (h _ (modeIn_within _ hm') i _ hd).marked ha

/-- The text of a comment ends the line if it is a line comment. -/
theorem passes_comment (m : Mode) (s : String) :
    (token .commentSingle s).Passes m false (isLineComment s) := by
  intro m' _ i items hmarked
  cases hmarked with
  | annotated hd =>
    have hlit : Admits i _ (.lit s) _ := admits_of_tidy hd
    generalize modeIn _ m' = mode at hlit
    cases hlit
    rintro t (rfl | ⟨h, -⟩)
    · rw [textItems]
      split
      · exact ⟨_, rfl, .inl rfl⟩
      · cases hs : isLineComment s with
        | false =>
          refine ⟨.code, ?_, .inl rfl⟩
          simp [readItems, LineState.after, hs]
        | true =>
          refine ⟨.commented, ?_, .inr ⟨rfl, rfl⟩⟩
          simp [readItems, LineState.after, hs]
    · cases h

theorem passes_fill (h : ∀ d ∈ ds, d.Passes .flat false false) (m : Mode) :
    (fill ds).Passes m false false := by
  intro m' _ i items hfill
  cases hfill with
  | fill hds =>
    exact passesAll_of_forall h _ (fun m' _ => by cases m' <;> simp) i items hds

theorem passes_conditional {front : List Doc} {fallback : Doc}
    (h : ∀ d ∈ candidates front fallback, d.Passes .flat b₁ b₂) (m : Mode) :
    (conditional front fallback).Passes m b₁ b₂ := by
  intro m' _ i items hcond
  obtain ⟨m'', d, hd, hitems⟩ := hcond.exists_candidate
  exact (h d hd).of_flat m'' m'' (.inl rfl) i items hitems

/-! ### Neat documents -/

/-- No line comment stands at the end of the document, also if its outermost group is forced to
break. -/
structure IsNeat (d : Doc) : Prop where
  passes : d.Passes .flat false false
  passes_breakGroup : d.breakGroup.Passes .flat false false

theorem isNeat_of_breakGroup_eq (h : d.Passes .flat false false) (hd : d.breakGroup = d) :
    d.IsNeat := ⟨h, hd.symm ▸ h⟩

theorem IsNeat.tidy (h : d.IsNeat) : d.tidy.IsNeat := by
  cases d with
  | lit s =>
    rw [Doc.tidy]
    split
    · exact isNeat_of_breakGroup_eq (passes_nil _ _) rfl
    · exact h
  | _ => exact h

private theorem mem_breakLast : (ds : List Doc) → e ∈ breakLast ds →
    ∃ d ∈ ds, e = d ∨ e = d.breakGroup
  | [], he => by cases he
  | [d], he => ⟨d, List.mem_cons_self, .inr (List.mem_singleton.mp he)⟩
  | d :: d' :: ds, he => by
    rcases List.mem_cons.mp he with rfl | he
    · exact ⟨e, List.mem_cons_self, .inl rfl⟩
    · obtain ⟨x, hx, hex⟩ := mem_breakLast (d' :: ds) he
      exact ⟨x, List.mem_cons_of_mem d hx, hex⟩

private theorem isNeat_concat (h : ∀ d ∈ ds, d.IsNeat) : (concat ds).IsNeat where
  passes := passes_concat (passesAll_of_forall fun d hd => (h d hd).passes)
  passes_breakGroup := by
    rw [breakGroup]
    refine passes_concat (passesAll_of_forall fun e he => ?_)
    obtain ⟨d, hd, rfl | rfl⟩ := mem_breakLast ds he
    · exact (h e hd).passes
    · exact (h d hd).passes_breakGroup

theorem isNeat_cat (h : ∀ d ∈ ds, d.IsNeat) : (cat ds).IsNeat := by
  match ds with
  | [] => exact isNeat_of_breakGroup_eq (passes_nil _ _) rfl
  | [d] => exact (h d List.mem_cons_self).tidy
  | d :: e :: ds =>
    refine isNeat_concat fun x hx => ?_
    obtain ⟨y, hy, rfl⟩ := List.mem_map.mp hx
    exact (h y hy).tidy

theorem isNeat_hug (h : d.IsNeat) : (hug softLine d).IsNeat := by
  have hspace (e : Doc) (he : e.Passes .flat false false) :
      (cat [lit " ", e]).Passes .flat false false :=
    passes_cat (.cons (passes_lit _ _) (passesAll_singleton he))
  refine isNeat_of_breakGroup_eq (passes_conditional ?_ .flat) rfl
  simp only [candidates, List.map_cons, List.map_nil, List.cons_append, List.nil_append,
    List.forall_mem_cons]
  exact ⟨(hspace d h.passes).tidy, (hspace _ h.passes_breakGroup).tidy,
    (passes_cat (.cons (passes_line _ _) (passesAll_singleton h.passes))).tidy,
    List.forall_mem_nil _⟩

private theorem mustBreak_tidy (d : Doc) : d.tidy.mustBreak = d.mustBreak := by
  cases d with
  | lit s =>
    rw [Doc.tidy]
    split <;> rfl
  | _ => rfl

private theorem mustBreak_cat (hd : d ∈ ds) (hbreak : d.mustBreak = true) :
    (cat ds).mustBreak = true := by
  match ds with
  | [e] =>
    obtain rfl := List.mem_singleton.mp hd
    rwa [cat, mustBreak_tidy]
  | e :: e' :: ds =>
    show anyMustBreak _ = true
    rw [anyMustBreak_eq_any, List.any_map, List.any_eq_true]
    exact ⟨d, hd, (mustBreak_tidy d).trans hbreak⟩

/-- A group around a line that cannot be printed flat is neat if its parts pass broken. -/
theorem isNeat_grouped_of_mem (hd : d ∈ ds) (hbreak : d.mustBreak = true)
    (h : PassesAll .broken false ds false) : (grouped (cat ds)).IsNeat := by
  have hcat := passes_cat h
  refine ⟨passes_grouped_of_mustBreak ?_ hcat .flat, passes_forcedGroup hcat.tidy .flat⟩
  rw [mustBreak_tidy, mustBreak_cat hd hbreak]

/-- **What is built from neat documents is neat.** -/
theorem Built.isNeat (h : Built IsNeat d) : d.IsNeat := by
  induction h with
  | part h => exact h
  | lit s => exact isNeat_of_breakGroup_eq (passes_lit _ s) rfl
  | line k => exact isNeat_of_breakGroup_eq (passes_line _ k) rfl
  | cat _ ih => exact isNeat_cat ih
  | nested _ ih => exact isNeat_of_breakGroup_eq (passes_nested ih.passes) rfl
  | grouped _ ih => exact ⟨passes_grouped ih.passes _, passes_group ih.passes.tidy _ true⟩
  | annotate ha _ ih =>
    exact ⟨passes_annotated ha ih.tidy.passes, passes_annotated ha ih.tidy.passes_breakGroup⟩
  | filled _ ih =>
    refine isNeat_of_breakGroup_eq (passes_fill (fun x hx => ?_) _) rfl
    obtain ⟨y, hy, rfl⟩ := List.mem_map.mp hx
    exact (ih y hy).passes.tidy
  | hug _ ih => exact isNeat_hug ih

theorem Built.passes (h : Built IsNeat d) (m : Mode) : d.Passes m false false :=
  h.isNeat.passes.of_flat m

private theorem breakLast_concat (d : Doc) : (ds : List Doc) →
    breakLast (ds ++ [d]) = ds ++ [d.breakGroup]
  | [] => rfl
  | [_] => rfl
  | e :: e' :: ds => congrArg (e :: ·) (breakLast_concat d (e' :: ds))

theorem breakGroup_tidy_lit (s : String) : (lit s).tidy.breakGroup = (lit s).tidy := by
  rw [Doc.tidy]
  split <;> rfl

/-- Forcing a group to break does nothing where a text stands at the end. -/
theorem breakGroup_cat_lit (ds : List Doc) (s : String) :
    (cat (ds ++ [lit s])).breakGroup = cat (ds ++ [lit s]) := by
  match ds with
  | [] => exact breakGroup_tidy_lit s
  | d :: ds =>
    have hcat : cat (d :: ds ++ [lit s]) = concat ((d :: ds).map Doc.tidy ++ [(lit s).tidy]) := by
      cases ds <;> simp [cat]
    rw [hcat, breakGroup, breakLast_concat, breakGroup_tidy_lit]

end Doc

theorem passesAll_of_built (h : ∀ d ∈ ds, Doc.Built Doc.IsNeat d) (m : Mode) :
    PassesAll m false ds false :=
  passesAll_of_forall fun d hd => (h d hd).passes m

/-- Documents on lines of their own pass, whatever they end in. -/
theorem passesAll_intersperse_hardLine {ds : List Doc} (h : ∀ d ∈ ds, d.Passes m false true) :
    PassesAll m false (ds.intersperse .hardLine) true := by
  match ds with
  | [] => exact (passesAll_nil m false).mono (by simp) (by simp)
  | [d] => exact passesAll_singleton (h d List.mem_cons_self)
  | d :: e :: ds =>
    obtain ⟨hd, hrest⟩ := List.forall_mem_cons.mp h
    rw [List.intersperse_cons_cons]
    exact .cons hd (.cons (Doc.passes_hardLine m true) (passesAll_intersperse_hardLine hrest))

/-! ### Rendered texts -/

theorem plainWrites_text {sp : Spelling} {pending : Nat} {s : String} {items : List Item}
    (hs : s.toList ≠ []) : plainWrites sp pending (.text s :: items) =
      sp.indentation pending :: s :: plainWrites sp 0 items := by
  have hne : ¬ s.isEmpty = true := by simpa using hs
  rw [plainWrites, if_neg hne]

/-- What is rendered behind a line comment is nothing, or it starts with a line break. -/
theorem plainWrites_of_commented {sp : Spelling} (hsp : sp.newline = "\n") {items : List Item}
    {t : LineState} (h : readItems .commented items = some t) :
    let cs := (plainWrites sp 0 items).flatMap String.toList
    cs = [] ∨ cs.head? = some '\n' := by
  induction items with
  | nil => exact .inl rfl
  | cons item items ih =>
    rw [readItems, List.foldlM_cons] at h
    cases item with
    | text s =>
      right
      have hs : s.toList.head? = some '\n' := by
        by_contra hs
        simp [LineState.after, hs] at h
      obtain ⟨cs, hcs⟩ := List.head?_eq_some_iff.mp hs
      simp [plainWrites_text (s := s), Spelling.indentation, hcs]
    | line level =>
      right
      simp [plainWrites, hsp]
    | push a => exact ih h
    | pop a => exact ih h

private theorem exists_of_isLineComment {s : String} (hs : isLineComment s = true) :
    ∃ cs, s.toList = '/' :: cs := by
  rw [isLineComment, Bool.and_eq_true, List.isPrefixOf_iff_prefix] at hs
  obtain ⟨cs, hcs⟩ := hs.1
  exact ⟨_, hcs.symm⟩

/-- After a line comment that was read the line ends in a comment: it does not stand behind
another one. -/
private theorem readItems_comment {s : String} (hs : isLineComment s = true) {t t' : LineState}
    {after : List Item}
    (h : readItems t (.push (.token .commentSingle) :: .text s :: after) = some t') :
    readItems .commented after = some t' := by
  obtain ⟨cs, hcs⟩ := exists_of_isLineComment hs
  rw [readItems, List.foldlM_cons] at h
  cases t with
  | commented => simp [LineState.after, hcs] at h
  | code => simpa [readItems, LineState.after, hs] using h
  | opened => simpa [readItems, LineState.after, hs] using h

/-- **A line comment is followed by a line break or by the end of the text**, if the stream that the
text is rendered from can be read. -/
theorem newline_after_line_comment {sp : Spelling} (hsp : sp.newline = "\n")
    {before after : List Item} {s : String} (hs : isLineComment s = true) {t : LineState}
    (h : readItems .code
      (before ++ Item.push (.token .commentSingle) :: Item.text s :: after) = some t) :
    ∃ rest, (rest = [] ∨ rest.head? = some '\n') ∧ (renderItems sp
      (before ++ Item.push (.token .commentSingle) :: Item.text s :: after)).toList =
        (renderItems sp (before ++ [Item.text s])).toList ++ rest := by
  rw [readItems_append, Option.bind_eq_some_iff] at h
  obtain ⟨t', -, hread⟩ := h
  obtain ⟨cs, hcs⟩ := exists_of_isLineComment hs
  refine ⟨_, plainWrites_of_commented hsp (readItems_comment hs hread), ?_⟩
  have hne : s.toList ≠ [] := by simp [hcs]
  have hpush (i : Nat) : plainWrites sp i (.push (.token .commentSingle) :: .text s :: after) =
      plainWrites sp i (.text s :: after) := rfl
  rw [toList_renderItems_append, toList_renderItems_append, hpush, plainWrites_text hne,
    plainWrites_text hne]
  simp [plainWrites]

/-- The text up to a line comment does not end with a line break. -/
theorem getLast?_renderItems_comment (sp : Spelling) (before : List Item) {s : String}
    (hs : isLineComment s = true) :
    (renderItems sp (before ++ [Item.text s])).toList.getLast? ≠ some '\n' := by
  obtain ⟨cs, hcs⟩ := exists_of_isLineComment hs
  have hbreaks : '\n' ∉ s.toList := by
    rw [isLineComment, Bool.and_eq_true, breaks] at hs
    simpa using hs.2
  intro hlast
  refine hbreaks (List.mem_of_getLast? ?_)
  rw [toList_renderItems_append, plainWrites_text (by simp [hcs])] at hlast
  simpa [plainWrites, List.getLast?_append, hcs] using hlast

end Typeset
