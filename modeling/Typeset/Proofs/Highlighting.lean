import Typeset.Job
import Typeset.Proofs.LayoutSoundness

/-!
# Highlighted and plain text

Highlighted rendering writes what plain rendering writes, with escape codes in between. It
keeps a stack of codes that grows where a token begins and shrinks where one ends. The stack
never runs empty too early, since the layout of a document is balanced: every mark that begins
ends again, after whatever began inside of it. So the code written last is, wherever a text
is written, that of the innermost token around the text, and in the end all looks are reset.
What the codes are is left open. Where those of token classes start from a reset, every code that
is written does, and what it shows does not depend on the codes before it.

A fragment is inside of the marks that have begun before it and have not ended; by the streams
that a document admits, these are the annotations around it in the document.

## Main definitions

* `Balanced` : streams in which every mark that begins ends again.
* `Opens` : the marks that have begun in a stream and have not ended.
* `Write.text?`, `lastCode` : what is written beside the codes, and the last code.
* `InColour` : the last code is that of the given look, or none counts.
* `Writes` : what both kinds of rendering write for the front of a stream.
* `Palette.HasCodes` : the tokens of a stream have codes.
* `IsColoured` : the texts of a stream are in the colours of its tokens.

## Main results

* `Admits.balanced` : what a document admits is balanced.
* `Balanced.writes`, `Opens.writes` : the effect of balanced items, and of any front of them.
* `code_of_mem_highlightedWrites` : what holds of all codes of a palette holds of those written.
* `highlight_agrees_with_render` : highlighted and plain text agree.
-/

namespace Typeset

/-! ### Balanced streams -/

/-- A stream in which every mark that begins ends again. -/
inductive Balanced : List Item → Prop
  | nil : Balanced []
  | text (s : String) {items : List Item} (h : Balanced items) : Balanced (.text s :: items)
  | line (level : Nat) {items : List Item} (h : Balanced items) :
      Balanced (.line level :: items)
  | marked (a : Mark) {inner items : List Item} (hinner : Balanced inner) (h : Balanced items) :
      Balanced (.push a :: (inner ++ .pop a :: items))

/-- The marks that have begun in a stream and have not ended, the innermost one first. -/
inductive Opens : List Item → List Mark → Prop
  | none {items : List Item} (h : Balanced items) : Opens items []
  | mark {before inner : List Item} {a : Mark} {marks : List Mark} (h : Opens before marks)
      (hinner : Balanced inner) : Opens (before ++ .push a :: inner) (a :: marks)

theorem Balanced.append {xs ys : List Item} (hx : Balanced xs) (hy : Balanced ys) :
    Balanced (xs ++ ys) := by
  induction hx with
  | nil => exact hy
  | text s _ ih => exact .text s ih
  | line level _ ih => exact .line level ih
  | marked a hinner _ _ ih =>
    rw [List.cons_append, List.append_assoc]
    exact .marked a hinner ih

theorem Opens.append {xs ys : List Item} {marks : List Mark} (hx : Balanced xs)
    (hy : Opens ys marks) : Opens (xs ++ ys) marks := by
  induction hy with
  | none hy => exact .none (hx.append hy)
  | mark _ hinner ih =>
    rw [← List.append_assoc]
    exact .mark ih hinner

/-- A mark in front of everything else is the outermost one. -/
theorem Opens.cons_push (a : Mark) {ys : List Item} {marks : List Mark} (hy : Opens ys marks) :
    Opens (.push a :: ys) (marks ++ [a]) := by
  induction hy with
  | none hy => exact .mark (.none .nil) hy
  | mark _ hinner ih => exact .mark ih hinner

/-- Every front of a balanced stream has its open marks. -/
theorem Balanced.exists_opens {items : List Item} (h : Balanced items) {before after : List Item}
    (heq : items = before ++ after) : ∃ marks, Opens before marks := by
  induction h generalizing before after with
  | nil =>
    obtain ⟨rfl, -⟩ := List.append_eq_nil_iff.mp heq.symm
    exact ⟨[], .none .nil⟩
  | text s _ ih =>
    obtain ⟨rfl, -⟩ | ⟨front, rfl, hfront⟩ := List.cons_eq_append_iff.mp heq
    · exact ⟨[], .none .nil⟩
    · obtain ⟨marks, hmarks⟩ := ih hfront
      exact ⟨marks, .append (.text s .nil) hmarks⟩
  | line level _ ih =>
    obtain ⟨rfl, -⟩ | ⟨front, rfl, hfront⟩ := List.cons_eq_append_iff.mp heq
    · exact ⟨[], .none .nil⟩
    · obtain ⟨marks, hmarks⟩ := ih hfront
      exact ⟨marks, .append (.line level .nil) hmarks⟩
  | marked a hinner _ ihinner ih =>
    obtain ⟨rfl, -⟩ | ⟨front, rfl, hfront⟩ := List.cons_eq_append_iff.mp heq
    · exact ⟨[], .none .nil⟩
    -- the front ends after the mark or inside of it
    obtain ⟨rest, rfl, hrest⟩ | ⟨rest, hrest, -⟩ := List.append_eq_append_iff.mp hfront
    · obtain ⟨rfl, -⟩ | ⟨rest', rfl, hrest'⟩ := List.cons_eq_append_iff.mp hrest
      · rw [List.append_nil]
        exact ⟨[a], .mark (.none .nil) hinner⟩
      · obtain ⟨marks, hmarks⟩ := ih hrest'
        refine ⟨marks, ?_⟩
        simpa using Opens.append (.marked a hinner .nil) hmarks
    · obtain ⟨marks, hmarks⟩ := ihinner hrest
      exact ⟨marks ++ [a], hmarks.cons_push a⟩

private theorem balanced_textItems (s : String) : Balanced (textItems s) := by
  rw [textItems]
  split
  · exact .nil
  · exact .text s .nil

private theorem balanced_lineItems (i : Nat) (m : Mode) (k : LineKind) :
    Balanced (lineItems i m k) := by
  cases m <;> cases k <;> constructor <;> exact .nil

mutual

/-- What a document admits is balanced. -/
theorem Admits.balanced {i : Nat} {m : Mode} {d : Doc} {items : List Item}
    (h : Admits i m d items) : Balanced items := by
  match h with
  | .nil .. => exact .nil
  | .lit _ _ s | .text _ _ s => exact balanced_textItems s
  | .line i m k => exact balanced_lineItems i _ k
  | .annotated h =>
    rw [List.cons_append]
    exact .marked _ h.balanced .nil
  | .concat h | .fill h => exact h.balanced
  | .indent h | .alwaysBreak h | .forcedGroup h | .group h | .flatGroup _ h
  | .flatCandidate _ _ h | .candidate _ _ h | .fallback _ h => exact h.balanced

/-- What documents admit one after the other is balanced. -/
theorem AdmitsEach.balanced {i : Nat} {ms : List Mode} {ds : List Doc} {items : List Item}
    (h : AdmitsEach i ms ds items) : Balanced items := by
  match h with
  | .nil .. => exact .nil
  | .cons _ h hs => exact h.balanced.append hs.balanced

end

/-! ### Writes -/

/-- The token class of a mark, if it has one. -/
def Mark.token? : Mark → Option TokenClass
  | token c => some c
  | label _ => none

/-- The text that is written, if it is no code. -/
def Write.text? : Write → Option String
  | text s => some s
  | code _ => none

/-- The code that is written, if it is one. -/
def Write.code? : Write → Option String
  | text _ => none
  | code s => some s

/-- The last code among some writes. -/
def lastCode (ws : List Write) : Option String := (ws.filterMap Write.code?).getLast?

theorem lastCode_append (xs ys : List Write) :
    lastCode (xs ++ ys) = (lastCode ys).or (lastCode xs) := by
  rw [lastCode, List.filterMap_append, List.getLast?_append, lastCode, lastCode]

/-- The code written last is that of a look; where there is none, it is a reset or no code was
written. -/
def InColour (reset : String) : Option String → Option String → Prop
  | some code, last => last = some code
  | none, last => last = none ∨ last = some reset

section Writes

variable {p : Palette} {sp : Spelling} {opened opened' opened'' : List String}
  {pending pending' pending'' : Nat} {items items' : List Item} {ws ws' : List Write}

/-- What is written for the items at the front of a stream: highlighted rendering writes `ws`,
of which plain rendering writes the texts, and the last code stays that of the innermost part
that has begun. -/
structure Writes (p : Palette) (sp : Spelling) (opened : List String) (pending : Nat)
    (items : List Item) (ws : List Write) (opened' : List String) (pending' : Nat) : Prop where
  /-- The writes of highlighted rendering. -/
  highlighted : ∀ rest, highlightedWrites p sp opened pending (items ++ rest) =
    (highlightedWrites p sp opened' pending' rest).map (ws ++ ·)
  /-- The writes of plain rendering. -/
  plain : ∀ rest, plainWrites sp pending (items ++ rest) =
    ws.filterMap Write.text? ++ plainWrites sp pending' rest
  /-- The last code is kept up. -/
  inColour : ∀ last, InColour p.reset opened.head? last →
    InColour p.reset opened'.head? ((lastCode ws).or last)

namespace Writes

theorem nil : Writes p sp opened pending [] [] opened pending where
  highlighted rest := by
    cases h : highlightedWrites p sp opened pending rest <;> simp [h, Except.map]
  plain _ := rfl
  inColour _ h := h

theorem append (h : Writes p sp opened pending items ws opened' pending')
    (h' : Writes p sp opened' pending' items' ws' opened'' pending'') :
    Writes p sp opened pending (items ++ items') (ws ++ ws') opened'' pending'' where
  highlighted rest := by
    rw [List.append_assoc, h.highlighted, h'.highlighted]
    cases highlightedWrites p sp opened'' pending'' rest <;> simp [Except.map]
  plain rest := by
    rw [List.append_assoc, h.plain, h'.plain, List.filterMap_append, List.append_assoc]
  inColour last hlast := by
    rw [lastCode_append, Option.or_assoc]
    exact h'.inColour _ (h.inColour _ hlast)

/-- A step of both kinds of rendering. -/
theorem of_step (hhighlighted : ∀ rest, highlightedWrites p sp opened pending (items ++ rest) =
      (do return ws ++ (← highlightedWrites p sp opened' pending' rest)))
    (hplain : ∀ rest, plainWrites sp pending (items ++ rest) =
      ws.filterMap Write.text? ++ plainWrites sp pending' rest)
    (hlast : ∀ last, InColour p.reset opened.head? last →
      InColour p.reset opened'.head? ((lastCode ws).or last)) :
    Writes p sp opened pending items ws opened' pending' where
  highlighted rest := by
    rw [hhighlighted]
    cases highlightedWrites p sp opened' pending' rest <;> rfl
  plain := hplain
  inColour := hlast

/-- A step that writes nothing. -/
theorem of_silent (hhighlighted : ∀ rest, highlightedWrites p sp opened pending (items ++ rest) =
      highlightedWrites p sp opened pending rest)
    (hplain : ∀ rest, plainWrites sp pending (items ++ rest) = plainWrites sp pending rest) :
    Writes p sp opened pending items [] opened pending where
  highlighted rest := (hhighlighted rest).trans (nil.highlighted rest)
  plain := hplain
  inColour _ h := h

theorem text_empty {s : String} (hs : s.isEmpty = true) :
    Writes p sp opened pending [.text s] [] opened pending :=
  .of_silent (fun _ => if_pos hs) fun _ => if_pos hs

theorem text {s : String} (hs : s.isEmpty = false) :
    Writes p sp opened pending [.text s] [.text (sp.indentation pending), .text s] opened 0 := by
  refine .of_step (fun rest => ?_) (fun rest => ?_) fun _ h => h
  · exact if_neg (by simp [hs])
  · exact if_neg (by simp [hs])

theorem line (level : Nat) :
    Writes p sp opened pending [.line level] [.text sp.newline] opened level :=
  .of_step (fun _ => rfl) (fun _ => rfl) fun _ h => h

theorem push_token {c : TokenClass} {code : String} (hcode : p.code c = .ok code) :
    Writes p sp opened pending [.push (.token c)] [.code code] (code :: opened) pending := by
  refine .of_step (fun rest => ?_) (fun _ => rfl) fun _ _ => rfl
  show (p.code c >>= _) = _
  rw [hcode]
  rfl

theorem pop_token (c : TokenClass) (code : String) :
    Writes p sp (code :: opened) pending [.pop (.token c)] [.code (opened.headD p.reset)] opened
      pending := by
  refine .of_step (fun _ => rfl) (fun _ => rfl) fun _ _ => ?_
  cases opened with
  | nil => exact .inr rfl
  | cons code opened => rfl

theorem push_label (s : String) :
    Writes p sp opened pending [.push (.label s)] [] opened pending :=
  .of_silent (fun _ => rfl) fun _ => rfl

theorem pop_label (s : String) :
    Writes p sp opened pending [.pop (.label s)] [] opened pending :=
  .of_silent (fun _ => rfl) fun _ => rfl

end Writes

variable {colour : TokenClass → String}

/-- Every token that begins in a stream has its code. -/
def Palette.HasCodes (p : Palette) (colour : TokenClass → String) (items : List Item) : Prop :=
  ∀ c, .push (.token c) ∈ items → p.code c = .ok (colour c)

theorem Palette.hasCodes_append : p.HasCodes colour (items ++ items') ↔
    p.HasCodes colour items ∧ p.HasCodes colour items' := by
  simp [HasCodes, or_imp, forall_and]

theorem Palette.hasCodes_cons {item : Item} : p.HasCodes colour (item :: items) ↔
    p.HasCodes colour [item] ∧ p.HasCodes colour items := by
  rw [← List.singleton_append, hasCodes_append]

/-- The codes of the marks that are tokens. -/
def codesOf (colour : TokenClass → String) (marks : List Mark) : List String :=
  (marks.filterMap Mark.token?).map colour

theorem head?_codesOf (marks : List Mark) :
    (codesOf colour marks).head? = (marks.findSome? Mark.token?).map colour := by
  rw [codesOf, List.head?_map, List.head?_filterMap]

/-- Where a mark begins, its code is pushed if it is a token. -/
theorem exists_writes_push {a : Mark} (hcolour : p.HasCodes colour [.push a]) :
    ∃ ws, Writes p sp opened pending [.push a] ws (codesOf colour [a] ++ opened) pending := by
  cases a with
  | token c => exact ⟨_, .push_token (hcolour c List.mem_cons_self)⟩
  | label s => exact ⟨_, .push_label s⟩

/-- Where a mark ends, its code is popped if it is a token. -/
theorem exists_writes_pop (a : Mark) :
    ∃ ws, Writes p sp (codesOf colour [a] ++ opened) pending [.pop a] ws opened pending := by
  cases a with
  | token c => exact ⟨_, .pop_token c _⟩
  | label s => exact ⟨_, .pop_label s⟩

/-- Balanced items leave the stack of codes as it was. -/
theorem Balanced.writes (h : Balanced items) (hcolour : p.HasCodes colour items)
    (sp : Spelling) (opened : List String) (pending : Nat) :
    ∃ ws pending', Writes p sp opened pending items ws opened pending' := by
  induction h generalizing opened pending with
  | nil => exact ⟨_, _, .nil⟩
  | text s _ ih =>
    have hrest := ih (Palette.hasCodes_cons.mp hcolour).2
    cases hs : s.isEmpty with
    | true =>
      obtain ⟨ws, pending', hw⟩ := hrest opened pending
      exact ⟨_, _, (Writes.text_empty hs).append hw⟩
    | false =>
      obtain ⟨ws, pending', hw⟩ := hrest opened 0
      exact ⟨_, _, (Writes.text hs).append hw⟩
  | line level _ ih =>
    obtain ⟨ws, pending', hw⟩ := ih (Palette.hasCodes_cons.mp hcolour).2 opened level
    exact ⟨_, _, (Writes.line level).append hw⟩
  | marked a _ _ ihinner ih =>
    obtain ⟨hpush, hmarked⟩ := Palette.hasCodes_cons.mp hcolour
    obtain ⟨hinner, hpop⟩ := Palette.hasCodes_append.mp hmarked
    obtain ⟨ws₁, h₁⟩ := exists_writes_push hpush
    obtain ⟨ws₂, pending₂, h₂⟩ := ihinner hinner _ pending
    obtain ⟨ws₃, h₃⟩ := exists_writes_pop a
    obtain ⟨ws₄, pending₄, h₄⟩ := ih (Palette.hasCodes_cons.mp hpop).2 opened pending₂
    have hw := h₁.append (h₂.append (h₃.append h₄))
    exact ⟨_, _, hw⟩

/-- After the front of a balanced stream the stack holds the codes of its open marks. -/
theorem Opens.writes {marks : List Mark} (h : Opens items marks)
    (hcolour : p.HasCodes colour items) (sp : Spelling) :
    ∃ ws pending', Writes p sp [] 0 items ws (codesOf colour marks) pending' := by
  induction h with
  | none h => exact h.writes hcolour sp [] 0
  | @mark before inner a marks _ hinner ih =>
    obtain ⟨hbefore, hmark⟩ := Palette.hasCodes_append.mp hcolour
    obtain ⟨hpush, hcodes⟩ := Palette.hasCodes_cons.mp hmark
    obtain ⟨ws₁, pending₁, h₁⟩ := ih hbefore
    obtain ⟨ws₂, h₂⟩ := exists_writes_push hpush
    obtain ⟨ws₃, pending₃, h₃⟩ :=
      hinner.writes hcodes sp (codesOf colour [a] ++ codesOf colour marks) pending₁
    have hw := h₁.append (h₂.append h₃)
    have hcons : codesOf colour [a] ++ codesOf colour marks = codesOf colour (a :: marks) := by
      rw [codesOf, codesOf, ← List.map_append, ← List.filterMap_append, codesOf]
      rfl
    rw [hcons] at hw
    exact ⟨_, _, hw⟩

/-- What holds of the reset, of the codes of token classes and of those of the parts that have
begun, holds of every code that is written. -/
theorem code_of_mem_highlightedWrites {P : String → Prop} (hreset : P p.reset)
    (hcode : ∀ c code, p.code c = .ok code → P code) (hopened : ∀ code ∈ opened, P code)
    (h : highlightedWrites p sp opened pending items = .ok ws) :
    ∀ code, .code code ∈ ws → P code := by
  induction items generalizing opened pending ws with
  | nil =>
    cases h
    cases opened <;> simp [hreset]
  | cons item items ih =>
    cases item with
    | text s =>
      rw [highlightedWrites] at h
      split at h
      · exact ih hopened h
      · obtain ⟨rest, hrest, hws⟩ := bind_eq_ok_iff.mp h
        cases hws
        simpa using ih hopened hrest
    | line level =>
      obtain ⟨rest, hrest, hws⟩ := bind_eq_ok_iff.mp h
      cases hws
      simpa using ih hopened hrest
    | push a =>
      cases a with
      | label s => exact ih hopened h
      | token c =>
        obtain ⟨code, hc, h⟩ := bind_eq_ok_iff.mp h
        obtain ⟨rest, hrest, hws⟩ := bind_eq_ok_iff.mp h
        cases hws
        have hpush := hcode c code hc
        simpa [hpush] using ih (by simpa [hpush] using hopened) hrest
    | pop a =>
      cases a with
      | label s => exact ih hopened h
      | token c =>
        cases opened with
        | nil => cases h
        | cons code outer =>
          obtain ⟨rest, hrest, hws⟩ := bind_eq_ok_iff.mp h
          cases hws
          have houter : ∀ code ∈ outer, P code := fun code hmem =>
            hopened code (List.mem_cons_of_mem _ hmem)
          have hpop : P (outer.headD p.reset) := by
            cases outer with
            | nil => exact hreset
            | cons code outer => exact houter code List.mem_cons_self
          simpa using And.intro hpop (ih houter hrest)

end Writes

/-! ### Coloured streams -/

/-- The writes for a stream are coloured by its tokens: every text that is not empty is written
after the texts of all that stands before it, while the last code is that of the innermost token
around it, and the last code of all is a reset. -/
structure IsColoured (p : Palette) (colour : TokenClass → String) (sp : Spelling)
    (items : List Item) (writes : List Write) : Prop where
  /-- Each text in the colour of the innermost token around it. -/
  fragment : ∀ before s after, items = before ++ .text s :: after → s ≠ "" →
    ∃ marks level shown rest, Opens before marks ∧ writes = shown ++ .text s :: rest ∧
      shown.filterMap Write.text? = plainWrites sp 0 before ++ [sp.indentation level] ∧
      InColour p.reset ((marks.findSome? Mark.token?).map colour) (lastCode shown)
  /-- The last code is a reset. -/
  reset : (∃ code, .code code ∈ writes) → lastCode writes = some p.reset

theorem lastCode_eq_none {ws : List Write} (h : lastCode ws = none) (code : String) :
    .code code ∉ ws := by
  intro hmem
  rw [lastCode, List.getLast?_eq_none_iff] at h
  have hcode : code ∈ ws.filterMap Write.code? := List.mem_filterMap.mpr ⟨_, hmem, rfl⟩
  rw [h] at hcode
  cases hcode

/-- A balanced stream is highlighted, the texts are those of plain rendering, and they are
coloured by the tokens around them. -/
theorem Balanced.exists_highlightedWrites {p : Palette} {sp : Spelling}
    {colour : TokenClass → String} {items : List Item}
    (h : Balanced items) (hcolour : p.HasCodes colour items) :
    ∃ writes, highlightedWrites p sp [] 0 items = .ok writes ∧
      writes.filterMap Write.text? = plainWrites sp 0 items ∧
      IsColoured p colour sp items writes := by
  obtain ⟨writes, pending, hw⟩ := h.writes hcolour sp [] 0
  have hhighlighted : highlightedWrites p sp [] 0 items = .ok writes := by
    simpa [highlightedWrites, Except.map, pure, Except.pure] using hw.highlighted []
  have hplain : writes.filterMap Write.text? = plainWrites sp 0 items := by
    simpa [plainWrites] using (hw.plain []).symm
  refine ⟨writes, hhighlighted, hplain, ?_, ?_⟩
  · intro before s after heq hs
    obtain ⟨marks, hopens⟩ := h.exists_opens heq
    obtain ⟨front, level, hfront⟩ :=
      hopens.writes (Palette.hasCodes_append.mp (heq ▸ hcolour)).1 sp
    -- the text is written next, whatever comes after it
    have hs : s.isEmpty = false := by simpa using hs
    have hnext := hfront.append (Writes.text hs)
    have hwrites := hnext.highlighted after
    rw [List.append_assoc, List.singleton_append, ← heq, hhighlighted] at hwrites
    obtain ⟨rest, -, rfl⟩ := map_eq_ok_iff.mp hwrites.symm
    have hlast := hfront.inColour none (.inl rfl)
    refine ⟨marks, level, front ++ [.text (sp.indentation level)], rest, hopens, by simp, ?_, ?_⟩
    · simpa [plainWrites, Write.text?] using (hfront.plain []).symm
    · rw [Option.or_none, head?_codesOf] at hlast
      rw [lastCode_append]
      exact hlast
  · rintro ⟨code, hcode⟩
    have hlast := hw.inColour none (.inl rfl)
    rw [Option.or_none] at hlast
    obtain hnone | hreset := hlast
    · exact absurd hcode (lastCode_eq_none hnone code)
    · exact hreset

/-- A layout that was not stopped is its items. -/
theorem eq_of_result_eq_ok {l : Layout} {items : List Item} (h : l.result = .ok items) :
    l = ⟨items, none⟩ := by
  obtain ⟨items', failure⟩ := l
  cases failure with
  | some e => cases h
  | none =>
    cases h
    rfl

/-- A document is highlighted as its stream is. -/
theorem highlightDoc_of_highlightedWrites {o : Options} {p : Palette} {d : Doc}
    {items : List Item} {writes : List Write} (hitems : (layout o.page d).result = .ok items)
    (hwrites : highlightedWrites p o.spelling [] 0 items = .ok writes) :
    highlightDoc o p d = .ok (String.join (writes.map Write.content)) := by
  rw [highlightDoc, eq_of_result_eq_ok hitems, highlightLayout, highlightItems, hwrites]
  rfl

/-- **Highlighted and plain text agree.** Let the style be found, let every token that is laid out
have a code in it, and let codes start from a reset. Then every document of known sorts is
highlighted under all options. Without the codes, what is written is the plain text of the
document; each text that is not empty is written in the colour of the innermost token around it,
and if there are codes at all, the last one is a reset. Since every code that is written starts
from a reset, the colour of a text depends on no code but the last one before it. -/
theorem highlight_agrees_with_render (o : Options) {styles : Catalogue} {palette : Style → Palette}
    {choice : StyleChoice} {style : Style} {colour : TokenClass → String} {d : Doc}
    (hd : d.isKnown = true) (hstyle : choice.resolve styles = .ok style)
    (hcolour : (palette style).HasCodes colour (layout o.page d).items)
    (habsolute : (palette style).IsAbsolute) :
    ∃ items writes,
      (layout o.page d).result = .ok items ∧ Admits 0 .broken d items ∧
      Job.highlight styles palette o [] choice (.doc d) =
        .ok (String.join (writes.map Write.content)) ∧
      (Job.render o [] (.doc d)).outcome = .ok (String.join (writes.filterMap Write.text?)) ∧
      IsColoured (palette style) colour o.spelling items writes ∧
      ∀ code, .code code ∈ writes → ∃ rest, code = (palette style).reset ++ rest := by
  obtain ⟨items, hitems, hprints⟩ := exists_layout_prints o.page hd
  have hadmits := hprints.admits
  rw [eq_of_result_eq_ok hitems] at hcolour
  obtain ⟨writes, hwrites, htexts, hcoloured⟩ :=
    hadmits.balanced.exists_highlightedWrites hcolour
  refine ⟨items, writes, hitems, hadmits, Job.highlight_of_highlightDoc hstyle ?_,
    Job.render_of_renderDoc ?_, hcoloured, ?_⟩
  · exact highlightDoc_of_highlightedWrites hitems hwrites
  · rw [renderDoc, hitems, htexts]
    rfl
  · exact code_of_mem_highlightedWrites ⟨"", by simp⟩ habsolute (by simp) hwrites

/-- A token around a label and another token, over two lines, on a terminal with the two colours
that the style gives them. -/
theorem highlight_agrees_with_render_nested :
    let d : Doc := .annotated (.concat [.lit "if", .annotated (.lit " x") (.label "condition"),
      .line .hard, .annotated (.lit "1") (.token .numberInt), .lit ";"]) (.token .keyword)
    let style : Style := fun scope =>
      if scope = "Keyword" then { color := some "66d9ef" }
      else if scope = "Literal.Number.Integer" then { color := some "ae81ff" }
      else {}
    let styles : Catalogue := fun name => if name = "monokai" then some style else none
    let terminal : Terminal String :=
      { reset := "\x1b[0m"
        named? := fun colors name => do
          let color ← colors.lookup name
          [("66d9ef", "\x1b[38;2;102;217;239m"), ("ae81ff", "\x1b[38;2;174;129;255m")].lookup color
        join := fun a b => a ++ b
        written := fun code => code }
    let colour : TokenClass → String := fun c =>
      if c = .keyword then "\x1b[0m" ++ "\x1b[38;2;102;217;239m"
      else if c = .numberInt then "\x1b[0m" ++ "\x1b[38;2;174;129;255m"
      else "\x1b[0m"
    let palette := terminal.palette
    d.isKnown = true ∧ StyleChoice.unspecified.resolve styles = .ok style ∧
      (palette style).HasCodes colour (layout Options.usual.page d).items ∧
      (palette style).IsAbsolute ∧
      ∃ items writes,
        (layout Options.usual.page d).result = .ok items ∧ Admits 0 .broken d items ∧
        Job.highlight styles palette .usual [] .unspecified (.doc d) =
          .ok (String.join (writes.map Write.content)) ∧
        (Job.render .usual [] (.doc d)).outcome =
          .ok (String.join (writes.filterMap Write.text?)) ∧
        IsColoured (palette style) colour Options.usual.spelling items writes ∧
        ∀ code, .code code ∈ writes → ∃ rest, code = (palette style).reset ++ rest := by
  intro d style styles terminal colour palette
  have hcolour : (palette style).HasCodes colour (layout Options.usual.page d).items :=
    fun c _ => by cases c <;> rfl
  have habsolute : (palette style).IsAbsolute :=
    Terminal.isAbsolute_palette (fun _ _ => rfl) style
  exact ⟨rfl, rfl, hcolour, habsolute,
    highlight_agrees_with_render .usual rfl rfl hcolour habsolute⟩

end Typeset
