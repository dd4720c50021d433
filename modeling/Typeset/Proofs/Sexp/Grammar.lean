import Typeset.Tree.Sexp.Reader

/-!
# The grammar of printed trees

The grammar of printed trees is stated over their tokens, apart from any reading:

* a node is a parenthesis around its kind, an optional span and its items;
* an item is a node, or an atom, a colon and a node that fills the field of that name;
* a span is two positions with a dash between them, a position a row and a column in brackets.

Two parts of a node depend on the token that follows: the kind of a missing node takes in a
name that comes next, and a span is there exactly when a bracket comes next. The text of a
node with a span is the stretch of the source at the span.

The parts in front of the items are read one after the other without recursion, and what is
read for each of them is what its tokens spell.

## Main definitions

* `Sexp.IsNode`, `Sexp.IsItems` : the trees, and the lists of trees, that tokens spell.
* `Sexp.SpansNonneg` : no span among some tokens has a negative row or column.

## Main results

* `Sexp.readHead_eq_ok_iff` : what is read in front of the items.
* `Sexp.nodeText_eq_ok_iff` : the text that is found for a node.
-/

namespace Typeset.Sexp

open Text

/-! ### The grammar -/

/-- The tokens of a position. -/
inductive IsPosition : List Token → Position → Prop
  | mk {a b : Token} {s t : String} {row column : Int} (ha : a.name? = some s)
      (hrow : readInt? s = some row) (hb : b.name? = some t)
      (hcolumn : readInt? t = some column) :
      IsPosition [.punct '[', a, .punct ',', b, .punct ']'] ⟨row, column⟩

/-- The tokens of a span. -/
inductive IsSpan : List Token → Span → Prop
  | mk {ts us : List Token} {start stop : Position} (hstart : IsPosition ts start)
      (hstop : IsPosition us stop) : IsSpan (ts ++ .punct '-' :: us) ⟨start, stop⟩

/-- The tokens of a kind before a token. A missing node takes in a name that comes next. -/
inductive IsKind (next : Option Token) : List Token → String → Prop
  | name {t : Token} {s : String} (ht : t.name? = some s)
      (hnext : s = "MISSING" → next.bind Token.name? = none) : IsKind next [t] s
  | missing {t u : Token} {s : String} (ht : t.name? = some "MISSING")
      (hu : u.name? = some s) : IsKind next [t, u] ("MISSING " ++ s)

/-- The tokens of a span that may be left out, before a token. It is there exactly when a
bracket comes next. -/
inductive IsSpan? (next : Option Token) : List Token → Option Span → Prop
  | absent (hnext : next ≠ some (.punct '[')) : IsSpan? next [] none
  | present {ts : List Token} {span : Span} (h : IsSpan ts span) : IsSpan? next ts (some span)

/-- The text of a node over the lines of a source: the stretch at its span. -/
def IsText (lines : List (List Char)) : Option Span → Option String → Prop
  | none, text => text = none
  | some span, text => ∃ cs, span.extract lines = some cs ∧ text = some (String.ofList cs)

mutual

/-- The tokens of a tree that fills a field. -/
inductive IsNode (lines : List (List Char)) : Option String → List Token → Node → Prop
  | mk {field : Option String} {kindTokens spanTokens itemTokens : List Token} {kind : String}
      {span : Option Span} {children : List Node} {text : Option String}
      (hkind : IsKind (spanTokens ++ (itemTokens ++ [Token.punct ')'])).head? kindTokens kind)
      (hspan : IsSpan? (itemTokens ++ [Token.punct ')']).head? spanTokens span)
      (hitems : IsItems lines itemTokens children) (htext : IsText lines span text) :
      IsNode lines field
        (.punct '(' :: (kindTokens ++ (spanTokens ++ (itemTokens ++ [.punct ')']))))
        ⟨kind, children, text, span, field⟩

/-- The tokens of trees one after the other, each after the name of its field if it fills
one. -/
inductive IsItems (lines : List (List Char)) : List Token → List Node → Prop
  | nil : IsItems lines [] []
  | node {ts us : List Token} {n : Node} {ns : List Node} (h : IsNode lines none ts n)
      (hs : IsItems lines us ns) : IsItems lines (ts ++ us) (n :: ns)
  | field {name : String} {ts us : List Token} {n : Node} {ns : List Node}
      (h : IsNode lines (some name) ts n) (hs : IsItems lines us ns) :
      IsItems lines (.atom name :: .punct ':' :: (ts ++ us)) (n :: ns)

end

/-- The rows and columns of a span are not negative. -/
def IsNonneg (span : Span) : Prop :=
  0 ≤ span.start.row ∧ 0 ≤ span.start.column ∧ 0 ≤ span.stop.row ∧ 0 ≤ span.stop.column

/-- No span among the tokens has a negative row or column. -/
def SpansNonneg (ts : List Token) : Prop := ∀ us span, us <:+: ts → IsSpan us span → IsNonneg span

/-- The tokens of lexemes. -/
def tokensOf (ls : List Lexeme) : List Token := ls.map (·.token)

@[simp]
theorem tokensOf_nil : tokensOf [] = [] := rfl

@[simp]
theorem tokensOf_cons (l : Lexeme) (ls : List Lexeme) :
    tokensOf (l :: ls) = l.token :: tokensOf ls := rfl

@[simp]
theorem tokensOf_append (ls rest : List Lexeme) :
    tokensOf (ls ++ rest) = tokensOf ls ++ tokensOf rest := List.map_append

/-- Lexemes whose tokens are divided in two are divided likewise. -/
theorem tokensOf_eq_append {ls : List Lexeme} {ts us : List Token}
    (h : tokensOf ls = ts ++ us) :
    ∃ front rest, ls = front ++ rest ∧ tokensOf front = ts ∧ tokensOf rest = us :=
  List.map_eq_append_iff.mp h

/-- Lexemes with a first token have a first lexeme. -/
theorem tokensOf_eq_cons {ls : List Lexeme} {t : Token} {ts : List Token}
    (h : tokensOf ls = t :: ts) : ∃ o rest, ls = ⟨t, o⟩ :: rest ∧ tokensOf rest = ts := by
  obtain ⟨l, rest, rfl, rfl, rfl⟩ := List.map_eq_cons_iff.mp h
  exact ⟨l.offset, rest, rfl, rfl⟩

/-- What comes first does not depend on what comes after a closing token. -/
theorem head?_closed (ts us : List Token) (t : Token) :
    (ts ++ t :: us).head? = (ts ++ [t]).head? := by
  cases ts <;> rfl

/-- A node starts with a parenthesis. -/
theorem IsNode.exists_parenthesis {lines : List (List Char)} {field : Option String}
    {ts : List Token} {n : Node} (h : IsNode lines field ts n) {ls : List Lexeme}
    (hts : tokensOf ls = ts) : ∃ o rest, ls = ⟨.punct '(', o⟩ :: rest := by
  obtain ⟨⟩ := h
  obtain ⟨o, rest, rfl, -⟩ := tokensOf_eq_cons hts
  exact ⟨o, rest, rfl⟩

variable {input : Input} {ls rest : List Lexeme}

/-! ### Reading the parts of a head -/

theorem expect_eq_ok_iff {c : Char} :
    expect input c ls = .ok rest ↔ ∃ o, ls = ⟨.punct c, o⟩ :: rest := by
  match ls with
  | [] => simp [expect, next, bind, Except.bind]
  | ⟨t, o⟩ :: ls =>
    rw [expect]
    show (if t = .punct c then Except.ok ls else Except.error _) = _ ↔ _
    by_cases ht : t = .punct c
    · simp [ht]
    · simp [ht]

theorem readName_eq_ok_iff {s : String} :
    readName input ls = .ok (s, rest) ↔ ∃ l, ls = l :: rest ∧ l.token.name? = some s := by
  match ls with
  | [] => simp [readName, next, bind, Except.bind]
  | l :: ls =>
    rw [readName, next, ok_bind]
    dsimp only
    cases hname : l.token.name? with
    | none => simp [hname, throw, throwThe, MonadExceptOf.throw]
    | some name =>
      constructor
      · rintro ⟨⟩
        exact ⟨l, rfl, hname⟩
      · rintro ⟨l, ⟨⟩, hl⟩
        rw [Option.some.inj (hname.symm.trans hl)]
        rfl

theorem readInteger_eq_ok_iff {n : Int} :
    readInteger input ls = .ok (n, rest) ↔
      ∃ l s, ls = l :: rest ∧ l.token.name? = some s ∧ readInt? s = some n := by
  rw [readInteger, bind_eq_ok_iff]
  constructor
  · rintro ⟨⟨s, rest'⟩, hname, h⟩
    obtain ⟨l, rfl, hl⟩ := readName_eq_ok_iff.mp hname
    cases hn : readInt? s with
    | none => simp [hn, throw, throwThe, MonadExceptOf.throw] at h
    | some m =>
      simp only [hn] at h
      cases h
      exact ⟨l, s, rfl, hl, hn⟩
  · rintro ⟨l, s, rfl, hl, hn⟩
    exact ⟨(s, rest), readName_eq_ok_iff.mpr ⟨l, rfl, hl⟩, by simp only [hn]; rfl⟩

theorem readPosition_eq_ok_iff {p : Position} :
    readPosition input ls = .ok (p, rest) ↔
      ∃ front, ls = front ++ rest ∧ IsPosition (tokensOf front) p := by
  simp only [readPosition, bind_eq_ok_iff, Prod.exists]
  constructor
  · rintro ⟨ls₁, h₁, row, ls₂, h₂, ls₃, h₃, column, ls₄, h₄, ls₅, h₅, h⟩
    cases h
    obtain ⟨o₁, rfl⟩ := expect_eq_ok_iff.mp h₁
    obtain ⟨a, s, rfl, ha, hrow⟩ := readInteger_eq_ok_iff.mp h₂
    obtain ⟨o₂, rfl⟩ := expect_eq_ok_iff.mp h₃
    obtain ⟨b, t, rfl, hb, hcolumn⟩ := readInteger_eq_ok_iff.mp h₄
    obtain ⟨o₃, rfl⟩ := expect_eq_ok_iff.mp h₅
    exact ⟨[⟨.punct '[', o₁⟩, a, ⟨.punct ',', o₂⟩, b, ⟨.punct ']', o₃⟩], rfl,
      .mk ha hrow hb hcolumn⟩
  · rintro ⟨front, rfl, h⟩
    generalize hts : tokensOf front = ts at h
    obtain ⟨ha, hrow, hb, hcolumn⟩ := h
    obtain ⟨o₁, ls₁, rfl, h₁⟩ := tokensOf_eq_cons hts
    obtain ⟨oa, ls₂, rfl, h₂⟩ := tokensOf_eq_cons h₁
    obtain ⟨o₂, ls₃, rfl, h₃⟩ := tokensOf_eq_cons h₂
    obtain ⟨ob, ls₄, rfl, h₄⟩ := tokensOf_eq_cons h₃
    obtain ⟨o₃, ls₅, rfl, h₅⟩ := tokensOf_eq_cons h₄
    obtain rfl := List.map_eq_nil_iff.mp h₅
    exact ⟨_, expect_eq_ok_iff.mpr ⟨o₁, rfl⟩, _, _,
      readInteger_eq_ok_iff.mpr ⟨_, _, rfl, ha, hrow⟩, _, expect_eq_ok_iff.mpr ⟨o₂, rfl⟩, _, _,
      readInteger_eq_ok_iff.mpr ⟨_, _, rfl, hb, hcolumn⟩, _, expect_eq_ok_iff.mpr ⟨o₃, rfl⟩, rfl⟩

/-- A span starts with a bracket. -/
theorem IsSpan.head?_eq {ts us : List Token} {span : Span} (h : IsSpan ts span) :
    (ts ++ us).head? = some (.punct '[') := by
  obtain ⟨⟨⟩, -⟩ := h
  rfl

/-- A span is read where a bracket comes next. -/
theorem readSpan?_of_bracket {ls : List Lexeme}
    (h : (tokensOf ls).head? = some (.punct '[')) :
    readSpan? input ls = (do
      let (start, ls) ← readPosition input ls
      let ls ← expect input '-' ls
      let (stop, ls) ← readPosition input ls
      return (some ⟨start, stop⟩, ls)) := by
  match ls with
  | [] => simp at h
  | ⟨t, o⟩ :: ls =>
    obtain rfl : t = .punct '[' := by simpa using h
    rfl

/-- No span is read where no bracket comes next. -/
theorem readSpan?_of_no_bracket {ls : List Lexeme}
    (h : (tokensOf ls).head? ≠ some (.punct '[')) : readSpan? input ls = .ok (none, ls) := by
  rw [readSpan?.eq_def]
  split
  · simp at h
  · rfl

theorem readSpan?_eq_ok_iff {span : Option Span} :
    readSpan? input ls = .ok (span, rest) ↔
      ∃ front, ls = front ++ rest ∧ IsSpan? (tokensOf rest).head? (tokensOf front) span := by
  constructor
  · intro h
    by_cases hhead : (tokensOf ls).head? = some (.punct '[')
    · simp only [readSpan?_of_bracket hhead, bind_eq_ok_iff, Prod.exists] at h
      obtain ⟨start, ls₁, h₁, ls₂, h₂, stop, ls₃, h₃, h⟩ := h
      cases h
      obtain ⟨front, rfl, hstart⟩ := readPosition_eq_ok_iff.mp h₁
      obtain ⟨o, rfl⟩ := expect_eq_ok_iff.mp h₂
      obtain ⟨back, rfl, hstop⟩ := readPosition_eq_ok_iff.mp h₃
      refine ⟨front ++ ⟨.punct '-', o⟩ :: back, by simp, .present ?_⟩
      rw [tokensOf_append]
      exact .mk hstart hstop
    · rw [readSpan?_of_no_bracket hhead] at h
      cases h
      exact ⟨[], rfl, .absent hhead⟩
  · rintro ⟨front, rfl, h⟩
    generalize hts : tokensOf front = ts at h
    cases h with
    | absent hnext =>
      obtain rfl := List.map_eq_nil_iff.mp hts
      exact readSpan?_of_no_bracket hnext
    | present h =>
      rw [readSpan?_of_bracket (by rw [tokensOf_append, hts]; exact h.head?_eq)]
      obtain ⟨hstart, hstop⟩ := h
      obtain ⟨starts, ls₁, rfl, rfl, h₁⟩ := tokensOf_eq_append hts
      obtain ⟨o, stops, rfl, rfl⟩ := tokensOf_eq_cons h₁
      simp only [bind_eq_ok_iff, Prod.exists]
      exact ⟨_, _, readPosition_eq_ok_iff.mpr ⟨starts, List.append_assoc .., hstart⟩, _,
        expect_eq_ok_iff.mpr ⟨o, rfl⟩, _, _, readPosition_eq_ok_iff.mpr ⟨stops, rfl, hstop⟩, rfl⟩

/-- What is missing is read after the kind of a missing node if a name comes next. -/
theorem readMissing_eq {kind : String} {ls : List Lexeme} :
    readMissing input kind ls =
      if kind = "MISSING" ∧ ((tokensOf ls).head?.bind Token.name?).isSome then do
        let (name, ls) ← readName input ls
        return ("MISSING " ++ name, ls)
      else .ok (kind, ls) := by
  match ls with
  | [] => simp [readMissing, pure, Except.pure]
  | l :: ls =>
    rw [readMissing]
    by_cases h : kind = "MISSING" ∧ l.token.name?.isSome
    · rw [if_pos (by simpa using h), if_pos (by simpa using h)]
    · rw [if_neg (by simpa using h), if_neg (by simpa using h)]
      rfl

/-- A name, with what is missing after it, is read as the kind that it spells. -/
theorem readKind_eq_ok_iff {kind : String} :
    (∃ name ls', readName input ls = .ok (name, ls') ∧
        readMissing input name ls' = .ok (kind, rest)) ↔
      ∃ front, ls = front ++ rest ∧ IsKind (tokensOf rest).head? (tokensOf front) kind := by
  simp only [readName_eq_ok_iff, readMissing_eq]
  constructor
  · rintro ⟨name, ls₁, ⟨t, rfl, ht⟩, h⟩
    split at h
    · next hnext =>
      simp only [bind_eq_ok_iff, Prod.exists, readName_eq_ok_iff] at h
      obtain ⟨s, ls₂, ⟨u, rfl, hu⟩, h⟩ := h
      cases h
      exact ⟨[t, u], rfl, .missing (hnext.1 ▸ ht) hu⟩
    · next hnext =>
      cases h
      exact ⟨[t], rfl, .name ht fun hkind => by simpa [hkind] using hnext⟩
  · rintro ⟨front, rfl, h⟩
    generalize hts : tokensOf front = ts at h
    cases h with
    | name ht hnext =>
      obtain ⟨o, ls₁, rfl, h₁⟩ := tokensOf_eq_cons hts
      obtain rfl := List.map_eq_nil_iff.mp h₁
      refine ⟨kind, rest, ⟨_, rfl, ht⟩, if_neg fun h => ?_⟩
      rw [hnext h.1] at h
      exact absurd h.2 (by simp)
    | missing ht hu =>
      obtain ⟨o₁, ls₁, rfl, h₁⟩ := tokensOf_eq_cons hts
      obtain ⟨o₂, ls₂, rfl, h₂⟩ := tokensOf_eq_cons h₁
      obtain rfl := List.map_eq_nil_iff.mp h₂
      refine ⟨"MISSING", _, ⟨_, rfl, ht⟩, ?_⟩
      rw [if_pos ⟨rfl, by simp [hu]⟩]
      simp only [bind_eq_ok_iff, Prod.exists, readName_eq_ok_iff]
      exact ⟨_, _, ⟨_, rfl, hu⟩, rfl⟩

theorem readHead_eq_ok_iff {kind : String} {span : Option Span} :
    readHead input ls = .ok ((kind, span), rest) ↔
      ∃ o kindLs spanLs, ls = ⟨.punct '(', o⟩ :: (kindLs ++ (spanLs ++ rest)) ∧
        IsKind (tokensOf (spanLs ++ rest)).head? (tokensOf kindLs) kind ∧
        IsSpan? (tokensOf rest).head? (tokensOf spanLs) span := by
  simp only [readHead, bind_eq_ok_iff, Prod.exists]
  constructor
  · rintro ⟨ls₁, h₁, name, ls₂, h₂, kind', ls₃, h₃, span', ls₄, h₄, h⟩
    cases h
    obtain ⟨o, rfl⟩ := expect_eq_ok_iff.mp h₁
    obtain ⟨spanLs, rfl, hspan⟩ := readSpan?_eq_ok_iff.mp h₄
    obtain ⟨kindLs, rfl, hk⟩ := readKind_eq_ok_iff.mp ⟨name, ls₂, h₂, h₃⟩
    exact ⟨o, kindLs, spanLs, rfl, hk, hspan⟩
  · rintro ⟨o, kindLs, spanLs, rfl, hk, hspan⟩
    obtain ⟨name, ls₂, h₂, h₃⟩ := readKind_eq_ok_iff.mpr ⟨kindLs, rfl, hk⟩
    exact ⟨_, expect_eq_ok_iff.mpr ⟨o, rfl⟩, name, ls₂, h₂, kind, _, h₃, span, rest,
      readSpan?_eq_ok_iff.mpr ⟨spanLs, rfl, hspan⟩, rfl⟩

theorem nodeText_eq_ok_iff {span : Option Span} {text : Option String} :
    nodeText input span = .ok text ↔ IsText input.lines span text := by
  cases span with
  | none =>
    show Except.ok none = Except.ok text ↔ text = none
    rw [Except.ok.injEq, eq_comm]
  | some span =>
    rw [nodeText]
    cases hcs : span.extract input.lines with
    | none => simp [IsText, hcs, throw, throwThe, MonadExceptOf.throw]
    | some cs =>
      show Except.ok (some (String.ofList cs)) = Except.ok text ↔ _
      simp [IsText, hcs, eq_comm]

/-- Spans have no negative numbers where no token spells one. -/
theorem spansNonneg_of_all {ts : List Token}
    (h : ts.all fun t => (t.name?.bind readInt?).all (0 ≤ ·)) : SpansNonneg ts := by
  have hname {t : Token} {s : String} {n : Int} (ht : t ∈ ts) (hs : t.name? = some s)
      (hn : readInt? s = some n) : 0 ≤ n := by
    have := List.all_eq_true.mp h t ht
    simpa [hs, hn] using this
  intro us span hus hspan
  have hmem := hus.subset
  obtain ⟨⟨ha, hrow, hb, hcolumn⟩, ⟨ha', hrow', hb', hcolumn'⟩⟩ := hspan
  exact ⟨hname (hmem (by simp)) ha hrow, hname (hmem (by simp)) hb hcolumn,
    hname (hmem (by simp)) ha' hrow', hname (hmem (by simp)) hb' hcolumn'⟩

end Typeset.Sexp
