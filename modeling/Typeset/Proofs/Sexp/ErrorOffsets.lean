import Mathlib.Control.Monad.Basic
import Typeset.Proofs.Sexp.Lexing
import Typeset.Proofs.Sexp.Reading

/-!
# Where reading fails

A text is read as a tree, or it is refused with an offset in the text, its end included. There is
one gap: the number of a row can be given as a string, and only in this way can it be negative. A
row counts from the end of the source then, and if it comes before the first line there is no text
for the node. Reading fails there without an offset.

## Main definitions

* `Sexp.Lexeme.IsWithin`, `Sexp.EndsWithin` : a lexeme as it comes from a text of some length, and
  what comes of dividing such a text into tokens.
* `Sexp.QuotesLostRow` : a span among some tokens has a row before the first line, in quotes.

## Main results

* `Sexp.endsWithin_lex` : the offsets of tokens, or of the error if there is one.
* `Sexp.HasLostSpan.quotesLostRow` : among the tokens of a text, a span without a stretch has its
  row in quotes.
* `Sexp.read_fails_within` : what can come of reading a text.
-/

namespace Typeset.Sexp

open Text

/-! ### Numbers -/

/-- A negative number is spelled with a dash. -/
theorem mem_toList_of_readInt?_neg {s : String} {n : Int} (h : readInt? s = some n) (hn : n < 0) :
    '-' ∈ s.toList := by
  rw [readInt?] at h
  split at h
  · next cs hinner =>
    have hmem : '-' ∈ ((s.toList.dropWhile isNumberBlank).reverse.dropWhile
        isNumberBlank).reverse := by
      rw [hinner]
      exact List.mem_cons_self
    rw [List.mem_reverse] at hmem
    have hmem := (List.dropWhile_sublist _).subset hmem
    rw [List.mem_reverse] at hmem
    exact (List.dropWhile_sublist _).subset hmem
  all_goals
    obtain ⟨m, -, rfl⟩ := Option.map_eq_some_iff.mp h
    exact absurd hn (Int.not_lt.mpr (Int.natCast_nonneg m))

/-! ### Tokens -/

/-- A lexeme as it comes from a text that ends at `stop`: it starts before the end, and an atom
holds the characters of atoms only. -/
structure Lexeme.IsWithin (stop : Nat) (l : Lexeme) : Prop where
  offset_lt : l.offset < stop
  atom : ∀ s, l.token = .atom s → ∀ c ∈ s.toList, isAtomChar c = true

/-- The lexemes of a text that ends at `stop`, or an error about it. -/
def EndsWithin (stop : Nat) : Except Error (List Lexeme) → Prop
  | .ok ls => ∀ l ∈ ls, l.IsWithin stop
  | .error e => ∃ o, e.offset? = some o ∧ o ≤ stop

theorem EndsWithin.mono {stop stop' : Nat} {x : Except Error (List Lexeme)}
    (h : EndsWithin stop x) (hle : stop ≤ stop') : EndsWithin stop' x := by
  cases x with
  | error e =>
    obtain ⟨o, heq, ho⟩ := h
    exact ⟨o, heq, Nat.le_trans ho hle⟩
  | ok ls => exact fun l hl => ⟨Nat.lt_of_lt_of_le (h l hl).offset_lt hle, (h l hl).atom⟩

/-- A lexeme in front of others. -/
theorem EndsWithin.cons {stop : Nat} {l : Lexeme} {x : Except Error (List Lexeme)}
    (hl : l.IsWithin stop) (h : EndsWithin stop x) :
    EndsWithin stop (do return l :: (← x)) := by
  cases x with
  | error e => exact h
  | ok ls => exact List.forall_mem_cons.mpr ⟨hl, h⟩

/-- The tokens of a text start in it, and so does a string that does not end. -/
theorem endsWithin_lex (offset : Nat) (cs : List Char) :
    EndsWithin (offset + cs.length) (lex offset cs) := by
  fun_induction lex offset cs with
  | case1 offset => exact List.forall_mem_nil _
  | case2 offset c cs hblank ih => exact ih.mono (by simp only [List.length_cons]; omega)
  | case3 offset c cs hblank hpunct ih =>
    refine .cons ⟨?_, nofun⟩ (ih.mono ?_)
    all_goals simp only [List.length_cons]; omega
  | case4 offset cs => exact ⟨offset, rfl, Nat.le_add_right _ _⟩
  | case5 offset cs s rest hscan _ _ ih =>
    refine .cons ⟨?_, nofun⟩ (ih.mono ?_)
    all_goals simp only [scanString_eq_some hscan, List.length_cons, List.length_append]; omega
  | case6 offset c cs hblank hpunct hquote atom ih =>
    have hcs : (cs.takeWhile isAtomChar).length + (cs.dropWhile isAtomChar).length = cs.length := by
      rw [← List.length_append, List.takeWhile_append_dropWhile]
    refine .cons ⟨?_, ?_⟩ (ih.mono ?_)
    · simp
    · rintro _ ⟨⟩ d hd
      rw [String.toList_ofList] at hd
      rcases List.mem_cons.mp hd with rfl | hd
      · simp [isAtomChar, hblank, hpunct, hquote]
      · exact List.all_eq_true.mp List.all_takeWhile d hd
    · simp only [atom, List.length_cons]
      omega

/-! ### Rows before the first line -/

/-- A span among the tokens has a row before the first of `count` lines, and the row is a
string. -/
def QuotesLostRow (count : Nat) (ts : List Token) : Prop :=
  ∃ us span s row, us <:+: ts ∧ IsSpan us span ∧ .string s ∈ us ∧ readInt? s = some row ∧
    (row = span.start.row ∨ row = span.stop.row) ∧ row < -count

/-- A token that spells a negative number is a string. -/
theorem eq_string_of_neg {stop : Nat} {l : Lexeme} (hl : l.IsWithin stop) {s : String} {n : Int}
    (hs : l.token.name? = some s) (hn : readInt? s = some n) (hneg : n < 0) :
    l.token = .string s := by
  cases htoken : l.token with
  | punct c => simp [htoken, Token.name?] at hs
  | string s' => simpa [htoken, Token.name?] using hs
  | atom s' =>
    obtain rfl : s' = s := by simpa [htoken, Token.name?] using hs
    have hdash := hl.atom s' htoken '-' (mem_toList_of_readInt?_neg hn hneg)
    exact absurd hdash (by decide)

/-- A row before the first line is spelled by a string. -/
theorem IsPosition.exists_string {stop : Nat} {ts : List Token} {p : Position}
    (h : IsPosition ts p) (hts : ∀ t ∈ ts, ∃ l : Lexeme, l.token = t ∧ l.IsWithin stop)
    (hneg : p.row < 0) : ∃ s, .string s ∈ ts ∧ readInt? s = some p.row := by
  obtain @⟨a, _, s, _, row, _, ha, hrow, -, -⟩ := h
  obtain ⟨l, rfl, hl⟩ := hts a (by simp)
  exact ⟨s, by simp [eq_string_of_neg hl ha hrow hneg], hrow⟩

/-- Among the tokens of a text, a span without a stretch has a row before the first line, and the
row is a string. -/
theorem HasLostSpan.quotesLostRow {stop : Nat} {lines : List (List Char)} {ls : List Lexeme}
    (hls : ∀ l ∈ ls, l.IsWithin stop) (h : HasLostSpan lines (tokensOf ls)) :
    QuotesLostRow lines.length (tokensOf ls) := by
  obtain ⟨us, span, hus, hspan, hlost⟩ := h
  obtain ⟨-, hrow⟩ := extract_eq_none_iff.mp hlost
  have hmem : ∀ t ∈ us, ∃ l : Lexeme, l.token = t ∧ l.IsWithin stop := by
    intro t ht
    obtain ⟨l, hl, rfl⟩ := List.mem_map.mp (hus.subset ht)
    exact ⟨l, rfl, hls l hl⟩
  have hneg {row : Int} (h : row < -lines.length) : row < 0 := by omega
  obtain ⟨hstart, hstop⟩ := id hspan
  rcases hrow with hrow | hrow
  · obtain ⟨s, hs, hn⟩ := hstart.exists_string
      (fun t ht => hmem t (List.mem_append_left _ ht)) (hneg hrow)
    exact ⟨_, _, s, _, hus, hspan, List.mem_append_left _ hs, hn, .inl rfl, hrow⟩
  · obtain ⟨s, hs, hn⟩ := hstop.exists_string
      (fun t ht => hmem t (List.mem_append_right _ (List.mem_cons_of_mem _ ht))) (hneg hrow)
    exact ⟨_, _, s, _, hus, hspan, List.mem_append_right _ (List.mem_cons_of_mem _ hs), hn,
      .inr rfl, hrow⟩

/-! ### Whole texts -/

/-- **Reading fails with an offset in the text.** Whatever the text and the source are, a tree is
read, or the text is refused with an offset between its start and its end. The one exception is a
span whose row is a string that spells a number before the first line of the source. -/
theorem read_fails_within (s source : String) :
    (∃ n, read s source = .ok n) ∨
      (∃ e o, read s source = .error e ∧ e.offset? = some o ∧ o ≤ s.length) ∨
      read s source = .error .rowOutOfRange ∧
        ∃ ls, tokens s = .ok ls ∧ QuotesLostRow (lines source.toList).length (tokensOf ls) := by
  have hlex : EndsWithin s.length (tokens s) := by
    simpa only [tokens, String.length_toList, Nat.zero_add] using endsWithin_lex 0 s.toList
  cases htokens : tokens s with
  | error e =>
    rw [htokens] at hlex
    obtain ⟨o, heq, ho⟩ := hlex
    exact .inr (.inl ⟨e, o, by rw [read, htokens]; rfl, heq, ho⟩)
  | ok ls =>
    rw [htokens] at hlex
    have hread : read s source = readTree ⟨s.length, lines source.toList⟩ ls := by
      rw [read, htokens]
      rfl
    cases hresult : read s source with
    | ok n => exact .inl ⟨n, rfl⟩
    | error e =>
      obtain ⟨o, ho, heq⟩ | ⟨rfl, hlost⟩ := failsIn_wholeTree e (hread ▸ hresult)
      · refine .inr (.inl ⟨e, o, rfl, heq, ?_⟩)
        rcases List.mem_cons.mp ho with rfl | ho
        · exact Nat.le_refl _
        · obtain ⟨l, hl, rfl⟩ := List.mem_map.mp ho
          exact Nat.le_of_lt (hlex l hl).offset_lt
      · exact .inr (.inr ⟨rfl, ls, rfl, hlost.quotesLostRow hlex⟩)

/-- A row in quotes, two lines before the end of a source with one line. -/
theorem read_quoted_row :
    read "(a [\"-2\", 0] - [0, 1])" "x" = .error .rowOutOfRange ∧
      Error.rowOutOfRange.offset? = none := by
  have hread : (read "(a [\"-2\", 0] - [0, 1])" "x").map (fun _ => ()) =
      .error .rowOutOfRange := by decide +kernel
  exact ⟨map_eq_error_iff.mp hread, rfl⟩

end Typeset.Sexp
