import Typeset.Tree.Sexp.Token

/-!
# Dividing a text into tokens

Tokens are spelled one after the other in a text, with nothing but blanks between them. This is
stated of a text and of some lexemes alone, apart from any scanning: which characters a token is
spelled with, that a lexeme is spelled at its offset, that no two of them overlap, and that all else
is blank. An atom goes on as far as it can.

A text that is divided up to some offset is divided further by one blank or one token, whichever
comes next, unless a string opens there that is nowhere closed. So every text is divided up to its
end or up to such a string. Scanning follows these steps: it goes on from any offset up to which
the text is divided, and hence it gives the lexemes that divide the text, or it fails at the string
that is not closed.

## Main definitions

* `Sexp.Token.spelling`, `Sexp.Token.IsBefore` : how a token is spelled, and what may be spelled
  before some characters.
* `Sexp.IsContent`, `Sexp.Closes` : the content of a string, and the text behind an opening quote.
* `Sexp.Divides` : the front of a text is divided into lexemes and blanks.

## Main results

* `Sexp.Divides.step` : a text is divided further unless a string is not closed.
* `Sexp.Divides.lex_eq` : scanning goes on from where the text is divided.
* `Sexp.tokens_divide` : what scanning gives, and when it fails.
-/

namespace Typeset.Sexp

open Text

/-! ### Spelling -/

/-- How a token is spelled in a text. -/
def Token.spelling : Token → List Char
  | punct c => [c]
  | string s => '"' :: (s.toList ++ ['"'])
  | atom s => s.toList

/-- The content of a string: characters other than double quotes and backslashes, and pairs of a
backslash and any character but a line feed. -/
inductive IsContent : List Char → Prop
  | nil : IsContent []
  | plain {c : Char} {cs : List Char} (hquote : c ≠ '"') (hslash : c ≠ '\\') (h : IsContent cs) :
      IsContent (c :: cs)
  | escaped {c : Char} {cs : List Char} (hfeed : c ≠ '\n') (h : IsContent cs) :
      IsContent ('\\' :: c :: cs)

/-- The text behind an opening quote has a closing one behind the content of a string. -/
def Closes (cs : List Char) : Prop := ∃ content rest, IsContent content ∧ cs = content ++ '"' :: rest

/-- The token may be spelled before the characters `rest`: it is a punctuation character, a string,
or an atom that does not go on. -/
def Token.IsBefore (rest : List Char) : Token → Prop
  | punct c => isPunct c = true
  | string s => IsContent s.toList
  | atom s => s.toList ≠ [] ∧ (∀ c ∈ s.toList, isAtomChar c = true) ∧
      ∀ c, rest.head? = some c → isBlank c = true ∨ isPunct c = true ∨ c = '"'

/-- Where a lexeme ends. -/
def Lexeme.stop (l : Lexeme) : Nat := l.offset + l.token.spelling.length

/-- The text has at the offset of the lexeme the spelling of its token. -/
def Lexeme.IsSpelledIn (s : List Char) (l : Lexeme) : Prop :=
  ∃ rest, s.drop l.offset = l.token.spelling ++ rest ∧ l.token.IsBefore rest

/-- The first `stop` characters of a text are divided into lexemes and blanks. -/
structure Divides (s : List Char) (stop : Nat) (ls : List Lexeme) : Prop where
  /-- Each lexeme ends before the ones behind it start. -/
  apart : ls.Pairwise fun l l' => l.stop ≤ l'.offset
  /-- Each lexeme is spelled in the text. -/
  spelled : ∀ l ∈ ls, l.IsSpelledIn s
  /-- Each lexeme ends among the first characters. -/
  stop_le : ∀ l ∈ ls, l.stop ≤ stop
  /-- A character that belongs to no lexeme is a blank. -/
  blank : ∀ i c, i < stop → s[i]? = some c → (∀ l ∈ ls, ¬ (l.offset ≤ i ∧ i < l.stop)) →
    isBlank c = true

/-! ### Strings -/

theorem isContent_of_scanString {cs s rest : List Char} (h : scanString cs = some (s, rest)) :
    IsContent s := by
  fun_induction scanString cs generalizing s with
  | case1 => cases h
  | case2 cs =>
    cases h
    exact .nil
  | case3 => cases h
  | case4 => cases h
  | case5 c cs hfeed ih =>
    obtain ⟨⟨s', rest'⟩, hs, h⟩ := Option.map_eq_some_iff.mp h
    cases h
    exact .escaped hfeed (ih hs)
  | case6 c cs hquote hend hslash ih =>
    obtain ⟨⟨s', rest'⟩, hs, h⟩ := Option.map_eq_some_iff.mp h
    cases h
    refine .plain hquote (fun hc => ?_) (ih hs)
    cases cs with
    | nil => exact hend hc rfl
    | cons d cs => exact hslash d cs hc rfl

theorem scanString_of_isContent {s : List Char} (h : IsContent s) (rest : List Char) :
    scanString (s ++ '"' :: rest) = some (s, rest) := by
  induction h with
  | nil => rfl
  | plain hquote hslash h ih =>
    rw [List.cons_append, scanString.eq_5 _ _ hquote (fun hc _ => hslash hc)
      (fun _ _ hc _ => hslash hc), ih]
    rfl
  | escaped hfeed h ih =>
    rw [List.cons_append, List.cons_append, scanString, if_neg hfeed, ih]
    rfl

/-- A string is found exactly where one is closed. -/
theorem scanString_eq_none_iff {cs : List Char} : scanString cs = none ↔ ¬ Closes cs := by
  constructor
  · rintro hnone ⟨content, rest, hcontent, rfl⟩
    rw [scanString_of_isContent hcontent] at hnone
    cases hnone
  · intro hopen
    cases hscan : scanString cs with
    | none => rfl
    | some found =>
      obtain ⟨content, rest⟩ := found
      exact absurd ⟨content, rest, isContent_of_scanString hscan, scanString_eq_some hscan⟩ hopen

/-! ### Scanning one token -/

/-- A string becomes a token. -/
theorem lex_quote {offset : Nat} {cs s rest : List Char} (h : scanString cs = some (s, rest)) :
    lex offset ('"' :: cs) = do
      return ⟨.string (String.ofList s), offset⟩ :: (← lex (offset + s.length + 2) rest) := by
  rw [lex, if_neg (by decide), if_neg (by decide), if_pos rfl]
  split
  · next hnone => cases hnone.symm.trans h
  · next s' rest' hsome =>
    cases hsome.symm.trans h
    rfl

/-- Scanning fails at a string that is not closed. -/
theorem lex_unclosed {offset : Nat} {cs : List Char} (h : ¬ Closes cs) :
    lex offset ('"' :: cs) = .error (.unterminated offset) := by
  rw [lex, if_neg (by decide), if_neg (by decide), if_pos rfl]
  split
  · rfl
  · next s rest hsome =>
    rw [scanString_eq_none_iff.mpr h] at hsome
    cases hsome

theorem isBlank_of_isPunct {c : Char} (h : isPunct c = true) : isBlank c = false := by
  have hall : "()[],:-".toList.all (!isBlank ·) = true := by decide
  simpa using List.all_eq_true.mp hall c (List.contains_iff_mem.mp h)

/-- A character belongs to no atom exactly if it is a blank, a punctuation character or a double
quote. -/
theorem isAtomChar_eq_false_iff {c : Char} :
    isAtomChar c = false ↔ isBlank c = true ∨ isPunct c = true ∨ c = '"' := by
  rw [isAtomChar]
  cases isBlank c <;> cases isPunct c <;> simp

theorem Token.IsBefore.spelling_ne_nil {t : Token} {rest : List Char} (h : t.IsBefore rest) :
    t.spelling ≠ [] := by
  cases t with
  | punct c => exact List.cons_ne_nil _ _
  | string s => exact List.cons_ne_nil _ _
  | atom s => exact h.1

/-- What is spelled next becomes a token. -/
theorem lex_spelling {t : Token} {rest : List Char} (h : t.IsBefore rest) (offset : Nat) :
    lex offset (t.spelling ++ rest) =
      (lex (offset + t.spelling.length) rest).map (⟨t, offset⟩ :: ·) := by
  have hmap (l : Lexeme) (x : Except Error (List Lexeme)) :
      (do return l :: (← x)) = x.map (l :: ·) := by cases x <;> rfl
  cases t with
  | punct c =>
    have hpunct : isPunct c = true := h
    rw [Token.spelling, List.singleton_append, lex, if_neg (by simp [isBlank_of_isPunct hpunct]),
      if_pos hpunct, hmap]
    rfl
  | string s =>
    have hscan : scanString (s.toList ++ ['"'] ++ rest) = some (s.toList, rest) := by
      rw [List.append_assoc, List.singleton_append]
      exact scanString_of_isContent h rest
    rw [Token.spelling, List.cons_append, lex_quote hscan, hmap, String.ofList_toList]
    simp [Nat.add_assoc]
  | atom s =>
    obtain ⟨hne, hatom, hend⟩ := h
    obtain ⟨c, cs, hs⟩ := List.exists_cons_of_ne_nil hne
    rw [hs] at hatom
    have hc : ¬ (isBlank c = true ∨ isPunct c = true ∨ c = '"') := by
      rw [← isAtomChar_eq_false_iff, hatom c List.mem_cons_self]
      exact Bool.noConfusion
    have hcs : ∀ d ∈ cs, isAtomChar d = true := fun d hd => hatom d (List.mem_cons_of_mem c hd)
    have hrest : rest.takeWhile isAtomChar = [] ∧ rest.dropWhile isAtomChar = rest := by
      cases rest with
      | nil => exact ⟨rfl, rfl⟩
      | cons d rest =>
        have hd := isAtomChar_eq_false_iff.mpr (hend d rfl)
        exact ⟨List.takeWhile_cons_of_neg (by simp [hd]), List.dropWhile_cons_of_neg (by simp [hd])⟩
    rw [Token.spelling, hs, List.cons_append, lex, if_neg (fun hb => hc (.inl hb)),
      if_neg (fun hp => hc (.inr (.inl hp))), if_neg (fun hq => hc (.inr (.inr hq))), hmap,
      List.takeWhile_append_of_pos hcs, List.dropWhile_append_of_pos hcs, hrest.1, hrest.2,
      List.append_nil, ← hs, String.ofList_toList]

/-! ### Dividing a text further -/

variable {s : List Char} {k : Nat} {l : Lexeme} {ls : List Lexeme}

theorem Lexeme.IsSpelledIn.offset_lt (h : l.IsSpelledIn s) : l.offset < l.stop := by
  obtain ⟨rest, -, hbefore⟩ := h
  have := List.length_pos_iff.mpr hbefore.spelling_ne_nil
  rw [Lexeme.stop]
  omega

theorem Lexeme.IsSpelledIn.stop_le (h : l.IsSpelledIn s) : l.stop ≤ s.length := by
  obtain ⟨rest, hdrop, hbefore⟩ := h
  have hpos := List.length_pos_iff.mpr hbefore.spelling_ne_nil
  have hlength := congrArg List.length hdrop
  rw [List.length_drop, List.length_append] at hlength
  rw [Lexeme.stop]
  omega

/-- Behind a lexeme the text goes on. -/
theorem Lexeme.IsSpelledIn.exists_drop (h : l.IsSpelledIn s) :
    s.drop l.offset = l.token.spelling ++ s.drop l.stop ∧ l.token.IsBefore (s.drop l.stop) := by
  obtain ⟨rest, hdrop, hbefore⟩ := h
  have hrest : s.drop l.stop = rest := by
    rw [Lexeme.stop, ← List.drop_drop, hdrop, List.drop_left]
  rw [hrest]
  exact ⟨hdrop, hbefore⟩

namespace Divides

theorem zero (s : List Char) : Divides s 0 [] where
  apart := .nil
  spelled := List.forall_mem_nil _
  stop_le := List.forall_mem_nil _
  blank _ _ hi := absurd hi (Nat.not_lt_zero _)

/-- A blank divides the text further. -/
theorem skip {c : Char} (h : Divides s k ls) (hc : s[k]? = some c) (hblank : isBlank c = true) :
    Divides s (k + 1) ls where
  apart := h.apart
  spelled := h.spelled
  stop_le l hl := Nat.le_succ_of_le (h.stop_le l hl)
  blank i d hi hd hnone := by
    rcases Nat.lt_succ_iff_lt_or_eq.mp hi with hi | rfl
    · exact h.blank i d hi hd hnone
    · obtain rfl : c = d := Option.some.inj (hc.symm.trans hd)
      exact hblank

/-- A lexeme divides the text further. -/
theorem take (h : Divides s l.offset ls) (hl : l.IsSpelledIn s) : Divides s l.stop (ls ++ [l]) where
  apart := by
    refine List.pairwise_append.mpr ⟨h.apart, List.pairwise_singleton _ _, fun a ha b hb => ?_⟩
    rw [List.mem_singleton.mp hb]
    exact h.stop_le a ha
  spelled a ha := by
    rcases List.mem_append.mp ha with ha | ha
    · exact h.spelled a ha
    · rwa [List.mem_singleton.mp ha]
  stop_le a ha := by
    rcases List.mem_append.mp ha with ha | ha
    · exact Nat.le_trans (h.stop_le a ha) (Nat.le_of_lt hl.offset_lt)
    · exact Nat.le_of_eq (congrArg Lexeme.stop (List.mem_singleton.mp ha))
  blank i c hi hc hnone := by
    have hlt : i < l.offset := by
      have := hnone l (by simp)
      omega
    exact h.blank i c hlt hc fun a ha => hnone a (List.mem_append_left _ ha)

/-- A text that is divided up to some offset is divided further, unless a string opens there that
is not closed. -/
theorem step (h : Divides s k ls) (hk : k < s.length) :
    (∃ k' ls', k < k' ∧ k' ≤ s.length ∧ Divides s k' ls') ∨
      s[k]? = some '"' ∧ ¬ Closes (s.drop (k + 1)) := by
  have hget := List.getElem?_eq_getElem hk
  have hdrop := List.drop_eq_getElem_cons hk
  have htake {t : Token} (ht : (⟨t, k⟩ : Lexeme).IsSpelledIn s) :
      ∃ k' ls', k < k' ∧ k' ≤ s.length ∧ Divides s k' ls' :=
    ⟨_, _, ht.offset_lt, ht.stop_le, h.take ht⟩
  generalize s[k] = c at hget hdrop
  by_cases hblank : isBlank c = true
  · exact .inl ⟨k + 1, ls, Nat.lt_succ_self k, hk, h.skip hget hblank⟩
  by_cases hpunct : isPunct c = true
  · have ht : (⟨.punct c, k⟩ : Lexeme).IsSpelledIn s := ⟨_, hdrop, hpunct⟩
    exact .inl (htake ht)
  by_cases hquote : c = '"'
  · subst hquote
    by_cases hcloses : Closes (s.drop (k + 1))
    · obtain ⟨content, rest, hcontent, hrest⟩ := hcloses
      have ht : (⟨.string (String.ofList content), k⟩ : Lexeme).IsSpelledIn s := by
        refine ⟨rest, ?_, ?_⟩
        · simp [Token.spelling, hdrop, hrest]
        · simpa [Token.IsBefore] using hcontent
      exact .inl (htake ht)
    · exact .inr ⟨hget, hcloses⟩
  · -- an atom is as long as it can be
    have hc : isAtomChar c = true := by
      rw [← Bool.not_eq_false, isAtomChar_eq_false_iff]
      simp [hblank, hpunct, hquote]
    have ht : (⟨.atom (String.ofList (c :: (s.drop (k + 1)).takeWhile isAtomChar)), k⟩ :
        Lexeme).IsSpelledIn s := by
      refine ⟨(s.drop (k + 1)).dropWhile isAtomChar, ?_, ?_, ?_, fun d hd => ?_⟩
      · rw [hdrop, Token.spelling, String.toList_ofList, List.cons_append,
          List.takeWhile_append_dropWhile]
      · simp
      · intro d hd
        rw [String.toList_ofList] at hd
        rcases List.mem_cons.mp hd with rfl | hd
        · exact hc
        · exact List.all_eq_true.mp List.all_takeWhile d hd
      · have hhead := List.head?_dropWhile_not isAtomChar (s.drop (k + 1))
        rw [hd] at hhead
        exact isAtomChar_eq_false_iff.mp hhead
    exact .inl (htake ht)

/-- A text is divided up to its end, or up to a string that is not closed. -/
theorem exists_end (h : Divides s k ls) (hk : k ≤ s.length) :
    (∃ ls', Divides s s.length ls') ∨
      ∃ o ls', Divides s o ls' ∧ s[o]? = some '"' ∧ ¬ Closes (s.drop (o + 1)) := by
  induction hn : s.length - k using Nat.strongRecOn generalizing k ls with
  | ind n ih =>
    rcases Nat.lt_or_eq_of_le hk with hlt | rfl
    · rcases h.step hlt with ⟨k', ls', hlt', hle, h'⟩ | ⟨hquote, hopen⟩
      · exact ih (s.length - k') (by omega) h' hle rfl
      · exact .inr ⟨k, ls, h, hquote, hopen⟩
    · exact .inl ⟨ls, h⟩

/-! ### Scanning from where the text is divided -/

/-- The last character of what is divided is a blank if no lexeme reaches beyond it. -/
theorem unskip (h : Divides s (k + 1) ls) (hk : k < s.length) (hle : ∀ l ∈ ls, l.stop ≤ k) :
    isBlank s[k] = true ∧ Divides s k ls := by
  refine ⟨h.blank k _ (Nat.lt_succ_self k) (List.getElem?_eq_getElem hk) fun l hl => ?_,
    h.apart, h.spelled, hle, fun i c hi => h.blank i c (Nat.lt_succ_of_lt hi)⟩
  have := hle l hl
  omega

/-- What is divided ends with a blank or with a lexeme. -/
theorem cases_end (h : Divides s k ls) (hk : k ≤ s.length) :
    (k = 0 ∧ ls = []) ∨
      (∃ (i : Nat) (hi : i < s.length), k = i + 1 ∧ isBlank s[i] = true ∧ Divides s i ls) ∨
      ∃ ls' l, ls = ls' ++ [l] ∧ k = l.stop ∧ l.IsSpelledIn s ∧ Divides s l.offset ls' := by
  rcases ls.eq_nil_or_concat with rfl | ⟨ls', l, rfl⟩
  · cases k with
    | zero => exact .inl ⟨rfl, rfl⟩
    | succ k =>
      obtain ⟨hblank, h'⟩ := h.unskip hk (List.forall_mem_nil _)
      exact .inr (.inl ⟨k, hk, rfl, hblank, h'⟩)
  · rw [List.concat_eq_append] at h ⊢
    obtain ⟨hapart, -, hlast⟩ := List.pairwise_append.mp h.apart
    have hbefore : ∀ a ∈ ls', a.stop ≤ l.offset := fun a ha => hlast a ha l List.mem_cons_self
    have hl : l.IsSpelledIn s := h.spelled l (by simp)
    have hlt := hl.offset_lt
    have hstop : l.stop ≤ k := h.stop_le l (by simp)
    rcases Nat.lt_or_eq_of_le hstop with hstop | rfl
    · obtain ⟨i, rfl⟩ : ∃ i, k = i + 1 := ⟨k - 1, by omega⟩
      obtain ⟨hblank, h'⟩ := h.unskip hk fun a ha => by
        rcases List.mem_append.mp ha with ha | ha
        · have := hbefore a ha
          omega
        · rw [List.mem_singleton.mp ha]
          omega
      exact .inr (.inl ⟨i, hk, rfl, hblank, h'⟩)
    · refine .inr (.inr ⟨ls', l, rfl, rfl, hl, hapart, ?_, hbefore, fun i c hi hc hnone => ?_⟩)
      · exact fun a ha => h.spelled a (List.mem_append_left _ ha)
      · refine h.blank i c (Nat.lt_trans hi hlt) hc fun a ha => ?_
        rcases List.mem_append.mp ha with ha | ha
        · exact hnone a ha
        · rw [List.mem_singleton.mp ha]
          omega

/-- Scanning a text is scanning it from any offset up to which it is divided. -/
theorem lex_eq (h : Divides s k ls) (hk : k ≤ s.length) :
    lex 0 s = (lex k (s.drop k)).map (ls ++ ·) := by
  induction k using Nat.strongRecOn generalizing ls with
  | ind k ih =>
    obtain ⟨rfl, rfl⟩ | ⟨i, hi, rfl, hblank, h'⟩ | ⟨ls, l, rfl, rfl, hl, h'⟩ := h.cases_end hk
    · rw [List.drop_zero]
      cases lex 0 s <;> rfl
    · rw [ih i (Nat.lt_succ_self i) h' (Nat.le_of_lt hi), List.drop_eq_getElem_cons hi, lex,
        if_pos hblank]
    · have hle : l.offset ≤ s.length := Nat.le_trans (Nat.le_of_lt hl.offset_lt) hk
      obtain ⟨hdrop, hbefore⟩ := hl.exists_drop
      rw [ih l.offset hl.offset_lt h' hle, hdrop, lex_spelling hbefore]
      show ((lex l.stop (s.drop l.stop)).map (l :: ·)).map (ls ++ ·) = _
      cases lex l.stop (s.drop l.stop) with
      | error e => rfl
      | ok ls' => simp [Except.map]

/-- Lexemes that divide a text are what scanning gives. -/
theorem lex_eq_ok (h : Divides s s.length ls) : lex 0 s = .ok ls := by
  rw [h.lex_eq (Nat.le_refl _), List.drop_length, lex]
  exact congrArg Except.ok (List.append_nil ls)

/-- Scanning fails at a string that is not closed. -/
theorem lex_eq_error (h : Divides s k ls) (hquote : s[k]? = some '"')
    (hopen : ¬ Closes (s.drop (k + 1))) : lex 0 s = .error (.unterminated k) := by
  obtain ⟨hk, hget⟩ := List.getElem?_eq_some_iff.mp hquote
  rw [h.lex_eq (Nat.le_of_lt hk), List.drop_eq_getElem_cons hk, hget, lex_unclosed hopen]
  rfl

/-- The offsets of lexemes increase. -/
theorem increasing (h : Divides s k ls) : ls.Pairwise fun l l' => l.offset < l'.offset :=
  h.apart.imp_of_mem fun ha _ hle => Nat.lt_of_lt_of_le (h.spelled _ ha).offset_lt hle

end Divides

/-- Scanning gives lexemes that divide the text, or fails at a string that is not closed. -/
theorem lex_cases (s : List Char) :
    (∃ ls, Divides s s.length ls ∧ lex 0 s = .ok ls) ∨
      ∃ o ls, Divides s o ls ∧ s[o]? = some '"' ∧ ¬ Closes (s.drop (o + 1)) ∧
        lex 0 s = .error (.unterminated o) := by
  rcases (Divides.zero s).exists_end (Nat.zero_le _) with ⟨ls, h⟩ | ⟨o, ls, h, hquote, hopen⟩
  · exact .inl ⟨ls, h, h.lex_eq_ok⟩
  · exact .inr ⟨o, ls, h, hquote, hopen, h.lex_eq_error hquote hopen⟩

/-- **Scanning loses nothing.** Scanning ends for every text. It gives some lexemes exactly if they
divide the text up to its end: each is spelled at its offset, with its quotes if it is a string, an
atom does not go on behind its end, and each character outside of the lexemes is a blank. The
offsets of the lexemes increase. Scanning fails exactly if the text is divided in this way up to a
double quote that opens a string which is not closed, and it names the offset of that quote. -/
theorem tokens_divide (s : String) :
    (∀ ls, tokens s = .ok ls ↔ Divides s.toList s.length ls) ∧
    (∀ ls, tokens s = .ok ls → ls.Pairwise fun l l' => l.offset < l'.offset) ∧
    ∀ e, tokens s = .error e ↔ ∃ o ls, Divides s.toList o ls ∧ s.toList[o]? = some '"' ∧
      ¬ Closes (s.toList.drop (o + 1)) ∧ e = .unterminated o := by
  have hok (ls : List Lexeme) : tokens s = .ok ls ↔ Divides s.toList s.length ls := by
    rw [tokens, ← String.length_toList]
    refine ⟨fun hlex => ?_, Divides.lex_eq_ok⟩
    rcases lex_cases s.toList with ⟨ls', h, hlex'⟩ | ⟨o, ls', -, -, -, hlex'⟩
    · cases hlex.symm.trans hlex'
      exact h
    · cases hlex.symm.trans hlex'
  refine ⟨hok, fun ls hls => ((hok ls).mp hls).increasing, fun e => ⟨fun hlex => ?_, ?_⟩⟩
  · rcases lex_cases s.toList with ⟨ls', -, hlex'⟩ | ⟨o, ls', h, hquote, hopen, hlex'⟩
    · cases hlex.symm.trans hlex'
    · cases hlex.symm.trans hlex'
      exact ⟨o, ls', h, hquote, hopen, rfl⟩
  · rintro ⟨o, ls, h, hquote, hopen, rfl⟩
    exact h.lex_eq_error hquote hopen

end Typeset.Sexp
