import Typeset.Modelica.Graphical
import Typeset.Proofs.Modelica.ExpressionSpelling

/-!
# String literals in compact texts

The compact form of a text is made without regard to the string literals in it. Each stage
rewrites only blanks beside blanks and marks, and so it works on the two sides of a quotation
mark or a backslash apart. The literals of the compact form are therefore the compact forms of
the literals: a literal keeps its characters other than blanks, and it is left alone if and only
if its own text is compact.

## Main definitions

* `literals` : the string literals of a text, with their quotation marks.
* `Squeezes` : what each stage of the compact form does to a text.
* `squeeze` : the compact form, with the blanks at its ends.

## Main results

* `literals_squeeze` : the literals of a text that has been squeezed.
* `literals_compactText` : the literals of a compact text.
* `literals_compactText_comma` : a literal that is changed.
-/

namespace Typeset.Modelica

open Text

/-! ### Literals -/

/-- The literals that are closed in a text; `escaped` says that a backslash was just passed, and
`opened` is the literal in progress. -/
def literalsFrom (escaped : Bool) (opened : Option (List Char)) : List Char → List (List Char)
  | [] => []
  | c :: cs =>
    if escaped then literalsFrom false (opened.map (· ++ [c])) cs
    else if c = '\\' then literalsFrom true (opened.map (· ++ [c])) cs
    else if c = '"' then
      opened.elim (literalsFrom false (some [c]) cs) fun l =>
        (l ++ [c]) :: literalsFrom false none cs
    else literalsFrom false (opened.map (· ++ [c])) cs

/-- The string literals of a text, each from a quotation mark that is not escaped up to the next
one. -/
def literals (cs : List Char) : List (List Char) := literalsFrom false none cs

/-- Whether a character is a quotation mark or a backslash, which decide where literals end. -/
def isDelimiter (c : Char) : Bool := c = '"' || c = '\\'

/-- A text without delimiters. -/
def IsPlain (cs : List Char) : Prop := ∀ c ∈ cs, isDelimiter c = false

theorem isBlank_of_isDelimiter {c : Char} (h : isDelimiter c = true) : isBlank c = false := by
  have hc : c = '"' ∨ c = '\\' := by simpa [isDelimiter] using h
  rcases hc with rfl | rfl <;> decide

theorem isPlain_of_blank {ws : List Char} (h : ∀ c ∈ ws, isBlank c = true) : IsPlain ws := by
  intro c hc
  by_contra hd
  have hblank := isBlank_of_isDelimiter (Bool.not_eq_false _ ▸ hd)
  exact absurd (h c hc) (by simp [hblank])

/-- A plain text in front is read into the literal in progress. -/
theorem literalsFrom_append_of_isPlain {p : List Char} (hp : IsPlain p) (escaped : Bool)
    (opened : Option (List Char)) (cs : List Char) :
    literalsFrom escaped opened (p ++ cs) =
      literalsFrom (escaped && p.isEmpty) (opened.map (· ++ p)) cs := by
  induction p generalizing escaped opened with
  | nil => simp
  | cons c p ih =>
    have hc : c ≠ '"' ∧ c ≠ '\\' := by simpa [isDelimiter] using hp c List.mem_cons_self
    have htail := ih fun d hd => hp d (List.mem_cons_of_mem c hd)
    rw [List.cons_append, literalsFrom, if_neg hc.2, if_neg hc.1, ite_self, htail]
    simp [Option.map_map, Function.comp_def]

/-- No literal is closed in a plain text. -/
theorem literalsFrom_of_isPlain {p : List Char} (hp : IsPlain p) (escaped : Bool)
    (opened : Option (List Char)) : literalsFrom escaped opened p = [] := by
  have h := literalsFrom_append_of_isPlain hp escaped opened []
  rwa [List.append_nil] at h

/-- A plain text at the end closes no literal. -/
theorem literalsFrom_append_plain {p : List Char} (hp : IsPlain p) (escaped : Bool)
    (opened : Option (List Char)) (cs : List Char) :
    literalsFrom escaped opened (cs ++ p) = literalsFrom escaped opened cs := by
  induction cs generalizing escaped opened with
  | nil => exact literalsFrom_of_isPlain hp escaped opened
  | cons c cs ih => simp only [List.cons_append, literalsFrom, ih]

/-- A text is the blanks at its ends around its trimmed text. -/
theorem exists_eq_append_trim (cs : List Char) :
    ∃ ws ws', (∀ c ∈ ws, isBlank c = true) ∧ (∀ c ∈ ws', isBlank c = true) ∧
      cs = ws ++ (trim cs ++ ws') := by
  refine ⟨cs.takeWhile isBlank, ((trimFront cs).reverse.takeWhile isBlank).reverse,
    fun c hc => List.mem_takeWhile_imp hc,
    fun c hc => List.mem_takeWhile_imp (List.mem_reverse.mp hc), ?_⟩
  have hback : trim cs ++ ((trimFront cs).reverse.takeWhile isBlank).reverse = trimFront cs := by
    rw [trim, trimFront, ← List.reverse_append, List.takeWhile_append_dropWhile,
      List.reverse_reverse]
  rw [hback, trimFront, List.takeWhile_append_dropWhile]

/-- The blanks at the ends of a text have no part in its literals. -/
theorem literals_trim (cs : List Char) : literals (trim cs) = literals cs := by
  obtain ⟨ws, ws', hws, hws', hcs⟩ := exists_eq_append_trim cs
  conv => rhs; rw [hcs]
  rw [literals, literals, literalsFrom_append_of_isPlain (isPlain_of_blank hws),
    literalsFrom_append_plain (isPlain_of_blank hws')]
  rfl

/-! ### Stages of the compact form -/

/-- The marks that blanks are closed up to or spaced from. -/
def marks : List Char := ['(', ')', '{', '}', ',', '=']

/-- What a stage of the compact form does to a text: it works apart on the two sides of every
character that is neither a blank nor a mark, it keeps all characters other than blanks, and it
leaves something of every text. -/
structure Squeezes (f : List Char → List Char) : Prop where
  splits {q : Char} (hq : isBlank q = false) (hmark : q ∉ marks) (xs ys : List Char) :
    f (xs ++ q :: ys) = f xs ++ q :: f ys
  solid_eq (cs : List Char) : solid (f cs) = solid cs
  eq_nil_iff (cs : List Char) : f cs = [] ↔ cs = []

theorem Squeezes.comp {f g : List Char → List Char} (hf : Squeezes f) (hg : Squeezes g) :
    Squeezes fun cs => f (g cs) where
  splits hq hmark xs ys := by rw [hg.splits hq hmark, hf.splits hq hmark]
  solid_eq cs := by rw [hf.solid_eq, hg.solid_eq]
  eq_nil_iff cs := by rw [hf.eq_nil_iff, hg.eq_nil_iff]

private theorem collapseBlanks_append {q : Char} (hq : isBlank q = false) (ys : List Char)
    (after : Bool) (xs : List Char) :
    collapseBlanks after (xs ++ q :: ys) =
      collapseBlanks after xs ++ q :: collapseBlanks false ys := by
  induction xs generalizing after with
  | nil => simp [collapseBlanks, hq]
  | cons c xs ih =>
    simp only [List.cons_append, collapseBlanks, ih]
    split_ifs <;> rfl

private theorem solid_collapseBlanks (after : Bool) (cs : List Char) :
    solid (collapseBlanks after cs) = solid cs := by
  induction cs generalizing after with
  | nil => rfl
  | cons c cs ih =>
    simp only [collapseBlanks]
    split_ifs with hc hafter
    · simpa [solid, hc] using ih true
    · have hspace : isBlank ' ' = true := by decide
      simpa [solid, hc, hspace] using ih true
    · simpa [solid, hc] using ih false

theorem squeezes_collapseBlanks : Squeezes (collapseBlanks false) where
  splits hq _ xs ys := collapseBlanks_append hq ys false xs
  solid_eq := solid_collapseBlanks false
  eq_nil_iff cs := by
    cases cs with
    | nil => simp [collapseBlanks]
    | cons c cs =>
      rw [collapseBlanks]
      split_ifs <;> simp_all

/-- Blanks are closed up apart on the two sides of a character other than a blank. -/
theorem closeAfter_append {q : Char} (hq : isBlank q = false) (mark : Char) (ys : List Char)
    (after : Bool) (xs : List Char) :
    closeAfter mark after (xs ++ q :: ys) =
      closeAfter mark after xs ++ q :: closeAfter mark (q = mark) ys := by
  induction xs generalizing after with
  | nil => simp [closeAfter, hq]
  | cons c xs ih =>
    simp only [List.cons_append, closeAfter, ih]
    split_ifs <;> rfl

private theorem solid_closeAfter (mark : Char) (after : Bool) (cs : List Char) :
    solid (closeAfter mark after cs) = solid cs := by
  induction cs generalizing after with
  | nil => rfl
  | cons c cs ih =>
    simp only [closeAfter]
    split_ifs with hc
    · have hblank : isBlank c = true := by simp_all
      simpa [solid, hblank] using ih true
    · rw [← List.singleton_append, ← List.singleton_append (l := cs), solid_append, solid_append,
        ih]

theorem squeezes_closeAfter {mark : Char} (h : mark ∈ marks) :
    Squeezes (closeAfter mark false) where
  splits {q} hq hmark xs ys := by
    have hne : q ≠ mark := fun he => hmark (he ▸ h)
    rw [closeAfter_append hq, decide_eq_false hne]
  solid_eq := solid_closeAfter mark false
  eq_nil_iff cs := by cases cs <;> simp [closeAfter]

theorem squeezes_closeBefore {mark : Char} (h : mark ∈ marks) : Squeezes (closeBefore mark) where
  splits hq hmark xs ys := by
    have hsplit := (squeezes_closeAfter h).splits hq hmark ys.reverse xs.reverse
    simp [closeBefore, hsplit]
  solid_eq cs := by
    rw [closeBefore, solid, List.filter_reverse, ← solid, (squeezes_closeAfter h).solid_eq, solid,
      List.filter_reverse, List.reverse_reverse, solid]
  eq_nil_iff cs := by
    rw [closeBefore, List.reverse_eq_nil_iff, (squeezes_closeAfter h).eq_nil_iff,
      List.reverse_eq_nil_iff]

theorem squeezes_spaceAfter {mark : Char} (h : mark ∈ marks) : Squeezes (spaceAfter mark) where
  splits {q} hq hmark xs ys := by
    have hne : q ≠ mark := fun he => hmark (he ▸ h)
    rw [spaceAfter, (squeezes_closeAfter h).splits hq hmark]
    simp [spaceAfter, hne]
  solid_eq cs := by
    rw [← (squeezes_closeAfter h).solid_eq cs, spaceAfter]
    induction closeAfter mark false cs with
    | nil => rfl
    | cons c cs ih =>
      have hone : solid (if c = mark then [c, ' '] else [c]) = solid [c] := by
        have hspace : solid [' '] = [] := by decide
        split_ifs
        · rw [← List.singleton_append, solid_append, hspace, List.append_nil]
        · rfl
      rw [List.flatMap_cons, solid_append, hone, ih, ← solid_append, List.singleton_append]
  eq_nil_iff cs := by
    cases cs with
    | nil => simp [spaceAfter, closeAfter]
    | cons c cs => simp [spaceAfter, closeAfter]; split_ifs <;> simp

/-- The compact form of a text, with the blanks that it has at its ends. -/
def squeeze (cs : List Char) : List Char :=
  closeAfter '=' false (closeBefore '=' (spaceAfter ',' (closeBefore '}'
    (closeAfter '{' false (closeBefore ')' (closeAfter '(' false (collapseBlanks false cs)))))))

theorem compact_eq_trim (cs : List Char) : compact cs = trim (squeeze cs) := rfl

theorem squeezes_squeeze : Squeezes squeeze :=
  (squeezes_closeAfter (by decide)).comp <| (squeezes_closeBefore (by decide)).comp <|
    (squeezes_spaceAfter (by decide)).comp <| (squeezes_closeBefore (by decide)).comp <|
    (squeezes_closeAfter (by decide)).comp <| (squeezes_closeBefore (by decide)).comp <|
    (squeezes_closeAfter (by decide)).comp squeezes_collapseBlanks

theorem solid_compact (cs : List Char) : solid (compact cs) = solid cs := by
  obtain ⟨ws, ws', hws, hws', hcs⟩ := exists_eq_append_trim (squeeze cs)
  rw [compact_eq_trim, ← squeezes_squeeze.solid_eq cs]
  conv => rhs; rw [hcs]
  rw [solid_append, solid_append, solid_eq_nil hws, solid_eq_nil hws', List.append_nil,
    List.nil_append]

/-! ### Literals of a text that has been squeezed -/

theorem squeeze_append_cons {q : Char} (hq : isDelimiter q = true) (xs ys : List Char) :
    squeeze (xs ++ q :: ys) = squeeze xs ++ q :: squeeze ys := by
  refine squeezes_squeeze.splits (isBlank_of_isDelimiter hq) ?_ xs ys
  have hcases : q = '"' ∨ q = '\\' := by simpa [isDelimiter] using hq
  rcases hcases with rfl | rfl <;> decide

theorem squeeze_append_singleton {q : Char} (hq : isDelimiter q = true) (cs : List Char) :
    squeeze (cs ++ [q]) = squeeze cs ++ [q] := squeeze_append_cons hq cs []

/-- A text whose last character is a delimiter is squeezed apart from what follows. -/
theorem squeeze_append_of_getLast? {l : List Char} {q : Char} (h : l.getLast? = some q)
    (hq : isDelimiter q = true) (cs : List Char) : squeeze (l ++ cs) = squeeze l ++ squeeze cs := by
  obtain ⟨front, rfl⟩ := List.getLast?_eq_some_iff.mp h
  rw [List.append_assoc, List.singleton_append, squeeze_append_cons hq,
    squeeze_append_singleton hq, List.append_assoc, List.singleton_append]

/-- The characters other than blanks are kept, and with them the lack of delimiters. -/
theorem isPlain_squeeze {p : List Char} (hp : IsPlain p) : IsPlain (squeeze p) := by
  intro c hc
  by_contra hd
  have hblank : isBlank c = false := isBlank_of_isDelimiter (Bool.not_eq_false _ ▸ hd)
  have hmem : c ∈ solid (squeeze p) := List.mem_filter.mpr ⟨hc, by simp [hblank]⟩
  rw [squeezes_squeeze.solid_eq] at hmem
  exact hd (hp c (List.mem_filter.mp hmem |>.1))

/-- The literal in progress, if there is one, has a delimiter as its last character. -/
def EndsDelimited (opened : Option (List Char)) : Prop :=
  ∀ l ∈ opened, ∃ q, l.getLast? = some q ∧ isDelimiter q = true

/-- A delimiter is read in a text that has been squeezed as it is read in the text itself, if what
stands behind it is. -/
private theorem literalsFrom_cons_squeeze {q : Char} (hq : isDelimiter q = true) {cs : List Char}
    (hcs : ∀ escaped opened, EndsDelimited opened →
      literalsFrom escaped (opened.map squeeze) (squeeze cs) =
        (literalsFrom escaped opened cs).map squeeze)
    (escaped : Bool) (opened : Option (List Char)) :
    literalsFrom escaped (opened.map squeeze) (q :: squeeze cs) =
      (literalsFrom escaped opened (q :: cs)).map squeeze := by
  have hread : (opened.map squeeze).map (· ++ [q]) = (opened.map (· ++ [q])).map squeeze := by
    cases opened <;> simp [squeeze_append_singleton hq]
  have hends : EndsDelimited (opened.map (· ++ [q])) := by
    intro l hl
    obtain ⟨front, -, rfl⟩ := Option.map_eq_some_iff.mp hl
    exact ⟨q, by simp, hq⟩
  rw [literalsFrom, literalsFrom, hread]
  split_ifs with hescaped hbackslash hquote
  · exact hcs false _ hends
  · exact hcs true _ hends
  · subst hquote
    cases opened with
    | none =>
      have hone : squeeze ['"'] = ['"'] := squeeze_append_singleton hq []
      have := hcs false (some ['"']) fun l hl => by cases hl; exact ⟨'"', rfl, hq⟩
      rwa [Option.map_some, hone] at this
    | some l =>
      have := hcs false none fun l hl => by cases hl
      simpa [squeeze_append_singleton hq] using this
  · exact hcs false _ hends

/-- A text is read up to its next delimiter, where the literal in progress and the text behind are
squeezed apart. -/
theorem literalsFrom_squeeze (cs : List Char) {p : List Char} (hp : IsPlain p) (escaped : Bool)
    {opened : Option (List Char)} (hopened : EndsDelimited opened) :
    literalsFrom escaped (opened.map squeeze) (squeeze (p ++ cs)) =
      (literalsFrom escaped opened (p ++ cs)).map squeeze := by
  induction cs generalizing p escaped opened with
  | nil =>
    rw [List.append_nil, literalsFrom_of_isPlain hp, literalsFrom_of_isPlain (isPlain_squeeze hp)]
    rfl
  | cons c cs ih =>
    by_cases hc : isDelimiter c = true
    · have hempty : (squeeze p).isEmpty = p.isEmpty := by
        rw [Bool.eq_iff_iff, List.isEmpty_iff, List.isEmpty_iff, squeezes_squeeze.eq_nil_iff]
      have hmap : (opened.map squeeze).map (· ++ squeeze p) =
          (opened.map (· ++ p)).map squeeze := by
        cases opened with
        | none => rfl
        | some l =>
          obtain ⟨q, hlast, hq⟩ := hopened l rfl
          simp [squeeze_append_of_getLast? hlast hq]
      rw [squeeze_append_cons hc, literalsFrom_append_of_isPlain (isPlain_squeeze hp),
        literalsFrom_append_of_isPlain hp, hempty, hmap]
      exact literalsFrom_cons_squeeze hc
        (fun escaped opened h => ih (List.forall_mem_nil _) escaped h) _ _
    · have hplain : IsPlain (p ++ [c]) := by
        intro d hd
        rcases List.mem_append.mp hd with hd | hd
        · exact hp d hd
        · rw [List.mem_singleton.mp hd]
          simpa using hc
      have := ih hplain escaped hopened
      rwa [List.append_assoc, List.singleton_append] at this

/-- **The literals of a text that has been squeezed.** -/
theorem literals_squeeze (cs : List Char) : literals (squeeze cs) = (literals cs).map squeeze := by
  have hnone : EndsDelimited none := fun l hl => by cases hl
  exact literalsFrom_squeeze cs (List.forall_mem_nil _) false hnone

private theorem exists_of_mem_literalsFrom {cs : List Char} {escaped : Bool}
    {opened : Option (List Char)}
    (hopened : ∀ o ∈ opened, ∃ m, o = '"' :: m) {l : List Char}
    (hl : l ∈ literalsFrom escaped opened cs) : ∃ m, l = '"' :: (m ++ ['"']) := by
  induction cs generalizing escaped opened with
  | nil => cases hl
  | cons c cs ih =>
    have hread : ∀ o ∈ opened.map (· ++ [c]), ∃ m, o = '"' :: m := by
      intro o ho
      obtain ⟨front, hfront, rfl⟩ := Option.map_eq_some_iff.mp ho
      obtain ⟨m, rfl⟩ := hopened front hfront
      exact ⟨m ++ [c], rfl⟩
    rw [literalsFrom] at hl
    split_ifs at hl with hescaped hbackslash hquote
    · exact ih hread hl
    · exact ih hread hl
    · cases opened with
      | none => exact ih (fun o ho => by cases ho; exact ⟨[], by rw [hquote]⟩) hl
      | some o =>
        rcases List.mem_cons.mp hl with rfl | hl
        · obtain ⟨m, rfl⟩ := hopened o rfl
          exact ⟨m, by rw [hquote]; rfl⟩
        · exact ih (fun o ho => by cases ho) hl
    · exact ih hread hl

/-- A literal is enclosed in quotation marks. -/
theorem exists_of_mem_literals {cs l : List Char} (hl : l ∈ literals cs) :
    ∃ m, l = '"' :: (m ++ ['"']) := by
  have hnone : ∀ o ∈ (none : Option (List Char)), ∃ m, o = '"' :: m := fun o ho => by cases ho
  exact exists_of_mem_literalsFrom hnone hl

/-- There is nothing to trim at the ends of a literal. -/
theorem compact_quoted (m : List Char) :
    compact ('"' :: (m ++ ['"'])) = squeeze ('"' :: (m ++ ['"'])) := by
  have hquote : isDelimiter '"' = true := by decide
  have hblank : ¬ isBlank '"' = true := by decide
  have hsqueeze : squeeze ('"' :: (m ++ ['"'])) = '"' :: (squeeze m ++ ['"']) := by
    rw [← squeeze_append_singleton hquote]
    exact squeeze_append_cons hquote [] (m ++ ['"'])
  rw [compact_eq_trim, hsqueeze, trim, trimFront, trimFront, List.dropWhile_cons_of_neg hblank,
    List.reverse_cons, List.reverse_append, List.reverse_singleton, List.singleton_append,
    List.cons_append, List.dropWhile_cons_of_neg hblank]
  simp

/-- **The literals of a compact text.** They are the compact forms of the literals of the text:
as many, in the same order, and with the same characters other than blanks. They are the literals
of the text itself if and only if each of these is compact already. -/
theorem literals_compactText (s : String) :
    literals (compactText s).toList = (literals s.toList).map compact ∧
      (literals (compactText s).toList).map solid = (literals s.toList).map solid ∧
      (literals (compactText s).toList = literals s.toList ↔
        ∀ l ∈ literals s.toList, compact l = l) := by
  have hliterals : literals (compactText s).toList = (literals s.toList).map compact := by
    rw [compactText, String.toList_ofList, compact_eq_trim, literals_trim, literals_squeeze]
    refine List.map_congr_left fun l hl => ?_
    obtain ⟨m, rfl⟩ := exists_of_mem_literals hl
    rw [compact_quoted]
  refine ⟨hliterals, ?_, ?_⟩
  · rw [hliterals, List.map_map]
    refine List.map_congr_left fun l _ => ?_
    rw [Function.comp_apply, solid_compact]
  · rw [hliterals]
    conv => lhs; rhs; rw [← List.map_id (literals s.toList)]
    exact List.map_inj_left

/-- A comma within a literal is followed by a space in the compact text, and so the program gets
another value. -/
theorem literals_compactText_comma :
    compactText "Text(textString=\"a,b\")" = "Text(textString=\"a, b\")" ∧
      literals "Text(textString=\"a,b\")".toList = ["\"a,b\"".toList] ∧
      literals (compactText "Text(textString=\"a,b\")").toList ≠
        literals "Text(textString=\"a,b\")".toList := by
  refine ⟨?_, ?_, ?_⟩ <;> decide +kernel

end Typeset.Modelica
