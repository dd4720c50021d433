import Typeset.Doc.Chain
import Typeset.Doc.Token
import Typeset.Proofs.LayoutSoundness
import Typeset.Render

/-!
# Texts that stand in every layout

A document shows a fragment of text if the fragment stands in it as one text, whichever of the
candidates of a conditional are printed. The layout may move such a fragment to another line,
but it neither drops it nor takes it apart, and rendering writes it as it is. So a fragment
that a document shows occurs in its rendered text, at every width.

Each combinator shows what its parts show. Of a conditional all candidates have to show a
fragment: those of an operand that hugs its operator all hold the operand.

## Main definitions

* `Fragment` : a text that is not empty.
* `Doc.shows` : whether a fragment stands in every layout of a document.

## Main results

* `Admits.text_mem` : a fragment that is shown is an item of every admissible stream.
* `infix_of_renderDoc` : it occurs in the rendered text.
* `Doc.shows_hug`, `Doc.shows_of_chainOf` : an operand that hugs its operator is shown, and so
  are all operands of a chain.
-/

namespace Typeset

/-- A text that is not empty. -/
abbrev Fragment := { s : String // s.isEmpty = false }

variable {s : Fragment}

namespace Doc

mutual

/-- Whether the fragment stands in every layout of the document. -/
def shows (s : Fragment) : Doc → Bool
  | lit t | text t => t = s.1
  | concat ds | fill ds => anyShows s ds
  | indent d | annotated d _ | group d _ | alwaysBreak d => shows s d
  | conditional ds d => allShow s ds && shows s d
  | nil | line _ | unknown _ => false

/-- Whether one of the documents shows the fragment. -/
def anyShows (s : Fragment) : List Doc → Bool
  | [] => false
  | d :: ds => shows s d || anyShows s ds

/-- Whether all of the documents show the fragment. -/
def allShow (s : Fragment) : List Doc → Bool
  | [] => true
  | d :: ds => shows s d && allShow s ds

end

theorem anyShows_eq_any (ds : List Doc) : anyShows s ds = ds.any (shows s) := by
  induction ds with
  | nil => rfl
  | cons d ds ih => rw [anyShows, List.any_cons, ih]

theorem allShow_eq_all (ds : List Doc) : allShow s ds = ds.all (shows s) := by
  induction ds with
  | nil => rfl
  | cons d ds ih => rw [allShow, List.all_cons, ih]

end Doc

/-! ### Streams -/

private theorem AdmitsEach.text_mem {ds : List Doc}
    (ih : ∀ d ∈ ds, ∀ {i m items}, Admits i m d items → d.shows s = true → .text s.1 ∈ items)
    {i : Nat} {ms : List Mode} {items : List Item} (h : AdmitsEach i ms ds items)
    (hds : Doc.anyShows s ds = true) : Item.text s.1 ∈ items := by
  induction ds generalizing items with
  | nil => cases hds
  | cons d ds ihs =>
    cases h with
    | cons _ hd hrest =>
      rw [Doc.anyShows, Bool.or_eq_true] at hds
      rcases hds with hs | hs
      · exact List.mem_append_left _ (ih d List.mem_cons_self hd hs)
      · exact List.mem_append_right _
          (ihs (fun e he => ih e (List.mem_cons_of_mem d he)) hrest hs)

/-- A fragment that a document shows is an item of every stream that the document admits. -/
theorem Admits.text_mem {i : Nat} {m : Mode} {d : Doc} {items : List Item}
    (h : Admits i m d items) (hd : d.shows s = true) : .text s.1 ∈ items := by
  induction d using Doc.inductionOn generalizing i m items with
  | nil | line k | unknown t => cases hd
  | lit t | text t =>
    obtain rfl : t = s.1 := by simpa [Doc.shows] using hd
    cases h
    rw [textItems, s.2]
    exact List.mem_singleton_self _
  | concat ds ih | fill ds ih =>
    cases h with
    | _ h => exact h.text_mem (fun e he => @ih e he) hd
  | indent d ih =>
    cases h with
    | indent h => exact ih h hd
  | annotated d a ih =>
    cases h with
    | annotated h => exact List.mem_append_left _ (List.mem_cons_of_mem _ (ih h hd))
  | group d forced ih =>
    cases h with
    | forcedGroup h => exact ih h hd
    | group h => exact ih h hd
    | flatGroup _ h => exact ih h hd
  | alwaysBreak d ih =>
    cases h with
    | alwaysBreak h => exact ih h hd
  | conditional front fallback ihs ih =>
    simp only [Doc.shows, Doc.allShow_eq_all, Bool.and_eq_true, List.all_eq_true] at hd
    cases h with
    | flatCandidate _ he h =>
      rcases List.mem_append.mp (List.mem_of_find?_eq_some he) with he | he
      · exact ihs _ he h (hd.1 _ he)
      · rw [List.mem_singleton.mp he] at h
        exact ih h hd.2
    | candidate _ he h => exact ihs _ he h (hd.1 _ he)
    | fallback _ h => exact ih h hd.2

/-! ### Rendered text -/

private theorem mem_plainWrites (sp : Spelling) (pending : Nat) {items : List Item}
    (h : .text s.1 ∈ items) : s.1 ∈ plainWrites sp pending items := by
  induction items generalizing pending with
  | nil => cases h
  | cons item items ih =>
    rcases List.mem_cons.mp h with rfl | hrest
    · simp [plainWrites, s.2]
    · cases item with
      | text t =>
        rw [plainWrites]
        split
        · exact ih pending hrest
        · exact List.mem_cons_of_mem _ (List.mem_cons_of_mem _ (ih 0 hrest))
      | line level => exact List.mem_cons_of_mem _ (ih level hrest)
      | push a | pop a => exact ih pending hrest

/-- A fragment that a document shows occurs in its rendered text. -/
theorem infix_of_renderDoc {o : Options} {d : Doc} {t : String} (hknown : d.isKnown = true)
    (h : renderDoc o d = .ok t) (hd : d.shows s = true) : s.1.toList <:+: t.toList := by
  obtain ⟨items, hitems, hprints⟩ := exists_layout_prints o.page hknown
  rw [renderDoc, hitems] at h
  cases h
  have hmem := mem_plainWrites o.spelling 0 (hprints.admits.text_mem hd)
  rw [renderItems, String.toList_join, List.flatMap_def]
  exact List.infix_of_mem_flatten (List.mem_map_of_mem hmem)

/-! ### Combinators -/

namespace Doc

@[simp]
theorem shows_lit (t : String) : (lit t).shows s = decide (t = s.1) := rfl

@[simp]
theorem shows_tidy (d : Doc) : d.tidy.shows s = d.shows s := by
  cases d with
  | lit t =>
    rw [tidy]
    split
    · next ht =>
      have hne : t ≠ s.1 := by
        rintro rfl
        rw [s.2] at ht
        cases ht
      simp [shows, hne]
    · rfl
  | _ => rfl

@[simp]
theorem shows_grouped (d : Doc) : (grouped d).shows s = d.shows s := shows_tidy d

@[simp]
theorem shows_nested (d : Doc) : (nested d).shows s = d.shows s := shows_tidy d

@[simp]
theorem shows_annotate (a : Mark) (d : Doc) : (annotate a d).shows s = d.shows s := shows_tidy d

@[simp]
theorem shows_token (c : TokenClass) (t : String) : (token c t).shows s = decide (t = s.1) :=
  shows_tidy (lit t)

theorem shows_concat (ds : List Doc) : (concat ds).shows s = ds.any (shows s) :=
  anyShows_eq_any ds

theorem shows_fill (ds : List Doc) : (fill ds).shows s = ds.any (shows s) := anyShows_eq_any ds

private theorem any_map_tidy (ds : List Doc) : (ds.map tidy).any (shows s) = ds.any (shows s) := by
  rw [List.any_map]
  exact congrArg (List.any ds) (funext shows_tidy)

@[simp]
theorem shows_cat (ds : List Doc) : (cat ds).shows s = ds.any (shows s) := by
  match ds with
  | [] => rfl
  | [d] => simp [cat]
  | d :: e :: ds => exact (shows_concat _).trans (any_map_tidy (d :: e :: ds))

@[simp]
theorem shows_filled (ds : List Doc) : (filled ds).shows s = ds.any (shows s) :=
  (shows_fill _).trans (any_map_tidy ds)

theorem any_intersperse {α : Type} {p : α → Bool} (a : α) {as : List α}
    (h : as.any p = true) : (as.intersperse a).any p = true := by
  match as with
  | [] => cases h
  | [b] => exact h
  | b :: c :: as =>
    rw [List.any_cons, Bool.or_eq_true] at h
    rw [List.intersperse_cons_cons, List.any_cons, List.any_cons]
    rcases h with h | h
    · simp [h]
    · simp [any_intersperse a h]

theorem shows_sepBy (separator : Doc) {ds : List Doc} (h : ds.any (shows s) = true) :
    (sepBy separator ds).shows s = true :=
  (shows_cat _).trans (any_intersperse separator h)

theorem shows_commaSeparated (packed : Bool) {ds : List Doc} (h : ds.any (shows s) = true) :
    (commaSeparated packed ds).shows s = true := by
  rw [commaSeparated]
  split
  · exact (shows_filled _).trans (any_intersperse commaLine h)
  · exact shows_sepBy commaLine h

private theorem any_breakLast {ds : List Doc} (ih : ∀ d ∈ ds, d.breakGroup.shows s = d.shows s) :
    (breakLast ds).any (shows s) = ds.any (shows s) := by
  match ds with
  | [] => rw [breakLast]
  | [d] => simp [breakLast, ih d]
  | d :: e :: ds =>
    have htail := any_breakLast fun x hx => ih x (List.mem_cons_of_mem d hx)
    rw [breakLast, List.any_cons, htail]
    rfl

@[simp]
theorem shows_breakGroup (d : Doc) : d.breakGroup.shows s = d.shows s := by
  induction d using inductionOn with
  | concat ds ih => rw [breakGroup, shows_concat, shows_concat, any_breakLast ih]
  | annotated d a ih =>
    rw [breakGroup]
    exact ih
  | group d b => rfl
  | _ => rfl

/-- All candidates of an operand that hugs its operator hold the operand. -/
theorem shows_hug (separator : Doc) {operand : Doc} (h : operand.shows s = true) :
    (hug separator operand).shows s = true := by
  simp [hug, firstFitting, shows, allShow, h]

/-! ### Chains -/

private theorem any_chainPieces {operand : Doc} {links : List (Doc × Doc)}
    (h : (operand.shows s || links.any (·.2.shows s)) = true) :
    ((chainPieces operand links).1.any (shows s) || (chainPieces operand links).2.shows s) =
      true := by
  induction links generalizing operand with
  | nil => simpa [chainPieces] using h
  | cons link links ih =>
    rw [Bool.or_eq_true, List.any_cons] at h
    simp only [chainPieces, List.any_cons, shows_cat, Bool.or_assoc]
    rcases h with h | h
    · simp [h]
    · simp [ih h]

private theorem any_chainTail (packed : Bool) {ds : List Doc} (h : ds.any (shows s) = true) :
    (chainTail packed ds).any (shows s) = true := by
  have hlines : (lineBefore ds).any (shows s) = true := by
    obtain ⟨d, hd, hs⟩ := List.any_eq_true.mp h
    exact List.any_eq_true.mpr ⟨d, List.mem_flatMap.mpr ⟨d, hd, by simp⟩, hs⟩
  rw [chainTail]
  split
  · cases ds with
    | nil => cases h
    | cons d ds => simp [hlines]
  · exact hlines

/-- What follows the head of a chain shows the operands in it. -/
private theorem shows_chainRest (style : ChainStyle) {middle : List Doc} {last : Doc}
    (h : (middle.any (shows s) || last.shows s) = true) :
    (if style.hugLast then cat (chainTail style.packed middle ++ [hug softLine last])
      else cat (chainTail style.packed (middle ++ [last]))).shows s = true := by
  split
  · rw [shows_cat, List.any_append]
    rcases Bool.or_eq_true_iff.mp h with h | h
    · simp [any_chainTail style.packed h]
    · simp [shows_hug softLine h]
  · rw [shows_cat]
    exact any_chainTail style.packed (by simpa using h)

/-- A chain shows what its operands show. -/
theorem shows_chain (style : ChainStyle) {first : Doc} {links : List (Doc × Doc)}
    (h : (first.shows s || links.any (·.2.shows s)) = true) :
    (chain style first links).shows s = true := by
  cases links with
  | nil => simpa [chain] using h
  | cons link links =>
    simp only [chain, shows_grouped, shows_cat, List.any_cons, List.any_nil, Bool.or_false]
    rcases Bool.or_eq_true_iff.mp h with h | h
    · simp [h]
    · have hrest := shows_chainRest style (any_chainPieces h)
      cases style.indentRest <;> simp [hrest]

/-- A chain shows what its operands show. -/
theorem shows_of_chainOf {style : ChainStyle} {operands operators : List Doc} {d : Doc}
    (h : chainOf style operands operators = .ok d) (hs : operands.any (shows s) = true) :
    d.shows s = true := by
  cases operands with
  | nil => cases h
  | cons first rest =>
    rw [chainOf] at h
    split at h
    · next hlength =>
      cases h
      have hsnd : (operators.zip rest).map Prod.snd = rest :=
        List.map_snd_zip (Nat.le_of_eq hlength)
      rw [← hsnd, List.any_cons, List.any_map] at hs
      exact shows_chain style hs
    · cases h

end Doc

end Typeset
