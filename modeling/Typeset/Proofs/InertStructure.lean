import Typeset.Proofs.PlainDocuments

/-!
# Layout up to inert structure

Two documents that differ in inert structure only are laid out alike, but for the marks in
the stream. Inert are: whether a text is a node or not, an empty text, marks, and how
concatenations are nested and padded with empty documents. Such documents may have normal
forms of quite different shape, since a mark keeps a concatenation from being spliced. But
their normal forms become equal when they are made plain, since what is left of a normal form
is determined by whether the document must break and by what is left of its parts.

## Main definitions

* `Doc.Alike` : the least congruence on documents in which inert structure does not count.
* `Doc.plainContents` : what is left of the normal form of a document, apart from its mark.

## Main results

* `Doc.Alike.mustBreak_eq`, `Doc.Alike.plainContents_eq` : alike documents have the same mark
  and the same contents.
* `layout_unmarked_eq_of_alike` : alike documents are laid out alike.
-/

namespace Typeset

namespace Doc

/-- Documents that differ in inert structure only: the least congruence in which a text node
is its text, the empty text is empty, a mark does not count, nested concatenations are
spliced, empty parts are dropped, and a concatenation of one part or of none is that part or
empty. -/
inductive Alike : Doc → Doc → Prop
  | refl (d : Doc) : Alike d d
  | symm {d e : Doc} (h : Alike d e) : Alike e d
  | trans {d e f : Doc} (h : Alike d e) (h' : Alike e f) : Alike d f
  | textNode (s : String) : Alike (text s) (lit s)
  | emptyText : Alike (lit "") nil
  | mark (d : Doc) (a : Mark) : Alike (annotated d a) d
  | splice (xs ys zs : List Doc) :
      Alike (concat (xs ++ [concat ys] ++ zs)) (concat (xs ++ ys ++ zs))
  | drop (xs zs : List Doc) : Alike (concat (xs ++ [nil] ++ zs)) (concat (xs ++ zs))
  | single (d : Doc) : Alike (concat [d]) d
  | none : Alike (concat []) nil
  | concat {d e : Doc} (xs zs : List Doc) (h : Alike d e) :
      Alike (concat (xs ++ [d] ++ zs)) (concat (xs ++ [e] ++ zs))
  | indent {d e : Doc} (h : Alike d e) : Alike (indent d) (indent e)
  | annotated {d e : Doc} (a : Mark) (h : Alike d e) : Alike (annotated d a) (annotated e a)
  | group {d e : Doc} (forced : Bool) (h : Alike d e) : Alike (group d forced) (group e forced)
  | alwaysBreak {d e : Doc} (h : Alike d e) : Alike (alwaysBreak d) (alwaysBreak e)
  | fill {d e : Doc} (xs zs : List Doc) (h : Alike d e) :
      Alike (fill (xs ++ [d] ++ zs)) (fill (xs ++ [e] ++ zs))
  | candidate {d e : Doc} (xs zs : List Doc) (fallback : Doc) (h : Alike d e) :
      Alike (conditional (xs ++ [d] ++ zs) fallback) (conditional (xs ++ [e] ++ zs) fallback)
  | fallback {d e : Doc} (front : List Doc) (h : Alike d e) :
      Alike (conditional front d) (conditional front e)

/-! ### Contents of normal forms -/

/-- The parts of a document without inert structure, apart from a mark at its top. -/
def unbrokenParts : Doc → List Doc
  | alwaysBreak d => d.plainParts
  | d => d.plainParts

/-- What is left of the normal form of a document without inert structure, apart from the mark
of a forced break. -/
def plainContents (d : Doc) : List Doc := d.normal.unbrokenParts

theorem unbrokenParts_of_not_isBreaking {d : Doc} (h : d.isBreaking = false) :
    d.unbrokenParts = d.plainParts := by
  cases d with
  | alwaysBreak d => cases h
  | _ => rfl

/-- A plain document is put together from its mark and its other parts. -/
theorem plain_eq (d : Doc) : d.plain = breakingIf d.isBreaking (concat d.unbrokenParts) := by
  cases d <;> rfl

theorem plain_normal (d : Doc) :
    d.normal.plain = breakingIf d.mustBreak (concat d.plainContents) := by
  rw [plain_eq, isBreaking_normal, plainContents]

private theorem flatMap_spliced (n : Doc) : n.spliced.flatMap plainParts = n.unbrokenParts := by
  cases n with
  | concat ds => exact (plainParts_concat ds).symm
  | alwaysBreak n =>
    cases n with
    | concat ds => exact (plainParts_concat ds).symm
    | _ => simp [spliced, unbrokenParts]
  | nil => rfl
  | lit s =>
    by_cases hs : s.isEmpty = true <;> simp [spliced, isEmpty, unbrokenParts, plainParts, hs]
  | _ => simp [spliced, isEmpty, unbrokenParts]

private theorem plainParts_joined (ds : List Doc) :
    (joined ds).plainParts = ds.flatMap plainParts := by
  match ds with
  | [] => rfl
  | [d] => simp [joined]
  | d :: d' :: ds => exact plainParts_concat _

@[simp]
theorem plainContents_nil : plainContents nil = [] := rfl

theorem plainContents_lit (s : String) :
    plainContents (lit s) = if s.isEmpty then [] else [lit s] := rfl

theorem plainContents_text (s : String) : plainContents (text s) = plainContents (lit s) := by
  rw [plainContents_lit, plainContents, normal, rebuildText]
  by_cases hs : s.isEmpty = true
  · simp only [hs, if_true]
    rfl
  · simp [hs, unbrokenParts, plainParts]

@[simp]
theorem plainContents_concat (ds : List Doc) :
    plainContents (concat ds) = ds.flatMap plainContents := by
  have hparts : ((ds.map normal).flatMap spliced).flatMap plainParts =
      ds.flatMap plainContents := by
    rw [List.flatMap_assoc, List.flatMap_map]
    exact congrArg (ds.flatMap ·) (funext fun d => flatMap_spliced d.normal)
  have hmark := isBreaking_normal (concat ds)
  rw [plainContents]
  rw [normal, normalAll_eq_map, rebuildConcat, any_isBreaking_map_normal] at hmark ⊢
  rw [← hparts, ← plainParts_joined]
  cases hb : anyMustBreak ds with
  | true => rfl
  | false =>
    rw [hb, mustBreak, hb] at hmark
    exact unbrokenParts_of_not_isBreaking hmark

@[simp]
theorem plainContents_indent (d : Doc) :
    plainContents (indent d) = [indent (concat (plainContents d))] := by
  rw [plainContents, plainContents, normal]
  cases d.normal <;> rfl

@[simp]
theorem plainContents_annotated (d : Doc) (a : Mark) :
    plainContents (annotated d a) = plainContents d := by
  rw [plainContents, plainContents, normal]
  cases d.normal <;> rfl

theorem plainContents_group (d : Doc) (b : Bool) :
    plainContents (group d b) =
      if d.mustBreak then plainContents d else [group (concat (plainContents d)) b] := by
  rw [plainContents, plainContents, normal, ← isBreaking_normal]
  cases d.normal <;> rfl

@[simp]
theorem plainContents_alwaysBreak (d : Doc) : plainContents (alwaysBreak d) = plainContents d := by
  rw [plainContents, plainContents, normal]
  cases d.normal <;> rfl

private theorem unbrokenParts_breakingIf {d : Doc} (hd : d.isBreaking = false) (b : Bool) :
    (breakingIf b d).unbrokenParts = d.plainParts := by
  cases b with
  | true => rfl
  | false => exact unbrokenParts_of_not_isBreaking hd

theorem plainContents_fill (ds : List Doc) :
    plainContents (fill ds) =
      [fill (ds.map fun d => breakingIf d.mustBreak (concat (plainContents d)))] := by
  rw [plainContents, normal, normalAll_eq_map, rebuildFill, unbrokenParts_breakingIf rfl,
    plainParts_fill, List.map_map]
  simp only [Function.comp_def, plain_normal]

theorem plainContents_conditional (ds : List Doc) (d : Doc) :
    plainContents (conditional ds d) =
      [conditional (ds.map fun d => breakingIf d.mustBreak (concat (plainContents d)))
        (breakingIf d.mustBreak (concat (plainContents d)))] := by
  rw [plainContents, normal, normalAll_eq_map, rebuildConditional, unbrokenParts_breakingIf rfl,
    plainParts_conditional, List.map_map]
  simp only [Function.comp_def, plain_normal]

/-! ### Alike documents -/

variable {d e : Doc}

/-- Alike documents must break alike. -/
theorem Alike.mustBreak_eq (h : Alike d e) : d.mustBreak = e.mustBreak := by
  induction h with
  | refl => rfl
  | symm _ ih => exact ih.symm
  | trans _ _ ih ih' => exact ih.trans ih'
  | textNode | emptyText | none => rfl
  | mark => rw [mustBreak]
  | splice => simp [mustBreak, anyMustBreak_eq_any]
  | drop => simp [mustBreak, anyMustBreak_eq_any]
  | single => simp [mustBreak, anyMustBreak_eq_any]
  | concat _ _ _ ih => simp [mustBreak, anyMustBreak_eq_any, ih]
  | fill _ _ _ ih => simp [mustBreak, anyMustBreak_eq_any, ih]
  | indent _ ih => simpa [mustBreak] using ih
  | annotated _ _ ih => simpa [mustBreak] using ih
  | group _ _ ih => simpa [mustBreak] using ih
  | alwaysBreak => rfl
  | candidate _ _ _ _ ih => simp [mustBreak, allMustBreak_eq_all, ih]
  | fallback _ _ ih => simp [mustBreak, ih]

/-- Alike documents have the same contents. -/
theorem Alike.plainContents_eq (h : Alike d e) : d.plainContents = e.plainContents := by
  induction h with
  | refl => rfl
  | symm _ ih => exact ih.symm
  | trans _ _ ih ih' => exact ih.trans ih'
  | textNode s => exact plainContents_text s
  | emptyText | none => rfl
  | mark => simp
  | splice | drop | single => simp
  | concat _ _ _ ih => simp [ih]
  | indent _ ih => simp [ih]
  | annotated _ _ ih => simpa using ih
  | group _ h ih => rw [plainContents_group, plainContents_group, h.mustBreak_eq, ih]
  | alwaysBreak _ ih => simpa using ih
  | fill _ _ h ih => simp [plainContents_fill, h.mustBreak_eq, ih]
  | candidate _ _ _ h ih => simp [plainContents_conditional, h.mustBreak_eq, ih]
  | fallback _ h ih => simp [plainContents_conditional, h.mustBreak_eq, ih]

/-- The normal forms of alike documents are the same without inert structure. -/
theorem Alike.plain_normal_eq (h : Alike d e) : d.normal.plain = e.normal.plain := by
  rw [plain_normal, plain_normal, h.mustBreak_eq, h.plainContents_eq]

end Doc

/-! ### The layout -/

/-- The layout of a document of known sorts without its marks is the run of the plain form of
its normal form. -/
theorem exists_layout_unmarked (page : Page) {d : Doc} (hd : d.isKnown = true) :
    ∃ items, (layout page d).result = .ok items ∧
      run page 0 [.print 0 .broken d.normal.plain] = ⟨unmarked items, none⟩ := by
  have hstack : [Command.print 0 .broken d.normal].all (Command.all Doc.hasKnownSort) = true := by
    simpa using Doc.all_normal rfl rfl rfl hd
  obtain ⟨items, hrun, hplain⟩ := exists_run_plainStack page 0 hstack
  refine ⟨items, ?_, ?_⟩
  · rw [layout, Doc.normalize_eq_normal, hrun]
    rfl
  · rw [run_plain, ← hplain]
    simp

/-- **The layout depends on the document up to inert structure only.** Two documents of known
sorts that differ in inert structure are laid out on every page as the same stream, once the
beginnings and ends of marks are taken out of both. -/
theorem layout_unmarked_eq_of_alike (page : Page) {d e : Doc} (hd : d.isKnown = true)
    (he : e.isKnown = true) (h : d.Alike e) :
    ∃ xs ys, (layout page d).result = .ok xs ∧ (layout page e).result = .ok ys ∧
      unmarked xs = unmarked ys := by
  obtain ⟨xs, hxs, hplain⟩ := exists_layout_unmarked page hd
  obtain ⟨ys, hys, hplain'⟩ := exists_layout_unmarked page he
  refine ⟨xs, ys, hxs, hys, ?_⟩
  rw [h.plain_normal_eq, hplain'] at hplain
  exact (congrArg Layout.items hplain).symm

/-- A fill in which the content after a separator is marked, and nested in a concatenation that
is padded with an empty document. -/
theorem layout_unmarked_eq_of_alike_fill :
    let d : Doc := .fill [.lit "aa", .line .soft,
      .annotated (.concat [.concat [.text "b", .line .empty], .nil, .lit "c"]) (.label "n")]
    let e : Doc := .fill [.lit "aa", .line .soft, .concat [.lit "b", .line .empty, .lit "c"]]
    (d.isKnown = true ∧ e.isKnown = true ∧ d.Alike e) ∧
      ∃ xs ys, (layout ⟨4, 2⟩ d).result = .ok xs ∧ (layout ⟨4, 2⟩ e).result = .ok ys ∧
        unmarked xs = unmarked ys := by
  intro d e
  have hparts : Doc.Alike (.concat [.concat [.text "b", .line .empty], .nil, .lit "c"])
      (.concat [.lit "b", .line .empty, .lit "c"]) :=
    ((Doc.Alike.splice [] [.text "b", .line .empty] [.nil, .lit "c"]).trans
      (.drop [.text "b", .line .empty] [.lit "c"])).trans
      (.concat [] [.line .empty, .lit "c"] (.textNode "b"))
  have h : d.Alike e := .fill [.lit "aa", .line .soft] [] ((Doc.Alike.mark _ _).trans hparts)
  exact ⟨⟨rfl, rfl, h⟩, layout_unmarked_eq_of_alike _ rfl rfl h⟩

end Typeset
