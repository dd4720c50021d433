import Typeset.Doc.Combinators
import Typeset.Proofs.LayoutRun

/-!
# Layout between hard lines

A hard line at the top of a document cuts its layout in two: what stands in front of it and
what follows are laid out as if each were alone. Measuring looks ahead into the stack, but
no further than to the first line that is printed broken, and there it succeeds just as it
does at the end of a stack. So a decision in front of the line cannot see what follows it.
The line itself starts a new line at column zero, so nothing of what is in front is left when
it has been printed.

Normalising splices both halves into one concatenation and takes their marks off. This does
not matter, since at the top everything is printed broken.

## Main results

* `fits_append_line` : measuring ends at a line that is printed broken.
* `run_append_hardLine` : a run over a hard line is a run up to it and a run after it.
* `run_printAll_spliced` : at the top, what a normal form contributes is printed like it.
* `layout_concat_hardLine` : the two sides of a hard line are laid out apart.
* `layout_onLines` : documents on lines of their own are laid out one by one.
-/

namespace Typeset

variable {page : Page} {column : Int}

/-! ### Looking ahead -/

/-- Measuring ends at a line that is printed broken, as it does at the end of a stack. -/
theorem fits_append_line (b : Bool) (i : Nat) (k : LineKind) (tail : List Command)
    (remaining : Int) (cs : List Command) :
    fits b remaining (cs ++ .print i .broken (.line k) :: tail) = fits b remaining cs := by
  have hline (left : Int) : fits b left (.print i .broken (.line k) :: tail) = fits b left [] := by
    rcases Int.lt_or_le left 0 with hneg | hpos
    · rw [fits_of_neg hneg, fits_of_neg hneg]
    · rw [fits_cons hpos, fits, decide_eq_true hpos]
      rfl
  rw [fits_append_congr hline, List.append_nil]

/-- A hard line starts its line at the level of its command, and the run goes on there. -/
theorem run_hardLine (i : Nat) (tail : List Command) :
    run page column (.print i .broken (.line .hard) :: tail) =
      (run page (i * page.indentWidth) tail).prepend [.line i] :=
  run_cons (s := ⟨[.line i], i * page.indentWidth, []⟩) rfl

/-- What stands below a hard line does not change the run above it. -/
theorem run_append_hardLine (i : Nat) (tail : List Command) {cs : List Command}
    {items : List Item} (h : run page column cs = ⟨items, none⟩) :
    run page column (cs ++ .print i .broken (.line .hard) :: tail) =
      (run page (i * page.indentWidth) tail).prepend (items ++ [.line i]) := by
  -- along the run over the commands above the line
  fun_induction run page column cs generalizing items with
  | case1 column =>
    cases h
    exact run_hardLine i tail
  | case2 column c rest e he => cases h
  | case3 column c rest s hs ih =>
    have hlook (d : Command) :
        fits false (page.width - column)
            (d :: (rest ++ .print i .broken (.line .hard) :: tail)) =
          fits false (page.width - column) (d :: rest) :=
      fits_append_line false i .hard tail _ (d :: rest)
    have hs' : step page column c (rest ++ .print i .broken (.line .hard) :: tail) = .ok s := by
      rw [step_congr c hlook, hs]
    simp only [Layout.prepend, Layout.mk.injEq] at h
    obtain ⟨hitems, hfailure⟩ := h
    have hend : run page s.column (s.commands ++ rest) =
        ⟨(run page s.column (s.commands ++ rest)).items, none⟩ := by rw [← hfailure]
    have hrest := ih hend
    rw [List.append_assoc] at hrest
    rw [List.cons_append, run_cons hs', hrest, ← hitems]
    simp [Layout.prepend]

/-! ### Parts of a concatenation -/

/-- Parts that are joined are printed one after the other. -/
theorem run_joined (i : Nat) (m : Mode) (ds : List Doc) (rest : List Command) :
    run page column (.print i m (Doc.joined ds) :: rest) =
      run page column (Command.printAll i m ds ++ rest) := by
  match ds with
  | [] => exact run_cons_of_silent rfl
  | [d] => rfl
  | d :: d' :: ds => exact run_concat column i m _ rest

/-- In broken surroundings, what a document contributes to a concatenation is printed like
the document. -/
theorem run_printAll_spliced (i : Nat) (n : Doc) (rest : List Command) :
    run page column (Command.printAll i .broken n.spliced ++ rest) =
      run page column (.print i .broken n :: rest) := by
  cases n with
  | nil => exact (run_cons_of_silent rfl).symm
  | lit s =>
    by_cases hs : s.isEmpty = true
    · have hstep : step page column (.print i .broken (.lit s)) rest = .ok ⟨[], column, []⟩ := by
        simp [step, Command.print, printText, hs, pure, Except.pure]
      simp only [Doc.spliced, Doc.isEmpty, hs, if_true]
      exact (run_cons_of_silent hstep).symm
    · simp only [Doc.spliced, Doc.isEmpty, hs]
      rfl
  | concat ds => exact (run_concat column i .broken ds rest).symm
  | alwaysBreak n =>
    rw [run_alwaysBreak]
    cases n with
    | concat ds => exact (run_concat column i .broken ds rest).symm
    | _ => rfl
  | _ => rfl

/-- The layout of a document prints, broken at level zero, what the normal form of the
document contributes to a concatenation. -/
theorem layout_eq_run_spliced (page : Page) (d : Doc) :
    layout page d = run page 0 (Command.printAll 0 .broken d.normal.spliced) := by
  rw [layout, Doc.normalize_eq_normal, ← run_printAll_spliced, List.append_nil]

theorem layout_concat_eq_run (page : Page) (a b : Doc) :
    layout page (.concat [a, .line .hard, b]) =
      run page 0 (Command.printAll 0 .broken a.normal.spliced ++
        .print 0 .broken (.line .hard) :: Command.printAll 0 .broken b.normal.spliced) := by
  have hnormal : (Doc.concat [a, .line .hard, b]).normal =
      .alwaysBreak (Doc.joined (a.normal.spliced ++ .line .hard :: b.normal.spliced)) := by
    simp [Doc.normal, Doc.normalAll, Doc.rebuildConcat, Doc.rebuildLine, Doc.breakingIf,
      LineKind.forcesBreak, Doc.isBreaking, Doc.spliced]
  rw [layout, Doc.normalize_eq_normal, hnormal, run_alwaysBreak, run_joined, List.append_nil]
  simp [Command.printAll]

/-! ### The layout -/

/-- **The two sides of a hard line are laid out apart.** On every page, the layout of two
documents with a hard line between them is the layout of the first one, a line break to level
zero, and the layout of the second one. -/
theorem layout_concat_hardLine (page : Page) {a b : Doc} (ha : a.isKnown = true)
    (hb : b.isKnown = true) :
    ∃ xs ys, (layout page a).result = .ok xs ∧ (layout page b).result = .ok ys ∧
      (layout page (.concat [a, .line .hard, b])).result = .ok (xs ++ [.line 0] ++ ys) := by
  obtain ⟨xs, hxs⟩ := exists_layout_eq page ha
  obtain ⟨ys, hys⟩ := exists_layout_eq page hb
  refine ⟨xs, ys, by rw [hxs]; rfl, by rw [hys]; rfl, ?_⟩
  rw [layout_eq_run_spliced] at hxs hys
  have hcolumn : ((0 : Nat) : Int) * page.indentWidth = 0 := by simp
  rw [layout_concat_eq_run, run_append_hardLine 0 _ hxs, hcolumn, hys]
  rfl

/-- A group that is flat although a wide text follows after the line, and a fill whose items
are packed anew after it. -/
theorem layout_concat_hardLine_fill :
    let a : Doc := .group (.concat [.lit "f(", .line .empty, .annotated (.lit "x)") (.label "n")])
      false
    let b : Doc := .fill [.lit "aaaa", .line .soft, .lit "bb", .line .soft, .alwaysBreak (.lit "c")]
    (a.isKnown = true ∧ b.isKnown = true) ∧
      ∃ xs ys, (layout ⟨4, 2⟩ a).result = .ok xs ∧ (layout ⟨4, 2⟩ b).result = .ok ys ∧
        (layout ⟨4, 2⟩ (.concat [a, .line .hard, b])).result = .ok (xs ++ [.line 0] ++ ys) :=
  ⟨⟨rfl, rfl⟩, layout_concat_hardLine _ rfl rfl⟩

/-! ### Documents on lines of their own -/

theorem Doc.spliced_normal_tidy (d : Doc) : d.tidy.normal.spliced = d.normal.spliced := by
  cases d with
  | lit s => by_cases hs : s.isEmpty = true <;> simp [tidy, normal, spliced, isEmpty, hs]
  | _ => rfl

/-- In broken surroundings, parts one after the other are printed as what they contribute to a
concatenation. -/
theorem run_normal_cat (i : Nat) (ds : List Doc) (rest : List Command) :
    run page column (.print i .broken (Doc.cat ds).normal :: rest) =
      run page column
        (Command.printAll i .broken (ds.flatMap fun d => d.normal.spliced) ++ rest) := by
  match ds with
  | [] => exact run_cons_of_silent rfl
  | [d] =>
    rw [List.flatMap_singleton, ← d.spliced_normal_tidy, run_printAll_spliced]
    rfl
  | d :: d' :: ds =>
    have hparts : (Doc.normalAll ((d :: d' :: ds).map Doc.tidy)).flatMap Doc.spliced =
        (d :: d' :: ds).flatMap fun d => d.normal.spliced := by
      rw [Doc.normalAll_eq_map, List.map_map, List.flatMap_map]
      simp only [Function.comp_apply, Doc.spliced_normal_tidy]
    rw [← hparts, ← run_joined]
    show run page column (.print i .broken (Doc.breakingIf _ (Doc.joined _)) :: rest) = _
    rw [Doc.breakingIf]
    split
    · exact run_alwaysBreak column i .broken _ rest
    · rfl

/-- Separators between parts and one at the end are separators after each part. -/
theorem flatMap_intersperse_append {α β : Type} (f : α → List β) (separator : α) {as : List α}
    (hne : as ≠ []) :
    (as.intersperse separator).flatMap f ++ f separator =
      as.flatMap fun a => f a ++ f separator := by
  match as with
  | [a] => simp
  | a :: b :: as =>
    have hrest := flatMap_intersperse_append f separator (List.cons_ne_nil b as)
    rw [List.intersperse_cons_cons, List.flatMap_cons, List.flatMap_cons, List.append_assoc,
      List.append_assoc, hrest, ← List.append_assoc]
    rfl

/-- A run over documents, each with a hard line after it, is a run over each of them. -/
theorem run_hardLines (page : Page) {ds : List Doc} (hds : ∀ d ∈ ds, d.isKnown = true) :
    run page 0 (Command.printAll 0 .broken
        (ds.flatMap fun d => d.normal.spliced ++ [.line .hard])) =
      ⟨ds.flatMap fun d => (layout page d).items ++ [.line 0], none⟩ := by
  induction ds with
  | nil => rw [List.flatMap_nil, Command.printAll, List.map_nil, run]; rfl
  | cons d ds ih =>
    obtain ⟨hd, hds⟩ := List.forall_mem_cons.mp hds
    obtain ⟨items, hitems⟩ := exists_layout_eq page hd
    have hrun := layout_eq_run_spliced page d
    rw [hitems] at hrun
    have hcolumn : ((0 : Nat) : Int) * page.indentWidth = 0 := by simp
    have hcommands : Command.printAll 0 .broken
        ((d :: ds).flatMap fun d => d.normal.spliced ++ [.line .hard]) =
        Command.printAll 0 .broken d.normal.spliced ++ .print 0 .broken (.line .hard) ::
          Command.printAll 0 .broken
            (ds.flatMap fun d => d.normal.spliced ++ [.line .hard]) := by
      simp [Command.printAll]
    rw [hcommands, run_append_hardLine 0 _ hrun.symm, hcolumn, ih hds, List.flatMap_cons, hitems]
    rfl

/-- Documents on lines of their own, with the last line ended, are laid out one by one. -/
theorem layout_onLines (page : Page) {ds : List Doc} (hne : ds ≠ [])
    (hds : ∀ d ∈ ds, d.isKnown = true) :
    layout page (.cat [.sepBy .hardLine ds, .hardLine]) =
      ⟨ds.flatMap fun d => (layout page d).items ++ [.line 0], none⟩ := by
  rw [layout, Doc.normalize_eq_normal, run_normal_cat, List.append_nil, List.flatMap_cons,
    List.flatMap_singleton, Command.printAll, List.map_append]
  show run page 0 (Command.printAll 0 .broken (Doc.sepBy .hardLine ds).normal.spliced ++ _) = _
  rw [run_printAll_spliced, Doc.sepBy, run_normal_cat, Command.printAll, ← List.map_append,
    flatMap_intersperse_append (fun d => d.normal.spliced) .hardLine hne]
  exact run_hardLines page hds

end Typeset
