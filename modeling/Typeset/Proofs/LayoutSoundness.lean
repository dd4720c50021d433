import Typeset.Proofs.Admissible
import Typeset.Proofs.LayoutRun

/-!
# Soundness of the layout

The layout of a document of known sorts is not stopped, and its items are a stream that the
document admits. The argument has two halves that meet in the relation `Prints`, which says
what the layout can print for a document when all its measurements are taken as free choices
and forced breaks are seen by their marks alone. A run prints, for the commands on its stack
one after the other, streams of this relation; and what it prints for a normal form is
admitted by the document itself, where forced breaks are seen through the whole document.

## Main definitions

* `Prints`, `PrintsEach` : what the layout can print for a document, and for several.
* `Command.Prints`, `StackPrints` : the same for commands and stacks.

## Main results

* `CarriedOut.prints` : a step prints its items and what the commands put back print.
* `Prints.admits` : what is printed for the normal form is admitted by the document.
* `admits_of_layout`, `layout_admitted` : a layout is one that the document admits, and every
  document of known sorts has one.
-/

namespace Typeset

/-! ### What can be printed -/

mutual

/-- The streams that the layout can print for a document, whatever its measurements say. -/
inductive Prints : Nat → Mode → Doc → List Item → Prop
  | nil (i : Nat) (m : Mode) : Prints i m .nil []
  | lit (i : Nat) (m : Mode) (s : String) : Prints i m (.lit s) (textItems s)
  | text (i : Nat) (m : Mode) (s : String) : Prints i m (.text s) (textItems s)
  | line (i : Nat) (m : Mode) (k : LineKind) : Prints i m (.line k) (lineItems i m k)
  | concat {i m ds items} (h : PrintsEach i [m] ds items) : Prints i m (.concat ds) items
  | indent {i m d items} (h : Prints (i + 1) m d items) : Prints i m (.indent d) items
  | annotated {i m d a items} (h : Prints i m d items) :
      Prints i m (.annotated d a) (.push a :: items ++ [.pop a])
  | alwaysBreak {i m d items} (h : Prints i .broken d items) :
      Prints i m (.alwaysBreak d) items
  | forcedGroup {i m d items} (h : Prints i .broken d items) :
      Prints i m (.group d true) items
  | group {i m m' d items} (hm : m' ∈ m.choices) (h : Prints i m' d items) :
      Prints i m (.group d false) items
  | fill {i m ds items} (h : PrintsEach i m.choices ds items) : Prints i m (.fill ds) items
  | flatCandidate {i front fallback items}
      (h : Prints i .flat (Doc.flatCandidate front fallback) items) :
      Prints i .flat (.conditional front fallback) items
  | candidate {i front fallback d items} (hd : d ∈ front) (h : Prints i .flat d items) :
      Prints i .broken (.conditional front fallback) items
  | fallback {i front fallback items} (h : Prints i .broken fallback items) :
      Prints i .broken (.conditional front fallback) items

/-- The streams for documents one after the other, each in one of the modes. -/
inductive PrintsEach : Nat → List Mode → List Doc → List Item → Prop
  | nil (i : Nat) (ms : List Mode) : PrintsEach i ms [] []
  | cons {i ms m d ds xs ys} (hm : m ∈ ms) (h : Prints i m d xs) (hs : PrintsEach i ms ds ys) :
      PrintsEach i ms (d :: ds) (xs ++ ys)

end

variable {i : Nat} {m : Mode} {ms : List Mode} {d : Doc} {ds : List Doc} {items : List Item}

theorem PrintsEach.exists_append {es : List Doc} (h : PrintsEach i ms (ds ++ es) items) :
    ∃ xs ys, items = xs ++ ys ∧ PrintsEach i ms ds xs ∧ PrintsEach i ms es ys := by
  induction ds generalizing items with
  | nil => exact ⟨[], items, rfl, .nil i ms, h⟩
  | cons d ds ih =>
    cases h with
    | cons hm hd hs =>
      obtain ⟨xs, ys, rfl, hxs, hys⟩ := ih hs
      exact ⟨_, ys, (List.append_assoc ..).symm, .cons hm hd hxs, hys⟩

theorem printsEach_singleton_iff : PrintsEach i [m] [d] items ↔ Prints i m d items := by
  constructor
  · intro h
    cases h with
    | cons hm hd hs =>
      cases hs
      rw [List.mem_singleton.mp hm] at hd
      rwa [List.append_nil]
  · intro h
    simpa using PrintsEach.cons List.mem_cons_self h (.nil i [m])

/-! ### Stacks of commands -/

/-- The streams that the layout can print for a command. -/
def Command.Prints (c : Command) (items : List Item) : Prop :=
  match c.content with
  | .doc d => Typeset.Prints c.level c.mode d items
  | .endMark a => items = [.pop a]
  | .fillRest _ item rest => PrintsEach c.level [.flat, .broken] (item :: rest) items

/-- The streams that the layout can print for the commands of a stack. -/
def StackPrints : List Command → List Item → Prop
  | [], items => items = []
  | c :: cs, items => ∃ xs ys, items = xs ++ ys ∧ c.Prints xs ∧ StackPrints cs ys

theorem StackPrints.exists_append {cs ds : List Command} (h : StackPrints (cs ++ ds) items) :
    ∃ xs ys, items = xs ++ ys ∧ StackPrints cs xs ∧ StackPrints ds ys := by
  induction cs generalizing items with
  | nil => exact ⟨[], items, rfl, rfl, h⟩
  | cons c cs ih =>
    obtain ⟨xs, ys, rfl, hc, h⟩ := h
    obtain ⟨ys, zs, rfl, hcs, hds⟩ := ih h
    exact ⟨xs ++ ys, zs, (List.append_assoc ..).symm, ⟨xs, ys, rfl, hc, hcs⟩, hds⟩

theorem StackPrints.singleton {c : Command} (h : StackPrints [c] items) : c.Prints items := by
  obtain ⟨xs, ys, rfl, hc, rfl⟩ := h
  rwa [List.append_nil]

private theorem StackPrints.printAll (h : StackPrints (Command.printAll i m ds) items) :
    PrintsEach i [m] ds items := by
  induction ds generalizing items with
  | nil => cases h; exact .nil i [m]
  | cons d ds ih =>
    obtain ⟨xs, ys, rfl, hd, h⟩ := h
    exact .cons List.mem_cons_self hd (ih h)

private theorem StackPrints.fillRest {b : Bool}
    (h : StackPrints (fillRestCommands i .broken b ds) items) :
    PrintsEach i [.flat, .broken] ds items := by
  cases ds with
  | nil => cases h; exact .nil i _
  | cons d ds => exact h.singleton

private theorem StackPrints.fillItem {b flat : Bool}
    (h : StackPrints (.print i (if flat then .flat else .broken) d ::
      fillRestCommands i .broken b ds) items) :
    PrintsEach i [.flat, .broken] (d :: ds) items := by
  obtain ⟨xs, ys, rfl, hd, h⟩ := h
  refine .cons ?_ hd h.fillRest
  cases flat <;> simp [Command.print]

private theorem items_printText (column : Int) (s : String) :
    (printText column s).items = textItems s := by
  rw [printText, textItems]
  split <;> rfl

private theorem items_printLine (page : Page) (column : Int) (k : LineKind) :
    (printLine page column i m k).items = lineItems i m k := by
  cases m <;> cases k <;> rfl

/-- A step prints its items followed by what the commands that it puts back print. -/
theorem CarriedOut.prints {page : Page} {column : Int} {rest : List Command} {c : Command}
    {s : Step} (hc : CarriedOut page column rest c s) {xs : List Item}
    (h : StackPrints s.commands xs) : c.Prints (s.items ++ xs) := by
  cases hc with
  | endMark i m a => cases h; rfl
  | fillRest _ => exact h.fillItem
  | nil i m => cases h; exact .nil i m
  | lit i m s =>
    rw [commands_printText] at h
    rw [show xs = [] from h, List.append_nil, items_printText]
    exact .lit i m s
  | text i m s =>
    rw [commands_printText] at h
    rw [show xs = [] from h, List.append_nil, items_printText]
    exact .text i m s
  | line i m k =>
    rw [commands_printLine] at h
    rw [show xs = [] from h, List.append_nil, items_printLine]
    exact .line i m k
  | concat i m ds => exact .concat h.printAll
  | indent i m d => exact .indent h.singleton
  | annotated i m d a =>
    obtain ⟨xs, ys, rfl, hd, h⟩ := h
    cases h.singleton
    exact .annotated hd
  | alwaysBreak i m d => exact .alwaysBreak h.singleton
  | forcedGroup i m d => exact .forcedGroup h.singleton
  | flatGroup i d => exact .group List.mem_cons_self h.singleton
  | @group i d flat _ =>
    refine .group ?_ h.singleton
    cases flat <;> simp [Mode.choices, Command.print]
  | flatConditional i front fallback => exact .flatCandidate h.singleton
  | candidate _ _ => exact .candidate (by simp) h.singleton
  | fallback _ => exact .fallback h.singleton
  | flatFill i ds => exact .fill h.printAll
  | emptyFill i => cases h; exact .fill (.nil i _)
  | fill _ => exact .fill h.fillItem

/-- A run that is not stopped prints streams for its commands one after the other. -/
theorem stackPrints_of_run {page : Page} {column : Int} {cs : List Command}
    (h : run page column cs = ⟨items, none⟩) : StackPrints cs items := by
  fun_induction run page column cs generalizing items with
  | case1 column => cases h; rfl
  | case2 column c rest e he => cases h
  | case3 column c rest s hs ih =>
    simp only [Layout.prepend, Layout.mk.injEq] at h
    obtain ⟨rfl, hfailure⟩ := h
    obtain ⟨xs, ys, hitems, hxs, hys⟩ :=
      StackPrints.exists_append (ih (by rw [← hfailure]))
    refine ⟨s.items ++ xs, ys, ?_, (CarriedOut.of_step hs).prints hxs, hys⟩
    rw [hitems, List.append_assoc]

/-- The run of commands of known sorts prints streams for them one after the other. -/
theorem exists_run_stackPrints (page : Page) (column : Int) {cs : List Command}
    (hcs : cs.all (Command.all Doc.hasKnownSort) = true) :
    ∃ items, run page column cs = ⟨items, none⟩ ∧ StackPrints cs items := by
  have hend : ∃ items, run page column cs = ⟨items, none⟩ ∧ True :=
    run_induction (P := fun _ _ _ => True) (fun _ => trivial) (fun _ _ => trivial) column cs hcs
  obtain ⟨items, hrun, -⟩ := hend
  exact ⟨items, hrun, stackPrints_of_run hrun⟩

/-! ### Normal forms -/

theorem Prints.breakingIf {b : Bool} (h : Prints i m (Doc.breakingIf b d) items) :
    Prints i (if b then .broken else m) d items := by
  cases b with
  | false => exact h
  | true =>
    cases h with
    | alwaysBreak h => exact h

theorem Prints.joined (h : Prints i m (Doc.joined ds) items) : PrintsEach i [m] ds items := by
  match ds with
  | [] => cases h; exact .nil i [m]
  | [d] => exact printsEach_singleton_iff.mpr h
  | d :: d' :: ds =>
    cases h with
    | concat h => exact h

/-- A normal form prints what the parts print that it contributes to a concatenation, if it
is printed broken where it is marked. -/
private theorem prints_of_spliced {n : Doc} (hm : n.isBreaking = true → m = .broken)
    (h : PrintsEach i [m] n.spliced items) : Prints i m n items := by
  cases n with
  | concat ds => exact .concat h
  | alwaysBreak n =>
    rw [hm rfl] at h
    refine .alwaysBreak ?_
    cases n with
    | concat ds => exact .concat h
    | _ => exact printsEach_singleton_iff.mp h
  | nil => cases h; exact .nil i m
  | lit s =>
    by_cases hs : s.isEmpty = true
    · simp only [Doc.spliced, Doc.isEmpty, hs, if_true] at h
      cases h
      simpa [textItems, hs] using Prints.lit i m s
    · simp only [Doc.spliced, Doc.isEmpty, hs] at h
      exact printsEach_singleton_iff.mp h
  | _ => exact printsEach_singleton_iff.mp h

private theorem printsEach_of_flatMap_spliced {ns : List Doc}
    (hm : ns.any Doc.isBreaking = true → m = .broken)
    (h : PrintsEach i [m] (ns.flatMap Doc.spliced) items) : PrintsEach i [m] ns items := by
  induction ns generalizing items with
  | nil => exact h
  | cons n ns ih =>
    rw [List.flatMap_cons] at h
    obtain ⟨xs, ys, rfl, hxs, hys⟩ := h.exists_append
    have hn := prints_of_spliced (fun hn => hm (by simp [hn])) hxs
    have hns := ih (fun hns => hm (by simp [hns])) hys
    exact .cons List.mem_cons_self hn hns

/-- A concatenation of normal forms prints what its parts print, all broken if one of them is
marked. -/
theorem Prints.rebuildConcat {ns : List Doc} (h : Prints i m (Doc.rebuildConcat ns) items) :
    PrintsEach i [if ns.any Doc.isBreaking then .broken else m] ns items := by
  refine printsEach_of_flatMap_spliced (fun hn => ?_) h.breakingIf.joined
  simp [hn]

/-- An indented normal form prints the normal form one level deeper, broken if it is
marked. -/
theorem Prints.rebuildIndent {n : Doc} (h : Prints i m (Doc.liftBreak .indent n) items) :
    Prints (i + 1) (if n.isBreaking then .broken else m) n items := by
  cases n with
  | alwaysBreak n =>
    cases h with
    | alwaysBreak h =>
      cases h with
      | indent h => exact .alwaysBreak h
  | _ =>
    cases h with
    | indent h => exact h

/-- A normal form with a mark on it prints the normal form between the ends of the mark,
broken if it has to break. -/
theorem Prints.rebuildAnnotated {n : Doc} {a : Mark}
    (h : Prints i m (Doc.liftBreak (.annotated · a) n) items) :
    ∃ xs, items = .push a :: xs ++ [.pop a] ∧
      Prints i (if n.isBreaking then .broken else m) n xs := by
  cases n with
  | alwaysBreak n =>
    cases h with
    | alwaysBreak h =>
      cases h with
      | annotated h => exact ⟨_, rfl, .alwaysBreak h⟩
  | _ =>
    cases h with
    | annotated h => exact ⟨_, rfl, h⟩

/-- A group of a normal form prints the normal form in one of three ways: broken because it
is marked or because the group is forced, or else in a mode of choice. -/
theorem Prints.rebuildGroup {n : Doc} {b : Bool} (h : Prints i m (Doc.rebuildGroup b n) items) :
    n.isBreaking = true ∧ Prints i .broken n items ∨
    n.isBreaking = false ∧ b = true ∧ Prints i .broken n items ∨
    n.isBreaking = false ∧ b = false ∧ ∃ m' ∈ m.choices, Prints i m' n items := by
  cases n with
  | alwaysBreak n =>
    cases h with
    | alwaysBreak h => exact .inl ⟨rfl, .alwaysBreak h⟩
  | _ =>
    right
    cases h with
    | forcedGroup h => exact .inl ⟨rfl, rfl, h⟩
    | group hm h => exact .inr ⟨rfl, rfl, _, hm, h⟩

theorem Prints.rebuildBreak {n : Doc} (h : Prints i m (Doc.rebuildBreak n) items) :
    Prints i .broken n items := by
  cases n with
  | alwaysBreak n =>
    cases h with
    | alwaysBreak h => exact .alwaysBreak h
  | _ =>
    cases h with
    | alwaysBreak h => exact h

theorem Prints.eq_lineItems {k : LineKind} (h : Prints i m (.line k) items) :
    items = lineItems i m k := by
  cases h
  rfl

theorem Prints.fillItems (h : Prints i m (.fill ds) items) : PrintsEach i m.choices ds items := by
  cases h with
  | fill h => exact h

/-- What a conditional prints: flat the candidate that is not marked, broken one of its
candidates. -/
theorem Prints.conditional {front : List Doc} {fallback : Doc}
    (h : Prints i m (.conditional front fallback) items) :
    m = .flat ∧ Prints i .flat (Doc.flatCandidate front fallback) items ∨
    m = .broken ∧ (∃ e ∈ front, Prints i .flat e items) ∨
    m = .broken ∧ Prints i .broken fallback items := by
  cases h with
  | flatCandidate h => exact .inl ⟨rfl, h⟩
  | candidate he h => exact .inr (.inl ⟨rfl, _, he, h⟩)
  | fallback h => exact .inr (.inr ⟨rfl, h⟩)

private theorem admitsEach_of_printsEach
    (hds : ∀ d ∈ ds, ∀ {i m items}, Prints i m d.normal items → Admits i m d items)
    (h : PrintsEach i ms (ds.map Doc.normal) items) : AdmitsEach i ms ds items := by
  induction ds generalizing items with
  | nil => cases h; exact .nil i ms
  | cons d ds ih =>
    cases h with
    | cons hm hd hs =>
      exact .cons hm (hds d List.mem_cons_self hd)
        (ih (fun e he => hds e (List.mem_cons_of_mem _ he)) hs)

/-- A conditional that can be flat prints flat the normal form of its first candidate that
can be flat. -/
private theorem exists_flatCandidate_eq (h : (Doc.conditional ds d).mustBreak = false) :
    ∃ e, (Doc.candidates ds d).find? (!·.mustBreak) = some e ∧
      Doc.flatCandidate (ds.map Doc.normal) d.normal = e.normal := by
  have hp : (fun e : Doc => !e.isBreaking) ∘ Doc.normal = fun e => !e.mustBreak :=
    funext fun e => by simp [Doc.isBreaking_normal]
  cases he : (Doc.candidates ds d).find? (!·.mustBreak) with
  | some e =>
    refine ⟨e, rfl, ?_⟩
    rw [Doc.flatCandidate, Doc.candidates_map_normal, List.find?_map, hp, he]
    rfl
  | none =>
    rw [← Doc.all_isBreaking_candidates_normal, Doc.candidates_map_normal] at h
    simp only [List.all_map, List.all_eq_false, Function.comp_apply, Doc.isBreaking_normal] at h
    obtain ⟨e, hmem, hbreak⟩ := h
    have := List.find?_eq_none.mp he e hmem
    simp_all

/-- What the layout can print for the normal form of a document is admitted by the
document. -/
theorem Prints.admits (h : Prints i m d.normal items) : Admits i m d items := by
  induction d using Doc.inductionOn generalizing i m items with
  | nil => cases h; exact .nil i m
  | lit s => cases h; exact .lit i m s
  | text s =>
    rw [Doc.normal, Doc.rebuildText] at h
    split at h
    · next hs =>
      cases h
      simpa [textItems, hs] using Admits.text i m s
    · cases h; exact .text i m s
  | line k =>
    rw [h.breakingIf.eq_lineItems]
    exact .line i m k
  | concat ds ih =>
    rw [Doc.normal, Doc.normalAll_eq_map] at h
    have hds := h.rebuildConcat
    rw [Doc.any_isBreaking_map_normal] at hds
    exact .concat (admitsEach_of_printsEach ih hds)
  | indent d ih =>
    have hd := h.rebuildIndent
    rw [Doc.isBreaking_normal] at hd
    exact .indent (ih hd)
  | annotated d a ih =>
    obtain ⟨xs, rfl, hd⟩ := h.rebuildAnnotated
    rw [Doc.isBreaking_normal] at hd
    exact .annotated (ih hd)
  | group d b ih =>
    have hb := Doc.isBreaking_normal d
    obtain ⟨hn, hd⟩ | ⟨hn, rfl, hd⟩ | ⟨hn, rfl, m', hm, hd⟩ := h.rebuildGroup
    · have hmode : (Doc.group d false).modeIn m = .broken := by
        simp [Doc.modeIn, Doc.mustBreak, ← hb, hn]
      cases b with
      | true => exact .forcedGroup (ih hd)
      | false => exact .group (by rw [hmode]; exact ih hd)
    · exact .forcedGroup (ih hd)
    · have hmode : (Doc.group d false).modeIn m = m := by
        simp [Doc.modeIn, Doc.mustBreak, ← hb, hn]
      by_cases hmm : m' = m
      · exact .group (by rw [hmode, ← hmm]; exact ih hd)
      · -- the mode differs from the one that is asked for, so the group was chosen flat
        cases m with
        | flat => exact absurd (List.mem_singleton.mp hm) hmm
        | broken =>
          have hflat : m' = .flat := by simpa [Mode.choices, hmm] using hm
          subst hflat
          exact .flatGroup (hb ▸ hn) (ih hd)
  | alwaysBreak d ih => exact .alwaysBreak (ih h.rebuildBreak)
  | fill ds ih =>
    rw [Doc.normal, Doc.normalAll_eq_map] at h
    have hds := h.breakingIf.fillItems
    rw [Doc.any_isBreaking_map_normal] at hds
    exact .fill (admitsEach_of_printsEach ih hds)
  | conditional ds d ihs ih =>
    rw [Doc.normal, Doc.normalAll_eq_map] at h
    have hds := h.breakingIf
    rw [Doc.all_isBreaking_candidates_normal] at hds
    obtain ⟨hm, hd⟩ | ⟨hm, e, he, hd⟩ | ⟨hm, hd⟩ := hds.conditional
    · have hbreak : (Doc.conditional ds d).mustBreak = false := by
        cases hb : (Doc.conditional ds d).mustBreak with
        | false => rfl
        | true => simp [hb] at hm
      obtain ⟨e, he, heq⟩ := exists_flatCandidate_eq hbreak
      rw [heq] at hd
      refine .flatCandidate hm he ?_
      have hmem := List.mem_of_find?_eq_some he
      simp only [Doc.candidates, List.mem_append, List.mem_singleton] at hmem
      obtain hmem | rfl := hmem
      · exact ihs e hmem hd
      · exact ih hd
    · obtain ⟨e, hmem, rfl⟩ := List.mem_map.mp he
      exact .candidate hm hmem (ihs e hmem hd)
    · exact .fallback hm (ih hd)
  | unknown s => cases h

/-! ### The layout -/

/-- The layout of a document of known sorts is not stopped and prints a stream for its normal
form. -/
theorem exists_layout_prints (page : Page) (hd : d.isKnown = true) :
    ∃ items, (layout page d).result = .ok items ∧ Prints 0 .broken d.normal items := by
  have hn : d.normal.all Doc.hasKnownSort = true := Doc.all_normal rfl rfl rfl hd
  have hcs : [Command.print 0 .broken d.normal].all (Command.all Doc.hasKnownSort) = true := by
    simpa using hn
  obtain ⟨items, hrun, hprints⟩ := exists_run_stackPrints page 0 hcs
  refine ⟨items, ?_, hprints.singleton⟩
  rw [layout, Doc.normalize_eq_normal, hrun]
  rfl

/-- Whatever the sorts inside a document, a layout that is not stopped is one that the document
admits. -/
theorem admits_of_layout {page : Page} (h : (layout page d).result = .ok items) :
    Admits 0 .broken d items := by
  have hrun : run page 0 [.print 0 .broken d.normal] = ⟨items, none⟩ := by
    rw [layout, Doc.normalize_eq_normal] at h
    generalize run page 0 [.print 0 .broken d.normal] = l at h ⊢
    obtain ⟨xs, failure⟩ := l
    cases failure <;> cases h
    rfl
  exact (stackPrints_of_run hrun).singleton.admits

/-- **The layout is sound.** On every page, a document of known sorts is laid out as a stream
that it admits, starting broken at level zero. -/
theorem layout_admitted (page : Page) (d : Doc) (hd : d.isKnown = true) :
    ∃ items, (layout page d).result = .ok items ∧ Admits 0 .broken d items := by
  obtain ⟨items, hitems, hprints⟩ := exists_layout_prints page hd
  exact ⟨items, hitems, hprints.admits⟩

/-- A group around a conditional, one candidate of which must break, and a fill. -/
theorem layout_admitted_nested :
    let d : Doc := .group (.concat [.lit "f(", .indent (.conditional [.alwaysBreak (.lit "x")]
      (.fill [.lit "a", .line .soft, .annotated (.text "b") (.label "n")])), .lit ")"]) false
    d.isKnown = true ∧ ∃ items, (layout ⟨4, 2⟩ d).result = .ok items ∧ Admits 0 .broken d items :=
  ⟨rfl, layout_admitted _ _ rfl⟩

end Typeset
