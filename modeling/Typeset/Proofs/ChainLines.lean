import Typeset.Proofs.BuiltDocuments
import Typeset.Proofs.LayoutSoundness

/-!
# Lines of operator chains

A chain of operands and operators comes out as the streams of its parts in their order: an operand,
a space and its operator stand together, and between an operator and the operand behind it there is
a gap, which is a space or a line break. So lines are broken behind operators only. The flags of a
chain give its tail three shapes, of plain lines, of a fill and of a conditional around the last
operand; each of them is a stream of gaps and pieces, and the chain is put together from that.

## Main definitions

* `ChainStyle.level`, `ChainStyle.gap` : the level of the operands behind the first operator, and
  the gap in front of one of them.
* `ChainStyle.lastForms` : the documents as which the last operand may be laid out.
* `ChainStream` : the streams of a chain from some operand on.
* `Doc.chainRest` : what follows the head of a chain.

## Main results

* `Doc.Built.isKnown` : what is built from documents of known sorts has known sorts.
* `exists_chainStream` : pieces of a chain behind gaps are a stream of the chain.
* `exists_chainStream_of_chainRest`, `exists_chainStream_of_chain` : so are the rest of a chain and
  the chain itself, whatever its style.
* `chainOf_stream` : how chains are laid out, and which of them are refused.
-/

namespace Typeset

/-! ### Documents of known sorts -/

namespace Doc

variable {d : Doc} {ds : List Doc}

private theorem isKnown_tidy (h : d.isKnown = true) : d.tidy.isKnown = true := by
  cases d with
  | lit s => rw [tidy]; split <;> rfl
  | _ => exact h

private theorem allIn_map_tidy (h : ∀ d ∈ ds, d.isKnown = true) :
    allIn hasKnownSort (ds.map tidy) = true :=
  allIn_iff.mpr fun _ he => by
    obtain ⟨d, hd, rfl⟩ := List.mem_map.mp he
    exact isKnown_tidy (h d hd)

private theorem isKnown_cat (h : ∀ d ∈ ds, d.isKnown = true) : (cat ds).isKnown = true := by
  match ds with
  | [] => rfl
  | [d] => exact isKnown_tidy (h d List.mem_cons_self)
  | d :: e :: ds => exact allIn_map_tidy h

private theorem allIn_breakLast (hds : ∀ d ∈ ds, d.isKnown = true → d.breakGroup.isKnown = true)
    (h : allIn hasKnownSort ds = true) : allIn hasKnownSort (breakLast ds) = true := by
  induction ds with
  | nil => rfl
  | cons d ds ih =>
    obtain ⟨hd, hds⟩ := List.forall_mem_cons.mp hds
    rw [allIn, Bool.and_eq_true] at h
    cases ds with
    | nil =>
      rw [breakLast, allIn, allIn, Bool.and_true]
      exact hd h.1
    | cons e ds =>
      rw [breakLast, allIn, Bool.and_eq_true]
      exact ⟨h.1, ih hds h.2⟩

theorem isKnown_breakGroup (h : d.isKnown = true) : d.breakGroup.isKnown = true := by
  induction d using inductionOn with
  | concat ds ih => exact allIn_breakLast ih h
  | annotated d a ih => exact ih h
  | _ => exact h

/-- What is built from documents of known sorts has known sorts. -/
theorem Built.isKnown {S : Doc → Prop} (hS : ∀ d, S d → d.isKnown = true) (h : Built S d) :
    d.isKnown = true := by
  induction h with
  | part h => exact hS _ h
  | lit s => rfl
  | line k => rfl
  | cat _ ih => exact isKnown_cat ih
  | nested _ ih => exact isKnown_tidy ih
  | grouped _ ih => exact isKnown_tidy ih
  | annotate _ _ ih => exact isKnown_tidy ih
  | filled _ ih => exact allIn_map_tidy ih
  | @hug e _ ih =>
    have hpair {d f : Doc} (hd : d.isKnown = true) (hf : f.isKnown = true) :
        (Doc.cat [d, f]).isKnown = true := isKnown_cat (by simp [hd, hf])
    have hfront : allIn hasKnownSort
        ([Doc.cat [.lit " ", e], Doc.cat [.lit " ", e.breakGroup]].map tidy) = true := by
      refine allIn_map_tidy (List.forall_mem_cons.mpr ⟨hpair rfl ih, ?_⟩)
      exact List.forall_mem_singleton.mpr (hpair rfl (isKnown_breakGroup ih))
    exact Bool.and_eq_true_iff.mpr ⟨hfront, isKnown_tidy (hpair rfl ih)⟩

end Doc

/-! ### Streams of chains -/

namespace ChainStyle

variable (style : ChainStyle)

/-- The level of the operands behind the first operator. -/
def level : Nat := if style.indentRest then 1 else 0

/-- The gap in front of an operand: a space, or a line break to the level. -/
def gap : Mode → Item
  | .flat => .text " "
  | .broken => .line style.level

/-- The documents as which the last operand may be laid out. -/
def lastForms (operand : Doc) : List Doc :=
  if style.hugLast then [operand, operand.breakGroup] else [operand]

theorem mem_lastForms (operand : Doc) : operand ∈ style.lastForms operand := by
  rw [lastForms]
  split <;> exact List.mem_cons_self

end ChainStyle

/-- The streams of a chain from an operand on, which stands at a level together with its operator:
the streams of the operand and the operator with a space between them, a gap, and a stream of the
rest. The modes are those of the gaps. The last operand may be laid out in other forms. -/
inductive ChainStream (style : ChainStyle) :
    Nat → List Doc → List Doc → List Mode → List Item → Prop
  | last {i m operand form items} (hform : form ∈ style.lastForms operand)
      (h : Admits i m form items) : ChainStream style i [operand] [] [] items
  | link {i m m' operand operator operands operators gap gaps xs ys zs}
      (hoperand : Admits i m operand xs) (hoperator : Admits i m' operator ys)
      (hrest : ChainStream style style.level operands operators gaps zs) :
      ChainStream style i (operand :: operands) (operator :: operators) (gap :: gaps)
        (xs ++ .text " " :: ys ++ style.gap gap :: zs)

section Streams

variable {style : ChainStyle} {i : Nat} {m : Mode} {ms : List Mode} {items : List Item}

theorem Admits.eq_textItems {s : String} (h : Admits i m (.lit s) items) : items = textItems s := by
  cases h
  rfl

/-- A soft line is a gap at the level of the chain. -/
theorem Admits.eq_gap (h : Admits style.level m .softLine items) : items = [style.gap m] := by
  cases h
  cases m <;> rfl

/-- An operand and its operator come with a space between them. -/
theorem exists_admits_of_piece {operand operator : Doc}
    (h : Admits i m (.cat [operand, .lit " ", operator]) items) :
    ∃ m₁ m₂ xs ys, items = xs ++ .text " " :: ys ∧ Admits i m₁ operand xs ∧
      Admits i m₂ operator ys := by
  obtain ⟨_, -, hparts⟩ := Doc.exists_admitsEach_of_cat h
  obtain ⟨m₁, -, xs, _, rfl, hoperand, hparts⟩ := hparts.exists_cons
  obtain ⟨_, -, _, ys, rfl, hspace, hparts⟩ := hparts.exists_cons
  obtain ⟨m₂, -, hoperator⟩ := hparts.exists_singleton
  exact ⟨m₁, m₂, xs, ys, by rw [hspace.eq_textItems]; rfl, hoperand, hoperator⟩

/-- A document behind a soft line comes behind a gap. -/
theorem exists_admits_of_lineBefore {d : Doc} {ds : List Doc}
    (h : AdmitsEach style.level ms (Doc.lineBefore (d :: ds)) items) :
    ∃ m ∈ ms, ∃ m' xs ys, items = style.gap m :: xs ++ ys ∧ Admits style.level m' d xs ∧
      AdmitsEach style.level ms (Doc.lineBefore ds) ys := by
  rw [Doc.lineBefore, List.flatMap_cons] at h
  obtain ⟨m, hm, _, _, rfl, hgap, h⟩ := AdmitsEach.exists_cons h
  obtain ⟨m', -, xs, ys, rfl, hd, h⟩ := AdmitsEach.exists_cons h
  exact ⟨m, hm, m', xs, ys, by rw [hgap.eq_gap]; rfl, hd, h⟩

/-- Pieces of a chain behind gaps, with the last operand behind a gap of its own, are a stream of
the chain behind a gap. -/
theorem exists_chainStream {operand form : Doc} {links : List (Doc × Doc)} (lastGap : Mode)
    {xs zs : List Item}
    (hpieces : AdmitsEach style.level ms (Doc.lineBefore (Doc.chainPieces operand links).1) xs)
    (hform : form ∈ style.lastForms (Doc.chainPieces operand links).2)
    (hlast : Admits style.level m form zs) :
    ∃ gap gaps ys, xs ++ style.gap lastGap :: zs = style.gap gap :: ys ∧
      ChainStream style style.level (operand :: links.map Prod.snd) (links.map Prod.fst) gaps ys ∧
      gap :: gaps ⊆ lastGap :: ms := by
  induction links generalizing operand xs with
  | nil =>
    cases hpieces
    exact ⟨lastGap, [], zs, rfl, .last hform hlast, by simp⟩
  | cons link links ih =>
    obtain ⟨gap, hgap, _, _, rest, rfl, hpiece, hrest⟩ := exists_admits_of_lineBefore hpieces
    obtain ⟨_, _, us, vs, rfl, hoperand, hoperator⟩ := exists_admits_of_piece hpiece
    obtain ⟨next, gaps, ys, heq, hstream, hgaps⟩ := ih hrest hform
    refine ⟨gap, next :: gaps, us ++ .text " " :: vs ++ style.gap next :: ys, ?_,
      .link hoperand hoperator hstream, ?_⟩
    · rw [← heq]
      simp
    · exact List.cons_subset.mpr ⟨List.mem_cons_of_mem _ hgap, hgaps⟩

/-- The tail of a chain is a stream of gaps and pieces, all in one mode if it is not packed. -/
theorem exists_admitsEach_of_chainTail {packed : Bool} {ds : List Doc}
    (h : AdmitsEach i [m] (Doc.chainTail packed ds) items) :
    ∃ ms, (packed = false → ms = [m]) ∧ AdmitsEach i ms (Doc.lineBefore ds) items := by
  cases packed with
  | false => exact ⟨[m], fun _ => rfl, h⟩
  | true =>
    cases ds with
    | nil =>
      cases h
      exact ⟨[], nofun, .nil i []⟩
    | cons d ds =>
      obtain ⟨_, -, hfill⟩ := AdmitsEach.exists_singleton h
      cases hfill with
      | fill hitems =>
        -- the empty content in front of the first line prints nothing
        obtain ⟨_, -, _, ys, rfl, hnil, hlines⟩ := AdmitsEach.exists_cons hitems
        cases hnil
        exact ⟨_, nofun, Doc.admitsEach_of_map_tidy hlines⟩

/-- A document behind a separator that prints a gap comes behind that gap. -/
theorem exists_admits_of_gap {separator d : Doc}
    (hseparator : ∀ m xs, Admits i m separator xs → ∃ gap, xs = [style.gap gap])
    (h : Admits i m (.cat [separator, d]) items) :
    ∃ gap m' xs, items = style.gap gap :: xs ∧ Admits i m' d xs := by
  obtain ⟨_, -, hparts⟩ := Doc.exists_admitsEach_of_cat h
  obtain ⟨_, -, _, xs, rfl, hgap, hrest⟩ := hparts.exists_cons
  obtain ⟨gap, rfl⟩ := hseparator _ _ hgap
  obtain ⟨m', -, hd⟩ := hrest.exists_singleton
  exact ⟨gap, m', xs, rfl, hd⟩

/-- An operand that hugs its operator comes behind a gap, as it is or with its group broken. -/
theorem exists_admits_of_hug {d : Doc} (h : Admits style.level m (.hug .softLine d) items) :
    ∃ gap m' xs, items = style.gap gap :: xs ∧ ∃ form ∈ [d, d.breakGroup],
      Admits style.level m' form xs := by
  have hspace (m : Mode) (xs : List Item) (h : Admits style.level m (.lit " ") xs) :
      ∃ gap, xs = [style.gap gap] := ⟨.flat, h.eq_textItems⟩
  have hline (m : Mode) (xs : List Item) (h : Admits style.level m .softLine xs) :
      ∃ gap, xs = [style.gap gap] := ⟨m, h.eq_gap⟩
  obtain ⟨_, candidate, hmem, hcandidate⟩ := Admits.exists_candidate h
  have hcandidates : candidate ∈ [Doc.cat [.lit " ", d], Doc.cat [.lit " ", d.breakGroup],
      Doc.cat [.softLine, d]] := hmem
  simp only [List.mem_cons, List.not_mem_nil, or_false] at hcandidates
  rcases hcandidates with rfl | rfl | rfl
  · obtain ⟨gap, m', xs, rfl, hd⟩ := exists_admits_of_gap hspace hcandidate
    exact ⟨gap, m', xs, rfl, d, by simp, hd⟩
  · obtain ⟨gap, m', xs, rfl, hd⟩ := exists_admits_of_gap hspace hcandidate
    exact ⟨gap, m', xs, rfl, d.breakGroup, by simp, hd⟩
  · obtain ⟨gap, m', xs, rfl, hd⟩ := exists_admits_of_gap hline hcandidate
    exact ⟨gap, m', xs, rfl, d, by simp, hd⟩

/-- What follows the head of a chain, before it is indented. -/
def Doc.chainRest (style : ChainStyle) (operand : Doc) (links : List (Doc × Doc)) : Doc :=
  let (middle, last) := chainPieces operand links
  if style.hugLast then cat (chainTail style.packed middle ++ [hug softLine last])
  else cat (chainTail style.packed (middle ++ [last]))

/-- What follows the head of a chain is a stream of the chain behind a gap. All gaps are alike if
the chain is neither packed nor hugs its last operand. -/
theorem exists_chainStream_of_chainRest {operand : Doc} {links : List (Doc × Doc)}
    (h : Admits style.level m (.chainRest style operand links) items) :
    ∃ gap gaps ys, items = style.gap gap :: ys ∧
      ChainStream style style.level (operand :: links.map Prod.snd) (links.map Prod.fst) gaps ys ∧
      (style.packed = false → style.hugLast = false → ∃ m, ∀ gap' ∈ gap :: gaps, gap' = m) := by
  simp only [Doc.chainRest] at h
  split at h
  · next hhug =>
    obtain ⟨_, -, hparts⟩ := Doc.exists_admitsEach_of_cat h
    obtain ⟨xs, _, rfl, htail, hhugged⟩ := hparts.exists_append
    obtain ⟨ms, -, hpieces⟩ := exists_admitsEach_of_chainTail htail
    obtain ⟨_, -, hhugged⟩ := hhugged.exists_singleton
    obtain ⟨lastGap, _, zs, rfl, form, hform, hlast⟩ := exists_admits_of_hug hhugged
    obtain ⟨gap, gaps, ys, heq, hstream, -⟩ := exists_chainStream lastGap hpieces
      (by rwa [ChainStyle.lastForms, if_pos hhug]) hlast
    exact ⟨gap, gaps, ys, heq, hstream, by simp [hhug]⟩
  · obtain ⟨mode, -, hparts⟩ := Doc.exists_admitsEach_of_cat h
    obtain ⟨ms, hms, hlines⟩ := exists_admitsEach_of_chainTail hparts
    rw [Doc.lineBefore, List.flatMap_append] at hlines
    obtain ⟨xs, _, rfl, hpieces, hlines⟩ := hlines.exists_append
    obtain ⟨lastGap, hlastGap, _, zs, _, rfl, hlast, hnil⟩ := exists_admits_of_lineBefore hlines
    cases hnil
    obtain ⟨gap, gaps, ys, heq, hstream, hgaps⟩ := exists_chainStream lastGap hpieces
      (style.mem_lastForms _) hlast
    refine ⟨gap, gaps, ys, by rw [← heq]; simp, hstream, fun hpacked _ => ⟨mode, fun g hg => ?_⟩⟩
    rw [hms hpacked] at hgaps hlastGap
    simpa [List.mem_singleton.mp hlastGap] using hgaps hg

/-- A chain is laid out as a stream of its parts. -/
theorem exists_chainStream_of_chain {first : Doc} {links : List (Doc × Doc)}
    (h : Admits 0 m (.chain style first links) items) :
    ∃ gaps, ChainStream style 0 (first :: links.map Prod.snd) (links.map Prod.fst) gaps items ∧
      (style.packed = false → style.hugLast = false → ∃ m, ∀ gap ∈ gaps, gap = m) := by
  cases links with
  | nil => exact ⟨[], .last (style.mem_lastForms first) h, fun _ _ => ⟨m, by simp⟩⟩
  | cons link links =>
    have hbody : ∃ m', Admits 0 m' (.cat [.cat [first, .lit " ", link.1],
        if style.indentRest then .nested (.chainRest style link.2 links)
        else .chainRest style link.2 links]) items := by
      cases h with
      | group h => exact ⟨_, h⟩
      | flatGroup _ h => exact ⟨_, h⟩
    obtain ⟨_, hbody⟩ := hbody
    obtain ⟨_, -, hparts⟩ := Doc.exists_admitsEach_of_cat hbody
    obtain ⟨_, -, _, rest, rfl, hhead, htail⟩ := hparts.exists_cons
    obtain ⟨_, _, xs, ys, rfl, hfirst, hoperator⟩ := exists_admits_of_piece hhead
    obtain ⟨_, -, htail⟩ := htail.exists_singleton
    have hrest : ∃ m', Admits style.level m' (.chainRest style link.2 links) rest := by
      by_cases hindent : style.indentRest = true
      · rw [if_pos hindent] at htail
        rw [ChainStyle.level, if_pos hindent]
        cases htail with
        | indent h => exact ⟨_, Doc.admits_of_tidy h⟩
      · rw [if_neg hindent] at htail
        rw [ChainStyle.level, if_neg hindent]
        exact ⟨_, htail⟩
    obtain ⟨_, hrest⟩ := hrest
    obtain ⟨gap, gaps, zs, rfl, hstream, hgaps⟩ := exists_chainStream_of_chainRest hrest
    exact ⟨gap :: gaps, .link hfirst hoperator hstream, hgaps⟩

end Streams

/-! ### Layouts of chains -/

/-- **Operators stay on the line of the operand in front of them.** Operands are refused if they are
not one more than the operators. Otherwise there is a chain, which has a layout if its parts have
one, and every layout of it on any page is a stream of the chain: its first operand and operator
stand at level zero, and lines are broken between an operator and the next operand only. A chain
that is neither packed nor hugs its last operand breaks all these lines or none. -/
theorem chainOf_stream (page : Page) (style : ChainStyle) (operands operators : List Doc) :
    (operands.length ≠ operators.length + 1 →
      Doc.chainOf style operands operators = .error ⟨operators.length + 1, operands.length⟩) ∧
    (operands.length = operators.length + 1 →
      ∃ d, Doc.chainOf style operands operators = .ok d ∧
        ((∀ e ∈ operands ++ operators, e.isKnown = true) →
          ∃ items, (layout page d).result = .ok items) ∧
        ∀ items, (layout page d).result = .ok items →
          ∃ gaps, ChainStream style 0 operands operators gaps items ∧
            (style.packed = false → style.hugLast = false →
              (∀ gap ∈ gaps, gap = .flat) ∨ ∀ gap ∈ gaps, gap = .broken)) := by
  constructor
  · intro hlength
    cases operands with
    | nil => rfl
    | cons first rest => exact if_neg fun h => hlength (congrArg Nat.succ h)
  · intro hlength
    cases operands with
    | nil => cases hlength
    | cons first rest =>
      have hrest : rest.length = operators.length := Nat.succ.inj hlength
      have hchain : Doc.chainOf style (first :: rest) operators =
          .ok (.chain style first (operators.zip rest)) := if_pos hrest
      refine ⟨_, hchain, fun hknown => ?_, fun items hitems => ?_⟩
      · have hbuilt := Doc.Built.of_chainOf (S := fun e => e.isKnown = true) hchain
          (fun e he => .part (hknown e (List.mem_append_left _ he)))
          (fun e he => .part (hknown e (List.mem_append_right _ he)))
        obtain ⟨items, hitems⟩ := exists_layout_eq page (hbuilt.isKnown fun _ h => h)
        exact ⟨items, by rw [hitems]; rfl⟩
      · obtain ⟨gaps, hstream, halike⟩ := exists_chainStream_of_chain (admits_of_layout hitems)
        rw [List.map_fst_zip (Nat.le_of_eq hrest.symm), List.map_snd_zip (Nat.le_of_eq hrest)]
          at hstream
        refine ⟨gaps, hstream, fun hpacked hhug => ?_⟩
        obtain ⟨m, hm⟩ := halike hpacked hhug
        cases m with
        | flat => exact .inl hm
        | broken => exact .inr hm

/-- A packed chain that hugs a call, and operands that are too few. -/
theorem chainOf_stream_call :
    let style : ChainStyle := { packed := true, hugLast := true }
    let call : Doc := .concat [.lit "f", .group (.concat [.lit "(", .indent (.concat [.line .empty,
      .lit "x"]), .line .empty, .lit ")"]) false]
    let operands : List Doc := [.lit "a", .lit "bbbb", call]
    let operators : List Doc := [.lit "+", .lit "-"]
    (operands.length = operators.length + 1 ∧ ∀ e ∈ operands ++ operators, e.isKnown = true) ∧
      (∃ d items gaps, Doc.chainOf style operands operators = .ok d ∧
        (layout ⟨8, 2⟩ d).result = .ok items ∧
        ChainStream style 0 operands operators gaps items) ∧
      Doc.chainOf style operators operators = .error ⟨3, 2⟩ := by
  intro style call operands operators
  have hknown : ∀ e ∈ operands ++ operators, e.isKnown = true := by decide
  refine ⟨⟨rfl, hknown⟩, ?_, (chainOf_stream ⟨8, 2⟩ style operators operators).1 (by decide)⟩
  obtain ⟨d, hd, hlayout, hstream⟩ := (chainOf_stream ⟨8, 2⟩ style operands operators).2 rfl
  obtain ⟨items, hitems⟩ := hlayout hknown
  obtain ⟨gaps, hgaps, -⟩ := hstream items hitems
  exact ⟨d, items, gaps, hd, hitems, hgaps⟩

end Typeset
