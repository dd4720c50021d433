import Typeset.Proofs.Modelica.VisitedNodes
import Typeset.Proofs.Printing

/-!
# Rules that print their children

A rule covers some of the children of its node if it prints them all and its document shows
whatever their documents show. That a rule does so follows from how it goes over the children:
it prints all of them, those that a selection lists, or those of a walk with steps of its own.

## Main definitions

* `ShownBy`, `Covered` : documents that show what the document of a child shows, and those of
  several children.
* `Surrounds` : surroundings that show what they surround.
* `CoversAt`, `Covers` : a rule prints the given children and shows their documents.

## Main results

* `ends_collect`, `ends_collectFrom`, `ends_printAll`, `ends_select` : walks over children cover
  those that their steps cover.
* `covers_of_printChildren`, `covers_of_select`, `covers_of_names`, `covers_of_expressions` :
  the forms that rules have.
-/

namespace Typeset.Modelica

open Doc Printing Rules

/-! ### Children of a place -/

theorem length_children (p : Path) : p.children.length = p.node.children.length := by
  simp [Path.children]

theorem children_eq_nil {p : Path} (h : p.node.children.isEmpty = true) : p.children = [] := by
  have hmap := p.map_val_children
  rw [List.isEmpty_iff.mp h] at hmap
  exact List.map_eq_nil_iff.mp hmap

section Parts

variable {p : Path} {print : Below p → Printing Doc} {G : Below p → Doc → Prop}
  {E : PrintError → Prop}

/-! ### Documents of children -/

/-- The child has a document of which every fragment is shown by one of the documents. -/
def ShownBy (G : Below p → Doc → Prop) (c : Below p) (ds : List Doc) : Prop :=
  ∃ e, G c e ∧ ∀ s : Fragment, e.shows s = true → ds.any (shows s) = true

/-- Each of the children has a document of which every fragment is shown. -/
def Covered (G : Below p → Doc → Prop) (cs : List (Below p)) (ds : List Doc) : Prop :=
  ∀ c ∈ cs, ShownBy G c ds

theorem ShownBy.mono {c : Below p} {ds es : List Doc} (h : ShownBy G c ds)
    (hde : ∀ s : Fragment, ds.any (shows s) = true → es.any (shows s) = true) :
    ShownBy G c es := by
  obtain ⟨e, he, hs⟩ := h
  exact ⟨e, he, fun s h => hde s (hs s h)⟩

theorem ShownBy.of_subset {c : Below p} {ds es : List Doc} (h : ShownBy G c ds) (hsub : ds ⊆ es) :
    ShownBy G c es :=
  h.mono fun s hs => by
    obtain ⟨d, hd, hs⟩ := List.any_eq_true.mp hs
    exact List.any_eq_true.mpr ⟨d, hsub hd, hs⟩

theorem Covered.mono {cs : List (Below p)} {ds es : List Doc} (h : Covered G cs ds)
    (hde : ∀ s : Fragment, ds.any (shows s) = true → es.any (shows s) = true) :
    Covered G cs es := fun c hc => (h c hc).mono hde

theorem exists_mem_of_forall₂ {α β : Type} {R : α → β → Prop} {as : List α}
    {bs : List β} (h : List.Forall₂ R as bs) {a : α} (ha : a ∈ as) : ∃ b ∈ bs, R a b := by
  induction h with
  | nil => cases ha
  | cons hab _ ih =>
    rcases List.mem_cons.mp ha with rfl | ha
    · exact ⟨_, List.mem_cons_self, hab⟩
    · obtain ⟨b, hb, hR⟩ := ih ha
      exact ⟨b, List.mem_cons_of_mem _ hb, hR⟩

/-- A walk over children covers those that its steps cover. -/
theorem ends_collect {f : Below p → Printing (List Doc)} {as cs : List (Below p)}
    (hsub : cs ⊆ as) (h : ∀ c ∈ as, (f c).Ends (fun ds => c ∈ cs → ShownBy G c ds) E) :
    (collect f as).Ends (Covered G cs) E := by
  refine (Ends.collect h).mono (fun ds hds c hc => ?_) fun _ he => he
  obtain ⟨parts, hparts, rfl⟩ := hds
  obtain ⟨part, hpart, hshown⟩ := exists_mem_of_forall₂ hparts (hsub hc)
  exact (hshown hc).of_subset fun d hd => List.mem_flatten.mpr ⟨part, hpart, hd⟩

theorem ends_collectFrom {σ : Type} {next : σ → Below p → σ}
    {f : σ → Below p → Printing (List Doc)} {as cs : List (Below p)} (hsub : cs ⊆ as) {s : σ}
    (h : ∀ s, ∀ c ∈ as, (f s c).Ends (fun ds => c ∈ cs → ShownBy G c ds) E) :
    (collectFrom next f s as).Ends (Covered G cs) E := by
  refine (Ends.collectFrom fun before c after has => h _ c (by simp [has])).mono
    (fun ds hds c hc => ?_) fun _ he => he
  obtain ⟨before, after, has⟩ := List.append_of_mem (hsub hc)
  obtain ⟨part, hpart, hpartsub⟩ := hds before c after has
  exact (hpart hc).of_subset hpartsub

/-- Printing some children covers them, with one document for each. -/
theorem ends_printAll {cs : List (Below p)} (hprint : ∀ c ∈ cs, (print c).Ends (G c) E) :
    (Printing.all print cs).Ends (fun ds => Covered G cs ds ∧ ds.length = cs.length) E := by
  refine (Ends.all hprint).mono (fun ds hds => ⟨fun c hc => ?_, hds.length_eq.symm⟩) fun _ he => he
  obtain ⟨d, hd, hG⟩ := exists_mem_of_forall₂ hds hc
  exact ⟨d, hG, fun s hs => List.any_eq_true.mpr ⟨d, hd, hs⟩⟩

/-! ### Selections -/

/-- The kinds that a selection lists. -/
def Selection.kinds (sel : Selection) : List String := sel.flatMap (·.1)

/-- The surroundings show the document that they surround. -/
def Surrounds (surround : Doc → List Doc) : Prop :=
  ∀ (d : Doc) (s : Fragment), d.shows s = true → (surround d).any (shows s) = true

/-- All surroundings of a selection show the document that they surround. -/
def Selection.Shows (sel : Selection) : Prop := ∀ entry ∈ sel, Surrounds entry.2

theorem surrounds_of_mem {surround : Doc → List Doc} (h : ∀ d, d ∈ surround d) :
    Surrounds surround := fun d _ hs => List.any_eq_true.mpr ⟨d, h d, hs⟩

@[simp]
theorem surrounds_alone : Surrounds alone := surrounds_of_mem fun d => by simp [alone]

@[simp]
theorem surrounds_spaceBefore : Surrounds spaceBefore :=
  surrounds_of_mem fun d => by simp [spaceBefore]

@[simp]
theorem surrounds_spaceAfterDoc : Surrounds spaceAfterDoc :=
  surrounds_of_mem fun d => by simp [spaceAfterDoc]

@[simp]
theorem surrounds_hardBefore : Surrounds hardBefore :=
  surrounds_of_mem fun d => by simp [hardBefore]

@[simp]
theorem surrounds_lineIndented : Surrounds lineIndented := fun d s hs => by
  simp [lineIndented, hs]

@[simp]
theorem surrounds_hardIndented : Surrounds hardIndented := fun d s hs => by
  simp [hardIndented, hs]

/-- A child of a listed kind is printed and shown; other children are passed over. -/
theorem ends_selectChild {sel : Selection} (hsel : sel.Shows) {c : Below p}
    (hprint : c.1.node.kind ∈ sel.kinds → (print c).Ends (G c) E) :
    (selectChild sel print c).Ends (fun ds => c.1.node.kind ∈ sel.kinds → ShownBy G c ds) E := by
  rw [selectChild]
  split
  · next hnone =>
    refine .pure fun hkind => ?_
    obtain ⟨entry, hentry, hkind⟩ := List.mem_flatMap.mp hkind
    have hnone := List.find?_eq_none.mp (Option.map_eq_none_iff.mp hnone) entry hentry
    exact absurd (List.contains_iff_mem.mpr hkind) hnone
  · next surround hsome =>
    obtain ⟨entry, hentry, rfl⟩ := Option.map_eq_some_iff.mp hsome
    have hmem := List.mem_of_find?_eq_some hentry
    have hlisted : c.1.node.kind ∈ entry.1 :=
      List.contains_iff_mem.mp (List.find?_some hentry :)
    refine (hprint (List.mem_flatMap.mpr ⟨entry, hmem, hlisted⟩)).bind fun d hd => .pure fun _ => ?_
    exact ⟨d, hd, hsel entry hmem d⟩

theorem mem_ofKinds {kinds : List String} {c : Below p} :
    c ∈ ofKinds kinds p ↔ c ∈ p.children ∧ c.1.node.kind ∈ kinds := by
  simp [ofKinds]

theorem ends_select {sel : Selection} (hsel : sel.Shows)
    (hprint : ∀ c ∈ ofKinds sel.kinds p, (print c).Ends (G c) E) :
    (select sel p print).Ends (Covered G (ofKinds sel.kinds p)) E := by
  refine ends_collect (fun c hc => (mem_ofKinds.mp hc).1) fun c hc => ?_
  refine (ends_selectChild hsel fun hkind => hprint c (mem_ofKinds.mpr ⟨hc, hkind⟩)).mono
    (fun ds hds hmem => ?_) fun _ he => he
  exact hds (mem_ofKinds.mp hmem).2

end Parts

/-! ### Rules -/

/-- At a place the rule prints the given children, except that names may be printed by their
text, and its document shows what the documents of these children show. It fails where one of
them does, or for a reason of its own. -/
def CoversAt (rule : DocRule) (p : Path) (cs : List (Below p)) (own : PrintError → Prop) : Prop :=
  ∀ (print : Below p → Printing Doc) (G : Below p → Doc → Prop) (E : PrintError → Prop),
    (∀ c ∈ cs, (print c).Ends (G c) E) →
    (∀ c : Below p, c.1.node.kind = "IDENT" → G c (textOf c.1.node)) →
    (∀ e, own e → E e) →
    (rule p print).Ends (fun d => Covered G cs [d]) E

/-- The rule covers the picked children at every place. -/
def Covers (rule : DocRule) (pick : Pick) (own : Path → PrintError → Prop := fun _ _ => False) :
    Prop := ∀ p, CoversAt rule p (pick p) (own p)

section Covers

variable {rule rule' : DocRule} {pick : Pick} {p : Path} {own : PrintError → Prop}

theorem coversAt_of_pure (h : ∀ print, ∃ d, rule p print = pure d) : CoversAt rule p [] own := by
  intro print G E _ _ _
  obtain ⟨d, hd⟩ := h print
  rw [hd]
  exact .pure (by simp [Covered])

theorem covers_of_pure (h : ∀ p print, ∃ d, rule p print = pure d) : Covers rule fun _ => [] :=
  fun p => coversAt_of_pure (h p)

/-- A rule that prints all children and puts their documents together. -/
theorem coversAt_of_printChildren {finish : List Doc → Printing Doc}
    (hrule : ∀ print, rule p print = printChildren p print >>= finish)
    (h : ∀ ds, ds.length = p.children.length → ∃ d, finish ds = pure d ∧
      ∀ s : Fragment, ds.any (shows s) = true → d.shows s = true) :
    CoversAt rule p p.children own := by
  intro print G E hprint _ _
  rw [hrule]
  refine (ends_printAll hprint).bind fun ds hds => ?_
  obtain ⟨d, hd, hs⟩ := h ds hds.2
  rw [hd]
  exact .pure (hds.1.mono fun s hs' => by simp [hs s hs'])

theorem covers_of_printChildren {finish : Path → List Doc → Doc}
    (hrule : ∀ p print, rule p print =
      printChildren p print >>= fun ds => pure (finish p ds))
    (h : ∀ p ds (s : Fragment), ds.any (shows s) = true → (finish p ds).shows s = true) :
    Covers rule Path.children :=
  fun p => coversAt_of_printChildren (hrule p) fun ds _ => ⟨_, rfl, h p ds⟩

/-- A rule that prints the children of a selection and puts their documents together. -/
theorem coversAt_of_select {kinds : List String} {sel : Selection} {finish : List Doc → Doc}
    (hrule : ∀ print, rule p print = select sel p print >>= fun ds => pure (finish ds))
    (hkinds : sel.kinds = kinds) (hsel : sel.Shows)
    (h : ∀ ds (s : Fragment), ds.any (shows s) = true → (finish ds).shows s = true) :
    CoversAt rule p (ofKinds kinds p) own := by
  subst hkinds
  intro print G E hprint _ _
  rw [hrule]
  refine (ends_select hsel hprint).bind fun ds hds => ?_
  exact .pure (hds.mono fun s hs => by simp [h ds s hs])

theorem covers_of_select {kinds : List String} {sel : Path → Selection}
    {finish : Path → List Doc → Doc}
    (hrule : ∀ p print, rule p print = select (sel p) p print >>= fun ds => pure (finish p ds))
    (hkinds : ∀ p, (sel p).kinds = kinds) (hsel : ∀ p, (sel p).Shows)
    (h : ∀ p ds (s : Fragment), ds.any (shows s) = true → (finish p ds).shows s = true) :
    Covers rule (ofKinds kinds) :=
  fun p => coversAt_of_select (hrule p) (hkinds p) (hsel p) (h p)

/-- A rule that puts something around the document of another rule. -/
theorem Covers.wrap {finish : Path → Doc → Doc} (h : Covers rule' pick)
    (hrule : ∀ p print, rule p print = rule' p print >>= fun d => pure (finish p d))
    (hfinish : ∀ p d (s : Fragment), d.shows s = true → (finish p d).shows s = true) :
    Covers rule pick := by
  intro p print G E hprint hname hown
  rw [hrule]
  refine (h p print G E hprint hname hown).bind fun d hd => .pure (hd.mono fun s hs => ?_)
  simpa using hfinish p d s (by simpa using hs)

/-- A rule that prints names by their text, and other children by a selection. -/
theorem covers_of_names {rule : DocRule} {kinds : List String} {sel : Selection}
    {named : (p : Path) → Below p → List Doc} {finish : List Doc → Doc}
    (hrule : ∀ p print, rule p print = Printing.collect (fun c =>
      if c.1.node.kind = "IDENT" then return named p c
      else selectChild sel print c) p.children >>= fun ds => pure (finish ds))
    (hkinds : kinds = "IDENT" :: sel.kinds)
    (hnamed : ∀ p c (s : Fragment), c.1.node.textOrEmpty = s.1 →
      (named p c).any (shows s) = true)
    (hsel : sel.Shows)
    (h : ∀ ds (s : Fragment), ds.any (shows s) = true → (finish ds).shows s = true) :
    Covers rule (ofKinds kinds) := by
  subst hkinds
  intro p print G E hprint hname _
  rw [hrule]
  refine (ends_collect (fun c hc => (mem_ofKinds.mp hc).1) fun c hc => ?_).bind fun ds hds =>
    .pure (hds.mono fun s hs => by simp [h ds s hs])
  split
  · next hident =>
    refine .pure fun _ => ⟨_, hname c hident, fun s hs => hnamed p c s ?_⟩
    simpa [textOf] using hs
  · next hident =>
    refine (ends_selectChild hsel fun hkind => hprint c ?_).mono (fun ds hds hmem => hds ?_)
      fun _ he => he
    · exact mem_ofKinds.mpr ⟨hc, List.mem_cons_of_mem _ hkind⟩
    · exact (List.mem_cons.mp (mem_ofKinds.mp hmem).2).resolve_left hident

theorem isExpression_iff {n : Node} :
    isExpression n = true ↔ n.kind = "expression" ∨ n.kind = "simple_expression" := by
  simp [isExpression]

/-- A rule that prints expressions in surroundings of their own, and other children by a
selection. -/
theorem covers_of_expressions {rule : DocRule} {kinds : List String} {sel : Selection}
    {σ : Type} {next : (p : Path) → σ → Below p → σ} {state : σ} {around : σ → Doc → List Doc}
    {finish : List Doc → Doc}
    (hrule : ∀ p print, rule p print = Printing.collectFrom (next p) (fun s c =>
      if isExpression c.1.node then do return around s (← print c)
      else selectChild sel print c) state p.children >>= fun ds => pure (finish ds))
    (hkinds : kinds = "expression" :: "simple_expression" :: sel.kinds)
    (haround : ∀ s, Surrounds (around s)) (hsel : sel.Shows)
    (h : ∀ ds (s : Fragment), ds.any (shows s) = true → (finish ds).shows s = true) :
    Covers rule (ofKinds kinds) := by
  subst hkinds
  intro p print G E hprint hname _
  rw [hrule]
  refine (ends_collectFrom (fun c hc => (mem_ofKinds.mp hc).1) fun s c hc => ?_).bind
    fun ds hds => .pure (hds.mono fun s hs => by simp [h ds s hs])
  split
  · next hexpr =>
    have hmem : c ∈ ofKinds ("expression" :: "simple_expression" :: sel.kinds) p := by
      refine mem_ofKinds.mpr ⟨hc, ?_⟩
      rcases isExpression_iff.mp hexpr with h | h <;> simp [h]
    exact (hprint c hmem).bind fun d hd => .pure fun _ => ⟨d, hd, haround s d⟩
  · next hexpr =>
    refine (ends_selectChild hsel fun hkind => hprint c ?_).mono (fun ds hds hmem => hds ?_)
      fun _ he => he
    · exact mem_ofKinds.mpr ⟨hc, List.mem_cons_of_mem _ (List.mem_cons_of_mem _ hkind)⟩
    · have hkind := (mem_ofKinds.mp hmem).2
      simp only [List.mem_cons, ← or_assoc, ← isExpression_iff] at hkind
      exact hkind.resolve_left hexpr

end Covers

end Typeset.Modelica
