import Typeset.Proofs.Normalization

/-!
# The form of normal documents

Normalising reaches a form that it does not change any more. In it a concatenation has at least
two parts, none of them empty, a concatenation or marked; and marks of forced breaks stand at
the root, on items of fills and on candidates only. The one exception are marks on an empty
document, which survive as parts of a concatenation; so it is asked that there are none.

The form alone does not say why a second pass brings every mark back to where it was. A mark
that was taken off a document inside returns at the root because the reason for it, a forced
line or a marked item, is still there, or because the root is marked in any case. So the
invariant speaks of normal forms without their mark, and keeps a document in a group only if
there is no such reason in it.

## Main definitions

* `Doc.Inside` : a document occurs in another one.
* `Doc.HasNoEmptyBreak` : no empty document is marked as having to break.
* `Doc.Settled`, `Doc.IsNormal` : normal forms without their mark, and normal forms.
* `Doc.HasNormalShape` : what can be seen of a normal form.

## Main results

* `Doc.mustBreak_normal` : normalising neither adds nor removes a reason to break.
* `Doc.normal_of_settled`, `Doc.IsNormal.normal_eq` : normal forms are not changed.
* `Doc.isNormal_normal` : normalising gives a normal form.
* `Doc.normalize_reaches_normalForm` : its shape, and that a second pass changes nothing.
-/

namespace Typeset.Doc

variable {d e : Doc} {ds : List Doc}

/-! ### Documents inside a document -/

/-- The document `e` occurs in `d`, or is `d`. -/
inductive Inside (e : Doc) : Doc → Prop
  | self : Inside e e
  | part {d f : Doc} (hf : f ∈ d.parts) (h : Inside e f) : Inside e d

/-- No mark of a forced break is on a document whose normal form is empty. -/
def HasNoEmptyBreak (d : Doc) : Prop :=
  ∀ e, Inside (alwaysBreak e) d → e.normalize.isEmpty = false

theorem hasNoEmptyBreak_iff : d.HasNoEmptyBreak ↔
    (∀ e, d = alwaysBreak e → e.normalize.isEmpty = false) ∧
      ∀ e ∈ d.parts, e.HasNoEmptyBreak := by
  constructor
  · intro h
    exact ⟨fun e he => h e (he ▸ .self), fun e he f hf => h f (.part he hf)⟩
  · rintro ⟨hroot, hparts⟩ e he
    cases he with
    | self => exact hroot e rfl
    | part hf h => exact hparts _ hf e h

/-- Without a mark at the root, only the parts count. -/
theorem hasNoEmptyBreak_of_parts (hb : d.isBreaking = false)
    (h : ∀ e ∈ d.parts, e.HasNoEmptyBreak) : d.HasNoEmptyBreak := by
  refine hasNoEmptyBreak_iff.mpr ⟨?_, h⟩
  rintro e rfl
  cases hb

/-! ### Marks -/

/-- The document without a mark of a forced break at its root. -/
def stripped : Doc → Doc
  | alwaysBreak d => d
  | d => d

theorem stripped_eq_self (h : d.isBreaking = false) : d.stripped = d := by
  cases d with
  | alwaysBreak d => cases h
  | _ => rfl

@[simp]
theorem breakingIf_false (d : Doc) : breakingIf false d = d := rfl

theorem stripped_breakingIf (h : d.isBreaking = false) (b : Bool) :
    (breakingIf b d).stripped = d := by
  cases b
  · exact stripped_eq_self h
  · rfl

theorem liftBreak_breakingIf (wrap : Doc → Doc) (h : d.isBreaking = false) (b : Bool) :
    liftBreak wrap (breakingIf b d) = breakingIf b (wrap d) := by
  cases b
  · exact liftBreak_of_not_isBreaking wrap h
  · rfl

/-- A mark is lifted over what is put around a document. -/
theorem liftBreak_eq_breakingIf (wrap : Doc → Doc) (d : Doc) :
    liftBreak wrap d = breakingIf d.isBreaking (wrap d.stripped) := by
  cases d <;> rfl

/-- A mark takes the place of the one that is there. -/
theorem rebuildBreak_eq (d : Doc) : rebuildBreak d = alwaysBreak d.stripped := by
  cases d <;> rfl

/-! ### Reasons to break -/

private theorem mustBreak_joined (ds : List Doc) : (joined ds).mustBreak = anyMustBreak ds := by
  match ds with
  | [] => rfl
  | [d] => simp [joined, anyMustBreak]
  | d :: d' :: ds => rfl

/-- A normal form without a reason to break contributes no reason to a concatenation. -/
private theorem mustBreak_of_mem_spliced {n : Doc} (h : n.mustBreak = false) (he : e ∈ n.spliced) :
    e.mustBreak = false := by
  cases n with
  | concat ds =>
    rw [mustBreak, anyMustBreak_eq_any, List.any_eq_false] at h
    simpa using h e he
  | alwaysBreak n => cases h
  | _ =>
    obtain rfl := eq_of_mem_spliced rfl he
    exact h

private theorem mustBreak_normal_of_not (h : d.mustBreak = false) :
    d.normal.mustBreak = false := by
  induction d using inductionOn with
  | nil | lit | unknown => rfl
  | text s => rw [normal, rebuildText]; split <;> rfl
  | line k => rw [normal, rebuildLine, show k.forcesBreak = false from h]; exact h
  | concat ds ih =>
    have hany : anyMustBreak ds = false := h
    rw [normal, normalAll_eq_map, rebuildConcat, any_isBreaking_map_normal, hany]
    show (joined _).mustBreak = false
    rw [mustBreak_joined, anyMustBreak_eq_any, List.any_eq_false]
    intro e he
    obtain ⟨n, hn, he⟩ := List.mem_flatMap.mp he
    obtain ⟨d, hd, rfl⟩ := List.mem_map.mp hn
    rw [anyMustBreak_eq_any, List.any_eq_false] at hany
    rw [mustBreak_of_mem_spliced (ih d hd (by simpa using hany d hd)) he]
    exact Bool.false_ne_true
  | indent d ih =>
    rw [normal, liftBreak_of_not_isBreaking _ ((isBreaking_normal d).trans h)]
    exact ih h
  | annotated d a ih =>
    rw [normal, liftBreak_of_not_isBreaking _ ((isBreaking_normal d).trans h)]
    exact ih h
  | group d b ih =>
    rw [normal, rebuildGroup_of_not_isBreaking ((isBreaking_normal d).trans h)]
    exact ih h
  | alwaysBreak d => cases h
  | fill ds ih =>
    have hany : anyMustBreak ds = false := h
    rw [normal, normalAll_eq_map, rebuildFill, any_isBreaking_map_normal, hany]
    show anyMustBreak _ = false
    rw [anyMustBreak_eq_any, List.any_eq_false] at hany ⊢
    intro n hn
    obtain ⟨d, hd, rfl⟩ := List.mem_map.mp hn
    simp [ih d hd (by simpa using hany d hd)]
  | conditional ds d ihs ih =>
    rw [normal, normalAll_eq_map, rebuildConditional, all_isBreaking_candidates_normal, h]
    simp only [breakingIf, Bool.false_eq_true, if_false]
    simp only [mustBreak, allMustBreak_eq_all, Bool.and_eq_false_iff, List.all_eq_false] at h ⊢
    obtain ⟨e, he, hbreak⟩ | hbreak := h
    · exact .inl ⟨e.normal, List.mem_map_of_mem he, by simp [ihs e he (by simpa using hbreak)]⟩
    · exact .inr (ih hbreak)

/-- Normalising neither adds nor removes a reason to break. -/
theorem mustBreak_normal (d : Doc) : d.normal.mustBreak = d.mustBreak := by
  cases h : d.mustBreak with
  | false => exact mustBreak_normal_of_not h
  | true =>
    have hmark := (isBreaking_normal d).trans h
    cases hn : d.normal <;> simp_all [isBreaking, mustBreak]

/-! ### Normal forms -/

/-- Normal forms from which the mark at the root is taken. A group stands around a document
only if that has no reason to break; items of fills and candidates are marked exactly if they
have one. -/
inductive Settled : Doc → Prop
  | nil : Settled nil
  | lit (s : String) : Settled (lit s)
  | text {s : String} (hs : s.isEmpty = false) : Settled (text s)
  | line (k : LineKind) : Settled (line k)
  | unknown (s : String) : Settled (unknown s)
  | concat {ds : List Doc} (htwo : 2 ≤ ds.length)
      (hparts : ∀ d ∈ ds, d.isPiece = true ∧ d.isEmpty = false) (h : ∀ d ∈ ds, Settled d) :
      Settled (concat ds)
  | indent {d : Doc} (h : Settled d) : Settled (indent d)
  | annotated {d : Doc} (a : Mark) (h : Settled d) : Settled (annotated d a)
  | group {d : Doc} (b : Bool) (hd : d.mustBreak = false) (h : Settled d) : Settled (group d b)
  | fill {ds : List Doc} (hmark : ∀ d ∈ ds, d.isBreaking = d.mustBreak)
      (h : ∀ d ∈ ds, Settled d.stripped) : Settled (fill ds)
  | conditional {front : List Doc} {fallback : Doc}
      (hmark : ∀ d ∈ candidates front fallback, d.isBreaking = d.mustBreak)
      (h : ∀ d ∈ candidates front fallback, Settled d.stripped) :
      Settled (conditional front fallback)

/-- Normal forms: marked exactly if there is a reason to break, and never around an empty
document. -/
structure IsNormal (d : Doc) : Prop where
  isBreaking_eq : d.isBreaking = d.mustBreak
  settled : d.stripped.Settled
  not_empty : d.isBreaking = true → d.stripped.isEmpty = false

theorem Settled.isBreaking_eq (h : d.Settled) : d.isBreaking = false := by
  cases h <;> rfl

/-! ### A second pass -/

/-- What is settled under its mark is normalised to itself, if it is marked as it should be. -/
private theorem normal_eq_of_stripped (hmark : d.isBreaking = d.mustBreak)
    (hs : d.stripped.Settled)
    (h : d.stripped.normal = breakingIf d.stripped.mustBreak d.stripped) : d.normal = d := by
  cases hb : d.isBreaking with
  | false =>
    rw [stripped_eq_self hb, ← hmark, hb] at h
    exact h
  | true =>
    obtain ⟨e, rfl⟩ : ∃ e, d = alwaysBreak e := by
      cases d <;> simp_all [isBreaking]
    rw [normal, show e.normal = _ from h, rebuildBreak_eq, stripped_breakingIf hs.isBreaking_eq]
    rfl

private theorem map_normal_eq_self {ds : List Doc} (h : ∀ d ∈ ds, d.normal = d) :
    ds.map normal = ds := by
  rw [List.map_congr_left h, List.map_id']

/-- Parts of a concatenation that have been marked once more contribute themselves. -/
private theorem spliced_breakingIf (hpiece : d.isPiece = true) (hempty : d.isEmpty = false)
    (b : Bool) : (breakingIf b d).spliced = [d] := by
  cases b <;> cases d <;> simp_all [breakingIf, isPiece, spliced]

private theorem flatMap_spliced_eq_self {ds : List Doc}
    (h : ∀ d ∈ ds, d.normal.spliced = [d]) : (ds.map normal).flatMap spliced = ds := by
  induction ds with
  | nil => rfl
  | cons d ds ih =>
    rw [List.map_cons, List.flatMap_cons, h d List.mem_cons_self,
      ih fun e he => h e (List.mem_cons_of_mem _ he), List.singleton_append]

private theorem joined_of_two_le (h : 2 ≤ ds.length) : joined ds = concat ds := by
  cases ds with
  | nil => simp at h
  | cons d ds =>
    cases ds with
    | nil => simp at h
    | cons d' ds => rfl

/-- A second pass gives a settled document back, marked if there is a reason to break. -/
theorem normal_of_settled (h : d.Settled) : d.normal = breakingIf d.mustBreak d := by
  induction h with
  | nil | lit | unknown => rfl
  | text hs => simp [normal, rebuildText, hs, mustBreak, breakingIf]
  | line k => rfl
  | @concat ds htwo hparts _ ih =>
    have hspliced : (ds.map normal).flatMap spliced = ds := by
      refine flatMap_spliced_eq_self fun d hd => ?_
      rw [ih d hd, spliced_breakingIf (hparts d hd).1 (hparts d hd).2]
    rw [normal, normalAll_eq_map, rebuildConcat, any_isBreaking_map_normal, hspliced,
      joined_of_two_le htwo]
    rfl
  | indent hd ih => rw [normal, ih, liftBreak_breakingIf _ hd.isBreaking_eq]; rfl
  | annotated a hd ih => rw [normal, ih, liftBreak_breakingIf _ hd.isBreaking_eq]; rfl
  | @group e b hbreak hd ih =>
    have hself : e.normal = e := by rw [ih, hbreak, breakingIf_false]
    rw [normal, hself, rebuildGroup_of_not_isBreaking hd.isBreaking_eq, mustBreak, hbreak]
    rfl
  | @fill ds hmark hds ih =>
    have hself : ds.map normal = ds :=
      map_normal_eq_self fun d hd => normal_eq_of_stripped (hmark d hd) (hds d hd) (ih d hd)
    rw [normal, normalAll_eq_map, rebuildFill, any_isBreaking_map_normal, hself]
    rfl
  | @conditional front fallback hmark hds ih =>
    have hself (d : Doc) (hd : d ∈ candidates front fallback) : d.normal = d :=
      normal_eq_of_stripped (hmark d hd) (hds d hd) (ih d hd)
    have hfront : front.map normal = front :=
      map_normal_eq_self fun d hd => hself d (by simp [candidates, hd])
    rw [normal, normalAll_eq_map, rebuildConditional, all_isBreaking_candidates_normal, hfront,
      hself fallback (by simp [candidates])]

/-- Normal forms are not changed. -/
theorem IsNormal.normal_eq (h : d.IsNormal) : d.normal = d :=
  normal_eq_of_stripped h.isBreaking_eq h.settled (normal_of_settled h.settled)

/-! ### The first pass -/

/-- What a normal form contributes to a concatenation is settled and not empty. -/
private theorem settled_of_mem_spliced {n : Doc} (h : n.IsNormal) (he : e ∈ n.spliced) :
    e.Settled ∧ e.isEmpty = false := by
  have hsettled := h.settled
  cases n with
  | concat ds =>
    cases hsettled with
    | concat _ hparts hds => exact ⟨hds e he, (hparts e he).2⟩
  | alwaysBreak n =>
    cases n with
    | concat ds =>
      cases hsettled with
      | concat _ hparts hds => exact ⟨hds e he, (hparts e he).2⟩
    | _ =>
      obtain rfl := List.mem_singleton.mp he
      exact ⟨hsettled, h.not_empty rfl⟩
  | _ =>
    simp only [spliced] at he
    split at he
    · simp at he
    · next hempty =>
      obtain rfl := List.mem_singleton.mp he
      exact ⟨hsettled, by simpa using hempty⟩

/-- A normal form that is marked contributes to a concatenation. -/
private theorem spliced_ne_nil {n : Doc} (h : n.IsNormal) (hb : n.isBreaking = true) :
    n.spliced ≠ [] := by
  have hsettled := h.settled
  cases n with
  | alwaysBreak n =>
    cases n with
    | concat ds =>
      cases hsettled with
      | concat htwo _ _ =>
        rintro rfl
        simp at htwo
    | _ => simp [spliced]
  | _ => cases hb

private theorem settled_joined
    (h : ∀ e ∈ ds, e.isPiece = true ∧ e.Settled ∧ e.isEmpty = false) : (joined ds).Settled := by
  match ds, h with
  | [], _ => exact .nil
  | [d], h => exact (h d List.mem_cons_self).2.1
  | d :: d' :: ds, h =>
    exact .concat (by simp) (fun e he => ⟨(h e he).1, (h e he).2.2⟩) fun e he => (h e he).2.1

private theorem isEmpty_joined (hne : ds ≠ []) (h : ∀ e ∈ ds, e.isEmpty = false) :
    (joined ds).isEmpty = false := by
  match ds, h with
  | [], _ => exact absurd rfl hne
  | [d], h => exact h d List.mem_cons_self
  | d :: d' :: ds, _ => rfl

/-- A normal form is given by whether it is marked and by what is under the mark. -/
private theorem isNormal_of_eq {b : Bool} (heq : d.normal = breakingIf b e) (he : e.Settled)
    (hempty : b = true → e.isEmpty = false) : d.normal.IsNormal := by
  have hstripped : d.normal.stripped = e := by
    rw [heq, stripped_breakingIf he.isBreaking_eq]
  refine ⟨by rw [isBreaking_normal, mustBreak_normal], hstripped ▸ he, fun hb => ?_⟩
  rw [hstripped]
  refine hempty ?_
  cases b with
  | true => rfl
  | false => rw [heq, breakingIf_false, he.isBreaking_eq] at hb; exact hb

/-- Normalising gives a normal form, unless an empty document is marked. -/
theorem isNormal_normal (h : d.HasNoEmptyBreak) : d.normal.IsNormal := by
  induction d using inductionOn with
  | nil => exact ⟨rfl, .nil, nofun⟩
  | lit s => exact ⟨rfl, .lit s, nofun⟩
  | unknown s => exact ⟨rfl, .unknown s, nofun⟩
  | text s =>
    cases hs : s.isEmpty with
    | true => exact isNormal_of_eq (b := false) (by simp [normal, rebuildText, hs]) .nil nofun
    | false =>
      exact isNormal_of_eq (b := false) (by simp [normal, rebuildText, hs]) (.text hs) nofun
  | line k => exact isNormal_of_eq rfl (.line k) fun _ => rfl
  | concat ds ih =>
    have hds (d : Doc) (hd : d ∈ ds) : d.normal.IsNormal :=
      ih d hd ((hasNoEmptyBreak_iff.mp h).2 d hd)
    have hspliced : ∀ e ∈ (ds.map normal).flatMap spliced,
        e.isPiece = true ∧ e.Settled ∧ e.isEmpty = false := by
      intro e he
      obtain ⟨n, hn, he⟩ := List.mem_flatMap.mp he
      obtain ⟨d, hd, rfl⟩ := List.mem_map.mp hn
      exact ⟨isPiece_of_mem_spliced_normal d e he, settled_of_mem_spliced (hds d hd) he⟩
    have heq : (concat ds).normal = breakingIf ((ds.map normal).any isBreaking)
        (joined ((ds.map normal).flatMap spliced)) := by rw [normal, normalAll_eq_map]; rfl
    refine isNormal_of_eq heq (settled_joined hspliced) fun hany => ?_
    refine isEmpty_joined ?_ fun e he => (hspliced e he).2.2
    obtain ⟨n, hn, hb⟩ := List.any_eq_true.mp hany
    obtain ⟨d, hd, rfl⟩ := List.mem_map.mp hn
    obtain ⟨e, he⟩ := List.exists_mem_of_ne_nil _ (spliced_ne_nil (hds d hd) hb)
    exact List.ne_nil_of_mem (List.mem_flatMap.mpr ⟨_, hn, he⟩)
  | indent d ih =>
    have hd := ih ((hasNoEmptyBreak_iff.mp h).2 d List.mem_cons_self)
    have heq : (indent d).normal = breakingIf d.normal.isBreaking (indent d.normal.stripped) :=
      liftBreak_eq_breakingIf indent d.normal
    exact isNormal_of_eq heq (.indent hd.settled) fun _ => rfl
  | annotated d a ih =>
    have hd := ih ((hasNoEmptyBreak_iff.mp h).2 d List.mem_cons_self)
    have heq : (annotated d a).normal =
        breakingIf d.normal.isBreaking (annotated d.normal.stripped a) :=
      liftBreak_eq_breakingIf (annotated · a) d.normal
    exact isNormal_of_eq heq (.annotated a hd.settled) fun _ => rfl
  | group d b ih =>
    have hd := ih ((hasNoEmptyBreak_iff.mp h).2 d List.mem_cons_self)
    cases hb : d.normal.isBreaking with
    | true =>
      have heq : (group d b).normal = d.normal := by
        rw [normal]
        cases hn : d.normal <;> simp_all [isBreaking, rebuildGroup]
      rw [heq]
      exact hd
    | false =>
      have heq : (group d b).normal = breakingIf false (group d.normal b) := by
        rw [normal, rebuildGroup_of_not_isBreaking hb, breakingIf_false]
      have hsettled := hd.settled
      rw [stripped_eq_self hb] at hsettled
      exact isNormal_of_eq heq (.group b (hd.isBreaking_eq ▸ hb) hsettled) nofun
  | alwaysBreak d ih =>
    obtain ⟨hroot, hparts⟩ := hasNoEmptyBreak_iff.mp h
    have hd := ih (hparts d List.mem_cons_self)
    have heq : (alwaysBreak d).normal = breakingIf true d.normal.stripped :=
      rebuildBreak_eq d.normal
    refine isNormal_of_eq heq hd.settled fun _ => ?_
    cases hb : d.normal.isBreaking with
    | true => exact hd.not_empty hb
    | false =>
      rw [stripped_eq_self hb, ← normalize_eq_normal]
      exact hroot d rfl
  | fill ds ih =>
    have hds (n : Doc) (hn : n ∈ ds.map normal) : n.IsNormal := by
      obtain ⟨d, hd, rfl⟩ := List.mem_map.mp hn
      exact ih d hd ((hasNoEmptyBreak_iff.mp h).2 d hd)
    have heq : (fill ds).normal = breakingIf ((ds.map normal).any isBreaking)
        (fill (ds.map normal)) := by rw [normal, normalAll_eq_map]; rfl
    exact isNormal_of_eq heq (.fill (fun n hn => (hds n hn).isBreaking_eq)
      fun n hn => (hds n hn).settled) fun _ => rfl
  | conditional ds d ihs ih =>
    have hds (n : Doc) (hn : n ∈ candidates (ds.map normal) d.normal) : n.IsNormal := by
      rw [candidates_map_normal] at hn
      obtain ⟨e, he, rfl⟩ := List.mem_map.mp hn
      have hbreak := (hasNoEmptyBreak_iff.mp h).2 e he
      simp only [candidates, List.mem_append, List.mem_singleton] at he
      obtain he | rfl := he
      · exact ihs e he hbreak
      · exact ih hbreak
    have heq : (conditional ds d).normal =
        breakingIf ((candidates (ds.map normal) d.normal).all isBreaking)
          (conditional (ds.map normal) d.normal) := by rw [normal, normalAll_eq_map]; rfl
    exact isNormal_of_eq heq (.conditional (fun n hn => (hds n hn).isBreaking_eq)
      fun n hn => (hds n hn).settled) fun _ => rfl

/-! ### What can be seen of a normal form -/

/-- The parts of a settled document are settled under their marks. -/
private theorem settled_of_mem_parts (h : d.stripped.Settled) (he : e ∈ d.parts) :
    e.stripped.Settled := by
  have hself {f : Doc} (hf : f.Settled) : f.stripped.Settled := by
    rwa [stripped_eq_self hf.isBreaking_eq]
  cases d with
  | alwaysBreak d =>
    obtain rfl := List.mem_singleton.mp he
    exact hself h
  | concat ds => cases h with | concat _ _ hds => exact hself (hds e he)
  | indent d =>
    obtain rfl := List.mem_singleton.mp he
    cases h with | indent hd => exact hself hd
  | annotated d a =>
    obtain rfl := List.mem_singleton.mp he
    cases h with | annotated _ hd => exact hself hd
  | group d b =>
    obtain rfl := List.mem_singleton.mp he
    cases h with | group _ _ hd => exact hself hd
  | fill ds => cases h with | fill _ hds => exact hds e he
  | conditional ds d => cases h with | conditional _ hds => exact hds e he
  | _ => cases he

/-- Whatever is inside a normal form is settled under its mark. -/
theorem settled_of_inside (he : Inside e d) (h : d.stripped.Settled) : e.stripped.Settled := by
  induction he with
  | self => exact h
  | part hf _ ih => exact ih (settled_of_mem_parts h hf)

/-- The shape of a normal form. -/
structure HasNormalShape (d : Doc) : Prop where
  /-- A concatenation has at least two parts, none of which could be spliced or dropped. -/
  concat (ds : List Doc) (h : Inside (concat ds) d) :
    2 ≤ ds.length ∧ ∀ e ∈ ds, e.isPiece = true ∧ e ≠ nil ∧ e ≠ lit "" ∧ e ≠ text ""
  /-- A mark stands at the root, on an item of a fill or on a candidate. -/
  marked (e f : Doc) (h : Inside f d) (he : alwaysBreak e ∈ f.parts) :
    (∃ ds, f = fill ds) ∨ ∃ front fallback, f = conditional front fallback

private theorem Settled.ne_text_empty (h : d.Settled) : d ≠ Doc.text "" := by
  rintro rfl
  cases h with
  | text hs => cases hs

/-- A settled document has a mark on one of its parts only if it is a fill or a conditional. -/
private theorem eq_fill_or_conditional_of_marked (h : d.stripped.Settled)
    (he : alwaysBreak e ∈ d.parts) :
    (∃ ds, d = fill ds) ∨ ∃ front fallback, d = conditional front fallback := by
  -- the only part of a document is not marked where it is settled
  have hsingle {f : Doc} (hf : f.Settled) (hmem : alwaysBreak e ∈ [f]) : False := by
    rw [← List.mem_singleton.mp hmem] at hf
    exact absurd hf.isBreaking_eq (by simp [isBreaking])
  cases d with
  | fill ds => exact .inl ⟨ds, rfl⟩
  | conditional front fallback => exact .inr ⟨front, fallback, rfl⟩
  | concat ds =>
    cases h with
    | concat _ hparts _ => exact absurd (hparts _ he).1 (by simp [isPiece])
  | alwaysBreak d => exact (hsingle h he).elim
  | indent d => cases h with | indent hd => exact (hsingle hd he).elim
  | annotated d a => cases h with | annotated _ hd => exact (hsingle hd he).elim
  | group d b => cases h with | group _ _ hd => exact (hsingle hd he).elim
  | _ => cases he

/-- Normal forms have the shape of normal forms. -/
theorem IsNormal.hasNormalShape (h : d.IsNormal) : d.HasNormalShape where
  concat ds hds := by
    cases settled_of_inside hds h.settled with
    | concat htwo hparts hsettled =>
      refine ⟨htwo, fun e he => ⟨(hparts e he).1, ?_, ?_, (hsettled e he).ne_text_empty⟩⟩
      · rintro rfl
        exact absurd (hparts _ he).2 (by simp [isEmpty])
      · rintro rfl
        exact absurd (hparts _ he).2 (by simp [isEmpty])
  marked e f hf he := eq_fill_or_conditional_of_marked (settled_of_inside hf h.settled) he

/-- **Normalising reaches a normal form.** For a document in which no empty document is marked
as having to break, the result has the shape of normal forms, no mark in it is directly around
another one, and normalising it once more changes nothing. -/
theorem normalize_reaches_normalForm (d : Doc) (h : d.HasNoEmptyBreak) :
    d.normalize.HasNormalShape ∧ (∀ e, ¬ Inside (alwaysBreak (alwaysBreak e)) d.normalize) ∧
      d.normalize.normalize = d.normalize := by
  have hnormal := isNormal_normal h
  simp only [normalize_eq_normal]
  refine ⟨hnormal.hasNormalShape, fun e he => ?_, hnormal.normal_eq⟩
  exact absurd (settled_of_inside he hnormal.settled).isBreaking_eq (by simp [stripped, isBreaking])

/-- A group around a concatenation that is spliced, with an empty text, a forced line and a fill
whose item is marked. -/
theorem normalize_reaches_normalForm_group :
    let d : Doc := .group (.concat [.text "", .concat [.lit "a", .line .hard],
      .fill [.alwaysBreak (.lit "x")]]) false
    d.HasNoEmptyBreak ∧ d.normalize.HasNormalShape ∧
      (∀ e, ¬ Inside (alwaysBreak (alwaysBreak e)) d.normalize) ∧
      d.normalize.normalize = d.normalize := by
  intro d
  have hleaf (e : Doc) (hparts : e.parts = []) (hb : e.isBreaking = false) :
      e.HasNoEmptyBreak := hasNoEmptyBreak_of_parts hb (by simp [hparts])
  have hinner : (concat [.lit "a", .line .hard]).HasNoEmptyBreak :=
    hasNoEmptyBreak_of_parts rfl (by simpa [parts] using ⟨hleaf _ rfl rfl, hleaf _ rfl rfl⟩)
  have hitem : (alwaysBreak (.lit "x")).HasNoEmptyBreak := by
    refine hasNoEmptyBreak_iff.mpr ⟨?_, by simpa [parts] using hleaf _ rfl rfl⟩
    rintro e ⟨⟩
    rw [normalize_eq_normal]
    rfl
  have hfill : (fill [.alwaysBreak (.lit "x")]).HasNoEmptyBreak :=
    hasNoEmptyBreak_of_parts rfl (by simpa [parts] using hitem)
  have hbody : (concat [.text "", .concat [.lit "a", .line .hard],
      .fill [.alwaysBreak (.lit "x")]]).HasNoEmptyBreak :=
    hasNoEmptyBreak_of_parts rfl (by simpa [parts] using ⟨hleaf _ rfl rfl, hinner, hfill⟩)
  have hd : d.HasNoEmptyBreak :=
    hasNoEmptyBreak_of_parts rfl (by simpa [d, parts] using hbody)
  exact ⟨hd, normalize_reaches_normalForm d hd⟩

end Typeset.Doc
