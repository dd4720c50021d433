import Typeset.Proofs.PostOrderWalk

/-!
# Normalisation and forced breaks

A normal form is marked as having to break exactly if the document must break. The marks are
taken off inner documents while they move outwards, so this needs an invariant of normal forms:
whatever a normal form contributes to a concatenation is a single piece, that is, neither a
concatenation nor marked.

## Main definitions

* `Doc.isPiece` : documents that a concatenation of normal forms may hold.

## Main results

* `Doc.isPiece_of_mem_spliced_normal` : the invariant of normal forms.
* `Doc.isBreaking_normal` : marked normal forms are those of documents that must break.
-/

namespace Typeset.Doc

/-! ### Bodies without a mark -/

/-- A body that is not marked is wrapped as it is. -/
theorem liftBreak_of_not_isBreaking {d : Doc} (wrap : Doc → Doc) (h : d.isBreaking = false) :
    liftBreak wrap d = wrap d := by
  cases d with
  | alwaysBreak d => cases h
  | _ => rfl

/-- A body that is not marked keeps its group. -/
theorem rebuildGroup_of_not_isBreaking {d : Doc} (h : d.isBreaking = false) (forced : Bool) :
    rebuildGroup forced d = group d forced := by
  cases d with
  | alwaysBreak d => cases h
  | _ => rfl

/-! ### Pieces of normal forms -/

/-- The documents that a concatenation of normal forms may hold: neither concatenations nor
marked as having to break. -/
def isPiece : Doc → Bool
  | concat _ | alwaysBreak _ => false
  | _ => true

theorem isBreaking_of_isPiece {d : Doc} (h : d.isPiece = true) : d.isBreaking = false := by
  cases d <;> simp_all [isPiece, isBreaking]

/-- A piece contributes at most itself to a concatenation. -/
theorem eq_of_mem_spliced {d e : Doc} (hd : d.isPiece = true) (he : e ∈ d.spliced) : e = d := by
  cases d <;> simp_all [isPiece, spliced]

private theorem isPiece_of_mem_spliced_joined {ds : List Doc} (h : ∀ d ∈ ds, d.isPiece = true) :
    ∀ e ∈ (joined ds).spliced, e.isPiece = true := by
  intro e he
  match ds with
  | [] => simp [joined, spliced, isEmpty] at he
  | [d] =>
    have hd := h d List.mem_cons_self
    rw [eq_of_mem_spliced hd he]
    exact hd
  | d :: d' :: ds => exact h e he

/-- Marking a document changes nothing about what it contributes but for empty ones. -/
private theorem isPiece_of_mem_spliced_alwaysBreak {d : Doc} (hd : d.isBreaking = false)
    (h : ∀ e ∈ d.spliced, e.isPiece = true) :
    ∀ e ∈ (alwaysBreak d).spliced, e.isPiece = true := by
  intro e he
  cases d with
  | concat ds => exact h e he
  | alwaysBreak d => simp [isBreaking] at hd
  | _ => simp_all [spliced, isPiece]

private theorem isBreaking_joined {ds : List Doc} (h : ∀ d ∈ ds, d.isPiece = true) :
    (joined ds).isBreaking = false := by
  match ds with
  | [] => rfl
  | [d] => exact isBreaking_of_isPiece (h d List.mem_cons_self)
  | d :: d' :: ds => rfl

private theorem isPiece_of_mem_spliced_rebuildConcat {ds : List Doc}
    (h : ∀ d ∈ ds, ∀ e ∈ d.spliced, e.isPiece = true) :
    ∀ e ∈ (rebuildConcat ds).spliced, e.isPiece = true := by
  have hs : ∀ e ∈ ds.flatMap spliced, e.isPiece = true := by
    intro e he
    obtain ⟨d, hd, he⟩ := List.mem_flatMap.mp he
    exact h d hd e he
  rw [rebuildConcat, breakingIf]
  split
  · exact isPiece_of_mem_spliced_alwaysBreak (isBreaking_joined hs)
      (isPiece_of_mem_spliced_joined hs)
  · exact isPiece_of_mem_spliced_joined hs

/-- What a normal form contributes to a concatenation are pieces. -/
theorem isPiece_of_mem_spliced_normal (d : Doc) :
    ∀ e ∈ d.normal.spliced, e.isPiece = true := by
  induction d using inductionOn with
  | nil => simp [normal, spliced, isEmpty]
  | lit s => simp [normal, spliced, isPiece]
  | text s => rw [normal, rebuildText]; split <;> simp [spliced, isPiece]
  | line k => rw [normal, rebuildLine, breakingIf]; split <;> simp [spliced, isPiece]
  | concat ds ih =>
    rw [normal, normalAll_eq_map]
    refine isPiece_of_mem_spliced_rebuildConcat fun n hn => ?_
    obtain ⟨d, hd, rfl⟩ := List.mem_map.mp hn
    exact ih d hd
  | indent d ih => rw [normal]; cases d.normal <;> simp [liftBreak, spliced, isPiece]
  | annotated d a ih => rw [normal]; cases d.normal <;> simp [liftBreak, spliced, isPiece]
  | group d b ih =>
    rw [normal]
    cases h : d.normal with
    | alwaysBreak e => rwa [h] at ih
    | _ => simp [rebuildGroup, spliced, isPiece]
  | alwaysBreak d ih =>
    rw [normal]
    cases h : d.normal with
    | alwaysBreak e => rwa [h] at ih
    | _ => exact isPiece_of_mem_spliced_alwaysBreak rfl (h ▸ ih)
  | fill ds ih => rw [normal, rebuildFill, breakingIf]; split <;> simp [spliced, isPiece]
  | conditional ds d ihs ih =>
    rw [normal, rebuildConditional, breakingIf]; split <;> simp [spliced, isPiece]
  | unknown s => simp [normal, spliced, isPiece]

/-! ### Documents that must break -/

theorem anyMustBreak_eq_any (ds : List Doc) : anyMustBreak ds = ds.any mustBreak := by
  induction ds with
  | nil => rfl
  | cons d ds ih => simp [anyMustBreak, ih]

theorem allMustBreak_eq_all (ds : List Doc) : allMustBreak ds = ds.all mustBreak := by
  induction ds with
  | nil => rfl
  | cons d ds ih => simp [allMustBreak, ih]

private theorem isBreaking_breakingIf {d : Doc} (hd : d.isBreaking = false) (b : Bool) :
    (breakingIf b d).isBreaking = b := by
  cases b
  · exact hd
  · rfl

private theorem isBreaking_liftBreak {wrap : Doc → Doc} (hw : ∀ d, (wrap d).isBreaking = false)
    (d : Doc) : (liftBreak wrap d).isBreaking = d.isBreaking := by
  cases d with
  | alwaysBreak d => rfl
  | _ => exact hw _

private theorem map_isBreaking_normal {ds : List Doc}
    (h : ∀ d ∈ ds, d.normal.isBreaking = d.mustBreak) :
    ds.map (fun d => d.normal.isBreaking) = ds.map mustBreak :=
  List.map_congr_left h

private theorem any_isBreaking_map_normal_of {ds : List Doc}
    (h : ∀ d ∈ ds, d.normal.isBreaking = d.mustBreak) :
    (ds.map normal).any isBreaking = ds.any mustBreak := by
  have := congrArg (List.any · id) (map_isBreaking_normal h)
  simpa [List.any_map, Function.comp_def] using this

/-- A normal form is marked exactly if the document must break. -/
theorem isBreaking_normal (d : Doc) : d.normal.isBreaking = d.mustBreak := by
  induction d using inductionOn with
  | nil => rfl
  | lit s => rfl
  | text s => rw [normal, rebuildText]; split <;> rfl
  | line k => exact isBreaking_breakingIf rfl k.forcesBreak
  | concat ds ih =>
    have hs : ∀ e ∈ (ds.map normal).flatMap spliced, e.isPiece = true := by
      intro e he
      obtain ⟨n, hn, he⟩ := List.mem_flatMap.mp he
      obtain ⟨d, -, rfl⟩ := List.mem_map.mp hn
      exact isPiece_of_mem_spliced_normal d e he
    rw [normal, normalAll_eq_map, rebuildConcat, isBreaking_breakingIf (isBreaking_joined hs),
      any_isBreaking_map_normal_of ih, mustBreak, anyMustBreak_eq_any]
  | indent d ih => rw [normal, isBreaking_liftBreak (fun _ => rfl), ih, mustBreak]
  | annotated d a ih => rw [normal, isBreaking_liftBreak (fun _ => rfl), ih, mustBreak]
  | group d b ih =>
    rw [normal, mustBreak, ← ih]
    cases d.normal <;> rfl
  | alwaysBreak d ih =>
    rw [normal]
    cases d.normal <;> rfl
  | fill ds ih =>
    rw [normal, normalAll_eq_map, rebuildFill, isBreaking_breakingIf rfl,
      any_isBreaking_map_normal_of ih, mustBreak, anyMustBreak_eq_any]
  | conditional ds d ihs ih =>
    have hs : (ds.map normal).all isBreaking = ds.all mustBreak := by
      have := congrArg (List.all · id) (map_isBreaking_normal ihs)
      simpa [List.all_map, Function.comp_def] using this
    rw [normal, normalAll_eq_map, rebuildConditional, isBreaking_breakingIf rfl, mustBreak,
      allMustBreak_eq_all]
    simp [candidates, hs, ih]
  | unknown s => rfl

theorem any_isBreaking_map_normal (ds : List Doc) :
    (ds.map normal).any isBreaking = anyMustBreak ds := by
  rw [any_isBreaking_map_normal_of fun d _ => isBreaking_normal d, anyMustBreak_eq_any]

/-- The candidates of a normalised conditional are the normal forms of its candidates. -/
theorem candidates_map_normal (ds : List Doc) (d : Doc) :
    candidates (ds.map normal) d.normal = (candidates ds d).map normal := by
  simp [candidates]

theorem all_isBreaking_candidates_normal (ds : List Doc) (d : Doc) :
    (candidates (ds.map normal) d.normal).all isBreaking = (conditional ds d).mustBreak := by
  rw [candidates_map_normal, List.all_map, mustBreak, allMustBreak_eq_all]
  have : isBreaking ∘ normal = mustBreak := funext isBreaking_normal
  simp [this, candidates]

end Typeset.Doc
