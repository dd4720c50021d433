import Typeset.Layout.Command
import Typeset.Proofs.Normalization

/-!
# Properties of all documents inside a document

A condition on the constructors of a document is asked of the document and of everything
inside it; the condition sees each of them without its parts. Normalising only drops
documents and adds empty ones, concatenations and marks, so it keeps every condition that
these three meet.

## Main definitions

* `Doc.all`, `Command.all` : a condition on a document or a command and on all documents
  inside it.
* `Doc.isKnown`, `Doc.isFillFree` : no document of unknown sort, and no fill.

## Main results

* `Doc.all_normal_of_marks`, `Doc.all_normal` : normal forms keep conditions.
-/

namespace Typeset

namespace Doc

mutual

/-- Whether a condition holds of the document and of all documents inside it, each of them
taken without its parts. -/
def all (p : Doc → Bool) : Doc → Bool
  | concat ds => p (concat []) && allIn p ds
  | fill ds => p (fill []) && allIn p ds
  | indent d => p (indent nil) && all p d
  | annotated d a => p (annotated nil a) && all p d
  | group d b => p (group nil b) && all p d
  | alwaysBreak d => p (alwaysBreak nil) && all p d
  | conditional ds d => p (conditional [] nil) && (allIn p ds && all p d)
  | nil => p nil
  | lit s => p (lit s)
  | text s => p (text s)
  | line k => p (line k)
  | unknown s => p (unknown s)

/-- Whether a condition holds of all documents inside the documents of a list. -/
def allIn (p : Doc → Bool) : List Doc → Bool
  | [] => true
  | d :: ds => all p d && allIn p ds

end

/-- Whether the sort of the document is known. -/
def hasKnownSort : Doc → Bool
  | unknown _ => false
  | _ => true

/-- Whether the document has a layout: no document of unknown sort is inside it. -/
def isKnown : Doc → Bool := all hasKnownSort

/-- Whether the document is not a fill. -/
def isNoFill : Doc → Bool
  | fill _ => false
  | _ => true

/-- Whether no fill is inside the document. -/
def isFillFree : Doc → Bool := all isNoFill

variable {p : Doc → Bool}

theorem allIn_iff {ds : List Doc} : allIn p ds = true ↔ ∀ d ∈ ds, d.all p = true := by
  induction ds with
  | nil => simp [allIn]
  | cons d ds ih => simp [allIn, ih]

theorem all_candidates_iff {ds : List Doc} {d : Doc} :
    (∀ e ∈ candidates ds d, e.all p = true) ↔ allIn p ds = true ∧ d.all p = true := by
  simp [candidates, or_imp, forall_and, allIn_iff]

private theorem all_of_mem_spliced {n : Doc} (h : n.all p = true) :
    ∀ e ∈ n.spliced, e.all p = true := by
  intro e he
  cases n with
  | concat ds =>
    simp only [all, Bool.and_eq_true] at h
    exact allIn_iff.mp h.2 e he
  | alwaysBreak n =>
    simp only [all, Bool.and_eq_true] at h
    cases n with
    | concat ds =>
      simp only [all, Bool.and_eq_true] at h
      exact allIn_iff.mp h.2.2 e he
    | _ =>
      rw [List.mem_singleton.mp he]
      exact h.2
  | _ => simp_all [spliced]

private theorem all_joined (hnil : p nil = true) (hconcat : p (concat []) = true)
    {ds : List Doc} (h : ∀ d ∈ ds, d.all p = true) : (joined ds).all p = true := by
  match ds with
  | [] => exact hnil
  | [d] => exact h d List.mem_cons_self
  | d :: d' :: ds => simp [joined, all, hconcat, allIn_iff.mpr h]

private theorem all_breakingIf {b : Bool} (hbreak : b = true → p (alwaysBreak nil) = true)
    {d : Doc} (h : d.all p = true) : (breakingIf b d).all p = true := by
  cases b
  · exact h
  · simp [breakingIf, all, hbreak rfl, h]

private theorem all_liftBreak {wrap : Doc → Doc} (hw : ∀ d, d.all p = true → (wrap d).all p = true)
    {n : Doc} (h : n.all p = true) : (liftBreak wrap n).all p = true := by
  cases n with
  | alwaysBreak n =>
    simp only [all, Bool.and_eq_true] at h
    simp [liftBreak, all, h.1, hw n h.2]
  | _ => exact hw _ h

/-- Normalising keeps a condition that empty documents and concatenations meet, and that marks
meet if a document that meets it can have to break. -/
theorem all_normal_of_marks (hnil : p nil = true) (hconcat : p (concat []) = true)
    (hbreak : ∀ e : Doc, e.mustBreak = true → e.all p = true → p (alwaysBreak nil) = true)
    {d : Doc} (h : d.all p = true) : d.normal.all p = true := by
  induction d using inductionOn with
  | nil => exact h
  | lit s => exact h
  | text s =>
    rw [normal, rebuildText]
    split
    · exact hnil
    · exact h
  | line k => exact all_breakingIf (fun hb => hbreak (line k) hb h) h
  | concat ds ih =>
    have hmark hb := hbreak _ hb h
    simp only [all, Bool.and_eq_true, allIn_iff] at h
    rw [normal, normalAll_eq_map, rebuildConcat, any_isBreaking_map_normal]
    refine all_breakingIf hmark (all_joined hnil hconcat fun e he => ?_)
    obtain ⟨n, hn, he⟩ := List.mem_flatMap.mp he
    obtain ⟨d, hd, rfl⟩ := List.mem_map.mp hn
    exact all_of_mem_spliced (ih d hd (h.2 d hd)) e he
  | indent d ih =>
    simp only [all, Bool.and_eq_true] at h
    exact all_liftBreak (fun d hd => by simp [all, h.1, hd]) (ih h.2)
  | annotated d a ih =>
    simp only [all, Bool.and_eq_true] at h
    exact all_liftBreak (fun d hd => by simp [all, h.1, hd]) (ih h.2)
  | group d b ih =>
    simp only [all, Bool.and_eq_true] at h
    have hd := ih h.2
    rw [normal]
    cases hn : d.normal with
    | alwaysBreak n => rwa [hn] at hd
    | _ => exact Bool.and_eq_true_iff.mpr ⟨h.1, hn ▸ hd⟩
  | alwaysBreak d ih =>
    simp only [all, Bool.and_eq_true] at h
    have hd := ih h.2
    rw [normal]
    cases hn : d.normal with
    | alwaysBreak n => rwa [hn] at hd
    | _ => exact Bool.and_eq_true_iff.mpr ⟨h.1, hn ▸ hd⟩
  | fill ds ih =>
    have hmark hb := hbreak _ hb h
    simp only [all, Bool.and_eq_true, allIn_iff] at h
    rw [normal, normalAll_eq_map, rebuildFill, any_isBreaking_map_normal]
    refine all_breakingIf hmark ?_
    simp only [all, Bool.and_eq_true, allIn_iff]
    exact ⟨h.1, List.forall_mem_map.mpr fun d hd => ih d hd (h.2 d hd)⟩
  | conditional ds d ihs ih =>
    have hmark hb := hbreak _ hb h
    simp only [all, Bool.and_eq_true, allIn_iff] at h
    rw [normal, normalAll_eq_map, rebuildConditional, all_isBreaking_candidates_normal]
    refine all_breakingIf hmark ?_
    simp only [all, Bool.and_eq_true, allIn_iff]
    exact ⟨h.1, List.forall_mem_map.mpr fun d hd => ihs d hd (h.2.1 d hd), ih h.2.2⟩
  | unknown s => exact h

/-- Normalising keeps a condition that empty documents, concatenations and marks meet. -/
theorem all_normal (hnil : p nil = true) (hconcat : p (concat []) = true)
    (hbreak : p (alwaysBreak nil) = true) {d : Doc} (h : d.all p = true) :
    d.normal.all p = true :=
  all_normal_of_marks hnil hconcat (fun _ _ _ => hbreak) h

end Doc

/-! ### Commands -/

namespace Command

/-- Whether a condition holds of everything that a command prints. -/
def all (p : Doc → Bool) (c : Command) : Bool :=
  match c.content with
  | .doc d => d.all p
  | .endMark _ => true
  | .fillRest _ item rest => p (.fill []) && Doc.allIn p (item :: rest)

variable {p : Doc → Bool}

@[simp]
theorem all_doc (i : Nat) (m : Mode) (d : Doc) : all p ⟨i, m, .doc d⟩ = d.all p := rfl

@[simp]
theorem all_print (i : Nat) (m : Mode) (d : Doc) : (print i m d).all p = d.all p := rfl

@[simp]
theorem all_endMark (i : Nat) (m : Mode) (a : Mark) : all p ⟨i, m, .endMark a⟩ = true := rfl

@[simp]
theorem all_fillRest (i : Nat) (m : Mode) (b : Bool) (d : Doc) (ds : List Doc) :
    all p ⟨i, m, .fillRest b d ds⟩ = (p (.fill []) && (d.all p && Doc.allIn p ds)) := rfl

@[simp]
theorem all_printAll (i : Nat) (m : Mode) (ds : List Doc) :
    (printAll i m ds).all (all p) = Doc.allIn p ds := by
  induction ds with
  | nil => rfl
  | cons d ds ih => exact congrArg (d.all p && ·) ih

end Command

variable {p : Doc → Bool}

theorem all_fillRestCommands (hp : p (.fill []) = true) {ds : List Doc}
    (h : Doc.allIn p ds = true) (i : Nat) (m : Mode) (b : Bool) :
    (fillRestCommands i m b ds).all (Command.all p) = true := by
  cases ds with
  | nil => rfl
  | cons d ds => simpa [fillRestCommands, hp, Doc.allIn] using h

theorem Doc.all_flatCandidate {front : List Doc} {fallback : Doc}
    (h : Doc.allIn p front = true) (h' : fallback.all p = true) :
    (Doc.flatCandidate front fallback).all p = true :=
  Doc.all_candidates_iff.mpr ⟨h, h'⟩ _ (Doc.flatCandidate_mem front fallback)

end Typeset
