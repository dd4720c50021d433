import Typeset.Doc.Combinators
import Typeset.Layout.Command
import Typeset.Layout.Item

/-!
# Admissible streams

The streams of items that a document may be laid out as, at an indentation level and in a
mode. The relation speaks of documents as they are written, before any normalising, and knows
neither a width nor a column: where the layout chooses by what fits, every choice is
admissible. A document that must break is printed broken whatever mode is asked for, and this
is the only way in which a forced break acts on what is around it.

## Main definitions

* `Doc.modeIn` : the mode in which a document is printed.
* `Mode.choices` : the modes between which a choice is made.
* `Admits`, `AdmitsEach` : the streams of a document, and of documents one after the other.

## Main results

* `AdmitsEach.exists_append` : streams of documents come apart where the documents do.
* `Doc.exists_admitsEach_of_cat` : a stream of documents that are put together.
-/

namespace Typeset

/-- The mode in which a document is printed where a mode is asked for. -/
def Doc.modeIn (d : Doc) (m : Mode) : Mode := if d.mustBreak then .broken else m

/-- The modes that are open to a choice: what is printed flat has none. -/
def Mode.choices : Mode → List Mode
  | .flat => [.flat]
  | .broken => [.flat, .broken]

/-- The items of a text: none for the empty one. -/
def textItems (s : String) : List Item := if s.isEmpty then [] else [.text s]

/-- The items of a line at an indentation level. -/
def lineItems (level : Nat) : Mode → LineKind → List Item
  | .flat, .soft => [.text " "]
  | .flat, .empty => []
  | _, .literal => [.line 0]
  | _, _ => [.line level]

mutual

/-- The streams that a document admits at an indentation level where a mode is asked for. A
group in broken surroundings may be flat only if its body can be; of the candidates of a
conditional in broken surroundings one in front is flat, or the fallback is broken. -/
inductive Admits : Nat → Mode → Doc → List Item → Prop
  | nil (i : Nat) (m : Mode) : Admits i m .nil []
  | lit (i : Nat) (m : Mode) (s : String) : Admits i m (.lit s) (textItems s)
  | text (i : Nat) (m : Mode) (s : String) : Admits i m (.text s) (textItems s)
  | line (i : Nat) (m : Mode) (k : LineKind) :
      Admits i m (.line k) (lineItems i ((Doc.line k).modeIn m) k)
  | concat {i m ds items} (h : AdmitsEach i [(Doc.concat ds).modeIn m] ds items) :
      Admits i m (.concat ds) items
  | indent {i m d items} (h : Admits (i + 1) ((Doc.indent d).modeIn m) d items) :
      Admits i m (.indent d) items
  | annotated {i m d a items} (h : Admits i ((Doc.annotated d a).modeIn m) d items) :
      Admits i m (.annotated d a) (.push a :: items ++ [.pop a])
  | alwaysBreak {i m d items} (h : Admits i .broken d items) :
      Admits i m (.alwaysBreak d) items
  | forcedGroup {i m d items} (h : Admits i .broken d items) :
      Admits i m (.group d true) items
  | group {i m d items} (h : Admits i ((Doc.group d false).modeIn m) d items) :
      Admits i m (.group d false) items
  | flatGroup {i d items} (hd : d.mustBreak = false) (h : Admits i .flat d items) :
      Admits i .broken (.group d false) items
  | fill {i m ds items} (h : AdmitsEach i ((Doc.fill ds).modeIn m).choices ds items) :
      Admits i m (.fill ds) items
  | flatCandidate {i m front fallback d items}
      (hm : (Doc.conditional front fallback).modeIn m = .flat)
      (hd : (Doc.candidates front fallback).find? (!·.mustBreak) = some d)
      (h : Admits i .flat d items) : Admits i m (.conditional front fallback) items
  | candidate {i m front fallback d items}
      (hm : (Doc.conditional front fallback).modeIn m = .broken) (hd : d ∈ front)
      (h : Admits i .flat d items) : Admits i m (.conditional front fallback) items
  | fallback {i m front fallback items}
      (hm : (Doc.conditional front fallback).modeIn m = .broken)
      (h : Admits i .broken fallback items) : Admits i m (.conditional front fallback) items

/-- The streams of documents one after the other, each in one of the modes. -/
inductive AdmitsEach : Nat → List Mode → List Doc → List Item → Prop
  | nil (i : Nat) (ms : List Mode) : AdmitsEach i ms [] []
  | cons {i ms m d ds xs ys} (hm : m ∈ ms) (h : Admits i m d xs) (hs : AdmitsEach i ms ds ys) :
      AdmitsEach i ms (d :: ds) (xs ++ ys)

end

/-! ### Streams of parts -/

section Parts

variable {i : Nat} {m : Mode} {ms : List Mode} {d : Doc} {ds es : List Doc} {items : List Item}

theorem AdmitsEach.exists_append (h : AdmitsEach i ms (ds ++ es) items) :
    ∃ xs ys, items = xs ++ ys ∧ AdmitsEach i ms ds xs ∧ AdmitsEach i ms es ys := by
  induction ds generalizing items with
  | nil => exact ⟨[], items, rfl, .nil i ms, h⟩
  | cons d ds ih =>
    cases h with
    | cons hm hd hs =>
      obtain ⟨xs, ys, rfl, hxs, hys⟩ := ih hs
      exact ⟨_, ys, (List.append_assoc ..).symm, .cons hm hd hxs, hys⟩

theorem AdmitsEach.exists_cons (h : AdmitsEach i ms (d :: ds) items) :
    ∃ m ∈ ms, ∃ xs ys, items = xs ++ ys ∧ Admits i m d xs ∧ AdmitsEach i ms ds ys := by
  cases h with
  | cons hm hd hs => exact ⟨_, hm, _, _, rfl, hd, hs⟩

theorem AdmitsEach.exists_singleton (h : AdmitsEach i ms [d] items) :
    ∃ m ∈ ms, Admits i m d items := by
  obtain ⟨m, hm, xs, ys, rfl, hd, hs⟩ := h.exists_cons
  cases hs
  exact ⟨m, hm, by rwa [List.append_nil]⟩

/-- A conditional is laid out as one of its candidates. -/
theorem Admits.exists_candidate {front : List Doc} {fallback : Doc}
    (h : Admits i m (.conditional front fallback) items) :
    ∃ m', ∃ d ∈ Doc.candidates front fallback, Admits i m' d items := by
  cases h with
  | flatCandidate _ hd h => exact ⟨_, _, List.mem_of_find?_eq_some hd, h⟩
  | candidate _ hd h => exact ⟨_, _, List.mem_append_left _ hd, h⟩
  | fallback _ h => exact ⟨_, _, List.mem_append_right _ List.mem_cons_self, h⟩

namespace Doc

theorem modeIn_eq (d : Doc) (m : Mode) : d.modeIn m = m ∨ d.modeIn m = .broken := by
  rw [modeIn]
  split
  · exact .inr rfl
  · exact .inl rfl

/-- The empty plain text and the empty document admit the same stream. -/
theorem admits_of_tidy (h : Admits i m d.tidy items) : Admits i m d items := by
  cases d with
  | lit s =>
    rw [tidy] at h
    split at h
    · next hs =>
      cases h
      have hempty : textItems s = [] := if_pos hs
      exact hempty ▸ .lit i m s
    · exact h
  | _ => exact h

theorem admitsEach_of_map_tidy (h : AdmitsEach i ms (ds.map tidy) items) :
    AdmitsEach i ms ds items := by
  induction ds generalizing items with
  | nil => exact h
  | cons d ds ih =>
    cases h with
    | cons hm hd hs => exact .cons hm (admits_of_tidy hd) (ih hs)

/-- A stream of documents put together is one of the documents one after the other, all in the mode
that is asked for or all broken. -/
theorem exists_admitsEach_of_cat (h : Admits i m (cat ds) items) :
    ∃ m', (m' = m ∨ m' = .broken) ∧ AdmitsEach i [m'] ds items := by
  match ds with
  | [] =>
    cases h
    exact ⟨m, .inl rfl, .nil i [m]⟩
  | [d] =>
    have hone := AdmitsEach.cons List.mem_cons_self (admits_of_tidy h) (.nil i [m])
    rw [List.append_nil] at hone
    exact ⟨m, .inl rfl, hone⟩
  | d :: e :: ds =>
    cases h with
    | concat hds => exact ⟨_, modeIn_eq _ m, admitsEach_of_map_tidy hds⟩

end Doc

end Parts

end Typeset
