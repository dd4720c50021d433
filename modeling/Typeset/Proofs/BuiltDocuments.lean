import Typeset.Doc.Chain
import Typeset.Doc.Token

/-!
# Documents that are built from parts

The documents that the combinators build from given documents. A condition on documents that
each combinator keeps holds of everything that is built from documents that meet it, so that it
need not be carried through whatever puts documents together. The mark of a comment is left out:
where the text of a comment may stand is not for the combinators to say.

## Main definitions

* `Doc.Built` : the documents that are built from given ones.

## Main results

* `Doc.Built.sepBy`, `Doc.Built.commaSeparated`, `Doc.Built.of_chainOf` : lists and chains are
  built from their parts.
-/

namespace Typeset.Doc

/-- The documents that the combinators build from documents of some sort. -/
inductive Built (S : Doc → Prop) : Doc → Prop
  | part {d : Doc} (h : S d) : Built S d
  | lit (s : String) : Built S (lit s)
  | line (k : LineKind) : Built S (line k)
  | cat {ds : List Doc} (h : ∀ d ∈ ds, Built S d) : Built S (cat ds)
  | nested {d : Doc} (h : Built S d) : Built S (nested d)
  | grouped {d : Doc} (h : Built S d) : Built S (grouped d)
  | annotate {a : Mark} {d : Doc} (ha : a ≠ .token .commentSingle) (h : Built S d) :
      Built S (annotate a d)
  | filled {ds : List Doc} (h : ∀ d ∈ ds, Built S d) : Built S (filled ds)
  | hug {d : Doc} (h : Built S d) : Built S (hug softLine d)

namespace Built

variable {S : Doc → Prop}

attribute [simp] lit line cat nested grouped annotate filled hug

@[simp]
theorem nil : Built S nil := cat (List.forall_mem_nil _)

@[simp]
theorem softLine : Built S softLine := line .soft

@[simp]
theorem emptyLine : Built S emptyLine := line .empty

@[simp]
theorem hardLine : Built S hardLine := line .hard

@[simp]
theorem token {c : TokenClass} (hc : c ≠ .commentSingle) (s : String) : Built S (token c s) :=
  annotate (fun h => hc (Mark.token.inj h)) (lit s)

@[simp]
theorem keyword (s : String) : Built S (keyword s) := token (by decide) s

@[simp]
theorem operator (s : String) : Built S (operator s) := token (by split <;> decide) s

theorem forall_mem_intersperse {α : Type} {P : α → Prop} {a : α} (ha : P a) {as : List α}
    (has : ∀ b ∈ as, P b) : ∀ b ∈ as.intersperse a, P b := by
  match as with
  | [] => exact has
  | [b] => exact has
  | b :: c :: as =>
    obtain ⟨hb, hrest⟩ := List.forall_mem_cons.mp has
    rw [List.intersperse_cons_cons]
    exact List.forall_mem_cons.mpr ⟨hb, List.forall_mem_cons.mpr
      ⟨ha, forall_mem_intersperse ha hrest⟩⟩

theorem sepBy {separator : Doc} (hs : Built S separator) {ds : List Doc}
    (hds : ∀ d ∈ ds, Built S d) : Built S (sepBy separator ds) :=
  cat (forall_mem_intersperse hs hds)

@[simp]
theorem commaSeparated (packed : Bool) {ds : List Doc} (hds : ∀ d ∈ ds, Built S d) :
    Built S (commaSeparated packed ds) := by
  have hcomma : Built S commaLine := cat (by simp)
  rw [Doc.commaSeparated]
  split
  · exact filled (forall_mem_intersperse hcomma hds)
  · exact sepBy hcomma hds

/-! ### Chains -/

private theorem chainPieces {operand : Doc} (ho : Built S operand) {links : List (Doc × Doc)}
    (hlinks : ∀ l ∈ links, Built S l.1 ∧ Built S l.2) :
    (∀ d ∈ (chainPieces operand links).1, Built S d) ∧
      Built S (Doc.chainPieces operand links).2 := by
  induction links generalizing operand with
  | nil => exact ⟨List.forall_mem_nil _, ho⟩
  | cons link links ih =>
    obtain ⟨hlink, hrest⟩ := List.forall_mem_cons.mp hlinks
    obtain ⟨hpieces, hlast⟩ := ih hlink.2 hrest
    refine ⟨List.forall_mem_cons.mpr ⟨cat ?_, hpieces⟩, hlast⟩
    simp [ho, hlink.1]

private theorem chainTail (packed : Bool) {ds : List Doc} (hds : ∀ d ∈ ds, Built S d) :
    ∀ d ∈ chainTail packed ds, Built S d := by
  have hlines : ∀ d ∈ lineBefore ds, Built S d := by
    intro d hd
    obtain ⟨e, he, hd⟩ := List.mem_flatMap.mp hd
    simp only [List.mem_cons, List.not_mem_nil, or_false] at hd
    rcases hd with rfl | rfl
    · exact softLine
    · exact hds d he
  rw [Doc.chainTail]
  split
  · split
    · exact List.forall_mem_nil _
    · exact List.forall_mem_singleton.mpr (filled (List.forall_mem_cons.mpr ⟨nil, hlines⟩))
  · exact hlines

theorem chain (style : ChainStyle) {first : Doc} (hfirst : Built S first)
    {links : List (Doc × Doc)} (hlinks : ∀ l ∈ links, Built S l.1 ∧ Built S l.2) :
    Built S (chain style first links) := by
  cases links with
  | nil => exact hfirst
  | cons link links =>
    obtain ⟨hlink, hrest⟩ := List.forall_mem_cons.mp hlinks
    obtain ⟨hpieces, hlast⟩ := chainPieces hlink.2 hrest
    have hhead : Built S (Doc.cat [first, Doc.lit " ", link.1]) := cat (by simp [hfirst, hlink.1])
    rw [Doc.chain]
    refine grouped (cat (List.forall_mem_cons.mpr ⟨hhead, List.forall_mem_singleton.mpr ?_⟩))
    have hrest : Built S (if style.hugLast then
        Doc.cat (Doc.chainTail style.packed (Doc.chainPieces link.2 links).1 ++
          [Doc.hug Doc.softLine (Doc.chainPieces link.2 links).2])
      else Doc.cat (Doc.chainTail style.packed
        ((Doc.chainPieces link.2 links).1 ++ [(Doc.chainPieces link.2 links).2]))) := by
      split
      · exact cat (List.forall_mem_append.mpr ⟨chainTail _ hpieces, by simp [hlast]⟩)
      · refine cat (chainTail _ (List.forall_mem_append.mpr ⟨hpieces, by simp [hlast]⟩))
    split
    · exact nested hrest
    · exact hrest

/-- A chain is built from its operands and operators. -/
theorem of_chainOf {style : ChainStyle} {operands operators : List Doc} {d : Doc}
    (h : chainOf style operands operators = .ok d) (hoperands : ∀ e ∈ operands, Built S e)
    (hoperators : ∀ e ∈ operators, Built S e) : Built S d := by
  cases operands with
  | nil => cases h
  | cons first rest =>
    obtain ⟨hfirst, hrest⟩ := List.forall_mem_cons.mp hoperands
    rw [chainOf] at h
    split at h
    · cases h
      refine chain style hfirst fun link hlink => ?_
      obtain ⟨hleft, hright⟩ := List.of_mem_zip hlink
      exact ⟨hoperators _ hleft, hrest _ hright⟩
    · cases h

end Built

end Typeset.Doc
