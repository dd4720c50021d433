import Typeset.Doc.Chain
import Typeset.Doc.Token
import Typeset.Proofs.Ink

/-!
# The combinators keep documents steady

What each combinator does to the ink of its parts, and that what it builds from steady parts
is steady. The only combinator that builds a conditional is `hug`: it repeats its operand in
three candidates, and forces the outermost group of one of the copies to break, which changes
no ink. Lists and chains are built from these.

## Main results

* `Doc.ink_breakGroup`, `Doc.isSteady_breakGroup` : forcing a group keeps the ink.
* `Doc.ink_hug`, `Doc.isSteady_hug` : the candidates of a hugging operand agree.
* `Doc.ink_chain` : a chain has the ink of its operands and operators in turn.
-/

namespace Typeset.Doc

open Text

/-! ### A single body -/

@[simp]
theorem ink_lit (s : String) : (lit s).ink = Text.ink s.toList := rfl

@[simp]
theorem isSteady_lit (s : String) : (lit s).isSteady = true := rfl

@[simp]
theorem ink_tidy (d : Doc) : d.tidy.ink = d.ink := by
  cases d with
  | lit s =>
    rw [tidy]
    split
    · next hs =>
      have hnil : s.toList = [] := by simpa using hs
      rw [ink_lit, hnil]
      rfl
    · rfl
  | _ => rfl

@[simp]
theorem isSteady_tidy (d : Doc) : d.tidy.isSteady = d.isSteady := by
  cases d with
  | lit s =>
    rw [tidy]
    split <;> rfl
  | _ => rfl

@[simp]
theorem ink_grouped (d : Doc) : (grouped d).ink = d.ink := ink_tidy d

@[simp]
theorem isSteady_grouped (d : Doc) : (grouped d).isSteady = d.isSteady := isSteady_tidy d

@[simp]
theorem ink_nested (d : Doc) : (nested d).ink = d.ink := ink_tidy d

@[simp]
theorem isSteady_nested (d : Doc) : (nested d).isSteady = d.isSteady := isSteady_tidy d

@[simp]
theorem ink_annotate (a : Mark) (d : Doc) : (annotate a d).ink = d.ink := ink_tidy d

@[simp]
theorem isSteady_annotate (a : Mark) (d : Doc) : (annotate a d).isSteady = d.isSteady :=
  isSteady_tidy d

@[simp]
theorem ink_token (c : TokenClass) (s : String) : (token c s).ink = Text.ink s.toList :=
  ink_tidy (lit s)

@[simp]
theorem isSteady_token (c : TokenClass) (s : String) : (token c s).isSteady = true :=
  isSteady_tidy (lit s)

@[simp]
theorem ink_keyword (s : String) : (keyword s).ink = Text.ink s.toList := ink_token _ s

@[simp]
theorem ink_operator (s : String) : (operator s).ink = Text.ink s.toList := ink_token _ s

@[simp]
theorem ink_softLine : softLine.ink = [] := rfl

/-! ### Several parts -/

theorem ink_concat (ds : List Doc) : (concat ds).ink = ds.flatMap ink := inkAll_eq_flatMap ds

theorem isSteady_concat (ds : List Doc) : (concat ds).isSteady = ds.all isSteady :=
  allSteady_eq_all ds

theorem ink_fill (ds : List Doc) : (fill ds).ink = ds.flatMap ink := inkAll_eq_flatMap ds

theorem isSteady_fill (ds : List Doc) : (fill ds).isSteady = ds.all isSteady :=
  allSteady_eq_all ds

@[simp]
theorem ink_cat (ds : List Doc) : (cat ds).ink = ds.flatMap ink := by
  match ds with
  | [] => rfl
  | [d] => simp [cat]
  | d :: e :: ds =>
    show (concat ((d :: e :: ds).map tidy)).ink = _
    rw [ink_concat, List.flatMap_map]
    exact congrArg (List.flatMap · _) (funext ink_tidy)

@[simp]
theorem isSteady_cat (ds : List Doc) : (cat ds).isSteady = ds.all isSteady := by
  match ds with
  | [] => rfl
  | [d] => simp [cat]
  | d :: e :: ds =>
    show (concat ((d :: e :: ds).map tidy)).isSteady = _
    rw [isSteady_concat, List.all_map]
    exact congrArg (List.all _) (funext isSteady_tidy)

@[simp]
theorem ink_filled (ds : List Doc) : (filled ds).ink = ds.flatMap ink := by
  rw [filled, ink_fill, List.flatMap_map]
  exact congrArg (List.flatMap · _) (funext ink_tidy)

@[simp]
theorem isSteady_filled (ds : List Doc) : (filled ds).isSteady = ds.all isSteady := by
  rw [filled, isSteady_fill, List.all_map]
  exact congrArg (List.all _) (funext isSteady_tidy)

/-- Documents with commas between them, packed or not. -/
theorem ink_commaSeparated (packed : Bool) (ds : List Doc) :
    (commaSeparated packed ds).ink = (ds.intersperse commaLine).flatMap ink := by
  rw [commaSeparated]
  split
  · exact ink_filled _
  · exact ink_cat _

/-! ### Operands that hug their operators -/

private theorem flatMap_breakLast {ds : List Doc} (ih : ∀ d ∈ ds, d.breakGroup.ink = d.ink) :
    (breakLast ds).flatMap ink = ds.flatMap ink := by
  match ds with
  | [] => rw [breakLast]
  | [d] => rw [breakLast, List.flatMap_singleton, List.flatMap_singleton, ih d (by simp)]
  | d :: e :: ds =>
    have htail := flatMap_breakLast fun x hx => ih x (List.mem_cons_of_mem d hx)
    rw [breakLast, List.flatMap_cons, htail]
    rfl

/-- Forcing the outermost group to break keeps the ink. -/
@[simp]
theorem ink_breakGroup (d : Doc) : d.breakGroup.ink = d.ink := by
  induction d using inductionOn with
  | concat ds ih => rw [breakGroup, ink_concat, ink_concat, flatMap_breakLast ih]
  | annotated d a ih =>
    rw [breakGroup]
    exact ih
  | group d b => rfl
  | _ => rfl

private theorem all_breakLast {ds : List Doc}
    (ih : ∀ d ∈ ds, d.breakGroup.isSteady = d.isSteady) :
    (breakLast ds).all isSteady = ds.all isSteady := by
  match ds with
  | [] => rw [breakLast]
  | [d] => simp [breakLast, ih d]
  | d :: e :: ds =>
    have htail := all_breakLast fun x hx => ih x (List.mem_cons_of_mem d hx)
    rw [breakLast, List.all_cons, htail]
    rfl

@[simp]
theorem isSteady_breakGroup (d : Doc) : d.breakGroup.isSteady = d.isSteady := by
  induction d using inductionOn with
  | concat ds ih => rw [breakGroup, isSteady_concat, isSteady_concat, all_breakLast ih]
  | annotated d a ih =>
    rw [breakGroup]
    exact ih
  | group d b => rfl
  | _ => rfl

private theorem ink_space : Text.ink [' '] = [] := rfl

theorem ink_hug (separator operand : Doc) :
    (hug separator operand).ink = separator.ink ++ operand.ink := by
  show (cat [separator, operand]).tidy.ink = _
  simp

/-- An operand may hug behind a separator without ink: its candidates have the same ink. -/
theorem isSteady_hug {separator : Doc} (hs : separator.isSteady = true)
    (hink : separator.ink = []) (operand : Doc) :
    (hug separator operand).isSteady = operand.isSteady := by
  simp [hug, firstFitting, isSteady, allSteady, hs, hink, ink_space]

/-! ### Chains -/

/-- The ink of operators and operands in turn. -/
def linksInk (links : List (Doc × Doc)) : List Char := links.flatMap fun l => l.1.ink ++ l.2.ink

private theorem ink_chainPieces (operand : Doc) (links : List (Doc × Doc)) :
    (chainPieces operand links).1.flatMap ink ++ (chainPieces operand links).2.ink =
      operand.ink ++ linksInk links := by
  induction links generalizing operand with
  | nil => simp [chainPieces, linksInk]
  | cons link links ih =>
    have hnext := ih link.2
    simp only [chainPieces, List.flatMap_cons, List.append_assoc, hnext]
    simp [linksInk, ink_space]

private theorem flatMap_lineBefore (ds : List Doc) :
    (lineBefore ds).flatMap ink = ds.flatMap ink := by
  rw [lineBefore, List.flatMap_assoc]
  exact congrArg (List.flatMap · ds) (funext fun d => by simp)

private theorem flatMap_chainTail (packed : Bool) (ds : List Doc) :
    (chainTail packed ds).flatMap ink = ds.flatMap ink := by
  rw [chainTail]
  split
  · cases ds with
    | nil => rfl
    | cons d ds =>
      show (filled (nil :: lineBefore (d :: ds))).ink ++ [] = _
      rw [List.append_nil, ink_filled, List.flatMap_cons, flatMap_lineBefore]
      rfl
  · exact flatMap_lineBefore ds

/-- What follows the head of a chain has the ink of the operands in it. -/
private theorem ink_chainRest (style : ChainStyle) (middle : List Doc) (last : Doc) :
    (if style.hugLast then cat (chainTail style.packed middle ++ [hug softLine last])
      else cat (chainTail style.packed (middle ++ [last]))).ink =
      middle.flatMap ink ++ last.ink := by
  split
  · rw [ink_cat, List.flatMap_append, flatMap_chainTail, List.flatMap_singleton, ink_hug]
    rfl
  · rw [ink_cat, flatMap_chainTail, List.flatMap_append, List.flatMap_singleton]

/-- A chain has the ink of its first operand, and of the operators and operands after it. -/
theorem ink_chain (style : ChainStyle) (first : Doc) (links : List (Doc × Doc)) :
    (chain style first links).ink = first.ink ++ linksInk links := by
  cases links with
  | nil => simp [chain, linksInk]
  | cons link links =>
    have hrest := ink_chainRest style (chainPieces link.2 links).1 (chainPieces link.2 links).2
    rw [ink_chainPieces] at hrest
    simp only [chain, ink_grouped, ink_cat, List.flatMap_cons, List.flatMap_nil]
    cases style.indentRest <;> simp [hrest, ink_space, linksInk]

end Typeset.Doc
