import Typeset.Proofs.FormattedInk
import Typeset.Proofs.HardLineLocality
import Typeset.Proofs.Modelica.Invariance
import Typeset.Proofs.RenderedColumns

/-!
# Files are formatted definition by definition

A file of definitions is formatted as its definitions are, each as the only one of a file: no
definition is formatted in another way because of the ones next to it or of where it stands. Two
facts make this up. What is printed for a definition depends on the definition alone, since the
nodes below it cannot tell files of definitions apart. And the hard lines that end the definitions
cut the layout and the rendered text.

## Main results

* `outcome_printPath_definitions` : the document of a file by those of its definitions.
* `agrees_definition` : a definition is printed alike in all files.
* `formatTree_definitions` : the text of a file by the documents of its definitions.
* `formatTree_eq_join_definitions` : the text of a file is that of its definitions.
-/

namespace Typeset

/-- The text of a document with its last line ended. -/
def lineText (o : Options) (d : Doc) : String :=
  renderItems o.spelling (layout o.page d).items ++ "\n"

/-- Documents on lines of their own are rendered one by one. -/
theorem renderDoc_onLines (o : Options) {ds : List Doc} (hne : ds ≠ [])
    (hds : ∀ d ∈ ds, d.isKnown = true) :
    renderDoc o (.cat [.sepBy .hardLine ds, .hardLine]) =
      .ok (String.join (ds.map (lineText o))) := by
  rw [renderDoc, layout_onLines o.page hne hds]
  exact congrArg Except.ok (renderItems_flatMap_line o.spelling _ ds)

theorem getLast?_lineText (o : Options) (d : Doc) :
    (lineText o d).toList.getLast? = some '\n' := by
  simp [lineText]

/-- Texts that end their last lines do so together. -/
theorem Job.endLine_join {ss : List String} (hne : ss ≠ [])
    (hss : ∀ s ∈ ss, s.toList.getLast? = some '\n') :
    endLine (String.join ss) = String.join ss := by
  refine if_pos ?_
  obtain ⟨s, hs⟩ := Option.isSome_iff_exists.mp (List.getLast?_isSome.mpr hne)
  obtain ⟨front, rfl⟩ := List.getLast?_eq_some_iff.mp hs
  rw [String.toList_join, List.flatMap_append, List.flatMap_singleton, List.getLast?_append,
    hss s (by simp)]
  rfl

namespace Modelica

open Doc Printing Rules

/-! ### Printing -/

/-- A file of definitions is printed as its definitions on lines of their own. -/
theorem outcome_printPath_definitions {p : Path} (hkind : p.node.kind = "stored_definitions") :
    (printPath rules p).outcome =
      (printChildren p fun q => printPath rules q.1).outcome.map fun ds =>
        cat [sepBy hardLine ds, hardLine] := by
  have hrule : rules.get? p.node.kind = some storedDefinitions := by rw [hkind]; rfl
  rw [printPath, hrule]
  show (tick >>= fun _ => storedDefinitions p _).outcome = _
  rw [outcome_bind]
  show (onLines p _ >>= _).outcome = _
  rw [outcome_bind, onLines, outcome_bind]
  cases (printChildren p fun q => printPath rules q.1).outcome <;> rfl

/-- A definition is printed alike in all files, at all indices. -/
theorem agrees_definition {n m : Node} (hn : n.kind = "stored_definitions")
    (hm : m.kind = "stored_definitions") (c : Node) (i j : Int) :
    (printPath rules ((Path.root n).down c i)).Agrees
      (printPath rules ((Path.root m).down c j)) :=
  agrees_printPath ⟨.refl c, .definitions hn hm i j .root⟩

/-- The documents of the definitions of a file are those that they have in any file. -/
theorem forall₂_definitions {n : Node} (hn : n.kind = "stored_definitions") {ds : List Doc}
    (h : (printChildren (.root n) fun q => printPath rules q.1).outcome = .ok ds) :
    List.Forall₂ (fun c d => ∀ m : Node, m.kind = "stored_definitions" →
      (printPath rules ((Path.root m).down c 0)).outcome = .ok d) n.children ds := by
  have hall : (printChildren (.root n) fun q => printPath rules q.1).Ends
      (List.Forall₂ (fun q d => ∀ m : Node, m.kind = "stored_definitions" →
        (printPath rules ((Path.root m).down q.1.node 0)).outcome = .ok d)
          (Path.root n).children) fun _ => True := by
    refine Ends.all fun q hq => (ends_outcome _).mono (fun d hd m hm => ?_) fun _ _ => trivial
    obtain ⟨c, -, i, hqi⟩ := Path.exists_of_mem_children hq
    rw [hqi] at hd ⊢
    exact Eq.trans (agrees_definition hm hn c 0 i) hd
  have hchildren : n.children = (Path.root n).children.map fun q => q.1.node :=
    (Path.root n).map_node_children.symm
  rw [hchildren]
  exact List.forall₂_map_left_iff.mpr (hall.of_outcome h)

/-- A file with one definition has the document of the definition on a line of its own. -/
theorem outcome_printPath_definition {m c : Node} {d : Doc} (hm : m.kind = "stored_definitions")
    (hchildren : m.children = [c])
    (hd : (printPath rules ((Path.root m).down c 0)).outcome = .ok d) :
    (printPath rules (.root m)).outcome = .ok (cat [sepBy hardLine [d], hardLine]) := by
  rw [outcome_printPath_definitions hm, printChildren, Path.children_of_one (p := .root m) hchildren,
    Printing.all, outcome_bind, hd]
  rfl

/-! ### Formatting -/

theorem exists_print_of_outcome {n : Node} {d : Doc}
    (h : (printPath rules (.root n)).outcome = .ok d) : ∃ record, print n = .ok (d, record) := by
  rw [← map_print] at h
  cases hprint : print n with
  | error e =>
    rw [hprint] at h
    cases h
  | ok r =>
    rw [hprint] at h
    cases h
    exact ⟨r.2, rfl⟩

/-- A tree that is formatted has been printed. -/
theorem exists_outcome_of_formatTree {o : Options} {n : Node} {s : String}
    (h : (Job.formatTree o [] n).outcome = .ok s) :
    ∃ d, (printPath rules (.root n)).outcome = .ok d := by
  rw [← map_print]
  cases hprint : print n with
  | error e =>
    rw [Job.formatTree_of_print_error o hprint] at h
    cases h
  | ok r => exact ⟨r.1, rfl⟩

/-- A file is formatted as the documents of its definitions are, one by one. -/
theorem formatTree_definitions (o : Options) {n : Node} {ds : List Doc} (hne : ds ≠ [])
    (hds : ∀ d ∈ ds, d.isKnown = true)
    (h : (printPath rules (.root n)).outcome = .ok (cat [sepBy hardLine ds, hardLine])) :
    (Job.formatTree o [] n).outcome = .ok (String.join (ds.map (lineText o))) := by
  obtain ⟨record, hprint⟩ := exists_print_of_outcome h
  rw [Job.formatTree_of_renderDoc hprint (renderDoc_onLines o hne hds), Job.endLine_join]
  · simpa using hne
  · intro s hs
    obtain ⟨d, -, rfl⟩ := List.mem_map.mp hs
    exact getLast?_lineText o d

/-- A file with one definition is formatted as the document of the definition. -/
theorem formatTree_definition (o : Options) {m c : Node} {d : Doc}
    (hm : m.kind = "stored_definitions") (hchildren : m.children = [c])
    (hd : (printPath rules ((Path.root m).down c 0)).outcome = .ok d) :
    (Job.formatTree o [] m).outcome = .ok (lineText o d) := by
  have hknown := isKnown_of_isSteady ((printsSteady_printPath _).of_outcome hd)
  have hone := formatTree_definitions o (List.cons_ne_nil d []) (by simpa using hknown)
    (outcome_printPath_definition hm hchildren hd)
  simpa using hone

/-- A file is formatted definition by definition. If a file of one or more definitions can be
formatted, then so can every file with one of them as its only definition, and the text of the file
is that of those files, one after the other. -/
theorem formatTree_eq_join_definitions {o : Options} {n : Node} {s : String}
    (hkind : n.kind = "stored_definitions") (hchildren : n.children ≠ [])
    (h : (Job.formatTree o [] n).outcome = .ok s) :
    ∃ texts, List.Forall₂ (fun c t => ∀ m : Node, m.kind = "stored_definitions" →
        m.children = [c] → (Job.formatTree o [] m).outcome = .ok t) n.children texts ∧
      s = String.join texts := by
  obtain ⟨d, hd⟩ := exists_outcome_of_formatTree h
  have hfile := outcome_printPath_definitions (p := .root n) hkind
  cases hall : (printChildren (.root n) fun q => printPath rules q.1).outcome with
  | error e =>
    rw [hfile, hall] at hd
    cases hd
  | ok ds =>
    have hdefinitions := forall₂_definitions hkind hall
    have hds : ds ≠ [] := by
      rintro rfl
      exact hchildren (List.forall₂_nil_right_iff.mp hdefinitions)
    have hsteady := (yields_printChildren fun q => printsSteady_printPath q.1).of_outcome hall
    have hwhole := formatTree_definitions o hds (fun d hd => isKnown_of_isSteady (hsteady d hd))
      (hfile.trans (by rw [hall]; rfl))
    refine ⟨ds.map (lineText o), List.forall₂_map_right_iff.mpr ?_,
      Except.ok.inj (h.symm.trans hwhole)⟩
    exact hdefinitions.imp fun c d hcd m hm hone => formatTree_definition o hm hone (hcd m hm)

/-- A declaration that breaks on a narrow page and a section with an indented line, in one file. -/
theorem formatTree_eq_join_definitions_narrow :
    let value : Node := ⟨"expression", [⟨"IDENT", [], some "value", none, none⟩], none, none, none⟩
    let binding : Node := ⟨"declaration", [⟨"IDENT", [], some "x", none, none⟩,
      ⟨"modification", [value], none, none, none⟩], none, none, none⟩
    let hidden : Node := ⟨"protected_element_list", [⟨"IDENT", [], some "y", none, none⟩], none,
      none, none⟩
    let n : Node := ⟨"stored_definitions", [binding, hidden], none, none, none⟩
    let narrow : Options := { printWidth := 6 }
    ∃ s, (Job.formatTree narrow [] n).outcome = .ok s ∧
      ∃ texts, List.Forall₂ (fun c t => ∀ m : Node, m.kind = "stored_definitions" →
          m.children = [c] → (Job.formatTree narrow [] m).outcome = .ok t)
        [binding, hidden] texts ∧ s = String.join texts := by
  intro value binding hidden n narrow
  let d : Doc := .concat [.concat
    [.concat [.lit "x", .concat [.lit " ", .annotated (.lit "=") (.token .operator),
      .indent (.conditional [.concat [.lit " ", .lit "value"], .concat [.lit " ", .lit "value"]]
        (.concat [.line .soft, .lit "value"]))]],
    .line .hard,
    .concat [.annotated (.lit "protected") (.token .keyword),
      .indent (.concat [.line .hard, .lit "y"])]],
    .line .hard]
  have hprint : print n = .ok (d, .printed 8 "stored_definitions") :=
    toOption_eq_some_iff.mp (by decide +kernel)
  obtain ⟨s, hs, -⟩ := Job.exists_formatTree_ink narrow hprint
  exact ⟨s, hs, formatTree_eq_join_definitions rfl (List.cons_ne_nil binding [hidden]) hs⟩

end Modelica

end Typeset
