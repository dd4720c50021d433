import Typeset.Proofs.Sexp.Grammar

/-!
# Reading printed trees by their grammar

The reader accepts exactly the grammar of printed trees. It goes from left to right and never
takes back a token, so both directions need an argument: the tokens that are taken for a node
spell it, and tokens that spell a node are read as that node whatever follows them. Whatever else
it meets is malformed, and its error names the place of a token or the end of the text, unless a
span asks for lines that the source does not have. No span without negative numbers does.

## Main definitions

* `Sexp.HasLostSpan` : a span among some tokens has no stretch in the source.
* `Sexp.FailsIn` : every failure of a computation names a place among some lexemes, or is for a
  span without a stretch.

## Main results

* `Sexp.spells_of_readNode`, `Sexp.readNode_of_spells` : the reader is sound and complete.
* `Sexp.failsIn_readNode` : the reader fails on malformed tokens and on lost spans only.
* `Sexp.read_eq_ok_iff_spells` : whole texts are read exactly by the grammar.
-/

namespace Typeset.Sexp

open Text

variable {input : Input} {ls rest : List Lexeme}

/-! ### Reading nodes -/

/-- A reading without the bound on what it leaves. -/
def Reading.outcome {α : Type} {n : Nat} (r : Reading α n) : Except Error (α × List Lexeme) :=
  r.map (·.1)

theorem Reading.length_lt {α : Type} {n : Nat} {r : Reading α n} {a : α}
    (h : r.outcome = .ok (a, rest)) : rest.length < n := by
  match r, h with
  | .ok ⟨_, hlt⟩, rfl => exact hlt

theorem outcome_readNode (field : Option String) :
    (readNode input field ls).outcome = (do
      let (head, ls) ← readHead input ls
      let (children, rest) ← (readItems input ls).outcome
      let text ← nodeText input head.2
      return (⟨head.1, children, text, head.2, field⟩, rest)) := by
  rw [readNode]
  split
  · next h => rw [h]; rfl
  · next h =>
    simp only [bind, Except.bind, h]
    split
    · next h' => rw [h']; rfl
    · next h' =>
      rw [h']
      split <;> next h'' => simp [Reading.outcome, Except.map, h'', pure, Except.pure]

/-- What a token means where an item or a closing parenthesis may stand. -/
theorem Token.item_cases (t : Token) :
    t = .punct ')' ∨ t = .punct '(' ∨ (∃ name, t = .atom name) ∨
      (t ≠ .punct ')' ∧ t ≠ .punct '(' ∧ ∀ name, t ≠ .atom name) := by
  by_cases hclose : t = .punct ')'
  · exact .inl hclose
  by_cases hnode : t = .punct '('
  · exact .inr (.inl hnode)
  by_cases hfield : ∃ name, t = .atom name
  · exact .inr (.inr (.inl hfield))
  · exact .inr (.inr (.inr ⟨hclose, hnode, fun name ht => hfield ⟨name, ht⟩⟩))

theorem outcome_readItems_close (o : Nat) :
    (readItems input (⟨.punct ')', o⟩ :: rest)).outcome = .ok ([], rest) := by
  rw [readItems]
  rfl

theorem outcome_readItems_node (o : Nat) :
    (readItems input (⟨.punct '(', o⟩ :: rest)).outcome = (do
      let (child, ls) ← (readNode input none (⟨.punct '(', o⟩ :: rest)).outcome
      let (children, ls) ← (readItems input ls).outcome
      return (child :: children, ls)) := by
  rw [readItems]
  split
  · next h => rw [h]; rfl
  · next h =>
    simp only [bind, Except.bind, h]
    split <;> next h' => simp [Reading.outcome, Except.map, h', pure, Except.pure]

theorem outcome_readItems_field (name : String) (o : Nat) :
    (readItems input (⟨.atom name, o⟩ :: rest)).outcome = (do
      let ls ← expect input ':' rest
      let (child, ls) ← (readNode input (some name) ls).outcome
      let (children, ls) ← (readItems input ls).outcome
      return (child :: children, ls)) := by
  rw [readItems]
  split
  · next h => rw [h]; rfl
  · next h =>
    simp only [bind, Except.bind, h]
    split
    · next h' => rw [h']; rfl
    · next h' =>
      rw [h']
      split <;> next h'' => simp [Reading.outcome, Except.map, h'', pure, Except.pure]


/-- No item starts with a token that is neither a parenthesis nor an atom. -/
theorem outcome_readItems_other {t : Token} (o : Nat) (hclose : t ≠ .punct ')')
    (hnode : t ≠ .punct '(') (hfield : ∀ name, t ≠ .atom name) :
    (readItems input (⟨t, o⟩ :: rest)).outcome = .error (.unexpected (some t) o) := by
  rw [readItems]
  · rfl
  all_goals simp_all

mutual

/-- **The reader is sound.** The tokens that are taken for a node spell it. -/
theorem spells_of_readNode {field : Option String} {ls rest : List Lexeme} {n : Node}
    (h : (readNode input field ls).outcome = .ok (n, rest)) :
    ∃ front, ls = front ++ rest ∧ IsNode input.lines field (tokensOf front) n := by
  simp only [outcome_readNode, bind_eq_ok_iff, Prod.exists] at h
  obtain ⟨kind, span, afterHead, hhead, children, rest', hitems, text, htext, h⟩ := h
  cases h
  have hlt := length_readHead hhead
  obtain ⟨items, o', rfl, hchildren⟩ := spells_of_readItems hitems
  obtain ⟨o, kindLs, spanLs, rfl, hkind, hspan⟩ := readHead_eq_ok_iff.mp hhead
  refine ⟨⟨.punct '(', o⟩ :: (kindLs ++ (spanLs ++ (items ++ [⟨.punct ')', o'⟩]))), by simp, ?_⟩
  simp only [tokensOf_cons, tokensOf_append, tokensOf_nil] at hkind hspan ⊢
  rw [head?_closed] at hspan
  rw [← List.append_assoc, head?_closed, List.append_assoc] at hkind
  exact .mk hkind hspan hchildren (nodeText_eq_ok_iff.mp htext)
termination_by 2 * ls.length

/-- The tokens that are taken for children spell them and end with a parenthesis. -/
theorem spells_of_readItems {ls rest : List Lexeme} {ns : List Node}
    (h : (readItems input ls).outcome = .ok (ns, rest)) :
    ∃ items o, ls = items ++ ⟨.punct ')', o⟩ :: rest ∧ IsItems input.lines (tokensOf items) ns := by
  match ls with
  | [] =>
    rw [readItems] at h
    cases h
  | ⟨t, o⟩ :: ls =>
    obtain rfl | rfl | ⟨name, rfl⟩ | ⟨hclose, hnode, hfield⟩ := t.item_cases
    · rw [outcome_readItems_close] at h
      cases h
      exact ⟨[], o, rfl, .nil⟩
    · simp only [outcome_readItems_node, bind_eq_ok_iff, Prod.exists] at h
      obtain ⟨n, ls₁, hn, ns, ls₂, hns, h⟩ := h
      cases h
      have hlt : ls₁.length < ls.length + 1 := Reading.length_lt hn
      obtain ⟨front, hfront, hchild⟩ := spells_of_readNode hn
      obtain ⟨items, o', rfl, hchildren⟩ := spells_of_readItems hns
      refine ⟨front ++ items, o', by rw [hfront, List.append_assoc], ?_⟩
      rw [tokensOf_append]
      exact .node hchild hchildren
    · simp only [outcome_readItems_field, bind_eq_ok_iff, Prod.exists] at h
      obtain ⟨ls₁, hcolon, n, ls₂, hn, ns, ls₃, hns, h⟩ := h
      cases h
      obtain ⟨o', rfl⟩ := expect_eq_ok_iff.mp hcolon
      have hlt := Reading.length_lt hn
      obtain ⟨front, rfl, hchild⟩ := spells_of_readNode hn
      obtain ⟨items, o'', rfl, hchildren⟩ := spells_of_readItems hns
      refine ⟨⟨.atom name, o⟩ :: ⟨.punct ':', o'⟩ :: (front ++ items), o'', by simp, ?_⟩
      simp only [tokensOf_cons, tokensOf_append]
      exact .field hchild hchildren
    · rw [outcome_readItems_other o hclose hnode hfield] at h
      cases h
termination_by 2 * ls.length + 1

end

theorem suffix_of_readNode {field : Option String} {n : Node}
    (h : (readNode input field ls).outcome = .ok (n, rest)) : rest <:+ ls := by
  obtain ⟨front, rfl, -⟩ := spells_of_readNode h
  exact List.suffix_append ..

mutual

/-- **The reader is complete.** Tokens that spell a node are read as that node, whatever
follows them. -/
theorem readNode_of_spells {field : Option String} {ts : List Token} {n : Node}
    (h : IsNode input.lines field ts n) {front : List Lexeme} (hts : tokensOf front = ts)
    (rest : List Lexeme) : (readNode input field (front ++ rest)).outcome = .ok (n, rest) := by
  match h with
  | @IsNode.mk _ _ _ _ _ kind span _ _ hkind hspan hitems htext =>
    obtain ⟨o, ls₁, rfl, h₁⟩ := tokensOf_eq_cons hts
    obtain ⟨kindLs, ls₂, rfl, rfl, h₂⟩ := tokensOf_eq_append h₁
    obtain ⟨spanLs, ls₃, rfl, rfl, h₃⟩ := tokensOf_eq_append h₂
    obtain ⟨items, ls₄, rfl, hitemTokens, h₄⟩ := tokensOf_eq_append h₃
    obtain ⟨o', ls₅, rfl, h₅⟩ := tokensOf_eq_cons h₄
    obtain rfl := List.map_eq_nil_iff.mp h₅
    have hread := readItems_of_spells hitems hitemTokens o' rest
    have hhead : readHead input (⟨.punct '(', o⟩ ::
        (kindLs ++ (spanLs ++ (items ++ ⟨.punct ')', o'⟩ :: rest)))) =
        .ok ((kind, span), items ++ ⟨.punct ')', o'⟩ :: rest) := by
      refine readHead_eq_ok_iff.mpr ⟨o, kindLs, spanLs, rfl, ?_, ?_⟩
      · simp only [tokensOf_cons, tokensOf_append, hitemTokens]
        rw [← List.append_assoc, head?_closed, List.append_assoc]
        exact hkind
      · simp only [tokensOf_cons, tokensOf_append, hitemTokens]
        rw [head?_closed]
        exact hspan
    simp only [outcome_readNode, bind_eq_ok_iff, Prod.exists]
    exact ⟨_, _, _, by simpa using hhead, _, _, hread, _, nodeText_eq_ok_iff.mpr htext, rfl⟩

/-- Tokens that spell children, with a parenthesis after them, are read as those children. -/
theorem readItems_of_spells {ts : List Token} {ns : List Node} (h : IsItems input.lines ts ns)
    {items : List Lexeme} (hts : tokensOf items = ts) (o : Nat) (rest : List Lexeme) :
    (readItems input (items ++ ⟨.punct ')', o⟩ :: rest)).outcome = .ok (ns, rest) := by
  match h with
  | .nil =>
    obtain rfl := List.map_eq_nil_iff.mp hts
    exact outcome_readItems_close o
  | .node hn hns =>
    obtain ⟨front, ls, rfl, hfront, hls⟩ := tokensOf_eq_append hts
    have hchild := readNode_of_spells hn hfront (ls ++ ⟨.punct ')', o⟩ :: rest)
    have hchildren := readItems_of_spells hns hls o rest
    obtain ⟨o', front', rfl⟩ := hn.exists_parenthesis hfront
    rw [List.append_assoc, List.cons_append, outcome_readItems_node]
    simp only [bind_eq_ok_iff, Prod.exists]
    exact ⟨_, _, hchild, _, _, hchildren, rfl⟩
  | .field hn hns =>
    obtain ⟨o₁, ls₁, rfl, h₁⟩ := tokensOf_eq_cons hts
    obtain ⟨o₂, ls₂, rfl, h₂⟩ := tokensOf_eq_cons h₁
    obtain ⟨front, ls, rfl, hfront, hls⟩ := tokensOf_eq_append h₂
    have hchild := readNode_of_spells hn hfront (ls ++ ⟨.punct ')', o⟩ :: rest)
    have hchildren := readItems_of_spells hns hls o rest
    simp only [List.cons_append, List.append_assoc, outcome_readItems_field, bind_eq_ok_iff,
      Prod.exists]
    exact ⟨_, expect_eq_ok_iff.mpr ⟨o₂, rfl⟩, _, _, hchild, _, _, hchildren, rfl⟩

end

/-! ### Failures -/

/-- There is no element at a position before the first one. -/
theorem element?_eq_none_iff {α : Type} {xs : List α} {i : Int} (hi : i < xs.length) :
    element? xs i = none ↔ i < -xs.length := by
  rw [element?]
  split
  · rw [List.getElem?_eq_none_iff]
    omega
  · split
    · rw [List.getElem?_eq_none_iff]
      omega
    · simp only [true_iff]
      omega

/-- A span has no stretch in a source if it starts in it and has a row before the first line. -/
theorem extract_eq_none_iff {span : Span} {lines : List (List Char)} :
    span.extract lines = none ↔
      span.start.row < lines.length ∧
        (span.start.row < -lines.length ∨ span.stop.row < -lines.length) := by
  rw [Span.extract]
  split
  · exact ⟨nofun, fun h => by omega⟩
  · next hrow =>
    have hstart := element?_eq_none_iff (Int.not_le.mp hrow)
    split
    · rw [Option.map_eq_none_iff, hstart]
      omega
    · cases hfirst : element? lines span.start.row with
      | none => exact ⟨fun _ => ⟨by omega, .inl (hstart.mp hfirst)⟩, fun _ => rfl⟩
      | some first =>
        have hfirst' := mt hstart.mpr (by rw [hfirst]; nofun)
        split
        · next hlt =>
          have hstop := element?_eq_none_iff hlt
          cases hlast : element? lines span.stop.row with
          | none => exact ⟨fun _ => ⟨by omega, .inr (hstop.mp hlast)⟩, fun _ => rfl⟩
          | some last =>
            have hlast' := mt hstop.mpr (by rw [hlast]; nofun)
            exact ⟨nofun, fun h => absurd h.2 (by omega)⟩
        · exact ⟨nofun, fun h => by omega⟩

/-- A span without negative numbers has a stretch in every source. -/
theorem IsNonneg.exists_extract {span : Span} (h : IsNonneg span) (lines : List (List Char)) :
    ∃ cs, span.extract lines = some cs := by
  obtain ⟨hstart, -, hstop, -⟩ := h
  refine Option.ne_none_iff_exists'.mp fun hlost => ?_
  obtain ⟨-, hrow⟩ := extract_eq_none_iff.mp hlost
  omega

/-- An error names a place: that of one of the lexemes, or the end of the text. -/
def Error.PointsInto (input : Input) (ls : List Lexeme) (e : Error) : Prop :=
  ∃ o ∈ input.length :: ls.map (·.offset), e.offset? = some o

/-- A span among the tokens has no stretch in the lines of the source. -/
def HasLostSpan (lines : List (List Char)) (ts : List Token) : Prop :=
  ∃ us span, us <:+: ts ∧ IsSpan us span ∧ span.extract lines = none

/-- Every failure of the computation names a place among the lexemes, unless a row is out of range
for a span among them. -/
def FailsIn {α : Type} (input : Input) (ls : List Lexeme) (x : Except Error α) : Prop :=
  ∀ e, x = .error e →
    e.PointsInto input ls ∨ e = .rowOutOfRange ∧ HasLostSpan input.lines (tokensOf ls)

namespace FailsIn

variable {α β : Type}

theorem ok (a : α) : FailsIn input ls (.ok a) := by
  rintro e ⟨⟩

/-- An error at the next token, or at the end if there is none. -/
theorem error {e : Error} (h : e.offset? = some (input.offset ls)) :
    FailsIn input ls (.error e : Except Error α) := by
  rintro e' ⟨⟩
  refine .inl ⟨_, ?_, h⟩
  cases ls with
  | nil => exact List.mem_cons_self
  | cons l ls => simp [Input.offset]

theorem bind {x : Except Error α} {f : α → Except Error β} (hx : FailsIn input ls x)
    (hf : ∀ a, x = .ok a → FailsIn input ls (f a)) : FailsIn input ls (x >>= f) := by
  intro e h
  obtain h | ⟨a, ha, h⟩ := bind_eq_error_iff.mp h
  · exact hx e h
  · exact hf a ha e h

theorem of_suffix {x : Except Error α} (h : FailsIn input rest x) (hrest : rest <:+ ls) :
    FailsIn input ls x := by
  intro e he
  obtain ⟨o, ho, heq⟩ | ⟨rfl, us, span, hus, hspan⟩ := h e he
  · have hsubset := List.map_subset (·.offset) hrest.subset
    exact .inl ⟨o, List.cons_subset_cons _ hsubset ho, heq⟩
  · exact .inr ⟨rfl, us, span, hus.trans (hrest.map _).isInfix, hspan⟩

end FailsIn

theorem failsIn_next : FailsIn input ls (next input ls) := by
  cases ls with
  | nil => exact .error rfl
  | cons l ls => exact .ok _

theorem failsIn_expect (c : Char) : FailsIn input ls (expect input c ls) := by
  refine failsIn_next.bind fun r _ => ?_
  dsimp only
  split
  · exact .ok _
  · exact .error rfl

theorem failsIn_readName : FailsIn input ls (readName input ls) := by
  refine failsIn_next.bind fun r _ => ?_
  dsimp only
  split
  · exact .ok _
  · exact .error rfl

theorem failsIn_readInteger : FailsIn input ls (readInteger input ls) := by
  refine failsIn_readName.bind fun r _ => ?_
  dsimp only
  split
  · exact .ok _
  · exact .error rfl

theorem suffix_of_expect {c : Char} (h : expect input c ls = .ok rest) : rest <:+ ls := by
  obtain ⟨o, rfl⟩ := expect_eq_ok_iff.mp h
  exact List.suffix_cons ..

theorem suffix_of_readName {s : String} (h : readName input ls = .ok (s, rest)) :
    rest <:+ ls := by
  obtain ⟨l, rfl, -⟩ := readName_eq_ok_iff.mp h
  exact List.suffix_cons ..

theorem suffix_of_readInteger {n : Int} (h : readInteger input ls = .ok (n, rest)) :
    rest <:+ ls := by
  obtain ⟨l, s, rfl, -⟩ := readInteger_eq_ok_iff.mp h
  exact List.suffix_cons ..

theorem suffix_of_readPosition {p : Position} (h : readPosition input ls = .ok (p, rest)) :
    rest <:+ ls := by
  obtain ⟨front, rfl, -⟩ := readPosition_eq_ok_iff.mp h
  exact List.suffix_append ..

theorem failsIn_readPosition : FailsIn input ls (readPosition input ls) := by
  refine (failsIn_expect '[').bind fun ls₁ h₁ => .of_suffix ?_ (suffix_of_expect h₁)
  refine failsIn_readInteger.bind fun ⟨row, ls₂⟩ h₂ => .of_suffix ?_ (suffix_of_readInteger h₂)
  refine (failsIn_expect ',').bind fun ls₃ h₃ => .of_suffix ?_ (suffix_of_expect h₃)
  refine failsIn_readInteger.bind fun ⟨column, ls₄⟩ h₄ => .of_suffix ?_ (suffix_of_readInteger h₄)
  exact (failsIn_expect ']').bind fun ls₅ _ => .ok _

theorem failsIn_readSpan? : FailsIn input ls (readSpan? input ls) := by
  by_cases hhead : (tokensOf ls).head? = some (.punct '[')
  · rw [readSpan?_of_bracket hhead]
    refine failsIn_readPosition.bind fun ⟨start, ls₁⟩ h₁ =>
      .of_suffix ?_ (suffix_of_readPosition h₁)
    refine (failsIn_expect '-').bind fun ls₂ h₂ => .of_suffix ?_ (suffix_of_expect h₂)
    exact failsIn_readPosition.bind fun r _ => .ok _
  · rw [readSpan?_of_no_bracket hhead]
    exact .ok _

theorem suffix_of_readMissing {kind kind' : String}
    (h : readMissing input kind ls = .ok (kind', rest)) : rest <:+ ls := by
  rw [readMissing_eq] at h
  split at h
  · obtain ⟨⟨name, ls₁⟩, hname, h⟩ := bind_eq_ok_iff.mp h
    cases h
    exact suffix_of_readName hname
  · cases h
    exact List.suffix_rfl

theorem failsIn_readMissing (kind : String) : FailsIn input ls (readMissing input kind ls) := by
  rw [readMissing_eq]
  split
  · exact failsIn_readName.bind fun r _ => .ok _
  · exact .ok _

theorem suffix_of_readHead {head : String × Option Span}
    (h : readHead input ls = .ok (head, rest)) : rest <:+ ls := by
  obtain ⟨o, kindLs, spanLs, rfl, -⟩ := readHead_eq_ok_iff.mp h
  exact ⟨⟨.punct '(', o⟩ :: (kindLs ++ spanLs), by simp⟩

theorem failsIn_readHead : FailsIn input ls (readHead input ls) := by
  refine (failsIn_expect '(').bind fun ls₁ h₁ => .of_suffix ?_ (suffix_of_expect h₁)
  refine failsIn_readName.bind fun ⟨name, ls₂⟩ h₂ => .of_suffix ?_ (suffix_of_readName h₂)
  refine (failsIn_readMissing name).bind fun ⟨kind, ls₃⟩ h₃ =>
    .of_suffix ?_ (suffix_of_readMissing h₃)
  exact failsIn_readSpan?.bind fun r _ => .ok _

/-- The text of a node is found unless its span has no stretch. -/
theorem failsIn_nodeText {head : String × Option Span}
    (hhead : readHead input ls = .ok (head, rest)) : FailsIn input ls (nodeText input head.2) := by
  obtain ⟨kind, span⟩ := head
  obtain ⟨o, kindLs, spanLs, rfl, -, hspan⟩ := readHead_eq_ok_iff.mp hhead
  cases span with
  | none => exact .ok _
  | some span =>
    have hinfix : tokensOf spanLs <:+: tokensOf (⟨.punct '(', o⟩ :: (kindLs ++ (spanLs ++ rest))) :=
      ⟨.punct '(' :: tokensOf kindLs, tokensOf rest, by simp⟩
    generalize tokensOf spanLs = ts at hspan hinfix
    obtain ⟨⟩ | hspan := hspan
    rw [nodeText]
    cases hextract : span.extract input.lines with
    | some cs => exact .ok _
    | none =>
      rintro e ⟨⟩
      exact .inr ⟨rfl, ts, span, hinfix, hspan, hextract⟩

mutual

/-- **The reader fails on malformed tokens only**, and on spans without a stretch. -/
theorem failsIn_readNode (field : Option String) {ls : List Lexeme} :
    FailsIn input ls (readNode input field ls).outcome := by
  rw [outcome_readNode]
  refine failsIn_readHead.bind fun ⟨head, ls₁⟩ h₁ => ?_
  have hlt := length_readHead h₁
  refine .bind (.of_suffix failsIn_readItems (suffix_of_readHead h₁)) fun r _ => ?_
  exact (failsIn_nodeText h₁).bind fun text _ => .ok _
termination_by 2 * ls.length

/-- Reading children fails on malformed tokens only, and on spans without a stretch. -/
theorem failsIn_readItems {ls : List Lexeme} : FailsIn input ls (readItems input ls).outcome := by
  match ls with
  | [] =>
    rw [readItems]
    exact .error rfl
  | ⟨t, o⟩ :: ls =>
    obtain rfl | rfl | ⟨name, rfl⟩ | ⟨hclose, hnode, hfield⟩ := t.item_cases
    · rw [outcome_readItems_close]
      exact .ok _
    · rw [outcome_readItems_node]
      refine (failsIn_readNode none).bind fun ⟨n, ls₁⟩ h₁ => ?_
      have hlt : ls₁.length < ls.length + 1 := Reading.length_lt h₁
      refine .of_suffix ?_ (suffix_of_readNode h₁)
      exact failsIn_readItems.bind fun r _ => .ok _
    · rw [outcome_readItems_field]
      refine .of_suffix ?_ (List.suffix_cons ..)
      refine (failsIn_expect ':').bind fun ls₁ h₁ => ?_
      have hlt₁ := length_expect h₁
      refine .of_suffix ?_ (suffix_of_expect h₁)
      refine (failsIn_readNode (some name)).bind fun ⟨n, ls₂⟩ h₂ => ?_
      have hlt₂ := Reading.length_lt h₂
      refine .of_suffix ?_ (suffix_of_readNode h₂)
      exact failsIn_readItems.bind fun r _ => .ok _
    · rw [outcome_readItems_other o hclose hnode hfield]
      exact .error rfl
termination_by 2 * ls.length + 1

end

/-! ### Whole texts -/

/-- A tree is read when a node takes all tokens. -/
theorem readTree_eq_ok_iff {n : Node} :
    readTree input ls = .ok n ↔ (readNode input none ls).outcome = .ok (n, []) := by
  rw [readTree]
  match readNode input none ls with
  | .error e => exact ⟨nofun, nofun⟩
  | .ok ⟨(m, []), _⟩ => simp [Reading.outcome, Except.map]
  | .ok ⟨(m, l :: rest), _⟩ => simp [Reading.outcome, Except.map]

/-- Reading a tree fails on malformed tokens only, and on spans without a stretch. -/
theorem failsIn_wholeTree : FailsIn input ls (readTree input ls) := by
  have hnode : FailsIn input ls (readNode input none ls).outcome := failsIn_readNode none
  rw [readTree]
  match hread : readNode input none ls with
  | .error e =>
    rw [hread] at hnode
    rintro e' ⟨⟩
    exact hnode e rfl
  | .ok ⟨(n, []), _⟩ => exact .ok n
  | .ok ⟨(n, l :: rest), _⟩ =>
    have hrest : (readNode input none ls).outcome = .ok (n, l :: rest) := by
      rw [hread]
      rfl
    exact .of_suffix (.error rfl) (suffix_of_readNode hrest)

/-- Where no span has a negative number, reading a tree fails on malformed tokens only. -/
theorem failsIn_readTree (hs : SpansNonneg (tokensOf ls)) (e : Error)
    (h : readTree input ls = .error e) : e.PointsInto input ls := by
  obtain hpoints | ⟨-, us, span, hus, hspan, hlost⟩ := failsIn_wholeTree e h
  · exact hpoints
  · obtain ⟨cs, hcs⟩ := (hs us span hus hspan).exists_extract input.lines
    rw [hcs] at hlost
    cases hlost

/-- **The reader accepts exactly the grammar.** A text is read as a tree exactly when all its
tokens together spell that tree over the lines of the source. Where no span has a negative
number, any other text is refused as malformed, and the error says where. -/
theorem read_eq_ok_iff_spells {s source : String} {ls : List Lexeme} (hs : tokens s = .ok ls) :
    (∀ n, read s source = .ok n ↔ IsNode (lines source.toList) none (tokensOf ls) n) ∧
      (SpansNonneg (tokensOf ls) → (∀ n, ¬IsNode (lines source.toList) none (tokensOf ls) n) →
        ∃ e o, read s source = .error e ∧ e.offset? = some o) := by
  have hread : read s source = readTree ⟨s.length, lines source.toList⟩ ls := by
    rw [read, hs]
    rfl
  have haccepts (n : Node) :
      read s source = .ok n ↔ IsNode (lines source.toList) none (tokensOf ls) n := by
    rw [hread, readTree_eq_ok_iff]
    constructor
    · intro h
      obtain ⟨front, rfl, hn⟩ := spells_of_readNode h
      rwa [List.append_nil]
    · intro h
      have hcomplete := @readNode_of_spells ⟨s.length, lines source.toList⟩ _ _ _ h ls rfl []
      rwa [List.append_nil] at hcomplete
  refine ⟨haccepts, fun hspans hnone => ?_⟩
  cases hresult : read s source with
  | ok n => exact absurd ((haccepts n).mp hresult) (hnone n)
  | error e =>
    obtain ⟨o, -, ho⟩ := failsIn_readTree hspans e (hread ▸ hresult)
    exact ⟨e, o, rfl, ho⟩

/-- A missing node with a span and a child in a field. -/
theorem read_eq_ok_iff_spells_missing :
    let s := "(MISSING end [0, 1] - [0, 2] f: (a))"
    let ls : List Lexeme := [⟨.punct '(', 0⟩, ⟨.atom "MISSING", 1⟩, ⟨.atom "end", 9⟩,
      ⟨.punct '[', 13⟩, ⟨.atom "0", 14⟩, ⟨.punct ',', 15⟩, ⟨.atom "1", 17⟩, ⟨.punct ']', 18⟩,
      ⟨.punct '-', 20⟩, ⟨.punct '[', 22⟩, ⟨.atom "0", 23⟩, ⟨.punct ',', 24⟩, ⟨.atom "2", 26⟩,
      ⟨.punct ']', 27⟩, ⟨.atom "f", 29⟩, ⟨.punct ':', 30⟩, ⟨.punct '(', 32⟩, ⟨.atom "a", 33⟩,
      ⟨.punct ')', 34⟩, ⟨.punct ')', 35⟩]
    tokens s = .ok ls ∧ SpansNonneg (tokensOf ls) ∧
      (∀ n, read s "x;" = .ok n ↔ IsNode (lines "x;".toList) none (tokensOf ls) n) ∧
      ((∀ n, ¬IsNode (lines "x;".toList) none (tokensOf ls) n) →
        ∃ e o, read s "x;" = .error e ∧ e.offset? = some o) := by
  intro s ls
  have hs : tokens s = .ok ls := by
    simp [s, ls, tokens, lex, isBlank, blankRanges, CodeRanges.has, isPunct, isAtomChar,
      Functor.map, Except.map]
  have hspans : SpansNonneg (tokensOf ls) := spansNonneg_of_all (by decide +kernel)
  obtain ⟨haccepts, hrefuses⟩ := @read_eq_ok_iff_spells s "x;" ls hs
  exact ⟨hs, hspans, haccepts, hrefuses hspans⟩

end Typeset.Sexp
