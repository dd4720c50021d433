import Mathlib.Data.List.Forall2
import Typeset.Print.Rule

/-!
# What printing yields

A condition on printed results is carried through printing step by step: a sequence of steps
yields what its last step yields, and a walk over a list yields a list of results that meet
the condition. If every rule of a table keeps a condition, then whatever a tree is printed as
meets it.

## Main definitions

* `Printing.Yields` : every result of a computation meets a condition.
* `Printing.Returns` : a computation succeeds with a result that meets a condition.
* `Printing.Ends` : a computation ends in a result or an error, each with its condition.
* `Printing.Agrees` : two computations have the same result or the same error.

## Main results

* `yields_printPath` : a condition on the results at a path that every rule of a table keeps holds
  of every result.
* `ends_printPath` : the same for conditions on results and errors.
-/

namespace Typeset

namespace Printing

variable {α β σ : Type} {P : α → Prop} {Q : β → Prop}

/-- Two steps in a row succeed when both do, and their counts add up. -/
theorem andThen_eq_ok_iff {x : Printing α} {f : α → Printing β} {b : β} {n : Nat} :
    x >>= f = .ok (b, n) ↔
      ∃ a k m, x = .ok (a, k) ∧ f a = .ok (b, m) ∧ n = k + m := by
  constructor
  · intro h
    cases x with
    | error e => cases h
    | ok r =>
      have h : andThen (.ok r) f = .ok (b, n) := h
      cases hf : f r.1 with
      | error e =>
        rw [andThen, hf] at h
        cases h
      | ok r' =>
        rw [andThen, hf] at h
        cases h
        exact ⟨r.1, r.2, r'.2, rfl, hf, rfl⟩
  · rintro ⟨a, k, m, rfl, hf, rfl⟩
    show andThen (.ok (a, k)) f = _
    rw [andThen, hf]

/-- Every result of the computation meets the condition. -/
def Yields (x : Printing α) (P : α → Prop) : Prop := ∀ a n, x = .ok (a, n) → P a

theorem Yields.pure {a : α} (h : P a) : (Pure.pure a : Printing α).Yields P := by
  rintro b n ⟨⟩
  exact h

theorem Yields.bind {x : Printing α} {f : α → Printing β} (hx : x.Yields P)
    (hf : ∀ a, P a → (f a).Yields Q) : (x >>= f).Yields Q := by
  intro b n h
  obtain ⟨a, k, m, ha, hb, -⟩ := andThen_eq_ok_iff.mp h
  exact hf a (hx a k ha) b m hb

theorem Yields.mono {x : Printing α} {P' : α → Prop} (hx : x.Yields P) (h : ∀ a, P a → P' a) :
    x.Yields P' := fun a n ha => h a (hx a n ha)

theorem yields_fail (e : PrintError) : (fail e : Printing α).Yields P := by
  rintro a n ⟨⟩

/-- A computation that prints no node yields its own result. -/
theorem yields_lift {x : Except PrintError α} (h : ∀ a, x = .ok a → P a) :
    (lift x).Yields P := by
  intro a n hx
  cases x with
  | error e => cases hx
  | ok b =>
    cases hx
    exact h a rfl

theorem Yields.all {f : α → Printing β} {as : List α} (h : ∀ a ∈ as, (f a).Yields Q) :
    (all f as).Yields fun bs => ∀ b ∈ bs, Q b := by
  induction as with
  | nil => exact .pure (by simp)
  | cons a as ih =>
    refine (h a List.mem_cons_self).bind fun b hb => ?_
    refine (ih fun c hc => h c (List.mem_cons_of_mem a hc)).bind fun bs hbs => .pure ?_
    exact List.forall_mem_cons.mpr ⟨hb, hbs⟩

/-- A walk that depends on the elements before yields what its steps yield. A step is known by
what stands before it. -/
theorem Yields.collectFrom_before {next : σ → α → σ} {f : σ → α → Printing (List β)}
    {as : List α} {s : σ} (h : ∀ before a after, as = before ++ a :: after →
      (f (before.foldl next s) a).Yields fun bs => ∀ b ∈ bs, Q b) :
    (collectFrom next f s as).Yields fun bs => ∀ b ∈ bs, Q b := by
  induction as generalizing s with
  | nil => exact .pure (by simp)
  | cons a as ih =>
    refine (h [] a as rfl).bind fun b hb => ?_
    refine (ih fun before c after has => h (a :: before) c after (by rw [has]; rfl)).bind
      fun bs hbs => .pure ?_
    exact List.forall_mem_append.mpr ⟨hb, hbs⟩

/-- A walk that depends on the elements before yields what its steps yield. -/
theorem Yields.collectFrom {next : σ → α → σ} {f : σ → α → Printing (List β)} {as : List α}
    (h : ∀ s, ∀ a ∈ as, (f s a).Yields fun bs => ∀ b ∈ bs, Q b) (s : σ) :
    (collectFrom next f s as).Yields fun bs => ∀ b ∈ bs, Q b :=
  .collectFrom_before fun before a after has => h _ a (by simp [has])

/-- A walk yields what its steps yield. -/
theorem Yields.collect {f : α → Printing (List β)} {as : List α}
    (h : ∀ a ∈ as, (f a).Yields fun bs => ∀ b ∈ bs, Q b) :
    (collect f as).Yields fun bs => ∀ b ∈ bs, Q b := by
  induction as with
  | nil => exact .pure (by simp)
  | cons a as ih =>
    refine (h a List.mem_cons_self).bind fun b hb => ?_
    refine (ih fun c hc => h c (List.mem_cons_of_mem a hc)).bind fun bs hbs => .pure ?_
    exact List.forall_mem_append.mpr ⟨hb, hbs⟩

/-! ### Success -/

/-- The computation succeeds, and its result meets the condition. -/
def Returns (x : Printing α) (P : α → Prop) : Prop := ∃ a n, x = .ok (a, n) ∧ P a

theorem Returns.pure {a : α} (h : P a) : (Pure.pure a : Printing α).Returns P := ⟨a, 0, rfl, h⟩

theorem Returns.bind {x : Printing α} {f : α → Printing β} (hx : x.Returns P)
    (hf : ∀ a, P a → (f a).Returns Q) : (x >>= f).Returns Q := by
  obtain ⟨a, k, ha, hP⟩ := hx
  obtain ⟨b, m, hb, hQ⟩ := hf a hP
  exact ⟨b, k + m, andThen_eq_ok_iff.mpr ⟨a, k, m, ha, hb, rfl⟩, hQ⟩

theorem returns_lift {x : Except PrintError α} {a : α} (hx : x = .ok a) (h : P a) :
    (lift x).Returns P := ⟨a, 0, by rw [hx]; rfl, h⟩

/-- If each step returns a result with the view that its element asks for, then the walk
returns results with the views that the list asks for. -/
theorem returns_all {γ : Type} {f : α → Printing β} {view : β → γ} {asked : α → γ} {as : List α}
    (h : ∀ a ∈ as, (f a).Returns fun b => view b = asked a) :
    (all f as).Returns fun bs => bs.map view = as.map asked := by
  induction as with
  | nil => exact .pure rfl
  | cons a as ih =>
    refine (h a List.mem_cons_self).bind fun b hb => ?_
    refine (ih fun c hc => h c (List.mem_cons_of_mem a hc)).bind fun bs hbs => .pure ?_
    rw [List.map_cons, List.map_cons, hb, hbs]

/-- The same for steps with several results. -/
theorem returns_collect {γ : Type} {f : α → Printing (List β)} {view : β → List γ}
    {asked : α → List γ} {as : List α}
    (h : ∀ a ∈ as, (f a).Returns fun bs => bs.flatMap view = asked a) :
    (collect f as).Returns fun bs => bs.flatMap view = as.flatMap asked := by
  induction as with
  | nil => exact .pure rfl
  | cons a as ih =>
    refine (h a List.mem_cons_self).bind fun b hb => ?_
    refine (ih fun c hc => h c (List.mem_cons_of_mem a hc)).bind fun bs hbs => .pure ?_
    rw [List.flatMap_append, List.flatMap_cons, hb, hbs]

/-- A walk whose steps have one result each. -/
theorem returns_collect_singleton {f : α → Printing (List β)} {asked : α → β} {as : List α}
    (h : ∀ a ∈ as, (f a).Returns fun bs => bs = [asked a]) :
    (collect f as).Returns fun bs => bs = as.map asked := by
  induction as with
  | nil => exact .pure rfl
  | cons a as ih =>
    refine (h a List.mem_cons_self).bind fun b hb => ?_
    refine (ih fun c hc => h c (List.mem_cons_of_mem a hc)).bind fun bs hbs => .pure ?_
    rw [hb, hbs, List.map_cons, List.singleton_append]

/-! ### Results and errors -/

section Ends

variable {E : PrintError → Prop}

/-- The computation ends in a result that meets the first condition, or in an error that meets
the second one. -/
def Ends (x : Printing α) (P : α → Prop) (E : PrintError → Prop) : Prop :=
  match x with
  | .ok r => P r.1
  | .error e => E e

theorem Ends.pure {a : α} (h : P a) : (Pure.pure a : Printing α).Ends P E := h

theorem Ends.mono {x : Printing α} {P' : α → Prop} {E' : PrintError → Prop} (h : x.Ends P E)
    (hP : ∀ a, P a → P' a) (hE : ∀ e, E e → E' e) : x.Ends P' E' := by
  cases x with
  | error e => exact hE e h
  | ok r => exact hP r.1 h

/-- A computation that may end in any error is known by what it yields. -/
theorem ends_iff_yields {x : Printing α} : x.Ends P (fun _ => True) ↔ x.Yields P := by
  cases x with
  | error e =>
    refine ⟨fun _ a n h => ?_, fun _ => trivial⟩
    cases h
  | ok r =>
    refine ⟨fun h a n hr => ?_, fun h => h r.1 r.2 rfl⟩
    cases hr
    exact h

theorem Ends.bind {x : Printing α} {f : α → Printing β} (hx : x.Ends P E)
    (hf : ∀ a, P a → (f a).Ends Q E) : (x >>= f).Ends Q E := by
  cases x with
  | error e => exact hx
  | ok r =>
    have hnext := hf r.1 hx
    show (andThen (.ok r) f).Ends Q E
    rw [andThen]
    cases h : f r.1 with
    | error e =>
      rw [h] at hnext
      exact hnext
    | ok r' =>
      rw [h] at hnext
      exact hnext

theorem Ends.and {x : Printing α} {P' : α → Prop} (h : x.Ends P E) (h' : x.Yields P') :
    x.Ends (fun a => P a ∧ P' a) E := by
  cases x with
  | error e => exact h
  | ok r => exact ⟨h, h' r.1 r.2 rfl⟩

theorem ends_lift {x : Except PrintError α} (h : ∀ a, x = .ok a → P a)
    (he : ∀ e, x = .error e → E e) : (lift x).Ends P E := by
  cases x with
  | error e => exact he e rfl
  | ok a => exact h a rfl

/-- A walk ends in one result for each element. -/
theorem Ends.all {R : α → β → Prop} {f : α → Printing β} {as : List α}
    (h : ∀ a ∈ as, (f a).Ends (R a) E) : (all f as).Ends (List.Forall₂ R as) E := by
  induction as with
  | nil => exact .pure .nil
  | cons a as ih =>
    refine (h a List.mem_cons_self).bind fun b hb => ?_
    refine (ih fun c hc => h c (List.mem_cons_of_mem a hc)).bind fun bs hbs => .pure ?_
    exact .cons hb hbs

/-- A walk ends in the results of its steps, one after the other. -/
theorem Ends.collect {R : α → List β → Prop} {f : α → Printing (List β)} {as : List α}
    (h : ∀ a ∈ as, (f a).Ends (R a) E) :
    (collect f as).Ends (fun bs => ∃ parts, List.Forall₂ R as parts ∧ bs = parts.flatten) E := by
  induction as with
  | nil => exact .pure ⟨[], .nil, rfl⟩
  | cons a as ih =>
    refine (h a List.mem_cons_self).bind fun part hpart => ?_
    refine (ih fun c hc => h c (List.mem_cons_of_mem a hc)).bind fun bs hbs => .pure ?_
    obtain ⟨parts, hparts, rfl⟩ := hbs
    exact ⟨part :: parts, .cons hpart hparts, rfl⟩

/-- A walk that depends on the elements before ends in results among which are those of each of
its steps. A step is known by what stands before it. -/
theorem Ends.collectFrom {R : List α → α → List β → Prop} {next : σ → α → σ}
    {f : σ → α → Printing (List β)} {as : List α} {s : σ}
    (h : ∀ before a after, as = before ++ a :: after →
      (f (before.foldl next s) a).Ends (R before a) E) :
    (collectFrom next f s as).Ends
      (fun bs => ∀ before a after, as = before ++ a :: after →
        ∃ part, R before a part ∧ part ⊆ bs) E := by
  induction as generalizing s R with
  | nil => exact .pure fun before a after has => by simp at has
  | cons a as ih =>
    refine (h [] a as rfl).bind fun part hpart => ?_
    have htail := ih (R := fun before => R (a :: before)) (s := next s a) fun before b after hb =>
      h (a :: before) b after (by rw [hb]; rfl)
    refine htail.bind fun bs hbs => .pure fun before b after hb => ?_
    cases before with
    | nil =>
      cases hb
      exact ⟨part, hpart, List.subset_append_left part bs⟩
    | cons c before =>
      cases hb
      obtain ⟨part', hpart', hsub⟩ := hbs before b after rfl
      exact ⟨part', hpart', List.subset_append_of_subset_right part hsub⟩

end Ends

/-! ### Computations that agree -/

section Agrees

/-- The result or the error of a computation, without the number of nodes printed. -/
def outcome (x : Printing α) : Except PrintError α := Except.map Prod.fst x

theorem outcome_bind (x : Printing α) (f : α → Printing β) :
    (x >>= f).outcome = x.outcome >>= fun a => (f a).outcome := by
  cases x with
  | error e => rfl
  | ok r =>
    show (andThen (.ok r) f).outcome = (f r.1).outcome
    rw [andThen]
    cases f r.1 <;> rfl

/-- Whatever the result of a computation is, it ends in it. -/
theorem ends_outcome (x : Printing α) : x.Ends (fun a => x.outcome = .ok a) fun _ => True := by
  cases x with
  | error e => trivial
  | ok r => rfl

theorem Yields.of_outcome {x : Printing α} {a : α} (h : x.Yields P) (hx : x.outcome = .ok a) :
    P a := by
  cases x with
  | error e => cases hx
  | ok r =>
    cases hx
    exact h r.1 r.2 rfl

theorem Ends.of_outcome {x : Printing α} {E : PrintError → Prop} {a : α} (h : x.Ends P E)
    (hx : x.outcome = .ok a) : P a := by
  cases x with
  | error e => cases hx
  | ok r =>
    cases hx
    exact h

/-- The computations have the same result, or they fail with the same error. -/
def Agrees (x y : Printing α) : Prop := x.outcome = y.outcome

theorem Agrees.refl (x : Printing α) : x.Agrees x := rfl

theorem Agrees.symm {x y : Printing α} (h : x.Agrees y) : y.Agrees x := Eq.symm h

theorem Agrees.trans {x y z : Printing α} (h : x.Agrees y) (h' : y.Agrees z) : x.Agrees z :=
  Eq.trans h h'

theorem Agrees.of_eq {x y : Printing α} (h : x = y) : x.Agrees y := congrArg outcome h

theorem Agrees.bind {x y : Printing α} {f g : α → Printing β} (h : x.Agrees y)
    (hfg : ∀ a, (f a).Agrees (g a)) : (x >>= f).Agrees (y >>= g) := by
  rw [Agrees, outcome_bind, outcome_bind, h]
  exact congrArg _ (funext hfg)

/-- Results that are changed in the same way still agree. -/
theorem Agrees.map {x y : Printing α} (h : x.Agrees y) (f : α → β) :
    (x >>= fun a => Pure.pure (f a)).Agrees (y >>= fun a => Pure.pure (f a)) :=
  h.bind fun _ => .refl _

theorem Agrees.ite {c c' : Prop} [Decidable c] [Decidable c'] {x x' y y' : Printing α}
    (hc : c ↔ c') (hx : x.Agrees x') (hy : y.Agrees y') :
    (if c then x else y).Agrees (if c' then x' else y') := by
  by_cases h : c
  · rwa [if_pos h, if_pos (hc.mp h)]
  · rwa [if_neg h, if_neg (hc.not.mp h)]

/-- A computation that prints no node hands on its result. -/
theorem agrees_lift_ok (a : α) (f : α → Printing β) : (lift (.ok a) >>= f).Agrees (f a) :=
  outcome_bind _ _

theorem Agrees.lift_ok {γ : Type} {a : α} {c : γ} {f : α → Printing β} {g : γ → Printing β}
    (h : (f a).Agrees (g c)) : (lift (.ok a) >>= f).Agrees (lift (.ok c) >>= g) :=
  (agrees_lift_ok a f).trans (h.trans (agrees_lift_ok c g).symm)

section Walks

variable {γ : Type} {R : α → γ → Prop} {as : List α} {cs : List γ}

/-- Walks over lists agree if their steps agree on elements that correspond. -/
theorem Agrees.all {f : α → Printing β} {g : γ → Printing β} (has : List.Forall₂ R as cs)
    (h : ∀ a c, R a c → (f a).Agrees (g c)) : (all f as).Agrees (all g cs) := by
  induction has with
  | nil => exact .refl _
  | cons hac _ ih => exact (h _ _ hac).bind fun _ => ih.map _

theorem Agrees.collect {f : α → Printing (List β)} {g : γ → Printing (List β)}
    (has : List.Forall₂ R as cs) (h : ∀ a c, R a c → (f a).Agrees (g c)) :
    (collect f as).Agrees (collect g cs) := by
  induction has with
  | nil => exact .refl _
  | cons hac _ ih => exact (h _ _ hac).bind fun _ => ih.map _

/-- The same for walks that depend on the elements before. -/
theorem Agrees.collectFrom {next : σ → α → σ} {next' : σ → γ → σ}
    {f : σ → α → Printing (List β)} {g : σ → γ → Printing (List β)}
    (has : List.Forall₂ R as cs) (hnext : ∀ s a c, R a c → next s a = next' s c)
    (h : ∀ s a c, R a c → (f s a).Agrees (g s c)) (s : σ) :
    (collectFrom next f s as).Agrees (collectFrom next' g s cs) := by
  induction has generalizing s with
  | nil => exact .refl _
  | cons hac _ ih =>
    refine (h s _ _ hac).bind fun _ => ?_
    rw [hnext s _ _ hac]
    exact (ih _).map _

end Walks

end Agrees

end Printing

open Printing

/-! ### Rules -/

section Rules

variable {ρ : Type} {P : ρ → Prop}

theorem yields_printChildren {p : Path} {print : Below p → Printing ρ}
    (h : ∀ q, (print q).Yields P) : (printChildren p print).Yields fun ds => ∀ d ∈ ds, P d :=
  .all fun q _ => h q

/-- A rule of a table is one of those that the table was made of, and its kind is one of those
that the rule was registered for. -/
theorem RuleTable.exists_mem_of_get?_ofList {α : Type} {entries : List (List String × α)}
    {kind : String} {rule : α} (h : (RuleTable.ofList entries).get? kind = some rule) :
    ∃ entry ∈ entries, kind ∈ entry.1 ∧ entry.2 = rule := by
  have hall : ∀ (table : RuleTable α) (entries : List (List String × α)),
      ∀ e ∈ (entries.foldl (fun t r => t.register r.1 r.2) table).entries,
        e ∈ table.entries ∨ ∃ entry ∈ entries, e.1 ∈ entry.1 ∧ entry.2 = e.2 := by
    intro table entries
    induction entries generalizing table with
    | nil => exact fun e he => .inl he
    | cons entry entries ih =>
      intro e he
      rcases ih _ e he with he | ⟨entry', hmem, heq⟩
      · rcases List.mem_append.mp he with he | he
        · obtain ⟨k, hk, rfl⟩ := List.mem_map.mp he
          exact .inr ⟨entry, List.mem_cons_self, hk, rfl⟩
        · exact .inl he
      · exact .inr ⟨entry', List.mem_cons_of_mem _ hmem, heq⟩
  obtain ⟨before, after, hentries, -⟩ := List.lookup_eq_some_iff.mp h
  have hmem : (kind, rule) ∈ (RuleTable.ofList entries).entries := by
    rw [hentries]
    simp
  rcases hall {} entries _ hmem with he | he
  · cases he
  · exact he

/-- Conditions on the results and errors at a path that every rule meets wherever they are met
below it are met at every path. -/
theorem ends_printPath {rules : RuleTable (Rule ρ)} {P : Path → ρ → Prop}
    {E : Path → PrintError → Prop}
    (hnone : ∀ p, rules.get? p.node.kind = none → E p (.noRule p.node.kind p.node.span))
    (h : ∀ p rule, rules.get? p.node.kind = some rule →
      (∀ q : Below p, (printPath rules q.1).Ends (P q.1) (E q.1)) →
      (rule p fun q => printPath rules q.1).Ends (P p) (E p)) (p : Path) :
    (printPath rules p).Ends (P p) (E p) := by
  induction hn : p.node.size using Nat.strongRecOn generalizing p with
  | ind n ih =>
    rw [printPath]
    split
    · next hkind => exact hnone p hkind
    · next rule hrule =>
      have hbelow (q : Below p) : (printPath rules q.1).Ends (P q.1) (E q.1) :=
        ih _ (hn ▸ q.2) q.1 rfl
      exact Ends.bind (P := fun _ => True) trivial fun _ _ => h p rule hrule hbelow

/-- A condition on the results at a path that every rule meets wherever it is met below it is met
at every path. -/
theorem yields_printPath {rules : RuleTable (Rule ρ)} {P : Path → ρ → Prop}
    (h : ∀ p rule, rules.get? p.node.kind = some rule →
      (∀ q : Below p, (printPath rules q.1).Yields (P q.1)) →
      (rule p fun q => printPath rules q.1).Yields (P p)) (p : Path) :
    (printPath rules p).Yields (P p) := by
  refine ends_iff_yields.mp (ends_printPath (E := fun _ _ => True) (fun _ _ => trivial)
    (fun p rule hrule hbelow => ?_) p)
  exact ends_iff_yields.mpr (h p rule hrule fun q => ends_iff_yields.mp (hbelow q))

end Rules

end Typeset
