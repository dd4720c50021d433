import Typeset.Doc.Normal

/-!
# The walk that normalises a document

The walk keeps the documents that it has still to do on one stack and every normal form that is
not yet used on another. A document that is rebuilt takes its parts off the results by their
number alone, and all documents that wait to be rebuilt share these results. That each of them
finds the normal forms of its own parts is a condition on both stacks together: when the tasks
are done in turn and each one leaves the normal form of its document, then every document that
is rebuilt has the normal forms of its parts on top of the results. A task keeps the condition,
whatever number of parts its document has, so that no induction on documents is needed.

The walk visits each document twice, a plain text once. What the tasks on the stack have still to
cost drops by one with each task, and so the number of tasks of a whole walk is known beforehand.

## Main definitions

* `Doc.Rebuilds` : functions by recursion on documents that rebuild them from their parts.
* `Doc.WalkReaches` : the states that the walk over a document passes through.
* `Doc.LeadsTo` : the stacks of a walk that fit together.

## Main results

* `Doc.rebuilds_iff` : the normal form is the one function of this recursion.
* `Doc.leadsTo_visit` : a task keeps stacks that fit together so.
* `Doc.WalkReaches.add_cost` : how many tasks are done and how many are left.
* `Doc.walk_enter` : the walk over a document ends in its normal form.
* `Doc.normalize_eq_normal` : the walk agrees with the recursion.
* `Doc.walk_is_recursion` : all states of the walk, its end and its result.
-/

namespace Typeset.Doc

variable {d : Doc} {result done : List Doc} {stack : List Visit} {n : Nat}

/-! ### The recursion -/

/-- Induction on documents along their direct parts. -/
@[elab_as_elim]
theorem inductionOnParts {P : Doc → Prop} (d : Doc) (h : ∀ d, (∀ e ∈ d.parts, P e) → P d) :
    P d := by
  induction d using inductionOn with
  | concat ds ih => exact h _ ih
  | fill ds ih => exact h _ ih
  | indent d ih => exact h _ (by simpa [parts] using ih)
  | annotated d a ih => exact h _ (by simpa [parts] using ih)
  | group d b ih => exact h _ (by simpa [parts] using ih)
  | alwaysBreak d ih => exact h _ (by simpa [parts] using ih)
  | conditional ds d ihs ih =>
    refine h _ fun e he => ?_
    simp only [parts, candidates, List.mem_append, List.mem_singleton] at he
    rcases he with he | rfl
    · exact ihs e he
    · exact ih
  | _ => exact h _ (by simp [parts])

/-- A plain text is its own value, and every other document is rebuilt from the values of its
direct parts. -/
structure Rebuilds (f : Doc → Doc) : Prop where
  /-- The value of a plain text. -/
  lit (s : String) : f (lit s) = lit s
  /-- The value of any other document. -/
  rebuild (d : Doc) (h : ∀ s, d ≠ Doc.lit s) : f d = d.rebuild (d.parts.map f)

theorem rebuild_map_normal (d : Doc) : d.rebuild (d.parts.map normal) = d.normal := by
  cases d <;> simp [rebuild, parts, normal, candidates, normalAll_eq_map]

/-- The normal form is the one function that rebuilds each document from the values of its
parts. -/
theorem rebuilds_iff (f : Doc → Doc) : Rebuilds f ↔ f = normal := by
  constructor
  · intro hf
    funext d
    induction d using inductionOnParts with
    | h d ih =>
      obtain ⟨s, rfl⟩ | hd := d.eq_lit_or_ne
      · rw [hf.lit, normal]
      · rw [hf.rebuild d hd, List.map_congr_left ih, rebuild_map_normal]
  · rintro rfl
    exact ⟨fun s => by rw [normal], fun d _ => (rebuild_map_normal d).symm⟩

/-! ### Stacks that fit together -/

/-- The tasks on the stack lead from the results `done` to the results `result`: each task puts
the normal form of its document on top, and a document that is rebuilt finds there the normal
forms of its parts, the last one first, which its own normal form replaces. -/
def LeadsTo (result : List Doc) : List Visit → List Doc → Prop
  | [], done => done = result
  | .enter d :: stack, done => LeadsTo result stack (d.normal :: done)
  | .leave d :: stack, done =>
    ∃ rest, done = (d.parts.map normal).reverse ++ rest ∧ LeadsTo result stack (d.normal :: rest)

/-- Documents that are to be done lead to their normal forms, the last one on top. -/
theorem leadsTo_enter_append (ds : List Doc) (stack : List Visit) (done : List Doc) :
    LeadsTo result (ds.map .enter ++ stack) done ↔
      LeadsTo result stack ((ds.map normal).reverse ++ done) := by
  induction ds generalizing done with
  | nil => rfl
  | cons d ds ih => simp [LeadsTo, ih]

/-- What is taken are the normal forms of the parts, in the order of the parts. -/
theorem taken_reverse_append (d : Doc) (rest : List Doc) :
    d.taken ((d.parts.map normal).reverse ++ rest) = d.parts.map normal := by
  rw [taken, List.take_left' (by simp), List.reverse_reverse]

/-- A document is rebuilt to its normal form, in the place of those of its parts. -/
theorem visit_leave (d : Doc) (rest : List Doc) :
    visit ((d.parts.map normal).reverse ++ rest) (.leave d) = ([], d.normal :: rest) := by
  rw [visit, taken_reverse_append, rebuild_map_normal, List.drop_left' (by simp)]

/-- A task keeps stacks that fit together. -/
theorem leadsTo_visit {v : Visit} (h : LeadsTo result (v :: stack) done) :
    LeadsTo result ((visit done v).1 ++ stack) (visit done v).2 := by
  cases v with
  | leave d =>
    obtain ⟨rest, rfl, hrest⟩ := h
    rw [visit_leave]
    exact hrest
  | enter d =>
    obtain ⟨s, rfl⟩ | hd := d.eq_lit_or_ne
    · rw [LeadsTo, normal] at h
      exact h
    · rw [visit_enter hd, List.append_assoc, leadsTo_enter_append]
      -- the normal forms of the parts come to stand on `done`, which stays below them
      exact ⟨done, rfl, h⟩

/-! ### Runs of the walk -/

/-- The states that the walk over a document passes through: the number of tasks that are done,
the tasks that are left and the normal forms that are not yet used. -/
inductive WalkReaches (d : Doc) : Nat → List Visit → List Doc → Prop
  | start : WalkReaches d 0 [.enter d] []
  | next {n : Nat} {v : Visit} {stack : List Visit} {done : List Doc}
      (h : WalkReaches d n (v :: stack) done) :
      WalkReaches d (n + 1) ((visit done v).1 ++ stack) (visit done v).2

/-- In every state the stacks lead to the normal form of the whole document. -/
theorem WalkReaches.leadsTo (h : WalkReaches d n stack done) :
    LeadsTo [d.normal] stack done := by
  induction h with
  | start => rfl
  | next _ ih => exact leadsTo_visit ih

/-- The tasks that are done and those that are left make up the whole walk. -/
theorem WalkReaches.add_cost (h : WalkReaches d n stack done) : n + cost stack = d.visits := by
  induction h with
  | start => simp [cost]
  | @next n v stack done _ ih =>
    have := cost_visit done v stack
    omega

/-- From every state the walk goes on until no task is left. -/
theorem WalkReaches.walk (h : WalkReaches d n stack done) :
    WalkReaches d (n + cost stack) [] (walk stack done) := by
  fun_induction Doc.walk stack done generalizing n with
  | case1 done => exact h
  | case2 v stack done ih =>
    have hend := ih h.next
    rwa [Nat.add_assoc, Nat.add_comm 1, cost_visit] at hend

/-- The walk over a document ends in its normal form, as the only result. -/
theorem walk_enter (d : Doc) : walk [.enter d] [] = [d.normal] :=
  (WalkReaches.walk .start).leadsTo

/-- The walk with an explicit stack computes the normal form. -/
theorem normalize_eq_normal (d : Doc) : d.normalize = d.normal := by
  rw [normalize, walk_enter]
  rfl

/-- **The walk with an explicit stack is the recursion on documents.** The normal form is the one
function in which a plain text is its own value and any other document is rebuilt from the values
of its parts. The walk over a document ends after the number of tasks that is known beforehand,
with the normal form as the only result; no state comes after that and no other state is without
a task. Whenever a document is rebuilt, exactly the normal forms of its parts are taken from the
results, in order, and its own normal form takes their place; the other results stay. -/
theorem walk_is_recursion (d : Doc) :
    (∀ f : Doc → Doc, Rebuilds f ↔ f = normal) ∧
    WalkReaches d d.visits [] [d.normal] ∧
    (∀ n stack done, WalkReaches d n stack done →
      n ≤ d.visits ∧ (stack = [] → n = d.visits ∧ done = [d.normal])) ∧
    (∀ n e stack done, WalkReaches d n (.leave e :: stack) done →
      ∃ rest, done = (e.parts.map normal).reverse ++ rest ∧ e.taken done = e.parts.map normal ∧
        visit done (.leave e) = ([], e.normal :: rest)) ∧
    walk [.enter d] [] = [d.normal] ∧ d.normalize = d.normal := by
  refine ⟨rebuilds_iff, ?_, fun n stack done h => ⟨?_, ?_⟩, fun n e stack done h => ?_,
    walk_enter d, normalize_eq_normal d⟩
  · have hend := WalkReaches.walk (.start (d := d))
    rwa [walk_enter, WalkReaches.start.add_cost] at hend
  · have := h.add_cost
    omega
  · rintro rfl
    exact ⟨h.add_cost, h.leadsTo⟩
  · obtain ⟨rest, rfl, -⟩ := h.leadsTo
    exact ⟨rest, rfl, taken_reverse_append e rest, visit_leave e rest⟩

end Typeset.Doc
