import Mathlib.Data.List.Basic
import Typeset.OperatorChain
import Typeset.Outcome

/-!
# Operator chains in order

The walk over a chain keeps places and operators on a stack. What it collects is described here
by recursion on the tree: an operator of the class of the chain contributes what is to its left,
itself, and what is to its right, and any other place is an operand. The walk and the recursion
agree for every policy and every way to find operators, also in the first failure of either.

The recursion shows what a chain consists of: operands and operators stand in turn, each
operator between what is below its first child and what is below its second one, and the leaves
below the operands are those below the chain.

## Main definitions

* `ChainPiece` : an operand or an operator, with its place.
* `Policy.inorder` : the pieces of a chain by recursion.
* `ChainPiece.SourceOrder` : operands and operators in source order.
* `Path.leaves` : the leaves below a path, in source order.

## Main results

* `Policy.unwrap_induction` : induction over paths as the recursion descends.
* `Policy.flattenFrom_place` : the walk does a place as the recursion does.
* `Policy.flatten_eq_inorder` : the chain at a path is that of the recursion.
* `Policy.flatten_collects_inorder` : the same, with what it says about the chain.
-/

namespace Typeset

/-! ### Pieces of a chain -/

/-- A piece of a chain. -/
inductive ChainPiece where
  /-- An operand. -/
  | operand (p : Path)
  /-- An operator, with the place of the node that it belongs to. -/
  | operator (p : Path) (s : String)

namespace ChainPiece

/-- The place of an operand. -/
def operand? : ChainPiece → Option Path
  | operand p => some p
  | operator _ _ => none

/-- The spelling of an operator. -/
def operator? : ChainPiece → Option String
  | operand _ => none
  | operator _ s => some s

/-- The operands among some pieces. -/
def operands (pieces : List ChainPiece) : List Path := pieces.filterMap operand?

/-- The operators among some pieces. -/
def operators (pieces : List ChainPiece) : List String := pieces.filterMap operator?

/-- Operands and operators in turn, where an operand comes first and last. An operator has the
operand in front of it below the first child of its node, and the operand behind it below the
second child. -/
inductive SourceOrder : List ChainPiece → Prop
  | operand (a : Path) : SourceOrder [.operand a]
  | cons {a b p : Path} {s : String} {pieces : List ChainPiece}
      (ha : ⟨p.node, 0⟩ :: p.above <:+ a.above) (hb : ⟨p.node, 1⟩ :: p.above <:+ b.above)
      (h : SourceOrder (.operand b :: pieces)) :
      SourceOrder (.operand a :: .operator p s :: .operand b :: pieces)

variable {xs ys : List ChainPiece}

@[simp]
theorem operands_append (xs ys : List ChainPiece) :
    operands (xs ++ ys) = operands xs ++ operands ys := List.filterMap_append ..

@[simp]
theorem operators_append (xs ys : List ChainPiece) :
    operators (xs ++ ys) = operators xs ++ operators ys := List.filterMap_append ..

@[simp]
theorem operands_operand (a : Path) (xs : List ChainPiece) :
    operands (.operand a :: xs) = a :: operands xs := rfl

@[simp]
theorem operands_operator (p : Path) (s : String) (xs : List ChainPiece) :
    operands (.operator p s :: xs) = operands xs := rfl

@[simp]
theorem operators_operand (a : Path) (xs : List ChainPiece) :
    operators (.operand a :: xs) = operators xs := rfl

@[simp]
theorem operators_operator (p : Path) (s : String) (xs : List ChainPiece) :
    operators (.operator p s :: xs) = s :: operators xs := rfl

theorem SourceOrder.length_operands (h : SourceOrder xs) :
    (operands xs).length = (operators xs).length + 1 := by
  induction h with
  | operand => rfl
  | cons _ _ _ ih => simpa using ih

/-- An operator joins pieces below its first child with pieces below its second one. -/
theorem SourceOrder.join {p : Path} (hxs : SourceOrder xs) (hys : SourceOrder ys)
    (hleft : ∀ a ∈ operands xs, ⟨p.node, 0⟩ :: p.above <:+ a.above)
    (hright : ∀ b ∈ operands ys, ⟨p.node, 1⟩ :: p.above <:+ b.above) (s : String) :
    SourceOrder (xs ++ .operator p s :: ys) := by
  induction hxs with
  | operand a =>
    have ha := hleft a (by simp)
    cases hys with
    | operand b => exact .cons ha (hright b (by simp)) (.operand b)
    | cons ha' hb' h => exact .cons ha (hright _ (by simp)) (.cons ha' hb' h)
  | cons ha hb _ ih => exact .cons ha hb (ih fun a h => hleft a (by simp at h ⊢; exact .inr h))

end ChainPiece

open ChainPiece

/-! ### Leaves -/

namespace Path

/-- The leaves below a path, in source order. -/
def leaves (p : Path) : List Path :=
  if p.node.children.isEmpty then [p] else p.children.flatMap fun q => leaves q.1
termination_by p.node.size
decreasing_by exact q.2

private theorem leaves_of_ne_nil {p : Path} (h : p.node.children ≠ []) :
    p.leaves = (p.node.children.mapIdx fun i c => p.down c i).flatMap leaves := by
  rw [leaves, if_neg (by simpa using h), ← map_val_children, List.flatMap_map]

/-- The leaves below a path with one child are those below the child. -/
theorem leaves_of_one {p : Path} {c : Node} (h : p.node.children = [c]) :
    p.leaves = (p.down c 0).leaves := by
  rw [leaves_of_ne_nil (by simp [h]), h]
  simp

/-- The leaves below a path with two children are those below them. -/
theorem leaves_of_two {p : Path} {left right : Node} (h : p.node.children = [left, right]) :
    p.leaves = (p.down left 0).leaves ++ (p.down right 1).leaves := by
  rw [leaves_of_ne_nil (by simp [h]), h]
  simp

end Path

namespace Policy

variable {κ : Type} [DecidableEq κ] (P : Policy κ)
  (operatorOf : Node → Except PrintError String)

omit [DecidableEq κ] in
/-- The leaves inside of wrappers are those below them. -/
theorem leaves_unwrap (p : Path) : (P.unwrap p).leaves = p.leaves := by
  fun_induction unwrap P p with
  | case1 p c hc _ ih => rw [ih, Path.leaves_of_one hc]
  | case2 => rfl
  | case3 => rfl

omit [DecidableEq κ] in
/-- What is above a path is above what is inside of wrappers there. -/
theorem above_suffix_unwrap (p : Path) : p.above <:+ (P.unwrap p).above := by
  fun_induction unwrap P p with
  | case1 p c hc _ ih => exact (List.suffix_cons _ _).trans ih
  | case2 => exact List.suffix_refl _
  | case3 => exact List.suffix_refl _

omit [DecidableEq κ] in
/-- The children of what is inside of wrappers are smaller than the wrappers. -/
theorem size_lt_of_mem_unwrap {p : Path} {c : Node} (h : c ∈ (P.unwrap p).node.children) :
    c.size < p.node.size :=
  Nat.lt_of_lt_of_le (Node.size_lt_of_mem h) (P.size_unwrap_le p)

omit [DecidableEq κ] in
/-- Induction over paths, from two children inside of wrappers to the path. -/
theorem unwrap_induction {motive : Path → Prop}
    (two : ∀ p left right, (P.unwrap p).node.children = [left, right] →
      motive ((P.unwrap p).down left 0) → motive ((P.unwrap p).down right 1) → motive p)
    (other : ∀ p, (∀ left right, (P.unwrap p).node.children ≠ [left, right]) → motive p)
    (p : Path) : motive p := by
  induction hn : p.node.size using Nat.strongRecOn generalizing p with
  | ind n ih =>
    by_cases htwo : ∃ left right, (P.unwrap p).node.children = [left, right]
    · obtain ⟨left, right, hc⟩ := htwo
      have hleft : left.size < n := hn ▸ P.size_lt_of_mem_unwrap (by simp [hc])
      have hright : right.size < n := hn ▸ P.size_lt_of_mem_unwrap (by simp [hc])
      exact two p left right hc (ih _ hleft _ rfl) (ih _ hright _ rfl)
    · exact other p fun left right hc => htwo ⟨left, right, hc⟩

/-! ### The recursion -/

/-- The pieces of the chain of a class at a path, in source order. An operator of the class that
has two children, inside of wrappers if there are any, is opened; any other path is an operand,
and where there is no class, every path is one. -/
def inorder : Option κ → Path → Except PrintError (List ChainPiece)
  | none, p => return [.operand p]
  | some k, p =>
    match _h : (P.unwrap p).node.children with
    | [left, right] => do
      if (← P.precedence (P.unwrap p).node) = some k then
        let s ← operatorOf (P.unwrap p).node
        let xs ← inorder (some k) ((P.unwrap p).down left 0)
        let ys ← inorder (some k) ((P.unwrap p).down right 1)
        return xs ++ .operator (P.unwrap p) s :: ys
      else return [.operand p]
    | _ => return [.operand p]
termination_by _ p => p.node.size
decreasing_by
  all_goals exact P.size_lt_of_mem_unwrap (by simp [_h])

variable {P operatorOf} {p : Path} {k : κ} {left right : Node} {pieces : List ChainPiece}

/-- Where there is no class, nothing is opened. -/
private theorem inorder_none (p : Path) : P.inorder operatorOf none p = .ok [.operand p] := by
  rw [inorder]
  rfl

/-- Two children inside of wrappers: the place is opened if their operator is of the class. -/
private theorem inorder_of_two (hc : (P.unwrap p).node.children = [left, right]) :
    P.inorder operatorOf (some k) p = do
      if (← P.precedence (P.unwrap p).node) = some k then
        let s ← operatorOf (P.unwrap p).node
        let xs ← P.inorder operatorOf (some k) ((P.unwrap p).down left 0)
        let ys ← P.inorder operatorOf (some k) ((P.unwrap p).down right 1)
        return xs ++ .operator (P.unwrap p) s :: ys
      else return [.operand p] := by
  rw [inorder]
  split
  · next left' right' hc' =>
    obtain ⟨rfl, rfl⟩ : left = left' ∧ right = right' := by simpa [hc] using hc'
    rfl
  · next hother => exact absurd hc (hother left right)

private theorem inorder_of_not_two (hc : ∀ left right, (P.unwrap p).node.children ≠ [left, right]) :
    P.inorder operatorOf (some k) p = .ok [.operand p] := by
  rw [inorder]
  split
  · next hc' => exact absurd hc' (hc _ _)
  · rfl

/-! ### The walk -/

/-- What a walk has collected, as paths and operators. -/
private def collected {p : Path} (r : List (Below p) × List String) : List Path × List String :=
  (r.1.map (·.1), r.2)

/-- What a walk collects after some pieces. -/
private def after (pieces : List ChainPiece) (r : List Path × List String) :
    List Path × List String := (operands pieces ++ r.1, operators pieces ++ r.2)

section Walk

variable {q : Below p} (rest : List (ChainEntry p))

private theorem flattenFrom_operator (s : String) :
    (P.flattenFrom operatorOf k (.operator s :: rest)).map collected =
      ((P.flattenFrom operatorOf k rest).map collected).map fun r => (r.1, s :: r.2) := by
  rw [flattenFrom]
  cases P.flattenFrom operatorOf k rest <;> rfl

private theorem flattenFrom_of_two (hc : (P.unwrap q.1).node.children = [left, right]) :
    ∃ hleft hright, P.flattenFrom operatorOf k (.place q :: rest) = (do
      if (← P.precedence (P.unwrap q.1).node) = some k then
        let s ← operatorOf (P.unwrap q.1).node
        P.flattenFrom operatorOf k (.place ⟨(P.unwrap q.1).down left 0, hleft⟩ :: .operator s ::
          .place ⟨(P.unwrap q.1).down right 1, hright⟩ :: rest)
      else (P.flattenFrom operatorOf k rest).map fun r => (q :: r.1, r.2)) := by
  refine ⟨Nat.lt_trans (P.size_lt_of_mem_unwrap (by simp [hc])) q.2,
    Nat.lt_trans (P.size_lt_of_mem_unwrap (by simp [hc])) q.2, ?_⟩
  rw [flattenFrom]
  split
  · next left' right' hc' =>
    obtain ⟨rfl, rfl⟩ : left = left' ∧ right = right' := by simpa [hc] using hc'
    rfl
  · next hother => exact absurd hc (hother left right)

private theorem flattenFrom_of_not_two
    (hc : ∀ left right, (P.unwrap q.1).node.children ≠ [left, right]) :
    P.flattenFrom operatorOf k (.place q :: rest) =
      (P.flattenFrom operatorOf k rest).map fun r => (q :: r.1, r.2) := by
  rw [flattenFrom]
  split
  · next hc' => exact absurd hc' (hc _ _)
  · cases P.flattenFrom operatorOf k rest <;> rfl

private theorem map_operand (q : Below p) (x : Except PrintError (List (Below p) × List String)) :
    (x.map fun r => (q :: r.1, r.2)).map collected =
      (x.map collected).map (after [.operand q.1]) := by
  cases x <;> rfl

/-- Pieces before an operator, the operator and pieces after it come before the rest. -/
private theorem bind_after_join (x y : Except PrintError (List ChainPiece)) (inner : Path)
    (s : String) (r : Except PrintError (List Path × List String)) :
    (x >>= fun xs => ((y >>= fun ys => r.map (after ys)).map fun r => (r.1, s :: r.2)).map
        (after xs)) =
      (do let xs ← x
          let ys ← y
          return xs ++ .operator inner s :: ys) >>= fun pieces => r.map (after pieces) := by
  cases x with
  | error e => rfl
  | ok xs =>
    cases y with
    | error e => rfl
    | ok ys =>
      cases r with
      | error e => rfl
      | ok r => simp [bind, Except.bind, pure, Except.pure, Except.map, after]

/-- The walk does the place on top of its stack as the recursion does, and then the rest. -/
theorem flattenFrom_place (q : Below p) (rest : List (ChainEntry p)) :
    (P.flattenFrom operatorOf k (.place q :: rest)).map collected =
      P.inorder operatorOf (some k) q.1 >>= fun pieces =>
        ((P.flattenFrom operatorOf k rest).map collected).map (after pieces) := by
  obtain ⟨inner, hinner⟩ := q
  -- the rest is arbitrary, since the right child is on the rest for the left one
  induction inner using P.unwrap_induction generalizing rest with
  | two inner left right hc ihl ihr =>
    obtain ⟨hleft, hright, hwalk⟩ :
        ∃ hleft hright, P.flattenFrom operatorOf k (.place ⟨inner, hinner⟩ :: rest) = _ :=
      flattenFrom_of_two rest hc
    rw [hwalk, inorder_of_two hc]
    cases P.precedence (P.unwrap inner).node with
    | error e => rfl
    | ok k' =>
      simp only [ok_bind]
      split
      · cases operatorOf (P.unwrap inner).node with
        | error e => rfl
        | ok s =>
          simp only [ok_bind]
          rw [ihl _ hleft, flattenFrom_operator, ihr _ hright]
          exact bind_after_join _ _ _ _ _
      · exact map_operand _ _
  | other inner hc =>
    rw [flattenFrom_of_not_two rest hc, inorder_of_not_two hc]
    exact map_operand _ _

end Walk

private theorem bind_after_nil (x : Except PrintError (List ChainPiece)) :
    (x >>= fun pieces =>
        ((pure ([], []) : Except PrintError (List (Below p) × List String)).map collected).map
          (after pieces)) =
      x >>= fun pieces => pure (operands pieces, operators pieces) := by
  cases x with
  | error e => rfl
  | ok pieces => simp [pure, Except.pure, Except.map, collected, after]

private theorem map_chain (x : Except PrintError (List (Below p) × List String)) :
    (x >>= fun r => (pure (.chain r.1 r.2) : Except PrintError (Flattened p))).map
      (fun c => (c.operands, c.operators)) = x.map collected := by
  cases x <;> rfl

/-- The chain at a path has the operands and operators that the recursion gives, or fails as the
recursion does. -/
theorem flatten_eq_inorder (P : Policy κ) (operatorOf : Node → Except PrintError String)
    (p : Path) :
    (P.flatten operatorOf p).map (fun c => (c.operands, c.operators)) = do
      let k ← P.precedence (P.unwrap p).node
      let pieces ← P.inorder operatorOf k p
      return (operands pieces, operators pieces) := by
  rw [flatten]
  cases hk : P.precedence (P.unwrap p).node with
  | error e => rfl
  | ok k =>
    cases k with
    | none =>
      simp only [ok_bind, inorder_none]
      rfl
    | some k =>
      simp only [ok_bind]
      split
      · next left right hc =>
        rw [inorder_of_two hc, hk]
        simp only [ok_bind, if_true]
        cases operatorOf (P.unwrap p).node with
        | error e => rfl
        | ok s =>
          simp only [ok_bind]
          rw [map_chain, opened, flattenFrom_place, flattenFrom_operator, flattenFrom_place,
            bind_after_join _ _ (P.unwrap p), flattenFrom, bind_after_nil]
      · next hc =>
        rw [inorder_of_not_two hc]
        rfl

/-! ### What a chain consists of -/

/-- A place that the walk over a chain of a class opens: an operator of the class with two
children, inside of wrappers if there are any. -/
def Opens (P : Policy κ) (k : κ) (p : Path) : Prop :=
  (P.unwrap p).node.children.length = 2 ∧ P.precedence (P.unwrap p).node = .ok (some k)

/-- Induction along the recursion, where it succeeds. -/
theorem inorder_induction {motive : Path → List ChainPiece → Prop}
    (operand : ∀ p, ¬ P.Opens k p → motive p [.operand p])
    (opened : ∀ p left right s xs ys, P.Opens k p →
      (P.unwrap p).node.children = [left, right] →
      P.inorder operatorOf (some k) ((P.unwrap p).down left 0) = .ok xs →
      P.inorder operatorOf (some k) ((P.unwrap p).down right 1) = .ok ys →
      motive ((P.unwrap p).down left 0) xs → motive ((P.unwrap p).down right 1) ys →
      motive p (xs ++ .operator (P.unwrap p) s :: ys))
    (p : Path) (h : P.inorder operatorOf (some k) p = .ok pieces) : motive p pieces := by
  induction p using P.unwrap_induction generalizing pieces with
  | two p left right hc ihl ihr =>
    rw [inorder_of_two hc] at h
    obtain ⟨k', hk', h⟩ := bind_eq_ok_iff.mp h
    split at h
    · next heq =>
      simp only [bind_eq_ok_iff] at h
      obtain ⟨s, -, xs, hxs, ys, hys, h⟩ := h
      cases h
      have hopens : P.Opens k p := ⟨by rw [hc]; rfl, heq ▸ hk'⟩
      exact opened p left right s xs ys hopens hc hxs hys (ihl hxs) (ihr hys)
    · next hne =>
      cases h
      refine operand p fun hopens => hne ?_
      have := hopens.2
      rw [hk'] at this
      exact Except.ok.inj this
  | other p hc =>
    rw [inorder_of_not_two hc] at h
    cases h
    refine operand p fun hopens => ?_
    obtain ⟨left, right, htwo⟩ := List.length_eq_two.mp hopens.1
    exact hc left right htwo

/-- The leaves below the operands are those below the chain. -/
theorem flatMap_leaves_operands (h : P.inorder operatorOf (some k) p = .ok pieces) :
    (operands pieces).flatMap Path.leaves = p.leaves := by
  refine inorder_induction
    (motive := fun p pieces => (operands pieces).flatMap Path.leaves = p.leaves)
    (fun p _ => ?_) (fun p left right s xs ys _ hc _ _ hxs hys => ?_) p h
  · simp [operands, operand?]
  · rw [operands_append, operands_operator, List.flatMap_append, hxs, hys, ← P.leaves_unwrap p,
      Path.leaves_of_two hc]

/-- No operand is opened. -/
theorem not_opens_of_mem_operands (h : P.inorder operatorOf (some k) p = .ok pieces) :
    ∀ q ∈ operands pieces, ¬ P.Opens k q := by
  refine inorder_induction (motive := fun _ pieces => ∀ q ∈ operands pieces, ¬ P.Opens k q)
    (fun p hp q hq => ?_) (fun p left right s xs ys _ _ _ _ hxs hys q hq => ?_) p h
  · rwa [List.mem_singleton.mp hq]
  · rw [operands_append, operands_operator, List.mem_append] at hq
    exact hq.elim (hxs q) (hys q)

/-- The operands lie below the chain. -/
private theorem above_suffix_of_mem_operands
    (h : P.inorder operatorOf (some k) p = .ok pieces) :
    ∀ q ∈ operands pieces, p.above <:+ q.above := by
  refine inorder_induction (motive := fun p pieces => ∀ q ∈ operands pieces, p.above <:+ q.above)
    (fun p _ q hq => ?_) (fun p left right s xs ys _ _ _ _ hxs hys q hq => ?_) p h
  · obtain rfl := List.mem_singleton.mp hq
    exact List.suffix_refl _
  · have habove : p.above <:+ (P.unwrap p).above := P.above_suffix_unwrap p
    rw [operands_append, operands_operator, List.mem_append] at hq
    rcases hq with hq | hq
    · exact habove.trans ((List.suffix_cons _ _).trans (hxs q hq))
    · exact habove.trans ((List.suffix_cons _ _).trans (hys q hq))

/-- What goes down from wrappers to what they wrap, and from the operators of a chain to their
children, goes down to the operands of the chain. -/
theorem forall_operands {Q : Path → Prop}
    (hwrap : ∀ q c, P.transparent.contains q.node.kind = true → q.node.children = [c] →
      Q q → Q (q.down c 0))
    (hopen : ∀ q left right k, P.precedence q.node = .ok (some k) →
      q.node.children = [left, right] → Q q → Q (q.down left 0) ∧ Q (q.down right 1))
    {c : Flattened p} (h : P.flatten operatorOf p = .ok c) (hp : Q p) : ∀ q ∈ c.operands, Q q := by
  have hunwrap (q : Path) (hq : Q q) : Q (P.unwrap q) := by
    fun_induction Policy.unwrap P q with
    | case1 q c hc hkind ih => exact ih (hwrap q c hkind hc hq)
    | case2 => exact hq
    | case3 => exact hq
  have heq := P.flatten_eq_inorder operatorOf p
  rw [h] at heq
  obtain ⟨k, -, heq⟩ := bind_eq_ok_iff.mp heq.symm
  obtain ⟨pieces, hpieces, hsplit⟩ := bind_eq_ok_iff.mp heq
  obtain ⟨hoperands, -⟩ := Prod.mk.inj (Except.ok.inj hsplit)
  rw [← hoperands]
  cases k with
  | none =>
    rw [inorder_none] at hpieces
    cases hpieces
    exact List.forall_mem_singleton.mpr hp
  | some k =>
    refine inorder_induction (motive := fun q pieces => Q q → ∀ r ∈ operands pieces, Q r)
      (fun q _ hq => List.forall_mem_singleton.mpr hq) ?_ p hpieces hp
    intro q left right s xs ys hq hc _ _ ihl ihr hQ
    obtain ⟨hleft, hright⟩ := hopen _ left right k hq.2 hc (hunwrap q hQ)
    rw [operands_append, operands_operator]
    exact List.forall_mem_append.mpr ⟨ihl hleft, ihr hright⟩

/-- The pieces of a chain are in source order. -/
theorem sourceOrder_of_inorder (h : P.inorder operatorOf (some k) p = .ok pieces) :
    SourceOrder pieces :=
  inorder_induction (motive := fun _ pieces => SourceOrder pieces) (fun p _ => .operand p)
    (fun _ _ _ s _ _ _ _ hxs hys hleft hright =>
      hleft.join hright (above_suffix_of_mem_operands hxs) (above_suffix_of_mem_operands hys) s)
    p h

/-- The recursion succeeds where nodes with two children have a known class and operator. -/
theorem exists_inorder (htwo : ∀ n : Node, n.children.length = 2 →
      (∃ k, P.precedence n = .ok k) ∧ ∃ s, operatorOf n = .ok s) (k : κ) (p : Path) :
    ∃ pieces, P.inorder operatorOf (some k) p = .ok pieces := by
  induction p using P.unwrap_induction with
  | two p left right hc ihl ihr =>
    obtain ⟨⟨k', hk'⟩, s, hs⟩ := htwo (P.unwrap p).node (by rw [hc]; rfl)
    obtain ⟨xs, hxs⟩ := ihl
    obtain ⟨ys, hys⟩ := ihr
    rw [inorder_of_two hc, hk', hs, hxs, hys]
    simp only [ok_bind]
    split
    · exact ⟨_, rfl⟩
    · exact ⟨_, rfl⟩
  | other p hc => exact ⟨_, inorder_of_not_two hc⟩

/-- **A chain is flattened in order.** For every policy, every way to find operators and every
path, flattening gives the operands and operators of the recursion, or fails as it does. It does
not fail where classes and operators are known. What it gives is in source order: one operand
more than operators, each operator between what is below the first and the second child of its
node; the leaves below the operands are the leaves below the path, in order; no operand is an
operator of the class of the chain with two children; and where the path has no class, it is
the only operand. -/
theorem flatten_collects_inorder (P : Policy κ) (operatorOf : Node → Except PrintError String)
    (p : Path) :
    ((P.flatten operatorOf p).map fun c => (c.operands, c.operators)) = (do
      let k ← P.precedence (P.unwrap p).node
      let pieces ← P.inorder operatorOf k p
      return (operands pieces, operators pieces)) ∧
    ((∃ k, P.precedence (P.unwrap p).node = .ok k) →
      (∀ n : Node, n.children.length = 2 →
        (∃ k, P.precedence n = .ok k) ∧ ∃ s, operatorOf n = .ok s) →
      ∃ c, P.flatten operatorOf p = .ok c) ∧
    ∀ k c, P.precedence (P.unwrap p).node = .ok k → P.flatten operatorOf p = .ok c →
      (∃ pieces, P.inorder operatorOf k p = .ok pieces ∧ c.operands = operands pieces ∧
        c.operators = operators pieces ∧ SourceOrder pieces) ∧
      c.operands.length = c.operators.length + 1 ∧
      c.operands.flatMap Path.leaves = p.leaves ∧
      (∀ k', k = some k' → ∀ q ∈ c.operands, ¬ P.Opens k' q) ∧
      (k = none → c.operands = [p] ∧ c.operators = []) := by
  have heq := P.flatten_eq_inorder operatorOf p
  refine ⟨heq, ?_, ?_⟩
  · rintro ⟨k, hk⟩ htwo
    obtain ⟨pieces, hpieces⟩ : ∃ pieces, P.inorder operatorOf k p = .ok pieces := by
      cases k with
      | none => exact ⟨_, inorder_none p⟩
      | some k => exact exists_inorder htwo k p
    rw [hk, ok_bind, hpieces, ok_bind] at heq
    obtain ⟨c, hc, -⟩ := map_eq_ok_iff.mp heq
    exact ⟨c, hc⟩
  · intro k c hk hc
    rw [hc, hk, ok_bind] at heq
    obtain ⟨pieces, hpieces, hsplit⟩ := bind_eq_ok_iff.mp heq.symm
    obtain ⟨hoperands, hoperators⟩ := Prod.mk.inj (Except.ok.inj hsplit)
    rw [← hoperands, ← hoperators]
    cases k with
    | none =>
      rw [inorder_none] at hpieces
      cases hpieces
      exact ⟨⟨_, inorder_none p, rfl, rfl, .operand p⟩, rfl, List.append_nil _, nofun,
        fun _ => ⟨rfl, rfl⟩⟩
    | some k =>
      have horder := sourceOrder_of_inorder hpieces
      refine ⟨⟨pieces, hpieces, rfl, rfl, horder⟩, horder.length_operands,
        flatMap_leaves_operands hpieces, ?_, nofun⟩
      rintro k' ⟨⟩
      exact not_opens_of_mem_operands hpieces

/-- A chain of sums to both sides, with a wrapper around one of them and a product that is not
opened. -/
theorem flatten_collects_inorder_sums :
    let P : Policy String :=
      { binary := ["binary"], transparent := ["wrapper"], classOf := fun n => .ok n.text }
    let operatorOf : Node → Except PrintError String := fun n => .ok n.textOrEmpty
    let leaf (s : String) : Node := ⟨"name", [], some s, none, none⟩
    let op (s : String) (l r : Node) : Node := ⟨"binary", [l, r], some s, none, none⟩
    let p : Path := .root (op "+" (op "+" (leaf "a") (leaf "b"))
      ⟨"wrapper", [op "+" (op "*" (leaf "c") (leaf "d")) (leaf "e")], none, none, none⟩)
    ∃ c, P.flatten operatorOf p = .ok c ∧ c.operands.length = c.operators.length + 1 ∧
      c.operands.flatMap Path.leaves = p.leaves ∧ ∀ q ∈ c.operands, ¬ P.Opens "+" q := by
  intro P operatorOf leaf op p
  have hunwrap : P.unwrap p = p := by rw [unwrap]; rfl
  have hclass : P.precedence (P.unwrap p).node = .ok (some "+") := by rw [hunwrap]; rfl
  have hknown (n : Node) : (∃ k, P.precedence n = .ok k) ∧ ∃ s, operatorOf n = .ok s := by
    refine ⟨?_, _, rfl⟩
    rw [precedence]
    split
    · exact ⟨_, rfl⟩
    · exact ⟨_, rfl⟩
  obtain ⟨-, hexists, hfacts⟩ := P.flatten_collects_inorder operatorOf p
  obtain ⟨c, hc⟩ := hexists ⟨_, hclass⟩ fun n _ => hknown n
  obtain ⟨-, hlength, hleaves, hopens, -⟩ := hfacts _ c hclass hc
  exact ⟨c, hc, hlength, hleaves, hopens _ rfl⟩

end Policy

end Typeset
