import Typeset.Proofs.SourceText

/-!
# Positions and offsets in a source

A position is in a source when its row is one of the lines and its column does not lie behind the
end of that line. The positions of a source are those at the ends of its front parts, one for each
number of characters, and they are in the order of these numbers. So a span of the source is the
stretch between two offsets. Two ways to find such a stretch agree with this: putting together the
pieces of the lines between two positions, and cutting the text of a node at the offsets of the
positions in that text.

## Main definitions

* `Position.IsIn` : a position of a source.
* `offsetOf` : the number of characters of a source in front of a position.
* `stretch` : the part of a source between two positions.

## Main results

* `isIn_iff_exists_positionAfter` : the positions of a source are the ends of its front parts.
* `offsetOf_le_of_le` : positions are in the order of their offsets.
* `extract_eq_stretch` : a span of the lines of a source is a stretch of the source.
* `cut_offsetIn_eq_stretch` : so is the part of a text of the source between two positions.
-/

namespace Typeset

open Text

/-- A position of a source: a row that the source has, and a column up to the end of that row. -/
def Position.IsIn (source : List Char) (p : Position) : Prop :=
  0 ≤ p.row ∧ 0 ≤ p.column ∧ ∃ l, (lines source)[p.row.toNat]? = some l ∧ p.column ≤ l.length

/-- The offset of a position in a source: the characters of the lines above it, each with the line
feed that ends it, and those in front of it in its own line. -/
def offsetOf (source : List Char) (p : Position) : Nat :=
  lengthOfLines ((lines source).take p.row.toNat) + p.column.toNat

/-- The part of a source between two positions. -/
def stretch (source : List Char) (a b : Position) : List Char :=
  (source.take (offsetOf source b)).drop (offsetOf source a)

/-! ### Lines of a text -/

/-- Dividing a text into lines is splitting it at its line feeds. -/
theorem lines_eq_splitOn (cs : List Char) : lines cs = cs.splitOn '\n' := by
  induction cs with
  | nil => rfl
  | cons c cs ih =>
    rw [List.splitOn_eq_splitOnP] at ih ⊢
    rw [lines, List.splitOnP_cons_eq_if_modifyHead, ← ih]
    by_cases hfeed : c = '\n'
    · simp [hfeed]
    · obtain ⟨l, ls, hlines⟩ := exists_lines_eq cs
      simp [hfeed, hlines]

/-- A text is its lines with a line feed between two of them. -/
theorem intercalate_lines (cs : List Char) : ['\n'].intercalate (lines cs) = cs := by
  rw [lines_eq_splitOn]
  exact List.intercalate_splitOn '\n'

theorem lastLine_newline_cons (cs : List Char) : lastLine ('\n' :: cs) = lastLine cs := by
  by_cases hcs : '\n' ∈ cs
  · exact lastLine_append_of_mem hcs ['\n']
  · rw [lastLine_of_not_mem hcs]
    exact lastLine_append_of_not_mem hcs ['\n']

/-- Where a text goes on, its lines but the last one stay as they are, and the last one goes on
with the first line of what follows. -/
theorem exists_lines_append (x : List Char) :
    ∃ front, front.length = x.count '\n' ∧
      ∀ {w l ls}, lines w = l :: ls → lines (x ++ w) = front ++ (lastLine x ++ l) :: ls := by
  induction x with
  | nil => exact ⟨[], rfl, fun h => h⟩
  | cons c x ih =>
    obtain ⟨front, hlength, happend⟩ := ih
    by_cases hfeed : c = '\n'
    · subst hfeed
      refine ⟨[] :: front, by simp [hlength], fun hw => ?_⟩
      rw [List.cons_append, lines, if_pos rfl, happend hw, lastLine_newline_cons, List.cons_append]
    · rw [List.count_cons_of_ne hfeed]
      by_cases hx : '\n' ∈ x
      · -- the character belongs to the first of the lines that stay
        obtain ⟨first, others, rfl⟩ : ∃ first others, front = first :: others := by
          refine List.exists_cons_of_length_pos ?_
          rw [hlength]
          exact List.count_pos_iff.mpr hx
        refine ⟨(c :: first) :: others, hlength, fun hw => ?_⟩
        have hlast : lastLine (c :: x) = lastLine x := lastLine_append_of_mem hx [c]
        rw [List.cons_append, lines, if_neg hfeed, happend hw, hlast]
        rfl
      · obtain rfl : front = [] := by
          rw [← List.length_eq_zero_iff, hlength, List.count_eq_zero_of_not_mem hx]
        refine ⟨[], hlength, fun hw => ?_⟩
        have hlast : lastLine (c :: x) = c :: x :=
          lastLine_of_not_mem (List.not_mem_cons_of_ne_of_not_mem (Ne.symm hfeed) hx)
        rw [List.cons_append, lines, if_neg hfeed, happend hw, hlast, lastLine_of_not_mem hx]
        rfl

/-! ### Positions at the ends of front parts -/

theorem positionAfter_append_of_mem {y : List Char} (h : '\n' ∈ y) (x : List Char) :
    positionAfter (x ++ y) = ⟨x.count '\n' + y.count '\n', (lastLine y).length⟩ := by
  rw [positionAfter, lastLine_append_of_mem h, List.count_append, Int.natCast_add]

theorem positionAfter_append_of_not_mem {y : List Char} (h : '\n' ∉ y) (x : List Char) :
    positionAfter (x ++ y) = ⟨x.count '\n', (lastLine x ++ y).length⟩ := by
  rw [positionAfter, lastLine_append_of_not_mem h, List.count_append,
    List.count_eq_zero_of_not_mem h, Nat.add_zero]

/-- The end of a text comes after the end of each shorter front part. -/
theorem positionAfter_lt_append (x : List Char) {y : List Char} (hy : y ≠ []) :
    positionAfter x < positionAfter (x ++ y) := by
  by_cases h : '\n' ∈ y
  · left
    have hpos := List.count_pos_iff.mpr h
    rw [positionAfter_append_of_mem h, positionAfter]
    dsimp only
    omega
  · right
    have hpos := List.length_pos_iff.mpr hy
    rw [positionAfter_append_of_not_mem h, positionAfter, List.length_append]
    refine ⟨rfl, ?_⟩
    dsimp only
    omega

/-- A row and a column of a source are reached after some of its characters. -/
theorem exists_positionAfter_eq {source l : List Char} {row column : Nat}
    (hl : (lines source)[row]? = some l) (hcolumn : column ≤ l.length) :
    ∃ x y, source = x ++ y ∧ positionAfter x = ⟨row, column⟩ := by
  induction source generalizing row column l with
  | nil =>
    obtain ⟨rfl, rfl⟩ : row = 0 ∧ l = [] := by
      cases row with
      | zero => simpa [lines, eq_comm] using hl
      | succ row => simp [lines] at hl
    obtain rfl : column = 0 := by simpa using hcolumn
    exact ⟨[], [], rfl, rfl⟩
  | cons c cs ih =>
    by_cases hfeed : c = '\n'
    · subst hfeed
      rw [lines, if_pos rfl] at hl
      cases row with
      | zero =>
        obtain rfl : l = [] := by simpa [eq_comm] using hl
        obtain rfl : column = 0 := by simpa using hcolumn
        exact ⟨[], '\n' :: cs, rfl, rfl⟩
      | succ row =>
        obtain ⟨x, y, rfl, hx⟩ := ih (by simpa using hl) hcolumn
        refine ⟨'\n' :: x, y, rfl, ?_⟩
        simp only [positionAfter, Position.mk.injEq, Int.natCast_inj] at hx
        rw [positionAfter, lastLine_newline_cons, List.count_cons_self, hx.1, hx.2]
    · obtain ⟨first, others, hlines⟩ := exists_lines_eq cs
      rw [lines, if_neg hfeed, hlines] at hl
      cases row with
      | zero =>
        obtain rfl : l = c :: first := by simpa [eq_comm] using hl
        cases column with
        | zero => exact ⟨[], c :: cs, rfl, rfl⟩
        | succ column =>
          have hfirst : (lines cs)[0]? = some first := by rw [hlines]; rfl
          obtain ⟨x, y, rfl, hx⟩ := ih hfirst (Nat.le_of_succ_le_succ hcolumn)
          refine ⟨c :: x, y, rfl, ?_⟩
          simp only [positionAfter, Position.mk.injEq, Int.natCast_inj] at hx
          have hnot : '\n' ∉ x := List.count_eq_zero.mp hx.1
          rw [lastLine_of_not_mem hnot] at hx
          rw [positionAfter, lastLine_of_not_mem
            (List.not_mem_cons_of_ne_of_not_mem (Ne.symm hfeed) hnot), List.count_cons_of_ne hfeed,
            hx.1, List.length_cons, hx.2]
      | succ row =>
        have hother : (lines cs)[row + 1]? = some l := by rw [hlines]; simpa using hl
        obtain ⟨x, y, rfl, hx⟩ := ih hother hcolumn
        refine ⟨c :: x, y, rfl, ?_⟩
        simp only [positionAfter, Position.mk.injEq, Int.natCast_inj] at hx
        have hmem : '\n' ∈ x := List.count_pos_iff.mp (by omega)
        have hlast : lastLine (c :: x) = lastLine x := lastLine_append_of_mem hmem [c]
        rw [positionAfter, hlast, List.count_cons_of_ne hfeed, hx.1, hx.2]

/-- The positions of a source are the ends of its front parts. -/
theorem isIn_iff_exists_positionAfter {source : List Char} {p : Position} :
    p.IsIn source ↔ ∃ x y, source = x ++ y ∧ positionAfter x = p := by
  constructor
  · rintro ⟨hrow, hcolumn, l, hl, hle⟩
    have hle' : p.column.toNat ≤ l.length := by omega
    obtain ⟨x, y, hsource, hx⟩ := exists_positionAfter_eq hl hle'
    refine ⟨x, y, hsource, hx.trans ?_⟩
    rw [Int.toNat_of_nonneg hrow, Int.toNat_of_nonneg hcolumn]
  · rintro ⟨x, y, rfl, rfl⟩
    obtain ⟨front, hlength, happend⟩ := exists_lines_append x
    obtain ⟨l, ls, hl⟩ := exists_lines_eq y
    refine ⟨Int.natCast_nonneg _, Int.natCast_nonneg _, lastLine x ++ l, ?_, ?_⟩
    · rw [happend hl, positionAfter, Int.toNat_natCast, ← hlength]
      simp
    · rw [positionAfter, List.length_append, Int.natCast_add]
      dsimp only
      omega

/-! ### Offsets -/

/-- The offset of the end of a front part is its number of characters. -/
theorem offsetOf_positionAfter (x y : List Char) :
    offsetOf (x ++ y) (positionAfter x) = x.length := by
  rw [offsetOf, positionAfter, Int.toNat_natCast, Int.toNat_natCast]
  exact lengthOfLines_take_lines x y

variable {source : List Char} {a b c d : Position}

theorem Position.IsIn.offsetOf_le (h : a.IsIn source) : offsetOf source a ≤ source.length := by
  obtain ⟨x, y, rfl, rfl⟩ := isIn_iff_exists_positionAfter.mp h
  rw [offsetOf_positionAfter, List.length_append]
  exact Nat.le_add_right _ _

/-- A position of a source is found again from its offset. -/
theorem Position.IsIn.positionAfter_take (h : a.IsIn source) :
    positionAfter (source.take (offsetOf source a)) = a := by
  obtain ⟨x, y, rfl, rfl⟩ := isIn_iff_exists_positionAfter.mp h
  rw [offsetOf_positionAfter, List.take_left]

/-- Positions of a source are in the order of their offsets. -/
theorem offsetOf_le_of_le (ha : a.IsIn source) (hb : b.IsIn source) (hab : a ≤ b) :
    offsetOf source a ≤ offsetOf source b := by
  by_contra hlt
  obtain ⟨y, hy⟩ : source.take (offsetOf source b) <+: source.take (offsetOf source a) :=
    List.take_prefix_take_left (by omega)
  have hne : y ≠ [] := by
    rintro rfl
    have := congrArg List.length hy
    simp only [List.append_nil, List.length_take] at this
    have := ha.offsetOf_le
    omega
  have hafter := positionAfter_lt_append (source.take (offsetOf source b)) hne
  rw [hy, ha.positionAfter_take, hb.positionAfter_take] at hafter
  have hle : a.row < b.row ∨ a.row = b.row ∧ a.column ≤ b.column := hab
  have hlt : b.row < a.row ∨ b.row = a.row ∧ b.column < a.column := hafter
  omega

/-- The source up to a position, and from there up to a later one. -/
theorem take_append_stretch (ha : a.IsIn source) (hb : b.IsIn source) (hab : a ≤ b) :
    source.take (offsetOf source a) ++ stretch source a b = source.take (offsetOf source b) := by
  have hle := offsetOf_le_of_le ha hb hab
  have htake : source.take (offsetOf source a) =
      (source.take (offsetOf source b)).take (offsetOf source a) := by
    rw [List.take_take, Nat.min_eq_left hle]
  rw [stretch, htake, List.take_append_drop]

/-- A stretch up to a position, and from there up to a later one. -/
theorem stretch_append_stretch (ha : a.IsIn source) (hb : b.IsIn source) (hc : c.IsIn source)
    (hab : a ≤ b) (hbc : b ≤ c) :
    stretch source a b ++ stretch source b c = stretch source a c := by
  have hle := offsetOf_le_of_le ha hb hab
  have hlength : offsetOf source a ≤ (source.take (offsetOf source b)).length := by
    have := hb.offsetOf_le
    rw [List.length_take]
    omega
  rw [stretch, ← List.drop_append_of_le_length hlength, take_append_stretch hb hc hbc, stretch]

/-! ### Spans -/

theorem element?_natCast {α : Type} (xs : List α) (i : Nat) : element? xs i = xs[i]? := by
  rw [element?, if_pos (Int.natCast_nonneg i), Int.toNat_natCast]

theorem cutFrom_append_left {α : Type} (xs ys : List α) : cutFrom (xs ++ ys) xs.length = ys := by
  rw [cutFrom, place_of_le (by simp), List.drop_left]

/-- A span inside of one line. -/
theorem extract_row (front back : List (List Char)) (l : List Char) (i j : Int) :
    (Span.mk ⟨front.length, i⟩ ⟨front.length, j⟩).extract (front ++ l :: back) =
      some (cut l i j) := by
  have hlt : ¬ ((front ++ l :: back).length : Int) ≤ front.length := by
    simp only [List.length_append, List.length_cons]
    omega
  rw [Span.extract, if_neg hlt, if_pos rfl, element?_natCast,
    List.getElem?_append_right (Nat.le_refl _), Nat.sub_self]
  rfl

/-- A span from one line to a later one: the rest of the first one, the lines between them, and
the front of the last one. -/
theorem extract_rows (front others back : List (List Char)) (first last : List Char) (i j : Int) :
    (Span.mk ⟨front.length, i⟩ ⟨(front.length + (others.length + 1) : Nat), j⟩).extract
        (front ++ first :: (others ++ last :: back)) =
      some (['\n'].intercalate (cutFrom first i :: (others ++ [cutBefore last j]))) := by
  have hfirst : element? (front ++ first :: (others ++ last :: back)) (front.length : Nat) =
      some first := by
    rw [element?_natCast, List.getElem?_append_right (Nat.le_refl _), Nat.sub_self]
    rfl
  have hlast : element? (front ++ first :: (others ++ last :: back))
      (front.length + (others.length + 1) : Nat) = some last := by
    rw [element?_natCast, List.getElem?_append_right (Nat.le_add_right _ _), Nat.add_sub_cancel_left,
      List.getElem?_cons_succ, List.getElem?_append_right (Nat.le_refl _), Nat.sub_self]
    rfl
  have hothers : cut (front ++ first :: (others ++ last :: back)) ((front.length : Nat) + 1)
      (front.length + (others.length + 1) : Nat) = others := by
    have hcut := cut_append_append (front ++ [first]) others (last :: back)
    simpa [Nat.add_assoc, Nat.add_comm 1] using hcut
  have hlt : ((front.length + (others.length + 1) : Nat) : Int) <
      (front ++ first :: (others ++ last :: back)).length := by
    simp only [List.length_append, List.length_cons]
    omega
  rw [Span.extract, if_neg (by dsimp only; omega), if_neg (by dsimp only; omega)]
  simp only [hfirst, hlast, hothers, if_pos hlt]
  rfl

/-- What stands in a source between the ends of two front parts is put together again from the
pieces of its lines. -/
theorem extract_positionAfter (x y z : List Char) :
    (Span.mk (positionAfter x) (positionAfter (x ++ y))).extract (lines (x ++ (y ++ z))) =
      some y := by
  obtain ⟨front, hfront, happend⟩ := exists_lines_append x
  obtain ⟨middle, hmiddle, happend'⟩ := exists_lines_append y
  obtain ⟨l, ls, hl⟩ := exists_lines_eq z
  have hyz := happend' hl
  by_cases h : '\n' ∈ y
  · obtain ⟨first, others, rfl⟩ : ∃ first others, middle = first :: others := by
      refine List.exists_cons_of_length_pos ?_
      rw [hmiddle]
      exact List.count_pos_iff.mpr h
    rw [List.cons_append] at hyz
    have hy : lines y = first :: (others ++ [lastLine y]) := by
      simpa using happend' (show lines [] = [] :: [] from rfl)
    rw [positionAfter_append_of_mem h, positionAfter, happend hyz, ← hfront, ← hmiddle,
      ← Int.natCast_add, List.length_cons, extract_rows, cutFrom_append_left, cutBefore_natCast,
      List.take_left, ← hy, intercalate_lines]
  · obtain rfl : middle = [] := by
      rw [← List.length_eq_zero_iff, hmiddle, List.count_eq_zero_of_not_mem h]
    rw [List.nil_append, lastLine_of_not_mem h] at hyz
    rw [positionAfter_append_of_not_mem h, positionAfter, happend hyz, ← hfront, extract_row,
      cut_append_append]

/-- A span of the lines of a source is the stretch of the source between its ends. -/
theorem extract_eq_stretch (ha : a.IsIn source) (hb : b.IsIn source) (hab : a ≤ b) :
    (Span.mk a b).extract (lines source) = some (stretch source a b) := by
  have hextract := extract_positionAfter (source.take (offsetOf source a)) (stretch source a b)
    (source.drop (offsetOf source b))
  rwa [← List.append_assoc, take_append_stretch ha hb hab, List.take_append_drop,
    ha.positionAfter_take, hb.positionAfter_take] at hextract

/-- In a stretch of the source, the offset of a position is the number of characters in front of
it. -/
theorem offsetIn_stretch (ha : a.IsIn source) (hb : b.IsIn source) (hc : c.IsIn source)
    (hab : a ≤ b) (hbc : b ≤ c) :
    offsetIn a (stretch source a c) b = (stretch source a b).length := by
  have hoffset := offsetIn_positionAfter (source.take (offsetOf source a)) (stretch source a b)
    (stretch source b c)
  rwa [take_append_stretch ha hb hab, ha.positionAfter_take, hb.positionAfter_take,
    stretch_append_stretch ha hb hc hab hbc] at hoffset

/-- Cutting a stretch of the source at the offsets of two positions gives the stretch between
them. -/
theorem cut_offsetIn_eq_stretch (ha : a.IsIn source) (hb : b.IsIn source) (hc : c.IsIn source)
    (hd : d.IsIn source) (hab : a ≤ b) (hbc : b ≤ c) (hcd : c ≤ d) :
    cut (stretch source a d) (offsetIn a (stretch source a d) b)
        (offsetIn a (stretch source a d) c) = stretch source b c := by
  have hac := Position.le_trans hab hbc
  rw [offsetIn_stretch ha hb hd hab (Position.le_trans hbc hcd), offsetIn_stretch ha hc hd hac hcd,
    ← stretch_append_stretch ha hc hd hac hcd, ← stretch_append_stretch ha hb hc hab hbc,
    List.append_assoc, cut_append_append]

end Typeset
