import Cqasm.Proofs.Points
import Mathlib.Data.List.Induction

/-!
# Growing and spanning locations

However a location came about, it does not end before it starts (`LocationUse.ordered_after`). From
then on the order of points decides: a range whose start is known grows up to the latest of the
points it is to cover, so neither their order nor their number matters (`Location.growsTo_growAll`,
`Location.GrowsTo.eq`).

Locations are changed in place, and others may hold on to them. Hence a use of locations is told
from what it makes of all the locations there are: only growing changes one that exists, and only
the one that is grown.
-/

set_option autoImplicit false

namespace Cqasm

/-! ## One location -/

namespace Location

variable {range a b : Location} {point : Point} {points others : List Point}

theorem first_le_last_ofBounds (file : String) (first last : Point) :
    (ofBounds file first last).first ≤ (ofBounds file first last).last :=
  Point.le_max_left first last

/-- A location that does not end before it starts is the one built from its own bounds. -/
theorem ofBounds_self (h : range.first ≤ range.last) :
    ofBounds range.file range.first range.last = range := by
  rw [ofBounds, Point.max_eq_right h]

theorem first_le_last_grow (h : range.first ≤ range.last) (point : Point) :
    (range.grow point).first ≤ (range.grow point).last := by
  unfold grow
  split
  · exact h
  · split
    · exact Point.le_refl point
    · exact Point.le_trans h (Point.le_max_left _ _)

theorem grow_of_nonpos (h : point.line ≤ 0) : range.grow point = range :=
  if_pos h

theorem grow_of_pos (hline : 1 ≤ range.first.line) (hpoint : 1 ≤ point.line) :
    range.grow point = { range with last := max range.last point } := by
  rw [grow, if_neg (by omega), if_neg (by omega)]

/-- The range grown to cover every point of a list, one after the other. -/
def growAll (range : Location) (points : List Point) : Location :=
  points.foldl grow range

theorem growAll_eq (hline : 1 ≤ range.first.line) (hpoints : ∀ point ∈ points, 1 ≤ point.line) :
    range.growAll points = { range with last := points.foldl max range.last } := by
  induction points generalizing range with
  | nil => rfl
  | cons point points ih =>
    obtain ⟨hpoint, hpoints⟩ := List.forall_mem_cons.1 hpoints
    rw [growAll, List.foldl_cons, grow_of_pos hline hpoint]
    exact ih hline hpoints

/-- What a range is to become when it grows to cover points: it starts where it did, in the same
file, and ends at the latest of the points and its old end. -/
structure GrowsTo (range : Location) (points : List Point) (grown : Location) : Prop where
  file_eq : grown.file = range.file
  first_eq : grown.first = range.first
  isLatest : grown.last.IsLatest (range.last :: points)

theorem growsTo_growAll (hline : 1 ≤ range.first.line)
    (hpoints : ∀ point ∈ points, 1 ≤ point.line) : range.GrowsTo points (range.growAll points) := by
  rw [growAll_eq hline hpoints]
  exact ⟨rfl, rfl, Point.isLatest_foldl range.last points⟩

/-- What a range grows to is known from the points there are. -/
theorem GrowsTo.eq (ha : range.GrowsTo points a) (hb : range.GrowsTo others b)
    (hsame : ∀ point, point ∈ points ↔ point ∈ others) : a = b := by
  have hlast : a.last = b.last :=
    ha.isLatest.eq hb.isLatest fun point => by rw [List.mem_cons, List.mem_cons, hsame]
  obtain ⟨file, first, last⟩ := a
  rw [Location.mk.injEq]
  exact ⟨ha.file_eq.trans hb.file_eq.symm, ha.first_eq.trans hb.first_eq.symm, hlast⟩

/-- Points that are covered already change nothing. -/
theorem growAll_of_covered (hline : 1 ≤ range.first.line)
    (hpoints : ∀ point ∈ points, 1 ≤ point.line)
    (hcovered : ∀ point ∈ points, point ≤ range.last) : range.growAll points = range := by
  have hself : range.GrowsTo points range := by
    refine ⟨rfl, rfl, List.mem_cons_self, fun other hother => ?_⟩
    rcases List.mem_cons.1 hother with rfl | hother
    · exact Point.le_refl _
    · exact hcovered other hother
  exact (growsTo_growAll hline hpoints).eq hself fun _ => Iff.rfl

theorem through_assoc (a : Location) {b : Location} (c : Location) (ha : 1 ≤ a.first.line)
    (hb : 1 ≤ b.first.line) : (a.through b).through c = a.through (b.through c) := by
  unfold through
  by_cases hc : 1 ≤ c.last.line
  · by_cases hline : 1 ≤ b.last.line
    · have hmax : 1 ≤ (max b.last c.last).line :=
        Int.le_trans hline (Point.line_le (Point.le_max_left _ _))
      calc (a.grow b.last).grow c.last
          = { a with last := max (max a.last b.last) c.last } := by
            rw [grow_of_pos ha hline]
            exact grow_of_pos ha hc
        _ = { a with last := max a.last (max b.last c.last) } := by rw [Point.max_assoc]
        _ = a.grow (b.grow c.last).last := by
            rw [grow_of_pos hb hc]
            exact (grow_of_pos ha hmax).symm
    · have hstay : a.grow b.last = a := grow_of_nonpos (by omega)
      have hle : b.last ≤ c.last := .inl (by omega)
      rw [hstay, grow_of_pos hb hc, Point.max_eq_right hle]
  · have hstay (range : Location) : range.grow c.last = range := grow_of_nonpos (by omega)
    rw [hstay, hstay]

end Location

/-! ## All the locations there are -/

/-- One use of locations, which are known by the order in which they were built: one is built from
bounds, one is grown in place, or one is built that spans two others. -/
inductive LocationUse
  | build (file : String) (first last : Point)
  | grow (index : Nat) (point : Point)
  | span (start stop : Nat)
  deriving DecidableEq, Repr

namespace LocationUse

/-- The locations there are after one more use. What is to span two of them is first built with the
bounds of the one and then grown up to the end of the other. -/
def carryOut (kept : List Location) : LocationUse → List Location
  | build file first last => kept ++ [.ofBounds file first last]
  | grow index point => kept.modify index (·.grow point)
  | span start stop =>
    match kept[start]?, kept[stop]? with
    | some a, some b =>
      (kept ++ [Location.ofBounds a.file a.first a.last]).modify kept.length (·.grow b.last)
    | _, _ => kept

/-- The locations there are after a row of uses. -/
def after (uses : List LocationUse) : List Location :=
  uses.foldl carryOut []

theorem after_concat (uses : List LocationUse) (use : LocationUse) :
    after (uses ++ [use]) = use.carryOut (after uses) := by
  rw [after, List.foldl_append]
  rfl

/-- None of the locations ends before it starts. -/
def Ordered (kept : List Location) : Prop :=
  ∀ range ∈ kept, range.first ≤ range.last

variable {kept : List Location} {a b : Location} {start stop : Nat}

theorem Ordered.modify (h : Ordered kept) (index : Nat) (point : Point) :
    Ordered (kept.modify index (·.grow point)) := by
  intro range hrange
  obtain ⟨i, hi⟩ := List.mem_iff_getElem?.1 hrange
  rw [List.getElem?_modify] at hi
  obtain ⟨old, hold, rfl⟩ := Option.map_eq_some_iff.1 hi
  have hle := h old (List.mem_of_getElem? hold)
  split
  · exact Location.first_le_last_grow hle point
  · exact hle

theorem Ordered.build (h : Ordered kept) (file : String) (first last : Point) :
    Ordered (kept ++ [.ofBounds file first last]) := by
  intro range hrange
  rcases List.mem_append.1 hrange with hrange | hrange
  · exact h range hrange
  · rw [List.mem_singleton.1 hrange]
    exact Location.first_le_last_ofBounds file first last

/-- No use of locations makes one end before it starts. -/
theorem Ordered.carryOut (h : Ordered kept) (use : LocationUse) : Ordered (use.carryOut kept) := by
  cases use with
  | build file first last => exact h.build file first last
  | grow index point => exact h.modify index point
  | span start stop =>
    simp only [LocationUse.carryOut]
    split
    · exact (h.build _ _ _).modify _ _
    · exact h

theorem ordered_after (uses : List LocationUse) : Ordered (after uses) := by
  induction uses using List.reverseRecOn with
  | nil => exact fun _ h => nomatch h
  | append_singleton uses use ih =>
    rw [after_concat]
    exact ih.carryOut use

/-- A location changes only when it is grown itself. -/
theorem carryOut_frame (kept : List Location) (use : LocationUse) {index : Nat}
    (hindex : index < kept.length) (huse : ∀ point, use ≠ .grow index point) :
    (use.carryOut kept)[index]? = kept[index]? := by
  cases use with
  | build file first last => exact List.getElem?_append_left hindex
  | grow other point =>
    have hne : other ≠ index := fun h => huse point (h ▸ rfl)
    exact List.getElem?_modify_ne _ _ hne
  | span start stop =>
    simp only [carryOut]
    split
    · rw [List.getElem?_modify_ne _ _ (by omega), List.getElem?_append_left hindex]
    · rfl

/-- What spans two locations is one more location. -/
theorem carryOut_span (h : Ordered kept) (hstart : kept[start]? = some a)
    (hstop : kept[stop]? = some b) :
    (LocationUse.span start stop).carryOut kept = kept ++ [a.through b] := by
  simp only [carryOut, hstart, hstop]
  rw [Location.ofBounds_self (h a (List.mem_of_getElem? hstart)),
    List.modify_eq_take_cons_drop (by simp)]
  simp [Location.through]

end LocationUse

/-! ## The algebra -/

/-- Every location there is after a row of uses has its end behind its start. What spans two of them
is one more location, and no use ever changes one that it does not grow. A range whose start is
known grows by points up to the latest of them: growing again by what it covers changes nothing, any
list of the same points comes to the same, and a range that reaches further, or more points, reach
at least as far. Spanning is associative. -/
theorem location_algebra :
    (∀ uses, ∀ range ∈ LocationUse.after uses, range.first ≤ range.last) ∧
    (∀ (uses : List LocationUse) (start stop : Nat) (a b : Location),
      (LocationUse.after uses)[start]? = some a → (LocationUse.after uses)[stop]? = some b →
      LocationUse.after (uses ++ [.span start stop]) = LocationUse.after uses ++ [a.through b]) ∧
    (∀ (uses : List LocationUse) (use : LocationUse) (index : Nat),
      index < (LocationUse.after uses).length → (∀ point, use ≠ .grow index point) →
      (LocationUse.after (uses ++ [use]))[index]? = (LocationUse.after uses)[index]?) ∧
    (∀ (range : Location) (points : List Point), 1 ≤ range.first.line →
      (∀ point ∈ points, 1 ≤ point.line) →
      range.GrowsTo points (range.growAll points) ∧
      (∀ others : List Point, others ⊆ points →
        (range.growAll points).growAll others = range.growAll points) ∧
      (∀ others : List Point, (∀ point, point ∈ points ↔ point ∈ others) →
        range.growAll points = range.growAll others) ∧
      ∀ (wider : Location) (others : List Point), 1 ≤ wider.first.line →
        (∀ point ∈ others, 1 ≤ point.line) → range.last ≤ wider.last → points ⊆ others →
        (range.growAll points).last ≤ (wider.growAll others).last) ∧
    ∀ a b c : Location, 1 ≤ a.first.line → 1 ≤ b.first.line → 1 ≤ c.first.line →
      (a.through b).through c = a.through (b.through c) := by
  -- Growing to points is taking a maximum, from which the last four facts follow.
  refine ⟨LocationUse.ordered_after, ?_, ?_, ?_,
    fun a b c ha hb _ => a.through_assoc c ha hb⟩
  · intro uses start stop a b hstart hstop
    rw [LocationUse.after_concat]
    exact LocationUse.carryOut_span (LocationUse.ordered_after uses) hstart hstop
  · intro uses use index hindex huse
    rw [LocationUse.after_concat]
    exact LocationUse.carryOut_frame _ use hindex huse
  · intro range points hline hpoints
    have hgrown := Location.growsTo_growAll hline hpoints
    refine ⟨hgrown, fun others hothers => ?_, fun others hsame => ?_, ?_⟩
    · refine Location.growAll_of_covered (hgrown.first_eq ▸ hline)
        (fun point hpoint => hpoints point (hothers hpoint)) fun point hpoint => ?_
      exact hgrown.isLatest.le point (List.mem_cons_of_mem _ (hothers hpoint))
    · have hothers : ∀ point ∈ others, 1 ≤ point.line :=
        fun point hpoint => hpoints point ((hsame point).2 hpoint)
      exact hgrown.eq (Location.growsTo_growAll hline hothers) hsame
    · intro wider others hwide hothers hlast hsubset
      have hmore := Location.growsTo_growAll hwide hothers
      refine hgrown.isLatest.mono hmore.isLatest fun point hpoint => ?_
      rcases List.mem_cons.1 hpoint with rfl | hpoint
      · exact ⟨wider.last, List.mem_cons_self, hlast⟩
      · exact ⟨point, List.mem_cons_of_mem _ (hsubset hpoint), Point.le_refl _⟩

/-- Six points, in two orders and within a wider range, and two locations that are spanned. -/
theorem location_algebra_six_points :
    let range : Location := ⟨"a.cq", ⟨2, 2⟩, ⟨2, 2⟩⟩
    let wider : Location := ⟨"a.cq", ⟨1, 1⟩, ⟨6, 1⟩⟩
    let points : List Point := [⟨3, 8⟩, ⟨2, 9⟩, ⟨5, 1⟩, ⟨4, 20⟩, ⟨5, 3⟩, ⟨3, 1⟩]
    let uses : List LocationUse := [.build "a.cq" ⟨1, 1⟩ ⟨1, 3⟩, .build "a.cq" ⟨2, 5⟩ ⟨2, 8⟩]
    (range.growAll points = ⟨"a.cq", ⟨2, 2⟩, ⟨5, 3⟩⟩ ∧
      (range.growAll points).growAll points = range.growAll points ∧
      range.growAll points = range.growAll points.reverse ∧
      (range.growAll points).last ≤ (wider.growAll points).last) ∧
    LocationUse.after (uses ++ [.span 0 1]) =
      LocationUse.after uses ++ [⟨"a.cq", ⟨1, 1⟩, ⟨2, 8⟩⟩] ∧
    (LocationUse.after (uses ++ [.grow 1 ⟨3, 1⟩]))[0]? = (LocationUse.after uses)[0]? ∧
    (range.through wider).through range = range.through (wider.through range) := by
  intro range wider points uses
  obtain ⟨-, hspan, hframe, hgrow, hassoc⟩ := location_algebra
  have hpoints : ∀ point ∈ points, 1 ≤ point.line := by decide
  obtain ⟨-, hagain, hsame, hmono⟩ := hgrow range points (by decide) hpoints
  exact ⟨⟨by decide, hagain points (List.Subset.refl _), hsame _ (by simp),
    hmono wider points (by decide) hpoints (by decide) (List.Subset.refl _)⟩,
    hspan uses 0 1 ⟨"a.cq", ⟨1, 1⟩, ⟨1, 3⟩⟩ ⟨"a.cq", ⟨2, 5⟩, ⟨2, 8⟩⟩ rfl rfl,
    hframe uses (.grow 1 ⟨3, 1⟩) 0 (by decide) (by simp),
    hassoc range wider range (by decide) (by decide) (by decide)⟩

end Cqasm
