import Cqasm.Source.Location

/-!
# The order of points

Reading order is a linear order of the points of a file. So a list of points has one latest point,
whichever way one looks for it (`Point.IsLatest.eq`).
-/

set_option autoImplicit false

namespace Cqasm

namespace Point

/-- A point comes before another one in reading order. -/
def Before (p q : Point) : Prop :=
  p.line < q.line ∨ p.line = q.line ∧ p.column < q.column

instance (p q : Point) : Decidable (p.Before q) :=
  inferInstanceAs (Decidable (p.line < q.line ∨ p.line = q.line ∧ p.column < q.column))

variable {p q r : Point} {points others : List Point}

theorem Before.trans (h : p.Before q) (h' : q.Before r) : p.Before r := by
  unfold Before at *
  omega

theorem not_before_self (p : Point) : ¬p.Before p := by
  unfold Before
  omega

theorem le_refl (p : Point) : p ≤ p := by
  show p.line < p.line ∨ p.line = p.line ∧ p.column ≤ p.column
  omega

theorem le_trans (h : p ≤ q) (h' : q ≤ r) : p ≤ r := by
  have : p.line < q.line ∨ p.line = q.line ∧ p.column ≤ q.column := h
  have : q.line < r.line ∨ q.line = r.line ∧ q.column ≤ r.column := h'
  show p.line < r.line ∨ p.line = r.line ∧ p.column ≤ r.column
  omega

theorem le_antisymm (h : p ≤ q) (h' : q ≤ p) : p = q := by
  obtain ⟨line, column⟩ := p
  obtain ⟨line', column'⟩ := q
  have : line < line' ∨ line = line' ∧ column ≤ column' := h
  have : line' < line ∨ line' = line ∧ column' ≤ column := h'
  rw [Point.mk.injEq]
  omega

theorem le_of_not_le (h : ¬p ≤ q) : q ≤ p := by
  have : ¬(p.line < q.line ∨ p.line = q.line ∧ p.column ≤ q.column) := h
  show q.line < p.line ∨ q.line = p.line ∧ q.column ≤ p.column
  omega

theorem line_le (h : p ≤ q) : p.line ≤ q.line := by
  have : p.line < q.line ∨ p.line = q.line ∧ p.column ≤ q.column := h
  omega

theorem Before.le (h : p.Before q) : p ≤ q := by
  unfold Before at h
  show p.line < q.line ∨ p.line = q.line ∧ p.column ≤ q.column
  omega

theorem Before.not_le (h : p.Before q) : ¬q ≤ p := by
  unfold Before at h
  intro h'
  have : q.line < p.line ∨ q.line = p.line ∧ q.column ≤ p.column := h'
  omega

theorem before_of_le_of_before (h : p ≤ q) (h' : q.Before r) : p.Before r := by
  have : p.line < q.line ∨ p.line = q.line ∧ p.column ≤ q.column := h
  unfold Before at *
  omega

/-! ## The later of two points -/

theorem max_eq_right (h : p ≤ q) : max p q = q :=
  if_pos h

theorem max_eq_or (p q : Point) : max p q = p ∨ max p q = q := by
  show (if p ≤ q then q else p) = p ∨ (if p ≤ q then q else p) = q
  split
  · exact .inr rfl
  · exact .inl rfl

theorem le_max_left (p q : Point) : p ≤ max p q := by
  show p ≤ if p ≤ q then q else p
  split
  · assumption
  · exact le_refl p

theorem le_max_right (p q : Point) : q ≤ max p q := by
  show q ≤ if p ≤ q then q else p
  split
  · exact le_refl q
  · next h => exact le_of_not_le h

theorem max_le (h : p ≤ r) (h' : q ≤ r) : max p q ≤ r := by
  rcases max_eq_or p q with hmax | hmax <;> rwa [hmax]

theorem max_assoc (p q r : Point) : max (max p q) r = max p (max q r) := by
  have hq : q ≤ max p (max q r) := le_trans (le_max_left q r) (le_max_right p _)
  have hr : r ≤ max p (max q r) := le_trans (le_max_right q r) (le_max_right p _)
  have hp : p ≤ max (max p q) r := le_trans (le_max_left p q) (le_max_left _ r)
  have hq' : q ≤ max (max p q) r := le_trans (le_max_right p q) (le_max_left _ r)
  exact le_antisymm (max_le (max_le (le_max_left _ _) hq) hr)
    (max_le hp (max_le hq' (le_max_right _ _)))

/-! ## The latest of many points -/

/-- A point is the latest one of a list. -/
structure IsLatest (point : Point) (points : List Point) : Prop where
  mem : point ∈ points
  le : ∀ other ∈ points, other ≤ point

/-- A list has one latest point, and no other list with the same points has a different one. -/
theorem IsLatest.eq (h : p.IsLatest points) (h' : q.IsLatest others)
    (hsame : ∀ point, point ∈ points ↔ point ∈ others) : p = q :=
  le_antisymm (h'.le p ((hsame p).1 h.mem)) (h.le q ((hsame q).2 h'.mem))

/-- Among more points the latest one is at least as late. -/
theorem IsLatest.mono (h : p.IsLatest points) (h' : q.IsLatest others)
    (hle : ∀ point ∈ points, ∃ other ∈ others, point ≤ other) : p ≤ q := by
  obtain ⟨other, hother, hpoint⟩ := hle p h.mem
  exact le_trans hpoint (h'.le other hother)

/-- Going through points one by one, always keeping the later one, ends at the latest. -/
theorem isLatest_foldl (p : Point) (points : List Point) :
    (points.foldl max p).IsLatest (p :: points) := by
  induction points generalizing p with
  | nil => exact ⟨List.mem_singleton.2 rfl, fun other h => List.mem_singleton.1 h ▸ le_refl _⟩
  | cons q points ih =>
    obtain ⟨hmem, hle⟩ := ih (max p q)
    have hmax : max p q ≤ points.foldl max (max p q) := hle _ List.mem_cons_self
    refine ⟨?_, fun other hother => ?_⟩
    · rcases List.mem_cons.1 hmem with h | h
      · rw [List.foldl_cons, h]
        rcases max_eq_or p q with h | h <;> rw [h] <;> simp
      · exact List.mem_cons_of_mem p (List.mem_cons_of_mem q h)
    · rcases List.mem_cons.1 hother with rfl | hother
      · exact le_trans (le_max_left _ q) hmax
      · rcases List.mem_cons.1 hother with rfl | hother
        · exact le_trans (le_max_right p _) hmax
        · exact hle other (List.mem_cons_of_mem _ hother)

/-! ## Known coordinates -/

/-- Both coordinates of the point are known. -/
def Known (point : Point) : Prop :=
  1 ≤ point.line ∧ 1 ≤ point.column

instance (point : Point) : Decidable point.Known :=
  inferInstanceAs (Decidable (_ ∧ _))

end Point

/-- All four coordinates of the range are known. -/
def Location.Known (range : Location) : Prop :=
  range.first.Known ∧ range.last.Known

instance (range : Location) : Decidable range.Known :=
  inferInstanceAs (Decidable (_ ∧ _))

end Cqasm
