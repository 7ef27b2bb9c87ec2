import Mathlib.Data.Int.ModEq
import Mathlib.Tactic.Linarith

/-!
# Arcs of a circle of integers

The integers modulo `N` stand on a circle. `dist N a b` is the way from `a` to `b` in the direction
of the successor; an arc is given by its first point and its width. Arcs of at most `M` points after
the first, with `M` less than half of the circle, do not overlap themselves: one contains another
where it starts before it and is wide enough. The arc that such an arc and a point need, if there is
one, is unique.
-/

namespace Ese.Circle

section
variable (N : Int)

/-- The way from `a` to `b`. -/
def dist (a b : Int) : Int := (b - a) % N

/-- The point `x` is on the arc of width `d` from `a` on. -/
def OnArc (a d x : Int) : Prop := dist N a x ≤ d

variable {N}

theorem dist_nonneg (hN : 0 < N) (a b : Int) : 0 ≤ dist N a b := Int.emod_nonneg _ hN.ne'

theorem dist_lt (hN : 0 < N) (a b : Int) : dist N a b < N := Int.emod_lt_of_pos _ hN

theorem dist_self (a : Int) : dist N a a = 0 := by rw [dist, Int.sub_self, Int.zero_emod]

/-- A number of the circle by a number near it. -/
theorem emod_eq {z : Int} (h : -N ≤ z) (h' : z < 2 * N) :
    z % N = if z < 0 then z + N else if z < N then z else z - N := by
  split_ifs with hneg hlt
  · rw [← Int.add_emod_right, Int.emod_eq_of_lt (by omega) (by omega)]
  · exact Int.emod_eq_of_lt (by omega) hlt
  · rw [← Int.sub_emod_right, Int.emod_eq_of_lt (by omega) (by omega)]

theorem dist_add_emod (a b c : Int) : dist N a c = (dist N a b + dist N b c) % N := by
  rw [dist, dist, dist, ← Int.add_emod]
  congr 1
  omega

/-- The way over a point between is the whole way, or goes round once more. -/
theorem dist_add (hN : 0 < N) (a b c : Int) :
    dist N a c = if dist N a b + dist N b c < N then dist N a b + dist N b c
      else dist N a b + dist N b c - N := by
  have hab := dist_nonneg hN a b
  have hbc := dist_nonneg hN b c
  have hab' := dist_lt hN a b
  have hbc' := dist_lt hN b c
  rw [dist_add_emod a b c, emod_eq (by omega) (by omega), if_neg (by omega)]

/-- The way between two points by the ways to them from a third. -/
theorem dist_sub (hN : 0 < N) (a b c : Int) :
    dist N b c = if dist N a b ≤ dist N a c then dist N a c - dist N a b
      else dist N a c - dist N a b + N := by
  have habc := dist_add hN a b c
  have hab := dist_nonneg hN a b
  have hab' := dist_lt hN a b
  have hbc := dist_nonneg hN b c
  have hbc' := dist_lt hN b c
  split_ifs at habc ⊢ <;> omega

theorem dist_congr {a a' b b' : Int} (ha : a % N = a' % N) (hb : b % N = b' % N) :
    dist N a b = dist N a' b' := by
  rw [dist, dist, Int.sub_emod, ha, hb, ← Int.sub_emod]

/-! ## Arcs -/

variable {M a a' d d' x : Int}

/-- The arc of width `d'` from `a'` on contains the one of width `d` from `a` on and the point `x`,
and is no wider than `M`. -/
structure Extends (N M a d x a' d' : Int) : Prop where
  width : d' ≤ M
  point : OnArc N a' d' x
  arc : ∀ y, OnArc N a d y → OnArc N a' d' y

/-- An arc contains another where it starts before it and ends after it. -/
theorem subset_iff (hN : 2 * M < N) (hd : 0 ≤ d) (hdM : d ≤ M) (hd' : d' ≤ M) :
    (∀ y, OnArc N a d y → OnArc N a' d' y) ↔ dist N a' a + d ≤ d' := by
  have hpos : 0 < N := by omega
  have hgap := dist_nonneg hpos a' a
  constructor
  · intro h
    have hfirst : dist N a' a ≤ d' := h a (by rw [OnArc, dist_self]; exact hd)
    have hlast : dist N a (a + d) = d := by
      rw [dist, add_sub_cancel_left, Int.emod_eq_of_lt hd (by omega)]
    have hend : dist N a' (a + d) ≤ d' := h (a + d) hlast.le
    rw [dist_add hpos a' a, hlast] at hend
    split_ifs at hend <;> omega
  · intro h y hy
    rw [OnArc] at hy ⊢
    rw [dist_add hpos a' a y, if_pos (by omega)]
    omega

/-- An arc can be extended by the points that are not too far from its first point or from its last
one. -/
theorem exists_extends_iff (hN : 2 * M < N) (hd : 0 ≤ d) (hdM : d ≤ M) :
    (∃ a' d', Extends N M a d x a' d') ↔ dist N a x ≤ M ∨ dist N x a + d ≤ M := by
  have hpos : 0 < N := by omega
  constructor
  · rintro ⟨a', d', hwidth, hpoint, harc⟩
    rw [subset_iff hN hd hdM hwidth] at harc
    rw [OnArc] at hpoint
    have hgap := dist_nonneg hpos a' a
    have hnonneg := dist_nonneg hpos a' x
    rcases le_or_gt (dist N a' a) (dist N a' x) with hle | hlt
    · left
      rw [dist_sub hpos a' a x, if_pos hle]
      omega
    · right
      rw [dist_sub hpos a' x a, if_pos hlt.le]
      omega
  · rintro (h | h)
    · have hax := dist_nonneg hpos a x
      refine ⟨a, max d (dist N a x), max_le hdM h, le_max_right _ _, fun y hy =>
        hy.trans (le_max_left _ _)⟩
    · have hxa := dist_nonneg hpos x a
      refine ⟨x, dist N x a + d, h, ?_, (subset_iff hN hd hdM h).2 le_rfl⟩
      rw [OnArc, dist_self]
      omega

/-- The extension to the point behind the last one is contained in every other. -/
theorem extends_last (hN : 2 * M < N) (hd : 0 ≤ d) (hdM : d ≤ M) (hx : dist N a x ≤ M)
    (hdx : d ≤ dist N a x) :
    Extends N M a d x a (dist N a x) ∧
      ∀ a' d', Extends N M a d x a' d' → ∀ y, OnArc N a (dist N a x) y → OnArc N a' d' y := by
  have hpos : 0 < N := by omega
  refine ⟨⟨hx, le_rfl, fun y hy => hy.trans hdx⟩, ?_⟩
  rintro a' d' ⟨hwidth, hpoint, harc⟩
  rw [subset_iff hN hd hdM hwidth] at harc
  rw [subset_iff hN (hd.trans hdx) hx hwidth]
  rw [OnArc] at hpoint
  have hgap := dist_nonneg hpos a' a
  have hnonneg := dist_nonneg hpos a' x
  have hax := dist_sub hpos a' a x
  split_ifs at hax <;> omega

/-- The extension to the point before the first one is contained in every other. -/
theorem extends_first (hpos : 0 < N) (hN : 2 * M < N) (hd : 0 ≤ d) (hx : dist N x a + d ≤ M) :
    Extends N M a d x x (dist N x a + d) ∧
      ∀ a' d', Extends N M a d x a' d' → ∀ y, OnArc N x (dist N x a + d) y → OnArc N a' d' y := by
  have hxa := dist_nonneg hpos x a
  have hdM : d ≤ M := by omega
  refine ⟨⟨hx, ?_, (subset_iff hN hd hdM hx).2 le_rfl⟩, ?_⟩
  · rw [OnArc, dist_self]
    omega
  · rintro a' d' ⟨hwidth, hpoint, harc⟩
    rw [subset_iff hN hd hdM hwidth] at harc
    rw [subset_iff hN (by omega) hx hwidth]
    rw [OnArc] at hpoint
    have hgap := dist_nonneg hpos a' a
    have hnonneg := dist_nonneg hpos a' x
    have hax := dist_sub hpos a' x a
    split_ifs at hax <;> omega

end

end Ese.Circle
