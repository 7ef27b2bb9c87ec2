import Mathlib.Order.Basic
import Mathlib.Order.Lattice

/-!
# The nearest place

Among the places of a set the nearest one is that whose value has the least distance to a target,
the last one of several (`Nearest`). It can be found by a walk over the places that keeps the
nearest one so far, and where the values increase it is found from the nearest of all places by a
walk away from it to the first place of the set.
-/

namespace Ese

/-- The distance of two numbers. -/
def absdiff (x y : Nat) : Nat := if x > y then x - y else y - x

/-- The distance to a larger number. -/
theorem absdiff_of_le {x z : Nat} (h : x ≤ z) : absdiff x z = z - x := if_neg (by omega)

/-- The distance to a smaller number. -/
theorem absdiff_of_ge {x z : Nat} (h : z ≤ x) : absdiff x z = x - z := by
  unfold absdiff
  split <;> omega

/-- The place `i` of `P` has the value nearest to `t`; no later one is as near. -/
structure Nearest (P : Nat → Prop) (f : Nat → Nat) (t i : Nat) : Prop where
  mem : P i
  le : ∀ j, P j → absdiff (f i) t ≤ absdiff (f j) t
  lt : ∀ j, i < j → P j → absdiff (f i) t < absdiff (f j) t

namespace Nearest

variable {P Q : Nat → Prop} {f : Nat → Nat} {t i j : Nat}

/-- There is at most one nearest. -/
theorem unique (h : Nearest P f t i) (h' : Nearest P f t j) : i = j := by
  rcases Nat.lt_trichotomy i j with hlt | heq | hgt
  · exact absurd (h.lt j hlt h'.mem) (Nat.not_lt.2 (h'.le i h.mem))
  · exact heq
  · exact absurd (h'.lt i hgt h.mem) (Nat.not_lt.2 (h.le j h'.mem))

/-! ## The walk over the places -/

/-- The only candidate is the nearest. -/
theorem single (hP : ∀ j, P j ↔ j = i) : Nearest P f t i := by
  refine ⟨(hP i).2 rfl, fun j hj => ?_, fun j hij hj => ?_⟩
  · rw [(hP j).1 hj]
  · exact absurd ((hP j).1 hj) (by omega)

/-- A place after all others takes over if it is as near. -/
theorem insert_above (h : Nearest P f t i) (hj : ∀ k, P k → k < j) (hQ : ∀ k, Q k ↔ P k ∨ k = j) :
    Nearest Q f t (if absdiff (f j) t ≤ absdiff (f i) t then j else i) := by
  split
  next hle =>
    refine ⟨(hQ j).2 (.inr rfl), fun k hk => ?_, fun k hjk hk => ?_⟩
    · rcases (hQ k).1 hk with hPk | rfl
      · exact hle.trans (h.le k hPk)
      · exact le_rfl
    · rcases (hQ k).1 hk with hPk | rfl
      · exact absurd (hj k hPk) (by omega)
      · exact absurd hjk (lt_irrefl k)
  next hgt =>
    refine ⟨(hQ i).2 (.inl h.mem), fun k hk => ?_, fun k hik hk => ?_⟩
    · rcases (hQ k).1 hk with hPk | rfl
      · exact h.le k hPk
      · omega
    · rcases (hQ k).1 hk with hPk | rfl
      · exact h.lt k hik hPk
      · omega

/-- A place before all others takes over if it is nearer. -/
theorem insert_below (h : Nearest P f t i) (hj : ∀ k, P k → j < k) (hQ : ∀ k, Q k ↔ P k ∨ k = j) :
    Nearest Q f t (if absdiff (f j) t < absdiff (f i) t then j else i) := by
  split
  next hlt =>
    refine ⟨(hQ j).2 (.inr rfl), fun k hk => ?_, fun k hjk hk => ?_⟩
    · rcases (hQ k).1 hk with hPk | rfl
      · exact hlt.le.trans (h.le k hPk)
      · exact le_rfl
    · rcases (hQ k).1 hk with hPk | rfl
      · exact hlt.trans_le (h.le k hPk)
      · exact absurd hjk (lt_irrefl k)
  next hge =>
    refine ⟨(hQ i).2 (.inl h.mem), fun k hk => ?_, fun k hik hk => ?_⟩
    · rcases (hQ k).1 hk with hPk | rfl
      · exact h.le k hPk
      · omega
    · rcases (hQ k).1 hk with hPk | rfl
      · exact h.lt k hik hPk
      · exact absurd hik (by have := hj i h.mem; omega)

/-- Places farther away do not matter. -/
theorem widen (h : Nearest P f t i) (hQ : ∀ k, P k → Q k)
    (hfar : ∀ k, Q k → ¬ P k → absdiff (f i) t < absdiff (f k) t) : Nearest Q f t i := by
  refine ⟨hQ i h.mem, fun k hk => ?_, fun k hik hk => ?_⟩
  · by_cases hP : P k
    · exact h.le k hP
    · exact (hfar k hk hP).le
  · by_cases hP : P k
    · exact h.lt k hik hP
    · exact hfar k hk hP

/-- The nearest is the nearest of fewer candidates that have it. -/
theorem restrict (h : Nearest P f t i) (hi : Q i) (hQ : ∀ k, Q k → P k) : Nearest Q f t i :=
  ⟨hi, fun k hk => h.le k (hQ k hk), fun k hik hk => h.lt k hik (hQ k hk)⟩

/-! ## The walk away from the nearest place -/

/-- The last place of the set is the nearest one if the nearest of all places is after it. -/
theorem of_left (h : absdiff (f i) t ≤ absdiff (f j) t) (hji : f j < f i) (hj : Q j)
    (hlast : ∀ k, Q k → k ≤ j)
    (hf : ∀ k, Q k → k < j → f k < f j) : Nearest Q f t j := by
  have hle : f j ≤ t := by
    by_contra hgt
    rw [absdiff_of_ge (by omega), absdiff_of_ge (by omega)] at h
    omega
  refine ⟨hj, fun k hk => ?_, fun k hjk hk => absurd (hlast k hk) (by omega)⟩
  rcases Nat.lt_or_eq_of_le (hlast k hk) with hlt | rfl
  · have hkj := hf k hk hlt
    rw [absdiff_of_le hle, absdiff_of_le (by omega)]
    omega
  · exact le_rfl

/-- The first place of the set is the nearest one if the nearest of all places is before it. -/
theorem of_right (h : absdiff (f i) t ≤ absdiff (f j) t) (hij : f i < f j) (hj : Q j)
    (hfirst : ∀ k, Q k → j ≤ k)
    (hf : ∀ k, Q k → j < k → f j < f k) : Nearest Q f t j := by
  have hge : t ≤ f j := by
    by_contra hlt
    rw [absdiff_of_le (by omega), absdiff_of_le (by omega)] at h
    omega
  have hlt : ∀ k, j < k → Q k → absdiff (f j) t < absdiff (f k) t := fun k hjk hk => by
    have hkj := hf k hk hjk
    rw [absdiff_of_ge hge, absdiff_of_ge (by omega)]
    omega
  refine ⟨hj, fun k hk => ?_, hlt⟩
  rcases Nat.lt_or_eq_of_le (hfirst k hk) with hjk | rfl
  · exact (hlt k hjk hk).le
  · exact le_rfl

end Nearest

end Ese
