import Mathlib

/-!
# Unsigned arithmetic

`Unsigned α`: a computation with unsigned numbers of `w` bits. Its operations are the ones modulo
`2 ^ w`; its state tells whether one of them has wrapped so far, and a division by zero has no
result. `m.value` is the result of a computation in which nothing wraps. `Exact m a` is the rule for
the computations that are the ones on natural numbers: the operations are exact within the width,
and a sequence of exact computations is.
-/

namespace Ese

/-- A computation in unsigned arithmetic. The state is set once an operation has wrapped. -/
abbrev Unsigned (α : Type) := StateT Bool Option α

namespace Unsigned

section
variable {α β : Type} (w : Nat)

/-- The result `x` of an operation, which wraps where `wraps`. -/
def wrapping (x : Nat) (wraps : Prop) [Decidable wraps] : Unsigned Nat :=
  fun wrapped => some (x % 2 ^ w, wrapped || decide wraps)

/-- Addition modulo `2 ^ w`. -/
def add (x y : Nat) : Unsigned Nat := wrapping w (x + y) (2 ^ w ≤ x + y)

/-- Subtraction modulo `2 ^ w`. -/
def sub (x y : Nat) : Unsigned Nat := wrapping w (x + (2 ^ w - y)) (x < y)

/-- Multiplication modulo `2 ^ w`. -/
def mul (x y : Nat) : Unsigned Nat := wrapping w (x * y) (2 ^ w ≤ x * y)

/-- Division, which has no result for the divisor 0 and never wraps. -/
def div (x y : Nat) : Unsigned Nat := fun wrapped => if y = 0 then none else some (x / y, wrapped)

/-- The result of a run that has not wrapped. -/
def exactResult : Option (α × Bool) → Option α
  | some (a, false) => some a
  | _ => none

/-- The result of a computation in which nothing wraps and nothing is divided by zero. -/
def value (m : Unsigned α) : Option α := exactResult (m.run false)

/-! ## Exact computations -/

/-- A computation that wraps nowhere and has the result `a`. -/
def Exact (m : Unsigned α) (a : α) : Prop := ∀ wrapped, m.run wrapped = some (a, wrapped)

variable {w} {m : Unsigned α} {f : α → Unsigned β} {a : α} {b : β} {x y : Nat}

/-- An exact computation has its result as value. -/
theorem Exact.value_eq (h : Exact m a) : m.value = some a := by
  rw [value, h]
  rfl

/-- Returning a value is exact. -/
theorem Exact.pure (a : α) : Exact (Pure.pure a : Unsigned α) a := fun _ => rfl

/-- Exact computations in sequence are exact. -/
theorem Exact.bind (h : Exact m a) (hf : Exact (f a) b) : Exact (m >>= f) b := by
  intro wrapped
  rw [StateT.run_bind, h wrapped]
  exact hf wrapped

/-- What follows an exact computation decides. -/
theorem Exact.value_bind (h : Exact m a) : (m >>= f).value = (f a).value := by
  rw [value, value, StateT.run_bind, h false]
  rfl

/-- A sum that fits is exact. -/
theorem exact_add (h : x + y < 2 ^ w) : Exact (add w x y) (x + y) := by
  intro wrapped
  show some ((x + y) % 2 ^ w, wrapped || decide (2 ^ w ≤ x + y)) = _
  rw [Nat.mod_eq_of_lt h, decide_eq_false (Nat.not_le.2 h), Bool.or_false]

/-- A difference is exact where the subtrahend is no larger. -/
theorem exact_sub (hx : x < 2 ^ w) (h : y ≤ x) : Exact (sub w x y) (x - y) := by
  intro wrapped
  show some ((x + (2 ^ w - y)) % 2 ^ w, wrapped || decide (x < y)) = _
  have hresult : x + (2 ^ w - y) = x - y + 2 ^ w := by omega
  rw [hresult, Nat.add_mod_right, Nat.mod_eq_of_lt (by omega), decide_eq_false (Nat.not_lt.2 h),
    Bool.or_false]

/-- A product that fits is exact. -/
theorem exact_mul (h : x * y < 2 ^ w) : Exact (mul w x y) (x * y) := by
  intro wrapped
  show some (x * y % 2 ^ w, wrapped || decide (2 ^ w ≤ x * y)) = _
  rw [Nat.mod_eq_of_lt h, decide_eq_false (Nat.not_le.2 h), Bool.or_false]

/-- A quotient by a positive divisor is exact. -/
theorem exact_div (h : 0 < y) : Exact (div x y) (x / y) := by
  intro wrapped
  exact if_neg (Nat.ne_of_gt h)

/-! ## Computations that fail -/

/-- A computation that does not forget that an operation has wrapped. -/
def Sticky (m : Unsigned α) : Prop := ∀ a wrapped, m.run true = some (a, wrapped) → wrapped = true

/-- Returning a value forgets nothing. -/
theorem Sticky.pure (a : α) : Sticky (Pure.pure a : Unsigned α) := by
  intro a' wrapped h
  exact (congrArg Prod.snd (Option.some.inj h)).symm

/-- Sticky computations in sequence are sticky. -/
theorem Sticky.bind (h : Sticky m) (hf : ∀ a, Sticky (f a)) : Sticky (m >>= f) := by
  intro b wrapped hrun
  rw [StateT.run_bind, Option.bind_eq_bind, Option.bind_eq_some_iff] at hrun
  obtain ⟨⟨a, wrapped'⟩, hm, hrun⟩ := hrun
  rw [h a wrapped' hm] at hrun
  exact hf a b wrapped hrun

/-- A choice between sticky computations is sticky. -/
theorem Sticky.ite {m' : Unsigned α} {c : Prop} [Decidable c] (h : Sticky m) (h' : Sticky m') :
    Sticky (if c then m else m') := by
  split_ifs
  · exact h
  · exact h'

/-- An operation that may wrap is sticky. -/
theorem sticky_wrapping {wraps : Prop} [Decidable wraps] : Sticky (wrapping w x wraps) := by
  intro a wrapped h
  exact (congrArg Prod.snd (Option.some.inj h)).symm

/-- A division is sticky. -/
theorem sticky_div : Sticky (div x y) := by
  intro a wrapped h
  change (if y = 0 then none else some (x / y, true)) = some (a, wrapped) at h
  split_ifs at h
  exact (congrArg Prod.snd (Option.some.inj h)).symm

/-- An operation that wraps has no value. -/
theorem value_wrapping {wraps : Prop} [Decidable wraps] (h : wraps) :
    (wrapping w x wraps).value = none := by
  show exactResult (some (x % 2 ^ w, false || decide wraps)) = none
  rw [decide_eq_true h]
  rfl

/-- A division by zero has no value. -/
theorem value_div_zero : (div x 0).value = none := rfl

/-- A computation has no value after one that has none. -/
theorem value_bind_none (h : m.value = none) (hf : ∀ a, Sticky (f a)) : (m >>= f).value = none := by
  rw [value, StateT.run_bind]
  rw [value] at h
  rcases hrun : m.run false with _ | ⟨a, _ | _⟩
  · rfl
  · rw [hrun] at h
    cases h
  · -- an operation has wrapped
    show exactResult ((f a).run true) = none
    rcases hrun' : (f a).run true with _ | ⟨b, wrapped⟩
    · rfl
    · rw [hf a b wrapped hrun']
      rfl

end

end Unsigned

end Ese
