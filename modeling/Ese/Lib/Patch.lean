import Mathlib.Data.List.Basic
import Mathlib.Order.Nat

/-!
# Patches

A patch is a list of edits of an old list: each replaces `cbOld` elements from position `ib` on by
`new`. `patch` applies it from left to right, copying what lies between two edits. `Aligns` says
that a patch takes one stretch of the old list to one stretch of the new one. It is closed under
composition, so a patch that is built region by region is shown right region by region, and
`Aligns.patch_eq` concludes that the whole patch turns the old list into the new one.
-/

namespace Ese

universe u

variable {α : Type u}

/-- The `n` elements of `l` from position `i` on. -/
def slice (l : List α) (i n : Nat) : List α := (l.drop i).take n

section slice
variable {l : List α} {i n k : Nat}

/-- An empty slice. -/
@[simp] theorem slice_zero (l : List α) (i : Nat) : slice l i 0 = [] := by simp [slice]

/-- A slice within the list has the length asked for. -/
theorem length_slice (h : i + n ≤ l.length) : (slice l i n).length = n := by
  rw [slice, List.length_take, List.length_drop]
  omega

/-- A slice in two parts. -/
theorem slice_add (l : List α) (i n k : Nat) :
    slice l i (n + k) = slice l i n ++ slice l (i + n) k := by
  rw [slice, slice, slice, List.take_add, List.drop_drop]

/-- A slice and what follows it. -/
theorem slice_append_drop (l : List α) (i n : Nat) :
    slice l i n ++ l.drop (i + n) = l.drop i := by
  rw [slice, ← List.drop_drop, List.take_append_drop]

/-- The slice to the end. -/
theorem slice_rest (l : List α) (i : Nat) : slice l i (l.length - i) = l.drop i := by
  rw [slice, List.take_of_length_le (by simp)]

/-- A slice is no longer than the list. -/
theorem length_slice_le (l : List α) (i n : Nat) : (slice l i n).length ≤ l.length := by
  rw [slice, List.length_take, List.length_drop]
  omega

/-- A slice of one element. -/
theorem slice_one (h : i < l.length) : slice l i 1 = [l[i]] := by
  rw [slice, List.drop_eq_getElem_cons h, List.take_succ_cons, List.take_zero]

end slice

/-- The `cbOld` elements of the old list from `ib` on become `new`. -/
@[ext] structure Edit (α : Type u) where
  ib : Nat
  cbOld : Nat
  new : List α
  deriving DecidableEq, Repr

/-- What the edits make of `old` from position `i` on. -/
def patch (old : List α) : Nat → List (Edit α) → List α
  | i, [] => old.drop i
  | i, e :: es => slice old i (e.ib - i) ++ e.new ++ patch old (e.ib + e.cbOld) es

/-- The ranges of the old list that the edits replace lie in `[i, n)`, one behind the other. -/
def Ordered (n : Nat) : Nat → List (Edit α) → Prop
  | i, [] => i ≤ n
  | i, e :: es => i ≤ e.ib ∧ Ordered n (e.ib + e.cbOld) es

section Ordered
variable {n i j : Nat} {e : Edit α} {es : List (Edit α)}

/-- Edits in order from `i` on leave `i` in the list. -/
theorem Ordered.le (h : Ordered n i es) : i ≤ n := by
  induction es generalizing i with
  | nil => exact h
  | cons e es ih => exact (h.1.trans (Nat.le_add_right _ _)).trans (ih h.2)

/-- Edits in order from further on are in order from here. -/
theorem Ordered.mono (h : Ordered n j es) (hij : i ≤ j) : Ordered n i es := by
  cases es with
  | nil => exact hij.trans h
  | cons e es => exact ⟨hij.trans h.1, h.2⟩

/-- Each edit ends in the list. -/
theorem Ordered.end_le (h : Ordered n i es) (he : e ∈ es) : e.ib + e.cbOld ≤ n := by
  induction es generalizing i with
  | nil => cases he
  | cons e' es ih =>
    rcases List.mem_cons.1 he with rfl | he
    · exact Ordered.le h.2
    · exact ih h.2 he

/-- Two edits of an ordered patch replace disjoint ranges, the earlier one the lower range. -/
theorem Ordered.pairwise (h : Ordered n i es) :
    es.Pairwise fun e e' => e.ib + e.cbOld ≤ e'.ib := by
  have hall : ∀ {es : List (Edit α)} {i : Nat}, Ordered n i es → ∀ e ∈ es, i ≤ e.ib := by
    intro es
    induction es with
    | nil => simp
    | cons e es ih =>
      intro i h e' he'
      rcases List.mem_cons.1 he' with rfl | he'
      · exact h.1
      · exact (h.1.trans (Nat.le_add_right _ _)).trans (ih h.2 _ he')
  induction es generalizing i with
  | nil => exact .nil
  | cons e es ih => exact .cons (hall h.2) (ih h.2)

/-- Elements in front of the first edit are copied. -/
theorem patch_copy {old : List α} (k : Nat) (h : Ordered n (i + k) es) :
    patch old i es = slice old i k ++ patch old (i + k) es := by
  cases es with
  | nil => rw [patch, patch, slice_append_drop]
  | cons e es =>
    have hik : i + k ≤ e.ib := h.1
    rw [patch, patch, show e.ib - i = k + (e.ib - (i + k)) by omega, slice_add]
    simp only [List.append_assoc]

end Ordered

/-- The edits take `old` from `i` to `i'` to `new` from `j` to `j'`. -/
inductive Aligns (old new : List α) : Nat → Nat → List (Edit α) → Nat → Nat → Prop
  | refl (i j : Nat) : Aligns old new i j [] i j
  | copy {i j n i' j' : Nat} {es : List (Edit α)} (h : slice old i n = slice new j n)
      (hs : Aligns old new (i + n) (j + n) es i' j') : Aligns old new i j es i' j'
  | edit {i j m i' j' : Nat} {e : Edit α} {es : List (Edit α)} (hib : e.ib = i)
      (hnew : e.new = slice new j m)
      (hs : Aligns old new (i + e.cbOld) (j + m) es i' j') : Aligns old new i j (e :: es) i' j'

namespace Aligns

variable {old new : List α} {i j k l m n i' j' : Nat} {es fs : List (Edit α)} {e : Edit α}

/-- Aligned parts in a row are aligned. -/
theorem trans (h : Aligns old new i j es k l) (hs : Aligns old new k l fs i' j') :
    Aligns old new i j (es ++ fs) i' j' := by
  induction h with
  | refl => exact hs
  | copy heq _ ih => exact .copy heq (ih hs)
  | edit hib hnew _ ih => exact .edit hib hnew (ih hs)

/-- A stretch that is the same in both lists needs no edit. -/
theorem same (n : Nat) (h : slice old i n = slice new j n) :
    Aligns old new i j [] (i + n) (j + n) :=
  .copy h (.refl _ _)

/-- One edit. -/
theorem single (n m : Nat) : Aligns old new i j [⟨i, n, slice new j m⟩] (i + n) (j + m) :=
  .edit rfl rfl (.refl _ _)

/-- An alignment only inserts what the new list holds. -/
theorem length_new_le (h : Aligns old new i j es i' j') (he : e ∈ es) :
    e.new.length ≤ new.length := by
  induction h with
  | refl => cases he
  | copy _ _ ih => exact ih he
  | edit _ hnew _ ih =>
    rcases List.mem_cons.1 he with rfl | he
    · rw [hnew]
      exact length_slice_le ..
    · exact ih he

/-- The edits of an alignment replace disjoint ranges in increasing order. -/
theorem ordered (h : Aligns old new i j es i' j') (hn : i' ≤ n) : Ordered n i es := by
  induction h with
  | refl => exact hn
  | copy _ _ ih => exact (ih hn).mono (Nat.le_add_right _ _)
  | edit hib _ _ ih =>
    subst hib
    exact ⟨le_refl _, ih hn⟩

/-- The patch of an alignment that reaches the ends of both lists makes the new list. -/
theorem patch_eq (h : Aligns old new i j es old.length new.length) :
    patch old i es = new.drop j := by
  generalize hi' : old.length = i', hj' : new.length = j' at h
  induction h with
  | refl i j =>
    subst hi' hj'
    rw [patch, List.drop_length, List.drop_length]
  | copy heq hs ih =>
    rw [patch_copy _ (hs.ordered (n := old.length) hi'.ge), ih hi' hj', heq, slice_append_drop]
  | edit hib hnew hs ih =>
    subst hib
    rw [patch, ih hi' hj', hnew, Nat.sub_self, slice_zero, List.nil_append, slice_append_drop]

end Aligns

end Ese
