import Ese.Lib.Memory

/-!
# Lists with gaps in a memory

A list of bytes in which some are left open, as a format that says nothing of a few of its bytes has
one. A memory holds it where the list has a byte. Parts that stand behind each other are held one by
one; a part that is moved is held where it stands then.
-/

namespace Ese.Mem

/-- The list `l` stands in `m` from offset `a` on, but for the gaps. -/
def HoldsSome (m : Mem) (a : Nat) (l : List (Option Byte)) : Prop :=
  ∀ i b, l[i]? = some (some b) → m (a + i) = b

section
variable {m m' : Mem} {a a' n : Nat} {b : Byte} {data : List Byte} {l l₁ l₂ : List (Option Byte)}

theorem holdsSome_nil (m : Mem) (a : Nat) : m.HoldsSome a [] := by
  intro i b h
  rw [List.getElem?_nil] at h
  cases h

theorem holdsSome_append : m.HoldsSome a (l₁ ++ l₂) ↔ m.HoldsSome a l₁ ∧
    m.HoldsSome (a + l₁.length) l₂ := by
  refine ⟨fun h => ⟨fun i b hi => h i b ?_, fun i b hi => ?_⟩, fun ⟨h₁, h₂⟩ i b hi => ?_⟩
  · obtain ⟨hlt, -⟩ := List.getElem?_eq_some_iff.1 hi
    rwa [List.getElem?_append_left hlt]
  · rw [Nat.add_assoc]
    refine h _ b ?_
    rwa [List.getElem?_append_right (Nat.le_add_right _ _), Nat.add_sub_cancel_left]
  · rcases Nat.lt_or_ge i l₁.length with hlt | hge
    · rw [List.getElem?_append_left hlt] at hi
      exact h₁ i b hi
    · rw [List.getElem?_append_right hge] at hi
      have hbyte := h₂ _ b hi
      rwa [Nat.add_assoc, Nat.add_sub_of_le hge] at hbyte

/-- Without gaps the memory holds the list. -/
theorem holdsSome_map : m.HoldsSome a (data.map some) ↔ m.Holds a data := by
  unfold Holds
  refine ⟨fun h => List.ext_getElem (length_read _ _ _) fun i hi hi' => ?_, fun h i b hi => ?_⟩
  · rw [getElem_read]
    refine h i _ ?_
    rw [List.getElem?_map, List.getElem?_eq_getElem hi']
    rfl
  · rw [List.getElem?_map] at hi
    obtain ⟨b', hb', heq⟩ := Option.map_eq_some_iff.1 hi
    obtain ⟨hlt, hget⟩ := List.getElem?_eq_some_iff.1 hb'
    have hbyte := getElem_read m a data.length i (by rwa [length_read])
    rw [← hbyte, ← Option.some.inj heq, ← hget]
    simp only [h]

/-- Of a gap nothing is asked. -/
theorem holdsSome_gap (m : Mem) (a n : Nat) : m.HoldsSome a (List.replicate n none) := by
  intro i b h
  obtain ⟨hlt, hget⟩ := List.getElem?_eq_some_iff.1 h
  rw [List.getElem_replicate] at hget
  cases hget

/-- Only the bytes that are not in a gap matter, and where they stand does not. -/
theorem HoldsSome.move (h : m.HoldsSome a l) (heq : ∀ i b, l[i]? = some (some b) →
    m' (a' + i) = m (a + i)) :
    m'.HoldsSome a' l := fun i b hi => (heq i b hi).trans (h i b hi)

/-- Some memory holds a list with gaps. -/
theorem exists_holdsSome (a : Nat) (l : List (Option Byte)) : ∃ m : Mem, m.HoldsSome a l := by
  refine ⟨fun ib => (l[ib - a]?.join).getD 0, fun i b h => ?_⟩
  dsimp only
  rw [Nat.add_sub_cancel_left, h]
  rfl

end

end Ese.Mem
