import Mathlib.Data.List.Basic

/-!
# Lists that differ in order

`DiffLt a b`: at the first place where the lists `a` and `b` differ, both have an element and that
of `a` is smaller. Unlike the lexicographic order it holds of no list and its extension, so it is
kept by whatever is appended, and it is turned around by a map that turns the elements around. A
code of which no word is the prefix of another keeps an order in this sense.
-/

namespace Ese

universe u

variable {α : Type u}

/-- `a` is below `b` at an element that both have: neither is a prefix of the other. -/
def DiffLt [LT α] (a b : List α) : Prop := ∃ p x s y t, a = p ++ x :: s ∧ b = p ++ y :: t ∧ x < y

namespace DiffLt

section
variable [LT α] {a b : List α}

/-- A smaller first element decides. -/
theorem head {x y : α} (h : x < y) (s t : List α) : DiffLt (x :: s) (y :: t) :=
  ⟨[], x, s, y, t, rfl, rfl, h⟩

/-- What follows the difference does not count. -/
theorem append (h : DiffLt a b) (s t : List α) : DiffLt (a ++ s) (b ++ t) := by
  obtain ⟨p, x, s', y, t', rfl, rfl, hlt⟩ := h
  exact ⟨p, x, s' ++ s, y, t' ++ t, by simp, by simp, hlt⟩

/-- A shared prefix does not count. -/
theorem append_left (h : DiffLt a b) (l : List α) : DiffLt (l ++ a) (l ++ b) := by
  obtain ⟨p, x, s, y, t, rfl, rfl, hlt⟩ := h
  exact ⟨l ++ p, x, s, y, t, by simp, by simp, hlt⟩

/-- A shared first element does not count. -/
theorem cons (h : DiffLt a b) (x : α) : DiffLt (x :: a) (x :: b) := h.append_left [x]

/-- A map that turns the order around turns the lists around. -/
theorem map_antitone {f : α → α} (hf : ∀ x y, x < y → f y < f x) (h : DiffLt a b) :
    DiffLt (b.map f) (a.map f) := by
  obtain ⟨p, x, s, y, t, rfl, rfl, hlt⟩ := h
  exact ⟨p.map f, f y, t.map f, f x, s.map f, by simp, by simp, hf x y hlt⟩

/-- The difference is in the first `n` elements, or it is in what follows them. -/
theorem take_or_drop (h : DiffLt a b) (n : Nat) : DiffLt (a.take n) (b.take n) ∨
    a.take n = b.take n ∧ n < a.length ∧ n < b.length ∧ DiffLt (a.drop n) (b.drop n) := by
  obtain ⟨p, x, s, y, t, rfl, rfl, hlt⟩ := h
  rcases Nat.lt_or_ge p.length n with hn | hn
  · obtain ⟨m, rfl⟩ := Nat.exists_eq_add_of_lt hn
    have hcut : ∀ (z : α) (l : List α), (p ++ z :: l).take (p.length + m + 1) = p ++
      z :: l.take m := by
      intro z l
      rw [Nat.add_assoc, List.take_length_add_append, List.take_succ_cons]
    rw [hcut, hcut]
    exact .inl ⟨p, x, s.take m, y, t.take m, rfl, rfl, hlt⟩
  · refine .inr ⟨?_, ?_, ?_, p.drop n, x, s, y, t, ?_, ?_, hlt⟩
    · rw [List.take_append_of_le_length hn, List.take_append_of_le_length hn]
    · rw [List.length_append, List.length_cons]
      omega
    · rw [List.length_append, List.length_cons]
      omega
    · rw [List.drop_append_of_le_length hn]
    · rw [List.drop_append_of_le_length hn]

/-- Lists cut at one length lose the difference or keep it. -/
theorem take (h : DiffLt a b) (n : Nat) : a.take n = b.take n ∨ DiffLt (a.take n) (b.take n) :=
  (h.take_or_drop n).symm.imp_left And.left

/-- A smaller list is below in the order of the lists. -/
theorem lt (h : DiffLt a b) : a < b := by
  obtain ⟨p, x, s, y, t, rfl, rfl, hlt⟩ := h
  exact List.append_left_lt (List.Lex.rel hlt)

end

section
variable [LT α] [Std.Asymm (· < · : α → α → Prop)] {a b : List α}

/-- No list is below itself. -/
theorem irrefl (a : List α) : ¬ DiffLt a a := fun h => List.lt_asymm h.lt h.lt

/-- A smaller list is another one. -/
theorem ne (h : DiffLt a b) : a ≠ b := fun he => irrefl a (he ▸ h)

/-- Of two lists at most one is below the other. -/
theorem asymm (h : DiffLt a b) : ¬ DiffLt b a := fun h' => List.lt_asymm h.lt h'.lt

/-- What is appended to both lists decides nothing of their beginnings. -/
theorem take_append_eq_iff (h : DiffLt a b) (s : List α) (n : Nat) :
    (a ++ s).take n = (b ++ s).take n ↔ a.take n = b.take n := by
  constructor
  · intro heq
    rcases h.take n with hsame | hdiff
    · exact hsame
    · exfalso
      have hboth := (hdiff.append ((s.take (n - a.length))) (s.take (n - b.length))).ne
      rw [List.take_append, List.take_append] at heq
      exact hboth heq
  · intro heq
    obtain ⟨p, x, s', y, t', rfl, rfl, hlt⟩ := h
    rcases Nat.lt_or_ge p.length n with hn | hn
    · exfalso
      have hget := congrArg (fun l => l[p.length]?) heq
      simp only [List.getElem?_take, if_pos hn, List.getElem?_append_right (Nat.le_refl _),
        Nat.sub_self,
        List.getElem?_cons_zero, Option.some.injEq] at hget
      rw [hget] at hlt
      exact Std.Asymm.asymm _ _ hlt hlt
    · rw [List.append_assoc, List.append_assoc, List.take_append_of_le_length hn,
        List.take_append_of_le_length hn]

end

end DiffLt

/-- A list is below another if they differ so or it is a proper beginning of it. -/
theorem list_lt_iff [LT α] {a b : List α} : a < b ↔ DiffLt a b ∨ ∃ c ≠ [], b = a ++ c := by
  induction a generalizing b with
  | nil =>
    cases b with
    | nil =>
      refine ⟨fun h => absurd h (List.not_lt_nil []), ?_⟩
      rintro (⟨p, x, s, y, t, ha, -, -⟩ | ⟨c, hc, hb⟩)
      · exact absurd ha.symm (by simp)
      · exact absurd hb.symm hc
    | cons y b => exact ⟨fun _ => .inr ⟨y :: b, List.cons_ne_nil _ _, rfl⟩, fun _ =>
      List.nil_lt_cons y b⟩
  | cons x a ih =>
    cases b with
    | nil =>
      refine ⟨fun h => absurd h (List.not_lt_nil _), ?_⟩
      rintro (⟨p, x, s, y, t, -, hb, -⟩ | ⟨c, -, hb⟩)
      · exact absurd hb.symm (by simp)
      · exact absurd hb.symm (by simp)
    | cons y b =>
      rw [List.cons_lt_cons_iff, ih]
      constructor
      · rintro (hlt | ⟨rfl, hdiff | ⟨c, hc, rfl⟩⟩)
        · exact .inl (DiffLt.head hlt a b)
        · exact .inl (hdiff.cons x)
        · exact .inr ⟨c, hc, rfl⟩
      · rintro (⟨p, u, s, v, t, ha, hb, hlt⟩ | ⟨c, hc, hb⟩)
        · cases p with
          | nil =>
            simp only [List.nil_append, List.cons.injEq] at ha hb
            rw [ha.1, hb.1]
            exact .inl hlt
          | cons w p =>
            simp only [List.cons_append, List.cons.injEq] at ha hb
            exact .inr ⟨ha.1.trans hb.1.symm, .inl ⟨p, u, s, v, t, ha.2, hb.2, hlt⟩⟩
        · simp only [List.cons_append, List.cons.injEq] at hb
          exact .inr ⟨hb.1.symm, .inr ⟨c, hc, hb.2⟩⟩

/-- Of two different lists one is below the other if this is so of the elements. -/
theorem list_lt_or_gt [LT α] (hα : ∀ x y : α, x ≠ y → x < y ∨ y < x) {a b : List α} (h : a ≠ b) :
    a < b ∨ b < a := by
  induction a generalizing b with
  | nil =>
    cases b with
    | nil => exact absurd rfl h
    | cons y b => exact .inl (List.nil_lt_cons y b)
  | cons x a ih =>
    cases b with
    | nil => exact .inr (List.nil_lt_cons x a)
    | cons y b =>
      rw [List.cons_lt_cons_iff, List.cons_lt_cons_iff]
      by_cases hxy : x = y
      · subst hxy
        exact (ih fun hab => h (by rw [hab])).imp (fun hlt => .inr ⟨rfl, hlt⟩) fun hlt =>
          .inr ⟨rfl, hlt⟩
      · exact (hα x y hxy).imp .inl .inl

end Ese
