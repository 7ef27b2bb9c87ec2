import Ese.Lib.Lex

/-!
# The lists with a common start

Over elements of which `top` is the greatest, the lists that start with `s` are those from `s` on up
to `s` with a run of `top` after it, as long as the run is not itself the start of what they go on
with (`between_iff`). A run longer than any list goes on excludes none of them.
-/

namespace Ese

universe u

variable {α : Type u}

/-! ## Lists of which none starts another -/

/-- The lists are the same, or they differ before the shorter ends. -/
def Apart (a b : List α) : Prop := a = b ∨ ∃ p x s y t, a = p ++ x :: s ∧ b = p ++ y :: t ∧ x ≠ y

namespace Apart

variable {a b : List α}

/-- A list is apart from itself as an equal one. -/
theorem refl (a : List α) : Apart a a := .inl rfl

/-- Being apart is symmetric. -/
theorem symm (h : Apart a b) : Apart b a := by
  rcases h with rfl | ⟨p, x, s, y, t, ha, hb, hne⟩
  · exact refl _
  · exact .inr ⟨p, y, t, x, s, hb, ha, hne.symm⟩

/-- Different first elements keep apart. -/
theorem cons_of_ne {x y : α} (h : x ≠ y) (s t : List α) : Apart (x :: s) (y :: t) :=
  .inr ⟨[], x, s, y, t, rfl, rfl, h⟩

/-- A shared prefix does not matter. -/
theorem append_left (h : Apart a b) (l : List α) : Apart (l ++ a) (l ++ b) := by
  rcases h with rfl | ⟨p, x, s, y, t, rfl, rfl, hne⟩
  · exact refl _
  · exact .inr ⟨l ++ p, x, s, y, t, by simp, by simp, hne⟩

/-- An injective map keeps apart. -/
theorem map {β : Type u} {f : α → β} (hf : ∀ x y, f x = f y → x = y) (h : Apart a b) :
    Apart (a.map f) (b.map f) := by
  rcases h with rfl | ⟨p, x, s, y, t, rfl, rfl, hne⟩
  · exact refl _
  · exact .inr ⟨p.map f, f x, s.map f, f y, t.map f, by simp, by simp, fun he => hne (hf x y he)⟩

/-- Cuts of lists that are apart are apart. -/
theorem take (h : Apart a b) (n : Nat) : Apart (a.take n) (b.take n) := by
  rcases h with rfl | ⟨p, x, s, y, t, rfl, rfl, hne⟩
  · exact refl _
  · rcases Nat.lt_or_ge p.length n with hn | hn
    · obtain ⟨m, rfl⟩ := Nat.exists_eq_add_of_lt hn
      have hcut : ∀ (z : α) (l : List α), (p ++ z :: l).take (p.length + m + 1) = p ++
        z :: l.take m := by
        intro z l
        rw [Nat.add_assoc, List.take_length_add_append, List.take_succ_cons]
      rw [hcut, hcut]
      exact .inr ⟨p, x, s.take m, y, t.take m, rfl, rfl, hne⟩
    · rw [List.take_append_of_le_length hn, List.take_append_of_le_length hn]
      exact refl _

/-- Lists of one length are apart. -/
theorem of_length (h : a.length = b.length) : Apart a b := by
  induction a generalizing b with
  | nil => rw [List.eq_nil_of_length_eq_zero h.symm]; exact refl _
  | cons x a ih =>
    obtain ⟨y, b, rfl⟩ : ∃ y b', b = y :: b' :=
      List.exists_cons_of_ne_nil (List.ne_nil_of_length_pos (h ▸ Nat.succ_pos _))
    by_cases hxy : x = y
    · rw [hxy]
      exact (ih (Nat.succ.inj h)).append_left [y]
    · exact cons_of_ne hxy a b

/-- If the beginning of what starts with one list is the beginning of what starts with the other,
the two lists begin alike, and what follows them goes on alike. -/
theorem take_append_isPrefix_iff {n : Nat} (h : Apart (a.take n) (b.take n)) (x y : List α) :
    (a ++ x).take n <+: b ++ y ↔ a.take n = b.take n ∧ x.take (n - a.length) <+: y := by
  rcases h with heq | ⟨p, u, s, v, t, ha, hb, hne⟩
  · rcases Nat.lt_or_ge a.length n with hlt | hge
    · have hlen : b.length = a.length := by
        have := congrArg List.length heq
        rw [List.length_take, List.length_take] at this
        omega
      have hab : a = b := by
        rwa [List.take_of_length_le (Nat.le_of_lt hlt), List.take_of_length_le (by omega)] at heq
      subst hab
      rw [List.take_append, List.take_of_length_le (Nat.le_of_lt hlt), List.prefix_append_right_inj]
      exact ⟨fun hx => ⟨rfl, hx⟩, And.right⟩
    · rw [List.take_append_of_le_length hge, Nat.sub_eq_zero_of_le hge, List.take_zero, heq]
      exact ⟨fun _ => ⟨rfl, List.nil_prefix⟩, fun _ => (List.take_prefix n b).trans
        (List.prefix_append b y)⟩
  · -- the lists differ before they are cut
    constructor
    · intro hpre
      rw [List.take_append, ← List.take_append_drop n b, ha, hb, List.append_assoc,
        List.append_assoc, List.append_assoc,
        List.prefix_append_right_inj, List.cons_append, List.cons_append, List.cons_prefix_cons]
        at hpre
      exact absurd hpre.1 hne
    · rintro ⟨heq, -⟩
      rw [ha, hb, List.append_cancel_left_eq, List.cons.injEq] at heq
      exact absurd heq.1 hne

/-- The first of two lists starts what starts with the other exactly when it is that. -/
theorem isPrefix_append_iff (h : Apart a b) (y : List α) : a <+: b ++ y ↔ a = b := by
  rcases h with rfl | ⟨p, u, s, v, t, rfl, rfl, hne⟩
  · exact ⟨fun _ => rfl, fun _ => List.prefix_append _ _⟩
  · constructor
    · intro hpre
      rw [List.append_assoc, List.prefix_append_right_inj, List.cons_append, List.cons_prefix_cons]
        at hpre
      exact absurd hpre.1 hne
    · intro heq
      rw [List.append_cancel_left_eq, List.cons.injEq] at heq
      exact absurd heq.1 hne

end Apart

/-! ## Runs of the greatest element -/

/-- `s ++ y` is past the run of `k` times `top`. -/
def PastRun (top : α) (k : Nat) (y : List α) : Prop := ∃ z ≠ [], y = List.replicate k top ++ z

/-- A list no longer than the run is not past it. -/
theorem not_pastRun_of_length {top : α} {k : Nat} {y : List α} (h : y.length ≤ k) :
    ¬ PastRun top k y := by
  rintro ⟨z, hz, rfl⟩
  have := List.length_pos_of_ne_nil hz
  rw [List.length_append, List.length_replicate] at h
  omega

/-- A list past the run has `top` wherever the run does. -/
theorem PastRun.getElem? {top : α} {k i : Nat} {y : List α} (h : PastRun top k y) (hi : i < k) :
    y[i]? = some top := by
  obtain ⟨z, -, rfl⟩ := h
  rw [List.getElem?_append_left (by rwa [List.length_replicate]), List.getElem?_replicate,
    if_pos hi]

/-- The last of a run is behind a list as long as the others. -/
theorem pastRun_append_iff {top : α} {k : Nat} {a b : List α} (ha : a.length = k) :
    PastRun top (k + 1) (a ++ b) ↔ a = List.replicate k top ∧ ∃ z ≠ [], b = top :: z := by
  constructor
  · rintro ⟨z, hz, heq⟩
    rw [List.replicate_succ', List.append_assoc] at heq
    obtain ⟨hleft, hright⟩ := List.append_inj heq (by rw [ha, List.length_replicate])
    exact ⟨hleft, z, hz, hright⟩
  · rintro ⟨rfl, z, hz, rfl⟩
    exact ⟨z, hz, by rw [List.replicate_succ', List.append_assoc]; rfl⟩

section
variable [LT α]

/-- Lists with a difference are apart. -/
theorem DiffLt.apart [Std.Irrefl (· < · : α → α → Prop)] {a b : List α} (h : DiffLt a b) :
    Apart a b := by
  obtain ⟨p, x, s, y, t, ha, hb, hlt⟩ := h
  exact .inr ⟨p, x, s, y, t, ha, hb, fun he => Std.Irrefl.irrefl y (he ▸ hlt)⟩

variable {s r : List α} {top : α}

/-- Two lists of which neither starts with the other differ in order. -/
theorem prefix_or_diffLt (hα : ∀ x y : α, x ≠ y → x < y ∨ y < x) (s r : List α) :
    s <+: r ∨ DiffLt s r ∨ DiffLt r s ∨ r < s := by
  by_cases he : s = r
  · exact .inl (he ▸ List.prefix_rfl)
  · rcases list_lt_or_gt hα he with h | h
    · rcases list_lt_iff.1 h with hd | ⟨c, -, rfl⟩
      · exact .inr (.inl hd)
      · exact .inl (List.prefix_append s c)
    · exact .inr (.inr (.inr h))

/-- Nothing but a longer run is past a run of the greatest element. -/
theorem replicate_lt_iff (htop : ∀ x : α, ¬ top < x) {k : Nat} {y : List α} :
    List.replicate k top < y ↔ PastRun top k y := by
  rw [list_lt_iff]
  constructor
  · rintro (⟨p, x, t, z, t', hrun, -, hlt⟩ | ⟨c, hc, rfl⟩)
    · have hx : x = top := by
        have hmem : x ∈ List.replicate k top := by
          rw [hrun]
          simp
        exact List.eq_of_mem_replicate hmem
      exact absurd (hx ▸ hlt) (htop z)
    · exact ⟨c, hc, rfl⟩
  · rintro ⟨z, hz, rfl⟩
    exact .inr ⟨z, hz, rfl⟩

/-- A shared prefix does not change the order. -/
theorem append_left_lt_iff [Std.Asymm (· < · : α → α → Prop)] (s : List α) {a b : List α} :
    s ++ a < s ++ b ↔ a < b := by
  induction s with
  | nil => rfl
  | cons x s ih =>
    rw [List.cons_append, List.cons_append, List.cons_lt_cons_iff, ih]
    constructor
    · rintro (hlt | ⟨-, h⟩)
      · exact absurd hlt (fun h => Std.Asymm.asymm _ _ h h)
      · exact h
    · exact fun h => .inr ⟨rfl, h⟩

/-- The lists from `s` on up to `s` and a run of the greatest element. -/
theorem between_iff [Std.Asymm (· < · : α → α → Prop)] (hα : ∀ x y : α, x ≠ y → x < y ∨ y < x)
    (htop : ∀ x : α, ¬ top < x) (k : Nat) :
    s ≤ r ∧ r ≤ s ++ List.replicate k top ↔ ∃ y, r = s ++ y ∧ ¬ PastRun top k y := by
  constructor
  · rintro ⟨hlo, hhi⟩
    rcases prefix_or_diffLt hα s r with ⟨y, rfl⟩ | hd | hd | hlt
    · exact ⟨y, rfl, fun hy => hhi ((append_left_lt_iff s).2 ((replicate_lt_iff htop).2 hy))⟩
    · have hpast : s ++ List.replicate k top < r := by
        have h := (hd.append (List.replicate k top) []).lt
        rwa [List.append_nil] at h
      exact absurd hpast hhi
    · exact absurd hd.lt hlo
    · exact absurd hlt hlo
  · rintro ⟨y, rfl, hy⟩
    refine ⟨fun hlt => ?_, fun hlt => ?_⟩
    · have h : s ++ y < s ++ [] := by rwa [List.append_nil]
      exact List.not_lt_nil _ ((append_left_lt_iff s).1 h)
    · exact hy ((replicate_lt_iff htop).1 ((append_left_lt_iff s).1 hlt))

end

end Ese
