import Mathlib.Algebra.BigOperators.Group.Finset.Basic
import Mathlib.Algebra.Order.BigOperators.Group.Finset
import Mathlib.Algebra.BigOperators.Intervals

/-!
# Heights between places

Between the places `l - 1` and `l` there is the height `c l`. The height between two places is the
least on the way (`between`), so that of a longer way is that of its parts, and it is an ultrametric
turned around. The weight of a place is the sum of its heights to the first `n` places (`sum`). A
place beside one with a greater height on its far side weighs no more than that one (`sum_le_up`,
`sum_le_down`). A place of the greatest weight is given with the ends of its segment, the places
that it has a height to (`Best`); which segment that is does not depend on the choice among places
of that weight if the first such segment is taken (`Best.unique`).
-/

namespace Ese.Valley

open Finset

/-- The least of `c (i + 1), …, c (i + k)`. -/
def low (c : Nat → Nat) (i : Nat) : Nat → Nat
  | 0 => 0
  | 1 => c (i + 1)
  | k + 2 => min (low c i (k + 1)) (c (i + (k + 2)))

/-- The lowest height between `i` and `j`, 0 where they are equal. -/
def between (c : Nat → Nat) (i j : Nat) : Nat := low c (min i j) (max i j - min i j)

/-- What the position `i` has in common with the others together. -/
def sum (c : Nat → Nat) (n i : Nat) : Nat := ∑ j ∈ range n, between c i j

/-- The segment of `i` begins at `b` and ends at `e`. -/
structure Segment (c : Nat → Nat) (n i b e : Nat) : Prop where
  begin_le : b ≤ i
  le_end : i ≤ e
  end_lt : e < n
  first : b = 0 ∨ c b = 0
  last : e + 1 = n ∨ c (e + 1) = 0
  inside : ∀ l, b < l → l ≤ e → 0 < c l

/-- The places are one, or there is a height between them. -/
def Linked (c : Nat → Nat) (i j : Nat) : Prop := j = i ∨ 0 < between c i j

/-- No place weighs more than `p`, and none before the segment of `p` as much. -/
structure Best (c : Nat → Nat) (n p b e : Nat) : Prop where
  segment : Segment c n p b e
  le : ∀ i < n, sum c n i ≤ sum c n p
  lt : ∀ i < b, sum c n i < sum c n p

variable {c c' : Nat → Nat} {n m i j k p b e x : Nat}

/-! ## Heights -/

/-- A bound on the lowest height is one on each. -/
theorem le_low_iff {k : Nat} : x ≤ low c i (k + 1) ↔ ∀ l, i < l → l ≤ i + (k + 1) → x ≤ c l := by
  induction k with
  | zero =>
    refine ⟨fun h l hl hl' => ?_, fun h => h (i + 1) (by omega) (by omega)⟩
    rw [show l = i + 1 by omega]
    exact h
  | succ k ih =>
    rw [low, le_min_iff, ih]
    refine ⟨fun h l hl hl' => ?_, fun h =>
      ⟨fun l hl hl' => h l hl (by omega), h _ (by omega) (by omega)⟩⟩
    rcases Nat.lt_or_ge (i + (k + 1)) l with hgt | hle
    · rw [show l = i + (k + 2) by omega]
      exact h.2
    · exact h.1 l hl hle

/-- A bound on the lowest height between two positions is one on each between them. -/
theorem le_between_iff (h : i ≠ j) :
    x ≤ between c i j ↔ ∀ l, min i j < l → l ≤ max i j → x ≤ c l := by
  obtain ⟨k, hk⟩ : ∃ k, max i j - min i j = k + 1 := ⟨max i j - min i j - 1, by omega⟩
  unfold between
  rw [hk, le_low_iff]
  have hmax : max i j = min i j + (k + 1) := by omega
  rw [hmax]

/-- A position has nothing between itself and itself. -/
@[simp] theorem between_self (c : Nat → Nat) (i : Nat) : between c i i = 0 := by
  simp [between, low]

/-- What is between two positions does not depend on which is named first. -/
theorem between_comm (c : Nat → Nat) (i j : Nat) : between c i j = between c j i := by
  unfold between
  rw [min_comm, max_comm]

/-- Between neighbours is one height. -/
theorem between_succ (c : Nat → Nat) (i : Nat) : between c i (i + 1) = c (i + 1) := by
  have hmin : min i (i + 1) = i := by omega
  have hsub : max i (i + 1) - i = 1 := by omega
  unfold between
  rw [hmin, hsub, low]

/-- The lowest height is below each. -/
theorem between_le (hi : i < k) (hj : k ≤ j) : between c i j ≤ c k :=
  (le_between_iff (by omega)).1 le_rfl k (by omega) (by omega)

/-- The height of a way is that of its two parts. -/
theorem between_eq_min (hij : i < j) (hjk : j < k) :
    between c i k = min (between c i j) (between c j k) := by
  refine eq_of_forall_le_iff fun x => ?_
  rw [le_min_iff, le_between_iff (by omega), le_between_iff (by omega), le_between_iff (by omega)]
  refine ⟨fun h => ⟨fun l _ _ => h l (by omega) (by omega), fun l _ _ => h l (by omega) (by omega)⟩,
    fun h l hl hl' => ?_⟩
  rcases Nat.lt_or_ge j l with hgt | hle
  · exact h.2 l (by omega) (by omega)
  · exact h.1 l (by omega) (by omega)

/-- A step down at the lower end takes one more height. -/
theorem between_pred (h : i + 1 < j) : between c i j = min (between c (i + 1) j) (c (i + 1)) := by
  rw [between_eq_min (Nat.lt_succ_self i) h, between_succ, min_comm]

/-- A step up at the upper end takes one more height. -/
theorem between_next (h : i < j) : between c i (j + 1) = min (between c i j) (c (j + 1)) := by
  rw [between_eq_min h (Nat.lt_succ_self j), between_succ]

/-- A way over a third place goes at least as low. -/
theorem min_between_le (hik : i ≠ k) : min (between c i j) (between c j k) ≤ between c i k := by
  by_cases hij : i = j
  · subst hij
    exact min_le_right _ _
  by_cases hjk : j = k
  · subst hjk
    exact min_le_left _ _
  rw [le_between_iff hik]
  intro l hl hl'
  by_cases h : min i j < l ∧ l ≤ max i j
  · exact (min_le_left _ _).trans ((le_between_iff hij).1 le_rfl l h.1 h.2)
  · exact (min_le_right _ _).trans ((le_between_iff hjk).1 le_rfl l (by omega) (by omega))

/-- The lowest height depends on the heights between only. -/
theorem between_congr (h : ∀ l, min i j < l → l ≤ max i j → c l = c' l) :
    between c i j = between c' i j := by
  by_cases hij : i = j
  · rw [hij, between_self, between_self]
  refine eq_of_forall_le_iff fun x => ?_
  rw [le_between_iff hij, le_between_iff hij]
  exact forall_congr' fun l => forall_congr' fun hl => forall_congr' fun hl' => by rw [h l hl hl']

/-- The way between two places does not pass a zero. -/
theorem not_zero_between (h : 0 < between c i j) {l : Nat} (hl : min i j < l) (hl' : l ≤ max i j) :
    0 < c l := by
  have hij : i ≠ j := fun he => by
    rw [he, between_self] at h
    exact absurd h (lt_irrefl 0)
  exact (le_between_iff hij).1 h l hl hl'

/-- A height of 0 between separates. -/
theorem between_eq_zero {l : Nat} (hl : min i j < l) (hl' : l ≤ max i j) (h : c l = 0) :
    between c i j = 0 := by
  rcases Nat.eq_zero_or_pos (between c i j) with h0 | hpos
  · exact h0
  · exact absurd (not_zero_between hpos hl hl') (by omega)

/-- Shifted heights have the shifted lowest height. -/
theorem between_shift (c : Nat → Nat) (d i j : Nat) :
    between (fun l => c (l + d)) i j = between c (i + d) (j + d) := by
  by_cases hij : i = j
  · rw [hij, between_self, between_self]
  refine eq_of_forall_le_iff fun x => ?_
  rw [le_between_iff hij, le_between_iff (by omega)]
  refine ⟨fun h l hl hl' => ?_, fun h l hl hl' => h (l + d) (by omega) (by omega)⟩
  have hlt := h (l - d) (by omega) (by omega)
  rwa [show l - d + d = l by omega] at hlt

/-- A position is linked to itself. -/
theorem Linked.refl (c : Nat → Nat) (i : Nat) : Linked c i i := .inl rfl

/-- Links go both ways. -/
theorem Linked.symm (h : Linked c i j) : Linked c j i := by
  unfold Linked
  rw [between_comm]
  exact h.imp Eq.symm id

/-- Links compose. -/
theorem Linked.trans (h : Linked c i j) (h' : Linked c j k) : Linked c i k := by
  rcases h with rfl | hpos
  · exact h'
  rcases h' with rfl | hpos'
  · exact .inr hpos
  by_cases hik : i = k
  · exact .inl hik.symm
  · exact .inr ((lt_min hpos hpos').trans_le (min_between_le hik))

/-- A positive height links neighbours. -/
theorem linked_succ (h : 0 < c (i + 1)) : Linked c i (i + 1) := .inr (by rwa [between_succ])

/-! ## Weights -/

/-- The sum depends on the heights among the positions only. -/
theorem sum_congr_heights (h : ∀ l, 0 < l → l < n → c l = c' l) (hi : i < n) :
    sum c n i = sum c' n i :=
  sum_congr rfl fun j hj => between_congr fun l hl hl' =>
    h l (by omega) (by have := mem_range.1 hj; omega)

/-- One more position adds what is between it and `i`. -/
theorem sum_succ (c : Nat → Nat) (n i : Nat) : sum c (n + 1) i = sum c n i + between c i n :=
  sum_range_succ _ n

/-- The weight over one place more at the start. -/
theorem sum_shift (c : Nat → Nat) (n i : Nat) :
    sum c (n + 1) (i + 1) = sum (fun l => c (l + 1)) n i + between c (i + 1) 0 := by
  unfold sum
  rw [sum_range_succ']
  congr 1
  exact sum_congr rfl fun j _ => (between_shift c 1 i j).symm

/-- More positions have no smaller sum. -/
theorem sum_mono (h : m ≤ n) : sum c m i ≤ sum c n i :=
  sum_le_sum_of_subset (by rw [range_subset_range]; exact h)

/-- Past a zero there is nothing to weigh. -/
theorem sum_cut (hmn : m ≤ n) (hm : m = n ∨ c m = 0) (hi : i < m) : sum c n i = sum c m i := by
  rcases hm with rfl | hm
  · rfl
  refine (sum_subset (by rw [range_subset_range]; exact hmn) fun j _ hj => ?_).symm
  rw [mem_range, not_lt] at hj
  exact between_eq_zero (by omega) (by omega) hm

/-- Two places change their roles in the sum. -/
theorem sum_le_sum_swap {a : Nat} (hi : i < n) (ha : a < n)
    (h : ∀ j < n, between c i j ≤ between c a (Equiv.swap i a j)) : sum c n i ≤ sum c n a := by
  have hswap : ∀ j, j ∈ range n ↔ Equiv.swap i a j ∈ range n := fun j => by
    rw [mem_range, mem_range, Equiv.swap_apply_def]
    split
    · omega
    · split <;> omega
  refine (sum_le_sum fun j hj => h j (mem_range.1 hj)).trans_eq ?_
  exact sum_equiv (Equiv.swap i a) hswap fun j _ => rfl

/-- The next place weighs at least as much if the height to it is at least the one behind. -/
theorem sum_le_up (hn : i + 1 < n) (h : i = 0 ∨ c i ≤ c (i + 1)) : sum c n i ≤ sum c n (i + 1) := by
  refine sum_le_sum_swap (by omega) hn fun j _ => ?_
  rcases Nat.lt_trichotomy j i with hlt | rfl | hgt
  · rw [Equiv.swap_apply_of_ne_of_ne (by omega) (by omega), between_comm, between_comm c (i + 1),
      between_eq_min hlt (Nat.lt_succ_self i), between_succ]
    have hle : between c j i ≤ c i := between_le hlt le_rfl
    omega
  · rw [between_self]
    exact Nat.zero_le _
  · rcases Nat.lt_or_ge (i + 1) j with hgt' | hle
    · rw [Equiv.swap_apply_of_ne_of_ne (by omega) (by omega),
        between_eq_min (Nat.lt_succ_self i) hgt']
      exact min_le_right _ _
    · obtain rfl : j = i + 1 := by omega
      rw [Equiv.swap_apply_right, between_comm]

/-- The previous place weighs at least as much if the height to it is at least the one ahead. -/
theorem sum_le_down (hn : i + 1 < n) (h : i + 2 = n ∨ c (i + 2) ≤ c (i + 1)) :
    sum c n (i + 1) ≤ sum c n i := by
  refine sum_le_sum_swap hn (by omega) fun j hj => ?_
  rcases Nat.lt_trichotomy j (i + 1) with hlt | rfl | hgt
  · rcases Nat.lt_or_ge j i with hlt' | hge
    · rw [Equiv.swap_apply_of_ne_of_ne (by omega) (by omega), between_comm, between_comm c i,
        between_eq_min hlt' (Nat.lt_succ_self i)]
      exact min_le_left _ _
    · obtain rfl : j = i := by omega
      rw [Equiv.swap_apply_right, between_comm]
  · rw [between_self]
    exact Nat.zero_le _
  · rw [Equiv.swap_apply_of_ne_of_ne (by omega) (by omega), between_eq_min (Nat.lt_succ_self i) hgt,
      between_succ]
    have hle : between c (i + 1) j ≤ c (i + 2) := between_le (by omega) (by omega)
    rw [Nat.succ_eq_add_one]
    rcases h with h | h <;> omega

/-- One place more adds to the greatest weight at most the height to it. -/
theorem sum_le_append (hn : 0 < n) (hi : i < n + 1) :
    ∃ k < n, sum c (n + 1) i ≤ sum c n k + c n := by
  rcases Nat.lt_or_ge i n with hlt | hge
  · refine ⟨i, hlt, ?_⟩
    rw [sum_succ]
    exact Nat.add_le_add_left (between_le hlt le_rfl) _
  · obtain rfl : i = n := by omega
    obtain ⟨k, rfl⟩ : ∃ k, i = k + 1 := ⟨i - 1, by omega⟩
    refine ⟨k, Nat.lt_succ_self k, ?_⟩
    have hle : ∀ j ∈ range k, between c (k + 1) j ≤ between c k j := fun j hj => by
      rw [between_comm, between_comm c k, between_next (mem_range.1 hj)]
      exact min_le_left _ _
    have hsum := sum_le_sum hle
    unfold sum
    rw [sum_range_succ, between_self, sum_range_succ, between_comm, between_succ,
      sum_range_succ _ k, between_self]
    omega

/-- One place more at the start adds to the greatest weight at most the height to it. -/
theorem sum_le_prepend (hn : 0 < n) (hi : i < n + 1) :
    ∃ k < n, sum c (n + 1) i ≤ sum (fun l => c (l + 1)) n k + c 1 := by
  rcases Nat.eq_zero_or_pos i with rfl | hpos
  · refine ⟨0, hn, ?_⟩
    have hle : ∀ j ∈ range n, between c 0 (j + 1) ≤
        between (fun l => c (l + 1)) 0 j + if j = 0 then c 1 else 0 :=
        fun j hj => by
      rcases Nat.eq_zero_or_pos j with rfl | hj0
      · rw [between_succ, if_pos rfl]
        exact Nat.le_add_left _ _
      · rw [between_shift c 1, between_pred (by omega)]
        exact (min_le_left _ _).trans (Nat.le_add_right _ _)
    unfold sum
    rw [sum_range_succ', between_self, Nat.add_zero]
    refine (sum_le_sum hle).trans_eq ?_
    rw [sum_add_distrib, sum_ite_eq' (range n) 0, if_pos (mem_range.2 hn)]
  · obtain ⟨k, rfl⟩ : ∃ k, i = k + 1 := ⟨i - 1, by omega⟩
    refine ⟨k, by omega, ?_⟩
    rw [sum_shift, between_comm]
    exact Nat.add_le_add_left (between_le (Nat.zero_lt_one) (by omega)) _

/-- A positive sum has a position that is linked. -/
theorem exists_pos_between (h : 0 < sum c n i) : ∃ j < n, 0 < between c i j := by
  by_contra hno
  have hzero : sum c n i = 0 := sum_eq_zero fun j hj => by
    by_contra hne
    exact hno ⟨j, mem_range.1 hj, Nat.pos_of_ne_zero hne⟩
  omega

/-! ## Segments -/

namespace Segment

/-- A place is in the segment if it is the place itself or there is a height to it. -/
theorem mem_iff (h : Segment c n i b e) (hj : j < n) : b ≤ j ∧ j ≤ e ↔ Linked c i j := by
  unfold Linked
  have hb := h.begin_le
  have he := h.le_end
  constructor
  · rintro ⟨hbj, hje⟩
    by_cases hij : i = j
    · exact .inl hij.symm
    · exact .inr ((le_between_iff hij).2 fun l hl hl' => h.inside l (by omega) (by omega))
  · rintro (rfl | hpos)
    · exact ⟨hb, he⟩
    · constructor
      · by_contra hlt
        rcases h.first with h0 | h0
        · omega
        · have := not_zero_between hpos (l := b) (by omega) (by omega)
          omega
      · by_contra hgt
        rcases h.last with h0 | h0
        · omega
        · have := not_zero_between hpos (l := e + 1) (by omega) (by omega)
          omega

/-- The places of a segment have that segment. -/
theorem of_mem (h : Segment c n i b e) (hb : b ≤ j) (he : j ≤ e) : Segment c n j b e :=
  { h with begin_le := hb, le_end := he }

/-- A position is in one segment. -/
theorem unique {b' e' : Nat} (h : Segment c n i b e) (h' : Segment c n i b' e') :
    b = b' ∧ e = e' := by
  have hbegin : ∀ j < n, b ≤ j ∧ j ≤ e ↔ b' ≤ j ∧ j ≤ e' := fun j hj =>
    (h.mem_iff hj).trans (h'.mem_iff hj).symm
  have hb := h.begin_le
  have he := h.le_end
  have hn := h.end_lt
  have hb' := h'.begin_le
  have he' := h'.le_end
  have hn' := h'.end_lt
  have h1 := hbegin b (by omega)
  have h2 := hbegin b' (by omega)
  have h3 := hbegin e hn
  have h4 := hbegin e' hn'
  omega

/-- Past the segment there is nothing to weigh. -/
theorem sum_eq (h : Segment c n i b e) : sum c n i = ∑ j ∈ Ico b (e + 1), between c i j := by
  have hn := h.end_lt
  refine (sum_subset (fun j hj => ?_) fun j hj hout => ?_).symm
  · rw [mem_Ico] at hj
    rw [mem_range]
    omega
  · rw [mem_range] at hj
    rw [mem_Ico] at hout
    rcases Nat.eq_zero_or_pos (between c i j) with h0 | hpos
    · exact h0
    · have := (h.mem_iff hj).2 (.inr hpos)
      omega

/-- A segment depends on the heights only. -/
theorem congr (h : Segment c n i b e) (hc : ∀ l, 0 < l → l < n → c l = c' l) :
    Segment c' n i b e := by
  have hle := h.begin_le.trans h.le_end
  have hn := h.end_lt
  refine { h with first := ?_, last := ?_, inside := fun l hl hl' => ?_ }
  · rcases Nat.eq_zero_or_pos b with h0 | hpos
    · exact .inl h0
    · rw [← hc b hpos (by omega)]
      exact h.first
  · by_cases hlast : e + 1 = n
    · exact .inl hlast
    · rw [← hc (e + 1) (by omega) (by omega)]
      exact h.last
  · rw [← hc l (by omega) (by omega)]
    exact h.inside l hl hl'

end Segment

/-- The best position depends on the heights only. -/
theorem Best.congr (h : Best c n p b e) (hc : ∀ l, 0 < l → l < n → c l = c' l) :
    Best c' n p b e := by
  have hp := h.segment.le_end.trans_lt h.segment.end_lt
  refine ⟨h.segment.congr hc, fun i hi => ?_, fun i hi => ?_⟩
  · rw [← sum_congr_heights hc hi, ← sum_congr_heights hc hp]
    exact h.le i hi
  · rw [← sum_congr_heights hc (hi.trans_le h.segment.begin_le |>.trans hp),
      ← sum_congr_heights hc hp]
    exact h.lt i hi

/-- It is enough to compare some places if every place is linked to one of these that weighs at
least as much. -/
theorem Best.of_cover {K : Nat → Prop} (hsegment : Segment c n p b e) (hpos : 0 < sum c n p)
    (hle : ∀ i, K i → sum c n i ≤ sum c n p) (hlt : ∀ i < p, K i → sum c n i < sum c n p)
    (hcover : ∀ i < n, 0 < sum c n i → ∃ k, K k ∧ sum c n i ≤ sum c n k ∧ Linked c i k) :
      Best c n p b e := by
  refine ⟨hsegment, fun i hi => ?_, fun i hi => ?_⟩
  · rcases Nat.eq_zero_or_pos (sum c n i) with h0 | h0
    · omega
    · obtain ⟨k, hk, hik, -⟩ := hcover i hi h0
      exact hik.trans (hle k hk)
  · by_contra hge
    have hb := hsegment.begin_le
    have he := hsegment.le_end.trans_lt hsegment.end_lt
    obtain ⟨k, hk, hik, hlinked⟩ := hcover i (by omega) (by omega)
    by_cases hkp : k < p
    · have := hlt k hkp hk
      omega
    · -- the way from `i` to `k` passes the begin of the segment
      have hb0 : c b = 0 := hsegment.first.resolve_left (by omega)
      rcases hlinked with rfl | hbetween
      · omega
      · have := not_zero_between hbetween (l := b) (by omega) (by omega)
        omega

/-- Two best positions have the same sum and the same segment. -/
theorem Best.unique {p' b' e' : Nat} (h : Best c n p b e) (h' : Best c n p' b' e') :
    sum c n p = sum c n p' ∧ b = b' ∧ e = e' := by
  have hp : p < n := h.segment.le_end.trans_lt h.segment.end_lt
  have hp' : p' < n := h'.segment.le_end.trans_lt h'.segment.end_lt
  have hsum : sum c n p = sum c n p' := le_antisymm (h'.le p hp) (h.le p' hp')
  have hnot : ¬ p < b' := fun hlt => (h'.lt p hlt).ne hsum
  have hnot' : ¬ p' < b := fun hlt => (h.lt p' hlt).ne hsum.symm
  have hse := h.segment.mem_iff hp'
  have hse' := h'.segment.mem_iff hp
  -- neither place is before the segment of the other, so each is in it
  have hmem : p' ≤ e := by
    by_contra hgt
    have hpe := h.segment.le_end
    by_cases hin : p ≤ e'
    · have := hse.2 (hse'.1 ⟨by omega, hin⟩).symm
      omega
    · have := h'.segment.le_end
      omega
  have hseg := h.segment.of_mem (Nat.not_lt.1 hnot') hmem
  exact ⟨hsum, hseg.unique h'.segment⟩

end Ese.Valley
