import Mathlib.Data.List.Basic
import Mathlib.Data.Int.Order.Basic

/-!
# Three-way comparison of lists

`prefixCmp v a b` is the difference of the first elements in which `a` and `b` differ, and zero if
there is none up to the end of the shorter list; `lexCmp v a b` breaks that tie by the lengths. Both
measure elements by `v`. `commonLen a b` is the length of the common start: one more element of the
greater list is the shortest list that lies above the smaller one and not above the greater.
-/

namespace Ese

universe u

variable {α : Type u} [DecidableEq α] (v : α → Int)

/-- The bytewise comparison over the shorter length, as `memcmp` makes it: negative, zero or
positive. -/
def prefixCmp : List α → List α → Int
  | a :: s, b :: t => if a = b then prefixCmp s t else v a - v b
  | _, _ => 0

/-- The order of byte strings: `prefixCmp` first, the lengths where it finds no difference. -/
def lexCmp (s t : List α) : Int :=
  if prefixCmp v s t ≠ 0 then prefixCmp v s t else s.length - t.length

/-- The number of leading bytes two strings share. -/
def commonLen : List α → List α → Nat
  | a :: s, b :: t => if a = b then commonLen s t + 1 else 0
  | _, _ => 0

variable {v}

/-! ## Recursion -/

/-- Nothing is compared with an empty left string. -/
@[simp] theorem prefixCmp_nil_left (t : List α) : prefixCmp v [] t = 0 := by
  unfold prefixCmp
  rfl

/-- Nothing is compared with an empty right string. -/
@[simp] theorem prefixCmp_nil_right (s : List α) : prefixCmp v s [] = 0 := by
  cases s <;> rfl

/-- A shared first byte is skipped. -/
theorem prefixCmp_cons_self (a : α) (s t : List α) :
    prefixCmp v (a :: s) (a :: t) = prefixCmp v s t := by
  rw [prefixCmp, if_pos rfl]

/-- Different first bytes decide. -/
theorem prefixCmp_cons_ne {a b : α} (h : a ≠ b) (s t : List α) :
    prefixCmp v (a :: s) (b :: t) = v a - v b := by
  rw [prefixCmp, if_neg h]

/-- The empty string is below every other. -/
@[simp] theorem lexCmp_nil_left (t : List α) : lexCmp v [] t = -t.length := by
  simp [lexCmp]

/-- A string is above the empty one by its length. -/
@[simp] theorem lexCmp_nil_right (s : List α) : lexCmp v s [] = s.length := by
  simp [lexCmp]

/-- A shared first byte is skipped. -/
theorem lexCmp_cons_self (a : α) (s t : List α) : lexCmp v (a :: s) (a :: t) = lexCmp v s t := by
  unfold lexCmp
  rw [prefixCmp_cons_self, List.length_cons, List.length_cons]
  split
  · rfl
  · omega

/-- Different first bytes decide. -/
theorem lexCmp_cons_ne (hv : Function.Injective v) {a b : α} (h : a ≠ b) (s t : List α) :
    lexCmp v (a :: s) (b :: t) = v a - v b := by
  have hne : v a - v b ≠ 0 := fun he => h (hv (by omega))
  unfold lexCmp
  rw [prefixCmp_cons_ne h, if_pos hne]

/-- A shared first byte counts. -/
theorem commonLen_cons_self (a : α) (s t : List α) :
    commonLen (a :: s) (a :: t) = commonLen s t + 1 := by
  rw [commonLen, if_pos rfl]

/-- Different first bytes end the common part. -/
theorem commonLen_cons_ne {a b : α} (h : a ≠ b) (s t : List α) :
    commonLen (a :: s) (b :: t) = 0 := by
  rw [commonLen, if_neg h]

/-- The empty string shares nothing. -/
@[simp] theorem commonLen_nil_left (t : List α) : commonLen [] t = 0 := by
  unfold commonLen
  rfl

/-- Nothing is shared with the empty string. -/
@[simp] theorem commonLen_nil_right (s : List α) : commonLen s [] = 0 := by
  cases s <;> rfl

/-! ## Order -/

/-- Exchanging the operands negates the comparison. -/
theorem prefixCmp_antisymm (s t : List α) : prefixCmp v t s = -prefixCmp v s t := by
  induction s generalizing t with
  | nil => simp
  | cons a s ih =>
    cases t with
    | nil => simp
    | cons b t =>
      by_cases h : a = b
      · subst h
        rw [prefixCmp_cons_self, prefixCmp_cons_self, ih]
      · rw [prefixCmp_cons_ne h, prefixCmp_cons_ne (Ne.symm h)]
        omega

/-- Exchanging the operands negates the order. -/
theorem lexCmp_antisymm (s t : List α) : lexCmp v t s = -lexCmp v s t := by
  unfold lexCmp
  rw [prefixCmp_antisymm s t]
  split <;> split <;> omega

/-- Every string compares equal with itself. -/
@[simp] theorem lexCmp_self (s : List α) : lexCmp v s s = 0 := by
  have h := lexCmp_antisymm (v := v) s s
  omega

section
variable (hv : Function.Injective v)
include hv

/-- The order is transitive, strictly where its second step is. -/
theorem lexCmp_lt_of_le_of_lt {s t u : List α} (h : lexCmp v s t ≤ 0) (h' : lexCmp v t u < 0) :
    lexCmp v s u < 0 := by
  induction s generalizing t u with
  | nil =>
    cases u with
    | nil =>
      rw [lexCmp_nil_right] at h'
      omega
    | cons c u =>
      rw [lexCmp_nil_left, List.length_cons]
      omega
  | cons a s ih =>
    cases t with
    | nil =>
      rw [lexCmp_nil_right, List.length_cons] at h
      omega
    | cons b t =>
      cases u with
      | nil =>
        rw [lexCmp_nil_right] at h'
        omega
      | cons c u =>
        by_cases hab : a = b
        · subst hab
          rw [lexCmp_cons_self] at h
          by_cases hac : a = c
          · subst hac
            rw [lexCmp_cons_self] at h' ⊢
            exact ih h h'
          · rw [lexCmp_cons_ne hv hac] at h' ⊢
            exact h'
        · rw [lexCmp_cons_ne hv hab] at h
          have hlt : v a < v b := lt_of_le_of_ne (by omega) fun he => hab (hv he)
          have hle : v b ≤ v c := by
            by_cases hbc : b = c
            · rw [hbc]
            · rw [lexCmp_cons_ne hv hbc] at h'
              omega
          have hac : a ≠ c := fun he => by
            rw [he] at hlt
            omega
          rw [lexCmp_cons_ne hv hac]
          omega

/-- Only equal strings compare equal. -/
theorem eq_of_lexCmp_eq_zero {s t : List α} (h : lexCmp v s t = 0) : s = t := by
  induction s generalizing t with
  | nil =>
    rw [lexCmp_nil_left] at h
    exact (List.eq_nil_of_length_eq_zero (by omega)).symm
  | cons a s ih =>
    cases t with
    | nil =>
      rw [lexCmp_nil_right, List.length_cons] at h
      omega
    | cons b t =>
      by_cases hab : a = b
      · subst hab
        rw [lexCmp_cons_self] at h
        rw [ih h]
      · rw [lexCmp_cons_ne hv hab] at h
        exact absurd (hv (by omega)) hab

/-- The order is transitive, strictly where its first step is. -/
theorem lexCmp_lt_of_lt_of_le {s t u : List α} (h : lexCmp v s t < 0) (h' : lexCmp v t u ≤ 0) :
    lexCmp v s u < 0 := by
  rcases Int.lt_or_eq_of_le h' with hlt | heq
  · exact lexCmp_lt_of_le_of_lt hv (Int.le_of_lt h) hlt
  · rwa [← eq_of_lexCmp_eq_zero hv heq]

/-- The order is transitive. -/
theorem lexCmp_le_trans {s t u : List α} (h : lexCmp v s t ≤ 0) (h' : lexCmp v t u ≤ 0) :
    lexCmp v s u ≤ 0 := by
  rcases Int.lt_or_eq_of_le h' with hlt | heq
  · exact Int.le_of_lt (lexCmp_lt_of_le_of_lt hv h hlt)
  · rwa [← eq_of_lexCmp_eq_zero hv heq]

end

/-! ## Concatenation -/

/-- Lists of one length are compared before what follows them. -/
theorem prefixCmp_append {s t : List α} (hlen : s.length = t.length) (hv : Function.Injective v)
    (s' t' : List α) :
    prefixCmp v (s ++ s') (t ++ t') =
      if prefixCmp v s t = 0 then prefixCmp v s' t' else prefixCmp v s t := by
  induction s generalizing t with
  | nil =>
    rw [List.eq_nil_of_length_eq_zero hlen.symm]
    simp
  | cons a s ih =>
    obtain ⟨b, t, rfl⟩ := List.exists_cons_of_length_eq_add_one hlen.symm
    rw [List.cons_append, List.cons_append]
    by_cases h : a = b
    · subst h
      rw [prefixCmp_cons_self, prefixCmp_cons_self]
      exact ih (Nat.succ.inj hlen)
    · have hne : v a - v b ≠ 0 := fun he => h (hv (by omega))
      rw [prefixCmp_cons_ne h, prefixCmp_cons_ne h, if_neg hne]

/-- Only the length of the shorter list counts. -/
theorem prefixCmp_take (s t : List α) (n : Nat) (h : s.length ≤ n) :
    prefixCmp v s (t.take n) = prefixCmp v s t := by
  induction s generalizing t n with
  | nil => simp
  | cons a s ih =>
    obtain ⟨n, rfl⟩ : ∃ m, n = m + 1 := ⟨n - 1, by rw [List.length_cons] at h; omega⟩
    cases t with
    | nil => simp
    | cons b t =>
      rw [List.take_succ_cons]
      by_cases hab : a = b
      · subst hab
        rw [prefixCmp_cons_self, prefixCmp_cons_self]
        exact ih t n (by rw [List.length_cons] at h; omega)
      · rw [prefixCmp_cons_ne hab, prefixCmp_cons_ne hab]

/-- A shared prefix does not change the order. -/
theorem lexCmp_append_left (l s t : List α) : lexCmp v (l ++ s) (l ++ t) = lexCmp v s t := by
  induction l with
  | nil => rfl
  | cons a l ih => rw [List.cons_append, List.cons_append, lexCmp_cons_self, ih]

/-- Of lists neither of which starts the other, what follows them does not count. -/
theorem lexCmp_append (hv : Function.Injective v) {s t : List α} (hst : ¬s <+: t) (hts : ¬t <+: s)
    (s' t' : List α) : lexCmp v (s ++ s') (t ++ t') = lexCmp v s t := by
  induction s generalizing t with
  | nil => exact absurd List.nil_prefix hst
  | cons a s ih =>
    cases t with
    | nil => exact absurd List.nil_prefix hts
    | cons b t =>
      rw [List.cons_append, List.cons_append]
      by_cases hab : a = b
      · subst hab
        rw [lexCmp_cons_self, lexCmp_cons_self]
        exact ih (fun h => hst ((List.prefix_cons_inj a).2 h))
          fun h => hts ((List.prefix_cons_inj a).2 h)
      · rw [lexCmp_cons_ne hv hab, lexCmp_cons_ne hv hab]

/-! ## The common start -/

/-- The common part is no longer than the left string. -/
theorem commonLen_le_left (s t : List α) : commonLen s t ≤ s.length := by
  induction s generalizing t with
  | nil => simp
  | cons a s ih =>
    cases t with
    | nil => simp
    | cons b t =>
      by_cases h : a = b
      · subst h
        rw [commonLen_cons_self, List.length_cons]
        exact Nat.succ_le_succ (ih t)
      · rw [commonLen_cons_ne h]
        exact Nat.zero_le _

/-- The common part does not depend on which string is named first. -/
theorem commonLen_comm (s t : List α) : commonLen s t = commonLen t s := by
  induction s generalizing t with
  | nil => simp
  | cons a s ih =>
    cases t with
    | nil => simp
    | cons b t =>
      by_cases h : a = b
      · subst h
        rw [commonLen_cons_self, commonLen_cons_self, ih]
      · rw [commonLen_cons_ne h, commonLen_cons_ne (Ne.symm h)]

/-- A shared prefix adds its length to the common part. -/
theorem commonLen_append_left (l s t : List α) :
    commonLen (l ++ s) (l ++ t) = l.length + commonLen s t := by
  induction l with
  | nil => rw [List.nil_append, List.nil_append, List.length_nil, Nat.zero_add]
  | cons a l ih =>
    rw [List.cons_append, List.cons_append, commonLen_cons_self, ih, List.length_cons]
    omega

/-- Of lists neither of which starts the other, the common start is past what follows neither. -/
theorem commonLen_append {s t : List α} (hst : ¬s <+: t) (hts : ¬t <+: s) (s' t' : List α) :
    commonLen (s ++ s') (t ++ t') = commonLen s t ∧ commonLen s t < t.length := by
  induction s generalizing t with
  | nil => exact absurd List.nil_prefix hst
  | cons a s ih =>
    cases t with
    | nil => exact absurd List.nil_prefix hts
    | cons b t =>
      rw [List.cons_append, List.cons_append]
      by_cases hab : a = b
      · subst hab
        rw [commonLen_cons_self, commonLen_cons_self, List.length_cons]
        obtain ⟨he, hlt⟩ := ih (fun h => hst ((List.prefix_cons_inj a).2 h))
          fun h => hts ((List.prefix_cons_inj a).2 h)
        rw [he]
        exact ⟨rfl, Nat.succ_lt_succ hlt⟩
      · rw [commonLen_cons_ne hab, commonLen_cons_ne hab]
        exact ⟨rfl, Nat.succ_pos _⟩

/-- The common start is all of both lists only if they are equal. -/
theorem commonLen_eq_length_iff {s t : List α} :
    commonLen s t = s.length ∧ commonLen s t = t.length ↔ s = t := by
  induction s generalizing t with
  | nil =>
    rw [commonLen_nil_left]
    exact ⟨fun h => (List.eq_nil_of_length_eq_zero h.2.symm).symm,
      fun h => by rw [← h]; exact ⟨rfl, rfl⟩⟩
  | cons a s ih =>
    cases t with
    | nil => simp
    | cons b t =>
      by_cases hab : a = b
      · subst hab
        rw [commonLen_cons_self, List.length_cons, List.length_cons, List.cons.injEq,
          and_iff_right rfl, ← ih]
        omega
      · rw [commonLen_cons_ne hab]
        simp [hab]

/-- Of three lists in order, the outer ones have in common what both pairs of neighbours have. -/
theorem commonLen_eq_min (hv : Function.Injective v) {s t u : List α} (h : lexCmp v s t ≤ 0)
    (h' : lexCmp v t u ≤ 0) : commonLen s u = min (commonLen s t) (commonLen t u) := by
  induction s generalizing t u with
  | nil => simp
  | cons a s ih =>
    cases t with
    | nil =>
      rw [lexCmp_nil_right, List.length_cons] at h
      omega
    | cons b t =>
      cases u with
      | nil => simp
      | cons c u =>
        by_cases hab : a = b
        · subst hab
          by_cases hac : a = c
          · subst hac
            rw [lexCmp_cons_self] at h h'
            rw [commonLen_cons_self, commonLen_cons_self, commonLen_cons_self, ih h h']
            omega
          · rw [commonLen_cons_ne hac, commonLen_cons_ne hac, Nat.min_zero]
        · rw [commonLen_cons_ne hab, Nat.zero_min]
          refine commonLen_cons_ne (fun hac => hab (hv ?_)) s u
          rw [lexCmp_cons_ne hv hab] at h
          by_cases hbc : b = c
          · exact absurd (hac.trans hbc.symm) hab
          · rw [lexCmp_cons_ne hv hbc, ← hac] at h'
            omega

/-- Two lists have in common what a third one has in common with both. -/
theorem min_commonLen_le (s t u : List α) :
    min (commonLen s t) (commonLen t u) ≤ commonLen s u := by
  induction s generalizing t u with
  | nil => simp
  | cons a s ih =>
    cases t with
    | nil => simp
    | cons b t =>
      cases u with
      | nil => simp
      | cons c u =>
        by_cases hab : a = b
        · subst hab
          by_cases hac : a = c
          · subst hac
            rw [commonLen_cons_self, commonLen_cons_self, commonLen_cons_self]
            have := ih t u
            omega
          · rw [commonLen_cons_ne hac, Nat.min_zero]
            exact Nat.zero_le _
        · rw [commonLen_cons_ne hab, Nat.zero_min]
          exact Nat.zero_le _

/-- A string shares all of itself with itself. -/
theorem commonLen_self (s : List α) : commonLen s s = s.length := by
  induction s with
  | nil => rfl
  | cons a s ih => rw [commonLen_cons_self, ih, List.length_cons]

/-! ## Separators -/

/-- A start of a list is not above it. -/
theorem lexCmp_take (s : List α) (n : Nat) : lexCmp v (s.take n) s ≤ 0 := by
  have h := lexCmp_append_left (v := v) (s.take n) [] (s.drop n)
  rw [List.append_nil, List.take_append_drop, lexCmp_nil_left] at h
  omega

/-- The common start of a list and a greater one with one more element of the greater one separates
them, and no shorter list does. -/
theorem separator (hv : Function.Injective v) {s t : List α} (h : lexCmp v s t < 0) :
    commonLen s t < t.length ∧ lexCmp v s (t.take (commonLen s t + 1)) < 0 ∧
      ∀ u, lexCmp v s u < 0 → lexCmp v u t ≤ 0 → commonLen s t + 1 ≤ u.length := by
  induction s generalizing t with
  | nil =>
    cases t with
    | nil => simp at h
    | cons b t =>
      refine ⟨by simp, by simp, fun u hu _ => ?_⟩
      rw [lexCmp_nil_left] at hu
      rw [commonLen_nil_left]
      omega
  | cons a s ih =>
    cases t with
    | nil =>
      rw [lexCmp_nil_right] at h
      omega
    | cons b t =>
      by_cases hab : a = b
      · subst hab
        rw [lexCmp_cons_self] at h
        obtain ⟨hlt, hsep, hshort⟩ := ih h
        rw [commonLen_cons_self, List.length_cons, List.take_succ_cons, lexCmp_cons_self]
        refine ⟨Nat.succ_lt_succ hlt, hsep, fun u hu hut => ?_⟩
        cases u with
        | nil =>
          rw [lexCmp_nil_right] at hu
          omega
        | cons c u =>
          -- a list between the two starts as they do
          have hca : a = c := by
            by_contra hne
            rw [lexCmp_cons_ne hv hne] at hu
            rw [lexCmp_cons_ne hv (Ne.symm hne)] at hut
            omega
          subst hca
          rw [lexCmp_cons_self] at hu hut
          rw [List.length_cons]
          exact Nat.succ_le_succ (hshort u hu hut)
      · rw [commonLen_cons_ne hab]
        rw [lexCmp_cons_ne hv hab] at h
        refine ⟨by simp, ?_, fun u hu _ => ?_⟩
        · rw [Nat.zero_add, List.take_succ_cons, lexCmp_cons_ne hv hab]
          exact h
        · cases u with
          | nil =>
            rw [lexCmp_nil_right] at hu
            omega
          | cons c u =>
            rw [List.length_cons]
            omega

end Ese
