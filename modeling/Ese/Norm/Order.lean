import Ese.Norm.Key

/-!
# The order of segments

The segments of two values that differ in a column differ before the shorter ends, in the order of
the values. For binary data in chunks this is what the padding and the count bytes are for: a chunk
that is not the last has a greater count than any that is.
-/

namespace Ese.Norm

/-! ## Binary data in chunks -/

theorem zero_lt_of_ne {b : Byte} (h : b ≠ 0) : (0 : Byte) < b := by
  rw [BitVec.lt_def]
  have hne : b.toNat ≠ 0 := fun he => h (BitVec.eq_of_toNat_eq he)
  exact Nat.pos_of_ne_zero hne

/-- Padding is below the data it stands for, or the counts decide. -/
theorem padding_diffLt {x y : Byte} (hxy : x < y) (c : List Byte) {m : Nat} (h : c.length ≤ m)
    (s t : List Byte) :
    DiffLt (List.replicate m 0 ++ x :: s) (c ++ List.replicate (m - c.length) 0 ++ y :: t) := by
  induction c generalizing m with
  | nil => exact (DiffLt.head hxy s t).append_left _
  | cons b c ih =>
    obtain ⟨m, rfl⟩ : ∃ k, m = k + 1 :=
      Nat.exists_eq_add_one_of_ne_zero (by rw [List.length_cons] at h; omega)
    rw [List.length_cons, Nat.add_sub_add_right, List.replicate_succ]
    by_cases hb : b = 0
    · rw [hb]
      exact (ih (by rw [List.length_cons] at h; omega)).cons 0
    · exact DiffLt.head (zero_lt_of_ne hb) _ _

/-- The first eight bytes of data with the count of their chunk. -/
theorem chunks_eq (pbField : List Byte) : ∃ count rest,
    chunks pbField = pbField.take 8 ++ List.replicate (8 - pbField.length) 0 ++ count :: rest ∧
      count = (if pbField.length ≤ 8 then BitVec.ofNat 8 pbField.length else 9) ∧
      (8 < pbField.length → rest = chunks (pbField.drop 8)) := by
  by_cases hlast : pbField.length ≤ 8
  · refine ⟨_, [], ?_, rfl, fun h => absurd h (by omega)⟩
    rw [chunks_last hlast, if_pos hlast, List.take_of_length_le hlast]
  · refine ⟨_, _, ?_, rfl, fun _ => rfl⟩
    rw [chunks_more (Nat.lt_of_not_le hlast), if_neg hlast, Nat.sub_eq_zero_of_le (by omega),
      List.replicate_zero,
      List.append_nil]

/-- Data in chunks differs as the data does, also where one is the beginning of the other. -/
theorem chunks_diffLt {a b : List Byte} (h : a < b) : DiffLt (chunks a) (chunks b) := by
  induction hn : a.length using Nat.strong_induction_on generalizing a b with
  | _ n ih =>
    obtain ⟨x, s, ha, hx, hs⟩ := chunks_eq a
    obtain ⟨y, t, hb, hy, ht⟩ := chunks_eq b
    have hmore : a.take 8 = b.take 8 → 8 < a.length → 8 < b.length → a.drop 8 < b.drop 8 →
        DiffLt (chunks a) (chunks b) := by
      intro htake hla hlb hlt
      have hrest := ih (a.length - 8) (by omega) hlt List.length_drop
      rw [chunks_more hla, chunks_more hlb, htake]
      exact (hrest.cons 9).append_left _
    rcases list_lt_iff.1 h with hdiff | ⟨c, hc, rfl⟩
    · rcases hdiff.take_or_drop 8 with htake | ⟨htake, hla, hlb, hdrop⟩
      · rw [ha, hb, List.append_assoc, List.append_assoc]
        exact htake.append _ _
      · exact hmore htake hla hlb hdrop.lt
    · have hcpos := List.length_pos_of_ne_nil hc
      rw [List.length_append] at hy hb
      by_cases hla : a.length ≤ 8
      · -- the padding of the shorter data meets the rest of the longer one
        have hxy : x < y := by
          rw [hx, hy, if_pos hla, BitVec.lt_def]
          split
          · rw [BitVec.toNat_ofNat, BitVec.toNat_ofNat]
            omega
          · rw [BitVec.toNat_ofNat]
            have h9 : (9 : Byte).toNat = 9 := rfl
            omega
        have hpad := padding_diffLt hxy (c.take (8 - a.length)) (m := 8 - a.length)
          (by rw [List.length_take]; omega) s t
        rw [List.length_take, show 8 - a.length - min (8 - a.length) c.length =
          8 - (a.length + c.length) by omega] at hpad
        rw [ha, hb, List.take_of_length_le hla, List.take_append, List.take_of_length_le hla,
          List.append_assoc,
          List.append_assoc, List.append_assoc, ← List.append_assoc (c.take _)]
        exact hpad.append_left a
      · have hla' : 8 < a.length := Nat.lt_of_not_le hla
        refine hmore ?_ hla' (by rw [List.length_append]; omega) ?_
        · rw [List.take_append_of_le_length (Nat.le_of_lt hla')]
        · rw [List.drop_append_of_le_length (Nat.le_of_lt hla')]
          exact list_lt_iff.2 (.inr ⟨c, hc, rfl⟩)

theorem byte_lt_or_gt {x y : Byte} (h : x ≠ y) : x < y ∨ y < x := by
  rw [BitVec.lt_def, BitVec.lt_def]
  have hne : x.toNat ≠ y.toNat := fun he => h (BitVec.eq_of_toNat_eq he)
  omega

/-- The complement of a descending segment turns the order around. -/
theorem flip_diffLt {a b : List Byte} (h : DiffLt a b) (fDescending : Bool) :
    if fDescending then DiffLt (flip fDescending b) (flip fDescending a)
      else DiffLt (flip fDescending a) (flip fDescending b) := by
  cases fDescending with
  | false => exact h
  | true =>
    refine h.map_antitone fun x y hxy => ?_
    have hall : (0xff : Byte) = BitVec.allOnes 8 := rfl
    rw [BitVec.lt_def] at hxy
    rw [hall, BitVec.xor_allOnes, BitVec.xor_allOnes, BitVec.lt_def, BitVec.toNat_not,
      BitVec.toNat_not]
    have := y.isLt
    omega

end Ese.Norm
