import Mathlib.Data.List.Perm.Basic
import Mathlib.Data.List.Nodup
import Mathlib.Data.List.Sort
import Ese.Rec.Basic

/-!
# The tagged columns of a record

The order of the `TAGFLD`s is the order of a key, the data of the columns tile the record behind
the array, and both together make the tagged area a function of the columns: two records with the
same tagged columns have the same bytes there.
-/

namespace Ese

/-! ## The order of the columns -/

namespace TAGFLD

/-- A key that orders `TAGFLD`s the way the comparisons do. -/
def key (t : TAGFLD) : Nat := (if t.FDerived then 0 else 65536) + t.Fid

/-- A column id has sixteen bits. -/
theorem Fid_lt (t : TAGFLD) : t.Fid < 65536 := t.m_fid.isLt

/-- `FIsLessThan` is the order of the keys. -/
theorem FIsLessThan_iff (t₁ t₂ : TAGFLD) :
    t₁.FIsLessThan t₂.Fid t₂.FDerived = true ↔ t₁.key < t₂.key := by
  have h₁ := t₁.Fid_lt
  have h₂ := t₂.Fid_lt
  unfold FIsLessThan key
  split_ifs <;> simp <;> omega

/-- `FIsGreaterThan` is the order of the keys, the other way. -/
theorem FIsGreaterThan_iff (t₁ t₂ : TAGFLD) :
    t₁.FIsGreaterThan t₂.Fid t₂.FDerived = true ↔ t₂.key < t₁.key := by
  have h₁ := t₁.Fid_lt
  have h₂ := t₂.Fid_lt
  unfold FIsGreaterThan key
  split_ifs <;> simp <;> omega

/-- The comparison of two entries is that of their keys. -/
theorem tagFldCmp_eq (t₁ t₂ : TAGFLD) : tagFldCmp t₁ t₂ = compare t₁.key t₂.key := by
  unfold tagFldCmp
  split_ifs with h₁ h₂
  · exact (Nat.compare_eq_lt.2 ((FIsLessThan_iff ..).1 h₁)).symm
  · exact (Nat.compare_eq_gt.2 ((FIsGreaterThan_iff ..).1 h₂)).symm
  · rw [FIsLessThan_iff] at h₁
    rw [FIsGreaterThan_iff] at h₂
    exact (Nat.compare_eq_eq.2 (by omega)).symm

end TAGFLD

/-- The key of a tagged column. -/
def TaggedColumn.key (c : TaggedColumn) : Nat :=
  (if c.flags &&& 0x8000 ≠ 0 then 0 else 65536) + c.fid

namespace Rec

variable {s : PageSize} {tdb : TDB} {r : Rec} {k l : Nat}

/-- A column has the key of its entry. -/
theorem key_taggedColumn (s : PageSize) (r : Rec) (k : Nat) :
    (r.taggedColumn s k).key = (r.ptagfld k).key := by
  have hflag : (r.ptagfld k).m_ib &&& ~~~TAGFLD.maskIb s &&& 0x8000 =
      (r.ptagfld k).m_ib &&& 0x8000 := by
    rw [BitVec.and_assoc]
    congr 1
    cases s <;> rfl
  rw [TaggedColumn.key, TAGFLD.key, TAGFLD.FDerived]
  simp only [taggedColumn, hflag]
  split_ifs <;> simp_all

/-- The entries are in the order of their keys. -/
theorem WF.key_lt (h : r.WF s tdb) (hkl : k < l) (hl : l < r.cTaggedColumns s) :
    (r.ptagfld k).key < (r.ptagfld l).key := by
  induction l, hkl using Nat.le_induction with
  | base => exact (TAGFLD.FIsLessThan_iff ..).1 (h.tagSorted k hl)
  | succ l _ ih => exact (ih (by omega)).trans ((TAGFLD.FIsLessThan_iff ..).1 (h.tagSorted l hl))

/-- A key belongs to one column. -/
theorem WF.key_inj (h : r.WF s tdb) (hk : k < r.cTaggedColumns s) (hl : l < r.cTaggedColumns s)
    (heq : (r.ptagfld k).key = (r.ptagfld l).key) : k = l := by
  rcases Nat.lt_trichotomy k l with hlt | heq | hlt
  · exact absurd (h.key_lt hlt hl) (by omega)
  · exact heq
  · exact absurd (h.key_lt hlt hk) (by omega)

/-- The tagged columns are those of the entries. -/
theorem mem_taggedColumns {c : TaggedColumn} :
    c ∈ r.taggedColumns s ↔ ∃ k < r.cTaggedColumns s, r.taggedColumn s k = c := by
  simp [taggedColumns]

/-- The tagged columns are in the order of their keys. -/
theorem WF.sorted_taggedColumns (h : r.WF s tdb) :
    (r.taggedColumns s).Pairwise fun c c' => c.key < c'.key := by
  rw [taggedColumns, List.pairwise_map, List.pairwise_iff_getElem]
  intro k l hk hl hkl
  rw [List.length_range] at hk hl
  rw [List.getElem_range, List.getElem_range, key_taggedColumn, key_taggedColumn]
  exact h.key_lt hkl hl

/-- Two records whose tagged columns have the same members have the same tagged columns. -/
theorem WF.taggedColumns_eq {r' : Rec} (h : r.WF s tdb) (h' : r'.WF s tdb)
    (hmem : ∀ c, c ∈ r.taggedColumns s ↔ c ∈ r'.taggedColumns s) :
    r.taggedColumns s = r'.taggedColumns s := by
  have hnodup : ∀ {r : Rec}, r.WF s tdb → (r.taggedColumns s).Nodup := fun h =>
    h.sorted_taggedColumns.imp fun hlt heq => by rw [heq] at hlt; omega
  have hperm := (List.perm_ext_iff_of_nodup (hnodup h) (hnodup h')).2 hmem
  exact hperm.eq_of_pairwise (fun _ _ _ _ h₁ h₂ => by omega) h.sorted_taggedColumns
    h'.sorted_taggedColumns

/-! ## The tagged area -/

/-- Where the data of tagged column `k` starts, and where the record ends for the last `k`. -/
def tagPos (s : PageSize) (r : Rec) (k : Nat) : Nat :=
  if k < r.cTaggedColumns s then r.ibTagData s k else r.length

/-- A column begins where its entry says. -/
theorem tagPos_of_lt (h : k < r.cTaggedColumns s) : r.tagPos s k = r.ibTagData s k := if_pos h

/-- The last column ends with the record. -/
theorem tagPos_last (s : PageSize) (r : Rec) : r.tagPos s (r.cTaggedColumns s) = r.length :=
  if_neg (Nat.lt_irrefl _)

/-- The array of `TAGFLD`s fills the gap in front of the data of the first column. -/
theorem WF.tagPos_zero (h : r.WF s tdb) :
    r.tagPos s 0 = r.ibTaggedData + r.cTaggedColumns s * 4 := by
  have ht := h.tagged
  rcases eq_or_ne r.cbTaggedColumns 0 with h0 | h0
  · have hc : r.cTaggedColumns s = 0 := if_pos h0
    rw [tagPos, hc, if_neg (Nat.lt_irrefl _)]
    rw [cbTaggedColumns] at h0
    omega
  · obtain ⟨h4, hdvd, -⟩ := h.tagArray h0
    have hc : r.cTaggedColumns s = (r.ptagfld 0).Ib s / 4 := if_neg h0
    rw [tagPos, if_pos (by omega), ibTagData, hc, Nat.div_mul_cancel hdvd]

/-- The data of a tagged column ends where the next one starts. -/
theorem WF.tagPos_succ (h : r.WF s tdb) (hk : k < r.cTaggedColumns s) :
    r.ibTagData s k + r.cbTagData s k = r.tagPos s (k + 1) := by
  have ht := h.tagged
  have hend := h.tagEnd k hk
  rw [ibTagData, cbTagData, tagPos]
  rcases Nat.lt_or_ge (k + 1) (r.cTaggedColumns s) with hlt | hge
  · have hmono := h.tagData k hlt
    rw [if_pos (by omega), if_pos hlt, ibTagData]
    omega
  · rw [if_neg (by omega), if_neg (by omega)]
    rw [cbTaggedColumns] at hend ⊢
    omega

/-- A column begins in the record. -/
theorem WF.tagPos_le (h : r.WF s tdb) (k : Nat) : r.tagPos s k ≤ r.length := by
  have ht := h.tagged
  rw [tagPos]
  split_ifs with hk
  · have := h.tagEnd k hk
    rw [cbTaggedColumns] at this
    rw [ibTagData]
    omega
  · exact le_refl _

/-- A column has the length that its entry says. -/
theorem WF.length_tagData (h : r.WF s tdb) (hk : k < r.cTaggedColumns s) :
    (r.tagData s k).length = r.cbTagData s k :=
  length_slice ((h.tagPos_succ hk).trans_le (h.tagPos_le _))

variable {r' : Rec}

/-- Tagged columns with the same data are copied. -/
theorem WF.copy_tagData (h : r.WF s tdb) (h' : r'.WF s tdb) (hk : k < r.cTaggedColumns s)
    (hl : l < r'.cTaggedColumns s) (heq : r.tagData s k = r'.tagData s l) :
    Aligns r r' (r.tagPos s k) (r'.tagPos s l) [] (r.tagPos s (k + 1)) (r'.tagPos s (l + 1)) := by
  have hlen : r'.cbTagData s l = r.cbTagData s k := by
    rw [← h.length_tagData hk, ← h'.length_tagData hl, heq]
  rw [Rec.tagData, Rec.tagData, hlen] at heq
  have hal := Aligns.same _ heq
  have hnext := h'.tagPos_succ hl
  rw [hlen] at hnext
  rwa [h.tagPos_succ hk, hnext, ← tagPos_of_lt hk, ← tagPos_of_lt hl] at hal

section same
variable (h : r.WF s tdb) (h' : r'.WF s tdb) (hcol : r.taggedColumns s = r'.taggedColumns s)
include hcol

/-- Records with the same entries have the same number of them. -/
theorem cTaggedColumns_congr : r.cTaggedColumns s = r'.cTaggedColumns s := by
  simpa [taggedColumns] using congrArg List.length hcol

/-- Records with the same tagged data have the same columns. -/
theorem taggedColumn_congr (hk : k < r.cTaggedColumns s) :
    r.taggedColumn s k = r'.taggedColumn s k := by
  have hk' : k < r'.cTaggedColumns s := by rwa [← cTaggedColumns_congr hcol]
  have := congrArg (fun l => l[k]?) hcol
  simpa [taggedColumns, hk, hk'] using this

include h h'

/-- Records with the same tagged data have their columns at the same places in it. -/
theorem tagPos_congr (hk : k ≤ r.cTaggedColumns s) :
    r.tagPos s k + r'.ibTaggedData = r'.tagPos s k + r.ibTaggedData := by
  have hc := cTaggedColumns_congr hcol
  induction k with
  | zero =>
    rw [h.tagPos_zero, h'.tagPos_zero, hc]
    omega
  | succ k ih =>
    have hlen : r.cbTagData s k = r'.cbTagData s k := by
      rw [← h.length_tagData hk, ← h'.length_tagData (hc ▸ hk)]
      exact congrArg (fun c => c.pv.length) (taggedColumn_congr hcol hk)
    have := ih (by omega)
    rw [tagPos_of_lt hk, tagPos_of_lt (hc ▸ hk)] at this
    rw [← h.tagPos_succ hk, ← h'.tagPos_succ (hc ▸ hk)]
    omega

/-- The same columns have the same `TAGFLD`s. -/
theorem ptagfld_congr (hk : k < r.cTaggedColumns s) : r.ptagfld k = r'.ptagfld k := by
  have hc := cTaggedColumns_congr hcol
  have hcolk := taggedColumn_congr hcol hk
  have hpos := tagPos_congr h h' hcol hk.le
  rw [tagPos_of_lt hk, tagPos_of_lt (hc ▸ hk), ibTagData, ibTagData] at hpos
  have hIb : (r.ptagfld k).m_ib &&& TAGFLD.maskIb s = (r'.ptagfld k).m_ib &&& TAGFLD.maskIb s :=
    BitVec.eq_of_toNat_eq (show (r.ptagfld k).Ib s = (r'.ptagfld k).Ib s by omega)
  have hflags : (r.ptagfld k).m_ib &&& ~~~TAGFLD.maskIb s =
      (r'.ptagfld k).m_ib &&& ~~~TAGFLD.maskIb s := congrArg TaggedColumn.flags hcolk
  have hsplit : ∀ x : BitVec 16, x = x &&& TAGFLD.maskIb s ||| x &&& ~~~TAGFLD.maskIb s := by
    intro x
    rw [← BitVec.and_or_distrib_left, BitVec.or_not_self, BitVec.and_allOnes]
  refine TAGFLD.ext (BitVec.eq_of_toNat_eq (congrArg TaggedColumn.fid hcolk)) ?_
  rw [hsplit (r.ptagfld k).m_ib, hIb, hflags, ← hsplit]

/-- The tagged area is determined by the tagged columns. -/
theorem taggedArea_congr :
    Aligns r r' r.ibTaggedData r'.ibTaggedData [] r.length r'.length := by
  have hc := cTaggedColumns_congr hcol
  have h0 := h.tagPos_zero
  have h0' := h'.tagPos_zero
  have hle := h.tagPos_le 0
  have hle' := h'.tagPos_le 0
  rw [← hc] at h0'
  have harray : Aligns r r' r.ibTaggedData r'.ibTaggedData [] (r.tagPos s 0) (r'.tagPos s 0) := by
    rw [h0, h0']
    refine .same _ (slice_congr (by omega) (by omega) fun b hb => ?_)
    have hfld := ptagfld_congr h h' hcol (show b / 4 < r.cTaggedColumns s by omega)
    obtain ⟨h₀, h₁⟩ := wordAt_inj (congrArg TAGFLD.m_fid hfld)
    obtain ⟨h₂, h₃⟩ := wordAt_inj (congrArg TAGFLD.m_ib hfld)
    obtain ⟨q, t, ht, rfl⟩ : ∃ q t, t < 4 ∧ b = 4 * q + t := ⟨b / 4, b % 4, by omega, by omega⟩
    rw [show (4 * q + t) / 4 = q by omega] at h₀ h₁ h₂ h₃
    simp only [Nat.add_assoc] at h₀ h₁ h₂ h₃ ⊢
    obtain rfl | rfl | rfl | rfl : t = 0 ∨ t = 1 ∨ t = 2 ∨ t = 3 := by omega
    exacts [h₀, h₁, h₂, h₃]
  have hdata : ∀ k ≤ r.cTaggedColumns s,
      Aligns r r' (r.tagPos s 0) (r'.tagPos s 0) [] (r.tagPos s k) (r'.tagPos s k) := by
    intro k
    induction k with
    | zero => exact fun _ => .refl _ _
    | succ k ih =>
      intro hk
      refine (ih (by omega)).trans (h.copy_tagData h' hk (hc ▸ hk) ?_)
      exact congrArg TaggedColumn.pv (taggedColumn_congr hcol hk)
  have hend := hdata _ (le_refl _)
  rw [tagPos_last, hc, tagPos_last] at hend
  exact harray.trans hend

end same

end Rec

end Ese
