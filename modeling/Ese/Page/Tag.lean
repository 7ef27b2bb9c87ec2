import Mathlib.Tactic.IntervalCases
import Ese.Page.Basic

/-!
# Tags over the page bytes

What the tag accessors of a page see after each elementary update: the offset, the length and the
flag bits share words with each other, and the tag array shares the byte memory with the lines.
A tag `Fits` when its four bytes are in the data area; every update of a fitting tag leaves the
other tags and every byte below the tag alone.
-/

namespace Ese

/-! ## Casts -/

/-- A number of sixteen bits is kept. -/
@[simp] theorem ushort_natCast {n : Nat} (h : n < 65536) : ushort n = n := by
  simp only [ushort]; omega

/-- A difference that is a number of sixteen bits is kept. -/
theorem ushort_of_nonneg {x : Int} {n : Nat} (h : x = n) (hn : n < 65536) : ushort x = n := by
  rw [h, ushort_natCast hn]

/-- A number in the range of a SHORT is kept. -/
theorem short_of_mem {x : Int} (h₁ : -32768 ≤ x) (h₂ : x < 32768) : short x = x := by
  simp only [short]; omega

namespace Tag

/-! ## The words of a tag -/

/-- The number of offsets a tag word can hold. -/
def ibCbMac (fSmallFormat : Bool) : Nat := if fSmallFormat then 8192 else 32768

/-- The bits a mask selects are those of the value stored under it. -/
theorem masked_and (x y m : BitVec 16) : (x &&& ~~~m ||| y) &&& m = y &&& m := by
  apply BitVec.eq_of_getLsbD_eq
  intro i hi
  simp only [BitVec.getLsbD_and, BitVec.getLsbD_or, BitVec.getLsbD_not, hi, decide_true,
    Bool.true_and]
  cases m.getLsbD i <;> simp

/-- The mask keeps every offset and size of a page. -/
theorem ofNat_and_mskIbCb (fSmallFormat : Bool) {v : Nat} (h : v < ibCbMac fSmallFormat) :
    (BitVec.ofNat 16 v &&& mskIbCb fSmallFormat).toNat = v := by
  rw [BitVec.toNat_and, BitVec.toNat_ofNat]
  cases fSmallFormat
  · have h' : v < 2 ^ 15 := h
    have e : (mskIbCb false).toNat = 2 ^ 15 - 1 := rfl
    rw [e, Nat.and_two_pow_sub_one_eq_mod]
    omega
  · have h' : v < 2 ^ 13 := h
    have e : (mskIbCb true).toNat = 2 ^ 13 - 1 := rfl
    rw [e, Nat.and_two_pow_sub_one_eq_mod]
    omega

/-- A stored offset or length is read back. -/
theorem setWord_read (fSmallFormat : Bool) (x : BitVec 16) {v : Nat}
    (h : v < ibCbMac fSmallFormat) :
    ((x &&& ~~~mskIbCb fSmallFormat ||| BitVec.ofNat 16 v) &&& mskIbCb fSmallFormat).toNat = v := by
  rw [masked_and, ofNat_and_mskIbCb fSmallFormat h]

/-- Storing an offset in a small tag keeps the flag bits of the word. -/
theorem setWord_flags (x : BitVec 16) {v : Nat} (h : v < 8192) :
    (x &&& ~~~mskSmallTagIbCb ||| BitVec.ofNat 16 v) &&& mskTagFlags = x &&& mskTagFlags := by
  have hv : ∀ i, 13 ≤ i → v.testBit i = false := fun i hi =>
    Nat.testBit_lt_two_pow (lt_of_lt_of_le h (Nat.pow_le_pow_right (show 0 < 2 by decide) hi))
  apply BitVec.eq_of_getLsbD_eq
  intro i hi
  unfold mskTagFlags mskSmallTagIbCb
  rw [BitVec.getLsbD_and, BitVec.getLsbD_or, BitVec.getLsbD_ofNat, BitVec.getLsbD_and]
  rcases Nat.lt_or_ge i 13 with h' | h'
  · interval_cases i <;> simp
  · rw [hv i h']
    interval_cases i <;> simp

/-- Storing the flag bits keeps the offset of a small tag. -/
theorem flagWord_and_mskSmall (x f : BitVec 16) :
    flagWord x f &&& mskSmallTagIbCb = x &&& mskSmallTagIbCb := by
  apply BitVec.eq_of_getLsbD_eq
  intro i hi
  unfold flagWord mskTagFlags shfTagFlags mskSmallTagIbCb
  interval_cases i <;> simp

/-- The three low bits of the stored flags are read back. -/
theorem flagWord_read (x f : BitVec 16) :
    (flagWord x f &&& mskTagFlags) >>> shfTagFlags = f &&& 7 := by
  apply BitVec.eq_of_getLsbD_eq
  intro i hi
  unfold flagWord mskTagFlags shfTagFlags
  interval_cases i <;> simp

/-- The flag bits a small tag holds. -/
def tagFlags (t : Tag) : BitVec 16 := (t.ib_ &&& mskTagFlags) >>> shfTagFlags

end Tag

/-- Offsets on a page fit into a tag. -/
theorem PageSize.cbPageData_lt (s : PageSize) : s.cbPageData < Tag.ibCbMac s.fSmallPage := by
  cases s <;> decide

/-- Sizes on a page fit into a SHORT. -/
theorem PageSize.cbPageData_lt_short (s : PageSize) : s.cbPageData < 32768 := by
  cases s <;> decide

namespace CPage

variable {p q : CPage} {i j : Nat}

/-- Tag `i` lies in the data area. -/
def Fits (p : CPage) (i : Nat) : Prop := 4 * (i + 1) ≤ p.cbPageData

/-- A tag before one that fits fits. -/
theorem Fits.mono (h : p.Fits i) (hj : j ≤ i) : p.Fits j := by
  unfold Fits at *; omega

/-- The tags lie at the end of the page, downwards. -/
theorem ptagFromItag_eq (h : p.Fits i) : p.ptagFromItag_ i + 4 * (i + 1) = p.cbPageData := by
  unfold Fits at h; unfold ptagFromItag_ cbTag; omega

/-- Different fitting tags occupy different bytes. -/
theorem ptagFromItag_disjoint (hi : p.Fits i) (hj : p.Fits j) (h : i ≠ j) :
    p.ptagFromItag_ i + 4 ≤ p.ptagFromItag_ j ∨ p.ptagFromItag_ j + 4 ≤ p.ptagFromItag_ i := by
  have := ptagFromItag_eq hi
  have := ptagFromItag_eq hj
  omega

/-- Two pages of one size whose bytes agree on a tag agree on the tag. -/
theorem tag_congr (hs : q.size = p.size)
    (h : ∀ a, p.ptagFromItag_ i ≤ a → a < p.ptagFromItag_ i + 4 → q.data a = p.data a) :
    q.tag i = p.tag i := by
  have he : q.ptagFromItag_ i = p.ptagFromItag_ i := by
    unfold ptagFromItag_ cbPageData; rw [hs]
  unfold tag
  rw [he, Mem.readU16_congr (h _ (by omega) (by omega)) (h _ (by omega) (by omega)),
    Mem.readU16_congr (h _ (by omega) (by omega)) (h _ (by omega) (by omega))]

/-! ## `setTag` -/

/-- A tag does not change the size of the page. -/
@[simp] theorem setTag_size (t : Tag) : (p.setTag i t).size = p.size := rfl

/-- A tag does not change the number of tags. -/
@[simp] theorem setTag_itagMicFree (t : Tag) : (p.setTag i t).itagMicFree = p.itagMicFree := rfl

/-- A tag does not change the number of reserved tags. -/
@[simp] theorem setTag_ctagReserved (t : Tag) : (p.setTag i t).ctagReserved = p.ctagReserved := rfl

/-- A tag does not change the free space. -/
@[simp] theorem setTag_cbFree (t : Tag) : (p.setTag i t).cbFree = p.cbFree := rfl

/-- A tag does not change where the free space begins. -/
@[simp] theorem setTag_ibMicFree (t : Tag) : (p.setTag i t).ibMicFree = p.ibMicFree := rfl

/-- Outside the four bytes of the tag nothing changes. -/
theorem setTag_data (t : Tag) {a : Nat} (h : a < p.ptagFromItag_ i ∨ p.ptagFromItag_ i + 4 ≤ a) :
    (p.setTag i t).data a = p.data a := by
  simp only [setTag]
  rw [Mem.writeU16_apply_of_not_mem _ _ (by omega), Mem.writeU16_apply_of_not_mem _ _ (by omega)]

/-- A tag that is set reads back. -/
@[simp] theorem tag_setTag_same (t : Tag) : (p.setTag i t).tag i = t := by
  show Tag.mk
    (((p.data.writeU16 (p.ptagFromItag_ i) t.cb_).writeU16 (p.ptagFromItag_ i + 2) t.ib_).readU16
      (p.ptagFromItag_ i))
    (((p.data.writeU16 (p.ptagFromItag_ i) t.cb_).writeU16 (p.ptagFromItag_ i + 2) t.ib_).readU16
      (p.ptagFromItag_ i + 2)) = t
  rw [Mem.readU16_writeU16_disjoint _ _ (by omega), Mem.readU16_writeU16_same,
    Mem.readU16_writeU16_same]

/-- A tag that is set leaves the others. -/
theorem tag_setTag_ne (t : Tag) (hi : p.Fits i) (hj : p.Fits j) (h : j ≠ i) :
    (p.setTag i t).tag j = p.tag j := by
  have := ptagFromItag_disjoint hi hj (Ne.symm h)
  exact tag_congr rfl fun a h₁ h₂ => setTag_data t (by omega)

end CPage

end Ese
