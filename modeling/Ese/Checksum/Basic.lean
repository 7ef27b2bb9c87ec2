import Mathlib.Data.Nat.Bitwise
import Ese.Lib.Memory
import Ese.Lib.Xor

/-!
# The XOR-ECC checksum of a block

The new checksum format packs two 32-bit values: the XOR of the block's words with the page number,
and an error correction code. The code is the XOR of the *double index* of every set bit, the
16-bit index of the bit in the block next to its complement (`dblIndex`), truncated to the bits an
index into the block can have. A block that starts a page stores its checksum in its first two
words, which count as zero (`blockWord`).

The implementations differ in how they split the index: bits that number a row, a word of a row, a
bit of a word. Each part is a `field` of the double index.
-/

namespace Ese

/-- A `ULONG`, a `DWORD`, or a `LONG` used as a mask. -/
abbrev ULONG := BitVec 32

abbrev XECHECKSUM := BitVec 64

def makeChecksumFromECCXORAndPgno (eccChecksum xorChecksum pgno : ULONG) : XECHECKSUM :=
  let low : XECHECKSUM := (xorChecksum ^^^ pgno).setWidth 64
  let high : XECHECKSUM := eccChecksum.setWidth 64 <<< 32
  high ||| low

/-- The block sizes the checksum routines assert: a power of two between 1 KB and 8 KB. -/
def BlockSize (cb : Nat) : Prop := 0 = cb &&& (cb - 1) ∧ 1024 ≤ cb ∧ cb ≤ 8192

/-- The block as an array of words. -/
def pdw (pb : Mem) (i : Nat) : ULONG := pb.readU32 (4 * i)

/-! ## The checksum of a block -/

/-- Word `i` of a block, with the checksum region of a header block read as zero. -/
def blockWord (pb : Mem) (fHeaderBlock : Bool) (i : Nat) : ULONG :=
  if fHeaderBlock ∧ i < 2 then 0 else pdw pb i

/-- The XOR half: all words of the block and the page number. -/
def blockXor (pb : Mem) (cb : Nat) (pgno : ULONG) (fHeaderBlock : Bool) : ULONG :=
  xorSum (cb / 4) (blockWord pb fHeaderBlock) ^^^ pgno

/-- The ECC half: the XOR of the complemented indices of the set bits above the XOR of their
indices, both truncated to the width of an index into the block. -/
def blockEcc (pb : Mem) (cb : Nat) (fHeaderBlock : Bool) : ULONG :=
  let bit := wordBit (blockWord pb fHeaderBlock)
  let width := BitVec.ofNat 16 (8 * cb - 1)
  (indexSum bit (fun i => ~~~BitVec.ofNat 16 i) (8 * cb) &&& width) ++
    (indexSum bit (fun i => BitVec.ofNat 16 i) (8 * cb) &&& width)

/-- The checksum every implementation computes. -/
def blockChecksum (pb : Mem) (cb : Nat) (pgno : ULONG) (fHeaderBlock : Bool) : XECHECKSUM :=
  blockEcc pb cb fHeaderBlock ++ blockXor pb cb pgno fHeaderBlock

theorem makeChecksumFromECCXORAndPgno_eq (eccChecksum xorChecksum pgno : ULONG) :
    makeChecksumFromECCXORAndPgno eccChecksum xorChecksum pgno = eccChecksum ++
      (xorChecksum ^^^ pgno) := by
  apply BitVec.eq_of_getLsbD_eq
  intro i hi
  rw [makeChecksumFromECCXORAndPgno, BitVec.getLsbD_append]
  by_cases h : i < 32
  · simp [h, show i < 64 by omega]
  · have hx := BitVec.getLsbD_of_ge (xorChecksum ^^^ pgno) i (by omega)
    simp only [BitVec.getLsbD_xor] at hx
    simp [h, hi, hx]

/-! ## Double indices -/

/-- A 16-bit index in the low half and its complement in the high half. -/
def dblIndex (i : Nat) : ULONG := ~~~BitVec.ofNat 16 i ++ BitVec.ofNat 16 i

/-- The bits `[lo, lo + wid)` of both halves. -/
def field (lo wid : Nat) : ULONG :=
  let m := BitVec.ofNat 16 ((2 ^ wid - 1) <<< lo)
  m ++ m

/-- The XOR of the double indices of the set bits of `n` words. -/
def eccSum (a : Nat → ULONG) (n : Nat) : ULONG := indexSum (wordBit a) dblIndex (n * 32)

theorem getLsbD_dblIndex (i j : Nat) :
    (dblIndex i).getLsbD j = if j < 16 then i.testBit j else decide (j < 32) && !i.testBit
      (j - 16) := by
  rw [dblIndex, BitVec.getLsbD_append, BitVec.getLsbD_not, BitVec.getLsbD_ofNat,
    BitVec.getLsbD_ofNat]
  by_cases hj : j < 16
  · simp [hj]
  · by_cases hj2 : j < 32
    · simp [hj, hj2, show j - 16 < 16 by omega]
    · simp [hj, hj2, show ¬ j - 16 < 16 by omega]

theorem getLsbD_field (lo wid j : Nat) :
    (field lo wid).getLsbD j = (decide (j < 32) && decide (lo ≤ j % 16 ∧ j % 16 < lo + wid)) := by
  have hm (k : Nat) : (BitVec.ofNat 16 ((2 ^ wid - 1) <<< lo)).getLsbD k
      = (decide (k < 16) && decide (lo ≤ k ∧ k < lo + wid)) := by
    rw [BitVec.getLsbD_ofNat, Nat.testBit_shiftLeft, Nat.testBit_two_pow_sub_one]
    grind
  rw [field, BitVec.getLsbD_append]
  grind

/-- A field of the double index depends on the same bits of the index. -/
theorem dblIndex_and_field {i k lo wid : Nat} (h : i / 2 ^ lo % 2 ^ wid = k / 2 ^ lo % 2 ^ wid) :
    dblIndex i &&& field lo wid = dblIndex k &&& field lo wid := by
  have hb (j : Nat) (h1 : lo ≤ j) (h2 : j < lo + wid) : i.testBit j = k.testBit j := by
    have := congrArg (fun x => x.testBit (j - lo)) h
    simp only [Nat.testBit_mod_two_pow, Nat.testBit_div_two_pow] at this
    rw [show j - lo + lo = j by omega] at this
    simpa [show j - lo < wid by omega] using this
  apply BitVec.eq_of_getLsbD_eq
  intro j hj
  rw [BitVec.getLsbD_and, BitVec.getLsbD_and, getLsbD_field, getLsbD_dblIndex, getLsbD_dblIndex]
  by_cases hf : lo ≤ j % 16 ∧ j % 16 < lo + wid
  · have := hb (j % 16) hf.1 hf.2
    by_cases h16 : j < 16
    · rw [Nat.mod_eq_of_lt h16] at this
      simp [h16, this]
    · rw [show j % 16 = j - 16 by omega] at this
      simp [h16, this]
  · simp [hf]

/-! ## The truncated code -/

/-- The mask that cuts the high half down to the block's index width. -/
def eccMask (cb : Nat) : ULONG := (BitVec.ofNat 32 cb <<< 19) - 1

theorem BlockSize.eq_pow {cb : Nat} (h : BlockSize cb) : ∃ k ≤ 3, cb = 2 ^ (10 + k) := by
  obtain ⟨h0, hlo, hhi⟩ := h
  obtain ⟨e, rfl⟩ := (Nat.and_sub_one_eq_zero_iff_isPowerOfTwo (by omega)).1 h0.symm
  have h1 : 10 ≤ e :=
    (Nat.pow_le_pow_iff_right (by decide : 1 < 2)).1 (show 2 ^ 10 ≤ 2 ^ e from hlo)
  have h2 : e ≤ 13 :=
    (Nat.pow_le_pow_iff_right (by decide : 1 < 2)).1 (show 2 ^ e ≤ 2 ^ 13 from hhi)
  exact ⟨e - 10, by omega, by rw [show 10 + (e - 10) = e by omega]⟩

/-- The four block sizes. -/
theorem BlockSize.cases {cb : Nat} (h : BlockSize cb) :
    cb = 1024 ∨ cb = 2048 ∨ cb = 4096 ∨ cb = 8192 := by
  obtain ⟨k, hk, rfl⟩ := h.eq_pow
  match k, hk with
  | 0, _ | 1, _ | 2, _ | 3, _ => simp

/-- The ECC half of a block is the code of its words, truncated in both halves. -/
theorem blockEcc_eq_and_width {cb : Nat} (h : BlockSize cb) (pb : Mem) (fHeaderBlock : Bool) :
    blockEcc pb cb fHeaderBlock
      = eccSum (blockWord pb fHeaderBlock) (cb / 4)
          &&& (BitVec.ofNat 16 (8 * cb - 1) ++ BitVec.ofNat 16 (8 * cb - 1)) := by
  have hn : cb / 4 * 32 = 8 * cb := by
    rcases h.cases with rfl | rfl | rfl | rfl <;> rfl
  have hd : dblIndex = fun i => ~~~BitVec.ofNat 16 i ++ BitVec.ofNat 16 i := rfl
  rw [eccSum, hn, hd, indexSum_append, BitVec.and_append, blockEcc]

/-- The source's mask truncates the high half only: the indices into the block already fit the low
half. -/
theorem blockEcc_eq {cb : Nat} (h : BlockSize cb) (pb : Mem) (fHeaderBlock : Bool) :
    blockEcc pb cb fHeaderBlock = eccSum (blockWord pb fHeaderBlock) (cb / 4) &&& eccMask cb := by
  have hn : cb / 4 * 32 = 8 * cb := by
    rcases h.cases with rfl | rfl | rfl | rfl <;> rfl
  have hd : dblIndex = fun i => ~~~BitVec.ofNat 16 i ++ BitVec.ofNat 16 i := rfl
  have hmask : eccMask cb = BitVec.ofNat 16 (8 * cb - 1) ++ BitVec.allOnes 16 := by
    rcases h.cases with rfl | rfl | rfl | rfl <;> decide
  have hlow (i : Nat) (hi : i < 8 * cb) :
      BitVec.ofNat 16 i &&& BitVec.ofNat 16 (8 * cb - 1) = BitVec.ofNat 16 i := by
    obtain ⟨k, -, rfl⟩ := h.eq_pow
    rw [← BitVec.ofNat_and, show 8 * 2 ^ (10 + k) = 2 ^ (13 + k) by ring] at *
    rw [Nat.and_two_pow_sub_one_eq_mod, Nat.mod_eq_of_lt hi]
  rw [eccSum, hn, hmask, hd, indexSum_append, BitVec.and_append, BitVec.and_allOnes, blockEcc,
    indexSum_and _ (fun i => BitVec.ofNat 16 i), indexSum_congr hlow]

/-! ## Fields of the code

`a` is an array of words, in rows of `m` words where a field is about rows. Bit `b` of word `k` has
the index `32 * k + b`.
-/

/-- Column `j` of `R` rows of `m` words. -/
def column (a : Nat → ULONG) (m R j : Nat) : ULONG := xorSum R fun r => a (m * r + j)

/-- The columns of the rows XOR to the words. -/
theorem xorSum_column (a : Nat → ULONG) (m R : Nat) :
    xorSum m (column a m R) = xorSum (R * m) a := by
  rw [xorSum_mul, xorSum_comm]
  rfl

/-- A field above the bits of a word is distributed by the parities of the words. -/
theorem eccSum_and_words (a : Nat → ULONG) (n : Nat) {lo : Nat} (wid : Nat) (hlo : 5 ≤ lo) :
    eccSum a n &&& field lo wid
      = xorSum n fun k => parityMask 32 (a k) &&& (dblIndex (32 * k) &&& field lo wid) := by
  refine indexSum_and_of_word (by decide) fun k _ b hb => dblIndex_and_field ?_
  obtain ⟨d, rfl⟩ := Nat.exists_eq_add_of_le hlo
  rw [Nat.pow_add, ← Nat.div_div_eq_div_mul, ← Nat.div_div_eq_div_mul,
    show (32 * k + b) / 2 ^ 5 = k by omega, show 32 * k / 2 ^ 5 = k by omega]

/-- The field above a row's bits is distributed by the parities of the rows. -/
theorem eccSum_and_rows (a : Nat → ULONG) {R m lo wid : Nat} (hm : 2 ^ lo = 32 * m)
    (hlo : 5 ≤ lo) {idx : Nat → ULONG}
    (hidx : ∀ r < R, idx r = dblIndex (2 ^ lo * r) &&& field lo wid) :
    eccSum a (R * m) &&& field lo wid
      = xorSum R fun r => parityMask 32 (xorSum m fun j => a (m * r + j)) &&& idx r := by
  rw [eccSum_and_words a _ wid hlo]
  refine xorSum_parityMask_rows fun r hr j hj => ?_
  rw [hidx r hr]
  refine dblIndex_and_field (congrArg (· % 2 ^ wid) ?_)
  rw [hm, Nat.mul_div_cancel_left r (by omega), show 32 * (m * r + j) = 32 * m * r + 32 * j by ring,
    Nat.mul_add_div (by omega), Nat.div_eq_of_lt (by omega), Nat.add_zero]

/-- A field that numbers the words of a row is distributed by the parities of the columns. -/
theorem eccSum_and_cols (a : Nat → ULONG) {R m lo wid : Nat} (hm : 2 ^ (lo + wid) ∣ 32 * m)
    (hlo : 5 ≤ lo) {idx : Nat → ULONG}
    (hidx : ∀ j < m, idx j = dblIndex (32 * j) &&& field lo wid) :
    eccSum a (R * m) &&& field lo wid
      = xorSum m fun j => parityMask 32 (column a m R j) &&& idx j := by
  rw [eccSum_and_words a _ wid hlo]
  refine xorSum_parityMask_cols fun r _ j hj => ?_
  rw [hidx j hj]
  refine dblIndex_and_field ?_
  rw [show 32 * (m * r + j) = 32 * m * r + 32 * j by ring]
  obtain ⟨c, hc⟩ := hm
  rw [hc, Nat.pow_add, show 2 ^ lo * 2 ^ wid * c * r + 32 * j = 2 ^ lo * (2 ^ wid * (c * r)) + 32 *
    j by ring,
    Nat.mul_add_div (Nat.two_pow_pos lo), Nat.mul_add_mod]

/-- The field of the bits of a word is the index sum of the XOR of the words. -/
theorem eccSum_and_bits (a : Nat → ULONG) (n : Nat) :
    eccSum a n &&& field 0 5
      = indexSum (xorSum n a).getLsbD (fun b => dblIndex b &&& field 0 5) 32 :=
  indexSum_and_of_bit (by decide) fun k _ b _ => dblIndex_and_field (by omega)

end Ese
