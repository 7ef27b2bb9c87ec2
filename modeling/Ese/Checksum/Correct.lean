import Ese.Checksum.Basic
import Ese.Lib.Bits

/-!
# Correcting a single-bit error

The expected and the actual checksum of a block with one flipped bit differ by the double index of
the bit in the ECC half, and by one bit in the XOR half (`blockEcc_flip`, `blockXor_flip`). A double
index has every bit of the block's index width set in one half and clear in the other, so
`FECCErrorIsCorrectable` accepts the pair and `IbitCorrupted` reads the bit's offset from it.
-/

namespace Ese

/-- The ECC half of a checksum. -/
def dwECCChecksumFromXEChecksum (checksum : XECHECKSUM) : ULONG := (checksum >>> 32).setWidth 32

/-- The XOR half of a checksum. -/
def dwXORChecksumFromXEChecksum (checksum : XECHECKSUM) : ULONG :=
  (checksum &&& 0xffffffff).setWidth 32

/-- `CbitSet`. -/
def cbitSet (dw : ULONG) : Nat :=
  (List.range 32).foldl (fun cbit ibit => if dw &&& (1#32 <<< ibit) ≠ 0 then cbit + 1 else cbit) 0

/-- The largest DWORD. -/
def ulMax : ULONG := 0xffffffff

/-- `FECCErrorIsCorrectable` of two ECC checksums. -/
def fECCErrorIsCorrectableDw (cb : Nat) (dwECCChecksumExpected dwECCChecksumActual : ULONG) :
    Bool :=
  let dwEcc := dwECCChecksumActual ^^^ dwECCChecksumExpected
  let ulMask := (BitVec.ofNat 32 cb <<< 3) - 1
  let ulX := ((dwEcc >>> 16) ^^^ dwEcc) &&& ulMask
  ulMask = ulX

/-- `FECCErrorIsCorrectable`: the ECCs differ as for one bit, and one bit of the XORs. -/
def fECCErrorIsCorrectable (cb : Nat) (xeChecksumExpected xeChecksumActual : XECHECKSUM) : Bool :=
  let dwECCChecksumExpected := dwECCChecksumFromXEChecksum xeChecksumExpected
  let dwECCChecksumActual := dwECCChecksumFromXEChecksum xeChecksumActual
  if fECCErrorIsCorrectableDw cb dwECCChecksumExpected dwECCChecksumActual then
    let dwXor := dwXORChecksumFromXEChecksum xeChecksumActual ^^^
      dwXORChecksumFromXEChecksum xeChecksumExpected
    1 = cbitSet dwXor
  else false

/-- `IbitCorrupted` of two ECC checksums. -/
def ibitCorruptedDw (cb : Nat) (dwECCChecksumExpected dwECCChecksumActual : ULONG) : ULONG :=
  let dwEcc := dwECCChecksumActual ^^^ dwECCChecksumExpected
  if dwEcc = 0 then ulMax
  else
    let ibitCorrupted := dwEcc &&& 0xffff
    let ibCorrupted := ibitCorrupted.toNat / 8
    if cb ≤ ibCorrupted then ulMax else ibitCorrupted

/-- `IbitCorrupted`: the bit that the ECCs point at. -/
def ibitCorrupted (cb : Nat) (xeChecksumExpected xeChecksumActual : XECHECKSUM) : ULONG :=
  let dwECCChecksumExpected := dwECCChecksumFromXEChecksum xeChecksumExpected
  let dwECCChecksumActual := dwECCChecksumFromXEChecksum xeChecksumActual
  ibitCorruptedDw cb dwECCChecksumExpected dwECCChecksumActual

/-! ## The halves of a checksum -/

/-- The ECC half of a checksum that was put together. -/
theorem dwECCChecksum_append (ecc xor : ULONG) :
    dwECCChecksumFromXEChecksum (ecc ++ xor) = ecc := by
  refine BitVec.eq_of_getLsbD_eq fun i hi => ?_
  rw [dwECCChecksumFromXEChecksum, BitVec.getLsbD_setWidth, BitVec.getLsbD_ushiftRight,
    BitVec.getLsbD_append, if_neg (by omega)]
  simp [hi]

/-- The XOR half of a checksum that was put together. -/
theorem dwXORChecksum_append (ecc xor : ULONG) :
    dwXORChecksumFromXEChecksum (ecc ++ xor) = xor := by
  refine BitVec.eq_of_getLsbD_eq fun i hi => ?_
  rw [dwXORChecksumFromXEChecksum, BitVec.getLsbD_setWidth, BitVec.getLsbD_and,
    BitVec.getLsbD_append,
    if_pos hi, show (0xffffffff : BitVec 64) = BitVec.ofNat 64 (2 ^ 32 - 1) from rfl,
    BitVec.getLsbD_ofNat, Nat.testBit_two_pow_sub_one]
  simp [hi, show i < 64 by omega]

/-! ## A flipped bit -/

/-- The bits a block's checksum is taken of: a header block's first 64 count as clear. -/
theorem wordBit_blockWord (pb : Mem) (fHeaderBlock : Bool) (i : Nat) :
    wordBit (blockWord pb fHeaderBlock) i = (pb.bit i && !(fHeaderBlock && decide (i < 64))) := by
  rw [wordBit, blockWord]
  by_cases h : fHeaderBlock ∧ i / 32 < 2
  · rw [if_pos h]
    simp [h.1, show i < 64 by omega]
  · rw [if_neg h, pdw, Mem.getLsbD_readU32 _ _ (Nat.mod_lt _ (by decide)),
      show 8 * (4 * (i / 32)) + i % 32 = i by omega]
    cases fHeaderBlock
    · simp
    · simp [show ¬ i < 64 by simp only [true_and] at h; omega]

/-- The checksum of a block reads its bits only, a header block's from the 65th on. -/
theorem blockChecksum_congr {pb pb' : Mem} {cb : Nat} (h : BlockSize cb) {fHeaderBlock : Bool}
    (hb : ∀ i < 8 * cb, (fHeaderBlock = true → 64 ≤ i) → pb'.bit i = pb.bit i) (pgno : ULONG) :
    blockChecksum pb' cb pgno fHeaderBlock = blockChecksum pb cb pgno fHeaderBlock := by
  have hn : cb / 4 * 32 = 8 * cb := by
    rcases h.cases with rfl | rfl | rfl | rfl <;> rfl
  have hbits (i : Nat) (hi : i < 8 * cb) :
      wordBit (blockWord pb' fHeaderBlock) i = wordBit (blockWord pb fHeaderBlock) i := by
    rw [wordBit_blockWord, wordBit_blockWord]
    cases fHeaderBlock
    · rw [hb i hi (by simp)]
    · by_cases h64 : i < 64
      · simp [h64]
      · rw [hb i hi (fun _ => by omega)]
  rw [blockChecksum, blockChecksum, blockEcc_eq h, blockEcc_eq h, blockXor, blockXor, eccSum,
    eccSum,
    xorSum_eq_indexSum (by decide), xorSum_eq_indexSum (by decide), hn, indexSum_congr_bits hbits,
    indexSum_congr_bits hbits]

section
variable {pb pb' : Mem} {cb x : Nat} {fHeaderBlock : Bool} (hx : x < 8 * cb)
  (hh : fHeaderBlock = true → 64 ≤ x)
  (hflip : ∀ i < 8 * cb, pb'.bit i = (pb.bit i ^^ decide (i = x)))
include hx hh hflip

/-- One flipped bit changes an index sum over a block's bits by its index. -/
theorem indexSum_block_flip (idx : Nat → ULONG) :
    indexSum (wordBit (blockWord pb' fHeaderBlock)) idx (8 * cb)
      = indexSum (wordBit (blockWord pb fHeaderBlock)) idx (8 * cb) ^^^ idx x := by
  rw [← indexSum_flip hx]
  refine indexSum_congr_bits fun i hi => ?_
  rw [wordBit_blockWord, wordBit_blockWord, hflip i hi]
  cases hf : fHeaderBlock
  · simp
  · have := hh hf
    by_cases hix : i = x
    · subst hix
      simp [show ¬ i < 64 by omega]
    · simp [hix]

/-- A flipped bit changes the ECC by its index. -/
theorem blockEcc_flip (h : BlockSize cb) :
    blockEcc pb' cb fHeaderBlock = blockEcc pb cb fHeaderBlock ^^^
      (dblIndex x &&& (BitVec.ofNat 16 (8 * cb - 1) ++ BitVec.ofNat 16 (8 * cb - 1))) := by
  have hn : cb / 4 * 32 = 8 * cb := by
    rcases h.cases with rfl | rfl | rfl | rfl <;> rfl
  rw [blockEcc_eq_and_width h, blockEcc_eq_and_width h, eccSum, eccSum, hn,
    indexSum_block_flip hx hh hflip, xor_and_distrib]

/-- A flipped bit changes the XOR at its place in the DWORD. -/
theorem blockXor_flip (h : BlockSize cb) (pgno : ULONG) :
    blockXor pb' cb pgno fHeaderBlock
      = blockXor pb cb pgno fHeaderBlock ^^^ BitVec.twoPow 32 (x % 32) := by
  have hn : cb / 4 * 32 = 8 * cb := by
    rcases h.cases with rfl | rfl | rfl | rfl <;> rfl
  rw [blockXor, blockXor, xorSum_eq_indexSum (by decide), xorSum_eq_indexSum (by decide), hn,
    indexSum_block_flip hx hh hflip]
  ac_rfl

end

/-! ## The difference of the two codes -/

/-- The difference that bit `x` makes in the code of a block. -/
def eccDiff (cb x : Nat) : ULONG :=
  dblIndex x &&& (BitVec.ofNat 16 (8 * cb - 1) ++ BitVec.ofNat 16 (8 * cb - 1))

section
variable {cb x : Nat} (h : BlockSize cb) (hx : x < 8 * cb)
include h hx

/-- The low half of the difference is the index, the high half its complement in the width. -/
theorem getLsbD_eccDiff {j : Nat} (hj : j < 16) :
    (eccDiff cb x).getLsbD j = x.testBit j
      ∧ (eccDiff cb x).getLsbD (16 + j) = ((8 * cb - 1).testBit j && !x.testBit j) := by
  obtain ⟨k, hk, rfl⟩ := h.eq_pow
  rw [show 8 * 2 ^ (10 + k) = 2 ^ (13 + k) by ring] at *
  have hw (i : Nat) : (BitVec.ofNat 16 (2 ^ (13 + k) - 1)).getLsbD i = decide (i < 13 + k) := by
    rw [BitVec.getLsbD_ofNat, Nat.testBit_two_pow_sub_one]
    by_cases hi : i < 13 + k
    · simp [hi, show i < 16 by omega]
    · simp [hi]
  have hhigh (i : Nat) (hi : ¬ i < 13 + k) : x.testBit i = false :=
    Nat.testBit_lt_two_pow (Nat.lt_of_lt_of_le hx (Nat.pow_le_pow_right (by decide) (by omega)))
  rw [eccDiff, show 8 * 2 ^ (10 + k) = 2 ^ (13 + k) by ring]
  constructor
  · rw [BitVec.getLsbD_and, getLsbD_dblIndex, if_pos hj, BitVec.getLsbD_append, if_pos hj, hw]
    by_cases hi : j < 13 + k
    · simp [hi]
    · simp [hhigh j hi]
  · rw [BitVec.getLsbD_and, getLsbD_dblIndex, if_neg (by omega), BitVec.getLsbD_append,
      if_neg (by omega), show 16 + j - 16 = j by omega, hw, Nat.testBit_two_pow_sub_one,
      Bool.and_comm]
    simp [show 16 + j < 32 by omega]

/-- The difference is accepted as a single-bit error. -/
theorem fECCErrorIsCorrectableDw_eccDiff (ecc : ULONG) :
    fECCErrorIsCorrectableDw cb ecc (ecc ^^^ eccDiff cb x) = true := by
  have hmask : (BitVec.ofNat 32 cb <<< 3) - 1 = BitVec.ofNat 32 (8 * cb - 1) := by
    rcases h.cases with rfl | rfl | rfl | rfl <;> decide
  have hle : 8 * cb - 1 < 2 ^ 16 := by
    have := h.2.2
    omega
  have hd : ecc ^^^ eccDiff cb x ^^^ ecc = eccDiff cb x := by
    rw [BitVec.xor_comm ecc, BitVec.xor_assoc, BitVec.xor_self, BitVec.xor_zero]
  rw [fECCErrorIsCorrectableDw]
  simp only [hd, hmask, decide_eq_true_eq]
  refine BitVec.eq_of_getLsbD_eq fun j hj => ?_
  rw [BitVec.getLsbD_and, BitVec.getLsbD_xor, BitVec.getLsbD_ushiftRight, BitVec.getLsbD_ofNat]
  by_cases h16 : j < 16
  · obtain ⟨h1, h2⟩ := getLsbD_eccDiff h hx h16
    rw [h1, h2]
    cases (8 * cb - 1).testBit j <;> cases x.testBit j <;> simp [hj]
  · rw [Nat.testBit_lt_two_pow
      (Nat.lt_of_lt_of_le hle (Nat.pow_le_pow_right (by decide) (by omega)))]
    simp

/-- The bit's offset is read from the difference. -/
theorem ibitCorruptedDw_eccDiff (ecc : ULONG) :
    ibitCorruptedDw cb ecc (ecc ^^^ eccDiff cb x) = BitVec.ofNat 32 x := by
  have hd : ecc ^^^ eccDiff cb x ^^^ ecc = eccDiff cb x := by
    rw [BitVec.xor_comm ecc, BitVec.xor_assoc, BitVec.xor_self, BitVec.xor_zero]
  have hle : x < 2 ^ 16 := by
    have := h.2.2
    omega
  have hlow : eccDiff cb x &&& 0xffff = BitVec.ofNat 32 x := by
    refine BitVec.eq_of_getLsbD_eq fun j hj => ?_
    rw [BitVec.getLsbD_and, show (0xffff : ULONG) = BitVec.ofNat 32 (2 ^ 16 - 1) from rfl,
      BitVec.getLsbD_ofNat, BitVec.getLsbD_ofNat, Nat.testBit_two_pow_sub_one]
    by_cases h16 : j < 16
    · rw [(getLsbD_eccDiff h hx h16).1]
      simp [h16, hj]
    · rw [Nat.testBit_lt_two_pow
        (Nat.lt_of_lt_of_le hle (Nat.pow_le_pow_right (by decide) (by omega)))]
      simp [h16]
  -- bit 16 or bit 0 of the difference is set
  have hne : eccDiff cb x ≠ 0 := fun h0 => by
    obtain ⟨h1, h2⟩ := getLsbD_eccDiff h hx (show 0 < 16 by decide)
    have hodd : (8 * cb - 1).testBit 0 = true := by
      rcases h.cases with rfl | rfl | rfl | rfl <;> rfl
    rw [h0, hodd] at h2
    rw [h0] at h1
    rw [← h1] at h2
    simp at h2
  rw [ibitCorruptedDw]
  dsimp only
  rw [hd, if_neg hne, hlow, if_neg]
  rw [BitVec.toNat_ofNat, Nat.mod_eq_of_lt (by omega)]
  omega

end

/-- The checksums of a block before and after a bit flips. -/
theorem blockChecksum_correctable {pb pb' : Mem} {cb x : Nat} {fHeaderBlock : Bool}
    (h : BlockSize cb)
    (hx : x < 8 * cb) (hh : fHeaderBlock = true → 64 ≤ x)
    (hflip : ∀ i < 8 * cb, pb'.bit i = (pb.bit i ^^ decide (i = x))) (pgno : ULONG) :
    fECCErrorIsCorrectable cb (blockChecksum pb cb pgno fHeaderBlock)
        (blockChecksum pb' cb pgno fHeaderBlock) = true
      ∧ ibitCorrupted cb (blockChecksum pb cb pgno fHeaderBlock)
        (blockChecksum pb' cb pgno fHeaderBlock) = BitVec.ofNat 32 x
      ∧ blockChecksum pb cb pgno fHeaderBlock ≠ blockChecksum pb' cb pgno fHeaderBlock := by
  have hecc := blockEcc_flip hx hh hflip h
  have hxor := blockXor_flip hx hh hflip h pgno
  have hcorr := fECCErrorIsCorrectableDw_eccDiff h hx (blockEcc pb cb fHeaderBlock)
  have hcbit : ∀ b < 32, cbitSet (BitVec.twoPow 32 b) = 1 := by decide +kernel
  have hself : blockXor pb cb pgno fHeaderBlock ^^^ BitVec.twoPow 32 (x % 32)
      ^^^ blockXor pb cb pgno fHeaderBlock = BitVec.twoPow 32 (x % 32) := by
    rw [BitVec.xor_comm (blockXor _ _ _ _), BitVec.xor_assoc, BitVec.xor_self, BitVec.xor_zero]
  rw [← eccDiff] at hecc
  refine ⟨?_, ?_, fun heq => ?_⟩
  · rw [fECCErrorIsCorrectable]
    simp only [blockChecksum, dwECCChecksum_append, dwXORChecksum_append, hecc, hxor, hcorr,
      if_true,
      hself, hcbit _ (Nat.mod_lt x (by decide)), decide_true]
  · rw [ibitCorrupted, blockChecksum, blockChecksum, dwECCChecksum_append, dwECCChecksum_append,
      hecc]
    exact ibitCorruptedDw_eccDiff h hx _
  · have := congrArg dwXORChecksumFromXEChecksum heq
    rw [blockChecksum, blockChecksum, dwXORChecksum_append, dwXORChecksum_append, hxor] at this
    have h0 := hcbit _ (Nat.mod_lt x (by decide))
    rw [← hself, ← this, BitVec.xor_self] at h0
    exact absurd h0 (by decide)

end Ese
