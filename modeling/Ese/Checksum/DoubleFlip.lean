import Ese.Checksum.Verify

/-!
# Two flipped bits

Two flipped bits of a block are no single-bit error: the differences that two data bits make cancel
in every pair of ECC bits, a bit of the stored ECC spoils its pair, and one of the stored XOR word
spoils the word. Only the stored ECC bit that the width of a block leaves out of the mask goes
unseen; then the data bit is corrected, and the page still does not verify.
-/

namespace Ese

/-! ## Differences of checksums -/

/-- The difference that bit `x` of a block makes in its checksum. -/
def checksumDiff (cb x : Nat) : XECHECKSUM := eccDiff cb x ++ BitVec.twoPow 32 (x % 32)

theorem getLsbD_dwECCChecksum (checksum : XECHECKSUM) {j : Nat} (hj : j < 32) :
    (dwECCChecksumFromXEChecksum checksum).getLsbD j = checksum.getLsbD (32 + j) := by
  rw [dwECCChecksumFromXEChecksum, BitVec.getLsbD_setWidth, BitVec.getLsbD_ushiftRight]
  simp [hj]

theorem getLsbD_dwXORChecksum (checksum : XECHECKSUM) {j : Nat} (hj : j < 32) :
    (dwXORChecksumFromXEChecksum checksum).getLsbD j = checksum.getLsbD j := by
  rw [dwXORChecksumFromXEChecksum, BitVec.getLsbD_setWidth, BitVec.getLsbD_and,
    show (0xffffffff : BitVec 64) = BitVec.ofNat 64 (2 ^ 32 - 1) from rfl, BitVec.getLsbD_ofNat,
    Nat.testBit_two_pow_sub_one]
  simp [hj, show j < 64 by omega]

theorem blockChecksum_flip {pb pb' : Mem} {cb x : Nat} {fHeaderBlock : Bool} (h : BlockSize cb)
    (hx : x < 8 * cb)
    (hh : fHeaderBlock = true → 64 ≤ x)
    (hflip : ∀ i < 8 * cb, pb'.bit i = (pb.bit i ^^ decide (i = x)))
    (pgno : ULONG) :
    blockChecksum pb' cb pgno fHeaderBlock = blockChecksum pb cb pgno fHeaderBlock ^^^
      checksumDiff cb x := by
  have hecc := blockEcc_flip hx hh hflip h
  rw [← eccDiff] at hecc
  rw [blockChecksum, blockChecksum, hecc, blockXor_flip hx hh hflip h pgno, checksumDiff]
  refine BitVec.eq_of_getLsbD_eq fun j hj => ?_
  rw [BitVec.getLsbD_xor, BitVec.getLsbD_append, BitVec.getLsbD_append, BitVec.getLsbD_append]
  split
  · rw [BitVec.getLsbD_xor]
  · rw [BitVec.getLsbD_xor]

section
variable {cb : Nat} {xeExpected xeActual : XECHECKSUM}

/-- A pair of ECC bits within the width that does not differ in one half only. -/
theorem fECCErrorIsCorrectable_pair {j : Nat} (h : BlockSize cb)
    (hj : (8 * cb - 1).testBit j = true)
    (heq : (xeActual ^^^ xeExpected).getLsbD (32 + j) = (xeActual ^^^ xeExpected).getLsbD
      (48 + j)) :
    fECCErrorIsCorrectable cb xeExpected xeActual = false := by
  have hj16 : j < 16 := by
    by_contra hge
    have hle : 8 * cb - 1 < 2 ^ 16 := by
      have := h.2.2
      omega
    rw [Nat.testBit_lt_two_pow
      (Nat.lt_of_lt_of_le hle (Nat.pow_le_pow_right (by decide) (by omega)))] at hj
    cases hj
  have hmask : (BitVec.ofNat 32 cb <<< 3) - 1 = BitVec.ofNat 32 (8 * cb - 1) := by
    rcases h.cases with rfl | rfl | rfl | rfl <;> decide
  rw [BitVec.getLsbD_xor, BitVec.getLsbD_xor, ← getLsbD_dwECCChecksum _ (show j < 32 by omega),
    ← getLsbD_dwECCChecksum _ (show j < 32 by omega), show 48 + j = 32 + (16 + j) by omega,
    ← getLsbD_dwECCChecksum _ (show 16 + j < 32 by omega), ← getLsbD_dwECCChecksum _
      (show 16 + j < 32 by omega)] at heq
  rw [fECCErrorIsCorrectable, if_neg]
  rw [fECCErrorIsCorrectableDw]
  simp only [hmask, decide_eq_true_eq]
  intro hall
  have hbit := congrArg (fun dw : ULONG => dw.getLsbD j) hall
  simp only [BitVec.getLsbD_and, BitVec.getLsbD_xor, BitVec.getLsbD_ushiftRight,
    BitVec.getLsbD_ofNat, hj,
    show j < 32 by omega, decide_true, Bool.and_true] at hbit
  rw [← heq, Bool.xor_self] at hbit
  cases hbit

/-- XOR words that differ in two bits, or in none. -/
theorem fECCErrorIsCorrectable_xor {i j : Nat} (hi : i < 32) (hj : j < 32)
    (heq : dwXORChecksumFromXEChecksum xeActual ^^^ dwXORChecksumFromXEChecksum xeExpected
      = BitVec.twoPow 32 i ^^^ BitVec.twoPow 32 j) :
    fECCErrorIsCorrectable cb xeExpected xeActual = false := by
  have hcbit : ∀ i < 32, ∀ j < 32, 1 ≠ cbitSet (BitVec.twoPow 32 i ^^^ BitVec.twoPow 32 j) := by
    decide +kernel
  rw [fECCErrorIsCorrectable]
  split
  · simp only [heq, decide_eq_false_iff_not]
    exact hcbit i hi j hj
  · rfl

theorem fTryFixBlock_fatal {ibitForbidden : ULONG} (hne : xeExpected ≠ xeActual)
    (h : fECCErrorIsCorrectable cb xeExpected xeActual = false ∨
      ¬(ibitCorrupted cb xeExpected xeActual).toNat < 8 * cb) :
    fTryFixBlock cb ibitForbidden xeExpected xeActual = (.xeChecksumFatalError, ibitForbidden) := by
  rw [fTryFixBlock, if_neg hne]
  split
  · next hcorr =>
    rcases h with h | h
    · rw [hcorr] at h
      cases h
    · rw [if_neg fun hc => h hc.2]
  · rfl

end

/-! ## Two bits of a block -/

section
variable {cb x y : Nat} (h : BlockSize cb)
include h

theorem getLsbD_checksumDiff (hx : x < 8 * cb) :
    (∀ j < 16, (checksumDiff cb x).getLsbD (32 + j) = x.testBit j ∧
      (checksumDiff cb x).getLsbD (48 + j) = ((8 * cb - 1).testBit j && !x.testBit j)) ∧
    ∀ j < 32, (checksumDiff cb x).getLsbD j = decide (j = x % 32) := by
  refine ⟨fun j hj => ?_, fun j hj => ?_⟩
  · obtain ⟨hlow, hhigh⟩ := getLsbD_eccDiff h hx hj
    rw [checksumDiff, BitVec.getLsbD_append, if_neg (by omega), BitVec.getLsbD_append,
      if_neg (by omega),
      Nat.add_sub_cancel_left, show 48 + j - 32 = 16 + j by omega]
    exact ⟨hlow, hhigh⟩
  · rw [checksumDiff, BitVec.getLsbD_append, if_pos hj, BitVec.getLsbD_twoPow]
    have := Nat.mod_lt x (show 0 < 32 by decide)
    simp [this, eq_comm]

theorem testBit_low {j : Nat} (hj : j < 13) : (8 * cb - 1).testBit j = true := by
  obtain ⟨k, hk, rfl⟩ := h.eq_pow
  rw [show 8 * 2 ^ (10 + k) = 2 ^ (13 + k) by ring, Nat.testBit_two_pow_sub_one]
  exact decide_eq_true (by omega)

section
variable {xeExpected xeActual : XECHECKSUM} (ibitForbidden : ULONG)

/-- Two bits of the data. -/
theorem fTryFixBlock_data (hx : x < 8 * cb) (hy : y < 8 * cb) (hxy : x ≠ y)
    (hdiff : xeActual ^^^ xeExpected = checksumDiff cb x ^^^ checksumDiff cb y) :
    xeExpected ≠ xeActual ∧
      fTryFixBlock cb ibitForbidden xeExpected xeActual =
        (.xeChecksumFatalError, ibitForbidden) := by
  obtain ⟨hx1, -⟩ := getLsbD_checksumDiff h hx
  obtain ⟨hy1, -⟩ := getLsbD_checksumDiff h hy
  have hne : xeExpected ≠ xeActual := by
    intro heq
    rw [heq, BitVec.xor_self] at hdiff
    refine hxy (Nat.eq_of_testBit_eq fun j => ?_)
    by_cases hj : j < 16
    · have hbit := congrArg (fun v : XECHECKSUM => v.getLsbD (32 + j)) hdiff
      simp only [BitVec.getLsbD_zero, BitVec.getLsbD_xor, (hx1 j hj).1, (hy1 j hj).1] at hbit
      cases hxj : x.testBit j <;> cases hyj : y.testBit j <;> simp_all
    · have hle : 8 * cb ≤ 2 ^ j := Nat.le_trans (by have := h.2.2; omega)
        (Nat.pow_le_pow_right (show 0 < 2 by decide) (show 16 ≤ j by omega))
      rw [Nat.testBit_lt_two_pow (by omega), Nat.testBit_lt_two_pow (by omega)]
  refine ⟨hne, fTryFixBlock_fatal hne (Or.inl ?_)⟩
  have hlow := testBit_low h (show 0 < 13 by decide)
  refine fECCErrorIsCorrectable_pair h hlow ?_
  rw [hdiff, BitVec.getLsbD_xor, BitVec.getLsbD_xor, (hx1 0 (by decide)).1, (hx1 0 (by decide)).2,
    (hy1 0 (by decide)).1, (hy1 0 (by decide)).2, hlow]
  cases x.testBit 0 <;> cases y.testBit 0 <;> rfl

/-- Two bits of the stored checksum. -/
theorem fTryFixBlock_stored (hx : x < 64) (hxy : x ≠ y)
    (hdiff : xeActual ^^^ xeExpected = BitVec.twoPow 64 x ^^^ BitVec.twoPow 64 y) :
    xeExpected ≠ xeActual ∧
      fTryFixBlock cb ibitForbidden xeExpected xeActual =
        (.xeChecksumFatalError, ibitForbidden) := by
  have hne : xeExpected ≠ xeActual := by
    intro heq
    rw [heq, BitVec.xor_self] at hdiff
    have hbit := congrArg (fun v : XECHECKSUM => v.getLsbD x) hdiff
    simp only [BitVec.getLsbD_zero, BitVec.getLsbD_xor, BitVec.getLsbD_twoPow, hx, decide_true,
      Bool.true_and,
      decide_eq_false (Ne.symm hxy), Bool.and_false, Bool.xor_false] at hbit
    cases hbit
  refine ⟨hne, fTryFixBlock_fatal hne (Or.inl ?_)⟩
  -- one of three pairs is untouched
  obtain ⟨j, hj, hj1, hj2, hj3, hj4⟩ : ∃ j < 3, x ≠ 32 + j ∧ x ≠ 48 + j ∧ y ≠ 32 + j ∧
    y ≠ 48 + j := by
    by_cases h0 : x ≠ 32 + 0 ∧ x ≠ 48 + 0 ∧ y ≠ 32 + 0 ∧ y ≠ 48 + 0
    · exact ⟨0, by decide, h0⟩
    · by_cases h1 : x ≠ 32 + 1 ∧ x ≠ 48 + 1 ∧ y ≠ 32 + 1 ∧ y ≠ 48 + 1
      · exact ⟨1, by decide, h1⟩
      · exact ⟨2, by decide, by omega⟩
  refine fECCErrorIsCorrectable_pair h (testBit_low h (show j < 13 by omega)) ?_
  rw [hdiff]
  simp [BitVec.getLsbD_twoPow, hj1, hj2, hj3, hj4]

end

/-! ### A bit of the stored checksum and one of the data -/

section
variable {xeExpected xeActual : XECHECKSUM} (ibitForbidden : ULONG) (hx : x < 64) (hy : y < 8 * cb)
  (hdiff : xeActual ^^^ xeExpected = BitVec.twoPow 64 x ^^^ checksumDiff cb y)

/-- A bit that the size of a block does not mask is one of the offset past the block. -/
theorem eq_two_pow_of_testBit {j : Nat} (hmask : ¬(8 * cb - 1).testBit j = true) :
    ∃ e ≤ j, 8 * cb = 2 ^ e := by
  obtain ⟨k, hk, rfl⟩ := h.eq_pow
  rw [show 8 * 2 ^ (10 + k) = 2 ^ (13 + k) by ring, Nat.testBit_two_pow_sub_one,
    decide_eq_true_eq] at hmask
  exact ⟨13 + k, by omega, by ring⟩

include hx hy hdiff

/-- How the two halves of the ECC words differ. -/
theorem getLsbD_stored_data {j : Nat} (hj : j < 16) :
    (xeActual ^^^ xeExpected).getLsbD (32 + j) = (decide (x = 32 + j) ^^ y.testBit j) ∧
      (xeActual ^^^ xeExpected).getLsbD (48 + j)
        = (decide (x = 48 + j) ^^ ((8 * cb - 1).testBit j && !y.testBit j)) := by
  obtain ⟨hy1, -⟩ := getLsbD_checksumDiff h hy
  constructor
  · rw [hdiff, BitVec.getLsbD_xor, BitVec.getLsbD_twoPow, (hy1 j hj).1]
    simp [hx]
  · rw [hdiff, BitVec.getLsbD_xor, BitVec.getLsbD_twoPow, (hy1 j hj).2]
    simp [hx]

/-- The checksums differ. -/
theorem ne_of_stored_data : xeExpected ≠ xeActual := by
  intro heq
  -- each of two pairs needs a bit of its own
  have hpair (j : Nat) (hj : j < 13) : x = 32 + j ∨ x = 48 + j := by
    obtain ⟨h1, h2⟩ := getLsbD_stored_data h hx hy hdiff (show j < 16 by omega)
    rw [heq, BitVec.xor_self] at h1 h2
    rw [testBit_low h hj] at h2
    by_contra hnot
    obtain ⟨hn1, hn2⟩ := not_or.1 hnot
    rw [BitVec.getLsbD_zero, decide_eq_false hn1, Bool.false_xor] at h1
    rw [BitVec.getLsbD_zero, decide_eq_false hn2, Bool.false_xor, ← h1] at h2
    cases h2
  rcases hpair 0 (by decide), hpair 1 (by decide) with ⟨h0 | h0, h1 | h1⟩ <;> omega

/-- A bit of the stored XOR word: the XOR words differ in two bits or in none. -/
theorem fECCErrorIsCorrectable_storedXor (hx32 : x < 32) :
    fECCErrorIsCorrectable cb xeExpected xeActual = false := by
  obtain ⟨-, hy2⟩ := getLsbD_checksumDiff h hy
  refine fECCErrorIsCorrectable_xor hx32 (Nat.mod_lt y (by decide)) ?_
  refine BitVec.eq_of_getLsbD_eq fun j hj => ?_
  have hbit := congrArg (fun v : XECHECKSUM => v.getLsbD j) hdiff
  simp only [BitVec.getLsbD_xor, BitVec.getLsbD_twoPow, hy2 j hj] at hbit
  rw [BitVec.getLsbD_xor, getLsbD_dwXORChecksum _ hj, getLsbD_dwXORChecksum _ hj, hbit,
    BitVec.getLsbD_xor, BitVec.getLsbD_twoPow, BitVec.getLsbD_twoPow]
  simp only [hx, hx32, Nat.mod_lt y (show 0 < 32 by decide), decide_true, Bool.true_and,
    @eq_comm _ j]

/-- A bit of the stored ECC word that counts: its pair no longer differs in one half only. -/
theorem fECCErrorIsCorrectable_storedEcc {j : Nat} (hj : j < 16) (hxj : x = 32 + j ∨ x = 48 + j)
    (hmask : (8 * cb - 1).testBit j = true) :
    fECCErrorIsCorrectable cb xeExpected xeActual = false := by
  obtain ⟨hlow, hhigh⟩ := getLsbD_stored_data h hx hy hdiff hj
  refine fECCErrorIsCorrectable_pair h hmask ?_
  rw [hlow, hhigh, hmask]
  rcases hxj with hxj | hxj
  · rw [decide_eq_true hxj, decide_eq_false (show ¬x = 48 + j by omega)]
    cases y.testBit j <;> rfl
  · rw [decide_eq_false (show ¬x = 32 + j by omega), decide_eq_true hxj]
    cases y.testBit j <;> rfl

/-- The low half of how the ECC words differ. -/
theorem getLsbD_dwECC_stored_data {i : Nat} (hi : i < 16) :
    ((dwECCChecksumFromXEChecksum xeActual ^^^ dwECCChecksumFromXEChecksum xeExpected) &&&
      0xffff).getLsbD i = (decide (x = 32 + i) ^^ y.testBit i) := by
  have hi32 : i < 32 := by omega
  rw [BitVec.getLsbD_and, BitVec.getLsbD_xor, getLsbD_dwECCChecksum _ hi32,
    getLsbD_dwECCChecksum _ hi32, ← BitVec.getLsbD_xor, (getLsbD_stored_data h hx hy hdiff hi).1,
    show (0xffff : ULONG) = BitVec.ofNat 32 (2 ^ 16 - 1) from rfl, BitVec.getLsbD_ofNat,
    Nat.testBit_two_pow_sub_one]
  simp [hi, hi32]

section
variable {j : Nat} (hj : j < 16) (hmask : ¬(8 * cb - 1).testBit j = true)
include hj hmask

/-- The offset read from the low half is past the block. -/
theorem ibitCorrupted_storedLow (hxj : x = 32 + j) :
    ¬(ibitCorrupted cb xeExpected xeActual).toNat < 8 * cb := by
  obtain ⟨e, he, hpow⟩ := eq_two_pow_of_testBit h hmask
  have hyj : y.testBit j = false :=
    Nat.testBit_lt_two_pow (Nat.lt_of_lt_of_le hy (hpow ▸ Nat.pow_le_pow_right (by decide) he))
  have hge : 8 * cb ≤ ((dwECCChecksumFromXEChecksum xeActual ^^^
      dwECCChecksumFromXEChecksum xeExpected) &&& 0xffff).toNat := by
    rw [hpow]
    refine Nat.le_trans (Nat.pow_le_pow_right (by decide) he) (Nat.ge_two_pow_of_testBit ?_)
    rw [BitVec.testBit_toNat, getLsbD_dwECC_stored_data h hx hy hdiff hj, hyj, decide_eq_true hxj]
    rfl
  have hcb := h.2.2
  have hmax : ulMax.toNat = 4294967295 := rfl
  rw [ibitCorrupted, ibitCorruptedDw]
  dsimp only
  split
  · omega
  · split
    · omega
    · omega

/-- The low half is the offset of the bit of the data. -/
theorem ibitCorrupted_storedHigh (hxj : x = 48 + j) :
    ibitCorrupted cb xeExpected xeActual = BitVec.ofNat 32 y := by
  have hcb := h.2.2
  obtain ⟨e, he, hpow⟩ := eq_two_pow_of_testBit h hmask
  have hyj (i : Nat) (hi : e ≤ i) : y.testBit i = false :=
    Nat.testBit_lt_two_pow (Nat.lt_of_lt_of_le hy (hpow ▸ Nat.pow_le_pow_right (by decide) hi))
  have hlowy : (dwECCChecksumFromXEChecksum xeActual ^^^
      dwECCChecksumFromXEChecksum xeExpected) &&& 0xffff = BitVec.ofNat 32 y := by
    refine BitVec.eq_of_getLsbD_eq fun i hi => ?_
    rw [BitVec.getLsbD_ofNat]
    by_cases hi16 : i < 16
    · rw [getLsbD_dwECC_stored_data h hx hy hdiff hi16]
      simp [hi, show ¬x = 32 + i by omega]
    · rw [hyj i (by omega), BitVec.getLsbD_and,
        show (0xffff : ULONG) = BitVec.ofNat 32 (2 ^ 16 - 1) from rfl, BitVec.getLsbD_ofNat,
        Nat.testBit_two_pow_sub_one]
      simp [hi16]
  have hdw0 : dwECCChecksumFromXEChecksum xeActual ^^^ dwECCChecksumFromXEChecksum xeExpected ≠
      0 := by
    intro h0
    have hbit := congrArg (fun dw : ULONG => dw.getLsbD (16 + j)) h0
    have hj32 : 16 + j < 32 := by omega
    rw [BitVec.getLsbD_xor, getLsbD_dwECCChecksum _ hj32, getLsbD_dwECCChecksum _ hj32,
      ← BitVec.getLsbD_xor, show 32 + (16 + j) = 48 + j by omega,
      (getLsbD_stored_data h hx hy hdiff hj).2, decide_eq_true hxj, hyj j he] at hbit
    simp [Bool.eq_false_iff.2 hmask] at hbit
  rw [ibitCorrupted, ibitCorruptedDw]
  dsimp only
  rw [if_neg hdw0, hlowy, if_neg]
  rw [BitVec.toNat_ofNat, Nat.mod_eq_of_lt (by omega)]
  omega

end

/-- What is corrected, if anything, is the bit of the data. -/
theorem fTryFixBlock_stored_data :
    xeExpected ≠ xeActual ∧
      (fTryFixBlock cb ibitForbidden xeExpected xeActual = (.xeChecksumFatalError, ibitForbidden) ∨
        fTryFixBlock cb ibitForbidden xeExpected xeActual =
          (.xeChecksumCorrectableError, BitVec.ofNat 32 y)) := by
  have hne := ne_of_stored_data h hx hy hdiff
  refine ⟨hne, ?_⟩
  by_cases hx32 : x < 32
  · exact .inl (fTryFixBlock_fatal hne
      (.inl (fECCErrorIsCorrectable_storedXor h hx hy hdiff hx32)))
  obtain ⟨j, hj, hxj⟩ : ∃ j < 16, x = 32 + j ∨ x = 48 + j := ⟨(x - 32) % 16, by omega, by omega⟩
  by_cases hmask : (8 * cb - 1).testBit j = true
  · exact .inl (fTryFixBlock_fatal hne
      (.inl (fECCErrorIsCorrectable_storedEcc h hx hy hdiff hj hxj hmask)))
  rcases hxj with hxj | hxj
  · exact .inl (fTryFixBlock_fatal hne
      (.inr (ibitCorrupted_storedLow h hx hy hdiff hj hmask hxj)))
  · rw [fTryFixBlock, if_neg hne, ibitCorrupted_storedHigh h hx hy hdiff hj hmask hxj]
    split
    · dsimp only
      split
      · exact .inr rfl
      · exact .inl rfl
    · exact .inl rfl

end

end

/-! ## Two bits of a page -/

/-- A stored checksum is the page's first bits, or some of the ones from 320 on. -/
theorem longChecksumFromPage_congr {pv pv' : Mem} {cb : Nat} {k : Fin 4}
    (hbit : ∀ i < 512, (if k = 0 then i < 64 else 320 ≤ i) → pv'.bit i = pv.bit i) :
    longChecksumFromPage pv' cb k = longChecksumFromPage pv cb k := by
  have hzero : k = 0 → pv'.readU64 0 = pv.readU64 0 := by
    rintro rfl
    refine Mem.readU64_eq fun j hj => ?_
    rw [Mem.getLsbD_readU64 _ _ hj]
    exact hbit _ (by omega) (by rw [if_pos rfl]; omega)
  have hrg (i : Nat) (hi : i < 3) (hk : k ≠ 0) : rgChecksum pv' i = rgChecksum pv i := by
    have hib : ibRgChecksum = 40 := rfl
    rw [rgChecksum, rgChecksum]
    refine Mem.readU64_eq fun j hj => ?_
    rw [Mem.getLsbD_readU64 _ _ hj]
    exact hbit _ (by omega) (by rw [if_neg hk]; omega)
  rw [longChecksumFromPage, longChecksumFromPage]
  by_cases hk : k = 0
  · rw [hzero hk, hk]
    simp only [apply_ite (fun c : PAGECHECKSUM => c 0), Matrix.cons_val_zero]
  · rw [hrg 0 (by decide) hk, hrg 1 (by decide) hk, hrg 2 (by decide) hk]
    obtain ⟨j, rfl⟩ := Fin.exists_succ_eq.2 hk
    simp only [apply_ite (fun c : PAGECHECKSUM => c j.succ), Matrix.cons_val_succ]

theorem getLsbD_longChecksumFromPage_zero (pv : Mem) (cb : Nat) {j : Nat} (hj : j < 64) :
    (longChecksumFromPage pv cb 0).getLsbD j = pv.bit j := by
  rw [longChecksumFromPage]
  split
  · exact (Mem.getLsbD_readU64 pv 0 hj).trans (by rw [Nat.mul_zero, Nat.zero_add])
  · exact (Mem.getLsbD_readU64 pv 0 hj).trans (by rw [Nat.mul_zero, Nat.zero_add])

section
variable {cb : Nat} (h : PageCb cb)
include h

/-- The loop up to the first block with a fatal error. -/
theorem fixLoop_fatal {act : PAGECHECKSUM} {kb : Fin 4} {k : Nat} (hk : k ≤ kb.val)
    (hkb : blkSize cb kb ≠ 0)
    (s : FixLoop)
    (hfix : fTryFixBlock (blkSize cb kb) (s.rgibitCorrupted kb) (s.checksumExpected kb) (act kb)
      = (.xeChecksumFatalError, s.rgibitCorrupted kb))
    (hlt : ∀ j : Fin 4, j.val < kb.val → s.checksumExpected j = act j) :
    fixLoop cb act k (blkOff cb k) (blkSize cb k) s = .fatal := by
  induction hd : kb.val - k generalizing k s with
  | zero =>
    have hkkb : k = kb.val := by omega
    subst hkkb
    rw [fixLoop, if_pos (Nat.pos_of_ne_zero hkb), dif_pos kb.isLt]
    simp only [hfix]
  | succ d ih =>
    have hk4 : k < 4 := by omega
    have hs := blkSize_mono h hk kb.isLt hkb
    have hs' := blkSize_mono h (show k + 1 ≤ kb.val by omega) kb.isLt hkb
    obtain ⟨x, hstep⟩ := fixLoop_same h hk4 hs s (hlt ⟨k, hk4⟩ (show k < kb.val by omega))
    rw [hstep, (blkSize_succ h hk4 hs).2 hs']
    refine ih (by omega) (s.record ⟨k, hk4⟩ .xeChecksumNoError x) ?_ hlt (by omega)
    rw [FixLoop.record_rgibitCorrupted_of_ne _ _ _ _ (show kb.val ≠ k by omega)]
    exact hfix

/-- A page whose first wrong block is beyond repair is left as it is. -/
theorem checksumAndPossiblyFixPage_fatal {pv : Mem} {pgno : ULONG} {kb : Fin 4}
    (hflag : fPageHasNewChecksumFormat pv .databasePage = true) (hkb : blkSize cb kb ≠ 0)
    (hlt : ∀ j : Fin 4, j.val < kb.val → longChecksumFromPage pv cb j = blockSum pv cb pgno j)
    (hne : longChecksumFromPage pv cb kb ≠ blockSum pv cb pgno kb)
    (hfix : fTryFixBlock (blkSize cb kb)
      ((FixLoop.start (longChecksumFromPage pv cb)).rgibitCorrupted kb)
      (longChecksumFromPage pv cb kb) (blockSum pv cb pgno kb)
        = (.xeChecksumFatalError, (FixLoop.start (longChecksumFromPage pv cb)).rgibitCorrupted kb))
          (code : ChecksumCode) (fFault : Bool) :
    checksumAndPossiblyFixPage code fFault pv cb .databasePage pgno true
      = some ⟨pv, longChecksumFromPage pv cb, blockSum pv cb pgno, false, -1⟩ := by
  have hlong : checksumFromPage pv cb .databasePage = longChecksumFromPage pv cb := rfl
  have hne' : blockSum pv cb pgno ≠ longChecksumFromPage pv cb := fun heq => hne (by rw [heq])
  have htry : tryFixPage pv cb .databasePage true false (-1) (longChecksumFromPage pv cb)
      (blockSum pv cb pgno)
      = (pv, false, -1) := by
    have hloop := fixLoop_fatal h (Nat.zero_le kb.val) hkb
      (FixLoop.start (longChecksumFromPage pv cb)) hfix hlt
    rw [blkOff, Nat.zero_mul, (blkSize_zero h).1] at hloop
    rw [tryFixPage]
    dsimp only
    rw [← FixLoop.start, hloop]
  rw [checksumAndPossiblyFixPage]
  simp only [computePageChecksum_eq h pgno code hflag, Option.bind_eq_bind, Option.bind_some, hlong,
    Bool.false_eq_true, if_false]
  rw [if_pos ⟨hne', hflag⟩, htry]
  rfl

/-- The checksum of a block, one of whose bits flips. -/
theorem blockSum_flipBit_self (pv : Mem) (pgno : ULONG) {kb : Fin 4} {b : Nat} (hb : 64 ≤ b)
    (hkb : InBlock cb kb b) :
    blockSum (flipBit pv b) cb pgno kb
      = blockSum pv cb pgno kb ^^^ checksumDiff (blkSize cb kb) (b - 8 * blkOff cb kb) := by
  have hs := blkSize_ne_zero hkb
  have hbs := blkSize_blockSize h kb.isLt hs
  obtain ⟨h1, h2⟩ := hkb
  rw [blockSum, if_neg hs, blockSum, if_neg hs]
  refine blockChecksum_flip hbs (by omega) (fun hk => ?_) (fun i _ => ?_) pgno
  · rw [of_decide_eq_true hk]
    simpa [blkOff] using hb
  · rw [Mem.bit_offset, Mem.bit_offset, bit_flipBit]
    congr 2
    rw [eq_iff_iff]
    omega

end

section
variable {cb : Nat} (h : PageCb cb) {pgno : ULONG} {pv : Mem} (hP : Sealed pv cb pgno) {x y : Nat}
  (hxy : x ≠ y) (hxflag : x ≠ 301) (hyflag : y ≠ 301)

omit h in
include hP hxflag hyflag in
theorem Sealed.flag_flip_two : fPageHasNewChecksumFormat (flipBit (flipBit pv x) y) .databasePage =
    true := by
  have hflag := hP.flag
  rw [fPageHasNewChecksumFormat_eq] at hflag ⊢
  rw [bit_flipBit, bit_flipBit, hflag, decide_eq_false (Ne.symm hxflag),
    decide_eq_false (Ne.symm hyflag)]
  rfl

omit h in
theorem bit_flip_two_of_ne (pv : Mem) {i : Nat} (hix : i ≠ x) (hiy : i ≠ y) :
    (flipBit (flipBit pv x) y).bit i = pv.bit i := by
  rw [bit_flipBit, bit_flipBit, decide_eq_false hix, decide_eq_false hiy, Bool.xor_false,
    Bool.xor_false]

include h hP

/-- Of the first 64 bits of a page its checksums read none. -/
theorem Sealed.blockSum_header {pv' : Mem} (hbit : ∀ i, 64 ≤ i → pv'.bit i = pv.bit i) :
    blockSum pv' cb pgno = longChecksumFromPage pv cb := by
  rw [hP.stored]
  exact funext fun k => blockSum_congr h pgno fun i _ hi => hbit i hi

include hxy hxflag hyflag

/-- Two bits of the data of a block. -/
theorem Sealed.flip_two_data {kb : Fin 4} (hx : 64 ≤ x) (hy : 64 ≤ y) (hkx : InBlock cb kb x)
    (hky : InBlock cb kb y) (code : ChecksumCode) (fFault : Bool) :
    longChecksumFromPage (flipBit (flipBit pv x) y) cb ≠ blockSum
      (flipBit (flipBit pv x) y) cb pgno ∧
      checksumAndPossiblyFixPage code fFault (flipBit (flipBit pv x) y) cb .databasePage pgno true
        = some ⟨flipBit (flipBit pv x) y, longChecksumFromPage (flipBit (flipBit pv x) y) cb,
          blockSum (flipBit (flipBit pv x) y) cb pgno, false, -1⟩ := by
  have hs := blkSize_ne_zero hkx
  have hbs := blkSize_blockSize h kb.isLt hs
  -- the stored checksums up to the block's are out of its reach
  have hstored (j : Fin 4) (hj : j.val ≤ kb.val) :
      longChecksumFromPage (flipBit (flipBit pv x) y) cb j = blockSum pv cb pgno j := by
    rw [← hP.stored]
    refine longChecksumFromPage_congr fun i hi hji => ?_
    by_cases hj0 : j = 0
    · rw [if_pos hj0] at hji
      exact bit_flip_two_of_ne pv (by omega) (by omega)
    · have hne : kb.val ≠ 0 := fun hk => hj0 (Fin.ext (by
        have hj' : j.val = 0 := by omega
        exact hj'))
      refine bit_flip_two_of_ne pv ?_ ?_
      · rintro rfl
        exact hne (inBlock_unique hkx (inBlock_zero h hi))
      · rintro rfl
        exact hne (inBlock_unique hky (inBlock_zero h hi))
  have hdiff : blockSum (flipBit (flipBit pv x) y) cb pgno kb ^^^
      longChecksumFromPage (flipBit (flipBit pv x) y) cb kb
        = checksumDiff (blkSize cb kb) (x - 8 * blkOff cb kb) ^^^
          checksumDiff (blkSize cb kb) (y - 8 * blkOff cb kb) := by
    rw [hstored kb (Nat.le_refl _), blockSum_flipBit_self h _ pgno hy hky,
      blockSum_flipBit_self h pv pgno hx hkx,
      BitVec.xor_comm, BitVec.xor_assoc, ← BitVec.xor_assoc, BitVec.xor_self, BitVec.zero_xor]
  have hfix (ibit : ULONG) := fTryFixBlock_data hbs ibit
    (show x - 8 * blkOff cb kb < 8 * blkSize cb kb by
      have := hkx.2
      have := hkx.1
      omega)
    (show y - 8 * blkOff cb kb < 8 * blkSize cb kb by
      have := hky.2
      have := hky.1
      omega)
    (show x - 8 * blkOff cb kb ≠ y - 8 * blkOff cb kb by
      have := hkx.1
      have := hky.1
      omega) hdiff
  refine ⟨fun heq => (hfix 0).1 (congrFun heq kb), ?_⟩
  refine checksumAndPossiblyFixPage_fatal h (hP.flag_flip_two hxflag hyflag) hs (fun j hj => ?_)
    (hfix 0).1 (hfix _).2
    code fFault
  have hjk : j ≠ kb := fun hjk => by
    rw [hjk] at hj
    exact Nat.lt_irrefl _ hj
  rw [hstored j (Nat.le_of_lt hj), blockSum_flipBit h pgno _ hky hjk,
    blockSum_flipBit h pgno pv hkx hjk]

/-- Two bits of the stored checksum of the header block. -/
theorem Sealed.flip_two_stored (hx : x < 64) (hy : y < 64) (code : ChecksumCode) (fFault : Bool) :
    longChecksumFromPage (flipBit (flipBit pv x) y) cb ≠ blockSum
      (flipBit (flipBit pv x) y) cb pgno ∧
      checksumAndPossiblyFixPage code fFault (flipBit (flipBit pv x) y) cb .databasePage pgno true
        = some ⟨flipBit (flipBit pv x) y, longChecksumFromPage (flipBit (flipBit pv x) y) cb,
          blockSum (flipBit (flipBit pv x) y) cb pgno, false, -1⟩ := by
  have hs : blkSize cb (0 : Fin 4) ≠ 0 := blkSize_ne_zero (inBlock_zero h (show x < 512 by omega))
  have hbs := blkSize_blockSize h (show (0 : Fin 4).val < 4 by decide) hs
  have hactual : blockSum (flipBit (flipBit pv x) y) cb pgno = longChecksumFromPage pv cb :=
    hP.blockSum_header h fun i hi => bit_flip_two_of_ne pv (by omega) (by omega)
  have hdiff : blockSum (flipBit (flipBit pv x) y) cb pgno 0 ^^^
      longChecksumFromPage (flipBit (flipBit pv x) y) cb 0 =
        BitVec.twoPow 64 x ^^^ BitVec.twoPow 64 y := by
    refine BitVec.eq_of_getLsbD_eq fun j hj => ?_
    rw [hactual, BitVec.getLsbD_xor, BitVec.getLsbD_xor, getLsbD_longChecksumFromPage_zero _ _ hj,
      getLsbD_longChecksumFromPage_zero _ _ hj, bit_flipBit, bit_flipBit, BitVec.getLsbD_twoPow,
      BitVec.getLsbD_twoPow, Bool.xor_assoc, ← Bool.xor_assoc, Bool.xor_self, Bool.false_xor]
    simp only [hx, hy, decide_true, Bool.true_and, @eq_comm _ j]
  have hfix (ibit : ULONG) := fTryFixBlock_stored hbs ibit hx hxy hdiff
  refine ⟨fun heq => (hfix 0).1 (congrFun heq 0), ?_⟩
  exact checksumAndPossiblyFixPage_fatal h (hP.flag_flip_two hxflag hyflag) hs
    (fun j hj => absurd hj (Nat.not_lt_zero _)) (hfix 0).1 (hfix _).2 code fFault

end

/-- The first correction acts on each expected checksum alone. -/
theorem restored_congr {fSmallPage : Bool} {iblk j : Fin 4} {ibit : ULONG} {c c' : PAGECHECKSUM}
    (heq : c j = c' j) :
    restored fSmallPage iblk ibit c j = restored fSmallPage iblk ibit c' j := by
  rw [restored, restored]
  split
  · rw [PAGECHECKSUM.flipBit, PAGECHECKSUM.flipBit, heq]
  · exact heq

theorem bit_storeBody_congr {pv pv' : Mem} {cb i : Nat} (c : PAGECHECKSUM)
    (hbit : pv'.bit i = pv.bit i) :
    (storeBody pv' cb c).bit i = (storeBody pv cb c).bit i := by
  cases hs : fIsSmallPage cb
  · rw [bit_storeBody _ hs, bit_storeBody _ hs, hbit]
  · rw [storeBody, storeBody, if_pos hs, if_pos hs, hbit]

section
variable {cb : Nat} (h : PageCb cb) {pgno : ULONG} {pv : Mem} (hP : Sealed pv cb pgno) {x y : Nat}
  (hx : x < 64) (hy : 64 ≤ y) (hkb : InBlock cb 0 y)
include h hP hx

/-- A page with a wrong bit among the first 64 does not verify, even when it is stored again. -/
theorem Sealed.stored_ne_of_header :
    longChecksumFromPage (flipBit pv x) cb ≠
      blockSum (storeBody (flipBit pv x) cb (blockSum (flipBit pv x) cb pgno)) cb pgno := by
  have hbit (i : Nat) (hi : 64 ≤ i) : (flipBit pv x).bit i = pv.bit i := by
    rw [bit_flipBit, decide_eq_false (by omega), Bool.xor_false]
  have hsum : blockSum (flipBit pv x) cb pgno = blockSum pv cb pgno :=
    (hP.blockSum_header h hbit).trans hP.stored
  rw [hP.blockSum_header h fun i hi => by
    rw [hsum, bit_storeBody_congr _ (hbit i hi), hP.storeBody_eq]]
  intro heq
  have hx' := congrArg (fun v : XECHECKSUM => v.getLsbD x) (congrFun heq 0)
  simp only [getLsbD_longChecksumFromPage_zero _ _ hx, bit_flipBit, decide_true, Bool.xor_true]
    at hx'
  cases hbx : pv.bit x <;> rw [hbx] at hx' <;> cases hx'

include hy hkb

/-- The bit of the data is flipped back, where the stored bit goes unseen. -/
theorem Sealed.tryFixPage_unseen (hbc : y < 8 * cb)
    (hfix : fTryFixBlock (blkSize cb 0) (ibitNewChecksumFormatFlag .databasePage)
      (longChecksumFromPage (flipBit (flipBit pv x) y) cb 0)
        (blockSum (flipBit (flipBit pv x) y) cb pgno 0)
        = (.xeChecksumCorrectableError, BitVec.ofNat 32 y)) :
    tryFixPage (flipBit (flipBit pv x) y) cb .databasePage true false (-1)
        (longChecksumFromPage (flipBit (flipBit pv x) y) cb)
        (blockSum (flipBit (flipBit pv x) y) cb pgno)
      = (flipBit pv x, true, BitVec.ofNat 32 y) := by
  have hcb := h.2.2
  have hs : blkSize cb (0 : Fin 4) ≠ 0 := blkSize_ne_zero hkb
  have hpage : BitVec.ofNat 32 y + BitVec.ofNat 32 (8 * blkOff cb (0 : Fin 4)) =
    BitVec.ofNat 32 y := by
    rw [show blkOff cb (0 : Fin 4) = 0 from Nat.zero_mul _]
    exact BitVec.add_zero _
  have hgt (j : Fin 4) (hj : (0 : Fin 4).val < j.val) :
      restored (fIsSmallPage cb) 0 (BitVec.ofNat 32 y)
        (longChecksumFromPage (flipBit (flipBit pv x) y) cb) j
        = blockSum (flipBit (flipBit pv x) y) cb pgno j := by
    have hj0 : j ≠ 0 := fun hj0 => by
      rw [hj0] at hj
      exact Nat.lt_irrefl _ hj
    have hstored : longChecksumFromPage (flipBit (flipBit pv x) y) cb j
        = longChecksumFromPage (flipBit pv y) cb j := by
      refine longChecksumFromPage_congr fun i _ hi => ?_
      rw [if_neg hj0] at hi
      rw [bit_flipBit, bit_flipBit, bit_flipBit, decide_eq_false (show ¬i = x by omega),
        Bool.xor_false]
    rw [restored_congr hstored, hP.restored_flipBit h hy hbc hkb,
      blockSum_flipBit h pgno (flipBit pv x) hkb hj0,
      blockSum_flipBit h pgno pv
        (show InBlock cb (0 : Fin 4) x from inBlock_zero h (show x < 512 by omega)) hj0]
  obtain ⟨n, s', hrun, hn, hcorr, hibit, herr, hrest⟩ :=
    fixLoop_one h (Nat.le_refl (0 : Fin 4).val) hs
    (FixLoop.start (longChecksumFromPage (flipBit (flipBit pv x) y) cb)) hfix hpage rfl (fun _ =>
      rfl)
    (fun j hj => absurd hj (Nat.not_lt_zero _)) hgt
  rw [show blkOff cb (0 : Fin 4).val = 0 from Nat.zero_mul _, show blkSize cb (0 : Fin 4).val =
    cbBlockSize cb from
    (blkSize_zero h).1] at hrun
  rw [tryFixPage]
  dsimp only
  rw [← FixLoop.start]
  simp only [show fixLoop cb (blockSum (flipBit (flipBit pv x) y) cb pgno) 0 0 (cbBlockSize cb)
    (FixLoop.start (longChecksumFromPage (flipBit (flipBit pv x) y) cb)) = .done n s' from hrun,
    hcorr, true_and]
  rw [foldl_one (fun iblk => iblk.val < n ∧ s'.rgErr iblk = .xeChecksumCorrectableError)
    (fun pv iblk => flipBit pv (s'.rgibitCorrupted iblk).toNat) ⟨hn, herr⟩
    (fun j hj hp => hrest j hj hp.2), hibit, BitVec.toNat_ofNat, Nat.mod_eq_of_lt (by omega),
      flipBit_flipBit]

/-- A bit of the stored checksum of the header block, and one of its data. -/
theorem Sealed.flip_two_header (hflag : y ≠ 301) (code : ChecksumCode) (fFault : Bool) :
    longChecksumFromPage (flipBit (flipBit pv x) y) cb ≠ blockSum
      (flipBit (flipBit pv x) y) cb pgno ∧
      ∃ r, checksumAndPossiblyFixPage code fFault (flipBit (flipBit pv x) y) cb .databasePage pgno
        true = some r ∧
        r.checksumExpected ≠ r.checksumActual := by
  have hs : blkSize cb (0 : Fin 4) ≠ 0 := blkSize_ne_zero hkb
  have hbs := blkSize_blockSize h (show (0 : Fin 4).val < 4 by decide) hs
  have hoff : blkOff cb (0 : Fin 4) = 0 := Nat.zero_mul _
  have hbc : y < 8 * cb := by
    have := hkb.2
    rw [show blkOff cb 0 = 0 from Nat.zero_mul _, blkSize, blkOff] at this
    omega
  have hysize : y < 8 * blkSize cb (0 : Fin 4) := by
    have := hkb.2
    rw [show blkOff cb 0 = 0 from Nat.zero_mul _, Nat.zero_add] at this
    exact this
  have hdiff : blockSum (flipBit (flipBit pv x) y) cb pgno 0 ^^^
      longChecksumFromPage (flipBit (flipBit pv x) y) cb 0
        = BitVec.twoPow 64 x ^^^ checksumDiff (blkSize cb (0 : Fin 4)) y := by
    have hsum : blockSum (flipBit pv x) cb pgno = longChecksumFromPage pv cb :=
      hP.blockSum_header h fun i hi => by
      rw [bit_flipBit, decide_eq_false (show ¬i = x by omega), Bool.xor_false]
    have hactual :=
      blockSum_flipBit_self h (flipBit pv x) pgno hy (show InBlock cb (0 : Fin 4) y from hkb)
    rw [hoff, Nat.mul_zero, Nat.sub_zero, hsum] at hactual
    have hexpected : longChecksumFromPage (flipBit (flipBit pv x) y) cb 0
        = longChecksumFromPage pv cb 0 ^^^ BitVec.twoPow 64 x := by
      refine BitVec.eq_of_getLsbD_eq fun j hj => ?_
      rw [BitVec.getLsbD_xor, getLsbD_longChecksumFromPage_zero _ _ hj,
        getLsbD_longChecksumFromPage_zero _ _ hj,
        bit_flipBit, bit_flipBit, BitVec.getLsbD_twoPow, decide_eq_false (show ¬j = y by omega),
        Bool.xor_false]
      simp only [hx, decide_true, Bool.true_and, @eq_comm _ j]
    rw [hactual, hexpected, BitVec.xor_comm (longChecksumFromPage pv cb 0), BitVec.xor_assoc,
      ← BitVec.xor_assoc
      (longChecksumFromPage pv cb 0), BitVec.xor_self, BitVec.zero_xor, BitVec.xor_comm]
  have hfix (ibit : ULONG) := fTryFixBlock_stored_data hbs ibit hx hysize hdiff
  have hne : blockSum (flipBit (flipBit pv x) y) cb pgno ≠ longChecksumFromPage
    (flipBit (flipBit pv x) y) cb :=
    fun heq => (hfix 0).1 (congrFun heq 0).symm
  have hflag2 := hP.flag_flip_two (show x ≠ 301 by omega) hflag
  refine ⟨Ne.symm hne, ?_⟩
  rcases (hfix (ibitNewChecksumFormatFlag .databasePage)).2 with hfatal | hcorr
  · exact ⟨_, checksumAndPossiblyFixPage_fatal h hflag2 hs
      (fun j hj => absurd hj (Nat.not_lt_zero _)) (hfix 0).1
      hfatal code fFault, Ne.symm hne⟩
  · have hlong (pv : Mem) : checksumFromPage pv cb .databasePage = longChecksumFromPage pv cb := rfl
    have hflagx : fPageHasNewChecksumFormat (flipBit pv x) .databasePage = true := by
      have := hP.flag
      rw [fPageHasNewChecksumFormat_eq] at this ⊢
      rw [bit_flipBit, this, decide_eq_false (show ¬301 = x by omega)]
      rfl
    have htry := hP.tryFixPage_unseen h hx hy hkb hbc hcorr
    refine ⟨⟨storeBody (flipBit pv x) cb (blockSum (flipBit pv x) cb pgno), longChecksumFromPage
      (flipBit pv x) cb,
      blockSum (storeBody (flipBit pv x) cb (blockSum (flipBit pv x) cb pgno)) cb pgno, true,
      BitVec.ofNat 32 y⟩, ?_,
      hP.stored_ne_of_header h hx⟩
    rw [checksumAndPossiblyFixPage]
    simp only [computePageChecksum_eq h pgno code hflag2, Option.bind_eq_bind, Option.bind_some,
      hlong,
      Bool.false_eq_true, if_false]
    rw [if_pos ⟨hne, hflag2⟩, htry]
    simp only [computePageChecksum_eq h pgno code hflagx, if_true, and_self, Option.bind_some]
    rfl

end

/-- No two flipped bits of one checksum block of a sealed page, neither of them the format flag, go
unnoticed: the stored and the computed checksums differ, and they still do after verification. -/
theorem checksumAndPossiblyFixPage_flip_two {cb : Nat} (h : PageCb cb) (code codeFix : ChecksumCode)
    (fFault : Bool)
    (pv : Mem) (pgno : ULONG) {k x y : Nat} (hx : InBlock cb k x) (hy : InBlock cb k y)
    (hxy : x ≠ y)
    (hxflag : x ≠ (ibitNewChecksumFormatFlag .databasePage).toNat)
    (hyflag : y ≠ (ibitNewChecksumFormatFlag .databasePage).toNat) :
    ∃ pv' checksumActual r, setPageChecksum code pv cb .databasePage pgno = some pv' ∧
      computePageChecksum codeFix (flipBit (flipBit pv' x) y) cb .databasePage pgno false
        = some (checksumActual, flipBit (flipBit pv' x) y) ∧
      checksumFromPage (flipBit (flipBit pv' x) y) cb .databasePage ≠ checksumActual ∧
      checksumAndPossiblyFixPage codeFix fFault (flipBit (flipBit pv' x) y) cb .databasePage pgno
        true = some r ∧
      r.checksumExpected ≠ r.checksumActual := by
  obtain ⟨pv', hset, hP⟩ := setPageChecksum_sealed h pgno code pv
  have hflag := hP.flag_flip_two hxflag hyflag
  have hbc : x < 8 * cb := by
    have := hx.1
    have := hx.2
    rw [blkSize] at this
    omega
  obtain ⟨k', hk4, hkb⟩ := exists_inBlock h hbc
  obtain rfl := inBlock_unique hkb hx
  have hcompute := computePageChecksum_eq h pgno codeFix hflag false
  suffices hmain : longChecksumFromPage (flipBit (flipBit pv' x) y) cb ≠
      blockSum (flipBit (flipBit pv' x) y) cb pgno ∧
        ∃ r, checksumAndPossiblyFixPage codeFix fFault (flipBit (flipBit pv' x) y) cb .databasePage
          pgno true = some r ∧
          r.checksumExpected ≠ r.checksumActual by
    obtain ⟨hne, r, hr, hrne⟩ := hmain
    exact ⟨pv', _, r, hset, hcompute, hne, hr, hrne⟩
  by_cases hx64 : x < 64
  · obtain rfl := inBlock_unique (inBlock_zero h (show x < 512 by omega)) hx
    by_cases hy64 : y < 64
    · obtain ⟨hne, hr⟩ := hP.flip_two_stored h hxy hxflag hyflag hx64 hy64 codeFix fFault
      exact ⟨hne, _, hr, hne⟩
    · exact hP.flip_two_header h hx64 (by omega) hy hyflag codeFix fFault
  · by_cases hy64 : y < 64
    · obtain rfl := inBlock_unique (inBlock_zero h (show y < 512 by omega)) hy
      have hcomm : flipBit (flipBit pv' x) y = flipBit (flipBit pv' y) x := Mem.ext_bit fun i => by
        rw [bit_flipBit, bit_flipBit, bit_flipBit, bit_flipBit, Bool.xor_right_comm]
      rw [hcomm]
      exact hP.flip_two_header h hy64 (by omega) hx hxflag codeFix fFault
    · obtain ⟨hne, hr⟩ := hP.flip_two_data h hxy hxflag hyflag (by omega) (by omega)
        (show InBlock cb (⟨k', hk4⟩ : Fin 4) x from hx) hy codeFix fFault
      exact ⟨hne, _, hr, hne⟩

/-- The last bit of the stored ECC and a bit of the data of a 4 KB page: the width of the block
leaves the first out of the mask. -/
theorem checksumAndPossiblyFixPage_flip_two_unseen :
    ∃ pv' checksumActual r,
      setPageChecksum ⟨.M_AMD64, .ChecksumNewFormatAVX⟩ (fun _ => 0) 4096 .databasePage 1 =
      some pv' ∧
      computePageChecksum ⟨.M_AMD64, .ChecksumNewFormat64Bit⟩ (flipBit (flipBit pv' 63) 5000) 4096
        .databasePage 1 false
        = some (checksumActual, flipBit (flipBit pv' 63) 5000) ∧
      checksumFromPage (flipBit (flipBit pv' 63) 5000) 4096 .databasePage ≠ checksumActual ∧
      checksumAndPossiblyFixPage ⟨.M_AMD64, .ChecksumNewFormat64Bit⟩ false
        (flipBit (flipBit pv' 63) 5000) 4096
        .databasePage 1 true = some r ∧
      r.checksumExpected ≠ r.checksumActual :=
  checksumAndPossiblyFixPage_flip_two (k := 0) ⟨⟨1, rfl⟩, by decide, by decide⟩ _ _ _ _ _
    (show 8 * blkOff 4096 0 ≤ 63 ∧ 63 < 8 * (blkOff 4096 0 + blkSize 4096 0) by decide)
    (show 8 * blkOff 4096 0 ≤ 5000 ∧ 5000 < 8 * (blkOff 4096 0 + blkSize 4096 0) by decide)
    (by decide) (by decide) (by decide)

end Ese
