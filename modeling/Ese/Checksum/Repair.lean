import Ese.Checksum.PageChecksum

/-!
# Repairing a page

After `SetPageChecksum` the stored checksums of a page are those computed from it (`Sealed`). A
flipped bit lies in one block, whose checksum shows its offset; it may also lie in a stored checksum
of another block, and then the first correction restores the expected value before the loop reaches
that block. So the loop over the blocks corrects one bit, and the page is the sealed page again.
-/

namespace Ese

/-! ## Bits -/

theorem and_bitMask_ne_zero (x : Byte) {k : Nat} (hk : k < 8) :
    (x &&& (1#8 <<< k) ≠ 0) ↔ x.getLsbD k = true := by
  have h0 : BitVec.twoPow 8 k ≠ 0#8 := fun h => by
    have := congrArg (fun y => y.getLsbD k) h
    simp [hk] at this
  rw [← BitVec.twoPow_eq, BitVec.and_twoPow]
  cases x.getLsbD k
  · simp
  · simpa using h0

theorem fGetBit_eq (pv : Mem) (i : Nat) : fGetBit pv i = pv.bit i := by
  rw [fGetBit, Mem.bit, Bool.eq_iff_iff, ← and_bitMask_ne_zero _ (Nat.mod_lt i (by decide))]
  simp

theorem bit_setBit (pv : Mem) (x i : Nat) : (setBit pv x).bit i = (pv.bit i || decide (i = x)) := by
  rw [Mem.bit, Mem.bit, setBit]
  dsimp only
  by_cases h : i / 8 = x / 8
  · rw [if_pos h, BitVec.getLsbD_or, ← BitVec.twoPow_eq, BitVec.getLsbD_twoPow]
    have hx : x % 8 = i % 8 ↔ i = x := by omega
    simp [Nat.mod_lt x (show 0 < 8 by decide), hx]
  · rw [if_neg h]
    simp [show i ≠ x by rintro rfl; exact h rfl]

theorem bit_flipBit (pv : Mem) (x i : Nat) :
    (flipBit pv x).bit i = (pv.bit i ^^ decide (i = x)) := by
  rw [Mem.bit, Mem.bit, flipBit]
  dsimp only
  by_cases h : i / 8 = x / 8
  · rw [if_pos h, BitVec.getLsbD_xor, ← BitVec.twoPow_eq, BitVec.getLsbD_twoPow]
    have hx : x % 8 = i % 8 ↔ i = x := by omega
    simp [Nat.mod_lt x (show 0 < 8 by decide), hx]
  · rw [if_neg h]
    simp [show i ≠ x by rintro rfl; exact h rfl]

/-- Flipping a bit twice restores the page. -/
theorem flipBit_flipBit (pv : Mem) (x : Nat) : flipBit (flipBit pv x) x = pv :=
  Mem.ext_bit fun i => by rw [bit_flipBit, bit_flipBit]; simp

/-! ## The blocks of a page -/

/-- The page sizes with a checksum for each block: multiples of 4 KB up to 32 KB. -/
def PageCb (cb : Nat) : Prop := 4096 ∣ cb ∧ 0 < cb ∧ cb ≤ 32 * 1024

/-- The offset of block `k`. -/
def blkOff (cb k : Nat) : Nat := k * cbBlockSize cb

/-- The size of block `k`, zero past the last one. -/
def blkSize (cb k : Nat) : Nat := min (cb - blkOff cb k) (cbBlockSize cb)

/-- A bit of the page is a bit of block `k`. -/
def InBlock (cb k x : Nat) : Prop := 8 * blkOff cb k ≤ x ∧ x < 8 * (blkOff cb k + blkSize cb k)

/-- Two blocks do not share a bit. -/
theorem inBlock_unique {cb j k x : Nat} (hj : InBlock cb j x) (hk : InBlock cb k x) : j = k := by
  have hB (k : Nat) (hk : InBlock cb k x) :
      8 * (k * cbBlockSize cb) ≤ x ∧ x < 8 * ((k + 1) * cbBlockSize cb) := by
    have hle : blkSize cb k ≤ cbBlockSize cb := Nat.min_le_right _ _
    obtain ⟨h0, h1⟩ := hk
    rw [blkOff] at h0 h1
    rw [Nat.add_mul k 1, Nat.one_mul]
    omega
  obtain ⟨h1, h2⟩ := hB j hj
  obtain ⟨h3, h4⟩ := hB k hk
  have h5 : j < k + 1 :=
    Nat.lt_of_mul_lt_mul_right (show j * cbBlockSize cb < (k + 1) * cbBlockSize cb by omega)
  have h6 : k < j + 1 :=
    Nat.lt_of_mul_lt_mul_right (show k * cbBlockSize cb < (j + 1) * cbBlockSize cb by omega)
  omega

section
variable {cb : Nat} (h : PageCb cb)
include h

theorem PageCb.cases : cb = 4096 ∨ cb = 8192 ∨ cb = 12288 ∨ cb = 16384 ∨ cb = 20480 ∨ cb = 24576
    ∨ cb = 28672 ∨ cb = 32768 := by
  obtain ⟨⟨m, rfl⟩, h0, h1⟩ := h
  omega

theorem blkSize_blockSize {k : Nat} (hk : k < 4) (hs : blkSize cb k ≠ 0) :
    BlockSize (blkSize cb k) := by
  have hd : ∀ k < 4, blkSize cb k = 0 ∨ blkSize cb k = 4096 ∨ blkSize cb k = 8192 := by
    rcases h.cases with rfl | rfl | rfl | rfl | rfl | rfl | rfl | rfl <;> decide
  rcases hd k hk with h0 | h0 | h0
  · exact absurd h0 hs
  · rw [h0]
    exact ⟨by decide, by decide, by decide⟩
  · rw [h0]
    exact ⟨by decide, by decide, by decide⟩

/-- The loop's step from one block to the next. -/
theorem blkSize_succ {k : Nat} (hk : k < 4) (hs : blkSize cb k ≠ 0) :
    min (cb - (blkOff cb k + blkSize cb k)) (blkSize cb k) = blkSize cb (k + 1)
      ∧ (blkSize cb (k + 1) ≠ 0 → blkOff cb k + blkSize cb k = blkOff cb (k + 1)) := by
  have hd : ∀ k < 4, blkSize cb k ≠ 0 →
      min (cb - (blkOff cb k + blkSize cb k)) (blkSize cb k) = blkSize cb (k + 1)
      ∧ (blkSize cb (k + 1) ≠ 0 → blkOff cb k + blkSize cb k = blkOff cb (k + 1)) := by
    rcases h.cases with rfl | rfl | rfl | rfl | rfl | rfl | rfl | rfl <;> decide
  exact hd k hk hs

theorem blkSize_zero : blkSize cb 0 = cbBlockSize cb ∧ 4096 ≤ blkSize cb 0 := by
  rcases h.cases with rfl | rfl | rfl | rfl | rfl | rfl | rfl | rfl <;> decide

theorem blkSize_four : blkSize cb 4 = 0 := by
  rcases h.cases with rfl | rfl | rfl | rfl | rfl | rfl | rfl | rfl <;> decide

/-- No block follows an empty one. -/
theorem blkSize_mono {j k : Nat} (hjk : j ≤ k) (hk : k < 4) (hs : blkSize cb k ≠ 0) :
    blkSize cb j ≠ 0 := by
  have hd : ∀ k < 4, ∀ j ≤ k, blkSize cb k ≠ 0 → blkSize cb j ≠ 0 := by
    rcases h.cases with rfl | rfl | rfl | rfl | rfl | rfl | rfl | rfl <;> decide
  exact hd k hk j hjk hs

/-- Every bit of the page is in one of its blocks. -/
theorem exists_inBlock {x : Nat} (hx : x < 8 * cb) : ∃ k < 4, InBlock cb k x := by
  obtain ⟨hB, hcb⟩ : 0 < cbBlockSize cb ∧ cb ≤ 4 * cbBlockSize cb := by
    rcases h.cases with rfl | rfl | rfl | rfl | rfl | rfl | rfl | rfl <;> decide
  set B := cbBlockSize cb with hBdef
  have hlt := Nat.mod_lt x (show 0 < 8 * B by omega)
  have hdm : 8 * (x / (8 * B) * B) + x % (8 * B) = x := by
    conv => rhs; rw [← Nat.div_add_mod x (8 * B)]
    ring
  refine ⟨x / (8 * B), ?_, ?_, ?_⟩
  · exact (Nat.div_lt_iff_lt_mul (by omega)).2 (by omega)
  · rw [blkOff, ← hBdef]
    omega
  · rw [blkSize, blkOff, ← hBdef]
    omega

/-- A bit of the first 512 is in the header block. -/
theorem inBlock_zero {x : Nat} (hx : x < 512) : InBlock cb 0 x := by
  have := (blkSize_zero h).2
  rw [InBlock, blkOff]
  omega

end

/-! ## The computed checksums -/

/-- The checksum of block `k` of a page, zero past the last one. -/
def blockSum (pv : Mem) (cb : Nat) (pgno : ULONG) (k : Fin 4) : XECHECKSUM :=
  if blkSize cb k = 0 then 0
  else blockChecksum (fun i => pv (blkOff cb k + i)) (blkSize cb k) pgno (decide (k = 0))

/-- The page with the checksums of the body blocks stored. -/
def storeBody (pv : Mem) (cb : Nat) (c : PAGECHECKSUM) : Mem :=
  if fIsSmallPage cb then pv
  else ((pv.writeU64 ibRgChecksum (c 1)).writeU64 (ibRgChecksum + 8) (c 2)).writeU64
    (ibRgChecksum + 16) (c 3)

theorem bit_storeBody_of_ge (pv : Mem) {cb : Nat} (c : PAGECHECKSUM) {i : Nat} (hi : 512 ≤ i) :
    (storeBody pv cb c).bit i = pv.bit i := by
  rw [storeBody]
  split_ifs
  · rfl
  · rw [Mem.bit_writeU64, if_neg (by rw [ibRgChecksum]; omega), Mem.bit_writeU64,
      if_neg (by rw [ibRgChecksum]; omega), Mem.bit_writeU64, if_neg (by rw [ibRgChecksum]; omega)]

theorem checksumNewFormat_eq (code : ChecksumCode) {pb : Mem} {cb : Nat} {pgno : ULONG}
    {fHeaderBlock : Bool} (h : BlockSize cb) :
    checksumNewFormat code pb cb pgno fHeaderBlock = blockChecksum pb cb pgno fHeaderBlock := by
  obtain ⟨machine, pfn⟩ := code
  cases pfn with
  | ChecksumNewFormatSlowly => exact checksumNewFormat128_eq pb pgno fHeaderBlock h
  | ChecksumNewFormatSSE => exact checksumNewFormat128_eq pb pgno fHeaderBlock h
  | ChecksumNewFormatSSE2 func => exact checksumNewFormatSSE2_eq machine pb pgno fHeaderBlock h func
  | ChecksumNewFormatAVX => exact checksumNewFormatAVX_eq machine pb pgno fHeaderBlock h
  | ChecksumNewFormat64Bit => exact checksumNewFormat64Bit_eq pb pgno fHeaderBlock h

section
variable {cb : Nat} (h : PageCb cb) (pgno : ULONG)
include h

/-- The checksum of a block reads its bits, without the first 64 of the page. -/
theorem blockSum_congr {pv pv' : Mem} {k : Fin 4}
    (hb : ∀ i, InBlock cb k i → 64 ≤ i → pv'.bit i = pv.bit i) :
    blockSum pv' cb pgno k = blockSum pv cb pgno k := by
  rw [blockSum, blockSum]
  split_ifs with h0
  · rfl
  · refine blockChecksum_congr (blkSize_blockSize h k.isLt h0) (fun i hi hh => ?_) pgno
    rw [Mem.bit_offset, Mem.bit_offset]
    refine hb _ ⟨by omega, by omega⟩ ?_
    by_cases hk : k = 0
    · have := hh (decide_eq_true hk)
      omega
    · have hk1 : 1 ≤ k.val := by
        have : k.val ≠ 0 := fun hv => hk (Fin.ext hv)
        omega
      have h4 := (blkSize_zero h).2
      rw [(blkSize_zero h).1] at h4
      have : cbBlockSize cb ≤ blkOff cb k := Nat.le_mul_of_pos_left _ hk1
      omega

/-- Storing the body's checksums does not change them. -/
theorem blockSum_storeBody (pv : Mem) (c : PAGECHECKSUM) {k : Fin 4} (hk : k ≠ 0) :
    blockSum (storeBody pv cb c) cb pgno k = blockSum pv cb pgno k := by
  refine blockSum_congr h pgno fun i hi _ => bit_storeBody_of_ge pv c ?_
  by_contra hlt
  exact hk (Fin.ext (inBlock_unique hi (inBlock_zero h (by omega))))

/-- The loop over the whole blocks from block `i` on. -/
theorem blockLoop_eq (code : ChecksumCode) (pv : Mem) {i n : Nat} (hn : n = cb / cbBlockSize cb)
    (hn4 : n ≤ 4) (hi : i ≤ n) (hi0 : 0 < i) (c : PAGECHECKSUM) :
    blockLoop code pv cb (cbBlockSize cb) pgno (i * cbBlockSize cb) i c
      = some (n * cbBlockSize cb, n, fun k => if i ≤ k.val ∧ k.val < n then blockSum pv cb pgno k
        else c k) := by
  have hB : 0 < cbBlockSize cb := by
    have := blkSize_zero h
    omega
  induction hd : n - i generalizing i c with
  | zero =>
    have hin : i = n := by omega
    subst hin
    have hlt := Nat.lt_div_mul_add (a := cb) hB
    rw [← hn] at hlt
    rw [blockLoop, if_neg (by omega)]
    congr 3
    funext k
    rw [if_neg (by omega)]
  | succ d ih =>
    have hle : (i + 1) * cbBlockSize cb ≤ cb := by
      refine Nat.le_trans (Nat.mul_le_mul_right _ (show i + 1 ≤ n by omega)) ?_
      rw [hn]
      exact Nat.div_mul_le_self cb _
    rw [Nat.add_mul, Nat.one_mul] at hle
    have hsz : blkSize cb i = cbBlockSize cb := by
      rw [blkSize, blkOff]
      omega
    have hbs : BlockSize (cbBlockSize cb) := hsz ▸ blkSize_blockSize h (by omega) (by omega)
    rw [blockLoop, if_pos hle, if_pos (by omega), show i * cbBlockSize cb + cbBlockSize cb
      = (i + 1) * cbBlockSize cb by ring, ih (by omega) (by omega) _ (by omega)]
    congr 3
    funext k
    rw [PAGECHECKSUM.set]
    by_cases hk : k.val = i
    · have hk0 : k ≠ 0 := fun hk0 => by
        rw [hk0] at hk
        exact absurd hk (by simp; omega)
      rw [if_neg (by omega), if_pos hk, if_pos (by omega), checksumNewFormat_eq code hbs, blockSum,
        hk,
        hsz, if_neg (by omega), blkOff, decide_eq_false hk0]
    · rw [if_neg hk]
      by_cases hin : i + 1 ≤ k.val ∧ k.val < n
      · rw [if_pos hin, if_pos (by omega)]
      · rw [if_neg hin, if_neg (by omega)]

/-- The body's checksums, as the code computes them. -/
theorem bodyChecksums_eq (code : ChecksumCode) (pv : Mem) :
    bodyChecksums code pv cb pgno = some fun k => if k = 0 then 0 else blockSum pv cb pgno k := by
  obtain ⟨hB, hn1, hn4⟩ : 0 < cbBlockSize cb ∧ 1 ≤ cb / cbBlockSize cb ∧
    cb / cbBlockSize cb ≤ 4 := by
    rcases h.cases with rfl | rfl | rfl | rfl | rfl | rfl | rfl | rfl <;> decide
  have hloop := blockLoop_eq h pgno code pv rfl hn4 hn1 (by decide) (fun _ => 0)
  rw [Nat.one_mul] at hloop
  have hdm := Nat.div_add_mod cb (cbBlockSize cb)
  have hlt := Nat.mod_lt cb hB
  rw [Nat.mul_comm] at hdm
  set n := cb / cbBlockSize cb with hn
  rw [bodyChecksums]
  simp only [hloop, Option.bind_eq_bind, Option.bind_some]
  have hoff (k : Nat) (hk : n < k) : blkSize cb k = 0 := by
    have : (n + 1) * cbBlockSize cb ≤ k * cbBlockSize cb := Nat.mul_le_mul_right _ hk
    rw [Nat.add_mul, Nat.one_mul] at this
    rw [blkSize, blkOff]
    omega
  have hsz : blkSize cb n = cb - n * cbBlockSize cb := by
    rw [blkSize, blkOff]
    omega
  -- what the entries at and past the last whole block are
  have hentry (k : Fin 4) (hk : ¬ (1 ≤ k.val ∧ k.val < n)) (hkn : k.val ≠ n ∨ blkSize cb n = 0) :
      (0 : XECHECKSUM) = if k = 0 then 0 else blockSum pv cb pgno k := by
    split_ifs with hk0
    · rfl
    · have hk1 : k.val ≠ 0 := fun hv => hk0 (Fin.ext hv)
      rw [blockSum, if_pos]
      rcases hkn with hkn | hkn
      · exact hoff _ (by omega)
      · by_cases hkn' : k.val = n
        · rw [hkn', hkn]
        · exact hoff _ (by omega)
  have hwhole (k : Fin 4) (hk : 1 ≤ k.val ∧ k.val < n) :
      blockSum pv cb pgno k = if k = 0 then 0 else blockSum pv cb pgno k := by
    rw [if_neg fun hk0 => by simp [hk0] at hk]
  by_cases hrest : 0 < cb - n * cbBlockSize cb
  · rw [if_pos hrest]
    refine congrArg some (funext fun k => ?_)
    rw [PAGECHECKSUM.set]
    by_cases hk : k.val = n
    · have hk0 : k ≠ 0 := fun hk0 => absurd (hk.symm.trans (congrArg Fin.val hk0)) (by simp; omega)
      have hb : BlockSize (blkSize cb n) :=
        blkSize_blockSize h (by have := k.isLt; omega) (by omega)
      rw [if_pos hk, if_neg hk0, checksumNewFormat_eq code (hsz ▸ hb), blockSum, hk,
        if_neg (by omega), hsz,
        blkOff, decide_eq_false hk0]
    · rw [if_neg hk]
      by_cases hk1 : 1 ≤ k.val ∧ k.val < n
      · rw [if_pos hk1]
        exact hwhole k hk1
      · rw [if_neg hk1]
        exact hentry k hk1 (.inl hk)
  · rw [if_neg hrest]
    refine congrArg some (funext fun k => ?_)
    by_cases hk1 : 1 ≤ k.val ∧ k.val < n
    · rw [if_pos hk1]
      exact hwhole k hk1
    · rw [if_neg hk1]
      exact hentry k hk1 (.inr (by omega))

/-- The checksums of a page in the new format; `fNew` also stores the body's. -/
theorem computePageChecksum_eq (code : ChecksumCode) {pv : Mem}
    (hflag : fPageHasNewChecksumFormat pv .databasePage = true) (fNew : Bool) :
    computePageChecksum code pv cb .databasePage pgno fNew
      = some (blockSum (if fNew then storeBody pv cb (blockSum pv cb pgno) else pv) cb pgno,
          if fNew then storeBody pv cb (blockSum pv cb pgno) else pv) := by
  have h0 := blkSize_zero h
  have hbs : BlockSize (blkSize cb 0) := blkSize_blockSize h (by decide) (by omega)
  have hhead (pv : Mem) : checksumNewFormat code pv (cbBlockSize cb) pgno true =
    blockSum pv cb pgno 0 := by
    have hne : blkSize cb (0 : Fin 4) ≠ 0 := by
      show blkSize cb 0 ≠ 0
      omega
    rw [checksumNewFormat_eq code (h0.1 ▸ hbs), blockSum, if_neg hne]
    simp [h0.1, blkOff]
  have hlong : fPageHasLongChecksum .databasePage = true := rfl
  rw [computePageChecksum, if_pos hlong, if_pos hflag]
  cases hs : fIsSmallPage cb
  · -- a large page: the header block's checksum is taken after the body's are stored
    have hstore : storeBody pv cb (fun k => if k = 0 then 0 else blockSum pv cb pgno k)
        = storeBody pv cb (blockSum pv cb pgno) := by
      rw [storeBody, storeBody]
      rfl
    have hif : (if fNew = true then
          ((pv.writeU64 ibRgChecksum
            ((fun k : Fin 4 => if k = 0 then 0 else blockSum pv cb pgno k) 1)).writeU64
            (ibRgChecksum + 8) ((fun k : Fin 4 => if k = 0 then 0 else blockSum pv cb pgno k)
            2)).writeU64
            (ibRgChecksum + 16) ((fun k : Fin 4 => if k = 0 then 0 else blockSum pv cb pgno k) 3)
          else pv) = if fNew then storeBody pv cb (blockSum pv cb pgno) else pv := by
      rw [← hstore, storeBody, hs]
      rfl
    simp only [bodyChecksums_eq h, Bool.not_false, if_true, Option.bind_eq_bind, Option.bind_some]
    rw [hif, hhead]
    refine congrArg some (Prod.ext (funext fun k => ?_) rfl)
    simp only [PAGECHECKSUM.set]
    by_cases hk : k = 0
    · have hk0 : k.val = 0 := congrArg Fin.val hk
      rw [if_pos hk0, hk]
    · have hk0 : ¬ k.val = 0 := fun hv => hk (Fin.ext hv)
      rw [if_neg hk0, if_neg hk]
      cases fNew
      · rfl
      · exact (blockSum_storeBody h pgno pv _ hk).symm
  · have hsmall : cbBlockSize cb = cb := by rw [cbBlockSize, hs]; rfl
    have hif : (if fNew = true then storeBody pv cb (blockSum pv cb pgno) else pv) = pv := by
      rw [storeBody, hs]
      cases fNew <;> rfl
    rw [hif]
    simp only [Bool.not_true, Bool.false_eq_true, if_false]
    refine congrArg some (Prod.ext (funext fun k => ?_) rfl)
    simp only [PAGECHECKSUM.set]
    by_cases hk : k.val = 0
    · rw [if_pos hk, ← hsmall, hhead, show k = 0 from Fin.ext hk, hsmall]
    · have hz : blkSize cb k = 0 := by
        have : cb ≤ blkOff cb k := by
          rw [blkOff, hsmall]
          exact Nat.le_mul_of_pos_left _ (by omega)
        rw [blkSize]
        omega
      rw [if_neg hk, blockSum, if_pos hz]

end

/-! ## Sealed pages -/

/-- A page in the new format whose stored checksums are the computed ones. -/
structure Sealed (pv : Mem) (cb : Nat) (pgno : ULONG) : Prop where
  flag : fPageHasNewChecksumFormat pv .databasePage = true
  stored : longChecksumFromPage pv cb = blockSum pv cb pgno

theorem fPageHasNewChecksumFormat_eq (pv : Mem) :
    fPageHasNewChecksumFormat pv .databasePage = pv.bit 301 := by
  rw [fPageHasNewChecksumFormat, if_pos rfl, fGetBit_eq]
  rfl

/-- The bits of a page with its checksums stored. -/
theorem bit_setLongChecksumOnPage (pv : Mem) (cb : Nat) (c : PAGECHECKSUM) (i : Nat) :
    (setLongChecksumOnPage pv cb c).bit i
      = if i < 64 then (c 0).getLsbD i else (storeBody pv cb c).bit i := by
  rw [setLongChecksumOnPage, storeBody]
  cases fIsSmallPage cb
  · simp only [Bool.false_eq_true, if_false, Mem.bit_writeU64, ibRgChecksum]
    by_cases hi : i < 64
    · simp [hi, show ¬ 448 ≤ i by omega, show ¬ 384 ≤ i by omega, show ¬ 320 ≤ i by omega]
    · simp [hi]
  · simp only [if_true, Mem.bit_writeU64]
    by_cases hi : i < 64
    · simp [hi]
    · simp [hi]

/-- The bits of the stored body checksums. -/
theorem bit_storeBody (pv : Mem) {cb : Nat} (hL : fIsSmallPage cb = false) (c : PAGECHECKSUM)
    (i : Nat) :
    (storeBody pv cb c).bit i
      = if 448 ≤ i ∧ i < 512 then (c 3).getLsbD (i - 448)
        else if 384 ≤ i ∧ i < 448 then (c 2).getLsbD (i - 384)
        else if 320 ≤ i ∧ i < 384 then (c 1).getLsbD (i - 320) else pv.bit i := by
  rw [storeBody, hL]
  simp only [Bool.false_eq_true, if_false, Mem.bit_writeU64, ibRgChecksum]

/-- The stored checksums, bit by bit. -/
theorem longChecksumFromPage_eq {pv : Mem} {cb : Nat} {c : PAGECHECKSUM}
    (h0 : ∀ j < 64, pv.bit j = (c 0).getLsbD j)
    (hL : fIsSmallPage cb = false → ∀ j < 64, pv.bit (320 + j) = (c 1).getLsbD j
      ∧ pv.bit (384 + j) = (c 2).getLsbD j ∧ pv.bit (448 + j) = (c 3).getLsbD j)
    (hS : fIsSmallPage cb = true → c 1 = 0 ∧ c 2 = 0 ∧ c 3 = 0) : longChecksumFromPage pv cb =
      c := by
  have hc : c = ![c 0, c 1, c 2, c 3] := by
    funext k
    match k with
    | 0 | 1 | 2 | 3 => rfl
  have e0 : pv.readU64 0 = c 0 := Mem.readU64_eq fun j hj => by
    rw [Nat.mul_zero, Nat.zero_add]
    exact h0 j hj
  rw [longChecksumFromPage, e0]
  cases hs : fIsSmallPage cb
  · have e1 : rgChecksum pv 0 = c 1 := Mem.readU64_eq fun j hj => (hL hs j hj).1
    have e2 : rgChecksum pv 1 = c 2 := Mem.readU64_eq fun j hj => (hL hs j hj).2.1
    have e3 : rgChecksum pv 2 = c 3 := Mem.readU64_eq fun j hj => (hL hs j hj).2.2
    rw [if_neg (by decide), e1, e2, e3, ← hc]
  · obtain ⟨h1, h2, h3⟩ := hS hs
    rw [if_pos rfl]
    conv => rhs; rw [hc, h1, h2, h3]

/-- A small page has one block. -/
theorem blockSum_small {cb : Nat} (hs : fIsSmallPage cb = true) (pv : Mem) (pgno : ULONG) :
    blockSum pv cb pgno 1 = 0 ∧ blockSum pv cb pgno 2 = 0 ∧ blockSum pv cb pgno 3 = 0 := by
  have hB : cbBlockSize cb = cb := by rw [cbBlockSize, hs]; rfl
  have hz (k : Nat) (hk : 1 ≤ k) : blkSize cb k = 0 := by
    have : cb ≤ blkOff cb k := by
      rw [blkOff, hB]
      exact Nat.le_mul_of_pos_left _ hk
    rw [blkSize]
    omega
  refine ⟨?_, ?_, ?_⟩
  · rw [blockSum, if_pos (hz _ (by decide))]
  · rw [blockSum, if_pos (hz _ (by decide))]
  · rw [blockSum, if_pos (hz _ (by decide))]

section
variable {cb : Nat} (h : PageCb cb) (pgno : ULONG)
include h

/-- A second store of the body's checksums writes what is there. -/
theorem storeBody_storeBody (pv : Mem) :
    storeBody (storeBody pv cb (blockSum pv cb pgno)) cb
        (blockSum (storeBody pv cb (blockSum pv cb pgno)) cb pgno)
      = storeBody pv cb (blockSum pv cb pgno) := by
  cases hs : fIsSmallPage cb
  · refine Mem.ext_bit fun i => ?_
    have hb (k : Fin 4) (hk : k ≠ 0) := blockSum_storeBody h pgno pv (blockSum pv cb pgno) hk
    rw [bit_storeBody _ hs, bit_storeBody _ hs, hb 1 (by decide), hb 2 (by decide),
      hb 3 (by decide)]
    by_cases h3 : 448 ≤ i ∧ i < 512
    · rw [if_pos h3, if_pos h3]
    · rw [if_neg h3, if_neg h3]
      by_cases h2 : 384 ≤ i ∧ i < 448
      · rw [if_pos h2, if_pos h2]
      · rw [if_neg h2, if_neg h2]
        by_cases h1 : 320 ≤ i ∧ i < 384
        · rw [if_pos h1, if_pos h1]
        · rw [if_neg h1, if_neg h1]
  · rw [storeBody, hs, if_pos rfl]

/-- A page whose body checksums are stored, with all of them stored. -/
theorem sealed_setLongChecksumOnPage {pv : Mem}
    (hflag : fPageHasNewChecksumFormat pv .databasePage = true)
    (hstore : storeBody pv cb (blockSum pv cb pgno) = pv) :
    Sealed (setLongChecksumOnPage pv cb (blockSum pv cb pgno)) cb pgno := by
  have hbit (i : Nat) (hi : 64 ≤ i) :
      (setLongChecksumOnPage pv cb (blockSum pv cb pgno)).bit i = pv.bit i := by
    rw [bit_setLongChecksumOnPage, if_neg (by omega), hstore]
  have hsum : blockSum (setLongChecksumOnPage pv cb (blockSum pv cb pgno)) cb pgno =
    blockSum pv cb pgno :=
    funext fun k => blockSum_congr h pgno fun i _ hi => hbit i hi
  constructor
  · rw [fPageHasNewChecksumFormat_eq] at hflag ⊢
    rw [hbit 301 (by decide), hflag]
  · rw [hsum]
    refine longChecksumFromPage_eq (fun j hj => ?_) (fun hs j hj => ?_)
      (fun hs => blockSum_small hs _ _)
    · rw [bit_setLongChecksumOnPage, if_pos hj]
    · have hb (i : Nat) (hi : 64 ≤ i) := (hbit i hi).trans (by rw [← hstore, bit_storeBody _ hs])
      refine ⟨?_, ?_, ?_⟩
      · rw [hb _ (by omega), if_neg (by omega), if_neg (by omega), if_pos (by omega),
          Nat.add_sub_cancel_left]
      · rw [hb _ (by omega), if_neg (by omega), if_pos (by omega), Nat.add_sub_cancel_left]
      · rw [hb _ (by omega), if_pos (by omega), Nat.add_sub_cancel_left]

/-- `SetPageChecksum` seals the page. -/
theorem setPageChecksum_sealed (code : ChecksumCode) (pv : Mem) :
    ∃ pv', setPageChecksum code pv cb .databasePage pgno = some pv' ∧ Sealed pv' cb pgno := by
  have hflag : fPageHasNewChecksumFormat (setNewChecksumFormatFlag pv .databasePage) .databasePage =
    true := by
    rw [fPageHasNewChecksumFormat_eq, setNewChecksumFormatFlag, bit_setBit]
    simp [ibitNewChecksumFormatFlag]
  generalize hpv₁ : setNewChecksumFormatFlag pv .databasePage = pv₁ at hflag
  have hflag₂ : fPageHasNewChecksumFormat (storeBody pv₁ cb (blockSum pv₁ cb pgno)) .databasePage =
    true := by
    rw [fPageHasNewChecksumFormat_eq] at hflag ⊢
    cases hs : fIsSmallPage cb
    · rw [bit_storeBody _ hs, if_neg (by decide), if_neg (by decide), if_neg (by decide), hflag]
    · rw [storeBody, hs, if_pos rfl, hflag]
  refine ⟨_, ?_, sealed_setLongChecksumOnPage h pgno hflag₂ (storeBody_storeBody h pgno pv₁)⟩
  have hlong : fPageHasLongChecksum .databasePage = true := rfl
  simp only [setPageChecksum, hlong, if_true, hpv₁, computePageChecksum_eq h pgno code hflag,
    Option.bind_eq_bind, Option.bind_some, setChecksumOnPage]
  rfl

end

/-! ## A flipped bit -/

/-- The entries of the array with one of its bits flipped. -/
theorem PAGECHECKSUM.getLsbD_flipBit (c : PAGECHECKSUM) (y : Nat) (k : Fin 4) {j : Nat}
    (hj : j < 64) :
    (c.flipBit y k).getLsbD j = ((c k).getLsbD j ^^ decide (64 * k.val + j = y)) := by
  rw [PAGECHECKSUM.flipBit]
  by_cases hk : k.val = y / 64
  · rw [if_pos hk, BitVec.getLsbD_xor, ← BitVec.twoPow_eq, BitVec.getLsbD_twoPow]
    have hy : y % 64 = j ↔ 64 * k.val + j = y := by omega
    simp [Nat.mod_lt y (show 0 < 64 by decide), hy]
  · rw [if_neg hk]
    simp [show ¬ 64 * k.val + j = y by omega]

theorem PAGECHECKSUM.flipBit_flipBit (c : PAGECHECKSUM) (y : Nat) : (c.flipBit y).flipBit y = c :=
  funext fun k => BitVec.eq_of_getLsbD_eq fun j hj => by
    rw [getLsbD_flipBit _ _ _ hj, getLsbD_flipBit _ _ _ hj]
    simp

/-- The bit lies in a checksum stored in the header of a large page. -/
def InRgChecksum (cb b : Nat) : Prop := fIsSmallPage cb = false ∧ 320 ≤ b ∧ b < 512

section
variable {cb : Nat} {pgno : ULONG} {pv : Mem} (hP : Sealed pv cb pgno)
include hP

theorem Sealed.bit_header {j : Nat} (hj : j < 64) :
    pv.bit j = (blockSum pv cb pgno 0).getLsbD j := by
  rw [← hP.stored, longChecksumFromPage]
  have hr : (pv.readU64 0).getLsbD j = pv.bit j := by
    rw [Mem.getLsbD_readU64 _ _ hj, Nat.mul_zero, Nat.zero_add]
  split_ifs
  · exact hr.symm
  · exact hr.symm

theorem Sealed.bit_body (hs : fIsSmallPage cb = false) {j : Nat} (hj : j < 64) :
    pv.bit (320 + j) = (blockSum pv cb pgno 1).getLsbD j
      ∧ pv.bit (384 + j) = (blockSum pv cb pgno 2).getLsbD j
      ∧ pv.bit (448 + j) = (blockSum pv cb pgno 3).getLsbD j := by
  have hr (i : Nat) : (rgChecksum pv i).getLsbD j = pv.bit (320 + 64 * i + j) := by
    rw [rgChecksum, Mem.getLsbD_readU64 _ _ hj, ibRgChecksum]
    congr 1
    omega
  rw [← hP.stored, longChecksumFromPage, hs, if_neg (by decide)]
  exact ⟨(hr 0).symm, (hr 1).symm, (hr 2).symm⟩

/-- The checksums stored on a sealed page after a bit flips. -/
theorem Sealed.stored_flipBit {b : Nat} (hb : 64 ≤ b) :
    (InRgChecksum cb b →
      longChecksumFromPage (flipBit pv b) cb = PAGECHECKSUM.flipBit (blockSum pv cb pgno)
      (64 + (b - 320)))
    ∧ (¬ InRgChecksum cb b → longChecksumFromPage (flipBit pv b) cb = blockSum pv cb pgno) := by
  have hz (j : Nat) (hj : j < 64) : (flipBit pv b).bit j = (blockSum pv cb pgno 0).getLsbD j := by
    rw [bit_flipBit, hP.bit_header hj]
    simp [show j ≠ b by omega]
  refine ⟨fun hin => ?_, fun hout => ?_⟩
  · obtain ⟨hs, hlo, hhi⟩ := hin
    refine longChecksumFromPage_eq (fun j hj => ?_) (fun _ j hj => ?_) (fun hs' => ?_)
    · rw [PAGECHECKSUM.getLsbD_flipBit _ _ _ hj, hz j hj]
      simp [show ¬ j = 64 + (b - 320) by omega]
    · obtain ⟨h1, h2, h3⟩ := hP.bit_body hs hj
      rw [bit_flipBit, bit_flipBit, bit_flipBit, h1, h2, h3, PAGECHECKSUM.getLsbD_flipBit _ _ _ hj,
        PAGECHECKSUM.getLsbD_flipBit _ _ _ hj, PAGECHECKSUM.getLsbD_flipBit _ _ _ hj]
      refine ⟨?_, ?_, ?_⟩ <;> congr 2 <;> rw [eq_iff_iff]
      · show 320 + j = b ↔ 64 * 1 + j = 64 + (b - 320)
        omega
      · show 384 + j = b ↔ 64 * 2 + j = 64 + (b - 320)
        omega
      · show 448 + j = b ↔ 64 * 3 + j = 64 + (b - 320)
        omega
    · exact absurd (hs.symm.trans hs') (by decide)
  · refine longChecksumFromPage_eq hz (fun hs j hj => ?_) (fun hs => blockSum_small hs _ _)
    obtain ⟨h1, h2, h3⟩ := hP.bit_body hs hj
    have hr (i : Nat) (hi : 320 ≤ i) (hi' : i < 512) : (flipBit pv b).bit i = pv.bit i := by
      rw [bit_flipBit]
      simp [show i ≠ b by rintro rfl; exact hout ⟨hs, hi, hi'⟩]
    rw [hr _ (by omega) (by omega), hr _ (by omega) (by omega), hr _ (by omega) (by omega)]
    exact ⟨h1, h2, h3⟩

/-- A sealed page holds the checksums of its body. -/
theorem Sealed.storeBody_eq : storeBody pv cb (blockSum pv cb pgno) = pv := by
  cases hs : fIsSmallPage cb
  · refine Mem.ext_bit fun i => ?_
    rw [bit_storeBody _ hs]
    split_ifs with h3 h2 h1
    · rw [← (hP.bit_body hs (show i - 448 < 64 by omega)).2.2, Nat.add_sub_of_le h3.1]
    · rw [← (hP.bit_body hs (show i - 384 < 64 by omega)).2.1, Nat.add_sub_of_le h2.1]
    · rw [← (hP.bit_body hs (show i - 320 < 64 by omega)).1, Nat.add_sub_of_le h1.1]
    · rfl
  · rw [storeBody, hs, if_pos rfl]

end

section
variable {cb : Nat} (h : PageCb cb) (pgno : ULONG) (pv : Mem) {b : Nat} (hb : 64 ≤ b)
include h

/-- The other blocks keep their checksums. -/
theorem blockSum_flipBit {kb k : Fin 4} (hkb : InBlock cb kb b) (hk : k ≠ kb) :
    blockSum (flipBit pv b) cb pgno k = blockSum pv cb pgno k :=
  blockSum_congr h pgno fun i hi _ => by
    have hib : i ≠ b := by
      rintro rfl
      exact hk (Fin.ext (inBlock_unique hi hkb))
    rw [bit_flipBit]
    simp [hib]

omit h in
theorem blkSize_ne_zero {kb : Fin 4} (hkb : InBlock cb kb b) : blkSize cb kb ≠ 0 := by
  have h1 := hkb.1
  have h2 := hkb.2
  omega

include hb in
/-- The checksums of the block with the flipped bit show its offset in the block. -/
theorem fTryFixBlock_flipBit {kb : Fin 4} (hkb : InBlock cb kb b) {ibitForbidden : ULONG}
    (hf : ibitForbidden ≠ BitVec.ofNat 32 (b - 8 * blkOff cb kb)) :
    fTryFixBlock (blkSize cb kb) ibitForbidden (blockSum pv cb pgno kb)
      (blockSum (flipBit pv b) cb pgno kb)
      = (.xeChecksumCorrectableError, BitVec.ofNat 32 (b - 8 * blkOff cb kb)) := by
  have hs := blkSize_ne_zero hkb
  have hbs := blkSize_blockSize h kb.isLt hs
  obtain ⟨h1, h2⟩ := hkb
  have hx : b - 8 * blkOff cb kb < 8 * blkSize cb kb := by omega
  have hh : decide (kb = 0) = true → 64 ≤ b - 8 * blkOff cb kb := fun hk => by
    rw [of_decide_eq_true hk]
    simpa [blkOff] using hb
  have hflip (i : Nat) (_ : i < 8 * blkSize cb kb) :
      Mem.bit (fun i => flipBit pv b (blkOff cb kb + i)) i
        = (Mem.bit (fun i => pv (blkOff cb kb + i)) i ^^ decide (i = b - 8 * blkOff cb kb)) := by
    rw [Mem.bit_offset, Mem.bit_offset, bit_flipBit]
    congr 2
    rw [eq_iff_iff]
    omega
  obtain ⟨hc, hi, hne⟩ := blockChecksum_correctable hbs hx hh hflip pgno
  have hcb : blkSize cb kb ≤ cb := by
    rw [blkSize]
    omega
  have hcb32 := h.2.2
  rw [fTryFixBlock, blockSum, if_neg hs, blockSum, if_neg hs, if_neg hne, if_pos hc, hi, if_pos]
  refine ⟨hf, ?_⟩
  rw [BitVec.toNat_ofNat, Nat.mod_eq_of_lt (by omega)]
  exact hx

end

/-! ## The loop over the blocks -/

/-- The loop's record of what `FTryFixBlock` reports for a block. -/
def FixLoop.record (s : FixLoop) (iblk : Fin 4) (err : XECHECKSUMERROR) (ibit : ULONG) : FixLoop :=
  { s with
    rgErr := Function.update s.rgErr iblk err
    rgibitCorrupted := Function.update s.rgibitCorrupted iblk ibit }

/-- The expected checksums after the first error, at bit `ibit` of block `iblk`. -/
def restored (fSmallPage : Bool) (iblk : Fin 4) (ibit : ULONG) (c : PAGECHECKSUM) : PAGECHECKSUM :=
  if !fSmallPage ∧ 0 = iblk ∧ 8 * ibRgChecksum ≤ ibit.toNat
      ∧ ibit.toNat < 8 * ibRgChecksum + 64 * (4 - 1) then
    c.flipBit (64 + (ibit.toNat - 8 * ibRgChecksum))
  else c

section
variable (s : FixLoop) (iblk : Fin 4) (err : XECHECKSUMERROR) (ibit : ULONG)

@[simp] theorem FixLoop.record_checksumExpected :
    (s.record iblk err ibit).checksumExpected = s.checksumExpected := rfl

@[simp] theorem FixLoop.record_ibitCorrupted :
    (s.record iblk err ibit).ibitCorrupted = s.ibitCorrupted := rfl

@[simp] theorem FixLoop.record_rgErr_self : (s.record iblk err ibit).rgErr iblk = err := by
  simp only [FixLoop.record, Function.update_self]

@[simp] theorem FixLoop.record_rgibitCorrupted_self :
    (s.record iblk err ibit).rgibitCorrupted iblk = ibit := by
  simp only [FixLoop.record, Function.update_self]

theorem FixLoop.record_rgErr_of_ne {j : Fin 4} (hj : j.val ≠ iblk.val) :
    (s.record iblk err ibit).rgErr j = s.rgErr j := by
  simp only [FixLoop.record, Function.update_of_ne (fun h => hj (congrArg Fin.val h) : j ≠ iblk)]

theorem FixLoop.record_rgibitCorrupted_of_ne {j : Fin 4} (hj : j.val ≠ iblk.val) :
    (s.record iblk err ibit).rgibitCorrupted j = s.rgibitCorrupted j := by
  simp only [FixLoop.record, Function.update_of_ne (fun h => hj (congrArg Fin.val h) : j ≠ iblk)]

/-- The first error of the page. -/
theorem FixLoop.hit_record (hmax : s.ibitCorrupted = ulMax) (fSmallPage : Bool) :
    (s.record iblk err ibit).hit fSmallPage iblk
      = { s.record iblk err ibit with
          ibitCorrupted := ibit
          checksumExpected := restored fSmallPage iblk ibit s.checksumExpected } := by
  have hcond : ulMax = (s.record iblk err ibit).ibitCorrupted := hmax.symm
  rw [FixLoop.hit, if_pos hcond, record_rgibitCorrupted_self]
  rfl

end

/-- What the loop leaves once no further block has an error. -/
structure FixLoop.Clean (k : Nat) (s s' : FixLoop) : Prop where
  err : ∀ j : Fin 4, j.val < k → s'.rgErr j = s.rgErr j
  ibit : ∀ j : Fin 4, j.val < k → s'.rgibitCorrupted j = s.rgibitCorrupted j
  rest : ∀ j : Fin 4, k ≤ j.val → s'.rgErr j = .xeChecksumNoError
  corrupted : s'.ibitCorrupted = s.ibitCorrupted

section
variable {cb : Nat} (h : PageCb cb) {act : PAGECHECKSUM}
include h

/-- The loop at a block whose checksums agree. -/
theorem fixLoop_same {k : Nat} (hk : k < 4) (hs : blkSize cb k ≠ 0) (s : FixLoop)
    (heq : s.checksumExpected ⟨k, hk⟩ = act ⟨k, hk⟩) :
    ∃ x, fixLoop cb act k (blkOff cb k) (blkSize cb k) s
      = fixLoop cb act (k + 1) (blkOff cb k + blkSize cb k) (blkSize cb (k + 1))
          (s.record ⟨k, hk⟩ .xeChecksumNoError x) := by
  refine ⟨s.rgibitCorrupted ⟨k, hk⟩ + BitVec.ofNat 32 (8 * blkOff cb k), ?_⟩
  rw [fixLoop, if_pos (Nat.pos_of_ne_zero hs), dif_pos hk]
  simp only [fTryFixBlock, heq, if_true, (blkSize_succ h hk hs).1]
  rfl

/-- The loop at a block with a correctable error. -/
theorem fixLoop_correctable {k : Nat} (hk : k < 4) (hs : blkSize cb k ≠ 0) (s : FixLoop)
    {ibit : ULONG}
    (hfix : fTryFixBlock (blkSize cb k) (s.rgibitCorrupted ⟨k, hk⟩) (s.checksumExpected ⟨k, hk⟩)
      (act ⟨k, hk⟩) = (.xeChecksumCorrectableError, ibit)) :
    fixLoop cb act k (blkOff cb k) (blkSize cb k) s
      = fixLoop cb act (k + 1) (blkOff cb k + blkSize cb k) (blkSize cb (k + 1))
          ((s.record ⟨k, hk⟩ .xeChecksumCorrectableError
            (ibit + BitVec.ofNat 32 (8 * blkOff cb k))).hit (fIsSmallPage cb) ⟨k, hk⟩) := by
  rw [fixLoop, if_pos (Nat.pos_of_ne_zero hs), dif_pos hk]
  simp only [hfix, (blkSize_succ h hk hs).1]
  rfl

/-- The loop over blocks whose checksums agree records no error. -/
theorem fixLoop_clean {k ibT : Nat} (hk : k ≤ 4) (hT : blkSize cb k ≠ 0 → ibT = blkOff cb k)
    (s : FixLoop)
    (heq : ∀ j : Fin 4, k ≤ j.val → s.checksumExpected j = act j)
    (herr : ∀ j : Fin 4, k ≤ j.val → s.rgErr j = .xeChecksumNoError) :
    ∃ n s', fixLoop cb act k ibT (blkSize cb k) s = .done n s' ∧ k ≤ n ∧ FixLoop.Clean k s s' := by
  induction hd : 4 - k generalizing k ibT s with
  | zero =>
    have hk4 : k = 4 := by omega
    subst hk4
    refine ⟨4, s, ?_, Nat.le_refl _, ⟨fun _ _ => rfl, fun _ _ => rfl, herr, rfl⟩⟩
    rw [fixLoop, blkSize_four h, if_neg (by decide)]
  | succ d ih =>
    by_cases hs : blkSize cb k = 0
    · refine ⟨k, s, ?_, Nat.le_refl _, ⟨fun _ _ => rfl, fun _ _ => rfl, herr, rfl⟩⟩
      rw [fixLoop, hs, if_neg (by decide)]
    · have hk4 : k < 4 := by omega
      obtain ⟨x, hstep⟩ := fixLoop_same h hk4 hs s (heq ⟨k, hk4⟩ (Nat.le_refl _))
      have herr' (j : Fin 4) (hj : k + 1 ≤ j.val) :
          (s.record ⟨k, hk4⟩ .xeChecksumNoError x).rgErr j = .xeChecksumNoError := by
        rw [FixLoop.record_rgErr_of_ne _ _ _ _ (show j.val ≠ k by omega)]
        exact herr j (by omega)
      obtain ⟨n, s', hrun, hn, hclean⟩ := ih (by omega) (blkSize_succ h hk4 hs).2
        (s.record ⟨k, hk4⟩ .xeChecksumNoError x) (fun j hj => heq j (by omega)) herr' (by omega)
      rw [hT hs, hstep, hrun]
      refine ⟨n, s', rfl, by omega, ?_, ?_, fun j hj => ?_, hclean.corrupted⟩
      · intro j hj
        rw [hclean.err j (by omega), FixLoop.record_rgErr_of_ne _ _ _ _ (show j.val ≠ k by omega)]
      · intro j hj
        rw [hclean.ibit j (by omega),
          FixLoop.record_rgibitCorrupted_of_ne _ _ _ _ (show j.val ≠ k by omega)]
      · by_cases hjk : j.val = k
        · rw [hclean.err j (by omega), show j = ⟨k, hk4⟩ from Fin.ext hjk,
            FixLoop.record_rgErr_self]
        · exact hclean.rest j (by omega)

/-- The loop over a page with one correctable block, whose first error restores the expected
checksums. -/
theorem fixLoop_one {kb : Fin 4} {k : Nat} (hk : k ≤ kb.val) (hkb : blkSize cb kb ≠ 0) (s : FixLoop)
    {ibit ibitPage : ULONG}
    (hfix : fTryFixBlock (blkSize cb kb) (s.rgibitCorrupted kb) (s.checksumExpected kb) (act kb)
      = (.xeChecksumCorrectableError, ibit))
    (hpage : ibit + BitVec.ofNat 32 (8 * blkOff cb kb) = ibitPage)
    (hmax : s.ibitCorrupted = ulMax) (herr : ∀ j, s.rgErr j = .xeChecksumNoError)
    (hlt : ∀ j : Fin 4, j.val < kb.val → s.checksumExpected j = act j)
    (hgt : ∀ j : Fin 4, kb.val < j.val →
      restored (fIsSmallPage cb) kb ibitPage s.checksumExpected j = act j) :
    ∃ n s', fixLoop cb act k (blkOff cb k) (blkSize cb k) s = .done n s' ∧ kb.val < n
      ∧ s'.ibitCorrupted = ibitPage ∧ s'.rgibitCorrupted kb = ibitPage
      ∧ s'.rgErr kb = .xeChecksumCorrectableError
      ∧ ∀ j ≠ kb, s'.rgErr j ≠ .xeChecksumCorrectableError := by
  induction hd : kb.val - k generalizing k s with
  | zero =>
    have hkkb : k = kb.val := by omega
    subst hkkb
    rw [fixLoop_correctable h kb.isLt hkb s hfix, hpage, FixLoop.hit_record _ _ _ _ hmax]
    obtain ⟨n, s', hrun, hn, hclean⟩ := fixLoop_clean h (show kb.val + 1 ≤ 4 by omega)
      (blkSize_succ h kb.isLt hkb).2
      { s.record kb .xeChecksumCorrectableError ibitPage with
        ibitCorrupted := ibitPage
        checksumExpected := restored (fIsSmallPage cb) kb ibitPage s.checksumExpected }
      (fun j hj => hgt j (by omega)) (fun j hj => by
        rw [FixLoop.record_rgErr_of_ne _ _ _ _ (show j.val ≠ kb.val by omega), herr])
    refine ⟨n, s', hrun, by omega, ?_, ?_, ?_, fun j hj => ?_⟩
    · rw [hclean.corrupted]
    · rw [hclean.ibit kb (by omega), FixLoop.record_rgibitCorrupted_self]
    · rw [hclean.err kb (by omega), FixLoop.record_rgErr_self]
    · have hjkb : j.val ≠ kb.val := fun hv => hj (Fin.ext hv)
      by_cases hlt : j.val < kb.val + 1
      · rw [hclean.err j hlt, FixLoop.record_rgErr_of_ne _ _ _ _ hjkb, herr]
        decide
      · rw [hclean.rest j (by omega)]
        decide
  | succ d ih =>
    have hk4 : k < 4 := by omega
    have hs := blkSize_mono h hk kb.isLt hkb
    have hs' := blkSize_mono h (show k + 1 ≤ kb.val by omega) kb.isLt hkb
    obtain ⟨x, hstep⟩ := fixLoop_same h hk4 hs s (hlt ⟨k, hk4⟩ (show k < kb.val by omega))
    have hne : kb.val ≠ k := by omega
    rw [hstep, (blkSize_succ h hk4 hs).2 hs']
    refine ih (by omega) (s.record ⟨k, hk4⟩ .xeChecksumNoError x) ?_ hmax (fun j => ?_) hlt
      hgt (by omega)
    · rw [FixLoop.record_rgibitCorrupted_of_ne _ _ _ _ hne]
      exact hfix
    · by_cases hjk : j.val = k
      · rw [show j = ⟨k, hk4⟩ from Fin.ext hjk, FixLoop.record_rgErr_self]
      · rw [FixLoop.record_rgErr_of_ne _ _ _ _ hjk, herr]

end

/-! ## The repaired page -/

/-- A fold that acts at one block only. -/
theorem foldl_one {α : Type*} (p : Fin 4 → Prop) [DecidablePred p] (f : α → Fin 4 → α) {kb : Fin 4}
    (hkb : p kb) (hne : ∀ j ≠ kb, ¬ p j) (a : α) :
    (List.finRange 4).foldl (fun a j => if p j then f a j else a) a = f a kb := by
  have hfin : List.finRange 4 = [0, 1, 2, 3] := by decide
  rw [hfin]
  match kb with
  | 0 => simp [List.foldl, hkb, hne 1 (by decide), hne 2 (by decide), hne 3 (by decide)]
  | 1 => simp [List.foldl, hkb, hne 0 (by decide), hne 2 (by decide), hne 3 (by decide)]
  | 2 => simp [List.foldl, hkb, hne 0 (by decide), hne 1 (by decide), hne 3 (by decide)]
  | 3 => simp [List.foldl, hkb, hne 0 (by decide), hne 1 (by decide), hne 2 (by decide)]

section
variable {cb : Nat} (h : PageCb cb) {pgno : ULONG} {pv : Mem} (hP : Sealed pv cb pgno) {b : Nat}
  (hb : 64 ≤ b) (hbc : b < 8 * cb) (hflag : b ≠ 301)
include h hP hb

/-- The checksum stored for the block with the flipped bit is the one from before the flip. -/
theorem Sealed.stored_flipBit_self {kb : Fin 4} (hkb : InBlock cb kb b) :
    longChecksumFromPage (flipBit pv b) cb kb = blockSum pv cb pgno kb := by
  obtain ⟨hin, hout⟩ := hP.stored_flipBit hb
  by_cases hr : InRgChecksum cb b
  · have hkb0 : kb.val = 0 := inBlock_unique hkb (inBlock_zero h hr.2.2)
    rw [hin hr, PAGECHECKSUM.flipBit, if_neg (by omega)]
  · rw [hout hr]

include hbc in
/-- The first error restores the expected checksums. -/
theorem Sealed.restored_flipBit {kb : Fin 4} (hkb : InBlock cb kb b) :
    restored (fIsSmallPage cb) kb (BitVec.ofNat 32 b) (longChecksumFromPage (flipBit pv b) cb)
      = blockSum pv cb pgno := by
  obtain ⟨hin, hout⟩ := hP.stored_flipBit hb
  have hcb := h.2.2
  have hnat : (BitVec.ofNat 32 b).toNat = b := by
    rw [BitVec.toNat_ofNat, Nat.mod_eq_of_lt (by omega)]
  rw [restored, hnat, ibRgChecksum]
  by_cases hr : InRgChecksum cb b
  · have hkb0 : kb = 0 := Fin.ext (inBlock_unique hkb (inBlock_zero h hr.2.2))
    obtain ⟨hs, hlo, hhi⟩ := id hr
    rw [if_pos ⟨by rw [hs]; rfl, hkb0.symm, hlo, hhi⟩, hin hr]
    exact PAGECHECKSUM.flipBit_flipBit _ _
  · rw [hout hr, if_neg]
    rintro ⟨hs, -, hlo, hhi⟩
    exact hr ⟨by simpa using hs, hlo, hhi⟩

include hbc hflag

omit hP in
/-- The bit that cannot be flipped is another one. -/
theorem ibitForbidden_ne {kb : Fin 4} (hkb : InBlock cb kb b) :
    (![ibitNewChecksumFormatFlag .databasePage, ulMax, ulMax, ulMax] : Fin 4 → ULONG) kb
      ≠ BitVec.ofNat 32 (b - 8 * blkOff cb kb) := by
  have hcb := h.2.2
  have hoff := hkb.1
  intro heq
  have hnat := congrArg BitVec.toNat heq
  rw [BitVec.toNat_ofNat, Nat.mod_eq_of_lt (by omega)] at hnat
  by_cases hk0 : kb = 0
  · subst hk0
    have h301 : 301 = b - 8 * blkOff cb 0 := hnat
    rw [blkOff] at h301
    omega
  · have hmax : (![ibitNewChecksumFormatFlag .databasePage, ulMax, ulMax, ulMax] : Fin 4 → ULONG) kb
        = ulMax := by
      have hd : ∀ k : Fin 4, k ≠ 0 →
          (![ibitNewChecksumFormatFlag .databasePage, ulMax, ulMax, ulMax] : Fin 4 → ULONG) k =
            ulMax := by
        decide
      exact hd kb hk0
    rw [hmax, show ulMax.toNat = 4294967295 from rfl] at hnat
    omega

/-- The loop finds the block with the flipped bit. -/
theorem Sealed.fixLoop_flipBit {kb : Fin 4} (hkb : InBlock cb kb b) (s : FixLoop)
    (hexp : s.checksumExpected = longChecksumFromPage (flipBit pv b) cb)
    (herr : ∀ j, s.rgErr j = .xeChecksumNoError)
    (hibit : s.rgibitCorrupted = ![ibitNewChecksumFormatFlag .databasePage, ulMax, ulMax, ulMax])
    (hmax : s.ibitCorrupted = ulMax) :
    ∃ n s', fixLoop cb (blockSum (flipBit pv b) cb pgno) 0 0 (cbBlockSize cb) s = .done n s' ∧
      kb.val < n
      ∧ s'.ibitCorrupted = BitVec.ofNat 32 b ∧ s'.rgibitCorrupted kb = BitVec.ofNat 32 b
      ∧ s'.rgErr kb = .xeChecksumCorrectableError
      ∧ ∀ j ≠ kb, s'.rgErr j ≠ .xeChecksumCorrectableError := by
  have hpage : BitVec.ofNat 32 (b - 8 * blkOff cb kb) + BitVec.ofNat 32 (8 * blkOff cb kb)
      = BitVec.ofNat 32 b := by
    rw [← BitVec.ofNat_add, Nat.sub_add_cancel hkb.1]
  have hfix := fTryFixBlock_flipBit h pgno pv hb hkb (ibitForbidden_ne h hb hbc hflag hkb)
  rw [← hibit, ← hP.stored_flipBit_self h hb hkb, ← hexp] at hfix
  have hother (j : Fin 4) (hj : j.val ≠ kb.val) : blockSum (flipBit pv b) cb pgno j =
    blockSum pv cb pgno j :=
    blockSum_flipBit h pgno pv hkb fun hv => hj (congrArg Fin.val hv)
  have hlt (j : Fin 4) (hj : j.val < kb.val) :
      s.checksumExpected j = blockSum (flipBit pv b) cb pgno j := by
    have hr : ¬ InRgChecksum cb b := fun hr => by
      have := inBlock_unique hkb (inBlock_zero h hr.2.2)
      omega
    rw [hexp, (hP.stored_flipBit hb).2 hr, hother j (by omega)]
  have hgt (j : Fin 4) (hj : kb.val < j.val) :
      restored (fIsSmallPage cb) kb (BitVec.ofNat 32 b) s.checksumExpected j
        = blockSum (flipBit pv b) cb pgno j := by
    rw [hexp, hP.restored_flipBit h hb hbc hkb, hother j (by omega)]
  have hloop :=
    fixLoop_one h (Nat.zero_le kb.val) (blkSize_ne_zero hkb) s hfix hpage hmax herr hlt hgt
  rw [blkOff, Nat.zero_mul, (blkSize_zero h).1] at hloop
  exact hloop

theorem Sealed.tryFixPage_flipBit :
    tryFixPage (flipBit pv b) cb .databasePage true false (-1)
        (longChecksumFromPage (flipBit pv b) cb) (blockSum (flipBit pv b) cb pgno)
      = (pv, true, BitVec.ofNat 32 b) := by
  obtain ⟨k, hk4, hkb⟩ := exists_inBlock h hbc
  obtain ⟨kb, rfl⟩ : ∃ kb : Fin 4, kb.val = k := ⟨⟨k, hk4⟩, rfl⟩
  have hcb := h.2.2
  obtain ⟨n, s', hrun, hn, hcorr, hibit, herr, hrest⟩ := hP.fixLoop_flipBit h hb hbc hflag hkb
    { checksumExpected := longChecksumFromPage (flipBit pv b) cb
      rgErr := fun _ => .xeChecksumNoError
      rgibitCorrupted := ![ibitNewChecksumFormatFlag .databasePage, ulMax, ulMax, ulMax]
      ibitCorrupted := ulMax } rfl (fun _ => rfl) rfl rfl
  rw [tryFixPage]
  simp only [hrun, hcorr, true_and]
  rw [foldl_one (fun iblk => iblk.val < n ∧ s'.rgErr iblk = .xeChecksumCorrectableError)
    (fun pv iblk => flipBit pv (s'.rgibitCorrupted iblk).toNat) ⟨hn, herr⟩
    (fun j hj hp => hrest j hj hp.2), hibit, BitVec.toNat_ofNat, Nat.mod_eq_of_lt (by omega),
    flipBit_flipBit]

/-- Verification of a sealed page with a flipped bit. -/
theorem Sealed.fixPage_flipBit (code : ChecksumCode) (fFault : Bool) :
    checksumAndPossiblyFixPage code fFault (flipBit pv b) cb .databasePage pgno true
      = some ⟨pv, blockSum pv cb pgno, blockSum pv cb pgno, true, BitVec.ofNat 32 b⟩ := by
  obtain ⟨k, hk4, hkb⟩ := exists_inBlock h hbc
  obtain ⟨kb, rfl⟩ : ∃ kb : Fin 4, kb.val = k := ⟨⟨k, hk4⟩, rfl⟩
  have hflagQ : fPageHasNewChecksumFormat (flipBit pv b) .databasePage = true := by
    have := hP.flag
    rw [fPageHasNewChecksumFormat_eq] at this ⊢
    rw [bit_flipBit, this]
    simp [Ne.symm hflag]
  have hne : blockSum (flipBit pv b) cb pgno ≠ longChecksumFromPage (flipBit pv b) cb :=
    fun heq => by
    have hfix := fTryFixBlock_flipBit h pgno pv hb hkb (ibitForbidden_ne h hb hbc hflag hkb)
    rw [heq, hP.stored_flipBit_self h hb hkb, fTryFixBlock, if_pos rfl] at hfix
    cases hfix
  have hlong (pv : Mem) : checksumFromPage pv cb .databasePage = longChecksumFromPage pv cb := rfl
  rw [checksumAndPossiblyFixPage]
  simp only [computePageChecksum_eq h pgno code hflagQ, Option.bind_eq_bind, Option.bind_some,
    hlong,
    Bool.false_eq_true, if_false]
  rw [if_pos ⟨hne, hflagQ⟩, hP.tryFixPage_flipBit h hb hbc hflag]
  simp only [computePageChecksum_eq h pgno code hP.flag, if_true, and_self, Option.bind_some,
    hP.storeBody_eq, hP.stored]
  rfl

end

/-- Single-bit repair: `SetPageChecksum` seals a page, and verification of the sealed page with any
one bit flipped, except in the first 64 and the format flag, finds and flips that bit back. -/
theorem checksumAndPossiblyFixPage_flipBit {cb : Nat} (h : PageCb cb) (code : ChecksumCode)
    (fFault : Bool) (pv : Mem) (pgno : ULONG) {b : Nat} (hb : 64 ≤ b) (hbc : b < 8 * cb)
    (hflag : b ≠ (ibitNewChecksumFormatFlag .databasePage).toNat) :
    ∃ pv' r, setPageChecksum code pv cb .databasePage pgno = some pv'
      ∧ checksumAndPossiblyFixPage code fFault (flipBit pv' b) cb .databasePage pgno true = some r
      ∧ r.fCorrectableError = true ∧ r.ibitCorrupted = BitVec.ofNat 32 b ∧ r.ibitCorrupted.toNat = b
      ∧ r.pv = pv' ∧ r.checksumExpected = r.checksumActual := by
  obtain ⟨pv', hset, hP⟩ := setPageChecksum_sealed h pgno code pv
  have hcb := h.2.2
  refine ⟨pv', _, hset, hP.fixPage_flipBit h hb hbc hflag code fFault, rfl, rfl, ?_,
    rfl, rfl⟩
  rw [BitVec.toNat_ofNat, Nat.mod_eq_of_lt (by omega)]

/-- A bit of the checksum stored for the third block of a 32 KB page. -/
theorem checksumAndPossiblyFixPage_flipBit_stored :
    ∃ pv' r, setPageChecksum ⟨.M_AMD64, .ChecksumNewFormatAVX⟩ (fun _ => 0) 32768 .databasePage 1 =
      some pv'
      ∧ checksumAndPossiblyFixPage ⟨.M_AMD64, .ChecksumNewFormatAVX⟩ false (flipBit pv' 390) 32768
          .databasePage 1 true = some r
      ∧ r.fCorrectableError = true ∧ r.ibitCorrupted = BitVec.ofNat 32 390 ∧
        r.ibitCorrupted.toNat = 390
      ∧ r.pv = pv' ∧ r.checksumExpected = r.checksumActual :=
  checksumAndPossiblyFixPage_flipBit ⟨⟨8, rfl⟩, by decide, by decide⟩ _ _ _ _ (by decide)
    (by decide)
    (by decide)

end Ese
