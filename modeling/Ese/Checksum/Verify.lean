import Ese.Checksum.Repair

/-!
# Verifying a small page

A page of one block is found as it was sealed, and only under the number it was sealed with: another
number changes the XOR half of the checksum and leaves the ECC half alone, which is no correctable
error. Verification changes at most one bit of a page, and never the format flag.
-/

namespace Ese

variable {cb : Nat}

/-! ## Setting the checksum -/

section
variable (h : PageCb cb) (hs : fIsSmallPage cb = true)
include h hs

/-- `SetPageChecksum` of a page of one block writes the checksum and the format flag. -/
theorem setPageChecksum_small (code : ChecksumCode) (pv : Mem) (pgno : ULONG) :
    ∃ pv', setPageChecksum code pv cb .databasePage pgno = some pv' ∧ Sealed pv' cb pgno ∧
      ∀ i, 64 ≤ i → pv'.bit i = (pv.bit i || decide (i = 301)) := by
  have hflag : fPageHasNewChecksumFormat (setNewChecksumFormatFlag pv .databasePage) .databasePage =
    true := by
    rw [fPageHasNewChecksumFormat_eq, setNewChecksumFormatFlag, bit_setBit]
    simp [ibitNewChecksumFormatFlag]
  obtain ⟨pv', hset, hsealed⟩ := setPageChecksum_sealed h pgno code pv
  refine ⟨pv', hset, hsealed, fun i hi => ?_⟩
  have hlong : fPageHasLongChecksum .databasePage = true := rfl
  simp only [setPageChecksum, hlong, if_true, computePageChecksum_eq h pgno code hflag,
    Option.bind_eq_bind, Option.bind_some, setChecksumOnPage, storeBody, hs] at hset
  obtain rfl : _ = pv' := Option.some.inj hset
  rw [bit_setLongChecksumOnPage, if_neg (by omega), storeBody, if_pos hs, setNewChecksumFormatFlag,
    bit_setBit]
  rfl

end

/-! ## Verification -/

/-- The page is found as it was sealed. -/
theorem Sealed.checksumAndPossiblyFixPage_eq {pv : Mem} {pgno : ULONG} (hP : Sealed pv cb pgno)
    (h : PageCb cb) (code : ChecksumCode) :
    checksumAndPossiblyFixPage code false pv cb .databasePage pgno true
      = some ⟨pv, blockSum pv cb pgno, blockSum pv cb pgno, false, -1⟩ := by
  have hlong : checksumFromPage pv cb .databasePage = longChecksumFromPage pv cb := rfl
  rw [checksumAndPossiblyFixPage]
  simp only [computePageChecksum_eq h pgno code hP.flag, Option.bind_eq_bind, Option.bind_some,
    hlong,
    Bool.false_eq_true, if_false, hP.stored, ne_eq, not_true_eq_false, false_and]
  rfl

/-- Another number changes the XOR half and leaves the ECC half alone. -/
theorem blockSum_pgno (h : PageCb cb) (pv : Mem) {pgno pgno' : ULONG} (hne : pgno ≠ pgno') :
    blockSum pv cb pgno 0 ≠ blockSum pv cb pgno' 0 ∧
      fECCErrorIsCorrectable (blkSize cb 0) (blockSum pv cb pgno 0) (blockSum pv cb pgno' 0) =
        false := by
  have h0 := (blkSize_zero h).2
  have hblk : ∀ pgno, blockSum pv cb pgno 0 =
      blockEcc (fun i => pv (blkOff cb 0 + i)) (blkSize cb 0) true ++
        blockXor (fun i => pv (blkOff cb 0 + i)) (blkSize cb 0) pgno true := by
    intro pgno
    rw [blockSum, if_neg (show ¬blkSize cb (0 : Fin 4) = 0 by show ¬blkSize cb 0 = 0; omega)]
    rfl
  rw [hblk, hblk]
  constructor
  · intro heq
    have hxor := congrArg dwXORChecksumFromXEChecksum heq
    rw [dwXORChecksum_append, dwXORChecksum_append, blockXor, blockXor, BitVec.xor_right_inj]
      at hxor
    exact hne hxor
  · have hmask : ¬(BitVec.ofNat 32 (blkSize cb 0) <<< 3) - 1 = 0#32 := by
      rcases (blkSize_blockSize h (show 0 < 4 by decide) (by omega)).cases with h' | h' | h' |
        h' <;>
        rw [h'] <;> decide
    rw [fECCErrorIsCorrectable, dwECCChecksum_append, dwECCChecksum_append,
      fECCErrorIsCorrectableDw]
    simp only [BitVec.xor_self, BitVec.zero_ushiftRight, BitVec.zero_and, hmask, decide_false,
      Bool.false_eq_true, if_false]

/-- The loop's locals before the first block of a page. -/
def FixLoop.start (checksumExpected : PAGECHECKSUM) : FixLoop :=
  { checksumExpected := checksumExpected
    rgErr := fun _ => .xeChecksumNoError
    rgibitCorrupted := ![ibitNewChecksumFormatFlag .databasePage, ulMax, ulMax, ulMax]
    ibitCorrupted := ulMax }

/-- A fold that acts at no block. -/
theorem foldl_none {α : Type*} (p : Fin 4 → Prop) [DecidablePred p] (f : α → Fin 4 → α)
    (hne : ∀ j, ¬p j) (a : α) :
    (List.finRange 4).foldl (fun a j => if p j then f a j else a) a = a := by
  simp only [hne, if_false, List.foldl_fixed]

/-- A bit that is corrected is not the one that cannot be flipped. -/
theorem fTryFixBlock_ne {cb : Nat} {ibitForbidden ibit : ULONG} {xeExpected xeActual : XECHECKSUM}
    (hfix : fTryFixBlock cb ibitForbidden xeExpected xeActual =
      (.xeChecksumCorrectableError, ibit)) :
    ibitForbidden ≠ ibit := by
  unfold fTryFixBlock at hfix
  split at hfix
  · cases hfix
  · split at hfix
    · dsimp only at hfix
      split at hfix
      · next hne =>
        cases hfix
        exact hne.1
      · cases hfix
    · cases hfix

section
variable (hs : fIsSmallPage cb = true) (hpos : 0 < cb)
include hs hpos

/-- The loop over the one block of a page. -/
theorem fixLoop_small (act : PAGECHECKSUM) (s : FixLoop) :
    fixLoop cb act 0 0 (cbBlockSize cb) s =
      match fTryFixBlock cb (s.rgibitCorrupted 0) (s.checksumExpected 0) (act 0) with
      | (.xeChecksumNoError, ibit) => .done 1 (s.record 0 .xeChecksumNoError ibit)
      | (.xeChecksumCorrectableError, ibit) =>
        .done 1 ((s.record 0 .xeChecksumCorrectableError ibit).hit true 0)
      | (.xeChecksumFatalError, _) => .fatal := by
  have hsize : cbBlockSize cb = cb := by rw [cbBlockSize, hs]; rfl
  have hend : ∀ s', fixLoop cb act 1 (0 + cb) (min (cb - (0 + cb)) cb) s' = .done 1 s' := by
    intro s'
    rw [fixLoop, if_neg (by omega)]
  have hzero : ∀ ibit : ULONG, ibit + BitVec.ofNat 32 (8 * 0) = ibit :=
    fun ibit => BitVec.add_zero ibit
  rw [hsize, fixLoop, if_pos hpos, dif_pos (by decide)]
  dsimp only
  rw [show (⟨0, by decide⟩ : Fin 4) = 0 from rfl]
  cases hfix : fTryFixBlock cb (s.rgibitCorrupted 0) (s.checksumExpected 0) (act 0) with
  | mk err ibit =>
  dsimp only
  rw [hzero]
  cases err with
  | xeChecksumNoError => exact hend _
  | xeChecksumCorrectableError =>
    rw [hs]
    exact hend _
  | xeChecksumFatalError => rfl

/-- A page of one block is changed in one bit at most, and not in the format flag. -/
theorem tryFixPage_small (pv : Mem) (ibitCorrupted : ULONG)
    (checksumExpected checksumActual : PAGECHECKSUM) :
    (tryFixPage pv cb .databasePage true false ibitCorrupted checksumExpected checksumActual).1 =
      pv ∨
      ∃ b, b ≠ 301 ∧
        (tryFixPage pv cb .databasePage true false ibitCorrupted checksumExpected checksumActual).1
          = flipBit pv b := by
  rw [tryFixPage]
  dsimp only
  rw [fixLoop_small hs hpos]
  dsimp only
  cases hfix : fTryFixBlock cb (![ibitNewChecksumFormatFlag .databasePage, ulMax, ulMax, ulMax] 0)
      (checksumExpected 0) (checksumActual 0) with
  | mk err ibit =>
  cases err with
  | xeChecksumFatalError => exact Or.inl rfl
  | xeChecksumNoError =>
    refine Or.inl ?_
    have hnot : ∀ iblk : Fin 4, ¬(true = true ∧ iblk.val < 1 ∧
        ((FixLoop.start checksumExpected).record 0 .xeChecksumNoError ibit).rgErr iblk =
          .xeChecksumCorrectableError) := by
      rintro iblk ⟨-, hlt, herr⟩
      have h0 : iblk = 0 := Fin.ext (by omega)
      rw [h0, FixLoop.record_rgErr_self] at herr
      cases herr
    exact foldl_none _ (fun pv iblk => flipBit pv
      (((FixLoop.start checksumExpected).record 0 .xeChecksumNoError ibit).rgibitCorrupted
      iblk).toNat)
      hnot pv
  | xeChecksumCorrectableError =>
    have hne := fTryFixBlock_ne hfix
    refine Or.inr ⟨ibit.toNat, fun h301 => hne (BitVec.eq_of_toNat_eq h301.symm), ?_⟩
    exact foldl_one (fun iblk : Fin 4 => true = true ∧ iblk.val < 1 ∧ (FixLoop.hit true 0
        ((FixLoop.start checksumExpected).record 0 .xeChecksumCorrectableError ibit)).rgErr iblk
          = .xeChecksumCorrectableError)
      (fun pv iblk => flipBit pv ((FixLoop.hit true 0
        ((FixLoop.start checksumExpected).record 0 .xeChecksumCorrectableError
          ibit)).rgibitCorrupted
          iblk).toNat) (show _ ∧ (0 : Fin 4).val < 1 ∧ _ from ⟨rfl, by decide, rfl⟩)
      (fun iblk hne0 hp => hne0 (Fin.ext (Nat.lt_one_iff.1 hp.2.1))) pv

/-- Verification changes a page of one block in one bit at most, and not in the format flag. -/
theorem checksumAndPossiblyFixPage_small (h : PageCb cb) (code : ChecksumCode) (pv : Mem)
    (pgno : ULONG)
    (hflag : fPageHasNewChecksumFormat pv .databasePage = true) :
    ∃ r, checksumAndPossiblyFixPage code false pv cb .databasePage pgno true = some r ∧
      (r.pv = pv ∨ ∃ b, b ≠ 301 ∧ r.pv = flipBit pv b) := by
  have hlong (pv : Mem) : checksumFromPage pv cb .databasePage = longChecksumFromPage pv cb := rfl
  have htry := tryFixPage_small hs hpos pv (-1) (longChecksumFromPage pv cb) (blockSum pv cb pgno)
  rw [checksumAndPossiblyFixPage]
  simp only [computePageChecksum_eq h pgno code hflag, Option.bind_eq_bind, Option.bind_some, hlong,
    Bool.false_eq_true, if_false]
  split
  · have hflag' : ∀ pv', pv' = pv ∨ (∃ b, b ≠ 301 ∧ pv' = flipBit pv b) →
        fPageHasNewChecksumFormat pv' .databasePage = true := by
      rintro pv' (rfl | ⟨b, hb, rfl⟩)
      · exact hflag
      · rw [fPageHasNewChecksumFormat_eq] at hflag ⊢
        rw [bit_flipBit, hflag]
        simp [Ne.symm hb]
    generalize tryFixPage pv cb .databasePage true false (-1) (longChecksumFromPage pv cb)
      (blockSum pv cb pgno) = fixed at htry
    obtain ⟨pv', fCorrectableError, ibitCorrupted⟩ := fixed
    dsimp only at htry ⊢
    split
    · rw [computePageChecksum_eq h pgno code (hflag' pv' htry), Option.bind_some, storeBody,
        if_pos hs,
        ite_self]
      exact ⟨_, rfl, htry⟩
    · exact ⟨_, rfl, htry⟩
  · exact ⟨_, rfl, Or.inl rfl⟩

/-- Under another number the page is not verified, and not changed. -/
theorem Sealed.checksumAndPossiblyFixPage_ne {pv : Mem} {pgno pgno' : ULONG}
    (hP : Sealed pv cb pgno)
    (h : PageCb cb) (hne : pgno ≠ pgno') (code : ChecksumCode) :
    ∃ r, checksumAndPossiblyFixPage code false pv cb .databasePage pgno' true = some r ∧ r.pv = pv ∧
      r.checksumExpected ≠ r.checksumActual := by
  have hlong (pv : Mem) : checksumFromPage pv cb .databasePage = longChecksumFromPage pv cb := rfl
  have hsize : blkSize cb 0 = cb := by
    rw [(blkSize_zero h).1, cbBlockSize, hs]
    rfl
  obtain ⟨hsum, hecc⟩ := blockSum_pgno h pv hne
  rw [hsize] at hecc
  have hsum' : blockSum pv cb pgno' ≠ blockSum pv cb pgno := fun heq => hsum (by rw [heq])
  have htry : tryFixPage pv cb .databasePage true false (-1) (blockSum pv cb pgno)
      (blockSum pv cb pgno') = (pv, false, -1) := by
    rw [tryFixPage]
    dsimp only
    rw [fixLoop_small hs hpos, fTryFixBlock, if_neg hsum, hecc, if_neg (by decide)]
  refine ⟨⟨pv, blockSum pv cb pgno, blockSum pv cb pgno', false, -1⟩, ?_, rfl, Ne.symm hsum'⟩
  rw [checksumAndPossiblyFixPage]
  simp only [computePageChecksum_eq h pgno' code hP.flag, Option.bind_eq_bind, Option.bind_some,
    hlong,
    Bool.false_eq_true, if_false, hP.stored]
  rw [if_pos ⟨hsum', hP.flag⟩, htry]
  rfl

omit hs hpos in
/-- A page of zeros is not verified under any number, and not changed. -/
theorem checksumAndPossiblyFixPage_zero {pv : Mem} (h : PageCb cb) (hzero : ∀ ib < cb, pv ib = 0)
    (code : ChecksumCode) (pgno : ULONG) :
    ∃ r, checksumAndPossiblyFixPage code false pv cb .databasePage pgno true = some r ∧ r.pv = pv ∧
      r.checksumExpected ≠ r.checksumActual := by
  have hcb : 4096 ≤ cb := by
    have := (blkSize_zero h).2
    rw [blkSize, blkOff] at this
    omega
  have hflag : fPageHasNewChecksumFormat pv .databasePage = false := by
    rw [fPageHasNewChecksumFormat_eq, Mem.bit, hzero _ (by omega)]
    rfl
  have hword : ∀ a, a + 3 < cb → pv.readU32 a = 0 := by
    intro a ha
    rw [Mem.readU32, hzero _ ha, hzero _ (by omega), hzero _ (by omega), hzero _ (by omega)]
    rfl
  have hold : checksumOldFormat pv cb = 0x89abcdef := by
    have hsum : xorSum (cb / 32) (fun k => pdw pv (8 * k) ^^^ pdw pv (8 * k + 1) ^^^ pdw pv
        (8 * k + 2) ^^^
        pdw pv (8 * k + 3) ^^^ pdw pv (8 * k + 4) ^^^ pdw pv (8 * k + 5) ^^^ pdw pv (8 * k + 6) ^^^
        pdw pv (8 * k + 7)) = 0 := by
      refine (xorSum_congr fun k hk => ?_).trans (xorSum_const_zero (cb / 32))
      simp only [pdw]
      rw [hword _ (by omega), hword _ (by omega), hword _ (by omega), hword _ (by omega),
        hword _ (by omega), hword _ (by omega), hword _ (by omega), hword _ (by omega)]
      rfl
    rw [checksumOldFormat, hsum, pdw, hword _ (by omega)]
    rfl
  have hstored : checksumFromPage pv cb .databasePage 0 = 0 := by
    have h0 : pv.readU64 0 = 0 := by
      rw [Mem.readU64, hword _ (by omega), hword _ (by omega)]
      rfl
    show longChecksumFromPage pv cb 0 = 0
    rw [longChecksumFromPage]
    split <;> exact h0
  have hactual : longChecksumFromShortChecksum 0x89abcdef pgno ≠ 0 := by
    intro heq
    have hbit := congrArg (fun x : XECHECKSUM => x.getLsbD 0) heq
    simp [longChecksumFromShortChecksum] at hbit
  refine ⟨⟨pv, checksumFromPage pv cb .databasePage,
    ![longChecksumFromShortChecksum 0x89abcdef pgno, 0, 0, 0], false, -1⟩, ?_, rfl, fun heq => ?_⟩
  · rw [checksumAndPossiblyFixPage, computePageChecksum]
    simp only [hflag, hold, fPageHasLongChecksum, decide_true, if_true, Bool.false_eq_true,
      if_false,
      and_false, Option.bind_eq_bind, Option.pure_def, Option.bind_some]
  · have h0 := congrFun heq 0
    exact hactual (h0.symm.trans hstored)

end

end Ese
