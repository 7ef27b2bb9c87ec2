import Ese.Checksum.Verify

/-!
# Log segments

A log file is an array of segments. The header of a segment has a checksum, which is taken with the
index of the segment, and the segment's position in the log. A segment verifies for the index it was
sealed for and for no other, whether it stands at that index or, as a shadow, at the next.
-/

namespace Ese.Log

/-- `LOG_SEGMENT_SIZE`. -/
def LOG_SEGMENT_SIZE : Nat := 4096

/-- `sizeof( LGSEGHDR )`. -/
def cbLGSEGHDR : Nat := 40

/-- A position in the log. -/
structure LGPOS where
  ib : Nat
  isec : Nat
  lGeneration : Nat
  deriving DecidableEq, Repr

/-- The position as one integer. -/
def LGPOS.qw (lgpos : LGPOS) : Nat := lgpos.lGeneration * 2 ^ 32 + lgpos.isec * 2 ^ 16 + lgpos.ib

/-- `CmpLgpos`. -/
def cmpLgpos (lgpos1 lgpos2 : LGPOS) : Int :=
  if lgpos1.qw < lgpos2.qw then -1 else if lgpos1.qw > lgpos2.qw then 1 else 0

/-- `LGSEGHDR::le_lgposSegment`. -/
def leLgposSegment (pSegHdr : Mem) : LGPOS :=
  let qw := (pSegHdr.readU64 8).toNat
  ⟨qw % 2 ^ 16, qw / 2 ^ 16 % 2 ^ 16, qw / 2 ^ 32⟩

/-- The page type of a segment, compatible with a database page. -/
abbrev logfilePage : PAGETYPE := .databasePage

section
variable (code : ChecksumCode) (lGeneration isec : Nat) (pv : Mem)

/-- The header of a segment before its checksum is set. -/
def fillHeader : Mem :=
  let pv := pv.fill 24 12 0
  let pv := pv.fill 36 4 0
  pv.writeU64 8 (BitVec.ofNat 64 (LGPOS.qw ⟨0, isec % 2 ^ 16, lGeneration⟩))

/-- The segment with its header and its checksum; `SetPageChecksum` never fails on a segment
(`sealSegment_spec`). -/
def sealSegment : Mem :=
  let pv := fillHeader lGeneration isec pv
  (setPageChecksum code pv LOG_SEGMENT_SIZE logfilePage (BitVec.ofNat 32 (isec % 2 ^ 16))).getD pv

/-- `ChecksumAndPossiblyFixPage` of a segment: whether the stored checksum is the calculated one,
and the segment, which can be changed. -/
def checksumSegment : Bool × Mem :=
  match checksumAndPossiblyFixPage code false pv LOG_SEGMENT_SIZE logfilePage
    (BitVec.ofNat 32 isec) true with
  | some r => (r.checksumExpected = r.checksumActual, r.pv)
  | none => (false, pv)

/-- `FUtilZeroed` of a segment. -/
def fUtilZeroed : Bool := (List.range LOG_SEGMENT_SIZE).all fun ib => pv ib = 0

/-- A segment that was sealed for an index. -/
def SealedFor : Prop := Sealed pv LOG_SEGMENT_SIZE (BitVec.ofNat 32 isec)

end

variable {code : ChecksumCode} {lGeneration isec isec' : Nat} {pv : Mem}

/-- A segment is a page of one block. -/
theorem pageCb : PageCb LOG_SEGMENT_SIZE := by
  unfold PageCb LOG_SEGMENT_SIZE
  decide

/-- A segment is a small page. -/
theorem fIsSmallPage_segment : fIsSmallPage LOG_SEGMENT_SIZE = true := by
  unfold LOG_SEGMENT_SIZE
  decide

/-! ## Positions -/

/-- The position in the header of a segment. -/
theorem leLgposSegment_qw : (leLgposSegment pv).qw = (pv.readU64 8).toNat := by
  unfold leLgposSegment LGPOS.qw
  dsimp only
  omega

/-- Positions compare equal iff they are. -/
theorem cmpLgpos_eq_zero_iff {lgpos1 lgpos2 : LGPOS} : cmpLgpos lgpos1 lgpos2 = 0 ↔
    lgpos1.qw = lgpos2.qw := by
  unfold cmpLgpos
  split
  · omega
  · split <;> omega

/-- Positions compare as their numbers. -/
theorem cmpLgpos_neg_iff {lgpos1 lgpos2 : LGPOS} : cmpLgpos lgpos1 lgpos2 < 0 ↔
    lgpos1.qw < lgpos2.qw := by
  unfold cmpLgpos
  split
  · omega
  · split <;> omega

/-- Positions compare as their numbers. -/
theorem cmpLgpos_pos_iff {lgpos1 lgpos2 : LGPOS} : 0 < cmpLgpos lgpos1 lgpos2 ↔
    lgpos2.qw < lgpos1.qw := by
  unfold cmpLgpos
  split
  · omega
  · split <;> omega

/-! ## Sealing -/

/-- A byte past the header is that of the log. -/
theorem fillHeader_apply {ib : Nat} (h : cbLGSEGHDR ≤ ib) :
    fillHeader lGeneration isec pv ib = pv ib := by
  unfold cbLGSEGHDR at h
  unfold fillHeader
  rw [Mem.writeU64, Mem.write_apply_of_not_mem _ _ (by simp; omega),
    Mem.fill_apply_of_not_mem _ _ (by omega), Mem.fill_apply_of_not_mem _ _ (by omega)]

/-- A sealed segment checks, has its position and keeps its records. -/
theorem sealSegment_spec (hgen : lGeneration < 2 ^ 31) (hisec : isec < 2 ^ 16) :
    SealedFor isec (sealSegment code lGeneration isec pv) ∧
      (leLgposSegment (sealSegment code lGeneration isec pv)).qw = LGPOS.qw ⟨0, isec, lGeneration⟩ ∧
      ∀ ib, cbLGSEGHDR ≤ ib → sealSegment code lGeneration isec pv ib = pv ib := by
  have hmod : isec % 2 ^ 16 = isec := Nat.mod_eq_of_lt hisec
  obtain ⟨pv', hset, hsealed, hbit⟩ := setPageChecksum_small pageCb fIsSmallPage_segment code
    (fillHeader lGeneration isec pv) (BitVec.ofNat 32 (isec % 2 ^ 16))
  have heq : sealSegment code lGeneration isec pv = pv' := by
    unfold sealSegment
    dsimp only
    rw [hset, Option.getD_some]
  rw [heq]
  refine ⟨by rwa [hmod] at hsealed, ?_, fun ib hib => ?_⟩
  · have hread : pv'.readU64 8 = BitVec.ofNat 64 (LGPOS.qw ⟨0, isec, lGeneration⟩) := by
      refine Mem.readU64_eq fun j hj => ?_
      rw [hbit _ (by omega), fillHeader, Mem.bit_writeU64, if_pos (by omega),
        Nat.add_sub_cancel_left, hmod]
      simp [show ¬8 * 8 + j = 301 by omega]
    rw [leLgposSegment_qw, hread, BitVec.toNat_ofNat, Nat.mod_eq_of_lt]
    unfold LGPOS.qw
    dsimp only
    omega
  · have hfill : fillHeader lGeneration isec pv ib = pv ib := fillHeader_apply hib
    unfold cbLGSEGHDR at hib
    rw [← hfill]
    refine BitVec.eq_of_getLsbD_eq fun j hj => ?_
    rw [Mem.getLsbD_eq_bit _ _ hj, Mem.getLsbD_eq_bit _ _ hj, hbit _ (by omega)]
    simp [show ¬8 * ib + j = 301 by omega]

/-! ## Segments with the same bytes -/

section
variable {pv' : Mem} (h : ∀ ib < LOG_SEGMENT_SIZE, pv' ib = pv ib)
include h

/-- The bits of a segment with the same bytes. -/
theorem bit_congr {i : Nat} (hi : i < 8 * LOG_SEGMENT_SIZE) : pv'.bit i = pv.bit i := by
  rw [Mem.bit, Mem.bit, h (i / 8) (by omega)]

/-- A sealed segment is one by its bytes. -/
theorem SealedFor.congr (hsealed : SealedFor isec pv) : SealedFor isec pv' := by
  have hbit : ∀ i, i < 8 * 4096 → pv'.bit i = pv.bit i := fun i hi => bit_congr h hi
  have hread : pv'.readU64 0 = pv.readU64 0 :=
    Mem.readU64_eq fun j hj => by rw [hbit _ (by omega), Mem.getLsbD_readU64 _ _ hj]
  have hsum : blockSum pv' LOG_SEGMENT_SIZE (BitVec.ofNat 32 isec)
      = blockSum pv LOG_SEGMENT_SIZE (BitVec.ofNat 32 isec) :=
    funext fun k => blockSum_congr pageCb _ fun i hi _ => hbit i (by
      have hlo := hi.1
      have hhi := hi.2
      unfold LOG_SEGMENT_SIZE at hlo hhi
      unfold blkSize at hhi
      omega)
  refine ⟨?_, ?_⟩
  · have hflag := hsealed.flag
    rw [fPageHasNewChecksumFormat_eq] at hflag ⊢
    rw [hbit _ (by omega), hflag]
  · have hstored := hsealed.stored
    rw [longChecksumFromPage, if_pos fIsSmallPage_segment] at hstored ⊢
    rw [hread, hsum, hstored]

/-- The position of a segment is in its bytes. -/
theorem leLgposSegment_congr : (leLgposSegment pv').qw = (leLgposSegment pv).qw := by
  have hread : pv'.readU64 8 = pv.readU64 8 :=
    Mem.readU64_eq fun j hj => by
      rw [bit_congr h (by unfold LOG_SEGMENT_SIZE; omega), Mem.getLsbD_readU64 _ _ hj]
  rw [leLgposSegment_qw, leLgposSegment_qw, hread]

end

/-! ## Verifying -/

/-- A segment verifies for the index it was sealed for. -/
theorem SealedFor.checksumSegment_eq (h : SealedFor isec pv) :
    checksumSegment code isec pv = (true, pv) := by
  unfold checksumSegment
  rw [Sealed.checksumAndPossiblyFixPage_eq h pageCb]
  simp

/-- A segment verifies for no other index. -/
theorem SealedFor.checksumSegment_ne (h : SealedFor isec pv) (hne : isec ≠ isec')
    (hisec : isec < 2 ^ 32)
    (hisec' : isec' < 2 ^ 32) : checksumSegment code isec' pv = (false, pv) := by
  have hne' : BitVec.ofNat 32 isec ≠ BitVec.ofNat 32 isec' := by
    intro heq
    have := congrArg BitVec.toNat heq
    rw [BitVec.toNat_ofNat, BitVec.toNat_ofNat, Nat.mod_eq_of_lt hisec, Nat.mod_eq_of_lt hisec']
      at this
    exact hne this
  obtain ⟨r, hr, hpv, hsum⟩ := Sealed.checksumAndPossiblyFixPage_ne fIsSmallPage_segment
    (by unfold LOG_SEGMENT_SIZE; decide) h pageCb hne' code
  unfold checksumSegment
  rw [hr]
  simp [hsum, hpv]

/-- `FUtilZeroed` tells a segment of zeros. -/
theorem fUtilZeroed_iff : fUtilZeroed pv = true ↔ ∀ ib < LOG_SEGMENT_SIZE, pv ib = 0 := by
  unfold fUtilZeroed
  simp

/-- A segment of zeros verifies for no index. -/
theorem checksumSegment_zero (h : fUtilZeroed pv = true) :
    checksumSegment code isec pv = (false, pv) := by
  obtain ⟨r, hr, hpv, hsum⟩ := checksumAndPossiblyFixPage_zero pageCb (fUtilZeroed_iff.1 h) code
    (BitVec.ofNat 32 isec)
  unfold checksumSegment
  rw [hr]
  simp [hsum, hpv]

/-- The format flag of a segment. -/
def fFormat (pv : Mem) : Bool := fPageHasNewChecksumFormat pv logfilePage

/-- A sealed segment has the format flag. -/
theorem SealedFor.fFormat (h : SealedFor isec pv) : fFormat pv = true := h.flag

/-- Verification leaves the format flag alone, so it leaves no segment of zeros. -/
theorem fFormat_checksumSegment (h : fFormat pv = true) :
    fFormat (checksumSegment code isec pv).2 = true := by
  obtain ⟨r, hr, hpv⟩ := checksumAndPossiblyFixPage_small fIsSmallPage_segment
    (by unfold LOG_SEGMENT_SIZE; decide) pageCb code pv (BitVec.ofNat 32 isec) h
  unfold checksumSegment
  rw [hr]
  dsimp only
  unfold fFormat at h ⊢
  rcases hpv with hpv | ⟨b, hb, hpv⟩
  · rw [hpv]
    exact h
  · rw [hpv]
    rw [fPageHasNewChecksumFormat_eq] at h ⊢
    rw [bit_flipBit, h]
    simp [Ne.symm hb]

/-- A segment with the format flag is not of zeros. -/
theorem fUtilZeroed_of_fFormat (h : fFormat pv = true) : fUtilZeroed pv = false := by
  rw [Bool.eq_false_iff]
  intro hzero
  unfold fFormat at h
  rw [fPageHasNewChecksumFormat_eq, Mem.bit,
    fUtilZeroed_iff.1 hzero (301 / 8) (by unfold LOG_SEGMENT_SIZE; decide)] at h
  exact absurd h (by decide)

end Ese.Log
