import Ese.Lib.Memory
import Ese.Lib.Patch
import Ese.Page.Basic

/-!
# Diff logging

A replace is logged as a diff of the before-image and the after-image: a sequence of entries,
each a header with an offset into the before-image, one or two data lengths and the new data
(`FLGAppendDiff`). Redo rebuilds the after-image from the diff and the before-image
(`ErrLGGetAfterImage`). A small page uses `DIFFHDR`, which packs a 13-bit offset and three flags
into one word; a large page uses `DIFFHDR2`, a word for the offset and a byte for the flags.

The diff buffer is the list of the bytes appended so far, `none` the overflow return. Redo reads
the diff and the before-image from memory, so what lies behind them is there to be read too.
-/

namespace Ese

namespace DIFFHDR

def ibOffsetMask : BitVec 16 := 0x1FFF
def fReplaceWithSameLength : BitVec 16 := 0x2000
def fInsert : BitVec 16 := 0x4000
def fUseTwoBytesForDataLength : BitVec 16 := 0x8000

end DIFFHDR

/-- `DIFFHDR2`: the offset and the flags of a diff entry. -/
@[ext] structure DIFFHDR2 where
  m_ib : BitVec 16
  m_flags : BitVec 8
  deriving DecidableEq, Repr

namespace DIFFHDR2

def fReplaceWithSameLength : BitVec 8 := 1 <<< 5
def fInsert : BitVec 8 := 1 <<< 6
def fUseTwoBytesForDataLength : BitVec 8 := 1 <<< 7
def shfFlag : Nat := 8

/-- The conversion from the bits of a `DIFFHDR`. -/
def ofDIFFHDR (m_bitfield : BitVec 16) : DIFFHDR2 :=
  ⟨m_bitfield &&& DIFFHDR.ibOffsetMask, (m_bitfield >>> shfFlag).setWidth 8⟩

variable (h : DIFFHDR2)

def ib : Nat := h.m_ib.toNat

def FReplaceWithSameLength : Bool := h.m_flags &&& fReplaceWithSameLength ≠ 0

def FInsert : Bool := h.m_flags &&& fInsert ≠ 0

def FUseTwoBytesForDataLength : Bool := h.m_flags &&& fUseTwoBytesForDataLength ≠ 0

end DIFFHDR2

/-- The two little-endian bytes of a word. -/
def wordBytes (w : BitVec 16) : List Byte := [w.extractLsb' 0 8, w.extractLsb' 8 8]

/-- The size of a diff header. -/
def cbDiffHdr (fDiff2 : Bool) : Nat := if fDiff2 then 3 else 2

/-! ## Building a diff -/

section FLGAppendDiff
variable (ibOffsetOld cbDataOld cbDataNew : Nat)

/-- The header bits `FLGAppendDiff` computes. -/
def wBitField : BitVec 16 :=
  (BitVec.ofNat 16 ibOffsetOld &&& DIFFHDR.ibOffsetMask) |||
  (if cbDataOld ≠ 0 ∧ cbDataOld = cbDataNew then DIFFHDR.fReplaceWithSameLength else 0) |||
  (if cbDataOld = 0 then DIFFHDR.fInsert else 0) |||
  (if 255 < cbDataOld ∨ 255 < cbDataNew then DIFFHDR.fUseTwoBytesForDataLength else 0)

/-- The header as stored: the bits, or on a large page the flags with the whole offset. -/
def diffHdrBytes (fDiff2 : Bool) : List Byte :=
  let w := wBitField ibOffsetOld cbDataOld cbDataNew
  if fDiff2 then wordBytes (BitVec.ofNat 16 ibOffsetOld) ++ [(DIFFHDR2.ofDIFFHDR w).m_flags]
  else wordBytes w

/-- A data length, in one byte or in two. -/
def lengthBytes (fTwoBytes : Bool) (cb : Nat) : List Byte :=
  if fTwoBytes then wordBytes (BitVec.ofNat 16 cb) else [BitVec.ofNat 8 cb]

/-- The data lengths as stored: the old one only where it is neither zero nor the new one. -/
def dataLengthBytes : List Byte :=
  let w := wBitField ibOffsetOld cbDataOld cbDataNew
  let fTwoBytes : Bool := w &&& DIFFHDR.fUseTwoBytesForDataLength ≠ 0
  let fReplaceWithDiffLength : Bool :=
    w &&& DIFFHDR.fReplaceWithSameLength = 0 ∧ w &&& DIFFHDR.fInsert = 0
  lengthBytes fTwoBytes cbDataNew ++
    if fReplaceWithDiffLength then lengthBytes fTwoBytes cbDataOld else []

end FLGAppendDiff

/-- An entry as `FLGAppendDiff` lays it out. -/
def diffBytes (fDiff2 : Bool) (e : Edit Byte) : List Byte :=
  diffHdrBytes e.ib e.cbOld e.new.length fDiff2 ++
    dataLengthBytes e.ib e.cbOld e.new.length ++ e.new

/-- `FLGAppendDiff`: the entry for the edit goes behind `rgbDiff` unless it does not fit into
`cbDiffMax` bytes. -/
def fLGAppendDiff (s : PageSize) (rgbDiff : List Byte) (cbDiffMax : Nat) (e : Edit Byte) :
    Option (List Byte) :=
  let fDiff2 := !s.fSmallPage
  if cbDiffMax < rgbDiff.length + cbDiffHdr fDiff2 +
      (dataLengthBytes e.ib e.cbOld e.new.length).length + e.new.length then none
  else some (rgbDiff ++ diffBytes fDiff2 e)

section LGSetLVDiffs
variable (s : PageSize) (dataNew dataOld : List Byte)

/-- The first loop of `LGSetLVDiffs`: skips equal `LONG`s. Both cursors are at `ib`. -/
def lvSkipEqual (ibMax ib : Nat) : Nat :=
  if ib < ibMax ∧ slice dataOld ib 4 = slice dataNew ib 4 then lvSkipEqual ibMax (ib + 4) else ib
termination_by ibMax - ib

/-- The `do` loop of `LGSetLVDiffs`: where the data streams re-sync and how many bytes differ on
the way. Both cursors are at `ib`. -/
def lvResync (ibMax ib cbNewData : Nat) : Nat × Nat :=
  if ibMax ≤ ib + 8 then (ibMax, cbNewData + (ibMax - ib))
  else if slice dataOld ib 8 = slice dataNew ib 8 then (ib + 8, cbNewData)
  else lvResync ibMax (ib + 8) (cbNewData + 8)
termination_by ibMax - ib

theorem lt_lvResync {ibMax ib : Nat} (cbNewData : Nat) (h : ib < ibMax) :
    ib < (lvResync dataNew dataOld ibMax ib cbNewData).1 := by
  fun_induction lvResync dataNew dataOld ibMax ib cbNewData with
  | case1 => exact h
  | case2 => exact Nat.lt_add_of_pos_right (by decide)
  | case3 ib cb hlt hne ih => exact (Nat.le_add_right _ _).trans_lt (ih (by omega))

/-- The main loop of `LGSetLVDiffs`: the diff and `fEndIsReached` when the cursors, both at `ib`,
have reached `ibMax`. -/
def lvDiffLoop (ibMax ib : Nat) (rgbDiff : List Byte) (fEndIsReached : Bool) :
    Option (List Byte × Bool) :=
  if _h : ib < ibMax then
    if dataOld[ib]? = dataNew[ib]? then lvDiffLoop ibMax (ib + 1) rgbDiff fEndIsReached
    else
      let q := lvResync dataNew dataOld ibMax ib 0
      let cbMinSize := min dataOld.length dataNew.length
      let fTruncate := dataNew.length < dataOld.length
      let cbOldData := if q.1 = ibMax ∧ fTruncate then q.2 + (dataOld.length - cbMinSize) else q.2
      let cbNewData := if q.1 = ibMax ∧ ¬fTruncate then q.2 + (dataNew.length - cbMinSize) else q.2
      match fLGAppendDiff s rgbDiff dataNew.length ⟨ib, cbOldData, slice dataNew ib cbNewData⟩ with
      | none => none
      | some rgbDiff => lvDiffLoop ibMax q.1 rgbDiff (fEndIsReached || q.1 = ibMax)
  else some (rgbDiff, fEndIsReached)
termination_by ibMax - ib
decreasing_by
  · omega
  · have := lt_lvResync dataNew dataOld 0 _h
    omega

/-- `LGSetLVDiffs`: the diff, or `none` when `fOverflow` is returned. -/
def lGSetLVDiffs : Option (List Byte) :=
  let cbMinSize := min dataOld.length dataNew.length
  let ib := lvSkipEqual dataNew dataOld (cbMinSize - cbMinSize % 4) 0
  match lvDiffLoop s dataNew dataOld cbMinSize ib [] (dataOld.length = dataNew.length) with
  | none => none
  | some (rgbDiff, fEndIsReached) =>
    if rgbDiff = [] ∨ ¬fEndIsReached then
      if rgbDiff = [] ∧ dataNew.length = dataOld.length then some []
      else fLGAppendDiff s rgbDiff dataNew.length
        ⟨cbMinSize, dataOld.length - cbMinSize, slice dataNew cbMinSize
        (dataNew.length - cbMinSize)⟩
    else some rgbDiff

end LGSetLVDiffs

/-! ## Redoing a diff -/

/-- The errors of redo. -/
inductive JET_err
  | logFileCorrupt
  deriving DecidableEq, Repr

/-- The header at `iDiff`. -/
def readDiffHdr (pbDiff : Mem) (fDiff2 : Bool) (iDiff : Nat) : DIFFHDR2 :=
  if fDiff2 then ⟨pbDiff.readU16 iDiff, pbDiff (iDiff + 2)⟩
  else DIFFHDR2.ofDIFFHDR (pbDiff.readU16 iDiff)

/-- A data length at `iDiff` and the offset behind it. -/
def readLength (pbDiff : Mem) (fTwoBytes : Bool) (iDiff : Nat) : Nat × Nat :=
  if fTwoBytes then ((pbDiff.readU16 iDiff).toNat, iDiff + 2) else ((pbDiff iDiff).toNat, iDiff + 1)

/-- A diff entry as redo reads it: `iData` is where its new data starts. -/
structure DiffEntry where
  ib : Nat
  cbDataNew : Nat
  cbDataOld : Nat
  iData : Nat
  deriving DecidableEq, Repr

/-- The entry at `iDiff`. -/
def readDiffEntry (pbDiff : Mem) (fDiff2 : Bool) (iDiff : Nat) : DiffEntry :=
  let hdr := readDiffHdr pbDiff fDiff2 iDiff
  let new := readLength pbDiff hdr.FUseTwoBytesForDataLength (iDiff + cbDiffHdr fDiff2)
  if hdr.FInsert then ⟨hdr.ib, new.1, 0, new.2⟩
  else if hdr.FReplaceWithSameLength then ⟨hdr.ib, new.1, new.1, new.2⟩
  else
    let old := readLength pbDiff hdr.FUseTwoBytesForDataLength new.2
    ⟨hdr.ib, new.1, old.1, old.2⟩

theorem lt_readDiffEntry_iData (pbDiff : Mem) (fDiff2 : Bool) (iDiff : Nat) :
    iDiff < (readDiffEntry pbDiff fDiff2 iDiff).iData := by
  unfold readDiffEntry readLength cbDiffHdr
  grind

section ErrLGGetAfterImage
variable (s : PageSize) (pbDiff : Mem) (cbDiff : Nat) (pbOld : Mem) (cbOld : Nat) (fDiff2 : Bool)

/-- The loop of `ErrLGGetAfterImage` from the cursors `iDiff` and `iOld` on, with `rgbNew` the
bytes already in the output buffer, and the copy of the rest of the before-image behind it. -/
def afterImageLoop (iDiff iOld : Nat) (rgbNew : List Byte) : Except JET_err (List Byte) :=
  if iDiff < cbDiff then
    let e := readDiffEntry pbDiff fDiff2 iDiff
    if e.ib < iOld then .error .logFileCorrupt
    else
      let cbSkip := e.ib - iOld
      if s.cbPage < rgbNew.length + cbSkip then .error .logFileCorrupt
      else if s.cbPage < rgbNew.length + cbSkip + e.cbDataNew then .error .logFileCorrupt
      else if cbDiff < e.iData + e.cbDataNew then .error .logFileCorrupt
      else if cbOld < e.ib + e.cbDataOld then .error .logFileCorrupt
      else afterImageLoop (e.iData + e.cbDataNew) (e.ib + e.cbDataOld)
        (rgbNew ++ pbOld.read iOld cbSkip ++ pbDiff.read e.iData e.cbDataNew)
  else
    let cbT := cbOld - iOld
    if s.cbPage < rgbNew.length + cbT then .error .logFileCorrupt
    else .ok (rgbNew ++ pbOld.read iOld cbT)
termination_by cbDiff - iDiff
decreasing_by
  have := lt_readDiffEntry_iData pbDiff fDiff2 iDiff
  omega

/-- `ErrLGGetAfterImage`: the after-image, or the error. -/
def errLGGetAfterImage : Except JET_err (List Byte) :=
  afterImageLoop s pbDiff cbDiff pbOld cbOld fDiff2 0 0 []

end ErrLGGetAfterImage

end Ese
