import Ese.Norm.RetrieveKey

/-!
# The key of a search

`ErrIsamMakeKey` builds a key in the cursor, one column a call. The first call starts a new key; the
cursor remembers how many columns the key has, whether one did not fit, and whether a limit has been
set, after which no column can follow.
-/

namespace Ese.Norm

/-- The kinds of limit keys. -/
inductive LimitOption where
  | FullColumnStartLimit
  | FullColumnEndLimit
  | PartialColumnStartLimit
  | PartialColumnEndLimit
  deriving DecidableEq, Repr

/-- The flags of the call that the normalization reads. -/
structure GRBIT where
  fNewKey : Bool
  fKeyDataZeroLength : Bool
  fNormalizedKey : Bool
  fKeyOverridePrimaryIndexPlaceholder : Bool
  fStrLimit : Bool
  limitOptions : Option LimitOption
  deriving DecidableEq, Repr

/-- The search key of a cursor. -/
structure FUCB where
  dataSearchKey : List Byte
  cColumnsInSearchKey : Nat
  fKSPrepared : Bool
  fKSTooBig : Bool
  fKSLimit : Bool
  deriving DecidableEq, Repr

/-- The largest normalized key that a caller may pass. -/
def JET_cbKeyMost : Nat := 255

/-- A limit key may be a byte longer. -/
def cbLimitKeyMost (cbKeyMost : Nat) : Nat := cbKeyMost + 1

/-- `FLDISetFullColumnLimit`: a limit after whole columns ends in sentinels. -/
def fldISetFullColumnLimit (lineNorm : List Byte) (cbAvailWithSuffix : Nat) (fNeedSentinel : Bool) :
    List Byte :=
  if fNeedSentinel then lineNorm ++ List.replicate (cbAvailWithSuffix - lineNorm.length) bSentinel
  else lineNorm

/-- Without a delimiter the full column limit is set instead. -/
def fldITrySetPartialColumnLimitOnBinaryColumn (lineNorm : List Byte)
    (cbAvailWithSuffix ibBinaryColumnDelimiter : Nat)
    (fNeedSentinel : Bool) : List Byte :=
  if ibBinaryColumnDelimiter = 0 then fldISetFullColumnLimit lineNorm cbAvailWithSuffix
    fNeedSentinel
  else if fNeedSentinel then
    lineNorm.take ibBinaryColumnDelimiter ++ List.replicate
      (lineNorm.length + 1 - ibBinaryColumnDelimiter) bSentinel
  else lineNorm.take ibBinaryColumnDelimiter

/-- A normalized segment, and whether it fills the key or ends it. -/
structure NormalizedSegment where
  lineNorm : List Byte
  fTooBig : Bool
  fLimit : Bool
  deriving DecidableEq, Repr

/-- `ErrFLDNormalizeSegment`. `plineColumn` is `none` when no column data is passed. -/
def errFLDNormalizeSegment (pidb : IDB) (plineColumn : Option (List Byte)) (coltyp : JET_COLTYP)
    (cbAvail : Nat)
    (fDescending fFixedField fTupleField : Bool) (grbit : GRBIT) :
      Except ERR NormalizedSegment := do
  let (lineNorm, fTooBig, ibBinaryColumnDelimiter) ←
    if plineColumn.getD [] = [] then
      if fTupleField then throw .JET_errIndexTuplesKeyTooSmall
      else if grbit.fKeyDataZeroLength ∧ (fFixedField ∨ ¬ fRECBinaryColumn coltyp) then
        throw .JET_errInvalidBufferSize
      else pure (fldNormalizeNullSegment coltyp grbit.fKeyDataZeroLength pidb.fSortNullsHigh, false,
        0)
    else
      let pbColumn := plineColumn.getD []
      if fRECBinaryColumn coltyp then
        let seg :=
          fldNormalizeBinarySegment pbColumn cbAvail pidb.cbKeyMost pidb.cbVarSegMacT fFixedField
        pure (seg.rgbSeg, seg.fColumnTruncated, seg.ibBinaryColumnDelimiter)
      else
        let rgbSeg := fldNormalizeFixedSegment pbColumn coltyp pidb.fDotNetGuid
        pure (rgbSeg.take cbAvail, decide (rgbSeg.length > cbAvail), 0)
  let lineNorm := flip fDescending lineNorm
  match grbit.limitOptions with
  | some .FullColumnStartLimit => pure ⟨fldISetFullColumnLimit lineNorm (cbAvail + 1) false,
    fTooBig, true⟩
  | some .FullColumnEndLimit => pure ⟨fldISetFullColumnLimit lineNorm (cbAvail + 1) true, fTooBig,
    true⟩
  | some .PartialColumnStartLimit =>
    pure ⟨fldITrySetPartialColumnLimitOnBinaryColumn lineNorm (cbAvail + 1) ibBinaryColumnDelimiter
      false, fTooBig, true⟩
  | some .PartialColumnEndLimit =>
    pure ⟨fldITrySetPartialColumnLimitOnBinaryColumn lineNorm (cbAvail + 1) ibBinaryColumnDelimiter
      true, fTooBig, true⟩
  | none =>
    if grbit.fStrLimit then
      pure ⟨fldITrySetPartialColumnLimitOnBinaryColumn lineNorm
        (cbAvail + 1) ibBinaryColumnDelimiter true, fTooBig, true⟩
    else pure ⟨lineNorm, fTooBig, false⟩

/-- `RECINormalisePlaceholder`: the placeholder column, a bit, is not set. -/
def recINormalisePlaceholder (pidb : IDB) (pfucb : FUCB) : FUCB :=
  match pidb.rgidxseg.head? with
  | some idxseg =>
    { pfucb with
      dataSearchKey :=
        [if idxseg.fDescending then ~~~bPrefixData else bPrefixData, if idxseg.fDescending then 0xff
          else 0x00]
      cColumnsInSearchKey := 1 }
  | none => pfucb

/-- The key starts anew, or goes on with the columns it has. -/
def startKey (pidb : IDB) (grbit : GRBIT) (pfucb : FUCB) : Except ERR FUCB := do
  let pfucb ←
    if grbit.fNewKey then pure ⟨[], 0, false, false, false⟩
    else if pfucb.fKSLimit then throw .JET_errKeyIsMade
    else if ¬ pfucb.fKSPrepared then throw .JET_errKeyNotMade
    else pure pfucb
  if ¬ pfucb.fKSPrepared ∧ pidb.fHasPlaceholderColumn ∧ ¬ grbit.fKeyOverridePrimaryIndexPlaceholder
    then
    pure (recINormalisePlaceholder pidb pfucb)
  else pure pfucb

/-- The segment of the call's column, empty when the key is full. -/
def makeSegment (pidb : IDB) (ptdb : TDB) (pbKeySeg : List Byte) (grbit : GRBIT) (pfucb : FUCB)
    (idxseg : IDXSEG) :
    Except ERR NormalizedSegment := do
  let field := ptdb idxseg.columnid
  let fFixedField := fCOLUMNIDFixed idxseg.columnid
  let lineKeySeg :=
    if pidb.cbKeyMost = JET_cbKeyMost_OLD then pbKeySeg.take JET_cbKeyMost_OLD else pbKeySeg
  if fFixedField ∧ pbKeySeg.length > 0 ∧ pbKeySeg.length ≠ field.cbMaxLen
    then throw .JET_errInvalidBufferSize
  if (grbit.limitOptions = some .PartialColumnStartLimit ∨
      grbit.limitOptions = some .PartialColumnEndLimit)
      ∧ (fFixedField ∨ ¬ fRECBinaryColumn field.coltyp) then
    throw .JET_errInvalidGrbit
  if ¬ pfucb.fKSTooBig ∧ pfucb.dataSearchKey.length < pidb.cbKeyMost then
    errFLDNormalizeSegment pidb
      (if pbKeySeg.length ≠ 0 ∨ grbit.fKeyDataZeroLength then some lineKeySeg else none)
      field.coltyp
      (pidb.cbKeyMost - pfucb.dataSearchKey.length) idxseg.fDescending fFixedField
      (pfucb.cColumnsInSearchKey = 0 ∧ pidb.fTuples) grbit
  else pure ⟨[], false, false⟩

/-- `ErrIsamMakeKey` on an index. -/
def errIsamMakeKey (pidb : IDB) (ptdb : TDB) (pbKeySeg : List Byte) (grbit : GRBIT) (pfucb : FUCB) :
    Except ERR FUCB := do
  if grbit.fNormalizedKey then
    -- the key is normalized already
    if pbKeySeg.length > cbLimitKeyMost pidb.cbKeyMost ∧ pbKeySeg.length > JET_cbKeyMost then
      throw .JET_errInvalidParameter
    else
      let key := pbKeySeg.take (cbLimitKeyMost pidb.cbKeyMost)
      pure ⟨key, 1, true, false, decide (key.length > pidb.cbKeyMost)⟩
  else
    let pfucb ← startKey pidb grbit pfucb
    match pidb.rgidxseg[pfucb.cColumnsInSearchKey]? with
    | none => throw .JET_errKeyIsMade
    | some idxseg =>
      let seg ← makeSegment pidb ptdb pbKeySeg grbit pfucb idxseg
      let lineNormSeg :=
        seg.lineNorm.take (cbLimitKeyMost pidb.cbKeyMost - pfucb.dataSearchKey.length)
      pure {
        dataSearchKey := pfucb.dataSearchKey ++ lineNormSeg
        cColumnsInSearchKey := pfucb.cColumnsInSearchKey + 1
        fKSPrepared := true
        fKSTooBig := pfucb.fKSTooBig ∨ seg.fTooBig
        fKSLimit := pfucb.fKSLimit ∨ seg.fLimit }

end Ese.Norm
