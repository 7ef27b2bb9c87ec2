import Ese.LogDiff.Basic
import Ese.Rec.Basic

/-!
# Diffs of records

`LGSetColumnDiffs` compares two records of one table part by part, in the order in which the
parts lie in the record: header, fixed columns, appended fixed columns, null bitmap, offset table
and data of the variable columns, and the tagged columns. Each part here is one function of the
diff built so far; `none` is the overflow return.
-/

namespace Ese

section LGSetColumnDiffs
variable (s : PageSize) (fucb : FUCB) (tdb : TDB) (dataNew dataOld : Rec)

/-- Appends the entry that replaces `cbDataOld` bytes of the old record by `cbDataNew` bytes of
the new one, with `pbDiffMax` where the size of the new record puts it. -/
def appendRecDiff (rgbDiff : List Byte) (ibOld cbDataOld ibNew cbDataNew : Nat) :
    Option (List Byte) :=
  fLGAppendDiff s rgbDiff dataNew.length ⟨ibOld, cbDataOld, slice dataNew ibNew cbDataNew⟩

/-! ## Fixed columns -/

/-- The record header is logged if it changed. -/
def headerDiff (rgbDiff : List Byte) : Option (List Byte) :=
  if slice dataOld 0 Rec.cbRecordHeader ≠ slice dataNew 0 Rec.cbRecordHeader then
    appendRecDiff s dataNew rgbDiff 0 Rec.cbRecordHeader 0 Rec.cbRecordHeader
  else some rgbDiff

/-- The loop over the `n` fixed columns from `fid` on: the diff and `fLogFixedNullBitMap`. A
column that is now NULL only needs the null bitmap. -/
def fixedDiffLoop : Nat → Nat → List Byte → Bool → Option (List Byte × Bool)
  | 0, _, rgbDiff, fLogFixedNullBitMap => some (rgbDiff, fLogFixedNullBitMap)
  | n + 1, fid, rgbDiff, fLogFixedNullBitMap =>
    if fucb.fColumnSet fid then
      let fFieldNullOld := dataOld.fFixedNullBit (fid - 1)
      let fFieldNullNew := dataNew.fFixedNullBit (fid - 1)
      let fLog := fLogFixedNullBitMap || fFieldNullOld != fFieldNullNew
      let pfield := tdb.pfieldFixed fid
      if fFieldNullNew = false ∧ pfield.fDeleted = false then do
        let rgbDiff ← appendRecDiff s dataNew rgbDiff pfield.ibRecordOffset pfield.cbMaxLen
          pfield.ibRecordOffset pfield.cbMaxLen
        fixedDiffLoop n (fid + 1) rgbDiff fLog
      else fixedDiffLoop n (fid + 1) rgbDiff fLog
    else fixedDiffLoop n (fid + 1) rgbDiff fLogFixedNullBitMap

/-- Fixed columns behind the last one of the old record are inserted as a whole. -/
def extendedFixedDiff (rgbDiff : List Byte) : Option (List Byte) :=
  if dataOld.fidFixedLastInRec < dataNew.fidFixedLastInRec then
    appendRecDiff s dataNew rgbDiff dataOld.ibFixedNullBitMap 0 dataOld.ibFixedNullBitMap
      (dataNew.ibFixedNullBitMap - dataOld.ibFixedNullBitMap)
  else some rgbDiff

/-- The null bitmap is logged as a whole. -/
def nullBitMapDiff (rgbDiff : List Byte) (fLogFixedNullBitMap : Bool) : Option (List Byte) :=
  if fLogFixedNullBitMap then
    appendRecDiff s dataNew rgbDiff dataOld.ibFixedNullBitMap
      ((dataOld.fidFixedLastInRec + 7) / 8) dataNew.ibFixedNullBitMap
      ((dataNew.fidFixedLastInRec + 7) / 8)
  else some rgbDiff

/-! ## Variable columns -/

/-- The index of the first of `n` variable columns from `ifid` on whose offset entry changed. -/
def firstVarOffsetChanged : Nat → Nat → Nat
  | 0, ifid => ifid
  | n + 1, ifid =>
    if dataOld.pibVarOffsets ifid ≠ dataNew.pibVarOffsets ifid then ifid
    else firstVarOffsetChanged n (ifid + 1)

/-- The offset table is logged from the first changed entry on. -/
def varOffsetsDiff (rgbDiff : List Byte) : Option (List Byte) :=
  let ifid := firstVarOffsetChanged dataNew dataOld dataOld.cVarColumns 0
  if ifid < dataNew.cVarColumns then
    appendRecDiff s dataNew rgbDiff (dataOld.ibEndOfFixedData + 2 * ifid)
      ((dataOld.cVarColumns - ifid) * 2) (dataNew.ibEndOfFixedData + 2 * ifid)
      ((dataNew.cVarColumns - ifid) * 2)
  else some rgbDiff

/-- The loop over the `n` variable columns from index `ifid` on. -/
def varDiffLoop : Nat → Nat → List Byte → Option (List Byte)
  | 0, _, rgbDiff => some rgbDiff
  | n + 1, ifid, rgbDiff =>
    if fucb.fColumnSet (fidVarNone + 1 + ifid) then do
      let rgbDiff ← appendRecDiff s dataNew rgbDiff
        (dataOld.ibVarData + dataOld.ibVarOffsetStart ifid)
        (dataOld.ibVarOffsetEnd ifid - dataOld.ibVarOffsetStart ifid)
        (dataNew.ibVarData + dataNew.ibVarOffsetStart ifid)
        (dataNew.ibVarOffsetEnd ifid - dataNew.ibVarOffsetStart ifid)
      varDiffLoop n (ifid + 1) rgbDiff
    else varDiffLoop n (ifid + 1) rgbDiff

/-- Variable columns behind the last one of the old record are inserted as a whole. -/
def extendedVarDiff (rgbDiff : List Byte) : Option (List Byte) :=
  if dataOld.cVarColumns < dataNew.cVarColumns then
    appendRecDiff s dataNew rgbDiff (dataOld.ibVarData + dataOld.ibEndOfVarData) 0
      (dataNew.ibVarData + dataNew.ibVarOffsetStart dataOld.cVarColumns)
      (dataNew.ibEndOfVarData - dataNew.ibVarOffsetStart dataOld.cVarColumns)
  else some rgbDiff

/-! ## Tagged columns -/

section FLGSetArrayDiff
variable (ibOld ibNew cbOld cbNew : Nat)

/-- The inner loop of `FLGSetArrayDiff`: where the arrays agree again. -/
def arrayResync (ibMax i : Nat) : Nat :=
  if i < ibMax ∧ slice dataOld (ibOld + i) 4 ≠ slice dataNew (ibNew + i) 4 then
    arrayResync ibMax (i + 4)
  else i
termination_by ibMax - i

theorem le_arrayResync (ibMax i : Nat) : i ≤ arrayResync dataNew dataOld ibOld ibNew ibMax i := by
  fun_induction arrayResync dataNew dataOld ibOld ibNew ibMax i with
  | case1 i h ih => omega
  | case2 i h => exact Nat.le_refl _

/-- The main loop of `FLGSetArrayDiff`, with `i` the distance of both cursors from the starts of
the arrays: the diff and `fEndIsReached`. -/
def arrayDiffLoop (cbDiffMax ibMax i : Nat) (rgbDiff : List Byte) (fEndIsReached : Bool) :
    Option (List Byte × Bool) :=
  if i < ibMax then
    if slice dataOld (ibOld + i) 4 = slice dataNew (ibNew + i) 4 then
      arrayDiffLoop cbDiffMax ibMax (i + 4) rgbDiff fEndIsReached
    else
      let i' := arrayResync dataNew dataOld ibOld ibNew ibMax (i + 4)
      let cbMinSize := min cbOld cbNew
      let fTruncate := cbNew < cbOld
      let cbOldData := if i' = ibMax ∧ fTruncate then i' - i + (cbOld - cbMinSize) else i' - i
      let cbNewData := if i' = ibMax ∧ ¬fTruncate then i' - i + (cbNew - cbMinSize) else i' - i
      (fLGAppendDiff s rgbDiff cbDiffMax
        ⟨ibOld + i, cbOldData, slice dataNew (ibNew + i) cbNewData⟩).bind fun rgbDiff =>
        if i' = ibMax then arrayDiffLoop cbDiffMax ibMax i' rgbDiff true
        else arrayDiffLoop cbDiffMax ibMax (i' + 4) rgbDiff fEndIsReached
  else some (rgbDiff, fEndIsReached)
termination_by ibMax - i
decreasing_by
  · omega
  · have := le_arrayResync dataNew dataOld ibOld ibNew ibMax (i + 4)
    omega
  · have := le_arrayResync dataNew dataOld ibOld ibNew ibMax (i + 4)
    omega

/-- The differences of the arrays, as long as they are no longer than the new array. -/
def arrayDiff (rgbDiff : List Byte) : Option (List Byte) :=
  let cbMinSize := min cbOld cbNew
  let ibMax := cbMinSize / 4 * 4
  let cbDiffMax := rgbDiff.length + cbNew
  (arrayDiffLoop s dataNew dataOld ibOld ibNew cbOld cbNew cbDiffMax ibMax 0 rgbDiff
    (cbOld = cbNew)).bind fun (rgbDiff, fEndIsReached) =>
    if fEndIsReached then some rgbDiff
    else fLGAppendDiff s rgbDiff cbDiffMax ⟨ibOld + cbMinSize, cbOld - cbMinSize,
      slice dataNew (ibNew + ibMax) (cbNew - cbMinSize)⟩

/-- `FLGSetArrayDiff`: the differences, or the whole array where they do not pay off. -/
def fLGSetArrayDiff (rgbDiff : List Byte) : Option (List Byte) :=
  match arrayDiff s dataNew dataOld ibOld ibNew cbOld cbNew rgbDiff with
  | some rgbDiff => some rgbDiff
  | none => appendRecDiff s dataNew rgbDiff ibOld cbOld ibNew cbNew

end FLGSetArrayDiff

/-- The merge walk over the tagged columns, from column `i` of the old and `j` of the new record
on. -/
def tagDiffLoop (i j : Nat) (rgbDiff : List Byte) : Option (List Byte) :=
  if _h : i < dataOld.cTaggedColumns s ∧ j < dataNew.cTaggedColumns s then
    match TAGFLD.tagFldCmp (dataOld.ptagfld i) (dataNew.ptagfld j) with
    | .eq =>
      if fucb.fColumnSet (dataOld.ptagfld i).Fid = true ∧
          (dataNew.cbTagData s j ≠ dataOld.cbTagData s i ∨
            dataOld.tagData s i ≠ dataNew.tagData s j) then do
        let rgbDiff ← appendRecDiff s dataNew rgbDiff (dataOld.ibTagData s i)
          (dataOld.cbTagData s i) (dataNew.ibTagData s j) (dataNew.cbTagData s j)
        tagDiffLoop (i + 1) (j + 1) rgbDiff
      else tagDiffLoop (i + 1) (j + 1) rgbDiff
    | .gt => do
      let rgbDiff ← appendRecDiff s dataNew rgbDiff (dataOld.ibTagData s i) 0
        (dataNew.ibTagData s j) (dataNew.cbTagData s j)
      tagDiffLoop i (j + 1) rgbDiff
    | .lt => do
      let rgbDiff ← fLGAppendDiff s rgbDiff dataNew.length
        ⟨dataOld.ibTagData s i, dataOld.cbTagData s i, []⟩
      tagDiffLoop (i + 1) j rgbDiff
  else if j < dataNew.cTaggedColumns s then
    appendRecDiff s dataNew rgbDiff dataOld.length 0 (dataNew.ibTagData s j)
      (dataNew.length - dataNew.ibTagData s j)
  else if i < dataOld.cTaggedColumns s then
    fLGAppendDiff s rgbDiff dataNew.length
      ⟨dataOld.ibTagData s i, dataOld.length - dataOld.ibTagData s i, []⟩
  else some rgbDiff
termination_by (dataOld.cTaggedColumns s - i) + (dataNew.cTaggedColumns s - j)
decreasing_by
  all_goals
    obtain ⟨hi, hj⟩ := _h
    clear * - hi hj
    omega

/-- The tagged columns: as a whole after an implicit operation, else array and walk if one of them
was set. -/
def taggedDiff (rgbDiff : List Byte) : Option (List Byte) :=
  if fucb.fTagImplicitOp then
    appendRecDiff s dataNew rgbDiff dataOld.ibTaggedData (dataOld.length - dataOld.ibTaggedData)
      dataNew.ibTaggedData (dataNew.length - dataNew.ibTaggedData)
  else if fucb.fTaggedColumnSet then do
    let rgbDiff ← fLGSetArrayDiff s dataNew dataOld dataOld.ibTaggedData dataNew.ibTaggedData
      (dataOld.cTaggedColumns s * 4) (dataNew.cTaggedColumns s * 4) rgbDiff
    tagDiffLoop s fucb dataNew dataOld 0 0 rgbDiff
  else some rgbDiff

/-- `LGSetColumnDiffs`: the diff, or `none` when `fOverflow` is returned. -/
def lGSetColumnDiffs : Option (List Byte) := do
  let rgbDiff ← headerDiff s dataNew dataOld []
  let (rgbDiff, fLogFixedNullBitMap) ←
    fixedDiffLoop s fucb tdb dataNew dataOld dataOld.fidFixedLastInRec 1 rgbDiff false
  let rgbDiff ← extendedFixedDiff s dataNew dataOld rgbDiff
  let rgbDiff ← nullBitMapDiff s dataNew dataOld rgbDiff
    (fLogFixedNullBitMap || dataOld.fidFixedLastInRec < dataNew.fidFixedLastInRec)
  let rgbDiff ← varOffsetsDiff s dataNew dataOld rgbDiff
  let rgbDiff ← varDiffLoop s fucb dataNew dataOld dataOld.cVarColumns 0 rgbDiff
  let rgbDiff ← extendedVarDiff s dataNew dataOld rgbDiff
  taggedDiff s fucb dataNew dataOld rgbDiff

end LGSetColumnDiffs

end Ese
