import Ese.Norm.Basic

/-!
# The key of a record

`ErrRECIIRetrieveKey` takes the columns of the index from the record one by one, normalizes each and
appends its segment to the key, until the key is full. The record is what it gives for a column: a
value, how that value is stored, or NULL.
-/

namespace Ese.Norm

inductive ERR where
  | JET_errSuccess
  | JET_wrnColumnNull
  | wrnFLDNullKey
  | wrnFLDNullFirstSeg
  | wrnFLDNullSeg
  | wrnFLDNotPresentInIndex
  | wrnFLDOutOfKeys (iidxseg : Nat)
  | wrnFLDOutOfTuples
  | JET_errKeyTruncated
  | JET_errKeyIsMade
  | JET_errKeyNotMade
  | JET_errInvalidBufferSize
  | JET_errInvalidGrbit
  | JET_errInvalidParameter
  | JET_errIndexTuplesKeyTooSmall
  deriving DecidableEq, Repr

/-- What a record gives for a column. A separated or compressed value and a user-defined default,
which may be NULL, are got by a further call. -/
inductive RecColumn where
  | Null
  | Data (value : List Byte)
  | wrnRECIntrinsicLV (value : List Byte)
  | wrnRECSeparatedLV (value : List Byte)
  | wrnRECCompressed (value : List Byte)
  | wrnRECUserDefinedDefault (value : Option (List Byte))
  deriving DecidableEq, Repr

/-- The column value, `none` for NULL. -/
def RecColumn.value : RecColumn → Option (List Byte)
  | .Null => none
  | .Data value => some value
  | .wrnRECIntrinsicLV value => some value
  | .wrnRECSeparatedLV value => some value
  | .wrnRECCompressed value => some value
  | .wrnRECUserDefinedDefault value => value

/-- A record, by column and `itagSequence`. -/
abbrev Record := COLUMNID → Nat → RecColumn

/-- At most `cbDataMost` bytes of the column value, with whether they begin at the tuple's
offset. -/
def dataField (fTuple : Bool) (ibTupleOffset cbDataMost : Nat) :
    RecColumn → Option (List Byte × Bool)
  | .Null => none
  | .Data value => some (value.take cbDataMost, false)
  | .wrnRECIntrinsicLV value =>
    if fTuple then some ((value.drop ibTupleOffset).take cbDataMost, true)
    else some (value.take cbDataMost, false)
  | .wrnRECSeparatedLV value => some ((value.drop ibTupleOffset).take cbDataMost, fTuple)
  | .wrnRECCompressed value =>
    if ibTupleOffset > 0 then some ((value.drop ibTupleOffset).take cbDataMost, fTuple)
    else some (value.take cbDataMost, false)
  | .wrnRECUserDefinedDefault value => value.map fun value => (value.take cbDataMost, false)

/-- The tuple of a tuple index that begins at the offset, or `wrnFLDOutOfTuples`. -/
def tupleField (pidb : IDB) (ibTupleOffset : Nat) (data : Option (List Byte × Bool)) :
    Except ERR (Option (List Byte)) :=
  match data with
  | none => if 0 < pidb.cchTuplesLengthMin then throw .wrnFLDOutOfTuples else pure none
  | some (pbField, fTupleAdjusted) =>
    let pbField := if fTupleAdjusted then pbField else pbField.drop ibTupleOffset
    let pbField := pbField.take pidb.cchTuplesLengthMax
    if pbField.length < pidb.cchTuplesLengthMin then throw .wrnFLDOutOfTuples
    else pure (some pbField)

/-- The column data of a segment. -/
def segmentField (pidb : IDB) (ichOffset cbDataMost iidxseg : Nat) (column : RecColumn) :
    Except ERR (Option (List Byte)) :=
  if pidb.fTuples ∧ iidxseg = 0 then tupleField pidb ichOffset
    (dataField true ichOffset cbDataMost column)
  else pure ((dataField false 0 cbDataMost column).map Prod.fst)

/-- The key so far, and what is known of its segments. -/
structure KeyState where
  pbSegCur : List Byte
  cbKeyAvail : Nat
  fAllNulls : Bool
  fNullFirstSeg : Bool
  fNullSeg : Bool
  fColumnTruncated : Bool
  fKeyTruncated : Bool
  fAllMVOutOfValues : Bool
  fNeedMoreData : Bool
  deriving DecidableEq, Repr

/-- The normalized segment of column data, with whether it has been cut for space. -/
def normalizeSegment (pidb : IDB) (field : FIELD) (fFixedField : Bool) (cbKeyAvail : Nat) :
    Option (List Byte) → List Byte × Bool
  | none => (fldNormalizeNullSegment field.coltyp false pidb.fSortNullsHigh, false)
  | some pbField =>
    if pbField = [] then (fldNormalizeNullSegment field.coltyp true pidb.fSortNullsHigh, false)
    else if fRECBinaryColumn field.coltyp then
      let seg :=
        fldNormalizeBinarySegment pbField cbKeyAvail pidb.cbKeyMost pidb.cbVarSegMacT fFixedField
      (seg.rgbSeg, seg.fColumnTruncated)
    else (fldNormalizeFixedSegment pbField field.coltyp pidb.fDotNetGuid, false)

/-- The append of a segment to a key that is not yet truncated. -/
def appendSegment (pidb : IDB) (fDescending : Bool) (rgbSeg : List Byte) (s : KeyState) :
    Except ERR KeyState :=
  if s.fKeyTruncated then pure s
  else
    let fTruncate : Bool := s.fColumnTruncated ∨ rgbSeg.length > s.cbKeyAvail
    if fTruncate ∧ pidb.fDisallowTruncation then throw .JET_errKeyTruncated
    else
      let rgbSeg := if s.fColumnTruncated then rgbSeg else rgbSeg.take s.cbKeyAvail
      pure { s with
        fKeyTruncated := fTruncate
        pbSegCur := s.pbSegCur ++ flip fDescending rgbSeg
        cbKeyAvail := s.cbKeyAvail - rgbSeg.length }

section
variable (pidb : IDB) (ptdb : TDB) (lineRec : Record) (rgitag : Nat → Nat)
    (ichOffset cbDataMost : Nat)

/-- One turn of the loop over the segments of the index. -/
def retrieveSegment (iidxseg : Nat) (idxseg : IDXSEG) (s : KeyState) : Except ERR KeyState := do
  let field := ptdb idxseg.columnid
  let fFixedField := fCOLUMNIDFixed idxseg.columnid
  let itag := rgitag iidxseg
  let column := lineRec idxseg.columnid itag
  let s :=
    if fCOLUMNIDTagged idxseg.columnid then
      { s with fAllMVOutOfValues := s.fAllMVOutOfValues ∧ itag > 1 ∧ column = .Null }
    else s
  if s.cbKeyAvail = 0 then
    -- no more segments fit
    if pidb.fDisallowTruncation then throw .JET_errKeyTruncated
    else if column = .Null then
      if itag > 1 ∧ ¬ pidb.fNestedTable then throw (.wrnFLDOutOfKeys iidxseg)
      else pure { s with
        fKeyTruncated := true, fNullFirstSeg := s.fNullFirstSeg ∨ iidxseg = 0, fNullSeg := true }
    else pure { s with fKeyTruncated := true }
  else if itag > 1 ∧ column.value = none ∧ ¬ pidb.fNestedTable then throw (.wrnFLDOutOfKeys iidxseg)
  else
    let pbField ← segmentField pidb ichOffset cbDataMost iidxseg column
    let s :=
      match pbField with
      | none => { s with fNullFirstSeg := s.fNullFirstSeg ∨ iidxseg = 0, fNullSeg := true }
      | some _ => { s with fAllNulls := false }
    let (rgbSeg, fColumnTruncated) := normalizeSegment pidb field fFixedField s.cbKeyAvail pbField
    let s := { s with fColumnTruncated := s.fColumnTruncated ∨ fColumnTruncated }
    let cbField := (pbField.map List.length).getD 0
    let fNeedMoreData : Bool := cbField = cbDataMost ∧ rgbSeg.length < pidb.cbKeyMost ∧
      rgbSeg.length < s.cbKeyAvail
      ∧ rgbSeg.length < pidb.cbVarSegMac ∧ pidb.cbKeyMost ≠ JET_cbKeyMost_OLD
    let s := { s with fNeedMoreData := s.fNeedMoreData ∨ fNeedMoreData }
    appendSegment pidb idxseg.fDescending rgbSeg s

/-- The loop over the segments of the index, from segment `iidxseg` on. -/
def retrieveSegments : Nat → List IDXSEG → KeyState → Except ERR KeyState
  | _, [], s => pure s
  | iidxseg, idxseg :: rgidxseg, s => do
    let s ← retrieveSegment pidb ptdb lineRec rgitag ichOffset cbDataMost iidxseg idxseg s
    retrieveSegments (iidxseg + 1) rgidxseg s

/-- The record is in a conditional index if its conditional columns are NULL where they must be and
only there. -/
def fPresentInIndex : Bool :=
  pidb.rgidxsegConditional.all fun idxseg => ((lineRec idxseg.columnid 1).value = none) =
    idxseg.fMustBeNull

structure RetrievedKey where
  err : ERR
  key : List Byte
  fNeedMoreData : Bool
  deriving DecidableEq, Repr

def KeyState.init : KeyState where
  pbSegCur := []
  cbKeyAvail := pidb.cbKeyMost
  fAllNulls := true
  fNullFirstSeg := false
  fNullSeg := false
  fColumnTruncated := false
  fKeyTruncated := false
  fAllMVOutOfValues := true
  fNeedMoreData := false

/-- `ErrRECIIRetrieveKey`. -/
def errRECIIRetrieveKey : Except ERR RetrievedKey := do
  if ¬ fPresentInIndex pidb lineRec then throw .wrnFLDNotPresentInIndex
  let s ← retrieveSegments pidb ptdb lineRec rgitag ichOffset cbDataMost 0 pidb.rgidxseg
    (.init pidb)
  if pidb.fNestedTable ∧ s.fAllMVOutOfValues then throw (.wrnFLDOutOfKeys 0)
  let err :=
    if s.fAllNulls then .wrnFLDNullKey
    else if s.fNullFirstSeg then .wrnFLDNullFirstSeg
    else if s.fNullSeg then .wrnFLDNullSeg
    else .JET_errSuccess
  pure ⟨err, s.pbSegCur, s.fNeedMoreData⟩

end

/-- `ErrRECIRetrieveKey`, at most `n` turns of its loop: more and more source data is used until the
key needs no more. -/
def errRECIRetrieveKey (pidb : IDB) (ptdb : TDB) (lineRec : Record) (rgitag : Nat → Nat)
    (ichOffset : Nat) :
    Nat → Nat → Option (Except ERR RetrievedKey)
  | 0, _ => none
  | n + 1, cbDataMost =>
    match errRECIIRetrieveKey pidb ptdb lineRec rgitag ichOffset cbDataMost with
    | .ok r =>
      if r.fNeedMoreData then errRECIRetrieveKey pidb ptdb lineRec rgitag ichOffset n
        (cbDataMost * 2) else some (.ok r)
    | .error err => some (.error err)

end Ese.Norm
