import Ese.Lib.Endian

/-!
# Normalization of key segments

A column value becomes a segment of a key, whose bytes compare as the values do: a prefix byte, then
the normalized data. Fixed-size types are stored big-endian with the sign turned into order; binary
data is padded to chunks of eight bytes, each followed by a count. Segments of binary data are cut
at the limit of the index for them and at the space left in the key. Text columns, which the
operating system normalizes, are left out.
-/

namespace Ese.Norm

/-- The types of columns that the normalization of the model covers. -/
inductive JET_COLTYP where
  | Bit
  | UnsignedByte
  | Short
  | UnsignedShort
  | Long
  | UnsignedLong
  | LongLong
  | UnsignedLongLong
  | Currency
  | IEEESingle
  | IEEEDouble
  | DateTime
  | GUID
  | Binary
  | LongBinary
  deriving DecidableEq, Repr

/-- The type of a column and the most bytes of a value, 0 for no limit. -/
structure FIELD where
  coltyp : JET_COLTYP
  cbMaxLen : Nat
  deriving DecidableEq, Repr

/-- Where a record keeps the columns of an id: fixed, variable or tagged. -/
inductive FIDTYP where
  | Fixed
  | Var
  | Tagged
  deriving DecidableEq, Repr

/-- The id of a column. -/
structure COLUMNID where
  fidtyp : FIDTYP
  fid : Nat
  deriving DecidableEq, Repr

/-- Whether the column is a fixed column. -/
def fCOLUMNIDFixed (columnid : COLUMNID) : Bool := columnid.fidtyp = .Fixed

/-- Whether the column is a tagged column. -/
def fCOLUMNIDTagged (columnid : COLUMNID) : Bool := columnid.fidtyp = .Tagged

/-- Whether the column holds binary data. -/
def fRECBinaryColumn (coltyp : JET_COLTYP) : Bool := coltyp = .Binary ∨ coltyp = .LongBinary

/-- The columns of a table. -/
abbrev TDB := COLUMNID → FIELD

/-- A column of an index. -/
structure IDXSEG where
  columnid : COLUMNID
  fDescending : Bool
  fMustBeNull : Bool
  deriving DecidableEq, Repr

/-- An index. `cbVarSegMac` is `cbKeyMost` when no limit is set. -/
structure IDB where
  cbKeyMost : Nat
  cbVarSegMac : Nat
  fSortNullsHigh : Bool
  fDotNetGuid : Bool
  fTuples : Bool
  cchTuplesLengthMin : Nat
  cchTuplesLengthMax : Nat
  fNestedTable : Bool
  fDisallowTruncation : Bool
  fHasPlaceholderColumn : Bool
  rgidxseg : List IDXSEG
  rgidxsegConditional : List IDXSEG
  deriving DecidableEq, Repr

/-- The prefix byte of a null segment. -/
def bPrefixNull : Byte := 0x00

/-- The prefix byte of a segment of length zero. -/
def bPrefixZeroLength : Byte := 0x40

/-- The prefix byte of a null segment where nulls sort high. -/
def bPrefixNullHigh : Byte := 0xc0

/-- The prefix byte of a segment with data. -/
def bPrefixData : Byte := 0x7f

/-- The byte that stands above every prefix. -/
def bSentinel : Byte := 0xff

/-- The bytes of data in a chunk. -/
def cbFLDBinaryChunk : Nat := 8

/-- The bytes of a chunk in the key: its data and the count. -/
def cbFLDBinaryChunkNormalized : Nat := cbFLDBinaryChunk + 1

/-- The limit on a key that old databases have. -/
def JET_cbKeyMost_OLD : Nat := 255

/-- The limit that the normalization works with: past `cbKeyMost` when none is set. -/
def IDB.cbVarSegMacT (pidb : IDB) : Nat :=
  if pidb.cbKeyMost = pidb.cbVarSegMac then pidb.cbKeyMost + 1 else pidb.cbVarSegMac

/-! ## Binary segments -/

/-- `n` turns of the loop over the chunks: what it writes from offset `ib` of the segment on, what
is left of the column, and where the data ends if it does in these chunks. -/
def binaryChunks (fNormalisedEntireColumn : Bool) :
    Nat → Nat → List Byte → List Byte × List Byte × Nat
  | 0, _, pbNextChunk => ([], pbNextChunk, 0)
  | n + 1, ib, pbNextChunk =>
    let cbFieldRemaining := pbNextChunk.length
    if cbFieldRemaining ≤ cbFLDBinaryChunk then
      -- the last chunk
      let pbSeg :=
        if cbFieldRemaining = cbFLDBinaryChunk then
          pbNextChunk ++ [BitVec.ofNat 8
            (if fNormalisedEntireColumn then cbFLDBinaryChunkNormalized - 1
            else cbFLDBinaryChunkNormalized)]
        else
          pbNextChunk ++ List.replicate (cbFLDBinaryChunk - cbFieldRemaining) 0 ++
            [BitVec.ofNat 8 cbFieldRemaining]
      let (pbRest, pbNext, _) :=
        binaryChunks fNormalisedEntireColumn n (ib + cbFLDBinaryChunkNormalized) pbNextChunk
      (pbSeg ++ pbRest, pbNext, ib + cbFieldRemaining)
    else
      let pbSeg := pbNextChunk.take cbFLDBinaryChunk ++ [BitVec.ofNat 8 cbFLDBinaryChunkNormalized]
      let (pbRest, pbNext, ibDelimiter) :=
        binaryChunks fNormalisedEntireColumn n (ib + cbFLDBinaryChunkNormalized)
        (pbNextChunk.drop cbFLDBinaryChunk)
      (pbSeg ++ pbRest, pbNext, ibDelimiter)

/-- A normalized segment of binary data, whether it is cut, and where its data ends. -/
structure BinarySegment where
  rgbSeg : List Byte
  fColumnTruncated : Bool
  ibBinaryColumnDelimiter : Nat
  deriving DecidableEq, Repr

/-- `FLDNormalizeBinarySegment`. -/
def fldNormalizeBinarySegment (pbField : List Byte) (cbKeyAvail cbKeyMost cbVarSegMac : Nat)
    (fFixedField : Bool) :
    BinarySegment :=
  if fFixedField then
    let cbSeg := pbField.length + 1
    let cbSeg := if cbVarSegMac < cbKeyMost ∧ cbSeg > cbVarSegMac then cbVarSegMac else cbSeg
    let fColumnTruncated : Bool := cbSeg > cbKeyAvail
    let cbSeg := if cbSeg > cbKeyAvail then cbKeyAvail else cbSeg
    ⟨bPrefixData :: pbField.take (cbSeg - 1), fColumnTruncated, 0⟩
  else
    let cChunks := (pbField.length + (cbFLDBinaryChunk - 1)) / cbFLDBinaryChunk
    let cbSeg := cChunks * cbFLDBinaryChunkNormalized + 1
    let fNormalisedEntireColumn : Bool := ¬ (cbVarSegMac < cbKeyMost ∧ cbSeg > cbVarSegMac)
    let cbSeg := if cbVarSegMac < cbKeyMost ∧ cbSeg > cbVarSegMac then cbVarSegMac else cbSeg
    let fColumnTruncated : Bool := cbSeg > cbKeyAvail
    let fNormalisedEntireColumn : Bool := fNormalisedEntireColumn ∧ ¬ cbSeg > cbKeyAvail
    let cbSeg := if cbSeg > cbKeyAvail then cbKeyAvail else cbSeg
    let cbSegRemaining := cbSeg - 1
    let (pbSeg, pbNextChunk, ibDelimiter) :=
      binaryChunks fNormalisedEntireColumn (cbSegRemaining / cbFLDBinaryChunkNormalized) 1 pbField
    let cbSegRemaining := cbSegRemaining % cbFLDBinaryChunkNormalized
    if cbSegRemaining > 0 then
      if pbNextChunk.length ≥ cbSegRemaining then
        ⟨bPrefixData :: (pbSeg ++ pbNextChunk.take cbSegRemaining), fColumnTruncated, ibDelimiter⟩
      else
        ⟨bPrefixData :: (pbSeg ++ pbNextChunk ++ List.replicate
          (cbSegRemaining - pbNextChunk.length) 0),
          fColumnTruncated, 1 + pbSeg.length + pbNextChunk.length⟩
    else ⟨bPrefixData :: pbSeg, fColumnTruncated, ibDelimiter⟩

/-! ## Segments of fixed size -/

/-- The sign of a WORD turned into order. -/
def wFlipHighBit (w : BitVec 16) : BitVec 16 := w ^^^ 0x8000

/-- The sign of a DWORD turned into order. -/
def dwFlipHighBit (dw : BitVec 32) : BitVec 32 := dw ^^^ 0x80000000

/-- The sign of a QWORD turned into order. -/
def qwFlipHighBit (qw : BitVec 64) : BitVec 64 := qw ^^^ 0x8000000000000000

/-- The sign bit of a DWORD. -/
def maskDWordHighBit : BitVec 32 := 0x80000000

/-- The sign bit of a QWORD. -/
def maskQWordHighBit : BitVec 64 := 0x8000000000000000

/-- A WORD, DWORD or QWORD in little-endian order. The machine is little-endian, so that this is
also how the user passes it. -/
def littleEndian (w : Nat) (pb : List Byte) : BitVec w := BitVec.ofNat w (leNat (pb.take (w / 8)))

/-- The bytes of a value as a key has them, the highest first. -/
def bigEndian {w : Nat} (v : BitVec w) : List Byte := beBytes (w / 8) v.toNat

/-- The order of the bytes of a GUID in a key. -/
def rgibGuid (fDotNetGuid : Bool) : List Nat :=
  if fDotNetGuid then [3, 2, 1, 0, 5, 4, 7, 6, 8, 9, 10, 11, 12, 13, 14, 15]
  else [10, 11, 12, 13, 14, 15, 8, 9, 6, 7, 4, 5, 0, 1, 2, 3]

/-- `FLDNormalizeFixedSegment`. -/
def fldNormalizeFixedSegment (pbField : List Byte) (coltyp : JET_COLTYP) (fDotNetGuid : Bool) :
    List Byte :=
  bPrefixData ::
    match coltyp with
    | .Bit => [if pbField.headD 0 = 0 then 0x00 else 0xff]
    | .UnsignedByte => [pbField.headD 0]
    | .Short => bigEndian (wFlipHighBit (littleEndian 16 pbField))
    | .UnsignedShort => bigEndian (littleEndian 16 pbField)
    | .Long => bigEndian (dwFlipHighBit (littleEndian 32 pbField))
    | .UnsignedLong => bigEndian (littleEndian 32 pbField)
    | .LongLong | .Currency => bigEndian (qwFlipHighBit (littleEndian 64 pbField))
    | .UnsignedLongLong => bigEndian (littleEndian 64 pbField)
    | .IEEESingle =>
      let dwSrc := littleEndian 32 pbField
      bigEndian (if dwSrc &&& maskDWordHighBit ≠ 0 then ~~~dwSrc else dwFlipHighBit dwSrc)
    | .IEEEDouble | .DateTime =>
      let qwSrc := littleEndian 64 pbField
      bigEndian (if qwSrc &&& maskQWordHighBit ≠ 0 then ~~~qwSrc else qwFlipHighBit qwSrc)
    | .GUID => (rgibGuid fDotNetGuid).map fun ib => pbField.getD ib 0
    | .Binary | .LongBinary => []

/-- `FLDNormalizeNullSegment`. -/
def fldNormalizeNullSegment (coltyp : JET_COLTYP) (fZeroLength fSortNullsHigh : Bool) : List Byte :=
  let bPrefixNullT := if fSortNullsHigh then bPrefixNullHigh else bPrefixNull
  match coltyp with
  | .Binary | .LongBinary => [if fZeroLength then bPrefixZeroLength else bPrefixNullT]
  | _ => [bPrefixNullT]

/-- A segment of a descending column is complemented. -/
def flip (fDescending : Bool) (rgbSeg : List Byte) : List Byte :=
  if fDescending then rgbSeg.map (· ^^^ 0xff) else rgbSeg

end Ese.Norm
