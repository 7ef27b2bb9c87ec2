import Ese.Lib.Memory
import Ese.Lib.Patch
import Ese.Page.Basic

/-!
# Records

A record is a byte string: a header with the last fixed and the last variable column stored and
the end of the fixed data, the fixed columns, their null bitmap, the table of variable offsets,
the variable columns, and the tagged columns as an array of `TAGFLD`s followed by their data
(`rec.hxx`, `tagfld.hxx`). Every accessor reads the bytes. `Rec.WF` is what the engine keeps true
of the records of a table: the parts lie one behind the other and the tagged columns are sorted.
-/

namespace Ese

/-- A record. -/
abbrev Rec := List Byte

/-! ## Columns -/

/-- The value of `FID( fidtypVar, fidlimNone )`. -/
def fidVarNone : Nat := 127

/-- The value of `FID( fidtypTagged, fidlimLeast )`. -/
def fidTaggedLeast : Nat := 256

/-- `FID::IbHash`: the byte of the column-set bitmap for a column. -/
def ibHash (fid : Nat) : Nat :=
  if fid ≤ 127 then (fid - 1) % 32 / 8
  else if fid ≤ 255 then ((fid - 128) % 32 + 32) / 8
  else ((fid - 256) % 192 + 64) / 8

/-- `FID::IbitHash`: its bit in that byte. -/
def ibitHash (fid : Nat) : Byte :=
  if fid ≤ 127 then 1 <<< ((fid - 1) % 8)
  else if fid ≤ 255 then 1 <<< ((fid - 128) % 8)
  else 1 <<< ((fid - 256) % 8)

/-- What is read of a cursor: which columns have been set, and whether tagged columns were changed
without having been set. -/
structure FUCB where
  rgbitSet : Nat → Byte
  fTagImplicitOp : Bool

/-- `FFUCBColumnSet`: whether the column may have changed. -/
def FUCB.fColumnSet (fucb : FUCB) (fid : Nat) : Bool :=
  fucb.rgbitSet (ibHash fid) &&& ibitHash fid ≠ 0

/-- `FFUCBTaggedColumnSet`: some bit of the tagged part of the bitmap is set. -/
def FUCB.fTaggedColumnSet (fucb : FUCB) : Bool :=
  (List.range' 8 24).any fun ib => fucb.rgbitSet ib ≠ 0

/-- What is read of a `FIELD`: whether the column was deleted (`JET_coltypNil`), where a fixed
column starts and how long it is. -/
structure FIELD where
  fDeleted : Bool
  ibRecordOffset : Nat
  cbMaxLen : Nat
  deriving DecidableEq, Repr

/-- The fixed columns of a table. A column that is not deleted ends where the next one starts. -/
structure TDB where
  fidFixedLast : Nat
  pfieldFixed : Nat → FIELD
  ibEndFixedColumns : Nat

/-- `TDB::IbOffsetOfNextColumn`. -/
def TDB.ibOffsetOfNextColumn (tdb : TDB) (fid : Nat) : Nat :=
  if tdb.fidFixedLast = fid then tdb.ibEndFixedColumns
  else (tdb.pfieldFixed (fid + 1)).ibRecordOffset

/-- The fixed columns start behind the record header and follow each other. -/
structure TDB.WF (tdb : TDB) : Prop where
  start : tdb.ibOffsetOfNextColumn 0 = 4
  lt : ∀ fid, 0 < fid → fid ≤ tdb.fidFixedLast →
    (tdb.pfieldFixed fid).ibRecordOffset < tdb.ibOffsetOfNextColumn fid
  cbMaxLen : ∀ fid, 0 < fid → fid ≤ tdb.fidFixedLast → (tdb.pfieldFixed fid).fDeleted = false →
    (tdb.pfieldFixed fid).ibRecordOffset + (tdb.pfieldFixed fid).cbMaxLen =
      tdb.ibOffsetOfNextColumn fid

/-- `IbVarOffset`: the offset in an entry of the variable offsets table, without the null bit. -/
def ibVarOffset (ibVarOffs : BitVec 16) : Nat := (ibVarOffs &&& 0x7fff).toNat

namespace Rec

variable (r : Rec)

/-- The byte at an offset of the record. -/
def byteAt (i : Nat) : Byte := r.getD i 0

/-- A little-endian word. -/
def wordAt (i : Nat) : BitVec 16 := r.byteAt (i + 1) ++ r.byteAt i

/-- Equal words are equal byte by byte. -/
theorem wordAt_inj {r r' : Rec} {i j : Nat} (h : r.wordAt i = r'.wordAt j) :
    r.byteAt i = r'.byteAt j ∧ r.byteAt (i + 1) = r'.byteAt (j + 1) := by
  refine ⟨BitVec.eq_of_getLsbD_eq fun t ht => ?_, BitVec.eq_of_getLsbD_eq fun t ht => ?_⟩
  · have := congrArg (fun w => w.getLsbD t) h
    dsimp only [wordAt] at this
    rwa [BitVec.getLsbD_append, BitVec.getLsbD_append, if_pos ht, if_pos ht] at this
  · have := congrArg (fun w => w.getLsbD (8 + t)) h
    dsimp only [wordAt] at this
    rwa [BitVec.getLsbD_append, BitVec.getLsbD_append, if_neg (by omega), if_neg (by omega),
      Nat.add_sub_cancel_left] at this

/-- Stretches of two records with the same bytes. -/
theorem slice_congr {r r' : Rec} {i j n : Nat} (hi : i + n ≤ r.length) (hj : j + n ≤ r'.length)
    (h : ∀ k < n, r.byteAt (i + k) = r'.byteAt (j + k)) : slice r i n = slice r' j n := by
  apply List.ext_getElem (by rw [length_slice hi, length_slice hj])
  intro k hk hk'
  have hkn : k < n := by rwa [length_slice hi] at hk
  have := h k hkn
  simp only [byteAt, List.getD_eq_getElem?_getD,
    List.getElem?_eq_getElem (show i + k < r.length by omega),
    List.getElem?_eq_getElem (show j + k < r'.length by omega), Option.getD_some] at this
  simpa [slice] using this

/-- `REC::cbRecordHeader`. -/
def cbRecordHeader : Nat := 4

/-- The last fixed column in the record. -/
def fidFixedLastInRec : Nat := (r.byteAt 0).toNat

/-- The last variable column in the record. -/
def fidVarLastInRec : Nat := (r.byteAt 1).toNat

/-- Where the fixed data ends, with its null bitmap. -/
def ibEndOfFixedData : Nat := (r.wordAt 2).toNat

/-- The number of fixed columns. -/
def cFixedColumns : Nat := r.fidFixedLastInRec

/-- The number of variable columns. -/
def cVarColumns : Nat := r.fidVarLastInRec - fidVarNone

/-- The size of the null bitmap of the fixed columns. -/
def cbFixedNullBitMap : Nat := (r.cFixedColumns + 7) / 8

/-- The offset `PbFixedNullBitMap` points to. -/
def ibFixedNullBitMap : Nat := r.ibEndOfFixedData - r.cbFixedNullBitMap

/-- The null bit of the fixed column with index `ifid`. -/
def fFixedNullBit (ifid : Nat) : Bool :=
  r.byteAt (r.ibFixedNullBitMap + ifid / 8) &&& 1 <<< (ifid % 8) ≠ 0

/-- Entry `ifid` of the table `PibVarOffsets` points to. -/
def pibVarOffsets (ifid : Nat) : BitVec 16 := r.wordAt (r.ibEndOfFixedData + 2 * ifid)

/-- Where a variable column begins in the variable data. -/
def ibVarOffsetStart (ifid : Nat) : Nat :=
  if ifid = 0 then 0 else ibVarOffset (r.pibVarOffsets (ifid - 1))

/-- Where a variable column ends in the variable data. -/
def ibVarOffsetEnd (ifid : Nat) : Nat := ibVarOffset (r.pibVarOffsets ifid)

/-- The offset `PbVarData` points to. -/
def ibVarData : Nat := r.ibEndOfFixedData + r.cVarColumns * 2

/-- Where the variable data ends. -/
def ibEndOfVarData : Nat :=
  if r.cVarColumns = 0 then 0 else ibVarOffset (r.pibVarOffsets (r.cVarColumns - 1))

/-- The offset `PbTaggedData` points to. -/
def ibTaggedData : Nat := r.ibVarData + r.ibEndOfVarData

/-- The data of the variable column with index `ifid`. -/
def varColumn (ifid : Nat) : List Byte :=
  slice r (r.ibVarData + r.ibVarOffsetStart ifid) (r.ibVarOffsetEnd ifid - r.ibVarOffsetStart ifid)

end Rec

/-! ## Tagged columns -/

/-- `TAGFLD`: the column id and the offset of its data with the flag bits. -/
@[ext] structure TAGFLD where
  m_fid : BitVec 16
  m_ib : BitVec 16
  deriving DecidableEq, Repr

namespace TAGFLD

/-- `TAGFLD::maskIb`. -/
def maskIb (s : PageSize) : BitVec 16 := if s.fSmallPage then 0x1fff else 0x7fff

variable (t : TAGFLD) (fid : Nat) (fDerived : Bool)

/-- `Fid`. -/
def Fid : Nat := t.m_fid.toNat

/-- `Ib`. -/
def Ib (s : PageSize) : Nat := (t.m_ib &&& maskIb s).toNat

/-- `FDerived`. -/
def FDerived : Bool := t.m_ib &&& 0x8000 ≠ 0

/-- Template columns precede the table's own columns. -/
def FIsLessThan : Bool :=
  if t.FDerived then (if fDerived then t.Fid < fid else true)
  else if fDerived then false else t.Fid < fid

/-- `FIsGreaterThan`. -/
def FIsGreaterThan : Bool :=
  if t.FDerived then (if fDerived then t.Fid > fid else false)
  else if fDerived then true else t.Fid > fid

/-- `TAGFIELDS::TagFldCmp`, its sign as an `Ordering`. -/
def tagFldCmp (t₁ t₂ : TAGFLD) : Ordering :=
  if t₁.FIsLessThan t₂.Fid t₂.FDerived then .lt
  else if t₁.FIsGreaterThan t₂.Fid t₂.FDerived then .gt else .eq

end TAGFLD

/-- A tagged column as a reader sees it: its id, the flag bits of its `TAGFLD`, and its data. -/
@[ext] structure TaggedColumn where
  fid : Nat
  flags : BitVec 16
  pv : List Byte
  deriving DecidableEq, Repr

namespace Rec

variable (s : PageSize) (r : Rec)

/-- `TAGFIELDS::CbTaggedColumns`. -/
def cbTaggedColumns : Nat := r.length - r.ibTaggedData

/-- The entry of a tagged column. -/
def ptagfld (itagfld : Nat) : TAGFLD :=
  ⟨r.wordAt (r.ibTaggedData + 4 * itagfld), r.wordAt (r.ibTaggedData + 4 * itagfld + 2)⟩

/-- `TAGFIELDS::CTaggedColumns`: the data of the first column starts where the array ends. -/
def cTaggedColumns : Nat :=
  if r.cbTaggedColumns = 0 then 0 else (r.ptagfld 0).Ib s / 4

/-- The offset `TAGFIELDS::PbData` points to. -/
def ibTagData (itagfld : Nat) : Nat := r.ibTaggedData + (r.ptagfld itagfld).Ib s

/-- `TAGFIELDS::CbData`. -/
def cbTagData (itagfld : Nat) : Nat :=
  (if itagfld < r.cTaggedColumns s - 1 then (r.ptagfld (itagfld + 1)).Ib s
    else r.cbTaggedColumns) - (r.ptagfld itagfld).Ib s

/-- The data of tagged column `itagfld`. -/
def tagData (itagfld : Nat) : List Byte :=
  slice r (r.ibTagData s itagfld) (r.cbTagData s itagfld)

/-- Tagged column `itagfld`. -/
def taggedColumn (itagfld : Nat) : TaggedColumn :=
  ⟨(r.ptagfld itagfld).Fid, (r.ptagfld itagfld).m_ib &&& ~~~TAGFLD.maskIb s, r.tagData s itagfld⟩

/-- The tagged columns of the record. -/
def taggedColumns : List TaggedColumn :=
  (List.range (r.cTaggedColumns s)).map (r.taggedColumn s)

/-- A record of a table, as the engine builds it. -/
structure WF (tdb : TDB) : Prop where
  /-- A record is shorter than a page. -/
  length_lt : r.length < s.cbPage
  header : cbRecordHeader ≤ r.length
  fidFixed : r.fidFixedLastInRec ≤ 127 ∧ r.fidFixedLastInRec ≤ tdb.fidFixedLast
  /-- The null bitmap follows the last fixed column. -/
  fixed : r.ibEndOfFixedData =
    tdb.ibOffsetOfNextColumn r.fidFixedLastInRec + r.cbFixedNullBitMap
  /-- The bits of the null bitmap behind the last column are set. -/
  nullBits : ∀ ifid, r.cFixedColumns ≤ ifid → ifid < 8 * r.cbFixedNullBitMap →
    r.fFixedNullBit ifid = true
  fidVar : fidVarNone ≤ r.fidVarLastInRec
  /-- The variable columns follow each other. -/
  var : ∀ ifid < r.cVarColumns, r.ibVarOffsetStart ifid ≤ r.ibVarOffsetEnd ifid
  tagged : r.ibTaggedData ≤ r.length
  /-- The data of the first tagged column follows the array. -/
  tagArray : r.cbTaggedColumns ≠ 0 →
    4 ≤ (r.ptagfld 0).Ib s ∧ 4 ∣ (r.ptagfld 0).Ib s ∧ (r.ptagfld 0).Ib s ≤ r.cbTaggedColumns
  /-- The data of the tagged columns follow each other. -/
  tagData : ∀ itagfld, itagfld + 1 < r.cTaggedColumns s →
    (r.ptagfld itagfld).Ib s ≤ (r.ptagfld (itagfld + 1)).Ib s
  tagEnd : ∀ itagfld < r.cTaggedColumns s, (r.ptagfld itagfld).Ib s ≤ r.cbTaggedColumns
  tagFid : ∀ itagfld < r.cTaggedColumns s, fidTaggedLeast ≤ (r.ptagfld itagfld).Fid
  /-- The tagged columns are sorted. -/
  tagSorted : ∀ itagfld, itagfld + 1 < r.cTaggedColumns s →
    (r.ptagfld itagfld).FIsLessThan (r.ptagfld (itagfld + 1)).Fid
      (r.ptagfld (itagfld + 1)).FDerived = true

end Rec

end Ese
