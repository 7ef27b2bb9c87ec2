import Mathlib.Tactic.Linarith
import Ese.Norm.MakeKey

/-!
# The whole key

What a key is without its limit: the segments of the columns, one after the other. Of a binary
column the whole segment is that of the data in chunks, cut at the limit of the index for segments.
However much of the data is taken and however little space is left, the code writes the beginning of
that.
-/

namespace Ese.Norm

/-! ## Binary data in chunks -/

/-- All of the data in chunks. -/
def chunks (pbField : List Byte) : List Byte :=
  if _h : pbField.length ≤ cbFLDBinaryChunk then
    pbField ++ List.replicate (cbFLDBinaryChunk - pbField.length) 0 ++
      [BitVec.ofNat 8 pbField.length]
  else
    pbField.take cbFLDBinaryChunk ++ [BitVec.ofNat 8 cbFLDBinaryChunkNormalized] ++
      chunks (pbField.drop cbFLDBinaryChunk)
termination_by pbField.length
decreasing_by
  rw [List.length_drop]
  simp only [cbFLDBinaryChunk] at *
  omega

/-- The last chunk is filled with zeros and counts its bytes. -/
theorem chunks_last {pbField : List Byte} (h : pbField.length ≤ 8) :
    chunks pbField = pbField ++ List.replicate (8 - pbField.length) 0 ++
      [BitVec.ofNat 8 pbField.length] := by
  rw [chunks, dif_pos (show pbField.length ≤ cbFLDBinaryChunk from h)]
  rfl

/-- A chunk with more behind it. -/
theorem chunks_more {pbField : List Byte} (h : 8 < pbField.length) :
    chunks pbField = pbField.take 8 ++ 9 :: chunks (pbField.drop 8) := by
  rw [chunks, dif_neg (show ¬ pbField.length ≤ cbFLDBinaryChunk from Nat.not_le.2 h),
    List.append_assoc]
  rfl

/-- The length of the chunks. -/
theorem length_chunks {pbField : List Byte} (h : pbField ≠ []) :
    (chunks pbField).length = (pbField.length + 7) / 8 * 9 := by
  induction hn : pbField.length using Nat.strong_induction_on generalizing pbField with
  | _ n ih =>
    have hpos : 0 < n := hn ▸ List.length_pos_of_ne_nil h
    by_cases hlast : pbField.length ≤ 8
    · rw [chunks_last hlast]
      simp only [List.length_append, List.length_replicate, List.length_singleton]
      omega
    · have hmore := Nat.lt_of_not_le hlast
      have hne : pbField.drop 8 ≠ [] := by
        rw [ne_eq, List.drop_eq_nil_iff]
        exact hlast
      rw [chunks_more hmore, List.length_append, List.length_cons, List.length_take,
        ih (n - 8) (by omega) hne (by rw [List.length_drop, hn])]
      omega

/-- The chunks are longer than the data. -/
theorem length_lt_length_chunks {pbField : List Byte} (h : pbField ≠ []) :
    pbField.length < (chunks pbField).length := by
  have hpos := List.length_pos_of_ne_nil h
  rw [length_chunks h]
  omega

/-- The loop and what comes after it write the first `m` bytes of the chunks. -/
theorem take_chunks (fEntire : Bool) (m ib : Nat) {pbField : List Byte} (h : pbField ≠ [])
    (hm : m ≤ (chunks pbField).length) (hentire : m = (chunks pbField).length → fEntire = true) :
    (chunks pbField).take m =
      (binaryChunks fEntire (m / 9) ib pbField).1 ++
        (if (binaryChunks fEntire (m / 9) ib pbField).2.1.length ≥ m % 9 then
          (binaryChunks fEntire (m / 9) ib pbField).2.1.take (m % 9)
        else (binaryChunks fEntire (m / 9) ib pbField).2.1
          ++ List.replicate (m % 9 - (binaryChunks fEntire (m / 9) ib pbField).2.1.length) 0) := by
  induction hn : m / 9 generalizing m ib pbField with
  | zero =>
    have hm9 : m < 9 := by omega
    have hmod : m % 9 = m := Nat.mod_eq_of_lt hm9
    rw [binaryChunks, hmod]
    dsimp only
    rw [List.nil_append]
    by_cases hlast : pbField.length ≤ 8
    · rw [chunks_last hlast]
      rw [List.take_append_of_le_length (by simp; omega)]
      split
      · rename_i hge
        rw [List.take_append_of_le_length hge]
      · rename_i hlt
        rw [List.take_append, List.take_of_length_le (by omega), List.take_replicate]
        congr 2
        omega
    · rw [chunks_more (Nat.lt_of_not_le hlast), List.take_append_of_le_length (by simp; omega),
        List.take_take,
        if_pos (by omega), Nat.min_eq_left (by omega)]
  | succ n ih =>
    rw [binaryChunks]
    dsimp only
    by_cases hlast : pbField.length ≤ 8
    · have hlen : (chunks pbField).length = 9 := by
        have hpos := List.length_pos_of_ne_nil h
        rw [length_chunks h]
        omega
      have hm9 : m = 9 := by omega
      have hn0 : n = 0 := by omega
      subst hm9 hn0
      rw [if_pos (show pbField.length ≤ cbFLDBinaryChunk from hlast), hentire hlen.symm]
      simp only [binaryChunks, Nat.mod_self, List.take_zero, ge_iff_le, Nat.zero_le, if_true,
        List.append_nil]
      rw [List.take_of_length_le (by omega), chunks_last hlast]
      split
      · rename_i h8
        have h8 : pbField.length = 8 := h8
        rw [h8]
        simp [cbFLDBinaryChunkNormalized, cbFLDBinaryChunk]
      · rfl
    · have hmore := Nat.lt_of_not_le hlast
      have hne : pbField.drop 8 ≠ [] := by
        rw [ne_eq, List.drop_eq_nil_iff]
        exact hlast
      have hlen : (chunks pbField).length = (chunks (pbField.drop 8)).length + 9 := by
        rw [chunks_more hmore, List.length_append, List.length_cons, List.length_take]
        omega
      have hrest := ih (m - 9) (ib + cbFLDBinaryChunkNormalized) hne (by omega)
        (fun he => hentire (by omega)) (by omega)
      have hmod : (m - 9) % 9 = m % 9 := by omega
      rw [hmod] at hrest
      rw [if_neg (show ¬ pbField.length ≤ cbFLDBinaryChunk from hlast), chunks_more hmore]
      have hm9 : m = (pbField.take 8).length + (1 + (m - 9)) := by
        rw [List.length_take]
        omega
      conv_lhs => rw [hm9]
      rw [List.take_length_add_append, Nat.add_comm 1, List.take_succ_cons, hrest]
      simp only [cbFLDBinaryChunk, List.append_assoc, List.cons_append, List.nil_append]
      rfl

/-- Of data that is taken in part the chunks begin as those of all of it. -/
theorem take_chunks_take {m cbDataMost : Nat} {pbField : List Byte} (hm : m ≤ cbDataMost) :
    (chunks (pbField.take cbDataMost)).take m = (chunks pbField).take m := by
  induction hn : pbField.length using Nat.strong_induction_on generalizing pbField m cbDataMost with
  | _ n ih =>
    rcases Nat.lt_or_ge cbDataMost pbField.length with hlt | hge
    · by_cases h8 : cbDataMost ≤ 8
      · have htake : (pbField.take cbDataMost).length = cbDataMost := by
          rw [List.length_take]
          omega
        have hleft : (chunks (pbField.take cbDataMost)).take m = pbField.take m := by
          rw [chunks_last (by omega), List.append_assoc, List.take_append_of_le_length (by omega),
            List.take_take,
            Nat.min_eq_left hm]
        rw [hleft]
        by_cases hlast : pbField.length ≤ 8
        · rw [chunks_last hlast, List.append_assoc, List.take_append_of_le_length (by omega)]
        · rw [chunks_more (Nat.lt_of_not_le hlast), List.take_append_of_le_length (by simp; omega),
            List.take_take,
            Nat.min_eq_left (by omega)]
      · have hmore : 8 < pbField.length := by omega
        have hmore' : 8 < (pbField.take cbDataMost).length := by
          rw [List.length_take]
          omega
        have h8take : (pbField.take 8).length = 8 := by
          rw [List.length_take]
          omega
        rw [chunks_more hmore, chunks_more hmore', List.take_take, Nat.min_eq_left (by omega),
          List.drop_take]
        rcases Nat.lt_or_ge m 9 with hm9 | hm9
        · rw [List.take_append, List.take_append]
          congr 1
          obtain h0 | h1 : m - 8 = 0 ∨ m - 8 = 1 := by omega
          · rw [h8take, h0]
            rfl
          · omega
        · have hm' : m = (pbField.take 8).length + ((m - 9) + 1) := by omega
          rw [hm', List.take_length_add_append, List.take_length_add_append, List.take_succ_cons,
            List.take_succ_cons,
            ih (pbField.length - 8) (by omega) (by omega) (by rw [List.length_drop])]
    · rw [List.take_of_length_le hge]

/-! ## Segments -/

/-- A segment of binary data, uncut. -/
def binarySegment (pbField : List Byte) (fFixedField : Bool) : List Byte :=
  bPrefixData :: if fFixedField then pbField else chunks pbField

/-- The limit of an index for segments. -/
def cut (pidb : IDB) (rgbSeg : List Byte) : List Byte :=
  if pidb.cbVarSegMacT < pidb.cbKeyMost then rgbSeg.take pidb.cbVarSegMacT else rgbSeg

/-- The segment of a column, of which `none` is NULL. -/
def segment (pidb : IDB) (field : FIELD) (fFixedField : Bool) : Option (List Byte) → List Byte
  | none => fldNormalizeNullSegment field.coltyp false pidb.fSortNullsHigh
  | some pbField =>
    if pbField = [] then fldNormalizeNullSegment field.coltyp true pidb.fSortNullsHigh
    else if fRECBinaryColumn field.coltyp then cut pidb (binarySegment pbField fFixedField)
    else fldNormalizeFixedSegment pbField field.coltyp pidb.fDotNetGuid

/-- A segment is longer than the data. -/
theorem length_binarySegment {pbField : List Byte} (h : pbField ≠ []) (fFixedField : Bool) :
    pbField.length < (binarySegment pbField fFixedField).length := by
  rw [binarySegment, List.length_cons]
  split
  · omega
  · have := length_lt_length_chunks h
    omega

/-- The normalization cuts a binary segment at the limit of the index and at the space left. -/
theorem fldNormalizeBinarySegment_eq (pidb : IDB) {pbField : List Byte} {cbKeyAvail : Nat}
    (h : pbField ≠ [])
    (havail : 0 < cbKeyAvail) (hmac : 0 < pidb.cbVarSegMacT) (fFixedField : Bool) :
    (fldNormalizeBinarySegment pbField cbKeyAvail pidb.cbKeyMost pidb.cbVarSegMacT
        fFixedField).rgbSeg
        = (cut pidb (binarySegment pbField fFixedField)).take cbKeyAvail
      ∧ (fldNormalizeBinarySegment pbField cbKeyAvail pidb.cbKeyMost pidb.cbVarSegMacT
        fFixedField).fColumnTruncated
        = decide (cbKeyAvail < (cut pidb (binarySegment pbField fFixedField)).length) := by
  generalize hseg : binarySegment pbField fFixedField = rgbSeg
  -- what is left of the segment by the limit has `cbSeg` bytes
  generalize hcbSeg : (if pidb.cbVarSegMacT < pidb.cbKeyMost ∧ rgbSeg.length > pidb.cbVarSegMacT
    then
    pidb.cbVarSegMacT else rgbSeg.length) = cbSeg
  have hcut : cut pidb rgbSeg = rgbSeg.take cbSeg := by
    rw [cut, ← hcbSeg]
    by_cases hlimit : pidb.cbVarSegMacT < pidb.cbKeyMost
    · by_cases hlen : rgbSeg.length > pidb.cbVarSegMacT
      · rw [if_pos hlimit, if_pos ⟨hlimit, hlen⟩]
      · rw [if_pos hlimit, if_neg (fun hc => hlen hc.2), List.take_length, List.take_of_length_le
          (Nat.not_lt.1 hlen)]
    · rw [if_neg hlimit, if_neg (fun hc => hlimit hc.1), List.take_length]
  have hle : cbSeg ≤ rgbSeg.length := by
    rw [← hcbSeg]
    split
    · rename_i hc
      exact Nat.le_of_lt hc.2
    · exact Nat.le_refl _
  have hpos : 0 < cbSeg := by
    rw [← hcbSeg]
    split
    · exact hmac
    · rw [← hseg]
      exact Nat.lt_of_le_of_lt (Nat.zero_le _) (length_binarySegment h fFixedField)
  have hlength : (cut pidb rgbSeg).length = cbSeg := by
    rw [hcut, List.length_take, Nat.min_eq_left hle]
  have hmin : (if cbSeg > cbKeyAvail then cbKeyAvail else cbSeg) = min cbKeyAvail cbSeg := by
    split
    · omega
    · omega
  rw [hlength, hcut, List.take_take]
  cases fFixedField with
  | true =>
    have hlen : rgbSeg.length = pbField.length + 1 := by rw [← hseg]; rfl
    rw [hlen] at hcbSeg
    rw [fldNormalizeBinarySegment]
    simp only [if_true, hcbSeg]
    refine ⟨?_, trivial⟩
    obtain ⟨m, hm⟩ := Nat.exists_eq_add_of_le (show 1 ≤ min cbKeyAvail cbSeg by omega)
    rw [hmin, ← hseg, hm, Nat.add_sub_cancel_left, Nat.add_comm 1]
    rfl
  | false =>
    have hlen : rgbSeg.length = (pbField.length + 7) / 8 * 9 + 1 := by
      rw [← hseg, binarySegment, List.length_cons, if_neg Bool.false_ne_true, length_chunks h]
    have hchunks : (pbField.length + (cbFLDBinaryChunk - 1)) / cbFLDBinaryChunk *
        cbFLDBinaryChunkNormalized + 1
        = rgbSeg.length := hlen.symm
    obtain ⟨m, hm⟩ := Nat.exists_eq_add_of_le (show 1 ≤ min cbKeyAvail cbSeg by omega)
    rw [fldNormalizeBinarySegment]
    simp only [if_neg Bool.false_ne_true, hchunks, hcbSeg, hmin, hm, Nat.add_sub_cancel_left]
    generalize hentire :
      decide ((decide ¬ (pidb.cbVarSegMacT < pidb.cbKeyMost ∧ rgbSeg.length > pidb.cbVarSegMacT)) =
      true
      ∧ ¬ cbSeg > cbKeyAvail) = fEntire
    have htake := take_chunks fEntire m 1 h ?_ ?_
    · have hcons : rgbSeg.take (1 + m) = bPrefixData :: (chunks pbField).take m := by
        rw [← hseg, Nat.add_comm]
        rfl
      rw [hcons, htake]
      have h9 : cbFLDBinaryChunkNormalized = 9 := rfl
      rw [h9]
      split
      · split
        · exact ⟨rfl, rfl⟩
        · exact ⟨by rw [List.append_assoc], rfl⟩
      · rename_i h0
        have h0 : m % 9 = 0 := Nat.eq_zero_of_not_pos h0
        rw [h0, if_pos (Nat.zero_le _), List.take_zero, List.append_nil]
        exact ⟨rfl, rfl⟩
    · have := length_chunks h
      omega
    · -- nothing is cut when all of the chunks are written
      intro he
      have hall := length_chunks h
      have hcbSeg' : cbSeg = rgbSeg.length := by omega
      rw [← hentire, decide_eq_true_eq, decide_eq_true_eq]
      refine ⟨fun hc => ?_, by omega⟩
      rw [if_pos hc] at hcbSeg
      omega

/-! ## What an index and its columns promise -/

/-- The size of the values of a fixed-size type. -/
def cbOfColtyp : JET_COLTYP → Nat
  | .Bit | .UnsignedByte => 1
  | .Short | .UnsignedShort => 2
  | .Long | .UnsignedLong | .IEEESingle => 4
  | .LongLong | .UnsignedLongLong | .Currency | .IEEEDouble | .DateTime => 8
  | .GUID => 16
  | .Binary | .LongBinary => 0

/-- The limits of an index are positive, and there is room for each column of fixed size: either the
key has `JET_cbKeyMostMin` bytes, or as many as its columns can fill. A tuple index is over binary
data, of which no tuple is empty, and has no limit for segments. -/
structure IDB.Valid (pidb : IDB) (ptdb : TDB) : Prop where
  rgidxseg_ne_nil : pidb.rgidxseg ≠ []
  cbVarSegMac_pos : 0 < pidb.cbVarSegMac
  cbVarSegMac_le : pidb.cbVarSegMac ≤ pidb.cbKeyMost
  room : ∀ idxseg ∈ pidb.rgidxseg, cbOfColtyp (ptdb idxseg.columnid).coltyp < pidb.cbKeyMost
  tupleData : pidb.fTuples = true → ∀ idxseg ∈ pidb.rgidxseg.head?,
    fRECBinaryColumn (ptdb idxseg.columnid).coltyp = true
  tupleLimits : pidb.fTuples = true → 0 < pidb.cchTuplesLengthMin ∧
    pidb.cbVarSegMac = pidb.cbKeyMost

/-- A column value has the size of its type; in a fixed column, the size of the column. -/
def FIELD.Holds (field : FIELD) (fFixedField : Bool) (value : List Byte) : Prop :=
  (fRECBinaryColumn field.coltyp = false → value.length = cbOfColtyp field.coltyp)
    ∧ (fFixedField = true → value.length = field.cbMaxLen ∧ value ≠ [])

/-- The record has values of the types of its columns. -/
def ValidRecord (pidb : IDB) (ptdb : TDB) (lineRec : Record) : Prop :=
  ∀ idxseg ∈ pidb.rgidxseg, ∀ itag, ∀ value ∈ (lineRec idxseg.columnid itag).value,
    (ptdb idxseg.columnid).Holds (fCOLUMNIDFixed idxseg.columnid) value

/-- Fixed-size types have a size. -/
theorem cbOfColtyp_pos {coltyp : JET_COLTYP} (h : fRECBinaryColumn coltyp = false) :
    0 < cbOfColtyp coltyp := by
  cases coltyp <;> first | decide | exact absurd h (by decide)

/-- A value of a fixed-size type has a byte. -/
theorem FIELD.Holds.ne_nil {field : FIELD} {fFixedField : Bool} {value : List Byte}
    (h : field.Holds fFixedField value)
    (hbin : fRECBinaryColumn field.coltyp = false) : value ≠ [] := by
  have hpos := cbOfColtyp_pos hbin
  rw [← h.1 hbin] at hpos
  exact List.ne_nil_of_length_pos hpos

/-- A key has a byte. -/
theorem IDB.Valid.cbKeyMost_pos {pidb : IDB} {ptdb : TDB} (h : pidb.Valid ptdb) :
    0 < pidb.cbKeyMost :=
  Nat.lt_of_lt_of_le h.cbVarSegMac_pos h.cbVarSegMac_le

/-- A segment has a byte. -/
theorem IDB.Valid.cbVarSegMacT_pos {pidb : IDB} {ptdb : TDB} (h : pidb.Valid ptdb) :
    0 < pidb.cbVarSegMacT := by
  rw [cbVarSegMacT]
  split
  · exact Nat.succ_pos _
  · exact h.cbVarSegMac_pos

/-! ## Segments in the space left -/

section
variable {pidb : IDB} {ptdb : TDB} {field : FIELD} {fFixedField : Bool}
    {cbKeyAvail cbDataMost : Nat}
  {value : List Byte}

/-- A cut segment does not depend on the data behind the cut. -/
theorem take_binarySegment_take {n : Nat} (hn : n ≤ cbDataMost) (fFixedField : Bool) :
    (binarySegment (value.take cbDataMost) fFixedField).take n =
      (binarySegment value fFixedField).take n := by
  rw [binarySegment, binarySegment]
  cases n with
  | zero => rfl
  | succ n =>
    rw [List.take_succ_cons, List.take_succ_cons]
    cases fFixedField with
    | true => rw [if_pos rfl, if_pos rfl, List.take_take, Nat.min_eq_left (by omega)]
    | false => rw [if_neg Bool.false_ne_true, if_neg Bool.false_ne_true,
      take_chunks_take (by omega)]

/-- Whatever is taken of binary data beyond the key limit, the segment begins the same, and is cut
or not. -/
theorem cut_binarySegment_take (pidb : IDB) (hvalue : value ≠ [])
    (havail : cbKeyAvail ≤ pidb.cbKeyMost)
    (hmost : pidb.cbKeyMost ≤ cbDataMost) (hpos : 0 < pidb.cbKeyMost) (fFixedField : Bool) :
    (cut pidb (binarySegment (value.take cbDataMost) fFixedField)).take cbKeyAvail
        = (cut pidb (binarySegment value fFixedField)).take cbKeyAvail
      ∧ (cbKeyAvail < (cut pidb (binarySegment (value.take cbDataMost) fFixedField)).length
        ↔ cbKeyAvail < (cut pidb (binarySegment value fFixedField)).length) := by
  rcases Nat.le_total value.length cbDataMost with hle | hge
  · rw [List.take_of_length_le hle]
    exact ⟨rfl, Iff.rfl⟩
  · have htake : (value.take cbDataMost).length = cbDataMost := by
      rw [List.length_take, Nat.min_eq_left hge]
    have hne : value.take cbDataMost ≠ [] := List.ne_nil_of_length_pos (by omega)
    have hlen := length_binarySegment hne fFixedField
    have hlen' := length_binarySegment hvalue fFixedField
    rw [cut, cut]
    by_cases hlimit : pidb.cbVarSegMacT < pidb.cbKeyMost
    · rw [if_pos hlimit, if_pos hlimit, take_binarySegment_take (by omega)]
      exact ⟨rfl, Iff.rfl⟩
    · rw [if_neg hlimit, if_neg hlimit, take_binarySegment_take (by omega)]
      exact ⟨rfl, by omega⟩

/-- The segment of a record's column, of which at most `cbDataMost` bytes are taken: it is the
beginning of the whole segment, and no more data is needed. -/
theorem normalizeSegment_eq (hmac : 0 < pidb.cbVarSegMacT) (havail : 0 < cbKeyAvail)
    (hle : cbKeyAvail ≤ pidb.cbKeyMost) (hmost : pidb.cbKeyMost ≤ cbDataMost)
    (hroom : cbOfColtyp field.coltyp < pidb.cbKeyMost)
    {pbField : Option (List Byte)} (hholds : ∀ value ∈ pbField, fRECBinaryColumn field.coltyp =
      false →
      value.length = cbOfColtyp field.coltyp) :
    (normalizeSegment pidb field fFixedField cbKeyAvail (pbField.map (·.take cbDataMost))).1.take
        cbKeyAvail
        = (segment pidb field fFixedField pbField).take cbKeyAvail
      ∧ ((normalizeSegment pidb field fFixedField cbKeyAvail (pbField.map (·.take cbDataMost))).2 =
          true
          → (normalizeSegment pidb field fFixedField cbKeyAvail
          (pbField.map (·.take cbDataMost))).1.length = cbKeyAvail)
      ∧ (((normalizeSegment pidb field fFixedField cbKeyAvail (pbField.map (·.take cbDataMost))).2 =
          true
          ∨ cbKeyAvail < (normalizeSegment pidb field fFixedField cbKeyAvail
          (pbField.map (·.take cbDataMost))).1.length)
        ↔ cbKeyAvail < (segment pidb field fFixedField pbField).length) := by
  cases pbField with
  | none =>
    refine ⟨rfl, fun h => absurd h Bool.false_ne_true, ?_⟩
    simp only [Option.map_none, normalizeSegment, segment, Bool.false_eq_true, false_or]
  | some value =>
    rw [Option.map_some, normalizeSegment, segment]
    by_cases hvalue : value = []
    · rw [hvalue, List.take_nil, if_pos rfl, if_pos rfl]
      refine ⟨rfl, fun h => absurd h Bool.false_ne_true, ?_⟩
      simp only [Bool.false_eq_true, false_or]
    · have hne : value.take cbDataMost ≠ [] := by
        rw [ne_eq, List.take_eq_nil_iff]
        exact fun h => h.elim (by omega) hvalue
      rw [if_neg hne, if_neg hvalue]
      cases hbin : fRECBinaryColumn field.coltyp with
      | true =>
        rw [if_pos rfl, if_pos rfl]
        obtain ⟨hseg, htrunc⟩ := fldNormalizeBinarySegment_eq pidb hne havail hmac fFixedField
        obtain ⟨hbegin, hcut⟩ := cut_binarySegment_take pidb hvalue hle hmost (by omega) fFixedField
        dsimp only
        rw [hseg, htrunc, hbegin, decide_eq_true_eq, List.take_take, Nat.min_self, List.length_take]
        refine ⟨rfl, fun h => Nat.min_eq_left (Nat.le_of_lt (hcut.1 h)), ?_⟩
        constructor
        · rintro (h | h)
          · exact hcut.1 h
          · omega
        · exact fun h => .inl (hcut.2 h)
      | false =>
        have hlen := hholds value rfl hbin
        have htake : value.take cbDataMost = value := List.take_of_length_le (by omega)
        rw [if_neg Bool.false_ne_true, if_neg Bool.false_ne_true, htake]
        refine ⟨rfl, fun h => absurd h Bool.false_ne_true, ?_⟩
        simp only [Bool.false_eq_true, false_or]

/-- A segment that uses all of the data that is taken fills its space. -/
theorem not_fNeedMoreData (hmac : 0 < pidb.cbVarSegMacT) (havail : 0 < cbKeyAvail)
    (hmost : pidb.cbKeyMost ≤ cbDataMost)
    (hle : cbKeyAvail ≤ pidb.cbKeyMost) (hroom : cbOfColtyp field.coltyp < pidb.cbKeyMost)
    {pbField : Option (List Byte)} (hholds : ∀ value ∈ pbField, fRECBinaryColumn field.coltyp =
      false →
      value.length = cbOfColtyp field.coltyp) :
    ¬ ((((pbField.map (·.take cbDataMost)).map List.length).getD 0 = cbDataMost)
      ∧ (normalizeSegment pidb field fFixedField cbKeyAvail
      (pbField.map (·.take cbDataMost))).1.length < cbKeyAvail
      ∧ (normalizeSegment pidb field fFixedField cbKeyAvail
        (pbField.map (·.take cbDataMost))).1.length
        < pidb.cbVarSegMac) := by
  rintro ⟨hall, havail', hmac'⟩
  cases pbField with
  | none =>
    change 0 = cbDataMost at hall
    omega
  | some value =>
    change (value.take cbDataMost).length = cbDataMost at hall
    have hne : value.take cbDataMost ≠ [] := List.ne_nil_of_length_pos (by omega)
    rw [Option.map_some, normalizeSegment, if_neg hne] at havail' hmac'
    cases hbin : fRECBinaryColumn field.coltyp with
    | true =>
      rw [hbin, if_pos rfl] at havail' hmac'
      have hlen := length_binarySegment hne fFixedField
      dsimp only at havail' hmac'
      rw [(fldNormalizeBinarySegment_eq pidb hne havail hmac fFixedField).1, cut, List.length_take]
        at havail' hmac'
      split at havail'
      · rename_i hlimit
        rw [if_pos hlimit, List.length_take] at hmac'
        rw [List.length_take] at havail'
        have hset : pidb.cbVarSegMacT = pidb.cbVarSegMac := by
          rw [IDB.cbVarSegMacT]
          rw [IDB.cbVarSegMacT] at hlimit
          split
          · rename_i he
            rw [if_pos he] at hlimit
            omega
          · rfl
        omega
      · omega
    | false =>
      have hvalue := hholds value rfl hbin
      rw [List.length_take] at hall
      omega

end

end Ese.Norm
