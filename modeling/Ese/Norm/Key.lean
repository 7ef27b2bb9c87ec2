import Ese.Norm.Segment

/-!
# What the key of a record is

The columns of an index, with the values the record has for them, make a whole key, and
`ErrRECIIRetrieveKey` leaves the first `cbKeyMost` bytes of it: after every segment the key buffer
has what fits of the segments so far.
-/

namespace Ese.Norm

section
variable (pidb : IDB) (ptdb : TDB)

/-- The segment of a column of the index in a key. -/
def keySegment (idxseg : IDXSEG) (value : Option (List Byte)) : List Byte :=
  flip idxseg.fDescending
    (segment pidb (ptdb idxseg.columnid) (fCOLUMNIDFixed idxseg.columnid) value)

/-- The key of some columns without its limit. -/
def wholeKey (columns : List (IDXSEG × Option (List Byte))) : List Byte :=
  columns.flatMap fun column => keySegment pidb ptdb column.1 column.2

variable (lineRec : Record) (rgitag : Nat → Nat) (ichOffset cbDataMost : Nat)

/-- The value of a column in the key: the first column of a tuple index has its tuple there. -/
def keyColumn (iidxseg : Nat) (idxseg : IDXSEG) : Option (List Byte) :=
  let column := lineRec idxseg.columnid (rgitag iidxseg)
  if pidb.fTuples ∧ iidxseg = 0 then
    match tupleField pidb ichOffset (dataField true ichOffset cbDataMost column) with
    | .ok pbField => pbField
    | .error _ => none
  else column.value

/-- The columns of an index from segment `iidxseg` on, with their values in the key. -/
def keyColumns : Nat → List IDXSEG → List (IDXSEG × Option (List Byte))
  | _, [] => []
  | iidxseg, idxseg :: rgidxseg =>
    (idxseg, keyColumn pidb lineRec rgitag ichOffset cbDataMost iidxseg idxseg) :: keyColumns
      (iidxseg + 1) rgidxseg

end

variable {pidb : IDB} {ptdb : TDB} {lineRec : Record} {rgitag : Nat → Nat}
    {ichOffset cbDataMost : Nat}

/-- The key of no columns. -/
@[simp] theorem wholeKey_nil : wholeKey pidb ptdb [] = [] := rfl

/-- The segment of the first column comes first. -/
theorem wholeKey_cons (column : IDXSEG × Option (List Byte))
    (columns : List (IDXSEG × Option (List Byte))) :
    wholeKey pidb ptdb (column :: columns)
      = keySegment pidb ptdb column.1 column.2 ++ wholeKey pidb ptdb columns := rfl

/-- Descending order leaves the length. -/
@[simp] theorem length_flip (fDescending : Bool) (rgbSeg : List Byte) :
    (flip fDescending rgbSeg).length = rgbSeg.length := by
  cases fDescending <;> simp [flip]

/-- Descending order and a cut commute. -/
theorem flip_take (fDescending : Bool) (rgbSeg : List Byte) (n : Nat) :
    flip fDescending (rgbSeg.take n) = (flip fDescending rgbSeg).take n := by
  cases fDescending <;> simp [flip]

/-- A segment of fixed size has its prefix byte. -/
theorem length_fldNormalizeFixedSegment_pos (pbField : List Byte) (coltyp : JET_COLTYP)
    (fDotNetGuid : Bool) :
    0 < (fldNormalizeFixedSegment pbField coltyp fDotNetGuid).length := Nat.succ_pos _

/-- A null segment is its prefix byte. -/
theorem length_fldNormalizeNullSegment (coltyp : JET_COLTYP) (fZeroLength fSortNullsHigh : Bool) :
    (fldNormalizeNullSegment coltyp fZeroLength fSortNullsHigh).length = 1 := by
  unfold fldNormalizeNullSegment
  cases coltyp <;> rfl

/-- No segment is empty. -/
theorem length_segment_pos (hmac : 0 < pidb.cbVarSegMacT) (field : FIELD) (fFixedField : Bool)
    (value : Option (List Byte)) : 0 < (segment pidb field fFixedField value).length := by
  cases value with
  | none =>
    rw [segment, length_fldNormalizeNullSegment]
    exact Nat.one_pos
  | some pbField =>
    rw [segment]
    split
    · rw [length_fldNormalizeNullSegment]
      exact Nat.one_pos
    · split
      · unfold cut
        split
        · rw [List.length_take, binarySegment, List.length_cons]
          omega
        · exact Nat.succ_pos _
      · exact length_fldNormalizeFixedSegment_pos _ _ _

/-- Every segment has a byte. -/
theorem length_keySegment_pos (hmac : 0 < pidb.cbVarSegMacT) (idxseg : IDXSEG)
    (value : Option (List Byte)) :
    0 < (keySegment pidb ptdb idxseg value).length := by
  rw [keySegment, length_flip]
  exact length_segment_pos hmac _ _ _

/-! ## The data of a column -/

/-- The data of a column is its value, cut. -/
theorem dataField_eq (cbDataMost : Nat) (column : RecColumn) :
    (dataField false 0 cbDataMost column).map Prod.fst = column.value.map (·.take cbDataMost) := by
  cases column with
  | wrnRECUserDefinedDefault value => cases value <;> rfl
  | _ => rfl

/-- A tuple is part of the data that is taken. -/
theorem length_dataField_le {fTuple : Bool} {pbField : List Byte} {fTupleAdjusted : Bool}
    {column : RecColumn}
    (h : dataField fTuple ichOffset cbDataMost column = some (pbField, fTupleAdjusted)) :
    pbField.length ≤ cbDataMost := by
  have htake : ∀ value : List Byte, (value.take cbDataMost).length ≤ cbDataMost := by
    intro value
    rw [List.length_take]
    exact Nat.min_le_left _ _
  cases column with
  | Null => cases h
  | Data value =>
    cases h
    exact htake _
  | wrnRECIntrinsicLV value =>
    rw [dataField] at h
    split at h <;> cases h <;> exact htake _
  | wrnRECSeparatedLV value =>
    cases h
    exact htake _
  | wrnRECCompressed value =>
    rw [dataField] at h
    split at h <;> cases h <;> exact htake _
  | wrnRECUserDefinedDefault value =>
    cases value with
    | none => cases h
    | some value =>
      cases h
      exact htake _

/-- Data that is taken of a column is part of a value. -/
theorem value_of_dataField {fTuple : Bool} {pbField : List Byte} {fTupleAdjusted : Bool}
    {column : RecColumn}
    (h : dataField fTuple ichOffset cbDataMost column = some (pbField, fTupleAdjusted))
      (hne : pbField ≠ []) :
    ∃ value, column.value = some value ∧ value ≠ [] := by
  have hwhole : ∀ value : List Byte, value.take cbDataMost ≠ [] → value ≠ [] := by
    intro value htake hnil
    rw [hnil, List.take_nil] at htake
    exact htake rfl
  have hpart : ∀ value : List Byte, (value.drop ichOffset).take cbDataMost ≠ [] → value ≠ [] := by
    intro value htake hnil
    rw [hnil, List.drop_nil, List.take_nil] at htake
    exact htake rfl
  cases column with
  | Null => cases h
  | Data value =>
    cases h
    exact ⟨value, rfl, hwhole value hne⟩
  | wrnRECIntrinsicLV value =>
    rw [dataField] at h
    split at h
    · cases h
      exact ⟨value, rfl, hpart value hne⟩
    · cases h
      exact ⟨value, rfl, hwhole value hne⟩
  | wrnRECSeparatedLV value =>
    cases h
    exact ⟨value, rfl, hpart value hne⟩
  | wrnRECCompressed value =>
    rw [dataField] at h
    split at h
    · cases h
      exact ⟨value, rfl, hpart value hne⟩
    · cases h
      exact ⟨value, rfl, hwhole value hne⟩
  | wrnRECUserDefinedDefault value =>
    cases value with
    | none => cases h
    | some value =>
      cases h
      exact ⟨value, rfl, hwhole value hne⟩

/-- A tuple has a byte and is no longer than the data. -/
theorem tupleField_spec {data : Option (List Byte × Bool)} {pbField : Option (List Byte)}
    (hdata : ∀ value fTupleAdjusted, data = some (value, fTupleAdjusted) →
    value.length ≤ cbDataMost)
    (hmin : 0 < pidb.cchTuplesLengthMin) (h : tupleField pidb ichOffset data = .ok pbField) :
    ∃ tuple, pbField = some tuple ∧ tuple ≠ [] ∧ tuple.length ≤ cbDataMost ∧
      ∃ value fTupleAdjusted, data = some (value, fTupleAdjusted) ∧ value ≠ [] := by
  unfold tupleField at h
  cases data with
  | none =>
    dsimp only at h
    rw [if_pos hmin] at h
    cases h
  | some pair =>
    obtain ⟨value, fTupleAdjusted⟩ := pair
    have hle := hdata value fTupleAdjusted rfl
    have hpart : (if fTupleAdjusted = true then value else value.drop ichOffset).length ≤
      value.length := by
      split
      · exact Nat.le_refl _
      · rw [List.length_drop]
        omega
    dsimp only at h
    generalize (if fTupleAdjusted = true then value else value.drop ichOffset) = part at h hpart
    split at h
    · cases h
    · next hlen =>
      cases h
      rw [List.length_take] at hlen
      refine ⟨_, rfl, List.ne_nil_of_length_pos (by rw [List.length_take]; omega), ?_, value,
        fTupleAdjusted, rfl,
        List.ne_nil_of_length_pos (by omega)⟩
      rw [List.length_take]
      omega

/-- What is taken of a column is the beginning of its value in the key. -/
theorem segmentField_eq {iidxseg : Nat} {idxseg : IDXSEG} {pbField : Option (List Byte)}
    (hmin : pidb.fTuples = true → 0 < pidb.cchTuplesLengthMin)
    (h : segmentField pidb ichOffset cbDataMost iidxseg (lineRec idxseg.columnid (rgitag iidxseg)) =
      .ok pbField) :
    pbField = (keyColumn pidb lineRec rgitag ichOffset cbDataMost iidxseg idxseg).map
      (·.take cbDataMost) := by
  unfold segmentField at h
  unfold keyColumn
  dsimp only
  split at h
  · next htuple =>
    rw [if_pos htuple, h]
    obtain ⟨tuple, rfl, -, hlen, -⟩ :=
      tupleField_spec (fun _ _ => length_dataField_le) (hmin htuple.1) h
    rw [Option.map_some, List.take_of_length_le hlen]
  · next htuple =>
    rw [if_neg htuple, ← dataField_eq]
    cases h
    rfl

/-! ## The loop -/

/-- The key buffer when the segments so far are `full`. -/
structure Built (pidb : IDB) (full : List Byte) (s : KeyState) : Prop where
  pbSegCur : s.pbSegCur = full.take pidb.cbKeyMost
  cbKeyAvail : s.cbKeyAvail = pidb.cbKeyMost - full.length
  fColumnTruncated : s.fColumnTruncated = true → pidb.cbKeyMost < full.length
  fKeyTruncated : s.fKeyTruncated = true → pidb.cbKeyMost < full.length
  fNeedMoreData : s.fNeedMoreData = false

/-- A segment that is appended to a key with room. -/
theorem Built.append {full rgbSeg seg : List Byte} {fDescending : Bool} {s₀ s s' : KeyState}
    (happend : appendSegment pidb fDescending rgbSeg s = .ok s') (h : Built pidb full s₀)
    (hroom : full.length < pidb.cbKeyMost) (hcur : s.pbSegCur = s₀.pbSegCur)
      (havail : s.cbKeyAvail = s₀.cbKeyAvail)
    (hkey : s.fKeyTruncated = s₀.fKeyTruncated) (hmore : s.fNeedMoreData = false)
    (hseg : rgbSeg.take s.cbKeyAvail = seg.take s.cbKeyAvail)
    (hexact : s.fColumnTruncated = true → rgbSeg.length = s.cbKeyAvail)
    (htrunc : s.fColumnTruncated = true ∨ s.cbKeyAvail < rgbSeg.length ↔
      s.cbKeyAvail < seg.length) :
    Built pidb (full ++ flip fDescending seg) s' := by
  rw [h.pbSegCur] at hcur
  rw [h.cbKeyAvail] at havail
  have hfits : s.fKeyTruncated = false := by
    rw [hkey]
    cases htr : s₀.fKeyTruncated with
    | false => rfl
    | true => exact absurd (h.fKeyTruncated htr) (by omega)
  unfold appendSegment at happend
  rw [hfits, if_neg (by decide)] at happend
  dsimp only at happend
  split at happend
  · cases happend
  · have hwritten : (if s.fColumnTruncated = true then rgbSeg else rgbSeg.take s.cbKeyAvail)
        = seg.take s.cbKeyAvail := by
      rw [← hseg]
      split
      · next hc =>
        rw [List.take_of_length_le (Nat.le_of_eq (hexact hc))]
      · rfl
    rw [hwritten] at happend
    cases happend
    have hlen : (full ++ flip fDescending seg).length = full.length + seg.length := by
      rw [List.length_append, length_flip]
    refine ⟨?_, ?_, fun hc => ?_, fun hc => ?_, hmore⟩
    · dsimp only
      rw [hcur, List.take_of_length_le (Nat.le_of_lt hroom), List.take_append,
        List.take_of_length_le (Nat.le_of_lt hroom), flip_take, havail]
    · dsimp only
      rw [List.length_take, hlen, havail]
      omega
    · have := htrunc.1 (Or.inl hc)
      rw [hlen]
      omega
    · have hc' : s.fColumnTruncated = true ∨ rgbSeg.length > s.cbKeyAvail := of_decide_eq_true hc
      have := htrunc.1 hc'
      rw [hlen]
      omega

/-- The segment of a column that is normalized and appended to a key with room. -/
theorem Built.normalize {idxseg : IDXSEG} {full : List Byte} {value : Option (List Byte)}
    {s s' : KeyState}
    (hmac : 0 < pidb.cbVarSegMacT) (hmost : pidb.cbKeyMost ≤ cbDataMost)
    (hroom : cbOfColtyp (ptdb idxseg.columnid).coltyp < pidb.cbKeyMost)
    (hholds : ∀ pbField ∈ value, fRECBinaryColumn (ptdb idxseg.columnid).coltyp = false →
      pbField.length = cbOfColtyp (ptdb idxseg.columnid).coltyp)
    (h : Built pidb full s) (havail : 0 < s.cbKeyAvail)
    (happend : appendSegment pidb idxseg.fDescending
      (normalizeSegment pidb (ptdb idxseg.columnid) (fCOLUMNIDFixed idxseg.columnid) s.cbKeyAvail
        (value.map (·.take cbDataMost))).1
      { s with
        fColumnTruncated := s.fColumnTruncated ∨ (normalizeSegment pidb (ptdb idxseg.columnid)
          (fCOLUMNIDFixed idxseg.columnid) s.cbKeyAvail (value.map (·.take cbDataMost))).2
        fNeedMoreData := s.fNeedMoreData ∨
          decide ((((value.map (·.take cbDataMost)).map List.length).getD 0 = cbDataMost) ∧
            (normalizeSegment pidb (ptdb idxseg.columnid)
              (fCOLUMNIDFixed idxseg.columnid) s.cbKeyAvail
              (value.map (·.take cbDataMost))).1.length < pidb.cbKeyMost ∧
            (normalizeSegment pidb (ptdb idxseg.columnid)
              (fCOLUMNIDFixed idxseg.columnid) s.cbKeyAvail
              (value.map (·.take cbDataMost))).1.length < s.cbKeyAvail ∧
            (normalizeSegment pidb (ptdb idxseg.columnid)
              (fCOLUMNIDFixed idxseg.columnid) s.cbKeyAvail
              (value.map (·.take cbDataMost))).1.length < pidb.cbVarSegMac ∧
            pidb.cbKeyMost ≠ JET_cbKeyMost_OLD) } = .ok s') :
    Built pidb (full ++ keySegment pidb ptdb idxseg value) s' := by
  have havailEq := h.cbKeyAvail
  have hle : s.cbKeyAvail ≤ pidb.cbKeyMost := by omega
  have hfits : s.fColumnTruncated = false := by
    cases htr : s.fColumnTruncated with
    | false => rfl
    | true => exact absurd (h.fColumnTruncated htr) (by omega)
  generalize hfield : ptdb idxseg.columnid = field at hroom hholds happend
  generalize hfixed : fCOLUMNIDFixed idxseg.columnid = fFixedField at happend
  obtain ⟨hseg, hexact, htrunc⟩ :
      (normalizeSegment pidb field fFixedField s.cbKeyAvail (value.map (·.take cbDataMost))).1.take
        s.cbKeyAvail
        = (segment pidb field fFixedField value).take s.cbKeyAvail ∧ _ ∧ _ :=
    normalizeSegment_eq hmac havail hle hmost hroom hholds
  have henough : ¬(((value.map (·.take cbDataMost)).map List.length).getD 0 = cbDataMost ∧
      (normalizeSegment pidb field fFixedField s.cbKeyAvail
      (value.map (·.take cbDataMost))).1.length < s.cbKeyAvail ∧
      (normalizeSegment pidb field fFixedField s.cbKeyAvail
        (value.map (·.take cbDataMost))).1.length
        < pidb.cbVarSegMac) :=
    not_fNeedMoreData hmac havail hmost hle hroom hholds
  rw [keySegment, hfield, hfixed]
  generalize normalizeSegment pidb field fFixedField s.cbKeyAvail (value.map (·.take cbDataMost)) =
    norm
    at hseg hexact htrunc henough happend
  have htruncated : decide (s.fColumnTruncated = true ∨ norm.2 = true) = norm.2 := by
    rw [hfits]
    simp
  rw [htruncated] at happend
  refine Built.append happend h (by omega) rfl rfl rfl ?_ hseg hexact htrunc
  dsimp only
  rw [h.fNeedMoreData, decide_eq_false_iff_not]
  rintro (hc | hc)
  · cases hc
  · obtain ⟨hall, -, hlen, hlimit, -⟩ := of_decide_eq_true hc
    exact henough ⟨hall, hlen, hlimit⟩

/-- A segment after the key is full. -/
theorem Built.full {full seg : List Byte} {s s' : KeyState} (h : Built pidb full s)
    (havail : s.cbKeyAvail = 0)
    (hpos : 0 < seg.length) (hcur : s'.pbSegCur = s.pbSegCur)
    (havail' : s'.cbKeyAvail = s.cbKeyAvail)
    (hmore : s'.fNeedMoreData = s.fNeedMoreData) : Built pidb (full ++ seg) s' := by
  have hfull : pidb.cbKeyMost ≤ full.length := by
    have := h.cbKeyAvail
    omega
  have hlen : pidb.cbKeyMost < (full ++ seg).length := by
    rw [List.length_append]
    omega
  refine ⟨?_, by omega, fun _ => hlen, fun _ => hlen, hmore.trans h.fNeedMoreData⟩
  rw [hcur, h.pbSegCur, List.take_append_of_le_length hfull]

section
variable (hvalid : pidb.Valid ptdb) (hrecord : ValidRecord pidb ptdb lineRec)
    (hmost : pidb.cbKeyMost ≤ cbDataMost)
include hvalid hrecord hmost

/-- One turn of the loop appends the segment of its column. -/
theorem retrieveSegment_spec {iidxseg : Nat} {idxseg : IDXSEG} {full : List Byte} {s s' : KeyState}
    (hmem : idxseg ∈ pidb.rgidxseg) (hfirst : iidxseg = 0 → pidb.rgidxseg.head? = some idxseg)
    (hbuilt : Built pidb full s)
    (h : retrieveSegment pidb ptdb lineRec rgitag ichOffset cbDataMost iidxseg idxseg s = .ok s') :
    Built pidb (full ++ keySegment pidb ptdb idxseg
      (keyColumn pidb lineRec rgitag ichOffset cbDataMost iidxseg idxseg)) s' := by
  unfold retrieveSegment at h
  dsimp only at h
  obtain ⟨s₀, hs₀, hbuilt₀⟩ : ∃ s₀, s₀ = (if fCOLUMNIDTagged idxseg.columnid = true then
      { s with fAllMVOutOfValues := s.fAllMVOutOfValues ∧ rgitag iidxseg > 1 ∧
          lineRec idxseg.columnid (rgitag iidxseg) = .Null }
    else s) ∧ Built pidb full s₀ := by
    refine ⟨_, rfl, ?_⟩
    split
    · exact ⟨hbuilt.pbSegCur, hbuilt.cbKeyAvail, hbuilt.fColumnTruncated, hbuilt.fKeyTruncated,
        hbuilt.fNeedMoreData⟩
    · exact hbuilt
  rw [← hs₀] at h
  clear hs₀ hbuilt s
  have hmac := hvalid.cbVarSegMacT_pos
  split at h
  · next hempty =>
    have hpos : 0 < (keySegment pidb ptdb idxseg
        (keyColumn pidb lineRec rgitag ichOffset cbDataMost iidxseg idxseg)).length :=
      length_keySegment_pos hmac idxseg _
    split at h
    · cases h
    · split at h
      · split at h
        · cases h
        · cases h
          exact hbuilt₀.full hempty hpos rfl rfl rfl
      · cases h
        exact hbuilt₀.full hempty hpos rfl rfl rfl
  · next hroom =>
    split at h
    · cases h
    · cases hfield : segmentField pidb ichOffset cbDataMost iidxseg
          (lineRec idxseg.columnid (rgitag iidxseg)) with
      | error err =>
        rw [hfield] at h
        cases h
      | ok pbField =>
        rw [hfield] at h
        have hcolumn := segmentField_eq (fun ht => (hvalid.tupleLimits ht).1) hfield
        have hholds : ∀ value ∈ keyColumn pidb lineRec rgitag ichOffset cbDataMost iidxseg idxseg,
            fRECBinaryColumn (ptdb idxseg.columnid).coltyp = false →
              value.length = cbOfColtyp (ptdb idxseg.columnid).coltyp := by
          intro value hvalue hbin
          unfold keyColumn at hvalue
          dsimp only at hvalue
          split at hvalue
          · next htuple =>
            rw [hvalid.tupleData htuple.1 idxseg (hfirst htuple.2)] at hbin
            cases hbin
          · exact (hrecord idxseg hmem _ value hvalue).1 hbin
        subst hcolumn
        refine Built.normalize hmac hmost (hvalid.room idxseg hmem) hholds ?_ ?_ h
        · split
          · exact ⟨hbuilt₀.pbSegCur, hbuilt₀.cbKeyAvail, hbuilt₀.fColumnTruncated,
              hbuilt₀.fKeyTruncated,
              hbuilt₀.fNeedMoreData⟩
          · exact ⟨hbuilt₀.pbSegCur, hbuilt₀.cbKeyAvail, hbuilt₀.fColumnTruncated,
              hbuilt₀.fKeyTruncated,
              hbuilt₀.fNeedMoreData⟩
        · split <;> exact Nat.pos_of_ne_zero hroom

/-- The loop appends the segments of its columns. -/
theorem retrieveSegments_spec {iidxseg : Nat} {rgidxseg : List IDXSEG} {full : List Byte}
    {s s' : KeyState}
    (hmem : ∀ idxseg ∈ rgidxseg, idxseg ∈ pidb.rgidxseg)
    (hfirst : iidxseg = 0 → pidb.rgidxseg.head? = rgidxseg.head?) (hbuilt : Built pidb full s)
    (h : retrieveSegments pidb ptdb lineRec rgitag ichOffset cbDataMost iidxseg rgidxseg s =
      .ok s') :
    Built pidb (full ++ wholeKey pidb ptdb
      (keyColumns pidb lineRec rgitag ichOffset cbDataMost iidxseg rgidxseg)) s' := by
  induction rgidxseg generalizing iidxseg full s with
  | nil =>
    cases h
    rw [keyColumns, wholeKey_nil, List.append_nil]
    exact hbuilt
  | cons idxseg rgidxseg ih =>
    rw [retrieveSegments] at h
    cases hseg : retrieveSegment pidb ptdb lineRec rgitag ichOffset cbDataMost iidxseg idxseg s with
    | error err =>
      rw [hseg] at h
      cases h
    | ok s₁ =>
      rw [hseg] at h
      have hone :=
        retrieveSegment_spec hvalid hrecord hmost (hmem idxseg List.mem_cons_self) hfirst hbuilt
        hseg
      rw [keyColumns, wholeKey_cons, ← List.append_assoc]
      exact ih (fun idxseg h => hmem idxseg (List.mem_cons_of_mem _ h))
        (fun h0 => absurd h0 (Nat.succ_ne_zero _)) hone h

/-- The key of a record is the whole key up to `cbKeyMost`, and no more data is needed for it. -/
theorem errRECIIRetrieveKey_spec {r : RetrievedKey}
    (h : errRECIIRetrieveKey pidb ptdb lineRec rgitag ichOffset cbDataMost = .ok r) :
    r.key = (wholeKey pidb ptdb
        (keyColumns pidb lineRec rgitag ichOffset cbDataMost 0 pidb.rgidxseg)).take pidb.cbKeyMost ∧
      r.fNeedMoreData = false := by
  have hinit : Built pidb [] (.init pidb) :=
    ⟨List.take_nil.symm, rfl, fun hc => absurd hc Bool.false_ne_true, fun hc =>
      absurd hc Bool.false_ne_true, rfl⟩
  unfold errRECIIRetrieveKey at h
  cases hloop : retrieveSegments pidb ptdb lineRec rgitag ichOffset cbDataMost 0 pidb.rgidxseg
    (.init pidb) with
  | error err =>
    rw [hloop] at h
    split at h
    · cases h
    · cases h
  | ok s =>
    rw [hloop] at h
    have hbuilt := retrieveSegments_spec hvalid hrecord hmost (fun _ hmem => hmem)
      (fun _ => rfl) hinit hloop
    rw [List.nil_append] at hbuilt
    split at h
    · cases h
    · dsimp only [bind, Except.bind, pure, Except.pure] at h
      split at h
      · cases h
      · cases h
        exact ⟨hbuilt.pbSegCur, hbuilt.fNeedMoreData⟩

/-- The first turn of the loop gives the key of a record, for the data it takes is as long as a
key. -/
theorem errRECIRetrieveKey_spec {n : Nat} {r : RetrievedKey}
    (h : errRECIRetrieveKey pidb ptdb lineRec rgitag ichOffset n cbDataMost = some (.ok r)) :
    errRECIIRetrieveKey pidb ptdb lineRec rgitag ichOffset cbDataMost = .ok r := by
  cases n with
  | zero => cases h
  | succ n =>
    rw [errRECIRetrieveKey] at h
    cases hkey : errRECIIRetrieveKey pidb ptdb lineRec rgitag ichOffset cbDataMost with
    | error err =>
      rw [hkey] at h
      cases h
    | ok r' =>
      rw [hkey] at h
      dsimp only at h
      rw [(errRECIIRetrieveKey_spec hvalid hrecord hmost hkey).2, if_neg Bool.false_ne_true] at h
      cases h
      rfl

end

/-- A segment in a key with room has column data. -/
theorem segmentField_of_retrieveSegment {iidxseg : Nat} {idxseg : IDXSEG} {s s' : KeyState}
    (hroom : s.cbKeyAvail ≠ 0)
    (h : retrieveSegment pidb ptdb lineRec rgitag ichOffset cbDataMost iidxseg idxseg s = .ok s') :
    ∃ pbField, segmentField pidb ichOffset cbDataMost iidxseg
      (lineRec idxseg.columnid (rgitag iidxseg)) = .ok pbField := by
  unfold retrieveSegment at h
  dsimp only at h
  obtain ⟨s₀, hs₀, hroom₀⟩ : ∃ s₀, s₀ = (if fCOLUMNIDTagged idxseg.columnid = true then
      { s with fAllMVOutOfValues := s.fAllMVOutOfValues ∧ rgitag iidxseg > 1 ∧
          lineRec idxseg.columnid (rgitag iidxseg) = .Null }
    else s) ∧ s₀.cbKeyAvail ≠ 0 := by
    refine ⟨_, rfl, ?_⟩
    split <;> exact hroom
  rw [← hs₀, if_neg hroom₀] at h
  split at h
  · cases h
  · cases hfield : segmentField pidb ichOffset cbDataMost iidxseg
        (lineRec idxseg.columnid (rgitag iidxseg)) with
    | error err =>
      rw [hfield] at h
      cases h
    | ok pbField => exact ⟨pbField, rfl⟩

/-- A record with a key in a tuple index has a tuple, which is part of the column value. -/
theorem tuple_of_errRECIIRetrieveKey {idxseg : IDXSEG} {rgidxseg : List IDXSEG} {r : RetrievedKey}
    (hvalid : pidb.Valid ptdb) (htuples : pidb.fTuples = true)
    (hidxseg : pidb.rgidxseg = idxseg :: rgidxseg)
    (h : errRECIIRetrieveKey pidb ptdb lineRec rgitag ichOffset cbDataMost = .ok r) :
    ∃ tuple value, keyColumn pidb lineRec rgitag ichOffset cbDataMost 0 idxseg = some tuple ∧
      tuple ≠ [] ∧
      (lineRec idxseg.columnid (rgitag 0)).value = some value ∧ value ≠ [] := by
  have hmin := (hvalid.tupleLimits htuples).1
  obtain ⟨s, hfirst⟩ : ∃ s, retrieveSegment pidb ptdb lineRec rgitag ichOffset cbDataMost 0 idxseg
    (.init pidb) = .ok s := by
    unfold errRECIIRetrieveKey at h
    rw [hidxseg, retrieveSegments] at h
    cases hseg : retrieveSegment pidb ptdb lineRec rgitag ichOffset cbDataMost 0 idxseg
      (.init pidb) with
    | error err =>
      rw [hseg] at h
      split at h <;> cases h
    | ok s => exact ⟨s, rfl⟩
  obtain ⟨pbField, hfield⟩ :=
    segmentField_of_retrieveSegment (Nat.ne_of_gt hvalid.cbKeyMost_pos) hfirst
  rw [segmentField, if_pos ⟨htuples, rfl⟩] at hfield
  obtain ⟨tuple, rfl, hne, -, data, fTupleAdjusted, hdata, hdataNe⟩ :=
    tupleField_spec (fun _ _ => length_dataField_le) hmin hfield
  obtain ⟨value, hvalue, hvalueNe⟩ := value_of_dataField hdata hdataNe
  have hcolumn : keyColumn pidb lineRec rgitag ichOffset cbDataMost 0 idxseg = some tuple := by
    unfold keyColumn
    dsimp only
    rw [if_pos ⟨htuples, rfl⟩, hfield]
  exact ⟨tuple, value, hcolumn, hne, hvalue, hvalueNe⟩

end Ese.Norm
