import Ese.Norm.Start

/-!
# Limit keys

A call with a limit option makes a key below or above those of all rows that have the column. Both
keys begin alike: with what is left of the segment of the column when, for a partial limit, all
behind its data is taken off. The key of the end limit has a run of `0xff` after that
(`makeLimitKey_spec`).
-/

namespace Ese.Norm

/-! ## The end of the data in a segment -/

theorem binaryChunks_spec (fEntire : Bool) (cChunks ib : Nat) {pbField : List Byte}
    (h : pbField ≠ [])
    (hle : 9 * cChunks ≤ (chunks pbField).length) :
    (binaryChunks fEntire cChunks ib pbField).1.length = 9 * cChunks ∧
      (8 * cChunks < pbField.length →
      (binaryChunks fEntire cChunks ib pbField).2 = (pbField.drop (8 * cChunks), 0)) ∧
      (pbField.length ≤ 8 * cChunks →
        (binaryChunks fEntire cChunks ib pbField).2.2 = ib + pbField.length + (pbField.length - 1) /
          8) := by
  have hpos := List.length_pos_of_ne_nil h
  rw [length_chunks h] at hle
  induction cChunks generalizing ib pbField with
  | zero =>
    refine ⟨rfl, fun _ => rfl, fun hall => ?_⟩
    omega
  | succ cChunks ih =>
    rw [binaryChunks]
    dsimp only
    by_cases hlast : pbField.length ≤ 8
    · obtain rfl : cChunks = 0 := by omega
      rw [if_pos (show pbField.length ≤ cbFLDBinaryChunk from hlast)]
      refine ⟨?_, fun hmore => ?_, fun _ => ?_⟩
      · dsimp only [binaryChunks]
        rw [List.append_nil]
        split
        · next h8 =>
          have h8 : pbField.length = 8 := h8
          rw [List.length_append, h8]
          rfl
        · rw [List.length_append, List.length_append, List.length_replicate, cbFLDBinaryChunk,
            List.length_singleton]
          omega
      · omega
      · rw [show (pbField.length - 1) / 8 = 0 by omega]
        rfl
    · have hne : pbField.drop 8 ≠ [] := by
        rw [ne_eq, List.drop_eq_nil_iff]
        exact hlast
      have hlen : (pbField.drop 8).length = pbField.length - 8 := List.length_drop
      obtain ⟨hlength, hrest, hend⟩ :=
        ih (ib + cbFLDBinaryChunkNormalized) hne (by rw [hlen]; omega)
        (List.length_pos_of_ne_nil hne)
      rw [hlen] at hrest hend
      rw [if_neg (show ¬ pbField.length ≤ cbFLDBinaryChunk from hlast)]
      have h8 : cbFLDBinaryChunk = 8 := rfl
      have h9 : cbFLDBinaryChunkNormalized = 9 := rfl
      rw [h9] at hlength hrest hend
      rw [h8, h9]
      refine ⟨?_, fun hmore => ?_, fun hall => ?_⟩
      · rw [List.length_append, hlength, List.length_append, List.length_take,
          List.length_singleton]
        omega
      · dsimp only
        rw [show 8 * (cChunks + 1) = 8 + 8 * cChunks by omega, ← List.drop_drop]
        exact hrest (by omega)
      · dsimp only
        rw [hend (by omega)]
        omega

/-- The normalization finds the end of the data if that is in the segment, and not at its very
end. -/
theorem ibBinaryColumnDelimiter_eq (pidb : IDB) {pbField : List Byte} {cbKeyAvail : Nat}
    (h : pbField ≠ [])
    (havail : 0 < cbKeyAvail) (hmac : 0 < pidb.cbVarSegMacT) :
    (fldNormalizeBinarySegment pbField cbKeyAvail pidb.cbKeyMost pidb.cbVarSegMacT
      false).ibBinaryColumnDelimiter
      = if dataEnd pbField < ((cut pidb (binarySegment pbField false)).take cbKeyAvail).length
        then dataEnd pbField
        else 0 := by
  have hpos := List.length_pos_of_ne_nil h
  have hchunks := length_chunks h
  have hseg : (binarySegment pbField false).length = (pbField.length + 7) / 8 * 9 + 1 := by
    rw [binarySegment, List.length_cons, if_neg Bool.false_ne_true, hchunks]
  rw [List.length_take, length_cut, hseg]
  have hcount : (pbField.length + (cbFLDBinaryChunk - 1)) / cbFLDBinaryChunk *
      cbFLDBinaryChunkNormalized + 1
      = (pbField.length + 7) / 8 * 9 + 1 := rfl
  unfold fldNormalizeBinarySegment
  simp only [if_neg Bool.false_ne_true, hcount]
  generalize hcbSeg : (if pidb.cbVarSegMacT < pidb.cbKeyMost ∧ (pbField.length + 7) / 8 * 9 + 1 >
    pidb.cbVarSegMacT then
    pidb.cbVarSegMacT else (pbField.length + 7) / 8 * 9 + 1) = cbSeg
  have hle : 0 < cbSeg ∧ cbSeg ≤ (pbField.length + 7) / 8 * 9 + 1 := by
    rw [← hcbSeg]
    split <;> omega
  have hmin : (if cbSeg > cbKeyAvail then cbKeyAvail else cbSeg) = min cbKeyAvail cbSeg := by
    split <;> omega
  obtain ⟨m, hm⟩ := Nat.exists_eq_add_of_le (show 1 ≤ min cbKeyAvail cbSeg by omega)
  rw [hmin, hm, Nat.add_sub_cancel_left]
  generalize decide ((decide ¬ (pidb.cbVarSegMacT < pidb.cbKeyMost ∧
    (pbField.length + 7) / 8 * 9 + 1 > pidb.cbVarSegMacT))
    = true ∧ ¬ cbSeg > cbKeyAvail) = fEntire
  have h9 : cbFLDBinaryChunkNormalized = 9 := rfl
  rw [h9]
  obtain ⟨hlength, hmore, hall⟩ := binaryChunks_spec fEntire (m / 9) 1 h (by omega)
  unfold dataEnd
  rcases Nat.lt_or_ge (8 * (m / 9)) pbField.length with hlt | hge
  · have hrest := hmore hlt
    have hdelimiter : (binaryChunks fEntire (m / 9) 1 pbField).2.2 = 0 := by rw [hrest]
    have hnext : (binaryChunks fEntire (m / 9) 1 pbField).2.1.length =
      pbField.length - 8 * (m / 9) := by
      rw [hrest, List.length_drop]
    rw [hnext]
    split
    · split
      · rw [hdelimiter, if_neg (by omega)]
      · dsimp only
        rw [hlength, if_pos (by omega)]
        omega
    · rw [hdelimiter, if_neg (by omega)]
  · have hend := hall hge
    rw [if_neg (show ¬ m % 9 > 0 by omega), hend, if_pos (by omega)]

/-! ## The limit of a segment -/

/-- The first half of `ErrFLDNormalizeSegment`: the segment of the column, not yet complemented,
whether it has been cut for space, and where a partial limit begins. -/
def normalizeColumn (pidb : IDB) (plineColumn : Option (List Byte)) (coltyp : JET_COLTYP)
    (cbAvail : Nat)
    (fFixedField fTupleField fKeyDataZeroLength : Bool) : Except ERR (List Byte × Bool × Nat) :=
  if plineColumn.getD [] = [] then
    if fTupleField then throw .JET_errIndexTuplesKeyTooSmall
    else if fKeyDataZeroLength ∧ (fFixedField ∨ ¬ fRECBinaryColumn coltyp)
      then throw .JET_errInvalidBufferSize
    else pure (fldNormalizeNullSegment coltyp fKeyDataZeroLength pidb.fSortNullsHigh, false, 0)
  else
    let pbColumn := plineColumn.getD []
    if fRECBinaryColumn coltyp then
      let seg :=
        fldNormalizeBinarySegment pbColumn cbAvail pidb.cbKeyMost pidb.cbVarSegMacT fFixedField
      pure (seg.rgbSeg, seg.fColumnTruncated, seg.ibBinaryColumnDelimiter)
    else
      let rgbSeg := fldNormalizeFixedSegment pbColumn coltyp pidb.fDotNetGuid
      pure (rgbSeg.take cbAvail, decide (rgbSeg.length > cbAvail), 0)

namespace LimitOption

/-- The limit is above the rows. -/
def fEnd : LimitOption → Bool
  | FullColumnStartLimit | PartialColumnStartLimit => false
  | FullColumnEndLimit | PartialColumnEndLimit => true

def fPartial : LimitOption → Bool
  | FullColumnStartLimit | FullColumnEndLimit => false
  | PartialColumnStartLimit | PartialColumnEndLimit => true

end LimitOption

/-- The second half with a limit option. -/
def setLimit (opt : LimitOption) (lineNorm : List Byte) (cbAvail ibBinaryColumnDelimiter : Nat) :
    List Byte :=
  if opt.fPartial then
    fldITrySetPartialColumnLimitOnBinaryColumn lineNorm (cbAvail + 1) ibBinaryColumnDelimiter
      opt.fEnd
  else fldISetFullColumnLimit lineNorm (cbAvail + 1) opt.fEnd

/-- The grbit of the call for the last column, with a limit option. -/
def limitGrbit (fNewKey : Bool) (value : Option (List Byte)) (opt : LimitOption) : GRBIT :=
  { searchGrbit fNewKey value with limitOptions := some opt }

section
variable {pidb : IDB} {plineColumn : Option (List Byte)} {coltyp : JET_COLTYP} {cbAvail : Nat}
  {fDescending fFixedField fTupleField fNewKey : Bool} {value : Option (List Byte)}
  {opt : LimitOption}

theorem normalizeColumn_of_errFLDNormalizeSegment {seg : NormalizedSegment}
    (h : errFLDNormalizeSegment pidb plineColumn coltyp cbAvail fDescending fFixedField fTupleField
      (searchGrbit fNewKey value) = .ok seg) :
    ∃ lineNorm ibBinaryColumnDelimiter, seg.lineNorm = flip fDescending lineNorm ∧
      normalizeColumn pidb plineColumn coltyp cbAvail fFixedField fTupleField
        (searchGrbit fNewKey value).fKeyDataZeroLength
        = .ok (lineNorm, seg.fTooBig, ibBinaryColumnDelimiter) := by
  have hhalves : errFLDNormalizeSegment pidb plineColumn coltyp cbAvail fDescending fFixedField
        fTupleField
        (searchGrbit fNewKey value)
      = (normalizeColumn pidb plineColumn coltyp cbAvail fFixedField fTupleField
          (searchGrbit fNewKey value).fKeyDataZeroLength).bind
        fun seg => .ok ⟨flip fDescending seg.1, seg.2.1, false⟩ := by
    unfold errFLDNormalizeSegment normalizeColumn
    have hstr : ¬(searchGrbit fNewKey value).fStrLimit = true := Bool.false_ne_true
    simp only [if_neg hstr]
    split_ifs <;> rfl
  rw [hhalves] at h
  cases hcolumn : normalizeColumn pidb plineColumn coltyp cbAvail fFixedField fTupleField
      (searchGrbit fNewKey value).fKeyDataZeroLength with
  | error err =>
    rw [hcolumn] at h
    cases h
  | ok column =>
    rw [hcolumn] at h
    cases h
    exact ⟨column.1, column.2.2, rfl, rfl⟩

theorem errFLDNormalizeSegment_limit {lineNorm : List Byte} {fTooBig : Bool}
    {ibBinaryColumnDelimiter : Nat}
    (h : normalizeColumn pidb plineColumn coltyp cbAvail fFixedField fTupleField
      (searchGrbit fNewKey value).fKeyDataZeroLength =
        .ok (lineNorm, fTooBig, ibBinaryColumnDelimiter)) :
    errFLDNormalizeSegment pidb plineColumn coltyp cbAvail fDescending fFixedField fTupleField
      (limitGrbit fNewKey value opt)
      = .ok ⟨setLimit opt (flip fDescending lineNorm) cbAvail ibBinaryColumnDelimiter, fTooBig,
        true⟩ := by
  have hhalves : errFLDNormalizeSegment pidb plineColumn coltyp cbAvail fDescending fFixedField
        fTupleField
        (limitGrbit fNewKey value opt)
      = (normalizeColumn pidb plineColumn coltyp cbAvail fFixedField fTupleField
          (searchGrbit fNewKey value).fKeyDataZeroLength).bind
        fun seg => .ok ⟨setLimit opt (flip fDescending seg.1) cbAvail seg.2.2, seg.2.1, true⟩ := by
    unfold errFLDNormalizeSegment normalizeColumn
    have hstr : ¬(limitGrbit fNewKey value opt).fStrLimit = true := Bool.false_ne_true
    have hzero : (limitGrbit fNewKey value opt).fKeyDataZeroLength =
      (searchGrbit fNewKey value).fKeyDataZeroLength := rfl
    simp only [if_neg hstr, hzero]
    split_ifs <;> cases opt <;> rfl
  rw [hhalves, h]
  rfl

/-- A partial limit of a variable column begins at the end of its data. -/
theorem ibBinaryColumnDelimiter_of_normalizeColumn {lineNorm : List Byte}
    {fTooBig fKeyDataZeroLength : Bool}
    {ibBinaryColumnDelimiter : Nat} (hbin : fRECBinaryColumn coltyp = true) (havail : 0 < cbAvail)
    (hmac : 0 < pidb.cbVarSegMacT)
    (h : normalizeColumn pidb plineColumn coltyp cbAvail false fTupleField fKeyDataZeroLength
      = .ok (lineNorm, fTooBig, ibBinaryColumnDelimiter)) :
    ibBinaryColumnDelimiter
      = if dataEnd (plineColumn.getD []) < lineNorm.length then dataEnd (plineColumn.getD [])
        else 0 := by
  unfold normalizeColumn at h
  by_cases hempty : plineColumn.getD [] = []
  · rw [if_pos hempty] at h
    split_ifs at h
    cases h
    rw [hempty, length_fldNormalizeNullSegment]
    rfl
  · rw [if_neg hempty, if_pos hbin] at h
    cases h
    rw [ibBinaryColumnDelimiter_eq pidb hempty havail hmac,
      (fldNormalizeBinarySegment_eq pidb hempty havail hmac false).1]

end

/-! ## Limit keys -/

/-- The keys of the two limits of one kind: `rgb`, and `rgb` with a run of sentinels after it. -/
structure Limit where
  rgb : List Byte
  cbSentinel : Nat
  deriving DecidableEq, Repr

def Limit.key (limit : Limit) (fEnd : Bool) : List Byte :=
  if fEnd then limit.rgb ++ List.replicate limit.cbSentinel bSentinel else limit.rgb

section
variable (pidb : IDB) (ptdb : TDB)

/-- The full limit after the segments `full`: a sentinel behind the key space makes it the greatest
key that begins so. A key that is full already has none. -/
def fullLimit (full : List Byte) (idxseg : IDXSEG) (value : Option (List Byte)) : Limit :=
  let rgb := (full ++ keySegment pidb ptdb idxseg value).take pidb.cbKeyMost
  ⟨rgb, if full.length < pidb.cbKeyMost then pidb.cbKeyMost + 1 - rgb.length else 0⟩

/-- The partial limit: sentinels from the end of the data up to one behind the segment. -/
def partialLimit (full : List Byte) (idxseg : IDXSEG) (value : Option (List Byte)) : Limit :=
  let cbSeg := min (pidb.cbKeyMost - full.length) (keySegment pidb ptdb idxseg value).length
  let ib := dataEnd (value.getD [])
  if ib < cbSeg then ⟨full ++ (keySegment pidb ptdb idxseg value).take ib, cbSeg + 1 - ib⟩
  else fullLimit pidb ptdb full idxseg value

def limitOf (full : List Byte) (idxseg : IDXSEG) (value : Option (List Byte)) (fPartial : Bool) :
    Limit :=
  if fPartial then partialLimit pidb ptdb full idxseg value
  else fullLimit pidb ptdb full idxseg value

/-- `ErrIsamMakeKey` for the leading columns, then with a limit option for the last one that is
specified. -/
def makeLimitKey (values : List (Option (List Byte))) (value : Option (List Byte))
    (opt : LimitOption) (pfucb : FUCB) :
    Except ERR FUCB := do
  let pfucb ← makeKeys pidb ptdb true values pfucb
  errIsamMakeKey pidb ptdb (value.getD []) (limitGrbit values.isEmpty value opt) pfucb

end

section
variable {pidb : IDB} {ptdb : TDB} {idxseg : IDXSEG} {n : Nat} {full : List Byte}
    {value : Option (List Byte)}
  {pfucb : FUCB} {fNewKey : Bool} {opt : LimitOption}

/-- The limit that is set on the segment, behind the key so far. -/
theorem setLimit_eq (hroom : full.length < pidb.cbKeyMost) :
    full ++ setLimit opt ((keySegment pidb ptdb idxseg value).take (pidb.cbKeyMost - full.length))
        (pidb.cbKeyMost - full.length)
        (if dataEnd (value.getD []) < min (pidb.cbKeyMost - full.length)
          (keySegment pidb ptdb idxseg value).length then
          dataEnd (value.getD []) else 0)
      = (limitOf pidb ptdb full idxseg value opt.fPartial).key opt.fEnd := by
  generalize hseg : keySegment pidb ptdb idxseg value = rgbSeg
  have hrgb : full ++ rgbSeg.take (pidb.cbKeyMost - full.length) =
    (full ++ rgbSeg).take pidb.cbKeyMost := by
    rw [List.take_append, List.take_of_length_le (Nat.le_of_lt hroom)]
  have hlen : ((full ++ rgbSeg).take pidb.cbKeyMost).length
      = full.length + min (pidb.cbKeyMost - full.length) rgbSeg.length := by
    rw [← hrgb, List.length_append, List.length_take]
  have hfull : ∀ fEnd, full ++ fldISetFullColumnLimit (rgbSeg.take (pidb.cbKeyMost - full.length))
      (pidb.cbKeyMost - full.length + 1) fEnd = (fullLimit pidb ptdb full idxseg value).key
        fEnd := by
    intro fEnd
    unfold fldISetFullColumnLimit Limit.key fullLimit
    dsimp only
    rw [hseg, if_pos hroom, hlen, List.length_take]
    split
    · rw [← List.append_assoc, hrgb]
      congr 2
      omega
    · exact hrgb
  have hpos : 0 < dataEnd (value.getD []) := by
    unfold dataEnd
    omega
  unfold setLimit limitOf
  cases opt.fPartial with
  | false =>
    rw [if_neg Bool.false_ne_true, if_neg Bool.false_ne_true]
    exact hfull _
  | true =>
    rw [if_pos rfl, if_pos rfl, fldITrySetPartialColumnLimitOnBinaryColumn, partialLimit, hseg]
    by_cases hend : dataEnd (value.getD []) < min (pidb.cbKeyMost - full.length) rgbSeg.length
    · rw [if_pos hend, if_pos hend, if_neg (Nat.ne_of_gt hpos), List.take_take,
        Nat.min_eq_left (by omega), Limit.key,
        List.length_take]
      dsimp only
      split
      · rw [List.append_assoc]
      · rfl
    · rw [if_neg hend, if_neg hend, if_pos rfl]
      exact hfull _

/-- A key that is full has no limit. -/
theorem limitOf_of_full (hfull : pidb.cbKeyMost ≤ full.length) (fPartial : Bool) :
    limitOf pidb ptdb full idxseg value fPartial = ⟨full.take pidb.cbKeyMost, 0⟩ := by
  have hlimit : fullLimit pidb ptdb full idxseg value = ⟨full.take pidb.cbKeyMost, 0⟩ := by
    unfold fullLimit
    dsimp only
    rw [List.take_append_of_le_length hfull, if_neg (Nat.not_lt.2 hfull)]
  unfold limitOf
  split
  · unfold partialLimit
    dsimp only
    rw [Nat.sub_eq_zero_of_le hfull, Nat.zero_min, if_neg (Nat.not_lt_zero _), hlimit]
  · exact hlimit

/-- Of a value the call may take no more than a key has, which makes no difference to where its data
ends in the key. -/
theorem dataEnd_take (pbField : List Byte) {cbKeyMost cbSeg : Nat} (hle : cbSeg ≤ cbKeyMost) :
    (if dataEnd (if cbKeyMost = JET_cbKeyMost_OLD then pbField.take JET_cbKeyMost_OLD
      else pbField) < cbSeg then
        dataEnd (if cbKeyMost = JET_cbKeyMost_OLD then pbField.take JET_cbKeyMost_OLD else pbField)
          else 0)
      = if dataEnd pbField < cbSeg then dataEnd pbField else 0 := by
  by_cases hold : cbKeyMost = JET_cbKeyMost_OLD
  · rw [if_pos hold]
    rcases Nat.le_total pbField.length JET_cbKeyMost_OLD with hshort | hlong
    · rw [List.take_of_length_le hshort]
    · have hlen : (pbField.take JET_cbKeyMost_OLD).length = JET_cbKeyMost_OLD := by
        rw [List.length_take, Nat.min_eq_left hlong]
      unfold dataEnd
      rw [hlen, if_neg (by omega), if_neg (by omega)]
  · rw [if_neg hold]

/-- The column that can be passed can be passed with the option: a partial limit is for variable
binary columns. -/
def LimitOption.Allowed (ptdb : TDB) (opt : LimitOption) (idxseg : IDXSEG) : Prop :=
  opt.fPartial = true → fCOLUMNIDFixed idxseg.columnid = false ∧
    fRECBinaryColumn (ptdb idxseg.columnid).coltyp = true

/-- The segment with its limit that a call makes goes behind the key so far. -/
theorem makeSegment_limit (hvalid : pidb.Valid ptdb) (hidxseg : pidb.rgidxseg[n]? = some idxseg)
    (hpassed : Passed pidb ptdb n idxseg value) (hallowed : opt.Allowed ptdb idxseg)
    (hkey : pfucb.dataSearchKey = full.take pidb.cbKeyMost) (hn : pfucb.cColumnsInSearchKey = n)
    (hbig : pfucb.fKSTooBig = true → pidb.cbKeyMost ≤ full.length) :
    ∃ seg, makeSegment pidb ptdb (value.getD []) (limitGrbit fNewKey value opt) pfucb idxseg =
      .ok seg ∧
      full.take pidb.cbKeyMost ++ seg.lineNorm =
        (limitOf pidb ptdb full idxseg value opt.fPartial).key opt.fEnd := by
  have hfixed : ¬(fCOLUMNIDFixed idxseg.columnid = true ∧ (value.getD []).length > 0 ∧
      (value.getD []).length ≠ (ptdb idxseg.columnid).cbMaxLen) := by
    rintro ⟨hfixed, hpos, hne⟩
    cases value with
    | none => exact absurd hpos (Nat.lt_irrefl 0)
    | some pbField => exact hne ((hpassed.holds pbField rfl).2 hfixed).1
  have hlimit : ¬(((limitGrbit fNewKey value opt).limitOptions = some .PartialColumnStartLimit ∨
      (limitGrbit fNewKey value opt).limitOptions = some .PartialColumnEndLimit) ∧
      (fCOLUMNIDFixed idxseg.columnid = true ∨
        ¬fRECBinaryColumn (ptdb idxseg.columnid).coltyp = true)) := by
    rintro ⟨hopt, hcolumn⟩
    have hpart : opt.fPartial = true := by
      rcases hopt with hopt | hopt
      · rw [Option.some.inj hopt]
        rfl
      · rw [Option.some.inj hopt]
        rfl
    obtain ⟨hvar, hbin⟩ := hallowed hpart
    rw [hvar, hbin] at hcolumn
    exact hcolumn.elim Bool.false_ne_true fun h => h rfl
  have hlen : pfucb.dataSearchKey.length = min pidb.cbKeyMost full.length := by
    rw [hkey, List.length_take]
  unfold makeSegment
  dsimp only
  rw [if_neg hfixed, if_neg hlimit]
  by_cases hroom : full.length < pidb.cbKeyMost
  · have hroom' : ¬pfucb.fKSTooBig = true ∧ pfucb.dataSearchKey.length < pidb.cbKeyMost :=
      ⟨fun h => absurd (hbig h) (by omega), by omega⟩
    have havail : pidb.cbKeyMost - pfucb.dataSearchKey.length = pidb.cbKeyMost - full.length := by
      omega
    rw [if_pos hroom', havail, hn, List.take_of_length_le (Nat.le_of_lt hroom), ← setLimit_eq hroom]
    obtain ⟨fTooBig, hseg, -⟩ := errFLDNormalizeSegment_spec hvalid hpassed
      (show 0 < pidb.cbKeyMost - full.length by omega) (by omega)
      (hvalid.room idxseg (List.mem_of_getElem? hidxseg)) fNewKey
    obtain ⟨lineNorm, ib, hline, hcolumn⟩ := normalizeColumn_of_errFLDNormalizeSegment hseg
    dsimp only at hline
    refine ⟨_, errFLDNormalizeSegment_limit hcolumn, ?_⟩
    dsimp only
    rw [hline]
    have hlength : lineNorm.length = min (pidb.cbKeyMost - full.length)
      (keySegment pidb ptdb idxseg value).length := by
      rw [← length_flip idxseg.fDescending lineNorm, ← hline, List.length_take]
    cases hpart : opt.fPartial with
    | false =>
      unfold setLimit
      rw [if_neg (by rw [hpart]; exact Bool.false_ne_true),
        if_neg (by rw [hpart]; exact Bool.false_ne_true)]
    | true =>
      obtain ⟨hvar, hbin⟩ := hallowed hpart
      rw [hvar] at hcolumn
      have hib :=
        ibBinaryColumnDelimiter_of_normalizeColumn hbin (by omega) hvalid.cbVarSegMacT_pos hcolumn
      have hcolumn : (if (value.getD []).length ≠ 0 ∨
        (searchGrbit fNewKey value).fKeyDataZeroLength = true then
            some (if pidb.cbKeyMost = JET_cbKeyMost_OLD then (value.getD []).take JET_cbKeyMost_OLD
              else value.getD [])
          else none).getD []
          = if pidb.cbKeyMost = JET_cbKeyMost_OLD then (value.getD []).take JET_cbKeyMost_OLD
            else value.getD [] := by
        split
        · rfl
        · next hnone =>
          have hempty : value.getD [] = [] := List.eq_nil_of_length_eq_zero (by
            by_contra hne
            exact hnone (.inl hne))
          rw [hempty]
          split <;> rfl
      rw [hib, hcolumn, hlength, dataEnd_take _ (by omega)]
  · have hroom' : ¬(¬pfucb.fKSTooBig = true ∧ pfucb.dataSearchKey.length < pidb.cbKeyMost) := by
      rintro ⟨-, h⟩
      omega
    rw [if_neg hroom']
    refine ⟨_, rfl, ?_⟩
    rw [limitOf_of_full (Nat.not_lt.1 hroom), List.append_nil, Limit.key, List.replicate_zero,
      List.append_nil, ite_self]

/-- A limit key has at most one byte more than a key. -/
theorem length_limit_key_le (full : List Byte) (idxseg : IDXSEG) (value : Option (List Byte))
    (opt : LimitOption) :
    ((limitOf pidb ptdb full idxseg value opt.fPartial).key opt.fEnd).length ≤
      pidb.cbKeyMost + 1 := by
  have hend : ∀ (limit : Limit), limit.rgb.length + limit.cbSentinel ≤ pidb.cbKeyMost + 1 →
      (limit.key opt.fEnd).length ≤ pidb.cbKeyMost + 1 := by
    intro limit hle
    unfold Limit.key
    split
    · rw [List.length_append, List.length_replicate]
      exact hle
    · omega
  apply hend
  have hfull : (fullLimit pidb ptdb full idxseg value).rgb.length +
      (fullLimit pidb ptdb full idxseg value).cbSentinel
      ≤ pidb.cbKeyMost + 1 := by
    unfold fullLimit
    dsimp only
    have hle := List.length_take_le pidb.cbKeyMost (full ++ keySegment pidb ptdb idxseg value)
    split <;> omega
  unfold limitOf
  split
  · unfold partialLimit
    dsimp only
    split
    · dsimp only
      rw [List.length_append, List.length_take]
      omega
    · exact hfull
  · exact hfull

/-- The keys that are made with the limit options. -/
theorem makeLimitKey_spec (hvalid : pidb.Valid ptdb) {columns : List (IDXSEG × Option (List Byte))}
    (hcolumns : columns.map Prod.fst <+: pidb.rgidxseg)
    (hidxseg : pidb.rgidxseg[columns.length]? = some idxseg)
    (hleading : ∀ i, ∀ column ∈ columns[i]?, Passed pidb ptdb i column.1 column.2)
    (hpassed : Passed pidb ptdb columns.length idxseg value) (hallowed : opt.Allowed ptdb idxseg)
      (pfucb : FUCB) :
    ∃ pfucb', makeLimitKey pidb ptdb (columns.map Prod.snd) value opt pfucb = .ok pfucb' ∧
      pfucb'.dataSearchKey =
        (limitOf pidb ptdb (wholeKey pidb ptdb columns) idxseg value opt.fPartial).key
        opt.fEnd := by
  -- the leading columns, if there are any, start the key
  obtain ⟨pfucb₁, hmake, hstart⟩ : ∃ pfucb₁, makeKeys pidb ptdb true (columns.map Prod.snd) pfucb =
      .ok pfucb₁ ∧
      if (columns.map Prod.snd).isEmpty then wholeKey pidb ptdb columns = [] ∧ columns.length = 0
      else Searched pidb (wholeKey pidb ptdb columns) columns.length pfucb₁ := by
    cases columns with
    | nil => exact ⟨pfucb, rfl, rfl, rfl⟩
    | cons column columns =>
      obtain ⟨pfucb₁, hmake, hsearched⟩ :
          ∃ pfucb₁, makeKeys pidb ptdb true ((column :: columns).map Prod.snd) pfucb = .ok pfucb₁ ∧
          Searched pidb ([] ++ wholeKey pidb ptdb (column :: columns))
            (0 + (column :: columns).length) pfucb₁ :=
        makeKeys_spec hvalid (by rwa [List.drop_zero]) (by simpa using hleading)
          ⟨rfl, rfl, List.cons_ne_nil column columns⟩
      rw [List.nil_append, Nat.zero_add] at hsearched
      exact ⟨pfucb₁, hmake, hsearched⟩
  unfold makeLimitKey
  rw [hmake]
  dsimp only [bind, Except.bind]
  generalize (columns.map Prod.snd).isEmpty = fNewKey at hstart
  obtain ⟨pfucb₂, hstarted, hkey, hn, hbig, -⟩ : ∃ pfucb₂,
      startKey pidb (searchGrbit fNewKey value) pfucb₁ = .ok pfucb₂ ∧ _ := startKey_spec hstart
  obtain ⟨seg, hseg, hline⟩ : ∃ seg, makeSegment pidb ptdb (value.getD [])
      (limitGrbit fNewKey value opt) pfucb₂ idxseg
      = .ok seg ∧ _ := makeSegment_limit hvalid hidxseg hpassed hallowed hkey hn hbig
  have hnorm : ¬(limitGrbit fNewKey value opt).fNormalizedKey = true := Bool.false_ne_true
  have hstarted : startKey pidb (limitGrbit fNewKey value opt) pfucb₁ = .ok pfucb₂ := hstarted
  unfold errIsamMakeKey
  rw [if_neg hnorm, hstarted]
  dsimp only [bind, Except.bind]
  rw [hn, hidxseg]
  dsimp only
  rw [hseg]
  refine ⟨_, rfl, ?_⟩
  have hlength : ((limitOf pidb ptdb (wholeKey pidb ptdb columns) idxseg value opt.fPartial).key
      opt.fEnd).length
      ≤ pidb.cbKeyMost + 1 := length_limit_key_le _ _ _ _
  have hfits : seg.lineNorm.length ≤ cbLimitKeyMost pidb.cbKeyMost - pfucb₂.dataSearchKey.length :=
    by
    rw [← hline, ← hkey, List.length_append] at hlength
    unfold cbLimitKeyMost
    omega
  dsimp only
  rw [List.take_of_length_le hfits, hkey, hline]

end

end Ese.Norm
