import Ese.Norm.Order

/-!
# The key of a search is the key of a record

A search key that is made from all the column values of a record, one call a column, is the whole
key of these values up to `cbKeyMost`. So it is the key of the record, unless the first column of a
tuple index is passed where the record's key has only its tuple.
-/

namespace Ese.Norm

/-- The grbit of a call that passes the value of a column, the first call with `JET_bitNewKey`. No
placeholder is put in for the first column, which is passed too. -/
def searchGrbit (fNewKey : Bool) (value : Option (List Byte)) : GRBIT where
  fNewKey := fNewKey
  fKeyDataZeroLength := value = some []
  fNormalizedKey := false
  fKeyOverridePrimaryIndexPlaceholder := fNewKey
  fStrLimit := false
  limitOptions := none

section
variable (pidb : IDB) (ptdb : TDB)

/-- `ErrIsamMakeKey` for one column value after the other. -/
def makeKeys : Bool → List (Option (List Byte)) → FUCB → Except ERR FUCB
  | _, [], pfucb => pure pfucb
  | fNewKey, value :: values, pfucb => do
    let pfucb ← errIsamMakeKey pidb ptdb (value.getD []) (searchGrbit fNewKey value) pfucb
    makeKeys false values pfucb

/-- The cursor when the columns so far, `n` of them, have the segments `full`. -/
structure Searched (full : List Byte) (n : Nat) (pfucb : FUCB) : Prop where
  dataSearchKey : pfucb.dataSearchKey = full.take pidb.cbKeyMost
  cColumnsInSearchKey : pfucb.cColumnsInSearchKey = n
  fKSPrepared : pfucb.fKSPrepared = true
  fKSTooBig : pfucb.fKSTooBig = true → pidb.cbKeyMost ≤ full.length
  fKSLimit : pfucb.fKSLimit = false

/-- A column value that can be passed: the first of a tuple index is not empty. -/
structure Passed (iidxseg : Nat) (idxseg : IDXSEG) (value : Option (List Byte)) : Prop where
  holds : ∀ pbField ∈ value, (ptdb idxseg.columnid).Holds (fCOLUMNIDFixed idxseg.columnid) pbField
  tuple : pidb.fTuples = true → iidxseg = 0 → ∃ pbField, value = some pbField ∧ pbField ≠ []

end

variable {pidb : IDB} {ptdb : TDB}

/-- The segment of a column value in the space left. -/
theorem errFLDNormalizeSegment_spec {idxseg : IDXSEG} {iidxseg cbAvail : Nat}
    {value : Option (List Byte)}
    (hvalid : pidb.Valid ptdb) (hpassed : Passed pidb ptdb iidxseg idxseg value)
    (havail : 0 < cbAvail)
    (hle : cbAvail ≤ pidb.cbKeyMost) (hroom : cbOfColtyp (ptdb idxseg.columnid).coltyp <
      pidb.cbKeyMost)
    (fNewKey : Bool) :
    ∃ fTooBig, errFLDNormalizeSegment pidb
        (if (value.getD []).length ≠ 0 ∨ (searchGrbit fNewKey value).fKeyDataZeroLength = true then
          some (if pidb.cbKeyMost = JET_cbKeyMost_OLD then (value.getD []).take JET_cbKeyMost_OLD
            else value.getD [])
        else none)
        (ptdb idxseg.columnid).coltyp cbAvail idxseg.fDescending (fCOLUMNIDFixed idxseg.columnid)
        (decide (iidxseg = 0 ∧ pidb.fTuples = true)) (searchGrbit fNewKey value)
      = .ok ⟨(keySegment pidb ptdb idxseg value).take cbAvail, fTooBig, false⟩ ∧
      (fTooBig = true → cbAvail ≤ (keySegment pidb ptdb idxseg value).length) := by
  have hmac := hvalid.cbVarSegMacT_pos
  unfold errFLDNormalizeSegment
  rw [keySegment, ← flip_take, length_flip]
  cases value with
  | none =>
    have htuple : ¬(iidxseg = 0 ∧ pidb.fTuples = true) := by
      rintro ⟨hfirst, htuples⟩
      obtain ⟨pbField, hsome, -⟩ := hpassed.tuple htuples hfirst
      cases hsome
    refine ⟨false, ?_, fun h => absurd h Bool.false_ne_true⟩
    have hnull : (segment pidb (ptdb idxseg.columnid) (fCOLUMNIDFixed idxseg.columnid) none).take
        cbAvail
        = fldNormalizeNullSegment (ptdb idxseg.columnid).coltyp false pidb.fSortNullsHigh := by
      rw [segment, List.take_of_length_le (by rw [length_fldNormalizeNullSegment]; exact havail)]
    rw [hnull]
    simp [searchGrbit, htuple]
    rfl
  | some pbField =>
    have hholds := hpassed.holds pbField rfl
    by_cases hempty : pbField = []
    · subst hempty
      have hfixed : fCOLUMNIDFixed idxseg.columnid = false :=
        Bool.eq_false_iff.2 fun hfixed => (hholds.2 hfixed).2 rfl
      have hbin : fRECBinaryColumn (ptdb idxseg.columnid).coltyp = true := by
        rw [← Bool.not_eq_false]
        exact fun hbin => hholds.ne_nil hbin rfl
      have htuple : ¬(iidxseg = 0 ∧ pidb.fTuples = true) := by
        rintro ⟨hfirst, htuples⟩
        obtain ⟨pbField, hsome, hne⟩ := hpassed.tuple htuples hfirst
        exact hne (Option.some.inj hsome).symm
      refine ⟨false, ?_, fun h => absurd h Bool.false_ne_true⟩
      have hzero : (segment pidb (ptdb idxseg.columnid) (fCOLUMNIDFixed idxseg.columnid)
          (some [])).take cbAvail
          = fldNormalizeNullSegment (ptdb idxseg.columnid).coltyp true pidb.fSortNullsHigh := by
        rw [segment, if_pos rfl, List.take_of_length_le
          (by rw [length_fldNormalizeNullSegment]; exact havail)]
      rw [hzero]
      simp [searchGrbit, htuple, hfixed, hbin]
      rfl
    · have hlen : (pbField.length ≠ 0) := fun h => hempty (List.eq_nil_of_length_eq_zero h)
      -- of a long value only the start counts
      obtain ⟨line, hline, hlineNe, hstart⟩ : ∃ line,
          (if pidb.cbKeyMost = JET_cbKeyMost_OLD then pbField.take JET_cbKeyMost_OLD else pbField) =
            line ∧
            line ≠ [] ∧ (line = pbField ∨ line = pbField.take pidb.cbKeyMost) := by
        refine ⟨_, rfl, ?_, ?_⟩
        · split
          · rw [ne_eq, List.take_eq_nil_iff]
            rintro (h | h)
            · exact absurd h (by decide)
            · exact hempty h
          · exact hempty
        · split
          · next hold => exact Or.inr (by rw [hold])
          · exact Or.inl rfl
      rw [Option.getD_some, hline, if_pos (Or.inl hlen), Option.getD_some, if_neg hlineNe, segment,
        if_neg hempty]
      cases hbin : fRECBinaryColumn (ptdb idxseg.columnid).coltyp with
      | true =>
        obtain ⟨hseg, htrunc⟩ := fldNormalizeBinarySegment_eq pidb hlineNe havail hmac
          (fCOLUMNIDFixed idxseg.columnid)
        obtain ⟨hbegin, hcut⟩ :
              (cut pidb (binarySegment line (fCOLUMNIDFixed idxseg.columnid))).take cbAvail
              = (cut pidb (binarySegment pbField (fCOLUMNIDFixed idxseg.columnid))).take cbAvail ∧
            (cbAvail < (cut pidb (binarySegment line (fCOLUMNIDFixed idxseg.columnid))).length
              ↔ cbAvail < (cut pidb
                (binarySegment pbField (fCOLUMNIDFixed idxseg.columnid))).length) := by
          rcases hstart with rfl | rfl
          · exact ⟨rfl, Iff.rfl⟩
          · exact cut_binarySegment_take pidb hempty hle le_rfl (by omega) _
        refine ⟨(fldNormalizeBinarySegment line cbAvail pidb.cbKeyMost pidb.cbVarSegMacT
            (fCOLUMNIDFixed idxseg.columnid)).fColumnTruncated, ?_, fun h => ?_⟩
        · rw [if_pos rfl, if_pos rfl, ← hbegin, ← hseg]
          rfl
        · rw [htrunc, decide_eq_true_eq, hcut] at h
          exact Nat.le_of_lt h
      | false =>
        have hsize := hholds.1 hbin
        have hsame : line = pbField := by
          rcases hstart with rfl | rfl
          · rfl
          · rw [List.take_of_length_le (by omega)]
        subst hsame
        refine ⟨decide ((fldNormalizeFixedSegment line
          (ptdb idxseg.columnid).coltyp pidb.fDotNetGuid).length > cbAvail),
          ?_, fun h => ?_⟩
        · rw [if_neg Bool.false_ne_true, if_neg Bool.false_ne_true]
          rfl
        · exact Nat.le_of_lt (of_decide_eq_true h)

section
variable {idxseg : IDXSEG} {n : Nat} {full : List Byte} {value : Option (List Byte)} {pfucb : FUCB}
    {fNewKey : Bool}
  (hvalid : pidb.Valid ptdb) (hidxseg : pidb.rgidxseg[n]? = some idxseg)
  (hpassed : Passed pidb ptdb n idxseg value)

/-- The key starts anew or goes on, without a placeholder. -/
theorem startKey_spec (h : if fNewKey then full = [] ∧ n = 0 else Searched pidb full n pfucb) :
    ∃ pfucb', startKey pidb (searchGrbit fNewKey value) pfucb = .ok pfucb' ∧
      pfucb'.dataSearchKey = full.take pidb.cbKeyMost ∧ pfucb'.cColumnsInSearchKey = n ∧
      (pfucb'.fKSTooBig = true → pidb.cbKeyMost ≤ full.length) ∧ pfucb'.fKSLimit = false := by
  unfold startKey searchGrbit
  cases fNewKey with
  | true =>
    obtain ⟨rfl, rfl⟩ := h
    refine ⟨⟨[], 0, false, false, false⟩, ?_, List.take_nil.symm, rfl, fun h =>
      absurd h Bool.false_ne_true, rfl⟩
    simp
    rfl
  | false =>
    refine ⟨pfucb, ?_, h.dataSearchKey, h.cColumnsInSearchKey, h.fKSTooBig, h.fKSLimit⟩
    simp [h.fKSLimit, h.fKSPrepared]
    rfl

include hvalid hidxseg hpassed

/-- The segment of a call is what fits of the segment of its column. -/
theorem makeSegment_spec (hkey : pfucb.dataSearchKey = full.take pidb.cbKeyMost)
    (hn : pfucb.cColumnsInSearchKey = n)
    (hbig : pfucb.fKSTooBig = true → pidb.cbKeyMost ≤ full.length) :
    ∃ fTooBig, makeSegment pidb ptdb (value.getD []) (searchGrbit fNewKey value) pfucb idxseg
        = .ok ⟨(keySegment pidb ptdb idxseg value).take (pidb.cbKeyMost - full.length), fTooBig,
        false⟩ ∧
      (fTooBig = true → pidb.cbKeyMost ≤ (full ++ keySegment pidb ptdb idxseg value).length) := by
  have hfixed : ¬(fCOLUMNIDFixed idxseg.columnid = true ∧ (value.getD []).length > 0 ∧
      (value.getD []).length ≠ (ptdb idxseg.columnid).cbMaxLen) := by
    rintro ⟨hfixed, hpos, hne⟩
    cases value with
    | none => exact absurd hpos (Nat.lt_irrefl 0)
    | some pbField => exact hne ((hpassed.holds pbField rfl).2 hfixed).1
  have hlimit : ¬(((searchGrbit fNewKey value).limitOptions = some .PartialColumnStartLimit ∨
      (searchGrbit fNewKey value).limitOptions = some .PartialColumnEndLimit) ∧
      (fCOLUMNIDFixed idxseg.columnid = true ∨
        ¬fRECBinaryColumn (ptdb idxseg.columnid).coltyp = true)) := by
    rintro ⟨h | h, -⟩ <;> cases h
  have hmem : idxseg ∈ pidb.rgidxseg := List.mem_of_getElem? hidxseg
  have hlen : pfucb.dataSearchKey.length = min pidb.cbKeyMost full.length := by
    rw [hkey, List.length_take]
  unfold makeSegment
  dsimp only
  rw [if_neg hfixed, if_neg hlimit]
  by_cases hroom : full.length < pidb.cbKeyMost
  · have hroom' : ¬pfucb.fKSTooBig = true ∧ pfucb.dataSearchKey.length < pidb.cbKeyMost :=
      ⟨fun h => absurd (hbig h) (by omega), by omega⟩
    obtain ⟨fTooBig, hseg, htrunc⟩ := errFLDNormalizeSegment_spec hvalid hpassed
      (show 0 < pidb.cbKeyMost - full.length by omega) (by omega) (hvalid.room idxseg hmem) fNewKey
    refine ⟨fTooBig, ?_, fun h => ?_⟩
    · have havail : pidb.cbKeyMost - pfucb.dataSearchKey.length = pidb.cbKeyMost - full.length := by
        omega
      rw [if_pos hroom', havail, hn, ← hseg]
    · have := htrunc h
      rw [List.length_append]
      omega
  · have hroom' : ¬(¬pfucb.fKSTooBig = true ∧ pfucb.dataSearchKey.length < pidb.cbKeyMost) := by
      rintro ⟨-, h⟩
      omega
    refine ⟨false, ?_, fun h => absurd h Bool.false_ne_true⟩
    rw [if_neg hroom', show pidb.cbKeyMost - full.length = 0 by omega, List.take_zero]
    rfl

/-- A call appends the segment of its column. -/
theorem errIsamMakeKey_spec (h : if fNewKey then full = [] ∧
    n = 0 else Searched pidb full n pfucb) :
    ∃ pfucb', errIsamMakeKey pidb ptdb (value.getD []) (searchGrbit fNewKey value) pfucb =
      .ok pfucb' ∧
      Searched pidb (full ++ keySegment pidb ptdb idxseg value) (n + 1) pfucb' := by
  obtain ⟨pfucb₁, hstart, hkey, hn, hbig, hlimit⟩ : ∃ pfucb₁,
      startKey pidb (searchGrbit fNewKey value) pfucb = .ok pfucb₁ ∧ _ := startKey_spec h
  obtain ⟨fTooBig, hseg, htrunc⟩ : ∃ fTooBig,
      makeSegment pidb ptdb (value.getD []) (searchGrbit fNewKey value) pfucb₁ idxseg =
        .ok ⟨_, fTooBig, false⟩ ∧ _ :=
    makeSegment_spec hvalid hidxseg hpassed hkey hn hbig
  have hnorm : ¬(searchGrbit fNewKey value).fNormalizedKey = true := Bool.false_ne_true
  unfold errIsamMakeKey
  rw [if_neg hnorm, hstart]
  dsimp only [bind, Except.bind]
  rw [hn, hidxseg]
  dsimp only
  rw [hseg]
  refine ⟨_, rfl, ⟨?_, rfl, rfl, fun h => ?_, ?_⟩⟩
  · dsimp only
    have hlen : pfucb₁.dataSearchKey.length = min pidb.cbKeyMost full.length := by
      rw [hkey, List.length_take]
    rw [List.take_take, Nat.min_eq_right (by unfold cbLimitKeyMost; omega), hkey, List.take_append]
  · dsimp only at h
    rcases of_decide_eq_true h with hbefore | hnow
    · have := hbig hbefore
      rw [List.length_append]
      omega
    · exact htrunc hnow
  · dsimp only
    rw [hlimit]
    rfl

end

/-- The values of the columns from segment `n` on, passed one after the other. -/
theorem makeKeys_spec (hvalid : pidb.Valid ptdb) {columns : List (IDXSEG × Option (List Byte))}
    {n : Nat}
    {full : List Byte} {pfucb : FUCB} {fNewKey : Bool}
    (hcolumns : columns.map Prod.fst <+: pidb.rgidxseg.drop n)
    (hpassed : ∀ i, ∀ column ∈ columns[i]?, Passed pidb ptdb (n + i) column.1 column.2)
    (h : if fNewKey then full = [] ∧ n = 0 ∧ columns ≠ [] else Searched pidb full n pfucb) :
    ∃ pfucb', makeKeys pidb ptdb fNewKey (columns.map Prod.snd) pfucb = .ok pfucb' ∧
      Searched pidb (full ++ wholeKey pidb ptdb columns) (n + columns.length) pfucb' := by
  induction columns generalizing n full pfucb fNewKey with
  | nil =>
    cases fNewKey with
    | true => exact absurd rfl h.2.2
    | false => exact ⟨pfucb, rfl, by rw [wholeKey_nil, List.append_nil]; exact h⟩
  | cons column columns ih =>
    obtain ⟨rgidxsegRest, hcolumns⟩ := hcolumns
    have hidxseg : pidb.rgidxseg[n]? = some column.1 := by
      rw [← List.head?_drop, ← hcolumns]
      rfl
    have hstart : if fNewKey then full = [] ∧ n = 0 else Searched pidb full n pfucb := by
      cases fNewKey with
      | true => exact ⟨h.1, h.2.1⟩
      | false => exact h
    obtain ⟨pfucb₁, hone, hsearched⟩ :=
      errIsamMakeKey_spec hvalid hidxseg (hpassed 0 column rfl) hstart
    have hrest : columns.map Prod.fst <+: pidb.rgidxseg.drop (n + 1) := by
      rw [← List.tail_drop, ← hcolumns]
      exact List.prefix_append _ _
    have hpassed' : ∀ i, ∀ column ∈ columns[i]?, Passed pidb ptdb
      (n + 1 + i) column.1 column.2 := by
      intro i column' hcolumn'
      rw [show n + 1 + i = n + (i + 1) by omega]
      exact hpassed (i + 1) column' hcolumn'
    obtain ⟨pfucb', hmore, hdone⟩ : ∃ pfucb', makeKeys pidb ptdb false
        (columns.map Prod.snd) pfucb₁ = .ok pfucb' ∧
        Searched pidb (full ++ keySegment pidb ptdb column.1 column.2 ++ wholeKey pidb ptdb columns)
          (n + 1 + columns.length) pfucb' :=
      ih hrest hpassed' hsearched
    refine ⟨pfucb', ?_, ?_⟩
    · rw [List.map_cons, makeKeys, hone]
      exact hmore
    · rw [wholeKey_cons, ← List.append_assoc, List.length_cons, show n + (columns.length + 1) =
        n + 1 + columns.length by omega]
      exact hdone

/-! ## Search keys and record keys -/

section
variable (pidb : IDB) (ptdb : TDB) (lineRec : Record) (rgitag : Nat → Nat) (ichOffset : Nat)

/-- The columns of an index from segment `iidxseg` on, with the values the record has for them. -/
def recordColumns : Nat → List IDXSEG → List (IDXSEG × Option (List Byte))
  | _, [] => []
  | iidxseg, idxseg :: rgidxseg =>
    (idxseg, (lineRec idxseg.columnid (rgitag iidxseg)).value) :: recordColumns
      (iidxseg + 1) rgidxseg

/-- The index is no tuple index, or the value of its first column and the tuple of it have the same
segment as far as the key goes. A segment of fixed size has no end mark, so that what follows it
counts too. -/
def TupleAgrees : Prop :=
  pidb.fTuples = true → ∀ idxseg rgidxseg, pidb.rgidxseg = idxseg :: rgidxseg →
    let lineRest := if fCOLUMNIDFixed idxseg.columnid then wholeKey pidb ptdb
        (recordColumns lineRec rgitag 1 rgidxseg) else []
    (keySegment pidb ptdb idxseg (lineRec idxseg.columnid (rgitag 0)).value ++ lineRest).take
      pidb.cbKeyMost
      = (keySegment pidb ptdb idxseg
          (keyColumn pidb lineRec rgitag ichOffset pidb.cbKeyMost 0 idxseg)
          ++ lineRest).take pidb.cbKeyMost

end

variable {lineRec : Record} {rgitag : Nat → Nat} {ichOffset cbDataMost : Nat}

theorem keyColumns_eq {iidxseg : Nat} (h : pidb.fTuples = true → 0 < iidxseg)
    (rgidxseg : List IDXSEG) :
    keyColumns pidb lineRec rgitag ichOffset cbDataMost iidxseg rgidxseg
      = recordColumns lineRec rgitag iidxseg rgidxseg := by
  induction rgidxseg generalizing iidxseg with
  | nil => rfl
  | cons idxseg rgidxseg ih =>
    have hnot : ¬(pidb.fTuples = true ∧ iidxseg = 0) := fun hc => by
      have := h hc.1
      omega
    rw [keyColumns, recordColumns, ih fun _ => Nat.succ_pos _, keyColumn, if_neg hnot]

theorem recordColumns_map_fst (iidxseg : Nat) (rgidxseg : List IDXSEG) :
    (recordColumns lineRec rgitag iidxseg rgidxseg).map Prod.fst = rgidxseg := by
  induction rgidxseg generalizing iidxseg with
  | nil => rfl
  | cons idxseg rgidxseg ih => rw [recordColumns, List.map_cons, ih]

theorem recordColumns_getElem? {iidxseg i : Nat} {rgidxseg : List IDXSEG}
    {column : IDXSEG × Option (List Byte)}
    (h : (recordColumns lineRec rgitag iidxseg rgidxseg)[i]? = some column) :
    rgidxseg[i]? = some column.1 ∧
      column.2 = (lineRec column.1.columnid (rgitag (iidxseg + i))).value := by
  induction rgidxseg generalizing iidxseg i with
  | nil => cases h
  | cons idxseg rgidxseg ih =>
    rw [recordColumns] at h
    cases i with
    | zero =>
      cases h
      exact ⟨rfl, rfl⟩
    | succ i =>
      rw [show iidxseg + (i + 1) = iidxseg + 1 + i by omega]
      exact ih h

/-- What follows the first segment of a tuple index decides nothing, unless the column is fixed. -/
theorem tupleSegment_iff {idxseg : IDXSEG} {value tuple : List Byte}
    (hbin : fRECBinaryColumn (ptdb idxseg.columnid).coltyp = true)
    (hlimit : pidb.cbVarSegMac = pidb.cbKeyMost)
    (hfixed : fCOLUMNIDFixed idxseg.columnid = false) (hvalue : value ≠ []) (htuple : tuple ≠ [])
    (lineRest : List Byte) :
    (keySegment pidb ptdb idxseg (some value) ++ lineRest).take pidb.cbKeyMost
        = (keySegment pidb ptdb idxseg (some tuple) ++ lineRest).take pidb.cbKeyMost ↔
      (keySegment pidb ptdb idxseg (some value)).take pidb.cbKeyMost
        = (keySegment pidb ptdb idxseg (some tuple)).take pidb.cbKeyMost := by
  have hcut : ∀ rgbSeg, cut pidb rgbSeg = rgbSeg := by
    intro rgbSeg
    unfold cut IDB.cbVarSegMacT
    rw [if_pos hlimit.symm, if_neg (by omega)]
  have hseg : ∀ pbField, pbField ≠ [] → keySegment pidb ptdb idxseg (some pbField)
      = flip idxseg.fDescending (bPrefixData :: chunks pbField) := by
    intro pbField hne
    rw [keySegment, segment, if_neg hne, if_pos hbin, hcut, binarySegment, hfixed,
      if_neg Bool.false_ne_true]
  rw [hseg value hvalue, hseg tuple htuple]
  by_cases hsame : value = tuple
  · rw [hsame]
    exact ⟨fun _ => rfl, fun _ => rfl⟩
  · have hdiff : ∀ a b : List Byte, a < b →
        ((flip idxseg.fDescending (bPrefixData :: chunks a) ++ lineRest).take pidb.cbKeyMost
            = (flip idxseg.fDescending (bPrefixData :: chunks b) ++ lineRest).take pidb.cbKeyMost ↔
          (flip idxseg.fDescending (bPrefixData :: chunks a)).take pidb.cbKeyMost
            = (flip idxseg.fDescending (bPrefixData :: chunks b)).take pidb.cbKeyMost) := by
      intro a b hab
      have h := flip_diffLt ((chunks_diffLt hab).cons bPrefixData) idxseg.fDescending
      cases hdesc : idxseg.fDescending with
      | false =>
        rw [hdesc] at h
        exact DiffLt.take_append_eq_iff h lineRest _
      | true =>
        rw [hdesc] at h
        rw [eq_comm, DiffLt.take_append_eq_iff h lineRest _, eq_comm]
    rcases list_lt_or_gt (fun _ _ => byte_lt_or_gt) hsame with hlt | hgt
    · exact hdiff value tuple hlt
    · rw [eq_comm, hdiff tuple value hgt, eq_comm]

/-- A search key that is made of all the column values of a record is the key of the record exactly
when a tuple that the key has does not differ from the value within the key. -/
theorem makeKeys_eq_iff (hvalid : pidb.Valid ptdb) (hrecord : ValidRecord pidb ptdb lineRec)
    {n : Nat} {r : RetrievedKey}
    (h : errRECIRetrieveKey pidb ptdb lineRec rgitag ichOffset n pidb.cbKeyMost = some (.ok r))
      (pfucb : FUCB) :
    (∃ pfucb', makeKeys pidb ptdb true ((recordColumns lineRec rgitag 0 pidb.rgidxseg).map Prod.snd)
        pfucb = .ok pfucb' ∧
        pfucb'.dataSearchKey = r.key) ↔ TupleAgrees pidb ptdb lineRec rgitag ichOffset := by
  have hretrieve := errRECIRetrieveKey_spec hvalid hrecord (Nat.le_refl _) h
  have hkey := (errRECIIRetrieveKey_spec hvalid hrecord (Nat.le_refl _) hretrieve).1
  have hpassed : ∀ i, ∀ column ∈ (recordColumns lineRec rgitag 0 pidb.rgidxseg)[i]?,
      Passed pidb ptdb (0 + i) column.1 column.2 := by
    intro i column hcolumn
    obtain ⟨hidxseg, hvalue⟩ := recordColumns_getElem? hcolumn
    refine ⟨fun pbField hfield => ?_, fun htuples hfirst => ?_⟩
    · rw [hvalue] at hfield
      exact hrecord _ (List.mem_of_getElem? hidxseg) _ _ hfield
    · obtain rfl : i = 0 := by omega
      obtain ⟨idxseg, rgidxseg, hrg⟩ := List.exists_cons_of_ne_nil hvalid.rgidxseg_ne_nil
      rw [hrg] at hidxseg
      obtain rfl : idxseg = column.1 := Option.some.inj hidxseg
      obtain ⟨-, value, -, -, hsome, hne⟩ :=
        tuple_of_errRECIIRetrieveKey hvalid htuples hrg hretrieve
      exact ⟨value, hvalue.trans hsome, hne⟩
  have hne : recordColumns lineRec rgitag 0 pidb.rgidxseg ≠ [] := by
    intro hnil
    have hfst : (recordColumns lineRec rgitag 0 pidb.rgidxseg).map Prod.fst = pidb.rgidxseg :=
      recordColumns_map_fst 0 _
    rw [hnil] at hfst
    exact hvalid.rgidxseg_ne_nil hfst.symm
  obtain ⟨pfucb', hmake, hdone⟩ : ∃ pfucb',
      makeKeys pidb ptdb true ((recordColumns lineRec rgitag 0 pidb.rgidxseg).map Prod.snd) pfucb =
        .ok pfucb' ∧
        Searched pidb ([] ++ wholeKey pidb ptdb (recordColumns lineRec rgitag 0 pidb.rgidxseg)) _
          pfucb' :=
    makeKeys_spec hvalid (by rw [recordColumns_map_fst, List.drop_zero]) hpassed ⟨rfl, rfl, hne⟩
  have hboth : (∃ pfucb', makeKeys pidb ptdb true
        ((recordColumns lineRec rgitag 0 pidb.rgidxseg).map Prod.snd) pfucb
        = .ok pfucb' ∧ pfucb'.dataSearchKey = r.key) ↔
      (wholeKey pidb ptdb (recordColumns lineRec rgitag 0 pidb.rgidxseg)).take pidb.cbKeyMost
        = (wholeKey pidb ptdb
          (keyColumns pidb lineRec rgitag ichOffset pidb.cbKeyMost 0 pidb.rgidxseg)).take
          pidb.cbKeyMost := by
    have hsearch := hdone.dataSearchKey
    rw [List.nil_append] at hsearch
    rw [hmake, hkey, ← hsearch]
    constructor
    · rintro ⟨other, hother, heq⟩
      cases hother
      exact heq
    · exact fun heq => ⟨pfucb', rfl, heq⟩
  rw [hboth]
  cases htuples : pidb.fTuples with
  | false =>
    have hnot : ¬pidb.fTuples = true := by
      rw [htuples]
      exact Bool.false_ne_true
    rw [keyColumns_eq (fun hc => absurd hc hnot)]
    exact ⟨fun _ hc => absurd hc hnot, fun _ => rfl⟩
  | true =>
    obtain ⟨idxseg, rgidxseg, hrg⟩ := List.exists_cons_of_ne_nil hvalid.rgidxseg_ne_nil
    obtain ⟨tuple, value, htuple, htupleNe, hvalue, hvalueNe⟩ :=
      tuple_of_errRECIIRetrieveKey hvalid htuples hrg hretrieve
    have hagrees : TupleAgrees pidb ptdb lineRec rgitag ichOffset ↔
        (keySegment pidb ptdb idxseg (some value) ++
            (if fCOLUMNIDFixed idxseg.columnid then wholeKey pidb ptdb
              (recordColumns lineRec rgitag 1 rgidxseg)
              else [])).take pidb.cbKeyMost
          = (keySegment pidb ptdb idxseg (some tuple) ++
            (if fCOLUMNIDFixed idxseg.columnid then wholeKey pidb ptdb
              (recordColumns lineRec rgitag 1 rgidxseg)
              else [])).take pidb.cbKeyMost := by
      unfold TupleAgrees
      rw [hrg, ← hvalue, ← htuple]
      refine ⟨fun hc => hc htuples idxseg rgidxseg rfl, fun heq _ idxseg' rgidxseg' hcons => ?_⟩
      cases hcons
      exact heq
    rw [hagrees, hrg, recordColumns, keyColumns, wholeKey_cons, wholeKey_cons, htuple, hvalue,
      keyColumns_eq (fun _ => Nat.one_pos)]
    cases hfixed : fCOLUMNIDFixed idxseg.columnid with
    | true =>
      rw [if_pos rfl]
    | false =>
      have hbin : fRECBinaryColumn (ptdb idxseg.columnid).coltyp = true :=
        hvalid.tupleData htuples idxseg (by rw [hrg]; rfl)
      rw [if_neg Bool.false_ne_true, List.append_nil, List.append_nil]
      exact tupleSegment_iff hbin (hvalid.tupleLimits htuples).2 hfixed hvalueNe htupleNe _

/-- A tuple index over a binary column, with the default limits of tuples. -/
def exampleTupleIndex : IDB where
  cbKeyMost := 255
  cbVarSegMac := 255
  fSortNullsHigh := false
  fDotNetGuid := false
  fTuples := true
  cchTuplesLengthMin := 3
  cchTuplesLengthMax := 10
  fNestedTable := false
  fDisallowTruncation := false
  fHasPlaceholderColumn := false
  rgidxseg := [⟨⟨.Tagged, 256⟩, false, false⟩]
  rgidxsegConditional := []

def exampleTable : TDB := fun _ => ⟨.LongBinary, 0⟩

def exampleRecord (value : List Byte) : Record := fun _ _ => .wrnRECIntrinsicLV value

theorem exampleTupleIndex_valid : exampleTupleIndex.Valid exampleTable where
  rgidxseg_ne_nil := List.cons_ne_nil _ _
  cbVarSegMac_pos := by decide
  cbVarSegMac_le := by decide
  room := fun _ _ => show 0 < 255 by decide
  tupleData := fun _ _ _ => rfl
  tupleLimits := fun _ => ⟨by decide, rfl⟩

theorem exampleRecord_valid (value : List Byte) :
    ValidRecord exampleTupleIndex exampleTable (exampleRecord value) := by
  intro idxseg hidxseg itag other hother
  obtain rfl : idxseg = ⟨⟨.Tagged, 256⟩, false, false⟩ := List.mem_singleton.1 hidxseg
  exact ⟨fun h => absurd h (by decide), fun h => absurd h (by decide)⟩

/-- A value as long as its tuple makes the key of the record. -/
theorem makeKeys_eq_iff_ten :
    TupleAgrees exampleTupleIndex exampleTable (exampleRecord (List.replicate 10 1))
    (fun _ => 1) 0 :=
  (makeKeys_eq_iff exampleTupleIndex_valid (exampleRecord_valid _)
    (n := 1) (r := ⟨.JET_errSuccess,
      [0x7f, 1, 1, 1, 1, 1, 1, 1, 1, 9, 1, 1, 0, 0, 0, 0, 0, 0, 2],
      false⟩) rfl ⟨[], 0, false, false, false⟩).1
    ⟨_, rfl, rfl⟩

/-- A value of eleven bytes makes another key than the record has: a binary column is not cut to its
tuple. -/
theorem makeKeys_ne_record : ¬ ∀ (pidb : IDB) (ptdb : TDB) (lineRec : Record) (rgitag : Nat → Nat)
    (ichOffset n : Nat)
    (r : RetrievedKey), pidb.Valid ptdb → ValidRecord pidb ptdb lineRec →
    errRECIRetrieveKey pidb ptdb lineRec rgitag ichOffset n pidb.cbKeyMost = some (.ok r) →
    ∃ pfucb', makeKeys pidb ptdb true ((recordColumns lineRec rgitag 0 pidb.rgidxseg).map Prod.snd)
      ⟨[], 0, false, false, false⟩ = .ok pfucb' ∧ pfucb'.dataSearchKey = r.key := by
  intro hall
  obtain ⟨pfucb', hmake, hkey⟩ :=
    hall exampleTupleIndex exampleTable (exampleRecord (List.replicate 11 1)) (fun _ => 1) 0 1
    ⟨.JET_errSuccess, [0x7f, 1, 1, 1, 1, 1, 1, 1, 1, 9, 1, 1, 0, 0, 0, 0, 0, 0, 2], false⟩
    exampleTupleIndex_valid
    (exampleRecord_valid _) rfl
  obtain rfl : pfucb' = ⟨[0x7f, 1, 1, 1, 1, 1, 1, 1, 1, 9, 1, 1, 1, 0, 0, 0, 0, 0, 3], 1, true,
    false, false⟩ :=
    (Except.ok.inj hmake).symm
  exact absurd hkey (by decide)

end Ese.Norm
