import Ese.Norm.Limit

/-!
# What limit keys bracket

The keys between the full limits are those of the rows that have the specified columns. Between the
partial limits are the rows whose last specified column starts with the specified bytes, with
exceptions: zero bytes that end the specified data are the padding of shorter data, too, and where
`cbVarSegMac` cuts the last chunk a run of `0xff` in the key can go on past the sentinels. The tuple
of a fixed column can also be followed by bytes that stand for the rest of the column
(`brackets_limits_iff`).
-/

namespace Ese.Norm

/-! ## Keys between limits -/

section
variable {pidb : IDB} {ptdb : TDB} {columns rows : List (IDXSEG × Option (List Byte))}

/-- The key begins as the limits do and is not past the run of the end limit. -/
def Limit.Holds (limit : Limit) (key : List Byte) : Prop :=
  ∃ rgb, key = limit.rgb ++ rgb ∧ ¬ PastRun bSentinel limit.cbSentinel rgb

theorem Limit.holds_iff (limit : Limit) (key : List Byte) :
    limit.Holds key ↔ limit.key false ≤ key ∧ key ≤ limit.key true := by
  have htop : ∀ b : Byte, ¬ bSentinel < b := by
    intro b hlt
    rw [BitVec.lt_def] at hlt
    have hff : bSentinel.toNat = 255 := rfl
    have := b.isLt
    omega
  exact (between_iff (fun _ _ => byte_lt_or_gt) htop limit.cbSentinel).symm

/-- Of a key that is cut it holds if the key begins as the limits do, wherever it is cut. -/
theorem Limit.holds_take_iff {limit : Limit} {n : Nat} (hle : limit.rgb.length ≤ n)
    (key : List Byte) :
    limit.Holds (key.take n) ↔
      limit.rgb <+: key ∧ ¬ PastRun bSentinel limit.cbSentinel
        ((key.take n).drop limit.rgb.length) := by
  constructor
  · rintro ⟨rgb, heq, hnot⟩
    refine ⟨(List.prefix_append _ rgb).trans (heq ▸ List.take_prefix n key), ?_⟩
    rwa [heq, List.drop_left]
  · rintro ⟨⟨rest, rfl⟩, hnot⟩
    rw [List.take_append, List.take_of_length_le hle, List.drop_left] at hnot
    exact ⟨rest.take (n - limit.rgb.length), by rw [List.take_append, List.take_of_length_le hle],
      hnot⟩

/-- A full limit holds of the keys that begin as it does. -/
theorem fullLimit_holds_iff (full : List Byte) (idxseg : IDXSEG) (value : Option (List Byte))
    (key : List Byte) :
    (fullLimit pidb ptdb full idxseg value).Holds (key.take pidb.cbKeyMost) ↔
      (full ++ keySegment pidb ptdb idxseg value).take pidb.cbKeyMost <+: key := by
  have hle : (fullLimit pidb ptdb full idxseg value).rgb.length ≤ pidb.cbKeyMost :=
    List.length_take_le _ _
  rw [Limit.holds_take_iff hle]
  refine and_iff_left (not_pastRun_of_length ?_)
  -- no key is longer than the sentinels reach
  unfold fullLimit at hle ⊢
  dsimp only at hle ⊢
  rw [List.length_drop, List.length_take]
  split
  · omega
  · rw [List.length_take, List.length_append]
    omega

/-- Between the full limits are the keys of the rows with equal columns. -/
theorem fullLimit_holds_iff_leadingEqual {idxseg : IDXSEG} {value : Option (List Byte)}
    (hlen : columns.length < rows.length)
    (hapart : ∀ i, ∀ column ∈ (columns ++ [(idxseg, value)])[i]?, ∀ row ∈ rows[i]?, ∀ m,
      (i = 0 → m = pidb.cbKeyMost) →
      Apart ((keySegment pidb ptdb column.1 column.2).take m)
        ((keySegment pidb ptdb row.1 row.2).take m)) :
    (fullLimit pidb ptdb (wholeKey pidb ptdb columns) idxseg value).Holds
      ((wholeKey pidb ptdb rows).take pidb.cbKeyMost) ↔
      LeadingEqual pidb ptdb pidb.cbKeyMost (columns ++ [(idxseg, value)]) rows := by
  have hwhole : wholeKey pidb ptdb columns ++ keySegment pidb ptdb idxseg value
      = wholeKey pidb ptdb (columns ++ [(idxseg, value)]) ++ [] := by
    rw [wholeKey_append, wholeKey_cons, wholeKey_nil, List.append_nil, List.append_nil]
  rw [fullLimit_holds_iff, hwhole, leadingEqual_iff (by rw [List.length_append]; exact hlen) hapart,
    List.take_nil]
  exact ⟨And.left, fun h => ⟨h, List.nil_prefix⟩⟩

end

/-! ## Past the sentinels -/

/-- The row's next column is a NULL whose segment is `0xff`, and more columns follow. -/
def NextIsSentinel (pidb : IDB) (rows : List (IDXSEG × Option (List Byte))) : Prop :=
  ∃ idxseg rest, rows = (idxseg, none) :: rest ∧ rest ≠ [] ∧ idxseg.fDescending = true ∧
    pidb.fSortNullsHigh = false

theorem length_keySegment_none (pidb : IDB) (ptdb : TDB) (idxseg : IDXSEG) :
    (keySegment pidb ptdb idxseg none).length = 1 := by
  rw [keySegment, length_flip, segment, length_fldNormalizeNullSegment]

section
variable {pidb : IDB} {ptdb : TDB} {idxseg : IDXSEG} {rows : List (IDXSEG × Option (List Byte))}
  (hmac : 0 < pidb.cbVarSegMacT)
include hmac

/-- A segment begins with `0xff` only for NULL that is sorted low in a descending column, and then
it is that byte. -/
theorem head_keySegment_iff {value : Option (List Byte)}
    (hholds : ∀ pbField ∈ value, (ptdb idxseg.columnid).Holds
      (fCOLUMNIDFixed idxseg.columnid) pbField) :
    (keySegment pidb ptdb idxseg value).head? = some bSentinel ↔
      value = none ∧ idxseg.fDescending = true ∧ pidb.fSortNullsHigh = false := by
  obtain ⟨rgb, hseg⟩ := head_segment hmac hholds
  rw [keySegment, hseg]
  unfold flip bPrefix
  cases value with
  | none =>
    cases idxseg.fDescending <;> cases pidb.fSortNullsHigh <;> simp <;> decide
  | some pbField =>
    by_cases hempty : pbField = []
    · cases idxseg.fDescending <;> simp [hempty] <;> decide
    · cases idxseg.fDescending <;> simp [hempty] <;> decide

theorem nextIsSentinel_iff {k : Nat} (hk : 1 < k)
    (hrows : ∀ row ∈ rows, ∀ pbField ∈ row.2, (ptdb row.1.columnid).Holds
      (fCOLUMNIDFixed row.1.columnid) pbField) :
    (∃ rgb ≠ [], (wholeKey pidb ptdb rows).take k = bSentinel :: rgb) ↔
      NextIsSentinel pidb rows := by
  obtain ⟨k, rfl⟩ := Nat.exists_eq_add_of_le' (show 2 ≤ k from hk)
  constructor
  · rintro ⟨rgb, hne, heq⟩
    cases rows with
    | nil =>
      rw [wholeKey_nil, List.take_nil] at heq
      cases heq
    | cons row rows =>
      have hhead : (keySegment pidb ptdb row.1 row.2).head? = some bSentinel := by
        have hpos : 0 < (keySegment pidb ptdb row.1 row.2).length :=
          length_keySegment_pos hmac row.1 row.2
        obtain ⟨b, rgbSeg, hseg⟩ := List.exists_cons_of_ne_nil (List.ne_nil_of_length_pos hpos)
        rw [wholeKey_cons, hseg, List.cons_append, List.take_succ_cons, List.cons.injEq] at heq
        rw [hseg, heq.1]
        rfl
      obtain ⟨hnone, hdesc, hlow⟩ :=
        (head_keySegment_iff hmac (hrows row List.mem_cons_self)).1 hhead
      refine ⟨row.1, rows, ?_, ?_, hdesc, hlow⟩
      · rw [← hnone]
      · rintro rfl
        have hlen := congrArg List.length heq
        have := List.length_pos_of_ne_nil hne
        rw [List.length_take, wholeKey_cons, wholeKey_nil, List.append_nil, hnone,
          length_keySegment_none,
          List.length_cons] at hlen
        omega
  · rintro ⟨idxseg, rest, rfl, hne, hdesc, hlow⟩
    obtain ⟨row, rest, rfl⟩ := List.exists_cons_of_ne_nil hne
    have hhead : (keySegment pidb ptdb idxseg none).head? = some bSentinel :=
      (head_keySegment_iff hmac (by rintro _ ⟨⟩)).2 ⟨rfl, hdesc, hlow⟩
    have hlen : (keySegment pidb ptdb idxseg none).length = 1 := length_keySegment_none _ _ _
    obtain ⟨b, hseg⟩ := List.length_eq_one_iff.1 hlen
    rw [hseg] at hhead
    obtain rfl : b = bSentinel := Option.some.inj hhead
    refine ⟨(wholeKey pidb ptdb (row :: rest)).take (k + 1), ?_, ?_⟩
    · have hpos : 0 < (keySegment pidb ptdb row.1 row.2).length :=
        length_keySegment_pos hmac row.1 row.2
      refine List.ne_nil_of_length_pos ?_
      rw [List.length_take, wholeKey_cons, List.length_append]
      omega
    · rw [wholeKey_cons, hseg]
      rfl

/-- The row's key is past the sentinels of the partial limit only where `cbVarSegMac` cuts its last
chunk. -/
theorem pastRun_partialLimit_iff (hfixed : fCOLUMNIDFixed idxseg.columnid = false)
    (hbin : fRECBinaryColumn (ptdb idxseg.columnid).coltyp = true) {pbField value : List Byte}
    {cbAvail : Nat}
    (h : pbField ≠ []) (halike : BeginsAlike pbField value)
    (hend : dataEnd pbField < min cbAvail (keySegment pidb ptdb idxseg (some pbField)).length)
    (hrows : ∀ row ∈ rows, ∀ pbField ∈ row.2, (ptdb row.1.columnid).Holds
      (fCOLUMNIDFixed row.1.columnid) pbField) :
    PastRun bSentinel (min cbAvail (keySegment pidb ptdb idxseg (some pbField)).length +
        1 - dataEnd pbField)
        (((keySegment pidb ptdb idxseg (some value) ++ wholeKey pidb ptdb rows).take cbAvail).drop
        (dataEnd pbField)) ↔
      (pidb.cbVarSegMacT < pidb.cbKeyMost ∧
        pidb.cbVarSegMacT < (binarySegment pbField false).length ∧
        pidb.cbVarSegMacT + 1 < cbAvail) ∧
      (keySegment pidb ptdb idxseg (some value)).drop (dataEnd pbField)
        = List.replicate (pidb.cbVarSegMacT - dataEnd pbField) bSentinel ∧
          NextIsSentinel pidb rows := by
  have hne := halike.ne_nil h
  have hle := halike.length_le h
  have hlimit := length_cut pidb (binarySegment pbField false)
  have hlimit' := length_cut pidb (binarySegment value false)
  have hlen : (keySegment pidb ptdb idxseg (some pbField)).length =
    (cut pidb (binarySegment pbField false)).length := by
    rw [keySegment_var hfixed hbin h, length_flip]
  have hlen' : (keySegment pidb ptdb idxseg (some value)).length =
    (cut pidb (binarySegment value false)).length := by
    rw [keySegment_var hfixed hbin hne, length_flip]
  by_cases hcut : pidb.cbVarSegMacT < pidb.cbKeyMost ∧
      pidb.cbVarSegMacT < (binarySegment pbField false).length ∧
      pidb.cbVarSegMacT + 1 < cbAvail
  · rw [if_pos ⟨hcut.1, hcut.2.1⟩] at hlimit
    rw [if_pos ⟨hcut.1, Nat.lt_of_lt_of_le hcut.2.1 hle⟩] at hlimit'
    have hrun : min cbAvail (keySegment pidb ptdb idxseg (some pbField)).length +
        1 - dataEnd pbField
        = (pidb.cbVarSegMacT - dataEnd pbField) + 1 := by omega
    rw [hrun, List.take_append, List.take_of_length_le (by omega), List.drop_append_of_le_length
      (by omega),
      pastRun_append_iff (by rw [List.length_drop]; omega), nextIsSentinel_iff hmac
      (by omega) hrows]
    exact ⟨fun hc => ⟨hcut, hc⟩, And.right⟩
  · refine iff_of_false (fun hpast => ?_) fun hc => hcut hc.1
    have hlong : min cbAvail (keySegment pidb ptdb idxseg (some pbField)).length +
        1 - dataEnd pbField
        < (((keySegment pidb ptdb idxseg (some value) ++ wholeKey pidb ptdb rows).take cbAvail).drop
          (dataEnd pbField)).length := by
      by_contra hge
      exact not_pastRun_of_length (Nat.le_of_not_lt hge) hpast
    rw [List.length_drop, List.length_take] at hlong
    -- the last count of the data is in the run
    have hwhole : (cut pidb (binarySegment pbField false)).length =
      (binarySegment pbField false).length := by
      split at hlimit
      · next hc => exact absurd ⟨hc.1, hc.2, by omega⟩ hcut
      · exact hlimit
    have hsize := length_binarySegment_eq h
    have hpos := List.length_pos_of_ne_nil h
    obtain ⟨c, hc⟩ : ∃ c, (pbField.length + 7) / 8 = c + 1 :=
      Nat.exists_eq_add_one_of_ne_zero (by omega)
    rw [hc] at hsize
    have hchunks : 9 * (c + 1) ≤ (chunks value).length := by
      rw [hsize, binarySegment, if_neg Bool.false_ne_true, List.length_cons] at hle
      omega
    obtain ⟨b, hb, hone, hnine⟩ := chunks_count hne hchunks
    have hbyte : (keySegment pidb ptdb idxseg (some value))[9 * c + 9]?
        = some (if idxseg.fDescending then b ^^^ 0xff else b) := by
      have hget : (cut pidb (binarySegment value false))[9 * c + 9]? = some b := by
        have hbin : (binarySegment value false)[9 * c + 9]? = some b := by
          rw [binarySegment, if_neg Bool.false_ne_true, List.getElem?_cons_succ]
          exact hb
        unfold cut
        split
        · next hlt =>
          rw [List.getElem?_take_of_lt (by split at hlimit <;> omega), hbin]
        · exact hbin
      rw [keySegment_var hfixed hbin hne]
      cases idxseg.fDescending with
      | false => exact hget
      | true =>
        rw [flip, if_pos rfl, List.getElem?_map, hget]
        rfl
    have hdataEnd := dataEnd_lt h
    have hrun := hpast.getElem? (show 9 * c + 9 - dataEnd pbField < _ by omega)
    rw [List.getElem?_drop, Nat.add_sub_cancel' (by omega), List.getElem?_take_of_lt (by omega),
      List.getElem?_append_left (List.getElem?_eq_some_iff.1 hbyte).1, hbyte] at hrun
    have hff := congrArg BitVec.toNat (Option.some.inj hrun)
    have h255 : bSentinel.toNat = 255 := rfl
    rw [h255] at hff
    split at hff
    · have hall : (0xff : Byte) = BitVec.allOnes 8 := rfl
      rw [hall, BitVec.xor_allOnes, BitVec.toNat_not] at hff
      omega
    · omega

end

/-! ## Where limits and columns part -/

section
variable (pidb : IDB) (ptdb : TDB) (columns : List (IDXSEG × Option (List Byte))) (idxseg : IDXSEG)
  (value : Option (List Byte)) (rows : List (IDXSEG × Option (List Byte)))
  (row : Option (List Byte))

/-- Partial limits are for variable binary columns. -/
def HasPartialLimit : Prop :=
  fCOLUMNIDFixed idxseg.columnid = false ∧ fRECBinaryColumn (ptdb idxseg.columnid).coltyp = true

/-- The row has the specified data but for zeros at its end, for which its padding is taken; the
count of the last chunk, which would tell them apart, is in the key. -/
structure PaddingTaken : Prop where
  binary : HasPartialLimit ptdb idxseg
  leading : LeadingEqual pidb ptdb pidb.cbKeyMost columns rows
  zeros : ZerosPad (value.getD []) (row.getD [])
  uncut : Uncut pidb (pidb.cbKeyMost - (wholeKey pidb ptdb columns).length) (value.getD [])

/-- The row is above the end limit: `cbVarSegMac` cuts its last chunk behind the specified data,
what is left of the chunk is `0xff`, and so is the segment of the next column. -/
structure SentinelsPassed : Prop where
  binary : HasPartialLimit ptdb idxseg
  leading : LeadingEqual pidb ptdb pidb.cbKeyMost columns rows
  data : value.getD [] ≠ []
  begins : BeginsAlike (value.getD []) (row.getD [])
  limit : pidb.cbVarSegMacT < pidb.cbKeyMost
  cutAfter : dataEnd (value.getD []) < pidb.cbVarSegMacT
  cutBefore : pidb.cbVarSegMacT < (binarySegment (value.getD []) false).length
  room : (wholeKey pidb ptdb columns).length + pidb.cbVarSegMacT + 1 < pidb.cbKeyMost
  run : (keySegment pidb ptdb idxseg row).drop (dataEnd (value.getD []))
    = List.replicate (pidb.cbVarSegMacT - dataEnd (value.getD [])) bSentinel
  next : NextIsSentinel pidb (rows.drop (columns.length + 1))

/-- The first column is fixed, and the row's segment for it is not that of the specified one. -/
def FirstDiffers : Prop :=
  ∃ column ∈ (columns ++ [(idxseg, value)]).head?, ∃ row ∈ rows.head?,
    fCOLUMNIDFixed column.1.columnid = true ∧
      (keySegment pidb ptdb column.1 column.2).take pidb.cbKeyMost
        ≠ (keySegment pidb ptdb row.1 row.2).take pidb.cbKeyMost

/-- The row's segments begin as the specified ones do up to the end of the data, which is before the
end of the last segment, and do not go on with more `0xff` than that segment has bytes behind it. -/
structure DataRunsOn : Prop where
  binary : HasPartialLimit ptdb idxseg
  before : dataEnd (value.getD []) < min (pidb.cbKeyMost - (wholeKey pidb ptdb columns).length)
    (keySegment pidb ptdb idxseg value).length
  begins : wholeKey pidb ptdb columns ++ (keySegment pidb ptdb idxseg value).take
    (dataEnd (value.getD []))
    <+: wholeKey pidb ptdb rows
  ends : ¬ PastRun bSentinel (min (pidb.cbKeyMost - (wholeKey pidb ptdb columns).length)
      (keySegment pidb ptdb idxseg value).length + 1 - dataEnd (value.getD []))
    (((wholeKey pidb ptdb rows).take pidb.cbKeyMost).drop
      ((wholeKey pidb ptdb columns).length + dataEnd (value.getD [])))

/-- The tuple of a fixed column is shorter than the column, and the row's next segments go on as the
specified column does. -/
structure TupleRunsOn : Prop where
  tuples : pidb.fTuples = true
  differs : FirstDiffers pidb ptdb columns idxseg value rows
  runs : (wholeKey pidb ptdb columns ++ keySegment pidb ptdb idxseg value).take pidb.cbKeyMost
      <+: wholeKey pidb ptdb rows ∨
    DataRunsOn pidb ptdb columns idxseg value rows

end

section
variable {pidb : IDB} {ptdb : TDB} {columns rows : List (IDXSEG × Option (List Byte))}
  {idxseg : IDXSEG} {value row : Option (List Byte)}

theorem leadingEqual_append_iff {cbAvail : Nat} {column last : IDXSEG × Option (List Byte)}
    (hrow : rows[columns.length]? = some last) :
    LeadingEqual pidb ptdb cbAvail (columns ++ [column]) rows ↔
      LeadingEqual pidb ptdb cbAvail columns rows ∧
      (keySegment pidb ptdb column.1 column.2).take (cbAvail - (wholeKey pidb ptdb columns).length)
        = (keySegment pidb ptdb last.1 last.2).take
          (cbAvail - (wholeKey pidb ptdb columns).length) := by
  induction columns generalizing cbAvail rows with
  | nil =>
    obtain ⟨rows, rfl⟩ : ∃ rows', rows = last :: rows' := by
      cases rows with
      | nil => cases hrow
      | cons head rows => exact ⟨rows, by rw [Option.some.inj hrow]⟩
    exact ⟨fun h => ⟨trivial, h.1⟩, fun h => ⟨h.2, trivial⟩⟩
  | cons first columns ih =>
    cases rows with
    | nil => cases hrow
    | cons head rows =>
      rw [List.cons_append, LeadingEqual, LeadingEqual, ih hrow, wholeKey_cons, List.length_append,
        Nat.sub_sub, and_assoc]

/-- The column behind the leading ones is the first of the rest. -/
theorem drop_eq_cons (hrow : rows[columns.length]? = some (idxseg, row)) :
    rows.drop columns.length = (idxseg, row) :: rows.drop (columns.length + 1) := by
  obtain ⟨hlt, hget⟩ := List.getElem?_eq_some_iff.1 hrow
  rw [List.drop_eq_getElem_cons hlt, hget]

section
variable (hmac : 0 < pidb.cbVarSegMacT) (hbinary : HasPartialLimit ptdb idxseg)
  {pbField : List Byte} (h : pbField ≠ []) (hrow : rows[columns.length]? = some (idxseg, row))
  (hend : dataEnd pbField < min (pidb.cbKeyMost - (wholeKey pidb ptdb columns).length)
    (keySegment pidb ptdb idxseg (some pbField)).length)
  (hrows : ∀ row ∈ rows.drop columns.length, ∀ pbField ∈ row.2,
    (ptdb row.1.columnid).Holds (fCOLUMNIDFixed row.1.columnid) pbField)
  (hapart : ∀ i, ∀ column ∈ columns[i]?, ∀ row ∈ rows[i]?, ∀ m, (i = 0 → m = pidb.cbKeyMost) →
    Apart ((keySegment pidb ptdb column.1 column.2).take m)
      ((keySegment pidb ptdb row.1 row.2).take m))

include hend in
/-- A partial limit begins with the leading segments and the data of its column. -/
theorem partialLimit_of_lt :
    partialLimit pidb ptdb (wholeKey pidb ptdb columns) idxseg (some pbField)
      = ⟨wholeKey pidb ptdb columns ++
          (keySegment pidb ptdb idxseg (some pbField)).take (dataEnd pbField),
        min (pidb.cbKeyMost - (wholeKey pidb ptdb columns).length)
          (keySegment pidb ptdb idxseg (some pbField)).length + 1 - dataEnd pbField⟩ := by
  unfold partialLimit
  dsimp only
  rw [Option.getD_some, if_pos hend]

include hend in
/-- The length of what a partial limit begins with. -/
theorem length_partialLimit_rgb :
    (wholeKey pidb ptdb columns ++
      (keySegment pidb ptdb idxseg (some pbField)).take (dataEnd pbField)).length
      = (wholeKey pidb ptdb columns).length + dataEnd pbField := by
  rw [List.length_append, List.length_take]
  omega

include hmac hbinary h hrow hend hrows

include hapart in
/-- The key begins as the limits do if the columns are equal and the data begins alike. -/
theorem partialLimit_isPrefix_iff :
    wholeKey pidb ptdb columns ++
        (keySegment pidb ptdb idxseg (some pbField)).take (dataEnd pbField)
        <+: wholeKey pidb ptdb rows ↔
      LeadingEqual pidb ptdb pidb.cbKeyMost columns rows ∧ BeginsAlike pbField (row.getD []) := by
  have hrgb := length_partialLimit_rgb hend
  obtain ⟨hfixed, hbin⟩ := hbinary
  have hlt : columns.length < rows.length := (List.getElem?_eq_some_iff.1 hrow).1
  have hholds : ∀ pbField ∈ row, (ptdb idxseg.columnid).Holds
    (fCOLUMNIDFixed idxseg.columnid) pbField :=
    hrows (idxseg, row) (by rw [drop_eq_cons hrow]; exact List.mem_cons_self)
  have hseg : ∀ value ∈ some pbField, (ptdb idxseg.columnid).Holds
    (fCOLUMNIDFixed idxseg.columnid) value :=
    fun _ _ =>
      ⟨fun hc => absurd (hbin ▸ hc) (by decide), fun hc => absurd (hfixed ▸ hc) (by decide)⟩
  have hiff := leadingEqual_iff (Nat.le_of_lt hlt) hapart
    ((keySegment pidb ptdb idxseg (some pbField)).take (dataEnd pbField))
  rw [List.take_of_length_le (by omega), List.take_take, Nat.min_eq_right (by omega),
    drop_eq_cons hrow, wholeKey_cons] at hiff
  rw [hiff, ← keySegment_take_dataEnd_iff hmac hfixed hbin h hholds (by omega)]
  have hsegs :=
    ((keySegment_apart hmac hseg hholds).take (dataEnd pbField)).take_append_isPrefix_iff []
    (wholeKey pidb ptdb (rows.drop (columns.length + 1)))
  rw [List.append_nil, List.take_nil] at hsegs
  rw [hsegs]
  exact and_congr_right fun _ => ⟨And.left, fun hc => ⟨hc, List.nil_prefix⟩⟩

/-- What follows in the key is past the run of the partial limit if the row is past its
sentinels. -/
theorem pastRun_partialLimit_rows_iff
    (hleading : LeadingEqual pidb ptdb pidb.cbKeyMost columns rows)
    (halike : BeginsAlike pbField (row.getD [])) {rgb : List Byte}
    (hkey : (wholeKey pidb ptdb rows).take pidb.cbKeyMost
      = wholeKey pidb ptdb columns ++
        (keySegment pidb ptdb idxseg (some pbField)).take (dataEnd pbField) ++ rgb) :
    PastRun bSentinel (min (pidb.cbKeyMost - (wholeKey pidb ptdb columns).length)
        (keySegment pidb ptdb idxseg (some pbField)).length + 1 - dataEnd pbField) rgb ↔
      SentinelsPassed pidb ptdb columns idxseg (some pbField) rows row := by
  have hrgb := length_partialLimit_rgb hend
  have hdrop := drop_eq_cons hrow
  obtain ⟨hfixed, hbin⟩ := hbinary
  generalize hL : (wholeKey pidb ptdb columns).length = cbFull at hend hrgb ⊢
  obtain ⟨data, rfl⟩ : ∃ data, row = some data := by
    cases row with
    | none => exact absurd rfl (halike.ne_nil h)
    | some data => exact ⟨data, rfl⟩
  rw [Option.getD_some] at halike
  have hwhole : wholeKey pidb ptdb rows = wholeKey pidb ptdb columns ++
      (keySegment pidb ptdb idxseg (some data)
      ++ wholeKey pidb ptdb (rows.drop (columns.length + 1))) := by
    rw [← hleading.wholeKey_eq (by omega), ← wholeKey_cons (idxseg, some data), ← hdrop,
      ← wholeKey_append, List.take_append_drop]
  have hrest : rgb = ((keySegment pidb ptdb idxseg (some data)
      ++ wholeKey pidb ptdb (rows.drop (columns.length + 1))).take (pidb.cbKeyMost - cbFull)).drop
        (dataEnd pbField) := by
    have hdropKey := congrArg (List.drop (cbFull + dataEnd pbField)) hkey
    rw [← hrgb, List.drop_left, hrgb, hwhole, List.take_append, hL,
      List.take_of_length_le (by omega), ← hL, List.drop_length_add_append, hL] at hdropKey
    exact hdropKey.symm
  rw [hrest, pastRun_partialLimit_iff hmac hfixed hbin h halike hend fun row hmem => hrows row (by
    rw [hdrop]
    exact List.mem_cons_of_mem _ hmem)]
  have hcutSeg := length_cut pidb (binarySegment pbField false)
  rw [keySegment_var hfixed hbin h, length_flip] at hend
  constructor
  · rintro ⟨⟨hmost, hbefore, hroom⟩, hrun, hnext⟩
    rw [if_pos ⟨hmost, hbefore⟩] at hcutSeg
    exact ⟨⟨hfixed, hbin⟩, hleading, h, halike, hmost, show dataEnd pbField < _ by omega,
      hbefore, by omega, hrun, hnext⟩
  · intro hpassed
    have hroom := hpassed.room
    exact ⟨⟨hpassed.limit, hpassed.cutBefore, by omega⟩, hpassed.run, hpassed.next⟩

include hapart

/-- Between the partial limits that begin behind the specified data. -/
theorem partialLimit_holds_iff :
    (partialLimit pidb ptdb (wholeKey pidb ptdb columns) idxseg (some pbField)).Holds
        ((wholeKey pidb ptdb rows).take pidb.cbKeyMost) ↔
      LeadingEqual pidb ptdb pidb.cbKeyMost columns rows ∧ BeginsAlike pbField (row.getD []) ∧
        ¬ SentinelsPassed pidb ptdb columns idxseg (some pbField) rows row := by
  have hbegin := partialLimit_isPrefix_iff hmac hbinary h hrow hend hrows hapart
  have hrgb := length_partialLimit_rgb hend
  rw [partialLimit_of_lt hend, ← and_assoc, ← hbegin]
  unfold Limit.Holds
  dsimp only
  constructor
  · rintro ⟨rgb, hkey, hnot⟩
    have hpre :=
      (List.prefix_append _ rgb).trans (hkey ▸ List.take_prefix _ (wholeKey pidb ptdb rows))
    obtain ⟨hleading, halike⟩ := hbegin.1 hpre
    exact ⟨hpre, fun hpassed => hnot
      ((pastRun_partialLimit_rows_iff hmac hbinary h hrow hend hrows hleading halike hkey).2
        hpassed)⟩
  · rintro ⟨hpre, hnot⟩
    obtain ⟨hleading, halike⟩ := hbegin.1 hpre
    obtain ⟨rest, hrest⟩ := hpre
    have hkey : (wholeKey pidb ptdb rows).take pidb.cbKeyMost
        = wholeKey pidb ptdb columns ++
            (keySegment pidb ptdb idxseg (some pbField)).take (dataEnd pbField) ++
          rest.take (pidb.cbKeyMost - ((wholeKey pidb ptdb columns).length + dataEnd pbField)) := by
      rw [← hrest, List.take_append, hrgb, List.take_of_length_le (by omega)]
    exact ⟨_, hkey, fun hc => hnot
      ((pastRun_partialLimit_rows_iff hmac hbinary h hrow hend hrows hleading halike hkey).1 hc)⟩

end

/-- A partial limit that has its segment whole is the full limit. -/
theorem partialLimit_of_le (hend : min (pidb.cbKeyMost - (wholeKey pidb ptdb columns).length)
      (keySegment pidb ptdb idxseg value).length ≤ dataEnd (value.getD [])) :
    partialLimit pidb ptdb (wholeKey pidb ptdb columns) idxseg value
      = fullLimit pidb ptdb (wholeKey pidb ptdb columns) idxseg value := by
  unfold partialLimit
  dsimp only
  rw [if_neg (Nat.not_lt.2 hend)]

/-- A limit holds of the key of the row exactly where the row's segments begin as it does. -/
theorem limits_hold_iff :
    ((fullLimit pidb ptdb (wholeKey pidb ptdb columns) idxseg value).Holds
          ((wholeKey pidb ptdb rows).take pidb.cbKeyMost) ∨
        HasPartialLimit ptdb idxseg ∧
          (partialLimit pidb ptdb (wholeKey pidb ptdb columns) idxseg value).Holds
          ((wholeKey pidb ptdb rows).take pidb.cbKeyMost)) ↔
      (wholeKey pidb ptdb columns ++ keySegment pidb ptdb idxseg value).take pidb.cbKeyMost
          <+: wholeKey pidb ptdb rows ∨
        DataRunsOn pidb ptdb columns idxseg value rows := by
  rcases Nat.lt_or_ge (dataEnd (value.getD []))
      (min (pidb.cbKeyMost - (wholeKey pidb ptdb columns).length)
      (keySegment pidb ptdb idxseg value).length) with hend | hend
  · have hlimit : partialLimit pidb ptdb (wholeKey pidb ptdb columns) idxseg value
        = ⟨wholeKey pidb ptdb columns ++ (keySegment pidb ptdb idxseg value).take
          (dataEnd (value.getD [])),
          min (pidb.cbKeyMost - (wholeKey pidb ptdb columns).length)
            (keySegment pidb ptdb idxseg value).length + 1
            - dataEnd (value.getD [])⟩ := by
      unfold partialLimit
      dsimp only
      rw [if_pos hend]
    have hlen : (wholeKey pidb ptdb columns
        ++ (keySegment pidb ptdb idxseg value).take (dataEnd (value.getD []))).length
          = (wholeKey pidb ptdb columns).length + dataEnd (value.getD []) := by
      rw [List.length_append, List.length_take]
      omega
    rw [fullLimit_holds_iff, hlimit, Limit.holds_take_iff (by dsimp only; omega)]
    dsimp only
    rw [hlen]
    exact or_congr_right ⟨fun ⟨hbinary, hbegins, hends⟩ => ⟨hbinary, hend, hbegins, hends⟩,
      fun hruns => ⟨hruns.binary, hruns.begins, hruns.ends⟩⟩
  · rw [partialLimit_of_le hend, fullLimit_holds_iff]
    refine ⟨fun hc => .inl (hc.elim id And.right), fun hc => .inl (hc.elim id fun hruns => ?_)⟩
    exact absurd hruns.before (Nat.not_lt.2 hend)

theorem length_keySegment_of_empty (h : value.getD [] = []) :
    (keySegment pidb ptdb idxseg value).length = 1 := by
  rw [keySegment, length_flip]
  cases value with
  | none => rw [segment, length_fldNormalizeNullSegment]
  | some pbField =>
    obtain rfl : pbField = [] := h
    rw [segment, if_pos rfl, length_fldNormalizeNullSegment]

/-- Between the partial limits are the rows that start with the specified data, but for the two
exceptions. -/
theorem partialLimit_iff (hmac : 0 < pidb.cbVarSegMacT) (hbinary : HasPartialLimit ptdb idxseg)
    (hrow : rows[columns.length]? = some (idxseg, row))
    (hrows : ∀ row ∈ rows.drop columns.length, ∀ pbField ∈ row.2,
      (ptdb row.1.columnid).Holds (fCOLUMNIDFixed row.1.columnid) pbField)
    (hapart : ∀ i, ∀ column ∈ (columns ++ [(idxseg, value)])[i]?, ∀ row ∈ rows[i]?, ∀ m,
      (i = 0 → m = pidb.cbKeyMost) →
      Apart ((keySegment pidb ptdb column.1 column.2).take m)
        ((keySegment pidb ptdb row.1 row.2).take m)) :
    ((partialLimit pidb ptdb (wholeKey pidb ptdb columns) idxseg value).Holds
          ((wholeKey pidb ptdb rows).take pidb.cbKeyMost) ↔
        LeadingEqual pidb ptdb pidb.cbKeyMost columns rows ∧
          StartsWith pidb ptdb (pidb.cbKeyMost - (wholeKey pidb ptdb columns).length) idxseg value
          row) ↔
      ¬ (PaddingTaken pidb ptdb columns idxseg value rows row ∨
        SentinelsPassed pidb ptdb columns idxseg value rows row) := by
  have hlt : columns.length < rows.length := (List.getElem?_eq_some_iff.1 hrow).1
  have hapart' : ∀ i, ∀ column ∈ columns[i]?, ∀ row ∈ rows[i]?, ∀ m, (i = 0 → m = pidb.cbKeyMost) →
      Apart ((keySegment pidb ptdb column.1 column.2).take m)
        ((keySegment pidb ptdb row.1 row.2).take m) := by
    intro i column hcolumn
    refine hapart i column ?_
    rw [Option.mem_def, List.getElem?_append_left (List.getElem?_eq_some_iff.1 hcolumn).1]
    exact hcolumn
  rcases Nat.lt_or_ge (dataEnd (value.getD []))
      (min (pidb.cbKeyMost - (wholeKey pidb ptdb columns).length)
      (keySegment pidb ptdb idxseg value).length) with hend | hend
  · -- the partial limits begin behind the data
    obtain ⟨pbField, rfl, h⟩ : ∃ pbField, value = some pbField ∧ pbField ≠ [] := by
      by_cases hempty : value.getD [] = []
      · rw [length_keySegment_of_empty hempty, hempty, dataEnd] at hend
        omega
      · cases value with
        | none => exact absurd rfl hempty
        | some pbField => exact ⟨pbField, rfl, hempty⟩
    rw [Option.getD_some] at hend
    have hholds : ∀ pbField ∈ row, (ptdb idxseg.columnid).Holds
      (fCOLUMNIDFixed idxseg.columnid) pbField := by
      refine hrows (idxseg, row) (List.mem_of_getElem? (i := 0) ?_)
      rw [List.getElem?_drop]
      exact hrow
    rw [partialLimit_holds_iff hmac hbinary h hrow hend hrows hapart',
      startsWith_iff_of_lt hmac hbinary.1 hbinary.2 h hholds hend]
    constructor
    · rintro hiff (hpadding | hpassed)
      · -- the segment is not cut, so that the row is not past the sentinels
        have halike : BeginsAlike pbField (row.getD []) := .inr hpadding.zeros
        have hnot : ¬ SentinelsPassed pidb ptdb columns idxseg (some pbField) rows row :=
          fun hpassed =>
          Nat.not_lt.2 (hpadding.uncut.2 hpassed.limit) hpassed.cutBefore
        exact (hiff.1 ⟨hpadding.leading, halike, hnot⟩).2.2 ⟨hpadding.zeros, hpadding.uncut⟩
      · have hcut : ¬ (ZerosPad pbField (row.getD []) ∧
            Uncut pidb (pidb.cbKeyMost - (wholeKey pidb ptdb columns).length) pbField) := fun hc =>
          Nat.not_lt.2 (hc.2.2 hpassed.limit) hpassed.cutBefore
        exact (hiff.2 ⟨hpassed.leading, hpassed.begins, hcut⟩).2.2 hpassed
    · intro hnot
      constructor
      · rintro ⟨hleading, halike, -⟩
        exact ⟨hleading, halike, fun hc => hnot (.inl ⟨hbinary, hleading, hc.1, hc.2⟩)⟩
      · rintro ⟨hleading, halike, -⟩
        exact ⟨hleading, halike, fun hpassed => hnot (.inr hpassed)⟩
  · -- the partial limits are the full limits
    have hstarts : StartsWith pidb ptdb (pidb.cbKeyMost - (wholeKey pidb ptdb columns).length)
        idxseg value row ↔
        (keySegment pidb ptdb idxseg value).take
          (pidb.cbKeyMost - (wholeKey pidb ptdb columns).length)
          = (keySegment pidb ptdb idxseg row).take
            (pidb.cbKeyMost - (wholeKey pidb ptdb columns).length) := by
      by_cases hempty : value.getD [] = []
      · unfold StartsWith
        rw [if_pos hempty]
      · cases value with
        | none => exact absurd rfl hempty
        | some pbField => exact startsWith_iff_of_le hbinary.1 hbinary.2 hempty hend
    rw [partialLimit_of_le hend, fullLimit_holds_iff_leadingEqual hlt hapart,
      leadingEqual_append_iff hrow, hstarts]
    refine iff_of_true Iff.rfl ?_
    have hseg : value.getD [] ≠ [] → (keySegment pidb ptdb idxseg value).length
        = (cut pidb (binarySegment (value.getD []) false)).length := by
      intro h
      cases value with
      | none => exact absurd rfl h
      | some pbField =>
        rw [Option.getD_some] at h ⊢
        rw [keySegment_var hbinary.1 hbinary.2 h, length_flip]
    rintro (hpadding | hpassed)
    · have h : value.getD [] ≠ [] := by
        obtain ⟨n, heq, -⟩ := hpadding.zeros
        rw [heq]
        simp
      have hlen := length_cut pidb (binarySegment (value.getD []) false)
      have hafter := dataEnd_lt h
      obtain ⟨hroom, hlimit⟩ := hpadding.uncut
      rw [hseg h] at hend
      split at hlen
      · next hc => exact absurd (hlimit hc.1) (Nat.not_le.2 hc.2)
      · omega
    · have hlen := length_cut pidb (binarySegment (value.getD []) false)
      rw [if_pos ⟨hpassed.limit, hpassed.cutBefore⟩] at hlen
      have hroom := hpassed.room
      have hafter := hpassed.cutAfter
      rw [hseg hpassed.data] at hend
      omega

end

/-! ## Limit keys and the keys of rows -/

section
variable (pidb : IDB) (ptdb : TDB)

/-- Values that can be passed for the first columns of the index, and for the one after them,
`idxseg`. -/
structure Specified (columns : List (IDXSEG × Option (List Byte))) (idxseg : IDXSEG)
    (value : Option (List Byte)) :
    Prop where
  leading : columns.map Prod.fst <+: pidb.rgidxseg
  last : pidb.rgidxseg[columns.length]? = some idxseg
  passed : ∀ i, ∀ column ∈ (columns ++ [(idxseg, value)])[i]?, Passed pidb ptdb i column.1 column.2

/-- The calls with the two limit options make keys that bracket exactly the keys for which `p`
holds. -/
def Brackets (columns : List (IDXSEG × Option (List Byte))) (value : Option (List Byte))
    (optStart optEnd : LimitOption)
    (pfucb : FUCB) (key : List Byte) (p : Prop) : Prop :=
  ∃ pfucbStart pfucbEnd, makeLimitKey pidb ptdb (columns.map Prod.snd) value optStart pfucb =
    .ok pfucbStart ∧
    makeLimitKey pidb ptdb (columns.map Prod.snd) value optEnd pfucb = .ok pfucbEnd ∧
    (pfucbStart.dataSearchKey ≤ key ∧ key ≤ pfucbEnd.dataSearchKey ↔ p)

end

variable {pidb : IDB} {ptdb : TDB} {columns : List (IDXSEG × Option (List Byte))} {idxseg : IDXSEG}
  {value : Option (List Byte)} {lineRec : Record} {rgitag : Nat → Nat} {ichOffset cbDataMost : Nat}

theorem brackets_iff (hvalid : pidb.Valid ptdb) (hspec : Specified pidb ptdb columns idxseg value)
    (fPartial : Bool)
    {optStart optEnd : LimitOption} (hstart : optStart.fPartial = fPartial ∧ optStart.fEnd = false)
    (hend : optEnd.fPartial = fPartial ∧ optEnd.fEnd = true) (hallowed : fPartial = true →
      HasPartialLimit ptdb idxseg)
    (pfucb : FUCB) (key : List Byte) (p : Prop) :
    Brackets pidb ptdb columns value optStart optEnd pfucb key p ↔
      ((limitOf pidb ptdb (wholeKey pidb ptdb columns) idxseg value fPartial).Holds key ↔ p) := by
  have hleading : ∀ i, ∀ column ∈ columns[i]?, Passed pidb ptdb i column.1 column.2 := by
    intro i column hcolumn
    refine hspec.passed i column ?_
    rw [Option.mem_def, List.getElem?_append_left (List.getElem?_eq_some_iff.1 hcolumn).1]
    exact hcolumn
  have hlast : Passed pidb ptdb columns.length idxseg value :=
    hspec.passed columns.length (idxseg, value) (by simp)
  obtain ⟨pfucbStart, hmakeStart, hkeyStart⟩ :=
    makeLimitKey_spec hvalid hspec.leading hspec.last hleading hlast
    (show optStart.Allowed ptdb idxseg from fun h => hallowed (hstart.1 ▸ h)) pfucb
  obtain ⟨pfucbEnd, hmakeEnd, hkeyEnd⟩ :=
    makeLimitKey_spec hvalid hspec.leading hspec.last hleading hlast
    (show optEnd.Allowed ptdb idxseg from fun h => hallowed (hend.1 ▸ h)) pfucb
  rw [hstart.1, hstart.2] at hkeyStart
  rw [hend.1, hend.2] at hkeyEnd
  rw [Limit.holds_iff, ← hkeyStart, ← hkeyEnd]
  unfold Brackets
  rw [hmakeStart, hmakeEnd]
  constructor
  · rintro ⟨_, _, ⟨⟩, ⟨⟩, hiff⟩
    exact hiff
  · exact fun hiff => ⟨_, _, rfl, rfl, hiff⟩

theorem keyColumns_getElem? {iidxseg i : Nat} {rgidxseg : List IDXSEG} :
    (keyColumns pidb lineRec rgitag ichOffset cbDataMost iidxseg rgidxseg)[i]?
      = rgidxseg[i]?.map fun idxseg =>
        (idxseg, keyColumn pidb lineRec rgitag ichOffset cbDataMost (iidxseg + i) idxseg) := by
  induction rgidxseg generalizing iidxseg i with
  | nil => rfl
  | cons idxseg rgidxseg ih =>
    rw [keyColumns]
    cases i with
    | zero => rfl
    | succ i =>
      rw [List.getElem?_cons_succ, List.getElem?_cons_succ, ih, show iidxseg + 1 + i =
        iidxseg + (i + 1) by omega]

/-- A column of a row's key holds data of its type, or is the tuple of a fixed column. -/
theorem keyColumn_holds (hvalid : pidb.Valid ptdb) (hrecord : ValidRecord pidb ptdb lineRec)
    {i : Nat}
    (hidxseg : pidb.rgidxseg[i]? = some idxseg)
    (hnot : ¬ (pidb.fTuples = true ∧ i = 0 ∧ fCOLUMNIDFixed idxseg.columnid = true)) :
    ∀ pbField ∈ keyColumn pidb lineRec rgitag ichOffset cbDataMost i idxseg,
      (ptdb idxseg.columnid).Holds (fCOLUMNIDFixed idxseg.columnid) pbField := by
  intro pbField hfield
  by_cases htuple : pidb.fTuples = true ∧ i = 0
  · have hbin : fRECBinaryColumn (ptdb idxseg.columnid).coltyp = true := by
      refine hvalid.tupleData htuple.1 idxseg ?_
      rw [List.head?_eq_getElem?, ← htuple.2, hidxseg]
      rfl
    refine ⟨fun hc => absurd (hbin ▸ hc) (by decide), fun hc =>
      absurd ⟨htuple.1, htuple.2, hc⟩ hnot⟩
  · unfold keyColumn at hfield
    dsimp only at hfield
    rw [if_neg htuple] at hfield
    exact hrecord idxseg (List.mem_of_getElem? hidxseg) _ _ hfield

/-- Where the first columns differ neither those of the row nor its leading columns are equal. -/
theorem not_leadingEqual_of_differs {rows : List (IDXSEG × Option (List Byte))}
    (hdiffers : FirstDiffers pidb ptdb columns idxseg value rows) :
    ¬ LeadingEqual pidb ptdb pidb.cbKeyMost (columns ++ [(idxseg, value)]) rows ∧
      (HasPartialLimit ptdb idxseg → ¬ LeadingEqual pidb ptdb pidb.cbKeyMost columns rows) := by
  obtain ⟨column, hcolumn, first, hfirst, hfixed, hne⟩ := hdiffers
  obtain ⟨rowsRest, rfl⟩ : ∃ rowsRest, rows = first :: rowsRest := by
    cases rows with
    | nil => cases hfirst
    | cons head rowsRest => exact ⟨rowsRest, by rw [Option.some.inj hfirst]⟩
  cases columns with
  | nil =>
    obtain rfl := Option.some.inj hcolumn
    exact ⟨fun hc => hne hc.1, fun hbinary =>
      absurd (hbinary.1.symm.trans hfixed) Bool.false_ne_true⟩
  | cons head columns =>
    obtain rfl : head = column := Option.some.inj hcolumn
    exact ⟨fun hc => hne hc.1, fun _ hc => hne hc.1⟩

/-- Then no key should be between the limits, and one is only if the row runs on. -/
theorem limits_iff_of_differs {rows : List (IDXSEG × Option (List Byte))} {row : Option (List Byte)}
    (htuples : pidb.fTuples = true) (hdiffers : FirstDiffers pidb ptdb columns idxseg value rows) :
    (((fullLimit pidb ptdb (wholeKey pidb ptdb columns) idxseg value).Holds
          ((wholeKey pidb ptdb rows).take pidb.cbKeyMost) ↔
        LeadingEqual pidb ptdb pidb.cbKeyMost (columns ++ [(idxseg, value)]) rows) ∧
      (HasPartialLimit ptdb idxseg →
        ((partialLimit pidb ptdb (wholeKey pidb ptdb columns) idxseg value).Holds
            ((wholeKey pidb ptdb rows).take pidb.cbKeyMost) ↔
          LeadingEqual pidb ptdb pidb.cbKeyMost columns rows ∧
            StartsWith pidb ptdb (pidb.cbKeyMost - (wholeKey pidb ptdb columns).length) idxseg value
            row))) ↔
      ¬ (PaddingTaken pidb ptdb columns idxseg value rows row ∨
        SentinelsPassed pidb ptdb columns idxseg value rows row ∨
        TupleRunsOn pidb ptdb columns idxseg value rows) := by
  obtain ⟨hnotFull, hnotLeading⟩ := not_leadingEqual_of_differs hdiffers
  constructor
  · rintro ⟨hfull, hpart⟩ (hpadding | hpassed | hruns)
    · exact hnotLeading hpadding.binary hpadding.leading
    · exact hnotLeading hpassed.binary hpassed.leading
    · rcases limits_hold_iff.2 hruns.runs with hholds | ⟨hbinary, hholds⟩
      · exact hnotFull (hfull.1 hholds)
      · exact hnotLeading hbinary ((hpart hbinary).1 hholds).1
  · intro hnone
    have hnot := fun hholds => hnone (.inr (.inr ⟨htuples, hdiffers, limits_hold_iff.1 hholds⟩))
    exact ⟨⟨fun hholds => absurd (.inl hholds) hnot, fun hc => absurd hc hnotFull⟩,
      fun hbinary => ⟨fun hholds => absurd (.inr ⟨hbinary, hholds⟩) hnot,
        fun hc => absurd hc.1 (hnotLeading hbinary)⟩⟩

/-- The columns that are specified are those of the index. -/
theorem Specified.getElem? (hspec : Specified pidb ptdb columns idxseg value) {i : Nat}
    {column : IDXSEG × Option (List Byte)} (hcolumn : column ∈ (columns ++ [(idxseg, value)])[i]?) :
    pidb.rgidxseg[i]? = some column.1 := by
  rcases Nat.lt_or_ge i columns.length with hlt | hge
  · rw [Option.mem_def, List.getElem?_append_left hlt] at hcolumn
    obtain ⟨rest, hrest⟩ := hspec.leading
    rw [← hrest, List.getElem?_append_left (by rwa [List.length_map]), List.getElem?_map, hcolumn]
    rfl
  · have hi : i = columns.length := by
      have hlen := (List.getElem?_eq_some_iff.1 hcolumn).1
      rw [List.length_append, List.length_singleton] at hlen
      omega
    subst hi
    rw [Option.mem_def, List.getElem?_append_right (Nat.le_refl _), Nat.sub_self] at hcolumn
    rw [hspec.last, ← Option.some.inj hcolumn]

/-- Otherwise the segments of each column are the same, or differ before the shorter ends. -/
theorem keyColumns_apart (hvalid : pidb.Valid ptdb) (hrecord : ValidRecord pidb ptdb lineRec)
    (hspec : Specified pidb ptdb columns idxseg value)
    (hnot : ¬ (pidb.fTuples = true ∧ FirstDiffers pidb ptdb columns idxseg value
      (keyColumns pidb lineRec rgitag ichOffset cbDataMost 0 pidb.rgidxseg))) :
    ∀ i, ∀ column ∈ (columns ++ [(idxseg, value)])[i]?,
      ∀ row ∈ (keyColumns pidb lineRec rgitag ichOffset cbDataMost 0 pidb.rgidxseg)[i]?,
      ∀ m, (i = 0 → m = pidb.cbKeyMost) →
        Apart ((keySegment pidb ptdb column.1 column.2).take m)
          ((keySegment pidb ptdb row.1 row.2).take m) := by
  intro i column hcolumn other hother m hm
  have hspecified := hspec.getElem? hcolumn
  rw [Option.mem_def, keyColumns_getElem?, hspecified, Nat.zero_add] at hother
  obtain rfl := Option.some.inj hother
  by_cases htuple : pidb.fTuples = true ∧ i = 0 ∧ fCOLUMNIDFixed column.1.columnid = true
  · obtain ⟨htuples, rfl, hfixed⟩ := htuple
    rw [hm rfl]
    refine .inl ?_
    by_contra hne
    refine hnot ⟨htuples, column, ?_, _, ?_, hfixed, hne⟩
    · rw [List.head?_eq_getElem?]
      exact hcolumn
    · rw [Option.mem_def, List.head?_eq_getElem?, keyColumns_getElem?, hspecified]
      rfl
  · exact (keySegment_apart hvalid.cbVarSegMacT_pos (hspec.passed i column hcolumn).holds
      (keyColumn_holds hvalid hrecord hspecified htuple)).take m

/-- From a binary column on, the columns of the row hold data of their types. -/
theorem keyColumns_holds (hvalid : pidb.Valid ptdb) (hrecord : ValidRecord pidb ptdb lineRec)
    (hspec : Specified pidb ptdb columns idxseg value) (hbinary : HasPartialLimit ptdb idxseg) :
    ∀ other ∈ (keyColumns pidb lineRec rgitag ichOffset cbDataMost 0 pidb.rgidxseg).drop
      columns.length,
      ∀ pbField ∈ other.2, (ptdb other.1.columnid).Holds
        (fCOLUMNIDFixed other.1.columnid) pbField := by
  intro other hmem
  obtain ⟨i, hi⟩ := List.mem_iff_getElem?.1 hmem
  rw [List.getElem?_drop, keyColumns_getElem?] at hi
  obtain ⟨seg, hseg, rfl⟩ := Option.map_eq_some_iff.1 hi
  rw [Nat.zero_add]
  refine keyColumn_holds hvalid hrecord hseg ?_
  rintro ⟨-, hzero, hfixed⟩
  -- the first column is the binary one
  have hfirst : columns.length + i = columns.length := by omega
  rw [hfirst, hspec.last] at hseg
  rw [← Option.some.inj hseg, hbinary.1] at hfixed
  exact Bool.false_ne_true hfixed

/-- An index over a binary column, not of tuples. -/
def exampleBinaryIndex : IDB := { exampleTupleIndex with fTuples := false }

theorem exampleBinaryIndex_valid : exampleBinaryIndex.Valid exampleTable where
  rgidxseg_ne_nil := List.cons_ne_nil _ _
  cbVarSegMac_pos := by decide
  cbVarSegMac_le := by decide
  room := fun _ _ => show 0 < 255 by decide
  tupleData := fun h => absurd h Bool.false_ne_true
  tupleLimits := fun h => absurd h Bool.false_ne_true

theorem exampleBinaryIndex_specified (pbField : List Byte) :
    Specified exampleBinaryIndex exampleTable [] ⟨⟨.Tagged, 256⟩, false, false⟩ (some pbField) where
  leading := List.nil_prefix
  last := rfl
  passed := by
    intro i column hcolumn
    cases i with
    | zero =>
      obtain rfl := Option.some.inj hcolumn
      exact ⟨fun _ _ => ⟨fun h => absurd (show false = true from h.symm) Bool.false_ne_true,
        fun h => absurd (show false = true from h) Bool.false_ne_true⟩, fun h =>
          absurd h Bool.false_ne_true⟩
    | succ i => cases hcolumn

end Ese.Norm
