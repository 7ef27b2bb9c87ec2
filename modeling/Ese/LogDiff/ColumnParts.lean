import Ese.LogDiff.Columns
import Ese.LogDiff.LongValue

/-!
# The fixed and variable parts of a record diff

Each part of `LGSetColumnDiffs` extends an alignment of the two records over the part it is about
(`Emits`): what it does not log is the same in both records. The fixed part rests on the null
bitmap being logged as soon as one bit changed, the variable part on the offset table being logged
from the first changed entry on.
-/

namespace Ese

/-- If `r` returns a diff, it is `rgbDiff` with entries behind it that align the records from
`i`, `j` to `i'`, `j'`. -/
def Emits (s : PageSize) (old new : List Byte) (i j : Nat) (rgbDiff : List Byte)
    (r : Option (List Byte)) (i' j' : Nat) : Prop :=
  ∀ rgbDiff', r = some rgbDiff' → ∃ es, rgbDiff' = rgbDiff ++ diffEncode s es ∧
    Aligns old new i j es i' j'

namespace Emits

variable {s : PageSize} {old new rgbDiff : List Byte} {i j k l i' j' : Nat}
  {r : Option (List Byte)}

/-- Nothing is logged where the records agree. -/
theorem skip (h : Aligns old new i j [] i' j') : Emits s old new i j rgbDiff (some rgbDiff) i' j' :=
  fun _ hr => ⟨[], by simp [Option.some.inj hr], h⟩

/-- One entry. -/
theorem append (cbDiffMax n m : Nat) : Emits s old new i j rgbDiff
    (fLGAppendDiff s rgbDiff cbDiffMax ⟨i, n, slice new j m⟩) (i + n) (j + m) :=
  fun _ hr => ⟨[⟨i, n, slice new j m⟩],
    by rw [fLGAppendDiff_eq_some hr, diffEncode_singleton], .single n m⟩

/-- A part of the record is emitted. -/
theorem appendRec (n m : Nat) (hi : i + n = i') (hj : j + m = j') :
    Emits s old new i j rgbDiff (appendRecDiff s new rgbDiff i n j m) i' j' :=
  hi ▸ hj ▸ append new.length n m

/-- A deletion. -/
theorem delete (cbDiffMax n : Nat) (hi : i + n = i') :
    Emits s old new i j rgbDiff (fLGAppendDiff s rgbDiff cbDiffMax ⟨i, n, []⟩) i' j := by
  have h : Emits s old new i j rgbDiff _ _ _ := append cbDiffMax n 0
  rwa [slice_zero, hi] at h

/-- Two parts, one behind the other. -/
theorem bind {f : List Byte → Option (List Byte)} (h : Emits s old new i j rgbDiff r k l)
    (hf : ∀ rgbDiff, Emits s old new k l rgbDiff (f rgbDiff) i' j') :
    Emits s old new i j rgbDiff (r >>= f) i' j' := by
  intro rgbDiff' hr
  obtain ⟨rgbDiff₁, hr₁, hr₂⟩ := Option.bind_eq_some_iff.1 hr
  obtain ⟨es, hes, hal⟩ := h _ hr₁
  obtain ⟨fs, hfs, hal'⟩ := hf _ _ hr₂
  exact ⟨es ++ fs, by rw [hfs, hes, diffEncode_append, List.append_assoc], hal.trans hal'⟩

/-- A stretch that agrees in front of a part. -/
theorem copy (h : Aligns old new i j [] k l) (hr : Emits s old new k l rgbDiff r i' j') :
    Emits s old new i j rgbDiff r i' j' := by
  intro rgbDiff' hr'
  obtain ⟨es, hes, hal⟩ := hr _ hr'
  exact ⟨es, hes, h.trans hal⟩

/-- The end points, up to equality. -/
theorem cast (h : Emits s old new i j rgbDiff r i' j') (hi : i' = k) (hj : j' = l) :
    Emits s old new i j rgbDiff r k l := hi ▸ hj ▸ h

end Emits

/-! ## What an update may change -/

/-- An update of `dataOld` to `dataNew` through the cursor `fucb`: columns are added at the ends
only, columns not marked as set and deleted columns are unchanged, and a fixed column that is now
NULL keeps its bytes. -/
structure Update (s : PageSize) (fucb : FUCB) (tdb : TDB) (dataNew dataOld : Rec) : Prop where
  fixedLast : dataOld.fidFixedLastInRec ≤ dataNew.fidFixedLastInRec
  varLast : dataOld.fidVarLastInRec ≤ dataNew.fidVarLastInRec
  /-- The bytes of a fixed column change only if it is set, not deleted and not NULL. -/
  fixedData : ∀ fid, 0 < fid → fid ≤ dataOld.fidFixedLastInRec →
    (fucb.fColumnSet fid = false ∨ (tdb.pfieldFixed fid).fDeleted = true ∨
      dataNew.fFixedNullBit (fid - 1) = true) →
    slice dataOld (tdb.pfieldFixed fid).ibRecordOffset
        (tdb.ibOffsetOfNextColumn fid - (tdb.pfieldFixed fid).ibRecordOffset) =
      slice dataNew (tdb.pfieldFixed fid).ibRecordOffset
        (tdb.ibOffsetOfNextColumn fid - (tdb.pfieldFixed fid).ibRecordOffset)
  fixedNull : ∀ fid, 0 < fid → fid ≤ dataOld.fidFixedLastInRec → fucb.fColumnSet fid = false →
    dataOld.fFixedNullBit (fid - 1) = dataNew.fFixedNullBit (fid - 1)
  var : ∀ ifid < dataOld.cVarColumns, fucb.fColumnSet (fidVarNone + 1 + ifid) = false →
    dataOld.varColumn ifid = dataNew.varColumn ifid
  /-- The tagged columns that are not set are the same, unless they changed implicitly. -/
  tagged : fucb.fTagImplicitOp = false → ∀ c : TaggedColumn, fucb.fColumnSet c.fid = false →
    (c ∈ dataOld.taggedColumns s ↔ c ∈ dataNew.taggedColumns s)

/-! ## Fixed columns -/

section fixed
variable {s : PageSize} {fucb : FUCB} {tdb : TDB} {dataNew dataOld : Rec} {rgbDiff : List Byte}

/-- The header is emitted. -/
theorem headerDiff_emits :
    Emits s dataOld dataNew 0 0 rgbDiff (headerDiff s dataNew dataOld rgbDiff) 4 4 := by
  unfold headerDiff
  split_ifs with h
  · exact .appendRec 4 4 rfl rfl
  · exact .skip (.same 4 (not_not.1 h))

/-- The next column begins where this one ends. -/
theorem TDB.next_pred (tdb : TDB) {fid : Nat} (h₀ : 0 < fid) (h : fid ≤ tdb.fidFixedLast) :
    tdb.ibOffsetOfNextColumn (fid - 1) = (tdb.pfieldFixed fid).ibRecordOffset := by
  rw [TDB.ibOffsetOfNextColumn, if_neg (by omega), Nat.sub_add_cancel h₀]

/-- A fixed column that is neither logged nor changed is copied. -/
theorem Update.copy_fixed (htdb : tdb.WF) (hup : Update s fucb tdb dataNew dataOld) {fid : Nat}
    (h₀ : 0 < fid) (h : fid ≤ dataOld.fidFixedLastInRec) (hlast : fid ≤ tdb.fidFixedLast)
    (hsame : fucb.fColumnSet fid = false ∨ (tdb.pfieldFixed fid).fDeleted = true ∨
      dataNew.fFixedNullBit (fid - 1) = true) :
    Aligns dataOld dataNew (tdb.ibOffsetOfNextColumn (fid - 1))
      (tdb.ibOffsetOfNextColumn (fid - 1)) [] (tdb.ibOffsetOfNextColumn fid)
      (tdb.ibOffsetOfNextColumn fid) := by
  have hal := Aligns.same _ (hup.fixedData fid h₀ h hsame)
  rw [Nat.add_sub_cancel' (htdb.lt fid h₀ hlast).le] at hal
  rwa [tdb.next_pred h₀ hlast]

/-- What the loop over the fixed columns has done from `fid` on: it has covered the columns, and
unless it asks for the null bitmap none of their null bits changed. -/
structure FixedDiff (s : PageSize) (tdb : TDB) (dataNew dataOld : Rec) (fid : Nat)
    (rgbDiff rgbDiff' : List Byte) (f f' : Bool) : Prop where
  aligns : ∃ es, rgbDiff' = rgbDiff ++ diffEncode s es ∧ Aligns dataOld dataNew
    (tdb.ibOffsetOfNextColumn (fid - 1)) (tdb.ibOffsetOfNextColumn (fid - 1)) es
    (tdb.ibOffsetOfNextColumn dataOld.fidFixedLastInRec)
    (tdb.ibOffsetOfNextColumn dataOld.fidFixedLastInRec)
  null : f' = false → f = false ∧ ∀ k, fid ≤ k → k ≤ dataOld.fidFixedLastInRec →
    dataOld.fFixedNullBit (k - 1) = dataNew.fFixedNullBit (k - 1)

/-- The loop over the fixed columns emits those that have changed. -/
theorem fixedDiffLoop_spec (htdb : tdb.WF) (hup : Update s fucb tdb dataNew dataOld)
    (hlast : dataOld.fidFixedLastInRec ≤ tdb.fidFixedLast) :
    ∀ {n fid : Nat} {rgbDiff rgbDiff' : List Byte} {f f' : Bool}, 0 < fid →
    fid + n = dataOld.fidFixedLastInRec + 1 →
    fixedDiffLoop s fucb tdb dataNew dataOld n fid rgbDiff f = some (rgbDiff', f') →
    FixedDiff s tdb dataNew dataOld fid rgbDiff rgbDiff' f f' := by
  intro n
  induction n with
  | zero =>
    intro fid rgbDiff rgbDiff' f f' _ hn h
    obtain ⟨rfl, rfl⟩ := Prod.mk.inj (Option.some.inj h)
    obtain rfl : fid = dataOld.fidFixedLastInRec + 1 := by omega
    refine ⟨⟨[], by simp, .refl _ _⟩, fun hf => ⟨hf, fun k hk hk' => by omega⟩⟩
  | succ n ih =>
    intro fid rgbDiff rgbDiff' f f' hfid hn h
    -- a column is done once its bytes are aligned and a change of its null bit is noted
    have step : ∀ {rgbDiff₁ : List Byte} {es₁ : List (Edit Byte)} {fLog : Bool},
        rgbDiff₁ = rgbDiff ++ diffEncode s es₁ →
        Aligns dataOld dataNew (tdb.ibOffsetOfNextColumn (fid - 1))
          (tdb.ibOffsetOfNextColumn (fid - 1)) es₁ (tdb.ibOffsetOfNextColumn fid)
          (tdb.ibOffsetOfNextColumn fid) →
        (fLog = false → f = false ∧
          dataOld.fFixedNullBit (fid - 1) = dataNew.fFixedNullBit (fid - 1)) →
        fixedDiffLoop s fucb tdb dataNew dataOld n (fid + 1) rgbDiff₁ fLog =
          some (rgbDiff', f') →
        FixedDiff s tdb dataNew dataOld fid rgbDiff rgbDiff' f f' := by
      intro rgbDiff₁ es₁ fLog hes₁ hal₁ hnull h
      obtain ⟨⟨es, hes, hal⟩, hf⟩ := ih (Nat.succ_pos fid) (by omega) h
      refine ⟨⟨es₁ ++ es, by rw [hes, hes₁, diffEncode_append, List.append_assoc],
        hal₁.trans hal⟩, fun hf' => ⟨(hnull (hf hf').1).1, fun k hk hk' => ?_⟩⟩
      rcases eq_or_ne k fid with rfl | hne
      · exact (hnull (hf hf').1).2
      · exact (hf hf').2 k (by omega) hk'
    have hcopy := hup.copy_fixed htdb hfid (by omega) (by omega)
    rw [fixedDiffLoop] at h
    dsimp only at h
    split_ifs at h with hset hlog
    · -- the column is logged
      obtain ⟨rgbDiff₁, happ, h⟩ := Option.bind_eq_some_iff.1 h
      have hal : Aligns dataOld dataNew (tdb.pfieldFixed fid).ibRecordOffset
          (tdb.pfieldFixed fid).ibRecordOffset [_] _ _ :=
        .single (tdb.pfieldFixed fid).cbMaxLen (tdb.pfieldFixed fid).cbMaxLen
      rw [htdb.cbMaxLen fid hfid (by omega) hlog.2, ← tdb.next_pred hfid (by omega)] at hal
      refine step ?_ hal (fun hf => by simpa using hf) h
      rw [fLGAppendDiff_eq_some happ, diffEncode_singleton, tdb.next_pred hfid (by omega)]
    · -- the column is now NULL, or deleted
      refine step (by simp) (hcopy (.inr ?_)) (fun hf => by simpa using hf) h
      rcases Bool.eq_false_or_eq_true (dataNew.fFixedNullBit (fid - 1)) with hnull | hnull
      · exact .inr hnull
      · exact .inl (by simpa [hnull] using hlog)
    · -- the column is not set
      have hset : fucb.fColumnSet fid = false := by simpa using hset
      exact step (by simp) (hcopy (.inl hset))
        (fun hf => ⟨hf, hup.fixedNull fid hfid (by omega) hset⟩) h

/-- Fixed columns that the new record adds are inserted in front of the null bitmap. -/
theorem extendedFixedDiff_emits (hlast : dataOld.fidFixedLastInRec ≤ dataNew.fidFixedLastInRec)
    (hsame : dataOld.fidFixedLastInRec = dataNew.fidFixedLastInRec →
      dataOld.ibFixedNullBitMap = dataNew.ibFixedNullBitMap)
    (hle : dataOld.ibFixedNullBitMap ≤ dataNew.ibFixedNullBitMap) :
    Emits s dataOld dataNew dataOld.ibFixedNullBitMap dataOld.ibFixedNullBitMap rgbDiff
      (extendedFixedDiff s dataNew dataOld rgbDiff) dataOld.ibFixedNullBitMap
      dataNew.ibFixedNullBitMap := by
  unfold extendedFixedDiff
  split_ifs with h
  · exact .appendRec _ _ rfl (Nat.add_sub_cancel' hle)
  · rw [← hsame (by omega)]
    exact .skip (.refl _ _)

/-- The null bitmap ends where the variable offsets start. -/
theorem Rec.WF.ibFixedNullBitMap {r : Rec} (h : r.WF s tdb) :
    r.ibFixedNullBitMap = tdb.ibOffsetOfNextColumn r.fidFixedLastInRec := by
  rw [Rec.ibFixedNullBitMap, h.fixed, Nat.add_sub_cancel]

/-- The fixed data ends with the null bitmap. -/
theorem Rec.WF.ibEndOfFixedData {r : Rec} (h : r.WF s tdb) :
    r.ibEndOfFixedData = r.ibFixedNullBitMap + r.cbFixedNullBitMap := by
  rw [h.ibFixedNullBitMap, h.fixed]

/-- The fixed data ends in the record. -/
theorem Rec.WF.ibEndOfFixedData_le {r : Rec} (h : r.WF s tdb) : r.ibEndOfFixedData ≤ r.length := by
  have := h.tagged
  rw [Rec.ibTaggedData, Rec.ibVarData] at this
  omega

/-- The null bit of a column is a bit of the byte that holds it. -/
theorem Rec.fFixedNullBit_eq (r : Rec) {k t : Nat} (ht : t < 8) :
    r.fFixedNullBit (8 * k + t) = (r.byteAt (r.ibFixedNullBitMap + k)).getLsbD t := by
  rw [Rec.fFixedNullBit, show (8 * k + t) / 8 = k by omega, show (8 * k + t) % 8 = t by omega]
  rw [Bool.eq_iff_iff, decide_eq_true_iff]
  exact and_twoPow_ne_zero _ ht

/-- Records with the same null bits have the same null bitmap. -/
theorem nullBitMap_same (hold : dataOld.WF s tdb) (hnew : dataNew.WF s tdb)
    (hlast : dataOld.fidFixedLastInRec = dataNew.fidFixedLastInRec)
    (hnull : ∀ k, 0 < k → k ≤ dataOld.fidFixedLastInRec →
      dataOld.fFixedNullBit (k - 1) = dataNew.fFixedNullBit (k - 1)) :
    Aligns dataOld dataNew dataOld.ibFixedNullBitMap dataNew.ibFixedNullBitMap []
      dataOld.ibEndOfFixedData dataNew.ibEndOfFixedData := by
  have hcb : dataNew.cbFixedNullBitMap = dataOld.cbFixedNullBitMap := by
    rw [Rec.cbFixedNullBitMap, Rec.cbFixedNullBitMap, Rec.cFixedColumns, Rec.cFixedColumns, hlast]
  have ho := hold.ibEndOfFixedData_le
  have hn := hnew.ibEndOfFixedData_le
  rw [hold.ibEndOfFixedData] at ho ⊢
  rw [hnew.ibEndOfFixedData, hcb] at hn ⊢
  refine .same _ (Rec.slice_congr ho hn fun k hk => BitVec.eq_of_getLsbD_eq fun t ht => ?_)
  rw [← Rec.fFixedNullBit_eq _ ht, ← Rec.fFixedNullBit_eq _ ht]
  rcases Nat.lt_or_ge (8 * k + t) dataOld.fidFixedLastInRec with hlt | hge
  · exact hnull (8 * k + t + 1) (by omega) hlt
  · -- a bit behind the last column
    rw [hold.nullBits _ hge (by omega), hnew.nullBits _ (hlast.symm.le.trans hge) (by omega)]

/-- The null bitmap is emitted. -/
theorem nullBitMapDiff_emits (hold : dataOld.WF s tdb) (hnew : dataNew.WF s tdb) {f : Bool}
    (hf : f = false → Aligns dataOld dataNew dataOld.ibFixedNullBitMap dataNew.ibFixedNullBitMap []
      dataOld.ibEndOfFixedData dataNew.ibEndOfFixedData) :
    Emits s dataOld dataNew dataOld.ibFixedNullBitMap dataNew.ibFixedNullBitMap rgbDiff
      (nullBitMapDiff s dataNew dataOld rgbDiff f) dataOld.ibEndOfFixedData
      dataNew.ibEndOfFixedData := by
  unfold nullBitMapDiff
  split_ifs with h
  · exact .appendRec _ _ hold.ibEndOfFixedData.symm hnew.ibEndOfFixedData.symm
  · exact .skip (hf (by simpa using h))

end fixed

/-! ## Variable columns -/

section var
variable {s : PageSize} {fucb : FUCB} {tdb : TDB} {dataNew dataOld : Rec} {rgbDiff : List Byte}

/-- The loop finds the first offset that has changed. -/
theorem firstVarOffsetChanged_spec (dataNew dataOld : Rec) (n ifid : Nat) :
    ∃ k ≤ n, firstVarOffsetChanged dataNew dataOld n ifid = ifid + k ∧
      ∀ m < k, dataOld.pibVarOffsets (ifid + m) = dataNew.pibVarOffsets (ifid + m) := by
  induction n generalizing ifid with
  | zero => exact ⟨0, le_refl _, rfl, by simp⟩
  | succ n ih =>
    rw [firstVarOffsetChanged]
    split_ifs with h
    · exact ⟨0, Nat.zero_le _, rfl, by simp⟩
    · obtain ⟨k, hk, heq, hall⟩ := ih (ifid + 1)
      refine ⟨k + 1, by omega, by rw [heq]; omega, fun m hm => ?_⟩
      cases m with
      | zero => exact not_not.1 h
      | succ m =>
        have := hall m (by omega)
        rwa [show ifid + 1 + m = ifid + (m + 1) by omega] at this

/-- Records with the same first offset entries have the same bytes there. -/
theorem varOffsets_same {k : Nat} (hold : dataOld.ibEndOfFixedData + 2 * k ≤ dataOld.length)
    (hnew : dataNew.ibEndOfFixedData + 2 * k ≤ dataNew.length)
    (h : ∀ m < k, dataOld.pibVarOffsets m = dataNew.pibVarOffsets m) :
    Aligns dataOld dataNew dataOld.ibEndOfFixedData dataNew.ibEndOfFixedData []
      (dataOld.ibEndOfFixedData + 2 * k) (dataNew.ibEndOfFixedData + 2 * k) := by
  refine .same _ (Rec.slice_congr hold hnew fun b hb => ?_)
  obtain ⟨hlow, hhigh⟩ := Rec.wordAt_inj (h (b / 2) (by omega))
  rcases Nat.mod_two_eq_zero_or_one b with hb2 | hb2
  · rwa [show 2 * (b / 2) = b by omega] at hlow
  · rwa [Nat.add_assoc, Nat.add_assoc, show 2 * (b / 2) + 1 = b by omega] at hhigh

/-- The variable data begins in the record. -/
theorem Rec.WF.ibVarData_le {r : Rec} (h : r.WF s tdb) : r.ibVarData ≤ r.length :=
  (Nat.le_add_right _ _).trans h.tagged

/-- The offset table is the same up to the first changed entry and logged from there on. -/
theorem varOffsetsDiff_emits (hold : dataOld.WF s tdb) (hnew : dataNew.WF s tdb)
    (hlast : dataOld.cVarColumns ≤ dataNew.cVarColumns) :
    Emits s dataOld dataNew dataOld.ibEndOfFixedData dataNew.ibEndOfFixedData rgbDiff
      (varOffsetsDiff s dataNew dataOld rgbDiff) dataOld.ibVarData dataNew.ibVarData := by
  have ho := hold.ibVarData_le
  have hn := hnew.ibVarData_le
  unfold varOffsetsDiff
  obtain ⟨k, hk, hfirst, hall⟩ := firstVarOffsetChanged_spec dataNew dataOld dataOld.cVarColumns 0
  simp only [Nat.zero_add] at hfirst hall
  rw [Rec.ibVarData] at ho hn ⊢
  rw [Rec.ibVarData]
  have hsame := varOffsets_same (by omega) (by omega) hall
  simp only [hfirst]
  split_ifs with h
  · refine Emits.copy hsame (Emits.appendRec _ _ ?_ ?_)
    · omega
    · omega
  · have hk' : k = dataOld.cVarColumns := by omega
    rw [hk', Nat.mul_comm] at hsame
    rw [show dataNew.cVarColumns = dataOld.cVarColumns by omega]
    exact .skip hsame

/-- The first variable column begins at 0. -/
theorem Rec.ibVarOffsetStart_zero (r : Rec) : r.ibVarOffsetStart 0 = 0 := rfl

/-- A variable column starts where the one before it ends. -/
theorem Rec.ibVarOffsetStart_succ (r : Rec) (ifid : Nat) :
    r.ibVarOffsetStart (ifid + 1) = r.ibVarOffsetEnd ifid := rfl

/-- The variable data ends with its last column. -/
theorem Rec.ibEndOfVarData_eq (r : Rec) : r.ibEndOfVarData = r.ibVarOffsetStart r.cVarColumns := rfl

/-- Variable columns are in order. -/
theorem Rec.WF.ibVarOffsetStart_mono {r : Rec} (h : r.WF s tdb) {k l : Nat} (hkl : k ≤ l)
    (hl : l ≤ r.cVarColumns) : r.ibVarOffsetStart k ≤ r.ibVarOffsetStart l := by
  induction l, hkl using Nat.le_induction with
  | base => exact le_refl _
  | succ l _ ih => exact (ih (by omega)).trans (h.var l (by omega))

/-- The loop over the variable columns covers them. -/
theorem varDiffLoop_emits (hold : dataOld.WF s tdb) (hnew : dataNew.WF s tdb)
    (hup : Update s fucb tdb dataNew dataOld) (hlast : dataOld.cVarColumns ≤ dataNew.cVarColumns) :
    ∀ {n ifid : Nat} {rgbDiff : List Byte}, ifid + n = dataOld.cVarColumns →
    Emits s dataOld dataNew (dataOld.ibVarData + dataOld.ibVarOffsetStart ifid)
      (dataNew.ibVarData + dataNew.ibVarOffsetStart ifid) rgbDiff
      (varDiffLoop s fucb dataNew dataOld n ifid rgbDiff)
      (dataOld.ibVarData + dataOld.ibVarOffsetStart dataOld.cVarColumns)
      (dataNew.ibVarData + dataNew.ibVarOffsetStart dataOld.cVarColumns) := by
  intro n
  induction n with
  | zero =>
    intro ifid rgbDiff hn
    rw [Nat.add_zero] at hn
    rw [← hn]
    exact .skip (.refl _ _)
  | succ n ih =>
    intro ifid rgbDiff hn
    have ho := hold.var ifid (by omega)
    have hw := hnew.var ifid (by omega)
    have hnext : ∀ {rgbDiff : List Byte}, Emits s dataOld dataNew
        (dataOld.ibVarData + dataOld.ibVarOffsetEnd ifid)
        (dataNew.ibVarData + dataNew.ibVarOffsetEnd ifid) rgbDiff
        (varDiffLoop s fucb dataNew dataOld n (ifid + 1) rgbDiff) _ _ := ih (by omega)
    rw [varDiffLoop]
    split_ifs with hset
    · exact (Emits.appendRec _ _ (by omega) (by omega)).bind fun _ => hnext
    · -- the data of a column that is not set is the same, so it is as long
      have hsame := hup.var ifid (by omega) (by simpa using hset)
      have hoend := hold.ibVarOffsetStart_mono (show ifid + 1 ≤ dataOld.cVarColumns by omega)
        (le_refl _)
      have hnend := hnew.ibVarOffsetStart_mono (show ifid + 1 ≤ dataNew.cVarColumns by omega)
        (le_refl _)
      rw [← Rec.ibEndOfVarData_eq, Rec.ibVarOffsetStart_succ] at hoend hnend
      have hot := hold.tagged
      have hnt := hnew.tagged
      rw [Rec.ibTaggedData] at hot hnt
      have hlen := congrArg List.length hsame
      rw [Rec.varColumn, Rec.varColumn, length_slice (by omega), length_slice (by omega)] at hlen
      rw [Rec.varColumn, Rec.varColumn, ← hlen] at hsame
      have hal := Aligns.same _ hsame
      rw [show dataOld.ibVarData + dataOld.ibVarOffsetStart ifid +
          (dataOld.ibVarOffsetEnd ifid - dataOld.ibVarOffsetStart ifid) =
          dataOld.ibVarData + dataOld.ibVarOffsetEnd ifid by omega,
        show dataNew.ibVarData + dataNew.ibVarOffsetStart ifid +
          (dataOld.ibVarOffsetEnd ifid - dataOld.ibVarOffsetStart ifid) =
          dataNew.ibVarData + dataNew.ibVarOffsetEnd ifid by omega] at hal
      exact hnext.copy hal

/-- Variable columns that the new record adds are inserted behind the old ones. -/
theorem extendedVarDiff_emits (hnew : dataNew.WF s tdb)
    (hlast : dataOld.cVarColumns ≤ dataNew.cVarColumns) :
    Emits s dataOld dataNew (dataOld.ibVarData + dataOld.ibVarOffsetStart dataOld.cVarColumns)
      (dataNew.ibVarData + dataNew.ibVarOffsetStart dataOld.cVarColumns) rgbDiff
      (extendedVarDiff s dataNew dataOld rgbDiff) dataOld.ibTaggedData dataNew.ibTaggedData := by
  have hmono := hnew.ibVarOffsetStart_mono hlast (le_refl _)
  rw [← Rec.ibEndOfVarData_eq] at hmono
  unfold extendedVarDiff
  rw [Rec.ibTaggedData, Rec.ibTaggedData, ← Rec.ibEndOfVarData_eq]
  split_ifs with h
  · exact .appendRec _ _ (Nat.add_zero _) (by omega)
  · rw [show dataOld.cVarColumns = dataNew.cVarColumns by omega, ← Rec.ibEndOfVarData_eq]
    exact .skip (.refl _ _)

end var

end Ese
