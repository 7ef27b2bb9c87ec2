import Ese.LogDiff.ColumnParts
import Ese.Rec.Tagged

/-!
# The tagged part of a record diff

The array of `TAGFLD`s is compared entry by entry, the data of the columns by a merge walk over
both arrays. The walk only skips data of columns that are not marked as set, and these are the
same in both records.
-/

namespace Ese

section array
variable {s : PageSize} {dataNew dataOld : Rec} {rgbDiff : List Byte}
  {ibOld ibNew cbOld cbNew ibMax i : Nat}

/-- The arrays agree again where the inner loop stops, or it stops at the end. -/
theorem arrayResync_spec (dataNew dataOld : Rec) (ibOld ibNew : Nat) (hi : 4 ∣ i) (hmax : 4 ∣ ibMax)
    (hle : i ≤ ibMax) :
    4 ∣ arrayResync dataNew dataOld ibOld ibNew ibMax i ∧
    arrayResync dataNew dataOld ibOld ibNew ibMax i ≤ ibMax ∧
    (arrayResync dataNew dataOld ibOld ibNew ibMax i < ibMax →
      slice dataOld (ibOld + arrayResync dataNew dataOld ibOld ibNew ibMax i) 4 =
        slice dataNew (ibNew + arrayResync dataNew dataOld ibOld ibNew ibMax i) 4) := by
  fun_induction arrayResync dataNew dataOld ibOld ibNew ibMax i with
  | case1 i h ih => exact ih (by omega) (by omega)
  | case2 i h => exact ⟨hi, hle, fun hlt => not_not.1 fun hne => h ⟨hlt, hne⟩⟩

theorem arrayDiffLoop_of_le {cbDiffMax : Nat} {f : Bool} (h : ibMax ≤ i) :
    arrayDiffLoop s dataNew dataOld ibOld ibNew cbOld cbNew cbDiffMax ibMax i rgbDiff f =
      some (rgbDiff, f) := by
  rw [arrayDiffLoop, if_neg (by omega)]

/-- What the comparison of the arrays has appended when it reaches the end of the shorter one: an
alignment up to there, or up to both ends. -/
theorem arrayDiffLoop_spec {rgbDiff' : List Byte} {cbDiffMax : Nat} {f f' : Bool}
    (hmax : ibMax = min cbOld cbNew) (h4 : 4 ∣ ibMax) (hi : 4 ∣ i) (hle : i ≤ ibMax)
    (h : arrayDiffLoop s dataNew dataOld ibOld ibNew cbOld cbNew cbDiffMax ibMax i rgbDiff f =
      some (rgbDiff', f')) :
    ∃ es, rgbDiff' = rgbDiff ++ diffEncode s es ∧
      ((Aligns dataOld dataNew (ibOld + i) (ibNew + i) es (ibOld + ibMax) (ibNew + ibMax) ∧
          f' = f) ∨
        (Aligns dataOld dataNew (ibOld + i) (ibNew + i) es (ibOld + cbOld) (ibNew + cbNew) ∧
          f' = true)) := by
  fun_induction arrayDiffLoop s dataNew dataOld ibOld ibNew cbOld cbNew cbDiffMax ibMax i rgbDiff
    f with
  | case1 i rgbDiff f hlt heq ih =>
    obtain ⟨es, hes, hal⟩ := ih (by omega) (by omega) h
    exact ⟨es, hes, hal.imp (fun h => ⟨.copy heq h.1, h.2⟩) fun h => ⟨.copy heq h.1, h.2⟩⟩
  | case2 i rgbDiff f hlt hne i' cbMinSize fTruncate cbOldData cbNewData ih₁ ih₂ =>
    obtain ⟨rgbDiff₁, happ, h⟩ := Option.bind_eq_some_iff.1 h
    have hdiff := fLGAppendDiff_eq_some happ
    have hstart := le_arrayResync dataNew dataOld ibOld ibNew ibMax (i + 4)
    obtain ⟨hdvd, hle', hsame⟩ := arrayResync_spec dataNew dataOld ibOld ibNew
      (show 4 ∣ i + 4 by omega) h4 (by omega)
    change i + 4 ≤ i' at hstart
    change 4 ∣ i' at hdvd
    change i' ≤ ibMax at hle'
    rcases Nat.lt_or_ge i' ibMax with hlt' | hge'
    · -- the entry ends in front of an equal entry of both arrays
      have hold : cbOldData = i' - i := dif_neg (by omega)
      have hnew : cbNewData = i' - i := dif_neg (by omega)
      rw [hold, hnew] at hdiff
      rw [if_neg (by omega)] at h
      obtain ⟨es, hes, hal⟩ := ih₂ rgbDiff₁ (by omega) (by omega) h
      have hentry : Aligns dataOld dataNew (ibOld + i) (ibNew + i) [_] (ibOld + i + (i' - i))
        (ibNew + i + (i' - i)) := .single (i' - i) (i' - i)
      rw [show ibOld + i + (i' - i) = ibOld + i' by omega,
        show ibNew + i + (i' - i) = ibNew + i' by omega] at hentry
      have hstep := hentry.trans (Aligns.same 4 (hsame hlt'))
      refine ⟨_ :: es, by rw [hes, hdiff, List.append_assoc]; rfl, ?_⟩
      exact hal.imp (fun h => ⟨hstep.trans h.1, h.2⟩) fun h => ⟨hstep.trans h.1, h.2⟩
    · -- the entry takes the rest of both arrays
      have heq : i' = ibMax := by omega
      have hold : ibOld + i + cbOldData = ibOld + cbOld := by
        simp only [cbOldData, fTruncate, cbMinSize, heq, true_and]
        split_ifs <;> omega
      have hnew : ibNew + i + cbNewData = ibNew + cbNew := by
        simp only [cbNewData, fTruncate, cbMinSize, heq, true_and]
        split_ifs <;> omega
      rw [if_pos heq, arrayDiffLoop_of_le hge'] at h
      obtain ⟨rfl, rfl⟩ := Prod.mk.inj (Option.some.inj h)
      have hentry : Aligns dataOld dataNew (ibOld + i) (ibNew + i) [_] _ _ :=
        .single cbOldData cbNewData
      rw [hold, hnew] at hentry
      exact ⟨[_], by rw [hdiff, diffEncode_singleton], .inr ⟨hentry, rfl⟩⟩
  | case3 i rgbDiff f hge =>
    obtain ⟨rfl, rfl⟩ := Prod.mk.inj (Option.some.inj h)
    obtain rfl : i = ibMax := by omega
    exact ⟨[], by simp, .inl ⟨.refl _ _, rfl⟩⟩

/-- `FLGSetArrayDiff` covers the arrays, entry by entry or as a whole. -/
theorem fLGSetArrayDiff_emits (hold : 4 ∣ cbOld) (hnew : 4 ∣ cbNew) :
    Emits s dataOld dataNew ibOld ibNew rgbDiff
      (fLGSetArrayDiff s dataNew dataOld ibOld ibNew cbOld cbNew rgbDiff)
      (ibOld + cbOld) (ibNew + cbNew) := by
  have hdiff : Emits s dataOld dataNew ibOld ibNew rgbDiff
      (arrayDiff s dataNew dataOld ibOld ibNew cbOld cbNew rgbDiff)
      (ibOld + cbOld) (ibNew + cbNew) := by
    intro rgbDiff' h
    obtain ⟨⟨rgbDiff₁, f⟩, hloop, h⟩ := Option.bind_eq_some_iff.1 h
    have hmin : min cbOld cbNew / 4 * 4 = min cbOld cbNew := Nat.div_mul_cancel (by omega)
    dsimp only at h
    rw [hmin] at hloop h
    obtain ⟨es, hes, hal⟩ := arrayDiffLoop_spec rfl (by omega) (dvd_zero 4) (Nat.zero_le _) hloop
    rcases hal with ⟨hal, hf⟩ | ⟨hal, hf⟩
    · split_ifs at h with hf'
      · -- the arrays are of one length
        obtain rfl := Option.some.inj h
        have hlen : cbOld = cbNew := by simpa [hf] using hf'
        rw [show min cbOld cbNew = cbOld by omega] at hal
        exact ⟨es, hes, hlen ▸ hal⟩
      · -- the rest of the longer array is one more entry
        have hrest : Aligns dataOld dataNew (ibOld + min cbOld cbNew) (ibNew + min cbOld cbNew)
          [_] _ _ := .single (cbOld - min cbOld cbNew) (cbNew - min cbOld cbNew)
        rw [show ibOld + min cbOld cbNew + (cbOld - min cbOld cbNew) = ibOld + cbOld by omega,
          show ibNew + min cbOld cbNew + (cbNew - min cbOld cbNew) = ibNew + cbNew by
            omega] at hrest
        refine ⟨es ++ [_], ?_, hal.trans hrest⟩
        rw [fLGAppendDiff_eq_some h, hes, diffEncode_append, diffEncode_singleton,
          List.append_assoc]
    · rw [if_pos hf] at h
      obtain rfl := Option.some.inj h
      exact ⟨es, hes, hal⟩
  intro rgbDiff' h
  unfold fLGSetArrayDiff at h
  split at h
  · next hsome => exact hdiff _ (hsome.trans h)
  · exact Emits.appendRec _ _ rfl rfl _ h

end array

/-! ## The columns that are not set -/

/-- A column of the tagged part is not set if no bit of that part is. -/
theorem FUCB.fColumnSet_of_not_fTaggedColumnSet {fucb : FUCB}
    (h : fucb.fTaggedColumnSet = false) {fid : Nat} (hfid : fidTaggedLeast ≤ fid) :
    fucb.fColumnSet fid = false := by
  have hfid' : 256 ≤ fid := hfid
  have hmem : ibHash fid ∈ List.range' 8 24 := by
    rw [List.mem_range'_1, ibHash, if_neg (by omega), if_neg (by omega)]
    omega
  have hzero : fucb.rgbitSet (ibHash fid) = 0 := by
    have := List.any_eq_false.1 h _ hmem
    simpa using this
  rw [FUCB.fColumnSet, hzero]
  simp

section walk
variable {s : PageSize} {fucb : FUCB} {tdb : TDB} {dataNew dataOld : Rec} {rgbDiff : List Byte}

/-- Columns of one key that are not set have the same data in both records. -/
theorem Update.tagData_eq (hnew : dataNew.WF s tdb)
    (hup : Update s fucb tdb dataNew dataOld) (himpl : fucb.fTagImplicitOp = false) {i j : Nat}
    (hi : i < dataOld.cTaggedColumns s) (hj : j < dataNew.cTaggedColumns s)
    (hset : fucb.fColumnSet (dataOld.ptagfld i).Fid = false)
    (hkey : (dataOld.ptagfld i).key = (dataNew.ptagfld j).key) :
    dataOld.tagData s i = dataNew.tagData s j := by
  have hmem := (hup.tagged himpl (dataOld.taggedColumn s i) hset).1
    (Rec.mem_taggedColumns.2 ⟨i, hi, rfl⟩)
  obtain ⟨k, hk, hcol⟩ := Rec.mem_taggedColumns.1 hmem
  have hkj : k = j := hnew.key_inj hk hj <| by
    rw [← Rec.key_taggedColumn s, hcol, Rec.key_taggedColumn, hkey]
  subst hkj
  exact (congrArg TaggedColumn.pv hcol).symm

/-- The merge walk covers the data of the tagged columns. -/
theorem tagDiffLoop_emits (hold : dataOld.WF s tdb) (hnew : dataNew.WF s tdb)
    (hup : Update s fucb tdb dataNew dataOld) (himpl : fucb.fTagImplicitOp = false) {i j : Nat}
    (hi : i ≤ dataOld.cTaggedColumns s) (hj : j ≤ dataNew.cTaggedColumns s) :
    Emits s dataOld dataNew (dataOld.tagPos s i) (dataNew.tagPos s j) rgbDiff
      (tagDiffLoop s fucb dataNew dataOld i j rgbDiff) dataOld.length dataNew.length := by
  fun_induction tagDiffLoop s fucb dataNew dataOld i j rgbDiff with
  | case1 i j rgbDiff h hcmp hset ih =>
    -- a column that was set is replaced
    rw [Rec.tagPos_of_lt h.1, Rec.tagPos_of_lt h.2]
    exact (Emits.appendRec _ _ (hold.tagPos_succ h.1) (hnew.tagPos_succ h.2)).bind
      fun rgbDiff => ih rgbDiff h.1 h.2
  | case2 i j rgbDiff h hcmp hset ih =>
    -- a column that is the same is copied
    refine (ih h.1 h.2).copy (hold.copy_tagData hnew h.1 h.2 ?_)
    rw [TAGFLD.tagFldCmp_eq, Nat.compare_eq_eq] at hcmp
    rcases Bool.eq_false_or_eq_true (fucb.fColumnSet (dataOld.ptagfld i).Fid) with hs | hs
    · by_contra hne
      exact hset ⟨hs, .inr hne⟩
    · exact hup.tagData_eq hnew himpl h.1 h.2 hs hcmp
  | case3 i j rgbDiff h hcmp ih =>
    -- a new column is inserted
    rw [Rec.tagPos_of_lt h.2]
    refine Emits.bind ?_ fun rgbDiff => ih rgbDiff hi h.2
    rw [Rec.tagPos_of_lt h.1]
    exact .appendRec _ _ (Nat.add_zero _) (hnew.tagPos_succ h.2)
  | case4 i j rgbDiff h hcmp ih =>
    -- an old column is deleted
    rw [Rec.tagPos_of_lt h.1]
    exact (Emits.delete _ _ (hold.tagPos_succ h.1)).bind fun rgbDiff => ih rgbDiff h.1 hj
  | case5 i j rgbDiff h hj' =>
    -- the remaining new columns are inserted at the end
    have hle := hnew.tagPos_le j
    rw [show i = dataOld.cTaggedColumns s by omega, Rec.tagPos_last]
    rw [Rec.tagPos_of_lt hj'] at hle ⊢
    exact .appendRec _ _ (Nat.add_zero _) (Nat.add_sub_cancel' hle)
  | case6 i j rgbDiff h hj' hi' =>
    -- the remaining old columns are deleted
    have hle := hold.tagPos_le i
    rw [show j = dataNew.cTaggedColumns s by omega, Rec.tagPos_last]
    rw [Rec.tagPos_of_lt hi'] at hle ⊢
    exact .delete _ _ (Nat.add_sub_cancel' hle)
  | case7 i j rgbDiff h hj' hi' =>
    rw [show i = dataOld.cTaggedColumns s by omega, Rec.tagPos_last,
      show j = dataNew.cTaggedColumns s by omega, Rec.tagPos_last]
    exact .skip (.refl _ _)

/-- The tagged part of the diff covers the tagged area. -/
theorem taggedDiff_emits (hold : dataOld.WF s tdb) (hnew : dataNew.WF s tdb)
    (hup : Update s fucb tdb dataNew dataOld) :
    Emits s dataOld dataNew dataOld.ibTaggedData dataNew.ibTaggedData rgbDiff
      (taggedDiff s fucb dataNew dataOld rgbDiff) dataOld.length dataNew.length := by
  unfold taggedDiff
  split_ifs with himpl hset
  · exact .appendRec _ _ (Nat.add_sub_cancel' hold.tagged) (Nat.add_sub_cancel' hnew.tagged)
  · have harray : Emits s dataOld dataNew dataOld.ibTaggedData dataNew.ibTaggedData rgbDiff _ _ _ :=
      fLGSetArrayDiff_emits (dvd_mul_left 4 (dataOld.cTaggedColumns s))
        (dvd_mul_left 4 (dataNew.cTaggedColumns s))
    rw [← hold.tagPos_zero, ← hnew.tagPos_zero] at harray
    exact harray.bind fun rgbDiff =>
      tagDiffLoop_emits hold hnew hup (by simpa using himpl) (Nat.zero_le _) (Nat.zero_le _)
  · -- no tagged column is set, so the tagged columns are the same
    refine .skip (Rec.taggedArea_congr hold hnew (hold.taggedColumns_eq hnew fun c => ?_))
    have hunset : ∀ {r : Rec}, r.WF s tdb → c ∈ r.taggedColumns s →
        fucb.fColumnSet c.fid = false := by
      intro r hr hc
      obtain ⟨k, hk, rfl⟩ := Rec.mem_taggedColumns.1 hc
      exact FUCB.fColumnSet_of_not_fTaggedColumnSet (by simpa using hset) (hr.tagFid k hk)
    have htagged := hup.tagged (by simpa using himpl) c
    exact ⟨fun hc => (htagged (hunset hold hc)).1 hc, fun hc => (htagged (hunset hnew hc)).2 hc⟩

end walk

end Ese
