import Ese.LogDiff.TaggedParts

/-!
# Redo of a record diff

The parts of `LGSetColumnDiffs` follow each other, so what they emit aligns the old record with the
new one from end to end. Redo of the diff therefore gives the new record, and the entries replace
disjoint ranges of the old one in increasing order.
-/

namespace Ese

section redo
variable {s : PageSize} {fucb : FUCB} {tdb : TDB} {dataNew dataOld : Rec} {diff : List Byte}
  {pbDiff pbOld : Mem}

/-- The fixed columns up to the null bitmap. -/
theorem Rec.WF.ibFixedNullBitMap_mono (htdb : tdb.WF) (hold : dataOld.WF s tdb)
    (hnew : dataNew.WF s tdb) (hlast : dataOld.fidFixedLastInRec ≤ dataNew.fidFixedLastInRec) :
    dataOld.ibFixedNullBitMap ≤ dataNew.ibFixedNullBitMap := by
  rw [hold.ibFixedNullBitMap, hnew.ibFixedNullBitMap]
  have hmax := hnew.fidFixed.2
  generalize dataNew.fidFixedLastInRec = fid at hlast hmax
  induction fid, hlast using Nat.le_induction with
  | base => exact le_refl _
  | succ fid _ ih =>
    have hlt := htdb.lt (fid + 1) (Nat.succ_pos fid) hmax
    rw [← tdb.next_pred (Nat.succ_pos fid) hmax, Nat.succ_sub_one] at hlt
    exact (ih (by omega)).trans hlt.le

theorem Update.cVarColumns_le (hup : Update s fucb tdb dataNew dataOld) :
    dataOld.cVarColumns ≤ dataNew.cVarColumns :=
  Nat.sub_le_sub_right hup.varLast _

/-- Whatever `LGSetColumnDiffs` emits is an alignment of the two records. -/
theorem lGSetColumnDiffs_spec (htdb : tdb.WF) (hold : dataOld.WF s tdb) (hnew : dataNew.WF s tdb)
    (hup : Update s fucb tdb dataNew dataOld)
    (h : lGSetColumnDiffs s fucb tdb dataNew dataOld = some diff) :
    ∃ es, diff = diffEncode s es ∧
      Aligns dataOld dataNew 0 0 es dataOld.length dataNew.length := by
  obtain ⟨rgbDiff₁, hheader, h⟩ := Option.bind_eq_some_iff.1 h
  obtain ⟨⟨rgbDiff₂, f⟩, hfixed, h⟩ := Option.bind_eq_some_iff.1 h
  obtain ⟨es₁, hes₁, hal₁⟩ := headerDiff_emits _ hheader
  obtain ⟨⟨es₂, hes₂, hal₂⟩, hnull⟩ :=
    fixedDiffLoop_spec htdb hup hold.fidFixed.2 Nat.one_pos (Nat.add_comm ..) hfixed
  rw [Nat.sub_self, htdb.start, ← hold.ibFixedNullBitMap] at hal₂
  -- the null bitmap is the same unless it is logged
  have hbitmap : (f || decide (dataOld.fidFixedLastInRec < dataNew.fidFixedLastInRec)) = false →
      Aligns dataOld dataNew dataOld.ibFixedNullBitMap dataNew.ibFixedNullBitMap []
        dataOld.ibEndOfFixedData dataNew.ibEndOfFixedData := by
    intro hf
    rw [Bool.or_eq_false_iff, decide_eq_false_iff_not] at hf
    have hlast := hup.fixedLast
    exact nullBitMap_same hold hnew (by omega) (hnull hf.1).2
  have hvar : ∀ rgbDiff, Emits s dataOld dataNew
      (dataOld.ibVarData + dataOld.ibVarOffsetStart 0)
      (dataNew.ibVarData + dataNew.ibVarOffsetStart 0) rgbDiff _ _ _ := fun rgbDiff =>
    varDiffLoop_emits hold hnew hup hup.cVarColumns_le (Nat.zero_add _)
  simp only [Rec.ibVarOffsetStart_zero, Nat.add_zero] at hvar
  have hrest : Emits s dataOld dataNew dataOld.ibFixedNullBitMap dataOld.ibFixedNullBitMap rgbDiff₂
      _ dataOld.length dataNew.length :=
    (extendedFixedDiff_emits hup.fixedLast
      (fun hlast => by rw [hold.ibFixedNullBitMap, hnew.ibFixedNullBitMap, hlast])
      (hold.ibFixedNullBitMap_mono htdb hnew hup.fixedLast)).bind fun _ =>
    (nullBitMapDiff_emits hold hnew hbitmap).bind fun _ =>
    (varOffsetsDiff_emits hold hnew hup.cVarColumns_le).bind fun _ =>
    (hvar _).bind fun _ =>
    (extendedVarDiff_emits hnew hup.cVarColumns_le).bind fun _ =>
    taggedDiff_emits hold hnew hup
  obtain ⟨es₃, hes₃, hal₃⟩ := hrest _ h
  refine ⟨es₁ ++ (es₂ ++ es₃), ?_, hal₁.trans (hal₂.trans hal₃)⟩
  rw [hes₃, hes₂, hes₁, diffEncode_append, diffEncode_append, List.nil_append, List.append_assoc]

/-- Redo of a record diff gives the new record: whenever `LGSetColumnDiffs` does not overflow, the
diff is empty and the records are equal, or `ErrLGGetAfterImage` rebuilds the new record from the
diff and the old one. The entries of the diff replace disjoint ranges of the old record in
increasing order. -/
theorem errLGGetAfterImage_lGSetColumnDiffs (htdb : tdb.WF) (hold : dataOld.WF s tdb)
    (hnew : dataNew.WF s tdb) (hup : Update s fucb tdb dataNew dataOld)
    (h : lGSetColumnDiffs s fucb tdb dataNew dataOld = some diff) (hpbDiff : pbDiff.Holds 0 diff)
    (hpbOld : pbOld.Holds 0 dataOld) :
    (diff = [] ∧ dataNew = dataOld ∨
      diff ≠ [] ∧ errLGGetAfterImage s pbDiff diff.length pbOld dataOld.length (!s.fSmallPage) =
        .ok dataNew) ∧
    ∃ es : List (Edit Byte), diff = es.flatMap (diffBytes (!s.fSmallPage)) ∧
      es.Pairwise (fun e e' => e.ib + e.cbOld ≤ e'.ib) ∧
      ∀ e ∈ es, e.ib + e.cbOld ≤ dataOld.length := by
  obtain ⟨es, rfl, hal⟩ := lGSetColumnDiffs_spec htdb hold hnew hup h
  have hord := hal.ordered (le_refl _)
  have hlt := hold.length_lt
  have hsmall : s.fSmallPage → s.cbPage ≤ 8192 := by cases s <;> decide
  refine ⟨redo_of_aligns hal hlt.le hnew.length_lt.le (fun hs e he => ?_) hpbDiff hpbOld,
    es, rfl, hord.pairwise, fun e he => hord.end_le he⟩
  have := hsmall hs
  have := hord.end_le he
  omega

end redo

/-! ## A variable column that grows -/

/-- A table with one fixed column of four bytes. -/
def growTdb : TDB := ⟨1, fun _ => ⟨false, 4, 4⟩, 8⟩

/-- The cursor after its first variable column was set. -/
def growFucb : FUCB := ⟨fun ib => if ib = 4 then 1 else 0, false⟩

/-- A record with a fixed column, the variable column `cbVar`, `pv` and a tagged column. -/
def growRec (cbVar : Byte) (pv : List Byte) : Rec :=
  [1, 128, 9, 0, 1, 0, 0, 0, 0xfe, cbVar, 0] ++ pv ++ [0, 1, 4, 0, 0xcc]

theorem growTdb_wf : growTdb.WF := by
  have h1 : ∀ fid, 0 < fid → fid ≤ growTdb.fidFixedLast → fid = 1 :=
    fun fid h₀ h => le_antisymm h h₀
  refine ⟨by decide, fun fid h₀ h => ?_, fun fid h₀ h _ => ?_⟩
  · obtain rfl := h1 fid h₀ h
    decide
  · obtain rfl := h1 fid h₀ h
    decide

theorem growRec_wf {r : Rec} (h : r = growRec 2 [0xaa, 0xbb] ∨ r = growRec 3 [0xaa, 0xbb, 0xdd]) :
    r.WF .kb4 growTdb := by
  have hbits : ∀ ifid < 8, 1 ≤ ifid → r.fFixedNullBit ifid = true := by
    rcases h with rfl | rfl <;> decide +kernel
  have hcols : r.cFixedColumns = 1 ∧ r.cbFixedNullBitMap = 1 ∧ r.cTaggedColumns .kb4 = 1 := by
    rcases h with rfl | rfl <;> decide +kernel
  refine ⟨?_, ?_, ?_, ?_, fun ifid h₁ h₂ => hbits ifid (by omega) (by omega), ?_, ?_, ?_, ?_,
    fun k hk => by omega, ?_, ?_, fun k hk => by omega⟩ <;>
    rcases h with rfl | rfl <;> decide +kernel

theorem grow_update : Update .kb4 growFucb growTdb (growRec 3 [0xaa, 0xbb, 0xdd])
    (growRec 2 [0xaa, 0xbb]) := by
  have h1 : ∀ fid, 0 < fid → fid ≤ (growRec 2 [0xaa, 0xbb]).fidFixedLastInRec → fid = 1 :=
    fun fid h₀ h => le_antisymm h h₀
  refine ⟨by decide, by decide, fun fid h₀ h _ => ?_, fun fid h₀ h _ => ?_, by decide +kernel,
    fun _ c _ => ?_⟩
  · obtain rfl := h1 fid h₀ h
    decide +kernel
  · obtain rfl := h1 fid h₀ h
    decide +kernel
  · rw [show (growRec 2 [0xaa, 0xbb]).taggedColumns .kb4 =
      (growRec 3 [0xaa, 0xbb, 0xdd]).taggedColumns .kb4 by decide +kernel]

/-- A variable column of two bytes grows to three: its offset and its data are logged. -/
theorem errLGGetAfterImage_lGSetColumnDiffs_grow :
    let diff : List Byte := [9, 32, 2, 3, 0, 11, 0, 3, 2, 0xaa, 0xbb, 0xdd]
    errLGGetAfterImage .kb4 (Mem.write (fun _ => 0) 0 diff) 12
      (Mem.write (fun _ => 0) 0 (growRec 2 [0xaa, 0xbb])) 18 false =
        .ok (growRec 3 [0xaa, 0xbb, 0xdd]) := by
  intro diff
  have h := errLGGetAfterImage_lGSetColumnDiffs growTdb_wf (growRec_wf (.inl rfl))
    (growRec_wf (.inr rfl)) grow_update (show _ = some diff by decide +kernel)
    (Mem.holds_write (fun _ => 0) 0 _) (Mem.holds_write (fun _ => 0) 0 _)
  exact (h.1.resolve_left (by decide)).2

end Ese
