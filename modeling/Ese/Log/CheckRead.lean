import Ese.Log.Shadow

/-!
# Reading the last log file

After a crash the log file is read segment by segment. A segment that verifies for its index and has
its position is good. One of an earlier life of the file, a shadow and a segment of zeros are empty,
and nothing good may follow. Any other is restored from the segment after it, which must be its
shadow, or the file is corrupt.
-/

namespace Ese.Log

inductive CheckERR
  | JET_errSuccess
  | JET_errLogFileCorrupt
  | JET_errLogTornWriteDuringHardRestore
  | JET_errLogCorruptDuringHardRestore
  | JET_errLogTornWriteDuringHardRecovery
  | JET_errLogCorruptDuringHardRecovery
  deriving DecidableEq, Repr

/-- How the log is read: to be patched or not, for a caller that only asks whether it is patchable,
in a hard restore up to a generation, the current log or another, with segments of zeros or not. -/
structure CheckArgs where
  fReadOnly : Bool
  fIsPatchable : Bool
  fHardRestore : Bool
  lgenHighRestore : Nat
  fJetLog : Bool
  fZeroFilled : Bool

/-- The file, the segments as the reader has them, and the last segment that is good. -/
structure CheckState where
  file : Nat → Mem
  rgb : Nat → Mem
  fEmptyPageSeen : Bool
  isecLastValid : Nat

/-- A turn of the loop goes on, or leaves it with an error and `*pfIsPatchable`. -/
inductive CheckTurn
  | next (s : CheckState)
  | exit (err : CheckERR) (fIsPatchable : Bool) (s : CheckState)

section
variable (code : ChecksumCode) (strm : LOG_STREAM) (args : CheckArgs)

/-- The error of `ReportCorruption`. -/
def reportCorruption (fIsTornWrite : Bool) : CheckERR :=
  if args.fHardRestore then
    if strm.lGeneration ≤ args.lgenHighRestore then
      if fIsTornWrite then .JET_errLogTornWriteDuringHardRestore
      else .JET_errLogCorruptDuringHardRestore
    else if fIsTornWrite then .JET_errLogTornWriteDuringHardRecovery
    else .JET_errLogCorruptDuringHardRecovery
  else .JET_errLogFileCorrupt

/-- A segment that does not verify is restored from its shadow. -/
def fixWithShadow (isec : Nat) (s : CheckState) : CheckTurn :=
  let (fVerified, pbSegment) := checksumSegment code isec (s.rgb (isec + 1))
  let s := { s with rgb := Function.update s.rgb (isec + 1) pbSegment }
  if ¬fVerified ∨ cmpLgpos (leLgposSegment pbSegment) ⟨0, isec, strm.lGeneration⟩ ≠ 0 then
    .exit (reportCorruption strm args false) false s
  else if args.fIsPatchable then .exit .JET_errSuccess true s
  else if args.fHardRestore ∧ (strm.lGeneration ≤ args.lgenHighRestore ∨ ¬args.fJetLog) then
    .exit (reportCorruption strm args true) false s
  else
    .next { s with
      file := if args.fReadOnly then s.file else Function.update s.file isec pbSegment
      rgb := Function.update s.rgb isec pbSegment
      isecLastValid := isec }

/-- A turn of the loop of `ErrLGCheckReadLastLogRecordFF`. -/
def checkSegment (isec : Nat) (s : CheckState) : CheckTurn :=
  let (fVerified, pbSegment) := checksumSegment code isec (s.rgb isec)
  if ¬fVerified then
    -- is it shadow sector?
    let (fShadow, pbSegment) :=
      if isec ≠ strm.cSecHeader then checksumSegment code (isec - 1) pbSegment
      else (false, pbSegment)
    let s := { s with rgb := Function.update s.rgb isec pbSegment }
    if fShadow then .next { s with fEmptyPageSeen := true }
    else if args.fZeroFilled ∧ fUtilZeroed pbSegment then .next { s with fEmptyPageSeen := true }
    else if s.fEmptyPageSeen then .exit (reportCorruption strm args false) false s
    else fixWithShadow code strm args isec s
  else
    let s := { s with rgb := Function.update s.rgb isec pbSegment }
    let cmp := cmpLgpos (leLgposSegment pbSegment) ⟨0, isec, strm.lGeneration⟩
    if cmp < 0 then .next { s with fEmptyPageSeen := true }
    else if cmp > 0 then .exit (reportCorruption strm args false) false s
    else if s.fEmptyPageSeen then .exit (reportCorruption strm args false) false s
    else .next { s with isecLastValid := isec }

/-- The loop over `n` segments from `isec` on. -/
def checkLoop : Nat → Nat → CheckState → CheckERR × Bool × CheckState
  | 0, _, s => (.JET_errSuccess, false, s)
  | n + 1, isec, s =>
    match checkSegment code strm args isec s with
    | .next s => checkLoop n (isec + 1) s
    | .exit err fIsPatchable s => (err, fIsPatchable, s)

/-- What `ErrLGCheckReadLastLogRecordFF` leaves: the error, `*pfIsPatchable`, `m_lgposLastRec`, the
file and the reader's segments. -/
structure CheckResult where
  err : CheckERR
  fIsPatchable : Bool
  lgposLastRec : LGPOS
  file : Nat → Mem
  rgb : Nat → Mem

/-- `ErrLGCheckReadLastLogRecordFF`, without the search for a term record in the last segment. -/
def errLGCheckReadLastLogRecordFF (file : Nat → Mem) : CheckResult :=
  let (err, fIsPatchable, s) := checkLoop code strm args (strm.cSecLGFile - 1 - strm.cSecHeader)
    strm.cSecHeader ⟨file, file, false, strm.cSecHeader - 1⟩
  ⟨err, fIsPatchable, ⟨0, s.isecLastValid + 1, strm.lGeneration⟩, s.file, s.rgb⟩

/-- A segment of an earlier life of the file, in its place or as a shadow, a shadow of this one, or
one of zeros. -/
inductive Old (isec : Nat) (sec : Mem) : Prop
  | own (sealedFor : SealedFor isec sec)
      (lgpos : (leLgposSegment sec).qw < LGPOS.qw ⟨0, isec, strm.lGeneration⟩)
  | shadow (first : strm.cSecHeader < isec) (sealedFor : SealedFor (isec - 1) sec)
  | zero (version : args.fZeroFilled = true) (zeroed : fUtilZeroed sec = true)

/-- The call is to restore a damaged segment: it does not only ask whether the log is patchable, and
a hard restore does not keep it from it. -/
def MayPatch : Prop :=
  args.fIsPatchable = false ∧
    (args.fHardRestore = true → args.lgenHighRestore < strm.lGeneration ∧ args.fJetLog = true)

end

variable {code : ChecksumCode} {strm : LOG_STREAM} {lg : Nat → Nat → Byte} {args : CheckArgs}
  {isec : Nat} {s : CheckState}

/-! ## A turn of the loop -/

theorem checkSegment_good {cb : Nat} (h : LogSegment strm lg isec cb (s.rgb isec))
    (hempty : s.fEmptyPageSeen = false) :
    checkSegment code strm args isec s = .next { s with isecLastValid := isec } := by
  have hcmp : cmpLgpos (leLgposSegment (s.rgb isec)) ⟨0, isec, strm.lGeneration⟩ = 0 :=
    cmpLgpos_eq_zero_iff.2 h.lgpos
  unfold checkSegment
  rw [h.sealedFor.checksumSegment_eq]
  simp only [not_true_eq_false, if_false, hcmp, Int.lt_irrefl, gt_iff_lt, hempty,
    Bool.false_eq_true,
    Function.update_eq_self]

theorem checkSegment_old (h : Old strm args isec (s.rgb isec)) (hisec : isec < 2 ^ 16) :
    checkSegment code strm args isec s = .next { s with fEmptyPageSeen := true } := by
  unfold checkSegment
  cases h with
  | own sealedFor lgpos =>
    rw [sealedFor.checksumSegment_eq]
    simp only [not_true_eq_false, if_false, cmpLgpos_neg_iff, lgpos, if_true,
      Function.update_eq_self]
  | shadow first sealedFor =>
    have hne : isec ≠ strm.cSecHeader := by omega
    rw [sealedFor.checksumSegment_ne (show isec - 1 ≠ isec by omega) (by omega) (by omega)]
    simp only [Bool.false_eq_true, not_false_eq_true, if_true, hne, ne_eq,
      sealedFor.checksumSegment_eq,
      Function.update_eq_self]
  | zero version zeroed =>
    rw [checksumSegment_zero zeroed]
    simp only [Bool.false_eq_true, not_false_eq_true, if_true, checksumSegment_zero zeroed,
      ite_self,
      version, zeroed, and_self, Function.update_eq_self]

/-- A damaged segment, whatever the verification made of it, is one to fix. -/
theorem checkSegment_fix (h : Damaged code strm isec (s.rgb isec))
    (hempty : s.fEmptyPageSeen = false) :
    ∃ pbSegment, checkSegment code strm args isec s
      = fixWithShadow code strm args isec { s with rgb := Function.update s.rgb isec pbSegment } :=
        by
  obtain ⟨pbSegment, hpb, hformat⟩ : ∃ pbSegment,
      (if isec ≠ strm.cSecHeader then
        checksumSegment code (isec - 1) (checksumSegment code isec (s.rgb isec)).2
      else (false, (checksumSegment code isec (s.rgb isec)).2)) = (false, pbSegment) ∧
        fFormat pbSegment = true := by
    have hformat : fFormat (checksumSegment code isec (s.rgb isec)).2 = true :=
      fFormat_checksumSegment h.format
    split
    · next hne =>
      exact ⟨_, Prod.ext (h.failsShadow hne) rfl, fFormat_checksumSegment hformat⟩
    · exact ⟨_, rfl, hformat⟩
  refine ⟨pbSegment, ?_⟩
  unfold checkSegment
  cases hfirst : checksumSegment code isec (s.rgb isec) with
  | mk fVerified pbFirst =>
  rw [hfirst] at hpb
  have hfails := h.fails
  rw [hfirst] at hfails
  dsimp only at hfails hpb ⊢
  rw [hfails, hpb]
  simp only [Bool.false_eq_true, not_false_eq_true, if_true, if_false,
    fUtilZeroed_of_fFormat hformat,
    and_false, hempty]

section
variable {cb : Nat} (h : Damaged code strm isec (s.rgb isec))
  (hshadow : LogSegment strm lg isec cb (s.rgb (isec + 1))) (hempty : s.fEmptyPageSeen = false)
include h hshadow hempty

/-- A damaged segment is taken from its shadow. -/
theorem checkSegment_damaged (hpatch : MayPatch strm args) :
    checkSegment code strm args isec s = .next { s with
      file := if args.fReadOnly then s.file else Function.update s.file isec (s.rgb (isec + 1))
      rgb := Function.update s.rgb isec (s.rgb (isec + 1))
      isecLastValid := isec } := by
  obtain ⟨hask, hhard⟩ := hpatch
  have hrefuse : ¬(args.fHardRestore = true ∧
      (strm.lGeneration ≤ args.lgenHighRestore ∨ ¬args.fJetLog = true)) := by
    rintro ⟨hrestore, hgen | hjet⟩
    · have := (hhard hrestore).1
      omega
    · exact hjet (hhard hrestore).2
  have hcmp : cmpLgpos (leLgposSegment (s.rgb (isec + 1))) ⟨0, isec, strm.lGeneration⟩ = 0 :=
    cmpLgpos_eq_zero_iff.2 hshadow.lgpos
  obtain ⟨pbSegment, hfix⟩ := checkSegment_fix h hempty
  rw [hfix]
  unfold fixWithShadow
  dsimp only
  rw [Function.update_of_ne (by omega), hshadow.sealedFor.checksumSegment_eq]
  simp only [not_true_eq_false, hcmp, ne_eq, or_self, if_false, hask, Bool.false_eq_true, hrefuse]
  have hother : Function.update (Function.update s.rgb isec pbSegment) (isec + 1) (s.rgb (isec + 1))
      = Function.update s.rgb isec pbSegment := by
    rw [Function.update_eq_iff]
    exact ⟨(Function.update_of_ne (by omega) _ _).symm, fun _ _ => rfl⟩
  rw [hother, Function.update_idem]

/-- Where it is not to be restored the file is left alone, and the call says that it is patchable or
fails with a torn write. -/
theorem checkSegment_refused (hpatch : ¬MayPatch strm args) :
    ∃ s', s'.file = s.file ∧
      (checkSegment code strm args isec s = .exit .JET_errSuccess true s' ∨
        checkSegment code strm args isec s = .exit (reportCorruption strm args true) false s') := by
  have hcmp : cmpLgpos (leLgposSegment (s.rgb (isec + 1))) ⟨0, isec, strm.lGeneration⟩ = 0 :=
    cmpLgpos_eq_zero_iff.2 hshadow.lgpos
  obtain ⟨pbSegment, hfix⟩ := checkSegment_fix h hempty
  rw [hfix]
  unfold fixWithShadow
  dsimp only
  rw [Function.update_of_ne (by omega), hshadow.sealedFor.checksumSegment_eq]
  simp only [not_true_eq_false, hcmp, ne_eq, or_self, if_false]
  cases hask : args.fIsPatchable with
  | true =>
    rw [if_pos rfl]
    refine ⟨_, ?_, Or.inl rfl⟩
    rfl
  | false =>
    have hrefuse : args.fHardRestore = true ∧
        (strm.lGeneration ≤ args.lgenHighRestore ∨ ¬args.fJetLog = true) := by
      by_contra hnot
      refine hpatch ⟨hask, fun hrestore => ?_⟩
      rw [not_and_or, not_or, not_not, Nat.not_le] at hnot
      exact hnot.resolve_left (not_not_intro hrestore)
    rw [if_neg (by decide), if_pos hrefuse]
    refine ⟨_, ?_, Or.inr rfl⟩
    rfl

end

/-! ## The loop -/

/-- Good segments are passed one after the other. -/
theorem checkLoop_good (n m : Nat) (hlast : s.isecLastValid + 1 = isec)
    (hempty : s.fEmptyPageSeen = false)
    (h : ∀ i < n, ∃ cb, LogSegment strm lg (isec + i) cb (s.rgb (isec + i))) :
    checkLoop code strm args (n + m) isec s =
      checkLoop code strm args m (isec + n) { s with isecLastValid := isec + n - 1 } := by
  induction n generalizing isec s with
  | zero =>
    rw [Nat.zero_add, Nat.add_zero, ← hlast, Nat.add_sub_cancel]
  | succ n ih =>
    obtain ⟨cb, hgood⟩ := h 0 (Nat.succ_pos n)
    rw [Nat.add_zero] at hgood
    rw [show n + 1 + m = n + m + 1 by omega, checkLoop, checkSegment_good hgood hempty]
    have hrest : ∀ i < n, ∃ cb, LogSegment strm lg (isec + 1 + i) cb (s.rgb (isec + 1 + i)) := by
      intro i hi
      rw [show isec + 1 + i = isec + (i + 1) by omega]
      exact h (i + 1) (by omega)
    have hloop : checkLoop code strm args (n + m) (isec + 1) { s with isecLastValid := isec }
        = checkLoop code strm args m (isec + 1 + n) { s with isecLastValid := isec + 1 + n - 1 } :=
      ih rfl hempty hrest
    dsimp only
    rw [hloop, show isec + 1 + n = isec + (n + 1) by omega]

/-- Empty segments are passed to the end of the file. -/
theorem checkLoop_old (n : Nat) (hfile : isec + n ≤ 2 ^ 16)
    (h : ∀ i < n, Old strm args (isec + i) (s.rgb (isec + i))) :
    ∃ fEmptyPageSeen, checkLoop code strm args n isec s =
      (.JET_errSuccess, false, { s with fEmptyPageSeen := fEmptyPageSeen }) := by
  induction n generalizing isec s with
  | zero => exact ⟨_, rfl⟩
  | succ n ih =>
    have hold := h 0 (Nat.succ_pos n)
    rw [Nat.add_zero] at hold
    rw [checkLoop, checkSegment_old hold (by omega)]
    refine ih (by omega) fun i hi => ?_
    rw [show isec + 1 + i = isec + (i + 1) by omega]
    exact h (i + 1) (by omega)

end Ese.Log
