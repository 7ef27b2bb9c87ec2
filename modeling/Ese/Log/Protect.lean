import Ese.Log.CheckRead

/-!
# What a crash leaves of the log

What was acknowledged before a crash is in the file, in its segment or in the shadow of it, and
reading the last log file brings it back into its segment.
-/

namespace Ese.Log

section
variable (code : ChecksumCode) (strm : LOG_STREAM) (lg : Nat → Nat → Byte)

/-- A byte of the log that was acknowledged: it is before `m_lgposToWrite`. -/
structure Acked (wb : LOG_WRITE_BUFFER) (isec ib : Nat) : Prop where
  header : strm.cSecHeader ≤ isec
  file : isec < strm.isecLGFileEnd
  segment : cbLGSEGHDR ≤ ib ∧ ib < LOG_SEGMENT_SIZE
  before : cmpLgpos ⟨ib, isec, strm.lGeneration⟩ wb.lgposToWrite < 0

/-- A segment that verifies for an index and has the byte of the log there. -/
def Holds (isec ib : Nat) (sec : Mem) : Prop := checksumSegment code isec sec = (true, sec) ∧
    sec ib = lg isec ib

/-- The segment after the acknowledged ones. -/
def isecAckEnd (wb : LOG_WRITE_BUFFER) : Nat :=
  if wb.fHaveShadow then wb.isecWrite + 1 else wb.isecWrite

/-- Every segment with something acknowledged is in its place. -/
structure Whole (wb : LOG_WRITE_BUFFER) (rgb : Nat → Mem) : Prop where
  before : ∀ isec, strm.cSecHeader ≤ isec → isec < wb.isecWrite →
    LogSegment strm lg isec LOG_SEGMENT_SIZE (rgb isec)
  shadow : wb.fHaveShadow = true → ∀ cb,
    wb.lgposToWrite.qw = LGPOS.qw ⟨cb, wb.isecWrite, strm.lGeneration⟩ →
    LogSegment strm lg wb.isecWrite cb (rgb wb.isecWrite)

end

variable {code : ChecksumCode} {strm : LOG_STREAM} {lg : Nat → Nat → Byte} {args : CheckArgs}
  {wb : LOG_WRITE_BUFFER} {disk : Nat → Mem}

/-! ## Acknowledged bytes -/

theorem LogSegment.holds {isec ib cb : Nat} {sec : Mem} (h : LogSegment strm lg isec cb sec)
    (hlo : cbLGSEGHDR ≤ ib)
    (hhi : ib < cb) : Holds code lg isec ib sec :=
  ⟨h.sealedFor.checksumSegment_eq, h.bytes ib hlo hhi⟩

section
variable {isec ib : Nat} (hacked : Acked strm wb isec ib) (hack : Acknowledged strm wb)
include hacked hack

/-- An acknowledged byte is in a full segment or in the partial one. -/
theorem Acked.cases : isec < wb.isecWrite ∨
    wb.fHaveShadow = true ∧ isec = wb.isecWrite ∧
      ∃ cb, wb.lgposToWrite.qw = LGPOS.qw ⟨cb, wb.isecWrite, strm.lGeneration⟩ ∧ ib < cb := by
  have hbefore := cmpLgpos_neg_iff.1 hacked.before
  have hseg := hacked.segment.2
  have hend := hacked.file
  unfold LOG_SEGMENT_SIZE at hseg
  cases hshadow : wb.fHaveShadow with
  | false =>
    have hfull := hack.full hshadow
    left
    unfold getLgpos at hfull
    split at hfull
    · omega
    · unfold LGPOS.qw at hbefore hfull
      dsimp only at hbefore hfull
      omega
  | true =>
    obtain ⟨-, cb, hcb, hlgpos⟩ := hack.shadow hshadow
    rw [hlgpos] at hbefore
    unfold LOG_SEGMENT_SIZE at hcb
    unfold LGPOS.qw at hbefore
    dsimp only at hbefore
    by_cases hlt : isec < wb.isecWrite
    · exact Or.inl hlt
    · obtain rfl : isec = wb.isecWrite := by omega
      exact Or.inr ⟨rfl, rfl, cb, hlgpos, by omega⟩

theorem Acked.lt_isecAckEnd : isec < isecAckEnd wb := by
  unfold isecAckEnd
  rcases hacked.cases hack with hlt | ⟨hshadow, rfl, -⟩
  · split <;> omega
  · rw [if_pos hshadow]
    exact Nat.lt_succ_self _

theorem Whole.holds {rgb : Nat → Mem} (h : Whole strm lg wb rgb) :
    Holds code lg isec ib (rgb isec) := by
  obtain ⟨hlo, hhi⟩ := hacked.segment
  rcases hacked.cases hack with hlt | ⟨hshadow, rfl, cb, hcb, hib⟩
  · exact (h.before isec hacked.header hlt).holds hlo hhi
  · exact (h.shadow hshadow cb hcb).holds hlo hib

end

/-- An acknowledged byte is in its segment or in the shadow of it. -/
theorem Kept.holds {isec ib : Nat} (h : Kept code strm lg wb disk)
    (hacked : Acked strm wb isec ib) :
    Holds code lg isec ib (disk isec) ∨ Holds code lg isec ib (disk (isec + 1)) := by
  obtain ⟨hlo, hhi⟩ := hacked.segment
  rcases hacked.cases h.ack with hlt | ⟨hshadow, rfl, cb, hcb, hib⟩
  · exact Or.inl ((h.before isec hacked.header hlt).holds hlo hhi)
  · rcases h.shadow hshadow cb hcb with hown | ⟨-, hshad⟩
    · exact Or.inl (hown.holds hlo hib)
    · exact Or.inr (hshad.holds hlo hib)

/-! ## Reading the file -/

/-- The turn at the segment that has a shadow: the segment is good, or it is restored. -/
theorem Kept.checkSegment_shadow (h : Kept code strm lg wb disk) (hpatch : MayPatch strm args)
    (hshadow : wb.fHaveShadow = true) (isecLastValid : Nat) :
    ∃ s, checkSegment code strm args wb.isecWrite ⟨disk, disk, false, isecLastValid⟩ = .next s ∧
      s.isecLastValid = wb.isecWrite ∧ s.fEmptyPageSeen = false ∧ Whole strm lg wb s.rgb ∧
      (args.fReadOnly = false → s.file = s.rgb) ∧ ∀ isec ≠ wb.isecWrite, s.rgb isec =
        disk isec := by
  obtain ⟨-, cb, hcb, hlgpos⟩ := h.ack.shadow hshadow
  have hsame : ∀ cb', wb.lgposToWrite.qw = LGPOS.qw ⟨cb', wb.isecWrite, strm.lGeneration⟩ →
    cb' = cb := by
    intro cb' hcb'
    rw [hlgpos] at hcb'
    unfold LGPOS.qw at hcb'
    dsimp only at hcb'
    omega
  rcases h.shadow hshadow cb hlgpos with hown | ⟨hdamaged, hshad⟩
  · refine ⟨_, checkSegment_good hown rfl, rfl, rfl, ⟨h.before, fun _ cb' hcb' => ?_⟩, fun _ => rfl,
      fun isec _ => rfl⟩
    rw [hsame cb' hcb']
    exact hown
  · refine ⟨_, checkSegment_damaged hdamaged hshad rfl hpatch, rfl, rfl,
      ⟨fun isec hlo hhi => ?_, fun _ cb' hcb' => ?_⟩, fun hrw => ?_, fun isec hne => ?_⟩
    · dsimp only
      rw [Function.update_of_ne (by omega)]
      exact h.before isec hlo hhi
    · dsimp only
      rw [Function.update_self, hsame cb' hcb']
      exact hshad
    · dsimp only
      rw [hrw, if_neg (by decide)]
    · dsimp only
      rw [Function.update_of_ne hne]

/-- The whole scan: the segments with something acknowledged are good or restored, and the rest are
empty. -/
theorem Kept.checkRead (h : Kept code strm lg wb disk) (hpatch : MayPatch strm args)
    (hold : ∀ isec, isecAckEnd wb ≤ isec → isec < strm.cSecLGFile - 1 →
      Old strm args isec (disk isec)) :
    let r := errLGCheckReadLastLogRecordFF code strm args disk
    r.err = .JET_errSuccess ∧ r.lgposLastRec = ⟨0, isecAckEnd wb, strm.lGeneration⟩ ∧
      Whole strm lg wb r.rgb ∧ (args.fReadOnly = false → r.file = r.rgb) := by
  have hheader := h.ack.header
  have hfile := h.ack.file
  have hmax := strm.cSecLGFile_le
  have hpos := strm.cSecHeader_pos
  obtain ⟨n, hn⟩ := Nat.exists_eq_add_of_le hheader
  have hgood : ∀ m, checkLoop code strm args (n + m) strm.cSecHeader
      ⟨disk, disk, false, strm.cSecHeader - 1⟩
      = checkLoop code strm args m wb.isecWrite ⟨disk, disk, false, wb.isecWrite - 1⟩ := by
    intro m
    rw [checkLoop_good n m (by dsimp only; omega) rfl fun i hi =>
      ⟨_, h.before _ (by omega) (by omega)⟩, ← hn]
  unfold errLGCheckReadLastLogRecordFF
  dsimp only
  cases hshadow : wb.fHaveShadow with
  | false =>
    have hend : isecAckEnd wb = wb.isecWrite := by
      unfold isecAckEnd
      rw [hshadow, if_neg (by decide)]
    rw [hend] at hold ⊢
    obtain ⟨m, hm⟩ := Nat.exists_eq_add_of_le hfile
    obtain ⟨fEmptyPageSeen, hrest⟩ : ∃ fEmptyPageSeen,
        checkLoop code strm args m wb.isecWrite ⟨disk, disk, false, wb.isecWrite - 1⟩
          = (.JET_errSuccess, false, ⟨disk, disk, fEmptyPageSeen, wb.isecWrite - 1⟩) :=
      checkLoop_old m (by omega) fun i hi => hold _ (by omega) (by omega)
    rw [show strm.cSecLGFile - 1 - strm.cSecHeader = n + m by omega, hgood, hrest]
    refine ⟨rfl, ?_, ⟨h.before, fun hyes => absurd hyes (by rw [hshadow]; decide)⟩, fun _ => rfl⟩
    dsimp only
    rw [Nat.sub_add_cancel (by omega)]
  | true =>
    have hend : isecAckEnd wb = wb.isecWrite + 1 := by
      unfold isecAckEnd
      rw [hshadow, if_pos rfl]
    rw [hend] at hold ⊢
    obtain ⟨hlt, -⟩ := h.ack.shadow hshadow
    obtain ⟨m, hm⟩ := Nat.exists_eq_add_of_lt hlt
    obtain ⟨s, hturn, hlast, hempty, hwhole, hwrite, hsame⟩ :=
      h.checkSegment_shadow hpatch hshadow (wb.isecWrite - 1)
    obtain ⟨fEmptyPageSeen, hrest⟩ : ∃ fEmptyPageSeen, checkLoop code strm args m
        (wb.isecWrite + 1) s
        = (.JET_errSuccess, false, { s with fEmptyPageSeen := fEmptyPageSeen }) := by
      refine checkLoop_old m (by omega) fun i hi => ?_
      rw [hsame _ (by omega)]
      exact hold _ (by omega) (by omega)
    rw [show strm.cSecLGFile - 1 - strm.cSecHeader = n + (m + 1) by omega, hgood, checkLoop, hturn]
    dsimp only
    rw [hrest]
    exact ⟨rfl, by dsimp only; rw [hlast], hwhole, hwrite⟩

/-! ## Runs -/

/-- In every run of full and partial writes no I/O goes past the file, and after a crash every
acknowledged byte is in its segment or in the shadow of it. Where the segments after them are empty
the reader accepts the file with the end of the log past every acknowledged byte, and has each in
its segment, which it also writes if it can. -/
theorem shadow_protects {s₀ s : System} {actions : List Action} (hstart : Start strm lg s₀)
    (hrun : Run (Step code strm lg) s₀ actions s) :
    (∀ write ∈ s.pending, strm.cSecHeader ≤ write.isec ∧
      write.isec + write.rgsec.length ≤ strm.cSecLGFile) ∧
    ∀ disk, Crash code strm s disk →
      (∀ isec ib, Acked strm s.wb isec ib →
        Holds code lg isec ib (disk isec) ∨ Holds code lg isec ib (disk (isec + 1))) ∧
      ∀ args, MayPatch strm args →
        (∀ isec, isecAckEnd s.wb ≤ isec → isec < strm.cSecLGFile - 1 →
        Old strm args isec (disk isec)) →
        let r := errLGCheckReadLastLogRecordFF code strm args disk
        r.err = .JET_errSuccess ∧
          ∀ isec ib, Acked strm s.wb isec ib →
            cmpLgpos ⟨ib, isec, strm.lGeneration⟩ r.lgposLastRec < 0 ∧
              Holds code lg isec ib (r.rgb isec) ∧
              (args.fReadOnly = false → Holds code lg isec ib (r.file isec)) := by
  have hinv : Inv code strm lg s := hrun.invariant (fun _ _ _ h hstep => h.step hstep) hstart.inv
  refine ⟨fun write hwrite => hinv.inFile hwrite, fun disk hcrash => ?_⟩
  have hkept := hinv.crash hcrash
  refine ⟨fun isec ib hacked => hkept.holds hacked, fun args hpatch hold => ?_⟩
  obtain ⟨herr, hlast, hwhole, hfile⟩ := hkept.checkRead hpatch hold
  refine ⟨herr, fun isec ib hacked => ⟨?_, hwhole.holds hacked hkept.ack, fun hrw => ?_⟩⟩
  · have hlt := hacked.lt_isecAckEnd hkept.ack
    have hseg := hacked.segment.2
    unfold LOG_SEGMENT_SIZE at hseg
    rw [hlast, cmpLgpos_neg_iff]
    unfold LGPOS.qw
    dsimp only
    omega
  · rw [hfile hrw]
    exact hwhole.holds hacked hkept.ack

/-- A log file of a header, two segments and the last. -/
def exampleStream : LOG_STREAM := ⟨1, 1, 4, 3, by decide, by decide, by decide, by decide⟩

/-- The new file, with a buffer of two segments, of zeros as the log is. -/
def exampleStart : System :=
  let wb : LOG_WRITE_BUFFER := ⟨0, LOG_SEGMENT_SIZE * 2, fun _ => 0, 0, 1, false, ⟨0, 1, 1⟩⟩
  ⟨fun _ _ => 0, wb, [], wb⟩

theorem exampleStart_start : Start exampleStream (fun _ _ => 0) exampleStart := by
  refine ⟨rfl, ⟨2, 0, by decide, rfl, rfl⟩,
    ⟨by decide, by decide, fun h => absurd h (by decide), fun _ => by decide⟩, fun isec hlo hhi =>
      ?_,
    fun h => absurd h (by decide)⟩
  have h1 : 1 ≤ isec := hlo
  have h2 : isec < 1 := hhi
  omega

def exampleCode : ChecksumCode := ⟨.M_AMD64, .ChecksumNewFormatSlowly⟩

def exampleArgs : CheckArgs := ⟨false, false, false, 0, true, true⟩

/-- The segment that is written partly. -/
def examplePartial : Mem := pvPartialSegment exampleCode exampleStream exampleStart.wb 100 1 0

/-- The file with that segment and its shadow. -/
def exampleWritten : System :=
  let wb := { exampleStart.wb with fHaveShadow := true, lgposToWrite := ⟨100, 1, 1⟩ }
  ⟨(SectorWrite.mk 1 [examplePartial, examplePartial]).apply exampleStart.disk, wb, [], wb⟩

/-- A segment is written partly, and the crash comes when it is written in full and nothing of that
has reached the file. -/
theorem shadow_protects_partial : ∃ (s : System) (disk : Nat → Mem), s.pending ≠ [] ∧
    Acked exampleStream s.wb 1 50 ∧
    (errLGCheckReadLastLogRecordFF exampleCode exampleStream exampleArgs disk).err =
      .JET_errSuccess ∧
    Holds exampleCode (fun _ _ => 0) 1 50
      ((errLGCheckReadLastLogRecordFF exampleCode exampleStream exampleArgs disk).file 1) := by
  have hpart : Step exampleCode exampleStream (fun _ _ => 0)
    (.writePartial 100 fun _ => 0) exampleStart _ :=
    .writePartial rfl (by decide) (by decide) (by decide) (fun _ _ _ _ _ => rfl) (by decide)
  have hwritten : Run (Step exampleCode exampleStream fun _ _ => 0) exampleStart _ exampleWritten :=
    .snoc (.single hpart)
      (@Step.complete exampleCode exampleStream _ ⟨1, [examplePartial, examplePartial]⟩ [] _ rfl)
  obtain ⟨s, hfull, hpending, hdisk, hend, hacked⟩ : ∃ s,
      Step exampleCode exampleStream (fun _ _ => 0) (.writeFull 1 (fun _ => 0) ⟨0, 2, 1⟩)
        exampleWritten s ∧
        s.pending ≠ [] ∧ s.disk = exampleWritten.disk ∧ isecAckEnd s.wb = 2 ∧
          Acked exampleStream s.wb 1 50 :=
    ⟨_, .writeFull rfl (by decide) (by decide) (by decide) (fun _ _ _ _ _ => rfl) (by decide)
      (by decide),
      List.cons_ne_nil _ _, rfl, rfl, ⟨by decide, by decide, by decide, by decide⟩⟩
  obtain ⟨-, hcrash⟩ := shadow_protects exampleStart_start (.snoc hwritten hfull)
  obtain ⟨-, hread⟩ := hcrash exampleWritten.disk fun isec => Or.inl (congrFun hdisk isec).symm
  have hshadow : SealedFor 1 examplePartial := by
    unfold examplePartial pvPartialSegment
    exact (sealSegment_spec (by decide) (by decide)).1
  obtain ⟨herr, hbyte⟩ := hread exampleArgs ⟨rfl, fun h => absurd h (by decide)⟩
    fun isec hlo hhi => by
    obtain rfl : isec = 2 := by
      have h2 : isec < 3 := hhi
      omega
    exact .shadow (by decide) hshadow
  exact ⟨s, _, hpending, hacked, herr, (hbyte 1 50 hacked).2.2 rfl⟩

end Ese.Log
