import Ese.LogWrite.Durable

/-!
# Acknowledged batches are recovered

`ErrLGWaitForWrite` waits until the position of a batch is before `m_lgposToWrite`. Whatever the
batches were, in which order the copies of them and the I/Os were done and what a crash left of the
I/O in flight, the batch is then in the last log file with all batches before it:
`ErrLGCheckReadLastLogRecordFF` accepts the file, and `ErrLGGetNextRecFF` returns their records, in
the order in which their space was reserved.
-/

namespace Ese.LogWrite

open Ese.Log (LOG_SEGMENT_SIZE cbLGSEGHDR LOG_STREAM LGPOS cmpLgpos cmpLgpos_neg_iff Acked
    Acknowledged isecAckEnd)
open Ese.LogBuffer
open Ese.LogRead (LOG_FILE LOG_READ_BUFFER)
open Ese.LogRead.LOG_FILE (cbLGSizeOfData)

section
variable {code : ChecksumCode} {strm : LOG_STREAM} {logtime : Nat → BitVec 64} {ibStart : Nat}
    {s s' : LOG} {a : Action}

/-- Every step keeps the invariant. -/
theorem Inv.step (hend : strm.isecLGFileEnd = strm.cSecLGFile - 1) (hstart : ibStart % 4096 = 0)
    (h : Inv code strm ibStart s) (hstep : Step code strm logtime a s s') :
      Inv code strm ibStart s' := by
  cases hstep with
  | logRec nonempty lrs reserved => exact h.logRec hend nonempty lrs reserved
  | copy pending copied => exact h.copied hstart pending copied
  | write idle copied data =>
    by_cases hfull : s.csecFull = 0
    · exact h.writePartial hend idle copied data hfull
    · exact h.writeFull hend idle copied hfull
  | complete next => exact h.complete next

/-- The first record is at the start of a segment. -/
theorem ibFirst_mod (strm : LOG_STREAM) : ibFirst strm % 4096 = 0 := Nat.mul_mod_right _ _

/-- The invariant holds in every run. -/
theorem Start.run {s₀ : LOG} {actions : List Action} (hstart : Start strm s₀)
    (hrun : Run (Step code strm logtime) s₀ actions s) : Inv code strm (ibFirst strm) s :=
  hrun.invariant (fun _ _ _ h hstep => h.step hstart.lgFileEnd (ibFirst_mod strm) hstep) hstart.inv

/-! ## Batches -/

/-- Where a batch begins, the first one being 0. -/
def ibBatch (strm : LOG_STREAM) (s : LOG) (n : Nat) : Nat :=
  ibFirst strm + (batchBytes (ibFirst strm) (s.logged.take n).flatten).length

/-- Later batches end later. -/
theorem ibBatch_mono {n m : Nat} (h : n ≤ m) : ibBatch strm s n ≤ ibBatch strm s m := by
  obtain ⟨k, rfl⟩ := Nat.exists_eq_add_of_le h
  unfold ibBatch
  rw [List.take_add, List.flatten_append, batchBytes_append, List.length_append]
  omega

/-- A batch that begins before what was acknowledged ends there. -/
theorem Inv.ibBatch_succ_le (h : Inv code strm (ibFirst strm) s) {n : Nat}
    (hacked : cmpLgpos (lgposOf strm (ibBatch strm s n)) s.system.wb.lgposToWrite < 0) :
    n < s.logged.length ∧
      (lgposOf strm (ibBatch strm s (n + 1))).qw ≤ s.system.wb.lgposToWrite.qw := by
  obtain ⟨k, hk, hqw⟩ := h.boundaries.acked
  have hlt := cmpLgpos_neg_iff.1 hacked
  have hnk : n < k := by
    by_contra hge
    have hle : ibBatch strm s k ≤ ibBatch strm s n := ibBatch_mono (Nat.le_of_not_lt hge)
    have hback : (lgposOf strm (ibBatch strm s k)).qw ≤ (lgposOf strm (ibBatch strm s n)).qw :=
      lgposOf_le hle
    rw [ibBatch, ← hqw] at hback
    omega
  refine ⟨by omega, ?_⟩
  rw [hqw]
  exact lgposOf_le (ibBatch_mono hnk)

/-- Every batch ends before the entry offset. -/
theorem Inv.ibBatch_le (h : Inv code strm (ibFirst strm) s) (n : Nat) :
    ibBatch strm s n ≤ s.ibEntry := by
  rw [← h.entry]
  unfold ibBatch
  have hall := batchBytes_append (ibFirst strm) (s.logged.take n).flatten (s.logged.drop n).flatten
  rw [← List.flatten_append, List.take_append_drop] at hall
  rw [hall, List.length_append]
  omega

/-! ## Reading the log file -/

/-- The log file as the reader has it after the scan. -/
def logFile (strm : LOG_STREAM) (r : Log.CheckResult) : LOG_FILE where
  cbSec := LOG_SEGMENT_SIZE
  rgb ib := r.rgb (ib / LOG_SEGMENT_SIZE) (ib % LOG_SEGMENT_SIZE)
  pbLGBufMin := 0
  pbLGBufMax := LOG_SEGMENT_SIZE * strm.cSecLGFile
  lgposLastRec := LOG_SEGMENT_SIZE * r.lgposLastRec.isec + r.lgposLastRec.ib
  errSector _ := none
  fAlloc _ := true
  cbSec_le := by decide

/-- What recovery leaves of the file can be read. -/
theorem logFile_readable (strm : LOG_STREAM) (r : Log.CheckResult) : (logFile strm r).Readable :=
  ⟨rfl, fun _ => rfl, fun _ => rfl⟩

/-- What is acknowledged ends in the segments that have it. -/
theorem le_isecAckEnd {wb : Log.LOG_WRITE_BUFFER} (hack : Acknowledged strm wb) {ib : Nat}
    (hfile : ib / 4096 < strm.isecLGFileEnd) (hle : (lgposOf strm ib).qw ≤ wb.lgposToWrite.qw) :
    ib ≤ 4096 * isecAckEnd wb := by
  rw [lgposOf_qw] at hle
  unfold isecAckEnd
  cases hshadow : wb.fHaveShadow with
  | false =>
    have hfull := hle.trans (hack.full hshadow)
    rw [if_neg Bool.false_ne_true]
    unfold Log.getLgpos LGPOS.qw at hfull
    split_ifs at hfull with hover <;> dsimp only at hfull <;> omega
  | true =>
    obtain ⟨-, cb, hcb, hqw⟩ := hack.shadow hshadow
    rw [if_pos rfl]
    rw [hqw] at hle
    unfold LOG_SEGMENT_SIZE at hcb
    unfold LGPOS.qw at hle
    dsimp only at hle
    omega

/-- The file after a crash has the bytes of the acknowledged batches. -/
theorem Inv.holds_batches (h : Inv code strm (ibFirst strm) s)
    (hend : strm.isecLGFileEnd = strm.cSecLGFile - 1) {n : Nat}
    (hqw : (lgposOf strm (ibBatch strm s n)).qw ≤ s.system.wb.lgposToWrite.qw) {r : Log.CheckResult}
    (hwhole : ∀ lg : Mem, lg.HoldsSome (ibFirst strm) (batchBytes (ibFirst strm) s.logged.flatten) →
      Log.Whole strm (segments lg) s.system.wb r.rgb) (hack : Acknowledged strm s.system.wb) :
    (logFile strm r).rgb.HoldsSome (ibFirst strm)
      (batchBytes (ibFirst strm) (s.logged.take n).flatten) := by
  have hfile := h.file
  have hentry := h.ibBatch_le n
  obtain ⟨lg, hlg⟩ :=
    Mem.exists_holdsSome (ibFirst strm) (batchBytes (ibFirst strm) s.logged.flatten)
  have hall := batchBytes_append (ibFirst strm) (s.logged.take n).flatten (s.logged.drop n).flatten
  rw [← List.flatten_append, List.take_append_drop] at hall
  have hfirst := hlg
  rw [hall, Mem.holdsSome_append] at hfirst
  obtain ⟨hheaders, -⟩ := @behindHeaders_batchBytes (ibFirst strm) (.inl (ibFirst_mod strm))
    (s.logged.take n).flatten
  refine hfirst.1.move fun i b hi => ?_
  have hheader := (hheaders i _ hi).1 rfl
  obtain ⟨hlt, -⟩ := List.getElem?_eq_some_iff.1 hi
  have hbefore : ibFirst strm + i < ibBatch strm s n := Nat.add_lt_add_left hlt _
  have hstart : ibFirst strm = 4096 * strm.cSecHeader := rfl
  unfold cbLGSEGHDR LOG_SEGMENT_SIZE at hheader
  have hacked : Acked strm s.system.wb ((ibFirst strm + i) / 4096) ((ibFirst strm + i) % 4096) := by
    refine ⟨by omega, by omega, ⟨hheader, Nat.mod_lt _ (by decide)⟩, cmpLgpos_neg_iff.2 ?_⟩
    have hlgpos : (lgposOf strm (ibFirst strm + i)).qw < (lgposOf strm (ibBatch strm s n)).qw :=
      lgposOf_lt hbefore
    exact Nat.lt_of_lt_of_le hlgpos hqw
  have hbyte :=
    (@Log.Whole.holds code strm (segments lg) s.system.wb _ _ hacked hack r.rgb (hwhole lg hlg)).2
  change r.rgb ((ibFirst strm + i) / 4096) ((ibFirst strm + i) % 4096) = _
  rw [hbyte]
  unfold segments LOG_SEGMENT_SIZE
  rw [Nat.div_add_mod]

/-! ## What is given to the log and waited for -/

/-- The records that an action gives to the log. -/
def Action.records : Action → List (List Byte)
  | .logRec batch => batch.map List.flatten
  | _ => []

/-- The records of a run are in the log in their order. -/
theorem Step.logged (hstep : Step code strm logtime a s s') :
    (∃ batches, s'.logged = s.logged ++ batches) ∧ s'.logged.flatten = s.logged.flatten ++
      a.records := by
  have hsame : s.logged = s.logged ++ [] ∧ s.logged.flatten = s.logged.flatten ++ [] := by
    rw [List.append_nil, List.append_nil]
    exact ⟨rfl, rfl⟩
  cases hstep with
  | logRec nonempty lrs reserved =>
    obtain ⟨⟨pbLogRec, rgb⟩, -, hfile⟩ := Option.bind_eq_some_iff.1 reserved
    dsimp only at hfile
    split_ifs at hfile
    have hlogged := congrArg LOG.logged (Option.some.inj hfile)
    rw [← hlogged]
    refine ⟨⟨_, rfl⟩, ?_⟩
    rw [List.flatten_append, List.flatten_singleton, recordsOf_flatten lrs]
    rfl
  | copy => exact ⟨⟨[], hsame.1⟩, hsame.2⟩
  | write => exact ⟨⟨[], hsame.1⟩, hsame.2⟩
  | complete => exact ⟨⟨[], hsame.1⟩, hsame.2⟩

section
variable {s₀ : LOG} {actions : List Action}

/-- The log has the records of a run. -/
theorem Start.logged_flatten (hstart : Start strm s₀)
    (hrun : Run (Step code strm logtime) s₀ actions s) :
    s.logged.flatten = actions.flatMap Action.records := by
  induction hrun with
  | refl => rw [hstart.logged]; rfl
  | @snoc _ _ _ a _ hstep ih =>
    have hlast : [a].flatMap Action.records = a.records := List.flatMap_singleton _ _
    rw [hstep.logged.2, ih, List.flatMap_append, hlast]

/-- A run only adds to what is logged. -/
theorem logged_append (hrun : Run (Step code strm logtime) s₀ actions s) :
    ∃ batches, s.logged = s₀.logged ++ batches := by
  induction hrun with
  | refl => exact ⟨[], (List.append_nil _).symm⟩
  | snoc _ hstep ih =>
    obtain ⟨batches, hlogged⟩ := ih
    obtain ⟨⟨more, hmore⟩, -⟩ := hstep.logged
    exact ⟨batches ++ more, by rw [hmore, hlogged, List.append_assoc]⟩

end

/-- A batch that is waited for is in the log after every crash. A run logs a batch at a position,
and goes on. Every copy into the log buffer that is then under way has the room it was promised. If
`m_lgposToWrite` is past the position then whatever a crash leaves of the I/O in flight, reading the
last log file succeeds where the segments behind the acknowledged ones are empty, it restores the
file if it may, and the calls of the reader from the begin of the file on return the records that
were logged up to the batch, the batch with them. -/
theorem logRec_waitForWrite_recovered {s₀ s₁ s₂ : LOG} {before after : List Action}
    {batch : List (List (List Byte))}
    (hstart : Start strm s₀) (hbefore : Run (Step code strm logtime) s₀ before s₁)
    (hlog : Step code strm logtime (.logRec batch) s₁ s₂)
      (hafter : Run (Step code strm logtime) s₂ after s) :
    (∀ copy ∈ s.pending, ∃ pbEnd rgb,
      s.buffer.flgiAddLogRec false logtime cbLGSizeOfData copy.rgdata s.rgb copy.pbLogRec =
      some (pbEnd, rgb)) ∧
    (cmpLgpos (s₁.getLgpos strm s₁.pbEntry) s.system.wb.lgposToWrite < 0 →
      ∀ disk, Log.Crash code strm s.system disk → ∀ args, Log.MayPatch strm args →
        (∀ isec, isecAckEnd s.system.wb ≤ isec → isec < strm.cSecLGFile - 1 →
        Log.Old strm args isec (disk isec)) →
        let r := Log.errLGCheckReadLastLogRecordFF code strm args disk
        let records := (before ++ [Action.logRec batch]).flatMap Action.records
        r.err = .JET_errSuccess ∧ (args.fReadOnly = false → r.file = r.rgb) ∧
          ∀ (fPreread : Bool) (reader : LOG_READ_BUFFER), reader.pbNextNext = some (ibFirst strm) →
            reader.pbNext ≤ ibFirst strm →
            ((logFile strm r).readRecords fPreread records.length reader).1 = records) := by
  have hend := hstart.lgFileEnd
  have hinv₁ : Inv code strm (ibFirst strm) s₁ := hstart.run hbefore
  have hinv₂ : Inv code strm (ibFirst strm) s₂ := hinv₁.step hend (ibFirst_mod strm) hlog
  have hinv : Inv code strm (ibFirst strm) s :=
    hafter.invariant (fun _ _ _ h hstep => h.step hend (ibFirst_mod strm) hstep) hinv₂
  refine ⟨fun copy hmem => hinv.copy_succeeds (ibFirst_mod strm) hmem,
    fun hwritten disk hcrash args hpatch hold => ?_⟩
  -- the log has the batches of the run
  have hrecords := hstart.logged_flatten (hbefore.snoc hlog)
  have hlength : s₂.logged.length = s₁.logged.length + 1 := by
    cases hlog with
    | logRec nonempty lrs reserved =>
      obtain ⟨⟨pbLogRec, rgb⟩, -, hfile⟩ := Option.bind_eq_some_iff.1 reserved
      dsimp only at hfile
      split_ifs at hfile
      rw [← congrArg LOG.logged (Option.some.inj hfile)]
      exact List.length_append
  obtain ⟨⟨batches₁, hlogged₁⟩, -⟩ := hlog.logged
  obtain ⟨batches, hlogged⟩ := logged_append hafter
  have htake₁ : s.logged.take s₁.logged.length = s₁.logged := by
    rw [hlogged, hlogged₁, List.append_assoc, List.take_left']
    rfl
  have htake₂ : s.logged.take (s₁.logged.length + 1) = s₂.logged := by
    rw [hlogged, List.take_left' hlength]
  -- the position of the batch is where it begins
  have hposition : s₁.getLgpos strm s₁.pbEntry = lgposOf strm
    (ibBatch strm s s₁.logged.length) := by
    have hgeometry := hinv₁.geometry
    rw [hgeometry.getLgpos_eq hgeometry.entry_lt
      (by rw [hgeometry.ibOf_entry, hend]; exact hinv₁.file),
      hgeometry.ibOf_entry, ← hinv₁.entry, ibBatch, htake₁]
  rw [hposition] at hwritten
  obtain ⟨-, hqw⟩ := hinv.ibBatch_succ_le hwritten
  have hfile := hinv.file
  have hibBatch := hinv.ibBatch_le (s₁.logged.length + 1)
  -- the file is read
  have hkept : ∀ lg : Mem, lg.HoldsSome (ibFirst strm)
      (batchBytes (ibFirst strm) s.logged.flatten) →
      Log.Kept code strm (segments lg) s.system.wb disk :=
        fun lg hlg => (hinv.disk lg hlg).crash hcrash
  obtain ⟨lg, hlg⟩ :=
    Mem.exists_holdsSome (ibFirst strm) (batchBytes (ibFirst strm) s.logged.flatten)
  obtain ⟨herr, hlast, -, hrw⟩ := (hkept lg hlg).checkRead hpatch hold
  have hack := (hkept lg hlg).ack
  refine ⟨herr, hrw, fun fPreread reader hnextNext hnext => ?_⟩
  have hheld :=
    hinv.holds_batches hend hqw (fun lg hlg => ((hkept lg hlg).checkRead hpatch hold).2.2.1) hack
  have hackEnd : ibBatch strm s (s₁.logged.length + 1) ≤ 4096 * isecAckEnd s.system.wb :=
    le_isecAckEnd hack (by omega) hqw
  have hsecEnd : isecAckEnd s.system.wb ≤ strm.cSecLGFile := by
    have hfile' := hack.file
    unfold isecAckEnd
    split_ifs with hshadow
    · have hlt := (hack.shadow hshadow).1
      omega
    · omega
  rw [htake₂] at hheld
  have hlastRec : (logFile strm
      (Log.errLGCheckReadLastLogRecordFF code strm args disk)).lgposLastRec =
      4096 * isecAckEnd s.system.wb := by
    change LOG_SEGMENT_SIZE *
      (Log.errLGCheckReadLastLogRecordFF code strm args disk).lgposLastRec.isec +
      (Log.errLGCheckReadLastLogRecordFF code strm args disk).lgposLastRec.ib = _
    rw [hlast]
    rfl
  obtain ⟨r', -, -, hread⟩ := @LOG_FILE.Readable.readRecords_add
    (logFile strm (Log.errLGCheckReadLastLogRecordFF code strm args disk)) fPreread reader
    (ibFirst strm)
    (logFile_readable strm _) s₂.logged.flatten hinv₂.valid hheld
    (by
      rw [hlastRec]
      refine Nat.le_trans (Nat.le_of_eq ?_) hackEnd
      rw [ibBatch, htake₂])
    (Nat.zero_le _)
    (by
      rw [hlastRec]
      exact Nat.mul_le_mul_left _ hsecEnd) hnextNext hnext 0
  rw [← hrecords]
  rw [Nat.add_zero] at hread
  rw [hread]
  exact List.append_nil _

end

/-! ## A run and a crash -/

section
variable {code : ChecksumCode} {strm : LOG_STREAM} {logtime : Nat → BitVec 64} {ibStart : Nat}
    {s : LOG}

/-- A batch is added where there is space for it. -/
theorem Inv.logRec_step (h : Inv code strm ibStart s) {batch : List (List (List Byte))}
    (hne : batch ≠ [])
    (hlrs : ∀ rgdata ∈ batch, LOG_FILE.LoggedLR rgdata)
    (hsome : (s.errLGLogRec strm batch.flatten).isSome = true) {pbEntry : Nat} {lgpos : LGPOS}
    (hentry : s.buffer.advance s.pbEntry (batchBytes s.ibEntry (batch.map List.flatten)).length =
      pbEntry)
    (hmax : s.maxWritePoint strm (batchBytes s.ibEntry (batch.map List.flatten)).length = lgpos) :
    Step code strm logtime (.logRec batch) s
      { s with
        pbEntry
        pending := s.pending ++ [⟨s.pbEntry, batch.flatten⟩]
        lgposMaxWritePoint := lgpos
        logged := s.logged ++ [batch.map List.flatten] } := by
  obtain ⟨s', hs'⟩ := Option.isSome_iff_exists.1 hsome
  have hrecords := recordsOf_flatten hlrs
  have hnonempty : recordsOf batch.flatten ≠ [] := by
    rw [hrecords]
    exact fun hnil => hne (List.map_eq_nil_iff.1 hnil)
  obtain ⟨cb, rfl, -, -, -, rfl⟩ := @errLGLogRec_spec strm s s' h.geometry batch.flatten hnonempty
    (recordsOf_valid hlrs) hs'
  rw [hrecords, hentry, hmax] at hs'
  exact .logRec hne hlrs hs'

/-- The copies under way can be made, the last one first. -/
theorem Inv.copy_all (hend : strm.isecLGFileEnd = strm.cSecLGFile - 1) (hstart : ibStart % 4096 = 0)
    (h : Inv code strm ibStart s) :
    ∃ rgb, Run (Step code strm logtime) s ((List.range s.pending.length).reverse.map Action.copy)
      { s with rgb, pending := [] } := by
  generalize hn : s.pending.length = n
  induction n generalizing s with
  | zero =>
    have hnil := List.eq_nil_of_length_eq_zero hn
    refine ⟨s.rgb, ?_⟩
    rw [← hnil]
    exact .refl s
  | succ n ih =>
    have hlast : s.pending[n]? = some s.pending[n] := List.getElem?_eq_getElem (by omega)
    obtain ⟨pbEnd, rgb, hcopied⟩ := @Inv.copy_succeeds code strm logtime ibStart s _ hstart h
      (List.mem_of_getElem? hlast)
    have hstep : Step code strm logtime (.copy n) s _ := .copy hlast hcopied
    have hlength : (s.pending.eraseIdx n).length = n := by
      rw [List.length_eraseIdx_of_lt (by omega), hn, Nat.add_sub_cancel]
    obtain ⟨rgb', hrun⟩ := ih (h.step hend hstart hstep) hlength
    refine ⟨rgb', ?_⟩
    rw [List.range_succ, List.reverse_append, List.map_append]
    exact .cons hstep hrun

end

/-- A new log file with a buffer of sixteen segments. -/
def exampleLog : LOG :=
  let wb : Log.LOG_WRITE_BUFFER := ⟨0, 65536, fun _ => 0, 0, 1, false, ⟨0, 1, 1⟩⟩
  ⟨⟨65536, 0, 65535, fun _ => true⟩, 0, fun _ => 0, [], ⟨0, 1, 1⟩, ⟨fun _ _ => 0, wb, [], wb⟩, []⟩

/-- The run starts with an empty log. -/
theorem exampleLog_start : Start Log.exampleStream exampleLog :=
  ⟨rfl, rfl, rfl, rfl, rfl, rfl, by decide, by decide, by decide, rfl, rfl, by decide, rfl, rfl⟩

/-- A batch of `n` records. -/
def exampleBatch (n : Nat) : List (List (List Byte)) := List.replicate n [LOG_FILE.exampleLR]

/-- The records of the run may be logged. -/
theorem exampleBatch_logged (n : Nat) : ∀ rgdata ∈ exampleBatch n, LOG_FILE.LoggedLR rgdata :=
  fun rgdata hmem => by
  obtain rfl := List.eq_of_mem_replicate hmem
  exact LOG_FILE.exampleLR_logged

/-- The log with the first batches, of one, one and seventy-three records, of which the last one
goes over the end of the segment. -/
def exampleReserved : Nat → LOG
  | 0 => exampleLog
  | 1 => { exampleLog with
      pbEntry := 96
      pending := [⟨0, (exampleBatch 1).flatten⟩]
      logged := [(exampleBatch 1).map List.flatten] }
  | 2 => { exampleLog with
      pbEntry := 152
      pending := [⟨0, (exampleBatch 1).flatten⟩, ⟨96, (exampleBatch 1).flatten⟩]
      logged := [(exampleBatch 1).map List.flatten, (exampleBatch 1).map List.flatten] }
  | _ => { exampleLog with
      pbEntry := 4304
      pending :=
        [⟨0, (exampleBatch 1).flatten⟩, ⟨96, (exampleBatch 1).flatten⟩,
        ⟨152, (exampleBatch 73).flatten⟩]
      lgposMaxWritePoint := ⟨152, 1, 1⟩
      logged := [(exampleBatch 1).map List.flatten, (exampleBatch 1).map List.flatten,
        (exampleBatch 73).map List.flatten] }

/-- The three reservations of the run. -/
theorem exampleReserved_step (n cBatch : Nat)
    (hinv : Inv Log.exampleCode Log.exampleStream 4096 (exampleReserved n))
    (hn : (n, cBatch) ∈ [(0, 1), (1, 1), (2, 73)]) :
    Step Log.exampleCode Log.exampleStream (fun _ => 0) (.logRec (exampleBatch cBatch))
      (exampleReserved n)
      (exampleReserved (n + 1)) := by
  simp only [List.mem_cons, Prod.mk.injEq, List.not_mem_nil, or_false] at hn
  obtain ⟨rfl, rfl⟩ | ⟨rfl, rfl⟩ | ⟨rfl, rfl⟩ := hn <;>
    exact hinv.logRec_step (by decide) (exampleBatch_logged _) (by decide +kernel)
      (by decide +kernel)
      (by decide +kernel)

/-- The log with the copies made. -/
def exampleCopied (rgb : Mem) : LOG := { exampleReserved 3 with rgb, pending := [] }

/-- The buffer with the checksum of its first segment. -/
def exampleSealed (rgb : Mem) : Mem :=
  Log.checksumSegments Log.exampleCode Log.exampleStream (exampleCopied rgb).wb 1 1 0

/-- The log when the first segment is written, in full. -/
def exampleWritten (rgb : Mem) : LOG :=
  let wb : Log.LOG_WRITE_BUFFER := ⟨0, 65536, exampleSealed rgb, 4096, 2, false, ⟨152, 1, 1⟩⟩
  let write : Log.SectorWrite := ⟨1, [Log.segmentAt (exampleSealed rgb) 0]⟩
  { exampleCopied rgb with rgb := exampleSealed rgb,
                           system := ⟨write.apply exampleLog.system.disk, wb, [], wb⟩ }

/-- The second segment, of which a part is written. -/
def exampleSegment (rgb : Mem) : Mem :=
  Log.pvPartialSegment Log.exampleCode Log.exampleStream (exampleWritten rgb).wb 4304 2 4096

/-- The log while the second segment and its shadow are written. -/
def exampleInFlight (rgb : Mem) : LOG :=
  { exampleWritten rgb with system := { (exampleWritten rgb).system with
      wb := (exampleWritten rgb).wb
      pending := [⟨2, [exampleSegment rgb, exampleSegment rgb]⟩]
      done := { (exampleWritten rgb).wb with fHaveShadow := true, lgposToWrite := ⟨208, 2, 1⟩ } } }

/-- A crash that leaves the shadow of the second segment, and not the segment. -/
def exampleCrashed (rgb : Mem) (isec : Nat) : Mem :=
  if isec = 3 then exampleSegment rgb else (exampleInFlight rgb).system.disk isec

/-- The disk is one that the crash leaves. -/
theorem exampleCrashed_crash (rgb : Mem) :
    Log.Crash Log.exampleCode Log.exampleStream (exampleInFlight rgb).system
      (exampleCrashed rgb) := by
  intro isec
  unfold exampleCrashed
  split
  · next h => subst h; exact .inr (.inl rfl)
  · exact .inl rfl

/-- The end of the records, before the write of the first segment and after it. -/
theorem example_end {s : LOG} (hcb : s.pLogBuffer.cbLGBuf = 65536) (hentry : s.pbEntry = 4304)
    {isec : Nat}
    (hisec : s.system.wb.isecWrite = isec + 1) (hpb : s.system.wb.pbWrite = 4096 * isec)
      (hle : isec ≤ 1) :
    s.getLgpos Log.exampleStream s.pbEntry = ⟨208, 2, 1⟩ ∧ s.csecFull = 1 - isec := by
  rw [LOG.getLgpos, LOG.csecFull, hcb, hentry, hisec, hpb]
  obtain rfl | rfl : isec = 0 ∨ isec = 1 := by omega
  · decide
  · decide

/-- The first write covers the sealed segment. -/
theorem exampleCopied_errLGIWriteLog (rgb : Mem) :
    (exampleCopied rgb).errLGIWriteLog Log.exampleStream Log.exampleCode =
      ([⟨1, [Log.segmentAt (exampleSealed rgb) 0]⟩], (exampleWritten rgb).system.wb) := by
  obtain ⟨-, hfull⟩ := @example_end (exampleCopied rgb) rfl rfl 0 rfl rfl (by decide)
  have hisec : (exampleCopied rgb).wb.isecWrite = 1 := rfl
  have hpb : (exampleCopied rgb).wb.pbWrite = 0 := rfl
  have hshadow : (exampleCopied rgb).wb.fHaveShadow = false := rfl
  have hmin : (exampleCopied rgb).wb.pbLGBufMin = 0 := rfl
  have hcb : (exampleCopied rgb).wb.cbLGBuf = 65536 := rfl
  have hmax : (exampleCopied rgb).wb.pbLGBufMax = 65536 := by
    rw [Log.LOG_WRITE_BUFFER.pbLGBufMax, hmin, hcb]
  rw [LOG.errLGIWriteLog, hfull, if_neg (by decide), hisec, hpb, Log.errLGIWriteFullSectors,
    hshadow]
  dsimp only
  rw [if_neg Bool.false_ne_true, Log.writeSectors, Log.pbAfter, hmax, if_neg (by decide)]
  dsimp only
  rw [if_neg (by decide), Log.errLGWriteSectorData, List.flatMap_singleton,
    show List.range (LOG_SEGMENT_SIZE * 1 / LOG_SEGMENT_SIZE) = [0] by decide]
  rfl

/-- The second write covers the full segments. -/
theorem exampleWritten_errLGIWriteLog (rgb : Mem) :
    (exampleWritten rgb).errLGIWriteLog Log.exampleStream Log.exampleCode =
      ([⟨2, [exampleSegment rgb, exampleSegment rgb]⟩], (exampleInFlight rgb).system.done) := by
  obtain ⟨hend, hpartial⟩ := @example_end (exampleWritten rgb) rfl rfl 1 rfl rfl (by decide)
  have hisec : (exampleWritten rgb).wb.isecWrite = 2 := rfl
  have hpb : (exampleWritten rgb).wb.pbWrite = 4096 := rfl
  have hshadow : (exampleWritten rgb).wb.fHaveShadow = false := rfl
  rw [LOG.errLGIWriteLog, hpartial, if_pos rfl, hend, hisec, hpb, Log.errLGIWritePartialSector,
    hshadow]
  rfl

/-- The writes of the run. -/
theorem exampleInFlight_run (rgb : Mem) :
    Run (Step Log.exampleCode Log.exampleStream fun _ => 0) (exampleCopied rgb)
      [.write, .complete, .write]
      (exampleInFlight rgb) := by
  obtain ⟨hcopied, -⟩ := @example_end (exampleCopied rgb) rfl rfl 0 rfl rfl (by decide)
  obtain ⟨hwritten, -⟩ := @example_end (exampleWritten rgb) rfl rfl 1 rfl rfl (by decide)
  have hfull := @Step.write Log.exampleCode Log.exampleStream (fun _ => 0)
    (exampleCopied rgb) rfl rfl (by
    rw [hcopied]
    exact (by decide : cmpLgpos ⟨208, 2, 1⟩ ⟨0, 1, 1⟩ > 0))
  have hpartial := @Step.write Log.exampleCode Log.exampleStream (fun _ => 0)
    (exampleWritten rgb) rfl rfl (by
    rw [hwritten]
    exact (by decide : cmpLgpos ⟨208, 2, 1⟩ ⟨152, 1, 1⟩ > 0))
  rw [exampleCopied_errLGIWriteLog] at hfull
  rw [exampleWritten_errLGIWriteLog] at hpartial
  exact .cons hfull (.cons (.complete rfl) (.single hpartial))

/-- Three batches are logged and copied in reverse order. The full segment is written, and then the
second one in part: the crash leaves its shadow alone. The first two batches are read, as they were
logged. -/
theorem logRec_waitForWrite_recovered_partial : ∃ s disk,
    Run (Step Log.exampleCode Log.exampleStream fun _ => 0) exampleLog
      [.logRec (exampleBatch 1), .logRec (exampleBatch 1), .logRec (exampleBatch 73), .copy 2,
        .copy 1, .copy 0,
        .write, .complete, .write] s ∧
    s.system.pending ≠ [] ∧ Log.Crash Log.exampleCode Log.exampleStream s.system disk ∧
    ((logFile Log.exampleStream
      (Log.errLGCheckReadLastLogRecordFF Log.exampleCode Log.exampleStream Log.exampleArgs
        disk)).readRecords false 2
        ⟨4096, some 4096, fun _ => ⟨0, fun _ => 0⟩⟩).1 =
          [LOG_FILE.exampleLR, LOG_FILE.exampleLR] := by
  have hinv₀ : Inv Log.exampleCode Log.exampleStream 4096 (exampleReserved 0) :=
    exampleLog_start.inv
  have hlog₀ := exampleReserved_step 0 1 hinv₀ (by decide)
  have hinv₁ := hinv₀.step rfl rfl hlog₀
  have hlog₁ := exampleReserved_step 1 1 hinv₁ (by decide)
  have hinv₂ := hinv₁.step rfl rfl hlog₁
  have hlog₂ := exampleReserved_step 2 73 hinv₂ (by decide)
  obtain ⟨rgb, hcopies⟩ :=
    @Inv.copy_all Log.exampleCode Log.exampleStream (fun _ => 0) 4096 _ rfl rfl
    (hinv₂.step rfl rfl hlog₂)
  have hafter := Run.cons hlog₂ (hcopies.append (exampleInFlight_run rgb))
  obtain ⟨-, hrecovered⟩ :=
    logRec_waitForWrite_recovered exampleLog_start (.single hlog₀) hlog₁ hafter
  have hposition : cmpLgpos ((exampleReserved 1).getLgpos Log.exampleStream 96) ⟨152, 1, 1⟩ <
    0 := by decide +kernel
  obtain ⟨-, -, hread⟩ :=
    hrecovered hposition (exampleCrashed rgb) (exampleCrashed_crash rgb) Log.exampleArgs
    ⟨rfl, fun h => absurd h (by decide)⟩ fun isec hlo hhi => by
      obtain rfl : isec = 2 := by
        have h2 : isec < 3 := hhi
        have h1 : 2 ≤ isec := hlo
        omega
      exact .zero rfl (show Log.fUtilZeroed (fun _ => 0) = true by decide +kernel)
  exact ⟨exampleInFlight rgb, exampleCrashed rgb, .cons hlog₀ (.cons hlog₁ hafter),
    List.cons_ne_nil _ _,
    exampleCrashed_crash rgb,
    hread false ⟨4096, some 4096, fun _ => ⟨0, fun _ => 0⟩⟩ rfl (show 4096 ≤ 4096 by decide)⟩

end Ese.LogWrite
