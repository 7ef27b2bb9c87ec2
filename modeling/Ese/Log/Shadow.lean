import Ese.Log.Write

/-!
# Shadow sectors

Between writes every segment up to the next to be written is in the file as the log has it, and that
one too, with its shadow, when it has been written partly (`Quiet`). The I/Os of a write keep this
for what was acknowledged before: whatever a crash makes of the one in flight, a segment or its
shadow is left (`Kept`).
-/

namespace Ese.Log

section
variable (code : ChecksumCode) (strm : LOG_STREAM) (lg : Nat → Nat → Byte)

/-- A segment of the log, of whose bytes the first `cb` are those of the log. -/
structure LogSegment (isec cb : Nat) (sec : Mem) : Prop where
  sealedFor : SealedFor isec sec
  lgpos : (leLgposSegment sec).qw = LGPOS.qw ⟨0, isec, strm.lGeneration⟩
  bytes : ∀ ib, cbLGSEGHDR ≤ ib → ib < cb → sec ib = lg isec ib

/-- A segment that fails as its own and as a shadow, and is not zeroed. -/
structure Damaged (isec : Nat) (sec : Mem) : Prop where
  fails : (checksumSegment code isec sec).1 = false
  failsShadow : isec ≠ strm.cSecHeader →
    (checksumSegment code (isec - 1) (checksumSegment code isec sec).2).1 = false
  format : fFormat sec = true

/-- The next segment to write is one of the buffer. -/
def Ring (wb : LOG_WRITE_BUFFER) : Prop :=
  ∃ csec i, i < csec ∧ wb.cbLGBuf = LOG_SEGMENT_SIZE * csec ∧
    wb.pbWrite = wb.pbLGBufMin + LOG_SEGMENT_SIZE * i

/-- What was acknowledged, by position. -/
structure Acknowledged (wb : LOG_WRITE_BUFFER) : Prop where
  header : strm.cSecHeader ≤ wb.isecWrite
  file : wb.isecWrite ≤ strm.cSecLGFile - 1
  shadow : wb.fHaveShadow = true → wb.isecWrite < strm.cSecLGFile - 1 ∧
    ∃ cb < LOG_SEGMENT_SIZE, wb.lgposToWrite.qw = LGPOS.qw ⟨cb, wb.isecWrite, strm.lGeneration⟩
  full : wb.fHaveShadow = false → wb.lgposToWrite.qw ≤ (getLgpos strm wb.isecWrite).qw

/-- The file between writes. -/
structure Quiet (wb : LOG_WRITE_BUFFER) (disk : Nat → Mem) : Prop where
  ring : Ring wb
  ack : Acknowledged strm wb
  before : ∀ isec, strm.cSecHeader ≤ isec → isec < wb.isecWrite →
    LogSegment strm lg isec LOG_SEGMENT_SIZE (disk isec)
  shadow : wb.fHaveShadow = true → ∀ cb,
    wb.lgposToWrite.qw = LGPOS.qw ⟨cb, wb.isecWrite, strm.lGeneration⟩ →
    LogSegment strm lg wb.isecWrite cb (disk wb.isecWrite) ∧
      LogSegment strm lg wb.isecWrite cb (disk (wb.isecWrite + 1))

/-- The file after a crash: the segment that has a shadow can be damaged. -/
structure Kept (wb : LOG_WRITE_BUFFER) (disk : Nat → Mem) : Prop where
  ack : Acknowledged strm wb
  before : ∀ isec, strm.cSecHeader ≤ isec → isec < wb.isecWrite →
    LogSegment strm lg isec LOG_SEGMENT_SIZE (disk isec)
  shadow : wb.fHaveShadow = true → ∀ cb,
    wb.lgposToWrite.qw = LGPOS.qw ⟨cb, wb.isecWrite, strm.lGeneration⟩ →
    LogSegment strm lg wb.isecWrite cb (disk wb.isecWrite) ∨
      Damaged code strm wb.isecWrite (disk wb.isecWrite) ∧
        LogSegment strm lg wb.isecWrite cb (disk (wb.isecWrite + 1))

/-- The I/Os of a write, from a file on: each stays in the file and keeps what was acknowledged
before, and after the last the file is as between writes. -/
def Ready (wb done : LOG_WRITE_BUFFER) : List SectorWrite → (Nat → Mem) → Prop
  | [], disk => Quiet strm lg done disk
  | write :: rest, disk =>
    (strm.cSecHeader ≤ write.isec ∧ write.isec + write.rgsec.length ≤ strm.cSecLGFile) ∧
      (∀ disk', (∀ isec, Outcome code strm isec (disk isec) (write.apply disk isec) (disk' isec)) →
        Kept code strm lg wb disk') ∧
      Ready wb done rest (write.apply disk)

/-- The invariant of runs. -/
structure Inv (s : System) : Prop where
  quiet : s.pending = [] → Quiet strm lg s.wb s.disk
  ready : s.pending ≠ [] → Ready code strm lg s.wb s.done s.pending s.disk

end

variable {code : ChecksumCode} {strm : LOG_STREAM} {lg : Nat → Nat → Byte}

/-! ## The ring -/

theorem pbAfter_eq {wb : LOG_WRITE_BUFFER} {csec : Nat} (hcb : wb.cbLGBuf = LOG_SEGMENT_SIZE * csec)
    (i n : Nat) :
    pbAfter wb n (wb.pbLGBufMin + LOG_SEGMENT_SIZE * i)
      = wb.pbLGBufMin + LOG_SEGMENT_SIZE * (if csec ≤ i + n then i + n - csec else i + n) := by
  unfold pbAfter LOG_WRITE_BUFFER.pbLGBufMax LOG_SEGMENT_SIZE at *
  dsimp only
  rw [hcb]
  split <;> split <;> omega

/-- The segment after the first one to write: it is at the start of the buffer if the first one is
its last. -/
theorem pbAfter_next {wb : LOG_WRITE_BUFFER} {csec csecFull q : Nat}
    (hcb : wb.cbLGBuf = LOG_SEGMENT_SIZE * csec) (hq : q < csec) (hcsec : csecFull ≤ csec)
    (hpb : wb.pbWrite = wb.pbLGBufMin + LOG_SEGMENT_SIZE * q) :
    ∃ q' < csec,
      (if wb.pbWrite + LOG_SEGMENT_SIZE = wb.pbLGBufMax then wb.pbLGBufMin
        else wb.pbWrite + LOG_SEGMENT_SIZE) = wb.pbLGBufMin + LOG_SEGMENT_SIZE * q' ∧
      ∀ k, k + 1 < csecFull →
        pbAfter wb k (wb.pbLGBufMin + LOG_SEGMENT_SIZE * q') = pbAfter wb (k + 1) wb.pbWrite := by
  have hmax : wb.pbLGBufMax = wb.pbLGBufMin + LOG_SEGMENT_SIZE * csec := by
    rw [LOG_WRITE_BUFFER.pbLGBufMax, hcb]
  by_cases hlast : q + 1 = csec
  · refine ⟨0, by omega, ?_, fun k hk => ?_⟩
    · rw [if_pos, Nat.mul_zero, Nat.add_zero]
      rw [hpb, hmax, ← hlast, Nat.mul_add, Nat.mul_one, Nat.add_assoc]
    · rw [hpb, pbAfter_eq hcb, pbAfter_eq hcb, if_neg (by omega), if_pos (by omega),
        show 0 + k = q + (k + 1) - csec by omega]
  · refine ⟨q + 1, by omega, ?_, fun k hk => ?_⟩
    · rw [if_neg, hpb, Nat.mul_add, Nat.mul_one, Nat.add_assoc]
      rw [hpb, hmax]
      unfold LOG_SEGMENT_SIZE
      omega
    · rw [hpb, pbAfter_eq hcb, pbAfter_eq hcb, show q + 1 + k = q + (k + 1) by omega]

/-- A buffer that goes on after some segments of the ring. -/
theorem ring_pbAfter {wb done : LOG_WRITE_BUFFER} {csec i n : Nat}
    (hcb : wb.cbLGBuf = LOG_SEGMENT_SIZE * csec) (hi : i < csec)
    (hn : n ≤ csec) (hdone : done.cbLGBuf = wb.cbLGBuf) (hmin : done.pbLGBufMin = wb.pbLGBufMin)
    (hpb : done.pbWrite = pbAfter wb n (wb.pbLGBufMin + LOG_SEGMENT_SIZE * i)) : Ring done := by
  rw [pbAfter_eq hcb] at hpb
  refine ⟨csec, _, ?_, hdone.trans hcb, by rw [hpb, hmin]⟩
  split <;> omega

theorem segmentAt_putSegment {rgb sec : Mem} {pb ib : Nat} (h : ib < LOG_SEGMENT_SIZE) :
    segmentAt (putSegment rgb pb sec) pb ib = sec ib := by
  unfold segmentAt putSegment
  rw [if_pos (by omega), Nat.add_sub_cancel_left]

theorem segmentAt_putSegment_ne {rgb sec : Mem} {pb pb' ib : Nat} (h : ib < LOG_SEGMENT_SIZE)
    (hne : pb' + LOG_SEGMENT_SIZE ≤ pb ∨ pb + LOG_SEGMENT_SIZE ≤ pb') :
    segmentAt (putSegment rgb pb sec) pb' ib = segmentAt rgb pb' ib := by
  unfold segmentAt putSegment
  rw [if_neg (by omega)]

theorem LogSegment.congr {isec cb : Nat} {sec sec' : Mem} (h : LogSegment strm lg isec cb sec)
    (hcb : cb ≤ LOG_SEGMENT_SIZE) (heq : ∀ ib < LOG_SEGMENT_SIZE, sec' ib = sec ib) :
    LogSegment strm lg isec cb sec' := by
  refine ⟨SealedFor.congr heq h.sealedFor, ?_, fun ib hlo hhi => ?_⟩
  · rw [leLgposSegment_congr heq, h.lgpos]
  · rw [heq ib (by omega), h.bytes ib hlo hhi]

theorem LogSegment.mono {isec cb cb' : Nat} {sec : Mem} (h : LogSegment strm lg isec cb sec)
    (hle : cb' ≤ cb) :
    LogSegment strm lg isec cb' sec :=
  ⟨h.sealedFor, h.lgpos, fun ib hlo hhi => h.bytes ib hlo (by omega)⟩

/-- A segment that is sealed has the bytes it had. -/
theorem logSegment_sealSegment {isec cb : Nat} {sec : Mem} (hisec : isec < 2 ^ 16)
    (hbytes : ∀ ib, cbLGSEGHDR ≤ ib → ib < cb → sec ib = lg isec ib) :
    LogSegment strm lg isec cb (sealSegment code strm.lGeneration isec sec) := by
  have hgen := strm.lGeneration_lt
  have hspec : SealedFor isec (sealSegment code strm.lGeneration isec sec) ∧ _ ∧ _ :=
    sealSegment_spec (show strm.lGeneration < 2 ^ 31 by omega) hisec
  obtain ⟨hsealed, hlgpos, hsame⟩ := hspec
  exact ⟨hsealed, hlgpos, fun ib hlo hhi => by rw [hsame ib hlo, hbytes ib hlo hhi]⟩

/-- One turn of the loop that sets the checksums. -/
def checksumSegment1 (code : ChecksumCode) (strm : LOG_STREAM) (wb : LOG_WRITE_BUFFER) (rgb : Mem)
    (i : Nat) : Mem :=
  putSegment rgb (pbAfter wb i wb.pbWrite)
    (sealSegment code strm.lGeneration (wb.isecWrite + i) (segmentAt rgb (pbAfter wb i wb.pbWrite)))

/-- The first `n` turns seal the first `n` segments, each with its bytes, and leave the others
alone. -/
theorem checksumLoop_spec {wb : LOG_WRITE_BUFFER} (hring : Ring wb) {csecFull : Nat}
    (hused : LOG_SEGMENT_SIZE * csecFull ≤ wb.cbLGBuf) (hfile : wb.isecWrite + csecFull < 2 ^ 16)
    (hholds : HoldsLog wb lg (LOG_SEGMENT_SIZE * csecFull)) {n : Nat} (hn : n ≤ csecFull) :
    (∀ i < n, LogSegment strm lg (wb.isecWrite + i) LOG_SEGMENT_SIZE
      (segmentAt ((List.range n).foldl (checksumSegment1 code strm wb) wb.rgbLGBuf)
        (pbAfter wb i wb.pbWrite))) ∧
    ∀ i, n ≤ i → i < csecFull → ∀ ib < LOG_SEGMENT_SIZE,
      segmentAt ((List.range n).foldl (checksumSegment1 code strm wb) wb.rgbLGBuf)
        (pbAfter wb i wb.pbWrite) ib = segmentAt wb.rgbLGBuf (pbAfter wb i wb.pbWrite) ib := by
  obtain ⟨csec, q, hq, hcb, hpb⟩ := hring
  have hapart : ∀ i j, i < csecFull → j < csecFull → i ≠ j →
      pbAfter wb i wb.pbWrite + LOG_SEGMENT_SIZE ≤ pbAfter wb j wb.pbWrite ∨
        pbAfter wb j wb.pbWrite + LOG_SEGMENT_SIZE ≤ pbAfter wb i wb.pbWrite := by
    intro i j hi hj hij
    rw [hpb, pbAfter_eq hcb, pbAfter_eq hcb]
    unfold LOG_SEGMENT_SIZE at *
    split <;> split <;> omega
  induction n with
  | zero => exact ⟨fun i hi => absurd hi (Nat.not_lt_zero _), fun i _ _ ib _ => rfl⟩
  | succ n ih =>
    obtain ⟨hdone, hrest⟩ := ih (by omega)
    rw [List.range_succ, List.foldl_append, List.foldl_cons, List.foldl_nil]
    generalize (List.range n).foldl (checksumSegment1 code strm wb) wb.rgbLGBuf = rgb
      at hdone hrest ⊢
    unfold checksumSegment1
    refine ⟨fun i hi => ?_, fun i hlo hhi ib hib => ?_⟩
    · rcases Nat.lt_succ_iff_lt_or_eq.1 hi with hlt | rfl
      · exact (hdone i hlt).congr le_rfl fun ib hib =>
          segmentAt_putSegment_ne hib (hapart i n (by omega) (by omega) (by omega))
      · refine LogSegment.congr (logSegment_sealSegment (by omega) fun ib hlo hhi => ?_) le_rfl
          fun ib hib => segmentAt_putSegment hib
        rw [hrest i le_rfl (by omega) ib hhi]
        refine hholds i ib hhi hlo ?_
        unfold LOG_SEGMENT_SIZE at *
        omega
    · rw [segmentAt_putSegment_ne hib (hapart i n hhi (by omega) (by omega)),
        hrest i (by omega) hhi ib hib]

/-- The full segments are in the buffer as the log has them. -/
theorem checksumSegments_spec {wb : LOG_WRITE_BUFFER} (hring : Ring wb) {csecFull : Nat}
    (hused : LOG_SEGMENT_SIZE * csecFull ≤ wb.cbLGBuf) (hfile : wb.isecWrite + csecFull < 2 ^ 16)
    (hholds : HoldsLog wb lg (LOG_SEGMENT_SIZE * csecFull)) {i : Nat} (hi : i < csecFull) :
    LogSegment strm lg (wb.isecWrite + i) LOG_SEGMENT_SIZE
      (segmentAt (checksumSegments code strm wb csecFull wb.isecWrite wb.pbWrite)
        (pbAfter wb i wb.pbWrite)) :=
  (checksumLoop_spec hring hused hfile hholds le_rfl).1 i hi

/-! ## The segments of an I/O -/

theorem errLGWriteSectorData_one (rgb : Mem) (isec pb : Nat) :
    errLGWriteSectorData rgb isec [(pb, LOG_SEGMENT_SIZE * 1)] = ⟨isec, [segmentAt rgb pb]⟩ := by
  unfold errLGWriteSectorData LOG_SEGMENT_SIZE
  simp

/-- An I/O of one piece or of two sends the segments of the ring in order. -/
theorem writeSectors_eq {wb : LOG_WRITE_BUFFER} {csec i n : Nat}
    (hcb : wb.cbLGBuf = LOG_SEGMENT_SIZE * csec)
    (hi : i ≤ csec) (rgb : Mem) (isec : Nat) :
    writeSectors wb rgb n isec (wb.pbLGBufMin + LOG_SEGMENT_SIZE * i) =
      ⟨isec, (List.range n).map fun k =>
        segmentAt rgb (pbAfter wb k (wb.pbLGBufMin + LOG_SEGMENT_SIZE * i))⟩ := by
  unfold writeSectors
  have hmax : wb.pbLGBufMax = wb.pbLGBufMin + LOG_SEGMENT_SIZE * csec := by
    rw [LOG_WRITE_BUFFER.pbLGBufMax, hcb]
  split
  · next hwrap =>
    obtain ⟨a, ha⟩ : ∃ a, csec = i + a := Nat.exists_eq_add_of_le hi
    obtain ⟨b, hb⟩ : ∃ b, n = a + b := by
      refine Nat.exists_eq_add_of_le ?_
      rw [hmax, ha] at hwrap
      unfold LOG_SEGMENT_SIZE at hwrap
      omega
    have hfirst : wb.pbLGBufMax - (wb.pbLGBufMin + LOG_SEGMENT_SIZE * i) =
      LOG_SEGMENT_SIZE * a := by
      rw [hmax, ha]
      unfold LOG_SEGMENT_SIZE
      omega
    have hsecond : LOG_SEGMENT_SIZE * n - LOG_SEGMENT_SIZE * a = LOG_SEGMENT_SIZE * b := by
      rw [hb, Nat.mul_add, Nat.add_sub_cancel_left]
    have hpos : 0 < LOG_SEGMENT_SIZE := by
      unfold LOG_SEGMENT_SIZE
      decide
    rw [hfirst, hsecond, errLGWriteSectorData]
    simp only [List.flatMap_cons, List.flatMap_nil, List.append_nil, Nat.mul_div_cancel_left _ hpos]
    rw [hb, List.range_add, List.map_append, List.map_map]
    congr 2
    · refine List.map_congr_left fun k hk => ?_
      rw [List.mem_range] at hk
      rw [pbAfter_eq hcb, if_neg (by omega), Nat.mul_add, Nat.add_assoc]
    · refine List.map_congr_left fun k hk => ?_
      rw [List.mem_range] at hk
      rw [Function.comp_apply, pbAfter_eq hcb, if_pos (by omega), show i + (a + k) - csec =
        k by omega]
  · next hfit =>
    rw [errLGWriteSectorData]
    have hpos : 0 < LOG_SEGMENT_SIZE := by
      unfold LOG_SEGMENT_SIZE
      decide
    simp only [List.flatMap_cons, List.flatMap_nil, List.append_nil, Nat.mul_div_cancel_left _ hpos]
    congr 1
    refine List.map_congr_left fun k hk => ?_
    rw [List.mem_range] at hk
    rw [hmax] at hfit
    rw [pbAfter_eq hcb, if_neg, Nat.mul_add, Nat.add_assoc]
    unfold LOG_SEGMENT_SIZE at hfit
    omega

/-! ## The file after an I/O -/

section
variable {write : SectorWrite} {disk : Nat → Mem} {isec : Nat}

theorem SectorWrite.apply_lt (h : isec < write.isec) : write.apply disk isec = disk isec := by
  rw [apply, if_neg (by omega)]

theorem SectorWrite.apply_ge (h : write.isec + write.rgsec.length ≤ isec) :
    write.apply disk isec = disk isec := by
  rw [apply]
  split
  · rw [List.getElem?_eq_none (by omega), Option.getD_none]
  · rfl

theorem SectorWrite.apply_add (write : SectorWrite) (disk : Nat → Mem) {i : Nat} {sec : Mem}
    (h : write.rgsec[i]? = some sec) : write.apply disk (write.isec + i) = sec := by
  rw [apply, if_pos (Nat.le_add_right _ _), Nat.add_sub_cancel_left, h, Option.getD_some]

/-- A write behind a segment leaves what was written there. -/
theorem SectorWrite.apply_apply_first {sec : Mem} (h : isec < write.isec) :
    write.apply ((SectorWrite.mk isec [sec]).apply disk) isec = sec := by
  rw [apply_lt h]
  exact apply_add ⟨isec, [sec]⟩ disk (i := 0) rfl

/-- A segment that an I/O does not cover is as it was, whatever happens to the I/O. -/
theorem Outcome.eq {sec : Mem} (h : Outcome code strm isec (disk isec) (write.apply disk isec) sec)
    (hout : isec < write.isec ∨ write.isec + write.rgsec.length ≤ isec) : sec = disk isec := by
  have heq : write.apply disk isec = disk isec := by
    rcases hout with hlt | hge
    · exact SectorWrite.apply_lt hlt
    · exact SectorWrite.apply_ge hge
  rw [heq] at h
  rcases h with h | h | h
  · exact h
  · exact h
  · exact funext fun ib => (or_self_iff.1 (h.mix ib))

end

/-! ## What a crash leaves -/

/-- A mix of two sealed segments is none of zeros. -/
theorem Torn.damaged {isec : Nat} {old new sec : Mem} (h : Torn code strm isec old new sec)
    (hold : fFormat old = true) (hnew : fFormat new = true) : Damaged code strm isec sec := by
  refine ⟨h.fails, h.failsShadow, ?_⟩
  unfold fFormat at *
  rw [fPageHasNewChecksumFormat_eq, Mem.bit] at *
  rcases h.mix (301 / 8) with he | he
  · rw [he, hold]
  · rw [he, hnew]

section
variable {wb : LOG_WRITE_BUFFER} {disk disk' : Nat → Mem} {write : SectorWrite}
  (hquiet : Quiet strm lg wb disk)
  (hcrash : ∀ isec, Outcome code strm isec (disk isec) (write.apply disk isec) (disk' isec))
include hquiet hcrash

/-- An I/O past what was acknowledged. -/
theorem kept_fresh (hshadow : wb.fHaveShadow = false) (hisec : wb.isecWrite ≤ write.isec) :
    Kept code strm lg wb disk' := by
  refine ⟨hquiet.ack, fun isec hlo hhi => ?_, fun h => absurd h (by rw [hshadow]; decide)⟩
  rw [(hcrash isec).eq (Or.inl (by omega))]
  exact hquiet.before isec hlo hhi

/-- The I/O of the segment that has a shadow. -/
theorem kept_first {cb : Nat} {sec : Mem} (hisec : write.isec = wb.isecWrite)
    (hsec : write.rgsec = [sec])
    (hnew : LogSegment strm lg wb.isecWrite cb sec)
    (hcb : wb.lgposToWrite.qw ≤ LGPOS.qw ⟨cb, wb.isecWrite, strm.lGeneration⟩) :
    Kept code strm lg wb disk' := by
  have hlen : write.rgsec.length = 1 := by rw [hsec]; rfl
  have happly : write.apply disk wb.isecWrite = sec := by
    have hzero := write.apply_add disk (show write.rgsec[0]? = some sec by rw [hsec]; rfl)
    rwa [Nat.add_zero, hisec] at hzero
  refine ⟨hquiet.ack, fun isec hlo hhi => ?_, fun h cb' hcb' => ?_⟩
  · rw [(hcrash isec).eq (Or.inl (by omega))]
    exact hquiet.before isec hlo hhi
  · obtain ⟨hold, hshadow⟩ := hquiet.shadow h cb' hcb'
    have hrest : disk' (wb.isecWrite + 1) = disk (wb.isecWrite + 1) :=
      (hcrash (wb.isecWrite + 1)).eq (Or.inr (by omega))
    rcases hcrash wb.isecWrite with heq | heq | htorn
    · rw [heq]
      exact Or.inl hold
    · rw [heq, happly]
      refine Or.inl (hnew.mono ?_)
      rw [hcb'] at hcb
      unfold LGPOS.qw at hcb
      dsimp only at hcb
      omega
    · rw [happly] at htorn
      rw [hrest]
      exact Or.inr ⟨htorn.damaged hold.sealedFor.fFormat hnew.sealedFor.fFormat, hshadow⟩

end

/-- The I/O of what follows the segment that has a shadow, when that segment has been written
again. -/
theorem kept_second {wb : LOG_WRITE_BUFFER} {disk disk' : Nat → Mem} {write : SectorWrite}
    {cb : Nat}
    (hack : Acknowledged strm wb)
    (hbefore : ∀ isec, strm.cSecHeader ≤ isec → isec < wb.isecWrite →
      LogSegment strm lg isec LOG_SEGMENT_SIZE (disk isec))
    (hnew : LogSegment strm lg wb.isecWrite cb (disk wb.isecWrite))
    (hcb : wb.lgposToWrite.qw ≤ LGPOS.qw ⟨cb, wb.isecWrite, strm.lGeneration⟩)
    (hisec : write.isec = wb.isecWrite + 1)
    (hcrash : ∀ isec, Outcome code strm isec (disk isec) (write.apply disk isec) (disk' isec)) :
    Kept code strm lg wb disk' := by
  refine ⟨hack, fun isec hlo hhi => ?_, fun _ cb' hcb' => Or.inl ?_⟩
  · rw [(hcrash isec).eq (Or.inl (by omega))]
    exact hbefore isec hlo hhi
  · rw [(hcrash wb.isecWrite).eq (Or.inl (by omega))]
    refine hnew.mono ?_
    rw [hcb'] at hcb
    unfold LGPOS.qw at hcb
    dsimp only at hcb
    omega

/-! ## The I/Os of a write -/

section
variable {wb done : LOG_WRITE_BUFFER} {disk : Nat → Mem} (hquiet : Quiet strm lg wb disk)
include hquiet

/-- The file after full segments are written. -/
theorem quiet_full {disk' : Nat → Mem} {csecFull : Nat} (hring : Ring done)
    (hdone : done.isecWrite = wb.isecWrite + csecFull) (hshadow : done.fHaveShadow = false)
    (hroom : wb.isecWrite + csecFull ≤ strm.cSecLGFile - 1)
    (hwritten : done.lgposToWrite.qw ≤ (getLgpos strm (wb.isecWrite + csecFull)).qw)
    (hbefore : ∀ isec < wb.isecWrite, disk' isec = disk isec)
    (hfull : ∀ i < csecFull, LogSegment strm lg (wb.isecWrite + i) LOG_SEGMENT_SIZE
      (disk' (wb.isecWrite + i))) : Quiet strm lg done disk' := by
  have hheader := hquiet.ack.header
  refine ⟨hring, ⟨by omega, by omega, fun h => absurd h (by rw [hshadow]; decide), fun _ => ?_⟩,
    fun isec hlo hhi => ?_, fun h => absurd h (by rw [hshadow]; decide)⟩
  · rw [hdone]
    exact hwritten
  · rcases Nat.lt_or_ge isec wb.isecWrite with hlt | hge
    · rw [hbefore isec hlt]
      exact hquiet.before isec hlo hlt
    · obtain ⟨i, rfl⟩ := Nat.exists_eq_add_of_le hge
      exact hfull i (by omega)

/-- The file after a partial segment is written with its shadow. -/
theorem quiet_cut {disk' : Nat → Mem} {cb : Nat} {sec : Mem} (hdone : done = { wb with
      fHaveShadow := true
      lgposToWrite := ⟨cb, wb.isecWrite, strm.lGeneration⟩ })
    (hcb : cb < LOG_SEGMENT_SIZE) (hroom : wb.isecWrite < strm.cSecLGFile - 1)
    (hsec : LogSegment strm lg wb.isecWrite cb sec)
    (hbefore : ∀ isec < wb.isecWrite, disk' isec = disk isec)
    (hfirst : disk' wb.isecWrite = sec) (hsecond : disk' (wb.isecWrite + 1) = sec) :
    Quiet strm lg done disk' := by
  subst hdone
  refine ⟨hquiet.ring, ⟨hquiet.ack.header, hquiet.ack.file, fun _ => ⟨hroom, cb, hcb, rfl⟩,
    fun h => absurd (show true = false from h) (by decide)⟩, fun isec hlo hhi => ?_,
    fun _ cb' hcb' => ?_⟩
  · rw [hbefore isec hhi]
    exact hquiet.before isec hlo hhi
  · have heq : cb' = cb := by
      unfold LGPOS.qw at hcb'
      dsimp only at hcb'
      omega
    rw [heq, hfirst, hsecond]
    exact ⟨hsec, hsec⟩

/-- A write of full segments without a shadow is one I/O past what was acknowledged. -/
theorem ready_fresh {write : SectorWrite} (hshadow : wb.fHaveShadow = false)
    (hisec : write.isec = wb.isecWrite)
    (hroom : wb.isecWrite + write.rgsec.length ≤ strm.cSecLGFile)
    (hdone : Quiet strm lg done (write.apply disk)) :
    Ready code strm lg wb done [write] disk := by
  have hheader := hquiet.ack.header
  exact ⟨⟨by omega, by omega⟩, fun disk' hcrash => kept_fresh hquiet hcrash hshadow (by omega),
    hdone⟩

/-- A write over a segment that has a shadow is an I/O of that segment and one of what follows
it. -/
theorem ready_shadow {sec : Mem} {rgsec : List Mem} {cb : Nat}
    (hsec : LogSegment strm lg wb.isecWrite cb sec)
    (hcb : wb.lgposToWrite.qw ≤ LGPOS.qw ⟨cb, wb.isecWrite, strm.lGeneration⟩)
    (hroom : wb.isecWrite + 1 + rgsec.length ≤ strm.cSecLGFile)
    (hdone : Quiet strm lg done
      ((SectorWrite.mk (wb.isecWrite + 1) rgsec).apply
        ((SectorWrite.mk wb.isecWrite [sec]).apply disk))) :
    Ready code strm lg wb done [⟨wb.isecWrite, [sec]⟩, ⟨wb.isecWrite + 1, rgsec⟩] disk := by
  have hheader := hquiet.ack.header
  have hfirst : (SectorWrite.mk wb.isecWrite [sec]).apply disk wb.isecWrite = sec :=
    SectorWrite.apply_add ⟨wb.isecWrite, [sec]⟩ disk (i := 0) rfl
  refine ⟨⟨hheader, ?_⟩, fun disk' hcrash => kept_first hquiet hcrash rfl rfl hsec hcb,
    ⟨by dsimp only; omega, hroom⟩, fun disk' hcrash => ?_, hdone⟩
  · dsimp only [List.length_cons, List.length_nil]
    omega
  · refine kept_second hquiet.ack (fun isec hlo hhi => ?_) (hfirst.symm ▸ hsec) hcb rfl hcrash
    rw [SectorWrite.apply_lt (show isec < wb.isecWrite from hhi)]
    exact hquiet.before isec hlo hhi

/-- The I/Os of `ErrLGIWritePartialSector`. -/
theorem ready_writePartial {cb : Nat} (hcb : cb < LOG_SEGMENT_SIZE)
    (hroom : wb.isecWrite < strm.cSecLGFile - 1) (hholds : HoldsLog wb lg cb)
    (hforward : cmpLgpos wb.lgposToWrite ⟨cb, wb.isecWrite, strm.lGeneration⟩ ≤ 0) :
    Ready code strm lg wb
      (errLGIWritePartialSector code strm wb (wb.pbWrite + cb) wb.isecWrite wb.pbWrite
        ⟨cb, wb.isecWrite, strm.lGeneration⟩).2
      (errLGIWritePartialSector code strm wb (wb.pbWrite + cb) wb.isecWrite wb.pbWrite
        ⟨cb, wb.isecWrite, strm.lGeneration⟩).1 disk := by
  have hfile := strm.cSecLGFile_le
  obtain ⟨csec, q, hq, hcbLGBuf, hpb⟩ := hquiet.ring
  have hsec : LogSegment strm lg wb.isecWrite cb
      (pvPartialSegment code strm wb (wb.pbWrite + cb) wb.isecWrite wb.pbWrite) := by
    refine logSegment_sealSegment (by omega) fun ib hlo hhi => ?_
    have hstart : pbAfter wb 0 wb.pbWrite = wb.pbWrite := by
      rw [hpb, pbAfter_eq hcbLGBuf, if_neg (by omega), Nat.add_zero]
    have hbyte := hholds 0 ib (by omega) hlo (by omega)
    rw [hstart, Nat.add_zero] at hbyte
    rw [Nat.add_sub_cancel_left, if_pos hhi, hbyte]
  have hback : wb.lgposToWrite.qw ≤ LGPOS.qw ⟨cb, wb.isecWrite, strm.lGeneration⟩ := by
    by_contra hgt
    have := cmpLgpos_pos_iff.2 (Nat.lt_of_not_le hgt)
    omega
  unfold errLGIWritePartialSector
  dsimp only
  cases hshadow : wb.fHaveShadow with
  | false =>
    rw [if_neg (by decide)]
    refine ready_fresh hquiet hshadow rfl (by dsimp only [List.length_cons, List.length_nil]; omega)
      (quiet_cut hquiet rfl hcb hroom hsec (fun isec hlt => SectorWrite.apply_lt hlt) ?_ ?_)
    · exact SectorWrite.apply_add ⟨wb.isecWrite, _⟩ disk (i := 0) rfl
    · exact SectorWrite.apply_add ⟨wb.isecWrite, _⟩ disk (i := 1) rfl
  | true =>
    rw [if_pos rfl]
    refine ready_shadow hquiet hsec hback (by dsimp only [List.length_cons, List.length_nil]; omega)
      (quiet_cut hquiet rfl hcb hroom hsec (fun isec hlt => ?_) ?_ ?_)
    · rw [SectorWrite.apply_lt (show isec < wb.isecWrite + 1 by omega), SectorWrite.apply_lt hlt]
    · exact SectorWrite.apply_apply_first (Nat.lt_succ_self _)
    · exact SectorWrite.apply_add ⟨wb.isecWrite + 1, _⟩ _ (i := 0) rfl

/-- The I/Os of `ErrLGIWriteFullSectors`. -/
theorem ready_writeFull {csecFull : Nat} {lgposWriteEnd : LGPOS} (hpos : 0 < csecFull)
    (hroom : wb.isecWrite + csecFull ≤ strm.cSecLGFile - 1)
    (hused : LOG_SEGMENT_SIZE * csecFull ≤ wb.cbLGBuf)
    (hholds : HoldsLog wb lg (LOG_SEGMENT_SIZE * csecFull))
    (hwritten : cmpLgpos lgposWriteEnd (getLgpos strm (wb.isecWrite + csecFull)) ≤ 0) :
    Ready code strm lg wb
      (errLGIWriteFullSectors code strm wb csecFull wb.isecWrite wb.pbWrite lgposWriteEnd).2
      (errLGIWriteFullSectors code strm wb csecFull wb.isecWrite wb.pbWrite lgposWriteEnd).1
        disk := by
  have hfile := strm.cSecLGFile_le
  obtain ⟨csec, q, hq, hcbLGBuf, hpb⟩ := hquiet.ring
  have hcsec : csecFull ≤ csec := by
    rw [hcbLGBuf] at hused
    unfold LOG_SEGMENT_SIZE at hused
    omega
  have hwritten' : lgposWriteEnd.qw ≤ (getLgpos strm (wb.isecWrite + csecFull)).qw := by
    by_contra hgt
    have := cmpLgpos_pos_iff.2 (Nat.lt_of_not_le hgt)
    omega
  have hsec : ∀ i < csecFull, LogSegment strm lg (wb.isecWrite + i) LOG_SEGMENT_SIZE
      (segmentAt (checksumSegments code strm wb csecFull wb.isecWrite wb.pbWrite)
        (pbAfter wb i wb.pbWrite)) :=
    fun i hi => checksumSegments_spec hquiet.ring hused (by omega) hholds hi
  unfold errLGIWriteFullSectors
  dsimp only
  generalize checksumSegments code strm wb csecFull wb.isecWrite wb.pbWrite = rgb at hsec ⊢
  cases hshadow : wb.fHaveShadow with
  | false =>
    simp only [Bool.false_eq_true, if_false]
    have hwrite : writeSectors wb rgb csecFull wb.isecWrite wb.pbWrite
        = ⟨wb.isecWrite, (List.range csecFull).map fun k =>
          segmentAt rgb (pbAfter wb k wb.pbWrite)⟩ := by
      rw [hpb, writeSectors_eq hcbLGBuf hq.le]
    rw [hwrite]
    refine ready_fresh hquiet hshadow rfl
      (by dsimp only; rw [List.length_map, List.length_range]; omega)
      (quiet_full hquiet (ring_pbAfter hcbLGBuf hq hcsec rfl rfl ?_) rfl rfl hroom hwritten'
        (fun isec hlt => SectorWrite.apply_lt hlt) fun i hi => ?_)
    · dsimp only
      rw [hpb]
    · rw [SectorWrite.apply_add ⟨wb.isecWrite, _⟩ disk (i := i)
        (by rw [List.getElem?_map, List.getElem?_range hi, Option.map_some])]
      exact hsec i hi
  | true =>
    simp only [if_true]
    obtain ⟨-, cb, hcb, hlgpos⟩ := hquiet.ack.shadow hshadow
    have hback : wb.lgposToWrite.qw ≤ LGPOS.qw ⟨LOG_SEGMENT_SIZE, wb.isecWrite, strm.lGeneration⟩ :=
      by
      rw [hlgpos]
      unfold LGPOS.qw
      dsimp only
      omega
    have hmax : wb.pbLGBufMax = wb.pbLGBufMin + LOG_SEGMENT_SIZE * csec := by
      rw [LOG_WRITE_BUFFER.pbLGBufMax, hcbLGBuf]
    have hstart : pbAfter wb 0 wb.pbWrite = wb.pbWrite := by
      rw [hpb, pbAfter_eq hcbLGBuf, if_neg (by omega), Nat.add_zero]
    have hwrap : (if wb.pbWrite = wb.pbLGBufMax then wb.pbLGBufMin else wb.pbWrite) =
      wb.pbWrite := by
      rw [hpb, hmax, if_neg]
      unfold LOG_SEGMENT_SIZE
      omega
    obtain ⟨q', hq', hnext, hafter⟩ := pbAfter_next hcbLGBuf hq hcsec hpb
    have hfirst := hsec 0 hpos
    rw [hstart, Nat.add_zero] at hfirst
    rw [hwrap, hnext, errLGWriteSectorData_one]
    by_cases hone : 0 = csecFull - 1
    · obtain rfl : csecFull = 1 := by omega
      simp only [Nat.sub_self, if_true]
      rw [errLGWriteSectorData_one]
      refine ready_shadow hquiet hfirst hback
        (by dsimp only [List.length_cons, List.length_nil]; omega)
        (quiet_full hquiet (ring_pbAfter hcbLGBuf hq' (Nat.zero_le _) rfl rfl ?_) rfl rfl hroom
          hwritten'
          (fun isec hlt => ?_) fun i hi => ?_)
      · dsimp only
        rw [pbAfter_eq hcbLGBuf, if_neg (by omega), Nat.add_zero]
      · rw [SectorWrite.apply_lt (show isec < wb.isecWrite + 1 by omega), SectorWrite.apply_lt hlt]
      · obtain rfl : i = 0 := by omega
        rw [Nat.add_zero, SectorWrite.apply_apply_first (Nat.lt_succ_self _)]
        exact hfirst
    · rw [if_neg hone]
      dsimp only
      rw [writeSectors_eq hcbLGBuf hq'.le]
      refine ready_shadow hquiet hfirst hback (by rw [List.length_map, List.length_range]; omega)
        (quiet_full hquiet (ring_pbAfter hcbLGBuf hq' (show csecFull - 1 ≤ csec by omega)
          rfl rfl rfl)
          (by dsimp only; omega) rfl hroom hwritten' (fun isec hlt => ?_) fun i hi => ?_)
      · rw [SectorWrite.apply_lt (show isec < wb.isecWrite + 1 by omega), SectorWrite.apply_lt hlt]
      · cases i with
        | zero =>
          rw [Nat.add_zero, SectorWrite.apply_apply_first (Nat.lt_succ_self _)]
          exact hfirst
        | succ i =>
          have hdisk := SectorWrite.apply_add
            ⟨wb.isecWrite + 1, (List.range (csecFull - 1)).map fun k =>
              segmentAt rgb (pbAfter wb k (wb.pbLGBufMin + LOG_SEGMENT_SIZE * q'))⟩
            ((SectorWrite.mk wb.isecWrite [segmentAt rgb wb.pbWrite]).apply disk) (i := i)
            (by rw [List.getElem?_map, List.getElem?_range (by omega), Option.map_some])
          dsimp only at hdisk
          rw [show wb.isecWrite + (i + 1) = wb.isecWrite + 1 + i by omega, hdisk, hafter i hi,
            show wb.isecWrite + 1 + i = wb.isecWrite + (i + 1) by omega]
          exact hsec (i + 1) hi

end

/-! ## Runs -/

/-- Log records go to the buffer, not to the file. -/
theorem Quiet.setBuffer {wb : LOG_WRITE_BUFFER} {disk : Nat → Mem} (h : Quiet strm lg wb disk)
    (rgb : Mem) :
    Quiet strm lg { wb with rgbLGBuf := rgb } disk :=
  ⟨h.ring, ⟨h.ack.header, h.ack.file, h.ack.shadow, h.ack.full⟩, h.before, h.shadow⟩

/-- A write with its I/Os before it satisfies the invariant, also when it has none. -/
theorem Inv.of_ready {s : System} (h : Ready code strm lg s.wb s.done s.pending s.disk)
    (hdone : s.pending = [] → s.wb = s.done) : Inv code strm lg s := by
  refine ⟨fun hnil => ?_, fun _ => h⟩
  rw [hnil] at h
  rw [hdone hnil]
  exact h

theorem Inv.step {s s' : System} {a : Action} (h : Inv code strm lg s)
    (hstep : Step code strm lg a s s') :
    Inv code strm lg s' := by
  cases hstep with
  | writeFull idle pos room used holds forward written =>
    refine ⟨fun hnil => absurd hnil ?_, fun _ =>
      ready_writeFull ((h.quiet idle).setBuffer _) pos room used holds written⟩
    dsimp only [errLGIWriteFullSectors]
    cases s.wb.fHaveShadow with
    | false => simp
    | true =>
      simp only [if_true]
      split <;> simp
  | writePartial idle pos partly room holds forward =>
    refine ⟨fun hnil => absurd hnil ?_, fun _ =>
      ready_writePartial ((h.quiet idle).setBuffer _) partly room holds forward⟩
    dsimp only [errLGIWritePartialSector]
    split <;> simp
  | @complete write rest s next =>
    have hready := h.ready (by rw [next]; simp)
    rw [next] at hready
    obtain ⟨-, -, hrest⟩ := hready
    refine Inv.of_ready ?_ fun hnil => ?_
    · dsimp only
      cases rest with
      | nil =>
        rw [if_pos rfl]
        exact hrest
      | cons => exact hrest
    · dsimp only at hnil ⊢
      rw [if_pos hnil]

/-- The file and the buffer before the first write: none is under way, and what is in the file is as
the log has it. In a new file there is nothing before the first segment to write. -/
structure Start (strm : LOG_STREAM) (lg : Nat → Nat → Byte) (s : System) : Prop where
  idle : s.pending = []
  quiet : Quiet strm lg s.wb s.disk

theorem Start.inv {s : System} (h : Start strm lg s) : Inv code strm lg s :=
  ⟨fun _ => h.quiet, fun hne => absurd h.idle hne⟩

/-- After a crash, whatever of the I/O in flight reached the file, what was acknowledged is kept. -/
theorem Inv.crash {s : System} {disk : Nat → Mem} (h : Inv code strm lg s)
    (hcrash : Crash code strm s disk) :
    Kept code strm lg s.wb disk := by
  cases hpending : s.pending with
  | nil =>
    have hq := h.quiet hpending
    have heq : disk = s.disk := by
      funext isec
      have hout := hcrash isec
      rw [System.next, hpending] at hout
      rcases hout with h | h | h
      · exact h
      · exact h
      · exact funext fun ib => or_self_iff.1 (h.mix ib)
    rw [heq]
    exact ⟨hq.ack, hq.before, fun hsh cb hcb => Or.inl (hq.shadow hsh cb hcb).1⟩
  | cons write rest =>
    have hready := h.ready (by rw [hpending]; simp)
    rw [hpending] at hready
    refine hready.2.1 disk fun isec => ?_
    have hout := hcrash isec
    rwa [System.next, hpending] at hout

/-- Every I/O of a write stays in the file. -/
theorem Inv.inFile {s : System} (h : Inv code strm lg s) {write : SectorWrite}
    (hwrite : write ∈ s.pending) :
    strm.cSecHeader ≤ write.isec ∧ write.isec + write.rgsec.length ≤ strm.cSecLGFile := by
  have hready := h.ready (List.ne_nil_of_mem hwrite)
  have hall : ∀ pending disk, Ready code strm lg s.wb s.done pending disk → ∀ write ∈ pending,
      strm.cSecHeader ≤ write.isec ∧ write.isec + write.rgsec.length ≤ strm.cSecLGFile := by
    intro pending
    induction pending with
    | nil => exact fun _ _ write hmem => absurd hmem List.not_mem_nil
    | cons first rest ih =>
      intro disk hready write hmem
      rcases List.mem_cons.1 hmem with rfl | hmem
      · exact hready.1
      · exact ih _ hready.2.2 write hmem
  exact hall _ _ hready write hwrite

end Ese.Log
