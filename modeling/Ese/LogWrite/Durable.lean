import Ese.LogWrite.Logging

/-!
# Acknowledged log records are read again

The bytes between the segment to be written next and `m_pbEntry` are in the buffer as the records
have them, but for the copies under way, and the file has the ones before. So what a write
acknowledges is records of the log, and after a crash at any time the last log file has them and
`ErrLGGetNextRecFF` returns them, in the order in which their space was reserved.
-/

namespace Ese.LogWrite

open Ese.Log (LOG_SEGMENT_SIZE cbLGSEGHDR LOG_STREAM LGPOS SectorWrite System cmpLgpos
    cmpLgpos_neg_iff cmpLgpos_pos_iff HoldsLog)
open Ese.LogBuffer
open Ese.LogRead (ValidLR)
open Ese.LogRead.LOG_FILE (LoggedLR cbLGSizeOfData)

/-! ## Positions -/

/-- The position in the log file as an `LGPOS`. -/
def lgposOf (strm : LOG_STREAM) (ib : Nat) : LGPOS :=
  ⟨ib % LOG_SEGMENT_SIZE, ib / LOG_SEGMENT_SIZE, strm.lGeneration⟩

/-- The bytes of the log by segment. -/
def segments (lg : Mem) (isec ib : Nat) : Byte := lg (LOG_SEGMENT_SIZE * isec + ib)

section
variable {strm : LOG_STREAM} {ib ib' : Nat}

/-- A position in the order of positions. -/
theorem lgposOf_qw (strm : LOG_STREAM) (ib : Nat) :
    (lgposOf strm ib).qw = strm.lGeneration * 2 ^ 32 + ib / 4096 * 2 ^ 16 + ib % 4096 := rfl

/-- Positions are in the order of the offsets. -/
theorem lgposOf_le (h : ib ≤ ib') : (lgposOf strm ib).qw ≤ (lgposOf strm ib').qw := by
  rw [lgposOf_qw, lgposOf_qw]
  omega

/-- Positions are in the order of the offsets. -/
theorem lgposOf_lt (h : ib < ib') : (lgposOf strm ib).qw < (lgposOf strm ib').qw := by
  rw [lgposOf_qw, lgposOf_qw]
  omega

/-- A position moved by some bytes. -/
theorem addLgpos_lgposOf (strm : LOG_STREAM) (ib cb : Nat) :
    addLgpos (lgposOf strm ib) cb = lgposOf strm (ib + cb) := by
  have hisec : ib / 4096 + (ib % 4096 + cb) / 4096 = (ib + cb) / 4096 := by omega
  have hib : (ib % 4096 + cb) % 4096 = (ib + cb) % 4096 := by omega
  unfold addLgpos lgposOf LOG_SEGMENT_SIZE
  dsimp only
  rw [hisec, hib]

end

namespace LOG

section
variable (s : LOG)

/-- The position in the file of a pointer into the buffer. -/
def ibOf (pb : Nat) : Nat :=
  LOG_SEGMENT_SIZE * s.system.wb.isecWrite +
    if pb < s.system.wb.pbWrite then pb + s.pLogBuffer.cbLGBuf - s.system.wb.pbWrite
    else pb - s.system.wb.pbWrite

/-- Where the buffer has a position of the file. -/
def pbOf (ib : Nat) : Nat :=
  s.buffer.advance s.system.wb.pbWrite (ib - LOG_SEGMENT_SIZE * s.system.wb.isecWrite)

/-- The end of the records. -/
def ibEntry : Nat := LOG_SEGMENT_SIZE * s.system.wb.isecWrite + s.buffer.cbUsed

/-- The buffer when the write under way is done. -/
def written : Log.LOG_WRITE_BUFFER := if s.system.pending = [] then s.system.wb else s.system.done

end

/-- The buffer is of whole segments, and its pointers are in it. -/
structure Geometry (s : LOG) : Prop where
  pbLGBufMin : s.system.wb.pbLGBufMin = 0
  cbLGBuf : s.system.wb.cbLGBuf = s.pLogBuffer.cbLGBuf
  whole : s.pLogBuffer.cbLGBuf % 4096 = 0
  pbWrite : s.system.wb.pbWrite % 4096 = 0
  write_lt : s.system.wb.pbWrite < s.pLogBuffer.cbLGBuf
  entry_lt : s.pbEntry < s.pLogBuffer.cbLGBuf

section
variable {strm : LOG_STREAM} {s : LOG} {pb ib cb : Nat}

/-- Where the records end, as the pointers have it. -/
theorem Geometry.cbUsed_eq (h : s.Geometry) :
    s.buffer.cbUsed =
      if s.pbEntry < s.system.wb.pbWrite then s.pbEntry + s.pLogBuffer.cbLGBuf - s.system.wb.pbWrite
      else s.pbEntry - s.system.wb.pbWrite := by
  have hwrite := h.write_lt
  have hentry := h.entry_lt
  unfold LOG_WRITE_BUFFER.cbUsed LOG_WRITE_BUFFER.cbAvail buffer
  dsimp only
  split_ifs <;> omega

/-- The entry pointer is at the entry offset. -/
theorem Geometry.ibOf_entry (h : s.Geometry) : s.ibOf s.pbEntry = s.ibEntry := by
  rw [ibOf, ibEntry, h.cbUsed_eq]

/-- The buffer is never full. -/
theorem Geometry.cbUsed_lt (h : s.Geometry) : s.buffer.cbUsed < s.pLogBuffer.cbLGBuf := by
  have hwrite := h.write_lt
  have hentry := h.entry_lt
  rw [h.cbUsed_eq]
  split_ifs <;> omega

/-- What is not used is available. -/
theorem Geometry.cbAvail_eq (h : s.Geometry) :
    s.buffer.cbAvail = s.pLogBuffer.cbLGBuf - s.buffer.cbUsed := by
  have hwrite := h.write_lt
  have hentry := h.entry_lt
  unfold LOG_WRITE_BUFFER.cbUsed LOG_WRITE_BUFFER.cbAvail buffer
  dsimp only
  split_ifs <;> omega

/-- The full sectors are those used as a whole. -/
theorem Geometry.csecFull_eq (h : s.Geometry) : s.csecFull = s.buffer.cbUsed / 4096 := by
  rw [csecFull, h.cbUsed_eq]
  unfold LOG_SEGMENT_SIZE
  split_ifs <;> rfl

/-- The pointers of a segment's bytes are where the positions are, and in a segment of the
buffer. -/
theorem Geometry.pbOf_ibOf (h : s.Geometry) (hpb : pb < s.pLogBuffer.cbLGBuf) :
    s.pbOf (s.ibOf pb) = pb ∧ s.ibOf pb < 4096 * s.system.wb.isecWrite + s.pLogBuffer.cbLGBuf ∧
      4096 * s.system.wb.isecWrite ≤ s.ibOf pb ∧ s.ibOf pb % 4096 = pb % 4096 := by
  have hwrite := h.write_lt
  have hmod := h.pbWrite
  have hwhole := h.whole
  unfold pbOf ibOf LOG_WRITE_BUFFER.advance buffer LOG_SEGMENT_SIZE
  dsimp only
  split_ifs <;> omega

/-- An offset further is a pointer further round the buffer. -/
theorem Geometry.pbOf_add (h : s.Geometry) (hle : 4096 * s.system.wb.isecWrite ≤ ib)
    (hlt : ib + cb < 4096 * s.system.wb.isecWrite + s.pLogBuffer.cbLGBuf) :
    s.pbOf (ib + cb) = s.buffer.advance (s.pbOf ib) cb := by
  have hwrite := h.write_lt
  unfold pbOf LOG_WRITE_BUFFER.advance buffer LOG_SEGMENT_SIZE
  dsimp only
  split_ifs <;> omega

/-- `GetLgpos` of a pointer is its position, in this file. -/
theorem Geometry.getLgpos_eq (h : s.Geometry) (hpb : pb < s.pLogBuffer.cbLGBuf)
    (hfile : s.ibOf pb / 4096 < strm.isecLGFileEnd) :
      s.getLgpos strm pb = lgposOf strm (s.ibOf pb) := by
  have hwrite := h.write_lt
  have hmod := h.pbWrite
  have hwhole := h.whole
  obtain ⟨-, -, -, hib⟩ := h.pbOf_ibOf hpb
  have hisec : s.system.wb.isecWrite +
      (if pb / 4096 * 4096 < s.system.wb.pbWrite then
        s.pLogBuffer.cbLGBuf / 4096 - (s.system.wb.pbWrite - pb / 4096 * 4096) / 4096
      else (pb / 4096 * 4096 - s.system.wb.pbWrite) / 4096) = s.ibOf pb / 4096 := by
    unfold ibOf LOG_SEGMENT_SIZE
    split_ifs <;> omega
  have hoff : pb - pb / 4096 * 4096 = s.ibOf pb % 4096 := by omega
  unfold getLgpos lgposOf LOG_SEGMENT_SIZE
  dsimp only
  rw [hisec, if_neg (by omega), hoff]

end

end LOG

/-! ## The invariant -/

section
variable (code : ChecksumCode) (strm : LOG_STREAM) (ibStart : Nat)

/-- Where a copy under way goes: to the bytes of its records, behind what is being written. -/
structure Reserved (s : LOG) (copy : PendingCopy) : Prop where
  pbLogRec_lt : copy.pbLogRec < s.pLogBuffer.cbLGBuf
  written_le : 4096 * s.written.isecWrite ≤ s.ibOf copy.pbLogRec
  records : ∃ before behind, s.logged.flatten = before ++ recordsOf copy.rgdata ++ behind ∧
    ibStart + (batchBytes ibStart before).length = s.ibOf copy.pbLogRec

/-- A position of the file that a copy under way is to fill. -/
def Awaited (s : LOG) (ib : Nat) : Prop :=
  ∃ copy ∈ s.pending, s.ibOf copy.pbLogRec ≤ ib ∧
    ib < s.ibOf copy.pbLogRec + (batchBytes (s.ibOf copy.pbLogRec) (recordsOf copy.rgdata)).length

/-- The buffer has the bytes of the log from the next segment to write on, but for the copies under
way. -/
def Buffered (s : LOG) (lg : Mem) : Prop :=
  ∀ ib, 4096 * s.system.wb.isecWrite ≤ ib → ib < s.ibEntry → 40 ≤ ib % 4096 → ¬ Awaited s ib →
    s.rgb (s.pbOf ib) = lg ib

/-- The write under way is of segments from `m_pbWrite` on that the buffer has. -/
structure Writing (s : LOG) (csec : Nat) : Prop where
  pbLGBufMin : s.written.pbLGBufMin = 0
  cbLGBuf : s.written.cbLGBuf = s.pLogBuffer.cbLGBuf
  isecWrite : s.written.isecWrite = s.system.wb.isecWrite + csec
  pbWrite : s.written.pbWrite = s.buffer.advance s.system.wb.pbWrite (4096 * csec)
  used : 4096 * csec ≤ s.buffer.cbUsed

/-- What is acknowledged when the write under way is done, and what the next write of full segments
may acknowledge. -/
structure Bounds (s : LOG) : Prop where
  entry : s.written.lgposToWrite.qw ≤ (lgposOf strm s.ibEntry).qw
  all : 4096 * s.written.isecWrite = s.ibEntry →
    (lgposOf strm s.ibEntry).qw ≤ s.written.lgposToWrite.qw
  forward : s.written.isecWrite < s.ibEntry / 4096 →
    s.written.lgposToWrite.qw ≤ s.lgposMaxWritePoint.qw ∧
    s.lgposMaxWritePoint.qw ≤ (lgposOf strm (s.ibEntry / 4096 * 4096)).qw ∧
    (s.ibEntry % 4096 = 0 → (lgposOf strm s.ibEntry).qw ≤ s.lgposMaxWritePoint.qw)

/-- Where a batch begins or the last one ends. -/
def Boundary (s : LOG) (lgpos : LGPOS) : Prop :=
  ∃ n ≤ s.logged.length, lgpos.qw =
    (lgposOf strm (ibStart + (batchBytes ibStart (s.logged.take n).flatten).length)).qw

/-- A batch is acknowledged as a whole. -/
structure Boundaries (s : LOG) : Prop where
  acked : Boundary strm ibStart s s.system.wb.lgposToWrite
  written : Boundary strm ibStart s s.written.lgposToWrite
  maxWritePoint : s.written.isecWrite < s.ibEntry / 4096 →
    Boundary strm ibStart s s.lgposMaxWritePoint

/-- The invariant of runs. -/
structure Inv (s : LOG) : Prop where
  geometry : s.Geometry
  writing : ∃ csec, Writing s csec
  entry : ibStart + (batchBytes ibStart s.logged.flatten).length = s.ibEntry
  file : s.ibEntry / 4096 < strm.cSecLGFile - 1
  valid : ∀ data ∈ s.logged.flatten, ValidLR data
  pending : ∀ copy ∈ s.pending, Reserved ibStart s copy
  bounds : Bounds strm s
  boundaries : Boundaries strm ibStart s
  disk : ∀ lg : Mem, lg.HoldsSome ibStart (batchBytes ibStart s.logged.flatten) →
    Log.Inv code strm (segments lg) s.system
  buffered : ∀ lg : Mem, lg.HoldsSome ibStart (batchBytes ibStart s.logged.flatten) → Buffered s lg

end

section
variable {code : ChecksumCode} {strm : LOG_STREAM} {logtime : Nat → BitVec 64} {ibStart : Nat}
    {s s' : LOG} {lg : Mem}

/-! ## A batch is added -/

/-- The records of a batch are found in its data. -/
theorem recordsOf_flatten {batch : List (List (List Byte))}
    (h : ∀ rgdata ∈ batch, LoggedLR rgdata) :
    recordsOf batch.flatten = batch.map List.flatten := by
  rw [recordsOf, records_flatten (fun rgdata hmem => (h rgdata hmem).isRecord) le_rfl]

/-- The records of logged batches are valid. -/
theorem recordsOf_valid {batch : List (List (List Byte))} (h : ∀ rgdata ∈ batch, LoggedLR rgdata) :
    ∀ data ∈ recordsOf batch.flatten, ValidLR data := by
  rw [recordsOf_flatten h]
  intro data hmem
  obtain ⟨rgdata, hrgdata, rfl⟩ := List.mem_map.1 hmem
  exact (h rgdata hrgdata).valid

/-- A batch that is not empty has bytes. -/
theorem length_batchBytes_pos {rgdata : List (List Byte)} (ib : Nat) (hne : rgdata ≠ [])
    (h : ∀ data ∈ rgdata, ValidLR data) : 0 < (batchBytes ib rgdata).length := by
  cases rgdata with
  | nil => exact absurd rfl hne
  | cons data rgdata =>
    have hpos := List.length_pos_of_ne_nil (h data List.mem_cons_self).nonempty
    have hend := add_length_recordBytes (data.length + 1) false data ib
    have hwhole := @le_framedEnd (data.length + 1) false data.length ib (Nat.le_succ _)
      fun _ hno => absurd hno Bool.false_ne_true
    rw [batchBytes, List.length_append]
    omega

/-- What the space for a batch is: the bytes of its records, of which the buffer has no more than it
has room for, and the file too. -/
theorem errLGLogRec_spec (h : s.Geometry) {rgdata : List (List Byte)} (hne : recordsOf rgdata ≠ [])
    (hvalid : ∀ data ∈ recordsOf rgdata, ValidLR data)
      (hsome : s.errLGLogRec strm rgdata = some s') :
    ∃ cb, cb = (batchBytes s.ibEntry (recordsOf rgdata)).length ∧ 0 < cb ∧
      s.buffer.cbUsed + cb < s.pLogBuffer.cbLGBuf ∧ (s.ibEntry + cb) / 4096 < strm.cSecLGFile - 1 ∧
      s' = { s with
        pbEntry := s.buffer.advance s.pbEntry cb
        pending := s.pending ++ [⟨s.pbEntry, rgdata⟩]
        lgposMaxWritePoint := s.maxWritePoint strm cb
        logged := s.logged ++ [recordsOf rgdata] } := by
  obtain ⟨-, -, -, hmod⟩ := h.pbOf_ibOf h.entry_lt
  rw [h.ibOf_entry] at hmod
  have hlimit : s.buffer.limit s.pbEntry = s.pbEntry + s.buffer.cbAvail :=
    LOG_WRITE_BUFFER.cbAvail_eq h.entry_lt
  have havail := h.cbAvail_eq
  have hused := h.cbUsed_lt
  have hentry := h.entry_lt
  have hwhole := h.whole
  have hpos := length_batchBytes_pos s.ibEntry hne hvalid
  have hsame := batchBytes_congr hmod (recordsOf rgdata)
  have hend := add_length_batchBytes s.pbEntry (records cbLGSizeOfData rgdata.length rgdata)
  change s.pbEntry + (batchBytes s.pbEntry (recordsOf rgdata)).length = _ at hend
  rw [← hsame] at hend
  generalize hcb : (batchBytes s.ibEntry (recordsOf rgdata)).length = cb at hpos hend
  unfold LOG.errLGLogRec at hsome
  obtain ⟨⟨pbLogRec, rgb⟩, hreserved, hfile⟩ := Option.bind_eq_some_iff.1 hsome
  dsimp only at hfile
  rcases @LOG_WRITE_BUFFER.flgiAddLogRec_spec s.buffer true (fun _ => 0) s.pbEntry
      (LOG_WRITE_BUFFER.room_limit h.whole h.pbWrite h.write_lt _) h.entry_lt cbLGSizeOfData rgdata
        s.rgb _ rfl with
    ⟨hnone, -⟩ | ⟨hroom, rgb', hspace, -⟩
  · rw [hnone] at hreserved
    cases hreserved
  rw [← hend] at hroom hspace
  rw [hspace] at hreserved
  have hpb := (Prod.mk.inj (Option.some.inj hreserved)).1
  have hreq : s.cbReq pbLogRec = cb := by
    have hcbLGBuf : s.buffer.pLogBuffer.cbLGBuf = s.pLogBuffer.cbLGBuf := rfl
    rw [LOG.cbReq, ← hpb, hcbLGBuf]
    split_ifs <;> omega
  rw [hreq] at hfile
  split_ifs at hfile with hover
  refine ⟨cb, rfl, hpos, by omega, ?_, (Option.some.inj hfile).symm⟩
  have hibEntry : s.ibEntry = 4096 * s.system.wb.isecWrite + s.buffer.cbUsed := rfl
  unfold LOG_SEGMENT_SIZE at hover
  omega

/-- The new end of the records. -/
theorem ibEntry_advance (h : s.Geometry) {cb : Nat}
    (hroom : s.buffer.cbUsed + cb < s.pLogBuffer.cbLGBuf)
    (hsystem : s'.system = s.system) (hbuffer : s'.pLogBuffer = s.pLogBuffer)
    (hentry : s'.pbEntry = s.buffer.advance s.pbEntry cb) : s'.Geometry ∧
      s'.ibEntry = s.ibEntry + cb := by
  have hwrite := h.write_lt
  have hlt := h.entry_lt
  have hused := h.cbUsed_eq
  have hpbEntry : s'.pbEntry =
      if s.pbEntry + cb ≥ s.pLogBuffer.cbLGBuf then s.pbEntry + cb - s.pLogBuffer.cbLGBuf
      else s.pbEntry + cb := hentry
  have hgeometry : s'.Geometry := by
    refine ⟨hsystem ▸ h.pbLGBufMin, ?_, hbuffer ▸ h.whole, hsystem ▸ h.pbWrite, ?_, ?_⟩
    · rw [hsystem, hbuffer]
      exact h.cbLGBuf
    · rw [hsystem, hbuffer]
      exact hwrite
    · rw [hbuffer, hpbEntry]
      split_ifs at hused ⊢ <;> omega
  have hused' := hgeometry.cbUsed_eq
  rw [hsystem, hbuffer, hpbEntry] at hused'
  refine ⟨hgeometry, ?_⟩
  rw [LOG.ibEntry, LOG.ibEntry, hsystem, Nat.add_assoc]
  congr 1
  rw [hused']
  split_ifs at hused ⊢ <;> omega

/-- A batch takes the log no farther than to the begin of the record that hangs over. -/
theorem Bounds.logRec (hgeometry : s.Geometry) (h : Bounds strm s)
    (hend : strm.isecLGFileEnd = strm.cSecLGFile - 1)
    (hfile : s.ibEntry / 4096 < strm.cSecLGFile - 1)
    (hwritten : 4096 * s.written.isecWrite ≤ s.ibEntry) {cb : Nat}
    (hpos : 0 < cb) (hsystem : s'.system = s.system) (hentry : s'.ibEntry = s.ibEntry + cb)
    (hmax : s'.lgposMaxWritePoint = s.maxWritePoint strm cb) : Bounds strm s' := by
  have hwb : s'.written = s.written := by
    unfold LOG.written
    rw [hsystem]
  obtain ⟨-, -, -, hmod⟩ := hgeometry.pbOf_ibOf hgeometry.entry_lt
  rw [hgeometry.ibOf_entry] at hmod
  have hlgpos := @LOG.Geometry.getLgpos_eq strm s s.pbEntry hgeometry hgeometry.entry_lt (by
    rw [hgeometry.ibOf_entry, hend]
    exact hfile)
  rw [hgeometry.ibOf_entry] at hlgpos
  have hall : 4096 * s.written.isecWrite ≠ s.ibEntry + cb := by omega
  have hfloor : s.pbEntry / 4096 * 4096 = (s.pbEntry + cb) / 4096 * 4096 ∧
        s.ibEntry / 4096 = (s.ibEntry + cb) / 4096 ∧
        (s.ibEntry + cb) % 4096 ≠ 0 ∨
      s.pbEntry / 4096 * 4096 ≠ (s.pbEntry + cb) / 4096 * 4096 ∧
        (s.pbEntry + cb) / 4096 * 4096 = s.pbEntry + cb ∧
        (s.ibEntry + cb) / 4096 * 4096 = s.ibEntry + cb ∨
      s.pbEntry / 4096 * 4096 ≠ (s.pbEntry + cb) / 4096 * 4096 ∧
        (s.pbEntry + cb) / 4096 * 4096 ≠ s.pbEntry + cb ∧
        s.ibEntry ≤ (s.ibEntry + cb) / 4096 * 4096 ∧ (s.ibEntry + cb) % 4096 ≠ 0 := by
    omega
  have hentry_le := h.entry
  have hnext : (lgposOf strm s.ibEntry).qw ≤ (lgposOf strm (s.ibEntry + cb)).qw :=
    lgposOf_le (Nat.le_add_right _ _)
  refine ⟨?_, ?_, ?_⟩
  · rw [hwb, hentry]
    exact hentry_le.trans hnext
  · rw [hwb, hentry]
    exact fun hno => absurd hno hall
  rw [hwb, hentry, hmax]
  intro hlt
  unfold LOG.maxWritePoint LOG_SEGMENT_SIZE
  dsimp only
  rcases hfloor with ⟨hsame, hsegment, hhangs⟩ | ⟨hcross, hboundary, hends⟩ |
    ⟨hcross, hboundary, hover, hhangs⟩
  · -- the record is in the segment of the ones before it
    obtain ⟨hback, hforward, -⟩ := h.forward (hsegment ▸ hlt)
    rw [if_pos hsame, ← hsegment]
    exact ⟨hback, hforward, fun hzero => absurd hzero hhangs⟩
  · -- it ends at the boundary
    rw [if_neg hcross, if_pos hboundary, hlgpos, addLgpos_lgposOf, hends]
    exact ⟨hentry_le.trans hnext, le_rfl, fun _ => le_rfl⟩
  · -- it hangs over
    rw [if_neg hcross, if_neg hboundary, hlgpos]
    exact ⟨hentry_le, lgposOf_le hover, fun hzero => absurd hzero hhangs⟩

/-- A boundary stays one when more is logged. -/
theorem Boundary.append {lgpos : LGPOS} (h : Boundary strm ibStart s lgpos)
    (batch : List (List Byte))
    (hlogged : s'.logged = s.logged ++ [batch]) : Boundary strm ibStart s' lgpos := by
  obtain ⟨n, hn, hqw⟩ := h
  refine ⟨n, ?_, ?_⟩
  · rw [hlogged, List.length_append]
    exact hn.trans (Nat.le_add_right _ _)
  · rwa [hlogged, List.take_append_of_le_length hn]

/-- The entry offset is a boundary. -/
theorem boundary_end (h : ibStart + (batchBytes ibStart s.logged.flatten).length = s.ibEntry) :
    Boundary strm ibStart s (lgposOf strm s.ibEntry) := by
  refine ⟨s.logged.length, le_rfl, ?_⟩
  rw [List.take_length, h]

/-- The record that hangs over is the first of its batch. -/
theorem Boundaries.logRec (hgeometry : s.Geometry) (h : Boundaries strm ibStart s)
    (hend : strm.isecLGFileEnd = strm.cSecLGFile - 1)
    (hfile : s.ibEntry / 4096 < strm.cSecLGFile - 1)
    (hold : ibStart + (batchBytes ibStart s.logged.flatten).length = s.ibEntry) {cb : Nat}
      {batch : List (List Byte)}
    (hnew : ibStart + (batchBytes ibStart s'.logged.flatten).length = s'.ibEntry)
      (hsystem : s'.system = s.system)
    (hentry : s'.ibEntry = s.ibEntry + cb) (hmax : s'.lgposMaxWritePoint = s.maxWritePoint strm cb)
    (hlogged : s'.logged = s.logged ++ [batch]) : Boundaries strm ibStart s' := by
  have hwb : s'.written = s.written := by
    unfold LOG.written
    rw [hsystem]
  obtain ⟨-, -, -, hmod⟩ := hgeometry.pbOf_ibOf hgeometry.entry_lt
  rw [hgeometry.ibOf_entry] at hmod
  have hlgpos := @LOG.Geometry.getLgpos_eq strm s s.pbEntry hgeometry hgeometry.entry_lt (by
    rw [hgeometry.ibOf_entry, hend]
    exact hfile)
  rw [hgeometry.ibOf_entry] at hlgpos
  refine ⟨?_, ?_, ?_⟩
  · rw [hsystem]
    exact h.acked.append batch hlogged
  · rw [hwb]
    exact h.written.append batch hlogged
  rw [hwb, hentry, hmax]
  intro hlt
  unfold LOG.maxWritePoint LOG_SEGMENT_SIZE
  dsimp only
  split_ifs with hsame hboundary
  · refine (h.maxWritePoint ?_).append batch hlogged
    omega
  · rw [hlgpos, addLgpos_lgposOf, ← hentry]
    exact boundary_end hnew
  · rw [hlgpos]
    exact (boundary_end hold).append batch hlogged

/-- A reservation keeps the invariant. -/
theorem Inv.logRec (hend : strm.isecLGFileEnd = strm.cSecLGFile - 1) (h : Inv code strm ibStart s)
    {batch : List (List (List Byte))} (hne : batch ≠ []) (hlrs : ∀ rgdata ∈ batch, LoggedLR rgdata)
    (hsome : s.errLGLogRec strm batch.flatten = some s') : Inv code strm ibStart s' := by
  have hgeometry := h.geometry
  have hvalid := recordsOf_valid hlrs
  have hnonempty : recordsOf batch.flatten ≠ [] := by
    rw [recordsOf_flatten hlrs]
    exact fun hnil => hne (List.map_eq_nil_iff.1 hnil)
  obtain ⟨cb, hcb, hpos, hroom, hfile, rfl⟩ := errLGLogRec_spec hgeometry hnonempty hvalid hsome
  obtain ⟨csec, hwriting⟩ := h.writing
  have hisec : 4096 * s.written.isecWrite ≤ s.ibEntry := by
    have hused := hwriting.used
    have hibEntry : s.ibEntry = 4096 * s.system.wb.isecWrite + s.buffer.cbUsed := rfl
    rw [hwriting.isecWrite]
    omega
  obtain ⟨hgeometry', hentry⟩ := @ibEntry_advance s
    { s with
      pbEntry := s.buffer.advance s.pbEntry cb
      pending := s.pending ++ [⟨s.pbEntry, batch.flatten⟩]
      lgposMaxWritePoint := s.maxWritePoint strm cb
      logged := s.logged ++ [recordsOf batch.flatten] } hgeometry cb hroom rfl rfl rfl
  have hflatten : (s.logged ++ [recordsOf batch.flatten]).flatten = s.logged.flatten ++
    recordsOf batch.flatten := by
    rw [List.flatten_append, List.flatten_singleton]
  have hlogged := batchBytes_append ibStart s.logged.flatten (recordsOf batch.flatten)
  rw [h.entry, ← hflatten] at hlogged
  have hfirst : ∀ lg :
      Mem, lg.HoldsSome ibStart
      (batchBytes ibStart (s.logged ++ [recordsOf batch.flatten]).flatten) →
      lg.HoldsSome ibStart (batchBytes ibStart s.logged.flatten) := fun lg hlg => by
    rw [hlogged] at hlg
    exact (Mem.holdsSome_append.1 hlg).1
  have hnew : ibStart +
    (batchBytes ibStart (s.logged ++ [recordsOf batch.flatten]).flatten).length =
    s.ibEntry + cb := by
    rw [hlogged, List.length_append, ← Nat.add_assoc, h.entry, hcb]
  refine ⟨hgeometry', ⟨csec, ?_⟩, ?_, ?_, ?_, ?_, ?_, ?_, fun lg hlg => h.disk lg (hfirst lg hlg),
    fun lg hlg => ?_⟩
  · refine ⟨hwriting.pbLGBufMin, hwriting.cbLGBuf, hwriting.isecWrite, hwriting.pbWrite, ?_⟩
    have hused := hwriting.used
    unfold LOG.ibEntry at hentry
    dsimp only at hentry
    omega
  · rwa [hentry]
  · rwa [hentry]
  · intro data hmem
    rw [hflatten] at hmem
    rcases List.mem_append.1 hmem with hold | hnew
    · exact h.valid data hold
    · exact hvalid data hnew
  · intro copy hmem
    rcases List.mem_append.1 hmem with hold | hnew
    · obtain ⟨hlt, hle, before, behind, heq, hib⟩ := h.pending copy hold
      refine ⟨hlt, hle, before, behind ++ recordsOf batch.flatten, ?_, hib⟩
      rw [hflatten, heq, List.append_assoc]
    · obtain rfl := List.mem_singleton.1 hnew
      refine ⟨hgeometry.entry_lt, ?_, s.logged.flatten, [], ?_, ?_⟩
      · change _ ≤ s.ibOf s.pbEntry
        rw [hgeometry.ibOf_entry]
        exact hisec
      · rw [hflatten, List.append_nil]
      · change _ = s.ibOf s.pbEntry
        rw [hgeometry.ibOf_entry, h.entry]
  · exact h.bounds.logRec hgeometry hend h.file hisec hpos rfl hentry rfl
  · exact h.boundaries.logRec hgeometry hend h.file h.entry (hnew.trans hentry.symm) rfl hentry
      rfl rfl
  · intro ib hlo hhi hheader hawaited
    refine h.buffered lg (hfirst lg hlg) ib hlo ?_ hheader fun hold => hawaited ?_
    · by_contra hge
      refine hawaited ⟨⟨s.pbEntry, batch.flatten⟩, List.mem_append_right _ List.mem_cons_self, ?_,
        ?_⟩
      · change s.ibOf s.pbEntry ≤ ib
        rw [hgeometry.ibOf_entry]
        exact Nat.le_of_not_lt hge
      · change ib < s.ibOf s.pbEntry + (batchBytes (s.ibOf s.pbEntry) _).length
        rw [hgeometry.ibOf_entry, ← hcb, ← hentry]
        exact hhi
    · obtain ⟨copy, hmem, hrange⟩ := hold
      exact ⟨copy, List.mem_append_left _ hmem, hrange⟩

/-! ## A copy is made -/

section
variable {copy : PendingCopy}

/-- The bytes of the records of a copy are among the ones of the log. -/
theorem Reserved.bytes (h : Reserved ibStart s copy) (hstart : ibStart % 4096 = 0)
    (hentry : ibStart + (batchBytes ibStart s.logged.flatten).length = s.ibEntry) :
    s.ibOf copy.pbLogRec + (batchBytes (s.ibOf copy.pbLogRec) (recordsOf copy.rgdata)).length ≤
      s.ibEntry ∧
      BehindHeaders (s.ibOf copy.pbLogRec)
      (batchBytes (s.ibOf copy.pbLogRec) (recordsOf copy.rgdata)) ∧
      ∀ lg : Mem, lg.HoldsSome ibStart (batchBytes ibStart s.logged.flatten) →
        lg.HoldsSome (s.ibOf copy.pbLogRec)
          (batchBytes (s.ibOf copy.pbLogRec) (recordsOf copy.rgdata)) := by
  obtain ⟨before, behind, hlogged, hib⟩ := h.records
  obtain ⟨-, hboundary⟩ := @behindHeaders_batchBytes ibStart (.inl hstart) before
  have hbytes := batchBytes_append ibStart before (recordsOf copy.rgdata)
  have hall := batchBytes_append ibStart (before ++ recordsOf copy.rgdata) behind
  rw [hib] at hbytes hboundary
  rw [← hlogged, hbytes] at hall
  rw [hall, List.length_append, List.length_append] at hentry
  refine ⟨by omega, (behindHeaders_batchBytes hboundary _).1, fun lg hlg => ?_⟩
  rw [hall, List.append_assoc, Mem.holdsSome_append, hib] at hlg
  exact (Mem.holdsSome_append.1 hlg.2).1

/-- There is room for a copy when it is made, whatever the log writes did in between. -/
theorem Inv.copy_succeeds (hstart : ibStart % 4096 = 0) (h : Inv code strm ibStart s)
    (hmem : copy ∈ s.pending) :
    ∃ pbEnd rgb, s.buffer.flgiAddLogRec false logtime cbLGSizeOfData copy.rgdata s.rgb
      copy.pbLogRec =
      some (pbEnd, rgb) := by
  have hgeometry := h.geometry
  have hreserved := h.pending copy hmem
  obtain ⟨hle, -, -⟩ := hreserved.bytes hstart h.entry
  obtain ⟨-, -, hlo, hmod⟩ := hgeometry.pbOf_ibOf hreserved.pbLogRec_lt
  have hused := hgeometry.cbUsed_lt
  have hwrite := hgeometry.write_lt
  have hsame := batchBytes_congr hmod (recordsOf copy.rgdata)
  have hend :=
    add_length_batchBytes copy.pbLogRec (records cbLGSizeOfData copy.rgdata.length copy.rgdata)
  change copy.pbLogRec + (batchBytes copy.pbLogRec (recordsOf copy.rgdata)).length = _ at hend
  rw [hsame] at hle
  rcases @LOG_WRITE_BUFFER.flgiAddLogRec_spec s.buffer false logtime copy.pbLogRec
      (LOG_WRITE_BUFFER.room_limit hgeometry.whole hgeometry.pbWrite hwrite _) hreserved.pbLogRec_lt
      cbLGSizeOfData
      copy.rgdata s.rgb _ rfl with ⟨-, hover⟩ | ⟨-, rgb, hsome, -⟩
  · exfalso
    rw [← hend] at hover
    have hlt := hreserved.pbLogRec_lt
    have hibEntry : s.ibEntry = 4096 * s.system.wb.isecWrite + s.buffer.cbUsed := rfl
    have hlimit : s.buffer.limit copy.pbLogRec = if s.system.wb.pbWrite ≤ copy.pbLogRec then
        s.system.wb.pbWrite + s.pLogBuffer.cbLGBuf else s.system.wb.pbWrite := rfl
    unfold LOG.ibOf LOG_SEGMENT_SIZE at hle
    rw [hlimit] at hover
    split_ifs at hover hle <;> omega
  · exact ⟨_, rgb, hsome⟩

/-- A copy keeps the invariant. -/
theorem Inv.copied (hstart : ibStart % 4096 = 0) (h : Inv code strm ibStart s) {i pbEnd : Nat}
    {rgb : Mem}
    (hpending : s.pending[i]? = some copy)
    (hcopied : s.buffer.flgiAddLogRec false logtime cbLGSizeOfData copy.rgdata s.rgb copy.pbLogRec =
      some (pbEnd, rgb)) :
    Inv code strm ibStart { s with rgb := rgb, pending := s.pending.eraseIdx i } := by
  have hgeometry := h.geometry
  have hwrite := hgeometry.write_lt
  have hused := hgeometry.cbUsed_lt
  have hreserved := h.pending copy (List.mem_of_getElem? hpending)
  have hlt := hreserved.pbLogRec_lt
  obtain ⟨hle, hheaders, hheld⟩ := hreserved.bytes hstart h.entry
  obtain ⟨hpb, -, hlo, hmod⟩ := hgeometry.pbOf_ibOf hlt
  obtain ⟨hwrote, hkept⟩ := LOG_WRITE_BUFFER.flgiAddLogRec_wrote
    (LOG_WRITE_BUFFER.room_limit hgeometry.whole hgeometry.pbWrite hwrite _) hlt hcopied
  change (s.buffer.view rgb).HoldsSome copy.pbLogRec
    (batchBytes copy.pbLogRec (recordsOf copy.rgdata)) at hwrote
  change s.buffer.Kept false copy.pbLogRec
    (copy.pbLogRec + (batchBytes copy.pbLogRec (recordsOf copy.rgdata)).length) s.rgb rgb at hkept
  rw [← batchBytes_congr hmod] at hwrote hkept
  have hibEntry : s.ibEntry = 4096 * s.system.wb.isecWrite + s.buffer.cbUsed := rfl
  refine ⟨⟨hgeometry.pbLGBufMin, hgeometry.cbLGBuf, hgeometry.whole, hgeometry.pbWrite, hwrite,
    hgeometry.entry_lt⟩, ?_,
    h.entry, h.file, h.valid, fun copy' hmem => ?_,
    ⟨h.bounds.entry, h.bounds.all, h.bounds.forward⟩,
    ⟨h.boundaries.acked, h.boundaries.written, h.boundaries.maxWritePoint⟩, h.disk,
      fun lg hlg ib hge hend hheader hawaited => ?_⟩
  · obtain ⟨csec, hwriting⟩ := h.writing
    exact ⟨csec, hwriting.pbLGBufMin, hwriting.cbLGBuf, hwriting.isecWrite, hwriting.pbWrite,
      hwriting.used⟩
  · obtain ⟨hlt', hle', hrecords⟩ := h.pending copy' (List.mem_of_mem_eraseIdx hmem)
    exact ⟨hlt', hle', hrecords⟩
  · change rgb (s.pbOf ib) = lg ib
    change ib < s.ibEntry at hend
    change 4096 * s.system.wb.isecWrite ≤ ib at hge
    by_cases hin : s.ibOf copy.pbLogRec ≤ ib ∧
        ib < s.ibOf copy.pbLogRec +
        (batchBytes (s.ibOf copy.pbLogRec) (recordsOf copy.rgdata)).length
    · -- a byte of the copy
      obtain ⟨k, rfl⟩ := Nat.exists_eq_add_of_le hin.1
      have hk : k < (batchBytes (s.ibOf copy.pbLogRec) (recordsOf copy.rgdata)).length := by omega
      have hget := List.getElem?_eq_getElem hk
      obtain ⟨b, hb⟩ := Option.isSome_iff_exists.1 ((hheaders k _ hget).2 hheader)
      rw [hb] at hget
      have hview := hwrote k b hget
      rw [hheld lg hlg k b hget, ← hview, hgeometry.pbOf_add hlo (by omega), hpb]
      unfold LOG_WRITE_BUFFER.view LOG_WRITE_BUFFER.advance
      split_ifs <;> first | rfl | omega
    · -- the copy does not touch the others
      have hother : ¬ Awaited s ib := by
        rintro ⟨copy', hmem, hrange⟩
        obtain ⟨j, hj⟩ := List.getElem?_of_mem hmem
        by_cases hij : j = i
        · rw [hij, hpending] at hj
          rw [← Option.some.inj hj] at hrange
          exact hin hrange
        · exact hawaited ⟨copy', List.mem_eraseIdx_iff_getElem?.2 ⟨j, hij, hj⟩, hrange⟩
      rw [← h.buffered lg hlg ib hge hend hheader hother]
      refine hkept _ (.inr fun hbetween => ?_)
      unfold LOG_WRITE_BUFFER.Between at hbetween
      have hcbLGBuf : s.buffer.pLogBuffer.cbLGBuf = s.pLogBuffer.cbLGBuf := rfl
      rw [hcbLGBuf] at hbetween
      unfold LOG.pbOf LOG.ibOf LOG_WRITE_BUFFER.advance LOG_SEGMENT_SIZE at *
      rw [hcbLGBuf] at hbetween
      split_ifs at hbetween hin hle <;> omega

end

/-! ## A write begins -/

/-- The checksums are in the headers of the segments. -/
theorem checksumSegments_apply {wb : Log.LOG_WRITE_BUFFER} {csec a : Nat} (hmin : wb.pbLGBufMin = 0)
    (hwhole : wb.cbLGBuf % 4096 = 0) (hpb : wb.pbWrite % 4096 = 0)
    (hfile : wb.isecWrite + csec < 2 ^ 16)
    (ha : 40 ≤ a % 4096) : Log.checksumSegments code strm wb csec wb.isecWrite wb.pbWrite a =
      wb.rgbLGBuf a := by
  unfold Log.checksumSegments
  induction csec with
  | zero => rfl
  | succ csec ih =>
    rw [List.range_succ, List.foldl_append, List.foldl_cons, List.foldl_nil]
    rw [← ih (by omega)]
    generalize (List.range csec).foldl _ wb.rgbLGBuf = rgb
    generalize hpv : (if wb.pbWrite + LOG_SEGMENT_SIZE * csec ≥ wb.pbLGBufMax then
      wb.pbWrite + LOG_SEGMENT_SIZE * csec - wb.cbLGBuf else wb.pbWrite + LOG_SEGMENT_SIZE * csec) =
        pvSegHdr
    have hmod : pvSegHdr % 4096 = 0 := by
      rw [← hpv]
      unfold Log.LOG_WRITE_BUFFER.pbLGBufMax LOG_SEGMENT_SIZE
      split_ifs <;> omega
    unfold Log.putSegment LOG_SEGMENT_SIZE
    split_ifs with hin
    · have hgen := strm.lGeneration_lt
      have hspec : Log.SealedFor (wb.isecWrite + csec)
          (Log.sealSegment code strm.lGeneration (wb.isecWrite + csec)
            (Log.segmentAt rgb pvSegHdr)) ∧ _ ∧ _ :=
        Log.sealSegment_spec (show strm.lGeneration < 2 ^ 31 by omega) (by omega)
      obtain ⟨-, -, hsame⟩ := hspec
      have hoff : a - pvSegHdr = a % 4096 := by omega
      rw [hsame _ (show cbLGSEGHDR ≤ a - pvSegHdr by rw [hoff]; exact ha), Log.segmentAt,
        Nat.add_sub_of_le hin.1]
    · rfl

/-- What a write of full segments leaves. -/
theorem errLGIWriteFullSectors_spec {wb : Log.LOG_WRITE_BUFFER} {csec : Nat} {lgpos : LGPOS}
    (hmin : wb.pbLGBufMin = 0)
    (hwhole : wb.cbLGBuf % 4096 = 0) (hpb : wb.pbWrite % 4096 = 0) (hlt : wb.pbWrite < wb.cbLGBuf)
    (hpos : 0 < csec)
    (hused : 4096 * csec ≤ wb.cbLGBuf) :
    ∃ isecWrite pbWrite, isecWrite = wb.isecWrite + csec ∧
      pbWrite = (if wb.pbWrite + 4096 * csec ≥ wb.cbLGBuf then wb.pbWrite + 4096 * csec - wb.cbLGBuf
        else wb.pbWrite + 4096 * csec) ∧
      (Log.errLGIWriteFullSectors code strm wb csec wb.isecWrite wb.pbWrite lgpos).1 ≠ [] ∧
      (Log.errLGIWriteFullSectors code strm wb csec wb.isecWrite wb.pbWrite lgpos).2 = { wb with
        rgbLGBuf := Log.checksumSegments code strm wb csec wb.isecWrite wb.pbWrite
        fHaveShadow := false
        lgposToWrite := lgpos
        isecWrite := isecWrite
        pbWrite := pbWrite } := by
  have hmax : wb.pbLGBufMax = wb.cbLGBuf := by
    rw [Log.LOG_WRITE_BUFFER.pbLGBufMax, hmin, Nat.zero_add]
  unfold Log.errLGIWriteFullSectors Log.pbAfter LOG_SEGMENT_SIZE
  dsimp only
  rw [hmax, hmin]
  cases wb.fHaveShadow with
  | false =>
    simp only [Bool.false_eq_true, if_false]
    exact ⟨_, _, rfl, rfl, List.cons_ne_nil _ _, rfl⟩
  | true =>
    simp only [if_true]
    by_cases hone : 0 = csec - 1
    · simp only [if_pos hone]
      refine ⟨_, _, ?_, ?_, List.cons_ne_nil _ _, rfl⟩
      · omega
      · split_ifs <;> omega
    · simp only [if_neg hone]
      refine ⟨_, _, ?_, ?_, List.cons_ne_nil _ _, rfl⟩
      · omega
      · split_ifs <;> omega

/-- The buffer holds the log up to the records' end when there are no copies under way. -/
theorem Inv.holdsLog (h : Inv code strm ibStart s) (hcopied : s.pending = [])
    (hlg : lg.HoldsSome ibStart (batchBytes ibStart s.logged.flatten)) {cb : Nat}
      (hcb : cb ≤ s.buffer.cbUsed) :
    HoldsLog s.wb (segments lg) cb := by
  intro i ib hib hheader hlt
  have hgeometry := h.geometry
  have hpbMod := hgeometry.pbWrite
  have hwhole := hgeometry.whole
  have hibEntry : s.ibEntry = 4096 * s.system.wb.isecWrite + s.buffer.cbUsed := rfl
  unfold LOG_SEGMENT_SIZE at hlt hib
  unfold cbLGSEGHDR at hheader
  have hbyte := h.buffered lg hlg (4096 * (s.system.wb.isecWrite + i) + ib) (by omega) (by omega)
    (by omega)
    (fun ⟨copy, hmem, _⟩ => by
      rw [hcopied] at hmem
      exact absurd hmem List.not_mem_nil)
  change s.rgb (Log.pbAfter s.wb i s.wb.pbWrite + ib) = lg (4096 * (s.system.wb.isecWrite + i) + ib)
  rw [← hbyte]
  congr 1
  have hmin : s.wb.pbLGBufMin = 0 := hgeometry.pbLGBufMin
  have hcbLGBuf : s.wb.cbLGBuf = s.pLogBuffer.cbLGBuf := hgeometry.cbLGBuf
  have hpbWrite : s.wb.pbWrite = s.system.wb.pbWrite := rfl
  have hbuffer : s.buffer.pLogBuffer.cbLGBuf = s.pLogBuffer.cbLGBuf := rfl
  have hsub : 4096 * (s.system.wb.isecWrite + i) + ib - 4096 * s.system.wb.isecWrite =
    4096 * i + ib := by omega
  unfold Log.pbAfter LOG.pbOf LOG_WRITE_BUFFER.advance Log.LOG_WRITE_BUFFER.pbLGBufMax
    LOG_SEGMENT_SIZE
  dsimp only
  rw [hmin, hcbLGBuf, hpbWrite, hbuffer, hsub]
  split_ifs <;> omega

/-- A write begins with I/Os from which the file is kept, of segments that the buffer has and goes
on to have. -/
theorem Inv.begin {csec : Nat} {rgwrite : List SectorWrite} {done : Log.LOG_WRITE_BUFFER}
    (h : Inv code strm ibStart s)
    (copied : s.pending = []) (hpending : rgwrite ≠ []) (hmin : done.pbLGBufMin = 0)
    (hcbLGBuf : done.cbLGBuf = s.pLogBuffer.cbLGBuf)
      (hisecWrite : done.isecWrite = s.system.wb.isecWrite + csec)
    (hpbWrite : done.pbWrite = s.buffer.advance s.system.wb.pbWrite (4096 * csec))
      (hused : 4096 * csec ≤ s.buffer.cbUsed)
    (hentry : done.lgposToWrite.qw ≤ (lgposOf strm s.ibEntry).qw)
    (hall : 4096 * done.isecWrite = s.ibEntry → (lgposOf strm s.ibEntry).qw ≤ done.lgposToWrite.qw)
    (hfull : s.ibEntry / 4096 ≤ done.isecWrite)
      (hboundary : Boundary strm ibStart s done.lgposToWrite)
    (hdisk : ∀ lg : Mem, lg.HoldsSome ibStart (batchBytes ibStart s.logged.flatten) →
      Log.Inv code strm (segments lg) ⟨s.system.disk, s.wb, rgwrite, done⟩)
    (hrgb : ∀ a, 40 ≤ a % 4096 → done.rgbLGBuf a = s.rgb a) :
    Inv code strm ibStart
      { s with rgb := done.rgbLGBuf, system := { s.system with wb := s.wb, pending := rgwrite,
                                                               done := done } } := by
  have hgeometry := h.geometry
  generalize hs' : ({ s with
    rgb := done.rgbLGBuf, system :=
      { s.system with wb := s.wb, pending := rgwrite, done := done } } : LOG) = s'
  have hwritten : s'.written = done := by
    subst hs'
    exact if_neg hpending
  have hend : s'.ibEntry = s.ibEntry := by
    subst hs'
    rfl
  refine ⟨?_, ⟨csec, ?_⟩, ?_, ?_, ?_, ?_, ?_, ?_, ?_, ?_⟩
  · subst hs'
    exact ⟨hgeometry.pbLGBufMin, hgeometry.cbLGBuf, hgeometry.whole, hgeometry.pbWrite,
      hgeometry.write_lt,
      hgeometry.entry_lt⟩
  · subst hs'
    refine ⟨?_, ?_, ?_, ?_, hused⟩ <;> rw [hwritten]
    · exact hmin
    · exact hcbLGBuf
    · exact hisecWrite
    · exact hpbWrite
  · subst hs'
    exact h.entry
  · subst hs'
    exact h.file
  · subst hs'
    exact h.valid
  · subst hs'
    intro copy hmem
    change copy ∈ s.pending at hmem
    rw [copied] at hmem
    exact absurd hmem List.not_mem_nil
  · refine ⟨?_, ?_, ?_⟩ <;> rw [hwritten, hend]
    · exact hentry
    · exact hall
    · exact fun hlt => absurd hlt (Nat.not_lt.2 hfull)
  · refine ⟨?_, ?_, ?_⟩
    · subst hs'
      exact h.boundaries.acked
    · rw [hwritten]
      subst hs'
      exact hboundary
    · rw [hwritten, hend]
      exact fun hlt => absurd hlt (Nat.not_lt.2 hfull)
  · subst hs'
    exact hdisk
  · subst hs'
    intro lg hlg ib hge hlt hheader hawaited
    change 4096 * s.system.wb.isecWrite ≤ ib at hge
    change done.rgbLGBuf (s.pbOf ib) = lg ib
    have hmod : s.pbOf ib % 4096 = ib % 4096 := by
      have hwhole := hgeometry.whole
      have hpb := hgeometry.pbWrite
      unfold LOG.pbOf LOG_WRITE_BUFFER.advance LOG.buffer LOG_SEGMENT_SIZE
      dsimp only
      split_ifs <;> omega
    rw [hrgb _ (by rw [hmod]; exact hheader)]
    exact h.buffered lg hlg ib hge hlt hheader hawaited

/-- A write of the full segments. -/
theorem Inv.writeFull (h : Inv code strm ibStart s)
    (hend : strm.isecLGFileEnd = strm.cSecLGFile - 1)
    (idle : s.system.pending = []) (copied : s.pending = []) (hfull : s.csecFull ≠ 0) :
    Inv code strm ibStart { s with
      rgb := (s.errLGIWriteLog strm code).2.rgbLGBuf
      system := { s.system with
        wb := s.wb
        pending := (s.errLGIWriteLog strm code).1
        done := (s.errLGIWriteLog strm code).2 } } := by
  have hgeometry := h.geometry
  have hused := hgeometry.cbUsed_lt
  have hcsec := hgeometry.csecFull_eq
  have hfile := h.file
  have hlimit := strm.cSecLGFile_le
  have hcbLGBuf : s.wb.cbLGBuf = s.pLogBuffer.cbLGBuf := hgeometry.cbLGBuf
  have hwhole : s.wb.cbLGBuf % 4096 = 0 := hcbLGBuf ▸ hgeometry.whole
  have hibEntry : s.ibEntry = 4096 * s.wb.isecWrite + s.buffer.cbUsed := rfl
  have hwritten : s.written = s.system.wb := if_pos idle
  have hwrite : s.errLGIWriteLog strm code = Log.errLGIWriteFullSectors code strm s.wb s.csecFull
      s.wb.isecWrite
      s.wb.pbWrite s.lgposMaxWritePoint := if_neg hfull
  rw [hwrite]
  rw [hcsec] at hfull ⊢
  generalize hn : s.buffer.cbUsed / 4096 = csec at hfull ⊢
  have hpos : 0 < csec := Nat.pos_of_ne_zero hfull
  have hfit : 4096 * csec ≤ s.buffer.cbUsed := by omega
  have hsegment : s.ibEntry / 4096 = s.wb.isecWrite + csec := by omega
  obtain ⟨hback, hforward, hall⟩ := h.bounds.forward (by
    rw [hwritten, hsegment]
    exact Nat.lt_add_of_pos_right hpos)
  rw [hwritten] at hback
  obtain ⟨isecWrite, pbWrite, hisecWrite, hpbWrite, hpending, hdone⟩ :=
    @errLGIWriteFullSectors_spec code strm s.wb csec s.lgposMaxWritePoint hgeometry.pbLGBufMin
      hwhole hgeometry.pbWrite
      (hcbLGBuf ▸ hgeometry.write_lt) hpos (by omega)
  have hstep := fun (lg : Mem) (hlg : lg.HoldsSome ibStart (batchBytes ibStart s.logged.flatten)) =>
    (h.disk lg hlg).step (.writeFull idle hpos (show s.wb.isecWrite + csec ≤ _ by omega)
      (show LOG_SEGMENT_SIZE * csec ≤ s.wb.cbLGBuf by unfold LOG_SEGMENT_SIZE; omega)
      (h.holdsLog copied hlg hfit)
      (Int.not_lt.1 fun hlt => absurd (cmpLgpos_pos_iff.1 hlt) (Nat.not_lt.2 hback))
      (Int.not_lt.1 fun hlt => absurd (cmpLgpos_pos_iff.1 hlt) (Nat.not_lt.2 (by
        have hstart : Log.getLgpos strm (s.wb.isecWrite + csec) = lgposOf strm
          (s.ibEntry / 4096 * 4096) := by
          have hisec : s.ibEntry / 4096 * 4096 / 4096 = s.wb.isecWrite + csec := by omega
          have hib : s.ibEntry / 4096 * 4096 % 4096 = 0 := by omega
          unfold Log.getLgpos lgposOf LOG_SEGMENT_SIZE
          rw [if_neg (by omega), hisec, hib]
        change _ ≤ (Log.getLgpos strm (s.wb.isecWrite + csec)).qw
        rw [hstart]
        exact hforward))))
  have hfloor : (lgposOf strm (s.ibEntry / 4096 * 4096)).qw ≤ (lgposOf strm s.ibEntry).qw :=
    lgposOf_le (by omega)
  have hboundary := h.boundaries.maxWritePoint (by
    rw [hwritten, hsegment]
    exact Nat.lt_add_of_pos_right hpos)
  refine @Inv.begin code strm ibStart s csec _ _ h copied hpending ?_ ?_ ?_ ?_ hfit ?_ ?_ ?_ ?_
    hstep ?_ <;> rw [hdone]
  · exact hgeometry.pbLGBufMin
  · exact hcbLGBuf
  · exact hisecWrite
  · dsimp only
    rw [hpbWrite, hcbLGBuf]
    rfl
  · exact hforward.trans hfloor
  · intro hwhole
    exact hall (by dsimp only at hwhole; omega)
  · dsimp only
    omega
  · exact hboundary
  · exact fun a ha => checksumSegments_apply hgeometry.pbLGBufMin hwhole hgeometry.pbWrite
      (by omega) ha

/-- A write of the partial segment. -/
theorem Inv.writePartial (h : Inv code strm ibStart s)
    (hend : strm.isecLGFileEnd = strm.cSecLGFile - 1)
    (idle : s.system.pending = []) (copied : s.pending = [])
    (data : cmpLgpos (s.getLgpos strm s.pbEntry) s.system.wb.lgposToWrite > 0)
      (hfull : s.csecFull = 0) :
    Inv code strm ibStart { s with
      rgb := (s.errLGIWriteLog strm code).2.rgbLGBuf
      system := { s.system with
        wb := s.wb
        pending := (s.errLGIWriteLog strm code).1
        done := (s.errLGIWriteLog strm code).2 } } := by
  have hgeometry := h.geometry
  have hcsec := hgeometry.csecFull_eq
  have hfile := h.file
  have hwrite_lt : s.wb.pbWrite < s.pLogBuffer.cbLGBuf := hgeometry.write_lt
  have hwhole := hgeometry.whole
  have hpb : s.wb.pbWrite % 4096 = 0 := hgeometry.pbWrite
  have hused : s.buffer.cbUsed =
    if s.pbEntry < s.wb.pbWrite then s.pbEntry + s.pLogBuffer.cbLGBuf - s.wb.pbWrite
    else s.pbEntry - s.wb.pbWrite := hgeometry.cbUsed_eq
  have hibEntry : s.ibEntry = 4096 * s.wb.isecWrite + s.buffer.cbUsed := rfl
  have hwritten : s.written = s.system.wb := if_pos idle
  have hlgpos := @LOG.Geometry.getLgpos_eq strm s s.pbEntry hgeometry hgeometry.entry_lt (by
    rw [hgeometry.ibOf_entry, hend]
    exact hfile)
  rw [hgeometry.ibOf_entry] at hlgpos
  rw [hlgpos] at data
  have hmore := cmpLgpos_pos_iff.1 data
  have hpartly : s.buffer.cbUsed < 4096 := by omega
  have hpos : 0 < s.buffer.cbUsed := by
    refine Nat.pos_of_ne_zero fun hzero => absurd (h.bounds.all ?_) ?_
    · rw [hwritten, hibEntry, hzero]
      rfl
    · rw [hwritten]
      exact Nat.not_le.2 hmore
  have hentry : s.pbEntry = s.wb.pbWrite + s.buffer.cbUsed := by
    split_ifs at hused <;> omega
  have hcut : lgposOf strm s.ibEntry = ⟨s.buffer.cbUsed, s.wb.isecWrite, strm.lGeneration⟩ := by
    have hisec : s.ibEntry / 4096 = s.wb.isecWrite := by omega
    have hib : s.ibEntry % 4096 = s.buffer.cbUsed := by omega
    unfold lgposOf LOG_SEGMENT_SIZE
    rw [hisec, hib]
  have hwrite : s.errLGIWriteLog strm code = Log.errLGIWritePartialSector code strm s.wb
      (s.wb.pbWrite + s.buffer.cbUsed)
      s.wb.isecWrite s.wb.pbWrite ⟨s.buffer.cbUsed, s.wb.isecWrite, strm.lGeneration⟩ := by
    rw [LOG.errLGIWriteLog, if_pos hfull, hlgpos, hcut, ← hentry]
  rw [hcut] at hmore
  rw [hwrite]
  refine @Inv.begin code strm ibStart s 0 _ _ h copied ?_ hgeometry.pbLGBufMin hgeometry.cbLGBuf
    rfl ?_ (Nat.zero_le _) ?_ ?_ ?_
    (hcut ▸ boundary_end h.entry)
      (fun lg hlg => (h.disk lg hlg).step
      (.writePartial idle hpos hpartly (show s.wb.isecWrite < _ by omega)
      (h.holdsLog copied hlg le_rfl)
      (Int.not_lt.1 fun hlt => absurd (cmpLgpos_pos_iff.1 hlt) (Nat.not_lt.2 hmore.le)))) fun _ _ =>
        rfl
  · unfold Log.errLGIWritePartialSector
    dsimp only
    split_ifs
    · exact List.cons_ne_nil _ _
    · exact List.cons_ne_nil _ _
  · change s.wb.pbWrite = if s.wb.pbWrite + 0 ≥ s.pLogBuffer.cbLGBuf then
      s.wb.pbWrite + 0 - s.pLogBuffer.cbLGBuf else s.wb.pbWrite + 0
    rw [Nat.add_zero, if_neg (Nat.not_le.2 hwrite_lt)]
  · rw [hcut]
    exact le_rfl
  · rw [hcut]
    exact fun _ => le_rfl
  · change s.ibEntry / 4096 ≤ s.wb.isecWrite
    omega

/-! ## Its I/Os complete -/

/-- The buffer goes on from the segments that were written. -/
theorem Writing.geometry {csec : Nat} (h : Writing s csec) (hgeometry : s.Geometry)
    (hsystem : s'.system.wb = s.written)
    (hbuffer : s'.pLogBuffer = s.pLogBuffer) (hentry : s'.pbEntry = s.pbEntry) :
    s'.Geometry ∧ s'.ibEntry = s.ibEntry ∧
      (∀ ib, 4096 * s.written.isecWrite ≤ ib → ib < s.ibEntry → s'.pbOf ib = s.pbOf ib) ∧
      ∀ pb < s.pLogBuffer.cbLGBuf, 4096 * s.written.isecWrite ≤ s.ibOf pb →
        s'.ibOf pb = s.ibOf pb := by
  have hwrite := hgeometry.write_lt
  have hentry_lt := hgeometry.entry_lt
  have hwhole := hgeometry.whole
  have hpb := hgeometry.pbWrite
  have hused := hgeometry.cbUsed_eq
  have hused_lt := hgeometry.cbUsed_lt
  have hcsec := h.used
  have hisecWrite := h.isecWrite
  have hibEntry : s.ibEntry = 4096 * s.system.wb.isecWrite + s.buffer.cbUsed := rfl
  have hpbWrite : s.written.pbWrite = if s.system.wb.pbWrite + 4096 * csec ≥ s.pLogBuffer.cbLGBuf
    then
      s.system.wb.pbWrite + 4096 * csec - s.pLogBuffer.cbLGBuf
        else s.system.wb.pbWrite + 4096 * csec := h.pbWrite
  have hgeometry' : s'.Geometry := by
    refine ⟨?_, ?_, ?_, ?_, ?_, ?_⟩
    · rw [hsystem]
      exact h.pbLGBufMin
    · rw [hsystem, hbuffer]
      exact h.cbLGBuf
    · rw [hbuffer]
      exact hwhole
    · rw [hsystem, hpbWrite]
      split_ifs <;> omega
    · rw [hsystem, hbuffer, hpbWrite]
      split_ifs <;> omega
    · rw [hbuffer, hentry]
      exact hentry_lt
  have hused' := hgeometry'.cbUsed_eq
  rw [hsystem, hbuffer, hentry] at hused'
  refine ⟨hgeometry', ?_, fun ib hlo hhi => ?_, fun pb hlt hlo => ?_⟩
  · rw [hibEntry, LOG.ibEntry, hsystem, hused', hisecWrite, hpbWrite, hused]
    rw [hused] at hcsec hused_lt
    unfold LOG_SEGMENT_SIZE
    split_ifs at hcsec hused_lt ⊢ <;> omega
  · have hcb : s'.buffer.pLogBuffer.cbLGBuf = s.pLogBuffer.cbLGBuf := by
      rw [← hbuffer]
      rfl
    have hcb' : s.buffer.pLogBuffer.cbLGBuf = s.pLogBuffer.cbLGBuf := rfl
    unfold LOG.pbOf LOG_WRITE_BUFFER.advance LOG_SEGMENT_SIZE
    rw [hcb, hcb', hsystem, hpbWrite, hisecWrite]
    rw [hisecWrite] at hlo
    split_ifs <;> omega
  · unfold LOG.ibOf LOG_SEGMENT_SIZE at hlo ⊢
    rw [hsystem, hbuffer, hisecWrite, hpbWrite]
    rw [hisecWrite] at hlo
    split_ifs at hlo ⊢ <;> omega

/-- What the completion of an I/O leaves: everything but the file and the state of the write. -/
structure Completed (s s' : LOG) : Prop where
  pLogBuffer : s'.pLogBuffer = s.pLogBuffer
  pbEntry : s'.pbEntry = s.pbEntry
  rgb : s'.rgb = s.rgb
  pending : s'.pending = s.pending
  lgposMaxWritePoint : s'.lgposMaxWritePoint = s.lgposMaxWritePoint
  logged : s'.logged = s.logged
  written : s'.written = s.written

/-- A completed write keeps the offsets in order. -/
theorem Bounds.completed (h : Bounds strm s) (hsame : Completed s s')
    (hentry : s'.ibEntry = s.ibEntry) :
    Bounds strm s' := by
  refine ⟨?_, ?_, ?_⟩
  · rw [hsame.written, hentry]
    exact h.entry
  · rw [hsame.written, hentry]
    exact h.all
  · rw [hsame.written, hentry, hsame.lgposMaxWritePoint]
    exact h.forward

/-- A boundary stays one when a write completes. -/
theorem Boundary.completed {lgpos : LGPOS} (h : Boundary strm ibStart s lgpos)
    (hsame : Completed s s') :
    Boundary strm ibStart s' lgpos := by
  obtain ⟨n, hn, hqw⟩ := h
  exact ⟨n, hsame.logged ▸ hn, hsame.logged ▸ hqw⟩

/-- The positions stay boundaries when a write completes. -/
theorem Boundaries.completed (h : Boundaries strm ibStart s) (hsame : Completed s s')
    (hentry : s'.ibEntry = s.ibEntry) (hacked : Boundary strm ibStart s s'.system.wb.lgposToWrite) :
    Boundaries strm ibStart s' := by
  refine ⟨hacked.completed hsame, ?_, ?_⟩
  · rw [hsame.written]
    exact h.written.completed hsame
  · rw [hsame.written, hentry, hsame.lgposMaxWritePoint]
    exact fun hlt => (h.maxWritePoint hlt).completed hsame

/-- Nothing is being written when the last I/O is complete. -/
theorem Writing.completed {csec : Nat} (h : Writing s csec) (hsame : Completed s s')
    (hwb : s'.system.wb = s.written) (hwrite : s.written.pbWrite < s.pLogBuffer.cbLGBuf) :
      Writing s' 0 := by
  refine ⟨?_, ?_, ?_, ?_, Nat.zero_le _⟩
  · rw [hsame.written]
    exact h.pbLGBufMin
  · rw [hsame.written, hsame.pLogBuffer]
    exact h.cbLGBuf
  · rw [hsame.written, hwb]
    rfl
  · rw [hsame.written, hwb]
    change s.written.pbWrite = if s.written.pbWrite + 0 ≥ s'.pLogBuffer.cbLGBuf then
      s.written.pbWrite + 0 - s'.pLogBuffer.cbLGBuf else s.written.pbWrite + 0
    rw [hsame.pLogBuffer, Nat.add_zero, if_neg (Nat.not_le.2 hwrite)]

/-- The write is done. -/
theorem Inv.completeLast (h : Inv code strm ibStart s) (hsame : Completed s s')
    (hwb : s'.system.wb = s.written)
    (hdisk : ∀ lg : Mem, lg.HoldsSome ibStart (batchBytes ibStart s.logged.flatten) →
      Log.Inv code strm (segments lg) s'.system) : Inv code strm ibStart s' := by
  obtain ⟨csec, hwriting⟩ := h.writing
  obtain ⟨hgeometry', hentry, hpbOf, hibOf⟩ :=
    hwriting.geometry h.geometry hwb hsame.pLogBuffer hsame.pbEntry
  have hwrite : s.written.pbWrite < s.pLogBuffer.cbLGBuf := by
    rw [← hwb, ← hsame.pLogBuffer]
    exact hgeometry'.write_lt
  have hisec : s.system.wb.isecWrite ≤ s.written.isecWrite := by
    rw [hwriting.isecWrite]
    exact Nat.le_add_right _ _
  refine ⟨hgeometry', ⟨0, hwriting.completed hsame hwb hwrite⟩, ?_, ?_, ?_, fun copy hmem => ?_,
    h.bounds.completed hsame hentry,
    h.boundaries.completed hsame hentry (by rw [hwb]; exact h.boundaries.written), ?_,
    fun lg hlg ib hge hlt hheader hawaited => ?_⟩
  · rw [hsame.logged, hentry]
    exact h.entry
  · rw [hentry]
    exact h.file
  · rw [hsame.logged]
    exact h.valid
  · rw [hsame.pending] at hmem
    obtain ⟨hlt, hle, hrecords⟩ := h.pending copy hmem
    refine ⟨?_, ?_, ?_⟩
    · rw [hsame.pLogBuffer]
      exact hlt
    · rw [hsame.written, hibOf _ hlt hle]
      exact hle
    · rw [hsame.logged, hibOf _ hlt hle]
      exact hrecords
  · rw [hsame.logged]
    exact hdisk
  · -- a position that a copy is to fill is behind what was written
    rw [hsame.logged] at hlg
    rw [hwb] at hge
    rw [hentry] at hlt
    rw [hsame.rgb, hpbOf ib hge hlt]
    refine h.buffered lg hlg ib (by omega) hlt hheader fun ⟨copy, hmem, hlo, hhi⟩ =>
      hawaited ⟨copy, ?_, ?_⟩
    · rw [hsame.pending]
      exact hmem
    · obtain ⟨hlt', hle, -⟩ := h.pending copy hmem
      rw [hibOf _ hlt' hle]
      exact ⟨hlo, hhi⟩

/-- Another I/O of the write is next. -/
theorem Inv.completeNext (h : Inv code strm ibStart s) {disk : Nat → Mem} {rest : List SectorWrite}
    (hsame : Completed s { s with system := { s.system with disk, pending := rest } })
    (hdisk : ∀ lg : Mem, lg.HoldsSome ibStart (batchBytes ibStart s.logged.flatten) →
      Log.Inv code strm (segments lg) { s.system with disk, pending := rest }) :
    Inv code strm ibStart { s with system := { s.system with disk, pending := rest } } := by
  have hgeometry := h.geometry
  obtain ⟨csec, hwriting⟩ := h.writing
  have hwritten := hsame.written
  refine ⟨⟨hgeometry.pbLGBufMin, hgeometry.cbLGBuf, hgeometry.whole, hgeometry.pbWrite,
      hgeometry.write_lt,
      hgeometry.entry_lt⟩, ⟨csec, ?_, ?_, ?_, ?_, hwriting.used⟩, h.entry, h.file, h.valid,
      fun copy hmem => ?_,
    h.bounds.completed hsame rfl, h.boundaries.completed hsame rfl h.boundaries.acked, hdisk,
      h.buffered⟩
  · rw [hwritten]
    exact hwriting.pbLGBufMin
  · rw [hwritten]
    exact hwriting.cbLGBuf
  · rw [hwritten]
    exact hwriting.isecWrite
  · rw [hwritten]
    exact hwriting.pbWrite
  · obtain ⟨hlt, hle, hrecords⟩ := h.pending copy hmem
    refine ⟨hlt, ?_, hrecords⟩
    rw [hwritten]
    exact hle

/-- A completed write keeps the invariant. -/
theorem Inv.complete (h : Inv code strm ibStart s) {write : SectorWrite} {rest : List SectorWrite}
    (next : s.system.pending = write :: rest) :
    Inv code strm ibStart { s with system :=
      { s.system with
        disk := write.apply s.system.disk
        wb := if rest = [] then s.system.done else s.system.wb
        pending := rest } } := by
  have hdone : s.written = s.system.done := by
    unfold LOG.written
    rw [if_neg (by rw [next]; exact List.cons_ne_nil _ _)]
  have hdisk : ∀ lg : Mem, lg.HoldsSome ibStart (batchBytes ibStart s.logged.flatten) →
      Log.Inv code strm (segments lg) { s.system with
        disk := write.apply s.system.disk
        wb := if rest = [] then s.system.done else s.system.wb
        pending := rest } :=
    fun lg hlg => (h.disk lg hlg).step (.complete next)
  have hsame : Completed s { s with system :=
      { s.system with
        disk := write.apply s.system.disk
        wb := if rest = [] then s.system.done else s.system.wb
        pending := rest } } := by
    refine ⟨rfl, rfl, rfl, rfl, rfl, rfl, ?_⟩
    rw [hdone]
    unfold LOG.written
    dsimp only
    split_ifs <;> rfl
  by_cases hlast : rest = []
  · exact h.completeLast hsame (by rw [hdone]; exact if_pos hlast) hdisk
  · simp only [if_neg hlast] at hsame hdisk ⊢
    exact h.completeNext hsame hdisk

/-! ## Runs -/

/-- The file begins its records behind its header. -/
def ibFirst (strm : LOG_STREAM) : Nat := LOG_SEGMENT_SIZE * strm.cSecHeader

/-- The invariant holds at the start. -/
theorem Start.inv (h : Start strm s) : Inv code strm (ibFirst strm) s := by
  have hgeometry : s.Geometry :=
    ⟨h.pbLGBufMin, h.cbLGBuf, h.whole, h.pbWrite, h.write_lt, h.empty ▸ h.write_lt⟩
  have hused : s.buffer.cbUsed = 0 := by
    rw [hgeometry.cbUsed_eq, h.empty, if_neg (Nat.lt_irrefl _), Nat.sub_self]
  have hentry : s.ibEntry = 4096 * strm.cSecHeader := by
    rw [LOG.ibEntry, hused, h.isecWrite]
    rfl
  have hwritten : s.written = s.system.wb := if_pos h.idle
  have hlgpos : lgposOf strm s.ibEntry = s.system.wb.lgposToWrite := by
    have hisec : 4096 * strm.cSecHeader / 4096 = strm.cSecHeader := by omega
    have hib : 4096 * strm.cSecHeader % 4096 = 0 := by omega
    rw [h.lgposToWrite, hentry]
    unfold lgposOf LOG_SEGMENT_SIZE
    rw [hisec, hib]
  have hfirst : ibFirst strm + (batchBytes (ibFirst strm) s.logged.flatten).length = s.ibEntry := by
    rw [h.logged, hentry]
    rfl
  refine ⟨hgeometry, ⟨0, ?_, ?_, ?_, ?_, Nat.zero_le _⟩, hfirst, ?_, ?_, fun copy hmem => ?_,
    ⟨?_, ?_, ?_⟩, ⟨?_, ?_, ?_⟩, fun lg _ => ?_,
    fun lg _ ib hge hlt => ?_⟩
  · rw [hwritten]
    exact h.pbLGBufMin
  · rw [hwritten]
    exact h.cbLGBuf
  · rw [hwritten]
    rfl
  · rw [hwritten]
    change s.system.wb.pbWrite = if s.system.wb.pbWrite + 0 ≥ s.pLogBuffer.cbLGBuf then
      s.system.wb.pbWrite + 0 - s.pLogBuffer.cbLGBuf else s.system.wb.pbWrite + 0
    rw [Nat.add_zero, if_neg (Nat.not_le.2 h.write_lt)]
  · rw [hentry]
    have hroom := h.room
    omega
  · rw [h.logged]
    exact fun data hmem => absurd hmem List.not_mem_nil
  · rw [h.pending] at hmem
    exact absurd hmem List.not_mem_nil
  · rw [hwritten, hlgpos]
  · rw [hwritten, hlgpos]
    exact fun _ => le_rfl
  · rw [hwritten, hentry, h.isecWrite]
    intro hlt
    omega
  · rw [← hlgpos]
    exact boundary_end hfirst
  · rw [hwritten, ← hlgpos]
    exact boundary_end hfirst
  · rw [hwritten, hentry, h.isecWrite]
    intro hlt
    omega
  · have hroom := h.room
    refine Log.Start.inv
      ⟨h.idle, ⟨s.pLogBuffer.cbLGBuf / 4096, s.system.wb.pbWrite / 4096, ?_, ?_, ?_⟩,
      ⟨?_, ?_, ?_, ?_⟩, ?_, ?_⟩
    · have hwhole := h.whole
      have hwrite := h.write_lt
      unfold LOG_SEGMENT_SIZE at hwhole
      omega
    · have hwhole := h.whole
      rw [h.cbLGBuf]
      unfold LOG_SEGMENT_SIZE at *
      omega
    · have hpb := h.pbWrite
      rw [h.pbLGBufMin]
      unfold LOG_SEGMENT_SIZE at *
      omega
    · rw [h.isecWrite]
    · rw [h.isecWrite]
      exact hroom.le
    · rw [h.shadow]
      exact fun hno => absurd hno Bool.false_ne_true
    · intro _
      rw [h.lgposToWrite, h.isecWrite]
      unfold Log.getLgpos LGPOS.qw
      split_ifs
      · dsimp only
        omega
      · exact le_rfl
    · rw [h.isecWrite]
      exact fun isec hlo hhi => absurd hlo (Nat.not_le.2 hhi)
    · rw [h.shadow]
      exact fun hno => absurd hno Bool.false_ne_true
  · have hisec := h.isecWrite
    omega

end

end Ese.LogWrite
