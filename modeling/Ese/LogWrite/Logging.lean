import Ese.LogRead.RoundTrip
import Ese.Log.Protect

/-!
# Logging

The log of an instance, from the log records that are given to it to the file. `ErrLGLogRec`
reserves the space of a batch in the log buffer and leaves the copy of it to the caller, outside of
the critical section. `ErrLGIWriteLog` waits for the copies under way, takes the critical section's
view of the buffer and writes its full segments, or the partial one if there are none. Other batches
may be added while the I/Os of a write are under way. The log file is not rolled over here: a batch
for which the file has no room is not added.

Pointers into the buffer are offsets, and a position in the file is `CbSec` times its segment and
the offset in it.
-/

namespace Ese.LogWrite

open Ese.Log (LOG_SEGMENT_SIZE LOG_STREAM LGPOS SectorWrite System cmpLgpos)
open Ese.LogBuffer (LOG_BUFFER LOG_WRITE_BUFFER records batchBytes)
open Ese.LogRead.LOG_FILE (LoggedLR cbLGSizeOfData)

/-! ## The log -/

/-- A copy into the log buffer that is under way: where it goes, and the data of its records. -/
structure PendingCopy where
  pbLogRec : Nat
  rgdata : List (List Byte)

/-- The log buffer with its bytes and the copies under way, `m_lgposMaxWritePoint`, the log file
with its writes, and the batches of records so far, in the order in which their space was
reserved. -/
structure LOG where
  pLogBuffer : LOG_BUFFER
  pbEntry : Nat
  rgb : Mem
  pending : List PendingCopy
  lgposMaxWritePoint : LGPOS
  system : System
  logged : List (List (List Byte))

/-- The records of a batch. -/
def recordsOf (rgdata : List (List Byte)) : List (List Byte) :=
  (records cbLGSizeOfData rgdata.length rgdata).map List.flatten

/-- `AddLgpos`. -/
def addLgpos (lgpos : LGPOS) (cb : Nat) : LGPOS :=
  { lgpos with isec := lgpos.isec + (lgpos.ib + cb) / LOG_SEGMENT_SIZE,
               ib := (lgpos.ib + cb) % LOG_SEGMENT_SIZE }

namespace LOG

section
variable (strm : LOG_STREAM) (s : LOG)

/-- The log buffer, with the pointers that the writes and the records have. -/
def buffer : LOG_WRITE_BUFFER := ⟨s.pLogBuffer, s.system.wb.pbWrite, s.pbEntry⟩

/-- `LOG_BUFFER::GetLgpos`. -/
def getLgpos (pb : Nat) : LGPOS :=
  let pbAligned := pb / LOG_SEGMENT_SIZE * LOG_SEGMENT_SIZE
  let csec :=
    if pbAligned < s.system.wb.pbWrite then
      s.pLogBuffer.cbLGBuf / LOG_SEGMENT_SIZE - (s.system.wb.pbWrite - pbAligned) / LOG_SEGMENT_SIZE
    else (pbAligned - s.system.wb.pbWrite) / LOG_SEGMENT_SIZE
  let isec := s.system.wb.isecWrite + csec
  if isec ≥ strm.isecLGFileEnd then ⟨pb - pbAligned, isec - strm.isecLGFileEnd + strm.cSecHeader,
    strm.lGeneration + 1⟩
  else ⟨pb - pbAligned, isec, strm.lGeneration⟩

/-- The bytes that `FLGIAddLogRec` finds for a batch. -/
def cbReq (pbLogRec : Nat) : Nat :=
  if pbLogRec > s.pbEntry then pbLogRec - s.pbEntry else s.pLogBuffer.cbLGBuf + pbLogRec - s.pbEntry

/-- `m_lgposMaxWritePoint` with `cb` more bytes: the begin of the record that hangs over the
boundary of a segment, or its end if that is the boundary. -/
def maxWritePoint (cb : Nat) : LGPOS :=
  let pbSectorBoundary := (s.pbEntry + cb) / LOG_SEGMENT_SIZE * LOG_SEGMENT_SIZE
  if s.pbEntry / LOG_SEGMENT_SIZE * LOG_SEGMENT_SIZE = pbSectorBoundary then s.lgposMaxWritePoint
  else if pbSectorBoundary = s.pbEntry + cb then addLgpos (s.getLgpos strm s.pbEntry) cb
  else s.getLgpos strm s.pbEntry

/-- `ErrLGLogRec` up to the copy, or `none` where it waits for a write or for the next log file. -/
def errLGLogRec (rgdata : List (List Byte)) : Option LOG := do
  let csecToExclude := (s.buffer.cbAvail - 1) / LOG_SEGMENT_SIZE + 1
  let csecReady := s.pLogBuffer.cbLGBuf / LOG_SEGMENT_SIZE - csecToExclude
  let ibEntry := s.pbEntry % LOG_SEGMENT_SIZE
  let (pbLogRec, _) ← s.buffer.flgiAddLogRec true (fun _ => 0) cbLGSizeOfData rgdata s.rgb s.pbEntry
  let csecToAdd := (ibEntry + s.cbReq pbLogRec + LOG_SEGMENT_SIZE) / LOG_SEGMENT_SIZE
  if csecReady + s.system.wb.isecWrite + csecToAdd > strm.cSecLGFile - 1 then none
  else
    some { s with
      pbEntry := s.buffer.advance s.pbEntry (s.cbReq pbLogRec)
      pending := s.pending ++ [⟨s.pbEntry, rgdata⟩]
      lgposMaxWritePoint := s.maxWritePoint strm (s.cbReq pbLogRec)
      logged := s.logged ++ [recordsOf rgdata] }

/-- The full segments of the buffer that `ErrLGIWriteLog` finds. -/
def csecFull : Nat :=
  if s.pbEntry < s.system.wb.pbWrite then
    (s.pbEntry + s.pLogBuffer.cbLGBuf - s.system.wb.pbWrite) / LOG_SEGMENT_SIZE
  else (s.pbEntry - s.system.wb.pbWrite) / LOG_SEGMENT_SIZE

/-- What the writer has of the buffer. -/
def wb : Log.LOG_WRITE_BUFFER := { s.system.wb with rgbLGBuf := s.rgb }

/-- The write of `ErrLGIWriteLog`: its I/Os, and the buffer when they are done. -/
def errLGIWriteLog (code : ChecksumCode) : List SectorWrite × Log.LOG_WRITE_BUFFER :=
  if s.csecFull = 0 then
    Log.errLGIWritePartialSector code strm s.wb s.pbEntry s.wb.isecWrite s.wb.pbWrite
      (s.getLgpos strm s.pbEntry)
  else
    Log.errLGIWriteFullSectors code strm s.wb s.csecFull s.wb.isecWrite s.wb.pbWrite
      s.lgposMaxWritePoint

end

end LOG

/-! ## Runs -/

inductive Action
  | logRec (batch : List (List (List Byte)))
  | copy (i : Nat)
  | write
  | complete

/-- A batch of records is added; a copy under way is made, with what `m_pbWrite` then is; a write
begins when there are no copies under way and something to write; and its I/Os complete one after
the other. -/
inductive Step (code : ChecksumCode) (strm : LOG_STREAM) (logtime : Nat → BitVec 64) :
    Action → LOG → LOG → Prop
  | logRec {batch : List (List (List Byte))} {s s' : LOG} (nonempty : batch ≠ [])
      (lrs : ∀ rgdata ∈ batch, LoggedLR rgdata)
        (reserved : s.errLGLogRec strm batch.flatten = some s') :
      Step code strm logtime (.logRec batch) s s'
  | copy {i : Nat} {copy : PendingCopy} {pbEnd : Nat} {rgb : Mem} {s : LOG}
      (pending : s.pending[i]? = some copy)
      (copied : s.buffer.flgiAddLogRec false logtime cbLGSizeOfData copy.rgdata s.rgb
        copy.pbLogRec = some (pbEnd, rgb)) :
      Step code strm logtime (.copy i) s { s with rgb := rgb, pending := s.pending.eraseIdx i }
  | write {s : LOG} (idle : s.system.pending = []) (copied : s.pending = [])
      (data : cmpLgpos (s.getLgpos strm s.pbEntry) s.system.wb.lgposToWrite > 0) :
      Step code strm logtime .write s
        { s with
          rgb := (s.errLGIWriteLog strm code).2.rgbLGBuf
          system := { s.system with
            wb := s.wb
            pending := (s.errLGIWriteLog strm code).1
            done := (s.errLGIWriteLog strm code).2 } }
  | complete {write : SectorWrite} {rest : List SectorWrite} {s : LOG}
      (next : s.system.pending = write :: rest) :
      Step code strm logtime .complete s
        { s with system :=
          { s.system with
            disk := write.apply s.system.disk
            wb := if rest = [] then s.system.done else s.system.wb
            pending := rest } }

/-- A new log file that is not at its end: an empty buffer of whole segments, and nothing written
behind the header of the file. -/
structure Start (strm : LOG_STREAM) (s : LOG) : Prop where
  lgFileEnd : strm.isecLGFileEnd = strm.cSecLGFile - 1
  logged : s.logged = []
  pending : s.pending = []
  idle : s.system.pending = []
  pbLGBufMin : s.system.wb.pbLGBufMin = 0
  cbLGBuf : s.system.wb.cbLGBuf = s.pLogBuffer.cbLGBuf
  whole : s.pLogBuffer.cbLGBuf % LOG_SEGMENT_SIZE = 0
  pbWrite : s.system.wb.pbWrite % LOG_SEGMENT_SIZE = 0
  write_lt : s.system.wb.pbWrite < s.pLogBuffer.cbLGBuf
  empty : s.pbEntry = s.system.wb.pbWrite
  isecWrite : s.system.wb.isecWrite = strm.cSecHeader
  room : strm.cSecHeader < strm.cSecLGFile - 1
  shadow : s.system.wb.fHaveShadow = false
  lgposToWrite : s.system.wb.lgposToWrite = ⟨0, strm.cSecHeader, strm.lGeneration⟩

end Ese.LogWrite
