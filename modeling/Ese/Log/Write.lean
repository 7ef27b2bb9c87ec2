import Ese.Lib.Run
import Ese.Log.Segment

/-!
# Writing the log

The log buffer is a ring of segments. A write of full segments sends them to the file, in two I/Os
when the first of them is already there as a partial segment with a shadow, so that an I/O never
covers a segment and its shadow. A write of a partial segment sends it to its place and, as a
shadow, to the next; the segment is first to be overwritten when it is there already. A crash leaves
of every segment of the I/O in flight what was there before, what was to be written, or a mix of
both that does not verify.
-/

namespace Ese.Log

/-- The constants of a log file; the last segment is for a shadow only. -/
structure LOG_STREAM where
  lGeneration : Nat
  cSecHeader : Nat
  cSecLGFile : Nat
  isecLGFileEnd : Nat
  cSecHeader_pos : 0 < cSecHeader
  lGeneration_lt : lGeneration < 2 ^ 31 - 1
  cSecLGFile_le : cSecLGFile ≤ 2 ^ 16
  isecLGFileEnd_le : isecLGFileEnd ≤ cSecLGFile - 1

/-- The log buffer: its bytes, by address, and what is to be written. -/
structure LOG_WRITE_BUFFER where
  pbLGBufMin : Nat
  cbLGBuf : Nat
  rgbLGBuf : Mem
  pbWrite : Nat
  isecWrite : Nat
  fHaveShadow : Bool
  lgposToWrite : LGPOS

/-- An I/O: segments that are written from `isec` on, in any order. -/
structure SectorWrite where
  isec : Nat
  rgsec : List Mem

/-- The file after an I/O. -/
def SectorWrite.apply (write : SectorWrite) (disk : Nat → Mem) : Nat → Mem := fun isec =>
  if write.isec ≤ isec then (write.rgsec[isec - write.isec]?).getD (disk isec) else disk isec

def segmentAt (rgb : Mem) (pb : Nat) : Mem := fun ib => rgb (pb + ib)

def putSegment (rgb : Mem) (pb : Nat) (sec : Mem) : Mem := fun a =>
  if pb ≤ a ∧ a < pb + LOG_SEGMENT_SIZE then sec (a - pb) else rgb a

/-- `ErrLGWriteSectorData` of pieces of the buffer, each an address and a size. -/
def errLGWriteSectorData (rgb : Mem) (isec : Nat) (rgpb : List (Nat × Nat)) : SectorWrite :=
  ⟨isec, rgpb.flatMap fun piece =>
    (List.range (piece.2 / LOG_SEGMENT_SIZE)).map fun i =>
      segmentAt rgb (piece.1 + LOG_SEGMENT_SIZE * i)⟩

section
variable (code : ChecksumCode) (strm : LOG_STREAM) (wb : LOG_WRITE_BUFFER)

def LOG_WRITE_BUFFER.pbLGBufMax : Nat := wb.pbLGBufMin + wb.cbLGBuf

/-- The checksums of the full segments, set in the buffer. -/
def checksumSegments (csecFull isecWrite pbWrite : Nat) : Mem :=
  (List.range csecFull).foldl (fun rgb isecChecksum =>
    let pvSegHdr := pbWrite + LOG_SEGMENT_SIZE * isecChecksum
    let pvSegHdr := if pvSegHdr ≥ wb.pbLGBufMax then pvSegHdr - wb.cbLGBuf else pvSegHdr
    putSegment rgb pvSegHdr
      (sealSegment code strm.lGeneration (isecWrite + isecChecksum) (segmentAt rgb pvSegHdr)))
      wb.rgbLGBuf

/-- The segments from `pbToWrite` on in one I/O, of two pieces if they go past the end of the
buffer. -/
def writeSectors (rgb : Mem) (csecToWrite isecToWrite pbToWrite : Nat) : SectorWrite :=
  if pbToWrite + LOG_SEGMENT_SIZE * csecToWrite > wb.pbLGBufMax then
    errLGWriteSectorData rgb isecToWrite
      [(pbToWrite, wb.pbLGBufMax - pbToWrite),
        (wb.pbLGBufMin, LOG_SEGMENT_SIZE * csecToWrite - (wb.pbLGBufMax - pbToWrite))]
  else errLGWriteSectorData rgb isecToWrite [(pbToWrite, LOG_SEGMENT_SIZE * csecToWrite)]

/-- The address after `csecToWrite` segments. -/
def pbAfter (csecToWrite pbToWrite : Nat) : Nat :=
  let pbToWrite := pbToWrite + LOG_SEGMENT_SIZE * csecToWrite
  if pbToWrite ≥ wb.pbLGBufMax then pbToWrite - wb.cbLGBuf else pbToWrite

/-- `ErrLGIWriteFullSectors`: its I/Os, one after the other, and the buffer when they are done. -/
def errLGIWriteFullSectors (csecFull isecWrite pbWrite : Nat) (lgposWriteEnd : LGPOS) :
    List SectorWrite × LOG_WRITE_BUFFER :=
  let rgb := checksumSegments code strm wb csecFull isecWrite pbWrite
  let (rgwrite, isecToWrite, pbToWrite) :=
    if wb.fHaveShadow then
      let pbToWrite := if pbWrite = wb.pbLGBufMax then wb.pbLGBufMin else pbWrite
      let write := errLGWriteSectorData rgb isecWrite [(pbToWrite, LOG_SEGMENT_SIZE * 1)]
      let isecToWrite := isecWrite + 1
      let pbFirstSec := pbToWrite
      let pbToWrite := pbToWrite + LOG_SEGMENT_SIZE
      let csecToWrite := csecFull - 1
      let pbToWrite := if pbToWrite = wb.pbLGBufMax then wb.pbLGBufMin else pbToWrite
      if 0 = csecToWrite then
        -- the shadow is overwritten with the copy of the current segment
        ([write, errLGWriteSectorData rgb isecToWrite [(pbFirstSec, LOG_SEGMENT_SIZE * 1)]],
          isecToWrite, pbToWrite)
      else
        ([write, writeSectors wb rgb csecToWrite isecToWrite pbToWrite],
          isecToWrite + csecToWrite, pbAfter wb csecToWrite pbToWrite)
    else
      ([writeSectors wb rgb csecFull isecWrite pbWrite], isecWrite + csecFull,
        pbAfter wb csecFull pbWrite)
  (rgwrite, { wb with
    rgbLGBuf := rgb
    fHaveShadow := false
    lgposToWrite := lgposWriteEnd
    isecWrite := isecToWrite
    pbWrite := pbToWrite })

/-- The copy of the partial segment that is written. -/
def pvPartialSegment (pbWriteEnd isecWrite pbWrite : Nat) : Mem :=
  sealSegment code strm.lGeneration isecWrite fun ib =>
    if ib < pbWriteEnd - pbWrite then wb.rgbLGBuf (pbWrite + ib) else 0

/-- `ErrLGIWritePartialSector`: its I/Os, one after the other, and the buffer when they are done. -/
def errLGIWritePartialSector (pbWriteEnd isecWrite pbWrite : Nat) (lgposWriteEnd : LGPOS) :
    List SectorWrite × LOG_WRITE_BUFFER :=
  let pv := pvPartialSegment code strm wb pbWriteEnd isecWrite pbWrite
  let rgwrite :=
    if wb.fHaveShadow then [⟨isecWrite, [pv]⟩, ⟨isecWrite + 1, [pv]⟩]
    else [⟨isecWrite, [pv, pv]⟩]
  (rgwrite, { wb with fHaveShadow := true, lgposToWrite := lgposWriteEnd })

/-- `GetLgpos` of the start of a segment. -/
def getLgpos (isec : Nat) : LGPOS :=
  if isec ≥ strm.isecLGFileEnd then
    ⟨0, isec - strm.isecLGFileEnd + strm.cSecHeader, strm.lGeneration + 1⟩
  else ⟨0, isec, strm.lGeneration⟩

/-! ## Runs and crashes -/

/-- The file, the buffer, and of a write under way the I/Os that are not done and the buffer it
leaves. -/
structure System where
  disk : Nat → Mem
  wb : LOG_WRITE_BUFFER
  pending : List SectorWrite
  done : LOG_WRITE_BUFFER

/-- The buffer holds the first `cb` bytes of the log from the next segment to write on. -/
def HoldsLog (lg : Nat → Nat → Byte) (cb : Nat) : Prop :=
  ∀ i ib, ib < LOG_SEGMENT_SIZE → cbLGSEGHDR ≤ ib → LOG_SEGMENT_SIZE * i + ib < cb →
    wb.rgbLGBuf (pbAfter wb i wb.pbWrite + ib) = lg (wb.isecWrite + i) ib

inductive Action
  | writeFull (csecFull : Nat) (rgb : Mem) (lgposWriteEnd : LGPOS)
  | writePartial (cb : Nat) (rgb : Mem)
  | complete

/-- A write begins with what the log buffer then holds, and with what its callers and itself assert;
its I/Os complete one after the other. -/
inductive Step (lg : Nat → Nat → Byte) : Action → System → System → Prop
  | writeFull {csecFull : Nat} {rgb : Mem} {lgposWriteEnd : LGPOS} {s : System}
      (idle : s.pending = []) (pos : 0 < csecFull)
      (room : s.wb.isecWrite + csecFull ≤ strm.cSecLGFile - 1)
      (used : LOG_SEGMENT_SIZE * csecFull ≤ s.wb.cbLGBuf)
      (holds : HoldsLog { s.wb with rgbLGBuf := rgb } lg (LOG_SEGMENT_SIZE * csecFull))
      (forward : cmpLgpos s.wb.lgposToWrite lgposWriteEnd ≤ 0)
      (written : cmpLgpos lgposWriteEnd (getLgpos strm (s.wb.isecWrite + csecFull)) ≤ 0) :
      Step lg (.writeFull csecFull rgb lgposWriteEnd) s
        { s with
          wb := { s.wb with rgbLGBuf := rgb }
          pending := (errLGIWriteFullSectors code strm { s.wb with rgbLGBuf := rgb } csecFull
            s.wb.isecWrite s.wb.pbWrite lgposWriteEnd).1
          done := (errLGIWriteFullSectors code strm { s.wb with rgbLGBuf := rgb } csecFull
            s.wb.isecWrite s.wb.pbWrite lgposWriteEnd).2 }
  | writePartial {cb : Nat} {rgb : Mem} {s : System}
      (idle : s.pending = []) (pos : 0 < cb) (partly : cb < LOG_SEGMENT_SIZE)
      (room : s.wb.isecWrite < strm.cSecLGFile - 1)
      (holds : HoldsLog { s.wb with rgbLGBuf := rgb } lg cb)
      (forward : cmpLgpos s.wb.lgposToWrite ⟨cb, s.wb.isecWrite, strm.lGeneration⟩ ≤ 0) :
      Step lg (.writePartial cb rgb) s
        { s with
          wb := { s.wb with rgbLGBuf := rgb }
          pending :=
            (errLGIWritePartialSector code strm { s.wb with rgbLGBuf := rgb } (s.wb.pbWrite + cb)
            s.wb.isecWrite s.wb.pbWrite ⟨cb, s.wb.isecWrite, strm.lGeneration⟩).1
          done :=
            (errLGIWritePartialSector code strm { s.wb with rgbLGBuf := rgb } (s.wb.pbWrite + cb)
            s.wb.isecWrite s.wb.pbWrite ⟨cb, s.wb.isecWrite, strm.lGeneration⟩).2 }
  | complete {write : SectorWrite} {rest : List SectorWrite} {s : System}
      (next : s.pending = write :: rest) :
      Step lg .complete s
        { s with
          disk := write.apply s.disk
          wb := if rest = [] then s.done else s.wb
          pending := rest }

/-- A mix of what a segment held and what was to be written to it that does not verify, neither for
its own index nor as a shadow. -/
structure Torn (isec : Nat) (old new sec : Mem) : Prop where
  mix : ∀ ib, sec ib = old ib ∨ sec ib = new ib
  fails : (checksumSegment code isec sec).1 = false
  failsShadow : isec ≠ strm.cSecHeader →
    (checksumSegment code (isec - 1) (checksumSegment code isec sec).2).1 = false

/-- What a crash can leave of a segment. -/
def Outcome (isec : Nat) (old new sec : Mem) : Prop :=
  sec = old ∨ sec = new ∨ Torn code strm isec old new sec

/-- The file when the I/O in flight is done. -/
def System.next (s : System) : Nat → Mem :=
  match s.pending with
  | [] => s.disk
  | write :: _ => write.apply s.disk

/-- The file after a crash. A segment that is not in flight is old and new at once. -/
def Crash (s : System) (disk : Nat → Mem) : Prop :=
  ∀ isec, Outcome code strm isec (s.disk isec) (s.next isec) (disk isec)

end

end Ese.Log
