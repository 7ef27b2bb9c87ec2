import Ese.LogRead.RecordSize

/-!
# Reading the next log record

`ErrLGGetNextRecFF` reads the log record behind the one it returned before. It skips the headers of
segments and the bytes up to the end of a segment, and puts a record that is fragmented over
segments together in a buffer. The segments verify, but what is in them is checked only here. A call
keeps what it reads and writes, so that it can be said where that is.
-/

namespace Ese.LogRead

open Ese.Log (cbLGSEGHDR)
open Ese.LogBuffer (cbLRFRAGMENTBEGIN cbLRFRAGMENT lrtypNOP)

inductive ERR
  | JET_errLogFileCorrupt
  | JET_errOutOfMemory
  | errLGNoMoreRecords
  /-- A sector cannot be read. -/
  | read (code : Int)
  deriving DecidableEq, Repr

/-- The log file that is read, with offsets in the file for the addresses in the log buffer that has
it: the size of a segment, the bytes, where the log buffer begins and ends, `m_lgposLastRec`, which
segments cannot be read, and for how many bytes there is memory. -/
structure LOG_FILE where
  cbSec : Nat
  rgb : Mem
  pbLGBufMin : Nat
  pbLGBufMax : Nat
  lgposLastRec : Nat
  errSector : Nat → Option Int
  fAlloc : Nat → Bool
  cbSec_le : 512 ≤ cbSec

/-- The buffer a record is put together in. -/
structure AssembledLR where
  cb : Nat
  pv : Mem

/-- The reader, with a buffer for reading and one for prereading. -/
structure LOG_READ_BUFFER where
  pbNext : Nat
  pbNextNext : Option Nat
  assembledLR : Bool → AssembledLR

/-- Bytes that are read of the segment at `pbSegment`, written in the buffer of a size, or read of
the record that is put together in it. -/
inductive Access
  | segment (pbSegment pb cb : Nat)
  | write (cbBuffer ib cb : Nat)
  | assembled (cbTotal ib cb : Nat)
  deriving DecidableEq, Repr

/-- Where the record is that a call returns. -/
inductive RECORD
  | segment (pb : Nat)
  | assembled
  deriving DecidableEq, Repr

/-- The locals of `ErrLGIGetRecordAtPbNext`, with `m_pbNext` and the buffer. -/
structure Scan where
  pbCurrent : Nat
  pbNext : Nat
  fSkipPartialLR : Bool
  fInFragment : Bool
  cbTotalFragment : Nat
  cbFragmentSeen : Nat
  assembledLR : AssembledLR

/-- A turn of the loop goes on, fails, or has a record and the position behind it. -/
inductive Turn
  | next (s : Scan)
  | error (err : ERR) (s : Scan)
  | record (plr : RECORD) (pbNextNext : Nat) (s : Scan)

def lrtypRecoveryUndo : Byte := 17
def lrtypUndoInfo : Byte := 36
def lrtypRecoveryUndo2 : Byte := 51
def lrtypFragmentBegin : Byte := 76
def lrtypFragment : Byte := 77

namespace LOG_FILE

variable (log : LOG_FILE)

/-- Where the segment of a position begins. -/
def pbSegment (pb : Nat) : Nat := pb / log.cbSec * log.cbSec

/-- The position behind the header, at the begin of a segment. -/
def pbSkipHeader (pb : Nat) : Nat := if pb = log.pbSegment pb then pb + cbLGSEGHDR else pb

/-! ## A turn -/

section
variable (pbSegment : Nat) (s : Scan)

/-- The bytes of the segment from the position on. -/
def cbLeft : Nat := pbSegment + log.cbSec - s.pbCurrent

/-- `le_cbTotalLRSize` of the `LRFRAGMENTBEGIN` at the position. -/
def cbTotalLRSize : Nat := (log.rgb.readU32 (s.pbCurrent + 1)).toNat

/-- `le_cbFragmentSize` of the `LRFRAGMENTBEGIN` at the position. -/
def cbFragmentBegin : Nat := (log.rgb.readU16 (s.pbCurrent + 5)).toNat

/-- `le_cbFragmentSize` of the `LRFRAGMENT` at the position. -/
def cbFragment : Nat := (log.rgb.readU16 (s.pbCurrent + 1)).toNat

/-- There is a buffer for the record: a larger one is allocated when it does not fit. -/
def FBuffer (cbTotal : Nat) : Prop := cbTotal ≤ s.assembledLR.cb ∨ log.fAlloc cbTotal = true

instance (cbTotal : Nat) : Decidable (log.FBuffer s cbTotal) := inferInstanceAs (Decidable (_ ∨ _))

/-- The buffer, allocated again when the record is larger. -/
def allocAssembled (cbTotal : Nat) : AssembledLR :=
  if cbTotal > s.assembledLR.cb then
    if log.fAlloc cbTotal then { s.assembledLR with cb := cbTotal }
    else { s.assembledLR with cb := 0 }
  else s.assembledLR

/-- A fragmented record may begin: not within another one, unless that one is torn and this is the
first record of undo. -/
def FBeginRefused : Prop :=
  s.fInFragment = true ∧
    (s.pbCurrent ≠ pbSegment + cbLGSEGHDR ∨
    log.rgb (s.pbCurrent + cbLRFRAGMENTBEGIN) ≠ lrtypUndoInfo)

instance : Decidable (log.FBeginRefused pbSegment s) := inferInstanceAs (Decidable (_ ∧ _))

/-- The first byte of the fragment is looked at within a fragmented record. -/
def undoReads : List Access :=
  if s.fInFragment ∧ s.pbCurrent = pbSegment + cbLGSEGHDR then
    [.segment pbSegment (s.pbCurrent + cbLRFRAGMENTBEGIN) 1]
  else []

/-- The begin of a fragmented record. -/
def fragmentBegin : List Access × Turn :=
  if s.pbCurrent + cbLRFRAGMENTBEGIN > pbSegment + log.cbSec
    then ([], .error .JET_errLogFileCorrupt s)
  else
    if log.FBeginRefused pbSegment s then (undoReads pbSegment s, .error .JET_errLogFileCorrupt s)
    else
      let header : List Access :=
        undoReads pbSegment s ++ [.segment pbSegment s.pbCurrent cbLRFRAGMENTBEGIN]
      let cbTotal := log.cbTotalLRSize s
      let cb := log.cbFragmentBegin s
      let assembledLR := log.allocAssembled s cbTotal
      let s' : Scan := { s with
        fSkipPartialLR := false
        fInFragment := true
        cbTotalFragment := cbTotal
        assembledLR := assembledLR }
      if ¬ log.FBuffer s cbTotal then (header, .error .JET_errOutOfMemory s')
      else if cb ≥ cbTotal ∨ cb > log.cbLeft pbSegment s
        then (header, .error .JET_errLogFileCorrupt s')
      else
        let pv := assembledLR.pv.write 0 (log.rgb.read (s.pbCurrent + cbLRFRAGMENTBEGIN) cb)
        (header ++ [.segment pbSegment (s.pbCurrent + cbLRFRAGMENTBEGIN) cb,
          .write assembledLR.cb 0 cb],
          .next { s' with
            pbCurrent := s.pbCurrent + cbLRFRAGMENTBEGIN + cb
            cbFragmentSeen := cb
            assembledLR := { assembledLR with pv := pv } })

/-- The record that is put together has its size. -/
def FAssembledValid (pv : Mem) (cbTotal : Nat) : Prop :=
  (pv 0).toNat < lrtypMax ∧ cbLGFixedSizeOfRec pv 0 ≤ cbTotal ∧ cbLGSizeOfRec pv 0 = cbTotal

instance (pv : Mem) (cbTotal : Nat) : Decidable (FAssembledValid pv cbTotal) :=
  inferInstanceAs (Decidable (_ ∧ _))

/-- What is read of the record that is put together to check it: its type, and what its size is
computed from if the structure of its type fits. -/
def assembledReads (pv : Mem) (cbTotal : Nat) : List Access :=
  if (pv 0).toNat < lrtypMax ∧ cbLGFixedSizeOfRec pv 0 ≤ cbTotal then
    (sizeReads (pv 0).toNat).map fun read => .assembled cbTotal read.1 read.2
  else [.assembled cbTotal 0 1]

/-- The continuation of a fragmented record. -/
def fragment : List Access × Turn :=
  let header : List Access := [.segment pbSegment s.pbCurrent cbLRFRAGMENT]
  let cb := log.cbFragment s
  if s.fSkipPartialLR then
    (header, .next { s with
      pbCurrent := s.pbCurrent + cbLRFRAGMENT + cb
      pbNext := s.pbCurrent + cbLRFRAGMENT + cb })
  else if s.fInFragment = false ∨ s.pbCurrent + cbLRFRAGMENT > pbSegment + log.cbSec then
    ([], .error .JET_errLogFileCorrupt s)
  else if cb > s.cbTotalFragment - s.cbFragmentSeen ∨ cb > log.cbLeft pbSegment s then
    (header, .error .JET_errLogFileCorrupt s)
  else
    let pv := s.assembledLR.pv.write s.cbFragmentSeen (log.rgb.read (s.pbCurrent + cbLRFRAGMENT) cb)
    let copy : List Access :=
      header ++ [.segment pbSegment (s.pbCurrent + cbLRFRAGMENT) cb,
        .write s.assembledLR.cb s.cbFragmentSeen cb]
    let s' : Scan := { s with
      pbCurrent := s.pbCurrent + cbLRFRAGMENT + cb
      cbFragmentSeen := s.cbFragmentSeen + cb
      assembledLR := { s.assembledLR with pv := pv } }
    if s.cbTotalFragment = s.cbFragmentSeen + cb then
      (copy ++ assembledReads pv s.cbTotalFragment,
        if FAssembledValid pv s.cbTotalFragment then .record .assembled s'.pbCurrent s'
        else .error .JET_errLogFileCorrupt s')
    else (copy, .next s')

/-- How many bytes from a position on, at most `cb`, are `lrtypNOP`. -/
def cbNOP (pb : Nat) : Nat → Nat
  | 0 => 0
  | cb + 1 => if log.rgb pb = lrtypNOP then cbNOP (pb + 1) cb + 1 else 0

/-- The bytes that are `lrtypNOP` are skipped. -/
def nop : List Access × Turn :=
  let cb := log.cbNOP s.pbCurrent (log.cbLeft pbSegment s)
  ([.segment pbSegment s.pbCurrent (min (cb + 1) (log.cbLeft pbSegment s))],
    .next { s with pbCurrent := s.pbCurrent + cb })

/-- The first record of undo, at the begin of a segment. -/
def FUndo : Prop :=
  s.pbCurrent = pbSegment + cbLGSEGHDR ∧
    (log.rgb s.pbCurrent = lrtypRecoveryUndo ∨ log.rgb s.pbCurrent = lrtypRecoveryUndo2 ∨
      log.rgb s.pbCurrent = lrtypUndoInfo)

instance : Decidable (log.FUndo pbSegment s) := inferInstanceAs (Decidable (_ ∧ _))

/-- A record that is not fragmented. Within a fragmented record it is the first of undo: the other
one is torn. -/
def regular : List Access × Turn :=
  if s.fInFragment ∧ ¬ log.FUndo pbSegment s then ([], .error .JET_errLogFileCorrupt s)
  else
    let s' : Scan := { s with pbNext := if s.fInFragment then pbSegment else s.pbNext }
    if (log.rgb s.pbCurrent).toNat ≥ lrtypMax ∨ cbLGFixedSizeOfRec log.rgb s.pbCurrent >
      log.cbLeft pbSegment s then
      ([], .error .JET_errLogFileCorrupt s')
    else
      let size : List Access :=
        (sizeReads (log.rgb s.pbCurrent).toNat).map fun read => .segment pbSegment
          (s.pbCurrent + read.1) read.2
      if cbLGSizeOfRec log.rgb s.pbCurrent > log.cbLeft pbSegment s
        then (size, .error .JET_errLogFileCorrupt s')
      else (size, .record (.segment s.pbCurrent) (s.pbCurrent + cbLGSizeOfRec log.rgb s.pbCurrent)
        s')

/-- The byte at the position says what is there. -/
def switch : List Access × Turn :=
  if log.rgb s.pbCurrent = lrtypFragmentBegin then log.fragmentBegin pbSegment s
  else if log.rgb s.pbCurrent = lrtypFragment then log.fragment pbSegment s
  else if log.rgb s.pbCurrent = lrtypNOP then log.nop pbSegment s
  else log.regular pbSegment s

end

/-- The position of a turn, with the header of the segment skipped. -/
def skip (s : Scan) : Scan := { s with pbCurrent := log.pbSkipHeader s.pbCurrent }

/-- What is read before the byte at the position is looked at, and this byte. -/
def skipReads (s : Scan) : List Access :=
  (if s.pbCurrent = log.pbSegment s.pbCurrent then
    [.segment (log.pbSegment s.pbCurrent) s.pbCurrent cbLGSEGHDR] else [])
    ++ [.segment (log.pbSegment s.pbCurrent) (log.pbSkipHeader s.pbCurrent) 1]

/-- A turn of the loop of `ErrLGIGetRecordAtPbNext`. -/
def turn (s : Scan) : List Access × Turn :=
  if log.lgposLastRec ≤ s.pbCurrent then ([], .error .errLGNoMoreRecords s)
  else
    match log.errSector (s.pbCurrent / log.cbSec) with
    | some code => ([], .error (.read code) s)
    | none =>
      let (rgaccess, t) := log.switch (log.pbSegment s.pbCurrent) (log.skip s)
      (log.skipReads s ++ rgaccess, t)

/-! ## A call -/

/-- What a call returns. -/
inductive Result
  | error (err : ERR)
  | record (plr : RECORD)
  /-- The process ends: the record before was behind the last one. -/
  | enforce
  /-- The loop has not ended. -/
  | loop
  deriving DecidableEq, Repr

variable (fPreread : Bool)

/-- The reader with the outcome of the loop. -/
def update (r : LOG_READ_BUFFER) (pbNextNext : Option Nat) (s : Scan) : LOG_READ_BUFFER :=
  { pbNext := s.pbNext
    pbNextNext := pbNextNext
    assembledLR := Function.update r.assembledLR fPreread s.assembledLR }

/-- At most so many turns of the loop of `ErrLGIGetRecordAtPbNext`. -/
def getRecord (r : LOG_READ_BUFFER) : Nat → Scan → List Access × Result × LOG_READ_BUFFER
  | 0, _ => ([], .loop, r)
  | n + 1, s =>
    let (rgaccess, t) := log.turn s
    match t with
    | .next s' =>
      let (rgaccess', result) := getRecord r n s'
      (rgaccess ++ rgaccess', result)
    | .error err s' =>
      (rgaccess, .error err,
        update fPreread r (if err = .errLGNoMoreRecords then some s'.pbCurrent else r.pbNextNext)
        s')
    | .record plr pbNextNext s' => (rgaccess, .record plr, update fPreread r (some pbNextNext) s')

/-- The locals when a call begins. -/
def scan (r : LOG_READ_BUFFER) (pbNext : Nat) (fSkipPartialLR : Bool) : Scan :=
  ⟨pbNext, pbNext, fSkipPartialLR, false, 0, 0, r.assembledLR fPreread⟩

/-- `ErrLGIGetRecordAtPbNext`, with as many turns as there are bytes up to the last record. -/
def getRecordAtPbNext (r : LOG_READ_BUFFER) (fSkipPartialLR : Bool) :
    List Access × Result × LOG_READ_BUFFER :=
  log.getRecord fPreread r (log.lgposLastRec - r.pbNext + 1)
    (scan fPreread r r.pbNext fSkipPartialLR)

/-- `ErrLGGetNextRecFF`. -/
def getNextRecFF (r : LOG_READ_BUFFER) : List Access × Result × LOG_READ_BUFFER :=
  match r.pbNextNext with
  | none => ([], .error .errLGNoMoreRecords, r)
  | some pbNextNext =>
    if log.lgposLastRec ≤ pbNextNext then ([], .error .errLGNoMoreRecords, r)
    else if log.lgposLastRec ≤ r.pbNext then ([], .enforce, r)
    else if pbNextNext < log.pbLGBufMin ∨ log.pbLGBufMax ≤ pbNextNext
      then ([], .error .JET_errLogFileCorrupt, r)
    else if pbNextNext < r.pbNext then ([], .error .JET_errLogFileCorrupt, r)
    else log.getRecordAtPbNext fPreread { r with pbNext := pbNextNext } false

end LOG_FILE

end Ese.LogRead
