import Mathlib.Logic.Function.Basic
import Ese.Lib.Memory

/-!
# The flush map

The flush map keeps a flush type for each page of the database. A sweep writes its dirty pages
section by section and then, in its header, the log generation its contents are good for. The
issuing thread, the I/O completions and the setters of flush types run concurrently: the model takes
the thread through `FlushOneSection_` one latched access at a time, and between any two of these the
others may run. It has the map after its attachment, with a fixed number of pages.
-/

namespace Ese.FlushMap

/-- The number of the header page. -/
def s_fmpgnoHdr : Int := -1

/-- The number of no page. -/
def s_fmpgnoUninit : Int := -2

/-- The size of a page of the flush map. -/
def s_cbFlushMapPageOnDisk : Nat := 8 * 1024

/-- The bits of a flush type. -/
def s_cbitFlushType : Nat := 2

/-- The bits of the first flush type of a byte. -/
def s_mskFlushType : Byte := 0xC0

/-- The size of the header of a data page. -/
def cbFlushMapDataPageHdr : Nat := 64

/-- The database pages that a page of the flush map covers. -/
def m_cDbPagesPerFlushMapPage : Nat :=
  8 * (s_cbFlushMapPageOnDisk - cbFlushMapDataPageHdr) / s_cbitFlushType

/-- No error. -/
def JET_errSuccess : Int := 0

/-- The time of no update. -/
def dbtimeNil : Nat := 0xffffffffffffffff

/-- An invalid time. -/
def dbtimeInvalid : Nat := 0xfffffffffffffffe

/-- The time of a page that was shrunk away. -/
def dbtimeShrunk : Nat := 0xfffffffffffffffd

/-- The time of a page that was reverted. -/
def dbtimeRevert : Nat := 0xfffffffffffffffc

/-- The flush types of a page. -/
inductive PageFlushType where
  | pgftUnknown
  | pgftRockWrite
  | pgftPaperWrite
  | pgftScissorsWrite
  deriving DecidableEq, Repr

/-- The bits of a flush type. -/
def PageFlushType.toNat : PageFlushType → Nat
  | pgftUnknown => 0
  | pgftRockWrite => 1
  | pgftPaperWrite => 2
  | pgftScissorsWrite => 3

/-! ## Pages and their descriptors -/

/-- The checkpoint in the header of the flush map. -/
structure FMFILEHDR where
  lGenMinRequired : Int
  lGenMinRequiredTarget : Int
  deriving DecidableEq, Repr

/-- A data page. The `dbtimeMax` of its descriptor is the one its copy in the write buffer gets. -/
structure FmDataPage where
  dbtimeMax : Nat
  rgb : Nat → Byte

/-- `pvWriteBuffer` is `none` for a null pointer; the header always has one. -/
structure FlushMapPageDescriptor (α : Type) where
  pv : α
  pvWriteBuffer : Option α
  fValid : Bool
  fDirty : Bool
  fAsyncWriteInProgress : Bool
  fRecentlyAsyncWrittenHeader : Bool
  errAsyncWrite : Int

/-- Where the flush type of a database page is on its page. -/
def ibitGetBitInPage (pgno : Nat) (cbHeader cbitPerState : Nat) : Nat :=
  8 * cbHeader + pgno % m_cDbPagesPerFlushMapPage * cbitPerState

/-- The bits of a database page replaced by a state. -/
def setStateOnBitmap (pbBitmap : Nat → Byte) (pgno : Nat) (state cbHeader cbitPerState : Nat)
    (mask : Byte) : Nat → Byte :=
  let ibitInBitmap := ibitGetBitInPage pgno cbHeader cbitPerState
  let ib := ibitInBitmap / 8
  let ibitInByte := ibitInBitmap % 8
  Function.update pbBitmap ib (pbBitmap ib &&& ~~~(mask >>> ibitInByte)
    ||| BitVec.ofNat 8 state <<< (8 - cbitPerState - ibitInByte))

/-- The flush type of a database page set on its page. -/
def setFlushType (pv : FmDataPage) (pgno : Nat) (pgft : PageFlushType) : FmDataPage :=
  { pv with
    rgb :=
      setStateOnBitmap pv.rgb pgno pgft.toNat cbFlushMapDataPageHdr s_cbitFlushType s_mskFlushType }

/-- The change of a page by `ErrSetRangePgnoFlushType_` of one database page. -/
def setPgnoFlushType (pv : FmDataPage) (pgno : Nat) (pgft : PageFlushType) (dbtime : Nat) :
    FmDataPage :=
  let fValidDbTime := dbtime ≠ dbtimeNil ∧ dbtime ≠ dbtimeInvalid ∧ dbtime ≠ dbtimeShrunk ∧
    dbtime > 0
    ∧ dbtime ≠ dbtimeRevert
  setFlushType (if fValidDbTime then { pv with dbtimeMax := max pv.dbtimeMax dbtime } else pv) pgno
    pgft

/-! ## The map -/

/-- Where the issuing thread is in `FlushOneSection_`, with its locals. -/
inductive Pc where
  /-- The section latch is free. -/
  | Idle
  | Enter
  /-- At a check of the loop that looks for the first page. -/
  | FindFirst (fmpgnoSectionFlushFirst : Int)
  /-- At a check of the loop over the pages of the section. -/
  | Flush (err : Int) (fmpgnoSectionFlushFirst fmpgnoSectionFlushLast fmpgnoSectionFlushCheck : Int)
      (cfmpgAsyncWrite : Int)
  /-- At a check of the loop that writes the pages up to `fmpgnoSectionFlushCheck`. -/
  | Write (err : Int)
      (fmpgnoSectionFlushFirst fmpgnoSectionFlushLast fmpgnoSectionFlushCheck
      fmpgnoSectionFlush : Int)
      (cfmpgAsyncWrite : Int)
  | HandleError (err : Int) (fmpgnoSectionFlushFirst fmpgnoSectionFlushLast : Int)
      (cfmpgAsyncWrite : Int)
  /-- The thread has left, and the latch is kept for the completion of the section. -/
  | Partitioned
  deriving DecidableEq, Repr

/-- `m_msSectionFlush` counts the members of its group, and `lGenMinConsistent` is that of the
database header. -/
structure CFlushMap where
  m_fmdFmHdr : FlushMapPageDescriptor FMFILEHDR
  m_rgfmd : Int → FlushMapPageDescriptor FmDataPage
  m_cfmpgAllocated : Int
  m_fmpgnoSectionFlushFirst : Int
  m_fmpgnoSectionFlushLast : Int
  m_fmpgnoSectionFlushNext : Int
  m_fSectionCheckpointHeaderWrite : Bool
  m_errSectionFlushWriteLastError : Int
  m_msSectionFlush : Int
  lGenMinConsistent : Int
  JET_paramMaxCoalesceWriteSize : Nat
  JET_paramMaxCoalesceWriteGapSize : Nat
  pc : Pc

namespace CFlushMap

/-- The last page in use. -/
def fmpgnoUsedMax (pfm : CFlushMap) : Int := pfm.m_cfmpgAllocated - 1

/-- The most pages that one write covers. -/
def cfmpgWriteMax (pfm : CFlushMap) : Int :=
  max (pfm.JET_paramMaxCoalesceWriteSize / s_cbFlushMapPageOnDisk) 1

/-- The most clean pages that one write covers between dirty ones. -/
def cfmpgWriteGapMax (pfm : CFlushMap) : Int :=
  pfm.JET_paramMaxCoalesceWriteGapSize / s_cbFlushMapPageOnDisk

/-- The descriptor of a page replaced. -/
def setFmd (pfm : CFlushMap) (fmpgno : Int) (fmd : FlushMapPageDescriptor FmDataPage) : CFlushMap :=
  { pfm with m_rgfmd := Function.update pfm.m_rgfmd fmpgno fmd }

/-- The header with its in-memory contents changed and dirty. -/
def setHdr (pfm : CFlushMap) (hdr : FMFILEHDR) : CFlushMap :=
  { pfm with m_fmdFmHdr := { pfm.m_fmdFmHdr with pvWriteBuffer := some hdr, fDirty := true } }

/-- The header in memory: the write buffer while a write is in progress. -/
def pfmfilehdrInMemory (pfm : CFlushMap) : FMFILEHDR :=
  pfm.m_fmdFmHdr.pvWriteBuffer.getD pfm.m_fmdFmHdr.pv

/-! ## I/O -/

/-- `ErrPrepareFmPageForWrite_` of a data page, asynchronous. -/
def prepareFmDataPageForWrite (pfm : CFlushMap) (fmpgno : Int) : CFlushMap :=
  let fmd := pfm.m_rgfmd fmpgno
  { pfm.setFmd fmpgno { fmd with
      pvWriteBuffer := some fmd.pv
      fAsyncWriteInProgress := true
      errAsyncWrite := JET_errSuccess
      fDirty := false } with
    m_msSectionFlush := pfm.m_msSectionFlush + 1 }

/-- `ErrPrepareFmPageForWrite_` of the header, whose write buffer has its current contents. -/
def prepareFmHdrForWrite (pfm : CFlushMap) : CFlushMap :=
  { pfm with
    m_fmdFmHdr := { pfm.m_fmdFmHdr with
      fAsyncWriteInProgress := true
      errAsyncWrite := JET_errSuccess
      fDirty := false }
    m_msSectionFlush := pfm.m_msSectionFlush + 1 }

/-- `ErrWriteIoComplete_` of a data page, asynchronous. -/
def writeIoCompleteFmDataPage (pfm : CFlushMap) (fmpgno : Int) (errIo : Int) : CFlushMap :=
  let fmd := pfm.m_rgfmd fmpgno
  let fmd := if errIo ≥ JET_errSuccess then fmd
    else { fmd with errAsyncWrite := errIo, fDirty := true }
  { pfm.setFmd fmpgno { fmd with pvWriteBuffer := none, fAsyncWriteInProgress := false } with
    m_msSectionFlush := pfm.m_msSectionFlush - 1 }

/-- `ErrWriteIoComplete_` of the header, asynchronous. Its `pv` is what has been written. -/
def writeIoCompleteFmHdr (pfm : CFlushMap) (errIo : Int) : CFlushMap :=
  let fmd := pfm.m_fmdFmHdr
  let fmd :=
    if errIo ≥ JET_errSuccess then
      { fmd with pv := pfm.pfmfilehdrInMemory, fRecentlyAsyncWrittenHeader := true }
    else { fmd with errAsyncWrite := errIo, fDirty := true }
  { pfm with
    m_fmdFmHdr := { fmd with fAsyncWriteInProgress := false }
    m_msSectionFlush := pfm.m_msSectionFlush - 1 }

/-- `ErrAsyncWriteFmPage_` of a data page; `errIo` is the error of its preparation or of issuing
it. -/
def errAsyncWriteFmDataPage (errIo : Int) (pfm : CFlushMap) (fmpgno : Int) : CFlushMap :=
  let pfm := pfm.prepareFmDataPageForWrite fmpgno
  if errIo < JET_errSuccess then pfm.writeIoCompleteFmDataPage fmpgno errIo else pfm

/-- `ErrAsyncWriteFmPage_` of the header. -/
def errAsyncWriteFmHdr (errIo : Int) (pfm : CFlushMap) : CFlushMap :=
  let pfm := pfm.prepareFmHdrForWrite
  if errIo < JET_errSuccess then pfm.writeIoCompleteFmHdr errIo else pfm

/-! ## FlushOneSection_ -/

/-- The sweep goes on at `pc`. -/
def goto (pfm : CFlushMap) (pc : Pc) : CFlushMap := { pfm with pc := pc }

/-- The asynchronous write of the header and the jump to `HandleError`. -/
def flushHdr (errIo : Int) (pfm : CFlushMap) : CFlushMap :=
  let pfm := pfm.errAsyncWriteFmHdr errIo
  if errIo < JET_errSuccess then pfm.goto (.HandleError errIo s_fmpgnoUninit s_fmpgnoUninit 0)
  else pfm.goto (.HandleError errIo s_fmpgnoHdr s_fmpgnoHdr 1)

/-- The start of a sweep: the target is recorded. -/
def startFlush (errIo : Int) (pfm : CFlushMap) : CFlushMap :=
  let hdr := pfm.pfmfilehdrInMemory
  let lGenMinRequiredTargetNew := max pfm.lGenMinConsistent hdr.lGenMinRequired
  (pfm.setHdr { hdr with lGenMinRequiredTarget := lGenMinRequiredTargetNew }).flushHdr errIo

/-- The end of a sweep, which writes the header a last time. -/
def finishFlush (errIo : Int) (pfm : CFlushMap) : CFlushMap :=
  let hdr := pfm.pfmfilehdrInMemory
  let pfm := pfm.setHdr ⟨hdr.lGenMinRequiredTarget, 0⟩
  let pfm := pfm.flushHdr errIo
  if errIo < JET_errSuccess then pfm else { pfm with m_fSectionCheckpointHeaderWrite := true }

/-- The entry, up to the first page check. -/
def enter (errIo : Int) (pfm : CFlushMap) : CFlushMap :=
  if pfm.m_fmpgnoSectionFlushNext = s_fmpgnoHdr then pfm.flushHdr errIo
  else if pfm.m_fmpgnoSectionFlushNext = s_fmpgnoUninit then pfm.startFlush errIo
  else pfm.goto (.FindFirst pfm.m_fmpgnoSectionFlushNext)

/-- A check of the loop for the first valid dirty page, and what follows it at the end of the
map. -/
def findFirst (errIo errFlush : Int) (pfm : CFlushMap) (fmpgnoSectionFlushFirst : Int) :
    CFlushMap :=
  if fmpgnoSectionFlushFirst ≤ pfm.fmpgnoUsedMax then
    let pfmd := pfm.m_rgfmd fmpgnoSectionFlushFirst
    if ¬ pfmd.fDirty then pfm.goto (.FindFirst (fmpgnoSectionFlushFirst + 1))
    else if pfmd.fValid then
      pfm.goto (.Flush JET_errSuccess fmpgnoSectionFlushFirst (fmpgnoSectionFlushFirst - 1)
        fmpgnoSectionFlushFirst 0)
    else pfm.goto (.FindFirst (fmpgnoSectionFlushFirst + 1))
  else if pfm.m_fmdFmHdr.fRecentlyAsyncWrittenHeader then
    if errFlush < JET_errSuccess then
      pfm.goto (.HandleError errFlush fmpgnoSectionFlushFirst s_fmpgnoUninit 0)
    else
      { pfm with m_fmdFmHdr := {
        pfm.m_fmdFmHdr with fRecentlyAsyncWrittenHeader := false } }.finishFlush errIo
  else pfm.finishFlush errIo

/-- A check of the loop over the pages of the section. -/
def flush (pfm : CFlushMap) (err : Int)
    (fmpgnoSectionFlushFirst fmpgnoSectionFlushLast fmpgnoSectionFlushCheck : Int)
    (cfmpgAsyncWrite : Int) : CFlushMap :=
  let pfmd := pfm.m_rgfmd fmpgnoSectionFlushCheck
  let handleError :=
    pfm.goto (.HandleError err fmpgnoSectionFlushFirst fmpgnoSectionFlushLast cfmpgAsyncWrite)
  if fmpgnoSectionFlushCheck ≤ pfm.fmpgnoUsedMax
      ∧ fmpgnoSectionFlushCheck - fmpgnoSectionFlushFirst + 1 ≤ pfm.cfmpgWriteMax then
    if ¬ pfmd.fValid then handleError
    else if pfmd.fDirty then
      pfm.goto (.Write err fmpgnoSectionFlushFirst fmpgnoSectionFlushLast fmpgnoSectionFlushCheck
        (fmpgnoSectionFlushLast + 1) cfmpgAsyncWrite)
    else if fmpgnoSectionFlushCheck - fmpgnoSectionFlushLast > pfm.cfmpgWriteGapMax then handleError
    else
      pfm.goto (.Flush err fmpgnoSectionFlushFirst fmpgnoSectionFlushLast
        (fmpgnoSectionFlushCheck + 1)
        cfmpgAsyncWrite)
  else handleError

/-- A check of the loop that writes the pages up to the dirty one. -/
def write (errIo : Int) (pfm : CFlushMap) (err : Int)
    (fmpgnoSectionFlushFirst fmpgnoSectionFlushLast fmpgnoSectionFlushCheck
    fmpgnoSectionFlush : Int)
    (cfmpgAsyncWrite : Int) : CFlushMap :=
  if fmpgnoSectionFlush ≤ fmpgnoSectionFlushCheck then
    let pfm := pfm.errAsyncWriteFmDataPage errIo fmpgnoSectionFlush
    if errIo < JET_errSuccess then
      pfm.goto (.HandleError errIo fmpgnoSectionFlushFirst fmpgnoSectionFlushLast cfmpgAsyncWrite)
    else
      pfm.goto (.Write errIo fmpgnoSectionFlushFirst fmpgnoSectionFlush fmpgnoSectionFlushCheck
        (fmpgnoSectionFlush + 1) (cfmpgAsyncWrite + 1))
  else
    pfm.goto (.Flush err fmpgnoSectionFlushFirst fmpgnoSectionFlushLast
      (fmpgnoSectionFlushCheck + 1)
      cfmpgAsyncWrite)

/-- `HandleError`: with writes under way the thread leaves its sentinel and keeps the latch. -/
def handleError (pfm : CFlushMap) (err : Int) (fmpgnoSectionFlushFirst fmpgnoSectionFlushLast : Int)
    (cfmpgAsyncWrite : Int) : CFlushMap :=
  let pfm := { pfm with
    m_errSectionFlushWriteLastError := err
    m_msSectionFlush := pfm.m_msSectionFlush - 1 }
  if cfmpgAsyncWrite > 0 then
    { pfm with
      m_fmpgnoSectionFlushFirst := fmpgnoSectionFlushFirst
      m_fmpgnoSectionFlushLast := fmpgnoSectionFlushLast
      pc := .Partitioned }
  else pfm.goto .Idle

/-- The next step of the thread inside `FlushOneSection_`. `errIo` is the error of the write it
issues, if any, and `errFlush` that of `ErrUtilFlushFileBuffers`. -/
def flushOneSection (errIo errFlush : Int) (pfm : CFlushMap) : Option CFlushMap :=
  match pfm.pc with
  | .Idle | .Partitioned => none
  | .Enter => some (pfm.enter errIo)
  | .FindFirst fmpgnoSectionFlushFirst =>
    some (pfm.findFirst errIo errFlush fmpgnoSectionFlushFirst)
  | .Flush err fmpgnoSectionFlushFirst fmpgnoSectionFlushLast fmpgnoSectionFlushCheck
      cfmpgAsyncWrite =>
    some (pfm.flush err fmpgnoSectionFlushFirst fmpgnoSectionFlushLast fmpgnoSectionFlushCheck
      cfmpgAsyncWrite)
  | .Write err fmpgnoSectionFlushFirst fmpgnoSectionFlushLast fmpgnoSectionFlushCheck
      fmpgnoSectionFlush
      cfmpgAsyncWrite =>
    some (pfm.write errIo err fmpgnoSectionFlushFirst fmpgnoSectionFlushLast fmpgnoSectionFlushCheck
      fmpgnoSectionFlush cfmpgAsyncWrite)
  | .HandleError err fmpgnoSectionFlushFirst fmpgnoSectionFlushLast cfmpgAsyncWrite =>
    some (pfm.handleError err fmpgnoSectionFlushFirst fmpgnoSectionFlushLast cfmpgAsyncWrite)

/-! ## CompleteOneSectionFlush_ -/

/-- The result of the last asynchronous write of a page. -/
def errAsyncWrite (pfm : CFlushMap) (fmpgno : Int) : Int :=
  if fmpgno = s_fmpgnoHdr then pfm.m_fmdFmHdr.errAsyncWrite else (pfm.m_rgfmd fmpgno).errAsyncWrite

/-- The loop over the `n` pages of the section from `fmpgno`: where it stops. -/
def completeLoop (pfm : CFlushMap) : Nat → Int → Int
  | 0, fmpgno => fmpgno
  | n + 1, fmpgno =>
    if pfm.errAsyncWrite fmpgno < JET_errSuccess then fmpgno
    else completeLoop pfm n (if fmpgno = s_fmpgnoHdr then 0 else fmpgno + 1)

/-- `CompleteOneSectionFlush`: what the completed write of a section leaves. -/
def completeOneSectionFlush (pfm : CFlushMap) : CFlushMap :=
  let fmpgno := pfm.completeLoop
    (pfm.m_fmpgnoSectionFlushLast + 1 - pfm.m_fmpgnoSectionFlushFirst).toNat
    pfm.m_fmpgnoSectionFlushFirst
  let errSectionFlushWriteLastError :=
    if fmpgno ≤ pfm.m_fmpgnoSectionFlushLast ∧ pfm.m_errSectionFlushWriteLastError ≥ JET_errSuccess
      then
      pfm.errAsyncWrite fmpgno
    else pfm.m_errSectionFlushWriteLastError
  let fFailureSeen := errSectionFlushWriteLastError < JET_errSuccess
  let fSuccessfullyCompletedCheckpoint := pfm.m_fSectionCheckpointHeaderWrite ∧ ¬ fFailureSeen
  { pfm with
    m_errSectionFlushWriteLastError := errSectionFlushWriteLastError
    m_fmpgnoSectionFlushFirst := s_fmpgnoUninit
    m_fmpgnoSectionFlushLast := s_fmpgnoUninit
    m_fmpgnoSectionFlushNext := if fSuccessfullyCompletedCheckpoint then s_fmpgnoUninit else fmpgno
    m_fSectionCheckpointHeaderWrite :=
      if fSuccessfullyCompletedCheckpoint then false else pfm.m_fSectionCheckpointHeaderWrite
    pc := .Idle }

/-! ## Steps -/

/-- What runs concurrently. -/
inductive Op where
  /-- A caller takes the section latch and enters `FlushOneSection_`, with its sentinel. -/
  | FlushOneSection_
  /-- The thread inside `FlushOneSection_` goes on. -/
  | Continue (errIo errFlush : Int)
  | OsWriteIoComplete_ (fmpgno : Int) (errIo : Int)
  | CompleteOneSectionFlush_
  | SetPgnoFlushType (pgno : Nat) (pgft : PageFlushType) (dbtime : Nat)
  /-- The checkpoint advances. -/
  | SetGenMinConsistent (lGenMinConsistent : Int)

/-- A step, where its operation can run. -/
def step (op : Op) (pfm : CFlushMap) : Option CFlushMap :=
  match op with
  | .FlushOneSection_ =>
    if pfm.pc = .Idle then some { pfm with m_msSectionFlush := pfm.m_msSectionFlush + 1,
                                           pc := .Enter } else none
  | .Continue errIo errFlush => pfm.flushOneSection errIo errFlush
  | .OsWriteIoComplete_ fmpgno errIo =>
    if fmpgno = s_fmpgnoHdr then
      if pfm.m_fmdFmHdr.fAsyncWriteInProgress then some (pfm.writeIoCompleteFmHdr errIo) else none
    else if 0 ≤ fmpgno ∧ fmpgno ≤ pfm.fmpgnoUsedMax ∧ (pfm.m_rgfmd fmpgno).fAsyncWriteInProgress
      then
      some (pfm.writeIoCompleteFmDataPage fmpgno errIo)
    else none
  | .CompleteOneSectionFlush_ =>
    if pfm.pc = .Partitioned ∧ pfm.m_msSectionFlush = 0 then some pfm.completeOneSectionFlush
    else none
  | .SetPgnoFlushType pgno pgft dbtime =>
    let fmpgno : Int := pgno / m_cDbPagesPerFlushMapPage
    let fmd := pfm.m_rgfmd fmpgno
    -- the errors are ignored
    if fmpgno > pfm.fmpgnoUsedMax ∨ ¬ fmd.fValid then some pfm
    else some (pfm.setFmd fmpgno { fmd with pv := setPgnoFlushType fmd.pv pgno pgft dbtime,
                                            fDirty := true })
  | .SetGenMinConsistent lGenMinConsistent =>
    some { pfm with lGenMinConsistent := lGenMinConsistent }

end CFlushMap

end Ese.FlushMap
