import Ese.Journal.Entry
import Ese.Journal.Waiters

/-!
# The journal and its callers

Any number of calls of `ErrAppendEntry` and `ErrFlush` share the journal. A call runs from one
critical section to the next; in between it waits for one of its waiters, seals segments or flushes
the file. Each critical section is a step, and so is each completion of a seal or of a flush. The
waiters that a critical section completes after it has left the lock are completed in the same step.

Of an entry it is kept which segments its fragments went to. Beside the journal stands what
happened: the seals that were completed, the segments that a flush has covered, the entries that
were appended and those that a flush has promised.
-/

namespace Ese.Journal

/-- `CSegment`. -/
structure CSegment where
  m_spos : Nat
  m_cbEntryAppended : Nat
  m_fSealed : Bool
  m_errSeal : Option ERR
  deriving DecidableEq, Repr

/-- What `ErrAppendSegment` records in the header of a new segment. -/
structure SegmentHeader where
  spos : Nat
  sposReplay : Nat
  sposDurable : Nat
  deriving DecidableEq, Repr

/-- The positions and the segments of the journal. `hdrMount` is the last segment at the mount, and
`rghdr` are those that were created since. -/
structure Segments where
  m_err : Option ERR
  m_sposReplay : Nat
  m_sposDurableForWriteback : Nat
  m_sposDurable : Nat
  m_sposSealed : Nat
  m_sposAppend : Nat
  m_fFull : Bool
  m_ilSegmentsToSeal : List CSegment
  m_ilSegmentsSealStarting : List CSegment
  m_ilSegmentsSealPending : List CSegment
  m_ilSegmentsSealCompleted : List CSegment
  m_ilSegmentsSealed : List CSegment
  m_ilSegmentsSealFailed : List CSegment
  hdrMount : SegmentHeader
  rghdr : List SegmentHeader
  deriving DecidableEq, Repr

/-- `m_pwaiterAppender`, `m_ilWaitersForAppend` and the calls whose waiters were completed. -/
structure Appender where
  m_pwaiterAppender : Option Nat
  m_ilWaitersForAppend : List Nat
  rgcomplete : List Nat
  deriving DecidableEq, Repr

/-- The state that `m_crit` protects. -/
structure TJournal where
  m_cbCache : Nat
  m_pctCacheAvailWriteBack : Nat
  segments : Segments
  appender : Appender
  /-- The waiters for a seal. -/
  sealer : Election
  /-- The waiters for a flush. -/
  flusher : Election
  deriving DecidableEq, Repr

/-! ## Segments -/

/-- One turn of the loop of `ErrAppendEntry`: what `ErrAppendSegment`, `ErrIsFull` and
`ErrAppendRegion` return if they are called. -/
structure Turn where
  errAppendSegment : Option ERR
  fFull : Bool
  errAppendRegion : Option ERR
  cbActual : Nat
  deriving DecidableEq, Repr

namespace Segments

variable (segs : Segments)

/-- The journal is down. -/
def fDown : Bool := segs.m_err.isSome

/-- `ErrGetAppendSegment`. -/
def errGetAppendSegment (fForceNewSegment : Bool) (turn : Turn) : Option ERR × Segments :=
  if segs.m_ilSegmentsToSeal = [] ∨ fForceNewSegment then
    let sposAppend := segs.m_sposAppend + cbJournalSegment
    match turn.errAppendSegment with
    | some err => (some err, { segs with m_fFull := segs.m_fFull || err = .JET_errDiskFull })
    | none =>
      (none,
        { segs with
          m_sposAppend := sposAppend
          m_ilSegmentsToSeal := segs.m_ilSegmentsToSeal ++ [⟨sposAppend, 0, false, none⟩]
          m_fFull := turn.fFull
          rghdr := segs.rghdr ++ [⟨sposAppend, segs.m_sposReplay, segs.m_sposDurable⟩] })
  else (none, segs)

/-- `CSegment::ErrAppendRegion`: the bytes past the header of the fragment are counted, in 32
bits. -/
def appendRegion (cbActual : Nat) : Segments :=
  { segs with
    m_ilSegmentsToSeal := segs.m_ilSegmentsToSeal.dropLast ++
      segs.m_ilSegmentsToSeal.getLast?.toList.map fun psegment =>
        { psegment with
          m_cbEntryAppended :=
            (psegment.m_cbEntryAppended + (cbActual + 2 ^ 32 - cbJournalEntryFragment)) % 2 ^ 32 } }

/-- The loop of `ErrAppendEntry`: its result with the segments of the fragments, and the journal.
`fPlaced` tells that `jpos` is valid. `none`: the turns are not those of a whole call. -/
def errAppendFragments (cbEntry : Nat) :
    List Turn → Segments → Nat → Bool → Bool → List Nat → Option (Except ERR (List Nat) × Segments)
  | [], segs, ibEntry, _, fPlaced, rgspos =>
    if ibEntry < cbEntry ∨ !fPlaced then none else some (.ok rgspos, segs)
  | turn :: rgturn, segs, ibEntry, fForceNewSegment, fPlaced, rgspos =>
    if ibEntry < cbEntry ∨ !fPlaced then
      match segs.errGetAppendSegment fForceNewSegment turn with
      | (some err, segs) => some (.error err, segs)
      | (none, segs) =>
        let rgspos := rgspos ++ (segs.m_ilSegmentsToSeal.getLast?.map (·.m_spos)).toList
        let segs := segs.appendRegion turn.cbActual
        match turn.errAppendRegion with
        | some err => some (.error err, segs)
        | none =>
          let cbEntryAppended :=
            if turn.cbActual = 0 then 0 else turn.cbActual - cbJournalEntryFragment
          errAppendFragments cbEntry rgturn segs (ibEntry + cbEntryAppended)
            (cbEntryAppended < cbEntry - ibEntry)
            (if ibEntry = 0 then turn.cbActual ≠ 0 else fPlaced) rgspos
    else none

/-- `ErrAppendEntry` from the point on where the call is the appender and has waited for room in the
cache. -/
def errAppendEntry (cbEntry : Nat) (rgturn : List Turn) :
    Option (Except ERR (List Nat) × Segments) :=
  if segs.m_fFull ∧ cbEntry ≠ 0 then some (.error .JET_errDiskFull, segs)
  else
    match segs.m_err with
    | some err => some (.error err, segs)
    | none => errAppendFragments cbEntry rgturn segs 0 false false []

/-- The first critical section of `SealSegments`. -/
def captureSegments (spos : Nat) : Segments :=
  let sposSealed := min spos segs.m_sposAppend
  { segs with
    m_ilSegmentsToSeal := segs.m_ilSegmentsToSeal.filter fun psegment => ¬psegment.m_spos ≤
      sposSealed
    m_ilSegmentsSealStarting := segs.m_ilSegmentsSealStarting ++
      segs.m_ilSegmentsToSeal.filter fun psegment => psegment.m_spos ≤ sposSealed }

/-- `psegment` inserted after the last segment that is not past it. -/
def insertSegment (psegment : CSegment) (il : List CSegment) : List CSegment :=
  il.rdropWhile (fun segment => psegment.m_spos < segment.m_spos) ++
    psegment :: il.rtakeWhile fun segment => psegment.m_spos < segment.m_spos

/-- The loop of `Sealed` that advances `m_sposSealed` over the segments whose seals are
completed. -/
def advanceSealed : List CSegment → Segments → Segments
  | [], segs => { segs with m_ilSegmentsSealCompleted := [] }
  | psegmentSealed :: il, segs =>
    if psegmentSealed.m_spos = segs.m_sposSealed + cbJournalSegment then
      advanceSealed il
        { segs with
          m_ilSegmentsSealed := if psegmentSealed.m_errSeal = none then
              segs.m_ilSegmentsSealed ++ [psegmentSealed]
            else segs.m_ilSegmentsSealed
          m_ilSegmentsSealFailed := if psegmentSealed.m_errSeal = none
            then segs.m_ilSegmentsSealFailed
            else segs.m_ilSegmentsSealFailed ++ [psegmentSealed]
          m_err := segs.m_err.or psegmentSealed.m_errSeal
          m_sposSealed := psegmentSealed.m_spos }
    else { segs with m_ilSegmentsSealCompleted := psegmentSealed :: il }

/-- `ErrBeginSeal`: the seal of a pending segment has begun. -/
def sealBegun (psegment : CSegment) : Segments :=
  { segs with
    m_ilSegmentsSealPending := segs.m_ilSegmentsSealPending.map fun segment =>
      if segment = psegment then { segment with m_fSealed := true } else segment }

/-- `Sealed`, as far as it is about the segments: `psegment` was pending, and is `psegmentSealed`
with the error of its seal. -/
def segmentSealed (psegment psegmentSealed : CSegment) : Segments :=
  advanceSealed (insertSegment psegmentSealed segs.m_ilSegmentsSealCompleted)
    { segs with m_ilSegmentsSealPending := segs.m_ilSegmentsSealPending.erase psegment }

/-- The second critical section of `FlushSealedSegments`, as far as it is about the segments. -/
def flushed (errFlush : Option ERR) : Segments :=
  { segs with
    m_err := segs.m_err.or errFlush
    m_sposDurableForWriteback :=
      if errFlush = none then segs.m_sposDurable else segs.m_sposDurableForWriteback
    m_sposDurable := if errFlush = none then segs.m_sposSealed else segs.m_sposDurable }

end Segments

/-! ## The appender -/

namespace Appender

variable (a : Appender)

/-- `PrepareToWaitForAppend`. -/
def prepareToWaitForAppend (call : Nat) : Appender :=
  if a.m_pwaiterAppender = none then
    { a with m_pwaiterAppender := some call, rgcomplete := a.rgcomplete ++ [call] }
  else { a with m_ilWaitersForAppend := a.m_ilWaitersForAppend ++ [call] }

/-- `ReleaseAppender`, with the completion that follows it. -/
def release : Appender :=
  match a.m_ilWaitersForAppend with
  | [] => { a with m_pwaiterAppender := none }
  | call :: il =>
    { m_pwaiterAppender := some call
      m_ilWaitersForAppend := il
      rgcomplete := a.rgcomplete ++ [call] }

end Appender

/-! ## The critical sections -/

namespace TJournal

variable (j : TJournal)

/-- `roundup` and `rounddn` to a multiple of `cbJournalSegment`. -/
def roundup (cb : Nat) : Nat := (cb + cbJournalSegment - 1) / cbJournalSegment * cbJournalSegment
def rounddn (cb : Nat) : Nat := cb / cbJournalSegment * cbJournalSegment

/-- `cbEntryAppendQ`. -/
def cbEntryAppendQ (cbEntry : Nat) : Nat :=
  roundup (j.segments.m_ilSegmentsToSeal.getLast?.elim 0 (·.m_cbEntryAppended) + cbEntry)

/-- `sposWriteBack`. -/
def sposWriteBack (cbEntry : Nat) : Nat :=
  let cbCacheAvailWriteBack := rounddn (j.m_cbCache * j.m_pctCacheAvailWriteBack / 100)
  min (j.segments.m_sposAppend - cbJournalSegment)
    (j.segments.m_sposAppend + j.cbEntryAppendQ cbEntry - cbCacheAvailWriteBack)

/-- `sposFull`. -/
def sposFull (cbEntry : Nat) : Nat :=
  min j.segments.m_sposAppend
    (j.segments.m_sposAppend + j.cbEntryAppendQ cbEntry - rounddn j.m_cbCache)

/-- `PrepareToWaitForSeal`. -/
def prepareToWaitForSeal (call sposTo sposFor : Nat) : TJournal :=
  { j with
    sealer :=
      j.sealer.prepareToWait call sposTo sposFor j.segments.m_sposSealed j.segments.fDown }

/-- `PrepareToReleaseNextSealer`. -/
def prepareToReleaseNextSealer : TJournal :=
  { j with sealer := j.sealer.prepareToReleaseNext j.segments.m_sposAppend j.segments.fDown }

/-- `ReleaseSealer`. -/
def releaseSealer : TJournal :=
  { j with sealer := j.sealer.release }.prepareToReleaseNextSealer

/-- `ReleaseAppender`. -/
def releaseAppender (call : Nat) : TJournal :=
  if j.appender.m_pwaiterAppender = some call then
    { j with appender := j.appender.release }.prepareToReleaseNextSealer
  else j

/-- `PrepareToWaitForFlush`. -/
def prepareToWaitForFlush (call sposTo sposFor : Nat) : TJournal :=
  { j with
    flusher :=
      j.flusher.prepareToWait call sposTo sposFor j.segments.m_sposDurable j.segments.fDown }

/-- `PrepareToReleaseNextFlusher`. -/
def prepareToReleaseNextFlusher : TJournal :=
  { j with flusher := j.flusher.prepareToReleaseNext j.segments.m_sposSealed j.segments.fDown }

/-- `ReleaseFlusher`. -/
def releaseFlusher : TJournal :=
  { j with flusher := j.flusher.release }.prepareToReleaseNextFlusher

/-- `Sealed`. -/
def sealed (psegment psegmentSealed : CSegment) : TJournal :=
  let segments := j.segments.segmentSealed psegment psegmentSealed
  { j with segments, sealer := j.sealer.releaseWaiters segments.m_sposSealed
    }.prepareToReleaseNextFlusher

/-- The second critical section of `FlushSealedSegments`. -/
def flushSealedSegments (spos : Nat) (errFlush : Option ERR) : TJournal :=
  { j with segments := j.segments.flushed errFlush, flusher := j.flusher.releaseWaiters spos }

/-- `ReleaseSegments( &m_ilSegmentsSealed )`. -/
def releaseSegments : TJournal :=
  { j with segments := { j.segments with m_ilSegmentsSealed := [] } }

end TJournal

/-! ## The calls -/

/-- What a call is: `ErrAppendEntry` of an entry of `cbEntry` bytes, or `ErrFlush` of the segments
up to `spos`, with the entries that were appended before it. -/
inductive Caller
  | append (cbEntry : Nat)
  | flush (spos : Nat) (rgentry : List (List Nat))
  deriving DecidableEq, Repr

/-- Where a call is between two critical sections. -/
inductive Pc
  /-- `pwaiterForAppend->Wait()`. -/
  | waitForAppend
  /-- `pwaiterToSeal->Wait()`. -/
  | waitToSeal
  /-- Elected, before `SealSegments`. -/
  | sealSegments
  /-- In the loop of `SealSegments`; `psegment` is the one whose seal is about to begin. -/
  | sealStarting (errSeal : Option ERR) (psegment : Option CSegment)
  /-- Past `SealSegments`, before `ReleaseSealer`. -/
  | releaseSealer
  /-- `pwaiterForSeal->Wait()`. -/
  | waitForSeal
  /-- `pwaiterToFlush->Wait()`. -/
  | waitToFlush
  /-- Elected, past the first critical section of `FlushSealedSegments`. -/
  | flushSealedSegments (spos : Nat)
  /-- The file is being flushed. `rgspos` are the segments that were sealed when the flush started,
  and `sposSealed` is `m_sposSealed` at that time. -/
  | flushing (spos : Nat) (rgspos : List Nat) (sposSealed : Nat)
  /-- Past `FlushSealedSegments`, before `ReleaseFlusher`. -/
  | releaseFlusher
  /-- `pwaiterForFlush->Wait()`. -/
  | waitForFlush
  /-- Returned. -/
  | returned (err : Option ERR)
  deriving DecidableEq, Repr

structure Call where
  caller : Caller
  pc : Pc
  deriving DecidableEq, Repr

/-- The journal, its calls, and what happened: the seals that were completed, the segments that were
sealed without an error before a flush started that succeeded, the segments of each entry that was
appended, the entries appended before each call of `ErrFlush` that returned success, and the append
position at the last successful flush. -/
structure System where
  j : TJournal
  calls : Nat → Option Call
  rgsealed : List (Nat × Option ERR)
  rgcovered : List Nat
  rgentry : List (List Nat)
  rgpromised : List (List (List Nat))
  sposAppendFlushed : Nat

namespace System

variable (s : System)

def setPc (call : Nat) (caller : Caller) (pc : Pc) : System :=
  { s with calls := Function.update s.calls call (some ⟨caller, pc⟩) }

/-- The rest of the critical section of `ErrAppendEntry` in which it appends. -/
def append (call cbEntry : Nat) (rgturn : List Turn) : Option System :=
  match s.j.segments.errAppendEntry cbEntry rgturn with
  | none => none
  | some (res, segments) =>
    let s := { s with j := { s.j with segments }.releaseAppender call }
    match res with
    | .error err => some (s.setPc call (.append cbEntry) (.returned (some err)))
    | .ok rgspos =>
      some ({ s with rgentry := s.rgentry ++ [rgspos] }.setPc call (.append cbEntry)
        (.returned none))

/-- `WaitForAppend` from the point on where the call is the appender. -/
def waitForAppend (call cbEntry : Nat) (rgturn : List Turn) : Option System :=
  let sposFull := s.j.sposFull cbEntry
  let s := { s with
    j := s.j.prepareToWaitForSeal call (max (s.j.sposWriteBack cbEntry) sposFull) sposFull }
  if s.j.sealer.fMustWait call then some (s.setPc call (.append cbEntry) .waitToSeal)
  else s.append call cbEntry rgturn

/-- The end of `ErrFlush`. -/
def flushReturn (call spos : Nat) (rgentry : List (List Nat)) : System :=
  if s.j.segments.m_sposDurable < spos then
    s.setPc call (.flush spos rgentry) (.returned (some (s.j.segments.m_err.getD
      (.blockCacheInternalError .JournalFlushFailure))))
  else
    { s with rgpromised := s.rgpromised ++ [rgentry] }.setPc call (.flush spos rgentry)
      (.returned none)

/-- `ErrFlush` from `WaitForFlush` on. -/
def waitForFlush (call spos : Nat) (rgentry : List (List Nat)) : System :=
  if s.j.flusher.fMustWait call then s.setPc call (.flush spos rgentry) .waitToFlush
  else s.flushReturn call spos rgentry

/-! ## Steps -/

/-- A step; `rgturn` are the turns of the loop in case the step appends. -/
inductive Act
  /-- A call of `ErrAppendEntry`. -/
  | errAppendEntry (call cbEntry : Nat) (rgturn : List Turn)
  /-- Past `pwaiterForAppend->Wait()`. -/
  | appender (call : Nat) (rgturn : List Turn)
  /-- A call of `ErrFlush`. -/
  | errFlush (call : Nat)
  /-- Past `pwaiterToSeal->Wait()`. -/
  | toSeal (call : Nat)
  | captureSegments (call : Nat)
  /-- The next segment becomes pending. -/
  | sealPending (call : Nat)
  /-- `ErrBeginSeal`, with what `ErrSeal` returns. -/
  | beginSeal (call : Nat) (errSeal : Option ERR)
  /-- The end of `SealSegments`. -/
  | sealSegments (call : Nat)
  | releaseSealer (call : Nat)
  /-- Past `pwaiterForSeal->Wait()`. -/
  | forSeal (call : Nat) (rgturn : List Turn)
  /-- The seal of a segment completes. -/
  | sealed (psegment : CSegment) (err : Option ERR)
  /-- Past `pwaiterToFlush->Wait()`. -/
  | toFlush (call : Nat)
  /-- The flush of the file starts. -/
  | beginFlush (call : Nat)
  /-- The flush of the file completes. -/
  | flushed (call : Nat) (errFlush : Option ERR)
  | releaseFlusher (call : Nat)
  /-- Past `pwaiterForFlush->Wait()`. -/
  | forFlush (call : Nat)
  deriving DecidableEq, Repr

/-- The completion of the seal of a pending segment. -/
def sealCompleted (psegment : CSegment) (err : Option ERR) : System :=
  { s with
    j :=
      s.j.sealed psegment { psegment with m_fSealed := true,
                                          m_errSeal := psegment.m_errSeal.or err }
    rgsealed := s.rgsealed ++ [(psegment.m_spos, psegment.m_errSeal.or err)] }

/-- The segments whose seals were completed without an error. -/
def rgsposSealed : List Nat := (s.rgsealed.filter fun p => p.2 = none).map (·.1)

/-- The system after a step; `none` where the step cannot be taken. -/
def step : Act → Option System
  | .errAppendEntry call cbEntry rgturn =>
    if s.calls call ≠ none then none
    else if cbEntry ≥ cbEntryMax then
      some (s.setPc call (.append cbEntry) (.returned (some .JET_errInvalidParameter)))
    else
      let s := { s with j := { s.j with appender := s.j.appender.prepareToWaitForAppend call } }
      if call ∈ s.j.appender.rgcomplete then s.waitForAppend call cbEntry rgturn
      else some (s.setPc call (.append cbEntry) .waitForAppend)
  | .appender call rgturn =>
    match s.calls call with
    | some ⟨.append cbEntry, .waitForAppend⟩ =>
      if call ∈ s.j.appender.rgcomplete then s.waitForAppend call cbEntry rgturn else none
    | _ => none
  | .errFlush call =>
    if s.calls call ≠ none then none
    else
      let spos := s.j.segments.m_sposAppend
      let s := { s with
        j := (s.j.prepareToWaitForSeal call spos spos).prepareToWaitForFlush call spos spos }
      if s.j.sealer.fMustWait call then some (s.setPc call (.flush spos s.rgentry) .waitToSeal)
      else some (s.waitForFlush call spos s.rgentry)
  | .toSeal call =>
    match s.calls call with
    | some ⟨caller, .waitToSeal⟩ =>
      if call ∈ s.j.sealer.rgcompleteTo then
        some (s.setPc call caller
          (if s.j.sealer.pwaiter.map (·.call) = some call then .sealSegments else .waitForSeal))
      else none
    | _ => none
  | .captureSegments call =>
    match s.calls call with
    | some ⟨caller, .sealSegments⟩ =>
      some ({ s with j := { s.j with
          segments := s.j.segments.captureSegments s.j.sealer.sposPending } }.setPc call caller
        (.sealStarting none none))
    | _ => none
  | .sealPending call =>
    match s.calls call, s.j.segments.m_ilSegmentsSealStarting with
    | some ⟨caller, .sealStarting errSeal none⟩, psegment :: il =>
      some ({ s with j := { s.j with segments := { s.j.segments with
          m_ilSegmentsSealStarting := il
          m_ilSegmentsSealPending := s.j.segments.m_ilSegmentsSealPending ++ [psegment] } } }.setPc
        call caller (.sealStarting errSeal (some psegment)))
    | _, _ => none
  | .beginSeal call err =>
    match s.calls call with
    | some ⟨caller, .sealStarting errSeal (some psegment)⟩ =>
      match err with
      | none =>
        some ({ s with j := { s.j with segments := s.j.segments.sealBegun psegment } }.setPc call
          caller (.sealStarting errSeal none))
      | some err =>
        some ((s.sealCompleted psegment (some err)).setPc call caller
          (.sealStarting (errSeal.or (some err)) none))
    | _ => none
  | .sealSegments call =>
    match s.calls call, s.j.segments.m_ilSegmentsSealStarting with
    | some ⟨caller, .sealStarting errSeal none⟩, [] =>
      some ({ s with j := { s.j with segments := { s.j.segments with
          m_err := s.j.segments.m_err.or errSeal } } }.setPc call caller .releaseSealer)
    | _, _ => none
  | .releaseSealer call =>
    match s.calls call with
    | some ⟨caller, .releaseSealer⟩ =>
      some ({ s with j := s.j.releaseSealer }.setPc call caller .waitForSeal)
    | _ => none
  | .forSeal call rgturn =>
    match s.calls call with
    | some ⟨caller, .waitForSeal⟩ =>
      if call ∈ s.j.sealer.rgcompleteFor then
        let s := { s with j := s.j.releaseSegments }
        match caller with
        | .append cbEntry => s.append call cbEntry rgturn
        | .flush spos rgentry => some (s.waitForFlush call spos rgentry)
      else none
    | _ => none
  | .sealed psegment err =>
    if psegment ∈ s.j.segments.m_ilSegmentsSealPending ∧ psegment.m_fSealed then
      some (s.sealCompleted psegment err)
    else none
  | .toFlush call =>
    match s.calls call with
    | some ⟨.flush spos rgentry, .waitToFlush⟩ =>
      if call ∈ s.j.flusher.rgcompleteTo then
        some (s.setPc call (.flush spos rgentry)
          (if s.j.flusher.pwaiter.map (·.call) = some call then
            .flushSealedSegments s.j.flusher.sposPending
          else .waitForFlush))
      else none
    | _ => none
  | .beginFlush call =>
    match s.calls call with
    | some ⟨caller, .flushSealedSegments spos⟩ =>
      some (s.setPc call caller (.flushing spos s.rgsposSealed s.j.segments.m_sposSealed))
    | _ => none
  | .flushed call errFlush =>
    match s.calls call with
    | some ⟨caller, .flushing spos rgspos _⟩ =>
      some ({ s with
        j := s.j.flushSealedSegments spos errFlush
        rgcovered := if errFlush = none then s.rgcovered ++ rgspos else s.rgcovered
        sposAppendFlushed := if errFlush = none then s.j.segments.m_sposAppend
          else s.sposAppendFlushed }.setPc call caller .releaseFlusher)
    | _ => none
  | .releaseFlusher call =>
    match s.calls call with
    | some ⟨caller, .releaseFlusher⟩ =>
      some ({ s with j := s.j.releaseFlusher }.setPc call caller .waitForFlush)
    | _ => none
  | .forFlush call =>
    match s.calls call with
    | some ⟨.flush spos rgentry, .waitForFlush⟩ =>
      if call ∈ s.j.flusher.rgcompleteFor then some (s.flushReturn call spos rgentry) else none
    | _ => none

/-- `ErrInit`: the journal as it is mounted, with what the segment manager found. -/
def mounted (cbCache : Nat) (hdrLast : SegmentHeader) (sposReplay : Nat) (fFull : Bool) :
    System where
  j := {
    m_cbCache := max cbJournalSegment cbCache
    m_pctCacheAvailWriteBack := 50
    segments := {
      m_err := none
      m_sposReplay := sposReplay
      m_sposDurableForWriteback := hdrLast.sposDurable
      m_sposDurable := hdrLast.spos
      m_sposSealed := hdrLast.spos
      m_sposAppend := hdrLast.spos
      m_fFull := fFull
      m_ilSegmentsToSeal := []
      m_ilSegmentsSealStarting := []
      m_ilSegmentsSealPending := []
      m_ilSegmentsSealCompleted := []
      m_ilSegmentsSealed := []
      m_ilSegmentsSealFailed := []
      hdrMount := hdrLast
      rghdr := [] }
    appender := ⟨none, [], []⟩
    sealer := ⟨none, hdrLast.spos, none, [], [], []⟩
    flusher := ⟨none, hdrLast.spos, none, [], [], []⟩ }
  calls := fun _ => none
  rgsealed := []
  rgcovered := []
  rgentry := []
  rgpromised := []
  sposAppendFlushed := hdrLast.spos

/-- The steps as a relation. -/
def Step (a : Act) (s s' : System) : Prop := s.step a = some s'

end System

end Ese.Journal
