import Mathlib.Algebra.Ring.Nat
import Mathlib.Data.List.DropRight
import Mathlib.Logic.Function.Basic
import Ese.Lib.Run

/-!
# The segment manager of the journal

The journal of the block cache is a ring of segments in a file. A segment position only grows; the
segment manager keeps the first and the last position of the visible journal, and places a position
on the ring relative to the last one. Each segment records, when it is created, the replay and the
durable position of that moment. The first segment a recovery needs is then not the replay position
but the replay position recorded in the durable segment, and that is what the manager keeps free.

The file is a map from offsets to the headers of the segments sealed there. Loading a segment,
creating one and the allocations may fail at any call.
-/

namespace Ese.Journal

/-- The size of a segment, `cbBlock`. -/
def cbJournalSegment : Nat := 4096

def cbJournalFull : Nat := 3 * cbJournalSegment
def cbJournalFullAndDurable : Nat := 2 * cbJournalSegment

/-- `llMax`. -/
def sposInvalid : Nat := 2 ^ 63 - 1

/-- The tags of `ErrBlockCacheInternalError`. -/
inductive SzTag
  | JournalFullUnrecoverable
  | JournalReplayPointerLTFirst
  | JournalSegmentIllegalOffset
  | JournalFragmentTooSmall
  | JournalFragmentInvalidSequence
  | JournalFragmentInvalidSize
  | JournalFlushFailure
  deriving DecidableEq, Repr

/-- The errors of the journal. -/
inductive ERR
  | JET_errInvalidParameter
  | JET_errDiskFull
  | JET_errOutOfMemory
  | blockCacheInternalError (szTag : SzTag)
  /-- An error of the file. -/
  | io (err : Int)
  deriving DecidableEq, Repr

/-- What `CJournalSegmentHeader` says about its segment. -/
structure CJournalSegmentHeader where
  spos : Nat
  dwUniqueId : Nat
  dwUniqueIdPrev : Nat
  sposReplay : Nat
  sposDurable : Nat
  deriving DecidableEq, Repr

structure CSegmentInfo where
  sposReplay : Nat
  sposDurable : Nat
  spos : Nat
  deriving DecidableEq, Repr

/-- `m_ilSegmentInfo` runs from `PrevMost` to `NextMost`. -/
structure TJournalSegmentManager where
  m_ib : Nat
  m_cb : Nat
  m_sposFirst : Nat
  m_ibLast : Nat
  m_sposLast : Nat
  m_sposUniqueIdPrev : Nat
  m_dwUniqueIdPrev : Nat
  m_sposReplayMax : Nat
  m_sposDurableMax : Nat
  m_ilSegmentInfo : List CSegmentInfo
  deriving DecidableEq, Repr

/-- How one call fares outside the manager: what each offset loads as, the unique id of the segment
it creates, and whether its two allocations succeed. -/
structure SegmentIO where
  errLoad : Nat → Except Int CJournalSegmentHeader
  errCreate : Except Int Nat
  fAllocDurable : Bool
  fAllocAppend : Bool

namespace TJournalSegmentManager

variable (pjsm : TJournalSegmentManager)

/-- `ErrInitEmptyJournal`, past its I/O: the first segment is at the start of the ring, and no
position is less than the size of the ring. -/
def errInitEmptyJournal (ib cb dwUniqueId : Nat) : TJournalSegmentManager × CJournalSegmentHeader :=
  ({ m_ib := ib
     m_cb := cb
     m_sposFirst := cb
     m_ibLast := ib
     m_sposLast := cb
     m_sposUniqueIdPrev := cb
     m_dwUniqueIdPrev := dwUniqueId
     m_sposReplayMax := cb
     m_sposDurableMax := cb
     m_ilSegmentInfo := [] },
   { spos := cb, dwUniqueId, dwUniqueIdPrev := 0, sposReplay := cb, sposDurable := cb })

/-- `ErrGetSegmentOffset`. -/
def errGetSegmentOffset (spos : Nat) : Except ERR Nat :=
  let ib : Int := pjsm.m_ibLast - ((pjsm.m_sposLast : Int) - spos)
  let ib := if ib < pjsm.m_ib then ib + pjsm.m_cb else ib
  let ib := if ib ≥ pjsm.m_ib + pjsm.m_cb then ib - pjsm.m_cb else ib
  if ib < pjsm.m_ib ∨ ib ≥ pjsm.m_ib + pjsm.m_cb then
    .error (.blockCacheInternalError .JournalSegmentIllegalOffset)
  else .ok ib.toNat

/-- The parameters `ErrAppendSegment` rejects. -/
def fReject (spos sposReplay sposDurable : Nat) : Bool :=
  spos = sposInvalid ∨ spos < pjsm.m_cb ∨ spos ≤ pjsm.m_sposDurableMax ∨
    spos > pjsm.m_sposLast + cbJournalSegment ∨
    sposDurable = sposInvalid ∨ sposDurable < pjsm.m_sposDurableMax ∨ sposDurable ≥ spos ∨
    sposReplay = sposInvalid ∨ sposReplay < pjsm.m_sposReplayMax ∨ sposReplay > sposDurable

/-- `info` inserted after the last entry that is not past it. -/
def insertInfo (info : CSegmentInfo) (il : List CSegmentInfo) : List CSegmentInfo :=
  il.rdropWhile (fun i => info.spos < i.spos) ++ info :: il.rtakeWhile fun i => info.spos < i.spos

/-- `info` inserted likewise, in the place of an entry at its own position. -/
def replaceInfo (info : CSegmentInfo) (il : List CSegmentInfo) : List CSegmentInfo :=
  let ilLE := il.rdropWhile fun i => info.spos < i.spos
  (if ilLE.getLast?.map (·.spos) = some info.spos then ilLE.dropLast else ilLE) ++
    info :: il.rtakeWhile fun i => info.spos < i.spos

/-- What `ErrAppendSegment` knows of the durable segment: from its list, or else from the file. -/
def errFindDurable (io : SegmentIO) (sposDurable : Nat) :
    Except ERR CSegmentInfo × TJournalSegmentManager :=
  match pjsm.m_ilSegmentInfo.find? (·.spos = sposDurable) with
  | some info => (.ok info, pjsm)
  | none =>
    match pjsm.errGetSegmentOffset sposDurable with
    | .error err => (.error err, pjsm)
    | .ok ibDurable =>
      match io.errLoad ibDurable with
      | .error err => (.error (.io err), pjsm)
      | .ok jsDurable =>
        if io.fAllocDurable then
          let info : CSegmentInfo := ⟨jsDurable.sposReplay, jsDurable.sposDurable, sposDurable⟩
          (.ok info, { pjsm with m_ilSegmentInfo := insertInfo info pjsm.m_ilSegmentInfo })
        else (.error .JET_errOutOfMemory, pjsm)

/-- The bytes of the ring that hold no visible segment, as a `QWORD`. -/
def cbAvailable : Nat :=
  let cbUsed := pjsm.m_sposLast - pjsm.m_sposFirst + cbJournalSegment
  if cbUsed ≤ pjsm.m_cb then pjsm.m_cb - cbUsed else pjsm.m_cb + 2 ^ 64 - cbUsed

/-- Whether it is safe to add a segment without running out of space. -/
def errCheckSpace (sposReplay sposDurable : Nat) : Option ERR :=
  if pjsm.cbAvailable ≤ cbJournalFull ∧ sposDurable ≤ pjsm.m_sposDurableMax then
    some .JET_errDiskFull
  else if pjsm.cbAvailable = cbJournalFullAndDurable ∧ sposReplay ≤ pjsm.m_sposReplayMax then
    some .JET_errDiskFull
  else if pjsm.cbAvailable ≤ 0 ∨ pjsm.cbAvailable > pjsm.m_cb then
    some (.blockCacheInternalError .JournalFullUnrecoverable)
  else none

/-- The unique id of the segment before the new one. -/
def errFindUniqueIdPrev (io : SegmentIO) (sposPrev : Nat) :
    Except ERR Unit × TJournalSegmentManager :=
  if pjsm.m_sposUniqueIdPrev ≠ sposPrev then
    match pjsm.errGetSegmentOffset sposPrev with
    | .error err => (.error err, pjsm)
    | .ok ibPrev =>
      match io.errLoad ibPrev with
      | .error err => (.error (.io err), pjsm)
      | .ok jsPrev =>
        (.ok (), { pjsm with m_sposUniqueIdPrev := sposPrev,
                             m_dwUniqueIdPrev := jsPrev.dwUniqueId })
  else (.ok (), pjsm)

/-- The manager after a segment was created at the offset `ib`. -/
def appended (ib spos sposReplay sposDurable dwUniqueId : Nat) (pseginfoDurable : CSegmentInfo) :
    TJournalSegmentManager :=
  { pjsm with
    m_sposFirst := pseginfoDurable.sposReplay
    m_ibLast := if spos > pjsm.m_sposLast then ib else pjsm.m_ibLast
    m_sposLast := max pjsm.m_sposLast spos
    m_sposUniqueIdPrev := spos
    m_dwUniqueIdPrev := dwUniqueId
    m_sposReplayMax := max pjsm.m_sposReplayMax sposReplay
    m_sposDurableMax := max pjsm.m_sposDurableMax sposDurable
    m_ilSegmentInfo := replaceInfo ⟨sposReplay, sposDurable, spos⟩
      (pjsm.m_ilSegmentInfo.dropWhile (·.spos < sposDurable)) }

/-- `ErrAppendSegment`: the offset and the header of the segment it creates, or an error. A failed
call may have learnt of the durable segment. -/
def errAppendSegment (io : SegmentIO) (spos sposReplay sposDurable : Nat) :
    Except ERR (Nat × CJournalSegmentHeader) × TJournalSegmentManager :=
  if pjsm.fReject spos sposReplay sposDurable then (.error .JET_errInvalidParameter, pjsm)
  else
    match pjsm.errGetSegmentOffset spos with
    | .error err => (.error err, pjsm)
    | .ok ib =>
      match pjsm.errFindDurable io sposDurable with
      | (.error err, pjsm) => (.error err, pjsm)
      | (.ok pseginfoDurable, pjsm) =>
        match pjsm.errCheckSpace sposReplay sposDurable with
        | some err => (.error err, pjsm)
        | none =>
          match pjsm.errFindUniqueIdPrev io (spos - cbJournalSegment) with
          | (.error err, pjsm) => (.error err, pjsm)
          | (.ok (), pjsm) =>
            match io.errCreate with
            | .error err => (.error (.io err), pjsm)
            | .ok dwUniqueId =>
              if !io.fAllocAppend then (.error .JET_errOutOfMemory, pjsm)
              else if pjsm.m_sposFirst > pseginfoDurable.sposReplay then
                (.error (.blockCacheInternalError .JournalReplayPointerLTFirst), pjsm)
              else
                (.ok (ib, ⟨spos, dwUniqueId, pjsm.m_dwUniqueIdPrev, sposReplay, sposDurable⟩),
                  pjsm.appended ib spos sposReplay sposDurable dwUniqueId pseginfoDurable)

end TJournalSegmentManager

/-! ## The ring in use -/

/-- The manager with the file below it, the append position that the journal keeps, and the segments
created and not yet sealed. -/
structure Ring where
  pjsm : TJournalSegmentManager
  m_sposAppend : Nat
  file : Nat → Option CJournalSegmentHeader
  unsealed : List (Nat × CJournalSegmentHeader)

/-- `ErrGetAppendSegment` where it makes a new append segment. The append position advances only
once there is memory for the `CSegment`; without it the segment that the manager created is dropped,
and the manager keeps what it noted of it. -/
def Ring.errGetAppendSegment (rng : Ring) (io : SegmentIO) (fAllocSegment : Bool)
    (sposReplay sposDurable : Nat) : Ring :=
  let sposAppend := rng.m_sposAppend + cbJournalSegment
  match rng.pjsm.errAppendSegment io sposAppend sposReplay sposDurable with
  | (.error _, pjsm) => { rng with pjsm }
  | (.ok js, pjsm) =>
    if fAllocSegment then
      { rng with pjsm, m_sposAppend := sposAppend, unsealed := rng.unsealed ++ [js] }
    else { rng with pjsm }

inductive RingOp
  /-- A call of `ErrAppendSegment` as `ErrGetAppendSegment` issues it. -/
  | append (io : SegmentIO) (fAllocSegment : Bool) (sposReplay sposDurable : Nat)
  /-- The end of a seal: the segment is on the file, or its place is damaged. -/
  | sealed (ib : Nat) (jsh : CJournalSegmentHeader) (fSuccess : Bool)

/-- What a step may do. The caller passes segment positions, and a load that succeeds finds what is
on the file. -/
inductive Ring.Step : RingOp → Ring → Ring → Prop
  | append {rng : Ring} {io : SegmentIO} (fAllocSegment : Bool) {sposReplay sposDurable : Nat}
      (hload : ∀ ib jsh, io.errLoad ib = .ok jsh → rng.file ib = some jsh)
      (hreplay : cbJournalSegment ∣ sposReplay) (hdurable : cbJournalSegment ∣ sposDurable) :
      Step (.append io fAllocSegment sposReplay sposDurable) rng
        (rng.errGetAppendSegment io fAllocSegment sposReplay sposDurable)
  | sealed {rng : Ring} {ib : Nat} {jsh : CJournalSegmentHeader} (fSuccess : Bool)
      (hmem : (ib, jsh) ∈ rng.unsealed) :
      Step (.sealed ib jsh fSuccess) rng
        { rng with
          file := Function.update rng.file ib (if fSuccess then some jsh else none)
          unsealed := rng.unsealed.erase (ib, jsh) }

/-- The ring that `ErrInitEmptyJournal` leaves: its first segment is sealed. -/
def Ring.empty (ib cb dwUniqueId : Nat) (file : Nat → Option CJournalSegmentHeader) : Ring where
  pjsm := (TJournalSegmentManager.errInitEmptyJournal ib cb dwUniqueId).1
  m_sposAppend := cb
  file := Function.update file ib
    (some (TJournalSegmentManager.errInitEmptyJournal ib cb dwUniqueId).2)
  unsealed := []

end Ese.Journal
