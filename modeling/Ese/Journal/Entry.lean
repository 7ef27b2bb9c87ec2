import Ese.Journal.SegmentManager
import Ese.Lib.Endian

/-!
# Journal entries

An entry of any size is appended to the journal as a sequence of fragments, each a region of a
segment: the header of a fragment holds the bytes of the entry that remain, negated from the second
fragment on. A segment gives a region as many bytes as it has room for, or none at all when the
header does not fit, and the rest of the entry goes to new segments. The visitor puts the fragments
together again from the segments alone.

What the journal meets while it appends is given for each attempt: whether the last segment is
still unsealed, whether a new one can be had, and how many bytes the segment has room for.
-/

namespace Ese.Journal

/-- `CJournalEntryFragment::cbEntryMax`, which is `lMax`. -/
def cbEntryMax : Nat := 2 ^ 31 - 1

/-- `sizeof( CJournalEntryFragment )`. -/
def cbJournalEntryFragment : Nat := 4

/-- `sizeof( CJournalRegion )`. -/
def cbJournalRegion : Nat := 4

/-- The offset of `m_rgbRegions` in a segment. -/
def ibRegionsFirst : Nat := 44

/-! ## Fragments -/

/-- The header of a fragment: the bytes of the entry that remain, as a 32-bit integer, negative
unless the fragment is the first one. -/
def fragmentHeader (fFirstFragment : Bool) (cbEntryRem : Nat) : List Byte :=
  let m_le_cbEntryOrCbEntryRem : Int := if fFirstFragment then cbEntryRem else -cbEntryRem
  leBytes 4 (m_le_cbEntryOrCbEntryRem % 2 ^ 32).toNat

/-- The integer in the header of a fragment. -/
def cbEntryOrCbEntryRem (jb : List Byte) : Int :=
  let n := leNat (jb.take cbJournalEntryFragment)
  if n < 2 ^ 31 then n else (n : Int) - 2 ^ 32

def fFirstFragment (jb : List Byte) : Bool := cbEntryOrCbEntryRem jb ≥ 0

def cbEntryRemaining (jb : List Byte) : Nat := (cbEntryOrCbEntryRem jb).natAbs

/-! ## Segments -/

/-- A region as it is visited: its positions and its payload. -/
structure Region where
  rpos : Nat
  rposEnd : Nat
  jb : List Byte
  deriving DecidableEq, Repr

structure Segment where
  spos : Nat
  rgregion : List Region
  deriving DecidableEq, Repr

/-- `m_ibRegions`. -/
def Segment.ibRegions (seg : Segment) : Nat :=
  (seg.rgregion.map fun r => cbJournalRegion + r.jb.length).sum

/-- The payload a segment takes of `cbRequested` bytes, of which `cbMin` must fit. -/
def cbPayloadActual (cbRoom cbRequested cbMin : Nat) : Nat :=
  if cbMin ≤ cbRoom then min cbRequested cbRoom else 0

/-- The region that holds the payload `jb` in a segment. -/
def Segment.newRegion (seg : Segment) (jb : List Byte) : Region where
  rpos := seg.spos + ibRegionsFirst + seg.ibRegions
  rposEnd := seg.spos + ibRegionsFirst + seg.ibRegions + cbJournalRegion + jb.length - 1
  jb

/-! ## Appending -/

/-- The journal as far as entries go: the segments from the first to the last, and the append
position. -/
structure EntryJournal where
  sposAppend : Nat
  rgsegment : List Segment
  deriving DecidableEq, Repr

/-- What one attempt to append a fragment meets: no segment is left to append to, a new one cannot
be had, the segment has room for a payload of `cbRoom` bytes. -/
structure Attempt where
  fSealed : Bool
  errAppendSegment : Option ERR
  cbRoom : Nat

/-- The loop of `ErrAppendEntry`. `rgb` is what is left in `rgjbT` past the header. The loop keeps
no count of segments: `rgisegment` are those of the fragments from `jpos` on, and `rgisegmentEmpty`
those of earlier first fragments, which hold nothing but a header. -/
structure AppendLoop where
  ibEntry : Nat
  fForceNewSegment : Bool
  rgb : List Byte
  jpos : Option Nat
  jposEnd : Option Nat
  rgisegment : List Nat
  rgisegmentEmpty : List Nat

/-- `ErrGetAppendSegment`: the journal with a segment to append to. -/
def EntryJournal.errGetAppendSegment (j : EntryJournal) (fForceNewSegment : Bool) (a : Attempt) :
    Except ERR EntryJournal :=
  if fForceNewSegment ∨ a.fSealed ∨ j.rgsegment = [] then
    match a.errAppendSegment with
    | some err => .error err
    | none =>
      .ok ⟨j.sposAppend + cbJournalSegment, j.rgsegment ++ [⟨j.sposAppend + cbJournalSegment, []⟩]⟩
  else .ok j

/-- The journal with the payload `jb` appended to its last segment, and the region that holds it. -/
def EntryJournal.appendRegion (j : EntryJournal) (jb : List Byte) : EntryJournal × Option Region :=
  match j.rgsegment.getLast? with
  | none => (j, none)
  | some seg =>
    ({ j with rgsegment := j.rgsegment.dropLast ++
        [{ seg with rgregion := seg.rgregion ++ [seg.newRegion jb] }] }, some (seg.newRegion jb))

/-- One turn of the loop: a fragment of what is left is appended to the last segment, if its header
fits. -/
def EntryJournal.appendFragment (j : EntryJournal) (cbEntry cbRoom : Nat) (loop : AppendLoop) :
    EntryJournal × AppendLoop :=
  let jef := fragmentHeader (loop.ibEntry = 0) (cbEntry - loop.ibEntry)
  let cbFragment := cbPayloadActual cbRoom (jef ++ loop.rgb).length cbJournalEntryFragment
  let (j, region) := if cbFragment = 0 then (j, none)
    else j.appendRegion ((jef ++ loop.rgb).take cbFragment)
  let cbEntryAppended := if cbFragment = 0 then 0 else cbFragment - cbJournalEntryFragment
  let isegment := if region.isSome then [j.rgsegment.length - 1] else []
  (j,
    { ibEntry := loop.ibEntry + cbEntryAppended
      fForceNewSegment := cbEntryAppended < cbEntry - loop.ibEntry
      rgb := loop.rgb.drop cbEntryAppended
      jpos := if loop.ibEntry = 0 then region.map (·.rpos) else loop.jpos
      jposEnd := region.map (·.rposEnd)
      rgisegment := if loop.ibEntry = 0 then isegment else loop.rgisegment ++ isegment
      rgisegmentEmpty := if loop.ibEntry = 0 then loop.rgisegmentEmpty ++ loop.rgisegment
        else loop.rgisegmentEmpty })

/-- The loop over the attempts. `none`: the loop is not done when they end. -/
def appendEntryLoop (cbEntry : Nat) :
    List Attempt → EntryJournal → AppendLoop → Option (Except ERR AppendLoop × EntryJournal)
  | [], j, loop =>
    if loop.ibEntry < cbEntry ∨ loop.jpos = none then none else some (.ok loop, j)
  | a :: rgattempt, j, loop =>
    if loop.ibEntry < cbEntry ∨ loop.jpos = none then
      match j.errGetAppendSegment loop.fForceNewSegment a with
      | .error err => some (.error err, j)
      | .ok j =>
        let (j, loop) := j.appendFragment cbEntry a.cbRoom loop
        appendEntryLoop cbEntry rgattempt j loop
    else some (.ok loop, j)

/-- A call of `ErrAppendEntry`: the entry, what the call finds of `m_fFull` and `m_err` when it is
its turn, and its attempts. -/
structure AppendCall where
  rgb : List Byte
  fFull : Bool
  err : Option ERR
  rgattempt : List Attempt

/-- `ErrAppendEntry`. -/
def EntryJournal.errAppendEntry (j : EntryJournal) (call : AppendCall) :
    Option (Except ERR AppendLoop × EntryJournal) :=
  if call.rgb.length ≥ cbEntryMax then some (.error .JET_errInvalidParameter, j)
  else if call.fFull ∧ call.rgb.length ≠ 0 then some (.error .JET_errDiskFull, j)
  else
    match call.err with
    | some err => some (.error err, j)
    | none =>
      appendEntryLoop call.rgb.length call.rgattempt j
        { ibEntry := 0, fForceNewSegment := false, rgb := call.rgb, jpos := none, jposEnd := none,
          rgisegment := [], rgisegmentEmpty := [] }

/-- An entry that was appended: what `ErrAppendEntry` was given and returned, and the segments its
fragments went to. -/
structure Appended where
  jpos : Option Nat
  jposEnd : Option Nat
  rgb : List Byte
  rgisegment : List Nat
  rgisegmentEmpty : List Nat
  deriving DecidableEq, Repr

/-- A sequence of calls, each of which returns: the journal, and the entries that were appended. -/
def appendEntries : List AppendCall → EntryJournal → Option (EntryJournal × List Appended)
  | [], j => some (j, [])
  | call :: rgcall, j =>
    match j.errAppendEntry call with
    | none => none
    | some (res, j) =>
      match appendEntries rgcall j with
      | none => none
      | some (j, rgentry) =>
        match res with
        | .error _ => some (j, rgentry)
        | .ok loop => some (j, ⟨loop.jpos, loop.jposEnd, call.rgb, loop.rgisegment,
            loop.rgisegmentEmpty⟩ :: rgentry)

/-! ## Visiting -/

/-- `m_jpos` is `none` for `jposInvalid`; `rgvisited` are the calls of `m_pfnVisitEntry`. -/
structure CEntryVisitor where
  m_err : Option ERR
  m_jpos : Option Nat
  m_cbEntry : Nat
  m_ibEntry : Nat
  m_cbEntryRem : Nat
  m_jb : List Byte
  rgvisited : List (Option Nat × Option Nat × List Byte)
  deriving DecidableEq, Repr

namespace CEntryVisitor

/-- The visitor as it is constructed. -/
def init : CEntryVisitor := ⟨none, none, 0, 0, 0, [], []⟩

variable (pev : CEntryVisitor)

/-- The first error stays, and an error ends the visit of the regions. -/
def error (szTag : SzTag) : CEntryVisitor × Bool :=
  ({ pev with m_err := pev.m_err.or (some (.blockCacheInternalError szTag)) }, false)

/-- The accumulation of a fragment, and the visit of the entry when it is complete. A new buffer is
had where the one at hand is too small. -/
def accumulate (rposEnd : Nat) (rgbFragment : List Byte) : CEntryVisitor :=
  let m_jb := if pev.m_jb.length < max 1 pev.m_cbEntry then List.replicate (max 1 pev.m_cbEntry) 0
    else pev.m_jb
  let m_jb := m_jb.take pev.m_ibEntry ++ rgbFragment ++
    m_jb.drop (pev.m_ibEntry + rgbFragment.length)
  { pev with
    m_jb
    m_ibEntry := pev.m_ibEntry + rgbFragment.length
    m_cbEntryRem := pev.m_cbEntryRem - rgbFragment.length
    rgvisited := if pev.m_cbEntryRem - rgbFragment.length = 0 then
        pev.rgvisited ++ [(pev.m_jpos, some rposEnd, m_jb.take pev.m_cbEntry)]
      else pev.rgvisited }

/-- `FVisitRegion`. -/
def fVisitRegion (region : Region) : CEntryVisitor × Bool :=
  if region.jb.length < cbJournalEntryFragment then pev.error .JournalFragmentTooSmall
  else
    let pev := if fFirstFragment region.jb then
        { pev with
          m_jpos := some region.rpos
          m_cbEntry := cbEntryRemaining region.jb
          m_ibEntry := 0
          m_cbEntryRem := cbEntryRemaining region.jb }
      else pev
    if !fFirstFragment region.jb ∧ pev.m_jpos = none then (pev, pev.m_err.isNone)
    else if cbEntryRemaining region.jb ≠ pev.m_cbEntryRem then
      pev.error .JournalFragmentInvalidSequence
    else if region.jb.length - cbJournalEntryFragment > pev.m_cbEntryRem then
      pev.error .JournalFragmentInvalidSize
    else (pev.accumulate region.rposEnd (region.jb.drop cbJournalEntryFragment), pev.m_err.isNone)

/-- `ErrVisitRegions`, up to the region at which the visitor stops. -/
def visitRegions : CEntryVisitor → List Region → CEntryVisitor
  | pev, [] => pev
  | pev, region :: rgregion =>
    let (pev, fContinue) := pev.fVisitRegion region
    if fContinue then visitRegions pev rgregion else pev

/-- `FVisitSegment`: a segment that fails its validation is an error up to the durable segment and
the end of the journal past it. -/
def fVisitSegment (sposDurable spos : Nat) (segment : Except ERR Segment) : CEntryVisitor × Bool :=
  match segment with
  | .error err =>
    if spos ≤ sposDurable then ({ pev with m_err := pev.m_err.or (some err) }, false)
    else (pev, false)
  | .ok seg => (pev.visitRegions seg.rgregion, true)

/-- The segments, as `ErrVisitSegments` gives them to the visitor. -/
def visitSegments (sposDurable : Nat) :
    CEntryVisitor → List (Nat × Except ERR Segment) → CEntryVisitor
  | pev, [] => pev
  | pev, (spos, segment) :: rgsegment =>
    let (pev, fContinue) := pev.fVisitSegment sposDurable spos segment
    if fContinue then visitSegments sposDurable pev rgsegment else pev

end CEntryVisitor

/-- `CEntryVisitor::ErrVisitEntries`: the error, and the entries visited. -/
def errVisitEntries (sposDurable : Nat) (rgsegment : List (Nat × Except ERR Segment)) :
    Option ERR × List (Option Nat × Option Nat × List Byte) :=
  let pev := CEntryVisitor.init.visitSegments sposDurable rgsegment
  (pev.m_err, pev.rgvisited)

/-- The segments from the `k`-th on, all of them sound. -/
def EntryJournal.segmentsFrom (j : EntryJournal) (k : Nat) : List (Nat × Except ERR Segment) :=
  (j.rgsegment.drop k).map fun seg => (seg.spos, .ok seg)

end Ese.Journal
