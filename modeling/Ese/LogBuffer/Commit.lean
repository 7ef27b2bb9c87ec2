import Ese.Lib.Pages
import Ese.Lib.Run
import Mathlib.Tactic.Linarith

/-!
# Committed pages of the log buffer

The log buffer is reserved memory of which only a part has its pages committed. The part is tracked
as a circular range from `_pbLGCommitStart` to `_pbLGCommitEnd`: with an end before the start the
range goes round the end of the buffer, and with an end right before the start it is the whole
buffer. A commit extends the range at its end; a decommit leaves the pages from `m_pbWrite` to
`m_pbEntry`.

Pointers are the offsets from `_pbLGBufMin`. The end is inclusive, and `-1` when the range ends with
the buffer's end.
-/

namespace Ese.LogBuffer

open Pages

structure LOG_BUFFER where
  cbLGBuf : Nat
  pbLGCommitStart : Nat
  pbLGCommitEnd : Int
  /-- The pages that the operating system has committed. -/
  pages : Nat → Bool

/-- `cBytesAdditionalCommit`. -/
def cBytesAdditionalCommit : Nat := 16 * 1024

namespace LOG_BUFFER

section
variable (cbPage : Nat) (fCommit fCommitWrapped : Bool) (buf : LOG_BUFFER) (pb cb : Nat)

/-- `bPbNextToCommitted`. -/
def pbNextToCommitted : Bool :=
  if buf.pbLGCommitStart ≤ buf.pbLGCommitEnd then
    decide ((pb ≥ buf.pbLGCommitStart ∧ pb ≤ buf.pbLGCommitEnd + 1) ∨
      (buf.pbLGCommitEnd = buf.cbLGBuf - 1 ∧ pb = 0))
  else decide (pb ≥ buf.pbLGCommitStart ∨ pb ≤ buf.pbLGCommitEnd + 1)

/-- `FOSMemoryPageCommit`. -/
def osCommit : LOG_BUFFER := { buf with pages := Pages.commit cbPage buf.pages pb cb }

/-- `OSMemoryPageDecommit`. -/
def osDecommit (r : Nat × Nat) : LOG_BUFFER :=
  { buf with pages := Pages.decommit cbPage buf.pages r.1 r.2 }

/-- The part of `Commit` behind the check of its start. -/
def commitNext : Bool × LOG_BUFFER :=
  if pb + cb ≤ buf.cbLGBuf then
    if !fCommit then (false, buf)
    else
      let buf := buf.osCommit cbPage pb cb
      let pbFirstUncommitted := roundup cbPage (pb + cb)
      if pbFirstUncommitted ≥ buf.pbLGCommitStart ∧
          ((buf.pbLGCommitStart > buf.pbLGCommitEnd ∧ pb ≤ buf.pbLGCommitEnd + 1) ∨
            (buf.pbLGCommitStart ≤ buf.pbLGCommitEnd ∧ buf.pbLGCommitEnd = buf.cbLGBuf - 1 ∧
              pb = 0)) then
        (true, { buf with pbLGCommitEnd := buf.pbLGCommitStart - 1 })
      else (true, { buf with pbLGCommitEnd := pbFirstUncommitted - 1 })
  else if !(decide (pb = buf.cbLGBuf) || fCommit) then (false, buf)
  else
    let buf := buf.osCommit cbPage pb (buf.cbLGBuf - pb)
    if !fCommitWrapped then (false, buf)
    else
      let buf := buf.osCommit cbPage 0 (pb + cb - buf.cbLGBuf)
      if buf.pbLGCommitStart ≤ buf.pbLGCommitEnd ∨ pb ≥ buf.pbLGCommitStart then
        let pbFirstUncommitted : Int := roundup cbPage (pb + cb - buf.cbLGBuf) - 1
        if pbFirstUncommitted ≥ buf.pbLGCommitStart then
          (true, { buf with pbLGCommitEnd := buf.pbLGCommitStart - 1 })
        else (true, { buf with pbLGCommitEnd := pbFirstUncommitted })
      else (true, { buf with pbLGCommitEnd := buf.pbLGCommitStart - 1 })

/-- `LOG_BUFFER::Commit`, with what the operating system answers to its commits. -/
def commit : Bool × LOG_BUFFER :=
  if buf.pbNextToCommitted pb then commitNext cbPage fCommit fCommitWrapped buf pb cb
  else commitNext cbPage fCommit fCommitWrapped { buf with pbLGCommitStart := 0 } 0 buf.cbLGBuf

/-- `LOG_BUFFER::FIsCommitted`. -/
def fIsCommitted : Bool :=
  if buf.pbLGCommitStart ≤ buf.pbLGCommitEnd then
    decide (pb ≥ buf.pbLGCommitStart ∧ (pb : Int) + cb - 1 ≤ buf.pbLGCommitEnd)
  else if buf.pbLGCommitEnd = buf.pbLGCommitStart - 1 then true
  else if pb ≤ buf.pbLGCommitEnd then decide ((pb : Int) + cb - 1 ≤ buf.pbLGCommitEnd)
  else if pb ≥ buf.pbLGCommitStart
    then decide ((pb : Int) + cb - 1 ≤ buf.pbLGCommitEnd + buf.cbLGBuf)
  else false

/-- `LOG_BUFFER::EnsureCommitted`. -/
def ensureCommitted : Bool × LOG_BUFFER :=
  if buf.fIsCommitted pb cb then (true, buf)
  else commit cbPage fCommit fCommitWrapped buf pb (cb + cBytesAdditionalCommit)

/-- `LOG_BUFFER::InitCommit` of a buffer of `cbLGBuf` bytes that is reserved. -/
def initCommit (cbLGBuf cBytes : Nat) : Option LOG_BUFFER :=
  let (fCommitted, buf) := commit cbPage fCommit fCommitWrapped ⟨cbLGBuf, 0, 0, fun _ => false⟩ 0
    (roundup cbPage cBytes)
  if fCommitted then some buf else none

/-- The ranges that `Decommit` gives back. -/
def decommitRanges : List (Nat × Nat) :=
  let pbStart := roundup cbPage pb
  let pbEnd := rounddn cbPage (pb + cb)
  if pbEnd ≤ buf.cbLGBuf then
    if pbEnd > pbStart then [(pbStart, pbEnd - pbStart)] else []
  else
    (if buf.cbLGBuf > pbStart then [(pbStart, buf.cbLGBuf - pbStart)] else []) ++
      [(0, pbEnd - buf.cbLGBuf)]

/-- `LOG_BUFFER::Decommit` of a buffer that is not read only. -/
def decommit : LOG_BUFFER :=
  let pbStart := roundup cbPage pb
  let pbEnd := rounddn cbPage (pb + cb)
  let buf := (buf.decommitRanges cbPage pb cb).foldl (osDecommit cbPage) buf
  let buf :=
    if pbEnd ≤ buf.cbLGBuf then
      if pbEnd > pbStart then
        { buf with pbLGCommitStart := if pbEnd = buf.cbLGBuf then 0 else pbEnd } else buf
    else { buf with pbLGCommitStart := pbEnd - buf.cbLGBuf }
  let buf :=
    if (pbEnd : Int) - pbStart = buf.cbLGBuf then { buf with pbLGCommitEnd := buf.pbLGCommitStart }
    else { buf with pbLGCommitEnd := pbStart - 1 }
  if (buf.pbLGCommitStart : Int) = buf.pbLGCommitEnd then
    (commit cbPage fCommit fCommitWrapped buf buf.pbLGCommitStart cbPage).2
  else buf

end

end LOG_BUFFER

/-- The log buffer with the log records in it. -/
structure LOG_WRITE_BUFFER where
  pLogBuffer : LOG_BUFFER
  pbWrite : Nat
  pbEntry : Nat

/-- What changes the log buffer, with what the operating system answers to the commits. -/
inductive BUFFEROPER where
  /-- Bytes are added at `m_pbEntry`, as `ErrLGLogRec` does. -/
  | logRec (cbReq : Nat) (fCommit fCommitWrapped : Bool)
  /-- Bytes at `m_pbWrite` are written to the log file. -/
  | write (cbWritten : Nat)
  /-- `DecommitLogBufferTask`. -/
  | decommit (fCommit fCommitWrapped : Bool)

namespace LOG_WRITE_BUFFER

section
variable (cbPage : Nat) (s : LOG_WRITE_BUFFER)

/-- `cbAvail`, and the bytes to decommit. -/
def cbAvail : Nat :=
  if s.pbWrite > s.pbEntry then s.pbWrite - s.pbEntry
  else s.pLogBuffer.cbLGBuf + s.pbWrite - s.pbEntry

def cbUsed : Nat := s.pLogBuffer.cbLGBuf - s.cbAvail

/-- A pointer with `cb` added, which may go round. -/
def advance (pb cb : Nat) : Nat :=
  if pb + cb ≥ s.pLogBuffer.cbLGBuf then pb + cb - s.pLogBuffer.cbLGBuf else pb + cb

/-- A step. Bytes are added only if one byte at least stays free. -/
def step (s : LOG_WRITE_BUFFER) : BUFFEROPER → LOG_WRITE_BUFFER
  | .logRec cbReq fCommit fCommitWrapped =>
    if s.cbAvail ≤ cbReq then s
    else
      let (fCommitted, pLogBuffer) :=
        s.pLogBuffer.ensureCommitted cbPage fCommit fCommitWrapped s.pbEntry cbReq
      if fCommitted then { s with pLogBuffer, pbEntry := s.advance s.pbEntry cbReq }
      else { s with pLogBuffer }
  | .write cbWritten =>
    if cbWritten ≤ s.cbUsed then { s with pbWrite := s.advance s.pbWrite cbWritten } else s
  | .decommit fCommit fCommitWrapped =>
    { s with pLogBuffer := s.pLogBuffer.decommit cbPage fCommit fCommitWrapped s.pbEntry s.cbAvail }

end

end LOG_WRITE_BUFFER

/-! ## A commit -/

namespace LOG_BUFFER

section
variable (cbPage : Nat) (buf : LOG_BUFFER) (pb cb : Nat)

/-- A byte of the tracked range. -/
def Tracked (ib : Nat) : Prop :=
  if buf.pbLGCommitStart ≤ buf.pbLGCommitEnd then buf.pbLGCommitStart ≤ ib ∧
    (ib : Int) ≤ buf.pbLGCommitEnd
  else (ib : Int) ≤ buf.pbLGCommitEnd ∨ buf.pbLGCommitStart ≤ ib

/-- Every page of the circular range is committed. -/
def RangeCommitted : Prop :=
  ∀ ib < buf.cbLGBuf, (pb ≤ ib ∧ ib < pb + cb) ∨ ib + buf.cbLGBuf < pb + cb →
    Committed cbPage buf.pages ib

/-- The bytes on the pages of a commit. -/
def Covered (ib : Nat) : Prop :=
  if pb + cb ≤ buf.cbLGBuf then rounddn cbPage pb ≤ ib ∧ ib < roundup cbPage (pb + cb)
  else rounddn cbPage pb ≤ ib ∨ ib < roundup cbPage (pb + cb - buf.cbLGBuf)

/-- `_pbLGCommitEnd` after a commit. -/
def endAfter : Int :=
  if pb + cb ≤ buf.cbLGBuf then
    if roundup cbPage (pb + cb) ≥ buf.pbLGCommitStart ∧
        ((buf.pbLGCommitStart > buf.pbLGCommitEnd ∧ pb ≤ buf.pbLGCommitEnd + 1) ∨
          (buf.pbLGCommitStart ≤ buf.pbLGCommitEnd ∧ buf.pbLGCommitEnd = buf.cbLGBuf - 1 ∧ pb = 0))
            then
      buf.pbLGCommitStart - 1
    else roundup cbPage (pb + cb) - 1
  else if (buf.pbLGCommitStart ≤ buf.pbLGCommitEnd ∨ pb ≥ buf.pbLGCommitStart) ∧
      ¬ (roundup cbPage (pb + cb - buf.cbLGBuf) : Int) - 1 ≥ buf.pbLGCommitStart then
    roundup cbPage (pb + cb - buf.cbLGBuf) - 1
  else buf.pbLGCommitStart - 1

end

section
variable {cbPage : Nat} {fCommit fCommitWrapped : Bool} {buf : LOG_BUFFER} {pb cb : Nat}

theorem RangeCommitted.of_covered (hpage : 0 < cbPage) {pages : Nat → Bool}
    (h : ∀ ib < buf.cbLGBuf, buf.Covered cbPage pb cb ib → Committed cbPage pages ib) (end' : Int) :
    RangeCommitted cbPage { buf with pages, pbLGCommitEnd := end' } pb cb := by
  intro ib hib hrange
  refine h ib hib ?_
  change ib < buf.cbLGBuf at hib
  change (pb ≤ ib ∧ ib < pb + cb) ∨ ib + buf.cbLGBuf < pb + cb at hrange
  have hdn := rounddn_le cbPage pb
  have hup := le_roundup hpage (pb + cb)
  have hup' := le_roundup hpage (pb + cb - buf.cbLGBuf)
  unfold Covered
  split <;> omega

/-- A commit fails, or it covers its range and moves the end. -/
theorem commitNext_cases (hpage : 0 < cbPage) (hdvd : cbPage ∣ buf.cbLGBuf) (hpb : pb < buf.cbLGBuf)
    (hcb : 0 < cb) :
    ∃ pages, (∀ ib, Committed cbPage buf.pages ib → Committed cbPage pages ib) ∧
      (commitNext cbPage fCommit fCommitWrapped buf pb cb = (false, { buf with pages }) ∨
        commitNext cbPage fCommit fCommitWrapped buf pb cb =
          (true, { buf with pages, pbLGCommitEnd := buf.endAfter cbPage pb cb }) ∧
        ∀ ib < buf.cbLGBuf, buf.Covered cbPage pb cb ib → Committed cbPage pages ib) := by
  have hpbMax : decide (pb = buf.cbLGBuf) = false := decide_eq_false hpb.ne
  unfold commitNext endAfter Covered
  by_cases hfit : pb + cb ≤ buf.cbLGBuf
  · simp only [if_pos hfit]
    cases fCommit with
    | false => exact ⟨buf.pages, fun _ h => h, .inl rfl⟩
    | true =>
      refine ⟨Pages.commit cbPage buf.pages pb cb, fun ib h => (committed_commit hpage).2 (.inl h),
        .inr ⟨?_, ?_⟩⟩
      · simp only [osCommit, Bool.not_true, Bool.false_eq_true, if_false]
        by_cases hfull : roundup cbPage (pb + cb) ≥ buf.pbLGCommitStart ∧
            ((buf.pbLGCommitStart > buf.pbLGCommitEnd ∧ pb ≤ buf.pbLGCommitEnd + 1) ∨
              (buf.pbLGCommitStart ≤ buf.pbLGCommitEnd ∧ buf.pbLGCommitEnd = buf.cbLGBuf - 1 ∧
              pb = 0))
        · refine (if_pos hfull).trans ?_
          rw [if_pos hfull]
        · refine (if_neg hfull).trans ?_
          rw [if_neg hfull]
      · exact fun ib _ h => (committed_commit hpage).2 (.inr ⟨hcb, h⟩)
  · simp only [if_neg hfit, hpbMax, Bool.false_or]
    cases fCommit with
    | false => exact ⟨buf.pages, fun _ h => h, .inl rfl⟩
    | true =>
      cases fCommitWrapped with
      | false =>
        exact ⟨Pages.commit cbPage buf.pages pb (buf.cbLGBuf - pb),
          fun ib h => (committed_commit hpage).2 (.inl h), .inl rfl⟩
      | true =>
        refine ⟨Pages.commit cbPage (Pages.commit cbPage buf.pages pb (buf.cbLGBuf - pb)) 0
          (pb + cb - buf.cbLGBuf),
          fun ib h => (committed_commit hpage).2 (.inl ((committed_commit hpage).2 (.inl h))),
          .inr ⟨?_, ?_⟩⟩
        · simp only [osCommit, Bool.not_true, Bool.false_eq_true, if_false]
          by_cases hside : buf.pbLGCommitStart ≤ buf.pbLGCommitEnd ∨ pb ≥ buf.pbLGCommitStart
          · by_cases hround : (roundup cbPage (pb + cb - buf.cbLGBuf) : Int) - 1 ≥
              buf.pbLGCommitStart
            · refine ((if_pos hside).trans (if_pos hround)).trans ?_
              rw [if_neg fun h => h.2 hround]
            · refine ((if_pos hside).trans (if_neg hround)).trans ?_
              rw [if_pos ⟨hside, hround⟩]
          · refine (if_neg hside).trans ?_
            rw [if_neg fun h => hside h.1]
        · intro ib hib h
          rcases h with h | h
          · refine (committed_commit hpage).2
              (.inl ((committed_commit hpage).2 (.inr ⟨by omega, h, ?_⟩)))
            rw [Nat.add_sub_of_le hpb.le, roundup_of_dvd hpage hdvd]
            exact hib
          · refine (committed_commit hpage).2 (.inr ⟨by omega, ?_, by rwa [Nat.zero_add]⟩)
            exact (rounddn_le cbPage 0).trans (Nat.zero_le ib)

/-- A commit that goes round the end of the buffer needs two commits of pages. -/
theorem commitNext_round (hpb : pb < buf.cbLGBuf) (hround : buf.cbLGBuf < pb + cb)
    {buf' : LOG_BUFFER}
    (h : commitNext cbPage fCommit fCommitWrapped buf pb cb = (true, buf')) :
    fCommit = true ∧ fCommitWrapped = true := by
  unfold commitNext at h
  rw [if_neg (Nat.not_le.2 hround), decide_eq_false hpb.ne, Bool.false_or] at h
  cases fCommit with
  | false => exact absurd (congrArg Prod.fst h) Bool.false_ne_true
  | true =>
    cases fCommitWrapped with
    | false => exact absurd (congrArg Prod.fst h) Bool.false_ne_true
    | true => exact ⟨rfl, rfl⟩

/-- A buffer of whole pages, of which the next bytes are at `pb`: the tracked range has whole pages,
all committed, and `pb` is in it or next to it. After a decommit of the whole buffer of which the
commit fails the range is the one byte at `pb`, which need not be committed. -/
structure Tracks (cbPage : Nat) (buf : LOG_BUFFER) (pb : Nat) : Prop where
  dvd : cbPage ∣ buf.cbLGBuf
  next_lt : pb < buf.cbLGBuf
  start_dvd : cbPage ∣ buf.pbLGCommitStart
  start_lt : buf.pbLGCommitStart < buf.cbLGBuf
  end_lower : -1 ≤ buf.pbLGCommitEnd
  end_lt : buf.pbLGCommitEnd < buf.cbLGBuf
  boundary : (buf.pbLGCommitStart : Int) = buf.pbLGCommitEnd ∨
    ∃ ib : Nat, cbPage ∣ ib ∧ buf.pbLGCommitEnd = (ib : Int) - 1
  tracked : ∀ ib < buf.cbLGBuf, buf.Tracked ib →
    Committed cbPage buf.pages ib ∨
    ((buf.pbLGCommitStart : Int) = buf.pbLGCommitEnd ∧ ib = buf.pbLGCommitStart)
  next : buf.pbNextToCommitted pb = true
  one : (buf.pbLGCommitStart : Int) = buf.pbLGCommitEnd → pb = buf.pbLGCommitStart

theorem pbNextToCommitted_iff : buf.pbNextToCommitted pb = true ↔
    if buf.pbLGCommitStart ≤ buf.pbLGCommitEnd then
      ((pb ≥ buf.pbLGCommitStart ∧ pb ≤ buf.pbLGCommitEnd + 1) ∨
        (buf.pbLGCommitEnd = buf.cbLGBuf - 1 ∧ pb = 0))
    else pb ≥ buf.pbLGCommitStart ∨ pb ≤ buf.pbLGCommitEnd + 1 := by
  unfold pbNextToCommitted
  split <;> exact decide_eq_true_iff

/-- A start and the byte before a page boundary are not one. -/
theorem ne_of_boundary (hpage : 1 < cbPage) {ib ib' : Nat} (h : cbPage ∣ ib) (h' : cbPage ∣ ib') :
    (ib : Int) ≠ (ib' : Int) - 1 := by
  intro heq
  have hadd := add_le_of_lt h h' (show ib < ib' by omega)
  omega

section
variable (hpage : 1 < cbPage) (h : Tracks cbPage buf pb)

include h in
theorem Tracks.endAfter_boundary : ∃ ib :
    Nat, cbPage ∣ ib ∧ buf.endAfter cbPage pb cb = (ib : Int) - 1 := by
  unfold endAfter
  split_ifs
  · exact ⟨_, h.start_dvd, rfl⟩
  · exact ⟨_, dvd_roundup cbPage (pb + cb), rfl⟩
  · exact ⟨_, dvd_roundup cbPage _, rfl⟩
  · exact ⟨_, h.start_dvd, rfl⟩

include hpage h in
theorem Tracks.endAfter_lt : -1 ≤ buf.endAfter cbPage pb cb ∧
    buf.endAfter cbPage pb cb < buf.cbLGBuf := by
  have hstart := h.start_lt
  unfold endAfter
  split_ifs with hfit hfull hside
  · omega
  · have hup := roundup_le (by omega) h.dvd hfit
    omega
  · omega
  · omega

include hpage h in
/-- The new range is the old one and what the commit covers. -/
theorem Tracks.endAfter_tracked (hcb : 0 < cb) {ib : Nat} (hib : ib < buf.cbLGBuf)
    {pages : Nat → Bool}
    (htracked : Tracked { buf with pages, pbLGCommitEnd := buf.endAfter cbPage pb cb } ib) :
    buf.Tracked ib ∨ buf.Covered cbPage pb cb ib := by
  have hnext := pbNextToCommitted_iff.1 h.next
  have hstart := h.start_lt
  have hend := h.end_lt
  have hlower := h.end_lower
  have hpb := h.next_lt
  have hdn := rounddn_le cbPage pb
  unfold Tracked at htracked ⊢
  unfold Covered
  unfold endAfter at htracked
  dsimp only at htracked
  by_cases hfit : pb + cb ≤ buf.cbLGBuf
  · have hup := le_roundup (Nat.zero_lt_of_lt hpage) (pb + cb)
    simp only [if_pos hfit] at htracked ⊢
    split_ifs at htracked hnext ⊢ <;> omega
  · have hup := le_roundup (Nat.zero_lt_of_lt hpage) (pb + cb - buf.cbLGBuf)
    simp only [if_neg hfit] at htracked ⊢
    split_ifs at htracked hnext ⊢ <;> omega

/-- A commit at the start of the buffer next to a range up to its end, which goes round it: the
range that is tracked then does not reach the next bytes. -/
def Skips (cbPage : Nat) (buf : LOG_BUFFER) (pb cb cbNext : Nat) : Prop :=
  pb = 0 ∧ buf.pbLGCommitEnd = buf.cbLGBuf - 1 ∧ buf.cbLGBuf < cb ∧
    roundup cbPage (cb - buf.cbLGBuf) < cbNext ∧
    cbNext < buf.pbLGCommitStart

instance {cbNext : Nat} : Decidable (Skips cbPage buf pb cb cbNext) :=
  inferInstanceAs (Decidable (_ ∧ _))

include hpage h in
/-- The bytes after the next ones are in the new range or next to it. -/
theorem Tracks.endAfter_next {cbNext : Nat} (hcbNext : cbNext < cb) (hlt : cbNext < buf.cbLGBuf)
    {pages : Nat → Bool} :
    pbNextToCommitted { buf with pages, pbLGCommitEnd := buf.endAfter cbPage pb cb }
      (if pb + cbNext ≥ buf.cbLGBuf then pb + cbNext - buf.cbLGBuf else pb + cbNext) = true ↔
        ¬ Skips cbPage buf pb cb cbNext := by
  have hnext := pbNextToCommitted_iff.1 h.next
  have hstart := h.start_lt
  have hend := h.end_lt
  have hlower := h.end_lower
  have hpb := h.next_lt
  have hzero : pb = 0 → roundup cbPage (pb + cb - buf.cbLGBuf) = roundup cbPage
    (cb - buf.cbLGBuf) := fun hpb => by
    rw [hpb, Nat.zero_add]
  rw [pbNextToCommitted_iff]
  unfold endAfter Skips
  dsimp only
  by_cases hfit : pb + cb ≤ buf.cbLGBuf
  · have hup := le_roundup (Nat.zero_lt_of_lt hpage) (pb + cb)
    simp only [if_pos hfit]
    split_ifs at hnext ⊢ <;> omega
  · have hup := le_roundup (Nat.zero_lt_of_lt hpage) (pb + cb - buf.cbLGBuf)
    simp only [if_neg hfit]
    split_ifs at hnext ⊢ <;> omega

end

theorem fIsCommitted_iff : buf.fIsCommitted pb cb = true ↔
    if buf.pbLGCommitStart ≤ buf.pbLGCommitEnd then
      pb ≥ buf.pbLGCommitStart ∧ (pb : Int) + cb - 1 ≤ buf.pbLGCommitEnd
    else if buf.pbLGCommitEnd = buf.pbLGCommitStart - 1 then True
    else if pb ≤ buf.pbLGCommitEnd then (pb : Int) + cb - 1 ≤ buf.pbLGCommitEnd
    else pb ≥ buf.pbLGCommitStart ∧ (pb : Int) + cb - 1 ≤ buf.pbLGCommitEnd + buf.cbLGBuf := by
  unfold fIsCommitted
  split_ifs with h1 h2 h3 h4
  · exact decide_eq_true_iff
  · exact iff_of_true rfl trivial
  · exact decide_eq_true_iff
  · rw [decide_eq_true_iff]
    exact ⟨fun h => ⟨h4, h⟩, fun h => h.2⟩
  · exact iff_of_false id fun h => h4 h.1

/-- The one byte is asked for that is tracked after a decommit of the whole buffer of which the
commit failed. -/
def AsksOne (buf : LOG_BUFFER) (pb cb : Nat) : Prop :=
  (buf.pbLGCommitStart : Int) = buf.pbLGCommitEnd ∧ pb = buf.pbLGCommitStart ∧ cb = 1

instance : Decidable (AsksOne buf pb cb) := inferInstanceAs (Decidable (_ ∧ _))

/-- A range that `FIsCommitted` accepts is committed, but for one byte after a decommit of the whole
buffer of which the commit failed. -/
theorem Tracks.fIsCommitted_sound {pbNext : Nat} (h : Tracks cbPage buf pbNext)
    (hpb : pb < buf.cbLGBuf) (hone : ¬ buf.AsksOne pb cb)
      (hcommitted : buf.fIsCommitted pb cb = true) :
    RangeCommitted cbPage buf pb cb := by
  unfold AsksOne at hone
  intro ib hib hrange
  have htracked : buf.Tracked ib ∧
    ((buf.pbLGCommitStart : Int) ≠ buf.pbLGCommitEnd ∨ ib ≠ buf.pbLGCommitStart) := by
    have hcond := fIsCommitted_iff.1 hcommitted
    have hstart := h.start_lt
    have hend := h.end_lt
    unfold Tracked
    split_ifs at hcond ⊢ <;> omega
  rcases h.tracked ib hib htracked.1 with hib' | ⟨heq, hib'⟩
  · exact hib'
  · rcases htracked.2 with hne | hne
    · exact absurd heq hne
    · exact absurd hib' hne

/-- The bytes after a range that `FIsCommitted` accepts are in the tracked range or next to it. -/
theorem Tracks.fIsCommitted_next (h : Tracks cbPage buf pb) (hone : ¬ buf.AsksOne pb cb)
    (hlt : cb < buf.cbLGBuf) (hcommitted : buf.fIsCommitted pb cb = true) :
    Tracks cbPage buf (if pb + cb ≥ buf.cbLGBuf then pb + cb - buf.cbLGBuf else pb + cb) := by
  unfold AsksOne at hone
  have hcond := fIsCommitted_iff.1 hcommitted
  have hnext := pbNextToCommitted_iff.1 h.next
  have hstart := h.start_lt
  have hend := h.end_lt
  have hpb := h.next_lt
  have hat := h.one
  refine { h with
    next_lt := by split_ifs <;> omega
    next := pbNextToCommitted_iff.2 ?_
    one := fun heq => ?_ }
  · split_ifs at hcond hnext ⊢ <;> omega
  · split_ifs at hcond ⊢ <;> omega

/-- A commit of the bytes at `pb`. -/
theorem Tracks.commit (hpage : 1 < cbPage) (h : Tracks cbPage buf pb) (hcb : 0 < cb) :
    ∃ pages, (∀ ib, Committed cbPage buf.pages ib → Committed cbPage pages ib) ∧
      (buf.pbLGCommitStart : Int) ≠ buf.endAfter cbPage pb cb ∧
      (commit cbPage fCommit fCommitWrapped buf pb cb = (false, { buf with pages }) ∨
        commit cbPage fCommit fCommitWrapped buf pb cb =
          (true, { buf with pages, pbLGCommitEnd := buf.endAfter cbPage pb cb }) ∧
        RangeCommitted cbPage { buf with pages, pbLGCommitEnd := buf.endAfter cbPage pb cb } pb cb ∧
        ∀ cbNext < cb, cbNext < buf.cbLGBuf → ¬ Skips cbPage buf pb cb cbNext →
          Tracks cbPage { buf with pages, pbLGCommitEnd := buf.endAfter cbPage pb cb }
            (if pb + cbNext ≥ buf.cbLGBuf then pb + cbNext - buf.cbLGBuf else pb + cbNext)) := by
  have hzero : 0 < cbPage := by omega
  obtain ⟨pages, hmono, hcases⟩ :=
    @commitNext_cases cbPage fCommit fCommitWrapped buf pb cb hzero h.dvd h.next_lt hcb
  obtain ⟨ib', hdvd', hend'⟩ := @Tracks.endAfter_boundary cbPage buf pb cb h
  have hbounds := @Tracks.endAfter_lt cbPage buf pb cb hpage h
  have hne : (buf.pbLGCommitStart : Int) ≠ buf.endAfter cbPage pb cb := by
    rw [hend']
    exact ne_of_boundary hpage h.start_dvd hdvd'
  refine ⟨pages, hmono, hne, ?_⟩
  rw [LOG_BUFFER.commit, if_pos h.next]
  rcases hcases with hfalse | ⟨htrue, hcovered⟩
  · exact .inl hfalse
  refine .inr ⟨htrue, .of_covered hzero hcovered _, fun cbNext hcbNext hlt hskips => ?_⟩
  have hpb := h.next_lt
  refine ⟨h.dvd, ?_, h.start_dvd, h.start_lt, hbounds.1, hbounds.2, .inr ⟨ib', hdvd', hend'⟩,
    fun ib hib htracked => ?_,
    (h.endAfter_next hpage hcbNext hlt).2 hskips, fun heq => absurd heq hne⟩
  · dsimp only
    split_ifs <;> omega
  · refine .inl ?_
    rcases h.endAfter_tracked hpage hcb hib htracked with hold | hnew
    · rcases h.tracked ib hib hold with hcommitted | ⟨heq, rfl⟩
      · exact hmono ib hcommitted
      · -- the one byte that is not committed is the first of the commit
        refine hcovered _ hib ?_
        have hdn := rounddn_le cbPage pb
        have hup := le_roundup hzero (pb + cb)
        have hat := h.one heq
        unfold Covered
        split_ifs <;> omega
    · exact hcovered ib hib hnew

/-- A commit that fails. -/
theorem Tracks.mono (h : Tracks cbPage buf pb) {pages : Nat → Bool}
    (hmono : ∀ ib, Committed cbPage buf.pages ib → Committed cbPage pages ib) :
      Tracks cbPage { buf with pages } pb :=
  { h with
    tracked := fun ib hib htracked => (h.tracked ib hib htracked).imp_left (hmono ib)
    next := h.next
    one := h.one }

/-- `EnsureCommitted` really commits, both commits of pages succeed, and the tracked range skips. -/
def CommitSkips (cbPage : Nat) (fCommit fCommitWrapped : Bool) (buf : LOG_BUFFER) (pb cb : Nat) :
    Prop :=
  buf.fIsCommitted pb cb = false ∧ fCommit = true ∧ fCommitWrapped = true ∧
    Skips cbPage buf pb (cb + cBytesAdditionalCommit) cb

instance : Decidable (CommitSkips cbPage fCommit fCommitWrapped buf pb cb) :=
  inferInstanceAs (Decidable (_ ∧ _))

/-- What a call of `EnsureCommitted` for the bytes at `pb` does. -/
theorem Tracks.ensureCommitted (hpage : 1 < cbPage) (h : Tracks cbPage buf pb)
    (hone : ¬ buf.AsksOne pb cb) :
    ∃ fCommitted buf', ensureCommitted cbPage fCommit fCommitWrapped buf pb cb =
      (fCommitted, buf') ∧
      buf'.cbLGBuf = buf.cbLGBuf ∧
      (∀ ib, Committed cbPage buf.pages ib → Committed cbPage buf'.pages ib) ∧
      ((buf'.pbLGCommitStart : Int) = buf'.pbLGCommitEnd →
        (buf.pbLGCommitStart : Int) = buf.pbLGCommitEnd ∧ (fCommitted = true → cb = 0)) ∧
      (fCommitted = false → Tracks cbPage buf' pb) ∧
      (fCommitted = true → RangeCommitted cbPage buf' pb cb ∧
        (cb < buf.cbLGBuf → ¬ CommitSkips cbPage fCommit fCommitWrapped buf pb cb →
          Tracks cbPage buf' (if pb + cb ≥ buf.cbLGBuf then pb + cb - buf.cbLGBuf else pb + cb))) :=
            by
  unfold LOG_BUFFER.ensureCommitted
  have hadditional : 0 < cBytesAdditionalCommit := by decide
  by_cases hcommitted : buf.fIsCommitted pb cb = true
  · rw [if_pos hcommitted]
    refine ⟨true, buf, rfl, rfl, fun _ h => h, fun heq => ⟨heq, fun _ => ?_⟩,
      fun h => absurd h.symm Bool.false_ne_true,
      fun _ => ⟨h.fIsCommitted_sound h.next_lt hone hcommitted,
        fun hlt _ => h.fIsCommitted_next hone hlt hcommitted⟩⟩
    have hcond := fIsCommitted_iff.1 hcommitted
    have hat := h.one heq
    unfold AsksOne at hone
    rw [if_pos heq.le] at hcond
    omega
  · rw [if_neg hcommitted]
    obtain ⟨pages, hmono, hne, hfalse | ⟨htrue, hrange, hnext⟩⟩ :=
      @Tracks.commit cbPage fCommit fCommitWrapped buf pb (cb + cBytesAdditionalCommit) hpage h
        (by omega)
    · exact ⟨_, _, hfalse, rfl, hmono, fun heq => ⟨heq, fun h => absurd h Bool.false_ne_true⟩,
        fun _ => h.mono hmono, fun h => absurd h Bool.false_ne_true⟩
    · refine ⟨_, _, htrue, rfl, hmono, fun heq => absurd heq hne,
        fun h => absurd h.symm Bool.false_ne_true, fun _ => ⟨fun ib hib hin => hrange ib hib ?_,
          fun hlt hskips => hnext cb (by omega) hlt fun hskip => hskips ?_⟩⟩
      · omega
      · -- it went round, and returned true: both commits succeeded
        rw [LOG_BUFFER.commit, if_pos h.next] at htrue
        have hboth := commitNext_round h.next_lt (by have := hskip.2.2.1; omega) htrue
        exact ⟨Bool.eq_false_of_not_eq_true hcommitted, hboth.1, hboth.2, hskip⟩

/-! ## A decommit -/

/-- A byte of the range that is given back. -/
def Gone (cbPage : Nat) (buf : LOG_BUFFER) (pb cb ib : Nat) : Prop :=
  (roundup cbPage pb ≤ ib ∧ ib < rounddn cbPage (pb + cb)) ∨
    ib + buf.cbLGBuf < rounddn cbPage (pb + cb)

theorem touches_range (hpage : 0 < cbPage) {ibStart ibEnd ib : Nat} (hstart : cbPage ∣ ibStart)
    (hend : cbPage ∣ ibEnd)
    (hlt : ibStart < ibEnd) :
    Touches cbPage (ib / cbPage) ibStart (ibEnd - ibStart) ↔ ibStart ≤ ib ∧ ib < ibEnd := by
  rw [touches_iff hpage, rounddn_of_dvd hstart, Nat.add_sub_of_le hlt.le, roundup_of_dvd hpage hend]
  exact and_iff_right (by omega)

theorem decommitRanges_iff (hpage : 0 < cbPage) (hdvd : cbPage ∣ buf.cbLGBuf)
    (hpb : pb < buf.cbLGBuf) {ib : Nat}
    (hib : ib < buf.cbLGBuf) :
    (∃ r ∈ buf.decommitRanges cbPage pb cb, Touches cbPage (ib / cbPage) r.1 r.2) ↔
      buf.Gone cbPage pb cb ib := by
  have hstart := dvd_roundup cbPage pb
  have hend := dvd_rounddn cbPage (pb + cb)
  have hle := roundup_le hpage hdvd hpb.le
  unfold decommitRanges Gone
  by_cases hfit : rounddn cbPage (pb + cb) ≤ buf.cbLGBuf
  · simp only [if_pos hfit]
    by_cases hsome : rounddn cbPage (pb + cb) > roundup cbPage pb
    · simp only [if_pos hsome, List.mem_singleton, exists_eq_left,
        touches_range hpage hstart hend hsome]
      omega
    · simp only [if_neg hsome, List.not_mem_nil, false_and, exists_false, false_iff]
      omega
  · have hwrapped : Touches cbPage (ib / cbPage) 0 (rounddn cbPage (pb + cb) - buf.cbLGBuf) ↔
        ib < rounddn cbPage (pb + cb) - buf.cbLGBuf := by
      have hrange := @touches_range cbPage hpage 0 (rounddn cbPage (pb + cb) - buf.cbLGBuf) ib
        (dvd_zero cbPage)
        (Nat.dvd_sub hend hdvd) (by omega)
      rw [Nat.sub_zero] at hrange
      rw [hrange]
      exact and_iff_right (Nat.zero_le ib)
    simp only [if_neg hfit]
    by_cases hsome : buf.cbLGBuf > roundup cbPage pb
    · simp only [if_pos hsome, List.singleton_append, List.mem_cons, List.not_mem_nil, or_false,
        exists_eq_or_imp,
        exists_eq_left, touches_range hpage hstart hdvd hsome, hwrapped]
      omega
    · simp only [if_neg hsome, List.nil_append, List.mem_singleton, exists_eq_left, hwrapped]
      omega

theorem foldl_osDecommit (ranges : List (Nat × Nat)) (buf : LOG_BUFFER) :
    ∃ pages, ranges.foldl (osDecommit cbPage) buf = { buf with pages } ∧
      ∀ ib, Committed cbPage pages ib ↔
        Committed cbPage buf.pages ib ∧ ¬ ∃ r ∈ ranges, Touches cbPage (ib / cbPage) r.1 r.2 := by
  induction ranges generalizing buf with
  | nil => exact ⟨buf.pages, rfl, fun ib => by simp⟩
  | cons r ranges ih =>
    obtain ⟨pages, heq, hpages⟩ := ih (osDecommit cbPage buf r)
    refine ⟨pages, heq, fun ib => (hpages ib).trans ?_⟩
    have hone : Committed cbPage (osDecommit cbPage buf r).pages ib ↔
        Committed cbPage buf.pages ib ∧ ¬ Touches cbPage (ib / cbPage) r.1 r.2 := by
      unfold osDecommit Committed Pages.decommit
      rw [Bool.and_eq_true, Bool.not_eq_true', decide_eq_false_iff_not]
    rw [hone]
    simp only [List.mem_cons, exists_eq_or_imp, not_or, and_assoc]

/-- `_pbLGCommitStart` after a decommit. -/
def startAfter (cbPage : Nat) (buf : LOG_BUFFER) (pb cb : Nat) : Nat :=
  if rounddn cbPage (pb + cb) ≤ buf.cbLGBuf then
    if rounddn cbPage (pb + cb) > roundup cbPage pb then
      if rounddn cbPage (pb + cb) = buf.cbLGBuf then 0 else rounddn cbPage (pb + cb)
    else buf.pbLGCommitStart
  else rounddn cbPage (pb + cb) - buf.cbLGBuf

theorem decommit_eq : ∃ pages,
    (∀ ib, Committed cbPage pages ib ↔ Committed cbPage buf.pages ib ∧
      ¬ ∃ r ∈ buf.decommitRanges cbPage pb cb, Touches cbPage (ib / cbPage) r.1 r.2) ∧
    decommit cbPage fCommit fCommitWrapped buf pb cb =
      if (rounddn cbPage (pb + cb) : Int) - roundup cbPage pb = buf.cbLGBuf then
        (commit cbPage fCommit fCommitWrapped
          ⟨buf.cbLGBuf, buf.startAfter cbPage pb cb, buf.startAfter cbPage pb cb, pages⟩
          (buf.startAfter cbPage pb cb) cbPage).2
      else if (buf.startAfter cbPage pb cb : Int) = roundup cbPage pb - 1 then
        (commit cbPage fCommit fCommitWrapped
          ⟨buf.cbLGBuf, buf.startAfter cbPage pb cb, roundup cbPage pb - 1, pages⟩
          (buf.startAfter cbPage pb cb) cbPage).2
      else ⟨buf.cbLGBuf, buf.startAfter cbPage pb cb, roundup cbPage pb - 1, pages⟩ := by
  obtain ⟨pages, heq, hpages⟩ := @foldl_osDecommit cbPage (buf.decommitRanges cbPage pb cb) buf
  refine ⟨pages, hpages, ?_⟩
  have hstart : (if rounddn cbPage (pb + cb) ≤ buf.cbLGBuf then
        if rounddn cbPage (pb + cb) > roundup cbPage pb then
          { buf with pages, pbLGCommitStart := if rounddn cbPage (pb +
            cb) = buf.cbLGBuf then 0 else rounddn cbPage (pb + cb) }
        else { buf with pages }
      else { buf with pages, pbLGCommitStart := rounddn cbPage (pb + cb) - buf.cbLGBuf }) =
        { buf with pages, pbLGCommitStart := buf.startAfter cbPage pb cb } := by
    unfold startAfter
    split_ifs <;> rfl
  unfold decommit
  rw [heq]
  dsimp only
  rw [hstart]
  by_cases hwhole : (rounddn cbPage (pb + cb) : Int) - roundup cbPage pb = buf.cbLGBuf
  · rw [if_pos hwhole, if_pos hwhole]
    exact if_pos rfl
  · rw [if_neg hwhole, if_neg hwhole]

end

end LOG_BUFFER

/-! ## The log records in the buffer -/

namespace LOG_WRITE_BUFFER

section
variable (cbPage : Nat) (s : LOG_WRITE_BUFFER)

/-- A byte of `[m_pbWrite, m_pbEntry)`. -/
def Used (ib : Nat) : Prop :=
  if s.pbWrite ≤ s.pbEntry then s.pbWrite ≤ ib ∧ ib < s.pbEntry else ib < s.pbEntry ∨ s.pbWrite ≤ ib

/-- The log records are on committed pages, and so is the part of a page before `m_pbEntry`. -/
structure Inv : Prop where
  tracks : s.pLogBuffer.Tracks cbPage s.pbEntry
  write_lt : s.pbWrite < s.pLogBuffer.cbLGBuf
  used : ∀ ib < s.pLogBuffer.cbLGBuf, s.Used ib → Committed cbPage s.pLogBuffer.pages ib
  entry : ¬ cbPage ∣ s.pbEntry → Committed cbPage s.pLogBuffer.pages s.pbEntry
  one : (s.pLogBuffer.pbLGCommitStart : Int) = s.pLogBuffer.pbLGCommitEnd → s.pbWrite = s.pbEntry

end

section
variable {cbPage : Nat} {s : LOG_WRITE_BUFFER} {ib : Nat}

theorem entry_add_cbAvail (hentry : s.pbEntry < s.pLogBuffer.cbLGBuf) :
    s.pbEntry + s.cbAvail = if s.pbWrite > s.pbEntry then s.pbWrite
      else s.pLogBuffer.cbLGBuf + s.pbWrite := by
  unfold cbAvail
  split_ifs <;> omega

/-- A decommit does not give back a page of the log records. -/
theorem Inv.used_not_gone (h : s.Inv cbPage) (hused : s.Used ib) :
    ¬ s.pLogBuffer.Gone cbPage s.pbEntry s.cbAvail ib := by
  have hentry := h.tracks.next_lt
  have hwrite := h.write_lt
  have havail := entry_add_cbAvail hentry
  have hdn := rounddn_le cbPage (s.pbEntry + s.cbAvail)
  have hpage : 0 < cbPage := Nat.pos_of_ne_zero fun hzero => by
    obtain ⟨k, hk⟩ := h.tracks.dvd
    rw [hzero, Nat.zero_mul] at hk
    omega
  have hup := le_roundup hpage s.pbEntry
  unfold Used at hused
  unfold LOG_BUFFER.Gone
  split_ifs at hused havail <;> omega

/-- What a decommit does not give back is committed. -/
theorem Inv.committed_of_not_gone (hpage : 0 < cbPage) (h : s.Inv cbPage)
    (hib : ib < s.pLogBuffer.cbLGBuf)
    (hgone : ¬ s.pLogBuffer.Gone cbPage s.pbEntry s.cbAvail ib) :
      Committed cbPage s.pLogBuffer.pages ib := by
  have hentry := h.tracks.next_lt
  have hwrite := h.write_lt
  have havail := entry_add_cbAvail hentry
  have hdn := rounddn_le cbPage (s.pbEntry + s.cbAvail)
  have hdn' := lt_rounddn_add hpage (s.pbEntry + s.cbAvail)
  have hdvd := dvd_rounddn cbPage (s.pbEntry + s.cbAvail)
  have hup := le_roundup hpage s.pbEntry
  unfold LOG_BUFFER.Gone at hgone
  -- the page of `m_pbEntry`
  have hatEntry : s.pbEntry ≤ ib → ib < roundup cbPage s.pbEntry →
    Committed cbPage s.pLogBuffer.pages ib :=
    fun hle hlt => by
      refine committed_congr (div_eq_of_lt_roundup hpage hle hlt).symm (h.entry fun haligned => ?_)
      rw [roundup_of_dvd hpage haligned] at hlt
      omega
  have hused : s.Used ib → Committed cbPage s.pLogBuffer.pages ib := h.used ib hib
  have husedWrite : s.pbWrite ≠ s.pbEntry → Committed cbPage s.pLogBuffer.pages s.pbWrite :=
    fun hne => by
    refine h.used _ hwrite ?_
    unfold Used
    split_ifs <;> omega
  unfold Used at hused
  by_cases hside : s.pbWrite > s.pbEntry
  · rw [if_pos hside] at havail
    rw [if_neg (by omega)] at hused
    by_cases hbefore : ib < s.pbEntry ∨ s.pbWrite ≤ ib
    · exact hused hbefore
    · rcases Nat.lt_or_ge ib (roundup cbPage s.pbEntry) with hlt | hge
      · exact hatEntry (by omega) hlt
      · exact committed_congr (div_eq_div hdvd (by omega) (by omega) (by omega) (by omega))
          (husedWrite (by omega))
  · rw [if_neg hside] at havail
    rw [if_pos (by omega)] at hused
    have hN :=
      le_rounddn hpage h.tracks.dvd (show s.pLogBuffer.cbLGBuf ≤ s.pbEntry + s.cbAvail by omega)
    have hdvd' := Nat.dvd_sub hdvd h.tracks.dvd
    rcases Nat.lt_or_ge ib s.pbWrite with hlt | hge
    · -- the page of `m_pbWrite`
      have hsame : s.pbWrite / cbPage = ib / cbPage :=
        div_eq_div hdvd' (by omega) (by omega) (by omega) (by omega)
      by_cases hempty : s.pbWrite = s.pbEntry
      · rw [hempty] at hsame hlt
        refine committed_congr hsame (h.entry fun haligned => ?_)
        have hadd := rounddn_of_dvd (Nat.dvd_add h.tracks.dvd haligned)
        rw [havail, hempty, hadd] at hgone
        omega
      · exact committed_congr hsame (husedWrite hempty)
    · rcases Nat.lt_or_ge ib s.pbEntry with hlt' | hge'
      · exact hused ⟨hge, hlt'⟩
      · exact hatEntry hge' (by omega)

/-- The invariant with another buffer behind the same pointers. -/
theorem Inv.of_committed (h : s.Inv cbPage) {pLogBuffer : LOG_BUFFER}
    (htracks : pLogBuffer.Tracks cbPage s.pbEntry)
    (hcb : pLogBuffer.cbLGBuf = s.pLogBuffer.cbLGBuf)
    (hused : ∀ ib < s.pLogBuffer.cbLGBuf, s.Used ib → Committed cbPage pLogBuffer.pages ib)
    (hentry : ¬ cbPage ∣ s.pbEntry → Committed cbPage pLogBuffer.pages s.pbEntry)
    (hone : (pLogBuffer.pbLGCommitStart : Int) = pLogBuffer.pbLGCommitEnd → s.pbWrite = s.pbEntry) :
    Inv cbPage { s with pLogBuffer } := by
  refine ⟨htracks, ?_, ?_, hentry, hone⟩
  · change s.pbWrite < pLogBuffer.cbLGBuf
    rw [hcb]
    exact h.write_lt
  · intro ib hib
    change ib < pLogBuffer.cbLGBuf at hib
    rw [hcb] at hib
    exact hused ib hib

theorem Inv.decommit (hpage : 1 < cbPage) (h : s.Inv cbPage) (fCommit fCommitWrapped : Bool) :
    Inv cbPage
      { s with pLogBuffer :=
        s.pLogBuffer.decommit cbPage fCommit fCommitWrapped s.pbEntry s.cbAvail } := by
  have hzero : 0 < cbPage := by omega
  have hlt := h.tracks.next_lt
  have hwrite := h.write_lt
  have havail := entry_add_cbAvail hlt
  obtain ⟨pages, hpages, heq⟩ :=
    @LOG_BUFFER.decommit_eq cbPage fCommit fCommitWrapped s.pLogBuffer s.pbEntry s.cbAvail
  have hkept : ∀ ib < s.pLogBuffer.cbLGBuf, ¬ s.pLogBuffer.Gone cbPage s.pbEntry s.cbAvail ib →
      Committed cbPage pages ib := fun ib hib hgone =>
    (hpages ib).2 ⟨h.committed_of_not_gone hzero hib hgone, fun hrange =>
      hgone ((LOG_BUFFER.decommitRanges_iff hzero h.tracks.dvd hlt hib).1 hrange)⟩
  have hused : ∀ ib < s.pLogBuffer.cbLGBuf, s.Used ib → Committed cbPage pages ib :=
    fun ib hib hused =>
    hkept ib hib (h.used_not_gone hused)
  have hup := le_roundup hzero s.pbEntry
  have hup' := roundup_lt hzero s.pbEntry
  have hupN := roundup_le hzero h.tracks.dvd hlt.le
  have hdn := rounddn_le cbPage (s.pbEntry + s.cbAvail)
  have hcb : s.pbEntry + s.cbAvail ≤ s.pbEntry + s.pLogBuffer.cbLGBuf := by
    split_ifs at havail <;> omega
  rw [heq]
  by_cases hwhole : (rounddn cbPage (s.pbEntry + s.cbAvail) : Int) - roundup cbPage s.pbEntry =
    s.pLogBuffer.cbLGBuf
  · -- nothing is used, and all pages were given back
    have haligned : roundup cbPage s.pbEntry = s.pbEntry := by omega
    have hempty : s.pbWrite = s.pbEntry := by split_ifs at havail <;> omega
    have hdvd : cbPage ∣ s.pbEntry := by
      rw [← haligned]
      exact dvd_roundup cbPage s.pbEntry
    have hstart : s.pLogBuffer.startAfter cbPage s.pbEntry s.cbAvail = s.pbEntry := by
      unfold LOG_BUFFER.startAfter
      split_ifs <;> omega
    have hnone : ∀ {pages' : Nat → Bool}, ∀ ib < s.pLogBuffer.cbLGBuf, s.Used ib →
      Committed cbPage pages' ib :=
      fun ib _ hused => by
        unfold Used at hused
        rw [if_pos hempty.le] at hused
        omega
    rw [if_pos hwhole, hstart]
    have htracks : LOG_BUFFER.Tracks cbPage ⟨s.pLogBuffer.cbLGBuf, s.pbEntry, s.pbEntry, pages⟩
      s.pbEntry := by
      refine ⟨h.tracks.dvd, hlt, hdvd, hlt, by dsimp only; omega, by dsimp only; omega, .inl rfl,
        fun ib _ htracked => .inr ⟨rfl, ?_⟩, LOG_BUFFER.pbNextToCommitted_iff.2 ?_, fun _ => rfl⟩
      · unfold LOG_BUFFER.Tracked at htracked
        dsimp only at htracked ⊢
        rw [if_pos le_rfl] at htracked
        omega
      · dsimp only
        rw [if_pos le_rfl]
        omega
    obtain ⟨pages', hmono, -, hfalse | ⟨htrue, -, hnext⟩⟩ :=
      @LOG_BUFFER.Tracks.commit cbPage fCommit fCommitWrapped _ s.pbEntry cbPage hpage htracks hzero
    · rw [hfalse]
      exact h.of_committed (htracks.mono hmono) rfl hnone (fun hne => absurd hdvd hne) fun _ =>
        hempty
    · rw [htrue]
      have hnext := hnext 0 hzero (by dsimp only; omega) fun hskips =>
        Nat.not_lt_zero _ hskips.2.2.2.1
      rw [Nat.add_zero, if_neg (by dsimp only; omega)] at hnext
      exact h.of_committed hnext rfl hnone (fun hne => absurd hdvd hne) fun _ => hempty
  · have hdvd : cbPage ∣ s.pLogBuffer.startAfter cbPage s.pbEntry s.cbAvail := by
      unfold LOG_BUFFER.startAfter
      split_ifs
      · exact dvd_zero cbPage
      · exact dvd_rounddn cbPage _
      · exact h.tracks.start_dvd
      · exact Nat.dvd_sub (dvd_rounddn cbPage _) h.tracks.dvd
    have hne := LOG_BUFFER.ne_of_boundary hpage hdvd (dvd_roundup cbPage s.pbEntry)
    have hstartLt : s.pLogBuffer.startAfter cbPage s.pbEntry s.cbAvail < s.pLogBuffer.cbLGBuf := by
      have hstart := h.tracks.start_lt
      unfold LOG_BUFFER.startAfter
      split_ifs <;> omega
    rw [if_neg hwhole, if_neg hne]
    refine h.of_committed
      ⟨h.tracks.dvd, hlt, hdvd, hstartLt, by dsimp only; omega, by dsimp only; omega,
      .inr ⟨_, dvd_roundup cbPage s.pbEntry, rfl⟩, fun ib hib htracked =>
        .inl (hkept ib hib fun hgone => ?_),
      LOG_BUFFER.pbNextToCommitted_iff.2 ?_, fun heq => absurd heq hne⟩ rfl hused
        (fun hunaligned => ?_)
      fun heq => absurd heq hne
    · unfold LOG_BUFFER.Tracked LOG_BUFFER.startAfter at htracked
      unfold LOG_BUFFER.Gone at hgone
      dsimp only at htracked hib
      split_ifs at htracked <;> omega
    · dsimp only
      have hadd : s.pLogBuffer.startAfter cbPage s.pbEntry s.cbAvail < roundup cbPage s.pbEntry →
          s.pLogBuffer.startAfter cbPage s.pbEntry s.cbAvail + cbPage ≤ roundup cbPage s.pbEntry :=
        add_le_of_lt hdvd (dvd_roundup cbPage s.pbEntry)
      split_ifs <;> omega
    · refine hkept _ hlt fun hgone => ?_
      have hunequal : roundup cbPage s.pbEntry ≠ s.pbEntry := fun heq => by
        rw [← heq] at hunaligned
        exact hunaligned (dvd_roundup cbPage s.pbEntry)
      unfold LOG_BUFFER.Gone at hgone
      omega

/-! ## Steps -/

/-- A call of `EnsureCommitted` in this state is one for which the range that is tracked next
reaches the bytes behind, and it does not ask for the one byte that is tracked after a failed
commit. -/
def Meets (cbPage : Nat) (s : LOG_WRITE_BUFFER) : BUFFEROPER → Prop
  | .logRec cbReq fCommit fCommitWrapped => cbReq < s.cbAvail →
    ¬ s.pLogBuffer.AsksOne s.pbEntry cbReq ∧
      ¬ s.pLogBuffer.CommitSkips cbPage fCommit fCommitWrapped s.pbEntry cbReq
  | .write _ => True
  | .decommit _ _ => True

instance : ∀ op, Decidable (Meets cbPage s op)
  | .logRec .. => inferInstanceAs (Decidable (_ → _))
  | .write _ => inferInstanceAs (Decidable True)
  | .decommit _ _ => inferInstanceAs (Decidable True)

theorem Inv.logRec (hpage : 1 < cbPage) (h : s.Inv cbPage) {cbReq : Nat}
    {fCommit fCommitWrapped : Bool}
    (hmeets : s.Meets cbPage (.logRec cbReq fCommit fCommitWrapped)) :
    (s.step cbPage (.logRec cbReq fCommit fCommitWrapped)).Inv cbPage := by
  have hlt := h.tracks.next_lt
  have hwrite := h.write_lt
  have havail := entry_add_cbAvail hlt
  unfold step
  by_cases hroom : s.cbAvail ≤ cbReq
  · simp only [if_pos hroom]
    exact h
  obtain ⟨hone, hskips⟩ := hmeets (by omega)
  obtain ⟨fCommitted, buf', heq, hcb, hmono, hsame, hfalse, htrue⟩ :=
    @LOG_BUFFER.Tracks.ensureCommitted cbPage fCommit fCommitWrapped s.pLogBuffer s.pbEntry cbReq
      hpage h.tracks hone
  simp only [if_neg hroom, heq]
  cases fCommitted with
  | false =>
    exact h.of_committed (hfalse rfl) hcb (fun ib hib hused => hmono ib (h.used ib hib hused))
      (fun hunaligned => hmono _ (h.entry hunaligned)) fun heq => h.one (hsame heq).1
  | true =>
    obtain ⟨hrange, hnext⟩ := htrue rfl
    have hreq : cbReq < s.pLogBuffer.cbLGBuf := by split_ifs at havail <;> omega
    have hnext := hnext hreq hskips
    unfold LOG_BUFFER.RangeCommitted at hrange
    rw [hcb] at hrange
    refine ⟨hnext, ?_, fun ib hib hused => ?_, fun hunaligned => ?_, fun heq => ?_⟩
    · change s.pbWrite < buf'.cbLGBuf
      rwa [hcb]
    · change ib < buf'.cbLGBuf at hib
      rw [hcb] at hib
      have hold : s.Used ib ∨ (s.pbEntry ≤ ib ∧ ib < s.pbEntry + cbReq) ∨
          ib + s.pLogBuffer.cbLGBuf < s.pbEntry + cbReq := by
        change if s.pbWrite ≤ s.advance s.pbEntry cbReq then s.pbWrite ≤ ib ∧
          ib < s.advance s.pbEntry cbReq
          else ib < s.advance s.pbEntry cbReq ∨ s.pbWrite ≤ ib at hused
        unfold advance at hused
        unfold Used
        split_ifs at hused havail ⊢ <;> omega
      rcases hold with hold | hnew
      · exact hmono ib (h.used ib hib hold)
      · exact hrange ib hib hnew
    · change ¬ cbPage ∣ s.advance s.pbEntry cbReq at hunaligned
      change Committed cbPage buf'.pages (s.advance s.pbEntry cbReq)
      rcases Nat.eq_zero_or_pos cbReq with rfl | hpos
      · have hsame : s.advance s.pbEntry 0 = s.pbEntry := by
          unfold advance
          rw [Nat.add_zero, if_neg (by omega)]
        rw [hsame] at hunaligned ⊢
        exact hmono _ (h.entry hunaligned)
      · -- the byte before is one of the record
        have hne : s.advance s.pbEntry cbReq ≠ 0 :=
          fun hzero => hunaligned (by rw [hzero]; exact dvd_zero cbPage)
        refine committed_congr (pred_div (by omega) hunaligned) (hrange _ ?_ ?_)
        · unfold advance at hne ⊢
          split_ifs at hne ⊢ <;> omega
        · unfold advance at hne ⊢
          split_ifs at hne ⊢ <;> omega
    · obtain ⟨hold, hnone⟩ := hsame heq
      obtain rfl : cbReq = 0 := hnone rfl
      change s.pbWrite = s.advance s.pbEntry 0
      unfold advance
      rw [Nat.add_zero, if_neg (by omega)]
      exact h.one hold

theorem Inv.write (h : s.Inv cbPage) (cbWritten : Nat) :
    (s.step cbPage (.write cbWritten)).Inv cbPage := by
  have hlt := h.tracks.next_lt
  have hwrite := h.write_lt
  have hone := h.one
  unfold step
  by_cases hused : cbWritten ≤ s.cbUsed
  · simp only [if_pos hused]
    unfold cbUsed cbAvail at hused
    refine ⟨h.tracks, ?_, fun ib hib hused' => h.used ib hib ?_, h.entry, fun heq => ?_⟩
    · change s.advance s.pbWrite cbWritten < s.pLogBuffer.cbLGBuf
      unfold advance
      split_ifs at hused ⊢ <;> omega
    · unfold Used advance at hused'
      unfold Used
      dsimp only at hused' hib
      split_ifs at hused hused' ⊢ <;> omega
    · have hempty := hone heq
      change s.advance s.pbWrite cbWritten = s.pbEntry
      unfold advance
      split_ifs at hused ⊢ <;> omega
  · simp only [if_neg hused]
    exact h

theorem Inv.step (hpage : 1 < cbPage) (h : s.Inv cbPage) {op : BUFFEROPER}
    (hmeets : s.Meets cbPage op) :
    (s.step cbPage op).Inv cbPage := by
  cases op with
  | logRec cbReq fCommit fCommitWrapped => exact h.logRec hpage hmeets
  | write cbWritten => exact h.write cbWritten
  | decommit fCommit fCommitWrapped => exact h.decommit hpage fCommit fCommitWrapped

/-- The buffer after `InitCommit`. -/
theorem inv_init (hpage : 1 < cbPage) {cbLGBuf cBytes : Nat} (hdvd : cbPage ∣ cbLGBuf)
    (hpos : 0 < cBytes)
    (hlt : 0 < cbLGBuf) {fCommit fCommitWrapped : Bool} {buf : LOG_BUFFER}
    (h : LOG_BUFFER.initCommit cbPage fCommit fCommitWrapped cbLGBuf cBytes = some buf) :
      Inv cbPage ⟨buf, 0, 0⟩ := by
  have htracks : LOG_BUFFER.Tracks cbPage ⟨cbLGBuf, 0, 0, fun _ => false⟩ 0 := by
    refine ⟨hdvd, hlt, dvd_zero cbPage, hlt, show (-1 : Int) ≤ 0 by decide, Int.ofNat_lt.2 hlt,
      .inl rfl,
      fun ib _ htracked => .inr ⟨rfl, ?_⟩, by simp [LOG_BUFFER.pbNextToCommitted], fun _ => rfl⟩
    unfold LOG_BUFFER.Tracked at htracked
    dsimp only at htracked ⊢
    rw [if_pos (by decide)] at htracked
    omega
  have hup := @le_roundup cbPage (by omega) cBytes
  obtain ⟨pages, -, hne, hfalse | ⟨htrue, -, hnext⟩⟩ :=
    @LOG_BUFFER.Tracks.commit cbPage fCommit fCommitWrapped _ 0
      (roundup cbPage cBytes) hpage htracks (by omega)
  · rw [LOG_BUFFER.initCommit, hfalse] at h
    exact absurd h (by simp)
  · rw [LOG_BUFFER.initCommit, htrue] at h
    obtain rfl := Option.some.inj h
    have hnext := hnext 0 (by omega) hlt fun hskips => Nat.not_lt_zero _ hskips.2.2.2.1
    rw [Nat.add_zero, if_neg (Nat.not_le.2 hlt)] at hnext
    refine ⟨hnext, hlt, fun ib _ hused => ?_, fun hunaligned => absurd (dvd_zero cbPage) hunaligned,
      fun _ => rfl⟩
    unfold Used at hused
    dsimp only at hused
    rw [if_pos le_rfl] at hused
    omega

/-- What the tracking is for: a range that is found committed is committed, a decommit keeps the
pages of the log records, and the next bytes are in the tracked range or next to it. -/
structure Sound (cbPage : Nat) (s : LOG_WRITE_BUFFER) : Prop where
  fIsCommitted : ∀ pb cb, pb < s.pLogBuffer.cbLGBuf → ¬ s.pLogBuffer.AsksOne pb cb →
    s.pLogBuffer.fIsCommitted pb cb = true → s.pLogBuffer.RangeCommitted cbPage pb cb
  ensureCommitted : ∀ fCommit fCommitWrapped cb buf, ¬ s.pLogBuffer.AsksOne s.pbEntry cb →
    s.pLogBuffer.ensureCommitted cbPage fCommit fCommitWrapped s.pbEntry cb = (true, buf) →
    buf.RangeCommitted cbPage s.pbEntry cb
  decommit : ∀ r ∈ s.pLogBuffer.decommitRanges cbPage s.pbEntry s.cbAvail, ∀ ib <
    s.pLogBuffer.cbLGBuf, s.Used ib →
    ¬ Touches cbPage (ib / cbPage) r.1 r.2
  used : ∀ ib < s.pLogBuffer.cbLGBuf, s.Used ib → Committed cbPage s.pLogBuffer.pages ib
  next : s.pLogBuffer.pbNextToCommitted s.pbEntry = true

theorem Inv.sound (hpage : 1 < cbPage) (h : s.Inv cbPage) : s.Sound cbPage := by
  refine ⟨fun pb cb hpb hone hcommitted => h.tracks.fIsCommitted_sound hpb hone hcommitted,
    fun fCommit fCommitWrapped cb buf hone heq => ?_, fun r hr ib hib hused htouches => ?_, h.used,
    h.tracks.next⟩
  · obtain ⟨fCommitted, buf', heq', -, -, -, -, htrue⟩ :=
      @LOG_BUFFER.Tracks.ensureCommitted cbPage fCommit fCommitWrapped s.pLogBuffer s.pbEntry cb
        hpage h.tracks hone
    rw [heq'] at heq
    obtain ⟨rfl, rfl⟩ := Prod.mk.inj heq
    exact (htrue rfl).1
  · exact h.used_not_gone hused
      ((LOG_BUFFER.decommitRanges_iff (by omega) h.tracks.dvd h.tracks.next_lt hib).1
      ⟨r, hr, htouches⟩)

/-- A step that meets the condition. -/
def MeetingStep (cbPage : Nat) (op : BUFFEROPER) (s s' : LOG_WRITE_BUFFER) : Prop :=
  s' = s.step cbPage op ∧ s.Meets cbPage op

/-- In a run without a commit at the start of the buffer that skips, the tracking is sound in every
state. -/
theorem tracking_sound (hpage : 1 < cbPage) {cbLGBuf cBytes : Nat} (hdvd : cbPage ∣ cbLGBuf)
    (hpos : 0 < cBytes)
    (hlt : 0 < cbLGBuf) {fCommit fCommitWrapped : Bool} {buf : LOG_BUFFER}
    (hinit : LOG_BUFFER.initCommit cbPage fCommit fCommitWrapped cbLGBuf cBytes = some buf)
      {ops : List BUFFEROPER}
    (hrun : Run (MeetingStep cbPage) ⟨buf, 0, 0⟩ ops s) : s.Sound cbPage := by
  refine Inv.sound hpage
    (hrun.invariant (fun op s s' hinv hstep => ?_) (inv_init hpage hdvd hpos hlt hinit))
  rw [hstep.1]
  exact hinv.step hpage hstep.2

end

/-- In a buffer of sixteen pages only the last page is left by a decommit. A log record is added
then that goes round the end of the buffer, first without success, and a second decommit follows. -/
theorem tracking_sound_record :
    ∃ buf, LOG_BUFFER.initCommit 4096 true true 65536 4096 = some buf ∧
      ∃ s, Run (MeetingStep 4096) ⟨buf, 0, 0⟩
        [.logRec 61952 true true, .write 61952, .decommit true true, .logRec 5000 true false,
          .logRec 5000 true true, .decommit true true] s ∧
        s.pbWrite = 61952 ∧ s.pbEntry = 1416 ∧ s.pLogBuffer.pbLGCommitStart = 61440 ∧
        s.pLogBuffer.pbLGCommitEnd = 4095 ∧ s.Sound 4096 := by
  let buf : LOG_BUFFER := ⟨65536, 0, 4095, Pages.commit 4096 (fun _ => false) 0 4096⟩
  have hinit : LOG_BUFFER.initCommit 4096 true true 65536 4096 = some buf := rfl
  have hrun : Run (MeetingStep 4096) ⟨buf, 0, 0⟩
      [.logRec 61952 true true, .write 61952, .decommit true true,
      .logRec 5000 true false, .logRec 5000 true true, .decommit true true] _ :=
    .snoc (.snoc (.snoc (.snoc (.snoc (.snoc (.refl _) ⟨rfl, by decide⟩) ⟨rfl, by decide⟩)
      ⟨rfl, by decide⟩) ⟨rfl, by decide⟩) ⟨rfl, by decide⟩) ⟨rfl, by decide⟩
  exact ⟨buf, hinit, _, hrun, by decide, by decide, by decide, by decide,
    tracking_sound (by decide) (by decide) (by decide) (by decide) hinit hrun⟩

/-- Only the last page is tracked, and 49153 bytes at the start of the buffer are committed with 16
KB more, which goes round the buffer by one byte: the tracked range then ends with the first page,
and the next bytes are not next to it. And after a decommit of the whole buffer of which the commit
fails one byte is found committed. -/
theorem tracking_skips :
    ∃ buf, LOG_BUFFER.initCommit 4096 true true 65536 4096 = some buf ∧
      (∃ s, s = [BUFFEROPER.logRec 61952 true true, .write 61952, .decommit true true,
          .logRec 3584 true true,
          .logRec 49153 true true].foldl (step 4096) ⟨buf, 0, 0⟩ ∧
        s.pbEntry = 49153 ∧ s.pLogBuffer.pbNextToCommitted s.pbEntry = false) ∧
      ∃ s, s = [BUFFEROPER.decommit false true].foldl (step 4096) ⟨buf, 0, 0⟩ ∧
        s.pLogBuffer.fIsCommitted 0 1 = true ∧ ¬ s.pLogBuffer.RangeCommitted 4096 0 1 := by
  refine ⟨_, rfl, ⟨_, rfl, by decide, by decide⟩, _, rfl, by decide, fun h => ?_⟩
  have hzero := h 0 (by decide) (.inl (by decide))
  revert hzero
  decide

end LOG_WRITE_BUFFER

end Ese.LogBuffer
