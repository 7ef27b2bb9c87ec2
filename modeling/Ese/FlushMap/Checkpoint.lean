import Mathlib.Algebra.BigOperators.Group.Finset.Basic
import Mathlib.Algebra.Order.BigOperators.Group.Finset
import Mathlib.Data.Int.ConditionallyCompleteOrder
import Mathlib.Data.Int.Interval
import Mathlib.Order.Interval.Finset.Basic
import Ese.FlushMap.Basic
import Ese.Lib.Run

/-!
# Checkpoint safety of the flush map

A history beside the map remembers, since the last sweep recorded its target, which pages were dirty
then, the contents the pages have had and the contents that writes have completed with. A page of
the sweep is done when a write has completed with contents it has had since. Dirty pages that are
not done stay ahead of the sweep's cursor, so at the last header write every page is done, and the
header in memory carries the recorded target.
-/

namespace Ese.FlushMap

/-- What happened since the sweep recorded its target. -/
structure History where
  lGenMinRequiredTarget : Int
  fDirty : Int → Prop
  rgpvSince : Int → List FmDataPage
  rgpvWritten : Int → List FmDataPage

namespace CFlushMap

/-- The `lGenMinRequired` that has been persisted. -/
def lGenMinRequired (pfm : CFlushMap) : Int := pfm.m_fmdFmHdr.pv.lGenMinRequired

/-- The operation records the target of a sweep. -/
def recordsTarget (op : Op) (pfm : CFlushMap) : Bool :=
  match op with
  | .Continue _ _ => pfm.pc = .Enter ∧ pfm.m_fmpgnoSectionFlushNext = s_fmpgnoUninit
  | _ => false

/-- The contents of a page with which the operation completes a write. -/
def written (op : Op) (pfm : CFlushMap) (fmpgno : Int) : List FmDataPage :=
  match op with
  | .OsWriteIoComplete_ fmpgnoIo errIo =>
    if fmpgnoIo = fmpgno ∧ errIo ≥ JET_errSuccess then (pfm.m_rgfmd fmpgno).pvWriteBuffer.toList
    else []
  | _ => []

/-- The thread is to write the header a last time. -/
def issuesFinalHdr (errFlush : Int) (pfm : CFlushMap) : Prop :=
  ∃ fmpgno, pfm.pc = .FindFirst fmpgno ∧ pfm.fmpgnoUsedMax < fmpgno
    ∧ (pfm.m_fmdFmHdr.fRecentlyAsyncWrittenHeader = true → JET_errSuccess ≤ errFlush)

end CFlushMap

open CFlushMap

/-- The history after an operation from `pfm` to `pfm'`. -/
def History.after (h : History) (op : Op) (pfm pfm' : CFlushMap) : History :=
  if recordsTarget op pfm then
    { lGenMinRequiredTarget := pfm'.pfmfilehdrInMemory.lGenMinRequiredTarget
      fDirty := fun fmpgno => 0 ≤ fmpgno ∧ fmpgno ≤ pfm.fmpgnoUsedMax ∧ (pfm.m_rgfmd fmpgno).fDirty
      rgpvSince := fun fmpgno => [(pfm.m_rgfmd fmpgno).pv]
      rgpvWritten := fun _ => [] }
  else
    { h with
      rgpvSince := fun fmpgno => (pfm'.m_rgfmd fmpgno).pv :: h.rgpvSince fmpgno
      rgpvWritten := fun fmpgno => written op pfm fmpgno ++ h.rgpvWritten fmpgno }

/-- If it was dirty at the target, the page has since been written with contents at least that
recent. -/
def History.Done (h : History) (fmpgno : Int) : Prop :=
  h.fDirty fmpgno → ∃ pv ∈ h.rgpvWritten fmpgno, pv ∈ h.rgpvSince fmpgno

/-! ## The invariant -/

/-- The invariant of a page. -/
structure PageInv (h : History) (fmpgno : Int) (fmd : FlushMapPageDescriptor FmDataPage) :
    Prop where
  since : fmd.pv ∈ h.rgpvSince fmpgno
  valid : fmd.fDirty = true ∨ fmd.fAsyncWriteInProgress = true → fmd.fValid = true
  buffer : fmd.fAsyncWriteInProgress = true → ∃ pv ∈ h.rgpvSince fmpgno, fmd.pvWriteBuffer = some pv
  pending : h.Done fmpgno ∨ fmd.fDirty = true ∨ fmd.fAsyncWriteInProgress = true

/-- A page of the section under way is done, or its write is in progress or has failed. -/
def Swept (h : History) (fmpgno : Int) (fmd : FlushMapPageDescriptor FmDataPage) : Prop :=
  h.Done fmpgno ∨ fmd.fAsyncWriteInProgress = true ∨ fmd.errAsyncWrite < JET_errSuccess

/-- The invariant of the header. Only a last header write has a `lGenMinRequired` to persist. -/
structure HdrInv (pfm : CFlushMap) (h : History) : Prop where
  buffer : pfm.m_fmdFmHdr.pvWriteBuffer = some pfm.pfmfilehdrInMemory
  same : pfm.m_fSectionCheckpointHeaderWrite = false →
    pfm.pfmfilehdrInMemory.lGenMinRequired = pfm.lGenMinRequired
  done : pfm.m_fSectionCheckpointHeaderWrite = true → ∀ fmpgno, h.Done fmpgno
  target : pfm.m_fSectionCheckpointHeaderWrite = true →
    pfm.pfmfilehdrInMemory.lGenMinRequired = h.lGenMinRequiredTarget
  le : pfm.lGenMinRequired ≤ pfm.pfmfilehdrInMemory.lGenMinRequired

/-- The header in memory has the recorded target. -/
structure TargetOk (pfm : CFlushMap) (h : History) : Prop where
  target : pfm.pfmfilehdrInMemory.lGenMinRequiredTarget = h.lGenMinRequiredTarget
  le : pfm.pfmfilehdrInMemory.lGenMinRequired ≤ pfm.pfmfilehdrInMemory.lGenMinRequiredTarget

/-- No write is in progress. -/
structure Quiet (pfm : CFlushMap) : Prop where
  pages : ∀ fmpgno, (pfm.m_rgfmd fmpgno).fAsyncWriteInProgress = false
  hdr : pfm.m_fmdFmHdr.fAsyncWriteInProgress = false

/-- Between two sections. -/
structure AtRest (pfm : CFlushMap) (h : History) : Prop where
  quiet : Quiet pfm
  final : pfm.m_fSectionCheckpointHeaderWrite = true → pfm.m_fmpgnoSectionFlushNext = s_fmpgnoHdr
  target : pfm.m_fSectionCheckpointHeaderWrite = false →
    pfm.m_fmpgnoSectionFlushNext ≠ s_fmpgnoUninit →
    TargetOk pfm h

/-- The cursor is at a page. -/
structure Sweeping (pfm : CFlushMap) (h : History) : Prop where
  final : pfm.m_fSectionCheckpointHeaderWrite = false
  next : 0 ≤ pfm.m_fmpgnoSectionFlushNext
  target : TargetOk pfm h

/-- The section `first..last` of pages is under way, and what is before it is done. -/
structure Section (pfm : CFlushMap) (h : History) (first last : Int) : Prop where
  sweeping : Sweeping pfm h
  first_nonneg : 0 ≤ first
  first_le : first ≤ last + 1
  last_le : last ≤ pfm.fmpgnoUsedMax
  inProgress : ∀ fmpgno, (pfm.m_rgfmd fmpgno).fAsyncWriteInProgress = true → first ≤ fmpgno ∧
    fmpgno ≤ last
  hdr : pfm.m_fmdFmHdr.fAsyncWriteInProgress = false
  before : ∀ fmpgno < first, h.Done fmpgno
  swept : ∀ fmpgno, first ≤ fmpgno → fmpgno ≤ last → Swept h fmpgno (pfm.m_rgfmd fmpgno)

/-- The header write is under way. -/
structure HdrSection (pfm : CFlushMap) (h : History) (err : Int) : Prop where
  err : JET_errSuccess ≤ err
  pages : ∀ fmpgno, (pfm.m_rgfmd fmpgno).fAsyncWriteInProgress = false
  target : pfm.m_fSectionCheckpointHeaderWrite = false → TargetOk pfm h

/-- The section of pages in flight is the header's or one of data pages. -/
def InFlight (pfm : CFlushMap) (h : History) (err : Int) (first last : Int) : Prop :=
  (first = s_fmpgnoHdr ∧ last = s_fmpgnoHdr ∧ HdrSection pfm h err) ∨
    (first ≤ last ∧ Section pfm h first last)

/-- The invariant of the thread. -/
def PcInv (pfm : CFlushMap) (h : History) : Pc → Prop
  | .Idle | .Enter => AtRest pfm h
  | .FindFirst first => Quiet pfm ∧ Sweeping pfm h ∧ 0 ≤ first ∧ ∀ fmpgno < first, h.Done fmpgno
  | .Flush _ first last check cfmpgAsyncWrite =>
    Section pfm h first last ∧ cfmpgAsyncWrite = last - first + 1
      ∧ ∀ fmpgno, last < fmpgno → fmpgno < check → (pfm.m_rgfmd fmpgno).fValid = true
  | .Write _ first last check fmpgnoSectionFlush cfmpgAsyncWrite =>
    Section pfm h first last ∧ cfmpgAsyncWrite = last - first + 1 ∧ fmpgnoSectionFlush = last + 1
      ∧ check ≤ pfm.fmpgnoUsedMax
      ∧ ∀ fmpgno, last < fmpgno → fmpgno ≤ check → (pfm.m_rgfmd fmpgno).fValid = true
  | .HandleError err first last cfmpgAsyncWrite =>
    if cfmpgAsyncWrite > 0 then InFlight pfm h err first last else AtRest pfm h
  | .Partitioned => InFlight pfm h pfm.m_errSectionFlushWriteLastError pfm.m_fmpgnoSectionFlushFirst
      pfm.m_fmpgnoSectionFlushLast

/-- The thread inside `FlushOneSection_` is a member of the group. -/
def sentinel : Pc → Int
  | .Idle | .Partitioned => 0
  | _ => 1

/-- The writes in progress. -/
noncomputable def inFlight (pfm : CFlushMap) : Nat :=
  pfm.m_fmdFmHdr.fAsyncWriteInProgress.toNat
    + ∑ fmpgno ∈ Finset.Ico 0 pfm.m_cfmpgAllocated, (pfm.m_rgfmd fmpgno).fAsyncWriteInProgress.toNat

/-- The invariant of what the thread and the completions share. -/
structure Shared (pfm : CFlushMap) (h : History) : Prop where
  pages : ∀ fmpgno, PageInv h fmpgno (pfm.m_rgfmd fmpgno)
  range : ∀ fmpgno, h.fDirty fmpgno → 0 ≤ fmpgno ∧ fmpgno ≤ pfm.fmpgnoUsedMax
  hdr : HdrInv pfm h
  next : pfm.m_fmpgnoSectionFlushNext = s_fmpgnoUninit ∨ pfm.m_fmpgnoSectionFlushNext = s_fmpgnoHdr
    ∨ 0 ≤ pfm.m_fmpgnoSectionFlushNext
  cursor : pfm.m_fSectionCheckpointHeaderWrite = false →
    ∀ fmpgno < pfm.m_fmpgnoSectionFlushNext, h.Done fmpgno

/-- The invariant of the sweeps: the count of the writes in flight, the last header write, and the
place. -/
structure Inv (pfm : CFlushMap) (h : History) : Prop extends Shared pfm h where
  count : pfm.m_msSectionFlush = sentinel pfm.pc + inFlight pfm
  /-- The last header write is in progress, or has failed or been persisted. -/
  persisted : pfm.m_fSectionCheckpointHeaderWrite = true →
    pfm.m_fmdFmHdr.fAsyncWriteInProgress = true
    ∨ pfm.m_fmdFmHdr.errAsyncWrite < JET_errSuccess ∨ pfm.m_fmdFmHdr.pv = pfm.pfmfilehdrInMemory
  pc : PcInv pfm h pfm.pc

/-! ## Histories -/

/-- `h'` continues `h`. -/
structure History.Le (h h' : History) : Prop where
  target : h'.lGenMinRequiredTarget = h.lGenMinRequiredTarget
  dirty : h'.fDirty = h.fDirty
  since : ∀ fmpgno, h.rgpvSince fmpgno ⊆ h'.rgpvSince fmpgno
  written : ∀ fmpgno, h.rgpvWritten fmpgno ⊆ h'.rgpvWritten fmpgno

/-- A step that records no target leaves the history behind. -/
theorem History.le_after (h : History) (op : Op) (pfm pfm' : CFlushMap)
    (hop : recordsTarget op pfm = false) :
    h.Le (h.after op pfm pfm') := by
  rw [History.after, hop]
  exact ⟨rfl, rfl, fun _ _ hpv => List.mem_cons_of_mem _ hpv, fun _ _ hpv =>
    List.mem_append_right _ hpv⟩

section
variable {h h' : History} (hle : h.Le h')
include hle

/-- A page that is done stays done. -/
theorem History.Done.mono {fmpgno : Int} (hd : h.Done fmpgno) : h'.Done fmpgno := by
  intro hdirty
  rw [hle.dirty] at hdirty
  obtain ⟨pv, hw, hs⟩ := hd hdirty
  exact ⟨pv, hle.written _ hw, hle.since _ hs⟩

/-- What holds of a page stays. -/
theorem PageInv.mono {fmpgno : Int} {fmd : FlushMapPageDescriptor FmDataPage}
    (hp : PageInv h fmpgno fmd) :
    PageInv h' fmpgno fmd := by
  refine ⟨hle.since _ hp.since, hp.valid, fun hio => ?_, hp.pending.imp_left (.mono hle)⟩
  obtain ⟨pv, hs, hb⟩ := hp.buffer hio
  exact ⟨pv, hle.since _ hs, hb⟩

/-- What holds of the header stays. -/
theorem HdrInv.mono {pfm : CFlushMap} (hh : HdrInv pfm h) : HdrInv pfm h' :=
  ⟨hh.buffer, hh.same, fun hf fmpgno => (hh.done hf fmpgno).mono hle,
    fun hf => (hh.target hf).trans hle.target.symm, hh.le⟩

/-- What holds of the target stays. -/
theorem TargetOk.mono {pfm : CFlushMap} (ht : TargetOk pfm h) : TargetOk pfm h' :=
  ⟨ht.target.trans hle.target.symm, ht.le⟩

/-- What holds of a section stays. -/
theorem Section.mono {pfm : CFlushMap} {first last : Int} (hs : Section pfm h first last) :
    Section pfm h' first last :=
  ⟨⟨hs.sweeping.final, hs.sweeping.next, hs.sweeping.target.mono hle⟩, hs.first_nonneg, hs.first_le,
    hs.last_le,
    hs.inProgress, hs.hdr, fun p hp => (hs.before p hp).mono hle,
    fun p hp hp' => (hs.swept p hp hp').imp_left (.mono hle)⟩

/-- What holds at rest stays. -/
theorem AtRest.mono {pfm : CFlushMap} (hr : AtRest pfm h) : AtRest pfm h' :=
  ⟨hr.quiet, hr.final, fun hf hn => (hr.target hf hn).mono hle⟩

/-- What holds in flight stays. -/
theorem InFlight.mono {pfm : CFlushMap} {err : Int} {first last : Int}
    (hi : InFlight pfm h err first last) :
    InFlight pfm h' err first last := by
  rcases hi with ⟨hfirst, hlast, hh⟩ | ⟨hle', hs⟩
  · exact .inl ⟨hfirst, hlast, hh.err, hh.pages, fun hf => (hh.target hf).mono hle⟩
  · exact .inr ⟨hle', hs.mono hle⟩

/-- What holds at a place stays. -/
theorem PcInv.mono {pfm : CFlushMap} {pc : Pc} (hp : PcInv pfm h pc) : PcInv pfm h' pc := by
  cases pc with
  | Idle | Enter => exact AtRest.mono hle hp
  | FindFirst first =>
    obtain ⟨hq, hs, hfirst, hd⟩ := hp
    exact ⟨hq, ⟨hs.final, hs.next, hs.target.mono hle⟩, hfirst, fun p hp => (hd p hp).mono hle⟩
  | Flush | Write => exact ⟨hp.1.mono hle, hp.2⟩
  | HandleError err first last cfmpgAsyncWrite =>
    rw [PcInv] at hp ⊢
    split
    · rename_i hc
      rw [if_pos hc] at hp
      exact hp.mono hle
    · rename_i hc
      rw [if_neg hc] at hp
      exact hp.mono hle
  | Partitioned => exact InFlight.mono hle hp

/-- The invariant stays. -/
theorem Inv.mono {pfm : CFlushMap} (hi : Inv pfm h) : Inv pfm h' :=
  ⟨⟨fun p => (hi.pages p).mono hle, fun p hp => hi.range p (hle.dirty ▸ hp), hi.hdr.mono hle,
    hi.next,
    fun hf p hp => (hi.cursor hf p hp).mono hle⟩, hi.count, hi.persisted, hi.pc.mono hle⟩

end

/-! ## Counting the writes in progress -/

section
variable {pfm : CFlushMap}

/-- Changing the descriptor of a page changes the count by what the page contributes. -/
theorem inFlight_setFmd {fmpgno : Int} (hfirst : 0 ≤ fmpgno) (hlast : fmpgno ≤ pfm.fmpgnoUsedMax)
    (fmd : FlushMapPageDescriptor FmDataPage) :
    inFlight (pfm.setFmd fmpgno fmd) + (pfm.m_rgfmd fmpgno).fAsyncWriteInProgress.toNat
      = inFlight pfm + fmd.fAsyncWriteInProgress.toNat := by
  rw [fmpgnoUsedMax] at hlast
  have hmem : fmpgno ∈ Finset.Ico 0 pfm.m_cfmpgAllocated := Finset.mem_Ico.2 ⟨hfirst, by omega⟩
  have hother : ∑ p ∈ (Finset.Ico 0 pfm.m_cfmpgAllocated).erase fmpgno,
        (Function.update pfm.m_rgfmd fmpgno fmd p).fAsyncWriteInProgress.toNat
      = ∑ p ∈ (Finset.Ico 0 pfm.m_cfmpgAllocated).erase fmpgno,
        (pfm.m_rgfmd p).fAsyncWriteInProgress.toNat :=
    Finset.sum_congr rfl fun p hp => by rw [Function.update_of_ne (Finset.ne_of_mem_erase hp)]
  simp only [inFlight, setFmd]
  rw [← Finset.add_sum_erase _ _ hmem, ← Finset.add_sum_erase (a := fmpgno) _ _ hmem, hother,
    Function.update_self]
  omega

/-- Without a write in flight all is quiet. -/
theorem quiet_of_inFlight_eq_zero (h0 : inFlight pfm = 0)
    (hrange : ∀ p, (pfm.m_rgfmd p).fAsyncWriteInProgress = true → 0 ≤ p ∧ p ≤ pfm.fmpgnoUsedMax) :
    Quiet pfm := by
  rw [inFlight, Nat.add_eq_zero_iff, Finset.sum_eq_zero_iff] at h0
  refine ⟨fun p => ?_, ?_⟩
  · by_contra hio
    rw [Bool.not_eq_false] at hio
    obtain ⟨hfirst, hlast⟩ := hrange p hio
    rw [fmpgnoUsedMax] at hlast
    have hzero := h0.2 p (Finset.mem_Ico.2 ⟨hfirst, by omega⟩)
    rw [hio] at hzero
    cases hzero
  · have hzero := h0.1
    cases hb : pfm.m_fmdFmHdr.fAsyncWriteInProgress with
    | false => rfl
    | true =>
      rw [hb] at hzero
      cases hzero

end

/-! ## Steps beside the thread -/

/-- What may change without the invariant of the thread being lost. -/
structure Beside (h : History) (pfm pfm' : CFlushMap) : Prop where
  next : pfm'.m_fmpgnoSectionFlushNext = pfm.m_fmpgnoSectionFlushNext
  final : pfm'.m_fSectionCheckpointHeaderWrite = pfm.m_fSectionCheckpointHeaderWrite
  first : pfm'.m_fmpgnoSectionFlushFirst = pfm.m_fmpgnoSectionFlushFirst
  last : pfm'.m_fmpgnoSectionFlushLast = pfm.m_fmpgnoSectionFlushLast
  err : pfm'.m_errSectionFlushWriteLastError = pfm.m_errSectionFlushWriteLastError
  allocated : pfm'.m_cfmpgAllocated = pfm.m_cfmpgAllocated
  buffer : pfm'.pfmfilehdrInMemory = pfm.pfmfilehdrInMemory
  hdrIo : pfm'.m_fmdFmHdr.fAsyncWriteInProgress = true → pfm.m_fmdFmHdr.fAsyncWriteInProgress = true
  io : ∀ p, (pfm'.m_rgfmd p).fAsyncWriteInProgress = true →
    (pfm.m_rgfmd p).fAsyncWriteInProgress = true
  valid : ∀ p, (pfm.m_rgfmd p).fValid = true → (pfm'.m_rgfmd p).fValid = true
  swept : ∀ p, Swept h p (pfm.m_rgfmd p) → Swept h p (pfm'.m_rgfmd p)

section
variable {pfm pfm' : CFlushMap} {h : History} (hb : Beside h pfm pfm')
include hb

/-- A write of the header does not begin beside the sweep. -/
theorem Beside.hdrIo_false (hq : pfm.m_fmdFmHdr.fAsyncWriteInProgress = false) :
    pfm'.m_fmdFmHdr.fAsyncWriteInProgress = false := by
  by_contra hio
  rw [hb.hdrIo (Bool.not_eq_false _ ▸ hio)] at hq
  cases hq

/-- A write of a page does not begin beside the sweep. -/
theorem Beside.io_false {p : Int} (hq : (pfm.m_rgfmd p).fAsyncWriteInProgress = false) :
    (pfm'.m_rgfmd p).fAsyncWriteInProgress = false := by
  by_contra hio
  rw [hb.io p (Bool.not_eq_false _ ▸ hio)] at hq
  cases hq

/-- The target is left beside the sweep. -/
theorem Beside.targetOk (ht : TargetOk pfm h) : TargetOk pfm' h :=
  ⟨by rw [hb.buffer]; exact ht.target, by rw [hb.buffer]; exact ht.le⟩

/-- All stays quiet beside the sweep. -/
theorem Beside.quiet (hq : Quiet pfm) : Quiet pfm' :=
  ⟨fun p => hb.io_false (hq.pages p), hb.hdrIo_false hq.hdr⟩

/-- The sweep goes on beside others. -/
theorem Beside.sweeping (hs : Sweeping pfm h) : Sweeping pfm' h :=
  ⟨hb.final.trans hs.final, hb.next ▸ hs.next, hb.targetOk hs.target⟩

/-- What is at rest stays at rest beside the sweep. -/
theorem Beside.atRest (hr : AtRest pfm h) : AtRest pfm' h := by
  refine ⟨hb.quiet hr.quiet, fun hf => ?_, fun hf hn => ?_⟩
  · rw [hb.next]
    exact hr.final (hb.final ▸ hf)
  · exact hb.targetOk (hr.target (hb.final ▸ hf) (hb.next ▸ hn))

/-- The last page in use stays beside the sweep. -/
theorem Beside.usedMax : pfm'.fmpgnoUsedMax = pfm.fmpgnoUsedMax := by
  rw [fmpgnoUsedMax, fmpgnoUsedMax, hb.allocated]

/-- A section stays beside the sweep. -/
theorem Beside.section' {first last : Int} (hs : Section pfm h first last) :
    Section pfm' h first last :=
  ⟨hb.sweeping hs.sweeping, hs.first_nonneg, hs.first_le, hb.usedMax ▸ hs.last_le,
    fun p hp => hs.inProgress p (hb.io p hp), hb.hdrIo_false hs.hdr, hs.before,
    fun p hp hp' => hb.swept p (hs.swept p hp hp')⟩

/-- What is in flight stays in flight beside the sweep. -/
theorem Beside.inFlight' {err : Int} {first last : Int} (hi : InFlight pfm h err first last) :
    InFlight pfm' h err first last := by
  rcases hi with ⟨hfirst, hlast, hh⟩ | ⟨hle, hs⟩
  · exact .inl ⟨hfirst, hlast, hh.err, fun p => hb.io_false (hh.pages p),
      fun hf => hb.targetOk (hh.target (hb.final ▸ hf))⟩
  · exact .inr ⟨hle, hb.section' hs⟩

/-- What holds at a place stays beside the sweep. -/
theorem Beside.pcInv {pc : Pc} (hp : PcInv pfm h pc) : PcInv pfm' h pc := by
  cases pc with
  | Idle | Enter => exact hb.atRest hp
  | FindFirst first => exact ⟨hb.quiet hp.1, hb.sweeping hp.2.1, hp.2.2⟩
  | Flush err first last check cfmpgAsyncWrite =>
    obtain ⟨hs, hc, hvalid⟩ := hp
    exact ⟨hb.section' hs, hc, fun p hl hc => hb.valid p (hvalid p hl hc)⟩
  | Write err first last check fmpgnoSectionFlush cfmpgAsyncWrite =>
    obtain ⟨hs, hc, hf, hcheck, hvalid⟩ := hp
    exact ⟨hb.section' hs, hc, hf, hb.usedMax ▸ hcheck, fun p hl hc => hb.valid p (hvalid p hl hc)⟩
  | HandleError err first last cfmpgAsyncWrite =>
    rw [PcInv] at hp ⊢
    split
    · rename_i hc
      rw [if_pos hc] at hp
      exact hb.inFlight' hp
    · rename_i hc
      rw [if_neg hc] at hp
      exact hb.atRest hp
  | Partitioned =>
    rw [PcInv] at hp ⊢
    rw [hb.err, hb.first, hb.last]
    exact hb.inFlight' hp

/-- A step beside the thread keeps the invariant, if it keeps that of what it changes. -/
theorem Beside.inv (hi : Inv pfm h) (hpc : pfm'.pc = pfm.pc)
    (hpages : ∀ p, PageInv h p (pfm'.m_rgfmd p)) (hhdr : HdrInv pfm' h)
    (hcount : pfm'.m_msSectionFlush - FlushMap.inFlight pfm'
      = pfm.m_msSectionFlush - FlushMap.inFlight pfm)
    (hpersisted : pfm'.m_fSectionCheckpointHeaderWrite = true →
      pfm'.m_fmdFmHdr.fAsyncWriteInProgress = true ∨ pfm'.m_fmdFmHdr.errAsyncWrite < JET_errSuccess
        ∨ pfm'.m_fmdFmHdr.pv = pfm'.pfmfilehdrInMemory) : Inv pfm' h := by
  have hms := hi.count
  refine ⟨⟨hpages, fun p hp => hb.usedMax ▸ hi.range p hp, hhdr, hb.next ▸ hi.next, fun hf p hp =>
    ?_⟩, ?_,
    hpersisted, ?_⟩
  · exact hi.cursor (hb.final ▸ hf) p (hb.next ▸ hp)
  · rw [hpc]
    omega
  · rw [hpc]
    exact hb.pcInv hi.pc

end

end Ese.FlushMap
