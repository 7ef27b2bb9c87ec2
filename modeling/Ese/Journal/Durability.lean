import Ese.Journal.Segments

/-!
# The calls of the journal

`System.Inv` holds in every state of the system. A critical section is taken apart into the changes
it makes (`Part`): each keeps what holds of the journal and of the calls that are not involved, and
the end of the section says where its own call is then. A step other than the completion of a flush
leaves the durable positions alone (`Quiet`).
-/

namespace Ese.Journal

/-! ## Calls -/

/-- The call is the sealer. -/
def Pc.fSealer : Pc → Bool
  | .sealSegments | .sealStarting _ _ | .releaseSealer => true
  | _ => false

/-- The call is the flusher. -/
def Pc.fFlusher : Pc → Bool
  | .flushSealedSegments _ | .flushing _ _ _ | .releaseFlusher => true
  | _ => false

/-- The calls that wait or waited to append. -/
def Appender.calls (a : Appender) : List Nat := a.rgcomplete ++ a.m_ilWaitersForAppend

namespace System

/-- A flush that started with the segments `rgspos` sealed and the sealed position `sposSealed`
covers the segments up to it, unless a seal has failed. -/
structure Flushing (s : System) (rgspos : List Nat) (sposSealed : Nat) : Prop where
  sealed_le : sposSealed ≤ s.j.segments.m_sposSealed
  sealed : ∀ spos ∈ rgspos, (spos, none) ∈ s.rgsealed
  covers : ∀ spos ∈ s.j.segments.rgspos, spos ≤ sposSealed →
    spos ∈ rgspos ∨ s.j.segments.m_ilSegmentsSealFailed ≠ []

/-- What holds of a call by where it is. -/
def PcInv (s : System) (call : Nat) : Pc → Prop
  | .waitForAppend => s.j.sealer.Fresh call
  | .sealSegments | .releaseSealer => s.j.sealer.Elected call
  | .sealStarting _ psegment =>
    s.j.sealer.Elected call ∧ ∀ seg ∈ psegment, seg.m_spos ∈ s.j.segments.rgspos
  | .flushSealedSegments _ | .releaseFlusher => s.j.flusher.Elected call
  | .flushing _ rgspos sposSealed => s.j.flusher.Elected call ∧ s.Flushing rgspos sposSealed
  | _ => True

/-- The entries that were appended before a call of `ErrFlush` lie in the segments it asks for. -/
def CallerInv (s : System) : Caller → Prop
  | .append _ => True
  | .flush spos rgentry =>
    ∀ rgspos ∈ rgentry, ∀ p ∈ rgspos, p ≤ spos ∧ p ∈ s.j.segments.rgspos

/-- The call has brought no waiter yet. -/
structure Idle (s : System) (call : Nat) : Prop where
  sealer : s.j.sealer.Fresh call
  flusher : s.j.flusher.Fresh call
  appender : call ∉ s.j.appender.calls

/-- What holds of the journal. -/
structure Core (s : System) : Prop where
  segments : s.j.segments.Inv s.rgsealed
  sealer : s.j.sealer.Inv
  flusher : s.j.flusher.Inv
  appender : s.j.appender.calls.Nodup
  entries : ∀ rgspos ∈ s.rgentry, ∀ spos ∈ rgspos, spos ∈ s.j.segments.rgspos
  covered : ∀ spos ∈ s.rgcovered, (spos, none) ∈ s.rgsealed

/-- What holds of the call `c`. -/
def CallInv (s : System) (c : Nat) : Prop :=
  match s.calls c with
  | none => s.Idle c
  | some call => s.PcInv c call.pc ∧ s.CallerInv call.caller

/-- What holds in every state of the system. -/
structure Inv (s : System) : Prop where
  core : s.Core
  calls : ∀ c, s.CallInv c

/-- What holds in a critical section of the call `call`. -/
structure InvExcept (call : Nat) (s : System) : Prop where
  core : s.Core
  calls : ∀ c, c ≠ call → s.CallInv c

/-- A part of a step leaves a call alone that it does not involve. -/
structure Frame (s s' : System) (c : Nat) : Prop where
  calls : s'.calls c = s.calls c
  sealer : Election.Frame s.j.sealer s'.j.sealer c
  flusher : Election.Frame s.j.flusher s'.j.flusher c
  appender : c ∉ s.j.appender.calls → c ∉ s'.j.appender.calls

/-- What every step but the completion of a flush does: nothing is taken back, the durable positions
stay, and what a call of `ErrFlush` promises is durable. -/
structure Quiet (s s' : System) : Prop where
  grows : Segments.Grows s.j.segments s.rgsealed s'.j.segments s'.rgsealed
  same : Segments.SameDurable s.j.segments s'.j.segments
  covered : s'.rgcovered = s.rgcovered
  flushed : s'.sposAppendFlushed = s.sposAppendFlushed
  promised : ∀ rgentry ∈ s'.rgpromised, rgentry ∈ s.rgpromised ∨
    ∀ rgspos ∈ rgentry, ∀ spos ∈ rgspos,
      spos ≤ s.j.segments.m_sposDurable ∧ spos ∈ s'.j.segments.rgspos

variable {s s' s'' : System} {call c : Nat}

/-- Nothing has happened yet. -/
theorem Quiet.refl (s : System) : s.Quiet s :=
  ⟨.refl _ _, .refl _, rfl, rfl, fun _ => .inl⟩

/-- Quiet steps compose. -/
theorem Quiet.trans (h : s.Quiet s') (h' : s'.Quiet s'') : s.Quiet s'' := by
  refine ⟨h.grows.trans h.same h'.grows, h.same.trans h'.same, h'.covered.trans h.covered,
    h'.flushed.trans h.flushed, fun rgentry hm => ?_⟩
  rcases h'.promised rgentry hm with hm | hm
  · exact (h.promised rgentry hm).imp_right fun hp rgspos hr spos hs =>
      ⟨(hp rgspos hr spos hs).1, h'.grows.rgspos spos (hp rgspos hr spos hs).2⟩
  · rw [h.same.durable] at hm
    exact .inr hm

/-! ### Calls that are not involved -/

/-- A flush in progress goes on beside others. -/
theorem Flushing.mono {rgspos : List Nat} {sposSealed : Nat} (h : s.Flushing rgspos sposSealed)
    (hcore : s.Core) (hg : Segments.Grows s.j.segments s.rgsealed s'.j.segments s'.rgsealed) :
    s'.Flushing rgspos sposSealed := by
  refine ⟨h.sealed_le.trans hg.sealed_le, fun spos hs => hg.rgsealed _ (h.sealed spos hs), ?_⟩
  intro spos hs hle
  have hold := hg.rgspos_old hs (hle.trans (h.sealed_le.trans hcore.segments.sealed_le))
  exact (h.covers spos hold hle).imp_right hg.failed

/-- What a caller relies on stays. -/
theorem CallerInv.mono {caller : Caller} (h : s.CallerInv caller)
    (hg : Segments.Grows s.j.segments s.rgsealed s'.j.segments s'.rgsealed) :
    s'.CallerInv caller := by
  cases caller with
  | append _ => trivial
  | flush spos rgentry =>
    exact fun rgspos hr p hp => ⟨(h rgspos hr p hp).1, hg.rgspos p (h rgspos hr p hp).2⟩

/-- What a call relies on at its place stays. -/
theorem PcInv.mono {pc : Pc} (h : s.PcInv c pc) (hcore : s.Core)
    (hsealer : Election.Frame s.j.sealer s'.j.sealer c)
    (hflusher : Election.Frame s.j.flusher s'.j.flusher c)
    (hg : Segments.Grows s.j.segments s.rgsealed s'.j.segments s'.rgsealed) : s'.PcInv c pc := by
  cases pc with
  | waitForAppend => exact hsealer.fresh h
  | waitToSeal => trivial
  | sealSegments => exact hsealer.elected h
  | sealStarting errSeal psegment =>
    exact ⟨hsealer.elected h.1, fun seg hs => hg.rgspos _ (h.2 seg hs)⟩
  | releaseSealer => exact hsealer.elected h
  | waitForSeal => trivial
  | waitToFlush => trivial
  | flushSealedSegments _ => exact hflusher.elected h
  | flushing _ rgspos sposSealed => exact ⟨hflusher.elected h.1, h.2.mono hcore hg⟩
  | releaseFlusher => exact hflusher.elected h
  | waitForFlush => trivial
  | returned _ => trivial

/-- What a call relies on stays under the steps of others. -/
theorem CallInv.frame (h : s.CallInv c) (hcore : s.Core) (hf : s.Frame s' c)
    (hg : Segments.Grows s.j.segments s.rgsealed s'.j.segments s'.rgsealed) : s'.CallInv c := by
  unfold CallInv at h ⊢
  rw [hf.calls]
  split
  · next hnone =>
    rw [hnone] at h
    exact ⟨hf.sealer.fresh h.sealer, hf.flusher.fresh h.flusher, hf.appender h.appender⟩
  · next hsome =>
    rw [hsome] at h
    exact ⟨h.1.mono hcore hf.sealer hf.flusher hg, h.2.mono hg⟩

/-- The other calls keep what they rely on. -/
theorem InvExcept.frame (h : s.InvExcept call) (hcore : s'.Core)
    (hf : ∀ c, c ≠ call → s.Frame s' c)
    (hg : Segments.Grows s.j.segments s.rgsealed s'.j.segments s'.rgsealed) : s'.InvExcept call :=
  ⟨hcore, fun c hc => (h.calls c hc).frame h.core (hf c hc) hg⟩

/-- The end of a critical section. -/
theorem InvExcept.setPc (h : s.InvExcept call) {caller : Caller} {pc : Pc}
    (hpc : s.PcInv call pc) (hcaller : s.CallerInv caller) : (s.setPc call caller pc).Inv := by
  refine ⟨⟨h.core.segments, h.core.sealer, h.core.flusher, h.core.appender, h.core.entries,
    h.core.covered⟩, fun c => ?_⟩
  by_cases hc : c = call
  · subst hc
    have hself : (s.setPc c caller pc).calls c = some ⟨caller, pc⟩ := Function.update_self _ _ _
    unfold CallInv
    rw [hself]
    exact ⟨hpc.mono h.core (.refl _ _) (.refl _ _) (.refl _ _), hcaller.mono (.refl _ _)⟩
  · have hf : s.Frame (s.setPc call caller pc) c :=
      ⟨Function.update_of_ne hc _ _, .refl _ _, .refl _ _, id⟩
    exact (h.calls c hc).frame h.core hf (.refl _ _)

/-- The invariant holds of all calls but one. -/
theorem Inv.except (h : s.Inv) (call : Nat) : s.InvExcept call := ⟨h.core, fun c _ => h.calls c⟩

/-- A call that is not there is idle. -/
theorem Inv.idle (h : s.Inv) (hnone : s.calls call = none) : s.Idle call := by
  have hc := h.calls call
  unfold CallInv at hc
  rwa [hnone] at hc

/-- A call relies on what its place says. -/
theorem Inv.known (h : s.Inv) {caller : Caller} {pc : Pc}
    (hsome : s.calls call = some ⟨caller, pc⟩) :
    s.PcInv call pc ∧ s.CallerInv caller := by
  have hc := h.calls call
  unfold CallInv at hc
  rwa [hsome] at hc

/-! ### Parts of a critical section -/

/-- A part of a critical section of the call `call`. -/
structure Part (call : Nat) (s s' : System) : Prop where
  inv : s'.InvExcept call
  quiet : s.Quiet s'

/-- Parts of a step compose. -/
theorem Part.trans (h : Part call s s') (h' : Part call s' s'') : Part call s s'' :=
  ⟨h'.inv, h.quiet.trans h'.quiet⟩

/-- What a step other than the completion of a flush does. -/
theorem Part.setPc (h : Part call s s') {caller : Caller} {pc : Pc} (hpc : s'.PcInv call pc)
    (hcaller : s'.CallerInv caller) :
    (s'.setPc call caller pc).Inv ∧ s.Quiet (s'.setPc call caller pc) :=
  ⟨h.inv.setPc hpc hcaller, h.quiet.trans ⟨.refl _ _, .refl _, rfl, rfl, fun _ => .inl⟩⟩

/-- The waiters for a seal change. -/
theorem InvExcept.withSealer (h : s.InvExcept call) {sealer : Election} (hinv : sealer.Inv)
    (hf : ∀ c, c ≠ call → Election.Frame s.j.sealer sealer c) :
    Part call s { s with j := { s.j with sealer } } :=
  ⟨h.frame ⟨h.core.segments, hinv, h.core.flusher, h.core.appender, h.core.entries, h.core.covered⟩
      (fun c hc => ⟨rfl, hf c hc, .refl _ _, id⟩) (.refl _ _),
    ⟨.refl _ _, .refl _, rfl, rfl, fun _ => .inl⟩⟩

/-- The waiters for a flush change. -/
theorem InvExcept.withFlusher (h : s.InvExcept call) {flusher : Election} (hinv : flusher.Inv)
    (hf : ∀ c, c ≠ call → Election.Frame s.j.flusher flusher c) :
    Part call s { s with j := { s.j with flusher } } :=
  ⟨h.frame ⟨h.core.segments, h.core.sealer, hinv, h.core.appender, h.core.entries, h.core.covered⟩
      (fun c hc => ⟨rfl, .refl _ _, hf c hc, id⟩) (.refl _ _),
    ⟨.refl _ _, .refl _, rfl, rfl, fun _ => .inl⟩⟩

/-- The waiters for an append change. -/
theorem InvExcept.withAppender (h : s.InvExcept call) (appender : Appender)
    (hinv : appender.calls.Nodup)
    (hf : ∀ c, c ≠ call → c ∉ s.j.appender.calls → c ∉ appender.calls) :
    Part call s { s with j := { s.j with appender } } :=
  ⟨h.frame ⟨h.core.segments, h.core.sealer, h.core.flusher, hinv, h.core.entries, h.core.covered⟩
      (fun c hc => ⟨rfl, .refl _ _, .refl _ _, hf c hc⟩) (.refl _ _),
    ⟨.refl _ _, .refl _, rfl, rfl, fun _ => .inl⟩⟩

/-- The segments change, and seals are completed. -/
theorem InvExcept.withSegments (h : s.InvExcept call) {segments : Segments}
    {rgsealed : List (Nat × Option ERR)} (hinv : segments.Inv rgsealed)
    (hg : Segments.Grows s.j.segments s.rgsealed segments rgsealed)
    (hsame : Segments.SameDurable s.j.segments segments) :
    Part call s { s with j := { s.j with segments }, rgsealed } :=
  ⟨h.frame ⟨hinv, h.core.sealer, h.core.flusher, h.core.appender,
      fun rgspos hr spos hs => hg.rgspos spos (h.core.entries rgspos hr spos hs),
      fun spos hs => hg.rgsealed _ (h.core.covered spos hs)⟩
      (fun _ _ => ⟨rfl, .refl _ _, .refl _ _, id⟩) hg,
    ⟨hg, hsame, rfl, rfl, fun _ => .inl⟩⟩

/-- Waiting for a seal keeps the invariant. -/
theorem InvExcept.prepareToWaitForSeal (h : s.InvExcept call) (hfresh : s.j.sealer.Fresh call)
    {sposTo sposFor : Nat} (hle : sposFor ≤ sposTo) :
    Part call s { s with j := s.j.prepareToWaitForSeal call sposTo sposFor } :=
  h.withSealer (h.core.sealer.prepareToWait hfresh hle _ _)
    fun _ hc => Election.prepareToWait_frame sposTo sposFor _ _ hc

/-- Waiting for a flush keeps the invariant. -/
theorem InvExcept.prepareToWaitForFlush (h : s.InvExcept call) (hfresh : s.j.flusher.Fresh call)
    {sposTo sposFor : Nat} (hle : sposFor ≤ sposTo) :
    Part call s { s with j := s.j.prepareToWaitForFlush call sposTo sposFor } :=
  h.withFlusher (h.core.flusher.prepareToWait hfresh hle _ _)
    fun _ hc => Election.prepareToWait_frame sposTo sposFor _ _ hc

/-- The choice of the next sealer keeps the invariant. -/
theorem InvExcept.prepareToReleaseNextSealer (h : s.InvExcept call) :
    Part call s { s with j := s.j.prepareToReleaseNextSealer } :=
  h.withSealer (h.core.sealer.prepareToReleaseNext _ _)
    fun c _ => Election.prepareToReleaseNext_frame _ _ _ c

/-- The choice of the next flusher keeps the invariant. -/
theorem InvExcept.prepareToReleaseNextFlusher (h : s.InvExcept call) :
    Part call s { s with j := s.j.prepareToReleaseNextFlusher } :=
  h.withFlusher (h.core.flusher.prepareToReleaseNext _ _)
    fun c _ => Election.prepareToReleaseNext_frame _ _ _ c

/-- The sealer that was chosen is released. -/
theorem InvExcept.releaseSealer (h : s.InvExcept call) (helected : s.j.sealer.Elected call) :
    Part call s { s with j := s.j.releaseSealer } := by
  have hrelease := h.withSealer h.core.sealer.release
    fun _ hc => Election.release_frame helected hc
  exact hrelease.trans hrelease.inv.prepareToReleaseNextSealer

/-- The flusher that was chosen is released. -/
theorem InvExcept.releaseFlusher (h : s.InvExcept call) (helected : s.j.flusher.Elected call) :
    Part call s { s with j := s.j.releaseFlusher } := by
  have hrelease := h.withFlusher h.core.flusher.release
    fun _ hc => Election.release_frame helected hc
  exact hrelease.trans hrelease.inv.prepareToReleaseNextFlusher

/-- Waiting for an append keeps the invariant. -/
theorem InvExcept.prepareToWaitForAppend (h : s.InvExcept call)
    (hidle : call ∉ s.j.appender.calls) :
    Part call s { s with
      j := { s.j with appender := s.j.appender.prepareToWaitForAppend call } } := by
  have hperm : (s.j.appender.prepareToWaitForAppend call).calls.Perm
      (call :: s.j.appender.calls) := by
    unfold Appender.prepareToWaitForAppend Appender.calls
    split
    · dsimp only
      rw [List.append_assoc]
      exact List.perm_middle
    · dsimp only
      rw [← List.append_assoc]
      exact List.perm_append_singleton _ _
  refine h.withAppender _ (hperm.nodup_iff.2 (List.nodup_cons.2 ⟨hidle, h.core.appender⟩)) ?_
  intro c hc hnot
  rw [hperm.mem_iff, List.mem_cons]
  exact fun hmem => hmem.elim hc hnot

/-- An appender that is released keeps the invariant. -/
theorem InvExcept.releaseAppender (h : s.InvExcept call) :
    Part call s { s with j := s.j.releaseAppender call } := by
  have hcalls : s.j.appender.release.calls = s.j.appender.calls := by
    unfold Appender.release Appender.calls
    split
    · next hnil => rw [hnil]
    · next hcons => rw [hcons, List.append_assoc, List.singleton_append]
  unfold TJournal.releaseAppender
  split
  · have hrelease := h.withAppender s.j.appender.release
      (by rw [hcalls]; exact h.core.appender) (fun c _ hc => by rw [hcalls]; exact hc)
    exact hrelease.trans hrelease.inv.prepareToReleaseNextSealer
  · exact ⟨h, .refl _⟩

/-- The completion of a seal. -/
theorem InvExcept.sealCompleted (h : s.InvExcept call) {psegment : CSegment}
    (hm : psegment.m_spos ∈ s.j.segments.rgspos) (err : Option ERR) :
    Part call s (s.sealCompleted psegment err) := by
  obtain ⟨hinv, hg, hsame⟩ := h.core.segments.segmentSealed psegment
    { psegment with m_fSealed := true, m_errSeal := psegment.m_errSeal.or err } rfl hm
  have hsegments := h.withSegments hinv hg hsame
  have hwaiters := hsegments.inv.withSealer
    (hsegments.inv.core.sealer.releaseWaiters (s.j.segments.segmentSealed psegment
      { psegment with m_fSealed := true, m_errSeal := psegment.m_errSeal.or err }).m_sposSealed)
    fun c _ => Election.releaseWaiters_frame _ _ c
  exact (hsegments.trans hwaiters).trans hwaiters.inv.prepareToReleaseNextFlusher

/-! ### Critical sections -/

/-- An append ends a step with the invariant. -/
theorem Part.append (h : Part call s s') {cbEntry : Nat} {rgturn : List Turn}
    (hrun : s'.append call cbEntry rgturn = some s'') : s''.Inv ∧ s.Quiet s'' := by
  unfold System.append at hrun
  split at hrun
  · cases hrun
  next res segments hres =>
  obtain ⟨hinv, hg, hsame, hrgspos⟩ := h.inv.core.segments.errAppendEntry hres
  have hsegments := h.trans (h.inv.withSegments hinv hg hsame)
  have hrelease := hsegments.trans hsegments.inv.releaseAppender
  dsimp only at hrun
  split at hrun
  · cases hrun
    exact hrelease.setPc trivial trivial
  · next rgspos =>
    cases hrun
    have hsegs : ({ s'.j with segments }.releaseAppender call).segments = segments := by
      unfold TJournal.releaseAppender TJournal.prepareToReleaseNextSealer
      split <;> rfl
    have hentry : Part call { s' with j := { s'.j with segments }.releaseAppender call }
        { s' with j := { s'.j with segments }.releaseAppender call,
                  rgentry := s'.rgentry ++ [rgspos] } := by
      have hcore := hrelease.inv.core
      refine ⟨hrelease.inv.frame ⟨hcore.segments, hcore.sealer, hcore.flusher, hcore.appender, ?_,
        hcore.covered⟩ (fun _ _ => ⟨rfl, .refl _ _, .refl _ _, id⟩) (.refl _ _),
        ⟨.refl _ _, .refl _, rfl, rfl, fun _ => .inl⟩⟩
      intro rgspos' hr
      rcases List.mem_append.1 hr with hr | hr
      · exact hcore.entries rgspos' hr
      · rw [List.mem_singleton.1 hr]
        dsimp only
        rw [hsegs]
        exact hrgspos rgspos rfl
    exact (hrelease.trans hentry).setPc trivial trivial

/-- A wait for an append ends a step with the invariant. -/
theorem Part.waitForAppend (h : Part call s s') (hfresh : s'.j.sealer.Fresh call) {cbEntry : Nat}
    {rgturn : List Turn} (hrun : s'.waitForAppend call cbEntry rgturn = some s'') :
    s''.Inv ∧ s.Quiet s'' := by
  unfold System.waitForAppend at hrun
  have hwait := h.trans (h.inv.prepareToWaitForSeal hfresh
    (le_max_right (s'.j.sposWriteBack cbEntry) (s'.j.sposFull cbEntry)))
  dsimp only at hrun
  split at hrun
  · cases hrun
    exact hwait.setPc trivial trivial
  · exact hwait.append hrun

/-- The return of a flush ends a step with the invariant. -/
theorem Part.flushReturn (h : Part call s s') {spos : Nat} {rgentry : List (List Nat)}
    (hcaller : s'.CallerInv (.flush spos rgentry)) :
    (s'.flushReturn call spos rgentry).Inv ∧ s.Quiet (s'.flushReturn call spos rgentry) := by
  unfold System.flushReturn
  split
  · exact h.setPc trivial hcaller
  · next hdurable =>
    have hpromise : Part call s' { s' with rgpromised := s'.rgpromised ++ [rgentry] } := by
      have hcore := h.inv.core
      refine ⟨h.inv.frame ⟨hcore.segments, hcore.sealer, hcore.flusher, hcore.appender,
        hcore.entries, hcore.covered⟩ (fun _ _ => ⟨rfl, .refl _ _, .refl _ _, id⟩) (.refl _ _),
        ⟨.refl _ _, .refl _, rfl, rfl, fun rgentry' hm => ?_⟩⟩
      refine (List.mem_append.1 hm).imp_right fun hm rgspos hr p hp => ?_
      rw [List.mem_singleton.1 hm] at hr
      obtain ⟨hle, hmem⟩ := hcaller rgspos hr p hp
      exact ⟨hle.trans (Nat.le_of_not_lt hdurable), hmem⟩
    exact (h.trans hpromise).setPc trivial (hcaller.mono hpromise.quiet.grows)

/-- A wait for a flush ends a step with the invariant. -/
theorem Part.waitForFlush (h : Part call s s') {spos : Nat} {rgentry : List (List Nat)}
    (hcaller : s'.CallerInv (.flush spos rgentry)) :
    (s'.waitForFlush call spos rgentry).Inv ∧ s.Quiet (s'.waitForFlush call spos rgentry) := by
  unfold System.waitForFlush
  split
  · exact h.setPc trivial hcaller
  · exact h.flushReturn hcaller

/-! ### Steps -/

/-- A step that has changed nothing yet. -/
theorem Inv.start (h : s.Inv) (call : Nat) : Part call s s := ⟨h.except call, .refl s⟩

/-- A call of `ErrAppendEntry` starts. -/
theorem Inv.step_errAppendEntry (h : s.Inv) {cbEntry : Nat} {rgturn : List Turn}
    (hs : Step (.errAppendEntry call cbEntry rgturn) s s') : s'.Inv ∧ s.Quiet s' := by
  unfold Step System.step at hs
  dsimp only at hs
  split at hs
  · cases hs
  next hnone =>
  have hidle := h.idle (not_not.1 hnone)
  split at hs
  · cases hs
    exact (h.start call).setPc trivial trivial
  have happ := (h.except call).prepareToWaitForAppend hidle.appender
  split at hs
  · exact happ.waitForAppend hidle.sealer hs
  · cases hs
    exact happ.setPc hidle.sealer trivial

/-- A call of `ErrFlush` starts. -/
theorem Inv.step_errFlush (h : s.Inv) (hs : Step (.errFlush call) s s') : s'.Inv ∧ s.Quiet s' := by
  unfold Step System.step at hs
  dsimp only at hs
  split at hs
  · cases hs
  next hnone =>
  have hidle := h.idle (not_not.1 hnone)
  have hseal := (h.except call).prepareToWaitForSeal hidle.sealer
    (le_refl s.j.segments.m_sposAppend)
  have hflush := hseal.trans (hseal.inv.prepareToWaitForFlush hidle.flusher
    (le_refl s.j.segments.m_sposAppend))
  -- all entries lie in segments that exist
  have hcaller : s.CallerInv (.flush s.j.segments.m_sposAppend s.rgentry) :=
    fun rgspos hr p hp => ⟨h.core.segments.rgspos_le (h.core.entries rgspos hr p hp),
      h.core.entries rgspos hr p hp⟩
  have hcaller' := hcaller.mono hflush.quiet.grows
  split at hs
  · cases hs
    exact hflush.setPc trivial hcaller'
  · cases hs
    exact hflush.waitForFlush hcaller'

/-- The sealer takes the segments to seal. -/
theorem Inv.step_captureSegments (h : s.Inv) (hs : Step (.captureSegments call) s s') :
    s'.Inv ∧ s.Quiet s' := by
  unfold Step System.step at hs
  dsimp only at hs
  split at hs
  · next caller hcall =>
    cases hs
    obtain ⟨hpc, hcaller⟩ := h.known hcall
    have hpart := (h.except call).withSegments
      (h.core.segments.captureSegments s.j.sealer.sposPending)
      (Segments.grows_lists _ _ _ _ _ _ _) ⟨rfl, rfl⟩
    exact hpart.setPc ⟨hpc, fun _ hm => (nomatch hm)⟩ (hcaller.mono hpart.quiet.grows)
  · cases hs

/-- The next segment to seal becomes pending. -/
theorem Inv.step_sealPending (h : s.Inv) (hs : Step (.sealPending call) s s') :
    s'.Inv ∧ s.Quiet s' := by
  unfold Step System.step at hs
  dsimp only at hs
  split at hs
  · next caller errSeal psegment il hcall hil =>
    cases hs
    obtain ⟨hpc, hcaller⟩ := h.known hcall
    have hstarting : ∀ seg ∈ psegment :: il, seg.m_spos ∈ s.j.segments.rgspos := by
      rw [← hil]
      exact h.core.segments.starting
    have hpending : ∀ seg ∈ s.j.segments.m_ilSegmentsSealPending ++ [psegment],
        seg.m_spos ∈ s.j.segments.rgspos := by
      intro seg hm
      rcases List.mem_append.1 hm with hm | hm
      · exact h.core.segments.pending seg hm
      · rw [List.mem_singleton.1 hm]
        exact hstarting psegment List.mem_cons_self
    have hpart := (h.except call).withSegments
      (h.core.segments.lists s.j.segments.m_err s.j.segments.m_ilSegmentsSealed
        h.core.segments.toSeal (List.forall_mem_cons.1 hstarting).2 hpending)
      (Segments.grows_lists _ _ _ _ _ _ _) ⟨rfl, rfl⟩
    refine hpart.setPc ⟨hpc.1, fun seg hm => ?_⟩ (hcaller.mono hpart.quiet.grows)
    cases hm
    exact hstarting psegment List.mem_cons_self
  · cases hs

/-- The seal of the pending segment begins, or fails at once. -/
theorem Inv.step_beginSeal (h : s.Inv) {err : Option ERR} (hs : Step (.beginSeal call err) s s') :
    s'.Inv ∧ s.Quiet s' := by
  unfold Step System.step at hs
  dsimp only at hs
  split at hs
  · next caller errSeal psegment hcall =>
    obtain ⟨hpc, hcaller⟩ := h.known hcall
    split at hs
    · cases hs
      have hpart := (h.except call).withSegments (h.core.segments.sealBegun psegment)
        (Segments.grows_lists _ _ _ _ _ _ _) ⟨rfl, rfl⟩
      exact hpart.setPc ⟨hpc.1, fun _ hm => (nomatch hm)⟩ (hcaller.mono hpart.quiet.grows)
    · next err =>
      cases hs
      have hpart := (h.except call).sealCompleted (hpc.2 psegment rfl) (some err)
      exact hpart.setPc ⟨hpc.1, fun _ hm => (nomatch hm)⟩ (hcaller.mono hpart.quiet.grows)
  · cases hs

/-- The sealer has gone through all segments. -/
theorem Inv.step_sealSegments (h : s.Inv) (hs : Step (.sealSegments call) s s') :
    s'.Inv ∧ s.Quiet s' := by
  unfold Step System.step at hs
  dsimp only at hs
  split at hs
  · next caller errSeal hcall hnil =>
    cases hs
    obtain ⟨hpc, hcaller⟩ := h.known hcall
    have hpart := (h.except call).withSegments
      (h.core.segments.lists (s.j.segments.m_err.or errSeal) s.j.segments.m_ilSegmentsSealed
        h.core.segments.toSeal h.core.segments.starting h.core.segments.pending)
      (Segments.grows_lists _ _ _ _ _ _ _) ⟨rfl, rfl⟩
    exact hpart.setPc hpc.1 (hcaller.mono hpart.quiet.grows)
  · cases hs

/-- A call gets past the wait for a seal. -/
theorem Inv.step_forSeal (h : s.Inv) {rgturn : List Turn} (hs : Step (.forSeal call rgturn) s s') :
    s'.Inv ∧ s.Quiet s' := by
  unfold Step System.step at hs
  dsimp only at hs
  split at hs
  · next caller hcall =>
    obtain ⟨-, hcaller⟩ := h.known hcall
    have hpart := (h.except call).withSegments
      (h.core.segments.lists s.j.segments.m_err [] h.core.segments.toSeal
        h.core.segments.starting h.core.segments.pending)
      (Segments.grows_lists _ _ _ _ _ _ _) ⟨rfl, rfl⟩
    split at hs
    · split at hs
      · exact hpart.append hs
      · cases hs
        exact hpart.waitForFlush (hcaller.mono hpart.quiet.grows)
    · cases hs
  · cases hs

/-- The seal of a segment completes. -/
theorem Inv.step_sealed (h : s.Inv) {psegment : CSegment} {err : Option ERR}
    (hs : Step (.sealed psegment err) s s') : s'.Inv ∧ s.Quiet s' := by
  unfold Step System.step at hs
  dsimp only at hs
  split at hs
  · next hpending =>
    cases hs
    have hm := h.core.segments.pending psegment hpending.1
    -- the completion belongs to no call, so it leaves each of them alone
    have hpart : ∀ call, Part call s (s.sealCompleted psegment err) :=
      fun call => (h.except call).sealCompleted hm err
    exact ⟨⟨(hpart 0).inv.core, fun c => (hpart (c + 1)).inv.calls c (by omega)⟩,
      (hpart 0).quiet⟩
  · cases hs

/-- The flush of the file starts. -/
theorem Inv.step_beginFlush (h : s.Inv) (hs : Step (.beginFlush call) s s') :
    s'.Inv ∧ s.Quiet s' := by
  unfold Step System.step at hs
  dsimp only at hs
  split at hs
  · next caller spos hcall =>
    cases hs
    obtain ⟨hpc, hcaller⟩ := h.known hcall
    refine (h.start call).setPc ⟨hpc, le_refl _, ?_, ?_⟩ hcaller
    · intro p hp
      obtain ⟨⟨q, err⟩, hq, rfl⟩ := List.mem_map.1 hp
      obtain ⟨hq, herr⟩ := List.mem_filter.1 hq
      have herr : err = none := of_decide_eq_true herr
      rw [herr] at hq
      exact hq
    · intro p hp hle
      refine (h.core.segments.sealedOk p hp hle).imp_left fun hsealed => ?_
      exact List.mem_map.2 ⟨_, List.mem_filter.2 ⟨hsealed, decide_eq_true rfl⟩, rfl⟩
  · cases hs

/-- Every step but the completion of a flush. -/
theorem Inv.step (h : s.Inv) {a : Act} (hs : Step a s s')
    (ha : ∀ call errFlush, a ≠ .flushed call errFlush) : s'.Inv ∧ s.Quiet s' := by
  cases a with
  | errAppendEntry => exact h.step_errAppendEntry hs
  | appender call rgturn =>
    unfold Step System.step at hs
    dsimp only at hs
    split at hs
    · next hcall =>
      split at hs
      · exact (h.start call).waitForAppend (h.known hcall).1 hs
      · cases hs
    · cases hs
  | errFlush => exact h.step_errFlush hs
  | toSeal call =>
    unfold Step System.step at hs
    dsimp only at hs
    split at hs
    · next caller hcall =>
      split at hs
      · cases hs
        refine (h.start call).setPc ?_ (h.known hcall).2
        split
        · next helected => exact helected
        · trivial
      · cases hs
    · cases hs
  | captureSegments => exact h.step_captureSegments hs
  | sealPending => exact h.step_sealPending hs
  | beginSeal => exact h.step_beginSeal hs
  | sealSegments => exact h.step_sealSegments hs
  | releaseSealer call =>
    unfold Step System.step at hs
    dsimp only at hs
    split at hs
    · next caller hcall =>
      cases hs
      obtain ⟨hpc, hcaller⟩ := h.known hcall
      have hpart := (h.except call).releaseSealer hpc
      exact hpart.setPc trivial (hcaller.mono hpart.quiet.grows)
    · cases hs
  | forSeal => exact h.step_forSeal hs
  | sealed => exact h.step_sealed hs
  | toFlush call =>
    unfold Step System.step at hs
    dsimp only at hs
    split at hs
    · next spos rgentry hcall =>
      split at hs
      · cases hs
        refine (h.start call).setPc ?_ (h.known hcall).2
        split
        · next helected => exact helected
        · trivial
      · cases hs
    · cases hs
  | beginFlush => exact h.step_beginFlush hs
  | flushed call errFlush => exact absurd rfl (ha call errFlush)
  | releaseFlusher call =>
    unfold Step System.step at hs
    dsimp only at hs
    split at hs
    · next caller hcall =>
      cases hs
      obtain ⟨hpc, hcaller⟩ := h.known hcall
      have hpart := (h.except call).releaseFlusher hpc
      exact hpart.setPc trivial (hcaller.mono hpart.quiet.grows)
    · cases hs
  | forFlush call =>
    unfold Step System.step at hs
    dsimp only at hs
    split at hs
    · next spos rgentry hcall =>
      split at hs
      · cases hs
        exact (h.start call).flushReturn (h.known hcall).2
      · cases hs
    · cases hs

/-- What the completion of a flush does. -/
structure Flushed (s : System) (call : Nat) (errFlush : Option ERR) (s' : System) (caller : Caller)
    (spos : Nat) (rgspos : List Nat) (sposSealed : Nat) : Prop where
  pc : s.calls call = some ⟨caller, .flushing spos rgspos sposSealed⟩
  flushing : s.Flushing rgspos sposSealed
  segments : s'.j.segments = s.j.segments.flushed errFlush
  rgsealed : s'.rgsealed = s.rgsealed
  covered : s'.rgcovered = if errFlush = none then s.rgcovered ++ rgspos else s.rgcovered
  flushed : s'.sposAppendFlushed
    = if errFlush = none then s.j.segments.m_sposAppend else s.sposAppendFlushed
  promised : s'.rgpromised = s.rgpromised

/-- The completion of a flush. -/
theorem Inv.step_flushed (h : s.Inv) {errFlush : Option ERR}
    (hs : Step (.flushed call errFlush) s s') :
    s'.Inv ∧ ∃ caller spos rgspos sposSealed,
      s.Flushed call errFlush s' caller spos rgspos sposSealed := by
  unfold Step System.step at hs
  dsimp only at hs
  split at hs
  · next caller spos rgspos sposSealed hcall =>
    cases hs
    obtain ⟨hpc, hcaller⟩ := h.known hcall
    refine ⟨?_, caller, spos, rgspos, sposSealed, hcall, hpc.2, rfl, rfl, rfl, rfl, rfl⟩
    have hcore := h.core
    have hg := Segments.grows_flushed s.j.segments s.rgsealed errFlush
    have hexcept : InvExcept call { s with
        j := s.j.flushSealedSegments spos errFlush
        rgcovered := if errFlush = none then s.rgcovered ++ rgspos else s.rgcovered
        sposAppendFlushed := if errFlush = none then s.j.segments.m_sposAppend
          else s.sposAppendFlushed } := by
      refine (h.except call).frame ⟨hcore.segments.flushed errFlush, hcore.sealer,
        hcore.flusher.releaseWaiters spos, hcore.appender, hcore.entries, ?_⟩
        (fun c _ => ⟨rfl, .refl _ _, Election.releaseWaiters_frame _ _ c, id⟩) hg
      intro p hp
      dsimp only at hp
      split at hp
      · exact (List.mem_append.1 hp).elim (hcore.covered p) (hpc.2.sealed p)
      · exact hcore.covered p hp
    exact hexcept.setPc hpc.1 (hcaller.mono hg)
  · cases hs

/-- Every step keeps the invariant. -/
theorem Inv.step_inv (h : s.Inv) {a : Act} (hs : Step a s s') : s'.Inv := by
  by_cases ha : ∃ call errFlush, a = .flushed call errFlush
  · obtain ⟨call, errFlush, rfl⟩ := ha
    exact (h.step_flushed hs).1
  · exact (h.step hs fun call errFlush he => ha ⟨call, errFlush, he⟩).1

end System

end Ese.Journal
