import Ese.Journal.Durability

/-!
# What a flush promises

The durable position is taken from the sealed position when the flush returns. A segment whose seal
was completed while the file was being flushed counts as durable then, and so does one whose seal
failed. `flush_run` says what holds in every run, and what holds in the runs in which no flush meets
such a segment.

A segment records the durable position of the moment it is created, and state is written back once
the position before the last flush has passed it. `recoverable_run` says when the one covers the
other: when every flush finds a segment sealed that was created after the flush before it.
-/

namespace Ese.Journal

open Ese.Journal.System

variable {cbCache sposReplay : Nat} {hdrLast : SegmentHeader} {fFull : Bool} {s s' : System}

namespace System

/-- The journal as it is mounted. -/
theorem inv_mounted (hle : hdrLast.sposDurable ≤ hdrLast.spos) :
    (mounted cbCache hdrLast sposReplay fFull).Inv := by
  have helection : Election.Inv ⟨none, hdrLast.spos, none, [], [], []⟩ :=
    ⟨.nil, fun _ hw => (nomatch hw), .nil, .nil⟩
  have hfresh : ∀ c, Election.Fresh ⟨none, hdrLast.spos, none, [], [], []⟩ c :=
    fun _ => ⟨List.not_mem_nil, List.not_mem_nil⟩
  have hmount : ∃ hdr ∈ [hdrLast], hdr.spos = hdrLast.spos :=
    ⟨hdrLast, List.mem_singleton_self _, rfl⟩
  refine ⟨⟨⟨hle, le_refl _, le_refl _, rfl, fun _ hm => (nomatch hm), le_refl _, hmount, hmount,
    fun _ hm => (nomatch hm), fun _ hm => (nomatch hm), fun _ hm => (nomatch hm),
    fun _ hm => (nomatch hm), fun _ hm => (nomatch hm)⟩, helection, helection, .nil,
    fun _ hm => (nomatch hm), fun _ hm => (nomatch hm)⟩, fun c => ?_⟩
  exact ⟨hfresh c, hfresh c, List.not_mem_nil⟩

/-! ## What holds in every run -/

/-- Whoever waits is covered by what is pending, or by the one who is registered to be next. -/
def WaitersCovered (e : Election) : Prop :=
  ∀ w ∈ e.ilWaitersFor, e.sposPending < w.spos →
    e.pwaiterNext.isSome ∧ w.spos ≤ e.sposWaitersMax

/-- No waiter of the journal is completed twice. -/
structure CompletedOnce (j : TJournal) : Prop where
  append : j.appender.rgcomplete.Nodup
  toSeal : j.sealer.rgcompleteTo.Nodup
  forSeal : j.sealer.rgcompleteFor.Nodup
  toFlush : j.flusher.rgcompleteTo.Nodup
  forFlush : j.flusher.rgcompleteFor.Nodup

/-- What holds whatever the flushes meet. -/
structure Protocol (s : System) : Prop where
  writeback_le : s.j.segments.m_sposDurableForWriteback ≤ s.j.segments.m_sposDurable
  durable_le : s.j.segments.m_sposDurable ≤ s.j.segments.m_sposSealed
  sealed_le : s.j.segments.m_sposSealed ≤ s.j.segments.m_sposAppend
  oneSealer : ∀ c c' call call', s.calls c = some call → s.calls c' = some call' →
    call.pc.fSealer → call'.pc.fSealer → c = c'
  oneFlusher : ∀ c c' call call', s.calls c = some call → s.calls c' = some call' →
    call.pc.fFlusher → call'.pc.fFlusher → c = c'
  once : CompletedOnce s.j
  sealWaiters : WaitersCovered s.j.sealer
  flushWaiters : WaitersCovered s.j.flusher

theorem PcInv.elected_sealer {c : Nat} {pc : Pc} (h : s.PcInv c pc) (hpc : pc.fSealer) :
    s.j.sealer.Elected c := by
  cases pc with
  | sealSegments | releaseSealer => exact h
  | sealStarting _ _ => exact h.1
  | _ => cases hpc

theorem PcInv.elected_flusher {c : Nat} {pc : Pc} (h : s.PcInv c pc) (hpc : pc.fFlusher) :
    s.j.flusher.Elected c := by
  cases pc with
  | flushSealedSegments _ | releaseFlusher => exact h
  | flushing _ _ _ => exact h.1
  | _ => cases hpc

theorem waitersCovered {e : Election} (h : e.Inv) : WaitersCovered e := fun w hw hlt =>
  ⟨(h.covered w (List.mem_append_left _ hw)).resolve_left (Nat.not_le_of_lt hlt),
    h.le_sposWaitersMax hw⟩

theorem Inv.protocol (h : s.Inv) : s.Protocol where
  writeback_le := h.core.segments.writeback_le
  durable_le := h.core.segments.durable_le
  sealed_le := h.core.segments.sealed_le
  oneSealer c c' call call' hc hc' hpc hpc' := by
    have he := (h.known hc).1.elected_sealer hpc
    have he' := (h.known hc').1.elected_sealer hpc'
    exact Option.some.inj (he.symm.trans he')
  oneFlusher c c' call call' hc hc' hpc hpc' := by
    have he := (h.known hc).1.elected_flusher hpc
    have he' := (h.known hc').1.elected_flusher hpc'
    exact Option.some.inj (he.symm.trans he')
  once := ⟨h.core.appender.of_append_left, h.core.sealer.onceTo.of_append_left,
    h.core.sealer.onceFor.of_append_left, h.core.flusher.onceTo.of_append_left,
    h.core.flusher.onceFor.of_append_left⟩
  sealWaiters := waitersCovered h.core.sealer
  flushWaiters := waitersCovered h.core.flusher

/-! ## What is durable -/

/-- When a flush succeeds, the sealed position is where it was when the flush started, and no seal
up to it has failed. -/
def FlushesSealed (s : System) : Act → Bool
  | .flushed call none =>
    match s.calls call with
    | some ⟨_, .flushing _ _ sposSealed⟩ =>
      s.j.segments.m_sposSealed = sposSealed ∧ s.j.segments.m_ilSegmentsSealFailed = []
    | _ => true
  | _ => true

/-- The segment was sealed without an error, and a flush that started after that has succeeded. -/
def Covered (s : System) (spos : Nat) : Prop := (spos, none) ∈ s.rgsealed ∧ spos ∈ s.rgcovered

/-- What counts as durable is, and so is what was promised. -/
structure Durable (s : System) : Prop where
  durable : ∀ spos ∈ s.j.segments.rgspos, spos ≤ s.j.segments.m_sposDurable → s.Covered spos
  promised : ∀ rgentry ∈ s.rgpromised, ∀ rgspos ∈ rgentry, ∀ spos ∈ rgspos, s.Covered spos

theorem Durable.quiet (h : s.Durable) (hinv : s.Inv) (hq : s.Quiet s') : s'.Durable := by
  have hcovered : ∀ spos, s.Covered spos → s'.Covered spos := fun spos hc =>
    ⟨hq.grows.rgsealed _ hc.1, by rw [hq.covered]; exact hc.2⟩
  -- a segment created meanwhile is not at or below the durable position
  have hold : ∀ spos ∈ s'.j.segments.rgspos, spos ≤ s.j.segments.m_sposDurable →
    s'.Covered spos := by
    intro spos hm hle
    have hdurable := hinv.core.segments.durable_le
    have hsealed := hinv.core.segments.sealed_le
    exact hcovered spos (h.durable spos (hq.grows.rgspos_old hm (by omega)) hle)
  refine ⟨fun spos hm hle => hold spos hm (by rw [← hq.same.durable]; exact hle), ?_⟩
  intro rgentry hr rgspos hg spos hs
  rcases hq.promised rgentry hr with hr | hr
  · exact hcovered spos (h.promised rgentry hr rgspos hg spos hs)
  · exact hold spos (hr rgspos hg spos hs).2 (hr rgspos hg spos hs).1

theorem Durable.flushed {call : Nat} {errFlush : Option ERR} {caller : Caller} {spos : Nat}
    {rgspos : List Nat} {sposSealed : Nat} (h : s.Durable) (hs' : s'.Inv)
    (hf : s.Flushed call errFlush s' caller spos rgspos sposSealed)
    (hcond : s.FlushesSealed (.flushed call errFlush)) : s'.Durable := by
  have hcovered : ∀ p, s.Covered p → s'.Covered p := by
    intro p hc
    refine ⟨by rw [hf.rgsealed]; exact hc.1, ?_⟩
    rw [hf.covered]
    split
    · exact List.mem_append_left _ hc.2
    · exact hc.2
  refine ⟨fun p hp hle => ?_, fun rgentry hr rgspos hg p hp => ?_⟩
  · rw [hf.segments] at hp hle
    cases errFlush with
    | some err => exact hcovered p (h.durable p hp hle)
    | none =>
      simp only [FlushesSealed, hf.pc] at hcond
      obtain ⟨hsealed, hfailed⟩ := of_decide_eq_true hcond
      have hmem : p ∈ rgspos :=
        (hf.flushing.covers p hp (hsealed ▸ hle)).resolve_right (not_not_intro hfailed)
      have hcov : p ∈ s'.rgcovered := by
        rw [hf.covered, if_pos rfl]
        exact List.mem_append_right _ hmem
      exact ⟨hs'.core.covered p hcov, hcov⟩
  · rw [hf.promised] at hr
    exact hcovered p (h.promised rgentry hr rgspos hg p hp)

theorem Durable.step (h : s.Durable) (hinv : s.Inv) {a : Act} (hs : Step a s s')
    (hcond : s.FlushesSealed a) : s'.Durable := by
  by_cases ha : ∃ call errFlush, a = .flushed call errFlush
  · obtain ⟨call, errFlush, rfl⟩ := ha
    obtain ⟨hs', caller, spos, rgspos, sposSealed, hf⟩ := hinv.step_flushed hs
    exact h.flushed hs' hf hcond
  · exact h.quiet hinv (hinv.step hs fun call errFlush he => ha ⟨call, errFlush, he⟩).2

end System

/-- In every run the positions are in order, there is one sealer and one flusher at most, no waiter
is completed twice, and whoever waits for more than is pending has somebody registered to cover it.
In the runs in which the sealed position stays while the file is flushed and no failed seal is
passed, what counts as durable was flushed after it was sealed, and so was every entry that
`ErrFlush` promised. -/
theorem flush_run (hle : hdrLast.sposDurable ≤ hdrLast.spos) {as : List Act}
    (hrun : Run Step (mounted cbCache hdrLast sposReplay fFull) as s) :
    s.Protocol ∧ (Run (fun a s t => Step a s t ∧ s.FlushesSealed a)
      (mounted cbCache hdrLast sposReplay fFull) as s → s.Durable) := by
  have h₀ : (mounted cbCache hdrLast sposReplay fFull).Inv := inv_mounted hle
  refine ⟨(hrun.invariant (fun _ _ _ h hs => h.step_inv hs) h₀).protocol, fun hrun' => ?_⟩
  have hdurable : (mounted cbCache hdrLast sposReplay fFull).Durable :=
    ⟨fun _ hm => (nomatch hm), fun _ hm => (nomatch hm)⟩
  exact (hrun'.invariant (I := fun s => s.Inv ∧ s.Durable)
    (fun _ _ _ h hs => ⟨h.1.step_inv hs.1, h.2.step h.1 hs.1 hs.2⟩) ⟨h₀, hdurable⟩).2

/-! ## Flushes that meet more than they cover -/

namespace System

/-- A journal as it may be mounted. -/
def mount : System := mounted 1048576 ⟨40960, 36864, 36864⟩ 36864 false

/-- A segment whose seal has begun. -/
def sealing (spos : Nat) : CSegment := ⟨spos, 10, true, none⟩

/-- A call seals the append segment. -/
def sealActs (call spos : Nat) : List Act :=
  [.toSeal call, .captureSegments call, .sealPending call, .beginSeal call none, .sealSegments call,
    .releaseSealer call, .sealed (sealing spos) none]

/-- An entry is appended, and a call flushes it as far as the flush of the file. -/
def flushActs : List Act :=
  [.errAppendEntry 0 10 [⟨none, false, none, 14⟩], .errFlush 1] ++ sealActs 1 45056 ++
    [.forSeal 1 [], .toFlush 1, .beginFlush 1]

/-- While the file is flushed, another entry is appended and its segment is sealed; then the flush
completes. -/
def overtakingActs : List Act :=
  flushActs ++ [.errAppendEntry 2 10 [⟨none, false, none, 14⟩], .errFlush 3] ++ sealActs 3 49152 ++
    [.flushed 1 none]

/-- A run of steps that all pass a test. -/
theorem run_of_foldlM (as : List Act) (q : System → Act → Bool) {p : System → Bool}
    (h : (as.foldlM (fun s a => if q s a then s.step a else none) mount).any p = true) :
    ∃ s, Run (fun a s t => Step a s t ∧ q s a) mount as s ∧ p s = true := by
  refine Run.exists_of_foldlM (fun a s t hst => ?_) h
  split at hst
  · next hq => exact ⟨hst, hq⟩
  · cases hst

end System

/-- A flush that is not overtaken keeps its promise. -/
theorem flush_run_single : ∃ s, Run Step mount (flushActs ++ [.flushed 1 none]) s ∧ s.Protocol ∧
    s.Durable ∧ s.j.segments.m_sposDurable = 45056 := by
  obtain ⟨s, hrun, hp⟩ := run_of_foldlM (flushActs ++ [.flushed 1 none]) FlushesSealed
    (p := fun s => s.j.segments.m_sposDurable = 45056) (by decide +kernel)
  have hrun' : Run Step mount (flushActs ++ [.flushed 1 none]) s := hrun.imp fun _ _ _ hs => hs.1
  have h := flush_run (by decide) hrun'
  exact ⟨s, hrun', h.1, h.2 hrun, of_decide_eq_true hp⟩

/-- A segment that is sealed while the file is flushed counts as durable although no flush has
covered it, and the next call of `ErrFlush` promises its entry without a flush. -/
theorem flush_overtaken : ∃ s, Run Step mount (overtakingActs ++ [.errFlush 4]) s ∧
    s.j.segments.m_err = none ∧ 49152 ∈ s.j.segments.rgspos ∧
    49152 ≤ s.j.segments.m_sposDurable ∧ ¬s.Covered 49152 ∧
    [[45056], [49152]] ∈ s.rgpromised := by
  obtain ⟨s, hrun, hp⟩ := run_of_foldlM (overtakingActs ++ [.errFlush 4]) (fun _ _ => true)
    (p := fun s => s.j.segments.m_err = none ∧ 49152 ∈ s.j.segments.rgspos ∧
      49152 ≤ s.j.segments.m_sposDurable ∧ 49152 ∉ s.rgcovered ∧ [[45056], [49152]] ∈ s.rgpromised)
    (by decide +kernel)
  obtain ⟨herr, hm, hle, hcov, hprom⟩ := of_decide_eq_true hp
  exact ⟨s, hrun.imp fun _ _ _ hs => hs.1, herr, hm, hle, fun hc => hcov hc.2, hprom⟩

/-- So does a segment whose seal has failed: the call of `ErrFlush` that sealed it returns
success. -/
theorem flush_failed : ∃ s, Run Step mount ([.errAppendEntry 0 10 [⟨none, false, none, 14⟩],
      .errFlush 1, .toSeal 1, .captureSegments 1, .sealPending 1, .beginSeal 1 (some (.io 0)),
      .sealSegments 1, .releaseSealer 1, .forSeal 1 [], .toFlush 1, .beginFlush 1, .flushed 1 none,
      .releaseFlusher 1, .forFlush 1]) s ∧
    (45056, some (.io 0)) ∈ s.rgsealed ∧ ¬s.Covered 45056 ∧ [[45056]] ∈ s.rgpromised := by
  obtain ⟨s, hrun, hp⟩ := run_of_foldlM ([.errAppendEntry 0 10 [⟨none, false, none, 14⟩],
      .errFlush 1, .toSeal 1, .captureSegments 1, .sealPending 1, .beginSeal 1 (some (.io 0)),
      .sealSegments 1, .releaseSealer 1, .forSeal 1 [], .toFlush 1, .beginFlush 1, .flushed 1 none,
      .releaseFlusher 1, .forFlush 1]) (fun _ _ => true)
    (p := fun s => (45056, some (.io 0)) ∈ s.rgsealed ∧ 45056 ∉ s.rgcovered ∧
      [[45056]] ∈ s.rgpromised) (by decide +kernel)
  obtain ⟨hsealed, hcov, hprom⟩ := of_decide_eq_true hp
  exact ⟨s, hrun.imp fun _ _ _ hs => hs.1, hsealed, fun hc => hcov hc.2, hprom⟩

/-! ## What recovery relies on -/

namespace System

/-- When a flush succeeds, the last sealed segment was created after the flush before it. -/
def FlushesNewSegment (s : System) : Act → Bool
  | .flushed _ none => s.sposAppendFlushed < s.j.segments.m_sposSealed
  | _ => true

/-- The last durable segment has recorded a durable position that covers what may be written back;
and whichever segment from there on is the last one that a mount finds, a damaged segment that may
be covered by state written back is an error to it, and not the end of the journal. -/
structure Recoverable (s : System) : Prop where
  recorded : ∃ hdr ∈ s.j.segments.hdrMount :: s.j.segments.rghdr,
    hdr.spos = s.j.segments.m_sposDurable ∧
      s.j.segments.m_sposDurableForWriteback ≤ hdr.sposDurable
  corruption : ∀ hdr ∈ s.j.segments.hdrMount :: s.j.segments.rghdr,
    s.j.segments.m_sposDurable ≤ hdr.spos →
      ∀ spos ≤ s.j.segments.m_sposDurableForWriteback, ∀ (err : ERR) (pev : CEntryVisitor),
        (pev.fVisitSegment hdr.sposDurable spos (.error err)).1.m_err ≠ none

/-- What the segments have recorded. -/
structure Recorded (s : System) : Prop where
  flushed_le : s.sposAppendFlushed ≤ s.j.segments.m_sposAppend
  mount_le : s.j.segments.hdrMount.spos ≤ s.sposAppendFlushed
  new : ∀ hdr ∈ s.j.segments.rghdr, s.sposAppendFlushed < hdr.spos →
    hdr.sposDurable = s.j.segments.m_sposDurable
  covers : ∀ hdr ∈ s.j.segments.hdrMount :: s.j.segments.rghdr,
    s.j.segments.m_sposDurable ≤ hdr.spos →
      s.j.segments.m_sposDurableForWriteback ≤ hdr.sposDurable

theorem Recorded.quiet (h : s.Recorded) (hinv : s.Inv) (hq : s.Quiet s') : s'.Recorded := by
  have hle := h.flushed_le
  have hwb := hinv.core.segments.writeback_le
  refine ⟨?_, ?_, fun hdr hm hlt => ?_, fun hdr hm hge => ?_⟩
  · rw [hq.flushed]
    exact hle.trans hq.grows.append_le
  · rw [hq.flushed, hq.grows.mount]
    exact h.mount_le
  · rw [hq.flushed] at hlt
    rw [hq.same.durable]
    rcases hq.grows.hdr_new hdr hm with hm | ⟨-, heq⟩
    · exact h.new hdr hm hlt
    · exact heq
  · rw [hq.same.durable] at hge
    rw [hq.same.writeback]
    rcases List.mem_cons.1 hm with rfl | hm
    · rw [hq.grows.mount] at hge ⊢
      exact h.covers _ List.mem_cons_self hge
    · rcases hq.grows.hdr_new hdr hm with hm | ⟨-, heq⟩
      · exact h.covers hdr (List.mem_cons_of_mem _ hm) hge
      · omega

theorem Recorded.flushed {call : Nat} {errFlush : Option ERR} {caller : Caller} {spos : Nat}
    {rgspos : List Nat} {sposSealed : Nat} (h : s.Recorded) (hinv : s.Inv)
    (hf : s.Flushed call errFlush s' caller spos rgspos sposSealed)
    (hcond : s.FlushesNewSegment (.flushed call errFlush)) : s'.Recorded := by
  have hflushed := hf.flushed
  have hmount := h.mount_le
  refine ⟨?_, ?_, ?_, ?_⟩ <;> rw [hf.segments] <;> try rw [hflushed]
  all_goals
    cases errFlush with
    | some err => first | exact h.flushed_le | exact h.mount_le | exact h.new | exact h.covers
    | none => ?_
  · exact le_refl _
  · exact hinv.core.segments.mount_le
  · intro hdr hm hlt
    have := (hinv.core.segments.hdr hdr hm).2.1
    rw [if_pos rfl] at hlt
    omega
  · -- the segments past the sealed position were created after the last flush
    intro hdr hm hge
    have hcond : s.sposAppendFlushed < s.j.segments.m_sposSealed := of_decide_eq_true hcond
    replace hge : s.j.segments.m_sposSealed ≤ hdr.spos := hge
    rcases List.mem_cons.1 hm with rfl | hm
    · replace hge : s.j.segments.m_sposSealed ≤ s.j.segments.hdrMount.spos := hge
      omega
    · exact (h.new hdr hm (by omega)).ge

theorem Recorded.step (h : s.Recorded) (hinv : s.Inv) {a : Act} (hs : Step a s s')
    (hcond : s.FlushesNewSegment a) : s'.Recorded := by
  by_cases ha : ∃ call errFlush, a = .flushed call errFlush
  · obtain ⟨call, errFlush, rfl⟩ := ha
    obtain ⟨-, caller, spos, rgspos, sposSealed, hf⟩ := hinv.step_flushed hs
    exact h.flushed hinv hf hcond
  · exact h.quiet hinv (hinv.step hs fun call errFlush he => ha ⟨call, errFlush, he⟩).2

theorem Recorded.recoverable (h : s.Recorded) (hinv : s.Inv) : s.Recoverable := by
  obtain ⟨hdr, hm, he⟩ := hinv.core.segments.durable_mem
  refine ⟨⟨hdr, hm, he, h.covers hdr hm he.ge⟩, fun hdr hm hge spos hle err pev => ?_⟩
  have hcovers := h.covers hdr hm hge
  unfold CEntryVisitor.fVisitSegment
  dsimp only
  rw [if_pos (hle.trans hcovers)]
  cases pev.m_err <;> simp

end System

/-- In the runs in which every flush that succeeds finds a segment sealed that was created after the
flush before it, the last durable segment covers what may be written back. -/
theorem recoverable_run (hle : hdrLast.sposDurable ≤ hdrLast.spos) {as : List Act}
    (hrun : Run (fun a s t => Step a s t ∧ s.FlushesNewSegment a)
      (mounted cbCache hdrLast sposReplay fFull) as s) : s.Recoverable := by
  have h₀ : (mounted cbCache hdrLast sposReplay fFull).Inv := inv_mounted hle
  have hrecorded : (mounted cbCache hdrLast sposReplay fFull).Recorded := by
    refine ⟨le_refl _, le_refl _, fun _ hm => (nomatch hm), fun hdr hm _ => ?_⟩
    rw [List.mem_singleton.1 hm]
    exact le_refl _
  obtain ⟨hinv, h⟩ := hrun.invariant (I := fun s => s.Inv ∧ s.Recorded)
    (fun _ _ _ h hs => ⟨h.1.step_inv hs.1, h.2.step h.1 hs.1 hs.2⟩) ⟨h₀, hrecorded⟩
  exact h.recoverable hinv

/-- A flush, and the state after it. -/
theorem recoverable_run_single : ∃ s, Run Step mount (flushActs ++ [.flushed 1 none]) s ∧
    s.Recoverable ∧ s.j.segments.m_sposDurable = 45056 := by
  obtain ⟨s, hrun, hp⟩ := run_of_foldlM (flushActs ++ [.flushed 1 none]) FlushesNewSegment
    (p := fun s => s.j.segments.m_sposDurable = 45056) (by decide +kernel)
  exact ⟨s, hrun.imp fun _ _ _ hs => hs.1, recoverable_run (by decide) hrun, of_decide_eq_true hp⟩

/-- After a flush that was overtaken, the flush of the call that overtook it meets no new segment.
What may be written back is then all that is durable, and the last durable segment has recorded
less. No step of the run meets an error. -/
theorem flush_unrecoverable : ∃ s, Run Step mount (overtakingActs ++
      [.releaseFlusher 1, .forSeal 3 [], .toFlush 3, .beginFlush 3, .flushed 3 none]) s ∧
    s.j.segments.m_err = none ∧ ¬s.Recoverable := by
  obtain ⟨s, hrun, hp⟩ := run_of_foldlM (overtakingActs ++
      [.releaseFlusher 1, .forSeal 3 [], .toFlush 3, .beginFlush 3, .flushed 3 none])
      (fun _ _ => true)
    (p := fun s => s.j.segments.m_err = none ∧ ∀ hdr ∈ s.j.segments.hdrMount :: s.j.segments.rghdr,
      hdr.spos = s.j.segments.m_sposDurable →
        ¬s.j.segments.m_sposDurableForWriteback ≤ hdr.sposDurable) (by decide +kernel)
  obtain ⟨herr, hnot⟩ := of_decide_eq_true hp
  refine ⟨s, hrun.imp fun _ _ _ hs => hs.1, herr, fun hr => ?_⟩
  obtain ⟨hdr, hm, he, hle⟩ := hr.recorded
  exact hnot hdr hm he hle

end Ese.Journal
