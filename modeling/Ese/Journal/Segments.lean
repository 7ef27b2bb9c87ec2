import Ese.Journal.Journal

/-!
# The segments of the journal

`Segments.Inv` holds of the positions and the lists of segments between the steps: the positions are
in order, a segment is somewhere on its way from the open segments to the sealed ones, and the
sealed position has only passed segments whose seals were completed. No operation takes anything
back (`Segments.Grows`), and all but the flush leave the durable positions alone
(`Segments.SameDurable`).
-/

namespace Ese.Journal

namespace Segments

/-- The positions of the segments that were created since the mount. -/
def rgspos (segs : Segments) : List Nat := segs.rghdr.map (·.spos)

variable {segs : Segments} {rgsealed : List (Nat × Option ERR)}

/-- What holds of the segments between the steps. `rgsealed` are the seals that were completed. -/
structure Inv (segs : Segments) (rgsealed : List (Nat × Option ERR)) : Prop where
  writeback_le : segs.m_sposDurableForWriteback ≤ segs.m_sposDurable
  durable_le : segs.m_sposDurable ≤ segs.m_sposSealed
  sealed_le : segs.m_sposSealed ≤ segs.m_sposAppend
  sealed_mod : segs.m_sposSealed % cbJournalSegment = segs.m_sposAppend % cbJournalSegment
  hdr : ∀ hdr ∈ segs.rghdr, segs.hdrMount.spos < hdr.spos ∧ hdr.spos ≤ segs.m_sposAppend ∧
    hdr.spos % cbJournalSegment = segs.m_sposAppend % cbJournalSegment
  mount_le : segs.hdrMount.spos ≤ segs.m_sposAppend
  sealed_mem : ∃ hdr ∈ segs.hdrMount :: segs.rghdr, hdr.spos = segs.m_sposSealed
  durable_mem : ∃ hdr ∈ segs.hdrMount :: segs.rghdr, hdr.spos = segs.m_sposDurable
  toSeal : ∀ seg ∈ segs.m_ilSegmentsToSeal, seg.m_spos ∈ segs.rgspos
  starting : ∀ seg ∈ segs.m_ilSegmentsSealStarting, seg.m_spos ∈ segs.rgspos
  pending : ∀ seg ∈ segs.m_ilSegmentsSealPending, seg.m_spos ∈ segs.rgspos
  completed : ∀ seg ∈ segs.m_ilSegmentsSealCompleted,
    seg.m_spos ∈ segs.rgspos ∧ (seg.m_spos, seg.m_errSeal) ∈ rgsealed
  sealedOk : ∀ spos ∈ segs.rgspos, spos ≤ segs.m_sposSealed →
    (spos, none) ∈ rgsealed ∨ segs.m_ilSegmentsSealFailed ≠ []

/-- What no step takes back. -/
structure Grows (segs : Segments) (rgsealed : List (Nat × Option ERR)) (segs' : Segments)
    (rgsealed' : List (Nat × Option ERR)) : Prop where
  sealed_le : segs.m_sposSealed ≤ segs'.m_sposSealed
  append_le : segs.m_sposAppend ≤ segs'.m_sposAppend
  mount : segs'.hdrMount = segs.hdrMount
  hdr : ∀ hdr ∈ segs.rghdr, hdr ∈ segs'.rghdr
  hdr_new : ∀ hdr ∈ segs'.rghdr, hdr ∈ segs.rghdr ∨
    segs.m_sposAppend < hdr.spos ∧ hdr.sposDurable = segs.m_sposDurable
  rgsealed : ∀ p ∈ rgsealed, p ∈ rgsealed'
  failed : segs.m_ilSegmentsSealFailed ≠ [] → segs'.m_ilSegmentsSealFailed ≠ []

/-- The durable positions stay. -/
structure SameDurable (segs segs' : Segments) : Prop where
  durable : segs'.m_sposDurable = segs.m_sposDurable
  writeback : segs'.m_sposDurableForWriteback = segs.m_sposDurableForWriteback

/-- Nothing has become durable yet. -/
theorem SameDurable.refl (segs : Segments) : SameDurable segs segs := ⟨rfl, rfl⟩

/-- Steps that make nothing durable make nothing durable in sequence. -/
theorem SameDurable.trans {s t u : Segments} (h : SameDurable s t) (h' : SameDurable t u) :
    SameDurable s u :=
  ⟨h'.durable.trans h.durable, h'.writeback.trans h.writeback⟩

/-- Nothing has been added yet. -/
theorem Grows.refl (segs : Segments) (rgsealed : List (Nat × Option ERR)) :
    Grows segs rgsealed segs rgsealed :=
  ⟨le_refl _, le_refl _, rfl, fun _ => id, fun _ => .inl, fun _ => id, id⟩

/-- Growth composes, where the first part makes nothing durable. -/
theorem Grows.trans {s t u : Segments} {p q r : List (Nat × Option ERR)} (h : Grows s p t q)
    (hsame : SameDurable s t) (h' : Grows t q u r) : Grows s p u r := by
  refine ⟨h.sealed_le.trans h'.sealed_le, h.append_le.trans h'.append_le, h'.mount.trans h.mount,
    fun hdr hm => h'.hdr hdr (h.hdr hdr hm), fun hdr hm => ?_,
    fun x hx => h'.rgsealed x (h.rgsealed x hx), fun hf => h'.failed (h.failed hf)⟩
  rcases h'.hdr_new hdr hm with hm | ⟨hlt, heq⟩
  · exact h.hdr_new hdr hm
  · exact .inr ⟨lt_of_le_of_lt h.append_le hlt, heq.trans hsame.durable⟩

/-- The segments there were are there. -/
theorem Grows.rgspos {s t : Segments} {p q : List (Nat × Option ERR)} (h : Grows s p t q) :
    ∀ spos ∈ s.rgspos, spos ∈ t.rgspos := by
  intro spos hm
  obtain ⟨hdr, hhdr, rfl⟩ := List.mem_map.1 hm
  exact List.mem_map_of_mem (h.hdr hdr hhdr)

/-- A segment that was created meanwhile is past what was sealed before. -/
theorem Grows.rgspos_old {s t : Segments} {p q : List (Nat × Option ERR)} (h : Grows s p t q)
    {spos : Nat} (hm : spos ∈ t.rgspos) (hle : spos ≤ s.m_sposAppend) : spos ∈ s.rgspos := by
  obtain ⟨hdr, hhdr, rfl⟩ := List.mem_map.1 hm
  rcases h.hdr_new hdr hhdr with hold | ⟨hlt, -⟩
  · exact List.mem_map_of_mem hold
  · exact absurd hlt (by omega)

/-- The append segment is the last one. -/
theorem Inv.rgspos_le (h : segs.Inv rgsealed) {spos : Nat} (hm : spos ∈ segs.rgspos) :
    spos ≤ segs.m_sposAppend := by
  obtain ⟨hdr, hhdr, rfl⟩ := List.mem_map.1 hm
  exact (h.hdr hdr hhdr).2.1

/-! ### Appending -/

/-- A new segment is created, or the last one is still open. -/
theorem Inv.errGetAppendSegment (h : segs.Inv rgsealed) (fForce : Bool) (turn : Turn) :
    (segs.errGetAppendSegment fForce turn).2.Inv rgsealed ∧
      Grows segs rgsealed (segs.errGetAppendSegment fForce turn).2 rgsealed ∧
      SameDurable segs (segs.errGetAppendSegment fForce turn).2 := by
  unfold Segments.errGetAppendSegment
  split
  · dsimp only
    split
    · exact ⟨⟨h.writeback_le, h.durable_le, h.sealed_le, h.sealed_mod, h.hdr, h.mount_le,
        h.sealed_mem, h.durable_mem, h.toSeal, h.starting, h.pending, h.completed, h.sealedOk⟩,
        ⟨le_refl _, le_refl _, rfl, fun _ => id, fun _ => .inl, fun _ => id, id⟩, ⟨rfl, rfl⟩⟩
    · -- the new segment is past everything
      have hsub : ∀ spos ∈ segs.rgspos, spos ∈
          (segs.rghdr ++ [(⟨segs.m_sposAppend + cbJournalSegment,
          segs.m_sposReplay, segs.m_sposDurable⟩ : SegmentHeader)]).map (·.spos) := by
        intro spos hm
        rw [List.map_append]
        exact List.mem_append_left _ hm
      have hmem : ∀ hdr, hdr ∈ segs.rghdr ++ [(⟨segs.m_sposAppend + cbJournalSegment,
          segs.m_sposReplay, segs.m_sposDurable⟩ : SegmentHeader)] → hdr ∈ segs.rghdr ∨
            hdr = ⟨segs.m_sposAppend + cbJournalSegment, segs.m_sposReplay, segs.m_sposDurable⟩ :=
        fun hdr hm => (List.mem_append.1 hm).imp_right List.mem_singleton.1
      have hcons : ∀ {spos : Nat}, (∃ hdr ∈ segs.hdrMount :: segs.rghdr, hdr.spos = spos) →
          ∃ hdr ∈ segs.hdrMount :: (segs.rghdr ++ [(⟨segs.m_sposAppend + cbJournalSegment,
            segs.m_sposReplay, segs.m_sposDurable⟩ : SegmentHeader)]), hdr.spos = spos := by
        rintro spos ⟨hdr, hm, he⟩
        refine ⟨hdr, ?_, he⟩
        rw [← List.cons_append]
        exact List.mem_append_left _ hm
      have hle := h.sealed_le
      have hmod := h.sealed_mod
      have hmount := h.mount_le
      have hhdr := h.hdr
      unfold cbJournalSegment at *
      refine ⟨⟨h.writeback_le, h.durable_le, ?_, ?_, ?_, ?_, hcons h.sealed_mem,
        hcons h.durable_mem, ?_, fun seg hs => hsub _ (h.starting seg hs),
        fun seg hs => hsub _ (h.pending seg hs),
        fun seg hs => ⟨hsub _ (h.completed seg hs).1, (h.completed seg hs).2⟩, ?_⟩, ?_, ⟨rfl, rfl⟩⟩
      · dsimp only
        omega
      · unfold cbJournalSegment
        dsimp only
        omega
      · intro hdr hm
        unfold cbJournalSegment
        dsimp only at hm ⊢
        rcases hmem hdr hm with hm | rfl
        · have := hhdr hdr hm
          omega
        · dsimp only
          omega
      · dsimp only
        omega
      · intro seg hs
        rcases List.mem_append.1 hs with hs | hs
        · exact hsub _ (h.toSeal seg hs)
        · rw [List.mem_singleton.1 hs]
          exact List.mem_map.2 ⟨_, List.mem_append_right _ (List.mem_singleton_self _), rfl⟩
      · intro spos hm hsealed
        unfold rgspos at hm
        obtain ⟨hdr, hhdr', rfl⟩ := List.mem_map.1 hm
        dsimp only at hhdr' hsealed
        rcases hmem hdr hhdr' with hm | rfl
        · exact h.sealedOk _ (List.mem_map_of_mem hm) hsealed
        · dsimp only at hsealed
          omega
      · refine ⟨le_refl _, Nat.le_add_right _ _, rfl, fun hdr hm => List.mem_append_left _ hm, ?_,
          fun _ => id, id⟩
        intro hdr hm
        rcases hmem hdr hm with hm | rfl
        · exact .inl hm
        · exact .inr ⟨by dsimp only; omega, rfl⟩
  · exact ⟨h, Grows.refl _ _, SameDurable.refl _⟩

/-- A region of the entry keeps the invariant. -/
theorem Inv.appendRegion (h : segs.Inv rgsealed) (cbActual : Nat) :
    (segs.appendRegion cbActual).Inv rgsealed := by
  refine ⟨h.writeback_le, h.durable_le, h.sealed_le, h.sealed_mod, h.hdr, h.mount_le, h.sealed_mem,
    h.durable_mem, ?_, h.starting, h.pending, h.completed, h.sealedOk⟩
  intro seg hs
  rcases List.mem_append.1 hs with hs | hs
  · exact h.toSeal seg (List.dropLast_subset _ hs)
  · obtain ⟨last, hlast, rfl⟩ := List.mem_map.1 hs
    exact h.toSeal last (List.mem_of_getLast? (Option.mem_toList.1 hlast))

/-- A region only fills the append segment. -/
theorem grows_appendRegion (cbActual : Nat) :
    Grows segs rgsealed (segs.appendRegion cbActual) rgsealed :=
  ⟨le_refl _, le_refl _, rfl, fun _ => id, fun _ => .inl, fun _ => id, id⟩

/-- The segments of the fragments were created since the mount. -/
theorem Inv.errAppendFragments {cbEntry : Nat} (rgturn : List Turn) (h : segs.Inv rgsealed)
    {ibEntry : Nat} {fForce fPlaced : Bool} {rgspos : List Nat}
    (hrg : ∀ spos ∈ rgspos, spos ∈ segs.rgspos) {res : Except ERR (List Nat)} {segs' : Segments}
    (hrun : Segments.errAppendFragments cbEntry rgturn segs ibEntry fForce fPlaced rgspos
      = some (res, segs')) :
    segs'.Inv rgsealed ∧ Grows segs rgsealed segs' rgsealed ∧ SameDurable segs segs' ∧
      ∀ rgspos', res = .ok rgspos' → ∀ spos ∈ rgspos', spos ∈ segs'.rgspos := by
  induction rgturn generalizing segs ibEntry fForce fPlaced rgspos with
  | nil =>
    rw [Segments.errAppendFragments] at hrun
    split at hrun
    · cases hrun
    · cases hrun
      refine ⟨h, Grows.refl _ _, SameDurable.refl _, ?_⟩
      rintro rgspos' ⟨⟩
      exact hrg
  | cons turn rgturn ih =>
    rw [Segments.errAppendFragments] at hrun
    split at hrun
    · obtain ⟨h₁, hgrows₁, hsame₁⟩ := h.errGetAppendSegment fForce turn
      cases hget : segs.errGetAppendSegment fForce turn with
      | mk err segs₁ =>
      rw [hget] at h₁ hgrows₁ hsame₁ hrun
      cases err with
      | some err =>
        cases hrun
        exact ⟨h₁, hgrows₁, hsame₁, fun _ he => (nomatch he)⟩
      | none =>
        dsimp only at hrun h₁ hgrows₁ hsame₁
        have h₂ := h₁.appendRegion turn.cbActual
        have hgrows₂ := hgrows₁.trans hsame₁ (grows_appendRegion turn.cbActual)
        have hsame₂ : SameDurable segs (segs₁.appendRegion turn.cbActual) := ⟨hsame₁.1, hsame₁.2⟩
        split at hrun
        · cases hrun
          exact ⟨h₂, hgrows₂, hsame₂, fun _ he => (nomatch he)⟩
        · have hrg' : ∀ spos ∈ rgspos ++ (segs₁.m_ilSegmentsToSeal.getLast?.map (·.m_spos)).toList,
              spos ∈ (segs₁.appendRegion turn.cbActual).rgspos := by
            intro spos hm
            rcases List.mem_append.1 hm with hm | hm
            · exact hgrows₂.rgspos spos (hrg spos hm)
            · obtain ⟨last, hlast, rfl⟩ := Option.map_eq_some_iff.1 (Option.mem_toList.1 hm)
              exact h₁.toSeal last (List.mem_of_getLast? hlast)
          obtain ⟨h₃, hgrows₃, hsame₃, hres⟩ := ih h₂ hrg' hrun
          exact ⟨h₃, hgrows₂.trans hsame₂ hgrows₃, hsame₂.trans hsame₃, hres⟩
    · cases hrun

/-- An append keeps the invariant, makes nothing durable, and writes to segments that are there. -/
theorem Inv.errAppendEntry (h : segs.Inv rgsealed) {cbEntry : Nat} {rgturn : List Turn}
    {res : Except ERR (List Nat)} {segs' : Segments}
    (hrun : segs.errAppendEntry cbEntry rgturn = some (res, segs')) :
    segs'.Inv rgsealed ∧ Grows segs rgsealed segs' rgsealed ∧ SameDurable segs segs' ∧
      ∀ rgspos', res = .ok rgspos' → ∀ spos ∈ rgspos', spos ∈ segs'.rgspos := by
  unfold Segments.errAppendEntry at hrun
  split at hrun
  · cases hrun
    exact ⟨h, Grows.refl _ _, SameDurable.refl _, fun _ he => (nomatch he)⟩
  split at hrun
  · cases hrun
    exact ⟨h, Grows.refl _ _, SameDurable.refl _, fun _ he => (nomatch he)⟩
  · exact h.errAppendFragments rgturn (fun _ hm => absurd hm List.not_mem_nil) hrun

/-! ### Sealing -/

/-- Segments may move from list to list, and the journal may go down. -/
theorem Inv.lists (h : segs.Inv rgsealed) (m_err : Option ERR)
    {toSeal starting pending : List CSegment} (m_ilSegmentsSealed : List CSegment)
    (htoSeal : ∀ seg ∈ toSeal, seg.m_spos ∈ segs.rgspos)
    (hstarting : ∀ seg ∈ starting, seg.m_spos ∈ segs.rgspos)
    (hpending : ∀ seg ∈ pending, seg.m_spos ∈ segs.rgspos) :
    Segments.Inv { segs with
      m_err, m_ilSegmentsToSeal := toSeal, m_ilSegmentsSealStarting := starting
      m_ilSegmentsSealPending := pending, m_ilSegmentsSealed } rgsealed :=
  ⟨h.writeback_le, h.durable_le, h.sealed_le, h.sealed_mod, h.hdr, h.mount_le, h.sealed_mem,
    h.durable_mem, htoSeal, hstarting, hpending, h.completed, h.sealedOk⟩

/-- Segments that move between the lists are the segments there were. -/
theorem grows_lists (segs : Segments) (rgsealed : List (Nat × Option ERR)) (m_err : Option ERR)
    (toSeal starting pending m_ilSegmentsSealed : List CSegment) :
    Grows segs rgsealed { segs with
      m_err, m_ilSegmentsToSeal := toSeal, m_ilSegmentsSealStarting := starting
      m_ilSegmentsSealPending := pending, m_ilSegmentsSealed } rgsealed :=
  ⟨le_refl _, le_refl _, rfl, fun _ => id, fun _ => .inl, fun _ => id, id⟩

/-- Capturing the segments to seal keeps the invariant. -/
theorem Inv.captureSegments (h : segs.Inv rgsealed) (spos : Nat) :
    (segs.captureSegments spos).Inv rgsealed := by
  refine h.lists segs.m_err segs.m_ilSegmentsSealed
    (fun seg hs => h.toSeal seg (List.mem_of_mem_filter hs)) ?_ h.pending
  intro seg hs
  rcases List.mem_append.1 hs with hs | hs
  · exact h.starting seg hs
  · exact h.toSeal seg (List.mem_of_mem_filter hs)

/-- A seal that begins keeps the invariant. -/
theorem Inv.sealBegun (h : segs.Inv rgsealed) (psegment : CSegment) :
    (segs.sealBegun psegment).Inv rgsealed := by
  refine h.lists segs.m_err segs.m_ilSegmentsSealed h.toSeal h.starting fun seg hs => ?_
  obtain ⟨seg', hs', rfl⟩ := List.mem_map.1 hs
  have hseg' := h.pending seg' hs'
  split
  · exact hseg'
  · exact hseg'

/-- An insertion into a list in order adds the segment. -/
theorem mem_insertSegment {psegment seg : CSegment} {il : List CSegment} :
    seg ∈ insertSegment psegment il ↔ seg = psegment ∨ seg ∈ il := by
  unfold insertSegment
  rw [List.perm_middle.mem_iff, List.rdropWhile_append_rtakeWhile, List.mem_cons]

/-- The sealed position advances over a segment whose seal is completed. -/
theorem Inv.advance (h : segs.Inv rgsealed) {psegment : CSegment}
    (hm : psegment.m_spos ∈ segs.rgspos) (hsealed : (psegment.m_spos, psegment.m_errSeal) ∈
    rgsealed)
    (hnext : psegment.m_spos = segs.m_sposSealed + cbJournalSegment)
    {sealed failed : List CSegment} {m_err : Option ERR}
    (hfailed : segs.m_ilSegmentsSealFailed ≠ [] ∨ psegment.m_errSeal ≠ none → failed ≠ []) :
    Segments.Inv { segs with
      m_err, m_ilSegmentsSealed := sealed, m_ilSegmentsSealFailed := failed
      m_sposSealed := psegment.m_spos } rgsealed := by
  have hle := h.rgspos_le hm
  have hmod := h.sealed_mod
  have hmem : ∃ hdr ∈ segs.hdrMount :: segs.rghdr, hdr.spos = psegment.m_spos := by
    obtain ⟨hdr, hhdr, he⟩ := List.mem_map.1 hm
    exact ⟨hdr, List.mem_cons_of_mem _ hhdr, he⟩
  refine ⟨h.writeback_le, h.durable_le.trans (by dsimp only; omega), hle, ?_, h.hdr, h.mount_le,
    hmem, h.durable_mem, h.toSeal, h.starting, h.pending, h.completed, ?_⟩
  · unfold cbJournalSegment at *
    dsimp only
    omega
  · intro spos hspos hspos_le
    dsimp only at hspos_le
    -- no position lies strictly between the old sealed position and the new one
    rcases Nat.lt_or_ge segs.m_sposSealed spos with hlt | hge
    · obtain ⟨hdr, hhdr, rfl⟩ := List.mem_map.1 hspos
      have hhdrmod := (h.hdr hdr hhdr).2.2
      have heq : hdr.spos = psegment.m_spos := by
        unfold cbJournalSegment at *
        omega
      rw [heq]
      by_cases herr : psegment.m_errSeal = none
      · rw [herr] at hsealed
        exact .inl hsealed
      · exact .inr (hfailed (.inr herr))
    · exact (h.sealedOk spos hspos hge).imp_right fun hf => hfailed (.inl hf)

/-- Sealed segments may become the last sealed one, which makes nothing durable. -/
theorem Inv.advanceSealed (il : List CSegment) (h : segs.Inv rgsealed)
    (hil : ∀ seg ∈ il, seg.m_spos ∈ segs.rgspos ∧ (seg.m_spos, seg.m_errSeal) ∈ rgsealed) :
    (Segments.advanceSealed il segs).Inv rgsealed ∧
      Grows segs rgsealed (Segments.advanceSealed il segs) rgsealed ∧
      SameDurable segs (Segments.advanceSealed il segs) := by
  induction il generalizing segs with
  | nil =>
    refine ⟨⟨h.writeback_le, h.durable_le, h.sealed_le, h.sealed_mod, h.hdr, h.mount_le,
      h.sealed_mem, h.durable_mem, h.toSeal, h.starting, h.pending, fun _ hs => (nomatch hs),
      h.sealedOk⟩, ?_, ⟨rfl, rfl⟩⟩
    exact ⟨le_refl _, le_refl _, rfl, fun _ => id, fun _ => .inl, fun _ => id, id⟩
  | cons psegment il ih =>
    rw [Segments.advanceSealed]
    obtain ⟨⟨hm, hsealed⟩, hil'⟩ := List.forall_mem_cons.1 hil
    split
    · next hnext =>
      have hfailed : segs.m_ilSegmentsSealFailed ≠ [] ∨ psegment.m_errSeal ≠ none →
          (if psegment.m_errSeal = none then segs.m_ilSegmentsSealFailed
            else segs.m_ilSegmentsSealFailed ++ [psegment]) ≠ [] := by
        intro hf
        split
        · next herr => exact hf.resolve_right (not_not_intro herr)
        · simp
      obtain ⟨h', hgrows, hsame⟩ := ih (h.advance hm hsealed hnext hfailed) hil'
      refine ⟨h', Grows.trans ?_ ?_ hgrows, SameDurable.trans ?_ hsame⟩
      · exact ⟨by dsimp only; omega, le_refl _, rfl, fun _ => id, fun _ => .inl, fun _ => id,
          fun hf => hfailed (.inl hf)⟩
      · exact ⟨rfl, rfl⟩
      · exact ⟨rfl, rfl⟩
    · refine ⟨⟨h.writeback_le, h.durable_le, h.sealed_le, h.sealed_mod, h.hdr, h.mount_le,
        h.sealed_mem, h.durable_mem, h.toSeal, h.starting, h.pending, hil, h.sealedOk⟩, ?_,
        ⟨rfl, rfl⟩⟩
      exact ⟨le_refl _, le_refl _, rfl, fun _ => id, fun _ => .inl, fun _ => id, id⟩

/-- A seal completes. -/
theorem Inv.segmentSealed (h : segs.Inv rgsealed) (psegment psegmentSealed : CSegment)
    (hspos : psegmentSealed.m_spos = psegment.m_spos) (hm : psegment.m_spos ∈ segs.rgspos) :
    (segs.segmentSealed psegment psegmentSealed).Inv
        (rgsealed ++ [(psegment.m_spos, psegmentSealed.m_errSeal)]) ∧
      Grows segs rgsealed (segs.segmentSealed psegment psegmentSealed)
        (rgsealed ++ [(psegment.m_spos, psegmentSealed.m_errSeal)]) ∧
      SameDurable segs (segs.segmentSealed psegment psegmentSealed) := by
  have hsub : ∀ p ∈ rgsealed, p ∈ rgsealed ++ [(psegment.m_spos, psegmentSealed.m_errSeal)] :=
    fun p hp => List.mem_append_left _ hp
  have h₁ : Segments.Inv { segs with
      m_ilSegmentsSealPending := segs.m_ilSegmentsSealPending.erase psegment }
      (rgsealed ++ [(psegment.m_spos, psegmentSealed.m_errSeal)]) :=
    ⟨h.writeback_le, h.durable_le, h.sealed_le, h.sealed_mod, h.hdr, h.mount_le, h.sealed_mem,
      h.durable_mem, h.toSeal, h.starting, fun seg hs => h.pending seg (List.mem_of_mem_erase hs),
      fun seg hs => ⟨(h.completed seg hs).1, hsub _ (h.completed seg hs).2⟩,
      fun spos hs hle => (h.sealedOk spos hs hle).imp_left (hsub _)⟩
  have hil : ∀ seg ∈ insertSegment psegmentSealed segs.m_ilSegmentsSealCompleted,
      seg.m_spos ∈ segs.rgspos ∧
        (seg.m_spos, seg.m_errSeal) ∈ rgsealed ++
          [(psegment.m_spos, psegmentSealed.m_errSeal)] := by
    intro seg hs
    rcases mem_insertSegment.1 hs with rfl | hs
    · rw [hspos]
      exact ⟨hm, List.mem_append_right _ (List.mem_singleton_self _)⟩
    · exact ⟨(h.completed seg hs).1, hsub _ (h.completed seg hs).2⟩
  obtain ⟨h₂, hgrows, hsame⟩ := h₁.advanceSealed _ hil
  refine ⟨h₂, Grows.trans ?_ ?_ hgrows, SameDurable.trans ?_ hsame⟩
  · exact ⟨le_refl _, le_refl _, rfl, fun _ => id, fun _ => .inl, hsub, id⟩
  · exact ⟨rfl, rfl⟩
  · exact ⟨rfl, rfl⟩

/-! ### Flushing -/

/-- The end of a flush keeps the invariant. -/
theorem Inv.flushed (h : segs.Inv rgsealed) (errFlush : Option ERR) :
    (segs.flushed errFlush).Inv rgsealed := by
  have hle := h.durable_le
  have hwb := h.writeback_le
  refine ⟨?_, ?_, h.sealed_le, h.sealed_mod, h.hdr, h.mount_le, h.sealed_mem, ?_, h.toSeal,
    h.starting, h.pending, h.completed, h.sealedOk⟩
  · unfold Segments.flushed
    dsimp only
    split <;> omega
  · unfold Segments.flushed
    dsimp only
    split <;> omega
  · unfold Segments.flushed
    dsimp only
    split
    · exact h.sealed_mem
    · exact h.durable_mem

/-- The end of a flush adds no segment. -/
theorem grows_flushed (segs : Segments) (rgsealed : List (Nat × Option ERR))
    (errFlush : Option ERR) : Grows segs rgsealed (segs.flushed errFlush) rgsealed :=
  ⟨le_refl _, le_refl _, rfl, fun _ => id, fun _ => .inl, fun _ => id, id⟩

end Segments

end Ese.Journal
