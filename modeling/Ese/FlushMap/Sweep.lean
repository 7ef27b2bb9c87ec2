import Ese.FlushMap.Checkpoint

/-!
# The sweep

Every step keeps the invariant, as long as no last header write fails when it is issued. Such a
failure leaves the cursor at the end of the map with the target already cleared, and the next header
write persists the cleared target.
-/

namespace Ese.FlushMap

open CFlushMap

variable {pfm : CFlushMap} {h : History}

/-- A page beyond those in use is done. -/
theorem done_of_not_range (hrange : ∀ p, h.fDirty p → 0 ≤ p ∧ p ≤ pfm.fmpgnoUsedMax) {p : Int}
    (hp : ¬ (0 ≤ p ∧ p ≤ pfm.fmpgnoUsedMax)) : h.Done p :=
  fun hd => absurd (hrange p hd) hp

/-- A page that is clean and has no write in progress is done. -/
theorem PageInv.done {p : Int} {fmd : FlushMapPageDescriptor FmDataPage} (hp : PageInv h p fmd)
    (hdirty : fmd.fDirty = false) (hio : fmd.fAsyncWriteInProgress = false) : h.Done p := by
  rcases hp.pending with hd | hd | hd
  · exact hd
  · rw [hdirty] at hd
    cases hd
  · rw [hio] at hd
    cases hd

/-! ## Completions and setters -/

/-- A completion with `errIo` of the write of a page. -/
theorem PageInv.complete {p : Int} {fmd : FlushMapPageDescriptor FmDataPage} (hp : PageInv h p fmd)
    {errIo : Int} (hio : fmd.fAsyncWriteInProgress = true)
    (hw : JET_errSuccess ≤ errIo → ∀ pv, fmd.pvWriteBuffer = some pv → pv ∈ h.rgpvWritten p) :
    let fmd' := if errIo ≥ JET_errSuccess then fmd
      else { fmd with errAsyncWrite := errIo, fDirty := true }
    PageInv h p { fmd' with pvWriteBuffer := none, fAsyncWriteInProgress := false }
      ∧ Swept h p { fmd' with pvWriteBuffer := none, fAsyncWriteInProgress := false } := by
  have hvalid := hp.valid (.inr hio)
  by_cases herr : errIo ≥ JET_errSuccess
  · have hdone : h.Done p := by
      obtain ⟨pv, hs, hb⟩ := hp.buffer hio
      exact fun _ => ⟨pv, hw herr pv hb, hs⟩
    simp only [if_pos herr]
    exact ⟨⟨hp.since, fun _ => hvalid, (nomatch ·), .inl hdone⟩, .inl hdone⟩
  · simp only [if_neg herr]
    exact ⟨⟨hp.since, fun _ => hvalid, (nomatch ·), .inr (.inl rfl)⟩,
      .inr (.inr (not_le.1 herr))⟩

/-- The page of a write in progress is a page of the map. -/
theorem PcInv.range {pc : Pc} (hp : PcInv pfm h pc) {p : Int}
    (hio : (pfm.m_rgfmd p).fAsyncWriteInProgress = true) : 0 ≤ p ∧ p ≤ pfm.fmpgnoUsedMax := by
  have hquiet (hq : Quiet pfm) : 0 ≤ p ∧ p ≤ pfm.fmpgnoUsedMax := by
    rw [hq.pages p] at hio
    cases hio
  have hsection {first last : Int} (hs : Section pfm h first last) : 0 ≤ p ∧
    p ≤ pfm.fmpgnoUsedMax := by
    have h₁ := hs.inProgress p hio
    have h₂ := hs.first_nonneg
    have h₃ := hs.last_le
    omega
  have hinFlight {err first last : Int} (hi : InFlight pfm h err first last) :
      0 ≤ p ∧ p ≤ pfm.fmpgnoUsedMax := by
    rcases hi with ⟨-, -, hh⟩ | ⟨-, hs⟩
    · rw [hh.pages p] at hio
      cases hio
    · exact hsection hs
  cases pc with
  | Idle | Enter => exact hquiet hp.quiet
  | FindFirst => exact hquiet hp.1
  | Flush | Write => exact hsection hp.1
  | HandleError err first last cfmpgAsyncWrite =>
    rw [PcInv] at hp
    split at hp
    · exact hinFlight hp
    · exact hquiet hp.quiet
  | Partitioned => exact hinFlight hp

/-- The completion of a page write keeps the invariant. -/
theorem writeIoCompleteFmDataPage_inv (hi : Inv pfm h) {p : Int} {errIo : Int}
    (hio : (pfm.m_rgfmd p).fAsyncWriteInProgress = true)
    (hw : JET_errSuccess ≤ errIo → ∀ pv, (pfm.m_rgfmd p).pvWriteBuffer = some pv →
      pv ∈ h.rgpvWritten p) :
    Inv (pfm.writeIoCompleteFmDataPage p errIo) h := by
  obtain ⟨hpage, hswept⟩ := (hi.pages p).complete hio hw
  obtain ⟨hfirst, hlast⟩ := hi.pc.range hio
  have hcount := inFlight_setFmd hfirst hlast { (if errIo ≥ JET_errSuccess then pfm.m_rgfmd p
    else { pfm.m_rgfmd p with errAsyncWrite := errIo, fDirty := true }) with
      pvWriteBuffer := none, fAsyncWriteInProgress := false }
  rw [hio] at hcount
  have hb : Beside h pfm (pfm.writeIoCompleteFmDataPage p errIo) := by
    refine ⟨rfl, rfl, rfl, rfl, rfl, rfl, rfl, id, fun q hq => ?_, fun q hq => ?_, fun q hq => ?_⟩
    · by_cases hqp : q = p
      · rw [hqp]
        exact hio
      · simpa only [writeIoCompleteFmDataPage, setFmd, Function.update_of_ne hqp] using hq
    · by_cases hqp : q = p
      · subst hqp
        simp only [writeIoCompleteFmDataPage, setFmd, Function.update_self]
        split <;> exact hq
      · simpa only [writeIoCompleteFmDataPage, setFmd, Function.update_of_ne hqp] using hq
    · by_cases hqp : q = p
      · subst hqp
        simpa only [writeIoCompleteFmDataPage, setFmd, Function.update_self] using hswept
      · simpa only [writeIoCompleteFmDataPage, setFmd, Function.update_of_ne hqp] using hq
  have hhdr := hi.hdr
  refine hb.inv hi rfl (fun q => ?_) ⟨hhdr.buffer, hhdr.same, hhdr.done, hhdr.target, hhdr.le⟩ ?_
    hi.persisted
  · by_cases hqp : q = p
    · subst hqp
      simpa only [writeIoCompleteFmDataPage, setFmd, Function.update_self] using hpage
    · simpa only [writeIoCompleteFmDataPage, setFmd, Function.update_of_ne hqp] using hi.pages q
  · change pfm.m_msSectionFlush - 1 - (inFlight (pfm.setFmd p _) : Int) = _
    simp only [Bool.toNat_true, Bool.toNat_false] at hcount
    omega

/-- The completion of a header write keeps the invariant. -/
theorem writeIoCompleteFmHdr_inv (hi : Inv pfm h) {errIo : Int}
    (hio : pfm.m_fmdFmHdr.fAsyncWriteInProgress = true) :
      Inv (pfm.writeIoCompleteFmHdr errIo) h := by
  have hcount : inFlight pfm = inFlight (pfm.writeIoCompleteFmHdr errIo) + 1 := by
    simp only [inFlight, writeIoCompleteFmHdr, hio, Bool.toNat_true, Bool.toNat_false]
    omega
  have hbuffer := hi.hdr.buffer
  by_cases herr : errIo ≥ JET_errSuccess
  · have hmem : (pfm.writeIoCompleteFmHdr errIo).pfmfilehdrInMemory = pfm.pfmfilehdrInMemory := by
      obtain ⟨hdr, hhdr⟩ : ∃ hdr, pfm.m_fmdFmHdr.pvWriteBuffer = some hdr := ⟨_, hbuffer⟩
      simp only [writeIoCompleteFmHdr, pfmfilehdrInMemory, if_pos herr, hhdr, Option.getD_some]
    have hpv : (pfm.writeIoCompleteFmHdr errIo).m_fmdFmHdr.pv = pfm.pfmfilehdrInMemory := by
      simp only [writeIoCompleteFmHdr, if_pos herr]
    have hb : Beside h pfm (pfm.writeIoCompleteFmHdr errIo) :=
      ⟨rfl, rfl, rfl, rfl, rfl, rfl, hmem, fun _ => hio, fun _ => id, fun _ => id, fun _ => id⟩
    refine hb.inv hi rfl hi.pages ⟨?_, fun _ => ?_, hi.hdr.done, ?_, ?_⟩ ?_ fun _ => .inr (.inr ?_)
    · rw [hmem]
      simp only [writeIoCompleteFmHdr, if_pos herr]
      exact hbuffer
    · rw [hmem, lGenMinRequired, hpv]
    · rw [hmem]
      exact hi.hdr.target
    · rw [hmem, lGenMinRequired, hpv]
    · change pfm.m_msSectionFlush - 1 - (inFlight (pfm.writeIoCompleteFmHdr errIo) : Int) = _
      omega
    · rw [hmem, hpv]
  · have hmem : (pfm.writeIoCompleteFmHdr errIo).pfmfilehdrInMemory = pfm.pfmfilehdrInMemory := by
      simp only [writeIoCompleteFmHdr, pfmfilehdrInMemory, if_neg herr]
    have hpv : (pfm.writeIoCompleteFmHdr errIo).m_fmdFmHdr.pv = pfm.m_fmdFmHdr.pv := by
      simp only [writeIoCompleteFmHdr, if_neg herr]
    have hb : Beside h pfm (pfm.writeIoCompleteFmHdr errIo) :=
      ⟨rfl, rfl, rfl, rfl, rfl, rfl, hmem, fun _ => hio, fun _ => id, fun _ => id, fun _ => id⟩
    refine hb.inv hi rfl hi.pages ⟨?_, ?_, hi.hdr.done, ?_, ?_⟩ ?_ fun _ => .inr (.inl ?_)
    · rw [hmem]
      simp only [writeIoCompleteFmHdr, if_neg herr]
      exact hbuffer
    · rw [hmem, lGenMinRequired, hpv]
      exact hi.hdr.same
    · rw [hmem]
      exact hi.hdr.target
    · rw [hmem, lGenMinRequired, hpv]
      exact hi.hdr.le
    · change pfm.m_msSectionFlush - 1 - (inFlight (pfm.writeIoCompleteFmHdr errIo) : Int) = _
      omega
    · simp only [writeIoCompleteFmHdr, if_neg herr]
      simpa using herr

/-- A new flush type keeps the invariant. -/
theorem setPgnoFlushType_inv (hi : Inv pfm h) {p : Int} {pv : FmDataPage}
    (hvalid : (pfm.m_rgfmd p).fValid = true) (hsince : pv ∈ h.rgpvSince p) :
    Inv (pfm.setFmd p { pfm.m_rgfmd p with pv := pv, fDirty := true }) h := by
  have hpage : PageInv h p { pfm.m_rgfmd p with pv := pv, fDirty := true } :=
    ⟨hsince, fun _ => hvalid, (hi.pages p).buffer, .inr (.inl rfl)⟩
  have hflags (q : Int) :
      ((pfm.setFmd p { pfm.m_rgfmd p with pv := pv, fDirty := true }).m_rgfmd
          q).fAsyncWriteInProgress
          = (pfm.m_rgfmd q).fAsyncWriteInProgress
        ∧ ((pfm.setFmd p { pfm.m_rgfmd p with pv := pv, fDirty := true }).m_rgfmd q).fValid
          = (pfm.m_rgfmd q).fValid
        ∧ ((pfm.setFmd p { pfm.m_rgfmd p with pv := pv, fDirty := true }).m_rgfmd q).errAsyncWrite
          = (pfm.m_rgfmd q).errAsyncWrite := by
    by_cases hqp : q = p
    · subst hqp
      simp only [setFmd, Function.update_self, and_self]
    · simp only [setFmd, Function.update_of_ne hqp, and_self]
  have hb : Beside h pfm (pfm.setFmd p { pfm.m_rgfmd p with pv := pv, fDirty := true }) := by
    refine ⟨rfl, rfl, rfl, rfl, rfl, rfl, rfl, id, fun q hq => (hflags q).1 ▸ hq,
      fun q hq => (hflags q).2.1.trans hq, fun q hq => ?_⟩
    rw [Swept, (hflags q).1, (hflags q).2.2]
    exact hq
  have hhdr := hi.hdr
  refine hb.inv hi rfl (fun q => ?_) ⟨hhdr.buffer, hhdr.same, hhdr.done, hhdr.target, hhdr.le⟩ ?_
    hi.persisted
  · by_cases hqp : q = p
    · subst hqp
      simpa only [setFmd, Function.update_self] using hpage
    · simpa only [setFmd, Function.update_of_ne hqp] using hi.pages q
  · rw [show inFlight (pfm.setFmd p { pfm.m_rgfmd p with pv := pv, fDirty := true }) =
        inFlight pfm by
      simp only [inFlight, (hflags _).1]
      rfl]
    rfl

/-! ## Header writes of the thread -/

/-- A write of the header leaves the one in memory. -/
theorem pfmfilehdrInMemory_flushHdr (errIo : Int) :
    (pfm.flushHdr errIo).pfmfilehdrInMemory = pfm.pfmfilehdrInMemory := by
  by_cases herr : errIo < JET_errSuccess
  · have hneg : ¬ errIo ≥ JET_errSuccess := not_le.2 herr
    simp only [flushHdr, errAsyncWriteFmHdr, if_pos herr, writeIoCompleteFmHdr, if_neg hneg]
    rfl
  · simp only [flushHdr, errAsyncWriteFmHdr, if_neg herr]
    rfl

/-- A header write from rest. A write that fails when it is issued leaves the cursor. -/
theorem flushHdr_inv (hs : Shared pfm h) (hq : Quiet pfm) {errIo : Int}
    (hcount : pfm.m_msSectionFlush = 1 + inFlight pfm)
    (hfinal : pfm.m_fSectionCheckpointHeaderWrite = true →
      pfm.m_fmpgnoSectionFlushNext = s_fmpgnoHdr
      ∨ JET_errSuccess ≤ errIo)
    (htarget : pfm.m_fSectionCheckpointHeaderWrite = false → TargetOk pfm h) :
    Inv (pfm.flushHdr errIo) h := by
  have hhdr := hs.hdr
  have hio := hq.hdr
  by_cases herr : errIo < JET_errSuccess
  · have hneg : ¬ errIo ≥ JET_errSuccess := not_le.2 herr
    simp only [flushHdr, errAsyncWriteFmHdr, if_pos herr, writeIoCompleteFmHdr, if_neg hneg]
    refine ⟨⟨hs.pages, hs.range, ⟨hhdr.buffer, hhdr.same, hhdr.done, hhdr.target, hhdr.le⟩, hs.next,
      hs.cursor⟩, ?_, fun _ => .inr (.inl herr), ?_⟩
    · change pfm.m_msSectionFlush + 1 - 1 = 1 + ((_ : Nat) : Int)
      simp only [inFlight, goto, prepareFmHdrForWrite, hio] at hcount ⊢
      omega
    · refine ⟨⟨hq.pages, rfl⟩, fun hf => ?_, fun hf _ => ⟨(htarget hf).target, (htarget hf).le⟩⟩
      rcases hfinal hf with hn | hn
      · exact hn
      · exact absurd hn hneg
  · simp only [flushHdr, errAsyncWriteFmHdr, if_neg herr]
    refine ⟨⟨hs.pages, hs.range, ⟨hhdr.buffer, hhdr.same, hhdr.done, hhdr.target, hhdr.le⟩, hs.next,
      hs.cursor⟩, ?_, fun _ => .inl rfl, ?_⟩
    · change pfm.m_msSectionFlush + 1 = 1 + ((_ : Nat) : Int)
      simp only [inFlight, goto, prepareFmHdrForWrite, hio, Bool.toNat_false, Bool.toNat_true]
        at hcount ⊢
      omega
    · exact .inl ⟨rfl, rfl, not_lt.1 herr, hq.pages,
        fun hf => ⟨(htarget hf).target, (htarget hf).le⟩⟩

/-- The last header write, where it does not fail when it is issued. -/
theorem finishFlush_inv (hs : Shared pfm h) (hq : Quiet pfm) {errIo : Int}
    (herr : JET_errSuccess ≤ errIo)
    (hcount : pfm.m_msSectionFlush = 1 + inFlight pfm)
    (hf : pfm.m_fSectionCheckpointHeaderWrite = false) (ht : TargetOk pfm h)
      (hdone : ∀ p, h.Done p) :
    Inv (pfm.finishFlush errIo) h := by
  have hneg : ¬ errIo < JET_errSuccess := not_lt.2 herr
  have hsame := hs.hdr.same hf
  have hle := ht.le
  have heq : pfm.finishFlush errIo
      = { pfm.setHdr ⟨pfm.pfmfilehdrInMemory.lGenMinRequiredTarget, 0⟩ with
          m_fSectionCheckpointHeaderWrite := true }.flushHdr errIo := by
    simp only [finishFlush, flushHdr, errAsyncWriteFmHdr, if_neg hneg]
    rfl
  rw [heq]
  apply flushHdr_inv
  · have hgen : pfm.lGenMinRequired ≤ pfm.pfmfilehdrInMemory.lGenMinRequiredTarget := by omega
    exact ⟨hs.pages, hs.range, ⟨rfl, (nomatch ·), fun _ => hdone, fun _ => ht.target, hgen⟩,
      hs.next,
      (nomatch ·)⟩
  · exact ⟨hq.pages, hq.hdr⟩
  · exact hcount
  · exact fun _ => .inr herr
  · exact (nomatch ·)

/-! ## The thread -/

/-- Where a sweep is entered all is at rest. -/
theorem Inv.atEnter (hi : Inv pfm h) (hpc : pfm.pc = .Enter) : AtRest pfm h := by
  have hr := hi.pc
  rw [hpc] at hr
  exact hr

/-- The count of the writes in flight at a place. -/
theorem Inv.count_of_pc (hi : Inv pfm h) {pc : Pc} (hpc : pfm.pc = pc) :
    pfm.m_msSectionFlush = sentinel pc + inFlight pfm :=
  hpc ▸ hi.count

/-- A jump to a place whose part of the invariant holds. -/
theorem goto_inv (hi : Inv pfm h) {pc : Pc} (hsentinel : sentinel pc = sentinel pfm.pc)
    (hp : PcInv pfm h pc) :
    Inv (pfm.goto pc) h := by
  have hhdr := hi.hdr
  have hb : Beside h pfm (pfm.goto pc) :=
    ⟨rfl, rfl, rfl, rfl, rfl, rfl, rfl, id, fun _ => id, fun _ => id, fun _ => id⟩
  refine ⟨⟨hi.pages, hi.range, ⟨hhdr.buffer, hhdr.same, hhdr.done, hhdr.target, hhdr.le⟩, hi.next,
    hi.cursor⟩,
    ?_, hi.persisted, ?_⟩
  · change pfm.m_msSectionFlush = sentinel pc + inFlight pfm
    rw [hsentinel]
    exact hi.count
  · exact hb.pcInv hp

/-- The entry, when it does not record a target. -/
theorem enter_inv (hi : Inv pfm h) (hpc : pfm.pc = .Enter) (errIo : Int)
    (hnext : pfm.m_fmpgnoSectionFlushNext ≠ s_fmpgnoUninit) : Inv (pfm.enter errIo) h := by
  have hrest := hi.atEnter hpc
  rw [enter, if_neg hnext]
  split
  · rename_i hn
    exact flushHdr_inv hi.toShared hrest.quiet (hi.count_of_pc hpc) (fun _ => .inl hn)
      fun hf => hrest.target hf hnext
  · rename_i hn
    have hpage : 0 ≤ pfm.m_fmpgnoSectionFlushNext := by
      rcases hi.next with hu | hh | hp
      · exact absurd hu hnext
      · exact absurd hh hn
      · exact hp
    have hf : pfm.m_fSectionCheckpointHeaderWrite = false := by
      by_contra hf
      exact hn (hrest.final (Bool.not_eq_false _ ▸ hf))
    exact goto_inv hi (by rw [hpc]; rfl) ⟨hrest.quiet, ⟨hf, hpage, hrest.target hf hnext⟩, hpage,
      hi.cursor hf⟩

/-- The entry that records a target starts the history anew. -/
theorem startFlush_inv (hi : Inv pfm h) (hpc : pfm.pc = .Enter)
    (hnext : pfm.m_fmpgnoSectionFlushNext = s_fmpgnoUninit) (errIo errFlush : Int) :
    Inv (pfm.enter errIo) (h.after (.Continue errIo errFlush) pfm (pfm.enter errIo)) := by
  have hrest := hi.atEnter hpc
  have hhdr := hi.hdr
  have hf : pfm.m_fSectionCheckpointHeaderWrite = false := by
    by_contra hf
    rw [hrest.final (Bool.not_eq_false _ ▸ hf)] at hnext
    cases hnext
  have hne : ¬ pfm.m_fmpgnoSectionFlushNext = s_fmpgnoHdr := by
    rw [hnext]
    decide
  have henter : pfm.enter errIo = pfm.startFlush errIo := by rw [enter, if_neg hne, if_pos hnext]
  have hrecords : recordsTarget (.Continue errIo errFlush) pfm = true := decide_eq_true ⟨hpc, hnext⟩
  rw [History.after, hrecords, henter, startFlush, if_pos rfl, pfmfilehdrInMemory_flushHdr]
  apply flushHdr_inv
  · refine ⟨fun p => ⟨List.mem_singleton.2 rfl, (hi.pages p).valid, fun hio => ?_, ?_⟩,
      fun p hp => ⟨hp.1, hp.2.1⟩, ⟨rfl, fun _ => hhdr.same hf, fun hc => ?_, fun hc => ?_, hhdr.le⟩,
      hi.next,
      fun _ p hp hd => ?_⟩
    · change (pfm.m_rgfmd p).fAsyncWriteInProgress = true at hio
      rw [hrest.quiet.pages p] at hio
      cases hio
    · by_cases hd : (pfm.m_rgfmd p).fDirty = true
      · exact .inr (.inl hd)
      · exact .inl fun hd' => absurd hd'.2.2 hd
    · change pfm.m_fSectionCheckpointHeaderWrite = true at hc
      rw [hf] at hc
      cases hc
    · change pfm.m_fSectionCheckpointHeaderWrite = true at hc
      rw [hf] at hc
      cases hc
    · change p < pfm.m_fmpgnoSectionFlushNext at hp
      rw [hnext, s_fmpgnoUninit] at hp
      have h0 := hd.1
      omega
  · exact ⟨hrest.quiet.pages, hrest.quiet.hdr⟩
  · exact hi.count_of_pc hpc
  · intro hc
    change pfm.m_fSectionCheckpointHeaderWrite = true at hc
    rw [hf] at hc
    cases hc
  · exact fun _ => ⟨rfl, le_max_right _ _⟩

/-- A turn of the loop that looks for the first page keeps the invariant. -/
theorem findFirst_inv (hi : Inv pfm h) {p : Int} (hpc : pfm.pc = .FindFirst p)
    {errIo errFlush : Int}
    (hissue : issuesFinalHdr errFlush pfm → JET_errSuccess ≤ errIo) :
    Inv (pfm.findFirst errIo errFlush p) h := by
  have hp := hi.pc
  rw [hpc] at hp
  obtain ⟨hq, hs, hfirst, hdone⟩ := hp
  have hsentinel : sentinel pfm.pc = 1 := by rw [hpc]; rfl
  have hskip (hd : h.Done p) : Inv (pfm.goto (.FindFirst (p + 1))) h := by
    refine goto_inv hi hsentinel.symm ⟨hq, hs, by omega, fun q hq => ?_⟩
    by_cases hqp : q = p
    · exact hqp ▸ hd
    · exact hdone q (by omega)
  rw [findFirst]
  split
  · rename_i hlast
    dsimp only
    split
    · rename_i hdirty
      exact hskip ((hi.pages p).done (Bool.not_eq_true _ ▸ hdirty) (hq.pages p))
    · rename_i hdirty
      split
      · refine goto_inv hi hsentinel.symm
          ⟨⟨hs, hfirst, by omega, by omega, fun q hio => ?_, hq.hdr, hdone,
          fun q h₁ h₂ => by omega⟩, by omega, fun q h₁ h₂ => by omega⟩
        rw [hq.pages q] at hio
        cases hio
      · rename_i hvalid
        exact absurd ((hi.pages p).valid (.inl (not_not.1 hdirty))) hvalid
  · rename_i hlast
    have hall (q : Int) : h.Done q := by
      by_cases hqp : q < p
      · exact hdone q hqp
      · exact done_of_not_range hi.range (by omega)
    have hcount := hi.count_of_pc hpc
    have hhdr := hi.hdr
    split
    · rename_i hrecent
      split
      · exact goto_inv hi hsentinel.symm ⟨hq, fun hc => absurd (hs.final.symm.trans hc) (by simp),
          fun _ _ => hs.target⟩
      · rename_i hflush
        have herr := hissue ⟨p, hpc, not_le.1 hlast, fun _ => not_lt.1 hflush⟩
        apply finishFlush_inv
        · exact ⟨hi.pages, hi.range, ⟨hhdr.buffer, hhdr.same, hhdr.done, hhdr.target, hhdr.le⟩,
            hi.next,
            hi.cursor⟩
        · exact ⟨hq.pages, hq.hdr⟩
        · exact herr
        · exact hcount
        · exact hs.final
        · exact ⟨hs.target.target, hs.target.le⟩
        · exact hall
    · rename_i hrecent
      have herr := hissue ⟨p, hpc, not_le.1 hlast, fun hc => absurd hc hrecent⟩
      exact finishFlush_inv hi.toShared hq herr hcount hs.final hs.target hall

/-- The end of the loop over the pages of the section. -/
theorem Section.handleError {first last : Int} (hs : Section pfm h first last) (err : Int) :
    PcInv pfm h (.HandleError err first last (last - first + 1)) := by
  rw [PcInv]
  split
  · exact .inr ⟨by omega, hs⟩
  · refine ⟨⟨fun p => ?_, hs.hdr⟩, fun hc => absurd (hs.sweeping.final.symm.trans hc) (by simp),
      fun _ _ => hs.sweeping.target⟩
    by_contra hio
    have h₁ := hs.inProgress p (Bool.not_eq_false _ ▸ hio)
    omega

/-- A turn of the loop over the pages keeps the invariant. -/
theorem flush_inv (hi : Inv pfm h) {err first last check cfmpgAsyncWrite : Int}
    (hpc : pfm.pc = .Flush err first last check cfmpgAsyncWrite) :
    Inv (pfm.flush err first last check cfmpgAsyncWrite) h := by
  have hp := hi.pc
  rw [hpc] at hp
  obtain ⟨hs, rfl, hvalid⟩ := hp
  have hsentinel : sentinel pfm.pc = 1 := by rw [hpc]; rfl
  have hnext (hv : (pfm.m_rgfmd check).fValid = true) (p : Int) (h₁ : last < p) (h₂ : p ≤ check) :
      (pfm.m_rgfmd p).fValid = true := by
    by_cases hp : p = check
    · exact hp ▸ hv
    · exact hvalid p h₁ (by omega)
  rw [flush]
  split
  · rename_i hloop
    split
    · exact goto_inv hi hsentinel.symm (hs.handleError err)
    · rename_i hv
      have hv := not_not.1 hv
      split
      · exact goto_inv hi hsentinel.symm ⟨hs, rfl, rfl, hloop.1, hnext hv⟩
      · split
        · exact goto_inv hi hsentinel.symm (hs.handleError err)
        · exact goto_inv hi hsentinel.symm ⟨hs, rfl, fun p h₁ h₂ => hnext hv p h₁ (by omega)⟩
  · exact goto_inv hi hsentinel.symm (hs.handleError err)

/-- The write of a page that fails when it is issued leaves the page dirty. -/
theorem errAsyncWriteFmDataPage_failed (hi : Inv pfm h) {p errIo : Int}
    (hidle : (pfm.m_rgfmd p).fAsyncWriteInProgress = false) (hv : (pfm.m_rgfmd p).fValid = true)
    (herr : errIo < JET_errSuccess) : Inv (pfm.errAsyncWriteFmDataPage errIo p) h := by
  have hneg : ¬ errIo ≥ JET_errSuccess := not_le.2 herr
  have hfmd : (pfm.errAsyncWriteFmDataPage errIo p).m_rgfmd = Function.update pfm.m_rgfmd p
      { pfm.m_rgfmd p with
        pvWriteBuffer := none, fAsyncWriteInProgress := false, errAsyncWrite := errIo, fDirty :=
          true } := by
    simp only [errAsyncWriteFmDataPage, if_pos herr, writeIoCompleteFmDataPage, if_neg hneg, setFmd,
      prepareFmDataPageForWrite, Function.update_self, Function.update_idem]
  have hother : pfm.errAsyncWriteFmDataPage errIo p = { pfm with
      m_rgfmd := (pfm.errAsyncWriteFmDataPage errIo p).m_rgfmd
      m_msSectionFlush := pfm.m_msSectionFlush + 1 - 1 } := by
    simp only [errAsyncWriteFmDataPage, if_pos herr]
    rfl
  have hio (q : Int) : ((pfm.errAsyncWriteFmDataPage errIo p).m_rgfmd q).fAsyncWriteInProgress
      = (pfm.m_rgfmd q).fAsyncWriteInProgress := by
    rw [hfmd]
    by_cases hqp : q = p
    · subst hqp
      rw [Function.update_self, hidle]
    · rw [Function.update_of_ne hqp]
  have hinFlight : inFlight (pfm.errAsyncWriteFmDataPage errIo p) = inFlight pfm := by
    rw [inFlight, inFlight]
    simp only [hio]
    rw [hother]
  have hb : Beside h pfm (pfm.errAsyncWriteFmDataPage errIo p) := by
    refine ⟨?_, ?_, ?_, ?_, ?_, ?_, ?_, ?_, fun q => ?_, fun q hq => ?_, fun q hq => ?_⟩
    · rw [hother]
    · rw [hother]
    · rw [hother]
    · rw [hother]
    · rw [hother]
    · rw [hother]
    · rw [hother]
      rfl
    · rw [hother]
      exact id
    · rw [hio]
      exact id
    · rw [hfmd]
      by_cases hqp : q = p
      · subst hqp
        rw [Function.update_self]
        exact hq
      · rw [Function.update_of_ne hqp]
        exact hq
    · rw [hfmd]
      by_cases hqp : q = p
      · subst hqp
        rw [Function.update_self]
        exact .inr (.inr herr)
      · rw [Function.update_of_ne hqp]
        exact hq
  refine hb.inv hi (by rw [hother]) (fun q => ?_) ?_ ?_ ?_
  · rw [hfmd]
    by_cases hqp : q = p
    · subst hqp
      rw [Function.update_self]
      refine ⟨(hi.pages q).since, fun _ => hv, fun hio => ?_, .inr (.inl rfl)⟩
      cases hio
    · rw [Function.update_of_ne hqp]
      exact hi.pages q
  · have hhdr := hi.hdr
    rw [hother]
    exact ⟨hhdr.buffer, hhdr.same, hhdr.done, hhdr.target, hhdr.le⟩
  · have hms : (pfm.errAsyncWriteFmDataPage errIo p).m_msSectionFlush =
        pfm.m_msSectionFlush + 1 - 1 := by
      rw [hother]
    rw [hinFlight, hms]
    omega
  · rw [hother]
    exact hi.persisted

/-- The write of the next page of the section. -/
theorem prepareFmDataPageForWrite_inv (hi : Inv pfm h) {errIo err first last check : Int}
    (hpc : pfm.pc = .Write err first last check (last + 1) (last - first + 1))
    (hloop : last + 1 ≤ check)
    (hidle : (pfm.m_rgfmd (last + 1)).fAsyncWriteInProgress = false) :
    Inv ((pfm.prepareFmDataPageForWrite (last + 1)).goto
      (.Write errIo first (last + 1) check (last + 1 + 1) (last - first + 1 + 1))) h := by
  have hp := hi.pc
  rw [hpc] at hp
  obtain ⟨hs, -, -, hcheck, hvalid⟩ := hp
  have hv := hvalid (last + 1) (by omega) hloop
  have hcount : pfm.m_msSectionFlush = 1 + inFlight pfm := hi.count_of_pc hpc
  have hfirst := hs.first_nonneg
  have hle := hs.first_le
  have hpage := hi.pages (last + 1)
  have hhdr := hi.hdr
  refine ⟨⟨fun p => ?_, hi.range, ⟨hhdr.buffer, hhdr.same, hhdr.done, hhdr.target, hhdr.le⟩,
    hi.next, hi.cursor⟩,
    ?_, hi.persisted, ?_⟩
  · simp only [goto, prepareFmDataPageForWrite, setFmd]
    by_cases hq : p = last + 1
    · subst hq
      rw [Function.update_self]
      exact ⟨hpage.since, fun _ => hv, fun _ => ⟨_, hpage.since, rfl⟩, .inr (.inr rfl)⟩
    · rw [Function.update_of_ne hq]
      exact hi.pages p
  · have hone :=
      inFlight_setFmd (show 0 ≤ last + 1 by omega) (show last + 1 ≤ pfm.fmpgnoUsedMax by omega)
      { pfm.m_rgfmd (last + 1) with
        pvWriteBuffer := some (pfm.m_rgfmd (last + 1)).pv, fAsyncWriteInProgress := true
        errAsyncWrite := JET_errSuccess, fDirty := false }
    rw [hidle] at hone
    simp only [Bool.toNat_true, Bool.toNat_false] at hone
    change pfm.m_msSectionFlush + 1 = 1 + (inFlight (pfm.setFmd (last + 1) _) : Int)
    omega
  · refine ⟨⟨⟨hs.sweeping.final, hs.sweeping.next, hs.sweeping.target.target,
      hs.sweeping.target.le⟩, hfirst,
      by omega, ?_, fun p hio => ?_, hs.hdr, hs.before, fun p h₁ h₂ => ?_⟩, by omega, rfl, hcheck,
      fun p h₁ h₂ => ?_⟩
    · exact Int.le_trans hloop hcheck
    · by_cases hq : p = last + 1
      · omega
      · simp only [goto, prepareFmDataPageForWrite, setFmd, Function.update_of_ne hq] at hio
        have hin := hs.inProgress p hio
        omega
    · simp only [goto, prepareFmDataPageForWrite, setFmd]
      by_cases hq : p = last + 1
      · subst hq
        rw [Function.update_self]
        exact .inr (.inl rfl)
      · rw [Function.update_of_ne hq]
        exact hs.swept p h₁ (by omega)
    · have hq : p ≠ last + 1 := by omega
      simp only [goto, prepareFmDataPageForWrite, setFmd, Function.update_of_ne hq]
      exact hvalid p (by omega) h₂

/-- A turn of the loop that writes the pages keeps the invariant. -/
theorem write_inv (hi : Inv pfm h)
    {errIo err first last check fmpgnoSectionFlush cfmpgAsyncWrite : Int}
    (hpc : pfm.pc = .Write err first last check fmpgnoSectionFlush cfmpgAsyncWrite) :
    Inv (pfm.write errIo err first last check fmpgnoSectionFlush cfmpgAsyncWrite) h := by
  have hp := hi.pc
  rw [hpc] at hp
  obtain ⟨hs, rfl, rfl, hcheck, hvalid⟩ := hp
  have hsentinel : sentinel pfm.pc = 1 := by rw [hpc]; rfl
  rw [write]
  split
  · rename_i hloop
    have hidle : (pfm.m_rgfmd (last + 1)).fAsyncWriteInProgress = false := by
      by_contra hio
      have h₁ := hs.inProgress _ (Bool.not_eq_false _ ▸ hio)
      omega
    dsimp only
    split
    · rename_i herr
      have hi' := errAsyncWriteFmDataPage_failed hi hidle (hvalid (last + 1) (by omega) hloop) herr
      have hpc' : (pfm.errAsyncWriteFmDataPage errIo (last + 1)).pc = pfm.pc := by
        simp only [errAsyncWriteFmDataPage, if_pos herr]
        rfl
      have hs' := hi'.pc
      rw [hpc', hpc] at hs'
      exact goto_inv hi' (by rw [hpc', hpc]; rfl) (hs'.1.handleError errIo)
    · rename_i herr
      simp only [errAsyncWriteFmDataPage, if_neg herr]
      exact prepareFmDataPageForWrite_inv hi hpc hloop hidle
  · exact goto_inv hi hsentinel.symm ⟨hs, rfl, fun p h₁ h₂ => by omega⟩

/-- The end of a section, failed or not, keeps the invariant. -/
theorem handleError_inv (hi : Inv pfm h) {err first last cfmpgAsyncWrite : Int}
    (hpc : pfm.pc = .HandleError err first last cfmpgAsyncWrite) :
    Inv (pfm.handleError err first last cfmpgAsyncWrite) h := by
  have hp := hi.pc
  have hcount : pfm.m_msSectionFlush = 1 + inFlight pfm := hi.count_of_pc hpc
  have hhdr := hi.hdr
  rw [hpc, PcInv] at hp
  rw [handleError]
  simp only
  split
  · rename_i hc
    rw [if_pos hc] at hp
    refine ⟨⟨hi.pages, hi.range, ⟨hhdr.buffer, hhdr.same, hhdr.done, hhdr.target, hhdr.le⟩, hi.next,
      hi.cursor⟩,
      ?_, hi.persisted, ?_⟩
    · change pfm.m_msSectionFlush - 1 = 0 + (inFlight pfm : Int)
      omega
    · rcases hp with ⟨hfirst, hlast, hh⟩ | ⟨hle, hs⟩
      · exact .inl ⟨hfirst, hlast, hh.err, hh.pages, fun hf =>
          ⟨(hh.target hf).target, (hh.target hf).le⟩⟩
      · exact .inr ⟨hle, ⟨hs.sweeping.final, hs.sweeping.next, hs.sweeping.target.target,
          hs.sweeping.target.le⟩, hs.first_nonneg, hs.first_le, hs.last_le, hs.inProgress, hs.hdr,
          hs.before,
          hs.swept⟩
  · rename_i hc
    rw [if_neg hc] at hp
    refine ⟨⟨hi.pages, hi.range, ⟨hhdr.buffer, hhdr.same, hhdr.done, hhdr.target, hhdr.le⟩, hi.next,
      hi.cursor⟩,
      ?_, hi.persisted, ?_⟩
    · change pfm.m_msSectionFlush - 1 = 0 + (inFlight pfm : Int)
      omega
    · exact ⟨⟨hp.quiet.pages, hp.quiet.hdr⟩, hp.final,
        fun hf hn => ⟨(hp.target hf hn).target, (hp.target hf hn).le⟩⟩

/-! ## The completion of a section -/

/-- The loop stops at the first page with a failed write. -/
theorem completeLoop_spec (pfm : CFlushMap) (n : Nat) {p : Int} (hp : 0 ≤ p) :
    p ≤ pfm.completeLoop n p ∧ ∀ q, p ≤ q → q < pfm.completeLoop n p →
      q < p + n ∧ ¬ (pfm.m_rgfmd q).errAsyncWrite < JET_errSuccess := by
  induction n generalizing p with
  | zero => exact ⟨le_refl _, fun q h₁ h₂ => absurd h₁ (not_le.2 h₂)⟩
  | succ n ih =>
    have hne : p ≠ s_fmpgnoHdr := by
      rw [s_fmpgnoHdr]
      omega
    rw [completeLoop, errAsyncWrite, if_neg hne, if_neg hne]
    split
    · exact ⟨le_refl _, fun q h₁ h₂ => absurd h₁ (not_le.2 h₂)⟩
    · rename_i herr
      obtain ⟨hle, hloop⟩ := ih (p := p + 1) (by omega)
      refine ⟨by omega, fun q h₁ h₂ => ?_⟩
      by_cases hqp : q = p
      · exact ⟨by omega, hqp ▸ herr⟩
      · obtain ⟨hlt, hok⟩ := hloop q (by omega) h₂
        exact ⟨by omega, hok⟩

/-- The state after a completion with the cursor at `next`. -/
theorem completed_inv (hi : Inv pfm h) (hpc : pfm.pc = .Partitioned) (hq : Quiet pfm)
    {err next : Int}
    {final : Bool} (hnext : next = s_fmpgnoUninit ∨ next = s_fmpgnoHdr ∨ 0 ≤ next)
    (hcursor : final = false → ∀ p < next, h.Done p)
    (hsame : final = false → pfm.pfmfilehdrInMemory.lGenMinRequired = pfm.lGenMinRequired)
    (hfinal : final = true → pfm.m_fSectionCheckpointHeaderWrite = true ∧ next = s_fmpgnoHdr)
    (htarget : final = false → next ≠ s_fmpgnoUninit → TargetOk pfm h) :
    Inv { pfm with
      m_errSectionFlushWriteLastError := err
      m_fmpgnoSectionFlushFirst := s_fmpgnoUninit
      m_fmpgnoSectionFlushLast := s_fmpgnoUninit
      m_fmpgnoSectionFlushNext := next
      m_fSectionCheckpointHeaderWrite := final
      pc := .Idle } h := by
  have hhdr := hi.hdr
  have hcount : pfm.m_msSectionFlush = 0 + inFlight pfm := hi.count_of_pc hpc
  refine ⟨⟨hi.pages, hi.range, ⟨hhdr.buffer, hsame, fun hf => hhdr.done (hfinal hf).1,
    fun hf => hhdr.target (hfinal hf).1, hhdr.le⟩, hnext, hcursor⟩, hcount,
    fun hf => hi.persisted (hfinal hf).1, ⟨hq.pages, hq.hdr⟩, fun hf => (hfinal hf).2, fun hf hn =>
      ?_⟩
  exact ⟨(htarget hf hn).target, (htarget hf hn).le⟩

/-- The completion of a section keeps the invariant. -/
theorem completeOneSectionFlush_inv (hi : Inv pfm h) (hpc : pfm.pc = .Partitioned)
    (hms : pfm.m_msSectionFlush = 0) : Inv pfm.completeOneSectionFlush h := by
  have hp := hi.pc
  have hcount : pfm.m_msSectionFlush = 0 + inFlight pfm := hi.count_of_pc hpc
  have hq : Quiet pfm := quiet_of_inFlight_eq_zero (by omega) fun p hio => hi.pc.range hio
  have hhdr := hi.hdr
  have hbelow (p : Int) (hlt : p < 0) : h.Done p := done_of_not_range hi.range (by omega)
  rw [hpc] at hp
  rw [completeOneSectionFlush]
  rcases hp with ⟨hfirst, hlast, hh⟩ | ⟨hle, hs⟩
  · have hloop : pfm.completeLoop
        (pfm.m_fmpgnoSectionFlushLast + 1 - pfm.m_fmpgnoSectionFlushFirst).toNat
        pfm.m_fmpgnoSectionFlushFirst
        = if pfm.m_fmdFmHdr.errAsyncWrite < JET_errSuccess then s_fmpgnoHdr else 0 := by
      rw [hfirst, hlast]
      rfl
    have hlasterr := hh.err
    rw [hloop, hlast]
    by_cases herr : pfm.m_fmdFmHdr.errAsyncWrite < JET_errSuccess
    · -- the header is to be written again
      have hfailed : pfm.errAsyncWrite s_fmpgnoHdr < JET_errSuccess := herr
      simp only [if_pos herr, ge_iff_le, hlasterr, le_refl, and_self, if_true, hfailed, not_true,
        and_false, if_false]
      refine completed_inv hi hpc hq (.inr (.inl rfl)) (fun _ p hlt => hbelow p ?_) hhdr.same
        (fun hf => ⟨hf, rfl⟩) fun hf _ => hh.target hf
      exact Int.lt_trans hlt (by decide)
    · have hnot : ¬ ((0 : Int) ≤ s_fmpgnoHdr) := by decide
      simp only [if_neg herr, hnot, false_and, if_false, not_lt.2 hlasterr, not_false_eq_true,
        and_true]
      cases hf : pfm.m_fSectionCheckpointHeaderWrite with
      | true =>
        -- the checkpoint is complete
        simp only [if_true]
        have hpersisted : pfm.m_fmdFmHdr.pv = pfm.pfmfilehdrInMemory := by
          rcases hi.persisted hf with hio | hfail | hpv
          · rw [hq.hdr] at hio
            cases hio
          · exact absurd hfail herr
          · exact hpv
        refine completed_inv hi hpc hq (.inl rfl) (fun _ p hlt => hbelow p ?_)
          (fun _ => by rw [lGenMinRequired, hpersisted]) (nomatch ·) fun _ hn => absurd rfl hn
        exact Int.lt_trans hlt (by decide)
      | false =>
        simp only [Bool.false_eq_true, if_false]
        exact completed_inv hi hpc hq (.inr (.inr (le_refl _))) (fun _ => hbelow)
          (fun _ => hhdr.same hf)
          (nomatch ·) fun _ _ => hh.target hf
  · have hfirst := hs.first_nonneg
    have hf := hs.sweeping.final
    obtain ⟨hge, hloop⟩ := completeLoop_spec pfm
      (pfm.m_fmpgnoSectionFlushLast + 1 - pfm.m_fmpgnoSectionFlushFirst).toNat hs.first_nonneg
    simp only [hf, Bool.false_eq_true, false_and, if_false]
    refine completed_inv hi hpc hq (.inr (.inr (Int.le_trans hfirst hge))) (fun _ p hlt => ?_)
      (fun _ => hhdr.same hf) (nomatch ·) fun _ _ => hs.sweeping.target
    by_cases hbefore : p < pfm.m_fmpgnoSectionFlushFirst
    · exact hs.before p hbefore
    · obtain ⟨hlast, hok⟩ := hloop p (not_lt.1 hbefore) hlt
      rcases hs.swept p (not_lt.1 hbefore) (by omega) with hd | hio | hfail
      · exact hd
      · rw [hq.pages p] at hio
        cases hio
      · exact absurd hfail hok

/-! ## Runs -/

/-- A step of the map and its history. -/
def Step (op : Op) (s s' : CFlushMap × History) : Prop :=
  step op s.1 = some s'.1 ∧ s'.2 = s.2.after op s.1 s'.1

/-- The operation is not a last header write that fails when it is issued. -/
def FinalHdrIssued (op : Op) (pfm : CFlushMap) : Prop :=
  ∀ errIo errFlush, op = .Continue errIo errFlush → issuesFinalHdr errFlush pfm →
    JET_errSuccess ≤ errIo

/-- The map after its attachment: the header has been written, no write is in progress, and the
dirty pages are valid. No target has been recorded. -/
structure Initial (s : CFlushMap × History) : Prop where
  pc : s.1.pc = .Idle
  hdr : s.1.m_fmdFmHdr.pvWriteBuffer = some s.1.m_fmdFmHdr.pv
  quiet : Quiet s.1
  valid : ∀ p, (s.1.m_rgfmd p).fDirty = true → (s.1.m_rgfmd p).fValid = true
  next : s.1.m_fmpgnoSectionFlushNext = s_fmpgnoUninit
  final : s.1.m_fSectionCheckpointHeaderWrite = false
  empty : s.1.m_msSectionFlush = 0
  since : ∀ p, s.2.rgpvSince p = [(s.1.m_rgfmd p).pv]
  dirty : ∀ p, ¬ s.2.fDirty p

/-- The invariant holds at the start. -/
theorem Initial.inv {s : CFlushMap × History} (hs : Initial s) : Inv s.1 s.2 := by
  have hmem : s.1.pfmfilehdrInMemory = s.1.m_fmdFmHdr.pv := by
    rw [pfmfilehdrInMemory, hs.hdr]
    rfl
  have hfinal {P : Prop} (hf : s.1.m_fSectionCheckpointHeaderWrite = true) : P := by
    rw [hs.final] at hf
    cases hf
  have hquiet {P : Prop} {p : Int} (hio : (s.1.m_rgfmd p).fAsyncWriteInProgress = true) : P := by
    rw [hs.quiet.pages p] at hio
    cases hio
  have hdone (p : Int) : s.2.Done p := fun hd => absurd hd (hs.dirty p)
  refine ⟨⟨fun p => ⟨?_, ?_, hquiet, .inl (hdone p)⟩, fun p hp => absurd hp (hs.dirty p),
    ⟨by rw [hmem]; exact hs.hdr, fun _ => by rw [hmem]; rfl, hfinal,
    hfinal, by rw [hmem]; exact le_refl _⟩,
    .inl hs.next, fun _ p _ => hdone p⟩, ?_, hfinal, ?_⟩
  · rw [hs.since]
    exact List.mem_singleton.2 rfl
  · exact fun hd => hd.elim (hs.valid p) hquiet
  · rw [hs.pc, hs.empty, inFlight, hs.quiet.hdr]
    simp [hs.quiet.pages, sentinel]
  · rw [hs.pc]
    exact ⟨hs.quiet, hfinal, fun _ hn => absurd hs.next hn⟩

/-- A step of the map keeps the invariant. -/
theorem step_inv (op : Op) (s s' : CFlushMap × History) (hi : Inv s.1 s.2)
    (hstep : Step op s s' ∧ FinalHdrIssued op s.1) : Inv s'.1 s'.2 := by
  obtain ⟨pfm, h⟩ := s
  obtain ⟨pfm', h'⟩ := s'
  obtain ⟨⟨hrun, hafter⟩, hissue⟩ := hstep
  simp only at hrun hafter hi hissue ⊢
  subst hafter
  cases op with
  | FlushOneSection_ =>
    have hi := hi.mono (h.le_after .FlushOneSection_ pfm pfm' rfl)
    rw [step] at hrun
    split at hrun
    · rename_i hpc
      cases hrun
      have hrest : PcInv pfm _ .Idle := hpc ▸ hi.pc
      have hcount : pfm.m_msSectionFlush = 0 + inFlight pfm := hi.count_of_pc hpc
      have hhdr := hi.hdr
      refine ⟨⟨hi.pages, hi.range, ⟨hhdr.buffer, hhdr.same, hhdr.done, hhdr.target, hhdr.le⟩,
        hi.next,
        hi.cursor⟩, ?_, hi.persisted,
        ⟨⟨hrest.quiet.pages, hrest.quiet.hdr⟩, hrest.final, fun hf hn => ?_⟩⟩
      · change pfm.m_msSectionFlush + 1 = 1 + (inFlight pfm : Int)
        omega
      · exact ⟨(hrest.target hf hn).target, (hrest.target hf hn).le⟩
    · cases hrun
  | Continue errIo errFlush =>
    rw [step, flushOneSection] at hrun
    have hissue := hissue errIo errFlush rfl
    cases hrecords : recordsTarget (.Continue errIo errFlush) pfm with
    | true =>
      obtain ⟨hpc, hnext⟩ := of_decide_eq_true hrecords
      rw [hpc] at hrun
      cases hrun
      exact startFlush_inv hi hpc hnext errIo errFlush
    | false =>
      have hi := hi.mono (h.le_after _ _ pfm' hrecords)
      split at hrun
      · cases hrun
      · cases hrun
      · rename_i hpc
        cases hrun
        exact enter_inv hi hpc errIo fun hn => of_decide_eq_false hrecords ⟨hpc, hn⟩
      · rename_i hpc
        cases hrun
        exact findFirst_inv hi hpc hissue
      · rename_i hpc
        cases hrun
        exact flush_inv hi hpc
      · rename_i hpc
        cases hrun
        exact write_inv hi hpc
      · rename_i hpc
        cases hrun
        exact handleError_inv hi hpc
  | OsWriteIoComplete_ p errIo =>
    have hi := hi.mono (h.le_after (.OsWriteIoComplete_ p errIo) pfm pfm' rfl)
    rw [step] at hrun
    split at hrun
    · split at hrun
      · rename_i hio
        cases hrun
        exact writeIoCompleteFmHdr_inv hi hio
      · cases hrun
    · split at hrun
      · rename_i hio
        cases hrun
        refine writeIoCompleteFmDataPage_inv hi hio.2.2 fun herr pv hpv => ?_
        refine List.mem_append_left _ ?_
        rw [written, if_pos ⟨rfl, herr⟩, hpv]
        exact List.mem_singleton.2 rfl
      · cases hrun
  | CompleteOneSectionFlush_ =>
    have hi := hi.mono (h.le_after .CompleteOneSectionFlush_ pfm pfm' rfl)
    rw [step] at hrun
    split at hrun
    · rename_i hpc
      cases hrun
      exact completeOneSectionFlush_inv hi hpc.1 hpc.2
    · cases hrun
  | SetPgnoFlushType pgno pgft dbtime =>
    have hi := hi.mono (h.le_after (.SetPgnoFlushType pgno pgft dbtime) pfm pfm' rfl)
    rw [step] at hrun
    split at hrun
    · cases hrun
      exact hi
    · rename_i hvalid
      cases hrun
      refine setPgnoFlushType_inv hi (not_not.1 fun hv => hvalid (.inr hv))
        (List.mem_cons.2 (.inl ?_))
      simp only [setFmd, Function.update_self]
  | SetGenMinConsistent lGenMinConsistent =>
    have hi := hi.mono (h.le_after (.SetGenMinConsistent lGenMinConsistent) pfm pfm' rfl)
    cases hrun
    have hb : Beside (h.after (.SetGenMinConsistent lGenMinConsistent) pfm
        { pfm with lGenMinConsistent := lGenMinConsistent }) pfm
        { pfm with lGenMinConsistent := lGenMinConsistent } :=
      ⟨rfl, rfl, rfl, rfl, rfl, rfl, rfl, id, fun _ => id, fun _ => id, fun _ => id⟩
    have hhdr := hi.hdr
    exact hb.inv hi rfl hi.pages ⟨hhdr.buffer, hhdr.same, hhdr.done, hhdr.target, hhdr.le⟩
      rfl hi.persisted

/-- A write of the header leaves the persisted one until it completes. -/
theorem pv_flushHdr (errIo : Int) : (pfm.flushHdr errIo).m_fmdFmHdr.pv = pfm.m_fmdFmHdr.pv := by
  by_cases herr : errIo < JET_errSuccess
  · have hneg : ¬ errIo ≥ JET_errSuccess := not_le.2 herr
    simp only [flushHdr, errAsyncWriteFmHdr, if_pos herr, writeIoCompleteFmHdr, if_neg hneg]
    rfl
  · simp only [flushHdr, errAsyncWriteFmHdr, if_neg herr]
    rfl

/-- The end of a section leaves the persisted header. -/
theorem pv_finishFlush (errIo : Int) :
    (pfm.finishFlush errIo).m_fmdFmHdr.pv = pfm.m_fmdFmHdr.pv := by
  have hflush : ((pfm.setHdr ⟨pfm.pfmfilehdrInMemory.lGenMinRequiredTarget, 0⟩).flushHdr
    errIo).m_fmdFmHdr.pv = _ :=
    pv_flushHdr errIo
  rw [finishFlush]
  split
  · exact hflush
  · exact hflush

/-- The thread persists nothing itself. -/
theorem pv_flushOneSection {errIo errFlush : Int} {pfm' : CFlushMap}
    (hrun : pfm.flushOneSection errIo errFlush = some pfm') :
      pfm'.m_fmdFmHdr.pv = pfm.m_fmdFmHdr.pv := by
  rw [flushOneSection] at hrun
  split at hrun
  · cases hrun
  · cases hrun
  · cases hrun
    rw [enter]
    split
    · exact pv_flushHdr errIo
    · split
      · exact pv_flushHdr errIo
      · rfl
  · cases hrun
    rw [findFirst]
    split
    · dsimp only
      split
      · rfl
      · split <;> rfl
    · split
      · split
        · rfl
        · exact pv_finishFlush errIo
      · exact pv_finishFlush errIo
  · cases hrun
    rw [flush]
    split
    · split
      · rfl
      · split
        · rfl
        · split <;> rfl
    · rfl
  · cases hrun
    rw [write]
    split
    · rw [errAsyncWriteFmDataPage]
      dsimp only
      split <;> rfl
    · rfl
  · cases hrun
    rw [handleError]
    dsimp only
    split <;> rfl

/-- What is persisted changes with the completion of a header write only. -/
theorem pv_step {op : Op} {pfm' : CFlushMap} (hrun : step op pfm = some pfm') :
    pfm'.m_fmdFmHdr.pv = pfm.m_fmdFmHdr.pv
      ∨ recordsTarget op pfm = false ∧ pfm'.m_fmdFmHdr.pv = pfm.pfmfilehdrInMemory := by
  cases op with
  | FlushOneSection_ | CompleteOneSectionFlush_ =>
    rw [step] at hrun
    split at hrun
    · cases hrun
      exact .inl rfl
    · cases hrun
  | Continue errIo errFlush => exact .inl (pv_flushOneSection hrun)
  | OsWriteIoComplete_ p errIo =>
    rw [step] at hrun
    split at hrun
    · split at hrun
      · cases hrun
        rw [writeIoCompleteFmHdr]
        dsimp only
        split
        · exact .inr ⟨rfl, rfl⟩
        · exact .inl rfl
      · cases hrun
    · split at hrun
      · cases hrun
        exact .inl rfl
      · cases hrun
  | SetPgnoFlushType =>
    rw [step] at hrun
    split at hrun
    · cases hrun
      exact .inl rfl
    · cases hrun
      exact .inl rfl
  | SetGenMinConsistent =>
    cases hrun
    exact .inl rfl

/-- A step persists what is persisted, or a larger `lGenMinRequired`: then it is the recorded
target, and every page that was dirty at the target is done. -/
theorem Inv.persist {op : Op} {s s' : CFlushMap × History} (hi : Inv s.1 s.2)
    (hstep : Step op s s') :
    s.1.lGenMinRequired ≤ s'.1.lGenMinRequired
      ∧ (s'.1.lGenMinRequired ≠ s.1.lGenMinRequired →
        s'.1.lGenMinRequired = s'.2.lGenMinRequiredTarget ∧ ∀ p, s'.2.Done p) := by
  rcases pv_step hstep.1 with hpv | ⟨hrecords, hpv⟩
  · have hsame : s'.1.lGenMinRequired = s.1.lGenMinRequired := by
      rw [lGenMinRequired, lGenMinRequired, hpv]
    exact ⟨le_of_eq hsame.symm, fun hne => absurd hsame hne⟩
  · have hnew : s'.1.lGenMinRequired = s.1.pfmfilehdrInMemory.lGenMinRequired := by
      rw [lGenMinRequired, hpv]
    have hle := s.2.le_after _ _ s'.1 hrecords
    rw [← hstep.2] at hle
    refine ⟨hnew ▸ hi.hdr.le, fun hne => ?_⟩
    cases hf : s.1.m_fSectionCheckpointHeaderWrite with
    | true =>
      refine ⟨?_, fun p => (hi.hdr.done hf p).mono hle⟩
      rw [hnew, hi.hdr.target hf, hle.target]
    | false => exact absurd (hnew.trans (hi.hdr.same hf)) hne

/-- In every run in which no last header write fails when it is issued, and at every step after it,
the persisted `lGenMinRequired` does not decrease; when it becomes another one, that is the recorded
target, and every page that was dirty when the target was recorded has since been written with
contents it has had since. -/
theorem run_checkpoint {s₀ s : CFlushMap × History} (h₀ : Initial s₀) {ops : List Op}
    (hrun : Run (fun op s s' => Step op s s' ∧ FinalHdrIssued op s.1) s₀ ops s) {op : Op}
    {s' : CFlushMap × History} (hstep : Step op s s') :
    s.1.lGenMinRequired ≤ s'.1.lGenMinRequired
      ∧ (s'.1.lGenMinRequired ≠ s.1.lGenMinRequired →
        s'.1.lGenMinRequired = s'.2.lGenMinRequiredTarget
          ∧ ∀ p, s'.2.fDirty p → ∃ pv ∈ s'.2.rgpvWritten p, pv ∈ s'.2.rgpvSince p) :=
  Inv.persist (hrun.invariant (I := fun s => Inv s.1 s.2) step_inv h₀.inv) hstep

/-! ## The two ends of a sweep -/

/-- A map of one clean page, whose header has generation 5 while the database is consistent from 7
on. -/
def cleanMap : CFlushMap where
  m_fmdFmHdr := ⟨⟨5, 0⟩, some ⟨5, 0⟩, true, false, false, false, 0⟩
  m_rgfmd := fun _ => ⟨⟨0, fun _ => 0⟩, none, true, false, false, false, 0⟩
  m_cfmpgAllocated := 1
  m_fmpgnoSectionFlushFirst := s_fmpgnoUninit
  m_fmpgnoSectionFlushLast := s_fmpgnoUninit
  m_fmpgnoSectionFlushNext := s_fmpgnoUninit
  m_fSectionCheckpointHeaderWrite := false
  m_errSectionFlushWriteLastError := JET_errSuccess
  m_msSectionFlush := 0
  lGenMinConsistent := 7
  JET_paramMaxCoalesceWriteSize := 8192
  JET_paramMaxCoalesceWriteGapSize := 0
  pc := .Idle

/-- A map that is clean, with nothing written yet. -/
def cleanStart : CFlushMap × History :=
  (cleanMap, ⟨0, fun _ => False, fun p => [(cleanMap.m_rgfmd p).pv], fun _ => []⟩)

/-- A clean map is a start. -/
theorem cleanStart_initial : Initial cleanStart :=
  ⟨rfl, rfl, ⟨fun _ => rfl, rfl⟩, fun _ => (nomatch ·), rfl, rfl, rfl, fun _ => rfl, fun _ => id⟩

/-- A section that writes the header at the start of a sweep. -/
def startOps : List Op :=
  [.FlushOneSection_, .Continue 0 0, .Continue 0 0, .OsWriteIoComplete_ s_fmpgnoHdr 0,
    .CompleteOneSectionFlush_]

/-- The sweep of one clean page, up to its last header write, whose issue has the error `errIo`. -/
def sweepOps (errIo : Int) : List Op :=
  startOps ++ [.FlushOneSection_, .Continue 0 0, .Continue 0 0, .Continue errIo 0, .Continue 0 0]

/-- A section with the one page, whose flush types are set again while its write is under way; the
write completes with the error `errIo`. -/
def pageOps (errIo : Int) : List Op :=
  .FlushOneSection_ :: List.replicate 7 (.Continue 0 0) ++
    [.SetPgnoFlushType 4 .pgftRockWrite 11, .OsWriteIoComplete_ 0 errIo, .CompleteOneSectionFlush_]

/-- The sweep of one dirty page, up to its last header write. The write of the page fails when it is
issued, then when it completes, and the third one succeeds (-1022 is `JET_errDiskIO`). -/
def dirtySweepOps : List Op :=
  .SetPgnoFlushType 3 .pgftPaperWrite 10 :: startOps ++
    [.FlushOneSection_, .Continue 0 0, .Continue 0 0, .Continue 0 0, .Continue (-1022) 0,
    .Continue 0 0] ++
    pageOps (-1022) ++ pageOps 0 ++ [.FlushOneSection_, .Continue 0 0, .Continue 0 0, .Continue 0 0]

/-- A write fails that is issued at the end of the scan, where the last header write is. -/
def failsAtScan (op : Op) (pfm : CFlushMap) : Bool :=
  match op, pfm.pc with
  | .Continue errIo _, .FindFirst _ => errIo < JET_errSuccess
  | _, _ => false

/-- A step of the map and its history, as a function; with `fIssued` no last header write fails when
it is issued. -/
def stepHistory (fIssued : Bool) (s : CFlushMap × History) (op : Op) :
    Option (CFlushMap × History) :=
  if fIssued && failsAtScan op s.1 then none
  else (step op s.1).map fun pfm' => (pfm', s.2.after op s.1 pfm')

/-- A computed step is a step. -/
theorem step_of_stepHistory {fIssued : Bool} (op : Op) (s s' : CFlushMap × History)
    (hs : stepHistory fIssued s op = some s') :
    Step op s s' ∧ (fIssued = true → FinalHdrIssued op s.1) := by
  unfold stepHistory at hs
  split_ifs at hs with hfails
  obtain ⟨pfm', hstep, rfl⟩ := Option.map_eq_some_iff.1 hs
  refine ⟨⟨hstep, rfl⟩, fun hissued errIo errFlush hop hfinal => ?_⟩
  subst hissued hop
  obtain ⟨fmpgno, hpc, -⟩ := hfinal
  simpa [failsAtScan, hpc] using hfails

/-- A run from the clean map with a step after it, and what holds before and after that step. -/
theorem run_of_foldlM {fIssued : Bool} {ops : List Op} {op : Op}
    {P : CFlushMap × History → CFlushMap × History → Prop}
    (hrun : ∃ s s', ops.foldlM (stepHistory fIssued) cleanStart = some s ∧
      stepHistory fIssued s op = some s' ∧ P s s') :
    ∃ s s', Run (fun op s s' => Step op s s' ∧ (fIssued = true → FinalHdrIssued op s.1)) cleanStart
      ops s
      ∧ Step op s s' ∧ P s s' := by
  obtain ⟨s, s', hs, hs', hP⟩ := hrun
  exact ⟨s, s', Run.of_foldlM step_of_stepHistory ops hs, (step_of_stepHistory op s s' hs').1, hP⟩

/-- A whole sweep of a dirty page, with failing writes, persists the target, generation 7, and the
page has been written since. -/
theorem run_checkpoint_sweep : ∃ s s', Step (.OsWriteIoComplete_ s_fmpgnoHdr 0) s s'
    ∧ s.1.lGenMinRequired = 5 ∧ s'.1.lGenMinRequired = 7 ∧ s'.2.lGenMinRequiredTarget = 7
    ∧ s'.2.fDirty 0 ∧ ∃ pv ∈ s'.2.rgpvWritten 0, pv ∈ s'.2.rgpvSince 0 := by
  obtain ⟨s, s', hrun, hstep, h₅, h₇, hdirty⟩ := @run_of_foldlM true dirtySweepOps
    (.OsWriteIoComplete_ s_fmpgnoHdr 0)
    (fun s s' => s.1.lGenMinRequired = 5 ∧ s'.1.lGenMinRequired = 7 ∧ s'.2.fDirty 0)
    (by
      refine ⟨_, _, rfl, rfl, rfl, rfl, ?_⟩
      exact ⟨by decide, by decide, rfl⟩)
  obtain ⟨-, hpersisted⟩ := run_checkpoint cleanStart_initial
    (hrun.imp fun _ _ _ hs => ⟨hs.1, hs.2 rfl⟩) hstep
  obtain ⟨htarget, hwritten⟩ := hpersisted (by rw [h₅, h₇]; decide)
  refine ⟨s, s', hstep, h₅, h₇, ?_, hdirty, hwritten 0 hdirty⟩
  rw [← htarget, h₇]

/-- The last header write fails when it is issued (-1011 is `JET_errOutOfMemory`). The next one
persists generation 0, where 5 was persisted. -/
theorem failed_final_write_decreases : Initial cleanStart ∧ ∃ ops op s s', Run Step cleanStart ops s
    ∧ Step op s s' ∧ s'.1.lGenMinRequired < s.1.lGenMinRequired := by
  obtain ⟨s, s', hrun, hstep, h₅, h₀⟩ := @run_of_foldlM false
    (sweepOps (-1011) ++ [.FlushOneSection_, .Continue 0 0, .Continue 0 0, .Continue 0 0,
    .Continue 0 0])
    (.OsWriteIoComplete_ s_fmpgnoHdr 0)
    (fun s s' => s.1.lGenMinRequired = 5 ∧ s'.1.lGenMinRequired = 0) ⟨_, _, rfl, rfl, rfl, rfl⟩
  refine ⟨cleanStart_initial, _, _, s, s', hrun.imp fun _ _ _ hs => hs.1, hstep, ?_⟩
  rw [h₅, h₀]
  decide

end Ese.FlushMap
