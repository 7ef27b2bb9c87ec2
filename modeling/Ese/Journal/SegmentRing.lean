import Ese.Journal.SegmentManager

/-!
# The ring never overwrites what it needs

`Ring.Inv` is what holds between the calls of the segment manager: the recorded positions are in
order, the visible segments fit in the ring, and for every segment from the durable one on the
manager knows what the segment recorded. What a segment recorded only grows along the ring, so the
first position never moves back; and a segment is created only while a place outside the visible
journal is left.

The last free place is not kept free. The durable position has to advance for a segment to be put
there, but the segment it advances to may have recorded the replay position of the one before, and
then the first position stays. Nor does the append position always follow the last segment: where
the journal could not keep the segment it was given, its next call creates the last one once more.
`ring_run` is about both: what holds in every run, and what holds in the runs in which each segment
created is kept and the last place is taken only when the first position moves.
-/

namespace Ese.Journal

/-- An error that the manager passes on: of the file, or of an allocation. -/
def ERR.External (err : ERR) : Prop := (∃ e, err = .io e) ∨ err = .JET_errOutOfMemory

namespace TJournalSegmentManager

variable {pjsm : TJournalSegmentManager} {io : SegmentIO} {spos sposReplay sposDurable : Nat}

/-! ## Offsets -/

/-- The last segment is on the ring. -/
def LastOnRing (pjsm : TJournalSegmentManager) : Prop :=
  pjsm.m_ib ≤ pjsm.m_ibLast ∧ pjsm.m_ibLast < pjsm.m_ib + pjsm.m_cb

/-- A position less than one turn away from the last one has an offset on the ring, which is its
distance from the last segment, up to a turn. -/
theorem errGetSegmentOffset_spec (h : LastOnRing pjsm) (spos : Nat)
    (hlo : pjsm.m_sposLast < spos + pjsm.m_cb) (hhi : spos < pjsm.m_sposLast + pjsm.m_cb) :
    ∃ ib, pjsm.errGetSegmentOffset spos = .ok ib ∧ pjsm.m_ib ≤ ib ∧ ib < pjsm.m_ib + pjsm.m_cb ∧
      (ib + pjsm.m_sposLast = pjsm.m_ibLast + spos ∨
        ib + pjsm.m_sposLast = pjsm.m_ibLast + spos + pjsm.m_cb ∨
        ib + pjsm.m_sposLast + pjsm.m_cb = pjsm.m_ibLast + spos) := by
  obtain ⟨h₁, h₂⟩ := h
  unfold errGetSegmentOffset
  dsimp only
  by_cases hlt : (pjsm.m_ibLast : Int) - ((pjsm.m_sposLast : Int) - spos) < pjsm.m_ib
  · rw [if_pos hlt, if_neg (by omega), if_neg (by omega)]
    exact ⟨_, rfl, by omega, by omega, by omega⟩
  · rw [if_neg hlt]
    by_cases hge : (pjsm.m_ibLast : Int) - ((pjsm.m_sposLast : Int) - spos)
        ≥ pjsm.m_ib + pjsm.m_cb
    · rw [if_pos hge, if_neg (by omega)]
      exact ⟨_, rfl, by omega, by omega, by omega⟩
    · rw [if_neg hge, if_neg (by omega)]
      exact ⟨_, rfl, by omega, by omega, by omega⟩

/-- Two positions less than a turn apart do not share an offset. -/
theorem errGetSegmentOffset_inj (h : LastOnRing pjsm) {p q ib : Nat} (hpq : p < q)
    (hturn : q < p + pjsm.m_cb) (hlo : pjsm.m_sposLast < p + pjsm.m_cb)
    (hhi : q < pjsm.m_sposLast + pjsm.m_cb) (hp : pjsm.errGetSegmentOffset p = .ok ib) :
    pjsm.errGetSegmentOffset q ≠ .ok ib := by
  obtain ⟨ib₁, he₁, _, _, h₁⟩ := errGetSegmentOffset_spec h p hlo (by omega)
  obtain ⟨ib₂, he₂, _, _, h₂⟩ := errGetSegmentOffset_spec h q (by omega) hhi
  rw [he₁] at hp
  rw [he₂]
  rintro he
  have e₁ : ib₁ = ib := Except.ok.inj hp
  have e₂ : ib₂ = ib := Except.ok.inj he
  omega

/-! ## What the manager knows of its segments -/

/-- The list has every segment from the durable one to the last one, in order, with the replay
positions they recorded. -/
structure Infos (pjsm : TJournalSegmentManager) : Prop where
  sorted : pjsm.m_ilSegmentInfo.Pairwise fun i j => i.spos < j.spos
  mono : pjsm.m_ilSegmentInfo.Pairwise fun i j => i.sposReplay ≤ j.sposReplay
  spos : ∀ i ∈ pjsm.m_ilSegmentInfo, pjsm.m_sposDurableMax ≤ i.spos ∧ i.spos ≤ pjsm.m_sposLast
  replay : ∀ i ∈ pjsm.m_ilSegmentInfo,
    pjsm.m_sposFirst ≤ i.sposReplay ∧ i.sposReplay ≤ pjsm.m_sposReplayMax ∧
      cbJournalSegment ∣ i.sposReplay
  all : ∀ p, cbJournalSegment ∣ p → pjsm.m_sposDurableMax ≤ p → p ≤ pjsm.m_sposLast →
    ∃ i ∈ pjsm.m_ilSegmentInfo, i.spos = p

theorem insertInfo_nil (info : CSegmentInfo) : insertInfo info [] = [info] := rfl

/-- A segment that no other is past goes to the end of the list, in the place of its like. -/
theorem replaceInfo_eq {info : CSegmentInfo} {il : List CSegmentInfo}
    (hs : il.Pairwise fun i j => i.spos < j.spos) (h : ∀ i ∈ il, i.spos ≤ info.spos) :
    replaceInfo info il = il.filter (·.spos < info.spos) ++ [info] := by
  have hdrop : il.rdropWhile (fun i => info.spos < i.spos) = il := by
    rw [List.rdropWhile_eq_self_iff]
    intro hne
    have := h _ (List.getLast_mem hne)
    simp only [decide_eq_true_eq]
    omega
  have htake : il.rtakeWhile (fun i => info.spos < i.spos) = [] := by
    rw [List.rtakeWhile_eq_nil_iff]
    intro hne
    have := h _ (List.getLast_mem hne)
    simp only [decide_eq_true_eq]
    omega
  unfold replaceInfo
  dsimp only
  rw [hdrop, htake]
  rcases List.eq_nil_or_concat' il with rfl | ⟨l, y, rfl⟩
  · rfl
  · have hy : y.spos ≤ info.spos := h y (by simp)
    have hl : ∀ i ∈ l, i.spos < y.spos := fun i hi =>
      (List.pairwise_append.1 hs).2.2 i hi y (List.mem_singleton_self y)
    have hkeep : l.filter (·.spos < info.spos) = l := List.filter_eq_self.2 fun i hi => by
      have := hl i hi
      simp only [decide_eq_true_eq]
      omega
    rw [List.getLast?_append, List.filter_append, hkeep, List.dropLast_concat]
    by_cases he : y.spos = info.spos
    · simp [he]
    · have hlt : y.spos < info.spos := by omega
      simp [he, hlt]

/-- In a sorted list the entries dropped before the durable segment are those before it. -/
theorem mem_dropWhile_spos (sposDurable : Nat) {il : List CSegmentInfo}
    (hs : il.Pairwise fun i j => i.spos < j.spos) {i : CSegmentInfo} :
    i ∈ il.dropWhile (·.spos < sposDurable) ↔ i ∈ il ∧ sposDurable ≤ i.spos := by
  induction il with
  | nil => simp
  | cons j il ih =>
    obtain ⟨hj, hs'⟩ := List.pairwise_cons.1 hs
    rw [List.dropWhile_cons]
    split_ifs with hc
    · rw [ih hs', List.mem_cons]
      simp only [decide_eq_true_eq] at hc
      refine ⟨fun h => ⟨.inr h.1, h.2⟩, ?_⟩
      rintro ⟨rfl | h, hd⟩
      · omega
      · exact ⟨h, hd⟩
    · simp only [decide_eq_true_eq] at hc
      refine ⟨fun h => ⟨h, ?_⟩, fun h => h.1⟩
      rcases List.mem_cons.1 h with rfl | h
      · omega
      · have := hj i h
        omega

/-! ## One call -/

theorem errFindUniqueIdPrev_self (h : pjsm.m_sposUniqueIdPrev = spos) :
    pjsm.errFindUniqueIdPrev io spos = (.ok (), pjsm) := by
  unfold errFindUniqueIdPrev
  rw [if_neg (not_not.2 h)]

/-- Finding the unique id of a segment on the ring fails only with the file, and else the manager
has noted it. -/
theorem errFindUniqueIdPrev_spec (io : SegmentIO) {ib : Nat}
    (h : pjsm.errGetSegmentOffset spos = .ok ib) :
    (∃ err, pjsm.errFindUniqueIdPrev io spos = (.error err, pjsm) ∧ err.External) ∨
      ∃ dw, pjsm.errFindUniqueIdPrev io spos
        = (.ok (), { pjsm with m_sposUniqueIdPrev := spos, m_dwUniqueIdPrev := dw }) := by
  by_cases hself : pjsm.m_sposUniqueIdPrev = spos
  · rw [errFindUniqueIdPrev_self hself, ← hself]
    exact .inr ⟨_, rfl⟩
  · unfold errFindUniqueIdPrev
    rw [if_pos hself, h]
    dsimp only
    cases io.errLoad ib with
    | error err => exact .inl ⟨_, rfl, .inl ⟨err, rfl⟩⟩
    | ok jsPrev => exact .inr ⟨_, rfl⟩

end TJournalSegmentManager

open TJournalSegmentManager

/-- The invariant of the ring. The append position is that of the last segment, or of the one before
it. Before the first segment is appended the manager knows no segment, and the first one is on the
file as it was sealed. -/
structure Ring.Inv (rng : Ring) : Prop where
  turns : cbJournalSegment ∣ rng.pjsm.m_cb
  size : 5 * cbJournalSegment ≤ rng.pjsm.m_cb
  onRing : LastOnRing rng.pjsm
  low : rng.pjsm.m_cb ≤ rng.pjsm.m_sposFirst
  first : rng.pjsm.m_sposFirst ≤ rng.pjsm.m_sposReplayMax
  replay : rng.pjsm.m_sposReplayMax ≤ rng.pjsm.m_sposDurableMax
  durable : rng.pjsm.m_sposDurableMax ≤ rng.pjsm.m_sposLast
  used : rng.pjsm.m_sposLast - rng.pjsm.m_sposFirst + cbJournalSegment ≤ rng.pjsm.m_cb
  dvdFirst : cbJournalSegment ∣ rng.pjsm.m_sposFirst
  dvdDurable : cbJournalSegment ∣ rng.pjsm.m_sposDurableMax
  dvdLast : cbJournalSegment ∣ rng.pjsm.m_sposLast
  append : rng.m_sposAppend = rng.pjsm.m_sposLast ∨
    rng.m_sposAppend + cbJournalSegment = rng.pjsm.m_sposLast ∧ Infos rng.pjsm
  uniqueIdPrev : rng.pjsm.m_sposUniqueIdPrev = rng.pjsm.m_sposLast ∨
    rng.pjsm.m_sposUniqueIdPrev = rng.m_sposAppend
  infos : Infos rng.pjsm ∨
    rng.pjsm.m_ilSegmentInfo = [] ∧ rng.pjsm.m_sposFirst = rng.pjsm.m_sposLast ∧
      rng.unsealed = [] ∧
      ∃ jsh, rng.file rng.pjsm.m_ibLast = some jsh ∧ jsh.sposReplay = rng.pjsm.m_sposLast

namespace Ring

variable {rng rng' : Ring} {io : SegmentIO} {sposReplay sposDurable : Nat}

/-- The manager of the ring with another list. -/
def withInfos (rng : Ring) (il : List CSegmentInfo) : Ring :=
  { rng with pjsm := { rng.pjsm with m_ilSegmentInfo := il } }

/-- The ring with what a call may note before it fails: more of its segments, and the unique id of
the append segment. -/
def learnt (rng : Ring) (il : List CSegmentInfo) (sposUniqueIdPrev dwUniqueIdPrev : Nat) : Ring :=
  { rng with pjsm := { rng.pjsm with
      m_ilSegmentInfo := il
      m_sposUniqueIdPrev := sposUniqueIdPrev
      m_dwUniqueIdPrev := dwUniqueIdPrev } }

theorem Inv.learnt (h : Inv rng) {il : List CSegmentInfo} {sposU dwU : Nat}
    (hu : sposU = rng.pjsm.m_sposUniqueIdPrev ∨ sposU = rng.m_sposAppend)
    (hi : Infos (rng.withInfos il).pjsm) : Inv (rng.learnt il sposU dwU) := by
  have hi' : Infos (rng.learnt il sposU dwU).pjsm :=
    ⟨hi.sorted, hi.mono, hi.spos, hi.replay, hi.all⟩
  refine ⟨h.turns, h.size, h.onRing, h.low, h.first, h.replay, h.durable, h.used, h.dvdFirst,
    h.dvdDurable, h.dvdLast, h.append.imp_right fun ha => ⟨ha.1, hi'⟩, ?_, .inl hi'⟩
  rcases hu with rfl | rfl
  · exact h.uniqueIdPrev
  · exact .inr rfl

/-- The append position is at most that of the last segment, and no segment lies between. -/
theorem Inv.append_le (h : Inv rng) : rng.m_sposAppend ≤ rng.pjsm.m_sposLast ∧
    rng.pjsm.m_sposLast ≤ rng.m_sposAppend + cbJournalSegment := by
  rcases h.append with ha | ⟨ha, _⟩ <;> omega

theorem Inv.dvdAppend (h : Inv rng) : cbJournalSegment ∣ rng.m_sposAppend := by
  rcases h.append with ha | ⟨ha, _⟩
  · rw [ha]
    exact h.dvdLast
  · have := h.dvdLast
    rw [← ha] at this
    exact (Nat.dvd_add_left (Nat.dvd_refl _)).1 this

/-- The free bytes, counted in an exact subtraction. -/
theorem Inv.cbAvailable (h : Inv rng) :
    rng.pjsm.cbAvailable + (rng.pjsm.m_sposLast - rng.pjsm.m_sposFirst + cbJournalSegment)
      = rng.pjsm.m_cb := by
  have := h.used
  unfold TJournalSegmentManager.cbAvailable
  dsimp only
  rw [if_pos this]
  omega

/-- Where a place is free a whole segment is. -/
theorem Inv.free_gap (h : Inv rng) (hfree : rng.pjsm.cbAvailable ≠ 0) :
    cbJournalSegment ≤ rng.pjsm.cbAvailable := by
  have hsum := h.cbAvailable
  have hturns := h.turns
  have hfirst := h.dvdFirst
  have hlast := h.dvdLast
  unfold cbJournalSegment at *
  omega

/-- Finding the durable segment: it is known, or it is the first segment of all and is loaded. -/
theorem Inv.errFindDurable (h : Inv rng)
    (hload : ∀ ib jsh, io.errLoad ib = .ok jsh → rng.file ib = some jsh)
    (hdvd : cbJournalSegment ∣ sposDurable) (hlo : rng.pjsm.m_sposDurableMax ≤ sposDurable)
    (hhi : sposDurable < rng.pjsm.m_sposLast + cbJournalSegment) :
    (∃ err, rng.pjsm.errFindDurable io sposDurable = (.error err, rng.pjsm) ∧
        rng.pjsm.m_ilSegmentInfo = [] ∧ err.External) ∨
      ∃ info il, rng.pjsm.errFindDurable io sposDurable = (.ok info, (rng.withInfos il).pjsm) ∧
        Infos (rng.withInfos il).pjsm ∧ info ∈ il ∧ info.spos = sposDurable ∧
        (rng.pjsm.m_ilSegmentInfo = [] ∨ il = rng.pjsm.m_ilSegmentInfo) := by
  have hdL : sposDurable ≤ rng.pjsm.m_sposLast := by
    have := h.dvdLast
    unfold cbJournalSegment at *
    omega
  unfold TJournalSegmentManager.errFindDurable
  rcases h.infos with hi | ⟨hnil, hFL, _, jsh, hfile, hjsh⟩
  · -- the list has it
    right
    obtain ⟨i, hmem, hspos⟩ := hi.all sposDurable hdvd hlo hdL
    obtain ⟨info, hinfo⟩ : ∃ info, rng.pjsm.m_ilSegmentInfo.find? (·.spos = sposDurable)
        = some info := by
      rw [← Option.isSome_iff_exists, List.find?_isSome]
      exact ⟨i, hmem, by simpa using hspos⟩
    refine ⟨info, rng.pjsm.m_ilSegmentInfo, ?_, hi, List.mem_of_find?_eq_some hinfo, ?_, .inr rfl⟩
    · rw [hinfo]
      rfl
    · simpa using List.find?_some hinfo
  · -- nothing was appended yet, and the durable segment is the first one
    have hF := h.first
    have hR := h.replay
    have hsz := h.size
    have hd : sposDurable = rng.pjsm.m_sposLast := by omega
    have hoff : rng.pjsm.errGetSegmentOffset sposDurable = .ok rng.pjsm.m_ibLast := by
      obtain ⟨ib, he, h₁, h₂, hib⟩ := errGetSegmentOffset_spec h.onRing sposDurable
        (by unfold cbJournalSegment at *; omega) (by unfold cbJournalSegment at *; omega)
      have hL := h.onRing
      unfold LastOnRing at hL
      rw [he]
      congr 1
      omega
    rw [hnil, List.find?_nil, hoff]
    dsimp only
    cases hl : io.errLoad rng.pjsm.m_ibLast with
    | error err => exact .inl ⟨_, rfl, rfl, .inl ⟨err, rfl⟩⟩
    | ok jsDurable =>
      have hjs : jsDurable = jsh := by
        have := hload _ _ hl
        rw [hfile] at this
        exact (Option.some.inj this).symm
      dsimp only
      split_ifs with hA
      · refine .inr ⟨_, _, rfl, ?_, by rw [insertInfo_nil]; exact List.mem_singleton_self _, rfl,
          .inl rfl⟩
        rw [insertInfo_nil]
        refine ⟨List.pairwise_singleton _ _, List.pairwise_singleton _ _, ?_, ?_, ?_⟩
        · intro i hi
          obtain rfl := List.mem_singleton.1 hi
          exact ⟨hlo, hdL⟩
        · intro i hi
          obtain rfl := List.mem_singleton.1 hi
          show rng.pjsm.m_sposFirst ≤ jsDurable.sposReplay ∧
            jsDurable.sposReplay ≤ rng.pjsm.m_sposReplayMax ∧ _
          rw [hjs, hjsh]
          have := h.durable
          exact ⟨by omega, by omega, h.dvdLast⟩
        · intro p _ hp₁ hp₂
          refine ⟨_, List.mem_singleton_self _, ?_⟩
          show sposDurable = p
          have : rng.pjsm.m_sposDurableMax ≤ p := hp₁
          have : p ≤ rng.pjsm.m_sposLast := hp₂
          omega
      · exact .inl ⟨_, rfl, rfl, .inr rfl⟩

/-- A call that creates a segment: a place is free, the positions are recorded ones, and they have
advanced where the free places ask for it. -/
structure Accepted (rng : Ring) (sposReplay sposDurable : Nat) (info : CSegmentInfo)
    (il : List CSegmentInfo) : Prop where
  infos : Infos (rng.withInfos il).pjsm
  mem : info ∈ il
  spos : info.spos = sposDurable
  free : rng.pjsm.cbAvailable ≠ 0
  replay : rng.pjsm.m_sposReplayMax ≤ sposReplay
  durable : rng.pjsm.m_sposDurableMax ≤ sposDurable
  replay_le : sposReplay ≤ sposDurable
  durable_le : sposDurable ≤ rng.m_sposAppend
  advance : rng.pjsm.cbAvailable ≤ cbJournalFull → rng.pjsm.m_sposDurableMax < sposDurable
  known : rng.pjsm.m_ilSegmentInfo = [] ∨ il = rng.pjsm.m_ilSegmentInfo

/-- **What one call does.** It fails and changes at most what the manager knows, or it creates a
segment behind the append position. It never finds the recorded replay position before the first
one, and finds the journal unrecoverable only when no place is free. -/
theorem Inv.errAppendSegment (h : Inv rng) (sposReplay : Nat)
    (hload : ∀ ib jsh, io.errLoad ib = .ok jsh → rng.file ib = some jsh)
    (hdvd : cbJournalSegment ∣ sposDurable) :
    (∃ err pjsm, rng.pjsm.errAppendSegment io (rng.m_sposAppend + cbJournalSegment) sposReplay
        sposDurable = (.error err, pjsm) ∧
      (pjsm = rng.pjsm ∨ ∃ il sposU dwU, pjsm = (rng.learnt il sposU dwU).pjsm ∧
        (sposU = rng.pjsm.m_sposUniqueIdPrev ∨ sposU = rng.m_sposAppend) ∧
        Infos (rng.withInfos il).pjsm) ∧
      err ≠ .blockCacheInternalError .JournalReplayPointerLTFirst ∧
      (err = .blockCacheInternalError .JournalFullUnrecoverable → rng.pjsm.cbAvailable = 0) ∧
      (err = .JET_errDiskFull → rng.pjsm.m_sposDurableMax ≤ sposDurable ∧
        rng.pjsm.m_sposReplayMax ≤ sposReplay)) ∨
    ∃ info il ib dwUniqueId dwUniqueIdPrev, Accepted rng sposReplay sposDurable info il ∧
      rng.pjsm.errGetSegmentOffset (rng.m_sposAppend + cbJournalSegment) = .ok ib ∧
      rng.pjsm.errAppendSegment io (rng.m_sposAppend + cbJournalSegment) sposReplay sposDurable
        = (.ok (ib, ⟨rng.m_sposAppend + cbJournalSegment, dwUniqueId, dwUniqueIdPrev, sposReplay,
            sposDurable⟩),
          (rng.withInfos il).pjsm.appended ib (rng.m_sposAppend + cbJournalSegment) sposReplay
            sposDurable dwUniqueId info) := by
  have hsz := h.size
  obtain ⟨hAL, hLA⟩ := h.append_le
  unfold TJournalSegmentManager.errAppendSegment
  by_cases hrej : rng.pjsm.fReject (rng.m_sposAppend + cbJournalSegment) sposReplay sposDurable
      = true
  · rw [if_pos hrej]
    exact .inl ⟨_, _, rfl, .inl rfl, by simp, by simp, by simp⟩
  rw [if_neg hrej]
  simp only [fReject, decide_eq_true_eq, not_or, not_lt, not_le, ge_iff_le, gt_iff_lt] at hrej
  obtain ⟨_, _, _, _, _, hd₁, hd₂, _, hr₁, hr₂⟩ := hrej
  obtain ⟨ib, hoff, _⟩ := errGetSegmentOffset_spec h.onRing
    (rng.m_sposAppend + cbJournalSegment) (by unfold cbJournalSegment at *; omega)
    (by unfold cbJournalSegment at *; omega)
  have hdA : sposDurable ≤ rng.m_sposAppend := by
    have := h.dvdAppend
    unfold cbJournalSegment at *
    omega
  rw [hoff]
  dsimp only
  obtain ⟨err, hfind, _, hext⟩ | ⟨info, il, hfind, hi, hmem, hspos, hknown⟩ :=
    h.errFindDurable hload hdvd hd₁ (by omega)
  · -- the durable segment could not be loaded
    rw [hfind]
    refine .inl ⟨err, _, rfl, .inl rfl, ?_, ?_, fun _ => ⟨hd₁, hr₁⟩⟩
    · rcases hext with ⟨e, rfl⟩ | rfl <;> simp
    · rcases hext with ⟨e, rfl⟩ | rfl <;> simp
  rw [hfind]
  dsimp only
  have hav : (rng.withInfos il).pjsm.cbAvailable = rng.pjsm.cbAvailable := rfl
  have hsum := h.cbAvailable
  cases hsp : (rng.withInfos il).pjsm.errCheckSpace sposReplay sposDurable with
  | some err =>
    refine .inl ⟨err, _, rfl, .inr ⟨il, _, _, rfl, .inl rfl, hi⟩, ?_, ?_, fun _ => ⟨hd₁, hr₁⟩⟩
    · rintro rfl
      unfold errCheckSpace at hsp
      split_ifs at hsp <;> simp at hsp
    · rintro rfl
      unfold errCheckSpace at hsp
      split_ifs at hsp with _ _ hzero
      · simp at hsp
      · simp at hsp
      · rw [hav] at hzero
        have hcb : (rng.withInfos il).pjsm.m_cb = rng.pjsm.m_cb := rfl
        omega
  | none =>
    have hfree : rng.pjsm.cbAvailable ≠ 0 ∧
        (rng.pjsm.cbAvailable ≤ cbJournalFull → rng.pjsm.m_sposDurableMax < sposDurable) := by
      unfold errCheckSpace at hsp
      split_ifs at hsp with hfull _ hzero
      rw [hav] at hzero hfull
      have hD : (rng.withInfos il).pjsm.m_sposDurableMax = rng.pjsm.m_sposDurableMax := rfl
      exact ⟨by omega, fun hc => by omega⟩
    obtain ⟨ibPrev, hoffPrev, _⟩ := errGetSegmentOffset_spec h.onRing rng.m_sposAppend
      (by unfold cbJournalSegment at *; omega) (by unfold cbJournalSegment at *; omega)
    replace hoffPrev : (rng.withInfos il).pjsm.errGetSegmentOffset rng.m_sposAppend = .ok ibPrev :=
      hoffPrev
    dsimp only
    rw [Nat.add_sub_cancel]
    obtain ⟨err, hprev, hext⟩ | ⟨dw, hprev⟩ := errFindUniqueIdPrev_spec io hoffPrev
    · -- nor could the append segment
      rw [hprev]
      refine .inl ⟨err, _, rfl, .inr ⟨il, _, _, rfl, .inl rfl, hi⟩, ?_, ?_, fun _ => ⟨hd₁, hr₁⟩⟩
      · rcases hext with ⟨e, rfl⟩ | rfl <;> simp
      · rcases hext with ⟨e, rfl⟩ | rfl <;> simp
    rw [hprev]
    dsimp only
    have hfirst : ¬ rng.pjsm.m_sposFirst > info.sposReplay := by
      have : rng.pjsm.m_sposFirst ≤ info.sposReplay := (hi.replay info hmem).1
      omega
    cases io.errCreate with
    | error err =>
      exact .inl ⟨_, _, rfl, .inr ⟨il, _, dw, rfl, .inr rfl, hi⟩, by simp, by simp, by simp⟩
    | ok dwUniqueId =>
      dsimp only
      cases io.fAllocAppend with
      | false =>
        exact .inl ⟨_, _, rfl, .inr ⟨il, _, dw, rfl, .inr rfl, hi⟩, by simp, by simp, by simp⟩
      | true =>
        rw [if_neg (by decide)]
        show _ ∨ _
        refine .inr ⟨info, il, ib, dwUniqueId, dw, ⟨hi, hmem, hspos, hfree.1, hr₁, hd₁, hr₂, hdA,
          hfree.2, hknown⟩, rfl, ?_⟩
        exact if_neg hfirst

/-- What the manager knows after it has appended a segment. -/
theorem Accepted.infos_appended {info : CSegmentInfo} {il : List CSegmentInfo}
    (h : Accepted rng sposReplay sposDurable info il) (hI : Inv rng)
    (hreplay : cbJournalSegment ∣ sposReplay) (ib dwUniqueId : Nat) :
    Infos ((rng.withInfos il).pjsm.appended ib (rng.m_sposAppend + cbJournalSegment) sposReplay
      sposDurable dwUniqueId info) := by
  have hi := h.infos
  have hspos := h.spos
  have hdA := h.durable_le
  obtain ⟨hAL, hLA⟩ := hI.append_le
  have hseg : 0 < cbJournalSegment := by decide
  set x : CSegmentInfo := ⟨sposReplay, sposDurable, rng.m_sposAppend + cbJournalSegment⟩ with hx
  have hle : ∀ i ∈ il, i.spos ≤ x.spos := fun i hm => (hi.spos i hm).2.trans hLA
  have hdrop := List.dropWhile_sublist (l := il) (·.spos < sposDurable)
  -- the entries kept are those from the durable segment on that are not at the new position
  set kept := (il.dropWhile (·.spos < sposDurable)).filter (·.spos < x.spos) with hkept
  have hmem : ∀ i, i ∈ kept ↔ (i ∈ il ∧ sposDurable ≤ i.spos) ∧ i.spos < x.spos := fun i => by
    have hd := mem_dropWhile_spos sposDurable hi.sorted (i := i)
    rw [hkept, List.mem_filter, decide_eq_true_eq]
    exact and_congr_left fun _ => hd
  have hsub : kept.Sublist il := List.filter_sublist.trans hdrop
  have hl : ((rng.withInfos il).pjsm.appended ib (rng.m_sposAppend + cbJournalSegment)
      sposReplay sposDurable dwUniqueId info).m_ilSegmentInfo = kept ++ [x] :=
    replaceInfo_eq (hi.sorted.sublist hdrop) fun i hm => hle i (hdrop.subset hm)
  -- they recorded a replay position from that of the durable segment on
  have hge : ∀ i ∈ il, sposDurable ≤ i.spos → info.sposReplay ≤ i.sposReplay := fun i hm hd => by
    by_cases he : i = info
    · rw [he]
    · have hss : il.Pairwise fun i j => i.spos < j.spos ∧ i.sposReplay ≤ j.sposReplay :=
        hi.sorted.and hi.mono
      rw [List.pairwise_iff_getElem] at hss
      obtain ⟨a, ha, rfl⟩ := List.getElem_of_mem hm
      obtain ⟨b, hb, rfl⟩ := List.getElem_of_mem h.mem
      rcases Nat.lt_trichotomy a b with hab | hab | hab
      · have := (hss a b ha hb hab).1
        omega
      · subst hab
        exact le_rfl
      · exact (hss b a hb ha hab).2
  have hxs : x.spos = rng.m_sposAppend + cbJournalSegment := rfl
  refine ⟨?_, ?_, ?_, ?_, ?_⟩
  · rw [hl, List.pairwise_append]
    refine ⟨hi.sorted.sublist hsub, List.pairwise_singleton _ _, fun i hm j hj => ?_⟩
    obtain rfl := List.mem_singleton.1 hj
    exact ((hmem i).1 hm).2
  · rw [hl, List.pairwise_append]
    refine ⟨hi.mono.sublist hsub, List.pairwise_singleton _ _, fun i hm j hj => ?_⟩
    obtain rfl := List.mem_singleton.1 hj
    have := (hi.replay i (hsub.subset hm)).2.1
    exact this.trans h.replay
  · rw [hl]
    intro i hm
    show max rng.pjsm.m_sposDurableMax sposDurable ≤ i.spos ∧
      i.spos ≤ max rng.pjsm.m_sposLast (rng.m_sposAppend + cbJournalSegment)
    have hd := h.durable
    rcases List.mem_append.1 hm with hm | hm
    · obtain ⟨⟨_, _⟩, _⟩ := (hmem i).1 hm
      omega
    · obtain rfl := List.mem_singleton.1 hm
      omega
  · rw [hl]
    intro i hm
    show info.sposReplay ≤ i.sposReplay ∧
      i.sposReplay ≤ max rng.pjsm.m_sposReplayMax sposReplay ∧ cbJournalSegment ∣ i.sposReplay
    have hR : info.sposReplay ≤ rng.pjsm.m_sposReplayMax := (hi.replay info h.mem).2.1
    have hr := h.replay
    rcases List.mem_append.1 hm with hm | hm
    · obtain ⟨⟨hm, hd⟩, _⟩ := (hmem i).1 hm
      obtain ⟨_, h₂, h₃⟩ := hi.replay i hm
      replace h₂ : i.sposReplay ≤ rng.pjsm.m_sposReplayMax := h₂
      exact ⟨hge i hm hd, by omega, h₃⟩
    · obtain rfl := List.mem_singleton.1 hm
      refine ⟨?_, ?_, hreplay⟩
      · show info.sposReplay ≤ sposReplay
        omega
      · show sposReplay ≤ _
        omega
  · rw [hl]
    intro p hdvd hp₁ hp₂
    replace hp₁ : max rng.pjsm.m_sposDurableMax sposDurable ≤ p := hp₁
    replace hp₂ : p ≤ max rng.pjsm.m_sposLast (rng.m_sposAppend + cbJournalSegment) := hp₂
    by_cases hpA : p ≤ rng.m_sposAppend
    · obtain ⟨i, hm, rfl⟩ := hi.all p hdvd
        (show rng.pjsm.m_sposDurableMax ≤ p by omega) (hpA.trans hAL)
      exact ⟨i, List.mem_append_left _ ((hmem i).2 ⟨⟨hm, by omega⟩, by omega⟩), rfl⟩
    · refine ⟨x, by simp, ?_⟩
      have hA := hI.dvdAppend
      rw [hxs]
      unfold cbJournalSegment at *
      omega

/-- **Appending keeps the invariant**, whether or not the journal keeps the segment: there was a
free place, and the first position moves to the replay position that the durable segment recorded,
which is not past the caller's. -/
theorem Accepted.inv {info : CSegmentInfo} {il : List CSegmentInfo}
    (h : Accepted rng sposReplay sposDurable info il) (hI : Inv rng)
    (hreplay : cbJournalSegment ∣ sposReplay) (hdvd : cbJournalSegment ∣ sposDurable) {ib : Nat}
    (hoff : rng.pjsm.errGetSegmentOffset (rng.m_sposAppend + cbJournalSegment) = .ok ib)
    (dwUniqueId : Nat) (file : Nat → Option CJournalSegmentHeader)
    (unsealed : List (Nat × CJournalSegmentHeader)) {sposAppend : Nat}
    (hA : sposAppend = rng.m_sposAppend + cbJournalSegment ∨ sposAppend = rng.m_sposAppend) :
    Inv ⟨(rng.withInfos il).pjsm.appended ib (rng.m_sposAppend + cbJournalSegment) sposReplay
      sposDurable dwUniqueId info, sposAppend, file, unsealed⟩ := by
  have hinfos := h.infos_appended hI hreplay ib dwUniqueId
  obtain ⟨hF, hR, hdvdF⟩ := h.infos.replay info h.mem
  replace hF : rng.pjsm.m_sposFirst ≤ info.sposReplay := hF
  replace hR : info.sposReplay ≤ rng.pjsm.m_sposReplayMax := hR
  obtain ⟨hAL, hLA⟩ := hI.append_le
  have hsz := hI.size
  have hlow := hI.low
  have hused := hI.used
  have hDL := hI.durable
  have hRD := hI.replay
  have hdL := hI.dvdLast
  have hr := h.replay
  have hd := h.durable
  have hrd := h.replay_le
  have hle := h.durable_le
  have hmaxL : max rng.pjsm.m_sposLast (rng.m_sposAppend + cbJournalSegment)
      = rng.m_sposAppend + cbJournalSegment := max_eq_right hLA
  refine ⟨hI.turns, hsz, ?_, ?_, ?_, ?_, ?_, ?_, hdvdF, ?_, ?_, ?_, ?_, .inl hinfos⟩
  · obtain ⟨ib', he, h₁, h₂, _⟩ := errGetSegmentOffset_spec hI.onRing
      (rng.m_sposAppend + cbJournalSegment) (by unfold cbJournalSegment at *; omega)
      (by unfold cbJournalSegment at *; omega)
    rw [hoff] at he
    obtain rfl := Except.ok.inj he
    show rng.pjsm.m_ib ≤ (if _ > _ then ib else rng.pjsm.m_ibLast) ∧
      (if _ > _ then ib else rng.pjsm.m_ibLast) < rng.pjsm.m_ib + rng.pjsm.m_cb
    split_ifs
    · exact ⟨h₁, h₂⟩
    · exact hI.onRing
  · show rng.pjsm.m_cb ≤ info.sposReplay
    omega
  · show info.sposReplay ≤ max rng.pjsm.m_sposReplayMax sposReplay
    omega
  · show max rng.pjsm.m_sposReplayMax sposReplay ≤ max rng.pjsm.m_sposDurableMax sposDurable
    omega
  · show max rng.pjsm.m_sposDurableMax sposDurable
      ≤ max rng.pjsm.m_sposLast (rng.m_sposAppend + cbJournalSegment)
    omega
  · show max rng.pjsm.m_sposLast (rng.m_sposAppend + cbJournalSegment) - info.sposReplay
      + cbJournalSegment ≤ rng.pjsm.m_cb
    -- a free place is a whole segment
    have hgap := hI.free_gap h.free
    have hsum := hI.cbAvailable
    omega
  · show cbJournalSegment ∣ max rng.pjsm.m_sposDurableMax sposDurable
    rw [max_eq_right hd]
    exact hdvd
  · show cbJournalSegment ∣ max rng.pjsm.m_sposLast (rng.m_sposAppend + cbJournalSegment)
    rw [hmaxL]
    exact Nat.dvd_add hI.dvdAppend (Nat.dvd_refl _)
  · show sposAppend = max rng.pjsm.m_sposLast (rng.m_sposAppend + cbJournalSegment) ∨
      sposAppend + cbJournalSegment
        = max rng.pjsm.m_sposLast (rng.m_sposAppend + cbJournalSegment) ∧ _
    rw [hmaxL]
    exact hA.imp_right fun ha => ⟨by rw [ha], hinfos⟩
  · exact .inl hmaxL.symm

/-- What one step of the journal does: it leaves what it could not append, or an accepted segment,
which the append position follows where the journal keeps it. -/
theorem Inv.errGetAppendSegment (h : Inv rng) (sposReplay : Nat) (fAllocSegment : Bool)
    (hload : ∀ ib jsh, io.errLoad ib = .ok jsh → rng.file ib = some jsh)
    (hdvd : cbJournalSegment ∣ sposDurable) :
    (∃ pjsm, rng.errGetAppendSegment io fAllocSegment sposReplay sposDurable = { rng with pjsm } ∧
      (pjsm = rng.pjsm ∨ ∃ il sposU dwU, pjsm = (rng.learnt il sposU dwU).pjsm ∧
        (sposU = rng.pjsm.m_sposUniqueIdPrev ∨ sposU = rng.m_sposAppend) ∧
        Infos (rng.withInfos il).pjsm)) ∨
    ∃ info il ib dwUniqueId unsealed, Accepted rng sposReplay sposDurable info il ∧
      rng.pjsm.errGetSegmentOffset (rng.m_sposAppend + cbJournalSegment) = .ok ib ∧
      rng.errGetAppendSegment io fAllocSegment sposReplay sposDurable
        = ⟨(rng.withInfos il).pjsm.appended ib (rng.m_sposAppend + cbJournalSegment) sposReplay
            sposDurable dwUniqueId info,
          if fAllocSegment then rng.m_sposAppend + cbJournalSegment else rng.m_sposAppend,
          rng.file, unsealed⟩ := by
  unfold Ring.errGetAppendSegment
  dsimp only
  obtain ⟨err, pjsm, he, hp, _⟩ | ⟨info, il, ib, dw, _, hacc, hoff, he⟩ :=
    h.errAppendSegment sposReplay hload hdvd
  · rw [he]
    exact .inl ⟨pjsm, rfl, hp⟩
  · rw [he]
    cases fAllocSegment
    · exact .inr ⟨info, il, ib, dw, rng.unsealed, hacc, hoff, rfl⟩
    · exact .inr ⟨info, il, ib, dw, _, hacc, hoff, rfl⟩

/-- **Every step keeps the invariant.** -/
theorem Inv.step (h : Inv rng) {a : RingOp} (hs : Step a rng rng') : Inv rng' := by
  cases hs with
  | append fAllocSegment hload hreplay hdvd =>
    obtain ⟨pjsm, he, hp⟩ | ⟨info, il, ib, dw, unsealed, hacc, hoff, he⟩ :=
      h.errGetAppendSegment _ fAllocSegment hload hdvd
    · rw [he]
      rcases hp with rfl | ⟨il, sposU, dwU, rfl, hu, hi⟩
      · exact h
      · exact h.learnt hu hi
    · rw [he]
      refine hacc.inv h hreplay hdvd hoff dw _ _ ?_
      cases fAllocSegment
      · exact .inr rfl
      · exact .inl rfl
  | @sealed _ ib jsh fSuccess hmem =>
    refine ⟨h.turns, h.size, h.onRing, h.low, h.first, h.replay, h.durable, h.used, h.dvdFirst,
      h.dvdDurable, h.dvdLast, h.append, h.uniqueIdPrev, ?_⟩
    rcases h.infos with hi | ⟨_, _, hun, _⟩
    · exact .inl hi
    · rw [hun] at hmem
      cases hmem

theorem inv_empty (ib dwUniqueId : Nat) (file : Nat → Option CJournalSegmentHeader) {cb : Nat}
    (hturn : cbJournalSegment ∣ cb) (hsize : 5 * cbJournalSegment ≤ cb) :
    Inv (Ring.empty ib cb dwUniqueId file) := by
  have hseg : 0 < cbJournalSegment := by decide
  refine ⟨hturn, hsize, ⟨le_rfl, ?_⟩, le_rfl, le_rfl, le_rfl, le_rfl, ?_, hturn, hturn, hturn,
    .inl rfl, .inl rfl, .inr ⟨rfl, rfl, rfl, _, Function.update_self .., rfl⟩⟩
  · show ib < ib + cb
    omega
  · show cb - cb + cbJournalSegment ≤ cb
    omega

/-! ## What holds in every state -/

/-- The ring is sound: its positions are in order and fit in it, each visible position has a place
of its own, a segment is created in the place of no visible one but its own, and the replay position
that a call finds recorded is never before the first position. -/
structure Sound (rng : Ring) : Prop where
  order : rng.pjsm.m_sposFirst ≤ rng.pjsm.m_sposReplayMax ∧
    rng.pjsm.m_sposReplayMax ≤ rng.pjsm.m_sposDurableMax ∧
    rng.pjsm.m_sposDurableMax ≤ rng.pjsm.m_sposLast
  used : rng.pjsm.m_sposLast - rng.pjsm.m_sposFirst + cbJournalSegment ≤ rng.pjsm.m_cb
  inRange : ∀ p, rng.pjsm.m_sposFirst ≤ p → p ≤ rng.pjsm.m_sposLast →
    ∃ ib, rng.pjsm.errGetSegmentOffset p = .ok ib ∧ rng.pjsm.m_ib ≤ ib ∧
      ib < rng.pjsm.m_ib + rng.pjsm.m_cb
  injective : ∀ p q ib, rng.pjsm.m_sposFirst ≤ p → p < q → q ≤ rng.pjsm.m_sposLast →
    rng.pjsm.errGetSegmentOffset p = .ok ib → rng.pjsm.errGetSegmentOffset q ≠ .ok ib
  createdAt : ∀ io sposReplay sposDurable, cbJournalSegment ∣ sposDurable →
    (∀ ib jsh, io.errLoad ib = .ok jsh → rng.file ib = some jsh) → ∀ ib jsh pjsm,
    rng.pjsm.errAppendSegment io (rng.m_sposAppend + cbJournalSegment) sposReplay sposDurable
      = (.ok (ib, jsh), pjsm) →
    ∀ p, rng.pjsm.m_sposFirst ≤ p → p ≤ rng.pjsm.m_sposLast → p ≠ jsh.spos →
      rng.pjsm.errGetSegmentOffset p ≠ .ok ib
  replayGEFirst : ∀ io sposReplay sposDurable, cbJournalSegment ∣ sposDurable →
    (∀ ib jsh, io.errLoad ib = .ok jsh → rng.file ib = some jsh) →
    (rng.pjsm.errAppendSegment io (rng.m_sposAppend + cbJournalSegment) sposReplay
      sposDurable).1 ≠ .error (.blockCacheInternalError .JournalReplayPointerLTFirst)

/-- No segment is created in the place of a visible one. -/
def Created (rng : Ring) : Prop :=
  ∀ io sposReplay sposDurable, cbJournalSegment ∣ sposDurable →
    (∀ ib jsh, io.errLoad ib = .ok jsh → rng.file ib = some jsh) → ∀ ib jsh pjsm,
    rng.pjsm.errAppendSegment io (rng.m_sposAppend + cbJournalSegment) sposReplay sposDurable
      = (.ok (ib, jsh), pjsm) →
    ∀ p, rng.pjsm.m_sposFirst ≤ p → p ≤ rng.pjsm.m_sposLast →
      rng.pjsm.errGetSegmentOffset p ≠ .ok ib

/-- The journal can be recovered from full: no call finds it unrecoverable, and a call refused for
want of space succeeds with larger positions that are recorded, unless the file or an allocation
fails it. -/
structure Recoverable (rng : Ring) : Prop where
  notUnrecoverable : ∀ io sposReplay sposDurable, cbJournalSegment ∣ sposDurable →
    (∀ ib jsh, io.errLoad ib = .ok jsh → rng.file ib = some jsh) →
    (rng.pjsm.errAppendSegment io (rng.m_sposAppend + cbJournalSegment) sposReplay
      sposDurable).1 ≠ .error (.blockCacheInternalError .JournalFullUnrecoverable)
  retry : ∀ io sposReplay sposDurable, cbJournalSegment ∣ sposDurable →
    (∀ ib jsh, io.errLoad ib = .ok jsh → rng.file ib = some jsh) → ∀ pjsm,
    rng.pjsm.errAppendSegment io (rng.m_sposAppend + cbJournalSegment) sposReplay sposDurable
      = (.error .JET_errDiskFull, pjsm) →
    ∀ io' sposReplay' sposDurable' dwUniqueId, cbJournalSegment ∣ sposDurable' →
    (∀ ib jsh, io'.errLoad ib = .ok jsh → rng.file ib = some jsh) →
    sposReplay < sposReplay' → sposDurable < sposDurable' → sposReplay' ≤ sposDurable' →
    sposDurable' ≤ rng.pjsm.m_sposLast → cbJournalSegment ∣ sposReplay' →
    io'.errCreate = .ok dwUniqueId → io'.fAllocAppend = true →
    ∃ x, (pjsm.errAppendSegment io' (rng.m_sposAppend + cbJournalSegment) sposReplay'
      sposDurable').1 = .ok x

theorem Inv.sound (h : Inv rng) : Sound rng where
  order := ⟨h.first, h.replay, h.durable⟩
  used := h.used
  inRange p hp₁ hp₂ := by
    have := h.used
    have hsz := h.size
    obtain ⟨ib, he, h₁, h₂, _⟩ := errGetSegmentOffset_spec h.onRing p
      (by unfold cbJournalSegment at *; omega) (by unfold cbJournalSegment at *; omega)
    exact ⟨ib, he, h₁, h₂⟩
  injective p q ib hp hpq hq he := by
    have := h.used
    have hsz := h.size
    unfold cbJournalSegment at *
    exact errGetSegmentOffset_inj h.onRing hpq (by omega) (by omega) (by omega) he
  createdAt io sposReplay sposDurable hdvd hload ib jsh pjsm hres p hp₁ hp₂ hne he := by
    obtain ⟨err, _, herr, _⟩ | ⟨info, il, ib', _, _, hacc, hoff, hok⟩ :=
      h.errAppendSegment sposReplay hload hdvd
    · rw [herr] at hres
      cases congrArg Prod.fst hres
    · rw [hok] at hres
      have hjs := Except.ok.inj (congrArg Prod.fst hres)
      have hib : ib' = ib := congrArg Prod.fst hjs
      have hspos : rng.m_sposAppend + cbJournalSegment = jsh.spos :=
        congrArg (CJournalSegmentHeader.spos ∘ Prod.snd) hjs
      subst hib
      -- the free place lies between the last position and the turn of the first
      have hsum := h.cbAvailable
      have hgap := h.free_gap hacc.free
      have hsz := h.size
      have hA := h.append_le
      exact errGetSegmentOffset_inj h.onRing
        (show p < rng.m_sposAppend + cbJournalSegment by omega)
        (by unfold cbJournalSegment at *; omega) (by unfold cbJournalSegment at *; omega)
        (by unfold cbJournalSegment at *; omega) he hoff
  replayGEFirst io sposReplay sposDurable hdvd hload := by
    obtain ⟨err, _, herr, _, hne, _⟩ | ⟨_, _, _, _, _, _, _, hok⟩ :=
      h.errAppendSegment sposReplay hload hdvd
    · rw [herr]
      exact fun he => hne (Except.error.inj he)
    · rw [hok]
      exact fun he => nomatch he

/-- Behind the last segment no place is that of a visible one. -/
theorem Sound.created (h : Sound rng) (hI : Inv rng)
    (hA : rng.m_sposAppend = rng.pjsm.m_sposLast) : Created rng := by
  intro io sposReplay sposDurable hdvd hload ib jsh pjsm hres p hp₁ hp₂
  refine h.createdAt io sposReplay sposDurable hdvd hload ib jsh pjsm hres p hp₁ hp₂ ?_
  obtain ⟨_, _, herr, _⟩ | ⟨_, _, _, _, _, _, _, hok⟩ := hI.errAppendSegment sposReplay hload hdvd
  · rw [herr] at hres
    cases congrArg Prod.fst hres
  · rw [hok] at hres
    have hspos : rng.m_sposAppend + cbJournalSegment = jsh.spos :=
      congrArg (CJournalSegmentHeader.spos ∘ Prod.snd) (Except.ok.inj (congrArg Prod.fst hres))
    unfold cbJournalSegment at *
    omega

/-- A call with larger recorded positions creates its segment where a place is free. -/
theorem Inv.errAppendSegment_ok (h : Inv rng) (hA : rng.m_sposAppend = rng.pjsm.m_sposLast)
    (hfree : rng.pjsm.cbAvailable ≠ 0)
    (hload : ∀ ib jsh, io.errLoad ib = .ok jsh → rng.file ib = some jsh)
    (hdvd : cbJournalSegment ∣ sposDurable) (hdvdR : cbJournalSegment ∣ sposReplay)
    (hr : rng.pjsm.m_sposReplayMax < sposReplay) (hd : rng.pjsm.m_sposDurableMax < sposDurable)
    (hrd : sposReplay ≤ sposDurable) (hdL : sposDurable ≤ rng.pjsm.m_sposLast) {dwUniqueId : Nat}
    (hcreate : io.errCreate = .ok dwUniqueId) (halloc : io.fAllocAppend = true) :
    ∃ x, (rng.pjsm.errAppendSegment io (rng.m_sposAppend + cbJournalSegment) sposReplay
      sposDurable).1 = .ok x := by
  have hsz := h.size
  have hseg : 0 < cbJournalSegment := by decide
  have hF := h.first
  have hR := h.replay
  have hlow := h.low
  have hdvdL := h.dvdLast
  have hsum := h.cbAvailable
  obtain ⟨ib, hoff, _⟩ := errGetSegmentOffset_spec h.onRing
    (rng.m_sposAppend + cbJournalSegment) (by unfold cbJournalSegment at *; omega)
    (by unfold cbJournalSegment at *; omega)
  have hrej : ¬ rng.pjsm.fReject (rng.m_sposAppend + cbJournalSegment) sposReplay sposDurable
      = true := by
    simp only [fReject, decide_eq_true_eq, not_or, not_lt, not_le, ge_iff_le, gt_iff_lt]
    unfold sposInvalid cbJournalSegment at *
    omega
  obtain ⟨_, _, hnil, _⟩ | ⟨info, il, hfind, hi, hmem, hspos, hknown⟩ :=
    h.errFindDurable hload hdvd hd.le (by omega)
  · -- the ring has more than its first segment
    rcases h.infos with hi | ⟨_, hFL, _⟩
    · obtain ⟨i, hm, _⟩ := hi.all sposDurable hdvd hd.le hdL
      rw [hnil] at hm
      cases hm
    · omega
  have hsp : (rng.withInfos il).pjsm.errCheckSpace sposReplay sposDurable = none := by
    have hav : (rng.withInfos il).pjsm.cbAvailable = rng.pjsm.cbAvailable := rfl
    have hcb : (rng.withInfos il).pjsm.m_cb = rng.pjsm.m_cb := rfl
    have hD : (rng.withInfos il).pjsm.m_sposDurableMax = rng.pjsm.m_sposDurableMax := rfl
    have hRM : (rng.withInfos il).pjsm.m_sposReplayMax = rng.pjsm.m_sposReplayMax := rfl
    unfold errCheckSpace
    rw [if_neg (by omega), if_neg (by omega), if_neg (by omega)]
  have hprev : (rng.withInfos il).pjsm.errFindUniqueIdPrev io
      (rng.m_sposAppend + cbJournalSegment - cbJournalSegment)
        = (.ok (), (rng.withInfos il).pjsm) := by
    rw [Nat.add_sub_cancel]
    exact errFindUniqueIdPrev_self (h.uniqueIdPrev.elim (fun hu => hu.trans hA.symm) id)
  have hfirst : ¬ (rng.withInfos il).pjsm.m_sposFirst > info.sposReplay := by
    have := (hi.replay info hmem).1
    omega
  unfold TJournalSegmentManager.errAppendSegment
  rw [if_neg hrej, hoff]
  dsimp only
  rw [hfind]
  dsimp only
  rw [hsp]
  dsimp only
  rw [hprev]
  dsimp only
  rw [hcreate]
  dsimp only
  rw [halloc, if_neg (by decide), if_neg hfirst]
  exact ⟨_, rfl⟩

/-- Where a place is free, and the append position is that of the last segment, the journal can be
recovered from full. -/
theorem Inv.recoverable (h : Inv rng) (hA : rng.m_sposAppend = rng.pjsm.m_sposLast)
    (hfree : rng.pjsm.cbAvailable ≠ 0) : Recoverable rng where
  notUnrecoverable io sposReplay sposDurable hdvd hload := by
    obtain ⟨err, _, herr, _, _, hun, _⟩ | ⟨_, _, _, _, _, _, _, hok⟩ :=
      h.errAppendSegment sposReplay hload hdvd
    · rw [herr]
      exact fun he => hfree (hun (Except.error.inj he))
    · rw [hok]
      exact fun he => nomatch he
  retry io sposReplay sposDurable hdvd hload pjsm hres io' sposReplay' sposDurable' dwUniqueId
      hdvd' hload' hr hd hrd hdL hdvdR hcreate halloc := by
    obtain ⟨err, pjsm', herr, hp, _, _, hfull⟩ | ⟨_, _, _, _, _, _, _, hok⟩ :=
      h.errAppendSegment sposReplay hload hdvd
    · rw [herr] at hres
      obtain ⟨he, rfl⟩ := Prod.mk.inj hres
      obtain ⟨hD, hR⟩ := hfull (Except.error.inj he)
      rcases hp with rfl | ⟨il, sposU, dwU, rfl, hu, hi⟩
      · exact h.errAppendSegment_ok hA hfree hload' hdvd' hdvdR (by omega) (by omega) hrd hdL
          hcreate halloc
      · exact (h.learnt hu hi).errAppendSegment_ok hA hfree hload' hdvd' hdvdR
          (show rng.pjsm.m_sposReplayMax < sposReplay' by omega)
          (show rng.pjsm.m_sposDurableMax < sposDurable' by omega) hrd hdL hcreate halloc
    · rw [hok] at hres
      cases congrArg Prod.fst hres

/-! ## Runs -/

/-- The first condition on a step: the journal has memory for the segment that it is given. -/
def Kept : RingOp → Prop
  | .append _ fAllocSegment _ _ => fAllocSegment = true
  | .sealed .. => True

/-- The second: a call made with one free place passes a durable segment that recorded a later
replay position than the first one of the ring. -/
def MovesFirst (rng : Ring) : RingOp → Prop
  | .append _ _ _ sposDurable => rng.pjsm.cbAvailable = cbJournalSegment →
    rng.pjsm.m_sposDurableMax < sposDurable → ∀ i ∈ rng.pjsm.m_ilSegmentInfo,
      i.spos = sposDurable → rng.pjsm.m_sposFirst < i.sposReplay
  | .sealed .. => True

/-- While every segment is kept the append position is that of the last segment. -/
theorem Inv.step_kept (h : Inv rng) (hA : rng.m_sposAppend = rng.pjsm.m_sposLast) {a : RingOp}
    (hs : Step a rng rng') (hk : Kept a) : rng'.m_sposAppend = rng'.pjsm.m_sposLast := by
  cases hs with
  | append fAllocSegment hload hreplay hdvd =>
    obtain ⟨pjsm, he, hp⟩ | ⟨info, il, ib, dw, unsealed, hacc, hoff, he⟩ :=
      h.errGetAppendSegment _ fAllocSegment hload hdvd
    · rw [he]
      rcases hp with rfl | ⟨il, sposU, dwU, rfl, _⟩ <;> exact hA
    · rw [he, show fAllocSegment = true from hk]
      exact (max_eq_right h.append_le.2).symm
  | sealed => exact hA

/-- A step under both conditions leaves a place free. -/
theorem Inv.step_free (h : Inv rng) (hfree : rng.pjsm.cbAvailable ≠ 0) {a : RingOp}
    (hs : Step a rng rng') (hm : rng.MovesFirst a) : rng'.pjsm.cbAvailable ≠ 0 := by
  have h' := h.step hs
  cases hs with
  | @append _ io fAllocSegment sposReplay sposDurable hload hreplay hdvd =>
    obtain ⟨pjsm, he, hp⟩ | ⟨info, il, ib, dw, unsealed, hacc, hoff, he⟩ :=
      h.errGetAppendSegment sposReplay fAllocSegment hload hdvd
    · rw [he]
      rcases hp with rfl | ⟨il, sposU, dwU, rfl, _⟩ <;> exact hfree
    · rw [he] at h' ⊢
      have hsum := h.cbAvailable
      have hsum' := h'.cbAvailable
      have hgap := h.free_gap hfree
      have hsz := h.size
      have ht := h.turns
      have hdF := h.dvdFirst
      have hdL := h.dvdLast
      have hA := h.append_le
      have hlow := h.first.trans (h.replay.trans h.durable)
      obtain ⟨hF, hR, hdvdF⟩ := hacc.infos.replay info hacc.mem
      replace hF : rng.pjsm.m_sposFirst ≤ info.sposReplay := hF
      replace hR : info.sposReplay ≤ rng.pjsm.m_sposReplayMax := hR
      have hRL := h.replay.trans h.durable
      have hmove : rng.pjsm.cbAvailable = cbJournalSegment →
          rng.pjsm.m_sposFirst < info.sposReplay := fun h1 => by
        have hadv := hacc.advance (by unfold cbJournalFull; omega)
        rcases hacc.known with hnil | hil
        · -- the first segment alone leaves four places
          rcases h.infos with hi | ⟨_, hFL, _⟩
          · obtain ⟨i, hmem, _⟩ := hi.all sposDurable hdvd hacc.durable
              (hacc.durable_le.trans hA.1)
            rw [hnil] at hmem
            cases hmem
          · unfold cbJournalSegment at *
            omega
        · exact hm h1 hadv info (hil ▸ hacc.mem) hacc.spos
      replace hsum' : _ + (max rng.pjsm.m_sposLast (rng.m_sposAppend + cbJournalSegment)
        - info.sposReplay + cbJournalSegment) = rng.pjsm.m_cb := hsum'
      rw [max_eq_right hA.2] at hsum'
      unfold cbJournalSegment at *
      omega
  | sealed => exact hfree

/-- **The ring is sound in every run, and recoverable while the last free place is kept.** From an
empty journal of at least five segments, whatever is passed, loaded and sealed, the ring is sound.
While the journal has memory for every segment it is given, none is created in the place of a
visible one. If besides in every step that was made with one free place the durable segment had
recorded a later replay position than the first, the journal can also be recovered from full. -/
theorem ring_run {ib cb dwUniqueId : Nat} {file : Nat → Option CJournalSegmentHeader}
    (hturn : cbJournalSegment ∣ cb) (hsize : 5 * cbJournalSegment ≤ cb) {as : List RingOp}
    (hrun : Run Step (Ring.empty ib cb dwUniqueId file) as rng) :
    Sound rng ∧
      (Run (fun a s t => Step a s t ∧ Kept a) (Ring.empty ib cb dwUniqueId file) as rng →
        Created rng) ∧
      (Run (fun a s t => Step a s t ∧ Kept a ∧ s.MovesFirst a)
        (Ring.empty ib cb dwUniqueId file) as rng → Recoverable rng) := by
  have h₀ := inv_empty ib dwUniqueId file hturn hsize
  have hinv : Inv rng := hrun.invariant (fun _ _ _ h hs => h.step hs) h₀
  refine ⟨hinv.sound, fun hkept => ?_, fun hmoves => ?_⟩
  · have hA : Inv rng ∧ rng.m_sposAppend = rng.pjsm.m_sposLast :=
      hkept.invariant (I := fun rng => Inv rng ∧ rng.m_sposAppend = rng.pjsm.m_sposLast)
        (fun _ _ _ ⟨h, hA⟩ ⟨hs, hk⟩ => ⟨h.step hs, h.step_kept hA hs hk⟩) ⟨h₀, rfl⟩
    exact hinv.sound.created hinv hA.2
  · have hfree : Inv rng ∧ rng.m_sposAppend = rng.pjsm.m_sposLast ∧ rng.pjsm.cbAvailable ≠ 0 := by
      refine hmoves.invariant
        (I := fun rng => Inv rng ∧ rng.m_sposAppend = rng.pjsm.m_sposLast ∧
          rng.pjsm.cbAvailable ≠ 0)
        (fun _ _ _ ⟨h, hA, hf⟩ ⟨hs, hk, hm⟩ => ⟨h.step hs, h.step_kept hA hs hk,
          h.step_free hf hs hm⟩) ⟨h₀, rfl, ?_⟩
      have hsum := h₀.cbAvailable
      replace hsum : _ + (cb - cb + cbJournalSegment) = cb := hsum
      unfold cbJournalSegment at *
      omega
    exact hinv.recoverable hfree.2.1 hfree.2.2

/-! ## A journal that fills up, and one that loses a segment -/

/-- A call whose loads find nothing but the first segment of a journal of six segments. -/
def sixStorage (fLoad : Bool) : SegmentIO where
  errLoad ib := if fLoad ∧ ib = 0 then .ok (errInitEmptyJournal 0 24576 0).2 else .error (-1)
  errCreate := .ok 0
  fAllocDurable := true
  fAllocAppend := true

theorem sixStorage_false (ib : Nat) (jsh : CJournalSegmentHeader) :
    (sixStorage false).errLoad ib ≠ .ok jsh := by
  simp [sixStorage]

theorem sixStorage_true (ib : Nat) (jsh : CJournalSegmentHeader)
    (he : (sixStorage true).errLoad ib = .ok jsh) :
    (Ring.empty 0 24576 0 fun _ => none).file ib = some jsh := by
  by_cases hib : ib = 0
  · subst hib
    simpa [sixStorage, Ring.empty] using he
  · simp [sixStorage, hib] at he

/-- The first call of that journal. -/
theorem step_first (fAllocSegment : Bool) :
    Step (.append (sixStorage true) fAllocSegment 24576 24576) (Ring.empty 0 24576 0 fun _ => none)
      ((Ring.empty 0 24576 0 fun _ => none).errGetAppendSegment (sixStorage true) fAllocSegment
        24576 24576) :=
  .append fAllocSegment sixStorage_true (by decide) (by decide)

/-- A later call, which has nothing to load. -/
theorem step_next (rng : Ring) (sposReplay sposDurable : Nat)
    (hreplay : cbJournalSegment ∣ sposReplay) (hdurable : cbJournalSegment ∣ sposDurable) :
    Step (.append (sixStorage false) true sposReplay sposDurable) rng
      (rng.errGetAppendSegment (sixStorage false) true sposReplay sposDurable) :=
  .append true (fun ib jsh he => absurd he (sixStorage_false ib jsh)) hreplay hdurable

/-- That journal after its first two appends. -/
def twoRing : Ring :=
  ((Ring.empty 0 24576 0 fun _ => none).errGetAppendSegment (sixStorage true) true 24576
    24576).errGetAppendSegment (sixStorage false) true 24576 28672

theorem ring_run_append : Sound twoRing ∧ Created twoRing ∧ Recoverable twoRing := by
  have hnext := fun rng => step_next rng 24576 28672 (by decide) (by decide)
  have hrun : Run Step (Ring.empty 0 24576 0 fun _ => none) _ twoRing :=
    (Run.single (step_first true)).snoc (hnext _)
  obtain ⟨hsound, hcreated, hrec⟩ := ring_run (by decide) (by decide) hrun
  refine ⟨hsound, hcreated ((Run.single ⟨step_first true, rfl⟩).snoc ⟨hnext _, rfl⟩),
    hrec ((Run.single ⟨step_first true, rfl, fun h => ?_⟩).snoc ⟨hnext _, rfl, fun h => ?_⟩)⟩
  · exact absurd h (by decide +kernel)
  · exact absurd h (by decide +kernel)

/-- A journal of six segments after five appends, the durable position one segment behind. -/
def sixRing : Ring :=
  (((((Ring.empty 0 24576 0 fun _ => none).errGetAppendSegment (sixStorage true) true 24576
    24576).errGetAppendSegment (sixStorage false) true 24576 24576).errGetAppendSegment
    (sixStorage false) true 24576 28672).errGetAppendSegment (sixStorage false) true 28672
    32768).errGetAppendSegment (sixStorage false) true 28672 36864

/-- That journal after a first append for which it had no memory. -/
def droppedRing : Ring :=
  (Ring.empty 0 24576 0 fun _ => none).errGetAppendSegment (sixStorage true) false 24576 24576

/-- The durable position follows the last one at a distance: five appends fill the ring, the
replay position in the durable segment being that of the first segment all along. A call is then
refused for want of space, and with larger recorded positions finds the journal unrecoverable. And
a journal that had no memory for a segment creates the next one in its place. -/
theorem ring_unrecoverable :
    (∃ as rng, Run Step (Ring.empty 0 24576 0 fun _ => none) as rng ∧
      (rng.pjsm.errAppendSegment (sixStorage false) (rng.m_sposAppend + cbJournalSegment) 28672
        36864).1 = .error .JET_errDiskFull ∧ rng.pjsm.m_sposLast = 45056 ∧
      (rng.pjsm.errAppendSegment (sixStorage false) (rng.m_sposAppend + cbJournalSegment) 32768
        40960).1 = .error (.blockCacheInternalError .JournalFullUnrecoverable)) ∧
    ∃ as rng, Run Step (Ring.empty 0 24576 0 fun _ => none) as rng ∧
      rng.pjsm.m_sposFirst ≤ rng.pjsm.m_sposLast ∧
      (∀ ib jsh, (sixStorage true).errLoad ib = .ok jsh → rng.file ib = some jsh) ∧
      ∃ jsh, (rng.pjsm.errAppendSegment (sixStorage true) (rng.m_sposAppend + cbJournalSegment)
          24576 24576).1 = .ok (4096, jsh) ∧
        rng.pjsm.errGetSegmentOffset rng.pjsm.m_sposLast = .ok 4096 := by
  have hrun := ((((Run.single (step_first true)).snoc
    (step_next _ 24576 24576 (by decide) (by decide))).snoc
    (step_next _ 24576 28672 (by decide) (by decide))).snoc
    (step_next _ 28672 32768 (by decide) (by decide))).snoc
    (step_next _ 28672 36864 (by decide) (by decide))
  refine ⟨⟨_, sixRing, hrun, ?_, ?_, ?_⟩, _, droppedRing, Run.single (step_first false), ?_,
    sixStorage_true, ⟨28672, 0, 0, 24576, 24576⟩, ?_, ?_⟩
  · decide +kernel
  · decide +kernel
  · decide +kernel
  · decide +kernel
  · decide +kernel
  · decide +kernel

end Ring

end Ese.Journal
