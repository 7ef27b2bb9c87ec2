import Ese.Journal.Entry

/-!
# What is appended is visited

The visitor is followed beside the appender: `EntryJournal.visitor k` is the state it is in past the
regions of the segments from the `k`-th on, so that appending a region is one more call of
`FVisitRegion`. While an entry is appended that state is `Pending`: the entries before are visited,
and if all fragments of this one are in sight the visitor has its bytes up to `ibEntry`. An entry
that is given up leaves a visitor that knows an entry in the middle, and the next first fragment
makes it forget that one.
-/

namespace Ese.Journal

/-! ## The header of a fragment -/

theorem length_fragmentHeader (fFirst : Bool) (cb : Nat) :
    (fragmentHeader fFirst cb).length = cbJournalEntryFragment := length_leBytes _ _

/-- The header of a fragment is read as it was written. -/
theorem cbEntryOrCbEntryRem_fragmentHeader (fFirst : Bool) {cb : Nat} (hcb : cb < cbEntryMax)
    (rgb : List Byte) :
    cbEntryOrCbEntryRem (fragmentHeader fFirst cb ++ rgb) = if fFirst then (cb : Int) else -cb := by
  unfold cbEntryMax at hcb
  have htake : (fragmentHeader fFirst cb ++ rgb).take cbJournalEntryFragment
      = fragmentHeader fFirst cb := List.take_left' (length_fragmentHeader fFirst cb)
  unfold cbEntryOrCbEntryRem
  rw [htake]
  unfold fragmentHeader
  dsimp only
  cases fFirst with
  | true =>
    simp only [if_true]
    rw [leNat_leBytes (by omega), if_pos (by omega)]
    omega
  | false =>
    simp only [Bool.false_eq_true, if_false]
    rw [leNat_leBytes (by omega)]
    split <;> omega

theorem fFirstFragment_fragmentHeader (fFirst : Bool) {cb : Nat} (hcb : cb < cbEntryMax)
    (rgb : List Byte) :
    fFirstFragment (fragmentHeader fFirst cb ++ rgb) = (fFirst || decide (cb = 0)) := by
  rw [fFirstFragment, cbEntryOrCbEntryRem_fragmentHeader fFirst hcb rgb]
  cases fFirst with
  | true => simp
  | false => simp

theorem cbEntryRemaining_fragmentHeader (fFirst : Bool) {cb : Nat} (hcb : cb < cbEntryMax)
    (rgb : List Byte) : cbEntryRemaining (fragmentHeader fFirst cb ++ rgb) = cb := by
  rw [cbEntryRemaining, cbEntryOrCbEntryRem_fragmentHeader fFirst hcb rgb]
  cases fFirst with
  | true => simp
  | false => simp

/-! ## The visit, region by region -/

namespace CEntryVisitor

variable {pev : CEntryVisitor}

/-- A visitor that stops has an error. -/
theorem fVisitRegion_stops {region : Region} (h : (pev.fVisitRegion region).2 = false) :
    (pev.fVisitRegion region).1.m_err ≠ none := by
  unfold fVisitRegion error at h ⊢
  cases hfirst : fFirstFragment region.jb <;> simp only [hfirst] at h ⊢ <;>
    split_ifs at h ⊢ <;> cases herr : pev.m_err <;> simp_all [accumulate]

theorem visitRegions_cons (pev : CEntryVisitor) (region : Region) (rgregion : List Region) :
    pev.visitRegions (region :: rgregion) = if (pev.fVisitRegion region).2 then
        (pev.fVisitRegion region).1.visitRegions rgregion
      else (pev.fVisitRegion region).1 := rfl

/-- An error stays. -/
theorem fVisitRegion_m_err {region : Region} (h : pev.m_err ≠ none) :
    (pev.fVisitRegion region).1.m_err ≠ none := by
  unfold fVisitRegion error
  cases hfirst : fFirstFragment region.jb <;> simp only [] <;>
    split_ifs <;> cases herr : pev.m_err <;> simp_all [accumulate]

theorem visitRegions_m_err {rgregion : List Region} (h : pev.m_err ≠ none) :
    (pev.visitRegions rgregion).m_err ≠ none := by
  induction rgregion generalizing pev with
  | nil => exact h
  | cons region rgregion ih =>
    have hregion : (pev.fVisitRegion region).1.m_err ≠ none := fVisitRegion_m_err h
    rw [visitRegions_cons]
    split
    · exact ih hregion
    · exact hregion

/-- Without an error the regions are visited to the last one. -/
theorem visitRegions_append {rgregion : List Region} (rgregion' : List Region)
    (h : (pev.visitRegions rgregion).m_err = none) :
    pev.visitRegions (rgregion ++ rgregion') =
      (pev.visitRegions rgregion).visitRegions rgregion' := by
  induction rgregion generalizing pev with
  | nil => rfl
  | cons region rgregion ih =>
    rw [visitRegions_cons] at h
    rw [List.cons_append, visitRegions_cons, visitRegions_cons]
    cases hc : (pev.fVisitRegion region).2 with
    | true =>
      rw [hc, if_pos rfl] at h
      rw [if_pos rfl, if_pos rfl]
      exact ih h
    | false =>
      rw [hc, if_neg Bool.false_ne_true] at h
      exact absurd h (fVisitRegion_stops hc)

theorem visitRegions_append_left {rgregion rgregion' : List Region}
    (h : (pev.visitRegions (rgregion ++ rgregion')).m_err = none) :
    (pev.visitRegions rgregion).m_err = none := by
  induction rgregion generalizing pev with
  | nil =>
    by_contra herr
    exact visitRegions_m_err herr h
  | cons region rgregion ih =>
    rw [List.cons_append, visitRegions_cons] at h
    rw [visitRegions_cons]
    cases hc : (pev.fVisitRegion region).2 with
    | true =>
      rw [hc, if_pos rfl] at h
      rw [if_pos rfl]
      exact ih h
    | false =>
      rw [hc, if_neg Bool.false_ne_true] at h
      exact absurd h (fVisitRegion_stops hc)

theorem visitRegions_singleton (pev : CEntryVisitor) (region : Region) :
    pev.visitRegions [region] = (pev.fVisitRegion region).1 := by
  rw [visitRegions_cons]
  split <;> rfl

/-- Segment by segment the visitor sees the regions one after the other. -/
theorem visitSegments_eq (sposDurable : Nat) (rgsegment : List Segment)
    (h : (pev.visitRegions (rgsegment.flatMap (·.rgregion))).m_err = none) :
    pev.visitSegments sposDurable (rgsegment.map fun seg => (seg.spos, .ok seg))
      = pev.visitRegions (rgsegment.flatMap (·.rgregion)) := by
  induction rgsegment generalizing pev with
  | nil => rfl
  | cons seg rgsegment ih =>
    rw [List.flatMap_cons] at h ⊢
    have hseg := visitRegions_append (rgsegment.flatMap (·.rgregion)) (visitRegions_append_left h)
    rw [hseg] at h ⊢
    exact ih h

end CEntryVisitor

/-! ## The visitor beside the appender -/

/-- The visitor past the segments from the `k`-th on. -/
def EntryJournal.visitor (j : EntryJournal) (k : Nat) : CEntryVisitor :=
  CEntryVisitor.init.visitRegions ((j.rgsegment.drop k).flatMap (·.rgregion))

variable {j : EntryJournal} {k : Nat}

/-- Nothing is seen from a place past the last segment. -/
theorem EntryJournal.visitor_of_le (h : j.rgsegment.length ≤ k) : j.visitor k = .init := by
  rw [visitor, List.drop_eq_nil_of_le h]
  rfl

/-- A new segment shows nothing. -/
theorem EntryJournal.visitor_getAppendSegment {fForce : Bool} {a : Attempt} {j' : EntryJournal}
    (h : j.errGetAppendSegment fForce a = .ok j') :
    j'.rgsegment ≠ [] ∧ j.rgsegment.length ≤ j'.rgsegment.length ∧
      j'.visitor k = j.visitor k := by
  unfold errGetAppendSegment at h
  split at h
  · split at h
    · cases h
    · cases h
      refine ⟨by simp, by simp, ?_⟩
      unfold visitor
      rw [List.drop_append, List.flatMap_append]
      cases hd : List.drop (k - j.rgsegment.length)
        [(⟨j.sposAppend + cbJournalSegment, []⟩ : Segment)] with
      | nil => rw [List.flatMap_nil, List.append_nil]
      | cons seg rgsegment =>
        have hmem : ∀ s ∈ seg :: rgsegment, s.rgregion = [] := by
          intro s hs
          rw [← hd] at hs
          rw [List.mem_singleton.1 (List.mem_of_mem_drop hs)]
        rw [List.flatMap_eq_nil_iff.2 hmem, List.append_nil]
  · cases h
    exact ⟨fun hnil => by simp_all, Nat.le_refl _, rfl⟩

/-- A region that is appended is visited next, if the last segment is in sight. -/
theorem EntryJournal.appendRegion_spec (hne : j.rgsegment ≠ []) (jb : List Byte) :
    ∃ region, (j.appendRegion jb).2 = some region ∧ region.jb = jb ∧
      (j.appendRegion jb).1.rgsegment.length = j.rgsegment.length ∧
      (k < j.rgsegment.length → (j.visitor k).m_err = none →
        (j.appendRegion jb).1.visitor k = ((j.visitor k).fVisitRegion region).1) := by
  obtain ⟨rgsegment, seg, hrg⟩ := List.eq_nil_or_concat _ |>.resolve_left hne
  rw [List.concat_eq_append] at hrg
  have hlast : j.rgsegment.getLast? = some seg := by rw [hrg, List.getLast?_concat]
  unfold appendRegion
  rw [hlast]
  refine ⟨seg.newRegion jb, rfl, rfl, ?_, fun hk herr => ?_⟩
  · simp [hrg]
  · have hlen : k ≤ rgsegment.length := by
      rw [hrg, List.length_append, List.length_singleton] at hk
      omega
    unfold visitor at herr ⊢
    dsimp only
    rw [hrg, List.dropLast_concat, List.drop_append_of_le_length hlen, List.flatMap_append]
    rw [hrg, List.drop_append_of_le_length hlen, List.flatMap_append] at herr
    rw [List.drop_append_of_le_length hlen, List.flatMap_append]
    simp only [List.flatMap_cons, List.flatMap_nil, List.append_nil] at herr ⊢
    rw [← List.append_assoc, CEntryVisitor.visitRegions_append _ herr,
      CEntryVisitor.visitRegions_singleton]

/-! ## One fragment -/

/-- The visitor has the first `ibEntry` bytes of the entry at `jpos`. -/
structure Tracks (rgb : List Byte) (jpos : Option Nat) (ibEntry : Nat) (pev : CEntryVisitor) :
    Prop where
  jpos_eq : pev.m_jpos = jpos
  cbEntry_eq : pev.m_cbEntry = rgb.length
  ibEntry_eq : pev.m_ibEntry = ibEntry
  cbEntryRem_eq : pev.m_cbEntryRem = rgb.length - ibEntry
  buffer : 0 < ibEntry → rgb.length ≤ pev.m_jb.length ∧ pev.m_jb.take ibEntry = rgb.take ibEntry

/-- The next bytes of the entry are accumulated, and the entry is visited with the last of them. -/
theorem Tracks.accumulate {rgb : List Byte} {jpos : Option Nat} {ibEntry : Nat}
    {pev : CEntryVisitor} (h : Tracks rgb jpos ibEntry pev) {cb : Nat}
    (hcb : ibEntry + cb ≤ rgb.length) (rposEnd : Nat) :
    Tracks rgb jpos (ibEntry + cb) (pev.accumulate rposEnd ((rgb.drop ibEntry).take cb)) ∧
      (pev.accumulate rposEnd ((rgb.drop ibEntry).take cb)).rgvisited = pev.rgvisited ++
        if ibEntry + cb = rgb.length then [(jpos, some rposEnd, rgb)] else [] := by
  obtain ⟨hjpos, hcbEntry, hib, hrem, hbuffer⟩ := h
  have hlen : ((rgb.drop ibEntry).take cb).length = cb := by
    rw [List.length_take, List.length_drop]
    omega
  -- the buffer is long enough for the whole entry and starts with what was accumulated before
  obtain ⟨buf, hbuf, hbuflen, hpre⟩ : ∃ buf : List Byte,
      (if pev.m_jb.length < max 1 pev.m_cbEntry then List.replicate (max 1 pev.m_cbEntry) 0
        else pev.m_jb) = buf ∧ rgb.length ≤ buf.length ∧ buf.take ibEntry = rgb.take ibEntry := by
    refine ⟨_, rfl, ?_, ?_⟩
    · split
      · rw [List.length_replicate]
        omega
      · omega
    · rcases Nat.eq_zero_or_pos ibEntry with rfl | hpos
      · rfl
      · obtain ⟨hle, htake⟩ := hbuffer hpos
        rw [if_neg (by omega)]
        exact htake
  have htake : (buf.take ibEntry ++ (rgb.drop ibEntry).take cb ++ buf.drop (ibEntry + cb)).take
      (ibEntry + cb) = rgb.take (ibEntry + cb) := by
    rw [hpre, ← List.take_add]
    refine List.take_left' ?_
    rw [List.length_take]
    omega
  have hbuflen' : (buf.take ibEntry ++ (rgb.drop ibEntry).take cb ++
      buf.drop (ibEntry + cb)).length = buf.length := by
    simp only [List.length_append, List.length_take, List.length_drop]
    omega
  unfold CEntryVisitor.accumulate
  dsimp only
  rw [hbuf, hlen, hib, hrem]
  refine ⟨⟨hjpos, hcbEntry, rfl, Nat.sub_sub _ _ _, fun _ => ⟨?_, htake⟩⟩, ?_⟩
  · dsimp only
    rw [hbuflen']
    exact hbuflen
  · by_cases hdone : ibEntry + cb = rgb.length
    · rw [if_pos (by omega), if_pos hdone, hcbEntry, hjpos]
      rw [hdone, List.take_length] at htake
      rw [← hdone] at htake ⊢
      rw [htake]
    · rw [if_neg (by omega), if_neg hdone, List.append_nil]

@[simp] theorem CEntryVisitor.accumulate_m_err (pev : CEntryVisitor) (rposEnd : Nat)
    (rgbFragment : List Byte) : (pev.accumulate rposEnd rgbFragment).m_err = pev.m_err := rfl

/-- The payload of the region that holds `cb` more bytes of the entry. -/
def fragment (rgb : List Byte) (ibEntry cb : Nat) : List Byte :=
  fragmentHeader (ibEntry = 0) (rgb.length - ibEntry) ++ (rgb.drop ibEntry).take cb

section
variable {rgb : List Byte} {ibEntry cb : Nat} {region : Region} {pev : CEntryVisitor}
variable (hrgb : rgb.length < cbEntryMax) (hcb : ibEntry + cb ≤ rgb.length)
variable (hregion : region.jb = fragment rgb ibEntry cb)
include hrgb hregion

theorem fragment_cbEntryRemaining : cbEntryRemaining region.jb = rgb.length - ibEntry := by
  rw [hregion, fragment, cbEntryRemaining_fragmentHeader _ (by omega)]

theorem fragment_fFirstFragment (hib : ibEntry = 0 ∨ ibEntry < rgb.length) :
    fFirstFragment region.jb = decide (ibEntry = 0) := by
  rw [hregion, fragment, fFirstFragment_fragmentHeader _ (by omega), Bool.or_eq_left_iff_imp]
  intro h
  rw [decide_eq_true_eq] at h ⊢
  omega

omit hrgb in
theorem fragment_drop : region.jb.drop cbJournalEntryFragment = (rgb.drop ibEntry).take cb := by
  rw [hregion, fragment]
  exact List.drop_left' (length_fragmentHeader _ _)

include hcb

omit hrgb in
theorem fragment_length : region.jb.length = cbJournalEntryFragment + cb := by
  rw [hregion, fragment, List.length_append, length_fragmentHeader, List.length_take,
    List.length_drop]
  omega

/-- A first fragment starts the entry over. -/
theorem fVisitRegion_first (hib : ibEntry = 0) (herr : pev.m_err = none) :
    (pev.fVisitRegion region).1.m_err = none ∧
      Tracks rgb (some region.rpos) (ibEntry + cb) (pev.fVisitRegion region).1 ∧
      (pev.fVisitRegion region).1.rgvisited = pev.rgvisited ++
        if ibEntry + cb = rgb.length then [(some region.rpos, some region.rposEnd, rgb)]
        else [] := by
  have hlen := fragment_length hcb hregion
  have hfirst := fragment_fFirstFragment hrgb hregion (.inl hib)
  have hrem := fragment_cbEntryRemaining hrgb hregion
  have hdrop := fragment_drop hregion
  rw [decide_eq_true hib] at hfirst
  subst hib
  unfold CEntryVisitor.fVisitRegion
  rw [if_neg (by omega), hfirst, hrem, hdrop]
  simp only [if_true, Bool.not_true, Bool.false_eq_true, false_and, if_false, ne_eq,
    not_true_eq_false]
  rw [if_neg (by omega)]
  have hstart : Tracks rgb (some region.rpos) 0
      { pev with m_jpos := some region.rpos, m_cbEntry := rgb.length - 0, m_ibEntry := 0,
                 m_cbEntryRem := rgb.length - 0 } :=
    ⟨rfl, Nat.sub_zero _, rfl, rfl, fun h => absurd h (Nat.lt_irrefl 0)⟩
  exact ⟨herr, hstart.accumulate hcb region.rposEnd⟩

/-- A continuation of the entry the visitor knows is added to it. -/
theorem fVisitRegion_next (hpos : 0 < ibEntry) (hib : ibEntry < rgb.length)
    (herr : pev.m_err = none) {jpos : Nat} (h : Tracks rgb (some jpos) ibEntry pev) :
    (pev.fVisitRegion region).1.m_err = none ∧
      Tracks rgb (some jpos) (ibEntry + cb) (pev.fVisitRegion region).1 ∧
      (pev.fVisitRegion region).1.rgvisited = pev.rgvisited ++
        if ibEntry + cb = rgb.length then [(some jpos, some region.rposEnd, rgb)] else [] := by
  have hlen := fragment_length hcb hregion
  have hfirst := fragment_fFirstFragment hrgb hregion (.inr hib)
  have hrem := fragment_cbEntryRemaining hrgb hregion
  have hdrop := fragment_drop hregion
  rw [decide_eq_false (by omega : ¬ibEntry = 0)] at hfirst
  unfold CEntryVisitor.fVisitRegion
  rw [if_neg (by omega), hfirst, hrem, hdrop]
  simp only [Bool.false_eq_true, if_false, Bool.not_false, true_and]
  rw [h.jpos_eq, if_neg (by simp), h.cbEntryRem_eq, if_neg (by simp), if_neg (by omega)]
  exact ⟨herr, h.accumulate hcb region.rposEnd⟩

omit hcb in
/-- A continuation of an entry that began out of sight is skipped. -/
theorem fVisitRegion_skip (hpos : 0 < ibEntry) (hib : ibEntry < rgb.length)
    (hlen : cbJournalEntryFragment ≤ region.jb.length) (h : pev.m_jpos = none) :
    (pev.fVisitRegion region).1 = pev := by
  have hfirst := fragment_fFirstFragment hrgb hregion (.inr hib)
  rw [decide_eq_false (by omega : ¬ibEntry = 0)] at hfirst
  unfold CEntryVisitor.fVisitRegion
  rw [if_neg (by omega), hfirst]
  simp only [Bool.false_eq_true, if_false, Bool.not_false, true_and]
  rw [if_pos h]

end

/-! ## The loop -/

/-- What one turn of the loop does: nothing is appended, or the next `cb` bytes with their header,
as one region of the last segment. -/
theorem EntryJournal.appendFragment_spec {rgb : List Byte} (cbRoom : Nat) {loop : AppendLoop}
    (hne : j.rgsegment ≠ []) (hrgb : loop.rgb = rgb.drop loop.ibEntry)
    (hle : loop.ibEntry ≤ rgb.length) :
    ((j.appendFragment rgb.length cbRoom loop).1 = j ∧
      (j.appendFragment rgb.length cbRoom loop).2.ibEntry = loop.ibEntry ∧
      (j.appendFragment rgb.length cbRoom loop).2.rgb = loop.rgb ∧
      (j.appendFragment rgb.length cbRoom loop).2.jpos
        = (if loop.ibEntry = 0 then none else loop.jpos) ∧
      (0 < loop.ibEntry →
        (j.appendFragment rgb.length cbRoom loop).2.rgisegment = loop.rgisegment)) ∨
    ∃ cb region, loop.ibEntry + cb ≤ rgb.length ∧ region.jb = fragment rgb loop.ibEntry cb ∧
      (j.appendFragment rgb.length cbRoom loop).1.rgsegment.length = j.rgsegment.length ∧
      (k < j.rgsegment.length → (j.visitor k).m_err = none →
        (j.appendFragment rgb.length cbRoom loop).1.visitor k
          = ((j.visitor k).fVisitRegion region).1) ∧
      (j.appendFragment rgb.length cbRoom loop).2.ibEntry = loop.ibEntry + cb ∧
      (j.appendFragment rgb.length cbRoom loop).2.rgb = rgb.drop (loop.ibEntry + cb) ∧
      (j.appendFragment rgb.length cbRoom loop).2.jpos
        = (if loop.ibEntry = 0 then some region.rpos else loop.jpos) ∧
      (j.appendFragment rgb.length cbRoom loop).2.jposEnd = some region.rposEnd ∧
      (j.appendFragment rgb.length cbRoom loop).2.rgisegment
        = (if loop.ibEntry = 0 then [] else loop.rgisegment) ++ [j.rgsegment.length - 1] := by
  have hlen : (fragmentHeader (loop.ibEntry = 0) (rgb.length - loop.ibEntry) ++ loop.rgb).length
      = cbJournalEntryFragment + (rgb.length - loop.ibEntry) := by
    rw [List.length_append, length_fragmentHeader, hrgb, List.length_drop]
  unfold appendFragment cbPayloadActual
  dsimp only
  rw [hlen]
  by_cases hroom : cbJournalEntryFragment ≤ cbRoom
  · right
    obtain ⟨cb, hcb⟩ : ∃ cb, min (cbJournalEntryFragment + (rgb.length - loop.ibEntry)) cbRoom
        = cbJournalEntryFragment + cb := ⟨_, (Nat.add_sub_cancel' (by omega)).symm⟩
    have hpos : cbJournalEntryFragment + cb ≠ 0 := by unfold cbJournalEntryFragment; omega
    rw [if_pos hroom, hcb, if_neg hpos, if_neg hpos, Nat.add_sub_cancel_left]
    have htake : (fragmentHeader (loop.ibEntry = 0) (rgb.length - loop.ibEntry) ++ loop.rgb).take
        (cbJournalEntryFragment + cb) = fragment rgb loop.ibEntry cb := by
      rw [← length_fragmentHeader (loop.ibEntry = 0) (rgb.length - loop.ibEntry),
        List.take_length_add_append, hrgb]
      rfl
    rw [htake]
    obtain ⟨region, hregion, hjb, hlength, hvisitor⟩ :=
      appendRegion_spec (k := k) hne (fragment rgb loop.ibEntry cb)
    refine ⟨cb, region, by omega, hjb, hlength, hvisitor, rfl, ?_, ?_, ?_, ?_⟩
    · rw [hrgb, List.drop_drop]
    · simp only [hregion, Option.map_some]
    · simp only [hregion, Option.map_some]
    · simp only [hregion, Option.isSome_some, if_true, hlength]
      split <;> rfl
  · left
    rw [if_neg hroom]
    refine ⟨rfl, rfl, rfl, rfl, fun hpos => ?_⟩
    simp only [if_true, Option.isSome_none, Bool.false_eq_true, if_false, List.append_nil]
    rw [if_neg (by omega)]

/-- All fragments of the entry are in sight from the `k`-th segment on. -/
def InSight (k : Nat) (rgisegment : List Nat) : Prop := ∀ i ∈ rgisegment, k ≤ i

instance (k : Nat) (rgisegment : List Nat) : Decidable (InSight k rgisegment) :=
  inferInstanceAs (Decidable (∀ i ∈ rgisegment, k ≤ i))

theorem inSight_append_singleton {rgisegment : List Nat} {i : Nat} :
    InSight k (rgisegment ++ [i]) ↔ InSight k rgisegment ∧ k ≤ i := by
  simp [InSight, or_imp, forall_and]

/-- The entry is on its way: those before it are visited, and if its fragments are in sight then so
are its bytes up to `ibEntry`. -/
structure Pending (k : Nat) (rgb : List Byte)
    (rgvisited : List (Option Nat × Option Nat × List Byte)) (j : EntryJournal)
    (loop : AppendLoop) : Prop where
  sound : (j.visitor k).m_err = none
  visited : (j.visitor k).rgvisited = rgvisited
  rgb_eq : loop.rgb = rgb.drop loop.ibEntry
  ibEntry_le : loop.ibEntry ≤ rgb.length
  seen : 0 < loop.ibEntry → ∃ jpos, loop.jpos = some jpos ∧
    if InSight k loop.rgisegment then Tracks rgb (some jpos) loop.ibEntry (j.visitor k)
    else (j.visitor k).m_jpos = none

/-- The entry is appended, and visited if its fragments are in sight. -/
structure Done (k : Nat) (rgb : List Byte)
    (rgvisited : List (Option Nat × Option Nat × List Byte)) (j : EntryJournal)
    (loop : AppendLoop) : Prop where
  sound : (j.visitor k).m_err = none
  visited : (j.visitor k).rgvisited = rgvisited ++
    if InSight k loop.rgisegment then [(loop.jpos, loop.jposEnd, rgb)] else []
  valid : loop.jpos.isSome ∧ loop.jposEnd.isSome

/-- A call returned: the entry is appended, or given up with nothing visited of it. -/
def Returned (k : Nat) (rgb : List Byte) (rgvisited : List (Option Nat × Option Nat × List Byte))
    (j : EntryJournal) : Except ERR AppendLoop → Prop
  | .ok loop => Done k rgb rgvisited j loop
  | .error _ => (j.visitor k).m_err = none ∧ (j.visitor k).rgvisited = rgvisited

variable {rgb : List Byte} {rgvisited : List (Option Nat × Option Nat × List Byte)}
variable {loop : AppendLoop}

/-- One turn of the loop: the entry is still on its way, or appended. -/
theorem Pending.appendFragment (hrgb : rgb.length < cbEntryMax) (cbRoom : Nat)
    (hne : j.rgsegment ≠ []) (hguard : loop.ibEntry < rgb.length ∨ loop.jpos = none)
    (h : Pending k rgb rgvisited j loop) {j' : EntryJournal} {loop' : AppendLoop}
    (hstep : j.appendFragment rgb.length cbRoom loop = (j', loop')) :
    if loop'.ibEntry < rgb.length ∨ loop'.jpos = none then Pending k rgb rgvisited j' loop'
    else Done k rgb rgvisited j' loop' := by
  have hspec := EntryJournal.appendFragment_spec (k := k) cbRoom hne h.rgb_eq h.ibEntry_le
  have hlt : 0 < loop.ibEntry → loop.ibEntry < rgb.length := by
    intro hpos
    obtain ⟨jpos, hjpos, -⟩ := h.seen hpos
    exact hguard.resolve_right (by simp [hjpos])
  rw [hstep] at hspec
  rcases hspec with ⟨rfl, hib, hrgb', hjpos, hseg⟩ |
    ⟨cb, region, hcb, hjb, hlength, hvisitor, hib, hrgb', hjpos, hjposEnd, hseg⟩
  · -- nothing was appended
    dsimp only at hib hrgb' hjpos hseg
    rw [if_pos (by rw [hib, hjpos]; split <;> simp_all)]
    refine ⟨h.sound, h.visited, by rw [hrgb', hib, h.rgb_eq], by rw [hib]; exact h.ibEntry_le, ?_⟩
    intro hpos
    rw [hib] at hpos ⊢
    rw [hseg hpos, hjpos, if_neg (by omega)]
    exact h.seen hpos
  · dsimp only at hlength hvisitor hib hrgb' hjpos hjposEnd hseg
    have hnpos : 0 < j.rgsegment.length := List.length_pos_iff.2 hne
    -- the entry has a position from now on
    obtain ⟨jpos, hjpos'⟩ : ∃ jpos, loop'.jpos = some jpos := by
      rw [hjpos]
      split
      · exact ⟨_, rfl⟩
      · obtain ⟨jpos, hjpos, -⟩ := h.seen (by omega)
        exact ⟨jpos, hjpos⟩
    have hguard' : (loop'.ibEntry < rgb.length ∨ loop'.jpos = none)
        ↔ ¬loop.ibEntry + cb = rgb.length := by
      rw [hib, hjpos']
      simp only [reduceCtorEq, or_false]
      omega
    -- what remains is what the visitor makes of the region
    suffices hmain : (j'.visitor k).m_err = none ∧
        if InSight k loop'.rgisegment then
          Tracks rgb (some jpos) (loop.ibEntry + cb) (j'.visitor k) ∧
            (j'.visitor k).rgvisited = rgvisited ++
              if loop.ibEntry + cb = rgb.length then [(some jpos, some region.rposEnd, rgb)]
              else []
        else (j'.visitor k).m_jpos = none ∧ (j'.visitor k).rgvisited = rgvisited by
      obtain ⟨hsound, hsight⟩ := hmain
      by_cases hdone : loop.ibEntry + cb = rgb.length
      · rw [if_neg (by rw [hguard']; exact not_not_intro hdone)]
        refine ⟨hsound, ?_, by rw [hjpos', hjposEnd]; exact ⟨rfl, rfl⟩⟩
        rw [hjpos', hjposEnd]
        split at hsight
        · next hin => rw [hsight.2, if_pos hin]
        · next hin => rw [hsight.2, if_neg hin, List.append_nil]
      · rw [if_pos (hguard'.2 hdone)]
        refine ⟨hsound, ?_, by rw [hrgb', hib], by rw [hib]; exact hcb, fun _ => ?_⟩
        · split at hsight
          · rw [hsight.2, List.append_nil]
          · exact hsight.2
        · rw [hib]
          refine ⟨jpos, hjpos', ?_⟩
          split at hsight
          · next hin => rw [if_pos hin]; exact hsight.1
          · next hin => rw [if_neg hin]; exact hsight.1
    rcases Nat.lt_or_ge k j.rgsegment.length with hk | hk
    · have hv := hvisitor hk h.sound
      have hlast : InSight k loop'.rgisegment
          ↔ loop.ibEntry = 0 ∨ InSight k loop.rgisegment := by
        rw [hseg, inSight_append_singleton, and_iff_left (by omega)]
        split
        · next h0 => exact iff_of_true (fun _ hi => absurd hi List.not_mem_nil) (.inl h0)
        · next h0 => rw [or_iff_right h0]
      rw [hv]
      rcases Nat.eq_zero_or_pos loop.ibEntry with h0 | hpos
      · obtain ⟨hsound, htracks, hvisited⟩ := fVisitRegion_first hrgb hcb hjb h0 h.sound
        have hjposr : jpos = region.rpos := by
          rw [hjpos, if_pos h0] at hjpos'
          exact (Option.some.inj hjpos').symm
        rw [if_pos (hlast.2 (.inl h0)), ← h.visited, hjposr]
        exact ⟨hsound, htracks, hvisited⟩
      · obtain ⟨jpos₀, hjpos₀, htracks⟩ := h.seen hpos
        rw [or_iff_right (by omega)] at hlast
        rw [hjpos, if_neg (by omega), hjpos₀] at hjpos'
        rw [Option.some.inj hjpos'] at htracks
        by_cases hsight : InSight k loop.rgisegment
        · rw [if_pos hsight] at htracks
          obtain ⟨hsound, htracks', hvisited⟩ :=
            fVisitRegion_next hrgb hcb hjb hpos (hlt hpos) h.sound htracks
          rw [if_pos (hlast.2 hsight), ← h.visited]
          exact ⟨hsound, htracks', hvisited⟩
        · rw [if_neg hsight] at htracks
          have hskip := fVisitRegion_skip hrgb hjb hpos (hlt hpos)
            (by rw [fragment_length hcb hjb]; omega) htracks
          rw [if_neg (fun hin => hsight (hlast.1 hin)), hskip]
          exact ⟨h.sound, htracks, h.visited⟩
    · -- the last segment is out of sight, and so is all before it
      have hv := EntryJournal.visitor_of_le hk
      have hv' : j'.visitor k = .init := EntryJournal.visitor_of_le (hlength ▸ hk)
      have hsight : ¬InSight k loop'.rgisegment := by
        rw [hseg, inSight_append_singleton]
        omega
      have hvisited := h.visited
      rw [hv] at hvisited
      rw [if_neg hsight, hv']
      exact ⟨rfl, rfl, hvisited⟩

/-- A run of the loop, by induction on the attempts. -/
theorem Pending.appendEntryLoop (hrgb : rgb.length < cbEntryMax) (rgattempt : List Attempt)
    (h : Pending k rgb rgvisited j loop)
    (hguard : loop.ibEntry < rgb.length ∨ loop.jpos = none) {res : Except ERR AppendLoop}
    {j' : EntryJournal}
    (hrun : Journal.appendEntryLoop rgb.length rgattempt j loop = some (res, j')) :
    Returned k rgb rgvisited j' res := by
  induction rgattempt generalizing j loop with
  | nil =>
    rw [Journal.appendEntryLoop, if_pos hguard] at hrun
    cases hrun
  | cons a rgattempt ih =>
    rw [Journal.appendEntryLoop, if_pos hguard] at hrun
    cases hget : j.errGetAppendSegment loop.fForceNewSegment a with
    | error err =>
      simp only [hget, Option.some.injEq, Prod.mk.injEq] at hrun
      obtain ⟨rfl, rfl⟩ := hrun
      exact ⟨h.sound, h.visited⟩
    | ok j₁ =>
      simp only [hget] at hrun
      obtain ⟨hne, -, hvisitor⟩ := EntryJournal.visitor_getAppendSegment (k := k) hget
      have h₁ : Pending k rgb rgvisited j₁ loop := by
        refine ⟨by rw [hvisitor]; exact h.sound, by rw [hvisitor]; exact h.visited, h.rgb_eq,
          h.ibEntry_le, ?_⟩
        rw [hvisitor]
        exact h.seen
      cases hstep : j₁.appendFragment rgb.length a.cbRoom loop with
      | mk j₂ loop₂ =>
      rw [hstep] at hrun
      have h₂ := h₁.appendFragment hrgb a.cbRoom hne hguard hstep
      split at h₂
      · next hguard' => exact ih h₂ hguard' hrun
      · next hguard' =>
        have hres : Except.ok loop₂ = res ∧ j₂ = j' := by
          cases rgattempt <;> rw [Journal.appendEntryLoop, if_neg hguard'] at hrun <;>
            simpa using hrun
        obtain ⟨rfl, rfl⟩ := hres
        exact h₂

/-! ## All calls -/

/-- What a visitor from the `k`-th segment on makes of the entries. -/
def visible (k : Nat) (rgentry : List Appended) : List (Option Nat × Option Nat × List Byte) :=
  (rgentry.filter fun entry => InSight k entry.rgisegment).map fun entry =>
    (entry.jpos, entry.jposEnd, entry.rgb)

/-- A call returns, and the visitor has one more entry or the same ones. -/
theorem EntryJournal.errAppendEntry_spec {call : AppendCall} {res : Except ERR AppendLoop}
    {j' : EntryJournal} (h : j.errAppendEntry call = some (res, j'))
    (herr : (j.visitor k).m_err = none) :
    Returned k call.rgb (j.visitor k).rgvisited j' res := by
  unfold errAppendEntry at h
  split at h
  · cases h
    exact ⟨herr, rfl⟩
  next hmax =>
  split at h
  · cases h
    exact ⟨herr, rfl⟩
  split at h
  · cases h
    exact ⟨herr, rfl⟩
  · refine Pending.appendEntryLoop (by omega) call.rgattempt ?_ (.inr rfl) h
    exact ⟨herr, rfl, rfl, Nat.zero_le _, fun hpos => absurd hpos (Nat.lt_irrefl 0)⟩

theorem appendEntries_visitor {rgcall : List AppendCall} {j' : EntryJournal}
    {rgentry : List Appended} (h : appendEntries rgcall j = some (j', rgentry))
    (herr : (j.visitor k).m_err = none) :
    (j'.visitor k).m_err = none ∧
      (j'.visitor k).rgvisited = (j.visitor k).rgvisited ++ visible k rgentry ∧
      ∀ entry ∈ rgentry, entry.jpos.isSome ∧ entry.jposEnd.isSome := by
  induction rgcall generalizing j rgentry with
  | nil =>
    simp only [appendEntries, Option.some.injEq, Prod.mk.injEq] at h
    obtain ⟨rfl, rfl⟩ := h
    exact ⟨herr, (List.append_nil _).symm, fun _ hmem => absurd hmem List.not_mem_nil⟩
  | cons call rgcall ih =>
    unfold appendEntries at h
    split at h
    · cases h
    next res j₁ hcall =>
    have hspec := EntryJournal.errAppendEntry_spec (k := k) hcall herr
    split at h
    · cases h
    next j₂ rgentry₁ hcalls =>
    split at h
    · obtain ⟨hsound, hvisited⟩ := hspec
      cases h
      rw [← hvisited]
      exact ih hcalls hsound
    · obtain ⟨hsound, hvisited, hvalid⟩ := hspec
      cases h
      obtain ⟨hsound', hvisited', hvalid'⟩ := ih hcalls hsound
      refine ⟨hsound', ?_, List.forall_mem_cons.2 ⟨hvalid, hvalid'⟩⟩
      rw [hvisited', hvisited, List.append_assoc]
      unfold visible
      rw [List.filter_cons]
      split
      · next hsight => simp only [hsight, decide_true, if_true, List.map_cons, List.cons_append,
          List.nil_append]
      · next hsight => simp only [hsight, decide_false, Bool.false_eq_true, if_false,
          List.nil_append]

/-- Whatever the calls met while they appended to an empty journal, the segments from the `k`-th on
are visited without an error, and the entries visited are those that are in sight, in the order in
which they were appended, with the bytes that were appended and the positions that were returned. -/
theorem errVisitEntries_appendEntries (rgcall : List AppendCall) (sposAppend : Nat)
    (j : EntryJournal) (rgentry : List Appended) (sposDurable k : Nat)
    (h : appendEntries rgcall ⟨sposAppend, []⟩ = some (j, rgentry)) :
    errVisitEntries sposDurable (j.segmentsFrom k) =
        (none, (rgentry.filter fun entry => ∀ i ∈ entry.rgisegment, k ≤ i).map fun entry =>
          (entry.jpos, entry.jposEnd, entry.rgb)) ∧
      ∀ entry ∈ rgentry, entry.jpos.isSome ∧ entry.jposEnd.isSome := by
  have hinit : (EntryJournal.mk sposAppend []).visitor k = .init :=
    EntryJournal.visitor_of_le (Nat.zero_le k)
  obtain ⟨hsound, hvisited, hvalid⟩ := appendEntries_visitor (k := k) h (by rw [hinit]; rfl)
  rw [hinit] at hvisited
  refine ⟨?_, hvalid⟩
  have hpev := CEntryVisitor.visitSegments_eq sposDurable (j.rgsegment.drop k) hsound
  unfold errVisitEntries EntryJournal.segmentsFrom
  dsimp only
  rw [hpev]
  exact Prod.ext hsound hvisited

/-- An entry in three segments, then one that is given up, then one of no bytes: from the second
segment on only the last one is in sight. -/
theorem errVisitEntries_appendEntries_abandoned :
    ∃ j rgentry, appendEntries
        [⟨[1, 2, 3, 4, 5], false, none, [⟨false, none, 6⟩, ⟨false, none, 5⟩, ⟨false, none, 90⟩]⟩,
          ⟨[6, 7], false, none, [⟨false, none, 5⟩, ⟨false, some (.io 0), 0⟩]⟩,
          ⟨[], false, none, [⟨true, none, 40⟩]⟩] ⟨4096, []⟩ = some (j, rgentry) ∧
      errVisitEntries 0 (j.segmentsFrom 0) =
        (none, [(some 8236, some 16437, [1, 2, 3, 4, 5]), (some 20524, some 20531, [])]) ∧
      errVisitEntries 0 (j.segmentsFrom 1) = (none, [(some 20524, some 20531, [])]) := by
  have hrun : appendEntries
        [⟨[1, 2, 3, 4, 5], false, none, [⟨false, none, 6⟩, ⟨false, none, 5⟩, ⟨false, none, 90⟩]⟩,
          ⟨[6, 7], false, none, [⟨false, none, 5⟩, ⟨false, some (.io 0), 0⟩]⟩,
          ⟨[], false, none, [⟨true, none, 40⟩]⟩] ⟨4096, []⟩
      = some (⟨20480, [⟨8192, [⟨8236, 8245, [5, 0, 0, 0, 1, 2]⟩]⟩,
          ⟨12288, [⟨12332, 12340, [0xfd, 0xff, 0xff, 0xff, 3]⟩]⟩,
          ⟨16384, [⟨16428, 16437, [0xfe, 0xff, 0xff, 0xff, 4, 5]⟩,
            ⟨16438, 16446, [2, 0, 0, 0, 6]⟩]⟩,
          ⟨20480, [⟨20524, 20531, [0, 0, 0, 0]⟩]⟩]⟩,
        [⟨some 8236, some 16437, [1, 2, 3, 4, 5], [0, 1, 2], []⟩,
          ⟨some 20524, some 20531, [], [3], []⟩]) := by decide +kernel
  exact ⟨_, _, hrun, (errVisitEntries_appendEntries _ 4096 _ _ 0 0 hrun).1,
    (errVisitEntries_appendEntries _ 4096 _ _ 0 1 hrun).1⟩

/-- A first fragment may be no more than its header, at the end of a segment. The entry then starts
over in the next segment, and is visited from there although its first fragment is out of sight. -/
theorem errVisitEntries_header_alone :
    ¬∀ (rgcall : List AppendCall) (sposAppend : Nat) (j : EntryJournal) (rgentry : List Appended)
      (sposDurable k : Nat), appendEntries rgcall ⟨sposAppend, []⟩ = some (j, rgentry) →
      errVisitEntries sposDurable (j.segmentsFrom k) =
        (none, (rgentry.filter fun entry =>
          ∀ i ∈ entry.rgisegmentEmpty ++ entry.rgisegment, k ≤ i).map fun entry =>
          (entry.jpos, entry.jposEnd, entry.rgb)) := by
  intro h
  have hrun : appendEntries [⟨[6], false, none, [⟨false, none, 90⟩]⟩,
          ⟨[7], false, none, [⟨false, none, 4⟩, ⟨false, none, 90⟩]⟩] ⟨4096, []⟩
      = some (⟨12288, [⟨8192, [⟨8236, 8244, [1, 0, 0, 0, 6]⟩, ⟨8245, 8252, [1, 0, 0, 0]⟩]⟩,
          ⟨12288, [⟨12332, 12340, [1, 0, 0, 0, 7]⟩]⟩]⟩,
        [⟨some 8236, some 8244, [6], [0], []⟩, ⟨some 12332, some 12340, [7], [1], [0]⟩]) := by
    decide +kernel
  exact absurd (h _ _ _ _ 0 1 hrun) (by decide +kernel)

/-- An entry of no bytes is retried in the same segment, so where its header does not fit the call
does not return. -/
theorem errAppendEntry_no_bytes {j : EntryJournal} (hne : j.rgsegment ≠ [])
    (rgattempt : List Attempt)
    (hroom : ∀ a ∈ rgattempt, a.fSealed = false ∧ a.cbRoom < cbJournalEntryFragment) :
    j.errAppendEntry ⟨[], false, none, rgattempt⟩ = none := by
  suffices hloop : ∀ loop : AppendLoop, loop.ibEntry = 0 → loop.jpos = none →
      loop.fForceNewSegment = false → appendEntryLoop 0 rgattempt j loop = none from
    hloop _ rfl rfl rfl
  induction rgattempt with
  | nil =>
    intro loop _ hjpos _
    rw [appendEntryLoop, if_pos (.inr hjpos)]
  | cons a rgattempt ih =>
    obtain ⟨⟨hsealed, hlt⟩, hroom⟩ := List.forall_mem_cons.1 hroom
    intro loop hib hjpos hforce
    rw [appendEntryLoop, if_pos (.inr hjpos)]
    have hget : j.errGetAppendSegment loop.fForceNewSegment a = .ok j := by
      unfold EntryJournal.errGetAppendSegment
      rw [if_neg (by simp [hforce, hsealed, hne])]
    have hnot : ¬cbJournalEntryFragment ≤ a.cbRoom := by omega
    rw [hget]
    dsimp only
    unfold EntryJournal.appendFragment cbPayloadActual
    simp only [hnot, if_false, if_true]
    exact ih hroom _ hib (if_pos hib) (by simp [hib])

end Ese.Journal
