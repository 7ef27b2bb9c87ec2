import Ese.Journal.SegmentManager

/-!
# The end of the journal

A recovery looks for the last segment of the ring by a binary search: an uninitialized segment
counts as one whose position is its own offset in the ring, which is less than any position that was
ever written, and so the ring is a rotation of an ascending sequence, save for the writes that were
lost. The search keeps the midpoint as its new minimum, and stops at a segment whose successor has a
smaller position. Without a lost write there is only one such segment, which is the one that the
linear search finds.
-/

namespace Ese.Journal

/-- The checksum of the segment is wrong. -/
def JET_errReadVerifyFailure : Int := -1018

/-- The segment has never been written. -/
def JET_errPageNotInitialized : Int := -1019

/-- The disk reports a checksum error. -/
def JET_errDiskReadVerificationFailure : Int := -1021

/-- A write of the segment is lost. -/
def JET_errReadLostFlushVerifyFailure : Int := -1119

/-- Whether the load says what the segment is, damaged or not. -/
def fVerificationError (err : Int) : Bool :=
  err = 0 ∨ err = JET_errReadVerifyFailure ∨ err = JET_errPageNotInitialized ∨
    err = JET_errDiskReadVerificationFailure ∨ err = JET_errReadLostFlushVerifyFailure

/-- A segment as the recovery sees it: none, with the error of the load, if it could not be
verified. -/
structure RecoverySegment where
  pjs : Option CJournalSegmentHeader
  errSegment : Int
  spos : Nat

/-- The state of the binary search, and the offsets that it has loaded. -/
structure Search where
  ibMin : Nat
  ibMax : Nat
  pjsMin : Option CJournalSegmentHeader
  sposMin : Nat
  ibMid : Nat
  pjsMid : Option CJournalSegmentHeader
  rgibLoaded : List Nat

/-- The last segment found, and where segments were loaded on the way. -/
structure FoundLast where
  ibLast : Nat
  pjsLast : Option CJournalSegmentHeader
  fEmpty : Bool
  rgibLoaded : List Nat

section
variable (m_ib m_cb : Nat) (errLoadSegment : Nat → Except Int CJournalSegmentHeader)

/-- `ErrLoadSegmentForRecovery`: a damaged segment gets the position of its place. -/
def errLoadSegmentForRecovery (ib : Nat) : Except Int RecoverySegment :=
  let segment : Except Int RecoverySegment :=
    match errLoadSegment ib with
    | .ok pjs => .ok ⟨some pjs, 0, pjs.spos⟩
    | .error err => if fVerificationError err then .ok ⟨none, err, ib - m_ib⟩ else .error err
  match segment with
  | .error err => .error err
  | .ok segment =>
    if m_ib + segment.spos / cbJournalSegment % (m_cb / cbJournalSegment) * cbJournalSegment ≠ ib
      then
      .error JET_errReadVerifyFailure
    else .ok segment

/-- A load of the binary search, which does not go on after an error. -/
def errLoadForSearch (ib : Nat) : Except Int RecoverySegment :=
  match errLoadSegmentForRecovery m_ib m_cb errLoadSegment ib with
  | .error err => .error err
  | .ok segment =>
    if segment.errSegment ≠ 0 ∧ segment.errSegment ≠ JET_errPageNotInitialized
      then .error segment.errSegment
    else .ok segment

/-- The loop of the binary search, for at most `n` rounds. -/
def searchLoop : Nat → Search → Option (Except Int Search)
  | 0, _ => none
  | n + 1, s =>
    if s.ibMin < s.ibMax then
      let ibMid := (s.ibMin + (s.ibMax - s.ibMin) / 2) / cbJournalSegment * cbJournalSegment
      match errLoadForSearch m_ib m_cb errLoadSegment ibMid with
      | .error err => some (.error err)
      | .ok mid =>
        if s.sposMin < mid.spos then
          searchLoop n { s with ibMin := ibMid, pjsMin := mid.pjs, sposMin := mid.spos,
                                ibMid := ibMid, pjsMid := none,
                                rgibLoaded := ibMid :: s.rgibLoaded }
        else
          searchLoop n { s with ibMax := ibMid, ibMid := ibMid, pjsMid := mid.pjs,
                                rgibLoaded := ibMid :: s.rgibLoaded }
    else some (.ok s)

/-- The segment that the search has ended at, which is loaded again unless it is still there. -/
def errFetchLast (s : Search) : Except Int FoundLast :=
  if s.ibMax = s.ibMin ∧ s.pjsMin.isSome then .ok ⟨s.ibMax, s.pjsMin, s.pjsMin.isNone, s.rgibLoaded⟩
  else if s.ibMax = s.ibMid ∧
    s.pjsMid.isSome then .ok ⟨s.ibMax, s.pjsMid, s.pjsMid.isNone, s.rgibLoaded⟩
  else
    match errLoadSegment s.ibMax with
    | .ok pjs => .ok ⟨s.ibMax, some pjs, false, s.ibMax :: s.rgibLoaded⟩
    | .error err =>
      if err = JET_errPageNotInitialized then .ok ⟨s.ibMax, none, true, s.ibMax :: s.rgibLoaded⟩
      else .error err

/-- A verification error ends a search without an error and without a segment. -/
def handleError : Except Int FoundLast → Except Int FoundLast
  | .ok found => .ok found
  | .error err => if fVerificationError err then .ok ⟨0, none, false, []⟩ else .error err

/-- `ErrFindLastSegmentWithBinarySearch`. -/
def errFindLastSegmentWithBinarySearch (n : Nat) : Option (Except Int FoundLast) :=
  match errLoadForSearch m_ib m_cb errLoadSegment m_ib with
  | .error err => some (handleError (.error err))
  | .ok min =>
    match searchLoop m_ib m_cb errLoadSegment n ⟨m_ib, m_ib + m_cb, min.pjs, min.spos, 0, none,
      [m_ib]⟩ with
    | none => none
    | some (.error err) => some (handleError (.error err))
    | some (.ok s) => some (handleError (errFetchLast errLoadSegment s))

/-- The loop of the linear search, over `n` segments. -/
def linearLoop : Nat → Nat → Nat → Option CJournalSegmentHeader → Nat →
    Except Int (Nat × Option CJournalSegmentHeader)
  | 0, _, ibLast, pjsLast, _ => .ok (ibLast, pjsLast)
  | n + 1, ib, ibLast, pjsLast, sposLast =>
    match errLoadSegmentForRecovery m_ib m_cb errLoadSegment ib with
    | .error err => .error err
    | .ok segment =>
      if segment.pjs.isNone ∧ segment.errSegment ≠ JET_errPageNotInitialized then
        linearLoop n (ib + cbJournalSegment) ibLast pjsLast sposLast
      else if pjsLast.isNone ∨ sposLast < segment.spos then
        linearLoop n (ib + cbJournalSegment) ib segment.pjs segment.spos
      else linearLoop n (ib + cbJournalSegment) ibLast pjsLast sposLast

/-- The offsets below `m_ib + m_cb`, from `m_ib` on. -/
def errFindLastSegmentWithLinearSearch : Except Int (Nat × Option CJournalSegmentHeader) :=
  match linearLoop m_ib m_cb errLoadSegment ((m_cb + cbJournalSegment - 1) / cbJournalSegment) m_ib
    m_cb none 0 with
  | .ok found => .ok found
  | .error err => if fVerificationError err then .ok (0, none) else .error err

end

/-! ## The ring -/

/-- A ring of `cseg` segments: the segments that are in the file, and the number of segments that
were appended. -/
structure AppendRing where
  m_ib : Nat
  cseg : Nat
  file : Nat → Option CJournalSegmentHeader
  cAppend : Nat

namespace AppendRing

variable (rng : AppendRing)

/-- The size of the ring. -/
def m_cb : Nat := rng.cseg * cbJournalSegment

/-- The offset of the segment at an index. -/
def ibOf (i : Nat) : Nat := rng.m_ib + i * cbJournalSegment

/-- The next segment is appended. Its position is that of the last one, plus the size of a segment,
and the first position is the size of the ring. -/
def append (fLost : Bool) (pjs : CJournalSegmentHeader) : AppendRing :=
  let spos := rng.m_cb + rng.cAppend * cbJournalSegment
  { rng with
    file := if fLost then rng.file
      else Function.update rng.file (rng.ibOf (spos / cbJournalSegment % rng.cseg))
      (some { pjs with spos := spos })
    cAppend := rng.cAppend + 1 }

/-- A ring that nothing was appended to. -/
def empty (m_ib cseg : Nat) : AppendRing := ⟨m_ib, cseg, fun _ => none, 0⟩

/-- Segments appended in order, each with whether its write is lost. -/
def appends (rng : AppendRing) (rgappend : List (Bool × CJournalSegmentHeader)) : AppendRing :=
  rgappend.foldl (fun rng a => rng.append a.1 a.2) rng

/-- A segment that was never written is not initialized. -/
def errLoadSegment (ib : Nat) : Except Int CJournalSegmentHeader :=
  match rng.file ib with
  | some pjs => .ok pjs
  | none => .error JET_errPageNotInitialized

/-- The position of the segment at an index, as the recovery sees it. -/
def spos (i : Nat) : Nat :=
  match rng.file (rng.ibOf i) with
  | some pjs => pjs.spos
  | none => i * cbJournalSegment

/-- What the segments of the ring are: that at index `i` holds one of the positions of that index,
and the first segment is there if any is. -/
structure Placed : Prop where
  valid : ∀ i < rng.cseg, ∀ pjs, rng.file (rng.ibOf i) = some pjs →
    ∃ k < rng.cAppend, k % rng.cseg = i ∧ pjs.spos = (rng.cseg + k) * cbJournalSegment
  first : 0 < rng.cAppend → (rng.file (rng.ibOf 0)).isSome

/-- No write was lost. -/
def Complete : Prop := ∀ k < rng.cAppend, rng.cAppend ≤ k + rng.cseg →
  ∃ pjs, rng.file (rng.ibOf (k % rng.cseg)) = some pjs ∧
  pjs.spos = (rng.cseg + k) * cbJournalSegment

/-! ## The appends -/

section
variable {rng : AppendRing} {fLost : Bool} {pjs : CJournalSegmentHeader} {i j : Nat}

/-- Different segments are at different places. -/
theorem ibOf_inj : rng.ibOf i = rng.ibOf j ↔ i = j := by
  rw [ibOf, ibOf, cbJournalSegment]
  omega

/-- The place of the next segment. -/
theorem index_append : (rng.m_cb + rng.cAppend * cbJournalSegment) / cbJournalSegment % rng.cseg =
    rng.cAppend % rng.cseg := by
  rw [m_cb, ← Nat.add_mul, Nat.mul_div_cancel _ (show 0 < cbJournalSegment by decide),
    Nat.add_mod_left]

/-- An append that is not lost replaces the segment at its place. -/
theorem file_append : (rng.append false pjs).file (rng.ibOf i) =
    if rng.cAppend % rng.cseg = i
    then some { pjs with spos := (rng.cseg + rng.cAppend) * cbJournalSegment }
    else rng.file (rng.ibOf i) := by
  have hspos : rng.m_cb + rng.cAppend * cbJournalSegment = (rng.cseg + rng.cAppend) *
    cbJournalSegment := by
    rw [m_cb, Nat.add_mul]
  have hfile : (rng.append false pjs).file = Function.update rng.file
      (rng.ibOf (rng.cAppend % rng.cseg))
      (some { pjs with spos := (rng.cseg + rng.cAppend) * cbJournalSegment }) := by
    rw [← hspos, ← index_append]
    rfl
  rw [hfile]
  split_ifs with heq
  · rw [heq, Function.update_self]
  · rw [Function.update_of_ne fun h => heq (ibOf_inj.1 h).symm]

/-- An append puts the segment at the place of its position. -/
theorem Placed.append (h : rng.Placed) (hfirst : rng.cAppend = 0 → fLost = false) :
    (rng.append fLost pjs).Placed := by
  cases fLost with
  | true =>
    refine ⟨fun i hi pjs' hpjs => ?_, fun _ =>
      h.first (Nat.pos_of_ne_zero fun h0 => Bool.noConfusion (hfirst h0))⟩
    obtain ⟨k, hk, hmod, hspos⟩ := h.valid i hi pjs' hpjs
    exact ⟨k, Nat.lt_succ_of_lt hk, hmod, hspos⟩
  | false =>
    refine ⟨fun i hi pjs' hpjs => ?_, fun _ => ?_⟩
    · change (rng.append false pjs).file (rng.ibOf i) = some pjs' at hpjs
      rw [@file_append rng pjs i] at hpjs
      split_ifs at hpjs with heq
      · obtain rfl := Option.some.inj hpjs
        exact ⟨rng.cAppend, Nat.lt_succ_self _, heq, rfl⟩
      · obtain ⟨k, hk, hmod, hspos⟩ := h.valid i hi pjs' hpjs
        exact ⟨k, Nat.lt_succ_of_lt hk, hmod, hspos⟩
    · change ((rng.append false pjs).file (rng.ibOf 0)).isSome
      rw [file_append]
      split_ifs with heq
      · rfl
      · refine h.first (Nat.pos_of_ne_zero fun h0 => heq ?_)
        rw [h0, Nat.zero_mod]

/-- An append that is not lost leaves the ring complete. -/
theorem Complete.append (h : rng.Complete) : (rng.append false pjs).Complete := by
  intro k hk hlast
  change k < rng.cAppend + 1 at hk
  change rng.cAppend + 1 ≤ k + rng.cseg at hlast
  have hfile := @file_append rng pjs (k % rng.cseg)
  rcases Nat.lt_succ_iff_lt_or_eq.1 hk with hlt | rfl
  · -- the new segment is at another index than the ones before it
    have hne : rng.cAppend % rng.cseg ≠ k % rng.cseg := by
      intro heq
      have hdvd := Nat.dvd_of_mod_eq_zero (Nat.sub_mod_eq_zero_of_mod_eq heq)
      have hle := Nat.le_of_dvd (by omega) hdvd
      omega
    rw [if_neg hne] at hfile
    obtain ⟨pjs', hpjs, hspos⟩ := h k hlt (by omega)
    exact ⟨pjs', hfile.trans hpjs, hspos⟩
  · rw [if_pos rfl] at hfile
    exact ⟨_, hfile, rfl⟩

/-- In an empty ring every segment is in its place. -/
theorem placed_empty (m_ib cseg : Nat) : (empty m_ib cseg).Placed :=
  ⟨fun _ _ _ h => absurd h.symm (Option.some_ne_none _), fun h => absurd h (Nat.lt_irrefl 0)⟩

/-- An empty ring is complete. -/
theorem complete_empty (m_ib cseg : Nat) : (empty m_ib cseg).Complete :=
  fun k hk => absurd hk (Nat.not_lt_zero k)

/-- What the appends keep. The first write is not lost, and so neither is any that an append finds
the ring empty at. -/
theorem Placed.appends {rgappend : List (Bool × CJournalSegmentHeader)} (h : rng.Placed)
    (hfirst : rng.cAppend = 0 → ∀ a ∈ rgappend.head?, a.1 = false) :
    (rng.appends rgappend).Placed ∧ (rng.appends rgappend).cseg = rng.cseg ∧
      (rng.appends rgappend).m_ib = rng.m_ib ∧
        (rng.appends rgappend).cAppend = rng.cAppend + rgappend.length := by
  induction rgappend generalizing rng with
  | nil => exact ⟨h, rfl, rfl, rfl⟩
  | cons a rgappend ih =>
    obtain ⟨hplaced, hcseg', hib, hcount⟩ :=
      @ih (rng.append a.1 a.2) (h.append fun h0 => hfirst h0 a rfl)
      fun h0 => absurd h0 (Nat.succ_ne_zero _)
    refine ⟨hplaced, hcseg', hib, hcount.trans ?_⟩
    rw [List.length_cons, show (rng.append a.1 a.2).cAppend = rng.cAppend + 1 from rfl]
    omega

/-- Appends that are not lost leave the ring complete. -/
theorem Complete.appends {rgappend : List (Bool × CJournalSegmentHeader)} (h : rng.Complete)
    (hlost : ∀ a ∈ rgappend, a.1 = false) : (rng.appends rgappend).Complete := by
  induction rgappend generalizing rng with
  | nil => exact h
  | cons a rgappend ih =>
    obtain ⟨fLost, pjs⟩ := a
    obtain rfl : fLost = false := hlost (fLost, pjs) List.mem_cons_self
    exact @ih (rng.append false pjs) h.append fun a ha => hlost a (List.mem_cons_of_mem _ ha)

end

/-! ## The positions of a ring -/

section
variable {rng : AppendRing} {i j : Nat}

/-- The position of a segment that is there. -/
theorem spos_some {pjs : CJournalSegmentHeader} (h : rng.file (rng.ibOf i) = some pjs) :
    rng.spos i = pjs.spos := by
  rw [spos, h]

/-- The position of a segment that is not there. -/
theorem spos_none (h : rng.file (rng.ibOf i) = none) : rng.spos i = i * cbJournalSegment := by
  rw [spos, h]

/-- A position is that of its index. -/
theorem Placed.index (h : rng.Placed) (hi : i < rng.cseg) :
    rng.spos i / cbJournalSegment % rng.cseg = i := by
  cases hfile : rng.file (rng.ibOf i) with
  | none => rw [spos_none hfile, Nat.mul_div_cancel _ (show 0 < cbJournalSegment by decide),
    Nat.mod_eq_of_lt hi]
  | some pjs =>
    obtain ⟨k, -, hmod, hspos⟩ := h.valid i hi pjs hfile
    rw [spos_some hfile, hspos, Nat.mul_div_cancel _ (show 0 < cbJournalSegment by decide),
      Nat.add_mod_left, hmod]

/-- Segments in their places have different positions. -/
theorem Placed.inj (h : rng.Placed) (hi : i < rng.cseg) (hj : j < rng.cseg)
    (heq : rng.spos i = rng.spos j) : i = j := by
  rw [← h.index hi, heq, h.index hj]

/-- An uninitialized segment is before any that was written. -/
theorem Placed.spos_lt_iff (h : rng.Placed) (hi : i < rng.cseg) :
    rng.spos i < rng.m_cb ↔ rng.file (rng.ibOf i) = none := by
  cases hfile : rng.file (rng.ibOf i) with
  | none =>
    rw [spos_none hfile, m_cb]
    exact iff_of_true (Nat.mul_lt_mul_of_pos_right hi (by decide)) rfl
  | some pjs =>
    obtain ⟨k, -, -, hspos⟩ := h.valid i hi pjs hfile
    rw [spos_some hfile, hspos, m_cb]
    exact iff_of_false (Nat.not_lt.2 (Nat.mul_le_mul_right _ (Nat.le_add_right _ k)))
      (Option.some_ne_none _)

/-- A segment is at its first round or a later one. -/
theorem Placed.le_spos (h : rng.Placed) (hi : i < rng.cseg) :
    i * cbJournalSegment ≤ rng.spos i := by
  cases hfile : rng.file (rng.ibOf i) with
  | none => exact (spos_none hfile).ge
  | some pjs =>
    refine (Nat.mul_le_mul_right _ hi.le).trans (Nat.le_of_not_lt fun hlt => ?_)
    exact absurd ((h.spos_lt_iff hi).1 hlt) (by rw [hfile]; exact Option.some_ne_none _)

/-- The load of a segment of the ring. -/
theorem Placed.errLoadSegmentForRecovery_eq (h : rng.Placed) (hi : i < rng.cseg) :
    errLoadSegmentForRecovery rng.m_ib rng.m_cb rng.errLoadSegment (rng.ibOf i) =
      .ok ⟨rng.file (rng.ibOf i), if (rng.file (rng.ibOf i)).isSome then 0
        else JET_errPageNotInitialized, rng.spos i⟩ := by
  have hindex := h.index hi
  have hcseg : rng.m_cb / cbJournalSegment = rng.cseg :=
    Nat.mul_div_cancel _ (show 0 < cbJournalSegment by decide)
  rw [errLoadSegmentForRecovery, errLoadSegment, hcseg]
  cases hfile : rng.file (rng.ibOf i) with
  | none =>
    rw [spos_none hfile] at hindex
    have hoffset : rng.ibOf i - rng.m_ib = i * cbJournalSegment := Nat.add_sub_cancel_left _ _
    have hverify : fVerificationError JET_errPageNotInitialized = true := rfl
    simp only [hverify, if_true, hoffset, hindex, spos_none hfile]
    exact if_neg (not_not.2 rfl)
  | some pjs =>
    rw [spos_some hfile] at hindex
    simp only [hindex, spos_some hfile]
    exact if_neg (not_not.2 rfl)

/-- Every load of a ring with the segments in their places succeeds. -/
theorem Placed.errLoadForSearch_eq (h : rng.Placed) (hi : i < rng.cseg) :
    ∃ errSegment, errLoadForSearch rng.m_ib rng.m_cb rng.errLoadSegment (rng.ibOf i) =
      .ok ⟨rng.file (rng.ibOf i), errSegment, rng.spos i⟩ := by
  rw [errLoadForSearch, h.errLoadSegmentForRecovery_eq hi]
  cases rng.file (rng.ibOf i) with
  | none => exact ⟨_, rfl⟩
  | some pjs => exact ⟨_, rfl⟩

end

/-! ## The binary search -/

section
variable {rng : AppendRing} {s : Search} {a b r : Nat}

/-- The successor of a segment on the ring has a smaller position. -/
def Peak (rng : AppendRing) (r : Nat) : Prop := rng.spos ((r + 1) % rng.cseg) < rng.spos r

/-- The search is at the segments `a` and `b`. What is behind `b` is before the minimum, or else `b`
is past the last segment; once the two have met, that holds of the segment behind them. -/
structure Searches (rng : AppendRing) (s : Search) (a b : Nat) : Prop where
  ibMin : s.ibMin = rng.ibOf a
  ibMax : s.ibMax = rng.ibOf b
  lt : a < rng.cseg
  le : b ≤ rng.cseg
  sposMin : s.sposMin = rng.spos a
  pjsMin : s.pjsMin = rng.file (rng.ibOf a)
  pjsMid : s.pjsMid.isSome → s.pjsMid = rng.file s.ibMid
  start : rng.spos 0 ≤ rng.spos a
  bound : a < b ∧ (b = rng.cseg ∨ rng.spos b < rng.spos a) ∨ a = b ∧
    (a + 1 = rng.cseg ∨ rng.spos (a + 1) < rng.spos a)
  loaded : ∀ ib ∈ s.rgibLoaded, rng.m_ib ≤ ib ∧ ib < rng.m_ib + rng.m_cb

/-- Places are in the order of the segments. -/
theorem ibOf_lt : rng.ibOf a < rng.ibOf b ↔ a < b := by
  rw [ibOf, ibOf, cbJournalSegment]
  omega

/-- The offsets of the ring. -/
theorem ibOf_mem (h : a < rng.cseg) : rng.m_ib ≤ rng.ibOf a ∧ rng.ibOf a < rng.m_ib + rng.m_cb :=
  ⟨Nat.le_add_right _ _, Nat.add_lt_add_left (Nat.mul_lt_mul_of_pos_right h (by decide)) _⟩

/-- The midpoint of an aligned ring is a segment. -/
theorem ibOf_mid (haligned : cbJournalSegment ∣ rng.m_ib) (h : a ≤ b) :
    (rng.ibOf a + (rng.ibOf b - rng.ibOf a) / 2) / cbJournalSegment * cbJournalSegment = rng.ibOf
      (a + (b - a) / 2) := by
  obtain ⟨q, hq⟩ := haligned
  rw [ibOf, ibOf, ibOf, hq, cbJournalSegment]
  omega

/-- By induction over the rounds: each brings the two segments closer. -/
theorem Placed.searchLoop_spec (hplaced : rng.Placed) (haligned : cbJournalSegment ∣ rng.m_ib)
    {n : Nat}
    (h : rng.Searches s a b) (hn : b - a < n) :
    ∃ s' r, searchLoop rng.m_ib rng.m_cb rng.errLoadSegment n s = some (.ok s') ∧
      rng.Searches s' r r := by
  induction n generalizing s a b with
  | zero => omega
  | succ n ih =>
    rw [searchLoop, h.ibMin, h.ibMax]
    split_ifs with hlt
    · rw [ibOf_lt] at hlt
      have hle := h.le
      have hmid : a + (b - a) / 2 < rng.cseg := by omega
      obtain ⟨errSegment, hload⟩ := hplaced.errLoadForSearch_eq hmid
      rw [ibOf_mid haligned hlt.le]
      dsimp only
      rw [hload]
      have hloaded : ∀ ib ∈ rng.ibOf (a + (b - a) / 2) :: s.rgibLoaded, rng.m_ib ≤ ib ∧
        ib < rng.m_ib + rng.m_cb := by
        intro ib hib
        rcases List.mem_cons.1 hib with rfl | hib
        · exact ibOf_mem hmid
        · exact h.loaded ib hib
      dsimp only
      rw [h.sposMin]
      split_ifs with hless
      · -- the lower half ascends
        have hne : 0 < (b - a) / 2 := by
          refine Nat.pos_of_ne_zero fun h0 => ?_
          rw [h0, Nat.add_zero] at hless
          exact Nat.lt_irrefl _ hless
        refine ih ⟨rfl, rfl, hmid, hle, rfl, rfl, fun h => Bool.noConfusion h,
          h.start.trans hless.le,
          .inl ⟨by omega, ?_⟩, hloaded⟩ (by omega)
        rcases h.bound with ⟨-, hend | hbound⟩ | ⟨heq, -⟩
        · exact .inl hend
        · exact .inr (hbound.trans hless)
        · omega
      · refine ih ⟨rfl, rfl, h.lt, hmid.le, rfl, h.pjsMin, fun _ => rfl, h.start, ?_, hloaded⟩
          (by omega)
        rcases Nat.eq_zero_or_pos ((b - a) / 2) with hzero | hpos
        · -- the two segments meet, and the minimum was next to the maximum
          obtain rfl : b = a + 1 := by omega
          refine .inr ⟨by omega, ?_⟩
          rcases h.bound with ⟨-, hbound⟩ | ⟨heq, -⟩
          · exact hbound
          · omega
        · refine .inl ⟨by omega, .inr (Nat.lt_of_le_of_ne (Nat.le_of_not_lt hless) fun heq => ?_)⟩
          have := hplaced.inj hmid h.lt heq
          omega
    · rw [ibOf_lt] at hlt
      have heq : a = b := by
        rcases h.bound with ⟨hab, -⟩ | ⟨heq, -⟩
        · exact absurd hab hlt
        · exact heq
      subst heq
      exact ⟨s, a, rfl, h⟩

/-- The segment that the search ends at is a peak. -/
theorem Searches.peak (h : rng.Searches s r r) (hplaced : rng.Placed) (hcseg : 2 ≤ rng.cseg) :
    rng.Peak r := by
  have hlt := h.lt
  rw [Peak]
  rcases h.bound with ⟨hlt, -⟩ | ⟨-, hend | hless⟩
  · omega
  · rw [hend, Nat.mod_self]
    refine Nat.lt_of_le_of_ne h.start fun heq => ?_
    have := hplaced.inj (by omega) h.lt heq
    omega
  · rcases Nat.lt_or_ge (r + 1) rng.cseg with hnext | hend
    · rwa [Nat.mod_eq_of_lt hnext]
    · have hend : r + 1 = rng.cseg := by omega
      rw [hend, Nat.mod_self]
      refine Nat.lt_of_le_of_ne h.start fun heq => ?_
      have := hplaced.inj (by omega) h.lt heq
      omega

/-- At the end of the search the last segment is fetched. -/
theorem Searches.errFetchLast_eq (h : rng.Searches s r r) :
    ∃ rgibLoaded, errFetchLast rng.errLoadSegment s =
      .ok ⟨rng.ibOf r, rng.file (rng.ibOf r), (rng.file (rng.ibOf r)).isNone, rgibLoaded⟩ ∧
      ∀ ib ∈ rgibLoaded, rng.m_ib ≤ ib ∧ ib < rng.m_ib + rng.m_cb := by
  rw [errFetchLast, h.ibMax]
  split_ifs with hmin hmid
  · exact ⟨_, by rw [h.pjsMin], h.loaded⟩
  · exact ⟨_, by rw [h.pjsMid hmid.2, ← hmid.1], h.loaded⟩
  · have hloaded : ∀ ib ∈ rng.ibOf r :: s.rgibLoaded, rng.m_ib ≤ ib ∧ ib < rng.m_ib + rng.m_cb := by
      intro ib hib
      rcases List.mem_cons.1 hib with rfl | hib
      · exact ibOf_mem h.lt
      · exact h.loaded ib hib
    rw [errLoadSegment]
    cases rng.file (rng.ibOf r) with
    | none => exact ⟨_, rfl, hloaded⟩
    | some pjs => exact ⟨_, rfl, hloaded⟩

/-- The binary search ends at a peak of the positions, after loads within the ring. -/
theorem Placed.binarySearch_spec (hplaced : rng.Placed) (haligned : cbJournalSegment ∣ rng.m_ib)
    (hcseg : 2 ≤ rng.cseg)
    {n : Nat} (hn : rng.cseg < n) :
    ∃ r rgibLoaded, errFindLastSegmentWithBinarySearch rng.m_ib rng.m_cb rng.errLoadSegment n =
        some (.ok ⟨rng.ibOf r, rng.file (rng.ibOf r), (rng.file (rng.ibOf r)).isNone, rgibLoaded⟩) ∧
      (∀ ib ∈ rgibLoaded, rng.m_ib ≤ ib ∧ ib < rng.m_ib + rng.m_cb) ∧ r < rng.cseg ∧
        rng.Peak r := by
  have hfirst : 0 < rng.cseg := by omega
  obtain ⟨errSegment, hload⟩ := hplaced.errLoadForSearch_eq hfirst
  have hzero : rng.ibOf 0 = rng.m_ib := by rw [ibOf, Nat.zero_mul, Nat.add_zero]
  have hstart : rng.Searches ⟨rng.m_ib, rng.m_ib + rng.m_cb, rng.file (rng.ibOf 0), rng.spos 0, 0,
      none, [rng.m_ib]⟩ 0
      rng.cseg := by
    refine ⟨hzero.symm, rfl, hfirst, le_rfl, rfl, rfl, fun h => Bool.noConfusion h, le_rfl,
      .inl ⟨hfirst, .inl rfl⟩, ?_⟩
    intro ib hib
    rw [List.mem_singleton.1 hib, ← hzero]
    exact ibOf_mem hfirst
  obtain ⟨s', r, hloop, hsearch⟩ := hplaced.searchLoop_spec haligned hstart hn
  obtain ⟨rgibLoaded, hfetch, hloaded⟩ := hsearch.errFetchLast_eq
  refine ⟨r, rgibLoaded, ?_, hloaded, hsearch.lt, hsearch.peak hplaced hcseg⟩
  rw [hzero] at hload
  rw [errFindLastSegmentWithBinarySearch, hload]
  dsimp only
  rw [hzero] at hloop
  rw [hloop]
  dsimp only
  rw [hfetch]
  rfl

end

/-! ## The last segment -/

section
variable {rng : AppendRing} {r i j : Nat}

/-- The segment of a peak was written, if any was. -/
theorem Peak.written (h : rng.Peak r) (hplaced : rng.Placed) (hr : r < rng.cseg) :
    rng.file (rng.ibOf r) = none ↔ ∀ i < rng.cseg, rng.file (rng.ibOf i) = none := by
  refine ⟨fun hnone i hi => ?_, fun hnone => hnone r hr⟩
  rw [Peak, spos_none hnone] at h
  -- only the first segment can be before an uninitialized one that it follows
  have hend : r + 1 = rng.cseg := by
    by_contra hne
    rw [Nat.mod_eq_of_lt (by omega)] at h
    have hle := hplaced.le_spos (show r + 1 < rng.cseg by omega)
    exact absurd (hle.trans_lt h) (Nat.not_lt.2 (Nat.mul_le_mul_right _ r.le_succ))
  rw [hend, Nat.mod_self] at h
  have hzero : rng.file (rng.ibOf 0) = none :=
    (hplaced.spos_lt_iff (by omega)).1 (h.trans (Nat.mul_lt_mul_of_pos_right hr (by decide)))
  have hcount : rng.cAppend = 0 := Nat.eq_zero_of_not_pos fun hpos => by
    have hsome := hplaced.first hpos
    rw [hzero] at hsome
    exact Bool.noConfusion hsome
  cases hfile : rng.file (rng.ibOf i) with
  | none => rfl
  | some pjs =>
    obtain ⟨k, hk, -⟩ := hplaced.valid i hi pjs hfile
    omega

/-- Without a lost write, the peak is the segment with the highest position. -/
theorem Peak.highest (h : rng.Peak r) (hplaced : rng.Placed) (hcomplete : rng.Complete)
    (hr : r < rng.cseg)
    (hi : i < rng.cseg) : rng.spos i ≤ rng.spos r := by
  cases hfile : rng.file (rng.ibOf r) with
  | none =>
    have hnone := (h.written hplaced hr).1 hfile
    have hend : r + 1 = rng.cseg := by
      by_contra hne
      rw [Peak, Nat.mod_eq_of_lt (by omega), spos_none hfile, spos_none (hnone _ (by omega))] at h
      exact absurd h (Nat.not_lt.2 (Nat.mul_le_mul_right _ r.le_succ))
    rw [spos_none hfile, spos_none (hnone i hi)]
    exact Nat.mul_le_mul_right _ (by omega)
  | some pjs =>
    obtain ⟨k, hk, hmod, hspos⟩ := hplaced.valid r hr pjs hfile
    -- had a segment been appended after it, its successor would have been written after it
    have hlast : rng.cAppend = k + 1 := by
      by_contra hne
      have hcseg : 0 < rng.cseg := by omega
      have hlater : ∃ k', k < k' ∧ k' < rng.cAppend ∧ rng.cAppend ≤ k' + rng.cseg ∧
        k' % rng.cseg = (r + 1) % rng.cseg := by
        refine ⟨rng.cAppend - 1 - (rng.cAppend - 1 - (k + 1)) % rng.cseg, ?_, ?_, ?_, ?_⟩
        · have := Nat.mod_le (rng.cAppend - 1 - (k + 1)) rng.cseg
          omega
        · omega
        · have := Nat.mod_lt (rng.cAppend - 1 - (k + 1)) hcseg
          omega
        · have hdiv := Nat.div_add_mod (rng.cAppend - 1 - (k + 1)) rng.cseg
          have heq : rng.cAppend - 1 - (rng.cAppend - 1 - (k + 1)) % rng.cseg =
              k + 1 + rng.cseg * ((rng.cAppend - 1 - (k + 1)) / rng.cseg) := by omega
          rw [heq, Nat.add_mul_mod_self_left, ← hmod, Nat.mod_add_mod]
      obtain ⟨k', hlt, hk', hle, hmod'⟩ := hlater
      obtain ⟨pjs', hpjs, hspos'⟩ := hcomplete k' hk' hle
      rw [hmod'] at hpjs
      rw [Peak, spos_some hpjs, spos_some hfile, hspos, hspos'] at h
      exact absurd h (Nat.not_lt.2 (Nat.mul_le_mul_right _ (by omega)))
    cases hfile' : rng.file (rng.ibOf i) with
    | none =>
      rw [spos_some hfile, hspos, spos_none hfile']
      exact Nat.mul_le_mul_right _ (by omega)
    | some pjs' =>
      obtain ⟨k', hk', -, hspos'⟩ := hplaced.valid i hi pjs' hfile'
      rw [spos_some hfile, hspos, spos_some hfile', hspos']
      exact Nat.mul_le_mul_right _ (by omega)

/-- By induction over the segments that are left: the last one is the highest of those before. -/
theorem Placed.linearLoop_spec (hplaced : rng.Placed) {n k b : Nat} (hn : k + n = rng.cseg)
    (hb : b < k)
    (hmax : ∀ i < k, rng.spos i ≤ rng.spos b) :
    ∃ r < rng.cseg, linearLoop rng.m_ib rng.m_cb rng.errLoadSegment n (rng.ibOf k) (rng.ibOf b)
        (rng.file (rng.ibOf b)) (rng.spos b) = .ok (rng.ibOf r, rng.file (rng.ibOf r)) ∧
      ∀ i < rng.cseg, rng.spos i ≤ rng.spos r := by
  induction n generalizing k b with
  | zero => exact ⟨b, by omega, rfl, fun i hi => hmax i (by omega)⟩
  | succ n ih =>
    have hk : k < rng.cseg := by omega
    have hnext : rng.ibOf k + cbJournalSegment = rng.ibOf (k + 1) := by
      rw [ibOf, ibOf, Nat.add_mul, Nat.one_mul, Nat.add_assoc]
    rw [linearLoop, hplaced.errLoadSegmentForRecovery_eq hk]
    dsimp only
    rw [if_neg, hnext]
    · split_ifs with hlast
      · -- the segment is a new last one
        refine ih (by omega) k.lt_succ_self fun i hi => ?_
        rcases Nat.lt_succ_iff_lt_or_eq.1 hi with hlt | rfl
        · rcases hlast with hnone | hless
          · have hspos := spos_none (Option.isNone_iff_eq_none.1 hnone)
            refine (hmax i hlt).trans
              (hspos.le.trans ((Nat.mul_le_mul_right _ hb.le).trans (hplaced.le_spos hk)))
          · exact (hmax i hlt).trans hless.le
        · exact le_rfl
      · refine ih (by omega) (by omega) fun i hi => ?_
        rcases Nat.lt_succ_iff_lt_or_eq.1 hi with hlt | rfl
        · exact hmax i hlt
        · exact Nat.le_of_not_lt fun hless => hlast (.inr hless)
    · cases rng.file (rng.ibOf k) with
      | none => exact fun h => h.2 rfl
      | some pjs => exact fun h => Bool.noConfusion h.1

/-- The linear search ends at the highest position. -/
theorem Placed.linearSearch_spec (hplaced : rng.Placed) (hcseg : 0 < rng.cseg) :
    ∃ r < rng.cseg, errFindLastSegmentWithLinearSearch rng.m_ib rng.m_cb rng.errLoadSegment =
        .ok (rng.ibOf r, rng.file (rng.ibOf r)) ∧ ∀ i < rng.cseg, rng.spos i ≤ rng.spos r := by
  have hcount : (rng.m_cb + cbJournalSegment - 1) / cbJournalSegment = rng.cseg - 1 + 1 := by
    rw [m_cb, cbJournalSegment]
    omega
  have hzero : rng.ibOf 0 = rng.m_ib := by rw [ibOf, Nat.zero_mul, Nat.add_zero]
  have hone : rng.ibOf 0 + cbJournalSegment = rng.ibOf 1 := by
    rw [ibOf, ibOf, Nat.zero_mul, Nat.one_mul, Nat.add_zero]
  have hnotCorrupt : ¬ ((rng.file (rng.ibOf 0)).isNone ∧
      (if (rng.file (rng.ibOf 0)).isSome then 0 else JET_errPageNotInitialized) ≠
        JET_errPageNotInitialized) := by
    cases rng.file (rng.ibOf 0) with
    | none => exact fun h => h.2 rfl
    | some pjs => exact fun h => Bool.noConfusion h.1
  obtain ⟨r, hr, hloop, hmax⟩ := hplaced.linearLoop_spec (n := rng.cseg - 1) (k := 1) (b := 0)
    (by omega) Nat.one_pos
    fun i hi => by rw [Nat.lt_one_iff.1 hi]
  refine ⟨r, hr, ?_, hmax⟩
  have hload := hplaced.errLoadSegmentForRecovery_eq hcseg
  rw [hzero] at hload hnotCorrupt hone hloop
  rw [errFindLastSegmentWithLinearSearch, hcount, linearLoop, hload]
  dsimp only
  rw [if_neg hnotCorrupt, if_pos (.inl rfl), hone, hloop]

end

/-- A binary search of a ring without corruption, reached from an empty one by appends of which any
may be lost but the first: it ends, it stays in the ring, and what it finds is a segment whose
successor has a smaller position, and no segment only if none was written. Without a lost write, it
finds the last segment, as the linear search does. -/
theorem binarySearch_appends {m_ib cseg : Nat} (haligned : cbJournalSegment ∣ m_ib)
    (hcseg : 2 ≤ cseg)
    (rgappend : List (Bool × CJournalSegmentHeader)) (hfirst : ∀ a ∈ rgappend.head?, a.1 = false)
    {n : Nat} (hn : cseg < n)
    {rng : AppendRing} (hrng : rng = (empty m_ib cseg).appends rgappend) :
    ∃ r rgibLoaded, errFindLastSegmentWithBinarySearch m_ib
        (cseg * cbJournalSegment) rng.errLoadSegment n =
        some (.ok ⟨rng.ibOf r, rng.file (rng.ibOf r), (rng.file (rng.ibOf r)).isNone, rgibLoaded⟩) ∧
      (∀ ib ∈ rgibLoaded, m_ib ≤ ib ∧ ib < m_ib + cseg * cbJournalSegment) ∧ r < cseg ∧
      rng.spos ((r + 1) % cseg) < rng.spos r ∧
      ((rng.file (rng.ibOf r)).isNone ↔ ∀ i < cseg, rng.file (rng.ibOf i) = none) ∧
      ((∀ a ∈ rgappend, a.1 = false) → (∀ i < cseg, rng.spos i ≤ rng.spos r) ∧
        errFindLastSegmentWithLinearSearch m_ib (cseg * cbJournalSegment) rng.errLoadSegment =
          .ok (rng.ibOf r, rng.file (rng.ibOf r))) := by
  obtain ⟨hplaced, hcseg', hib, -⟩ := (placed_empty m_ib cseg).appends
    fun _ => hfirst
  rw [← hrng] at hplaced hcseg' hib
  change rng.cseg = cseg at hcseg'
  change rng.m_ib = m_ib at hib
  subst hib hcseg'
  obtain ⟨r, rgibLoaded, hsearch, hloaded, hr, hpeak⟩ := hplaced.binarySearch_spec haligned hcseg hn
  refine ⟨r, rgibLoaded, hsearch, hloaded, hr, hpeak, Option.isNone_iff_eq_none.trans
    (hpeak.written hplaced hr),
    fun hlost => ?_⟩
  have hcomplete : rng.Complete := by
    rw [hrng]
    exact (complete_empty _ _).appends hlost
  have hhighest := fun i (hi : i < rng.cseg) => hpeak.highest hplaced hcomplete hr hi
  obtain ⟨r', hr', hlinear, hmax⟩ :=
    hplaced.linearSearch_spec (Nat.lt_of_lt_of_le Nat.two_pos hcseg)
  obtain rfl := hplaced.inj hr' hr ((hhighest r' hr').antisymm (hmax r hr))
  exact ⟨hhighest, hlinear⟩

/-- A ring of two segments of which the second write was lost, and the third is over the first. -/
theorem binarySearch_appends_lost : ∃ found,
    errFindLastSegmentWithBinarySearch 0 (2 * cbJournalSegment)
        ((empty 0 2).appends [(false, ⟨0, 1, 0, 0, 0⟩), (true, ⟨0, 2, 1, 0, 0⟩),
        (false, ⟨0, 3, 2, 0, 0⟩)]).errLoadSegment 3 =
      some (.ok found) ∧ ∀ ib ∈ found.rgibLoaded, 0 ≤ ib ∧ ib < 0 + 2 * cbJournalSegment := by
  obtain ⟨r, rgibLoaded, hsearch, hloaded, -⟩ := binarySearch_appends (Nat.dvd_zero _) le_rfl
    [(false, ⟨0, 1, 0, 0, 0⟩), (true, ⟨0, 2, 1, 0, 0⟩), (false, ⟨0, 3, 2, 0, 0⟩)]
    (fun a ha => by obtain rfl := Option.some.inj ha; rfl) (Nat.lt_succ_self 2) rfl
  exact ⟨_, hsearch, hloaded⟩

end AppendRing

end Ese.Journal
