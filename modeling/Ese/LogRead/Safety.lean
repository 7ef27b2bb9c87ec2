import Ese.LogRead.NextRec

/-!
# What the log reader reads and how it gets on

A call of `ErrLGGetNextRecFF` reads inside the segments and gets on behind the record it returns,
unless it meets one of two things that it does not check: a fragment that fits into the rest of its
segment without its header but not with it, and a record whose size comes out as zero.
-/

namespace Ese.LogRead

open Ese.Log (cbLGSEGHDR)
open Ese.LogBuffer (cbLRFRAGMENTBEGIN cbLRFRAGMENT lrtypNOP)

namespace LOG_FILE

variable (log : LOG_FILE)

/-! ## What a call may do -/

/-- Inside the segment, which begins below `m_lgposLastRec`, or inside the buffer or the record. -/
def Inside : Access → Prop
  | .segment pbSegment pb cb =>
    log.cbSec ∣ pbSegment ∧ pbSegment < log.lgposLastRec ∧ pbSegment ≤ pb ∧
      pb + cb ≤ pbSegment + log.cbSec
  | .write cbBuffer ib cb => ib + cb ≤ cbBuffer
  | .assembled cbTotal ib cb => ib + cb ≤ cbTotal

/-- The position of a record: that of a record that is put together is `m_pbNext`. -/
def pos (plr : RECORD) (pbNext : Nat) : Nat :=
  match plr with
  | .segment pb => pb
  | .assembled => pbNext

/-- All accesses are inside, and the call fails or has a record and a position behind it. -/
def Safe (call : List Access × Result × LOG_READ_BUFFER) : Prop :=
  (∀ access ∈ call.1, log.Inside access) ∧
    match call.2.1 with
    | .error _ => True
    | .record plr => ∃ pbNextNext, call.2.2.pbNextNext = some pbNextNext ∧
      pos plr call.2.2.pbNext < pbNextNext
    | .enforce => False
    | .loop => False

/-- A position at the begin of a segment, or behind its header. -/
def Boundary (pb : Nat) : Prop := pb = log.pbSegment pb ∨ log.pbSegment pb + cbLGSEGHDR ≤ pb

/-- The reader is at a record. -/
def AtRecord (r : LOG_READ_BUFFER) : Prop :=
  ∀ pbNextNext, r.pbNextNext = some pbNextNext → log.Boundary pbNextNext ∧ r.pbNext ≤ pbNextNext

/-! ## What is not checked -/

section
variable (pbSegment : Nat) (s : Scan)

/-- The fragment that begins a record passes the checks, but is not in the segment with its
header. -/
def BeginOverruns : Prop :=
  cbLRFRAGMENTBEGIN ≤ log.cbLeft pbSegment s ∧ ¬ log.FBeginRefused pbSegment s ∧
    log.FBuffer s (log.cbTotalLRSize s) ∧
    log.cbFragmentBegin s < log.cbTotalLRSize s ∧ log.cbFragmentBegin s ≤ log.cbLeft pbSegment s ∧
    log.cbLeft pbSegment s < cbLRFRAGMENTBEGIN + log.cbFragmentBegin s

/-- The fragment that continues a record passes the checks, but is not in the segment with its
header. -/
def FragmentOverruns : Prop :=
  s.fInFragment = true ∧ cbLRFRAGMENT ≤ log.cbLeft pbSegment s ∧
    log.cbFragment s ≤ s.cbTotalFragment - s.cbFragmentSeen ∧
    log.cbFragment s ≤ log.cbLeft pbSegment s ∧
    log.cbLeft pbSegment s < cbLRFRAGMENT + log.cbFragment s

/-- The record passes the checks, but its size is zero. -/
def RecordEmpty : Prop :=
  ¬ (s.fInFragment = true ∧ ¬ log.FUndo pbSegment s) ∧ (log.rgb s.pbCurrent).toNat < lrtypMax ∧
    cbLGFixedSizeOfRec log.rgb s.pbCurrent ≤ log.cbLeft pbSegment s ∧
    cbLGSizeOfRec log.rgb s.pbCurrent = 0

/-- One of these is at the position. -/
def Unchecked : Prop :=
  if log.rgb s.pbCurrent = lrtypFragmentBegin then log.BeginOverruns pbSegment s
  else if log.rgb s.pbCurrent = lrtypFragment then log.FragmentOverruns pbSegment s
  else if log.rgb s.pbCurrent = lrtypNOP then False
  else log.RecordEmpty pbSegment s

end

/-- A turn comes to one of these. -/
def Strays (s : Scan) : Prop :=
  s.pbCurrent < log.lgposLastRec ∧ log.errSector (s.pbCurrent / log.cbSec) = none ∧
    log.Unchecked (log.pbSegment s.pbCurrent) (log.skip s)

/-- The turns of a loop, one after the other. -/
inductive Visits : Scan → Scan → Prop
  | refl (s : Scan) : Visits s s
  | next {s s' t : Scan} (h : (log.turn s).2 = .next s') (ht : Visits s' t) : Visits s t

/-- No turn of a call comes to one of these. -/
def Meets (fPreread : Bool) (r : LOG_READ_BUFFER) : Prop :=
  ∀ pbNextNext, r.pbNextNext = some pbNextNext → log.pbLGBufMin ≤ pbNextNext →
    pbNextNext < log.pbLGBufMax →
    ∀ s, log.Visits (scan fPreread r pbNextNext false) s → ¬ log.Strays s

/-! ## Segments -/

/-- A segment begins at a multiple of its size. -/
theorem pbSegment_dvd (pb : Nat) : log.cbSec ∣ log.pbSegment pb := Dvd.intro_left _ rfl

/-- A byte lies behind the start of its segment. -/
theorem pbSegment_le (pb : Nat) : log.pbSegment pb ≤ pb := Nat.div_mul_le_self _ _

/-- A byte lies before the end of its segment. -/
theorem lt_pbSegment_add (pb : Nat) : pb < log.pbSegment pb + log.cbSec := by
  have hsec := log.cbSec_le
  exact Nat.lt_div_mul_add (by omega)

/-- The segment of a byte is the one around it. -/
theorem pbSegment_eq {pbSegment pb : Nat} (hdvd : log.cbSec ∣ pbSegment) (hle : pbSegment ≤ pb)
    (hlt : pb < pbSegment + log.cbSec) : log.pbSegment pb = pbSegment := by
  have hsec := log.cbSec_le
  obtain ⟨k, rfl⟩ := hdvd
  rw [LOG_FILE.pbSegment, Nat.div_eq_of_lt_le (k := k), Nat.mul_comm]
  · rw [Nat.mul_comm]
    exact hle
  · rw [Nat.add_mul, Nat.one_mul, Nat.mul_comm]
    exact hlt

/-- Behind what is in a segment is a boundary, also at its end. -/
theorem boundary_of_le {pbSegment pb : Nat} (hdvd : log.cbSec ∣ pbSegment)
    (hle : pbSegment + cbLGSEGHDR ≤ pb)
    (hend : pb ≤ pbSegment + log.cbSec) : log.Boundary pb := by
  rcases Nat.lt_or_ge pb (pbSegment + log.cbSec) with hlt | hge
  · right
    rw [log.pbSegment_eq hdvd (by omega) hlt]
    exact hle
  · left
    have hsec := log.cbSec_le
    have heq : pb = pbSegment + log.cbSec := by omega
    rw [@pbSegment_eq log pb pb (heq ▸ Nat.dvd_add hdvd (Nat.dvd_refl _)) (Nat.le_refl _)
      (by omega)]

/-- The position behind the header is in the segment. -/
theorem pbSkipHeader_bounds {pb : Nat} (h : log.Boundary pb) :
    log.pbSegment pb + cbLGSEGHDR ≤ log.pbSkipHeader pb ∧
      log.pbSkipHeader pb < log.pbSegment pb + log.cbSec ∧
      pb ≤ log.pbSkipHeader pb := by
  have hsec := log.cbSec_le
  have hlt := log.lt_pbSegment_add pb
  have h40 : cbLGSEGHDR = 40 := rfl
  rw [pbSkipHeader]
  split_ifs with heq
  · omega
  · rcases h with h | h
    · exact absurd h heq
    · omega

/-- A run of fillers is no longer than what is scanned. -/
theorem cbNOP_le (pb cb : Nat) : log.cbNOP pb cb ≤ cb := by
  induction cb generalizing pb with
  | zero => exact Nat.le_refl 0
  | succ cb ih =>
    have hle := ih (pb + 1)
    rw [cbNOP]
    split_ifs <;> omega

/-- At a filler the run is not empty. -/
theorem cbNOP_pos {pb cb : Nat} (h : log.rgb pb = lrtypNOP) (hcb : 0 < cb) :
    0 < log.cbNOP pb cb := by
  obtain ⟨cb, rfl⟩ := Nat.exists_eq_succ_of_ne_zero (by omega : cb ≠ 0)
  rw [cbNOP, if_pos h]
  exact Nat.succ_pos _

/-! ## The cases of a turn -/

/-- Between two turns: the position is a boundary behind the begin of the call, nothing is skipped,
and of a fragmented record some is missing that the buffer has room for. -/
structure Inv (pbStart : Nat) (s : Scan) : Prop where
  boundary : log.Boundary s.pbCurrent
  start : pbStart ≤ s.pbCurrent
  next : s.pbNext ≤ s.pbCurrent
  noSkip : s.fSkipPartialLR = false
  fragment : s.fInFragment = true → s.cbFragmentSeen < s.cbTotalFragment ∧
    s.cbTotalFragment ≤ s.assembledLR.cb

/-- In a turn: the position is behind the header of its segment. -/
structure In (pbStart pbSegment : Nat) (s : Scan) : Prop where
  dvd : log.cbSec ∣ pbSegment
  below : pbSegment < log.lgposLastRec
  header : pbSegment + cbLGSEGHDR ≤ s.pbCurrent
  inside : s.pbCurrent < pbSegment + log.cbSec
  start : pbStart ≤ s.pbCurrent
  next : s.pbNext ≤ s.pbCurrent
  noSkip : s.fSkipPartialLR = false
  fragment : s.fInFragment = true → s.cbFragmentSeen < s.cbTotalFragment ∧
    s.cbTotalFragment ≤ s.assembledLR.cb

/-- A turn goes on behind the position, or has a record and a position behind it. -/
def Good (pbStart pbCurrent : Nat) : Turn → Prop
  | .next s => log.Inv pbStart s ∧ pbCurrent < s.pbCurrent
  | .error _ _ => True
  | .record plr pbNextNext s =>
    pos plr s.pbNext < pbNextNext ∧ log.Boundary pbNextNext ∧ s.pbNext ≤ pbNextNext ∧
      pbStart < pbNextNext

/-- A turn has an access that is not inside, or a record that it does not get behind. -/
def Bad (turn : List Access × Turn) : Prop :=
  (∃ access ∈ turn.1, ¬ log.Inside access) ∨
    ∃ plr pbNextNext s, turn.2 = .record plr pbNextNext s ∧ pbNextNext ≤ pos plr s.pbNext

section
variable {log} {pbStart pbSegment : Nat} {s : Scan}

/-- A read within the segment is a read of the buffer. -/
theorem In.segment (h : log.In pbStart pbSegment s) {pb cb : Nat} (hle : pbSegment ≤ pb)
    (hend : pb + cb ≤ pbSegment + log.cbSec) : log.Inside (.segment pbSegment pb cb) :=
  ⟨h.dvd, h.below, hle, hend⟩

/-- The buffer for an assembled record holds it. -/
theorem le_allocAssembled {cbTotal : Nat} (h : log.FBuffer s cbTotal) :
    cbTotal ≤ (log.allocAssembled s cbTotal).cb := by
  rw [allocAssembled]
  split_ifs with hgt halloc
  · exact Nat.le_refl _
  · rcases h with h | h
    · omega
    · exact absurd h halloc
  · omega

/-- The byte that is looked at within a fragmented record is in the segment: it is just behind a
segment's header. -/
theorem In.undoReads (h : log.In pbStart pbSegment s) :
    ∀ access ∈ LOG_FILE.undoReads pbSegment s, log.Inside access := by
  intro access hmem
  rw [LOG_FILE.undoReads] at hmem
  split_ifs at hmem with hundo
  · have hsec := log.cbSec_le
    rw [List.mem_singleton] at hmem
    subst hmem
    have h40 : cbLGSEGHDR = 40 := rfl
    have h7 : cbLRFRAGMENTBEGIN = 7 := rfl
    exact h.segment (by omega) (by omega)
  · cases hmem

/-- A first fragment that fits is read within the segment. -/
theorem fragmentBegin_good (h : log.In pbStart pbSegment s)
    (hfits : ¬ log.BeginOverruns pbSegment s) :
    (∀ access ∈ (log.fragmentBegin pbSegment s).1, log.Inside access) ∧
      log.Good pbStart s.pbCurrent (log.fragmentBegin pbSegment s).2 := by
  have h40 : cbLGSEGHDR = 40 := rfl
  have h7 : cbLRFRAGMENTBEGIN = 7 := rfl
  have hheader := h.header
  have hleft : log.cbLeft pbSegment s = pbSegment + log.cbSec - s.pbCurrent := rfl
  rw [fragmentBegin]
  by_cases hend : s.pbCurrent + cbLRFRAGMENTBEGIN > pbSegment + log.cbSec
  · rw [if_pos hend]
    exact ⟨fun _ hmem => (by cases hmem), trivial⟩
  rw [if_neg hend]
  have hread : ∀ access ∈ LOG_FILE.undoReads pbSegment s ++
      [.segment pbSegment s.pbCurrent cbLRFRAGMENTBEGIN],
      log.Inside access := by
    intro access hmem
    rcases List.mem_append.1 hmem with hmem | hmem
    · exact h.undoReads access hmem
    · rw [List.mem_singleton] at hmem
      subst hmem
      exact h.segment (by omega) (by omega)
  by_cases hrefused : log.FBeginRefused pbSegment s
  · rw [if_pos hrefused]
    exact ⟨h.undoReads, trivial⟩
  rw [if_neg hrefused]
  by_cases hbuffer : log.FBuffer s (log.cbTotalLRSize s)
  · rw [if_neg (not_not.2 hbuffer)]
    by_cases hbad : log.cbFragmentBegin s ≥ log.cbTotalLRSize s ∨
      log.cbFragmentBegin s > log.cbLeft pbSegment s
    · rw [if_pos hbad]
      exact ⟨hread, trivial⟩
    rw [if_neg hbad]
    have hcb : cbLRFRAGMENTBEGIN + log.cbFragmentBegin s ≤ log.cbLeft pbSegment s := by
      by_contra hover
      exact hfits ⟨by omega, hrefused, hbuffer, by omega, by omega, by omega⟩
    have halloc := le_allocAssembled hbuffer
    have hlt : s.pbCurrent < s.pbCurrent + cbLRFRAGMENTBEGIN + log.cbFragmentBegin s := by omega
    have hseen : log.cbFragmentBegin s < log.cbTotalLRSize s := by omega
    refine ⟨fun access hmem => ?_, ⟨log.boundary_of_le h.dvd ?_ ?_, (h.start.trans_lt hlt).le,
      (h.next.trans_lt hlt).le, rfl, fun _ => ⟨hseen, halloc⟩⟩, hlt⟩
    · rcases List.mem_append.1 hmem with hmem | hmem
      · exact hread access hmem
      · rcases List.mem_cons.1 hmem with rfl | hmem
        · exact h.segment (by omega) (by omega)
        · rw [List.mem_singleton] at hmem
          subst hmem
          show 0 + log.cbFragmentBegin s ≤ (log.allocAssembled s (log.cbTotalLRSize s)).cb
          omega
    · exact h.header.trans hlt.le
    · show s.pbCurrent + cbLRFRAGMENTBEGIN + log.cbFragmentBegin s ≤ pbSegment + log.cbSec
      omega
  · rw [if_pos hbuffer]
    exact ⟨hread, trivial⟩

/-- A first fragment that does not fit is read past the segment. -/
theorem fragmentBegin_bad (h : log.In pbStart pbSegment s) (hover : log.BeginOverruns pbSegment s) :
    log.Bad (log.fragmentBegin pbSegment s) := by
  obtain ⟨hheader, hrefused, hbuffer, htotal, hcb, hcbHeader⟩ := hover
  have hinside := h.inside
  have hleft : log.cbLeft pbSegment s = pbSegment + log.cbSec - s.pbCurrent := rfl
  have hend : ¬ s.pbCurrent + cbLRFRAGMENTBEGIN > pbSegment + log.cbSec := by omega
  left
  refine ⟨.segment pbSegment (s.pbCurrent + cbLRFRAGMENTBEGIN) (log.cbFragmentBegin s), ?_,
    fun hin => ?_⟩
  · rw [fragmentBegin, if_neg hend]
    dsimp only
    rw [if_neg hrefused, if_neg (not_not.2 hbuffer), if_neg (by omega)]
    exact List.mem_append_right _ (List.mem_cons_self ..)
  · have hle := hin.2.2.2
    omega

/-- The record that is put together is checked inside its bytes: its type is one of them, and its
size is computed from fields inside the structure that fits. -/
theorem inside_assembledReads {pv : Mem} {cbTotal : Nat} (hcb : 0 < cbTotal) :
    ∀ access ∈ assembledReads pv cbTotal, log.Inside access := by
  intro access hmem
  rw [assembledReads] at hmem
  split_ifs at hmem with hfits
  · rw [List.mem_map] at hmem
    obtain ⟨⟨ib, cb⟩, hread, rfl⟩ := hmem
    show ib + cb ≤ cbTotal
    rcases sizeReads_inside hfits.1 hread with heq | hle
    · obtain ⟨rfl, rfl⟩ := Prod.mk.inj heq
      omega
    · exact hle.trans hfits.2
  · rw [List.mem_singleton] at hmem
    subst hmem
    show 0 + 1 ≤ cbTotal
    omega

/-- A further fragment that fits is read within the segment. -/
theorem fragment_good (h : log.In pbStart pbSegment s)
    (hfits : ¬ log.FragmentOverruns pbSegment s) :
    (∀ access ∈ (log.fragment pbSegment s).1, log.Inside access) ∧
      log.Good pbStart s.pbCurrent (log.fragment pbSegment s).2 := by
  have h3 : cbLRFRAGMENT = 3 := rfl
  have hheader := h.header
  have hleft : log.cbLeft pbSegment s = pbSegment + log.cbSec - s.pbCurrent := rfl
  rw [fragment, if_neg (Bool.eq_false_iff.1 h.noSkip)]
  by_cases hend : s.fInFragment = false ∨ s.pbCurrent + cbLRFRAGMENT > pbSegment + log.cbSec
  · rw [if_pos hend]
    exact ⟨fun _ hmem => (by cases hmem), trivial⟩
  rw [if_neg hend]
  rw [not_or, Bool.not_eq_false] at hend
  have hread : ∀ access ∈ [Access.segment pbSegment s.pbCurrent cbLRFRAGMENT],
    log.Inside access := by
    intro access hmem
    rw [List.mem_singleton] at hmem
    subst hmem
    exact h.segment (by omega) (by omega)
  by_cases hbad : log.cbFragment s > s.cbTotalFragment - s.cbFragmentSeen ∨
    log.cbFragment s > log.cbLeft pbSegment s
  · rw [if_pos hbad]
    exact ⟨hread, trivial⟩
  rw [if_neg hbad]
  have hcb : cbLRFRAGMENT + log.cbFragment s ≤ log.cbLeft pbSegment s := by
    by_contra hover
    exact hfits ⟨hend.1, by omega, by omega, by omega, by omega⟩
  obtain ⟨hseen, htotal⟩ := h.fragment hend.1
  have hcopy : ∀ access ∈ [Access.segment pbSegment s.pbCurrent cbLRFRAGMENT] ++
      [.segment pbSegment (s.pbCurrent + cbLRFRAGMENT) (log.cbFragment s),
        .write s.assembledLR.cb s.cbFragmentSeen (log.cbFragment s)], log.Inside access := by
    intro access hmem
    rcases List.mem_append.1 hmem with hmem | hmem
    · exact hread access hmem
    · rcases List.mem_cons.1 hmem with rfl | hmem
      · exact h.segment (by omega) (by omega)
      · rw [List.mem_singleton] at hmem
        subst hmem
        show s.cbFragmentSeen + log.cbFragment s ≤ s.assembledLR.cb
        omega
  have hboundary : log.Boundary (s.pbCurrent + cbLRFRAGMENT + log.cbFragment s) :=
    log.boundary_of_le h.dvd (by omega) (by omega)
  have hlt : s.pbCurrent < s.pbCurrent + cbLRFRAGMENT + log.cbFragment s := by omega
  have hnext := h.next.trans_lt hlt
  by_cases hcomplete : s.cbTotalFragment = s.cbFragmentSeen + log.cbFragment s
  · rw [if_pos hcomplete]
    refine ⟨fun access hmem => ?_, ?_⟩
    · rcases List.mem_append.1 hmem with hmem | hmem
      · exact hcopy access hmem
      · exact inside_assembledReads (by omega) access hmem
    · dsimp only
      split_ifs
      · exact ⟨hnext, hboundary, hnext.le, h.start.trans_lt hlt⟩
      · trivial
  · rw [if_neg hcomplete]
    have hmissing : s.cbFragmentSeen + log.cbFragment s < s.cbTotalFragment := by omega
    exact ⟨hcopy, ⟨hboundary, (h.start.trans_lt hlt).le, hnext.le, h.noSkip, fun _ =>
      ⟨hmissing, htotal⟩⟩, hlt⟩

/-- A further fragment that does not fit is read past the segment. -/
theorem fragment_bad (h : log.In pbStart pbSegment s) (hover : log.FragmentOverruns pbSegment s) :
    log.Bad (log.fragment pbSegment s) := by
  obtain ⟨hfragment, hheader, htotal, hcb, hcbHeader⟩ := hover
  have hinside := h.inside
  have hleft : log.cbLeft pbSegment s = pbSegment + log.cbSec - s.pbCurrent := rfl
  have hend : ¬ (s.fInFragment = false ∨ s.pbCurrent + cbLRFRAGMENT > pbSegment + log.cbSec) := by
    rintro (hfalse | hlt)
    · rw [hfalse] at hfragment
      cases hfragment
    · omega
  have hcopy : (Access.segment pbSegment (s.pbCurrent + cbLRFRAGMENT) (log.cbFragment s)) ∈
      (log.fragment pbSegment s).1 := by
    have hmem : (Access.segment pbSegment (s.pbCurrent + cbLRFRAGMENT) (log.cbFragment s)) ∈
        [.segment pbSegment s.pbCurrent cbLRFRAGMENT] ++
          [.segment pbSegment (s.pbCurrent + cbLRFRAGMENT) (log.cbFragment s),
            .write s.assembledLR.cb s.cbFragmentSeen (log.cbFragment s)] :=
      List.mem_append_right _ (List.mem_cons_self ..)
    rw [fragment, if_neg (Bool.eq_false_iff.1 h.noSkip), if_neg hend, if_neg (by omega)]
    by_cases hcomplete : s.cbTotalFragment = s.cbFragmentSeen + log.cbFragment s
    · rw [if_pos hcomplete]
      exact List.mem_append_left _ hmem
    · rw [if_neg hcomplete]
      exact hmem
  left
  refine ⟨_, hcopy, fun hin => ?_⟩
  have hle := hin.2.2.2
  omega

/-- Fillers are skipped within the segment. -/
theorem nop_good (h : log.In pbStart pbSegment s) (hnop : log.rgb s.pbCurrent = lrtypNOP) :
    (∀ access ∈ (log.nop pbSegment s).1, log.Inside access) ∧
      log.Good pbStart s.pbCurrent (log.nop pbSegment s).2 := by
  have hheader := h.header
  have hinside := h.inside
  have hleft : log.cbLeft pbSegment s = pbSegment + log.cbSec - s.pbCurrent := rfl
  have hpos := @cbNOP_pos log _ (log.cbLeft pbSegment s) hnop (by omega)
  have hle := log.cbNOP_le s.pbCurrent (log.cbLeft pbSegment s)
  have hlt : s.pbCurrent < s.pbCurrent + log.cbNOP s.pbCurrent (log.cbLeft pbSegment s) := by omega
  refine ⟨fun access hmem => ?_,
    ⟨log.boundary_of_le h.dvd (h.header.trans hlt.le) ?_, (h.start.trans_lt hlt).le,
    (h.next.trans_lt hlt).le, h.noSkip, h.fragment⟩, hlt⟩
  · rw [nop, List.mem_singleton] at hmem
    subst hmem
    exact h.segment (by omega) (by omega)
  · show s.pbCurrent + log.cbNOP s.pbCurrent (log.cbLeft pbSegment s) ≤ pbSegment + log.cbSec
    omega

/-- What the size of a record in a segment is computed from is in the segment when its structure
is. -/
theorem In.sizeReads (h : log.In pbStart pbSegment s)
    (htyp : (log.rgb s.pbCurrent).toNat < lrtypMax)
    (hfixed : cbLGFixedSizeOfRec log.rgb s.pbCurrent ≤ log.cbLeft pbSegment s) :
    ∀ access ∈ (LogRead.sizeReads (log.rgb s.pbCurrent).toNat).map
      (fun read => Access.segment pbSegment (s.pbCurrent + read.1) read.2), log.Inside access := by
  intro access hmem
  have hheader := h.header
  have hinside := h.inside
  have hleft : log.cbLeft pbSegment s = pbSegment + log.cbSec - s.pbCurrent := rfl
  rw [List.mem_map] at hmem
  obtain ⟨⟨ib, cb⟩, hread, rfl⟩ := hmem
  rcases sizeReads_inside htyp hread with heq | hle
  · obtain ⟨rfl, rfl⟩ := Prod.mk.inj heq
    exact h.segment (by omega) (by omega)
  · rw [cbLGFixedSizeOfRec] at hfixed
    exact h.segment (by omega) (by dsimp only; omega)

/-- A record of some size is read within the segment. -/
theorem regular_good (h : log.In pbStart pbSegment s) (hsize : ¬ log.RecordEmpty pbSegment s) :
    (∀ access ∈ (log.regular pbSegment s).1, log.Inside access) ∧
      log.Good pbStart s.pbCurrent (log.regular pbSegment s).2 := by
  have hheader := h.header
  have hleft : log.cbLeft pbSegment s = pbSegment + log.cbSec - s.pbCurrent := rfl
  rw [regular]
  by_cases htorn : s.fInFragment = true ∧ ¬ log.FUndo pbSegment s
  · rw [if_pos htorn]
    exact ⟨fun _ hmem => (by cases hmem), trivial⟩
  rw [if_neg htorn]
  by_cases hbad : (log.rgb s.pbCurrent).toNat ≥ lrtypMax ∨
      cbLGFixedSizeOfRec log.rgb s.pbCurrent > log.cbLeft pbSegment s
  · dsimp only
    rw [if_pos hbad]
    exact ⟨fun _ hmem => (by cases hmem), trivial⟩
  dsimp only
  rw [if_neg hbad]
  have hreads := h.sizeReads (by omega) (by omega)
  by_cases hlong : cbLGSizeOfRec log.rgb s.pbCurrent > log.cbLeft pbSegment s
  · rw [if_pos hlong]
    exact ⟨hreads, trivial⟩
  rw [if_neg hlong]
  have hne : cbLGSizeOfRec log.rgb s.pbCurrent ≠ 0 :=
    fun hzero => hsize ⟨htorn, by omega, by omega, hzero⟩
  have hinside := h.inside
  have hlt : s.pbCurrent < s.pbCurrent + cbLGSizeOfRec log.rgb s.pbCurrent := by omega
  have hnext : (if s.fInFragment = true then pbSegment else s.pbNext) ≤ s.pbCurrent := by
    split_ifs
    · omega
    · exact h.next
  exact ⟨hreads, hlt, log.boundary_of_le h.dvd (by omega) (by omega), (hnext.trans_lt hlt).le,
    h.start.trans_lt hlt⟩

/-- A record of no size leaves the scan where it is. -/
theorem regular_bad (hempty : log.RecordEmpty pbSegment s) : log.Bad (log.regular pbSegment s) := by
  obtain ⟨htorn, htyp, hfixed, hzero⟩ := hempty
  right
  refine ⟨.segment s.pbCurrent, s.pbCurrent + cbLGSizeOfRec log.rgb s.pbCurrent,
    { s with pbNext := if s.fInFragment then pbSegment else s.pbNext }, ?_, ?_⟩
  · rw [regular, if_neg htorn]
    dsimp only
    rw [if_neg (by omega), if_neg (by omega)]
  · rw [hzero]
    exact Nat.le_refl _

/-- A record whose size is checked is read within the segment. -/
theorem switch_good (h : log.In pbStart pbSegment s) (hchecked : ¬ log.Unchecked pbSegment s) :
    (∀ access ∈ (log.switch pbSegment s).1, log.Inside access) ∧
      log.Good pbStart s.pbCurrent (log.switch pbSegment s).2 := by
  rw [Unchecked] at hchecked
  rw [switch]
  split_ifs at hchecked ⊢ with hbegin hcontinue hnop
  · exact fragmentBegin_good h hchecked
  · exact fragment_good h hchecked
  · exact nop_good h hnop
  · exact regular_good h hchecked

/-- A record whose size is not checked is read past the segment. -/
theorem switch_bad (h : log.In pbStart pbSegment s) (hunchecked : log.Unchecked pbSegment s) :
    log.Bad (log.switch pbSegment s) := by
  rw [Unchecked] at hunchecked
  rw [switch]
  split_ifs at hunchecked ⊢ with hbegin hcontinue hnop
  · exact fragmentBegin_bad h hunchecked
  · exact fragment_bad h hunchecked
  · exact regular_bad hunchecked

/-! ## A turn -/

/-- The scan is behind the header of its segment. -/
theorem Inv.skip (h : log.Inv pbStart s) (hlt : s.pbCurrent < log.lgposLastRec) :
    log.In pbStart (log.pbSegment s.pbCurrent) (log.skip s) := by
  obtain ⟨hheader, hinside, hle⟩ := log.pbSkipHeader_bounds h.boundary
  have hbelow := (log.pbSegment_le s.pbCurrent).trans_lt hlt
  exact ⟨log.pbSegment_dvd _, hbelow, hheader, hinside, h.start.trans hle, h.next.trans hle,
    h.noSkip, h.fragment⟩

/-- The header is looked for within the buffer. -/
theorem inside_skipReads (h : log.Inv pbStart s) (hlt : s.pbCurrent < log.lgposLastRec) :
    ∀ access ∈ log.skipReads s, log.Inside access := by
  have hin := h.skip hlt
  have hsec := log.cbSec_le
  have h40 : cbLGSEGHDR = 40 := rfl
  have hle := log.pbSegment_le s.pbCurrent
  have hheader := hin.header
  have hinside := hin.inside
  intro access hmem
  rcases List.mem_append.1 hmem with hmem | hmem
  · split_ifs at hmem with hbegin
    · rw [List.mem_singleton] at hmem
      subst hmem
      exact hin.segment hle (by omega)
    · cases hmem
  · rw [List.mem_singleton] at hmem
    subst hmem
    exact hin.segment ((Nat.le_add_right _ _).trans hheader) hinside

/-- A turn that does not stray is inside, and gets on. -/
theorem turn_good (h : log.Inv pbStart s) (hstray : ¬ log.Strays s) :
    (∀ access ∈ (log.turn s).1, log.Inside access) ∧
      log.Good pbStart s.pbCurrent (log.turn s).2 := by
  rw [turn]
  by_cases hend : log.lgposLastRec ≤ s.pbCurrent
  · rw [if_pos hend]
    exact ⟨fun _ hmem => (by cases hmem), trivial⟩
  rw [if_neg hend]
  cases hsector : log.errSector (s.pbCurrent / log.cbSec) with
  | some code => exact ⟨fun _ hmem => (by cases hmem), trivial⟩
  | none =>
    have hlt := Nat.lt_of_not_le hend
    obtain ⟨hinside, hgood⟩ := switch_good (h.skip hlt) fun hunchecked =>
      hstray ⟨hlt, hsector, hunchecked⟩
    refine ⟨fun access hmem => ?_, ?_⟩
    · rcases List.mem_append.1 hmem with hmem | hmem
      · exact inside_skipReads h hlt access hmem
      · exact hinside access hmem
    · have hle := (log.pbSkipHeader_bounds h.boundary).2.2
      dsimp only
      cases hturn : (log.switch (log.pbSegment s.pbCurrent) (log.skip s)).2 with
      | next s' =>
        rw [hturn] at hgood
        exact ⟨hgood.1, hle.trans_lt hgood.2⟩
      | error err s' => trivial
      | record plr pbNextNext s' =>
        rw [hturn] at hgood
        exact hgood

/-- A turn that strays is not inside or does not get on. -/
theorem turn_bad (h : log.Inv pbStart s) (hstray : log.Strays s) : log.Bad (log.turn s) := by
  obtain ⟨hlt, hsector, hunchecked⟩ := hstray
  rw [turn, if_neg (by omega), hsector]
  rcases switch_bad (h.skip hlt) hunchecked with ⟨access, hmem, hout⟩ | hrecord
  · exact .inl ⟨access, List.mem_append_right _ hmem, hout⟩
  · exact .inr hrecord

/-- A scan that goes on is not at the end. -/
theorem lt_of_turn_next {s' : Scan} (h : (log.turn s).2 = .next s') :
    s.pbCurrent < log.lgposLastRec := by
  rw [turn] at h
  by_contra hge
  rw [if_pos (by omega)] at h
  cases h

/-! ## A call -/

variable {fPreread : Bool} {r : LOG_READ_BUFFER} {n : Nat}

/-- A turn that goes on is followed by the next. -/
theorem getRecord_next {s' : Scan} (h : (log.turn s).2 = .next s') :
    log.getRecord fPreread r (n + 1) s =
      ((log.turn s).1 ++ (log.getRecord fPreread r n s').1, (log.getRecord fPreread r n s').2) := by
  have heq : log.turn s = ((log.turn s).1, .next s') := Prod.ext rfl h
  rw [getRecord, heq]

/-- A turn with an error ends the call. -/
theorem getRecord_error {err : ERR} {s' : Scan} (h : (log.turn s).2 = .error err s') :
    log.getRecord fPreread r (n + 1) s = ((log.turn s).1, .error err,
      update fPreread r (if err = .errLGNoMoreRecords then some s'.pbCurrent else r.pbNextNext)
        s') := by
  have heq : log.turn s = ((log.turn s).1, .error err s') := Prod.ext rfl h
  rw [getRecord, heq]

/-- A turn with a record ends the call. -/
theorem getRecord_record {plr : RECORD} {pbNextNext : Nat} {s' : Scan}
    (h : (log.turn s).2 = .record plr pbNextNext s') :
    log.getRecord fPreread r (n + 1) s =
      ((log.turn s).1, .record plr, update fPreread r (some pbNextNext) s') := by
  have heq : log.turn s = ((log.turn s).1, .record plr pbNextNext s') := Prod.ext rfl h
  rw [getRecord, heq]

/-- Behind the record that a call returns is the position for the next one. -/
def GetsOn (pbStart : Nat) (call : List Access × Result × LOG_READ_BUFFER) : Prop :=
  ∀ plr, call.2.1 = .record plr → ∃ pbNextNext, call.2.2.pbNextNext = some pbNextNext ∧
    log.Boundary pbNextNext ∧ call.2.2.pbNext ≤ pbNextNext ∧ pbStart < pbNextNext

/-- Where no turn strays, the reads stay within the buffer and the call gets on. -/
theorem getRecord_good (h : log.Inv pbStart s) (hn : log.lgposLastRec - s.pbCurrent < n)
    (hvisits : ∀ t, log.Visits s t → ¬ log.Strays t) :
    log.Safe (log.getRecord fPreread r n s) ∧
      log.GetsOn pbStart (log.getRecord fPreread r n s) := by
  induction n generalizing s with
  | zero => omega
  | succ n ih =>
    obtain ⟨hinside, hgood⟩ := turn_good h (hvisits s (.refl s))
    cases hturn : (log.turn s).2 with
    | next s' =>
      rw [hturn] at hgood
      rw [getRecord_next hturn]
      have hlt := lt_of_turn_next hturn
      obtain ⟨hsafe, hon⟩ := ih hgood.1 (by have := hgood.2; omega) fun t ht =>
        hvisits t (.next hturn ht)
      refine ⟨⟨fun access hmem => ?_, hsafe.2⟩, hon⟩
      rcases List.mem_append.1 hmem with hmem | hmem
      · exact hinside access hmem
      · exact hsafe.1 access hmem
    | error err s' =>
      rw [getRecord_error hturn]
      exact ⟨⟨hinside, trivial⟩, fun plr hplr => (by cases hplr)⟩
    | record plr pbNextNext s' =>
      rw [hturn] at hgood
      rw [getRecord_record hturn]
      obtain ⟨hpos, hboundary, hnext, hstart⟩ := hgood
      exact ⟨⟨hinside, pbNextNext, rfl, hpos⟩, fun _ _ =>
        ⟨pbNextNext, rfl, hboundary, hnext, hstart⟩⟩

/-- Where the reads stay within the buffer, no turn strays. -/
theorem getRecord_bad (h : log.Inv pbStart s) (hn : log.lgposLastRec - s.pbCurrent < n)
    (hsafe : log.Safe (log.getRecord fPreread r n s)) : ∀ t, log.Visits s t → ¬ log.Strays t := by
  induction n generalizing s with
  | zero => omega
  | succ n ih =>
    have hstray : ¬ log.Strays s := by
      intro hstray
      rcases turn_bad h hstray with ⟨access, hmem, hout⟩ | ⟨plr, pbNextNext, s', hturn, hle⟩
      · refine hout (hsafe.1 access ?_)
        cases hturn : (log.turn s).2 with
        | next s' =>
          rw [getRecord_next hturn]
          exact List.mem_append_left _ hmem
        | error err s' =>
          rw [getRecord_error hturn]
          exact hmem
        | record plr pbNextNext s' =>
          rw [getRecord_record hturn]
          exact hmem
      · rw [getRecord_record hturn] at hsafe
        obtain ⟨_, heq, hlt⟩ := hsafe.2
        cases heq
        exact absurd hlt (Nat.not_lt.2 hle)
    intro t ht
    cases ht with
    | refl => exact hstray
    | next hturn ht =>
      obtain ⟨_, hgood⟩ := turn_good h hstray
      rw [hturn] at hgood
      rw [getRecord_next hturn] at hsafe
      have hlt := lt_of_turn_next hturn
      refine ih hgood.1 (by have := hgood.2; omega) ⟨fun access hmem => ?_, hsafe.2⟩ t ht
      exact hsafe.1 access (List.mem_append_right _ hmem)

/-- At a record the scan is within the log. -/
theorem AtRecord.inv (h : log.AtRecord r) {pbNextNext : Nat}
    (hnext : r.pbNextNext = some pbNextNext) :
    log.Inv pbNextNext (scan fPreread r pbNextNext false) :=
  ⟨(h _ hnext).1, Nat.le_refl _, Nat.le_refl _, rfl, fun hfragment => (by cases hfragment)⟩

/-- A call that meets nothing unchecked is safe, and leaves the reader at a record behind the one it
was at. -/
theorem getNextRecFF_good (h : log.AtRecord r) (hmeets : log.Meets fPreread r) :
    log.Safe (log.getNextRecFF fPreread r) ∧
      ∀ pbNextNext, r.pbNextNext = some pbNextNext →
        log.GetsOn pbNextNext (log.getNextRecFF fPreread r) := by
  rw [getNextRecFF]
  cases hnext : r.pbNextNext with
  | none => exact ⟨⟨fun _ hmem => (by cases hmem), trivial⟩, fun _ heq => (by cases heq)⟩
  | some pbNextNext =>
    have hle := (h _ hnext).2
    dsimp only
    split_ifs with hend henforce hbuffer horder
    · exact ⟨⟨fun _ hmem => (by cases hmem), trivial⟩, fun _ _ _ hplr => (by cases hplr)⟩
    · omega
    · exact ⟨⟨fun _ hmem => (by cases hmem), trivial⟩, fun _ _ _ hplr => (by cases hplr)⟩
    · omega
    · have hcall := @getRecord_good log pbNextNext _ fPreread
        ⟨pbNextNext, some pbNextNext, r.assembledLR⟩ _ (h.inv hnext)
        (Nat.lt_succ_self _) (hmeets _ hnext (by omega) (by omega))
      refine ⟨hcall.1, fun p heq => ?_⟩
      cases heq
      exact hcall.2

/-- A call whose reads stay within the buffer strays nowhere. -/
theorem getNextRecFF_meets (h : log.AtRecord r) (hsafe : log.Safe (log.getNextRecFF fPreread r)) :
    log.Meets fPreread r := by
  intro pbNextNext hnext hmin hmax s hvisits
  have hle := (h _ hnext).2
  by_cases hend : log.lgposLastRec ≤ pbNextNext
  · -- no turn goes on, and the first does not stray
    cases hvisits with
    | refl => exact fun hstray => absurd hstray.1 (Nat.not_lt.2 hend)
    | next hturn _ => exact absurd (lt_of_turn_next hturn) (Nat.not_lt.2 hend)
  rw [getNextRecFF, hnext] at hsafe
  dsimp only at hsafe
  rw [if_neg hend, if_neg (by omega), if_neg (by omega), if_neg (by omega)] at hsafe
  exact getRecord_bad (h.inv hnext) (Nat.lt_succ_self _) hsafe s hvisits

/-! ## A loop of calls -/

/-- What the reader becomes while the calls return records. -/
inductive Reached (log : LOG_FILE) (fPreread : Bool) : LOG_READ_BUFFER → LOG_READ_BUFFER → Prop
  | refl (r : LOG_READ_BUFFER) : Reached log fPreread r r
  | next {r r' : LOG_READ_BUFFER} {plr : RECORD}
      (h : (log.getNextRecFF fPreread r).2.1 = .record plr)
      (hr : Reached log fPreread (log.getNextRecFF fPreread r).2.2 r') : Reached log fPreread r r'

/-- After a record the next call is at one. -/
theorem AtRecord.next (h : log.AtRecord r) (hmeets : log.Meets fPreread r) {plr : RECORD}
    (hplr : (log.getNextRecFF fPreread r).2.1 = .record plr) :
      log.AtRecord (log.getNextRecFF fPreread r).2.2 := by
  intro p hp
  cases hnext : r.pbNextNext with
  | none =>
    rw [getNextRecFF, hnext] at hplr
    cases hplr
  | some pbNextNext =>
    obtain ⟨p', hp', hboundary, hle, _⟩ := (getNextRecFF_good h hmeets).2 _ hnext plr hplr
    cases hp.symm.trans hp'
    exact ⟨hboundary, hle⟩

/-- The loop ends: each call is at a position behind the one before. -/
theorem exists_error (h : log.AtRecord r) (hall : ∀ r', Reached log fPreread r r' →
    log.Meets fPreread r') :
    ∃ r' err, Reached log fPreread r r' ∧ (log.getNextRecFF fPreread r').2.1 = .error err := by
  induction hn : log.lgposLastRec - r.pbNextNext.getD log.lgposLastRec using Nat.strong_induction_on
    generalizing r with
  | _ n ih =>
    obtain ⟨hsafe, hon⟩ := getNextRecFF_good h (hall r (.refl r))
    cases hresult : (log.getNextRecFF fPreread r).2.1 with
    | error err => exact ⟨r, err, .refl r, hresult⟩
    | record plr =>
      have hall' : ∀ r', Reached log fPreread (log.getNextRecFF fPreread r).2.2 r' →
        log.Meets fPreread r' :=
        fun r' hr' => hall r' (.next hresult hr')
      cases hnext : r.pbNextNext with
      | none =>
        rw [getNextRecFF, hnext] at hresult
        cases hresult
      | some pbNextNext =>
        obtain ⟨p, hp, _, _, hlt⟩ := hon _ hnext plr hresult
        have hbelow : pbNextNext < log.lgposLastRec := by
          by_contra hge
          rw [getNextRecFF, hnext] at hresult
          dsimp only at hresult
          rw [if_pos (by omega)] at hresult
          cases hresult
        rw [hnext] at hn
        obtain ⟨r', err, hr', herr⟩ := ih _ (by rw [hp, ← hn]; dsimp only [Option.getD]; omega)
          (h.next (hall r (.refl r)) hresult) hall' rfl
        exact ⟨r', err, .next hresult hr', herr⟩
    | enforce =>
      rw [Safe, hresult] at hsafe
      exact hsafe.2.elim
    | loop =>
      rw [Safe, hresult] at hsafe
      exact hsafe.2.elim

/-- A call of `ErrLGGetNextRecFF` at a record is safe exactly if no turn of its loop comes to a
fragment that overruns its segment by its header or to a record of size zero. The calls of a loop
are all safe exactly if none of them does, and then the loop ends. -/
theorem getNextRecFF_safe_iff (fPreread : Bool) (h : log.AtRecord r) :
    (log.Safe (log.getNextRecFF fPreread r) ↔ log.Meets fPreread r) ∧
      ((∀ r', Reached log fPreread r r' → log.Safe (log.getNextRecFF fPreread r')) ↔
        ∀ r', Reached log fPreread r r' → log.Meets fPreread r') ∧
      ((∀ r', Reached log fPreread r r' → log.Meets fPreread r') →
        ∃ r' err, Reached log fPreread r r' ∧ (log.getNextRecFF fPreread r').2.1 = .error err) := by
  have hone : ∀ {r}, log.AtRecord r →
    (log.Safe (log.getNextRecFF fPreread r) ↔ log.Meets fPreread r) :=
    fun h => ⟨getNextRecFF_meets h, fun hmeets => (getNextRecFF_good h hmeets).1⟩
  refine ⟨hone h, ⟨fun hsafe r' hr' => ?_, fun hmeets r' hr' => ?_⟩, exists_error h⟩
  · induction hr' with
    | refl => exact (hone h).1 (hsafe _ (.refl _))
    | next hplr _ ih =>
      exact ih (h.next ((hone h).1 (hsafe _ (.refl _))) hplr) fun r' hr' =>
        hsafe r' (.next hplr hr')
  · induction hr' with
    | refl => exact (hone h).2 (hmeets _ (.refl _))
    | next hplr _ ih =>
      exact ih (h.next (hmeets _ (.refl _)) hplr) fun r' hr' => hmeets r' (.next hplr hr')

/-- A log file of one segment behind its header, with a record at its begin and zeros behind it. -/
def oneRecord (rgbRecord : List Byte) : LOG_FILE where
  cbSec := 4096
  rgb := Mem.write (fun _ => 0) 4136 rgbRecord
  pbLGBufMin := 4096
  pbLGBufMax := 8192
  lgposLastRec := 8192
  errSector := fun _ => none
  fAlloc := fun _ => true
  cbSec_le := by decide

/-- The reader at the begin of the segment. -/
def atBegin : LOG_READ_BUFFER := ⟨4096, some 4096, fun _ => ⟨0, fun _ => 0⟩⟩

/-- The first call is at a record. -/
theorem atRecord_atBegin (rgbRecord : List Byte) : (oneRecord rgbRecord).AtRecord atBegin := by
  intro p hp
  cases hp
  have hbegin : 4096 = 4096 / 4096 * 4096 := by decide
  exact ⟨.inl hbegin, Nat.le_refl _⟩

/-- The equivalences at a log of one record. -/
theorem getNextRecFF_safe_iff_end :
    ((oneRecord [4]).Safe ((oneRecord [4]).getNextRecFF false atBegin) ↔
      (oneRecord [4]).Meets false atBegin) ∧
      ((∀ r', Reached (oneRecord [4]) false atBegin r' →
        (oneRecord [4]).Safe ((oneRecord [4]).getNextRecFF false r')) ↔
        ∀ r', Reached (oneRecord [4]) false atBegin r' → (oneRecord [4]).Meets false r') ∧
      ((∀ r', Reached (oneRecord [4]) false atBegin r' → (oneRecord [4]).Meets false r') →
        ∃ r' err, Reached (oneRecord [4]) false atBegin r' ∧
          ((oneRecord [4]).getNextRecFF false r').2.1 = .error err) :=
  getNextRecFF_safe_iff false (atRecord_atBegin [4])

end

/-- A record of the type 41, `lrtypSLVSpaceOBSOLETE`, has no size: the reader returns it and stays
where it is. -/
theorem getNextRecFF_stays :
    ¬ ∀ (log : LOG_FILE) (fPreread : Bool) (r : LOG_READ_BUFFER), log.AtRecord r →
      log.Safe (log.getNextRecFF fPreread r) := by
  intro h
  have hrecord : ((oneRecord [41]).getNextRecFF false atBegin).2.1 = .record (.segment 4136) := by
    decide +kernel
  have hstays : ((oneRecord [41]).getNextRecFF false atBegin).2.2.pbNextNext = some 4136 := by
    decide +kernel
  have hsafe := (h (oneRecord [41]) false atBegin (atRecord_atBegin [41])).2
  rw [hrecord] at hsafe
  obtain ⟨p, hp, hlt⟩ := hsafe
  cases hp.symm.trans hstays
  exact absurd hlt (Nat.lt_irrefl 4136)

end LOG_FILE

end Ese.LogRead
