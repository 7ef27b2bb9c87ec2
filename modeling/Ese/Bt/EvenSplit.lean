import Mathlib
import Ese.Bt.RecalculatePrefix
import Ese.Lib.Nearest

/-!
# The split point

A right split is to leave about half of the data on the split page. `BTISelectEvenSplit` first looks
for the split point that is nearest to that, without a look at the room on the pages, and then moves
away from it as long as one of the pages overflows. `BTISelectEvenSplitDebug` tries every split
point from the last line down. The sizes on a page are those that the nodes may grow to, less what
the best prefix saves.

A failed enforce has no result.
-/

namespace Ese.Bt

open Valley

/-- The split point that is found, line zero if there is none, with the prefixes of both pages. -/
structure CANDIDATE where
  iline : Nat
  prefixinfoSplit : PREFIXINFO
  prefixinfoNew : PREFIXINFO
  deriving DecidableEq, Repr

/-- No split point. -/
def CANDIDATE.none : CANDIDATE := ⟨0, .nullify, .nullify⟩

/-- Which way the split point went last. -/
inductive SPLITPOINTCHANGE where
  | SPLIT_PAGE_SMALLER
  | SPLIT_PAGE_LARGER
  | UNKNOWN
  deriving DecidableEq, Repr

namespace SPLIT

section
variable (split : SPLIT)

/-- The size of the lines up to `iline`. -/
def cbSizeLE (iline : Nat) : Option Nat := (getLine split.rglineinfo iline).map LINEINFO.cbSizeLE

/-- The largest size of the lines up to `iline`. -/
def cbSizeMaxLE (iline : Nat) : Option Nat :=
  (getLine split.rglineinfo iline).map LINEINFO.cbSizeMaxLE

/-! ## The most even split point -/

/-- The loop of `BTISelectEvenSplitWithoutCheckingOverflows`, with a bound on the steps left. -/
def evenSplitLoop (cbSizeTotal : Nat) (fFirstSplitPageWasSmaller : Bool) :
    Nat → Nat → Nat → Nat → Option Nat
  | 0, _, _, _ => none
  | fuel + 1, iline, ilineCandidate, cbSizeCandidateLE => do
    let cbSizeSplitPage ← split.cbSizeLE (iline - 1)
    let fSplitPageIsSmaller : Bool := decide (cbSizeSplitPage < cbSizeTotal - cbSizeSplitPage)
    let fBetter : Bool :=
      decide (absdiff cbSizeCandidateLE (cbSizeTotal / 2) > absdiff cbSizeSplitPage
        (cbSizeTotal / 2)) ||
        decide (absdiff cbSizeCandidateLE (cbSizeTotal / 2) = absdiff cbSizeSplitPage
          (cbSizeTotal / 2) ∧
          iline > ilineCandidate)
    let ilineCandidate := if fBetter then iline else ilineCandidate
    let cbSizeCandidateLE := if fBetter then cbSizeSplitPage else cbSizeCandidateLE
    if fFirstSplitPageWasSmaller ≠ fSplitPageIsSmaller then some ilineCandidate
    else if fSplitPageIsSmaller then
      if split.clines = iline + 1 then some ilineCandidate
      else evenSplitLoop cbSizeTotal fFirstSplitPageWasSmaller fuel
              (iline + 1) ilineCandidate cbSizeCandidateLE
    else
      if 0 = iline - 1 then some ilineCandidate
      else evenSplitLoop cbSizeTotal fFirstSplitPageWasSmaller fuel
              (iline - 1) ilineCandidate cbSizeCandidateLE

/-- `BTISelectEvenSplitWithoutCheckingOverflows`. -/
def btiSelectEvenSplitWithoutCheckingOverflows : Option Nat := do
  let cbSizeTotal ← split.cbSizeLE (split.clines - 1)
  let iline := split.clines / 2
  let cbSizeFirstSplitPage ← split.cbSizeLE (iline - 1)
  let fFirstSplitPageWasSmaller : Bool :=
    decide (cbSizeFirstSplitPage < cbSizeTotal - cbSizeFirstSplitPage)
  split.evenSplitLoop cbSizeTotal fFirstSplitPageWasSmaller split.clines iline 0 0

/-! ## Overflows -/

variable (cbPageAvail : Nat)

/-- `FBTISplitCausesNoOverflow`: which of the pages overflows, the split page or the new page. -/
def fBTISplitCausesNoOverflow (ilineSplit : Nat) : Option (Bool × Bool) := do
  let cbSizeMaxLE ← (if ilineSplit = 0 then some 0 else split.cbSizeMaxLE (ilineSplit - 1))
  let cbSizeMaxTotal ← split.cbSizeMaxLE (split.clines - 1)
  let cbSplitPage : Int :=
    if ilineSplit = 0 then 0 else cbSizeMaxLE - split.prefixinfoSplit.cbSavings
  let cbNewPage : Int := cbSizeMaxTotal - cbSizeMaxLE - split.prefixinfoNew.cbSavings
  let fSplitPageFits : Bool := decide (cbSplitPage ≤ cbPageAvail)
  let fNewPageFits : Bool := decide (ilineSplit = split.clines ∨ cbNewPage ≤ cbPageAvail)
  some (!fSplitPageFits, !fNewPageFits)

end

variable (cbPageAvail : Nat)

/-- The loop of `BTISelectEvenSplitDebug`, from line `iline` down. -/
def evenSplitDebugLoop (cbSizeTotal : Nat) : Nat → SPLIT → CANDIDATE → Nat → Option CANDIDATE
  | 0, _, candidate, _ => some candidate
  | iline + 1, split, candidate, cbSizeCandidateLE => do
    let split ← split.btiSelectPrefixes (iline + 1)
    let (fSplitPageOverflow, fNewPageOverflow) ← split.fBTISplitCausesNoOverflow cbPageAvail
      (iline + 1)
    if !fSplitPageOverflow && !fNewPageOverflow then
      let cbSizeLE ← split.cbSizeLE iline
      if absdiff cbSizeCandidateLE (cbSizeTotal / 2) > absdiff cbSizeLE (cbSizeTotal / 2) then
        evenSplitDebugLoop cbSizeTotal iline split
          ⟨iline + 1, split.prefixinfoSplit, split.prefixinfoNew⟩ cbSizeLE
      else evenSplitDebugLoop cbSizeTotal iline split candidate cbSizeCandidateLE
    else if split.clines > 2
      then evenSplitDebugLoop cbSizeTotal iline split candidate cbSizeCandidateLE
    else none

/-- `BTISelectEvenSplitDebug`. It puts the prefixes of `split` back. -/
def btiSelectEvenSplitDebug (split : SPLIT) : Option CANDIDATE := do
  let cbSizeTotal ← split.cbSizeLE (split.clines - 1)
  if split.clines > 1 then
    evenSplitDebugLoop cbPageAvail cbSizeTotal (split.clines - 1)
      { split with prefixinfoSplit := .nullify, prefixinfoNew := .nullify } .none 0
  else none

/-- The loop of `BTISelectEvenSplit`, with a bound on the steps left. -/
def evenSplitOverflowLoop : Nat → SPLIT → Nat → SPLITPOINTCHANGE → Option (SPLIT × CANDIDATE)
  | 0, _, _, _ => none
  | fuel + 1, split, iline, lastsplitpointChange => do
    let (fSplitPageOverflow, fNewPageOverflow) ← split.fBTISplitCausesNoOverflow cbPageAvail iline
    if fSplitPageOverflow || fNewPageOverflow then
      if fSplitPageOverflow && fNewPageOverflow then some (split, .none)
      else if ¬split.clines > 2 then none
      else
        let splitpointChange : SPLITPOINTCHANGE := if fSplitPageOverflow then .SPLIT_PAGE_SMALLER
          else .SPLIT_PAGE_LARGER
        if (.SPLIT_PAGE_LARGER = lastsplitpointChange ∧ .SPLIT_PAGE_SMALLER = splitpointChange) ∨
            (.SPLIT_PAGE_SMALLER = lastsplitpointChange ∧ .SPLIT_PAGE_LARGER = splitpointChange)
              then
          some (split, .none)
        else if .SPLIT_PAGE_LARGER = splitpointChange then
          if split.clines = iline + 1 then some (split, .none)
          else do
            let split ← split.btiRecalculatePrefix iline (iline + 1)
            evenSplitOverflowLoop fuel split (iline + 1) splitpointChange
        else
          if 0 = iline - 1 then some (split, .none)
          else do
            let split ← split.btiRecalculatePrefix iline (iline - 1)
            evenSplitOverflowLoop fuel split (iline - 1) splitpointChange
    else some (split, ⟨iline, split.prefixinfoSplit, split.prefixinfoNew⟩)

/-- `BTISelectEvenSplit`. -/
def btiSelectEvenSplit (split : SPLIT) : Option (SPLIT × CANDIDATE) := do
  let iline ← split.btiSelectEvenSplitWithoutCheckingOverflows
  let split ← split.selectPrefixSplit iline
  let split ← split.selectPrefixNew iline (split.clines - iline)
  evenSplitOverflowLoop cbPageAvail split.clines split iline .UNKNOWN

/-- Neither page overflows at a split point, with the prefixes chosen from scratch. -/
def fitsAt (split : SPLIT) (iline : Nat) : Option Bool := do
  let split ← split.selectPrefixSplit iline
  let split ← split.selectPrefixNew iline (split.clines - iline)
  let (fSplitPageOverflow, fNewPageOverflow) ← split.fBTISplitCausesNoOverflow cbPageAvail iline
  some (!fSplitPageOverflow && !fNewPageOverflow)

end SPLIT

/-! ## The sizes -/

/-- The sizes of the lines before line `i`. -/
def sizesBefore (rglineinfo : List LINEINFO) (i : Nat) : Nat :=
  ∑ j ∈ Finset.range i, (getLine rglineinfo j).elim 0 LINEINFO.cbSize

/-- The greatest sizes of the lines before line `i`. -/
def sizesMaxBefore (rglineinfo : List LINEINFO) (i : Nat) : Nat :=
  ∑ j ∈ Finset.range i, (getLine rglineinfo j).elim 0 LINEINFO.cbSizeMax

/-- The weights of `clines` lines, as `BTIRecalcWeightsLE` sets them. -/
structure Weights (m : Mem) (rglineinfo : List LINEINFO) (clines : Nat) : Prop where
  weighed : Weighed m rglineinfo 0 clines
  cbSizeLE : ∀ iline < clines, ∀ line, getLine rglineinfo iline = some line →
    line.cbSizeLE = sizesBefore rglineinfo (iline + 1)
  cbSizeMaxLE : ∀ iline < clines, ∀ line, getLine rglineinfo iline = some line →
    line.cbSizeMaxLE = sizesMaxBefore rglineinfo (iline + 1)

/-- The sizes of the nodes: a node has its key, may grow, and takes a byte at least. -/
def SizesOk (rglineinfo : List LINEINFO) (clines : Nat) : Prop :=
  ∀ iline < clines, ∀ line, getLine rglineinfo iline = some line →
    line.kdf.key.cb ≤ line.cbSize ∧ line.cbSize ≤ line.cbSizeMax ∧ 0 < line.cbSize

/-- The greatest savings of a prefix. -/
def maxSavings (c : Nat → Nat) (n : Nat) : Nat := (Finset.range n).sup (sum c n) - cbPrefixOverhead

section
variable {c : Nat → Nat} {n i : Nat}

/-- A line saves no more than the best one. -/
theorem sum_le_sup (hi : i < n) : sum c n i ≤ (Finset.range n).sup (sum c n) :=
  Finset.le_sup (Finset.mem_range.2 hi)

/-- The best prefix saves the most, less the overhead. -/
theorem IsBest.cbSavings_eq {prefixinfo : PREFIXINFO} (h : IsBest c n prefixinfo) :
    prefixinfo.cbSavings = maxSavings c n := by
  unfold maxSavings
  cases h with
  | null h =>
    have hle : (Finset.range n).sup (sum c n) ≤ cbPrefixOverhead :=
      Finset.sup_le fun i hi => h i (Finset.mem_range.1 hi)
    rw [Nat.sub_eq_zero_of_le hle]
    rfl
  | @found p b e hbest hpos =>
    have heq : (Finset.range n).sup (sum c n) = sum c n p :=
      le_antisymm (Finset.sup_le fun i hi => hbest.le i (Finset.mem_range.1 hi))
        (sum_le_sup (hbest.segment.le_end.trans_lt hbest.segment.end_lt))
    rw [heq]
    dsimp only
    omega

/-- With one line more a page saves at most what the line has in common more. -/
theorem maxSavings_append (c : Nat → Nat) (hn : 0 < n) :
    maxSavings c (n + 1) ≤ maxSavings c n + c n := by
  have hle : (Finset.range (n + 1)).sup (sum c (n + 1)) ≤ (Finset.range n).sup (sum c n) + c n :=
    Finset.sup_le fun i hi => by
      obtain ⟨k, hk, hik⟩ := sum_le_append hn (Finset.mem_range.1 hi)
      exact hik.trans (Nat.add_le_add_right (sum_le_sup hk) _)
  unfold maxSavings
  omega

/-- One more line at the front saves what it shares with the next at most. -/
theorem maxSavings_prepend (c : Nat → Nat) (hn : 0 < n) :
    maxSavings c (n + 1) ≤ maxSavings (fun l => c (l + 1)) n + c 1 := by
  have hle : (Finset.range (n + 1)).sup (sum c (n + 1)) ≤
      (Finset.range n).sup (sum (fun l => c (l + 1)) n) + c 1 :=
    Finset.sup_le fun i hi => by
      obtain ⟨k, hk, hik⟩ := sum_le_prepend hn (Finset.mem_range.1 hi)
      exact hik.trans (Nat.add_le_add_right (sum_le_sup hk) _)
  unfold maxSavings
  omega

end

section
variable {m : Mem} {rglineinfo : List LINEINFO} {n i : Nat}

/-- The sizes with one more line. -/
theorem sizesBefore_succ {line : LINEINFO} (h : getLine rglineinfo i = some line) :
    sizesBefore rglineinfo (i + 1) = sizesBefore rglineinfo i + line.cbSize := by
  unfold sizesBefore
  rw [Finset.sum_range_succ, h]
  rfl

/-- The largest sizes with one more line. -/
theorem sizesMaxBefore_succ {line : LINEINFO} (h : getLine rglineinfo i = some line) :
    sizesMaxBefore rglineinfo (i + 1) = sizesMaxBefore rglineinfo i + line.cbSizeMax := by
  unfold sizesMaxBefore
  rw [Finset.sum_range_succ, h]
  rfl

/-- No lines have no size. -/
theorem sizesBefore_zero (rglineinfo : List LINEINFO) : sizesBefore rglineinfo 0 = 0 := rfl

/-- More lines are larger. -/
theorem SizesOk.sizesBefore_lt (hlen : n ≤ rglineinfo.length) (h : SizesOk rglineinfo n) {j : Nat}
    (hij : i < j)
    (hj : j ≤ n) : sizesBefore rglineinfo i < sizesBefore rglineinfo j := by
  induction j with
  | zero => omega
  | succ j ih =>
    obtain ⟨line, hline⟩ := getLine_of_lt (show j < rglineinfo.length by omega)
    obtain ⟨-, -, hpos⟩ := h j (by omega) line hline
    rw [sizesBefore_succ hline]
    rcases Nat.lt_or_ge i j with hlt | hge
    · have := ih hlt (by omega)
      omega
    · obtain rfl : i = j := by omega
      omega

/-- What a key has in common with the one before is no more than either line may take. -/
theorem heights_le_sizeMax (hlen : n < rglineinfo.length) (hweighed : Weighed m rglineinfo 0 n)
    (hsizes : SizesOk rglineinfo n) (hi : i + 1 < n) {prev line : LINEINFO}
    (hprev : getLine rglineinfo i = some prev) (hline : getLine rglineinfo (i + 1) = some line) :
    heights rglineinfo 0 (i + 1) ≤ prev.cbSizeMax ∧
      heights rglineinfo 0 (i + 1) ≤ line.cbSizeMax := by
  have hcommon := hweighed.heights_succ (by omega) hi
  rw [Nat.zero_add, Nat.zero_add, lineKey_of_getLine hprev, lineKey_of_getLine hline] at hcommon
  have hle := commonLen_le_left (prev.kdf.key.bytes m) (line.kdf.key.bytes m)
  have hle' := commonLen_le_left (line.kdf.key.bytes m) (prev.kdf.key.bytes m)
  rw [commonLen_comm] at hle'
  rw [KEY.length_bytes] at hle hle'
  obtain ⟨h1, h2, -⟩ := hsizes i (by omega) prev hprev
  obtain ⟨h3, h4, -⟩ := hsizes (i + 1) hi line hline
  omega

end

namespace SPLIT

variable {m : Mem} {split : SPLIT} {cbPageAvail i : Nat}

/-- The lines before the split point fit on a page. -/
def FitsSplit (split : SPLIT) (cbPageAvail i : Nat) : Prop :=
  sizesMaxBefore split.rglineinfo i ≤ cbPageAvail + maxSavings (heights split.rglineinfo 0) i

/-- The lines from the split point on fit on a page. -/
def FitsNew (split : SPLIT) (cbPageAvail i : Nat) : Prop :=
  sizesMaxBefore split.rglineinfo split.clines ≤
    cbPageAvail + maxSavings (heights split.rglineinfo i) (split.clines - i) +
    sizesMaxBefore split.rglineinfo i

instance : Decidable (FitsSplit split cbPageAvail i) := inferInstanceAs (Decidable (_ ≤ _))

instance : Decidable (FitsNew split cbPageAvail i) := inferInstanceAs (Decidable (_ ≤ _))

/-- With the lines up to a line the lines before it fit too. -/
theorem FitsSplit.pred (hlen : split.clines < split.rglineinfo.length)
    (hweighed : Weighed m split.rglineinfo 0 split.clines)
    (hsizes : SizesOk split.rglineinfo split.clines) (hpos : 0 < i) (hi : i < split.clines)
    (h : split.FitsSplit cbPageAvail (i + 1)) : split.FitsSplit cbPageAvail i := by
  obtain ⟨k, rfl⟩ : ∃ k, i = k + 1 := ⟨i - 1, by omega⟩
  obtain ⟨prev, hprev⟩ := getLine_of_lt (show k < split.rglineinfo.length by omega)
  obtain ⟨line, hline⟩ := getLine_of_lt (show k + 1 < split.rglineinfo.length by omega)
  obtain ⟨-, hle⟩ := heights_le_sizeMax hlen hweighed hsizes hi hprev hline
  have hsavings := maxSavings_append (heights split.rglineinfo 0) hpos
  unfold FitsSplit at h ⊢
  rw [sizesMaxBefore_succ hline] at h
  omega

/-- With the lines from a line on the lines after it fit too. -/
theorem FitsNew.succ (hlen : split.clines < split.rglineinfo.length)
    (hweighed : Weighed m split.rglineinfo 0 split.clines)
    (hsizes : SizesOk split.rglineinfo split.clines) (hi : i + 1 < split.clines)
    (h : split.FitsNew cbPageAvail i) : split.FitsNew cbPageAvail (i + 1) := by
  obtain ⟨prev, hprev⟩ := getLine_of_lt (show i < split.rglineinfo.length by omega)
  obtain ⟨line, hline⟩ := getLine_of_lt (show i + 1 < split.rglineinfo.length by omega)
  obtain ⟨hle, -⟩ := heights_le_sizeMax hlen hweighed hsizes hi hprev hline
  have hsavings :=
    maxSavings_prepend (heights split.rglineinfo i) (show 0 < split.clines - (i + 1) by omega)
  rw [← heights_succ, show split.clines - (i + 1) + 1 = split.clines - i by omega] at hsavings
  have hshift : heights split.rglineinfo i 1 = heights split.rglineinfo 0 (i + 1) := by
    unfold heights
    rw [Nat.zero_add]
  unfold FitsNew at h ⊢
  rw [sizesMaxBefore_succ hprev]
  omega

/-- Fewer lines fit the split page where more do. -/
theorem FitsSplit.of_le (hlen : split.clines < split.rglineinfo.length)
    (hweighed : Weighed m split.rglineinfo 0 split.clines)
    (hsizes : SizesOk split.rglineinfo split.clines) {j : Nat}
    (hj : 0 < j) (hji : j ≤ i) (hi : i ≤ split.clines) (h : split.FitsSplit cbPageAvail i) :
    split.FitsSplit cbPageAvail j := by
  induction i with
  | zero => omega
  | succ i ih =>
    rcases Nat.lt_or_eq_of_le hji with hlt | rfl
    · exact ih (by omega) (by omega) (h.pred hlen hweighed hsizes (by omega) (by omega))
    · exact h

/-- Fewer lines fit the new page where more do. -/
theorem FitsNew.of_le (hlen : split.clines < split.rglineinfo.length)
    (hweighed : Weighed m split.rglineinfo 0 split.clines)
    (hsizes : SizesOk split.rglineinfo split.clines) {j : Nat}
    (hij : i ≤ j) (hj : j < split.clines) (h : split.FitsNew cbPageAvail i) :
      split.FitsNew cbPageAvail j := by
  induction j with
  | zero =>
    obtain rfl : i = 0 := by omega
    exact h
  | succ j ih =>
    rcases Nat.lt_or_eq_of_le hij with hlt | rfl
    · exact (ih (by omega) (by omega)).succ hlen hweighed hsizes hj
    · exact h

/-- The test with a best line on both pages. -/
theorem BestAt.fBTISplitCausesNoOverflow_eq (cbPageAvail : Nat)
    (hlen : split.clines < split.rglineinfo.length)
    (hweights : Weights m split.rglineinfo split.clines) (hpos : 0 < i) (hi : i < split.clines)
      (h : split.BestAt i) :
    split.fBTISplitCausesNoOverflow cbPageAvail i =
      some (!decide (split.FitsSplit cbPageAvail i), !decide (split.FitsNew cbPageAvail i)) := by
  obtain ⟨last, hlast⟩ := getLine_of_lt (show split.clines - 1 < split.rglineinfo.length by omega)
  obtain ⟨line, hline⟩ := getLine_of_lt (show i - 1 < split.rglineinfo.length by omega)
  have hlastSize := hweights.cbSizeMaxLE _ (by omega) last hlast
  have hlineSize := hweights.cbSizeMaxLE _ (by omega) line hline
  rw [Nat.sub_add_cancel (by omega)] at hlastSize hlineSize
  unfold fBTISplitCausesNoOverflow cbSizeMaxLE
  rw [if_neg (by omega), hlast, hline, Option.map_some, Option.map_some, h.splitPage.cbSavings_eq,
    h.newPage.cbSavings_eq, hlastSize, hlineSize]
  simp only [Option.bind_eq_bind, Option.bind_some, if_neg (show ¬ i = 0 by omega),
    show ¬ i = split.clines by omega, false_or]
  have hsplit : ((sizesMaxBefore split.rglineinfo i : Int) - maxSavings
      (heights split.rglineinfo 0) i ≤ cbPageAvail) ↔
      split.FitsSplit cbPageAvail i := by
    unfold FitsSplit
    omega
  have hnew : ((sizesMaxBefore split.rglineinfo split.clines : Int) - sizesMaxBefore
      split.rglineinfo i -
      maxSavings (heights split.rglineinfo i) (split.clines - i) ≤ cbPageAvail) ↔
        split.FitsNew cbPageAvail i := by
    unfold FitsNew
    omega
  simp only [hsplit, hnew]

/-! ## The walk to the most even split point -/

section
variable {cbSizeTotal start fuel ilineCandidate cbSizeCandidateLE : Nat}

/-- The sums of the sizes can be read. -/
theorem cbSizeLE_eq (hlen : split.clines < split.rglineinfo.length)
    (hweights : Weights m split.rglineinfo split.clines)
    (hpos : 0 < i) (hi : i ≤ split.clines) :
      split.cbSizeLE (i - 1) = some (sizesBefore split.rglineinfo i) := by
  obtain ⟨line, hline⟩ := getLine_of_lt (show i - 1 < split.rglineinfo.length by omega)
  have hsize := hweights.cbSizeLE _ (by omega) line hline
  rw [Nat.sub_add_cancel (by omega)] at hsize
  unfold cbSizeLE
  rw [hline, Option.map_some, hsize]

/-- The candidate of the walk: none yet, or the nearest of the lines `P` that were tried. -/
def IsCandidate (P : Nat → Prop) (f : Nat → Nat) (t ilineCandidate cbSizeCandidateLE : Nat) :
    Prop :=
  ((∀ k, ¬ P k) ∧ ilineCandidate = 0 ∧ cbSizeCandidateLE = 0) ∨
    (Nearest P f t ilineCandidate ∧ cbSizeCandidateLE = f ilineCandidate)

/-- `fBetter` of the walk. -/
def better (t size iline ilineCandidate cbSizeCandidateLE : Nat) : Bool :=
  decide (absdiff cbSizeCandidateLE t > absdiff size t) ||
    decide (absdiff cbSizeCandidateLE t = absdiff size t ∧ iline > ilineCandidate)

/-- A line that is tried after those before it, or before those after it, takes over as it
should. -/
theorem IsCandidate.step {P Q : Nat → Prop} {f : Nat → Nat} {t : Nat}
    (h : IsCandidate P f t ilineCandidate cbSizeCandidateLE) (hpos : 0 < i) (hsize : f i ≤ 2 * t)
    (hside : (∀ k, P k → k < i) ∨ ∀ k, P k → i < k) (hQ : ∀ k, Q k ↔ P k ∨ k = i) :
    Nearest Q f t (if better t (f i) i ilineCandidate cbSizeCandidateLE then i
      else ilineCandidate) ∧
      (if better t (f i) i ilineCandidate cbSizeCandidateLE then f i else cbSizeCandidateLE) =
        f (if better t (f i) i ilineCandidate cbSizeCandidateLE then i else ilineCandidate) := by
  rcases h with ⟨hnone, rfl, rfl⟩ | ⟨hnearest, rfl⟩
  · have hzero : absdiff 0 t = t := by
      rw [absdiff_of_le (Nat.zero_le t), Nat.sub_zero]
    have hle : absdiff (f i) t ≤ t := by
      unfold absdiff
      split <;> omega
    have hbetter : better t (f i) i 0 0 = true := by
      unfold better
      rw [hzero, Bool.or_eq_true, decide_eq_true_eq, decide_eq_true_eq]
      omega
    rw [hbetter, if_pos rfl, if_pos rfl]
    exact ⟨.single fun k => (hQ k).trans (or_iff_right (hnone k)), rfl⟩
  · have hvalue : ∀ b : Bool, (if b then f i else f ilineCandidate) =
        f (if b then i else ilineCandidate) := fun b => by
      cases b <;> rfl
    refine ⟨?_, hvalue _⟩
    rcases hside with habove | hbelow
    · have hlt := habove _ hnearest.mem
      have hbetter : better t (f i) i ilineCandidate (f ilineCandidate) =
          decide (absdiff (f i) t ≤ absdiff (f ilineCandidate) t) := by
        unfold better
        rw [← Bool.decide_or, decide_eq_decide]
        omega
      rw [hbetter]
      simp only [decide_eq_true_eq]
      exact hnearest.insert_above habove hQ
    · have hlt := hbelow _ hnearest.mem
      have hbetter : better t (f i) i ilineCandidate (f ilineCandidate) =
          decide (absdiff (f i) t < absdiff (f ilineCandidate) t) := by
        unfold better
        rw [← Bool.decide_or, decide_eq_decide]
        omega
      rw [hbetter]
      simp only [decide_eq_true_eq]
      exact hnearest.insert_below hbelow hQ

/-- One turn of the loop over the split points. -/
theorem evenSplitLoop_succ {size : Nat} (hread : split.cbSizeLE (i - 1) = some size)
    (fFirst : Bool) :
    split.evenSplitLoop cbSizeTotal fFirst (fuel + 1) i ilineCandidate cbSizeCandidateLE =
      let fBetter := better (cbSizeTotal / 2) size i ilineCandidate cbSizeCandidateLE
      if fFirst ≠ decide (size < cbSizeTotal - size) then
        some (if fBetter then i else ilineCandidate)
      else if decide (size < cbSizeTotal - size) then
        if split.clines = i + 1 then some (if fBetter then i else ilineCandidate)
        else
          split.evenSplitLoop cbSizeTotal fFirst fuel (i + 1)
            (if fBetter then i else ilineCandidate)
            (if fBetter then size else cbSizeCandidateLE)
      else if 0 = i - 1 then some (if fBetter then i else ilineCandidate)
      else
        split.evenSplitLoop cbSizeTotal fFirst fuel (i - 1) (if fBetter then i else ilineCandidate)
          (if fBetter then size else cbSizeCandidateLE) := by
  rw [evenSplitLoop, hread]
  rfl

/-- The walk up ends at the last line, or where the split page is no longer the smaller one. -/
theorem evenSplitLoop_up (hlen : split.clines < split.rglineinfo.length)
    (hweights : Weights m split.rglineinfo split.clines)
    (hsizes : SizesOk split.rglineinfo split.clines)
    (htotal : cbSizeTotal = sizesBefore split.rglineinfo split.clines) (hpos : 0 < start)
      (hstart : start ≤ i)
    (hi : i < split.clines) (hfuel : split.clines - i ≤ fuel)
    (h : IsCandidate (fun k => start ≤ k ∧ k < i) (sizesBefore split.rglineinfo)
      (cbSizeTotal / 2) ilineCandidate
      cbSizeCandidateLE) :
    ∃ r e, split.evenSplitLoop cbSizeTotal true fuel i ilineCandidate cbSizeCandidateLE = some r ∧
      start ≤ e ∧
      e < split.clines ∧ Nearest (fun k => start ≤ k ∧ k ≤ e) (sizesBefore split.rglineinfo)
      (cbSizeTotal / 2) r ∧
      (e + 1 = split.clines ∨ cbSizeTotal ≤ 2 * sizesBefore split.rglineinfo e) := by
  induction fuel generalizing i ilineCandidate cbSizeCandidateLE with
  | zero => omega
  | succ fuel ih =>
    have hlt : sizesBefore split.rglineinfo i < cbSizeTotal := by
      rw [htotal]
      exact hsizes.sizesBefore_lt hlen.le hi le_rfl
    obtain ⟨hnearest, hvalue⟩ := h.step (Q := fun k => start ≤ k ∧ k ≤ i) (by omega) (by omega)
      (.inl fun k hk => hk.2) fun k => by omega
    rw [evenSplitLoop_succ (cbSizeLE_eq hlen hweights (by omega) hi.le)]
    dsimp only
    by_cases hsmaller : sizesBefore split.rglineinfo i < cbSizeTotal - sizesBefore split.rglineinfo
      i
    · rw [decide_eq_true hsmaller, if_neg (by simp), if_pos rfl]
      by_cases hlast : split.clines = i + 1
      · rw [if_pos hlast]
        exact ⟨_, i, rfl, hstart, hi, hnearest, .inl hlast.symm⟩
      · rw [if_neg hlast]
        refine ih (by omega) (by omega) (by omega) (.inr ⟨?_, hvalue⟩)
        exact hnearest.restrict (by have := hnearest.mem; omega) fun k hk => by omega
    · rw [decide_eq_false hsmaller, if_pos (by simp)]
      exact ⟨_, i, rfl, hstart, hi, hnearest, .inr (by omega)⟩

/-- The walk down ends at the first line, or where the split page is the smaller one. -/
theorem evenSplitLoop_down (hlen : split.clines < split.rglineinfo.length)
    (hweights : Weights m split.rglineinfo split.clines)
    (hsizes : SizesOk split.rglineinfo split.clines)
    (htotal : cbSizeTotal = sizesBefore split.rglineinfo split.clines) (hpos : 0 < i)
      (hstart : i ≤ start)
    (hi : start < split.clines) (hfuel : i ≤ fuel)
    (h : IsCandidate (fun k => i < k ∧ k ≤ start) (sizesBefore split.rglineinfo)
      (cbSizeTotal / 2) ilineCandidate
      cbSizeCandidateLE) :
    ∃ r e, split.evenSplitLoop cbSizeTotal false fuel i ilineCandidate cbSizeCandidateLE = some r ∧
      0 < e ∧
      e ≤ start ∧ Nearest (fun k => e ≤ k ∧ k ≤ start) (sizesBefore split.rglineinfo)
      (cbSizeTotal / 2) r ∧
      (e = 1 ∨ 2 * sizesBefore split.rglineinfo e < cbSizeTotal) := by
  induction fuel generalizing i ilineCandidate cbSizeCandidateLE with
  | zero => omega
  | succ fuel ih =>
    have hlt : sizesBefore split.rglineinfo i < cbSizeTotal := by
      rw [htotal]
      exact hsizes.sizesBefore_lt hlen.le (by omega) le_rfl
    obtain ⟨hnearest, hvalue⟩ := h.step (Q := fun k => i ≤ k ∧ k ≤ start) hpos (by omega)
      (.inr fun k hk => hk.1) fun k => by omega
    rw [evenSplitLoop_succ (cbSizeLE_eq hlen hweights hpos (by omega))]
    dsimp only
    by_cases hsmaller : sizesBefore split.rglineinfo i < cbSizeTotal - sizesBefore split.rglineinfo
      i
    · rw [decide_eq_true hsmaller, if_pos (by simp)]
      exact ⟨_, i, rfl, hpos, hstart, hnearest, .inr (by omega)⟩
    · rw [decide_eq_false hsmaller, if_neg (by simp), if_neg (by simp)]
      by_cases hfirst : 0 = i - 1
      · rw [if_pos hfirst]
        exact ⟨_, i, rfl, hpos, hstart, hnearest, .inl (by omega)⟩
      · rw [if_neg hfirst]
        refine ih (by omega) (by omega) (by omega) (.inr ⟨?_, hvalue⟩)
        exact hnearest.restrict (by have := hnearest.mem; omega) fun k hk => by omega

end

/-- The most even split point is the nearest one to half of the size. -/
theorem btiSelectEvenSplitWithoutCheckingOverflows_eq
    (hlen : split.clines < split.rglineinfo.length)
    (htwo : 2 ≤ split.clines) (hweights : Weights m split.rglineinfo split.clines)
    (hsizes : SizesOk split.rglineinfo split.clines) :
    ∃ r, split.btiSelectEvenSplitWithoutCheckingOverflows = some r ∧
      Nearest (fun k => 0 < k ∧ k < split.clines) (sizesBefore split.rglineinfo)
        (sizesBefore split.rglineinfo split.clines / 2) r := by
  have hmono : ∀ {j k : Nat}, j < k → k ≤ split.clines →
    sizesBefore split.rglineinfo j < sizesBefore split.rglineinfo k :=
    fun hjk hk => hsizes.sizesBefore_lt hlen.le hjk hk
  have hcandidate : ∀ P : Nat → Prop, (∀ k, ¬ P k) → IsCandidate P (sizesBefore split.rglineinfo)
      (sizesBefore split.rglineinfo split.clines / 2) 0 0 := fun P hP => .inl ⟨hP, rfl, rfl⟩
  rw [btiSelectEvenSplitWithoutCheckingOverflows, cbSizeLE_eq hlen hweights (by omega) le_rfl,
    Option.bind_eq_bind,
    Option.bind_some]
  dsimp only
  rw [cbSizeLE_eq hlen hweights (show 0 < split.clines / 2 by omega) (by omega), Option.bind_some]
  by_cases hsmaller : sizesBefore split.rglineinfo (split.clines / 2) <
      sizesBefore split.rglineinfo split.clines - sizesBefore split.rglineinfo (split.clines / 2)
  · rw [decide_eq_true hsmaller]
    obtain ⟨r, e, heq, he, hen, hnearest, hend⟩ := evenSplitLoop_up hlen hweights hsizes rfl
      (show 0 < split.clines / 2 by omega) le_rfl (show split.clines / 2 < split.clines by omega)
      (Nat.sub_le _ _)
      (hcandidate (fun k => split.clines / 2 ≤ k ∧ k < split.clines / 2) fun k => by omega)
    refine ⟨r, heq, hnearest.widen (fun k hk => by omega) fun k hk hout => ?_⟩
    rcases Nat.lt_or_ge k (split.clines / 2) with hlt | hge
    · -- the split page is smaller still
      have hle := hnearest.le (split.clines / 2) ⟨le_rfl, he⟩
      have hk' := hmono hlt (by omega)
      refine hle.trans_lt ?_
      rw [absdiff_of_le (by omega), absdiff_of_le (by omega)]
      omega
    · -- the new page is smaller still
      have hle := hnearest.le e ⟨he, le_rfl⟩
      have hk' := hmono (show e < k by omega) (by omega)
      have hge' := hend.resolve_left (by omega)
      refine hle.trans_lt ?_
      rw [absdiff_of_ge (by omega), absdiff_of_ge (by omega)]
      omega
  · rw [decide_eq_false hsmaller]
    obtain ⟨r, e, heq, he, hen, hnearest, hend⟩ := evenSplitLoop_down hlen hweights hsizes rfl
      (show 0 < split.clines / 2 by omega) le_rfl (show split.clines / 2 < split.clines by omega)
      (Nat.div_le_self _ _) (hcandidate (fun k => split.clines / 2 < k ∧ k ≤ split.clines / 2)
        fun k => by omega)
    refine ⟨r, heq, hnearest.widen (fun k hk => by omega) fun k hk hout => ?_⟩
    rcases Nat.lt_or_ge (split.clines / 2) k with hlt | hge
    · have hle := hnearest.le (split.clines / 2) ⟨hen, le_rfl⟩
      have hk' := hmono hlt (by omega)
      refine hle.trans_lt ?_
      rw [absdiff_of_ge (by omega), absdiff_of_ge (by omega)]
      omega
    · have hle := hnearest.le e ⟨le_rfl, hen⟩
      have hk' := hmono (show k < e by omega) (by omega)
      have hlt' := hend.resolve_left (by omega)
      refine hle.trans_lt ?_
      rw [absdiff_of_le (by omega), absdiff_of_le (by omega)]
      omega

/-! ## The walk away from overflows -/

/-- Both pages have room at the split point. -/
def Fits (split : SPLIT) (cbPageAvail i : Nat) : Prop :=
  split.FitsSplit cbPageAvail i ∧ split.FitsNew cbPageAvail i

instance : Decidable (Fits split cbPageAvail i) := inferInstanceAs (Decidable (_ ∧ _))

/-- The prefixes of a candidate are best for it. -/
def PrefixesOf (split : SPLIT) (candidate : CANDIDATE) : Prop :=
  candidate.iline ≠ 0 →
    BestAt { split with prefixinfoSplit := candidate.prefixinfoSplit,
                        prefixinfoNew := candidate.prefixinfoNew }
      candidate.iline

/-- The first split point that fits from line `i` up, before which the new page overflows; none if
line zero. -/
def FoundUp (split : SPLIT) (cbPageAvail i iline : Nat) : Prop :=
  (iline = 0 ∧ ∀ j, i ≤ j → j < split.clines → ¬ split.Fits cbPageAvail j) ∨
    (i ≤ iline ∧ iline < split.clines ∧ split.Fits cbPageAvail iline ∧
      ∀ j, i ≤ j → j < iline → ¬ split.FitsNew cbPageAvail j)

/-- The first split point that fits from line `i` down, after which the split page overflows; none
if line zero. -/
def FoundDown (split : SPLIT) (cbPageAvail i iline : Nat) : Prop :=
  (iline = 0 ∧ ∀ j, 0 < j → j ≤ i → ¬ split.Fits cbPageAvail j) ∨
    (0 < iline ∧ iline ≤ i ∧ split.Fits cbPageAvail iline ∧
      ∀ j, iline < j → j ≤ i → ¬ split.FitsSplit cbPageAvail j)

section
variable {fuel : Nat} {last : SPLITPOINTCHANGE}

/-- A split point that overflows neither page is taken. -/
theorem evenSplitOverflowLoop_fits (h : split.fBTISplitCausesNoOverflow cbPageAvail i =
    some (false, false)) :
    evenSplitOverflowLoop cbPageAvail (fuel + 1) split i last =
      some (split, ⟨i, split.prefixinfoSplit, split.prefixinfoNew⟩) := by
  rw [evenSplitOverflowLoop, h]
  rfl

/-- A split point that overflows both pages ends the loop. -/
theorem evenSplitOverflowLoop_both (h : split.fBTISplitCausesNoOverflow cbPageAvail i =
    some (true, true)) :
    evenSplitOverflowLoop cbPageAvail (fuel + 1) split i last = some (split, .none) := by
  rw [evenSplitOverflowLoop, h]
  rfl

/-- A split point that overflows the new page moves up. -/
theorem evenSplitOverflowLoop_new (h : split.fBTISplitCausesNoOverflow cbPageAvail i =
    some (false, true))
    (hclines : 2 < split.clines) :
    evenSplitOverflowLoop cbPageAvail (fuel + 1) split i last =
      if .SPLIT_PAGE_SMALLER = last then some (split, .none)
      else if split.clines = i + 1 then some (split, .none)
      else (split.btiRecalculatePrefix i (i + 1)).bind fun split =>
        evenSplitOverflowLoop cbPageAvail fuel split (i + 1) .SPLIT_PAGE_LARGER := by
  rw [evenSplitOverflowLoop, h]
  simp [hclines]

/-- A split point that overflows the split page moves down. -/
theorem evenSplitOverflowLoop_split (h : split.fBTISplitCausesNoOverflow cbPageAvail i =
    some (true, false))
    (hclines : 2 < split.clines) :
    evenSplitOverflowLoop cbPageAvail (fuel + 1) split i last =
      if .SPLIT_PAGE_LARGER = last then some (split, .none)
      else if 0 = i - 1 then some (split, .none)
      else (split.btiRecalculatePrefix i (i - 1)).bind fun split =>
        evenSplitOverflowLoop cbPageAvail fuel split (i - 1) .SPLIT_PAGE_SMALLER := by
  rw [evenSplitOverflowLoop, h]
  simp [hclines]

/-- The best prefixes are those of the candidate. -/
theorem BestAt.prefixesOf (h : split.BestAt i) :
    split.PrefixesOf ⟨i, split.prefixinfoSplit, split.prefixinfoNew⟩ :=
  fun _ => h

/-- No split point has no prefixes. -/
theorem prefixesOf_none (split : SPLIT) : split.PrefixesOf .none := fun h => absurd rfl h

/-- The loop upwards finds the first split point that fits, if any. -/
theorem evenSplitOverflowLoop_up (hlen : split.clines < split.rglineinfo.length)
    (hweights : Weights m split.rglineinfo split.clines)
    (hsizes : SizesOk split.rglineinfo split.clines)
    (hclines : 2 < split.clines) (hpos : 0 < i) (hi : i < split.clines)
      (hfuel : split.clines - i ≤ fuel)
    (h : split.BestAt i) :
    ∃ prefixinfoSplit prefixinfoNew candidate,
      evenSplitOverflowLoop cbPageAvail fuel split i .SPLIT_PAGE_LARGER =
        some ({ split with prefixinfoSplit, prefixinfoNew }, candidate) ∧
      split.PrefixesOf candidate ∧ split.FoundUp cbPageAvail i candidate.iline := by
  induction fuel generalizing split i with
  | zero => omega
  | succ fuel ih =>
    have htest := h.fBTISplitCausesNoOverflow_eq cbPageAvail hlen hweights hpos hi
    by_cases hsplit : split.FitsSplit cbPageAvail i
    · by_cases hnew : split.FitsNew cbPageAvail i
      · rw [decide_eq_true hsplit, decide_eq_true hnew] at htest
        rw [evenSplitOverflowLoop_fits htest]
        exact ⟨_, _, _, rfl, h.prefixesOf, .inr ⟨le_rfl, hi, ⟨hsplit, hnew⟩,
          fun j hj hj' => absurd (hj.trans_lt hj') (lt_irrefl i)⟩⟩
      · rw [decide_eq_true hsplit, decide_eq_false hnew] at htest
        rw [evenSplitOverflowLoop_new htest hclines, if_neg (by simp)]
        by_cases hlast : split.clines = i + 1
        · rw [if_pos hlast]
          refine ⟨_, _, _, rfl, prefixesOf_none split, .inl ⟨rfl, fun j hj hj' hfits => hnew ?_⟩⟩
          rw [show i = j by omega]
          exact hfits.2
        · rw [if_neg hlast]
          obtain ⟨prefixinfoSplit, prefixinfoNew, heq, hbest⟩ :=
            btiRecalculatePrefix_up hlen (by omega) h
          obtain ⟨prefixinfoSplit', prefixinfoNew', candidate, heq', hprefixes, hfound⟩ :=
            @ih { split with prefixinfoSplit, prefixinfoNew } (i + 1) hlen hweights hsizes hclines
              (Nat.succ_pos i)
              (show i + 1 < split.clines by omega) (show split.clines - (i + 1) ≤ fuel by omega)
              hbest
          rw [heq, Option.bind_some, heq']
          refine ⟨_, _, candidate, rfl, hprefixes, ?_⟩
          rcases hfound with ⟨hzero, hnone⟩ | ⟨hle, hlt, hfits, hbefore⟩
          · refine .inl ⟨hzero, fun j hj hj' => ?_⟩
            rcases Nat.lt_or_eq_of_le hj with hij | rfl
            · exact hnone j hij hj'
            · exact fun hfits => hnew hfits.2
          · refine .inr ⟨by omega, hlt, hfits, fun j hj hj' => ?_⟩
            rcases Nat.lt_or_eq_of_le hj with hij | rfl
            · exact hbefore j hij hj'
            · exact hnew
    · -- the split page overflows from here on
      have hnone : split.FoundUp cbPageAvail i 0 := .inl ⟨rfl, fun j hj hj' hfits =>
        hsplit (hfits.1.of_le hlen hweights.weighed hsizes hpos hj (by omega))⟩
      rw [decide_eq_false hsplit] at htest
      by_cases hnew : split.FitsNew cbPageAvail i
      · rw [decide_eq_true hnew] at htest
        rw [evenSplitOverflowLoop_split htest hclines, if_pos rfl]
        exact ⟨_, _, _, rfl, prefixesOf_none split, hnone⟩
      · rw [decide_eq_false hnew] at htest
        rw [evenSplitOverflowLoop_both htest]
        exact ⟨_, _, _, rfl, prefixesOf_none split, hnone⟩

/-- The loop downwards finds the first split point that fits, if any. -/
theorem evenSplitOverflowLoop_down (hlen : split.clines < split.rglineinfo.length)
    (hweights : Weights m split.rglineinfo split.clines)
    (hsizes : SizesOk split.rglineinfo split.clines)
    (hclines : 2 < split.clines) (hpos : 0 < i) (hi : i < split.clines) (hfuel : i ≤ fuel)
      (h : split.BestAt i) :
    ∃ prefixinfoSplit prefixinfoNew candidate,
      evenSplitOverflowLoop cbPageAvail fuel split i .SPLIT_PAGE_SMALLER =
        some ({ split with prefixinfoSplit, prefixinfoNew }, candidate) ∧
      split.PrefixesOf candidate ∧ split.FoundDown cbPageAvail i candidate.iline := by
  induction fuel generalizing split i with
  | zero => omega
  | succ fuel ih =>
    have htest := h.fBTISplitCausesNoOverflow_eq cbPageAvail hlen hweights hpos hi
    by_cases hnew : split.FitsNew cbPageAvail i
    · by_cases hsplit : split.FitsSplit cbPageAvail i
      · rw [decide_eq_true hsplit, decide_eq_true hnew] at htest
        rw [evenSplitOverflowLoop_fits htest]
        exact ⟨_, _, _, rfl, h.prefixesOf, .inr ⟨hpos, le_rfl, ⟨hsplit, hnew⟩,
          fun j hj hj' => absurd (hj.trans_le hj') (lt_irrefl i)⟩⟩
      · rw [decide_eq_false hsplit, decide_eq_true hnew] at htest
        rw [evenSplitOverflowLoop_split htest hclines, if_neg (by simp)]
        by_cases hfirst : 0 = i - 1
        · rw [if_pos hfirst]
          refine ⟨_, _, _, rfl, prefixesOf_none split, .inl ⟨rfl, fun j hj hj' hfits => hsplit ?_⟩⟩
          rw [show i = j by omega]
          exact hfits.1
        · rw [if_neg hfirst]
          obtain ⟨i, rfl⟩ : ∃ k, i = k + 1 := ⟨i - 1, by omega⟩
          obtain ⟨prefixinfoSplit, prefixinfoNew, heq, hbest⟩ :=
            btiRecalculatePrefix_down hlen (by omega) h
          obtain ⟨prefixinfoSplit', prefixinfoNew', candidate, heq', hprefixes, hfound⟩ :=
            @ih { split with prefixinfoSplit, prefixinfoNew } i hlen hweights hsizes hclines
              (by omega)
              (show i < split.clines by omega) (by omega) hbest
          rw [Nat.add_sub_cancel, heq, Option.bind_some, heq']
          refine ⟨_, _, candidate, rfl, hprefixes, ?_⟩
          rcases hfound with ⟨hzero, hnone⟩ | ⟨hlt, hle, hfits, hbehind⟩
          · refine .inl ⟨hzero, fun j hj hj' => ?_⟩
            rcases Nat.lt_or_eq_of_le hj' with hij | rfl
            · exact hnone j hj (by omega)
            · exact fun hfits => hsplit hfits.1
          · refine .inr ⟨hlt, by omega, hfits, fun j hj hj' => ?_⟩
            rcases Nat.lt_or_eq_of_le hj' with hij | rfl
            · exact hbehind j hj (by omega)
            · exact hsplit
    · -- the new page overflows from here down
      have hnone : split.FoundDown cbPageAvail i 0 := .inl ⟨rfl, fun j hj hj' hfits =>
        hnew (hfits.2.of_le hlen hweights.weighed hsizes hj' hi)⟩
      rw [decide_eq_false hnew] at htest
      by_cases hsplit : split.FitsSplit cbPageAvail i
      · rw [decide_eq_true hsplit] at htest
        rw [evenSplitOverflowLoop_new htest hclines, if_pos rfl]
        exact ⟨_, _, _, rfl, prefixesOf_none split, hnone⟩
      · rw [decide_eq_false hsplit] at htest
        rw [evenSplitOverflowLoop_both htest]
        exact ⟨_, _, _, rfl, prefixesOf_none split, hnone⟩

end

/-! ## The two searches -/

/-- What a search for the split point is to find. -/
def Found (split : SPLIT) (cbPageAvail iline : Nat) : Prop :=
  (iline = 0 ↔ ∀ k, 0 < k → k < split.clines → ¬ split.Fits cbPageAvail k) ∧
    (iline ≠ 0 → Nearest (fun k => (0 < k ∧ k < split.clines) ∧ split.Fits cbPageAvail k)
      (sizesBefore split.rglineinfo) (sizesBefore split.rglineinfo split.clines / 2) iline)

/-- One split point is found at most. -/
theorem Found.unique {j : Nat} (h : split.Found cbPageAvail i) (h' : split.Found cbPageAvail j) :
    i = j := by
  by_cases hi : i = 0
  · rw [hi, h'.1.2 (h.1.1 hi)]
  · have hj : j ≠ 0 := fun hj => hi (h.1.2 (h'.1.1 hj))
    exact (h.2 hi).unique (h'.2 hj)

/-- The walk from the most even split point to the first one that fits. -/
theorem found_of_walk (hlen : split.clines < split.rglineinfo.length)
    (hsizes : SizesOk split.rglineinfo split.clines) {start : Nat}
    (hstart : Nearest (fun k => 0 < k ∧ k < split.clines) (sizesBefore split.rglineinfo)
      (sizesBefore split.rglineinfo split.clines / 2) start)
    (h : (i = 0 ∧ ∀ k, 0 < k → k < split.clines → ¬ split.Fits cbPageAvail k) ∨
      ((0 < i ∧ i < split.clines) ∧ split.Fits cbPageAvail i ∧
        (i = start ∨ (start < i ∧ ∀ j, 0 < j → j < i → ¬ split.Fits cbPageAvail j) ∨
          (i < start ∧ ∀ j, i < j → j < split.clines → ¬ split.Fits cbPageAvail j)))) :
    split.Found cbPageAvail i := by
  have hmono : ∀ {j k : Nat}, j < k → k ≤ split.clines →
    sizesBefore split.rglineinfo j < sizesBefore split.rglineinfo k :=
    fun hjk hk => hsizes.sizesBefore_lt hlen.le hjk hk
  rcases h with ⟨hzero, hnone⟩ | ⟨hi, hfits, hway⟩
  · exact ⟨iff_of_true hzero hnone, fun hne => absurd hzero hne⟩
  refine ⟨iff_of_false (by omega) fun hnone => hnone i hi.1 hi.2 hfits, fun _ => ?_⟩
  rcases hway with rfl | ⟨hlt, hbefore⟩ | ⟨hgt, hbehind⟩
  · exact hstart.restrict ⟨hi, hfits⟩ fun k hk => hk.1
  · exact .of_right (hstart.le i hi) (hmono hlt hi.2.le) ⟨hi, hfits⟩
      (fun k hk => by
        by_contra hki
        exact hbefore k hk.1.1 (by omega) hk.2)
      fun k hk hik => hmono hik hk.1.2.le
  · exact .of_left (hstart.le i hi) (hmono hgt hstart.mem.2.le) ⟨hi, hfits⟩
      (fun k hk => by
        by_contra hki
        exact hbehind k (by omega) hk.1.2 hk.2)
      fun k hk hki => hmono hki hi.2.le

/-- The walk of `BTISelectEvenSplit`, from a split point where it is not yet known which page
overflows. -/
theorem evenSplitOverflowLoop_eq (hlen : split.clines < split.rglineinfo.length)
    (hweights : Weights m split.rglineinfo split.clines)
    (hsizes : SizesOk split.rglineinfo split.clines)
    (hpos : 0 < i) (hi : i < split.clines) {fuel : Nat} (hfuel : split.clines = fuel + 1)
      (hclines : 2 < split.clines ∨ split.Fits cbPageAvail i) (h : split.BestAt i) :
    ∃ prefixinfoSplit prefixinfoNew candidate,
      evenSplitOverflowLoop cbPageAvail (fuel + 1) split i .UNKNOWN =
        some ({ split with prefixinfoSplit, prefixinfoNew }, candidate) ∧
      split.PrefixesOf candidate ∧
      ((candidate.iline = 0 ∧ ∀ k, 0 < k → k < split.clines → ¬ split.Fits cbPageAvail k) ∨
        ((0 < candidate.iline ∧ candidate.iline < split.clines) ∧
          split.Fits cbPageAvail candidate.iline ∧
          (candidate.iline = i ∨
            (i < candidate.iline ∧ ∀ j, 0 < j → j < candidate.iline → ¬ split.Fits cbPageAvail j) ∨
            (candidate.iline < i ∧ ∀ j, candidate.iline < j → j < split.clines →
              ¬ split.Fits cbPageAvail j)))) := by
  have htest := h.fBTISplitCausesNoOverflow_eq cbPageAvail hlen hweights hpos hi
  have hbelow : ¬ split.FitsNew cbPageAvail i → ∀ k, k ≤ i → ¬ split.Fits cbPageAvail k :=
    fun hnew k hki hfits =>
    hnew (hfits.2.of_le hlen hweights.weighed hsizes hki hi)
  have habove : ¬ split.FitsSplit cbPageAvail i → ∀ k, i ≤ k → k < split.clines →
    ¬ split.Fits cbPageAvail k :=
    fun hsplit k hik hk hfits => hsplit (hfits.1.of_le hlen hweights.weighed hsizes hpos hik hk.le)
  by_cases hsplit : split.FitsSplit cbPageAvail i
  · by_cases hnew : split.FitsNew cbPageAvail i
    · rw [decide_eq_true hsplit, decide_eq_true hnew] at htest
      rw [evenSplitOverflowLoop_fits htest]
      exact ⟨_, _, _, rfl, h.prefixesOf, .inr ⟨⟨hpos, hi⟩, ⟨hsplit, hnew⟩, .inl rfl⟩⟩
    · have hthree : 2 < split.clines := hclines.resolve_right fun hfits => hnew hfits.2
      rw [decide_eq_true hsplit, decide_eq_false hnew] at htest
      rw [evenSplitOverflowLoop_new htest hthree, if_neg (by simp)]
      by_cases hlast : split.clines = i + 1
      · rw [if_pos hlast]
        exact ⟨_, _, _, rfl, prefixesOf_none split,
          .inl ⟨rfl, fun k _ hk => hbelow hnew k (by omega)⟩⟩
      · rw [if_neg hlast]
        obtain ⟨prefixinfoSplit, prefixinfoNew, heq, hbest⟩ :=
          btiRecalculatePrefix_up hlen (by omega) h
        obtain ⟨prefixinfoSplit', prefixinfoNew', candidate, heq', hprefixes, hfound⟩ :=
          @evenSplitOverflowLoop_up m { split with prefixinfoSplit, prefixinfoNew } cbPageAvail
            (i + 1) fuel hlen
            hweights hsizes hthree (Nat.succ_pos i) (show i + 1 < split.clines by omega)
            (show split.clines - (i + 1) ≤ fuel by omega) hbest
        rw [heq, Option.bind_some, heq']
        refine ⟨_, _, candidate, rfl, hprefixes, ?_⟩
        rcases hfound with ⟨hzero, hnone⟩ | ⟨hle, hlt, hfits, hbefore⟩
        · refine .inl ⟨hzero, fun k _ hk => ?_⟩
          rcases Nat.lt_or_ge i k with hik | hki
          · exact hnone k hik hk
          · exact hbelow hnew k hki
        · refine .inr ⟨⟨by omega, hlt⟩, hfits, .inr (.inl ⟨hle, fun j _ hj => ?_⟩)⟩
          rcases Nat.lt_or_ge i j with hij | hji
          · exact fun hfits' => hbefore j hij hj hfits'.2
          · exact hbelow hnew j hji
  · by_cases hnew : split.FitsNew cbPageAvail i
    · have hthree : 2 < split.clines := hclines.resolve_right fun hfits => hsplit hfits.1
      rw [decide_eq_false hsplit, decide_eq_true hnew] at htest
      rw [evenSplitOverflowLoop_split htest hthree, if_neg (by simp)]
      by_cases hfirst : 0 = i - 1
      · rw [if_pos hfirst]
        refine ⟨_, _, _, rfl, prefixesOf_none split,
          .inl ⟨rfl, fun k hk hk' => habove hsplit k (by omega) hk'⟩⟩
      · rw [if_neg hfirst]
        obtain ⟨i, rfl⟩ : ∃ k, i = k + 1 := ⟨i - 1, by omega⟩
        obtain ⟨prefixinfoSplit, prefixinfoNew, heq, hbest⟩ :=
          btiRecalculatePrefix_down hlen (by omega) h
        obtain ⟨prefixinfoSplit', prefixinfoNew', candidate, heq', hprefixes, hfound⟩ :=
          @evenSplitOverflowLoop_down m { split with prefixinfoSplit, prefixinfoNew } cbPageAvail i
            fuel hlen
            hweights hsizes hthree (by omega) (show i < split.clines by omega) (by omega) hbest
        rw [Nat.add_sub_cancel, heq, Option.bind_some, heq']
        refine ⟨_, _, candidate, rfl, hprefixes, ?_⟩
        rcases hfound with ⟨hzero, hnone⟩ | ⟨hlt, hle, hfits, hbehind⟩
        · refine .inl ⟨hzero, fun k hk hk' => ?_⟩
          rcases Nat.lt_or_ge i k with hik | hki
          · exact habove hsplit k hik hk'
          · exact hnone k hk hki
        · refine .inr ⟨⟨hlt, by omega⟩, hfits, .inr (.inr ⟨by omega, fun j hj hj' => ?_⟩)⟩
          rcases Nat.lt_or_ge i j with hij | hji
          · exact habove hsplit j hij hj'
          · exact fun hfits' => hbehind j hj hji hfits'.1
    · rw [decide_eq_false hsplit, decide_eq_false hnew] at htest
      rw [evenSplitOverflowLoop_both htest]
      refine ⟨_, _, _, rfl, prefixesOf_none split, .inl ⟨rfl, fun k _ hk => ?_⟩⟩
      rcases Nat.lt_or_ge i k with hik | hki
      · exact habove hsplit k hik.le hk
      · exact hbelow hnew k hki

/-- The fast selection finds the split point. -/
theorem btiSelectEvenSplit_eq (hlen : split.clines < split.rglineinfo.length)
    (hweights : Weights m split.rglineinfo split.clines)
    (hsizes : SizesOk split.rglineinfo split.clines)
    (hclines : 2 ≤ split.clines) (htwo : split.clines = 2 → split.Fits cbPageAvail 1) :
    ∃ prefixinfoSplit prefixinfoNew candidate,
      btiSelectEvenSplit cbPageAvail split = some ({ split with prefixinfoSplit, prefixinfoNew },
      candidate) ∧
      split.PrefixesOf candidate ∧ split.Found cbPageAvail candidate.iline := by
  obtain ⟨i, hiline, hnearest⟩ :=
    btiSelectEvenSplitWithoutCheckingOverflows_eq hlen hclines hweights hsizes
  obtain ⟨hpos, hi⟩ := hnearest.mem
  obtain ⟨prefixinfoSplit, hselect, hbestSplit⟩ := selectPrefixSplit_eq hlen hi.le
  obtain ⟨prefixinfoNew, hselectNew, hbestNew⟩ :=
    selectPrefixNew_eq { split with prefixinfoSplit } i
    (split.clines - i) hlen (Nat.add_sub_of_le hi.le).le
  have hroom : 2 < split.clines ∨ split.Fits cbPageAvail i := by
    rcases Nat.lt_or_eq_of_le hclines with hlt | heq
    · exact .inl hlt
    · obtain rfl : i = 1 := by omega
      exact .inr (htwo heq.symm)
  obtain ⟨fuel, hfuel⟩ : ∃ fuel, split.clines = fuel + 1 := ⟨split.clines - 1, by omega⟩
  obtain ⟨prefixinfoSplit', prefixinfoNew', candidate, heq, hprefixes, hwalk⟩ :=
    @evenSplitOverflowLoop_eq m { split with prefixinfoSplit, prefixinfoNew } cbPageAvail i hlen
      hweights hsizes hpos hi
      fuel hfuel hroom ⟨hbestSplit, hbestNew⟩
  refine ⟨prefixinfoSplit', prefixinfoNew', candidate, ?_, hprefixes,
    found_of_walk hlen hsizes hnearest hwalk⟩
  rw [← hfuel] at heq
  rw [btiSelectEvenSplit, hiline]
  simp only [Option.bind_eq_bind, Option.bind_some, hselect, hselectNew]
  exact heq

/-- The candidate of the exhaustive search after the split points above `i`. -/
def DebugCandidate (split : SPLIT) (cbPageAvail i iline cbSizeCandidateLE : Nat) : Prop :=
  (iline = 0 ∧ cbSizeCandidateLE = 0 ∧ ∀ k, i < k → k < split.clines → ¬ split.Fits cbPageAvail k) ∨
    (Nearest (fun k => (i < k ∧ k < split.clines) ∧ split.Fits cbPageAvail k)
        (sizesBefore split.rglineinfo)
        (sizesBefore split.rglineinfo split.clines / 2) iline ∧
      cbSizeCandidateLE = sizesBefore split.rglineinfo iline)

/-- One turn of the exhaustive loop. -/
theorem evenSplitDebugLoop_succ {split' : SPLIT} {candidate : CANDIDATE}
    {cbSizeTotal cbSizeCandidateLE cbSizeLE : Nat}
    {fSplitPageOverflow fNewPageOverflow : Bool}
    (hselect : split.btiSelectPrefixes (i + 1) = some split')
    (htest : split'.fBTISplitCausesNoOverflow cbPageAvail (i + 1) =
      some (fSplitPageOverflow, fNewPageOverflow))
    (hsize : split'.cbSizeLE i = some cbSizeLE) :
    evenSplitDebugLoop cbPageAvail cbSizeTotal (i + 1) split candidate cbSizeCandidateLE =
      if !fSplitPageOverflow && !fNewPageOverflow then
        if absdiff cbSizeCandidateLE (cbSizeTotal / 2) > absdiff cbSizeLE (cbSizeTotal / 2) then
          evenSplitDebugLoop cbPageAvail cbSizeTotal i split'
            ⟨i + 1, split'.prefixinfoSplit, split'.prefixinfoNew⟩ cbSizeLE
        else evenSplitDebugLoop cbPageAvail cbSizeTotal i split' candidate cbSizeCandidateLE
      else if split'.clines > 2 then evenSplitDebugLoop cbPageAvail cbSizeTotal i split'
        candidate cbSizeCandidateLE
      else none := by
  rw [evenSplitDebugLoop, hselect]
  simp only [Option.bind_eq_bind, Option.bind_some, htest, hsize]

/-- The exhaustive search. At half of the size at most two bytes are left for the last line, so a
first candidate is always nearer than none. -/
theorem evenSplitDebugLoop_eq (hlen : split.clines < split.rglineinfo.length)
    (hweights : Weights m split.rglineinfo split.clines)
    (hsizes : SizesOk split.rglineinfo split.clines)
    (htwo : 2 < split.clines ∨ split.Fits cbPageAvail 1)
    (hlast : ∀ k < split.clines, sizesBefore split.rglineinfo k + 2 ≤
      sizesBefore split.rglineinfo split.clines)
    (hi : i < split.clines)
    (hsplit : i + 1 = split.clines ∨ IsBest (heights split.rglineinfo 0)
      (i + 1) split.prefixinfoSplit)
    (hnew : IsBest (heights split.rglineinfo (i + 1)) (split.clines - (i + 1)) split.prefixinfoNew)
    {candidate : CANDIDATE} {cbSizeCandidateLE : Nat}
    (h : split.DebugCandidate cbPageAvail i candidate.iline cbSizeCandidateLE) :
    ∃ candidate', evenSplitDebugLoop cbPageAvail (sizesBefore split.rglineinfo split.clines) i split
        candidate
        cbSizeCandidateLE = some candidate' ∧ split.Found cbPageAvail candidate'.iline := by
  induction i generalizing split candidate cbSizeCandidateLE with
  | zero =>
    refine ⟨candidate, rfl, ?_⟩
    rcases h with ⟨hzero, -, hnone⟩ | ⟨hnearest, -⟩
    · exact ⟨iff_of_true hzero hnone, fun hne => absurd hzero hne⟩
    · have hmem := hnearest.mem
      exact ⟨iff_of_false (by omega) fun hnone => hnone _ hmem.1.1 hmem.1.2 hmem.2, fun _ =>
        hnearest⟩
  | succ i ih =>
    obtain ⟨prefixinfoSplit, prefixinfoNew, hselect, hbest⟩ :=
      btiSelectPrefixes_eq hlen (Nat.succ_pos i) (by omega) hsplit hnew
    have htest : fBTISplitCausesNoOverflow { split with prefixinfoSplit, prefixinfoNew } cbPageAvail
        (i + 1) =
        some (!decide (split.FitsSplit cbPageAvail (i + 1)),
          !decide (split.FitsNew cbPageAvail (i + 1))) :=
      @BestAt.fBTISplitCausesNoOverflow_eq m { split with prefixinfoSplit, prefixinfoNew }
        (i + 1) cbPageAvail hlen
        hweights (Nat.succ_pos i) hi hbest
    have hsize : cbSizeLE { split with prefixinfoSplit, prefixinfoNew } i =
        some (sizesBefore split.rglineinfo (i + 1)) :=
      @cbSizeLE_eq m { split with prefixinfoSplit, prefixinfoNew } (i + 1) hlen hweights
        (Nat.succ_pos i) hi.le
    have hnext : ∀ {candidate : CANDIDATE} {cbSizeCandidateLE : Nat},
        split.DebugCandidate cbPageAvail i candidate.iline cbSizeCandidateLE →
        ∃ candidate', evenSplitDebugLoop cbPageAvail (sizesBefore split.rglineinfo split.clines) i
          { split with prefixinfoSplit, prefixinfoNew } candidate cbSizeCandidateLE =
            some candidate' ∧
            split.Found cbPageAvail candidate'.iline :=
      @ih { split with prefixinfoSplit, prefixinfoNew } hlen hweights hsizes htwo hlast
        (show i < split.clines by omega) (.inr hbest.splitPage) hbest.newPage
    rw [evenSplitDebugLoop_succ hselect htest hsize, Bool.not_not, Bool.not_not, ← Bool.decide_and]
    change ∃ candidate', (if decide (split.Fits cbPageAvail (i + 1)) = true then _ else _) = _ ∧ _
    by_cases hfits : split.Fits cbPageAvail (i + 1)
    · have hroom := hlast (i + 1) hi
      have hpos : 0 < sizesBefore split.rglineinfo (i + 1) := by
        have hlt := hsizes.sizesBefore_lt hlen.le (Nat.succ_pos i) hi.le
        rwa [sizesBefore_zero] at hlt
      rw [if_pos (decide_eq_true hfits)]
      rcases h with ⟨-, rfl, hnone⟩ | ⟨hnearest, rfl⟩
      · rw [if_pos (by
          rw [absdiff_of_le (Nat.zero_le _), Nat.sub_zero]
          unfold absdiff
          split <;> omega)]
        have hsingle : Nearest (fun k => (i < k ∧ k < split.clines) ∧ split.Fits cbPageAvail k)
            (sizesBefore split.rglineinfo) (sizesBefore split.rglineinfo split.clines / 2)
              (i + 1) := by
          refine .single fun k => ⟨fun hk => ?_, fun hk => ?_⟩
          · by_contra hne
            exact hnone k (by omega) hk.1.2 hk.2
          · rw [hk]
            exact ⟨⟨Nat.lt_succ_self i, hi⟩, hfits⟩
        exact hnext (.inr ⟨hsingle, rfl⟩)
      · have hbelow := hnearest.insert_below (j := i + 1)
          (Q := fun k => (i < k ∧ k < split.clines) ∧ split.Fits cbPageAvail k) (fun k hk => hk.1.1)
            fun k => by
            refine ⟨fun hk => ?_, fun hk => ?_⟩
            · by_cases hki : k = i + 1
              · exact .inr hki
              · exact .inl ⟨⟨by omega, hk.1.2⟩, hk.2⟩
            · rcases hk with hk | rfl
              · exact ⟨⟨by omega, hk.1.2⟩, hk.2⟩
              · exact ⟨⟨Nat.lt_succ_self i, hi⟩, hfits⟩
        by_cases hnearer : absdiff (sizesBefore split.rglineinfo candidate.iline)
            (sizesBefore split.rglineinfo split.clines / 2) >
            absdiff (sizesBefore split.rglineinfo (i + 1))
              (sizesBefore split.rglineinfo split.clines / 2)
        · rw [if_pos hnearer] at hbelow ⊢
          exact hnext (.inr ⟨hbelow, rfl⟩)
        · rw [if_neg hnearer] at hbelow ⊢
          exact hnext (.inr ⟨hbelow, rfl⟩)
    · have hthree : split.clines > 2 := by
        rcases htwo with hthree | hfits'
        · exact hthree
        · by_contra hle
          obtain rfl : i = 0 := by omega
          exact hfits hfits'
      rw [if_neg (by rwa [decide_eq_true_eq]), if_pos hthree]
      refine hnext ?_
      rcases h with ⟨hzero, hsize0, hnone⟩ | ⟨hnearest, hvalue⟩
      · refine .inl ⟨hzero, hsize0, fun k hk hk' => ?_⟩
        by_cases hki : k = i + 1
        · rw [hki]
          exact hfits
        · exact hnone k (by omega) hk'
      · refine .inr ⟨hnearest.restrict ?_ fun k hk => ?_, hvalue⟩
        · have hmem := hnearest.mem
          exact ⟨⟨by omega, hmem.1.2⟩, hmem.2⟩
        · refine ⟨⟨?_, hk.1.2⟩, hk.2⟩
          by_contra hle
          have hki : k = i + 1 := by omega
          rw [hki] at hk
          exact hfits hk.2

/-- The exhaustive selection finds the split point. -/
theorem btiSelectEvenSplitDebug_eq (hlen : split.clines < split.rglineinfo.length)
    (hweights : Weights m split.rglineinfo split.clines)
    (hsizes : SizesOk split.rglineinfo split.clines)
    (hclines : 2 ≤ split.clines) (htwo : split.clines = 2 → split.Fits cbPageAvail 1)
    (hlast : ∀ line, getLine split.rglineinfo (split.clines - 1) = some line → 2 ≤ line.cbSize) :
    ∃ candidate, btiSelectEvenSplitDebug cbPageAvail split = some candidate ∧
      split.Found cbPageAvail candidate.iline := by
  have hroom : ∀ k < split.clines,
      sizesBefore split.rglineinfo k + 2 ≤ sizesBefore split.rglineinfo split.clines :=
        fun k hk => by
    obtain ⟨line, hline⟩ := getLine_of_lt (show split.clines - 1 < split.rglineinfo.length by omega)
    have htotal := sizesBefore_succ hline
    rw [Nat.sub_add_cancel (by omega)] at htotal
    have hsize := hlast line hline
    have hle : sizesBefore split.rglineinfo k ≤ sizesBefore split.rglineinfo
      (split.clines - 1) := by
      rcases Nat.lt_or_ge k (split.clines - 1) with hlt | hge
      · exact (hsizes.sizesBefore_lt hlen.le hlt (by omega)).le
      · rw [show k = split.clines - 1 by omega]
    omega
  have hthree : 2 < split.clines ∨ split.Fits cbPageAvail 1 := by
    rcases Nat.lt_or_eq_of_le hclines with hlt | heq
    · exact .inl hlt
    · exact .inr (htwo heq.symm)
  have hread := cbSizeLE_eq hlen hweights (show 0 < split.clines by omega) le_rfl
  rw [btiSelectEvenSplitDebug, hread, Option.bind_eq_bind, Option.bind_some, if_pos (by omega)]
  exact @evenSplitDebugLoop_eq m { split with prefixinfoSplit := .nullify,
                                              prefixinfoNew := .nullify } cbPageAvail
    (split.clines - 1) hlen hweights hsizes hthree hroom
    (show split.clines - 1 < split.clines by omega)
    (.inl (show split.clines - 1 + 1 = split.clines by omega))
    (isBest_one (show split.clines - (split.clines - 1 + 1) < 2 by omega)) .none 0
    (.inl ⟨rfl, rfl, fun k hk hk' => absurd (show k < split.clines from hk') (by omega)⟩)

/-- Whether a split point fits, as the exhaustive loop tests it. -/
theorem fitsAt_eq (hlen : split.clines < split.rglineinfo.length)
    (hweights : Weights m split.rglineinfo split.clines)
    (hpos : 0 < i) (hi : i < split.clines) :
    fitsAt cbPageAvail split i = some (decide (split.Fits cbPageAvail i)) := by
  obtain ⟨prefixinfoSplit, hselect, hbestSplit⟩ := selectPrefixSplit_eq hlen hi.le
  obtain ⟨prefixinfoNew, hselectNew, hbestNew⟩ :=
    selectPrefixNew_eq { split with prefixinfoSplit } i
    (split.clines - i) hlen (Nat.add_sub_of_le hi.le).le
  have htest : fBTISplitCausesNoOverflow { split with prefixinfoSplit, prefixinfoNew } cbPageAvail
      i =
      some (!decide (split.FitsSplit cbPageAvail i), !decide (split.FitsNew cbPageAvail i)) :=
    @BestAt.fBTISplitCausesNoOverflow_eq m { split with prefixinfoSplit, prefixinfoNew } i
      cbPageAvail hlen
      hweights hpos hi ⟨hbestSplit, hbestNew⟩
  rw [fitsAt, hselect]
  simp only [Option.bind_eq_bind, Option.bind_some, hselectNew, htest, Bool.not_not,
    ← Bool.decide_and]
  rfl

/-- Both searches find the split point that fits on both pages and is nearest to half of the plain
size, the last one of several, or line zero if none fits. -/
theorem evenSplit_eq_debug (hlen : split.clines < split.rglineinfo.length)
    (hweights : Weights m split.rglineinfo split.clines)
    (hsizes : SizesOk split.rglineinfo split.clines)
    (hlast : ∀ line, getLine split.rglineinfo (split.clines - 1) = some line → 2 ≤ line.cbSize)
    (hclines : 2 ≤ split.clines) (htwo : split.clines = 2 →
      fitsAt cbPageAvail split 1 = some true) :
    ∃ split' candidate candidateT,
      btiSelectEvenSplit cbPageAvail split = some (split', candidate) ∧
      btiSelectEvenSplitDebug cbPageAvail split = some candidateT ∧
      candidate.iline = candidateT.iline ∧
      (candidate.iline = 0 ↔ ∀ k, 0 < k → k < split.clines →
        fitsAt cbPageAvail split k = some false) ∧
      (candidate.iline ≠ 0 →
        Nearest (fun k => (0 < k ∧ k < split.clines) ∧ fitsAt cbPageAvail split k = some true)
          (sizesBefore split.rglineinfo) (sizesBefore split.rglineinfo split.clines / 2)
            candidate.iline) := by
  have hfits : ∀ k, 0 < k → k < split.clines →
      (fitsAt cbPageAvail split k = some true ↔ split.Fits cbPageAvail k) := fun k hk hk' => by
    rw [fitsAt_eq hlen hweights hk hk', Option.some.injEq, decide_eq_true_eq]
  have hnot : ∀ k, 0 < k → k < split.clines →
      (fitsAt cbPageAvail split k = some false ↔ ¬ split.Fits cbPageAvail k) := fun k hk hk' => by
    rw [fitsAt_eq hlen hweights hk hk', Option.some.injEq, decide_eq_false_iff_not]
  have hroom : split.clines = 2 → split.Fits cbPageAvail 1 := fun heq =>
    (hfits 1 Nat.one_pos (by omega)).1 (htwo heq)
  obtain ⟨prefixinfoSplit, prefixinfoNew, candidate, heq, -, hfound⟩ :=
    btiSelectEvenSplit_eq hlen hweights hsizes hclines hroom
  obtain ⟨candidateT, heqT, hfoundT⟩ :=
    btiSelectEvenSplitDebug_eq hlen hweights hsizes hclines hroom hlast
  refine ⟨_, candidate, candidateT, heq, heqT, hfound.unique hfoundT, ?_, fun hne => ?_⟩
  · rw [hfound.1]
    exact forall_congr' fun k => forall_congr' fun hk => forall_congr' fun hk' =>
      (hnot k hk hk').symm
  · have hnearest := hfound.2 hne
    exact hnearest.restrict
      ⟨hnearest.mem.1, (hfits _ hnearest.mem.1.1 hnearest.mem.1.2).2 hnearest.mem.2⟩
      fun k hk => ⟨hk.1, (hfits k hk.1.1 hk.1.2).1 hk.2⟩

end SPLIT

end Ese.Bt
