import Ese.Bt.SetPrefix

/-!
# Prefixes at a moving split point

A split leaves the lines before the split point on the split page and moves the others to a new
page, and each page has a prefix of its own. When the split point moves by one line,
`BTIRecalculatePrefix`, `BTISelectPrefixDecrement` and `BTISelectPrefixIncrement` keep a choice that
the line does not touch, or search only a part of the lines. The numbers of the lines of the new
page count from the split point.
-/

namespace Ese.Bt

open Valley

/-- What the operation that splits the page does to its line. -/
inductive SPLITOPER where
  | splitoperNone
  | splitoperInsert
  | splitoperReplace
  | splitoperFlagInsertAndReplaceData
  deriving DecidableEq, Repr

/-- A split: the operation, the lines with it, the split point and the prefixes of both pages. -/
structure SPLIT where
  splitoper : SPLITOPER
  fHotpoint : Bool
  ilineOper : Nat
  clines : Nat
  ilineSplit : Nat
  prefixinfoSplit : PREFIXINFO
  prefixinfoNew : PREFIXINFO
  rglineinfo : List LINEINFO
  deriving DecidableEq, Repr

/-- The lines of the choice are one further on. -/
def PREFIXINFO.increment (prefixinfo : PREFIXINFO) : PREFIXINFO :=
  if prefixinfo.fNull then prefixinfo
  else
    { prefixinfo with
      ilinePrefix := prefixinfo.ilinePrefix.map (· + 1)
      ilineSegBegin := prefixinfo.ilineSegBegin + 1
      ilineSegEnd := prefixinfo.ilineSegEnd + 1 }

/-- The lines of the choice are one further back. -/
def PREFIXINFO.decrement (prefixinfo : PREFIXINFO) : PREFIXINFO :=
  if prefixinfo.fNull then prefixinfo
  else
    { prefixinfo with
      ilinePrefix := prefixinfo.ilinePrefix.map (· - 1)
      ilineSegBegin := prefixinfo.ilineSegBegin - 1
      ilineSegEnd := prefixinfo.ilineSegEnd - 1 }

namespace SPLIT

variable (split : SPLIT)

/-- `BTISelectPrefix` of `clines` lines on the split page. -/
def selectPrefixSplit (clines : Nat) : Option SPLIT := do
  let (prefixinfoSplit, rglineinfo) ← btiSelectPrefix split.rglineinfo 0 clines
  some { split with prefixinfoSplit, rglineinfo }

/-- `BTISelectPrefix` of `clines` lines from `iline` on, on the new page. -/
def selectPrefixNew (iline clines : Nat) : Option SPLIT := do
  let (prefixinfoNew, rglineinfo) ← btiSelectPrefix split.rglineinfo iline clines
  some { split with prefixinfoNew, rglineinfo }

/-- `BTIRecalculatePrefix`. -/
def btiRecalculatePrefix (ilinePrev ilineNew : Nat) : Option SPLIT :=
  if ilinePrev < ilineNew then do
    let cbCommonPrev ← getCommonPrev split.rglineinfo (ilineNew - 1)
    let split ← (if cbCommonPrev = 0 then some split else split.selectPrefixSplit ilineNew)
    if split.prefixinfoNew.ilineSegBegin = 0
      then split.selectPrefixNew ilineNew (split.clines - ilineNew)
    else some { split with prefixinfoNew := split.prefixinfoNew.decrement }
  else do
    let split ←
      (if split.prefixinfoSplit.ilineSegEnd = ilineNew then split.selectPrefixSplit ilineNew
        else some split)
    let cbCommonPrev ← getCommonPrev split.rglineinfo (ilineNew + 1)
    if cbCommonPrev = 0 then some { split with prefixinfoNew := split.prefixinfoNew.increment }
    else split.selectPrefixNew ilineNew (split.clines - ilineNew)

/-- `BTISelectPrefixDecrement` of the split page: the last line is gone, and `clines` are left. -/
def btiSelectPrefixDecrement (clines : Nat) : Option SPLIT :=
  if split.prefixinfoSplit.ilineSegEnd = clines then split.selectPrefixSplit clines else some split

/-- The first line that has nothing in common with the one before, with the number of lines left. -/
def firstSegmentLoop (rglineinfo : List LINEINFO) (base : Nat) : Nat → Nat → Option Nat
  | 0, iline => some iline
  | k + 1, iline => do
    let cbCommonPrev ← getCommonPrev rglineinfo (base + iline)
    if cbCommonPrev = 0 then some iline else firstSegmentLoop rglineinfo base k (iline + 1)

/-- `BTISelectPrefixIncrement` of the new page: it has a line more at its start, line `ilineSplit`,
and `clines` lines with it. -/
def btiSelectPrefixIncrement (ilineSplit clines : Nat) : Option SPLIT := do
  let fNotInCommon ←
    (if clines > 1 then
      (getCommonPrev split.rglineinfo (ilineSplit + 1)).map fun cbCommonPrev =>
        decide (cbCommonPrev = 0)
    else some false)
  if fNotInCommon then some { split with prefixinfoNew := split.prefixinfoNew.increment }
  else if split.prefixinfoNew.fNull then do
    let iline ← firstSegmentLoop split.rglineinfo ilineSplit (clines - 1) 1
    split.selectPrefixNew ilineSplit iline
  else split.selectPrefixNew ilineSplit (split.prefixinfoNew.ilineSegEnd + 1 + 1)

/-- `BTISelectPrefixes`. -/
def btiSelectPrefixes (ilineSplit : Nat) : Option SPLIT :=
  if ilineSplit = 0 then split.selectPrefixNew ilineSplit (split.clines - ilineSplit)
  else do
    let split ←
      (if split.clines - 1 = ilineSplit then split.selectPrefixSplit ilineSplit
      else split.btiSelectPrefixDecrement ilineSplit)
    split.btiSelectPrefixIncrement ilineSplit (split.clines - ilineSplit)

/-- `BTISelectPrefixes` at the split points from the last one down, `k` of them. -/
def selectPrefixesDown : Nat → Option SPLIT
  | 0 => some split
  | k + 1 => do
    let split ← selectPrefixesDown k
    split.btiSelectPrefixes (split.clines - 1 - k)

end SPLIT

/-! ## One line more or less -/

section
variable {c : Nat → Nat} {n m : Nat} {prefixinfo : PREFIXINFO}

/-- Lines behind the last segment do not matter if they weigh no more than an earlier line. -/
theorem IsBest.extend (h : IsBest c m prefixinfo) (hmn : m ≤ n) (hcut : m = n ∨ c m = 0)
    (hrest : ∀ i < n, m ≤ i → sum c n i ≤ cbPrefixOverhead ∨ ∃ k < m, sum c n i ≤ sum c n k) :
    IsBest c n prefixinfo := by
  cases h with
  | null h =>
    refine .null fun i hi => ?_
    rcases Nat.lt_or_ge i m with hlt | hge
    · rw [sum_cut hmn hcut hlt]
      exact h i hlt
    · rcases hrest i hi hge with hle | ⟨k, hk, hle⟩
      · exact hle
      · rw [sum_cut hmn hcut hk] at hle
        exact hle.trans (h k hk)
  | @found p b e hbest hpos =>
    have hp : p < m := hbest.segment.le_end.trans_lt hbest.segment.end_lt
    have hsegment : Segment c n p b e :=
      { hbest.segment with
        end_lt := hbest.segment.end_lt.trans_le hmn
        last := by
          rcases hbest.segment.last with hlast | hlast
          · rw [hlast]
            exact hcut
          · exact .inr hlast }
    rw [← sum_cut hmn hcut hp] at hpos ⊢
    refine .found ⟨hsegment, fun i hi => ?_, fun i hi => ?_⟩ hpos
    · have hle : ∀ k < m, sum c n k ≤ sum c n p := fun k hk => by
        rw [sum_cut hmn hcut hk, sum_cut hmn hcut hp]
        exact hbest.le k hk
      rcases Nat.lt_or_ge i m with hlt | hge
      · exact hle i hlt
      · rcases hrest i hi hge with hover | ⟨k, hk, hik⟩
        · omega
        · exact hik.trans (hle k hk)
    · have him : i < m := hi.trans_le (hbest.segment.begin_le.trans hp.le)
      rw [sum_cut hmn hcut him, sum_cut hmn hcut hp]
      exact hbest.lt i hi

/-- A line that shares nothing with the one before saves nothing at the end. -/
theorem sum_eq_zero_of_alone (hfirst : c n = 0) : sum c (n + 1) n = 0 := by
  refine Finset.sum_eq_zero fun j hj => ?_
  have hj' := Finset.mem_range.1 hj
  rcases Nat.lt_or_ge j n with hlt | hge
  · exact between_eq_zero (by omega) (by omega) hfirst
  · obtain rfl : j = n := by omega
    exact between_self c j

/-- The last line has nothing in common with the others. -/
theorem IsBest.append (h : IsBest c n prefixinfo) (hn : c n = 0) : IsBest c (n + 1) prefixinfo := by
  refine h.extend (Nat.le_succ n) (.inr hn) fun i hi hge => .inl ?_
  obtain rfl : i = n := by omega
  rw [sum_eq_zero_of_alone hn]
  exact Nat.zero_le _

/-- The last line goes, and the choice was without it. -/
theorem IsBest.dropLast (h : IsBest c (n + 1) prefixinfo) (hend : prefixinfo.ilineSegEnd ≠ n) :
    IsBest c n prefixinfo := by
  cases h with
  | null h => exact .null fun i hi => (sum_mono (Nat.le_succ n)).trans (h i (by omega))
  | @found p b e hbest hpos =>
    have hen : e < n := by
      have := hbest.segment.end_lt
      dsimp only at hend
      omega
    have hp : p < n := hbest.segment.le_end.trans_lt hen
    have hsegment : Segment c n p b e :=
      { hbest.segment with
        end_lt := hen
        last := by
          rcases hbest.segment.last with hlast | hlast
          · omega
          · exact .inr hlast }
    have hsum : sum c (n + 1) p = sum c n p := by
      rw [hsegment.sum_eq, hbest.segment.sum_eq]
    rw [hsum] at hpos ⊢
    refine .found ⟨hsegment, fun i hi => ?_, fun i hi => ?_⟩ hpos
    · rw [← hsum]
      exact (sum_mono (Nat.le_succ n)).trans (hbest.le i (by omega))
    · rw [← hsum]
      exact (sum_mono (Nat.le_succ n)).trans_lt (hbest.lt i hi)

/-- The first line goes, and the choice was without it. -/
theorem IsBest.dropFirst (h : IsBest c (n + 1) prefixinfo) (hbegin : prefixinfo.ilineSegBegin ≠ 0) :
    IsBest (fun l => c (l + 1)) n prefixinfo.decrement := by
  cases h with
  | null h => exact absurd rfl hbegin
  | @found p b e hbest hpos =>
    have hb := hbest.segment.begin_le
    have he := hbest.segment.le_end
    have hen := hbest.segment.end_lt
    dsimp only at hbegin
    obtain ⟨b, rfl⟩ : ∃ k, b = k + 1 := ⟨b - 1, by omega⟩
    obtain ⟨p, rfl⟩ : ∃ k, p = k + 1 := ⟨p - 1, by omega⟩
    obtain ⟨e, rfl⟩ : ∃ k, e = k + 1 := ⟨e - 1, by omega⟩
    have hzero : c (b + 1) = 0 := hbest.segment.first.resolve_left hbegin
    have hsegment : Segment (fun l => c (l + 1)) n p b e :=
      { begin_le := by omega
        le_end := by omega
        end_lt := by omega
        first := .inr hzero
        last := hbest.segment.last.imp_left fun hlast => by omega
        inside := fun l hl hl' => hbest.segment.inside (l + 1) (by omega) (by omega) }
    have hle : ∀ i, sum (fun l => c (l + 1)) n i ≤ sum c (n + 1) (i + 1) := fun i => by
      rw [sum_shift]
      exact Nat.le_add_right _ _
    have hsum : sum c (n + 1) (p + 1) = sum (fun l => c (l + 1)) n p := by
      rw [sum_shift, between_eq_zero (l := b + 1) (by omega) (by omega) hzero, Nat.add_zero]
    rw [hsum] at hpos ⊢
    have hbest' : Best (fun l => c (l + 1)) n p b e := by
      refine ⟨hsegment, fun i hi => ?_, fun i hi => ?_⟩
      · rw [← hsum]
        exact (hle i).trans (hbest.le (i + 1) (by omega))
      · rw [← hsum]
        exact (hle i).trans_lt (hbest.lt (i + 1) (by omega))
    exact .found hbest' hpos

/-- A line comes before the first one, with which it has nothing in common. -/
theorem IsBest.prepend (h : IsBest (fun l => c (l + 1)) n prefixinfo) (hfirst : n = 0 ∨ c 1 = 0) :
    IsBest c (n + 1) prefixinfo.increment := by
  have hsum : ∀ i < n, sum c (n + 1) (i + 1) = sum (fun l => c (l + 1)) n i := fun i hi => by
    rw [sum_shift, between_eq_zero (l := 1) (by omega) (by omega) (hfirst.resolve_left (by omega)),
      Nat.add_zero]
  have hsum0 : sum c (n + 1) 0 = 0 := by
    refine Finset.sum_eq_zero fun j hj => ?_
    have hj' := Finset.mem_range.1 hj
    rcases Nat.eq_zero_or_pos j with rfl | hpos
    · exact between_self c 0
    · exact between_eq_zero (l := 1) (by omega) (by omega) (hfirst.resolve_left (by omega))
  cases h with
  | null h =>
    refine .null fun i hi => ?_
    rcases Nat.eq_zero_or_pos i with rfl | hpos
    · omega
    · obtain ⟨i, rfl⟩ : ∃ k, i = k + 1 := ⟨i - 1, by omega⟩
      rw [hsum i (by omega)]
      exact h i (by omega)
  | @found p b e hbest hpos =>
    have hb := hbest.segment.begin_le
    have he := hbest.segment.le_end
    have hen := hbest.segment.end_lt
    have hzero : c (b + 1) = 0 := by
      rcases hbest.segment.first with rfl | hb0
      · exact hfirst.resolve_left (by omega)
      · exact hb0
    have hsegment : Segment c (n + 1) (p + 1) (b + 1) (e + 1) :=
      { begin_le := by omega
        le_end := by omega
        end_lt := by omega
        first := .inr hzero
        last := hbest.segment.last.imp_left fun hlast => by omega
        inside := fun l hl hl' => by
          obtain ⟨l, rfl⟩ : ∃ k, l = k + 1 := ⟨l - 1, by omega⟩
          exact hbest.segment.inside l (by omega) (by omega) }
    rw [← hsum p (by omega)] at hpos ⊢
    have hbest' : Best c (n + 1) (p + 1) (b + 1) (e + 1) := by
      refine ⟨hsegment, fun i hi => ?_, fun i hi => ?_⟩
      · rcases Nat.eq_zero_or_pos i with rfl | hi0
        · omega
        · obtain ⟨i, rfl⟩ : ∃ k, i = k + 1 := ⟨i - 1, by omega⟩
          rw [hsum i (by omega), hsum p (by omega)]
          exact hbest.le i (by omega)
      · rcases Nat.eq_zero_or_pos i with rfl | hi0
        · omega
        · obtain ⟨i, rfl⟩ : ∃ k, i = k + 1 := ⟨i - 1, by omega⟩
          rw [hsum i (by omega), hsum p (by omega)]
          exact hbest.lt i (by omega)
    exact .found hbest' hpos

/-- A line comes before lines that save nothing: only its own segment matters. -/
theorem IsBest.firstSegment {prefixinfo' : PREFIXINFO} (h : IsBest (fun l => c (l + 1)) n .nullify)
    (hm : 1 ≤ m)
    (hmn : m ≤ n + 1) (hcut : m = n + 1 ∨ c m = 0) (h' : IsBest c m prefixinfo') :
      IsBest c (n + 1) prefixinfo' := by
  refine h'.extend hmn hcut fun i hi hge => .inl ?_
  obtain ⟨i, rfl⟩ : ∃ k, i = k + 1 := ⟨i - 1, by omega⟩
  rw [sum_shift, between_eq_zero (l := m) (by omega) (by omega) (hcut.resolve_left (by omega)),
    Nat.add_zero]
  cases h with
  | null h => exact h i (by omega)

/-- The segment of the prefix ends among the lines. -/
theorem IsBest.ilineSegEnd_lt (h : IsBest c n prefixinfo) (hnull : prefixinfo.fNull = false) :
    prefixinfo.ilineSegEnd < n := by
  cases h with
  | null h => simp [PREFIXINFO.fNull, PREFIXINFO.nullify] at hnull
  | found hbest hpos => exact hbest.segment.end_lt

/-- A line comes before lines with a best one: only the lines up to the end of its segment
matter. -/
theorem IsBest.upToSegment {prefixinfo' : PREFIXINFO} (h : IsBest (fun l => c (l + 1)) n prefixinfo)
    (hnull : prefixinfo.fNull = false)
      (h' : IsBest c (prefixinfo.ilineSegEnd + 1 + 1) prefixinfo') :
    IsBest c (n + 1) prefixinfo' := by
  cases h with
  | null h => simp [PREFIXINFO.fNull, PREFIXINFO.nullify] at hnull
  | @found p b e hbest hpos =>
    have he := hbest.segment.le_end
    have hen := hbest.segment.end_lt
    dsimp only at h'
    have hcut : e + 1 + 1 = n + 1 ∨ c (e + 1 + 1) = 0 := hbest.segment.last.imp_left fun hlast => by
      omega
    refine h'.extend (by omega) hcut fun i hi hge => .inr ⟨p + 1, by omega, ?_⟩
    obtain ⟨i, rfl⟩ : ∃ k, i = k + 1 := ⟨i - 1, by omega⟩
    rw [sum_shift, sum_shift, between_eq_zero (l := e + 1 + 1) (i := i + 1) (by omega) (by omega)
      (hcut.resolve_left (by omega)), Nat.add_zero]
    exact (hbest.le i (by omega)).trans (Nat.le_add_right _ _)

end

/-! ## Both pages -/

/-- The heights of the lines from the next one on. -/
theorem heights_succ (rglineinfo : List LINEINFO) (base : Nat) :
    heights rglineinfo (base + 1) = fun l => heights rglineinfo base (l + 1) := by
  funext l
  unfold heights
  rw [Nat.add_right_comm, Nat.add_assoc]

namespace SPLIT

variable {split : SPLIT} {iline : Nat}

/-- The split page and the new page have a best line each. -/
structure BestAt (split : SPLIT) (iline : Nat) : Prop where
  splitPage : IsBest (heights split.rglineinfo 0) iline split.prefixinfoSplit
  newPage : IsBest (heights split.rglineinfo iline) (split.clines - iline) split.prefixinfoNew

/-- What the lines share can be read, and are the heights. -/
theorem getCommonPrev_eq (hlen : split.clines < split.rglineinfo.length) {base l : Nat}
    (hl : base + l ≤ split.clines) :
    getCommonPrev split.rglineinfo (base + l) = some (heights split.rglineinfo base l) :=
  getCommonPrev_heights (n := l) (by omega) le_rfl

/-- The selection for the split page finds the best prefix. -/
theorem selectPrefixSplit_eq (hlen : split.clines < split.rglineinfo.length) {clines : Nat}
    (h : clines ≤ split.clines) :
    ∃ prefixinfoSplit, split.selectPrefixSplit clines = some { split with prefixinfoSplit } ∧
      IsBest (heights split.rglineinfo 0) clines prefixinfoSplit := by
  have hselect : ∃ prefixinfo, btiSelectPrefix split.rglineinfo 0 clines =
      some (prefixinfo, split.rglineinfo) ∧
      IsBest (heights split.rglineinfo 0) clines prefixinfo :=
    btiSelectPrefix_eq fun l hl => getCommonPrev_eq hlen (by omega)
  obtain ⟨prefixinfoSplit, heq, hbest⟩ := hselect
  refine ⟨prefixinfoSplit, ?_, hbest⟩
  rw [selectPrefixSplit, heq]
  rfl

/-- The selection for the new page finds the best prefix. -/
theorem selectPrefixNew_eq (split : SPLIT) (iline clines : Nat)
    (hlen : split.clines < split.rglineinfo.length)
    (h : iline + clines ≤ split.clines) :
    ∃ prefixinfoNew, split.selectPrefixNew iline clines = some { split with prefixinfoNew } ∧
      IsBest (heights split.rglineinfo iline) clines prefixinfoNew := by
  have hselect : ∃ prefixinfo, btiSelectPrefix split.rglineinfo iline clines =
      some (prefixinfo, split.rglineinfo) ∧
      IsBest (heights split.rglineinfo iline) clines prefixinfo :=
    btiSelectPrefix_eq fun l hl => getCommonPrev_eq hlen (by omega)
  obtain ⟨prefixinfoNew, heq, hbest⟩ := hselect
  refine ⟨prefixinfoNew, ?_, hbest⟩
  rw [selectPrefixNew, heq]
  rfl

/-- A split point one up keeps the best prefixes. -/
theorem btiRecalculatePrefix_up
    (hlen : split.clines < split.rglineinfo.length) (hiline : iline + 1 ≤ split.clines)
    (h : split.BestAt iline) :
    ∃ prefixinfoSplit prefixinfoNew,
      split.btiRecalculatePrefix iline (iline + 1) =
        some { split with prefixinfoSplit, prefixinfoNew } ∧
        BestAt { split with prefixinfoSplit, prefixinfoNew } (iline + 1) := by
  have hread : getCommonPrev split.rglineinfo iline = some (heights split.rglineinfo 0 iline) := by
    have := getCommonPrev_eq hlen (show 0 + iline ≤ split.clines by omega)
    rwa [Nat.zero_add] at this
  have hsplit : ∃ prefixinfoSplit,
      (if heights split.rglineinfo 0 iline = 0 then some split else split.selectPrefixSplit
        (iline + 1)) =
        some { split with prefixinfoSplit } ∧ IsBest (heights split.rglineinfo 0)
          (iline + 1) prefixinfoSplit := by
    by_cases hzero : heights split.rglineinfo 0 iline = 0
    · rw [if_pos hzero]
      exact ⟨split.prefixinfoSplit, rfl, h.splitPage.append hzero⟩
    · rw [if_neg hzero]
      exact selectPrefixSplit_eq hlen hiline
  obtain ⟨prefixinfoSplit, heq, hbest⟩ := hsplit
  rw [btiRecalculatePrefix, if_pos (Nat.lt_succ_self iline), Nat.add_sub_cancel, hread]
  simp only [Option.bind_eq_bind, Option.bind_some, heq]
  by_cases hbegin : split.prefixinfoNew.ilineSegBegin = 0
  · rw [if_pos hbegin]
    obtain ⟨prefixinfoNew, heqNew, hbestNew⟩ := selectPrefixNew_eq { split with prefixinfoSplit }
      (iline + 1) (split.clines - (iline + 1)) hlen (Nat.add_sub_of_le hiline).le
    exact ⟨prefixinfoSplit, prefixinfoNew, heqNew, hbest, hbestNew⟩
  · rw [if_neg hbegin]
    have hnew := h.newPage
    rw [show split.clines - iline = split.clines - (iline + 1) + 1 by omega] at hnew
    refine ⟨prefixinfoSplit, split.prefixinfoNew.decrement, rfl, hbest, ?_⟩
    dsimp only
    rw [heights_succ]
    exact hnew.dropFirst hbegin

/-- The line before the split point leaves the split page. -/
theorem btiSelectPrefixDecrement_eq (hlen : split.clines < split.rglineinfo.length)
    (hiline : iline ≤ split.clines)
    (h : IsBest (heights split.rglineinfo 0) (iline + 1) split.prefixinfoSplit) :
    ∃ prefixinfoSplit, split.btiSelectPrefixDecrement iline = some { split with prefixinfoSplit } ∧
      IsBest (heights split.rglineinfo 0) iline prefixinfoSplit := by
  unfold btiSelectPrefixDecrement
  by_cases hend : split.prefixinfoSplit.ilineSegEnd = iline
  · rw [if_pos hend]
    exact selectPrefixSplit_eq hlen hiline
  · rw [if_neg hend]
    exact ⟨split.prefixinfoSplit, rfl, h.dropLast hend⟩

/-- A split point one down keeps the best prefixes. -/
theorem btiRecalculatePrefix_down (hlen : split.clines < split.rglineinfo.length)
    (hiline : iline + 1 ≤ split.clines)
    (h : split.BestAt (iline + 1)) :
    ∃ prefixinfoSplit prefixinfoNew,
      split.btiRecalculatePrefix (iline + 1) iline =
        some { split with prefixinfoSplit, prefixinfoNew } ∧
        BestAt { split with prefixinfoSplit, prefixinfoNew } iline := by
  have hread : getCommonPrev split.rglineinfo (iline + 1) =
    some (heights split.rglineinfo iline 1) :=
    getCommonPrev_eq hlen hiline
  obtain ⟨prefixinfoSplit, heq, hbest⟩ := btiSelectPrefixDecrement_eq hlen
    (Nat.le_of_succ_le hiline) h.splitPage
  unfold btiSelectPrefixDecrement at heq
  have hclines : split.clines - iline = split.clines - (iline + 1) + 1 := by omega
  rw [btiRecalculatePrefix, if_neg (by omega), heq]
  simp only [Option.bind_eq_bind, Option.bind_some, hread]
  by_cases hzero : heights split.rglineinfo iline 1 = 0
  · rw [if_pos hzero]
    refine ⟨prefixinfoSplit, split.prefixinfoNew.increment, rfl, hbest, ?_⟩
    have hnew := h.newPage
    rw [heights_succ] at hnew
    dsimp only
    rw [hclines]
    exact hnew.prepend (.inr hzero)
  · rw [if_neg hzero]
    obtain ⟨prefixinfoNew, heqNew, hbestNew⟩ := selectPrefixNew_eq { split with prefixinfoSplit }
      iline (split.clines - iline) hlen (Nat.add_sub_of_le (by omega)).le
    exact ⟨prefixinfoSplit, prefixinfoNew, heqNew, hbest, hbestNew⟩

/-- The loop finds where the first segment ends. -/
theorem firstSegmentLoop_eq (hlen : split.clines < split.rglineinfo.length) {base k i : Nat}
    (hk : base + i + k ≤ split.clines) :
    ∃ m, firstSegmentLoop split.rglineinfo base k i = some m ∧ i ≤ m ∧ m ≤ i + k ∧
      (m = i + k ∨ heights split.rglineinfo base m = 0) := by
  induction k generalizing i with
  | zero => exact ⟨i, rfl, le_rfl, le_rfl, .inl rfl⟩
  | succ k ih =>
    rw [firstSegmentLoop, getCommonPrev_eq hlen (by omega), Option.bind_eq_bind, Option.bind_some]
    by_cases hzero : heights split.rglineinfo base i = 0
    · rw [if_pos hzero]
      exact ⟨i, rfl, le_rfl, by omega, .inr hzero⟩
    · rw [if_neg hzero]
      obtain ⟨m, heq, him, hmk, hcut⟩ := ih (show base + (i + 1) + k ≤ split.clines by omega)
      exact ⟨m, heq, by omega, by omega, hcut.imp_left fun hm => by omega⟩

/-- The line of the split point comes to the new page. -/
theorem btiSelectPrefixIncrement_eq (hlen : split.clines < split.rglineinfo.length) {n : Nat}
    (hiline : iline + (n + 1) = split.clines)
    (h : IsBest (heights split.rglineinfo (iline + 1)) n split.prefixinfoNew) :
    ∃ prefixinfoNew, split.btiSelectPrefixIncrement iline (n + 1) =
      some { split with prefixinfoNew } ∧
      IsBest (heights split.rglineinfo iline) (n + 1) prefixinfoNew := by
  rw [heights_succ] at h
  have htest : (if n + 1 > 1 then
        (getCommonPrev split.rglineinfo (iline + 1)).map fun cbCommonPrev =>
          decide (cbCommonPrev = 0)
      else some false) = some (decide (0 < n ∧ heights split.rglineinfo iline 1 = 0)) := by
    by_cases hn : 0 < n
    · rw [if_pos (by omega), getCommonPrev_eq hlen (by omega), Option.map_some]
      simp [hn]
    · rw [if_neg (by omega)]
      simp [hn]
  unfold btiSelectPrefixIncrement
  rw [htest, Option.bind_eq_bind, Option.bind_some]
  by_cases hfirst : 0 < n ∧ heights split.rglineinfo iline 1 = 0
  · rw [if_pos (decide_eq_true hfirst)]
    exact ⟨_, rfl, h.prepend (.inr hfirst.2)⟩
  rw [if_neg (by simpa using hfirst)]
  by_cases hnull : split.prefixinfoNew.fNull = true
  · rw [if_pos hnull]
    obtain ⟨m, heq, hm, hmn, hcut⟩ :=
      firstSegmentLoop_eq hlen (show iline + 1 + n ≤ split.clines by omega)
    rw [Nat.add_sub_cancel, heq, Option.bind_eq_bind, Option.bind_some]
    obtain ⟨prefixinfoNew, heqNew, hbest⟩ := selectPrefixNew_eq split iline m hlen (by omega)
    have hnullify : IsBest (fun l => heights split.rglineinfo iline (l + 1)) n .nullify :=
      .null (h.fNull_iff.1 hnull)
    exact ⟨prefixinfoNew, heqNew,
      hnullify.firstSegment hm (by omega) (hcut.imp_left fun hm' => by omega) hbest⟩
  · rw [if_neg hnull]
    have hend := h.ilineSegEnd_lt (Bool.not_eq_true _ ▸ hnull)
    obtain ⟨prefixinfoNew, heqNew, hbest⟩ :=
      selectPrefixNew_eq split iline (split.prefixinfoNew.ilineSegEnd + 1 + 1) hlen (by omega)
    exact ⟨prefixinfoNew, heqNew, h.upToSegment (Bool.not_eq_true _ ▸ hnull) hbest⟩

/-- The split point comes down to `iline`: from the last line, or from the line after. -/
theorem btiSelectPrefixes_eq (hlen : split.clines < split.rglineinfo.length) (hpos : 0 < iline)
    (hiline : iline + 1 ≤ split.clines)
    (hsplit : iline + 1 = split.clines ∨ IsBest (heights split.rglineinfo 0)
      (iline + 1) split.prefixinfoSplit)
    (hnew : IsBest (heights split.rglineinfo (iline + 1))
      (split.clines - (iline + 1)) split.prefixinfoNew) :
    ∃ prefixinfoSplit prefixinfoNew,
      split.btiSelectPrefixes iline = some { split with prefixinfoSplit, prefixinfoNew } ∧
        BestAt { split with prefixinfoSplit, prefixinfoNew } iline := by
  have hpage : ∃ prefixinfoSplit,
      (if split.clines - 1 = iline then split.selectPrefixSplit iline
        else split.btiSelectPrefixDecrement iline) =
        some { split with prefixinfoSplit } ∧
          IsBest (heights split.rglineinfo 0) iline prefixinfoSplit := by
    by_cases hlast : split.clines - 1 = iline
    · rw [if_pos hlast]
      exact selectPrefixSplit_eq hlen (by omega)
    · rw [if_neg hlast]
      exact btiSelectPrefixDecrement_eq hlen (by omega) (hsplit.resolve_left (by omega))
  obtain ⟨prefixinfoSplit, heq, hbest⟩ := hpage
  have hclines : split.clines - iline = split.clines - (iline + 1) + 1 := by omega
  have hincrement : ∃ prefixinfoNew, SPLIT.btiSelectPrefixIncrement
        { split with prefixinfoSplit } iline
        (split.clines - (iline + 1) + 1) = some { split with prefixinfoSplit, prefixinfoNew } ∧
      IsBest (heights split.rglineinfo iline) (split.clines - (iline + 1) + 1) prefixinfoNew := by
    refine @btiSelectPrefixIncrement_eq { split with prefixinfoSplit } iline hlen _ ?_ hnew
    dsimp only
    omega
  obtain ⟨prefixinfoNew, heqNew, hbestNew⟩ := hincrement
  refine ⟨prefixinfoSplit, prefixinfoNew, ?_, hbest, ?_⟩
  · rw [btiSelectPrefixes, if_neg (by omega), heq, Option.bind_eq_bind, Option.bind_some]
    dsimp only
    rw [hclines]
    exact heqNew
  · dsimp only
    rw [hclines]
    exact hbestNew

/-- The prefixes at every split point that is reached from the last line down. -/
theorem selectPrefixesDown_eq (hlen : split.clines < split.rglineinfo.length)
    (hnull : split.prefixinfoNew = .nullify)
    {k : Nat} (hk : k + 1 < split.clines) :
    ∃ prefixinfoSplit prefixinfoNew,
      split.selectPrefixesDown (k + 1) = some { split with prefixinfoSplit, prefixinfoNew } ∧
        BestAt { split with prefixinfoSplit, prefixinfoNew } (split.clines - 1 - k) := by
  induction k with
  | zero =>
    rw [selectPrefixesDown, selectPrefixesDown, Option.bind_eq_bind, Option.bind_some]
    refine btiSelectPrefixes_eq hlen (by omega) (by omega) (.inl (by omega)) ?_
    rw [hnull]
    exact isBest_one (by omega)
  | succ k ih =>
    obtain ⟨prefixinfoSplit, prefixinfoNew, heq, hbest⟩ := ih (by omega)
    have hiline : split.clines - 1 - (k + 1) + 1 = split.clines - 1 - k := by omega
    rw [selectPrefixesDown, heq, Option.bind_eq_bind, Option.bind_some]
    refine @btiSelectPrefixes_eq { split with prefixinfoSplit, prefixinfoNew } _ hlen ?_ ?_
      (.inr ?_) ?_
    · dsimp only
      omega
    · dsimp only
      omega
    · dsimp only
      rw [hiline]
      exact hbest.splitPage
    · dsimp only
      rw [hiline]
      exact hbest.newPage

end SPLIT

/-! ## The choice from scratch -/

/-- The choice has the savings and the segment that `BTISelectPrefix` finds for the lines, and its
line is one of the segment that saves as much. -/
def Agrees (rglineinfo : List LINEINFO) (base clines : Nat) (prefixinfo : PREFIXINFO) : Prop :=
  ∃ prefixinfoT, btiSelectPrefix rglineinfo base clines = some (prefixinfoT, rglineinfo) ∧
    prefixinfo.cbSavings = prefixinfoT.cbSavings ∧
    prefixinfo.ilineSegBegin = prefixinfoT.ilineSegBegin ∧
    prefixinfo.ilineSegEnd = prefixinfoT.ilineSegEnd ∧
    (prefixinfo.ilinePrefix = none ↔ prefixinfoT.ilinePrefix = none) ∧
    ∀ ilinePrefix, prefixinfo.ilinePrefix = some ilinePrefix →
      prefixinfo.ilineSegBegin ≤ ilinePrefix ∧ ilinePrefix ≤ prefixinfo.ilineSegEnd ∧
        prefixinfo.cbSavings =
        (Valley.sum (heights rglineinfo base) clines ilinePrefix : Int) - cbPrefixOverhead

/-- The prefix agrees with the exhaustive selection iff it is the best. -/
theorem agrees_iff {rglineinfo : List LINEINFO} {base clines : Nat}
    (hlen : base + clines < rglineinfo.length)
    {prefixinfo : PREFIXINFO} :
    Agrees rglineinfo base clines prefixinfo ↔
      IsBest (heights rglineinfo base) clines prefixinfo := by
  obtain ⟨prefixinfoT, heq, hbestT⟩ := btiSelectPrefix_eq fun l hl => getCommonPrev_heights hlen hl
  constructor
  · rintro ⟨prefixinfoT', heq', hsavings, hbegin, hend, hnull, hprefix⟩
    rw [heq, Option.some.injEq, Prod.mk.injEq] at heq'
    obtain ⟨rfl, -⟩ := heq'
    obtain ⟨ilinePrefix, cbSavings, ilineSegBegin, ilineSegEnd⟩ := prefixinfo
    dsimp only at hsavings hbegin hend hnull hprefix
    cases hbestT with
    | null h =>
      rw [hnull.2 rfl, hsavings, hbegin, hend]
      exact .null h
    | @found p b e hbest hpos =>
      cases ilinePrefix with
      | none => exact absurd (hnull.1 rfl) (by simp)
      | some q =>
        obtain ⟨hq, hq', hsum⟩ := hprefix q rfl
        dsimp only at hsavings
        subst hbegin hend
        have hsums : Valley.sum (heights rglineinfo base) clines q = Valley.sum
          (heights rglineinfo base) clines p := by
          omega
        have hbest' : Best (heights rglineinfo base) clines q ilineSegBegin ilineSegEnd := by
          refine ⟨hbest.segment.of_mem hq hq', fun i hi => ?_, fun i hi => ?_⟩
          · rw [hsums]
            exact hbest.le i hi
          · rw [hsums]
            exact hbest.lt i hi
        rw [hsum]
        exact .found hbest' (by omega)
  · intro hbest
    obtain ⟨hsavings, hbegin, hend, hnull⟩ := hbest.unique hbestT
    refine ⟨prefixinfoT, heq, hsavings, hbegin, hend, hnull, fun p hp => ?_⟩
    cases hbest with
    | null h => simp [PREFIXINFO.nullify] at hp
    | @found q b e hbest hpos =>
      obtain rfl : q = p := Option.some.inj hp
      exact ⟨hbest.segment.begin_le, hbest.segment.le_end, rfl⟩

namespace SPLIT

/-- Both choices are those from scratch. -/
def AgreesAt (split : SPLIT) (iline : Nat) : Prop :=
  Agrees split.rglineinfo 0 iline split.prefixinfoSplit ∧
    Agrees split.rglineinfo iline (split.clines - iline) split.prefixinfoNew

/-- The prefixes agree with the exhaustive selection iff they are the best. -/
theorem agreesAt_iff {split : SPLIT} (hlen : split.clines < split.rglineinfo.length) {iline : Nat}
    (hiline : iline ≤ split.clines) : split.AgreesAt iline ↔ split.BestAt iline := by
  unfold AgreesAt
  rw [agrees_iff (by omega), agrees_iff (by omega)]
  exact ⟨fun h => ⟨h.1, h.2⟩, fun h => ⟨h.splitPage, h.newPage⟩⟩

/-- The best prefixes agree with the exhaustive selection. -/
theorem BestAt.agreesAt {split : SPLIT} {iline : Nat} (h : split.BestAt iline)
    (hlen : split.clines < split.rglineinfo.length) (hiline : iline ≤ split.clines) :
      split.AgreesAt iline :=
  (agreesAt_iff hlen hiline).2 h

/-- The incremental choices are those from scratch: after the split point moves to a neighbour, and
at every split point that is reached from the last line down. -/
theorem prefixes_agree {split : SPLIT} (hlen : split.clines < split.rglineinfo.length) :
    (∀ ilinePrev ilineNew, ilinePrev ≤ split.clines → ilineNew ≤ split.clines →
      ilineNew = ilinePrev + 1 ∨ ilinePrev = ilineNew + 1 → split.AgreesAt ilinePrev →
        ∃ prefixinfoSplit prefixinfoNew,
          split.btiRecalculatePrefix ilinePrev ilineNew =
            some { split with prefixinfoSplit, prefixinfoNew } ∧
            AgreesAt { split with prefixinfoSplit, prefixinfoNew } ilineNew) ∧
    (split.prefixinfoNew = .nullify → ∀ k, k + 1 < split.clines →
      ∃ prefixinfoSplit prefixinfoNew,
        split.selectPrefixesDown (k + 1) = some { split with prefixinfoSplit, prefixinfoNew } ∧
          AgreesAt { split with prefixinfoSplit, prefixinfoNew } (split.clines - 1 - k)) := by
  refine ⟨fun ilinePrev ilineNew hprev hnew hadjacent hagrees => ?_, fun hnull k hk => ?_⟩
  · rw [agreesAt_iff hlen hprev] at hagrees
    rcases hadjacent with rfl | rfl
    · obtain ⟨prefixinfoSplit, prefixinfoNew, heq, hbest⟩ :=
        btiRecalculatePrefix_up hlen hnew hagrees
      exact ⟨prefixinfoSplit, prefixinfoNew, heq, hbest.agreesAt hlen hnew⟩
    · obtain ⟨prefixinfoSplit, prefixinfoNew, heq, hbest⟩ :=
        btiRecalculatePrefix_down hlen hprev hagrees
      exact ⟨prefixinfoSplit, prefixinfoNew, heq, hbest.agreesAt hlen hnew⟩
  · obtain ⟨prefixinfoSplit, prefixinfoNew, heq, hbest⟩ := selectPrefixesDown_eq hlen hnull hk
    exact ⟨prefixinfoSplit, prefixinfoNew, heq,
      hbest.agreesAt hlen (show split.clines - 1 - k ≤ split.clines by omega)⟩

/-- Four lines, the split point in the middle. -/
theorem prefixes_agree_four :
    ∃ split : SPLIT, split.clines = 4 ∧ split.AgreesAt 2 ∧
      ∃ prefixinfoSplit prefixinfoNew,
        split.btiRecalculatePrefix 2 3 = some { split with prefixinfoSplit, prefixinfoNew } ∧
          AgreesAt { split with prefixinfoSplit, prefixinfoNew } 3 := by
  let line (cbCommonPrev : Nat) : LINEINFO := ⟨8, 8, 0, 0, cbCommonPrev, 0, ⟨⟨.null, .null⟩, .null⟩⟩
  let split : SPLIT := ⟨.splitoperNone, false, 0, 4, 0, ⟨some 1, 2, 0, 1⟩, ⟨some 1, 4, 0, 1⟩,
    [line 0, line 4, line 5, line 6, line 0]⟩
  have hagrees : split.AgreesAt 2 := by
    refine ⟨⟨⟨some 1, 2, 0, 1⟩, by decide, rfl, rfl, rfl, by decide, fun p hp => ?_⟩,
      ⟨⟨some 1, 4, 0, 1⟩, by decide, rfl, rfl, rfl, by decide, fun p hp => ?_⟩⟩
    · cases hp
      decide
    · cases hp
      decide
  exact ⟨split, rfl, hagrees, (prefixes_agree (by decide)).1 2 3 (by decide) (by decide)
    (.inl rfl) hagrees⟩

end SPLIT

end Ese.Bt
