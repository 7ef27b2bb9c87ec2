import Ese.Bt.KeyData
import Ese.Lib.Valley
import Ese.Node.KeyDataFlags

/-!
# The choice of a prefix key

A page can leave the first bytes of its keys to one prefix key, which is the key of one of its
lines. A split looks for the best line on each side: `BTIRecalcWeightsLE` sets for every line what
its key has in common with the key before, less the bytes that a prefix count takes, and the savings
of a line are the sum of the least of these numbers between it and each other line.
`BTISelectPrefixCheck` tries every line; `BTISelectPrefix` leaves out lines that cannot be better
than a neighbour and stops at zeros that it puts at the ends of the array for the time of the
search. A pointer to a line of the array is the array with the number of the line, and a read
outside the array has no result.
-/

namespace Ese.Bt

open Valley

/-- A line of a split: its size, the sums up to it, what it shares with the line before, its prefix
and its node. -/
structure LINEINFO where
  cbSize : Nat
  cbSizeMax : Nat
  cbSizeLE : Nat
  cbSizeMaxLE : Nat
  cbCommonPrev : Nat
  cbPrefix : Nat
  kdf : KEYDATA
  deriving DecidableEq, Repr

/-- No line is `ilineInvalid`. -/
structure PREFIXINFO where
  ilinePrefix : Option Nat
  cbSavings : Int
  ilineSegBegin : Nat
  ilineSegEnd : Nat
  deriving DecidableEq, Repr

/-- `PREFIXINFO::Nullify`. -/
def PREFIXINFO.nullify : PREFIXINFO := ⟨none, 0, 0, 0⟩

/-- Without a prefix nothing is saved. -/
@[simp] theorem PREFIXINFO.cbSavings_nullify : PREFIXINFO.nullify.cbSavings = 0 := rfl

/-- Whether no prefix is selected. -/
def PREFIXINFO.fNull (prefixinfo : PREFIXINFO) : Bool := prefixinfo.ilinePrefix.isNone

/-! ## The array -/

/-- The line at `iline`; past the end there is none to read. -/
def getLine (rglineinfo : List LINEINFO) (iline : Nat) : Option LINEINFO := rglineinfo[iline]?

/-- What the line shares with the one before it. -/
def getCommonPrev (rglineinfo : List LINEINFO) (iline : Nat) : Option Nat :=
  (getLine rglineinfo iline).map LINEINFO.cbCommonPrev

/-- A change of the line at `iline`. -/
def setLine (rglineinfo : List LINEINFO) (iline : Nat) (f : LINEINFO → LINEINFO) :
    Option (List LINEINFO) :=
  if iline < rglineinfo.length then some (rglineinfo.modify iline f) else none

/-- The line at `iline` shares `cb` bytes with the one before it. -/
def setCommonPrev (rglineinfo : List LINEINFO) (iline cb : Nat) : Option (List LINEINFO) :=
  setLine rglineinfo iline fun lineinfo => { lineinfo with cbCommonPrev := cb }

/-- The loop of `BTIRecalcWeightsLE`, with the number of lines left. -/
def recalcWeightsLoop (m : Mem) : Nat → Nat → List LINEINFO → Option (List LINEINFO)
  | 0, _, rglineinfo => some rglineinfo
  | k + 1, iline, rglineinfo => do
    let prev ← getLine rglineinfo (iline - 1)
    let line ← getLine rglineinfo iline
    let cbCommonKey := cbCommonKey m line.kdf.key prev.kdf.key
    let rglineinfo ← setLine rglineinfo iline fun lineinfo =>
      { lineinfo with
        cbSizeLE := prev.cbSizeLE + lineinfo.cbSize
        cbSizeMaxLE := prev.cbSizeMaxLE + lineinfo.cbSizeMax
        cbCommonPrev := if cbCommonKey > cbPrefixOverhead then cbCommonKey - cbPrefixOverhead
          else 0 }
    let rglineinfo ← setLine rglineinfo 0 fun lineinfo => { lineinfo with cbPrefix := 0 }
    recalcWeightsLoop m k (iline + 1) rglineinfo

/-- `BTIRecalcWeightsLE`. -/
def btiRecalcWeightsLE (m : Mem) (rglineinfo : List LINEINFO) (clines : Nat) :
    Option (List LINEINFO) := do
  let rglineinfo ← setLine rglineinfo 0 fun lineinfo =>
    { lineinfo with
      cbSizeLE := lineinfo.cbSize
      cbSizeMaxLE := lineinfo.cbSizeMax
      cbCommonPrev := 0
      cbPrefix := 0 }
  recalcWeightsLoop m (clines - 1) 1 rglineinfo

section
variable (rglineinfo : List LINEINFO) (base : Nat)

/-- A candidate takes the place of one that saves less. -/
def PREFIXINFO.update (prefixinfo : PREFIXINFO) (iline : Nat) (cbSavings : Int)
    (ilineSegLeft ilineSegRight : Nat) :
    PREFIXINFO :=
  if cbSavings > prefixinfo.cbSavings then ⟨some iline, cbSavings, ilineSegLeft, ilineSegRight⟩
  else prefixinfo

/-! ## The exhaustive search -/

/-- The savings for the previous lines, and where they end. -/
def checkLeftLoop : Nat → Nat → Nat → Option (Nat × Nat)
  | 0, _, cbSavingsLeft => some (0, cbSavingsLeft)
  | ilineSegLeft + 1, cbCommonMin, cbSavingsLeft => do
    let cbCommonPrev ← getCommonPrev rglineinfo (base + (ilineSegLeft + 1))
    if cbCommonPrev > 0 then
      let cbCommonMin := if cbCommonMin > cbCommonPrev then cbCommonPrev else cbCommonMin
      checkLeftLoop ilineSegLeft cbCommonMin (cbSavingsLeft + cbCommonMin)
    else some (ilineSegLeft + 1, cbSavingsLeft)

/-- The savings for the following lines, and where they end, with the number of lines left. -/
def checkRightLoop (iline : Nat) : Nat → Nat → Nat → Nat → Option (Nat × Nat)
  | 0, ilineSegRight, _, cbSavingsRight => some (ilineSegRight, cbSavingsRight)
  | k + 1, ilineSegRight, cbCommonMin, cbSavingsRight => do
    let cbCommonPrev ← getCommonPrev rglineinfo (base + ilineSegRight)
    if cbCommonPrev > 0 then
      let cbCommonMin :=
        if ilineSegRight = iline + 1 then cbCommonPrev
        else if cbCommonMin > cbCommonPrev then cbCommonPrev else cbCommonMin
      checkRightLoop iline k (ilineSegRight + 1) cbCommonMin (cbSavingsRight + cbCommonMin)
    else some (ilineSegRight, cbSavingsRight)

/-- The loop over the lines, with the number of lines left. -/
def checkLoop (clines : Nat) : Nat → Nat → PREFIXINFO → Option PREFIXINFO
  | 0, _, prefixinfo => some prefixinfo
  | k + 1, iline, prefixinfo => do
    let cbCommonMin ← getCommonPrev rglineinfo (base + iline)
    let (ilineSegLeft, cbSavingsLeft) ← checkLeftLoop rglineinfo base iline cbCommonMin 0
    let (ilineSegRight, cbSavingsRight) ←
      checkRightLoop rglineinfo base iline (clines - (iline + 1)) (iline + 1) cbCommonMin 0
    let cbSavings : Int := (cbSavingsLeft : Int) + cbSavingsRight - cbPrefixOverhead
    checkLoop clines k (iline + 1)
      (prefixinfo.update iline cbSavings ilineSegLeft (ilineSegRight - 1))

/-- `BTISelectPrefixCheck`, without its assertions. -/
def btiSelectPrefixCheck (clines : Nat) : Option (PREFIXINFO × List LINEINFO) :=
  if clines = 1 then some (.nullify, rglineinfo)
  else do
    let cbCommonPrevSav ← getCommonPrev rglineinfo base
    let rglineinfo ← setCommonPrev rglineinfo base 0
    let prefixinfo ← checkLoop rglineinfo base clines clines 0 .nullify
    let rglineinfo ← setCommonPrev rglineinfo base cbCommonPrevSav
    some (prefixinfo, rglineinfo)

/-! ## The search -/

/-- The savings for the previous lines. After a line zero that has something in common with the line
before, the loop would read before the array. -/
def segLeftLoop : Nat → Nat → Nat → Option (Nat × Nat)
  | 0, _, cbSavingsLeft => do
    let cbCommonPrev ← getCommonPrev rglineinfo base
    if cbCommonPrev > 0 then none else some (0, cbSavingsLeft)
  | ilineSegLeft + 1, cbCommonMin, cbSavingsLeft => do
    let cbCommonPrev ← getCommonPrev rglineinfo (base + (ilineSegLeft + 1))
    if cbCommonPrev > 0 then
      let cbCommonMin := if cbCommonMin > cbCommonPrev then cbCommonPrev else cbCommonMin
      segLeftLoop ilineSegLeft cbCommonMin (cbSavingsLeft + cbCommonMin)
    else some (ilineSegLeft + 1, cbSavingsLeft)

/-- The savings for the following lines, with the number of entries left: past them the loop would
read behind the array. -/
def segRightLoop : Nat → Nat → Nat → Nat → Option (Nat × Nat)
  | 0, _, _, _ => none
  | k + 1, ilineSegRight, cbCommonMin, cbSavingsRight => do
    let cbCommonPrev ← getCommonPrev rglineinfo (base + ilineSegRight)
    if cbCommonPrev > 0 then
      let cbCommonMin := if cbCommonMin > cbCommonPrev then cbCommonPrev else cbCommonMin
      segRightLoop k (ilineSegRight + 1) cbCommonMin (cbSavingsRight + cbCommonMin)
    else some (ilineSegRight, cbSavingsRight)

/-- The loop over the lines that are neither first nor last, with the number of them left. -/
def selectLoop (clines : Nat) : Nat → Nat → PREFIXINFO → Option PREFIXINFO
  | 0, _, prefixinfo => some prefixinfo
  | k + 1, iline, prefixinfo => do
    let cbPrev ← getCommonPrev rglineinfo (base + (iline - 1))
    let cb ← getCommonPrev rglineinfo (base + iline)
    let cbNext ← getCommonPrev rglineinfo (base + (iline + 1))
    if iline ≠ 1 ∧ iline ≠ clines - 2 ∧ cbNext ≥ cb then
      -- the next line is at least as good
      selectLoop clines k (iline + 1) prefixinfo
    else if iline > 1 ∧ iline ≠ clines - 2 ∧ cbPrev > cb ∧ cbNext < cb then
      -- the previous line is better
      selectLoop clines k (iline + 1) prefixinfo
    else
      let (ilineSegLeft, cbSavingsLeft) ← segLeftLoop rglineinfo base iline cb 0
      let (ilineSegRight, cbSavingsRight) ←
        segRightLoop rglineinfo base (rglineinfo.length - (base + (iline + 1))) (iline + 1) cbNext 0
      let cbSavings : Int := (cbSavingsLeft : Int) + cbSavingsRight - cbPrefixOverhead
      selectLoop clines k (iline + 1)
        (prefixinfo.update iline cbSavings ilineSegLeft (ilineSegRight - 1))

/-- `BTISelectPrefix`. -/
def btiSelectPrefix (clines : Nat) : Option (PREFIXINFO × List LINEINFO) :=
  if clines < 2 then some (.nullify, rglineinfo)
  else if clines = 2 then do
    let cbCommonPrev ← getCommonPrev rglineinfo (base + 1)
    let cbSavings : Int := (cbCommonPrev : Int) - cbPrefixOverhead
    some (if cbSavings > 0 then ⟨some 1, cbSavings, 0, 1⟩ else .nullify, rglineinfo)
  else do
    let cbCommonPrevFirstSav ← getCommonPrev rglineinfo base
    let cbCommonPrevLastSav ← getCommonPrev rglineinfo (base + clines)
    let rglineinfo ← setCommonPrev rglineinfo base 0
    let rglineinfo ← setCommonPrev rglineinfo (base + clines) 0
    let prefixinfo ← selectLoop rglineinfo base clines (clines - 2) 1 .nullify
    let rglineinfo ← setCommonPrev rglineinfo base cbCommonPrevFirstSav
    let rglineinfo ← setCommonPrev rglineinfo (base + clines) cbCommonPrevLastSav
    some (prefixinfo, rglineinfo)

end

/-! ## The loops of one line -/

section
variable {rglineinfo : List LINEINFO} {base n i : Nat} {c : Nat → Nat}

/-- The loop to the left adds what the lines there share, down to one that shares nothing. -/
theorem checkLeftLoop_eq (hread : ∀ l < n, getCommonPrev rglineinfo (base + l) = some (c l))
    (hi : i < n) {j : Nat}
    (hj : j ≤ i) (cbCommonMin : Nat) (hmin : ∀ k, j = k + 1 → min cbCommonMin (c j) = between c k i)
    (cbSavingsLeft : Nat) :
    ∃ b, checkLeftLoop rglineinfo base j cbCommonMin cbSavingsLeft =
        some (b, cbSavingsLeft + ∑ l ∈ Finset.Ico b j, between c i l) ∧
      b ≤ j ∧ (b = 0 ∨ c b = 0) ∧ ∀ l, b < l → l ≤ j → 0 < c l := by
  induction j generalizing cbCommonMin cbSavingsLeft with
  | zero => exact ⟨0, by simp [checkLeftLoop], le_rfl, .inl rfl, fun l hl hl' => by omega⟩
  | succ j ih =>
    rw [checkLeftLoop, hread (j + 1) (by omega), Option.bind_eq_bind, Option.bind_some]
    by_cases hpos : c (j + 1) > 0
    · rw [if_pos hpos]
      have hnext : (if cbCommonMin > c (j + 1) then c (j + 1) else cbCommonMin) =
        between c j i := by
        rw [← hmin j rfl]
        split <;> omega
      dsimp only
      rw [hnext]
      obtain ⟨b, heq, hb, hb0, hin⟩ := ih (by omega) (between c j i) (fun k hk => by
        subst hk
        exact (between_pred (by omega)).symm) (cbSavingsLeft + between c j i)
      refine ⟨b, ?_, by omega, hb0, fun l hl hl' => ?_⟩
      · rw [heq, Finset.sum_Ico_succ_top hb, between_comm c i j]
        congr 2
        omega
      · rcases Nat.lt_or_ge j l with hgt | hle
        · rwa [show l = j + 1 by omega]
        · exact hin l hl hle
    · rw [if_neg hpos]
      exact ⟨j + 1, by simp, le_rfl, .inr (by omega), fun l hl hl' => by omega⟩

/-- The loop to the right adds what the lines there share, up to one that shares nothing. -/
theorem checkRightLoop_eq (hread : ∀ l < n, getCommonPrev rglineinfo (base + l) = some (c l))
    {k j : Nat}
    (hj : i < j) (hk : j + k = n) (cbCommonMin : Nat)
    (hmin : j ≠ i + 1 → min cbCommonMin (c j) = between c i j) (cbSavingsRight : Nat) :
    ∃ e, checkRightLoop rglineinfo base i k j cbCommonMin cbSavingsRight =
        some (e, cbSavingsRight + ∑ l ∈ Finset.Ico j e, between c i l) ∧
      j ≤ e ∧ e ≤ n ∧ (e = n ∨ c e = 0) ∧ ∀ l, j ≤ l → l < e → 0 < c l := by
  induction k generalizing j cbCommonMin cbSavingsRight with
  | zero => exact ⟨j, by simp [checkRightLoop], le_rfl, by omega, .inl hk, fun l hl hl' => by omega⟩
  | succ k ih =>
    rw [checkRightLoop, hread j (by omega), Option.bind_eq_bind, Option.bind_some]
    by_cases hpos : c j > 0
    · rw [if_pos hpos]
      have hnext : (if j = i + 1 then c j else if cbCommonMin > c j then c j else cbCommonMin) =
          between c i j := by
        by_cases hij : j = i + 1
        · rw [if_pos hij, hij, between_succ]
        · rw [if_neg hij, ← hmin hij]
          split <;> omega
      dsimp only
      rw [hnext]
      obtain ⟨e, heq, he, hen, hlast, hin⟩ := ih (by omega) (by omega) (between c i j)
        (fun _ => (between_next hj).symm) (cbSavingsRight + between c i j)
      refine ⟨e, ?_, by omega, hen, hlast, fun l hl hl' => ?_⟩
      · rw [heq, Finset.sum_eq_sum_Ico_succ_bot (show j < e from he), Nat.add_assoc]
      · rcases Nat.lt_or_ge j l with hgt | hle
        · exact hin l hgt hl'
        · rwa [show l = j by omega]
    · rw [if_neg hpos]
      exact ⟨j, by simp, le_rfl, by omega, .inr (by omega), fun l hl hl' => by omega⟩

/-- What the exhaustive search finds for a line. -/
theorem check_line (hread : ∀ l < n, getCommonPrev rglineinfo (base + l) = some (c l))
    (hi : i < n) :
    ∃ b e cbSavingsLeft cbSavingsRight,
      checkLeftLoop rglineinfo base i (c i) 0 = some (b, cbSavingsLeft) ∧
      (∀ cbCommonMin, checkRightLoop rglineinfo base i (n - (i + 1)) (i + 1) cbCommonMin 0 =
        some (e + 1, cbSavingsRight)) ∧
      cbSavingsLeft + cbSavingsRight = sum c n i ∧ Segment c n i b e := by
  obtain ⟨b, hleft, hb, hb0, hinl⟩ := checkLeftLoop_eq hread hi le_rfl (c i) (fun k hk => by
    subst hk
    rw [min_self, between_succ]) 0
  have hright : ∀ cbCommonMin, ∃ e, checkRightLoop rglineinfo base i (n - (i + 1))
        (i + 1) cbCommonMin 0 =
        some (e, 0 + ∑ l ∈ Finset.Ico (i + 1) e, between c i l) ∧
      i + 1 ≤ e ∧ e ≤ n ∧ (e = n ∨ c e = 0) ∧ ∀ l, i + 1 ≤ l → l < e → 0 < c l := fun cbCommonMin =>
    checkRightLoop_eq hread (Nat.lt_succ_self i) (by omega) cbCommonMin
      (fun hne => absurd rfl hne) 0
  have hseg : ∀ e, i + 1 ≤ e → e ≤ n → (e = n ∨ c e = 0) → (∀ l, i + 1 ≤ l → l < e → 0 < c l) →
      Segment c n i b (e - 1) := fun e he hen hlast hinr =>
    { begin_le := hb
      le_end := by omega
      end_lt := by omega
      first := hb0
      last := by rw [show e - 1 + 1 = e by omega]; exact hlast
      inside := fun l hl hl' => by
        rcases Nat.lt_or_ge i l with hgt | hle
        · exact hinr l hgt (by omega)
        · exact hinl l hl hle }
  obtain ⟨e, -, he, hen, hlast, hinr⟩ := hright 0
  have hsegment := hseg e he hen hlast hinr
  refine ⟨b, e - 1, _, ∑ l ∈ Finset.Ico (i + 1) e, between c i l, hleft, fun cbCommonMin => ?_, ?_,
    hsegment⟩
  · -- where the loop ends does not depend on the number it starts with
    obtain ⟨e', heq, he', hen', hlast', hinr'⟩ := hright cbCommonMin
    have hends := (hseg e' he' hen' hlast' hinr').unique hsegment
    rw [heq, show e' = e by omega, show e - 1 + 1 = e by omega, Nat.zero_add]
  · rw [hsegment.sum_eq, show e - 1 + 1 = e by omega, Nat.zero_add,
      ← Finset.sum_Ico_consecutive _ hb (by omega : i ≤ e),
      Finset.sum_eq_sum_Ico_succ_bot (by omega : i < e), between_self, Nat.zero_add]

/-- With a zero at line zero the check of the line number is not needed. -/
theorem segLeftLoop_eq_check (h0 : getCommonPrev rglineinfo base = some 0)
    (j cbCommonMin cbSavingsLeft : Nat) :
    segLeftLoop rglineinfo base j cbCommonMin cbSavingsLeft =
      checkLeftLoop rglineinfo base j cbCommonMin cbSavingsLeft := by
  induction j generalizing cbCommonMin cbSavingsLeft with
  | zero => simp [segLeftLoop, checkLeftLoop, h0]
  | succ j ih =>
    rw [segLeftLoop, checkLeftLoop]
    simp only [ih]

/-- With a zero behind the last line the check of the line number is not needed. -/
theorem segRightLoop_eq_check (hn : getCommonPrev rglineinfo (base + n) = some 0) {k fuel j : Nat}
    (hk : j + k = n) (hfuel : k < fuel) {cbCommonMin : Nat}
    (hmin : j = i + 1 → j < n → getCommonPrev rglineinfo (base + j) = some cbCommonMin)
      (hij : i < j)
    (cbSavingsRight : Nat) :
    segRightLoop rglineinfo base fuel j cbCommonMin cbSavingsRight =
      checkRightLoop rglineinfo base i k j cbCommonMin cbSavingsRight := by
  induction k generalizing fuel j cbCommonMin cbSavingsRight with
  | zero =>
    obtain ⟨fuel, rfl⟩ : ∃ f, fuel = f + 1 := ⟨fuel - 1, by omega⟩
    obtain rfl : j = n := by omega
    simp [segRightLoop, checkRightLoop, hn]
  | succ k ih =>
    obtain ⟨fuel, rfl⟩ : ∃ f, fuel = f + 1 := ⟨fuel - 1, by omega⟩
    rw [segRightLoop, checkRightLoop]
    cases hget : getCommonPrev rglineinfo (base + j) with
    | none => rfl
    | some cb =>
      rw [Option.bind_eq_bind, Option.bind_some, Option.bind_some]
      have hnext : (if j = i + 1 then cb else if cbCommonMin > cb then cb else cbCommonMin) =
          if cbCommonMin > cb then cb else cbCommonMin := by
        by_cases hji : j = i + 1
        · have hcb := hmin hji (by omega)
          rw [hget, Option.some.injEq] at hcb
          rw [if_pos hji, hcb, if_neg (lt_irrefl _)]
        · rw [if_neg hji]
      rw [hnext]
      split
      · exact ih (by omega) (by omega) (fun h => by omega) (by omega) _
      · rfl

end

/-! ## The lines that the search tries -/

section
variable {n i : Nat} {c : Nat → Nat}

/-- `BTISelectPrefix` tries line `i` of `n`. -/
def Kept (c : Nat → Nat) (n i : Nat) : Prop :=
  1 ≤ i ∧ i + 1 < n ∧ ¬(i ≠ 1 ∧ i ≠ n - 2 ∧ c (i + 1) ≥ c i) ∧
    ¬(i > 1 ∧ i ≠ n - 2 ∧ c (i - 1) > c i ∧ c (i + 1) < c i)

/-- Where the next height is smaller, a line of the segment is kept that saves at least as much. -/
theorem exists_kept_down (hi : 1 ≤ i) (hn : i + 1 < n) (hlt : c (i + 1) < c i) :
    ∃ k, Kept c n k ∧ sum c n i ≤ sum c n k ∧ Valley.Linked c i k := by
  induction i with
  | zero => omega
  | succ i ih =>
    by_cases hkept : Kept c n (i + 1)
    · exact ⟨i + 1, hkept, le_rfl, .refl c _⟩
    · -- the line is left out for the previous one, with which it has something in common
      have hgt : i + 1 > 1 ∧ c i > c (i + 1) := by
        unfold Kept at hkept
        rw [Nat.add_sub_cancel] at hkept
        omega
      obtain ⟨k, hk, hle, hlinked⟩ := ih (by omega) (by omega) hgt.2
      exact ⟨k, hk, (sum_le_down (by omega) (.inr hlt.le)).trans hle,
        (linked_succ (by omega)).symm.trans hlinked⟩

/-- Where a line saves anything, a line of its segment is kept that saves at least as much. -/
theorem exists_kept_up (hi : 1 ≤ i) (hn : i + 1 < n) (hpos : 0 < sum c n i) :
    ∃ k, Kept c n k ∧ sum c n i ≤ sum c n k ∧ Valley.Linked c i k := by
  obtain ⟨d, hd⟩ : ∃ d, i + 2 + d = n := ⟨n - (i + 2), by omega⟩
  induction d generalizing i with
  | zero =>
    by_cases hlt : c (i + 1) < c i
    · exact exists_kept_down hi hn hlt
    · exact ⟨i, ⟨hi, hn, by omega, by omega⟩, le_rfl, .refl c i⟩
  | succ d ih =>
    by_cases hlt : c (i + 1) < c i
    · exact exists_kept_down hi hn hlt
    by_cases h1 : i = 1
    · exact ⟨i, ⟨hi, hn, by omega, by omega⟩, le_rfl, .refl c i⟩
    have hle : sum c n i ≤ sum c n (i + 1) := sum_le_up hn (.inr (by omega))
    have hnext : 0 < c (i + 1) := by
      obtain ⟨j, hj, hbetween⟩ := exists_pos_between hpos
      rcases Nat.lt_trichotomy j i with hji | rfl | hij
      · have := not_zero_between hbetween (l := i) (by omega) (by omega)
        omega
      · rw [between_self] at hbetween
        omega
      · exact not_zero_between hbetween (by omega) (by omega)
    obtain ⟨k, hk, hik, hlinked⟩ := ih (show 1 ≤ i + 1 by omega) (by omega) (hpos.trans_le hle)
      (by omega)
    exact ⟨k, hk, hle.trans hik, (linked_succ hnext).trans hlinked⟩

/-- The first and the last line are no better than their neighbours. -/
theorem exists_kept (hn : 3 ≤ n) (hi : i < n) (hpos : 0 < sum c n i) :
    ∃ k, Kept c n k ∧ sum c n i ≤ sum c n k ∧ Valley.Linked c i k := by
  obtain ⟨j, hj, hbetween⟩ := exists_pos_between hpos
  have hij : i ≠ j := fun he => by
    rw [he, between_self] at hbetween
    omega
  by_cases hfirst : i = 0
  · subst hfirst
    have hle : sum c n 0 ≤ sum c n 1 := sum_le_up (by omega) (.inl rfl)
    obtain ⟨k, hk, hik, hlinked⟩ := exists_kept_up le_rfl (by omega) (hpos.trans_le hle)
    exact ⟨k, hk, hle.trans hik,
      (linked_succ (not_zero_between hbetween (by omega) (by omega))).trans hlinked⟩
  by_cases hlast : i + 1 = n
  · obtain ⟨i, rfl⟩ : ∃ k, i = k + 1 := ⟨i - 1, by omega⟩
    have hle : sum c n (i + 1) ≤ sum c n i := sum_le_down (by omega) (.inl hlast)
    obtain ⟨k, hk, hik, hlinked⟩ := exists_kept_up (by omega) (by omega) (hpos.trans_le hle)
    exact ⟨k, hk, hle.trans hik,
      (linked_succ (not_zero_between hbetween (by omega) (by omega))).symm.trans hlinked⟩
  · exact exists_kept_up (by omega) (by omega) hpos

/-! ## The best line -/

/-- The search over the lines `K` that are before line `i`. -/
inductive Searched (K : Nat → Prop) (c : Nat → Nat) (n i : Nat) : PREFIXINFO → Prop
  | null (h : ∀ j < i, K j → sum c n j ≤ cbPrefixOverhead) : Searched K c n i .nullify
  | found {p b e : Nat} (hp : p < i) (hsegment : Segment c n p b e)
      (hpos : cbPrefixOverhead < sum c n p)
      (hle : ∀ j < i, K j → sum c n j ≤ sum c n p) (hlt : ∀ j < p, K j → sum c n j < sum c n p) :
      Searched K c n i ⟨some p, (sum c n p : Int) - cbPrefixOverhead, b, e⟩

/-- A line that saves the most, of the first segment that has one; none if no line saves
anything. -/
inductive IsBest (c : Nat → Nat) (n : Nat) : PREFIXINFO → Prop
  | null (h : ∀ i < n, sum c n i ≤ cbPrefixOverhead) : IsBest c n .nullify
  | found {p b e : Nat} (hbest : Best c n p b e) (hpos : cbPrefixOverhead < sum c n p) :
      IsBest c n ⟨some p, (sum c n p : Int) - cbPrefixOverhead, b, e⟩

variable {K : Nat → Prop} {prefixinfo : PREFIXINFO}

/-- A line that is not a candidate may be skipped. -/
theorem Searched.skip (h : Searched K c n i prefixinfo) (hi : ¬ K i) :
    Searched K c n (i + 1) prefixinfo := by
  have hstep : ∀ {P : Nat → Prop}, (∀ j < i, K j → P j) → ∀ j < i + 1, K j → P j :=
    fun hP j hj hK =>
    hP j (by
      rcases Nat.lt_succ_iff_lt_or_eq.1 hj with hlt | rfl
      · exact hlt
      · exact absurd hK hi) hK
  cases h with
  | null h => exact .null (hstep h)
  | found hp hsegment hpos hle hlt => exact .found (by omega) hsegment hpos (hstep hle) hlt

/-- A candidate is taken where it saves more. -/
theorem Searched.update {b e : Nat} (h : Searched K c n i prefixinfo)
    (hsegment : Segment c n i b e) :
    Searched K c n (i + 1) (prefixinfo.update i ((sum c n i : Int) - cbPrefixOverhead) b e) := by
  have hstep : ∀ {P : Nat → Prop}, (∀ j < i, K j → P j) → P i → ∀ j < i + 1, K j → P j :=
    fun hP hPi j hj hK => by
    rcases Nat.lt_succ_iff_lt_or_eq.1 hj with hlt | rfl
    · exact hP j hlt hK
    · exact hPi
  unfold PREFIXINFO.update
  cases h with
  | null h =>
    by_cases hgt : (sum c n i : Int) - cbPrefixOverhead > PREFIXINFO.nullify.cbSavings
    · rw [if_pos hgt]
      have hpos : cbPrefixOverhead < sum c n i := by
        rw [PREFIXINFO.cbSavings_nullify] at hgt
        omega
      exact .found (by omega) hsegment hpos
        (hstep (fun j hj hK => (h j hj hK).trans hpos.le) le_rfl) fun j hj hK =>
          (h j hj hK).trans_lt hpos
    · rw [if_neg hgt]
      rw [PREFIXINFO.cbSavings_nullify] at hgt
      exact .null (hstep h (by omega))
  | @found p b' e' hp hsegment' hpos hle hlt =>
    by_cases hgt : (sum c n i : Int) - cbPrefixOverhead > (sum c n p : Int) - cbPrefixOverhead
    · rw [if_pos hgt]
      exact .found (by omega) hsegment (by omega)
        (hstep (fun j hj hK => (hle j hj hK).trans (by omega)) le_rfl)
        fun j hj hK => (hle j hj hK).trans_lt (by omega)
    · rw [if_neg hgt]
      exact .found (by omega) hsegment' hpos (hstep hle (by omega)) hlt

/-- Once the candidates are searched, and each line has one as good, the best is found. -/
theorem Searched.isBest (h : Searched K c n i prefixinfo) (hK : ∀ j, K j → j < i)
    (hcover : ∀ j < n, 0 < sum c n j → ∃ k, K k ∧ sum c n j ≤ sum c n k ∧ Valley.Linked c j k) :
    IsBest c n prefixinfo := by
  cases h with
  | null h =>
    refine .null fun j hj => ?_
    rcases Nat.eq_zero_or_pos (sum c n j) with h0 | h0
    · omega
    · obtain ⟨k, hk, hjk, -⟩ := hcover j hj h0
      exact hjk.trans (h k (hK k hk) hk)
  | found hp hsegment hpos hle hlt =>
    exact .found (.of_cover hsegment (by omega) (fun j hj => hle j (hK j hj) hj) hlt hcover) hpos

/-- No prefix is selected iff none saves more than the overhead. -/
theorem IsBest.fNull_iff (h : IsBest c n prefixinfo) :
    prefixinfo.fNull = true ↔ ∀ i < n, sum c n i ≤ cbPrefixOverhead := by
  cases h with
  | null h => exact ⟨fun _ => h, fun _ => rfl⟩
  | @found p b e hbest hpos =>
    refine ⟨fun hnull => absurd hnull (by simp [PREFIXINFO.fNull]), fun h => ?_⟩
    have := h p (hbest.segment.le_end.trans_lt hbest.segment.end_lt)
    omega

/-- The savings and the segment are those of every best line. -/
theorem IsBest.unique {prefixinfo' : PREFIXINFO} (h : IsBest c n prefixinfo)
    (h' : IsBest c n prefixinfo') :
    prefixinfo.cbSavings = prefixinfo'.cbSavings ∧
      prefixinfo.ilineSegBegin = prefixinfo'.ilineSegBegin ∧
      prefixinfo.ilineSegEnd = prefixinfo'.ilineSegEnd ∧
      (prefixinfo.ilinePrefix = none ↔ prefixinfo'.ilinePrefix = none) := by
  cases h with
  | null h =>
    cases h' with
    | null h' => exact ⟨rfl, rfl, rfl, Iff.rfl⟩
    | found hbest hpos =>
      have := h _ (hbest.segment.le_end.trans_lt hbest.segment.end_lt)
      omega
  | found hbest hpos =>
    cases h' with
    | null h' =>
      have := h' _ (hbest.segment.le_end.trans_lt hbest.segment.end_lt)
      omega
    | found hbest' hpos' =>
      obtain ⟨hsum, hb, he⟩ := hbest.unique hbest'
      exact ⟨by rw [hsum], hb, he, by simp⟩

end

/-- The best prefix depends on the heights only. -/
theorem IsBest.congr {c c' : Nat → Nat} {n : Nat} {prefixinfo : PREFIXINFO}
    (h : IsBest c n prefixinfo)
    (hc : ∀ l, 0 < l → l < n → c l = c' l) : IsBest c' n prefixinfo := by
  cases h with
  | null h =>
    refine .null fun i hi => ?_
    rw [← sum_congr_heights hc hi]
    exact h i hi
  | found hbest hpos =>
    have hp := hbest.segment.le_end.trans_lt hbest.segment.end_lt
    rw [sum_congr_heights hc hp] at hpos ⊢
    exact .found (hbest.congr hc) hpos

/-! ## The searches -/

section
variable {rglineinfo : List LINEINFO} {base n : Nat} {c : Nat → Nat}

/-- A line that is there can be changed. -/
theorem setLine_eq {iline : Nat} (h : iline < rglineinfo.length) (f : LINEINFO → LINEINFO) :
    setLine rglineinfo iline f = some (rglineinfo.modify iline f) := if_pos h

/-- The array with another number at a line. -/
def putCommonPrev (rglineinfo : List LINEINFO) (iline cb : Nat) : List LINEINFO :=
  rglineinfo.modify iline fun lineinfo => { lineinfo with cbCommonPrev := cb }

/-- No line is added or removed. -/
@[simp] theorem length_putCommonPrev (iline cb : Nat) :
    (putCommonPrev rglineinfo iline cb).length = rglineinfo.length :=
  List.length_modify _ _ _

/-- A line that is there can be changed. -/
theorem setCommonPrev_eq {iline : Nat} (h : iline < rglineinfo.length) (cb : Nat) :
    setCommonPrev rglineinfo iline cb = some (putCommonPrev rglineinfo iline cb) := setLine_eq h _

/-- A change reads back at its line and nowhere else. -/
theorem getCommonPrev_put (iline cb j : Nat) :
    getCommonPrev (putCommonPrev rglineinfo iline cb) j =
      if iline = j then (getCommonPrev rglineinfo j).map fun _ => cb
      else getCommonPrev rglineinfo j := by
  unfold getCommonPrev getLine putCommonPrev
  rw [List.getElem?_modify]
  split <;> cases rglineinfo[j]? <;> rfl

/-- What can be read is there. -/
theorem lt_length_of_getCommonPrev {iline cb : Nat} (h : getCommonPrev rglineinfo iline = some cb) :
    iline < rglineinfo.length := by
  unfold getCommonPrev getLine at h
  rw [Option.map_eq_some_iff] at h
  obtain ⟨lineinfo, hget, -⟩ := h
  exact (List.getElem?_eq_some_iff.1 hget).1

/-- A number is put back in its place. -/
theorem putCommonPrev_restore {iline cb : Nat} (h : getCommonPrev rglineinfo iline = some cb)
    (cb' : Nat) :
    putCommonPrev (putCommonPrev rglineinfo iline cb') iline cb = rglineinfo := by
  unfold getCommonPrev getLine at h
  rw [Option.map_eq_some_iff] at h
  obtain ⟨lineinfo, hget, rfl⟩ := h
  unfold putCommonPrev
  refine List.ext_getElem? fun j => ?_
  rw [List.getElem?_modify, List.getElem?_modify]
  by_cases hj : iline = j
  · subst hj
    simp [hget]
  · simp [hj]

/-- Changes at two lines commute. -/
theorem putCommonPrev_comm {iline iline' : Nat} (hne : iline ≠ iline') (cb cb' : Nat) :
    putCommonPrev (putCommonPrev rglineinfo iline' cb') iline cb =
      putCommonPrev (putCommonPrev rglineinfo iline cb) iline' cb' := by
  unfold putCommonPrev
  refine List.ext_getElem? fun j => ?_
  simp only [List.getElem?_modify]
  by_cases hj : iline = j
  · simp [hj, show iline' ≠ j from fun he => hne (hj.trans he.symm)]
  · simp [hj]

/-- The exhaustive loop searches every line. -/
theorem checkLoop_eq (hread : ∀ l < n, getCommonPrev rglineinfo (base + l) = some (c l)) {k i : Nat}
    (hk : i + k = n) {prefixinfo : PREFIXINFO} (h : Searched (· < n) c n i prefixinfo) :
    ∃ prefixinfo', checkLoop rglineinfo base n k i prefixinfo = some prefixinfo' ∧
      Searched (· < n) c n n prefixinfo' := by
  induction k generalizing i prefixinfo with
  | zero =>
    obtain rfl : i = n := hk
    exact ⟨prefixinfo, rfl, h⟩
  | succ k ih =>
    obtain ⟨b, e, cbSavingsLeft, cbSavingsRight, hleft, hright, hsum, hsegment⟩ :=
      check_line hread (show i < n by omega)
    rw [checkLoop, hread i (by omega)]
    simp only [Option.bind_eq_bind, Option.bind_some, hleft, hright, Nat.add_sub_cancel]
    rw [← Nat.cast_add, hsum]
    exact ih (by omega) (h.update hsegment)

/-- The fast loop searches the lines that it keeps. -/
theorem selectLoop_eq (hread : ∀ l ≤ n, getCommonPrev rglineinfo (base + l) = some (c l))
    (h0 : c 0 = 0)
    (hn : c n = 0) {k i : Nat} (hi : 1 ≤ i) (hk : i + k + 1 = n) {prefixinfo : PREFIXINFO}
    (h : Searched (Kept c n) c n i prefixinfo) :
    ∃ prefixinfo', selectLoop rglineinfo base n k i prefixinfo = some prefixinfo' ∧
      Searched (Kept c n) c n (n - 1) prefixinfo' := by
  induction k generalizing i prefixinfo with
  | zero =>
    obtain rfl : i = n - 1 := by omega
    exact ⟨prefixinfo, rfl, h⟩
  | succ k ih =>
    rw [selectLoop, hread (i - 1) (by omega), hread i (by omega), hread (i + 1) (by omega)]
    simp only [Option.bind_eq_bind, Option.bind_some]
    by_cases hnext : i ≠ 1 ∧ i ≠ n - 2 ∧ c (i + 1) ≥ c i
    · rw [if_pos hnext]
      exact ih (by omega) (by omega) (h.skip fun hkept => hkept.2.2.1 hnext)
    rw [if_neg hnext]
    by_cases hprev : i > 1 ∧ i ≠ n - 2 ∧ c (i - 1) > c i ∧ c (i + 1) < c i
    · rw [if_pos hprev]
      exact ih (by omega) (by omega) (h.skip fun hkept => hkept.2.2.2 hprev)
    rw [if_neg hprev]
    obtain ⟨b, e, cbSavingsLeft, cbSavingsRight, hleft, hright, hsum, hsegment⟩ :=
      check_line (fun l hl => hread l hl.le) (show i < n by omega)
    have hfirst : getCommonPrev rglineinfo base = some 0 := by
      rw [← h0]
      exact hread 0 (Nat.zero_le n)
    have hlast : getCommonPrev rglineinfo (base + n) = some 0 := by
      rw [← hn]
      exact hread n le_rfl
    have hlen := lt_length_of_getCommonPrev hlast
    rw [segLeftLoop_eq_check hfirst, hleft, Option.bind_some,
      segRightLoop_eq_check hlast (i := i) (k := n - (i + 1)) (by omega) (by omega)
        (fun _ _ => hread (i + 1) (by omega)) (Nat.lt_succ_self i), hright, Option.bind_some]
    rw [Nat.add_sub_cancel, ← Nat.cast_add, hsum]
    exact ih (by omega) (by omega) (h.update hsegment)

/-- One line has nothing in common with others. -/
theorem isBest_one (h : n < 2) : IsBest c n .nullify := by
  refine .null fun i hi => ?_
  obtain rfl : n = 1 := by omega
  obtain rfl : i = 0 := by omega
  rw [Valley.sum, Finset.sum_range_one, between_self]
  exact Nat.zero_le _

/-- The exhaustive selection finds the best prefix. -/
theorem btiSelectPrefixCheck_eq (hn : 1 ≤ n) (hread : ∀ l < n, getCommonPrev rglineinfo (base + l) =
    some (c l)) :
    ∃ prefixinfo, btiSelectPrefixCheck rglineinfo base n = some (prefixinfo, rglineinfo) ∧
      IsBest c n prefixinfo := by
  unfold btiSelectPrefixCheck
  by_cases h1 : n = 1
  · rw [if_pos h1]
    exact ⟨_, rfl, isBest_one (by omega)⟩
  rw [if_neg h1]
  have hget : getCommonPrev rglineinfo base = some (c 0) := hread 0 hn
  have hlen := lt_length_of_getCommonPrev hget
  have hread' : ∀ l < n, getCommonPrev (putCommonPrev rglineinfo base 0) (base + l) =
      some (Function.update c 0 0 l) := fun l hl => by
    rw [getCommonPrev_put, hread l hl]
    by_cases h0 : l = 0
    · rw [h0, if_pos (by omega), Function.update_self]
      rfl
    · rw [if_neg (by omega), Function.update_of_ne h0]
  obtain ⟨prefixinfo, heq, hsearched⟩ :=
    checkLoop_eq hread' (Nat.zero_add n) (.null fun j hj => absurd hj (Nat.not_lt_zero j))
  have hback : setCommonPrev (putCommonPrev rglineinfo base 0) base (c 0) = some rglineinfo := by
    rw [setCommonPrev_eq (by rwa [length_putCommonPrev]), putCommonPrev_restore hget]
  simp only [hget, setCommonPrev_eq hlen, heq, hback, Option.bind_eq_bind, Option.bind_some]
  refine ⟨prefixinfo, rfl, ?_⟩
  have hbest : IsBest (Function.update c 0 0) n prefixinfo :=
    hsearched.isBest (fun j hj => hj) fun j hj _ => ⟨j, hj, le_rfl, .refl _ j⟩
  exact hbest.congr fun l hl _ => Function.update_of_ne (by omega) _ _

/-- Of two lines the second is selected where they share more than the overhead. -/
theorem isBest_two (hpos : cbPrefixOverhead < c 1) :
    IsBest c 2 ⟨some 1, (c 1 : Int) - cbPrefixOverhead, 0, 1⟩ := by
  have hsum : ∀ i < 2, Valley.sum c 2 i = c 1 := fun i hi => by
    rw [Valley.sum, Finset.sum_range_succ, Finset.sum_range_one]
    rcases Nat.lt_or_ge i 1 with h0 | h1
    · obtain rfl : i = 0 := by omega
      rw [between_self, between_succ, Nat.zero_add]
    · obtain rfl : i = 1 := by omega
      rw [between_self, between_comm, between_succ, Nat.add_zero]
  have hsegment : Segment c 2 1 0 1 :=
    ⟨Nat.zero_le 1, le_rfl, Nat.lt_succ_self 1, .inl rfl, .inl rfl, fun l hl hl' => by
      obtain rfl : l = 1 := by omega
      omega⟩
  have hbest : Best c 2 1 0 1 :=
    ⟨hsegment, fun i hi => by rw [hsum i hi, hsum 1 (by omega)], fun i hi =>
      absurd hi (Nat.not_lt_zero i)⟩
  rw [← hsum 1 (by omega)] at hpos ⊢
  exact .found hbest hpos

/-- Of two lines none is selected where they share no more than the overhead. -/
theorem isBest_two_null (hle : c 1 ≤ cbPrefixOverhead) : IsBest c 2 .nullify := by
  refine .null fun i hi => ?_
  rw [Valley.sum, Finset.sum_range_succ, Finset.sum_range_one]
  rcases Nat.lt_or_ge i 1 with h0 | h1
  · obtain rfl : i = 0 := by omega
    rwa [between_self, between_succ, Nat.zero_add]
  · obtain rfl : i = 1 := by omega
    rwa [between_self, between_comm, between_succ, Nat.add_zero]

/-- The numbers of the search, with a zero at each end. -/
def capped (c : Nat → Nat) (n l : Nat) : Nat := if l = 0 ∨ l = n then 0 else c l

/-- Heights between the ends stay. -/
theorem capped_of_ne {l : Nat} (h0 : l ≠ 0) (hn : l ≠ n) : capped c n l = c l :=
  if_neg (by rintro (h | h) <;> contradiction)

/-- The heights as the selection has set them at the ends. -/
theorem getCommonPrev_capped (hread : ∀ l ≤ n, getCommonPrev rglineinfo (base + l) = some (c l))
    {l : Nat}
    (hl : l ≤ n) :
    getCommonPrev (putCommonPrev (putCommonPrev rglineinfo base 0) (base + n) 0) (base + l) =
      some (capped c n l) := by
  rw [getCommonPrev_put, getCommonPrev_put, hread l hl]
  by_cases hn : l = n
  · have hcap : capped c n n = 0 := if_pos (.inr rfl)
    rw [hn, if_pos rfl, hcap]
    split <;> rfl
  by_cases h0 : l = 0
  · have hcap : capped c n 0 = 0 := if_pos (.inl rfl)
    rw [h0, if_neg (by omega), if_pos (Nat.add_zero base).symm, hcap]
    rfl
  · rw [if_neg (by omega), if_neg (by omega), capped_of_ne h0 hn]

/-- The search keeps the array and finds a best line. -/
theorem btiSelectPrefix_eq (hread : ∀ l ≤ n, getCommonPrev rglineinfo (base + l) = some (c l)) :
    ∃ prefixinfo, btiSelectPrefix rglineinfo base n = some (prefixinfo, rglineinfo) ∧
      IsBest c n prefixinfo := by
  unfold btiSelectPrefix
  by_cases h1 : n < 2
  · rw [if_pos h1]
    exact ⟨_, rfl, isBest_one h1⟩
  rw [if_neg h1]
  by_cases h2 : n = 2
  · subst h2
    rw [if_pos rfl, hread 1 (by omega)]
    refine ⟨_, rfl, ?_⟩
    split
    · exact isBest_two (by omega)
    · exact isBest_two_null (by omega)
  rw [if_neg h2]
  have hfirst : getCommonPrev rglineinfo base = some (c 0) := hread 0 (Nat.zero_le n)
  have hlast : getCommonPrev rglineinfo (base + n) = some (c n) := hread n le_rfl
  have hlen := lt_length_of_getCommonPrev hlast
  obtain ⟨prefixinfo, heq, hsearched⟩ := selectLoop_eq (fun l hl => getCommonPrev_capped hread hl)
    (if_pos (.inl rfl)) (if_pos (.inr rfl)) le_rfl (show 1 + (n - 2) + 1 = n by omega)
      (.null fun j hj hkept => by
      have := hkept.1
      omega)
  have hset : setCommonPrev (putCommonPrev rglineinfo base 0) (base + n) 0 =
      some (putCommonPrev (putCommonPrev rglineinfo base 0) (base + n) 0) :=
    setCommonPrev_eq (by rwa [length_putCommonPrev]) 0
  have hback : setCommonPrev (putCommonPrev (putCommonPrev rglineinfo base 0) (base + n) 0) base
      (c 0) =
      some (putCommonPrev rglineinfo (base + n) 0) := by
    rw [setCommonPrev_eq (by rw [length_putCommonPrev, length_putCommonPrev]; omega),
      putCommonPrev_comm (by omega), putCommonPrev_restore hfirst]
  have hback' : setCommonPrev (putCommonPrev rglineinfo (base + n) 0) (base + n) (c n) =
    some rglineinfo := by
    rw [setCommonPrev_eq (by rwa [length_putCommonPrev]), putCommonPrev_restore hlast]
  simp only [hfirst, hlast, setCommonPrev_eq (show base < rglineinfo.length by omega), hset, heq,
    hback, hback',
    Option.bind_eq_bind, Option.bind_some]
  have hbest : IsBest (capped c n) n prefixinfo := hsearched.isBest
    (fun j hkept => by
      have := hkept.2.1
      omega)
    fun j hj hpos => exists_kept (by omega) hj hpos
  exact ⟨prefixinfo, rfl, hbest.congr fun l hl hln => capped_of_ne (by omega) (by omega)⟩

end

end Ese.Bt
