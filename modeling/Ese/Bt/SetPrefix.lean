import Ese.Bt.SelectPrefix

/-!
# The prefix of each line

`BTISetPrefix` sets for every line of the chosen segment how many bytes of its key are left to the
prefix key. As the keys are in order, these are all the bytes that the key and the prefix key have
in common, and the nodes with the prefix key take as many bytes less than the plain nodes as the
choice promises.
-/

namespace Ese.Bt

open Valley

/-- The count of the key bytes in a node, and its tag. -/
def cbNDNullKeyData : Nat := cbKeyCount + 4

section
variable (base : Nat)

/-- No line has a prefix, with the number of lines left. -/
def clearPrefixLoop : Nat → Nat → List LINEINFO → Option (List LINEINFO)
  | 0, _, rglineinfo => some rglineinfo
  | k + 1, iline, rglineinfo => do
    let rglineinfo ← setLine rglineinfo (base + iline) fun lineinfo =>
      { lineinfo with cbPrefix := 0 }
    clearPrefixLoop k (iline + 1) rglineinfo

/-- The previous lines, with the number of them left. -/
def setPrefixLeftLoop : Nat → Nat → Nat → List LINEINFO → Option (List LINEINFO)
  | 0, _, _, rglineinfo => some rglineinfo
  | k + 1, iline, cbCommonMin, rglineinfo => do
    let cbCommonPrev ← getCommonPrev rglineinfo (base + iline)
    let cbCommonMin := if cbCommonMin > cbCommonPrev then cbCommonPrev else cbCommonMin
    let rglineinfo ← setLine rglineinfo (base + (iline - 1)) fun lineinfo =>
      { lineinfo with cbPrefix := cbCommonMin + cbPrefixOverhead }
    setPrefixLeftLoop k (iline - 1) cbCommonMin rglineinfo

/-- The following lines, with the number of them left. -/
def setPrefixRightLoop (ilinePrefix : Nat) : Nat → Nat → Nat → List LINEINFO →
    Option (List LINEINFO)
  | 0, _, _, rglineinfo => some rglineinfo
  | k + 1, iline, cbCommonMin, rglineinfo => do
    let cbCommonPrev ← getCommonPrev rglineinfo (base + iline)
    let cbCommonMin :=
      if iline = ilinePrefix + 1 then cbCommonPrev
      else if cbCommonMin > cbCommonPrev then cbCommonPrev else cbCommonMin
    let rglineinfo ← setLine rglineinfo (base + iline) fun lineinfo =>
      { lineinfo with cbPrefix := cbCommonMin + cbPrefixOverhead }
    setPrefixRightLoop ilinePrefix k (iline + 1) cbCommonMin rglineinfo

/-- `BTISetPrefix`. -/
def btiSetPrefix (rglineinfo : List LINEINFO) (clines : Nat) (prefixinfo : PREFIXINFO) :
    Option (List LINEINFO) := do
  let rglineinfo ← clearPrefixLoop base clines 0 rglineinfo
  match prefixinfo.ilinePrefix with
  | none => some rglineinfo
  | some ilinePrefix =>
    let line ← getLine rglineinfo (base + ilinePrefix)
    let rglineinfo ← setLine rglineinfo (base + ilinePrefix) fun lineinfo =>
      { lineinfo with cbPrefix := lineinfo.kdf.key.cb }
    let rglineinfo ← setPrefixLeftLoop base (ilinePrefix - prefixinfo.ilineSegBegin) ilinePrefix
      line.cbCommonPrev rglineinfo
    setPrefixRightLoop base ilinePrefix (prefixinfo.ilineSegEnd - ilinePrefix) (ilinePrefix + 1)
      line.cbCommonPrev rglineinfo

end

/-- `CbNDNodeSizeTotal`. -/
def cbNDNodeSizeTotal (kdf : KEYDATA) : Nat := kdf.key.cb + kdf.data.cb + cbNDNullKeyData

/-- `CbNDNodeSizeCompressed` of the node that leaves the bytes `cbPrefix` of its key to the page. -/
def LINEINFO.cbNDNodeSizeCompressed (lineinfo : LINEINFO) : Nat :=
  (lineinfo.kdf.key.cb - lineinfo.cbPrefix) + lineinfo.kdf.data.cb + cbNDNullKeyData +
    if lineinfo.cbPrefix > 0 then cbPrefixOverhead else 0

/-! ## The keys of the lines -/

section
variable (m : Mem) (rglineinfo : List LINEINFO) (base clines : Nat)

/-- The key of a line. -/
def lineKey (iline : Nat) : List Byte :=
  (getLine rglineinfo iline).elim [] fun lineinfo => lineinfo.kdf.key.bytes m

/-- What `BTIRecalcWeightsLE` sets between the first line and the last. -/
def Weighed : Prop :=
  ∀ iline, iline + 1 < clines → ∀ prev line, getLine rglineinfo (base + iline) = some prev →
    getLine rglineinfo (base + (iline + 1)) = some line →
      line.cbCommonPrev = cbCommonKey m line.kdf.key prev.kdf.key - cbPrefixOverhead

/-- No key is below the one before. -/
def InKeyOrder : Prop :=
  ∀ iline, iline + 1 < clines → ∀ prev line, getLine rglineinfo (base + iline) = some prev →
    getLine rglineinfo (base + (iline + 1)) = some line → cmpKey m prev.kdf.key line.kdf.key ≤ 0

/-- What the other nodes leave to the key of a line, less their prefix counts, and less the one of
the line itself. -/
def lineSavings (iline : Nat) : Int :=
  (∑ j ∈ Finset.range clines,
    if j = iline then 0
    else commonLen (lineKey m rglineinfo (base + iline))
      (lineKey m rglineinfo (base + j)) - cbPrefixOverhead : Nat) -
      cbPrefixOverhead

/-- The bytes of the plain nodes. -/
def cbPlain : Nat :=
  ∑ iline ∈ Finset.range clines,
    (getLine rglineinfo (base + iline)).elim 0 fun lineinfo => cbNDNodeSizeTotal lineinfo.kdf

/-- The bytes of the nodes with their prefixes left to the page, and of the prefix key. -/
def cbWithPrefix (prefixinfo : PREFIXINFO) : Nat :=
  ∑ iline ∈ Finset.range clines,
    ((getLine rglineinfo (base + iline)).elim 0 LINEINFO.cbNDNodeSizeCompressed) +
  prefixinfo.ilinePrefix.elim 0 fun ilinePrefix =>
    (getLine rglineinfo (base + ilinePrefix)).elim 0 fun lineinfo => lineinfo.kdf.key.cb

end

section
variable {m : Mem} {rglineinfo : List LINEINFO} {base n : Nat}

/-- The numbers of the lines from `base` on. -/
def heights (rglineinfo : List LINEINFO) (base l : Nat) : Nat :=
  (getCommonPrev rglineinfo (base + l)).getD 0

/-- A line within the list can be read. -/
theorem getLine_of_lt {iline : Nat} (h : iline < rglineinfo.length) :
    ∃ line, getLine rglineinfo iline = some line :=
  ⟨rglineinfo[iline], List.getElem?_eq_getElem h⟩

/-- What the lines share can be read, and are the heights. -/
theorem getCommonPrev_heights (hlen : base + n < rglineinfo.length) {l : Nat} (hl : l ≤ n) :
    getCommonPrev rglineinfo (base + l) = some (heights rglineinfo base l) := by
  obtain ⟨line, hline⟩ := getLine_of_lt (show base + l < rglineinfo.length by omega)
  unfold heights getCommonPrev
  rw [hline]
  rfl

/-- The key of a line that can be read. -/
theorem lineKey_of_getLine {iline : Nat} {line : LINEINFO}
    (h : getLine rglineinfo iline = some line) :
    lineKey m rglineinfo iline = line.kdf.key.bytes m := by
  unfold lineKey
  rw [h]
  rfl

/-- A height is what neighbouring keys share, beyond the overhead. -/
theorem Weighed.heights_succ (hlen : base + n < rglineinfo.length) (h : Weighed m rglineinfo base n)
    {i : Nat}
    (hi : i + 1 < n) :
    heights rglineinfo base (i + 1) =
      commonLen (lineKey m rglineinfo (base + i))
        (lineKey m rglineinfo (base + (i + 1))) - cbPrefixOverhead := by
  obtain ⟨prev, hprev⟩ := getLine_of_lt (show base + i < rglineinfo.length by omega)
  obtain ⟨line, hline⟩ := getLine_of_lt (show base + (i + 1) < rglineinfo.length by omega)
  rw [lineKey_of_getLine hprev, lineKey_of_getLine hline, commonLen_comm, ← cbCommonKey_eq,
    ← h i hi prev line hprev hline]
  unfold heights getCommonPrev
  rw [hline]
  rfl

/-- Neighbouring keys are in order. -/
theorem InKeyOrder.lexCmp_succ (hlen : base + n < rglineinfo.length)
    (h : InKeyOrder m rglineinfo base n) {i : Nat}
    (hi : i + 1 < n) :
    lexCmp (fun b : Byte => (b.toNat : Int)) (lineKey m rglineinfo (base + i))
      (lineKey m rglineinfo (base + (i + 1))) ≤ 0 := by
  obtain ⟨prev, hprev⟩ := getLine_of_lt (show base + i < rglineinfo.length by omega)
  obtain ⟨line, hline⟩ := getLine_of_lt (show base + (i + 1) < rglineinfo.length by omega)
  have hle := h i hi prev line hprev hline
  rw [cmpKey_eq] at hle
  rw [lineKey_of_getLine hprev, lineKey_of_getLine hline]
  exact hle

/-- Keys are in order. -/
theorem InKeyOrder.lexCmp_le (hlen : base + n < rglineinfo.length)
    (h : InKeyOrder m rglineinfo base n) {i j : Nat}
    (hij : i ≤ j) (hj : j < n) :
    lexCmp (fun b : Byte => (b.toNat : Int)) (lineKey m rglineinfo (base + i))
      (lineKey m rglineinfo (base + j)) ≤
      0 := by
  induction j with
  | zero =>
    obtain rfl : i = 0 := by omega
    rw [lexCmp_self]
  | succ j ih =>
    rcases Nat.lt_or_eq_of_le hij with hlt | rfl
    · exact lexCmp_le_trans toNat_injective (ih (by omega) (by omega)) (h.lexCmp_succ hlen hj)
    · rw [lexCmp_self]

/-- The height between two lines is what their keys have in common, less a prefix count. -/
theorem between_heights (hlen : base + n < rglineinfo.length)
    (hweighed : Weighed m rglineinfo base n)
    (hkeys : InKeyOrder m rglineinfo base n) {i j : Nat} (hij : i < j) (hj : j < n) :
    between (heights rglineinfo base) i j =
      commonLen (lineKey m rglineinfo (base + i))
        (lineKey m rglineinfo (base + j)) - cbPrefixOverhead := by
  induction j with
  | zero => omega
  | succ j ih =>
    rcases Nat.lt_or_ge i j with hlt | hge
    · rw [between_next hlt, ih hlt (by omega), hweighed.heights_succ hlen hj,
        commonLen_eq_min toNat_injective (hkeys.lexCmp_le hlen hlt.le (by omega))
        (hkeys.lexCmp_succ hlen hj)]
      omega
    · obtain rfl : i = j := by omega
      rw [between_succ, hweighed.heights_succ hlen hj]

/-- The lowest height between two lines is what their keys share, beyond the overhead. -/
theorem between_heights_ne (hlen : base + n < rglineinfo.length)
    (hweighed : Weighed m rglineinfo base n)
    (hkeys : InKeyOrder m rglineinfo base n) {i j : Nat} (hi : i < n) (hj : j < n) (hij : i ≠ j) :
    between (heights rglineinfo base) i j =
      commonLen (lineKey m rglineinfo (base + i))
        (lineKey m rglineinfo (base + j)) - cbPrefixOverhead := by
  rcases Nat.lt_or_gt_of_ne hij with hlt | hgt
  · exact between_heights hlen hweighed hkeys hlt hj
  · rw [between_comm, commonLen_comm]
    exact between_heights hlen hweighed hkeys hgt hi

/-- What a line saves is the sum of its heights, less the overhead. -/
theorem lineSavings_eq (hlen : base + n < rglineinfo.length)
    (hweighed : Weighed m rglineinfo base n)
    (hkeys : InKeyOrder m rglineinfo base n) {i : Nat} (hi : i < n) :
    lineSavings m rglineinfo base n i =
      (Valley.sum (heights rglineinfo base) n i : Int) - cbPrefixOverhead := by
  unfold lineSavings Valley.sum
  congr 2
  refine Finset.sum_congr rfl fun j hj => ?_
  by_cases hij : j = i
  · rw [if_pos hij, hij, between_self]
  · rw [if_neg hij, between_heights_ne hlen hweighed hkeys hi (Finset.mem_range.1 hj) (Ne.symm hij)]

end

/-! ## The prefixes that are set -/

section
variable {rglineinfo : List LINEINFO} {base n : Nat} {c : Nat → Nat} {pre : Nat → Option Nat}

/-- The array with the prefixes that `pre` gives. -/
def withPrefix (rglineinfo : List LINEINFO) (pre : Nat → Option Nat) : List LINEINFO :=
  rglineinfo.mapIdx fun i lineinfo => { lineinfo with cbPrefix := (pre i).getD lineinfo.cbPrefix }

/-- Prefixes add no lines. -/
@[simp] theorem length_withPrefix : (withPrefix rglineinfo pre).length = rglineinfo.length :=
  List.length_mapIdx

/-- A line with its prefix. -/
theorem getLine_withPrefix (iline : Nat) :
    getLine (withPrefix rglineinfo pre) iline = (getLine rglineinfo iline).map fun lineinfo =>
      { lineinfo with cbPrefix := (pre iline).getD lineinfo.cbPrefix } := List.getElem?_mapIdx

/-- Prefixes leave what the lines share. -/
theorem getCommonPrev_withPrefix (iline : Nat) :
    getCommonPrev (withPrefix rglineinfo pre) iline = getCommonPrev rglineinfo iline := by
  unfold getCommonPrev
  rw [getLine_withPrefix]
  cases getLine rglineinfo iline <;> rfl

/-- No prefixes change nothing. -/
theorem withPrefix_none : withPrefix rglineinfo (fun _ => none) = rglineinfo := by
  refine List.ext_getElem? fun i => ?_
  have h := @getLine_withPrefix rglineinfo (fun _ => none) i
  unfold getLine at h
  rw [h]
  cases rglineinfo[i]? <;> rfl

/-- One more prefix. -/
theorem setLine_withPrefix {iline : Nat} (h : iline < rglineinfo.length) (cb : Nat) :
    setLine (withPrefix rglineinfo pre) iline (fun lineinfo => { lineinfo with cbPrefix := cb }) =
      some (withPrefix rglineinfo (Function.update pre iline (some cb))) := by
  rw [setLine_eq (by rwa [length_withPrefix])]
  congr 1
  refine List.ext_getElem? fun j => ?_
  unfold withPrefix
  rw [List.getElem?_modify, List.getElem?_mapIdx, List.getElem?_mapIdx]
  by_cases hj : iline = j
  · subst hj
    cases rglineinfo[iline]? <;> simp
  · cases rglineinfo[j]? <;> simp [hj, Function.update_of_ne (Ne.symm hj)]

/-- A change is decided by what it makes of the line. -/
theorem setLine_congr {iline : Nat} {line : LINEINFO} {f g : LINEINFO → LINEINFO}
    (h : getLine rglineinfo iline = some line) (hfg : f line = g line) :
    setLine rglineinfo iline f = setLine rglineinfo iline g := by
  have hlt : iline < rglineinfo.length := (List.getElem?_eq_some_iff.1 h).1
  rw [setLine_eq hlt, setLine_eq hlt]
  congr 1
  refine List.ext_getElem? fun j => ?_
  rw [List.getElem?_modify, List.getElem?_modify]
  by_cases hj : iline = j
  · subst hj
    unfold getLine at h
    simp [h, hfg]
  · simp [hj]

/-- The prefix of the whole key, as one more prefix. -/
theorem setLine_withPrefix_key {iline : Nat} {line : LINEINFO}
    (h : getLine rglineinfo iline = some line) :
    setLine (withPrefix rglineinfo pre) iline
      (fun lineinfo => { lineinfo with cbPrefix := lineinfo.kdf.key.cb }) =
      some (withPrefix rglineinfo (Function.update pre iline (some line.kdf.key.cb))) := by
  have hget : getLine (withPrefix rglineinfo pre) iline =
      some { line with cbPrefix := (pre iline).getD line.cbPrefix } := by
    rw [getLine_withPrefix, h]
    rfl
  rw [setLine_congr (g := fun lineinfo => { lineinfo with cbPrefix := line.kdf.key.cb }) hget rfl]
  exact setLine_withPrefix (List.getElem?_eq_some_iff.1 h).1 _

/-- The loop clears the prefixes of its lines. -/
theorem clearPrefixLoop_eq {k i : Nat} (h : base + i + k ≤ rglineinfo.length) :
    clearPrefixLoop base k i (withPrefix rglineinfo pre) =
      some (withPrefix rglineinfo fun j => if base + i ≤ j ∧ j < base + i + k then some 0
        else pre j) := by
  induction k generalizing i pre with
  | zero =>
    rw [clearPrefixLoop]
    congr 2
    funext j
    rw [if_neg (by omega)]
  | succ k ih =>
    rw [clearPrefixLoop, setLine_withPrefix (by omega), Option.bind_eq_bind, Option.bind_some,
      ih (by omega)]
    congr 2
    funext j
    by_cases hj : j = base + i
    · rw [if_neg (by omega), if_pos (by omega), hj, Function.update_self]
    · rw [Function.update_of_ne hj]
      by_cases hin : base + (i + 1) ≤ j ∧ j < base + (i + 1) + k
      · rw [if_pos hin, if_pos (by omega)]
      · rw [if_neg hin, if_neg (by omega)]

/-- The loop to the left sets what the lines share with the prefix line. -/
theorem setPrefixLeftLoop_eq (hlen : base + n ≤ rglineinfo.length)
    (hread : ∀ l < n, getCommonPrev rglineinfo (base + l) = some (c l)) {p : Nat} (hp : p < n)
    {k i : Nat}
    (hk : k ≤ i) (hi : i ≤ p) (cbCommonMin : Nat) (hmin : ∀ j, i = j + 1 →
      min cbCommonMin (c i) = between c j p) :
    setPrefixLeftLoop base k i cbCommonMin (withPrefix rglineinfo pre) =
      some (withPrefix rglineinfo fun j =>
        if base + (i - k) ≤ j ∧ j < base + i then some (between c p (j - base) + cbPrefixOverhead)
        else pre j) := by
  induction k generalizing i cbCommonMin pre with
  | zero =>
    rw [setPrefixLeftLoop]
    congr 2
    funext j
    rw [if_neg (by omega)]
  | succ k ih =>
    obtain ⟨i, rfl⟩ : ∃ j, i = j + 1 := ⟨i - 1, by omega⟩
    have hnext : (if cbCommonMin > c (i + 1) then c (i + 1) else cbCommonMin) = between c i p := by
      rw [← hmin i rfl]
      split <;> omega
    rw [setPrefixLeftLoop, getCommonPrev_withPrefix, hread (i + 1) (by omega)]
    simp only [Option.bind_eq_bind, Option.bind_some, Nat.add_sub_cancel, hnext]
    rw [setLine_withPrefix (by omega), Option.bind_some, ih (by omega) (by omega) (between c i p)
      (fun j hj => by
      subst hj
      exact (between_pred (by omega)).symm)]
    congr 2
    funext j
    by_cases hj : j = base + i
    · rw [if_neg (by omega), if_pos (by omega), hj, Function.update_self, Nat.add_sub_cancel_left,
        between_comm]
    · rw [Function.update_of_ne hj]
      by_cases hin : base + (i - k) ≤ j ∧ j < base + i
      · rw [if_pos hin, if_pos (by omega)]
      · rw [if_neg hin, if_neg (by omega)]

/-- The loop to the right sets what the lines share with the prefix line. -/
theorem setPrefixRightLoop_eq (hlen : base + n ≤ rglineinfo.length)
    (hread : ∀ l < n, getCommonPrev rglineinfo (base + l) = some (c l)) {p k i : Nat} (hi : p < i)
    (hk : i + k ≤ n)
    (cbCommonMin : Nat) (hmin : i ≠ p + 1 → min cbCommonMin (c i) = between c p i) :
    setPrefixRightLoop base p k i cbCommonMin (withPrefix rglineinfo pre) =
      some (withPrefix rglineinfo fun j =>
        if base + i ≤ j ∧ j < base + i + k then some (between c p (j - base) + cbPrefixOverhead)
        else pre j) := by
  induction k generalizing i cbCommonMin pre with
  | zero =>
    rw [setPrefixRightLoop]
    congr 2
    funext j
    rw [if_neg (by omega)]
  | succ k ih =>
    have hnext : (if i = p + 1 then c i else if cbCommonMin > c i then c i else cbCommonMin) =
      between c p i := by
      by_cases hip : i = p + 1
      · rw [if_pos hip, hip, between_succ]
      · rw [if_neg hip, ← hmin hip]
        split <;> omega
    rw [setPrefixRightLoop, getCommonPrev_withPrefix, hread i (by omega)]
    simp only [Option.bind_eq_bind, Option.bind_some, hnext]
    rw [setLine_withPrefix (by omega), Option.bind_some,
      ih (by omega) (by omega) (between c p i) (fun _ => (between_next hi).symm)]
    congr 2
    funext j
    by_cases hj : j = base + i
    · rw [if_neg (by omega), if_pos (by omega), hj, Function.update_self, Nat.add_sub_cancel_left]
    · rw [Function.update_of_ne hj]
      by_cases hin : base + (i + 1) ≤ j ∧ j < base + (i + 1) + k
      · rw [if_pos hin, if_pos (by omega)]
      · rw [if_neg hin, if_neg (by omega)]

/-- The prefix of each line: all of the prefix key for its own line, and for the other lines of the
segment what they have in common with it. -/
def prefixOf (c : Nat → Nat) (base n p b e cbKey j : Nat) : Option Nat :=
  if j = base + p then some cbKey
  else if base + b ≤ j ∧ j ≤ base + e then some (between c p (j - base) + cbPrefixOverhead)
  else if base ≤ j ∧ j < base + n then some 0 else none

/-- All prefixes are cleared. -/
theorem clearPrefixLoop_all (hlen : base + n < rglineinfo.length) :
    clearPrefixLoop base n 0 rglineinfo =
      some (withPrefix rglineinfo fun j => if base ≤ j ∧ j < base + n then some 0 else none) := by
  have h : clearPrefixLoop base n 0 (withPrefix rglineinfo fun _ => none) =
      some (withPrefix rglineinfo fun j => if base + 0 ≤ j ∧ j < base + 0 + n then some 0
        else none) :=
    clearPrefixLoop_eq (by omega)
  rwa [withPrefix_none] at h

/-- Without a prefix line there are no prefixes. -/
theorem btiSetPrefix_null (hlen : base + n < rglineinfo.length) :
    btiSetPrefix base rglineinfo n .nullify =
      some (withPrefix rglineinfo fun j => if base ≤ j ∧ j < base + n then some 0 else none) := by
  rw [btiSetPrefix, clearPrefixLoop_all hlen]
  rfl

/-- With a prefix line, the lines of its segment have what they share with it. -/
theorem btiSetPrefix_found (hlen : base + n < rglineinfo.length)
    (hread : ∀ l < n, getCommonPrev rglineinfo (base + l) = some (c l)) {p b e : Nat}
    (hsegment : Segment c n p b e)
    (cbSavings : Int) {line : LINEINFO} (hline : getLine rglineinfo (base + p) = some line) :
    btiSetPrefix base rglineinfo n ⟨some p, cbSavings, b, e⟩ =
      some (withPrefix rglineinfo (prefixOf c base n p b e line.kdf.key.cb)) := by
  have hb := hsegment.begin_le
  have he := hsegment.le_end
  have hn := hsegment.end_lt
  have hcommon : line.cbCommonPrev = c p := by
    have hp := hread p (by omega)
    unfold getCommonPrev at hp
    rwa [hline, Option.map_some, Option.some.injEq] at hp
  have hmin : ∀ j, p = j + 1 → min line.cbCommonPrev (c p) = between c j p := fun j hj => by
    rw [hcommon, min_self, hj, between_succ]
  rw [btiSetPrefix, clearPrefixLoop_all hlen]
  simp only [Option.bind_eq_bind, Option.bind_some, getLine_withPrefix, hline, Option.map_some]
  rw [setLine_withPrefix_key hline, Option.bind_some,
    setPrefixLeftLoop_eq (by omega) hread (by omega) (by omega) le_rfl line.cbCommonPrev hmin,
    Option.bind_some,
    setPrefixRightLoop_eq (by omega) hread (Nat.lt_succ_self p) (by omega) line.cbCommonPrev
      (fun hne => absurd rfl hne)]
  congr 2
  funext j
  unfold prefixOf
  by_cases hj : j = base + p
  · rw [if_neg (by omega), if_neg (by omega), if_pos hj, hj, Function.update_self]
  rw [if_neg hj, Function.update_of_ne hj]
  -- the right side of the segment, the left one, and the other lines
  by_cases hright : base + (p + 1) ≤ j ∧ j < base + (p + 1) + (e - p)
  · rw [if_pos hright, if_pos (by omega)]
  rw [if_neg hright]
  by_cases hleft : base + (p - (p - b)) ≤ j ∧ j < base + p
  · rw [if_pos hleft, if_pos (by omega)]
  rw [if_neg hleft, if_neg (show ¬(base + b ≤ j ∧ j ≤ base + e) by omega)]

/-! ## The choice and what it saves -/

variable {m : Mem}

/-- Lines of one segment share their lowest height and the overhead. -/
theorem commonLen_of_between (hlen : base + n < rglineinfo.length)
    (hweighed : Weighed m rglineinfo base n)
    (hkeys : InKeyOrder m rglineinfo base n) {i j : Nat} (hi : i < n) (hj : j < n)
    (hpos : 0 < between (heights rglineinfo base) i j) :
    commonLen (lineKey m rglineinfo (base + i)) (lineKey m rglineinfo (base + j)) =
      between (heights rglineinfo base) i j + cbPrefixOverhead := by
  have hij : i ≠ j := fun he => by
    rw [he, between_self] at hpos
    omega
  rw [between_heights_ne hlen hweighed hkeys hi hj hij] at hpos ⊢
  omega

section
variable {p b e : Nat} {line : LINEINFO}

/-- The prefix of a line of the segment is what its key has in common with the prefix key. -/
theorem prefixOf_segment (hlen : base + n < rglineinfo.length)
    (hweighed : Weighed m rglineinfo base n)
    (hkeys : InKeyOrder m rglineinfo base n) (hsegment : Segment (heights rglineinfo base) n p b e)
    (hline : getLine rglineinfo (base + p) = some line) {i : Nat} (hb : b ≤ i) (he : i ≤ e) :
    prefixOf (heights rglineinfo base) base n p b e line.kdf.key.cb (base + i) =
      some (commonLen (lineKey m rglineinfo (base + i)) (lineKey m rglineinfo (base + p))) := by
  have hp : p < n := hsegment.le_end.trans_lt hsegment.end_lt
  have hi : i < n := he.trans_lt hsegment.end_lt
  unfold prefixOf
  rcases (hsegment.mem_iff hi).1 ⟨hb, he⟩ with rfl | hpos
  · rw [if_pos rfl, commonLen_self, lineKey_of_getLine hline, KEY.length_bytes]
  · have hip : i ≠ p := fun heq => by
      rw [heq, between_self] at hpos
      omega
    rw [if_neg (by omega), if_pos (by omega), Nat.add_sub_cancel_left, commonLen_comm,
      commonLen_of_between hlen hweighed hkeys hp hi hpos]

/-- A node takes less by what the prefix key leaves to it; the node of the prefix key leaves all of
its key. -/
theorem nodeSize_prefixOf (hlen : base + n < rglineinfo.length)
    (hweighed : Weighed m rglineinfo base n)
    (hkeys : InKeyOrder m rglineinfo base n) (hsegment : Segment (heights rglineinfo base) n p b e)
    (hpos : 0 < Valley.sum (heights rglineinfo base) n p)
      (hline : getLine rglineinfo (base + p) = some line) {i : Nat}
    (hi : i < n) {lineinfo : LINEINFO} (hget : getLine rglineinfo (base + i) = some lineinfo) :
    LINEINFO.cbNDNodeSizeCompressed { lineinfo with
        cbPrefix :=
          (prefixOf (heights rglineinfo base) base n p b e line.kdf.key.cb (base + i)).getD
          lineinfo.cbPrefix } + between (heights rglineinfo base) p i +
          (if i = p then line.kdf.key.cb else 0) =
      cbNDNodeSizeTotal lineinfo.kdf + if i = p then cbPrefixOverhead else 0 := by
  have hp : p < n := hsegment.le_end.trans_lt hsegment.end_lt
  unfold LINEINFO.cbNDNodeSizeCompressed cbNDNodeSizeTotal
  by_cases hip : i = p
  · -- the key of the prefix line is as long as what it has in common with another key
    subst hip
    obtain rfl : line = lineinfo := by rw [hline] at hget; exact Option.some.inj hget
    obtain ⟨j, hj, hbetween⟩ := exists_pos_between hpos
    have hcommon := commonLen_of_between hlen hweighed hkeys hp hj hbetween
    have hle := commonLen_le_left (lineKey m rglineinfo (base + i))
      (lineKey m rglineinfo (base + j))
    rw [lineKey_of_getLine hline, KEY.length_bytes, ← lineKey_of_getLine hline, hcommon] at hle
    rw [prefixOf, if_pos rfl, if_pos rfl, if_pos rfl, between_self]
    dsimp only [Option.getD_some]
    rw [if_pos (by omega)]
    omega
  rw [if_neg hip, if_neg hip]
  by_cases hin : b ≤ i ∧ i ≤ e
  · have hbetween : 0 < between (heights rglineinfo base) p i :=
      ((hsegment.mem_iff hi).1 hin).resolve_left hip
    have hcommon := commonLen_of_between hlen hweighed hkeys hp hi hbetween
    have hle := commonLen_le_left (lineKey m rglineinfo (base + i))
      (lineKey m rglineinfo (base + p))
    rw [lineKey_of_getLine hget, KEY.length_bytes, ← lineKey_of_getLine hget, commonLen_comm,
      hcommon] at hle
    rw [prefixOf, if_neg (by omega), if_pos (by omega), Nat.add_sub_cancel_left]
    dsimp only [Option.getD_some]
    rw [if_pos (by omega)]
    have hover : cbPrefixOverhead = 2 := rfl
    omega
  · have hzero : between (heights rglineinfo base) p i = 0 := by
      by_contra hne
      exact hin ((hsegment.mem_iff hi).2 (.inr (Nat.pos_of_ne_zero hne)))
    rw [hzero, prefixOf, if_neg (by omega), if_neg (by omega), if_pos (by omega)]
    rfl

/-- The size with the prefixes is the plain one less what the prefix line saves. -/
theorem cbWithPrefix_found (hlen : base + n < rglineinfo.length)
    (hweighed : Weighed m rglineinfo base n)
    (hkeys : InKeyOrder m rglineinfo base n) (hsegment : Segment (heights rglineinfo base) n p b e)
    (hpos : 0 < Valley.sum (heights rglineinfo base) n p)
      (hline : getLine rglineinfo (base + p) = some line)
    (cbSavings : Int) :
    cbWithPrefix (withPrefix rglineinfo
        (prefixOf (heights rglineinfo base) base n p b e line.kdf.key.cb)) base n
        ⟨some p, cbSavings, b, e⟩ + Valley.sum (heights rglineinfo base) n p =
      cbPlain rglineinfo base n + cbPrefixOverhead := by
  have hp : p < n := hsegment.le_end.trans_lt hsegment.end_lt
  have hmem : p ∈ Finset.range n := Finset.mem_range.2 hp
  have hsum : ∀ i ∈ Finset.range n,
      ((getLine (withPrefix rglineinfo
        (prefixOf (heights rglineinfo base) base n p b e line.kdf.key.cb))
        (base + i)).elim 0 LINEINFO.cbNDNodeSizeCompressed + between (heights rglineinfo base) p i +
          if i = p then line.kdf.key.cb else 0) =
        ((getLine rglineinfo (base + i)).elim 0 fun lineinfo => cbNDNodeSizeTotal lineinfo.kdf) +
          if i = p then cbPrefixOverhead else 0 := fun i hi => by
    have hi' := Finset.mem_range.1 hi
    obtain ⟨lineinfo, hget⟩ := getLine_of_lt (show base + i < rglineinfo.length by omega)
    rw [getLine_withPrefix, hget, Option.map_some, Option.elim_some, Option.elim_some]
    exact nodeSize_prefixOf hlen hweighed hkeys hsegment hpos hline hi' hget
  have htotal := Finset.sum_congr rfl hsum
  rw [Finset.sum_add_distrib, Finset.sum_add_distrib, Finset.sum_add_distrib, Finset.sum_ite_eq',
    if_pos hmem,
    Finset.sum_ite_eq', if_pos hmem] at htotal
  unfold cbWithPrefix cbPlain Valley.sum
  rw [Option.elim_some, getLine_withPrefix, hline, Option.map_some, Option.elim_some,
    Nat.add_right_comm]
  exact htotal

end

/-- With a best line every node of the segment leaves all it has in common with the prefix key. -/
theorem IsBest.setPrefix (hlen : base + n < rglineinfo.length)
    (hweighed : Weighed m rglineinfo base n)
    (hkeys : InKeyOrder m rglineinfo base n) {prefixinfo : PREFIXINFO}
    (h : IsBest (heights rglineinfo base) n prefixinfo) :
    ∃ rglineinfo', btiSetPrefix base rglineinfo n prefixinfo = some rglineinfo' ∧
      (∀ ilinePrefix, prefixinfo.ilinePrefix = some ilinePrefix →
        ∀ iline, prefixinfo.ilineSegBegin ≤ iline →
        iline ≤ prefixinfo.ilineSegEnd →
          (getLine rglineinfo' (base + iline)).map LINEINFO.cbPrefix =
            some (commonLen (lineKey m rglineinfo (base + iline))
            (lineKey m rglineinfo (base + ilinePrefix)))) ∧
      (cbWithPrefix rglineinfo' base n prefixinfo : Int) =
        cbPlain rglineinfo base n - prefixinfo.cbSavings := by
  cases h with
  | null h =>
    refine ⟨_, btiSetPrefix_null hlen, fun p hp => absurd hp (by simp [PREFIXINFO.nullify]), ?_⟩
    have hsize : cbWithPrefix (withPrefix rglineinfo fun j => if base ≤ j ∧ j < base + n then some 0
        else none)
        base n .nullify = cbPlain rglineinfo base n := by
      unfold cbWithPrefix cbPlain PREFIXINFO.nullify
      rw [Option.elim_none, Nat.add_zero]
      refine Finset.sum_congr rfl fun i hi => ?_
      have hi' := Finset.mem_range.1 hi
      rw [getLine_withPrefix, if_pos (by omega)]
      cases getLine rglineinfo (base + i) <;> rfl
    rw [hsize, PREFIXINFO.cbSavings_nullify, sub_zero]
  | @found p b e hbest hpos =>
    have hp : p < n := hbest.segment.le_end.trans_lt hbest.segment.end_lt
    obtain ⟨line, hline⟩ := getLine_of_lt (show base + p < rglineinfo.length by omega)
    refine ⟨_, btiSetPrefix_found hlen (fun l hl => getCommonPrev_heights hlen hl.le) hbest.segment
      _ hline,
      fun q hq i hb he => ?_, ?_⟩
    · obtain rfl : p = q := Option.some.inj hq
      have hen := hbest.segment.end_lt
      dsimp only at hb he
      obtain ⟨lineinfo, hget⟩ := getLine_of_lt (show base + i < rglineinfo.length by omega)
      rw [getLine_withPrefix, hget, prefixOf_segment hlen hweighed hkeys hbest.segment hline hb he]
      rfl
    · have hsize := cbWithPrefix_found hlen hweighed hkeys hbest.segment (by omega) hline
        ((Valley.sum (heights rglineinfo base) n p : Int) - cbPrefixOverhead)
      dsimp only at hsize ⊢
      omega

end

/-! ## The weights -/

section
variable {m : Mem} {rglineinfo : List LINEINFO}

/-- A line with its weights: the sizes up to it, and what its key has in common with the key
before. -/
def weigh (m : Mem) (rglineinfo : List LINEINFO) (iline : Nat) (lineinfo : LINEINFO) : LINEINFO :=
  { lineinfo with
    cbSizeLE := ∑ j ∈ Finset.range (iline + 1), (getLine rglineinfo j).elim 0 LINEINFO.cbSize
    cbSizeMaxLE := ∑ j ∈ Finset.range (iline + 1), (getLine rglineinfo j).elim 0 LINEINFO.cbSizeMax
    cbCommonPrev :=
      if iline = 0 then 0
      else (getLine rglineinfo (iline - 1)).elim 0 fun prev =>
        cbCommonKey m lineinfo.kdf.key prev.kdf.key - cbPrefixOverhead
    cbPrefix := if iline = 0 then 0 else lineinfo.cbPrefix }

/-- The array with the weights of the lines before line `k`. -/
def weighed (m : Mem) (rglineinfo : List LINEINFO) (k : Nat) : List LINEINFO :=
  rglineinfo.mapIdx fun i lineinfo => if i < k then weigh m rglineinfo i lineinfo else lineinfo

/-- Weighing adds no lines. -/
theorem length_weighed (k : Nat) : (weighed m rglineinfo k).length = rglineinfo.length :=
  List.length_mapIdx

/-- A line after `k` of them are weighed. -/
theorem getLine_weighed (k iline : Nat) :
    getLine (weighed m rglineinfo k) iline = (getLine rglineinfo iline).map fun lineinfo =>
      if iline < k then weigh m rglineinfo iline lineinfo else lineinfo := List.getElem?_mapIdx

/-- The weights of a line from those of the line before. -/
theorem weigh_succ {i : Nat} {prev line : LINEINFO} (hprev : getLine rglineinfo i = some prev)
    (hline : getLine rglineinfo (i + 1) = some line) :
    weigh m rglineinfo (i + 1) line =
      { line with
        cbSizeLE := (weigh m rglineinfo i prev).cbSizeLE + line.cbSize
        cbSizeMaxLE := (weigh m rglineinfo i prev).cbSizeMaxLE + line.cbSizeMax
        cbCommonPrev :=
          if cbCommonKey m line.kdf.key prev.kdf.key > cbPrefixOverhead then
            cbCommonKey m line.kdf.key prev.kdf.key - cbPrefixOverhead
          else 0 } := by
  have hcommon : ∀ cb : Nat, cb - cbPrefixOverhead =
      if cb > cbPrefixOverhead then cb - cbPrefixOverhead else 0 :=
    fun cb => by split <;> omega
  simp only [weigh, Nat.succ_ne_zero, if_false, Nat.add_sub_cancel, hprev, Option.elim_some,
    ← hcommon]
  rw [Finset.sum_range_succ _ (i + 1), Finset.sum_range_succ _ (i + 1), hline, Option.elim_some,
    Option.elim_some]

/-- The loop weighs one line after the other. -/
theorem recalcWeightsLoop_eq {k i : Nat} (hi : 1 ≤ i) (hlen : i + k ≤ rglineinfo.length) :
    recalcWeightsLoop m k i (weighed m rglineinfo i) = some (weighed m rglineinfo (i + k)) := by
  induction k generalizing i with
  | zero => rfl
  | succ k ih =>
    obtain ⟨i, rfl⟩ : ∃ j, i = j + 1 := ⟨i - 1, by omega⟩
    obtain ⟨prev, hprev⟩ := getLine_of_lt (show i < rglineinfo.length by omega)
    obtain ⟨line, hline⟩ := getLine_of_lt (show i + 1 < rglineinfo.length by omega)
    have hstep : ((weighed m rglineinfo (i + 1)).modify (i + 1) fun lineinfo =>
          { lineinfo with
            cbSizeLE := (weigh m rglineinfo i prev).cbSizeLE + lineinfo.cbSize
            cbSizeMaxLE := (weigh m rglineinfo i prev).cbSizeMaxLE + lineinfo.cbSizeMax
            cbCommonPrev :=
              if cbCommonKey m line.kdf.key (weigh m rglineinfo i prev).kdf.key > cbPrefixOverhead
                then
                cbCommonKey m line.kdf.key (weigh m rglineinfo i prev).kdf.key - cbPrefixOverhead
              else 0 }).modify 0 (fun lineinfo => { lineinfo with cbPrefix := 0 }) =
        weighed m rglineinfo (i + 1 + 1) := by
      refine List.ext_getElem? fun j => ?_
      have hget := @getLine_weighed m rglineinfo (i + 1) j
      have hget' := @getLine_weighed m rglineinfo (i + 1 + 1) j
      unfold getLine at hget hget'
      rw [List.getElem?_modify, List.getElem?_modify, hget, hget']
      by_cases hj : j = i + 1
      · subst hj
        unfold getLine at hline
        rw [hline, Option.map_some, Option.map_some, if_neg (lt_irrefl _),
          if_pos (Nat.lt_succ_self _),
          weigh_succ hprev hline]
        simp
        rfl
      · cases rglineinfo[j]? with
        | none => rfl
        | some lineinfo =>
          by_cases h0 : j = 0
          · subst h0
            simp [weigh]
          · simp [Ne.symm h0, Ne.symm hj, show j < i + 1 + 1 ↔ j < i + 1 by omega]
    rw [recalcWeightsLoop]
    simp only [getLine_weighed, Nat.add_sub_cancel, hprev, hline, Option.map_some,
      Option.bind_eq_bind,
      Option.bind_some, if_pos (Nat.lt_succ_self i), if_neg (lt_irrefl (i + 1))]
    rw [setLine_eq (by rw [length_weighed]; omega), Option.bind_some,
      setLine_eq (by rw [List.length_modify, length_weighed]; omega), Option.bind_some, hstep,
      ih (by omega) (by omega)]
    congr 2
    omega

/-- `BTIRecalcWeightsLE` sets the weights of the lines and leaves the entries behind them. -/
theorem btiRecalcWeightsLE_eq {clines : Nat} (hclines : 1 ≤ clines)
    (hlen : clines ≤ rglineinfo.length) :
    btiRecalcWeightsLE m rglineinfo clines = some (weighed m rglineinfo clines) := by
  have hfirst : (rglineinfo.modify 0 fun lineinfo =>
      { lineinfo with
        cbSizeLE := lineinfo.cbSize
        cbSizeMaxLE := lineinfo.cbSizeMax
        cbCommonPrev := 0
        cbPrefix := 0 }) = weighed m rglineinfo 1 := by
    refine List.ext_getElem? fun j => ?_
    have hget := @getLine_weighed m rglineinfo 1 j
    unfold getLine at hget
    rw [List.getElem?_modify, hget]
    by_cases h0 : j = 0
    · subst h0
      cases hline : rglineinfo[0]? with
      | none => rfl
      | some lineinfo =>
        have hline' : getLine rglineinfo 0 = some lineinfo := hline
        simp [weigh, hline']
    · cases rglineinfo[j]? <;> simp [Ne.symm h0, h0]
  rw [btiRecalcWeightsLE, setLine_eq (by omega), Option.bind_eq_bind, Option.bind_some, hfirst,
    recalcWeightsLoop_eq le_rfl (by omega)]
  congr 2
  omega

/-- Lines that are weighed are weighed. -/
theorem weighed_weighed {clines : Nat} : Weighed m (weighed m rglineinfo clines) 0 clines := by
  intro i hi prev line hprev hline
  rw [Nat.zero_add, getLine_weighed, Option.map_eq_some_iff] at hprev hline
  obtain ⟨prev, hprev, rfl⟩ := hprev
  obtain ⟨line, hline, rfl⟩ := hline
  rw [if_pos hi, if_pos (by omega)]
  simp [weigh, hprev]

end

/-- The recalculation leaves the lines weighed. -/
theorem btiRecalcWeightsLE_weighed {m : Mem} {rglineinfo rglineinfo' : List LINEINFO} {clines : Nat}
    (hclines : 1 ≤ clines) (hlen : clines ≤ rglineinfo.length)
    (h : btiRecalcWeightsLE m rglineinfo clines = some rglineinfo') :
      Weighed m rglineinfo' 0 clines := by
  rw [btiRecalcWeightsLE_eq hclines hlen, Option.some.injEq] at h
  rw [← h]
  exact weighed_weighed

/-- The search finds the savings and the segment that the exhaustive search finds, with no read
outside the lines and the entry behind them, and keeps the array; it finds nothing exactly if no
line saves anything. With the prefixes set each node of the segment leaves to the prefix key what
the two keys have in common, and the nodes with the prefix key take as many bytes less as
promised. -/
theorem btiSelectPrefix_optimal {m : Mem} {rglineinfo : List LINEINFO} {base clines : Nat}
    (hclines : 1 ≤ clines)
    (hlen : base + clines < rglineinfo.length) (hweighed : Weighed m rglineinfo base clines)
    (hkeys : InKeyOrder m rglineinfo base clines) :
    ∃ prefixinfo prefixinfoT rglineinfo',
      btiSelectPrefix rglineinfo base clines = some (prefixinfo, rglineinfo) ∧
      btiSelectPrefixCheck rglineinfo base clines = some (prefixinfoT, rglineinfo) ∧
      prefixinfo.cbSavings = prefixinfoT.cbSavings ∧
      prefixinfo.ilineSegBegin = prefixinfoT.ilineSegBegin ∧
      prefixinfo.ilineSegEnd = prefixinfoT.ilineSegEnd ∧
      (prefixinfo.fNull = true ↔ prefixinfoT.fNull = true) ∧
      (prefixinfo.fNull = true ↔ ∀ iline < clines, lineSavings m rglineinfo base clines iline ≤ 0) ∧
      btiSetPrefix base rglineinfo clines prefixinfo = some rglineinfo' ∧
      (∀ ilinePrefix, prefixinfo.ilinePrefix = some ilinePrefix →
        ∀ iline, prefixinfo.ilineSegBegin ≤ iline →
        iline ≤ prefixinfo.ilineSegEnd →
          (getLine rglineinfo' (base + iline)).map LINEINFO.cbPrefix =
            some (commonLen (lineKey m rglineinfo (base + iline))
            (lineKey m rglineinfo (base + ilinePrefix)))) ∧
      (cbWithPrefix rglineinfo' base clines prefixinfo : Int) =
        cbPlain rglineinfo base clines - prefixinfo.cbSavings := by
  have hread : ∀ l ≤ clines, getCommonPrev rglineinfo (base + l) =
    some (heights rglineinfo base l) := fun l hl =>
    getCommonPrev_heights hlen hl
  obtain ⟨prefixinfo, hselect, hbest⟩ := btiSelectPrefix_eq hread
  obtain ⟨prefixinfoT, hcheck, hbestT⟩ := btiSelectPrefixCheck_eq hclines fun l hl => hread l hl.le
  obtain ⟨rglineinfo', hset, hprefixes, hsize⟩ := hbest.setPrefix hlen hweighed hkeys
  obtain ⟨hsavings, hbegin, hend, hnull⟩ := hbest.unique hbestT
  have hfNull : prefixinfo.fNull = true ↔ prefixinfoT.fNull = true := by
    unfold PREFIXINFO.fNull
    rw [Option.isNone_iff_eq_none, Option.isNone_iff_eq_none, hnull]
  refine ⟨prefixinfo, prefixinfoT, rglineinfo', hselect, hcheck, hsavings, hbegin, hend, hfNull, ?_,
    hset, hprefixes,
    hsize⟩
  rw [hbest.fNull_iff]
  refine forall_congr' fun i => forall_congr' fun hi => ?_
  rw [lineSavings_eq hlen hweighed hkeys hi]
  omega

/-- Three keys of zeros, of the lengths six, seven and eight. -/
theorem btiSelectPrefix_optimal_zeros :
    ∃ rglineinfo : List LINEINFO, ∃ prefixinfo prefixinfoT rglineinfo',
      btiSelectPrefix rglineinfo 0 3 = some (prefixinfo, rglineinfo) ∧
      btiSelectPrefixCheck rglineinfo 0 3 = some (prefixinfoT, rglineinfo) ∧
      prefixinfo.cbSavings = prefixinfoT.cbSavings ∧
      btiSetPrefix 0 rglineinfo 3 prefixinfo = some rglineinfo' ∧
      (cbWithPrefix rglineinfo' 0 3 prefixinfo : Int) =
        cbPlain rglineinfo 0 3 - prefixinfo.cbSavings := by
  let line (cbKey cbCommonPrev : Nat) : LINEINFO :=
    ⟨0, 0, 0, 0, cbCommonPrev, 0, ⟨⟨.null, ⟨0, cbKey⟩⟩, .null⟩⟩
  have hweighed : Weighed (fun _ => 0) [line 6 9, line 7 4, line 8 5, line 0 7] 0 3 := by
    intro i hi prev cur hprev hcur
    have hlt : i < 2 := by omega
    interval_cases i
    · cases hprev
      cases hcur
      decide
    · cases hprev
      cases hcur
      decide
  have hkeys : InKeyOrder (fun _ => 0) [line 6 9, line 7 4, line 8 5, line 0 7] 0 3 := by
    intro i hi prev cur hprev hcur
    have hlt : i < 2 := by omega
    interval_cases i
    · cases hprev
      cases hcur
      decide
    · cases hprev
      cases hcur
      decide
  obtain ⟨prefixinfo, prefixinfoT, rglineinfo', hselect, hcheck, hsavings, -, -, -, -, hset, -,
    hsize⟩ :=
    @btiSelectPrefix_optimal (fun _ => 0) _ 0 3 (by decide) (by decide) hweighed hkeys
  exact ⟨_, prefixinfo, prefixinfoT, rglineinfo', hselect, hcheck, hsavings, hset, hsize⟩

end Ese.Bt
