import Ese.Bt.EvenSplit

/-!
# The choice of a right split

`BTISelectRightSplit` chooses a split point for a page and the operation that does not fit on it. If
no split point leaves room for the operation, `BTISelectSplitWithOperNone` takes it out of the
lines, and the choice starts again with the nodes that are on the page. These fit on one page with
some prefix key, and a best line of any part of them saves as much as that, so that every split
point leaves room for them, and no second restart comes.
-/

namespace Ese.Bt

open Valley

/-- The page that is split, and what the choice asks of it and of its node at the line of the
operation. -/
structure SPLITPAGE where
  /-- `CbNDPageAvailMostNoInsert`. -/
  cbPageAvail : Nat
  /-- `FBTISplitAppendLeaf`. -/
  fAppendLeaf : Bool
  /-- A leaf page with no page before it. -/
  fFirstLeaf : Bool
  kdfCurr : KEYDATA
  /-- `CbBTIMaxSizeOfNode`. -/
  cbMax : Nat
  deriving DecidableEq, Repr

namespace SPLIT

section
variable (m : Mem) (page : SPLITPAGE) (split : SPLIT)

/-- `FBTIPrependSplit`. -/
def fBTIPrependSplit : Bool :=
  page.fFirstLeaf && split.splitoper = .splitoperInsert && split.ilineOper = 0

/-- The lines beyond `ilineOper` move up, with the number of them left. -/
def moveUpLoop : Nat → Nat → List LINEINFO → Option (List LINEINFO)
  | 0, _, rglineinfo => some rglineinfo
  | k + 1, iLine, rglineinfo => do
    let next ← getLine rglineinfo (iLine + 1)
    let rglineinfo ← setLine rglineinfo iLine fun _ => next
    moveUpLoop k (iLine + 1) rglineinfo

/-- The node of the operation as it is on the page. -/
def lineCurr (lineinfo : LINEINFO) : LINEINFO :=
  { lineinfo with
    kdf := page.kdfCurr
    cbSize := cbNDNodeSizeTotal page.kdfCurr
    cbSizeMax := page.cbMax }

/-- `BTISelectSplitWithOperNone`. -/
def btiSelectSplitWithOperNone : Option SPLIT := do
  let split ←
    (if split.splitoper = .splitoperInsert then
      if split.clines > 0 then
        (moveUpLoop (split.clines - 1 - split.ilineOper) split.ilineOper split.rglineinfo).map
          fun rglineinfo =>
          { split with rglineinfo, clines := split.clines - 1 }
      else some split
    else
      (setLine split.rglineinfo split.ilineOper (lineCurr page)).map fun rglineinfo =>
        { split with rglineinfo })
  let rglineinfo ← btiRecalcWeightsLE m split.rglineinfo split.clines
  some { split with
    rglineinfo
    ilineOper := 0
    splitoper := .splitoperNone
    prefixinfoNew := .nullify
    prefixinfoSplit := .nullify }

/-- `BTISplitSetPrefixes`. -/
def btiSplitSetPrefixes : Option SPLIT := do
  let rglineinfo ←
    (if split.ilineSplit = 0 then some split.rglineinfo
    else btiSetPrefix 0 split.rglineinfo split.ilineSplit split.prefixinfoSplit)
  let rglineinfo ← btiSetPrefix split.ilineSplit rglineinfo
    (split.clines - split.ilineSplit) split.prefixinfoNew
  some { split with rglineinfo }

/-- `BTISelectHotPointSplit`. -/
def btiSelectHotPointSplit : Option SPLIT := do
  let ilineCandidate := split.ilineOper
  let split ←
    (if ilineCandidate < split.clines - 1 then
      (split.btiSelectSplitWithOperNone m page).map fun split => { split with fHotpoint := false }
    else some split)
  let split := { split with ilineSplit := ilineCandidate }
  let split ← split.selectPrefixSplit ilineCandidate
  let split ← split.selectPrefixNew ilineCandidate (split.clines - ilineCandidate)
  split.btiSplitSetPrefixes

/-- `BTISelectPrependLeafSplit`. -/
def btiSelectPrependLeafSplit : Option (SPLIT × CANDIDATE) := do
  let split ← split.selectPrefixSplit 1
  let split ← split.selectPrefixNew 1 (split.clines - 1)
  some (split, ⟨1, split.prefixinfoSplit, split.prefixinfoNew⟩)

/-- `BTISelectAppendLeafSplit`, from line `iline` down. -/
def appendLeafLoop : Nat → SPLIT → Option (SPLIT × CANDIDATE)
  | 0, split => some (split, .none)
  | iline + 1, split => do
    let split ← split.btiSelectPrefixes (iline + 1)
    let (fSplitPageOverflow, fNewPageOverflow) ← split.fBTISplitCausesNoOverflow page.cbPageAvail
      (iline + 1)
    if !fSplitPageOverflow && !fNewPageOverflow then
      some (split, ⟨iline + 1, split.prefixinfoSplit, split.prefixinfoNew⟩)
    else if split.clines > 2 then appendLeafLoop iline split
    else none

/-- The split point for the lines as they are. -/
def selectCandidate (fPrependSplit : Bool) : Option (SPLIT × CANDIDATE) :=
  if page.fAppendLeaf then appendLeafLoop page (split.clines - 1) split
  else if fPrependSplit then split.btiSelectPrependLeafSplit
  else btiSelectEvenSplit page.cbPageAvail split

/-- The split at the candidate. -/
def takeCandidate (candidate : CANDIDATE) : Option SPLIT :=
  btiSplitSetPrefixes { split with
    ilineSplit := candidate.iline
    prefixinfoNew := candidate.prefixinfoNew
    prefixinfoSplit := candidate.prefixinfoSplit }

end

/-- The loop of `BTISelectRightSplit`, with the number of restarts left. -/
def rightSplitLoop (m : Mem) (page : SPLITPAGE) (fPrependSplit : Bool) : Nat → SPLIT → Option SPLIT
  | 0, split =>
    if split.clines > 1 then do
      let (split, candidate) ← split.selectCandidate page fPrependSplit
      if candidate.iline = 0 then none else split.takeCandidate candidate
    else none
  | restarts + 1, split =>
    if split.clines > 1 then do
      let (split, candidate) ← split.selectCandidate page fPrependSplit
      if candidate.iline = 0 then do
        let split ← split.btiSelectSplitWithOperNone m page
        rightSplitLoop m page fPrependSplit restarts split
      else split.takeCandidate candidate
    else none

/-- `BTISelectRightSplit` with at most `restarts` restarts. -/
def btiSelectRightSplit (m : Mem) (page : SPLITPAGE) (restarts : Nat) (split : SPLIT) :
    Option SPLIT :=
  if split.fHotpoint then split.btiSelectHotPointSplit m page
  else rightSplitLoop m page (split.fBTIPrependSplit page) restarts split

end SPLIT

/-! ## A prefix key that is not the key of a line -/

section
variable {m : Mem} {rglineinfo : List LINEINFO} {base n : Nat}

/-- What a prefix key saves on `n` lines, without its own bytes. -/
def savedBy (m : Mem) (rglineinfo : List LINEINFO) (base n : Nat) (key : List Byte) : Nat :=
  ∑ j ∈ Finset.range n, (commonLen key (lineKey m rglineinfo (base + j)) - cbPrefixOverhead)

/-- The line whose key has most in common with the prefix key saves at least as much as the prefix
key does. -/
theorem savedBy_le (hlen : base + n < rglineinfo.length) (hweighed : Weighed m rglineinfo base n)
    (hkeys : InKeyOrder m rglineinfo base n) (key : List Byte) :
    savedBy m rglineinfo base n key ≤ key.length + maxSavings (heights rglineinfo base) n := by
  rcases Nat.eq_zero_or_pos n with rfl | hpos
  · exact Nat.zero_le _
  obtain ⟨p, hp, hmax⟩ := Finset.exists_max_image (Finset.range n)
    (fun j => commonLen key (lineKey m rglineinfo (base + j))) ⟨0, Finset.mem_range.2 hpos⟩
  have hp' := Finset.mem_range.1 hp
  have hline : ∀ j ∈ Finset.range n, commonLen key
      (lineKey m rglineinfo (base + j)) - cbPrefixOverhead ≤
      between (heights rglineinfo base) p j +
        if j = p then commonLen key (lineKey m rglineinfo (base + p)) - cbPrefixOverhead else 0 :=
          fun j hj => by
    by_cases hjp : j = p
    · rw [if_pos hjp, hjp]
      exact Nat.le_add_left _ _
    · have hcommon := min_commonLen_le (lineKey m rglineinfo (base + p)) key
        (lineKey m rglineinfo (base + j))
      have hle := hmax j hj
      rw [if_neg hjp, between_heights_ne hlen hweighed hkeys hp' (Finset.mem_range.1 hj)
        (Ne.symm hjp)]
      rw [commonLen_comm _ key, Nat.min_eq_right hle] at hcommon
      omega
  have hsum := Finset.sum_le_sum hline
  rw [Finset.sum_add_distrib, Finset.sum_ite_eq', if_pos hp] at hsum
  have hweight : Valley.sum (heights rglineinfo base) n p ≤ maxSavings (heights rglineinfo base) n +
    cbPrefixOverhead := by
    have hle := sum_le_sup (c := heights rglineinfo base) hp'
    unfold maxSavings
    omega
  have hkey := commonLen_le_left key (lineKey m rglineinfo (base + p))
  unfold savedBy
  unfold Valley.sum at hweight
  by_cases hzero : commonLen key (lineKey m rglineinfo (base + p)) ≤ cbPrefixOverhead
  · -- the prefix key saves nothing
    have hnone : ∀ j ∈ Finset.range n, commonLen key
      (lineKey m rglineinfo (base + j)) - cbPrefixOverhead = 0 :=
      fun j hj => Nat.sub_eq_zero_of_le ((hmax j hj).trans hzero)
    rw [Finset.sum_eq_zero hnone]
    exact Nat.zero_le _
  · omega

end

/-! ## The nodes on the page -/

/-- The lines without the operation. -/
def existingLines (page : SPLITPAGE) (split : SPLIT) : List LINEINFO :=
  if split.splitoper = .splitoperInsert
    then (split.rglineinfo.take split.clines).eraseIdx split.ilineOper
  else (split.rglineinfo.take split.clines).modify split.ilineOper (SPLIT.lineCurr page)

/-- The nodes fit on one page with the prefix key `key`, as large as they may grow. -/
def FitWith (m : Mem) (cbPageAvail : Nat) (lines : List LINEINFO) (key : List Byte) : Prop :=
  sizesMaxBefore lines lines.length + key.length ≤ cbPageAvail + savedBy m lines 0 lines.length key

/-- The nodes are in key order, have their sizes, and fit on one page with some prefix key. -/
structure Existing (m : Mem) (cbPageAvail : Nat) (lines : List LINEINFO) : Prop where
  keys : InKeyOrder m lines 0 lines.length
  sizes : SizesOk lines lines.length
  fit : ∃ key, FitWith m cbPageAvail lines key

/-- The array has the nodes from line `base` on. -/
def Holds (rglineinfo : List LINEINFO) (base : Nat) (lines : List LINEINFO) : Prop :=
  ∀ j < lines.length, ∃ line line', getLine rglineinfo (base + j) = some line ∧
    getLine lines j = some line' ∧
    line.kdf = line'.kdf ∧ line.cbSize = line'.cbSize ∧ line.cbSizeMax = line'.cbSizeMax

section
variable {m : Mem} {rglineinfo lines : List LINEINFO} {base cbPageAvail : Nat}

theorem Holds.lineKey_eq (h : Holds rglineinfo base lines) {j : Nat} (hj : j < lines.length) :
    lineKey m rglineinfo (base + j) = lineKey m lines j := by
  obtain ⟨line, line', hline, hline', hkdf, -⟩ := h j hj
  rw [lineKey_of_getLine hline, lineKey_of_getLine hline', hkdf]

theorem Holds.inKeyOrder (h : Holds rglineinfo base lines)
    (hkeys : InKeyOrder m lines 0 lines.length) :
    InKeyOrder m rglineinfo base lines.length := by
  intro i hi prev line hprev hline
  obtain ⟨prev₁, prev₂, hprev₁, hprev₂, hkdf, -⟩ := h i (by omega)
  obtain ⟨line₁, line₂, hline₁, hline₂, hkdf', -⟩ := h (i + 1) hi
  obtain rfl : prev₁ = prev := Option.some.inj (hprev₁.symm.trans hprev)
  obtain rfl : line₁ = line := Option.some.inj (hline₁.symm.trans hline)
  rw [hkdf, hkdf']
  exact hkeys i hi prev₂ line₂ (by rwa [Nat.zero_add]) (by rwa [Nat.zero_add])

theorem Holds.sizesOk (h : Holds rglineinfo 0 lines) (hsizes : SizesOk lines lines.length) :
    SizesOk rglineinfo lines.length := by
  intro i hi line hline
  obtain ⟨line₁, line₂, hline₁, hline₂, hkdf, hsize, hsizeMax⟩ := h i hi
  rw [Nat.zero_add] at hline₁
  obtain rfl : line₁ = line := Option.some.inj (hline₁.symm.trans hline)
  rw [hkdf, hsize, hsizeMax]
  exact hsizes i hi line₂ hline₂

theorem Holds.sizesMaxBefore_eq (h : Holds rglineinfo base lines) :
    sizesMaxBefore rglineinfo (base + lines.length) =
      sizesMaxBefore rglineinfo base + sizesMaxBefore lines lines.length := by
  unfold sizesMaxBefore
  rw [Finset.sum_range_add]
  congr 1
  refine Finset.sum_congr rfl fun j hj => ?_
  obtain ⟨line, line', hline, hline', -, -, hsizeMax⟩ := h j (Finset.mem_range.1 hj)
  rw [hline, hline', Option.elim_some, Option.elim_some, hsizeMax]

/-- What fits with a prefix key fits with a best line. -/
theorem Existing.fits (hexisting : Existing m cbPageAvail lines) (h : Holds rglineinfo base lines)
    (hlen : base + lines.length < rglineinfo.length)
      (hweighed : Weighed m rglineinfo base lines.length) :
    sizesMaxBefore rglineinfo (base + lines.length) ≤
      cbPageAvail + maxSavings (heights rglineinfo base) lines.length + sizesMaxBefore rglineinfo
        base := by
  obtain ⟨key, hfit⟩ := hexisting.fit
  have hsaved := savedBy_le hlen hweighed (h.inKeyOrder hexisting.keys) key
  have heq : savedBy m rglineinfo base lines.length key = savedBy m lines 0 lines.length key := by
    refine Finset.sum_congr rfl fun j hj => ?_
    rw [h.lineKey_eq (Finset.mem_range.1 hj), Nat.zero_add]
  unfold FitWith at hfit
  rw [h.sizesMaxBefore_eq]
  omega

theorem weights_weighed (m : Mem) (rglineinfo : List LINEINFO) (n : Nat) :
    Weights m (weighed m rglineinfo n) n := by
  have hsize : ∀ i, sizesBefore (weighed m rglineinfo n) i = sizesBefore rglineinfo i := fun i => by
    refine Finset.sum_congr rfl fun j hj => ?_
    rw [getLine_weighed]
    cases getLine rglineinfo j with
    | none => rfl
    | some line =>
      rw [Option.map_some, Option.elim_some, Option.elim_some]
      split <;> rfl
  have hsizeMax : ∀ i, sizesMaxBefore (weighed m rglineinfo n) i = sizesMaxBefore rglineinfo i :=
    fun i => by
    refine Finset.sum_congr rfl fun j hj => ?_
    rw [getLine_weighed]
    cases getLine rglineinfo j with
    | none => rfl
    | some line =>
      rw [Option.map_some, Option.elim_some, Option.elim_some]
      split <;> rfl
  refine ⟨weighed_weighed, fun i hi line hline => ?_, fun i hi line hline => ?_⟩
  · rw [getLine_weighed, Option.map_eq_some_iff] at hline
    obtain ⟨line, hline, rfl⟩ := hline
    rw [if_pos hi, hsize]
    rfl
  · rw [getLine_weighed, Option.map_eq_some_iff] at hline
    obtain ⟨line, hline, rfl⟩ := hline
    rw [if_pos hi, hsizeMax]
    rfl

theorem Weighed.drop {n : Nat} (h : Weighed m rglineinfo 0 (base + n)) :
    Weighed m rglineinfo base n :=
  fun i hi prev line hprev hline =>
    h (base + i) (by omega) prev line (by rwa [Nat.zero_add]) (by rwa [Nat.zero_add, Nat.add_assoc])

theorem Weighed.take {n n' : Nat} (h : Weighed m rglineinfo 0 n) (hn : n' ≤ n) :
    Weighed m rglineinfo 0 n' :=
  fun i hi prev line hprev hline => h i (by omega) prev line hprev hline

end

namespace SPLIT

variable {m : Mem} {page : SPLITPAGE} {split : SPLIT} {cbPageAvail : Nat}

theorem length_existingLines (hlen : split.clines < split.rglineinfo.length)
    (hop : split.ilineOper < split.clines) :
    (existingLines page split).length =
      if split.splitoper = .splitoperInsert then split.clines - 1 else split.clines := by
  unfold existingLines
  split
  · rw [List.length_eraseIdx, List.length_take, Nat.min_eq_left hlen.le, if_pos hop]
  · rw [List.length_modify, List.length_take, Nat.min_eq_left hlen.le]

theorem getLine_existingLines {j : Nat} (hj : j < split.clines)
    (hins : split.splitoper = .splitoperInsert → j + 1 < split.clines) :
    getLine (existingLines page split) j =
      if split.splitoper = .splitoperInsert then
        if j < split.ilineOper then getLine split.rglineinfo j else getLine split.rglineinfo (j + 1)
      else if j = split.ilineOper then (getLine split.rglineinfo j).map (lineCurr page)
      else getLine split.rglineinfo j := by
  unfold existingLines getLine
  by_cases hoper : split.splitoper = .splitoperInsert
  · rw [if_pos hoper, if_pos hoper, List.getElem?_eraseIdx, List.getElem?_take_of_lt hj,
      List.getElem?_take_of_lt (hins hoper)]
  · rw [if_neg hoper, if_neg hoper, List.getElem?_modify, List.getElem?_take_of_lt hj]
    by_cases hjop : j = split.ilineOper
    · subst hjop
      simp
    · rw [if_neg hjop]
      simp [Ne.symm hjop]

theorem moveUpLoop_eq {k i : Nat} {rglineinfo : List LINEINFO} (h : i + k < rglineinfo.length) :
    ∃ rglineinfo', moveUpLoop k i rglineinfo = some rglineinfo' ∧
      rglineinfo'.length = rglineinfo.length ∧
      ∀ j, getLine rglineinfo' j = if i ≤ j ∧ j < i + k then getLine rglineinfo (j + 1)
        else getLine rglineinfo j := by
  induction k generalizing i rglineinfo with
  | zero => exact ⟨rglineinfo, rfl, rfl, fun j => by rw [if_neg (by omega)]⟩
  | succ k ih =>
    obtain ⟨next, hnext⟩ := getLine_of_lt (show i + 1 < rglineinfo.length by omega)
    obtain ⟨rglineinfo', heq, hlength, hget⟩ :=
      @ih (i + 1) (rglineinfo.modify i fun _ => next) (by rw [List.length_modify]; omega)
    refine ⟨rglineinfo', ?_, by rw [hlength, List.length_modify], fun j => ?_⟩
    · have hset := setLine_eq (show i < rglineinfo.length by omega) fun _ => next
      simp only [moveUpLoop, hnext, Option.bind_eq_bind, Option.bind_some, hset, heq]
    · have hmodify : ∀ l, getLine (rglineinfo.modify i fun _ => next) l =
          if i = l then (getLine rglineinfo l).map fun _ => next else getLine rglineinfo l :=
            fun l => by
        unfold getLine
        rw [List.getElem?_modify]
        split <;> cases rglineinfo[l]? <;> rfl
      rw [hget, hmodify, hmodify]
      by_cases hij : i = j
      · subst hij
        obtain ⟨line, hline⟩ := getLine_of_lt (show i < rglineinfo.length by omega)
        rw [if_neg (by omega), if_pos rfl, if_pos (by omega), hline, hnext]
        rfl
      · by_cases hin : i + 1 ≤ j ∧ j < i + 1 + k
        · rw [if_pos hin, if_neg (by omega), if_pos (by omega)]
        · rw [if_neg hin, if_neg hij, if_neg (by omega)]

/-- The lines of the restart: the nodes on the page, weighed anew. -/
theorem btiSelectSplitWithOperNone_eq (hlen : split.clines < split.rglineinfo.length)
    (hclines : 2 ≤ split.clines)
    (hop : split.ilineOper < split.clines) :
    ∃ rglineinfo, split.btiSelectSplitWithOperNone m page =
        some { split with
          splitoper := .splitoperNone
          ilineOper := 0
          clines := (existingLines page split).length
          prefixinfoSplit := .nullify
          prefixinfoNew := .nullify
          rglineinfo } ∧
      rglineinfo.length = split.rglineinfo.length ∧
        Weights m rglineinfo (existingLines page split).length ∧
      Holds rglineinfo 0 (existingLines page split) := by
  have hlength := @length_existingLines page split hlen hop
  -- the array before the weights are set
  have harray : ∃ rglineinfo, (if split.splitoper = .splitoperInsert then
        if split.clines > 0 then
          (moveUpLoop (split.clines - 1 - split.ilineOper) split.ilineOper split.rglineinfo).map
            fun rglineinfo =>
            { split with rglineinfo, clines := split.clines - 1 }
        else some split
      else
        (setLine split.rglineinfo split.ilineOper (lineCurr page)).map fun rglineinfo =>
          { split with rglineinfo }) =
          some { split with rglineinfo, clines := (existingLines page split).length } ∧
        rglineinfo.length = split.rglineinfo.length ∧
        ∀ j < (existingLines page split).length, getLine rglineinfo j =
          getLine (existingLines page split) j := by
    by_cases hoper : split.splitoper = .splitoperInsert
    · rw [if_pos hoper] at hlength ⊢
      obtain ⟨rglineinfo, heq, hlen', hget⟩ := moveUpLoop_eq
        (show split.ilineOper + (split.clines - 1 - split.ilineOper) <
        split.rglineinfo.length by omega)
      refine ⟨rglineinfo, ?_, hlen', fun j hj => ?_⟩
      · rw [if_pos (by omega), heq, Option.map_some, hlength]
      · rw [hget, getLine_existingLines (by omega) fun _ => by omega, if_pos hoper]
        by_cases hjop : j < split.ilineOper
        · rw [if_neg (by omega), if_pos hjop]
        · rw [if_pos (by omega), if_neg hjop]
    · rw [if_neg hoper] at hlength ⊢
      refine ⟨_, by rw [setLine_eq (by omega), Option.map_some, hlength], List.length_modify _ _ _,
        fun j hj => ?_⟩
      rw [getLine_existingLines (by omega) fun h => absurd h hoper, if_neg hoper]
      unfold getLine
      rw [List.getElem?_modify]
      by_cases hjop : j = split.ilineOper
      · subst hjop
        simp
      · simp [hjop, Ne.symm hjop]
  obtain ⟨rglineinfo, heq, hlen', hget⟩ := harray
  have hpos : 1 ≤ (existingLines page split).length := by
    rw [hlength]
    split <;> omega
  have hle : (existingLines page split).length ≤ rglineinfo.length := by
    rw [hlength, hlen']
    split <;> omega
  refine ⟨weighed m rglineinfo (existingLines page split).length, ?_, by rw [length_weighed, hlen'],
    weights_weighed m rglineinfo _, fun j hj => ?_⟩
  · rw [btiSelectSplitWithOperNone, heq]
    simp only [Option.bind_eq_bind, Option.bind_some, btiRecalcWeightsLE_eq hpos hle]
  · obtain ⟨line, hline⟩ := getLine_of_lt hj
    refine ⟨weigh m rglineinfo j line, line, ?_, hline, rfl, rfl, rfl⟩
    rw [Nat.zero_add, getLine_weighed, hget j hj, hline, Option.map_some, if_pos hj]

/-! ## Split points that fit -/

/-- The lines fit on one page, so every split point leaves room for them. -/
theorem fits_of_all (hlen : split.clines < split.rglineinfo.length)
    (hweighed : Weighed m split.rglineinfo 0 split.clines)
    (hsizes : SizesOk split.rglineinfo split.clines)
    (hall : sizesMaxBefore split.rglineinfo split.clines ≤
      cbPageAvail + maxSavings (heights split.rglineinfo 0) split.clines) {i : Nat} (hpos : 0 < i)
    (hi : i < split.clines) : split.Fits cbPageAvail i := by
  have hsplit : split.FitsSplit cbPageAvail split.clines := hall
  have hnew : split.FitsNew cbPageAvail 0 := hall
  exact ⟨hsplit.of_le hlen hweighed hsizes hpos hi.le le_rfl, hnew.of_le hlen hweighed hsizes
    (Nat.zero_le i) hi⟩

theorem appendLeafLoop_eq (hlen : split.clines < split.rglineinfo.length)
    (hweights : Weights m split.rglineinfo split.clines)
    (htwo : 2 < split.clines ∨ split.Fits page.cbPageAvail 1) {i : Nat} (hi : i < split.clines)
    (hsplit : i + 1 = split.clines ∨ IsBest (heights split.rglineinfo 0)
      (i + 1) split.prefixinfoSplit)
    (hnew : IsBest (heights split.rglineinfo (i + 1))
      (split.clines - (i + 1)) split.prefixinfoNew) :
    ∃ prefixinfoSplit prefixinfoNew candidate,
      appendLeafLoop page i split = some ({ split with prefixinfoSplit, prefixinfoNew },
      candidate) ∧
      split.PrefixesOf candidate ∧
      (candidate.iline ≠ 0 → candidate.iline < split.clines ∧
        split.Fits page.cbPageAvail candidate.iline) ∧
      (0 < i → split.Fits page.cbPageAvail i → candidate.iline ≠ 0) := by
  induction i generalizing split with
  | zero =>
    exact ⟨_, _, _, rfl, prefixesOf_none split, fun h => absurd rfl h, fun h =>
      absurd h (lt_irrefl 0)⟩
  | succ i ih =>
    obtain ⟨prefixinfoSplit, prefixinfoNew, hselect, hbest⟩ :=
      btiSelectPrefixes_eq hlen (Nat.succ_pos i) (by omega) hsplit hnew
    have htest : fBTISplitCausesNoOverflow { split with prefixinfoSplit, prefixinfoNew }
        page.cbPageAvail (i + 1) =
        some (!decide (split.FitsSplit page.cbPageAvail (i + 1)),
          !decide (split.FitsNew page.cbPageAvail (i + 1))) :=
      @BestAt.fBTISplitCausesNoOverflow_eq m { split with prefixinfoSplit, prefixinfoNew }
        (i + 1) page.cbPageAvail
        hlen hweights (Nat.succ_pos i) hi hbest
    rw [appendLeafLoop, hselect]
    simp only [Option.bind_eq_bind, Option.bind_some, htest, Bool.not_not, ← Bool.decide_and]
    by_cases hfits : split.FitsSplit page.cbPageAvail (i + 1) ∧
      split.FitsNew page.cbPageAvail (i + 1)
    · rw [if_pos (decide_eq_true hfits)]
      exact ⟨_, _, _, rfl, fun _ => hbest, fun _ => ⟨hi, hfits⟩, fun _ _ => Nat.succ_ne_zero i⟩
    · have hthree : split.clines > 2 := by
        rcases htwo with hthree | hfits'
        · exact hthree
        · by_contra hle
          obtain rfl : i = 0 := by omega
          exact hfits hfits'
      obtain ⟨prefixinfoSplit', prefixinfoNew', candidate, heq, hprefixes, hfound, -⟩ :=
        @ih { split with prefixinfoSplit, prefixinfoNew } hlen hweights htwo
          (show i < split.clines by omega)
          (.inr hbest.splitPage) hbest.newPage
      rw [if_neg (by rw [decide_eq_true_eq]; exact hfits), if_pos hthree, heq]
      exact ⟨_, _, candidate, rfl, hprefixes, hfound, fun _ h => absurd h hfits⟩

theorem btiSelectPrependLeafSplit_eq (hlen : split.clines < split.rglineinfo.length)
    (hclines : 2 ≤ split.clines) :
    ∃ prefixinfoSplit prefixinfoNew candidate,
      split.btiSelectPrependLeafSplit = some ({ split with prefixinfoSplit, prefixinfoNew },
      candidate) ∧
      split.PrefixesOf candidate ∧ candidate.iline = 1 := by
  obtain ⟨prefixinfoSplit, hselect, hbestSplit⟩ :=
    selectPrefixSplit_eq hlen (show 1 ≤ split.clines by omega)
  obtain ⟨prefixinfoNew, hselectNew, hbestNew⟩ :=
    selectPrefixNew_eq { split with prefixinfoSplit } 1
    (split.clines - 1) hlen (Nat.add_sub_of_le (by omega)).le
  refine ⟨prefixinfoSplit, prefixinfoNew, ⟨1, prefixinfoSplit, prefixinfoNew⟩, ?_, fun _ =>
    ⟨hbestSplit, hbestNew⟩, rfl⟩
  rw [btiSelectPrependLeafSplit, hselect]
  simp only [Option.bind_eq_bind, Option.bind_some, hselectNew]

/-- A choice has a result; the split point that it returns, if any, leaves room for the lines, and
it returns one if every split point does. -/
theorem selectCandidate_eq (hlen : split.clines < split.rglineinfo.length)
    (hweights : Weights m split.rglineinfo split.clines)
    (hsizes : SizesOk split.rglineinfo split.clines)
    (hclines : 2 ≤ split.clines) (htwo : split.clines = 2 → split.Fits page.cbPageAvail 1)
    (hnull : split.prefixinfoNew = .nullify) {fPrependSplit : Bool}
    (hprepend : fPrependSplit = true → split.Fits page.cbPageAvail 1) :
    ∃ prefixinfoSplit prefixinfoNew candidate,
      split.selectCandidate page fPrependSplit =
      some ({ split with prefixinfoSplit, prefixinfoNew }, candidate) ∧
      split.PrefixesOf candidate ∧
      (candidate.iline ≠ 0 → candidate.iline < split.clines ∧
        split.Fits page.cbPageAvail candidate.iline) ∧
      ((∀ k, 0 < k → k < split.clines → split.Fits page.cbPageAvail k) → candidate.iline ≠ 0) := by
  unfold selectCandidate
  by_cases happend : page.fAppendLeaf = true
  · rw [if_pos happend]
    have hthree : 2 < split.clines ∨ split.Fits page.cbPageAvail 1 := by
      rcases Nat.lt_or_eq_of_le hclines with hlt | heq
      · exact .inl hlt
      · exact .inr (htwo heq.symm)
    obtain ⟨prefixinfoSplit, prefixinfoNew, candidate, heq, hprefixes, hfound, hfirst⟩ :=
      appendLeafLoop_eq hlen hweights hthree (show split.clines - 1 < split.clines by omega)
        (.inl (by omega))
        (by
          rw [hnull]
          exact isBest_one (by omega))
    exact ⟨prefixinfoSplit, prefixinfoNew, candidate, heq, hprefixes, hfound, fun hall =>
      hfirst (by omega) (hall _ (by omega) (by omega))⟩
  rw [if_neg happend]
  by_cases hprependSplit : fPrependSplit = true
  · rw [if_pos hprependSplit]
    obtain ⟨prefixinfoSplit, prefixinfoNew, candidate, heq, hprefixes, hone⟩ :=
      btiSelectPrependLeafSplit_eq hlen hclines
    refine ⟨prefixinfoSplit, prefixinfoNew, candidate, heq, hprefixes, fun _ => ?_,
      fun _ => by omega⟩
    rw [hone]
    exact ⟨by omega, hprepend hprependSplit⟩
  · rw [if_neg hprependSplit]
    obtain ⟨prefixinfoSplit, prefixinfoNew, candidate, heq, hprefixes, hfound⟩ :=
      btiSelectEvenSplit_eq hlen hweights hsizes hclines htwo
    refine ⟨prefixinfoSplit, prefixinfoNew, candidate, heq, hprefixes, fun hne => ?_,
      fun hall hzero => ?_⟩
    · have hmem := (hfound.2 hne).mem
      exact ⟨hmem.1.2, hmem.2⟩
    · exact hfound.1.1 hzero 1 Nat.one_pos (by omega) (hall 1 Nat.one_pos (by omega))

/-! ## The prefixes of both pages -/

theorem btiSetPrefix_eq {rglineinfo : List LINEINFO} {base n : Nat} {prefixinfo : PREFIXINFO}
    (hlen : base + n < rglineinfo.length) (h : IsBest (heights rglineinfo base) n prefixinfo) :
    ∃ pre, btiSetPrefix base rglineinfo n prefixinfo = some (withPrefix rglineinfo pre) := by
  cases h with
  | null h => exact ⟨_, btiSetPrefix_null hlen⟩
  | @found p b e hbest hpos =>
    have hp : p < n := hbest.segment.le_end.trans_lt hbest.segment.end_lt
    obtain ⟨line, hline⟩ := getLine_of_lt (show base + p < rglineinfo.length by omega)
    exact ⟨_, btiSetPrefix_found hlen (fun l hl => getCommonPrev_heights hlen hl.le) hbest.segment _
      hline⟩

theorem heights_withPrefix (rglineinfo : List LINEINFO) (pre : Nat → Option Nat) (base : Nat) :
    heights (withPrefix rglineinfo pre) base = heights rglineinfo base := by
  funext l
  unfold heights
  rw [getCommonPrev_withPrefix]

theorem fBTISplitCausesNoOverflow_withPrefix (pre : Nat → Option Nat) (i : Nat) :
    fBTISplitCausesNoOverflow { split with rglineinfo := withPrefix split.rglineinfo pre }
      cbPageAvail i =
      split.fBTISplitCausesNoOverflow cbPageAvail i := by
  have hread : ∀ l, cbSizeMaxLE { split with rglineinfo := withPrefix split.rglineinfo pre } l =
    split.cbSizeMaxLE l :=
    fun l => by
      unfold cbSizeMaxLE
      rw [getLine_withPrefix]
      cases getLine split.rglineinfo l <;> rfl
  unfold fBTISplitCausesNoOverflow
  rw [hread, hread]

/-- The split with the prefixes set still leaves room on both pages. -/
theorem btiSplitSetPrefixes_eq (hlen : split.clines < split.rglineinfo.length)
    (hweights : Weights m split.rglineinfo split.clines) (hpos : 0 < split.ilineSplit)
    (hi : split.ilineSplit < split.clines) (hfits : split.Fits cbPageAvail split.ilineSplit)
    (h : split.BestAt split.ilineSplit) :
    ∃ split', split.btiSplitSetPrefixes = some split' ∧
      split'.fBTISplitCausesNoOverflow cbPageAvail split'.ilineSplit = some (false, false) := by
  have htest := h.fBTISplitCausesNoOverflow_eq cbPageAvail hlen hweights hpos hi
  obtain ⟨pre, hset⟩ :=
    btiSetPrefix_eq (show 0 + split.ilineSplit < split.rglineinfo.length by omega) h.splitPage
  have hnew : IsBest (heights (withPrefix split.rglineinfo pre) split.ilineSplit)
      (split.clines - split.ilineSplit)
      split.prefixinfoNew := by
    rw [heights_withPrefix]
    exact h.newPage
  obtain ⟨pre', hset'⟩ :=
    btiSetPrefix_eq (show split.ilineSplit + (split.clines - split.ilineSplit) <
    (withPrefix split.rglineinfo pre).length by rw [length_withPrefix]; omega) hnew
  refine ⟨{ split with rglineinfo := withPrefix (withPrefix split.rglineinfo pre) pre' }, ?_, ?_⟩
  · rw [btiSplitSetPrefixes, if_neg (by omega), hset]
    simp only [Option.bind_eq_bind, Option.bind_some, hset']
  · have hpre :=
      @fBTISplitCausesNoOverflow_withPrefix
      { split with rglineinfo := withPrefix split.rglineinfo pre }
      cbPageAvail pre' split.ilineSplit
    refine hpre.trans ?_
    rw [fBTISplitCausesNoOverflow_withPrefix, htest, decide_eq_true hfits.1, decide_eq_true hfits.2]
    rfl

theorem takeCandidate_eq (hlen : split.clines < split.rglineinfo.length)
    (hweights : Weights m split.rglineinfo split.clines) {candidate : CANDIDATE}
    (hprefixes : split.PrefixesOf candidate)
    (hne : candidate.iline ≠ 0) (hi : candidate.iline < split.clines)
    (hfits : split.Fits cbPageAvail candidate.iline) :
    ∃ split', split.takeCandidate candidate = some split' ∧
      split'.fBTISplitCausesNoOverflow cbPageAvail split'.ilineSplit = some (false, false) :=
  @btiSplitSetPrefixes_eq m { split with
    ilineSplit := candidate.iline
    prefixinfoNew := candidate.prefixinfoNew
    prefixinfoSplit := candidate.prefixinfoSplit } cbPageAvail hlen hweights
      (Nat.pos_of_ne_zero hne) hi hfits
    ⟨(hprefixes hne).splitPage, (hprefixes hne).newPage⟩

/-! ## The choice -/

/-- The node of the operation fits on a page of its own. -/
def OperAlone (page : SPLITPAGE) (split : SPLIT) : Prop :=
  ∀ line, getLine split.rglineinfo split.ilineOper = some line → line.cbSizeMax ≤ page.cbPageAvail

/-- A split point that leaves the node of the operation alone on its page is taken without a look at
the room: with two lines, before the other nodes, or as a hot point behind them. -/
def TakesAlone (page : SPLITPAGE) (split : SPLIT) : Prop :=
  split.clines = 2 ∨ split.fBTIPrependSplit page = true ∨
    (split.fHotpoint = true ∧ split.ilineOper = split.clines - 1)

/-- A page that is split for an operation: its nodes fit on it with some prefix key, and the node of
the operation fits on a page of its own where this is relied on. -/
structure Splittable (m : Mem) (page : SPLITPAGE) (split : SPLIT) : Prop where
  length : split.clines < split.rglineinfo.length
  clines : 2 ≤ split.clines
  ilineOper : split.ilineOper < split.clines
  weights : Weights m split.rglineinfo split.clines
  sizes : SizesOk split.rglineinfo split.clines
  existing : Existing m page.cbPageAvail (existingLines page split)
  oper : TakesAlone page split → OperAlone page split
  prefixinfoNew : split.prefixinfoNew = .nullify
  /-- A hot point is an insert behind two lines at least. -/
  hotpoint : split.fHotpoint = true → split.splitoper = .splitoperInsert ∧ 2 ≤ split.ilineOper

theorem existing_alone {lines : List LINEINFO} (h : Existing m cbPageAvail lines) {j : Nat}
    (hj : j < lines.length)
    {line : LINEINFO} (hline : getLine lines j = some line) : line.cbSizeMax ≤ cbPageAvail := by
  obtain ⟨key, hfit⟩ := h.fit
  have hmem := Finset.mem_range.2 hj
  have hle : ∀ i ∈ (Finset.range lines.length).erase j,
      commonLen key (lineKey m lines (0 + i)) - cbPrefixOverhead ≤
        (getLine lines i).elim 0 LINEINFO.cbSizeMax := fun i hi => by
    have hi' := Finset.mem_range.1 (Finset.mem_of_mem_erase hi)
    obtain ⟨line', hline'⟩ := getLine_of_lt hi'
    obtain ⟨h1, h2, -⟩ := h.sizes i hi' line' hline'
    have hcommon := commonLen_le_left (line'.kdf.key.bytes m) key
    rw [commonLen_comm, KEY.length_bytes] at hcommon
    rw [Nat.zero_add, lineKey_of_getLine hline', hline', Option.elim_some]
    omega
  have hsum := Finset.sum_le_sum hle
  have hkey := commonLen_le_left key (lineKey m lines (0 + j))
  unfold FitWith sizesMaxBefore savedBy at hfit
  rw [← Finset.add_sum_erase _ _ hmem, ← Finset.add_sum_erase _ _ hmem, hline, Option.elim_some]
    at hfit
  omega

namespace Splittable

/-- Every node fits on a page of its own. -/
theorem alone (h : Splittable m page split) (halone : OperAlone page split) {j : Nat}
    (hj : j < split.clines) {line : LINEINFO} (hline : getLine split.rglineinfo j = some line) :
      line.cbSizeMax ≤ page.cbPageAvail := by
  have hop := h.ilineOper
  have hlength := @length_existingLines page split h.length hop
  by_cases hjop : j = split.ilineOper
  · exact halone line (by rwa [← hjop])
  by_cases hoper : split.splitoper = .splitoperInsert
  · rw [if_pos hoper] at hlength
    rcases Nat.lt_or_gt_of_ne hjop with hlt | hgt
    · refine existing_alone h.existing (show j < _ by omega) ?_
      rw [getLine_existingLines hj fun _ => by omega, if_pos hoper, if_pos hlt]
      exact hline
    · refine existing_alone h.existing (show j - 1 < _ by omega) ?_
      rw [getLine_existingLines (by omega) fun _ => by omega, if_pos hoper, if_neg (by omega),
        Nat.sub_add_cancel (by omega)]
      exact hline
  · rw [if_neg hoper] at hlength
    refine existing_alone h.existing (show j < _ by omega) ?_
    rw [getLine_existingLines hj fun h => absurd h hoper, if_neg hoper, if_neg hjop]
    exact hline

/-- The line before a split point at one, and the line after the last split point, fit. -/
theorem fitsSplit_one (h : Splittable m page split) (halone : OperAlone page split) :
    split.FitsSplit page.cbPageAvail 1 := by
  obtain ⟨line, hline⟩ :=
    getLine_of_lt (show 0 < split.rglineinfo.length by have := h.length; omega)
  have hle := h.alone halone (by have := h.clines; omega) hline
  have hsize := sizesMaxBefore_succ hline
  unfold FitsSplit
  rw [hsize]
  exact (Nat.add_le_add_left hle _).trans (by unfold sizesMaxBefore; simp)

theorem fitsNew_last (h : Splittable m page split) (halone : OperAlone page split) :
    split.FitsNew page.cbPageAvail (split.clines - 1) := by
  have hclines := h.clines
  have hlen := h.length
  obtain ⟨line, hline⟩ := getLine_of_lt (show split.clines - 1 < split.rglineinfo.length by omega)
  have hle := h.alone halone (by omega) hline
  have hsize := sizesMaxBefore_succ hline
  rw [Nat.sub_add_cancel (by omega)] at hsize
  unfold FitsNew
  omega

theorem fits_two (h : Splittable m page split) (htwo : split.clines = 2) :
    split.Fits page.cbPageAvail 1 := by
  have halone := h.oper (.inl htwo)
  have hnew := h.fitsNew_last halone
  rw [htwo] at hnew
  exact ⟨h.fitsSplit_one halone, hnew⟩

/-- The nodes on the page are behind a node that is inserted before them. -/
theorem fits_prepend (h : Splittable m page split) (hprepend : split.fBTIPrependSplit page = true) :
    split.Fits page.cbPageAvail 1 := by
  have halone := h.oper (.inr (.inl hprepend))
  unfold fBTIPrependSplit at hprepend
  rw [Bool.and_eq_true, Bool.and_eq_true, decide_eq_true_eq, decide_eq_true_eq] at hprepend
  obtain ⟨⟨-, hoper⟩, hzero⟩ := hprepend
  have hclines := h.clines
  have hlength := @length_existingLines page split h.length h.ilineOper
  rw [if_pos hoper] at hlength
  have hholds : Holds split.rglineinfo 1 (existingLines page split) := fun j hj => by
    obtain ⟨line, hline⟩ := getLine_of_lt hj
    have hget := @getLine_existingLines page split j (by omega) fun _ => by omega
    rw [if_pos hoper, if_neg (by omega), hline] at hget
    exact ⟨line, line, by rw [Nat.add_comm]; exact hget.symm, hline, rfl, rfl, rfl⟩
  have hweighed : Weighed m split.rglineinfo 1 (existingLines page split).length := by
    refine Weighed.drop ?_
    rw [hlength, Nat.add_sub_of_le (by omega)]
    exact h.weights.weighed
  have hlen := h.length
  have hfits := h.existing.fits hholds (by omega) hweighed
  rw [hlength, Nat.add_sub_of_le (by omega)] at hfits
  exact ⟨h.fitsSplit_one halone, hfits⟩

/-- The nodes on the page are before a node that is inserted behind them. -/
theorem fits_last (h : Splittable m page split) (hhot : split.fHotpoint = true)
    (hlast : split.ilineOper = split.clines - 1) :
      split.Fits page.cbPageAvail (split.clines - 1) := by
  have halone := h.oper (.inr (.inr ⟨hhot, hlast⟩))
  obtain ⟨hoper, -⟩ := h.hotpoint hhot
  have hclines := h.clines
  have hlength := @length_existingLines page split h.length h.ilineOper
  rw [if_pos hoper] at hlength
  have hholds : Holds split.rglineinfo 0 (existingLines page split) := fun j hj => by
    obtain ⟨line, hline⟩ := getLine_of_lt hj
    have hget := @getLine_existingLines page split j (by omega) fun _ => by omega
    rw [if_pos hoper, if_pos (by omega), hline] at hget
    exact ⟨line, line, by rw [Nat.zero_add]; exact hget.symm, hline, rfl, rfl, rfl⟩
  have hlen := h.length
  have hfits := h.existing.fits hholds (by omega) (h.weights.weighed.take (by omega))
  rw [Nat.zero_add, hlength] at hfits
  exact ⟨hfits, h.fitsNew_last halone⟩

/-- After the restart every split point leaves room for the nodes. -/
theorem restart (h : Splittable m page split) (prefixinfoSplit prefixinfoNew : PREFIXINFO) :
    ∃ split', btiSelectSplitWithOperNone m page { split with prefixinfoSplit, prefixinfoNew } =
      some split' ∧
      split'.clines = (existingLines page split).length ∧ split'.clines < split'.rglineinfo.length ∧
      Weights m split'.rglineinfo split'.clines ∧ SizesOk split'.rglineinfo split'.clines ∧
      split'.prefixinfoNew = .nullify ∧
      ∀ i, 0 < i → i < split'.clines → split'.Fits page.cbPageAvail i := by
  obtain ⟨rglineinfo, heq, hlength, hweights, hholds⟩ :=
    @btiSelectSplitWithOperNone_eq m page { split with prefixinfoSplit, prefixinfoNew } h.length
      h.clines h.ilineOper
  replace hlength : rglineinfo.length = split.rglineinfo.length := hlength
  have hlen : (existingLines page split).length < rglineinfo.length := by
    have hle := @length_existingLines page split h.length h.ilineOper
    have := h.length
    split at hle <;> omega
  have hsizes := hholds.sizesOk h.existing.sizes
  have hall := h.existing.fits hholds (by omega) hweights.weighed
  rw [Nat.zero_add] at hall
  exact ⟨_, heq, rfl, hlen, hweights, hsizes, rfl, fun i hpos hi =>
    fits_of_all hlen hweights.weighed hsizes hall hpos hi⟩

end Splittable

/-- The choice at a hot point. -/
theorem btiSelectHotPointSplit_eq (h : Splittable m page split) (hhot : split.fHotpoint = true) :
    ∃ split', split.btiSelectHotPointSplit m page = some split' ∧
      split'.fBTISplitCausesNoOverflow page.cbPageAvail split'.ilineSplit =
        some (false, false) := by
  obtain ⟨hoper, htwo⟩ := h.hotpoint hhot
  have hop := h.ilineOper
  have hlength := @length_existingLines page split h.length hop
  rw [if_pos hoper] at hlength
  have hready : ∃ split', (if split.ilineOper < split.clines - 1 then
        (split.btiSelectSplitWithOperNone m page).map fun split => { split with fHotpoint := false }
      else some split) = some split' ∧ split'.clines < split'.rglineinfo.length ∧
        Weights m split'.rglineinfo split'.clines ∧ split.ilineOper < split'.clines ∧
        split'.Fits page.cbPageAvail split.ilineOper := by
    by_cases hlast : split.ilineOper < split.clines - 1
    · obtain ⟨split', heq, hclines, hlen, hweights, -, -, hfits⟩ :=
        h.restart split.prefixinfoSplit split.prefixinfoNew
      rw [if_pos hlast, heq]
      exact ⟨_, rfl, hlen, hweights, by dsimp only; omega, hfits _ (by omega) (by omega)⟩
    · rw [if_neg hlast]
      have hfits := h.fits_last hhot (by omega)
      rw [show split.clines - 1 = split.ilineOper by omega] at hfits
      exact ⟨split, rfl, h.length, h.weights, hop, hfits⟩
  obtain ⟨split', heq, hlen, hweights, hi, hfits⟩ := hready
  obtain ⟨prefixinfoSplit, hselect, hbestSplit⟩ :=
    @selectPrefixSplit_eq { split' with ilineSplit := split.ilineOper } hlen split.ilineOper hi.le
  obtain ⟨prefixinfoNew, hselectNew, hbestNew⟩ := selectPrefixNew_eq
    { split' with ilineSplit := split.ilineOper, prefixinfoSplit } split.ilineOper
    (split'.clines - split.ilineOper) hlen
    (Nat.add_sub_of_le hi.le).le
  obtain ⟨split'', hset, htest⟩ := @btiSplitSetPrefixes_eq m
    { split' with ilineSplit := split.ilineOper, prefixinfoSplit, prefixinfoNew } page.cbPageAvail
    hlen hweights
    (show 0 < split.ilineOper by omega) hi hfits ⟨hbestSplit, hbestNew⟩
  refine ⟨split'', ?_, htest⟩
  rw [btiSelectHotPointSplit]
  simp only [Option.bind_eq_bind, heq, Option.bind_some, hselect, hselectNew, hset]

/-- One restart is enough. -/
theorem rightSplitLoop_eq (h : Splittable m page split) {fPrependSplit : Bool}
    (hprepend : fPrependSplit = true → split.fBTIPrependSplit page = true) (restarts : Nat) :
    ∃ split', rightSplitLoop m page fPrependSplit (restarts + 1) split = some split' ∧
      split'.fBTISplitCausesNoOverflow page.cbPageAvail split'.ilineSplit =
        some (false, false) := by
  obtain ⟨prefixinfoSplit, prefixinfoNew, candidate, heq, hprefixes, hfound, hfirst⟩ :=
    @selectCandidate_eq m page split h.length h.weights h.sizes h.clines h.fits_two h.prefixinfoNew
      fPrependSplit fun hp => h.fits_prepend (hprepend hp)
  have hclines := h.clines
  rw [rightSplitLoop, if_pos (by omega), heq, Option.bind_eq_bind, Option.bind_some]
  dsimp only
  by_cases hzero : candidate.iline = 0
  · -- no split point was found, so there are three lines and one is left out at most
    have hthree : 3 ≤ split.clines := by
      by_contra hlt
      refine hfirst (fun k hk hk' => ?_) hzero
      obtain rfl : k = 1 := by omega
      exact h.fits_two (by omega)
    have hlength := @length_existingLines page split h.length h.ilineOper
    obtain ⟨split', heq', hclines', hlen', hweights', hsizes', hnull', hfits'⟩ :=
      h.restart prefixinfoSplit prefixinfoNew
    have htwo : 2 ≤ split'.clines := by
      rw [hclines', hlength]
      split <;> omega
    have hone : split'.Fits page.cbPageAvail 1 := hfits' 1 Nat.one_pos (by omega)
    obtain ⟨prefixinfoSplit', prefixinfoNew', candidate', hcandidate, hprefixes', hfound',
      hfirst'⟩ :=
      @selectCandidate_eq m page split' hlen' hweights' hsizes' htwo
        (fun _ => hone) hnull' fPrependSplit fun _ => hone
    have hne := hfirst' hfits'
    obtain ⟨split'', htake, htest⟩ :=
      @takeCandidate_eq m { split' with prefixinfoSplit := prefixinfoSplit',
                                        prefixinfoNew := prefixinfoNew' }
        page.cbPageAvail hlen' hweights' candidate' hprefixes' hne (hfound' hne).1 (hfound' hne).2
    refine ⟨split'', ?_, htest⟩
    rw [if_pos hzero, heq', Option.bind_eq_bind, Option.bind_some]
    cases restarts <;>
    · rw [rightSplitLoop, if_pos (by omega), hcandidate, Option.bind_eq_bind, Option.bind_some]
      dsimp only
      rw [if_neg hne, htake]
  · rw [if_neg hzero]
    obtain ⟨hi, hfits⟩ := hfound hzero
    exact @takeCandidate_eq m { split with prefixinfoSplit, prefixinfoNew } page.cbPageAvail
      h.length h.weights
      candidate hprefixes hzero hi hfits

theorem btiSelectRightSplit_eq (h : Splittable m page split) (restarts : Nat) :
    ∃ split', btiSelectRightSplit m page (restarts + 1) split = some split' ∧
      split'.fBTISplitCausesNoOverflow page.cbPageAvail split'.ilineSplit =
        some (false, false) := by
  unfold btiSelectRightSplit
  by_cases hhot : split.fHotpoint = true
  · rw [if_pos hhot]
    exact btiSelectHotPointSplit_eq h hhot
  · rw [if_neg hhot]
    exact rightSplitLoop_eq h id restarts

/-- The search from the middle finds what the search of all split points finds, and the choice of a
right split finds a split point that leaves room on both pages with at most one restart. -/
theorem splitPoint_selected (m : Mem) :
    (∀ cbPageAvail split, split.clines < split.rglineinfo.length → 2 ≤ split.clines →
      Weights m split.rglineinfo split.clines → SizesOk split.rglineinfo split.clines →
      (∀ line, getLine split.rglineinfo (split.clines - 1) = some line → 2 ≤ line.cbSize) →
      (split.clines = 2 → fitsAt cbPageAvail split 1 = some true) →
      ∃ split' candidate candidateT,
        btiSelectEvenSplit cbPageAvail split = some (split', candidate) ∧
        btiSelectEvenSplitDebug cbPageAvail split = some candidateT ∧
        candidate.iline = candidateT.iline ∧
        (candidate.iline = 0 ↔ ∀ k, 0 < k → k < split.clines →
          fitsAt cbPageAvail split k = some false) ∧
        (candidate.iline ≠ 0 →
          Nearest (fun k => (0 < k ∧ k < split.clines) ∧ fitsAt cbPageAvail split k = some true)
            (sizesBefore split.rglineinfo) (sizesBefore split.rglineinfo split.clines / 2)
            candidate.iline)) ∧
    ∀ page split, Splittable m page split → ∀ restarts,
      ∃ split', btiSelectRightSplit m page (restarts + 1) split = some split' ∧
        split'.fBTISplitCausesNoOverflow page.cbPageAvail split'.ilineSplit = some (false, false) :=
  ⟨fun _ _ hlen hclines hweights hsizes hlast htwo =>
    evenSplit_eq_debug hlen hweights hsizes hlast hclines htwo,
    fun _ _ h restarts => btiSelectRightSplit_eq h restarts⟩

/-- A split of nodes without keys, with the size and the greatest size of each. -/
def splitOf (splitoper : SPLITOPER) (ilineOper : Nat) (sizes : List (Nat × Nat)) : SPLIT :=
  ⟨splitoper, false, ilineOper, sizes.length, 0, .nullify, .nullify,
    weighed (fun _ => 0)
      ((sizes ++ [(0, 0)]).map fun p : Nat × Nat => ⟨p.1, p.2, 0, 0, 0, 0, ⟨⟨.null, .null⟩, .null⟩⟩)
      sizes.length⟩

/-- A page with room for ten bytes. -/
def pageOf (fFirstLeaf : Bool) : SPLITPAGE := ⟨10, false, fFirstLeaf, ⟨⟨.null, .null⟩, .null⟩, 0⟩

section
variable {splitoper : SPLITOPER} {ilineOper : Nat} {sizes : List (Nat × Nat)}

theorem length_splitOf : (splitOf splitoper ilineOper sizes).clines <
    (splitOf splitoper ilineOper sizes).rglineinfo.length := by
  unfold splitOf
  rw [length_weighed, List.length_map, List.length_append]
  exact Nat.lt_succ_self _

/-- A line of the split, which has no key. -/
theorem getLine_splitOf {i : Nat} {line : LINEINFO}
    (hline : getLine (splitOf splitoper ilineOper sizes).rglineinfo i = some line) :
    line.kdf = ⟨⟨.null, .null⟩, .null⟩ ∧
      (i < sizes.length → sizes[i]? = some (line.cbSize, line.cbSizeMax)) := by
  unfold splitOf at hline
  rw [getLine_weighed, getLine, List.getElem?_map] at hline
  obtain ⟨_, hmap, rfl⟩ := Option.map_eq_some_iff.1 hline
  obtain ⟨⟨cbSize, cbSizeMax⟩, hp, rfl⟩ := Option.map_eq_some_iff.1 hmap
  refine ⟨by split <;> rfl, fun hi => ?_⟩
  rw [List.getElem?_append_left hi] at hp
  rw [if_pos hi, hp]
  rfl

theorem weights_splitOf : Weights (fun _ => 0) (splitOf splitoper ilineOper sizes).rglineinfo
    (splitOf splitoper ilineOper sizes).clines := weights_weighed _ _ _

theorem sizesOk_splitOf (h : ∀ p ∈ sizes, p.1 ≤ p.2 ∧ 0 < p.1) :
    SizesOk (splitOf splitoper ilineOper sizes).rglineinfo
      (splitOf splitoper ilineOper sizes).clines := by
  intro i hi line hline
  obtain ⟨hkdf, hsize⟩ := getLine_splitOf hline
  obtain ⟨hle, hpos⟩ := h _ (List.mem_of_getElem? (hsize hi))
  rw [hkdf]
  exact ⟨Nat.zero_le _, hle, hpos⟩

/-- The other nodes of an insert, which fit on a page without a prefix key. -/
theorem existing_splitOf (h : ∀ p ∈ sizes, p.1 ≤ p.2 ∧ 0 < p.1) {page : SPLITPAGE}
    (hfit : FitWith (fun _ => 0) cbPageAvail
      (existingLines page (splitOf .splitoperInsert ilineOper sizes)) []) :
    Existing (fun _ => 0) cbPageAvail
      (existingLines page (splitOf .splitoperInsert ilineOper sizes)) := by
  have hline : ∀ {i line},
      getLine (existingLines page (splitOf .splitoperInsert ilineOper sizes)) i = some line →
      ∃ j < sizes.length,
        getLine (splitOf .splitoperInsert ilineOper sizes).rglineinfo j = some line := by
    intro i line hline
    obtain ⟨j, hj⟩ :=
      List.mem_iff_getElem?.1 (List.mem_of_mem_eraseIdx (List.mem_of_getElem? hline))
    rw [List.getElem?_take] at hj
    split_ifs at hj with hlt
    exact ⟨j, hlt, hj⟩
  refine ⟨fun i _ prev line hprev hnext => ?_, fun i _ line hget => ?_, [], hfit⟩
  · rw [Nat.zero_add] at hprev hnext
    obtain ⟨j, -, hj⟩ := hline hprev
    obtain ⟨k, -, hk⟩ := hline hnext
    rw [(getLine_splitOf hj).1, (getLine_splitOf hk).1]
    decide
  · obtain ⟨j, hlt, hj⟩ := hline hget
    exact sizesOk_splitOf h j hlt line hj

end

/-- Half of the first page is behind line two, where the split page overflows. -/
def overflowSplit : SPLIT := splitOf .splitoperNone 0 [(2, 9), (2, 2), (2, 2), (2, 2)]

/-- An insert between two nodes that fill a page. -/
def fullSplit : SPLIT := splitOf .splitoperInsert 1 [(2, 5), (2, 10), (2, 5)]

/-- The split point moves away from the middle, where the split page overflows. And an insert
between two nodes that fill the page needs the restart. -/
theorem splitPoint_selected_three :
    overflowSplit.btiSelectEvenSplitWithoutCheckingOverflows = some 2 ∧
    (∃ split' candidate candidateT, btiSelectEvenSplit 10 overflowSplit = some (split', candidate) ∧
      btiSelectEvenSplitDebug 10 overflowSplit = some candidateT ∧
      candidate.iline = candidateT.iline ∧
      candidate.iline ≠ 0) ∧
    btiSelectRightSplit (fun _ => 0) (pageOf false) 0 fullSplit = none ∧
    ∃ split', btiSelectRightSplit (fun _ => 0) (pageOf false) 1 fullSplit = some split' ∧
      split'.fBTISplitCausesNoOverflow 10 split'.ilineSplit = some (false, false) := by
  have hsizes : ∀ p ∈ [(2, 9), (2, 2), (2, 2), (2, 2)], p.1 ≤ p.2 ∧ 0 < p.1 := by decide
  have hsizes' : ∀ p ∈ [(2, 5), (2, 10), (2, 5)], p.1 ≤ p.2 ∧ 0 < p.1 := by decide
  have hlast : ∀ line, getLine overflowSplit.rglineinfo 3 = some line → 2 ≤ line.cbSize :=
    fun line hline => by
    have hsize := (getLine_splitOf hline).2 (by decide)
    obtain ⟨hcbSize, -⟩ := Prod.mk.inj (Option.some.inj hsize)
    exact hcbSize.le
  have hsplittable : Splittable (fun _ => 0) (pageOf false) fullSplit :=
    ⟨length_splitOf, by decide, by decide, weights_splitOf, sizesOk_splitOf hsizes',
      existing_splitOf hsizes' (by unfold FitWith; decide +kernel), fun htakes =>
        absurd htakes (by unfold TakesAlone; decide), rfl,
      fun hhot => absurd hhot (by decide)⟩
  obtain ⟨split', candidate, candidateT, hselect, hdebug, heq, hzero, -⟩ :=
    (splitPoint_selected fun _ => 0).1 10 overflowSplit length_splitOf (by decide) weights_splitOf
      (sizesOk_splitOf hsizes) hlast fun htwo => absurd htwo (by decide)
  refine ⟨by decide +kernel, ⟨split', candidate, candidateT, hselect, hdebug, heq, fun hnone => ?_⟩,
    by decide +kernel, (splitPoint_selected fun _ => 0).2 (pageOf false) fullSplit hsplittable 0⟩
  exact absurd (hzero.1 hnone 1 (by decide) (by decide)) (by decide +kernel)

/-- The last of two nodes has one byte. -/
def oneByteSplit : SPLIT := splitOf .splitoperNone 0 [(2, 2), (1, 1)]

/-- One of two nodes does not fit on a page, and it may be the one that is inserted. -/
def largeSplit : SPLIT := splitOf .splitoperInsert 0 [(2, 11), (2, 5)]

/-- A node that does not fit on a page is inserted before the others. -/
def prependSplit : SPLIT := splitOf .splitoperInsert 0 [(2, 11), (2, 5), (2, 5)]

/-- A last node of one byte: half of the size of three bytes is one byte, which is as near to no
line as to the split point, so that the search of all split points takes none. Two nodes of which
one does not fit on a page fail an enforce. And a node that does not fit on a page is left alone on
it where it is inserted before the others. -/
theorem splitPoint_one_byte :
    (Weights (fun _ => 0) oneByteSplit.rglineinfo oneByteSplit.clines ∧
      SizesOk oneByteSplit.rglineinfo oneByteSplit.clines ∧ fitsAt 10 oneByteSplit 1 = some true ∧
      (btiSelectEvenSplit 10 oneByteSplit).map (fun p => p.2.iline) = some 1 ∧
      (btiSelectEvenSplitDebug 10 oneByteSplit).map CANDIDATE.iline = some 0) ∧
    (Weights (fun _ => 0) largeSplit.rglineinfo largeSplit.clines ∧
      SizesOk largeSplit.rglineinfo largeSplit.clines ∧
      Existing (fun _ => 0) 10 (existingLines (pageOf false) largeSplit) ∧
      btiSelectEvenSplit 10 largeSplit = none ∧
      ∀ restarts, btiSelectRightSplit (fun _ => 0) (pageOf false) restarts largeSplit = none) ∧
    Weights (fun _ => 0) prependSplit.rglineinfo prependSplit.clines ∧
      SizesOk prependSplit.rglineinfo prependSplit.clines ∧
      Existing (fun _ => 0) 10 (existingLines (pageOf true) prependSplit) ∧
      ∀ restarts, ∃ split', btiSelectRightSplit (fun _ => 0) (pageOf true) restarts prependSplit =
        some split' ∧
        split'.fBTISplitCausesNoOverflow 10 split'.ilineSplit = some (true, false) := by
  refine ⟨⟨weights_splitOf, sizesOk_splitOf (by decide), by decide +kernel, by decide +kernel,
      by decide +kernel⟩,
    ⟨weights_splitOf, sizesOk_splitOf (by decide),
      existing_splitOf (by decide) (by unfold FitWith; decide +kernel), by
        decide +kernel, fun restarts => ?_⟩,
    weights_splitOf, sizesOk_splitOf (by decide),
    existing_splitOf (by decide) (by unfold FitWith; decide +kernel), fun restarts => ?_⟩
  · have hselect : largeSplit.selectCandidate (pageOf false) false = none := by decide +kernel
    rw [btiSelectRightSplit, if_neg (by decide)]
    cases restarts <;>
    · rw [rightSplitLoop, if_pos (by decide), show largeSplit.fBTIPrependSplit (pageOf false) =
        false from rfl,
        hselect]
      rfl
  · cases restarts with
    | zero => exact ⟨_, rfl, by decide +kernel⟩
    | succ restarts => exact ⟨_, rfl, by decide +kernel⟩

end SPLIT

end Ese.Bt
