import Ese.Bt.Separator

/-!
# Seeking in a page

On a leaf page the binary search looks for the first node that is not below a bookmark. It keeps its
upper bound, so a midpoint may be compared twice; the loop ends at an equal node, at a range of one
node that is above, or past the last node. The search in an internal page takes a null key for the
greatest. Both end where the linear searches of the debug build end.
-/

namespace Ese.Bt

section
variable (m : Mem)

def nodeOf (nodes : List KEYDATA) (iline : Nat) : KEYDATA :=
  nodes.getD iline ⟨⟨.null, .null⟩, .null⟩

/-- The bookmark of a node, `NDIGetBookmark`. -/
def bmOf (nodes : List KEYDATA) (fUnique : Bool) (iline : Nat) : KEYDATA :=
  ndGetBookmarkFromKDF fUnique (nodeOf nodes iline)

/-- The loop of `IlineNDISeekGEQ`, to `iline`, `ilineMid` and `compare`; `none` is the enforce of a
node's data. -/
def leafSeekLoop (nodes : List KEYDATA) (bm : KEYDATA) (fUnique : Bool)
    (ilineFirst ilineLast ilineMid : Nat)
    (compare : Int) : Option (Int × Nat × Int) :=
  if ilineFirst ≤ ilineLast then
    let ilineMid := (ilineFirst + ilineLast) / 2
    if (nodeOf nodes ilineMid).data.cb = 0 then none
    else
      let compare := cmpKeyData m (bmOf nodes fUnique ilineMid) bm
      if compare < 0 then
        -- look in top half
        leafSeekLoop nodes bm fUnique (ilineMid + 1) ilineLast ilineMid compare
      else if compare = 0 then some (ilineMid, ilineMid, compare)
      else if ilineMid = ilineFirst then some (ilineMid, ilineMid, compare)
      else
        -- look in bottom half, the midpoint included
        leafSeekLoop nodes bm fUnique ilineFirst ilineMid ilineMid compare
  else some (-1, ilineMid, compare)
termination_by ilineLast + 1 - ilineFirst
decreasing_by all_goals omega

/-- `IlineNDISeekGEQ`, with `*plastCompare`. -/
def ilineNDISeekGEQ (nodes : List KEYDATA) (bm : KEYDATA) (fUnique : Bool) :
    Option (Int × Int) := do
  let (iline, ilineMid, compare) ← leafSeekLoop m nodes bm fUnique 0 (nodes.length - 1) 0 0
  if 0 ≠ compare ∧ 0 = bm.data.cb
    then return (iline, cmpKey m (bmOf nodes fUnique ilineMid).key bm.key)
  else return (iline, compare)

/-- `IlineNDISeekGEQDebug` from `iline` on, with `*plastCompare` where it is set. -/
def ilineNDISeekGEQDebug (nodes : List KEYDATA) (bm : KEYDATA) (fUnique : Bool) (iline : Nat) :
    Int × Option Int :=
  if iline < nodes.length then
    let bmNode := bmOf nodes fUnique iline
    let cmp := cmpKey m bmNode.key bm.key
    if cmp < 0 then ilineNDISeekGEQDebug nodes bm fUnique (iline + 1)
    else if cmp > 0 ∨ bm.data.cb = 0 then (iline, some cmp)
    else
      let cmp := cmpData m bmNode.data bm.data
      if cmp ≥ 0 then (iline, some cmp) else ilineNDISeekGEQDebug nodes bm fUnique (iline + 1)
  else (-1, none)
termination_by nodes.length - iline

/-- `IlineNDISeekGEQInternalDebug` from `iline` on. -/
def ilineNDISeekGEQInternalDebug (lines : List KEY) (bm : KEYDATA) (iline : Nat) : Nat × Int :=
  if iline < lines.length - 1 then
    let compare := cmpKeyWithKeyData m (keyOf lines iline) bm
    if compare < 0 then ilineNDISeekGEQInternalDebug lines bm (iline + 1) else (iline, compare)
  else (iline, 1)
termination_by lines.length - iline

/-- A leaf page: nodes have data, and bookmarks grow strictly. -/
structure LeafPage (nodes : List KEYDATA) (fUnique : Bool) : Prop where
  pos : 0 < nodes.length
  data : ∀ iline < nodes.length, (nodeOf nodes iline).data.cb ≠ 0
  sorted : ∀ iline iline', iline < iline' → iline' < nodes.length →
    cmpKeyData m (bmOf nodes fUnique iline) (bmOf nodes fUnique iline') < 0

/-- The comparison of a node with a search bookmark, by key only when the bookmark has no data. -/
def compareNode (bmNode bm : KEYDATA) : Int :=
  if bm.data.cb = 0 then cmpKey m bmNode.key bm.key else cmpKeyData m bmNode bm

/-- The first node that is not below the bookmark, or the end of the page. -/
def FirstGEQ (nodes : List KEYDATA) (bm : KEYDATA) (fUnique : Bool) (iline : Nat) : Prop :=
  iline ≤ nodes.length ∧ (∀ iline' < iline, cmpKeyData m (bmOf nodes fUnique iline') bm < 0) ∧
    (iline < nodes.length → 0 ≤ cmpKeyData m (bmOf nodes fUnique iline) bm)

/-- Where a search in a leaf page ends, and with which comparison. -/
def LeafSeek (nodes : List KEYDATA) (bm : KEYDATA) (fUnique : Bool) (iline compare : Int) : Prop :=
  (iline = -1 ∧ compare < 0 ∧ ∀ iline' < nodes.length, cmpKeyData m (bmOf nodes fUnique iline') bm <
    0) ∨
  ∃ i < nodes.length, iline = i ∧ FirstGEQ m nodes bm fUnique i ∧
    compare = compareNode m (bmOf nodes fUnique i) bm

/-- Where a search in an internal page ends: at the first line whose key is null or not below the
bookmark, with equality reported for a bookmark with a key that is the key of the line. -/
def InternalSeek (lines : List KEY) (bm : KEYDATA) (iline : Nat) (compare : Int) : Prop :=
  iline < lines.length ∧
  (∀ iline' < iline, (keyOf lines iline').bytes m ≠ [] ∧
    cmpKeyWithKeyData m (keyOf lines iline') bm < 0) ∧
  ((keyOf lines iline).bytes m = [] ∨ 0 ≤ cmpKeyWithKeyData m (keyOf lines iline) bm) ∧
  (compare = 0 ∨ compare = 1) ∧
  (compare = 0 ↔ (keyOf lines iline).bytes m = bm.bytes m ∧ bm.key.bytes m ≠ [])

end

variable {m : Mem} {nodes : List KEYDATA} {bm : KEYDATA} {fUnique : Bool}

/-! ## Bookmarks in order -/

theorem cmpKeyData_neg_iff {bm1 bm2 : KEYDATA} :
    cmpKeyData m bm1 bm2 < 0 ↔ cmpBytes (bm1.key.bytes m) (bm2.key.bytes m) < 0 ∨
      bm1.key.bytes m = bm2.key.bytes m ∧ cmpBytes (bm1.data.bytes m) (bm2.data.bytes m) < 0 := by
  rw [cmpKeyData, cmpKey_eq, cmpData_eq]
  split
  · next hz =>
    have he := eq_of_lexCmp_eq_zero toNat_injective hz
    rw [hz]
    simp [he]
  · next hnz =>
    refine ⟨Or.inl, ?_⟩
    rintro (hlt | ⟨he, -⟩)
    · exact hlt
    · exact absurd (by rw [he, cmpBytes, lexCmp_self]) hnz

theorem cmpKeyData_eq_zero_iff {bm1 bm2 : KEYDATA} :
    cmpKeyData m bm1 bm2 = 0 ↔ bm1.key.bytes m = bm2.key.bytes m ∧
      bm1.data.bytes m = bm2.data.bytes m := by
  rw [cmpKeyData, cmpKey_eq, cmpData_eq]
  constructor
  · intro h
    split at h
    · next hz =>
        exact ⟨eq_of_lexCmp_eq_zero toNat_injective hz, eq_of_lexCmp_eq_zero toNat_injective h⟩
    · next hnz => exact absurd h hnz
  · rintro ⟨hk, hd⟩
    rw [hk, hd, cmpBytes, cmpBytes, lexCmp_self, lexCmp_self]
    rfl

/-- A bookmark below one that is not above a third is below the third. -/
theorem cmpKeyData_lt_of_lt_of_le {bm1 bm2 bm3 : KEYDATA} (h : cmpKeyData m bm1 bm2 < 0)
    (h' : cmpKeyData m bm2 bm3 ≤ 0) : cmpKeyData m bm1 bm3 < 0 := by
  rcases Int.lt_or_eq_of_le h' with hlt | heq
  · rw [cmpKeyData_neg_iff] at h hlt ⊢
    rcases h with hk | ⟨hk, hd⟩
    · rcases hlt with hk' | ⟨hk', -⟩
      · exact Or.inl (lexCmp_lt_of_le_of_lt toNat_injective (Int.le_of_lt hk) hk')
      · exact Or.inl (hk' ▸ hk)
    · rcases hlt with hk' | ⟨hk', hd'⟩
      · exact Or.inl (hk ▸ hk')
      · exact Or.inr ⟨hk.trans hk', lexCmp_lt_of_le_of_lt toNat_injective (Int.le_of_lt hd) hd'⟩
  · obtain ⟨hk, hd⟩ := cmpKeyData_eq_zero_iff.1 heq
    rw [cmpKeyData_neg_iff] at h ⊢
    rwa [← hk, ← hd]

/-- Without data in the search bookmark the key decides, unless both are equal. -/
theorem cmpKey_eq_zero_of_cmpKeyData {bm1 bm2 : KEYDATA} (h : cmpKeyData m bm1 bm2 = 0) :
    cmpKey m bm1.key bm2.key = 0 := by
  rw [cmpKey_eq, (cmpKeyData_eq_zero_iff.1 h).1, cmpBytes, lexCmp_self]

/-- A node below a bookmark is below it in the comparison that is reported. -/
theorem compareNode_neg {bmNode : KEYDATA} (h : cmpKeyData m bmNode bm < 0) :
    compareNode m bmNode bm < 0 := by
  rw [compareNode]
  split
  · next hdata =>
    rw [cmpKey_eq]
    rcases cmpKeyData_neg_iff.1 h with hk | ⟨-, hd⟩
    · exact hk
    · rw [DATA_bytes_nil hdata, cmpBytes, lexCmp_nil_right] at hd
      omega
  · exact h

/-! ## The leaf page -/

theorem LeafPage.below_of_below (h : LeafPage m nodes fUnique) {iline iline' : Nat}
    (hlt : iline < iline')
    (hlen : iline' < nodes.length) (hbelow : cmpKeyData m (bmOf nodes fUnique iline') bm ≤ 0) :
    cmpKeyData m (bmOf nodes fUnique iline) bm < 0 :=
  cmpKeyData_lt_of_lt_of_le (h.sorted iline iline' hlt hlen) hbelow

variable (bm) in
/-- The search keeps the nodes before `ilineFirst` below the bookmark, and the node `ilineLast`
above it unless it is the last of the page. -/
theorem leafSeekLoop_spec (h : LeafPage m nodes fUnique) {ilineFirst ilineLast : Nat}
    (ilineMid : Nat) (compare : Int)
    (hle : ilineFirst ≤ ilineLast) (hlen : ilineLast < nodes.length)
    (hfirst : ∀ iline < ilineFirst, cmpKeyData m (bmOf nodes fUnique iline) bm < 0)
    (hlast : 0 < cmpKeyData m (bmOf nodes fUnique ilineLast) bm ∨ ilineLast = nodes.length - 1) :
    ∃ iline ilineMid' compare',
      leafSeekLoop m nodes bm fUnique ilineFirst ilineLast ilineMid compare =
      some (iline, ilineMid', compare') ∧
      ilineMid' < nodes.length ∧ compare' = cmpKeyData m (bmOf nodes fUnique ilineMid') bm ∧
      (iline = -1 ∧ ilineMid' + 1 = nodes.length ∧
        (∀ i < nodes.length, cmpKeyData m (bmOf nodes fUnique i) bm < 0) ∨
        iline = ilineMid' ∧ FirstGEQ m nodes bm fUnique ilineMid') := by
  induction hn : ilineLast + 1 - ilineFirst using Nat.strong_induction_on
    generalizing ilineFirst ilineLast ilineMid compare with
  | _ n ih =>
  rw [leafSeekLoop, if_pos hle]
  dsimp only
  obtain ⟨mid, hmid⟩ : ∃ mid, (ilineFirst + ilineLast) / 2 = mid := ⟨_, rfl⟩
  rw [hmid, if_neg (h.data mid (by omega))]
  -- the nodes before the midpoint, once it is known not to be above
  have hbefore : cmpKeyData m (bmOf nodes fUnique mid) bm ≤ 0 →
      ∀ iline < mid, cmpKeyData m (bmOf nodes fUnique iline) bm < 0 :=
    fun hcmp iline hlt => h.below_of_below hlt (by omega) hcmp
  split
  · next hneg =>
    have hfirst' : ∀ iline < mid + 1, cmpKeyData m (bmOf nodes fUnique iline) bm < 0 := by
      intro iline hlt
      rcases Nat.lt_succ_iff_lt_or_eq.1 hlt with hlt | rfl
      · exact hbefore hneg.le iline hlt
      · exact hneg
    rcases Nat.lt_or_ge mid ilineLast with hlt | hge
    · exact ih _ (by omega) _ _ hlt hlen hfirst' hlast rfl
    · -- the last node of the range is below: it is the last of the page
      have heq : mid = ilineLast := by omega
      have hpage : ilineLast = nodes.length - 1 := by
        rcases hlast with hpos | hlast
        · rw [← heq] at hpos
          omega
        · exact hlast
      rw [leafSeekLoop, if_neg (by omega)]
      exact ⟨_, _, _, rfl, by omega, rfl, Or.inl ⟨rfl, by omega, fun i hi => hfirst' i (by omega)⟩⟩
  · next hnneg =>
    split
    · next hz =>
      exact ⟨_, _, _, rfl, by omega, rfl, Or.inr ⟨rfl, by omega, hbefore hz.le, fun _ => hz.ge⟩⟩
    · next hnz =>
      split
      · next heq =>
        exact ⟨_, _, _, rfl, by omega, rfl,
          Or.inr ⟨rfl, by omega, fun iline hlt => hfirst iline (by omega), fun _ => by omega⟩⟩
      · next hne =>
        exact ih _ (by omega) _ _ (by omega) (by omega) hfirst (Or.inl (by omega)) rfl

/-- The search in a leaf page. -/
theorem leafSeek_spec (h : LeafPage m nodes fUnique) (bm : KEYDATA) :
    ∃ iline compare, ilineNDISeekGEQ m nodes bm fUnique = some (iline, compare) ∧
      LeafSeek m nodes bm fUnique iline compare := by
  have hpos := h.pos
  obtain ⟨iline, ilineMid, compare, hloop, hmid, hcmp, hend⟩ :=
    leafSeekLoop_spec bm h 0 0 (Nat.zero_le _)
    (show nodes.length - 1 < nodes.length by omega)
    (fun iline hlt => absurd hlt (Nat.not_lt_zero _)) (Or.inr rfl)
  rw [ilineNDISeekGEQ, hloop]
  -- the comparison that is returned is that of the last node compared
  have hresult : ∃ compare', (if 0 ≠ compare ∧ 0 = bm.data.cb then
        some (iline, cmpKey m (bmOf nodes fUnique ilineMid).key bm.key) else some (iline, compare))
      = some (iline, compare') ∧ compare' = compareNode m (bmOf nodes fUnique ilineMid) bm := by
    rw [compareNode]
    by_cases hdata : bm.data.cb = 0
    · rw [if_pos hdata]
      by_cases hz : compare = 0
      · rw [if_neg fun hc => hc.1 hz.symm]
        exact ⟨_, rfl, by rw [hz, cmpKey_eq_zero_of_cmpKeyData (hcmp.symm.trans hz)]⟩
      · rw [if_pos ⟨Ne.symm hz, hdata.symm⟩]
        exact ⟨_, rfl, rfl⟩
    · rw [if_neg hdata, if_neg fun hc => hdata hc.2.symm]
      exact ⟨_, rfl, hcmp⟩
  obtain ⟨compare', hres, hcmp'⟩ := hresult
  refine ⟨iline, compare', hres, ?_⟩
  rcases hend with ⟨hiline, -, hall⟩ | ⟨hiline, hfirst⟩
  · exact Or.inl ⟨hiline, hcmp' ▸ compareNode_neg (hall ilineMid hmid), hall⟩
  · exact Or.inr ⟨ilineMid, hmid, hiline, hfirst, hcmp'⟩

/-! ## The linear searches -/

/-- The linear search goes on past a node below the bookmark. -/
theorem ilineNDISeekGEQDebug_below {iline : Nat} (hlt : iline < nodes.length)
    (h : cmpKeyData m (bmOf nodes fUnique iline) bm < 0) :
    ilineNDISeekGEQDebug m nodes bm fUnique iline = ilineNDISeekGEQDebug m nodes bm fUnique
      (iline + 1) := by
  conv => lhs; rw [ilineNDISeekGEQDebug]
  rw [if_pos hlt]
  dsimp only
  split
  · rfl
  · next hk =>
    rw [cmpKeyData] at h
    split at h
    · next hz =>
      have hdata : bm.data.cb ≠ 0 := fun hdata => by
        rw [cmpData_eq, DATA_bytes_nil hdata, cmpBytes, lexCmp_nil_right] at h
        omega
      rw [if_neg (by omega), if_neg (by omega)]
    · exact absurd h hk

/-- It stops at a node that is not below, with the comparison that is reported. -/
theorem ilineNDISeekGEQDebug_stop {iline : Nat} (hlt : iline < nodes.length)
    (h : 0 ≤ cmpKeyData m (bmOf nodes fUnique iline) bm) :
    ilineNDISeekGEQDebug m nodes bm fUnique iline
      = ((iline : Int), some (compareNode m (bmOf nodes fUnique iline) bm)) := by
  rw [ilineNDISeekGEQDebug, if_pos hlt, compareNode]
  rw [cmpKeyData] at h ⊢
  dsimp only
  by_cases hz : cmpKey m (bmOf nodes fUnique iline).key bm.key = 0
  · rw [if_pos hz] at h ⊢
    rw [if_neg (by omega)]
    by_cases hdata : bm.data.cb = 0
    · rw [if_pos (Or.inr hdata), if_pos hdata]
    · rw [if_neg (by omega), if_pos h, if_neg hdata]
  · rw [if_neg hz] at h ⊢
    rw [if_neg (by omega), if_pos (Or.inl (by omega)), ite_self]

/-- Both searches in a leaf page end at the same node, with the same comparison. -/
theorem leafSeek_eq_debug (h : LeafPage m nodes fUnique) (bm : KEYDATA) :
    ∃ iline compare, ilineNDISeekGEQ m nodes bm fUnique = some (iline, compare) ∧
      ilineNDISeekGEQDebug m nodes bm fUnique 0 =
        (iline, if iline = -1 then none else some compare) := by
  obtain ⟨iline, compare, hseek, hspec⟩ := leafSeek_spec h bm
  refine ⟨iline, compare, hseek, ?_⟩
  have hskip : ∀ i ≤ nodes.length, (∀ j < i, cmpKeyData m (bmOf nodes fUnique j) bm < 0) →
      ilineNDISeekGEQDebug m nodes bm fUnique 0 = ilineNDISeekGEQDebug m nodes bm fUnique i := by
    intro i
    induction i with
    | zero => exact fun _ _ => rfl
    | succ i ih =>
      intro hle hbelow
      rw [ih (by omega) fun j hj => hbelow j (Nat.lt_succ_of_lt hj), ilineNDISeekGEQDebug_below hle
        (hbelow i (by omega))]
  rcases hspec with ⟨rfl, -, hall⟩ | ⟨i, hi, rfl, ⟨-, hbelow, hge⟩, rfl⟩
  · rw [hskip nodes.length (Nat.le_refl _) hall, ilineNDISeekGEQDebug, if_neg (Nat.lt_irrefl _),
      if_pos rfl]
  · rw [hskip i (by omega) hbelow, ilineNDISeekGEQDebug_stop hi (hge hi), if_neg (by omega)]

/-! ## The internal page -/

section
variable {lines : List KEY} (h : InternalPage m lines)
    (hnull : (keyOf lines (lines.length - 1)).bytes m = [])
include h hnull

/-- The search in an internal page. -/
theorem internalSeek_spec (bm : KEYDATA) :
    InternalSeek m lines bm (ilineNDISeekGEQInternal m lines bm).1
      (ilineNDISeekGEQInternal m lines bm).2 := by
  obtain ⟨compare, hseek, hfound⟩ := seek_spec h bm
  have hcmp := hseek.compare_eq
  refine ⟨hseek.lt, fun iline' hlt => ⟨h.notNull iline' ?_, hseek.below iline' hlt⟩, ?_, ?_, ?_⟩
  · have := hseek.lt
    omega
  · rcases lt_or_ge compare 0 with hneg | hge
    · rw [hseek.last hneg]
      exact Or.inl hnull
    · exact Or.inr (hcmp ▸ hge)
  · rw [ilineNDISeekGEQInternal]
    dsimp only
    split
    · exact Or.inl rfl
    · exact Or.inr rfl
  · rw [hfound, hcmp, cmp_eq]
    refine and_congr_left' ⟨fun hz => eq_of_lexCmp_eq_zero toNat_injective hz, fun he => ?_⟩
    rw [he, cmpBytes, lexCmp_self]

/-- Both searches in an internal page end at the same line. -/
theorem internalSeek_eq_debug (bm : KEYDATA) :
    (ilineNDISeekGEQInternalDebug m lines bm 0).1 = (ilineNDISeekGEQInternal m lines bm).1 := by
  obtain ⟨hlt, hbelow, hstop, -, -⟩ := internalSeek_spec h hnull bm
  generalize (ilineNDISeekGEQInternal m lines bm).1 = i at hlt hbelow hstop ⊢
  have hskip : ∀ j ≤ i, ilineNDISeekGEQInternalDebug m lines bm 0 =
    ilineNDISeekGEQInternalDebug m lines bm j := by
    intro j
    induction j with
    | zero => exact fun _ => rfl
    | succ j ih =>
      intro hle
      rw [ih (by omega), ilineNDISeekGEQInternalDebug, if_pos (by omega)]
      dsimp only
      rw [if_pos (hbelow j (by omega)).2]
  rw [hskip i (Nat.le_refl _), ilineNDISeekGEQInternalDebug]
  split
  · next hlast =>
    dsimp only
    rw [if_neg]
    rcases hstop with hempty | hge
    · exact absurd hempty (h.notNull i (by omega))
    · omega
  · rfl

end

/-- The searches in a page end where a linear search does: in a leaf page at the first node not
below the bookmark, or nowhere; in an internal page, whose last key is null, at the first line whose
key is null or not below it. -/
theorem seek_firstGEQ (m : Mem) :
    (∀ (nodes : List KEYDATA) (fUnique : Bool) (bm : KEYDATA), LeafPage m nodes fUnique →
      ∃ iline compare, ilineNDISeekGEQ m nodes bm fUnique = some (iline, compare) ∧
        LeafSeek m nodes bm fUnique iline compare) ∧
    ∀ (lines : List KEY) (bm : KEYDATA), InternalPage m lines →
      (keyOf lines (lines.length - 1)).bytes m = [] →
      InternalSeek m lines bm (ilineNDISeekGEQInternal m lines bm).1
        (ilineNDISeekGEQInternal m lines bm).2 :=
  ⟨fun _ _ bm h => leafSeek_spec h bm, fun _ bm h hnull => internalSeek_spec h hnull bm⟩

/-- A leaf page of two nodes with equal keys and other data, and an internal page of one key and the
null key. -/
theorem seek_firstGEQ_two :
    (∃ iline compare, ilineNDISeekGEQ (fun i => BitVec.ofNat 8 i)
        [⟨⟨.null, ⟨5, 1⟩⟩, ⟨1, 1⟩⟩, ⟨⟨.null, ⟨5, 1⟩⟩, ⟨2, 1⟩⟩] ⟨⟨.null, ⟨5, 1⟩⟩, .null⟩ false =
        some (iline, compare) ∧
      LeafSeek (fun i => BitVec.ofNat 8 i) [⟨⟨.null, ⟨5, 1⟩⟩, ⟨1, 1⟩⟩, ⟨⟨.null, ⟨5, 1⟩⟩, ⟨2, 1⟩⟩]
        ⟨⟨.null, ⟨5, 1⟩⟩, .null⟩ false iline compare) ∧
    InternalSeek (fun i => BitVec.ofNat 8 i) [⟨.null, ⟨5, 1⟩⟩, ⟨.null, .null⟩]
      ⟨⟨.null, ⟨5, 1⟩⟩, .null⟩
      (ilineNDISeekGEQInternal (fun i => BitVec.ofNat 8 i) [⟨.null, ⟨5, 1⟩⟩, ⟨.null, .null⟩]
        ⟨⟨.null, ⟨5, 1⟩⟩, .null⟩).1
      (ilineNDISeekGEQInternal (fun i => BitVec.ofNat 8 i) [⟨.null, ⟨5, 1⟩⟩, ⟨.null, .null⟩]
        ⟨⟨.null, ⟨5, 1⟩⟩, .null⟩).2 := by
  refine ⟨(seek_firstGEQ fun i => BitVec.ofNat 8 i).1 _ _ _ ⟨by decide, by decide, fun i j hij hj =>
    ?_⟩,
    (seek_firstGEQ fun i => BitVec.ofNat 8 i).2 _ _
    ⟨by decide, fun i hi => ?_, fun i j hij hj hne => ?_⟩ (by decide)⟩
  · change j < 2 at hj
    obtain ⟨rfl, rfl⟩ : i = 0 ∧ j = 1 := by omega
    decide
  · change i + 1 < 2 at hi
    obtain rfl : i = 0 := by omega
    decide
  · change j < 2 at hj
    obtain ⟨rfl, rfl⟩ : i = 0 ∧ j = 1 := by omega
    exact absurd rfl hne

end Ese.Bt
