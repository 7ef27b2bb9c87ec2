import Ese.Bt.KeyData

/-!
# Seeking in an internal page

The lines of an internal page have strictly growing keys, of which only the last can be null. The
binary search for a bookmark ends at the first line whose key is not below the key and the data of
the bookmark put together, or at the last line; a bookmark that is equal to the key of a line
descends to the line after it.
-/

namespace Ese.Bt

inductive ERR
  | errSuccess
  | wrnNDFoundLess
  | wrnNDFoundGreater
  | errDatabaseCorrupted
  | errOutOfMemory
  deriving DecidableEq, Repr

section
variable (m : Mem)

/-- The key of a line. -/
def keyOf (lines : List KEY) (iline : Nat) : KEY := lines.getD iline ⟨.null, .null⟩

/-- The loop of `IlineNDISeekGEQInternal`, to `ilineMid` and `compare`. -/
def seekLoop (lines : List KEY) (bm : KEYDATA) (ilineFirst ilineLast ilineMid : Nat)
    (compare : Int) : Nat × Int :=
  if ilineFirst ≤ ilineLast then
    let ilineMid := (ilineFirst + ilineLast) / 2
    let compare := cmpKeyWithKeyData m (keyOf lines ilineMid) bm
    if compare < 0 then
      -- look in top half
      seekLoop lines bm (ilineMid + 1) ilineLast ilineMid compare
    else if compare = 0 then (ilineMid, compare)
    else if ilineMid = ilineFirst then (ilineMid, compare)
    else
      -- look in bottom half, the midpoint included
      seekLoop lines bm ilineFirst ilineMid ilineMid compare
  else (ilineMid, compare)
termination_by ilineLast + 1 - ilineFirst
decreasing_by all_goals omega

/-- `IlineNDISeekGEQInternal`, with `*plastCompare`. -/
def ilineNDISeekGEQInternal (lines : List KEY) (bm : KEYDATA) : Nat × Int :=
  let (ilineMid, compare) := seekLoop m lines bm 0 (lines.length - 1) 0 0
  -- a null key is not found although it compares equal
  if compare = 0 ∧ ¬bm.key.fNull then (ilineMid, 0) else (ilineMid, 1)

/-- `ErrNDISeekInternalPage`, with the line of the cursor. -/
def errNDISeekInternalPage (lines : List KEY) (bm : KEYDATA) : Except ERR (ERR × Nat) :=
  let (iline, compare) := ilineNDISeekGEQInternal m lines bm
  if compare = 0 then
    if iline ≥ lines.length - 1 then .error .errDatabaseCorrupted
    else .ok (.errSuccess, iline + 1)
  else .ok (.wrnNDFoundGreater, iline)

/-- `ErrBTISeekSeparatorKey`, to the line where the separator is inserted. -/
def errBTISeekSeparatorKey (lines : List KEY) (key : KEY) : Except ERR Nat := do
  let (err, iline) ← errNDISeekInternalPage m lines ⟨key, .null⟩
  if err = .wrnNDFoundLess then return iline + 1
  return iline

/-- Keys grow strictly, and only the last can be null. -/
structure InternalPage (lines : List KEY) : Prop where
  pos : 0 < lines.length
  notNull : ∀ iline, iline + 1 < lines.length → (keyOf lines iline).bytes m ≠ []
  sorted : ∀ iline iline', iline < iline' → iline' < lines.length →
    (keyOf lines iline').bytes m ≠ [] →
    cmpBytes ((keyOf lines iline).bytes m) ((keyOf lines iline').bytes m) < 0

/-- Where the search ends: past the lines below the bookmark, at the first that is not or at the
last. -/
structure SeekGEQ (lines : List KEY) (bm : KEYDATA) (iline : Nat) (compare : Int) : Prop where
  lt : iline < lines.length
  below : ∀ iline' < iline, cmpKeyWithKeyData m (keyOf lines iline') bm < 0
  compare_eq : compare = cmpKeyWithKeyData m (keyOf lines iline) bm
  last : compare < 0 → iline = lines.length - 1

end

variable {m : Mem} {lines : List KEY} {bm : KEYDATA}

theorem cmp_eq (key : KEY) : cmpKeyWithKeyData m key bm = cmpBytes (key.bytes m) (bm.bytes m) :=
  cmpKeyWithKeyData_eq key bm

/-- A line before one that is below the bookmark, or that is a null key only if it is the last, is
below it. -/
theorem InternalPage.below_of_below (h : InternalPage m lines) {iline iline' : Nat}
    (hlt : iline < iline') (hlen : iline' < lines.length)
    (hnull : (keyOf lines iline').bytes m ≠ [])
    (hbelow : cmpKeyWithKeyData m (keyOf lines iline') bm ≤ 0) :
    cmpKeyWithKeyData m (keyOf lines iline) bm < 0 := by
  rw [cmp_eq] at hbelow ⊢
  exact lexCmp_lt_of_lt_of_le toNat_injective (h.sorted iline iline' hlt hlen hnull) hbelow

/-- The search keeps the lines before `ilineFirst` below the bookmark, and the line `ilineLast`
above it unless it is the last. -/
theorem seekLoop_spec (h : InternalPage m lines) {ilineFirst ilineLast : Nat} (ilineMid : Nat)
    (compare : Int) (hle : ilineFirst ≤ ilineLast) (hlen : ilineLast < lines.length)
    (hfirst : ∀ iline < ilineFirst, cmpKeyWithKeyData m (keyOf lines iline) bm < 0)
    (hlast : 0 < cmpKeyWithKeyData m (keyOf lines ilineLast) bm ∨ ilineLast = lines.length - 1) :
    SeekGEQ m lines bm (seekLoop m lines bm ilineFirst ilineLast ilineMid compare).1
      (seekLoop m lines bm ilineFirst ilineLast ilineMid compare).2 := by
  induction hn : ilineLast + 1 - ilineFirst using Nat.strong_induction_on
    generalizing ilineFirst ilineLast ilineMid compare with
  | _ n ih =>
  rw [seekLoop, if_pos hle]
  dsimp only
  obtain ⟨mid, hmid⟩ : ∃ mid, (ilineFirst + ilineLast) / 2 = mid := ⟨_, rfl⟩
  rw [hmid]
  -- the lines before the midpoint, once it is known not to be above
  have hbefore : cmpKeyWithKeyData m (keyOf lines mid) bm ≤ 0 →
      ∀ iline < mid, cmpKeyWithKeyData m (keyOf lines iline) bm < 0 := by
    intro hcmp iline hlt
    by_cases hin : mid + 1 < lines.length
    · exact h.below_of_below hlt (by omega) (h.notNull mid hin) hcmp
    · exact hfirst iline (by omega)
  split
  · next hneg =>
    have hfirst' : ∀ iline < mid + 1, cmpKeyWithKeyData m (keyOf lines iline) bm < 0 := by
      intro iline hlt
      rcases Nat.lt_succ_iff_lt_or_eq.1 hlt with hlt | rfl
      · exact hbefore hneg.le iline hlt
      · exact hneg
    rcases Nat.lt_or_ge mid ilineLast with hlt | hge
    · exact ih _ (by omega) _ _ hlt hlen hfirst' hlast rfl
    · -- the last line of the range is below: it is the last of the page
      have heq : mid = ilineLast := by omega
      rw [seekLoop, if_neg (by omega)]
      refine ⟨by omega, hbefore hneg.le, rfl, fun _ => ?_⟩
      rcases hlast with hpos | hlast
      · rw [← heq] at hpos
        omega
      · omega
  · next hnneg =>
    split
    · next hz => exact ⟨by omega, hbefore hz.le, rfl, fun hneg => absurd hneg hnneg⟩
    · next hnz =>
      split
      · next heq =>
        exact ⟨by omega, fun iline hlt => hfirst iline (by omega), rfl, fun hneg =>
          absurd hneg hnneg⟩
      · next hne =>
        exact ih _ (by omega) _ _ (by omega) (by omega) hfirst (Or.inl (by omega)) rfl

theorem seek_spec (h : InternalPage m lines) (bm : KEYDATA) :
    ∃ compare, SeekGEQ m lines bm (ilineNDISeekGEQInternal m lines bm).1 compare ∧
      ((ilineNDISeekGEQInternal m lines bm).2 = 0 ↔ compare = 0 ∧ bm.key.bytes m ≠ []) := by
  have hpos := h.pos
  have hloop : SeekGEQ m lines bm (seekLoop m lines bm 0 (lines.length - 1) 0 0).1
      (seekLoop m lines bm 0 (lines.length - 1) 0 0).2 :=
    seekLoop_spec h 0 0 (Nat.zero_le _) (by omega)
      (fun iline hlt => absurd hlt (Nat.not_lt_zero _)) (Or.inr rfl)
  refine ⟨(seekLoop m lines bm 0 (lines.length - 1) 0 0).2, ?_, ?_⟩
  · unfold ilineNDISeekGEQInternal
    dsimp only
    split
    · exact hloop
    · exact hloop
  · unfold ilineNDISeekGEQInternal
    dsimp only
    rw [ne_eq, ← KEY.fNull_iff]
    split
    · next hz => exact ⟨fun _ => hz, fun _ => rfl⟩
    · next hnz => exact ⟨fun h => absurd h Int.one_ne_zero, fun h => absurd h hnz⟩

/-! ## Where a bookmark descends -/

/-- A bookmark below the key of a line descends at that line or before it. -/
theorem seek_le (h : InternalPage m lines) {iline : Nat} (hlt : iline < lines.length)
    (habove : 0 < cmpKeyWithKeyData m (keyOf lines iline) bm) :
    ∃ err iline', errNDISeekInternalPage m lines bm = .ok (err, iline') ∧ iline' ≤ iline := by
  obtain ⟨compare, hseek, hfound⟩ := seek_spec h bm
  have hle : (ilineNDISeekGEQInternal m lines bm).1 ≤ iline := by
    by_contra hgt
    have := hseek.below iline (by omega)
    omega
  unfold errNDISeekInternalPage
  dsimp only
  split
  · next hz =>
    have hne : (ilineNDISeekGEQInternal m lines bm).1 ≠ iline := by
      intro heq
      have hcmp := hseek.compare_eq
      rw [heq, (hfound.1 hz).1] at hcmp
      omega
    rw [if_neg (by omega)]
    exact ⟨_, _, rfl, by omega⟩
  · exact ⟨_, _, rfl, hle⟩

/-- A bookmark that is not below the key of a line descends past it, when the last line of the page
is above the bookmark or is null. -/
theorem seek_gt (h : InternalPage m lines) {iline : Nat} (hlt : iline + 1 < lines.length)
    (hbelow : cmpKeyWithKeyData m (keyOf lines iline) bm ≤ 0) (hnull : bm.key.bytes m ≠ [])
    (hlast : (keyOf lines (lines.length - 1)).bytes m = [] ∨
      0 < cmpKeyWithKeyData m (keyOf lines (lines.length - 1)) bm) :
    ∃ err iline', errNDISeekInternalPage m lines bm = .ok (err, iline') ∧ iline < iline' := by
  obtain ⟨compare, hseek, hfound⟩ := seek_spec h bm
  have hcmp := hseek.compare_eq
  obtain ⟨i, hi⟩ : ∃ i, (ilineNDISeekGEQInternal m lines bm).1 = i := ⟨_, rfl⟩
  rw [hi] at hseek hcmp
  unfold errNDISeekInternalPage
  dsimp only
  rw [hi]
  split
  · next hz =>
    rw [(hfound.1 hz).1] at hcmp
    have hne : i ≠ lines.length - 1 := by
      rintro rfl
      rcases hlast with hempty | hpos
      · rw [cmp_eq, hempty, cmpBytes, lexCmp_nil_left, KEYDATA.bytes, List.length_append] at hcmp
        have := List.length_pos_iff.2 hnull
        omega
      · omega
    have hin := hseek.lt
    rw [if_neg (by omega)]
    refine ⟨_, _, rfl, ?_⟩
    -- a line after an equal one is above
    by_contra hgt
    have hneg : cmpKeyWithKeyData m (keyOf lines i) bm < 0 :=
      h.below_of_below (by omega) (by omega) (h.notNull iline hlt) hbelow
    omega
  · next hnz =>
    refine ⟨_, _, rfl, ?_⟩
    by_contra hle
    rcases Nat.lt_or_eq_of_le (Nat.le_of_not_lt hle) with hlt' | rfl
    · have hneg : cmpKeyWithKeyData m (keyOf lines i) bm < 0 :=
        h.below_of_below hlt' (by omega) (h.notNull iline hlt) hbelow
      have := hseek.last (by omega)
      omega
    · rcases Int.lt_or_eq_of_le hbelow with hneg | hz
      · have := hseek.last (by omega)
        omega
      · exact hnz (hfound.2 ⟨by omega, hnull⟩)

end Ese.Bt
