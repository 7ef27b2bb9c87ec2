import Ese.Page.OverlapBitmap

/-!
# Checking the integrity of a page

`ErrCheckPage` with `CheckTagsNonOverlapping`: the header, then each tag with its range in the
overlap bitmap, then the space of the page as a whole. The page is in a buffer of its own size.
Offsets count from the start of the data area, so the tests for a line that starts or ends below it,
and for a tag array entry off the page, cannot fail; they are left out.
-/

namespace Ese

/-- The page is empty. -/
def fPageEmpty : BitVec 32 := 0x0008

/-- The page was repaired. -/
def fPageRepair : BitVec 32 := 0x0010

/-- The page is of a secondary index. -/
def fPageIndex : BitVec 32 := 0x0040

/-- The page is of a long value tree. -/
def fPageLongValue : BitVec 32 := 0x0080

/-- The page has the new record format. -/
def fPageNewRecordFormat : BitVec 32 := 0x0800

/-- The page has the new checksum format. -/
def fPageNewChecksumFormat : BitVec 32 := 0x2000

/-- The flush type of the page. -/
def maskFlushType : BitVec 32 := 0x18000

/-- The page is not initialized yet. -/
def fPagePreInit : BitVec 32 := 0x20000

/-- The corruptions `ErrCheckPage` reports, in the order of its tests. -/
inductive PageCorruption where
  | CbFreeTooLarge
  | CbUncommittedFreeTooLarge
  | ibMicFreeTooLarge
  | itagMicFreeTooLarge
  | EmptyAndPreInitFlagsNotSet
  | TagArrayWalkingOntoPghdr
  | TagArrayTooBigToLeaveDataRoom
  | PageEmptyAndPagePreInitFlagsBothSet
  | PreInitPageFlagSetWithInvalidFlags
  | CorruptFlagsMixedIndexPrimary
  | CorruptFlagsMixedIndexLv
  | RepairedPage
  | ZeroLengthIline
  | TagInFreeSpace
  | TagBeyondEndOfPage
  | LineEntirelyAboveDataSection
  | LineEndsAboveDataSection
  | GetLineFailed
  | TagsOverlap
  | SpaceSizeMismatch
  deriving DecidableEq, Repr

/-- A page with the other fields of its header that are checked. -/
structure PageImage where
  page : CPage
  fFlags : BitVec 32
  cbUncommittedFree : Nat
  pgnoPrev : Nat
  pgnoNext : Nat

/-- `g_fRepair`, and whether the build is a debug build. -/
structure CheckEnv where
  g_fRepair : Bool
  fDebug : Bool

namespace PageImage

variable (env : CheckEnv) (img : PageImage)

/-- Whether the page has the flag. -/
def fFlag (f : BitVec 32) : Bool := img.fFlags &&& f ≠ 0

/-- `FEmptyPage`. -/
def fEmptyPage : Bool := img.fFlag fPageEmpty

/-- `FPreInitPage`. -/
def fPreInitPage : Bool := img.fFlag fPagePreInit

/-- `FIndexPage`. -/
def fIndexPage : Bool := img.fFlag fPageIndex

/-- `FPrimaryPage`. -/
def fPrimaryPage : Bool := !img.fIndexPage && !img.fPreInitPage

/-- `FLongValuePage`. -/
def fLongValuePage : Bool := img.fFlag fPageLongValue

/-- `FRepairedPage`. -/
def fRepairedPage : Bool := img.fFlag fPageRepair

/-- `FNewRecordFormat`. -/
def fNewRecordFormat : Bool := img.fFlag fPageNewRecordFormat

/-- `PbDataEnd_`: the last byte in front of the tag array. -/
def pbDataEnd_ : Int := (img.page.cbPageData : Int) - img.page.cbTagArray_ - 1

/-- The tests of the header. -/
def headerCorruption : Option PageCorruption :=
  let p := img.page
  if p.cbPageData < p.cbFree then some .CbFreeTooLarge
  else if p.cbFree < img.cbUncommittedFree then some .CbUncommittedFreeTooLarge
  else if p.cbPageData < p.ibMicFree then some .ibMicFreeTooLarge
  else if p.cbPageData / CPage.cbTag ≤ p.itagMicFree then some .itagMicFreeTooLarge
  else if p.itagMicFree = 0 ∧ !img.fEmptyPage ∧ !img.fPreInitPage
    then some .EmptyAndPreInitFlagsNotSet
  else if img.pbDataEnd_ ≤ 1 then some .TagArrayWalkingOntoPghdr
  else if 0 < p.itagMicFree ∧ img.pbDataEnd_ - ((p.itagMicFree : Int) - 1) * 4 < 0 then
    some .TagArrayTooBigToLeaveDataRoom
  else if img.fEmptyPage ∧ img.fPreInitPage then some .PageEmptyAndPagePreInitFlagsBothSet
  else if img.fPreInitPage ∧
      (p.itagMicFree ≠ 0 ∨ !img.fNewRecordFormat ∨
        img.fFlags &&& ~~~fPagePreInit &&& ~~~fPageNewRecordFormat &&& ~~~fPageNewChecksumFormat &&&
          ~~~maskFlushType
          ≠ 0 ∨
        img.pgnoPrev ≠ 0 ∨ img.pgnoNext ≠ 0) then some .PreInitPageFlagSetWithInvalidFlags
  else if img.fIndexPage ∧ img.fPrimaryPage then some .CorruptFlagsMixedIndexPrimary
  else if img.fLongValuePage ∧ img.fIndexPage then some .CorruptFlagsMixedIndexLv
  else if img.fRepairedPage ∧ !env.g_fRepair then some .RepairedPage
  else none

/-- The tests of a tag. Those of its line against the data area are errors in a debug build only. -/
def tagCorruption (itag : Nat) : Option PageCorruption :=
  let p := img.page
  let ib := p.ib itag
  let cb := p.cb itag
  if cb = 0 then if itag < p.ctagReserved then none else some .ZeroLengthIline
  else if p.ibMicFree < ib + cb then some .TagInFreeSpace
  else if p.size.cbPage ≤ ib ∨ p.size.cbPage ≤ cb ∨ p.size.cbPage ≤ ib + cb
    then some .TagBeyondEndOfPage
  else if env.fDebug ∧ img.pbDataEnd_ < ib then some .LineEntirelyAboveDataSection
  else if env.fDebug ∧ img.pbDataEnd_ < ib + cb - 1 then some .LineEndsAboveDataSection
  else if env.fDebug ∧ (img.pbDataEnd_ < ib + cb - 1 ∨ img.pbDataEnd_ ≤ ib) then some .GetLineFailed
  else none

/-- The locals of the loop over the tags. -/
structure CheckLoop where
  cbTotal : Nat
  bitmap : OverlapBitmap

/-- A turn of the loop over the tags: the tag by itself, then its bytes in the bitmap. -/
def checkTag (s : CheckLoop) (itag : Nat) : Except PageCorruption CheckLoop :=
  match img.tagCorruption env itag with
  | some corruption => .error corruption
  | none =>
    let cb := img.page.cb itag
    let s := { s with cbTotal := s.cbTotal + cb }
    if cb = 0 then .ok s else .ok { s with bitmap := s.bitmap.setRange (img.page.ib itag) cb }

/-- The loop over the tags below `itagMicFree`. -/
def checkTags (itagMicFree : Nat) : Except PageCorruption CheckLoop :=
  (List.range itagMicFree).foldlM (img.checkTag env) ⟨0, ⟨fun _ => 0, 0⟩⟩

/-- `ErrCheckPage` with `CheckTagsNonOverlapping`, its bitmap allocated. -/
def errCheckPage : Except PageCorruption Unit :=
  match img.headerCorruption env with
  | some corruption => .error corruption
  | none => do
    let s ← img.checkTags env img.page.itagMicFree
    if s.bitmap.dwOverlaps ≠ 0 then .error .TagsOverlap
    else if s.cbTotal + img.page.cbFree + img.page.cbTagArray_ ≠ img.page.cbPageData
      then .error .SpaceSizeMismatch
    else .ok ()

end PageImage

/-! ## The bitmap of a page -/

namespace CPage

variable (p : CPage)

/-- The bitmap after the tags below `n`. -/
def overlapBitmap (n : Nat) : OverlapBitmap :=
  (List.range n).foldl (fun m itag => m.setRange (p.ib itag) (p.cb itag)) ⟨fun _ => 0, 0⟩

/-- Byte `b` is in the range of tag `itag`. -/
def InTag (itag b : Nat) : Prop := p.ib itag ≤ b ∧ b < p.ib itag + p.cb itag

/-- No byte is in the ranges of two tags. -/
def TagsDisjoint : Prop := ∀ i j, i < j → j < p.itagMicFree → ∀ b, ¬(p.InTag i b ∧ p.InTag j b)

/-- Two of the tags below `n` mark the same byte. -/
def MarksShared (n : Nat) : Prop :=
  ∃ i j, i < j ∧ j < n ∧ ∃ b,
    OverlapBitmap.MarkedBy (p.ib i) (p.cb i) b ∧ OverlapBitmap.MarkedBy (p.ib j) (p.cb j) b

/-- The bits of the bitmap and its overlaps, tag by tag. -/
theorem overlapBitmap_spec (n : Nat) :
    (∀ b, (p.overlapBitmap n).Marked b ↔ ∃ i < n, OverlapBitmap.MarkedBy (p.ib i) (p.cb i) b) ∧
      ((p.overlapBitmap n).dwOverlaps ≠ 0 ↔ p.MarksShared n) := by
  induction n with
  | zero =>
    refine ⟨fun b => ⟨fun h => ?_, fun ⟨i, hi, _⟩ => absurd hi (Nat.not_lt_zero i)⟩,
      ⟨fun h => absurd rfl h, fun ⟨i, j, _, hj, _⟩ => absurd hj (Nat.not_lt_zero j)⟩⟩
    exact absurd (BitVec.getLsbD_zero.symm.trans h) Bool.false_ne_true
  | succ n ih =>
    obtain ⟨hmarked, hover⟩ := ih
    have hstep := OverlapBitmap.marks_setRange (m := p.overlapBitmap n) (p.ib n) (p.cb n)
    have hsucc : p.overlapBitmap (n + 1) = (p.overlapBitmap n).setRange (p.ib n) (p.cb n) := by
      rw [overlapBitmap, List.range_succ, List.foldl_append]
      rfl
    rw [hsucc]
    constructor
    · intro b
      rw [hstep.marked, hmarked]
      constructor
      · rintro (⟨i, hi, hb⟩ | hb)
        · exact ⟨i, Nat.lt_succ_of_lt hi, hb⟩
        · exact ⟨n, Nat.lt_succ_self n, hb⟩
      · rintro ⟨i, hi, hb⟩
        rcases Nat.lt_succ_iff_lt_or_eq.1 hi with hi | rfl
        · exact Or.inl ⟨i, hi, hb⟩
        · exact Or.inr hb
    · rw [hstep.overlaps, hover]
      constructor
      · rintro (⟨i, j, hij, hj, hb⟩ | ⟨b, hb, hm⟩)
        · exact ⟨i, j, hij, Nat.lt_succ_of_lt hj, hb⟩
        · obtain ⟨i, hi, hbi⟩ := (hmarked b).1 hm
          exact ⟨i, n, hi, Nat.lt_succ_self n, b, hbi, hb⟩
      · rintro ⟨i, j, hij, hj, b, hbi, hbj⟩
        rcases Nat.lt_succ_iff_lt_or_eq.1 hj with hj | rfl
        · exact Or.inl ⟨i, j, hij, hj, b, hbi, hbj⟩
        · exact Or.inr ⟨b, hbj, (hmarked b).2 ⟨i, hij, hbi⟩⟩

/-- What a range marks is in the range. -/
theorem MarksShared.not_tagsDisjoint (h : p.MarksShared p.itagMicFree) : ¬p.TagsDisjoint := by
  obtain ⟨i, j, hij, hj, b, hbi, hbj⟩ := h
  exact fun hdisj => hdisj i j hij hj b ⟨⟨hbi.1, hbi.2.1⟩, hbj.1, hbj.2.1⟩

end CPage

/-! ## What the check accepts -/

namespace PageImage

variable (env : CheckEnv) (img : PageImage)

/-- Every test but that of the bitmap passes. -/
structure OtherChecks : Prop where
  header : img.headerCorruption env = none
  tags : ∀ itag < img.page.itagMicFree, img.tagCorruption env itag = none
  space : ((List.range img.page.itagMicFree).map img.page.cb).sum + img.page.cbFree +
    img.page.cbTagArray_
    = img.page.cbPageData

variable {env img}

/-- A turn of the loop. -/
theorem checkTag_ok {s : CheckLoop} {itag : Nat} (h : img.tagCorruption env itag = none) :
    img.checkTag env s itag
      = .ok ⟨s.cbTotal + img.page.cb itag, s.bitmap.setRange (img.page.ib itag)
        (img.page.cb itag)⟩ := by
  rw [checkTag, h]
  dsimp only
  split
  · next hcb =>
    have hnone : s.bitmap.setRange (img.page.ib itag) 0 = s.bitmap := by
      have := Nat.mod_lt (img.page.ib itag) (show 0 < 32 by decide)
      rw [OverlapBitmap.setRange, OverlapBitmap.setWords, if_neg (by omega)]
      rfl
    rw [hcb, hnone]
  · rfl

/-- The loop over tags that pass their tests. -/
theorem checkTags_ok {n : Nat} (h : ∀ itag < n, img.tagCorruption env itag = none) :
    img.checkTags env n = .ok ⟨((List.range n).map img.page.cb).sum, img.page.overlapBitmap n⟩ := by
  induction n with
  | zero => rfl
  | succ n ih =>
    have hprev := ih fun itag hlt => h itag (Nat.lt_succ_of_lt hlt)
    rw [checkTags] at hprev ⊢
    rw [List.range_succ, List.foldlM_append, hprev, List.map_append, List.sum_append]
    show img.checkTag env _ n >>= pure = _
    rw [bind_pure, checkTag_ok (h n (Nat.lt_succ_self n)), CPage.overlapBitmap, CPage.overlapBitmap,
      List.range_succ,
      List.foldl_append]
    rfl

/-- The loop ends at the first tag that fails a test. -/
theorem checkTags_error {n : Nat} (h : ¬∀ itag < n, img.tagCorruption env itag = none) :
    ∃ corruption, img.checkTags env n = .error corruption := by
  induction n with
  | zero => exact absurd (fun itag hlt => absurd hlt (Nat.not_lt_zero itag)) h
  | succ n ih =>
    rw [checkTags, List.range_succ, List.foldlM_append]
    by_cases hprev : ∀ itag < n, img.tagCorruption env itag = none
    · have hok := checkTags_ok hprev
      rw [checkTags] at hok
      rw [hok]
      cases hn : img.tagCorruption env n with
      | none =>
        refine absurd (fun itag hlt => ?_) h
        rcases Nat.lt_succ_iff_lt_or_eq.1 hlt with hlt | rfl
        · exact hprev itag hlt
        · exact hn
      | some corruption =>
        refine ⟨corruption, ?_⟩
        show img.checkTag env _ n >>= pure = _
        rw [bind_pure, checkTag, hn]
    · obtain ⟨corruption, herr⟩ := ih hprev
      rw [checkTags] at herr
      rw [herr]
      exact ⟨corruption, rfl⟩

/-- A page is accepted when its other tests pass and no two of its tags mark the same byte. -/
theorem errCheckPage_ok_iff :
    img.errCheckPage env = .ok () ↔ img.OtherChecks env ∧
      ¬img.page.MarksShared img.page.itagMicFree := by
  obtain ⟨-, hover⟩ := img.page.overlapBitmap_spec img.page.itagMicFree
  rw [errCheckPage]
  cases hheader : img.headerCorruption env with
  | some corruption =>
    refine ⟨fun h => ?_, fun h => ?_⟩
    · cases h
    · have := h.1.header
      rw [hheader] at this
      cases this
  | none =>
    by_cases htags : ∀ itag < img.page.itagMicFree, img.tagCorruption env itag = none
    · rw [checkTags_ok htags, ← hover]
      show (if _ then _ else _) = _ ↔ _
      dsimp only
      split_ifs with hdw hspace
      · exact ⟨(nomatch ·), fun h => absurd hdw h.2⟩
      · exact ⟨(nomatch ·), fun h => absurd h.1.space hspace⟩
      · exact ⟨fun _ => ⟨⟨hheader, htags, not_not.1 hspace⟩, hdw⟩, fun _ => rfl⟩
    · obtain ⟨corruption, herr⟩ := checkTags_error htags
      rw [herr]
      exact ⟨(nomatch ·), fun h => absurd h.1.tags htags⟩

/-- The overlap test is sound exactly on the pages whose tags are disjoint, of which two mark the
same byte, or that fail another test; and two tags that share a byte leave `dwOverlaps` non-zero
exactly when two tags mark the same byte. -/
theorem errCheckPage_sound_iff (env : CheckEnv) (img : PageImage) :
    ((img.errCheckPage env = .ok () → img.page.TagsDisjoint) ↔
      img.page.TagsDisjoint ∨ img.page.MarksShared img.page.itagMicFree ∨ ¬img.OtherChecks env) ∧
    ((¬img.page.TagsDisjoint → (img.page.overlapBitmap img.page.itagMicFree).dwOverlaps ≠ 0) ↔
      img.page.TagsDisjoint ∨ img.page.MarksShared img.page.itagMicFree) := by
  rw [errCheckPage_ok_iff, (img.page.overlapBitmap_spec img.page.itagMicFree).2]
  constructor
  · tauto
  · tauto

/-- A leaf page of 4 KB with an empty external header and two tags on the same eight bytes, from the
ninth on. -/
def sharedLine : PageImage where
  page :=
    { size := .kb4
      fResvTagFormatEnabled := false
      itagMicFree := 3
      ctagReserved := 1
      cbFree := 4028
      ibMicFree := 16
      itagState := 3
      data := fun i => if i = 4048 ∨ i = 4050 ∨ i = 4044 ∨ i = 4046 then 8 else 0 }
  fFlags := fPageNewRecordFormat
  cbUncommittedFree := 0
  pgnoPrev := 0
  pgnoNext := 0

/-- Its two tags share their line, and the check accepts the page. -/
theorem errCheckPage_sharedLine :
    ¬∀ (env : CheckEnv) (img : PageImage), img.errCheckPage env = .ok () →
      img.page.TagsDisjoint := by
  intro hall
  have hib1 : sharedLine.page.ib 1 = 8 ∧ sharedLine.page.cb 1 = 8 := by decide
  have hib2 : sharedLine.page.ib 2 = 8 ∧ sharedLine.page.cb 2 = 8 := by decide
  have hcb0 : sharedLine.page.cb 0 = 0 := by decide
  have hok : sharedLine.errCheckPage ⟨false, false⟩ = .ok () := by
    refine errCheckPage_ok_iff.2 ⟨⟨by decide, by decide, by decide⟩, ?_⟩
    rintro ⟨i, j, hij, hj, b, ⟨hlo, hhi, hword⟩, -⟩
    change j < 3 at hj
    obtain rfl | rfl : i = 0 ∨ i = 1 := by omega
    · omega
    · omega
  refine hall ⟨false, false⟩ sharedLine hok 1 2 (by decide) (by decide) 8
    ⟨⟨?_, ?_⟩, ?_, ?_⟩ <;> decide

end PageImage

end Ese
