import Ese.Page.Tag

/-!
# Updates of one tag

Every line operation updates one tag and the bytes behind it. `Touches p q i lo hi` is the frame
of such an update: header counts, the other tags and the data bytes outside `[lo, hi)` are as
before. The lemmas below give the frame of each elementary update and the offset, length and
flags it leaves; `copyData_line` puts them together into the line a reader sees.
-/

namespace Ese

/-! ## Lines as stored -/

/-- `bytes` with the flag bits of its first 16-bit word set to `fFlags`. -/
def stampBytes (bytes : List Byte) (fFlags : BitVec 16) : List Byte :=
  bytes.modify 1 fun b => b &&& 0x1f ||| fFlags.setWidth 8 <<< 5

/-- The flag bits of the first 16-bit word of `bytes`. -/
def highFlags : List Byte → BitVec 16
  | _ :: b :: _ => (b >>> 5).setWidth 16
  | _ => 0

/-- The line a tag with flag bits `fFlags` shows when its bytes are `bytes`. -/
def Line.ofBytes (fSmallFormat : Bool) (fFlags : BitVec 16) (bytes : List Byte) : Line :=
  ⟨bytes, if fSmallFormat then fFlags else highFlags bytes⟩

/-- The line that storing `bytes` with flags `fFlags` leaves on a page. The external header of a
large page has no flags of its own: a reader sees the bits its data happens to have there. -/
def Line.store (fSmallFormat fHeader : Bool) (bytes : List Byte) (fFlags : BitVec 16) : Line :=
  if fSmallFormat then ⟨bytes, fFlags &&& 7⟩
  else if fHeader then ⟨bytes, highFlags bytes⟩
  else ⟨stampBytes bytes fFlags, if 2 ≤ bytes.length then fFlags &&& 7 else 0⟩

/-- The flags replace bits of the bytes and add none. -/
@[simp] theorem length_stampBytes (bytes : List Byte) (f : BitVec 16) :
    (stampBytes bytes f).length = bytes.length := by
  simp [stampBytes]

/-- Flags that are stamped read back, where there is room for them. -/
theorem highFlags_stampBytes (bytes : List Byte) (f : BitVec 16) :
    highFlags (stampBytes bytes f) = if 2 ≤ bytes.length then f &&& 7 else 0 := by
  rcases bytes with _ | ⟨b₀, _ | ⟨b₁, bytes⟩⟩
  · rfl
  · rfl
  · have h : ((b₁ &&& 0x1f ||| f.setWidth 8 <<< 5) >>> 5).setWidth 16 = f &&& 7 := by
      apply BitVec.eq_of_getLsbD_eq
      intro i hi
      interval_cases i <;> simp
    simpa [stampBytes, highFlags] using h

/-- Stamping reads only the three flag bits. -/
theorem stampBytes_and_seven (bytes : List Byte) (f : BitVec 16) :
    stampBytes bytes (f &&& 7) = stampBytes bytes f := by
  have h : (f &&& 7).setWidth 8 <<< 5 = f.setWidth 8 <<< 5 := by
    apply BitVec.eq_of_getLsbD_eq
    intro i hi
    interval_cases i <;> simp
  simp only [stampBytes, h]

/-- The code reads the flags of a line from its word, the model from its bytes. -/
theorem highFlags_read (m : Mem) (a n : Nat) :
    highFlags (m.read a n) =
      if 2 ≤ n then (m.readU16 a &&& Tag.mskTagFlags) >>> Tag.shfTagFlags else 0 := by
  rcases n with _ | _ | n
  · rfl
  · rfl
  · have h : m.read a (n + 2) = m a :: m (a + 1) :: m.read (a + 2) n := by
      rw [Nat.add_comm n 2, Mem.read_add]
      rfl
    rw [h, highFlags, if_pos (by omega)]
    apply BitVec.eq_of_getLsbD_eq
    intro i hi
    unfold Tag.mskTagFlags Tag.shfTagFlags
    interval_cases i <;> simp [Mem.getElem_readU16_high]

/-- The line of a tag is made of its bytes. -/
theorem Tag.line_eq (t : Tag) (m : Mem) (fSmallFormat : Bool) :
    t.line m fSmallFormat = Line.ofBytes fSmallFormat t.tagFlags
      (m.read (t.ib fSmallFormat) (t.cb fSmallFormat)) := by
  unfold Tag.line Line.ofBytes Tag.fFlags
  rw [highFlags_read]
  rfl

/-- Writing the flag word of a line of two bytes or more stamps its bytes. -/
theorem read_writeU16_flagWord (m : Mem) (a : Nat) {n : Nat} (f : BitVec 16) (h : 2 ≤ n) :
    (m.writeU16 a (Tag.flagWord (m.readU16 a) f)).read a n = stampBytes (m.read a n) f := by
  obtain ⟨n, rfl⟩ : ∃ k, n = 2 + k := ⟨n - 2, by omega⟩
  have h₀ : (Tag.flagWord (m.readU16 a) f).extractLsb' 0 8 = m a := by
    unfold Tag.flagWord Tag.mskTagFlags Tag.shfTagFlags
    apply BitVec.eq_of_getLsbD_eq
    intro i hi
    interval_cases i <;> simp [Mem.getElem_readU16_low]
  have h₁ : (Tag.flagWord (m.readU16 a) f).extractLsb' 8 8
      = m (a + 1) &&& 0x1f ||| f.setWidth 8 <<< 5 := by
    unfold Tag.flagWord Tag.mskTagFlags Tag.shfTagFlags
    apply BitVec.eq_of_getLsbD_eq
    intro i hi
    interval_cases i <;> simp [Mem.getElem_readU16_high]
  have hw : (m.writeU16 a (Tag.flagWord (m.readU16 a) f)).read a 2
      = [m a, m (a + 1) &&& 0x1f ||| f.setWidth 8 <<< 5] := by
    rw [← h₀, ← h₁]
    exact Mem.read_write_same m a [_, _]
  have hr : m.read a 2 = [m a, m (a + 1)] := rfl
  rw [Mem.read_add, Mem.read_add, hw, hr, Mem.writeU16, Mem.read_write_disjoint _ _ (by simp)]
  rfl

namespace CPage

variable {p q r : CPage} {i j lo hi : Nat}

/-! ## Frames -/

/-- The offset at which the tag array starts. -/
def ibTagArray (p : CPage) : Nat := p.cbPageData - cbTag * p.itagMicFree

/-- The tag array fits in the data area. -/
def TagsFit (p : CPage) : Prop := cbTag * p.itagMicFree ≤ p.cbPageData

/-- Every tag lies on the page. -/
theorem TagsFit.fits (h : p.TagsFit) (hi : i < p.itagMicFree) : p.Fits i := by
  unfold TagsFit cbTag at h; unfold Fits; omega

/-- Every tag lies in the tag array. -/
theorem TagsFit.ibTagArray_le (h : p.TagsFit) (hi : i < p.itagMicFree) :
    p.ibTagArray ≤ p.ptagFromItag_ i := by
  unfold TagsFit cbTag at h; unfold ibTagArray ptagFromItag_ cbTag; omega

/-- `q` is `p` with only tag `i` and data bytes of `[lo, hi)` changed. -/
structure Touches (p q : CPage) (i lo hi : Nat) : Prop where
  size : q.size = p.size
  resv : q.fResvTagFormatEnabled = p.fResvTagFormatEnabled
  itagMicFree : q.itagMicFree = p.itagMicFree
  ctagReserved : q.ctagReserved = p.ctagReserved
  tag : ∀ j, j ≠ i → j < p.itagMicFree → q.tag j = p.tag j
  data : ∀ a, a < p.ibTagArray → a < lo ∨ hi ≤ a → q.data a = p.data a

/-- A page that stays is touched nowhere. -/
theorem Touches.refl (p : CPage) (i lo hi : Nat) : Touches p p i lo hi := by
  constructor <;> intros <;> rfl

/-- The format stays. -/
theorem Touches.fSmallFormat (h : Touches p q i lo hi) : q.fSmallFormat = p.fSmallFormat := by
  unfold CPage.fSmallFormat; rw [h.size]

/-- The size of the data stays. -/
theorem Touches.cbPageData (h : Touches p q i lo hi) : q.cbPageData = p.cbPageData := by
  unfold CPage.cbPageData; rw [h.size]

/-- The tag array stays where it is. -/
theorem Touches.ibTagArray (h : Touches p q i lo hi) : q.ibTagArray = p.ibTagArray := by
  unfold CPage.ibTagArray; rw [h.cbPageData, h.itagMicFree]

/-- The tag array still fits. -/
theorem Touches.tagsFit (h : Touches p q i lo hi) (hp : p.TagsFit) : q.TagsFit := by
  unfold TagsFit; rw [h.cbPageData, h.itagMicFree]; exact hp

/-- Two changes in one place are one there. -/
theorem Touches.trans (h₁ : Touches p q i lo hi) (h₂ : Touches q r i lo hi) :
    Touches p r i lo hi where
  size := h₂.size.trans h₁.size
  resv := h₂.resv.trans h₁.resv
  itagMicFree := h₂.itagMicFree.trans h₁.itagMicFree
  ctagReserved := h₂.ctagReserved.trans h₁.ctagReserved
  tag j hj hlt := (h₂.tag j hj (by rw [h₁.itagMicFree]; exact hlt)).trans (h₁.tag j hj hlt)
  data a ha hr := (h₂.data a (by rw [h₁.ibTagArray]; exact ha) hr).trans (h₁.data a ha hr)

/-- The bytes of tag `i`, if it has any, lie in `[lo, hi)` and below the tag array. The offset of
an empty tag is never looked at and may point anywhere. -/
def Within (p : CPage) (i lo hi : Nat) : Prop :=
  p.cb i = 0 ∨ lo ≤ p.ib i ∧ p.ib i + p.cb i ≤ hi ∧ p.ib i + p.cb i ≤ p.ibTagArray

/-- A header field that is no count may change freely. -/
theorem Touches.header (cbFree ibMicFree : Nat) :
    Touches p { p with cbFree := cbFree, ibMicFree := ibMicFree } i lo hi := by
  constructor <;> intros <;> rfl

/-- A write below the tag array changes no tag. -/
theorem tag_of_data (hp : p.TagsFit) (hi' : i < p.itagMicFree) {d : Mem}
    (h : ∀ a, p.ibTagArray ≤ a → d a = p.data a) : CPage.tag { p with data := d } i = p.tag i :=
  tag_congr rfl fun a h₁ _ => h a (by have := hp.ibTagArray_le hi'; omega)

/-- A write inside `[lo, hi)` and below the tag array. -/
theorem Touches.of_data (hp : p.TagsFit) {d : Mem} (ha : ∀ a, p.ibTagArray ≤ a → d a = p.data a)
    (hr : ∀ a, a < lo ∨ hi ≤ a → d a = p.data a) : Touches p { p with data := d } i lo hi where
  size := rfl
  resv := rfl
  itagMicFree := rfl
  ctagReserved := rfl
  tag _ _ hlt := tag_of_data hp hlt ha
  data a _ h := hr a h

/-- The other tags keep their lines if their bytes are outside the touched range. -/
theorem Touches.getPtr_ (h : Touches p q i lo hi) (hne : j ≠ i) (hj : j < p.itagMicFree)
    (hr : p.cb j = 0 ∨ p.ib j + p.cb j ≤ p.ibTagArray ∧ (p.ib j + p.cb j ≤ lo ∨ hi ≤ p.ib j)) :
    q.getPtr_ j = p.getPtr_ j := by
  unfold CPage.getPtr_
  rw [Tag.line_eq, Tag.line_eq, h.fSmallFormat, h.tag j hne hj]
  congr 1
  exact Mem.read_congr fun a h₁ h₂ => h.data a (by unfold cb ib at *; omega)
    (by unfold cb ib at *; omega)

/-- The other lines keep their sizes. -/
theorem Touches.cb (h : Touches p q i lo hi) (hne : j ≠ i) (hj : j < p.itagMicFree) :
    q.cb j = p.cb j := by
  unfold CPage.cb; rw [h.fSmallFormat, h.tag j hne hj]

/-- The other lines keep their offsets. -/
theorem Touches.ib (h : Touches p q i lo hi) (hne : j ≠ i) (hj : j < p.itagMicFree) :
    q.ib j = p.ib j := by
  unfold CPage.ib; rw [h.fSmallFormat, h.tag j hne hj]

/-! ## Elementary updates -/

/-- A new tag touches that tag only. -/
theorem touches_setTag (hp : p.TagsFit) (hi' : i < p.itagMicFree) (t : Tag) :
    Touches p (p.setTag i t) i lo hi where
  size := rfl
  resv := rfl
  itagMicFree := rfl
  ctagReserved := rfl
  tag j hj hlt := tag_setTag_ne t (hp.fits hi') (hp.fits hlt) hj
  data a ha _ := setTag_data t (.inl (by have := hp.ibTagArray_le hi'; omega))

/-- A new offset touches its tag only. -/
theorem touches_setIb (hp : p.TagsFit) (hi' : i < p.itagMicFree) (v : Nat) :
    Touches p (p.setIb i v) i lo hi :=
  touches_setTag hp hi' _

/-- A new size touches its tag only. -/
theorem touches_setCb (hp : p.TagsFit) (hi' : i < p.itagMicFree) (v : Nat) :
    Touches p (p.setCb i v) i lo hi :=
  touches_setTag hp hi' _

/-- A new offset leaves the size. -/
@[simp] theorem cb_setIb (v : Nat) : (p.setIb i v).cb i = p.cb i := by
  simp only [setIb, cb, tag_setTag_same]
  rfl

/-- A new offset reads back. -/
theorem ib_setIb {v : Nat} (h : v < Tag.ibCbMac p.fSmallFormat) : (p.setIb i v).ib i = v := by
  simp only [setIb, ib, tag_setTag_same]
  exact Tag.setWord_read _ _ h

/-- A new size leaves the offset. -/
@[simp] theorem ib_setCb (v : Nat) : (p.setCb i v).ib i = p.ib i := by
  simp only [setCb, ib, tag_setTag_same]
  rfl

/-- A new size reads back. -/
theorem cb_setCb {v : Nat} (h : v < Tag.ibCbMac p.fSmallFormat) : (p.setCb i v).cb i = v := by
  simp only [setCb, cb, tag_setTag_same]
  exact Tag.setWord_read _ _ h

/-- On a small page an offset update keeps the flags in the same word. -/
theorem tagFlags_setIb {v : Nat} (hs : p.fSmallFormat = true)
    (h : v < Tag.ibCbMac p.fSmallFormat) : ((p.setIb i v).tag i).tagFlags = (p.tag i).tagFlags := by
  rw [hs] at h
  have e := Tag.setWord_flags (p.tag i).ib_ h
  simp only [setIb, tag_setTag_same, Tag.withIb, Tag.tagFlags, hs, Tag.mskIbCb, if_true]
  rw [e]

/-- A new size leaves the flags of the tag. -/
@[simp] theorem tagFlags_setCb (v : Nat) :
    ((p.setCb i v).tag i).tagFlags = (p.tag i).tagFlags := by
  simp only [setCb, tag_setTag_same, Tag.withCb, Tag.tagFlags]

/-- `SetFlags` touches the tag or the first word of its line. -/
theorem touches_setFlags (hp : p.TagsFit) (hi' : i < p.itagMicFree) (f : BitVec 16)
    (hw : p.Within i lo hi) : Touches p (p.setFlags i f) i lo hi := by
  unfold setFlags Within at *
  split_ifs with hs hc
  · exact touches_setTag hp hi' _
  · exact Touches.of_data hp (fun a ha => Mem.writeU16_apply_of_not_mem _ _ (by omega))
      (fun a ha => Mem.writeU16_apply_of_not_mem _ _ (by omega))
  · exact Touches.refl _ _ _ _

/-- `SetFlags` keeps the offset and the length, though it shares a word with the offset on a
small page and with the data on a large one. -/
theorem cb_ib_setFlags (hp : p.TagsFit) (hi' : i < p.itagMicFree) (f : BitVec 16)
    (hw : p.Within i lo hi) :
    (p.setFlags i f).cb i = p.cb i ∧ (p.setFlags i f).ib i = p.ib i := by
  unfold setFlags Within at *
  split_ifs with hs hc
  · have hm : Tag.mskIbCb p.fSmallFormat = Tag.mskSmallTagIbCb := by rw [hs]; rfl
    constructor
    · simp only [cb, tag_setTag_same]
      rfl
    · simp only [ib, tag_setTag_same, Tag.ib, Tag.withFlags]
      show (Tag.flagWord (p.tag i).ib_ f &&& Tag.mskIbCb p.fSmallFormat).toNat = _
      rw [hm, Tag.flagWord_and_mskSmall]
  · have he := tag_of_data (d := p.data.writeU16 (p.ib i)
        (Tag.flagWord (p.data.readU16 (p.ib i)) f)) hp hi' fun a ha =>
      Mem.writeU16_apply_of_not_mem _ _ (by omega)
    exact ⟨by unfold cb at *; rw [he]; rfl, by unfold ib at *; rw [he]; rfl⟩
  · exact ⟨rfl, rfl⟩

/-- New flags leave the size. -/
theorem cb_setFlags (hp : p.TagsFit) (hi' : i < p.itagMicFree) (f : BitVec 16)
    (hw : p.Within i lo hi) : (p.setFlags i f).cb i = p.cb i :=
  (cb_ib_setFlags hp hi' f hw).1

/-- New flags leave the offset. -/
theorem ib_setFlags (hp : p.TagsFit) (hi' : i < p.itagMicFree) (f : BitVec 16)
    (hw : p.Within i lo hi) : (p.setFlags i f).ib i = p.ib i :=
  (cb_ib_setFlags hp hi' f hw).2

/-- The line of a tag is made of the bytes that it points at. -/
theorem getPtr_eq (p : CPage) (i : Nat) :
    p.getPtr_ i = Line.ofBytes p.fSmallFormat (p.tag i).tagFlags (p.data.read (p.ib i) (p.cb i)) :=
  Tag.line_eq _ _ _

/-- A line has the size that its tag says. -/
@[simp] theorem length_getPtr (p : CPage) (i : Nat) : (p.getPtr_ i).pv.length = p.cb i := by
  rw [getPtr_eq]
  simp [Line.ofBytes]

/-- `SetFlags` stores the bytes the line already has with new flags. -/
theorem getPtr_setFlags (hp : p.TagsFit) (hi' : i < p.itagMicFree) (f : BitVec 16)
    (hw : p.Within i lo hi) :
    (p.setFlags i f).getPtr_ i = Line.store p.fSmallFormat (i == 0) (p.getPtr_ i).pv f := by
  obtain ⟨hcb, hib⟩ := cb_ib_setFlags hp hi' f hw
  have hpv : (p.getPtr_ i).pv = p.data.read (p.ib i) (p.cb i) := rfl
  have hfs : (p.setFlags i f).fSmallFormat = p.fSmallFormat :=
    (touches_setFlags hp hi' f hw).fSmallFormat
  rw [getPtr_eq, hcb, hib, hpv, hfs]
  unfold Line.store Line.ofBytes
  by_cases hs : p.fSmallFormat = true
  · -- small page: the tag word takes the flags, the line's bytes lie below it
    have e : p.setFlags i f = p.setTag i ((p.tag i).withFlags f) := if_pos hs
    have hd : Mem.read (p.setTag i ((p.tag i).withFlags f)).data (p.ib i) (p.cb i)
        = p.data.read (p.ib i) (p.cb i) :=
      Mem.read_congr fun a _ _ => setTag_data _ (.inl (by
        have := hp.ibTagArray_le hi'; unfold Within at hw; omega))
    rw [e, hd, tag_setTag_same, if_pos hs, if_pos hs, Tag.withFlags, Tag.tagFlags,
      Tag.flagWord_read]
  · rw [if_neg hs, if_neg hs]
    by_cases hc : i ≠ 0 ∧ 2 ≤ p.cb i
    · -- large page: the line's first word takes the flags
      have e : p.setFlags i f = { p with
          data := p.data.writeU16 (p.ib i) (Tag.flagWord (p.data.readU16 (p.ib i)) f) } := by
        unfold setFlags
        rw [if_neg hs, if_pos hc]
      have hn : ¬ (i == 0) = true := by simpa using hc.1
      rw [e, if_neg hn, read_writeU16_flagWord p.data (p.ib i) f hc.2, highFlags_stampBytes]
    · -- large page, but no room for the word: the bytes stay
      have e : p.setFlags i f = p := by
        unfold setFlags
        rw [if_neg hs, if_neg hc]
      rw [e]
      split_ifs with hz h2
      · rfl
      · exact absurd ⟨by simpa using hz, by simpa using h2⟩ hc
      · have hst : stampBytes (p.data.read (p.ib i) (p.cb i)) f
            = p.data.read (p.ib i) (p.cb i) := by
          unfold stampBytes
          rw [List.modify_eq_self (by rw [Mem.length_read] at h2 ⊢; omega)]
        rw [hst, highFlags_read, if_neg (by simpa using h2)]

/-! ## Copying the data -/

/-- The size of the pieces is that of their concatenation. -/
theorem cbDataTotal_eq (rgdata : List (List Byte)) :
    cbDataTotal_ rgdata = rgdata.flatten.length := by
  simp [cbDataTotal_, List.length_flatten]

/-- The pieces are stored one after the other. -/
theorem copyPieces_eq (a : Nat) (rgdata : List (List Byte)) (m : Mem) :
    copyPieces a rgdata m = m.write a rgdata.flatten := by
  induction rgdata generalizing a m with
  | nil => simp [copyPieces]
  | cons d rgdata ih => rw [copyPieces, ih, Mem.write_append, List.flatten_cons]

/-- Storing the flags of a stored line again changes nothing. -/
theorem store_fFlags (fSmallFormat : Bool) (bytes bytes' : List Byte) (f : BitVec 16)
    (h : bytes'.length = bytes.length) :
    Line.store fSmallFormat false bytes (Line.store fSmallFormat false bytes' f).fFlags
      = Line.store fSmallFormat false bytes f := by
  unfold Line.store
  cases fSmallFormat
  · by_cases h2 : 2 ≤ bytes.length
    · simp only [Bool.false_eq_true, if_false, h, if_pos h2, stampBytes_and_seven]
      rw [BitVec.and_assoc]
      rfl
    · have hst : ∀ g, stampBytes bytes g = bytes := fun g =>
        List.modify_eq_self (by omega)
      simp only [Bool.false_eq_true, if_false, h, if_neg h2, hst]
  · simp only [if_true]
    rw [BitVec.and_assoc]
    rfl

/-- New flags leave the free space. -/
@[simp] theorem cbFree_setFlags (f : BitVec 16) : (p.setFlags i f).cbFree = p.cbFree := by
  unfold setFlags; split_ifs <;> rfl

/-- New flags leave where the free space begins. -/
@[simp] theorem ibMicFree_setFlags (f : BitVec 16) :
    (p.setFlags i f).ibMicFree = p.ibMicFree := by
  unfold setFlags; split_ifs <;> rfl

/-- A line stored: its flags are set and its data is copied to where its tag points. -/
structure Stored (p q : CPage) (i lo hi : Nat) (bytes : List Byte) (f : BitVec 16) : Prop where
  touches : Touches p q i lo hi
  cb : q.cb i = p.cb i
  ib : q.ib i = p.ib i
  cbFree : q.cbFree = p.cbFree
  ibMicFree : q.ibMicFree = p.ibMicFree
  line : q.getPtr_ i = Line.store p.fSmallFormat (i == 0) bytes f

/-- New flags leave the bytes of the line and are its flags. -/
theorem stored_setFlags (hp : p.TagsFit) (hi' : i < p.itagMicFree) (f : BitVec 16)
    (hw : p.Within i lo hi) : Stored p (p.setFlags i f) i lo hi (p.getPtr_ i).pv f where
  touches := touches_setFlags hp hi' f hw
  cb := cb_setFlags hp hi' f hw
  ib := ib_setFlags hp hi' f hw
  cbFree := cbFree_setFlags f
  ibMicFree := ibMicFree_setFlags f
  line := getPtr_setFlags hp hi' f hw

/-- `SetFlags` and `CopyData_` store the data. On a large page the data overwrites the flags that
were set first, so `CopyData_` sets them again; for the external header it does not. -/
theorem stored_copyData (hp : p.TagsFit) (hi' : i < p.itagMicFree) (f : BitVec 16)
    (rgdata : List (List Byte)) (hcb : p.cb i = rgdata.flatten.length) (hw : p.Within i lo hi) :
    Stored p ((p.setFlags i f).copyData_ i rgdata) i lo hi rgdata.flatten f := by
  have h₁ := stored_setFlags hp hi' f hw
  set p₁ := p.setFlags i f
  have hp₁ := h₁.touches.tagsFit hp
  have hi₁ : i < p₁.itagMicFree := by rw [h₁.touches.itagMicFree]; exact hi'
  have hw₁ : p₁.cb i = 0 ∨ lo ≤ p₁.ib i ∧ p₁.ib i + p₁.cb i ≤ hi
      ∧ p₁.ib i + p₁.cb i ≤ p₁.ibTagArray := by
    rw [h₁.cb, h₁.ib, h₁.touches.ibTagArray]; exact hw
  set d := copyPieces (p₁.ib i) rgdata p₁.data with hd
  rw [copyPieces_eq] at hd
  have hout : ∀ a, a < p₁.ib i ∨ p₁.ib i + p₁.cb i ≤ a → d a = p₁.data a := fun a ha => by
    rw [hd]
    exact Mem.write_apply_of_not_mem _ _ (by rw [h₁.cb, hcb] at ha; exact ha)
  have ht₂ : Touches p₁ { p₁ with data := d } i lo hi :=
    Touches.of_data hp₁ (fun a ha => hout a (by omega)) (fun a ha => hout a (by omega))
  have htag : CPage.tag { p₁ with data := d } i = p₁.tag i :=
    tag_of_data hp₁ hi₁ fun a ha => hout a (by omega)
  have hread : d.read (p₁.ib i) (p₁.cb i) = rgdata.flatten := by
    rw [hd, h₁.cb, hcb, Mem.read_write_same]
  have hfs : p₁.fSmallFormat = p.fSmallFormat := h₁.touches.fSmallFormat
  have hcb₂ : CPage.cb { p₁ with data := d } i = p₁.cb i := by
    unfold CPage.cb; rw [htag]; rfl
  have hib₂ : CPage.ib { p₁ with data := d } i = p₁.ib i := by
    unfold CPage.ib; rw [htag]; rfl
  have hline₂ : CPage.getPtr_ { p₁ with data := d } i
      = Line.ofBytes p.fSmallFormat (p₁.tag i).tagFlags rgdata.flatten := by
    rw [getPtr_eq, hcb₂, hib₂, htag, hread, ← hfs]
    rfl
  by_cases hz : i = 0
  · have e : p₁.copyData_ i rgdata = { p₁ with data := d } := by
      unfold copyData_
      rw [if_neg (by simpa using hz)]
    rw [e]
    refine ⟨h₁.touches.trans ht₂, hcb₂.trans h₁.cb, hib₂.trans h₁.ib, h₁.cbFree,
      h₁.ibMicFree, ?_⟩
    rw [hline₂]
    by_cases hs : p.fSmallFormat = true
    · have hf : (p₁.tag i).tagFlags = f &&& 7 := by
        have h := congrArg Line.fFlags h₁.line
        rw [getPtr_eq, hfs] at h
        simpa [Line.store, Line.ofBytes, hs] using h
      simp [Line.store, Line.ofBytes, hs, hf]
    · simp [Line.store, Line.ofBytes, hs, hz]
  · have e : p₁.copyData_ i rgdata
        = CPage.setFlags { p₁ with data := d } i ((p₁.tag i).fFlags p₁.data p₁.fSmallFormat) := by
      unfold copyData_
      rw [if_pos hz]
    have hzb : (i == 0) = false := by simpa using hz
    have hus : (p₁.tag i).fFlags p₁.data p₁.fSmallFormat = (p₁.getPtr_ i).fFlags := rfl
    have hw₂ : Within { p₁ with data := d } i lo hi := by
      unfold Within
      rw [hcb₂, hib₂, ht₂.ibTagArray]
      exact hw₁
    have h₃ := stored_setFlags (ht₂.tagsFit hp₁) hi₁ (p₁.getPtr_ i).fFlags hw₂
    rw [e, hus]
    refine ⟨h₁.touches.trans (ht₂.trans h₃.touches), h₃.cb.trans (hcb₂.trans h₁.cb),
      h₃.ib.trans (hib₂.trans h₁.ib), h₃.cbFree.trans h₁.cbFree,
      h₃.ibMicFree.trans h₁.ibMicFree, ?_⟩
    have hpv : (CPage.getPtr_ { p₁ with data := d } i).pv = rgdata.flatten := by
      rw [hline₂]; rfl
    rw [h₃.line, hpv, h₁.line, hzb]
    show Line.store p₁.fSmallFormat false _ _ = _
    rw [hfs, store_fFlags _ _ _ _ (by rw [length_getPtr, hcb])]

end CPage

end Ese
