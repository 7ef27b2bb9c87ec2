import Mathlib.Logic.Relation
import Ese.Page.Reorganize

/-!
# Dehydration

A clean page may be kept in a buffer smaller than the page: the free bytes between the last line and
the tag array are given up and the tag array moves to the end of the smaller buffer.
`BufferedPage` is a page with the size of its buffer; the tag array, the room for the lines and
`cbFree` are relative to that size. `DehydratePageUnadjusted_` shrinks the buffer and
`RehydratePage` restores it to the size of the page.

Offsets into the bytes start where the header ends, as in `CPage`; the sizes and the two ends of a
`memmove` are those of the source, counted from the start of the page. A failing `Enforce` is
`none`.
-/

namespace Ese

/-- The cast to `ULONG`. -/
def ulong (x : Int) : Nat := (x % 4294967296).toNat

/-- `g_cbPageMax`. -/
def g_cbPageMax : Nat := 1024 * 32

def chPAGEReHydrateFill : Byte := 0x48

/-- The `roundup` macro. -/
def roundup (val align : Nat) : Nat := (val + align - 1) / align * align

/-- A page in a buffer of `cbBuffer` bytes, with the header fields that only the dehydration reads
or writes. `CPage.size` is the natural size of the page. -/
structure BufferedPage extends CPage where
  cbBuffer : Nat
  checksum : Nat
  dbtimeDirtied : Nat
  objidFDP : Nat

/-- What the dehydration reads besides the page. The checksum of a clean page is set anew, by any
function of the page here. -/
structure DehydrateEnv where
  cbCommitGranularity : Nat
  fRuntimeScrubbing : Bool
  fDirty : Bool
  pageChecksum : BufferedPage → Nat

namespace BufferedPage

variable (p : BufferedPage)

def cbBufferData : Nat := p.cbBuffer - p.size.cbPageHeader

/-- `CbContiguousBufferFree_`. -/
def cbContiguousBufferFree_ : Int :=
  (p.cbBuffer : Int) - p.size.cbPageHeader - p.ibMicFree - p.cbTagArray_

/-- The offset of a tag: the array grows down from the end of the buffer. -/
def ptagFromItag_ (itag : Nat) : Nat := p.cbBufferData - CPage.cbTag * (itag + 1)

/-- The tag `itag`, decoded. -/
def tag (itag : Nat) : Tag :=
  ⟨p.data.readU16 (p.ptagFromItag_ itag), p.data.readU16 (p.ptagFromItag_ itag + 2)⟩

def cb (itag : Nat) : Nat := (p.tag itag).cb p.fSmallFormat

def ib (itag : Nat) : Nat := (p.tag itag).ib p.fSmallFormat

/-- The line behind tag `itag`, with its flags. -/
def getPtr_ (itag : Nat) : Line := (p.tag itag).line p.data p.fSmallFormat

/-- `FIsNormalSized`. -/
def FIsNormalSized : Prop := p.size.cbPage = p.cbBuffer

/-- `CbContiguousDehydrateRequired_`. -/
def cbContiguousDehydrateRequired_ : Nat :=
  roundup (p.size.cbPageHeader + p.ibMicFree + p.cbTagArray_) 2

/-- `FPageIsDehydratable` without reorganization: the result and `*pcbMinimumSize`. -/
def fPageIsDehydratable (env : DehydrateEnv) : Bool × Nat :=
  if p.checksum = 0 ∧ p.dbtimeDirtied = 0 ∧ p.objidFDP = 0 ∧ p.cbFree = 0 then
    (false, p.size.cbPage)
  else
    let cbMinimumSize :=
      if p.cbContiguousBufferFree_ ≥ env.cbCommitGranularity ∧
          p.size.cbPageHeader + p.ibMicFree + p.cbTagArray_
            < ulong ((p.cbBuffer : Int) - 4 * 1024) then
        p.cbContiguousDehydrateRequired_
      else p.size.cbPage
    (cbMinimumSize < ulong ((p.cbBuffer : Int) - env.cbCommitGranularity), cbMinimumSize)

/-- The checksum of a page that is not dirty. -/
def setPageChecksum (env : DehydrateEnv) : BufferedPage :=
  if env.fDirty then p else { p with checksum := env.pageChecksum p }

/-- `DehydratePageUnadjusted_`. -/
def dehydratePageUnadjusted_ (env : DehydrateEnv) (cbNewSize : Nat) : Option BufferedPage := do
  let cbShrinkage := ulong ((p.cbBuffer : Int) - cbNewSize)
  guard (cbShrinkage < p.size.cbPage)
  guard (cbShrinkage < 0x10000)
  guard (p.cbFree ≥ cbShrinkage)
  guard (p.ibMicFree < ulong ((p.cbBuffer : Int) - cbShrinkage))
  let p := { p with
    data := p.data.move (cbNewSize - p.cbTagArray_ - p.size.cbPageHeader)
      (p.cbBuffer - p.cbTagArray_ - p.size.cbPageHeader) p.cbTagArray_ }
  let p := { p with cbFree := ushort ((p.cbFree : Int) - ushort cbShrinkage) }
  let p := { p with cbBuffer := cbNewSize }
  some (p.setPageChecksum env)

/-- `RehydratePage`. -/
def rehydratePage (env : DehydrateEnv) : Option BufferedPage := do
  let cbBufferOrigSize := p.cbBuffer
  guard (cbBufferOrigSize ≤ g_cbPageMax)
  let cbBufferNewSize := p.size.cbPage
  guard (cbBufferNewSize ≤ g_cbPageMax)
  let p := { p with cbBuffer := cbBufferNewSize }
  guard (cbBufferNewSize > cbBufferOrigSize)
  let cbGrowth := cbBufferNewSize - cbBufferOrigSize
  guard (p.cbTagArray_ ≤ cbBufferOrigSize)
  guard (cbBufferNewSize - p.cbTagArray_ + p.cbTagArray_ ≤ cbBufferNewSize)
  let p := { p with
    data := p.data.move (cbBufferNewSize - p.cbTagArray_ - p.size.cbPageHeader)
      (cbBufferOrigSize - p.cbTagArray_ - p.size.cbPageHeader) p.cbTagArray_ }
  guard (p.cbFree + cbGrowth ≤ g_cbPageMax)
  let p := { p with cbFree := ushort (p.cbFree + ushort cbGrowth) }
  let p := if env.fRuntimeScrubbing then
      { p with
        data := p.data.fill p.ibMicFree p.cbContiguousBufferFree_.toNat chPAGEReHydrateFill }
    else p
  some (p.setPageChecksum env)

end BufferedPage

theorem ulong_of_nonneg {x : Int} {n : Nat} (h : x = n) (hn : n < 4294967296) : ulong x = n := by
  unfold ulong
  omega

theorem le_roundup_two (n : Nat) : n ≤ roundup n 2 := by
  unfold roundup
  omega

/-- An enforce that holds lets the rest run. -/
theorem guard_bind_pos {α : Type} {P : Prop} [Decidable P] (h : P) (x : Option α) :
    (guard P >>= fun _ => x) = x := by
  rw [guard, if_pos h]
  rfl

/-! ## The layout of a buffered page -/

namespace BufferedPage

variable {p q o : BufferedPage} {i r : Nat}

/-- The bytes of all tags together. -/
def cbLines (p : BufferedPage) : Nat := ((List.range p.itagMicFree).map p.cb).sum

/-- The offset at which the tag array starts. -/
def ibTagArray (p : BufferedPage) : Nat := p.cbBufferData - p.cbTagArray_

/-- The page invariant, relative to the size of the buffer. -/
structure Layout (r : Nat) (p : BufferedPage) : Prop where
  cbBuffer_le : p.cbBuffer ≤ p.size.cbPage
  ctagReserved : p.ctagReserved = r
  pos : 1 ≤ r
  reserved : r ≤ p.itagMicFree
  space : p.cbFree + p.cbLines + CPage.cbTag * p.itagMicFree = p.cbBufferData
  room : p.ibMicFree + CPage.cbTag * p.itagMicFree ≤ p.cbBufferData
  bounded : ∀ i, i < p.itagMicFree → p.cb i ≠ 0 → p.ib i + p.cb i ≤ p.ibMicFree
  disjoint : ∀ i j, i < p.itagMicFree → j < p.itagMicFree → i ≠ j → p.cb i ≠ 0 → p.cb j ≠ 0 →
    p.ib i + p.cb i ≤ p.ib j ∨ p.ib j + p.cb j ≤ p.ib i

/-- In a buffer of the natural size the invariant is that of `CPage`. -/
theorem layout_iff (hn : p.FIsNormalSized) : p.Layout r ↔ p.toCPage.Layout r := by
  have hD : p.cbBufferData = p.cbPageData := by
    unfold cbBufferData CPage.cbPageData PageSize.cbPageData
    rw [← hn]
  have htag : ∀ i, p.tag i = p.toCPage.tag i := fun i => by
    unfold tag ptagFromItag_ CPage.tag CPage.ptagFromItag_
    rw [hD]
  have hcb : p.cb = p.toCPage.cb := funext fun i => by unfold cb CPage.cb; rw [htag]
  have hib : p.ib = p.toCPage.ib := funext fun i => by unfold ib CPage.ib; rw [htag]
  have hl : p.cbLines = p.toCPage.cbLines := by unfold cbLines CPage.cbLines; rw [hcb]
  constructor
  · intro h
    exact ⟨h.ctagReserved, h.pos, h.reserved, by rw [← hl, ← hD]; exact h.space,
      by rw [← hD]; exact h.room, by rw [← hcb, ← hib]; exact h.bounded,
      by rw [← hcb, ← hib]; exact h.disjoint⟩
  · intro h
    exact ⟨hn.ge, h.ctagReserved, h.pos, h.reserved, by rw [hl, hD]; exact h.space,
      by rw [hD]; exact h.room, by rw [hcb, hib]; exact h.bounded,
      by rw [hcb, hib]; exact h.disjoint⟩

/-- The header, the lines and the tag array fit in the buffer. -/
theorem Layout.room_buffer (h : p.Layout r) :
    p.size.cbPageHeader + p.ibMicFree + p.cbTagArray_ ≤ p.cbBuffer := by
  have hroom := h.room
  have hpos := h.pos
  have hres := h.reserved
  unfold cbBufferData CPage.cbTag at hroom
  unfold CPage.cbTagArray_ CPage.cbTag
  omega

/-! ## One page in buffers of two sizes -/

/-- `q` is the page `p` in a buffer of another size: the header fields, every byte up to the end
of the last line and the bytes of the tag array are those of `p`, and the free space differs by
the difference of the buffers. -/
structure SamePage (p q : BufferedPage) : Prop where
  size : q.size = p.size
  resv : q.fResvTagFormatEnabled = p.fResvTagFormatEnabled
  itagMicFree : q.itagMicFree = p.itagMicFree
  ctagReserved : q.ctagReserved = p.ctagReserved
  itagState : q.itagState = p.itagState
  ibMicFree : q.ibMicFree = p.ibMicFree
  dbtimeDirtied : q.dbtimeDirtied = p.dbtimeDirtied
  objidFDP : q.objidFDP = p.objidFDP
  cbFree : q.cbFree + p.cbBuffer = p.cbFree + q.cbBuffer
  bytes : ∀ a, a < p.ibMicFree → q.data a = p.data a
  tagArray : ∀ k, k < p.cbTagArray_ → q.data (q.ibTagArray + k) = p.data (p.ibTagArray + k)

theorem SamePage.refl (p : BufferedPage) : SamePage p p :=
  ⟨rfl, rfl, rfl, rfl, rfl, rfl, rfl, rfl, rfl, fun _ _ => rfl, fun _ _ => rfl⟩

theorem SamePage.cbTagArray (h : SamePage p q) : q.cbTagArray_ = p.cbTagArray_ := by
  unfold CPage.cbTagArray_
  rw [h.itagMicFree]

theorem SamePage.trans (h : SamePage o p) (h' : SamePage p q) : SamePage o q where
  size := h'.size.trans h.size
  resv := h'.resv.trans h.resv
  itagMicFree := h'.itagMicFree.trans h.itagMicFree
  ctagReserved := h'.ctagReserved.trans h.ctagReserved
  itagState := h'.itagState.trans h.itagState
  ibMicFree := h'.ibMicFree.trans h.ibMicFree
  dbtimeDirtied := h'.dbtimeDirtied.trans h.dbtimeDirtied
  objidFDP := h'.objidFDP.trans h.objidFDP
  cbFree := by
    have h₁ := h.cbFree
    have h₂ := h'.cbFree
    omega
  bytes a ha := (h'.bytes a (by rw [h.ibMicFree]; exact ha)).trans (h.bytes a ha)
  tagArray k hk := (h'.tagArray k (by rw [h.cbTagArray]; exact hk)).trans (h.tagArray k hk)

/-- The tag `i` is read from the tag array. -/
theorem ptagFromItag_eq (hroom : p.size.cbPageHeader + p.cbTagArray_ ≤ p.cbBuffer)
    (hi : i < p.itagMicFree) :
    p.ptagFromItag_ i = p.ibTagArray + CPage.cbTag * (p.itagMicFree - (i + 1)) := by
  unfold CPage.cbTagArray_ CPage.cbTag at hroom
  unfold ptagFromItag_ ibTagArray cbBufferData CPage.cbTagArray_ CPage.cbTag
  omega

/-- The tags of one page are the same in both buffers. -/
theorem SamePage.tag (h : SamePage p q)
    (hp : p.size.cbPageHeader + p.cbTagArray_ ≤ p.cbBuffer)
    (hq : p.size.cbPageHeader + p.cbTagArray_ ≤ q.cbBuffer) (hi : i < p.itagMicFree) :
    q.tag i = p.tag i := by
  have hpi := ptagFromItag_eq hp hi
  have hqi : q.ptagFromItag_ i = q.ibTagArray + CPage.cbTag * (p.itagMicFree - (i + 1)) := by
    rw [← h.itagMicFree]
    exact ptagFromItag_eq (by rw [h.size, h.cbTagArray]; exact hq) (by rw [h.itagMicFree]; exact hi)
  have hb : ∀ k, k < 4 → q.data (q.ptagFromItag_ i + k) = p.data (p.ptagFromItag_ i + k) := by
    intro k hk
    have hk' : CPage.cbTag * (p.itagMicFree - (i + 1)) + k < p.cbTagArray_ := by
      unfold CPage.cbTagArray_ CPage.cbTag
      omega
    have := h.tagArray _ hk'
    rw [hpi, hqi, Nat.add_assoc, Nat.add_assoc]
    exact this
  have hcb : q.data.readU16 (q.ptagFromItag_ i) = p.data.readU16 (p.ptagFromItag_ i) :=
    Mem.readU16_congr (hb 0 (by omega)) (hb 1 (by omega))
  have hib : q.data.readU16 (q.ptagFromItag_ i + 2) = p.data.readU16 (p.ptagFromItag_ i + 2) :=
    Mem.readU16_congr (hb 2 (by omega)) (hb 3 (by omega))
  unfold BufferedPage.tag
  rw [hcb, hib]

/-- If both buffers have room for the page, the page satisfies the invariant in the one when it
does in the other, and shows the same lines. -/
theorem SamePage.layout (h : SamePage p q) (hl : p.Layout r)
    (hroom : p.size.cbPageHeader + p.ibMicFree + p.cbTagArray_ ≤ q.cbBuffer)
    (hle : q.cbBuffer ≤ p.size.cbPage) :
    q.Layout r ∧ ∀ i, i < p.itagMicFree → q.getPtr_ i = p.getPtr_ i := by
  have hproom := hl.room_buffer
  have hfs : q.fSmallFormat = p.fSmallFormat := by unfold CPage.fSmallFormat; rw [h.size]
  have htag : ∀ i, i < p.itagMicFree → q.tag i = p.tag i := fun i hi =>
    h.tag (by omega) (by omega) hi
  have hcb : ∀ i, i < p.itagMicFree → q.cb i = p.cb i := fun i hi => by
    unfold cb; rw [htag i hi, hfs]
  have hib : ∀ i, i < p.itagMicFree → q.ib i = p.ib i := fun i hi => by
    unfold ib; rw [htag i hi, hfs]
  have hlines : q.cbLines = p.cbLines := by
    unfold cbLines
    rw [h.itagMicFree]
    congr 1
    exact List.map_congr_left fun i hi => hcb i (List.mem_range.1 hi)
  refine ⟨⟨by rw [h.size]; exact hle, h.ctagReserved.trans hl.ctagReserved, hl.pos,
    by rw [h.itagMicFree]; exact hl.reserved, ?_, ?_, ?_, ?_⟩, ?_⟩
  · have hspace := hl.space
    have hfree := h.cbFree
    unfold cbBufferData at hspace ⊢
    rw [hlines, h.itagMicFree, h.size]
    omega
  · unfold cbBufferData
    rw [h.ibMicFree, h.itagMicFree, h.size]
    unfold CPage.cbTagArray_ at hroom
    rw [Nat.mul_comm] at hroom
    omega
  · intro i hi hc
    rw [h.itagMicFree] at hi
    rw [hcb i hi] at hc ⊢
    rw [hib i hi, h.ibMicFree]
    exact hl.bounded i hi hc
  · intro i j hi hj hij hci hcj
    rw [h.itagMicFree] at hi hj
    rw [hcb i hi] at hci ⊢
    rw [hcb j hj] at hcj ⊢
    rw [hib i hi, hib j hj]
    exact hl.disjoint i j hi hj hij hci hcj
  · intro i hi
    have hd : ∀ a, p.ib i ≤ a → a < p.ib i + p.cb i → q.data a = p.data a := fun a _ ha₂ => by
      have := hl.bounded i hi (by omega)
      exact h.bytes a (by omega)
    unfold getPtr_
    rw [htag i hi, hfs, Tag.line_eq, Tag.line_eq]
    congr 1
    exact Mem.read_congr hd

/-- The bytes of a page outside its free space, and the header. -/
structure EqOutsideFree (p q : BufferedPage) : Prop where
  cbBuffer : q.cbBuffer = p.cbBuffer
  cbFree : q.cbFree = p.cbFree
  samePage : SamePage p q
  data : ∀ a, a < p.cbBufferData → a < p.ibMicFree ∨ p.ibTagArray ≤ a → q.data a = p.data a

/-- In buffers of one size the two pages are the same outside the free space. -/
theorem SamePage.eqOutsideFree (h : SamePage p q) (hb : q.cbBuffer = p.cbBuffer) :
    EqOutsideFree p q where
  cbBuffer := hb
  cbFree := by
    have := h.cbFree
    omega
  samePage := h
  data a ha hfree := by
    have hD : q.ibTagArray = p.ibTagArray := by
      unfold ibTagArray cbBufferData
      rw [h.cbTagArray, h.size, hb]
    rcases hfree with hlt | hge
    · exact h.bytes a hlt
    · have hk := h.tagArray (a - p.ibTagArray) (by unfold ibTagArray at hge ⊢; omega)
      rwa [hD, Nat.add_sub_cancel' hge] at hk

/-! ## Shrinking and growing the buffer -/

/-- The page with its tag array moved to the end of a buffer of `cbNew` bytes, `cbFree` adjusted. -/
def rebuffer (p : BufferedPage) (cbNew cbFree : Nat) : BufferedPage :=
  { p with
    data := p.data.move (cbNew - p.cbTagArray_ - p.size.cbPageHeader)
      (p.cbBuffer - p.cbTagArray_ - p.size.cbPageHeader) p.cbTagArray_
    cbFree
    cbBuffer := cbNew }

/-- With room for the page in the new buffer the move of the tag array reaches no line. -/
theorem samePage_rebuffer {cbNew cbFree : Nat}
    (hroom : p.size.cbPageHeader + p.ibMicFree + p.cbTagArray_ ≤ cbNew)
    (hfree : cbFree + p.cbBuffer = p.cbFree + cbNew) : SamePage p (p.rebuffer cbNew cbFree) where
  size := rfl
  resv := rfl
  itagMicFree := rfl
  ctagReserved := rfl
  itagState := rfl
  ibMicFree := rfl
  dbtimeDirtied := rfl
  objidFDP := rfl
  cbFree := hfree
  bytes a ha := Mem.move_apply_of_not_mem _ (by omega)
  tagArray k hk := by
    have hdst : (p.rebuffer cbNew cbFree).ibTagArray
        = cbNew - p.cbTagArray_ - p.size.cbPageHeader := Nat.sub_right_comm _ _ _
    have hsrc : p.ibTagArray = p.cbBuffer - p.cbTagArray_ - p.size.cbPageHeader :=
      Nat.sub_right_comm _ _ _
    rw [hdst, hsrc]
    exact Mem.move_apply_add _ _ _ hk

/-- Setting the checksum changes no other field. -/
theorem samePage_setPageChecksum (env : DehydrateEnv) (h : SamePage p q) :
    SamePage p (q.setPageChecksum env) := by
  unfold setPageChecksum
  split_ifs with hd
  · exact h
  · exact ⟨h.size, h.resv, h.itagMicFree, h.ctagReserved, h.itagState, h.ibMicFree,
      h.dbtimeDirtied, h.objidFDP, h.cbFree, h.bytes, h.tagArray⟩

@[simp] theorem cbBuffer_setPageChecksum (env : DehydrateEnv) :
    (p.setPageChecksum env).cbBuffer = p.cbBuffer := by
  unfold setPageChecksum
  split_ifs <;> rfl

/-- Filling the free space changes neither lines nor tags. -/
theorem samePage_fill (h : SamePage p q) (b : Byte)
    (hroom : q.size.cbPageHeader + q.ibMicFree + q.cbTagArray_ ≤ q.cbBuffer) :
    SamePage p { q with data := q.data.fill q.ibMicFree q.cbContiguousBufferFree_.toNat b } := by
  refine h.trans ⟨rfl, rfl, rfl, rfl, rfl, rfl, rfl, rfl, rfl, fun a ha => ?_, fun k hk => ?_⟩
  · exact Mem.fill_apply_of_not_mem _ _ (.inl ha)
  · refine Mem.fill_apply_of_not_mem _ _ (.inr ?_)
    show q.ibMicFree + q.cbContiguousBufferFree_.toNat ≤ q.ibTagArray + k
    unfold cbContiguousBufferFree_ ibTagArray cbBufferData
    omega

/-- A size below the buffer's that `FPageIsDehydratable` allows has room for the header, the lines
and the tag array. -/
theorem Layout.room_of_dehydratable (env : DehydrateEnv) (h : p.Layout r) {cbNewSize : Nat}
    (hlt : cbNewSize < p.cbBuffer) (hmin : (p.fPageIsDehydratable env).2 ≤ cbNewSize) :
    p.size.cbPageHeader + p.ibMicFree + p.cbTagArray_ ≤ cbNewSize := by
  have hle := h.cbBuffer_le
  have hround := le_roundup_two (p.size.cbPageHeader + p.ibMicFree + p.cbTagArray_)
  unfold fPageIsDehydratable at hmin
  split_ifs at hmin with h₀ h₁
  · exact absurd hmin (by show ¬ p.size.cbPage ≤ cbNewSize; omega)
  · exact hround.trans hmin
  · exact absurd hmin (by show ¬ p.size.cbPage ≤ cbNewSize; omega)

/-- The lines are disjoint, so the bytes not free are at most those below `ibMicFree` and the tag
array. -/
theorem Layout.cbBuffer_le_add (h : p.Layout r) :
    p.cbBuffer ≤ p.cbFree + (p.size.cbPageHeader + p.ibMicFree + p.cbTagArray_) := by
  have hlines : p.cbLines ≤ p.ibMicFree := sum_le_of_disjoint h.bounded h.disjoint
  have hspace := h.space
  have hroom := h.room_buffer
  unfold cbBufferData at hspace
  unfold CPage.cbTagArray_ at hroom ⊢
  rw [Nat.mul_comm] at hspace
  omega

/-- The enforces of `DehydratePageUnadjusted_` hold when the new buffer has room, and the result is
the same page. -/
theorem dehydratePageUnadjusted_spec (env : DehydrateEnv) (h : p.Layout r) {cbNewSize : Nat}
    (hlt : cbNewSize < p.cbBuffer)
    (hroom : p.size.cbPageHeader + p.ibMicFree + p.cbTagArray_ ≤ cbNewSize) :
    ∃ d, p.dehydratePageUnadjusted_ env cbNewSize = some d ∧ d.cbBuffer = cbNewSize ∧
      SamePage p d := by
  have hle := h.cbBuffer_le
  have hmax := p.size.cbPage_le
  have hhdr : 0 < p.size.cbPageHeader := by cases p.size <;> decide
  have hfree := h.cbBuffer_le_add
  have hcbFree : p.cbFree ≤ p.cbBuffer := by
    have := h.space
    unfold cbBufferData at this
    omega
  have hs : ulong ((p.cbBuffer : Int) - cbNewSize) = p.cbBuffer - cbNewSize :=
    ulong_of_nonneg (by omega) (by omega)
  have hnew : ulong ((p.cbBuffer : Int) - (p.cbBuffer - cbNewSize : Nat)) = cbNewSize :=
    ulong_of_nonneg (by omega) (by omega)
  have hus : ushort ((p.cbBuffer - cbNewSize : Nat) : Int) = p.cbBuffer - cbNewSize :=
    ushort_natCast (by omega)
  have hcb : ushort ((p.cbFree : Int) - (p.cbBuffer - cbNewSize : Nat))
      = p.cbFree - (p.cbBuffer - cbNewSize) := ushort_of_nonneg (by omega) (by omega)
  set d := p.rebuffer cbNewSize (p.cbFree - (p.cbBuffer - cbNewSize)) with hd
  have hsame : SamePage p d := samePage_rebuffer hroom (by omega)
  refine ⟨d.setPageChecksum env, ?_, cbBuffer_setPageChecksum env,
    samePage_setPageChecksum env hsame⟩
  unfold dehydratePageUnadjusted_
  simp only [hs, hnew, hus, hcb]
  rw [guard_bind_pos (by omega), guard_bind_pos (by omega), guard_bind_pos (by omega),
    guard_bind_pos (by omega)]
  rfl

/-- The enforces of `RehydratePage` hold for a page in a buffer smaller than the page, and the
result is the same page. -/
theorem rehydratePage_spec (env : DehydrateEnv) (h : p.Layout r)
    (hlt : p.cbBuffer < p.size.cbPage) :
    ∃ q, p.rehydratePage env = some q ∧ q.cbBuffer = p.size.cbPage ∧ SamePage p q := by
  have hmax := p.size.cbPage_le
  have hroom := h.room_buffer
  have hcbFree : p.cbFree ≤ p.cbBuffer := by
    have := h.space
    unfold cbBufferData at this
    omega
  have hus : ushort ((p.size.cbPage - p.cbBuffer : Nat) : Int) = p.size.cbPage - p.cbBuffer :=
    ushort_natCast (by omega)
  have hcb : ushort ((p.cbFree : Int) + (p.size.cbPage - p.cbBuffer : Nat))
      = p.cbFree + (p.size.cbPage - p.cbBuffer) := ushort_of_nonneg (by omega) (by omega)
  set q := p.rebuffer p.size.cbPage (p.cbFree + (p.size.cbPage - p.cbBuffer)) with hq
  have hsame : SamePage p q := samePage_rebuffer (by omega) (by omega)
  have hfill := samePage_fill hsame chPAGEReHydrateFill
    (show p.size.cbPageHeader + p.ibMicFree + p.cbTagArray_ ≤ p.size.cbPage by omega)
  refine ⟨(if env.fRuntimeScrubbing then
      { q with
        data := q.data.fill q.ibMicFree q.cbContiguousBufferFree_.toNat chPAGEReHydrateFill }
    else q).setPageChecksum env, ?_, ?_, samePage_setPageChecksum env ?_⟩
  · unfold rehydratePage
    simp only [hus, hcb]
    have hg : g_cbPageMax = 32768 := rfl
    have ht : p.cbTagArray_ ≤ p.cbBuffer := by omega
    rw [guard_bind_pos (by omega), guard_bind_pos (by omega), guard_bind_pos (by omega),
      guard_bind_pos ht, guard_bind_pos (Nat.le_of_eq (Nat.sub_add_cancel (ht.trans hlt.le))),
      guard_bind_pos (by omega)]
    rfl
  · rw [cbBuffer_setPageChecksum]
    split_ifs <;> rfl
  · split_ifs
    · exact hfill
    · exact hsame

/-! ## Lossless -/

/-- A dehydration to a size the caller may ask for. -/
def Dehydration (p d : BufferedPage) : Prop :=
  ∃ env r cbNewSize, p.Layout r ∧ cbNewSize % 2 = 0 ∧ cbNewSize < p.cbBuffer ∧
    (p.fPageIsDehydratable env).2 ≤ cbNewSize ∧ p.dehydratePageUnadjusted_ env cbNewSize = some d

theorem Dehydration.samePage (h : Dehydration p q) : SamePage p q := by
  obtain ⟨env, r, n, hl, -, hlt, hmin, hd⟩ := h
  obtain ⟨d, hd', -, hs⟩ :=
    dehydratePageUnadjusted_spec env hl hlt (hl.room_of_dehydratable env hlt hmin)
  rw [hd] at hd'
  injection hd' with hd'
  exact hd' ▸ hs

/-- However often a page has been dehydrated, it is the same page. -/
theorem samePage_of_dehydrations (h : Relation.ReflTransGen Dehydration o p) : SamePage o p := by
  induction h with
  | refl => exact SamePage.refl o
  | tail _ hstep ih => exact ih.trans hstep.samePage

/-- Dehydration is lossless. For every page that satisfies the layout invariant, in a buffer of any
size, and every even `cbNewSize` below that size and at least what `FPageIsDehydratable` asks for,
the tag array moves to an even offset at or past the end of the last line. The dehydrated page
satisfies the invariant relative to the new size and shows the same lines and flags.
`RehydratePage` then gives a page of the natural size that satisfies the invariant, shows the same
lines, and is outside its free space the page of natural size from which the page was dehydrated,
at once or in several steps. -/
theorem dehydrate_rehydrate (env env' : DehydrateEnv) (h : p.Layout r) {cbNewSize : Nat}
    (heven : cbNewSize % 2 = 0) (hlt : cbNewSize < p.cbBuffer)
    (hmin : (p.fPageIsDehydratable env).2 ≤ cbNewSize) :
    p.size.cbPageHeader + p.ibMicFree ≤ cbNewSize - p.cbTagArray_ ∧
    (cbNewSize - p.cbTagArray_) % 2 = 0 ∧
    ∃ d, p.dehydratePageUnadjusted_ env cbNewSize = some d ∧ d.cbBuffer = cbNewSize ∧
      SamePage p d ∧ d.Layout r ∧ (∀ i, i < p.itagMicFree → d.getPtr_ i = p.getPtr_ i) ∧
      ∃ q, d.rehydratePage env' = some q ∧ q.FIsNormalSized ∧ SamePage p q ∧ q.Layout r ∧
        (∀ i, i < p.itagMicFree → q.getPtr_ i = p.getPtr_ i) ∧
        ∀ o : BufferedPage, o.FIsNormalSized → Relation.ReflTransGen Dehydration o p →
          EqOutsideFree o q := by
  have hroom := h.room_of_dehydratable env hlt hmin
  have hle := h.cbBuffer_le
  refine ⟨by omega, by unfold CPage.cbTagArray_ CPage.cbTag; omega, ?_⟩
  obtain ⟨d, hd, hdb, hpd⟩ := dehydratePageUnadjusted_spec env h hlt hroom
  obtain ⟨hdl, hdlines⟩ := hpd.layout h (by rw [hdb]; exact hroom) (by omega)
  obtain ⟨q, hq, hqb, hdq⟩ := rehydratePage_spec env' hdl (by rw [hpd.size]; omega)
  rw [hpd.size] at hqb
  have hpq := hpd.trans hdq
  obtain ⟨hql, hqlines⟩ := hpq.layout h (by rw [hqb]; omega) hqb.le
  refine ⟨d, hd, hdb, hpd, hdl, hdlines, q, hq, ?_, hpq, hql, hqlines, fun o ho hrun => ?_⟩
  · show q.size.cbPage = q.cbBuffer
    rw [hqb, hpq.size]
  · have hop := samePage_of_dehydrations hrun
    refine (hop.trans hpq).eqOutsideFree ?_
    rw [hqb, hop.size]
    exact ho

/-- An 8 KB page in a buffer of its size with an external header of two bytes and one line of
three, flags set. -/
def twoLinePage : BufferedPage where
  size := .kb8
  fResvTagFormatEnabled := false
  itagMicFree := 2
  ctagReserved := 1
  cbFree := 8139
  ibMicFree := 5
  itagState := 2
  data := fun a => if a < 5 then 11 else if a = 8148 then 2 else if a = 8144 then 3
    else if a = 8146 then 2 else if a = 8147 then 0x40 else 0
  cbBuffer := 8192
  checksum := 1
  dbtimeDirtied := 1
  objidFDP := 2

theorem layout_twoLinePage : twoLinePage.Layout 1 := by
  have hcases : ∀ i, i < twoLinePage.itagMicFree → i = 0 ∨ i = 1 := fun i hi => by
    change i < 2 at hi
    omega
  refine ⟨by decide, rfl, by decide, by decide, by decide +kernel, by decide, fun i hi _ => ?_,
    fun i j hi hj hij _ _ => ?_⟩
  · rcases hcases i hi with rfl | rfl <;> decide +kernel
  · rcases hcases i hi with rfl | rfl <;> rcases hcases j hj with rfl | rfl
    · exact absurd rfl hij
    · decide +kernel
    · decide +kernel
    · exact absurd rfl hij

theorem dehydrate_rehydrate_twoLine : let env : DehydrateEnv := ⟨4096, true, false, fun _ => 7⟩
    ∃ d q, twoLinePage.dehydratePageUnadjusted_ env 4096 = some d ∧ d.cbFree = 4043 ∧
      d.rehydratePage env = some q ∧ EqOutsideFree twoLinePage q := by
  intro env
  obtain ⟨-, -, d, hd, hb, hpd, -, -, q, hq, -, -, -, -, hback⟩ :=
    dehydrate_rehydrate env env layout_twoLinePage (show 4096 % 2 = 0 by decide)
      (by decide) (by decide)
  refine ⟨d, q, hd, ?_, hq, hback twoLinePage rfl .refl⟩
  have hfree : d.cbFree + 8192 = 8139 + d.cbBuffer := hpd.cbFree
  omega

end BufferedPage

end Ese
