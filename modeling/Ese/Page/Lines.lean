import Mathlib.Algebra.Order.BigOperators.Group.List
import Ese.Page.Reorganize

/-!
# The line operations

One lemma per operation of a page: from a page with the layout invariant, and with the room the
operation needs, it succeeds, keeps the layout, and changes the list of lines as its name says.
`lines` is that list, the external header first.
-/

namespace Ese

namespace CPage

variable {p q : CPage} {i j r itag : Nat}

/-- The lines of all tags, the external header first. -/
def lines (p : CPage) : List Line := (List.range p.itagMicFree).map p.getPtr_

@[simp] theorem length_lines (p : CPage) : p.lines.length = p.itagMicFree := by simp [lines]

@[simp] theorem getElem_lines (p : CPage) (h : j < p.lines.length) : p.lines[j] = p.getPtr_ j := by
  simp [lines]

theorem SameLines.lines (h : SameLines p q) : q.lines = p.lines := by
  unfold CPage.lines
  rw [h.itagMicFree]
  exact List.map_congr_left fun j hj => h.line j (List.mem_range.1 hj)

theorem cbLines_eq (p : CPage) : p.cbLines = (p.lines.map (·.pv.length)).sum := by
  unfold cbLines lines
  rw [List.map_map]
  congr 1
  exact List.map_congr_left fun j _ => (length_getPtr p j).symm

theorem cb_le_cbLines (hi : i < p.itagMicFree) : p.cb i ≤ p.cbLines := by
  unfold cbLines
  exact List.single_le_sum (by simp) _ (List.mem_map_of_mem (List.mem_range.2 hi))

/-- A tag carried over, possibly to another index, with its bytes unchanged keeps its line. -/
theorem carry {k : Nat} (hs : q.size = p.size) (he : q.tag k = p.tag j)
    (hd : ∀ a, p.ib j ≤ a → a < p.ib j + p.cb j → q.data a = p.data a) :
    q.getPtr_ k = p.getPtr_ j ∧ q.cb k = p.cb j ∧ q.ib k = p.ib j := by
  have hfs : q.fSmallFormat = p.fSmallFormat := by unfold fSmallFormat; rw [hs]
  have hcb : q.cb k = p.cb j := by unfold cb; rw [he, hfs]
  have hib : q.ib k = p.ib j := by unfold ib; rw [he, hfs]
  refine ⟨?_, hcb, hib⟩
  rw [getPtr_eq, getPtr_eq, hcb, hib, he, hfs]
  congr 1
  exact Mem.read_congr hd

/-! ## Updates of one slot -/

/-- What has to hold of an update of slot `i` with frame `[lo, hi)`: the range holds no other line,
the new line lies in it, `cbFree` pays for the difference and `ibMicFree` bounds the lines. -/
structure SlotUpdate (p q : CPage) (i lo hi : Nat) : Prop where
  touches : Touches p q i lo hi
  free : lo < hi → ∀ j, j < p.itagMicFree → j ≠ i → p.cb j ≠ 0 →
    p.ib j + p.cb j ≤ lo ∨ hi ≤ p.ib j
  within : q.cb i = 0 ∨ lo ≤ q.ib i ∧ q.ib i + q.cb i ≤ hi
  cbFree : q.cbFree + q.cb i = p.cbFree + p.cb i
  mic : q.ibMicFree ≤ p.ibTagArray
  bounded : ∀ j, j < p.itagMicFree → j ≠ i → p.cb j ≠ 0 → p.ib j + p.cb j ≤ q.ibMicFree
  boundedSelf : q.cb i ≠ 0 → q.ib i + q.cb i ≤ q.ibMicFree

/-- An update of one slot keeps the layout and sets that line alone. -/
theorem SlotUpdate.layout {lo hi : Nat} (hu : SlotUpdate p q i lo hi) (h : Layout r p)
    (hi' : i < p.itagMicFree) : Layout r q ∧ q.lines = p.lines.set i (q.getPtr_ i) := by
  have ht := hu.touches
  have hmic := h.ibMicFree_le
  have hother : ∀ j, j < p.itagMicFree → j ≠ i → q.getPtr_ j = p.getPtr_ j ∧ q.cb j = p.cb j ∧
      q.ib j = p.ib j := fun j hj hne => by
    refine carry ht.size (ht.tag j hne hj) fun a h₁ h₂ => ?_
    have := h.bounded j hj (by omega)
    refine ht.data a (by omega) ?_
    by_contra hc
    have := hu.free (by omega) j hj hne (by omega)
    omega
  have hlines : q.lines = p.lines.set i (q.getPtr_ i) := by
    refine List.ext_getElem (by simp [ht.itagMicFree]) fun k hk _ => ?_
    rw [length_lines, ht.itagMicFree] at hk
    rw [getElem_lines, List.getElem_set, getElem_lines]
    split_ifs with he
    · rw [he]
    · exact (hother k hk (Ne.symm he)).1
  have hsum : q.cbLines + p.cb i = p.cbLines + q.cb i := by
    have hlen : i < (p.lines.map (·.pv.length)).length := by simpa using hi'
    have hset : ∀ l : Line, ((p.lines.set i l).map (·.pv.length)).sum
        = ((p.lines.map (·.pv.length)).take i).sum + l.pv.length
          + ((p.lines.map (·.pv.length)).drop (i + 1)).sum := fun l => by
      rw [List.map_set, List.sum_set, if_pos hlen]
    have hp : p.lines = p.lines.set i (p.getPtr_ i) := by
      rw [← getElem_lines p (by simpa using hi'), List.set_getElem_self]
    have h₁ := hset (p.getPtr_ i)
    have h₂ := hset (q.getPtr_ i)
    rw [← hp, ← cbLines_eq, length_getPtr] at h₁
    rw [← hlines, ← cbLines_eq, length_getPtr] at h₂
    omega
  refine ⟨⟨ht.ctagReserved.trans h.ctagReserved, h.pos, ?_, ?_, ?_, ?_, ?_⟩, hlines⟩
  · rw [ht.itagMicFree]; exact h.reserved
  · have := hu.cbFree
    have := h.space
    rw [ht.itagMicFree, ht.cbPageData]
    omega
  · have := hu.mic
    have := h.tagsFit
    rw [ht.itagMicFree, ht.cbPageData]
    unfold ibTagArray TagsFit at *
    omega
  · intro j hj hc
    rw [ht.itagMicFree] at hj
    by_cases he : j = i
    · subst he
      exact hu.boundedSelf hc
    · obtain ⟨_, hcb, hib⟩ := hother j hj he
      have := hu.bounded j hj he (by omega)
      omega
  · intro j k hj hk hne hcj hck
    rw [ht.itagMicFree] at hj hk
    by_cases he : j = i
    · subst he
      obtain ⟨_, hcb, hib⟩ := hother k hk (Ne.symm hne)
      have := hu.within
      have := hu.free (by omega) k hk (Ne.symm hne) (by omega)
      omega
    · obtain ⟨_, hcb₁, hib₁⟩ := hother j hj he
      by_cases he' : k = i
      · subst he'
        have := hu.within
        have := hu.free (by omega) j hj he (by omega)
        omega
      · obtain ⟨_, hcb₂, hib₂⟩ := hother k hk he'
        have := h.disjoint j k hj hk hne (by omega) (by omega)
        omega

/-! ## Opening and closing a slot of the tag array -/

/-- Each double word of the range takes the value of the one above it. -/
theorem copyDwords_apply (c : Nat) : ∀ (a : Nat) (m : Mem) (x : Nat),
    copyDwords a c m x = if a ≤ x ∧ x < a + 4 * c then m (x + 4) else m x := by
  induction c with
  | zero =>
    intro a m x
    rw [copyDwords, if_neg (by omega)]
  | succ c ih =>
    intro a m x
    have hmove : m.move a (a + 4) 4 x = if a ≤ x ∧ x < a + 4 then m (x + 4) else m x := by
      split_ifs with h
      · obtain ⟨k, rfl⟩ : ∃ k, x = a + k := ⟨x - a, by omega⟩
        have hk : k < (m.read (a + 4) 4).length := by rw [Mem.length_read]; omega
        rw [Mem.move, Mem.write_apply_add _ _ hk, Mem.getElem_read]
        congr 1
        omega
      · exact Mem.move_apply_of_not_mem _ (by omega)
    rw [copyDwords, ih]
    split_ifs with h₁ h₂ h₂
    · exact Mem.move_apply_of_not_mem _ (by omega)
    · omega
    · rw [hmove, if_pos (by omega)]
    · rw [hmove, if_neg (by omega)]

/-- `ExpandTagArray_` duplicates tag `itag`; the tags from `itag` on move up by one index. -/
structure Expanded (p q : CPage) (itag : Nat) : Prop where
  size : q.size = p.size
  itagMicFree : q.itagMicFree = p.itagMicFree + 1
  ctagReserved : q.ctagReserved = p.ctagReserved
  cbFree : q.cbFree = p.cbFree
  ibMicFree : q.ibMicFree = p.ibMicFree
  tagLow : ∀ j, j < itag → q.tag j = p.tag j
  tagHigh : ∀ j, itag ≤ j → j < p.itagMicFree → q.tag (j + 1) = p.tag j
  data : ∀ a, a + cbTag * (p.itagMicFree + 1) < p.cbPageData → q.data a = p.data a

theorem expandTagArray_spec (hr : p.ctagReserved ≤ p.itagMicFree) (hi : itag ≤ p.itagMicFree)
    (hfit : cbTag * (p.itagMicFree + 1) ≤ p.cbPageData) :
    Expanded p (p.expandTagArray_ itag) itag := by
  have hN : p.itagMicFree + 1 < 65536 := by
    have := p.cbPageData_lt_short
    unfold cbTag at hfit; omega
  unfold cbTag at hfit
  set d : Mem := if itag ≠ p.itagMicFree then
      copyDwords (p.ptagFromItag_ p.itagMicFree) (p.itagMicFree - itag) p.data else p.data with hd
  have he : p.expandTagArray_ itag = CPage.setITagMicFree_ { p with data := d }
      (p.itagMicFree + 1) := by
    unfold expandTagArray_
    rw [hd]
    split_ifs <;> rfl
  have happ : ∀ x, d x =
      if p.ptagFromItag_ p.itagMicFree ≤ x ∧ x + 4 * (itag + 1) < p.cbPageData then p.data (x + 4)
      else p.data x := by
    intro x
    have := ptagFromItag_eq (p := p) (i := p.itagMicFree) hfit
    rw [hd]
    split_ifs with h₁ h₂ h₂
    · rw [copyDwords_apply, if_pos (by omega)]
    · rw [copyDwords_apply, if_neg (by omega)]
    · omega
    · rfl
  rw [he]
  have htag : ∀ j, CPage.tag (CPage.setITagMicFree_ { p with data := d } (p.itagMicFree + 1)) j
      = ⟨d.readU16 (p.ptagFromItag_ j), d.readU16 (p.ptagFromItag_ j + 2)⟩ := fun _ => rfl
  refine ⟨rfl, ?_, ?_, rfl, rfl, ?_, ?_, ?_⟩
  · exact_mod_cast ushort_natCast hN
  · show ushort (p.ctagReserved : Nat) = _
    exact ushort_natCast (by omega)
  · intro j hj
    have := ptagFromItag_eq (p := p) (i := j) (by unfold Fits; omega)
    rw [htag]
    have hlow : ∀ x, p.ptagFromItag_ j ≤ x → d x = p.data x := fun x hx => by
      rw [happ, if_neg (by omega)]
    rw [Mem.readU16_congr (hlow _ (by omega)) (hlow _ (by omega)),
      Mem.readU16_congr (hlow _ (by omega)) (hlow _ (by omega))]
    rfl
  · intro j hj hlt
    have hN := ptagFromItag_eq (p := p) (i := p.itagMicFree) hfit
    have h₁ := ptagFromItag_eq (p := p) (i := j + 1) (by unfold Fits; omega)
    have h₀ := ptagFromItag_eq (p := p) (i := j) (by unfold Fits; omega)
    rw [htag]
    have hup : ∀ x y, x = y + 4 → p.ptagFromItag_ j ≤ x → x < p.ptagFromItag_ j + 4 →
        d y = p.data x := by
      rintro x y rfl h₁ h₂
      rw [happ, if_pos (by omega)]
    apply Tag.ext
    · exact Mem.readU16_congr (hup _ _ (by omega) (by omega) (by omega))
        (hup _ _ (by omega) (by omega) (by omega))
    · exact Mem.readU16_congr (hup _ _ (by omega) (by omega) (by omega))
        (hup _ _ (by omega) (by omega) (by omega))
  · intro a ha
    have := ptagFromItag_eq (p := p) (i := p.itagMicFree) hfit
    show d a = _
    unfold cbTag at ha
    rw [happ, if_neg (by omega)]

/-! ## Placing a line at the end of the lines -/

/-- The common end of `Insert_` and of a moving `Replace_`: tag `i` is pointed at `ibMicFree` and
the data is stored there. -/
def place (p : CPage) (i cbTotal cbFree : Nat) (rgdata : List (List Byte)) (f : BitVec 16) :
    CPage :=
  let p := p.setIb i p.ibMicFree
  let p := { p with ibMicFree := ushort (p.ibMicFree + cbTotal), cbFree := cbFree }
  ((p.setCb i cbTotal).setFlags i f).copyData_ i rgdata

theorem place_spec (hp : p.TagsFit) (hi : i < p.itagMicFree) (rgdata : List (List Byte))
    (f : BitVec 16) (cbFree : Nat)
    (hroom : p.ibMicFree + rgdata.flatten.length ≤ p.ibTagArray)
    (hq : p.place i rgdata.flatten.length cbFree rgdata f = q) :
    Touches p q i p.ibMicFree (p.ibMicFree + rgdata.flatten.length) ∧
      q.ib i = p.ibMicFree ∧ q.cb i = rgdata.flatten.length ∧
      q.ibMicFree = p.ibMicFree + rgdata.flatten.length ∧ q.cbFree = cbFree ∧
      q.getPtr_ i = Line.store p.fSmallFormat (i == 0) rgdata.flatten f := by
  subst hq
  set cbTotal := rgdata.flatten.length with hcbTotal
  have hle := p.ibTagArray_le
  have hlt := p.cbPageData_lt
  have hshort := p.cbPageData_lt_short
  set p₁ := p.setIb i p.ibMicFree
  have ht₁ : Touches p p₁ i p.ibMicFree (p.ibMicFree + cbTotal) := touches_setIb hp hi _
  have hib₁ : p₁.ib i = p.ibMicFree := ib_setIb (by omega)
  set p₂ : CPage := { p₁ with ibMicFree := ushort (p₁.ibMicFree + cbTotal), cbFree := cbFree }
  have ht₂ : Touches p p₂ i p.ibMicFree (p.ibMicFree + cbTotal) := ht₁.trans (Touches.header _ _)
  have hi₂ : i < p₂.itagMicFree := by rw [ht₂.itagMicFree]; exact hi
  set p₃ := p₂.setCb i cbTotal
  have ht₃ : Touches p p₃ i p.ibMicFree (p.ibMicFree + cbTotal) :=
    ht₂.trans (touches_setCb (ht₂.tagsFit hp) hi₂ _)
  have hcb₃ : p₃.cb i = cbTotal := cb_setCb (by rw [ht₂.fSmallFormat]; omega)
  have hib₃ : p₃.ib i = p.ibMicFree := by rw [ib_setCb]; exact hib₁
  have hw : p₃.Within i p.ibMicFree (p.ibMicFree + cbTotal) := by
    refine .inr ⟨hib₃.ge, ?_, ?_⟩
    · rw [hib₃, hcb₃]
    · rw [hib₃, hcb₃, ht₃.ibTagArray]; exact hroom
  have hst := stored_copyData (ht₃.tagsFit hp) (by rw [ht₃.itagMicFree]; exact hi) f rgdata
    hcb₃ hw
  refine ⟨ht₃.trans hst.touches, hst.ib.trans hib₃, hst.cb.trans hcb₃, ?_, hst.cbFree, ?_⟩
  · refine hst.ibMicFree.trans ?_
    exact_mod_cast ushort_natCast (n := p.ibMicFree + cbTotal) (by omega)
  · rw [← ht₃.fSmallFormat]
    exact hst.line

/-! ## Insert -/

/-- What has to hold of the insertion of slot `itag`: the tags from `itag` on have moved up by one
index, the new tag names `cbTotal` bytes at the former end of the lines, those below that end are as
they were, and the counts include the new line and its tag. -/
structure SlotInsert (p q : CPage) (itag cbTotal : Nat) : Prop where
  size : q.size = p.size
  itagMicFree : q.itagMicFree = p.itagMicFree + 1
  tagLow : ∀ j, j < itag → q.tag j = p.tag j
  tagHigh : ∀ j, itag ≤ j → j < p.itagMicFree → q.tag (j + 1) = p.tag j
  data : ∀ a, a < p.ibMicFree → q.data a = p.data a
  ib : q.ib itag = p.ibMicFree
  cb : q.cb itag = cbTotal
  ibMicFree : q.ibMicFree = p.ibMicFree + cbTotal
  cbFree : q.cbFree + (cbTotal + cbTag) = p.cbFree

/-- An insertion for which there was room keeps the layout and adds one line. -/
theorem SlotInsert.layout {cb s : Nat} (hx : SlotInsert p q itag cb) (h : Layout r p)
    (hi : itag ≤ p.itagMicFree) (hroom : p.ibMicFree + (cb + cbTag) ≤ p.ibTagArray)
    (hr : q.ctagReserved = s) (hpos : 1 ≤ s) (hs : s ≤ p.itagMicFree + 1) :
    Layout s q ∧ q.lines = p.lines.insertIdx itag (q.getPtr_ itag) := by
  have hN := hx.itagMicFree
  have hD : q.cbPageData = p.cbPageData := by unfold cbPageData; rw [hx.size]
  have hlineOf : ∀ j k, j < p.itagMicFree → q.tag k = p.tag j →
      q.getPtr_ k = p.getPtr_ j ∧ q.cb k = p.cb j ∧ q.ib k = p.ib j := fun j k hj he =>
    carry hx.size he fun a ha₁ ha₂ => hx.data a (by
      have := h.bounded j hj (by omega)
      omega)
  -- the other tags: those below the slot as they were, those above it one index up
  have hold : ∀ k, k < q.itagMicFree → k ≠ itag → ∃ j, j < p.itagMicFree ∧
      q.tag k = p.tag j ∧ (j = if k < itag then k else k - 1) := fun k hk hne => by
    rcases Nat.lt_or_ge k itag with hlt | hge
    · exact ⟨k, by omega, hx.tagLow k hlt, by rw [if_pos hlt]⟩
    · refine ⟨k - 1, by omega, ?_, by rw [if_neg (by omega)]⟩
      have := hx.tagHigh (k - 1) (by omega) (by omega)
      rwa [Nat.sub_add_cancel (by omega)] at this
  have hlines : q.lines = p.lines.insertIdx itag (q.getPtr_ itag) := by
    have hlen : p.lines.length = p.itagMicFree := length_lines p
    refine List.ext_getElem (by
      rw [List.length_insertIdx_of_le_length (by omega), length_lines, hlen, hN]) fun k hk _ => ?_
    rw [length_lines] at hk
    rw [getElem_lines, List.getElem_insertIdx]
    split_ifs with hk₁ hk₂
    · rw [getElem_lines]
      exact (hlineOf k k (by omega) (hx.tagLow k hk₁)).1
    · rw [hk₂]
    · rw [getElem_lines]
      obtain ⟨j, hj, he, hje⟩ := hold k hk hk₂
      rw [if_neg hk₁] at hje
      rw [← hje]
      exact (hlineOf j k hj he).1
  have hib := hx.ib
  have hcb := hx.cb
  have hmic := hx.ibMicFree
  refine ⟨⟨hr, hpos, by omega, ?_, ?_, ?_, ?_⟩, hlines⟩
  · -- the new line and its tag are taken from `cbFree`
    have hsum : q.cbLines = cb + p.cbLines := by
      rw [cbLines_eq, hlines, List.map_insertIdx, cbLines_eq,
        List.CommMonoid.sum_insertIdx (by simpa using hi), length_getPtr, hcb]
    have := hx.cbFree
    have := h.space
    rw [hsum, hN, hD]
    unfold cbTag at *
    omega
  · rw [hmic, hN, hD]
    unfold ibTagArray cbTag at *
    omega
  · intro k hk hc
    by_cases he : k = itag
    · subst he
      omega
    · obtain ⟨j, hj, ht', _⟩ := hold k hk he
      obtain ⟨_, hcb', hib'⟩ := hlineOf j k hj ht'
      have := h.bounded j hj (by omega)
      omega
  · intro k k' hk hk' hne hc hc'
    by_cases he : k = itag
    · subst he
      obtain ⟨j, hj, ht', _⟩ := hold k' hk' (by omega)
      obtain ⟨_, hcb', hib'⟩ := hlineOf j k' hj ht'
      have := h.bounded j hj (by omega)
      omega
    · obtain ⟨j, hj, ht', hje⟩ := hold k hk he
      obtain ⟨_, hcb₁, hib₁⟩ := hlineOf j k hj ht'
      by_cases he' : k' = itag
      · subst he'
        have := h.bounded j hj (by omega)
        omega
      · obtain ⟨j', hj', ht'', hje'⟩ := hold k' hk' he'
        obtain ⟨_, hcb₂, hib₂⟩ := hlineOf j' k' hj' ht''
        have hjj : j ≠ j' := by
          split_ifs at hje hje' <;> omega
        have := h.disjoint j j' hj hj' hjj (by omega) (by omega)
        omega

/-- Emptying a slot before it is given its place. -/
theorem touches_emptySlot (lo hi : Nat) (hp : p.TagsFit) (hi' : i < p.itagMicFree) :
    Touches p (((p.setCb i 0).setIb i 0).setFlags i 0) i lo hi ∧
      (((p.setCb i 0).setIb i 0).setFlags i 0).cb i = 0 ∧
      (((p.setCb i 0).setIb i 0).setFlags i 0).ibMicFree = p.ibMicFree ∧
      (((p.setCb i 0).setIb i 0).setFlags i 0).cbFree = p.cbFree := by
  have ht₁ : Touches p (p.setCb i 0) i lo hi := touches_setCb hp hi' 0
  have hcb₁ : (p.setCb i 0).cb i = 0 := cb_setCb (by unfold Tag.ibCbMac; split <;> omega)
  set p₁ := p.setCb i 0
  have ht₂ : Touches p (p₁.setIb i 0) i lo hi :=
    ht₁.trans (touches_setIb (ht₁.tagsFit hp) (by rw [ht₁.itagMicFree]; exact hi') 0)
  have hcb₂ : (p₁.setIb i 0).cb i = 0 := by rw [cb_setIb, hcb₁]
  set p₂ := p₁.setIb i 0
  have hst : Stored p₂ (p₂.setFlags i 0) i lo hi (p₂.getPtr_ i).pv 0 :=
    stored_setFlags (ht₂.tagsFit hp) (by rw [ht₂.itagMicFree]; exact hi') 0 (.inl hcb₂)
  exact ⟨ht₂.trans hst.touches, hst.cb.trans hcb₂, hst.ibMicFree, hst.cbFree⟩

/-- The bytes outside a line survive its scrubbing. -/
theorem scrub_apply (p : CPage) (fScrub : Bool) (i : Nat) (ch : Byte) {a : Nat}
    (ha : a < p.ib i ∨ p.ib i + p.cb i ≤ a) :
    (if fScrub then p.data.fill (p.ib i) (p.cb i) ch else p.data) a = p.data a := by
  split_ifs
  · exact Mem.fill_apply_of_not_mem _ _ ha
  · rfl

/-- Once there is room, `Insert_` puts the line behind all others. -/
theorem insert_slotInsert {p₁ : CPage} {env : PageEnv} (hl₁ : Layout r p₁) (h₁ : r ≤ itag)
    (hi : itag ≤ p₁.itagMicFree) {rgdata : List (List Byte)} (f : BitVec 16)
    (hp₁ : p.freeSpace_ env (rgdata.flatten.length + cbTag) = some p₁)
    (hroom₁ : p₁.ibMicFree + (rgdata.flatten.length + cbTag) ≤ p₁.ibTagArray)
    (hcb : rgdata.flatten.length + cbTag ≤ p₁.cbFree) :
    ∃ q, p.insert_ env itag rgdata f = some q ∧
      SlotInsert p₁ q itag rgdata.flatten.length ∧ q.ctagReserved = r ∧
      q.getPtr_ itag = Line.store p₁.fSmallFormat false rgdata.flatten f := by
  set cbTotal := rgdata.flatten.length with hcbTotal
  have hshort := p₁.cbPageData_lt_short
  have hspace := hl₁.space
  have hush : ushort (cbDataTotal_ rgdata) = cbTotal := by
    rw [cbDataTotal_eq]
    exact ushort_natCast (by omega)
  have hx := expandTagArray_spec (hl₁.ctagReserved.trans_le hl₁.reserved) hi
    (by unfold ibTagArray cbTag at *; omega)
  set p₂ := p₁.expandTagArray_ itag
  have hD₂ : p₂.cbPageData = p₁.cbPageData := by unfold cbPageData; rw [hx.size]
  have hfs₂ : p₂.fSmallFormat = p₁.fSmallFormat := by unfold fSmallFormat; rw [hx.size]
  have hN₂ := hx.itagMicFree
  have hi₂ : itag < p₂.itagMicFree := by omega
  have hroom₂ : p₂.ibMicFree + cbTotal ≤ p₂.ibTagArray := by
    rw [hx.ibMicFree]
    unfold ibTagArray cbTag at *
    rw [hN₂, hD₂]
    omega
  have hfit₂ : p₂.TagsFit := by
    unfold TagsFit
    unfold ibTagArray cbTag at *
    omega
  obtain ⟨ht₅, hcb₅, hmic₅, hcbf₅⟩ :=
    touches_emptySlot p₂.ibMicFree (p₂.ibMicFree + cbTotal) hfit₂ hi₂
  set p₅ := ((p₂.setCb itag 0).setIb itag 0).setFlags itag 0 with hp₅
  obtain ⟨ht₆, hib₆, hcb₆, hmic₆, hcbf₆, hline₆⟩ := place_spec (ht₅.tagsFit hfit₂)
    (by rw [ht₅.itagMicFree]; exact hi₂) rgdata f (ushort (p₅.cbFree - (cbTotal + cbTag)))
    (by rw [hmic₅, ht₅.ibTagArray]; exact hroom₂) rfl
  rw [← hcbTotal] at ht₆ hib₆ hcb₆ hmic₆ hcbf₆ hline₆
  set q := p₅.place itag cbTotal (ushort (p₅.cbFree - (cbTotal + cbTag))) rgdata f with hq
  rw [hmic₅, hx.ibMicFree] at hib₆ hmic₆
  rw [hmic₅] at ht₆
  rw [hcbf₅, hx.cbFree] at hcbf₆
  have ht := ht₅.trans ht₆
  have hcbf : ushort ((p₁.cbFree : Int) - (cbTotal + cbTag)) = p₁.cbFree - (cbTotal + cbTag) :=
    ushort_of_nonneg (by omega) (by omega)
  have hins : SlotInsert p₁ q itag cbTotal := by
    refine ⟨by rw [ht.size, hx.size], by rw [ht.itagMicFree, hN₂], fun j hj => ?_,
      fun j hj hlt => ?_, fun a ha => ?_, hib₆, hcb₆, hmic₆, ?_⟩
    · rw [ht.tag j (by omega) (by omega), hx.tagLow j hj]
    · rw [ht.tag (j + 1) (by omega) (by omega), hx.tagHigh j hj (by omega)]
    · have := hx.ibMicFree
      rw [ht.data a (by omega) (.inl (by omega)), hx.data a (by
        unfold ibTagArray cbTag at *; omega)]
    · rw [hcbf₆, hcbf]
      omega
  have hk0 : itag ≠ 0 := by have := hl₁.pos; omega
  have hzb : (itag == 0) = false := by simpa using hk0
  refine ⟨q, ?_, hins, by rw [ht.ctagReserved, hx.ctagReserved, hl₁.ctagReserved], ?_⟩
  · unfold insert_
    simp only [hush, hp₁, Option.bind_eq_bind, Option.bind_some]
    rfl
  · rw [hline₆, hzb, ht₅.fSmallFormat, hfs₂]

/-- **`Insert_` inserts a line**, which is then the last one on the page. -/
theorem insert_spec (env : PageEnv) (h : Layout r p) (h₁ : r ≤ itag) (hi : itag ≤ p.itagMicFree)
    {rgdata : List (List Byte)} (f : BitVec 16)
    (hcb : rgdata.flatten.length + cbTag ≤ p.cbFree)
    (hc : p.Compactable env (rgdata.flatten.length + cbTag)) :
    ∃ q, p.insert_ env itag rgdata f = some q ∧ Layout r q ∧ q.size = p.size ∧
      q.lines = p.lines.insertIdx itag (Line.store p.fSmallFormat false rgdata.flatten f) := by
  obtain ⟨p₁, hp₁, hs₁, hl₁, hroom₁⟩ := freeSpace_spec env h hcb hc
  have hi₁ : itag ≤ p₁.itagMicFree := by rw [hs₁.itagMicFree]; exact hi
  obtain ⟨q, hq, hins, hres, hline⟩ :=
    insert_slotInsert hl₁ h₁ hi₁ f hp₁ hroom₁ (by rw [hs₁.cbFree]; exact hcb)
  obtain ⟨hl, hlines⟩ := hins.layout hl₁ hi₁ hroom₁ (s := r) hres h.pos
    (by have := hl₁.reserved; omega)
  refine ⟨q, hq, hl, by rw [hins.size, hs₁.size], ?_⟩
  rw [hlines, hs₁.lines, hline]
  unfold fSmallFormat
  rw [hs₁.size]

/-- Without the buffer for the compaction that it needs, it writes past its end. -/
theorem insert_eq_none {env : PageEnv} {rgdata : List (List Byte)} {f : BitVec 16}
    (hcb : rgdata.flatten.length < 65536)
    (hc : ¬ p.Compactable env (rgdata.flatten.length + cbTag)) :
    p.insert_ env itag rgdata f = none := by
  have hush : ushort (cbDataTotal_ rgdata) = rgdata.flatten.length := by
    rw [cbDataTotal_eq]
    exact ushort_natCast hcb
  unfold insert_
  simp only [hush, freeSpace_eq_none env hc, Option.bind_eq_bind, Option.bind_none]

/-- Where the page has the room, the line goes to the end of the lines as they are. -/
theorem insert_of_le (env : PageEnv) (h : Layout r p) (h₁ : r ≤ itag) (hi : itag ≤ p.itagMicFree)
    {rgdata : List (List Byte)} (f : BitVec 16)
    (hcb : rgdata.flatten.length + cbTag ≤ p.cbFree)
    (hle : ((rgdata.flatten.length + cbTag : Nat) : Int) ≤ p.cbContiguousFree_) :
    ∃ q, p.insert_ env itag rgdata f = some q ∧ Layout r q ∧
      SlotInsert p q itag rgdata.flatten.length := by
  have hcont := h.cbContiguousFree
  have hmic := h.ibMicFree_le
  have hroom : p.ibMicFree + (rgdata.flatten.length + cbTag) ≤ p.ibTagArray := by omega
  obtain ⟨q, hq, hins, hres, _⟩ :=
    insert_slotInsert h h₁ hi f (freeSpace_of_le env hle) hroom hcb
  exact ⟨q, hq, (hins.layout h hi hroom (s := r) hres h.pos (by have := h.reserved; omega)).1, hins⟩

end CPage

end Ese
