import Ese.Page.Lines

/-!
# Replace

`Replace_` has three ways to store the new bytes: in place when the line does not grow, in place
when it is the last line and the bytes after it are free, and at the end of the lines otherwise.
Each is a `SlotUpdate`; the moving one goes through a page on which the slot is empty, since that
is the page `FreeSpace_` compacts.
-/

namespace Ese

namespace CPage

variable {p q : CPage} {i r : Nat}

/-- **`ReplaceFlags_` sets the flags of one line.** -/
theorem replaceFlags_spec (h : Layout r p) (hi : i < p.itagMicFree) (f : BitVec 16) :
    Layout r (p.replaceFlags_ i f) ∧ (p.replaceFlags_ i f).size = p.size ∧
      (p.replaceFlags_ i f).lines
        = p.lines.set i (Line.store p.fSmallFormat (i == 0) (p.getPtr_ i).pv f) := by
  have hmic := h.ibMicFree_le
  have hw : p.Within i (p.ib i) (p.ib i + p.cb i) := by
    rcases Nat.eq_zero_or_pos (p.cb i) with hz | hz
    · exact .inl hz
    · have := h.bounded i hi (by omega)
      exact .inr ⟨le_rfl, le_rfl, by omega⟩
  have hst := stored_setFlags h.tagsFit hi f hw
  have hu : SlotUpdate p (p.setFlags i f) i (p.ib i) (p.ib i + p.cb i) := by
    refine ⟨hst.touches, fun hlt j hj hne hc => ?_, .inr ?_, ?_, ?_, ?_, ?_⟩
    · have := h.disjoint j i hj hi hne hc (by omega)
      omega
    · rw [hst.ib, hst.cb]
      omega
    · rw [hst.cbFree, hst.cb]
    · rw [hst.ibMicFree]; exact hmic
    · intro j hj _ hc
      rw [hst.ibMicFree]; exact h.bounded j hj hc
    · rw [hst.ib, hst.cb, hst.ibMicFree]; exact h.bounded i hi
  obtain ⟨hl, hlines⟩ := hu.layout h hi
  rw [hst.line] at hlines
  exact ⟨hl, hst.touches.size, hlines⟩

/-- Scrubbing bytes that follow a line in its own former range. -/
theorem Layout.scrub_after (h : Layout r p) (hi : i < p.itagMicFree) {n : Nat} (b : Byte)
    (hn : p.ib i + p.cb i + n ≤ p.ibTagArray)
    (hfree : ∀ j, j < p.itagMicFree → j ≠ i → p.cb j ≠ 0 →
      p.ib j + p.cb j ≤ p.ib i + p.cb i ∨ p.ib i + p.cb i + n ≤ p.ib j) :
    SameLines p { p with data := p.data.fill (p.ib i + p.cb i) n b } ∧
      Layout r { p with data := p.data.fill (p.ib i + p.cb i) n b } := by
  refine h.of_unused (fun j hj a h₁ h₂ => Mem.fill_apply_of_not_mem _ _ ?_)
    (fun a ha => Mem.fill_apply_of_not_mem _ _ (by omega))
  by_cases he : j = i
  · subst he; omega
  · have := hfree j hj he (by omega)
    omega

/-- The line is stored where it is: it does not grow past the bytes that are its own or free. -/
theorem replaceInPlace_spec (h : Layout r p) (hi : i < p.itagMicFree) (rgdata : List (List Byte))
    (f : BitVec 16) (cbFree ibMicFree : Nat)
    (hcbFree : cbFree + rgdata.flatten.length = p.cbFree + p.cb i)
    (hmic : ibMicFree ≤ p.ibTagArray)
    (hbound : ∀ j, j < p.itagMicFree → j ≠ i → p.cb j ≠ 0 → p.ib j + p.cb j ≤ ibMicFree)
    (hfree : rgdata.flatten.length ≠ 0 → ∀ j, j < p.itagMicFree → j ≠ i → p.cb j ≠ 0 →
      p.ib j + p.cb j ≤ p.ib i ∨ p.ib i + rgdata.flatten.length ≤ p.ib j)
    (hself : rgdata.flatten.length ≠ 0 → p.ib i + rgdata.flatten.length ≤ ibMicFree)
    (hq : ((CPage.setCb { p with cbFree := cbFree, ibMicFree := ibMicFree } i
      rgdata.flatten.length).setFlags i f).copyData_ i rgdata = q) :
    Layout r q ∧ q.size = p.size ∧ q.itagMicFree = p.itagMicFree ∧ q.ib i = p.ib i ∧
      q.cb i = rgdata.flatten.length ∧
      (∀ j, j < p.itagMicFree → j ≠ i → q.cb j = p.cb j ∧ q.ib j = p.ib j) ∧
      q.lines = p.lines.set i (Line.store p.fSmallFormat (i == 0) rgdata.flatten f) := by
  set cbTotal := rgdata.flatten.length with hcbTotal
  have hle := p.ibTagArray_le
  have hlt := p.cbPageData_lt
  have hmic₀ := h.ibMicFree_le
  have hspace := h.space
  have hcbT : cbTotal ≤ p.cbPageData := by
    rcases Nat.eq_zero_or_pos cbTotal with hz | hz
    · omega
    · have := hself (by omega)
      omega
  set p₁ : CPage := { p with cbFree := cbFree, ibMicFree := ibMicFree }
  have ht₁ : Touches p p₁ i (p.ib i) (p.ib i + cbTotal) := Touches.header _ _
  set p₂ := p₁.setCb i cbTotal
  have ht₂ : Touches p p₂ i (p.ib i) (p.ib i + cbTotal) :=
    ht₁.trans (touches_setCb (ht₁.tagsFit h.tagsFit) hi _)
  have hcb₂ : p₂.cb i = cbTotal := cb_setCb (by rw [ht₁.fSmallFormat]; omega)
  have hib₂ : p₂.ib i = p.ib i := ib_setCb _
  have hw : p₂.Within i (p.ib i) (p.ib i + cbTotal) := by
    unfold Within
    rw [hib₂, hcb₂, ht₂.ibTagArray]
    rcases Nat.eq_zero_or_pos cbTotal with hz | hz
    · exact .inl hz
    · have := hself (by omega)
      exact .inr ⟨le_rfl, le_rfl, by omega⟩
  have hst : Stored p₂ q i (p.ib i) (p.ib i + cbTotal) rgdata.flatten f :=
    hq ▸ stored_copyData (ht₂.tagsFit h.tagsFit) (by rw [ht₂.itagMicFree]; exact hi) f rgdata hcb₂
      hw
  have ht := ht₂.trans hst.touches
  have hcb : q.cb i = cbTotal := hst.cb.trans hcb₂
  have hib : q.ib i = p.ib i := hst.ib.trans hib₂
  have hu : SlotUpdate p q i (p.ib i) (p.ib i + cbTotal) := by
    refine ⟨ht, fun hlt => hfree (by omega), .inr ?_, ?_, ?_, ?_, ?_⟩
    · omega
    · have : q.cbFree = cbFree := hst.cbFree
      omega
    · have : q.ibMicFree = ibMicFree := hst.ibMicFree
      omega
    · intro j hj hne hc
      have : q.ibMicFree = ibMicFree := hst.ibMicFree
      have := hbound j hj hne hc
      omega
    · intro hc
      have : q.ibMicFree = ibMicFree := hst.ibMicFree
      have := hself (by omega)
      omega
  obtain ⟨hl, hlines⟩ := hu.layout h hi
  have hline := hst.line
  rw [ht₂.fSmallFormat] at hline
  rw [hline] at hlines
  exact ⟨hl, ht.size, ht.itagMicFree, hib, hcb, fun j hj hne => ⟨ht.cb hne hj, ht.ib hne hj⟩,
    hlines⟩

/-- Emptying a slot gives its bytes back to `cbFree`; what its bytes become does not matter. -/
theorem emptySlot_spec (h : Layout r p) (hi : i < p.itagMicFree) (d : Mem)
    (hd : ∀ a, a < p.ib i ∨ p.ib i + p.cb i ≤ a → d a = p.data a)
    (hq : ((CPage.setIb { p with data := d, cbFree := ushort (p.cbFree + p.cb i) } i 0).setCb
      i 0).setFlags i 0 = q) :
    Layout r q ∧ q.size = p.size ∧ q.itagMicFree = p.itagMicFree ∧ q.cb i = 0 ∧
      q.cbFree = p.cbFree + p.cb i ∧ q.ibMicFree = p.ibMicFree ∧
      q.lines = p.lines.set i (q.getPtr_ i) := by
  have hmic := h.ibMicFree_le
  have hspace := h.space
  have hshort := p.cbPageData_lt_short
  have hlim : ∀ s, 0 < Tag.ibCbMac s := fun s => by cases s <;> decide
  have hcbi := cb_le_cbLines hi
  have hcbF : ushort (p.cbFree + p.cb i) = p.cbFree + p.cb i := by
    exact_mod_cast ushort_natCast (n := p.cbFree + p.cb i) (by omega)
  have hbi : p.cb i ≠ 0 → p.ib i + p.cb i ≤ p.ibMicFree := h.bounded i hi
  set p₁ : CPage := { p with data := d, cbFree := ushort (p.cbFree + p.cb i) }
  have hda : ∀ a, p.ibTagArray ≤ a → d a = p.data a := fun a ha => hd a (by omega)
  have ht₁ : Touches p p₁ i (p.ib i) (p.ib i + p.cb i) :=
    (Touches.of_data h.tagsFit hda hd).trans (Touches.header _ _)
  have ht₂ : Touches p (p₁.setIb i 0) i (p.ib i) (p.ib i + p.cb i) :=
    ht₁.trans (touches_setIb (ht₁.tagsFit h.tagsFit) hi 0)
  set p₂ := p₁.setIb i 0
  have hi₂ : i < p₂.itagMicFree := by rw [ht₂.itagMicFree]; exact hi
  have ht₃ : Touches p (p₂.setCb i 0) i (p.ib i) (p.ib i + p.cb i) :=
    ht₂.trans (touches_setCb (ht₂.tagsFit h.tagsFit) hi₂ 0)
  set p₃ := p₂.setCb i 0
  have hcb₃ : p₃.cb i = 0 := cb_setCb (hlim _)
  have hi₃ : i < p₃.itagMicFree := by rw [ht₃.itagMicFree]; exact hi
  have hst : Stored p₃ q i (p.ib i) (p.ib i + p.cb i) (p₃.getPtr_ i).pv 0 :=
    hq ▸ stored_setFlags (ht₃.tagsFit h.tagsFit) hi₃ 0 (.inl hcb₃)
  have ht := ht₃.trans hst.touches
  have hcb : q.cb i = 0 := hst.cb.trans hcb₃
  have hcbFree : q.cbFree = p.cbFree + p.cb i := hst.cbFree.trans hcbF
  have hqmic : q.ibMicFree = p.ibMicFree := hst.ibMicFree
  have hu : SlotUpdate p q i (p.ib i) (p.ib i + p.cb i) := by
    refine ⟨ht, fun hlt j hj hne hc => ?_, .inl hcb, by omega, by omega, ?_,
      fun hc => absurd hcb hc⟩
    · have := h.disjoint j i hj hi hne hc (by omega)
      omega
    · intro j hj _ hc
      rw [hqmic]; exact h.bounded j hj hc
  obtain ⟨hl, hlines⟩ := hu.layout h hi
  exact ⟨hl, ht.size, ht.itagMicFree, hcb, hcbFree, hqmic, hlines⟩

/-- The line is stored after all others. -/
theorem place_layout (h : Layout r p) (hi : i < p.itagMicFree) (hz : p.cb i = 0)
    (rgdata : List (List Byte)) (f : BitVec 16) (cbFree : Nat)
    (hcbFree : cbFree + rgdata.flatten.length = p.cbFree)
    (hroom : p.ibMicFree + rgdata.flatten.length ≤ p.ibTagArray)
    (hq : p.place i rgdata.flatten.length cbFree rgdata f = q) :
    Layout r q ∧ q.size = p.size ∧
      q.lines = p.lines.set i (Line.store p.fSmallFormat (i == 0) rgdata.flatten f) := by
  obtain ⟨ht, hib, hcb, hmic, hcbf, hline⟩ := place_spec h.tagsFit hi rgdata f cbFree hroom hq
  have hu : SlotUpdate p q i p.ibMicFree (p.ibMicFree + rgdata.flatten.length) := by
    refine ⟨ht, fun _ j hj _ hc => .inl (h.bounded j hj hc), .inr ?_, by omega, by omega,
      fun j hj _ hc => ?_, fun _ => by omega⟩
    · omega
    · have := h.bounded j hj hc
      omega
  obtain ⟨hl, hlines⟩ := hu.layout h hi
  rw [hline] at hlines
  exact ⟨hl, ht.size, hlines⟩

/-! ## The operation -/

/-- A line that grows is moved, unless it is the last one and the bytes after it are free. -/
def Moves (p : CPage) (i cbTotal : Nat) : Prop :=
  p.cb i < cbTotal ∧
    ¬ (p.ib i + p.cb i = p.ibMicFree ∧ (cbTotal : Int) - p.cb i ≤ p.cbContiguousFree_)

/-- The page on which the bytes of a moved line are given back. -/
def emptied (p : CPage) (env : PageEnv) (i : Nat) : CPage :=
  let data := if env.fRuntimeScrubbing then
    p.data.fill (p.ib i) (p.cb i) chPAGEReplaceFill else p.data
  ((CPage.setIb { p with data, cbFree := ushort (p.cbFree + p.cb i) } i 0).setCb i 0).setFlags i 0

theorem emptied_spec (env : PageEnv) (h : Layout r p) (hi : i < p.itagMicFree) :
    Layout r (p.emptied env i) ∧ (p.emptied env i).size = p.size ∧
      (p.emptied env i).itagMicFree = p.itagMicFree ∧ (p.emptied env i).cb i = 0 ∧
      (p.emptied env i).cbFree = p.cbFree + p.cb i ∧
      (p.emptied env i).ibMicFree = p.ibMicFree ∧
      (p.emptied env i).lines = p.lines.set i ((p.emptied env i).getPtr_ i) :=
  emptySlot_spec h hi _ (fun _ ha => p.scrub_apply _ i _ ha) rfl

/-- Giving the bytes back leaves the room before the tag array as it is. -/
theorem emptied_compactable {env : PageEnv} (h : Layout r p) (hi : i < p.itagMicFree) {cb : Nat} :
    (p.emptied env i).Compactable env cb ↔ p.Compactable env cb := by
  obtain ⟨_, hsz, hN, _, _, hmic, _⟩ := emptied_spec env h hi
  have hcont : (p.emptied env i).cbContiguousFree_ = p.cbContiguousFree_ := by
    unfold cbContiguousFree_ cbTagArray_ cbPageData
    rw [hsz, hN, hmic]
  unfold Compactable
  rw [hcont, hN]

/-- The lengths that `Replace_` computes. -/
theorem replace_lengths (h : Layout r p) (hi : i < p.itagMicFree) {rgdata : List (List Byte)}
    (hcb : rgdata.flatten.length ≤ p.cbFree + p.cb i) :
    ushort (cbDataTotal_ rgdata) = rgdata.flatten.length ∧
      short ((p.cb i : Int) - rgdata.flatten.length)
        = (p.cb i : Int) - rgdata.flatten.length := by
  have hshort := p.cbPageData_lt_short
  have hspace := h.space
  have hcbi := cb_le_cbLines hi
  refine ⟨?_, short_of_mem (by omega) (by omega)⟩
  rw [cbDataTotal_eq]
  exact ushort_natCast (by omega)

/-- A line that moves is placed behind the others, on the page that has its bytes back. -/
theorem replace_of_moves (env : PageEnv) (h : Layout r p) (hi : i < p.itagMicFree)
    {rgdata : List (List Byte)} (f : BitVec 16)
    (hcb : rgdata.flatten.length ≤ p.cbFree + p.cb i) (hm : p.Moves i rgdata.flatten.length) :
    p.replace_ env i rgdata f
      = ((p.emptied env i).freeSpace_ env rgdata.flatten.length).map fun q =>
          q.place i rgdata.flatten.length (ushort (q.cbFree - rgdata.flatten.length)) rgdata f := by
  obtain ⟨hush, hdiff⟩ := replace_lengths h hi hcb
  obtain ⟨hgrow, hlast⟩ := hm
  have hin : ¬ ((p.cb i : Int) - rgdata.flatten.length ≥ 0 ∨ p.ib i + p.cb i = p.ibMicFree ∧
      p.cbContiguousFree_ ≥ -((p.cb i : Int) - rgdata.flatten.length)) := by omega
  have hno : ¬ (((p.cb i : Int) - rgdata.flatten.length > 0) ∧ env.fRuntimeScrubbing = true) :=
    fun hc => by omega
  set d : Mem := if env.fRuntimeScrubbing then
    p.data.fill (p.ib i) (p.cb i) chPAGEReplaceFill else p.data with hd
  have hp₁ : (if env.fRuntimeScrubbing = true then
      { p with data := p.data.fill (p.ib i) (p.cb i) chPAGEReplaceFill } else p)
      = { p with data := d } := by
    rw [hd]; split_ifs <;> rfl
  have hbi := h.bounded i hi
  have hmic := h.ibMicFree_le
  have hcb₁ : CPage.cb { p with data := d } i = p.cb i := by
    unfold cb
    rw [tag_of_data h.tagsFit hi fun a ha => p.scrub_apply _ i _ (by
      by_cases hz : p.cb i = 0 <;> omega)]
    rfl
  have hempty : ((CPage.setIb { p with data := d, cbFree := ushort (p.cbFree + p.cb i) } i
      0).setCb i 0).setFlags i 0 = p.emptied env i := rfl
  unfold replace_
  simp only [hush, hdiff]
  rw [if_neg hin, hp₁]
  simp only [hcb₁, Option.bind_eq_bind, hempty]
  cases (p.emptied env i).freeSpace_ env rgdata.flatten.length with
  | none => rfl
  | some q =>
    rw [Option.bind_some, Option.bind_some, if_neg hno]
    rfl

/-- A line that does not move is stored where it is. -/
theorem replace_of_not_moves (env : PageEnv) (h : Layout r p) (hi : i < p.itagMicFree)
    {rgdata : List (List Byte)} (f : BitVec 16)
    (hcb : rgdata.flatten.length ≤ p.cbFree + p.cb i) (hm : ¬ p.Moves i rgdata.flatten.length) :
    ∃ q, p.replace_ env i rgdata f = some q ∧ Layout r q ∧ q.size = p.size ∧
      q.lines = p.lines.set i (Line.store p.fSmallFormat (i == 0) rgdata.flatten f) := by
  have hshort := p.cbPageData_lt_short
  have hle := p.ibTagArray_le
  have hspace := h.space
  have hmic := h.ibMicFree_le
  have hcont := h.cbContiguousFree
  have hbi := h.bounded i hi
  have hcbi := cb_le_cbLines hi
  obtain ⟨hush, hdiff⟩ := replace_lengths h hi hcb
  have hin : (p.cb i : Int) - rgdata.flatten.length ≥ 0 ∨ p.ib i + p.cb i = p.ibMicFree ∧
      p.cbContiguousFree_ ≥ -((p.cb i : Int) - rgdata.flatten.length) := by
    unfold Moves at hm
    omega
  unfold replace_
  simp only [hush, hdiff]
  have hcbf : ushort ((p.cbFree : Int) + ((p.cb i : Int) - rgdata.flatten.length))
      = p.cbFree + p.cb i - rgdata.flatten.length := ushort_of_nonneg (by omega) (by omega)
  set ibMicFree := if p.ib i + p.cb i = p.ibMicFree then
    p.ib i + rgdata.flatten.length else p.ibMicFree with hibMicFree
  have hp₁ : (if p.ib i + p.cb i = p.ibMicFree then
        { p with ibMicFree := ushort (p.ibMicFree - ((p.cb i : Int) - rgdata.flatten.length)) }
      else p) = { p with ibMicFree := ibMicFree } := by
    rw [hibMicFree]
    split_ifs with he
    · rw [ushort_of_nonneg (n := p.ib i + rgdata.flatten.length) (by omega) (by omega)]
    · rfl
  rw [if_pos hin, hp₁, Option.bind_eq_bind, Option.bind_some]
  simp only [hcbf]
  -- the other lines end before the new end of lines, and none starts inside the new range
  have hother : ∀ j, j < p.itagMicFree → j ≠ i → p.cb j ≠ 0 →
      p.ib j + p.cb j ≤ p.ibMicFree ∧ (p.cb i ≠ 0 →
        p.ib j + p.cb j ≤ p.ib i ∨ p.ib i + p.cb i ≤ p.ib j) := fun j hj hne hc =>
    ⟨h.bounded j hj hc, fun hci => h.disjoint j i hj hi hne hc hci⟩
  obtain ⟨hl, hsz, hN, hib, hcb', hoth, hlines⟩ := replaceInPlace_spec h hi rgdata f
    (p.cbFree + p.cb i - rgdata.flatten.length) ibMicFree
    (by omega) (by split_ifs at hibMicFree <;> omega)
    (fun j hj hne hc => by
      have := hother j hj hne hc
      split_ifs at hibMicFree <;> omega)
    (fun hz j hj hne hc => by
      have := hother j hj hne hc
      omega)
    (fun hz => by split_ifs at hibMicFree <;> omega) rfl
  set q := ((CPage.setCb { p with
    cbFree := p.cbFree + p.cb i - rgdata.flatten.length, ibMicFree := ibMicFree } i
    rgdata.flatten.length).setFlags i f).copyData_ i rgdata
  split_ifs with hscrub
  · -- the bytes the shrunk line leaves are scrubbed
    have hta : q.ibTagArray = p.ibTagArray := by
      unfold ibTagArray cbPageData; rw [hsz, hN]
    obtain ⟨hs₂, hl₂⟩ := hl.scrub_after (i := i) (by omega)
      (n := ((p.cb i : Int) - rgdata.flatten.length).toNat) chPAGEReplaceFill (by omega)
      (fun j hj hne hc => by
        rw [hN] at hj
        obtain ⟨hcbj, hibj⟩ := hoth j hj hne
        have := hother j hj hne (by omega)
        omega)
    exact ⟨_, rfl, hl₂, hsz, hs₂.lines.trans hlines⟩
  · exact ⟨q, rfl, hl, hsz, hlines⟩

/-- **`Replace_` replaces a line.** -/
theorem replace_spec (env : PageEnv) (h : Layout r p) (hi : i < p.itagMicFree)
    {rgdata : List (List Byte)} (f : BitVec 16)
    (hcb : rgdata.flatten.length ≤ p.cbFree + p.cb i)
    (hc : p.Moves i rgdata.flatten.length → p.Compactable env rgdata.flatten.length) :
    ∃ q, p.replace_ env i rgdata f = some q ∧ Layout r q ∧ q.size = p.size ∧
      q.lines = p.lines.set i (Line.store p.fSmallFormat (i == 0) rgdata.flatten f) := by
  by_cases hm : p.Moves i rgdata.flatten.length
  · obtain ⟨hl₂, hsz₂, hN₂, hcb₂, hcbf₂, _, hlines₂⟩ := emptied_spec env h hi
    obtain ⟨p₃, hp₃, hs₃, hl₃, hroom₃⟩ := freeSpace_spec env hl₂
      (show rgdata.flatten.length ≤ (p.emptied env i).cbFree by omega)
      ((emptied_compactable h hi).2 (hc hm))
    have hcbf₃ := hs₃.cbFree
    have hi₃ : i < p₃.itagMicFree := by rw [hs₃.itagMicFree, hN₂]; exact hi
    have hcb₃ : p₃.cb i = 0 := (hs₃.cb (by omega)).trans hcb₂
    have hushF : ushort ((p₃.cbFree : Int) - rgdata.flatten.length)
        = p₃.cbFree - rgdata.flatten.length := ushort_of_nonneg (by omega) (by
      have := hl₃.space
      have := p₃.cbPageData_lt_short
      omega)
    obtain ⟨hl₄, hsz₄, hlines₄⟩ := place_layout hl₃ hi₃ hcb₃ rgdata f
      (p₃.cbFree - rgdata.flatten.length) (by omega) (by omega) rfl
    have hfs : p₃.fSmallFormat = p.fSmallFormat := by unfold fSmallFormat; rw [hs₃.size, hsz₂]
    refine ⟨_, ?_, hl₄, hsz₄.trans (hs₃.size.trans hsz₂), ?_⟩
    · rw [replace_of_moves env h hi f hcb hm, hp₃, Option.map_some, hushF]
    · rw [hlines₄, hs₃.lines, hlines₂, List.set_set, hfs]
  · exact replace_of_not_moves env h hi f hcb hm

/-- A line that moves without the buffer for the compaction makes it write past its end. -/
theorem replace_eq_none {env : PageEnv} (h : Layout r p) (hi : i < p.itagMicFree)
    {rgdata : List (List Byte)} {f : BitVec 16}
    (hcb : rgdata.flatten.length ≤ p.cbFree + p.cb i) (hm : p.Moves i rgdata.flatten.length)
    (hc : ¬ p.Compactable env rgdata.flatten.length) : p.replace_ env i rgdata f = none := by
  rw [replace_of_moves env h hi f hcb hm,
    freeSpace_eq_none env (mt (emptied_compactable h hi).1 hc), Option.map_none]

end CPage

end Ese
