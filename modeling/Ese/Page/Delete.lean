import Ese.Page.Lines

/-!
# Delete and unused bytes

`delete_spec`: a deleted line's tag is closed up, its bytes become a hole, and `ibMicFree` moves
down only when the line was the last one or the page is now empty. `overwriteUnusedSpace_spec`:
filling the holes and the free space changes no line; the loop over the holes needs the lines in
offset order, and every hole it fills lies between two neighbours of that order.
-/

namespace Ese

namespace CPage

variable {p q : CPage} {i r itag : Nat}

/-! ## Delete -/

/-- `copyTags` moves the tags after `i` down by one index and touches nothing below them. -/
theorem copyTags_spec (c : Nat) : ∀ {i : Nat} {p : CPage}, p.Fits (i + c) →
    (copyTags i c p).size = p.size ∧ (copyTags i c p).itagMicFree = p.itagMicFree ∧
    (copyTags i c p).ctagReserved = p.ctagReserved ∧ (copyTags i c p).cbFree = p.cbFree ∧
    (copyTags i c p).ibMicFree = p.ibMicFree ∧
    (∀ j, j ≤ i + c → (copyTags i c p).tag j = if i ≤ j ∧ j < i + c then p.tag (j + 1)
      else p.tag j) ∧
    (∀ a, a + cbTag * (i + c + 1) ≤ p.cbPageData → a < p.ptagFromItag_ (i + c) →
      (copyTags i c p).data a = p.data a) := by
  induction c with
  | zero =>
    intro i p _
    refine ⟨rfl, rfl, rfl, rfl, rfl, fun j _ => ?_, fun _ _ _ => rfl⟩
    rw [if_neg (by omega), copyTags]
  | succ c ih =>
    intro i p hfit
    have hfit₁ : (p.setTag i (p.tag (i + 1))).Fits (i + 1 + c) := by
      have e : i + 1 + c = i + (c + 1) := by omega
      rw [e]; exact hfit
    obtain ⟨h₁, h₂, h₃, h₄, h₅, htag, hdata⟩ := ih hfit₁
    refine ⟨h₁, h₂, h₃, h₄, h₅, fun j hj => ?_, fun a ha hlt => ?_⟩
    · rw [copyTags, htag j (by omega)]
      have hi := hfit.mono (j := i) (by omega)
      split_ifs with hc hc' hc'
      · rw [tag_setTag_ne _ hi (hfit.mono (by omega)) (by omega)]
      · omega
      · obtain rfl : j = i := by omega
        rw [tag_setTag_same]
      · rw [tag_setTag_ne _ hi (hfit.mono (by omega)) (by omega)]
    · have e : i + 1 + c = i + (c + 1) := by omega
      rw [copyTags, hdata a (by rw [e]; exact ha) (by rw [e]; exact hlt)]
      have h := ptagFromItag_eq hfit
      have h' := ptagFromItag_eq (hfit.mono (j := i) (by omega))
      exact setTag_data _ (.inl (by omega))

/-- What has to hold of the removal of slot `i`: the tags after it have moved down by one index, the
bytes outside its line are as they were, and the counts include neither the line nor its tag. -/
structure SlotDelete (p q : CPage) (i : Nat) : Prop where
  size : q.size = p.size
  itagMicFree : q.itagMicFree = p.itagMicFree - 1
  tagLow : ∀ j, j < i → q.tag j = p.tag j
  tagHigh : ∀ j, i ≤ j → j < p.itagMicFree - 1 → q.tag j = p.tag (j + 1)
  data : ∀ a, a < p.ibTagArray → a < p.ib i ∨ p.ib i + p.cb i ≤ a → q.data a = p.data a
  cbFree : q.cbFree = p.cbFree + p.cb i + cbTag
  ibMicFree : q.ibMicFree = if p.cb i + p.ib i = p.ibMicFree then p.ib i else p.ibMicFree

/-- Slot `k` of the result holds the line of slot `k`, or of the one after it. -/
theorem SlotDelete.carry (hx : SlotDelete p q i) (h : Layout r p) (hi : i < p.itagMicFree) {k : Nat}
    (hk : k < q.itagMicFree) : ∃ j, j < p.itagMicFree ∧ j ≠ i ∧
      j = (if k < i then k else k + 1) ∧ q.getPtr_ k = p.getPtr_ j ∧ q.cb k = p.cb j ∧
      q.ib k = p.ib j := by
  have hN := hx.itagMicFree
  have hcarry : ∀ j, j < p.itagMicFree → j ≠ i → q.tag k = p.tag j →
      q.getPtr_ k = p.getPtr_ j ∧ q.cb k = p.cb j ∧ q.ib k = p.ib j := fun j hj hne he =>
    CPage.carry hx.size he fun a ha₁ ha₂ => by
      have hbj := h.bounded j hj (by omega)
      have hmic := h.ibMicFree_le
      refine hx.data a (by omega) ?_
      by_contra hc
      have := h.disjoint j i hj hi hne (by omega) (by omega)
      omega
  rcases Nat.lt_or_ge k i with hlt | hge
  · exact ⟨k, by omega, by omega, by rw [if_pos hlt],
      hcarry k (by omega) (by omega) (hx.tagLow k hlt)⟩
  · exact ⟨k + 1, by omega, by omega, by rw [if_neg (by omega)],
      hcarry (k + 1) (by omega) (by omega) (hx.tagHigh k hge (by omega))⟩

theorem SlotDelete.lines (hx : SlotDelete p q i) (h : Layout r p) (hi : i < p.itagMicFree) :
    q.lines = p.lines.eraseIdx i := by
  refine List.ext_getElem (by
    rw [length_lines, hx.itagMicFree, List.length_eraseIdx, if_pos (by simpa using hi),
      length_lines]) fun k hk _ => ?_
  rw [length_lines] at hk
  obtain ⟨j, hj, hne, hje, ht, _⟩ := hx.carry h hi hk
  rw [getElem_lines, ht, List.getElem_eraseIdx]
  split_ifs at hje ⊢ <;> rw [getElem_lines, hje]

theorem SlotDelete.cbLines (hx : SlotDelete p q i) (h : Layout r p) (hi : i < p.itagMicFree) :
    q.cbLines + p.cb i = p.cbLines := by
  have hlt : i < (p.lines.map (·.pv.length)).length := by simpa using hi
  have := List.CommMonoid.add_sum_eraseIdx hlt
  rw [List.getElem_map, getElem_lines, length_getPtr] at this
  rw [cbLines_eq, cbLines_eq, hx.lines h hi, ← this, List.eraseIdx_map, Nat.add_comm]

/-- A removal keeps the layout. -/
theorem SlotDelete.layout (hx : SlotDelete p q i) (h : Layout r p) (h₁ : r ≤ i)
    (hi : i < p.itagMicFree) (hr : q.ctagReserved = r) : Layout r q := by
  have hspace := h.space
  have hroom := h.room
  have hbi := h.bounded i hi
  have hsum := hx.cbLines h hi
  have hN := hx.itagMicFree
  have hcbf := hx.cbFree
  have hmic := hx.ibMicFree
  have hD : q.cbPageData = p.cbPageData := by unfold cbPageData; rw [hx.size]
  refine ⟨hr, h.pos, by omega, ?_, ?_, fun k hk hc => ?_, fun k k' hk hk' hne hc hc' => ?_⟩
  · rw [hD, hN, hcbf]
    unfold cbTag at *
    omega
  · rw [hD, hN]
    unfold cbTag at *
    split_ifs at hmic <;> omega
  · obtain ⟨j, hj, hne, _, _, hcb, hib⟩ := hx.carry h hi hk
    have hbj := h.bounded j hj (by omega)
    split_ifs at hmic with he
    · rcases Nat.eq_zero_or_pos (p.cb i) with hz | hz
      · omega
      · have := h.disjoint j i hj hi hne (by omega) (by omega)
        omega
    · omega
  · obtain ⟨j, hj, hji, hje, _, hcb, hib⟩ := hx.carry h hi hk
    obtain ⟨j', hj', hji', hje', _, hcb', hib'⟩ := hx.carry h hi hk'
    have := h.disjoint j j' hj hj' (by split_ifs at hje hje' <;> omega) (by omega) (by omega)
    omega

/-- A page that counts nothing but its header and one tag has no line. -/
theorem Layout.ibMicFree_zero (h : Layout r p)
    (hempty : p.cbFree + cbTag + p.size.cbPageHeader = p.size.cbPage) :
    Layout r { p with ibMicFree := 0 } := by
  have hspace := h.space
  have hall : ∀ k, k < p.itagMicFree → p.cb k = 0 := fun k hk => by
    have := cb_le_cbLines hk
    have := h.reserved
    have := h.pos
    have hpd : p.cbPageData + p.size.cbPageHeader = p.size.cbPage := by
      unfold cbPageData PageSize.cbPageData
      cases p.size <;> rfl
    unfold cbTag at *
    omega
  refine ⟨h.ctagReserved, h.pos, h.reserved, h.space, ?_, fun k hk hc => absurd (hall k hk) hc,
    h.disjoint⟩
  show 0 + cbTag * p.itagMicFree ≤ p.cbPageData
  omega

/-- `Delete_` removes the slot, and says so when no line is left. -/
theorem delete_slotDelete (env : PageEnv) (h : Layout r p) (h₁ : r ≤ i) (hi : i < p.itagMicFree) :
    ∃ q, SlotDelete p q i ∧ q.ctagReserved = r ∧
      p.delete_ env i = if q.cbFree + cbTag + q.size.cbPageHeader = q.size.cbPage then
        { q with ibMicFree := 0 } else q := by
  have hshort := p.cbPageData_lt_short
  have hspace := h.space
  have hmic := h.ibMicFree_le
  have hbi := h.bounded i hi
  have hta : p.ibTagArray + cbTag * p.itagMicFree = p.cbPageData := by
    have := h.tagsFit
    unfold ibTagArray TagsFit at *
    omega
  have hcbi := cb_le_cbLines hi
  set d : Mem := if env.fRuntimeScrubbing then
    p.data.fill (p.ib i) (p.cb i) chPAGEDeleteFill else p.data with hd
  have hdo : ∀ a, a < p.ib i ∨ p.ib i + p.cb i ≤ a → d a = p.data a :=
    fun a ha => p.scrub_apply _ i _ ha
  have hp₁ : (if env.fRuntimeScrubbing = true then
      { p with data := p.data.fill (p.ib i) (p.cb i) chPAGEDeleteFill } else p)
      = { p with data := d } := by
    rw [hd]; split_ifs <;> rfl
  have htag₁ : ∀ j, j < p.itagMicFree → CPage.tag { p with data := d } j = p.tag j :=
    fun j hj => tag_of_data h.tagsFit hj fun a ha => hdo a (by omega)
  have hcb₁ : CPage.cb { p with data := d } i = p.cb i := by unfold cb; rw [htag₁ i hi]; rfl
  have hib₁ : CPage.ib { p with data := d } i = p.ib i := by unfold ib; rw [htag₁ i hi]; rfl
  set ibMicFree := if p.cb i + p.ib i = p.ibMicFree then p.ib i else p.ibMicFree with hibMicFree
  have hp₂ : (if p.cb i + p.ib i = p.ibMicFree then
      { p with data := d, ibMicFree := ushort ((p.ibMicFree : Int) - p.cb i) }
      else { p with data := d }) = { p with data := d, ibMicFree := ibMicFree } := by
    rw [hibMicFree]
    split_ifs with he
    · rw [ushort_of_nonneg (n := p.ib i) (by omega) (by omega)]
    · rfl
  have hcbF : ushort ((p.cbFree : Int) + p.cb i + cbTag) = p.cbFree + p.cb i + cbTag :=
    ushort_of_nonneg (by omega) (by unfold cbTag at *; omega)
  set p₂ : CPage := { p with
    data := d
    ibMicFree := ibMicFree
    cbFree := p.cbFree + p.cb i + cbTag } with hp₂'
  set p₃ := p₂.setITagMicFree_ (p.itagMicFree - 1) with hp₃
  have hN₃ : p₃.itagMicFree = p.itagMicFree - 1 := by
    show ushort ((p.itagMicFree - 1 : Nat) : Int) = _
    exact ushort_natCast (by unfold cbTag at *; omega)
  have hR₃ : p₃.ctagReserved = r := by
    show ushort ((p.ctagReserved : Nat) : Int) = _
    have := h.ctagReserved
    rw [ushort_natCast (by unfold cbTag at *; omega), this]
  have hfit₃ : p₃.Fits (i + (p.itagMicFree - 1 - i)) := by
    show 4 * _ ≤ p.cbPageData
    unfold cbTag at *
    omega
  obtain ⟨hsz₄, hN₄, hR₄, hcbf₄, hmic₄, htag₄, hdata₄⟩ := copyTags_spec _ hfit₃
  set q := copyTags i (p.itagMicFree - 1 - i) p₃ with hq
  have htk : ∀ j, j < p.itagMicFree → p₃.tag j = p.tag j := htag₁
  refine ⟨q, ⟨hsz₄, hN₄.trans hN₃, fun j hj => ?_, fun j hj hlt => ?_, fun a ha hout => ?_, hcbf₄,
    hmic₄⟩, hR₄.trans hR₃, ?_⟩
  · rw [htag₄ j (by omega), if_neg (by omega), htk j (by omega)]
  · rw [htag₄ j (by omega), if_pos (by omega), htk (j + 1) (by omega)]
  · have hN : i + (p.itagMicFree - 1 - i) = p.itagMicFree - 1 := by omega
    have hpt : p₃.ptagFromItag_ (p.itagMicFree - 1) + 4 * (p.itagMicFree - 1 + 1)
        = p.cbPageData := ptagFromItag_eq (hN ▸ hfit₃)
    rw [hdata₄ a (by
        show _ ≤ p.cbPageData
        unfold cbTag at *
        omega) (by unfold cbTag at *; rw [hN]; omega)]
    exact hdo a hout
  · unfold delete_
    have hcb₂ : CPage.cb { p with data := d, ibMicFree := ibMicFree } i = p.cb i := hcb₁
    simp only [hp₁, hcb₁, hib₁, hp₂, hcb₂, hcbF]
    have hq₃ : copyTags i (p₃.itagMicFree - i) p₃ = q := by rw [hq, hN₃]
    show (if (copyTags i (p₃.itagMicFree - i) p₃).cbFree + cbTag
        + (copyTags i (p₃.itagMicFree - i) p₃).size.cbPageHeader
          = (copyTags i (p₃.itagMicFree - i) p₃).size.cbPage then
      { copyTags i (p₃.itagMicFree - i) p₃ with ibMicFree := 0 }
      else copyTags i (p₃.itagMicFree - i) p₃) = _
    rw [hq₃]

/-- **`Delete_` removes a line.** -/
theorem delete_spec (env : PageEnv) (h : Layout r p) (h₁ : r ≤ i) (hi : i < p.itagMicFree) :
    Layout r (p.delete_ env i) ∧ (p.delete_ env i).size = p.size ∧
      (p.delete_ env i).lines = p.lines.eraseIdx i := by
  obtain ⟨q, hx, hr, he⟩ := delete_slotDelete env h h₁ hi
  have hl := hx.layout h h₁ hi hr
  rw [he]
  split_ifs with hempty
  · exact ⟨hl.ibMicFree_zero hempty, hx.size, hx.lines h hi⟩
  · exact ⟨hl, hx.size, hx.lines h hi⟩

/-! ## Holes -/

/-- The lines of `l` do not overlap and come in offset order. -/
def InOrder (p : CPage) (l : List Nat) : Prop := l.Pairwise fun j k => p.ib j + p.cb j ≤ p.ib k

/-- `Layout.of_unused`, with what the loop over the holes needs: offsets and lengths stay. -/
theorem Layout.fill_unused (h : Layout r p) {a n : Nat} (b : Byte) (hn : a + n ≤ p.ibTagArray)
    (hfree : ∀ j, j < p.itagMicFree → p.cb j ≠ 0 → p.ib j + p.cb j ≤ a ∨ a + n ≤ p.ib j) :
    SameLines p { p with data := p.data.fill a n b } ∧
      Layout r { p with data := p.data.fill a n b } ∧
      ∀ j, j < p.itagMicFree → CPage.ib { p with data := p.data.fill a n b } j = p.ib j := by
  have ha : ∀ x, p.ibTagArray ≤ x → p.data.fill a n b x = p.data x := fun x hx =>
    Mem.fill_apply_of_not_mem _ _ (by omega)
  obtain ⟨hs, hl⟩ := h.of_unused (d := p.data.fill a n b) (fun j hj x h₁ h₂ =>
    Mem.fill_apply_of_not_mem _ _ (by have := hfree j hj (by omega); omega)) ha
  refine ⟨hs, hl, fun j hj => ?_⟩
  unfold ib
  rw [tag_of_data h.tagsFit hj ha]
  rfl

/-- The loop over the holes: `pre` are the lines already passed, `rest` those to come. A byte
between two neighbours is past every line up to the first and before every line from the second
on, so no line holds it. -/
theorem zeroGaps_spec (b : Byte) (rest : List Nat) : ∀ {pre : List Nat} {p : CPage}, Layout r p →
    InOrder p (pre ++ rest) → (∀ j, j ∈ pre ++ rest ↔ j < p.itagMicFree ∧ p.cb j ≠ 0) →
    ∃ q, zeroGaps b rest p = some q ∧ SameLines p q ∧ Layout r q := by
  induction rest with
  | nil => exact fun {_ p} h _ _ => ⟨p, rfl, SameLines.refl p, h⟩
  | cons i rest ih =>
    intro pre p h hord hmem
    cases rest with
    | nil => exact ⟨p, rfl, SameLines.refl p, h⟩
    | cons k rest =>
      obtain ⟨_, hsuf, hpre⟩ := List.pairwise_append.1 hord
      obtain ⟨hi, hsuf'⟩ := List.pairwise_cons.1 hsuf
      obtain ⟨hk, _⟩ := List.pairwise_cons.1 hsuf'
      have hik : p.ib i + p.cb i ≤ p.ib k := hi k (by simp)
      have hkN := (hmem k).1 (by simp)
      have hbk := h.bounded k hkN.1 hkN.2
      have hmic := h.ibMicFree_le
      obtain ⟨hs, hl, hib⟩ := h.fill_unused (a := p.ib i + p.cb i)
        (n := p.ib k - (p.ib i + p.cb i)) b (by omega) fun j hj hc => by
          have hj' := (hmem j).2 ⟨hj, hc⟩
          rw [List.mem_append, List.mem_cons, List.mem_cons] at hj'
          rcases hj' with hj' | rfl | rfl | hj'
          · have := hpre j hj' i (by simp)
            omega
          · omega
          · omega
          · have := hk j hj'
            omega
      set p₁ : CPage := { p with
        data := p.data.fill (p.ib i + p.cb i) (p.ib k - (p.ib i + p.cb i)) b }
      have hmem₁ : ∀ j, j ∈ (pre ++ [i]) ++ (k :: rest) ↔ j < p₁.itagMicFree ∧ p₁.cb j ≠ 0 :=
        fun j => by
          rw [List.append_assoc, List.singleton_append, hmem j, hs.itagMicFree]
          exact and_congr_right fun hj => by rw [hs.cb hj]
      have hord₁ : InOrder p₁ ((pre ++ [i]) ++ (k :: rest)) := by
        rw [List.append_assoc, List.singleton_append]
        refine hord.imp_of_mem fun {j j'} hj hj' hle => ?_
        have hjN := ((hmem j).1 hj).1
        rw [hib j hjN, hs.cb hjN, hib j' ((hmem j').1 hj').1]
        exact hle
      obtain ⟨q, hq, hs', hl'⟩ := ih hl hord₁ hmem₁
      refine ⟨q, ?_, ⟨hs'.size.trans hs.size, hs'.itagMicFree.trans hs.itagMicFree,
        hs'.ctagReserved.trans hs.ctagReserved, hs'.cbFree.trans hs.cbFree, fun j hj =>
          (hs'.line j (by rw [hs.itagMicFree]; exact hj)).trans (hs.line j hj)⟩, hl'⟩
      rw [zeroGaps, if_neg (by omega)]
      exact hq

/-- `ZeroOutGaps_` changes no line, where the temporary buffer holds the tags. -/
theorem zeroOutGaps_spec (env : PageEnv) (h : Layout r p) (b : Byte)
    (htags : p.filledTags.length ≤ env.cptagMax) :
    ∃ q, p.zeroOutGaps_ env b = some q ∧ SameLines p q ∧ Layout r q := by
  set l := env.tagSort.sort p.ib p.filledTags with hl
  have hperm : l.Perm p.filledTags := env.tagSort.perm _ _
  have hmem : ∀ j, j ∈ l ↔ j < p.itagMicFree ∧ p.cb j ≠ 0 := fun j => by
    rw [hperm.mem_iff, filledTags, List.mem_filter, List.mem_range, decide_eq_true_iff, gt_iff_lt,
      Nat.pos_iff_ne_zero]
  have hnd : l.Nodup := hperm.nodup_iff.2 (List.nodup_range.filter _)
  have hord : InOrder p l := by
    refine ((env.tagSort.sorted p.ib _).and hnd).imp_of_mem fun {j k} hj hk ⟨hle, hne⟩ => ?_
    have hj' := (hmem j).1 hj
    have hk' := (hmem k).1 hk
    have := h.disjoint j k hj'.1 hk'.1 hne hj'.2 hk'.2
    omega
  have hmic := h.ibMicFree_le
  have hshort := p.cbPageData_lt_short
  have hle := p.ibTagArray_le
  unfold zeroOutGaps_
  rw [if_neg (Nat.not_lt.2 htags), ← hl]
  dsimp only
  rcases hl' : l with _ | ⟨first, rest⟩
  · -- every line is empty
    rw [hl'] at hmem
    have hz : ∀ j, j < p.itagMicFree → p.cb j = 0 := fun j hj => by
      by_contra hc
      exact absurd ((hmem j).2 ⟨hj, hc⟩) (by simp)
    refine ⟨{ p with ibMicFree := 0 }, rfl, ⟨rfl, rfl, rfl, rfl, fun _ _ => rfl⟩,
      h.ctagReserved, h.pos, h.reserved, h.space, ?_, fun j hj hc => absurd (hz j hj) hc,
      h.disjoint⟩
    have := h.room
    show 0 + cbTag * p.itagMicFree ≤ p.cbPageData
    omega
  · set last := (first :: rest).getLast (List.cons_ne_nil _ _) with hlast
    have hlastm : last ∈ l := by rw [hl']; exact List.getLast_mem _
    have hfirstm : first ∈ l := by rw [hl']; simp
    have hL := (hmem last).1 hlastm
    have hF := (hmem first).1 hfirstm
    have hbl := h.bounded last hL.1 hL.2
    have hbf := h.bounded first hF.1 hF.2
    rw [hl'] at hord
    -- the first line starts first and the last one ends last
    have hmin : ∀ j, j < p.itagMicFree → p.cb j ≠ 0 → p.ib first ≤ p.ib j := fun j hj hc => by
      have hj' := (hmem j).2 ⟨hj, hc⟩
      rw [hl', List.mem_cons] at hj'
      rcases hj' with rfl | hj'
      · exact le_rfl
      · have := (List.pairwise_cons.1 hord).1 j hj'
        omega
    have hmax : ∀ j, j < p.itagMicFree → p.cb j ≠ 0 →
        p.ib j + p.cb j ≤ p.ib last + p.cb last := fun j hj hc => by
      have hj' := (hmem j).2 ⟨hj, hc⟩
      rw [hl', ← List.dropLast_append_getLast (List.cons_ne_nil first rest), ← hlast,
        List.mem_append, List.mem_singleton] at hj'
      rcases hj' with hj' | rfl
      · rw [← List.dropLast_append_getLast (List.cons_ne_nil first rest), ← hlast] at hord
        have := (List.pairwise_append.1 hord).2.2 j hj' last (by simp)
        omega
      · exact le_rfl
    have hush : ushort ((p.ib last : Int) + p.cb last) = p.ib last + p.cb last := by
      exact_mod_cast ushort_natCast (n := p.ib last + p.cb last) (by omega)
    obtain ⟨hs₁, hl₁, hib₁⟩ := h.fill_unused (a := 0) (n := p.ib first) b (by omega)
      fun j hj hc => by have := hmin j hj hc; omega
    set p₁ : CPage := { p with data := p.data.fill 0 (p.ib first) b }
    set p₂ : CPage := { p₁ with ibMicFree := p.ib last + p.cb last }
    have hl₂ : Layout r p₂ := by
      refine ⟨hl₁.ctagReserved, hl₁.pos, hl₁.reserved, hl₁.space, ?_, fun j hj hc => ?_,
        hl₁.disjoint⟩
      · have := h.room
        show p.ib last + p.cb last + cbTag * p.itagMicFree ≤ p.cbPageData
        omega
      · have hcb : p₂.cb j = p.cb j := hs₁.cb hj
        have hib : p₂.ib j = p.ib j := hib₁ j hj
        have := hmax j hj (by omega)
        show _ ≤ p.ib last + p.cb last
        omega
    have hmem₂ : ∀ j, j ∈ [] ++ (first :: rest) ↔ j < p₂.itagMicFree ∧ p₂.cb j ≠ 0 := fun j => by
      rw [List.nil_append, ← hl', hmem j]
      exact and_congr_right fun hj => by rw [show p₂.cb j = p.cb j from hs₁.cb hj]
    have hord₂ : InOrder p₂ ([] ++ (first :: rest)) := by
      refine hord.imp_of_mem fun {j k} hj hk hjk => ?_
      have hj' := (hmem j).1 (by rw [hl']; exact hj)
      have hk' := (hmem k).1 (by rw [hl']; exact hk)
      rw [show p₂.ib j = p.ib j from hib₁ j hj'.1, show p₂.cb j = p.cb j from hs₁.cb hj'.1,
        show p₂.ib k = p.ib k from hib₁ k hk'.1]
      exact hjk
    obtain ⟨q, hq, hs, hlq⟩ := zeroGaps_spec b (first :: rest) hl₂ hord₂ hmem₂
    refine ⟨q, ?_, ⟨hs.size, hs.itagMicFree, hs.ctagReserved, hs.cbFree, fun j hj =>
      (hs.line j hj).trans (hs₁.line j hj)⟩, hlq⟩
    rw [List.head?_cons, List.getLast?_eq_some_getLast (List.cons_ne_nil _ _), ← hlast]
    simp only [hush]
    exact hq

/-- If the page has holes to fill, the temporary buffer holds the tags. -/
def Scrubbable (p : CPage) (env : PageEnv) : Prop :=
  p.cbContiguousFree_ ≠ p.cbFree → p.filledTags.length ≤ env.cptagMax

/-- **`OverwriteUnusedSpace` changes no line.** -/
theorem overwriteUnusedSpace_spec (env : PageEnv) (h : Layout r p) (b : Byte)
    (hs : p.Scrubbable env) :
    ∃ q, p.overwriteUnusedSpace env b = some q ∧ Layout r q ∧ q.size = p.size ∧
      q.lines = p.lines := by
  obtain ⟨p₁, hp₁, hs₁, hl₁⟩ : ∃ p₁, (if p.cbContiguousFree_ ≠ p.cbFree then p.zeroOutGaps_ env b
      else some p) = some p₁ ∧ SameLines p p₁ ∧ Layout r p₁ := by
    split_ifs with hholes
    · exact zeroOutGaps_spec env h b (hs hholes)
    · exact ⟨p, rfl, SameLines.refl p, h⟩
  obtain ⟨hs₂, hl₂⟩ := hl₁.fill_free b
  refine ⟨_, ?_, hl₂, hs₂.size.trans hs₁.size, hs₂.lines.trans hs₁.lines⟩
  unfold overwriteUnusedSpace
  split_ifs at hp₁ ⊢
  · simp only [hp₁, Option.bind_eq_bind, Option.bind_some]
  · cases hp₁
    rfl

/-- Without the buffer it writes past its end. -/
theorem overwriteUnusedSpace_eq_none {env : PageEnv} {b : Byte} (hs : ¬ p.Scrubbable env) :
    p.overwriteUnusedSpace env b = none := by
  unfold Scrubbable at hs
  push Not at hs
  unfold overwriteUnusedSpace zeroOutGaps_
  rw [if_pos hs.1, if_pos hs.2]
  rfl

end CPage

end Ese
