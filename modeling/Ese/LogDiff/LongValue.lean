import Ese.LogDiff.Codec

/-!
# Diffs of long values

`LGSetLVDiffs` walks the two images with both cursors at one offset. Every step of the walk
extends an alignment of the old image with the new one: equal stretches are copied, and an entry
covers everything up to where the images re-sync, or up to both ends once the shorter image is
used up (`lvDiffLoop_spec`). Redo of the diff therefore gives the new image.
-/

namespace Ese

/-! ## Appending an entry -/

/-- The length of an entry of the diff: its header and the new bytes. -/
theorem length_diffBytes (fDiff2 : Bool) (e : Edit Byte) :
    (diffBytes fDiff2 e).length = cbDiffHdr fDiff2 +
      (dataLengthBytes e.ib e.cbOld e.new.length).length + e.new.length := by
  rw [diffBytes, List.length_append, List.length_append, length_diffHdrBytes]

/-- An entry that fits is appended. -/
theorem fLGAppendDiff_eq_some {s : PageSize} {rgbDiff rgbDiff' : List Byte} {cbDiffMax : Nat}
    {e : Edit Byte} (h : fLGAppendDiff s rgbDiff cbDiffMax e = some rgbDiff') :
    rgbDiff' = rgbDiff ++ diffBytes (!s.fSmallPage) e := by
  unfold fLGAppendDiff at h
  dsimp only at h
  split_ifs at h
  exact (Option.some.inj h).symm

/-- An entry has a byte. -/
theorem diffBytes_ne_nil (fDiff2 : Bool) (e : Edit Byte) : diffBytes fDiff2 e ≠ [] := by
  intro h
  have := congrArg List.length h
  rw [length_diffBytes, cbDiffHdr] at this
  simp only [List.length_nil] at this
  split_ifs at this <;> omega

/-- No edits make no diff. -/
@[simp] theorem diffEncode_nil (s : PageSize) : diffEncode s [] = [] := rfl

/-- The diff of more edits follows that of the first. -/
@[simp] theorem diffEncode_append (s : PageSize) (es fs : List (Edit Byte)) :
    diffEncode s (es ++ fs) = diffEncode s es ++ diffEncode s fs := List.flatMap_append

/-- The diff of one edit is its entry. -/
theorem diffEncode_singleton (s : PageSize) (e : Edit Byte) :
    diffEncode s [e] = diffBytes (!s.fSmallPage) e := List.flatMap_singleton ..

/-- Only no edits make an empty diff. -/
theorem diffEncode_eq_nil {s : PageSize} {es : List (Edit Byte)} :
    diffEncode s es = [] ↔ es = [] := by
  cases es with
  | nil => simp
  | cons e es => simp [diffEncode, diffBytes_ne_nil]

/-- Redo of the diff of an alignment of two images: either it is empty and the images are equal, or
redo makes the new image of the old one. What the memory holds behind the diff and behind the old
image does not matter. -/
theorem redo_of_aligns {s : PageSize} {old new : List Byte} {es : List (Edit Byte)}
    {pbDiff pbOld : Mem} (hal : Aligns old new 0 0 es old.length new.length)
    (hold : old.length ≤ s.cbPage) (hnew : new.length ≤ s.cbPage)
    (hib : s.fSmallPage → ∀ e ∈ es, e.ib < 8192) (hpbDiff : pbDiff.Holds 0 (diffEncode s es))
    (hpbOld : pbOld.Holds 0 old) :
    diffEncode s es = [] ∧ new = old ∨
      diffEncode s es ≠ [] ∧ errLGGetAfterImage s pbDiff (diffEncode s es).length pbOld old.length
        (!s.fSmallPage) = .ok new := by
  have hord := hal.ordered (le_refl _)
  have hpatch : patch old 0 es = new := hal.patch_eq
  rcases eq_or_ne (diffEncode s es) [] with hnil | hnil
  · obtain rfl := diffEncode_eq_nil.1 hnil
    exact .inl ⟨hnil, hpatch.symm⟩
  refine .inr ⟨hnil, ?_⟩
  rw [← hpatch]
  refine errLGGetAfterImage_eq hpbOld (fun e he => ?_) hpbDiff hord (by rwa [hpatch])
  exact ⟨(hord.end_le he).trans hold, (hal.length_new_le he).trans hnew, fun hs => hib hs e he⟩

/-! ## Walking the images -/

section walk
variable {s : PageSize} {ib ibMax : Nat} (dataNew dataOld : List Byte)

/-- The skipped prefix is the same in both images. -/
theorem lvSkipEqual_spec (ibMax ib : Nat) :
    Aligns dataOld dataNew ib ib [] (lvSkipEqual dataNew dataOld ibMax ib)
      (lvSkipEqual dataNew dataOld ibMax ib) := by
  fun_induction lvSkipEqual dataNew dataOld ibMax ib with
  | case1 ib h ih => exact (Aligns.same 4 h.2).trans ih
  | case2 ib h => exact .refl _ _

/-- Skipping equal DWORDs stays within the range. -/
theorem lvSkipEqual_le (h4 : 4 ∣ ibMax) (h : ib ≤ ibMax) (hib : 4 ∣ ib) :
    lvSkipEqual dataNew dataOld ibMax ib ≤ ibMax := by
  fun_induction lvSkipEqual dataNew dataOld ibMax ib with
  | case1 ib hc ih => exact ih (by omega) (by omega)
  | case2 ib hc => exact h

/-- Either the differences reach the end of the shorter image, or they end where the next eight
bytes of both images are equal. -/
theorem lvResync_spec (cb : Nat) (h : ib < ibMax) :
    lvResync dataNew dataOld ibMax ib cb = (ibMax, cb + (ibMax - ib)) ∨
    ∃ n, lvResync dataNew dataOld ibMax ib cb = (ib + n + 8, cb + n) ∧ ib + n + 8 < ibMax ∧
      slice dataOld (ib + n) 8 = slice dataNew (ib + n) 8 := by
  fun_induction lvResync dataNew dataOld ibMax ib cb with
  | case1 ib cb hle => exact .inl rfl
  | case2 ib cb hlt heq => exact .inr ⟨0, rfl, by omega, heq⟩
  | case3 ib cb hlt hne ih =>
    rcases ih (by omega) with h | ⟨n, h, hn, heq⟩
    · refine .inl (h.trans ?_)
      rw [Nat.add_assoc, show 8 + (ibMax - (ib + 8)) = ibMax - ib by omega]
    · rw [show ib + 8 + n = ib + (8 + n) by omega] at h hn heq
      exact .inr ⟨8 + n, by rw [h, Nat.add_assoc cb], hn, heq⟩

variable {dataNew dataOld}

/-- Past the end the loop stops. -/
theorem lvDiffLoop_of_le {rgbDiff : List Byte} {f : Bool} (h : ibMax ≤ ib) :
    lvDiffLoop s dataNew dataOld ibMax ib rgbDiff f = some (rgbDiff, f) := by
  rw [lvDiffLoop, dif_neg (by omega)]

/-- What the main loop has appended when it reaches the end of the shorter image: an alignment
up to there, or up to both ends if the last entry covers the rest. -/
theorem lvDiffLoop_spec {rgbDiff rgbDiff' : List Byte} {f f' : Bool}
    (hmax : ibMax = min dataOld.length dataNew.length) (hib : ib ≤ ibMax)
    (h : lvDiffLoop s dataNew dataOld ibMax ib rgbDiff f = some (rgbDiff', f')) :
    ∃ es, rgbDiff' = rgbDiff ++ diffEncode s es ∧
      (∀ e ∈ es, e.ib < ibMax) ∧
      ((Aligns dataOld dataNew ib ib es ibMax ibMax ∧ f' = f) ∨
        (Aligns dataOld dataNew ib ib es dataOld.length dataNew.length ∧ f' = true ∧ es ≠ [])) := by
  fun_induction lvDiffLoop s dataNew dataOld ibMax ib rgbDiff f with
  | case1 ib rgbDiff f hlt heq ih =>
    obtain ⟨es, hes, hlen, hal⟩ := ih (by omega) h
    have hone : slice dataOld ib 1 = slice dataNew ib 1 := by
      rw [List.getElem?_eq_getElem (by omega), List.getElem?_eq_getElem (by omega),
        Option.some.injEq] at heq
      rw [slice_one (by omega), slice_one (by omega), heq]
    exact ⟨es, hes, hlen, hal.imp (fun h => ⟨.copy hone h.1, h.2⟩) fun h => ⟨.copy hone h.1, h.2⟩⟩
  | case2 => simp at h
  | case3 ib rgbDiff f hlt hne q cbMinSize fTruncate cbOldData cbNewData rgbDiff₁ happ ih =>
    have hdiff := fLGAppendDiff_eq_some happ
    rcases lvResync_spec dataNew dataOld 0 hlt with hq | ⟨n, hq, hn, heq⟩
    · -- the entry takes the rest of both images
      have hq₁ : q.1 = ibMax := congrArg Prod.fst hq
      have hq₂ : q.2 = 0 + (ibMax - ib) := congrArg Prod.snd hq
      rw [lvDiffLoop_of_le (by omega), decide_eq_true hq₁, Bool.or_true] at h
      obtain ⟨rfl, rfl⟩ := Prod.mk.inj (Option.some.inj h)
      have hold : ib + cbOldData = dataOld.length := by
        simp only [cbOldData, fTruncate, cbMinSize, hq₁, hq₂, true_and]
        split_ifs <;> omega
      have hnew : ib + cbNewData = dataNew.length := by
        simp only [cbNewData, fTruncate, cbMinSize, hq₁, hq₂, true_and]
        split_ifs <;> omega
      have hal : Aligns dataOld dataNew ib ib [⟨ib, cbOldData, slice dataNew ib cbNewData⟩]
          dataOld.length dataNew.length := by
        rw [← hold, ← hnew]
        exact .single _ _
      refine ⟨[⟨ib, cbOldData, slice dataNew ib cbNewData⟩], ?_, ?_, .inr ⟨hal, rfl, by simp⟩⟩
      · rw [hdiff, diffEncode_singleton]
      · simpa using hlt
    · -- the entry ends before the eight equal bytes, the walk goes on behind them
      have hq₁ : q.1 = ib + n + 8 := congrArg Prod.fst hq
      have hq₂ : q.2 = 0 + n := congrArg Prod.snd hq
      have hold : cbOldData = n := (dif_neg (by omega)).trans (by omega)
      have hnew : cbNewData = n := (dif_neg (by omega)).trans (by omega)
      rw [hold, hnew] at hdiff
      obtain ⟨es, hes, hlen, hal⟩ := ih (by omega) h
      rw [hq₁, decide_eq_false (by omega), Bool.or_false] at hal
      have hstep : Aligns dataOld dataNew ib ib [⟨ib, n, slice dataNew ib n⟩]
          (ib + n + 8) (ib + n + 8) := (Aligns.single n n).trans (Aligns.same 8 heq)
      refine ⟨⟨ib, n, slice dataNew ib n⟩ :: es, ?_, ?_, ?_⟩
      · rw [hes, hdiff, List.append_assoc]
        rfl
      · simpa using ⟨hlt, hlen⟩
      · exact hal.imp (fun h => ⟨hstep.trans h.1, h.2⟩)
          fun h => ⟨hstep.trans h.1, h.2.1, by simp⟩
  | case4 ib rgbDiff f hge =>
    obtain ⟨rfl, rfl⟩ := Prod.mk.inj (Option.some.inj h)
    obtain rfl : ib = ibMax := by omega
    exact ⟨[], by simp, by simp, .inl ⟨.refl _ _, rfl⟩⟩

/-- Whatever `LGSetLVDiffs` emits is an alignment of the two images. -/
theorem lGSetLVDiffs_spec {diff : List Byte} (h : lGSetLVDiffs s dataNew dataOld = some diff) :
    ∃ es, diff = diffEncode s es ∧ Aligns dataOld dataNew 0 0 es dataOld.length dataNew.length ∧
      ∀ e ∈ es, e.ib < max dataOld.length dataNew.length := by
  unfold lGSetLVDiffs at h
  dsimp only at h
  generalize hmin : min dataOld.length dataNew.length = cbMinSize at h
  have hskip := lvSkipEqual_spec dataNew dataOld (cbMinSize - cbMinSize % 4) 0
  have hle := lvSkipEqual_le dataNew dataOld (show 4 ∣ cbMinSize - cbMinSize % 4 by omega)
    (Nat.zero_le _) (dvd_zero 4)
  generalize lvSkipEqual dataNew dataOld (cbMinSize - cbMinSize % 4) 0 = ib at h hskip hle
  split at h
  · simp at h
  · next rgbDiff f hloop =>
    obtain ⟨es, hes, hlen, hal⟩ := lvDiffLoop_spec hmin.symm (by omega) hloop
    rw [List.nil_append] at hes
    have hnil : rgbDiff = [] ↔ es = [] := by rw [hes, diffEncode_eq_nil]
    have hmax : ∀ e ∈ es, e.ib < max dataOld.length dataNew.length := fun e he => by
      have := hlen e he
      omega
    split_ifs at h with hdone hsame
    · -- nothing was appended and the images are of one length
      obtain rfl := hnil.1 hsame.1
      obtain ⟨hal, -⟩ | ⟨-, -, hne⟩ := hal
      · have hall := hskip.trans hal
        rw [show cbMinSize = dataOld.length by omega] at hall
        exact ⟨[], (Option.some.inj h).symm, hsame.2 ▸ hall, hmax⟩
      · exact absurd rfl hne
    · -- the rest of the longer image is one more entry
      obtain ⟨hal, hf⟩ | ⟨-, hf, hne⟩ := hal
      · have hsize : dataNew.length ≠ dataOld.length := by
          intro heq
          refine hsame ⟨hdone.resolve_right fun hnf => hnf ?_, heq⟩
          rw [hf, decide_eq_true heq.symm]
        have hrest : Aligns dataOld dataNew cbMinSize cbMinSize [_] (cbMinSize + _)
          (cbMinSize + _) := .single (dataOld.length - cbMinSize) (dataNew.length - cbMinSize)
        rw [Nat.add_sub_cancel' (by omega), Nat.add_sub_cancel' (by omega)] at hrest
        refine ⟨es ++ [_], ?_, (hskip.trans hal).trans hrest, ?_⟩
        · rw [fLGAppendDiff_eq_some h, hes, diffEncode_append, diffEncode_singleton]
        · simp only [List.mem_append, List.mem_singleton]
          rintro e (he | rfl)
          · exact hmax e he
          · dsimp only
            omega
      · rcases hdone with hd | hd
        · exact absurd (hnil.1 hd) hne
        · exact absurd hf hd
    · -- the walk has covered both images
      obtain rfl := Option.some.inj h
      obtain ⟨hal, hf⟩ | ⟨hal, -⟩ := hal
      · have hsize : dataOld.length = dataNew.length := by
          by_contra hne
          rw [decide_eq_false hne] at hf
          exact hdone (.inr (by simp [hf]))
        have hall := hskip.trans hal
        rw [show cbMinSize = dataOld.length by omega] at hall
        exact ⟨es, hes, hsize ▸ hall, hmax⟩
      · exact ⟨es, hes, hskip.trans hal, hmax⟩

end walk

section redo
variable {s : PageSize} {dataNew dataOld diff : List Byte} {pbDiff pbOld : Mem}

/-- Redo of a long-value diff gives the new image: whenever `LGSetLVDiffs` does not overflow, the
diff is empty and the images are equal, or `ErrLGGetAfterImage` rebuilds the new image from the
diff and the old one. Neither image is longer than a page; what the memory holds behind the diff
and behind the old image does not matter. -/
theorem errLGGetAfterImage_lGSetLVDiffs (hnew : dataNew.length ≤ s.cbPage)
    (hold : dataOld.length ≤ s.cbPage) (h : lGSetLVDiffs s dataNew dataOld = some diff)
    (hpbDiff : pbDiff.Holds 0 diff) (hpbOld : pbOld.Holds 0 dataOld) :
    diff = [] ∧ dataNew = dataOld ∨
      diff ≠ [] ∧ errLGGetAfterImage s pbDiff diff.length pbOld dataOld.length (!s.fSmallPage) =
        .ok dataNew := by
  obtain ⟨es, rfl, hal, hib⟩ := lGSetLVDiffs_spec h
  have hsmall : s.fSmallPage → s.cbPage ≤ 8192 := by cases s <;> decide
  refine redo_of_aligns hal hold hnew (fun hs e he => ?_) hpbDiff hpbOld
  have := hsmall hs
  have := hib e he
  omega

/-- A byte changed near the end of sixteen, logged with the small and with the large header. -/
theorem errLGGetAfterImage_lGSetLVDiffs_byte :
    let old : List Byte := List.replicate 16 0
    let new : List Byte := List.replicate 12 0 ++ [1, 0, 0, 0]
    let mem (l : List Byte) : Mem := Mem.write (fun _ => 0) 0 l
    errLGGetAfterImage .kb4 (mem [12, 32, 4, 1, 0, 0, 0]) 7 (mem old) 16 false = .ok new ∧
    errLGGetAfterImage .kb32 (mem [12, 0, 32, 4, 1, 0, 0, 0]) 8 (mem old) 16 true = .ok new := by
  intro old new mem
  refine ⟨?_, ?_⟩
  · have h := errLGGetAfterImage_lGSetLVDiffs (s := .kb4)
      (show new.length ≤ _ by decide) (show old.length ≤ _ by decide)
      (show _ = some [12, 32, 4, 1, 0, 0, 0] by decide +kernel)
      (Mem.holds_write (fun _ => 0) 0 _) (Mem.holds_write (fun _ => 0) 0 _)
    exact (h.resolve_left (by decide)).2
  · have h := errLGGetAfterImage_lGSetLVDiffs (s := .kb32)
      (show new.length ≤ _ by decide) (show old.length ≤ _ by decide)
      (show _ = some [12, 0, 32, 4, 1, 0, 0, 0] by decide +kernel)
      (Mem.holds_write (fun _ => 0) 0 _) (Mem.holds_write (fun _ => 0) 0 _)
    exact (h.resolve_left (by decide)).2

end redo

end Ese
