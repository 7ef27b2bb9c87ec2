import Ese.LogDiff.Basic

/-!
# The diff entry codec

What `FLGAppendDiff` lays out, redo reads back: the offset, both data lengths and where the new
data starts, for every edit that fits into a page (`Edit.Fits`). The loop of `ErrLGGetAfterImage`
then applies the edits of an ordered diff one after the other (`afterImageLoop_eq`), so redo is
`patch`.
-/

namespace Ese

open DIFFHDR

/-! ## Header bits -/

/-- The test of a flag is the test of its bit. -/
theorem and_twoPow_ne_zero {w : Nat} (x : BitVec w) {i : Nat} (hi : i < w) :
    x &&& BitVec.twoPow w i ≠ 0 ↔ x.getLsbD i = true := by
  have hne : BitVec.twoPow w i ≠ 0#w := fun h => by
    have := congrArg (BitVec.getLsbD · i) h
    simp [hi] at this
  rw [BitVec.and_twoPow]
  split_ifs with h
  · simp [hne, h]
  · simp [h]

/-- The flags of a `DIFFHDR2` are the high byte of the `DIFFHDR`. -/
theorem flag_ofDIFFHDR (w : BitVec 16) {i : Nat} (hi : i < 8) :
    (DIFFHDR2.ofDIFFHDR w).m_flags &&& BitVec.twoPow 8 i ≠ 0 ↔
      w &&& BitVec.twoPow 16 (8 + i) ≠ 0 := by
  rw [and_twoPow_ne_zero _ hi, and_twoPow_ne_zero _ (by omega)]
  simp [DIFFHDR2.ofDIFFHDR, DIFFHDR2.shfFlag, hi]

section wBitField
variable (ib cbOld cbNew : Nat)

theorem wBitField_sameLength :
    wBitField ib cbOld cbNew &&& fReplaceWithSameLength ≠ 0 ↔ cbOld ≠ 0 ∧ cbOld = cbNew := by
  unfold wBitField
  generalize BitVec.ofNat 16 ib = x
  simp only [BitVec.and_or_distrib_right, BitVec.and_assoc, ibOffsetMask, fReplaceWithSameLength,
    fInsert, fUseTwoBytesForDataLength]
  split_ifs <;> simp_all

theorem wBitField_insert : wBitField ib cbOld cbNew &&& fInsert ≠ 0 ↔ cbOld = 0 := by
  unfold wBitField
  generalize BitVec.ofNat 16 ib = x
  simp only [BitVec.and_or_distrib_right, BitVec.and_assoc, ibOffsetMask, fReplaceWithSameLength,
    fInsert, fUseTwoBytesForDataLength]
  split_ifs <;> simp_all

theorem wBitField_twoBytes :
    wBitField ib cbOld cbNew &&& fUseTwoBytesForDataLength ≠ 0 ↔ 255 < cbOld ∨ 255 < cbNew := by
  unfold wBitField
  generalize BitVec.ofNat 16 ib = x
  simp only [BitVec.and_or_distrib_right, BitVec.and_assoc, ibOffsetMask, fReplaceWithSameLength,
    fInsert, fUseTwoBytesForDataLength]
  split_ifs <;> simp_all

/-- An offset below 8 KB survives the 13-bit field. -/
theorem wBitField_offset (h : ib < 8192) :
    (wBitField ib cbOld cbNew &&& ibOffsetMask).toNat = ib := by
  have hmask : wBitField ib cbOld cbNew &&& ibOffsetMask = BitVec.ofNat 16 ib &&& ibOffsetMask := by
    unfold wBitField
    generalize BitVec.ofNat 16 ib = x
    simp only [BitVec.and_or_distrib_right, BitVec.and_assoc, ibOffsetMask, fReplaceWithSameLength,
      fInsert, fUseTwoBytesForDataLength]
    split_ifs <;> simp
  rw [hmask, BitVec.toNat_and, BitVec.toNat_ofNat, Nat.mod_eq_of_lt (by omega),
    show ibOffsetMask.toNat = 2 ^ 13 - 1 from rfl, Nat.and_two_pow_sub_one_eq_mod,
    Nat.mod_eq_of_lt h]

end wBitField

/-! ## Words and lengths -/

theorem wordBytes_append (w : BitVec 16) : ∀ {m : Mem} {a : Nat},
    m.Holds a (wordBytes w) → m.readU16 a = w := by
  intro m a h
  obtain ⟨h₀, h₁⟩ := Mem.holds_cons.1 h
  obtain ⟨h₁, -⟩ := Mem.holds_cons.1 h₁
  rw [Mem.readU16, h₀, h₁, Mem.extract_append_extract]

@[simp] theorem length_wordBytes (w : BitVec 16) : (wordBytes w).length = 2 := rfl

@[simp] theorem length_lengthBytes (f : Bool) (cb : Nat) :
    (lengthBytes f cb).length = if f then 2 else 1 := by
  cases f <;> rfl

/-- A stored length is read back if the bytes it got can hold it. -/
theorem readLength_lengthBytes {m : Mem} {a cb : Nat} {f : Bool}
    (h : m.Holds a (lengthBytes f cb)) (hcb : cb < if f then 65536 else 256) :
    readLength m f a = (cb, a + (lengthBytes f cb).length) := by
  cases f with
  | false =>
    obtain ⟨h₀, -⟩ := Mem.holds_cons.1 h
    simp only [readLength, h₀]
    simp [show cb < 256 from hcb]
  | true =>
    have := wordBytes_append _ h
    simp only [readLength, this]
    simp [show cb < 65536 from hcb]

/-! ## Entries -/

/-- The edit stays inside the page and its offset inside the header's offset field. -/
structure Edit.Fits (s : PageSize) (e : Edit Byte) : Prop where
  old : e.ib + e.cbOld ≤ s.cbPage
  new : e.new.length ≤ s.cbPage
  ib : s.fSmallPage → e.ib < 8192

section entry
variable {s : PageSize} {e : Edit Byte} {m : Mem} {a : Nat}

theorem length_diffHdrBytes (ib cbOld cbNew : Nat) (fDiff2 : Bool) :
    (diffHdrBytes ib cbOld cbNew fDiff2).length = cbDiffHdr fDiff2 := by
  cases fDiff2 <;> rfl

/-- The stored header carries the offset and the flags. -/
theorem readDiffHdr_spec (hf : e.Fits s)
    (h : m.Holds a (diffHdrBytes e.ib e.cbOld e.new.length (!s.fSmallPage))) :
    (readDiffHdr m (!s.fSmallPage) a).ib = e.ib ∧
    (readDiffHdr m (!s.fSmallPage) a).m_flags =
      (DIFFHDR2.ofDIFFHDR (wBitField e.ib e.cbOld e.new.length)).m_flags := by
  have hib : e.ib < 65536 := by have := hf.old; have := s.cbPage_le; omega
  cases hs : s.fSmallPage with
  | false =>
    rw [hs] at h
    obtain ⟨h₀, h₁⟩ := Mem.holds_append.1 (show m.Holds a (_ ++ _) from h)
    obtain ⟨h₁, -⟩ := Mem.holds_cons.1 h₁
    refine ⟨?_, h₁⟩
    show (m.readU16 a).toNat = e.ib
    rw [wordBytes_append _ h₀, BitVec.toNat_ofNat, Nat.mod_eq_of_lt hib]
  | true =>
    rw [hs] at h
    have hw := wordBytes_append _ (show m.Holds a (wordBytes _) from h)
    refine ⟨?_, by rw [← hw]; rfl⟩
    show (m.readU16 a &&& ibOffsetMask).toNat = e.ib
    rw [hw, wBitField_offset _ _ _ (hf.ib hs)]

/-- Two bytes are used for both lengths of an entry if one of them needs two. -/
abbrev fTwoBytes (cbOld cbNew : Nat) : Bool := 255 < cbOld ∨ 255 < cbNew

theorem dataLengthBytes_eq (ib cbOld cbNew : Nat) :
    dataLengthBytes ib cbOld cbNew = lengthBytes (fTwoBytes cbOld cbNew) cbNew ++
      if cbOld = 0 ∨ cbOld = cbNew then [] else lengthBytes (fTwoBytes cbOld cbNew) cbOld := by
  have hS := wBitField_sameLength ib cbOld cbNew
  have hI := wBitField_insert ib cbOld cbNew
  have hT := wBitField_twoBytes ib cbOld cbNew
  have hD : (wBitField ib cbOld cbNew &&& fReplaceWithSameLength = 0 ∧
      wBitField ib cbOld cbNew &&& fInsert = 0) ↔ ¬(cbOld = 0 ∨ cbOld = cbNew) := by
    have hS' := not_iff_not.2 hS
    have hI' := not_iff_not.2 hI
    rw [not_not] at hS' hI'
    rw [hS', hI']
    tauto
  simp only [dataLengthBytes, hT, hD, fTwoBytes]
  split_ifs with h <;> simp_all

/-- The three flags of a stored header, as redo tests them. -/
theorem readDiffHdr_flags (hf : e.Fits s)
    (h : m.Holds a (diffHdrBytes e.ib e.cbOld e.new.length (!s.fSmallPage))) :
    (readDiffHdr m (!s.fSmallPage) a).FInsert = decide (e.cbOld = 0) ∧
    (readDiffHdr m (!s.fSmallPage) a).FReplaceWithSameLength =
      decide (e.cbOld ≠ 0 ∧ e.cbOld = e.new.length) ∧
    (readDiffHdr m (!s.fSmallPage) a).FUseTwoBytesForDataLength =
      fTwoBytes e.cbOld e.new.length := by
  obtain ⟨-, hflags⟩ := readDiffHdr_spec hf h
  refine ⟨?_, ?_, ?_⟩
  · rw [DIFFHDR2.FInsert, hflags, decide_eq_decide]
    exact (flag_ofDIFFHDR _ (i := 6) (by decide)).trans (wBitField_insert ..)
  · rw [DIFFHDR2.FReplaceWithSameLength, hflags, decide_eq_decide]
    exact (flag_ofDIFFHDR _ (i := 5) (by decide)).trans (wBitField_sameLength ..)
  · rw [DIFFHDR2.FUseTwoBytesForDataLength, hflags, fTwoBytes, decide_eq_decide]
    exact (flag_ofDIFFHDR _ (i := 7) (by decide)).trans (wBitField_twoBytes ..)

/-- Redo reads an entry back as the edit it was made for. -/
theorem readDiffEntry_spec (hf : e.Fits s) (h : m.Holds a (diffBytes (!s.fSmallPage) e)) :
    ∃ iData, readDiffEntry m (!s.fSmallPage) a = ⟨e.ib, e.new.length, e.cbOld, iData⟩ ∧
      iData + e.new.length = a + (diffBytes (!s.fSmallPage) e).length ∧
      m.Holds iData e.new := by
  obtain ⟨hhl, hnew⟩ := Mem.holds_append.1 h
  obtain ⟨hhdr, hlen⟩ := Mem.holds_append.1 hhl
  obtain ⟨hib, -⟩ := readDiffHdr_spec hf hhdr
  obtain ⟨hI, hS, hT⟩ := readDiffHdr_flags hf hhdr
  have hol := hf.old
  have hnl := hf.new
  have hp := s.cbPage_le
  rw [length_diffHdrBytes, dataLengthBytes_eq] at hlen
  obtain ⟨hn, ho⟩ := Mem.holds_append.1 hlen
  -- either length fits into the bytes that both lengths get
  have hnew2 : readLength m (fTwoBytes e.cbOld e.new.length) (a + cbDiffHdr (!s.fSmallPage)) = _ :=
    readLength_lengthBytes hn (by split_ifs with h2 <;> simp at h2 <;> omega)
  refine ⟨a + cbDiffHdr (!s.fSmallPage) +
    (dataLengthBytes e.ib e.cbOld e.new.length).length, ?_, ?_, ?_⟩
  · simp only [readDiffEntry, hI, hS, hT, hib, hnew2, dataLengthBytes_eq]
    rcases Nat.eq_zero_or_pos e.cbOld with h0 | h0
    · simp [h0]
    · rcases eq_or_ne e.cbOld e.new.length with h1 | h1
      · simp only [← h1, List.append_nil, or_true, if_true]
        simp [show e.cbOld ≠ 0 by omega]
      · rw [if_neg (by omega)] at ho
        have hold := readLength_lengthBytes ho (by split_ifs with h2 <;> simp at h2 <;> omega)
        simp only [show e.cbOld ≠ 0 by omega, h1, hold]
        simp only [ne_eq, and_false, or_false, decide_false, Bool.false_eq_true,
          if_false, List.length_append, Nat.add_assoc]
  · simp only [diffBytes, List.length_append, length_diffHdrBytes]
    omega
  · rwa [List.length_append, length_diffHdrBytes, ← Nat.add_assoc] at hnew

end entry

/-! ## Redo applies the edits -/

section redo
variable {s : PageSize} {pbDiff pbOld : Mem} {old : List Byte}

/-- The bytes of a diff with the given edits. -/
def diffEncode (s : PageSize) (es : List (Edit Byte)) : List Byte :=
  es.flatMap (diffBytes (!s.fSmallPage))

theorem Mem.Holds.read_slice {m : Mem} (h : m.Holds 0 old) {i n : Nat} (hn : i + n ≤ old.length) :
    m.read i n = slice old i n := by
  have h1 : m.read 0 (i + n + (old.length - (i + n))) = old := by
    rw [Nat.add_sub_cancel' hn]
    exact h
  rw [Mem.read_add, Mem.read_add, Nat.zero_add] at h1
  conv_rhs => rw [← h1]
  simp [slice]

/-- From the entry at `iDiff` on, redo applies the remaining edits to the rest of the
before-image, as long as the after-image fits into the page. -/
theorem afterImageLoop_eq (hold : pbOld.Holds 0 old) {es : List (Edit Byte)}
    (hf : ∀ e ∈ es, e.Fits s) : ∀ {iDiff iOld : Nat} {rgbNew : List Byte},
    pbDiff.Holds iDiff (diffEncode s es) → Ordered old.length iOld es →
    (rgbNew ++ patch old iOld es).length ≤ s.cbPage →
    afterImageLoop s pbDiff (iDiff + (diffEncode s es).length) pbOld old.length (!s.fSmallPage)
      iDiff iOld rgbNew = .ok (rgbNew ++ patch old iOld es) := by
  induction es with
  | nil =>
    intro iDiff iOld rgbNew _ hord hlen
    have hi : iOld ≤ old.length := hord
    rw [afterImageLoop, if_neg (by simp [diffEncode])]
    rw [patch, List.length_append, List.length_drop] at hlen
    dsimp only
    rw [if_neg (by omega), hold.read_slice (by omega), slice_rest, patch]
  | cons e es ih =>
    intro iDiff iOld rgbNew hd hord hlen
    obtain ⟨hib, hord'⟩ := hord
    have hend : e.ib + e.cbOld ≤ old.length := hord'.le
    obtain ⟨he, hes⟩ := Mem.holds_append.1 (show pbDiff.Holds iDiff (_ ++ diffEncode s es) from hd)
    obtain ⟨iData, hread, hiData, hnew⟩ := readDiffEntry_spec (hf e (by simp)) he
    have hcb : (diffEncode s (e :: es)).length =
        (diffBytes (!s.fSmallPage) e).length + (diffEncode s es).length := by
      simp [diffEncode]
    have hgt := lt_readDiffEntry_iData pbDiff (!s.fSmallPage) iDiff
    rw [hread] at hgt
    rw [patch, ← List.append_assoc, ← List.append_assoc] at hlen
    have hlen' := hlen
    simp only [List.length_append, length_slice (show iOld + (e.ib - iOld) ≤ old.length by omega)]
      at hlen'
    rw [afterImageLoop, if_pos (by simp only at hgt; omega), hread]
    dsimp only
    rw [if_neg (by omega), if_neg (by omega), if_neg (by omega), if_neg (by omega),
      if_neg (by omega), hold.read_slice (by omega), hnew, hiData, hcb, ← Nat.add_assoc,
      ih (fun e he => hf e (by simp [he])) hes hord' hlen, patch, ← List.append_assoc,
      ← List.append_assoc]

/-- Redo of a diff is its patch. -/
theorem errLGGetAfterImage_eq (hold : pbOld.Holds 0 old) {es : List (Edit Byte)}
    (hf : ∀ e ∈ es, e.Fits s) (hdiff : pbDiff.Holds 0 (diffEncode s es))
    (hord : Ordered old.length 0 es) (hlen : (patch old 0 es).length ≤ s.cbPage) :
    errLGGetAfterImage s pbDiff (diffEncode s es).length pbOld old.length (!s.fSmallPage) =
      .ok (patch old 0 es) := by
  have h := afterImageLoop_eq hold hf hdiff hord (show ([] ++ _).length ≤ _ from hlen)
  rwa [Nat.zero_add] at h

end redo

end Ese
