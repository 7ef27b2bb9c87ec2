import Ese.Checksum.Basic
import Ese.Page.Basic

/-!
# The overlap bitmap of a page check

`ErrCheckPage` keeps a bit for each byte of the data area. A tag marks the bits of its range word by
word, and what was marked before is ORed into `dwOverlaps`. The mask of a word is computed from
`( BYTE )( 1 << ( ib & 31 ) )`, which is zero from the ninth bit of a word on: a range that starts
there marks nothing in its first word.
-/

namespace Ese

/-- `rgdw` and `dwOverlaps`. -/
structure OverlapBitmap where
  rgdw : Nat → ULONG
  dwOverlaps : ULONG

namespace OverlapBitmap

variable (m : OverlapBitmap)

/-- `dwOverlaps |= *pdw & set; *pdw |= set`. -/
def setWord (iw : Nat) (set : ULONG) : OverlapBitmap where
  rgdw := Function.update m.rgdw iw (m.rgdw iw ||| set)
  dwOverlaps := m.dwOverlaps ||| (m.rgdw iw &&& set)

/-- The mask of the bits of a word from that of `ib` on, before it is shifted. -/
def setFrom (ib : Nat) : ULONG :=
  let bit : ULONG := ((1#32 <<< (ib % 32)).setWidth 8).setWidth 32
  ~~~(bit - 1)

/-- The loop over the words that a range fills up to their end. -/
def setWords (m : OverlapBitmap) (ib cb : Nat) : OverlapBitmap × Nat × Nat :=
  if 32 - ib % 32 ≤ cb then
    setWords (m.setWord (ib / 32) (setFrom ib)) (ib + (32 - ib % 32)) (cb - (32 - ib % 32))
  else (m, ib, cb)
termination_by cb
decreasing_by
  have := Nat.mod_lt ib (show 0 < 32 by decide)
  omega

/-- The bits of the range `[ib, ib + cb)` are set. -/
def setRange (ib cb : Nat) : OverlapBitmap :=
  let (m, ib, cb) := m.setWords ib cb
  if cb ≠ 0 then
    let cbitRightSkip := ib % 32
    let cbitLeftSkip := 32 - cb - cbitRightSkip
    m.setWord (ib / 32) ((setFrom ib <<< cbitLeftSkip) >>> cbitLeftSkip)
  else m

/-! ## What a range marks -/

/-- The byte `b` is marked. -/
def Marked (b : Nat) : Prop := (m.rgdw (b / 32)).getLsbD (b % 32) = true

/-- The bytes `P` are marked from `m` to `m'`, and those marked before are counted as overlaps. -/
structure Marks (m m' : OverlapBitmap) (P : Nat → Prop) : Prop where
  marked : ∀ b, m'.Marked b ↔ m.Marked b ∨ P b
  overlaps : m'.dwOverlaps ≠ 0 ↔ m.dwOverlaps ≠ 0 ∨ ∃ b, P b ∧ m.Marked b

/-- The bytes a range marks: all of it, or all but those of its first word. -/
def MarkedBy (ib cb b : Nat) : Prop := ib ≤ b ∧ b < ib + cb ∧ (ib % 32 < 8 ∨ ib / 32 < b / 32)

variable {m}

theorem Marks.refl : Marks m m fun _ => False :=
  ⟨fun _ => ⟨Or.inl, fun h => h.elim id False.elim⟩,
    ⟨Or.inl, fun h => h.elim id fun ⟨_, hf, _⟩ => hf.elim⟩⟩

theorem Marks.congr {m' : OverlapBitmap} {P Q : Nat → Prop} (h : Marks m m' P)
    (hPQ : ∀ b, P b ↔ Q b) :
    Marks m m' Q := by
  obtain rfl : P = Q := funext fun b => propext (hPQ b)
  exact h

/-- Disjoint sets of bytes, one after the other. -/
theorem Marks.trans {m₁ m₂ : OverlapBitmap} {P Q : Nat → Prop} (h₁ : Marks m m₁ P)
    (h₂ : Marks m₁ m₂ Q)
    (hPQ : ∀ b, P b → ¬Q b) : Marks m m₂ fun b => P b ∨ Q b where
  marked b := by rw [h₂.marked, h₁.marked, or_assoc]
  overlaps := by
    rw [h₂.overlaps, h₁.overlaps]
    constructor
    · rintro ((h | ⟨b, hb, hm⟩) | ⟨b, hb, hm⟩)
      · exact Or.inl h
      · exact Or.inr ⟨b, Or.inl hb, hm⟩
      · rcases (h₁.marked b).1 hm with hm | hp
        · exact Or.inr ⟨b, Or.inr hb, hm⟩
        · exact absurd hb (hPQ b hp)
    · rintro (h | ⟨b, hb | hb, hm⟩)
      · exact Or.inl (Or.inl h)
      · exact Or.inl (Or.inr ⟨b, hb, hm⟩)
      · exact Or.inr ⟨b, hb, (h₁.marked b).2 (Or.inl hm)⟩

theorem ne_zero_iff {w : Nat} (x : BitVec w) : x ≠ 0 ↔ ∃ i < w, x.getLsbD i = true := by
  constructor
  · intro h
    by_contra hnone
    refine h (BitVec.eq_of_getLsbD_eq fun i hi => ?_)
    refine Eq.trans ?_ BitVec.getLsbD_zero.symm
    exact Bool.eq_false_iff.2 fun hb => hnone ⟨i, hi, hb⟩
  · rintro ⟨i, -, hi⟩ h0
    rw [h0] at hi
    exact Bool.false_ne_true (BitVec.getLsbD_zero.symm.trans hi)

/-- A word is marked by the bits of its mask. -/
theorem marks_setWord (iw : Nat) (set : ULONG) :
    Marks m (m.setWord iw set) fun b => b / 32 = iw ∧ set.getLsbD (b % 32) = true where
  marked b := by
    rw [Marked, Marked, setWord]
    dsimp only
    by_cases hb : b / 32 = iw
    · rw [hb, Function.update_self, BitVec.getLsbD_or, Bool.or_eq_true]
      simp
    · rw [Function.update_of_ne hb]
      simp [hb]
  overlaps := by
    rw [setWord]
    dsimp only
    rw [ne_zero_iff, ne_zero_iff]
    simp only [BitVec.getLsbD_or, BitVec.getLsbD_and, Bool.or_eq_true, Bool.and_eq_true]
    constructor
    · rintro ⟨i, hi, h | ⟨hm, hs⟩⟩
      · exact Or.inl ⟨i, hi, h⟩
      · refine Or.inr ⟨32 * iw + i, ⟨by omega, ?_⟩, ?_⟩
        · rw [show (32 * iw + i) % 32 = i by omega]
          exact hs
        · rw [Marked, show (32 * iw + i) / 32 = iw by omega, show (32 * iw + i) % 32 = i by omega]
          exact hm
    · rintro (⟨i, hi, h⟩ | ⟨b, ⟨hb, hs⟩, hm⟩)
      · exact ⟨i, hi, Or.inl h⟩
      · rw [Marked, hb] at hm
        exact ⟨b % 32, Nat.mod_lt b (by decide), Or.inr ⟨hm, hs⟩⟩

/-- The cast to a byte leaves no mask from the ninth bit on. -/
theorem getLsbD_setFrom (ib : Nat) {j : Nat} (hj : j < 32) :
    (setFrom ib).getLsbD j = (decide (ib % 32 < 8) && decide (ib % 32 ≤ j)) := by
  have hall : ∀ k < 32, ∀ j < 32, (~~~(((1#32 <<< k).setWidth 8).setWidth 32 - 1#32)).getLsbD j
      = (decide (k < 8) && decide (k ≤ j)) := by decide
  exact hall _ (Nat.mod_lt ib (by decide)) j hj

/-- A range that fills a word from `ib` on marks those bits, or none of them. -/
theorem marks_setFrom (ib : Nat) :
    Marks m (m.setWord (ib / 32) (setFrom ib)) (MarkedBy ib (32 - ib % 32)) := by
  refine (marks_setWord _ _).congr fun b => ?_
  rw [getLsbD_setFrom ib (Nat.mod_lt b (by decide)), Bool.and_eq_true, decide_eq_true_eq,
    decide_eq_true_eq, MarkedBy]
  omega

/-- The last word is marked up to the end of the range. -/
theorem marks_setLast {ib cb : Nat} (hcb : cb < 32 - ib % 32) :
    Marks m (m.setWord (ib / 32) ((setFrom ib <<< (32 - cb - ib % 32)) >>> (32 - cb - ib % 32)))
      (MarkedBy ib cb) := by
  refine (marks_setWord _ _).congr fun b => ?_
  have hb := Nat.mod_lt b (show 0 < 32 by decide)
  rw [BitVec.getLsbD_ushiftRight, BitVec.getLsbD_shiftLeft, Bool.and_eq_true, Bool.and_eq_true,
    decide_eq_true_eq,
    MarkedBy]
  by_cases hlt : 32 - cb - ib % 32 + b % 32 < 32
  · rw [show 32 - cb - ib % 32 + b % 32 - (32 - cb - ib % 32) = b % 32 by omega,
      getLsbD_setFrom ib hb,
      Bool.and_eq_true, decide_eq_true_eq, decide_eq_true_eq]
    simp
    omega
  · constructor
    · rintro ⟨-, ⟨h, -⟩, -⟩
      exact absurd h hlt
    · intro h
      omega

/-- The loop marks its words and leaves the rest of the range. -/
theorem marks_setWords (m : OverlapBitmap) (ib cb : Nat) :
    ∃ cbDone, cbDone ≤ cb ∧ (m.setWords ib cb).2 = (ib + cbDone, cb - cbDone) ∧
      cb - cbDone < 32 - (ib + cbDone) % 32 ∧ (cbDone = 0 ∨ (ib + cbDone) % 32 = 0) ∧
      Marks m (m.setWords ib cb).1 (MarkedBy ib cbDone) := by
  induction cb using Nat.strong_induction_on generalizing m ib with
  | _ cb ih =>
    have hmod := Nat.mod_lt ib (show 0 < 32 by decide)
    rw [setWords]
    split
    · next hle =>
      obtain ⟨cbDone, hdone, hrest, hlt, hzero, hmarks⟩ := ih (cb - (32 - ib % 32)) (by omega)
        (m.setWord (ib / 32) (setFrom ib)) (ib + (32 - ib % 32))
      refine ⟨32 - ib % 32 + cbDone, by omega, ?_, ?_, ?_, ?_⟩
      · rw [hrest, Nat.add_assoc, Nat.sub_sub]
      · rw [← Nat.add_assoc]
        omega
      · rw [← Nat.add_assoc]
        omega
      · refine ((marks_setFrom ib).trans hmarks fun b => ?_).congr fun b => ?_
        · simp only [MarkedBy]
          omega
        · simp only [MarkedBy]
          omega
    · next hle =>
      refine ⟨0, Nat.zero_le _, rfl, by omega, Or.inl rfl, Marks.refl.congr fun b => ?_⟩
      rw [MarkedBy, false_iff]
      omega

/-- A range marks its bytes, except those of its first word when it starts at the ninth bit or
later. -/
theorem marks_setRange (ib cb : Nat) : Marks m (m.setRange ib cb) (MarkedBy ib cb) := by
  obtain ⟨cbDone, hdone, hrest, hlt, hzero, hmarks⟩ := marks_setWords m ib cb
  rw [setRange]
  generalize m.setWords ib cb = r at hrest hmarks ⊢
  obtain ⟨m', ib', cb'⟩ := r
  obtain ⟨rfl, rfl⟩ := Prod.mk.inj hrest
  dsimp only at hmarks ⊢
  split
  · refine (hmarks.trans (marks_setLast hlt) fun b => ?_).congr fun b => ?_
    · simp only [MarkedBy]
      omega
    · simp only [MarkedBy]
      omega
  · refine hmarks.congr fun b => ?_
    simp only [MarkedBy]
    omega

end OverlapBitmap

end Ese
