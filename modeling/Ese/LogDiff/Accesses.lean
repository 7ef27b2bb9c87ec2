import Mathlib.Logic.Relation
import Ese.LogDiff.Basic

/-!
# What redo reads and writes

`ErrLGGetAfterImage` tests an entry against the ends of the diff and of the before-image only after
it has read the lengths and copied the data. Writes stay in the page; a read may run past the diff
or the before-image, and the error comes after it.
-/

namespace Ese

/-- A range of bytes of one of the three buffers. -/
inductive Access where
  | readDiff (ib cb : Nat)
  | readOld (ib cb : Nat)
  | writeNew (ib cb : Nat)
  deriving DecidableEq, Repr

/-- Every byte of the range is a byte of its buffer. -/
def Access.Inside (cbDiff cbOld cbPage : Nat) : Access → Prop
  | .readDiff ib cb => ∀ i, ib ≤ i → i < ib + cb → i < cbDiff
  | .readOld ib cb => ∀ i, ib ≤ i → i < ib + cb → i < cbOld
  | .writeNew ib cb => ∀ i, ib ≤ i → i < ib + cb → i < cbPage

/-- The size of a data length. -/
def cbLength (fTwoBytes : Bool) : Nat := if fTwoBytes then 2 else 1

/-- The second length of an entry that replaces data of another size. -/
def oldLengthAccesses (diffhdr2 : DIFFHDR2) (iDiff : Nat) : List Access :=
  if diffhdr2.FInsert || diffhdr2.FReplaceWithSameLength then []
  else [.readDiff iDiff (cbLength diffhdr2.FUseTwoBytesForDataLength)]

section
variable (s : PageSize) (pbDiff : Mem) (cbDiff : Nat) (pbOld : Mem) (cbOld : Nat) (fDiff2 : Bool)

/-- The loop of `ErrLGGetAfterImage` with its accesses, in the order of the source. -/
def afterImageAccesses (iDiff iOld : Nat) (rgbNew : List Byte) :
    Except JET_err (List Byte) × List Access :=
  if iDiff < cbDiff then
    let diffhdr2 := readDiffHdr pbDiff fDiff2 iDiff
    let fTwoBytes := diffhdr2.FUseTwoBytesForDataLength
    let e := readDiffEntry pbDiff fDiff2 iDiff
    let header := [Access.readDiff iDiff (cbDiffHdr fDiff2)]
    if e.ib < iOld then (.error .logFileCorrupt, header)
    else
      let cbSkip := e.ib - iOld
      if s.cbPage < rgbNew.length + cbSkip then (.error .logFileCorrupt, header)
      else
        let skip := header ++ [.readOld iOld cbSkip, .writeNew rgbNew.length cbSkip,
          .readDiff (iDiff + cbDiffHdr fDiff2) (cbLength fTwoBytes)]
        if s.cbPage < rgbNew.length + cbSkip + e.cbDataNew then (.error .logFileCorrupt, skip)
        else
          let data :=
            skip ++ oldLengthAccesses diffhdr2 (iDiff + cbDiffHdr fDiff2 + cbLength fTwoBytes) ++
            [.readDiff e.iData e.cbDataNew, .writeNew (rgbNew.length + cbSkip) e.cbDataNew]
          -- the entry is tested after it has been copied
          if cbDiff < e.iData + e.cbDataNew then (.error .logFileCorrupt, data)
          else if cbOld < e.ib + e.cbDataOld then (.error .logFileCorrupt, data)
          else
            let r := afterImageAccesses (e.iData + e.cbDataNew) (e.ib + e.cbDataOld)
              (rgbNew ++ pbOld.read iOld cbSkip ++ pbDiff.read e.iData e.cbDataNew)
            (r.1, data ++ r.2)
  else
    let cbT := cbOld - iOld
    if s.cbPage < rgbNew.length + cbT then (.error .logFileCorrupt, [])
    else (.ok (rgbNew ++ pbOld.read iOld cbT), [.readOld iOld cbT, .writeNew rgbNew.length cbT])
termination_by cbDiff - iDiff
decreasing_by
  have := lt_readDiffEntry_iData pbDiff fDiff2 iDiff
  omega

/-- `ErrLGGetAfterImage` with its accesses. -/
def errLGGetAfterImageAccesses : Except JET_err (List Byte) × List Access :=
  afterImageAccesses s pbDiff cbDiff pbOld cbOld fDiff2 0 0 []

/-- The accesses leave the result alone. -/
theorem afterImageAccesses_fst (iDiff iOld : Nat) (rgbNew : List Byte) :
    (afterImageAccesses s pbDiff cbDiff pbOld cbOld fDiff2 iDiff iOld rgbNew).1
      = afterImageLoop s pbDiff cbDiff pbOld cbOld fDiff2 iDiff iOld rgbNew := by
  induction hd : cbDiff - iDiff using Nat.strong_induction_on generalizing iDiff iOld rgbNew with
  | _ d ih =>
    rw [afterImageAccesses, afterImageLoop]
    have hlt := lt_readDiffEntry_iData pbDiff fDiff2 iDiff
    dsimp only
    split_ifs
    · rfl
    · rfl
    · rfl
    · rfl
    · rfl
    · exact ih _ (by omega) _ _ _ rfl
    · rfl
    · rfl

theorem errLGGetAfterImageAccesses_fst :
    (errLGGetAfterImageAccesses s pbDiff cbDiff pbOld cbOld fDiff2).1
      = errLGGetAfterImage s pbDiff cbDiff pbOld cbOld fDiff2 :=
  afterImageAccesses_fst s pbDiff cbDiff pbOld cbOld fDiff2 0 0 []

/-! ## The entries that are reached -/

/-- The cursors of the loop: into the diff, into the before-image, and the size of the output. -/
structure Cursors where
  iDiff : Nat
  iOld : Nat
  cbNew : Nat

/-- The entry at the cursors passes its tests, and the loop goes on behind it. -/
def EntryStep (c c' : Cursors) : Prop :=
  let e := readDiffEntry pbDiff fDiff2 c.iDiff
  c.iDiff < cbDiff ∧ c.iOld ≤ e.ib ∧ c.cbNew + (e.ib - c.iOld) + e.cbDataNew ≤ s.cbPage ∧
    e.iData + e.cbDataNew ≤ cbDiff ∧ e.ib + e.cbDataOld ≤ cbOld ∧
    c' = ⟨e.iData + e.cbDataNew, e.ib + e.cbDataOld, c.cbNew + (e.ib - c.iOld) + e.cbDataNew⟩

/-- The entry's header is in the diff. Unless its offset lies before the cursor or beyond the page,
the offset is in the before-image and the first length in the diff; and unless the new data is too
large for the page, it ends in the diff. -/
def EntryInside (c : Cursors) : Prop :=
  let e := readDiffEntry pbDiff fDiff2 c.iDiff
  let iLength := c.iDiff + cbDiffHdr fDiff2
  iLength ≤ cbDiff ∧
    (c.iOld ≤ e.ib → c.cbNew + (e.ib - c.iOld) ≤ s.cbPage →
      e.ib ≤ cbOld ∧ iLength + cbLength
      (readDiffHdr pbDiff fDiff2 c.iDiff).FUseTwoBytesForDataLength ≤ cbDiff ∧
      (c.cbNew + (e.ib - c.iOld) + e.cbDataNew ≤ s.cbPage → e.iData + e.cbDataNew ≤ cbDiff))

/-- Every entry that is reached lies in the diff and in the before-image. -/
def EntriesInside (c : Cursors) : Prop :=
  ∀ c', Relation.ReflTransGen (EntryStep s pbDiff cbDiff cbOld fDiff2) c c' → c'.iDiff < cbDiff →
    EntryInside s pbDiff cbDiff cbOld fDiff2 c'

/-! ## The accesses of an entry -/

omit s pbOld cbOld in
theorem readDiffEntry_iData (iDiff : Nat) :
    (readDiffEntry pbDiff fDiff2 iDiff).iData
      = iDiff + cbDiffHdr fDiff2 + cbLength
        (readDiffHdr pbDiff fDiff2 iDiff).FUseTwoBytesForDataLength +
        if (readDiffHdr pbDiff fDiff2 iDiff).FInsert ||
        (readDiffHdr pbDiff fDiff2 iDiff).FReplaceWithSameLength then 0
        else cbLength (readDiffHdr pbDiff fDiff2 iDiff).FUseTwoBytesForDataLength := by
  have hread (fTwoBytes : Bool) (i : Nat) : (readLength pbDiff fTwoBytes i).2 =
    i + cbLength fTwoBytes := by
    cases fTwoBytes <;> rfl
  rw [readDiffEntry]
  cases hins : (readDiffHdr pbDiff fDiff2 iDiff).FInsert
  · cases hsame : (readDiffHdr pbDiff fDiff2 iDiff).FReplaceWithSameLength
    · simp only [hread, Bool.false_eq_true, if_false, Bool.or_self]
    · simp only [hread, Bool.false_eq_true, if_false, if_true, Bool.false_or, Nat.add_zero]
  · simp only [hread, if_true, Bool.true_or, Nat.add_zero]

end

section
variable {cbDiff cbOld cbPage ib cb : Nat}

theorem Access.inside_readDiff : (Access.readDiff ib cb).Inside cbDiff cbOld cbPage ↔ cb = 0 ∨
    ib + cb ≤ cbDiff := by
  constructor
  · intro h
    by_contra hnot
    obtain ⟨h0, hle⟩ := not_or.1 hnot
    have := h (ib + cb - 1) (by omega) (by omega)
    omega
  · intro h i _ hi
    omega

theorem Access.inside_readOld : (Access.readOld ib cb).Inside cbDiff cbOld cbPage ↔ cb = 0 ∨
    ib + cb ≤ cbOld := by
  constructor
  · intro h
    by_contra hnot
    obtain ⟨h0, hle⟩ := not_or.1 hnot
    have := h (ib + cb - 1) (by omega) (by omega)
    omega
  · intro h i _ hi
    omega

theorem Access.inside_writeNew : (Access.writeNew ib cb).Inside cbDiff cbOld cbPage ↔ cb = 0 ∨
    ib + cb ≤ cbPage := by
  constructor
  · intro h
    by_contra hnot
    obtain ⟨h0, hle⟩ := not_or.1 hnot
    have := h (ib + cb - 1) (by omega) (by omega)
    omega
  · intro h i _ hi
    omega

end

section
variable {s : PageSize} {pbDiff : Mem} {cbDiff : Nat} {pbOld : Mem} {cbOld : Nat} {fDiff2 : Bool}

theorem inside_oldLengthAccesses {diffhdr2 : DIFFHDR2} {iDiff cbPage : Nat} :
    (∀ a ∈ oldLengthAccesses diffhdr2 iDiff, a.Inside cbDiff cbOld cbPage) ↔
      (if diffhdr2.FInsert || diffhdr2.FReplaceWithSameLength then 0
        else cbLength diffhdr2.FUseTwoBytesForDataLength) = 0 ∨
      iDiff + (if diffhdr2.FInsert || diffhdr2.FReplaceWithSameLength then 0
        else cbLength diffhdr2.FUseTwoBytesForDataLength) ≤ cbDiff := by
  rw [oldLengthAccesses]
  split
  · simp only [List.not_mem_nil, IsEmpty.forall_iff, implies_true, true_or]
  · rw [List.forall_mem_singleton, Access.inside_readDiff]

/-- What is reached from the cursors is reached from behind their entry, or is their entry. -/
theorem entriesInside_iff {c : Cursors} :
    EntriesInside s pbDiff cbDiff cbOld fDiff2 c ↔
      (c.iDiff < cbDiff → EntryInside s pbDiff cbDiff cbOld fDiff2 c) ∧
      ∀ c', EntryStep s pbDiff cbDiff cbOld fDiff2 c c' →
        EntriesInside s pbDiff cbDiff cbOld fDiff2 c' := by
  constructor
  · intro h
    exact ⟨h c .refl, fun c' hstep c'' hreach => h c'' (.head hstep hreach)⟩
  · rintro ⟨hself, hnext⟩ c' hreach
    rcases hreach.cases_head with rfl | ⟨c₁, hstep, hrest⟩
    · exact hself
    · exact hnext c₁ hstep c' hrest

variable (pbOld) in
/-- The loop's accesses stay in their buffers exactly when the entries do. -/
theorem afterImageAccesses_inside_iff (iDiff iOld : Nat) (rgbNew : List Byte) (hOld : iOld ≤ cbOld)
    (hNew : rgbNew.length ≤ s.cbPage) :
    (∀ a ∈ (afterImageAccesses s pbDiff cbDiff pbOld cbOld fDiff2 iDiff iOld rgbNew).2,
        a.Inside cbDiff cbOld s.cbPage) ↔
      EntriesInside s pbDiff cbDiff cbOld fDiff2 ⟨iDiff, iOld, rgbNew.length⟩ := by
  have hhdr : 0 < cbDiffHdr fDiff2 := by cases fDiff2 <;> decide
  have hlen : ∀ fTwoBytes, 0 < cbLength fTwoBytes := by decide
  induction hd : cbDiff - iDiff using Nat.strong_induction_on generalizing iDiff iOld rgbNew with
  | _ d ih =>
    have hdata := readDiffEntry_iData pbDiff fDiff2 iDiff
    have hlen' := hlen (readDiffHdr pbDiff fDiff2 iDiff).FUseTwoBytesForDataLength
    rw [entriesInside_iff, afterImageAccesses]
    simp only [EntryInside, EntryStep]
    generalize readDiffEntry pbDiff fDiff2 iDiff = e at hdata ⊢
    split_ifs with h1 h2 h3 h4 h5 h6 h7
    · -- the offset is behind the cursor
      simp only [List.forall_mem_singleton, Access.inside_readDiff]
      refine ⟨fun h => ⟨fun _ => ⟨by omega, fun _ => by omega⟩, fun c' hstep => ?_⟩, fun h => ?_⟩
      · exact absurd hstep.2.1 (by omega)
      · exact Or.inr (h.1 h1).1
    · -- beyond the page
      simp only [List.forall_mem_singleton, Access.inside_readDiff]
      refine ⟨fun h => ⟨fun _ => ⟨by omega, fun _ => by omega⟩, fun c' hstep => ?_⟩, fun h => ?_⟩
      · exact absurd hstep.2.2.1 (by omega)
      · exact Or.inr (h.1 h1).1
    · -- the new data does not fit into the page
      simp only [List.forall_mem_append, List.forall_mem_cons, List.not_mem_nil, IsEmpty.forall_iff,
        implies_true,
        and_true, Access.inside_readDiff, Access.inside_readOld, Access.inside_writeNew]
      refine ⟨fun h => ⟨fun _ => ⟨by omega, fun _ _ => ⟨by omega, by omega, by omega⟩⟩,
        fun c' hstep => ?_⟩, fun h => ?_⟩
      · exact absurd hstep.2.2.1 (by omega)
      · obtain ⟨hh, hrest⟩ := h.1 h1
        obtain ⟨ho, hl, -⟩ := hrest (by omega) (by omega)
        exact ⟨Or.inr hh, by omega, by omega, Or.inr hl⟩
    · -- the entry ends behind the diff
      simp only [List.forall_mem_append, List.forall_mem_cons, List.not_mem_nil, IsEmpty.forall_iff,
        implies_true,
        and_true, Access.inside_readDiff, Access.inside_readOld, Access.inside_writeNew,
        inside_oldLengthAccesses]
      refine ⟨fun h => ⟨fun _ => ⟨by omega, fun _ _ => ⟨by omega, by omega, fun _ => by omega⟩⟩,
        fun c' hstep => ?_⟩,
        fun h => ?_⟩
      · exact absurd hstep.2.2.2.1 (by omega)
      · have := ((h.1 h1).2 (by omega) (by omega)).2.2 (by omega)
        omega
    · -- the entry ends behind the before-image
      simp only [List.forall_mem_append, List.forall_mem_cons, List.not_mem_nil, IsEmpty.forall_iff,
        implies_true,
        and_true, Access.inside_readDiff, Access.inside_readOld, Access.inside_writeNew,
        inside_oldLengthAccesses]
      refine ⟨fun h => ⟨fun _ => ⟨by omega, fun _ _ => ⟨by omega, by omega, fun _ => by omega⟩⟩,
        fun c' hstep => ?_⟩,
        fun h => ?_⟩
      · exact absurd hstep.2.2.2.2.1 (by omega)
      · obtain ⟨ho, hl, hd⟩ := (h.1 h1).2 (by omega) (by omega)
        have := hd (by omega)
        refine ⟨⟨⟨?_, ?_⟩, ?_⟩, ?_⟩ <;> omega
    · -- the loop goes on
      have hlength : (rgbNew ++ pbOld.read iOld (e.ib - iOld) ++
          pbDiff.read e.iData e.cbDataNew).length
          = rgbNew.length + (e.ib - iOld) + e.cbDataNew := by
        rw [List.length_append, List.length_append, Mem.length_read, Mem.length_read]
      have hnext := ih (cbDiff - (e.iData + e.cbDataNew)) (by omega) (e.iData + e.cbDataNew)
        (e.ib + e.cbDataOld)
        (rgbNew ++ pbOld.read iOld (e.ib - iOld) ++ pbDiff.read e.iData e.cbDataNew) (by omega)
        (by omega) rfl
      rw [hlength] at hnext
      simp only [List.forall_mem_append, List.forall_mem_cons, List.not_mem_nil, IsEmpty.forall_iff,
        implies_true,
        and_true, Access.inside_readDiff, Access.inside_readOld, Access.inside_writeNew,
        inside_oldLengthAccesses]
      simp only [List.append_assoc] at hnext ⊢
      refine (and_congr_right' hnext).trans ?_
      refine ⟨fun ⟨h, hrest⟩ =>
        ⟨fun _ => ⟨by omega, fun _ _ => ⟨by omega, by omega, fun _ => by omega⟩⟩, ?_⟩,
        fun h => ⟨?_, ?_⟩⟩
      · rintro c' ⟨-, -, -, -, -, rfl⟩
        exact hrest
      · obtain ⟨ho, hl, hd⟩ := (h.1 h1).2 (by omega) (by omega)
        have := hd (by omega)
        refine ⟨⟨⟨?_, ?_⟩, ?_⟩, ?_⟩ <;> omega
      · exact h.2 _ ⟨h1, by omega, by omega, by omega, by omega, rfl⟩
    · -- the rest of the before-image is too large for the page
      refine ⟨fun _ => ⟨fun hlt => absurd hlt h1, fun c' hstep => absurd hstep.1 h1⟩, fun _ a ha =>
        ?_⟩
      cases ha
    · simp only [List.forall_mem_cons, List.not_mem_nil, IsEmpty.forall_iff, implies_true, and_true,
        Access.inside_readOld, Access.inside_writeNew]
      refine ⟨fun _ => ⟨fun hlt => absurd hlt h1, fun c' hstep => absurd hstep.1 h1⟩, fun _ => ?_⟩
      omega

/-- An after-image fits the page. -/
theorem length_afterImageLoop (iDiff iOld : Nat) (rgbNew : List Byte) {rgb : List Byte}
    (h : afterImageLoop s pbDiff cbDiff pbOld cbOld fDiff2 iDiff iOld rgbNew = .ok rgb) :
      rgb.length ≤ s.cbPage := by
  induction hd : cbDiff - iDiff using Nat.strong_induction_on generalizing iDiff iOld rgbNew with
  | _ d ih =>
    have hlt := lt_readDiffEntry_iData pbDiff fDiff2 iDiff
    rw [afterImageLoop] at h
    dsimp only at h
    split_ifs at h
    · exact ih _ (by omega) _ _ _ h rfl
    · cases h
      rw [List.length_append, Mem.length_read]
      omega

end

/-- The diff and the before-image are read, and the page written, in their bounds only, and an
after-image fits the page. -/
def BoundsSafe (s : PageSize) (pbDiff : Mem) (cbDiff : Nat) (pbOld : Mem) (cbOld : Nat)
    (fDiff2 : Bool) : Prop :=
  ((errLGGetAfterImage s pbDiff cbDiff pbOld cbOld fDiff2 = .error .logFileCorrupt) ∨
    ∃ rgbNew, errLGGetAfterImage s pbDiff cbDiff pbOld cbOld fDiff2 = .ok rgbNew ∧
    rgbNew.length ≤ s.cbPage) ∧
  ∀ a ∈ (errLGGetAfterImageAccesses s pbDiff cbDiff pbOld cbOld fDiff2).2,
    a.Inside cbDiff cbOld s.cbPage

/-- Redo is bounds-safe exactly when every entry it reaches lies in the diff and in the
before-image, as far as its tests let it be read. -/
theorem boundsSafe_iff (s : PageSize) (pbDiff : Mem) (cbDiff : Nat) (pbOld : Mem) (cbOld : Nat)
    (fDiff2 : Bool) :
    BoundsSafe s pbDiff cbDiff pbOld cbOld fDiff2 ↔ EntriesInside s pbDiff cbDiff cbOld fDiff2
      ⟨0, 0, 0⟩ := by
  have hinside : _ ↔ EntriesInside s pbDiff cbDiff cbOld fDiff2 ⟨0, 0, 0⟩ :=
    afterImageAccesses_inside_iff pbOld 0 0 [] (Nat.zero_le cbOld) (Nat.zero_le _)
  refine ⟨fun h => hinside.1 h.2, fun h => ⟨?_, hinside.2 h⟩⟩
  cases hres : errLGGetAfterImage s pbDiff cbDiff pbOld cbOld fDiff2 with
  | error err =>
    cases err
    exact Or.inl rfl
  | ok rgbNew => exact Or.inr ⟨rgbNew, rfl, length_afterImageLoop 0 0 [] hres⟩

/-- An insert of 255 bytes in a diff of three: the bytes are copied, then the entry is found to end
behind the diff. -/
theorem not_boundsSafe_short :
    ¬(∀ (s : PageSize) (pbDiff : Mem) (cbDiff : Nat) (pbOld : Mem) (cbOld : Nat) (fDiff2 : Bool),
      cbOld ≤ s.cbPage → BoundsSafe s pbDiff cbDiff pbOld cbOld fDiff2) := by
  intro hall
  have hsafe := (boundsSafe_iff _ _ _ _ _ _).1
    (hall .kb4 (fun i => [0x00, 0x40, 0xff].getD i 0x00) 3 (fun _ => 0x00) 0 false (by decide))
  have hentry : readDiffEntry (fun i => [0x00, 0x40, 0xff].getD i 0x00) false 0 =
    ⟨0, 255, 0, 3⟩ := by decide
  have hinside := hsafe ⟨0, 0, 0⟩ .refl (show 0 < 3 by decide)
  simp only [EntryInside, hentry] at hinside
  have hend := (hinside.2 (by decide) (by decide)).2.2 (by decide)
  exact absurd hend (by decide)

end Ese
