import Ese.Lib.Gaps
import Ese.LogBuffer.AddLogRec

/-!
# The bytes of framed log records

What a batch of log records is in the log: the bytes from its position on, with gaps where the
headers of segments are. `recordBytes` is a record of which the frames are the ones that `framed`
finds, `batchBytes` the records of a batch. The copy that `FLGIAddLogRec` makes of a batch puts
these bytes into the buffer, from the position on and over its end.
-/

namespace Ese.LogBuffer

open Ese.Log (LOG_SEGMENT_SIZE cbLGSEGHDR)

/-! ## The format -/

/-- The header of a segment, if one begins at position `ib`. -/
def segmentGap (ib : Nat) : List (Option Byte) :=
  if LOG_SEGMENT_SIZE - ib % LOG_SEGMENT_SIZE = LOG_SEGMENT_SIZE then List.replicate cbLGSEGHDR none
  else []

/-- The begin of a record of `cbNeeded` bytes: nothing, if the segment has room for it. -/
def beginBytes (cbNeeded cbSegRemain : Nat) : List (Option Byte) :=
  if cbSegRemain < cbNeeded then (lrFragmentBegin cbNeeded (cbSegRemain - cbLRFRAGMENTBEGIN)).map
    some else []

/-- What stands before the bytes of a record. -/
def frameBytes (fFragmented : Bool) (cbNeeded ib : Nat) : List (Option Byte) :=
  let cbSegRemain := (segmentBegun ib).1
  segmentGap ib ++
    if fFragmented then (lrFragment (min cbNeeded (cbSegRemain - cbLRFRAGMENT))).map some
    else if cbSegRemain < cbNeeded ∧ cbSegRemain < LOG_MIN_FRAGMENT_SIZE then
      (List.replicate cbSegRemain lrtypNOP).map some ++
        (List.replicate cbLGSEGHDR none ++ beginBytes cbNeeded (LOG_SEGMENT_SIZE - cbLGSEGHDR))
    else beginBytes cbNeeded cbSegRemain

/-- What is left of a record, with the frames. -/
def recordBytes : Nat → Bool → List Byte → Nat → List (Option Byte)
  | 0, _, _, _ => []
  | n + 1, fFragmented, data, ib =>
    if data.length = 0 then []
    else
      let (fFragmented', cbSegRemain, ib') := framed fFragmented data.length ib
      frameBytes fFragmented data.length ib ++ ((data.take cbSegRemain).map some ++
        recordBytes n fFragmented' (data.drop cbSegRemain) (ib' + min data.length cbSegRemain))

/-- The records of a batch from position `ib` on. -/
def batchBytes : Nat → List (List Byte) → List (Option Byte)
  | _, [] => []
  | ib, data :: rgdata =>
    recordBytes (data.length + 1) false data ib ++
      batchBytes (framedEnd (data.length + 1) false data.length ib) rgdata

/-! ## Its positions -/

/-- The gap leads to where the segment begins. -/
theorem add_length_segmentGap (ib : Nat) : ib + (segmentGap ib).length = (segmentBegun ib).2 := by
  unfold segmentGap segmentBegun
  dsimp only
  split_ifs
  · rw [List.length_replicate]
  · rfl

/-- The bytes that a first fragment has for itself. -/
theorem length_beginBytes (cbNeeded cbSegRemain : Nat) :
    (beginBytes cbNeeded cbSegRemain).length = if cbSegRemain < cbNeeded then cbLRFRAGMENTBEGIN
      else 0 := by
  unfold beginBytes
  split_ifs
  · simp [lrFragmentBegin, cbLRFRAGMENTBEGIN]
  · rfl

/-- The frame ends where the bytes of the record begin. -/
theorem add_length_frameBytes (fFragmented : Bool) (cbNeeded ib : Nat) :
    ib + (frameBytes fFragmented cbNeeded ib).length = (framed fFragmented cbNeeded ib).2.2 := by
  have hgap := add_length_segmentGap ib
  obtain ⟨cbSegRemain, ib', hbegun⟩ : ∃ r i, segmentBegun ib = (r, i) := ⟨_, _, rfl⟩
  unfold frameBytes framed
  rw [hbegun] at hgap ⊢
  dsimp only at hgap ⊢
  rw [List.length_append, ← Nat.add_assoc, hgap]
  cases fFragmented with
  | true => simp [lrFragment, cbLRFRAGMENT]
  | false =>
    simp only [Bool.false_eq_true, if_false]
    split_ifs with hfill hmore hmore
    · simp [length_beginBytes, hmore, Nat.add_assoc]
    · simp [length_beginBytes, hmore, Nat.add_assoc]
    · simp [length_beginBytes, hmore]
    · simp [length_beginBytes, hmore]

/-- The bytes of a record end where the framed record does. -/
theorem add_length_recordBytes (n : Nat) (fFragmented : Bool) (data : List Byte) (ib : Nat) :
    ib + (recordBytes n fFragmented data ib).length = framedEnd n fFragmented data.length ib := by
  induction n generalizing fFragmented data ib with
  | zero => rfl
  | succ n ih =>
    rw [recordBytes, framedEnd]
    by_cases hzero : data.length = 0
    · simp only [if_pos hzero]
      rfl
    · simp only [if_neg hzero]
      have hframe := add_length_frameBytes fFragmented data.length ib
      obtain ⟨fFragmented', cbSegRemain, ib', hframed⟩ :
          ∃ f r i, framed fFragmented data.length ib = (f, r, i) := ⟨_, _, _, rfl⟩
      have hrest := ih fFragmented' (data.drop cbSegRemain) (ib' + min data.length cbSegRemain)
      have hdrop : (data.drop cbSegRemain).length = data.length - min data.length cbSegRemain := by
        rw [List.length_drop]
        omega
      rw [hframed] at hframe ⊢
      dsimp only at hframe ⊢
      rw [hdrop] at hrest
      rw [← hrest, List.length_append, List.length_append, List.length_map, List.length_take,
        Nat.min_comm cbSegRemain]
      omega

/-- The bytes of a batch end where the framed batch does. -/
theorem add_length_batchBytes (ib : Nat) (batch : List (List (List Byte))) :
    ib + (batchBytes ib (batch.map List.flatten)).length = framedBatchEnd ib batch := by
  induction batch generalizing ib with
  | nil => rfl
  | cons rgdata batch ih =>
    have hrecord := add_length_recordBytes (rgdata.flatten.length + 1) false rgdata.flatten ib
    have hrest := ih (framedEnd (rgdata.flatten.length + 1) false rgdata.flatten.length ib)
    have hend : framedBatchEnd ib (rgdata :: batch) =
        framedBatchEnd (framedEnd ((rgdata.map List.length).sum + 1) false
        (rgdata.map List.length).sum ib) batch := rfl
    rw [hend, ← List.length_flatten, ← hrest, List.map_cons, batchBytes, List.length_append]
    omega

/-- The segment is filled before a record of `cbNeeded` bytes at position `ib`. -/
def Fills (cbNeeded ib : Nat) : Prop :=
  (segmentBegun ib).1 < cbNeeded ∧ (segmentBegun ib).1 < LOG_MIN_FRAGMENT_SIZE

/-- Behind the NOPs that fill a segment stands the record as it does at the begin of the next
one. -/
theorem recordBytes_fill {n : Nat} {data : List Byte} {ib : Nat} (h : Fills data.length ib) :
    recordBytes (n + 1) false data ib =
        segmentGap ib ++ ((List.replicate (segmentBegun ib).1 lrtypNOP).map some ++
          recordBytes (n + 1) false data ((segmentBegun ib).2 + (segmentBegun ib).1)) ∧
      ((segmentBegun ib).2 + (segmentBegun ib).1) % 4096 = 0 ∧
      ib < (segmentBegun ib).2 + (segmentBegun ib).1 := by
  have hend : ((segmentBegun ib).2 + (segmentBegun ib).1) % 4096 = 0 ∧
      ib < (segmentBegun ib).2 + (segmentBegun ib).1 := by
    unfold segmentBegun LOG_SEGMENT_SIZE cbLGSEGHDR
    dsimp only
    split_ifs <;> dsimp only <;> omega
  refine ⟨?_, hend⟩
  have hfill := h
  obtain ⟨hneeded, hmin⟩ := h
  unfold Fills at hfill
  have hfull : ¬ (4056 < data.length ∧ 4056 < LOG_MIN_FRAGMENT_SIZE) :=
    fun h => absurd h.2 (by decide)
  have hzero : data.length ≠ 0 := by omega
  have hnext : segmentBegun ((segmentBegun ib).2 + (segmentBegun ib).1) =
      (4056, (segmentBegun ib).2 + (segmentBegun ib).1 + 40) := by
    rw [segmentBegun, LOG_SEGMENT_SIZE, hend.1]
    rfl
  have hgap : segmentGap ((segmentBegun ib).2 + (segmentBegun ib).1) = List.replicate 40 none := by
    rw [segmentGap, LOG_SEGMENT_SIZE, hend.1]
    rfl
  have hframed : framed false data.length ib = framed false data.length
    ((segmentBegun ib).2 + (segmentBegun ib).1) := by
    unfold framed
    rw [hnext]
    simp only [Bool.false_eq_true, if_false, if_pos hfill, if_neg hfull]
    rfl
  have hframe : frameBytes false data.length ib = segmentGap ib ++
      ((List.replicate (segmentBegun ib).1 lrtypNOP).map some ++
        frameBytes false data.length ((segmentBegun ib).2 + (segmentBegun ib).1)) := by
    unfold frameBytes
    rw [hnext, hgap]
    simp only [Bool.false_eq_true, if_false, if_pos hfill, if_neg hfull]
    rfl
  obtain ⟨fFragmented', cbSegRemain, ib', heq⟩ : ∃ f r i, framed false data.length ib = (f, r, i) :=
    ⟨_, _, _, rfl⟩
  rw [recordBytes, recordBytes, if_neg hzero, if_neg hzero, ← hframed, hframe, heq]
  simp only [List.append_assoc]

/-! ## The same bytes in another segment -/

/-- Only the place in the segment matters. -/
theorem segmentBegun_add (ib m : Nat) :
    segmentBegun (ib + 4096 * m) = ((segmentBegun ib).1, (segmentBegun ib).2 + 4096 * m) := by
  unfold segmentBegun LOG_SEGMENT_SIZE
  rw [Nat.add_mul_mod_self_left]
  dsimp only
  split_ifs
  · exact Prod.ext rfl (Nat.add_right_comm _ _ _)
  · rfl

/-- Only the place in the segment matters. -/
theorem framed_add (fFragmented : Bool) (cbNeeded ib m : Nat) :
    framed fFragmented cbNeeded (ib + 4096 * m) =
      ((framed fFragmented cbNeeded ib).1, (framed fFragmented cbNeeded ib).2.1,
        (framed fFragmented cbNeeded ib).2.2 + 4096 * m) := by
  unfold framed
  rw [segmentBegun_add]
  dsimp only
  split_ifs <;> refine Prod.ext rfl (Prod.ext rfl ?_) <;> dsimp only <;> omega

/-- Only the place in the segment matters. -/
theorem frameBytes_add (fFragmented : Bool) (cbNeeded ib m : Nat) :
    frameBytes fFragmented cbNeeded (ib + 4096 * m) = frameBytes fFragmented cbNeeded ib := by
  unfold frameBytes segmentGap
  rw [segmentBegun_add, LOG_SEGMENT_SIZE, Nat.add_mul_mod_self_left]

/-- Only the place in the segment matters. -/
theorem recordBytes_add (n : Nat) (fFragmented : Bool) (data : List Byte) (ib m : Nat) :
    recordBytes n fFragmented data (ib + 4096 * m) = recordBytes n fFragmented data ib := by
  induction n generalizing fFragmented data ib with
  | zero => rfl
  | succ n ih =>
    rw [recordBytes, recordBytes, framed_add, frameBytes_add]
    dsimp only
    rw [Nat.add_right_comm, ih]

/-- Where the segments of a batch are in the log does not matter. -/
theorem batchBytes_add (ib m : Nat) (rgdata : List (List Byte)) :
    batchBytes (ib + 4096 * m) rgdata = batchBytes ib rgdata := by
  induction rgdata generalizing ib with
  | nil => rfl
  | cons data rgdata ih =>
    have hend := add_length_recordBytes (data.length + 1) false data ib
    have hend' := add_length_recordBytes (data.length + 1) false data (ib + 4096 * m)
    rw [recordBytes_add, Nat.add_right_comm, hend] at hend'
    rw [batchBytes, batchBytes, recordBytes_add, ← hend', ih]

/-- A batch has the same bytes at the same place in a segment. -/
theorem batchBytes_congr {ib ib' : Nat} (h : ib % 4096 = ib' % 4096) (rgdata : List (List Byte)) :
    batchBytes ib rgdata = batchBytes ib' rgdata := by
  have hleft := batchBytes_add (ib % 4096) (ib / 4096) rgdata
  have hright := batchBytes_add (ib' % 4096) (ib' / 4096) rgdata
  rw [Nat.mod_add_div] at hleft hright
  rw [hleft, hright, h]

/-! ## The headers of the segments -/

/-- A list at position `ib` has its gaps where the headers of segments are. -/
def BehindHeaders (ib : Nat) (l : List (Option Byte)) : Prop :=
  ∀ i o, l[i]? = some o → (o.isSome = true ↔ cbLGSEGHDR ≤ (ib + i) % LOG_SEGMENT_SIZE)

/-- No bytes are in no header. -/
theorem behindHeaders_nil (ib : Nat) : BehindHeaders ib [] := by
  intro i o h
  rw [List.getElem?_nil] at h
  cases h

/-- Bytes behind headers in a row are behind headers. -/
theorem BehindHeaders.append {ib : Nat} {l l' : List (Option Byte)} (h : BehindHeaders ib l)
    (h' : BehindHeaders (ib + l.length) l') : BehindHeaders ib (l ++ l') := by
  intro i o hi
  rcases Nat.lt_or_ge i l.length with hlt | hge
  · rw [List.getElem?_append_left hlt] at hi
    exact h i o hi
  · rw [List.getElem?_append_right hge] at hi
    have hbyte := h' _ o hi
    rwa [Nat.add_assoc, Nat.add_sub_of_le hge] at hbyte

/-- The gap is the header. -/
theorem behindHeaders_gap {ib : Nat} (hstart : ib % 4096 = 0) :
    BehindHeaders ib (List.replicate cbLGSEGHDR none) := by
  intro i o h
  obtain ⟨hlt, rfl⟩ := List.getElem?_eq_some_iff.1 h
  rw [List.length_replicate] at hlt
  rw [List.getElem_replicate]
  unfold cbLGSEGHDR at hlt ⊢
  unfold LOG_SEGMENT_SIZE
  exact iff_of_false Bool.false_ne_true (by omega)

/-- Bytes within the room of a segment are behind its header. -/
theorem behindHeaders_map {ib : Nat} {data : List Byte}
    (hheader : cbLGSEGHDR ≤ ib % LOG_SEGMENT_SIZE)
    (hroom : ib % LOG_SEGMENT_SIZE + data.length ≤ LOG_SEGMENT_SIZE) :
      BehindHeaders ib (data.map some) := by
  intro i o h
  obtain ⟨hlt, rfl⟩ := List.getElem?_eq_some_iff.1 h
  rw [List.length_map] at hlt
  rw [List.getElem_map]
  unfold LOG_SEGMENT_SIZE at hheader hroom ⊢
  exact iff_of_true rfl (by omega)

/-- The begin of a segment, or what is left of it. -/
theorem segmentBegun_bounds (ib : Nat) (hstart : ib % 4096 = 0 ∨ 40 ≤ ib % 4096) :
    40 ≤ (segmentBegun ib).2 % 4096 ∧ (segmentBegun ib).2 % 4096 + (segmentBegun ib).1 = 4096 ∧
      0 < (segmentBegun ib).1 ∧ (ib % 4096 = 0 → (segmentBegun ib).1 = 4056) := by
  unfold segmentBegun LOG_SEGMENT_SIZE cbLGSEGHDR
  dsimp only
  split_ifs <;> dsimp only <;> omega

/-- The bytes of a first fragment are behind the header. -/
theorem behindHeaders_beginBytes {ib cbSegRemain : Nat} (cbNeeded : Nat) (hheader : 40 ≤ ib % 4096)
    (hroom : ib % 4096 + cbSegRemain ≤ 4096) (hmin : cbSegRemain < cbNeeded → 7 ≤ cbSegRemain) :
    BehindHeaders ib (beginBytes cbNeeded cbSegRemain) := by
  unfold beginBytes
  split_ifs with hmore
  · refine behindHeaders_map hheader ?_
    have hseven := hmin hmore
    simp only [lrFragmentBegin, List.length_cons, List.length_append, length_leBytes]
    unfold LOG_SEGMENT_SIZE
    omega
  · exact behindHeaders_nil ib

/-- The bytes of a frame are behind the header. -/
theorem behindHeaders_frameBytes {fFragmented : Bool} {cbNeeded ib : Nat} (hstart : ib % 4096 = 0 ∨
    40 ≤ ib % 4096)
    (hfragment : fFragmented = true → ib % 4096 = 0) :
      BehindHeaders ib (frameBytes fFragmented cbNeeded ib) := by
  obtain ⟨hheader, hroom, -, hfull⟩ := segmentBegun_bounds ib hstart
  have hgap : BehindHeaders ib (segmentGap ib) := by
    unfold segmentGap LOG_SEGMENT_SIZE
    split_ifs
    · exact behindHeaders_gap (by omega)
    · exact behindHeaders_nil ib
  unfold frameBytes
  dsimp only
  refine hgap.append ?_
  rw [add_length_segmentGap]
  split_ifs with hfragmented hfill
  · refine behindHeaders_map hheader ?_
    have hzero := hfull (hfragment hfragmented)
    simp only [lrFragment, List.length_cons, length_leBytes]
    unfold LOG_SEGMENT_SIZE
    omega
  · refine (behindHeaders_map hheader ?_).append ((behindHeaders_gap ?_).append ?_)
    · rw [List.length_replicate]
      exact hroom.le
    · rw [List.length_map, List.length_replicate]
      omega
    · rw [List.length_map, List.length_replicate, List.length_replicate]
      have hnext : ((segmentBegun ib).2 + (segmentBegun ib).1 + cbLGSEGHDR) % 4096 = 40 := by
        unfold cbLGSEGHDR
        omega
      refine behindHeaders_beginBytes _ hnext.ge ?_ fun _ => by decide
      rw [hnext]
      decide
  · refine behindHeaders_beginBytes _ hheader hroom.le fun hmore => ?_
    have hge : ¬ (segmentBegun ib).1 < LOG_MIN_FRAGMENT_SIZE := fun hlt => hfill ⟨hmore, hlt⟩
    unfold LOG_MIN_FRAGMENT_SIZE at hge
    omega

/-- A record has its gaps where the headers are, and ends behind a header or where one begins. -/
theorem behindHeaders_recordBytes {n : Nat} {fFragmented : Bool} {data : List Byte} {ib : Nat}
    (hstart : ib % 4096 = 0 ∨ 40 ≤ ib % 4096) (hfragment : data.length ≠ 0 → fFragmented = true →
      ib % 4096 = 0) :
    BehindHeaders ib (recordBytes n fFragmented data ib) ∧
      ((ib + (recordBytes n fFragmented data ib).length) % 4096 = 0 ∨
        40 ≤ (ib + (recordBytes n fFragmented data ib).length) % 4096) := by
  induction n generalizing fFragmented data ib with
  | zero => exact ⟨behindHeaders_nil ib, hstart⟩
  | succ n ih =>
    rw [recordBytes]
    by_cases hzero : data.length = 0
    · rw [if_pos hzero]
      exact ⟨behindHeaders_nil ib, hstart⟩
    have hframe := @behindHeaders_frameBytes fFragmented data.length ib hstart (hfragment hzero)
    have hend := add_length_frameBytes fFragmented data.length ib
    obtain ⟨fFragmented', cbSegRemain, ib', hframed⟩ :
        ∃ f r i, framed fFragmented data.length ib = (f, r, i) := ⟨_, _, _, rfl⟩
    obtain ⟨-, hpos, hsegment, -⟩ :=
      framed_spec (hfragment hzero) (Nat.pos_of_ne_zero hzero) hframed
    have hroom : 40 ≤ ib' % 4096 ∧ ib' % 4096 + cbSegRemain ≤ 4096 := by
      obtain ⟨hheader, hroom, -, -⟩ := segmentBegun_bounds ib hstart
      unfold framed LOG_SEGMENT_SIZE cbLGSEGHDR cbLRFRAGMENT cbLRFRAGMENTBEGIN LOG_MIN_FRAGMENT_SIZE
        at hframed
      dsimp only at hframed
      split_ifs at hframed <;>
      · simp only [Prod.mk.injEq] at hframed
        obtain ⟨-, hcb, hib⟩ := hframed
        omega
    rw [if_neg hzero, hframed]
    rw [hframed] at hend
    dsimp only at hend ⊢
    have htake : ((data.take cbSegRemain).map some).length = min data.length cbSegRemain := by
      rw [List.length_map, List.length_take, Nat.min_comm]
    have hdrop : (data.drop cbSegRemain).length = data.length - cbSegRemain := List.length_drop
    obtain ⟨hrest, hlast⟩ :=
      @ih fFragmented' (data.drop cbSegRemain) (ib' + min data.length cbSegRemain) (by omega)
      fun hmore _ => by
        rw [Nat.min_eq_right (by omega)]
        exact hsegment
    refine ⟨hframe.append ?_, ?_⟩
    · rw [hend]
      refine (behindHeaders_map hroom.1 ?_).append ?_
      · rw [List.length_take]
        unfold LOG_SEGMENT_SIZE
        omega
      · rwa [htake]
    · rw [List.length_append, List.length_append, htake, ← Nat.add_assoc, ← Nat.add_assoc, hend]
      exact hlast

/-- A batch has its gaps where the headers are, and ends behind a header or where one begins. -/
theorem behindHeaders_batchBytes {ib : Nat} (hstart : ib % 4096 = 0 ∨ 40 ≤ ib % 4096)
    (rgdata : List (List Byte)) :
    BehindHeaders ib (batchBytes ib rgdata) ∧
      ((ib + (batchBytes ib rgdata).length) % 4096 = 0 ∨
        40 ≤ (ib + (batchBytes ib rgdata).length) % 4096) := by
  induction rgdata generalizing ib with
  | nil => exact ⟨behindHeaders_nil ib, hstart⟩
  | cons data rgdata ih =>
    obtain ⟨hfirst, hlast⟩ := @behindHeaders_recordBytes (data.length + 1) false data ib hstart
      fun _ hno => absurd hno Bool.false_ne_true
    obtain ⟨hrest, hend⟩ := ih hlast
    rw [batchBytes, ← add_length_recordBytes, List.length_append, ← Nat.add_assoc]
    exact ⟨hfirst.append hrest, hend⟩

/-- The bytes of two batches in a row. -/
theorem batchBytes_append (ib : Nat) (rgdata rgdata' : List (List Byte)) :
    batchBytes ib (rgdata ++ rgdata') =
      batchBytes ib rgdata ++ batchBytes (ib + (batchBytes ib rgdata).length) rgdata' := by
  induction rgdata generalizing ib with
  | nil => rfl
  | cons data rgdata ih =>
    rw [List.cons_append, batchBytes, batchBytes, ih, ← add_length_recordBytes, List.length_append,
      List.append_assoc,
      Nat.add_assoc]

/-! ## The records of a batch -/

/-- The data of a record: the first is not empty, and the size is computed from it. -/
def IsRecord (cbLGSizeOfRec : List Byte → Nat) (rgdata : List (List Byte)) : Prop :=
  ∃ data rest, rgdata = data :: rest ∧ data ≠ [] ∧ cbLGSizeOfRec data = rgdata.flatten.length

section
variable {cbLGSizeOfRec : List Byte → Nat}

/-- The record is taken with all its pieces. -/
theorem takeRecord_eq {cbRecordLeft : Int} {data : List Byte} {rest more : List (List Byte)}
    (hmore : more.head?.any List.isEmpty = false)
    (hleft : (if cbRecordLeft = 0 ∧ data.length ≠ 0 then (cbLGSizeOfRec data : Int)
      else cbRecordLeft) =
      (((data :: rest).map List.length).sum : Nat)) :
    takeRecord cbLGSizeOfRec cbRecordLeft (data :: (rest ++ more)) = (data :: rest, more) := by
  induction rest generalizing cbRecordLeft data with
  | nil =>
    simp only [List.map_cons, List.map_nil, List.sum_cons, List.sum_nil] at hleft
    unfold takeRecord
    dsimp only
    rw [hleft, List.nil_append, hmore, if_neg]
    rintro ⟨-, hpos | hno⟩
    · omega
    · cases hno
  | cons next rest ih =>
    have hnext : ((next :: rest).map List.length).sum > 0 ∨ next = [] := by
      cases next with
      | nil => exact .inr rfl
      | cons b next =>
        refine .inl ?_
        rw [List.map_cons, List.sum_cons, List.length_cons]
        omega
    rw [List.map_cons, List.sum_cons] at hleft
    have hsub : (((data.length + ((next :: rest).map List.length).sum : Nat) : Int) - data.length) =
        (((next :: rest).map List.length).sum : Nat) := by
      rw [Nat.cast_add]
      exact add_sub_cancel_left _ _
    rw [List.cons_append, takeRecord]
    dsimp only
    rw [hleft, hsub, if_pos]
    · rw [ih]
      rw [if_neg]
      rintro ⟨hzero, hdata⟩
      rw [List.map_cons, List.sum_cons] at hzero
      omega
    · refine ⟨List.cons_ne_nil _ _, ?_⟩
      rcases hnext with hpos | rfl
      · exact .inl (by exact_mod_cast hpos)
      · exact .inr rfl

/-- The records of a batch are found in its data. -/
theorem records_flatten {batch : List (List (List Byte))}
    (h : ∀ rgdata ∈ batch, IsRecord cbLGSizeOfRec rgdata) {n : Nat}
    (hn : batch.flatten.length ≤ n) : records cbLGSizeOfRec n batch.flatten = batch := by
  induction batch generalizing n with
  | nil => cases n <;> rfl
  | cons rgdata batch ih =>
    obtain ⟨data, rest, rfl, hdata, hsize⟩ := h rgdata List.mem_cons_self
    have htail : ∀ rgdata ∈ batch, IsRecord cbLGSizeOfRec rgdata :=
      fun rgdata hmem => h rgdata (List.mem_cons_of_mem _ hmem)
    rw [List.flatten_cons, List.length_append, List.length_cons] at hn
    obtain ⟨n, rfl⟩ : ∃ m, n = m + 1 := ⟨n - 1, by omega⟩
    have hhead : batch.flatten.head?.any List.isEmpty = false := by
      cases batch with
      | nil => rfl
      | cons rgdata' batch =>
        obtain ⟨data', rest', rfl, hdata', -⟩ := htail rgdata' List.mem_cons_self
        rw [List.flatten_cons, List.cons_append, List.head?_cons, Option.any_some]
        exact List.isEmpty_eq_false_iff.2 hdata'
    have hpos := List.length_pos_of_ne_nil hdata
    have htake := @takeRecord_eq cbLGSizeOfRec 0 data rest batch.flatten hhead (by
      rw [if_pos ⟨rfl, by omega⟩, hsize, List.length_flatten])
    rw [List.flatten_cons, List.cons_append, records, htake]
    dsimp only
    rw [ih htail (by omega)]

end

/-! ## What a copy writes -/

namespace LOG_WRITE_BUFFER

/-- The buffer as the bytes of the log, from a position in the buffer on. -/
def view (s : LOG_WRITE_BUFFER) (rgb : Mem) : Mem := fun ib =>
  rgb (if ib < s.pLogBuffer.cbLGBuf then ib else ib - s.pLogBuffer.cbLGBuf)

/-- Nothing is written but the bytes of a list from `ib` on, and these are. -/
structure Wrote (s : LOG_WRITE_BUFFER) (ib : Nat) (l : List (Option Byte)) (rgb rgb' : Mem) :
    Prop where
  holds : (s.view rgb').HoldsSome ib l
  kept : s.Kept false ib (ib + l.length) rgb rgb'

section
variable {s : LOG_WRITE_BUFFER} {logtime : Nat → BitVec 64} {k ib ib' ibLimit n : Nat}
    {rgb rgb' rgb'' : Mem} {pos : ADDPOS}
  {l l' : List (Option Byte)}

/-- The bytes before the ones that are written stay, as far back as the buffer goes. -/
theorem view_kept (h : s.Kept false ib ib' rgb rgb') {i : Nat} (hlt : i < ib)
    (hspan : ib' ≤ i + s.pLogBuffer.cbLGBuf) : s.view rgb' i = s.view rgb i := by
  unfold view
  refine h _ (.inr ?_)
  unfold Between
  split_ifs <;> omega

/-- Nothing is written. -/
theorem Wrote.nil (s : LOG_WRITE_BUFFER) (ib : Nat) (rgb : Mem) : s.Wrote ib [] rgb rgb :=
  ⟨Mem.holdsSome_nil _ _, .refl s _ _ rgb⟩

/-- Bytes in a row are written one after the other. -/
theorem Wrote.append (h : s.Wrote ib l rgb rgb') (h' : s.Wrote (ib + l.length) l' rgb' rgb'')
    (hspan : l.length + l'.length ≤ s.pLogBuffer.cbLGBuf) :
    s.Wrote ib (l ++ l') rgb rgb'' := by
  refine ⟨Mem.holdsSome_append.2 ⟨h.holds.move fun i b hi => ?_, h'.holds⟩, ?_⟩
  · obtain ⟨hlt, -⟩ := List.getElem?_eq_some_iff.1 hi
    exact view_kept h'.kept (by omega) (by omega)
  · rw [List.length_append, ← Nat.add_assoc]
    exact h.kept.trans h'.kept (Nat.le_add_right _ _) (Nat.le_add_right _ _)

/-- A gap leaves what is there. -/
theorem Wrote.gap (h : s.Kept false ib (ib + n) rgb rgb') :
    s.Wrote ib (List.replicate n none) rgb rgb' :=
  ⟨Mem.holdsSome_gap _ _ _, by rwa [List.length_replicate]⟩

/-- A copy writes its data. -/
theorem wrote_copy (hshift : k = 0 ∨ k = s.pLogBuffer.cbLGBuf) {pb : Nat} {data : List Byte}
    (hpb : pb + k = ib)
    (hlt : pb + data.length ≤ s.pLogBuffer.cbLGBuf) :
      s.Wrote ib (data.map some) rgb (copy false rgb pb data) := by
  refine ⟨fun i b hi => ?_, ?_⟩
  · obtain ⟨hget, hsome⟩ := List.getElem?_eq_some_iff.1 hi
    rw [List.getElem_map, Option.some.injEq] at hsome
    rw [List.length_map] at hget
    have hin : (if ib + i < s.pLogBuffer.cbLGBuf then ib + i else ib + i - s.pLogBuffer.cbLGBuf) =
      pb + i := by
      split_ifs <;> omega
    unfold view
    rw [hin, ← hsome]
    exact Mem.write_apply_add rgb pb hget
  · rw [List.length_map]
    exact kept_copy hshift hpb.ge (by omega) hlt

/-- Filling a segment writes the NOPs, and behind them the time in the header of the next
segment. -/
theorem rgb_fillSegment {cbSegRemain cbSegRemain' : Nat} {pos' : ADDPOS}
    (h : s.fillSegment false logtime cbSegRemain pos = some (cbSegRemain', pos')) :
    40 ≤ pos'.pbET ∧ ∃ data : List Byte, data.length = 8 ∧
      pos'.rgb = copy false (copy false pos.rgb pos.pbET (List.replicate cbSegRemain lrtypNOP))
        (pos'.pbET - 24) data := by
  unfold fillSegment at h
  dsimp only at h
  split_ifs at h
  obtain ⟨-, rfl⟩ := Prod.mk.inj (Option.some.inj h)
  unfold segmentHeader cbLGSEGHDR
  dsimp only
  have hpb : ∀ pb, pb + 40 - 24 = pb + 16 := fun pb => by omega
  rw [rgb_wrap, hpb]
  exact ⟨Nat.le_add_left _ _, leBytes 8 (logtime _).toNat, length_leBytes _ _, rfl⟩

/-- The rest of a segment is filled and the next header left. -/
theorem fillSegment_wrote (hroom : s.Room ibLimit) (h : s.Shifted k ib ibLimit pos)
    {cbSegRemain cbSegRemain' : Nat}
    (hend : (ib + cbSegRemain) % 4096 = 0) (hle : pos.pbET + cbSegRemain ≤ s.pLogBuffer.cbLGBuf)
    (hspan : ibLimit ≤ ib + s.pLogBuffer.cbLGBuf) {pos' : ADDPOS}
    (hsome : s.fillSegment false logtime cbSegRemain pos = some (cbSegRemain', pos')) :
    s.Wrote ib ((List.replicate cbSegRemain lrtypNOP).map some ++ List.replicate 40 none) pos.rgb
      pos'.rgb := by
  obtain ⟨hheader, data, hdata, hrgb⟩ := rgb_fillSegment hsome
  rcases @fillSegment_spec s false logtime k ib ibLimit pos hroom h cbSegRemain hend hle with
    ⟨hnone, -⟩ | ⟨k', pos'', hsome', hshifted, hlimit, hin, -⟩
  · rw [hnone] at hsome
    cases hsome
  obtain ⟨rfl, rfl⟩ := Prod.mk.inj (Option.some.inj (hsome.symm.trans hsome'))
  have hET := hshifted.pbET
  have hET' := h.pbET
  have hwrite := hroom.write_lt
  have hlimit' := hroom.limit
  rw [hrgb]
  refine Wrote.append (wrote_copy h.shift hET' (by rwa [List.length_replicate])) (.gap ?_) ?_
  · rw [List.length_map, List.length_replicate]
    exact kept_copy hshifted.shift (by omega) (by omega) (by omega)
  · simp only [List.length_map, List.length_replicate]
    omega

/-- The bytes that a first fragment has for itself are written. -/
theorem beginRecord_wrote (h : s.Shifted k ib ibLimit pos) {cbNeeded cbSegRemain : Nat}
    (hmin : cbSegRemain < cbNeeded → 7 ≤ cbSegRemain)
      (hle : pos.pbET + cbSegRemain ≤ s.pLogBuffer.cbLGBuf) :
    s.Wrote ib (beginBytes cbNeeded cbSegRemain) pos.rgb
      (beginRecord false cbNeeded cbSegRemain pos).2.2.rgb := by
  unfold beginRecord beginBytes
  by_cases hfragment : cbSegRemain < cbNeeded
  · rw [if_pos hfragment, if_pos hfragment]
    have hseven := hmin hfragment
    refine wrote_copy h.shift h.pbET ?_
    have hlength : ∀ n, (lrFragmentBegin cbNeeded n).length = 7 := fun n => by
      simp [lrFragmentBegin]
    rw [hlength]
    omega
  · rw [if_neg hfragment, if_neg hfragment]
    exact .nil s ib pos.rgb

/-- The frame of a record is written. -/
theorem frameRecord_wrote (hroom : s.Room ibLimit) (h : s.At ib ibLimit pos)
    {fFragmented fFragmented' : Bool}
    {cbNeeded cbSegRemain : Nat} {pos' : ADDPOS} (hstart : fFragmented = true → ib % 4096 = 0)
    (hlt : ib < ibLimit)
    (hspan : ibLimit ≤ ib + s.pLogBuffer.cbLGBuf)
    (hsome : s.frameRecord false logtime fFragmented cbNeeded pos =
      some (fFragmented', cbSegRemain, pos')) :
    s.Wrote ib (frameBytes fFragmented cbNeeded ib) pos.rgb pos'.rgb := by
  have hgap := add_length_segmentGap ib
  obtain ⟨k, cbSegRemain₁, ib₁, pos₁, hbegin, hbegun, hshifted, hle, hend, hlimit₁, hin, hkept⟩ :=
    @beginSegment_spec s false logtime ib ibLimit pos hroom h hlt
  have hET := hshifted.pbET
  rw [hbegun] at hgap
  dsimp only at hgap
  have hheader : s.Wrote ib (segmentGap ib) pos.rgb pos₁.rgb := by
    refine ⟨?_, by rwa [hgap]⟩
    unfold segmentGap
    split_ifs
    · exact Mem.holdsSome_gap _ _ _
    · exact Mem.holdsSome_nil _ _
  unfold frameRecord at hsome
  unfold frameBytes
  rw [hbegin] at hsome
  rw [hbegun]
  dsimp only at hsome ⊢
  cases fFragmented with
  | true =>
    simp only [Bool.not_true, Bool.false_eq_true, if_false, Option.some.injEq, Prod.mk.injEq]
      at hsome
    obtain ⟨-, -, rfl⟩ := hsome
    have hlength : ∀ n, (lrFragment n).length = 3 := fun n => by simp [lrFragment]
    have hfull : cbSegRemain₁ = 4056 := by
      unfold segmentBegun LOG_SEGMENT_SIZE at hbegun
      rw [hstart rfl] at hbegun
      exact (Prod.mk.inj hbegun).1.symm
    rw [if_pos rfl]
    refine hheader.append (wrote_copy hshifted.shift (hgap ▸ hET) ?_) ?_
    · rw [hlength]
      omega
    · rw [List.length_map, hlength]
      omega
  | false =>
    simp only [Bool.not_false, if_true] at hsome
    simp only [Bool.false_eq_true, if_false]
    by_cases hfill : cbSegRemain₁ < cbNeeded ∧ cbSegRemain₁ < LOG_MIN_FRAGMENT_SIZE
    · rw [if_pos hfill] at hsome ⊢
      cases hnext : s.fillSegment false logtime cbSegRemain₁ pos₁ with
      | none =>
        rw [hnext] at hsome
        cases hsome
      | some filled =>
        obtain ⟨cbSegRemain₂, pos₂⟩ := filled
        rcases @fillSegment_spec s false logtime k ib₁ ibLimit pos₁ hroom hshifted cbSegRemain₁ hend
          hin with
          ⟨hnone, -⟩ | ⟨k₂, pos₂', hsome₂, hshifted₂, hlimit₂, hin₂, -⟩
        · rw [hnone] at hnext
          cases hnext
        obtain ⟨rfl, rfl⟩ := Prod.mk.inj (Option.some.inj (hnext.symm.trans hsome₂))
        have hwrote₂ := fillSegment_wrote hroom hshifted hend hin (by omega) hnext
        rw [hnext] at hsome
        have hpos' : pos' = (beginRecord false cbNeeded 4056 pos₂).2.2 := by
          have heq : beginRecord false cbNeeded 4056 pos₂ = _ := Option.some.inj hsome
          rw [heq]
        have hbegin₂ :=
          @beginRecord_wrote s k₂ (ib₁ + cbSegRemain₁ + 40) ibLimit pos₂ hshifted₂ cbNeeded 4056
          (fun _ => by decide) hin₂
        have hlength := length_beginBytes cbNeeded 4056
        have hbound : (beginBytes cbNeeded 4056).length ≤ 7 := by
          rw [hlength]
          split_ifs
          · exact le_rfl
          · exact Nat.zero_le _
        rw [hpos', ← List.append_assoc ((List.replicate cbSegRemain₁ lrtypNOP).map some)]
        refine hheader.append (hgap ▸ hwrote₂.append ?_ ?_) ?_
        · simp only [List.length_append, List.length_map, List.length_replicate]
          rw [← Nat.add_assoc]
          exact hbegin₂
        · simp only [List.length_append, List.length_map, List.length_replicate]
          exact (show _ + (beginBytes cbNeeded 4056).length ≤ _ by omega)
        · simp only [List.length_append, List.length_map, List.length_replicate]
          exact (show _ + (_ + (beginBytes cbNeeded 4056).length) ≤ _ by unfold cbLGSEGHDR; omega)
    · rw [if_neg hfill] at hsome ⊢
      have hmin : cbSegRemain₁ < cbNeeded → 7 ≤ cbSegRemain₁ := fun hlt => by
        have hge : ¬ cbSegRemain₁ < LOG_MIN_FRAGMENT_SIZE := fun hlt' => hfill ⟨hlt, hlt'⟩
        unfold LOG_MIN_FRAGMENT_SIZE at hge
        omega
      have hpos' : pos' = (beginRecord false cbNeeded cbSegRemain₁ pos₁).2.2 := by
        have heq : beginRecord false cbNeeded cbSegRemain₁ pos₁ = _ := Option.some.inj hsome
        rw [heq]
      have hbegin₁ :=
        @beginRecord_wrote s k ib₁ ibLimit pos₁ hshifted cbNeeded cbSegRemain₁ hmin hin
      have hlength := length_beginBytes cbNeeded cbSegRemain₁
      rw [hpos']
      refine hheader.append (hgap ▸ hbegin₁) ?_
      unfold cbLRFRAGMENTBEGIN at hlength
      split_ifs at hlength with hmore
      · have hseven := hmin hmore
        omega
      · omega

/-- The bytes of the record that the segment has room for are written, and the others are left. -/
theorem copyData_wrote (rgdata : List (List Byte)) {cbNeeded cbSegRemain : Nat}
    (h : s.Shifted k ib ibLimit pos)
    (hneeded : (rgdata.map List.length).sum = cbNeeded)
      (hle : pos.pbET + cbSegRemain ≤ s.pLogBuffer.cbLGBuf) :
    (copyData false rgdata cbNeeded cbSegRemain pos).1.flatten = rgdata.flatten.drop cbSegRemain ∧
      s.Wrote ib ((rgdata.flatten.take cbSegRemain).map some) pos.rgb
        (copyData false rgdata cbNeeded cbSegRemain pos).2.2.rgb := by
  induction rgdata generalizing cbNeeded cbSegRemain pos ib with
  | nil =>
    rw [copyData, List.flatten_nil, List.drop_nil, List.take_nil]
    exact ⟨rfl, .nil s ib pos.rgb⟩
  | cons data rgdata ih =>
    rw [List.map_cons, List.sum_cons] at hneeded
    have hET := h.pbET
    unfold copyData
    by_cases hmore : cbNeeded ≠ 0 ∧ cbSegRemain ≠ 0
    · rw [if_pos hmore]
      dsimp only
      have htake : (data.take (min data.length cbSegRemain)).length =
        min data.length cbSegRemain := by
        rw [List.length_take]
        omega
      have hcopied : s.Wrote ib ((data.take (min data.length cbSegRemain)).map some) pos.rgb
          (copy false pos.rgb pos.pbET (data.take (min data.length cbSegRemain))) :=
        wrote_copy h.shift hET (by omega)
      have hnext : s.Shifted k (ib + min data.length cbSegRemain) ibLimit
          ⟨pos.pbET + min data.length cbSegRemain, pos.pbWrapWrite,
            copy false pos.rgb pos.pbET (data.take (min data.length cbSegRemain))⟩ :=
        ⟨h.shift, by dsimp only; omega, h.pbWrapWrite⟩
      by_cases hwhole : data.length = min data.length cbSegRemain
      · rw [if_pos hwhole]
        rw [← hwhole, List.take_length] at hcopied hnext ⊢
        obtain ⟨hrest, hwrote⟩ := @ih _ _ (cbNeeded - data.length) (cbSegRemain - data.length) hnext
          (by omega) (by dsimp only; omega)
        have hfits : data.length ≤ cbSegRemain := by omega
        rw [hrest, List.flatten_cons, List.drop_append, List.take_append,
          List.drop_of_length_le hfits,
          List.take_of_length_le hfits, List.map_append, List.nil_append]
        refine ⟨rfl, hcopied.append (by rwa [List.length_map]) ?_⟩
        rw [List.length_map, List.length_map, List.length_take]
        omega
      · rw [if_neg hwhole]
        have hmin : min data.length cbSegRemain = cbSegRemain := by omega
        rw [hmin] at hcopied ⊢
        rw [List.flatten_cons, List.flatten_cons, List.drop_append, List.take_append,
          show cbSegRemain - data.length = 0 by
            omega, List.take_zero, List.drop_zero, List.append_nil]
        exact ⟨rfl, hcopied⟩
    · rw [if_neg hmore]
      have hnone : (data :: rgdata).flatten.take cbSegRemain = [] := by
        rcases Nat.eq_zero_or_pos cbSegRemain with hzero | hpos
        · rw [hzero, List.take_zero]
        · have hempty : (data :: rgdata).flatten = [] := by
            refine List.eq_nil_of_length_eq_zero ?_
            rw [List.length_flatten, List.map_cons, List.sum_cons]
            omega
          rw [hempty, List.take_nil]
      have hall := List.take_append_drop cbSegRemain (data :: rgdata).flatten
      rw [hnone, List.nil_append] at hall
      rw [hall, hnone]
      exact ⟨rfl, .nil s ib pos.rgb⟩

/-- A record is written with its frames. -/
theorem addRecordLoop_wrote (hroom : s.Room ibLimit) {fFragmented : Bool} {cbNeeded : Nat}
    {rgdata : List (List Byte)}
    (h : s.At ib ibLimit pos) (hstart : cbNeeded ≠ 0 → fFragmented = true → ib % 4096 = 0)
    (hn : cbNeeded < n)
    (hneeded : rgdata.flatten.length = cbNeeded) (hspan : ibLimit ≤ ib + s.pLogBuffer.cbLGBuf)
      {pos' : ADDPOS}
    (hsome : s.addRecordLoop false logtime n fFragmented cbNeeded rgdata pos = some pos') :
    s.Wrote ib (recordBytes n fFragmented rgdata.flatten ib) pos.rgb pos'.rgb := by
  induction n generalizing fFragmented cbNeeded rgdata ib pos with
  | zero => omega
  | succ n ih =>
    have hlimit : ib + (recordBytes (n + 1) fFragmented rgdata.flatten ib).length ≤ ibLimit := by
      rw [add_length_recordBytes, hneeded]
      rcases @addRecordLoop_spec s false logtime ib ibLimit pos hroom
          (n + 1) cbNeeded fFragmented rgdata h hstart hn
          (by rw [← List.length_flatten, hneeded]) with ⟨hnone, -⟩ | ⟨_, -, ⟨_, -, -, hle⟩, -⟩
      · rw [hnone] at hsome
        cases hsome
      · exact hle
    rw [addRecordLoop] at hsome
    rw [recordBytes, hneeded] at hlimit ⊢
    by_cases hzero : cbNeeded = 0
    · rw [if_pos hzero] at hsome ⊢
      obtain rfl := Option.some.inj hsome
      exact .nil s ib _
    rw [if_neg hzero] at hsome hlimit ⊢
    obtain ⟨k, hshifted, hin, hle⟩ := h
    have hET := hshifted.pbET
    have hwrap := hshifted.pbWrapWrite
    have hmore : ¬ pos.pbET + cbNeeded ≥ pos.pbWrapWrite := fun hfull => by
      rw [if_pos hfull] at hsome
      cases hsome
    rw [if_neg hmore] at hsome
    obtain ⟨fFragmented', cbSegRemain, ib', hframed⟩ :
        ∃ f r i, framed fFragmented cbNeeded ib = (f, r, i) := ⟨_, _, _, rfl⟩
    obtain ⟨-, hpos, hend, -⟩ := framed_spec (hstart hzero) (Nat.pos_of_ne_zero hzero) hframed
    have hframeEnd := add_length_frameBytes fFragmented cbNeeded ib
    rw [hframed] at hlimit hframeEnd ⊢
    dsimp only at hlimit hframeEnd ⊢
    rcases @frameRecord_spec s false logtime ib ib' ibLimit pos hroom
        ⟨k, hshifted, hin, hle⟩ fFragmented
        fFragmented' cbNeeded cbSegRemain (hstart hzero) (by omega) hframed with
      ⟨hnone, -⟩ | ⟨k₁, pos₁, hsome₁, hshifted₁, hlimit₁, hin₁, -⟩
    · rw [hnone] at hsome
      cases hsome
    have hframe := frameRecord_wrote hroom ⟨k, hshifted, hin, hle⟩ (hstart hzero)
      (by omega) hspan hsome₁
    have hneeded' : (rgdata.map List.length).sum = cbNeeded := by
      rw [← List.length_flatten, hneeded]
    obtain ⟨rgdata', pos₂, hcopy, hsum, hshifted₂, hin₂, -⟩ :=
      @copyData_spec s false k₁ ib' ibLimit pos₁ rgdata cbNeeded cbSegRemain hshifted₁ hneeded' hin₁
    obtain ⟨hrest, hdata⟩ := copyData_wrote rgdata hshifted₁ hneeded' hin₁
    rw [hcopy] at hrest hdata
    dsimp only at hrest hdata
    rw [hsome₁] at hsome
    simp only [Option.bind_eq_bind, Option.bind_some, hcopy] at hsome
    have hat := hshifted₂.wrap hroom (by omega) hin₂
    have htail := ih hat (fun hmore' _ => by
      rw [Nat.min_eq_right (by omega)]
      exact hend) (by omega) (by rw [List.length_flatten, hsum]) (by omega) hsome
    have htake : ((rgdata.flatten.take cbSegRemain).map some).length =
      min cbNeeded cbSegRemain := by
      rw [List.length_map, List.length_take, hneeded, Nat.min_comm]
    rw [rgb_wrap, hrest] at htail
    rw [List.length_append, List.length_append, htake] at hlimit
    refine hframe.append ?_ ?_
    · rw [hframeEnd]
      refine hdata.append ?_ ?_
      · rwa [htake]
      · rw [htake]
        omega
    · rw [List.length_append, htake]
      omega

/-- The records of a batch are written. -/
theorem addBatch_wrote (hroom : s.Room ibLimit) (batch : List (List (List Byte)))
    (h : s.At ib ibLimit pos)
    (hspan : ibLimit ≤ ib + s.pLogBuffer.cbLGBuf) {pos' : ADDPOS}
    (hsome : batch.foldlM (fun pos rgdata => s.addRecord false logtime rgdata pos) pos =
      some pos') :
    s.Wrote ib (batchBytes ib (batch.map List.flatten)) pos.rgb pos'.rgb := by
  induction batch generalizing ib pos with
  | nil =>
    obtain rfl := Option.some.inj hsome
    exact .nil s ib _
  | cons rgdata batch ih =>
    have hlimit : ib + (batchBytes ib ((rgdata :: batch).map List.flatten)).length ≤ ibLimit := by
      rw [add_length_batchBytes]
      rcases @addBatch_spec s false logtime ib ibLimit pos hroom (rgdata :: batch) h hspan with
        ⟨hnone, -⟩ | ⟨_, -, ⟨_, -, -, hle⟩, -⟩
      · rw [hnone] at hsome
        cases hsome
      · exact hle
    rw [List.foldlM_cons] at hsome
    rcases @addRecord_spec s false logtime ib ibLimit pos hroom h hspan rgdata with
      ⟨hnone, -⟩ | ⟨pos₁, hsome₁, hat, -⟩
    · rw [hnone] at hsome
      cases hsome
    have hsmall : ¬ (rgdata.map List.length).sum ≥ s.pLogBuffer.cbLGBuf := fun hlarge => by
      unfold addRecord at hsome₁
      rw [if_pos hlarge] at hsome₁
      cases hsome₁
    have hloop := hsome₁
    unfold addRecord at hloop
    rw [if_neg hsmall, ← List.length_flatten] at hloop
    have hfirst := addRecordLoop_wrote hroom h (fun _ hno => absurd hno Bool.false_ne_true)
      (Nat.lt_add_one _) rfl hspan
      hloop
    rw [hsome₁] at hsome
    simp only [Option.bind_eq_bind, Option.bind_some] at hsome
    have hend := add_length_recordBytes (rgdata.flatten.length + 1) false rgdata.flatten ib
    rw [← List.length_flatten, ← hend] at hat
    rw [List.map_cons, batchBytes] at hlimit ⊢
    rw [← hend] at hlimit ⊢
    rw [List.length_append] at hlimit
    exact hfirst.append (ih hat (by omega) hsome) (by omega)

/-- A copy of a batch puts the bytes of its records into the buffer, and nothing else. -/
theorem flgiAddLogRec_wrote {pbET : Nat} (hroom : s.Room (s.limit pbET))
    (hin : pbET < s.pLogBuffer.cbLGBuf)
    {cbLGSizeOfRec : List Byte → Nat} {rgdata : List (List Byte)} {pbEnd : Nat}
    (hsome : s.flgiAddLogRec false logtime cbLGSizeOfRec rgdata rgb pbET = some (pbEnd, rgb')) :
    s.Wrote pbET (batchBytes pbET ((records cbLGSizeOfRec rgdata.length rgdata).map List.flatten))
      rgb rgb' := by
  have hle : pbET ≤ s.limit pbET ∧ s.limit pbET ≤ pbET + s.pLogBuffer.cbLGBuf := by
    have hwrite := hroom.write_lt
    unfold limit
    split_ifs <;> omega
  have hat : s.At pbET (s.limit pbET) ⟨pbET, s.limit pbET, rgb⟩ :=
    ⟨0, ⟨.inl rfl, rfl, rfl⟩, hin, hle.1⟩
  have hrun : s.flgiAddLogRec false logtime cbLGSizeOfRec rgdata rgb pbET =
      ((records cbLGSizeOfRec rgdata.length rgdata).foldlM
        (fun pos rgdataRecord => s.addRecord false logtime rgdataRecord pos)
          ⟨pbET, s.limit pbET, rgb⟩).bind
          fun pos => if pos.pbET = pos.pbWrapWrite then none else some (pos.pbET, pos.rgb) := rfl
  rw [hrun] at hsome
  obtain ⟨pos, hbatch, hlast⟩ := Option.bind_eq_some_iff.1 hsome
  split_ifs at hlast
  obtain ⟨-, rfl⟩ := Prod.mk.inj (Option.some.inj hlast)
  exact addBatch_wrote hroom _ hat hle.2 hbatch

end

end LOG_WRITE_BUFFER

end Ese.LogBuffer
