import Ese.LogBuffer.Commit
import Ese.Lib.Endian
import Ese.Log.Segment
import Mathlib.Algebra.Order.BigOperators.Group.List

/-!
# Log records in the log buffer

`FLGIAddLogRec` runs twice for a batch of log records: first to find where the batch ends in the
circular buffer, or that there is no room for it, and then, when the space is reserved and other
records may be added behind it, to copy the records. A record that does not fit into the segment is
fragmented; a segment starts with its header. The second run reads `m_pbWrite` again, which log
writes may have advanced.
-/

namespace Ese.LogBuffer

open Ese.Log (LOG_SEGMENT_SIZE cbLGSEGHDR)

/-- `LOG_MIN_FRAGMENT_SIZE`. -/
def LOG_MIN_FRAGMENT_SIZE : Nat := 32

/-- `sizeof( LRFRAGMENTBEGIN )`. -/
def cbLRFRAGMENTBEGIN : Nat := 7

/-- `sizeof( LRFRAGMENT )`. -/
def cbLRFRAGMENT : Nat := 3

def lrtypNOP : Byte := 0

/-- An `LRFRAGMENTBEGIN`, without its data. -/
def lrFragmentBegin (cbTotalLRSize cbFragmentSize : Nat) : List Byte :=
  76 :: (leBytes 4 cbTotalLRSize ++ leBytes 2 cbFragmentSize)

/-- An `LRFRAGMENT`, without its data. -/
def lrFragment (cbFragmentSize : Nat) : List Byte := 77 :: leBytes 2 cbFragmentSize

/-- Where the next bytes go, the end of the room for them, and the buffer. -/
structure ADDPOS where
  pbET : Nat
  pbWrapWrite : Nat
  rgb : Mem

/-! ## The records of a batch -/

section
variable (cbLGSizeOfRec : List Byte → Nat)

/-- The data of one log record, and the data behind it. -/
def takeRecord : Int → List (List Byte) → List (List Byte) × List (List Byte)
  | _, [] => ([], [])
  | cbRecordLeft, data :: rgdata =>
    let cbRecordLeft := if cbRecordLeft = 0 ∧ data.length ≠ 0 then (cbLGSizeOfRec data : Int)
      else cbRecordLeft
    let cbRecordLeft := cbRecordLeft - data.length
    if rgdata ≠ [] ∧ (cbRecordLeft > 0 ∨ rgdata.head?.any List.isEmpty) then
      let (rgdataRecord, rgdataRest) := takeRecord cbRecordLeft rgdata
      (data :: rgdataRecord, rgdataRest)
    else ([data], rgdata)

/-- The log records of a batch of at most `n` data. -/
def records : Nat → List (List Byte) → List (List (List Byte))
  | 0, _ => []
  | _ + 1, [] => []
  | n + 1, data :: rgdata =>
    let (rgdataRecord, rgdataRest) := takeRecord cbLGSizeOfRec 0 (data :: rgdata)
    rgdataRecord :: records n rgdataRest

end

section
variable {cbLGSizeOfRec : List Byte → Nat}

theorem takeRecord_cons (cbRecordLeft : Int) (data : List Byte) (rgdata : List (List Byte)) :
    (∃ cbRecordLeft', takeRecord cbLGSizeOfRec cbRecordLeft (data :: rgdata) =
      (data :: (takeRecord cbLGSizeOfRec cbRecordLeft' rgdata).1,
      (takeRecord cbLGSizeOfRec cbRecordLeft' rgdata).2)) ∨
    takeRecord cbLGSizeOfRec cbRecordLeft (data :: rgdata) = ([data], rgdata) := by
  rw [takeRecord]
  dsimp only
  split_ifs <;> first | exact .inl ⟨_, rfl⟩ | exact .inr rfl

theorem takeRecord_append (cbRecordLeft : Int) (rgdata : List (List Byte)) :
    (takeRecord cbLGSizeOfRec cbRecordLeft rgdata).1 ++
      (takeRecord cbLGSizeOfRec cbRecordLeft rgdata).2 = rgdata := by
  induction rgdata generalizing cbRecordLeft with
  | nil => rfl
  | cons data rgdata ih =>
    rcases @takeRecord_cons cbLGSizeOfRec cbRecordLeft data rgdata with ⟨cbRecordLeft', heq⟩ | heq
    · rw [heq, List.cons_append, ih]
    · rw [heq]
      rfl

theorem length_takeRecord (cbRecordLeft : Int) (data : List Byte) (rgdata : List (List Byte)) :
    (takeRecord cbLGSizeOfRec cbRecordLeft (data :: rgdata)).2.length ≤ rgdata.length := by
  rcases @takeRecord_cons cbLGSizeOfRec cbRecordLeft data rgdata with ⟨cbRecordLeft', heq⟩ | heq
  · have happend := congrArg List.length (@takeRecord_append cbLGSizeOfRec cbRecordLeft' rgdata)
    rw [List.length_append] at happend
    rw [heq]
    dsimp only
    omega
  · rw [heq]

/-- The records of a batch have its data. -/
theorem flatten_records {n : Nat} {rgdata : List (List Byte)} (h : rgdata.length ≤ n) :
    (records cbLGSizeOfRec n rgdata).flatten = rgdata := by
  induction n generalizing rgdata with
  | zero => exact (List.eq_nil_of_length_eq_zero (Nat.le_zero.1 h)).symm
  | succ n ih =>
    cases rgdata with
    | nil => rfl
    | cons data rgdata =>
      have hlength := @length_takeRecord cbLGSizeOfRec 0 data rgdata
      rw [List.length_cons] at h
      rw [records, List.flatten_cons, ih (by omega)]
      exact takeRecord_append 0 (data :: rgdata)

end

/-! ## A record -/

namespace LOG_WRITE_BUFFER

section
variable (s : LOG_WRITE_BUFFER) (fAllocOnly : Bool) (logtime : Nat → BitVec 64)

/-- A copy into the buffer, unless only the space is to be found. -/
def copy (rgb : Mem) (pb : Nat) (data : List Byte) : Mem :=
  if fAllocOnly then rgb else rgb.write pb data

/-- The pointer goes back into the buffer. -/
def wrap (pos : ADDPOS) : ADDPOS :=
  if pos.pbET ≥ s.pLogBuffer.cbLGBuf then
    { pos with pbET := pos.pbET - s.pLogBuffer.cbLGBuf, pbWrapWrite := s.pbWrite }
  else pos

/-- The header of a segment, of which the time is set. -/
def segmentHeader (pos : ADDPOS) : ADDPOS :=
  { pos with pbET := pos.pbET + cbLGSEGHDR,
             rgb := copy fAllocOnly pos.rgb (pos.pbET + 16) (leBytes 8 (logtime pos.pbET).toNat) }

/-- The bytes left in the segment, without the header if the segment begins. -/
def beginSegment (pos : ADDPOS) : Nat × ADDPOS :=
  let cbSegRemain := LOG_SEGMENT_SIZE - pos.pbET % LOG_SEGMENT_SIZE
  if cbSegRemain = LOG_SEGMENT_SIZE
    then (cbSegRemain - cbLGSEGHDR, segmentHeader fAllocOnly logtime pos)
  else (cbSegRemain, pos)

/-- The rest of the segment is filled with NOPs, and the next segment begins. -/
def fillSegment (cbSegRemain : Nat) (pos : ADDPOS) : Option (Nat × ADDPOS) :=
  let rgb := copy fAllocOnly pos.rgb pos.pbET (List.replicate cbSegRemain lrtypNOP)
  let pos := { pos with pbET := pos.pbET + cbSegRemain, rgb }
  if pos.pbET ≥ pos.pbWrapWrite then none
  else
    let pos := segmentHeader fAllocOnly logtime (s.wrap pos)
    some (LOG_SEGMENT_SIZE - cbLGSEGHDR, pos)

/-- The record begins, as a fragment if the segment has no room for it. -/
def beginRecord (cbNeeded cbSegRemain : Nat) (pos : ADDPOS) : Bool × Nat × ADDPOS :=
  if cbSegRemain < cbNeeded then
    let lrBegin := lrFragmentBegin cbNeeded (cbSegRemain - cbLRFRAGMENTBEGIN)
    (true, cbSegRemain - cbLRFRAGMENTBEGIN,
      { pos with pbET := pos.pbET + cbLRFRAGMENTBEGIN,
                 rgb := copy fAllocOnly pos.rgb pos.pbET lrBegin })
  else (false, cbSegRemain, pos)

/-- What stands before the bytes of the record in the segment: whether the record is fragmented, and
the bytes left in the segment. -/
def frameRecord (fFragmented : Bool) (cbNeeded : Nat) (pos : ADDPOS) :
    Option (Bool × Nat × ADDPOS) := do
  let (cbSegRemain, pos) := beginSegment fAllocOnly logtime pos
  if !fFragmented then
    let (cbSegRemain, pos) ←
      (if cbSegRemain < cbNeeded ∧ cbSegRemain < LOG_MIN_FRAGMENT_SIZE then
        s.fillSegment fAllocOnly logtime cbSegRemain pos
      else some (cbSegRemain, pos))
    some (beginRecord fAllocOnly cbNeeded cbSegRemain pos)
  else
    let lrFrag := lrFragment (min cbNeeded (cbSegRemain - cbLRFRAGMENT))
    some (true, cbSegRemain - cbLRFRAGMENT,
      { pos with pbET := pos.pbET + cbLRFRAGMENT, rgb := copy fAllocOnly pos.rgb pos.pbET lrFrag })

/-- The copying of the actual log record: the data left, the bytes that are still needed, and the
position. -/
def copyData : List (List Byte) → Nat → Nat → ADDPOS → List (List Byte) × Nat × ADDPOS
  | [], cbNeeded, _, pos => ([], cbNeeded, pos)
  | data :: rgdata, cbNeeded, cbSegRemain, pos =>
    if cbNeeded ≠ 0 ∧ cbSegRemain ≠ 0 then
      let cbToCopy := min data.length cbSegRemain
      let pos :=
        { pos with pbET := pos.pbET + cbToCopy,
                   rgb := copy fAllocOnly pos.rgb pos.pbET (data.take cbToCopy) }
      if data.length = cbToCopy then copyData rgdata (cbNeeded - cbToCopy)
        (cbSegRemain - cbToCopy) pos
      -- the segment is full
      else (data.drop cbToCopy :: rgdata, cbNeeded - cbToCopy, pos)
    else (data :: rgdata, cbNeeded, pos)

/-- The loop over the segments of a record, with a bound on their number. -/
def addRecordLoop : Nat → Bool → Nat → List (List Byte) → ADDPOS → Option ADDPOS
  | 0, _, _, _, _ => none
  | n + 1, fFragmented, cbNeeded, rgdata, pos =>
    if cbNeeded = 0 then some pos
    else if pos.pbET + cbNeeded ≥ pos.pbWrapWrite then none
    else do
      let (fFragmented, cbSegRemain, pos) ← s.frameRecord fAllocOnly logtime fFragmented cbNeeded
        pos
      let (rgdata, cbNeeded, pos) := copyData fAllocOnly rgdata cbNeeded cbSegRemain pos
      addRecordLoop n fFragmented cbNeeded rgdata (s.wrap pos)

/-- A log record. -/
def addRecord (rgdata : List (List Byte)) (pos : ADDPOS) : Option ADDPOS :=
  let cbNeeded := (rgdata.map List.length).sum
  if cbNeeded ≥ s.pLogBuffer.cbLGBuf then none
  else s.addRecordLoop fAllocOnly logtime (cbNeeded + 1) false cbNeeded rgdata pos

/-- `FLGIAddLogRec`: where the batch ends, and the buffer, or `none` for false. -/
def flgiAddLogRec (cbLGSizeOfRec : List Byte → Nat) (rgdata : List (List Byte)) (rgb : Mem)
    (pbET : Nat) :
    Option (Nat × Mem) := do
  let pbWrapWrite := if s.pbWrite ≤ pbET then s.pbWrite + s.pLogBuffer.cbLGBuf else s.pbWrite
  let pos ← (records cbLGSizeOfRec rgdata.length rgdata).foldlM
    (fun pos rgdataRecord => s.addRecord fAllocOnly logtime rgdataRecord pos)
    ⟨pbET, pbWrapWrite, rgb⟩
  if pos.pbET = pos.pbWrapWrite then none else some (pos.pbET, pos.rgb)

/-! ## Free and used space -/

/-- `PbMaxEntry`. -/
def pbMaxEntry : Nat :=
  if s.pbEntry ≥ s.pbWrite then s.pbEntry else s.pbEntry + s.pLogBuffer.cbLGBuf

/-- `PbMaxWrite`. -/
def pbMaxWrite : Nat :=
  if s.pbWrite > s.pbEntry then s.pbWrite else s.pbWrite + s.pLogBuffer.cbLGBuf

/-- `PbMaxPtrForUsed`. -/
def pbMaxPtrForUsed (pb : Nat) : Nat := if pb < s.pbEntry then pb + s.pLogBuffer.cbLGBuf else pb

/-- `PbMaxPtrForFree`. -/
def pbMaxPtrForFree (pb : Nat) : Nat := if pb < s.pbWrite then pb + s.pLogBuffer.cbLGBuf else pb

/-- `CbLGUsed`. -/
def cbLGUsed : Nat := s.pbMaxEntry - s.pbWrite

/-- `CbLGFree`. -/
def cbLGFree : Nat := s.pbMaxWrite - s.pbEntry

/-- `FLGIIsFreeSpace`. -/
def flgiIsFreeSpace (pb cb : Nat) : Bool :=
  if cb = 0 then true
  else decide (s.cbLGFree ≥ cb ∧
    (s.pbMaxPtrForUsed pb ≥ s.pbEntry ∧ s.pbMaxPtrForUsed pb < s.pbMaxWrite) ∧
    s.pbMaxPtrForUsed pb + cb > s.pbEntry ∧ s.pbMaxPtrForUsed pb + cb ≤ s.pbMaxWrite)

/-- `FLGIIsUsedSpace`. -/
def flgiIsUsedSpace (pb cb : Nat) : Bool :=
  if cb = 0 then false
  else decide (s.cbLGUsed ≥ cb ∧
    (s.pbMaxPtrForFree pb ≥ s.pbWrite ∧ s.pbMaxPtrForFree pb < s.pbMaxEntry) ∧
    s.pbMaxPtrForFree pb + cb > s.pbWrite ∧ s.pbMaxPtrForFree pb + cb ≤ s.pbMaxEntry)

end

end LOG_WRITE_BUFFER

/-! ## The framed batch -/

/-- The bytes left in the segment at position `ib`, without the header if the segment begins. -/
def segmentBegun (ib : Nat) : Nat × Nat :=
  let cbSegRemain := LOG_SEGMENT_SIZE - ib % LOG_SEGMENT_SIZE
  if cbSegRemain = LOG_SEGMENT_SIZE then (LOG_SEGMENT_SIZE - cbLGSEGHDR, ib + cbLGSEGHDR)
  else (cbSegRemain, ib)

/-- What stands before the bytes of a record at position `ib`: whether the record is fragmented, the
bytes left in the segment, and where they begin. -/
def framed (fFragmented : Bool) (cbNeeded ib : Nat) : Bool × Nat × Nat :=
  let (cbSegRemain, ib) := segmentBegun ib
  if fFragmented then (true, cbSegRemain - cbLRFRAGMENT, ib + cbLRFRAGMENT)
  else
    let (cbSegRemain, ib) :=
      if cbSegRemain < cbNeeded ∧ cbSegRemain < LOG_MIN_FRAGMENT_SIZE then
        (LOG_SEGMENT_SIZE - cbLGSEGHDR, ib + cbSegRemain + cbLGSEGHDR)
      else (cbSegRemain, ib)
    if cbSegRemain < cbNeeded then (true, cbSegRemain - cbLRFRAGMENTBEGIN, ib + cbLRFRAGMENTBEGIN)
    else (false, cbSegRemain, ib)

/-- The end of a record of `cbNeeded` bytes at position `ib` of a log without an end. -/
def framedEnd : Nat → Bool → Nat → Nat → Nat
  | 0, _, _, ib => ib
  | n + 1, fFragmented, cbNeeded, ib =>
    if cbNeeded = 0 then ib
    else
      let (fFragmented, cbSegRemain, ib) := framed fFragmented cbNeeded ib
      framedEnd n fFragmented (cbNeeded - min cbNeeded cbSegRemain) (ib + min cbNeeded cbSegRemain)

/-- The end of a batch of records at position `ib`. -/
def framedBatchEnd (ib : Nat) (batch : List (List (List Byte))) : Nat :=
  batch.foldl (fun ib rgdata =>
    framedEnd ((rgdata.map List.length).sum + 1) false (rgdata.map List.length).sum ib) ib

/-- The bytes behind the frame are in one segment, behind the position, and no farther than the next
position where a segment ends that has room for them. -/
theorem framed_spec {fFragmented fFragmented' : Bool} {cbNeeded ib ib' cbSegRemain : Nat}
    (hstart : fFragmented = true → ib % 4096 = 0) (hneeded : 0 < cbNeeded)
    (h : framed fFragmented cbNeeded ib = (fFragmented', cbSegRemain, ib')) :
    ib ≤ ib' ∧ 0 < cbSegRemain ∧ (ib' + cbSegRemain) % 4096 = 0 ∧
      (fFragmented' = false → cbNeeded ≤ cbSegRemain) := by
  unfold framed segmentBegun LOG_SEGMENT_SIZE cbLGSEGHDR LOG_MIN_FRAGMENT_SIZE cbLRFRAGMENT
    cbLRFRAGMENTBEGIN at h
  cases fFragmented with
  | true =>
    have hzero := hstart rfl
    simp only [hzero, Nat.sub_zero, if_true, Prod.mk.injEq] at h
    obtain ⟨rfl, rfl, rfl⟩ := h
    exact ⟨by omega, by decide, by omega, fun h => absurd h.symm Bool.false_ne_true⟩
  | false =>
    simp only [Bool.false_eq_true, if_false] at h
    split_ifs at h <;>
    · simp only [Prod.mk.injEq] at h
      obtain ⟨rfl, rfl, rfl⟩ := h
      refine ⟨?_, ?_, ?_, fun h => ?_⟩ <;> first | omega | exact absurd h.symm Bool.false_ne_true

/-- Nothing is shorter for being framed. -/
theorem le_framedEnd {n : Nat} {fFragmented : Bool} {cbNeeded ib : Nat} (hn : cbNeeded ≤ n)
    (hstart : cbNeeded ≠ 0 → fFragmented = true → ib % 4096 = 0) :
      ib + cbNeeded ≤ framedEnd n fFragmented cbNeeded ib := by
  induction n generalizing fFragmented cbNeeded ib with
  | zero =>
    obtain rfl : cbNeeded = 0 := by omega
    exact le_rfl
  | succ n ih =>
    rw [framedEnd]
    by_cases hzero : cbNeeded = 0
    · rw [if_pos hzero, hzero]
      exact le_rfl
    · rw [if_neg hzero]
      obtain ⟨fFragmented', cbSegRemain, ib', hframed⟩ :
          ∃ f r i, framed fFragmented cbNeeded ib = (f, r, i) := ⟨_, _, _, rfl⟩
      obtain ⟨hle, hpos, hend, hlast⟩ :=
        framed_spec (hstart hzero) (Nat.pos_of_ne_zero hzero) hframed
      rw [hframed]
      refine le_trans ?_ (@ih fFragmented' (cbNeeded - min cbNeeded cbSegRemain)
        (ib' + min cbNeeded cbSegRemain)
        (by omega) fun hmore _ => ?_)
      · omega
      · rw [Nat.min_eq_right (by omega)]
        exact hend

theorem le_framedBatchEnd (batch : List (List (List Byte))) (ib : Nat) :
    ib + (batch.map fun rgdata => (rgdata.map List.length).sum).sum ≤ framedBatchEnd ib batch := by
  induction batch generalizing ib with
  | nil => exact le_rfl
  | cons rgdata batch ih =>
    have hfirst := @le_framedEnd ((rgdata.map List.length).sum + 1) false
      (rgdata.map List.length).sum ib
      (Nat.le_succ _) fun _ h => absurd h Bool.false_ne_true
    have hrest :=
      ih (framedEnd ((rgdata.map List.length).sum + 1) false (rgdata.map List.length).sum ib)
    rw [List.map_cons, List.sum_cons]
    exact le_trans (by omega) hrest

/-! ## A run against the framed batch -/

namespace LOG_WRITE_BUFFER

/-- A byte of the buffer between two positions of the log without an end. -/
def Between (s : LOG_WRITE_BUFFER) (ib ib' pb : Nat) : Prop :=
  pb < s.pLogBuffer.cbLGBuf ∧
    ((ib ≤ pb ∧ pb < ib') ∨ (ib ≤ pb + s.pLogBuffer.cbLGBuf ∧ pb + s.pLogBuffer.cbLGBuf < ib'))

/-- Nothing is written but the bytes between two positions, and nothing at all when only the space
is to be found. -/
def Kept (s : LOG_WRITE_BUFFER) (fAllocOnly : Bool) (ib ib' : Nat) (rgb rgb' : Mem) : Prop :=
  ∀ pb, fAllocOnly = true ∨ ¬ s.Between ib ib' pb → rgb' pb = rgb pb

/-- A buffer of whole segments, with `m_pbWrite` at a segment, and the end of the room for log
records. -/
structure Room (s : LOG_WRITE_BUFFER) (ibLimit : Nat) : Prop where
  cbLGBuf : s.pLogBuffer.cbLGBuf % 4096 = 0
  pbWrite : s.pbWrite % 4096 = 0
  write_lt : s.pbWrite < s.pLogBuffer.cbLGBuf
  limit : ibLimit = s.pbWrite ∨ ibLimit = s.pbWrite + s.pLogBuffer.cbLGBuf

/-- The position stands for `ib`, `k` bytes on. -/
structure Shifted (s : LOG_WRITE_BUFFER) (k ib ibLimit : Nat) (pos : ADDPOS) : Prop where
  shift : k = 0 ∨ k = s.pLogBuffer.cbLGBuf
  pbET : pos.pbET + k = ib
  pbWrapWrite : pos.pbWrapWrite + k = ibLimit

/-- The position stands for `ib`, in the buffer. -/
def At (s : LOG_WRITE_BUFFER) (ib ibLimit : Nat) (pos : ADDPOS) : Prop :=
  ∃ k, s.Shifted k ib ibLimit pos ∧ pos.pbET < s.pLogBuffer.cbLGBuf ∧ ib ≤ ibLimit

section
variable {s : LOG_WRITE_BUFFER} {fAllocOnly : Bool} {logtime : Nat → BitVec 64}
    {k ib ib' ib'' ibLimit : Nat}
  {rgb rgb' rgb'' : Mem} {pos : ADDPOS}

theorem Kept.refl (s : LOG_WRITE_BUFFER) (ib ib' : Nat) (rgb : Mem) :
    s.Kept fAllocOnly ib ib' rgb rgb := fun _ _ => rfl

theorem Kept.trans (h : s.Kept fAllocOnly ib ib' rgb rgb')
    (h' : s.Kept fAllocOnly ib' ib'' rgb' rgb'') (hle : ib ≤ ib')
    (hle' : ib' ≤ ib'') : s.Kept fAllocOnly ib ib'' rgb rgb'' := fun pb hpb => by
  have hfirst : ¬ s.Between ib ib'' pb → ¬ s.Between ib ib' pb := by
    unfold Between
    omega
  have hsecond : ¬ s.Between ib ib'' pb → ¬ s.Between ib' ib'' pb := by
    unfold Between
    omega
  rw [h' pb (hpb.imp_right hsecond), h pb (hpb.imp_right hfirst)]

/-- A copy writes its own bytes. -/
theorem kept_copy (hshift : k = 0 ∨ k = s.pLogBuffer.cbLGBuf) {pb : Nat} {data : List Byte}
    (hle : ib ≤ pb + k)
    (hle' : pb + k + data.length ≤ ib') (hlt : pb + data.length ≤ s.pLogBuffer.cbLGBuf) :
    s.Kept fAllocOnly ib ib' rgb (copy fAllocOnly rgb pb data) := fun a ha => by
  unfold copy
  cases fAllocOnly with
  | true => rfl
  | false =>
    have hout := ha.resolve_left Bool.false_ne_true
    refine Mem.write_apply_of_not_mem rgb data ?_
    unfold Between at hout
    omega

/-- The pointer is put back into the buffer. -/
theorem Shifted.wrap (hroom : s.Room ibLimit) (h : s.Shifted k ib ibLimit pos) (hle : ib ≤ ibLimit)
    (hend : pos.pbET ≤ s.pLogBuffer.cbLGBuf) : s.At ib ibLimit (s.wrap pos) := by
  obtain ⟨hshift, hET, hwrap⟩ := h
  have hwrite := hroom.write_lt
  have hlimit := hroom.limit
  unfold LOG_WRITE_BUFFER.wrap
  by_cases hmax : pos.pbET ≥ s.pLogBuffer.cbLGBuf
  · rw [if_pos hmax]
    exact ⟨s.pLogBuffer.cbLGBuf,
      ⟨.inr rfl, by dsimp only; omega, by dsimp only; omega⟩, by dsimp only; omega, hle⟩
  · rw [if_neg hmax]
    exact ⟨k, ⟨hshift, hET, hwrap⟩, by omega, hle⟩

theorem rgb_wrap (pos : ADDPOS) : (s.wrap pos).rgb = pos.rgb := by
  unfold wrap
  split <;> rfl

theorem segmentHeader_spec (hroom : s.Room ibLimit) (h : s.Shifted k ib ibLimit pos)
    (hlt : pos.pbET < s.pLogBuffer.cbLGBuf) (hstart : ib % 4096 = 0) :
    s.Shifted k (ib + 40) ibLimit (segmentHeader fAllocOnly logtime pos) ∧
      s.Kept fAllocOnly ib (ib + 40) pos.rgb (segmentHeader fAllocOnly logtime pos).rgb := by
  obtain ⟨hshift, hET, hwrap⟩ := h
  have hN := hroom.cbLGBuf
  refine ⟨⟨hshift, ?_, hwrap⟩, kept_copy hshift ?_ ?_ ?_⟩
  · change pos.pbET + 40 + k = ib + 40
    omega
  · omega
  · rw [length_leBytes]
    omega
  · rw [length_leBytes]
    omega

theorem Room.limit_mod (hroom : s.Room ibLimit) : ibLimit % 4096 = 0 := by
  have hN := hroom.cbLGBuf
  have hwrite := hroom.pbWrite
  rcases hroom.limit with h | h <;> omega

theorem beginSegment_spec (hroom : s.Room ibLimit) (h : s.At ib ibLimit pos) (hlt : ib < ibLimit) :
    ∃ k cbSegRemain ib' pos', beginSegment fAllocOnly logtime pos = (cbSegRemain, pos') ∧
      segmentBegun ib = (cbSegRemain, ib') ∧ s.Shifted k ib' ibLimit pos' ∧ ib ≤ ib' ∧
      (ib' + cbSegRemain) % 4096 = 0 ∧ ib' + cbSegRemain ≤ ibLimit ∧
        pos'.pbET + cbSegRemain ≤ s.pLogBuffer.cbLGBuf ∧
      s.Kept fAllocOnly ib ib' pos.rgb pos'.rgb := by
  obtain ⟨k, hshifted, hin, -⟩ := h
  have hN := hroom.cbLGBuf
  have hlimit := hroom.limit_mod
  have hshift := hshifted.shift
  have hET := hshifted.pbET
  unfold beginSegment segmentBegun LOG_SEGMENT_SIZE
  by_cases hstart : ib % 4096 = 0
  · have hstart' : pos.pbET % 4096 = 0 := by omega
    obtain ⟨hheader, hkept⟩ :=
      @segmentHeader_spec s fAllocOnly logtime k ib ibLimit pos hroom hshifted hin hstart
    rw [hstart, hstart']
    refine ⟨k, _, _, _, rfl, rfl, hheader, Nat.le_add_right _ _, ?_, ?_, ?_, hkept⟩
    · change (ib + 40 + 4056) % 4096 = 0
      omega
    · change ib + 40 + 4056 ≤ _
      omega
    · change pos.pbET + 40 + 4056 ≤ _
      omega
  · have hstart' : pos.pbET % 4096 = ib % 4096 := by omega
    rw [hstart']
    simp only [if_neg (show ¬ 4096 - ib % 4096 = 4096 by omega)]
    exact ⟨k, _, _, _, rfl, rfl, hshifted, le_rfl, by omega, by omega, by omega,
      .refl s ib ib pos.rgb⟩

/-- The rest of the segment is filled if the next one is in the room. -/
theorem fillSegment_spec (hroom : s.Room ibLimit) (h : s.Shifted k ib ibLimit pos)
    {cbSegRemain : Nat}
    (hend : (ib + cbSegRemain) % 4096 = 0) (hle : pos.pbET + cbSegRemain ≤ s.pLogBuffer.cbLGBuf) :
    (s.fillSegment fAllocOnly logtime cbSegRemain pos = none ∧ ibLimit ≤ ib + cbSegRemain) ∨
      ∃ k pos', s.fillSegment fAllocOnly logtime cbSegRemain pos = some (4056, pos') ∧
        s.Shifted k (ib + cbSegRemain + 40) ibLimit pos' ∧ ib + cbSegRemain + 40 + 4056 ≤ ibLimit ∧
        pos'.pbET + 4056 ≤ s.pLogBuffer.cbLGBuf ∧
          s.Kept fAllocOnly ib (ib + cbSegRemain + 40) pos.rgb pos'.rgb := by
  have hshift := h.shift
  have hET := h.pbET
  have hwrap := h.pbWrapWrite
  have hN := hroom.cbLGBuf
  unfold fillSegment
  dsimp only
  by_cases hfull : pos.pbET + cbSegRemain ≥ pos.pbWrapWrite
  · rw [if_pos hfull]
    exact .inl ⟨rfl, by omega⟩
  · rw [if_neg hfull]
    have hfilled : s.Kept fAllocOnly ib (ib + cbSegRemain) pos.rgb
        (copy fAllocOnly pos.rgb pos.pbET (List.replicate cbSegRemain lrtypNOP)) := by
      refine kept_copy hshift ?_ ?_ ?_
      · omega
      · rw [List.length_replicate]
        omega
      · rw [List.length_replicate]
        omega
    have hnext : s.Shifted k (ib + cbSegRemain) ibLimit ⟨pos.pbET + cbSegRemain, pos.pbWrapWrite,
        copy fAllocOnly pos.rgb pos.pbET (List.replicate cbSegRemain lrtypNOP)⟩ :=
      ⟨hshift, by dsimp only; omega, hwrap⟩
    obtain ⟨k', hshifted, hin, -⟩ := hnext.wrap hroom (by omega) hle
    have hET' := hshifted.pbET
    have hshift' := hshifted.shift
    obtain ⟨hheader, hkept⟩ :=
      @segmentHeader_spec s fAllocOnly logtime k' _ ibLimit _ hroom hshifted hin hend
    rw [rgb_wrap] at hkept
    have hlimit := hroom.limit_mod
    refine .inr ⟨k', _, rfl, hheader, by omega, ?_,
      hfilled.trans hkept (Nat.le_add_right _ _) (Nat.le_add_right _ _)⟩
    have hpb := hheader.pbET
    omega

theorem beginRecord_spec (h : s.Shifted k ib ibLimit pos) {cbNeeded cbSegRemain cbSegRemain' : Nat}
    {fFragmented' : Bool} (hmin : cbSegRemain < cbNeeded → 7 ≤ cbSegRemain)
    (hle : pos.pbET + cbSegRemain ≤ s.pLogBuffer.cbLGBuf)
    (hframed : (if cbSegRemain < cbNeeded
      then (true, cbSegRemain - cbLRFRAGMENTBEGIN, ib + cbLRFRAGMENTBEGIN)
      else (false, cbSegRemain, ib)) = (fFragmented', cbSegRemain', ib')) :
    ∃ pos', beginRecord fAllocOnly cbNeeded cbSegRemain pos = (fFragmented', cbSegRemain', pos') ∧
      s.Shifted k ib' ibLimit pos' ∧ ib' + cbSegRemain' = ib + cbSegRemain ∧
      pos'.pbET + cbSegRemain' ≤ s.pLogBuffer.cbLGBuf ∧ ib ≤ ib' ∧
        s.Kept fAllocOnly ib ib' pos.rgb pos'.rgb := by
  have hET := h.pbET
  unfold beginRecord
  by_cases hfragment : cbSegRemain < cbNeeded
  · have hseven := hmin hfragment
    have hlength : ∀ n, (lrFragmentBegin cbNeeded n).length = 7 := fun n => by
      simp [lrFragmentBegin]
    rw [if_pos hfragment] at hframed ⊢
    simp only [Prod.mk.injEq, cbLRFRAGMENTBEGIN] at hframed
    obtain ⟨rfl, rfl, rfl⟩ := hframed
    refine ⟨_, rfl, ⟨h.shift, ?_, h.pbWrapWrite⟩, by omega, ?_, Nat.le_add_right _ _,
      kept_copy h.shift hET.ge ?_ ?_⟩
    · change pos.pbET + 7 + k = ib + 7
      omega
    · change pos.pbET + 7 + (cbSegRemain - 7) ≤ _
      omega
    · rw [hlength]
      omega
    · rw [hlength]
      omega
  · rw [if_neg hfragment] at hframed ⊢
    simp only [Prod.mk.injEq] at hframed
    obtain ⟨rfl, rfl, rfl⟩ := hframed
    exact ⟨pos, rfl, h, rfl, hle, le_rfl, .refl s ib ib pos.rgb⟩

/-- The frame is written where it stands in the framed batch, or there is no room for it. -/
theorem frameRecord_spec (hroom : s.Room ibLimit) (h : s.At ib ibLimit pos)
    {fFragmented fFragmented' : Bool}
    {cbNeeded cbSegRemain : Nat} (hstart : fFragmented = true → ib % 4096 = 0) (hlt : ib < ibLimit)
    (hframed : framed fFragmented cbNeeded ib = (fFragmented', cbSegRemain, ib')) :
    (s.frameRecord fAllocOnly logtime fFragmented cbNeeded pos = none ∧ ibLimit ≤ ib') ∨
      ∃ k pos', s.frameRecord fAllocOnly logtime fFragmented cbNeeded pos =
        some (fFragmented', cbSegRemain, pos') ∧
        s.Shifted k ib' ibLimit pos' ∧ ib' + cbSegRemain ≤ ibLimit ∧
        pos'.pbET + cbSegRemain ≤ s.pLogBuffer.cbLGBuf ∧
          s.Kept fAllocOnly ib ib' pos.rgb pos'.rgb := by
  obtain ⟨k, cbSegRemain₁, ib₁, pos₁, hbegin, hbegun, hshifted, hle, hend, hlimit₁, hin, hkept⟩ :=
    @beginSegment_spec s fAllocOnly logtime ib ibLimit pos hroom h hlt
  have hET := hshifted.pbET
  unfold framed at hframed
  unfold frameRecord
  rw [hbegun] at hframed
  rw [hbegin]
  dsimp only at hframed ⊢
  cases fFragmented with
  | true =>
    obtain rfl : cbSegRemain₁ = 4056 := by
      unfold segmentBegun LOG_SEGMENT_SIZE at hbegun
      rw [hstart rfl] at hbegun
      exact (Prod.mk.inj hbegun).1.symm
    have hlength : ∀ n, (lrFragment n).length = 3 := fun n => by simp [lrFragment]
    simp only [if_true, Prod.mk.injEq, cbLRFRAGMENT] at hframed
    obtain ⟨rfl, rfl, rfl⟩ := hframed
    refine .inr ⟨k, _, rfl, ⟨hshifted.shift, ?_, hshifted.pbWrapWrite⟩, by omega, ?_,
      hkept.trans (kept_copy hshifted.shift hET.ge ?_ ?_) hle (Nat.le_add_right _ _)⟩
    · change pos₁.pbET + 3 + k = ib₁ + 3
      omega
    · change pos₁.pbET + 3 + (4056 - 3) ≤ _
      omega
    · rw [hlength]
      omega
    · rw [hlength]
      omega
  | false =>
    simp only [Bool.false_eq_true, if_false] at hframed
    simp only [Bool.not_false, if_true]
    by_cases hfill : cbSegRemain₁ < cbNeeded ∧ cbSegRemain₁ < LOG_MIN_FRAGMENT_SIZE
    · rw [if_pos hfill] at hframed ⊢
      dsimp only at hframed
      rcases @fillSegment_spec s fAllocOnly logtime k ib₁ ibLimit pos₁ hroom hshifted cbSegRemain₁
        hend hin with
        ⟨hnone, hlimit⟩ | ⟨k₂, pos₂, hsome, hshifted₂, hlimit₂, hin₂, hkept₂⟩
      · refine .inl ⟨by rw [hnone]; rfl, ?_⟩
        split_ifs at hframed <;>
        · simp only [Prod.mk.injEq, cbLRFRAGMENTBEGIN, cbLGSEGHDR] at hframed
          omega
      · obtain ⟨pos', heq, hshifted', hsame, hin', hle', hkept'⟩ :=
          @beginRecord_spec s fAllocOnly k₂ _ ib' ibLimit pos₂ hshifted₂ cbNeeded 4056 cbSegRemain
            fFragmented'
            (fun _ => by decide) hin₂ hframed
        refine .inr ⟨k₂, pos', ?_, hshifted', by omega, hin', ?_⟩
        · rw [hsome]
          simp only [Option.bind_eq_bind, Option.bind_some, heq]
        · exact hkept.trans (hkept₂.trans hkept' (by omega) hle') hle (by omega)
    · rw [if_neg hfill] at hframed ⊢
      have hmin : cbSegRemain₁ < cbNeeded → 7 ≤ cbSegRemain₁ := fun hlt => by
        have hge : ¬ cbSegRemain₁ < LOG_MIN_FRAGMENT_SIZE := fun hlt' => hfill ⟨hlt, hlt'⟩
        unfold LOG_MIN_FRAGMENT_SIZE at hge
        omega
      obtain ⟨pos', heq, hshifted', hsame, hin', hle', hkept'⟩ :=
        @beginRecord_spec s fAllocOnly k ib₁ ib' ibLimit pos₁ hshifted cbNeeded cbSegRemain₁
          cbSegRemain fFragmented'
          hmin hin hframed
      refine .inr ⟨k, pos', ?_, hshifted', by omega, hin', hkept.trans hkept' hle hle'⟩
      simp only [Option.bind_eq_bind, Option.bind_some, heq]

/-- What is copied into a segment is what the record needs of it. -/
theorem copyData_spec (rgdata : List (List Byte)) {cbNeeded cbSegRemain : Nat}
    (h : s.Shifted k ib ibLimit pos)
    (hneeded : (rgdata.map List.length).sum = cbNeeded)
      (hle : pos.pbET + cbSegRemain ≤ s.pLogBuffer.cbLGBuf) :
    ∃ rgdata' pos', copyData fAllocOnly rgdata cbNeeded cbSegRemain pos =
        (rgdata', cbNeeded - min cbNeeded cbSegRemain, pos') ∧
      (rgdata'.map List.length).sum = cbNeeded - min cbNeeded cbSegRemain ∧
      s.Shifted k (ib + min cbNeeded cbSegRemain) ibLimit pos' ∧ pos'.pbET ≤ s.pLogBuffer.cbLGBuf ∧
      s.Kept fAllocOnly ib (ib + min cbNeeded cbSegRemain) pos.rgb pos'.rgb := by
  induction rgdata generalizing cbNeeded cbSegRemain pos ib with
  | nil =>
    obtain rfl : cbNeeded = 0 := hneeded.symm
    rw [Nat.zero_min]
    exact ⟨[], pos, rfl, rfl, h, by omega, .refl s ib ib pos.rgb⟩
  | cons data rgdata ih =>
    rw [List.map_cons, List.sum_cons] at hneeded
    have hET := h.pbET
    unfold copyData
    by_cases hmore : cbNeeded ≠ 0 ∧ cbSegRemain ≠ 0
    · rw [if_pos hmore]
      dsimp only
      have hcopied : s.Kept fAllocOnly ib (ib + min data.length cbSegRemain) pos.rgb
          (copy fAllocOnly pos.rgb pos.pbET (data.take (min data.length cbSegRemain))) := by
        refine kept_copy h.shift hET.ge ?_ ?_
        · rw [List.length_take]
          omega
        · rw [List.length_take]
          omega
      have hnext : s.Shifted k (ib + min data.length cbSegRemain) ibLimit
          ⟨pos.pbET + min data.length cbSegRemain, pos.pbWrapWrite,
            copy fAllocOnly pos.rgb pos.pbET (data.take (min data.length cbSegRemain))⟩ :=
        ⟨h.shift, by dsimp only; omega, h.pbWrapWrite⟩
      by_cases hwhole : data.length = min data.length cbSegRemain
      · rw [if_pos hwhole]
        obtain ⟨rgdata', pos', heq, hsum, hshifted, hin, hkept⟩ :=
          @ih _ _ (cbNeeded - min data.length cbSegRemain)
            (cbSegRemain - min data.length cbSegRemain) hnext
            (by omega) (by dsimp only; omega)
        have hmin : min cbNeeded cbSegRemain = min data.length cbSegRemain +
            min (cbNeeded - min data.length cbSegRemain)
            (cbSegRemain - min data.length cbSegRemain) := by omega
        rw [hmin, ← Nat.add_assoc, ← Nat.sub_sub]
        exact ⟨rgdata', pos', heq, hsum, hshifted, hin,
          hcopied.trans hkept (Nat.le_add_right _ _) (Nat.le_add_right _ _)⟩
      · rw [if_neg hwhole]
        have hmin : min cbNeeded cbSegRemain = min data.length cbSegRemain := by omega
        rw [hmin]
        refine ⟨_, _, rfl, ?_, hnext, by dsimp only; omega, hcopied⟩
        rw [List.map_cons, List.sum_cons, List.length_drop]
        omega
    · rw [if_neg hmore]
      have hmin : min cbNeeded cbSegRemain = 0 := by omega
      rw [hmin]
      exact ⟨data :: rgdata, pos, rfl, by rw [List.map_cons, List.sum_cons]; omega, h, by omega,
        .refl s ib ib pos.rgb⟩

/-- A record ends where it ends in the framed batch, or the framed batch has no room for it. -/
theorem addRecordLoop_spec (hroom : s.Room ibLimit) {n cbNeeded : Nat} {fFragmented : Bool}
    {rgdata : List (List Byte)}
    (h : s.At ib ibLimit pos) (hstart : cbNeeded ≠ 0 → fFragmented = true → ib % 4096 = 0)
    (hn : cbNeeded < n)
    (hneeded : (rgdata.map List.length).sum = cbNeeded) :
    (s.addRecordLoop fAllocOnly logtime n fFragmented cbNeeded rgdata pos = none ∧
        ibLimit ≤ framedEnd n fFragmented cbNeeded ib) ∨
      ∃ pos', s.addRecordLoop fAllocOnly logtime n fFragmented cbNeeded rgdata pos = some pos' ∧
        s.At (framedEnd n fFragmented cbNeeded ib) ibLimit pos' ∧
        s.Kept fAllocOnly ib (framedEnd n fFragmented cbNeeded ib) pos.rgb pos'.rgb := by
  induction n generalizing fFragmented cbNeeded rgdata ib pos with
  | zero => omega
  | succ n ih =>
    have hwhole := @le_framedEnd (n + 1) fFragmented cbNeeded ib hn.le hstart
    rw [addRecordLoop, framedEnd]
    rw [framedEnd] at hwhole
    by_cases hzero : cbNeeded = 0
    · simp only [if_pos hzero]
      exact .inr ⟨pos, rfl, h, .refl s ib ib pos.rgb⟩
    simp only [if_neg hzero] at hwhole ⊢
    obtain ⟨k, hshifted, hin, hlimit⟩ := h
    have hET := hshifted.pbET
    have hwrap := hshifted.pbWrapWrite
    by_cases hfull : pos.pbET + cbNeeded ≥ pos.pbWrapWrite
    · rw [if_pos hfull]
      exact .inl ⟨rfl, by omega⟩
    rw [if_neg hfull]
    obtain ⟨fFragmented', cbSegRemain, ib', hframed⟩ :
        ∃ f r i, framed fFragmented cbNeeded ib = (f, r, i) := ⟨_, _, _, rfl⟩
    obtain ⟨hle, hpos, hend, hlast⟩ := framed_spec (hstart hzero) (Nat.pos_of_ne_zero hzero) hframed
    rw [hframed] at hwhole ⊢
    dsimp only at hwhole ⊢
    have hrest : (ib' + min cbNeeded cbSegRemain) + (cbNeeded - min cbNeeded cbSegRemain) ≤
        framedEnd n fFragmented' (cbNeeded - min cbNeeded cbSegRemain)
          (ib' + min cbNeeded cbSegRemain) :=
      le_framedEnd (by omega) fun hmore _ => by
        rw [Nat.min_eq_right (by omega)]
        exact hend
    rcases @frameRecord_spec s fAllocOnly logtime ib ib' ibLimit pos hroom
        ⟨k, hshifted, hin, hlimit⟩ fFragmented
        fFragmented' cbNeeded cbSegRemain (hstart hzero) (by omega) hframed with
      ⟨hnone, hover⟩ | ⟨k₁, pos₁, hsome, hshifted₁, hlimit₁, hin₁, hkept₁⟩
    · exact .inl ⟨by rw [hnone]; rfl, by omega⟩
    obtain ⟨rgdata', pos₂, hcopy, hsum, hshifted₂, hin₂, hkept₂⟩ :=
      @copyData_spec s fAllocOnly k₁ ib' ibLimit pos₁ rgdata cbNeeded cbSegRemain hshifted₁ hneeded
        hin₁
    have hat := hshifted₂.wrap hroom (by omega) hin₂
    rw [hsome]
    simp only [Option.bind_eq_bind, Option.bind_some, hcopy]
    rcases @ih (ib' + min cbNeeded cbSegRemain) (s.wrap pos₂) (cbNeeded - min cbNeeded cbSegRemain)
        fFragmented' rgdata'
        hat (fun hmore _ => by
          rw [Nat.min_eq_right (by omega)]
          exact hend) (by omega) hsum with hnone | ⟨pos', hsome', hat', hkept'⟩
    · exact .inl hnone
    · rw [rgb_wrap] at hkept'
      exact .inr ⟨pos', hsome', hat', hkept₁.trans (hkept₂.trans hkept' (by omega) (by omega)) hle
        (by omega)⟩

theorem addRecord_spec (hroom : s.Room ibLimit) (h : s.At ib ibLimit pos)
    (hspan : ibLimit ≤ ib + s.pLogBuffer.cbLGBuf) (rgdata : List (List Byte)) :
    (s.addRecord fAllocOnly logtime rgdata pos = none ∧
        ibLimit ≤ framedEnd ((rgdata.map List.length).sum + 1) false
        (rgdata.map List.length).sum ib) ∨
      ∃ pos', s.addRecord fAllocOnly logtime rgdata pos = some pos' ∧
        s.At (framedEnd ((rgdata.map List.length).sum + 1) false (rgdata.map List.length).sum ib)
        ibLimit pos' ∧
        s.Kept fAllocOnly ib
          (framedEnd ((rgdata.map List.length).sum + 1) false (rgdata.map List.length).sum ib)
          pos.rgb pos'.rgb := by
  have hno : ∀ {p : Prop}, false = true → p := fun h => absurd h Bool.false_ne_true
  unfold addRecord
  dsimp only
  by_cases hlarge : (rgdata.map List.length).sum ≥ s.pLogBuffer.cbLGBuf
  · have hle := @le_framedEnd ((rgdata.map List.length).sum + 1) false
      (rgdata.map List.length).sum ib
      (Nat.le_succ _) fun _ => hno
    rw [if_pos hlarge]
    exact .inl ⟨rfl, by omega⟩
  · rw [if_neg hlarge]
    exact addRecordLoop_spec hroom h (fun _ => hno) (Nat.lt_succ_self _) rfl

theorem addBatch_spec (hroom : s.Room ibLimit) (batch : List (List (List Byte)))
    (h : s.At ib ibLimit pos)
    (hspan : ibLimit ≤ ib + s.pLogBuffer.cbLGBuf) :
    (batch.foldlM (fun pos rgdata => s.addRecord fAllocOnly logtime rgdata pos) pos = none ∧
        ibLimit ≤ framedBatchEnd ib batch) ∨
      ∃ pos', batch.foldlM (fun pos rgdata => s.addRecord fAllocOnly logtime rgdata pos) pos =
        some pos' ∧
        s.At (framedBatchEnd ib batch) ibLimit pos' ∧
          s.Kept fAllocOnly ib (framedBatchEnd ib batch) pos.rgb pos'.rgb := by
  induction batch generalizing ib pos with
  | nil => exact .inr ⟨pos, rfl, h, .refl s ib ib pos.rgb⟩
  | cons rgdata batch ih =>
    have hfirst := @le_framedEnd ((rgdata.map List.length).sum + 1) false
      (rgdata.map List.length).sum ib
      (Nat.le_succ _) fun _ h => absurd h Bool.false_ne_true
    have hrest := le_framedBatchEnd batch
      (framedEnd ((rgdata.map List.length).sum + 1) false (rgdata.map List.length).sum ib)
    change _ ≤ framedBatchEnd ib (rgdata :: batch) at hrest
    rw [List.foldlM_cons]
    rcases @addRecord_spec s fAllocOnly logtime ib ibLimit pos hroom h hspan rgdata with
      ⟨hnone, hover⟩ | ⟨pos₁, hsome, hat, hkept⟩
    · exact .inl ⟨by rw [hnone]; rfl, by omega⟩
    · rw [hsome]
      simp only [Option.bind_eq_bind, Option.bind_some]
      rcases ih hat (by omega) with hnone | ⟨pos', hsome', hat', hkept'⟩
      · exact .inl hnone
      · exact .inr ⟨pos', hsome', hat', hkept.trans hkept' (by omega) (by omega)⟩

/-- The end of the room from `pbET` on. -/
def limit (s : LOG_WRITE_BUFFER) (pbET : Nat) : Nat :=
  if s.pbWrite ≤ pbET then s.pbWrite + s.pLogBuffer.cbLGBuf else s.pbWrite

/-- A batch ends where the framed batch does, or the framed batch does not leave a byte. -/
theorem flgiAddLogRec_spec {pbET : Nat} (hroom : s.Room (s.limit pbET))
    (hin : pbET < s.pLogBuffer.cbLGBuf)
    (cbLGSizeOfRec : List Byte → Nat) (rgdata : List (List Byte)) (rgb : Mem) {ibEnd : Nat}
    (hend : ibEnd = framedBatchEnd pbET (records cbLGSizeOfRec rgdata.length rgdata)) :
    (s.flgiAddLogRec fAllocOnly logtime cbLGSizeOfRec rgdata rgb pbET = none ∧
      s.limit pbET ≤ ibEnd) ∨
      ibEnd < s.limit pbET ∧
          ∃ rgb', s.flgiAddLogRec fAllocOnly logtime cbLGSizeOfRec rgdata rgb pbET =
          some (if ibEnd ≥ s.pLogBuffer.cbLGBuf then ibEnd - s.pLogBuffer.cbLGBuf else ibEnd,
          rgb') ∧
        s.Kept fAllocOnly pbET ibEnd rgb rgb' := by
  have hle : pbET ≤ s.limit pbET ∧ s.limit pbET ≤ pbET + s.pLogBuffer.cbLGBuf := by
    have hwrite := hroom.write_lt
    unfold limit
    split_ifs <;> omega
  have hat : s.At pbET (s.limit pbET) ⟨pbET, s.limit pbET, rgb⟩ :=
    ⟨0, ⟨.inl rfl, rfl, rfl⟩, hin, hle.1⟩
  have hrun : s.flgiAddLogRec fAllocOnly logtime cbLGSizeOfRec rgdata rgb pbET =
      ((records cbLGSizeOfRec rgdata.length rgdata).foldlM
        (fun pos rgdataRecord => s.addRecord fAllocOnly logtime rgdataRecord pos)
          ⟨pbET, s.limit pbET, rgb⟩).bind
          fun pos => if pos.pbET = pos.pbWrapWrite then none else some (pos.pbET, pos.rgb) := rfl
  rw [hrun]
  rcases @addBatch_spec s fAllocOnly logtime pbET (s.limit pbET) _ hroom
      (records cbLGSizeOfRec rgdata.length rgdata) hat hle.2 with ⟨hnone, hover⟩ |
      ⟨pos, hsome, hat', hkept⟩
  · rw [hnone, hend]
    exact .inl ⟨rfl, hover⟩
  · rw [← hend] at hat' hkept
    obtain ⟨k, ⟨hshift, hET, hwrap⟩, hin', hlimit⟩ := hat'
    rw [hsome, Option.bind_some]
    by_cases hfull : pos.pbET = pos.pbWrapWrite
    · rw [if_pos hfull]
      exact .inl ⟨rfl, by omega⟩
    · rw [if_neg hfull]
      have hpb : pos.pbET = if ibEnd ≥ s.pLogBuffer.cbLGBuf then ibEnd - s.pLogBuffer.cbLGBuf
        else ibEnd := by
        split_ifs <;> omega
      rw [hpb]
      exact .inr ⟨by omega, pos.rgb, rfl, hkept⟩

/-! ## Reservation and copy -/

/-- The bytes that the framed batch takes from `m_pbEntry` on. -/
def cbFramed (s : LOG_WRITE_BUFFER) (cbLGSizeOfRec : List Byte → Nat) (rgdata : List (List Byte)) :
    Nat :=
  framedBatchEnd s.pbEntry (records cbLGSizeOfRec rgdata.length rgdata) - s.pbEntry

theorem add_cbFramed (s : LOG_WRITE_BUFFER) (cbLGSizeOfRec : List Byte → Nat)
    (rgdata : List (List Byte)) :
    s.pbEntry + s.cbFramed cbLGSizeOfRec rgdata =
        framedBatchEnd s.pbEntry (records cbLGSizeOfRec rgdata.length rgdata) ∧
      ((∃ data ∈ rgdata, data ≠ []) → 0 < s.cbFramed cbLGSizeOfRec rgdata) := by
  have hle := le_framedBatchEnd (records cbLGSizeOfRec rgdata.length rgdata) s.pbEntry
  have hsum : ((records cbLGSizeOfRec rgdata.length rgdata).map fun rgdata =>
    (rgdata.map List.length).sum).sum =
      (rgdata.map List.length).sum := by
    conv_rhs => rw [← @flatten_records cbLGSizeOfRec rgdata.length rgdata le_rfl]
    rw [List.map_flatten, List.sum_flatten, List.map_map]
    rfl
  rw [hsum] at hle
  unfold cbFramed
  refine ⟨Nat.add_sub_of_le (by omega), fun ⟨data, hmem, hne⟩ => ?_⟩
  have hpos := List.length_pos_of_ne_nil hne
  have hdata :=
    List.single_le_sum (fun _ _ => Nat.zero_le _) _ (List.mem_map_of_mem (f := List.length) hmem)
  omega

theorem cbAvail_eq (hin : s.pbEntry < s.pLogBuffer.cbLGBuf) :
    s.limit s.pbEntry = s.pbEntry + s.cbAvail := by
  unfold limit cbAvail
  split_ifs <;> omega

theorem room_limit (hcb : s.pLogBuffer.cbLGBuf % 4096 = 0) (hwrite : s.pbWrite % 4096 = 0)
    (hlt : s.pbWrite < s.pLogBuffer.cbLGBuf) (pbET : Nat) : s.Room (s.limit pbET) := by
  refine ⟨hcb, hwrite, hlt, ?_⟩
  unfold limit
  split_ifs
  · exact .inr rfl
  · exact .inl rfl

/-- The space of a batch is found exactly if the framed batch leaves a byte. It is then free, and
the copy of the batch succeeds after any log writes, ends at the same position and writes only the
bytes of that space. -/
theorem reservation_and_copy_agree (cbLGSizeOfRec : List Byte → Nat) (logtime logtime' : Nat →
    BitVec 64)
    (rgdata : List (List Byte)) (rgb rgb' : Mem) (hcb : s.pLogBuffer.cbLGBuf % 4096 = 0)
    (hwrite : s.pbWrite % 4096 = 0) (hlt : s.pbWrite < s.pLogBuffer.cbLGBuf)
    (hin : s.pbEntry < s.pLogBuffer.cbLGBuf) :
    (s.flgiAddLogRec true logtime cbLGSizeOfRec rgdata rgb s.pbEntry = none ↔
      s.cbAvail ≤ s.cbFramed cbLGSizeOfRec rgdata) ∧
    ∀ pbET rgb₁, s.flgiAddLogRec true logtime cbLGSizeOfRec rgdata rgb s.pbEntry =
      some (pbET, rgb₁) →
      rgb₁ = rgb ∧ pbET = s.advance s.pbEntry (s.cbFramed cbLGSizeOfRec rgdata) ∧
      s.flgiIsFreeSpace s.pbEntry (s.cbFramed cbLGSizeOfRec rgdata) = true ∧
      (∀ pb, s.Between s.pbEntry (s.pbEntry + s.cbFramed cbLGSizeOfRec rgdata) pb → ¬ s.Used pb) ∧
      ((∃ data ∈ rgdata, data ≠ []) → pbET ≠ s.pbWrite ∧
        flgiIsUsedSpace { s with pbEntry := pbET } s.pbEntry (s.cbFramed cbLGSizeOfRec rgdata) =
        true) ∧
      ∀ s' : LOG_WRITE_BUFFER, s'.pLogBuffer.cbLGBuf = s.pLogBuffer.cbLGBuf →
        s'.pbWrite % 4096 = 0 →
        (∃ cbWritten ≤ s.cbUsed, s'.pbWrite = s.advance s.pbWrite cbWritten) →
        ∃ rgb₂, s'.flgiAddLogRec false logtime' cbLGSizeOfRec rgdata rgb' s.pbEntry =
          some (pbET, rgb₂) ∧
          ∀ pb, ¬ s.Between s.pbEntry (s.pbEntry + s.cbFramed cbLGSizeOfRec rgdata) pb →
            rgb₂ pb = rgb' pb := by
  obtain ⟨hend, hpos⟩ := s.add_cbFramed cbLGSizeOfRec rgdata
  have havail := cbAvail_eq hin
  have hfirst :=
    @flgiAddLogRec_spec s true logtime s.pbEntry (room_limit hcb hwrite hlt _) hin cbLGSizeOfRec
    rgdata rgb
    _ hend
  rw [havail] at hfirst
  refine ⟨?_, fun pbET rgb₁ heq => ?_⟩
  · rcases hfirst with ⟨hnone, hover⟩ | ⟨hroom, rgb', hsome, -⟩
    · exact iff_of_true hnone (by omega)
    · refine iff_of_false (fun hnone => ?_) (by omega)
      rw [hnone] at hsome
      cases hsome
  · rcases hfirst with ⟨hnone, -⟩ | ⟨hroom, rgb'', hsome, hkept⟩
    · rw [hnone] at heq
      cases heq
    rw [hsome] at heq
    obtain ⟨rfl, rfl⟩ := Prod.mk.inj (Option.some.inj heq)
    have hcbAvail := entry_add_cbAvail hin
    refine ⟨funext fun pb => hkept pb (.inl rfl), rfl, ?_, fun pb hbetween hused => ?_, fun hbyte =>
      ⟨?_, ?_⟩,
      fun s' hcb' hwrite' ⟨cbWritten, hwritten, hadvance⟩ => ?_⟩
    · unfold flgiIsFreeSpace
      by_cases hzero : s.cbFramed cbLGSizeOfRec rgdata = 0
      · rw [if_pos hzero]
      · rw [if_neg hzero, decide_eq_true_eq]
        unfold cbLGFree pbMaxPtrForUsed pbMaxWrite
        split_ifs at hcbAvail ⊢ <;> omega
    · unfold Between at hbetween
      unfold Used at hused
      split_ifs at hcbAvail hused <;> omega
    · have hpos := hpos hbyte
      split_ifs at hcbAvail ⊢ <;> omega
    · have hpos := hpos hbyte
      unfold flgiIsUsedSpace
      rw [if_neg (by omega), decide_eq_true_eq]
      unfold cbLGUsed pbMaxPtrForFree pbMaxEntry
      dsimp only
      split_ifs at hcbAvail ⊢ <;> omega
    · have hlt' : s'.pbWrite < s'.pLogBuffer.cbLGBuf := by
        rw [hadvance, hcb']
        unfold advance
        unfold cbUsed at hwritten
        split_ifs at hcbAvail ⊢ <;> omega
      have hlimit : s.pbEntry + s.cbAvail ≤ s'.limit s.pbEntry := by
        unfold limit
        rw [hadvance, hcb']
        unfold advance
        unfold cbUsed at hwritten
        split_ifs at hcbAvail ⊢ <;> omega
      have hsecond := @flgiAddLogRec_spec s' false logtime' s.pbEntry
        (room_limit (by rw [hcb']; exact hcb) hwrite' hlt' _)
        (by rw [hcb']; exact hin) cbLGSizeOfRec rgdata rgb' _ hend
      rcases hsecond with ⟨-, hover⟩ | ⟨-, rgb₂, hsome', hkept'⟩
      · omega
      · rw [hcb'] at hsome'
        refine ⟨rgb₂, hsome', fun pb hpb => hkept' pb (.inr fun hbetween => hpb ?_)⟩
        unfold Between at hbetween ⊢
        rwa [hcb'] at hbetween

end

/-- A record of 100 bytes that is fragmented at the end of a segment, and a segment written before
it is copied. -/
theorem reservation_and_copy_agree_fragmented :
    ∃ s : LOG_WRITE_BUFFER, s.pbWrite = 4096 ∧ s.pbEntry = 12246 ∧
      ∃ rgb₁, s.flgiAddLogRec true (fun _ => 0) List.length [List.replicate 100 1]
          (fun _ => 0) s.pbEntry =
          some (12396, rgb₁) ∧
        12396 ≠ s.pbWrite ∧
        ∃ rgb₂, flgiAddLogRec { s with pbWrite := 8192 } false (fun _ => 0) List.length
          [List.replicate 100 1]
          (fun _ => 0) s.pbEntry = some (12396, rgb₂) := by
  let s : LOG_WRITE_BUFFER := ⟨⟨65536, 0, 65535, fun _ => true⟩, 4096, 12246⟩
  obtain ⟨hroom, hcopy⟩ := @reservation_and_copy_agree s List.length (fun _ => 0) (fun _ => 0)
    [List.replicate 100 1]
    (fun _ => 0) (fun _ => 0) (by decide) (by decide) (by decide) (by decide)
  cases hfirst : s.flgiAddLogRec true (fun _ => 0) List.length [List.replicate 100 1]
    (fun _ => 0) s.pbEntry with
  | none => exact absurd (hroom.1 hfirst) (by decide)
  | some r =>
    obtain ⟨-, hend, -, -, hbyte, hsecond⟩ := hcopy r.1 r.2 hfirst
    have hET : r.1 = 12396 := hend.trans (by decide)
    obtain ⟨rgb₂, hsome, -⟩ :=
      hsecond { s with pbWrite := 8192 } rfl (by decide) ⟨4096, by decide, by decide⟩
    obtain ⟨hne, -⟩ := hbyte ⟨List.replicate 100 1, List.mem_singleton.2 rfl, by decide⟩
    rw [hET] at hsome hne
    exact ⟨s, rfl, rfl, r.2, by rw [hfirst, ← hET], hne, rgb₂, hsome⟩

end LOG_WRITE_BUFFER

end Ese.LogBuffer
