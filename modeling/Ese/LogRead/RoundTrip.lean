import Ese.LogBuffer.Framing
import Ese.LogRead.Safety

/-!
# Reading framed log records

What `FLGIAddLogRec` puts into the log `ErrLGGetNextRecFF` gets out of it: from a position on at
which the log has the bytes of framed records, the calls return the records one after the other, put
together where they are fragmented, and then that there are no more. Of a record it is asked that
its type is not one of the types of frames, and that it has the size that `CbLGSizeOfRec` computes.
-/

namespace Ese.LogRead

open Ese.Log (LOG_SEGMENT_SIZE cbLGSEGHDR)
open Ese.LogBuffer

/-! ## Records -/

/-- The bytes of a record, as they are read. -/
def lrMem (data : List Byte) : Mem := fun ib => data.getD ib 0

/-- A log record as it is written. -/
structure ValidLR (data : List Byte) : Prop where
  nonempty : data ≠ []
  typ : lrMem data 0 ≠ lrtypFragmentBegin ∧ lrMem data 0 ≠ lrtypFragment ∧ lrMem data 0 ≠ lrtypNOP
  size : LOG_FILE.FAssembledValid (lrMem data) data.length

section
variable {rgb rgb' : Mem} {pb pb' cb : Nat}

/-- The size of a record is computed from its own bytes. -/
theorem cbLGSizeOfRec_congr (hmax : (rgb pb).toNat < lrtypMax)
    (hfixed : cbLGFixedSizeOfRec rgb pb ≤ cb) (hcb : 0 < cb)
    (h : ∀ i < cb, rgb' (pb' + i) = rgb (pb + i)) :
      cbLGSizeOfRec rgb' pb' = cbLGSizeOfRec rgb pb := by
  have htyp : rgb' pb' = rgb pb := h 0 hcb
  unfold cbLGSizeOfRec
  rw [htyp]
  cases hfields : sizeFields (rgb pb).toNat with
  | none => rfl
  | some rule =>
    by_cases hrecord : mplrtyplrd.getD (rgb pb).toNat 0 ≠ 0
    · rw [if_pos hrecord, if_pos hrecord]
    rw [if_neg hrecord, if_neg hrecord]
    have hmap : rule.2.map (SizeField.value rgb' pb') = rule.2.map (SizeField.value rgb pb) := by
      refine List.map_congr_left fun field hfield => congrArg (fun l => field.cbOf (leNat l)) ?_
      have hread : (field.ib, field.cb) ∈ sizeReads (rgb pb).toNat := by
        unfold sizeReads
        rw [if_neg hrecord, hfields]
        exact List.mem_cons_of_mem _
          (List.mem_map_of_mem (f := fun field : SizeField => (field.ib, field.cb)) hfield)
      have hinside : field.ib + field.cb ≤ cb := by
        rcases sizeReads_inside hmax hread with heq | hle
        · obtain ⟨hib, hcb'⟩ := Prod.mk.inj heq
          omega
        · exact hle.trans hfixed
      refine List.map_congr_left fun k hk => ?_
      rw [List.mem_range] at hk
      rw [Nat.add_assoc, Nat.add_assoc]
      exact h _ (by omega)
    simp only [hmap]

theorem lrMem_apply {data : List Byte} (h : rgb.Holds pb data) {i : Nat} (hi : i < data.length) :
    rgb (pb + i) = lrMem data i := by
  have hread := Mem.getElem_read rgb pb data.length i (by rwa [Mem.length_read])
  unfold lrMem
  rw [List.getD_eq_getElem _ _ hi, ← hread]
  simp only [show rgb.read pb data.length = data from h]

/-- A record that is in memory is valid there. -/
theorem ValidLR.at {data : List Byte} (hlr : ValidLR data) (h : rgb.Holds pb data) :
    rgb pb = lrMem data 0 ∧ (rgb pb).toNat < lrtypMax ∧ cbLGFixedSizeOfRec rgb pb ≤ data.length ∧
      cbLGSizeOfRec rgb pb = data.length := by
  obtain ⟨hmax, hfixed, hsize⟩ := hlr.size
  have hpos := List.length_pos_of_ne_nil hlr.nonempty
  have htyp : rgb pb = lrMem data 0 := lrMem_apply h hpos
  have hfixed' : cbLGFixedSizeOfRec rgb pb ≤ data.length := by
    unfold cbLGFixedSizeOfRec at hfixed ⊢
    rwa [htyp]
  have hcongr : cbLGSizeOfRec rgb pb = cbLGSizeOfRec (lrMem data) 0 :=
    cbLGSizeOfRec_congr hmax hfixed hpos fun i hi => by
      rw [lrMem_apply h hi, Nat.zero_add]
  exact ⟨htyp, htyp ▸ hmax, hfixed', hcongr.trans hsize⟩

theorem ValidLR.length_lt {data : List Byte} (hlr : ValidLR data) : data.length < 256 ^ 4 := by
  obtain ⟨hmax, hfixed, hsize⟩ := hlr.size
  rw [← hsize]
  unfold cbLGSizeOfRec
  have htable : ∀ lrtyp < 102, mplrtyplrd.getD lrtyp 0 < 256 ^ 4 := by decide +kernel
  split_ifs
  · exact Nat.pow_pos (by decide)
  · exact htable _ hmax
  · cases sizeFields (lrMem data 0).toNat with
    | none => exact Nat.pow_pos (by decide)
    | some rule => exact Nat.mod_lt _ (Nat.pow_pos (by decide))

end

/-- The bytes of the record that a call has returned. -/
def RECORD.data (rgb : Mem) (assembledLR : AssembledLR) : RECORD → List Byte
  | .segment pb => rgb.read pb (cbLGSizeOfRec rgb pb)
  | .assembled => assembledLR.pv.read 0 (cbLGSizeOfRec assembledLR.pv 0)

namespace LOG_FILE

/-- The segments of a file can be read, and there is memory for every record. -/
structure Readable (log : LOG_FILE) : Prop where
  cbSec : log.cbSec = LOG_SEGMENT_SIZE
  sector : ∀ isec, log.errSector isec = none
  alloc : ∀ cb, log.fAlloc cb = true

section
variable {log : LOG_FILE} {fPreread : Bool} {r : LOG_READ_BUFFER} {s : Scan} {data seen : List Byte}
    {ib n : Nat}

/-! ## Turns at framed bytes -/

theorem Readable.turn_eq (h : log.Readable) (hlt : s.pbCurrent < log.lgposLastRec) :
    (log.turn s).2 = (log.switch (log.pbSegment s.pbCurrent) (log.skip s)).2 := by
  unfold turn
  rw [if_neg (by omega), h.sector]

/-- The position behind the header, and the bytes from it to the end of the segment. -/
theorem Readable.skip_eq (h : log.Readable) (s : Scan) :
    log.skip s = { s with pbCurrent := (segmentBegun s.pbCurrent).2 } ∧
      log.cbLeft (log.pbSegment s.pbCurrent) (log.skip s) = (segmentBegun s.pbCurrent).1 ∧
      log.pbSegment s.pbCurrent + log.cbSec = (segmentBegun s.pbCurrent).2 +
        (segmentBegun s.pbCurrent).1 ∧
      (segmentBegun s.pbCurrent).1 ≤ 4096 := by
  have hskip : log.pbSkipHeader s.pbCurrent = (segmentBegun s.pbCurrent).2 := by
    unfold pbSkipHeader pbSegment segmentBegun
    rw [h.cbSec]
    unfold LOG_SEGMENT_SIZE cbLGSEGHDR
    dsimp only
    split_ifs <;> dsimp only <;> omega
  have hsegment : log.pbSegment s.pbCurrent + log.cbSec = (segmentBegun s.pbCurrent).2 +
    (segmentBegun s.pbCurrent).1 := by
    unfold pbSegment segmentBegun
    rw [h.cbSec]
    unfold LOG_SEGMENT_SIZE cbLGSEGHDR
    dsimp only
    split_ifs <;> dsimp only <;> omega
  refine ⟨?_, ?_, hsegment, ?_⟩
  · unfold skip
    rw [hskip]
  · unfold cbLeft skip
    dsimp only
    rw [hskip, hsegment, Nat.add_sub_cancel_left]
  · unfold segmentBegun LOG_SEGMENT_SIZE
    dsimp only
    split_ifs <;> dsimp only <;> omega

theorem cbNOP_replicate {pb cb : Nat} (h : log.rgb.Holds pb (List.replicate cb lrtypNOP)) :
    log.cbNOP pb cb = cb := by
  induction cb generalizing pb with
  | zero => rfl
  | succ cb ih =>
    rw [List.replicate_succ, Mem.holds_cons] at h
    rw [cbNOP, if_pos h.1, ih h.2]

/-- The NOPs at the end of a segment are skipped. -/
theorem Readable.turn_nop (h : log.Readable) (hlt : s.pbCurrent < log.lgposLastRec)
    (hpos : 0 < (segmentBegun s.pbCurrent).1)
    (hnop : log.rgb.Holds (segmentBegun s.pbCurrent).2
      (List.replicate (segmentBegun s.pbCurrent).1 lrtypNOP)) :
    (log.turn s).2 =
      .next { s with pbCurrent := (segmentBegun s.pbCurrent).2 + (segmentBegun s.pbCurrent).1 } :=
        by
  obtain ⟨hskip, hleft, -, -⟩ := h.skip_eq s
  have hfirst : log.rgb (segmentBegun s.pbCurrent).2 = lrtypNOP := by
    obtain ⟨cb, hcb⟩ := Nat.exists_eq_succ_of_ne_zero (Nat.pos_iff_ne_zero.1 hpos)
    rw [hcb, List.replicate_succ, Mem.holds_cons] at hnop
    exact hnop.1
  rw [h.turn_eq hlt]
  unfold switch nop
  rw [hleft, hskip]
  dsimp only
  rw [hfirst, if_neg (by decide), if_neg (by decide), if_pos rfl, cbNOP_replicate hnop]

/-- A fragmented record begins. -/
theorem Readable.turn_fragmentBegin (h : log.Readable) (hlt : s.pbCurrent < log.lgposLastRec)
    (hout : s.fInFragment = false)
    {cbTotal cb : Nat} (hcb : (segmentBegun s.pbCurrent).1 = cb + 7) (hmore : cb < cbTotal)
    (htotal : cbTotal < 256 ^ 4)
    (hbegin : log.rgb.Holds (segmentBegun s.pbCurrent).2 (lrFragmentBegin cbTotal cb)) :
    ∃ assembledLR : AssembledLR, cbTotal ≤ assembledLR.cb ∧
      assembledLR.pv.read 0 cb = log.rgb.read ((segmentBegun s.pbCurrent).2 + 7) cb ∧
      (log.turn s).2 = .next
        { s with
          pbCurrent := (segmentBegun s.pbCurrent).2 + 7 + cb
          fSkipPartialLR := false
          fInFragment := true
          cbTotalFragment := cbTotal
          cbFragmentSeen := cb
          assembledLR := assembledLR } := by
  obtain ⟨hskip, hleft, hend, hsize⟩ := h.skip_eq s
  unfold lrFragmentBegin at hbegin
  rw [Mem.holds_cons, Mem.holds_append, length_leBytes] at hbegin
  obtain ⟨htyp, htotalAt, hcbAt⟩ := hbegin
  change log.rgb (segmentBegun s.pbCurrent).2 = lrtypFragmentBegin at htyp
  have hcbTotal : log.cbTotalLRSize (log.skip s) = cbTotal := by
    unfold Mem.Holds at htotalAt
    rw [length_leBytes] at htotalAt
    rw [cbTotalLRSize, hskip, Mem.toNat_readU32, htotalAt, leNat_leBytes htotal]
  have hcbFragment : log.cbFragmentBegin (log.skip s) = cb := by
    unfold Mem.Holds at hcbAt
    rw [length_leBytes, Nat.add_assoc] at hcbAt
    rw [cbFragmentBegin, hskip, Mem.toNat_readU16, hcbAt, leNat_leBytes (by omega)]
  have hrefused : ¬ log.FBeginRefused (log.pbSegment s.pbCurrent) (log.skip s) := fun hrefused => by
    have hin := hrefused.1
    rw [hskip] at hin
    exact absurd (hout.symm.trans hin) Bool.false_ne_true
  have hbuffer : log.FBuffer (log.skip s) cbTotal := .inr (h.alloc _)
  rw [h.turn_eq hlt]
  unfold switch fragmentBegin
  rw [if_neg hrefused, hcbTotal, hcbFragment, hleft]
  dsimp only
  rw [if_neg (not_not_intro hbuffer),
    if_neg (by omega : ¬ (cb ≥ cbTotal ∨ cb > (segmentBegun s.pbCurrent).1))]
  rw [hskip]
  dsimp only
  rw [if_pos htyp, if_neg (by unfold cbLRFRAGMENTBEGIN; omega)]
  refine ⟨_, ?_, ?_, rfl⟩
  · exact le_allocAssembled hbuffer
  · have hwrite := Mem.read_write_same (log.allocAssembled (log.skip s) cbTotal).pv 0
      (log.rgb.read ((segmentBegun s.pbCurrent).2 + 7) cb)
    rw [Mem.length_read, hskip] at hwrite
    exact hwrite

/-- A fragmented record goes on: it is complete if no byte is needed any more. -/
theorem Readable.turn_fragment (h : log.Readable) (hlt : s.pbCurrent < log.lgposLastRec)
    (hin : s.fInFragment = true)
    (hskips : s.fSkipPartialLR = false) {cbNeeded cb : Nat}
    (htotal : s.cbTotalFragment = s.cbFragmentSeen + cbNeeded)
    (hcb : cb ≤ cbNeeded) (hroom : cb + 3 ≤ (segmentBegun s.pbCurrent).1)
    (hheld : log.rgb.Holds (segmentBegun s.pbCurrent).2 (lrFragment cb)) {pv : Mem}
    (hpv : s.assembledLR.pv.write s.cbFragmentSeen
      (log.rgb.read ((segmentBegun s.pbCurrent).2 + 3) cb) = pv) {s' : Scan}
    (hs' : s' = { s with
      pbCurrent := (segmentBegun s.pbCurrent).2 + 3 + cb
      cbFragmentSeen := s.cbFragmentSeen + cb
      assembledLR := { s.assembledLR with pv := pv } }) :
    (cb = cbNeeded → FAssembledValid pv s.cbTotalFragment →
      (log.turn s).2 = .record .assembled ((segmentBegun s.pbCurrent).2 + 3 + cb) s') ∧
    (cb < cbNeeded → (log.turn s).2 = .next s') := by
  obtain ⟨hskip, hleft, hend, hsize⟩ := h.skip_eq s
  unfold lrFragment at hheld
  rw [Mem.holds_cons] at hheld
  obtain ⟨htyp, hcbAt⟩ := hheld
  change log.rgb (segmentBegun s.pbCurrent).2 = lrtypFragment at htyp
  have hcbFragment : log.cbFragment (log.skip s) = cb := by
    unfold Mem.Holds at hcbAt
    rw [length_leBytes] at hcbAt
    rw [cbFragment, hskip, Mem.toNat_readU16, hcbAt, leNat_leBytes (by omega)]
  have hgoesOn : ¬ (s.fInFragment = false ∨
      (segmentBegun s.pbCurrent).2 + cbLRFRAGMENT > log.pbSegment s.pbCurrent + log.cbSec) := by
    rintro (hno | hover)
    · exact absurd (hno.symm.trans hin) Bool.false_ne_true
    · unfold cbLRFRAGMENT at hover
      omega
  rw [h.turn_eq hlt]
  unfold switch fragment
  rw [hcbFragment, hleft]
  rw [hskip]
  dsimp only
  rw [htyp, if_neg (by decide), if_pos rfl, if_neg (by rw [hskips]; exact Bool.false_ne_true),
    if_neg hgoesOn, if_neg (by omega)]
  have hread : log.rgb.read ((segmentBegun s.pbCurrent).2 + cbLRFRAGMENT) cb =
      log.rgb.read ((segmentBegun s.pbCurrent).2 + 3) cb := rfl
  rw [hread, hpv]
  refine ⟨fun heq hvalid => ?_, fun hmore => ?_⟩
  · rw [if_pos (by omega), if_pos hvalid, hs']
    rfl
  · rw [if_neg (by omega), hs']
    rfl

/-- A record that is not fragmented is returned where it is. -/
theorem Readable.turn_regular (h : log.Readable) (hlt : s.pbCurrent < log.lgposLastRec)
    (hout : s.fInFragment = false)
    (hlr : ValidLR data) (hroom : data.length ≤ (segmentBegun s.pbCurrent).1)
    (hheld : log.rgb.Holds (segmentBegun s.pbCurrent).2 data) :
    (log.turn s).2 = .record (.segment (segmentBegun s.pbCurrent).2)
      ((segmentBegun s.pbCurrent).2 + data.length)
      { s with pbCurrent := (segmentBegun s.pbCurrent).2 } := by
  obtain ⟨hskip, hleft, -, -⟩ := h.skip_eq s
  obtain ⟨htyp, hmax, hfixed, hsize⟩ := hlr.at hheld
  obtain ⟨hbegin, hfragment, hnop⟩ := hlr.typ
  rw [← htyp] at hbegin hfragment hnop
  rw [h.turn_eq hlt]
  unfold switch regular
  rw [hleft, hskip]
  dsimp only
  rw [if_neg hbegin, if_neg hfragment, if_neg hnop, hout,
    if_neg (fun hno => absurd hno.1 Bool.false_ne_true),
    if_neg (by omega), hsize, if_neg (by omega)]
  rfl

/-! ## A call -/

/-- A call returns a record, and has the position behind it. -/
def Returns (fPreread : Bool) (log : LOG_FILE) (data : List Byte) (pbNext pbNextNext : Nat)
    (call : List Access × Result × LOG_READ_BUFFER) : Prop :=
  ∃ plr, call.2.1 = .record plr ∧ plr.data log.rgb (call.2.2.assembledLR fPreread) = data ∧
    call.2.2.pbNext = pbNext ∧ call.2.2.pbNextNext = some pbNextNext

theorem Returns.next {pbNext pbNextNext : Nat} {s' : Scan} (h : (log.turn s).2 = .next s')
    (hreturns : Returns fPreread log data pbNext pbNextNext (log.getRecord fPreread r n s')) :
    Returns fPreread log data pbNext pbNextNext (log.getRecord fPreread r (n + 1) s) := by
  rw [getRecord_next h]
  exact hreturns

theorem Returns.record {plr : RECORD} {pbNext pbNextNext : Nat} {s' : Scan}
    (h : (log.turn s).2 = .record plr pbNextNext s') (hnext : s'.pbNext = pbNext)
    (hdata : plr.data log.rgb s'.assembledLR = data) :
    Returns fPreread log data pbNext pbNextNext (log.getRecord fPreread r (n + 1) s) := by
  rw [getRecord_record h]
  refine ⟨plr, rfl, ?_, hnext, rfl⟩
  rw [update]
  dsimp only
  rwa [Function.update_self]

/-- Within a fragmented record, at the begin of a segment, with the bytes seen so far in the
buffer. -/
structure Continues (s : Scan) (seen data : List Byte) : Prop where
  segment : s.pbCurrent % 4096 = 0
  fSkipPartialLR : s.fSkipPartialLR = false
  fInFragment : s.fInFragment = true
  total : s.cbTotalFragment = s.cbFragmentSeen + data.length
  cbFragmentSeen : s.cbFragmentSeen = seen.length
  held : s.assembledLR.pv.Holds 0 seen

/-- The rest of a fragmented record is put together. -/
theorem Readable.getRecord_fragments (h : log.Readable) (hlr : ValidLR (seen ++ data))
    (hdata : data ≠ [])
    (hn : data.length < n) (hs : Continues s seen data)
    (hheld : log.rgb.HoldsSome s.pbCurrent (recordBytes n true data s.pbCurrent))
    (hlast : framedEnd n true data.length s.pbCurrent ≤ log.lgposLastRec) {turns : Nat}
    (hturns : log.lgposLastRec - s.pbCurrent < turns) :
    Returns fPreread log (seen ++ data) s.pbNext (framedEnd n true data.length s.pbCurrent)
      (log.getRecord fPreread r turns s) := by
  induction n generalizing s seen data turns with
  | zero => omega
  | succ n ih =>
    have hpos := List.length_pos_of_ne_nil hdata
    have hzero : data.length ≠ 0 := by omega
    have hbegun : segmentBegun s.pbCurrent = (4056, s.pbCurrent + 40) := by
      rw [segmentBegun, LOG_SEGMENT_SIZE, hs.segment]
      rfl
    have hframed : framed true data.length s.pbCurrent = (true, 4053, s.pbCurrent + 40 + 3) := by
      rw [framed, hbegun]
      rfl
    have hframe : frameBytes true data.length s.pbCurrent =
        List.replicate 40 none ++ (lrFragment (min data.length 4053)).map some := by
      have hgap : segmentGap s.pbCurrent = List.replicate 40 none := by
        rw [segmentGap, LOG_SEGMENT_SIZE, hs.segment]
        rfl
      rw [frameBytes, hgap, hbegun]
      rfl
    have hwhole := @le_framedEnd (n + 1) true data.length s.pbCurrent hn.le fun _ _ => hs.segment
    have hlt : s.pbCurrent < log.lgposLastRec := by omega
    have hlength : (lrFragment (min data.length 4053)).length = 3 := by simp [lrFragment]
    obtain ⟨turns, rfl⟩ : ∃ m, turns = m + 1 := ⟨turns - 1, by omega⟩
    rw [framedEnd, if_neg hzero, hframed] at hlast ⊢
    rw [recordBytes, if_neg hzero, hframed, hframe] at hheld
    dsimp only at hlast hheld ⊢
    obtain ⟨⟨-, hfragment⟩, hbytes⟩ :=
      (Mem.holdsSome_append.1 hheld).imp_left Mem.holdsSome_append.1
    rw [List.length_append, List.length_replicate, List.length_map, hlength, Mem.holdsSome_append,
      List.length_map,
      List.length_take, ← Nat.add_assoc] at hbytes
    rw [List.length_replicate] at hfragment
    obtain ⟨hbytes, hrest⟩ := hbytes
    rw [Mem.holdsSome_map] at hfragment hbytes
    have hread : log.rgb.read (s.pbCurrent + 40 + 3) (min data.length 4053) = data.take 4053 := by
      unfold Mem.Holds at hbytes
      rwa [List.length_take, Nat.min_comm] at hbytes
    have hwritten : (s.assembledLR.pv.write s.cbFragmentSeen (data.take 4053)).Holds 0
      (seen ++ data.take 4053) := by
      refine Mem.holds_append.2 ⟨?_, ?_⟩
      · unfold Mem.Holds
        rw [Mem.read_write_disjoint _ _ (.inl (by rw [hs.cbFragmentSeen, Nat.zero_add]))]
        exact hs.held
      · rw [Nat.zero_add, ← hs.cbFragmentSeen]
        exact Mem.holds_write _ _ _
    have hroom : min data.length 4053 + 3 ≤ (segmentBegun s.pbCurrent).1 := by
      rw [hbegun]
      exact Nat.add_le_add_right (Nat.min_le_right _ _) 3
    obtain ⟨hcomplete, hmore⟩ := h.turn_fragment hlt hs.fInFragment hs.fSkipPartialLR hs.total
      (Nat.min_le_left _ _)
      hroom (by rwa [hbegun])
      (show _ = s.assembledLR.pv.write s.cbFragmentSeen (data.take 4053) by rw [hbegun, hread]) rfl
    rw [hbegun] at hcomplete hmore
    dsimp only at hcomplete hmore
    rcases Nat.lt_or_ge 4053 data.length with hlong | hshort
    · rw [Nat.min_eq_right hlong.le] at hmore hlast hrest ⊢
      have hdrop : (data.drop 4053).length = data.length - 4053 := List.length_drop
      refine .next (hmore hlong) ?_
      rw [← hdrop] at hlast ⊢
      rw [Nat.min_eq_left hlong.le] at hrest
      have hall : (seen ++ data.take 4053) ++ data.drop 4053 = seen ++ data := by
        rw [List.append_assoc, List.take_append_drop]
      have hsegment := hs.segment
      have htotal := hs.total
      have hcontinues : Continues
          { s with
            pbCurrent := s.pbCurrent + 40 + 3 + 4053
            cbFragmentSeen := s.cbFragmentSeen + 4053
            assembledLR :=
              { s.assembledLR with pv := s.assembledLR.pv.write s.cbFragmentSeen (data.take 4053) }
                }
          (seen ++ data.take 4053) (data.drop 4053) := by
        refine ⟨?_, hs.fSkipPartialLR, hs.fInFragment, ?_, ?_, hwritten⟩
        · dsimp only
          omega
        · dsimp only
          omega
        · dsimp only
          rw [List.length_append, List.length_take, hs.cbFragmentSeen]
          omega
      rw [← hall]
      exact ih (by rwa [hall]) (List.ne_nil_of_length_pos (by omega))
        (by omega) hcontinues hrest hlast
        (by dsimp only; omega)
    · rw [Nat.min_eq_left hshort] at hcomplete ⊢
      rw [List.take_of_length_le hshort] at hwritten hcomplete
      have hzero' : framedEnd n true (data.length - data.length)
          (s.pbCurrent + 40 + 3 + data.length) =
          s.pbCurrent + 40 + 3 + data.length := by
        rw [Nat.sub_self]
        cases n <;> rfl
      have hat := hlr.at hwritten
      have hsize : (seen ++ data).length = s.cbTotalFragment := by
        rw [List.length_append, hs.total, hs.cbFragmentSeen]
      rw [hzero']
      refine .record (hcomplete rfl ?_) rfl ?_
      · rw [← hsize]
        exact ⟨hat.2.1, hat.2.2.1, hat.2.2.2⟩
      · unfold RECORD.data
        dsimp only
        rw [hat.2.2.2]
        exact hwritten

/-- A record at a position from which on the segment is not filled: it is returned where it is, or
put together. -/
theorem Readable.getRecord_unfilled (h : log.Readable) (hlr : ValidLR data) (hn : data.length < n)
    (hout : s.fInFragment = false) (hfill : ¬ Fills data.length s.pbCurrent)
    (hheld : log.rgb.HoldsSome s.pbCurrent (recordBytes n false data s.pbCurrent))
    (hlast : framedEnd n false data.length s.pbCurrent ≤ log.lgposLastRec) {turns : Nat}
    (hturns : log.lgposLastRec - s.pbCurrent < turns) :
    Returns fPreread log data s.pbNext (framedEnd n false data.length s.pbCurrent)
      (log.getRecord fPreread r turns s) := by
  have hpos := List.length_pos_of_ne_nil hlr.nonempty
  have hzero : data.length ≠ 0 := by omega
  obtain ⟨n, rfl⟩ : ∃ m, n = m + 1 := ⟨n - 1, by omega⟩
  obtain ⟨turns, rfl⟩ : ∃ m, turns = m + 1 := ⟨turns - 1, by omega⟩
  have hwhole := @le_framedEnd (n + 1) false data.length s.pbCurrent hn.le fun _ hno =>
    absurd hno Bool.false_ne_true
  have hlt : s.pbCurrent < log.lgposLastRec := by omega
  obtain ⟨-, -, hsegment, -⟩ := h.skip_eq s
  have hgap := add_length_segmentGap s.pbCurrent
  obtain ⟨cbSegRemain, ib, hbegun⟩ : ∃ cb ib, segmentBegun s.pbCurrent = (cb, ib) := ⟨_, _, rfl⟩
  have hfill' : ¬ (cbSegRemain < data.length ∧ cbSegRemain < LOG_MIN_FRAGMENT_SIZE) := by
    unfold Fills at hfill
    rwa [hbegun] at hfill
  have hframed : framed false data.length s.pbCurrent =
      if cbSegRemain < data.length then (true, cbSegRemain - 7, ib + 7)
      else (false, cbSegRemain, ib) := by
    rw [framed, hbegun]
    simp only [Bool.false_eq_true, if_false, if_neg hfill']
    rfl
  have hframe : frameBytes false data.length s.pbCurrent =
      segmentGap s.pbCurrent ++ beginBytes data.length cbSegRemain := by
    rw [frameBytes, hbegun]
    simp only [Bool.false_eq_true, if_false, if_neg hfill']
  rw [framedEnd, if_neg hzero, hframed] at hlast ⊢
  rw [recordBytes, if_neg hzero, hframed, hframe] at hheld
  rw [hbegun] at hgap hsegment
  dsimp only at hgap hsegment
  rcases Nat.lt_or_ge cbSegRemain data.length with hmore | hroom
  · rw [if_pos hmore] at hlast hheld ⊢
    dsimp only at hlast hheld ⊢
    have hmin : 32 ≤ cbSegRemain := Nat.le_of_not_lt fun hlt => hfill' ⟨hmore, hlt⟩
    obtain ⟨⟨-, hbegin⟩, hbytes⟩ := (Mem.holdsSome_append.1 hheld).imp_left Mem.holdsSome_append.1
    have hlength : (lrFragmentBegin data.length (cbSegRemain - 7)).length = 7 := by
      simp [lrFragmentBegin]
    have htake : (data.take (cbSegRemain - 7)).length = cbSegRemain - 7 := by
      rw [List.length_take]
      omega
    rw [beginBytes, if_pos hmore] at hbegin hbytes
    unfold cbLRFRAGMENTBEGIN at hbegin hbytes
    rw [hgap] at hbegin
    rw [List.length_append, ← Nat.add_assoc, hgap, List.length_map, hlength, Mem.holdsSome_append,
      List.length_map,
      htake, Nat.min_eq_right (by omega : cbSegRemain - 7 ≤ data.length)] at hbytes
    obtain ⟨hbytes, hrest⟩ := hbytes
    rw [Mem.holdsSome_map] at hbegin hbytes
    have hread : log.rgb.read (ib + 7) (cbSegRemain - 7) = data.take (cbSegRemain - 7) := by
      unfold Mem.Holds at hbytes
      rwa [htake] at hbytes
    obtain ⟨assembledLR, hcb, hpv, hturn⟩ :=
      h.turn_fragmentBegin hlt hout (show _ = cbSegRemain - 7 + 7 by
      rw [hbegun]
      omega) (show cbSegRemain - 7 < data.length by omega) hlr.length_lt (by rwa [hbegun])
    rw [hbegun] at hpv hturn
    dsimp only at hpv hturn
    rw [Nat.min_eq_right (by omega : cbSegRemain - 7 ≤ data.length)] at hlast ⊢
    have hdrop : (data.drop (cbSegRemain - 7)).length = data.length - (cbSegRemain - 7) :=
      List.length_drop
    have hall := List.take_append_drop (cbSegRemain - 7) data
    rw [← hdrop] at hlast ⊢
    refine .next hturn ?_
    have hcontinues : Continues
        { s with
          pbCurrent := ib + 7 + (cbSegRemain - 7)
          fSkipPartialLR := false
          fInFragment := true
          cbTotalFragment := data.length
          cbFragmentSeen := cbSegRemain - 7
          assembledLR := assembledLR }
        (data.take (cbSegRemain - 7)) (data.drop (cbSegRemain - 7)) := by
      have hcbSec := h.cbSec
      have hmod : log.pbSegment s.pbCurrent % 4096 = 0 := by
        unfold pbSegment
        rw [hcbSec]
        exact Nat.mul_mod_left _ _
      unfold LOG_SEGMENT_SIZE at hcbSec
      refine ⟨?_, rfl, rfl, ?_, htake.symm, ?_⟩
      · dsimp only
        omega
      · dsimp only
        omega
      · unfold Mem.Holds
        rw [htake, hpv, hread]
    have hreturns := @Readable.getRecord_fragments log fPreread r _ (data.drop (cbSegRemain - 7))
      (data.take (cbSegRemain - 7)) n h (by rwa [hall]) (List.ne_nil_of_length_pos (by omega))
      (by omega) hcontinues
      hrest hlast turns (by dsimp only; omega)
    rwa [hall] at hreturns
  · rw [if_neg (Nat.not_lt.2 hroom)] at hlast hheld ⊢
    dsimp only at hlast hheld ⊢
    rw [beginBytes, if_neg (Nat.not_lt.2 hroom), List.append_nil, List.take_of_length_le hroom,
      Mem.holdsSome_append,
      hgap, Mem.holdsSome_append, Mem.holdsSome_map] at hheld
    have hregular := h.turn_regular hlt hout hlr (by rwa [hbegun]) (by rw [hbegun]; exact hheld.2.1)
    rw [hbegun] at hregular
    have hend : framedEnd n false (data.length - min data.length cbSegRemain)
        (ib + min data.length cbSegRemain) =
        ib + data.length := by
      rw [Nat.min_eq_left hroom, Nat.sub_self]
      cases n <;> rfl
    rw [hend]
    refine .record hregular rfl ?_
    unfold RECORD.data
    dsimp only
    rw [(hlr.at hheld.2.1).2.2.2]
    exact hheld.2.1

/-- A record at any position: the segment may be filled first. -/
theorem Readable.getRecord_recordBytes (h : log.Readable) (hlr : ValidLR data)
    (hn : data.length < n)
    (hout : s.fInFragment = false)
    (hheld : log.rgb.HoldsSome s.pbCurrent (recordBytes n false data s.pbCurrent))
    (hlast : framedEnd n false data.length s.pbCurrent ≤ log.lgposLastRec) {turns : Nat}
    (hturns : log.lgposLastRec - s.pbCurrent < turns) :
    Returns fPreread log data s.pbNext (framedEnd n false data.length s.pbCurrent)
      (log.getRecord fPreread r turns s) := by
  by_cases hfill : Fills data.length s.pbCurrent
  · obtain ⟨n, rfl⟩ : ∃ m, n = m + 1 := ⟨n - 1, by omega⟩
    obtain ⟨turns, rfl⟩ : ∃ m, turns = m + 1 := ⟨turns - 1, by omega⟩
    have hwhole := @le_framedEnd (n + 1) false data.length s.pbCurrent hn.le fun _ hno =>
      absurd hno Bool.false_ne_true
    have hpos := List.length_pos_of_ne_nil hlr.nonempty
    have hend := add_length_recordBytes (n + 1) false data s.pbCurrent
    obtain ⟨hbytes, hsegment, hlt⟩ := @recordBytes_fill n data s.pbCurrent hfill
    have hgap := add_length_segmentGap s.pbCurrent
    have hrest := add_length_recordBytes (n + 1) false data
      ((segmentBegun s.pbCurrent).2 + (segmentBegun s.pbCurrent).1)
    rw [hbytes, List.length_append, List.length_append, List.length_map, List.length_replicate]
      at hend
    rw [hbytes, Mem.holdsSome_append, Mem.holdsSome_append, Mem.holdsSome_map, hgap,
      List.length_map, List.length_replicate] at hheld
    obtain ⟨-, hnop, hheld⟩ := hheld
    have hsame : framedEnd (n + 1) false data.length s.pbCurrent =
        framedEnd (n + 1) false data.length
          ((segmentBegun s.pbCurrent).2 + (segmentBegun s.pbCurrent).1) := by
      rw [← hend, ← hrest]
      omega
    have hbegun : 0 < (segmentBegun s.pbCurrent).1 := by
      unfold segmentBegun LOG_SEGMENT_SIZE cbLGSEGHDR
      dsimp only
      split_ifs <;> dsimp only <;> omega
    have hnext := h.turn_nop (by omega) hbegun hnop
    rw [hsame] at hlast ⊢
    have hunfilled : ¬ Fills data.length
      ((segmentBegun s.pbCurrent).2 + (segmentBegun s.pbCurrent).1) := fun hno => by
      have hmin := hno.2
      rw [segmentBegun, LOG_SEGMENT_SIZE, hsegment] at hmin
      change 4056 < 32 at hmin
      omega
    refine .next hnext ?_
    exact @Readable.getRecord_unfilled log fPreread r
      { s with pbCurrent := (segmentBegun s.pbCurrent).2 + (segmentBegun s.pbCurrent).1 } data
      (n + 1) h hlr hn
      hout hunfilled hheld hlast turns (by dsimp only; omega)
  · exact h.getRecord_unfilled hlr hn hout hfill hheld hlast hturns

/-! ## The records of a batch -/

/-- The records that calls return one after the other, at most `n`, and what the last call
returns. -/
def readRecords (log : LOG_FILE) (fPreread : Bool) :
    Nat → LOG_READ_BUFFER → List (List Byte) × Result
  | 0, _ => ([], .loop)
  | n + 1, r =>
    match log.getNextRecFF fPreread r with
    | (_, .record plr, r') =>
      let (rgdata, result) := readRecords log fPreread n r'
      (plr.data log.rgb (r'.assembledLR fPreread) :: rgdata, result)
    | (_, result, _) => ([], result)

theorem readRecords_record {pbNext pbNextNext : Nat}
    (h : Returns fPreread log data pbNext pbNextNext (log.getNextRecFF fPreread r)) :
    ∃ r', r'.pbNext = pbNext ∧ r'.pbNextNext = some pbNextNext ∧
      log.readRecords fPreread (n + 1) r =
      (data :: (log.readRecords fPreread n r').1, (log.readRecords fPreread n r').2) := by
  obtain ⟨rgaccess, result, r', heq⟩ : ∃ rgaccess result r', log.getNextRecFF fPreread r =
    (rgaccess, result, r') :=
    ⟨_, _, _, rfl⟩
  obtain ⟨plr, hplr, hdata, hnext, hnextNext⟩ := h
  rw [heq] at hplr hdata hnext hnextNext
  dsimp only at hplr hdata hnext hnextNext
  refine ⟨r', hnext, hnextNext, ?_⟩
  rw [readRecords, heq, hplr, ← hdata]

/-- Records that the log has from a position on are read, and the position is then behind them. -/
theorem Readable.readRecords_add (h : log.Readable) {rgdata : List (List Byte)}
    (hlr : ∀ data ∈ rgdata, ValidLR data)
    (hheld : log.rgb.HoldsSome ib (batchBytes ib rgdata))
    (hlast : ib + (batchBytes ib rgdata).length ≤ log.lgposLastRec) (hmin : log.pbLGBufMin ≤ ib)
    (hmax : log.lgposLastRec ≤ log.pbLGBufMax) (hnextNext : r.pbNextNext = some ib)
      (hnext : r.pbNext ≤ ib) (m : Nat) :
    ∃ r', r'.pbNextNext = some (ib + (batchBytes ib rgdata).length) ∧
      r'.pbNext ≤ ib + (batchBytes ib rgdata).length ∧
      log.readRecords fPreread (rgdata.length + m) r =
        (rgdata ++ (log.readRecords fPreread m r').1, (log.readRecords fPreread m r').2) := by
  induction rgdata generalizing ib r with
  | nil =>
    refine ⟨r, hnextNext, hnext, ?_⟩
    rw [List.length_nil, Nat.zero_add]
    rfl
  | cons data rgdata ih =>
    have hvalid := hlr data List.mem_cons_self
    have hpos := List.length_pos_of_ne_nil hvalid.nonempty
    have hend := add_length_recordBytes (data.length + 1) false data ib
    have hwhole := @le_framedEnd (data.length + 1) false data.length ib (Nat.le_succ _)
      fun _ hno => absurd hno Bool.false_ne_true
    rw [batchBytes] at hheld hlast ⊢
    rw [List.length_append, ← Nat.add_assoc, hend] at hlast ⊢
    obtain ⟨hrecord, hrest⟩ := Mem.holdsSome_append.1 hheld
    rw [hend] at hrest
    have hcall : log.getNextRecFF fPreread r = log.getRecord fPreread { r with pbNext := ib }
        (log.lgposLastRec - ib + 1)
        (scan fPreread { r with pbNext := ib } ib false) := by
      rw [getNextRecFF, hnextNext]
      dsimp only
      rw [if_neg (by omega), if_neg (by omega), if_neg (by omega), if_neg (by omega)]
      rfl
    have hreturns := @Readable.getRecord_recordBytes log fPreread { r with pbNext := ib }
      (scan fPreread { r with pbNext := ib } ib false) data (data.length + 1) h hvalid
      (Nat.lt_succ_self _) rfl hrecord
      (by change framedEnd _ _ _ ib ≤ _; omega) (log.lgposLastRec - ib + 1) (Nat.lt_succ_self _)
    rw [← hcall] at hreturns
    obtain ⟨r₁, hnext₁, hnextNext₁, heq⟩ := readRecords_record (n := rgdata.length + m) hreturns
    obtain ⟨r', hnextNext', hnext', hrun⟩ :=
      ih (fun data hmem => hlr data (List.mem_cons_of_mem _ hmem)) hrest hlast
      (by omega) hnextNext₁ (by rw [hnext₁]; change ib ≤ _; omega)
    refine ⟨r', hnextNext', hnext', ?_⟩
    rw [List.length_cons, Nat.add_right_comm, heq, hrun]
    rfl

/-- Up to the end of the log: there are no more. -/
theorem readRecords_end (hend : log.lgposLastRec ≤ ib) (hnextNext : r.pbNextNext = some ib)
    (n : Nat) :
    log.readRecords fPreread (n + 1) r = ([], .error .errLGNoMoreRecords) := by
  have hcall : log.getNextRecFF fPreread r = ([], .error .errLGNoMoreRecords, r) := by
    rw [getNextRecFF, hnextNext]
    exact if_pos hend
  rw [readRecords, hcall]

end

/-! ## Written and read -/

/-- `CbLGSizeOfRec` of the first data of a record. -/
def cbLGSizeOfData (data : List Byte) : Nat := cbLGSizeOfRec (lrMem data) 0

/-- A record as it is given to the log: the first data has the structure of its type. -/
structure LoggedLR (rgdata : List (List Byte)) : Prop where
  first : ∃ data rest, rgdata = data :: rest ∧ data ≠ [] ∧
    cbLGFixedSizeOfRec (lrMem data) 0 ≤ data.length
  valid : ValidLR rgdata.flatten

theorem LoggedLR.isRecord {rgdata : List (List Byte)} (h : LoggedLR rgdata) :
    IsRecord cbLGSizeOfData rgdata := by
  obtain ⟨data, rest, rfl, hdata, hfixed⟩ := h.first
  obtain ⟨hmax, -, hsize⟩ := h.valid.size
  have hbytes : ∀ i < data.length, lrMem (data :: rest).flatten (0 + i) = lrMem data (0 + i) :=
    fun i hi => by
    unfold lrMem
    rw [Nat.zero_add, List.flatten_cons, List.getD_append _ _ _ _ hi]
  have hpos := List.length_pos_of_ne_nil hdata
  have htyp := hbytes 0 hpos
  rw [Nat.add_zero] at htyp
  rw [htyp] at hmax
  refine ⟨data, rest, rfl, hdata, ?_⟩
  rw [← hsize]
  exact (cbLGSizeOfRec_congr hmax hfixed hpos hbytes).symm

/-- What is added to the log is read from it. The batch is copied into the log buffer, and a file
has the bytes of the buffer from a position on, but for the headers of its segments; then the calls
return the records of the batch in their order, and then that there are no more. -/
theorem getNextRecFF_flgiAddLogRec {s : LOG_WRITE_BUFFER} {logtime : Nat → BitVec 64}
    {batch : List (List (List Byte))}
    {rgb rgb' : Mem} {pbEnd : Nat} (hcb : s.pLogBuffer.cbLGBuf % 4096 = 0)
    (hwrite : s.pbWrite % 4096 = 0)
    (hlt : s.pbWrite < s.pLogBuffer.cbLGBuf) (hin : s.pbEntry < s.pLogBuffer.cbLGBuf)
    (hentry : s.pbEntry % 4096 = 0 ∨ 40 ≤ s.pbEntry % 4096)
      (hbatch : ∀ rgdata ∈ batch, LoggedLR rgdata)
    (hsome : s.flgiAddLogRec false logtime cbLGSizeOfData batch.flatten rgb s.pbEntry =
      some (pbEnd, rgb'))
    {log : LOG_FILE} (h : log.Readable) {ib : Nat} (hib : ib % 4096 = s.pbEntry % 4096)
    (hfile : ∀ i < s.cbFramed cbLGSizeOfData batch.flatten, 40 ≤ (ib + i) % 4096 →
      log.rgb (ib + i) = s.view rgb' (s.pbEntry + i))
    (hlast : log.lgposLastRec = ib + s.cbFramed cbLGSizeOfData batch.flatten)
      (hmin : log.pbLGBufMin ≤ ib)
    (hmax : log.lgposLastRec ≤ log.pbLGBufMax) {fPreread : Bool} {r : LOG_READ_BUFFER}
    (hnextNext : r.pbNextNext = some ib) (hnext : r.pbNext ≤ ib) :
    log.readRecords fPreread (batch.length + 1) r =
      (batch.map List.flatten, .error .errLGNoMoreRecords) := by
  have hrecords := records_flatten (fun rgdata hmem => (hbatch rgdata hmem).isRecord)
    (le_refl batch.flatten.length)
  obtain ⟨hwrote, -⟩ :=
    LOG_WRITE_BUFFER.flgiAddLogRec_wrote (LOG_WRITE_BUFFER.room_limit hcb hwrite hlt _) hin hsome
  obtain ⟨hend, -⟩ := s.add_cbFramed cbLGSizeOfData batch.flatten
  rw [hrecords] at hwrote hend
  rw [← add_length_batchBytes] at hend
  have hsame := batchBytes_congr hib (batch.map List.flatten)
  obtain ⟨hheaders, -⟩ := @behindHeaders_batchBytes ib (by rwa [hib]) (batch.map List.flatten)
  have hheld : log.rgb.HoldsSome ib (batchBytes ib (batch.map List.flatten)) := by
    rw [hsame] at hheaders ⊢
    refine hwrote.move fun i b hi => hfile i ?_ ((hheaders i _ hi).1 rfl)
    obtain ⟨hlt', -⟩ := List.getElem?_eq_some_iff.1 hi
    omega
  obtain ⟨r', hnextNext', -, hread⟩ :=
    @Readable.readRecords_add log fPreread r ib h (batch.map List.flatten)
    (fun data hmem => by
      obtain ⟨rgdata, hrgdata, rfl⟩ := List.mem_map.1 hmem
      exact (hbatch rgdata hrgdata).valid) hheld (by rw [hsame]; omega) hmin hmax hnextNext hnext 1
  have hlast' : log.lgposLastRec ≤ ib + (batchBytes ib (batch.map List.flatten)).length := by
    rw [hsame]
    omega
  rw [List.length_map, readRecords_end hlast' hnextNext', List.append_nil] at hread
  exact hread

/-- An `LRCREATEMEFDP`, of a type of a fixed size. -/
def exampleLR : List Byte := 24 :: List.replicate 55 0

theorem exampleLR_logged : LoggedLR [exampleLR] := by
  have hvalid : ValidLR exampleLR :=
    ⟨List.cons_ne_nil _ _, by decide +kernel, by decide +kernel⟩
  exact ⟨⟨exampleLR, [], rfl, List.cons_ne_nil _ _, by decide +kernel⟩, hvalid⟩

/-- A record that is fragmented in the last segment of the buffer, and read from the second segment
of a file. -/
theorem getNextRecFF_flgiAddLogRec_fragmented : ∃ (log : LOG_FILE) (r : LOG_READ_BUFFER),
    r.pbNextNext = some 8152 ∧
      log.readRecords false 2 r = ([exampleLR], .error .errLGNoMoreRecords) := by
  let s : LOG_WRITE_BUFFER := ⟨⟨65536, 0, 65535, fun _ => true⟩, 4096, 65496⟩
  have hend : s.pbEntry + s.cbFramed cbLGSizeOfData [exampleLR] = 65602 := by decide +kernel
  rcases @LOG_WRITE_BUFFER.flgiAddLogRec_spec s false (fun _ => 0) s.pbEntry
      (LOG_WRITE_BUFFER.room_limit (by decide) (by decide) (by decide) _) (by decide) cbLGSizeOfData
      [exampleLR]
      (fun _ => 0) _ rfl with ⟨-, hover⟩ | ⟨-, rgb', hsome, -⟩
  · exact absurd hover (by decide +kernel)
  · let log : LOG_FILE :=
      ⟨4096, fun ib => s.view rgb' (ib + 57344), 4096, 65536, 8258, fun _ => none, fun _ =>
        true, by decide⟩
    let r : LOG_READ_BUFFER := ⟨4096, some 8152, fun _ => ⟨0, fun _ => 0⟩⟩
    refine ⟨log, r, rfl, ?_⟩
    refine @getNextRecFF_flgiAddLogRec s (fun _ => 0) [[exampleLR]] (fun _ => 0) rgb' _ (by decide)
      (by decide)
      (by decide) (by decide) (by decide) (fun rgdata hmem => ?_) hsome log
      ⟨rfl, fun _ => rfl, fun _ => rfl⟩ 8152
      (by decide) (fun i _ _ => ?_) ?_ (show 4096 ≤ 8152 by decide)
        (show 8258 ≤ 65536 by decide) false r rfl
      (show 4096 ≤ 8152 by decide)
    · obtain rfl := List.mem_singleton.1 hmem
      exact exampleLR_logged
    · have hib : 8152 + i + 57344 = 65496 + i := by omega
      exact congrArg (s.view rgb') hib
    · change 8258 = 8152 + s.cbFramed cbLGSizeOfData [exampleLR]
      have hentry : s.pbEntry = 65496 := rfl
      omega

end LOG_FILE

end Ese.LogRead
