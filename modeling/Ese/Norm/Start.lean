import Ese.Lib.Bracket
import Ese.Norm.SearchKey

/-!
# The start of a key

Segments of one column are the same or differ before the shorter ends, so that a key begins with the
segments of some columns if the row has them (`leadingEqual_iff`). A variable binary segment up to
the end of its data tells which data starts so, but for zeros that are taken for padding
(`startsWith_iff_of_lt`).
-/

namespace Ese.Norm

/-! ## The end of the data in a segment -/

/-- The offset of what is behind the data in an uncut segment. -/
def dataEnd (pbField : List Byte) : Nat := 1 + pbField.length + (pbField.length - 1) / 8

/-- The length of a segment that is cut at the limit for it. -/
theorem length_cut (pidb : IDB) (rgbSeg : List Byte) :
    (cut pidb rgbSeg).length = if pidb.cbVarSegMacT < pidb.cbKeyMost ∧
      rgbSeg.length > pidb.cbVarSegMacT then
      pidb.cbVarSegMacT else rgbSeg.length := by
  unfold cut
  split
  · next hlimit =>
    rw [List.length_take]
    split
    · next hc => exact Nat.min_eq_left (Nat.le_of_lt hc.2)
    · next hc => exact Nat.min_eq_right (Nat.not_lt.1 fun hlt => hc ⟨hlimit, hlt⟩)
  · next hlimit => rw [if_neg fun hc => hlimit hc.1]

/-! ## The beginnings of chunks -/

/-- `pbField` ends in zeros where the shorter data `value` is padded with them. -/
def ZerosPad (pbField value : List Byte) : Prop :=
  ∃ n, pbField = value ++ List.replicate (n + 1) 0 ∧ 8 * ((pbField.length - 1) / 8) < value.length

/-- The first `dataEnd pbField` bytes of the segment do not tell them apart. -/
def BeginsAlike (pbField value : List Byte) : Prop := pbField <+: value ∨ ZerosPad pbField value

/-- What the zeros of the last chunk can be. -/
theorem isPrefix_padded_iff {pbField value : List Byte} (hle : pbField.length ≤ 8)
    (hpos : 0 < value.length)
    (hvalue : value.length ≤ 8) (rest : List Byte) :
    pbField <+: value ++ List.replicate (8 - value.length) 0 ++ rest ↔
      BeginsAlike pbField value := by
  have hpad : (value ++ List.replicate (8 - value.length) (0 : Byte)).length = 8 := by
    rw [List.length_append, List.length_replicate]
    omega
  constructor
  · intro hpre
    have hpre : pbField <+: value ++ List.replicate (8 - value.length) 0 :=
      List.prefix_of_prefix_length_le hpre (List.prefix_append _ _) (by omega)
    rcases Nat.lt_or_ge value.length pbField.length with hlong | hshort
    · obtain ⟨c, rfl⟩ := List.prefix_of_prefix_length_le (List.prefix_append _ _) hpre
        (Nat.le_of_lt hlong)
      rw [List.prefix_append_right_inj] at hpre
      rw [List.length_append] at hle hlong
      have hc : c = List.replicate c.length 0 := List.eq_replicate_of_mem fun b hb => by
        exact List.eq_of_mem_replicate (hpre.subset hb)
      refine .inr ⟨c.length - 1, ?_, ?_⟩
      · rw [hc, List.length_replicate, Nat.sub_add_cancel (by omega)]
      · rw [List.length_append]
        omega
    · exact .inl (List.prefix_of_prefix_length_le hpre (List.prefix_append _ _) hshort)
  · rintro (hpre | ⟨n, rfl, -⟩)
    · rw [List.append_assoc]
      exact hpre.trans (List.prefix_append _ _)
    · rw [List.length_append, List.length_replicate] at hle
      have hzeros : List.replicate (8 - value.length) (0 : Byte)
          = List.replicate (n + 1) 0 ++ List.replicate (8 - value.length - (n + 1)) 0 := by
        rw [← List.replicate_add]
        congr 1
        omega
      rw [List.append_assoc, List.prefix_append_right_inj, hzeros, List.append_assoc]
      exact List.prefix_append _ _

/-- Chunks begin alike iff the data do, up to the end of the shorter. -/
theorem chunks_isPrefix_iff {pbField value : List Byte} (hfield : pbField ≠ [])
    (hvalue : value ≠ []) :
    (chunks pbField).take (dataEnd pbField - 1) <+: chunks value ↔ BeginsAlike pbField value := by
  induction hn : pbField.length using Nat.strong_induction_on generalizing pbField value with
  | _ n ih =>
    have hpos := List.length_pos_of_ne_nil hfield
    have hvaluePos := List.length_pos_of_ne_nil hvalue
    by_cases hlast : pbField.length ≤ 8
    · have hend : dataEnd pbField - 1 = pbField.length := by
        unfold dataEnd
        omega
      rw [hend, chunks_last hlast, List.append_assoc, List.take_left]
      by_cases hvalueLast : value.length ≤ 8
      · rw [chunks_last hvalueLast]
        exact isPrefix_padded_iff hlast hvaluePos hvalueLast _
      · have hlt : 8 < value.length := Nat.lt_of_not_le hvalueLast
        have h8 : (value.take 8).length = 8 := by
          rw [List.length_take]
          omega
        rw [chunks_more hlt]
        constructor
        · intro hpre
          exact .inl ((List.prefix_of_prefix_length_le hpre (List.prefix_append _ _)
            (by omega)).trans
            (List.take_prefix 8 value))
        · rintro (hpre | ⟨m, rfl, -⟩)
          · exact (List.prefix_of_prefix_length_le hpre (List.take_prefix 8 value) (by omega)).trans
              (List.prefix_append _ _)
          · rw [List.length_append] at hlast
            omega
    · have hmore : 8 < pbField.length := Nat.lt_of_not_le hlast
      have hdrop : pbField.drop 8 ≠ [] := by
        rw [ne_eq, List.drop_eq_nil_iff]
        exact hlast
      have hend : dataEnd pbField - 1 = (pbField.take 8).length +
        ((dataEnd (pbField.drop 8) - 1) + 1) := by
        unfold dataEnd
        rw [List.length_take, List.length_drop]
        omega
      rw [hend, chunks_more hmore, List.take_length_add_append, List.take_succ_cons]
      have h8 : (pbField.take 8).length = 8 := by
        rw [List.length_take]
        omega
      by_cases hvalueLast : value.length ≤ 8
      · rw [chunks_last hvalueLast]
        constructor
        · intro hpre
          -- the counts differ
          have hpad : (value ++ List.replicate (8 - value.length) (0 : Byte)).length =
            (pbField.take 8).length := by
            rw [List.length_append, List.length_replicate]
            omega
          obtain ⟨w, hw⟩ := hpre
          rw [List.append_assoc] at hw
          obtain ⟨-, hcount⟩ := List.append_inj hw hpad.symm
          rw [List.cons_append, List.cons.injEq] at hcount
          have hcount := congrArg BitVec.toNat hcount.1
          rw [BitVec.toNat_ofNat] at hcount
          have h9 : (9 : Byte).toNat = 9 := rfl
          omega
        · rintro (hpre | ⟨m, -, hlt⟩)
          · have := hpre.length_le
            omega
          · omega
      · have hlt : 8 < value.length := Nat.lt_of_not_le hvalueLast
        have hvalueDrop : value.drop 8 ≠ [] := by
          rw [ne_eq, List.drop_eq_nil_iff]
          exact hvalueLast
        have hrest := ih (pbField.length - 8) (by omega) hdrop hvalueDrop List.length_drop
        have hv8 : (value.take 8).length = (pbField.take 8).length := by
          rw [List.length_take]
          omega
        rw [chunks_more hlt]
        have hsplit : pbField.take 8 ++ 9 :: (chunks (pbField.drop 8)).take
              (dataEnd (pbField.drop 8) - 1)
              <+: value.take 8 ++ 9 :: chunks (value.drop 8) ↔
            pbField.take 8 = value.take 8 ∧ BeginsAlike (pbField.drop 8) (value.drop 8) := by
          rw [← hrest]
          constructor
          · rintro ⟨w, hw⟩
            rw [List.append_assoc] at hw
            obtain ⟨htake, hcons⟩ := List.append_inj hw hv8.symm
            rw [List.cons_append, List.cons.injEq] at hcons
            exact ⟨htake, w, hcons.2⟩
          · rintro ⟨htake, hpre⟩
            rw [htake, List.prefix_append_right_inj, List.cons_prefix_cons]
            exact ⟨rfl, hpre⟩
        rw [hsplit]
        constructor
        · rintro ⟨htake, hpre | ⟨m, hpad, hlen⟩⟩
          · left
            rw [← List.take_append_drop 8 pbField, ← List.take_append_drop 8 value, htake,
              List.prefix_append_right_inj]
            exact hpre
          · right
            refine ⟨m, ?_, ?_⟩
            · rw [← List.take_append_drop 8 pbField, hpad, htake, ← List.append_assoc,
                List.take_append_drop]
            · rw [List.length_drop, List.length_drop] at hlen
              omega
        · rintro (⟨w, rfl⟩ | ⟨m, rfl, hlen⟩)
          · rw [List.take_append_of_le_length (by omega), List.drop_append_of_le_length (by omega)]
            exact ⟨rfl, .inl (List.prefix_append _ _)⟩
          · rw [List.take_append_of_le_length (by omega), List.drop_append_of_le_length (by omega)]
            refine ⟨rfl, .inr ⟨m, rfl, ?_⟩⟩
            rw [List.length_append, List.length_replicate] at hlen ⊢
            rw [List.length_drop]
            omega

/-- Zeros that end the data and padding differ in the last count only. -/
theorem chunks_of_zerosPad {pbField value : List Byte} (hvalue : value ≠ [])
    (h : ZerosPad pbField value) :
    (chunks value).length = (chunks pbField).length ∧
      (chunks pbField).take ((chunks pbField).length - 1) = (chunks value).take
        ((chunks pbField).length - 1) := by
  induction hn : pbField.length using Nat.strong_induction_on generalizing pbField value with
  | _ n ih =>
    obtain ⟨m, rfl, hlen⟩ := h
    have hvaluePos := List.length_pos_of_ne_nil hvalue
    have hfield : value ++ List.replicate (m + 1) 0 ≠ [] :=
      fun h => hvalue (List.append_eq_nil_iff.1 h).1
    have hfieldLen : (value ++ List.replicate (m + 1) (0 : Byte)).length =
      value.length + (m + 1) := by
      rw [List.length_append, List.length_replicate]
    rw [hfieldLen] at hlen hn
    refine ⟨?_, ?_⟩
    · rw [length_chunks hvalue, length_chunks hfield, hfieldLen]
      omega
    · by_cases hlast : value.length + (m + 1) ≤ 8
      · have hpad : (value ++ List.replicate (8 - value.length) (0 : Byte)).length = 8 := by
          rw [List.length_append, List.length_replicate]
          omega
        have hzeros : value ++ List.replicate (m + 1) (0 : Byte) ++ List.replicate
            (8 - (value.length + (m + 1))) 0
            = value ++ List.replicate (8 - value.length) 0 := by
          rw [List.append_assoc, ← List.replicate_add]
          congr 2
          omega
        have hfieldChunks : chunks (value ++ List.replicate (m + 1) 0) = value ++ List.replicate
            (8 - value.length) 0
            ++ [BitVec.ofNat 8 (value.length + (m + 1))] := by
          rw [chunks_last (by rw [hfieldLen]; exact hlast), hfieldLen, hzeros]
        have hvalueChunks : chunks value = value ++ List.replicate (8 - value.length) 0 ++
          [BitVec.ofNat 8 value.length] :=
          chunks_last (by omega)
        have hcut : ∀ b : Byte, (value ++ List.replicate (8 - value.length) 0 ++ [b]).take 8
            = value ++ List.replicate (8 - value.length) 0 := fun b => List.take_left' hpad
        rw [hfieldChunks, hvalueChunks, List.length_append, hpad, List.length_singleton,
          Nat.add_sub_cancel, hcut, hcut]
      · have hmore : 8 < value.length := by omega
        have hdrop : value.drop 8 ≠ [] := by
          rw [ne_eq, List.drop_eq_nil_iff]
          omega
        have hpad : ZerosPad (value.drop 8 ++ List.replicate (m + 1) 0) (value.drop 8) := by
          refine ⟨m, rfl, ?_⟩
          rw [List.length_append, List.length_replicate, List.length_drop]
          omega
        have hlength : (value.drop 8 ++ List.replicate (m + 1) (0 : Byte)).length = n - 8 := by
          rw [List.length_append, List.length_replicate, List.length_drop]
          omega
        have hrest := (ih (n - 8) (by omega) hdrop hpad hlength).2
        have hchunk : chunks (value ++ List.replicate (m + 1) 0)
            = value.take 8 ++ 9 :: chunks (value.drop 8 ++ List.replicate (m + 1) 0) := by
          rw [chunks_more (by rw [hfieldLen]; omega), List.take_append_of_le_length
            (Nat.le_of_lt hmore),
            List.drop_append_of_le_length (Nat.le_of_lt hmore)]
        have hpos : 0 < (chunks (value.drop 8 ++ List.replicate (m + 1) 0)).length :=
          Nat.lt_of_le_of_lt (Nat.zero_le _)
            (length_lt_length_chunks (List.ne_nil_of_length_pos (by omega)))
        have htotal : (chunks (value ++ List.replicate (m + 1) 0)).length - 1
            = (value.take 8).length +
              ((chunks (value.drop 8 ++ List.replicate (m + 1) 0)).length - 1 + 1) := by
          rw [hchunk, List.length_append, List.length_cons]
          omega
        rw [htotal, hchunk, chunks_more hmore, List.take_length_add_append,
          List.take_length_add_append,
          List.take_succ_cons, List.take_succ_cons, hrest]

/-- The count bytes are from one to nine. -/
theorem chunks_count {pbField : List Byte} {c : Nat} (h : pbField ≠ [])
    (hle : 9 * (c + 1) ≤ (chunks pbField).length) :
    ∃ b, (chunks pbField)[9 * c + 8]? = some b ∧ 1 ≤ b.toNat ∧ b.toNat ≤ 9 := by
  have hpos := List.length_pos_of_ne_nil h
  induction c generalizing pbField with
  | zero =>
    by_cases hlast : pbField.length ≤ 8
    · refine ⟨BitVec.ofNat 8 pbField.length, ?_, ?_⟩
      · have hpad : (pbField ++ List.replicate (8 - pbField.length) (0 : Byte)).length =
            9 * 0 + 8 := by
          rw [List.length_append, List.length_replicate]
          omega
        rw [chunks_last hlast, ← hpad, List.getElem?_append_right (Nat.le_refl _), Nat.sub_self]
        rfl
      · rw [BitVec.toNat_ofNat]
        omega
    · have h8 : (pbField.take 8).length = 9 * 0 + 8 := by
        rw [List.length_take]
        omega
      refine ⟨9, ?_, by decide, by decide⟩
      rw [chunks_more (Nat.lt_of_not_le hlast), ← h8, List.getElem?_append_right (Nat.le_refl _),
        Nat.sub_self]
      rfl
  | succ c ih =>
    rw [length_chunks h] at hle
    have hmore : 8 < pbField.length := by omega
    have hdrop : pbField.drop 8 ≠ [] := by
      rw [ne_eq, List.drop_eq_nil_iff]
      omega
    obtain ⟨b, hb, hcount⟩ := ih hdrop (by rw [length_chunks hdrop, List.length_drop]; omega)
      (List.length_pos_of_ne_nil hdrop)
    refine ⟨b, ?_, hcount⟩
    have h8 : 9 * (c + 1) + 8 = (pbField.take 8).length + (9 * c + 8 + 1) := by
      rw [List.length_take]
      omega
    rw [chunks_more hmore, h8, List.getElem?_append_right (Nat.le_add_right _ _),
      Nat.add_sub_cancel_left,
      List.getElem?_cons_succ, hb]

/-- Chunks of different data differ within both. -/
theorem chunks_apart (a b : List Byte) : Apart (chunks a) (chunks b) := by
  by_cases hab : a = b
  · rw [hab]
    exact .refl _
  · rcases list_lt_or_gt (fun _ _ => byte_lt_or_gt) hab with hlt | hgt
    · exact (chunks_diffLt hlt).apart
    · exact (chunks_diffLt hgt).apart.symm

/-- The chunks decide the data. -/
theorem chunks_inj {a b : List Byte} (h : chunks a = chunks b) : a = b := by
  by_contra hab
  rcases list_lt_or_gt (fun _ _ => byte_lt_or_gt) hab with hlt | hgt
  · exact (chunks_diffLt hlt).ne h
  · exact (chunks_diffLt hgt).ne h.symm

/-! ## Segments of which none starts another -/

section
variable {pidb : IDB} {ptdb : TDB} {idxseg : IDXSEG}

/-- A byte is decided by its complement. -/
theorem byte_xor_inj (x y : Byte) (h : x ^^^ 0xff = y ^^^ 0xff) : x = y := by
  have hback : ∀ z : Byte, z ^^^ 0xff ^^^ 0xff = z := by
    intro z
    rw [BitVec.xor_assoc, BitVec.xor_self, BitVec.xor_zero]
  rw [← hback x, h, hback]

/-- Descending order keeps segments apart. -/
theorem flip_apart {a b : List Byte} (h : Apart a b) (fDescending : Bool) :
    Apart (flip fDescending a) (flip fDescending b) := by
  cases fDescending with
  | false => exact h
  | true => exact h.map byte_xor_inj

/-- A cut keeps segments apart or makes them equal. -/
theorem cut_apart {a b : List Byte} (h : Apart a b) : Apart (cut pidb a) (cut pidb b) := by
  unfold cut
  split
  · exact h.take _
  · exact h

/-- Segments of one fixed-size type have one length. -/
theorem length_fldNormalizeFixedSegment (pbField pbField' : List Byte) (coltyp : JET_COLTYP)
    (fDotNetGuid : Bool) :
    (fldNormalizeFixedSegment pbField coltyp fDotNetGuid).length
      = (fldNormalizeFixedSegment pbField' coltyp fDotNetGuid).length := by
  cases coltyp <;> simp [fldNormalizeFixedSegment, bigEndian]

/-- The byte that a segment begins with, not yet complemented. -/
def bPrefix (pidb : IDB) : Option (List Byte) → Byte
  | none => if pidb.fSortNullsHigh then bPrefixNullHigh else bPrefixNull
  | some pbField => if pbField = [] then bPrefixZeroLength else bPrefixData

/-- A segment begins with the prefix byte of its value. -/
theorem head_segment (hmac : 0 < pidb.cbVarSegMacT) {value : Option (List Byte)}
    (hholds : ∀ pbField ∈ value, (ptdb idxseg.columnid).Holds
      (fCOLUMNIDFixed idxseg.columnid) pbField) :
    ∃ rgb, segment pidb (ptdb idxseg.columnid) (fCOLUMNIDFixed idxseg.columnid) value =
      bPrefix pidb value :: rgb := by
  unfold bPrefix
  cases value with
  | none =>
    rw [segment]
    cases (ptdb idxseg.columnid).coltyp <;> exact ⟨[], rfl⟩
  | some pbField =>
    dsimp only
    rw [segment]
    by_cases hempty : pbField = []
    · rw [if_pos hempty, if_pos hempty]
      cases hbin : fRECBinaryColumn (ptdb idxseg.columnid).coltyp with
      | false => exact absurd hempty ((hholds pbField rfl).ne_nil hbin)
      | true =>
        unfold fRECBinaryColumn at hbin
        rcases of_decide_eq_true hbin with hcoltyp | hcoltyp
        · rw [hcoltyp]
          exact ⟨[], rfl⟩
        · rw [hcoltyp]
          exact ⟨[], rfl⟩
    · rw [if_neg hempty, if_neg hempty]
      split
      · unfold cut
        split
        · obtain ⟨m, hm⟩ := Nat.exists_eq_add_one_of_ne_zero (Nat.ne_of_gt hmac)
          rw [hm]
          exact ⟨_, List.take_succ_cons⟩
        · exact ⟨_, rfl⟩
      · exact ⟨_, rfl⟩

/-- Two segments of a column are the same or differ before the shorter ends. -/
theorem keySegment_apart (hmac : 0 < pidb.cbVarSegMacT) {value value' : Option (List Byte)}
    (hholds : ∀ pbField ∈ value, (ptdb idxseg.columnid).Holds
    (fCOLUMNIDFixed idxseg.columnid) pbField)
    (hholds' : ∀ pbField ∈ value', (ptdb idxseg.columnid).Holds
      (fCOLUMNIDFixed idxseg.columnid) pbField) :
    Apart (keySegment pidb ptdb idxseg value) (keySegment pidb ptdb idxseg value') := by
  refine flip_apart ?_ _
  by_cases hdata : ∃ pbField pbField', value = some pbField ∧ value' = some pbField' ∧
    pbField ≠ [] ∧ pbField' ≠ []
  · obtain ⟨pbField, pbField', rfl, rfl, hne, hne'⟩ := hdata
    rw [segment, segment, if_neg hne, if_neg hne']
    split
    · refine cut_apart ?_
      unfold binarySegment
      cases hfixed : fCOLUMNIDFixed idxseg.columnid with
      | true =>
        refine Apart.of_length ?_
        rw [if_pos rfl, if_pos rfl, List.length_cons, List.length_cons,
          ((hholds pbField rfl).2 hfixed).1,
          ((hholds' pbField' rfl).2 hfixed).1]
      | false =>
        rw [if_neg Bool.false_ne_true, if_neg Bool.false_ne_true]
        exact (chunks_apart pbField pbField').append_left [bPrefixData]
    · exact Apart.of_length (length_fldNormalizeFixedSegment _ _ _ _)
  · -- what begins with the same byte otherwise is that byte
    obtain ⟨rgb, hseg⟩ := head_segment hmac hholds
    obtain ⟨rgb', hseg'⟩ := head_segment hmac hholds'
    by_cases hsame : value = value'
    · rw [hsame]
      exact .refl _
    · rw [hseg, hseg']
      refine Apart.cons_of_ne ?_ _ _
      unfold bPrefix
      cases value with
      | none =>
        cases value' with
        | none => exact absurd rfl hsame
        | some pbField' => dsimp only; split <;> split <;> decide
      | some pbField =>
        cases value' with
        | none => dsimp only; split <;> split <;> decide
        | some pbField' =>
          dsimp only
          by_cases hempty : pbField = []
          · by_cases hempty' : pbField' = []
            · exact absurd (by rw [hempty, hempty']) hsame
            · rw [if_pos hempty, if_neg hempty']
              decide
          · by_cases hempty' : pbField' = []
            · rw [if_neg hempty, if_pos hempty']
              decide
            · exact absurd ⟨pbField, pbField', rfl, rfl, hempty, hempty'⟩ hdata

end

/-! ## The columns that begin a key -/

section
variable (pidb : IDB) (ptdb : TDB)

/-- The row's columns normalize as the specified ones do, as far as the `cbAvail` bytes of the key
go. -/
def LeadingEqual : Nat → List (IDXSEG × Option (List Byte)) → List (IDXSEG × Option (List Byte)) →
    Prop
  | _, [], _ => True
  | _, _ :: _, [] => False
  | cbAvail, column :: columns, row :: rows =>
    (keySegment pidb ptdb column.1 column.2).take cbAvail =
      (keySegment pidb ptdb row.1 row.2).take cbAvail ∧
      LeadingEqual (cbAvail - (keySegment pidb ptdb column.1 column.2).length) columns rows

/-- The column of the row starts with the specified bytes, as far as `cbVarSegMac` and the `cbAvail`
bytes left in the key let that be told. When no bytes are specified, the limit is that of the full
column. -/
def StartsWith (cbAvail : Nat) (idxseg : IDXSEG) (value row : Option (List Byte)) : Prop :=
  if value.getD [] = [] then
    (keySegment pidb ptdb idxseg value).take cbAvail =
      (keySegment pidb ptdb idxseg row).take cbAvail
  else ∃ pbField, value.getD [] <+: pbField ∧
    (keySegment pidb ptdb idxseg (some pbField)).take cbAvail =
    (keySegment pidb ptdb idxseg row).take cbAvail

end

section
variable {pidb : IDB} {ptdb : TDB} {columns rows : List (IDXSEG × Option (List Byte))}

/-- The whole key of the row begins with that of the columns, and something after it, exactly if the
columns are equal and what follows them goes on so. -/
theorem leadingEqual_iff {cbAvail : Nat} (hlen : columns.length ≤ rows.length)
    (hapart : ∀ i, ∀ column ∈ columns[i]?, ∀ row ∈ rows[i]?, ∀ m, (i = 0 → m = cbAvail) →
      Apart ((keySegment pidb ptdb column.1 column.2).take m)
      ((keySegment pidb ptdb row.1 row.2).take m))
    (rgb : List Byte) :
    (wholeKey pidb ptdb columns ++ rgb).take cbAvail <+: wholeKey pidb ptdb rows ↔
      LeadingEqual pidb ptdb cbAvail columns rows ∧
        rgb.take (cbAvail - (wholeKey pidb ptdb columns).length) <+: wholeKey pidb ptdb
          (rows.drop columns.length) := by
  induction columns generalizing cbAvail rows with
  | nil => exact ⟨fun h => ⟨trivial, h⟩, And.right⟩
  | cons column columns ih =>
    cases rows with
    | nil => exact absurd hlen (Nat.not_succ_le_zero _)
    | cons row rows =>
      have hrest := ih (Nat.le_of_succ_le_succ hlen)
        (fun i column' hcolumn row' hrow m
        (_ : i = 0 → m = cbAvail - (keySegment pidb ptdb column.1 column.2).length) =>
        hapart (i + 1) column' hcolumn row' hrow m fun h => absurd h (by omega))
      rw [wholeKey_cons, wholeKey_cons, List.append_assoc,
        (hapart 0 column rfl row rfl cbAvail fun _ => rfl).take_append_isPrefix_iff, hrest,
        LeadingEqual, List.length_cons,
        List.drop_succ_cons, List.length_append, Nat.sub_sub, and_assoc]

/-- With room behind them equal columns have the same segments. -/
theorem LeadingEqual.wholeKey_eq {cbAvail : Nat} (h : LeadingEqual pidb ptdb cbAvail columns rows)
    (hroom : (wholeKey pidb ptdb columns).length < cbAvail) :
    wholeKey pidb ptdb (rows.take columns.length) = wholeKey pidb ptdb columns := by
  induction columns generalizing cbAvail rows with
  | nil => rfl
  | cons column columns ih =>
    cases rows with
    | nil => exact h.elim
    | cons row rows =>
      obtain ⟨hseg, hrest⟩ := h
      rw [wholeKey_cons, List.length_append] at hroom
      have hsame : keySegment pidb ptdb column.1 column.2 = keySegment pidb ptdb row.1 row.2 := by
        have hlen := congrArg List.length hseg
        rw [List.length_take, List.length_take] at hlen
        rwa [List.take_of_length_le (by omega), List.take_of_length_le (by omega)] at hseg
      rw [List.length_cons, List.take_succ_cons, wholeKey_cons, wholeKey_cons, ih hrest (by omega),
        hsame]

/-- The key of columns in two parts. -/
theorem wholeKey_append (columns rows : List (IDXSEG × Option (List Byte))) :
    wholeKey pidb ptdb (columns ++ rows) = wholeKey pidb ptdb columns ++ wholeKey pidb ptdb rows :=
  List.flatMap_append

end

/-! ## Segments of variable binary columns -/

/-- All of the segment of the data is in a key with `cbAvail` bytes left. -/
def Uncut (pidb : IDB) (cbAvail : Nat) (pbField : List Byte) : Prop :=
  (binarySegment pbField false).length ≤ cbAvail ∧
    (pidb.cbVarSegMacT < pidb.cbKeyMost → (binarySegment pbField false).length ≤ pidb.cbVarSegMacT)

/-- What begins like data has a byte. -/
theorem BeginsAlike.ne_nil {pbField value : List Byte} (h : BeginsAlike pbField value)
    (hfield : pbField ≠ []) :
    value ≠ [] := by
  rintro rfl
  rcases h with hpre | ⟨-, -, hlt⟩
  · exact hfield (List.prefix_nil.1 hpre)
  · exact absurd hlt (Nat.not_lt_zero _)

/-- The length of a segment of binary data. -/
theorem length_binarySegment_eq {pbField : List Byte} (h : pbField ≠ []) :
    (binarySegment pbField false).length = (pbField.length + 7) / 8 * 9 + 1 := by
  rw [binarySegment, List.length_cons, if_neg Bool.false_ne_true, length_chunks h]

/-- The data ends before its segment does. -/
theorem dataEnd_lt {pbField : List Byte} (h : pbField ≠ []) :
    dataEnd pbField < (binarySegment pbField false).length := by
  have hpos := List.length_pos_of_ne_nil h
  rw [length_binarySegment_eq h, dataEnd]
  omega

/-- Longer data does not have the smaller segment. -/
theorem BeginsAlike.length_le {pbField value : List Byte} (h : BeginsAlike pbField value)
    (hfield : pbField ≠ []) :
    (binarySegment pbField false).length ≤ (binarySegment value false).length := by
  have hvalue := h.ne_nil hfield
  rw [length_binarySegment_eq hfield, length_binarySegment_eq hvalue]
  rcases h with hpre | ⟨n, rfl, hlt⟩
  · have := hpre.length_le
    omega
  · rw [List.length_append, List.length_replicate] at hlt ⊢
    omega

/-- A cut of a cut is the shorter one. -/
theorem cut_take (pidb : IDB) (rgbSeg : List Byte) (m : Nat) :
    (cut pidb rgbSeg).take m = rgbSeg.take
      (if pidb.cbVarSegMacT < pidb.cbKeyMost then min m pidb.cbVarSegMacT else m) := by
  unfold cut
  split
  · rw [List.take_take]
  · rfl

/-- A segment is decided by its complement. -/
theorem flip_inj {a b : List Byte} {fDescending : Bool}
    (h : flip fDescending a = flip fDescending b) : a = b := by
  cases fDescending with
  | false => exact h
  | true => exact List.map_injective_iff.2 (fun x y hxy => byte_xor_inj x y hxy) h

section
variable {pidb : IDB} {ptdb : TDB} {idxseg : IDXSEG} (hmac : 0 < pidb.cbVarSegMacT)
  (hfixed : fCOLUMNIDFixed idxseg.columnid = false)
  (hbin : fRECBinaryColumn (ptdb idxseg.columnid).coltyp = true)
include hfixed hbin

/-- The segment of a variable column. -/
theorem keySegment_var {pbField : List Byte} (h : pbField ≠ []) :
    keySegment pidb ptdb idxseg (some pbField) = flip idxseg.fDescending
      (cut pidb (binarySegment pbField false)) := by
  rw [keySegment, segment, if_neg h, if_pos hbin, hfixed]

/-- Up to the end of the data a segment is that of all data that starts so. -/
theorem keySegment_take_of_isPrefix {pbField value : List Byte} {m : Nat} (h : pbField ≠ [])
    (hpre : pbField <+: value)
    (hm : m ≤ dataEnd pbField) :
    (keySegment pidb ptdb idxseg (some value)).take m =
      (keySegment pidb ptdb idxseg (some pbField)).take m := by
  have hvalue : value ≠ [] := BeginsAlike.ne_nil (.inl hpre) h
  rw [keySegment_var hfixed hbin h, keySegment_var hfixed hbin hvalue, ← flip_take, ← flip_take,
    cut_take, cut_take]
  congr 1
  generalize hmin : (if pidb.cbVarSegMacT < pidb.cbKeyMost then min m pidb.cbVarSegMacT else m) = k
  have hk : k ≤ dataEnd pbField := by
    rw [← hmin]
    split <;> omega
  rw [binarySegment, binarySegment, if_neg Bool.false_ne_true, if_neg Bool.false_ne_true]
  cases k with
  | zero => rfl
  | succ k =>
    rw [List.take_succ_cons, List.take_succ_cons]
    obtain ⟨w, hw⟩ := (chunks_isPrefix_iff h hvalue).2 (.inl hpre)
    have hlen := dataEnd_lt h
    rw [binarySegment, if_neg Bool.false_ne_true, List.length_cons] at hlen
    rw [← hw, List.take_append_of_le_length (by rw [List.length_take]; omega), List.take_take,
      Nat.min_eq_left (by omega)]

/-- Of data that is cut the whole segment is its start. -/
theorem startsWith_iff_of_le {pbField : List Byte} {row : Option (List Byte)} {cbAvail : Nat}
    (h : pbField ≠ [])
    (hend : min cbAvail (keySegment pidb ptdb idxseg (some pbField)).length ≤ dataEnd pbField) :
    StartsWith pidb ptdb cbAvail idxseg (some pbField) row ↔
      (keySegment pidb ptdb idxseg (some pbField)).take cbAvail =
        (keySegment pidb ptdb idxseg row).take cbAvail := by
  have hsame : ∀ value, pbField <+: value →
      (keySegment pidb ptdb idxseg (some value)).take cbAvail =
        (keySegment pidb ptdb idxseg (some pbField)).take cbAvail := by
    intro value hpre
    rcases Nat.lt_or_ge (dataEnd pbField) cbAvail with hlt | hle
    · -- the index cuts both segments at the same place
      have hvalue : value ≠ [] := BeginsAlike.ne_nil (.inl hpre) h
      have hlen := dataEnd_lt h
      have hle := BeginsAlike.length_le (.inl hpre) h
      have hlimit := length_cut pidb (binarySegment pbField false)
      have hlimit' := length_cut pidb (binarySegment value false)
      have hseg : (keySegment pidb ptdb idxseg (some pbField)).length =
        (cut pidb (binarySegment pbField false)).length := by
        rw [keySegment_var hfixed hbin h, length_flip]
      have hseg' : (keySegment pidb ptdb idxseg (some value)).length =
        (cut pidb (binarySegment value false)).length := by
        rw [keySegment_var hfixed hbin hvalue, length_flip]
      have hpart : (keySegment pidb ptdb idxseg (some value)).take (dataEnd pbField)
          = (keySegment pidb ptdb idxseg (some pbField)).take (dataEnd pbField) :=
        keySegment_take_of_isPrefix hfixed hbin h hpre (Nat.le_refl _)
      rw [List.take_of_length_le, List.take_of_length_le] at hpart
      · rw [hpart]
      · split at hlimit <;> omega
      · split at hlimit <;> split at hlimit' <;> omega
    · exact keySegment_take_of_isPrefix hfixed hbin h hpre hle
  unfold StartsWith
  rw [Option.getD_some, if_neg h]
  constructor
  · rintro ⟨value, hpre, heq⟩
    rw [← hsame value hpre, heq]
  · exact fun heq => ⟨pbField, List.prefix_rfl, heq⟩

include hmac

/-- The row's segment goes on as that of the specified data up to its end if the data begins
alike. -/
theorem keySegment_take_dataEnd_iff {pbField : List Byte} {row : Option (List Byte)}
    (h : pbField ≠ [])
    (hrow : ∀ pbField ∈ row, (ptdb idxseg.columnid).Holds (fCOLUMNIDFixed idxseg.columnid) pbField)
    (hend : dataEnd pbField < (keySegment pidb ptdb idxseg (some pbField)).length) :
    (keySegment pidb ptdb idxseg (some pbField)).take (dataEnd pbField)
        = (keySegment pidb ptdb idxseg row).take (dataEnd pbField) ↔
      BeginsAlike pbField (row.getD []) := by
  have hpos : 0 < dataEnd pbField := by
    unfold dataEnd
    omega
  by_cases hempty : row.getD [] = []
  · -- the first byte tells
    refine iff_of_false (fun heq => ?_) fun halike => halike.ne_nil h hempty
    have hfield : ∀ value ∈ some pbField, (ptdb idxseg.columnid).Holds
      (fCOLUMNIDFixed idxseg.columnid) value :=
      fun _ _ =>
        ⟨fun hc => absurd (hbin ▸ hc) (by decide), fun hc => absurd (hfixed ▸ hc) (by decide)⟩
    obtain ⟨rgb, hseg⟩ := head_segment hmac hfield
    obtain ⟨rgb', hseg'⟩ := head_segment hmac hrow
    rw [keySegment, keySegment, ← flip_take, ← flip_take, hseg, hseg'] at heq
    have heq := flip_inj heq
    obtain ⟨m, hm⟩ := Nat.exists_eq_add_one_of_ne_zero (Nat.ne_of_gt hpos)
    rw [hm, List.take_succ_cons, List.take_succ_cons, List.cons.injEq, bPrefix, if_neg h] at heq
    have hbyte := heq.1
    unfold bPrefix at hbyte
    cases row with
    | none =>
      dsimp only at hbyte
      split at hbyte <;> exact absurd hbyte (by decide)
    | some value =>
      dsimp only at hbyte
      rw [if_pos (show value = [] from hempty)] at hbyte
      exact absurd hbyte (by decide)
  · obtain ⟨value, rfl⟩ : ∃ value, row = some value := by
      cases row with
      | none => exact absurd rfl hempty
      | some value => exact ⟨value, rfl⟩
    rw [Option.getD_some] at hempty ⊢
    rw [← chunks_isPrefix_iff h hempty]
    rw [keySegment_var hfixed hbin h, length_flip, length_cut] at hend
    have hcut : (if pidb.cbVarSegMacT < pidb.cbKeyMost then min (dataEnd pbField) pidb.cbVarSegMacT
        else dataEnd pbField) = dataEnd pbField := by
      split
      · split at hend <;> omega
      · rfl
    rw [keySegment_var hfixed hbin h, keySegment_var hfixed hbin hempty, ← flip_take, ← flip_take,
      cut_take, cut_take, hcut,
      binarySegment, binarySegment, if_neg Bool.false_ne_true, if_neg Bool.false_ne_true]
    obtain ⟨m, hm⟩ := Nat.exists_eq_add_one_of_ne_zero (Nat.ne_of_gt hpos)
    have hlen := dataEnd_lt h
    rw [binarySegment, if_neg Bool.false_ne_true, List.length_cons] at hlen
    rw [hm, List.take_succ_cons, List.take_succ_cons, Nat.add_sub_cancel]
    constructor
    · intro heq
      have heq := flip_inj heq
      rw [List.cons.injEq] at heq
      rw [heq.2]
      exact List.take_prefix _ _
    · rintro ⟨w, hw⟩
      rw [← hw, List.take_append_of_le_length (by rw [List.length_take]; omega), List.take_take,
        Nat.min_self]

/-- The row's segment tells whether it starts with the data, but for zeros that are taken for
padding where the segment is cut. -/
theorem startsWith_iff_of_lt {pbField : List Byte} {row : Option (List Byte)} {cbAvail : Nat}
    (h : pbField ≠ [])
    (hrow : ∀ pbField ∈ row, (ptdb idxseg.columnid).Holds (fCOLUMNIDFixed idxseg.columnid) pbField)
    (hend : dataEnd pbField < min cbAvail (keySegment pidb ptdb idxseg (some pbField)).length) :
    StartsWith pidb ptdb cbAvail idxseg (some pbField) row ↔
      BeginsAlike pbField (row.getD []) ∧
        ¬ (ZerosPad pbField (row.getD []) ∧ Uncut pidb cbAvail pbField) := by
  have halike := keySegment_take_dataEnd_iff hmac hfixed hbin h hrow (by omega)
  have hdata : ∀ {value}, row.getD [] = value → value ≠ [] → row = some value := by
    intro value heq hne
    cases row with
    | none => exact absurd heq.symm hne
    | some _ => exact congrArg some heq
  unfold StartsWith
  rw [Option.getD_some, if_neg h]
  generalize hvalue : row.getD [] = value at halike
  constructor
  · rintro ⟨longer, hpre, heq⟩
    have hbegins : BeginsAlike pbField value := by
      rw [← halike, ← keySegment_take_of_isPrefix hfixed hbin h hpre (Nat.le_refl _)]
      have hcut := congrArg (List.take (dataEnd pbField)) heq
      rwa [List.take_take, List.take_take, Nat.min_eq_left (by omega)] at hcut
    refine ⟨hbegins, fun ⟨hpad, huncut, hlimit⟩ => ?_⟩
    have hne := hbegins.ne_nil h
    obtain rfl := hdata hvalue hne
    have hlonger : longer ≠ [] := BeginsAlike.ne_nil (.inl hpre) h
    -- the row's segment is whole, and no other segment begins with it
    have hlen : (binarySegment value false).length = (binarySegment pbField false).length := by
      rw [binarySegment, binarySegment, List.length_cons, List.length_cons,
        if_neg Bool.false_ne_true,
        if_neg Bool.false_ne_true, (chunks_of_zerosPad hne hpad).1]
    rw [keySegment_var hfixed hbin hlonger, keySegment_var hfixed hbin hne, ← flip_take,
      ← flip_take] at heq
    have heq := flip_inj heq
    rw [cut_take, cut_take, List.take_of_length_le (show (binarySegment value false).length ≤ _ by
      rw [hlen]
      split
      · next hlt => exact Nat.le_min.2 ⟨huncut, hlimit hlt⟩
      · exact huncut)] at heq
    have hwhole : binarySegment value false <+: binarySegment longer false :=
      heq ▸ List.take_prefix _ _
    rw [binarySegment, binarySegment, if_neg Bool.false_ne_true, if_neg Bool.false_ne_true,
      List.cons_prefix_cons] at hwhole
    have hsame : chunks value = chunks longer := by
      rw [← (chunks_apart value longer).isPrefix_append_iff [], List.append_nil]
      exact hwhole.2
    have hle := hpre.length_le
    rw [← chunks_inj hsame] at hle
    obtain ⟨n, rfl, -⟩ := hpad
    rw [List.length_append, List.length_replicate] at hle
    omega
  · rintro ⟨hbegins, hnot⟩
    have hne := hbegins.ne_nil h
    obtain rfl := hdata hvalue hne
    rcases hbegins with hpre | hpad
    · exact ⟨value, hpre, rfl⟩
    · -- the count that tells them apart is cut off
      refine ⟨pbField, List.prefix_rfl, ?_⟩
      obtain ⟨hlen, htake⟩ := chunks_of_zerosPad hne hpad
      rw [keySegment_var hfixed hbin h, keySegment_var hfixed hbin hne, ← flip_take, ← flip_take,
        cut_take, cut_take]
      congr 1
      generalize hmin : (if pidb.cbVarSegMacT < pidb.cbKeyMost then min cbAvail pidb.cbVarSegMacT
        else cbAvail) = k
      have hk : k < (binarySegment pbField false).length := by
        rw [← hmin]
        by_contra hge
        refine hnot ⟨hpad, ?_, fun hlt => ?_⟩
        · split at hge <;> omega
        · rw [if_pos hlt] at hge
          omega
      rw [binarySegment, if_neg Bool.false_ne_true, List.length_cons] at hk
      rw [binarySegment, binarySegment, if_neg Bool.false_ne_true, if_neg Bool.false_ne_true]
      cases k with
      | zero => rfl
      | succ k =>
        have hcut := congrArg (List.take k) htake
        rw [List.take_take, List.take_take, Nat.min_eq_left (by omega)] at hcut
        rw [List.take_succ_cons, List.take_succ_cons, hcut]

end

end Ese.Norm
