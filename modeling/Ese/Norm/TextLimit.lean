import Ese.Norm.MakeKey

/-!
# Partial limits on text columns

A partial column limit cuts a Unicode segment at the delimiter behind its base weights. The scan for
the delimiter is bounded by the key space that is left, not by the segment: a segment that
`cbVarSegMac` cut in front of its delimiter is scanned past its end, and what the buffer held before
decides the limit.
-/

namespace Ese.Norm

def usUniCodePage : Nat := 1200
def bUnicodeSortKeySentinel : Byte := 0x01
def bASCIISortKeyTerminator : Byte := 0x00

/-- `plineNorm`: a segment of `cb` bytes at the start of its buffer. -/
structure LineNorm where
  pbNorm : Mem
  cb : Nat

/-- The bytes of the segment. -/
def LineNorm.rgb (plineNorm : LineNorm) : List Byte := plineNorm.pbNorm.read 0 plineNorm.cb

/-- The segment with its limit, and the offsets of the buffer that were read. -/
structure TextLimit where
  plineNorm : LineNorm
  rgibRead : List Nat

/-- `FLDISetFullColumnLimit` on the buffer. -/
def LineNorm.setFullColumnLimit (plineNorm : LineNorm) (cbAvailWithSuffix : Nat)
    (fNeedSentinel : Bool) : LineNorm :=
  if fNeedSentinel then
    let cbSentinelPadding := cbAvailWithSuffix - plineNorm.cb
    ⟨plineNorm.pbNorm.fill plineNorm.cb cbSentinelPadding bSentinel,
      plineNorm.cb + cbSentinelPadding⟩
  else plineNorm

/-- The loop for the end of the base weights; the byte is read before the bound is tested. -/
def scanDelimiter (pbNorm : Mem) (bUnicodeDelimiter : Byte) (ibSuffix ibT : Nat) : Nat × List Nat :=
  if pbNorm ibT ≠ bUnicodeDelimiter ∧ ibT < ibSuffix then
    let r := scanDelimiter pbNorm bUnicodeDelimiter ibSuffix (ibT + 1)
    (r.1, ibT :: r.2)
  else (ibT, [ibT])
termination_by ibSuffix - ibT

/-- A delimiter of a sort key, as it stands in a segment. -/
def bDelimiter (b : Byte) (fDescending : Bool) : Byte := b ^^^ (if fDescending then 0xff else 0x00)

def fldISetPartialColumnLimitOnTextColumn (plineNorm : LineNorm) (cbAvailWithSuffix : Nat)
    (fDescending fNeedSentinel : Bool) (cp : Nat) : TextLimit :=
  let ibSuffix := cbAvailWithSuffix - 1
  if plineNorm.cb < 2 then ⟨plineNorm.setFullColumnLimit cbAvailWithSuffix fNeedSentinel, []⟩
  else
    let scan :=
      if usUniCodePage = cp then
        scanDelimiter plineNorm.pbNorm (bDelimiter bUnicodeSortKeySentinel fDescending) ibSuffix 1
      else
        let bTerminator := bDelimiter bASCIISortKeyTerminator fDescending
        let ibT := plineNorm.cb
        (if bTerminator = plineNorm.pbNorm (ibT - 1) then ibT - 1 else ibT, [ibT - 1])
    let ibT := min scan.1 ibSuffix
    if fNeedSentinel then
      ⟨⟨plineNorm.pbNorm.fill ibT (ibSuffix - ibT + 1) bSentinel, cbAvailWithSuffix⟩, scan.2⟩
    else ⟨⟨plineNorm.pbNorm, ibT⟩, scan.2⟩

/-! ## The bytes of a limit -/

theorem rgb_fill (pbNorm : Mem) (ib n : Nat) :
    LineNorm.rgb ⟨pbNorm.fill ib n bSentinel, ib + n⟩ = pbNorm.read 0 ib ++
      List.replicate n bSentinel := by
  have hlen : (List.replicate n bSentinel).length = n := List.length_replicate
  have hsame := Mem.read_write_same pbNorm ib (List.replicate n bSentinel)
  rw [hlen] at hsame
  rw [LineNorm.rgb, Mem.read_add, Mem.fill, Nat.zero_add, hsame, Mem.read_write_disjoint _ _
    (Or.inl (by omega))]

/-- On the segment's bytes it is the full limit of the search key. -/
theorem rgb_setFullColumnLimit (plineNorm : LineNorm) (cbAvailWithSuffix : Nat)
    (fNeedSentinel : Bool) :
    (plineNorm.setFullColumnLimit cbAvailWithSuffix fNeedSentinel).rgb
      = fldISetFullColumnLimit plineNorm.rgb cbAvailWithSuffix fNeedSentinel := by
  rw [LineNorm.setFullColumnLimit, fldISetFullColumnLimit]
  split
  · dsimp only
    rw [rgb_fill, LineNorm.rgb, Mem.length_read]
  · rfl

/-! ## The scan -/

section
variable {pbNorm : Mem} {b : Byte} {ibSuffix ibT i : Nat}

/-- The scan stops at the first delimiter, and reads nothing behind it. -/
theorem scanDelimiter_eq (hle : ibT ≤ i) (hi : i ≤ ibSuffix) (hne : ∀ k, ibT ≤ k → k < i →
    pbNorm k ≠ b)
    (hb : pbNorm i = b) :
    scanDelimiter pbNorm b ibSuffix ibT = (i, List.range' ibT (i - ibT + 1)) := by
  induction hd : i - ibT generalizing ibT with
  | zero =>
    obtain rfl : ibT = i := by omega
    rw [scanDelimiter, if_neg fun hc => hc.1 hb]
    rfl
  | succ d ih =>
    rw [scanDelimiter, if_pos ⟨hne ibT (Nat.le_refl _) (by omega), by omega⟩,
      ih (by omega) (fun k hk => hne k (by omega)) (by omega)]
    rfl

/-- Without a delimiter in between every byte of the key space is read. -/
theorem mem_scanDelimiter (hle : ibT ≤ i) (hi : i ≤ ibSuffix) (hne : ∀ k, ibT ≤ k → k < i →
    pbNorm k ≠ b) :
    i ∈ (scanDelimiter pbNorm b ibSuffix ibT).2 := by
  induction hd : i - ibT generalizing ibT with
  | zero =>
    obtain rfl : ibT = i := by omega
    rw [scanDelimiter]
    split
    · exact List.mem_cons_self
    · exact List.mem_cons_self
  | succ d ih =>
    rw [scanDelimiter, if_pos ⟨hne ibT (Nat.le_refl _) (by omega), by omega⟩]
    exact List.mem_cons_of_mem _ (ih (by omega) (fun k hk => hne k (by omega)) (by omega))

end

/-! ## What a limit depends on -/

/-- Whatever stands behind the segment, only its own bytes are read and the limit is the same. -/
def DependsOnSegment (plineNorm : LineNorm) (cbAvailWithSuffix : Nat)
    (fDescending fNeedSentinel : Bool) (cp : Nat) :
    Prop :=
  ∀ pbNorm' : Mem, (∀ ib < plineNorm.cb, pbNorm' ib = plineNorm.pbNorm ib) →
    (∀ ib ∈ (fldISetPartialColumnLimitOnTextColumn ⟨pbNorm', plineNorm.cb⟩ cbAvailWithSuffix
      fDescending fNeedSentinel
      cp).rgibRead, ib < plineNorm.cb) ∧
    (fldISetPartialColumnLimitOnTextColumn ⟨pbNorm', plineNorm.cb⟩ cbAvailWithSuffix fDescending
        fNeedSentinel
        cp).plineNorm.rgb
      = (fldISetPartialColumnLimitOnTextColumn plineNorm cbAvailWithSuffix fDescending fNeedSentinel
        cp).plineNorm.rgb

section
variable (pbNorm : Mem) {cb cbAvailWithSuffix : Nat} (fDescending fNeedSentinel : Bool)

/-- A prefix byte alone gets the full column limit. -/
theorem fldISetPartialColumnLimitOnTextColumn_short (hcb : cb < 2) (cbAvailWithSuffix cp : Nat) :
    (fldISetPartialColumnLimitOnTextColumn ⟨pbNorm, cb⟩ cbAvailWithSuffix fDescending fNeedSentinel
      cp).rgibRead = [] ∧
      (fldISetPartialColumnLimitOnTextColumn ⟨pbNorm, cb⟩ cbAvailWithSuffix fDescending
        fNeedSentinel cp).plineNorm.rgb
        = fldISetFullColumnLimit (pbNorm.read 0 cb) cbAvailWithSuffix fNeedSentinel := by
  rw [fldISetPartialColumnLimitOnTextColumn]
  dsimp only
  rw [if_pos hcb]
  exact ⟨rfl, rgb_setFullColumnLimit _ _ _⟩

/-- The segment is cut at the first delimiter of the key space. -/
theorem fldISetPartialColumnLimitOnTextColumn_delimiter {i : Nat} (h2 : 2 ≤ cb) (hi : 1 ≤ i)
    (hlt : i < cbAvailWithSuffix)
    (hne : ∀ k, 1 ≤ k → k < i → pbNorm k ≠ bDelimiter bUnicodeSortKeySentinel fDescending)
    (hb : pbNorm i = bDelimiter bUnicodeSortKeySentinel fDescending) :
    (fldISetPartialColumnLimitOnTextColumn ⟨pbNorm, cb⟩ cbAvailWithSuffix fDescending fNeedSentinel
        usUniCodePage).rgibRead = List.range' 1 (i - 1 + 1) ∧
      (fldISetPartialColumnLimitOnTextColumn ⟨pbNorm, cb⟩ cbAvailWithSuffix fDescending
        fNeedSentinel
        usUniCodePage).plineNorm.rgb
        = pbNorm.read 0 i ++ if fNeedSentinel then List.replicate (cbAvailWithSuffix - i) bSentinel
          else [] := by
  have hscan := scanDelimiter_eq hi (show i ≤ cbAvailWithSuffix - 1 by omega) hne hb
  have hmin : min i (cbAvailWithSuffix - 1) = i := Nat.min_eq_left (by omega)
  rw [fldISetPartialColumnLimitOnTextColumn]
  dsimp only
  rw [if_neg (by omega), if_pos rfl, hscan]
  dsimp only
  rw [hmin]
  cases fNeedSentinel
  · exact ⟨rfl, (List.append_nil _).symm⟩
  · refine ⟨rfl, ?_⟩
    have hfill := rgb_fill pbNorm i (cbAvailWithSuffix - 1 - i + 1)
    rw [show i + (cbAvailWithSuffix - 1 - i + 1) = cbAvailWithSuffix by omega] at hfill
    rw [if_pos rfl, show cbAvailWithSuffix - i = cbAvailWithSuffix - 1 - i + 1 by omega]
    exact hfill

/-- The partial limit on a Unicode segment depends on the segment alone exactly when the segment is
its prefix byte or holds its delimiter. -/
theorem dependsOnSegment_iff (plineNorm : LineNorm) (hlt : plineNorm.cb < cbAvailWithSuffix) :
    DependsOnSegment plineNorm cbAvailWithSuffix fDescending fNeedSentinel usUniCodePage ↔
      plineNorm.cb < 2 ∨ ∃ i, 1 ≤ i ∧ i < plineNorm.cb ∧
        plineNorm.pbNorm i = bDelimiter bUnicodeSortKeySentinel fDescending := by
  obtain ⟨pbNorm, cb⟩ := plineNorm
  dsimp only at hlt ⊢
  constructor
  · intro hdep
    by_contra hnot
    obtain ⟨h2, hnone⟩ := not_or.1 hnot
    have hread := (hdep pbNorm fun _ _ => rfl).1 cb
    have hmem : cb ∈ (scanDelimiter pbNorm (bDelimiter bUnicodeSortKeySentinel fDescending)
        (cbAvailWithSuffix - 1) 1).2 :=
      mem_scanDelimiter (by omega) (by omega) fun k hk hkcb hkb => hnone ⟨k, hk, hkcb, hkb⟩
    rw [fldISetPartialColumnLimitOnTextColumn] at hread
    dsimp only at hread
    rw [if_neg h2, if_pos rfl] at hread
    have hlt' : cb < cb := by
      refine hread ?_
      split
      · exact hmem
      · exact hmem
    exact Nat.lt_irrefl _ hlt'
  · rintro (h2 | hdelim) pbNorm' hsame
    · change ∀ ib < cb, pbNorm' ib = pbNorm ib at hsame
      obtain ⟨hread', hrgb'⟩ :=
        fldISetPartialColumnLimitOnTextColumn_short pbNorm' fDescending fNeedSentinel h2
          cbAvailWithSuffix usUniCodePage
      obtain ⟨-, hrgb⟩ :=
        fldISetPartialColumnLimitOnTextColumn_short pbNorm fDescending fNeedSentinel h2
          cbAvailWithSuffix usUniCodePage
      refine ⟨fun ib hib => ?_, ?_⟩
      · rw [hread'] at hib
        cases hib
      · rw [hrgb', hrgb, Mem.read_congr fun ib _ hib => hsame ib (by omega)]
    · change ∀ ib < cb, pbNorm' ib = pbNorm ib at hsame
      -- the first delimiter of the segment
      obtain ⟨i, ⟨hi, hicb, hb⟩, hmin⟩ : ∃ i, (1 ≤ i ∧ i < cb ∧
          pbNorm i = bDelimiter bUnicodeSortKeySentinel fDescending) ∧
          ∀ k < i, ¬(1 ≤ k ∧ k < cb ∧ pbNorm k = bDelimiter bUnicodeSortKeySentinel fDescending) :=
        ⟨Nat.find hdelim, Nat.find_spec hdelim, fun k hk => Nat.find_min hdelim hk⟩
      have hne (k : Nat) (hk : 1 ≤ k) (hki : k < i) :
        pbNorm k ≠ bDelimiter bUnicodeSortKeySentinel fDescending :=
        fun hkb => hmin k hki ⟨hk, by omega, hkb⟩
      have hne' (k : Nat) (hk : 1 ≤ k) (hki : k < i) :
          pbNorm' k ≠ bDelimiter bUnicodeSortKeySentinel fDescending := by
        rw [hsame k (by omega)]
        exact hne k hk hki
      obtain ⟨hread', hrgb'⟩ :=
        fldISetPartialColumnLimitOnTextColumn_delimiter pbNorm' fDescending fNeedSentinel
        (show 2 ≤ cb by omega) hi (show i < cbAvailWithSuffix by omega) hne'
        ((hsame i hicb).trans hb)
      obtain ⟨-, hrgb⟩ :=
        fldISetPartialColumnLimitOnTextColumn_delimiter pbNorm fDescending fNeedSentinel
        (show 2 ≤ cb by omega) hi (show i < cbAvailWithSuffix by omega) hne hb
      refine ⟨fun ib hib => ?_, ?_⟩
      · rw [hread', List.mem_range'_1] at hib
        show ib < cb
        omega
      · rw [hrgb', hrgb, Mem.read_congr fun ib _ hib => hsame ib (by omega)]

/-- A sort key with its delimiter. -/
theorem dependsOnSegment_sortKey :
    DependsOnSegment ⟨fun ib => [0x7f, 0xce, 0x93, 0x16, 0x01].getD ib 0x00, 5⟩ 12 false true
      usUniCodePage :=
  (dependsOnSegment_iff false true ⟨fun ib => [0x7f, 0xce, 0x93, 0x16, 0x01].getD ib 0x00, 5⟩
    (show 5 < 12 by decide)).2 (Or.inr ⟨4, by decide, by decide, by decide⟩)

/-- The same sort key, cut in front of its delimiter: a byte left over in the buffer becomes part of
the limit. -/
theorem not_dependsOnSegment_stale :
    ¬(∀ (plineNorm : LineNorm) (cbAvailWithSuffix : Nat) (fDescending fNeedSentinel : Bool),
      0 < plineNorm.cb → plineNorm.cb < cbAvailWithSuffix →
        DependsOnSegment plineNorm cbAvailWithSuffix fDescending fNeedSentinel usUniCodePage) ∧
    (fldISetPartialColumnLimitOnTextColumn ⟨fun ib => [0x7f, 0xce, 0x93, 0x01].getD ib 0x00, 3⟩ 12
      false false
      usUniCodePage).plineNorm.rgb = [0x7f, 0xce, 0x93] ∧
    (fldISetPartialColumnLimitOnTextColumn ⟨fun ib => [0x7f, 0xce, 0x93, 0x16, 0x01].getD ib 0x00,
      3⟩ 12 false false
      usUniCodePage).plineNorm.rgb = [0x7f, 0xce, 0x93, 0x16] := by
  have hcut :=
    (fldISetPartialColumnLimitOnTextColumn_delimiter
    (fun ib => [0x7f, 0xce, 0x93, 0x01].getD ib 0x00) false
    false (show 2 ≤ 3 by decide) (show 1 ≤ 3 by decide) (show 3 < 12 by decide)
    (fun k hk hk3 => by
      obtain rfl | rfl : k = 1 ∨ k = 2 := by omega
      · decide
      · decide) (by decide)).2
  have hstale := (fldISetPartialColumnLimitOnTextColumn_delimiter
    (fun ib => [0x7f, 0xce, 0x93, 0x16, 0x01].getD ib 0x00) false false (show 2 ≤ 3 by decide)
    (show 1 ≤ 4 by decide)
    (show 4 < 12 by decide)
    (fun k hk hk4 => by
      obtain rfl | rfl | rfl : k = 1 ∨ k = 2 ∨ k = 3 := by omega
      · decide
      · decide
      · decide) (by decide)).2
  refine ⟨fun hall => ?_, hcut, hstale⟩
  have hsame :=
    (hall ⟨fun ib => [0x7f, 0xce, 0x93, 0x01].getD ib 0x00, 3⟩ 12 false false (by decide)
    (by decide)
    (fun ib => [0x7f, 0xce, 0x93, 0x16, 0x01].getD ib 0x00) fun ib (hib : ib < 3) => by
      obtain rfl | rfl | rfl : ib = 0 ∨ ib = 1 ∨ ib = 2 := by omega
      · rfl
      · rfl
      · rfl).2
  exact absurd (hstale.symm.trans (hsame.trans hcut)) (by decide)

end

end Ese.Norm
