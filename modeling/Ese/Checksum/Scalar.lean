import Ese.Checksum.Parity

/-!
# The scalar implementations

`ChecksumNewFormatSlowly` and `ChecksumNewFormatSSE` read the block as rows of 128 bits, two rows
per iteration; they differ in a prefetch. The loop is entered behind its first two reads when the
block is a header block, with zero for the two words. `ChecksumNewFormat64Bit` reads rows of 32
bits and starts a header block at the third.

A loop's state after `t` iterations is a closed form over the block's words (`Rows128.at`,
`Rows32.at`): the step lemma takes one closed form to the next, the run lemma takes the first to the
last.
-/

namespace Ese

/-! ## Rows of 128 bits -/

/-- The locals of the loop over 128-bit rows. -/
structure Rows128 where
  p : ULONG
  p0 : ULONG
  p1 : ULONG
  p2 : ULONG
  p3 : ULONG
  idxp : ULONG
  i : Nat

/-- The loop body from the label `Start` on. -/
def Rows128.start (pdw : Nat → ULONG) (pT0 pT1 : ULONG) (s : Rows128) : Rows128 :=
  let pT2 := pdw (s.i + 2)
  let pT3 := pdw (s.i + 3)
  let p := s.p ^^^ (s.idxp &&& lParityMask (pT0 ^^^ pT1 ^^^ pT2 ^^^ pT3))
  let idxp := s.idxp + 0xff800080
  let pT4 := pdw (s.i + 4)
  let pT5 := pdw (s.i + 5)
  let pT6 := pdw (s.i + 6)
  let pT7 := pdw (s.i + 7)
  { p := p ^^^ (idxp &&& lParityMask (pT4 ^^^ pT5 ^^^ pT6 ^^^ pT7))
    p0 := s.p0 ^^^ pT0 ^^^ pT4
    p1 := s.p1 ^^^ pT1 ^^^ pT5
    p2 := s.p2 ^^^ pT2 ^^^ pT6
    p3 := s.p3 ^^^ pT3 ^^^ pT7
    idxp := idxp + 0xff800080
    i := s.i + 8 }

/-- The loop, entered at `Start` with the first two words of the row. -/
def Rows128.loop (pdw : Nat → ULONG) (cdw : Nat) (pT0 pT1 : ULONG) (s : Rows128) : Rows128 :=
  let s' := s.start pdw pT0 pT1
  if s'.i < cdw then Rows128.loop pdw cdw (pdw s'.i) (pdw (s'.i + 1)) s' else s'
termination_by cdw - s.i
decreasing_by
  have hi : (s.start pdw pT0 pT1).i = s.i + 8 := rfl
  have hlt : (s.start pdw pT0 pT1).i < cdw := by assumption
  show cdw - (s.start pdw pT0 pT1).i < cdw - s.i
  omega

/-- The loop over the 32 column bits: `i` runs over the one-bit words. -/
def columnLoop (r2 : ULONG) : ULONG :=
  (distribute 0xffff0000 0xffff0001 (fun k => -(if r2 &&& (1#32 <<< k) = 0 then 0 else 1)) 32).1

/-- The code both 128-bit routines share. -/
def checksumNewFormat128 (pb : Mem) (cb : Nat) (pgno : ULONG) (fHeaderBlock : Bool) : XECHECKSUM :=
  let pdw := pdw pb
  let cdw := cb / 4
  let s₀ : Rows128 := ⟨0, 0, 0, 0, 0, 0xff800000, 0⟩
  let s := if fHeaderBlock then s₀.loop pdw cdw 0 0 else s₀.loop pdw cdw (pdw 0) (pdw 1)
  let p := s.p ||| (0x00400000 &&& lParityMask (s.p0 ^^^ s.p1))
  let p := p ||| (0x00000040 &&& lParityMask (s.p2 ^^^ s.p3))
  let r0 := s.p0 ^^^ s.p2
  let r1 := s.p1 ^^^ s.p3
  let p := p ||| (0x00200000 &&& lParityMask r0)
  let p := p ||| (0x00000020 &&& lParityMask r1)
  let r2 := r0 ^^^ r1
  let r := columnLoop r2
  let mask := eccMask cb
  let ecc := p &&& 0xffe0ffe0 &&& mask ||| r &&& 0x001f001f
  let xor := r2
  makeChecksumFromECCXORAndPgno ecc xor pgno

def checksumNewFormatSlowly := checksumNewFormat128

/-- The same code with a prefetch, which reads nothing. -/
def checksumNewFormatSSE := checksumNewFormat128

/-! ## Rows of 32 bits -/

/-- The locals of the loop over 32-bit rows. -/
structure Rows32 where
  dwColumnParity : ULONG
  p : ULONG
  q : ULONG

/-- One row of the loop. -/
def Rows32.step (rgdwRow : Nat → ULONG) (iRow : Nat) (s : Rows32) : Rows32 :=
  let dwRow := rgdwRow iRow
  let maskRow := lParityMask dwRow
  { dwColumnParity := s.dwColumnParity ^^^ dwRow
    p := s.p ^^^ (maskRow &&& BitVec.ofNat 32 iRow)
    q := s.q ^^^ (maskRow &&& ~~~BitVec.ofNat 32 iRow) }

/-- The rows from `iRow` on. -/
def Rows32.loop (rgdwRow : Nat → ULONG) (cRow iRow : Nat) (s : Rows32) : Rows32 :=
  if iRow < cRow then Rows32.loop rgdwRow cRow (iRow + 1) (s.step rgdwRow iRow) else s
termination_by cRow - iRow

/-- The column values `r` and `s` after `n` columns. -/
def columnLoop32 (dwColumnParity : ULONG) : Nat → ULONG × ULONG
  | 0 => (0, 0)
  | iColumn + 1 =>
    let (r, s) := columnLoop32 dwColumnParity iColumn
    let maskColumn : ULONG := -(if dwColumnParity &&& (1#32 <<< iColumn) = 0 then 0 else 1)
    (r ^^^ (maskColumn &&& BitVec.ofNat 32 iColumn),
      s ^^^ (maskColumn &&& ~~~BitVec.ofNat 32 iColumn))

def checksumNewFormat64Bit (pb : Mem) (cb : Nat) (pgno : ULONG) (fHeaderBlock : Bool) :
    XECHECKSUM :=
  let rgdwRow := pdw pb
  let cColumn := 32
  let cRow := cb / (cColumn / 8)
  let rows := Rows32.loop rgdwRow cRow (if fHeaderBlock then 2 else 0) ⟨0, 0, 0⟩
  let (r, s) := columnLoop32 rows.dwColumnParity cColumn
  let ulEcc := ((rows.q &&& (BitVec.ofNat 32 cRow - 1)) <<< 21) |||
    ((s &&& (BitVec.ofNat 32 cColumn - 1)) <<< 16) |||
    ((rows.p &&& (BitVec.ofNat 32 cRow - 1)) <<< 5) |||
    ((r &&& (BitVec.ofNat 32 cColumn - 1)) <<< 0)
  let ulXor := rows.dwColumnParity
  makeChecksumFromECCXORAndPgno ulEcc ulXor pgno

/-! ## The loop over 128-bit rows -/

/-- The double index of row `r` of 128 bits. -/
def rowIndex128 (r : Nat) : ULONG := runIndex 0xff800000 0xff800080 r

/-- The locals after `t` iterations over the words `a`. -/
def Rows128.at (a : Nat → ULONG) (t : Nat) : Rows128 where
  p := xorSum (2 * t) fun r => parityMask 32 (xorSum 4 fun j => a (4 * r + j)) &&& rowIndex128 r
  p0 := xorSum (2 * t) fun r => a (4 * r)
  p1 := xorSum (2 * t) fun r => a (4 * r + 1)
  p2 := xorSum (2 * t) fun r => a (4 * r + 2)
  p3 := xorSum (2 * t) fun r => a (4 * r + 3)
  idxp := rowIndex128 (2 * t)
  i := 8 * t

theorem xorSum_four (f : Nat → ULONG) : xorSum 4 f = f 0 ^^^ f 1 ^^^ f 2 ^^^ f 3 := by
  simp [xorSum]

section
variable {a pdw : Nat → ULONG} (hpdw : ∀ k, 2 ≤ k → pdw k = a k)
include hpdw

/-- One iteration. -/
theorem Rows128.start_at (t : Nat) :
    (Rows128.at a t).start pdw (a (8 * t)) (a (8 * t + 1)) = Rows128.at a (t + 1) := by
  have h2 : 2 * (t + 1) = 2 * t + 1 + 1 := by ring
  have h8 : 4 * (2 * t) = 8 * t := by ring
  have h8' : 4 * (2 * t + 1) = 8 * t + 4 := by ring
  have hrow := runIndex_succ 0xff800000 0xff800080
  simp only [Rows128.start, Rows128.at, rowIndex128, h2, xorSum_succ, xorSum_zero, BitVec.zero_xor,
    h8, h8',
    lParityMask_eq, hrow, Nat.add_zero]
  rw [hpdw _ (by omega), hpdw _ (by omega), hpdw _ (by omega), hpdw _ (by omega), hpdw _ (by omega),
    hpdw _ (by omega)]
  simp only [Nat.add_assoc, Nat.reduceAdd, BitVec.and_comm, Nat.mul_add, Nat.mul_one]

/-- The iterations left from the `t`-th on. -/
theorem Rows128.loop_at {t T : Nat} (ht : t < T) :
    (Rows128.at a t).loop pdw (8 * T) (a (8 * t)) (a (8 * t + 1)) = Rows128.at a T := by
  induction hd : T - t generalizing t with
  | zero => omega
  | succ d ih =>
    rw [Rows128.loop, Rows128.start_at hpdw]
    have hi : (Rows128.at a (t + 1)).i = 8 * (t + 1) := rfl
    rw [hi]
    by_cases hlt : t + 1 < T
    · rw [if_pos (by omega), hpdw _ (by omega), hpdw _ (by omega), ih hlt (by omega)]
    · rw [if_neg (by omega), show t + 1 = T by omega]

end

/-! ## The columns of a block -/

/-- A bit test spread over a word, as the column loops write it. -/
theorem neg_bit_eq_pick (x : ULONG) {k : Nat} (hk : k < 32) :
    -(if x &&& (1#32 <<< k) = 0 then 0 else 1 : ULONG) = pick (x.getLsbD k)
      (BitVec.allOnes 32) := by
  have h0 : BitVec.twoPow 32 k ≠ 0 := fun h => by
    have := congrArg (fun y => y.getLsbD k) h
    simp [hk] at this
  rw [← BitVec.twoPow_eq, BitVec.and_twoPow]
  cases x.getLsbD k
  · simp
  · rw [if_pos rfl, if_neg h0]
    rfl

/-- The running double index of the column loop is the double index. -/
theorem columnLoop_eq (x : ULONG) : columnLoop x = indexSum x.getLsbD dblIndex 32 := by
  have hidx : ∀ k < 32, runIndex 0xffff0000 0xffff0001 k = dblIndex k := by
    decide +kernel
  rw [columnLoop, distribute_eq]
  refine xorSum_congr fun k hk => ?_
  rw [neg_bit_eq_pick x hk, hidx k hk, pick_allOnes_and]

/-- The field of the bits of a word is computed from the XOR of the words. -/
theorem columnLoop_and_field (a : Nat → ULONG) (n : Nat) :
    columnLoop (xorSum n a) &&& 0x001f001f = eccSum a n &&& field 0 5 := by
  rw [columnLoop_eq, eccSum_and_bits, show (0x001f001f : ULONG) = field 0 5 by decide, indexSum_and]

/-! ## The columns of 128-bit rows

Bit 6 of an index selects the last two of a row's four words, bit 5 the odd ones.
-/

section
variable (a : Nat → ULONG) (R : Nat)

theorem xorSum_column4 :
    column a 4 R 0 ^^^ column a 4 R 2 ^^^ (column a 4 R 1 ^^^ column a 4 R 3)
      = xorSum (R * 4) a := by
  rw [← xorSum_column, xorSum_four]
  ac_rfl

theorem column4_field6 :
    0x00400000 &&& lParityMask (column a 4 R 0 ^^^ column a 4 R 1) |||
        0x00000040 &&& lParityMask (column a 4 R 2 ^^^ column a 4 R 3)
      = eccSum a (R * 4) &&& field 6 1 := by
  obtain ⟨h0, h1, h2, h3⟩ : dblIndex (32 * 0) &&& field 6 1 = 0x00400000
      ∧ dblIndex (32 * 1) &&& field 6 1 = 0x00400000 ∧ dblIndex (32 * 2) &&& field 6 1 = 0x00000040
      ∧ dblIndex (32 * 3) &&& field 6 1 = 0x00000040 := by decide
  rw [eccSum_and_cols a (by decide) (by decide) fun j _ => rfl, xorSum_four, h0, h1, h2, h3,
    or_eq_xor_of_disjoint (by decide), lParityMask_eq, lParityMask_eq, parityMask_xor,
    parityMask_xor,
    BitVec.and_comm 0x00400000, BitVec.and_comm 0x00000040, xor_and_distrib, xor_and_distrib]
  ac_rfl

theorem column4_field5 :
    0x00200000 &&& lParityMask (column a 4 R 0 ^^^ column a 4 R 2) |||
        0x00000020 &&& lParityMask (column a 4 R 1 ^^^ column a 4 R 3)
      = eccSum a (R * 4) &&& field 5 1 := by
  obtain ⟨h0, h1, h2, h3⟩ : dblIndex (32 * 0) &&& field 5 1 = 0x00200000
      ∧ dblIndex (32 * 1) &&& field 5 1 = 0x00000020 ∧ dblIndex (32 * 2) &&& field 5 1 = 0x00200000
      ∧ dblIndex (32 * 3) &&& field 5 1 = 0x00000020 := by decide
  rw [eccSum_and_cols a (by decide) (by decide) fun j _ => rfl, xorSum_four, h0, h1, h2, h3,
    or_eq_xor_of_disjoint (by decide), lParityMask_eq, lParityMask_eq, parityMask_xor,
    parityMask_xor,
    BitVec.and_comm 0x00200000, BitVec.and_comm 0x00000020, xor_and_distrib, xor_and_distrib]
  ac_rfl

end

/-! ## The loops over 32-bit rows and columns -/

/-- The locals after the rows below `k` of the words `a`. -/
def Rows32.at (a : Nat → ULONG) (k : Nat) : Rows32 where
  dwColumnParity := xorSum k a
  p := xorSum k fun i => parityMask 32 (a i) &&& BitVec.ofNat 32 i
  q := xorSum k fun i => parityMask 32 (a i) &&& ~~~BitVec.ofNat 32 i

/-- The rows left from row `k` on. -/
theorem Rows32.loop_at {a rgdwRow : Nat → ULONG} {k n : Nat} (hk : k ≤ n)
    (hrow : ∀ i, k ≤ i → rgdwRow i = a i) :
    Rows32.loop rgdwRow n k (Rows32.at a k) = Rows32.at a n := by
  induction hd : n - k generalizing k with
  | zero => rw [Rows32.loop, if_neg (by omega), show k = n by omega]
  | succ d ih =>
    have hstep : (Rows32.at a k).step rgdwRow k = Rows32.at a (k + 1) := by
      simp only [Rows32.step, Rows32.at, xorSum_succ, lParityMask_eq, hrow k (Nat.le_refl k)]
    rw [Rows32.loop, if_pos (by omega), hstep,
      ih (by omega) (fun i hi => hrow i (by omega)) (by omega)]

theorem columnLoop32_eq (x : ULONG) {n : Nat} (hn : n ≤ 32) :
    columnLoop32 x n = (indexSum x.getLsbD (fun k => BitVec.ofNat 32 k) n,
      indexSum x.getLsbD (fun k => ~~~BitVec.ofNat 32 k) n) := by
  induction n with
  | zero => rfl
  | succ n ih =>
    rw [columnLoop32, ih (by omega)]
    simp only [neg_bit_eq_pick x (show n < 32 by omega), pick_allOnes_and, indexSum, xorSum_succ]

/-- A field of the code assembled from the values of its two halves. -/
def packField (lo wid : Nat) (q p : ULONG) : ULONG :=
  (q &&& (BitVec.ofNat 32 (2 ^ wid) - 1)) <<< (16 + lo) |||
    (p &&& (BitVec.ofNat 32 (2 ^ wid) - 1)) <<< lo

theorem ofNat_two_pow_sub_one (wid : Nat) :
    BitVec.ofNat 32 (2 ^ wid) - 1 = BitVec.ofNat 32 (2 ^ wid - 1) := by
  have := Nat.two_pow_pos wid
  rw [show (1 : ULONG) = BitVec.ofNat 32 1 from rfl, BitVec.ofNat_sub_ofNat_of_le _ _ (by decide)
    (by omega)]

section
variable {lo wid : Nat} (h : lo + wid ≤ 16)
include h

/-- The complement of an index and the index pack to the field of the double index. -/
theorem packField_index (k : Nat) :
    packField lo wid (~~~BitVec.ofNat 32 k) (BitVec.ofNat 32 k)
      = dblIndex (2 ^ lo * k) &&& field lo wid := by
  apply BitVec.eq_of_getLsbD_eq
  intro j hj
  rw [packField, ofNat_two_pow_sub_one]
  simp only [BitVec.getLsbD_or, BitVec.getLsbD_shiftLeft, BitVec.getLsbD_and, BitVec.getLsbD_not,
    BitVec.getLsbD_ofNat, Nat.testBit_two_pow_sub_one, getLsbD_dblIndex, getLsbD_field,
    Nat.testBit_two_pow_mul, hj, decide_true, Bool.true_and]
  by_cases h16 : j < 16
  · by_cases hl : lo ≤ j
    · have hf : j - lo < wid ↔ j < lo + wid := by omega
      simp [h16, hl, hf, show j < 16 + lo by omega, Nat.mod_eq_of_lt h16, show j - lo < 32 by omega,
        show ¬ j < lo by omega]
    · simp [h16, hl, Nat.mod_eq_of_lt h16, show j < lo by omega, show j < 16 + lo by omega]
  · have hlo : ¬ j - lo < wid := by omega
    by_cases hl : 16 + lo ≤ j
    · have hf : j % 16 < lo + wid ↔ j - (16 + lo) < wid := by omega
      simp [h16, hf, hlo, show lo ≤ j - 16 by omega, show lo ≤ j % 16 by omega,
        show ¬ j < 16 + lo by omega, show j - (16 + lo) < 32 by omega,
        show j - 16 - lo = j - (16 + lo) by omega]
    · simp [h16, hlo, show ¬ lo ≤ j % 16 by omega, show j < 16 + lo by omega]

/-- The two halves do not overlap. -/
theorem packField_eq_xor (q p : ULONG) :
    packField lo wid q p = ((q &&& (BitVec.ofNat 32 (2 ^ wid) - 1)) <<< (16 + lo)) ^^^
      ((p &&& (BitVec.ofNat 32 (2 ^ wid) - 1)) <<< lo) := by
  rw [packField, BitVec.shiftLeft_and_distrib, BitVec.shiftLeft_and_distrib,
    BitVec.and_comm (q <<< _),
    BitVec.and_comm (p <<< _)]
  refine or_eq_xor_of_disjoint ?_ _ _
  rw [ofNat_two_pow_sub_one]
  apply BitVec.eq_of_getLsbD_eq
  intro j hj
  simp only [BitVec.getLsbD_and, BitVec.getLsbD_shiftLeft, BitVec.getLsbD_ofNat,
    Nat.testBit_two_pow_sub_one]
  by_cases hl : 16 + lo ≤ j
  · simp [show ¬ j - lo < wid by omega]
  · simp [show j < 16 + lo by omega]

theorem packField_xorSum (n : Nat) (f g : Nat → ULONG) :
    packField lo wid (xorSum n f) (xorSum n g) = xorSum n fun k => packField lo wid (f k)
      (g k) := by
  simp only [packField_eq_xor h]
  rw [xorSum_xor]
  congr 1 <;>
    exact map_xorSum (fun x => (x &&& _) <<< _) (by simp)
      (fun x y => by rw [xor_and_distrib, BitVec.shiftLeft_xor_distrib]) n _

end

/-- The row values pack to the field of the row. -/
theorem packField_rows {wid : Nat} (h : 5 + wid ≤ 16) (a : Nat → ULONG) (n : Nat) :
    packField 5 wid (Rows32.at a n).q (Rows32.at a n).p = eccSum a n &&& field 5 wid := by
  have hk (x : ULONG) (k : Nat) :
      packField 5 wid (parityMask 32 x &&& ~~~BitVec.ofNat 32 k)
        (parityMask 32 x &&& BitVec.ofNat 32 k)
        = parityMask 32 x &&& (dblIndex (32 * k) &&& field 5 wid) := by
    rw [show 32 * k = 2 ^ 5 * k from rfl, ← packField_index h]
    obtain ⟨b, hb⟩ := parityMask_eq_pick x
    rw [hb, pick_allOnes_and, pick_allOnes_and, pick_allOnes_and]
    cases b
    · simp [packField]
    · rfl
  rw [eccSum_and_words a n wid (by decide), Rows32.at, packField_xorSum h]
  exact xorSum_congr fun k _ => hk (a k) k

/-- The column values pack to the field of the bits of a word. -/
theorem packField_columns (a : Nat → ULONG) (n : Nat) :
    packField 0 5 (columnLoop32 (xorSum n a) 32).2 (columnLoop32 (xorSum n a) 32).1
      = eccSum a n &&& field 0 5 := by
  rw [columnLoop32_eq _ (by decide), eccSum_and_bits]
  dsimp only
  rw [indexSum, indexSum, packField_xorSum (by decide)]
  refine xorSum_congr fun k _ => ?_
  have hi := packField_index (show 0 + 5 ≤ 16 by decide) k
  rw [Nat.pow_zero, Nat.one_mul] at hi
  dsimp only
  rw [← hi]
  cases (xorSum n a).getLsbD k
  · simp [packField]
  · rfl

/-! ## The results -/

section
variable (pb : Mem) {cb : Nat} (pgno : ULONG) (fHeaderBlock : Bool) (h : BlockSize cb)
include h

theorem checksumNewFormat128_eq :
    checksumNewFormat128 pb cb pgno fHeaderBlock = blockChecksum pb cb pgno fHeaderBlock := by
  set a := blockWord pb fHeaderBlock with ha
  obtain ⟨T, hT, hT0, hT1⟩ : ∃ T, cb / 4 = 8 * T ∧ 0 < T ∧ 2 * T ≤ 512 := by
    rcases h.cases with rfl | rfl | rfl | rfl
    exacts [⟨32, by decide⟩, ⟨64, by decide⟩, ⟨128, by decide⟩, ⟨256, by decide⟩]
  have hn : cb / 4 = 2 * T * 4 := by omega
  have hpdw (k : Nat) (hk : 2 ≤ k) : pdw pb k = a k := by
    simp [ha, blockWord, pdw, show ¬ k < 2 by omega]
  -- both entries of the loop are the first words of the block
  have hloop : (if fHeaderBlock then (⟨0, 0, 0, 0, 0, 0xff800000, 0⟩ : Rows128).loop (pdw pb)
      (cb / 4) 0 0
      else (⟨0, 0, 0, 0, 0, 0xff800000, 0⟩ : Rows128).loop (pdw pb) (cb / 4) (pdw pb 0) (pdw pb 1))
      = Rows128.at a T := by
    rw [hT, ← Rows128.loop_at hpdw hT0]
    cases fHeaderBlock <;> rfl
  have hidx : ∀ r < 512, rowIndex128 r = dblIndex (2 ^ 7 * r) &&& field 7 9 := by decide +kernel
  have hp : (Rows128.at a T).p = eccSum a (2 * T * 4) &&& field 7 9 :=
    (eccSum_and_rows a (by decide) (by decide) fun r hr => hidx r (by omega)).symm
  have hmask : ((field 7 9 ||| field 6 1 ||| field 5 1) &&& 0xffe0ffe0 &&& eccMask cb) ||| field 0 5
      = eccMask cb := by
    rcases h.cases with rfl | rfl | rfl | rfl <;> decide
  have hecc : ((Rows128.at a T).p |||
        (0x00400000 &&& lParityMask (column a 4 (2 * T) 0 ^^^ column a 4 (2 * T) 1))
        ||| (0x00000040 &&& lParityMask (column a 4 (2 * T) 2 ^^^ column a 4 (2 * T) 3))
        ||| (0x00200000 &&& lParityMask (column a 4 (2 * T) 0 ^^^ column a 4 (2 * T) 2))
        ||| (0x00000020 &&& lParityMask (column a 4 (2 * T) 1 ^^^ column a 4 (2 * T) 3))) &&&
          0xffe0ffe0 &&& eccMask cb
        ||| columnLoop (xorSum (2 * T * 4) a) &&& 0x001f001f
      = blockEcc pb cb fHeaderBlock := by
    rw [columnLoop_and_field, hp, BitVec.or_assoc (_ &&& field 7 9), column4_field6,
      BitVec.or_assoc (_ ||| _), column4_field5, ← BitVec.and_or_distrib_left,
      ← BitVec.and_or_distrib_left, BitVec.and_assoc, BitVec.and_assoc,
        ← BitVec.and_or_distrib_left,
      ← BitVec.and_assoc, hmask, blockEcc_eq h, hn]
  rw [checksumNewFormat128, hloop, makeChecksumFromECCXORAndPgno_eq, blockChecksum, ← hecc,
    blockXor, hn, ← xorSum_column4]
  rfl

theorem checksumNewFormat64Bit_eq :
    checksumNewFormat64Bit pb cb pgno fHeaderBlock = blockChecksum pb cb pgno fHeaderBlock := by
  obtain ⟨t, ht, rfl⟩ := h.eq_pow
  have hn : 2 ^ (10 + t) / 4 = 2 ^ (8 + t) := by
    rw [show 10 + t = 8 + t + 2 by omega, Nat.pow_add, Nat.mul_div_cancel _ (by decide)]
  have hle : 2 ≤ 2 ^ (8 + t) := by
    simpa using Nat.pow_le_pow_right (n := 2) (by decide) (show 1 ≤ 8 + t by omega)
  -- a header block starts at the third row, the first two words being zero
  have hloop : Rows32.loop (pdw pb) (2 ^ (8 + t)) (if fHeaderBlock then 2 else 0) ⟨0, 0, 0⟩
      = Rows32.at (blockWord pb fHeaderBlock) (2 ^ (8 + t)) := by
    cases fHeaderBlock
    · exact Rows32.loop_at (Nat.zero_le _) fun i _ => by simp [blockWord, pdw]
    · have hrow (i : Nat) (hi : 2 ≤ i) : pdw pb i = blockWord pb true i := by
        simp [blockWord, pdw, show ¬ i < 2 by omega]
      have h0 : Rows32.at (blockWord pb true) 2 = ⟨0, 0, 0⟩ := by
        simp [Rows32.at, xorSum, blockWord]
      rw [← Rows32.loop_at hle hrow, h0, if_pos rfl]
  have hwidth : field 5 (8 + t) ||| field 0 5
      = BitVec.ofNat 16 (8 * 2 ^ (10 + t) - 1) ++ BitVec.ofNat 16 (8 * 2 ^ (10 + t) - 1) := by
    match t, ht with
    | 0, _ | 1, _ | 2, _ | 3, _ => decide
  set rows := Rows32.at (blockWord pb fHeaderBlock) (2 ^ (8 + t)) with hrows
  have hxor : rows.dwColumnParity = xorSum (2 ^ (8 + t)) (blockWord pb fHeaderBlock) := rfl
  set cols := columnLoop32 rows.dwColumnParity 32 with hcols
  have hqp : (rows.q &&& (BitVec.ofNat 32 (2 ^ (8 + t)) - 1)) <<< 21 |||
      (rows.p &&& (BitVec.ofNat 32 (2 ^ (8 + t)) - 1)) <<< 5
        = eccSum (blockWord pb fHeaderBlock) (2 ^ (8 + t)) &&& field 5 (8 + t) :=
    packField_rows (by omega) _ _
  have hsr : (cols.2 &&& (BitVec.ofNat 32 32 - 1)) <<< 16 |||
      (cols.1 &&& (BitVec.ofNat 32 32 - 1)) <<< 0
        = eccSum (blockWord pb fHeaderBlock) (2 ^ (8 + t)) &&& field 0 5 :=
    packField_columns _ _
  have hor (A B C D : ULONG) : A ||| B ||| C ||| D = A ||| C ||| (B ||| D) := by ac_rfl
  rw [checksumNewFormat64Bit]
  dsimp only
  rw [show 32 / 8 = 4 from rfl, hn, hloop, ← hcols, hor, hqp, hsr, makeChecksumFromECCXORAndPgno_eq,
    ← BitVec.and_or_distrib_left, hwidth, blockChecksum, blockEcc_eq_and_width h, blockXor, hn,
    hxor]

end

end Ese
