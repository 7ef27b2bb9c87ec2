import Mathlib.Tactic.FinCases
import Ese.Checksum.Scalar
import Ese.Checksum.Simd

/-!
# The implementations agree

The vector routines compute the checksum of the block, as the scalar ones do, so every
implementation returns the same 64-bit value.
-/

namespace Ese

/-! ## Parity masks of registers -/

/-- The XOR of the lanes of a register. -/
def lanesXor {n : Nat} (x : Fin n → ULONG) : ULONG :=
  xorSum n fun j => if h : j < n then x ⟨j, h⟩ else 0

/-- The lanes of 128 bits. -/
theorem lanesXor_four (x : M128i) : lanesXor x = x 0 ^^^ x 1 ^^^ x 2 ^^^ x 3 := by
  simp [lanesXor, xorSum]

/-- The lanes of 256 bits. -/
theorem lanesXor_eight (x : M256i) :
    lanesXor x = x 0 ^^^ x 1 ^^^ x 2 ^^^ x 3 ^^^ x 4 ^^^ x 5 ^^^ x 6 ^^^ x 7 := by
  simp [lanesXor, xorSum]

/-- The parity by shifts is that of the lanes. -/
theorem lParityMask128_eq (dq : M128i) : lParityMask128 dq = parityMask 32 (lanesXor dq) := by
  rw [lParityMask128, lParityMask_eq, lanesXor_four]
  congr 1
  show dq 0 ^^^ dq 2 ^^^ (dq 3 ^^^ dq 1) = _
  ac_rfl

/-- The instruction counts the bits. -/
theorem mm_popcnt_u64_eq (x : BitVec 64) :
    mm_popcnt_u64 x = BitVec.ofNat 32 (x.cpopNatRec 64 0) := by
  rw [mm_popcnt_u64, BitVec.cpop, BitVec.setWidth_ofNat_of_le (by decide)]

/-- The low bit of the count is the parity of the low half of the register. -/
theorem neg_popcntHalf (machine : Machine) {dq2 : M128i} (h : dq2 3 = dq2 1) :
    BitVec.neg (popcntHalf machine dq2 &&& 0x01) = parityMask 32 (dq2 0 ^^^ dq2 1) := by
  cases machine with
  | M_IX86 =>
    rw [← h]
    exact lParityMaskPopcnt_eq _
  | M_AMD64 =>
    rw [popcntHalf, mm_popcnt_u64_eq, parityMask_xor, BitVec.xor_comm, ← parityMask_append]
    exact (parityMask_eq_cpopNatRec _ 64).symm

/-- The parity by counting is that of the lanes. -/
theorem lParityMaskPopcnt128_eq (machine : Machine) (dq : M128i) :
    lParityMaskPopcnt128 machine dq = parityMask 32 (lanesXor dq) := by
  rw [lParityMaskPopcnt128, lanesXor_four]
  refine (neg_popcntHalf machine ?_).trans (congrArg _ ?_)
  · exact BitVec.xor_comm (dq 3) (dq 1)
  · show dq 0 ^^^ dq 2 ^^^ (dq 1 ^^^ dq 3) = _
    ac_rfl

/-- The parity of 256 bits is that of the lanes. -/
theorem lParityMaskAVX_eq (machine : Machine) (qq : M256i) :
    lParityMaskAVX machine qq = parityMask 32 (lanesXor qq) := by
  rw [lParityMaskAVX, lanesXor_eight]
  refine (neg_popcntHalf machine ?_).trans (congrArg _ ?_)
  · exact BitVec.xor_comm (qq 5 ^^^ qq 1) (qq 7 ^^^ qq 3)
  · show qq 6 ^^^ qq 2 ^^^ (qq 4 ^^^ qq 0) ^^^ (qq 7 ^^^ qq 3 ^^^ (qq 5 ^^^ qq 1)) = _
    ac_rfl

/-- Every routine finds the parity of the lanes. -/
theorem parityMask128_eq (machine : Machine) (func : ChecksumParityMaskFunc) (dq : M128i) :
    parityMask128 machine func dq = parityMask 32 (lanesXor dq) := by
  cases func
  · exact lParityMask128_eq dq
  · exact lParityMaskPopcnt128_eq machine dq

/-- Every routine finds the parity of a DWORD. -/
theorem parityMask32_eq (func : ChecksumParityMaskFunc) (dw : ULONG) :
    parityMask32 func dw = parityMask 32 dw := by
  cases func
  · exact lParityMask_eq dw
  · exact lParityMaskPopcnt_eq dw

/-- The parity of the low byte by counting. -/
theorem lParityMaskPopcnt_low (dw : ULONG) :
    lParityMaskPopcnt (dw &&& 0xff) = parityMask 32 (dw.setWidth 8) := by
  have hlow : dw &&& 0xff = 0#24 ++ dw.setWidth 8 := by
    apply BitVec.eq_of_getLsbD_eq
    intro i hi
    rw [BitVec.getLsbD_append, show (0xff : ULONG) = BitVec.ofNat 32 (2 ^ 8 - 1) from rfl,
      BitVec.getLsbD_and, BitVec.getLsbD_ofNat, Nat.testBit_two_pow_sub_one]
    by_cases h : i < 8 <;> simp [h, hi]
  rw [lParityMaskPopcnt_eq, hlow]
  refine (parityMask_append 0#24 (dw.setWidth 8)).trans ?_
  rw [parityMask_zero, BitVec.zero_xor]

/-- Every routine finds the parity of the low byte. -/
theorem parityMask8_eq (func : ChecksumParityMaskFunc) (dw : ULONG) :
    parityMask8 func dw = parityMask 32 (dw.setWidth 8) := by
  cases func
  · exact parityLookup_eq dw
  · exact lParityMaskPopcnt_low dw

/-! ## The bits of a word -/

/-- Byte `t` of a word. -/
def byteOf (dw : ULONG) (t : Nat) : BitVec 8 := (dw >>> (8 * t)).setWidth 8

/-- The bits of the bytes of a DWORD are its bits. -/
theorem wordBit_byteOf (dw : ULONG) : wordBit (byteOf dw) = dw.getLsbD := by
  funext i
  have h8 : i % 8 < 8 := Nat.mod_lt _ (by decide)
  have hi : 8 * (i / 8) + i % 8 = i := Nat.div_add_mod i 8
  simp [wordBit, byteOf, h8, hi]

/-- The loop over the bytes of a DWORD. -/
theorem byteLoop_eq {parityMask8 : ULONG → ULONG}
    (h8 : ∀ x, parityMask8 x = parityMask 32 (x.setWidth 8)) (dw : ULONG) (n : Nat) :
    byteLoop parityMask8 dw n =
      { r := xorSum n fun t => parityMask 32 (byteOf dw t) &&& runIndex 0xfff80000 0xfff80008 t
        byteT := dw >>> (8 * n)
        byte0 := xorSum n fun t => dw >>> (8 * t)
        idxr := runIndex 0xfff80000 0xfff80008 n } := by
  induction n with
  | zero => simp [byteLoop, runIndex]
  | succ n ih =>
    simp only [byteLoop, ih, h8, xorSum_succ, runIndex_succ, byteOf, Nat.mul_succ,
      BitVec.shiftRight_add]
    rw [BitVec.and_comm]

/-- A table entry moved to the places of its two halves in the code. -/
def eccLookupBits (bits : ULONG) : ULONG :=
  (bits &&& (0x07 : ULONG)) ||| ((bits <<< 12) &&& (0x00070000 : ULONG))

/-- The table's entry is the index sum of the byte. -/
theorem lECCLookup8bit_eq (dw : ULONG) :
    eccLookupBits (lECCLookup8bit dw)
      = indexSum (dw.setWidth 8).getLsbD (fun b => dblIndex b &&& field 0 3) 8 := by
  have h : g_bECCLookupTable.toList.map (fun e => eccLookupBits (e.setWidth 32))
      = (List.range 256).map fun x =>
          indexSum (BitVec.ofNat 8 x).getLsbD (fun b => dblIndex b &&& field 0 3) 8 := by
    decide +kernel
  exact get_toFin (f := fun x => indexSum x.getLsbD (fun b => dblIndex b &&& field 0 3) 8) h _

/-- The field of the bits of a word, from the XOR of the words, byte by byte. -/
theorem byteColumns_and_field {parityMask8 : ULONG → ULONG}
    (h8 : ∀ x, parityMask8 x = parityMask 32 (x.setWidth 8)) (a : Nat → ULONG) (n : Nat) :
    byteColumns parityMask8 (xorSum n a) &&& 0x001f001f = eccSum a n &&& field 0 5 := by
  set dw := xorSum n a with hdw
  -- the sum over the bits of the word, as the sum over the bits of its bytes
  have hsum : eccSum a n &&& field 0 5 = indexSum (wordBit (byteOf dw)) dblIndex
    (4 * 8) &&& field 0 5 := by
    rw [eccSum_and_bits, wordBit_byteOf, indexSum_and, ← hdw]
  have hbyte : indexSum (wordBit (byteOf dw)) dblIndex (4 * 8) &&& field 3 2
      = (byteLoop parityMask8 dw 4).r &&& field 3 2 := by
    have hidx : ∀ t < 4, dblIndex (8 * t) &&& field 3 2 = runIndex 0xfff80000 0xfff80008 t &&&
      field 3 2 := by
      decide +kernel
    rw [byteLoop_eq h8, indexSum_and_of_word (by decide) fun k _ b hb =>
      dblIndex_and_field (k := 8 * k) (by omega), xorSum_and]
    exact xorSum_congr fun t ht => by rw [hidx t ht, BitVec.and_assoc]
  have hlow : (byteLoop parityMask8 dw 4).r &&& field 0 3 = 0 := by
    have hidx : ∀ t < 4, runIndex 0xfff80000 0xfff80008 t &&& field 0 3 = 0 := by
      decide +kernel
    rw [byteLoop_eq h8, xorSum_and]
    refine (xorSum_congr fun t ht => ?_).trans (xorSum_const_zero 4)
    rw [BitVec.and_assoc, hidx t ht]
    exact BitVec.and_zero
  have hbits : indexSum (wordBit (byteOf dw)) dblIndex (4 * 8) &&& field 0 3
      = eccLookupBits (lECCLookup8bit (byteLoop parityMask8 dw 4).byte0) := by
    have hset : (xorSum 4 fun t => dw >>> (8 * t)).setWidth 8 = xorSum 4 (byteOf dw) :=
      map_xorSum (BitVec.setWidth 8) (by simp) (fun x y => BitVec.setWidth_xor) 4 _
    rw [lECCLookup8bit_eq, byteLoop_eq h8, hset, indexSum_and_of_bit (by decide) fun k _ b hb =>
      dblIndex_and_field (k := b) (by omega)]
  have hfield : field 0 5 = field 3 2 ||| field 0 3 := by decide
  have hin : field 0 3 &&& field 0 5 = field 0 3 := by decide
  rw [eccLookupBits] at hbits
  rw [hsum, show (0x001f001f : ULONG) = field 0 5 by decide, byteColumns, BitVec.or_assoc, ← hbits,
    BitVec.and_or_distrib_right, BitVec.and_assoc, hin, hfield,
    BitVec.and_or_distrib_left, BitVec.and_or_distrib_left, hlow, hbyte]
  exact congrArg (· ||| _) BitVec.or_zero

/-- The lanes of an indexed vector. -/
theorem lanesXor_fin {n : Nat} (f : Nat → ULONG) : lanesXor (fun j : Fin n => f j) = xorSum n f :=
  xorSum_congr fun _ hj => dif_pos hj

/-! ## The loop over 512-bit rows -/

/-- The locals after `t` iterations over the words `a`. -/
def Rows512.at (a : Nat → ULONG) (t : Nat) : Rows512 where
  p := xorSum (2 * t) fun r =>
    parityMask 32 (xorSum 16 fun j => a (16 * r + j)) &&& runIndex 0xfe000000 0xfe000200 r
  dq0 := fun j => column a 16 (2 * t) j
  dq1 := fun j => column a 16 (2 * t) (4 + j)
  dq2 := fun j => column a 16 (2 * t) (8 + j)
  dq3 := fun j => column a 16 (2 * t) (12 + j)
  idxp := runIndex 0xfe000000 0xfe000200 (2 * t)
  i := 8 * t

/-- The lanes of four registers hold the words of a row. -/
theorem lanesXor_row4 (f : Nat → ULONG) :
    lanesXor (mm_xor (mm_xor (mm_xor (fun j : Fin 4 => f j) fun j => f (4 + j)) fun j => f (8 + j))
      fun j => f (12 + j)) = xorSum 16 f := by
  rw [lanesXor_four, show (16 : Nat) = 4 * 4 from rfl, xorSum_mul, xorSum_comm]
  simp only [xorSum_four]
  rfl

section
variable {a : Nat → ULONG} {pdq : Nat → M128i}

/-- One iteration. -/
theorem Rows512.start_at {parityMask128 : M128i → ULONG}
    (hmask : ∀ dq, parityMask128 dq = parityMask 32 (lanesXor dq))
    (hpdq : ∀ k, 1 ≤ k → pdq k = fun j : Fin 4 => a (4 * k + j)) (t : Nat) :
    (Rows512.at a t).start parityMask128 pdq (fun j => a (16 * (2 * t) + j)) = Rows512.at a
      (t + 1) := by
  have hload (k r o : Nat) (hk : 1 ≤ k) (ho : 4 * k = 16 * r + o) :
      pdq k = fun j : Fin 4 => a (16 * r + (o + j)) := by
    rw [hpdq k hk]
    funext j
    rw [ho, Nat.add_assoc]
  have hacc (r : Nat) := lanesXor_row4 fun k => a (16 * r + k)
  have h2 : 2 * (t + 1) = 2 * t + 1 + 1 := by ring
  have hH0 : (fun j : Fin 4 => a (16 * (2 * t + 1) + (0 + j))) = fun j :
    Fin 4 => a (16 * (2 * t + 1) + j) := by
    funext j
    rw [Nat.zero_add]
  simp only [Rows512.start, Rows512.at]
  rw [hload (8 * t + 1) (2 * t) 4 (by omega) (by omega), hload (8 * t + 2) (2 * t) 8 (by omega)
    (by omega),
    hload (8 * t + 3) (2 * t) 12 (by omega) (by omega),
    hload (8 * t + 4) (2 * t + 1) 0 (by omega) (by omega), hload (8 * t + 5) (2 * t + 1) 4
      (by omega) (by omega),
    hload (8 * t + 6) (2 * t + 1) 8 (by omega) (by omega),
    hload (8 * t + 7) (2 * t + 1) 12 (by omega) (by omega), hH0, hmask, hmask, hacc, hacc,
      runIndex_succ,
    runIndex_succ, h2]
  simp only [xorSum_succ, column, BitVec.and_comm]
  rfl

/-- The iterations left from the `t`-th on. -/
theorem Rows512.loop_at {parityMask128 : M128i → ULONG}
    (hmask : ∀ dq, parityMask128 dq = parityMask 32 (lanesXor dq))
    (hpdq : ∀ k, 1 ≤ k → pdq k = fun j : Fin 4 => a (4 * k + j)) {t T : Nat} (ht : t < T) :
    (Rows512.at a t).loop parityMask128 pdq (8 * T) (fun j => a (16 * (2 * t) + j)) =
      Rows512.at a T := by
  induction hd : T - t generalizing t with
  | zero => omega
  | succ d ih =>
    rw [Rows512.loop, Rows512.start_at hmask hpdq]
    have hi : (Rows512.at a (t + 1)).i = 8 * (t + 1) := rfl
    have hrow : pdq (8 * (t + 1)) = fun j : Fin 4 => a (16 * (2 * (t + 1)) + j) := by
      rw [hpdq _ (by omega), show 4 * (8 * (t + 1)) = 16 * (2 * (t + 1)) by ring]
    rw [hi]
    by_cases hlt : t + 1 < T
    · rw [if_pos (by omega), hrow, ih hlt (by omega)]
    · rw [if_neg (by omega), show t + 1 = T by omega]

/-- The registers read back are the columns. -/
theorem arydq_at (T : Nat) {i : Nat} (hi : i < 16) :
    arydq (Rows512.at a T) i = column a 16 (2 * T) i := by
  match i, hi with
  | 0, _ | 1, _ | 2, _ | 3, _ | 4, _ | 5, _ | 6, _ | 7, _ | 8, _ | 9, _ | 10, _ | 11, _ | 12, _
  | 13, _ | 14, _ | 15, _ => rfl
  | _ + 16, hi => omega

end

/-- A register of a block, its words read as the block's. -/
theorem pdq_eq {pb : Mem} {fHeaderBlock : Bool} {k : Nat} (hk : 1 ≤ k) :
    pdq pb k = fun j : Fin 4 => blockWord pb fHeaderBlock (4 * k + j) := by
  funext j
  rw [pdq, blockWord, if_neg (by omega)]

/-- The first register of a block, with the header's checksum region read as zero. -/
theorem pdq_zero (pb : Mem) (fHeaderBlock : Bool) :
    (if fHeaderBlock then mm_unpackhi_epi64 0 (pdq pb 0) else pdq pb 0)
      = fun j : Fin 4 => blockWord pb fHeaderBlock (16 * (2 * 0) + j) := by
  cases fHeaderBlock
  · funext j
    rw [if_neg (by decide), pdq, blockWord, if_neg (by simp)]
  · funext j
    fin_cases j <;> rfl

section
variable (machine : Machine) (pb : Mem) {cb : Nat} (pgno : ULONG) (fHeaderBlock : Bool)
  (h : BlockSize cb)
include h

/-- The 128-bit routine finds the checksum of the block. -/
theorem checksumNewFormatSSE2_eq (func : ChecksumParityMaskFunc) :
    checksumNewFormatSSE2 machine func pb cb pgno fHeaderBlock
      = blockChecksum pb cb pgno fHeaderBlock := by
  set a := blockWord pb fHeaderBlock with ha
  obtain ⟨T, hT, hT0, hT1⟩ : ∃ T, cb = 128 * T ∧ 0 < T ∧ 2 * T ≤ 128 := by
    rcases h.cases with rfl | rfl | rfl | rfl
    exacts [⟨8, by decide⟩, ⟨16, by decide⟩, ⟨32, by decide⟩, ⟨64, by decide⟩]
  have hn : cb / 4 = 2 * T * 16 := by omega
  have hloop : (⟨0, 0, 0, 0, 0, 0xfe000000, 0⟩ : Rows512).loop (parityMask128 machine func) (pdq pb)
      (cb / 16) (if fHeaderBlock then mm_unpackhi_epi64 0 (pdq pb 0) else pdq pb 0)
      = Rows512.at a T := by
    rw [show cb / 16 = 8 * T by omega, pdq_zero,
      ← Rows512.loop_at (parityMask128_eq machine func) (fun k hk => pdq_eq hk) hT0]
    rfl
  have hidx : ∀ r < 128, runIndex 0xfe000000 0xfe000200 r = dblIndex (2 ^ 9 * r) &&& field 9 7 := by
    decide +kernel
  have hp : (Rows512.at a T).p = eccSum a (cb / 4) &&& field 9 7 := by
    rw [hn]
    exact (eccSum_and_rows a (by decide) (by decide) fun r hr => hidx r (by omega)).symm
  have hdw0 : xorSum 16 (arydq (Rows512.at a T)) = xorSum (cb / 4) a := by
    rw [hn, ← xorSum_column]
    exact xorSum_congr fun i hi => arydq_at T hi
  have hq : (distribute 0xffe00000 0xffe00020
        (fun i => parityMask32 func (arydq (Rows512.at a T) i)) 16).1 &&& 0x01e001e0
      = eccSum a (cb / 4) &&& field 5 4 := by
    have hidx : ∀ j < 16, runIndex 0xffe00000 0xffe00020 j &&& 0x01e001e0 = dblIndex
      (32 * j) &&& field 5 4 := by
      decide +kernel
    rw [hn, eccSum_and_cols a (by decide) (by decide) hidx, distribute_eq, xorSum_and]
    refine xorSum_congr fun i hi => ?_
    rw [parityMask32_eq, arydq_at T hi, BitVec.and_assoc]
  have hmask : (field 9 7 &&& 0xfe00fe00 &&& eccMask cb) ||| field 5 4 ||| field 0 5 =
    eccMask cb := by
    rcases h.cases with rfl | rfl | rfl | rfl <;> decide
  rw [checksumNewFormatSSE2, hloop, hdw0, hp, hq, byteColumns_and_field (parityMask8_eq func),
    makeChecksumFromECCXORAndPgno_eq,
    BitVec.and_assoc, BitVec.and_assoc, ← BitVec.and_or_distrib_left, ← BitVec.and_or_distrib_left,
    ← BitVec.and_assoc, hmask, blockChecksum, blockEcc_eq h, blockXor]

end

/-! ## The loop over 1024-bit rows -/

/-- The locals after `t` iterations over the words `a`. -/
def Rows1024.at (a : Nat → ULONG) (t : Nat) : Rows1024 where
  p := xorSum t fun r =>
    parityMask 32 (xorSum 32 fun j => a (32 * r + j)) &&& runIndex 0xfc000000 0xfc000400 r
  qq0 := fun j => column a 32 t j
  qq1 := fun j => column a 32 t (8 + j)
  qq2 := fun j => column a 32 t (16 + j)
  qq3 := fun j => column a 32 t (24 + j)
  idxp := runIndex 0xfc000000 0xfc000400 t
  i := 4 * t

/-- Lane `j` of the four registers' XOR is column `j` of the rows of eight words. -/
theorem mm_xor_row8 (f : Nat → ULONG) :
    (mm_xor (mm_xor (mm_xor (fun j : Fin 8 => f j) fun j => f (8 + j)) fun j => f (16 + j))
      fun j => f (24 + j)) = fun j : Fin 8 => column f 8 4 j := by
  funext j
  rw [column, xorSum_four, show 8 * 0 + j.val = j.val by omega]
  rfl

section
variable {a : Nat → ULONG} {pqq : Nat → M256i} {parityMask256 : M256i → ULONG}
  (hmask : ∀ qq, parityMask256 qq = parityMask 32 (lanesXor qq))
  (hpqq : ∀ k, 1 ≤ k → pqq k = fun j : Fin 8 => a (8 * k + j))
include hmask hpqq

/-- One iteration. -/
theorem Rows1024.start_at (t : Nat) :
    (Rows1024.at a t).start parityMask256 pqq (fun j => a (32 * t + j)) = Rows1024.at a
      (t + 1) := by
  have hload (k o : Nat) (hk : 1 ≤ k) (ho : 8 * k = 32 * t + o) :
      pqq k = fun j : Fin 8 => a (32 * t + (o + j)) := by
    rw [hpqq k hk]
    funext j
    rw [ho, Nat.add_assoc]
  have hacc := mm_xor_row8 fun k => a (32 * t + k)
  have hrow : xorSum 8 (column (fun k => a (32 * t + k)) 8 4) = xorSum 32 fun k => a (32 * t + k) :=
    xorSum_column _ 8 4
  simp only [Rows1024.start, Rows1024.at]
  rw [hload (4 * t + 1) 8 (by omega) (by omega), hload (4 * t + 2) 16 (by omega) (by omega),
    hload (4 * t + 3) 24 (by omega) (by omega), hmask, hacc, lanesXor_fin, hrow, runIndex_succ]
  simp only [xorSum_succ, column, BitVec.and_comm]
  rfl

/-- The iterations left from the `t`-th on. -/
theorem Rows1024.loop_at {t T : Nat} (ht : t < T) :
    (Rows1024.at a t).loop parityMask256 pqq (4 * T) (fun j => a (32 * t + j)) =
      Rows1024.at a T := by
  induction hd : T - t generalizing t with
  | zero => omega
  | succ d ih =>
    rw [Rows1024.loop, Rows1024.start_at hmask hpqq]
    have hi : (Rows1024.at a (t + 1)).i = 4 * (t + 1) := rfl
    have hrow : pqq (4 * (t + 1)) = fun j : Fin 8 => a (32 * (t + 1) + j) := by
      rw [hpqq _ (by omega), show 8 * (4 * (t + 1)) = 32 * (t + 1) by ring]
    rw [hi]
    by_cases hlt : t + 1 < T
    · rw [if_pos (by omega), hrow, ih hlt (by omega)]
    · rw [if_neg (by omega), show t + 1 = T by omega]

end

/-- The lanes of a cache line behind the header's. -/
theorem pqq_eq {pb : Mem} {fHeaderBlock : Bool} {k : Nat} (hk : 1 ≤ k) :
    pqq pb k = fun j : Fin 8 => blockWord pb fHeaderBlock (8 * k + j) := by
  funext j
  rw [pqq, blockWord, if_neg (by omega)]

/-- The lanes of the first cache line, without the checksum where the block has the header. -/
theorem pqq_zero (pb : Mem) (fHeaderBlock : Bool) :
    (if fHeaderBlock then mm256_ofHalves (mm_unpackhi_epi64 0 (pdq pb 0)) (pdq pb 1) else pqq pb 0)
      = fun j : Fin 8 => blockWord pb fHeaderBlock (32 * 0 + j) := by
  cases fHeaderBlock
  · funext j
    rw [if_neg (by decide), pqq, blockWord, if_neg (by simp)]
  · funext j
    fin_cases j <;> rfl

/-! ## Columns of 1024-bit rows

Bits 8 and 9 of an index number the register, bits 5 to 7 the lane.
-/

section
variable (a : Nat → ULONG) (T : Nat)

/-- The columns of bytes. -/
theorem column32_field8 :
    eccSum a (T * 32) &&& field 8 2
      = xorSum 4 fun l => parityMask 32 (xorSum 8 fun j => column a 32 T (8 * l + j)) &&&
          (dblIndex (256 * l) &&& field 8 2) := by
  rw [eccSum_and_cols a (by decide) (by decide) fun j _ => rfl]
  refine xorSum_parityMask_rows (R := 4) (m := 8) fun l _ j hj => dblIndex_and_field ?_
  omega

/-- The columns of DWORDs. -/
theorem column32_field5 :
    eccSum a (T * 32) &&& field 5 3
      = xorSum 8 fun j => parityMask 32 (column (column a 32 T) 8 4 j) &&&
          (dblIndex (32 * j) &&& field 5 3) := by
  rw [eccSum_and_cols a (by decide) (by decide) fun j _ => rfl]
  refine xorSum_parityMask_cols (R := 4) (m := 8) fun l _ j hj => dblIndex_and_field ?_
  omega

end

/-! ## The results -/

section
variable (machine : Machine) (pb : Mem) {cb : Nat} (pgno : ULONG) (fHeaderBlock : Bool)
  (h : BlockSize cb)
include h

/-- The 256-bit routine finds the checksum of the block. -/
theorem checksumNewFormatAVX_eq :
    checksumNewFormatAVX machine pb cb pgno fHeaderBlock =
      blockChecksum pb cb pgno fHeaderBlock := by
  set a := blockWord pb fHeaderBlock with ha
  obtain ⟨T, hT, hT0, hT1⟩ : ∃ T, cb = 128 * T ∧ 0 < T ∧ T ≤ 64 := by
    rcases h.cases with rfl | rfl | rfl | rfl
    exacts [⟨8, by decide⟩, ⟨16, by decide⟩, ⟨32, by decide⟩, ⟨64, by decide⟩]
  have hn : cb / 4 = T * 32 := by omega
  have hloop : (⟨0, 0, 0, 0, 0, 0xfc000000, 0⟩ : Rows1024).loop (lParityMaskAVX machine) (pqq pb)
      (cb / 32) (if fHeaderBlock then
        mm256_ofHalves (mm_unpackhi_epi64 0 (pdq pb 0)) (pdq pb 1) else pqq pb 0)
      = Rows1024.at a T := by
    rw [show cb / 32 = 4 * T by omega, pqq_zero,
      ← Rows1024.loop_at (lParityMaskAVX_eq machine) (fun k hk => pqq_eq hk) hT0]
    rfl
  have hidx : ∀ r < 64, runIndex 0xfc000000 0xfc000400 r = dblIndex
    (2 ^ 10 * r) &&& field 10 6 := by
    decide +kernel
  have hp : (Rows1024.at a T).p = eccSum a (cb / 4) &&& field 10 6 := by
    rw [hn]
    exact (eccSum_and_rows a (by decide) (by decide) fun r hr => hidx r (by omega)).symm
  -- the registers' XOR, lane by lane
  set s := Rows1024.at a T with hs
  have hacc : mm_xor (mm_xor (mm_xor s.qq0 s.qq1) s.qq2) s.qq3
      = fun j : Fin 8 => column (column a 32 T) 8 4 j := mm_xor_row8 (column a 32 T)
  have hlane (i : Nat) (hi : i < 8) : (fun j : Fin 8 => column (column a 32 T) 8 4 j)
      (Fin.ofNat 8 i)
      = column (column a 32 T) 8 4 i := by
    simp [Nat.mod_eq_of_lt hi]
  have hdwAcc : (xorSum 8 fun i => (fun j : Fin 8 => column (column a 32 T) 8 4 j) (Fin.ofNat 8 i))
      = xorSum (cb / 4) a := by
    rw [hn, ← xorSum_column, xorSum_congr hlane]
    exact xorSum_column (column a 32 T) 8 4
  have hq : (distribute 0xff000000 0xff000100
        (fun i => lParityMaskAVX machine (![s.qq0, s.qq1, s.qq2, s.qq3] (Fin.ofNat 4 i))) 4).1 &&&
        0x03000300
      = eccSum a (cb / 4) &&& field 8 2 := by
    have hidx : ∀ l < 4, runIndex 0xff000000 0xff000100 l &&& 0x03000300 = dblIndex
      (256 * l) &&& field 8 2 := by
      decide +kernel
    have hreg (l : Nat) (hl : l < 4) : lanesXor (![s.qq0, s.qq1, s.qq2, s.qq3] (Fin.ofNat 4 l))
        = xorSum 8 fun j => column a 32 T (8 * l + j) := by
      rw [← lanesXor_fin]
      match l, hl with
      | 0, _ =>
        refine congrArg lanesXor (funext fun j => ?_)
        rw [show 8 * 0 + j.val = j.val by omega]
        rfl
      | 1, _ | 2, _ | 3, _ => rfl
      | _ + 4, hl => omega
    rw [hn, column32_field8, distribute_eq, xorSum_and]
    refine xorSum_congr fun l hl => ?_
    rw [lParityMaskAVX_eq, hreg l hl, BitVec.and_assoc, hidx l hl]
  have hq_ : (distribute 0xffe00000 0xffe00020 (fun i => -(mm_popcnt_u32
        ((fun j : Fin 8 => column (column a 32 T) 8 4 j) (Fin.ofNat 8 i)) &&& 0x01)) 8).1 &&&
        0x00e000e0
      = eccSum a (cb / 4) &&& field 5 3 := by
    have hidx : ∀ j < 8, runIndex 0xffe00000 0xffe00020 j &&& 0x00e000e0 = dblIndex
      (32 * j) &&& field 5 3 := by
      decide +kernel
    rw [hn, column32_field5, distribute_eq, xorSum_and]
    refine xorSum_congr fun j hj => ?_
    rw [hlane j hj, ← lParityMaskPopcnt, lParityMaskPopcnt_eq, BitVec.and_assoc, hidx j hj]
  have hr : byteColumns (fun byteT => -(mm_popcnt_u32 (byteT &&& 0xff) &&& 0x01))
      (xorSum (cb / 4) a)
      &&& 0x001f001f = eccSum a (cb / 4) &&& field 0 5 :=
    byteColumns_and_field lParityMaskPopcnt_low a (cb / 4)
  have hmask : (field 10 6 &&& 0xfc00fc00 &&& eccMask cb) ||| field 8 2 ||| field 5 3 ||| field 0 5
      = eccMask cb := by
    rcases h.cases with rfl | rfl | rfl | rfl <;> decide
  rw [checksumNewFormatAVX, hloop, hacc, hdwAcc, hp, hq, hq_, hr, makeChecksumFromECCXORAndPgno_eq,
    BitVec.and_assoc, BitVec.and_assoc, ← BitVec.and_or_distrib_left, ← BitVec.and_or_distrib_left,
    ← BitVec.and_or_distrib_left, ← BitVec.and_assoc, hmask, blockChecksum, blockEcc_eq h, blockXor]

/-- Every implementation returns the checksum of the block. -/
theorem checksumNewFormat_agree :
    checksumNewFormatSlowly pb cb pgno fHeaderBlock = blockChecksum pb cb pgno fHeaderBlock
    ∧ checksumNewFormatSSE pb cb pgno fHeaderBlock = blockChecksum pb cb pgno fHeaderBlock
    ∧ (∀ func, checksumNewFormatSSE2 machine func pb cb pgno fHeaderBlock
        = blockChecksum pb cb pgno fHeaderBlock)
    ∧ checksumNewFormatAVX machine pb cb pgno fHeaderBlock = blockChecksum pb cb pgno fHeaderBlock
    ∧ checksumNewFormat64Bit pb cb pgno fHeaderBlock = blockChecksum pb cb pgno fHeaderBlock :=
  ⟨checksumNewFormat128_eq pb pgno fHeaderBlock h, checksumNewFormat128_eq pb pgno fHeaderBlock h,
    fun func => checksumNewFormatSSE2_eq machine pb pgno fHeaderBlock h func,
    checksumNewFormatAVX_eq machine pb pgno fHeaderBlock h,
    checksumNewFormat64Bit_eq pb pgno fHeaderBlock h⟩

end

/-- A header block of 1 KB: the 64-bit and the AVX routines agree on it. -/
theorem checksumNewFormat_agree_header :
    BlockSize 1024 ∧
    checksumNewFormat64Bit (fun i => BitVec.ofNat 8 i) 1024 7 true
      = checksumNewFormatAVX .M_AMD64 (fun i => BitVec.ofNat 8 i) 1024 7 true := by
  have hb : BlockSize 1024 := ⟨by decide, by decide, by decide⟩
  obtain ⟨-, -, -, havx, h64⟩ :=
    checksumNewFormat_agree .M_AMD64 (fun i => BitVec.ofNat 8 i) 7 true hb
  exact ⟨hb, h64.trans havx.symm⟩

end Ese
