import Ese.Compression.Compress

/-!
# The round trip of the 7-bit schemes

The packed data is a string of bits: bit `k` is bit `k % 7` of character `k / 7`. A group of eight
characters is the first 56 bits of a quad word (`getLsbD_qwCompressed`), the loop over the other
characters keeps what it has packed in the buffer and in the double word (`Packs`), and the
decompression takes the characters from the bits again.
-/

namespace Ese.Compression

/-! ## Groups of eight characters -/

section
variable {w n c d j r : Nat} {qw : BitVec 64}

/-- The bits of a mask. -/
theorem getLsbD_nbitmask (hn : n < w) (k : Nat) :
    (NBITMASK n : BitVec w).getLsbD k = decide (k < n) := by
  have hpow : 2 ^ n < 2 ^ w := Nat.pow_lt_pow_right (by decide) hn
  have hone : (1#w <<< n).toNat = 2 ^ n := by
    rw [BitVec.toNat_shiftLeft, BitVec.toNat_ofNat,
      Nat.mod_eq_of_lt (Nat.one_lt_two_pow (by omega)), Nat.shiftLeft_eq,
      Nat.one_mul, Nat.mod_eq_of_lt hpow]
  have hmask : (NBITMASK n : BitVec w).toNat = 2 ^ n - 1 := by
    have hle : 1#w ≤ 1#w <<< n := by
      rw [BitVec.le_def, hone, BitVec.toNat_ofNat, Nat.mod_eq_of_lt (Nat.one_lt_two_pow (by omega))]
      exact Nat.one_le_two_pow
    rw [NBITMASK, BitVec.toNat_sub_of_le hle, hone, BitVec.toNat_ofNat,
      Nat.mod_eq_of_lt (Nat.one_lt_two_pow (by omega))]
  rw [BitVec.getLsbD, hmask, Nat.testBit_two_pow_sub_one]

/-- A step of the masks and shifts takes a bit out. -/
theorem getLsbD_maskAndShift (hn : n < 64) (k : Nat) :
    (ASCII7BITMASKANDSHIFT qw (NBITMASK n)).getLsbD k = if k < n then qw.getLsbD k
      else qw.getLsbD (k + 1) := by
  rw [ASCII7BITMASKANDSHIFT, BitVec.getLsbD_or, BitVec.getLsbD_and, BitVec.getLsbD_and,
    BitVec.getLsbD_not,
    BitVec.getLsbD_ushiftRight, getLsbD_nbitmask hn, Nat.add_comm 1 k]
  split_ifs with hlt
  · rw [decide_eq_true hlt, Bool.and_true, Bool.not_true, Bool.and_false, Bool.and_false,
      Bool.or_false]
  · rw [decide_eq_false hlt, Bool.and_false, Bool.false_or, Bool.not_false, Bool.and_true]
    rcases Nat.lt_or_ge k 64 with hk | hk
    · rw [decide_eq_true hk, Bool.and_true]
    · rw [BitVec.getLsbD_of_ge qw (k + 1) (by omega), Bool.false_and]

/-- After `m` steps the first `m` blocks of seven bits have lost the bits behind them. -/
theorem getLsbD_maskAndShift_succ {x : BitVec 64} {m : Nat} (hm : m < 7)
    (h : ∀ k, qw.getLsbD k = x.getLsbD (k + min (k / 7) m)) (k : Nat) :
    (ASCII7BITMASKANDSHIFT qw (NBITMASK (7 * (m + 1)))).getLsbD k = x.getLsbD
      (k + min (k / 7) (m + 1)) := by
  rw [getLsbD_maskAndShift (by omega)]
  split_ifs
  · rw [h, show min (k / 7) m = min (k / 7) (m + 1) by omega]
  · rw [h, show k + 1 + min ((k + 1) / 7) m = k + min (k / 7) (m + 1) by omega]

/-- The block that is exchanged with block `j`, where blocks are exchanged in groups of `d`. -/
def partner (d j : Nat) : Nat := if j / d % 2 = 0 then j + d else j - d

/-- Masks of every other group of `d` blocks of `c` bits exchange the groups. -/
theorem getLsbD_exchange {maskHigh maskLow : BitVec 64} {shf : Nat} (hd : d = 1 ∨ d = 2 ∨ d = 4)
    (hc : c ≤ 8)
    (hshf : shf = c * d)
    (hhigh : ∀ j < 16, ∀ r < c, maskHigh.getLsbD (c * j + r) = decide (j < 8 ∧ j / d % 2 = 1))
    (hlow : ∀ j < 8, ∀ r < c, maskLow.getLsbD (c * j + r) = decide (j / d % 2 = 0)) (hj : j < 8)
      (hr : r < c) :
    (((qw &&& maskHigh) >>> shf) ||| ((qw &&& maskLow) <<< shf)).getLsbD (c * j + r) =
      qw.getLsbD (c * partner d j + r) := by
  subst hshf
  have hlt : c * j + r < 64 := by
    have hle : c * (j + 1) ≤ 8 * 8 := Nat.mul_le_mul hc hj
    rw [Nat.mul_add, Nat.mul_one] at hle
    omega
  have hup : c * d + (c * j + r) = c * (j + d) + r := by rw [Nat.mul_add]; omega
  rw [BitVec.getLsbD_or, BitVec.getLsbD_ushiftRight, BitVec.getLsbD_shiftLeft, BitVec.getLsbD_and,
    BitVec.getLsbD_and,
    partner, hup, decide_eq_true hlt, Bool.true_and]
  rcases Nat.mod_two_eq_zero_or_one (j / d) with heven | hodd
  · -- the low mask has nothing below block `j`
    have hnone : (!decide (c * j + r < c * d) && (qw.getLsbD (c * j + r - c * d) &&
        maskLow.getLsbD (c * j + r - c * d))) = false := by
      rcases Nat.lt_or_ge j d with hjd | hjd
      · have hle : c * (j + 1) ≤ c * d := Nat.mul_le_mul_left c hjd
        rw [Nat.mul_add, Nat.mul_one] at hle
        have hbelow : c * j + r < c * d := by omega
        rw [decide_eq_true hbelow, Bool.not_true, Bool.false_and]
      · have hdown : c * j + r - c * d = c * (j - d) + r := by
          have hle : c * d ≤ c * j := Nat.mul_le_mul_left c hjd
          rw [Nat.mul_sub]
          omega
        have hsub : (j - d) / d % 2 = 1 := by rcases hd with rfl | rfl | rfl <;> omega
        rw [hdown, hlow _ (by omega) r hr, hsub, decide_eq_false Nat.one_ne_zero, Bool.and_false,
          Bool.and_false]
    have hadd : j + d < 8 ∧ (j + d) / d % 2 = 1 := by rcases hd with rfl | rfl | rfl <;> omega
    rw [if_pos heven, hnone, hhigh _ (by omega) r hr, decide_eq_true hadd, Bool.and_true,
      Bool.or_false]
  · have hjd : d ≤ j := by rcases hd with rfl | rfl | rfl <;> omega
    have hle : c * d ≤ c * j := Nat.mul_le_mul_left c hjd
    have hdown : c * j + r - c * d = c * (j - d) + r := by
      rw [Nat.mul_sub]
      omega
    have hsub : (j - d) / d % 2 = 0 := by rcases hd with rfl | rfl | rfl <;> omega
    have hadd : ¬ (j + d < 8 ∧ (j + d) / d % 2 = 1) := by rcases hd with rfl | rfl | rfl <;> omega
    have hbelow : ¬ c * j + r < c * d := by omega
    rw [hhigh _ (by omega) r hr, decide_eq_false hadd, Bool.and_false, Bool.false_or,
      if_neg (by omega),
      decide_eq_false hbelow, Bool.not_false, Bool.true_and, hdown, hlow _ (by omega) r hr, hsub,
      decide_eq_true rfl,
      Bool.and_true]

/-- The partner of a position is a position. -/
theorem partner_lt (hd : d = 1 ∨ d = 2 ∨ d = 4) (hj : j < 8) : partner d j < 8 := by
  rw [partner]
  split_ifs <;> rcases hd with rfl | rfl | rfl <;> omega

/-- The three exchanges reverse the blocks. -/
theorem partner_partner_partner (hj : j < 8) : partner 1 (partner 2 (partner 4 j)) = 7 - j :=
  (by decide : ∀ j < 8, partner 1 (partner 2 (partner 4 j)) = 7 - j) j hj

/-- The bits of the bytes in the opposite order. -/
theorem getLsbD_reverseEightBytes (hj : j < 8) (hr : r < 8) :
    (reverseEightBytes qw).getLsbD (8 * j + r) = qw.getLsbD (8 * (7 - j) + r) := by
  have h4 : partner 4 j < 8 := partner_lt (.inr (.inr rfl)) hj
  have h2 : partner 2 (partner 4 j) < 8 := partner_lt (.inr (.inl rfl)) h4
  rw [reverseEightBytes, ← partner_partner_partner hj,
    getLsbD_exchange (d := 4) (.inr (.inr rfl)) le_rfl rfl (by decide) (by decide) hj hr,
    getLsbD_exchange (d := 2) (.inr (.inl rfl)) le_rfl rfl (by decide) (by decide) h4 hr,
    getLsbD_exchange (d := 1) (.inl rfl) le_rfl rfl (by decide) (by decide) h2 hr]

/-- The bits of the groups in the opposite order. -/
theorem getLsbD_reverseEightCompressedBytes (hj : j < 8) (hr : r < 7) :
    (reverseEightCompressedBytes qw).getLsbD (7 * j + r) = qw.getLsbD (7 * (7 - j) + r) := by
  have h4 : partner 4 j < 8 := partner_lt (.inr (.inr rfl)) hj
  have h2 : partner 2 (partner 4 j) < 8 := partner_lt (.inr (.inl rfl)) h4
  have hle : 7 ≤ 8 := by decide
  rw [reverseEightCompressedBytes, ← partner_partner_partner hj,
    getLsbD_exchange (d := 4) (.inr (.inr rfl)) hle rfl (by decide +kernel)
    (by decide +kernel) hj hr,
    getLsbD_exchange (d := 2) (.inr (.inl rfl)) hle rfl (by decide +kernel)
      (by decide +kernel) h4 hr,
    getLsbD_exchange (d := 1) (.inl rfl) hle rfl (by decide +kernel) (by decide +kernel) h2 hr]

/-- The characters of a group, one behind the other. -/
theorem getLsbD_qwCompressed (hj : j < 8) (hr : r < 7) :
    (qwCompressed qw).getLsbD (7 * j + r) = qw.getLsbD (8 * j + r) := by
  have h0 : ∀ k, (reverseEightBytes qw).getLsbD k = (reverseEightBytes qw).getLsbD
    (k + min (k / 7) 0) := fun k => by
    rw [Nat.min_zero, Nat.add_zero]
  have h1 := getLsbD_maskAndShift_succ (by decide) h0
  have h2 := getLsbD_maskAndShift_succ (by decide) h1
  have h3 := getLsbD_maskAndShift_succ (by decide) h2
  have h4 := getLsbD_maskAndShift_succ (by decide) h3
  have h5 := getLsbD_maskAndShift_succ (by decide) h4
  have h6 := getLsbD_maskAndShift_succ (by decide) h5
  have h7 := getLsbD_maskAndShift_succ (by decide) h6
  rw [qwCompressed, getLsbD_reverseEightCompressedBytes hj hr]
  refine (h7 _).trans ?_
  rw [show 7 * (7 - j) + r + min ((7 * (7 - j) + r) / 7) (0 + 1 + 1 + 1 + 1 + 1 + 1 + 1) =
    8 * (7 - j) + r by omega,
    getLsbD_reverseEightBytes (by omega) (by omega), show 7 - (7 - j) = j by omega]

end

/-! ## The writer -/

section
variable {pv pb : Mem} {cbMax n c : Nat} {f : Nat → Bool} {i : BitVec 32} {out : Output}

/-- The first `n` bits are in the buffer and, from the next byte of the buffer on, in the double
word. -/
structure Packs (f : Nat → Bool) (n : Nat) (out : Output) : Prop where
  pos : 0 < out.ibOutput
  count : 8 * out.ibOutput + out.ibitOutputCurr = 8 + n
  le : out.ibitOutputCurr ≤ 32
  written : ∀ k, 8 + k < 8 * out.ibOutput → Mem.bit out.pbDataCompressed (8 + k) = f k
  held : ∀ j < 32, out.dwOutput.getLsbD j =
    (decide (j < out.ibitOutputCurr) && f (8 * out.ibOutput + j - 8))

/-- The bits that are copied to the double word. -/
theorem Packs.copy (h : Packs f n out) (hc : out.ibitOutputCurr + c ≤ 32) (hmask : c < 32)
    (hi : ∀ j < c, i.getLsbD j = f (n + j)) :
    Packs f (n + c) { out with
      dwOutput := out.dwOutput ||| ((i &&& NBITMASK c) <<< out.ibitOutputCurr)
      ibitOutputCurr := out.ibitOutputCurr + c } := by
  have hcount := h.count
  refine ⟨h.pos, by dsimp only; omega, hc, h.written, fun j hj => ?_⟩
  dsimp only
  rw [BitVec.getLsbD_or, h.held j hj, BitVec.getLsbD_shiftLeft, BitVec.getLsbD_and,
    getLsbD_nbitmask hmask,
    decide_eq_true hj, Bool.true_and]
  rcases Nat.lt_or_ge j out.ibitOutputCurr with hlt | hge
  · have hlt' : j < out.ibitOutputCurr + c := by omega
    rw [decide_eq_true hlt, decide_eq_true hlt', Bool.not_true, Bool.false_and, Bool.or_false]
  · rw [decide_eq_false (Nat.not_lt.2 hge), Bool.false_and, Bool.false_or, Bool.not_false,
      Bool.true_and]
    rcases Nat.lt_or_ge (j - out.ibitOutputCurr) c with hlt | hge'
    · have hlt' : j < out.ibitOutputCurr + c := by omega
      rw [hi _ hlt, decide_eq_true hlt, decide_eq_true hlt', Bool.and_true, Bool.true_and]
      congr 1
      omega
    · have hge'' : ¬ j < out.ibitOutputCurr + c := by omega
      rw [decide_eq_false (Nat.not_lt.2 hge'), decide_eq_false hge'', Bool.and_false,
        Bool.false_and]

/-- A full double word goes to the buffer. -/
theorem Packs.flush (h : Packs f n out) (hfit : 8 + n ≤ 8 * cbMax) :
    ∃ out', flushDw cbMax out = some out' ∧ Packs f n out' ∧ out'.ibitOutputCurr < 32 := by
  have hcount := h.count
  have hle := h.le
  rw [flushDw]
  split_ifs with hfull hroom
  · refine ⟨_, rfl, ⟨Nat.succ_pos _, by dsimp only; omega, Nat.zero_le _, fun k hk => ?_,
      fun j hj => ?_⟩, Nat.succ_pos _⟩
    · dsimp only at hk ⊢
      rw [Mem.bit_writeU32]
      split_ifs with hin
      · have hheld := h.held (8 + k - 8 * out.ibOutput) (by omega)
        rw [hheld, hfull, decide_eq_true (by omega), Bool.true_and]
        congr 1
        omega
      · exact h.written k (by omega)
    · dsimp only
      rw [decide_eq_false (Nat.not_lt_zero j), Bool.false_and]
      exact BitVec.getLsbD_zero
  · omega
  · exact ⟨out, rfl, h, by omega⟩

/-- By induction over the rounds, of which each copies a bit at least. -/
theorem bitsLoop_spec {m : Nat} (h : Packs f n out) (hlt : out.ibitOutputCurr < 32)
    (hi : ∀ j < c, i.getLsbD j = f (n + j))
    (hpos : 0 < c) (hm : c ≤ m) (hc : c < 32) (hfit : 8 + (n + c) ≤ 8 * cbMax) :
    ∃ out', bitsLoop cbMax m out i c = some out' ∧ Packs f (n + c) out' ∧
      out'.ibitOutputCurr < 32 := by
  induction m generalizing n c i out with
  | zero => omega
  | succ m ih =>
    have hcopy := h.copy (c := min c (32 - out.ibitOutputCurr)) (by omega) (by omega) fun j hj =>
      hi j (by omega)
    obtain ⟨out', hflush, hpacks, hlt'⟩ := @Packs.flush cbMax _ _ _ hcopy (by omega)
    rw [bitsLoop]
    simp only [hflush, Option.bind_eq_bind, Option.bind_some]
    split_ifs with hdone
    · rw [show min c (32 - out.ibitOutputCurr) = c by omega] at hpacks
      exact ⟨out', rfl, hpacks, hlt'⟩
    · obtain ⟨out'', hloop, hpacks', hlt''⟩ := ih hpacks hlt'
        (c := c - min c (32 - out.ibitOutputCurr)) (i := i >>> min c (32 - out.ibitOutputCurr))
        (fun j hj => by
          rw [BitVec.getLsbD_ushiftRight, hi _ (by omega), Nat.add_assoc])
        (by omega) (by omega) (by omega) (by omega)
      refine ⟨out'', hloop, ?_, hlt''⟩
      rwa [Nat.add_assoc, Nat.add_sub_of_le (Nat.min_le_left _ _)] at hpacks'

/-- The loop over the characters packs their bits. -/
theorem charLoop_spec {ch : Nat → BitVec 32} {k : Nat}
    (hch : ∀ i < k + n, ∀ j < 7, (ch i).getLsbD j = f (7 * i + j))
    (h : Packs f (7 * k) out) (hlt : out.ibitOutputCurr < 32) (hfit : 8 + 7 * (k + n) ≤ 8 * cbMax) :
    ∃ out', charLoop cbMax ch n k out = some out' ∧ Packs f (7 * (k + n)) out' ∧
      out'.ibitOutputCurr < 32 := by
  induction n generalizing k out with
  | zero => exact ⟨out, rfl, h, hlt⟩
  | succ n ih =>
    obtain ⟨out', hbits, hpacks, hlt'⟩ := @bitsLoop_spec cbMax _ 7 _ _ _ 7 h hlt (hch k (by omega))
      (by decide) le_rfl
      (by decide) (by omega)
    rw [charLoop, hbits]
    simp only [Option.bind_eq_bind, Option.bind_some]
    rw [show k + (n + 1) = k + 1 + n by omega] at hch hfit ⊢
    exact ih hch hpacks hlt' hfit

/-- The loop over the last bytes writes the bits that are left. -/
theorem finalLoop_spec {ib : Nat} {dw : BitVec 32} (hfit : ib + n ≤ cbMax) :
    ∃ pb', finalLoop cbMax n pb ib dw = some pb' ∧ ∀ k, Mem.bit pb' k =
      if 8 * ib ≤ k ∧ k < 8 * ib + 8 * n then dw.getLsbD (k - 8 * ib) else pb.bit k := by
  induction n generalizing pb ib dw with
  | zero => exact ⟨pb, rfl, fun k => (if_neg (by omega)).symm⟩
  | succ n ih =>
    rw [finalLoop, writeByte, if_pos (by omega)]
    simp only [Option.bind_eq_bind, Option.bind_some]
    obtain ⟨pb', hloop, hbits⟩ := @ih (pb.write ib [(dw &&& 0xFF#32).setWidth 8]) (ib + 1)
      (dw >>> 8) (by omega)
    refine ⟨pb', hloop, fun k => ?_⟩
    rw [hbits, Mem.bit_write_singleton]
    rcases Nat.lt_or_ge k (8 * (ib + 1)) with hlt | hge
    · rw [if_neg (by omega)]
      split_ifs with hhere hrange
      · have hmask : (0xFF#32).getLsbD (k - 8 * ib) = true :=
          (by decide : ∀ j < 8, (0xFF#32).getLsbD j = true) _ (by omega)
        rw [BitVec.getLsbD_setWidth, BitVec.getLsbD_and, hmask, Bool.and_true,
          decide_eq_true (by omega), Bool.true_and]
      · omega
      · omega
      · rfl
    · rw [if_neg (show ¬ (8 * ib ≤ k ∧ k < 8 * ib + 8) by omega), BitVec.getLsbD_ushiftRight,
        show 8 + (k - 8 * (ib + 1)) = k - 8 * ib by omega]
      split_ifs <;> first | rfl | omega

/-- By induction over the groups: each writes over the byte that the one before has written too
much. -/
theorem qwLoop_spec {ibInput ibOutput : Nat}
    (hf : ∀ k < 7 * (ibInput + 8 * n), f k = (pv (k / 7)).getLsbD (k % 7))
    (hpos : 0 < ibOutput) (hpacks : 8 * ibOutput = 8 + 7 * ibInput)
    (hfit : ibOutput + 7 * n + 1 ≤ cbMax)
    (hwritten : ∀ k, 8 + k < 8 * ibOutput → pb.bit (8 + k) = f k) :
    ∃ pb', qwLoop pv cbMax n ibInput pb ibOutput = some (ibInput + 8 * n, pb', ibOutput + 7 * n) ∧
      ∀ k, 8 + k < 8 * (ibOutput + 7 * n) → Mem.bit pb' (8 + k) = f k := by
  induction n generalizing pb ibInput ibOutput with
  | zero => exact ⟨pb, rfl, hwritten⟩
  | succ n ih =>
    rw [qwLoop, if_pos (by omega), show ibInput + 8 * (n + 1) = ibInput + 8 + 8 * n by omega,
      show ibOutput + 7 * (n + 1) = ibOutput + 7 + 7 * n by omega]
    refine ih (fun k hk => hf k (by omega)) (by omega) (by omega) (by omega) fun k hk => ?_
    rw [Mem.bit_writeU64]
    split_ifs with hin
    · -- the bit is that of a character of the group
      have hj : (8 + k - 8 * ibOutput) / 7 < 8 := by omega
      have hsplit := Nat.div_add_mod (8 + k - 8 * ibOutput) 7
      have hbit :=
        @getLsbD_qwCompressed _ _ (pv.readU64 ibInput) hj
        (Nat.mod_lt (8 + k - 8 * ibOutput) (by decide))
      rw [hsplit] at hbit
      rw [hbit, Mem.getLsbD_readU64 _ _ (by omega), hf k (by omega), Mem.getLsbD_eq_bit _ _
        (by omega)]
      congr 1
      omega
    · exact hwritten k (by omega)

end

/-! ## The reader -/

section
variable {pv pb : Mem} {n i : Nat} {f : Nat → Bool}

/-- The bytes of a read. -/
theorem read_getElem? {m : Mem} {N k : Nat} (hk : k < N) : (m.read 0 N)[k]? = some (m k) := by
  rw [List.getElem?_eq_getElem (by rwa [Mem.length_read]), Mem.getElem_read, Nat.zero_add]

/-- The bits of the mask of seven. -/
theorem getLsbD_mask {w : Nat} (hw : 7 < w) (k : Nat) :
    (NBITMASK 7 : BitVec w).getLsbD k = decide (k < 7) :=
  getLsbD_nbitmask hw k

/-- Seven bits are read from where they are. -/
theorem getLsbD_bDecompressed {N ib ibit : Nat} (hfit : 8 * ib + ibit + 7 ≤ 8 * N)
    (hibit : ibit < 8) :
    ∃ b, bDecompressed (pb.read 0 N) ib ibit = some b ∧
      ∀ r < 8, b.getLsbD r = (decide (r < 7) && pb.bit (8 * ib + ibit + r)) := by
  rw [bDecompressed]
  split_ifs with hone
  · rw [read_getElem? (by omega)]
    refine ⟨_, rfl, fun r hr => ?_⟩
    rw [show (0x7F#8) = NBITMASK 7 from rfl, BitVec.getLsbD_and, BitVec.getLsbD_ushiftRight,
      getLsbD_mask (by decide)]
    rcases Nat.lt_or_ge r 7 with hlt | hge
    · rw [decide_eq_true hlt, Bool.and_true, Bool.true_and, Mem.getLsbD_eq_bit _ _ (by omega),
        Nat.add_assoc]
    · rw [decide_eq_false (Nat.not_lt.2 hge), Bool.and_false, Bool.false_and]
  · rw [read_getElem? (by omega), read_getElem? (by omega)]
    refine ⟨_, rfl, fun r hr => ?_⟩
    rw [show (0x7F#16) = NBITMASK 7 from rfl, BitVec.getLsbD_setWidth, decide_eq_true hr,
      Bool.true_and,
      BitVec.getLsbD_and, BitVec.getLsbD_ushiftRight, getLsbD_mask (by decide)]
    rcases Nat.lt_or_ge r 7 with hlt | hge
    · have h16 : ibit + r < 16 := by omega
      rw [decide_eq_true hlt, Bool.and_true, Bool.true_and, BitVec.getLsbD_or,
        BitVec.getLsbD_setWidth,
        BitVec.getLsbD_shiftLeft, BitVec.getLsbD_setWidth, decide_eq_true h16, Bool.true_and,
        Bool.true_and]
      rcases Nat.lt_or_ge (ibit + r) 8 with hlow | hhigh
      · rw [decide_eq_true hlow, Bool.not_true, Bool.false_and, Bool.or_false,
          Mem.getLsbD_eq_bit _ _ hlow, Nat.add_assoc]
      · rw [decide_eq_false (Nat.not_lt.2 hhigh), Bool.not_false, Bool.true_and,
          BitVec.getLsbD_of_ge _ _ hhigh,
          Bool.false_or, decide_eq_true (by omega), Bool.true_and, Mem.getLsbD_eq_bit _ _
          (by omega)]
        congr 1
        omega
    · rw [decide_eq_false (Nat.not_lt.2 hge), Bool.and_false, Bool.false_and]

/-- Compressed data of `n` characters: the header, and the bits behind it. -/
structure Encodes (f : Nat → Bool) (n compressionScheme : Nat) (pb : Mem) (cbActual : Nat) :
    Prop where
  size : cbActual = (n * 7 + 7) / 8 + 1
  header : pb 0 = BitVec.ofNat 8 (compressionScheme <<< 3) ||| BitVec.ofNat 8 ((n * 7 + 7) % 8)
  bits : ∀ k < n * 7, pb.bit (8 + k) = f k

/-- The header has the scheme and the bits of the last byte. -/
theorem header_scheme {s t : Nat} (hs : s < 4) (ht : t < 8) :
    ((BitVec.ofNat 8 (s <<< 3) ||| BitVec.ofNat 8 t) >>> 3).toNat = s ∧
      cbitFinal (BitVec.ofNat 8 (s <<< 3) ||| BitVec.ofNat 8 t) = t + 1 :=
  (by decide : ∀ s < 4, ∀ t < 8, ((BitVec.ofNat 8 (s <<< 3) ||| BitVec.ofNat 8 t) >>> 3).toNat = s ∧
      cbitFinal (BitVec.ofNat 8 (s <<< 3) ||| BitVec.ofNat 8 t) = t + 1) s hs t ht

/-- The characters are read again. -/
theorem characters_read {cbActual : Nat} {ch : Nat → Byte} (hsize : cbActual = (n * 7 + 7) / 8 + 1)
    (hbits : ∀ i < n, ∀ r < 7, pb.bit (8 + (7 * i + r)) = (ch i).getLsbD r)
      (hseven : ∀ i < n, (ch i).getLsbD 7 = false) :
    characters (pb.read 0 cbActual) n = (List.range n).map ch := by
  refine List.map_congr_left fun i hi => ?_
  rw [List.mem_range] at hi
  obtain ⟨b, hb, hbit⟩ := @getLsbD_bDecompressed pb cbActual (1 + 7 * i / 8) (7 * i % 8) (by omega)
    (by omega)
  rw [character, hb, Option.getD_some]
  refine BitVec.eq_of_getLsbD_eq fun r hr => ?_
  rw [hbit r hr]
  rcases Nat.lt_or_ge r 7 with hlt | hge
  · rw [decide_eq_true hlt, Bool.true_and, ← hbits i hi r hlt]
    congr 1
    omega
  · rw [decide_eq_false (Nat.not_lt.2 hge), Bool.false_and, show r = 7 by omega, hseven i hi]

end

/-! ## The round trip -/

section
variable {pv pb : Mem} {cb cbMax n cbActual : Nat} {f : Nat → Bool} {out : Output}

/-- The final bytes and the header. -/
theorem Packs.final (h : Packs f (7 * n) out) (hlt : out.ibitOutputCurr < 32)
    (hfit : (n * 7 + 7) / 8 + 1 ≤ cbMax)
    (compressionScheme : Nat) :
    ∃ pb' pb'', finalLoop cbMax ((out.ibitOutputCurr + 7) / 8) out.pbDataCompressed out.ibOutput
      out.dwOutput = some pb' ∧
      writeByte cbMax pb' 0
        (bSignature compressionScheme (if out.ibitOutputCurr = 0 then 32 else out.ibitOutputCurr)) =
        some pb'' ∧
      Encodes f n compressionScheme pb'' (out.ibOutput + (out.ibitOutputCurr + 7) / 8) := by
  have hcount := h.count
  have hpos := h.pos
  have hfinal : ((if out.ibitOutputCurr = 0 then 32 else out.ibitOutputCurr) - 1) % 8 =
    (n * 7 + 7) % 8 := by
    split_ifs <;> omega
  obtain ⟨pb', hloop, hbits⟩ :=
    @finalLoop_spec out.pbDataCompressed cbMax ((out.ibitOutputCurr + 7) / 8) out.ibOutput
    out.dwOutput (by omega)
  refine ⟨pb', _, hloop, if_pos (by omega), ⟨by omega, ?_, fun k hk => ?_⟩⟩
  · have hheader := Mem.write_apply_add pb' 0 (l := [bSignature compressionScheme
      (if out.ibitOutputCurr = 0 then 32 else out.ibitOutputCurr)]) Nat.one_pos
    rw [Nat.zero_add] at hheader
    rw [hheader, List.getElem_singleton, bSignature, hfinal]
  · rw [Mem.bit_write_singleton, if_neg (by omega), hbits]
    split_ifs with hin
    · rw [h.held _ (by omega), decide_eq_true (by omega), Bool.true_and]
      congr 1
      omega
    · exact h.written k (by omega)

/-- Compressed ASCII data encodes the seven bits of each byte. -/
theorem compress7BitAscii_spec (h : cb * 7 + 7 ≤ 2147483647) (hpos : 0 < cb)
    (hfit : (cb * 7 + 7) / 8 + 1 ≤ cbMax) :
    ∃ pb', compress7BitAscii pv cbMax cb pb = some ⟨.JET_errSuccess, (cb * 7 + 7) / 8 + 1, pb'⟩ ∧
      Encodes (fun k => (pv (k / 7)).getLsbD (k % 7)) cb COMPRESS_7BITASCII pb'
        ((cb * 7 + 7) / 8 + 1) := by
  have hgroups : 8 * min (cb / 8) ((cbMax - 1 - 1) / 7) ≤ cb := by omega
  obtain ⟨pbGroups, hqw, hwritten⟩ := @qwLoop_spec pv pb cbMax (min (cb / 8) ((cbMax - 1 - 1) / 7))
    (fun k => (pv (k / 7)).getLsbD (k % 7)) 0 1 (fun k _ => rfl) Nat.one_pos rfl (by omega)
    (fun k hk => by omega)
  rw [Nat.zero_add] at hqw
  -- the double word starts empty behind the groups
  have hstart : Packs (fun k => (pv (k / 7)).getLsbD (k % 7))
      (7 * (8 * min (cb / 8) ((cbMax - 1 - 1) / 7)))
      ⟨pbGroups, 1 + 7 * min (cb / 8) ((cbMax - 1 - 1) / 7), 0, 0⟩ :=
    ⟨by dsimp only; omega, by dsimp only; omega, Nat.zero_le _, hwritten, fun j _ =>
      BitVec.getLsbD_zero⟩
  obtain ⟨out, hchar, hpacks, hlt⟩ :=
    @charLoop_spec cbMax (cb - 8 * min (cb / 8) ((cbMax - 1 - 1) / 7)) _ _
    (fun ib => (pv ib).setWidth 32) _ (fun i _ j hj => by
      rw [BitVec.getLsbD_setWidth, decide_eq_true (by omega), Bool.true_and,
        show (7 * i + j) / 7 = i by
          omega, show (7 * i + j) % 7 = j by omega]) hstart (Nat.succ_pos _) (by omega)
  rw [Nat.add_sub_of_le hgroups] at hpacks
  obtain ⟨pb', pb'', hfinal, hheader, hencodes⟩ := hpacks.final hlt hfit COMPRESS_7BITASCII
  have hsize := hencodes.size
  refine ⟨pb'', ?_, hsize ▸ hencodes⟩
  have hroom : ¬ (((cb * 7 + 7) / 8 + 1 : Nat) : Int) > cbMax := by omega
  rw [compress7BitAscii, cbCompressed7BitAscii_eq h]
  simp only [Option.bind_eq_bind, Option.bind_some]
  rw [if_neg hroom]
  simp only [hqw, hchar, hfinal, hheader, hsize, Option.bind_some, Option.pure_def]

/-- Compressed Unicode data encodes the seven bits of each character. -/
theorem compress7BitUnicode_spec (hpos : 0 < cb / 2) (hfit : (cb / 2 * 7 + 7) / 8 + 1 ≤ cbMax) :
    ∃ pb', compress7BitUnicode pv cbMax cb pb = some ⟨.JET_errSuccess, (cb / 2 * 7 + 7) / 8 + 1,
      pb'⟩ ∧
      Encodes (fun k => (pv (2 * (k / 7))).getLsbD (k % 7)) (cb / 2) COMPRESS_7BITUNICODE pb'
        ((cb / 2 * 7 + 7) / 8 + 1) := by
  have hstart : Packs (fun k => (pv (2 * (k / 7))).getLsbD (k % 7)) (7 * 0) ⟨pb, 1, 0, 0⟩ :=
    ⟨Nat.one_pos, rfl, Nat.zero_le _, fun k hk => absurd hk (by dsimp only; omega), fun j _ =>
      BitVec.getLsbD_zero⟩
  obtain ⟨out, hchar, hpacks, hlt⟩ := @charLoop_spec cbMax (cb / 2) _ _
    (fun iw => (pv.readU16 (2 * iw)).setWidth 32) _ (fun i _ j hj => by
      rw [BitVec.getLsbD_setWidth, decide_eq_true (by omega), Bool.true_and, Mem.readU16,
        BitVec.getLsbD_append,
        if_pos (by omega), show (7 * i + j) / 7 = i by
          omega, show (7 * i + j) % 7 = j by omega]) hstart (Nat.succ_pos _) (by omega)
  rw [Nat.zero_add] at hpacks
  obtain ⟨pb', pb'', hfinal, hheader, hencodes⟩ := hpacks.final hlt hfit COMPRESS_7BITUNICODE
  have hsize := hencodes.size
  refine ⟨pb'', ?_, hsize ▸ hencodes⟩
  have hroom : ¬ cbCompressed7BitUnicode cb > cbMax := by
    rw [cbCompressed7BitUnicode]
    omega
  rw [compress7BitUnicode, if_neg hroom]
  have hcount := hpacks.count
  simp only [hchar, hfinal, Option.bind_eq_bind, Option.bind_some]
  split_ifs at hheader ⊢ with hzero
  · simp only [hheader, Option.bind_some, Option.pure_def]
    congr 2
    omega
  · simp only [hheader, hsize, Option.bind_some, Option.pure_def]

/-- Words whose high bytes are null are those of their low bytes. -/
theorem wide_evens (n : Nat) (h : ∀ i < n, pv (2 * i + 1) = 0) :
    wide ((List.range n).map fun i => pv (2 * i)) = pv.read 0 (2 * n) := by
  induction n with
  | zero => rfl
  | succ n ih =>
    rw [List.range_succ, List.map_append, wide_append, ih fun i hi => h i (by omega), Nat.mul_add,
      Mem.read_add,
      Nat.zero_add]
    congr 1
    have hnull := h n n.lt_succ_self
    show [pv (2 * n), 0] = [pv (2 * n), pv (2 * n + 1)]
    rw [hnull]

/-- Encoded data is well formed. -/
theorem Encodes.cons {compressionScheme : Nat} (h : Encodes f n compressionScheme pb cbActual)
    (hn : 0 < n)
    (hfit : n * 7 + 7 ≤ 2147483647) (hscheme : compressionScheme < 4) :
    ∃ rgb, pb.read 0 cbActual = pb 0 :: rgb ∧ (pb 0 >>> 3).toNat = compressionScheme ∧
      BitsFit (pb 0) rgb ∧
      ¬ HeaderOnly (pb 0) rgb ∧ cch (pb 0) rgb = n := by
  obtain ⟨hsize, hheader, -⟩ := h
  obtain ⟨hidentifier, hfinal⟩ :=
    header_scheme hscheme (Nat.mod_lt (n * 7 + 7) (show 0 < 8 by decide))
  rw [← hheader] at hidentifier hfinal
  refine ⟨pb.read 1 ((n * 7 + 7) / 8), ?_, hidentifier, ?_, fun honly => ?_, ?_⟩
  · rw [hsize, Nat.add_comm, Mem.read_add, Nat.zero_add]
    rfl
  · rw [BitsFit, Mem.length_read, hfinal]
    omega
  · have hlength := congrArg List.length honly.1
    rw [Mem.length_read, List.length_nil] at hlength
    omega
  · rw [cch, Mem.length_read, hfinal]
    omega

/-- A decompression restores what has been compressed. -/
def Restores (pv : Mem) (cb : Nat) (dataCompressed : List Byte) : Prop :=
  ∀ fOutput cbDataMax xpress,
  decompress dataCompressed fOutput cbDataMax xpress =
    some ⟨if cbDataMax < cb then .JET_wrnBufferTruncated else .JET_errSuccess, cb,
      if fOutput then (pv.read 0 cb).take cbDataMax else []⟩

/-- ASCII data is restored. -/
theorem restores_ascii (h : cb * 7 + 7 ≤ 2147483647) (hpos : 0 < cb)
    (hseven : ∀ i < cb, (pv i).getLsbD 7 = false)
    (hencodes : Encodes (fun k => (pv (k / 7)).getLsbD (k % 7)) cb COMPRESS_7BITASCII pb cbActual) :
    Restores pv cb (pb.read 0 cbActual) := by
  intro fOutput cbDataMax xpress
  obtain ⟨rgb, hcons, hidentifier, hbits, honly, hcch⟩ := hencodes.cons hpos h (by decide)
  have hcharacters : characters (pb.read 0 cbActual) cb = pv.read 0 cb := by
    rw [@characters_read pb cb _ pv hencodes.size (fun i hi r hr => ?_) hseven, Mem.read]
    · exact List.map_congr_left fun i _ => by rw [Nat.zero_add]
    · rw [hencodes.bits _ (by omega), show (7 * i + r) / 7 = i by omega, show (7 * i + r) % 7 =
        r by omega]
  rw [hcons] at hcharacters ⊢
  rw [decompress, List.getElem?_cons_zero]
  simp only [Option.bind_eq_bind, Option.bind_some]
  rw [if_pos hidentifier, decompress7BitAscii_eq hbits honly, hcch, hcharacters]

/-- Unicode data is restored. -/
theorem restores_unicode (h : cb * 7 + 7 ≤ 2147483647) (hpos : 0 < cb / 2) (heven : cb % 2 = 0)
    (hseven : ∀ i < cb, (pv i).getLsbD 7 = false) (hnull : ∀ i < cb, i % 2 = 1 → pv i = 0)
    (hencodes : Encodes (fun k => (pv (2 * (k / 7))).getLsbD (k % 7))
      (cb / 2) COMPRESS_7BITUNICODE pb cbActual) :
    Restores pv cb (pb.read 0 cbActual) := by
  intro fOutput cbDataMax xpress
  obtain ⟨rgb, hcons, hidentifier, hbits, honly, hcch⟩ := hencodes.cons hpos (by omega) (by decide)
  have hcharacters : wide (characters (pb.read 0 cbActual) (cb / 2)) = pv.read 0 cb := by
    rw [@characters_read pb (cb / 2) _ (fun i => pv (2 * i)) hencodes.size (fun i hi r hr => ?_)
      fun i hi => hseven (2 * i) (by omega)]
    · refine (wide_evens (cb / 2) fun i hi => hnull (2 * i + 1) (by omega) (by omega)).trans ?_
      rw [show 2 * (cb / 2) = cb by omega]
    · rw [hencodes.bits _ (by omega), show (7 * i + r) / 7 = i by omega, show (7 * i + r) % 7 =
        r by omega]
  rw [hcons] at hcharacters ⊢
  rw [decompress, List.getElem?_cons_zero]
  simp only [Option.bind_eq_bind, Option.bind_some]
  rw [if_neg (by rw [hidentifier]; decide), if_pos hidentifier,
    decompress7BitUnicode_eq hbits honly, hcch, hcharacters,
    show 2 * (cb / 2) = cb by omega]

/-- The size that a scheme compresses to. -/
def cbScheme (cb : Nat) : COMPRESSION_SCHEME → Nat
  | .COMPRESS_NONE => cb
  | .COMPRESS_7BITASCII => (cb * 7 + 7) / 8 + 1
  | .COMPRESS_7BITUNICODE => (cb / 2 * 7 + 7) / 8 + 1

/-- The letters of the example are ASCII. -/
theorem dwLoop_letter (n idw : Nat) : dwLoop (fun _ => 0x61) false n idw false = some false := by
  induction n generalizing idw with
  | zero => rfl
  | succ n ih =>
    have hmask : Mem.readU32 (fun _ => 0x61) (4 * idw) &&& ~~~dwMaskAscii false = 0 := by
      rw [Mem.readU32]
      decide
    rw [dwLoop, if_neg (not_not.2 hmask)]
    exact ih (idw + 1)

/-- The letters of the example are ASCII. -/
theorem byteLoop_letter (n ib : Nat) : byteLoop (fun _ => 0x61) n ib false = some false := by
  induction n generalizing ib with
  | zero => rfl
  | succ n ih => exact ih (ib + 1)

end

end Ese.Compression
