import Ese.Compression.Decompress

/-!
# Compression of column data by the 7-bit schemes

`CDataCompressor::ErrCompress`, called for the 7-bit schemes only. ASCII keeps the low seven bits of
each byte and Unicode those of each word. The ASCII scheme packs groups of eight characters in a
quad word each, and both collect the other characters in a double word that is written when it is
full; the header says how many bits of the final byte are used. A write outside the output buffer
and an `INT` that overflows are `none`.
-/

namespace Ese.Compression

/-- The schemes that the 7-bit compression chooses from. -/
inductive COMPRESSION_SCHEME
  | COMPRESS_NONE | COMPRESS_7BITASCII | COMPRESS_7BITUNICODE
  deriving DecidableEq, Repr

/-- `CbCompressed7BitAscii`, in INT arithmetic. -/
def cbCompressed7BitAscii (cb : Nat) : Option Int := do
  let cbit ← intT ((cb : Int) * 7)
  return (← intT (cbit + 7)) / 8 + 1

/-- The number of words is a `size_t`. -/
def cbCompressed7BitUnicode (cb : Nat) : Int := (cb / 2 * 7 + 7) / 8 + 1

section
variable (pv : Mem) (cb : Nat) (fUnicodeOnly : Bool)

/-- The bits that ASCII data may have set. -/
def dwMaskAscii : BitVec 32 := if fUnicodeOnly then 0x007f007f#32 else 0x7f7f7f7f#32

/-- The bits that ASCII characters in Unicode may have set. -/
def dwMaskUnicode : BitVec 32 := 0x007f007f#32

/-- The loop over `n` double words. There is no result when a character has its high bit set. -/
def dwLoop : Nat → Nat → Bool → Option Bool
  | 0, _, fUnicodePossible => some fUnicodePossible
  | n + 1, idw, fUnicodePossible =>
    if pv.readU32 (4 * idw) &&& ~~~dwMaskAscii fUnicodeOnly ≠ 0 then none
    else dwLoop n (idw + 1) (fUnicodePossible && pv.readU32 (4 * idw) &&& ~~~dwMaskUnicode == 0)

/-- The loop over the `n` bytes that are left. -/
def byteLoop : Nat → Nat → Bool → Option Bool
  | 0, _, fUnicodePossible => some fUnicodePossible
  | n + 1, ib, fUnicodePossible =>
    if 0x7f#8 < pv ib then none
    else byteLoop n (ib + 1)
      (if fUnicodePossible ∧ ib % 2 = 0 ∧ 0x007f#16 < pv.readU16 ib then false
      else fUnicodePossible)

/-- `Calculate7BitCompressionScheme`: whether the data fits a scheme that makes it smaller. -/
def calculate7BitCompressionScheme : Option COMPRESSION_SCHEME :=
  let fUnicodePossible := cb % 2 == 0
  if fUnicodeOnly ∧ !fUnicodePossible then some .COMPRESS_NONE
  else
    let cdw := cb / 4
    match (dwLoop pv fUnicodeOnly cdw 0 fUnicodePossible).bind
      (byteLoop pv (cb - cdw * 4) (cdw * 4)) with
    | none => some .COMPRESS_NONE
    | some true =>
      some (if cbCompressed7BitUnicode cb < cb then .COMPRESS_7BITUNICODE else .COMPRESS_NONE)
    | some false =>
      if fUnicodeOnly then some .COMPRESS_NONE
      else do
        return if (← cbCompressed7BitAscii cb) < cb then .COMPRESS_7BITASCII else .COMPRESS_NONE

end

/-! ## Groups of eight characters -/

/-- The `n` low bits. -/
def NBITMASK {w : Nat} (n : Nat) : BitVec w := (1#w <<< n) - 1#w

/-- The halves of a QWORD moved together over a bit between them. -/
def ASCII7BITMASKANDSHIFT (qw mask : BitVec 64) : BitVec 64 :=
  (qw &&& mask) ||| ((qw >>> 1) &&& ~~~mask)

/-- The eight bytes of a QWORD in the opposite order. -/
def reverseEightBytes (qw : BitVec 64) : BitVec 64 :=
  let qw2 := ((qw &&& 0xFF00FF00FF00FF00#64) >>> 8) ||| ((qw &&& 0x00FF00FF00FF00FF#64) <<< 8)
  let qw3 := ((qw2 &&& 0xFFFF0000FFFF0000#64) >>> 16) ||| ((qw2 &&& 0x0000FFFF0000FFFF#64) <<< 16)
  ((qw3 &&& 0xFFFFFFFF00000000#64) >>> 32) ||| ((qw3 &&& 0x00000000FFFFFFFF#64) <<< 32)

/-- Four blocks of seven bits. -/
def qwMask (shf0 shf1 shf2 shf3 : Nat) : BitVec 64 :=
  (NBITMASK 7 <<< shf0) ||| (NBITMASK 7 <<< shf1) ||| (NBITMASK 7 <<< shf2) |||
    (NBITMASK 7 <<< shf3)

/-- The eight groups of seven bits of a QWORD in the opposite order. -/
def reverseEightCompressedBytes (qw : BitVec 64) : BitVec 64 :=
  let qwMask1 := qwMask 0 14 28 42
  let qwMask2 := qwMask 7 21 35 49
  let qwMask3 := qwMask 0 7 28 35
  let qwMask4 := qwMask 14 21 42 49
  let qwMask5 := qwMask 0 7 14 21
  let qwMask6 := qwMask 28 35 42 49
  let qw2 := ((qw &&& qwMask2) >>> 7) ||| ((qw &&& qwMask1) <<< 7)
  let qw3 := ((qw2 &&& qwMask4) >>> 14) ||| ((qw2 &&& qwMask3) <<< 14)
  ((qw3 &&& qwMask6) >>> 28) ||| ((qw3 &&& qwMask5) <<< 28)

/-- The seven bytes of a group of eight characters, and a byte behind them. -/
def qwCompressed (qw : BitVec 64) : BitVec 64 :=
  let qw := reverseEightBytes qw
  let qw := ASCII7BITMASKANDSHIFT qw (NBITMASK 7)
  let qw := ASCII7BITMASKANDSHIFT qw (NBITMASK 14)
  let qw := ASCII7BITMASKANDSHIFT qw (NBITMASK 21)
  let qw := ASCII7BITMASKANDSHIFT qw (NBITMASK 28)
  let qw := ASCII7BITMASKANDSHIFT qw (NBITMASK 35)
  let qw := ASCII7BITMASKANDSHIFT qw (NBITMASK 42)
  let qw := ASCII7BITMASKANDSHIFT qw (NBITMASK 49)
  reverseEightCompressedBytes qw

/-! ## The packed bits -/

/-- The output buffer, the next byte of it, and the double word that is being filled. -/
structure Output where
  pbDataCompressed : Mem
  ibOutput : Nat
  dwOutput : BitVec 32
  ibitOutputCurr : Nat

section
variable (pv : Mem) (cbDataCompressedMax : Nat)

/-- The loop over the groups of eight characters. -/
def qwLoop : Nat → Nat → Mem → Nat → Option (Nat × Mem × Nat)
  | 0, ibInput, pbDataCompressed, ibOutput => some (ibInput, pbDataCompressed, ibOutput)
  | n + 1, ibInput, pbDataCompressed, ibOutput =>
    if ibOutput + 8 ≤ cbDataCompressedMax then
      qwLoop n (ibInput + 8)
        (pbDataCompressed.writeU64 ibOutput (qwCompressed (pv.readU64 ibInput))) (ibOutput + 7)
    else none

/-- A double word that is full is written. -/
def flushDw (out : Output) : Option Output :=
  if out.ibitOutputCurr = 32 then
    if out.ibOutput + 4 ≤ cbDataCompressedMax then
      some ⟨Mem.writeU32 out.pbDataCompressed out.ibOutput out.dwOutput, out.ibOutput + 4, 0, 0⟩
    else none
  else some out

/-- The bits of a character, for at most as many rounds as there are bits. -/
def bitsLoop : Nat → Output → BitVec 32 → Nat → Option Output
  | 0, _, _, _ => none
  | n + 1, out, i, cbitsRemaining => do
    let cbitsToCopy := min cbitsRemaining (32 - out.ibitOutputCurr)
    let out ← flushDw cbDataCompressedMax
      { out with
        dwOutput := out.dwOutput ||| ((i &&& NBITMASK cbitsToCopy) <<< out.ibitOutputCurr)
        ibitOutputCurr := out.ibitOutputCurr + cbitsToCopy }
    if cbitsRemaining - cbitsToCopy = 0 then return out
    else bitsLoop n out (i >>> cbitsToCopy) (cbitsRemaining - cbitsToCopy)

/-- The loop over `n` characters. -/
def charLoop (ch : Nat → BitVec 32) : Nat → Nat → Output → Option Output
  | 0, _, out => some out
  | n + 1, i, out => do charLoop ch n (i + 1) (← bitsLoop cbDataCompressedMax 7 out (ch i) 7)

/-- A write to the output buffer, undefined past its end. -/
def writeByte (pbDataCompressed : Mem) (ibOutput : Nat) (b : Byte) : Option Mem :=
  if ibOutput < cbDataCompressedMax then some (pbDataCompressed.write ibOutput [b]) else none

/-- The bytes of a double word that is not full. -/
def finalLoop : Nat → Mem → Nat → BitVec 32 → Option Mem
  | 0, pbDataCompressed, _, _ => some pbDataCompressed
  | n + 1, pbDataCompressed, ibOutput, dwOutput => do
    finalLoop n (← writeByte cbDataCompressedMax pbDataCompressed ibOutput
      ((dwOutput &&& 0xFF#32).setWidth 8))
      (ibOutput + 1) (dwOutput >>> 8)

/-- The header of compressed data, from the bits in the last double word. -/
def bSignature (compressionScheme ibitOutputCurr : Nat) : Byte :=
  BitVec.ofNat 8 (compressionScheme <<< 3) ||| BitVec.ofNat 8 ((ibitOutputCurr - 1) % 8)

/-- What a compression returns. -/
structure Compressed where
  err : ERR
  cbDataCompressedActual : Nat
  pbDataCompressed : Mem

variable (cb : Nat) (pbDataCompressed : Mem)

/-- `ErrCompress7BitAscii_`: eight bytes at a time, then the rest one by one. -/
def compress7BitAscii : Option Compressed := do
  let cbCompressed ← cbCompressed7BitAscii cb
  if cbCompressed > cbDataCompressedMax then return ⟨.JET_errBufferTooSmall, 0, pbDataCompressed⟩
  else
    let cqwInput := cb / 8
    let cqwOutput := (cbDataCompressedMax - 1 - 1) / 7
    let (ibInput, pbDataCompressed, ibOutput) ←
      qwLoop pv cbDataCompressedMax (min cqwInput cqwOutput) 0 pbDataCompressed 1
    let out ← charLoop cbDataCompressedMax (fun ib => (pv ib).setWidth 32) (cb - ibInput) ibInput
      ⟨pbDataCompressed, ibOutput, 0, 0⟩
    let cbFinal := (out.ibitOutputCurr + 7) / 8
    let pbDataCompressed ← finalLoop cbDataCompressedMax cbFinal out.pbDataCompressed out.ibOutput
      out.dwOutput
    let ibitOutputCurr := if out.ibitOutputCurr = 0 then 32 else out.ibitOutputCurr
    return ⟨.JET_errSuccess, out.ibOutput + cbFinal,
      ← writeByte cbDataCompressedMax pbDataCompressed 0
      (bSignature COMPRESS_7BITASCII ibitOutputCurr)⟩

/-- The address `pdwOutput + idwOutput` is that of byte `ibOutput`. -/
def compress7BitUnicode : Option Compressed := do
  if cbCompressed7BitUnicode cb > cbDataCompressedMax
    then return ⟨.JET_errBufferTooSmall, 0, pbDataCompressed⟩
  else
    let out ← charLoop cbDataCompressedMax (fun iw => (pv.readU16 (2 * iw)).setWidth 32) (cb / 2) 0
      ⟨pbDataCompressed, 1, 0, 0⟩
    let pbDataCompressed ← finalLoop cbDataCompressedMax
      ((out.ibitOutputCurr + 7) / 8) out.pbDataCompressed
      out.ibOutput out.dwOutput
    let (ibitOutputCurr, ibOutput) :=
      if out.ibitOutputCurr = 0 then (32, out.ibOutput - 4) else (out.ibitOutputCurr, out.ibOutput)
    return ⟨.JET_errSuccess, ibOutput + (ibitOutputCurr + 7) / 8,
      ← writeByte cbDataCompressedMax pbDataCompressed 0
      (bSignature COMPRESS_7BITUNICODE ibitOutputCurr)⟩

/-- `ErrCompress` for the 7-bit schemes. -/
def compress (cbDataCompressedActual : Nat) : Option Compressed := do
  match ← calculate7BitCompressionScheme pv cb false with
  | .COMPRESS_7BITASCII => compress7BitAscii pv cbDataCompressedMax cb pbDataCompressed
  | .COMPRESS_7BITUNICODE => compress7BitUnicode pv cbDataCompressedMax cb pbDataCompressed
  | .COMPRESS_NONE => return ⟨.errRECCannotCompress, cbDataCompressedActual, pbDataCompressed⟩

end

/-! ## The scheme -/

section
variable {pv : Mem} {cb n : Nat} {f f' : Bool}

/-- A DWORD within a mask has no bit set outside it. -/
theorem getLsbD_of_and_not {dw dwMask : BitVec 32} (h : dw &&& ~~~dwMask = 0) {j : Nat}
    (hj : j < 32)
    (hmask : dwMask.getLsbD j = false) : dw.getLsbD j = false := by
  have hbit := congrArg (BitVec.getLsbD · j) h
  simpa only [BitVec.getLsbD_and, BitVec.getLsbD_not, hj, decide_true, hmask, Bool.not_false,
    Bool.true_and,
    Bool.and_true, BitVec.ofNat_eq_ofNat, BitVec.getLsbD_zero] using hbit

/-- A byte of the data is seven bits, as a bit of its double word. -/
theorem getLsbD_of_dw {idw i j : Nat} (hi : 4 * idw ≤ i) (hi' : i < 4 * (idw + 1)) (hj : j < 8)
    {dwMask : BitVec 32}
    (h : pv.readU32 (4 * idw) &&& ~~~dwMask = 0) (hmask : dwMask.getLsbD (8 * (i - 4 * idw) + j) =
      false) :
    (pv i).getLsbD j = false := by
  have hlt : 8 * (i - 4 * idw) + j < 32 := by omega
  have hbit := getLsbD_of_and_not h hlt hmask
  rw [Mem.getLsbD_readU32 pv _ hlt] at hbit
  rw [Mem.getLsbD_eq_bit pv i hj, ← hbit]
  congr 1
  omega

/-- A byte without a bit is 0. -/
theorem eq_zero_of_getLsbD {b : Byte} (h : ∀ j < 8, b.getLsbD j = false) : b = 0 :=
  BitVec.eq_of_getLsbD_eq fun j hj => (h j hj).trans BitVec.getLsbD_zero.symm

/-- The mask for ASCII leaves out the highest bit of each byte. -/
theorem getLsbD_dwMaskAscii {k : Nat} (hk : k < 4) : (0x7f7f7f7f#32).getLsbD (8 * k + 7) = false :=
  (by decide : ∀ k < 4, (0x7f7f7f7f#32).getLsbD (8 * k + 7) = false) k hk

/-- The mask for Unicode leaves out each second byte. -/
theorem getLsbD_dwMaskUnicode {k j : Nat} (hk : k < 4) (hodd : k % 2 = 1) (hj : j < 8) :
    dwMaskUnicode.getLsbD (8 * k + j) = false :=
  (by decide : ∀ k < 4, k % 2 = 1 → ∀ j < 8, (0x007f007f#32).getLsbD (8 * k + j) = false) k hk hodd
    j hj

/-- What the loops have found of the bytes in a range: all are seven bits, and every other one is
null if the Unicode scheme stays possible. -/
structure Scanned (pv : Mem) (ibMin ibMax : Nat) (fUnicode : Bool) : Prop where
  seven : ∀ i, ibMin ≤ i → i < ibMax → (pv i).getLsbD 7 = false
  null : fUnicode = true → ∀ i, ibMin ≤ i → i < ibMax → i % 2 = 1 → pv i = 0

/-- The loop over the DWORDs finds what they fit. -/
theorem dwLoop_spec {idw : Nat} (h : dwLoop pv false n idw f = some f') :
    Scanned pv (4 * idw) (4 * (idw + n)) f' ∧ (f' = true → f = true) := by
  induction n generalizing idw f with
  | zero =>
    obtain rfl := Option.some.inj h
    exact ⟨⟨fun i hi hi' => absurd hi' (by omega), fun _ i hi hi' => absurd hi' (by omega)⟩, id⟩
  | succ n ih =>
    rw [dwLoop] at h
    split_ifs at h with hmask
    rw [not_not] at hmask
    obtain ⟨⟨hseven, hnull⟩, hmono⟩ := ih h
    have hstep : f' = true → f = true ∧ pv.readU32 (4 * idw) &&& ~~~dwMaskUnicode = 0 := by
      intro hf'
      obtain ⟨hf, hdw⟩ := (Bool.and_eq_true _ _).mp (hmono hf')
      exact ⟨hf, eq_of_beq hdw⟩
    refine ⟨⟨fun i hi hi' => ?_, fun hf' i hi hi' hodd => ?_⟩, fun hf' => (hstep hf').1⟩
    · rcases Nat.lt_or_ge i (4 * (idw + 1)) with hlt | hge
      · exact getLsbD_of_dw hi hlt (by decide) hmask (getLsbD_dwMaskAscii (by omega))
      · exact hseven i hge (by omega)
    · rcases Nat.lt_or_ge i (4 * (idw + 1)) with hlt | hge
      · refine eq_zero_of_getLsbD fun j hj => ?_
        exact getLsbD_of_dw hi hlt hj (hstep hf').2 (getLsbD_dwMaskUnicode (by omega) (by omega) hj)
      · exact hnull hf' i hge (by omega) hodd

/-- A byte up to 0x7f has its highest bit clear. -/
theorem getLsbD_seven_of_le {b : Byte} (h : ¬ 0x7f#8 < b) : b.getLsbD 7 = false :=
  Nat.testBit_lt_two_pow
    (Nat.lt_of_le_of_lt (Nat.le_of_not_lt h) (show (0x7f#8).toNat < 2 ^ 7 by decide))

/-- A word that is seven bits has a null behind its first byte. -/
theorem null_of_word_le {ib : Nat} (h : ¬ 0x007f#16 < pv.readU16 ib) : pv (ib + 1) = 0 := by
  refine eq_zero_of_getLsbD fun j hj => ?_
  have hlt : (pv.readU16 ib).toNat < 2 ^ 8 := Nat.lt_of_le_of_lt (Nat.le_of_not_lt h) (by decide)
  have hbit : (pv.readU16 ib).getLsbD (8 + j) = (pv (ib + 1)).getLsbD j := by
    rw [Mem.readU16, BitVec.getLsbD_append, if_neg (by omega), Nat.add_sub_cancel_left]
  rw [← hbit, BitVec.getLsbD]
  exact Nat.testBit_lt_two_pow (hlt.trans_le (Nat.pow_le_pow_right (by decide) (by omega)))

/-- The loop over the bytes finds what they fit. -/
theorem byteLoop_spec {ib : Nat} (heven : (ib + n) % 2 = 0 ∨ f = false)
    (hib : ib % 2 = 0 ∨ pv ib = 0 ∨ f = false)
    (h : byteLoop pv n ib f = some f') : Scanned pv ib (ib + n) f' ∧ (f' = true → f = true) := by
  induction n generalizing ib f with
  | zero =>
    obtain rfl := Option.some.inj h
    exact ⟨⟨fun i hi hi' => absurd hi' (by omega), fun _ i hi hi' => absurd hi' (by omega)⟩, id⟩
  | succ n ih =>
    rw [byteLoop] at h
    split_ifs at h with hbyte hword
    · obtain ⟨⟨hseven, -⟩, hmono⟩ := ih (.inr rfl) (.inr (.inr rfl)) h
      refine ⟨⟨fun i hi hi' => ?_, fun hf' => absurd (hmono hf') Bool.false_ne_true⟩,
        fun hf' => absurd (hmono hf') Bool.false_ne_true⟩
      rcases Nat.eq_or_lt_of_le hi with rfl | hlt
      · exact getLsbD_seven_of_le hbyte
      · exact hseven i hlt (by omega)
    · have hnext : (ib + 1) % 2 = 0 ∨ pv (ib + 1) = 0 ∨ f = false := by
        rcases Nat.mod_two_eq_zero_or_one ib with hzero | hone
        · cases f with
          | false => exact .inr (.inr rfl)
          | true => exact .inr (.inl (null_of_word_le fun hlt => hword ⟨rfl, hzero, hlt⟩))
        · exact .inl (by omega)
      obtain ⟨⟨hseven, hnull⟩, hmono⟩ := ih (heven.imp_left fun h => by omega) hnext h
      refine ⟨⟨fun i hi hi' => ?_, fun hf' i hi hi' hodd => ?_⟩, hmono⟩
      · rcases Nat.eq_or_lt_of_le hi with rfl | hlt
        · exact getLsbD_seven_of_le hbyte
        · exact hseven i hlt (by omega)
      · rcases Nat.eq_or_lt_of_le hi with rfl | hlt
        · rcases hib with hzero | hnull | hf
          · omega
          · exact hnull
          · exact absurd ((hmono hf').symm.trans hf) Bool.noConfusion
        · exact hnull hf' i hlt (by omega) hodd

/-- What a scheme needs of the data, and what it saves. -/
structure Fits (pv : Mem) (cb : Nat) (compressionScheme : COMPRESSION_SCHEME) : Prop where
  seven : compressionScheme ≠ .COMPRESS_NONE → ∀ i < cb, (pv i).getLsbD 7 = false
  ascii : compressionScheme = .COMPRESS_7BITASCII → (cb * 7 + 7) / 8 + 1 < cb
  unicode : compressionScheme = .COMPRESS_7BITUNICODE →
    (cb / 2 * 7 + 7) / 8 + 1 < cb ∧ cb % 2 = 0 ∧ ∀ i < cb, i % 2 = 1 → pv i = 0

/-- The compressed size, where the INT does not overflow. -/
theorem cbCompressed7BitAscii_eq (h : cb * 7 + 7 ≤ 2147483647) :
    cbCompressed7BitAscii cb = some (((cb * 7 + 7) / 8 + 1 : Nat) : Int) := by
  have hcbit : intT ((cb : Int) * 7) = some ((cb : Int) * 7) := intT_eq (by omega) (by omega)
  have hround : intT ((cb : Int) * 7 + 7) = some ((cb : Int) * 7 + 7) :=
    intT_eq (by omega) (by omega)
  have hcast : ((cb : Int) * 7 + 7) / 8 + 1 = (((cb * 7 + 7) / 8 + 1 : Nat) : Int) := by omega
  rw [cbCompressed7BitAscii, hcbit, Option.bind_eq_bind, Option.bind_some, hround, Option.bind_some,
    Option.pure_def, hcast]

/-- Any data fits no compression. -/
theorem fits_none : Fits pv cb .COMPRESS_NONE :=
  ⟨fun h => absurd rfl h, fun h => COMPRESSION_SCHEME.noConfusion h, fun h =>
    COMPRESSION_SCHEME.noConfusion h⟩

/-- The data fits the scheme that is chosen. -/
theorem calculate7BitCompressionScheme_spec (h : cb * 7 + 7 ≤ 2147483647) :
    ∃ compressionScheme, calculate7BitCompressionScheme pv cb false = some compressionScheme ∧
      Fits pv cb compressionScheme := by
  rw [calculate7BitCompressionScheme]
  simp only [Bool.false_eq_true, false_and, if_false]
  cases hloops : (dwLoop pv false (cb / 4) 0 (cb % 2 == 0)).bind
    (byteLoop pv (cb - cb / 4 * 4) (cb / 4 * 4)) with
  | none => exact ⟨_, rfl, fits_none⟩
  | some f =>
    obtain ⟨fDw, hdw, hbyte⟩ := Option.bind_eq_some_iff.1 hloops
    obtain ⟨⟨hsevenDw, hnullDw⟩, hmonoDw⟩ := dwLoop_spec hdw
    have heven : fDw = true → cb % 2 = 0 := fun h => eq_of_beq (hmonoDw h)
    have hend : (cb / 4 * 4 + (cb - cb / 4 * 4)) % 2 = 0 ∨ fDw = false := by
      cases fDw with
      | false => exact .inr rfl
      | true => exact .inl (by have := heven rfl; omega)
    obtain ⟨⟨hseven, hnull⟩, hmono⟩ := byteLoop_spec hend (.inl (by omega)) hbyte
    have hsevenAll : ∀ i < cb, (pv i).getLsbD 7 = false := by
      intro i hi
      rcases Nat.lt_or_ge i (cb / 4 * 4) with hlt | hge
      · exact hsevenDw i (by omega) (by omega)
      · exact hseven i hge (by omega)
    cases f with
    | true =>
      refine ⟨_, rfl, ?_⟩
      split_ifs with hsaves
      · refine ⟨fun _ => hsevenAll, fun h => COMPRESSION_SCHEME.noConfusion h, fun _ =>
          ⟨?_, heven (hmono rfl), ?_⟩⟩
        · rw [cbCompressed7BitUnicode] at hsaves
          omega
        · intro i hi hodd
          rcases Nat.lt_or_ge i (cb / 4 * 4) with hlt | hge
          · exact hnullDw (hmono rfl) i (by omega) (by omega) hodd
          · exact hnull rfl i hge (by omega) hodd
      · exact fits_none
    | false =>
      simp only [cbCompressed7BitAscii_eq h, Option.bind_eq_bind, Option.bind_some]
      refine ⟨_, rfl, ?_⟩
      split_ifs with hsaves
      · exact ⟨fun _ => hsevenAll, fun _ => by omega, fun h => COMPRESSION_SCHEME.noConfusion h⟩
      · exact fits_none

end

end Ese.Compression
