import Mathlib.Data.BitVec
import Mathlib.Data.Fin.VecNotation
import Ese.Checksum.Parity

/-!
# The vector implementations

`ChecksumNewFormatSSE2` reads rows of 512 bits in four 128-bit registers, two rows per iteration,
and `ChecksumNewFormatAVX` rows of 1024 bits in four 256-bit registers. A register is its 32-bit
lanes, the low lane first. Each accumulates its columns in the registers and reads them back as an
array of words: the code's word bits come from these columns, its row bits from the parities of the
rows, and its low bits from the XOR of all columns, byte by byte and by a table of the 256 bytes.
-/

namespace Ese

/-- Lanes and blocks are written as numerals. -/
instance instNeZeroFour : NeZero 4 := ⟨by decide⟩

abbrev M128i := Fin 4 → ULONG

abbrev M256i := Fin 8 → ULONG

/-- `_mm_xor_si128`, and the same of a 256-bit register. -/
def mm_xor {n : Nat} (x y : Fin n → ULONG) : Fin n → ULONG := fun j => x j ^^^ y j

/-- `_mm_shuffle_epi32`: lane `j` is the source lane in bits `2 * j` and `2 * j + 1` of `imm8`. -/
def mm_shuffle_epi32 (a : M128i) (imm8 : Nat) : M128i :=
  fun j => a (Fin.ofNat 4 (imm8 >>> (2 * j.val)))

/-- `_mm_unpackhi_epi64`. -/
def mm_unpackhi_epi64 (a b : M128i) : M128i := ![a 2, a 3, b 2, b 3]

/-- `_mm_cvtsi128_si32`. -/
def mm_cvtsi128_si32 (a : M128i) : ULONG := a 0

/-- `_mm_cvtsi128_si64`. -/
def mm_cvtsi128_si64 (a : M128i) : BitVec 64 := a 1 ++ a 0

/-- `_mm256_permute2f128_si256` of a register with itself under the control 0x01: its halves
swapped. -/
def mm256_swap (a : M256i) : M256i := fun j => a (j + 4)

/-- `_mm256_castsi256_si128`. -/
def mm256_castsi256_si128 (a : M256i) : M128i := fun j => a (j.castLE (by decide))

/-- The register with the given halves, as `_mm256_insertf128_si256` builds it. -/
def mm256_ofHalves (lo hi : M128i) : M256i := fun j =>
  if h : j.val < 4 then lo ⟨j, h⟩ else hi ⟨j - 4, by omega⟩

/-- `_mm_popcnt_u64`, whose result the code keeps in an `INT`. -/
def mm_popcnt_u64 (x : BitVec 64) : ULONG := x.cpop.setWidth 32

/-- The two x86 targets of the vector code. -/
inductive Machine where
  | M_AMD64
  | M_IX86
  deriving DecidableEq, Repr

inductive ChecksumParityMaskFunc where
  | ParityMaskFuncDefault
  | ParityMaskFuncPopcnt
  deriving DecidableEq, Repr

/-! ## Parity masks of registers -/

def lParityMask128 (dq : M128i) : ULONG :=
  let dq1 := mm_shuffle_epi32 dq 0x4e
  let dq2 := mm_xor dq dq1
  let dq3 := mm_shuffle_epi32 dq2 0x1b
  let dq4 := mm_xor dq2 dq3
  lParityMask (mm_cvtsi128_si32 dq4)

/-- The population count both vector routines take of a register whose halves are equal. -/
def popcntHalf (machine : Machine) (dq2 : M128i) : ULONG :=
  match machine with
  | .M_IX86 =>
    let dq3 := mm_shuffle_epi32 dq2 0x1b
    let dq4 := mm_xor dq2 dq3
    mm_popcnt_u32 (mm_cvtsi128_si32 dq4)
  | .M_AMD64 => mm_popcnt_u64 (mm_cvtsi128_si64 dq2)

def lParityMaskPopcnt128 (machine : Machine) (dq : M128i) : ULONG :=
  let dq1 := mm_shuffle_epi32 dq 0x4e
  let dq2 := mm_xor dq dq1
  let popcnt := popcntHalf machine dq2
  BitVec.neg (popcnt &&& 0x01)

def lParityMaskAVX (machine : Machine) (qq : M256i) : ULONG :=
  let qq1 := mm256_swap qq
  let dq2 := mm256_castsi256_si128 (mm_xor qq1 qq)
  let dq3 := mm_shuffle_epi32 dq2 0x4e
  let dq4 := mm_xor dq3 dq2
  let popcnt := popcntHalf machine dq4
  BitVec.neg (popcnt &&& 0x01)

/-- The parity mask of a register the template selects. -/
def parityMask128 (machine : Machine) : ChecksumParityMaskFunc → M128i → ULONG
  | .ParityMaskFuncPopcnt => lParityMaskPopcnt128 machine
  | .ParityMaskFuncDefault => lParityMask128

/-- The parity mask of a word the template selects. -/
def parityMask32 : ChecksumParityMaskFunc → ULONG → ULONG
  | .ParityMaskFuncPopcnt => lParityMaskPopcnt
  | .ParityMaskFuncDefault => lParityMask

/-- The parity mask of the low byte of a word the template selects. -/
def parityMask8 : ChecksumParityMaskFunc → ULONG → ULONG
  | .ParityMaskFuncPopcnt => fun byteT => lParityMaskPopcnt (byteT &&& 0xff)
  | .ParityMaskFuncDefault => parityLookup

/-! ## The bits of a word -/

set_option maxRecDepth 2000 in
/-- The XOR of the indices of the set bits of a byte, and of their complements above it. -/
def g_bECCLookupTable : Vector (BitVec 8) 256 := #v[
  0x00, 0x70, 0x61, 0x11, 0x52, 0x22, 0x33, 0x43, 0x43, 0x33, 0x22, 0x52, 0x11, 0x61, 0x70, 0x00,
  0x34, 0x44, 0x55, 0x25, 0x66, 0x16, 0x07, 0x77, 0x77, 0x07, 0x16, 0x66, 0x25, 0x55, 0x44, 0x34,
  0x25, 0x55, 0x44, 0x34, 0x77, 0x07, 0x16, 0x66, 0x66, 0x16, 0x07, 0x77, 0x34, 0x44, 0x55, 0x25,
  0x11, 0x61, 0x70, 0x00, 0x43, 0x33, 0x22, 0x52, 0x52, 0x22, 0x33, 0x43, 0x00, 0x70, 0x61, 0x11,
  0x16, 0x66, 0x77, 0x07, 0x44, 0x34, 0x25, 0x55, 0x55, 0x25, 0x34, 0x44, 0x07, 0x77, 0x66, 0x16,
  0x22, 0x52, 0x43, 0x33, 0x70, 0x00, 0x11, 0x61, 0x61, 0x11, 0x00, 0x70, 0x33, 0x43, 0x52, 0x22,
  0x33, 0x43, 0x52, 0x22, 0x61, 0x11, 0x00, 0x70, 0x70, 0x00, 0x11, 0x61, 0x22, 0x52, 0x43, 0x33,
  0x07, 0x77, 0x66, 0x16, 0x55, 0x25, 0x34, 0x44, 0x44, 0x34, 0x25, 0x55, 0x16, 0x66, 0x77, 0x07,
  0x07, 0x77, 0x66, 0x16, 0x55, 0x25, 0x34, 0x44, 0x44, 0x34, 0x25, 0x55, 0x16, 0x66, 0x77, 0x07,
  0x33, 0x43, 0x52, 0x22, 0x61, 0x11, 0x00, 0x70, 0x70, 0x00, 0x11, 0x61, 0x22, 0x52, 0x43, 0x33,
  0x22, 0x52, 0x43, 0x33, 0x70, 0x00, 0x11, 0x61, 0x61, 0x11, 0x00, 0x70, 0x33, 0x43, 0x52, 0x22,
  0x16, 0x66, 0x77, 0x07, 0x44, 0x34, 0x25, 0x55, 0x55, 0x25, 0x34, 0x44, 0x07, 0x77, 0x66, 0x16,
  0x11, 0x61, 0x70, 0x00, 0x43, 0x33, 0x22, 0x52, 0x52, 0x22, 0x33, 0x43, 0x00, 0x70, 0x61, 0x11,
  0x25, 0x55, 0x44, 0x34, 0x77, 0x07, 0x16, 0x66, 0x66, 0x16, 0x07, 0x77, 0x34, 0x44, 0x55, 0x25,
  0x34, 0x44, 0x55, 0x25, 0x66, 0x16, 0x07, 0x77, 0x77, 0x07, 0x16, 0x66, 0x25, 0x55, 0x44, 0x34,
  0x00, 0x70, 0x61, 0x11, 0x52, 0x22, 0x33, 0x43, 0x43, 0x33, 0x22, 0x52, 0x11, 0x61, 0x70, 0x00]

def lECCLookup8bit (byte : ULONG) : ULONG :=
  (g_bECCLookupTable.get (byte.setWidth 8).toFin).setWidth 32

/-- The locals of the loop over the bytes of a word. -/
structure ByteLoop where
  r : ULONG
  byteT : ULONG
  byte0 : ULONG
  idxr : ULONG

/-- The loop after `n` bytes. -/
def byteLoop (parityMask8 : ULONG → ULONG) (dw0 : ULONG) : Nat → ByteLoop
  | 0 => ⟨0, dw0, 0, 0xfff80000⟩
  | n + 1 =>
    let s := byteLoop parityMask8 dw0 n
    { r := s.r ^^^ (s.idxr &&& parityMask8 s.byteT)
      byte0 := s.byte0 ^^^ s.byteT
      byteT := s.byteT >>> 8
      idxr := s.idxr + 0xfff80008 }

/-- `r` and its complement: the byte's bits by parity, the bits inside a byte by lookup. -/
def byteColumns (parityMask8 : ULONG → ULONG) (dw0 : ULONG) : ULONG :=
  let s := byteLoop parityMask8 dw0 4
  let bits := lECCLookup8bit s.byte0
  let r := s.r ||| (bits &&& 0x07)
  r ||| ((bits <<< 12) &&& 0x00070000)

/-! ## Rows of 512 bits -/

/-- The block as an array of 128-bit registers. -/
def pdq (pb : Mem) (i : Nat) : M128i := fun j => pdw pb (4 * i + j)

/-- The locals of the loop over 512-bit rows. -/
structure Rows512 where
  p : ULONG
  dq0 : M128i
  dq1 : M128i
  dq2 : M128i
  dq3 : M128i
  idxp : ULONG
  i : Nat

/-- The loop body from the label `Start` on. -/
def Rows512.start (parityMask : M128i → ULONG) (pdq : Nat → M128i) (dqL0 : M128i) (s : Rows512) :
    Rows512 :=
  let dqL1 := pdq (s.i + 1)
  let dqL2 := pdq (s.i + 2)
  let dqL3 := pdq (s.i + 3)
  let dqLAcc := mm_xor (mm_xor (mm_xor dqL0 dqL1) dqL2) dqL3
  let p := s.p ^^^ (s.idxp &&& parityMask dqLAcc)
  let idxp := s.idxp + 0xfe000200
  let dqH0 := pdq (s.i + 4)
  let dqH1 := pdq (s.i + 5)
  let dqH2 := pdq (s.i + 6)
  let dqH3 := pdq (s.i + 7)
  let dqHAcc := mm_xor (mm_xor (mm_xor dqH0 dqH1) dqH2) dqH3
  { p := p ^^^ (idxp &&& parityMask dqHAcc)
    dq0 := mm_xor (mm_xor s.dq0 dqL0) dqH0
    dq1 := mm_xor (mm_xor s.dq1 dqL1) dqH1
    dq2 := mm_xor (mm_xor s.dq2 dqL2) dqH2
    dq3 := mm_xor (mm_xor s.dq3 dqL3) dqH3
    idxp := idxp + 0xfe000200
    i := s.i + 8 }

/-- The loop, entered at `Start` with the first register of the row. -/
def Rows512.loop (parityMask : M128i → ULONG) (pdq : Nat → M128i) (cdq : Nat) (dqL0 : M128i)
    (s : Rows512) : Rows512 :=
  let s' := s.start parityMask pdq dqL0
  if s'.i < cdq then Rows512.loop parityMask pdq cdq (pdq s'.i) s' else s'
termination_by cdq - s.i
decreasing_by
  have hi : (s.start parityMask pdq dqL0).i = s.i + 8 := rfl
  have hlt : (s.start parityMask pdq dqL0).i < cdq := by assumption
  show cdq - (s.start parityMask pdq dqL0).i < cdq - s.i
  omega

/-- The four registers as the array of words they are stored to. -/
def arydq (s : Rows512) (i : Nat) : ULONG :=
  (![s.dq0, s.dq1, s.dq2, s.dq3] (Fin.ofNat 4 (i / 4))) (Fin.ofNat 4 (i % 4))

def checksumNewFormatSSE2 (machine : Machine) (func : ChecksumParityMaskFunc) (pb : Mem) (cb : Nat)
    (pgno : ULONG) (fHeaderBlock : Bool) : XECHECKSUM :=
  let cdq := cb / 16
  let pdq := pdq pb
  let s₀ : Rows512 := ⟨0, 0, 0, 0, 0, 0xfe000000, 0⟩
  let dqL0 := if fHeaderBlock then mm_unpackhi_epi64 0 (pdq 0) else pdq 0
  let s := s₀.loop (parityMask128 machine func) pdq cdq dqL0
  let pdw := arydq s
  -- the words read back: `dw0` is their XOR, `q` picks their indices
  let dw0 := xorSum 16 pdw
  let q := (distribute 0xffe00000 0xffe00020 (fun i => parityMask32 func (pdw i)) 16).1
  let r := byteColumns (parityMask8 func) dw0
  let mask := eccMask cb
  let ecc := s.p &&& 0xfe00fe00 &&& mask ||| q &&& 0x01e001e0 ||| r &&& 0x001f001f
  let xor := dw0
  makeChecksumFromECCXORAndPgno ecc xor pgno

/-! ## Rows of 1024 bits -/

/-- The block as an array of 256-bit registers. -/
def pqq (pb : Mem) (i : Nat) : M256i := fun j => pdw pb (8 * i + j)

/-- The locals of the loop over 1024-bit rows. -/
structure Rows1024 where
  p : ULONG
  qq0 : M256i
  qq1 : M256i
  qq2 : M256i
  qq3 : M256i
  idxp : ULONG
  i : Nat

/-- The loop body from the label `Start` on. -/
def Rows1024.start (parityMask : M256i → ULONG) (pqq : Nat → M256i) (qqL0 : M256i) (s : Rows1024) :
    Rows1024 :=
  let qqL1 := pqq (s.i + 1)
  let qqL2 := pqq (s.i + 2)
  let qqL3 := pqq (s.i + 3)
  let qqLAcc := mm_xor (mm_xor (mm_xor qqL0 qqL1) qqL2) qqL3
  { p := s.p ^^^ (s.idxp &&& parityMask qqLAcc)
    qq0 := mm_xor s.qq0 qqL0
    qq1 := mm_xor s.qq1 qqL1
    qq2 := mm_xor s.qq2 qqL2
    qq3 := mm_xor s.qq3 qqL3
    idxp := s.idxp + 0xfc000400
    i := s.i + 4 }

/-- The loop, entered at `Start` with the first register of the row. -/
def Rows1024.loop (parityMask : M256i → ULONG) (pqq : Nat → M256i) (cqq : Nat) (qqL0 : M256i)
    (s : Rows1024) : Rows1024 :=
  let s' := s.start parityMask pqq qqL0
  if s'.i < cqq then Rows1024.loop parityMask pqq cqq (pqq s'.i) s' else s'
termination_by cqq - s.i
decreasing_by
  have hi : (s.start parityMask pqq qqL0).i = s.i + 4 := rfl
  have hlt : (s.start parityMask pqq qqL0).i < cqq := by assumption
  show cqq - (s.start parityMask pqq qqL0).i < cqq - s.i
  omega

def checksumNewFormatAVX (machine : Machine) (pb : Mem) (cb : Nat) (pgno : ULONG)
    (fHeaderBlock : Bool) : XECHECKSUM :=
  let cqq := cb / 32
  let pqq := pqq pb
  let s₀ : Rows1024 := ⟨0, 0, 0, 0, 0, 0xfc000000, 0⟩
  let qqL0 :=
    if fHeaderBlock then mm256_ofHalves (mm_unpackhi_epi64 0 (pdq pb 0)) (pdq pb 1) else pqq 0
  let s := s₀.loop (lParityMaskAVX machine) pqq cqq qqL0
  let qqAcc := mm_xor (mm_xor (mm_xor s.qq0 s.qq1) s.qq2) s.qq3
  let q := (distribute 0xff000000 0xff000100
    (fun i => lParityMaskAVX machine (![s.qq0, s.qq1, s.qq2, s.qq3] (Fin.ofNat 4 i))) 4).1
  let pdw := fun i => qqAcc (Fin.ofNat 8 i)
  let dwAcc := xorSum 8 pdw
  let q_ := (distribute 0xffe00000 0xffe00020 (fun i => -(mm_popcnt_u32 (pdw i) &&& 0x01)) 8).1
  let r := byteColumns (fun byteT => -(mm_popcnt_u32 (byteT &&& 0xff) &&& 0x01)) dwAcc
  let mask := eccMask cb
  let ecc := s.p &&& 0xfc00fc00 &&& mask ||| q &&& 0x03000300 ||| q_ &&& 0x00e000e0 |||
    r &&& 0x001f001f
  let xor := dwAcc
  makeChecksumFromECCXORAndPgno ecc xor pgno

end Ese
