import Mathlib.Data.Fintype.Basic
import Ese.Checksum.Agree
import Ese.Checksum.Correct

/-!
# Page checksums

A database page is divided into at most four blocks, each with its own checksum. The header block's
checksum is the first eight bytes of the page; the others are stored in the large-page header
(`PGHDR2`), inside the header block, so the header block's checksum protects them too.
`ChecksumAndPossiblyFixPage` compares the stored checksums with the computed ones and flips back a
single bit in any of the blocks.
-/

namespace Ese

/-- The kinds of pages that a checksum is of. -/
inductive PAGETYPE where
  | databasePage
  | databaseHeader
  | logfileHeader
  | flushmapHeaderPage
  deriving DecidableEq, Repr

/-- The routines `pfnChecksumNewFormat` can point to. -/
inductive PFNCHECKSUMNEWFORMAT where
  | ChecksumNewFormatSlowly
  | ChecksumNewFormatSSE
  | ChecksumNewFormatSSE2 (func : ChecksumParityMaskFunc)
  | ChecksumNewFormatAVX
  | ChecksumNewFormat64Bit
  deriving DecidableEq, Repr

/-- The machine the code is compiled for and the routine it selected. -/
structure ChecksumCode where
  machine : Machine
  pfn : PFNCHECKSUMNEWFORMAT

/-- `ChecksumNewFormat`: the call through the function pointer. -/
def checksumNewFormat (code : ChecksumCode) : Mem → Nat → ULONG → Bool → XECHECKSUM :=
  match code.pfn with
  | .ChecksumNewFormatSlowly => checksumNewFormatSlowly
  | .ChecksumNewFormatSSE => checksumNewFormatSSE
  | .ChecksumNewFormatSSE2 func => checksumNewFormatSSE2 code.machine func
  | .ChecksumNewFormatAVX => checksumNewFormatAVX code.machine
  | .ChecksumNewFormat64Bit => checksumNewFormat64Bit

/-- The old format: the XOR of all words but the first, with a seed. -/
def checksumOldFormat (pb : Mem) (cb : Nat) : ULONG :=
  0x89abcdef ^^^ pdw pb 0 ^^^ xorSum (cb / 32) fun k =>
    pdw pb (8 * k) ^^^ pdw pb (8 * k + 1) ^^^ pdw pb (8 * k + 2) ^^^ pdw pb (8 * k + 3) ^^^
      pdw pb (8 * k + 4) ^^^ pdw pb (8 * k + 5) ^^^ pdw pb (8 * k + 6) ^^^ pdw pb (8 * k + 7)

/-! ## Bits of a page -/

/-- `FGetBit`. -/
def fGetBit (pv : Mem) (ibitOffset : Nat) : Bool :=
  let ibyte := ibitOffset / 8
  let ibitInByte := ibitOffset % 8
  let bitMask : Byte := 1#8 <<< ibitInByte
  pv ibyte &&& bitMask ≠ 0

/-- `SetBit`. -/
def setBit (pv : Mem) (ibitOffset : Nat) : Mem :=
  let ibyte := ibitOffset / 8
  let ibitInByte := ibitOffset % 8
  let bitMask : Byte := 1#8 <<< ibitInByte
  fun i => if i = ibyte then pv i ||| bitMask else pv i

/-- `FlipBit`. -/
def flipBit (pv : Mem) (ibitOffset : Nat) : Mem :=
  let ibyte := ibitOffset / 8
  let ibitInByte := ibitOffset % 8
  let bitMask : Byte := 1#8 <<< ibitInByte
  fun i => if i = ibyte then pv i ^^^ bitMask else pv i

/-- The checksums of a page, one for each block. -/
abbrev PAGECHECKSUM := Fin 4 → XECHECKSUM

/-- Entry `i` of the array, where it has one. -/
def PAGECHECKSUM.set (c : PAGECHECKSUM) (i : Nat) (xe : XECHECKSUM) : PAGECHECKSUM :=
  fun k => if k.val = i then xe else c k

/-- `FlipBit` of the bytes of the array. -/
def PAGECHECKSUM.flipBit (c : PAGECHECKSUM) (ibitOffset : Nat) : PAGECHECKSUM :=
  fun k => if k.val = ibitOffset / 64 then c k ^^^ (1#64 <<< (ibitOffset % 64)) else c k

/-! ## The format flag -/

/-- The bit of a page that says its format. -/
def ibitNewChecksumFormatFlag : PAGETYPE → ULONG
  | .databasePage => BitVec.ofNat 32 ((9 * 32) + 13)
  | _ => ulMax

/-- `FPageHasNewChecksumFormat`. -/
def fPageHasNewChecksumFormat (pv : Mem) (pagetype : PAGETYPE) : Bool :=
  if .databasePage = pagetype then fGetBit pv (ibitNewChecksumFormatFlag pagetype).toNat else false

/-- `SetNewChecksumFormatFlag`. -/
def setNewChecksumFormatFlag (pv : Mem) (pagetype : PAGETYPE) : Mem :=
  setBit pv (ibitNewChecksumFormatFlag pagetype).toNat

/-- `FPageHasLongChecksum`. -/
def fPageHasLongChecksum (pagetype : PAGETYPE) : Bool := .databasePage = pagetype

/-! ## The stored checksums -/

/-- Whether one block is the page. -/
def fIsSmallPage (cbPage : Nat) : Bool := cbPage ≤ 1024 * 8

/-- The offset of `PGHDR2::rgChecksum`. -/
def ibRgChecksum : Nat := 40

/-- `LittleEndian<XECHECKSUM>` entry `i` of `PGHDR2::rgChecksum`. -/
def rgChecksum (pv : Mem) (i : Nat) : XECHECKSUM := pv.readU64 (ibRgChecksum + 8 * i)

/-- `LongChecksumFromShortChecksum`: the page number takes the place of the ECC. -/
def longChecksumFromShortChecksum (xorChecksum pgno : ULONG) : XECHECKSUM :=
  pgno.setWidth 64 <<< 32 ||| xorChecksum.setWidth 64

/-- `LongChecksumFromPage`: one checksum for each block. -/
def longChecksumFromPage (pv : Mem) (cb : Nat) : PAGECHECKSUM :=
  if fIsSmallPage cb then ![pv.readU64 0, 0, 0, 0]
  else ![pv.readU64 0, rgChecksum pv 0, rgChecksum pv 1, rgChecksum pv 2]

/-- `SetLongChecksumOnPage`. -/
def setLongChecksumOnPage (pv : Mem) (cb : Nat) (checksum : PAGECHECKSUM) : Mem :=
  let pv := pv.writeU64 0 (checksum 0)
  if fIsSmallPage cb then pv
  else
    let pv := pv.writeU64 ibRgChecksum (checksum 1)
    let pv := pv.writeU64 (ibRgChecksum + 8) (checksum 2)
    pv.writeU64 (ibRgChecksum + 16) (checksum 3)

/-- `ChecksumFromPage`. -/
def checksumFromPage (pv : Mem) (cb : Nat) (pagetype : PAGETYPE) : PAGECHECKSUM :=
  if fPageHasLongChecksum pagetype then longChecksumFromPage pv cb
  else ![(pv.readU32 0).setWidth 64, 0, 0, 0]

/-- `SetChecksumOnPage`. -/
def setChecksumOnPage (pv : Mem) (cb : Nat) (pagetype : PAGETYPE) (checksum : PAGECHECKSUM) : Mem :=
  if fPageHasLongChecksum pagetype then setLongChecksumOnPage pv cb checksum
  else
    let shortChecksum := (checksum 0).setWidth 32
    pv.write 0 ((List.range 4).map fun k => shortChecksum.extractLsb' (8 * k) 8)

/-! ## Computing the checksums -/

/-- `CbBlockSize`: large pages have four blocks. -/
def cbBlockSize (cb : Nat) : Nat :=
  if !fIsSmallPage cb then
    if cb ≤ 16 * 1024 then 4096
    else if cb ≤ 32 * 1024 then 8 * 1024
    else cb
  else cb

section
variable (code : ChecksumCode)

/-- The whole blocks behind the header block; `none` is the failed `Enforce` of the array's size. -/
def blockLoop (pch : Mem) (cb cbBlock : Nat) (pgno : ULONG) (ibT i : Nat)
    (pgChecksum : PAGECHECKSUM) :
    Option (Nat × Nat × PAGECHECKSUM) :=
  if ibT + cbBlock ≤ cb then
    if i ≤ 3 then
      blockLoop pch cb cbBlock pgno (ibT + cbBlock) (i + 1)
        (pgChecksum.set i (checksumNewFormat code (fun k => pch (ibT + k)) cbBlock pgno false))
    else none
  else some (ibT, i, pgChecksum)
termination_by 4 - i

/-- The checksums of the blocks behind the header block of a large page. -/
def bodyChecksums (pch : Mem) (cb : Nat) (pgno : ULONG) : Option PAGECHECKSUM := do
  let cbBlock := cbBlockSize cb
  let (ibT, i, pgChecksum) ← blockLoop code pch cb cbBlock pgno cbBlock 1 (fun _ => 0)
  if 0 < cb - ibT then
    return pgChecksum.set i (checksumNewFormat code (fun k => pch (ibT + k)) (cb - ibT) pgno false)
  else
    return pgChecksum

/-- The checksums of a page, and the page, into which `fNew` stores those of the body blocks. -/
def computePageChecksum (pv : Mem) (cb : Nat) (pagetype : PAGETYPE) (pgno : ULONG) (fNew : Bool) :
    Option (PAGECHECKSUM × Mem) :=
  if fPageHasLongChecksum pagetype then
    if fPageHasNewChecksumFormat pv pagetype then
      if !fIsSmallPage cb then do
        let pgChecksum ← bodyChecksums code pv cb pgno
        let pv :=
          if fNew then
            let pv := pv.writeU64 ibRgChecksum (pgChecksum 1)
            let pv := pv.writeU64 (ibRgChecksum + 8) (pgChecksum 2)
            pv.writeU64 (ibRgChecksum + 16) (pgChecksum 3)
          else pv
        return (pgChecksum.set 0 (checksumNewFormat code pv (cbBlockSize cb) pgno true), pv)
      else return (PAGECHECKSUM.set (fun _ => 0) 0 (checksumNewFormat code pv cb pgno true), pv)
    else
      return (![longChecksumFromShortChecksum (checksumOldFormat pv cb) pgno, 0, 0, 0], pv)
  else return (![(checksumOldFormat pv cb).setWidth 64, 0, 0, 0], pv)

/-- `SetPageChecksum`. -/
def setPageChecksum (pv : Mem) (cb : Nat) (pagetype : PAGETYPE) (pgno : ULONG) : Option Mem := do
  let pv := if fPageHasLongChecksum pagetype then setNewChecksumFormatFlag pv pagetype else pv
  let (checksum, pv) ← computePageChecksum code pv cb pagetype pgno true
  return setChecksumOnPage pv cb pagetype checksum

/-! ## Fixing a page -/

/-- What the attempt to repair a block finds. -/
inductive XECHECKSUMERROR where
  | xeChecksumNoError
  | xeChecksumCorrectableError
  | xeChecksumFatalError
  deriving DecidableEq, Repr

/-- The block's error, and the offset of the bit to correct; on the way in the offset is that of the
bit that cannot be flipped. -/
def fTryFixBlock (cb : Nat) (ibitForbidden : ULONG)
    (xeChecksumExpected xeChecksumActual : XECHECKSUM) :
    XECHECKSUMERROR × ULONG :=
  if xeChecksumExpected = xeChecksumActual then (.xeChecksumNoError, ibitForbidden)
  else if fECCErrorIsCorrectable cb xeChecksumExpected xeChecksumActual then
    let ibit := ibitCorrupted cb xeChecksumExpected xeChecksumActual
    if ibitForbidden ≠ ibit ∧ ibit.toNat < 8 * cb then (.xeChecksumCorrectableError, ibit)
    else (.xeChecksumFatalError, ibitForbidden)
  else (.xeChecksumFatalError, ibitForbidden)

/-- The locals of the loop over the blocks. -/
structure FixLoop where
  checksumExpected : PAGECHECKSUM
  rgErr : Fin 4 → XECHECKSUMERROR
  rgibitCorrupted : Fin 4 → ULONG
  ibitCorrupted : ULONG

/-- How the loop ends: through an early return, or with the number of blocks. -/
inductive FixExit where
  | tooManyBlocks
  | fatal
  | done (cblk : Nat) (s : FixLoop)

/-- The first correctable error, and its effect on the expected checksums. -/
def FixLoop.hit (fSmallPage : Bool) (iblk : Fin 4) (s : FixLoop) : FixLoop :=
  if ulMax = s.ibitCorrupted then
    let ibitCorrupted := s.rgibitCorrupted iblk
    let ibitStart := 8 * ibRgChecksum
    let ibitLength := 64
    { s with
      ibitCorrupted := ibitCorrupted
      checksumExpected :=
        if !fSmallPage ∧ 0 = iblk ∧ ibitStart ≤ ibitCorrupted.toNat
            ∧ ibitCorrupted.toNat < ibitStart + ibitLength * (4 - 1) then
          s.checksumExpected.flipBit (ibitLength + (ibitCorrupted.toNat - ibitStart))
        else s.checksumExpected }
  else s

/-- The loop over the blocks, which stops at the first that cannot be repaired. -/
def fixLoop (cb : Nat) (checksumActual : PAGECHECKSUM) (iblk ibT cbBlock : Nat) (s : FixLoop) :
    FixExit :=
  if 0 < cbBlock then
    if h : iblk < 4 then
      let iblk' : Fin 4 := ⟨iblk, h⟩
      let fixed := fTryFixBlock cbBlock (s.rgibitCorrupted iblk') (s.checksumExpected iblk')
        (checksumActual iblk')
      let s : FixLoop := { s with
        rgErr := Function.update s.rgErr iblk' fixed.1
        rgibitCorrupted :=
          Function.update s.rgibitCorrupted iblk' (fixed.2 + BitVec.ofNat 32 (8 * ibT)) }
      let ibT := ibT + cbBlock
      let cbBlock := min (cb - ibT) cbBlock
      match fixed.1 with
      | .xeChecksumNoError => fixLoop cb checksumActual (iblk + 1) ibT cbBlock s
      | .xeChecksumCorrectableError =>
        fixLoop cb checksumActual (iblk + 1) ibT cbBlock (s.hit (fIsSmallPage cb) iblk')
      | .xeChecksumFatalError => .fatal
    else .tooManyBlocks
  else .done iblk s
termination_by 4 - iblk

/-- The outputs of a checksum verification. -/
structure FixResult where
  pv : Mem
  checksumExpected : PAGECHECKSUM
  checksumActual : PAGECHECKSUM
  fCorrectableError : Bool
  ibitCorrupted : ULONG

/-- The page, `*pfCorrectableError` and `*pibitCorrupted` after `TryFixPage`. -/
def tryFixPage (pv : Mem) (cb : Nat) (pagetype : PAGETYPE) (fCorrectError : Bool)
    (fCorrectableError : Bool) (ibitCorrupted : ULONG)
      (checksumExpected checksumActual : PAGECHECKSUM) :
    Mem × Bool × ULONG :=
  let s : FixLoop :=
    { checksumExpected := checksumExpected
      rgErr := fun _ => .xeChecksumNoError
      rgibitCorrupted := ![ibitNewChecksumFormatFlag pagetype, ulMax, ulMax, ulMax]
      ibitCorrupted := ulMax }
  match fixLoop cb checksumActual 0 0 (cbBlockSize cb) s with
  | .tooManyBlocks => (pv, fCorrectableError, ibitCorrupted)
  | .fatal => (pv, false, ibitCorrupted)
  | .done cblk s =>
    let pv := (List.finRange 4).foldl (fun pv iblk =>
      if fCorrectError ∧ iblk.val < cblk ∧ s.rgErr iblk = .xeChecksumCorrectableError then
        flipBit pv (s.rgibitCorrupted iblk).toNat
      else pv) pv
    (pv, true, s.ibitCorrupted)

/-- `fFault` is the outcome of the fault injection point. -/
def checksumAndPossiblyFixPage (fFault : Bool) (pv : Mem) (cb : Nat) (pagetype : PAGETYPE)
    (pgno : ULONG) (fCorrectError : Bool) : Option FixResult := do
  let checksumExpected := checksumFromPage pv cb pagetype
  let (checksumActual, _) ← computePageChecksum code pv cb pagetype pgno false
  let fNewChecksumFormat := fPageHasNewChecksumFormat pv pagetype
  if checksumActual ≠ checksumExpected ∧ fNewChecksumFormat then
    let (pv, fCorrectableError, ibitCorrupted) :=
      tryFixPage pv cb pagetype fCorrectError false (-1) checksumExpected checksumActual
    if fCorrectError ∧ fCorrectableError then
      let checksumExpected := checksumFromPage pv cb pagetype
      let (checksumActual, pv) ← computePageChecksum code pv cb pagetype pgno true
      return ⟨pv, checksumExpected, checksumActual, fCorrectableError, ibitCorrupted⟩
    else return ⟨pv, checksumExpected, checksumActual, fCorrectableError, ibitCorrupted⟩
  else if fFault then return ⟨pv, checksumExpected, checksumActual, true, 1066⟩
  else return ⟨pv, checksumExpected, checksumActual, false, -1⟩

end

end Ese
