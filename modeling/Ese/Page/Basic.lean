import Mathlib.Data.List.Perm.Basic
import Ese.Lib.Memory

/-!
# Database pages

`CPage` is the in-memory page of `cpage.cxx`: the header fields the line operations read and
write, and the bytes that follow the header. Lines grow up from the start of those bytes and the
tag array grows down from their end, so both live in one byte memory and a tag is decoded from
the four bytes it occupies. Up to 8 KB a tag also holds the three flag bits of its line; from
16 KB on the flags are the top three bits of the line's own first 16-bit word.

The page is latched for write and of its natural size throughout (`FIsNormalSized`), so the
buffer and the page have one size. A failing `Enforce` ends the process and is modelled by
`none`, and so is a write past the end of a temporary buffer. The data of an insert or a replace is
passed by value: it is not on the page.
-/

namespace Ese

/-- The supported page sizes, `g_cbPageMin` to `g_cbPageMax`. -/
inductive PageSize
  | kb4 | kb8 | kb16 | kb32
  deriving DecidableEq, Repr

/-- The size of a page in bytes. -/
def PageSize.cbPage : PageSize → Nat
  | .kb4 => 4096
  | .kb8 => 8192
  | .kb16 => 16384
  | .kb32 => 32768

theorem PageSize.cbPage_le (s : PageSize) : s.cbPage ≤ 32768 := by cases s <;> decide

/-- Pages of up to 8 KB have the small format. -/
def PageSize.fSmallPage (s : PageSize) : Bool := s.cbPage ≤ 1024 * 8

/-- The size of the page header, `sizeof( PGHDR )` or `sizeof( PGHDR2 )`. -/
def PageSize.cbPageHeader (s : PageSize) : Nat := if s.fSmallPage then 40 else 80

/-- The size of the data area: the page without its header. -/
def PageSize.cbPageData (s : PageSize) : Nat := s.cbPage - s.cbPageHeader

/-- The cast to `USHORT`. -/
def ushort (x : Int) : Nat := (x % 65536).toNat

/-- The cast to `SHORT`. -/
def short (x : Int) : Int := (x + 32768) % 65536 - 32768

/-- `CPAGE::TAG`: the two 16-bit words of a tag, flags and unused bits included. -/
@[ext] structure Tag where
  cb_ : BitVec 16
  ib_ : BitVec 16
  deriving DecidableEq, Repr

namespace Tag

def mskTagFlags : BitVec 16 := 0xe000
def shfTagFlags : Nat := 13
def mskLargeTagIbCb : BitVec 16 := 0x7fff
def mskSmallTagIbCb : BitVec 16 := 0x1fff

/-- The bits of a tag word that hold the offset or the length. -/
def mskIbCb (fSmallFormat : Bool) : BitVec 16 :=
  if fSmallFormat then mskSmallTagIbCb else mskLargeTagIbCb

/-- The length of a tag's line. -/
def cb (t : Tag) (fSmallFormat : Bool) : Nat := (t.cb_ &&& mskIbCb fSmallFormat).toNat

/-- The offset of a tag's line in the data area. -/
def ib (t : Tag) (fSmallFormat : Bool) : Nat := (t.ib_ &&& mskIbCb fSmallFormat).toNat

/-- The flags of a tag's line: bits of the tag on a small page, of the line's first word on a
large one, where a line too short for the word has no flags. -/
def fFlags (t : Tag) (data : Mem) (fSmallFormat : Bool) : BitVec 16 :=
  if fSmallFormat then (t.ib_ &&& mskTagFlags) >>> shfTagFlags
  else if 2 ≤ t.cb fSmallFormat then
    (data.readU16 (t.ib fSmallFormat) &&& mskTagFlags) >>> shfTagFlags
  else 0

/-- `us` with the flag bits replaced by `fFlags`. -/
def flagWord (us fFlags : BitVec 16) : BitVec 16 :=
  us &&& ~~~mskTagFlags ||| fFlags <<< shfTagFlags

/-- The tag with a new offset, its other bits unchanged. -/
def withIb (t : Tag) (fSmallFormat : Bool) (ib : Nat) : Tag :=
  { t with ib_ := t.ib_ &&& ~~~mskIbCb fSmallFormat ||| BitVec.ofNat 16 ib }

/-- The tag with a new length, its other bits unchanged. -/
def withCb (t : Tag) (fSmallFormat : Bool) (cb : Nat) : Tag :=
  { t with cb_ := t.cb_ &&& ~~~mskIbCb fSmallFormat ||| BitVec.ofNat 16 cb }

/-- The tag with new flag bits, its other bits unchanged. -/
def withFlags (t : Tag) (fFlags : BitVec 16) : Tag :=
  { t with ib_ := flagWord t.ib_ fFlags }

end Tag

/-- A line as a reader sees it: its bytes and its flags. -/
@[ext] structure Line where
  pv : List Byte
  fFlags : BitVec 16
  deriving DecidableEq, Repr

/-- The line a tag describes. -/
def Tag.line (t : Tag) (data : Mem) (fSmallFormat : Bool) : Line :=
  ⟨data.read (t.ib fSmallFormat) (t.cb fSmallFormat), t.fFlags data fSmallFormat⟩

/-- A page and the `CPAGE` members that describe it. `itagMicFree` and `ctagReserved` are the
members `m_itagMicFree` and `m_ctagReserved`; `itagState` is the header field that persists
them. `data` is the byte memory that starts where the header ends. -/
structure CPage where
  size : PageSize
  fResvTagFormatEnabled : Bool
  itagMicFree : Nat
  ctagReserved : Nat
  cbFree : Nat
  ibMicFree : Nat
  itagState : Nat
  data : Mem

/-- The order in which `ReorganizeData_` and `ZeroOutGaps_` visit the tags. `std::sort` promises
a permutation in non-decreasing `ib` order and nothing about equal offsets, so the page
operations take any function that keeps that promise. -/
structure TagSort where
  /-- The tag indices `l` ordered by the key `ib`. -/
  sort : (Nat → Nat) → List Nat → List Nat
  perm : ∀ ib l, (sort ib l).Perm l
  sorted : ∀ ib l, (sort ib l).Pairwise fun i j => ib i ≤ ib j

/-- What a page operation reads besides the page: the sort the library provides, whether unused
space is scrubbed (`JET_paramZeroDatabaseUnusedSpace`), and the largest page size the buffer manager
was initialised for, which is the size of every buffer that `BFAlloc` returns. -/
structure PageEnv where
  tagSort : TagSort
  fRuntimeScrubbing : Bool
  cbPageSizeMax : Nat

/-- `sizeof( TAG* )`. -/
def cbPtag : Nat := 8

/-- The pointers to tags that a temporary buffer holds. -/
def PageEnv.cptagMax (env : PageEnv) : Nat := env.cbPageSizeMax / cbPtag

def chPAGEReplaceFill : Byte := 0x52
def chPAGEDeleteFill : Byte := 0x44
def chPAGEReorgContiguousFreeFill : Byte := 0x4f

namespace CPage

variable (p : CPage)

def fSmallFormat : Bool := p.size.fSmallPage

def cbPageData : Nat := p.size.cbPageData

/-- `sizeof( TAG )`. -/
def cbTag : Nat := 4

def cbTagArray_ : Nat := p.itagMicFree * cbTag

/-- The free bytes between the last line and the tag array. -/
def cbContiguousFree_ : Int := (p.cbPageData : Int) - p.ibMicFree - p.cbTagArray_

/-- The offset of a tag in `data`: the array grows down from the end of the page. -/
def ptagFromItag_ (itag : Nat) : Nat := p.cbPageData - cbTag * (itag + 1)

/-- The tag `itag`, decoded. -/
def tag (itag : Nat) : Tag :=
  ⟨p.data.readU16 (p.ptagFromItag_ itag), p.data.readU16 (p.ptagFromItag_ itag + 2)⟩

/-- The page with the bytes of tag `itag` replaced. -/
def setTag (itag : Nat) (t : Tag) : CPage :=
  { p with
    data := (p.data.writeU16 (p.ptagFromItag_ itag) t.cb_).writeU16
      (p.ptagFromItag_ itag + 2) t.ib_ }

/-- The tags in use. -/
def tags : List Tag := (List.range p.itagMicFree).map p.tag

def cb (itag : Nat) : Nat := (p.tag itag).cb p.fSmallFormat

def ib (itag : Nat) : Nat := (p.tag itag).ib p.fSmallFormat

/-- The line behind tag `itag`, as `GetPtr_` returns it. -/
def getPtr_ (itag : Nat) : Line := (p.tag itag).line p.data p.fSmallFormat

/-- `TAG::SetIb`. -/
def setIb (itag ib : Nat) : CPage := p.setTag itag ((p.tag itag).withIb p.fSmallFormat ib)

/-- `TAG::SetCb`. -/
def setCb (itag cb : Nat) : CPage := p.setTag itag ((p.tag itag).withCb p.fSmallFormat cb)

/-- `TAG::SetFlags`: on a large page the flags are written into the line, and tag 0 has none. -/
def setFlags (itag : Nat) (fFlags : BitVec 16) : CPage :=
  if p.fSmallFormat then p.setTag itag ((p.tag itag).withFlags fFlags)
  else if itag ≠ 0 ∧ 2 ≤ p.cb itag then
    { p with
      data := p.data.writeU16 (p.ib itag) (Tag.flagWord (p.data.readU16 (p.ib itag)) fFlags) }
  else p

/-- `SetITagState_`: the member fields and, in the new or the legacy format, their header field. -/
def setITagState_ (itagMicFree ctagReserved : Nat) : CPage :=
  { p with
    itagMicFree := ushort itagMicFree
    ctagReserved := ushort ctagReserved
    itagState :=
      if p.fResvTagFormatEnabled ∨ p.itagState >>> 12 > 0 then
        ushort ((ctagReserved <<< 12 ||| itagMicFree : Nat))
      else ushort itagMicFree }

def setITagMicFree_ (itagMicFree : Nat) : CPage := p.setITagState_ itagMicFree p.ctagReserved

/-! ## A new page -/

end CPage

/-- `PreInitializeNewPage_`: a zeroed page without tags. -/
def CPage.preInitializeNewPage_ (size : PageSize) (fResvTagFormatEnabled : Bool) : CPage where
  size
  fResvTagFormatEnabled
  itagMicFree := 0
  ctagReserved := 0
  cbFree := ushort size.cbPageData
  ibMicFree := 0
  itagState := 0
  data := fun _ => 0

namespace CPage

variable (p : CPage)

/-- `ConsumePreInitPage`: the empty external header becomes tag 0. -/
def consumePreInitPage : CPage :=
  let p := p.setITagState_ 1 1
  let p := { p with cbFree := ushort (p.cbFree - cbTag) }
  ((p.setIb 0 0).setCb 0 0).setFlags 0 0

/-! ## Making room -/

/-- The loop of `ReorganizeData_`: the lines of `rgptag` are moved down to `ibDest`, in order. A
line that would be moved up overlaps the one before it, which is enforced against. -/
def reorganizeLoop : List Nat → Nat → CPage → Option (CPage × Nat)
  | [], ibDest, p => some (p, ibDest)
  | itag :: rgptag, ibDest, p =>
    if p.cb itag ≠ 0 ∧ p.ib itag < ibDest then none
    else
      let p := if p.cb itag ≠ 0 then
          { p with data := p.data.move ibDest (p.ib itag) (p.cb itag) }
        else p
      let p := p.setIb itag ibDest
      reorganizeLoop rgptag (ushort (ibDest + p.cb itag)) p

/-- `ReorganizeData_`: compact the lines at the start of the data area. A pointer to every tag is
put into a temporary buffer, whose end is not checked. -/
def reorganizeData_ (env : PageEnv) : Option CPage :=
  if env.cptagMax < p.itagMicFree then none
  else do
    let rgptag := env.tagSort.sort p.ib (List.range p.itagMicFree)
    let (p, ibDest) ← reorganizeLoop rgptag 0 p
    let p := { p with ibMicFree := ibDest }
    if env.fRuntimeScrubbing then
      some { p with
        data := p.data.fill p.ibMicFree p.cbContiguousFree_.toNat chPAGEReorgContiguousFreeFill }
    else some p

/-- `FreeSpace_`: make `cb` contiguous bytes free, or fail the enforce. -/
def freeSpace_ (env : PageEnv) (cb : Nat) : Option CPage := do
  let p ← if p.cbContiguousFree_ < cb then p.reorganizeData_ env else some p
  if p.cbContiguousFree_ ≥ cb then some p else none

/-- `c` double words from `a` on, each replaced by the one above it, lowest first: the unrolled
loop of `ExpandTagArray_`. -/
def copyDwords (a : Nat) : Nat → Mem → Mem
  | 0, data => data
  | c + 1, data => copyDwords (a + 4) c (data.move a (a + 4) 4)

/-- `ExpandTagArray_`: open a slot at `itag`, moving the tags from `itag` on away from the end of
the page. -/
def expandTagArray_ (itag : Nat) : CPage :=
  let p := if itag ≠ p.itagMicFree then
      { p with data := copyDwords (p.ptagFromItag_ p.itagMicFree) (p.itagMicFree - itag) p.data }
    else p
  p.setITagMicFree_ (p.itagMicFree + 1)

/-- `CbDataTotal_`. -/
def cbDataTotal_ (rgdata : List (List Byte)) : Nat := (rgdata.map List.length).sum

/-- The copy loop of `CopyData_`. -/
def copyPieces (a : Nat) : List (List Byte) → Mem → Mem
  | [], data => data
  | d :: rgdata, data => copyPieces (a + d.length) rgdata (data.write a d)

/-- `CopyData_`: store the data where the tag points and put the line's flags back, which the
data has overwritten on a large page. -/
def copyData_ (itag : Nat) (rgdata : List (List Byte)) : CPage :=
  let usFlags := (p.tag itag).fFlags p.data p.fSmallFormat
  let p := { p with data := copyPieces (p.ib itag) rgdata p.data }
  if itag ≠ 0 then p.setFlags itag usFlags else p

/-! ## The line operations -/

/-- `Insert_`: a new line at `itag`. -/
def insert_ (env : PageEnv) (itag : Nat) (rgdata : List (List Byte)) (fFlags : BitVec 16) :
    Option CPage := do
  let cbTotal := ushort (cbDataTotal_ rgdata)
  let p ← p.freeSpace_ env (cbTotal + cbTag)
  let p := p.expandTagArray_ itag
  let p := ((p.setCb itag 0).setIb itag 0).setFlags itag 0
  let p := p.setIb itag p.ibMicFree
  let p := { p with ibMicFree := ushort (p.ibMicFree + cbTotal) }
  let p := p.setCb itag cbTotal
  let p := { p with cbFree := ushort (p.cbFree - (cbTotal + cbTag)) }
  let p := p.setFlags itag fFlags
  some (p.copyData_ itag rgdata)

/-- `Replace_`: the line shrinks in place, grows in place when it is the last one, and otherwise
moves. -/
def replace_ (env : PageEnv) (itag : Nat) (rgdata : List (List Byte)) (fFlags : BitVec 16) :
    Option CPage := do
  let cbTotal := ushort (cbDataTotal_ rgdata)
  let cbDiff := short ((p.cb itag : Int) - cbTotal)
  let p ←
    if cbDiff ≥ 0 ∨ p.ib itag + p.cb itag = p.ibMicFree ∧ p.cbContiguousFree_ ≥ -cbDiff then
      let p := if p.ib itag + p.cb itag = p.ibMicFree then
          { p with ibMicFree := ushort (p.ibMicFree - cbDiff) }
        else p
      some { p with cbFree := ushort (p.cbFree + cbDiff) }
    else do
      let p := if env.fRuntimeScrubbing then
          { p with data := p.data.fill (p.ib itag) (p.cb itag) chPAGEReplaceFill }
        else p
      let p := { p with cbFree := ushort (p.cbFree + p.cb itag) }
      let p := ((p.setIb itag 0).setCb itag 0).setFlags itag 0
      let p ← p.freeSpace_ env cbTotal
      let p := p.setIb itag p.ibMicFree
      let p := { p with ibMicFree := ushort (p.ibMicFree + cbTotal) }
      some { p with cbFree := ushort (p.cbFree - cbTotal) }
  let p := p.setCb itag cbTotal
  let p := p.setFlags itag fFlags
  let p := p.copyData_ itag rgdata
  if cbDiff > 0 ∧ env.fRuntimeScrubbing then
    some { p with
      data := p.data.fill (p.ib itag + p.cb itag) cbDiff.toNat chPAGEReplaceFill }
  else some p

/-- `ReplaceFlags_`. -/
def replaceFlags_ (itag : Nat) (fFlags : BitVec 16) : CPage := p.setFlags itag fFlags

/-- The `copy_backward` of `Delete_`: `c` tags from `itag` on, each replaced by the next. -/
def copyTags (itag : Nat) : Nat → CPage → CPage
  | 0, p => p
  | c + 1, p => copyTags (itag + 1) c (p.setTag itag (p.tag (itag + 1)))

/-- `Delete_`: the line's tag goes, its bytes become a hole unless it was the last line. -/
def delete_ (env : PageEnv) (itag : Nat) : CPage :=
  let p := if env.fRuntimeScrubbing then
      { p with data := p.data.fill (p.ib itag) (p.cb itag) chPAGEDeleteFill }
    else p
  let p := if p.cb itag + p.ib itag = p.ibMicFree then
      { p with ibMicFree := ushort ((p.ibMicFree : Int) - p.cb itag) }
    else p
  let p := { p with cbFree := ushort (p.cbFree + p.cb itag + cbTag) }
  let p := p.setITagMicFree_ (p.itagMicFree - 1)
  let p := copyTags itag (p.itagMicFree - itag) p
  if p.cbFree + cbTag + p.size.cbPageHeader = p.size.cbPage then { p with ibMicFree := 0 } else p

/-- The gap loop of `ZeroOutGaps_`: the bytes between each line of `rgptag` and the next. -/
def zeroGaps (chZero : Byte) : List Nat → CPage → Option CPage
  | itag :: itagNext :: rgptag, p =>
    if p.ib itagNext < p.ib itag + p.cb itag then none
    else
      zeroGaps chZero (itagNext :: rgptag)
        { p with
          data := p.data.fill (p.ib itag + p.cb itag)
            (p.ib itagNext - (p.ib itag + p.cb itag)) chZero }
  | _, p => some p

/-- The tags whose lines are not empty. -/
def filledTags : List Nat := (List.range p.itagMicFree).filter fun i => p.cb i > 0

/-- `ZeroOutGaps_`: fill the holes between the lines, and give `ibMicFree` its exact value. A
pointer to the tag of every line that is not empty is put into a temporary buffer. -/
def zeroOutGaps_ (env : PageEnv) (chZero : Byte) : Option CPage :=
  if env.cptagMax < p.filledTags.length then none
  else
    let rgptag := env.tagSort.sort p.ib p.filledTags
    let p := match rgptag.head?, rgptag.getLast? with
      | some itagFirst, some itagLast =>
        { p with
          data := p.data.fill 0 (p.ib itagFirst) chZero
          ibMicFree := ushort (p.ib itagLast + p.cb itagLast) }
      | _, _ => { p with ibMicFree := 0 }
    zeroGaps chZero rgptag p

/-- `OverwriteUnusedSpace`: every byte of the data area that belongs to no line becomes
`chZero`. -/
def overwriteUnusedSpace (env : PageEnv) (chZero : Byte) : Option CPage := do
  let p ← if p.cbContiguousFree_ ≠ p.cbFree then p.zeroOutGaps_ env chZero else some p
  some { p with data := p.data.fill p.ibMicFree p.cbContiguousFree_.toNat chZero }

end CPage

end Ese
