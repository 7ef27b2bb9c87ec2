import Ese.LogDiff.Codec
import Ese.Page.OnPage

/-!
# Nodes

A node is a line that holds a key, data and three flag bits. The first bytes of the key may be left
to the external header of the page, the page prefix; the node then starts with their count. After it
come the count of the key bytes in the node, these bytes and the data. `NDIGetKeydataflags` returns
pointers into the page, `CdataNDIPrefixAndKeydataflagsToDataflags` lists the pieces of a node for
the line operations, and `NDInsert`, `NDGrowCbPrefix` and `NDShrinkCbPrefix` build a node from them.
-/

namespace Ese

def usNDCbKeyMask : BitVec 16 := 0x1fff

def fNDCompressed : BitVec 16 := 0x04

def cbKeyCount : Nat := 2
def cbPrefixOverhead : Nat := cbKeyCount

/-- `sizeof( SPLIT_BUFFER )`. -/
def cbSplitBuffer : Nat := 16

/-- `KEYDATAFLAGS`: the key in two parts, the data and the flags of a node. -/
structure KEYDATAFLAGS where
  prefixData : PageDATA
  suffixData : PageDATA
  data : PageDATA
  fFlags : BitVec 16
  deriving DecidableEq, Repr

namespace KEYDATAFLAGS

/-- `KEY::Cb`. -/
def cbKey (kdf : KEYDATAFLAGS) : Nat := kdf.prefixData.cb + kdf.suffixData.cb

/-- The bytes of the key. -/
def key (kdf : KEYDATAFLAGS) (data : Mem) : List Byte :=
  kdf.prefixData.bytes data ++ kdf.suffixData.bytes data

/-- `NDISetCompressed`. -/
def ndiSetCompressed (kdf : KEYDATAFLAGS) : KEYDATAFLAGS :=
  { kdf with fFlags := kdf.fFlags ||| fNDCompressed }

/-- `NDIResetCompressed`. -/
def ndiResetCompressed (kdf : KEYDATAFLAGS) : KEYDATAFLAGS :=
  { kdf with fFlags := kdf.fFlags &&& ~~~fNDCompressed }

end KEYDATAFLAGS

/-- `CdataNDIPrefixAndKeydataflagsToDataflags`: the pieces of the node `kdf` with `le_cbPrefix`
bytes of its key left to the page prefix, and its flags. -/
def cdataNDIPrefixAndKeydataflagsToDataflags (kdf : KEYDATAFLAGS) (le_cbPrefix : Nat) :
    List PageDATA × BitVec 16 :=
  let rgdataPrefix :=
    if le_cbPrefix > 0 then [PageDATA.off (wordBytes (BitVec.ofNat 16 le_cbPrefix))] else []
  let (rgdataSuffix, cbSuffix) :=
    if kdf.prefixData.cb ≤ le_cbPrefix then
      let cbPrefixInSuffix := le_cbPrefix - kdf.prefixData.cb
      ([kdf.suffixData.advance cbPrefixInSuffix], kdf.suffixData.cb - cbPrefixInSuffix)
    else
      ([kdf.prefixData.advance le_cbPrefix, kdf.suffixData],
        kdf.suffixData.cb + (kdf.prefixData.cb - le_cbPrefix))
  (rgdataPrefix ++ .off (wordBytes (BitVec.ofNat 16 cbSuffix)) :: rgdataSuffix ++ [kdf.data],
    if le_cbPrefix > 0 then kdf.fFlags ||| fNDCompressed else kdf.fFlags &&& ~~~fNDCompressed)

namespace CPage

variable (p : CPage)

/-- `NDILineToKeydataflags`, with the prefix still without a pointer. A node whose counts leave no
room for its data is corrupt: the enforce fails, or the length of the data is negative. -/
def ndiLineToKeydataflags (itag : Nat) : Option KEYDATAFLAGS :=
  let fFlags := (p.getPtr_ itag).fFlags
  let fCompressed := fFlags &&& fNDCompressed ≠ 0
  let cbPrefix :=
    if fCompressed then (p.data.readU16 (p.ib itag) &&& usNDCbKeyMask).toNat else 0
  let pb := if fCompressed then p.ib itag + cbPrefixOverhead else p.ib itag
  let cbKeyCountTotal := if fCompressed then cbKeyCount + cbPrefixOverhead else cbKeyCount
  let cbSuffix := (p.data.readU16 pb &&& usNDCbKeyMask).toNat
  if p.cb itag ≤ cbKeyCountTotal ∧ ¬ cbSuffix < p.cb itag then none
  else if p.cb itag < cbSuffix + cbKeyCountTotal then none
  else some
    { prefixData := .on 0 cbPrefix
      suffixData := .on (pb + cbKeyCount) cbSuffix
      data := .on (pb + cbKeyCount + cbSuffix) (p.cb itag - cbSuffix - cbKeyCountTotal)
      fFlags }

/-- `NDIGetKeydataflags`: the node at `iline`, its prefix in the external header. A root page has a
space header there, or a split buffer with the prefix after it. -/
def ndiGetKeydataflags (fRootPage fSpaceTree : Bool) (iline : Nat) : Option KEYDATAFLAGS := do
  let kdf ← p.ndiLineToKeydataflags (iline + p.ctagReserved)
  if kdf.fFlags &&& fNDCompressed ≠ 0 then
    if !fRootPage then
      some { kdf with prefixData := .on (p.ib 0) kdf.prefixData.cb }
    else if fSpaceTree then
      some { kdf with prefixData := .on (p.ib 0 + cbSplitBuffer) kdf.prefixData.cb }
    else some { kdf with prefixData := .off [] }
  else some { kdf with prefixData := .off [] }

/-- `NDInsert`, with `cbPrefix` bytes of the key left to the page prefix. -/
def ndInsert (env : PageEnv) (iline : Nat) (kdf : KEYDATAFLAGS) (cbPrefix : Nat) : Option CPage :=
  let (rgdata, fFlagsLine) := cdataNDIPrefixAndKeydataflagsToDataflags kdf (ushort cbPrefix)
  p.insertFrom_ env (iline + p.ctagReserved) rgdata fFlagsLine

/-- `NDGrowCbPrefix` of the current node: the node shrinks and is rewritten from its own bytes. -/
def ndGrowCbPrefix (env : PageEnv) (iline : Nat) (kdfCurr : KEYDATAFLAGS) (cbPrefixNew : Nat) :
    Option CPage :=
  let kdf := kdfCurr.ndiSetCompressed
  let (rgdata, fFlagsLine) := cdataNDIPrefixAndKeydataflagsToDataflags kdf (ushort cbPrefixNew)
  p.replaceFrom_ env (iline + p.ctagReserved) rgdata fFlagsLine

/-- `NDShrinkCbPrefix` of the current node: the node grows. The prefix is taken from the bytes of
the old page prefix, suffix and data from a copy. -/
def ndShrinkCbPrefix (env : PageEnv) (iline : Nat) (kdfCurr : KEYDATAFLAGS)
    (dataOldPrefix : List Byte) (cbPrefixNew : Nat) : Option CPage :=
  let kdf :=
    if cbPrefixNew > 0 then kdfCurr.ndiSetCompressed else kdfCurr.ndiResetCompressed
  let kdf := { kdf with
    prefixData := .off (dataOldPrefix.take kdfCurr.prefixData.cb)
    suffixData := .off (kdfCurr.suffixData.bytes p.data)
    data := .off (kdfCurr.data.bytes p.data) }
  let (rgdata, fFlagsLine) := cdataNDIPrefixAndKeydataflagsToDataflags kdf (ushort cbPrefixNew)
  p.replaceFrom_ env (iline + p.ctagReserved) rgdata fFlagsLine

end CPage

end Ese
