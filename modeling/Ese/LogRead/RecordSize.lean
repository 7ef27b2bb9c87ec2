import Ese.Lib.Memory
import Ese.LogBuffer.AddLogRec

/-!
# The size of a log record

`CbLGSizeOfRec` computes the size of a log record from its first bytes: types of a fixed size have
it in `mplrtyplrd`, for the others a switch adds fields of the record to the size of its structure.
`mplrtypn` has the size of the structure of every type. The fields that the switch reads are inside
the structure that `mplrtypn` gives.
-/

namespace Ese.LogRead

open Ese.LogBuffer (cbLRFRAGMENTBEGIN cbLRFRAGMENT)

/-! ## The structures

Their sizes; they are packed without padding. -/

namespace LrSize

/-- A position in the log: `le_ib`, `le_isec` and `le_lGeneration`. -/
def LE_LGPOS : Nat := 8

/-- A time, one byte for each of its parts. -/
def LOGTIME : Nat := 8

/-- `le_ulRandom`, `logtimeCreate` and `szComputerName`. -/
def SIGNATURE : Nat := 4 + LOGTIME + 16

/-- Two paths, `fDBMSPARAMFlags`, seven parameters and `rgbReserved`. -/
def DBMS_PARAM : Nat := 261 + 261 + 1 + 7 * 4 + 16

/-- `le_lgposMark`, `logtimeMark`, `le_genLow` and `le_genHigh`. -/
def BKINFO : Nat := LE_LGPOS + LOGTIME + 4 + 4

/-- `lrtyp`. -/
def LR : Nat := 1

/-- `LR` with `le_procid`. -/
def LRTRX_ : Nat := LR + 2

/-- `LR` with `le_procid`, `dbid`, `le_pgno`, `le_dbtime`, `le_dbtimeBefore`, `le_trxBegin0`,
`level`, `mle_iline` and `m_fLRPageFlags`. -/
def LRPAGE_ : Nat := LR + 2 + 1 + 4 + 8 + 8 + 4 + 1 + 2 + 1

/-- `LRPAGE_` with `le_rceid`, `le_pgnoFDP` and `le_objidFDP`. -/
def LRNODE_ : Nat := LRPAGE_ + 4 + 4 + 4

/-- `LRPAGE_` with `le_pgnoNew`, `le_pgnoRight`, `le_dbtimeRightBefore`, `le_pgnoParent`,
`le_dbtimeParentBefore`, `le_pgnoFDP`, `le_objidFDP`, `splittype`, `splitoper`, `le_ilineOper`,
`le_ilineSplit`, `le_clines`, `le_fNewPageFlags`, `le_fSplitPageFlags`, `le_cbUncFreeSrc`,
`le_cbUncFreeDest`, `le_ilinePrefixSplit`, `le_ilinePrefixNew`, `le_cbPrefixSplitOld`,
`le_cbPrefixSplitNew` and `le_cbKeyParent`. -/
def LRSPLIT_ : Nat := LRPAGE_ + 4 + 4 + 8 + 4 + 8 + 4 + 4 + 1 + 1 + 2 + 2 + 2 + 4 + 4 + 2 + 2 +
  4 + 4 + 2 + 2 + 2

/-- `LRPAGE_` with `le_pgnoRight`, `le_dbtimeRightBefore`, `le_pgnoLeft`, `le_dbtimeLeftBefore`,
`le_pgnoParent`, `le_dbtimeParentBefore`, `le_pgnoFDP`, `le_objidFDP`, `le_cbSizeTotal`,
`le_cbSizeMaxTotal`, `le_cbUncFreeDest`, `mle_ilineMerge`, `m_fLRMergeFlags`, `mergetype` and
`le_cbKeyParentSep`. -/
def LRMERGE_ : Nat := LRPAGE_ + 4 + 8 + 4 + 8 + 4 + 8 + 4 + 4 + 2 + 2 + 2 + 2 + 1 + 1 + 2

/-- `LR` alone. -/
def LRNOP : Nat := LR

/-- `LR` with `dbms_param`. -/
def LRINIT : Nat := LR + DBMS_PARAM

/-- `LRINIT` with `logtime`. -/
def LRINIT2 : Nat := LRINIT + LOGTIME

/-- `LR` with `lgpos`, `lgposRedoFrom` and `fHard`. -/
def LRTERMREC : Nat := LR + LE_LGPOS + LE_LGPOS + 1

/-- `LRTERMREC` with `logtime`. -/
def LRTERMREC2 : Nat := LRTERMREC + LOGTIME

/-- `LR` with `le_ibForwardLink`, `le_ulCheckSum` and `le_isecForwardLink`. -/
def LRMS : Nat := LR + 2 + 4 + 2

/-- A record of a type alone. -/
def LRTYP : Nat := 1

/-- `LRTRX_` with `levelBeginFrom` and `clevelsToBegin`, four bits each. -/
def LRBEGIN : Nat := LRTRX_ + 1

/-- `LRBEGIN` with `le_trxBegin0`. -/
def LRBEGIN0 : Nat := LRBEGIN + 4

/-- `LRBEGIN0` alone. -/
def LRBEGINDT : Nat := LRBEGIN0

/-- `LRTRX_` with `levelCommitTo`. -/
def LRCOMMIT : Nat := LRTRX_ + 1

/-- `LRCOMMIT` with `le_trxCommit0`. -/
def LRCOMMIT0 : Nat := LRCOMMIT + 4

/-- `LRTRX_` with `levelRollback`. -/
def LRROLLBACK : Nat := LRTRX_ + 1

/-- `LRTRX_` with `le_trxBegin0`. -/
def LRREFRESH : Nat := LRTRX_ + 4

/-- `LRTRX_` with `le_dbtime`. -/
def LRMACROBEGIN : Nat := LRTRX_ + 8

/-- `LRTRX_` with `le_dbtime`. -/
def LRMACROEND : Nat := LRTRX_ + 8

/-- `LRTRX_` with `le_cbData`. -/
def LRPREPCOMMIT : Nat := LRTRX_ + 4

/-- `LRTRX_` alone. -/
def LRPREPROLLBACK : Nat := LRTRX_

/-- `LRTRX_` alone. -/
def LRFORCEWRITELOG : Nat := LRTRX_

/-- `LR` with `le_procid`, `dbid`, `le_grbit`, `le_cpgDatabaseSizeMax`, `signDb`, `mle_cbPath` and
`m_fLRCreateDbFlags`; the version information is behind it. -/
def LRCREATEDB : Nat := LR + 2 + 1 + 4 + 4 + SIGNATURE + 2 + 1

/-- `LR` with `le_procid`, `dbid`, `le_cpgDatabaseSizeMax`, `lgposConsistent`, `signDb`, `signLog`,
`mle_cbPath` and `m_fLRAttachDbFlags`. -/
def LRATTACHDB : Nat := LR + 2 + 1 + 4 + LE_LGPOS + SIGNATURE + SIGNATURE + 2 + 1

/-- `LR` with `le_procid`, `dbid`, `mle_cbPath` and `m_fLRDetachDbFlags`. -/
def LRDETACHDB : Nat := LR + 2 + 1 + 2 + 1

/-- `LR` with `le_procid` and `dbid`. -/
def LRCREATEDBFINISH : Nat := LR + 2 + 1

/-- `LR` with `le_dbid`. -/
def LRSIGNALATTACHDB : Nat := LR + 1

/-- `LR` with `le_dbid`, `le_ulDbMajorVersion`, `le_ulDbUpdateMajor` and `le_ulDbUpdateMinor`. -/
def LRSETDBVERSION : Nat := LR + 1 + 4 + 4 + 4

/-- `LR` alone. -/
def LRRECOVERYUNDO : Nat := LR

/-- `LRRECOVERYUNDO` with `logtime`. -/
def LRRECOVERYUNDO2 : Nat := LRRECOVERYUNDO + LOGTIME

/-- `LR` alone. -/
def LRSHUTDOWNMARK : Nat := LR

/-- `LR` with `le_cbPath`. -/
def LRLOGRESTORE : Nat := LR + 2

/-- `LR` with `m_fBackupType`, `m_Reserved` and `le_cbPath`. -/
def LRLOGBACKUP_OBSOLETE : Nat := LR + 1 + 1 + 2

/-- `LR` with `eBackupPhase`, `eBackupType`, `eBackupScope`, `dbid`, `phaseDetails`, `m_Reserved`
and `le_cbPath`. -/
def LRLOGBACKUP : Nat := LR + 1 + 4 + 1 + 1 + BKINFO + 1 + 2

/-- `LR` with `mle_cbInfo`. -/
def LREXTRESTORE : Nat := LR + 2

/-- `LR` with `mle_cbInfo`. -/
def LREXTRESTORE2 : Nat := LR + 2

/-- `LR` with `le_procid` and `op`. -/
def LRJETOP : Nat := LR + 2 + 1

/-- `LR` with `le_procid` and `le_cb`. -/
def LRTRACE : Nat := LR + 2 + 2

/-- An `LRTRACE`. -/
def LRFORCELOGROLLOVER : Nat := LRTRACE

/-- `LR` with `le_cbBackwards`, `le_cbForwards`, `le_cbNext`, `le_ulChecksum`, `le_ulShortChecksum`
and `bUseShortChecksum`. -/
def LRCHECKSUM : Nat := LR + 5 * 4 + 1

/-- `LRPAGE_` with `le_objidFDP`, `le_pgnoOE`, `le_pgnoAE`, `le_pgnoFDPParent`, `le_cpgPrimary` and
`le_fPageFlags`. -/
def LRCREATEMEFDP : Nat := LRPAGE_ + 6 * 4

/-- `LRPAGE_` with `le_objidFDP`, `le_pgnoFDPParent`, `le_cpgPrimary` and `le_fPageFlags`. -/
def LRCREATESEFDP : Nat := LRPAGE_ + 4 * 4

/-- `LRPAGE_` with `le_objidFDP`, `le_pgnoOE`, `le_pgnoAE`, `le_pgnoFDPParent`,
`le_pgnoSecondaryFirst`, `le_cpgPrimary` and `le_cpgSecondary`. -/
def LRCONVERTFDP_OBSOLETE : Nat := LRPAGE_ + 7 * 4

/-- `LRCONVERTFDP_OBSOLETE` with `le_rgbitAvail` and `le_fCpageFlags`. -/
def LRCONVERTFDP : Nat := LRCONVERTFDP_OBSOLETE + 4 + 4

/-- `LRSPLIT_` alone. -/
def LRSPLITOLD : Nat := LRSPLIT_

/-- `LRSPLIT_` with `le_flags` and `le_cbPageBeforeImage`. -/
def LRSPLITNEW : Nat := LRSPLIT_ + 4 + 4

/-- `LRMERGE_` alone. -/
def LRMERGEOLD : Nat := LRMERGE_

/-- `LRMERGE_` with `le_flags` and `le_cbPageBeforeImage`. -/
def LRMERGENEW : Nat := LRMERGE_ + 4 + 4

/-- `LRNODE_` with `mle_cbSuffix`, `mle_cbPrefix` and `mle_cbData`. -/
def LRINSERT : Nat := LRNODE_ + 2 + 2 + 2

/-- `LRNODE_` with `mle_cbKey` and `mle_cbData`. -/
def LRFLAGINSERT : Nat := LRNODE_ + 2 + 2

/-- `LRNODE_` with `mle_cbKey`, `mle_cbData` and `le_rceidReplace`. -/
def LRFLAGINSERTANDREPLACEDATA : Nat := LRNODE_ + 2 + 2 + 4

/-- `LRNODE_` alone. -/
def LRFLAGDELETE : Nat := LRNODE_

/-- `LRNODE_` with `mle_cb`, `mle_cbOldData` and `mle_cbNewData`. -/
def LRREPLACE : Nat := LRNODE_ + 2 + 2 + 2

/-- `LRNODE_` alone. -/
def LRDELETE : Nat := LRNODE_

/-- `LRNODE_` with `mle_cbBookmarkKey`, `mle_cbBookmarkData`, `le_oper`, `le_cbMaxSize`,
`le_cbDelta` and `le_cbData`. -/
def LRUNDOINFO : Nat := LRNODE_ + 2 + 2 + 2 + 2 + 2 + 2

/-- `LRNODE_` with `mle_cbBookmarkKey`, `mle_cbBookmarkData`, `mle_delta` and `mle_cbOffset`. -/
def LRDELTA32 : Nat := LRNODE_ + 2 + 2 + 4 + 2

/-- The same with a delta of eight bytes. -/
def LRDELTA64 : Nat := LRNODE_ + 2 + 2 + 8 + 2

/-- `LRNODE_` with `mle_cbData`. -/
def LRSETEXTERNALHEADER : Nat := LRNODE_ + 2

/-- `LRNODE_` with `mle_cbBookmarkKey`, `mle_cbBookmarkData`, `le_oper` and `level`. -/
def LRUNDO : Nat := LRNODE_ + 2 + 2 + 2 + 1

/-- `LRNODE_` with `le_cbEmptyPageList`. -/
def LREMPTYTREE : Nat := LRNODE_ + 2

/-- `LRNODE_` with `mle_fLRScrubFlags`, `mle_cscrubOper` and `mle_cbData`. -/
def LRSCRUB : Nat := LRNODE_ + 4 + 4 + 2

/-- `LRPAGE_` with `m_pgnoDest`, `m_pgnoLeft`, `m_pgnoRight`, `m_pgnoParent`, `m_dbtimeLeftBefore`,
`m_dbtimeRightBefore`, `m_dbtimeParentBefore`, `m_pgnoFDP`, `m_objidFDP`, `m_ilineParent`,
`m_fMoveFlags`, `m_cbPageHeader` and `m_cbPageTrailer`. -/
def LRPAGEMOVE : Nat := LRPAGE_ + 4 * 4 + 3 * 8 + 4 + 4 + 4 + 4 + 4 + 4

/-- `LR` with `le_dbtimeAfter`, `le_dbid`, `le_objid` and `le_procid`. -/
def LRROOTPAGEMOVE : Nat := LR + 8 + 1 + 4 + 2

/-- `LR` with `m_dbid`, `m_pgno`, `m_dbtime` and `m_rgbReserved`. -/
def LRPAGEPATCHREQUEST : Nat := LR + 1 + 4 + 8 + 32

/-- `LR` with `m_cb`. -/
def LRIGNORED : Nat := LR + 4

/-- `LR` with `le_procid`, `le_dbid`, `le_pgno`, `le_objid` and `le_dbtimeAfter`. -/
def LRNEWPAGE : Nat := LR + 2 + 1 + 4 + 4 + 8

/-- `LR` with `le_dbid`, `le_pgnoLast` and `le_cpgShrunk`. -/
def LRSHRINKDB : Nat := LR + 1 + 4 + 4

/-- `LRSHRINKDB` with `le_dbtime`. -/
def LRSHRINKDB3 : Nat := LRSHRINKDB + 8

/-- `LR` with `le_dbid`, `le_pgnoStartZeroes` and `le_cpgZeroLength`. -/
def LRTRIMDB : Nat := LR + 1 + 4 + 4

/-- `LR` with `le_dbid`, `le_pgno`, `le_bFlagsAndScs`, `le_dbtimePage`, `le_dbtimeCurrent` and
`le_ulChksum`. -/
def LRSCANCHECK2 : Nat := LR + 1 + 4 + 1 + 8 + 8 + 4

/-- `LR` with `le_dbid`, `le_pgnoFirst`, `le_cpgExtent` and `m_fFlags`. -/
def LREXTENTFREED : Nat := LR + 1 + 4 + 4 + 1

/-- `LREXTENTFREED` with `le_dbtime`. -/
def LREXTENTFREED2 : Nat := LREXTENTFREED + 8

end LrSize

open LrSize

/-! ## The two tables -/

/-- The number of types. -/
def lrtypMax : Nat := 102

/-- The sizes of the types of a fixed size, and zero for the others. -/
def mplrtyplrd : List Nat :=
  [LRTYP, LRINIT, LRTERMREC, LRMS, LRTYP,
    LRBEGIN, LRCOMMIT, LRROLLBACK, LRBEGIN0, LRCOMMIT0, LRREFRESH, LRMACROBEGIN, LRMACROEND,
    LRMACROEND,
    -- 14: creating, attaching and detaching a database
    0, 0, 0,
    LRRECOVERYUNDO, LRTERMREC, 0, 0, LRJETOP, 0, LRSHUTDOWNMARK,
    LRCREATEMEFDP, LRCREATESEFDP, LRCONVERTFDP_OBSOLETE,
    -- 27: splits, merges and the operations on a node
    0, 0, 0, 0, 0, LRFLAGDELETE, 0, 0, LRDELETE, 0, 0, 0, 0,
    -- 40
    0, 0, LRCHECKSUM, 0, 0, 0, 0, 0, 0,
    LRINIT2, LRTERMREC2, LRRECOVERYUNDO2, LRTERMREC2, LRBEGINDT, 0, 0, 0, LRFORCEWRITELOG,
      LRCONVERTFDP,
    -- 59
    0, 0, 0, 0, 0, 0, 0, LRPAGEPATCHREQUEST,
    -- 67: types that older versions ignore, and the fragments
    0, 0, 0, 0, 0, 0, 0, 0, 0, 0, 0,
    LRSHRINKDB, LRCREATEDBFINISH, LRTERMREC2, LRTRIMDB,
    -- 82
    0, 0, 0, 0, 0, 0, 0, 0, 0, 0,
    LRSETDBVERSION, 0, LRSHRINKDB, LRNEWPAGE, LRROOTPAGEMOVE, LRSIGNALATTACHDB, LRSCANCHECK2,
      LRSHRINKDB3,
    LREXTENTFREED, LREXTENTFREED2]

/-- The size of the structure of every type; there is none for the types that are gone. -/
def mplrtypn : List Nat :=
  [LRNOP, LRINIT, LRTERMREC, LRMS, LRTYP,
    LRBEGIN, LRCOMMIT, LRROLLBACK, LRBEGIN0, LRCOMMIT0, LRREFRESH, LRMACROBEGIN, LRMACROEND,
    LRMACROEND,
    LRCREATEDB, LRATTACHDB, LRDETACHDB,
    LRRECOVERYUNDO, LRTERMREC, LRLOGRESTORE, LRLOGRESTORE, LRJETOP, LRTRACE, LRSHUTDOWNMARK,
    LRCREATEMEFDP, LRCREATESEFDP, LRCONVERTFDP_OBSOLETE,
    LRSPLITOLD, LRMERGEOLD, LRINSERT, LRFLAGINSERT, LRFLAGINSERTANDREPLACEDATA, LRFLAGDELETE,
      LRREPLACE, LRREPLACE,
    LRDELETE, LRUNDOINFO, LRDELTA32, LRSETEXTERNALHEADER, LRUNDO,
    0, 0, LRCHECKSUM, 0, 0, LREXTRESTORE, LRLOGBACKUP_OBSOLETE, 0, LREMPTYTREE,
    LRINIT2, LRTERMREC2, LRRECOVERYUNDO2, LRTERMREC2, LRBEGINDT, LRPREPCOMMIT, LRPREPROLLBACK, 0,
      LRFORCEWRITELOG,
    LRCONVERTFDP,
    LREXTRESTORE2, LRLOGBACKUP, LRFORCELOGROLLOVER, LRSPLITNEW, LRMERGENEW, LRSCRUB, LRPAGEMOVE,
      LRPAGEPATCHREQUEST,
    LRIGNORED, LRIGNORED, LRIGNORED, LRIGNORED, LRIGNORED, LRIGNORED, LRIGNORED, LRIGNORED,
      LRIGNORED,
    cbLRFRAGMENTBEGIN, cbLRFRAGMENT,
    LRSHRINKDB, LRCREATEDBFINISH, LRTERMREC2, LRTRIMDB,
    LRIGNORED, LRIGNORED, LRIGNORED, LRIGNORED, LRIGNORED, LRIGNORED, LRIGNORED, LRIGNORED,
      LRIGNORED, LRIGNORED,
    LRSETDBVERSION, LRDELTA64, LRSHRINKDB, LRNEWPAGE, LRROOTPAGEMOVE, LRSIGNALATTACHDB,
      LRSCANCHECK2, LRSHRINKDB3,
    LREXTENTFREED, LREXTENTFREED2]

example : mplrtyplrd.length = lrtypMax ∧ mplrtypn.length = lrtypMax := by decide

/-! ## The switch -/

/-- A field that counts in the size of a record: where it is, and the bytes it stands for. -/
structure SizeField where
  ib : Nat
  cb : Nat
  cbOf : Nat → Nat

/-- A 16-bit count of bytes. -/
def us (ib : Nat) : SizeField := ⟨ib, 2, id⟩

/-- A 32-bit count of bytes. -/
def ul (ib : Nat) : SizeField := ⟨ib, 4, id⟩

/-- The version information that `LRCREATEDB` may have behind it. -/
def fVersionInfo (ib : Nat) : SizeField := ⟨ib, 1, fun flags => if flags.testBit 2 then 4 else 0⟩

/-- A count whose high bit is a flag. -/
def cbMask (ib : Nat) : SizeField := ⟨ib, 2, fun cb => cb % 0x8000⟩

/-- The structure and the fields that the switch adds up, for the types it has a case for. -/
def sizeFields : Nat → Option (Nat × List SizeField)
  -- lrtypCreateDB, lrtypAttachDB, lrtypDetachDB
  | 14 => some (LRCREATEDB, [us 40, fVersionInfo 42])
  | 15 => some (LRATTACHDB, [us 72])
  | 16 => some (LRDETACHDB, [us 4])
  -- lrtypFullBackup, lrtypIncBackup
  | 19 => some (LRLOGRESTORE, [us 1])
  | 20 => some (LRLOGRESTORE, [us 1])
  -- lrtypTrace
  | 22 => some (LRTRACE, [us 3])
  -- lrtypSplit, lrtypMerge
  | 27 => some (LRSPLITOLD, [us 100, us 96, us 98])
  | 28 => some (LRMERGEOLD, [us 86])
  -- lrtypInsert, lrtypFlagInsert, lrtypFlagInsertAndReplaceData, lrtypReplace, lrtypReplaceD
  | 29 => some (LRINSERT, [us 44, us 46, us 48])
  | 30 => some (LRFLAGINSERT, [us 44, us 46])
  | 31 => some (LRFLAGINSERTANDREPLACEDATA, [us 44, us 46])
  | 33 => some (LRREPLACE, [cbMask 44])
  | 34 => some (LRREPLACE, [cbMask 44])
  -- lrtypUndoInfo, lrtypDelta, lrtypSetExternalHeader, lrtypUndo
  | 36 => some (LRUNDOINFO, [us 54, us 44, us 46])
  | 37 => some (LRDELTA32, [us 44, us 46])
  | 38 => some (LRSETEXTERNALHEADER, [us 44])
  | 39 => some (LRUNDO, [us 44, us 46])
  -- lrtypExtRestore, lrtypBackup, lrtypEmptyTree, lrtypPrepCommit, lrtypExtRestore2, lrtypBackup2
  | 45 => some (LREXTRESTORE, [us 1])
  | 46 => some (LRLOGBACKUP_OBSOLETE, [us 3])
  | 48 => some (LREMPTYTREE, [us 44])
  | 54 => some (LRPREPCOMMIT, [ul 3])
  | 59 => some (LREXTRESTORE2, [us 1])
  | 60 => some (LRLOGBACKUP, [us 33])
  -- lrtypForceLogRollover, lrtypSplit2, lrtypMerge2, lrtypScrub, lrtypPageMove
  | 61 => some (LRTRACE, [us 3])
  | 62 => some (LRSPLITNEW, [us 100, us 96, us 98, ul 106])
  | 63 => some (LRMERGENEW, [us 86, ul 92])
  | 64 => some (LRSCRUB, [us 52])
  | 65 => some (LRPAGEMOVE, [ul 88, ul 92])
  -- lrtypFragmentBegin, lrtypFragment, lrtypDelta64
  | 76 => some (cbLRFRAGMENTBEGIN, [us 5])
  | 77 => some (cbLRFRAGMENT, [us 1])
  | 93 => some (LRDELTA64, [us 44, us 46])
  -- lrtypMacroInfo to lrtypIgnored9, lrtypIgnored10 to lrtypIgnored19
  | lrtyp => if 67 ≤ lrtyp ∧ lrtyp ≤ 75 ∨ 82 ≤ lrtyp ∧ lrtyp ≤ 91 then some (LRIGNORED, [ul 1])
    else none

/-- The bytes a field of the record at `pb` stands for. -/
def SizeField.value (rgb : Mem) (pb : Nat) (field : SizeField) : Nat :=
  field.cbOf (leNat (rgb.read (pb + field.ib) field.cb))

/-- `CbLGFixedSizeOfRec` of the record at `pb`. -/
def cbLGFixedSizeOfRec (rgb : Mem) (pb : Nat) : Nat := mplrtypn.getD (rgb pb).toNat 0

/-- `CbLGSizeOfRec` of the record at `pb`, a 32-bit number. -/
def cbLGSizeOfRec (rgb : Mem) (pb : Nat) : Nat :=
  if (rgb pb).toNat ≥ lrtypMax then 0
  else if mplrtyplrd.getD (rgb pb).toNat 0 ≠ 0 then mplrtyplrd.getD (rgb pb).toNat 0
  else
    match sizeFields (rgb pb).toNat with
    | some (cb, rgfield) => (cb + (rgfield.map (SizeField.value rgb pb)).sum) % 2 ^ 32
    | none => 0

/-- The bytes that `CbLGSizeOfRec` reads, as offsets in the record and counts. -/
def sizeReads (lrtyp : Nat) : List (Nat × Nat) :=
  (0, 1) ::
    if mplrtyplrd.getD lrtyp 0 ≠ 0 then []
    else ((sizeFields lrtyp).map fun rule => rule.2.map fun field => (field.ib, field.cb)).getD []

/-- Where both tables have a size it is the same one. -/
theorem mplrtyplrd_eq {lrtyp : Nat} (h : lrtyp < lrtypMax) (hne : mplrtyplrd.getD lrtyp 0 ≠ 0) :
    mplrtyplrd.getD lrtyp 0 = mplrtypn.getD lrtyp 0 := by
  have hall : ∀ lrtyp < 102, mplrtyplrd.getD lrtyp 0 ≠ 0 →
    mplrtyplrd.getD lrtyp 0 = mplrtypn.getD lrtyp 0 := by
    decide +kernel
  exact hall lrtyp h hne

/-- The switch adds its fields to the size that `mplrtypn` has. -/
theorem sizeFields_eq {lrtyp cb : Nat} {rgfield : List SizeField} (h : lrtyp < lrtypMax)
    (hfields : sizeFields lrtyp = some (cb, rgfield)) : cb = mplrtypn.getD lrtyp 0 := by
  have hall : ∀ lrtyp < 102, ∀ cb ∈ (sizeFields lrtyp).map Prod.fst, cb =
    mplrtypn.getD lrtyp 0 := by decide +kernel
  exact hall lrtyp h cb (by rw [hfields]; rfl)

/-- The bytes that `CbLGSizeOfRec` reads are inside the structure of the type, or only the type is
read. -/
theorem sizeReads_inside {lrtyp ib cb : Nat} (h : lrtyp < lrtypMax)
    (hread : (ib, cb) ∈ sizeReads lrtyp) :
    (ib, cb) = (0, 1) ∨ ib + cb ≤ mplrtypn.getD lrtyp 0 := by
  have hall : ∀ lrtyp < 102, ∀ read ∈ sizeReads lrtyp, read = (0, 1) ∨
    read.1 + read.2 ≤ mplrtypn.getD lrtyp 0 := by
    decide +kernel
  exact hall lrtyp h _ hread

end Ese.LogRead
