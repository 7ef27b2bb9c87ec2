import Mathlib.Logic.Function.Basic
import Ese.Lib.Memory

/-!
# The hash table of the version store

A bucket of the hash table is a list of chains, linked by the overflow links of their heads. A chain
has the RCEs of one node, linked both ways. Outside recovery an RCE is inserted before the head of
its chain, in recovery where its rceid belongs. The loops are bounded by the number of RCEs in the
table, which the code counts in `cVERcrceHashEntries`; a loop that takes more steps is undefined, as
is the use of a null pointer.
-/

namespace Ese.HashChain

/-- The id of an RCE, which wraps. -/
abbrev RCEID := BitVec 32

/-- The null link. -/
def prceNil : Nat := 0

/-- What a debug build writes into a link that is not in use. -/
def prceInvalid : Nat := 0xFEADFEADFEADFEAD

/-- The id of an RCE that is nullified. -/
def rceidNull : RCEID := 0

/-- What an insertion reports: whether the node had versions before. -/
inductive ERR where
  | JET_errSuccess
  | JET_errPreviousVersion
  deriving DecidableEq, Repr

/-- A bookmark: the key and the data of a node. -/
structure BOOKMARK where
  key : List Byte
  data : List Byte
  deriving DecidableEq, Repr

/-- An RCE as the hash table uses it, at its address. -/
structure RCE where
  m_ifmp : Nat
  m_pgnoFDP : Nat
  bookmark : BOOKMARK
  m_rceid : RCEID
  m_uiHash : Nat
  m_prceNextOfNode : Nat
  m_prcePrevOfNode : Nat
  m_prceHashOverflow : Nat
  deriving DecidableEq, Repr

/-- The memory of the RCEs and the heads of the hash buckets. -/
structure VER where
  rce : Nat → RCE
  chain : Nat → Nat
  cVERcrceHashEntries : Nat

/-- A pointer to an RCE pointer. -/
inductive PPRCE where
  | chain (uiHash : Nat)
  | hashOverflow (prce : Nat)
  deriving DecidableEq, Repr

/-- Wraparound-aware: the difference is taken as a signed number. -/
def rceidCmp (rceid1 rceid2 : RCEID) : Int :=
  if rceid1 = rceid2 then 0
  else if rceidNull = rceid1 then -1
  else if rceidNull = rceid2 then 1
  else (rceid1 - rceid2).toInt

/-- Whether the RCE is of the node with this bookmark. -/
def fRCECorrect (ifmp pgnoFDP : Nat) (bookmark : BOOKMARK) (prce : RCE) : Bool :=
  prce.m_ifmp = ifmp ∧ prce.m_pgnoFDP = pgnoFDP
    ∧ bookmark.key.length = prce.bookmark.key.length ∧
    bookmark.data.length = prce.bookmark.data.length
    ∧ bookmark = prce.bookmark

namespace VER

/-- The link to the head of the next chain of the bucket. -/
def prceHashOverflow (ver : VER) (prce : Nat) : Nat := (ver.rce prce).m_prceHashOverflow

/-- The link to the next older RCE of the node. -/
def prcePrevOfNode (ver : VER) (prce : Nat) : Nat := (ver.rce prce).m_prcePrevOfNode

/-- The link to the next newer RCE of the node. -/
def prceNextOfNode (ver : VER) (prce : Nat) : Nat := (ver.rce prce).m_prceNextOfNode

/-- What a cell of the hash table holds. -/
def deref (ver : VER) : PPRCE → Nat
  | .chain uiHash => ver.chain uiHash
  | .hashOverflow prce => ver.prceHashOverflow prce

/-- The RCE at `prce` becomes `r`. -/
def setRCE (ver : VER) (prce : Nat) (r : RCE) : VER :=
  { ver with rce := Function.update ver.rce prce r }

/-- The overflow link of `prce` becomes `p`. -/
def setPrceHashOverflow (ver : VER) (prce p : Nat) : VER :=
  ver.setRCE prce { ver.rce prce with m_prceHashOverflow := p }

/-- The link of `prce` to the next newer RCE becomes `p`. -/
def setPrceNextOfNode (ver : VER) (prce p : Nat) : VER :=
  ver.setRCE prce { ver.rce prce with m_prceNextOfNode := p }

/-- The link of `prce` to the next older RCE becomes `p`. -/
def setPrcePrevOfNode (ver : VER) (prce p : Nat) : VER :=
  ver.setRCE prce { ver.rce prce with m_prcePrevOfNode := p }

/-- The cell that `pprce` points at becomes `p`. -/
def assign (ver : VER) (pprce : PPRCE) (p : Nat) : VER :=
  match pprce with
  | .chain uiHash => { ver with chain := Function.update ver.chain uiHash p }
  | .hashOverflow prce => ver.setPrceHashOverflow prce p

/-- The loop of `PprceRCEChainGet`, at most `n` steps of it: the cell that points to the head of the
chain, or `none` for the null pointer. -/
def pprceRCEChainGet (ver : VER) (ifmp pgnoFDP : Nat) (bookmark : BOOKMARK) :
    Nat → PPRCE → Option (Option PPRCE)
  | 0, _ => none
  | n + 1, pprceChain =>
    let prceT := ver.deref pprceChain
    if prceT = prceNil then some none
    else if fRCECorrect ifmp pgnoFDP bookmark (ver.rce prceT) then some (some pprceChain)
    else pprceRCEChainGet ver ifmp pgnoFDP bookmark n (.hashOverflow prceT)

/-- The chain of the node of an RCE. -/
def pprceOf (ver : VER) (prce : Nat) : Option (Option PPRCE) :=
  let r := ver.rce prce
  ver.pprceRCEChainGet r.m_ifmp r.m_pgnoFDP r.bookmark (ver.cVERcrceHashEntries + 1)
    (.chain r.m_uiHash)

/-- The loop of the insertion in recovery, at most `n` steps of it: the RCEs between which the new
one belongs, or `none` when it has been created already. -/
def seekRceid (ver : VER) (rceid : RCEID) : Nat → Nat → Nat → Option (Option (Nat × Nat))
  | 0, _, _ => none
  | n + 1, prceNext, prcePrev =>
    if prcePrev ≠ prceNil ∧ rceidCmp (ver.rce prcePrev).m_rceid rceid ≥ 0 then
      if (ver.rce prcePrev).m_rceid = rceid then some none
      else seekRceid ver rceid n prcePrev (ver.prcePrevOfNode prcePrev)
    else some (some (prceNext, prcePrev))

/-- The links of an RCE that goes between `prceNext` and `prcePrev` in the chain `pprceChain`. -/
def linkRCE (fDebug : Bool) (ver : VER) (pprceChain : PPRCE) (prce prceNext prcePrev : Nat) : VER :=
  let ver :=
    if prceNext = prceNil then
      let ver := ver.setPrceHashOverflow prce (ver.prceHashOverflow (ver.deref pprceChain))
      let ver := ver.assign pprceChain prce
      if fDebug then ver.setPrceHashOverflow prcePrev prceInvalid else ver
    else
      (ver.setPrcePrevOfNode prceNext prce).setPrceNextOfNode prce prceNext
  let ver := if prcePrev ≠ prceNil then ver.setPrceNextOfNode prcePrev prce else ver
  ver.setPrcePrevOfNode prce prcePrev

/-- `ErrVERIInsertRCEIntoHash`. The RCE that has been created already is given back to its
bucket. -/
def errVERIInsertRCEIntoHash (fDebug fRecovering : Bool) (ver : VER) (prce : Nat) :
    Option (ERR × VER) := do
  match ← ver.pprceOf prce with
  | some pprceChain =>
    let prcePrev := ver.deref pprceChain
    let found ←
      if fRecovering then
        ver.seekRceid (ver.rce prce).m_rceid (ver.cVERcrceHashEntries + 1) prceNil prcePrev
      else some (some (prceNil, prcePrev))
    match found with
    | none => some (.JET_errPreviousVersion, ver)
    | some (prceNext, prcePrev) =>
      let ver := ver.linkRCE fDebug pprceChain prce prceNext prcePrev
      some (.JET_errSuccess, { ver with cVERcrceHashEntries := ver.cVERcrceHashEntries + 1 })
  | none =>
    let uiHash := (ver.rce prce).m_uiHash
    let ver := ver.setPrceHashOverflow prce (ver.chain uiHash)
    let ver := ver.assign (.chain uiHash) prce
    some (.JET_errSuccess, { ver with cVERcrceHashEntries := ver.cVERcrceHashEntries + 1 })

/-- `VERIDeleteRCEFromHash`. A dereference of a null link has no result. -/
def veriDeleteRCEFromHash (ver : VER) (prce : Nat) : Option VER := do
  let pprce ← ← ver.pprceOf prce
  let ver ←
    if prce = ver.deref pprce then
      let prcePrev := ver.prcePrevOfNode prce
      if prcePrev ≠ prceNil then
        let ver := ver.setPrceHashOverflow prcePrev (ver.prceHashOverflow prce)
        let ver := ver.assign pprce prcePrev
        some (ver.setPrceNextOfNode (ver.deref pprce) prceNil)
      else some (ver.assign pprce (ver.prceHashOverflow prce))
    else
      let prceNext := ver.prceNextOfNode prce
      if prceNext = prceNil then none
      else
        let ver := ver.setPrcePrevOfNode prceNext (ver.prcePrevOfNode prce)
        let prcePrev := ver.prcePrevOfNode prceNext
        some (if prcePrev ≠ prceNil then ver.setPrceNextOfNode prcePrev prceNext else ver)
  let ver := (ver.setPrceNextOfNode prce prceNil).setPrcePrevOfNode prce prceNil
  some { ver with cVERcrceHashEntries := ver.cVERcrceHashEntries - 1 }

end VER

/-! ## Operations -/

/-- What a new RCE is created with. Outside of a debug build its overflow link is what the memory
had. -/
structure NewRCE where
  ifmp : Nat
  pgnoFDP : Nat
  bookmark : BOOKMARK
  rceid : RCEID
  prceGarbage : Nat

variable (uiRCHashFunc : Nat → Nat → BOOKMARK → Nat) (fDebug : Bool)

/-- The constructor of an RCE. -/
def NewRCE.rce (r : NewRCE) : RCE where
  m_ifmp := r.ifmp
  m_pgnoFDP := r.pgnoFDP
  bookmark := r.bookmark
  m_rceid := r.rceid
  m_uiHash := uiRCHashFunc r.ifmp r.pgnoFDP r.bookmark
  m_prceNextOfNode := prceNil
  m_prcePrevOfNode := prceNil
  m_prceHashOverflow := if fDebug then prceInvalid else r.prceGarbage

/-- The operations on the hash table. -/
inductive Op where
  /-- An RCE is created at `prce` and inserted. -/
  | Insert (fRecovering : Bool) (prce : Nat) (r : NewRCE)
  | Delete (prce : Nat)

/-- One operation; the error code is the insertion's. -/
def step (op : Op) (ver : VER) : Option (ERR × VER) :=
  match op with
  | .Insert fRecovering prce r =>
    (ver.setRCE prce (r.rce uiRCHashFunc fDebug)).errVERIInsertRCEIntoHash fDebug fRecovering prce
  | .Delete prce => (ver.veriDeleteRCEFromHash prce).map fun ver => (.JET_errSuccess, ver)

end Ese.HashChain
