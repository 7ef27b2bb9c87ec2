import Mathlib.Algebra.BigOperators.Fin
import Mathlib.Data.Fintype.BigOperators
import Ese.Lib.Memory

/-!
# Deferred release of node space

A replace that shrinks a node sets the space it frees aside until the transaction commits, so that
its rollback finds room. The version of the replace records the largest size the node has had in
the transaction and, as a signed 16-bit delta, what the replace adds to or takes from the node's
reservation; the page counts the space that is free but set aside. The model has the nodes of one
page with their uncommitted replaces, newest first. It is the normal operation, outside recovery.
-/

namespace Ese

abbrev SHORT := BitVec 16
abbrev USHORT := BitVec 16

namespace NodeReserve

structure VERREPLACE where
  cbMaxSize : SHORT
  cbDelta : SHORT
  rgbBeforeImage : List Byte

/-- The version of an uncommitted replace. -/
structure RCE (PIB : Type) where
  ppib : PIB
  fEmptyDiff : Bool
  verreplace : VERREPLACE

/-- A node's data and the versions of its uncommitted replaces, newest first. -/
structure Node (PIB : Type) where
  data : List Byte
  rces : List (RCE PIB)

/-- What the code reads of a page: its free space, how much of it is set aside, and its nodes. -/
structure Page (ι PIB : Type) where
  cbFree : Nat
  cbUncommittedFree : USHORT
  node : ι → Node PIB

variable {ι PIB : Type} [Fintype ι] [DecidableEq ι] [DecidableEq PIB]

/-! ## The version store -/

/-- `CbVERGetNodeReserve`; `none` is `ppibNil`, which takes the versions of every session. -/
def cbVERGetNodeReserve (ppib : Option PIB) (n : Node PIB) : Int :=
  ((n.rces.filter fun prce => ppib = none ∨ some prce.ppib = ppib).map
    fun prce => prce.verreplace.cbDelta.toInt).sum

/-- `VERISetupInsertedDMLRCE` of a replace: the maximum is propagated from the previous one. -/
def setupInsertedDMLRCE (ppib : PIB) (n : Node PIB) : RCE PIB where
  ppib := ppib
  fEmptyDiff := false
  verreplace :=
    { cbMaxSize :=
        match n.rces with
        | prcePrevReplace :: _ => prcePrevReplace.verreplace.cbMaxSize
        | [] => BitVec.ofNat 16 n.data.length
      cbDelta := 0
      rgbBeforeImage := n.data }

/-- The part of `VERSetCbAdjust` on the version, with the change of the reservation. -/
def setCbAdjust (prce : RCE PIB) (cbDataNew cbDataOld : Nat) : RCE PIB × Int :=
  let cbDelta : Int := cbDataNew - cbDataOld
  let cbMax := prce.verreplace.cbMaxSize.toInt
  let (cbMaxSize, cbDelta) :=
    if (cbDataNew : Int) > cbMax then (BitVec.ofNat 16 cbDataNew, cbMax - cbDataOld)
    else (prce.verreplace.cbMaxSize, cbDelta)
  ({ prce with verreplace := { prce.verreplace with
      cbMaxSize := cbMaxSize
      cbDelta := BitVec.ofInt 16 (prce.verreplace.cbDelta.toInt - cbDelta) } }, cbDelta)

/-! ## The page -/

def Page.addUncommittedFreed (pg : Page ι PIB) (cbToAdd : Int) : Page ι PIB :=
  { pg with cbUncommittedFree := BitVec.ofInt 16 (pg.cbUncommittedFree.toNat + cbToAdd) }

def Page.reclaimUncommittedFreed (pg : Page ι PIB) (cbToReclaim : Int) : Page ι PIB :=
  { pg with cbUncommittedFree := BitVec.ofInt 16 (pg.cbUncommittedFree.toNat - cbToReclaim) }

def Page.setRCEs (pg : Page ι PIB) (i : ι) (rces : List (RCE PIB)) : Page ι PIB :=
  { pg with node := Function.update pg.node i { pg.node i with rces := rces } }

/-- `CPAGE::Replace` of a node's data. -/
def Page.replace (pg : Page ι PIB) (i : ι) (data : List Byte) : Page ι PIB :=
  { pg with
    cbFree := pg.cbFree + (pg.node i).data.length - data.length
    node := Function.update pg.node i { pg.node i with data := data } }

/-- `VERSetCbAdjust` for the newest version of node `i`. -/
def verSetCbAdjust (pg : Page ι PIB) (i : ι) (cbDataNew cbDataOld : Nat) (fDoUpdatePage : Bool) :
    Page ι PIB :=
  match (pg.node i).rces with
  | [] => pg
  | prce :: rces =>
    let (prce, cbDelta) := setCbAdjust prce cbDataNew cbDataOld
    let pg := pg.setRCEs i (prce :: rces)
    if fDoUpdatePage then
      if cbDelta > 0 then pg.reclaimUncommittedFreed cbDelta
      else if cbDelta < 0 then pg.addUncommittedFreed (-cbDelta)
      else pg
    else pg

/-- `CbNDUncommittedFree`: what the nodes of the page reserve. -/
def cbNDUncommittedFree (fPageRecentlyDirtied : Bool) (pg : Page ι PIB) : Int :=
  if fPageRecentlyDirtied then ∑ i, cbVERGetNodeReserve none (pg.node i) else 0

/-- The page is write-latched, so the update of the count is permitted and succeeds. -/
def fverCheckUncommittedFreedSpace (fPageRecentlyDirtied : Bool) (pg : Page ι PIB) (cbReq : Nat) :
    Bool × Page ι PIB :=
  if (cbReq : Int) > pg.cbFree - pg.cbUncommittedFree.toNat then
    let cbUncommittedFree := cbNDUncommittedFree fPageRecentlyDirtied pg
    if cbUncommittedFree = pg.cbUncommittedFree.toNat then (false, pg)
    else
      ((cbReq : Int) ≤ pg.cbFree - cbUncommittedFree,
        { pg with cbUncommittedFree := BitVec.ofInt 16 cbUncommittedFree })
  else (true, pg)

def fndFreePageSpace (fPageRecentlyDirtied : Bool) (pg : Page ι PIB) (cbReq : Nat) :
    Bool × Page ι PIB :=
  if pg.cbFree < cbReq then (false, pg) else fverCheckUncommittedFreedSpace fPageRecentlyDirtied pg
    cbReq

/-- The space check of `ErrNDReplace`: growth may also use the node's own reservation. -/
def checkReplace (fPageRecentlyDirtied : Bool) (ppib : PIB) (pg : Page ι PIB) (i : ι)
    (data : List Byte) : Bool × Page ι PIB :=
  let cbReq : Int := data.length - (pg.node i).data.length
  if cbReq > 0 then
    match fndFreePageSpace fPageRecentlyDirtied pg cbReq.toNat with
    | (true, pg) => (true, pg)
    | (false, pg) =>
      let cbReserved := cbVERGetNodeReserve (some ppib) (pg.node i)
      -- the comparison is of `ULONG`s
      (¬ cbReq > (cbReserved + pg.cbFree - pg.cbUncommittedFree.toNat) % 2 ^ 32, pg)
  else (true, pg)

/-- The newest version of the node has an empty diff. -/
def Page.flagEmptyDiff (pg : Page ι PIB) (i : ι) : Page ι PIB :=
  match (pg.node i).rces with
  | [] => pg
  | prce :: rces => pg.setRCEs i ({ prce with fEmptyDiff := true } :: rces)

/-- `ErrNDReplace`; `false` is `errPMOutOfPageSpace`. `fLogDiff` says that the operation is logged
as a difference, which is empty when the data does not change, and `fReplace` that the operation has
a version, the newest of the node. -/
def errNDReplace (fPageRecentlyDirtied fLogDiff : Bool) (ppib : PIB) (pg : Page ι PIB) (i : ι)
    (data : List Byte) (fReplace : Bool) : Bool × Page ι PIB :=
  let cbDataOld := (pg.node i).data.length
  let cbReq : Int := data.length - cbDataOld
  match checkReplace fPageRecentlyDirtied ppib pg i data with
  | (false, pg) => (false, pg)
  | (true, pg) =>
    if fLogDiff ∧ data = (pg.node i).data then (true, pg.flagEmptyDiff i)
    else
      let pg := if fReplace ∧ cbReq > 0 then verSetCbAdjust pg i data.length cbDataOld true else pg
      let pg := pg.replace i data
      (true, if fReplace ∧ cbReq < 0 then verSetCbAdjust pg i data.length cbDataOld true else pg)

inductive ERR where
  | JET_errSuccess
  | JET_errWriteConflict
  | errPMOutOfPageSpace
  deriving DecidableEq, Repr

/-- `ErrBTReplace` on the node's page. A version that another session has not committed is a
conflict. -/
def errBTReplace (fPageRecentlyDirtied fLogDiff : Bool) (ppib : PIB) (pg : Page ι PIB) (i : ι)
    (data : List Byte) : ERR × Page ι PIB :=
  let rces := (pg.node i).rces
  if rces.any fun prce => prce.ppib ≠ ppib then (.JET_errWriteConflict, pg)
  else
    let prce := setupInsertedDMLRCE ppib (pg.node i)
    match errNDReplace fPageRecentlyDirtied fLogDiff ppib (pg.setRCEs i (prce :: rces)) i data
      true with
    | (true, pg) => (.JET_errSuccess, pg)
    -- the version is nullified
    | (false, pg) => (.errPMOutOfPageSpace, pg.setRCEs i rces)

/-- `ErrVERIUndoReplacePhysical` of the newest replace of node `i`, and the nullification of its
version. `false` is the failed `CallS` of the replace. -/
def undoReplace (fPageRecentlyDirtied : Bool) (pg : Page ι PIB) (i : ι) : Bool × Page ι PIB :=
  match (pg.node i).rces with
  | [] => (true, pg)
  | prce :: rces =>
    if prce.fEmptyDiff then (true, pg.setRCEs i rces)
    else
      let cbDelta := prce.verreplace.cbDelta.toInt
      let pg := if cbDelta > 0 then pg.reclaimUncommittedFreed cbDelta else pg
      match errNDReplace fPageRecentlyDirtied false prce.ppib pg i prce.verreplace.rgbBeforeImage
        false with
      | (false, pg) => (false, pg)
      | (true, pg) =>
        let pg := if cbDelta < 0 then pg.addUncommittedFreed (-cbDelta) else pg
        (true, pg.setRCEs i rces)

/-- The insertion of another node into the page, after the check for its space. -/
def errNDInsert (fPageRecentlyDirtied : Bool) (pg : Page ι PIB) (cbReq : Nat) : ERR × Page ι PIB :=
  match fndFreePageSpace fPageRecentlyDirtied pg cbReq with
  | (false, pg) => (.errPMOutOfPageSpace, pg)
  | (true, pg) => (.JET_errSuccess, { pg with cbFree := pg.cbFree - cbReq })

/-- The commit of a session: its versions are no longer uncommitted. -/
def commit (ppib : PIB) (pg : Page ι PIB) : Page ι PIB :=
  { pg with node := fun i => { pg.node i with
      rces := (pg.node i).rces.filter fun prce => prce.ppib ≠ ppib } }

end NodeReserve

end Ese
