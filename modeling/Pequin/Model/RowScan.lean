import Pequin.Model.Types

/-!
# Version chains and scans

A row of a table is a chain of versions, the newest first. Index scans and sequential scans walk down
the chain of every row (`CheckRow`), and decide at each version whether to read it and whether to go on
(`FindRightRowVersion`). One transaction context serves reads of queries, the search for a snapshot, reads
on a snapshot, point reads, and the scans of deletions. Tables of metadata are left out.
-/

namespace Pequin

/-- A version of a row: a tuple and its header. -/
structure RowVersion where
  timestamp : Timestamp
  txnDig : Digest
  /-- Committed, as opposed to prepared. -/
  commitOrPrepare : Bool
  /-- Written only to materialize a snapshot. -/
  materialize : Bool := false
  purged : Bool := false
  isDeleted : Bool := false
  values : List Bytes := []
  deriving DecidableEq, Repr

/-- The chains of a table, by row key. A row without a chain is not in the index. -/
abbrev Table := Bytes → List RowVersion

theorem noSnapshot_reads : (none : Option (List Digest)).isSome = true → false = true := id

theorem noManager_reads : false = true → (none : Option (List Digest)) = none := fun _ => rfl

theorem noDeletion_writes : false = true → true = false := Eq.symm

/-- The `TransactionContext` of a scan. -/
structure ScanTxn where
  timestamp : Timestamp
  hasReadSetMgr : Bool := false
  hasSnapshotMgr : Bool := false
  isPointRead : Bool := false
  isNLJoin : Bool := false
  /-- The transactions of the snapshot, if the scan reads on one. -/
  snapshotSet : Option (List Digest) := none
  readPreparedPred : Option (Digest → Bool) := none
  kPreparedVersions : Nat := 1
  isDeletion : Bool := false
  /-- Whether the transaction that writes is committed. -/
  commitOrPrepare : Bool := false
  /-- The assertions of `FindRightRowVersion`. -/
  snapshot_reads : snapshotSet.isSome → hasReadSetMgr := by first | exact fun _ => rfl | exact noSnapshot_reads
  finds_or_points : hasSnapshotMgr → isPointRead = false := by first | exact fun _ => rfl | exact Eq.symm
  finds_or_reads : hasSnapshotMgr → snapshotSet = none := by exact noManager_reads
  /-- Writes collect no read set. -/
  deletion_writes : isDeletion → hasReadSetMgr = false := by first | exact fun _ => rfl | exact noDeletion_writes

namespace ScanTxn

variable (t : ScanTxn)

def performRead : Bool := t.hasReadSetMgr || t.hasSnapshotMgr && !t.isNLJoin

def snapshotRead : Bool := t.snapshotSet.isSome

def writeMode : Bool := !t.performRead && !t.hasSnapshotMgr && !t.snapshotRead

/-- No result is needed. -/
def snapshotOnlyMode : Bool := !t.hasReadSetMgr && t.hasSnapshotMgr && !t.isNLJoin

/-- The prepared write of a transaction may be read. -/
def canRead (dig : Digest) : Bool := t.readPreparedPred.any fun p => p dig

def inSnapshot (dig : Digest) : Bool := t.snapshotSet.any fun s => decide (dig ∈ s)

end ScanTxn

/-- What the walk down one chain keeps. -/
structure Walk where
  numIters : Nat := 0
  foundCommitted : Bool := false
  foundPrepared : Bool := false
  numReads : Nat := 0
  /-- The versions that were given to `EvalRead`. -/
  evaluated : List RowVersion := []
  /-- What was added to the local snapshot, with `commit_or_prepare`. -/
  snapshot : List (Digest × Bool) := []
  /-- `lowest_snapshot_frontier`. -/
  frontier : Option Timestamp := none
  deriving DecidableEq, Repr

/-- The outcome of `FindRightRowVersion`. -/
structure Visit where
  walk : Walk
  done : Bool := false
  readCurrVersion : Bool := false
  /-- A prepared deletion became a committed one. -/
  upgraded : Bool := false
  deriving DecidableEq, Repr

variable (t : ScanTxn)

/-- A version is read if it is the first one, or the second of a point read. -/
def Walk.evalRead (maxNumReads : Nat) (v : RowVersion) (x : Visit) : Walk :=
  if x.readCurrVersion then
    { x.walk with
      numReads := x.walk.numReads + 1
      evaluated := if x.walk.numReads + 1 ≤ maxNumReads && !t.snapshotOnlyMode then x.walk.evaluated ++ [v]
        else x.walk.evaluated }
  else x.walk

variable (v : RowVersion)

/-- A read on a snapshot notes the lowest version that it skips. -/
def Walk.skip (done : Bool) (w : Walk) : Walk :=
  if !done && t.snapshotRead && !v.materialize then
    { w with frontier := some (w.frontier.elim v.timestamp (min v.timestamp)) }
  else w

/-- The part of `FindRightRowVersion` for reads on a snapshot, the same in both scans. -/
def Visit.readOnSnapshot (x : Visit) : Visit :=
  if t.snapshotRead && !x.walk.foundCommitted && t.inSnapshot v.txnDig then
    { x with walk := { x.walk with foundPrepared := true }, readCurrVersion := true, done := true }
  else x

/-- The search of a snapshot, the same in both scans. (The sequential scan does not count a committed version; the walk
ends there.) -/
def Visit.findSnapshot (x : Visit) : Visit :=
  if t.hasSnapshotMgr then
    if v.commitOrPrepare then
      { x with
        walk := { x.walk with
          foundCommitted := true
          numIters := x.walk.numIters + 1
          snapshot := x.walk.snapshot ++ [(v.txnDig, true)] }
        done := true }
    else if v.materialize then x
    else if !x.walk.foundCommitted && decide (x.walk.numIters < t.kPreparedVersions) && t.canRead v.txnDig then
      { x with
        walk := { x.walk with
          numIters := x.walk.numIters + 1
          snapshot := x.walk.snapshot ++ [(v.txnDig, false)] }
        done := decide (t.kPreparedVersions ≤ x.walk.numIters + 1) }
    else { x with done := decide (t.kPreparedVersions ≤ x.walk.numIters) }
  else x

namespace IndexScan

/-- The part of `FindRightRowVersion` for reads and writes. The flag says that the function returns
here. -/
def readVersion (w : Walk) : Visit × Bool :=
  if t.performRead || t.isPointRead || t.writeMode then
    if v.commitOrPrepare then
      ({ walk := { w with foundCommitted := true }, done := true, readCurrVersion := true }, false)
    else if w.foundPrepared then ({ walk := w }, false)
    else if t.writeMode && t.isDeletion then
      if v.isDeleted && v.timestamp = t.timestamp && t.commitOrPrepare then
        ({ walk := { w with foundPrepared := true }, done := true, upgraded := true }, true)
      else ({ walk := { w with foundPrepared := true }, done := true, readCurrVersion := true }, true)
    else if t.snapshotRead then ({ walk := w }, false)
    else if v.materialize then ({ walk := w }, true)
    else if w.numIters = 0 && t.canRead v.txnDig then
      ({ walk := { w with foundPrepared := true }, readCurrVersion := true
         done := !t.hasSnapshotMgr && !t.isPointRead }, false)
    else ({ walk := w, done := !t.hasSnapshotMgr && !t.isPointRead }, false)
  else ({ walk := w }, false)

def findRightRowVersion (w : Walk) : Visit :=
  match readVersion t v w with
  | (x, true) => x
  | (x, false) => (x.readOnSnapshot t v).findSnapshot t v

/-- Purged versions are skipped. The chain is returned because a deletion may upgrade its own version. -/
def checkRow (t : ScanTxn) : List RowVersion → Walk → Walk × List RowVersion
  | [], w => (w, [])
  | v :: chain, w =>
    if !v.purged && decide (v.timestamp ≤ t.timestamp) then
      let x := findRightRowVersion t v w
      let w := (Walk.evalRead t (if t.isPointRead then 2 else 1) v x).skip t v x.done
      let v := if x.upgraded then { v with commitOrPrepare := true, materialize := false } else v
      if x.done then (w, v :: chain)
      else
        let r := checkRow t chain w
        (r.1, v :: r.2)
    else
      let r := checkRow t chain w
      (r.1, v :: r.2)

def select (chain : List RowVersion) : Option RowVersion := (checkRow t chain {}).1.evaluated.head?

end IndexScan

namespace SeqScan

/-- The part of `FindRightRowVersion` for reads. -/
def readVersion (w : Walk) : Visit × Bool :=
  if t.performRead then
    if v.commitOrPrepare then
      ({ walk := { w with foundCommitted := true }, done := true, readCurrVersion := true }, false)
    else if w.foundPrepared then ({ walk := w }, false)
    else if t.snapshotRead then ({ walk := w }, false)
    else if v.materialize then ({ walk := w }, true)
    else if w.numIters = 0 && t.canRead v.txnDig then
      ({ walk := { w with foundPrepared := true }, readCurrVersion := true, done := !t.hasSnapshotMgr }, false)
    else ({ walk := w, done := !t.hasSnapshotMgr }, false)
  else ({ walk := w }, false)

def findRightRowVersion (w : Walk) : Visit :=
  match readVersion t v w with
  | (x, true) => x
  | (x, false) => (x.readOnSnapshot t v).findSnapshot t v

def checkRow (t : ScanTxn) : List RowVersion → Walk → Walk
  | [], w => w
  | v :: chain, w =>
    if v.timestamp ≤ t.timestamp then
      let x := findRightRowVersion t v w
      let w := (Walk.evalRead t 1 v x).skip t v x.done
      if x.done then w else checkRow t chain w
    else checkRow t chain w

def select (chain : List RowVersion) : Option RowVersion := (checkRow t chain {}).evaluated.head?

end SeqScan

end Pequin
