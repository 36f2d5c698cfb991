import Pequin.Framework.Chain
import Pequin.Model.RowScan

/-!
# Writes to the table store

`ApplyTableWrite` writes the rows of a transaction, force-materialized, prepared or committed, and
`PurgeTableWrite` undoes what was prepared. Inserted rows (updates are inserts) and purges go through
`InsertTuple`, which looks for a version of the transaction's own timestamp first. A deletion goes through a
scan: `DeleteExecutor` adds a version that is marked as deleted for every row that the scan finds. The rows of
other groups are taken to be filtered out. A `Panic` is `none`.
-/

namespace Pequin

/-- The `TransactionContext` of a write. -/
structure WriteTxn where
  timestamp : Timestamp
  txnDig : Digest
  commitOrPrepare : Bool := false
  forceMaterialize : Bool := false
  /-- The write is a purge. -/
  undoDelete : Bool := false
  deriving DecidableEq, Repr

namespace WriteTxn

variable (w : WriteTxn)

/-- `SetPequinMetaData`: a new version. -/
def version (isDeleted : Bool) (values : List Bytes) : RowVersion :=
  if w.undoDelete then
    { timestamp := w.timestamp, txnDig := w.txnDig, commitOrPrepare := false, purged := true, values := values }
  else
    { timestamp := w.timestamp, txnDig := w.txnDig, commitOrPrepare := w.commitOrPrepare
      materialize := w.forceMaterialize, isDeleted := isDeleted, values := values }

/-- The columns have to agree. -/
def upgradeRowVersionCommitStatus (values : List Bytes) (v : RowVersion) : Option RowVersion :=
  if v.values = values then
    let shouldUpgrade := !v.commitOrPrepare && w.commitOrPrepare
    let v :=
      if v.materialize && !w.forceMaterialize then
        { v with materialize := false, commitOrPrepare := w.commitOrPrepare }
      else v
    some (if shouldUpgrade then { v with commitOrPrepare := true } else v)
  else none

/-- With `PurgeRowVersion`: the chain with the version of the timestamp updated, or `some none` if there is none. A
purged version is taken out unless it is the only one. -/
def checkRowVersionUpdate (values : List Bytes) : Bool → List RowVersion → Option (Option (List RowVersion))
  | _, [] => some none
  | isHead, v :: chain =>
    if w.timestamp < v.timestamp then (checkRowVersionUpdate values false chain).map (Option.map (v :: ·))
    else if v.timestamp = w.timestamp then
      if w.undoDelete && !v.commitOrPrepare then
        some (some (if isHead && chain.isEmpty then [{ v with purged := true }] else chain))
      else (w.upgradeRowVersionCommitStatus values v).map fun v => some (v :: chain)
    else some none

/-- The version is linked in front of the first one that is not newer; if that has the same timestamp, only if it is
committed. -/
def performUpdate (v : RowVersion) (chain : List RowVersion) : List RowVersion :=
  Chain.link RowVersion.timestamp w.commitOrPrepare v chain

/-- With `InsertFirstVersion` and `InsertNewVersion`. -/
def insertTuple (values : List Bytes) (chain : List RowVersion) : Option (List RowVersion) :=
  if chain.isEmpty then some [w.version false values]
  else
    match w.checkRowVersionUpdate values true chain with
    | none => none
    | some (some chain) => some chain
    | some none => some (w.performUpdate (w.version false values) chain)

def scan : ScanTxn := { timestamp := w.timestamp, isDeletion := true, commitOrPrepare := w.commitOrPrepare }

/-- `DeleteExecutor::DExecute`, for the row with a primary key. The new version is an empty slot, with no column set. -/
def deleteRow (chain : List RowVersion) : List RowVersion :=
  let r := IndexScan.checkRow w.scan chain {}
  if r.1.evaluated.isEmpty then r.2 else w.performUpdate (w.version true []) r.2

end WriteTxn

/-- The row updates of a transaction, with the keys of the rows. -/
structure TableTxn where
  timestamp : Timestamp
  txnDig : Digest
  rows : List (Bytes × RowUpdates)
  deriving DecidableEq, Repr

inductive ApplyMode where
  | materialize
  | prepare
  | commit
  deriving DecidableEq, Repr

namespace TableTxn

variable (x : TableTxn)

/-- The context in which the writes are applied. -/
def write (mode : ApplyMode) : WriteTxn where
  timestamp := x.timestamp
  txnDig := x.txnDig
  commitOrPrepare := mode == .commit
  forceMaterialize := mode == .materialize

def undo : WriteTxn where
  timestamp := x.timestamp
  txnDig := x.txnDig
  undoDelete := true

/-- The rows of the write statement. -/
def insertedRows : List (Bytes × List Bytes) :=
  (x.rows.filter fun r => !r.2.deletion).map fun r => (r.1, r.2.columnValues)

/-- The keys of the delete statements. -/
def deletedRows : List Bytes := (x.rows.filter fun r => r.2.deletion).map Prod.fst

/-- The rows of the purge statement. A deletion has only the columns of its key; the empty ones become 0. -/
def purgedRows : List (Bytes × List Bytes) :=
  x.rows.map fun r => (r.1, r.2.columnValues.map fun value => if value.isEmpty then [48] else value)

def insertRow (w : WriteTxn) (table : Table) (r : Bytes × List Bytes) : Option Table :=
  (w.insertTuple r.2 (table r.1)).map (Function.update table r.1)

/-- The inserts, then the deletions. -/
def applyTableWrite (mode : ApplyMode) (table : Table) : Option Table :=
  (x.insertedRows.foldlM (insertRow (x.write mode)) table).map fun table =>
    x.deletedRows.foldl (fun table k => Function.update table k ((x.write mode).deleteRow (table k))) table

def purgeTableWrite (table : Table) : Option Table := x.purgedRows.foldlM (insertRow x.undo) table

end TableTxn

inductive TableEvent where
  | apply (x : TableTxn) (mode : ApplyMode)
  | purge (x : TableTxn)
  deriving DecidableEq, Repr

def Table.step (table : Table) : TableEvent → Option Table
  | .apply x mode => x.applyTableWrite mode table
  | .purge x => x.purgeTableWrite table

/-- The newest committed version that is visible at a time. -/
def Table.visible (table : Table) (key : Bytes) (time : Timestamp) : Option RowVersion :=
  Chain.latest RowVersion.timestamp (fun v => v.commitOrPrepare && !v.purged) time (table key)

end Pequin
