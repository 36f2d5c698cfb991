import Pequin.Model.RowScan

/-!
# Index scans

An executor of an index scan runs once, or once for every row of the other side of a join, each time with
its predicate filled in. It records the predicate in the read set of the query; if the predicate fixes the
primary key (`IsPoint`), it records the row that it reads instead. All executors of a query share the read
set. Complete read sets (`useActiveReadSet` off), which `EvalRead` asserts away, are left out, and so are
table versions, limits and the pruning of open ranges.
-/

namespace Pequin.IndexScan

/-- One execution of an index scan. -/
structure Plan where
  tableName : Bytes
  isPrimaryIndex : Bool
  /-- `predicate_->expr_name_`. -/
  predicate : Bytes
  /-- `predicate_->Evaluate`. -/
  evaluate : List Bytes → Bool
  /-- `IsPoint` on the predicate, with `relax`. -/
  isPoint : Bool
  /-- The rows that the index finds for the values of the predicate. -/
  lookup : Table → List Bytes
  /-- The row key of `values_`. -/
  pointKey : Bytes
  /-- `EncodeTableRow` on the primary key columns of a row. -/
  encodeTableRow : List Bytes → Bytes
  groupIdx : Nat := 0

/-- What an executor keeps between executions. -/
structure Executor where
  firstExecution : Bool := true
  isImplicitPointRead : Bool := false
  deriving DecidableEq, Repr

def addToReadSet (key : Bytes) (time : Timestamp) (rs : ReadSet) : ReadSet :=
  { rs with readSet := rs.readSet ++ [⟨key, time, false⟩] }

def addToDepSet (groupIdx : Nat) (dig : Digest) (time : Timestamp) (rs : ReadSet) : ReadSet :=
  if (rs.deps.getLast?.any fun d => d.preparedTxnDigest == dig) then rs
  else { rs with deps := rs.deps ++ [⟨dig, time, groupIdx⟩] }

def addPredicate (tableName : Bytes) (rs : ReadSet) : ReadSet :=
  { rs with readPredicates := rs.readPredicates ++ [⟨tableName, .genesis, []⟩] }

/-- The last predicate gets another instance. -/
def extendPredicate (predicate : Bytes) (rs : ReadSet) : ReadSet :=
  match rs.readPredicates.getLast? with
  | none => rs
  | some p =>
    { rs with readPredicates := rs.readPredicates.dropLast ++
        [{ p with predInstances := p.predInstances ++ [predicate] }] }

section

variable (t : ScanTxn) (plan : Plan) (table : Table) (e : Executor)

/-- The first execution finds out whether the scan is an implicit point read. -/
def setPredicate (rs : ReadSet) : Executor × ReadSet :=
  if !t.hasReadSetMgr || t.isPointRead || e.isImplicitPointRead then (e, rs)
  else if e.firstExecution then
    if plan.isPrimaryIndex && plan.isPoint then ({ e with isImplicitPointRead := true }, rs)
    else ({ e with firstExecution := false }, extendPredicate plan.predicate (addPredicate plan.tableName rs))
  else (e, extendPredicate plan.predicate rs)

def manageReadSet (v : RowVersion) (rs : ReadSet) : ReadSet :=
  if t.hasReadSetMgr then
    let rs := if v.commitOrPrepare then rs else addToDepSet plan.groupIdx v.txnDig v.timestamp rs
    addToReadSet (plan.encodeTableRow v.values) v.timestamp rs
  else rs

/-- `EvalRead` on a version of the row with the given key. -/
def evalRead (key : Bytes) (s : List (Bytes × RowVersion) × ReadSet) (v : RowVersion) :
    List (Bytes × RowVersion) × ReadSet :=
  if v.purged || decide ((key, v) ∈ s.1) then s
  else if (if v.isDeleted then t.isDeletion else plan.evaluate v.values) then
    (s.1 ++ [(key, v)], manageReadSet t plan v s.2)
  else s

/-- `CheckRow` with `EvalRead`. -/
def scanRow (s : List (Bytes × RowVersion) × ReadSet) (key : Bytes) :
    List (Bytes × RowVersion) × ReadSet :=
  (checkRow t (table key) {}).1.evaluated.foldl (evalRead t plan key) s

structure Scanned where
  executor : Executor
  readSet : ReadSet
  /-- The versions that are visible. -/
  visible : List (Bytes × RowVersion)

/-- `ExecPrimaryIndexLookup` and `ExecSecondaryIndexLookup`. If a primary index finds no row, an implicit
point read adds its key to the read set. -/
def execute (rs : ReadSet) : Scanned :=
  let s := setPredicate t plan e rs
  let keys := plan.lookup table
  if keys.isEmpty then
    { executor := s.1
      readSet := if plan.isPrimaryIndex && s.1.isImplicitPointRead then addToReadSet plan.pointKey .genesis s.2 else s.2
      visible := [] }
  else
    let r := keys.foldl (scanRow t plan table) ([], s.2)
    { executor := s.1, readSet := r.2, visible := r.1 }

end

end Pequin.IndexScan
