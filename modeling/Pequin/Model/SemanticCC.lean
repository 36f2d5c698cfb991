import Pequin.Model.ConcurrencyControl
import Mathlib.Data.List.AList

/-!
# The semantic check of read predicates

`CheckReadPred` of `concurrencycontrol_semantic.cc`, and the table writes it goes through, as
`RecordReadPredicatesAndWrites`, `ClearPredicateAndWrites` and `CreateTable` keep them. A reader
that has scanned a table with a predicate must not miss a row that satisfies it; nor must a writer
write one, which `CheckTableWrites` checks. Predicates are evaluated by `evalPred`; a transaction stands for its digest.
-/

namespace Pequin

/-! ## Table writes -/

section

variable (tables : TableWrites) (preds : List ReadPredicate)

/-- `tableWrites` of one table: the transactions that write it, by timestamp, and whether they are
committed. -/
structure TableHistory where
  writes : List (Timestamp × Transaction × Bool)
  sorted : writes.Pairwise fun a b => a.1 < b.1

def TableHistory.empty : TableHistory := ⟨[], List.Pairwise.nil⟩

/-- A transaction writes the table, or is known as committed. -/
def TableHistory.record (h : TableHistory) (txn : Transaction) (committed : Bool) : TableHistory :=
  ⟨Versions.put txn.timestamp (txn, committed) h.writes, Versions.pairwise_put h.sorted⟩

/-- The write at a timestamp is forgotten. -/
def TableHistory.erase (h : TableHistory) (ts : Timestamp) : TableHistory :=
  ⟨Versions.erase ts h.writes, Versions.pairwise_erase h.sorted⟩

abbrev TableWrites := Bytes → Option TableHistory

def TableWrites.createTable (name : Bytes) : TableWrites :=
  Function.update tables name (some .empty)

/-- The table writes of `RecordReadPredicatesAndWrites`. Very small timestamps end the process. -/
def TableWrites.recordWrites (txn : Transaction) (committed : Bool) : Option TableWrites :=
  if txn.timestamp.timestamp ≤ 10000 then none
  else some fun name =>
    if txn.tableWrites.any (fun x => x.1 == name) then
      some (((tables name).getD .empty).record txn committed)
    else tables name

/-- The table writes of `ClearPredicateAndWrites`. -/
def TableWrites.clearWrites (txn : Transaction) : TableWrites := fun name =>
  if txn.tableWrites.any (fun x => x.1 == name) then (tables name).map fun h => h.erase txn.timestamp
  else tables name

/-- The read predicates of a transaction: the merged ones, where the replica merges and has them. -/
def CCParams.predSet (p : CCParams) (txn : Transaction) (merged : Option ReadSet) : List ReadPredicate :=
  if !txn.querySet.isEmpty && (p.cacheReadSet || !p.mergeActiveAtClient) then
    merged.elim txn.readPredicates ReadSet.readPredicates
  else txn.readPredicates

/-- The predicates of `RecordReadPredicatesAndWrites`. -/
def TableWrites.recordPredicates (txn : Transaction) (committed : Bool) : TableWrites := fun name =>
  if preds.any (fun x => x.tableName == name) then some (((tables name).getD .empty).record txn committed)
  else tables name

/-- The predicates of `ClearPredicateAndWrites`. -/
def TableWrites.clearPredicates (txn : Transaction) :
    TableWrites := fun name =>
  if preds.any (fun x => x.tableName == name) then (tables name).map fun h => h.erase txn.timestamp
  else tables name

end

/-! ## Prepared transactions -/

/-- The indexes of a replica with the semantic check. -/
structure SemanticState where
  cc : CCState := {}
  tablePredicates : TableWrites := fun _ => none
  tableWrites : TableWrites := fun _ => none

/-- The versions of the tables that the transaction changes here, `tables`, are written last. -/
def SemanticState.prepare (p : CCParams) (st : SemanticState) (txn : Transaction) (readSet : List ReadMessage)
    (tables : List Bytes) : Option SemanticState :=
  if !st.cc.ongoing.contains txn || st.cc.prepared.contains txn then some st
  else
    (st.tableWrites.recordWrites txn false).map fun tableWrites =>
      let cc := st.cc.prepare p txn readSet
      { cc := { cc with
          preparedWrites := fun k =>
            if tables.contains k then Versions.insertNew txn.timestamp txn (cc.preparedWrites k)
            else cc.preparedWrites k }
        tablePredicates := st.tablePredicates.recordPredicates (p.predSet txn (st.cc.merged txn)) txn false
        tableWrites := tableWrites }

def SemanticState.abort (p : CCParams) (st : SemanticState) (txn : Transaction) : SemanticState where
  cc := st.cc.abort p txn
  tablePredicates := st.tablePredicates.clearPredicates (p.predSet txn (st.cc.merged txn)) txn
  tableWrites := st.tableWrites.clearWrites txn

/-! ## The check -/

structure SemanticParams where
  isKeyOwned : Bytes → Bool
  /-- `EvaluatePred`: an instance of a predicate holds of a row of the table. -/
  evalPred : Bytes → RowUpdates → Bytes → Bool
  monotonicityGrace : Nat
  nonMonotonicityGrace : Nat
  /-- `non_monotonic_writes`. -/
  nonMonotonic : Transaction → Bool

/-- Seconds in the upper half, microseconds above the lowest twelve bits. -/
def tsToUS (ts : Nat) : Nat := ts / 2 ^ 32 * 1000000 + ts % 2 ^ 32 / 2 ^ 12

def usToTS (us : Nat) : Nat := (us / 1000000 * 2 ^ 32 + us % 1000000 * 2 ^ 12) % 2 ^ 64

/-- The table version of the predicate, where `low` is the lowest prepared write that the snapshot misses. -/
def refinePredicateTableVersion (monotonicityGrace : Nat) (low tableVersion : Timestamp) : Timestamp :=
  let lowTime := usToTS ((tsToUS low.timestamp + monotonicityGrace * 1000 + (2 ^ 64 - 1)) % 2 ^ 64)
  if low.timestamp = 2 ^ 64 - 1 then tableVersion
  else if lowTime < tableVersion.timestamp ∨ lowTime = tableVersion.timestamp ∧ low.id < tableVersion.id then
    ⟨lowTime, low.id⟩
  else tableVersion

/-- A write is older than the table version by more than a grace in milliseconds. -/
def olderThan (grace : Nat) (tableVersion ts : Timestamp) : Bool :=
  decide ((tsToUS ts.timestamp + grace * 1000) % 2 ^ 64 < tsToUS tableVersion.timestamp)

/-- Beyond both graces. -/
def SemanticParams.beyond (p : SemanticParams) (tableVersion ts : Timestamp) : Bool :=
  olderThan (p.monotonicityGrace + p.nonMonotonicityGrace) tableVersion ts

/-- Beyond the first grace, and not marked as non-monotonic. -/
def SemanticParams.ignores (p : SemanticParams) (tableVersion : Timestamp) (x : Timestamp × Transaction × Bool) :
    Bool :=
  olderThan p.monotonicityGrace tableVersion x.1 && !p.nonMonotonic x.2.1

/-! ## Monotonic writes -/

/-- `highTableVersions` and `non_monotonic_writes`. -/
structure Watermarks where
  high : Bytes → Option Timestamp := fun _ => none
  nonMonotonic : List Transaction := []

/-- The end of `FindTableVersion`, where the latest version of the table is `version`, and what the predicate gets. -/
def Watermarks.findTableVersion (m : Watermarks) (table : Bytes) (version : Timestamp) : Watermarks × Timestamp :=
  let high := max ((m.high table).getD ⟨0, 0⟩) version
  ({ m with high := Function.update m.high table (some high) }, high)

/-- The grace of a write is over at the table version. -/
def graceOver (grace : Nat) (high ts : Timestamp) : Bool :=
  decide ((tsToUS ts.timestamp + grace * 1000) % 2 ^ 64 ≤ tsToUS high.timestamp)

/-- The loop over the tables that are written. A mark stays when a later table rejects the write. -/
def Watermarks.checkMonotonicTableColVersions (p : SemanticParams) (txn : Transaction) :
    List Bytes → Watermarks → Bool × Watermarks
  | [], m => (true, m)
  | table :: tables, m =>
    match m.high table with
    | none => checkMonotonicTableColVersions p txn tables m
    | some high =>
      if graceOver (p.monotonicityGrace + p.nonMonotonicityGrace) high txn.timestamp then (false, m)
      else if graceOver p.monotonicityGrace high txn.timestamp then
        checkMonotonicTableColVersions p txn tables { m with nonMonotonic := m.nonMonotonic.insert txn }
      else checkMonotonicTableColVersions p txn tables m

/-- `GetEncodedRow`. -/
def rowKey (txn : Transaction) (row : RowUpdates) : Option Bytes :=
  (txn.writeSet[row.writeSetIdx]?).map WriteMessage.key

/-- A row that an instance of the predicate holds of. A deletion satisfies none. -/
def SemanticParams.satisfies (p : SemanticParams) (pred : ReadPredicate) (row : RowUpdates) : Bool :=
  !row.deletion && pred.predInstances.any fun inst => p.evalPred inst row pred.tableName

/-- What the loop has found: per key, a prepared write that does not satisfy the predicate, and whether an older one
was seen; and the keys evaluated. -/
structure PredState where
  candidates : AList (fun _ : Bytes => Bool × Transaction) := ∅
  activeKeys : List Bytes := []

/-- One row of a write, with `lazy_check`. -/
def checkRow (p : SemanticParams) (pred : ReadPredicate) (readSet : List ReadMessage) (txn : Transaction)
    (committed : Bool) (row : RowUpdates) (k : Bytes) (st : PredState) : Except Result PredState :=
  if !p.isKeyOwned k then .ok st
  else
    match st.candidates.lookup k with
    | some (true, _) => .ok st
    | some (false, dep) => .ok { st with candidates := st.candidates.insert k (true, dep) }
    | none =>
      if st.activeKeys.contains k || readSet.any (fun r => r.key == k) then .ok st
      else if p.satisfies pred row then .error .abstain
      else .ok
        { candidates := if committed then st.candidates.erase k else st.candidates.insert k (false, txn)
          activeKeys := st.activeKeys.insert k }

/-- The rows of a write. The result is `none` where the source ends the process. -/
def checkRows (p : SemanticParams) (pred : ReadPredicate) (readSet : List ReadMessage) (txn : Transaction)
    (committed : Bool) : List RowUpdates → PredState → Option (Except Result PredState)
  | [], st => some (.ok st)
  | row :: rows, st =>
    match rowKey txn row with
    | none => none
    | some k =>
      match checkRow p pred readSet txn committed row k st with
      | .error res => some (.error res)
      | .ok st => checkRows p pred readSet txn committed rows st

/-- The loop over the writes, from the latest down. -/
def checkWrites (p : SemanticParams) (pred : ReadPredicate) (readSet : List ReadMessage) :
    List (Timestamp × Transaction × Bool) → PredState → Option (Except Result PredState)
  | [], st => some (.ok st)
  | x :: rest, st =>
    if x.1.timestamp ≤ 10000 then none
    else if x.1 = pred.tableVersion then checkWrites p pred readSet rest st
    else if p.beyond pred.tableVersion x.1 then some (.ok st)
    else if p.ignores pred.tableVersion x then checkWrites p pred readSet rest st
    else
      match x.2.1.tableWrites.lookup pred.tableName with
      | none => none
      | some rows =>
        match checkRows p pred readSet x.2.1 x.2.2 rows st with
        | some (.ok st) => checkWrites p pred readSet rest st
        | r => r

/-- The active candidates join the dynamic dependencies. -/
def PredState.activeDeps (st : PredState) : List Transaction :=
  st.candidates.entries.filterMap fun x => if x.2.1 then some x.2.2 else none

/-- The writes that the loop goes through. It starts below the reader and ends before the first
write of the table. -/
def TableHistory.below (h : TableHistory) (ts : Timestamp) : List (Timestamp × Transaction × Bool) :=
  (h.writes.filter fun x => x.1 < ts).tail.reverse

/-- The result, and the dynamic dependencies so far. -/
def checkReadPred (p : SemanticParams) (tables : TableWrites) (ts : Timestamp) (pred : ReadPredicate)
    (readSet : List ReadMessage) (deps : List Transaction) : Option (Result × List Transaction) :=
  if pred.predInstances.isEmpty then none
  else
    match tables pred.tableName with
    | none => some (.commit, deps)
    | some h =>
      match checkWrites p pred readSet (h.below ts) {} with
      | none => none
      | some (.error res) => some (res, deps)
      | some (.ok st) => some (.commit, deps ++ st.activeDeps)

/-! ## The check of a writer -/

/-- The read set of a reader that the writer looks into. -/
def otherReads (reader : Transaction) (merged : Option ReadSet) : List ReadMessage :=
  if merged.isSome then reader.readSet else []

/-- An instance of a predicate on the table holds of the row. The version `ts` of the table was seen. -/
def SemanticParams.hits (p : SemanticParams) (preds : List ReadPredicate) (table : Bytes) (ts : Timestamp)
    (row : RowUpdates) : Bool :=
  preds.any fun pred => table == pred.tableName && ts != pred.tableVersion &&
    pred.predInstances.any fun inst => p.evalPred inst row pred.tableName

section

variable (p : SemanticParams) (cc : CCParams) (merged : Transaction → Option ReadSet) (txn : Transaction)
  (table : Bytes)

/-- The loops of `CheckTableWrites` over readers and rows. -/
def checkTableRows : List (Transaction × RowUpdates) → Option Result
  | [] => some .commit
  | (reader, row) :: rest =>
    if row.deletion then checkTableRows rest
    else
      match rowKey txn row with
      | none => none
      | some k =>
        if !p.isKeyOwned k || (otherReads reader (merged reader)).any (fun r => r.key == k) then checkTableRows rest
        else if reader.querySet.isEmpty then none
        else if p.hits (cc.predSet reader (merged reader)) table txn.timestamp row then some .abstain
        else checkTableRows rest

/-- The readers above a timestamp, of those recorded for a table. -/
def readersAbove (ts : Timestamp) (preds : List (Timestamp × Transaction × Bool)) : List Transaction :=
  (preds.filter fun x => ts < x.1).map fun x => x.2.1

/-- With the entry of `tablePredicates`. -/
def checkTableWrites (preds : List (Timestamp × Transaction × Bool)) (rows : List RowUpdates) : Option Result :=
  checkTableRows p cc merged txn table ((readersAbove txn.timestamp preds).product rows)

end

end Pequin
