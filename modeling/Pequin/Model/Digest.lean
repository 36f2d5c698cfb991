import Mathlib.Data.List.Sort
import Pequin.Model.BatchedSigs

/-!
# Digests

`TransactionDigest`, `QueryDigest` and `QueryRetryId` of `common.cc`, the fields of the protocol buffers that they
read, and the ids of a query over its retries (`querysync-client.cc`, `querysync-server.cc`). `blake3_hasher_update`
appends to what is hashed. Numbers are written as 8 bytes, the lowest first.

Of the fields that are not hashed, the predicates' `pred_instances` are kept: the concurrency control check evaluates
them, while `instantiations` is marked as unused. A protobuf map is the list of its entries as it is iterated.
-/

namespace Pequin

/-- The bytes of a number. -/
def u64Bytes (x : UInt64) : Bytes :=
  [UInt8.ofNat x.toNat, UInt8.ofNat (x.toNat / 2 ^ 8), UInt8.ofNat (x.toNat / 2 ^ 16),
    UInt8.ofNat (x.toNat / 2 ^ 24), UInt8.ofNat (x.toNat / 2 ^ 32), UInt8.ofNat (x.toNat / 2 ^ 40),
    UInt8.ofNat (x.toNat / 2 ^ 48), UInt8.ofNat (x.toNat / 2 ^ 56)]

structure TimestampMessage where
  timestamp : UInt64
  id : UInt64
  deriving DecidableEq

def TimestampMessage.bytes (t : TimestampMessage) : Bytes := u64Bytes t.id ++ u64Bytes t.timestamp

namespace Proto

/-- `ReadMessage`. -/
structure Read where
  key : Bytes
  readtime : TimestampMessage
  deriving DecidableEq

/-- `WriteMessage`. A value that is not set reads as the empty string. -/
structure Write where
  key : Bytes
  value : Bytes
  deriving DecidableEq

/-- `Dependency`. -/
structure Dep where
  preparedTxnDigest : Bytes
  involvedGroup : UInt64
  deriving DecidableEq

/-- `ReadPredicate`, with the column values of its `instantiations`. -/
structure Predicate where
  tableName : Bytes
  tableVersion : TimestampMessage
  instantiations : List (List Bytes)
  predInstances : List Bytes
  deriving DecidableEq

/-- `ReadSet`. -/
structure QueryReadSet where
  readSet : List Read := []
  deps : List Dep := []
  readPredicates : List Predicate := []
  deriving DecidableEq

/-- `QueryGroupMeta`. A read set that is not set reads as an empty one. -/
structure GroupMeta where
  readSetHash : Option Bytes
  queryReadSet : QueryReadSet := {}
  deriving DecidableEq

/-- `QueryResultMetaData`. -/
structure QueryMeta where
  queryId : Bytes
  retryVersion : UInt64
  groupMeta : List (UInt64 × GroupMeta) := []
  deriving DecidableEq

/-- `RowUpdates`. -/
structure Row where
  deletion : Option Bool
  columnValues : List Bytes
  deriving DecidableEq

/-- `Transaction`. -/
structure Txn where
  clientId : UInt64
  clientSeqNum : UInt64
  involvedGroups : List UInt64 := []
  readSet : List Read := []
  writeSet : List Write := []
  deps : List Dep := []
  timestamp : TimestampMessage
  querySet : List QueryMeta := []
  readPredicates : List Predicate := []
  tableWrites : List (Bytes × List Row) := []
  deriving DecidableEq

structure Query where
  clientId : UInt64
  querySeqNum : UInt64
  queryCmd : Bytes
  timestamp : TimestampMessage
  queryManager : UInt64
  deriving DecidableEq

def Read.bytes (r : Read) : Bytes := r.key ++ r.readtime.bytes

def Write.bytes (w : Write) : Bytes := w.key ++ w.value

def Dep.bytes (d : Dep) : Bytes := d.preparedTxnDigest

def Predicate.bytes (pred : Predicate) : Bytes :=
  pred.tableName ++ pred.tableVersion.bytes ++ pred.instantiations.flatMap List.flatten

def GroupMeta.bytes (md : GroupMeta) : Bytes :=
  match md.readSetHash with
  | some hash => hash
  | none => md.queryReadSet.readSet.flatMap Read.bytes ++ md.queryReadSet.deps.flatMap Dep.bytes ++
      md.queryReadSet.readPredicates.flatMap Predicate.bytes

def QueryMeta.bytes (query : QueryMeta) : Bytes :=
  query.queryId ++ u64Bytes query.retryVersion ++ query.groupMeta.flatMap fun md => u64Bytes md.1 ++ md.2.bytes

def Row.bytes (row : Row) : Bytes :=
  (match row.deletion with
    | some del => [if del then 1 else 0]
    | none => []) ++ row.columnValues.flatten

/-- The table writes in the order of the table names. -/
def sortTables (tableWrites : List (Bytes × List Row)) : List (Bytes × List Row) :=
  tableWrites.insertionSort fun l r => l.1 ≤ r.1

def Txn.bytes (txn : Txn) : Bytes :=
  u64Bytes txn.clientId ++ u64Bytes txn.clientSeqNum ++ txn.involvedGroups.flatMap u64Bytes ++
    txn.readSet.flatMap Read.bytes ++ txn.writeSet.flatMap Write.bytes ++ txn.deps.flatMap Dep.bytes ++
    txn.timestamp.bytes ++ txn.querySet.flatMap QueryMeta.bytes ++ txn.readPredicates.flatMap Predicate.bytes ++
    (sortTables txn.tableWrites).flatMap fun table => table.1 ++ table.2.flatMap Row.bytes

/-- Of the predicates, only the column values count. -/
def QueryReadSet.bytes (rs : QueryReadSet) : Bytes :=
  rs.readSet.flatMap Read.bytes ++ rs.readPredicates.flatMap fun pred => pred.instantiations.flatMap List.flatten

def Query.bytes (query : Query) : Bytes :=
  u64Bytes query.clientId ++ u64Bytes query.querySeqNum ++ query.queryCmd ++ query.timestamp.bytes ++
    u64Bytes query.queryManager

end Proto

variable (H : HashFn)

def transactionDigest (hashDigest : Bool) (txn : Proto.Txn) : Bytes :=
  if hashDigest then H.hash txn.bytes else u64Bytes txn.clientId ++ u64Bytes txn.clientSeqNum

def queryDigest (queryHashDigest : Bool) (query : Proto.Query) : Bytes :=
  if queryHashDigest then H.hash query.bytes else u64Bytes query.clientId ++ u64Bytes query.querySeqNum

def queryRetryId (queryHashDigest : Bool) (queryId : Bytes) (retryVersion : UInt64) : Bytes :=
  if queryHashDigest then H.hash (queryId ++ u64Bytes retryVersion) else queryId ++ u64Bytes retryVersion

def generateReadSetSingleHash (rs : Proto.QueryReadSet) : Bytes := H.hash rs.bytes

/-- A query at its client: the next request, the id that goes into the transaction and the one that goes
into the sync proposals. -/
structure IssuedQuery where
  queryMsg : Proto.Query
  retryVersion : UInt64
  queryId : Bytes
  queryDigest : Bytes

namespace IssuedQuery

section

variable (queryHashDigest : Bool) (q : IssuedQuery)

/-- `Client::Query` and `ShardClient::Query`. -/
def query (queryMsg : Proto.Query) : IssuedQuery where
  queryMsg := queryMsg
  retryVersion := 0
  queryId := Pequin.queryDigest H queryHashDigest queryMsg
  queryDigest := Pequin.queryDigest H queryHashDigest queryMsg

/-- The command is not sent again. -/
def retryQuery : IssuedQuery :=
  { q with queryMsg := { q.queryMsg with queryCmd := [] }, retryVersion := q.retryVersion + 1 }

/-- The id that `HandleQuery` derives from the request. -/
def derivedId : Bytes :=
  Pequin.queryDigest H queryHashDigest q.queryMsg

/-- The retry id that a replica derives from the request. -/
def retryId : Bytes :=
  queryRetryId H queryHashDigest (q.derivedId H queryHashDigest) q.retryVersion

end

end IssuedQuery

end Pequin
