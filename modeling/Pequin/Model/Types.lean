import Mathlib.Algebra.Order.Ring.Int
import Mathlib.Data.Prod.Lex

/-!
# Messages and timestamps

The protocol buffers of `pequin-proto.proto` and `common-proto.proto` that the
modelled functions read, and the transaction timestamps of
`store/common/timestamp.cc`. Strings of the source are byte strings here.

* `Timestamp.lt_iff`: the order on timestamps is the one `operator<` computes.
-/

namespace Pequin

/-- A `bytes` field. -/
abbrev Bytes := List UInt8

instance : LawfulBEq Bytes := inferInstance

/-- A transaction digest. Its first byte picks the log group and the fallback leaders. -/
abbrev Digest := Bytes

/-- A transaction timestamp: a time and the id of the client that drew it. -/
structure Timestamp where
  timestamp : Nat
  id : Nat
  deriving DecidableEq, Repr

namespace Timestamp

/-- The pair that orders timestamps. -/
def pair (t : Timestamp) : ℕ ×ₗ ℕ := toLex (t.timestamp, t.id)

theorem pair_injective : Function.Injective pair := by
  rintro ⟨a, b⟩ ⟨c, d⟩ h
  have : ((a, b) : ℕ × ℕ) = (c, d) := toLex.injective h
  simpa using this

instance : LinearOrder Timestamp := LinearOrder.lift' pair pair_injective

theorem lt_iff {a b : Timestamp} :
    a < b ↔ if a.timestamp = b.timestamp then a.id < b.id else a.timestamp < b.timestamp := by
  have h : a < b ↔ a.pair < b.pair := Iff.rfl
  rw [h, pair, pair, Prod.Lex.toLex_lt_toLex]
  split
  · rename_i e
    simp [e]
  · rename_i e
    simp [e]

/-- The version of a row that was loaded and never written, or never existed. -/
def genesis : Timestamp := ⟨0, 0⟩

theorem genesis_le (t : Timestamp) : genesis ≤ t := by
  rw [← not_lt, lt_iff]
  simp [genesis]

end Timestamp

inductive CommitDecision where
  | commit
  | abort
  deriving DecidableEq, Repr

/-- The value of the enumerator on the wire. -/
def CommitDecision.toNat : CommitDecision → Nat
  | .commit => 0
  | .abort => 1

/-- `proto::ConcurrencyControl::Result`, the vote of one replica. -/
inductive Result where
  | commit
  | abort
  | abstain
  | wait
  | retry
  | ignore
  deriving DecidableEq, Repr

/-- The value of the enumerator on the wire. -/
def Result.toNat : Result → Nat
  | .commit => 0
  | .abort => 1
  | .abstain => 2
  | .wait => 3
  | .retry => 4
  | .ignore => 5

/-- One entry of a read set: the key and the version that was read. -/
structure ReadMessage where
  key : Bytes
  readtime : Timestamp
  isTableColVersion : Bool := false
  deriving DecidableEq, Repr

/-- One entry of a write set. In SQL mode inserts and updates carry no value, and
a deletion carries the value `"d"`. -/
structure WriteMessage where
  key : Bytes
  value : Option Bytes := none
  isTableColVersion : Bool := false
  deriving DecidableEq, Repr

/-- The value that marks a deletion. -/
def deletionMark : Bytes := [100]

/-- `write.value()`: the empty string when the field is not set. -/
def WriteMessage.valueOrEmpty (w : WriteMessage) : Bytes := w.value.getD []

/-- A write of the deletion mark. -/
def WriteMessage.isDeletion (w : WriteMessage) : Bool := w.valueOrEmpty == deletionMark

/-- A dependency on a prepared transaction. -/
structure Dependency where
  preparedTxnDigest : Digest
  preparedTimestamp : Timestamp
  involvedGroup : Nat
  deriving DecidableEq, Repr

/-- A read predicate: the table version it saw and its instances. -/
structure ReadPredicate where
  tableName : Bytes
  tableVersion : Timestamp
  predInstances : List Bytes
  deriving DecidableEq, Repr

/-- `proto::ReadSet`, the result of merging or caching query read sets. -/
structure ReadSet where
  readSet : List ReadMessage
  deps : List Dependency
  readPredicates : List ReadPredicate
  deriving DecidableEq, Repr

/-- One row of a table write. `writeSetIdx` points at its key in the write set. -/
structure RowUpdates where
  columnValues : List Bytes
  deletion : Bool := false
  writeSetIdx : Nat
  deriving DecidableEq, Repr

/-- The read set of a query at one group, or its hash. -/
structure QueryGroupMeta where
  readSetHash : Option Bytes
  queryReadSet : Option ReadSet
  deriving DecidableEq, Repr

structure QueryResultMetaData where
  queryId : Bytes
  retryVersion : Nat
  groupMeta : List (Nat × QueryGroupMeta)
  deriving DecidableEq, Repr

/-- The last field is local to a replica and not part of what the client signed. -/
structure Transaction where
  clientId : Nat
  clientSeqNum : Nat
  involvedGroups : List Nat
  readSet : List ReadMessage
  writeSet : List WriteMessage
  deps : List Dependency := []
  timestamp : Timestamp
  querySet : List QueryResultMetaData := []
  tableWrites : List (Bytes × List RowUpdates) := []
  readPredicates : List ReadPredicate := []
  mergedReadSet : Option ReadSet := none
  deriving DecidableEq, Repr

end Pequin
