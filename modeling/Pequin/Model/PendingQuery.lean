import Pequin.Model.QueryMerge

/-!
# The results of a query at the client

`Client::QueryResultCallback` and `Client::RetryQuery`: a query is done when every group has replied, and enters the
transaction. If a group fails, the query is sent again, with the next version.

What the client does is a list of actions, in the order of the source. Result caches and counters are left out.
-/

namespace Pequin

/-- The `QueryParameters` that are read here. -/
structure ClientQueryParams where
  cacheReadSet : Bool
  mergeActiveAtClient : Bool
  retryLimit : Int

/-- The read sets of a query enter the transaction, with `mergeActiveAtClient`. -/
def mergeActiveAtClient (txn : Transaction) (readSets : List ReadSet) : Transaction :=
  { txn with
    readSet := txn.readSet ++ readSets.flatMap ReadSet.readSet
    deps := txn.deps ++ readSets.flatMap ReadSet.deps
    readPredicates := (readSets.flatMap ReadSet.readPredicates).foldl addPredicate txn.readPredicates }

/-- `PendingQuery` of `Client`, for a query that involves at least one group. The first one is the query manager. -/
structure ClientPendingQuery where
  queryId : Bytes
  involvedGroups : List Nat
  involved : involvedGroups ≠ []
  txnGroups : List Nat
  version : Nat := 0
  groupReplies : Nat := 0
  groupReadSets : List (Nat × ReadSet) := []
  groupResultHashes : List (Nat × Bytes) := []
  result : Bytes := []

inductive QueryAction where
  | abort (group : Nat)
  | replyFail
  | retry (group version : Nat)
  | addQuery (query : QueryResultMetaData) (merged : List ReadSet)
  | replyOk (result : Bytes)
  deriving DecidableEq, Repr

/-- How the transaction changes. -/
def QueryAction.apply (txn : Transaction) : QueryAction → Transaction
  | .addQuery query merged =>
    { mergeActiveAtClient txn merged with querySet := txn.querySet ++ [query] }
  | _ => txn

inductive GroupReply where
  | success (group : Nat) (readSet : ReadSet) (resultHash result : Bytes)
  | failure
  deriving DecidableEq, Repr

def GroupReply.isFailure (reply : GroupReply) : Bool := reply == .failure

namespace ClientPendingQuery

variable (p : ClientQueryParams) (pq : ClientPendingQuery)

/-- Once the limit is exceeded the failure is reported, and the query is sent again. -/
def retryQuery : ClientPendingQuery × List QueryAction :=
  let report :=
    if p.retryLimit > -1 ∧ (pq.version : Int) ≥ p.retryLimit then
      pq.txnGroups.map .abort ++ [.replyFail]
    else []
  ({ pq with version := pq.version + 1, groupReplies := 0, groupReadSets := [], groupResultHashes := [] },
    report ++ pq.involvedGroups.map fun group => .retry group (pq.version + 1))

def store (group : Nat) (readSet : ReadSet) (resultHash result : Bytes) : ClientPendingQuery :=
  { pq with
    groupReplies := pq.groupReplies + 1
    groupReadSets := if p.cacheReadSet then pq.groupReadSets else Versions.put group readSet pq.groupReadSets
    groupResultHashes :=
      if p.cacheReadSet then Versions.put group resultHash pq.groupResultHashes else pq.groupResultHashes
    result := if pq.involvedGroups.head? = some group then result else pq.result }

/-- What enters the transaction: hashes, read sets, or the read sets merged into it. -/
def toTransaction : QueryAction :=
  if p.cacheReadSet then
    .addQuery ⟨pq.queryId, pq.version, pq.groupResultHashes.map fun g => (g.1, ⟨some g.2, none⟩)⟩ []
  else if p.mergeActiveAtClient then .addQuery ⟨pq.queryId, pq.version, []⟩ (pq.groupReadSets.map Prod.snd)
  else .addQuery ⟨pq.queryId, pq.version, pq.groupReadSets.map fun g => (g.1, ⟨none, some g.2⟩)⟩ []

def queryResultCallback : GroupReply → ClientPendingQuery × List QueryAction
  | .failure => pq.retryQuery p
  | .success group readSet resultHash result =>
    let pq := pq.store p group readSet resultHash result
    if pq.involvedGroups.length ≠ pq.groupReplies then (pq, [])
    else
      ({ pq with groupReadSets := if p.cacheReadSet then pq.groupReadSets else [] },
        [pq.toTransaction p, .replyOk pq.result])

def actions : ClientPendingQuery → List GroupReply → List QueryAction
  | _, [] => []
  | pq, reply :: replies =>
    let (pq, acts) := pq.queryResultCallback p reply
    acts ++ actions pq replies

end ClientPendingQuery

end Pequin
