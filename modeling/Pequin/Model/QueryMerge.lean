import Pequin.Model.ConcurrencyControl

/-!
# Merging the read sets of queries

`mergeTxReadSets` with its effects. It takes predicates out of the read sets that it merges, and a transaction that
misses results of queries is subscribed to them. A result that becomes available wakes the subscriber
(`wakeSubscribedTx`). A commit merges the read sets too, and then discards what is kept for the transaction (`Clean`).

Steps are atomic: the entry of the transaction is locked while its queries are looked up.
-/

namespace Pequin

open Function

namespace ReadSet

def merge (p : CCParams) (acc rs : ReadSet) : ReadSet :=
  ⟨acc.readSet ++ rs.readSet, acc.deps ++ rs.deps, mergePredicates p acc.readPredicates rs.readPredicates⟩

/-- `ReleaseLast`, until no predicate is left. -/
def release (rs : ReadSet) : ReadSet := { rs with readPredicates := [] }

end ReadSet

/-- The read set of the query is looked up in the cache. -/
def QueryResultMetaData.usesCache (p : CCParams) (query : QueryResultMetaData) : Bool :=
  (query.groupMeta.lookup p.groupIdx).any fun md => md.queryReadSet.isNone

/-- The query, after predicates were taken from the read set that it carries for this group. -/
def QueryResultMetaData.release (p : CCParams) (query : QueryResultMetaData) : QueryResultMetaData :=
  { query with
    groupMeta := query.groupMeta.map fun g =>
      if g.1 = p.groupIdx then (g.1, { g.2 with queryReadSet := g.2.queryReadSet.map ReadSet.release }) else g }

def CachedQuery.release (q : CachedQuery) : CachedQuery :=
  { q with queryReadSet := q.queryReadSet.map ReadSet.release }

/-- The state of the loop of `mergeTxReadSets`: the cache, the queries so far, those that are missing, and what was
merged. -/
structure MergeLoop where
  cache : Bytes → Option CachedQuery
  querySet : List QueryResultMetaData := []
  missingQueries : List (Bytes × Nat) := []
  mergedReadSet : ReadSet := ⟨[], [], []⟩

namespace MergeLoop

/-- A query is done. If there is a read set to be merged, its predicates are moved, with `cacheReadSet`. -/
def merge (p : CCParams) (s : MergeLoop) (query : QueryResultMetaData) (rs : Option ReadSet) : MergeLoop :=
  let moved := rs.isSome && p.cacheReadSet
  { s with
    cache :=
      if moved && query.usesCache p then
        update s.cache query.queryId ((s.cache query.queryId).map CachedQuery.release)
      else s.cache
    querySet := s.querySet ++ [if moved && !query.usesCache p then query.release p else query]
    mergedReadSet := rs.elim s.mergedReadSet (s.mergedReadSet.merge p) }

/-- A query without the result that the transaction refers to. -/
def wait (s : MergeLoop) (query : QueryResultMetaData) : MergeLoop :=
  { s with
    querySet := s.querySet ++ [query]
    missingQueries := s.missingQueries ++ [(query.queryId, query.retryVersion)] }

/-- The loop. The result is COMMIT if it goes through all queries. Once one is missing, no more are merged. -/
def run (p : CCParams) (txn : Transaction) : List QueryResultMetaData → MergeLoop → Option (Result × MergeLoop)
  | [], s => some (.commit, s)
  | query :: rest, s =>
    match fetchReadSet p s.cache txn query with
    | none => none
    | some (.wait, _) => run p txn rest (s.wait query)
    | some (.commit, rs) => run p txn rest (s.merge p query (if s.missingQueries.isEmpty then rs else none))
    | some (res, _) => some (res, { s with querySet := s.querySet ++ query :: rest })

end MergeLoop

/-- How a transaction goes on, and what a merge is for. A proof that was not set is `none`. -/
inductive MergeCall where
  | prepare (reqId : Nat) (isGossip : Bool)
  | commit (proof : Option CommittedProof)
  deriving DecidableEq, Repr

structure WaitingOnQueriesMeta where
  missingQueryIdVersions : List (Bytes × Nat)
  call : MergeCall
  deriving DecidableEq, Repr

/-- `missing_query_id_versions[query_id] = retry_version`. -/
def setMissing (missing : List (Bytes × Nat)) (query : Bytes × Nat) : List (Bytes × Nat) :=
  query :: missing.filter (·.1 ≠ query.1)

/-- The assignment `proof = proof` is to the parameter: the proof does not change. -/
def MergeCall.setToCommit : MergeCall → MergeCall
  | .prepare _ _ => .commit none
  | .commit proof => .commit proof

structure MergeState where
  queryMetaData : Bytes → Option CachedQuery := fun _ => none
  subscribedQuery : Bytes → Option Digest := fun _ => none
  txnMissingQueries : Digest → Option WaitingOnQueriesMeta := fun _ => none

namespace MergeState

section

variable (p : CCParams) (st : MergeState) (queryId : Bytes)

/-- `subscribeTxOnMissingQuery`, for the queries that `fetchReadSet` found missing. -/
def subscribeTxOnMissingQueries (txnDigest : Digest) (missing : List (Bytes × Nat)) : MergeState :=
  { st with
    subscribedQuery := missing.foldl (fun m query => update m query.1 (some txnDigest)) st.subscribedQuery }

def setWaiting (txnDigest : Digest) (waiting : Option WaitingOnQueriesMeta) : MergeState :=
  { st with txnMissingQueries := update st.txnMissingQueries txnDigest waiting }

/-- The transaction keeps the merged read set. -/
def mergeTxReadSets (txnDigest : Digest) (txn : Transaction) (call : MergeCall) :
    Option (Result × MergeState × Transaction) :=
  if (!p.cacheReadSet && p.mergeActiveAtClient) || txn.querySet.isEmpty || txn.mergedReadSet.isSome then
    some (.commit, st, txn)
  else
    match st.txnMissingQueries txnDigest with
    | some waiting =>
      let call := match call with
        | .prepare _ _ => waiting.call
        | .commit _ => waiting.call.setToCommit
      some (.wait, st.setWaiting txnDigest (some { waiting with call }), txn)
    | none =>
      (MergeLoop.run p txn txn.querySet { cache := st.queryMetaData }).map fun (res, s) =>
        let st := { st with queryMetaData := s.cache }.subscribeTxOnMissingQueries txnDigest s.missingQueries
        let txn := { txn with querySet := s.querySet }
        if res ≠ .commit then (res, st, txn)
        else if !s.missingQueries.isEmpty then
          (.wait, st.setWaiting txnDigest (some ⟨s.missingQueries.foldl setMissing [], call⟩), txn)
        else if s.mergedReadSet.readSet.isEmpty && s.mergedReadSet.readPredicates.isEmpty then (.commit, st, txn)
        else (.commit, st, { txn with mergedReadSet := some (attachBase txn s.mergedReadSet) })

/-- With the transaction that is resumed. -/
def wakeSubscribedTx (retryVersion : Nat) :
    MergeState × Option (Digest × MergeCall) :=
  match st.subscribedQuery queryId with
  | none => (st, none)
  | some txnDigest =>
    let st := { st with subscribedQuery := update st.subscribedQuery queryId none }
    match st.txnMissingQueries txnDigest with
    | none => (st, none)
    | some waiting =>
      if waiting.missingQueryIdVersions.lookup queryId ≠ some retryVersion then (st, none)
      else
        let ready := (waiting.missingQueryIdVersions.filter (·.1 ≠ queryId)).isEmpty
        (st.setWaiting txnDigest none, if ready then some (txnDigest, waiting.call) else none)

/-- The result of a query is cached, and wakes the transaction that waits for it. -/
def cacheResult (q : CachedQuery) : MergeState × Option (Digest × MergeCall) :=
  { st with queryMetaData := update st.queryMetaData queryId (some q) }.wakeSubscribedTx queryId q.retryVersion

/-- As far as queries go: `UpdateCommittedReads`, and `Clean`. -/
def commit (txnDigest : Digest) (txn : Transaction) (proof : CommittedProof) :
    MergeState :=
  ((st.mergeTxReadSets p txnDigest txn (.commit proof)).elim st fun r => r.2.1).setWaiting txnDigest none

end

end MergeState

end Pequin
