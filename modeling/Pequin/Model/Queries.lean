import Pequin.Model.ConcurrencyControl
import Pequin.Model.Digest
import Pequin.Model.Reads

/-!
# Queries

The part of `ShardClient` that runs range queries (`querysync-client.cc`): `Query`, `RetryQuery` and
`ClearQuery`, and the handlers `HandleQueryResult` and `HandleFailQuery`. A query is executed eagerly, or
on a snapshot after `SyncReplicas`, or eagerly first and on a snapshot if the replies do not match
(`eagerPlusSnapshot`). Proofs are validated and messages signed.

Replies are matched by the hash of their read sets and by their results. Whether the merged snapshot is
complete is an input. A `Panic` and a failed assertion end the process and are `none` here.
-/

namespace Pequin

/-! ## Messages -/

/-- `proto::ReadSet` of a query result, with the column values of the instantiations of its predicates,
which only the hash looks at. -/
structure ResultReadSet extends ReadSet where
  instantiations : List Bytes := []
  deriving DecidableEq, Repr

/-- Of the local snapshot only the replica id is kept. -/
structure QueryResult where
  querySeqNum : Nat
  clientId : Nat
  replicaId : Nat
  queryResult : Bytes
  queryResultHash : Bytes := []
  queryReadSet : Option ResultReadSet := none
  localSs : Option Nat := none
  deriving DecidableEq, Repr

structure QueryResultReply where
  reqId : Nat
  signedResult : Option SignedBytes
  deriving DecidableEq, Repr

structure FailQuery where
  reqId : Nat
  signedFail : Option SignedBytes
  deriving DecidableEq, Repr

/-- What the shard client of a group is started with, and what it calls. -/
structure QueryParams where
  config : Configuration
  group : Nat
  clientId : Nat
  resultQuorum : Nat
  syncMessages : Nat
  queryMessages : Nat
  cacheReadSet : Bool
  eagerExec : Bool
  eagerPlusSnapshot : Bool
  simulateFailEagerPlusSnapshot : Bool
  optimisticTxID : Bool
  /-- `Verifier::Verify` under the public key of a process. -/
  verify : Nat → Bytes → Bytes → Bool
  /-- `QueryResult::ParseFromString`. -/
  parseResult : Bytes → Option QueryResult
  /-- The replica id of what `FailQueryMsg::ParseFromString` leaves. -/
  parseFail : Bytes → Option Nat
  /-- BLAKE3. -/
  hash : Bytes → Bytes

/-! ## Matching results -/

/-- What `generateReadSetSingleHash` hashes of a read. -/
def ReadMessage.hashed (r : ReadMessage) : Bytes :=
  r.key ++ u64Bytes (.ofNat r.readtime.id) ++ u64Bytes (.ofNat r.readtime.timestamp)

/-- What it hashes of a read set: the reads, and the instantiations of the predicates. -/
def ResultReadSet.hashed (rs : ResultReadSet) : Bytes :=
  rs.readSet.flatMap ReadMessage.hashed ++ rs.instantiations.flatten

namespace QueryResult

/-- The read set, sorted by key and without duplicates. -/
def sortedReadSet (r : QueryResult) : ResultReadSet :=
  let rs := r.queryReadSet.getD ⟨⟨[], [], []⟩, []⟩
  { rs with readSet := sortReads rs.readSet }

/-- What a result is matched by: the hash of its read set, and the result. With `cacheReadSet` the
replica sends the hash. -/
def key (p : QueryParams) (r : QueryResult) : Bytes × Bytes :=
  (if p.cacheReadSet then r.queryResultHash else p.hash r.sortedReadSet.hashed, r.queryResult)

end QueryResult

structure ResultMgr where
  freq : Nat := 0
  depCandidates : AList (fun _ : Digest => Nat) := ∅
  minTableVersions : Nat → Option Timestamp := fun _ => none

namespace ResultMgr

variable (p : QueryParams)

/-- The table version of the predicate at `idx`, in one more reply. -/
def noteVersion (idx : Nat) (version : Timestamp) (mgr : ResultMgr) : ResultMgr :=
  { mgr with
    minTableVersions := Function.update mgr.minTableVersions idx
      (some (match mgr.minTableVersions idx with
        | none => version
        | some currMin => if version < currMin then version else currMin)) }

/-- The final table version of a predicate. Both assignments are to the id. -/
def setVersion (currMin version : Timestamp) : Timestamp :=
  let version := { version with id := currMin.id }
  { version with id := currMin.timestamp }

/-- The predicates of one more reply in eager mode. On the reply that completes the quorum, their
versions are set from the minima. -/
def noteVersions (complete : Bool) : Nat → List ReadPredicate → ResultMgr → ResultMgr × List ReadPredicate
  | _, [], mgr => (mgr, [])
  | idx, pred :: preds, mgr =>
    let mgr := mgr.noteVersion idx pred.tableVersion
    let version := match mgr.minTableVersions idx with
      | some currMin => if complete then setVersion currMin pred.tableVersion else pred.tableVersion
      | none => pred.tableVersion
    let rest := mgr.noteVersions complete (idx + 1) preds
    (rest.1, { pred with tableVersion := version } :: rest.2)

/-- The votes for dependencies in one more reply. -/
def noteDeps (deps : List Dependency) (mgr : ResultMgr) : ResultMgr :=
  { mgr with
    depCandidates := deps.foldl (fun m dep =>
      m.insert dep.preparedTxnDigest ((m.lookup dep.preparedTxnDigest).getD 0 + 1)) mgr.depCandidates }

/-- The dependencies with enough votes. -/
def selectDeps (mgr : ResultMgr) : List Dependency :=
  ((mgr.depCandidates.entries.insertionSort fun a b => a.1 ≤ b.1).filter fun e => 2 * p.config.f + 1 ≤ e.2).map
    fun e => ⟨e.1, .genesis, p.group⟩

/-- One more matching result, and the read set that is handed up with it. -/
def count (eager : Bool) (r : QueryResult) (mgr : ResultMgr) : ResultMgr × Option ResultReadSet :=
  let mgr := { mgr with freq := mgr.freq + 1 }
  if p.cacheReadSet then (mgr, r.queryReadSet)
  else
    let rs := r.sortedReadSet
    let complete := mgr.freq == p.resultQuorum
    let noted := if eager then mgr.noteVersions complete 0 rs.readPredicates else (mgr, rs.readPredicates)
    let mgr := noted.1.noteDeps rs.deps
    if complete then
      ({ mgr with depCandidates := ∅ }, some { rs with readPredicates := noted.2, deps := mgr.selectDeps p })
    else (mgr, some { rs with readPredicates := noted.2 })

end ResultMgr

/-! ## Pending queries -/

structure PendingQuery where
  querySeqNum : Nat
  retryVersion : Nat := 0
  done : Bool := false
  eagerMode : Bool
  snapshotMode : Bool
  syncStarted : Bool := false
  numDesignatedReplies : Nat
  numFails : Nat := 0
  resultsVerified : List Nat := []
  /-- By the hash of the read set and the result. -/
  resultFreq : AList (fun _ : Bytes × Bytes => ResultMgr) := ∅

/-- The arguments of the result callback. -/
structure QueryUpcall where
  reqId : Nat
  querySeqNum : Nat
  /-- `REPLY_OK`. -/
  success : Bool
  readSet : Option ResultReadSet
  resultHash : Bytes
  result : Bytes
  deriving DecidableEq, Repr

section Handlers

variable (p : QueryParams)

/-- A result that is authentic: the signature verifies, and its signer is the replica it names. -/
def SignedBytes.openResult (m : SignedBytes) : Option QueryResult :=
  if p.verify m.processId m.data m.signature then
    (p.parseResult m.data).filter fun r => r.replicaId == m.processId
  else none

/-- The replica that a signed failure names, which may be another than its signer. -/
def SignedBytes.openFail (m : SignedBytes) : Option Nat :=
  if p.verify m.processId m.data m.signature then p.parseFail m.data else none

/-- How many replies a query waits for, where it has asked for `replies`. The maximum is taken over
`uint64_t` and assigned to an `int`. -/
def maxWait (replies : Nat) (noBonus : Bool) : Int :=
  Int.bmod (max ((replies + 2 ^ 64 - p.config.f) % 2 ^ 64)
    (if noBonus then p.resultQuorum else p.resultQuorum + p.config.f)) (2 ^ 32)

variable (q : PendingQuery)

namespace PendingQuery

/-- `RequestQuery`: the first version is executed eagerly, if at all. -/
def request : PendingQuery :=
  let eager := q.retryVersion == 0 && p.eagerExec
  { q with
    eagerMode := eager
    snapshotMode := !eager
    numDesignatedReplies :=
      if !eager then p.queryMessages
      else if !p.eagerPlusSnapshot then p.syncMessages
      else max p.queryMessages p.syncMessages }

/-- The reset of `RetryQuery`. -/
def retry : PendingQuery :=
  request p { q with
    syncStarted := false
    resultsVerified := []
    numFails := 0
    resultFreq := ∅
    retryVersion := q.retryVersion + 1 }

/-- What was counted in eager mode is dropped. -/
def syncReplicas : PendingQuery :=
  let q := if p.eagerPlusSnapshot then
      { q with resultsVerified := [], resultFreq := ∅, numFails := 0, eagerMode := false, snapshotMode := true }
    else q
  { q with
    syncStarted := true
    numDesignatedReplies :=
      min p.config.n (p.syncMessages + if p.optimisticTxID && q.retryVersion == 0 then p.config.f else 0) }

/-- The flag `merged` says that the merged snapshot is complete. -/
def checkSyncStart (merged : Bool) (q : PendingQuery) : PendingQuery :=
  if !q.syncStarted && merged && q.snapshotMode then q.syncReplicas p else q

/-- The end of `HandleQueryResult`, without a quorum: wait, fail, or go on with the snapshot. -/
def unmatched (reqId : Nat) (r : QueryResult) (readSet : Option ResultReadSet) (merged : Bool) :
    Option (PendingQuery × Option QueryUpcall) :=
  let noBonus := p.eagerExec && q.eagerMode || p.optimisticTxID && decide (0 < q.retryVersion)
  if q.eagerMode && p.eagerPlusSnapshot && q.retryVersion == 0 && r.localSs.isSome then
    let wait := maxWait p p.syncMessages noBonus
    if q.numDesignatedReplies ≠ p.queryMessages ∨ p.queryMessages < p.syncMessages ∨ wait ≤ 0 then none
    else
      let q := if q.resultsVerified.length = wait then { q with snapshotMode := true } else q
      some (if r.localSs = some r.replicaId then q.checkSyncStart p merged else q, none)
  else
    let wait := maxWait p q.numDesignatedReplies noBonus
    if wait ≤ 0 then none
    else if q.resultsVerified.length = wait then
      some (q, some ⟨reqId, q.querySeqNum, false, readSet, r.queryResultHash, r.queryResult⟩)
    else some (q, none)

/-- The results that have a hash. Two end the process. -/
def resultsOf (hash : Bytes) : List ((_ : Bytes × Bytes) × ResultMgr) :=
  q.resultFreq.entries.filter fun e => e.1.1 == hash

/-- For a reply that is signed. -/
def handleQueryResult (reqId : Nat) (m : SignedBytes) (merged : Bool) : Option (PendingQuery × Option QueryUpcall) :=
  match m.openResult p with
  | none => some (q, none)
  | some r =>
    if !q.eagerMode && r.localSs.isSome then some (q, none)
    else if !isReplicaInGroup p.config r.replicaId p.group then some (q, none)
    else if r.replicaId ∈ q.resultsVerified then some (q, none)
    else
      let counted := ((q.resultFreq.lookup (r.key p)).getD {}).count p q.eagerMode r
      let q := { q with
        resultsVerified := r.replicaId :: q.resultsVerified
        resultFreq := q.resultFreq.insert (r.key p) counted.1 }
      if 1 < (q.resultsOf (r.key p).1).length then none
      else if !(p.simulateFailEagerPlusSnapshot && p.eagerPlusSnapshot && q.eagerMode) &&
          counted.1.freq == p.resultQuorum then
        some ({ q with done := true }, some ⟨reqId, q.querySeqNum, true, counted.2, r.queryResultHash, r.queryResult⟩)
      else q.unmatched p reqId r counted.2 merged

/-- For a reply that is signed. -/
def handleFailQuery (reqId : Nat) (m : SignedBytes) : PendingQuery × Option QueryUpcall :=
  match m.openFail p with
  | none => (q, none)
  | some replicaId =>
    if !isReplicaInGroup p.config replicaId p.group then (q, none)
    else if replicaId ∈ q.resultsVerified then (q, none)
    else
      let q := { q with resultsVerified := replicaId :: q.resultsVerified, numFails := q.numFails + 1 }
      let wait := maxWait p q.numDesignatedReplies (p.eagerExec || p.optimisticTxID && decide (0 < q.retryVersion))
      (q, if q.numFails = p.config.f + 1 ∨ q.resultsVerified.length = wait then
          some ⟨reqId, q.querySeqNum, false, none, [], []⟩
        else none)

end PendingQuery

end Handlers

/-! ## The shard client -/

/-- The queries of a shard client, and what it has called back. -/
structure QueryClient where
  lastReqId : Nat
  querySeqNumMapping : Nat → Option Nat
  pendingQueries : Nat → Option PendingQuery
  upcalls : List QueryUpcall

def QueryClient.init : QueryClient := ⟨0, fun _ => none, fun _ => none, []⟩

/-- What happens at the shard client. With a snapshot comes whether the merged one is complete. -/
inductive QueryEvent where
  | query (querySeqNum : Nat)
  | retryQuery (querySeqNum : Nat)
  | clearQuery (querySeqNum : Nat)
  | resultReply (reply : QueryResultReply) (merged : Bool)
  | failReply (reply : FailQuery)
  | syncReply (reqId : Nat) (merged : Bool)

namespace QueryClient

variable (p : QueryParams)

def active (s : QueryClient) (reqId : Nat) : Option PendingQuery :=
  (s.pendingQueries reqId).filter fun q => !q.done

/-- A handler has changed a query, and may have called back. -/
def update (s : QueryClient) (reqId : Nat) (r : PendingQuery × Option QueryUpcall) : QueryClient :=
  { s with
    pendingQueries := Function.update s.pendingQueries reqId (some r.1)
    upcalls := s.upcalls ++ r.2.toList }

def step (s : QueryClient) : QueryEvent → Option QueryClient
  | .query querySeqNum => some { s with
      lastReqId := s.lastReqId + 1
      querySeqNumMapping := Function.update s.querySeqNumMapping querySeqNum (some s.lastReqId)
      pendingQueries := Function.update s.pendingQueries s.lastReqId
        (some (PendingQuery.request p
          { querySeqNum := querySeqNum, eagerMode := false, snapshotMode := true, numDesignatedReplies := 0 })) }
  | .retryQuery querySeqNum =>
    match s.querySeqNumMapping querySeqNum with
    | none => none
    | some reqId => (s.pendingQueries reqId).map fun q =>
        { s with
          lastReqId := s.lastReqId + 1
          querySeqNumMapping := Function.update s.querySeqNumMapping querySeqNum (some s.lastReqId)
          pendingQueries := Function.update (Function.update s.pendingQueries reqId none) s.lastReqId
            (some (q.retry p)) }
  | .clearQuery querySeqNum =>
    match s.querySeqNumMapping querySeqNum with
    | none => some s
    | some reqId =>
      match s.pendingQueries reqId with
      | none => some s
      | some _ => some { s with
          querySeqNumMapping := Function.update s.querySeqNumMapping querySeqNum none
          pendingQueries := Function.update s.pendingQueries reqId none }
  | .resultReply reply merged =>
    match s.active reply.reqId with
    | none => some s
    | some q => reply.signedResult.bind fun m =>
        (q.handleQueryResult p reply.reqId m merged).map (s.update reply.reqId)
  | .failReply reply =>
    match s.active reply.reqId with
    | none => some s
    | some q => reply.signedFail.map fun m => s.update reply.reqId (q.handleFailQuery p reply.reqId m)
  | .syncReply reqId merged =>
    match s.active reqId with
    | none => some s
    | some q => some (s.update reqId (q.checkSyncStart p merged, none))

end QueryClient

end Pequin
