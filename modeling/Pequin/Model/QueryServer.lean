import Pequin.Model.Types

/-!
# Queries at a replica

A replica keeps metadata for every query. A `Query` message creates it, a `Sync` message gives the snapshot to
execute on, and `ProcessSync` looks for the transactions of the snapshot that are not materialized yet. The query
waits for them; whoever materializes or aborts a transaction wakes the queries that wait for it. Client queries are
signed and read sets are cached (`signClientQueries` and `cacheReadSet`).

A critical section is one step. What a call still has to do after it released its locks is kept in `threads`, so
that other steps come in between. `ProcessSync` takes one step for every id of the snapshot and holds the locks of
its query meanwhile. A step that needs a lock which is taken, and a `Panic`, are `none`. Hashes are taken to be
injective, so the id of a query and `QueryRetryId` are pairs and tuples here.
-/

namespace Pequin.QueryServer

open Function

/-! ## Messages -/

inductive QueryId where
  | hash (clientId querySeqNum : Nat) (queryCmd : Bytes) (timestamp : Timestamp) (queryManager : Nat)
  | plain (clientId querySeqNum : Nat)
  deriving DecidableEq, Repr

/-- `QueryRetryId`: a query and a retry version. -/
abbrev RetryId := QueryId × Nat

/-- Retries come without the command. -/
structure Query where
  clientId : Nat
  querySeqNum : Nat
  queryCmd : Bytes
  timestamp : Timestamp
  queryManager : Nat := 0
  retryVersion : Nat := 0
  deriving DecidableEq, Repr

def queryDigest (hashDigest : Bool) (q : Query) : QueryId :=
  if hashDigest then .hash q.clientId q.querySeqNum q.queryCmd q.timestamp q.queryManager
  else .plain q.clientId q.querySeqNum

/-- `verifies` says that the signature is one of client `processId`. -/
structure QueryRequest where
  query : Query
  processId : Nat
  verifies : Bool
  isPoint : Bool := false
  eagerExec : Bool := false
  optimisticTxid : Option Bool := none
  designatedForReply : Bool := true
  deriving DecidableEq, Repr

/-- Transactions by their ids, or by their timestamps. -/
structure MergedSnapshot where
  queryDigest : QueryId
  clientId : Nat
  querySeqNum : Nat
  retryVersion : Nat := 0
  mergedTxns : List Digest := []
  mergedTs : List Nat := []
  deriving DecidableEq, Repr

structure SyncClientProposal where
  mergedSs : MergedSnapshot
  processId : Nat
  verifies : Bool
  designatedForReply : Bool := true
  deriving DecidableEq, Repr

/-- A transaction. It is taken to be signed by the client of its timestamp, as `VerifyClientProposal` requires. -/
structure Txn where
  clientId : Nat
  clientSeqNum : Nat
  timestamp : Timestamp
  lastQuerySeq : Option Nat := none
  querySet : List QueryId := []
  tableWrites : List (Bytes × Option (List Bytes)) := []
  deriving DecidableEq, Repr

/-- What another replica says of a transaction. -/
structure TxnInfo where
  abort : Bool := false
  /-- A commit proof, and whether it is valid. -/
  commitProof : Option (Txn × Bool) := none
  p1 : Option Txn := none
  deriving DecidableEq, Repr

structure Params where
  optimisticTxID : Bool
  signClientProposals : Bool
  hashDigest : Bool
  transactionDigest : Txn → Digest

/-- The client id goes to the lowest 12 bits, which have to be free. -/
def mergeTimestampId (t : Timestamp) : Option Nat :=
  if t.id ≤ 0xFFF && t.timestamp &&& 0xFFF = 0 then some (t.timestamp ||| t.id) else none

/-! ## State -/

structure P1MetaData where
  /-- `hasP1` and `result`. -/
  result : Option Result := none
  forceMaterialize : Bool := false
  alreadyForceMaterialized : Bool := false
  deriving DecidableEq, Repr

/-- What the replica knows of transactions. -/
structure TxnState where
  ongoing : Digest → Option Txn
  committed : List Digest
  aborted : List Digest
  materialized : List Digest
  /-- The table writes that are in the table store, with the digest that they were applied for. -/
  applied : List (Digest × List (Bytes × Option (List Bytes)))
  tsToTx : Nat → Option Digest
  p1MetaData : Digest → Option P1MetaData
  suppliedSync : List Digest

def TxnState.init : TxnState where
  ongoing := fun _ => none
  committed := []
  aborted := []
  materialized := []
  applied := []
  tsToTx := fun _ => none
  p1MetaData := fun _ => none
  suppliedSync := []

structure QueryMetaData where
  clientId : Nat
  querySeqNum : Nat
  retryVersion : Nat
  hasQuery : Bool
  queryCmd : Bytes := []
  ts : Timestamp := .genesis
  designatedForReply : Bool := false
  executedQuery : Bool := false
  /-- As it was received. -/
  mergedSsMsg : Option MergedSnapshot := none
  /-- What has become of its `merged_txns`. -/
  mergedTxns : List Digest := []
  startedSync : Bool := false
  waitingSync : Bool := false
  useOptimisticTxId : Bool := false
  isWaiting : Bool := false
  hasResult : Bool := false
  /-- The ids that `ProcessSync` still has to look at, while it holds the locks of the query. -/
  unchecked : Option (List Digest × List Nat) := none
  deriving DecidableEq, Repr

namespace QueryMetaData

variable (md : QueryMetaData)

def clearMetaData : QueryMetaData :=
  { md with
    executedQuery := false, hasResult := false, isWaiting := false, startedSync := false, waitingSync := false
    mergedSsMsg := none, mergedTxns := [] }

def setQuery (q : Query) : QueryMetaData := { md with hasQuery := true, queryCmd := q.queryCmd, ts := q.timestamp }

def registerWaitingSync (ss : MergedSnapshot) : QueryMetaData :=
  { md with waitingSync := true, mergedSsMsg := some ss, mergedTxns := ss.mergedTxns }

end QueryMetaData

structure MissingTxns where
  missingTxns : List Digest := []
  missingTs : List Nat := []
  deriving DecidableEq, Repr

def MissingTxns.isEmpty (m : MissingTxns) : Bool := m.missingTxns.isEmpty && m.missingTs.isEmpty

structure Execution where
  queryId : QueryId
  retryVersion : Nat
  queryCmd : Bytes
  ts : Timestamp
  /-- The snapshot, as it was received and as it is executed on. There is none if the query is executed eagerly. -/
  snapshot : Option (MergedSnapshot × List Digest)
  deriving DecidableEq, Repr

/-- What a thread has to do next, up to the end of a critical section. -/
inductive Action where
  | applyTableWrites (d : Digest) (x : Txn)
  | commitWithProof (d : Digest) (x : Txn)
  | updateWaitingQueries (d : Digest) (isAbort : Bool)
  | updateWaitingQueriesTS (t : Nat) (d : Digest) (isAbort : Bool)
  /-- The loops of `UpdateWaitingQueries` over the queries that still wait, and over those that are ready. -/
  | removeTxn (d : Digest) (r : RetryId)
  | wakeQuery (d : Digest) (isAbort : Bool) (r : RetryId)
  /-- The second loop of `UpdateWaitingQueriesTS`. -/
  | translateTS (t : Nat) (d : Digest) (isAbort : Bool) (r : RetryId)
  deriving DecidableEq, Repr

structure Server where
  txns : TxnState
  queryMetaData : QueryId → Option QueryMetaData
  queryMissingTxns : RetryId → Option MissingTxns
  waitingQueries : Digest → List RetryId
  waitingQueriesTS : Nat → List RetryId
  clientQueryWatermark : Nat → Option Nat
  alreadyDeleted : List QueryId
  threads : List (List Action)
  executions : List Execution

def Server.init : Server where
  txns := .init
  queryMetaData := fun _ => none
  queryMissingTxns := fun _ => none
  waitingQueries := fun _ => []
  waitingQueriesTS := fun _ => []
  clientQueryWatermark := fun _ => none
  alreadyDeleted := []
  threads := []
  executions := []

/-! ## Transactions -/

namespace TxnState

variable (s : TxnState)

section

variable (p : Params) (d : Digest) (x : Txn)

/-- Two transactions of one timestamp are a `Panic`. -/
def registerTxTS : Option TxnState :=
  if p.optimisticTxID then
    match mergeTimestampId x.timestamp with
    | none => none
    | some t =>
      match s.tsToTx t with
      | none => some { s with tsToTx := update s.tsToTx t (some d) }
      | some d' => if d' = d then some s else none
  else some s

/-- `VerifyClientProposal` creates the metadata of phase 1 if proposals are signed. -/
def addOngoing : Option TxnState :=
  (s.registerTxTS p d x).map fun s =>
    { s with
      ongoing := update s.ongoing d (some x)
      p1MetaData :=
        if p.signClientProposals then update s.p1MetaData d (some ((s.p1MetaData d).getD {}))
        else s.p1MetaData }

/-- `RegisterForceMaterialization` with `ForceMaterialization`, of a transaction that was abstained from. The flag says
whether to do so now. -/
def registerForceMaterialization : TxnState × Bool :=
  let c := (s.p1MetaData d).getD {}
  if c.result.isSome && !c.alreadyForceMaterialized then
    ({ s with p1MetaData := update s.p1MetaData d (some { c with alreadyForceMaterialized := true }) },
      c.result == some .abstain)
  else ({ s with p1MetaData := update s.p1MetaData d (some { c with forceMaterialize := true }) }, false)

/-- The result to go by, and whether to force the materialization. -/
def bufferP1Result (r : Result) (force : Bool) : TxnState × Result × Bool :=
  let c := (s.p1MetaData d).getD {}
  let r' := match c.result with
    | none => r
    | some old => if r = .wait || old = .wait then r else old
  let c' : P1MetaData := { c with result := some (if c.result.isSome && r = .wait then c.result.getD r else r') }
  let (c'', force') :=
    if force then
      ({ c' with alreadyForceMaterialized := true, forceMaterialize := false }, !c'.alreadyForceMaterialized)
    else ({ c' with forceMaterialize := false }, c'.forceMaterialize)
  ({ s with p1MetaData := update s.p1MetaData d (some c'') }, r', force')

/-- `ApplyTableWrites` up to the queries that wait. -/
def applyTableWrites : Option TxnState :=
  (s.registerTxTS p d x).map fun s =>
    { s with applied := s.applied ++ [(d, x.tableWrites)], materialized := s.materialized ++ [d] }

end

/-- What was prepared is purged if the transaction is aborted. -/
def clean (abort : Bool) (d : Digest) : TxnState :=
  { s with
    ongoing := update s.ongoing d none
    applied := if abort then s.applied.filter fun w => w.1 ≠ d else s.applied }

end TxnState

def checkWaitingQueries (p : Params) (d : Digest) (x : Txn) (isAbort : Bool) : Option (List Action) :=
  if p.optimisticTxID then
    (mergeTimestampId x.timestamp).map fun t => [.updateWaitingQueries d isAbort, .updateWaitingQueriesTS t d isAbort]
  else some [.updateWaitingQueries d isAbort]

namespace Server

variable (s : Server)

def addThread (actions : List Action) : Server := { s with threads := s.threads ++ [actions] }

variable (q : QueryId)

/-- The query is locked by `ProcessSync`. -/
def locked : Bool := (s.queryMetaData q).any fun md => md.unchecked.isSome

/-- The missing transactions are locked by `ProcessSync`. -/
def lockedMissing (r : RetryId) : Bool :=
  (s.queryMetaData r.1).any fun md => md.unchecked.isSome && md.retryVersion == r.2

def setQueryMetaData (md : QueryMetaData) : Server :=
  { s with queryMetaData := update s.queryMetaData q (some md) }

def setMissing (r : RetryId) (m : Option MissingTxns) : Server :=
  { s with queryMissingTxns := update s.queryMissingTxns r m }

/-! ## Materialization -/

def registerForceMaterialization (d : Digest) (x : Txn) : Server :=
  let r := s.txns.registerForceMaterialization d
  let s := { s with txns := r.1 }
  if r.2 then s.addThread [.applyTableWrites d x] else s

/-- A query and its missing transactions, locked. -/
structure Locked where
  server : Server
  md : QueryMetaData
  missing : MissingTxns

/-- `CheckPresence` for a transaction, with `WaitForMaterialization`. Requests to other replicas have no effect
here. -/
def checkPresence (r : RetryId) (d : Digest) (l : Locked) : Locked × Bool :=
  let s := l.server
  let isFinal := decide (d ∈ s.txns.committed) || decide (d ∈ s.txns.aborted)
  let md :=
    if d ∉ s.txns.committed && d ∈ s.txns.aborted then { l.md with mergedTxns := l.md.mergedTxns.filter (· ≠ d) }
    else l.md
  if d ∈ s.txns.materialized then ({ l with md := md }, true)
  else
    let s := { s with waitingQueries := update s.waitingQueries d (r :: s.waitingQueries d) }
    let s :=
      match s.txns.ongoing d with
      | some x => if isFinal then s else s.registerForceMaterialization d x
      | none => s
    (⟨s, md, { l.missing with missingTxns := d :: l.missing.missingTxns }⟩, false)

/-- `CheckPresence` for a timestamp, with `WaitForTX`. -/
def checkPresenceTS (r : RetryId) (t : Nat) (l : Locked) : Locked × Bool :=
  match l.server.txns.tsToTx t with
  | some d =>
    let md := if d ∈ l.server.txns.aborted then l.md else { l.md with mergedTxns := d :: l.md.mergedTxns }
    checkPresence r d { l with md := md }
  | none =>
    let s := l.server
    (⟨{ s with waitingQueriesTS := update s.waitingQueriesTS t (r :: s.waitingQueriesTS t) }, l.md,
      { l.missing with missingTs := t :: l.missing.missingTs }⟩, false)

/-- The query is executed. -/
def handleSyncCallback (md : QueryMetaData) : Server :=
  let s := s.setQueryMetaData q { md with isWaiting := false, hasResult := true }
  { s with
    executions := s.executions ++
      [⟨q, md.retryVersion, md.queryCmd, md.ts, md.mergedSsMsg.map fun ss => (ss, md.mergedTxns)⟩] }

/-- `ProcessSync` up to its loops. -/
def processSync (ss : MergedSnapshot) (md : QueryMetaData) : Option Server :=
  let r : RetryId := (q, md.retryVersion)
  if (s.queryMissingTxns r).isSome then none
  else
    let md := { md with
      mergedSsMsg := some ss, mergedTxns := ss.mergedTxns, isWaiting := true
      unchecked := some (if md.useOptimisticTxId then ([], ss.mergedTs) else (ss.mergedTxns, [])) }
    some ((s.setMissing r (some {})).setQueryMetaData q md)

/-- The locks are released, or the query goes on. -/
def Locked.store (l : Locked) : Server :=
  (l.server.setMissing (q, l.md.retryVersion) (some l.missing)).setQueryMetaData q l.md

/-- The next step of `ProcessSync`. (`fullyMaterialized` says that nothing is missing.) -/
def processNext : Option Server :=
  match s.queryMetaData q with
  | none => none
  | some md =>
    let r : RetryId := (q, md.retryVersion)
    match s.queryMissingTxns r, md.unchecked with
    | some m, some (d :: ds, ts) =>
      some ((checkPresence r d ⟨s, { md with unchecked := some (ds, ts) }, m⟩).1.store q)
    | some m, some ([], t :: ts) =>
      some ((checkPresenceTS r t ⟨s, { md with unchecked := some ([], ts) }, m⟩).1.store q)
    | some m, some ([], []) =>
      let md := { md with unchecked := none }
      if m.isEmpty then some ((s.setMissing r none).handleSyncCallback q md)
      else some (s.setQueryMetaData q md)
    | _, _ => none

/-! ## Client messages -/

/-- Below the watermark of the client. -/
def belowWatermark (clientId querySeqNum : Nat) : Bool :=
  (s.clientQueryWatermark clientId).any fun w => decide (querySeqNum ≤ w)

/-- A new retry version resets the metadata. -/
def updateRetryVersion (retryVersion : Nat) (md : QueryMetaData) : Server × QueryMetaData :=
  if md.retryVersion < retryVersion then
    (s.setMissing (q, md.retryVersion) none, { md.clearMetaData with retryVersion := retryVersion })
  else (s, md)

/-- The query is old, or was executed or synced already. -/
def outdated (q : Query) (md : QueryMetaData) : Bool :=
  if q.retryVersion = 0 && !md.hasQuery then false
  else if q.retryVersion < md.retryVersion then true
  else q.retryVersion == md.retryVersion && (md.executedQuery || md.startedSync && !md.waitingSync)

def verifyClientQuery (m : QueryRequest) : Bool := m.query.timestamp.id == m.processId && m.verifies

/-- `HandleQuery` from step 7 on: the query is executed eagerly, a snapshot is found for it (`ProcessQuery`), or one
that came first is processed. -/
def executeQuery (m : QueryRequest) (md : QueryMetaData) : Option Server :=
  let md := { md with
    useOptimisticTxId := m.optimisticTxid.getD md.useOptimisticTxId, designatedForReply := m.designatedForReply }
  if md.waitingSync then
    match md.mergedSsMsg with
    | some ss => s.processSync q ss md
    | none => none
  else if m.eagerExec then
    let s := s.setQueryMetaData q { md with executedQuery := true, hasResult := true }
    some { s with executions := s.executions ++ [⟨q, md.retryVersion, md.queryCmd, md.ts, none⟩] }
  else some (s.setQueryMetaData q { md with executedQuery := md.designatedForReply || md.executedQuery })

/-- `HandleQuery` from step 5 on. A retry may come before the command. -/
def acceptQuery (m : QueryRequest) (md : QueryMetaData) : Option Server :=
  let md := if m.query.queryCmd.isEmpty then md else md.setQuery m.query
  let (s, md) := s.updateRetryVersion q m.query.retryVersion md
  if !md.hasQuery then some (s.setQueryMetaData q md) else s.executeQuery q m md

variable (p : Params)

/-- Point queries that are not eager keep no metadata. -/
def handleQuery (m : QueryRequest) : Option Server :=
  let q := queryDigest p.hashDigest m.query
  if s.belowWatermark m.query.clientId m.query.querySeqNum then some s
  else if s.locked q then none
  else if (s.queryMetaData q).any (outdated m.query) then some s
  else if !verifyClientQuery m then some s
  else if m.isPoint && !m.eagerExec then some s
  else
    s.acceptQuery q m
      ((s.queryMetaData q).getD
        { clientId := m.query.clientId, querySeqNum := m.query.querySeqNum, retryVersion := m.query.retryVersion
          hasQuery := !m.query.queryCmd.isEmpty, queryCmd := m.query.queryCmd, ts := m.query.timestamp })

/-- `HandleSync` from step 5 on. -/
def acceptSync (m : SyncClientProposal) (md : QueryMetaData) : Option Server :=
  let ss := m.mergedSs
  let q := ss.queryDigest
  let (s, md) := s.updateRetryVersion q ss.retryVersion md
  let md := { md with startedSync := true, designatedForReply := m.designatedForReply }
  if md.hasQuery then s.processSync q ss md else some (s.setQueryMetaData q (md.registerWaitingSync ss))

/-- With `VerifyClientSyncProposal`. An invalid signature is a `Panic`. -/
def handleSync (m : SyncClientProposal) : Option Server :=
  let ss := m.mergedSs
  if s.belowWatermark ss.clientId ss.querySeqNum then some s
  else if s.locked ss.queryDigest then none
  else if (s.queryMetaData ss.queryDigest).any fun md =>
      decide (ss.retryVersion < md.retryVersion) || ss.retryVersion == md.retryVersion && md.startedSync then some s
  else if !m.verifies then none
  else
    s.acceptSync m
      ((s.queryMetaData ss.queryDigest).getD
        { clientId := ss.clientId, querySeqNum := ss.querySeqNum, retryVersion := 0, hasQuery := false })

/-! ## Commits and aborts -/

/-- The loop of `CleanQueries`: a query that is deleted twice is a `Panic`. -/
def cleanQuery : Option Server :=
  match s.queryMetaData q with
  | none => some s
  | some md =>
    if s.locked q || q ∈ s.alreadyDeleted then none
    else some { s.setMissing (q, md.retryVersion) none with
      queryMetaData := update s.queryMetaData q none
      alreadyDeleted := q :: s.alreadyDeleted }

def cleanQueries (x : Txn) : Option Server :=
  match x.lastQuerySeq with
  | none => some s
  | some n =>
    let s := { s with
      clientQueryWatermark := update s.clientQueryWatermark x.clientId
        (some (max n ((s.clientQueryWatermark x.clientId).getD 0))) }
    x.querySet.foldlM cleanQuery s

variable (d : Digest)

/-- `Commit` and `CommitWithProof`. -/
def commit (x : Txn) : Option Server :=
  if d ∈ s.txns.committed then some s
  else
    let t := { s.txns with committed := s.txns.committed ++ [d] }
    cleanQueries ({ s with txns := t.clean false d }.addThread [.applyTableWrites d x]) x

def abort (x : Txn) : Option Server :=
  let t := { s.txns with aborted := s.txns.aborted ++ [d] }
  (cleanQueries { s with txns := t.clean true d } x).bind fun s =>
    (checkWaitingQueries p d x true).map fun actions =>
      { s with txns := { s.txns with materialized := s.txns.materialized ++ [d] } }.addThread actions

/-- `HandleWriteback`, of a transaction with a valid certificate. -/
def handleWriteback (x : Txn) (decision : CommitDecision) : Option Server :=
  if d ∈ s.txns.committed || d ∈ s.txns.aborted then some { s with txns := s.txns.clean false d }
  else
    (s.txns.registerTxTS p d x).bind fun t =>
      match decision with
      | .commit => commit { s with txns := t } d x
      | .abort => abort { s with txns := t } p d x

/-- `HandlePhase1CB`, and the same part of the fallback, which cleans up what is to be ignored. `COMMIT` and `WAIT`
come with a `Prepare`. -/
def handlePhase1CB (r : Result) (force : Bool) : Option Server :=
  match s.txns.ongoing d with
  | none => some s
  | some x =>
    if r = .ignore then
      let t := s.txns.clean true d
      some { s with
        txns := { t with aborted := t.aborted ++ [d], p1MetaData := update t.p1MetaData d none } }
    else
      let s := if r = .commit || r = .wait then s.addThread [.applyTableWrites d x] else s
      let (t, r, force) := s.txns.bufferP1Result d r force
      let s := { s with txns := t }
      some (if force && r == .abstain then s.addThread [.applyTableWrites d x] else s)

/-! ## Transactions of other replicas -/

/-- Proofs of an abort go through `HandleWriteback`, which is a step of its own. -/
def processSuppliedTxn (info : TxnInfo) : Option Server :=
  if d ∈ s.txns.suppliedSync then some s
  else
    let s := { s with txns := { s.txns with suppliedSync := s.txns.suppliedSync ++ [d] } }
    if d ∈ s.txns.committed || d ∈ s.txns.aborted || info.abort then some s
    else
      match info.commitProof with
      | some (x, valid) =>
        if x.clientId = 0 && x.clientSeqNum = 0 then
          (mergeTimestampId x.timestamp).map fun t =>
            s.addThread [.updateWaitingQueries d false, .updateWaitingQueriesTS t d false]
        else if d = p.transactionDigest x && valid then some (s.addThread [.commitWithProof d x])
        else none
      | none =>
        match info.p1 with
        | none => none
        | some x =>
          if (s.txns.p1MetaData d).isSome then
            if p.signClientProposals then (s.txns.ongoing d).map (s.registerForceMaterialization d)
            else some (s.registerForceMaterialization d x)
          else if d = p.transactionDigest x then
            (s.txns.addOngoing p d x).map fun t => { s with txns := t }
          else none

/-! ## Waking queries -/

/-- `UpdateWaitingQueries` for one query, under the locks of the transaction and of the missing transactions. -/
def updateWaiting (isAbort : Bool) (a : Server × List Action) (r : RetryId) : Server × List Action :=
  match a.1.queryMissingTxns r with
  | none => a
  | some m =>
    let m' := { m with missingTxns := m.missingTxns.filter (· ≠ d) }
    let s := a.1.setMissing r (some m')
    if d ∈ m.missingTxns && m'.isEmpty then (s, a.2 ++ [.wakeQuery d isAbort r])
    else if isAbort then (s, .removeTxn d r :: a.2)
    else (s, a.2)

/-- `UpdateWaitingQueriesTS` for one query, up to the point where the locks are released. -/
def updateWaitingTS (t : Nat) (d : Digest) (isAbort : Bool) (a : Server × List Action) (r : RetryId) :
    Server × List Action :=
  match a.1.queryMissingTxns r with
  | none => a
  | some m =>
    let s := a.1.setMissing r (some { m with missingTs := m.missingTs.filter (· ≠ t) })
    if t ∈ m.missingTs then (s, a.2 ++ [.translateTS t d isAbort r]) else (s, a.2)

/-- The metadata of a query that waits in a retry version. -/
def waitingQuery (r : RetryId) : Option QueryMetaData :=
  (s.queryMetaData r.1).filter fun md => md.isWaiting && md.retryVersion == r.2

/-- `merged_txns` without a transaction that is aborted, or with one that is found. -/
def resolveTxn (isAbort : Bool) (md : QueryMetaData) : QueryMetaData :=
  { md with mergedTxns := if isAbort then md.mergedTxns.filter (· ≠ d) else d :: md.mergedTxns }

/-- The rest of `UpdateWaitingQueriesTS` for one query. -/
def translateTS (isAbort : Bool) (r : RetryId) : Server :=
  match s.waitingQuery r with
  | none => s
  | some md =>
    let md := resolveTxn d isAbort md
    match s.queryMissingTxns r with
    | none => s.setQueryMetaData r.1 md
    | some m =>
      let (l, isFinished) := checkPresence r d ⟨s, md, m⟩
      if l.missing.isEmpty && isFinished then (l.server.setMissing r (some l.missing)).handleSyncCallback r.1 l.md
      else l.store r.1

/-- An action: what is left of it to do. -/
def runAction : Action → Option (Server × List Action)
  | .applyTableWrites d x =>
    (s.txns.applyTableWrites p d x).bind fun t =>
      (checkWaitingQueries p d x false).map fun actions => ({ s with txns := t }, actions)
  | .commitWithProof d x => (s.commit d x).map (·, [])
  | .updateWaitingQueries d isAbort =>
    if (s.waitingQueries d).any s.lockedMissing then none
    else
      some ((s.waitingQueries d).foldl (updateWaiting d isAbort)
        ({ s with waitingQueries := update s.waitingQueries d [] }, []))
  | .updateWaitingQueriesTS t d isAbort =>
    if (s.waitingQueriesTS t).any s.lockedMissing then none
    else
      some ((s.waitingQueriesTS t).foldl (updateWaitingTS t d isAbort)
        ({ s with waitingQueriesTS := update s.waitingQueriesTS t [] }, []))
  | .removeTxn d r =>
    if s.locked r.1 then none
    else
      match s.waitingQuery r with
      | none => some (s, [])
      | some md => some (s.setQueryMetaData r.1 { md with mergedTxns := md.mergedTxns.filter (· ≠ d) }, [])
  | .wakeQuery d isAbort r =>
    if s.locked r.1 then none
    else
      match s.waitingQuery r with
      | none => some (s, [])
      | some md =>
        let md := if isAbort then { md with mergedTxns := md.mergedTxns.filter (· ≠ d) } else md
        some (s.handleSyncCallback r.1 md, [])
  | .translateTS _ d isAbort r => if s.locked r.1 then none else some (s.translateTS d isAbort r, [])

/-- The first action of a thread. -/
def runThread (i : Nat) : Option Server :=
  match s.threads[i]? with
  | some (a :: rest) => (runAction s p a).map fun r => { r.1 with threads := r.1.threads.set i (r.2 ++ rest) }
  | _ => none

end Server

/-! ## Steps -/

inductive Event where
  | query (m : QueryRequest)
  | sync (m : SyncClientProposal)
  | process (q : QueryId)
  /-- A proposal that was verified. -/
  | phase1 (x : Txn)
  | phase1CB (d : Digest) (r : Result) (force : Bool)
  /-- A `Writeback` with a valid certificate. -/
  | writeback (x : Txn) (decision : CommitDecision)
  | supply (d : Digest) (info : TxnInfo)
  | thread (i : Nat)
  deriving DecidableEq, Repr

def Server.step (p : Params) (s : Server) : Event → Option Server
  | .query m => s.handleQuery p m
  | .sync m => s.handleSync m
  | .process q => s.processNext q
  | .phase1 x => (s.txns.addOngoing p (p.transactionDigest x) x).map fun t => { s with txns := t }
  | .phase1CB d r force => s.handlePhase1CB d r force
  | .writeback x decision => s.handleWriteback p (p.transactionDigest x) x decision
  | .supply d info => s.processSuppliedTxn p d info
  | .thread i => s.runThread p i

end Pequin.QueryServer
