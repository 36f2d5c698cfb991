import Mathlib.Data.List.Sort
import Pequin.Model.Replica
import Pequin.Framework.Versions

/-!
# The concurrency control check

`DoOCCCheck` of `concurrencycontrol.cc` for MVTSO, with the indexes it reads and the functions of `server.cc` that
maintain them (`Prepare`, `Commit`, `Abort`, `Clean`), for all transactions at one replica. A transaction stands for
its digest; its merged read set is kept beside it (`CCState.merged`).

The checks that only turn a transaction away (watermark, table versions, read timestamps, dependencies, predicates) and
the cached query results are inputs (`CheckEnv`). Steps are atomic: the keys of a transaction are locked meanwhile.
-/

namespace Pequin

/-! ## Read sets of queries -/

/-- The parameters of the check at a replica. -/
structure CCParams where
  groupIdx : Nat
  /-- The partitioner maps the key to the group of the replica. -/
  isKeyOwned : Bytes → Bool
  cacheReadSet : Bool
  mergeActiveAtClient : Bool

/-- `QueryMetaData`: the result of a query that the replica has run. -/
structure CachedQuery where
  clientId : Nat
  retryVersion : Nat
  hasResult : Bool
  queryReadSet : Option ReadSet
  queryResultHash : Option Bytes
  failure : Bool

/-- What a check finds outside the indexes of this module. -/
structure CheckEnv where
  /-- `queryMetaData`. -/
  cache : Bytes → Option CachedQuery := fun _ => none
  /-- The transaction already waits for missing queries. -/
  subscribed : Bool := false
  /-- The timestamp is above the watermark, or below that of a table the transaction writes. -/
  rejected : Bool := false
  /-- A larger read timestamp is registered for the key. -/
  rtsLarger : Bytes → Bool := fun _ => false
  /-- What the dependencies and predicates come to, if not to COMMIT. -/
  refused : Option Result := none
  /-- The dependencies that the predicates have activated. -/
  dynamicDeps : List Dependency := []
  /-- What the dependencies come to, once the transaction is prepared. -/
  finish : Result := .commit

variable (p : CCParams)

/-- The read set of a query at this group. The result is `none` where the source ends the process. -/
def fetchReadSet (cache : Bytes → Option CachedQuery) (txn : Transaction)
    (query : QueryResultMetaData) : Option (Result × Option ReadSet) :=
  match query.groupMeta.lookup p.groupIdx with
  | none => some (.commit, none)
  | some md =>
    match md.queryReadSet, md.readSetHash, cache query.queryId with
    | some rs, _, _ => some (.commit, some rs)
    | none, none, _ => some (.ignore, none)
    | none, some _, none => some (.wait, none)
    | none, some hash, some q =>
      if !q.hasResult then some (.wait, none)
      else if q.clientId ≠ txn.clientId then none
      else if query.retryVersion < q.retryVersion then none
      else if query.retryVersion ≠ q.retryVersion then some (.wait, none)
      else
        match q.queryReadSet with
        | none => some (.abstain, none)
        | some rs =>
          if q.failure || q.queryResultHash != some hash then some (.abstain, none)
          else some (.commit, some rs)

/-- One more predicate. It is skipped if it has one instance, which is the first one of the predicate before. -/
def addPredicate (acc : List ReadPredicate) (pred : ReadPredicate) : List ReadPredicate :=
  if !acc.isEmpty && pred.predInstances.length == 1 &&
      pred.predInstances.head? == acc.getLast?.bind (fun last => last.predInstances.head?) then acc
  else acc ++ [pred]

/-- The predicates of a query are appended; those of a cached one from its end. -/
def mergePredicates (acc preds : List ReadPredicate) : List ReadPredicate :=
  if !p.cacheReadSet then acc ++ preds else preds.reverse.foldl addPredicate acc

/-- The loop of `mergeTxReadSets` over the queries. Once a query is missing, nothing more is
merged. -/
def mergeQueries (p : CCParams) (cache : Bytes → Option CachedQuery) (txn : Transaction) :
    List QueryResultMetaData → Bool → ReadSet → Option (Except Result (Bool × ReadSet))
  | [], missing, acc => some (.ok (missing, acc))
  | query :: rest, missing, acc =>
    match fetchReadSet p cache txn query with
    | none => none
    | some (.wait, _) => mergeQueries p cache txn rest true acc
    | some (.commit, some rs) =>
      mergeQueries p cache txn rest missing
        (if missing then acc
          else ⟨acc.readSet ++ rs.readSet, acc.deps ++ rs.deps, mergePredicates p acc.readPredicates rs.readPredicates⟩)
    | some (.commit, none) => mergeQueries p cache txn rest missing acc
    | some (res, _) => some (.error res)

/-- `std::unique`, where `a` is the last element kept. -/
def uniqueFrom {α : Type} (eq : α → α → Bool) (a : α) : List α → List α
  | [] => [a]
  | b :: l => if eq a b then uniqueFrom eq a l else a :: uniqueFrom eq b l

def unique {α : Type} (eq : α → α → Bool) : List α → List α
  | [] => []
  | a :: l => uniqueFrom eq a l

/-- `std::sort` by key and `std::unique`. Two versions of one key are kept. -/
def sortReads (l : List ReadMessage) : List ReadMessage :=
  unique (fun a b => a.key == b.key && a.readtime == b.readtime)
    (l.insertionSort fun a b => ¬ b.key < a.key)

/-- The same for dependencies. -/
def sortDeps (l : List Dependency) : List Dependency :=
  unique (fun a b => a.preparedTxnDigest == b.preparedTxnDigest && a.involvedGroup == b.involvedGroup)
    (l.insertionSort fun a b => ¬ if b.preparedTxnDigest = a.preparedTxnDigest
      then b.involvedGroup < a.involvedGroup else b.preparedTxnDigest < a.preparedTxnDigest)

/-- The merged read set, with the base read set attached. -/
def attachBase (txn : Transaction) (acc : ReadSet) : ReadSet :=
  if acc.readSet.isEmpty then ⟨txn.readSet, acc.deps ++ txn.deps, acc.readPredicates⟩
  else ⟨sortReads (acc.readSet ++ txn.readSet), sortDeps (acc.deps ++ txn.deps), acc.readPredicates⟩

/-- The result, and the merged read set if there is one. `merged` is the one the transaction has already. -/
def mergeTxReadSets (cache : Bytes → Option CachedQuery) (subscribed : Bool)
    (merged : Option ReadSet) (txn : Transaction) : Option (Result × Option ReadSet) :=
  if (!p.cacheReadSet && p.mergeActiveAtClient) || txn.querySet.isEmpty then some (.commit, none)
  else
    match merged with
    | some m => some (.commit, some m)
    | none =>
      if subscribed then some (.wait, none)
      else
        match mergeQueries p cache txn txn.querySet false ⟨[], [], []⟩ with
        | none => none
        | some (.error res) => some (res, none)
        | some (.ok (true, _)) => some (.wait, none)
        | some (.ok (false, acc)) =>
          if acc.readSet.isEmpty && acc.readPredicates.isEmpty then some (.commit, none)
          else some (.commit, some (attachBase txn acc))

/-! ## Locks -/

/-- A set of keys goes on with the same key. -/
def keyRepeats : List Bytes → Bool
  | a :: b :: _ => a == b
  | _ => false

/-- The loop of `LockTxnKeys_scoped`: the keys that are locked, in their order. -/
def lockKeys (readSet writeSet : List Bytes) : List Bytes :=
  if keyRepeats readSet then lockKeys readSet.tail writeSet
  else if keyRepeats writeSet then lockKeys readSet writeSet.tail
  else
    match readSet, writeSet with
    | [], [] => []
    | [], w :: writeSet => w :: lockKeys [] writeSet
    | r :: readSet, [] => r :: lockKeys readSet []
    | r :: readSet, w :: writeSet =>
      if r ≤ w then
        -- a key of both sets is locked once
        if r = w then r :: lockKeys readSet writeSet else r :: lockKeys readSet (w :: writeSet)
      else w :: lockKeys (r :: readSet) writeSet
  termination_by readSet.length + writeSet.length
  decreasing_by
    · cases readSet <;> simp_all [keyRepeats]
    · cases writeSet <;> simp_all [keyRepeats]
    all_goals grind

def lockTxnKeysScoped (txn : Transaction) (readSet : List ReadMessage) : List Bytes :=
  lockKeys (readSet.map (·.key)) (txn.writeSet.map (·.key))

/-! ## Indexes -/

structure CCState where
  ongoing : List Transaction := []
  prepared : List Transaction := []
  committed : List CommittedProof := []
  aborted : List Transaction := []
  merged : Transaction → Option ReadSet := fun _ => none
  /-- Per key, the prepared transactions that read it. -/
  preparedReads : Bytes → List Transaction := fun _ => []
  /-- Per key, the prepared transactions that write it, by timestamp. -/
  preparedWrites : Bytes → List (Timestamp × Transaction) := fun _ => []
  /-- Per key, the timestamps of committed readers, latest first, with the versions read. -/
  committedReads : Bytes → List (Timestamp × Timestamp × CommittedProof) := fun _ => []
  /-- Per key, the committed versions. -/
  store : Bytes → List (Timestamp × Bytes × CommittedProof) := fun _ => []

/-- A read set names a key of the group, and not as a table or column version. -/
def readsKey (reads : List ReadMessage) (k : Bytes) : Bool :=
  p.isKeyOwned k && reads.any fun r => !r.isTableColVersion && r.key == k

/-- A write set names a key of the group, and not as a table or column version. -/
def writesKey (writes : List WriteMessage) (k : Bytes) : Bool :=
  p.isKeyOwned k && writes.any fun w => !w.isTableColVersion && w.key == k

variable (st : CCState)

def CCState.prepare (txn : Transaction) (readSet : List ReadMessage) : CCState :=
  if !st.ongoing.contains txn || st.prepared.contains txn then st
  else
    { st with
      prepared := txn :: st.prepared
      preparedReads := fun k =>
        if readsKey p readSet k then (st.preparedReads k).insert txn else st.preparedReads k
      preparedWrites := fun k =>
        if writesKey p txn.writeSet k then Versions.insertNew txn.timestamp txn (st.preparedWrites k)
        else st.preparedWrites k }

/-- The reads of a prepared transaction are removed by its base read set. -/
def CCState.clean (txn : Transaction) (hard : Bool) : CCState :=
  let st' : CCState :=
    { st with
      ongoing := st.ongoing.filter (· ≠ txn)
      aborted := if hard && st.ongoing.contains txn then txn :: st.aborted else st.aborted }
  if st.prepared.contains txn then
    { st' with
      prepared := st.prepared.filter (· ≠ txn)
      preparedReads := fun k =>
        if readsKey p txn.readSet k then (st.preparedReads k).filter (· ≠ txn) else st.preparedReads k
      preparedWrites := fun k =>
        if txn.writeSet.any (fun w => w.key == k && (w.isTableColVersion || p.isKeyOwned k)) then
          Versions.erase txn.timestamp (st.preparedWrites k)
        else st.preparedWrites k }
  else st'

def CCState.abort (txn : Transaction) : CCState :=
  { st with aborted := txn :: st.aborted }.clean p txn false

/-- `readSet` is what the merge has returned. -/
def CCState.updateCommittedReads (proof : CommittedProof) (readSet : List ReadMessage) : CCState :=
  { st with
    committedReads := fun k =>
      if p.isKeyOwned k then
        (readSet.filter fun r => !r.isTableColVersion && r.key == k).foldl
          (fun l r => l.orderedInsert (fun a b => b.1 ≤ a.1) (proof.txn.timestamp, r.readtime, proof))
          (st.committedReads k)
      else st.committedReads k }

/-- The value stored for a key: that of its first write; the `val` of the source keeps the value of an earlier write
when a write has none. -/
def storedValue (p : CCParams) (k : Bytes) : List WriteMessage → Bytes → Option Bytes
  | [], _ => none
  | w :: rest, val =>
    if w.isTableColVersion || !p.isKeyOwned w.key then storedValue p k rest val
    else if w.key = k then some (w.value.getD val)
    else storedValue p k rest (w.value.getD val)

/-- The writes of `CommitToStore`. -/
def CCState.commitToStore (proof : CommittedProof) : CCState :=
  { st with
    store := fun k =>
      match storedValue p k proof.txn.writeSet [] with
      | some val => Versions.insertNew proof.txn.timestamp (val, proof) (st.store k)
      | none => st.store k }

/-- The merged read set is kept with the transaction. -/
def CCState.recordMerged (txn : Transaction) (m : Option ReadSet) : CCState :=
  match m with
  | some rs => { st with merged := Function.update st.merged txn (some rs) }
  | none => st

/-- The read set to work with. -/
def readSetOr (txn : Transaction) (m : Option ReadSet) : List ReadMessage := m.elim txn.readSet ReadSet.readSet

/-- `Commit` and `CommitWithProof`. If the read sets of queries cannot be merged, the base
read set is used. -/
def CCState.commit (env : CheckEnv) (proof : CommittedProof) : Option CCState :=
  if st.committed.any (fun q => q.txn == proof.txn) then some st
  else
    match mergeTxReadSets p env.cache env.subscribed (st.merged proof.txn) proof.txn with
    | none => none
    | some (_, m) =>
      let st := { st with committed := proof :: st.committed }.recordMerged proof.txn m
      some (((st.updateCommittedReads p proof (readSetOr proof.txn m)).commitToStore p proof).clean p
        proof.txn false)

/-! ## The check -/

/-- The vote for a result, and whether the transaction was prepared. -/
def occOutcome (res : Result) (prepares : Bool) : OccOutcome :=
  match res with
  | .commit => .commit
  | .wait => .wait prepares
  | .ignore => .ignore
  | _ => .abstain prepares

/-- The conflict with `GetPreceedingPreparedWrite`. The exemption for deletions is never granted: `exempt` is only set
to `false`. -/
def checkPreparedWrite (ts : Timestamp) (read : ReadMessage) : Option OccOutcome :=
  match Versions.latestBefore ts (st.preparedWrites read.key) with
  | some (preparedTs, _) => if read.readtime < preparedTs then some (.abstain false) else none
  | none => none

/-- One entry of the read set. A deleted row is read at the genesis version; the exemption skips
the prepared writes too. -/
def checkRead (ts : Timestamp) (read : ReadMessage) : Option OccOutcome :=
  if read.isTableColVersion || !p.isKeyOwned read.key then none
  else
    match Versions.latestBefore ts (st.store read.key) with
    | some (committedTs, val, proof) =>
      if read.readtime = .genesis ∧ val = deletionMark then none
      else if read.readtime < committedTs then some (.conflict proof)
      else checkPreparedWrite st ts read
    | none => checkPreparedWrite st ts read

/-- The loop over the committed reads of a key, from the latest reader down. -/
def scanCommittedReads (ts : Timestamp) (deletion : Bool) :
    List (Timestamp × Timestamp × CommittedProof) → Option CommittedProof
  | [] => none
  | (readerTs, readTs, proof) :: rest =>
    if readerTs ≤ ts then none
    else if readTs < ts then
      if readTs = .genesis ∧ deletion then scanCommittedReads ts deletion rest else some proof
    else scanCommittedReads ts deletion rest

section

variable (env : CheckEnv) (ts : Timestamp) (w : WriteMessage) (txn : Transaction)

/-- A prepared reader that a write conflicts with: the version read is looked up in the base
read set, by the first entry for the key. -/
def conflictsPreparedRead (reader : Transaction) : Bool :=
  decide (ts < reader.timestamp) &&
  match reader.readSet.find? (fun r => r.key == w.key) with
  | some r => decide (r.readtime < ts) && !(decide (r.readtime = .genesis) && w.isDeletion)
  | none => false

def checkWrite : Option OccOutcome :=
  if w.isTableColVersion || !p.isKeyOwned w.key then none
  else
    match scanCommittedReads ts w.isDeletion (st.committedReads w.key) with
    | some proof => some (.conflict proof)
    | none =>
      if (st.preparedReads w.key).any (conflictsPreparedRead ts w) || env.rtsLarger w.key then
        some (.abstain false)
      else none

/-- The dependencies that the predicates have activated join those of the merged read set, which
is created for them if there is none. -/
def CCState.activate (deps : List Dependency) : CCState :=
  if deps.isEmpty then st
  else
    let m := (st.merged txn).getD ⟨[], txn.deps, []⟩
    { st with merged := Function.update st.merged txn (some { m with deps := m.deps ++ deps }) }

def doMVTSOOCCCheck (readSet : List ReadMessage) : CCState × OccOutcome :=
  if st.prepared.contains txn then (st, occOutcome env.finish true)
  else if env.rejected then (st, .abstain false)
  else
    match readSet.findSome? (checkRead p st txn.timestamp) with
    | some res => (st, res)
    | none =>
      match txn.writeSet.findSome? (checkWrite p st env txn.timestamp) with
      | some res => (st, res)
      | none =>
        match env.refused with
        | some res => (st, occOutcome res false)
        | none => ((st.activate txn env.dynamicDeps).prepare p txn readSet, occOutcome env.finish true)

/-- Transactions with very small timestamps end the process. -/
def CCState.doOCCCheck : Option (CCState × OccOutcome) :=
  if txn.timestamp.timestamp ≤ 10000 then none
  else
    match mergeTxReadSets p env.cache env.subscribed (st.merged txn) txn with
    | none => none
    | some (.commit, m) =>
      match doMVTSOOCCCheck p (st.recordMerged txn m) env txn (readSetOr txn m) with
      | (st, .conflict proof) => some (st.abort p txn, .conflict proof)
      | r => some r
    | some (res, _) => some (st, occOutcome res false)

end

/-! ## Runs -/

inductive CCEvent where
  | addOngoing (txn : Transaction)
  | check (txn : Transaction) (env : CheckEnv)
  | commit (proof : CommittedProof) (env : CheckEnv)
  | abort (txn : Transaction)
  | clean (txn : Transaction) (hard : Bool)

def CCState.step : CCEvent → Option CCState
  | .addOngoing txn => some { st with ongoing := st.ongoing.insert txn }
  | .check txn env => (st.doOCCCheck p env txn).map Prod.fst
  | .commit proof env => st.commit p env proof
  | .abort txn => some (st.abort p txn)
  | .clean txn hard => some (st.clean p txn hard)

end Pequin
