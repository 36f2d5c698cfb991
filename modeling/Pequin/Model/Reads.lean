import Mathlib.Data.List.Sort
import Mathlib.Data.List.AList
import Pequin.Model.Certificates
import Pequin.Model.RowScan

/-!
# Reads and point queries

The part of `ShardClient` that reads: `Get` with `HandleReadReply` (`shardclient.cc`), and point queries that are not
executed eagerly, with `HandlePointQueryResult` and `ProcessRead` (`querysync-client.cc`). Both collect replies in a
`PendingQuorumGet`. Proofs are validated and messages signed.

What a signature is worth is left to `verify`, and what bytes parse to is left to the parsers of `ReadParams`. A
`Panic`, a failed assertion and an exception end the process and are `none` here.
-/

namespace Pequin

open Function

/-! ## Messages -/

structure Write where
  committedValue : Option Bytes := none
  committedTimestamp : Option Timestamp := none
  preparedValue : Option Bytes := none
  preparedTimestamp : Option Timestamp := none
  preparedTxnDigest : Option Digest := none
  deriving DecidableEq, Repr

namespace Write

/-- The committed part, if its fields are set. -/
def committed (w : Write) : Option (Bytes × Timestamp) :=
  match w.committedValue, w.committedTimestamp with
  | some v, some ts => some (v, ts)
  | _, _ => none

/-- The prepared part, if its fields are set. -/
def prepared (w : Write) : Option (Bytes × Timestamp × Digest) :=
  match w.preparedValue, w.preparedTimestamp, w.preparedTxnDigest with
  | some v, some ts, some d => some (v, ts, d)
  | _, _, _ => none

/-- `operator==`, which compares the prepared parts only. -/
def samePrepared (a b : Write) : Bool :=
  a.preparedValue.getD [] == b.preparedValue.getD [] &&
  a.preparedTimestamp.getD ⟨0, 0⟩ == b.preparedTimestamp.getD ⟨0, 0⟩ &&
  a.preparedTxnDigest.getD [] == b.preparedTxnDigest.getD []

end Write

/-- `proto::SignedMessage` around the bytes of a serialised message. -/
structure SignedBytes where
  data : Bytes
  processId : Nat
  signature : Bytes
  deriving DecidableEq, Repr

/-- The `oneof` of a reply. -/
inductive ReplyBody where
  | unset
  | write (w : Write)
  | signedWrite (m : SignedBytes)
  deriving DecidableEq, Repr

/-- A `proto::CommittedProof` with the `rowupdates.row_idx` of the entries of its write set, where they
are set. No digest covers them. -/
structure ReadProof extends CommittedProof where
  rowIdxs : List (Option Int) := []
  deriving DecidableEq, Repr

/-- Its key is not looked at. -/
structure ReadReply where
  reqId : Nat
  proof : Option ReadProof := none
  body : ReplyBody
  deriving DecidableEq, Repr

structure PointQueryResultReply where
  reqId : Nat
  replicaId : Nat
  proof : Option ReadProof := none
  body : ReplyBody
  deriving DecidableEq, Repr

/-- The rows of a query result, with the data of their fields. -/
structure SQLResult where
  columnNames : List Bytes := []
  rows : List (List (Option Bytes)) := []
  deriving DecidableEq, Repr

/-- What the shard client of a group is started with, and what it calls. -/
structure ReadParams where
  config : Configuration
  group : Nat
  readQuorumSize : Nat
  readDepSize : Nat
  verifyDeps : Bool
  maxDepDepth : Int
  digestOf : Transaction → Digest
  /-- `Verifier::Verify` under the public key of a process. -/
  verify : Nat → Bytes → Bytes → Bool
  /-- `Write::ParseFromString`. -/
  parseWrite : Bytes → Option Write
  /-- What `SQLResult::ParseFromString` leaves, whether it succeeds or not. -/
  parseResult : Bytes → SQLResult
  /-- The `col_name_index` of the tables in the registry. -/
  colNameIndex : Bytes → Option (Bytes → Option Nat)

/-! ## Committed values -/

namespace ReadProof

def find (proof : ReadProof) (key : Bytes) : Option Nat :=
  proof.txn.writeSet.findIdx? fun w => w.key == key

def written (proof : ReadProof) (key : Bytes) : Option Bytes :=
  (proof.find key).bind fun i => proof.txn.writeSet[i]?.map WriteMessage.valueOrEmpty

/-- The index of the row that was written for the key. -/
def rowIdx (proof : ReadProof) (key : Bytes) : Option Int :=
  (proof.find key).bind fun i => (proof.rowIdxs[i]?).join

end ReadProof

section Validation

variable (p : ReadParams)

def validateTransactionWrite (proof : ReadProof) (key val : Bytes) (timestamp : Timestamp) : Bool :=
  proof.txn.isGenesis ||
  validateCommittedProof p.config proof.toCommittedProof (p.digestOf proof.txn) &&
  proof.txn.timestamp == timestamp && proof.written key == some val

/-- The result that a value stands for. -/
def resultOf (value : Bytes) : SQLResult :=
  if value.isEmpty then {} else p.parseResult value

/-- The checks of `ValidateTransactionTableWrite` for a row, up to the look-up of the table: the timestamp, the commit
proof (a wrong one ends the process), the key. -/
def checkTableWrite (proof : ReadProof) (timestamp : Timestamp) (key : Bytes) : Option Bool :=
  if proof.txn.timestamp ≠ timestamp then some false
  else if !validateCommittedProof p.config proof.toCommittedProof (p.digestOf proof.txn) then none
  else some (proof.rowIdx key).isSome

/-- The loop over the columns looks up their index and compares nothing. -/
def validateTransactionTableWrite (proof : ReadProof) (timestamp : Timestamp) (key value table : Bytes) : Option Bool :=
  if value.isEmpty && (proof.find key).isSome then some (proof.rowIdx key).isSome
  else if (resultOf p value).rows.isEmpty then some true
  else if proof.txn.isGenesis then some true
  else if (resultOf p value).rows.length ≠ 1 then none
  else match checkTableWrite p proof timestamp key with
    | some true =>
      if (proof.txn.tableWrites.lookup table).isNone || (p.colNameIndex table).isNone then none else some true
    | v => v

/-! ## Point reads of a replica -/

/-- The context of `ExecutePointReadHelper`. -/
def pointScan (timestamp : Timestamp) (canRead : Digest → Bool) : ScanTxn :=
  { timestamp := timestamp, isPointRead := true, readPreparedPred := some canRead }

/-- The version that `ExecPointRead` reports as committed. -/
def committedVersion (timestamp : Timestamp) (canRead : Digest → Bool) (chain : List RowVersion) : Option RowVersion :=
  (IndexScan.checkRow (pointScan timestamp canRead) chain {}).1.evaluated.find? RowVersion.commitOrPrepare

/-- Its result, from `EvalRead`, `RefinePointRead` and `TransformPointResult`: a row with the columns of the query, or
none if the version is deleted or does not satisfy the query. -/
def pointResult (table : Bytes) (columns : List Bytes) (satisfies : List Bytes → Bool) (v : RowVersion) : SQLResult :=
  if v.isDeleted || !satisfies v.values then {}
  else
    ⟨columns, [columns.map fun name => ((p.colNameIndex table).bind fun idx => idx name).bind fun i => v.values[i]?]⟩

end Validation

/-! ## Pending reads -/

/-- The key of `prepared_new`. -/
structure PreparedKey where
  timestamp : Timestamp
  txnDigest : Digest
  value : Bytes
  deriving DecidableEq, Repr

namespace PreparedKey

def bytesLt (a b : Bytes) : Bool := a.lex b fun x y => decide (x < y)

/-- The order of the map, by timestamp, then digest, then value. -/
def lt (a b : PreparedKey) : Bool :=
  decide (a.timestamp < b.timestamp) || a.timestamp == b.timestamp &&
    (bytesLt a.txnDigest b.txnDigest || a.txnDigest == b.txnDigest && bytesLt a.value b.value)

end PreparedKey

/-- `proto::Dependency`, as a read hands it up. -/
structure ReadDep where
  write : Write
  writeSigs : List (Nat × Bytes)
  involvedGroup : Nat
  deriving DecidableEq, Repr

/-- `dep` is set together with `hasDep`. -/
structure PendingQuorumGet where
  key : Bytes
  tableName : Bytes := []
  rqs : Nat
  rds : Nat
  maxTs : Timestamp := ⟨0, 0⟩
  maxValue : Bytes := []
  numReplies : Nat := 0
  prepared : AList (fun _ : Timestamp => Write × Nat) := ∅
  preparedSigs : Timestamp → List (Nat × Bytes) := fun _ => []
  preparedNew : AList (fun _ : PreparedKey => Nat × List (Nat × Bytes)) := ∅
  dep : Option ReadDep := none
  firstCommittedReply : Bool := true

/-- The signature that a reply contributes to a dependency. -/
def ReplyBody.sig : ReplyBody → Nat × Bytes
  | .signedWrite m => (m.processId, m.signature)
  | _ => (0, [])

/-- The walk over the prepared writes from the newest on, down to the newest committed write: the first with enough
votes is taken. -/
def selectPrepared {κ ν : Type} (ts : κ → Timestamp) (votes : ν → Nat) (maxTs : Timestamp) (depSize : Nat) :
    List ((_ : κ) × ν) → Option ((_ : κ) × ν)
  | [] => none
  | e :: l =>
    if ts e.1 < maxTs then none
    else if depSize ≤ votes e.2 then some e
    else selectPrepared ts votes maxTs depSize l

namespace PendingQuorumGet

variable (p : ReadParams)

section

variable (write : Write) (sig : Nat × Bytes) (req : PendingQuorumGet)

/-- A validated committed value. -/
def noteCommitted (value : Bytes) (ts : Timestamp) : PendingQuorumGet :=
  { req with
    maxTs := if req.firstCommittedReply || decide (req.maxTs < ts) then ts else req.maxTs
    maxValue := if req.firstCommittedReply || decide (req.maxTs < ts) then value else req.maxValue
    firstCommittedReply := false }

/-- A prepared write in `HandleReadReply`: one write is kept for each timestamp, the first. -/
def notePrepared : PendingQuorumGet :=
  match write.prepared with
  | some (_, ts, _) =>
    if -2 < p.maxDepDepth then
      { req with
        prepared := match req.prepared.lookup ts with
          | none => req.prepared.insert ts (write, 1)
          | some (w, n) => if w.samePrepared write then req.prepared.insert ts (w, n + 1) else req.prepared
        preparedSigs := if p.verifyDeps then
            update req.preparedSigs ts (req.preparedSigs ts ++ [sig])
          else req.preparedSigs }
    else req
  | none => req

/-- A prepared write in `ProcessRead`, counted by timestamp, digest and value. -/
def notePreparedNew : PendingQuorumGet :=
  match write.prepared with
  | some (value, ts, digest) =>
    if -2 < p.maxDepDepth then
      let entry := (req.preparedNew.lookup ⟨ts, digest, value⟩).getD (0, [])
      { req with
        preparedNew := req.preparedNew.insert ⟨ts, digest, value⟩
          (entry.1 + 1, if p.verifyDeps then entry.2 ++ [sig] else entry.2) }
    else req
  | none => req

/-- The dependency of `HandleReadReply`. -/
def select : PendingQuorumGet :=
  let sorted := req.prepared.entries.insertionSort fun a b => b.1 ≤ a.1
  match selectPrepared (fun ts => ts) (fun v => v.2) req.maxTs req.rds sorted with
  | some ⟨ts, w, _⟩ =>
    if -2 < p.maxDepDepth then
      { req with
        maxTs := ts
        maxValue := w.preparedValue.getD []
        dep := some ⟨w, if p.verifyDeps then req.preparedSigs ts else [], p.group⟩ }
    else req
  | none => req

/-- The dependency of `ProcessRead`, with as much of the write as is set. -/
def selectNew : PendingQuorumGet :=
  let sorted := req.preparedNew.entries.insertionSort fun a b => !a.1.lt b.1
  match selectPrepared PreparedKey.timestamp Prod.fst req.maxTs p.readDepSize sorted with
  | some ⟨k, _, sigs⟩ =>
    if -2 < p.maxDepDepth then
      { req with
        maxTs := k.timestamp
        maxValue := k.value
        dep := some (if p.verifyDeps then
            ⟨{ preparedValue := some k.value, preparedTimestamp := some k.timestamp,
               preparedTxnDigest := some k.txnDigest }, sigs, p.group⟩
          else ⟨{ preparedTxnDigest := some k.txnDigest }, [], p.group⟩) }
    else req
  | none => req

end

/-- The part that `HandleReadReply` and `ProcessRead` share. The reply is counted before its committed value is
validated. The flag says whether the read is complete. -/
def process (valid : Bool) (note select : PendingQuorumGet → PendingQuorumGet) (quorum : Nat)
    (write : Write) (req : PendingQuorumGet) : PendingQuorumGet × Bool :=
  let req := { req with numReplies := req.numReplies + 1 }
  if !valid then (req, false)
  else
    let req := note (write.committed.elim req fun c => req.noteCommitted c.1 c.2)
    if quorum ≤ req.numReplies then (select req, true) else (req, false)

end PendingQuorumGet

section Handlers

variable (p : ReadParams)

/-- The write of a reply: a signed one verifies and parses, an unsigned one has no committed value, and no prepared one
if dependencies are verified. -/
def ReplyBody.authWrite : ReplyBody → Option Write
  | .signedWrite m => if p.verify m.processId m.data m.signature then p.parseWrite m.data else none
  | .write w => if w.committedValue.isSome || p.verifyDeps && w.preparedValue.isSome then none else some w
  | .unset => some {}

/-- A prepared write that is not signed. -/
def ReplyBody.unsignedPrepared : ReplyBody → Bool
  | .write w => w.committedValue.isNone && w.preparedValue.isSome
  | _ => false

/-- The proof of the committed value, if there is one, is there and validates. -/
def committedValid (validate : ReadProof → Bytes → Timestamp → Option Bool) (proof : Option ReadProof)
    (write : Write) : Option Bool :=
  match write.committed, proof with
  | none, _ => some true
  | some _, none => some false
  | some (v, ts), some proof => validate proof v ts

/-- An unsigned prepared write ends the process if dependencies are verified. -/
def PendingQuorumGet.handleReadReply (req : PendingQuorumGet) (reply : ReadReply) : Option (PendingQuorumGet × Bool) :=
  match reply.body.authWrite p with
  | none => if p.verifyDeps && reply.body.unsignedPrepared then none else some (req, false)
  | some write =>
    (committedValid (fun proof v ts => some (validateTransactionWrite p proof req.key v ts)) reply.proof write).map
      fun valid => req.process valid (notePrepared p write reply.body.sig) (select p) req.rqs write

/-- `ProcessRead` for a point query. -/
def PendingQuorumGet.processRead (req : PendingQuorumGet) (write : Write) (reply : PointQueryResultReply) :
    Option (PendingQuorumGet × Bool) :=
  (committedValid (fun proof v ts => validateTransactionTableWrite p proof ts req.key v req.tableName)
    reply.proof write).map fun valid =>
      req.process valid (notePreparedNew p write reply.body.sig) (selectNew p) p.readQuorumSize write

/-- `PendingQuery` of a point query. -/
structure PendingPoint where
  resultsVerified : List Nat := []
  pendingPointQuery : PendingQuorumGet

/-- The checks of `HandlePointQueryResult` before the duplicates: the replica is in the group, and is
the one that has signed. -/
def PointQueryResultReply.authWrite (reply : PointQueryResultReply) : Option Write :=
  if !isReplicaInGroup p.config reply.replicaId p.group then none
  else match reply.body with
    | .signedWrite m => if reply.replicaId ≠ m.processId then none else reply.body.authWrite p
    | _ => reply.body.authWrite p

def PendingPoint.handlePointQueryResult (q : PendingPoint) (reply : PointQueryResultReply) :
    Option (PendingPoint × Bool) :=
  match reply.authWrite p with
  | none => some (q, false)
  | some write =>
    if reply.replicaId ∈ q.resultsVerified then some (q, false)
    else (q.pendingPointQuery.processRead p write reply).map fun r =>
      (⟨reply.replicaId :: q.resultsVerified, r.1⟩, r.2)

end Handlers

/-! ## The shard client -/

/-- What a read hands up. `reqId` is not set if it was answered from the buffer. -/
structure ReadResult where
  reqId : Option Nat
  key : Bytes
  value : Bytes
  timestamp : Timestamp
  dep : Option ReadDep
  addToReadSet : Bool
  deriving DecidableEq, Repr

/-- The reading part of a shard client, with the transaction it works on. -/
structure ReadClient where
  lastReqId : Nat
  pendingGets : Nat → Option PendingQuorumGet
  pendingQueries : Nat → Option PendingPoint
  writeSet : List (Bytes × Bytes)
  readSet : List ReadMessage
  readValues : AList fun _ : Bytes => Bytes
  results : List ReadResult

/-- What happens at the shard client. The sender of a reply is not known to it. -/
inductive ReadEvent where
  | beginTxn
  | put (key value : Bytes)
  | get (key : Bytes)
  | getTimeout (reqId : Nat)
  | readReply (sender : Nat) (reply : ReadReply)
  /-- `Query` for a point query that is not executed eagerly. -/
  | pointQuery (key table : Bytes)
  | clearQuery (reqId : Nat)
  | pointReply (sender : Nat) (reply : PointQueryResultReply)

namespace ReadClient

variable (p : ReadParams)

/-- A key that was written or read before in the transaction. -/
def bufferGet (s : ReadClient) (key : Bytes) : Option ReadResult :=
  match s.writeSet.find? fun w => w.1 == key with
  | some (_, value) => some ⟨none, key, value, ⟨0, 0⟩, none, false⟩
  | none => (s.readSet.find? fun r => r.key == key).map fun r =>
      ⟨none, key, (s.readValues.lookup key).getD [], r.readtime, none, false⟩

/-- The end of `HandleReadReply`: a key is read once. -/
def finishGet (s : ReadClient) (reqId : Nat) (req : PendingQuorumGet) : ReadClient :=
  match s.readValues.lookup req.key with
  | none =>
    { s with
      readValues := s.readValues.insert req.key req.maxValue
      readSet := s.readSet ++ [{ key := req.key, readtime := req.maxTs }]
      results := s.results ++ [⟨some reqId, req.key, req.maxValue, req.maxTs, req.dep, true⟩] }
  | some value =>
    { s with results := s.results ++ [⟨some reqId, req.key, value, ⟨0, 0⟩, none, false⟩] }

/-- The end of `ProcessRead`. -/
def finishPoint (s : ReadClient) (reqId : Nat) (req : PendingQuorumGet) : ReadClient :=
  { s with
    readSet := s.readSet ++ [{ key := req.key, readtime := req.maxTs }]
    results := s.results ++ [⟨some reqId, req.key, req.maxValue, req.maxTs, req.dep, true⟩] }

def step (s : ReadClient) : ReadEvent → Option ReadClient
  | .beginTxn => some { s with writeSet := [], readSet := [], readValues := ∅ }
  | .put key value => some { s with writeSet := s.writeSet ++ [(key, value)] }
  | .get key =>
    match s.bufferGet key with
    | some r => some { s with results := s.results ++ [r] }
    | none => some { s with
        lastReqId := s.lastReqId + 1
        pendingGets := update s.pendingGets s.lastReqId
          (some { key := key, rqs := p.readQuorumSize, rds := p.readDepSize }) }
  | .getTimeout reqId => some { s with pendingGets := update s.pendingGets reqId none }
  | .readReply _ reply =>
    match s.pendingGets reply.reqId with
    | none => some s
    | some req =>
      (req.handleReadReply p reply).map fun r =>
        let s := { s with
          pendingGets := update s.pendingGets reply.reqId (if r.2 then none else some r.1) }
        if r.2 then s.finishGet reply.reqId r.1 else s
  | .pointQuery key table => some { s with
      lastReqId := s.lastReqId + 1
      pendingQueries := update s.pendingQueries s.lastReqId
        (some { pendingPointQuery :=
          { key := key, tableName := table, rqs := p.readQuorumSize, rds := p.readDepSize } }) }
  | .clearQuery reqId => some { s with pendingQueries := update s.pendingQueries reqId none }
  | .pointReply _ reply =>
    match s.pendingQueries reply.reqId with
    | none => some s
    | some q =>
      (q.handlePointQueryResult p reply).map fun r =>
        let s := { s with
          pendingQueries := update s.pendingQueries reply.reqId (if r.2 then none else some r.1) }
        if r.2 then s.finishPoint reply.reqId r.1.pendingPointQuery else s

end ReadClient

end Pequin
