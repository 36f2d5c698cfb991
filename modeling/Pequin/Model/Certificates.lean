import Pequin.Model.Types
import Mathlib.Data.List.Dedup

/-!
# Signatures and the validation of certificates

The vote and decision certificates of `store/pequinstore/common.cc`, and the checks that are made before one is
accepted.

Signatures are symbolic: a signature is the token that its signer makes for one message (`Sig`). Messages of different
types carry no tag that tells them apart, so verification compares `SignedBody.wire` (the fields with their tags) and
not the message itself.

The validators of the thread pool (`asyncValidate…`) scan a certificate on the dispatching thread, count the entry of
the replica itself without a signature check if it matches the local vote, and verify the other entries in parallel. A
check that fails ends the process (`Panic`), unless the quorum was complete before. The functions here say whether the
callback can be entered with a positive result.
-/

namespace Pequin

/-! ## Configuration -/

/-- The fault bound, the size of a group, and the host of each replica of each group. -/
structure Configuration where
  f : Nat
  n : Nat
  replicas : List (List Bytes)
  deriving DecidableEq, Repr

variable (c : Configuration)

namespace Configuration

/-- The hosts of each group are numbered separately, and only the first replica on a host gets an entry; `none` is the
`-1` of the source. -/
def replicaHost (group idx : Nat) : Option Nat :=
  match c.replicas[group]? with
  | none => none
  | some hosts =>
    match hosts[idx]? with
    | none => none
    | some h => if h ∈ hosts.take idx then none else some (hosts.take idx).dedup.length

/-- The Phase2 replies of a certificate. -/
def quorumSize : Nat := 4 * c.f + 1

def fastQuorumSize : Nat := c.n

def slowCommitQuorumSize : Nat := 3 * c.f + 1

def fastAbortQuorumSize : Nat := 3 * c.f + 1

def slowAbortQuorumSize : Nat := c.f + 1

end Configuration

/-- Compares host numbers. The group is a `uint32_t` parameter. -/
def isReplicaInGroup (id group : Nat) : Bool :=
  (List.range c.n).any fun i =>
    c.replicaHost (id / c.n) (id % c.n) == c.replicaHost (group % 2 ^ 32) i

/-- Without an involved group the division by zero ends the process. -/
def getLogGroup (txn : Transaction) (txnDigest : Digest) : Option Nat :=
  txn.involvedGroups[(txnDigest.headD 0).toNat % txn.involvedGroups.length]?

/-! ## Signed messages -/

/-- The messages replicas sign for a transaction, with the fields that are set. -/
inductive SignedBody where
  /-- `proto::ConcurrencyControl`, a Phase1 vote. -/
  | concurrencyControl (ccr : Result) (txnDigest : Digest) (involvedGroup : Nat)
  | phase2Decision (decision : CommitDecision) (txnDigest : Digest) (involvedGroup view : Nat)
  | electMessage (reqId : Nat) (txnDigest : Digest) (decision : CommitDecision) (electView : Nat)
  | currentView (currentView : Nat) (txnDigest : Digest) (replicaId : Nat)
  deriving DecidableEq, Repr

/-- A field value on the wire. -/
inductive WireVal where
  | varint (n : Nat)
  | bytes (b : Bytes)
  deriving DecidableEq, Repr

/-- A serialised message: its fields with their tags, in tag order. -/
abbrev Wire := List (Nat × WireVal)

/-- `SerializeToString`. -/
def SignedBody.wire : SignedBody → Wire
  | .concurrencyControl r d g => [(2, .varint r.toNat), (4, .bytes d), (5, .varint g)]
  | .phase2Decision dec d g v =>
    [(1, .varint dec.toNat), (2, .bytes d), (3, .varint g), (4, .varint v)]
  | .electMessage q d dec v =>
    [(1, .varint q), (2, .bytes d), (3, .varint dec.toNat), (4, .varint v)]
  | .currentView v d r => [(1, .varint v), (2, .bytes d), (3, .varint r)]

namespace Wire

/-- An integer field, `0` if it is absent or has another wire type. -/
def varint (w : Wire) (tag : Nat) : Nat :=
  match w.lookup tag with
  | some (.varint n) => n
  | _ => 0

/-- A bytes field, empty if it is absent or has another wire type. -/
def bytes (w : Wire) (tag : Nat) : Bytes :=
  match w.lookup tag with
  | some (.bytes b) => b
  | _ => []

/-- An enumeration field. A value that is no enumerator is kept as an unknown field, and
the accessor returns the default. -/
def decision (w : Wire) (tag : Nat) : CommitDecision :=
  if w.varint tag = 1 then .abort else .commit

end Wire

structure Sig where
  signer : Nat
  body : SignedBody
  deriving DecidableEq, Repr

/-- `Verifier::Verify` under the public key of process `id`. -/
def verify (id : Nat) (data : Wire) (s : Sig) : Bool :=
  s.signer == id && s.body.wire == data

/-- `proto::Signature`, an entry of a certificate. -/
structure Signature where
  processId : Nat
  signature : Sig
  deriving DecidableEq, Repr

structure SignedMessage where
  data : Wire
  processId : Nat
  signature : Sig
  deriving DecidableEq, Repr

/-- A map, in the order in which it is iterated. -/
abbrev GroupedSignatures := List (Nat × List Signature)

/-- The entries of a certificate, as the validators go through them. -/
def GroupedSignatures.entries (gs : GroupedSignatures) : List (Nat × Signature) :=
  gs.flatMap fun p => p.2.map fun s => (p.1, s)

/-! ## Phase1 votes -/

/-- The vote that counts for a decision. -/
def ccrOf : CommitDecision → Result
  | .commit => .commit
  | .abort => .abstain

variable (decision : CommitDecision)

/-- The number of votes a group has to contribute. -/
def p1QuorumSize (fast : Bool) : Nat :=
  match decision, fast with
  | .commit, true => c.fastQuorumSize
  | .commit, false => c.slowCommitQuorumSize
  | .abort, true => c.fastAbortQuorumSize
  | .abort, false => c.slowAbortQuorumSize

/-- The groups whose count has reached the quorum, from the groups of the entries that
were skipped and of those that verified. -/
def groupsReached (quorum : Nat) (skips jobs : List Nat) : List Nat :=
  (skips ++ jobs).dedup.filter fun g => quorum ≤ skips.count g + jobs.count g

/-- The loop of `asyncValidateP1Replies` over the entries of all groups. `seen` holds the entries met (a set per group
in the source), `skips` the groups of own entries, `jobs` those of entries that verify: the callback counts by a
`uint32_t` group. -/
def scanP1Replies (c : Configuration) (own : Nat → Bool) (ownMatches : Bool)
    (valid : Nat → Signature → Bool) (quorum needed : Nat) :
    List (Nat × Signature) → List (Nat × Nat) → List Nat → List Nat → Bool
  | [], _, skips, jobs =>
    decide ((groupsReached quorum skips []).length < needed ∧ needed ≤ (groupsReached quorum skips jobs).length)
  | (g, s) :: rest, seen, skips, jobs =>
    if !isReplicaInGroup c s.processId g || seen.contains (g, s.processId) then false
    else if own s.processId then
      if !ownMatches then false
      -- the last missing entry was our own: the callback runs at once
      else if (g :: skips).count g == quorum && (groupsReached quorum (g :: skips) []).length == needed then true
      else scanP1Replies c own ownMatches valid quorum needed rest
        ((g, s.processId) :: seen) (g :: skips) jobs
    else scanP1Replies c own ownMatches valid quorum needed rest ((g, s.processId) :: seen) skips
      (if valid g s then g % 2 ^ 32 :: jobs else jobs)

section

variable (fast : Bool) (txn : Transaction) (txnDigest : Digest) (groupedSigs : GroupedSignatures)
  (myProcessId : Nat) (my : Option Result)

/-- `my` is the vote of the replica itself, if it has one. For an abort only the first group is looked at; a commit
needs as many groups as the transaction involves. -/
def asyncValidateP1Replies : Bool :=
  let groups := if decision = .abort then groupedSigs.take 1 else groupedSigs
  let entries := groups.flatMap fun gs => gs.2.map fun s => (gs.1, s)
  scanP1Replies c (fun id => my.isSome && id == myProcessId) (my == some (ccrOf decision))
    (fun g s =>
      verify s.processId (SignedBody.concurrencyControl (ccrOf decision) txnDigest g).wire s.signature)
    (p1QuorumSize c decision fast)
    (if decision = .commit then txn.involvedGroups.length else 1) entries [] [] []

/-- The signatures of one group in `ValidateP1Replies`. -/
def validateP1Group (g : Nat) (sigs : List Signature) : Bool :=
  sigs.all (fun s => isReplicaInGroup c s.processId g &&
    (if my.isSome && s.processId == myProcessId then my == some (ccrOf decision)
      else verify s.processId
        (SignedBody.concurrencyControl (ccrOf decision) txnDigest g).wire s.signature)) &&
  decide ((sigs.map Signature.processId).Nodup) &&
  sigs.length == p1QuorumSize c decision fast

/-- The set of verified groups holds `int`s. -/
def validateP1Replies : Bool :=
  groupedSigs.all (fun gs => validateP1Group c decision fast txnDigest myProcessId my gs.1 gs.2) &&
  (decision == .abort || txn.involvedGroups.all fun g =>
    (groupedSigs.map fun gs => gs.1 % 2 ^ 32).contains (g % 2 ^ 32))

end

/-! ## Votes of one group -/

/-- The loop shared by the validators of one group: `ok` is the check of each entry, `skip` tells the entries that are
not verified, `valid` is the signature check of a job. `fin` decides from the numbers of skipped entries, of jobs, and
of jobs that verify. -/
def scanReplies {α : Type} (pid : α → Nat) (ok skip valid : α → Bool) (quorum : Nat)
    (fin : Nat → Nat → Nat → Bool) : List α → List Nat → Nat → Nat → Nat → Bool
  | [], _, skips, jobs, valids => fin skips jobs valids
  | e :: rest, seen, skips, jobs, valids =>
    if !ok e || seen.contains (pid e) then false
    else if skip e then
      if skips + 1 == quorum then true
      else scanReplies pid ok skip valid quorum fin rest (pid e :: seen) (skips + 1) jobs valids
    else scanReplies pid ok skip valid quorum fin rest (pid e :: seen) skips (jobs + 1)
      (if valid e then valids + 1 else valids)

section

variable (view : Nat) (txn : Transaction) (txnDigest : Digest) (groupedSigs : GroupedSignatures) (myProcessId : Nat)
  (my : Option CommitDecision)

/-- The callback is entered when the last missing entry has verified. -/
def completes (quorum : Nat) : Nat → Nat → Nat → Bool :=
  fun skips _ valids => quorum ≤ skips + valids

/-- With `f = 1` a certificate of another size ends the process. -/
def asyncValidateP2Replies : Bool :=
  match groupedSigs, getLogGroup txn txnDigest with
  | [(g, sigs)], some logGrp =>
    g == logGrp && (c.f != 1 || sigs.length == 5) &&
    scanReplies Signature.processId (fun s => isReplicaInGroup c s.processId g)
      (fun s => my == some decision && s.processId == myProcessId)
      (fun s => verify s.processId
        (SignedBody.phase2Decision decision txnDigest logGrp view).wire s.signature)
      c.quorumSize (completes c.quorumSize) sigs [] 0 0 0
  | _, _ => false

/-- Neither the group nor the membership of the signers is checked. -/
def validateP2Replies : Bool :=
  match groupedSigs, getLogGroup txn txnDigest with
  | [(_, sigs)], some logGrp =>
    sigs.all (fun s =>
      if my.isSome && s.processId == myProcessId then my == some decision
      else verify s.processId
        (SignedBody.phase2Decision decision txnDigest logGrp view).wire s.signature) &&
    decide ((sigs.map Signature.processId).Nodup) &&
    sigs.length == c.quorumSize
  | _, _ => false

end

/-- `f + 1` signed replies for the decision. View and group of the signed `Phase2Decision` are not looked at. -/
def asyncValidateFBP2Replies (txn : Transaction) (txnDigest : Digest) (p2Replies : List SignedMessage)
    (myProcessId : Nat) (my : Option CommitDecision) : Bool :=
  match getLogGroup txn txnDigest with
  | some logGrp =>
    p2Replies.length == c.f + 1 &&
    scanReplies SignedMessage.processId
      (fun r => r.data.decision 1 == decision && r.data.bytes 2 == txnDigest && isReplicaInGroup c r.processId logGrp)
      (fun r => my == some decision && r.processId == myProcessId)
      (fun r => verify r.processId r.data r.signature)
      (c.f + 1) (completes (c.f + 1)) p2Replies [] 0 0 0
  | none => false

/-- `f + 1` replicas at the proposed view, or `3f + 1` at the view before. More jobs than the quorum fail an
assertion. -/
def asyncVerifyFBViews (proposedView : Nat) (catchUp : Bool) (logGrp : Nat)
    (txnDigest : Digest) (signedMessages : List SignedMessage) (myProcessId myCurrentView : Nat) : Bool :=
  let quorum := if catchUp then c.f + 1 else 3 * c.f + 1
  let least := if catchUp then proposedView else (proposedView + (2 ^ 64 - 1)) % 2 ^ 64
  scanReplies SignedMessage.processId
    (fun m => isReplicaInGroup c m.processId logGrp && m.data.bytes 2 == txnDigest && decide (least ≤ m.data.varint 1))
    (fun m => m.processId == myProcessId && decide (least ≤ myCurrentView))
    (fun m => verify m.processId m.data m.signature)
    quorum (fun skips jobs valids => decide (jobs ≤ quorum) && decide (quorum ≤ skips + valids))
    signedMessages [] 0 0 0

/-- `2f + 1` ElectFB signatures for the decision and the view. -/
def asyncValidateFBDecision (view : Nat) (txn : Transaction) (txnDigest : Digest) (sigs : List Signature)
    (myProcessId : Nat) (my : Option CommitDecision) : Bool :=
  match getLogGroup txn txnDigest with
  | some logGrp =>
    scanReplies Signature.processId (fun s => isReplicaInGroup c s.processId logGrp)
      (fun s => my == some decision && s.processId == myProcessId)
      (fun s => verify s.processId (SignedBody.electMessage 0 txnDigest decision view).wire s.signature)
      (2 * c.f + 1) (completes (2 * c.f + 1)) sigs [] 0 0 0
  | none => false

/-! ## Commit proofs -/

/-- The signatures of a commit proof. -/
inductive ProofSigs where
  | p1 (sigs : GroupedSignatures)
  | p2 (sigs : GroupedSignatures) (view : Nat)
  | none
  deriving DecidableEq, Repr

structure CommittedProof where
  txn : Transaction
  sigs : ProofSigs
  deriving DecidableEq, Repr

section

variable (proof : CommittedProof) (txnDigest committedTxnDigest : Digest) (txn : Transaction)

/-- Transactions of client `0` with sequence number `0` stand for the loaded data. -/
def Transaction.isGenesis (t : Transaction) : Bool := t.clientId == 0 && t.clientSeqNum == 0

/-- Every verifier checks all signatures, none is its own. -/
def validateCommittedProof : Bool :=
  proof.txn.isGenesis ||
  match proof.sigs with
  | .p1 sigs => validateP1Replies c .commit true proof.txn txnDigest sigs 0 none
  | .p2 sigs view => validateP2Replies c .commit view proof.txn txnDigest sigs 0 none
  | .none => false

def asyncValidateCommittedProof : Bool :=
  proof.txn.isGenesis ||
  match proof.sigs with
  | .p1 sigs => asyncValidateP1Replies c .commit true proof.txn txnDigest sigs 0 none
  | .p2 sigs view => asyncValidateP2Replies c .commit view proof.txn txnDigest sigs 0 none
  | .none => false

/-- `TransactionsConflict` of a committed transaction `a` and the one to be aborted. Where it is `false` the source
ends the process. -/
def transactionsConflict (a b : Transaction) : Bool :=
  a.readSet.any (fun ra => b.writeSet.any fun wb => ra.key == wb.key) ||
  b.readSet.any (fun rb => a.writeSet.any fun wa => rb.key == wa.key) ||
  decide (a.readSet.length < (a.mergedReadSet.elim 0 fun m => m.readSet.length)) ||
  !b.querySet.isEmpty || !a.querySet.isEmpty

def validateCommittedConflict : Bool :=
  transactionsConflict proof.txn txn && validateCommittedProof c proof committedTxnDigest

def asyncValidateCommittedConflict : Bool :=
  transactionsConflict proof.txn txn && asyncValidateCommittedProof c proof committedTxnDigest

end

end Pequin
