import Pequin.Model.Replica

/-!
# Collecting votes and decisions

The part of `ShardClient` that collects the replies of one group for a transaction: the Phase1 votes
(`phase1validator.cc`, `ProcessP1R`), the Phase2 decisions of the normal path (`HandlePhase2Reply_MultiView`), and both
in a fallback (`HandlePhase1FBReply`, `ProcessP2FBR`). Proofs are validated and messages signed.

Replies are found by a request id or by the digest on the envelope. A `Panic` ends the process and is `none` here. What
a handler hands to the client is part of its result.
-/

namespace Pequin

/-! ## Messages -/

/-- As read from a message. An absent conflict reads as the default `CommittedProof`. -/
structure ConcurrencyControl where
  ccr : Result
  txnDigest : Digest
  committedConflict : CommittedProof

/-- The default instance of `proto::CommittedProof`. -/
def CommittedProof.empty : CommittedProof :=
  ⟨{ clientId := 0, clientSeqNum := 0, involvedGroups := [], readSet := [], writeSet := [],
     timestamp := ⟨0, 0⟩ }, .none⟩

/-- The enumerator of a value on the wire. -/
def Result.parse : Nat → Option Result
  | 0 => some .commit
  | 1 => some .abort
  | 2 => some .abstain
  | 3 => some .wait
  | 4 => some .retry
  | 5 => some .ignore
  | _ => none

/-- `ConcurrencyControl::ParseFromString`. The vote is a required field. -/
def parseCC (w : Wire) : Option ConcurrencyControl :=
  match w.lookup 2 with
  | some (.varint n) => (Result.parse n).map fun r => ⟨r, w.bytes 4, .empty⟩
  | _ => none

/-- `Phase2Decision::ParseFromString`: the decision, a required field, and the view if it is set. Digest and group are
never looked at. -/
def parsePhase2Decision (w : Wire) : Option (CommitDecision × Option Nat) :=
  let view := match w.lookup 4 with
    | some (.varint v) => some v
    | _ => none
  match w.lookup 1 with
  | some (.varint 0) => some (.commit, view)
  | some (.varint 1) => some (.abort, view)
  | _ => none

structure Phase1Reply where
  cc : Option ConcurrencyControl
  signedCC : Option SignedMessage

structure Phase2Reply where
  reqId : Nat
  signedP2Decision : Option SignedMessage
  deriving DecidableEq, Repr

structure Phase1FBReply where
  wb : Option Writeback
  p2r : Option Phase2Reply
  p1r : Option Phase1Reply

/-- The entry of a certificate for a signed message. -/
def SignedMessage.entry (m : SignedMessage) : Signature := ⟨m.processId, m.signature⟩

@[simp] theorem SignedMessage.entry_processId (m : SignedMessage) : m.entry.processId = m.processId := rfl
@[simp] theorem SignedMessage.entry_signature (m : SignedMessage) : m.entry.signature = m.signature := rfl

/-! ## Phase1 votes -/

/-- Without the state of an equivocating client. -/
inductive Phase1ValidationState where
  | notEnough
  | fastCommit
  | fastAbort
  | fastAbstain
  | slowCommitTentative
  | slowCommitFinal
  | slowAbortTentative
  | slowAbortTentative2
  | slowAbortFinal
  deriving DecidableEq, Repr

structure Phase1Validator where
  state : Phase1ValidationState := .notEnough
  commits : Nat := 0
  abstains : Nat := 0
  deriving DecidableEq, Repr

section Handlers

variable (c : Configuration) (digestOf : Transaction → Digest)

namespace Phase1Validator

def commit (v : Phase1Validator) : Phase1Validator :=
  let n := v.commits + 1
  { v with
    commits := n
    state := if n = c.n then .fastCommit
      else if c.slowCommitQuorumSize ≤ n ∧ v.abstains = 0 then .slowCommitTentative
      else if c.slowCommitQuorumSize ≤ n then .slowCommitFinal
      else v.state }

/-- The vote `ABSTAIN`. The last case of the source is shadowed by the one before it. -/
def abstain (v : Phase1Validator) : Phase1Validator :=
  let n := v.abstains + 1
  { v with
    abstains := n
    state := if c.fastAbortQuorumSize ≤ n then .fastAbstain
      else if v.state = .slowCommitTentative then .slowCommitFinal
      else if c.slowAbortQuorumSize ≤ n ∧ c.slowCommitQuorumSize ≤ c.n - n then .slowAbortTentative
      else if c.slowAbortQuorumSize ≤ n then .slowAbortTentative2
      else if c.slowAbortQuorumSize ≤ n ∧ c.n - v.commits < c.fastAbortQuorumSize then .slowAbortFinal
      else v.state }

/-- Where the source returns `false` its caller panics. -/
def processMessage (txn : Transaction) (d : Digest) (v : Phase1Validator) (cc : ConcurrencyControl) :
    Option Phase1Validator :=
  if cc.txnDigest ≠ d then none
  else if v.state = .fastCommit ∨ v.state = .fastAbort then none
  else match cc.ccr with
    | .abort =>
      if validateCommittedConflict c cc.committedConflict (digestOf cc.committedConflict.txn) txn then
        some { v with state := .fastAbort }
      else none
    | .commit => some (v.commit c)
    | .abstain => some (v.abstain c)
    | .wait | .retry | .ignore => none

end Phase1Validator

/-- `timer` is the decision that the timeout will make, once it is started; `conflict` is set together with
`conflict_flag`. -/
structure PendingPhase1 where
  replicasVerified : List Nat := []
  p1ReplySigs : Result → List Signature := fun _ => []
  validator : Phase1Validator := {}
  decision : CommitDecision := .abort
  fast : Bool := false
  conflict : Option CommittedProof := none
  timer : Option CommitDecision := none
  firstDecision : Bool := true

namespace PendingPhase1

/-- A tentative state: a timeout of `0` decides at once, otherwise the timer is started. -/
def tentative (zeroTimeout : Bool) (decision : CommitDecision) (p : PendingPhase1) : PendingPhase1 × Bool :=
  if zeroTimeout && p.firstDecision then
    ({ p with firstDecision := false, decision := decision, fast := false }, true)
  else if p.timer.isSome then (p, false)
  else ({ p with timer := some decision }, false)

/-- The `switch` of `ProcessP1R`, and whether it calls `Phase1Decision`. -/
def decide (zeroTimeout : Bool) (conflict : CommittedProof) (p : PendingPhase1) : PendingPhase1 × Bool :=
  match p.validator.state with
  | .notEnough => (p, false)
  | .fastCommit => ({ p with decision := .commit, fast := true }, true)
  | .fastAbort => ({ p with decision := .abort, fast := true, conflict := some conflict }, true)
  | .fastAbstain => ({ p with decision := .abort, fast := true }, true)
  | .slowCommitFinal => ({ p with decision := .commit, fast := false }, true)
  | .slowAbortFinal => ({ p with decision := .abort, fast := false }, true)
  | .slowCommitTentative => p.tentative zeroTimeout .commit
  | .slowAbortTentative => p.tentative zeroTimeout .abort
  | .slowAbortTentative2 => p.tentative zeroTimeout .abort

def addSig (p : PendingPhase1) (ccr : Result) (s : Signature) : PendingPhase1 :=
  { p with p1ReplySigs := Function.update p.p1ReplySigs ccr (p.p1ReplySigs ccr ++ [s]) }

/-- The second half of `ProcessP1R`, for a vote that was signed by `signed` or not at all. -/
def processVote (zeroTimeout : Bool) (txn : Transaction) (d : Digest) (p : PendingPhase1)
    (cc : ConcurrencyControl) (signed : Option SignedMessage) : Option (PendingPhase1 × Bool) :=
  match p.validator.processMessage c digestOf txn d cc with
  | none => none
  | some v =>
    let p := { p with validator := v }
    let p := match signed with
      | some m => p.addSig cc.ccr m.entry
      | none => p
    some (p.decide zeroTimeout cc.committedConflict)

/-- `ProcessP1R` at the shard client of `group`. Only an `ABORT` may come unsigned. The sender is marked as verified
first. -/
def processP1R (zeroTimeout : Bool) (group : Nat) (txn : Transaction) (d : Digest) (p : PendingPhase1)
    (reply : Phase1Reply) : Option (PendingPhase1 × Bool) :=
  match reply.cc.filter (fun cc => cc.ccr = .abort) with
  | some cc => p.processVote c digestOf zeroTimeout txn d cc none
  | none =>
    match reply.signedCC with
    | none => some (p, false)
    | some m =>
      if m.processId ∈ p.replicasVerified then some (p, false)
      else
        let p := { p with replicasVerified := m.processId :: p.replicasVerified }
        if !isReplicaInGroup c m.processId group || !verify m.processId m.data m.signature then
          some (p, false)
        else match parseCC m.data with
          | none => some (p, false)
          | some cc => p.processVote c digestOf zeroTimeout txn d cc (some m)

def timeout (p : PendingPhase1) : Option PendingPhase1 :=
  p.timer.map fun decision => { p with decision := decision, fast := false }

end PendingPhase1

/-! ## Phase2 decisions -/

/-- The checks of a signed decision that both handlers make: the sender is in the group, the signature verifies, the
message parses. -/
def verifiedP2Decision (group : Nat) (reply : Phase2Reply) : Option (SignedMessage × CommitDecision × Option Nat) :=
  match reply.signedP2Decision with
  | none => none
  | some m =>
    if isReplicaInGroup c m.processId group && verify m.processId m.data m.signature then
      (parsePhase2Decision m.data).map fun p => (m, p.1, p.2)
    else none

structure ViewP2ReplySigs where
  replicasVerified : List Nat := []
  decisionSigs : CommitDecision → List Signature := fun _ => []

/-- A decision with the signatures that were collected for it. -/
structure P2Outcome where
  decision : CommitDecision
  view : Nat
  sigs : List Signature
  deriving DecidableEq, Repr

/-- `PendingPhase2` on the normal path. The transaction is the one the callback `pcb` is bound
to. -/
structure PendingPhase2 where
  txn : Transaction
  txnDigest : Digest
  manageP2ReplySigs : Nat → ViewP2ReplySigs := fun _ => {}

def PendingPhase2.addSig (p : PendingPhase2) (m : SignedMessage) (decision : CommitDecision) (view : Nat) :
    PendingPhase2 :=
  let rs := p.manageP2ReplySigs view
  { p with
    manageP2ReplySigs := Function.update p.manageP2ReplySigs view
      ⟨m.processId :: rs.replicasVerified,
        Function.update rs.decisionSigs decision (rs.decisionSigs decision ++ [m.entry])⟩ }

/-- `HandlePhase2Reply_MultiView`, for the request that the reply belongs to. -/
def PendingPhase2.handlePhase2Reply (group : Nat) (p : PendingPhase2) (reply : Phase2Reply) :
    PendingPhase2 × Option P2Outcome :=
  match verifiedP2Decision c group reply with
  | some (m, decision, some view) =>
    if m.processId ∈ (p.manageP2ReplySigs view).replicasVerified then (p, none)
    else
      let p := p.addSig m decision view
      let sigs := (p.manageP2ReplySigs view).decisionSigs decision
      (p, if c.quorumSize ≤ sigs.length then some ⟨decision, view, sigs⟩ else none)
  | _ => (p, none)

/-! ## Fallbacks -/

/-- `PendingPhase2` in a fallback, one for each view and decision. -/
structure PendingP2FB where
  replicasVerified : List Nat := []
  p2ReplySigs : List Signature := []
  matchingReplies : Nat := 0

/-- Without the views that other replicas report. -/
structure PendingFB where
  txn : Transaction
  txnDigest : Digest
  pendingP1 : PendingPhase1 := {}
  maxDecisionView : Nat := 0
  pendingP2s : Nat → CommitDecision → PendingP2FB := fun _ _ => {}
  p2Replies : CommitDecision → List Phase2Reply := fun _ => []
  processIds : List Nat := []
  p1 : Bool := true
  lastView : Nat := 0
  conflictView : Nat := 0

inductive FBCallback where
  /-- `wbFBcb` -/
  | writeback (wb : Writeback)
  /-- `p1FBcbA` -/
  | phase1A (p1 : PendingPhase1)
  /-- `p1FBcbB` -/
  | phase1B (decision : CommitDecision) (p2Replies : List Phase2Reply)
  /-- `p2FBcb` -/
  | phase2 (outcome : P2Outcome)
  /-- `invFBcb` -/
  | invoke

variable (fb : PendingFB)

namespace PendingFB

def count (m : SignedMessage) (decision : CommitDecision) (view : Nat) : PendingFB :=
  let p2 := fb.pendingP2s view decision
  { fb with pendingP2s := Function.update fb.pendingP2s view (Function.update (fb.pendingP2s view) decision
      ⟨m.processId :: p2.replicasVerified, p2.p2ReplySigs ++ [m.entry], p2.matchingReplies + 1⟩) }

section

variable (reply : Phase2Reply) (processId : Nat) (decision : CommitDecision)

/-- More than `f` replicas have decided in a view later than any before. -/
def raises (view : Nat) : Bool :=
  decide (c.f < (fb.pendingP2s view decision).matchingReplies ∧ fb.maxDecisionView < view)

def raise (view : Nat) (raised : Bool) : PendingFB :=
  if raised then { fb with maxDecisionView := view } else fb

/-- Store the whole reply, once for each replica. -/
def storeReply : PendingFB :=
  if processId ∈ fb.processIds then fb
  else { fb with
    processIds := processId :: fb.processIds
    p2Replies := Function.update fb.p2Replies decision (fb.p2Replies decision ++ [reply]) }

/-- The block that forwards `f + 1` replies with one decision, whatever their views. -/
def forwardP2 : PendingFB × List FBCallback :=
  if fb.p1 then
    let fb := fb.storeReply reply processId decision
    if (fb.p2Replies decision).length = c.f + 1 then
      ({ fb with p1 := false }, [.phase1B decision (fb.p2Replies decision)])
    else (fb, [])
  else (fb, [])

/-- The block that asks for an election when the newest view has diverged. -/
def diverge (view : Nat) : PendingFB × List FBCallback :=
  if fb.maxDecisionView = view ∧ c.f + 1 ≤ (fb.pendingP2s view .commit).matchingReplies ∧
      c.f + 1 ≤ (fb.pendingP2s view .abort).matchingReplies then
    ({ fb with p1 := false, conflictView := view }, if fb.lastView < (view + 1) % 2 ^ 64 then [.invoke] else [])
  else (fb, [])

/-- The garbage collection of views before the one that precedes the newest. -/
def dropOld : PendingFB :=
  { fb with pendingP2s := fun view =>
      if (view + 1) % 2 ^ 64 < fb.maxDecisionView then fun _ => {} else fb.pendingP2s view }

/-- The rest of `ProcessP2FBR`, after a decision that does not complete a quorum. `active` is what `StillActive` tells
the callbacks; where it is `false` the function returns. -/
def continueP2FBR (view : Nat) (raised active : Bool) : PendingFB × List FBCallback × Bool :=
  let (fb, forwarded) := fb.forwardP2 c reply processId decision
  if !forwarded.isEmpty && !active then (fb, forwarded, true)
  else
    let (fb, invoked) := fb.diverge c view
    if !invoked.isEmpty && !active then (fb, forwarded ++ invoked, true)
    else (if raised then fb.dropOld else fb, forwarded ++ invoked, false)

end

/-- A view that is not set reads as `0`, and the sender is looked up among those of the same view and decision. -/
def processP2FBR (group : Nat) (fb : PendingFB) (reply : Phase2Reply) (active : Bool) :
    PendingFB × List FBCallback × Bool :=
  match verifiedP2Decision c group reply with
  | none => (fb, [], false)
  | some (m, decision, view) =>
    let view := view.getD 0
    if (view + 1) % 2 ^ 64 < fb.maxDecisionView then (fb, [], false)
    else if m.processId ∈ (fb.pendingP2s view decision).replicasVerified then (fb, [], false)
    else
      let fb := fb.count m decision view
      let raised := fb.raises c decision view
      let fb := fb.raise view raised
      let p2 := fb.pendingP2s view decision
      if p2.matchingReplies = c.quorumSize then
        (fb, [.phase2 ⟨decision, view, p2.p2ReplySigs⟩], true)
      else fb.continueP2FBR c reply m.processId decision view raised active

/-- `ProcessP1R` on the fallback path. A decision ends the collection of votes. -/
def processP1FBR (zeroTimeout : Bool) (group : Nat) (fb : PendingFB) (reply : Phase1Reply) :
    Option (PendingFB × List FBCallback) :=
  (fb.pendingP1.processP1R c digestOf zeroTimeout group fb.txn fb.txnDigest reply).map fun r =>
    if r.2 then ({ fb with pendingP1 := r.1, p1 := false }, [.phase1A r.1])
    else ({ fb with pendingP1 := r.1 }, [])

/-- The Phase2 reply in a Phase1FBReply, if there is one. -/
def processP2r (group : Nat) (fb : PendingFB) (p2r : Option Phase2Reply) (active : Bool) :
    PendingFB × List FBCallback × Bool :=
  match p2r with
  | some p2r => fb.processP2FBR c group p2r active
  | none => (fb, [], false)

def handlePhase1FBReply (zeroTimeout : Bool) (group : Nat) (fb : PendingFB) (msg : Phase1FBReply)
    (active : Bool) : Option (PendingFB × List FBCallback) :=
  match msg.wb with
  | some wb => some (fb, [.writeback wb])
  | none =>
    let r := fb.processP2r c group msg.p2r active
    if r.2.2 then some (r.1, r.2.1)
    else match if r.1.p1 then msg.p1r else none with
      | none => some (r.1, r.2.1)
      | some p1r =>
        (r.1.processP1FBR c digestOf zeroTimeout group p1r).map fun r' => (r'.1, r.2.1 ++ r'.2)

def timeout (fb : PendingFB) : Option (PendingFB × List FBCallback) :=
  if fb.p1 then
    fb.pendingP1.timeout.map fun p1 => ({ fb with pendingP1 := p1, p1 := false }, [.phase1A p1])
  else none

end PendingFB

/-! ## The shard client -/

/-- A decision reported to the client, through `pcb` or `p2FBcb`. -/
structure Report where
  txn : Transaction
  txnDigest : Digest
  outcome : P2Outcome

/-- The pending Phase2 requests and fallbacks of a shard client, and its reports. -/
structure ShardClient where
  lastReqId : Nat
  pendingPhase2s : Nat → Option PendingPhase2
  pendingFallbacks : Digest → Option PendingFB
  reports : List Report

/-- What happens at a shard client, apart from the votes of the normal path. -/
inductive ShardEvent where
  /-- `Phase2` for a transaction of this client. -/
  | phase2 (txn : Transaction)
  | phase2Timeout (reqId : Nat)
  | phase2Reply (reply : Phase2Reply)
  /-- `Phase1FB` for a transaction that another one waits for. -/
  | phase1FB (txn : Transaction)
  | phase1FBReply (txnDigest : Digest) (msg : Phase1FBReply) (active : Bool)
  | phase2FBReply (txnDigest : Digest) (p2r : Phase2Reply) (active : Bool)
  | fbTimeout (txnDigest : Digest)
  | stopP1FB (txnDigest : Digest)
  /-- `InvokeFB`, which remembers the view that is proposed. -/
  | invokeFB (txnDigest : Digest) (proposedView : Nat)
  | cleanFB (txnDigest : Digest)

namespace ShardClient

def init : ShardClient := ⟨0, fun _ => none, fun _ => none, []⟩

/-- The decisions among the upcalls of a fallback. -/
def decisions (calls : List FBCallback) : List Report :=
  calls.filterMap fun
    | .phase2 outcome => some ⟨fb.txn, fb.txnDigest, outcome⟩
    | _ => none

/-- Store what a handler has made of a fallback. -/
def update (s : ShardClient) (d : Digest) (fb : PendingFB) (calls : List FBCallback) : ShardClient :=
  { s with
    pendingFallbacks := Function.update s.pendingFallbacks d (some fb)
    reports := s.reports ++ decisions fb calls }

variable (zeroTimeout : Bool) (group : Nat)

/-- One event at the shard client of `group`. Its own Phase2 goes to the log group, a fallback to every involved
group. -/
def step (s : ShardClient) : ShardEvent → Option ShardClient
  | .phase2 txn =>
    if getLogGroup txn (digestOf txn) = some group then
      some { s with
        lastReqId := s.lastReqId + 1
        pendingPhase2s := Function.update s.pendingPhase2s s.lastReqId (some ⟨txn, digestOf txn, fun _ => {}⟩) }
    else none
  | .phase2Timeout reqId => some { s with pendingPhase2s := Function.update s.pendingPhase2s reqId none }
  | .phase2Reply reply =>
    match s.pendingPhase2s reply.reqId with
    | none => some s
    | some p =>
      match p.handlePhase2Reply c group reply with
      | (p, none) => some { s with pendingPhase2s := Function.update s.pendingPhase2s reply.reqId (some p) }
      | (p, some outcome) => some { s with
          pendingPhase2s := Function.update s.pendingPhase2s reply.reqId none
          reports := s.reports ++ [⟨p.txn, p.txnDigest, outcome⟩] }
  | .phase1FB txn =>
    if group ∈ txn.involvedGroups then
      some { s with
        pendingFallbacks := Function.update s.pendingFallbacks (digestOf txn)
          (some { txn := txn, txnDigest := digestOf txn }) }
    else none
  | .phase1FBReply d msg active =>
    match s.pendingFallbacks d with
    | none => some s
    | some fb =>
      (fb.handlePhase1FBReply c digestOf zeroTimeout group msg active).map fun r => s.update d r.1 r.2
  | .phase2FBReply d p2r active =>
    match s.pendingFallbacks d with
    | none => some s
    | some fb =>
      let r := fb.processP2FBR c group p2r active
      some (s.update d r.1 r.2.1)
  | .fbTimeout d =>
    match s.pendingFallbacks d with
    | none => none
    | some fb => fb.timeout.map fun r => s.update d r.1 r.2
  | .stopP1FB d =>
    match s.pendingFallbacks d with
    | none => some s
    | some fb => some (s.update d { fb with p1 := false } [])
  | .invokeFB d proposedView =>
    match s.pendingFallbacks d with
    | none => some s
    | some fb => some (s.update d { fb with lastView := proposedView } [])
  | .cleanFB d => some { s with pendingFallbacks := Function.update s.pendingFallbacks d none }

end ShardClient

end Handlers

end Pequin
