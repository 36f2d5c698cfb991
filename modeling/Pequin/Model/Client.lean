import Pequin.Model.ShardClient

/-!
# Deciding a transaction

The part of `client.cc` that combines what the shard clients of the involved groups report for one transaction, and
builds the Phase2 and Writeback messages from it. A `Request` is a transaction of the client itself (`pendingReqs`), or
one that it finishes for somebody else (`FB_instances`), with the pending requests of its shard clients. The assertions
that a group's signatures are present are left out: they hold.
-/

namespace Pequin

open Function

/-! ## The request -/

/-- `conflict` is set together with `conflict_flag`. -/
structure PendingRequest where
  outstandingPhase1s : Nat
  decision : CommitDecision := .commit
  decisionView : Nat := 0
  fast : Bool := true
  conflict : Option CommittedProof := none
  startedPhase2 : Bool := false
  startedWriteback : Bool := false
  p1ReplySigsGrouped : GroupedSignatures := []
  p2ReplySigsGrouped : GroupedSignatures := []
  slowAbortGroup : Option Nat := none
  fastAbortGroup : Option Nat := none
  p2Replies : List Phase2Reply := []

/-- Assignment to an entry of the map. -/
def GroupedSignatures.set (gs : GroupedSignatures) (group : Nat) (sigs : List Signature) : GroupedSignatures :=
  gs.filter (fun x => x.1 ≠ group) ++ [(group, sigs)]

/-- Erase the entries of all groups but one. -/
def GroupedSignatures.only (gs : GroupedSignatures) (group : Option Nat) : GroupedSignatures :=
  gs.filter fun x => some x.1 = group

/-- Remove the last signatures of every group until `quorum` are left. -/
def GroupedSignatures.trim (gs : GroupedSignatures) (quorum : Nat) : GroupedSignatures :=
  gs.map fun x => (x.1, x.2.take quorum)

namespace PendingRequest

/-- The signatures that `Phase1CallbackProcessing` takes over from a group. -/
def takeSigs (req : PendingRequest) (group : Nat) (p1 : PendingPhase1) : PendingRequest :=
  match p1.decision, p1.fast, p1.conflict with
  | .abort, true, some conflict => { req with conflict := some conflict }
  | .abort, true, none =>
    { req with
      p1ReplySigsGrouped := req.p1ReplySigsGrouped.set group (p1.p1ReplySigs .abstain)
      fastAbortGroup := some group }
  | .abort, false, _ =>
    { req with
      p1ReplySigsGrouped := req.p1ReplySigsGrouped.set group (p1.p1ReplySigs .abstain)
      slowAbortGroup := some group }
  | .commit, _, _ =>
    { req with p1ReplySigsGrouped := req.p1ReplySigsGrouped.set group (p1.p1ReplySigs .commit) }

/-- One group that aborts decides for all of them. -/
def phase1CallbackProcessing (req : PendingRequest) (group : Nat) (p1 : PendingPhase1) : PendingRequest :=
  let req := req.takeSigs group p1
  match p1.decision with
  | .commit => { req with fast := req.fast && p1.fast, outstandingPhase1s := req.outstandingPhase1s - 1 }
  | .abort =>
    { req with
      fast := if p1.fast then true else req.fast && p1.fast
      decision := .abort
      outstandingPhase1s := 0 }

variable (c : Configuration)

def phase2Processing (req : PendingRequest) : PendingRequest :=
  { req with
    p1ReplySigsGrouped := match req.decision with
      | .commit => req.p1ReplySigsGrouped.trim c.slowCommitQuorumSize
      | .abort => (req.p1ReplySigsGrouped.only req.slowAbortGroup).trim c.slowAbortQuorumSize
    startedPhase2 := true }

/-- The proof that `WritebackProcessing` attaches. -/
def writebackSigs (req : PendingRequest) : WritebackSigs :=
  match req.fast, req.decision, req.conflict with
  | true, .commit, _ => .p1 req.p1ReplySigsGrouped
  | true, .abort, none =>
    .p1 ((req.p1ReplySigsGrouped.only req.fastAbortGroup).trim c.fastAbortQuorumSize)
  | true, .abort, some conflict => .conflict conflict
  | false, _, _ => .p2 req.p2ReplySigsGrouped (some req.decisionView)

end PendingRequest

/-! ## The client and its shard clients -/

inductive Sent where
  | phase2 (msg : Phase2)
  | phase2FB (msg : Phase2FB)
  | writeback (msg : Writeback)
  /-- A Writeback that a replica has sent, passed on by `WritebackFBcallback`. -/
  | forward (msg : Writeback)
  deriving DecidableEq, Repr

/-- A transaction that is being decided. `active` says whether the client still knows it. -/
structure Request where
  txn : Transaction
  txnDigest : Digest
  fallback : Bool
  req : PendingRequest
  pendingPhase1s : Nat → Option PendingPhase1
  pendingPhase2 : Option PendingPhase2
  pendingFBs : Nat → Option PendingFB
  active : Bool
  sent : List Sent

/-- What happens to the request: replies to, and timeouts of, its shard clients. -/
inductive RequestEvent where
  | phase1Reply (group : Nat) (reply : Phase1Reply)
  | phase1Timeout (group : Nat)
  | phase2Reply (reply : Phase2Reply)
  | phase2Timeout
  | phase1FBReply (group : Nat) (msg : Phase1FBReply)
  | phase2FBReply (group : Nat) (p2r : Phase2Reply)
  | fbTimeout (group : Nat)
  /-- `InvokeFB`, which remembers the view that is proposed. -/
  | invokeFB (group : Nat) (proposedView : Nat)

namespace Request

variable (c : Configuration) (digestOf : Transaction → Digest)

section

variable (r : Request) (group : Nat)

/-- `Phase1` of `Commit`: Phase1 has been sent to all involved groups. -/
def own (txn : Transaction) : Request where
  txn := txn
  txnDigest := digestOf txn
  fallback := false
  req := { outstandingPhase1s := txn.involvedGroups.length }
  pendingPhase1s g := if g ∈ txn.involvedGroups then some {} else none
  pendingPhase2 := none
  pendingFBs _ := none
  active := true
  sent := []

/-- `SendPhase1FB`: Phase1FB has been sent to all involved groups. -/
def forOther (txn : Transaction) : Request where
  txn := txn
  txnDigest := digestOf txn
  fallback := true
  req := { outstandingPhase1s := txn.involvedGroups.length }
  pendingPhase1s _ := none
  pendingPhase2 := none
  pendingFBs g := if g ∈ txn.involvedGroups then some { txn := txn, txnDigest := digestOf txn } else none
  active := true
  sent := []

def phase2 : Request :=
  let req := r.req.phase2Processing c
  { r with
    req := req
    pendingPhase2 := some { txn := r.txn, txnDigest := r.txnDigest }
    sent := r.sent ++ [.phase2 ⟨req.decision, none, some r.txnDigest, req.p1ReplySigsGrouped, false⟩] }

/-- `Phase2FB`, and `StopP1FB` at all groups. -/
def phase2FB : Request :=
  let byP2 := decide (c.f + 1 ≤ r.req.p2Replies.length)
  let req := if byP2 then { r.req with startedPhase2 := true } else r.req.phase2Processing c
  { r with
    req := req
    pendingFBs := fun g => (r.pendingFBs g).map fun fb => { fb with p1 := false }
    sent := r.sent ++ [.phase2FB ⟨req.decision, none, r.txnDigest, if byP2 then none else some req.p1ReplySigsGrouped,
      if byP2 then some (req.p2Replies.filterMap Phase2Reply.signedP2Decision) else none⟩] }

/-- `Writeback` and `WritebackFB`. The request is forgotten, and `CleanFB` cleans the shard
clients of a fallback. -/
def writeback : Request :=
  { r with
    req := { r.req with startedWriteback := true }
    pendingFBs := fun _ => none
    active := false
    sent := r.sent ++ [.writeback ⟨r.req.decision, some r.txnDigest, none, r.req.writebackSigs c⟩] }

/-- `HandleAllPhase1Received` and `FBHandleAllPhase1Received`. -/
def handleAllPhase1Received : Request :=
  if r.req.fast then r.writeback c
  else if r.fallback then r.phase2FB c
  else r.phase2 c

/-- `Phase1Callback` and `Phase1FBcallbackA`. -/
def phase1Callback (p1 : PendingPhase1) : Request :=
  if !r.active || r.req.startedPhase2 || r.req.startedWriteback then r
  else
    let r := { r with req := r.req.phase1CallbackProcessing group p1 }
    if r.req.outstandingPhase1s = 0 then r.handleAllPhase1Received c else r

/-- `Phase2Callback` and `Phase2FBcallback`, of the shard client of `group`. -/
def phase2Callback (outcome : P2Outcome) : Request :=
  if !r.active || r.req.startedWriteback then r
  else
    let req := { r.req with
      p2ReplySigsGrouped := r.req.p2ReplySigsGrouped.set group outcome.sigs
      decision := outcome.decision
      decisionView := outcome.view
      fast := r.req.fast && !r.fallback }
    { r with req := req }.writeback c

end

/-- The upcalls of a fallback. The replies of `Phase1FBcallbackB` are kept for an election. -/
def fbCallback (group : Nat) (r : Request) : FBCallback → Request
  | .writeback wb =>
    if !r.active || r.req.startedWriteback then r
    else { r with
      req := { r.req with startedWriteback := true }
      pendingFBs := fun _ => none
      active := false
      sent := r.sent ++ [.forward { wb with txn := some r.txn }] }
  | .phase1A p1 => r.phase1Callback c group p1
  | .phase1B decision p2Replies =>
    if !r.active || r.req.startedPhase2 || r.req.startedWriteback then r
    else { r with req := { r.req with decision := decision, p2Replies := p2Replies } }
  | .phase2 outcome => r.phase2Callback c group outcome
  | .invoke => r

/-- Store what a handler has made of the fallback at a group, and make its upcalls. -/
def handled (r : Request) (group : Nat) (x : PendingFB × List FBCallback) : Request :=
  x.2.foldl (fbCallback c group) { r with pendingFBs := update r.pendingFBs group (some x.1) }

variable (zeroTimeout : Bool)

def step (r : Request) : RequestEvent → Option Request
  | .phase1Reply group reply =>
    match r.pendingPhase1s group with
    | none => some r
    | some p1 =>
      (p1.processP1R c digestOf zeroTimeout group r.txn r.txnDigest reply).map fun x =>
        let pending := update r.pendingPhase1s group (if x.2 then none else some x.1)
        let r := { r with pendingPhase1s := pending }
        if x.2 then r.phase1Callback c group x.1 else r
  | .phase1Timeout group =>
    match r.pendingPhase1s group with
    | none => some r
    | some p1 => p1.timeout.map fun p1 =>
        { r with pendingPhase1s := update r.pendingPhase1s group none }.phase1Callback c group p1
  | .phase2Reply reply =>
    match r.pendingPhase2, getLogGroup r.txn r.txnDigest with
    | some p2, some logGrp =>
      match p2.handlePhase2Reply c logGrp reply with
      | (p2, none) => some { r with pendingPhase2 := some p2 }
      | (_, some outcome) => some ({ r with pendingPhase2 := none }.phase2Callback c logGrp outcome)
    | _, _ => some r
  | .phase2Timeout =>
    if r.pendingPhase2.isNone then none
    else if !r.active || r.req.startedWriteback then some { r with pendingPhase2 := none }
    else some (r.phase2 c)
  | .phase1FBReply group msg =>
    match r.pendingFBs group with
    | none => some r
    | some fb => (fb.handlePhase1FBReply c digestOf zeroTimeout group msg r.active).map (r.handled c group)
  | .phase2FBReply group p2r =>
    match r.pendingFBs group with
    | none => some r
    | some fb =>
      let x := fb.processP2FBR c group p2r r.active
      some (r.handled c group (x.1, x.2.1))
  | .fbTimeout group =>
    match r.pendingFBs group with
    | none => none
    | some fb => fb.timeout.map (r.handled c group)
  | .invokeFB group proposedView =>
    match r.pendingFBs group with
    | none => some r
    | some fb => some (r.handled c group ({ fb with lastView := proposedView }, []))

end Request

end Pequin
